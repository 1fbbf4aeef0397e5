import TitanX.Model.EventTable
import TitanX.Proof.EventStore

/-!
# What gets into the table

The store hands every event to `writeToDb` once, in the order in which they were pushed
(`event_store_in_order`). From there on an event can be lost, but nothing is tried twice: as long
as the database adds a row only for the `INSERT` that sends it, the new rows are some of the
events pushed, in that order (`audit_trail_sound`).

What is lost beyond the rows that the server refuses is a matter of the connection. The store
finds out that one does not work any more by losing a row over it, and opens another. So if the
server answers again, one more row can be lost, and none if the connection was opened since
(`audit_trail_recovers`).
-/

namespace TitanX.Proof

open TitanX

/-! ## What is assumed of the database -/

/-- Only an `INSERT` changes the table: it adds its own row or nothing, and it adds the row if it
is reported to have worked. -/
structure Database.Lawful (d : Database) : Prop where
  connect : ∀ db, d.rows (d.connect db).1 = d.rows db
  finish : ∀ db, d.rows (d.finish db) = d.rows db
  outside : ∀ db x, d.rows (d.outside db x) = d.rows db
  exec : ∀ db row, d.rows (d.exec db row).1 = d.rows db
    ∨ d.rows (d.exec db row).1 = d.rows db ++ [row]
  stored : ∀ db row, (d.exec db row).2 = true → d.rows (d.exec db row).1 = d.rows db ++ [row]

/-- In the states `up` the server answers: it can be connected to, and over a connection that is
`live` it takes the rows that it accepts. Such a state does not end by a call of the store. -/
structure Database.Serves (d : Database) (accepts : Row → Bool) (up live : d.State → Prop) :
    Prop where
  finish : ∀ db, up db → up (d.finish db)
  connect : ∀ db, up db → (d.connect db).2 = true ∧ up (d.connect db).1 ∧ live (d.connect db).1
  exec : ∀ db row, up db → up (d.exec db row).1
  exec_live : ∀ db row, up db → live db → (d.exec db row).2 = true → live (d.exec db row).1
  accepted : ∀ db row, up db → live db → accepts row = true → (d.exec db row).2 = true

variable {d : Database} {accepts : Row → Bool} {up live : d.State → Prop}

/-! ## One write -/

/-- What a step adds to the events written is what it passes to `writeToDb`. -/
theorem written_step (s : EventStore) (a : EventStore.Action) :
    (s.step a).1.written = s.written ++ (PersistentStore.writes s a).toList := by
  cases a with
  | append event => exact (List.append_nil _).symm
  | appendStep i =>
      simp only [EventStore.step, PersistentStore.writes, Option.toList_none, List.append_nil]
      split
      · rename_i call _
        unfold EventStore.append
        dsimp only
        split
        · split <;> rfl
        · rfl
        · rfl
        · rfl
        · rfl
      · rfl
  | wake => exact (List.append_nil _).symm
  | close =>
      simp only [EventStore.step, PersistentStore.writes, Option.toList_none, List.append_nil]
      split <;> rfl
  | closeStep =>
      simp only [EventStore.step, PersistentStore.writes, Option.toList_none, List.append_nil]
      unfold EventStore.close
      split
      · rfl
      · rfl
      · rfl
      · split <;> rfl
      · rfl
  | writerStep =>
      have hlock : ∀ w, (s.lockThen w).written = s.written := by
        intro w
        unfold EventStore.lockThen
        split <;> rfl
      simp only [EventStore.step, EventStore.writerLoop, PersistentStore.writes]
      cases hw : s.writer <;> simp only [hlock, Option.toList_none, Option.toList_some, List.append_nil]
      case draining => cases s.queue <;> rfl
      case flushing => cases s.queue <;> simp

/-- The rows get the row that was sent, or stay as they are. -/
def Adds (rows : List Row) (row : Row) (rows' : List Row) : Prop :=
  rows' = rows ∨ rows' = rows ++ [row]

/-- `connectToDb` gives back the old connection if there is one, and a new one that failed. -/
theorem connectToDb_cases (t : EventTable d) :
    ∃ db, (db = t.db ∨ db = d.finish t.db)
      ∧ (((d.connect db).2 = true ∧ t.connectToDb = (⟨(d.connect db).1, true⟩, true))
        ∨ ((d.connect db).2 = false
          ∧ t.connectToDb = (⟨d.finish (d.connect db).1, false⟩, false))) := by
  refine ⟨if t.conn then d.finish t.db else t.db, ?_, ?_⟩
  · split
    · exact .inr rfl
    · exact .inl rfl
  · unfold EventTable.connectToDb
    generalize (if t.conn then d.finish t.db else t.db) = db
    dsimp only
    cases hok : (d.connect db).2 with
    | true => exact .inl ⟨rfl, rfl⟩
    | false => exact .inr ⟨rfl, rfl⟩

theorem rows_connectToDb (hd : Database.Lawful d) (t : EventTable d) :
    d.rows t.connectToDb.1.db = d.rows t.db := by
  obtain ⟨db, hdb, hcases⟩ := connectToDb_cases t
  have hfinish : d.rows db = d.rows t.db := by
    rcases hdb with rfl | rfl
    · rfl
    · exact hd.finish _
  rcases hcases with ⟨-, heq⟩ | ⟨-, heq⟩
  · rw [heq]
    exact (hd.connect _).trans hfinish
  · rw [heq]
    exact (hd.finish _).trans ((hd.connect _).trans hfinish)

theorem rows_release (hd : Database.Lawful d) (t : EventTable d) :
    d.rows t.release.db = d.rows t.db := by
  unfold EventTable.release
  split
  · exact hd.finish _
  · rfl

theorem insert_adds (hd : Database.Lawful d) (t : EventTable d) (row : Row) :
    Adds (d.rows t.db) row (d.rows (t.insert row).db) := by
  unfold EventTable.insert
  dsimp only
  split
  · exact hd.exec _ _
  · rw [rows_connectToDb hd]
    exact hd.exec _ _

theorem writeToDb_adds (hd : Database.Lawful d) (t : EventTable d) (row : Row) :
    Adds (d.rows t.db) row (d.rows (t.writeToDb row).db) := by
  unfold EventTable.writeToDb
  dsimp only
  split
  · exact insert_adds hd t row
  · rw [← rows_connectToDb hd t]
    split
    · exact insert_adds hd _ row
    · exact .inl rfl

/-- The connection, if there is one, is live. -/
def Fresh (live : d.State → Prop) (t : EventTable d) : Prop := t.conn = true → live t.db

/-- While the server answers, `connectToDb` opens a connection. -/
theorem connectToDb_up (hs : Database.Serves d accepts up live) {t : EventTable d} (hup : up t.db) :
    ∃ db, t.connectToDb = (⟨db, true⟩, true) ∧ up db ∧ live db := by
  obtain ⟨db, hdb, hcases⟩ := connectToDb_cases t
  have hfinish : up db := by
    rcases hdb with rfl | rfl
    · exact hup
    · exact hs.finish _ hup
  obtain ⟨hok, hup', hlive⟩ := hs.connect db hfinish
  rcases hcases with ⟨-, heq⟩ | ⟨hfailed, -⟩
  · exact ⟨_, heq, hup', hlive⟩
  · exact absurd (hok.symm.trans hfailed) (by decide)

/-- What a write does while the server answers: a fresh connection stays so and an accepted row
is stored; over another one the row is stored or the connection is a fresh one then. -/
structure Served (accepts : Row → Bool) (up live : d.State → Prop) (t : EventTable d) (row : Row)
    (t' : EventTable d) : Prop where
  up : up t'.db
  fresh : Fresh live t → Fresh live t' ∧ (accepts row = true → d.rows t'.db = d.rows t.db ++ [row])
  stored : d.rows t'.db = d.rows t.db ++ [row] ∨ Fresh live t'

theorem insert_served (hd : Database.Lawful d) (hs : Database.Serves d accepts up live)
    {t : EventTable d} (hup : up t.db) (hconn : t.conn = true) (row : Row) :
    Served accepts up live t row (t.insert row) := by
  unfold EventTable.insert
  dsimp only
  by_cases hok : (d.exec t.db row).2 = true
  · rw [if_pos hok]
    have hstored := hd.stored _ _ hok
    exact ⟨hs.exec _ _ hup,
      fun hfresh => ⟨fun _ => hs.exec_live _ _ hup (hfresh hconn) hok, fun _ => hstored⟩, .inl hstored⟩
  · rw [if_neg hok]
    have hup' : up (EventTable.mk (d.exec t.db row).1 t.conn).db := hs.exec _ row hup
    obtain ⟨db, heq, hupdb, hlive⟩ := connectToDb_up hs hup'
    rw [heq]
    refine ⟨hupdb, fun hfresh => ⟨fun _ => hlive, fun haccepted => ?_⟩, .inr fun _ => hlive⟩
    exact absurd (hs.accepted _ _ hup (hfresh hconn) haccepted) hok

theorem writeToDb_served (hd : Database.Lawful d) (hs : Database.Serves d accepts up live)
    {t : EventTable d} (hup : up t.db) (row : Row) :
    Served accepts up live t row (t.writeToDb row) := by
  unfold EventTable.writeToDb
  dsimp only
  split
  · exact insert_served hd hs hup ‹_› row
  · -- without a connection the row goes over one that was opened for it
    have hrows := rows_connectToDb hd t
    obtain ⟨db, heq, hupdb, hlive⟩ := connectToDb_up hs hup
    rw [heq] at hrows ⊢
    rw [if_pos rfl]
    obtain ⟨hup', hfresh, -⟩ := insert_served (t := ⟨db, true⟩) hd hs hupdb rfl row
    obtain ⟨hfresh', hstored⟩ := hfresh fun _ => hlive
    dsimp only at hrows hstored
    rw [hrows] at hstored
    exact ⟨hup', fun _ => ⟨hfresh', hstored⟩, .inr hfresh'⟩

/-! ## Runs -/

def persistedAfter (db : d.State) (actions : List (PersistentStore.Action d)) : PersistentStore d :=
  run PersistentStore.step (PersistentStore.initial db) actions

/-- `order_events` after a run. -/
def rowsAfter (db : d.State) (actions : List (PersistentStore.Action d)) : List Row :=
  d.rows (persistedAfter db actions).table.db

/-- The steps of the store in a run. -/
def storeActions : PersistentStore.Action d → List EventStore.Action
  | .store action _ => [action]
  | .outside _ => []

/-- The store does not notice what happens to the database. -/
theorem store_persistedAfter (db : d.State) (actions : List (PersistentStore.Action d)) :
    (persistedAfter db actions).store = storeAfter (actions.flatMap storeActions) := by
  rw [← flatMap_trace PersistentStore.step storeActions (PersistentStore.initial db)]
  refine run_component PersistentStore.step EventStore.step PersistentStore.store
    (fun t => storeActions t.input) (fun is a => ?_) actions
  cases a with
  | outside x => rfl
  | store action eventType =>
      simp only [lastCall, PersistentStore.step, storeActions]
      split <;> rfl

/-- What a step does to the table. -/
inductive TableSteps (p : PersistentStore d) : PersistentStore.Action d → PersistentStore d → Prop where
  | idle {action : EventStore.Action} {eventType : String} {store : EventStore}
      (h : store.written = p.store.written) :
      TableSteps p (.store action eventType) { p with store }
  | released {action : EventStore.Action} {eventType : String} {store : EventStore}
      (h : store.written = p.store.written) :
      TableSteps p (.store action eventType) { p with store, table := p.table.release }
  | wrote {action : EventStore.Action} {store : EventStore} (row : Row)
      (h : store.written = p.store.written ++ [row.event]) :
      TableSteps p (.store action row.eventType)
        { store, table := p.table.writeToDb row, sent := p.sent ++ [row] }
  | outside (x : d.Outside) :
      TableSteps p (.outside x) { p with table := { p.table with db := d.outside p.table.db x } }

theorem step_table (p : PersistentStore d) (a : PersistentStore.Action d) :
    TableSteps p a (p.step a).1 := by
  cases a with
  | outside x => exact .outside x
  | store action eventType =>
      have hwritten := written_step p.store action
      simp only [PersistentStore.step]
      cases hw : PersistentStore.writes p.store action with
      | some event =>
          rw [hw, Option.toList_some] at hwritten
          exact .wrote ⟨event, eventType⟩ hwritten
      | none =>
          rw [hw, Option.toList_none, List.append_nil] at hwritten
          dsimp only
          split
          · exact .released hwritten
          · exact .idle hwritten

/-! ## Nothing is made up -/

/-- The rows since `rows₀` are some of those that were sent, and those are the events written. -/
structure RowsInv (rows₀ : List Row) (p : PersistentStore d) : Prop where
  sent : p.sent.map Row.event = p.store.written
  rows : ∃ added, d.rows p.table.db = rows₀ ++ added ∧ added.Sublist p.sent

theorem rowsInv_step (hd : Database.Lawful d) {rows₀ : List Row} {p p' : PersistentStore d}
    {a : PersistentStore.Action d} (h : RowsInv rows₀ p) (hstep : TableSteps p a p') :
    RowsInv rows₀ p' := by
  obtain ⟨added, hrows, hsub⟩ := h.rows
  cases hstep with
  | idle hwritten => exact ⟨h.sent.trans hwritten.symm, added, hrows, hsub⟩
  | released hwritten =>
      exact ⟨h.sent.trans hwritten.symm, added, (rows_release hd p.table).trans hrows, hsub⟩
  | outside x => exact ⟨h.sent, added, (hd.outside _ x).trans hrows, hsub⟩
  | wrote row hwritten =>
      refine ⟨?_, ?_⟩
      · rw [List.map_append, h.sent]
        exact hwritten.symm
      · rcases writeToDb_adds hd p.table row with hkept | hadded
        · exact ⟨added, hkept.trans hrows, hsub.trans (List.sublist_append_left _ _)⟩
        · refine ⟨added ++ [row], ?_, hsub.append (List.Sublist.refl _)⟩
          dsimp only
          rw [hadded, hrows, List.append_assoc]

theorem rowsInv_reachable (hd : Database.Lawful d) (db : d.State)
    (actions : List (PersistentStore.Action d)) :
    RowsInv (d.rows db) (persistedAfter db actions) := by
  refine run_always PersistentStore.step (P := fun _ p => RowsInv (d.rows db) p) ?_
    (fun _ a hp => rowsInv_step hd hp (step_table _ a)) actions
  exact ⟨rfl, [], (rows_connectToDb hd ⟨db, false⟩).trans (List.append_nil _).symm,
    List.Sublist.slnil⟩

/-- **Nothing is made up, repeated or reordered.** Whatever happens to the server and the
connection, the rows that were there stay, and the new ones are some of the events that were
pushed, in that order, none more often than it was pushed. -/
theorem audit_trail_sound (hd : Database.Lawful d) (db : d.State)
    (actions : List (PersistentStore.Action d)) :
    ∃ added, rowsAfter db actions = d.rows db ++ added
      ∧ (added.map Row.event).Sublist (persistedAfter db actions).store.pushed
      ∧ ∀ e, (added.map Row.event).count e ≤ (persistedAfter db actions).store.pushed.count e := by
  have h := rowsInv_reachable hd db actions
  obtain ⟨added, hrows, hsub⟩ := h.rows
  have hpushed : (added.map Row.event).Sublist (persistedAfter db actions).store.pushed := by
    refine (hsub.map Row.event).trans ?_
    rw [h.sent, store_persistedAfter, (storeInv_reachable _).contents]
    exact List.sublist_append_left _ _
  exact ⟨added, hrows, hpushed, fun e => hpushed.count_le e⟩

/-- A server that can go down and come back. Over a connection that was opened since, it takes
the rows whose `event_type` fits its column. -/
structure Server where
  up : Bool
  linked : Bool
  rows : List Row

def fitsType (row : Row) : Bool := row.eventType.length ≤ 50

def restartable : Database where
  State := Server
  Outside := Bool
  rows := Server.rows
  connect s := ({ s with linked := s.up }, s.up)
  exec s row :=
    if s.up && s.linked && fitsType row then ({ s with rows := s.rows ++ [row] }, true) else (s, false)
  finish s := { s with linked := false }
  outside s up := { s with up, linked := s.linked && up }

def isUp (s : Server) : Prop := s.up = true

def isLinked (s : Server) : Prop := s.linked = true

theorem restartable_lawful : Database.Lawful restartable where
  connect _ := rfl
  finish _ := rfl
  outside _ _ := rfl
  exec s row := by
    simp only [restartable]
    split
    · exact .inr rfl
    · exact .inl rfl
  stored s row := by
    simp only [restartable]
    split
    · exact fun _ => rfl
    · exact fun h => absurd h Bool.false_ne_true

theorem restartable_serves : Database.Serves restartable fitsType isUp isLinked where
  finish _ hup := hup
  connect _ hup := ⟨hup, hup, hup⟩
  exec s row hup := by
    simp only [restartable]
    split <;> exact hup
  exec_live s row _ hlinked _ := by
    simp only [restartable]
    split <;> exact hlinked
  accepted s row hup hlinked hfits := by
    have hall : (s.up && s.linked && fitsType row) = true := by rw [hup, hlinked, hfits]; rfl
    simp only [restartable, hall, if_true]

/-- A buy in AAPL. -/
def auditEvent (orderId : String) : OrderEvent :=
  OrderEvent.received (Order.create orderId 0 "A" "AAPL" .buy .limit 100 0 1)

def auditRow (orderId : String) : Row := ⟨auditEvent orderId, "ORDER_RECEIVED"⟩

/-- The `i`-th call of `append`, from its beginning to its end. -/
def appended (i : Nat) (e : OrderEvent) : List EventStore.Action :=
  [.append e, .appendStep i, .appendStep i, .appendStep i, .appendStep i]

def readingReceived (actions : List EventStore.Action) : List (PersistentStore.Action restartable) :=
  actions.map (fun a => .store a "ORDER_RECEIVED")

/-- Two events are in the queue when the server restarts. -/
def restarted : List (PersistentStore.Action restartable) :=
  readingReceived (appended 0 (auditEvent "a") ++ appended 1 (auditEvent "b"))
    ++ [.outside false, .outside true]

/-- The writer empties the queue. -/
def drained : List (PersistentStore.Action restartable) :=
  readingReceived (List.replicate 12 .writerStep)

def emptyTable : restartable.State := Server.mk true false []

theorem audit_trail_sound_restarted :
    rowsAfter emptyTable (restarted ++ drained) = [auditRow "b"]
      ∧ ∃ added, [auditRow "b"] = added
        ∧ (added.map Row.event).Sublist [auditEvent "a", auditEvent "b"] := by
  have hrows : rowsAfter emptyTable (restarted ++ drained) = [auditRow "b"] := by
    decide +kernel
  have hpushed : (persistedAfter emptyTable (restarted ++ drained)).store.pushed
      = [auditEvent "a", auditEvent "b"] := by decide +kernel
  obtain ⟨added, hadded, hsub, -⟩ := audit_trail_sound restartable_lawful emptyTable (restarted ++ drained)
  rw [hrows] at hadded
  rw [hpushed] at hsub
  exact ⟨hrows, added, hadded, hsub⟩

/-! ## After an outage -/

/-- What happens to the database does not stop the server or break the connection. -/
def Calm (up live : d.State → Prop) : PersistentStore.Action d → Prop
  | .store _ _ => True
  | .outside x => ∀ db, up db → up (d.outside db x) ∧ (live db → live (d.outside db x))

/-- The rows sent in `later`, after `before`. -/
def sentIn (db : d.State) (before later : List (PersistentStore.Action d)) : List Row :=
  (persistedAfter db (before ++ later)).sent.drop (persistedAfter db before).sent.length

/-- Of the rows `sent`, those that are accepted were added, but for `lost`. -/
def AddedBut (accepts : Row → Bool) (sent lost added : List Row) : Prop :=
  added.Sublist sent
    ∧ ∃ pre post, sent = pre ++ lost ++ post ∧ ((pre ++ post).filter accepts).Sublist added

theorem addedBut_snoc {sent lost added : List Row} (h : AddedBut accepts sent lost added) {row : Row}
    {rows : List Row} (hrows : Adds added row rows) (hrow : accepts row = true → rows = added ++ [row]) :
    AddedBut accepts (sent ++ [row]) lost rows := by
  obtain ⟨hsub, pre, post, hsent, hkept⟩ := h
  refine ⟨?_, pre, post ++ [row], ?_, ?_⟩
  · rcases hrows with rfl | rfl
    · exact hsub.trans (List.sublist_append_left _ _)
    · exact hsub.append (List.Sublist.refl _)
  · rw [hsent, List.append_assoc (pre ++ lost)]
  · rw [← List.append_assoc, List.filter_append]
    by_cases hacc : accepts row = true
    · rw [hrow hacc, List.filter_singleton, hacc]
      exact hkept.append (List.Sublist.refl _)
    · rw [List.filter_singleton, Bool.not_eq_true] at *
      rw [hacc, Bool.cond_false, List.append_nil]
      rcases hrows with rfl | rfl
      · exact hkept
      · exact hkept.trans (List.sublist_append_left _ _)

/-- The rows since `rows₀` after one more write. -/
theorem adds_since {rows₀ added rows : List Row} {row : Row} (h : Adds (rows₀ ++ added) row rows) :
    ∃ added', rows = rows₀ ++ added' ∧ Adds added row added'
      ∧ (rows = rows₀ ++ added ++ [row] → added' = added ++ [row]) := by
  rcases h with h | h
  · refine ⟨added, h, .inl rfl, fun hrow => ?_⟩
    rw [h] at hrow
    exact absurd (congrArg List.length hrow) (by simp)
  · exact ⟨added ++ [row], by rw [h, List.append_assoc], .inr rfl, fun _ => rfl⟩

/-- What is known of `p` since the rows were `rows₀` and those sent `sent₀`: at most one accepted
row is lost, and as long as none is the connection may be an old one. `fresh₀` is for a fresh
connection at the start. -/
structure Recovers (accepts : Row → Bool) (up live : d.State → Prop) (rows₀ sent₀ : List Row)
    (fresh₀ : Prop) (ws lost added : List Row) (p : PersistentStore d) : Prop where
  up : up p.table.db
  sent : p.sent = sent₀ ++ ws
  rows : d.rows p.table.db = rows₀ ++ added
  addedBut : AddedBut accepts ws lost added
  one : lost.length ≤ 1
  kept : fresh₀ → lost = []
  recent : Fresh live p.table ∨ (¬ fresh₀ ∧ lost = [] ∧ added = ws)

/-- The step of `recovers_step` in which something is written. -/
theorem recovers_write (hd : Database.Lawful d) (hs : Database.Serves d accepts up live)
    {rows₀ sent₀ ws lost added : List Row} {fresh₀ : Prop} {p : PersistentStore d}
    (h : Recovers accepts up live rows₀ sent₀ fresh₀ ws lost added p) (store : EventStore) (row : Row) :
    ∃ lost' added', Recovers accepts up live rows₀ sent₀ fresh₀ (ws ++ [row]) lost' added'
      { store, table := p.table.writeToDb row, sent := p.sent ++ [row] } := by
  have hserved := writeToDb_served hd hs h.up row
  have hadds := writeToDb_adds hd p.table row
  rw [h.rows] at hadds
  obtain ⟨added', hrows, hadds', hstored⟩ := adds_since hadds
  have hsent : p.sent ++ [row] = sent₀ ++ (ws ++ [row]) := by rw [h.sent, List.append_assoc]
  rcases h.recent with hfresh | ⟨hstale, hnone, hall⟩
  · obtain ⟨hfresh', haccepted⟩ := hserved.fresh hfresh
    rw [h.rows] at haccepted
    exact ⟨lost, added', hserved.up, hsent, hrows,
      addedBut_snoc h.addedBut hadds' (fun hacc => hstored (haccepted hacc)), h.one, h.kept, .inl hfresh'⟩
  · subst hnone hall
    rcases hserved.stored with hrow | hfresh'
    · -- the old connection still works
      rw [h.rows] at hrow
      obtain rfl := hstored hrow
      exact ⟨[], added ++ [row], hserved.up, hsent, hrows, addedBut_snoc h.addedBut hadds' (fun _ => rfl),
        Nat.zero_le _, fun _ => rfl, .inr ⟨hstale, rfl, rfl⟩⟩
    · -- this write is the one that finds it broken
      refine ⟨[row], added', hserved.up, hsent, hrows, ⟨?_, added, [], ?_, ?_⟩, Nat.le_refl _,
        fun hf => absurd hf hstale, .inl hfresh'⟩
      · rcases hadds' with rfl | rfl
        · exact List.sublist_append_left _ _
        · exact List.Sublist.refl _
      · rw [List.append_nil]
      · rw [List.append_nil]
        rcases hadds' with rfl | rfl
        · exact List.filter_sublist
        · exact List.filter_sublist.trans (List.sublist_append_left _ _)

theorem recovers_step (hd : Database.Lawful d) (hs : Database.Serves d accepts up live)
    {rows₀ sent₀ : List Row} {fresh₀ : Prop} {p p' : PersistentStore d} {a : PersistentStore.Action d}
    (ha : Calm up live a) (hstep : TableSteps p a p')
    (h : ∃ ws lost added, Recovers accepts up live rows₀ sent₀ fresh₀ ws lost added p) :
    ∃ ws lost added, Recovers accepts up live rows₀ sent₀ fresh₀ ws lost added p' := by
  obtain ⟨ws, lost, added, h⟩ := h
  cases hstep with
  | idle _ => exact ⟨ws, lost, added, h.up, h.sent, h.rows, h.addedBut, h.one, h.kept, h.recent⟩
  | released _ =>
      have hup : up p.table.release.db := by
        unfold EventTable.release
        split
        · exact hs.finish _ h.up
        · exact h.up
      have hfresh : Fresh live p.table.release := by
        unfold EventTable.release
        split
        · exact fun hconn => absurd hconn Bool.false_ne_true
        · exact fun hconn => absurd hconn ‹_›
      exact ⟨ws, lost, added, hup, h.sent, (rows_release hd _).trans h.rows, h.addedBut, h.one, h.kept,
        .inl hfresh⟩
  | outside x =>
      obtain ⟨hup, hlive⟩ := ha _ h.up
      exact ⟨ws, lost, added, hup, h.sent, (hd.outside _ x).trans h.rows, h.addedBut, h.one, h.kept,
        h.recent.imp_left fun hfresh hconn => hlive (hfresh hconn)⟩
  | wrote row _ =>
      obtain ⟨lost', added', h'⟩ := recovers_write hd hs h _ row
      exact ⟨ws ++ [row], lost', added', h'⟩

theorem recovers_run (hd : Database.Lawful d) (hs : Database.Serves d accepts up live) {db : d.State}
    {before later : List (PersistentStore.Action d)} (hup : up (persistedAfter db before).table.db)
    (hcalm : ∀ a ∈ later, Calm up live a) :
    ∃ ws lost added, Recovers accepts up live (rowsAfter db before) (persistedAfter db before).sent
      (Fresh live (persistedAfter db before).table) ws lost added
      (persistedAfter db (before ++ later)) := by
  have hcut : persistedAfter db (before ++ later)
      = run PersistentStore.step (persistedAfter db before) later := run_append ..
  rw [hcut]
  refine run_invariant PersistentStore.step (V := fun is => ∀ a ∈ is, Calm up live a)
    (P := fun _ p => ∃ ws lost added, Recovers accepts up live (rowsAfter db before)
      (persistedAfter db before).sent (Fresh live (persistedAfter db before).table) ws lost added p)
    (fun is a h x hx => h x (List.mem_append_left _ hx)) ?_
    (fun is a h hp => recovers_step hd hs (h a (by simp)) (step_table _ a) hp) later hcalm
  exact ⟨[], [], [], hup, (List.append_nil _).symm, (List.append_nil _).symm,
    ⟨List.Sublist.slnil, [], [], rfl, List.Sublist.slnil⟩, Nat.zero_le _, fun _ => rfl,
    (Classical.em _).imp_right fun hstale => ⟨hstale, rfl, rfl⟩⟩

/-- **What an outage costs.** From the time on from which the server answers, every row that is
sent and that it accepts is stored, with one exception at most, and without any if the connection
was opened since or has yet to be opened. -/
theorem audit_trail_recovers (hd : Database.Lawful d) (hs : Database.Serves d accepts up live)
    {db : d.State} {before later : List (PersistentStore.Action d)}
    (hup : up (persistedAfter db before).table.db) (hcalm : ∀ a ∈ later, Calm up live a) :
    ∃ lost added, rowsAfter db (before ++ later) = rowsAfter db before ++ added
      ∧ AddedBut accepts (sentIn db before later) lost added
      ∧ lost.length ≤ 1 ∧ (Fresh live (persistedAfter db before).table → lost = []) := by
  obtain ⟨ws, lost, added, h⟩ := recovers_run hd hs hup hcalm
  have hws : sentIn db before later = ws := by rw [sentIn, h.sent, List.drop_left]
  exact ⟨lost, added, h.rows, hws ▸ h.addedBut, h.one, h.kept⟩

theorem calm_readingReceived (actions : List EventStore.Action) :
    ∀ a ∈ readingReceived actions, Calm isUp isLinked a := by
  intro a ha
  obtain ⟨action, -, rfl⟩ := List.mem_map.mp ha
  trivial

theorem audit_trail_recovers_restarted :
    sentIn emptyTable restarted drained = [auditRow "a", auditRow "b"]
      ∧ rowsAfter emptyTable (restarted ++ drained) = [auditRow "b"]
      ∧ ∃ lost, lost.length ≤ 1
        ∧ AddedBut fitsType [auditRow "a", auditRow "b"] lost [auditRow "b"] := by
  have hsent : sentIn emptyTable restarted drained
      = [auditRow "a", auditRow "b"] := by decide +kernel
  have hrows : rowsAfter emptyTable (restarted ++ drained) = [auditRow "b"] := by
    decide +kernel
  have hbefore : rowsAfter emptyTable restarted = [] := by decide +kernel
  have hup : isUp (persistedAfter emptyTable restarted).table.db := rfl
  have hcalm : ∀ a ∈ drained, Calm isUp isLinked a := calm_readingReceived _
  obtain ⟨lost, added, hadded, hbut, hone, -⟩ :=
    audit_trail_recovers restartable_lawful restartable_serves hup hcalm
  rw [hbefore, List.nil_append] at hadded
  rw [← hadded] at hbut
  refine ⟨hsent, hrows, lost, hone, ?_⟩
  rw [← hsent, ← hrows]
  exact hbut

/-! ## A run without an outage -/

/-- **Without an outage only what the server refuses is lost.** If the server answers all the
time, what was pushed before `close` was called has been sent when `close` has returned, before
anything else, and all that was sent and is accepted is in the table. -/
theorem audit_trail_complete (hd : Database.Lawful d) (hs : Database.Serves d accepts up live)
    {db : d.State} (hup : up db) {actions : List (PersistentStore.Action d)}
    (hcalm : ∀ a ∈ actions, Calm up live a) {before after : List EventStore.Action}
    (hcut : actions.flatMap storeActions = before ++ .close :: after) (hfirst : .close ∉ before)
    (hclosed : (persistedAfter db actions).store.closer = .returned) :
    ∃ added, rowsAfter db actions = d.rows db ++ added
      ∧ (storeAfter before).pushed <+: (persistedAfter db actions).sent.map Row.event
      ∧ ((persistedAfter db actions).sent.filter accepts).Sublist added
      ∧ ((∀ row ∈ (persistedAfter db actions).sent, accepts row = true) →
          (storeAfter before).pushed <+: added.map Row.event) := by
  -- the constructor has opened a connection, so there is none to be found broken
  obtain ⟨db₀, hconnect, hup₀, hlive₀⟩ := connectToDb_up (t := ⟨db, false⟩) hs hup
  have hinit : (persistedAfter db []).table = ⟨db₀, true⟩ := congrArg Prod.fst hconnect
  have hup₀' : up (persistedAfter db []).table.db := by rw [hinit]; exact hup₀
  have hrows₀ : rowsAfter db [] = d.rows db := rows_connectToDb hd ⟨db, false⟩
  obtain ⟨ws, lost, added, h⟩ :=
    recovers_run hd hs hup₀' hcalm
  have hsent : (persistedAfter db actions).sent = ws := h.sent
  have hlost : lost = [] := h.kept (by rw [hinit]; exact fun _ => hlive₀)
  obtain ⟨hsub, pre, post, hws, hkept⟩ := h.addedBut
  rw [hlost, List.append_nil] at hws
  rw [← hws] at hkept
  have hprefix : (storeAfter before).pushed <+: (persistedAfter db actions).sent.map Row.event := by
    rw [(rowsInv_reachable hd db actions).sent]
    have hstore := store_persistedAfter db actions
    rw [hstore] at hclosed ⊢
    have hended := (storeInv_reachable _).joined hclosed
    rw [hcut] at hended ⊢
    exact (keeps_pushed hfirst (.close :: after)).ended hended
  rw [hsent] at hprefix ⊢
  refine ⟨added, hrows₀ ▸ h.rows, hprefix, hkept, fun hall => ?_⟩
  rw [List.filter_eq_self.mpr hall] at hkept
  rw [hsub.antisymm hkept]
  exact hprefix

/-- One event is pushed and written, and the store is closed. -/
def quietRun : List (PersistentStore.Action restartable) :=
  readingReceived ((appended 0 (auditEvent "a") ++ List.replicate 8 .writerStep)
    ++ [.close, .closeStep, .closeStep, .writerStep, .writerStep, .writerStep, .closeStep])

theorem audit_trail_complete_quietRun :
    (persistedAfter emptyTable quietRun).store.closer = .returned
      ∧ [auditEvent "a"] <+: (rowsAfter emptyTable quietRun).map Row.event := by
  have hcut : quietRun.flatMap storeActions
      = (appended 0 (auditEvent "a") ++ List.replicate 8 .writerStep)
        ++ .close :: [.closeStep, .closeStep, .writerStep, .writerStep, .writerStep, .closeStep] := by
    rfl
  have hclosed : (persistedAfter emptyTable quietRun).store.closer = .returned := by
    decide +kernel
  have hpushed : (storeAfter (appended 0 (auditEvent "a") ++ List.replicate 8 .writerStep)).pushed
      = [auditEvent "a"] := by decide +kernel
  have hcalm : ∀ a ∈ quietRun, Calm isUp isLinked a := calm_readingReceived _
  have hup : isUp emptyTable := rfl
  obtain ⟨added, hrows, -, -, hall⟩ := audit_trail_complete restartable_lawful restartable_serves
    hup hcalm hcut (by decide +kernel) hclosed
  refine ⟨hclosed, ?_⟩
  rw [hrows, ← hpushed]
  exact hall (by decide +kernel)

end TitanX.Proof
