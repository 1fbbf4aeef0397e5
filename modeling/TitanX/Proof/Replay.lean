import TitanX.Proof.Events
import TitanX.Proof.Untimed

/-!
# Replaying the event log

The event log is documented as what crash recovery replays to get the books back. Replay
needs one kind of event for that: an `orderReceived` brings back its match, and everything
else in the log follows from it. What it cannot bring back is a cancel. `cancel` takes an
order out of its book and reports nothing.

So here is the log with one entry more, for each cancel that finds its order (`auditLog`).
Replaying that reconstructs every book (`replay_reconstructs`), hence it determines them;
and the log as it is does where no cancel of the run finds anything.
-/

namespace TitanX.Proof

open TitanX MatchingEngine

/-! ## Logs -/

/-- What the engine reported over a run. -/
def eventLog (ops : List EngineOp) : List OrderEvent :=
  (marketTrace ops).flatMap (fun t => t.output.submitted.events)

/-- An event, or a removal that the engine does not report. -/
inductive Entry where
  | event (event : OrderEvent)
  | removed (symbol orderId : String)

/-- What is to be known of a call. -/
def entriesOf (t : Transition Market EngineOp EngineOut) : List Entry :=
  match t.input with
  | .cancel symbol orderId =>
      if Hits t.before.engine symbol orderId then [.removed symbol orderId] else []
  | _ => t.output.submitted.events.map .event

/-- The event log, completed with the removals. -/
def auditLog (ops : List EngineOp) : List Entry := (marketTrace ops).flatMap entriesOf

theorem auditLog_snoc (ops : List EngineOp) (op : EngineOp) :
    auditLog (ops ++ [op])
      = auditLog ops ++ entriesOf (lastCall Market.step Market.initial ops op) := by
  unfold auditLog marketTrace
  rw [trace_snoc, List.flatMap_append, List.flatMap_singleton]

/-! ## Replay -/

/-- The books by symbol after one more entry. Only orders that were received and removals
change a book; what ids and times the replay draws does not matter. -/
def replayStep (books : String → OrderBook) : Entry → String → OrderBook
  | .event event =>
      if event.type = .orderReceived then
        Function.update books event.symbol
          ((books event.symbol).matchIncoming still event.orderSnapshot).2
      else books
  | .removed symbol orderId =>
      Function.update books symbol ((books symbol).removeFromBook orderId).2

def replay (log : List Entry) : String → OrderBook := log.foldl replayStep OrderBook.new

theorem replay_append (log log' : List Entry) :
    replay (log ++ log') = log'.foldl replayStep (replay log) := List.foldl_append

/-- Events other than receptions are passed over. -/
theorem replay_skip (events : List OrderEvent) (books : String → OrderBook)
    (h : ∀ event ∈ events, event.type ≠ .orderReceived) :
    (events.map Entry.event).foldl replayStep books = books := by
  induction events with
  | nil => rfl
  | cons event events ih =>
      rw [List.map_cons, List.foldl_cons, replayStep, if_neg (h event (List.mem_cons_self ..))]
      exact ih (fun event' he => h event' (List.mem_cons_of_mem _ he))

theorem process_replay {e : MatchingEngine} (hstops : e.stopOrders = ∅) (env : SubmitEnv)
    (o : Order) {books : String → OrderBook} (h : ∀ symbol, Alike (e.bookOf symbol) (books symbol)) :
    ∀ symbol, Alike ((e.process env o).1.bookOf symbol)
      (((e.process env o).2.events.map Entry.event).foldl replayStep books symbol) := by
  intro symbol
  obtain ⟨k, hevents⟩ := process_events e env o
  rw [(process_engine hstops env o).1, bookOf_afterMatch, hevents, List.map_cons, List.foldl_cons,
    replay_skip]
  · show Alike _ (Function.update books o.symbol _ symbol)
    by_cases hs : symbol = o.symbol
    · subst hs
      rw [if_pos rfl, Function.update_self]
      exact (match_alike (h o.symbol) env.amb still (SameOrder.refl o)).2
    · rw [if_neg hs, Function.update_of_ne hs]
      exact h symbol
  · -- after the reception there are only fills and a rest
    intro event he
    rcases List.mem_append.mp he with he | he
    · obtain ⟨f, -, rfl⟩ := List.mem_map.mp he
      exact EventType.noConfusion
    · split at he
      · rw [List.mem_singleton.mp he]
        exact EventType.noConfusion
      · cases he

theorem cancel_replay {e : MatchingEngine} {books : String → OrderBook}
    (h : ∀ symbol, Alike (e.bookOf symbol) (books symbol)) (symbol orderId : String) :
    ∀ symbol', Alike ((e.cancel symbol orderId).2.bookOf symbol')
      ((if Hits e symbol orderId then [Entry.removed symbol orderId] else []).foldl
        replayStep books symbol') := by
  intro symbol'
  rw [bookOf_cancel_hits]
  split
  · rename_i hhit
    obtain ⟨rfl, hhit⟩ := hhit
    rw [if_pos hhit]
    show Alike _ (Function.update books symbol' _ symbol')
    rw [Function.update_self]
    exact remove_alike (h symbol') orderId
  · rename_i hother
    split
    · rename_i hhit
      show Alike _ (Function.update books symbol _ symbol')
      rw [Function.update_of_ne (fun hs => hother ⟨hs, hhit⟩)]
      exact h symbol'
    · exact h symbol'

theorem step_replay {m : Market} (hinv : EngineInv m.engine []) {books : String → OrderBook}
    (h : ∀ symbol, Alike (m.engine.bookOf symbol) (books symbol)) (op : EngineOp) :
    ∀ symbol, Alike ((m.step op).1.engine.bookOf symbol)
      ((entriesOf ⟨m, op, (m.step op).2, (m.step op).1⟩).foldl replayStep books symbol) := by
  cases op with
  | submit env o =>
      show ∀ symbol, Alike ((m.engine.submit env o).1.bookOf symbol)
        (((m.engine.submit env o).2.events.map Entry.event).foldl replayStep books symbol)
      rcases submit_report m.engine env o with
        ⟨-, -, hbooks, -, hevents⟩ | ⟨-, -, hbooks, -, reason, hevents⟩ | ⟨-, r', hap, heq⟩
      · intro symbol
        rw [hevents, bookOf_of_books hbooks]
        exact h symbol
      · intro symbol
        rw [hevents, replay_skip _ _ (fun event he => by
          rw [List.mem_singleton.mp he]; exact EventType.noConfusion), bookOf_of_books hbooks]
        exact h symbol
      · rw [heq]
        exact process_replay (hinv.approve hap).stops env o h
  | cancel symbol orderId => exact cancel_replay h symbol orderId
  | halt => exact h
  | resume => exact h

/-- **The completed log reconstructs the books.** -/
theorem replay_reconstructs (ops : List EngineOp) (symbol : String) :
    Alike ((marketAfter ops).engine.bookOf symbol) (replay (auditLog ops) symbol) := by
  revert symbol
  refine run_always Market.step
    (P := fun ops m => ∀ symbol, Alike (m.engine.bookOf symbol) (replay (auditLog ops) symbol))
    (fun symbol => ⟨fun s => ?_, fun _ => ?_, rfl⟩) ?_ ops
  · cases s <;> exact .nil
  · exact .none
  · intro ops op ih symbol
    rw [auditLog_snoc, replay_append]
    exact step_replay (engineInv_reachable ops) ih op symbol

/-! ## What a log determines -/

/-- The same event, but for clock readings and generated ids. -/
structure SameEvent (event event' : OrderEvent) : Prop where
  type : event'.type = event.type
  symbol : event'.symbol = event.symbol
  orderSnapshot : SameOrder event.orderSnapshot event'.orderSnapshot
  trade : Option.Rel SameTrade event.trade event'.trade
  rejectionReason : event'.rejectionReason = event.rejectionReason

inductive SameEntry : Entry → Entry → Prop where
  | event {event event' : OrderEvent} (h : SameEvent event event') :
      SameEntry (.event event) (.event event')
  | removed (symbol orderId : String) :
      SameEntry (.removed symbol orderId) (.removed symbol orderId)

theorem update_alike {books books' : String → OrderBook}
    (h : ∀ symbol, Alike (books symbol) (books' symbol)) (symbol : String) {b b' : OrderBook}
    (hb : Alike b b') :
    ∀ symbol', Alike (Function.update books symbol b symbol')
      (Function.update books' symbol b' symbol') := by
  intro symbol'
  by_cases hs : symbol' = symbol
  · rw [hs, Function.update_self, Function.update_self]
    exact hb
  · rw [Function.update_of_ne hs, Function.update_of_ne hs]
    exact h symbol'

theorem replayStep_alike {books books' : String → OrderBook}
    (h : ∀ symbol, Alike (books symbol) (books' symbol)) {entry entry' : Entry}
    (hentry : SameEntry entry entry') :
    ∀ symbol, Alike (replayStep books entry symbol) (replayStep books' entry' symbol) := by
  cases hentry with
  | @event event event' he =>
      rw [replayStep, replayStep, he.type, he.symbol]
      split
      · exact update_alike h event.symbol (match_alike (h event.symbol) still still he.orderSnapshot).2
      · exact h
  | removed symbol orderId =>
      exact update_alike h symbol (remove_alike (h symbol) orderId)

theorem replay_alike {log log' : List Entry} (h : List.Forall₂ SameEntry log log') :
    ∀ {books books' : String → OrderBook}, (∀ symbol, Alike (books symbol) (books' symbol)) →
      ∀ symbol, Alike (log.foldl replayStep books symbol) (log'.foldl replayStep books' symbol) := by
  induction h with
  | nil => exact fun hbooks => hbooks
  | cons hentry _ ih => exact fun hbooks => ih (replayStep_alike hbooks hentry)

/-- What there is to see of a book, clock readings aside. -/
structure BookView where
  levels : OrderSide → Levels
  orderIndex : String → Option Order
  lastTradePrice : Option Int

def view (b : OrderBook) : BookView where
  levels := fun s => (b.levels s).entries.map (fun l => (l.1, l.2.map (restamp · 0)))
  orderIndex := fun id => (b.orderIndex.lookup id).map (restamp · 0)
  lastTradePrice := b.lastTradePrice

theorem SameQueue.view_eq {queue queue' : List Order} (h : SameQueue queue queue') :
    queue.map (restamp · 0) = queue'.map (restamp · 0) := by
  induction h with
  | nil => rfl
  | cons ho _ ih =>
      obtain ⟨_, rfl⟩ := ho
      rw [List.map_cons, List.map_cons, ih]
      rfl

theorem SameLevels.view_eq {ls ls' : Levels} (h : SameLevels ls ls') :
    ls.map (fun l => (l.1, l.2.map (restamp · 0)))
      = ls'.map (fun l => (l.1, l.2.map (restamp · 0))) := by
  induction h with
  | nil => rfl
  | cons hl _ ih =>
      obtain ⟨hp, hq⟩ := hl
      rw [List.map_cons, List.map_cons, ih, SameQueue.view_eq hq, hp]
      rfl

theorem Alike.view_eq {b b' : OrderBook} (h : Alike b b') : view b = view b' := by
  have hlevels : (view b).levels = (view b').levels := by
    funext s
    exact SameLevels.view_eq (h.levels s)
  have hindex : (view b).orderIndex = (view b').orderIndex := by
    funext id
    show (b.orderIndex.lookup id).map _ = (b'.orderIndex.lookup id).map _
    have hid := h.orderIndex id
    revert hid
    cases b.orderIndex.lookup id with
    | none => intro hid; rw [OrdMap.rel_none_inv hid]
    | some o =>
        intro hid
        obtain ⟨_, ho', _, rfl⟩ := OrdMap.rel_some_inv hid
        rw [ho']; rfl
  have hlast : (view b).lastTradePrice = (view b').lastTradePrice := h.lastTradePrice.symm
  cases hv : view b
  cases hv' : view b'
  rw [hv, hv'] at hlevels hindex hlast
  dsimp only at hlevels hindex hlast
  rw [hlevels, hindex, hlast]

/-- The completed log determines the books. -/
theorem auditLog_determines {ops ops' : List EngineOp}
    (h : List.Forall₂ SameEntry (auditLog ops) (auditLog ops')) (symbol : String) :
    view ((marketAfter ops).engine.bookOf symbol) = view ((marketAfter ops').engine.bookOf symbol) := by
  have hreplay : Alike (replay (auditLog ops) symbol) (replay (auditLog ops') symbol) := by
    refine replay_alike h (fun symbol => ⟨fun s => ?_, fun _ => .none, rfl⟩) symbol
    cases s <;> exact .nil
  calc view ((marketAfter ops).engine.bookOf symbol)
      = view (replay (auditLog ops) symbol) := (replay_reconstructs ops symbol).view_eq
    _ = view (replay (auditLog ops') symbol) := hreplay.view_eq
    _ = view ((marketAfter ops').engine.bookOf symbol) := (replay_reconstructs ops' symbol).view_eq.symm

/-- No cancel of the run finds its order. -/
def NoHit (ops : List EngineOp) : Prop :=
  ∀ t ∈ marketTrace ops, ∀ symbol orderId, t.input = .cancel symbol orderId →
    ¬ Hits t.before.engine symbol orderId

/-- Then the log is complete as it is. -/
theorem auditLog_eq_eventLog {ops : List EngineOp} (h : NoHit ops) :
    auditLog ops = (eventLog ops).map Entry.event := by
  unfold auditLog eventLog
  rw [List.map_flatMap]
  refine List.flatMap_congr (fun t ht => ?_)
  obtain ⟨pre, op, post, -, rfl⟩ := mem_trace Market.step ht
  cases op with
  | submit env o => rfl
  | cancel symbol orderId => exact if_neg (h _ ht symbol orderId rfl)
  | halt => rfl
  | resume => rfl

/--
**When the event log determines the books.** Two runs that report the same events end with
the same book for every symbol, if no cancel of either finds its order.
-/
theorem log_determines_books {ops ops' : List EngineOp} (hquiet : NoHit ops) (hquiet' : NoHit ops')
    (hlog : List.Forall₂ SameEvent (eventLog ops) (eventLog ops')) (symbol : String) :
    view ((marketAfter ops).engine.bookOf symbol) = view ((marketAfter ops').engine.bookOf symbol) := by
  refine auditLog_determines ?_ symbol
  rw [auditLog_eq_eventLog hquiet, auditLog_eq_eventLog hquiet']
  rw [List.forall₂_map_left_iff, List.forall₂_map_right_iff]
  exact hlog.imp (fun _ _ h => .event h)

theorem SameEvent.refl (event : OrderEvent) : SameEvent event event where
  type := rfl
  symbol := rfl
  orderSnapshot := SameOrder.refl _
  trade := by
    cases event.trade with
    | none => exact .none
    | some t => exact .some ⟨t.tradeId, t.executedAt, rfl⟩
  rejectionReason := rfl

/-- A limit order that rests. -/
def restingOrder : Order := Order.create "a" 0 "A" "AAPL" .buy .limit 10000000000 0 5

/-- Ids and clock readings of a later day. -/
def laterEnv : SubmitEnv := { stillEnv with amb := ⟨fun _ => "u", fun _ => 9, fun _ => 9⟩ }

theorem log_determines_books_later :
    (((marketAfter [.submit stillEnv restingOrder]).engine.bookOf "AAPL").resting .buy).map
        Order.updatedAt = [0]
      ∧ (((marketAfter [.cancel "AAPL" "a", .submit laterEnv restingOrder]).engine.bookOf
        "AAPL").resting .buy).map Order.updatedAt = [9]
      ∧ view ((marketAfter [.submit stillEnv restingOrder]).engine.bookOf "AAPL")
        = view ((marketAfter [.cancel "AAPL" "a", .submit laterEnv restingOrder]).engine.bookOf
          "AAPL") := by
  refine ⟨by decide, by decide, log_determines_books ?_ ?_ ?_ "AAPL"⟩
  · intro t ht symbol orderId hin
    rw [List.mem_singleton.mp ht] at hin
    cases hin
  · intro t ht symbol orderId hin
    rcases List.mem_cons.mp ht with rfl | ht
    · cases hin
      decide
    · rw [List.mem_singleton.mp ht] at hin
      cases hin
  · have hlog : eventLog [.cancel "AAPL" "a", .submit laterEnv restingOrder]
        = eventLog [.submit stillEnv restingOrder] := by decide
    rw [hlog]
    exact List.forall₂_same.mpr (fun event _ => SameEvent.refl event)

/-- A cancel is not reported: with it and without it the log is the same, and the books
are not. -/
theorem cancel_not_reported :
    eventLog [.submit stillEnv restingOrder]
        = eventLog [.submit stillEnv restingOrder, .cancel "AAPL" "a"]
      ∧ view ((marketAfter [.submit stillEnv restingOrder]).engine.bookOf "AAPL")
        ≠ view ((marketAfter [.submit stillEnv restingOrder, .cancel "AAPL" "a"]).engine.bookOf
          "AAPL") := by
  refine ⟨by decide, fun heq => ?_⟩
  have hlevels := congrArg (fun v => v.levels .buy) heq
  exact absurd hlevels (by decide)

end TitanX.Proof
