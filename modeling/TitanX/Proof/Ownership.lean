import TitanX.Model.HttpServer
import TitanX.Proof.EngineRun

/-!
# Who may cancel

The handler of `DELETE` knows who asks, the book knows whose order it is, and nothing between
them carries the one to the other: `cancel` takes a symbol and an id. So any account that can
name an order takes it out of its book (`stranger_cancels`), and a run in which only owners
cancel is one in which only owners ask (`only_owner_cancels_iff`).

What a request does to the engine is at most one call of it (`handle_engine`), so the engine
of a server is a reachable one and `EngineInv` holds of it.
-/

namespace TitanX.Proof

open TitanX MatchingEngine HttpServer

/-! ## Requests as calls of the engine -/

/-- The account a request is authenticated for. -/
def caller (c : Credentials) : Option String :=
  if (authenticate c).1 then some (authenticate c).2.accountId else none

/-- The call of the engine that a request leads to, if any. -/
def callOf : Request → Option EngineOp
  | .postOrder credentials rate body orderId now env =>
      if !(authenticate credentials).1 then none
      else if !rate.acquired then none
      else match body.bind (orderOf (authenticate credentials).2 orderId now) with
        | .error _ => none
        | .ok order => some (.submit env order)
  | .deleteOrder credentials orderId symbolParam =>
      if !(authenticate credentials).1 then none
      else symbolParam.map (fun symbol => .cancel (toUpper symbol) orderId)
  | .adminHalt credentials => if !(authenticate credentials).1 then none else some .halt
  | .adminResume credentials => if !(authenticate credentials).1 then none else some .resume

/-- The engine after at most one call. -/
def afterCall (e : MatchingEngine) : Option EngineOp → MatchingEngine
  | none => e
  | some op => (e.step op).1

theorem handle_engine (e : MatchingEngine) (r : Request) :
    (handle e r).1 = afterCall e (callOf r) := by
  cases r with
  | postOrder credentials rate body orderId now env =>
      simp only [handle, postOrder, callOf]
      split
      · rfl
      · split
        · rfl
        · cases body.bind (orderOf (authenticate credentials).2 orderId now) <;> rfl
  | deleteOrder credentials orderId symbolParam =>
      simp only [handle, deleteOrder, callOf]
      split
      · rfl
      · cases symbolParam <;> rfl
  | adminHalt credentials =>
      simp only [handle, adminHalt, callOf]
      split <;> rfl
  | adminResume credentials =>
      simp only [handle, adminResume, callOf]
      split <;> rfl

/-! ## Books and their locks -/

/-- A book that exists has its lock. -/
def Locked (e : MatchingEngine) : Prop :=
  ∀ symbol b, e.books.lookup symbol = some b → symbol ∈ e.locks

theorem locked_step {e : MatchingEngine} (h : EngineInv e []) (hl : Locked e) (op : EngineOp) :
    Locked (e.step op).1 := by
  cases op with
  | submit env o =>
      show Locked (e.submit env o).1
      rcases submit_cases e env o with ⟨r', -, heq, -⟩ | ⟨r', -, heq, -⟩
      · rw [heq]; exact hl
      · have hstops : ({ e with riskEngine := r' } : MatchingEngine).stopOrders = ∅ := h.stops
        rw [heq, (process_engine hstops env o).1]
        intro symbol b hb
        by_cases hs : symbol = o.symbol
        · rw [hs]
          exact Finset.mem_insert_self _ _
        · have hb' : e.books.lookup symbol = some b :=
            (Finmap.lookup_insert_of_ne _ hs).symm.trans hb
          exact Finset.mem_insert_of_mem (hl symbol b hb')
  | cancel symbol orderId =>
      show Locked (e.cancel symbol orderId).2
      unfold cancel
      split
      · exact hl
      · split
        · rename_i hlock
          intro symbol' b hb
          by_cases hs : symbol' = symbol
          · rw [hs]; exact hlock
          · exact hl symbol' b ((Finmap.lookup_insert_of_ne _ hs).symm.trans hb)
        · exact hl
  | halt => exact hl
  | resume => exact hl

/-- So a cancel reaches every order in the index of a book. -/
theorem Locked.hits {e : MatchingEngine} (h : Locked e) {symbol orderId : String} {o : Order}
    (ho : (e.bookOf symbol).orderIndex.lookup orderId = some o) : Hits e symbol orderId := by
  refine ⟨?_, Finmap.mem_of_lookup_eq_some ho⟩
  cases hb : e.books.lookup symbol with
  | none =>
      unfold MatchingEngine.bookOf at ho
      rw [hb] at ho
      exact absurd ho (by simp [OrderBook.new])
  | some b => exact h symbol b hb

/-! ## Runs of a server -/

/-- The engine behind the server after a sequence of requests. -/
def serverAfter (requests : List Request) : MatchingEngine :=
  run handle MatchingEngine.initial requests

def serverTrace (requests : List Request) :
    List (Transition MatchingEngine Request (Option Response)) :=
  trace handle MatchingEngine.initial requests

structure ServerInv (e : MatchingEngine) : Prop where
  engine : EngineInv e []
  locked : Locked e

theorem serverInv_handle {e : MatchingEngine} (h : ServerInv e) (r : Request) :
    ServerInv (handle e r).1 := by
  rw [handle_engine]
  cases callOf r with
  | none => exact h
  | some op => exact ⟨engineInv_step h.engine op, locked_step h.engine h.locked op⟩

theorem serverInv_reachable (requests : List Request) : ServerInv (serverAfter requests) :=
  run_always handle (P := fun _ e => ServerInv e)
    ⟨engineInv_initial, fun _ _ hb => absurd hb (by simp [MatchingEngine.initial])⟩
    (fun _ r h => serverInv_handle h r) requests

/-! ## Ownership -/

/-- A `DELETE` leaves the orders of everyone but its caller where they are, as they are. -/
def KeepsOthers (e : MatchingEngine) : Request → Prop
  | .deleteOrder credentials orderId symbolParam =>
      ∀ symbol, ∀ x ∈ allOrders (e.bookOf symbol), caller credentials ≠ some x.accountId →
        x ∈ allOrders ((handle e (.deleteOrder credentials orderId symbolParam)).1.bookOf symbol)
  | _ => True

/-- A `DELETE` names an order of its caller, or none that a cancel can take out. -/
def NamesOwn (e : MatchingEngine) : Request → Prop
  | .deleteOrder credentials orderId (some symbol) =>
      ∀ account, caller credentials = some account →
        ∀ x ∈ allOrders (e.bookOf (toUpper symbol)), x.orderId = orderId → x.price ≠ 0 →
          x.accountId = account
  | _ => True

theorem caller_eq_some {c : Credentials} {account : String} (h : caller c = some account) :
    (authenticate c).1 = true := by
  unfold caller at h
  split at h
  · assumption
  · exact absurd h (by simp)

/-- The books after a `DELETE` of a known caller. -/
theorem bookOf_delete (e : MatchingEngine) {c : Credentials} {account : String}
    (hc : caller c = some account) (orderId param symbol : String) :
    (handle e (.deleteOrder c orderId (some param))).1.bookOf symbol
      = if symbol = toUpper param ∧ Hits e (toUpper param) orderId then
          ((e.bookOf (toUpper param)).removeFromBook orderId).2
        else e.bookOf symbol := by
  have hauth := caller_eq_some hc
  have heq : (handle e (.deleteOrder c orderId (some param))).1
      = (e.cancel (toUpper param) orderId).2 := by
    simp only [handle, deleteOrder, hauth, Bool.not_true, Bool.false_eq_true, if_false]
  rw [heq, bookOf_cancel_hits]

/-- Without a known caller or a symbol nothing happens. -/
theorem delete_idle (e : MatchingEngine) {c : Credentials} {symbolParam : Option String}
    (hidle : caller c = none ∨ symbolParam = none) (orderId : String) :
    (handle e (.deleteOrder c orderId symbolParam)).1 = e := by
  rw [handle_engine, callOf]
  split
  · rfl
  · rename_i hauth
    rcases hidle with hc | rfl
    · have hauth' : (authenticate c).1 = true := by simpa using hauth
      rw [caller, if_pos hauth'] at hc
      exact absurd hc (by simp)
    · rfl

section Delete

variable {e : MatchingEngine} (h : ServerInv e) {c : Credentials} {account : String}
  (hc : caller c = some account) (orderId param : String)

include h hc

/-- An order that is named and has a price is gone. -/
theorem delete_removes {x : Order} (hx : x ∈ allOrders (e.bookOf (toUpper param)))
    (hid : x.orderId = orderId) (hp : x.price ≠ 0) :
    x ∉ allOrders
      ((handle e (.deleteOrder c orderId (some param))).1.bookOf (toUpper param)) := by
  subst hid
  have hrep := (h.engine.bookOf (toUpper param)).rep
  have hl := hrep.index.complete x hx hp
  have hhit := h.locked.hits hl
  rw [bookOf_delete e hc, if_pos ⟨rfl, hhit⟩]
  intro hin
  exact (removeFromBook_priced hrep hl hp).2.orderId_ne x hin rfl

/-- Every other order stays as it is. -/
theorem delete_keeps {symbol : String} {x : Order} (hx : x ∈ allOrders (e.bookOf symbol))
    (hne : symbol = toUpper param → x.orderId = orderId → x.price = 0) :
    x ∈ allOrders ((handle e (.deleteOrder c orderId (some param))).1.bookOf symbol) := by
  rw [bookOf_delete e hc]
  split
  · rename_i hhit
    obtain ⟨rfl, -⟩ := hhit
    have hrep := (h.engine.bookOf (toUpper param)).rep
    rcases removeFromBook_cases hrep orderId with ⟨-, heq⟩ | ⟨_, -, -, heq⟩ | ⟨o, ho, hp, -, hr⟩
    · rw [heq]; exact hx
    · rw [heq]; exact hx
    · rw [hr.allOrders]
      refine List.mem_filter.mpr ⟨hx, ?_⟩
      have hother : x.orderId ≠ orderId := by
        intro hid
        -- the order of that id is the one in the index, which has a price
        obtain ⟨hoid, hoin⟩ := hrep.index.sound orderId o ho
        have hxo := eq_of_orderId hrep.index.distinct hx hoin (hid.trans hoid.symm)
        subst hxo
        exact hp (hne rfl hid)
      simpa using hother
  · exact hx

end Delete

/-- The others lose nothing exactly if the order named is the caller's own. -/
theorem keepsOthers_iff {e : MatchingEngine} (h : ServerInv e) (r : Request) :
    KeepsOthers e r ↔ NamesOwn e r := by
  cases r with
  | deleteOrder c orderId symbolParam =>
      cases symbolParam with
      | none =>
          refine ⟨fun _ => trivial, fun _ symbol x hx _ => ?_⟩
          rw [delete_idle e (Or.inr rfl)]
          exact hx
      | some param =>
          constructor
          · intro hkeeps account hc x hx hid hp
            by_contra hne
            have hother : caller c ≠ some x.accountId := by
              rw [hc]
              exact fun heq => hne (Option.some.inj heq).symm
            exact delete_removes h hc orderId param hx hid hp (hkeeps _ x hx hother)
          · intro hown symbol x hx hother
            cases hc : caller c with
            | none =>
                rw [delete_idle e (Or.inl hc)]
                exact hx
            | some account =>
                refine delete_keeps h hc orderId param hx (fun hs hid => ?_)
                by_contra hp
                rw [hs] at hx
                have hacc := hown account hc x hx hid hp
                rw [hc, hacc] at hother
                exact hother rfl
  | postOrder => exact Iff.rfl
  | adminHalt => exact Iff.rfl
  | adminResume => exact Iff.rfl

/--
**Only owners cancel where only owners ask.** In every run of requests each `DELETE` leaves
the resting orders of other accounts in their books, as they are, exactly if each `DELETE`
that reaches the engine names an id that rests there, with a price, for its own caller or
not at all.
-/
theorem only_owner_cancels_iff (requests : List Request) :
    (∀ t ∈ serverTrace requests, KeepsOthers t.before t.input)
      ↔ ∀ t ∈ serverTrace requests, NamesOwn t.before t.input := by
  have hiff : ∀ t ∈ serverTrace requests,
      (KeepsOthers t.before t.input ↔ NamesOwn t.before t.input) := by
    intro t ht
    obtain ⟨pre, r, post, -, rfl⟩ := mem_trace handle ht
    exact keepsOthers_iff (serverInv_reachable pre) r
  exact ⟨fun hk t ht => (hiff t ht).mp (hk t ht), fun ho t ht => (hiff t ht).mpr (ho t ht)⟩

/-- A valid token that names its account. -/
def tokenOf (account : String) : Credentials :=
  ⟨"Bearer " ++ account, fun token => ⟨token, ["READ", "TRADE"], "ACCESS", true, ""⟩⟩

/-- Alice bids for five, and Bob, who read the id in a response, deletes the order. -/
def strangerDeletes : List Request :=
  [.postOrder (tokenOf "alice") ⟨true, 0⟩ (.ok ⟨"AAPL", "buy", "limit", 5, 100, 0⟩) "a" 0 stillEnv,
    .deleteOrder (tokenOf "bob") "a" (some "AAPL")]

theorem stranger_cancels :
    ((allOrders ((serverAfter (strangerDeletes.take 1)).bookOf "AAPL")).map
        (fun x => (x.orderId, x.accountId, x.remainingQuantity)) = [("a", "alice", 5)]
      ∧ allOrders ((serverAfter strangerDeletes).bookOf "AAPL") = [])
    ∧ ¬ ∀ t ∈ serverTrace strangerDeletes, KeepsOthers t.before t.input := by
  refine ⟨⟨by decide, by decide⟩, fun hkeeps => ?_⟩
  have hlast : KeepsOthers (serverAfter (strangerDeletes.take 1))
      (.deleteOrder (tokenOf "bob") "a" (some "AAPL")) :=
    hkeeps _ (List.mem_cons_of_mem _ (List.mem_cons_self ..))
  have hrests : ∃ x ∈ allOrders ((serverAfter (strangerDeletes.take 1)).bookOf "AAPL"),
      caller (tokenOf "bob") ≠ some x.accountId := by decide
  obtain ⟨x, hx, hbob⟩ := hrests
  have hin := hlast "AAPL" x hx hbob
  have hempty : allOrders ((handle (serverAfter (strangerDeletes.take 1))
      (.deleteOrder (tokenOf "bob") "a" (some "AAPL"))).1.bookOf "AAPL") = [] := by decide
  rw [hempty] at hin
  exact absurd hin List.not_mem_nil

end TitanX.Proof
