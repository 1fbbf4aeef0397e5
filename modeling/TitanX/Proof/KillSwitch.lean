import TitanX.Proof.OneLife

/-!
# The kill switch

`halt` sets a flag that `submit` reads once, before the risk check. From then on no new
call gets as far as a book (`drained_step`), but the calls that have read the flag before it
was set go on: through the risk check, the two lookups, and into `book.match`. So matching
stops with the calls that were in flight, not with `halt`.
-/

namespace TitanX.Proof

open TitanX Exchange

/-- The stop orders that `checkStopTriggers` takes to `book.match`. -/
def toActivate (e : MatchingEngine) (symbol : String) : List Order :=
  match e.stopOrders.lookup symbol, (e.bookOf symbol).lastTradePrice with
  | some pending, some lastPrice => pending.filter (MatchingEngine.triggered lastPrice)
  | _, _ => []

/-- The next step of the call executes `book.match`: for its own order, or for a stop order
that it triggers. -/
inductive Matches (e : MatchingEngine) (f : Flight) : Prop where
  | order (h : f.stage = .ready)
  | stop {n : Nat} (h : f.stage = .delivering (n + 1) [])
      (ht : toActivate e f.order.symbol ≠ [])

/-- The call has found the kill switch off and has not reached `book.match`. One that waits for
the risk check gets there with a new id only. -/
def PastSwitch (e : MatchingEngine) (f : Flight) : Prop :=
  match f.stage with
  | .checking => f.order.orderId ∉ e.riskEngine.seenOrderIds
  | .approved => True
  | .booked => True
  | .ready => True
  | _ => False

/-- An id that is known stays so. -/
theorem PastSwitch.earlier {e e' : MatchingEngine} {f : Flight}
    (hseen : e.riskEngine.seenOrderIds ⊆ e'.riskEngine.seenOrderIds) (h : PastSwitch e' f) :
    PastSwitch e f := by
  obtain ⟨env, order, stage⟩ := f
  cases stage with
  | checking => exact fun hmem => h (hseen hmem)
  | approved => trivial
  | booked => trivial
  | ready => trivial
  | delivering _ _ => exact h
  | finished => exact h
  | stuck => exact h

/-- Halted, with no call on its way to a book. -/
structure Drained (s : Exchange) : Prop where
  inv : ExchangeInv s
  halted : s.engine.halted = true
  drained : ∀ f ∈ s.flights, ¬ PastSwitch s.engine f

theorem Drained.no_match {s : Exchange} (h : Drained s) {f : Flight} (hf : f ∈ s.flights) :
    ¬ Matches s.engine f := by
  intro hm
  cases hm with
  | order hs =>
      apply h.drained f hf
      unfold PastSwitch
      rw [hs]
      trivial
  | stop hs ht =>
      -- nothing ever enters the pending stop orders
      apply ht
      unfold toActivate
      rw [h.inv.engine.stops, Finmap.lookup_empty]

theorem Proceeds.halted {e e' : MatchingEngine} {env : SubmitEnv} {order : Order}
    {stage stage' : Stage} {h : List Happening} (hm : Proceeds e env order stage e' stage' h) :
    e'.halted = e.halted := by
  cases hm <;> rfl

/-- A call that is past `book.match` does not come back to it, and one with a known id is
refused. -/
theorem Proceeds.not_pastSwitch {e e' : MatchingEngine} {f : Flight} {stage' : Stage}
    {h : List Happening} (hm : Proceeds e f.env f.order f.stage e' stage' h)
    (hs : ¬ PastSwitch e f) : ¬ PastSwitch e' { f with stage := stage' } := by
  obtain ⟨env, order, stage⟩ := f
  intro hs'
  cases hm with
  | refused _ hstage => rcases hstage with rfl | rfl <;> exact hs'
  | approved hr => exact hs hr.fresh
  | consumed _ hstage => rcases hstage with rfl | rfl <;> exact hs'
  | ended => exact hs'
  | idle => exact hs hs'
  | _ => exact hs trivial

theorem halted_cancel (e : MatchingEngine) (symbol orderId : String) :
    (e.cancel symbol orderId).2.halted = e.halted := by
  unfold MatchingEngine.cancel
  split
  · rfl
  · split <;> rfl

theorem drained_proceed {s : Exchange} (h : Drained s) (i : Nat) :
    (s.step (.proceed i)).1.engine.halted = true
      ∧ ∀ f ∈ (s.step (.proceed i)).1.flights, ¬ PastSwitch (s.step (.proceed i)).1.engine f := by
  unfold Exchange.step
  dsimp only
  cases hi : s.flights[i]? with
  | none => exact ⟨h.halted, h.drained⟩
  | some f =>
      have hmoves := advance_proceeds h.inv.engine.stops f
      refine ⟨hmoves.halted.trans h.halted, fun g hg => ?_⟩
      rcases List.mem_or_eq_of_mem_set hg with hg | rfl
      · exact fun hg' => h.drained g hg (hg'.earlier (proceeds_approves hmoves).1)
      · exact hmoves.not_pastSwitch (h.drained f (List.mem_of_getElem? hi))

/-- **What one step preserves**, as long as nobody resumes: a call that begins now finds the
switch on and ends. -/
theorem drained_step {s : Exchange} (h : Drained s) {a : Action} (ha : a ≠ .resume) :
    Drained (s.step a).1 := by
  have hinv := exchangeInv_step h.inv a
  cases a with
  | call env order =>
      refine ⟨hinv, h.halted, fun f hf => ?_⟩
      rcases List.mem_append.mp hf with hf | hf
      · exact h.drained f hf
      · rw [List.mem_singleton.mp hf]
        unfold PastSwitch
        dsimp only
        rw [h.halted]
        exact id
  | proceed i =>
      obtain ⟨hhalted, hdrained⟩ := drained_proceed h i
      exact ⟨hinv, hhalted, hdrained⟩
  | cancel symbol orderId =>
      refine ⟨hinv, (halted_cancel _ _ _).trans h.halted, fun f hf hs => h.drained f hf (hs.earlier ?_)⟩
      show _ ⊆ (s.engine.cancel symbol orderId).2.riskEngine.seenOrderIds
      rw [riskEngine_cancel]
  | halt => exact ⟨hinv, rfl, h.drained⟩
  | resume => exact absurd rfl ha
  | haltSymbol symbol => exact ⟨hinv, h.halted, h.drained⟩
  | resumeSymbol symbol => exact ⟨hinv, h.halted, h.drained⟩

/-- The exchange after a halt that found no call on its way to a book. -/
theorem drained_halted {actions : List Action}
    (h : ∀ f ∈ (exchangeAfter actions).flights, ¬ PastSwitch (exchangeAfter actions).engine f)
    {later : List Action}
    (hl : .resume ∉ later) : Drained (exchangeAfter (actions ++ .halt :: later)) := by
  unfold exchangeAfter
  rw [List.append_cons, run_append, run_snoc]
  refine run_invariant Exchange.step (V := fun is => .resume ∉ is) (P := fun _ s => Drained s)
    ?_ ?_ ?_ later hl
  · intro is a ha hmem
    exact ha (List.mem_append_left _ hmem)
  · exact ⟨exchangeInv_step (exchangeInv_reachable actions) .halt, rfl, h⟩
  · intro is a ha hq
    refine drained_step hq ?_
    rintro rfl
    exact ha (List.mem_append_right _ (List.mem_cons_self ..))

/--
**The kill switch stops matching once the calls in flight are through.** If no call is
between its load of the switch and its match when `halt` is called after `actions`, but for calls
that the risk check will refuse for their ids, no step executes `book.match` until somebody
resumes.
-/
theorem halt_stops_matching {actions later : List Action}
    (h : ∀ f ∈ (exchangeAfter actions).flights, ¬ PastSwitch (exchangeAfter actions).engine f)
    (hl : .resume ∉ later)
    (i : Nat) (f : Flight) (hf : (exchangeAfter (actions ++ .halt :: later)).flights[i]? = some f) :
    ¬ Matches (exchangeAfter (actions ++ .halt :: later)).engine f :=
  (drained_halted h hl).no_match (List.mem_of_getElem? hf)

/-- A buy of `A` is on its way into the book. -/
def buyInFlight : List Action :=
  [.call stillEnv (Order.create "a" 0 "A" "AAPL" .buy .limit 100 0 5)]

/-- The buy rests in the book. -/
def buyMatched : List Action := buyInFlight ++ [.proceed 0, .proceed 0, .proceed 0, .proceed 0]

/-- Its id is used again, in a call that has found the switch off. -/
def usedAgain : List Action :=
  buyMatched ++ [.call stillEnv (Order.create "a" 0 "B" "AAPL" .sell .limit 100 0 5)]

/-- That call goes on, and a sell of `B` begins that would meet the buy. -/
def sellCall : List Action :=
  [.proceed 1, .call stillEnv (Order.create "b" 0 "B" "AAPL" .sell .limit 100 0 5), .proceed 2]

theorem halt_stops_matching_sell :
    (∃ o, o ∈ ((exchangeAfter usedAgain).engine.bookOf "AAPL").resting .buy)
      ∧ (∃ f, (exchangeAfter (usedAgain ++ .halt :: sellCall)).flights[1]? = some f
        ∧ ¬ Matches (exchangeAfter (usedAgain ++ .halt :: sellCall)).engine f)
      ∧ ∃ f, (exchangeAfter (usedAgain ++ .halt :: sellCall)).flights[2]? = some f
        ∧ ¬ Matches (exchangeAfter (usedAgain ++ .halt :: sellCall)).engine f := by
  have hidle : ∀ f ∈ (exchangeAfter usedAgain).flights,
      ¬ PastSwitch (exchangeAfter usedAgain).engine f := by
    intro f hf hs
    rcases List.mem_cons.mp hf with rfl | hf
    · exact hs
    · rw [List.mem_singleton.mp hf] at hs
      exact hs (by decide)
  have hlater : .resume ∉ sellCall := by simp [sellCall]
  exact ⟨⟨_, List.mem_cons_self ..⟩, ⟨_, rfl, halt_stops_matching hidle hlater 1 _ rfl⟩,
    _, rfl, halt_stops_matching hidle hlater 2 _ rfl⟩

/-- **A match after the halt.** The call has found the switch off; `halt` is called and
returns; the call goes on into the book. -/
theorem match_after_halt :
    ∃ f, (exchangeAfter (buyInFlight ++ .halt :: [.proceed 0, .proceed 0, .proceed 0])).flights[0]?
        = some f
      ∧ Matches
          (exchangeAfter (buyInFlight ++ .halt :: [.proceed 0, .proceed 0, .proceed 0])).engine f :=
  ⟨_, rfl, .order rfl⟩

end TitanX.Proof
