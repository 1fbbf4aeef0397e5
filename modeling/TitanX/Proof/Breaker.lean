import TitanX.Model.CircuitBreaker

/-!
# The circuit breaker and its mutex

Four of the five methods are plain critical sections and cannot fail. `recordTrade`
is one as long as it does not halt; when it does, it waits for the mutex it holds
(`recordTrade_trips`), the halt flag is never set, and every later call waits too. The
trade whose division traps does not return either.

Which trades these are is a matter of the reference price, the start of the window, the
clock and the price (`Trips`, `observe_quiet_iff`). `breaker_completes_iff` is the exact
account for whole runs: every call completes if and only if no trade of the run would have
tripped the breaker.
-/

namespace TitanX.Proof

open TitanX CircuitBreaker

/-! ## Above the threshold -/

/-- The trade is at least 501 basis points away from the reference price, as `int64_t`
computes `|tradePrice - refPrice| * 10000`. The least number over -1 is such a distance:
the quotient is `2 ^ 63`. -/
def AboveThreshold (refPrice tradePrice : Int) : Prop :=
  (0 < refPrice ∧ 501 * refPrice ≤ wrap64 (abs64 (wrap64 (tradePrice - refPrice)) * 10000))
    ∨ (refPrice < 0 ∧ wrap64 (abs64 (wrap64 (tradePrice - refPrice)) * 10000) ≤ 501 * refPrice)

instance (refPrice tradePrice : Int) : Decidable (AboveThreshold refPrice tradePrice) :=
  inferInstanceAs (Decidable (_ ∨ _))

/-- The trade falls into a window of its symbol that was opened less than 61 seconds before
(60 whole seconds at most), and is above the threshold. -/
def Trips (cb : CircuitBreaker) : BreakerOp → Prop
  | .recordTrade now symbol tradePrice => ∃ refPrice start,
      cb.referencePrice.lookup symbol = some refPrice
        ∧ cb.windowStart.lookup symbol = some start
        ∧ now - start < 61000000000 ∧ AboveThreshold refPrice tradePrice
  | _ => False

theorem elapsedSeconds_le_iff (start now : Int) :
    elapsedSeconds start now ≤ windowSeconds ↔ now - start < 61000000000 := by
  have h := lt_div64_iff (n := 60) (x := now - start) (y := 1000000000) (by decide) (by decide)
  unfold div64 at h
  unfold elapsedSeconds windowSeconds
  omega

theorem pctMoveBps_gt_iff {refPrice : Int} (h : refPrice ≠ 0) (tradePrice : Int) :
    pctMoveBps refPrice tradePrice > haltThresholdBps ↔ AboveThreshold refPrice tradePrice := by
  have hneg := @lt_div64_neg_iff 500 (moveScaled refPrice tradePrice) refPrice (by decide)
  have hpos := @lt_div64_iff 500 (moveScaled refPrice tradePrice) refPrice (by decide)
  unfold pctMoveBps moveBps haltThresholdBps AboveThreshold
  rcases Int.lt_or_gt_of_ne h with hlt | hgt
  · exact (hneg hlt).trans
      ⟨fun hfar => .inr ⟨hlt, hfar⟩, fun hor => (hor.resolve_left (fun hl => by omega)).2⟩
  · exact (hpos hgt).trans
      ⟨fun hfar => .inl ⟨hgt, hfar⟩, fun hor => (hor.resolve_right (fun hr => by omega)).2⟩

/-- A division that traps is one whose quotient is above the threshold. -/
theorem aboveThreshold_of_divTraps {refPrice tradePrice : Int} (h : refPrice ≠ 0)
    (ht : divTraps (moveScaled refPrice tradePrice) refPrice = true) :
    AboveThreshold refPrice tradePrice := by
  unfold divTraps at ht
  simp only [Bool.or_eq_true, Bool.and_eq_true, decide_eq_true_eq] at ht
  obtain ⟨hmin, hone⟩ := ht.resolve_left h
  refine .inr ⟨by omega, ?_⟩
  unfold moveScaled at hmin
  omega

/-- In an open window. -/
theorem trips_open {cb : CircuitBreaker} {now : Int} {symbol : String} {refPrice start : Int}
    (hr : cb.referencePrice.lookup symbol = some refPrice)
    (hs : cb.windowStart.lookup symbol = some start) (tradePrice : Int) :
    Trips cb (.recordTrade now symbol tradePrice)
      ↔ now - start < 61000000000 ∧ AboveThreshold refPrice tradePrice := by
  unfold Trips
  simp only [hr, hs, Option.some.injEq, exists_and_left, exists_eq_left']

/-- **Which trades return.** -/
theorem observe_quiet_iff (cb : CircuitBreaker) (now : Int) (symbol : String) (tradePrice : Int) :
    (cb.observe now symbol tradePrice).1 = .quiet
      ↔ ¬ Trips cb (.recordTrade now symbol tradePrice) := by
  unfold observe
  cases hr : cb.referencePrice.lookup symbol with
  | none => simp [Trips, hr]
  | some refPrice =>
  cases hs : cb.windowStart.lookup symbol with
  | none => simp [Trips, hs]
  | some start =>
  have hwindow := elapsedSeconds_le_iff start now
  rw [trips_open hr hs]
  dsimp only
  by_cases hlate : elapsedSeconds start now > windowSeconds
  · rw [if_pos hlate]
    exact iff_of_true rfl (fun hin => by omega)
  rw [if_neg hlate]
  have hin : now - start < 61000000000 := hwindow.mp (by omega)
  by_cases hzero : refPrice = 0
  · rw [if_pos hzero]
    refine iff_of_true rfl (fun hfar => ?_)
    rcases hfar.2 with hpos | hneg
    · omega
    · omega
  rw [if_neg hzero]
  by_cases htraps : divTraps (moveScaled refPrice tradePrice) refPrice = true
  · rw [if_pos htraps]
    exact iff_of_false nofun
      (fun hnot => hnot ⟨hin, aboveThreshold_of_divTraps hzero htraps⟩)
  rw [if_neg htraps]
  by_cases hfar : pctMoveBps refPrice tradePrice > haltThresholdBps
  · rw [if_pos hfar]
    exact iff_of_false nofun
      (fun hnot => hnot ⟨hin, (pctMoveBps_gt_iff hzero tradePrice).mp hfar⟩)
  · rw [if_neg hfar]
    exact iff_of_true rfl
      (fun hfar' => hfar ((pctMoveBps_gt_iff hzero tradePrice).mpr hfar'.2))

/-! ## One call -/

section OneCall

variable {g : Guarded CircuitBreaker}

/-- A trade that trips the breaker waits for the mutex it holds, or its division traps. -/
theorem recordTrade_trips (h : g.held = false) {now : Int} {symbol : String} {tradePrice : Int}
    (ht : (g.data.observe now symbol tradePrice).1 ≠ .quiet) :
    recordTrade g now symbol tradePrice
      = .blocked ⟨true, (g.data.observe now symbol tradePrice).2⟩ := by
  unfold recordTrade
  rw [locked_free h]
  dsimp only
  cases hv : (g.data.observe now symbol tradePrice).1 with
  | quiet => exact absurd hv ht
  | halts =>
      dsimp only
      rw [haltSymbol, critical_held rfl]
      rfl
  | traps => rfl

/-- Any other trade is a plain critical section. -/
theorem recordTrade_quiet (h : g.held = false) {now : Int} {symbol : String} {tradePrice : Int}
    (ht : (g.data.observe now symbol tradePrice).1 = .quiet) :
    recordTrade g now symbol tradePrice
      = .returned () ⟨false, (g.data.observe now symbol tradePrice).2⟩ := by
  unfold recordTrade
  rw [locked_free h]
  dsimp only
  rw [ht]
  rfl

/-- Nothing gets past a mutex that is not given back. -/
theorem breakerStep_held (h : g.held = true) (op : BreakerOp) : CircuitBreaker.step g op = (g, none) := by
  cases op with
  | recordTrade now symbol tradePrice =>
      rw [CircuitBreaker.step, recordTrade, locked_held h]; rfl
  | haltSymbol symbol => rw [CircuitBreaker.step, haltSymbol, critical_held h]; rfl
  | resumeSymbol symbol => rw [CircuitBreaker.step, resumeSymbol, critical_held h]; rfl
  | isHalted symbol => rw [CircuitBreaker.step, isHalted, critical_held h]; rfl
  | haltStatus => rw [CircuitBreaker.step, haltStatus, critical_held h]; rfl

theorem breakerStep_trips {op : BreakerOp} (ht : Trips g.data op) :
    (CircuitBreaker.step g op).2 = none := by
  cases hh : g.held with
  | true => rw [breakerStep_held hh]
  | false =>
      cases op with
      | recordTrade now symbol tradePrice =>
          have hnot := fun hquiet => (observe_quiet_iff g.data now symbol tradePrice).mp hquiet ht
          rw [CircuitBreaker.step, recordTrade_trips hh hnot]; rfl
      | haltSymbol symbol => exact absurd ht id
      | resumeSymbol symbol => exact absurd ht id
      | isHalted symbol => exact absurd ht id
      | haltStatus => exact absurd ht id

theorem breakerStep_quiet (h : g.held = false) {op : BreakerOp} (ht : ¬ Trips g.data op) :
    (CircuitBreaker.step g op).2.isSome = true ∧ (CircuitBreaker.step g op).1.held = false := by
  cases op with
  | recordTrade now symbol tradePrice =>
      rw [CircuitBreaker.step, recordTrade_quiet h ((observe_quiet_iff ..).mpr ht)]
      exact ⟨rfl, rfl⟩
  | haltSymbol symbol =>
      rw [CircuitBreaker.step, haltSymbol, critical_free h]; exact ⟨rfl, rfl⟩
  | resumeSymbol symbol =>
      rw [CircuitBreaker.step, resumeSymbol, critical_free h]; exact ⟨rfl, rfl⟩
  | isHalted symbol =>
      rw [CircuitBreaker.step, isHalted, critical_free h]; exact ⟨rfl, rfl⟩
  | haltStatus =>
      rw [CircuitBreaker.step, haltStatus, critical_free h]; exact ⟨rfl, rfl⟩

end OneCall

/-! ## Whole runs -/

/-- The calls `ops` on a new breaker, with the states around them. -/
def breakerTrace (ops : List BreakerOp) :
    List (Transition (Guarded CircuitBreaker) BreakerOp (Option BreakerRet)) :=
  trace CircuitBreaker.step CircuitBreaker.initial ops

/-- The call completed, gave the mutex back, and halted its symbol if it had to. -/
structure Completes (t : Transition (Guarded CircuitBreaker) BreakerOp (Option BreakerRet)) :
    Prop where
  returned : t.output.isSome = true
  released : t.after.held = false
  halted : ∀ now symbol tradePrice, t.input = .recordTrade now symbol tradePrice →
    Trips t.before.data t.input → t.after.data.haltFlag symbol = true

/-- As long as no trade trips the breaker the mutex is free between calls. -/
theorem released_reachable (ops : List BreakerOp)
    (h : ∀ t ∈ breakerTrace ops, ¬ Trips t.before.data t.input) :
    (run CircuitBreaker.step CircuitBreaker.initial ops).held = false :=
  trace_always CircuitBreaker.step (Q := fun t => ¬ Trips t.before.data t.input)
    (P := fun g => g.held = false) rfl
    (fun _ _ hquiet hfree => (breakerStep_quiet hfree hquiet).2) h

/--
**When the breaker locks itself out.** Every call of a run completes with the mutex
released, and a trade above the threshold halts its symbol, if and only if there is
no trade above the threshold: no `recordTrade` of the run finds a window of its symbol,
opened less than 61 seconds before, from whose reference price it has moved away by 501
basis points or more.
-/
theorem breaker_completes_iff (ops : List BreakerOp) :
    (∀ t ∈ breakerTrace ops, Completes t)
      ↔ ∀ t ∈ breakerTrace ops, ¬ Trips t.before.data t.input := by
  constructor
  · intro hall t ht htrip
    have hret := (hall t ht).returned
    obtain ⟨pre, op, post, -, rfl⟩ := mem_trace CircuitBreaker.step ht
    have hnone : (lastCall CircuitBreaker.step CircuitBreaker.initial pre op).output = none :=
      breakerStep_trips htrip
    rw [hnone] at hret
    exact absurd hret (by decide)
  · intro hquiet t ht
    -- the mutex is free when this call is made, by the calls before it
    obtain ⟨pre, op, post, rfl, rfl⟩ := mem_trace CircuitBreaker.step ht
    have hpre : ∀ t ∈ breakerTrace pre, ¬ Trips t.before.data t.input := by
      intro t' ht'
      refine hquiet t' ?_
      rw [breakerTrace, trace_append]; exact List.mem_append_left _ ht'
    have hq := hquiet _ ht
    obtain ⟨hret, hrel⟩ := breakerStep_quiet (released_reachable pre hpre) hq
    exact ⟨hret, hrel, fun _ _ _ _ htrip => absurd htrip hq⟩

/-- Two trades a second apart, six percent apart. -/
def tripRun : List BreakerOp :=
  [.recordTrade 0 "AAPL" 10000000000, .recordTrade 1000000000 "AAPL" 10600000000,
    .isHalted "AAPL"]

/-- The distance is `2 ^ 59`, ten thousand times that is the least `int64_t`, and the
reference price is -1. -/
def trapRun : List BreakerOp :=
  [.recordTrade 0 "AAPL" (-1), .recordTrade 1000000000 "AAPL" 576460752303423487]

/-- The second trade never returns, the symbol is not halted, and the question
whether it is has no answer. Nor does the trade return whose division traps. -/
theorem trip_locks_out :
    ¬ (∀ t ∈ breakerTrace tripRun, Completes t)
      ∧ (breakerTrace tripRun).map (fun t => t.output.isSome) = [true, false, false]
      ∧ (run CircuitBreaker.step CircuitBreaker.initial tripRun).held = true
      ∧ (run CircuitBreaker.step CircuitBreaker.initial tripRun).data.haltFlag "AAPL" = false
      ∧ (breakerTrace trapRun).map (fun t => t.output.isSome) = [true, false] := by
  refine ⟨fun hall => ?_, by decide, by decide, by decide, by decide⟩
  have hret := (hall _ (List.mem_cons_of_mem _ (List.mem_cons_self ..))).returned
  exact absurd hret (by decide)

end TitanX.Proof
