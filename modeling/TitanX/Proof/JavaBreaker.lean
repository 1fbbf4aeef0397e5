import TitanX.Model.JavaBreaker
import TitanX.Proof.Breaker
import TitanX.Proof.JavaSim
import TitanX.Proof.Window

/-!
# The circuit breaker against the Java one

The two breakers have the same windows as long as their clocks tell the same seconds. They
measure a move with different grain: the Java quotient exceeds 5% from 5.00005% on, the whole
basis points of the C++ breaker only from 5.01% on. A move in between (`InBand`) halts the
symbol in Java and not in C++.

So the C++ breaker is the weaker one: what it calls halted the Java one does too, and without
a move in the band they agree. Until the C++ breaker halts a symbol by itself, that is: there
it stops in its own lock and answers nothing more, while the Java breaker has halted the
symbol and goes on (`breaker_refines_java`).
-/

namespace TitanX.Proof

open TitanX CircuitBreaker

/-! ## The two measures -/

/-- From where on a rounded quotient is above the threshold. -/
theorem threshold_lt_halfUp {x : ℚ} (hx : 0 ≤ x) :
    Java.CircuitBreaker.haltThresholdPct < Java.CircuitBreaker.halfUp x ↔ 100001 / 2000000 ≤ x := by
  have hfloor : (50001 : Int) ≤ ⌊x * 1000000 + 1 / 2⌋ ↔ 100001 / 2000000 ≤ x := by
    rw [Int.le_floor]
    push_cast
    constructor <;> intro h <;> linarith
  rw [← hfloor, Java.CircuitBreaker.haltThresholdPct, Java.CircuitBreaker.halfUp, if_neg (not_lt.mpr hx),
    abs_of_nonneg hx]
  generalize ⌊x * 1000000 + 1 / 2⌋ = m
  rw [lt_div_iff₀ (by norm_num)]
  constructor
  · intro h
    have : (50000 : ℚ) < m := by linarith
    have : (50000 : Int) < m := by exact_mod_cast this
    omega
  · intro h
    have : (50001 : ℚ) ≤ m := by exact_mod_cast h
    linarith

theorem relative_decimal (ref price : Int) :
    |decimal price - decimal ref| / decimal ref = (|price - ref| : Int) / (ref : ℚ) := by
  unfold decimal
  rw [← sub_div, abs_div, abs_of_pos (by norm_num : (0 : ℚ) < 100000000),
    div_div_div_cancel_right₀ (by norm_num)]
  push_cast
  rfl

/-- From where on the Java breaker halts, in the prices of the C++ one. -/
theorem pctMove_gt_iff {ref price : Int} (href : 0 < ref) :
    Java.CircuitBreaker.pctMove (decimal ref) (decimal price) > Java.CircuitBreaker.haltThresholdPct
      ↔ 100001 * ref ≤ 2000000 * |price - ref| := by
  have hpos : (0 : ℚ) < ref := by exact_mod_cast href
  rw [Java.CircuitBreaker.pctMove, relative_decimal, gt_iff_lt, threshold_lt_halfUp (by positivity),
    le_div_iff₀ hpos, div_mul_eq_mul_div, div_le_iff₀ (by norm_num), mul_comm (_ : ℚ) 2000000]
  exact_mod_cast Iff.rfl

/-! ## The correspondence -/

/-- A call on the Java breaker, whose clock is `epoch` ahead of the steady one. -/
def breakerOpInJava (epoch : Int) : BreakerOp → Java.BreakerOp
  | .recordTrade now symbol tradePrice => .recordTrade (now + epoch) symbol (decimal tradePrice)
  | .haltSymbol symbol => .haltSymbol symbol
  | .resumeSymbol symbol => .resumeSymbol symbol
  | .isHalted symbol => .isHalted symbol
  | .haltStatus => .haltStatus

/-- A trade on the second, at a price for which basis points fit in 64 bits. -/
def OnTheSecond : BreakerOp → Prop
  | .recordTrade now _ tradePrice =>
      1000000000 ∣ now ∧ 0 < tradePrice ∧ tradePrice ≤ 900000000000000
  | _ => True

/-- A move within a window that is above 5% for the Java breaker only. -/
def InBand (cb : CircuitBreaker) : BreakerOp → Prop
  | .recordTrade now symbol tradePrice => ∃ refPrice start,
      cb.referencePrice.lookup symbol = some refPrice ∧ cb.windowStart.lookup symbol = some start
        ∧ elapsedSeconds start now ≤ windowSeconds
        ∧ 100001 * refPrice ≤ 2000000 * |tradePrice - refPrice|
        ∧ 10000 * |tradePrice - refPrice| < 501 * refPrice
  | _ => False

/-- A trade that makes the Java breaker halt its symbol. -/
def JavaTrips (j : Java.CircuitBreaker) (op : Java.BreakerOp) : Prop :=
  ∃ now symbol tradePrice refPrice, op = .recordTrade now symbol tradePrice
    ∧ j.referencePrice.lookup symbol = some refPrice
    ∧ Java.CircuitBreaker.pctMove refPrice tradePrice > Java.CircuitBreaker.haltThresholdPct
    ∧ j.recordTrade now symbol tradePrice = some (j.haltSymbol symbol)

/-- A price that can be a reference, and the Java price. -/
def PriceSim (price : Int) (price' : Java.BigDecimal) : Prop :=
  price' = decimal price ∧ 0 < price ∧ price ≤ 900000000000000

/-- A clock reading on the second, and the Java one. -/
def TimeSim (epoch now now' : Int) : Prop := now' = now + epoch ∧ 1000000000 ∣ now

/-- The two breakers have the same windows, and what is halted in C++ is halted in Java. Under
`strict` it is the same that is halted. -/
structure BreakerSim (strict : Prop) (epoch : Int) (cb : CircuitBreaker) (j : Java.CircuitBreaker) :
    Prop where
  reference : FinmapRel PriceSim cb.referencePrice j.referencePrice
  window : FinmapRel (TimeSim epoch) cb.windowStart j.windowStart
  weaker : ∀ symbol, cb.haltFlag symbol = true → j.isHalted symbol = true
  same : strict → j.symbolHalts = cb.symbolHalts

theorem elapsed_eq {start start' now now' epoch : Int} (hstart : TimeSim epoch start start')
    (hnow : TimeSim epoch now now') :
    Java.CircuitBreaker.epochSecond now' - Java.CircuitBreaker.epochSecond start'
      = elapsedSeconds start now := by
  obtain ⟨rfl, a, rfl⟩ := hstart
  obtain ⟨rfl, b, rfl⟩ := hnow
  unfold Java.CircuitBreaker.epochSecond elapsedSeconds
  rw [← mul_sub, Int.mul_tdiv_cancel_left _ (by decide)]
  omega

/-- A move within a window, for both breakers. -/
theorem move_cases {ref price : Int} {ref' price' : Java.BigDecimal} (href : PriceSim ref ref')
    (hprice : PriceSim price price') :
    (pctMoveBps ref price > haltThresholdBps
        ∧ Java.CircuitBreaker.pctMove ref' price' > Java.CircuitBreaker.haltThresholdPct)
      ∨ (¬ pctMoveBps ref price > haltThresholdBps
        ∧ ¬ Java.CircuitBreaker.pctMove ref' price' > Java.CircuitBreaker.haltThresholdPct)
      ∨ (¬ pctMoveBps ref price > haltThresholdBps
        ∧ Java.CircuitBreaker.pctMove ref' price' > Java.CircuitBreaker.haltThresholdPct
        ∧ 100001 * ref ≤ 2000000 * |price - ref| ∧ 10000 * |price - ref| < 501 * ref) := by
  obtain ⟨rfl, hpos, hmax⟩ := href
  obtain ⟨rfl, hpos', hmax'⟩ := hprice
  have habs : |price - ref| ≤ 900000000000000 := abs_le.mpr ⟨by omega, by omega⟩
  have hfits : |price - ref| * 10000 < 9223372036854775808 := by omega
  have hbps := moveBps_gt_iff hpos hfits
  unfold Moved at hbps
  rw [pctMoveBps, hbps, pctMove_gt_iff hpos]
  omega

section Sim

variable {strict : Prop} {epoch : Int} {cb : CircuitBreaker} {j : Java.CircuitBreaker}
  (h : BreakerSim strict epoch cb j)

include h

theorem BreakerSim.openWindow {now now' price : Int} {price' : Java.BigDecimal} (symbol : String)
    (hnow : TimeSim epoch now now') (hprice : PriceSim price price') :
    BreakerSim strict epoch (cb.openWindow now symbol price) (j.openWindow now' symbol price') where
  reference := h.reference.insert symbol hprice
  window := h.window.insert symbol hnow
  weaker := h.weaker
  same := h.same

/-- A halt in Java alone. -/
theorem BreakerSim.javaHalts (symbol : String) (hnot : ¬ strict) :
    BreakerSim strict epoch cb (j.haltSymbol symbol) where
  reference := h.reference
  window := h.window
  weaker := by
    intro symbol' hflag
    by_cases hs : symbol' = symbol
    · rw [hs]
      simp [Java.CircuitBreaker.isHalted, Java.CircuitBreaker.haltSymbol]
    · simp only [Java.CircuitBreaker.isHalted, Java.CircuitBreaker.haltSymbol,
        Finmap.lookup_insert_of_ne _ hs]
      exact h.weaker symbol' hflag
  same := fun hstrict => absurd hstrict hnot

theorem BreakerSim.haltSymbol (symbol : String) :
    BreakerSim strict epoch { cb with symbolHalts := cb.symbolHalts.insert symbol true }
      (j.haltSymbol symbol) where
  reference := h.reference
  window := h.window
  weaker := by
    intro symbol' hflag
    by_cases hs : symbol' = symbol
    · rw [hs]
      simp [Java.CircuitBreaker.isHalted, Java.CircuitBreaker.haltSymbol]
    · simp only [haltFlag, Finmap.lookup_insert_of_ne _ hs] at hflag
      simp only [Java.CircuitBreaker.isHalted, Java.CircuitBreaker.haltSymbol,
        Finmap.lookup_insert_of_ne _ hs]
      exact h.weaker symbol' hflag
  same := fun hstrict => by rw [Java.CircuitBreaker.haltSymbol, h.same hstrict]

theorem BreakerSim.resumeSymbol (symbol : String) :
    BreakerSim strict epoch
      { symbolHalts :=
          if symbol ∈ cb.symbolHalts then cb.symbolHalts.insert symbol false else cb.symbolHalts
        referencePrice := cb.referencePrice.erase symbol
        windowStart := cb.windowStart.erase symbol }
      (j.resumeSymbol symbol) where
  reference := h.reference.erase symbol
  window := h.window.erase symbol
  weaker := by
    intro symbol' hflag
    by_cases hs : symbol' = symbol
    · -- the flag is down, or was never up
      rw [hs] at hflag
      simp only [haltFlag] at hflag
      split at hflag
      · simp at hflag
      · rename_i hmem
        rw [Finmap.lookup_eq_none.mpr hmem] at hflag
        simp at hflag
    · have hold : cb.haltFlag symbol' = true := by
        simp only [haltFlag] at hflag ⊢
        split at hflag
        · rwa [Finmap.lookup_insert_of_ne _ hs] at hflag
        · exact hflag
      have hjava := h.weaker symbol' hold
      simp only [Java.CircuitBreaker.isHalted, Java.CircuitBreaker.resumeSymbol] at hjava ⊢
      split
      · rwa [Finmap.lookup_insert_of_ne _ hs]
      · exact hjava
  same := fun hstrict => by rw [Java.CircuitBreaker.resumeSymbol, h.same hstrict]

/-- **One trade on both breakers.** The C++ breaker is about to halt, and the Java one halts;
or both go on. -/
theorem BreakerSim.observe {now now' price : Int} {price' : Java.BigDecimal} (symbol : String)
    (hnow : TimeSim epoch now now') (hprice : PriceSim price price')
    (hband : strict → ¬ InBand cb (.recordTrade now symbol price)) :
    ((cb.observe now symbol price).1 = .halts ∧ JavaTrips j (.recordTrade now' symbol price'))
      ∨ ((cb.observe now symbol price).1 = .quiet
        ∧ ∃ j', j.recordTrade now' symbol price' = some j'
          ∧ BreakerSim strict epoch (cb.observe now symbol price).2 j') := by
  have hopen := h.openWindow symbol hnow hprice
  unfold CircuitBreaker.observe
  rcases h.reference.lookup_cases symbol with ⟨hr, hr'⟩ | ⟨ref, ref', hr, hr', href⟩
  · have hjava : j.recordTrade now' symbol price' = some (j.openWindow now' symbol price') := by
      simp [Java.CircuitBreaker.recordTrade, hr']
    rw [hr]
    exact .inr ⟨rfl, _, hjava, hopen⟩
  rcases h.window.lookup_cases symbol with ⟨hw, hw'⟩ | ⟨start, start', hw, hw', hstart⟩
  · have hjava : j.recordTrade now' symbol price' = some (j.openWindow now' symbol price') := by
      simp [Java.CircuitBreaker.recordTrade, hw']
    rw [hr, hw]
    exact .inr ⟨rfl, _, hjava, hopen⟩
  have helapsed := elapsed_eq hstart hnow
  have hjava : j.recordTrade now' symbol price'
      = if elapsedSeconds start now > windowSeconds then some (j.openWindow now' symbol price')
        else if ref' = 0 then none
        else if Java.CircuitBreaker.pctMove ref' price' > Java.CircuitBreaker.haltThresholdPct then
          some (j.haltSymbol symbol)
        else some j := by
    rw [Java.CircuitBreaker.recordTrade, hr', hw']
    dsimp only
    rw [helapsed]
    rfl
  rw [hr, hw]
  dsimp only
  by_cases hold : elapsedSeconds start now > windowSeconds
  · rw [if_pos hold] at hjava ⊢
    exact .inr ⟨rfl, _, hjava, hopen⟩
  rw [if_neg hold] at hjava ⊢
  have href0 : ref ≠ 0 := by have := href.2.1; omega
  have href0' : ref' ≠ 0 := by
    rw [href.1, decimal]
    exact div_ne_zero (by exact_mod_cast href0) (by norm_num)
  rw [if_neg href0'] at hjava
  have htraps : ¬ divTraps (moveScaled ref price) ref = true := by
    have := href.2.1
    unfold divTraps
    simp only [Bool.or_eq_true, Bool.and_eq_true, decide_eq_true_eq]
    omega
  rw [if_neg href0, if_neg htraps]
  rcases move_cases href hprice with ⟨hbps, hpct⟩ | ⟨hbps, hpct⟩ | ⟨hbps, hpct, hlo, hhi⟩
  · rw [if_pos hpct] at hjava
    rw [if_pos hbps]
    exact .inl ⟨rfl, now', symbol, price', ref', rfl, hr', hpct, hjava⟩
  · rw [if_neg hpct] at hjava
    rw [if_neg hbps]
    exact .inr ⟨rfl, _, hjava, h⟩
  · rw [if_pos hpct] at hjava
    rw [if_neg hbps]
    refine .inr ⟨rfl, _, hjava, h.javaHalts symbol fun hstrict => ?_⟩
    exact hband hstrict ⟨ref, start, hr, hw, not_lt.mp hold, hlo, hhi⟩

end Sim

/-! ## Runs -/

/-- An answer of the C++ breaker, if there is one, calls nothing halted that the answer of the
Java breaker does not. -/
inductive Weaker : Option BreakerRet → Option BreakerRet → Prop where
  | silent (r : Option BreakerRet) : Weaker none r
  | done : Weaker (some .done) (some .done)
  | flag {b b' : Bool} (h : b = true → b' = true) : Weaker (some (.flag b)) (some (.flag b'))
  | status {m m' : Finmap (fun _ : String => Bool)}
      (h : ∀ symbol, m.lookup symbol = some true → m'.lookup symbol = some true) :
      Weaker (some (.status m)) (some (.status m'))

/-- **One call on both breakers.** Both return and still correspond, or the C++ breaker blocks
on a trade for which the Java one halts the symbol. -/
theorem breaker_step_sim {strict : Prop} {epoch : Int} {g : Guarded CircuitBreaker}
    {j : Java.CircuitBreaker} (h : BreakerSim strict epoch g.data j) (hfree : g.held = false)
    {op : BreakerOp} (hop : OnTheSecond op)
    (hband : strict → ¬ InBand g.data op) :
    ((CircuitBreaker.step g op).1.held = false
        ∧ BreakerSim strict epoch (CircuitBreaker.step g op).1.data
            (j.step (breakerOpInJava epoch op)).1
        ∧ Weaker (CircuitBreaker.step g op).2 (j.step (breakerOpInJava epoch op)).2
        ∧ (strict → (CircuitBreaker.step g op).2 = (j.step (breakerOpInJava epoch op)).2))
      ∨ ((CircuitBreaker.step g op).1.held = true ∧ (CircuitBreaker.step g op).2 = none
        ∧ JavaTrips j (breakerOpInJava epoch op)) := by
  cases op with
  | recordTrade now symbol price =>
      obtain ⟨hnow, hprice⟩ := hop
      have hnow' : TimeSim epoch now (now + epoch) := ⟨rfl, hnow⟩
      have hprice' : PriceSim price (decimal price) := ⟨rfl, hprice⟩
      rcases h.observe symbol hnow' hprice' hband with ⟨htrips, hjava⟩ | ⟨hquiet, j', hjava, hsim⟩
      · refine .inr ?_
        rw [CircuitBreaker.step, recordTrade_trips hfree (by rw [htrips]; decide)]
        exact ⟨rfl, rfl, hjava⟩
      · refine .inl ?_
        have hj : j.step (breakerOpInJava epoch (.recordTrade now symbol price))
            = (j', some .done) := by
          simp only [breakerOpInJava, Java.CircuitBreaker.step, hjava]
        rw [CircuitBreaker.step, recordTrade_quiet hfree hquiet, hj]
        exact ⟨rfl, hsim, .done, fun _ => rfl⟩
  | haltSymbol symbol =>
      refine .inl ?_
      rw [CircuitBreaker.step, haltSymbol, critical_free hfree]
      exact ⟨rfl, h.haltSymbol symbol, .done, fun _ => rfl⟩
  | resumeSymbol symbol =>
      refine .inl ?_
      rw [CircuitBreaker.step, resumeSymbol, critical_free hfree]
      exact ⟨rfl, h.resumeSymbol symbol, .done, fun _ => rfl⟩
  | isHalted symbol =>
      refine .inl ?_
      rw [CircuitBreaker.step, isHalted, critical_free hfree]
      refine ⟨rfl, h, .flag (h.weaker symbol), fun hstrict => ?_⟩
      show some (BreakerRet.flag (g.data.haltFlag symbol)) = some (.flag (j.isHalted symbol))
      rw [haltFlag, Java.CircuitBreaker.isHalted, h.same hstrict]
  | haltStatus =>
      refine .inl ?_
      rw [CircuitBreaker.step, haltStatus, critical_free hfree]
      refine ⟨rfl, h, .status fun symbol hflag => ?_, fun hstrict => ?_⟩
      · have hjava := h.weaker symbol (by rw [haltFlag, hflag]; rfl)
        rw [Java.CircuitBreaker.isHalted] at hjava
        cases hl : j.symbolHalts.lookup symbol with
        | none => rw [hl] at hjava; cases hjava
        | some b => rw [hl] at hjava; rw [show b = true from hjava]
      · show some (BreakerRet.status g.data.symbolHalts) = some (.status j.symbolHalts)
        rw [h.same hstrict]

def javaBreakerTrace (epoch : Int) (ops : List BreakerOp) :
    List (Transition Java.CircuitBreaker Java.BreakerOp (Option BreakerRet)) :=
  trace Java.CircuitBreaker.step Java.CircuitBreaker.initial (ops.map (breakerOpInJava epoch))

/-- The C++ breaker is stuck since a trade that tripped the Java one, or they correspond. -/
def StuckOrSim (epoch : Int) (ops : List BreakerOp) (g : Guarded CircuitBreaker) : Prop :=
  (g.held = true ∧ ∃ t ∈ javaBreakerTrace epoch ops, JavaTrips t.before t.input)
    ∨ (g.held = false ∧ BreakerSim False epoch g.data
        (run Java.CircuitBreaker.step Java.CircuitBreaker.initial (ops.map (breakerOpInJava epoch))))

theorem breakerSim_initial (strict : Prop) (epoch : Int) :
    BreakerSim strict epoch CircuitBreaker.initial.data Java.CircuitBreaker.initial where
  reference := fun _ => .none
  window := fun _ => .none
  weaker := fun symbol hflag => by cases hflag
  same := fun _ => rfl

theorem stuckOrSim_reachable (epoch : Int) : ∀ ops, (∀ op ∈ ops, OnTheSecond op) →
    StuckOrSim epoch ops (run CircuitBreaker.step CircuitBreaker.initial ops) := by
  refine run_invariant CircuitBreaker.step
    (fun ops op h x hx => h x (List.mem_append_left _ hx))
    (.inr ⟨rfl, breakerSim_initial False epoch⟩) fun ops op hok hP => ?_
  have htrace : javaBreakerTrace epoch (ops ++ [op]) = javaBreakerTrace epoch ops
      ++ [lastCall Java.CircuitBreaker.step Java.CircuitBreaker.initial
            (ops.map (breakerOpInJava epoch)) (breakerOpInJava epoch op)] := by
    rw [javaBreakerTrace, List.map_append]
    exact trace_snoc ..
  rcases hP with ⟨hheld, t, ht, htrips⟩ | ⟨hfree, hsim⟩
  · refine .inl ⟨by rw [breakerStep_held hheld]; exact hheld, t, ?_, htrips⟩
    rw [htrace]
    exact List.mem_append_left _ ht
  · rcases breaker_step_sim hsim hfree (hok op (by simp)) (fun hf => hf.elim) with
      ⟨hfree', hsim', -⟩ | ⟨hheld, -, htrips⟩
    · refine .inr ⟨hfree', ?_⟩
      rw [List.map_append, List.map_singleton, run_snoc]
      exact hsim'
    · refine .inl ⟨hheld, lastCall Java.CircuitBreaker.step Java.CircuitBreaker.initial
        (ops.map (breakerOpInJava epoch)) (breakerOpInJava epoch op), ?_, htrips⟩
      rw [htrace]
      exact List.mem_append_right _ (List.mem_singleton_self _)

/-- The answers of the two breakers to a run. -/
theorem breaker_outputs (strict : Prop) (epoch : Int) {ops : List BreakerOp}
    (h : ∀ op ∈ ops, OnTheSecond op)
    (hband : strict → ∀ t ∈ breakerTrace ops, ¬ InBand t.before.data t.input) :
    List.Forall₂ (fun r r' => Weaker r r' ∧ (strict → r = none ∨ r = r'))
      (outputs CircuitBreaker.step CircuitBreaker.initial ops)
      (outputs Java.CircuitBreaker.step Java.CircuitBreaker.initial
        (ops.map (breakerOpInJava epoch))) := by
  refine (run_simulation CircuitBreaker.step Java.CircuitBreaker.step
    (V := fun ops => (∀ op ∈ ops, OnTheSecond op)
      ∧ (strict → ∀ t ∈ breakerTrace ops, ¬ InBand t.before.data t.input))
    (R := fun g j => g.held = true ∨ (g.held = false ∧ BreakerSim strict epoch g.data j))
    (I := fun op op' => op' = breakerOpInJava epoch op) ?_
    (.inr ⟨rfl, breakerSim_initial strict epoch⟩) ?_ ops _ ⟨h, hband⟩ ?_).2
  · intro ops op hV
    refine ⟨fun x hx => hV.1 x (List.mem_append_left _ hx), fun hstrict t ht => ?_⟩
    refine hV.2 hstrict t ?_
    rw [breakerTrace, trace_snoc]
    exact List.mem_append_left _ ht
  · rintro ops op j _ hV rfl hR
    rcases hR with hheld | ⟨hfree, hsim⟩
    · rw [breakerStep_held hheld]
      exact ⟨.inl hheld, .silent _, fun _ => .inl rfl⟩
    · have hno : strict → ¬ InBand (run CircuitBreaker.step CircuitBreaker.initial ops).data op := by
        intro hstrict
        refine hV.2 hstrict (lastCall CircuitBreaker.step CircuitBreaker.initial ops op) ?_
        rw [breakerTrace, trace_snoc]
        exact List.mem_append_right _ (List.mem_singleton_self _)
      rcases breaker_step_sim hsim hfree (hV.1 op (by simp)) hno with
        ⟨hfree', hsim', hweaker, hsame⟩ | ⟨hheld, hnone, -⟩
      · exact ⟨.inr ⟨hfree', hsim'⟩, hweaker, fun hstrict => .inr (hsame hstrict)⟩
      · rw [hnone]
        exact ⟨.inl hheld, .silent _, fun _ => .inl rfl⟩
  · exact List.forall₂_map_right_iff.mpr (List.forall₂_same.mpr fun _ _ => rfl)

/-- **The C++ breaker is a weaker Java breaker, until it trips.** On calls at whole seconds, it
answers nothing or calls nothing halted that the Java one does not; where no move falls between
5.00005% and 5.01%, it answers nothing or the same. And it has stopped answering only after a
trade for which the Java breaker halted the symbol and went on. -/
theorem breaker_refines_java (epoch : Int) {ops : List BreakerOp}
    (h : ∀ op ∈ ops, OnTheSecond op) :
    List.Forall₂ Weaker (outputs CircuitBreaker.step CircuitBreaker.initial ops)
        (outputs Java.CircuitBreaker.step Java.CircuitBreaker.initial
          (ops.map (breakerOpInJava epoch)))
      ∧ ((∀ t ∈ breakerTrace ops, ¬ InBand t.before.data t.input) →
          List.Forall₂ (fun r r' => r = none ∨ r = r')
            (outputs CircuitBreaker.step CircuitBreaker.initial ops)
            (outputs Java.CircuitBreaker.step Java.CircuitBreaker.initial
              (ops.map (breakerOpInJava epoch))))
      ∧ ((run CircuitBreaker.step CircuitBreaker.initial ops).held = true →
          ∃ t ∈ javaBreakerTrace epoch ops, JavaTrips t.before t.input) := by
  refine ⟨?_, fun hband => ?_, fun hheld => ?_⟩
  · exact (breaker_outputs False epoch h (fun hf => hf.elim)).imp fun _ _ hO => hO.1
  · exact (breaker_outputs True epoch h (fun _ => hband)).imp fun _ _ hO => hO.2 trivial
  · rcases stuckOrSim_reachable epoch ops h with ⟨-, htrips⟩ | ⟨hfree, -⟩
    · exact htrips
    · rw [hheld] at hfree
      cases hfree

/-- A move of 5.005% within a second. -/
def bandOps : List BreakerOp :=
  [.recordTrade 0 "AAPL" 10000000000, .recordTrade 1000000000 "AAPL" 10500500000, .isHalted "AAPL"]

theorem breaker_refines_java_band :
    (∀ op ∈ bandOps, OnTheSecond op)
      ∧ List.Forall₂ Weaker (outputs CircuitBreaker.step CircuitBreaker.initial bandOps)
          (outputs Java.CircuitBreaker.step Java.CircuitBreaker.initial
            (bandOps.map (breakerOpInJava 0)))
      ∧ (run CircuitBreaker.step CircuitBreaker.initial bandOps).data.haltFlag "AAPL" = false
      ∧ (run Java.CircuitBreaker.step Java.CircuitBreaker.initial
            (bandOps.map (breakerOpInJava 0))).isHalted "AAPL" = true := by
  have hseconds : ∀ op ∈ bandOps, OnTheSecond op := by
    intro op hop
    simp only [bandOps, List.mem_cons, List.not_mem_nil, or_false] at hop
    rcases hop with rfl | rfl | rfl
    · exact ⟨by decide, by decide, by decide⟩
    · exact ⟨by decide, by decide, by decide⟩
    · trivial
  exact ⟨hseconds, (breaker_refines_java 0 hseconds).1, by decide +kernel, by decide +kernel⟩

end TitanX.Proof
