import TitanX.Lib.Run
import TitanX.Model.LockFree
import TitanX.Proof.Risk
import Mathlib.Algebra.Order.Group.Abs
import Mathlib.Data.Int.Order.Lemmas

/-!
# The windows of the circuit breaker

The rule is that a price move of more than 5% within 60 seconds halts the symbol. The code
keeps one reference price: the first trade opens a window, trades of the next 60 seconds
are compared with it, and the first one after that opens the next window. Two trades of
which neither opened the window are never compared, nor are two trades on either side of
the end of a window.

The windows depend on the clock readings alone, so they are described here without the
breaker (`tumbling`), and the breaker is then shown to follow them: it is halted when some
trade was far from the one that opened its window (`haltFlag_iff`).
-/

namespace TitanX.Proof

open TitanX CircuitBreaker

/-- A trade of the symbol as the breaker is told of it. -/
structure Tick where
  now : Int
  price : Int
  deriving DecidableEq

/-! ## Windows -/

/-- The trade that opened the current window, if one is open, after one more trade. -/
def tumbling (opener : Option Tick) (t : Tick) : Option Tick × Unit :=
  match opener with
  | none => (some t, ())
  | some w => (if elapsedSeconds w.now t.now > windowSeconds then some t else some w, ())

/-- The trades of a run, each with the window it finds. -/
def windows (ts : List Tick) : List (Transition (Option Tick) Tick Unit) := trace tumbling none ts

/-- At least 501 basis points, by the earlier price. -/
def Moved (price price' : Int) : Prop := 501 * price ≤ |price' - price| * 10000

/-- The trade falls into the open window, and is far from the trade that opened it. -/
def FarFromOpener (opener : Option Tick) (t : Tick) : Prop :=
  ∃ w, opener = some w ∧ elapsedSeconds w.now t.now ≤ windowSeconds ∧ Moved w.price t.price

/-- Positive prices, and no overflow in the comparison with the opener of the window. -/
structure Recorded (ts : List Tick) : Prop where
  positive : ∀ t ∈ ts, 0 < t.price
  fits : ∀ v ∈ windows ts, ∀ w, v.before = some w →
    |v.input.price - w.price| * 10000 < 9223372036854775808

theorem Recorded.of_append {ts ts' : List Tick} (h : Recorded (ts ++ ts')) : Recorded ts where
  positive := fun x hx => h.positive x (List.mem_append_left _ hx)
  fits := fun v hv => h.fits v (by rw [windows, trace_append]; exact List.mem_append_left _ hv)

/-- Windows are opened by trades of the run. -/
theorem opener_mem (ts : List Tick) : ∀ w, run tumbling none ts = some w → w ∈ ts := by
  refine run_always tumbling (P := fun ts o => ∀ w, o = some w → w ∈ ts)
    (fun w h => by cases h) ?_ ts
  intro ts t ih w hw
  cases ho : run tumbling none ts with
  | none =>
      rw [ho] at hw
      cases hw
      exact List.mem_append_right _ (List.mem_singleton_self t)
  | some v =>
      rw [ho, tumbling] at hw
      dsimp only at hw
      split at hw
      · cases hw
        exact List.mem_append_right _ (List.mem_singleton_self t)
      · cases hw
        exact List.mem_append_left _ (ih w ho)

/-! ## The comparison -/

/-- The code's basis points are above `n` exactly when the product, as `int64_t` has it, is
`n + 1` of them. -/
theorem lt_moveBps_iff {base price n : Int} (hn : 0 ≤ n) (hbase : 0 < base)
    (hdiff : |price - base| < 9223372036854775808) :
    n < moveBps base price ↔ (n + 1) * base ≤ wrap64 (|price - base| * 10000) := by
  have habs : (((price - base).natAbs : Nat) : Int) = |price - base| := Int.natCast_natAbs _
  have hnonneg := abs_nonneg (price - base)
  have hexact : wrap64 (price - base) = price - base := by
    have hle := le_abs_self (price - base)
    have hge := neg_abs_le (price - base)
    exact wrap64_of_lt (by omega) (by omega)
  unfold moveBps moveScaled abs64
  rw [hexact, habs, wrap64_of_lt (x := |price - base|) (by omega) hdiff]
  exact lt_div64_iff hn hbase

theorem moveBps_gt_iff {base price : Int} (hbase : 0 < base)
    (hfits : |price - base| * 10000 < 9223372036854775808) :
    moveBps base price > haltThresholdBps ↔ Moved base price := by
  have hnonneg := abs_nonneg (price - base)
  have hdiff : |price - base| < 9223372036854775808 := by omega
  have h := lt_moveBps_iff (n := 500) (by decide) hbase hdiff
  rw [wrap64_of_lt (by omega) hfits] at h
  exact h

/-! ## The breaker follows the windows -/

/-- The breaker's maps have the window `o` of the symbol. -/
def WindowIs (cb : CircuitBreaker) (symbol : String) : Option Tick → Prop
  | none => cb.referencePrice.lookup symbol = none ∨ cb.windowStart.lookup symbol = none
  | some w => cb.referencePrice.lookup symbol = some w.price
      ∧ cb.windowStart.lookup symbol = some w.now

/-- One recorded trade, mutex aside. -/
def record (symbol : String) (cb : CircuitBreaker) (t : Tick) : CircuitBreaker × Unit :=
  (LockFree.recordTrade cb t.now symbol t.price, ())

theorem windowIs_openWindow (cb : CircuitBreaker) (symbol : String) (t : Tick) :
    WindowIs (cb.openWindow t.now symbol t.price) symbol (some t) :=
  ⟨Finmap.lookup_insert _, Finmap.lookup_insert _⟩

/-- What `recordTrade` does, by the window it finds. -/
theorem observe_closed {cb : CircuitBreaker} {symbol : String} (h : WindowIs cb symbol none)
    (t : Tick) : cb.observe t.now symbol t.price = (.quiet, cb.openWindow t.now symbol t.price) := by
  unfold observe
  rcases h with h | h
  · rw [h]
  · rw [h]
    cases cb.referencePrice.lookup symbol <;> rfl

/-- The windows move on with every trade, whatever else comes of it. -/
theorem windowIs_observe {cb : CircuitBreaker} {symbol : String} {opener : Option Tick}
    (h : WindowIs cb symbol opener) (t : Tick) :
    WindowIs (cb.observe t.now symbol t.price).2 symbol (tumbling opener t).1 := by
  cases opener with
  | none =>
      rw [observe_closed h]
      exact windowIs_openWindow cb symbol t
  | some w =>
      unfold observe
      rw [h.1, h.2, tumbling]
      dsimp only
      split
      · exact windowIs_openWindow cb symbol t
      · split
        · exact h
        · split
          · exact h
          · split
            · exact h
            · exact h

theorem observe_open {cb : CircuitBreaker} {symbol : String} {w : Tick}
    (h : WindowIs cb symbol (some w)) (hw : 0 < w.price) (t : Tick) :
    cb.observe t.now symbol t.price =
      if elapsedSeconds w.now t.now > windowSeconds then
        (.quiet, cb.openWindow t.now symbol t.price)
      else if moveBps w.price t.price > haltThresholdBps then (.halts, cb)
      else (.quiet, cb) := by
  have htraps : ¬ divTraps (moveScaled w.price t.price) w.price = true := by
    unfold divTraps
    simp only [Bool.or_eq_true, Bool.and_eq_true, decide_eq_true_eq]
    omega
  unfold observe
  rw [h.1, h.2]
  dsimp only
  rw [if_neg (show ¬ w.price = 0 by omega), if_neg htraps]
  rfl

theorem haltFlag_haltSymbol (cb : CircuitBreaker) (symbol : String) :
    (LockFree.haltSymbol cb symbol).haltFlag symbol = true := by
  unfold haltFlag LockFree.haltSymbol
  rw [Finmap.lookup_insert]
  rfl

/-- One trade moves the windows on, and halts the symbol if it is far from the opener. -/
theorem record_step {cb : CircuitBreaker} {symbol : String} {opener : Option Tick} {t : Tick}
    (h : WindowIs cb symbol opener)
    (hok : ∀ w, opener = some w →
      0 < w.price ∧ |t.price - w.price| * 10000 < 9223372036854775808) :
    WindowIs (record symbol cb t).1 symbol (tumbling opener t).1
      ∧ ((record symbol cb t).1.haltFlag symbol = true
        ↔ cb.haltFlag symbol = true ∨ FarFromOpener opener t) := by
  unfold record LockFree.recordTrade
  cases opener with
  | none =>
      rw [observe_closed h]
      refine ⟨windowIs_openWindow cb symbol t, Or.inl, fun hor => hor.resolve_right ?_⟩
      intro hfar
      obtain ⟨w, hw, -⟩ := hfar
      cases hw
  | some w =>
      obtain ⟨hw, hfits⟩ := hok w rfl
      rw [observe_open h hw, tumbling]
      by_cases hlate : elapsedSeconds w.now t.now > windowSeconds
      · -- the window is over: the trade opens the next one and is compared with nothing
        rw [if_pos hlate, if_pos hlate]
        refine ⟨windowIs_openWindow cb symbol t, Or.inl, fun hor => hor.resolve_right ?_⟩
        intro hfar
        obtain ⟨w', hw', hin, -⟩ := hfar
        cases hw'
        omega
      · rw [if_neg hlate, if_neg hlate]
        by_cases hmove : moveBps w.price t.price > haltThresholdBps
        · rw [if_pos hmove]
          refine ⟨h, fun _ => Or.inr ?_, fun _ => haltFlag_haltSymbol cb symbol⟩
          exact ⟨w, rfl, not_lt.mp hlate, (moveBps_gt_iff hw hfits).mp hmove⟩
        · rw [if_neg hmove]
          refine ⟨h, Or.inl, fun hor => hor.resolve_right ?_⟩
          intro hfar
          obtain ⟨w', hw', -, hmoved⟩ := hfar
          cases hw'
          exact hmove ((moveBps_gt_iff hw hfits).mpr hmoved)

/-- No window of the symbol is open and it is not halted: a new breaker, or one on which
the symbol was just resumed. -/
structure Rested (cb : CircuitBreaker) (symbol : String) : Prop where
  closed : WindowIs cb symbol none
  notHalted : cb.haltFlag symbol = false

/-- The breaker after the trades `ts` of the symbol. -/
def breakerAfter (symbol : String) (cb : CircuitBreaker) (ts : List Tick) : CircuitBreaker :=
  run (record symbol) cb ts

/-- **When the breaker is halted**: some trade was far from the opener of its window. -/
theorem haltFlag_iff {cb : CircuitBreaker} {symbol : String} (hcb : Rested cb symbol)
    {ts : List Tick} (h : Recorded ts) :
    (breakerAfter symbol cb ts).haltFlag symbol = true
      ↔ ∃ v ∈ windows ts, FarFromOpener v.before v.input := by
  refine (run_invariant (record symbol) (V := Recorded)
    (P := fun ts cb' => WindowIs cb' symbol (run tumbling none ts)
      ∧ (cb'.haltFlag symbol = true ↔ ∃ v ∈ windows ts, FarFromOpener v.before v.input))
    (fun _ _ h => h.of_append) ⟨hcb.closed, ?_⟩ ?_ ts h).2
  · rw [hcb.notHalted]
    simp [windows]
  · intro ts t hrec ih
    obtain ⟨hwin, hflag⟩ := ih
    have hlast : lastCall tumbling none ts t ∈ windows (ts ++ [t]) := by
      rw [windows, trace_snoc]; exact List.mem_append_right _ (List.mem_singleton_self _)
    obtain ⟨hwin', hflag'⟩ := record_step (t := t) hwin (fun w hw =>
      ⟨hrec.of_append.positive w (opener_mem ts w hw), hrec.fits _ hlast w hw⟩)
    refine ⟨by rw [run_snoc]; exact hwin', ?_⟩
    rw [hflag', hflag, windows, windows, trace_snoc]
    simp only [List.mem_append, List.mem_singleton, or_and_right, exists_or, exists_eq_left]
    rfl

/-! ## The rule -/

/-- Two trades of the run, `t` before `t'`, are at most 60 seconds and at least 501 basis
points apart. The calls up to `t'` are `upTo`. -/
structure FastMove (ts upTo : List Tick) (t t' : Tick) : Prop where
  cut : ∃ pre mid post, upTo = pre ++ t :: (mid ++ [t']) ∧ ts = upTo ++ post
  soon : t'.now - t.now ≤ 60000000000
  moved : Moved t.price t'.price

/-- The symbol is halted after the later trade of every fast move. -/
def HaltRule (symbol : String) (cb : CircuitBreaker) (ts : List Tick) : Prop :=
  ∀ upTo t t', FastMove ts upTo t t' → (breakerAfter symbol cb upTo).haltFlag symbol = true

/--
**When the 5%-in-60-seconds rule holds.** Every fast move of a run halts the symbol if and
only if, by the later trade of each, some trade was far from the trade that opened its
own window.
-/
theorem halt_rule_iff (symbol : String) {cb : CircuitBreaker} (hcb : Rested cb symbol)
    {ts : List Tick} (h : Recorded ts) :
    HaltRule symbol cb ts
      ↔ ∀ upTo t t', FastMove ts upTo t t' →
          ∃ v ∈ windows upTo, FarFromOpener v.before v.input := by
  have hflag : ∀ upTo t t', FastMove ts upTo t t' →
      ((breakerAfter symbol cb upTo).haltFlag symbol = true
        ↔ ∃ v ∈ windows upTo, FarFromOpener v.before v.input) := by
    intro upTo t t' hfast
    obtain ⟨_, _, post, -, hts⟩ := hfast.cut
    subst hts
    exact haltFlag_iff hcb h.of_append
  constructor
  · intro hrule upTo t t' hfast
    exact (hflag upTo t t' hfast).mp (hrule upTo t t' hfast)
  · intro hfar upTo t t' hfast
    exact (hflag upTo t t' hfast).mpr (hfar upTo t t' hfast)

/-- Prices up to nine million never overflow. -/
theorem recorded_of_le {ts : List Tick} (hpos : ∀ t ∈ ts, 0 < t.price)
    (hle : ∀ t ∈ ts, t.price ≤ 900000000000000) : Recorded ts where
  positive := hpos
  fits := by
    intro v hv w hw
    obtain ⟨pre, t, post, hts, rfl⟩ := mem_trace tumbling hv
    have hw' : w ∈ ts := by
      rw [hts]; exact List.mem_append_left _ (opener_mem pre w hw)
    have ht' : t ∈ ts := by
      rw [hts]; exact List.mem_append_right _ (List.mem_cons_self ..)
    have hlt : |t.price - w.price| < 900000000000000 := by
      rw [abs_lt]
      have h₁ := hpos t ht'
      have h₂ := hpos w hw'
      have h₃ := hle t ht'
      have h₄ := hle w hw'
      omega
    show |t.price - w.price| * 10000 < 9223372036854775808
    omega

/-- A new breaker. -/
theorem rested_initial (symbol : String) : Rested CircuitBreaker.initial.data symbol :=
  ⟨Or.inl (Finmap.lookup_empty symbol), rfl⟩

/-- The price goes up by 6% within the window of the first trade. -/
def jumpTicks : List Tick := [⟨0, 10000000000⟩, ⟨30000000000, 10600000000⟩]

theorem halt_rule_jump : HaltRule "AAPL" CircuitBreaker.initial.data jumpTicks := by
  refine (halt_rule_iff "AAPL" (rested_initial "AAPL")
    (recorded_of_le (by decide) (by decide))).mpr ?_
  intro upTo t t' hfast
  obtain ⟨pre, mid, post, rfl, hts⟩ := hfast.cut
  -- there is only one pair of trades
  have hlen := congrArg List.length hts
  simp only [jumpTicks, List.length_append, List.length_cons, List.length_nil] at hlen
  obtain rfl : post = [] := List.length_eq_zero_iff.mp (by omega)
  rw [List.append_nil] at hts
  rw [← hts]
  exact ⟨⟨some ⟨0, 10000000000⟩, ⟨30000000000, 10600000000⟩, (), some ⟨0, 10000000000⟩⟩,
    List.mem_cons_of_mem _ (List.mem_cons_self ..), ⟨0, 10000000000⟩, rfl, by decide,
    by unfold Moved; decide⟩

/-- Up by 4% and then down by nearly 7% from there, all within 40 seconds; the price that
opened the window is in between. -/
def swingTicks : List Tick :=
  [⟨0, 10000000000⟩, ⟨30000000000, 10400000000⟩, ⟨40000000000, 9700000000⟩]

theorem swing_not_halted :
    Recorded swingTicks ∧ (swingTicks.map Tick.now).Pairwise (· ≤ ·)
      ∧ ¬ HaltRule "AAPL" CircuitBreaker.initial.data swingTicks := by
  refine ⟨recorded_of_le (by decide) (by decide), by decide, fun hrule => ?_⟩
  have hhalted := hrule swingTicks ⟨30000000000, 10400000000⟩ ⟨40000000000, 9700000000⟩
    ⟨⟨[⟨0, 10000000000⟩], [], [], rfl, rfl⟩, by decide, by unfold Moved; decide⟩
  exact absurd hhalted (by decide)

end TitanX.Proof
