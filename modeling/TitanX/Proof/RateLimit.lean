import TitanX.Model.TokenBucketRateLimiter
import TitanX.Lib.Run
import Mathlib.Data.List.Basic

/-!
# What the rate limiter grants

Calls made one at a time. A bucket of the limiter gives a token for every ten milliseconds
since its last refill (`refill_standard`), so tokens already granted and tokens still there
together never exceed what the bucket held at the start of a window and what the time up to
the last refill was worth. That is `Covered`, and a call keeps it; the nine milliseconds in the
bound are what a refill just before the window may have left over (`rate_limit_window`).
-/

namespace TitanX.Proof

open TitanX TokenBucket TokenBucketRateLimiter

/-! ## One bucket of the limiter -/

/-- A bucket as the limiter makes it, with a last refill that the clock can have shown. -/
structure Standard (b : TokenBucket) : Prop where
  capacity : b.capacity = 100
  rate : b.refillPerSecond = 100
  nonneg : 0 ≤ b.tokens
  le : b.tokens ≤ 100
  lo : -9223372036854 ≤ b.lastRefillTimeMs
  hi : b.lastRefillTimeMs ≤ 9223372036854

theorem standard_create (now : SteadyMs) :
    Standard (create standardCapacity standardRefillRate now.count) := by
  refine ⟨rfl, rfl, ?_, ?_, now.lo, now.hi⟩ <;> simp [create, standardCapacity]

theorem Standard.setTokens {b : TokenBucket} (h : Standard b) {tokens : Int} (hlo : 0 ≤ tokens)
    (hhi : tokens ≤ 100) : Standard { b with tokens } :=
  ⟨h.capacity, h.rate, hlo, hhi, h.lo, h.hi⟩

theorem Standard.setLast {b : TokenBucket} (h : Standard b) {last : Int} (hlo : -9223372036854 ≤ last)
    (hhi : last ≤ 9223372036854) : Standard { b with lastRefillTimeMs := last } :=
  ⟨h.capacity, h.rate, h.nonneg, h.le, hlo, hhi⟩

/-- At the standard rate ten milliseconds are a token, and nothing overflows. -/
theorem tokensToAdd_standard {b : TokenBucket} (hrate : b.refillPerSecond = 100) {elapsed : Int}
    (hlo : 0 ≤ elapsed) (hhi : elapsed ≤ 18446744073708) : b.tokensToAdd elapsed = elapsed / 10 := by
  unfold tokensToAdd div64
  rw [hrate, wrap64_of_lt (x := elapsed * 100) (by omega) (by omega),
    Int.tdiv_eq_ediv_of_nonneg (by omega)]
  omega

theorem updated_standard {b : TokenBucket} (h : Standard b) {add : Int} (hlo : 0 ≤ add)
    (hhi : add ≤ 18446744073708) : b.updated b.tokens add = min 100 (b.tokens + add) := by
  have hnonneg := h.nonneg
  have hle := h.le
  unfold updated
  rw [h.capacity, wrap64_of_lt (by omega) (by omega)]

theorem refill_standard {b : TokenBucket} (h : Standard b) (now : SteadyMs) :
    b.refill now.count
      = if b.lastRefillTimeMs + 10 ≤ now.count then
          { b with
            tokens := min 100 (b.tokens + (now.count - b.lastRefillTimeMs) / 10)
            lastRefillTimeMs := now.count }
        else b := by
  have hlo := h.lo
  have hhi := h.hi
  have hnlo := now.lo
  have hnhi := now.hi
  have helapsed : wrap64 (now.count - b.lastRefillTimeMs) = now.count - b.lastRefillTimeMs :=
    wrap64_of_lt (by omega) (by omega)
  unfold refill
  dsimp only
  rw [helapsed]
  by_cases h0 : now.count - b.lastRefillTimeMs ≤ 0
  · rw [if_pos h0, if_neg (by omega)]
  · rw [if_neg h0, tokensToAdd_standard h.rate (by omega) (by omega),
      updated_standard h (by omega) (by omega)]
    by_cases h10 : b.lastRefillTimeMs + 10 ≤ now.count
    · rw [if_pos (by omega), if_pos h10]
    · rw [if_neg (by omega), if_neg h10]

theorem standard_refill {b : TokenBucket} (h : Standard b) (now : SteadyMs) :
    Standard (b.refill now.count) := by
  have htokens := h.le
  have hnonneg := h.nonneg
  rw [refill_standard h]
  split
  · have hcredited : Standard { b with
        tokens := min 100 (b.tokens + (now.count - b.lastRefillTimeMs) / 10) } :=
      h.setTokens (by omega) (by omega)
    exact hcredited.setLast now.lo now.hi
  · exact h

theorem refill_last_le {b : TokenBucket} (h : Standard b) {now : SteadyMs}
    (hlast : b.lastRefillTimeMs ≤ now.count) : (b.refill now.count).lastRefillTimeMs ≤ now.count := by
  rw [refill_standard h]
  split
  · exact Int.le_refl _
  · exact hlast

/-- A call after its refill: a token if there is one. -/
theorem tryConsume_cases (b : TokenBucket) (now : Int) :
    (0 < (b.refill now).tokens
        ∧ b.tryConsume now = ({ b.refill now with tokens := (b.refill now).tokens - 1 }, true))
    ∨ ((b.refill now).tokens ≤ 0 ∧ b.tryConsume now = (b.refill now, false)) := by
  unfold tryConsume
  dsimp only
  by_cases h : (b.refill now).tokens > 0
  · exact .inl ⟨h, if_pos h⟩
  · exact .inr ⟨by omega, if_neg h⟩

theorem standard_tryConsume {b : TokenBucket} (h : Standard b) (now : SteadyMs) :
    Standard (b.tryConsume now.count).1 := by
  have hr := standard_refill h now
  rcases tryConsume_cases b now.count with ⟨hpos, heq⟩ | ⟨-, heq⟩ <;> rw [heq]
  · have hle := hr.le
    exact hr.setTokens (by omega) (by omega)
  · exact hr

theorem tryConsume_last (b : TokenBucket) (now : Int) :
    (b.tryConsume now).1.lastRefillTimeMs = (b.refill now).lastRefillTimeMs := by
  rcases tryConsume_cases b now with ⟨-, heq⟩ | ⟨-, heq⟩ <;> rw [heq]

/-! ## A window -/

/--
With `g` tokens granted since the time `s`: granted and present tokens are covered by a full
bucket and the time up to the last refill.
-/
def Covered (s : Int) (g : Nat) (b : TokenBucket) : Prop :=
  s - 9 ≤ b.lastRefillTimeMs ∧ g + b.tokens ≤ 100 + (b.lastRefillTimeMs - s + 9) / 10

theorem refill_covered {b : TokenBucket} (hb : Standard b) {s : Int} {now : SteadyMs}
    (hlast : b.lastRefillTimeMs ≤ now.count) (hs : s ≤ now.count) {g : Nat}
    (h : g = 0 ∨ Covered s g b) : Covered s g (b.refill now.count) := by
  have hle := hb.le
  rw [refill_standard hb]
  unfold Covered at h ⊢
  split
  · -- a credit: the reference time is now, and the floors of the parts are at most that of the sum
    dsimp only
    rcases h with rfl | ⟨h1, h2⟩ <;> constructor <;> omega
  · -- no credit: the last refill is less than ten milliseconds old
    rcases h with rfl | ⟨h1, h2⟩ <;> constructor <;> omega

/-- **A call keeps the balance of the window.** -/
theorem tryConsume_covered {b : TokenBucket} (hb : Standard b) {s : Int} {now : SteadyMs}
    (hlast : b.lastRefillTimeMs ≤ now.count) (hs : s ≤ now.count) {g : Nat}
    (h : g = 0 ∨ Covered s g b) :
    Covered s (g + (b.tryConsume now.count).2.toNat) (b.tryConsume now.count).1 := by
  obtain ⟨h1, h2⟩ := refill_covered hb hlast hs h
  rcases tryConsume_cases b now.count with ⟨-, heq⟩ | ⟨-, heq⟩ <;> rw [heq]
  · refine ⟨h1, ?_⟩
    simp only [Bool.toNat_true]
    omega
  · exact ⟨h1, h2⟩

/-! ## Runs of the limiter -/

/-- The limiter after a sequence of calls. -/
def limiterAfter (calls : List AcquireCall) : TokenBucketRateLimiter :=
  run tryAcquire TokenBucketRateLimiter.initial calls

/-- The clock does not go back, within a call and from one call to the next. -/
structure ClockOrder (calls : List AcquireCall) : Prop where
  within : ∀ c ∈ calls, c.createdMs.count ≤ c.nowMs.count
  between : calls.Pairwise fun c d => c.nowMs.count ≤ d.createdMs.count

theorem ClockOrder.init {calls : List AcquireCall} {c : AcquireCall} (h : ClockOrder (calls ++ [c])) :
    ClockOrder calls :=
  ⟨fun d hd => h.within d (List.mem_append_left _ hd), (List.pairwise_append.mp h.between).1⟩

theorem ClockOrder.le_last {calls : List AcquireCall} {c : AcquireCall} (h : ClockOrder (calls ++ [c])) :
    c.createdMs.count ≤ c.nowMs.count
      ∧ ∀ d ∈ calls, d.nowMs.count ≤ c.createdMs.count :=
  ⟨h.within c (by simp),
    fun d hd => (List.pairwise_append.mp h.between).2.2 d hd c (List.mem_singleton.mpr rfl)⟩

/-- No call reads a later time than the last one. -/
theorem ClockOrder.nowMs_le {calls : List AcquireCall} {c : AcquireCall}
    (h : ClockOrder (calls ++ [c])) : ∀ d ∈ calls ++ [c], d.nowMs.count ≤ c.nowMs.count := by
  intro d hd
  obtain ⟨hcreated, hearlier⟩ := h.le_last
  rcases List.mem_append.mp hd with hd | hd
  · exact Int.le_trans (hearlier d hd) hcreated
  · rw [List.mem_singleton.mp hd]

/-- The calls that `p` selects and that were granted. -/
def granted (p : AcquireCall → Bool) (calls : List AcquireCall) : Nat :=
  (trace tryAcquire TokenBucketRateLimiter.initial calls).countP fun t => p t.input && t.output

theorem granted_snoc (p : AcquireCall → Bool) (calls : List AcquireCall) (c : AcquireCall) :
    granted p (calls ++ [c])
      = granted p calls + (p c && ((limiterAfter calls).tryAcquire c).2).toNat := by
  unfold granted
  rw [trace_snoc, List.countP_append, List.countP_singleton]
  change _ + (if (p c && ((limiterAfter calls).tryAcquire c).2) = true then 1 else 0) = _
  cases p c && ((limiterAfter calls).tryAcquire c).2 <;> rfl

theorem granted_mono {p q : AcquireCall → Bool} (hpq : ∀ c, p c = true → q c = true)
    (calls : List AcquireCall) : granted p calls ≤ granted q calls := by
  refine List.countP_mono_left fun t _ h => ?_
  rw [Bool.and_eq_true] at h ⊢
  exact ⟨hpq _ h.1, h.2⟩

theorem granted_eq_zero {p : AcquireCall → Bool} {calls : List AcquireCall}
    (h : ∀ c ∈ calls, p c = false) : granted p calls = 0 := by
  refine List.countP_eq_zero.mpr fun t ht => ?_
  obtain ⟨pre, c, post, rfl, rfl⟩ := mem_trace _ ht
  change ¬(p c && _) = true
  rw [h c (by simp)]
  simp

/-- The buckets after a call: that of its key has been asked for a token. -/
theorem lookup_tryAcquire (l : TokenBucketRateLimiter) (c : AcquireCall) (key : String) :
    (l.tryAcquire c).1.buckets.lookup key
      = if key = bucketKey c.accountId c.endpoint then
          some ((l.findOrCreate key c.createdMs.count).tryConsume c.nowMs.count).1
        else l.buckets.lookup key := by
  unfold tryAcquire
  dsimp only
  split
  · rename_i h
    rw [h, Finmap.lookup_insert]
  · rename_i h
    rw [Finmap.lookup_insert_of_ne _ h]

/-- Every bucket is a standard one, and was last refilled when some call was made. -/
structure BucketsInv (calls : List AcquireCall) (l : TokenBucketRateLimiter) : Prop where
  standard : ∀ key b, l.buckets.lookup key = some b → Standard b
  stamped : ∀ key b, l.buckets.lookup key = some b →
    ∃ c ∈ calls, b.lastRefillTimeMs ≤ c.nowMs.count

/-- The bucket that a call in order finds or creates. -/
theorem BucketsInv.findOrCreate {calls : List AcquireCall} {l : TokenBucketRateLimiter}
    (h : BucketsInv calls l) {c : AcquireCall} (hc : ClockOrder (calls ++ [c])) (key : String) :
    Standard (l.findOrCreate key c.createdMs.count)
      ∧ (l.findOrCreate key c.createdMs.count).lastRefillTimeMs ≤ c.nowMs.count := by
  obtain ⟨hcreated, hearlier⟩ := hc.le_last
  unfold TokenBucketRateLimiter.findOrCreate
  cases hb : l.buckets.lookup key with
  | none => exact ⟨standard_create c.createdMs, hcreated⟩
  | some b =>
      obtain ⟨d, hd, hlast⟩ := h.stamped key b hb
      have hdc := hearlier d hd
      exact ⟨h.standard key b hb, by simp only [Option.getD_some]; omega⟩

theorem bucketsInv_tryAcquire {calls : List AcquireCall} {l : TokenBucketRateLimiter}
    (h : BucketsInv calls l) {c : AcquireCall} (hc : ClockOrder (calls ++ [c])) :
    BucketsInv (calls ++ [c]) (l.tryAcquire c).1 := by
  have key : ∀ k b, (l.tryAcquire c).1.buckets.lookup k = some b →
      Standard b ∧ ∃ d ∈ calls ++ [c], b.lastRefillTimeMs ≤ d.nowMs.count := by
    intro k b hb
    rw [lookup_tryAcquire] at hb
    split at hb
    · obtain ⟨hstd, hlast⟩ := h.findOrCreate hc k
      obtain rfl := Option.some.inj hb
      refine ⟨standard_tryConsume hstd c.nowMs, c, by simp, ?_⟩
      rw [tryConsume_last]
      exact refill_last_le hstd hlast
    · obtain ⟨d, hd, hlast⟩ := h.stamped k b hb
      exact ⟨h.standard k b hb, d, List.mem_append_left _ hd, hlast⟩
  exact ⟨fun k b hb => (key k b hb).1, fun k b hb => (key k b hb).2⟩

theorem bucketsInv_run : ∀ calls, ClockOrder calls → BucketsInv calls (limiterAfter calls) :=
  run_invariant tryAcquire (fun _ _ => ClockOrder.init)
    ⟨fun _ _ h => absurd h (by simp [TokenBucketRateLimiter.initial]),
      fun _ _ h => absurd h (by simp [TokenBucketRateLimiter.initial])⟩
    (fun _ _ hc h => bucketsInv_tryAcquire h hc)

/-! ## The bound -/

/-- A call on the bucket of `key`, at `s` or later. -/
def since (key : String) (s : Int) (c : AcquireCall) : Bool :=
  bucketKey c.accountId c.endpoint = key ∧ s ≤ c.nowMs.count

/-- A call for an account and endpoint between `s` and `t`. -/
def inWindow (accountId endpoint : String) (s t : Int) (c : AcquireCall) : Bool :=
  c.accountId = accountId ∧ c.endpoint = endpoint ∧ s ≤ c.nowMs.count ∧ c.nowMs.count ≤ t

/-- Nothing granted since `s`, or the bucket covers it. -/
def CoveredSince (key : String) (s : Int) (calls : List AcquireCall) (l : TokenBucketRateLimiter) : Prop :=
  granted (since key s) calls = 0
    ∨ ∃ b, l.buckets.lookup key = some b ∧ Covered s (granted (since key s) calls) b

theorem coveredSince_tryAcquire {key : String} {s : Int} {calls : List AcquireCall} {c : AcquireCall}
    (hc : ClockOrder (calls ++ [c])) (h : CoveredSince key s calls (limiterAfter calls)) :
    CoveredSince key s (calls ++ [c]) ((limiterAfter calls).tryAcquire c).1 := by
  unfold CoveredSince
  rw [granted_snoc, lookup_tryAcquire]
  by_cases hkey : key = bucketKey c.accountId c.endpoint
  · by_cases hs : s ≤ c.nowMs.count
    · right
      have hp : since key s c = true := by simp [since, hkey, hs]
      obtain ⟨hstd, hlast⟩ := (bucketsInv_run calls hc.init).findOrCreate hc key
      rw [if_pos hkey, hp, Bool.true_and]
      refine ⟨_, rfl, ?_⟩
      have hout : ((limiterAfter calls).tryAcquire c).2
          = (((limiterAfter calls).findOrCreate key c.createdMs.count).tryConsume c.nowMs.count).2 := by
        rw [hkey]; rfl
      rw [hout]
      refine tryConsume_covered hstd hlast hs ?_
      rcases h with h | ⟨b, hb, hw⟩
      · exact .inl h
      · right
        unfold findOrCreate
        rw [hb]
        exact hw
    · -- the window has not begun
      left
      have hp : ∀ d ∈ calls ++ [c], since key s d = false := by
        intro d hd
        have hdc := hc.nowMs_le d hd
        simp only [since, decide_eq_false_iff_not, not_and]
        intro _
        omega
      rw [← granted_snoc]
      exact granted_eq_zero hp
  · have hp : since key s c = false := by simp [since, Ne.symm hkey]
    rw [if_neg hkey, hp, Bool.false_and]
    exact h

theorem coveredSince_run (key : String) (s : Int) :
    ∀ calls, ClockOrder calls → CoveredSince key s calls (limiterAfter calls) :=
  run_invariant tryAcquire (fun _ _ => ClockOrder.init) (.inl rfl)
    (fun _ _ hc h => coveredSince_tryAcquire hc h)

/-- The bound at a call that is itself in the window. -/
theorem granted_le_of_last {key : String} {s t : Int} {calls : List AcquireCall} {c : AcquireCall}
    (hc : ClockOrder (calls ++ [c])) (hst : s ≤ t) (ht : c.nowMs.count ≤ t) :
    (granted (since key s) (calls ++ [c]) : Int) ≤ 100 + (t - s + 9) / 10 := by
  rcases coveredSince_run key s _ hc with h | ⟨b, hb, -, hw⟩
  · rw [h]
    omega
  · have hinv := bucketsInv_run _ hc
    have hnonneg := (hinv.standard key b hb).nonneg
    obtain ⟨d, hd, hlast⟩ := hinv.stamped key b hb
    have hdc := hc.nowMs_le d hd
    omega

theorem granted_inWindow_le (accountId endpoint : String) {s t : Int} (hst : s ≤ t) :
    ∀ calls, ClockOrder calls →
      (granted (inWindow accountId endpoint s t) calls : Int) ≤ 100 + (t - s + 9) / 10 := by
  -- on the last call: either it is in the window, or the bound is that of the calls before it
  intro calls
  induction calls using List.reverseRecOn with
  | nil =>
      intro _
      change ((0 : Nat) : Int) ≤ _
      omega
  | append_singleton calls c ih =>
      intro hc
      cases hp : inWindow accountId endpoint s t c with
      | true =>
          have ht : c.nowMs.count ≤ t := by
            simp only [inWindow, decide_eq_true_eq] at hp
            exact hp.2.2.2
          have hmono : ∀ d, inWindow accountId endpoint s t d = true →
              since (bucketKey accountId endpoint) s d = true := by
            intro d hd
            simp only [inWindow, since, decide_eq_true_eq] at hd ⊢
            exact ⟨by rw [hd.1, hd.2.1], hd.2.2.1⟩
          have hle := granted_mono hmono (calls ++ [c])
          have hlast : (granted (since (bucketKey accountId endpoint) s) (calls ++ [c]) : Int)
              ≤ 100 + (t - s + 9) / 10 := granted_le_of_last hc hst ht
          omega
      | false =>
          rw [granted_snoc, hp, Bool.false_and]
          exact ih hc.init

/--
**The rate limit.** After any calls in order, of any accounts, every bucket holds between 0
and 100 tokens, and what an account was granted for an endpoint in any window is at most a
full bucket and a token for each ten milliseconds, the window taken nine milliseconds longer.
-/
theorem rate_limit_window {calls : List AcquireCall} (h : ClockOrder calls)
    (accountId endpoint : String) :
    (∀ b, (limiterAfter calls).buckets.lookup (bucketKey accountId endpoint) = some b →
        0 ≤ b.tokens ∧ b.tokens ≤ 100)
    ∧ ∀ s t : Int, s ≤ t →
        (granted (inWindow accountId endpoint s t) calls : Int) ≤ 100 + (t - s + 9) / 10 :=
  ⟨fun b hb => ⟨((bucketsInv_run calls h).standard _ b hb).nonneg,
      ((bucketsInv_run calls h).standard _ b hb).le⟩,
    fun _ _ hst => granted_inWindow_le accountId endpoint hst calls h⟩

/-- The clock as the limiter starts. -/
def startMs : SteadyMs := ⟨0, by decide, by decide⟩

/-- The clock ten milliseconds later: the limiter's rate is one token in that time. -/
def tenMs : SteadyMs := ⟨10, by decide, by decide⟩

/-- One call more than there are tokens, all at once, and one when the next token is due. -/
def burst : List AcquireCall :=
  List.replicate 101 ⟨"X", "orders", startMs, startMs⟩
    ++ [⟨"X", "orders", tenMs, tenMs⟩]

theorem burst_clockOrder : ClockOrder burst := by
  constructor
  · intro c hc
    rcases List.mem_append.mp hc with hc | hc
    · rw [List.eq_of_mem_replicate hc]
    · rw [List.mem_singleton.mp hc]
  · refine List.pairwise_append.mpr
      ⟨List.pairwise_replicate.mpr (.inr (Int.le_refl _)), List.pairwise_singleton _ _, ?_⟩
    intro c hc d hd
    rw [List.eq_of_mem_replicate hc, List.mem_singleton.mp hd]
    decide

/-- The bound is reached. -/
theorem rate_limit_window_burst :
    ClockOrder burst ∧ granted (inWindow "X" "orders" 0 10) burst = 101
      ∧ (granted (inWindow "X" "orders" 0 10) burst : Int) ≤ 100 + (10 - 0 + 9) / 10 :=
  ⟨burst_clockOrder, by decide +kernel,
    (rate_limit_window burst_clockOrder "X" "orders").2 0 10 (by decide)⟩

end TitanX.Proof
