import TitanX.Proof.RateLimit
import Mathlib.Algebra.Order.Ring.Int

/-!
# The credit of a sequence of calls

Any bucket, with any capacity and rate. A refill rounds its credit down to whole tokens and
then counts from its own time, so that what was rounded away is lost: of the product
`elapsed * refillPerSecond` the remainder by 1000, and what the product itself lost if it left
the range of `int64_t` (`lossOf`). Which waiting times are credited is a matter of the rate and
of the times of the calls alone (`creditedWaits`).

What the refills add and what they throw away are together the time up to the last of them
(`credited_balance`), and the credit is what that time was worth exactly when the losses do not
add up to a token (`credited_eq_iff`). A client that polls every 19 milliseconds loses nine
tenths of a token each time.
-/

namespace TitanX.Proof

open TitanX TokenBucket

/-! ## One call -/

/-- The condition of `refill`. -/
def Credits (b : TokenBucket) (now : Int) : Prop :=
  0 < wrap64 (now - b.lastRefillTimeMs) ∧ 0 < b.tokensToAdd (wrap64 (now - b.lastRefillTimeMs))

instance (b : TokenBucket) (now : Int) : Decidable (Credits b now) := inferInstanceAs (Decidable (_ ∧ _))

theorem refill_cases (b : TokenBucket) (now : Int) :
    (Credits b now ∧ b.refill now = { b with
        tokens := b.updated b.tokens (b.tokensToAdd (wrap64 (now - b.lastRefillTimeMs)))
        lastRefillTimeMs := now })
    ∨ (¬Credits b now ∧ b.refill now = b) := by
  unfold refill Credits
  dsimp only
  by_cases h0 : wrap64 (now - b.lastRefillTimeMs) ≤ 0
  · exact .inr ⟨fun h => by omega, if_pos h0⟩
  · rw [if_neg h0]
    by_cases h1 : b.tokensToAdd (wrap64 (now - b.lastRefillTimeMs)) > 0
    · exact .inl ⟨⟨by omega, h1⟩, if_pos h1⟩
    · exact .inr ⟨fun h => h1 h.2, if_neg h1⟩

/-- The capacity takes the whole credit of a call. -/
def Uncapped (b : TokenBucket) (now : Int) : Prop :=
  Credits b now →
    b.tokens + b.tokensToAdd (wrap64 (now - b.lastRefillTimeMs)) ≤ b.capacity

instance (b : TokenBucket) (now : Int) : Decidable (Uncapped b now) := inferInstanceAs (Decidable (_ → _))

/-- The product `elapsed * refillPerSecond`, in thousandths of a token, as `int64_t` has it. -/
def worth64 (rate elapsed : Int) : Int := wrap64 (wrap64 elapsed * rate)

/-- The refill of a call at `now` credits what has passed since `last`: there is time, and it is
worth a token. -/
def IsCredited (rate last now : Int) : Prop :=
  0 < wrap64 (now - last) ∧ 1000 ≤ worth64 rate (now - last)

instance (rate last now : Int) : Decidable (IsCredited rate last now) :=
  inferInstanceAs (Decidable (_ ∧ _))

theorem credits_iff (b : TokenBucket) (now : Int) :
    Credits b now ↔ IsCredited b.refillPerSecond b.lastRefillTimeMs now := by
  unfold Credits IsCredited tokensToAdd
  rw [lt_div64_iff (by decide) (by decide)]
  rfl

/-- In thousandths of a token, what is lost of a time that is credited: the remainder of the
product, and all that overflows. -/
def lossOf (rate elapsed : Int) : Int :=
  worth64 rate elapsed % 1000 + (elapsed * rate - worth64 rate elapsed)

/-- Short of an overflow it is the remainder. -/
theorem lossOf_fits {rate elapsed : Int}
    (helapsed : 0 ≤ elapsed ∧ elapsed < 9223372036854775808)
    (hworth : 0 ≤ elapsed * rate ∧ elapsed * rate < 9223372036854775808) :
    lossOf rate elapsed = elapsed * rate % 1000 := by
  unfold lossOf worth64
  rw [wrap64_of_lt (x := elapsed) (by omega) helapsed.2,
    wrap64_of_lt (x := elapsed * rate) (by omega) hworth.2]
  omega

/-- The whole tokens and the remainder. -/
theorem tokensToAdd_worth {b : TokenBucket} {now : Int} (h : Credits b now) :
    1000 * b.tokensToAdd (wrap64 (now - b.lastRefillTimeMs))
        + worth64 b.refillPerSecond (now - b.lastRefillTimeMs) % 1000
      = worth64 b.refillPerSecond (now - b.lastRefillTimeMs) := by
  have hworth := ((credits_iff b now).mp h).2
  unfold tokensToAdd div64
  rw [← worth64, Int.tdiv_eq_ediv_of_nonneg (by omega)]
  omega

/-- What a call throws away. -/
def forfeit (b : TokenBucket) (now : Int) : Int :=
  if Credits b now then lossOf b.refillPerSecond (now - b.lastRefillTimeMs) else 0

/-- The values are those of `int64_t`, as far as a refill can leave its range. -/
structure Stored (b : TokenBucket) : Prop where
  tokens : -9223372036854775808 ≤ b.tokens
  capacity : b.capacity < 9223372036854775808

theorem refill_tokens {b : TokenBucket} (hb : Stored b) {now : Int} (hu : Uncapped b now) :
    (b.refill now).tokens - b.tokens
      = if Credits b now then b.tokensToAdd (wrap64 (now - b.lastRefillTimeMs)) else 0 := by
  have htokens := hb.tokens
  have hcap := hb.capacity
  rcases refill_cases b now with ⟨hc, heq⟩ | ⟨hc, heq⟩ <;> rw [heq]
  · have hfits := hu hc
    have hpos := hc.2
    rw [if_pos hc]
    unfold updated
    dsimp only
    rw [wrap64_of_lt (by omega) (by omega), Int.min_eq_right hfits]
    omega
  · rw [if_neg hc]
    omega

theorem refill_last (b : TokenBucket) (now : Int) :
    (b.refill now).lastRefillTimeMs = if Credits b now then now else b.lastRefillTimeMs := by
  rcases refill_cases b now with ⟨hc, heq⟩ | ⟨hc, heq⟩ <;> rw [heq]
  · rw [if_pos hc]
  · rw [if_neg hc]

/-- **One call.** What a refill adds and what it throws away is the time it counts. -/
theorem refill_balance {b : TokenBucket} (hb : Stored b) {now : Int} (hu : Uncapped b now) :
    1000 * ((b.refill now).tokens - b.tokens) + forfeit b now
      = ((b.refill now).lastRefillTimeMs - b.lastRefillTimeMs) * b.refillPerSecond := by
  rw [refill_tokens hb hu, refill_last]
  unfold forfeit
  by_cases hc : Credits b now
  · have hsplit := tokensToAdd_worth hc
    rw [if_pos hc, if_pos hc, if_pos hc]
    unfold lossOf
    omega
  · rw [if_neg hc, if_neg hc, if_neg hc, Int.sub_self, Int.zero_mul]
    rfl

/-- What a call leaves as it was. -/
theorem tryConsume_frame (b : TokenBucket) (now : Int) :
    (b.tryConsume now).1.refillPerSecond = b.refillPerSecond
      ∧ (b.tryConsume now).1.capacity = b.capacity := by
  rcases tryConsume_cases b now with ⟨-, heq⟩ | ⟨-, heq⟩ <;> rw [heq] <;>
    rcases refill_cases b now with ⟨-, hr⟩ | ⟨-, hr⟩ <;> rw [hr] <;> exact ⟨rfl, rfl⟩

theorem stored_tryConsume {b : TokenBucket} (hb : Stored b) {now : Int} (hu : Uncapped b now) :
    Stored (b.tryConsume now).1 := by
  have hcap := hb.capacity
  have htokens := hb.tokens
  have hadd := refill_tokens hb hu
  have hr : -9223372036854775808 ≤ (b.refill now).tokens := by
    split at hadd
    · rename_i hc
      have hpos := hc.2
      omega
    · omega
  have hframe := (tryConsume_frame b now).2
  rcases tryConsume_cases b now with ⟨hpos, heq⟩ | ⟨-, heq⟩ <;> rw [heq] at hframe ⊢
  · constructor
    · simp only
      omega
    · rw [hframe]
      exact hcap
  · exact ⟨hr, by rw [hframe]; exact hcap⟩

/-! ## A sequence of calls -/

/-- A call of `tryConsume` at a time of the clock. -/
def consumeAt (b : TokenBucket) (now : SteadyMs) : TokenBucket × Bool := b.tryConsume now.count

/-- The tokens that the refills of the calls have added. -/
def credited (b : TokenBucket) (times : List SteadyMs) : Int :=
  ((trace consumeAt b times).map fun t =>
    (t.before.refill t.input.count).tokens - t.before.tokens).sum

/-- The time of the last call that credited, or the last refill before the calls. -/
def lastCreditMs (b : TokenBucket) (times : List SteadyMs) : Int :=
  ((((trace consumeAt b times).filter fun t => Credits t.before t.input.count).getLast?).map
    fun t => t.input.count).getD b.lastRefillTimeMs

def forfeited (b : TokenBucket) (times : List SteadyMs) : Int :=
  ((trace consumeAt b times).map fun t => forfeit t.before t.input.count).sum

/-- **A sequence of calls.** The credits and the losses together are the time up to the last
refill. -/
theorem credited_balance {b : TokenBucket} (hb : Stored b) {times : List SteadyMs}
    (hu : ∀ t ∈ trace consumeAt b times, Uncapped t.before t.input.count) :
    1000 * credited b times + forfeited b times
      = ((run consumeAt b times).lastRefillTimeMs - b.lastRefillTimeMs) * b.refillPerSecond := by
  induction times generalizing b with
  | nil => simp [credited, forfeited]
  | cons now times ih =>
      have hnow : Uncapped b now.count :=
        hu ⟨b, now, (consumeAt b now).2, (consumeAt b now).1⟩ (List.mem_cons_self ..)
      have hone := refill_balance hb hnow
      have hrest := ih (stored_tryConsume hb hnow) (fun t ht => hu t (List.mem_cons_of_mem _ ht))
      rw [(tryConsume_frame b now.count).1, tryConsume_last] at hrest
      have hcredited : credited b (now :: times)
          = ((b.refill now.count).tokens - b.tokens) + credited (b.tryConsume now.count).1 times :=
        List.sum_cons
      have hforfeited : forfeited b (now :: times)
          = forfeit b now.count + forfeited (b.tryConsume now.count).1 times :=
        List.sum_cons
      have hrun : run consumeAt b (now :: times) = run consumeAt (b.tryConsume now.count).1 times := rfl
      rw [hcredited, hforfeited, hrun]
      rw [Int.sub_mul] at hone hrest ⊢
      omega

theorem run_lastRefillTimeMs (b : TokenBucket) (times : List SteadyMs) :
    (run consumeAt b times).lastRefillTimeMs = lastCreditMs b times := by
  induction times using List.reverseRecOn with
  | nil => rfl
  | append_singleton times now ih =>
      have hlast : (run consumeAt b (times ++ [now])).lastRefillTimeMs
          = ((run consumeAt b times).refill now.count).lastRefillTimeMs := by
        rw [run_snoc]
        exact tryConsume_last _ _
      rw [hlast, refill_last, ih]
      unfold lastCreditMs
      rw [trace_snoc, List.filter_append]
      by_cases hc : Credits (run consumeAt b times) now.count
      · rw [if_pos hc]
        simp [lastCall, hc]
      · rw [if_neg hc]
        simp [lastCall, hc]

/-- The waiting times that are credited, each from one crediting call (at first `last`) to the
next. The tokens have no part in it. -/
def creditedWaits (rate : Int) : Int → List SteadyMs → List Int
  | _, [] => []
  | last, now :: times =>
      if IsCredited rate last now.count then
        (now.count - last) :: creditedWaits rate now.count times
      else creditedWaits rate last times

/-- The losses of the waiting times. -/
def lossSum (rate last : Int) (times : List SteadyMs) : Int :=
  ((creditedWaits rate last times).map (lossOf rate)).sum

theorem forfeited_eq_lossSum (b : TokenBucket) (times : List SteadyMs) :
    forfeited b times = lossSum b.refillPerSecond b.lastRefillTimeMs times := by
  induction times generalizing b with
  | nil => rfl
  | cons now times ih =>
      have hforfeited : forfeited b (now :: times)
          = forfeit b now.count + forfeited (b.tryConsume now.count).1 times :=
        List.sum_cons
      rw [hforfeited, ih, (tryConsume_frame b now.count).1, tryConsume_last, refill_last]
      unfold forfeit lossSum
      rw [creditedWaits]
      by_cases hc : Credits b now.count
      · rw [if_pos hc, if_pos hc, if_pos ((credits_iff b now.count).mp hc), List.map_cons,
          List.sum_cons]
      · rw [if_neg hc, if_neg hc, if_neg (fun h => hc ((credits_iff b now.count).mpr h)), Int.zero_add]

/--
**What the time was worth.** While the capacity does not cut them, the credits of a sequence of
calls are `floor((ln - l0) * refillPerSecond / 1000)`, with `ln` the time of the last one,
exactly when the remainders of the waiting times it credits, and what their products lose to an
overflow, stay below one token.
-/
theorem credited_eq_iff {b : TokenBucket} (hb : Stored b) {times : List SteadyMs}
    (hu : ∀ t ∈ trace consumeAt b times, Uncapped t.before t.input.count) :
    credited b times = (lastCreditMs b times - b.lastRefillTimeMs) * b.refillPerSecond / 1000
      ↔ 0 ≤ lossSum b.refillPerSecond b.lastRefillTimeMs times
        ∧ lossSum b.refillPerSecond b.lastRefillTimeMs times < 1000 := by
  have h := credited_balance hb hu
  rw [run_lastRefillTimeMs, forfeited_eq_lossSum] at h
  rw [← h]
  omega

theorem creditedWaits_range {rate : Int} : ∀ {times : List SteadyMs} {last : Int},
    -9223372036854 ≤ last → last ≤ 9223372036854 →
    ∀ wait ∈ creditedWaits rate last times, 0 < wait ∧ wait ≤ 18446744073708
  | [], _, _, _, _, hwait => by cases hwait
  | now :: times, last, hlo, hhi, wait, hwait => by
      have hnlo := now.lo
      have hnhi := now.hi
      rw [creditedWaits] at hwait
      split at hwait
      · rename_i hcredited
        have hpos := hcredited.1
        rw [wrap64_of_lt (by omega) (by omega)] at hpos
        rcases List.mem_cons.mp hwait with rfl | hrest
        · omega
        · exact creditedWaits_range hnlo hnhi wait hrest
      · exact creditedWaits_range hlo hhi wait hwait

/-- **At the limiter's rate**, where nothing overflows, what is lost are the remainders. -/
theorem lossSum_standard {last : Int} (hlo : -9223372036854 ≤ last) (hhi : last ≤ 9223372036854)
    (times : List SteadyMs) :
    lossSum 100 last times = ((creditedWaits 100 last times).map fun wait => wait * 100 % 1000).sum := by
  unfold lossSum
  refine congrArg List.sum (List.map_congr_left fun wait hwait => ?_)
  obtain ⟨hpos, hle⟩ := creditedWaits_range hlo hhi wait hwait
  exact lossOf_fits (by omega) (by omega)

/-- An empty bucket of the limiter. -/
def emptied : TokenBucket := ⟨100, 100, 0, 0⟩

/-- Calls every ten milliseconds. -/
def everyTen : List SteadyMs := [tenMs, ⟨20, by decide, by decide⟩]

theorem credited_eq_iff_everyTen :
    (credited emptied everyTen = (20 - 0) * 100 / 1000
      ↔ 0 ≤ lossSum 100 0 everyTen ∧ lossSum 100 0 everyTen < 1000)
    ∧ creditedWaits 100 0 everyTen = [10, 10] ∧ lossSum 100 0 everyTen = 0 :=
  ⟨credited_eq_iff ⟨by decide, by decide⟩ (by decide), by decide, by decide⟩

/-- Calls every 19 milliseconds. -/
def everyNineteen : List SteadyMs := [⟨19, by decide, by decide⟩, ⟨38, by decide, by decide⟩]

/-- 38 milliseconds are worth three tokens and credit two, far below the capacity. -/
theorem credited_everyNineteen :
    (∀ t ∈ trace consumeAt emptied everyNineteen,
        Credits t.before t.input.count
          ∧ (t.before.refill t.input.count).tokens < t.before.capacity)
    ∧ credited emptied everyNineteen = 2
    ∧ (lastCreditMs emptied everyNineteen - emptied.lastRefillTimeMs) * emptied.refillPerSecond / 1000
        = 3 := by
  decide

end TitanX.Proof
