import TitanX.Proof.RefillCredit

/-!
# Threads that share a bucket

`tryConsume` as any number of threads run it, one atomic access at a time. A call that is
not interrupted does what `TokenBucket.tryConsume` says (`run_alone`).

The consumption is a compare-exchange, but the refill loads and stores, and its two stores
are separate. It is sound where nothing has moved in between: the bucket is at the store of
`tokens` as the refill loaded it, and no other refill has its second store still to do
(`undisturbed`). Then granted and present tokens are covered by the time up to the last
refill, counting a refill that has stored its tokens as done (`Covers`).

Otherwise two threads that load the same `lastRefillTimeMs` both credit the same ten
milliseconds (`overdraw`).
-/

namespace TitanX.Proof

open TitanX TokenBucket

variable {n : Nat}

/-! ## The steps of a thread -/

theorem stages_goto (m : Threads n) (i : Fin n) (st : TokenBucket.Stage) : (m.goto i st).stages i = st :=
  Function.update_self ..

theorem goto_goto (m : Threads n) (i : Fin n) (st st' : TokenBucket.Stage) :
    (m.goto i st).goto i st' = m.goto i st' := by
  unfold Threads.goto
  rw [Function.update_idem]

theorem setTokens_goto (m : Threads n) (i : Fin n) (st : TokenBucket.Stage) (tokens : Int) :
    (m.goto i st).setTokens tokens = (m.setTokens tokens).goto i st := rfl

theorem setLastRefillTimeMs_goto (m : Threads n) (i : Fin n) (st : TokenBucket.Stage) (last : Int) :
    (m.goto i st).setLastRefillTimeMs last = (m.setLastRefillTimeMs last).goto i st := rfl

section Advance

variable {m : Threads n} {i : Fin n} (spurious : Bool)

theorem advance_idle (hi : m.stages i = .idle) :
    m.advance i spurious = m.goto i (.loadLast m.clock.count) := by
  rw [Threads.advance, hi]

theorem advance_loadLast {now : Int} (hi : m.stages i = .loadLast now) (hc : Credits m.bucket now) :
    m.advance i spurious
      = m.goto i (.loadTokens now m.bucket.lastRefillTimeMs
          (m.bucket.tokensToAdd (wrap64 (now - m.bucket.lastRefillTimeMs)))) := by
  rw [Threads.advance, hi]
  dsimp only
  rw [if_neg (Int.not_le.mpr hc.1), if_pos hc.2]

/-- Either return of `refill` before its stores. -/
theorem advance_loadLast_returns {now : Int} (hi : m.stages i = .loadLast now)
    (hc : ¬Credits m.bucket now) : m.advance i spurious = m.goto i .loadCurrent := by
  rw [Threads.advance, hi]
  dsimp only
  split
  · rfl
  · rename_i h0
    rw [if_neg (fun h1 => hc ⟨Int.not_le.mp h0, h1⟩)]

theorem advance_loadTokens {now last add : Int} (hi : m.stages i = .loadTokens now last add) :
    m.advance i spurious = m.goto i (.storeTokens now last add m.bucket.tokens) := by
  rw [Threads.advance, hi]

theorem advance_storeTokens {now last add current : Int}
    (hi : m.stages i = .storeTokens now last add current) :
    m.advance i spurious
      = (m.setTokens (m.bucket.updated current add)).goto i (.storeLast now) := by
  rw [Threads.advance, hi]

theorem advance_storeLast {now : Int} (hi : m.stages i = .storeLast now) :
    m.advance i spurious = (m.setLastRefillTimeMs now).goto i .loadCurrent := by
  rw [Threads.advance, hi]

theorem advance_loadCurrent (hi : m.stages i = .loadCurrent) :
    m.advance i spurious = m.goto i (.loop m.bucket.tokens) := by
  rw [Threads.advance, hi]

end Advance

theorem advance_exchange {m : Threads n} {i : Fin n} (hi : m.stages i = .exchange m.bucket.tokens) :
    m.advance i false
      = { (m.setTokens (m.bucket.tokens - 1)).goto i .idle with successes := m.successes + 1 } := by
  rw [Threads.advance, hi]
  exact if_pos ⟨rfl, rfl⟩

theorem advance_exchange_fails {m : Threads n} {i : Fin n} {current : Int} {spurious : Bool}
    (hi : m.stages i = .exchange current) (h : ¬(m.bucket.tokens = current ∧ spurious = false)) :
    m.advance i spurious = m.goto i (.loop m.bucket.tokens) := by
  rw [Threads.advance, hi]
  exact if_neg h

/-! ## A call that is not interrupted -/

/-- `k` steps of one thread. -/
def alone (i : Fin n) (k : Nat) : List (TokenBucket.Action n) := List.replicate k (.step i false)

theorem run_alone_succ (m : Threads n) (i : Fin n) (k : Nat) :
    run Threads.step m (alone i (k + 1)) = run Threads.step (m.advance i false) (alone i k) := rfl

theorem run_alone_add (m : Threads n) (i : Fin n) (k l : Nat) :
    run Threads.step m (alone i (k + l))
      = run Threads.step (run Threads.step m (alone i k)) (alone i l) := by
  unfold alone
  rw [List.replicate_add, run_append]

/-- How many accesses the refill of a call makes, with the reading of the clock. -/
def refillSteps (b : TokenBucket) (now : Int) : Nat := if Credits b now then 5 else 2

/-- How many follow it. -/
def consumeSteps (b : TokenBucket) : Nat := if b.tokens > 0 then 2 else 1

theorem run_alone_refill {m : Threads n} {i : Fin n} (hi : m.stages i = .idle) :
    run Threads.step m (alone i (refillSteps m.bucket m.clock.count))
      = { m with
          bucket := m.bucket.refill m.clock.count
          stages := Function.update m.stages i .loadCurrent } := by
  unfold refillSteps
  rcases refill_cases m.bucket m.clock.count with ⟨hc, heq⟩ | ⟨hc, heq⟩
  · rw [if_pos hc, heq]
    rw [run_alone_succ, advance_idle _ hi,
      run_alone_succ, advance_loadLast _ (stages_goto ..) hc, goto_goto,
      run_alone_succ, advance_loadTokens _ (stages_goto ..), goto_goto,
      run_alone_succ, advance_storeTokens _ (stages_goto ..), setTokens_goto, goto_goto,
      run_alone_succ, advance_storeLast _ (stages_goto ..), setLastRefillTimeMs_goto, goto_goto]
    rfl
  · rw [if_neg hc, heq]
    rw [run_alone_succ, advance_idle _ hi,
      run_alone_succ, advance_loadLast_returns _ (stages_goto ..) hc, goto_goto]
    rfl

theorem run_alone_consume {m : Threads n} {i : Fin n} (hi : m.stages i = .loadCurrent) :
    run Threads.step m (alone i (consumeSteps m.bucket))
      = { m with
          bucket :=
            if m.bucket.tokens > 0 then { m.bucket with tokens := m.bucket.tokens - 1 } else m.bucket
          stages := Function.update m.stages i .idle
          successes := m.successes + (decide (m.bucket.tokens > 0)).toNat } := by
  unfold consumeSteps
  by_cases h : m.bucket.tokens > 0
  · rw [if_pos h, if_pos h, decide_eq_true h]
    have hloop : TokenBucket.Stage.loop m.bucket.tokens = .exchange m.bucket.tokens := if_pos h
    rw [run_alone_succ, advance_loadCurrent _ hi, hloop,
      run_alone_succ, advance_exchange (stages_goto ..), setTokens_goto, goto_goto]
    rfl
  · rw [if_neg h, if_neg h, decide_eq_false h]
    have hloop : TokenBucket.Stage.loop m.bucket.tokens = .idle := if_neg h
    rw [run_alone_succ, advance_loadCurrent _ hi, hloop]
    rfl

/-- **A call alone.** The accesses of one thread, with no other in between, are `tryConsume`. -/
theorem run_alone {m : Threads n} {i : Fin n} (hi : m.stages i = .idle) :
    run Threads.step m (alone i (refillSteps m.bucket m.clock.count
        + consumeSteps (m.bucket.refill m.clock.count)))
      = { m with
          bucket := (m.bucket.tryConsume m.clock.count).1
          successes := m.successes + (m.bucket.tryConsume m.clock.count).2.toNat } := by
  have hstages : Function.update (Function.update m.stages i .loadCurrent) i .idle = m.stages := by
    rw [Function.update_idem, ← hi, Function.update_eq_self]
  rw [run_alone_add, run_alone_refill hi, run_alone_consume (Function.update_self ..)]
  dsimp only
  rw [hstages]
  rcases tryConsume_cases m.bucket m.clock.count with ⟨hpos, heq⟩ | ⟨hpos, heq⟩ <;> rw [heq]
  · rw [if_pos hpos, decide_eq_true hpos]
  · rw [if_neg (by omega), decide_eq_false (by omega)]

/-! ## Refills that nothing disturbs -/

/-- The thread has stored its tokens and not yet its time. -/
def halfStored : TokenBucket.Stage → Bool
  | .storeLast _ => true
  | _ => false

/-- A store of `tokens` finds the bucket as its refill loaded it, and no other refill is
between its two stores. -/
def undisturbed (m : Threads n) : TokenBucket.Action n → Bool
  | .tick _ => true
  | .step i _ =>
      match m.stages i with
      | .storeTokens _ lastMs _ current =>
          m.bucket.tokens = current ∧ m.bucket.lastRefillTimeMs = lastMs
            ∧ ∀ j, halfStored (m.stages j) = false
      | _ => true

/-- What the local variables of a thread can be. -/
def StageOk (c clock : Int) : TokenBucket.Stage → Prop
  | .idle => True
  | .loadLast nowMs => c ≤ nowMs ∧ nowMs ≤ clock
  | .loadTokens nowMs lastMs tokensToAdd =>
      c ≤ lastMs ∧ lastMs + 10 ≤ nowMs ∧ nowMs ≤ clock ∧ tokensToAdd = (nowMs - lastMs) / 10
  | .storeTokens nowMs lastMs tokensToAdd _ =>
      c ≤ lastMs ∧ lastMs + 10 ≤ nowMs ∧ nowMs ≤ clock ∧ tokensToAdd = (nowMs - lastMs) / 10
  | .storeLast nowMs => c ≤ nowMs ∧ nowMs ≤ clock
  | .loadCurrent => True
  | .exchange current => 0 < current

theorem StageOk.mono {c clock clock' : Int} (h : clock ≤ clock') {st : TokenBucket.Stage}
    (hst : StageOk c clock st) : StageOk c clock' st := by
  cases st with
  | idle => trivial
  | loadLast now => exact ⟨hst.1, Int.le_trans hst.2 h⟩
  | loadTokens now last add => exact ⟨hst.1, hst.2.1, Int.le_trans hst.2.2.1 h, hst.2.2.2⟩
  | storeTokens now last add current => exact ⟨hst.1, hst.2.1, Int.le_trans hst.2.2.1 h, hst.2.2.2⟩
  | storeLast now => exact ⟨hst.1, Int.le_trans hst.2 h⟩
  | loadCurrent => trivial
  | exchange current => exact hst

/-- The time of the last refill, where one that has stored its tokens counts as done. -/
def Frontier (m : Threads n) (t : Int) : Prop :=
  ((∀ j, halfStored (m.stages j) = false) ∧ t = m.bucket.lastRefillTimeMs)
    ∨ ∃ i, m.stages i = .storeLast t ∧ ∀ j, halfStored (m.stages j) = true → j = i

/-- Granted and present tokens are covered by a full bucket and the time up to the last
refill. -/
def Covers (c : Int) (m : Threads n) : Prop :=
  ∃ t, Frontier m t ∧ c ≤ t ∧ t ≤ m.clock.count
    ∧ m.successes + m.bucket.tokens ≤ 100 + (t - c) / 10

structure ThreadsInv (c : Int) (m : Threads n) : Prop where
  standard : Standard m.bucket
  last_lo : c ≤ m.bucket.lastRefillTimeMs
  last_hi : m.bucket.lastRefillTimeMs ≤ m.clock.count
  stages : ∀ j, StageOk c m.clock.count (m.stages j)
  covers : Covers c m

theorem stageOk_update {c : Int} {m : Threads n} (h : ∀ j, StageOk c m.clock.count (m.stages j))
    {i : Fin n} {st : TokenBucket.Stage} (hst : StageOk c m.clock.count st) :
    ∀ j, StageOk c m.clock.count (Function.update m.stages i st j) :=
  (Function.forall_update_iff m.stages (fun _ => StageOk c m.clock.count)).mpr ⟨hst, fun j _ => h j⟩

/-- A step between stages that are not `storeLast` does not move the frontier. -/
theorem frontier_update {m : Threads n} {t : Int} (h : Frontier m t) {i : Fin n} {st : TokenBucket.Stage}
    (hold : halfStored (m.stages i) = false) (hnew : halfStored st = false) {m' : Threads n}
    (hstages : m'.stages = Function.update m.stages i st)
    (hlast : m'.bucket.lastRefillTimeMs = m.bucket.lastRefillTimeMs) : Frontier m' t := by
  have hhalf : ∀ j, halfStored (m'.stages j) = halfStored (m.stages j) := by
    rw [hstages]
    exact (Function.forall_update_iff m.stages (fun j st => halfStored st = halfStored (m.stages j))).mpr
      ⟨hnew.trans hold.symm, fun _ _ => rfl⟩
  rcases h with ⟨hnone, ht⟩ | ⟨k, hk, honly⟩
  · exact .inl ⟨fun j => by rw [hhalf]; exact hnone j, by rw [hlast]; exact ht⟩
  · refine .inr ⟨k, ?_, fun j hj => honly j (by rw [← hhalf]; exact hj)⟩
    have hki : k ≠ i := by
      rintro rfl
      rw [hk] at hold
      exact absurd hold (by simp [halfStored])
    rw [hstages, Function.update_of_ne hki, hk]

/-- A load: only the stage of the thread changes. -/
theorem threadsInv_goto {c : Int} {m : Threads n} (h : ThreadsInv c m) {i : Fin n} {st : TokenBucket.Stage}
    (hold : halfStored (m.stages i) = false) (hnew : halfStored st = false)
    (hst : StageOk c m.clock.count st) : ThreadsInv c (m.goto i st) := by
  obtain ⟨t, hfront, hct, hclock, hle⟩ := h.covers
  exact ⟨h.standard, h.last_lo, h.last_hi, stageOk_update h.stages hst,
    t, frontier_update hfront hold hnew rfl rfl, hct, hclock, hle⟩

theorem halfStored_loop (current : Int) : halfStored (TokenBucket.Stage.loop current) = false := by
  unfold TokenBucket.Stage.loop
  split <;> rfl

theorem stageOk_loop (c clock current : Int) : StageOk c clock (TokenBucket.Stage.loop current) := by
  unfold TokenBucket.Stage.loop
  split
  · assumption
  · trivial

/-- The load of `lastRefillTimeMs` and what `refill` concludes from it. -/
theorem threadsInv_loadLast {c : SteadyMs} {m : Threads n} (h : ThreadsInv c.count m) {i : Fin n}
    {now : Int} (hi : m.stages i = .loadLast now) (spurious : Bool) :
    ThreadsInv c.count (m.advance i spurious) := by
  have hold : halfStored (m.stages i) = false := by rw [hi]; rfl
  have hok : StageOk c.count m.clock.count (.loadLast now) := hi ▸ h.stages i
  obtain ⟨hcnow, hnow⟩ := hok
  have hlo := h.standard.lo
  have hhi := h.standard.hi
  have hclo := c.lo
  have hclock := m.clock.hi
  have helapsed : wrap64 (now - m.bucket.lastRefillTimeMs) = now - m.bucket.lastRefillTimeMs :=
    wrap64_of_lt (by omega) (by omega)
  by_cases hc : Credits m.bucket now
  · obtain ⟨h0, h1⟩ := id hc
    rw [helapsed] at h0 h1
    have hadd := tokensToAdd_standard h.standard.rate (Int.le_of_lt h0) (by omega)
    rw [hadd] at h1
    rw [advance_loadLast _ hi hc, helapsed, hadd]
    exact threadsInv_goto h hold rfl ⟨h.last_lo, by omega, hnow, rfl⟩
  · rw [advance_loadLast_returns _ hi hc]
    exact threadsInv_goto h hold rfl trivial

/-- The store of `tokens` by a refill that nothing has disturbed. -/
theorem threadsInv_storeTokens {c : SteadyMs} {m : Threads n} (h : ThreadsInv c.count m) {i : Fin n}
    {now last add current : Int} (hi : m.stages i = .storeTokens now last add current)
    (hcur : m.bucket.tokens = current) (hlast : m.bucket.lastRefillTimeMs = last)
    (hhalf : ∀ j, halfStored (m.stages j) = false) (spurious : Bool) :
    ThreadsInv c.count (m.advance i spurious) := by
  have hok : StageOk c.count m.clock.count (.storeTokens now last add current) := hi ▸ h.stages i
  obtain ⟨hclast, h10, hnow, rfl⟩ := hok
  subst hcur
  have hnonneg := h.standard.nonneg
  have hle := h.standard.le
  have hclo := c.lo
  have hclock := m.clock.hi
  rw [advance_storeTokens _ hi, updated_standard h.standard (by omega) (by omega)]
  refine ⟨h.standard.setTokens (by omega) (by omega), h.last_lo, h.last_hi,
    stageOk_update h.stages ⟨by omega, hnow⟩, now, ?_, by omega, hnow, ?_⟩
  · -- the refill itself is now the only one between its stores
    refine .inr ⟨i, stages_goto .., ?_⟩
    refine (Function.forall_update_iff m.stages (fun j st => halfStored st = true → j = i)).mpr
      ⟨fun _ => rfl, fun j _ hj => ?_⟩
    rw [hhalf j] at hj
    cases hj
  · -- what the bucket held was covered up to `last`, and the credit covers from there on
    obtain ⟨t, hfront, -, -, hcov⟩ := h.covers
    have ht : t = last := by
      rcases hfront with ⟨-, ht⟩ | ⟨k, hk, -⟩
      · rw [ht, hlast]
      · have hkp := hhalf k
        rw [hk] at hkp
        cases hkp
    change (m.successes : Int) + min 100 (m.bucket.tokens + (now - last) / 10)
      ≤ 100 + (now - c.count) / 10
    omega

/-- The store of `lastRefillTimeMs` does not move the frontier. -/
theorem threadsInv_storeLast {c : SteadyMs} {m : Threads n} (h : ThreadsInv c.count m) {i : Fin n}
    {now : Int} (hi : m.stages i = .storeLast now) (spurious : Bool) :
    ThreadsInv c.count (m.advance i spurious) := by
  have hok : StageOk c.count m.clock.count (.storeLast now) := hi ▸ h.stages i
  obtain ⟨hcnow, hnow⟩ := hok
  have hclo := c.lo
  have hclock := m.clock.hi
  obtain ⟨t, hfront, hct, htclock, hcov⟩ := h.covers
  have hself : halfStored (m.stages i) = true := by rw [hi]; rfl
  -- the frontier is this thread's own store
  have hown : (∀ j, halfStored (m.stages j) = true → j = i) ∧ t = now := by
    rcases hfront with ⟨hnone, -⟩ | ⟨k, hk, honly⟩
    · rw [hnone i] at hself
      cases hself
    · obtain rfl := honly i hself
      rw [hi] at hk
      exact ⟨honly, (TokenBucket.Stage.storeLast.inj hk).symm⟩
  obtain ⟨honly, ht⟩ := hown
  rw [advance_storeLast _ hi]
  refine ⟨h.standard.setLast (by omega) (by omega), hcnow, hnow,
    stageOk_update h.stages trivial, t, .inl ⟨?_, ht⟩, hct, htclock, hcov⟩
  refine (Function.forall_update_iff m.stages (fun _ st => halfStored st = false)).mpr
    ⟨rfl, fun j hj => ?_⟩
  exact Bool.eq_false_iff.mpr (fun hp => hj (honly j hp))

/-- A compare-exchange, successful or not. -/
theorem threadsInv_exchange {c : SteadyMs} {m : Threads n} (h : ThreadsInv c.count m) {i : Fin n}
    {current : Int} (hi : m.stages i = .exchange current) (spurious : Bool) :
    ThreadsInv c.count (m.advance i spurious) := by
  have hold : halfStored (m.stages i) = false := by rw [hi]; rfl
  have hpos : StageOk c.count m.clock.count (.exchange current) := hi ▸ h.stages i
  change 0 < current at hpos
  by_cases hx : m.bucket.tokens = current ∧ spurious = false
  · obtain ⟨rfl, rfl⟩ := hx
    obtain ⟨t, hfront, hct, htclock, hcov⟩ := h.covers
    have hle := h.standard.le
    rw [advance_exchange hi]
    refine ⟨h.standard.setTokens (by omega) (by omega), h.last_lo, h.last_hi,
      stageOk_update h.stages trivial, t, frontier_update hfront hold rfl rfl rfl, hct, htclock, ?_⟩
    change ((m.successes + 1 : Nat) : Int) + (m.bucket.tokens - 1) ≤ 100 + (t - c.count) / 10
    omega
  · rw [advance_exchange_fails hi hx]
    exact threadsInv_goto h hold (halfStored_loop _) (stageOk_loop _ _ _)

/-- **Preserved by every step.** -/
theorem threadsInv_step {c : SteadyMs} {m : Threads n} (h : ThreadsInv c.count m)
    {a : TokenBucket.Action n} (ha : undisturbed m a = true) :
    ThreadsInv c.count (m.step a).1 := by
  cases a with
  | tick time =>
      change ThreadsInv c.count (if m.clock.count ≤ time.count then { m with clock := time } else m)
      split
      · rename_i hle
        obtain ⟨t, hfront, hct, htclock, hcov⟩ := h.covers
        exact ⟨h.standard, h.last_lo, Int.le_trans h.last_hi hle, fun j => (h.stages j).mono hle,
          t, hfront, hct, Int.le_trans htclock hle, hcov⟩
      · exact h
  | step i spurious =>
      change ThreadsInv c.count (m.advance i spurious)
      cases hi : m.stages i with
      | idle =>
          rw [advance_idle _ hi]
          exact threadsInv_goto h (by rw [hi]; rfl) rfl
            ⟨Int.le_trans h.last_lo h.last_hi, Int.le_refl _⟩
      | loadLast now => exact threadsInv_loadLast h hi spurious
      | loadTokens now last add =>
          have hok : StageOk c.count m.clock.count (.loadTokens now last add) := hi ▸ h.stages i
          rw [advance_loadTokens _ hi]
          exact threadsInv_goto h (by rw [hi]; rfl) rfl hok
      | storeTokens now last add current =>
          simp only [undisturbed, hi] at ha
          obtain ⟨hcur, hlast, hhalf⟩ := of_decide_eq_true ha
          exact threadsInv_storeTokens h hi hcur hlast hhalf spurious
      | storeLast now => exact threadsInv_storeLast h hi spurious
      | loadCurrent =>
          rw [advance_loadCurrent _ hi]
          exact threadsInv_goto h (by rw [hi]; rfl) (halfStored_loop _) (stageOk_loop _ _ _)
      | exchange current => exact threadsInv_exchange h hi spurious

theorem threadsInv_initial (n : Nat) (c : SteadyMs) : ThreadsInv c.count (Threads.initial n c) := by
  refine ⟨standard_create c, Int.le_refl _, Int.le_refl _, fun _ => trivial, c.count,
    .inl ⟨fun _ => rfl, rfl⟩, Int.le_refl _, Int.le_refl _, ?_⟩
  change ((0 : Nat) : Int) + 100 ≤ 100 + (c.count - c.count) / 10
  omega

/--
**No overdraft without a disturbed refill.** Any number of threads and any interleaving of
their accesses in which each refill stores its tokens into the bucket it has loaded: what has
been granted is at most a full bucket and a token for each ten milliseconds since it was
created.
-/
theorem successes_le_of_undisturbed {c : SteadyMs} {actions : List (TokenBucket.Action n)}
    (h : ∀ t ∈ trace Threads.step (Threads.initial n c) actions, undisturbed t.before t.input = true) :
    ((run Threads.step (Threads.initial n c) actions).successes : Int)
      ≤ 100 + ((run Threads.step (Threads.initial n c) actions).clock.count - c.count) / 10 := by
  have hinv : ThreadsInv c.count (run Threads.step (Threads.initial n c) actions) :=
    trace_always Threads.step (P := ThreadsInv c.count)
      (Q := fun t => undisturbed t.before t.input = true) (threadsInv_initial n c)
      (fun _ _ hq hp => threadsInv_step hp hq) h
  have hnonneg := hinv.standard.nonneg
  obtain ⟨t, -, -, ht, hcov⟩ := hinv.covers
  omega

/-- Two threads read the clock; the second loads the time of the first one's refill, both load
the same number of tokens, and the second has to try again. -/
def refillOnce : List (TokenBucket.Action 2) :=
  .tick tenMs :: (alone 0 1 ++ alone 1 1 ++ alone 0 4 ++ alone 1 1
    ++ alone 0 1 ++ alone 1 1 ++ alone 0 1 ++ alone 1 2)

theorem successes_le_refillOnce :
    (∀ t ∈ trace Threads.step (Threads.initial 2 startMs) refillOnce,
        undisturbed t.before t.input = true)
    ∧ (run Threads.step (Threads.initial 2 startMs) refillOnce).successes = 2
    ∧ ((run Threads.step (Threads.initial 2 startMs) refillOnce).successes : Int)
      ≤ 100 + ((run Threads.step (Threads.initial 2 startMs) refillOnce).clock.count
        - 0) / 10 :=
  ⟨by decide, by decide, successes_le_of_undisturbed (by decide)⟩

/-! ## Two refills of the same time -/

/-- The bucket created at time 0, for two threads. -/
def fresh : Threads 2 := .initial 2 startMs

/-- Calls of the first thread, one after the other at the time of the creation. -/
theorem run_drain {k : Nat} (hk : k ≤ 100) :
    run Threads.step fresh (alone 0 (4 * k))
      = { fresh with bucket := ⟨100, 100, 100 - k, 0⟩, successes := k } := by
  induction k with
  | zero => rfl
  | succ k ih =>
      have hcredit : ¬Credits ⟨100, 100, 100 - k, 0⟩ fresh.clock.count := by
        rintro ⟨h0, -⟩
        change 0 < wrap64 (0 - 0) at h0
        exact absurd h0 (by decide)
      have hrefill : refill ⟨100, 100, 100 - k, 0⟩ fresh.clock.count = ⟨100, 100, 100 - k, 0⟩ := by
        rcases refill_cases ⟨100, 100, 100 - k, 0⟩ fresh.clock.count with ⟨hc, -⟩ | ⟨-, heq⟩
        · exact absurd hc hcredit
        · exact heq
      have hcall := run_alone (m := { fresh with bucket := ⟨100, 100, 100 - k, 0⟩, successes := k })
        (i := 0) rfl
      dsimp only at hcall
      unfold tryConsume refillSteps consumeSteps at hcall
      rw [hrefill, if_neg hcredit, if_pos (by simp only; omega), if_pos (by simp only; omega)] at hcall
      rw [Nat.mul_succ, run_alone_add, ih (by omega), hcall]
      simp only [Bool.toNat_true, Int.natCast_add, Int.sub_sub]
      rfl

/--
With the bucket empty and ten milliseconds gone, both threads load `lastRefillTimeMs` before
either stores it. Each credits one token and takes one.
-/
def doubleRefill : List (TokenBucket.Action 2) :=
  .tick tenMs :: (alone 0 2 ++ alone 1 2 ++ alone 0 5 ++ alone 1 5)

/-- 102 calls are granted where 101 are due. -/
theorem overdraw :
    (run Threads.step fresh (alone 0 400 ++ doubleRefill)).successes = 102
    ∧ (run Threads.step fresh (alone 0 400 ++ doubleRefill)).clock.count = 10
    ∧ ¬((102 : Nat) : Int) ≤ 100 + (10 - 0) / 10 := by
  rw [run_append, run_drain (k := 100) (Nat.le_refl _)]
  decide

end TitanX.Proof
