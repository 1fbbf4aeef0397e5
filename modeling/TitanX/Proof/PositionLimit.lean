import TitanX.Proof.Ledger

/-!
# Recorded positions and the limit

The position check projects an order's account to where it stands when the whole order has
traded, and the fills then move it there trade by trade. As a `match` executes no more
than the order's quantity, and all of it in the order's direction, every position on the
way is between the one that was checked and the projected one: the recorded positions are
within the limit after every fill (`recorded_within_limit`).

The check compares the absolute value of the projection, and the least `int64_t` has none.
A sell that is projected there is let through, and sells whatever the book has
(`recorded_beyond_limit`).
-/

namespace TitanX.Proof

open TitanX

/-! ## Runs of the lock-free engine -/

/-- The check of the lock-free engine refuses or approves. -/
theorem freeCheck_cases (r : RiskEngine) (order : Order) :
    ((LockFree.checkPreTrade r order).1.approved = false
        ∧ Refusal r (LockFree.checkPreTrade r order).2)
      ∨ ((LockFree.checkPreTrade r order).1.approved = true
        ∧ Approval r order (LockFree.checkPreTrade r order).2
        ∧ r.circuitBreaker.data.haltFlag order.symbol = false ∧ Passes r order) := by
  rcases checkOrder_cases { r with totalChecked := r.totalChecked + 1 }
      (r.circuitBreaker.data.haltFlag order.symbol) order with
    ⟨happ, href, -⟩ | ⟨happ, hap, hflag, hpass⟩
  · exact Or.inl ⟨happ, ⟨href.same.1, href.same.2, href.same.3⟩, href.seen, href.active⟩
  · exact Or.inr ⟨happ,
      ⟨⟨hap.same.1, hap.same.2, hap.same.3⟩, hap.fresh, hap.seen, hap.opposite, hap.active⟩, hflag,
      ⟨hpass.1, hpass.2, hpass.3, hpass.4, hpass.5⟩⟩

/-- The lock-free engine after an admitted order. -/
def freeAfterMatch (e : MatchingEngine) (env : SubmitEnv) (o : Order) : MatchingEngine :=
  { books := e.books.insert o.symbol ((e.bookOf o.symbol).matchIncoming env.amb o).2
    locks := insert o.symbol e.locks
    stopOrders := e.stopOrders
    halted := e.halted
    riskEngine := LockFree.deliver env.clock 0 ((e.bookOf o.symbol).matchIncoming env.amb o).1
      e.riskEngine }

theorem freeProcess_engine (e : MatchingEngine) (h : e.stopOrders = ∅) (env : SubmitEnv)
    (o : Order) : (LockFree.process e env o).1 = freeAfterMatch e env o := by
  unfold LockFree.process
  dsimp only
  rw [matched_eq]
  dsimp only
  split
  · rfl
  · exact congrArg Prod.snd (checkStopTriggers_none (e := freeAfterMatch e env o) h env o.symbol)

/-- The order gets past the kill switch and the risk check. -/
def freeAdmits (e : MatchingEngine) (o : Order) : Prop :=
  e.halted = false ∧ (LockFree.checkPreTrade e.riskEngine o).1.approved = true

instance (e : MatchingEngine) (o : Order) : Decidable (freeAdmits e o) :=
  inferInstanceAs (Decidable (_ ∧ _))

/-- What a `submit` of the lock-free engine can do. -/
theorem freeSubmit_cases {e : MatchingEngine} (hstops : e.stopOrders = ∅) (env : SubmitEnv)
    (o : Order) :
    (¬ freeAdmits e o ∧ ∃ r', Refusal e.riskEngine r'
        ∧ (LockFree.submit e env o).1 = { e with riskEngine := r' })
      ∨ (freeAdmits e o ∧ Approval e.riskEngine o (LockFree.checkPreTrade e.riskEngine o).2
        ∧ e.riskEngine.circuitBreaker.data.haltFlag o.symbol = false ∧ Passes e.riskEngine o
        ∧ (LockFree.submit e env o).1
          = freeAfterMatch { e with riskEngine := (LockFree.checkPreTrade e.riskEngine o).2 } env o) := by
  unfold LockFree.submit
  split
  · rename_i hh
    refine Or.inl ⟨fun ha => absurd (hh.symm.trans ha.1) (by decide), e.riskEngine,
      ⟨⟨rfl, rfl, rfl⟩, Finset.Subset.refl _, fun _ _ => rfl⟩, rfl⟩
  · rename_i hh
    dsimp only
    rcases freeCheck_cases e.riskEngine o with ⟨happ, href⟩ | ⟨happ, hap, hflag, hpass⟩
    · rw [if_neg (by rw [happ]; decide)]
      exact Or.inl ⟨fun ha => absurd (happ.symm.trans ha.2) (by decide), _, href, rfl⟩
    · rw [if_pos happ]
      refine Or.inr ⟨⟨Bool.eq_false_iff.mpr hh, happ⟩, hap, hflag, hpass, ?_⟩
      exact freeProcess_engine { e with riskEngine := (LockFree.checkPreTrade e.riskEngine o).2 }
        hstops env o

theorem freeDeliver_ids (clock : Nat → Int) : ∀ (fills : List Fill) (n : Nat) (r : RiskEngine),
    (LockFree.deliver clock n fills r).seenOrderIds = r.seenOrderIds
      ∧ ∀ s a, (LockFree.deliver clock n fills r).activeOrders s a = r.activeOrders s a
  | [], _, _ => ⟨rfl, fun _ _ => rfl⟩
  | f :: fills, n, r => by
      obtain ⟨hseen, hactive⟩ := freeDeliver_ids clock fills (n + 1)
        (LockFree.fillConsumer r (clock n) f.trade)
      exact ⟨hseen, fun s a => (hactive s a).trans (by cases s <;> rfl)⟩

/-- The engine's invariant has nothing to do with the mutex. -/
theorem engineInv_freeStep {e : MatchingEngine} (h : EngineInv e []) (op : EngineOp) :
    EngineInv (LockFree.step e op).1 [] := by
  cases op with
  | submit env o =>
      show EngineInv (LockFree.submit e env o).1 []
      rcases freeSubmit_cases h.stops env o with ⟨-, r', href, heq⟩ | ⟨-, hap, -, -, heq⟩
      · rw [heq]; exact h.refuse href
      · rw [heq]
        have hfl := h.approve hap
        obtain ⟨hseen, hactive⟩ := freeDeliver_ids env.clock
          ((e.bookOf o.symbol).matchIncoming env.amb o).1 0
          (LockFree.checkPreTrade e.riskEngine o).2
        exact ((hfl.match env.amb).setLocks (insert o.symbol e.locks)).setRisk
          (by rw [← hseen]; exact Finset.Subset.refl _) hactive
  | cancel symbol orderId => exact h.cancel symbol orderId
  | halt => exact h.setHalted true
  | resume => exact h.setHalted false

/-! ## Positions during a call -/

/-- The risk engine after each `recordFill` of the delivery loop. -/
def recordings (clock : Nat → Int) : Nat → List Fill → RiskEngine → List RiskEngine
  | _, [], _ => []
  | n, f :: fills, r =>
      let r' := r.recordFill f.trade.aggressorAccountId f.trade.symbol f.trade.aggressorSide
        f.trade.quantity
      r' :: recordings clock (n + 1) fills
        (LockFree.updateLastTradePrice r' (clock n) f.trade.symbol f.trade.price)

/-- The same for a call on the engine. -/
def recordedBy (e : MatchingEngine) : EngineOp → List RiskEngine
  | .submit env o =>
      if freeAdmits e o then
        let r := (LockFree.checkPreTrade e.riskEngine o).2
        recordings env.clock 0 (LockFree.matched { e with riskEngine := r } env o).1 r
      else []
  | _ => []

/-- Every recorded position is within the limit. -/
def InLimit (r : RiskEngine) : Prop :=
  ∀ account symbol, -10000 ≤ r.getNetPosition account symbol
    ∧ r.getNetPosition account symbol ≤ 10000

theorem SameBooks.inLimit {r r' : RiskEngine} (h : SameBooks r r') (hr : InLimit r) : InLimit r' := by
  intro account symbol
  rw [h.getNetPosition]; exact hr account symbol

/-- A fill on the way to a position within the limit. -/
theorem inLimit_recordFill {r : RiskEngine} (hr : InLimit r) {account symbol : String}
    {side : OrderSide} {quantity : Int} (hpos : 0 < quantity)
    (hlo : -10000 ≤ r.getNetPosition account symbol + signed side quantity)
    (hhi : r.getNetPosition account symbol + signed side quantity ≤ 10000) :
    (r.recordFill account symbol side quantity).getNetPosition account symbol
        = r.getNetPosition account symbol + signed side quantity
      ∧ InLimit (r.recordFill account symbol side quantity) := by
  have hbound := hr account symbol
  have hdelta : RiskEngine.fillDelta side quantity = signed side quantity := by
    cases side with
    | buy => rfl
    | sell =>
        simp only [signed] at hlo hhi ⊢
        exact (if_neg (by decide)).trans (wrap64_of_lt (by omega) (by omega))
  have hmoved : (r.recordFill account symbol side quantity).getNetPosition account symbol
      = r.getNetPosition account symbol + signed side quantity := by
    rw [getNetPosition_recordFill, if_pos ⟨rfl, rfl⟩, hdelta]
    exact wrap64_of_lt (by omega) (by omega)
  refine ⟨hmoved, fun a s => ?_⟩
  by_cases hkey : a = account ∧ s = symbol
  · rw [hkey.1, hkey.2, hmoved]; exact ⟨hlo, hhi⟩
  · rw [getNetPosition_recordFill, if_neg hkey]; exact hr a s

/-- Between no fill and all of them. -/
theorem signed_between {side : OrderSide} {p k n lo hi : Int} (hk : 0 ≤ k) (hkn : k ≤ n)
    (hp : lo ≤ p ∧ p ≤ hi) (hend : lo ≤ p + signed side n ∧ p + signed side n ≤ hi) :
    lo ≤ p + signed side k ∧ p + signed side k ≤ hi := by
  cases side with
  | buy => simp only [signed] at hend ⊢; omega
  | sell => simp only [signed] at hend ⊢; omega

theorem signed_add (side : OrderSide) (k n : Int) :
    signed side (k + n) = signed side k + signed side n := by
  cases side with
  | buy => rfl
  | sell => exact Int.neg_add

/-- **The loop stays within the limit** if the position it ends in is. The induction is on
the fills still to be delivered, all of which move one position in one direction. -/
theorem inLimit_recordings {o : Order} (clock : Nat → Int) :
    ∀ (fills : List Fill) (n : Nat) (r : RiskEngine), CallBy o fills → InLimit r →
      (-10000 ≤ r.getNetPosition o.accountId o.symbol + signed o.side (filled fills)
        ∧ r.getNetPosition o.accountId o.symbol + signed o.side (filled fills) ≤ 10000) →
      (∀ r' ∈ recordings clock n fills r, InLimit r') ∧ InLimit (LockFree.deliver clock n fills r)
  | [], _, _, _, hr, _ => ⟨fun _ h => absurd h List.not_mem_nil, hr⟩
  | f :: fills, n, r, hcall, hr, hend => by
      obtain ⟨hacc, hside, hsym, hpos⟩ := hcall f (List.mem_cons_self ..)
      have hrest : CallBy o fills := fun x hx => hcall x (List.mem_cons_of_mem _ hx)
      have hnonneg : 0 ≤ filled fills := filled_nonneg (fun x hx => (hrest x hx).2.2.2)
      have hsum : filled (f :: fills) = f.trade.quantity + filled fills := by
        simp [filled]
      obtain ⟨hlo, hhi⟩ := signed_between (k := f.trade.quantity) (by omega) (by omega)
        (hr o.accountId o.symbol) hend
      obtain ⟨hmoved, hin⟩ := inLimit_recordFill hr hpos hlo hhi
      rw [hsum, signed_add, ← Int.add_assoc, ← hmoved] at hend
      rw [recordings, LockFree.deliver, LockFree.fillConsumer, hacc, hsym, hside]
      obtain ⟨hlater, hlast⟩ := inLimit_recordings clock fills (n + 1)
        (LockFree.updateLastTradePrice
          (r.recordFill o.accountId o.symbol o.side f.trade.quantity) (clock n) o.symbol
          f.trade.price) hrest hin hend
      refine ⟨fun r' h => ?_, hlast⟩
      rcases List.mem_cons.mp h with rfl | h
      · exact hin
      · exact hlater r' h

/-! ## The check -/

theorem match_filled_le {b : OrderBook} (h : RepInv b) (amb : Ambient) (o : Order) :
    filled (b.matchIncoming amb o).1 ≤ max o.remainingQuantity 0 :=
  matchIncoming_rule (P := fun fills _ => filled fills ≤ max o.remainingQuantity 0)
    (Q := fun fills _ => filled fills ≤ max o.remainingQuantity 0) (by simp [filled])
    (fun crosses => by
      have hsweep := sweep_filled h amb o crosses
      omega)
    (fun _ _ hP => hP) (fun _ _ hP => hP) (fun _ _ hQ => hQ)

/-- Where an order takes the position of its account if all of it trades. -/
def projection (e : MatchingEngine) (o : Order) : Int :=
  e.riskEngine.getNetPosition o.accountId o.symbol + signed o.side o.quantity

/-- The call gets as far as the position check. -/
def reachesCheck (e : MatchingEngine) : EngineOp → Bool
  | .submit _ o => e.halted = false ∧ e.riskEngine.circuitBreaker.data.haltFlag o.symbol = false
      ∧ o.orderId ∉ e.riskEngine.seenOrderIds ∧ RiskEngine.notionalExceeded o = false
  | _ => false

/-- The projection of a call's order is an `int64_t`. -/
def representable (e : MatchingEngine) : EngineOp → Bool
  | .submit _ o => -9223372036854775808 ≤ projection e o ∧ projection e o < 9223372036854775808
  | _ => true

/-- A sell that is projected to the least `int64_t`. -/
def leastProjection (e : MatchingEngine) : EngineOp → Bool
  | .submit _ o => o.side = .sell ∧ projection e o = -9223372036854775808
  | _ => false

theorem projectedPosition_eq (netPos : Int) (o : Order) :
    RiskEngine.projectedPosition netPos o = wrap64 (netPos + signed o.side o.quantity) := by
  unfold RiskEngine.projectedPosition
  cases h : o.side <;> simp [Order.isBuy, h, signed, Int.sub_eq_add_neg]

/-- A number whose absolute value is in `int64_t`. -/
theorem le_of_abs64_le {x : Int} (hlo : -9223372036854775808 < x) (hhi : x < 9223372036854775808)
    (h : abs64 x ≤ 10000) : -10000 ≤ x ∧ x ≤ 10000 := by
  have habs : abs64 x = x.natAbs := wrap64_of_lt (by omega) (by omega)
  omega

/-- What the check lets through ends within the limit, however much of it trades. -/
theorem inLimit_projected {e : MatchingEngine} {env : SubmitEnv} {o : Order}
    (hin : InLimit e.riskEngine) (hcheck : e.riskEngine.positionExceeded o = false)
    (hrep : representable e (.submit env o) = true)
    (hleast : leastProjection e (.submit env o) = false) {n : Int} (hn : 0 ≤ n)
    (hle : n ≤ max o.quantity 0) :
    -10000 ≤ e.riskEngine.getNetPosition o.accountId o.symbol + signed o.side n
      ∧ e.riskEngine.getNetPosition o.accountId o.symbol + signed o.side n ≤ 10000 := by
  have hstart := hin o.accountId o.symbol
  have hfits : -9223372036854775808 ≤ projection e o ∧ projection e o < 9223372036854775808 := by
    simpa [representable] using hrep
  have hnot : o.side = .sell → projection e o ≠ -9223372036854775808 := by
    simpa [leastProjection] using hleast
  have hcompare : abs64 (projection e o) ≤ 10000 := by
    have hproj : RiskEngine.projectedPosition (e.riskEngine.getNetPosition o.accountId o.symbol) o
        = projection e o := (projectedPosition_eq _ o).trans (wrap64_of_lt hfits.1 hfits.2)
    unfold RiskEngine.positionExceeded RiskEngine.maxPositionShares at hcheck
    rw [hproj] at hcheck
    simpa using hcheck
  by_cases hq : o.quantity ≤ 0
  · -- nothing trades
    obtain rfl : n = 0 := by omega
    cases o.side <;> simpa [signed] using hstart
  · have hend : -10000 ≤ projection e o ∧ projection e o ≤ 10000 := by
      refine le_of_abs64_le ?_ hfits.2 hcompare
      cases hside : o.side with
      | buy =>
          -- a buy starts within the limit and goes up
          simp only [projection, hside, signed] at hfits ⊢
          omega
      | sell =>
          have hne := hnot hside
          omega
    exact signed_between hn (by omega) hstart hend

/-- **One call keeps the recorded positions within the limit**, after every fill. -/
theorem inLimit_step {e : MatchingEngine} (hinv : EngineInv e []) (hin : InLimit e.riskEngine)
    {op : EngineOp} (hcreated : ∀ env o, op = .submit env o → o.Created)
    (hcomp : reachesCheck e op = true → representable e op = true ∧ leastProjection e op = false) :
    (∀ r ∈ recordedBy e op, InLimit r) ∧ InLimit (LockFree.step e op).1.riskEngine := by
  cases op with
  | submit env o =>
      show (∀ r ∈ recordedBy e (.submit env o), InLimit r)
        ∧ InLimit (LockFree.submit e env o).1.riskEngine
      rw [recordedBy]
      rcases freeSubmit_cases hinv.stops env o with
        ⟨hnot, r', href, heq⟩ | ⟨hadm, hap, hflag, hpass, heq⟩
      · rw [if_neg hnot, heq]
        exact ⟨fun _ h => absurd h List.not_mem_nil, href.same.inLimit hin⟩
      · rw [if_pos hadm, heq]
        dsimp only
        rw [matched_eq]
        have hreaches : reachesCheck e (.submit env o) = true := by
          simp only [reachesCheck, decide_eq_true_eq]
          exact ⟨hadm.1, hflag, hpass.fresh, hpass.notional⟩
        obtain ⟨hrep, hleast⟩ := hcomp hreaches
        have hbook := (hinv.bookOf o.symbol).rep
        have hcall := match_callBy hbook env.amb o
        have hle := match_filled_le hbook env.amb o
        rw [(hcreated env o rfl).remainingQuantity_eq] at hle
        have hend := inLimit_projected hin hpass.position hrep hleast
          (filled_nonneg (fun f hf => (hcall f hf).2.2.2)) hle
        rw [← hap.same.getNetPosition] at hend
        exact inLimit_recordings env.clock _ 0 _ hcall (hap.same.inLimit hin) hend
  | cancel symbol orderId =>
      refine ⟨fun _ h => absurd h List.not_mem_nil, ?_⟩
      show InLimit (e.cancel symbol orderId).2.riskEngine
      rw [riskEngine_cancel]; exact hin
  | halt => exact ⟨fun _ h => absurd h List.not_mem_nil, hin⟩
  | resume => exact ⟨fun _ h => absurd h List.not_mem_nil, hin⟩

/-! ## Every run -/

/-- The orders of a run are made by `Order.create`. -/
def CreatedOps (ops : List EngineOp) : Prop := ∀ env o, EngineOp.submit env o ∈ ops → o.Created

/-- The engine after a run, mutexes aside. -/
def freeAfter (ops : List EngineOp) : MatchingEngine := run LockFree.step MatchingEngine.initial ops

def freeTrace (ops : List EngineOp) : List (Transition MatchingEngine EngineOp EngineOut) :=
  trace LockFree.step MatchingEngine.initial ops

/-- If the call gets as far as the position check, its projection does not overflow, and is not
the least `int64_t` for a sell. -/
def Comparable (t : Transition MatchingEngine EngineOp EngineOut) : Prop :=
  reachesCheck t.before t.input = true →
    representable t.before t.input = true ∧ leastProjection t.before t.input = false

structure LimitInv (e : MatchingEngine) : Prop where
  engine : EngineInv e []
  positions : InLimit e.riskEngine

theorem limitInv_initial : LimitInv MatchingEngine.initial where
  engine := engineInv_initial
  positions := by
    intro account symbol
    have hzero : MatchingEngine.initial.riskEngine.getNetPosition account symbol = 0 := rfl
    omega

theorem CreatedOps.of_append {ops ops' : List EngineOp} (h : CreatedOps (ops ++ ops')) :
    CreatedOps ops := fun env o ho => h env o (List.mem_append_left _ ho)

theorem CreatedOps.last {ops : List EngineOp} {op : EngineOp} (h : CreatedOps (ops ++ [op])) :
    ∀ env o, op = .submit env o → o.Created :=
  fun env o heq => h env o (List.mem_append_right _ (by rw [heq]; exact List.mem_singleton.mpr rfl))

theorem limitInv_reachable {ops : List EngineOp} (hcreated : CreatedOps ops)
    (h : ∀ t ∈ freeTrace ops, Comparable t) : LimitInv (freeAfter ops) :=
  trace_invariant LockFree.step (V := CreatedOps) (Q := Comparable) (P := LimitInv)
    (fun _ _ hok => hok.of_append) limitInv_initial
    (fun _ _ hok hcomp hp => ⟨engineInv_freeStep hp.engine _,
      (inLimit_step hp.engine hp.positions hok.last hcomp).2⟩) ops hcreated h

/--
**The recorded positions are within the limit after every fill**, also in the middle of a
sweep, in every run in which no projection that is checked overflows or is the least `int64_t`.
-/
theorem recorded_within_limit (ops : List EngineOp) (hcreated : CreatedOps ops)
    (h : ∀ t ∈ freeTrace ops, Comparable t) :
    InLimit (freeAfter ops).riskEngine
      ∧ ∀ t ∈ freeTrace ops, ∀ r ∈ recordedBy t.before t.input, InLimit r := by
  refine ⟨(limitInv_reachable hcreated h).positions, fun t ht => ?_⟩
  have hcomp := h t ht
  obtain ⟨pre, op, post, rfl, rfl⟩ := mem_trace LockFree.step ht
  have hpre : LimitInv (freeAfter pre) := by
    refine limitInv_reachable hcreated.of_append (fun t' ht' => h t' ?_)
    rw [freeTrace, trace_append]
    exact List.mem_append_left _ ht'
  have hops : CreatedOps ((pre ++ [op]) ++ post) := by rwa [List.append_assoc]
  exact (inLimit_step hpre.engine hpre.positions hops.of_append.last hcomp).1

/-- A market order buys from two accounts, at two prices. Its id is used again, with a projection
that overflows. -/
def sweepRun : List EngineOp :=
  [.submit stillEnv (Order.create "b" 0 "B" "AAPL" .sell .limit 100 0 6000),
    .submit stillEnv (Order.create "c" 0 "C" "AAPL" .sell .limit 101 0 6000),
    .submit stillEnv (Order.create "a" 0 "A" "AAPL" .buy .market 0 0 10000),
    .submit stillEnv (Order.create "a" 0 "A" "AAPL" .buy .market 0 0 9223372036854775807)]

theorem recorded_within_limit_sweep :
    ((freeTrace sweepRun).flatMap (fun t => recordedBy t.before t.input)).map
        (fun r => r.getNetPosition "A" "AAPL") = [6000, 10000]
      ∧ ∀ t ∈ freeTrace sweepRun, ∀ r ∈ recordedBy t.before t.input, InLimit r := by
  have hcreated : CreatedOps sweepRun := by
    intro env o ho
    simp only [sweepRun, List.mem_cons, EngineOp.submit.injEq, List.not_mem_nil, or_false] at ho
    rcases ho with ⟨-, rfl⟩ | ⟨-, rfl⟩ | ⟨-, rfl⟩ | ⟨-, rfl⟩ <;> exact Order.created_create ..
  have hcomp : ∀ t ∈ freeTrace sweepRun, reachesCheck t.before t.input = true →
      representable t.before t.input = true ∧ leastProjection t.before t.input = false := by decide
  exact ⟨by decide, (recorded_within_limit sweepRun hcreated hcomp).2⟩

/-- `A` has sold one share, and sells `2 ^ 63 - 1` more. -/
def leastSellRun : List EngineOp :=
  [.submit stillEnv (Order.create "b" 0 "B" "AAPL" .buy .limit 100 0 6000),
    .submit stillEnv (Order.create "c" 0 "C" "AAPL" .buy .limit 100 0 6000),
    .submit stillEnv (Order.create "a1" 0 "A" "AAPL" .sell .market 0 0 1),
    .submit stillEnv (Order.create "a2" 0 "A" "AAPL" .sell .market 0 0 9223372036854775807)]

/-- No projection overflows; the last one is the least `int64_t`, and the order sells all
that the book has. -/
theorem recorded_beyond_limit :
    CreatedOps leastSellRun
      ∧ (∀ t ∈ freeTrace leastSellRun, representable t.before t.input = true)
      ∧ (freeAfter leastSellRun).riskEngine.getNetPosition "A" "AAPL" = -12000
      ∧ ¬ InLimit (freeAfter leastSellRun).riskEngine := by
  have hcreated : CreatedOps leastSellRun := by
    intro env o ho
    simp only [leastSellRun, List.mem_cons, EngineOp.submit.injEq, List.not_mem_nil, or_false] at ho
    rcases ho with ⟨-, rfl⟩ | ⟨-, rfl⟩ | ⟨-, rfl⟩ | ⟨-, rfl⟩ <;> exact Order.created_create ..
  have hpos : (freeAfter leastSellRun).riskEngine.getNetPosition "A" "AAPL" = -12000 := by decide
  refine ⟨hcreated, by decide, hpos, fun hin => ?_⟩
  have hlo := (hin "A" "AAPL").1
  rw [hpos] at hlo
  exact absurd hlo (by decide)

end TitanX.Proof
