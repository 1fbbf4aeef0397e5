import TitanX.Proof.EngineRun

/-!
# What self-trade prevention refuses

The check asks whether the account has an *active* order on the other side, and an
order is active from its approval on, on whatever symbol, for good: no fill, no cancel
and no discarded remainder takes it out of the active sets again. So the active sets
are the approvals of the run (`active_iff_approved`), and the check refuses every order
against which an opposite one was ever approved.

That is right where such an order rests in the book of the same symbol, and wrong
everywhere else (`self_trade_exact_iff`).
-/

namespace TitanX.Proof

open TitanX MatchingEngine

/-! ## The active sets over a run -/

/-- The call admits `o`: the kill switch is off and the risk check lets it through. -/
def Admits (e : MatchingEngine) (op : EngineOp) (o : Order) : Prop :=
  (∃ env, op = .submit env o) ∧ e.halted = false ∧ Admissible e.riskEngine o

/-- Some call of the run admitted `o`. -/
def Approved (ops : List EngineOp) (o : Order) : Prop :=
  ∃ t ∈ marketTrace ops, Admits t.before.engine t.input o

theorem approved_snoc {ops : List EngineOp} {op : EngineOp} {o : Order} :
    Approved (ops ++ [op]) o ↔ Approved ops o ∨ Admits (marketAfter ops).engine op o := by
  unfold Approved
  rw [marketTrace, trace_snoc]
  constructor
  · intro h
    obtain ⟨t, ht, ha⟩ := h
    rcases List.mem_append.mp ht with ht | ht
    · exact Or.inl ⟨t, ht, ha⟩
    · rw [List.mem_singleton.mp ht] at ha
      exact Or.inr ha
  · intro h
    rcases h with ⟨t, ht, ha⟩ | ha
    · exact ⟨t, List.mem_append_left _ ht, ha⟩
    · exact ⟨_, List.mem_append_right _ (List.mem_cons_self ..), ha⟩

/-- A call adds the order it admits to the active sets, and takes nothing out. -/
theorem mem_active_step {m : Market} (hinv : EngineInv m.engine []) (op : EngineOp)
    (s : OrderSide) (account id : String) :
    id ∈ (m.step op).1.engine.riskEngine.activeOrders s account
      ↔ id ∈ m.engine.riskEngine.activeOrders s account
        ∨ ∃ o, Admits m.engine op o ∧ o.side = s ∧ o.accountId = account ∧ o.orderId = id := by
  have hnone : (∀ o, ¬ Admits m.engine op o) →
      (m.step op).1.engine.riskEngine.activeOrders s account
        = m.engine.riskEngine.activeOrders s account →
      (id ∈ (m.step op).1.engine.riskEngine.activeOrders s account
        ↔ id ∈ m.engine.riskEngine.activeOrders s account
          ∨ ∃ o, Admits m.engine op o ∧ o.side = s ∧ o.accountId = account ∧ o.orderId = id) := by
    intro hna hsame
    rw [hsame]
    exact ⟨Or.inl, fun h => h.resolve_right (fun ⟨o, ha, _⟩ => hna o ha)⟩
  cases op with
  | submit env o =>
      rcases submit_cases m.engine env o with ⟨r', href, heq, -, hna⟩ | ⟨r', hap, heq, hh, ha⟩
      · refine hnone (fun o' ha' => ?_) ?_
        · obtain ⟨⟨env', hop⟩, had⟩ := ha'
          cases hop
          exact hna had
        · show (m.engine.submit env o).1.riskEngine.activeOrders s account = _
          rw [heq, href.active]
      · show id ∈ (m.engine.submit env o).1.riskEngine.activeOrders s account ↔ _
        rw [heq, (process_engine (by exact hinv.stops) env o).1]
        have hids := (deliver_ids env.clock o 0
          ((({ m.engine with riskEngine := r' } : MatchingEngine).bookOf o.symbol).matchIncoming
            env.amb o).1 r').2 s account
        unfold afterMatch
        rw [hids, hap.mem_active]
        refine or_congr_right ⟨fun ho => ⟨o, ⟨⟨env, rfl⟩, hh, ha⟩, ho⟩, fun h => ?_⟩
        obtain ⟨o', ⟨⟨env', hop⟩, -⟩, ho⟩ := h
        cases hop
        exact ho
  | cancel symbol orderId =>
      refine hnone (fun o ha => ?_) (congrArg (·.activeOrders s account) (riskEngine_cancel ..))
      obtain ⟨⟨env, hop⟩, -⟩ := ha
      cases hop
  | halt => exact hnone (fun o ha => by obtain ⟨⟨env, hop⟩, -⟩ := ha; cases hop) rfl
  | resume => exact hnone (fun o ha => by obtain ⟨⟨env, hop⟩, -⟩ := ha; cases hop) rfl

/-- **The active sets are the approvals of the run.** -/
theorem active_iff_approved (ops : List EngineOp) (s : OrderSide) (account id : String) :
    id ∈ (marketAfter ops).engine.riskEngine.activeOrders s account
      ↔ ∃ o, Approved ops o ∧ o.side = s ∧ o.accountId = account ∧ o.orderId = id := by
  induction ops using List.reverseRecOn with
  | nil =>
      have hnone : (marketAfter []).engine.riskEngine.activeOrders s account = ∅ := by
        cases s <;> rfl
      rw [hnone]
      refine ⟨fun h => absurd h (Finset.notMem_empty _), fun ⟨o, ⟨t, ht, _⟩, _⟩ => ?_⟩
      exact absurd ht (by simp [marketTrace])
  | append_singleton ops op ih =>
      rw [marketAfter_snoc, mem_active_step (engineInv_reachable ops), ih]
      simp only [approved_snoc, or_and_right, exists_or]

/-! ## The check -/

/-- The order passes the checks that come before self-trade prevention. -/
structure PassesFive (r : RiskEngine) (order : Order) : Prop where
  free : r.circuitBreaker.held = false
  notHalted : r.circuitBreaker.data.haltFlag order.symbol = false
  fresh : order.orderId ∉ r.seenOrderIds
  notional : RiskEngine.notionalExceeded order = false
  position : r.positionExceeded order = false
  deviation : r.fatFinger order = false

/-- Self-trade prevention reads nothing but the active sets. -/
theorem selfTrade_congr {r r' : RiskEngine} (h : ∀ s a, r'.activeOrders s a = r.activeOrders s a)
    (order : Order) : r'.selfTrade order = r.selfTrade order := by
  unfold RiskEngine.selfTrade; rw [h]

/-- The last check decides where the others have passed. -/
theorem checkOrder_last {r : RiskEngine} {order : Order} (hfresh : order.orderId ∉ r.seenOrderIds)
    (hnotional : RiskEngine.notionalExceeded order = false)
    (hposition : r.positionExceeded order = false) (hdeviation : r.fatFinger order = false) :
    (r.checkOrder false order).1
      = if r.selfTrade order then .rejected "SELF_TRADE_PREVENTION" else .approve := by
  have hsame : SameBooks r { r with seenOrderIds := insert order.orderId r.seenOrderIds } :=
    ⟨rfl, rfl, rfl⟩
  have hself : ({ r with seenOrderIds := insert order.orderId r.seenOrderIds } : RiskEngine).selfTrade
      order = r.selfTrade order := selfTrade_congr (fun s _ => by cases s <;> rfl) order
  have hpos := (hsame.positionExceeded order).trans hposition
  have hdev := (hsame.fatFinger order).trans hdeviation
  unfold RiskEngine.checkOrder
  dsimp only
  rw [if_neg (by decide), if_neg hfresh, hnotional, if_neg (by decide), hpos, if_neg (by decide),
    hdev, if_neg (by decide), hself]
  cases r.selfTrade order <;> rfl

/-- The verdict on an order that gets as far as the last check. -/
theorem checkPreTrade_last {r : RiskEngine} {order : Order} (h : PassesFive r order) :
    (r.checkPreTrade order).value?
      = some (if r.selfTrade order then .rejected "SELF_TRADE_PREVENTION" else .approve) := by
  have hsame : SameBooks r { r with totalChecked := r.totalChecked + 1 } := ⟨rfl, rfl, rfl⟩
  have hself : ({ r with totalChecked := r.totalChecked + 1 } : RiskEngine).selfTrade order
      = r.selfTrade order := selfTrade_congr (fun s _ => by cases s <;> rfl) order
  rw [checkPreTrade_free h.free, h.notHalted, ← hself]
  exact congrArg some (checkOrder_last h.fresh h.notional
    ((hsame.positionExceeded order).trans h.position) ((hsame.fatFinger order).trans h.deviation))

/-- The account of `o` has an order on the other side in the book of the same symbol. -/
def RestsOpposite (e : MatchingEngine) (o : Order) : Prop :=
  ∃ x ∈ (e.bookOf o.symbol).resting o.side.opposite, x.accountId = o.accountId

/-- The account of `o` has had an order on the other side approved, on any symbol. -/
def ApprovedOpposite (ops : List EngineOp) (o : Order) : Prop :=
  ∃ x, Approved ops x ∧ x.side = o.side.opposite ∧ x.accountId = o.accountId

theorem selfTrade_iff (ops : List EngineOp) (o : Order) :
    (marketAfter ops).engine.riskEngine.selfTrade o = true ↔ ApprovedOpposite ops o := by
  unfold RiskEngine.selfTrade
  rw [decide_eq_true_iff, ← Finset.nonempty_iff_ne_empty]
  constructor
  · intro h
    obtain ⟨id, hid⟩ := h
    obtain ⟨x, hx, hs, hacc, -⟩ := (active_iff_approved ops _ _ id).mp hid
    exact ⟨x, hx, hs, hacc⟩
  · intro h
    obtain ⟨x, hx, hs, hacc⟩ := h
    exact ⟨x.orderId, (active_iff_approved ops _ _ _).mpr ⟨x, hx, hs, hacc, rfl⟩⟩

/-- What rests was approved. -/
theorem RestsOpposite.approved {ops : List EngineOp} {o : Order}
    (h : RestsOpposite (marketAfter ops).engine o) : ApprovedOpposite ops o := by
  obtain ⟨x, hx, hacc⟩ := h
  have hbook := (engineInv_reachable ops).bookOf o.symbol
  have htracked := hbook.tracked (mem_allOrders.mpr ⟨_, hx⟩)
  have hside : x.side = o.side.opposite := ((hbook.rep.side _).mem hx).1
  have hactive := htracked.active
  rw [hside, hacc] at hactive
  obtain ⟨y, hy, hys, hyacc, -⟩ := (active_iff_approved ops _ _ _).mp hactive
  exact ⟨y, hy, hys, hyacc⟩

/--
**When self-trade prevention is exact.** An order that passes the checks before it is
refused for self-trading if and only if its account has an opposite order resting in
the book of its symbol, exactly when the account has such an order resting or has never
had an opposite order approved at all.
-/
theorem self_trade_exact_iff (ops : List EngineOp) {o : Order}
    (h : PassesFive (marketAfter ops).engine.riskEngine o) :
    (((marketAfter ops).engine.riskEngine.checkPreTrade o).value?
          = some (.rejected "SELF_TRADE_PREVENTION")
        ↔ RestsOpposite (marketAfter ops).engine o)
      ↔ (ApprovedOpposite ops o → RestsOpposite (marketAfter ops).engine o) := by
  have hverdict : ((marketAfter ops).engine.riskEngine.checkPreTrade o).value?
        = some (.rejected "SELF_TRADE_PREVENTION") ↔ ApprovedOpposite ops o := by
    rw [checkPreTrade_last h, ← selfTrade_iff]
    cases (marketAfter ops).engine.riskEngine.selfTrade o with
    | true => simp
    | false => simp [RiskResult.approve, RiskResult.rejected]
  rw [hverdict]
  exact ⟨fun hiff => hiff.mp, fun himp => ⟨himp, RestsOpposite.approved⟩⟩

/-- A buy of account `A` that rests. -/
def restingBuy : Order := Order.create "a" 0 "A" "AAPL" .buy .limit 10000000000 0 5

/-- A later sell of the same account. -/
def laterSell : Order := Order.create "b" 0 "A" "AAPL" .sell .limit 10100000000 0 5

/-- As long as the buy rests the refusal is right. -/
theorem self_trade_exact_resting :
    RestsOpposite (marketAfter [.submit stillEnv restingBuy]).engine laterSell
      ∧ (((marketAfter [.submit stillEnv restingBuy]).engine.riskEngine.checkPreTrade
            laterSell).value? = some (.rejected "SELF_TRADE_PREVENTION")
          ↔ RestsOpposite (marketAfter [.submit stillEnv restingBuy]).engine laterSell) := by
  have hrests : RestsOpposite (marketAfter [.submit stillEnv restingBuy]).engine laterSell := by
    unfold RestsOpposite; decide
  have hpass : PassesFive (marketAfter [.submit stillEnv restingBuy]).engine.riskEngine
      laterSell := by
    constructor <;> decide
  exact ⟨hrests, (self_trade_exact_iff _ hpass).mpr (fun _ => hrests)⟩

/-- After its only buy is cancelled the account rests nothing, and may still not sell. -/
theorem self_trade_blocked_after_cancel :
    PassesFive (marketAfter [.submit stillEnv restingBuy, .cancel "AAPL" "a"]).engine.riskEngine
        laterSell
      ∧ ¬ (((marketAfter [.submit stillEnv restingBuy, .cancel "AAPL" "a"]).engine.riskEngine.checkPreTrade
            laterSell).value? = some (.rejected "SELF_TRADE_PREVENTION")
          ↔ RestsOpposite (marketAfter [.submit stillEnv restingBuy, .cancel "AAPL" "a"]).engine
            laterSell) := by
  refine ⟨by constructor <;> decide, fun hiff => ?_⟩
  have hrests := hiff.mp (by decide)
  unfold RestsOpposite at hrests
  exact absurd hrests (by decide)

end TitanX.Proof
