import TitanX.Proof.Linear
import TitanX.Proof.Settlement

/-!
# An account stays on one side

Self-trade prevention asks whether the account has an active order on the other side, in
whatever symbol. The active sets are only ever added to: neither a fill nor a cancel takes
an id out. So the first approved order of an account fixes its side for good, in all
symbols and under every interleaving (`accounts_one_sided`): an account that once had a buy
approved never sells, and no account is the buyer of one trade and the seller of another.
-/

namespace TitanX.Proof

open TitanX OrderBook Exchange

/-! ## Approved orders stay tracked -/

theorem proceeds_tracked {e e' : MatchingEngine} {env : SubmitEnv} {order : Order}
    {stage stage' : Stage} {h : List Happening} (hm : Proceeds e env order stage e' stage' h) :
    (∀ x, Tracked e.riskEngine x → Tracked e'.riskEngine x)
      ∧ ∀ x ∈ approvedIn h, Tracked e'.riskEngine x := by
  have hnone : ∀ x ∈ ([] : List Order), Tracked e'.riskEngine x :=
    fun _ hx => absurd hx List.not_mem_nil
  cases hm with
  | refused hr _ =>
      exact ⟨fun x hx => hx.mono hr.seen (fun s a => by rw [hr.active]), hnone⟩
  | @approved r hr =>
      refine ⟨fun x hx => hx.mono ?_ (fun s a id hid => ?_), fun x hx => ?_⟩
      · rw [hr.seen]; exact Finset.subset_insert _ _
      · exact hr.mem_active.mpr (Or.inl hid)
      · rw [List.mem_singleton.mp hx]
        refine ⟨?_, hr.mem_active.mpr (Or.inr ⟨rfl, rfl, rfl⟩)⟩
        show order.orderId ∈ r.seenOrderIds
        rw [hr.seen]; exact Finset.mem_insert_self _ _
  | booked => exact ⟨fun _ hx => hx, hnone⟩
  | locked => exact ⟨fun _ hx => hx, hnone⟩
  | matched _ => exact ⟨fun _ hx => hx, hnone⟩
  | @consumed n fill rest r _ hr _ =>
      refine ⟨fun x hx => ?_, hnone⟩
      obtain ⟨cb, heq⟩ := fillConsumer_state e.riskEngine (env.clock n) fill.trade
      rw [heq] at hr
      show Tracked r x
      refine hx.mono ?_ (fun s a => ?_)
      · rw [hr]; exact Finset.Subset.refl _
      · rw [hr]; cases s <;> exact Finset.Subset.refl _
  | ended hh => rcases hh with rfl | rfl <;> exact ⟨fun _ hx => hx, hnone⟩
  | idle _ => exact ⟨fun _ hx => hx, hnone⟩

theorem tracked_step {s : Exchange} (hinv : ExchangeInv s)
    (h : ∀ o ∈ approvedIn s.log, Tracked s.engine.riskEngine o) (a : Action) :
    ∀ o ∈ approvedIn (s.step a).1.log, Tracked (s.step a).1.engine.riskEngine o := by
  have hhappens := step_happens hinv.engine.stops a
  generalize (s.step a).1 = s' at hhappens
  cases hhappens with
  | called _ => exact h
  | moved _ _ hm =>
      obtain ⟨hkept, hnew⟩ := proceeds_tracked hm
      intro o ho
      rw [approvedIn_append] at ho
      rcases List.mem_append.mp ho with ho | ho
      · exact hkept o (h o ho)
      · exact hnew o ho
  | missed => exact h
  | @outside a e' hap ho hh =>
      obtain ⟨cb, hcb⟩ := ho.risk
      intro o hmem
      have hold : o ∈ approvedIn s.log := by
        rw [approvedIn_append] at hmem
        rcases hh with rfl | rfl | rfl <;>
          exact (List.mem_append.mp hmem).resolve_right List.not_mem_nil
      have htracked := h o hold
      refine htracked.mono ?_ (fun side a => ?_)
      · rw [hcb]
      · rw [hcb]; cases side <;> exact Finset.Subset.refl _

theorem tracked_reachable (actions : List Action) :
    ∀ o ∈ approvedIn (exchangeAfter actions).log,
      Tracked (exchangeAfter actions).engine.riskEngine o :=
  run_always Exchange.step
    (P := fun _ s => ∀ o ∈ approvedIn s.log, Tracked s.engine.riskEngine o)
    (fun _ ho => absurd ho List.not_mem_nil)
    (fun is a hp => tracked_step (exchangeInv_reachable is) hp a) actions

/-- Two approved orders of one account are on one side. -/
theorem approved_same_side {actions : List Action} {o o' : Order}
    (ho : o ∈ approvedIn (exchangeAfter actions).log)
    (ho' : o' ∈ approvedIn (exchangeAfter actions).log) (hacc : o.accountId = o'.accountId) :
    o.side = o'.side := by
  have hactive := (tracked_reachable actions o ho).active
  have hactive' := (tracked_reachable actions o' ho').active
  rw [← hacc] at hactive'
  rcases OrderSide.eq_or_opposite o.side o'.side with heq | heq
  · exact heq.symm
  · -- the account would be active on both sides
    exfalso
    have hne : ∀ s, (exchangeAfter actions).engine.riskEngine.activeOrders s o.accountId ≠ ∅ := by
      intro s
      rcases OrderSide.eq_or_opposite o.side s with hs | hs
      · rw [hs]; exact Finset.ne_empty_of_mem hactive
      · rw [hs, ← heq]; exact Finset.ne_empty_of_mem hactive'
    rcases (exchangeInv_reachable actions).engine.oneSided o.accountId with hbuy | hsell
    · exact hne _ hbuy
    · exact hne _ hsell

/-! ## The parties of a trade -/

/-- Both parties of a trade had an order approved on their side of it. -/
theorem trade_parties {actions : List Action} {t : Trade}
    (ht : t ∈ tradesIn (exchangeAfter actions).log) :
    ∃ x ∈ approvedIn (exchangeAfter actions).log, ∃ y ∈ approvedIn (exchangeAfter actions).log,
      x.accountId = t.aggressorAccountId ∧ x.side = t.aggressorSide
        ∧ y.accountId = t.passiveAccountId ∧ y.side = t.aggressorSide.opposite := by
  obtain ⟨f, hf, rfl⟩ := List.mem_map.mp ht
  have hmem : f ∈ fillsIn f.trade.symbol (exchangeAfter actions).log :=
    List.mem_filter.mpr ⟨hf, decide_eq_true rfl⟩
  rw [(log_linearized actions _).2] at hmem
  have hd := distinctIds_linearized actions f.trade.symbol
  have happroved : ∀ o ∈ submitted (linearized f.trade.symbol actions),
      o ∈ approvedIn (exchangeAfter actions).log := fun o ho =>
    (lifeInv_reachable actions).lives.mem_iff.mpr
      (List.mem_append_left _ (mem_submitted_linearized.mp ho).1)
  obtain ⟨pre, amb, o, post, hops, hcall⟩ := mem_fillsOf hmem
  rw [hops] at hd happroved
  rw [submitted_append] at happroved
  have hinv := runInv_reachable f.trade.symbol hd.of_append
  obtain ⟨_, hok⟩ := match_fillOk hinv.rep amb o f hcall
  obtain ⟨y, hy, -, hacc, -, hside⟩ := hok.passive
  obtain ⟨y₀, hy₀, hv⟩ := hinv.versions y (mem_allOrders.mpr ⟨_, hy⟩)
  refine ⟨o, happroved o (List.mem_append_right _ (List.mem_cons_self ..)), y₀,
    happroved y₀ (List.mem_append_left _ hy₀), hok.aggressorAccountId.symm, hok.aggressorSide.symm,
    ?_, ?_⟩
  · rw [← hv.accountId, hacc]
  · rw [← hv.side, hside, hok.aggressorSide]

theorem buyer_seller_approved {actions : List Action} {t : Trade}
    (ht : t ∈ tradesIn (exchangeAfter actions).log) :
    (∃ x ∈ approvedIn (exchangeAfter actions).log, x.accountId = t.buyer ∧ x.side = .buy)
      ∧ ∃ x ∈ approvedIn (exchangeAfter actions).log, x.accountId = t.seller ∧ x.side = .sell := by
  obtain ⟨x, hx, y, hy, hxa, hxs, hya, hys⟩ := trade_parties ht
  unfold Trade.buyer Trade.seller
  cases hside : t.aggressorSide with
  | buy =>
      rw [hside] at hxs hys
      exact ⟨⟨x, hx, by rw [if_pos rfl]; exact hxa, hxs⟩,
        ⟨y, hy, by rw [if_pos rfl]; exact hya, hys⟩⟩
  | sell =>
      rw [hside] at hxs hys
      exact ⟨⟨y, hy, by rw [if_neg (by decide)]; exact hya, hys⟩,
        ⟨x, hx, by rw [if_neg (by decide)]; exact hxa, hxs⟩⟩

/--
**An account stays on one side**, over all symbols and under every interleaving: all its
approved orders are buys, or all are sells, and no buyer of a trade is ever the seller of
a trade.
-/
theorem accounts_one_sided (actions : List Action) :
    (∀ o ∈ approvedIn (exchangeAfter actions).log, ∀ o' ∈ approvedIn (exchangeAfter actions).log,
        o.accountId = o'.accountId → o.side = o'.side)
      ∧ ∀ t ∈ tradesIn (exchangeAfter actions).log, ∀ t' ∈ tradesIn (exchangeAfter actions).log,
          t.buyer ≠ t'.seller := by
  refine ⟨fun o ho o' ho' => approved_same_side ho ho', fun t ht t' ht' heq => ?_⟩
  obtain ⟨⟨x, hx, hxa, hxs⟩, -⟩ := buyer_seller_approved ht
  obtain ⟨-, ⟨y, hy, hya, hys⟩⟩ := buyer_seller_approved ht'
  have hside := approved_same_side hx hy (hxa.trans (heq.trans hya.symm))
  rw [hxs, hys] at hside
  cases hside

end TitanX.Proof
