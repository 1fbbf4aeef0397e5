import TitanX.Proof.Delivery
import TitanX.Proof.OneLife
import Mathlib.Algebra.BigOperators.Group.List.Basic
import Mathlib.Algebra.Order.Ring.Int

/-!
# Settlement

A trade is executed under the lock of its symbol and handed to the fill consumer later, by
the call that made it. Between the two the calls of other threads go on. Still every trade
is handed over exactly once, unless its call gets stuck in the breaker (`Settled`): nothing
is delivered twice, and nothing is delivered that was not executed. So the positions of the
risk engine are, in every interleaving, the sums over the trades delivered so far, and over
all executed trades once every call has ended (`positions_settled`).

The consumer books the aggressor of a trade only, and so do the sums.
-/

namespace TitanX.Proof

open TitanX Exchange

/-! ## Every trade is handed over once -/

theorem handedOver_append (log log' : List Happening) :
    handedOver (log ++ log') = handedOver log ++ handedOver log' := List.flatMap_append

/-- The trades that were executed. -/
def tradesIn (log : List Happening) : List Trade := (executedIn log).map Fill.trade

theorem tradesIn_append (log log' : List Happening) :
    tradesIn (log ++ log') = tradesIn log ++ tradesIn log' := by
  rw [tradesIn, executedIn_append, List.map_append]; rfl

/-- The trades that calls have still to hand over. -/
def undelivered (flights : List Flight) : List Trade :=
  flights.flatMap (fun f => (pending f).map Fill.trade)

theorem undelivered_append (l l' : List Flight) :
    undelivered (l ++ l') = undelivered l ++ undelivered l' := List.flatMap_append

theorem undelivered_cut (l₁ l₂ : List Flight) (f : Flight) :
    undelivered (l₁ ++ f :: l₂)
      = undelivered l₁ ++ ((pending f).map Fill.trade ++ undelivered l₂) := by
  rw [undelivered_append]; rfl

theorem undelivered_called {env : SubmitEnv} {order : Order} {stage : Stage}
    (hs : stage = .finished ∨ stage = .checking) (flights : List Flight) :
    undelivered (flights ++ [⟨env, order, stage⟩]) = undelivered flights := by
  rw [undelivered_append]
  rcases hs with rfl | rfl <;> exact List.append_nil _

/-- The trades a call has to hand over are its own. -/
def OwnTrades (f : Flight) : Prop :=
  ∀ x ∈ pending f, x.trade.aggressorOrderId = f.order.orderId

section OneStep

variable {e e' : MatchingEngine} {f : Flight} {stage : Stage} {h : List Happening}

/-- What a step takes from one place it puts in another; only a call that gets stuck keeps
trades for good. -/
theorem proceeds_moves_trades (hm : Proceeds e f.env f.order f.stage e' stage h) :
    ∃ kept, (tradesIn h ++ (pending f).map Fill.trade).Perm
        (handedOver h ++ (pending { f with stage }).map Fill.trade ++ kept)
      ∧ kept ⊆ (pending f).map Fill.trade ∧ (kept ≠ [] → stage = .stuck) := by
  obtain ⟨env, order, before⟩ := f
  dsimp only at hm
  have hquiet : ∃ kept : List Trade, ([] : List Trade).Perm kept ∧ kept ⊆ ([] : List Trade)
      ∧ (kept ≠ [] → stage = .stuck) :=
    ⟨[], List.Perm.refl _, List.Subset.refl _, fun hne => absurd rfl hne⟩
  cases hm with
  | refused _ hs => rcases hs with rfl | rfl <;> exact hquiet
  | approved _ => exact hquiet
  | booked => exact hquiet
  | locked => exact hquiet
  | @matched fills b hm =>
      refine ⟨[], ?_, List.nil_subset _, fun hne => absurd rfl hne⟩
      have htrades : tradesIn [.matched order fills] = fills.map Fill.trade := by
        rw [tradesIn, executedIn, List.flatMap_singleton]
      rw [htrades, List.append_nil]
      exact List.Perm.of_eq (List.append_nil _)
  | @consumed n fill rest r _ _ hs =>
      rcases hs with rfl | rfl
      · exact ⟨[], List.Perm.of_eq (List.append_nil _).symm, List.nil_subset _,
          fun hne => absurd rfl hne⟩
      · exact ⟨rest.map Fill.trade, List.Perm.refl _, List.subset_cons_self _ _, fun _ => rfl⟩
  | ended hh => rcases hh with rfl | rfl <;> exact hquiet
  | idle hs => rcases hs with rfl | rfl <;> exact hquiet

theorem proceeds_ownTrades (hm : Proceeds e f.env f.order f.stage e' stage h)
    (hrep : RepInv (e.bookOf f.order.symbol)) (hown : OwnTrades f) :
    OwnTrades { f with stage } := by
  intro x hx
  rcases proceeds_pending hm with hsub | ⟨-, hfills⟩
  · exact hown x (hsub hx)
  · have hx' : x ∈ ((e.bookOf f.order.symbol).matchIncoming f.env.amb f.order).1 := hfills ▸ hx
    obtain ⟨_, hok⟩ := match_fillOk hrep f.env.amb f.order x hx'
    exact hok.aggressorOrderId

end OneStep

/-- Whatever was executed is delivered, or a call has still to deliver it, or it is lost with
a call that waits for the breaker for ever. -/
structure Settled (s : Exchange) (lost : List Trade) : Prop where
  trades : (tradesIn s.log).Perm (handedOver s.log ++ undelivered s.flights ++ lost)
  lost : ∀ t ∈ lost, ∃ f ∈ s.flights, f.stage = .stuck ∧ f.order.orderId = t.aggressorOrderId

theorem settled_moved {s : Exchange} {lost : List Trade} (hs : Settled s lost)
    {l₁ l₂ : List Flight} {f : Flight} {e' : MatchingEngine} {stage : Stage} {h : List Happening}
    (hcut : s.flights = l₁ ++ f :: l₂) (hown : OwnTrades f)
    (hm : Proceeds s.engine f.env f.order f.stage e' stage h) :
    ∃ kept, Settled ⟨e', l₁ ++ { f with stage } :: l₂, s.log ++ h⟩ (lost ++ kept) := by
  obtain ⟨kept, hmoved, hkept, hstuck⟩ := proceeds_moves_trades hm
  refine ⟨kept, ?_, fun t ht => ?_⟩
  · -- the two equations of multisets, added up
    have htrades := hs.trades
    rw [hcut, undelivered_cut] at htrades
    rw [List.perm_iff_count] at htrades hmoved ⊢
    intro t
    have h₁ := htrades t
    have h₂ := hmoved t
    rw [tradesIn_append, handedOver_append, undelivered_cut]
    simp only [List.count_append] at h₁ h₂ ⊢
    omega
  · rcases List.mem_append.mp ht with ht | ht
    · obtain ⟨g, hg, hgs, hid⟩ := hs.lost t ht
      rw [hcut] at hg
      rcases mem_moved.mp hg with rfl | hg
      · exact ⟨_, mem_moved.mpr (Or.inl rfl), proceeds_stuck hm hgs, hid⟩
      · exact ⟨g, mem_moved.mpr (Or.inr hg), hgs, hid⟩
    · obtain ⟨x, hx, rfl⟩ := List.mem_map.mp (hkept ht)
      exact ⟨_, mem_moved.mpr (Or.inl rfl), hstuck (List.ne_nil_of_mem ht), (hown x hx).symm⟩

/-- The actions from outside neither execute nor deliver. -/
theorem outside_trades {h : List Happening} (hh : h = [] ∨ h = [.halted] ∨ h = [.resumed]) :
    tradesIn h = [] ∧ handedOver h = [] := by
  rcases hh with rfl | rfl | rfl <;> exact ⟨rfl, rfl⟩

structure SettleInv (s : Exchange) : Prop where
  settled : ∃ lost, Settled s lost
  own : ∀ f ∈ s.flights, OwnTrades f

theorem settleInv_step {s : Exchange} (hinv : ExchangeInv s) (h : SettleInv s) (a : Action) :
    SettleInv (s.step a).1 := by
  obtain ⟨lost, hs⟩ := h.settled
  have hhappens := step_happens hinv.engine.stops a
  generalize (s.step a).1 = s' at hhappens
  cases hhappens with
  | @called env order stage hst =>
      refine ⟨⟨lost, ?_, fun t ht => ?_⟩, fun f hf => ?_⟩
      · rw [undelivered_called hst]; exact hs.trades
      · obtain ⟨f, hf, hfs⟩ := hs.lost t ht
        exact ⟨f, List.mem_append_left _ hf, hfs⟩
      · rcases List.mem_append.mp hf with hf | hf
        · exact h.own f hf
        · rw [List.mem_singleton.mp hf]
          rcases hst with rfl | rfl <;> exact fun x hx => absurd hx List.not_mem_nil
  | @moved i l₁ l₂ f e' stage hap hf hcut hm =>
      have hown := h.own f (List.mem_of_getElem? hf)
      obtain ⟨kept, hmoved⟩ := settled_moved hs hcut hown hm
      refine ⟨⟨_, hmoved⟩, fun g hg => ?_⟩
      rcases mem_moved.mp hg with rfl | hg
      · exact proceeds_ownTrades hm (hinv.engine.bookOf f.order.symbol).rep hown
      · exact h.own g (mem_flights_of_cut hcut hg)
  | missed => exact h
  | outside _ hh =>
      obtain ⟨hex, hdel⟩ := outside_trades hh
      refine ⟨⟨lost, ?_, hs.lost⟩, h.own⟩
      rw [tradesIn_append, handedOver_append, hex, hdel, List.append_nil, List.append_nil]
      exact hs.trades

theorem settleInv_reachable (actions : List Action) : SettleInv (exchangeAfter actions) :=
  run_always Exchange.step (P := fun _ s => SettleInv s)
    ⟨⟨[], List.Perm.refl _, fun _ ht => absurd ht List.not_mem_nil⟩,
      fun _ hf => absurd hf List.not_mem_nil⟩
    (fun is a hp => settleInv_step (exchangeInv_reachable is) hp a) actions

/-- With all calls ended nothing is pending and nothing was lost. -/
theorem Settled.all_delivered {s : Exchange} {lost : List Trade} (hs : Settled s lost)
    (hdone : ∀ f ∈ s.flights, finished f = true) :
    (handedOver s.log).Perm (tradesIn s.log) := by
  have hnolost : lost = [] := by
    by_contra hne
    obtain ⟨t, ht⟩ := List.exists_mem_of_ne_nil lost hne
    obtain ⟨f, hf, hstuck, -⟩ := hs.lost t ht
    rw [stage_of_finished (hdone f hf)] at hstuck
    cases hstuck
  have hnone : undelivered s.flights = [] := by
    refine List.flatMap_eq_nil_iff.mpr (fun f hf => ?_)
    rw [pending, stage_of_finished (hdone f hf)]; rfl
  have htrades := hs.trades
  rw [hnolost, hnone, List.append_nil, List.append_nil] at htrades
  exact htrades.symm

/--
**Every trade is delivered exactly once**, under any interleaving: the executed trades are,
each as often as it was executed, those handed over, those that a call has still to hand
over, and some that are lost with calls stuck in the breaker. With all calls ended, the
trades handed over are those that were executed.
-/
theorem trades_delivered_once (actions : List Action) :
    (∃ lost, Settled (exchangeAfter actions) lost)
      ∧ ((∀ f ∈ (exchangeAfter actions).flights, finished f = true) →
        (handedOver (exchangeAfter actions).log).Perm (tradesIn (exchangeAfter actions).log)) := by
  obtain ⟨lost, hs⟩ := (settleInv_reachable actions).settled
  exact ⟨⟨lost, hs⟩, hs.all_delivered⟩

/-! ## The positions of the risk engine -/

/-- What the fill consumer books on `account` for a trade. -/
def booked (account symbol : String) (t : Trade) : Int :=
  if t.aggressorAccountId = account ∧ t.symbol = symbol then
    RiskEngine.fillDelta t.aggressorSide t.quantity
  else 0

def bookedTotal (account symbol : String) (trades : List Trade) : Int :=
  (trades.map (booked account symbol)).sum

theorem bookedTotal_append (account symbol : String) (trades trades' : List Trade) :
    bookedTotal account symbol (trades ++ trades')
      = bookedTotal account symbol trades + bookedTotal account symbol trades' := by
  rw [bookedTotal, List.map_append, List.sum_append]; rfl

theorem getNetPosition_fillConsumer (r : RiskEngine) (now : Int) (t : Trade)
    (account symbol : String) :
    (MatchingEngine.fillConsumer r now t).state.getNetPosition account symbol
      = if t.aggressorAccountId = account ∧ t.symbol = symbol then
          wrap64 (r.getNetPosition account symbol
            + RiskEngine.fillDelta t.aggressorSide t.quantity)
        else r.getNetPosition account symbol := by
  obtain ⟨cb, heq⟩ := fillConsumer_state r now t
  rw [heq]
  have hrec := getNetPosition_recordFill r t.aggressorAccountId t.symbol t.aggressorSide t.quantity
    account symbol
  refine Eq.trans hrec ?_
  congr 1
  exact propext ⟨fun h => ⟨h.1.symm, h.2.symm⟩, fun h => ⟨h.1.symm, h.2.symm⟩⟩

theorem proceeds_position {e e' : MatchingEngine} {env : SubmitEnv} {order : Order}
    {stage stage' : Stage} {h : List Happening} (hm : Proceeds e env order stage e' stage' h)
    {account symbol : String} {total : Int}
    (ht : e.riskEngine.getNetPosition account symbol = wrap64 total) :
    e'.riskEngine.getNetPosition account symbol
      = wrap64 (total + bookedTotal account symbol (handedOver h)) := by
  have hsame : wrap64 (total + bookedTotal account symbol []) = wrap64 total :=
    congrArg wrap64 (Int.add_zero total)
  cases hm with
  | refused hr _ =>
      exact (hr.same.getNetPosition account symbol).trans (ht.trans hsame.symm)
  | approved hr =>
      exact (hr.same.getNetPosition account symbol).trans (ht.trans hsame.symm)
  | booked => exact ht.trans hsame.symm
  | locked => exact ht.trans hsame.symm
  | matched _ => exact ht.trans hsame.symm
  | @consumed n fill rest r _ hr _ =>
      have htotal : bookedTotal account symbol (handedOver [.consumed fill.trade])
          = booked account symbol fill.trade := by
        rw [handedOver, List.flatMap_singleton, bookedTotal, List.map_singleton,
          List.sum_singleton]
      dsimp only
      rw [htotal, hr, getNetPosition_fillConsumer, booked]
      split
      · rw [ht, wrap64_add_wrap64]
      · rw [ht, Int.add_zero]
  | ended hh => rcases hh with rfl | rfl <;> exact ht.trans hsame.symm
  | idle _ => exact ht.trans hsame.symm

theorem position_step {s : Exchange} (hinv : ExchangeInv s) {account symbol : String}
    (h : s.engine.riskEngine.getNetPosition account symbol
      = wrap64 (bookedTotal account symbol (handedOver s.log))) (a : Action) :
    (s.step a).1.engine.riskEngine.getNetPosition account symbol
      = wrap64 (bookedTotal account symbol (handedOver (s.step a).1.log)) := by
  have hhappens := step_happens hinv.engine.stops a
  generalize (s.step a).1 = s' at hhappens
  cases hhappens with
  | called _ => exact h
  | moved _ _ hm =>
      rw [handedOver_append, bookedTotal_append]
      exact proceeds_position hm h
  | missed => exact h
  | @outside a e' hap ho hh =>
      obtain ⟨cb, hcb⟩ := ho.risk
      rw [handedOver_append, (outside_trades hh).2, List.append_nil, ← h]
      show e'.riskEngine.getNetPosition account symbol = _
      rw [hcb]
      rfl

/-- The risk engine has the sums over the trades it was handed. -/
theorem position_reachable (actions : List Action) (account symbol : String) :
    (exchangeAfter actions).engine.riskEngine.getNetPosition account symbol
      = wrap64 (bookedTotal account symbol (handedOver (exchangeAfter actions).log)) :=
  run_always Exchange.step
    (P := fun _ s => s.engine.riskEngine.getNetPosition account symbol
      = wrap64 (bookedTotal account symbol (handedOver s.log))) rfl
    (fun is a hp => position_step (exchangeInv_reachable is) hp a) actions

/--
**The risk engine's positions are the delivered trades**, under any interleaving: the net
position of an account in a symbol is the sum over the trades delivered so far in which the
account was the aggressor, and over all such executed trades once every call has ended.
-/
theorem positions_settled (actions : List Action) (account symbol : String) :
    (exchangeAfter actions).engine.riskEngine.getNetPosition account symbol
        = wrap64 (bookedTotal account symbol (handedOver (exchangeAfter actions).log))
      ∧ ((∀ f ∈ (exchangeAfter actions).flights, finished f = true) →
        (exchangeAfter actions).engine.riskEngine.getNetPosition account symbol
          = wrap64 (bookedTotal account symbol (tradesIn (exchangeAfter actions).log))) := by
  have hpos := position_reachable actions account symbol
  refine ⟨hpos, fun hdone => ?_⟩
  obtain ⟨lost, hs⟩ := (settleInv_reachable actions).settled
  rw [hpos]
  -- a sum does not depend on the order of delivery
  exact congrArg wrap64 ((hs.all_delivered hdone).map (booked account symbol)).sum_eq

end TitanX.Proof
