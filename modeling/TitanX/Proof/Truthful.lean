import TitanX.Proof.Cancel
import TitanX.Proof.Events
import TitanX.Proof.Exposure

/-!
# When the events tell the truth

What the events of a `submit` should say about the order, against what they are made from.
The engine picks them by the order's type and by whether there were trades, so they are
right as long as that settles the outcome: no trade at all, and a limit order that then
rests, or one trade that fills the order. They are wrong as soon as an order is filled in
part, since every trade is an `orderFilled`; and for quantities and prices that the type
says nothing about.
-/

namespace TitanX.Proof

open TitanX MatchingEngine

/-! ## What happens to the order -/

theorem NotResting.not_restsIn {b : OrderBook} {id : String} (h : NotResting b id) :
    ¬ RestsIn b id := by
  intro hr
  obtain ⟨x, hx, hid⟩ := hr
  exact h x hx hid

section Rests

variable {b : OrderBook} (h : RepInv b) (amb : Ambient) {o : Order}
  (hfresh : NotResting b o.orderId)

include h hfresh

/-- What is left after `matchLimit` rests. -/
theorem matchLimit_rests_iff :
    RestsIn (b.matchLimit amb o).2 o.orderId
      ↔ filled (b.matchLimit amb o).1 < o.remainingQuantity := by
  have htotal := sweep_total h amb o (OrderBook.crossesLimit o)
  rw [matchLimit_fills]
  rcases matchLimit_cases b amb o with ⟨hrem, heq⟩ | ⟨hrem, heq⟩
  · have hgone := (notResting_sweep h hfresh amb o (OrderBook.crossesLimit o)).not_restsIn
    rw [heq]
    exact ⟨fun hr => absurd hr hgone, fun hlt => by omega⟩
  · rw [heq]
    refine ⟨fun _ => by omega, fun _ => ⟨remainder b amb o, ?_, rfl⟩⟩
    exact (insert_perm (repInv_sweep h amb o _) _).mem_iff.mpr (List.mem_cons_self ..)

/-- And it does so at the order's price. -/
theorem matchLimit_rests_price :
    ∀ x ∈ allOrders (b.matchLimit amb o).2, x.orderId = o.orderId → x.price = o.price := by
  intro x hx hid
  have hnot := notResting_sweep h hfresh amb o (OrderBook.crossesLimit o)
  rcases matchLimit_cases b amb o with ⟨-, heq⟩ | ⟨-, heq⟩
  · rw [heq] at hx
    exact absurd hid (hnot x hx)
  · rw [heq] at hx
    rcases List.mem_cons.mp ((insert_perm (repInv_sweep h amb o _) _).mem_iff.mp hx) with rfl | hx
    · rfl
    · exact absurd hid (hnot x hx)

/-- `matchIoc` takes the remainder out again, unless its price is 0. -/
theorem matchIoc_rests_iff :
    RestsIn (b.matchIoc amb o).2 o.orderId
      ↔ filled (b.matchLimit amb o).1 < o.remainingQuantity ∧ o.price = 0 := by
  have hrep := repInv_matchLimit h amb hfresh
  have hprice := matchLimit_rests_price h amb hfresh
  rw [← matchLimit_rests_iff h amb hfresh]
  show RestsIn ((b.matchLimit amb o).2.removeFromBook o.orderId).2 o.orderId ↔ _
  rcases removeFromBook_cases hrep o.orderId with
    ⟨hnone, heq⟩ | ⟨x, hlook, hx, heq⟩ | ⟨x, hlook, hx, -, hremoved⟩
  · rw [heq]
    refine ⟨fun hr => ⟨hr, ?_⟩, fun hr => hr.1⟩
    -- a priced order that rests is in the index
    by_contra hne
    obtain ⟨x, hmem, hid⟩ := hr
    have hsome := hrep.index.complete x hmem (by rw [hprice x hmem hid]; exact hne)
    rw [hid, hnone] at hsome
    cases hsome
  · obtain ⟨hid, hmem⟩ := hrep.index.sound _ x hlook
    rw [heq]
    refine ⟨fun hr => ⟨⟨x, hmem, hid⟩, ?_⟩, fun hr => hr.1⟩
    rw [← hprice x hmem hid]
    exact hx
  · obtain ⟨hid, hmem⟩ := hrep.index.sound _ x hlook
    refine ⟨fun hr => absurd hr hremoved.not_restsIn, fun hr => absurd hr.2 ?_⟩
    rw [← hprice x hmem hid]
    exact hx

/-- **What is left of an order rests** if it is a limit order, or an IOC order at price 0,
whose remainder `removeFromBook` refuses to take out. -/
theorem rests_iff :
    RestsIn (b.matchIncoming amb o).2 o.orderId
      ↔ filled (b.matchIncoming amb o).1 < o.remainingQuantity
        ∧ (o.type = .limit ∨ o.type = .ioc ∧ o.price = 0) := by
  have hmarket := (notResting_sweep h hfresh amb o (fun _ => true)).not_restsIn
  unfold OrderBook.matchIncoming
  cases ht : o.type with
  | market => exact ⟨fun hr => absurd hr hmarket, fun hf => by simp at hf⟩
  | limit =>
      dsimp only
      rw [matchLimit_rests_iff h amb hfresh]
      simp
  | ioc =>
      dsimp only
      rw [matchIoc_rests_iff h amb hfresh]
      simp [OrderBook.matchIoc]
  | fok =>
      dsimp only [OrderBook.matchFok]
      split
      · exact ⟨fun hr => absurd hr hfresh.not_restsIn, fun hf => by simp at hf⟩
      · exact ⟨fun hr => absurd hr hmarket, fun hf => by simp at hf⟩
  | stopLimit => exact ⟨fun hr => absurd hr hfresh.not_restsIn, fun hf => by simp at hf⟩

end Rests

/-- The first trade takes what it can from the order at the head of the other side. -/
def StartsAtHead (b : OrderBook) (o : Order) (fills : List Fill) : Prop :=
  fills = [] ∨ ∃ y rest f tail, b.resting o.side.opposite = y :: rest ∧ fills = f :: tail
    ∧ f.trade.quantity = min o.remainingQuantity y.remainingQuantity

theorem head_fill (amb : Ambient) (aggressor : Order) (crosses : Int → Bool) (L : List Order) :
    KeptByFill amb aggressor crosses (fun ls st =>
      (st.fills = [] ∧ st.remainingQty = aggressor.remainingQuantity ∧ Levels.orders ls = L)
        ∨ ∃ y rest f tail, L = y :: rest ∧ st.fills = f :: tail
          ∧ f.trade.quantity = min aggressor.remainingQuantity y.remainingQuantity) := by
  intro p passive rest behind st _ _ h
  obtain ⟨f', hf', hqty'⟩ : ∃ f,
      (OrderBook.fillFront amb aggressor p passive rest behind st).2.fills = st.fills ++ [f]
        ∧ f.trade.quantity = min st.remainingQty passive.remainingQuantity := ⟨_, rfl, rfl⟩
  refine Or.inr ?_
  rcases h with ⟨hnil, hrem, hL⟩ | ⟨y, rest', f, tail, hL, hfills, hqty⟩
  · refine ⟨passive, rest ++ Levels.orders behind, f', [], by rw [← hL]; rfl, ?_, ?_⟩
    · rw [hf', hnil]; rfl
    · rw [hqty', hrem]
  · exact ⟨y, rest', f, tail ++ [f'], hL, by rw [hf', hfills]; rfl, hqty⟩

theorem sweep_head {b : OrderBook} (h : RepInv b) (amb : Ambient) (o : Order)
    (crosses : Int → Bool) : StartsAtHead b o (b.sweep amb o crosses).1.fills := by
  rcases matchSide_rule (head_fill amb o crosses (b.resting o.side.opposite))
    (b.levels o.side.opposite).entries (sweepStart b o) (h.side _).nonempty
    (Or.inl ⟨rfl, rfl, rfl⟩) with ⟨hnil, -, -⟩ | hhead
  · exact Or.inl hnil
  · exact Or.inr hhead

theorem match_head {b : OrderBook} (h : RepInv b) (amb : Ambient) (o : Order) :
    StartsAtHead b o (b.matchIncoming amb o).1 :=
  matchIncoming_rule (P := fun fills _ => StartsAtHead b o fills)
    (Q := fun fills _ => StartsAtHead b o fills) (Or.inl rfl) (fun crosses => sweep_head h amb o crosses)
    (fun _ _ hP => hP) (fun _ _ hP => hP) (fun _ _ hQ => hQ)

/-! ## The truth -/

def Emits (events : List OrderEvent) (type : EventType) : Prop :=
  ∃ event ∈ events, event.type = type

/-- What the events of a call should say about its order. -/
structure Truthful (e : MatchingEngine) (env : SubmitEnv) (o : Order) : Prop where
  /-- It is reported as resting if and only if something of it rests. -/
  resting : Emits (e.submit env o).2.events .orderResting
    ↔ ∃ x ∈ allOrders ((e.submit env o).1.bookOf o.symbol),
        x.orderId = o.orderId ∧ 0 < x.remainingQuantity
  /-- Only the trade that completes it is reported as filling it. -/
  filled : ∀ event ∈ (e.submit env o).2.events, event.type = .orderFilled →
    ∃ pre f post, (e.submit env o).2.executed = pre ++ f :: post
      ∧ event.trade = some f.trade ∧ filled (pre ++ [f]) = o.quantity
  /-- Every other one is reported as filling it in part. -/
  partiallyFilled : ∀ pre f post, (e.submit env o).2.executed = pre ++ f :: post →
    Proof.filled (pre ++ [f]) ≠ o.quantity →
    ∃ event ∈ (e.submit env o).2.events,
      event.type = .orderPartiallyFilled ∧ event.trade = some f.trade
  /-- It is rejected if and only if it does not get to the book, -/
  rejected : Emits (e.submit env o).2.events .orderRejected ↔ ¬ Admitted e o
  /-- and then that is all. -/
  alone : Emits (e.submit env o).2.events .orderRejected → (e.submit env o).2.events.length = 1

/-- The outcome that the engine's choice of events describes: the order is filled by the
order at the head of the other side; or it trades nothing, and rests if and only if it is
a limit order. -/
structure Plain (b : OrderBook) (o : Order) : Prop where
  whole : WouldFill b o →
    ∃ y rest, b.resting o.side.opposite = y :: rest ∧ o.quantity ≤ y.remainingQuantity
  limit : ¬ WouldFill b o → o.type = .limit → 0 < o.quantity
  ioc : ¬ WouldFill b o → o.type = .ioc → o.price = 0 → o.quantity ≤ 0

theorem notResting_fresh {e : MatchingEngine} (hinv : EngineInv e []) {o : Order}
    (hfresh : o.orderId ∉ e.riskEngine.seenOrderIds) :
    NotResting (e.bookOf o.symbol) o.orderId := by
  intro x hx hid
  have hseen := ((hinv.bookOf o.symbol).tracked hx).seen
  rw [hid] at hseen
  exact hfresh hseen

/-- With nothing left to trade after it, a fill of the whole quantity is the only one. -/
theorem whole_fill {b : OrderBook} (hrep : RepInv b) (amb : Ambient) {o : Order}
    (hfresh : NotResting b o.orderId) {f : Fill} {tail : List Fill}
    (hfills : (b.matchIncoming amb o).1 = f :: tail) (hqty : f.trade.quantity = o.remainingQuantity) :
    tail = [] := by
  have hle := match_own_le hrep amb hfresh
  have hcall := match_callBy hrep amb o
  have hopen : 0 ≤ openQty Order.orderId o.orderId (allOrders (b.matchIncoming amb o).2) := by
    have hrep' := (matchInv hrep amb hfresh).rep
    exact openQty_sublist (List.nil_sublist _) (fun x hx => hrep'.positive hx)
  rw [traded_own hrep amb] at hle
  rw [hfills] at hle hcall
  have hpos := (hcall f (List.mem_cons_self ..)).2.2.2
  cases tail with
  | nil => rfl
  | cons g tail =>
      have hg := (hcall g (List.mem_cons_of_mem _ (List.mem_cons_self ..))).2.2.2
      have hrest : 0 ≤ filled tail := filled_nonneg (fun x hx =>
        (hcall x (List.mem_cons_of_mem _ (List.mem_cons_of_mem _ hx))).2.2.2)
      simp only [filled, List.map_cons, List.sum_cons] at hle hrest
      omega

/-- What a call does with an order it admits. -/
structure Processed (e : MatchingEngine) (env : SubmitEnv) (o : Order) : Prop where
  executed : (e.submit env o).2.executed = fillsFor e env o
  book : (e.submit env o).1.bookOf o.symbol = ((e.bookOf o.symbol).matchIncoming env.amb o).2
  events : ∀ event ∈ (e.submit env o).2.events, event = OrderEvent.received o
    ∨ (∃ f ∈ fillsFor e env o, event = OrderEvent.filled o f.trade)
    ∨ (event = OrderEvent.resting o ∧ o.type = .limit ∧ fillsFor e env o = [])
  rests : o.type = .limit → fillsFor e env o = [] →
    OrderEvent.resting o ∈ (e.submit env o).2.events

theorem processed {e : MatchingEngine} (hinv : EngineInv e []) {env : SubmitEnv} {o : Order}
    {r' : RiskEngine} (hap : Approval e.riskEngine o r')
    (heq : e.submit env o = { e with riskEngine := r' }.process env o) : Processed e env o := by
  obtain ⟨hengine, hexec⟩ := process_engine (hinv.approve hap).stops env o
  have hfills : fillsFor { e with riskEngine := r' } env o = fillsFor e env o := rfl
  refine ⟨?_, ?_, ?_, ?_⟩
  · rw [heq]; exact hexec
  · rw [heq, hengine, bookOf_afterMatch, if_pos rfl]; rfl
  · rw [heq, ← hfills]; exact fun event he => mem_process_events he
  · rw [heq, ← hfills]; exact resting_mem_process_events

section Admitted

variable {e : MatchingEngine} (hinv : EngineInv e []) {env : SubmitEnv} {o : Order}
  (hc : o.Created) (hfresh : o.orderId ∉ e.riskEngine.seenOrderIds) (h : Processed e env o)

include h in
theorem Processed.emits_resting :
    Emits (e.submit env o).2.events .orderResting ↔ o.type = .limit ∧ fillsFor e env o = [] := by
  constructor
  · intro hemits
    obtain ⟨event, he, ht⟩ := hemits
    rcases h.events event he with rfl | ⟨f, -, rfl⟩ | ⟨-, hrest⟩
    · cases ht
    · cases ht
    · exact hrest
  · intro hrest
    exact ⟨_, h.rests hrest.1 hrest.2, rfl⟩

include h in
theorem Processed.not_emits {type : EventType} (hr : type ≠ .orderReceived)
    (hf : type ≠ .orderFilled) (hs : type ≠ .orderResting) :
    ¬ Emits (e.submit env o).2.events type := by
  intro hemits
  obtain ⟨event, he, ht⟩ := hemits
  rcases h.events event he with rfl | ⟨f, -, rfl⟩ | ⟨rfl, -⟩
  · exact hr ht.symm
  · exact hf ht.symm
  · exact hs ht.symm

include hinv hc hfresh h in
/-- The order rests, by what the call did. -/
theorem Processed.rests_iff :
    (∃ x ∈ allOrders ((e.submit env o).1.bookOf o.symbol),
        x.orderId = o.orderId ∧ 0 < x.remainingQuantity)
      ↔ filled (fillsFor e env o) < o.quantity
        ∧ (o.type = .limit ∨ o.type = .ioc ∧ o.price = 0) := by
  have hbook := (hinv.bookOf o.symbol).rep
  have hnot := notResting_fresh hinv hfresh
  have hrests := Proof.rests_iff hbook env.amb hnot
  have hrep := (matchInv hbook env.amb hnot).rep
  rw [hc.remainingQuantity_eq] at hrests
  rw [h.book, fillsFor, ← hrests]
  constructor
  · intro hx
    obtain ⟨x, hx, hid, -⟩ := hx
    exact ⟨x, hx, hid⟩
  · intro hx
    obtain ⟨x, hx, hid⟩ := hx
    exact ⟨x, hx, hid, hrep.positive hx⟩

include hinv hc hfresh h in
theorem Processed.plain (ht : Truthful e env o) : Plain (e.bookOf o.symbol) o where
  whole := by
    intro hw
    have hbook := (hinv.bookOf o.symbol).rep
    have hne := (match_fills_iff hbook env.amb o).mpr hw
    rcases match_head hbook env.amb o with hnil | ⟨y, rest, f, tail, hy, hfills, hqty⟩
    · exact absurd hnil hne
    · refine ⟨y, rest, hy, ?_⟩
      -- otherwise the first trade is partial, and no event says so
      by_contra hlt
      rw [hc.remainingQuantity_eq, min_eq_right (by omega)] at hqty
      obtain ⟨event, he, htype, -⟩ := ht.partiallyFilled [] f tail
        (by rw [h.executed]; exact hfills) (by simp only [filled, List.nil_append, List.map_cons,
          List.map_nil, List.sum_cons, List.sum_nil]; omega)
      exact h.not_emits (by decide) (by decide) (by decide) ⟨event, he, htype⟩
  limit := by
    intro hw htype
    have hnil : fillsFor e env o = [] := match_fills_nil (hinv.bookOf o.symbol).rep env.amb hw
    have hrests := ht.resting.mp (h.emits_resting.mpr ⟨htype, hnil⟩)
    have hlt := ((h.rests_iff hinv hc hfresh).mp hrests).1
    rw [hnil] at hlt
    exact hlt
  ioc := by
    intro hw htype hprice
    have hnil : fillsFor e env o = [] := match_fills_nil (hinv.bookOf o.symbol).rep env.amb hw
    by_contra hlt
    have hrests := (h.rests_iff hinv hc hfresh).mpr
      ⟨by rw [hnil]; exact not_le.mp hlt, Or.inr ⟨htype, hprice⟩⟩
    have hlimit := (h.emits_resting.mp (ht.resting.mpr hrests)).1
    rw [htype] at hlimit
    cases hlimit

include hinv hc hfresh in
/-- In a plain outcome nothing is traded, or one trade fills the order. -/
theorem Plain.fills (env : SubmitEnv) (hp : Plain (e.bookOf o.symbol) o) :
    (fillsFor e env o = [] ∧ ¬ WouldFill (e.bookOf o.symbol) o)
      ∨ ∃ f, fillsFor e env o = [f] ∧ f.trade.quantity = o.quantity := by
  have hbook := (hinv.bookOf o.symbol).rep
  by_cases hw : WouldFill (e.bookOf o.symbol) o
  · refine Or.inr ?_
    obtain ⟨y, rest, hy, hle⟩ := hp.whole hw
    rcases match_head hbook env.amb o with hnil | ⟨y', rest', f, tail, hy', hfills, hqty⟩
    · exact absurd hnil ((match_fills_iff hbook env.amb o).mpr hw)
    · rw [hy] at hy'
      cases hy'
      rw [hc.remainingQuantity_eq, min_eq_left hle] at hqty
      have htail := whole_fill hbook env.amb (notResting_fresh hinv hfresh) hfills
        (by rw [hc.remainingQuantity_eq, hqty])
      exact ⟨f, by rw [fillsFor, hfills, htail], hqty⟩
  · exact Or.inl ⟨match_fills_nil hbook env.amb hw, hw⟩

include hinv hc hfresh h in
theorem Processed.truthful_resting (hp : Plain (e.bookOf o.symbol) o) :
    Emits (e.submit env o).2.events .orderResting
      ↔ ∃ x ∈ allOrders ((e.submit env o).1.bookOf o.symbol),
          x.orderId = o.orderId ∧ 0 < x.remainingQuantity := by
  rw [h.emits_resting, h.rests_iff hinv hc hfresh]
  rcases hp.fills hinv hc hfresh env with ⟨hnil, hw⟩ | ⟨f, hone, hqty⟩
  · rw [hnil]
    constructor
    · intro hr
      exact ⟨hp.limit hw hr.1, Or.inl hr.1⟩
    · intro hr
      obtain ⟨hlt, hl | ⟨hioc, hprice⟩⟩ := hr
      · exact ⟨hl, rfl⟩
      · exact absurd hlt (not_lt.mpr (hp.ioc hw hioc hprice))
  · rw [hone]
    have hsum : filled [f] = o.quantity := by simp [filled, hqty]
    constructor
    · intro hr
      cases hr.2
    · intro hr
      omega

include hinv hc hfresh h in
theorem Processed.truthful (ha : Admitted e o) (hp : Plain (e.bookOf o.symbol) o) :
    Truthful e env o := by
  have hcases := hp.fills hinv hc hfresh env
  have hnorej : ¬ Emits (e.submit env o).2.events .orderRejected :=
    h.not_emits (by decide) (by decide) (by decide)
  refine ⟨h.truthful_resting hinv hc hfresh hp, ?_, ?_,
    ⟨fun hr => absurd hr hnorej, fun hna => absurd ha hna⟩, fun hr => absurd hr hnorej⟩
  · intro event he htype
    rcases h.events event he with rfl | ⟨f, hf, rfl⟩ | ⟨rfl, -⟩
    · cases htype
    · rcases hcases with ⟨hnil, -⟩ | ⟨g, hone, hqty⟩
      · rw [hnil] at hf
        cases hf
      · rw [hone] at hf
        obtain rfl := List.mem_singleton.mp hf
        exact ⟨[], f, [], by rw [h.executed, hone]; rfl, rfl, by simp [filled, hqty]⟩
    · cases htype
  · intro pre f post hcut hne
    rw [h.executed] at hcut
    rcases hcases with ⟨hnil, -⟩ | ⟨g, hone, hqty⟩
    · rw [hnil] at hcut
      exact absurd hcut.symm (by simp)
    · -- the only trade is the one that fills the order
      rw [hone] at hcut
      rcases List.append_eq_singleton_iff.mp hcut.symm with ⟨rfl, hf⟩ | ⟨-, hnone⟩
      · cases hf
        exact absurd (by simp [filled, hqty]) hne
      · cases hnone

end Admitted

/-! ## All orders -/

/-- The call does not wait for the breaker, and the outcome is a plain one. -/
structure Reportable (e : MatchingEngine) (o : Order) : Prop where
  returns : e.halted = true ∨ e.riskEngine.circuitBreaker.held = false
  plain : Admitted e o → Plain (e.bookOf o.symbol) o

theorem truthful_refused {e : MatchingEngine} (hinv : EngineInv e []) {env : SubmitEnv} {o : Order}
    (hfresh : o.orderId ∉ e.riskEngine.seenOrderIds) (hna : ¬ Admitted e o)
    (hbooks : (e.submit env o).1.books = e.books) (hexec : (e.submit env o).2.executed = [])
    {reason : String} (hevents : (e.submit env o).2.events = [OrderEvent.rejected o reason]) :
    Truthful e env o := by
  have hother : ∀ type, type ≠ .orderRejected → ¬ Emits (e.submit env o).2.events type := by
    intro type hne hemits
    obtain ⟨event, he, rfl⟩ := hemits
    rw [hevents] at he
    rw [List.mem_singleton.mp he] at hne
    exact hne rfl
  refine ⟨⟨fun hr => absurd hr (hother _ (by decide)), fun hr => ?_⟩, ?_, ?_, ⟨fun _ => hna, fun _ => ?_⟩,
    fun _ => by rw [hevents]; rfl⟩
  · obtain ⟨x, hx, hid, -⟩ := hr
    rw [bookOf_of_books hbooks] at hx
    exact absurd hid (notResting_fresh hinv hfresh x hx)
  · exact fun event he ht => absurd ⟨event, he, ht⟩ (hother _ (by decide))
  · intro pre f post hcut
    rw [hexec] at hcut
    exact absurd hcut.symm (by simp)
  · exact ⟨_, by rw [hevents]; exact List.mem_singleton_self _, rfl⟩

/--
**When the events tell the truth.** In every state an engine can get into, the events of a
`submit` with a fresh id are truthful if and only if the call does not wait for the breaker
and, if the order is admitted, the outcome is a plain one.
-/
theorem events_truthful_iff (ops : List EngineOp) (env : SubmitEnv) {o : Order} (hc : o.Created)
    (hfresh : o.orderId ∉ (marketAfter ops).engine.riskEngine.seenOrderIds) :
    Truthful (marketAfter ops).engine env o ↔ Reportable (marketAfter ops).engine o := by
  have hinv := engineInv_reachable ops
  rcases submit_report (marketAfter ops).engine env o with
    ⟨hrun, hheld, -, -, hevents⟩ | ⟨hret, hna, hbooks, hexec, reason, hevents⟩ | ⟨ha, r', hap, heq⟩
  · -- the call waits, and reports nothing
    have hna : ¬ Admitted (marketAfter ops).engine o := by
      intro ha
      exact absurd (ha.2.free.symm.trans hheld) (by decide)
    constructor
    · intro ht
      obtain ⟨event, he, -⟩ := ht.rejected.mpr hna
      rw [hevents] at he
      cases he
    · intro hr
      rcases hr.returns with hh | hfree
      · exact absurd (hrun.symm.trans hh) (by decide)
      · exact absurd (hheld.symm.trans hfree) (by decide)
  · exact ⟨fun _ => ⟨hret, fun ha => absurd ha hna⟩,
      fun _ => truthful_refused hinv hfresh hna hbooks hexec hevents⟩
  · have hproc := processed hinv hap heq
    exact ⟨fun ht => ⟨Or.inr ha.2.free, fun _ => hproc.plain hinv hc hfresh ht⟩,
      fun hr => hproc.truthful hinv hc hfresh ha (hr.plain ha)⟩

/-- Four to sell. -/
def fourToSell : List EngineOp :=
  [.submit stillEnv (Order.create "s" 0 "A" "AAPL" .sell .limit 10000000000 0 4)]

/-- A buy of another account at the same price. -/
def buyAt (quantity : Int) : Order :=
  Order.create "b" 0 "B" "AAPL" .buy .limit 10000000000 0 quantity

/-- A buy of three is filled by the sell, and the events say so. -/
theorem events_truthful_whole :
    ((marketAfter fourToSell).engine.submit stillEnv (buyAt 3)).2.events.map OrderEvent.type
        = [.orderReceived, .orderFilled]
      ∧ Truthful (marketAfter fourToSell).engine stillEnv (buyAt 3) := by
  refine ⟨by decide, (events_truthful_iff fourToSell stillEnv (Order.created_create ..)
    (by decide)).mpr ⟨by decide, fun _ => ⟨fun _ => ?_, fun hn => ?_, fun _ ht => ?_⟩⟩⟩
  · exact ⟨(Order.create "s" 0 "A" "AAPL" .sell .limit 10000000000 0 4), [], by decide, by decide⟩
  · exact fun _ => by decide
  · cases ht

/-- A buy of ten takes the four and rests with six: it is reported as filled, and not as
resting. -/
theorem events_not_truthful_partial_fill :
    ((marketAfter fourToSell).engine.submit stillEnv (buyAt 10)).2.events.map OrderEvent.type
        = [.orderReceived, .orderFilled]
      ∧ ((((marketAfter fourToSell).engine.submit stillEnv (buyAt 10)).1.bookOf "AAPL").resting
          .buy).map (fun x => (x.orderId, x.remainingQuantity)) = [("b", 6)]
      ∧ ¬ Truthful (marketAfter fourToSell).engine stillEnv (buyAt 10) := by
  refine ⟨by decide, by decide, fun ht => ?_⟩
  have hemits := ht.resting.mpr (by decide)
  unfold Emits at hemits
  exact absurd hemits (by decide)

end TitanX.Proof
