import TitanX.Lib.Greedy
import TitanX.Proof.Crossing
import TitanX.Proof.Delivery

/-!
# A match is a greedy allocation

The reference is `Greedy.shares`: the orders a new order can reach, in priority order, each
filled with the smaller of what is left and what it has. The two loops of `matchMarket` and
`matchLimit`, with their break conditions at the ends of a queue, of a level and of the side,
compute exactly this, for every book and every quantity.

The argument is one invariant of the loops (`AllocInv`): the trades made so far, followed by
the reference on what is left of the order and of the side, are the reference on what there
was at the beginning, and likewise for the orders that stay. A fill moves one item from the
second part to the first; where the loops end there is nothing left to allocate.
-/

namespace TitanX.Proof

open TitanX OrderBook

/-! ## The reference -/

/-- The order with another remaining quantity. -/
def reduceTo (x : Order) (n : Int) : Order := { x with remainingQuantity := n }

theorem divisible_order : Greedy.Divisible Order.remainingQuantity reduceTo :=
  ⟨fun _ _ => rfl, fun _ _ _ => rfl, fun _ => rfl⟩

/-- The greedy allocation of `q` over the orders `L`. -/
def allocate (q : Int) (L : List Order) : List (Order × Int) :=
  Greedy.allocation Order.remainingQuantity q L

/-- `L` with those quantities subtracted and exhausted orders removed. -/
def leftOver (q : Int) (L : List Order) : List Order :=
  Greedy.leftover Order.remainingQuantity reduceTo q L

/-- The trades of an allocation, at the passive orders' prices; `n` counts them. -/
def tradesOf (amb : Ambient) (aggressor : Order) : Nat → List (Order × Int) → List Trade
  | _, [] => []
  | n, s :: shares =>
      Trade.create (amb.tradeId n) (amb.executedAt n) aggressor s.1 s.1.price s.2
        :: tradesOf amb aggressor (n + 1) shares

/-- One order at two times, with another status and update time at most. -/
def SameBut (x y : Order) : Prop :=
  ∃ status updatedAt, y = { x with status := status, updatedAt := updatedAt }

theorem SameBut.refl (x : Order) : SameBut x x := ⟨x.status, x.updatedAt, rfl⟩

theorem SameBut.symm {x y : Order} (h : SameBut x y) : SameBut y x := by
  obtain ⟨status, updatedAt, rfl⟩ := h
  exact ⟨x.status, x.updatedAt, rfl⟩

theorem SameBut.trans {x y z : Order} (h : SameBut x y) (h' : SameBut y z) : SameBut x z := by
  obtain ⟨_, _, rfl⟩ := h
  obtain ⟨status, updatedAt, rfl⟩ := h'
  exact ⟨status, updatedAt, rfl⟩

theorem SameBut.remainingQuantity {x y : Order} (h : SameBut x y) :
    y.remainingQuantity = x.remainingQuantity := by
  obtain ⟨_, _, rfl⟩ := h
  rfl

theorem SameBut.price {x y : Order} (h : SameBut x y) : y.price = x.price := by
  obtain ⟨_, _, rfl⟩ := h
  rfl

theorem SameBut.reduceTo {x y : Order} (h : SameBut x y) (n : Int) :
    SameBut (reduceTo x n) (reduceTo y n) := by
  obtain ⟨status, updatedAt, rfl⟩ := h
  exact ⟨status, updatedAt, rfl⟩

/-- What a partial fill makes of an order. -/
theorem sameBut_withRemainingQuantity (x : Order) (n now : Int) :
    SameBut (reduceTo x n) (x.withRemainingQuantity n now) := ⟨x.statusFor n, now, rfl⟩

theorem forall₂_sameBut_refl (L : List Order) : List.Forall₂ SameBut L L :=
  List.forall₂_same.mpr (fun x _ => SameBut.refl x)

theorem forall₂_sameBut_symm {L M : List Order} (h : List.Forall₂ SameBut L M) :
    List.Forall₂ SameBut M L :=
  (h.imp (fun _ _ hxy => hxy.symm)).flip

theorem forall₂_sameBut_trans {L M N : List Order} (h : List.Forall₂ SameBut L M)
    (h' : List.Forall₂ SameBut M N) : List.Forall₂ SameBut L N := by
  induction h generalizing N with
  | nil => exact h'
  | cons hxy _ ih =>
      obtain ⟨z, N', hyz, hrest, rfl⟩ := List.forall₂_cons_left_iff.mp h'
      exact .cons (hxy.trans hyz) (ih hrest)

/-! ## What an order can reach -/

/-- The orders at prices that cross. -/
def reachable (crosses : Int → Bool) (L : List Order) : List Order :=
  L.filter (fun x => crosses x.price)

/-- The orders at prices that do not. -/
def beyond (crosses : Int → Bool) (L : List Order) : List Order :=
  L.filter (fun x => !crosses x.price)

section Reach

variable {crosses : Int → Bool} {x : Order} {L : List Order}

theorem reachable_cons_of_crosses (h : crosses x.price = true) :
    reachable crosses (x :: L) = x :: reachable crosses L := List.filter_cons_of_pos h

theorem beyond_cons_of_crosses (h : crosses x.price = true) :
    beyond crosses (x :: L) = beyond crosses L := List.filter_cons_of_neg (by simp [h])

theorem mem_reachable : x ∈ reachable crosses L ↔ x ∈ L ∧ crosses x.price = true :=
  List.mem_filter

/-- If what crosses comes first, the list is the two parts one after the other. -/
theorem reachable_append_beyond
    (h : L.Pairwise (fun x y => crosses y.price = true → crosses x.price = true)) :
    reachable crosses L ++ beyond crosses L = L := by
  induction L with
  | nil => rfl
  | cons x L ih =>
      obtain ⟨hx, hrest⟩ := List.pairwise_cons.mp h
      by_cases hc : crosses x.price = true
      · rw [reachable_cons_of_crosses hc, beyond_cons_of_crosses hc, List.cons_append, ih hrest]
      · -- `x` does not cross, so nothing behind it does
        have hnone : ∀ y ∈ x :: L, crosses y.price = false := by
          intro y hy
          rcases List.mem_cons.mp hy with rfl | hy
          · simpa using hc
          · by_contra hy'
            exact hc (hx y hy (by simpa using hy'))
        have hreach : reachable crosses (x :: L) = [] :=
          List.filter_eq_nil_iff.mpr (fun y hy => by simp [hnone y hy])
        have hbeyond : beyond crosses (x :: L) = x :: L :=
          List.filter_eq_self.mpr (fun y hy => by simp [hnone y hy])
        rw [hreach, hbeyond, List.nil_append]

end Reach

/-- A side in priority order has its prices in order. -/
theorem prices_pairwise {s : OrderSide} {ls : Levels} (h : SideOk s ls)
    (hsorted : ls.Pairwise (fun a b => better s a.1 b.1)) :
    (Levels.orders ls).Pairwise (fun x y => better s x.price y.price ∨ x.price = y.price) := by
  induction ls with
  | nil => exact List.Pairwise.nil
  | cons l ls ih =>
      obtain ⟨p, queue⟩ := l
      obtain ⟨hbest, hrest⟩ := List.pairwise_cons.mp hsorted
      have hprice : ∀ x ∈ queue, x.price = p := fun x hx => (h.head x hx).1.2
      rw [orders_cons, List.pairwise_append]
      refine ⟨?_, ih h.tail hrest, ?_⟩
      · refine List.pairwise_of_forall_mem_list ?_
        intro x hx y hy
        exact Or.inr ((hprice x hx).trans (hprice y hy).symm)
      · intro x hx y hy
        obtain ⟨-, l, hl, hly⟩ := h.tail.mem hy
        left
        rw [hprice x hx, ← hly]
        exact hbest l hl

/-- The reachable orders of a side come first. -/
theorem resting_split {b : OrderBook} (h : SidesOk b) {s : OrderSide} {crosses : Int → Bool}
    (hm : CrossMono s crosses) :
    reachable crosses (b.resting s) ++ beyond crosses (b.resting s) = b.resting s := by
  refine reachable_append_beyond ((prices_pairwise (h s) (b.levels s).sorted).imp ?_)
  rintro x y (hxy | hxy) hy
  · exact hm _ _ hxy hy
  · rw [hxy]; exact hy

/-! ## The loops -/

/-- What the loops keep: the trades so far and the reference on the rest are `T`, and the
orders that will stay are `R`. -/
structure AllocInv (amb : Ambient) (s : OrderSide) (aggressor : Order) (crosses : Int → Bool)
    (T : List Trade) (R : List Order) (ls : Levels) (st : Sweep) : Prop where
  side : SideOk s ls
  nonneg : 0 ≤ st.remainingQty
  trades : st.fills.map Fill.trade ++ tradesOf amb aggressor st.fills.length
    (allocate st.remainingQty (reachable crosses (Levels.orders ls))) = T
  rest : List.Forall₂ SameBut R (leftOver st.remainingQty (reachable crosses (Levels.orders ls))
    ++ beyond crosses (Levels.orders ls))

theorem reachable_positive {s : OrderSide} {ls : Levels} (h : SideOk s ls) (crosses : Int → Bool) :
    ∀ x ∈ reachable crosses (Levels.orders ls), 0 < x.remainingQuantity :=
  fun x hx => h.positive x (mem_reachable.mp hx).1

/-- Nothing left to allocate. -/
theorem allocate_zero {L : List Order} (h : ∀ x ∈ L, 0 < x.remainingQuantity) :
    allocate 0 L = [] := Greedy.allocation_zero h

theorem leftOver_zero {L : List Order} (h : ∀ x ∈ L, 0 < x.remainingQuantity) :
    leftOver 0 L = L := Greedy.leftover_zero h divisible_order

/-- What a fill does, of all that the reference speaks about. -/
structure FrontFill (amb : Ambient) (aggressor : Order) (p : Int) (passive : Order) (st : Sweep)
    (updated : Order) (st' : Sweep) : Prop where
  updated : updated = passive.withRemainingQuantity
    (passive.remainingQuantity - min st.remainingQty passive.remainingQuantity)
    (amb.updatedAt st.fills.length)
  remainingQty : st'.remainingQty
    = st.remainingQty - min st.remainingQty passive.remainingQuantity
  trades : st'.fills.map Fill.trade = st.fills.map Fill.trade ++ [Trade.create
    (amb.tradeId st.fills.length) (amb.executedAt st.fills.length) aggressor passive p
    (min st.remainingQty passive.remainingQuantity)]
  length : st'.fills.length = st.fills.length + 1

theorem frontFill (amb : Ambient) (aggressor : Order) (p : Int) (passive : Order)
    (rest : List Order) (behind : Levels) (st : Sweep) :
    FrontFill amb aggressor p passive st (fillFront amb aggressor p passive rest behind st).1
      (fillFront amb aggressor p passive rest behind st).2 where
  updated := rfl
  remainingQty := rfl
  trades := by rw [fillFront, List.map_append]; rfl
  length := by rw [fillFront, List.length_append]; rfl

section Fill

variable {amb : Ambient} {s : OrderSide} {aggressor : Order} {crosses : Int → Bool}
  {T : List Trade} {R : List Order} {p : Int} {passive : Order} {rest : List Order}
  {behind : Levels} {st : Sweep}
  (h : AllocInv amb s aggressor crosses T R ((p, passive :: rest) :: behind) st)
  (hc : crosses p = true) (hrem : 0 < st.remainingQty)

include h hc

theorem AllocInv.price_crosses : crosses passive.price = true := by
  rw [(h.side.head passive (List.mem_cons_self ..)).1.2]
  exact hc

omit hc in
theorem AllocInv.behind_positive :
    ∀ x ∈ reachable crosses (rest ++ Levels.orders behind), 0 < x.remainingQuantity := by
  intro x hx
  refine h.side.positive x ?_
  rw [orders_cons]
  exact List.mem_cons_of_mem _ (mem_reachable.mp hx).1

/-- The orders that will stay, with the order in front apart. -/
theorem AllocInv.rest_front :
    List.Forall₂ SameBut R
      (leftOver st.remainingQty (passive :: reachable crosses (rest ++ Levels.orders behind))
        ++ beyond crosses (rest ++ Levels.orders behind)) := by
  have hcross := h.price_crosses hc
  have hrest := h.rest
  rw [orders_cons, List.cons_append, reachable_cons_of_crosses hcross,
    beyond_cons_of_crosses hcross] at hrest
  exact hrest

include hrem

/-- The trades, with the first one still to come apart. -/
theorem AllocInv.trades_front :
    st.fills.map Fill.trade ++ Trade.create (amb.tradeId st.fills.length)
        (amb.executedAt st.fills.length) aggressor passive p
        (min st.remainingQty passive.remainingQuantity)
      :: tradesOf amb aggressor (st.fills.length + 1)
        (allocate (st.remainingQty - min st.remainingQty passive.remainingQuantity)
          (reachable crosses (rest ++ Levels.orders behind))) = T := by
  obtain ⟨⟨-, hprice⟩, hpos⟩ := h.side.head passive (List.mem_cons_self ..)
  have htrades := h.trades
  rw [orders_cons, List.cons_append, reachable_cons_of_crosses (h.price_crosses hc), allocate,
    Greedy.allocation_cons_pos hrem hpos, tradesOf, hprice] at htrades
  exact htrades

variable {updated : Order} {st' : Sweep} (hf : FrontFill amb aggressor p passive st updated st')

include hf

omit hc hrem in
theorem AllocInv.side_afterFill : SideOk s (afterFill p updated rest behind) := by
  rw [hf.updated]
  exact sideOk_afterFill h.side (versionOf_withRemainingQuantity _ _ _)

/-- Partly filled: the new order is used up, and so is the reference. -/
theorem AllocInv.partly (hlt : st.remainingQty < passive.remainingQuantity) :
    AllocInv amb s aggressor crosses T R (afterFill p updated rest behind) st' := by
  have hK := h.behind_positive
  have hmin : min st.remainingQty passive.remainingQuantity = st.remainingQty :=
    min_eq_left (le_of_lt hlt)
  have htrades := h.trades_front hc hrem
  have hrest := h.rest_front hc
  have hupdated := hf.updated
  have hqty := hf.remainingQty
  rw [hmin] at hupdated
  rw [hmin, Int.sub_self] at hqty htrades
  rw [allocate_zero hK] at htrades
  rw [leftOver, Greedy.leftover_cons_of_lt hlt] at hrest
  have hleft : updated.remainingQuantity > 0 := by
    rw [hupdated, Order.withRemainingQuantity_remainingQuantity]
    omega
  have hcross : crosses updated.price = true := by
    rw [hupdated, Order.withRemainingQuantity_price]
    exact h.price_crosses hc
  have hside := h.side_afterFill hf
  have horders := orders_afterFill p updated rest behind
  rw [if_pos hleft] at horders
  have hpos := reachable_positive hside crosses
  refine ⟨hside, by omega, ?_, ?_⟩
  · rw [hqty, allocate_zero hpos, hf.trades, hmin, ← htrades]
    exact List.append_nil _
  · rw [hqty, leftOver_zero hpos, horders, reachable_cons_of_crosses hcross,
      beyond_cons_of_crosses hcross]
    refine forall₂_sameBut_trans hrest ?_
    change List.Forall₂ SameBut (_ :: leftOver 0 _ ++ _) _
    rw [leftOver_zero hK, hupdated]
    exact .cons (sameBut_withRemainingQuantity _ _ _) (forall₂_sameBut_refl _)

/-- Used up: the next item is next in the reference as well. -/
theorem AllocInv.usedUp (hle : passive.remainingQuantity ≤ st.remainingQty) :
    AllocInv amb s aggressor crosses T R (afterFill p updated rest behind) st' := by
  have hmin : min st.remainingQty passive.remainingQuantity = passive.remainingQuantity :=
    min_eq_right hle
  have htrades := h.trades_front hc hrem
  have hrest := h.rest_front hc
  have hupdated := hf.updated
  have hqty := hf.remainingQty
  rw [hmin] at hupdated hqty htrades
  rw [leftOver, Greedy.leftover_cons_of_le hle] at hrest
  have hleft : ¬ updated.remainingQuantity > 0 := by
    rw [hupdated, Order.withRemainingQuantity_remainingQuantity]
    omega
  have hside := h.side_afterFill hf
  have horders := orders_afterFill p updated rest behind
  rw [if_neg hleft] at horders
  refine ⟨hside, by omega, ?_, ?_⟩
  · rw [horders, hqty, hf.trades, hf.length, hmin, ← htrades, List.append_assoc]
    rfl
  · rw [horders, hqty]
    exact hrest

end Fill

/-- **One fill** takes the first step of the reference. -/
theorem allocInv_fill (amb : Ambient) (s : OrderSide) (aggressor : Order) (crosses : Int → Bool)
    (T : List Trade) (R : List Order) :
    KeptByFill amb aggressor crosses (AllocInv amb s aggressor crosses T R) := by
  intro p passive rest behind st hc hrem h
  have hf := frontFill amb aggressor p passive rest behind st
  by_cases hlt : st.remainingQty < passive.remainingQuantity
  · exact h.partly hc hrem hf hlt
  · exact h.usedUp hc hrem hf (by omega)

/-- Where the loops end there is nothing left to allocate: the order is used up, or nothing
is left that it can reach. -/
theorem AllocInv.finished {amb : Ambient} {s : OrderSide} {aggressor : Order}
    {crosses : Int → Bool} {T : List Trade} {R : List Order} {ls : Levels} {st : Sweep}
    (h : AllocInv amb s aggressor crosses T R ls st)
    (hexit : 0 < st.remainingQty → ∀ x ∈ Levels.orders ls, crosses x.price = false)
    (hsplit : reachable crosses (Levels.orders ls) ++ beyond crosses (Levels.orders ls)
      = Levels.orders ls) :
    st.fills.map Fill.trade = T ∧ List.Forall₂ SameBut R (Levels.orders ls) := by
  have hpos := reachable_positive h.side crosses
  have hnonneg := h.nonneg
  have hdone : allocate st.remainingQty (reachable crosses (Levels.orders ls)) = []
      ∧ leftOver st.remainingQty (reachable crosses (Levels.orders ls))
          = reachable crosses (Levels.orders ls) := by
    by_cases hrem : 0 < st.remainingQty
    · have hnone : reachable crosses (Levels.orders ls) = [] :=
        List.filter_eq_nil_iff.mpr (fun x hx => by simp [hexit hrem x hx])
      rw [hnone]
      exact ⟨rfl, rfl⟩
    · have hzero : st.remainingQty = 0 := by omega
      rw [hzero]
      exact ⟨allocate_zero hpos, leftOver_zero hpos⟩
  have htrades := h.trades
  have hrest := h.rest
  rw [hdone.1] at htrades
  rw [hdone.2, hsplit] at hrest
  exact ⟨(List.append_nil _).symm.trans htrades, hrest⟩

/-- **A sweep is a greedy allocation.** -/
theorem sweep_greedy {b : OrderBook} (h : SidesOk b) (amb : Ambient) {aggressor : Order}
    {crosses : Int → Bool} (hm : CrossMono aggressor.side.opposite crosses)
    (hq : 0 ≤ aggressor.remainingQuantity) :
    (b.sweep amb aggressor crosses).1.fills.map Fill.trade
        = tradesOf amb aggressor 0 (allocate aggressor.remainingQuantity
            (reachable crosses (b.resting aggressor.side.opposite)))
      ∧ List.Forall₂ SameBut
          (leftOver aggressor.remainingQuantity
              (reachable crosses (b.resting aggressor.side.opposite))
            ++ beyond crosses (b.resting aggressor.side.opposite))
          ((b.sweep amb aggressor crosses).2.resting aggressor.side.opposite) := by
  have hend := matchSide_rule (allocInv_fill amb aggressor.side.opposite aggressor crosses _ _)
    (b.levels aggressor.side.opposite).entries (sweepStart b aggressor) (h _).nonempty
    ⟨h _, hq, rfl, forall₂_sameBut_refl _⟩
  have hsplit := resting_split (sidesOk_sweep amb aggressor crosses h) hm
  have hexit := sweep_exit h amb hm
  have hres : (b.sweep amb aggressor crosses).2.resting aggressor.side.opposite
      = Levels.orders (sweepLoop b amb aggressor crosses).1 := by
    rw [sweep_resting_opposite]
  rw [sweep_fst] at hexit ⊢
  rw [hres] at hsplit hexit ⊢
  exact hend.finished hexit hsplit

/-- The remainder of a sweep is what the reachable orders do not cover. -/
theorem sweep_remaining {b : OrderBook} (h : SidesOk b) (amb : Ambient) {aggressor : Order}
    {crosses : Int → Bool} (hm : CrossMono aggressor.side.opposite crosses)
    (hrem : 0 < (b.sweep amb aggressor crosses).1.remainingQty) :
    (b.sweep amb aggressor crosses).1.remainingQty
      = aggressor.remainingQuantity - crossing crosses (b.resting aggressor.side.opposite) := by
  have heq := sweep_crossing h amb aggressor crosses
  rw [crossing_eq_zero (sweep_exit h amb hm hrem)] at heq
  omega

/-! ## A whole call -/

/-- The prices an order trades at; any price, for a market order. -/
def crossesAs (o : Order) (p : Int) : Bool := o.type = .market || crossesLimit o p

theorem crossesAs_market {o : Order} (h : o.type = .market) : crossesAs o = fun _ => true := by
  funext p
  simp [crossesAs, h]

theorem crossesAs_limit {o : Order} (h : o.type = .limit) : crossesAs o = crossesLimit o := by
  funext p
  simp [crossesAs, h]

/-- What is asked of a `match` of order `o` on `b`: the trades and the other side are those
of the greedy allocation, and at most the own level of `o` is longer by what is left of it. -/
structure GreedyMatch (b : OrderBook) (amb : Ambient) (o : Order) (fills : List Fill)
    (b' : OrderBook) : Prop where
  trades : fills.map Fill.trade = tradesOf amb o 0 (allocate o.remainingQuantity
    (reachable (crossesAs o) (b.resting o.side.opposite)))
  opposite : List.Forall₂ SameBut
    (leftOver o.remainingQuantity (reachable (crossesAs o) (b.resting o.side.opposite))
      ++ beyond (crossesAs o) (b.resting o.side.opposite)) (b'.resting o.side.opposite)
  /-- No level is empty, and every order is at the level of its price. -/
  wellFormed : RepInv b'
  lastTradePrice : b'.lastTradePrice = lastPrice b.lastTradePrice (fills.map Fill.trade)
  keeps : ¬ (o.type = .limit ∧ crossing (crossesAs o) (b.resting o.side.opposite)
      < o.remainingQuantity) → b'.levels o.side = b.levels o.side
  rests : o.type = .limit →
    crossing (crossesAs o) (b.resting o.side.opposite) < o.remainingQuantity →
    ∃ r, SameBut (reduceTo o (o.remainingQuantity
        - crossing (crossesAs o) (b.resting o.side.opposite))) r
      ∧ ∀ p, (b'.levels o.side).find? p
          = if p = o.price then some (((b.levels o.side).find? o.price).getD [] ++ [r])
            else (b.levels o.side).find? p

section Call

variable {b : OrderBook} (h : RepInv b) (amb : Ambient) {o : Order} (hq : 0 < o.remainingQuantity)

include h hq

theorem greedyMatch_market (ht : o.type = .market) :
    GreedyMatch b amb o (b.matchMarket amb o).1 (b.matchMarket amb o).2 := by
  obtain ⟨htrades, hopp⟩ := sweep_greedy h.side amb (crossMono_all _) (le_of_lt hq)
  rw [← crossesAs_market ht] at htrades hopp
  refine ⟨?_, ?_, ?_, ?_, ?_, ?_⟩
  · rw [← htrades, crossesAs_market ht]; rfl
  · rw [crossesAs_market ht] at hopp ⊢; exact hopp
  · exact repInv_sweep h amb o _
  · exact sweep_lastTradePrice b amb o _
  · intro _
    exact sweep_levels_own b amb o _
  · intro hlimit
    rw [ht] at hlimit
    exact absurd hlimit (by decide)

theorem greedyMatch_limit (ht : o.type = .limit) (hfresh : NotResting b o.orderId) :
    GreedyMatch b amb o (b.matchLimit amb o).1 (b.matchLimit amb o).2 := by
  have hmono := crossMono_limit o
  obtain ⟨htrades, hopp⟩ := sweep_greedy h.side amb hmono (le_of_lt hq)
  have hiff := sweep_remainder_iff h.side amb hmono
  have hrep := repInv_matchLimit h amb hfresh
  have hlast := sweep_lastTradePrice b amb o (crossesLimit o)
  rcases matchLimit_cases b amb o with ⟨hrem, heq⟩ | ⟨hrem, heq⟩
  · -- used up
    rw [heq] at hrep ⊢
    have hcovered := mt hiff.mpr (not_lt.mpr hrem)
    refine ⟨?_, ?_, hrep, hlast, ?_, ?_⟩
    · rw [crossesAs_limit ht]; exact htrades
    · rw [crossesAs_limit ht]; exact hopp
    · intro _
      exact sweep_levels_own b amb o _
    · intro _ hlt
      rw [crossesAs_limit ht] at hlt
      exact absurd hlt hcovered
  · -- the remainder rests
    rw [heq] at hrep ⊢
    have hlt := hiff.mp hrem
    have hne : o.side.opposite ≠ (remainder b amb o).side := o.side.opposite_ne
    have hres : ((b.sweep amb o (crossesLimit o)).2.insertIntoBook (remainder b amb o)).resting
        o.side.opposite = (b.sweep amb o (crossesLimit o)).2.resting o.side.opposite := by
      rw [resting, insert_levels_of_ne _ _ hne, resting]
    refine ⟨?_, ?_, hrep, (lastTradePrice_setLevels ..).trans hlast, ?_, ?_⟩
    · rw [crossesAs_limit ht]; exact htrades
    · rw [crossesAs_limit ht, hres]; exact hopp
    · intro hno
      rw [crossesAs_limit ht] at hno
      exact absurd ⟨ht, hlt⟩ hno
    · intro _ _
      refine ⟨remainder b amb o, ?_, fun p => ?_⟩
      · rw [crossesAs_limit ht, ← sweep_remaining h.side amb hmono hrem]
        exact sameBut_withRemainingQuantity _ _ _
      · have hown := insert_levels_own (b.sweep amb o (crossesLimit o)).2 (remainder b amb o)
        change OrderBook.levels _ o.side = pushBack (OrderBook.levels _ o.side) _ at hown
        rw [hown, sweep_levels_own, pushBack, OrdMap.find?_upsert]
        rfl

/--
**A match is the greedy allocation.** For every well-formed book and every market or limit
order with a new id and something to fill.
-/
theorem match_is_greedy (ht : o.type = .market ∨ o.type = .limit)
    (hfresh : NotResting b o.orderId) :
    GreedyMatch b amb o (b.matchIncoming amb o).1 (b.matchIncoming amb o).2 := by
  unfold matchIncoming
  rcases ht with ht | ht
  · rw [ht]; exact greedyMatch_market h amb hq ht
  · rw [ht]; exact greedyMatch_limit h amb hq ht hfresh

end Call

/-- Two asks at 100 and one at 101, against a limit buy of 12 at 100. -/
def threeAsks : List BookOp :=
  [.matchIncoming still (Order.create "x" 0 "A" "AAPL" .sell .limit 100 0 5),
    .matchIncoming still (Order.create "y" 0 "B" "AAPL" .sell .limit 100 0 4),
    .matchIncoming still (Order.create "z" 0 "C" "AAPL" .sell .limit 101 0 3)]

def buyTwelve : Order := Order.create "b" 0 "D" "AAPL" .buy .limit 100 0 12

theorem match_is_greedy_three_asks :
    (allocate 12 (reachable (crossesAs buyTwelve)
        ((bookAfter "AAPL" threeAsks).resting .sell))).map (fun s => (s.1.orderId, s.2))
        = [("x", 5), ("y", 4)]
      ∧ GreedyMatch (bookAfter "AAPL" threeAsks) still buyTwelve
          ((bookAfter "AAPL" threeAsks).matchIncoming still buyTwelve).1
          ((bookAfter "AAPL" threeAsks).matchIncoming still buyTwelve).2 := by
  have hd : DistinctIds threeAsks := by decide
  have hinv := runInv_reachable "AAPL" hd
  refine ⟨by decide, match_is_greedy hinv.rep still (by decide) (Or.inr rfl) ?_⟩
  exact hinv.notResting (by decide)

end TitanX.Proof
