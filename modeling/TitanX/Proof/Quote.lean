import TitanX.Proof.MarketData

/-!
# The displayed levels price an order

A trader sees levels, not orders: of each price how much rests there. The exchange fills
order by order. For everything that depends on the prices of the fills alone, such as what
is executed at a price or what an order costs, the levels are enough: an order executes as
if each displayed level were one order of its total quantity (`displayed_levels_price`), as
long as the levels listed hold enough for it, or all levels are listed.
-/

namespace TitanX.Proof

open TitanX OrderBook

/-- The orders within reach are the orders of the levels within reach. -/
theorem reachable_orders {s : OrderSide} {ls : Levels} (h : SideOk s ls) (crosses : Int → Bool) :
    reachable crosses (Levels.orders ls)
      = (ls.filter (fun l => crosses l.1)).flatMap Prod.snd := by
  induction ls with
  | nil => rfl
  | cons l ls ih =>
      have hrest : SideOk s ls := ⟨fun l' hl' => h.nonempty l' (List.mem_cons_of_mem _ hl'),
        fun l' hl' => h.keyed l' (List.mem_cons_of_mem _ hl'),
        fun o ho => h.positive o (List.mem_append_right _ ho)⟩
      have hprice : ∀ o ∈ l.2, o.price = l.1 := fun o ho =>
        (h.keyed l (List.mem_cons_self ..) o ho).2
      have hcons : reachable crosses (Levels.orders (l :: ls))
          = reachable crosses l.2 ++ reachable crosses (Levels.orders ls) := List.filter_append ..
      rw [hcons, ih hrest]
      by_cases hc : crosses l.1 = true
      · have hall : reachable crosses l.2 = l.2 :=
          List.filter_eq_self.mpr (fun o ho => by rw [hprice o ho]; exact hc)
        rw [hall, List.filter_cons_of_pos (by exact hc), List.flatMap_cons]
      · have hnone : reachable crosses l.2 = [] :=
          List.filter_eq_nil_iff.mpr (fun o ho => by rw [hprice o ho]; exact hc)
        rw [hnone, List.filter_cons_of_neg (by exact hc), List.nil_append]

theorem passiveWeight_atPrice (g : Int → Int) :
    PassiveWeight (fun t => g t.price) (fun x => g x.price) where
  trade _ _ _ _ _ := rfl
  reduced _ _ := rfl
  same _ _ hxy := by rw [hxy.price]

/-- The types of order whose executions are those of one sweep over the other side. -/
def Sweeps (o : Order) : Prop := o.type = .market ∨ o.type = .limit ∨ o.type = .ioc

theorem match_fills_sweep (b : OrderBook) (amb : Ambient) {o : Order} (ht : Sweeps o) :
    (b.matchIncoming amb o).1 = (b.sweep amb o (crossesAs o)).1.fills := by
  rcases ht with ht | ht | ht
  · rw [matchIncoming_market b amb ht, crossesAs_market ht]
  · have heq : b.matchIncoming amb o = b.matchLimit amb o := by rw [matchIncoming, ht]
    rw [heq, matchLimit_fills, crossesAs_limit ht]
  · have heq : (b.matchIncoming amb o).1 = (b.matchLimit amb o).1 := by rw [matchIncoming, ht]; rfl
    have hcrosses : crossesAs o = crossesLimit o := by
      funext p; rw [crossesAs, ht]; rfl
    rw [heq, matchLimit_fills, hcrosses]

theorem crossMono_crossesAs (o : Order) : CrossMono o.side.opposite (crossesAs o) := by
  by_cases ht : o.type = .market
  · rw [crossesAs_market ht]; exact crossMono_all _
  · have hcrosses : crossesAs o = crossesLimit o := by
      funext p; rw [crossesAs, decide_eq_false ht, Bool.false_or]
    rw [hcrosses]; exact crossMono_limit o

/-- What the fills come to, as a weight of the orders within reach. -/
theorem weigh_match {b : OrderBook} (h : RepInv b) (amb : Ambient) {o : Order} (ht : Sweeps o)
    (hq : 0 ≤ o.remainingQuantity) (g : Int → Int) :
    weigh (fun t => g t.price) (b.matchIncoming amb o).1
      = Greedy.weight Order.remainingQuantity (fun x => g x.price) o.remainingQuantity
          (reachable (crossesAs o) (b.resting o.side.opposite)) := by
  have hgreedy := (sweep_greedy h.side amb (crossMono_crossesAs o) hq).1
  rw [← match_fills_sweep b amb ht] at hgreedy
  have hmap : weigh (fun t => g t.price) (b.matchIncoming amb o).1
      = (((b.matchIncoming amb o).1.map Fill.trade).map
          (fun t => g t.price * t.quantity)).sum := by
    rw [List.map_map]; rfl
  have hpos : ∀ x ∈ reachable (crossesAs o) (b.resting o.side.opposite),
      0 < x.remainingQuantity := reachable_positive (h.side _) _
  rw [hmap, hgreedy, sum_tradesOf amb o (passiveWeight_atPrice g), Greedy.weight_eq_sum hpos hq]
  rfl

/-- The displayed levels that an order reaches. -/
def displayed (b : OrderBook) (depth : Int) (o : Order) : List PriceLevel :=
  ((b.snapshot depth).side o.side.opposite).filter (fun l => crossesAs o l.price)

theorem displayed_eq (b : OrderBook) (depth : Int) (o : Order) :
    displayed b depth o = (((b.levels o.side.opposite).entries.take depth.toNat).filter
      (fun l => crossesAs o l.1)).map priceLevel := by
  rw [displayed, side_snapshot, List.filter_map]; rfl

section Priced

variable {b : OrderBook} (h : RepInv b) (o : Order)
  (hfits : ((b.resting o.side.opposite).map Order.remainingQuantity).sum < 9223372036854775808)

include h hfits

/-- No level holds more than its side, so the displayed totals are exact. -/
theorem levelQuantity_exact {l : Int × List Order}
    (hl : l ∈ (b.levels o.side.opposite).entries) :
    levelQuantity l.2 = (l.2.map Order.remainingQuantity).sum := by
  have hside := h.side o.side.opposite
  have hpos : ∀ x ∈ l.2, 0 < x.remainingQuantity := fun x hx =>
    hside.positive x (mem_orders.mpr ⟨l, hl, hx⟩)
  have hle : (l.2.map Order.remainingQuantity).sum
      ≤ ((b.resting o.side.opposite).map Order.remainingQuantity).sum := by
    obtain ⟨l₁, l₂, hcut⟩ := List.append_of_mem hl
    have hrest : ∀ ls : Levels, ls ⊆ (b.levels o.side.opposite).entries →
        0 ≤ ((Levels.orders ls).map Order.remainingQuantity).sum := fun ls hsub =>
      Greedy.sum_cap_nonneg (fun x hx => by
        obtain ⟨l', hl', hx'⟩ := mem_orders.mp hx
        exact hside.positive x (mem_orders.mpr ⟨l', hsub hl', hx'⟩))
    have h₁ := hrest l₁ (by rw [hcut]; exact List.subset_append_left _ _)
    have h₂ := hrest l₂ (by
      rw [hcut]; exact fun x hx => List.mem_append_right _ (List.mem_cons_of_mem _ hx))
    rw [resting, hcut, orders_append, orders_cons, List.map_append, List.map_append,
      List.sum_append, List.sum_append]
    omega
  have hnn := Greedy.sum_cap_nonneg hpos
  rw [levelQuantity_eq]
  exact wrap64_of_lt (by omega) (by omega)

theorem totals_displayed (depth : Int) :
    ((displayed b depth o).map PriceLevel.totalQuantity)
      = (((b.levels o.side.opposite).entries.take depth.toNat).filter
          (fun l => crossesAs o l.1)).map (fun l => (l.2.map Order.remainingQuantity).sum) := by
  rw [displayed_eq, List.map_map]
  refine List.map_congr_left (fun l hl => ?_)
  exact levelQuantity_exact h o hfits (List.mem_of_mem_take (List.mem_filter.mp hl).1)

theorem weight_displayed (depth q : Int) (g : Int → Int) :
    Greedy.weight PriceLevel.totalQuantity (fun l => g l.price) q (displayed b depth o)
      = Greedy.weight (fun l => (l.2.map Order.remainingQuantity).sum) (fun l => g l.1) q
          (((b.levels o.side.opposite).entries.take depth.toNat).filter
            (fun l => crossesAs o l.1)) := by
  rw [displayed_eq, Greedy.weight_map]
  refine Greedy.weight_congr (fun l hl => ?_)
  exact levelQuantity_exact h o hfits (List.mem_of_mem_take (List.mem_filter.mp hl).1)

/-- What the levels within reach come to is what those displayed come to. -/
theorem weight_levels (depth : Int) {q : Int} (hq : 0 ≤ q) (g : Int → Int)
    (hdepth : q ≤ ((displayed b depth o).map PriceLevel.totalQuantity).sum
      ∨ (b.levels o.side.opposite).entries.length ≤ depth.toNat) :
    Greedy.weight (fun l => (l.2.map Order.remainingQuantity).sum) (fun l => g l.1) q
        ((b.levels o.side.opposite).entries.filter (fun l => crossesAs o l.1))
      = Greedy.weight PriceLevel.totalQuantity (fun l => g l.price) q (displayed b depth o) := by
  have hside := h.side o.side.opposite
  have hpos : ∀ l ∈ (b.levels o.side.opposite).entries,
      0 < (l.2.map Order.remainingQuantity).sum := by
    intro l hl
    have hall : ∀ x ∈ l.2, 0 < x.remainingQuantity := fun x hx =>
      hside.positive x (mem_orders.mpr ⟨l, hl, hx⟩)
    obtain ⟨x, rest, hcons⟩ := List.exists_cons_of_ne_nil (hside.nonempty l hl)
    rw [hcons] at hall ⊢
    have hrest := Greedy.sum_cap_nonneg (fun y hy => hall y (List.mem_cons_of_mem _ hy))
    have hx := hall x (List.mem_cons_self ..)
    rw [List.map_cons, List.sum_cons]
    omega
  rw [weight_displayed h o hfits]
  rcases hdepth with henough | hall
  · -- the levels that are not displayed get nothing
    rw [totals_displayed h o hfits] at henough
    conv_lhs => rw [← List.take_append_drop depth.toNat (b.levels o.side.opposite).entries,
      List.filter_append]
    rw [Greedy.weight_append (fun l hl => hpos l (List.mem_of_mem_take (List.mem_filter.mp hl).1)) hq,
      min_eq_left henough, Int.sub_self,
      Greedy.weight_zero (fun l hl => hpos l (List.mem_of_mem_drop (List.mem_filter.mp hl).1)),
      Int.add_zero]
  · rw [List.take_of_length_le hall]

end Priced

/--
**The displayed levels price an order.** Let a market, limit or immediate-or-cancel order
meet a reachable book. Whatever is counted per price and quantity executed comes out as if
the quantity were handed out to the displayed levels in order, each up to its total: so what
is executed at every price, and what it costs, can be told from a snapshot. The snapshot has
to list all levels, or enough of them for the order.
-/
theorem displayed_levels_price (symbol : String) {ops : List BookOp} (h : DistinctIds ops)
    (amb : Ambient) (o : Order) (ht : Sweeps o) (hq : 0 ≤ o.remainingQuantity) (depth : Int)
    (hfits : (((bookAfter symbol ops).resting o.side.opposite).map
      Order.remainingQuantity).sum < 9223372036854775808)
    (hdepth : o.remainingQuantity
        ≤ ((displayed (bookAfter symbol ops) depth o).map PriceLevel.totalQuantity).sum
      ∨ ((bookAfter symbol ops).levels o.side.opposite).entries.length ≤ depth.toNat)
    (g : Int → Int) :
    weigh (fun t => g t.price) ((bookAfter symbol ops).matchIncoming amb o).1
      = Greedy.weight PriceLevel.totalQuantity (fun l => g l.price) o.remainingQuantity
          (displayed (bookAfter symbol ops) depth o) := by
  have hrep := (runInv_reachable symbol h).rep
  have hside := hrep.side o.side.opposite
  rw [weigh_match hrep amb ht hq g, ← weight_levels hrep o hfits depth hq g hdepth, resting,
    reachable_orders hside]
  refine Greedy.weight_flatMap Prod.snd (fun l hl x hx => ?_) (fun l hl x hx => ?_) hq
  · exact hside.positive x (mem_orders.mpr ⟨l, (List.mem_filter.mp hl).1, hx⟩)
  · rw [(hside.keyed l (List.mem_filter.mp hl).1 x hx).2]

/-- Of the three asks two are within reach, at one price. -/
theorem displayed_levels_price_three_asks :
    displayed (bookAfter "AAPL" threeAsks) 10 buyTwelve = [⟨100, 9, 2⟩]
      ∧ weigh (fun t => t.price) ((bookAfter "AAPL" threeAsks).matchIncoming still buyTwelve).1
        = 900 :=
  ⟨by decide, (displayed_levels_price "AAPL" (by decide) still buyTwelve (Or.inr (Or.inl rfl))
    (by decide) 10 (by decide) (Or.inr (by decide)) id).trans (by decide)⟩

end TitanX.Proof
