import TitanX.Proof.BookRun

/-!
# Prices that cross

Two facts about prices, both resting on one account: how much quantity on the
passive side crosses the aggressor's limit. A sweep takes from that quantity what
it takes from the aggressor, fill by fill, so the difference is constant
(`crossing_fill`).

* A limit order that still has a remainder has therefore consumed everything it
  crosses, and resting it cannot lock or cross the book (`never_crossed`).
* A fill-or-kill order runs as an unlimited market sweep. It is let through only
  when the counting pass finds its quantity within the limit, and then the sweep
  runs out before it leaves the limit (`price_protection`). The count is an
  `int64_t` and may wrap, but wrapping only ever lowers it.
-/

namespace TitanX.Proof

open TitanX OrderBook

/-! ## Which prices cross -/

/-- If a price crosses, so does every better one. -/
def CrossMono (s : OrderSide) (crosses : Int → Bool) : Prop :=
  ∀ p q, better s p q → crosses q = true → crosses p = true

theorem better_opposite (s : OrderSide) (p q : Int) : better s.opposite p q ↔ better s q p := by
  cases s <;> exact Iff.rfl

/-- A limit price that does not cross a level is on its own side of it. -/
theorem crossesLimit_eq_false {o : Order} {p : Int} :
    crossesLimit o p = false ↔ better o.side.opposite o.price p := by
  cases h : o.side <;> simp [crossesLimit, Order.isBuy, h, better, OrderSide.opposite]

/-- `p` is no worse for `o` than its own limit. -/
def NoWorse (o : Order) (p : Int) : Prop :=
  match o.side with
  | .buy => p ≤ o.price
  | .sell => o.price ≤ p

theorem crossesLimit_eq_true {o : Order} {p : Int} : crossesLimit o p = true ↔ NoWorse o p := by
  cases h : o.side <;> simp [crossesLimit, Order.isBuy, h, NoWorse]

theorem crossMono_limit (o : Order) : CrossMono o.side.opposite (crossesLimit o) := by
  intro p q hpq hq
  by_contra hp
  rw [Bool.not_eq_true, crossesLimit_eq_false] at hp
  have := crossesLimit_eq_false.mpr (IsTrans.trans _ _ _ hp hpq)
  rw [hq] at this
  exact Bool.noConfusion this

/-- The test of the counting pass: price 0 crosses everything. -/
def crossesOrAny (o : Order) (p : Int) : Bool := o.price = 0 || crossesLimit o p

theorem crossMono_orAny (o : Order) : CrossMono o.side.opposite (crossesOrAny o) := by
  intro p q hpq hq
  simp only [crossesOrAny, Bool.or_eq_true, decide_eq_true_eq] at hq ⊢
  exact hq.imp_right (crossMono_limit o p q hpq)

/-! ## The quantity that crosses -/

/-- The quantity of `L` at prices that cross. -/
def crossing (crosses : Int → Bool) (L : List Order) : Int :=
  (L.map (fun o => if crosses o.price then o.remainingQuantity else 0)).sum

@[simp] theorem crossing_nil (crosses : Int → Bool) : crossing crosses [] = 0 := rfl

theorem crossing_cons (crosses : Int → Bool) (o : Order) (L : List Order) :
    crossing crosses (o :: L) =
      (if crosses o.price then o.remainingQuantity else 0) + crossing crosses L := by
  simp [crossing]

theorem crossing_append (crosses : Int → Bool) (L L' : List Order) :
    crossing crosses (L ++ L') = crossing crosses L + crossing crosses L' := by
  simp [crossing]

theorem crossing_nonneg (crosses : Int → Bool) {L : List Order}
    (h : ∀ o ∈ L, 0 < o.remainingQuantity) : 0 ≤ crossing crosses L := by
  refine List.sum_nonneg (fun x hx => ?_)
  obtain ⟨o, ho, rfl⟩ := List.mem_map.mp hx
  have := h o ho
  split <;> omega

theorem crossing_eq_zero {crosses : Int → Bool} {L : List Order}
    (h : ∀ o ∈ L, crosses o.price = false) : crossing crosses L = 0 := by
  refine List.sum_eq_zero (fun x hx => ?_)
  obtain ⟨o, ho, rfl⟩ := List.mem_map.mp hx
  rw [h o ho]; rfl

/-- One fill at a crossing price takes as much from the crossing quantity as from
the aggressor. -/
theorem crossing_afterFill (amb : Ambient) (aggressor : Order) (st : Sweep) {s : OrderSide}
    {crosses : Int → Bool} {passive : Order} {p : Int} {rest : List Order} {behind : Levels}
    (h : SideOk s ((p, passive :: rest) :: behind)) (hc : crosses p = true) :
    (fillFront amb aggressor p passive rest behind st).2.remainingQty
        - crossing crosses (Levels.orders (afterFill p
            (fillFront amb aggressor p passive rest behind st).1 rest behind)) =
      st.remainingQty - crossing crosses (Levels.orders ((p, passive :: rest) :: behind)) := by
  have hp : passive.price = p := (h.head passive (List.mem_cons_self ..)).1.2
  have hprice : (fillFront amb aggressor p passive rest behind st).1.price = p := hp
  have hupd : (fillFront amb aggressor p passive rest behind st).1.remainingQuantity =
      passive.remainingQuantity - min st.remainingQty passive.remainingQuantity := rfl
  have hrem : (fillFront amb aggressor p passive rest behind st).2.remainingQty =
      st.remainingQty - min st.remainingQty passive.remainingQuantity := rfl
  rw [orders_afterFill, orders_cons, List.cons_append, crossing_cons, hp, if_pos hc]
  split
  · rw [crossing_cons, hprice, if_pos hc]
    omega
  · omega

theorem crossing_fill (amb : Ambient) (s : OrderSide) (aggressor : Order)
    (crosses : Int → Bool) (c : Int) :
    KeptByFill amb aggressor crosses (fun ls st =>
      SideOk s ls ∧ st.remainingQty - crossing crosses (Levels.orders ls) = c) := by
  intro p passive rest behind st hc _ ⟨hside, heq⟩
  refine ⟨sideOk_afterFill hside (versionOf_withRemainingQuantity _ _ _), ?_⟩
  rw [crossing_afterFill amb aggressor st hside hc]
  exact heq

/-- When the aggressor has something left, nothing that crosses is. -/
theorem sweep_exit {b : OrderBook} (h : SidesOk b) (amb : Ambient) {aggressor : Order}
    {crosses : Int → Bool} (hm : CrossMono aggressor.side.opposite crosses)
    (hrem : 0 < (b.sweep amb aggressor crosses).1.remainingQty) :
    ∀ o ∈ (b.sweep amb aggressor crosses).2.resting aggressor.side.opposite,
      crosses o.price = false := by
  have hsorted := ((b.sweep amb aggressor crosses).2.levels aggressor.side.opposite).sorted
  have hside := sidesOk_sweep amb aggressor crosses h aggressor.side.opposite
  rw [resting]
  rw [sweep_levels_opposite] at hsorted hside ⊢
  rw [sweep_fst] at hrem
  rcases matchSide_exit amb aggressor crosses
    (b.levels aggressor.side.opposite).entries (sweepStart b aggressor)
    with hle | hnil | ⟨p, queue, behind, hls, hp⟩
  · exact absurd hle (not_le.mpr hrem)
  · -- the side was swept empty
    intro o ho
    rw [sweepLoop, hnil] at ho
    exact absurd ho (by simp)
  · -- the best level does not cross, and the others are worse
    change (sweepLoop b amb aggressor crosses).1 = _ at hls
    rw [hls] at hsorted hside ⊢
    refine hside.prices (P := fun q => crosses q = false) (fun l hl => ?_)
    rcases List.mem_cons.mp hl with rfl | hl
    · exact hp
    · by_contra hne
      have := hm _ _ ((List.pairwise_cons.mp hsorted).1 l hl) (by simpa using hne)
      rw [hp] at this
      exact Bool.noConfusion this

/-- A sweep takes as much from the crossing quantity as from the aggressor. -/
theorem sweep_crossing {b : OrderBook} (h : SidesOk b) (amb : Ambient) (aggressor : Order)
    (crosses : Int → Bool) :
    (b.sweep amb aggressor crosses).1.remainingQty
        - crossing crosses ((b.sweep amb aggressor crosses).2.resting aggressor.side.opposite)
      = aggressor.remainingQuantity
        - crossing crosses (b.resting aggressor.side.opposite) := by
  have hres : (b.sweep amb aggressor crosses).2.resting aggressor.side.opposite
      = Levels.orders (sweepLoop b amb aggressor crosses).1 := by
    rw [sweep_resting_opposite]
  rw [hres]
  exact (matchSide_rule (crossing_fill amb aggressor.side.opposite aggressor crosses
      (aggressor.remainingQuantity - crossing crosses (b.resting aggressor.side.opposite)))
    _ (sweepStart b aggressor) (h _).nonempty ⟨h _, rfl⟩).2

/-- **A sweep leaves a remainder exactly when less crosses than the aggressor brings.** -/
theorem sweep_remainder_iff {b : OrderBook} (h : SidesOk b) (amb : Ambient) {aggressor : Order}
    {crosses : Int → Bool} (hm : CrossMono aggressor.side.opposite crosses) :
    0 < (b.sweep amb aggressor crosses).1.remainingQty ↔
      crossing crosses (b.resting aggressor.side.opposite) < aggressor.remainingQuantity := by
  have heq := sweep_crossing h amb aggressor crosses
  constructor
  · intro hrem
    rw [crossing_eq_zero (sweep_exit h amb hm hrem)] at heq
    omega
  · intro hlt
    have hnn : 0 ≤ crossing crosses
        ((b.sweep amb aggressor crosses).2.resting aggressor.side.opposite) :=
      crossing_nonneg crosses (sidesOk_sweep amb aggressor crosses h _).positive
    omega

/-- **A sweep trades exactly when both sides bring something that crosses.** -/
theorem sweep_fills_iff {b : OrderBook} (h : RepInv b) (amb : Ambient) {aggressor : Order}
    {crosses : Int → Bool} (hm : CrossMono aggressor.side.opposite crosses) :
    (b.sweep amb aggressor crosses).1.fills ≠ [] ↔
      0 < aggressor.remainingQuantity
        ∧ ∃ x ∈ b.resting aggressor.side.opposite, crosses x.price = true := by
  have hfilled := sweep_filled h amb aggressor crosses
  constructor
  · intro hne
    obtain ⟨f, fills, hf⟩ := List.exists_cons_of_ne_nil hne
    have hok := sweep_fillOk h amb aggressor crosses
    rw [hf] at hok hfilled
    have hfirst := hok f (List.mem_cons_self ..)
    obtain ⟨x, hx, -, -, hprice, -⟩ := hfirst.passive
    refine ⟨?_, x, hx, by rw [hprice]; exact hfirst.crosses⟩
    have hrest := filled_nonneg (fun f' hf' => (hok f' (List.mem_cons_of_mem _ hf')).positive)
    have hpos := hfirst.positive
    have hcons : filled (f :: fills) = f.trade.quantity + filled fills := rfl
    omega
  · rintro ⟨hrem, x, hx, hc⟩ hnil
    -- nothing was taken from the aggressor, so everything that crosses would be gone
    rw [hnil] at hfilled
    have hzero : filled [] = 0 := rfl
    have hleft : 0 < (b.sweep amb aggressor crosses).1.remainingQty := by omega
    have heq := sweep_crossing h.side amb aggressor crosses
    rw [crossing_eq_zero (sweep_exit h.side amb hm hleft)] at heq
    have hmem := List.single_le_sum (fun n hn => by
      obtain ⟨o, ho, rfl⟩ := List.mem_map.mp hn
      have := h.positive (mem_allOrders.mpr ⟨_, ho⟩)
      split <;> omega) _ (List.mem_map_of_mem
        (f := fun o : Order => if crosses o.price then o.remainingQuantity else 0) hx)
    have hpos := h.positive (mem_allOrders.mpr ⟨_, hx⟩)
    rw [if_pos hc] at hmem
    change x.remainingQuantity ≤ crossing crosses (b.resting aggressor.side.opposite) at hmem
    omega

/-! ## The book is never crossed -/

/-- Two resting orders of opposite sides never meet: the price of each is strictly on
its own side of the other's. -/
def Uncrossed (b : OrderBook) : Prop :=
  ∀ x ∈ allOrders b, ∀ y ∈ allOrders b, y.side = x.side.opposite →
    better x.side.opposite x.price y.price

theorem uncrossed_of_versions {b b' : OrderBook} (h : Uncrossed b)
    (hv : ∀ o ∈ allOrders b', ∃ o₀ ∈ allOrders b, VersionOf o o₀) : Uncrossed b' := by
  intro x hx y hy hside
  obtain ⟨x₀, hx₀, hvx⟩ := hv x hx
  obtain ⟨y₀, hy₀, hvy⟩ := hv y hy
  rw [hvx.side, hvy.side] at hside
  rw [hvx.side, hvx.price, hvy.price]
  exact h x₀ hx₀ y₀ hy₀ hside

/-- Resting an order that crosses nothing of the other side. -/
theorem uncrossed_insert {b : OrderBook} (hrep : RepInv b) (h : Uncrossed b) {order : Order}
    (hnc : ∀ o ∈ b.resting order.side.opposite, crossesLimit order o.price = false) :
    Uncrossed (b.insertIntoBook order) := by
  have hnew : ∀ y ∈ allOrders b, y.side = order.side.opposite →
      better order.side.opposite order.price y.price := by
    intro y hy hside
    exact crossesLimit_eq_false.mp (hnc y (hside ▸ hrep.mem_side hy))
  intro x hx y hy hside
  -- either of the two may be the new order
  rcases List.mem_cons.mp ((insert_perm hrep order).mem_iff.mp hx) with hxo | hxb <;>
    rcases List.mem_cons.mp ((insert_perm hrep order).mem_iff.mp hy) with hyo | hyb
  · rw [hxo, hyo] at hside
    exact absurd hside.symm (OrderSide.opposite_ne _)
  · rw [hxo] at hside ⊢
    exact hnew y hyb hside
  · rw [hyo] at hside ⊢
    have hxs : x.side = order.side.opposite := by rw [hside, OrderSide.opposite_opposite]
    rw [better_opposite, hxs]
    exact hnew x hxb hxs
  · exact h x hxb y hyb hside

theorem uncrossed_match {b : OrderBook} (hrep : RepInv b) (h : Uncrossed b) (amb : Ambient)
    {incoming : Order} (hfresh : NotResting b incoming.orderId) :
    Uncrossed (b.matchIncoming amb incoming).2 := by
  refine (match_rule (P := Uncrossed) (Q := Uncrossed) hrep hfresh h ?_ (fun _ hP => hP) ?_ ?_).2
  · exact fun crosses => uncrossed_of_versions h (sweep_versions hrep amb incoming crosses)
  · intro _ hrem hrep' hunc
    exact uncrossed_insert hrep' hunc (sweep_exit hrep.side amb (crossMono_limit incoming) hrem)
  · intro b' hrep' hunc
    exact uncrossed_of_versions hunc
      (fun o ho => ⟨o, remove_subset hrep' _ o ho, VersionOf.refl o⟩)

theorem uncrossed_reachable (symbol : String) {ops : List BookOp} (h : DistinctIds ops) :
    Uncrossed (bookAfter symbol ops) := by
  refine run_invariant OrderBook.step (P := fun _ b => Uncrossed b)
    (fun _ _ hok => hok.init) ?_ ?_ ops h
  · exact fun x hx => absurd hx (by simp [allOrders, resting, OrderBook.new, levels])
  · intro is op hok hunc
    have hinv := runInv_reachable symbol hok.init
    cases op with
    | matchIncoming amb o => exact uncrossed_match hinv.rep hunc amb (hinv.notResting hok.last_new)
    | removeFromBook id =>
        exact uncrossed_of_versions hunc
          (fun o ho => ⟨o, remove_subset hinv.rep id o ho, VersionOf.refl o⟩)

/-- The best price of a side is the price of an order resting there. -/
theorem first_mem {s : OrderSide} {m : OrdMap Int (List Order) (better s)}
    (h : SideOk s m.entries) {p : Int} (hp : m.first?.map Prod.fst = some p) :
    ∃ o ∈ Levels.orders m.entries, o.side = s ∧ o.price = p := by
  obtain ⟨l, hl, rfl⟩ := Option.map_eq_some_iff.mp hp
  have hmem : l ∈ m.entries := List.mem_of_mem_head? hl
  obtain ⟨o, ho⟩ := List.exists_mem_of_ne_nil _ (h.nonempty l hmem)
  exact ⟨o, mem_orders.mpr ⟨l, hmem, ho⟩, h.keyed l hmem o ho⟩

/--
**The book is never crossed or locked.** In every reachable book each resting bid is
strictly below each resting ask, whatever was submitted; in particular
`bestBid() < bestAsk()` when both exist.
-/
theorem never_crossed (symbol : String) {ops : List BookOp} (h : DistinctIds ops) :
    (∀ x ∈ (bookAfter symbol ops).resting .buy, ∀ y ∈ (bookAfter symbol ops).resting .sell,
        x.price < y.price)
      ∧ ∀ bid ask, (bookAfter symbol ops).bestBid = some bid →
          (bookAfter symbol ops).bestAsk = some ask → bid < ask := by
  have hrep := (runInv_reachable symbol h).rep
  have hall : ∀ x ∈ (bookAfter symbol ops).resting .buy,
      ∀ y ∈ (bookAfter symbol ops).resting .sell, x.price < y.price := by
    intro x hx y hy
    have hxs : x.side = .buy := ((hrep.side .buy).mem hx).1
    have hys : y.side = .sell := ((hrep.side .sell).mem hy).1
    have hb := uncrossed_reachable symbol h x (mem_allOrders.mpr ⟨_, hx⟩) y
      (mem_allOrders.mpr ⟨_, hy⟩) (by rw [hxs, hys]; rfl)
    rw [hxs] at hb
    exact hb
  refine ⟨hall, fun bid ask hbid hask => ?_⟩
  -- the best prices are prices of resting orders
  obtain ⟨x, hx, -, rfl⟩ := first_mem (hrep.side .buy) hbid
  obtain ⟨y, hy, -, rfl⟩ := first_mem (hrep.side .sell) hask
  exact hall x hx y hy

/-- Orders around and at price 0, on both sides of the spread. -/
def zeroSpreadRun : List BookOp :=
  [.matchIncoming still (Order.create "a" 0 "A" "AAPL" .sell .limit 1 0 5),
    .matchIncoming still (Order.create "b" 0 "B" "AAPL" .buy .ioc 0 0 5),
    .matchIncoming still (Order.create "c" 0 "C" "AAPL" .sell .limit (-3) 0 2)]

theorem never_crossed_zeroSpread :
    (bookAfter "AAPL" zeroSpreadRun).bestBid = some 0
      ∧ (bookAfter "AAPL" zeroSpreadRun).bestAsk = some 1
      ∧ ∀ x ∈ (bookAfter "AAPL" zeroSpreadRun).resting .buy,
          ∀ y ∈ (bookAfter "AAPL" zeroSpreadRun).resting .sell, x.price < y.price :=
  ⟨by decide, by decide, (never_crossed "AAPL" (by decide)).1⟩

/-! ## The counting pass -/

/-- Wrapping around lowers a sum that did not underflow. -/
theorem wrap64_le {x : Int} (h : -2 ^ 63 ≤ x) : -2 ^ 63 ≤ wrap64 x ∧ wrap64 x ≤ x := by
  unfold wrap64 Int.bmod
  dsimp only
  split <;> omega

theorem countQueue_le (queue : List Order) (hpos : ∀ o ∈ queue, 0 < o.remainingQuantity) :
    ∀ total : Int, -2 ^ 63 ≤ total →
      -2 ^ 63 ≤ queue.foldl (fun total o => wrap64 (total + o.remainingQuantity)) total
        ∧ queue.foldl (fun total o => wrap64 (total + o.remainingQuantity)) total
          ≤ total + (queue.map Order.remainingQuantity).sum := by
  induction queue with
  | nil => intro total h; simpa using h
  | cons o queue ih =>
      intro total h
      have ho := hpos o (List.mem_cons_self ..)
      obtain ⟨hlo, hle⟩ := wrap64_le (x := total + o.remainingQuantity) (by omega)
      obtain ⟨hlo', hle'⟩ := ih (fun x hx => hpos x (List.mem_cons_of_mem _ hx)) _ hlo
      rw [List.foldl_cons, List.map_cons, List.sum_cons]
      exact ⟨hlo', by omega⟩

/-- A level at a crossing price crosses whole: its orders are at its key. -/
theorem crossing_level {s : OrderSide} {crosses : Int → Bool} {p : Int} {queue : List Order}
    {ls : Levels} (h : SideOk s ((p, queue) :: ls)) (hc : crosses p = true) :
    crossing crosses queue = (queue.map Order.remainingQuantity).sum := by
  unfold crossing
  congr 1
  refine List.map_congr_left (fun o ho => ?_)
  rw [(h.head o ho).1.2, if_pos hc]

/-- The count never exceeds the quantity that crosses, even when it wraps. -/
theorem countSide_le {s : OrderSide} (crosses : Int → Bool) : ∀ {ls : Levels}, SideOk s ls →
    ∀ total : Int, -2 ^ 63 ≤ total →
      countSide crosses ls total ≤ total + crossing crosses (Levels.orders ls)
  | [], _, total, _ => by simp [countSide]
  | (p, queue) :: ls, h, total, hlo => by
      have hnn := crossing_nonneg crosses h.positive
      rw [countSide]
      split
      · rename_i hc
        obtain ⟨hlo', hle⟩ := countQueue_le queue (fun o ho => (h.head o ho).2) total hlo
        have hrec := countSide_le crosses h.tail _ hlo'
        rw [orders_cons, crossing_append, crossing_level h hc]
        omega
      · omega

theorem available_le {b : OrderBook} (h : RepInv b) (aggressor : Order) :
    b.availableQuantityAtOrBetter aggressor
      ≤ crossing (crossesOrAny aggressor) (b.resting aggressor.side.opposite) := by
  have hle := countSide_le (crossesOrAny aggressor) (h.side aggressor.side.opposite) 0 (by decide)
  rw [Int.zero_add] at hle
  exact hle

/-! ## Price protection -/

theorem sorted_afterFill {s : OrderSide} {p : Int} {passive updated : Order}
    {rest : List Order} {behind : Levels}
    (h : ((p, passive :: rest) :: behind).Pairwise (fun a b => better s a.1 b.1)) :
    (afterFill p updated rest behind).Pairwise (fun a b => better s a.1 b.1) := by
  obtain ⟨hhd, htl⟩ := List.pairwise_cons.mp h
  unfold afterFill collapse
  split
  · exact List.pairwise_cons.mpr ⟨hhd, htl⟩
  · split
    · exact htl
    · exact List.pairwise_cons.mpr ⟨hhd, htl⟩

/-- While something crosses, the best level does. -/
theorem best_crosses {s : OrderSide} {crosses : Int → Bool} (hm : CrossMono s crosses)
    {p : Int} {queue : List Order} {behind : Levels}
    (hs : SideOk s ((p, queue) :: behind))
    (hsorted : ((p, queue) :: behind).Pairwise (fun a b => better s a.1 b.1))
    (hpos : 0 < crossing crosses (Levels.orders ((p, queue) :: behind))) :
    crosses p = true := by
  by_contra hp
  refine absurd (crossing_eq_zero (hs.prices (P := fun q => crosses q = false) ?_)) (by omega)
  intro l hl
  rcases List.mem_cons.mp hl with rfl | hl
  · simpa using hp
  · by_contra hne
    exact hp (hm _ _ ((List.pairwise_cons.mp hsorted).1 l hl) (by simpa using hne))

/-- An unlimited sweep that brings no more than what crosses `within` stays within it. -/
theorem within_fill (amb : Ambient) {s : OrderSide} (aggressor : Order)
    {within : Int → Bool} (hm : CrossMono s within) :
    KeptByFill amb aggressor (fun _ => true) (fun ls st =>
      SideOk s ls ∧ ls.Pairwise (fun a b => better s a.1 b.1)
        ∧ st.remainingQty ≤ crossing within (Levels.orders ls)
        ∧ ∀ f ∈ st.fills, within f.trade.price = true) := by
  intro p passive rest behind st _ hrem ⟨hside, hsorted, hle, hfills⟩
  have hp : within p = true := best_crosses hm hside hsorted (by omega)
  have hconst := crossing_afterFill amb aggressor st hside hp
  refine ⟨sideOk_afterFill hside (versionOf_withRemainingQuantity _ _ _),
    sorted_afterFill hsorted, by omega, ?_⟩
  intro f hf
  rcases List.mem_append.mp hf with hf | hf
  · exact hfills f hf
  · rw [List.mem_singleton.mp hf]; exact hp

theorem sweep_within {b : OrderBook} (h : RepInv b) (amb : Ambient) {aggressor : Order}
    {within : Int → Bool} (hm : CrossMono aggressor.side.opposite within)
    (hle : aggressor.remainingQuantity
      ≤ crossing within (b.resting aggressor.side.opposite)) :
    ∀ f ∈ (b.sweep amb aggressor (fun _ => true)).1.fills, within f.trade.price = true := by
  have hend := matchSide_rule (within_fill amb aggressor hm) _ (sweepStart b aggressor)
    (h.side _).nonempty ⟨h.side _, (b.levels _).sorted, hle, by simp [sweepStart]⟩
  exact hend.2.2.2

/-- The order types whose price bounds what they pay. -/
def PriceBound (o : Order) : Prop :=
  o.type = .limit ∨ o.type = .ioc ∨ (o.type = .fok ∧ o.price ≠ 0)

/-- No execution of one `match` call is worse than the limit of the incoming order. -/
theorem match_noWorse {b : OrderBook} (h : RepInv b) (amb : Ambient) {incoming : Order}
    (hc : incoming.Created) (hb : PriceBound incoming) :
    ∀ f ∈ (b.matchIncoming amb incoming).1, NoWorse incoming f.trade.price := by
  have hlimit : ∀ f ∈ (b.matchLimit amb incoming).1, NoWorse incoming f.trade.price := by
    intro f hf
    have hf' : f ∈ (b.sweep amb incoming (crossesLimit incoming)).1.fills := by
      rcases matchLimit_cases b amb incoming with ⟨-, heq⟩ | ⟨-, heq⟩ <;> rw [heq] at hf <;>
        exact hf
    exact crossesLimit_eq_true.mp (sweep_fillOk h amb incoming _ f hf').crosses
  unfold matchIncoming
  rcases hb with ht | ht | ⟨ht, hp⟩
  · rw [ht]; exact hlimit
  · rw [ht]; exact hlimit
  · rw [ht]
    dsimp only [matchFok]
    split
    · exact fun f hf => absurd hf (by simp)
    · rename_i hav
      -- the sweep has no price limit, but needs no more than was counted within it
      intro f hf
      have hle := available_le h incoming
      have hw := sweep_within h amb (crossMono_orAny incoming)
        (by rw [hc.remainingQuantity_eq]; omega) f hf
      simp only [crossesOrAny, Bool.or_eq_true, decide_eq_true_eq] at hw
      exact crossesLimit_eq_true.mp (hw.resolve_left hp)

/--
**Limit price protection.** In every run, a trade executes at the limit price of its
passive order, which rested on the other side, and at a price no worse than the limit
of its aggressor if that is a limit, an immediate-or-cancel, or a priced fill-or-kill
order.
-/
theorem price_protection (symbol : String) {ops : List BookOp} (h : ValidRun ops) :
    ∀ f ∈ fillsOf symbol ops, ∃ x ∈ submitted ops, ∃ y ∈ submitted ops,
      f.trade.aggressorOrderId = x.orderId ∧ f.trade.aggressorSide = x.side
        ∧ f.trade.passiveOrderId = y.orderId ∧ y.side = x.side.opposite
        ∧ f.trade.price = y.price ∧ (PriceBound x → NoWorse x f.trade.price) := by
  intro f hf
  obtain ⟨pre, amb, o, post, rfl, hcall⟩ := mem_fillsOf hf
  have hinv := runInv_reachable symbol h.distinct.of_append
  have ho : o ∈ submitted (pre ++ .matchIncoming amb o :: post) := by
    rw [submitted_append]; exact List.mem_append_right _ (List.mem_cons_self ..)
  obtain ⟨crosses, hok⟩ := match_fillOk hinv.rep amb o f hcall
  obtain ⟨y, hy, hid, hside, hprice⟩ := hinv.passive hcall
  refine ⟨o, ho, y, ?_, hok.aggressorOrderId, hok.aggressorSide, hid, hside, hprice, ?_⟩
  · rw [submitted_append]; exact List.mem_append_left _ hy
  · exact fun hb => match_noWorse hinv.rep amb (h.created o ho) hb f hcall

/-- Two asks at 100 and 105, and a fill-or-kill buy of 8 with limit 105. -/
def fokRun : List BookOp :=
  [.matchIncoming still (Order.create "a" 0 "A" "AAPL" .sell .limit 100 0 5),
    .matchIncoming still (Order.create "b" 0 "B" "AAPL" .sell .limit 105 0 5),
    .matchIncoming still (Order.create "f" 0 "F" "AAPL" .buy .fok 105 0 8)]

theorem price_protection_fok :
    (fillsOf "AAPL" fokRun).map (fun f => (f.trade.price, f.trade.quantity)) = [(100, 5), (105, 3)]
      ∧ ∀ f ∈ fillsOf "AAPL" fokRun, ∃ x ∈ submitted fokRun, ∃ y ∈ submitted fokRun,
          f.trade.aggressorOrderId = x.orderId ∧ f.trade.aggressorSide = x.side
            ∧ f.trade.passiveOrderId = y.orderId ∧ y.side = x.side.opposite
            ∧ f.trade.price = y.price ∧ (PriceBound x → NoWorse x f.trade.price) :=
  ⟨by decide, price_protection "AAPL" ⟨by simp [fokRun, submitted], by decide⟩⟩

end TitanX.Proof
