import TitanX.Proof.Whole

/-!
# The depth of a book

At which prices a new order trades, and what is left to trade with, is a matter of prices and
quantities: of each side the offers, a price and a quantity each, in priority order (`Depth`).
On these a new order is a greedy allocation over the offers it can reach, and what it does not
find is one more offer on its own side, if it rests at all (`Depth.after`).

`match_trades` and `match_depth` say that `match` does the same to a book, whatever its index
holds and whatever ids its orders have; only the id of an IOC order has to be new, since that
is how the order is taken out again.
-/

namespace TitanX.Proof

open TitanX OrderBook

/-! ## Offers -/

/-- A price, and the quantity to be had at it. -/
structure Offer where
  price : Int
  quantity : Int
  deriving DecidableEq

/-- The offer with another quantity. -/
def Offer.cut (x : Offer) (n : Int) : Offer := { x with quantity := n }

theorem divisible_offer : Greedy.Divisible Offer.quantity Offer.cut :=
  ⟨fun _ _ => rfl, fun _ _ _ => rfl, fun _ => rfl⟩

/-- The offers of both sides, in priority order. -/
abbrev Depth := OrderSide → List Offer

namespace Depth

/-- The offers that `q` takes something of, among those at prices it can trade at. -/
def taken (can : Int → Bool) (q : Int) (L : List Offer) : List (Offer × Int) :=
  Greedy.allocation Offer.quantity q (L.filter (fun x => can x.price))

/-- The offers without what `q` takes. -/
def left (can : Int → Bool) (q : Int) (L : List Offer) : List Offer :=
  Greedy.leftover Offer.quantity Offer.cut (max q 0) (L.filter (fun x => can x.price))
    ++ L.filter (fun x => !can x.price)

/-- What `q` does not find. -/
def unmet (can : Int → Bool) (q : Int) (L : List Offer) : Int :=
  q - ((L.filter (fun x => can x.price)).map Offer.quantity).sum

/-- The offer `x` behind those that are no worse. -/
def place (s : OrderSide) (x : Offer) (L : List Offer) : List Offer :=
  L.takeWhile (fun y => ¬ better s x.price y.price)
    ++ x :: L.dropWhile (fun y => ¬ better s x.price y.price)

/-- The depth after a new order that can trade at the prices `can`: the other side without what
it takes, its own side with what it does not find, if it `rests`. -/
def after (d : Depth) (o : Order) (can : Int → Bool) (rests : Bool) : Depth := fun s =>
  if s = o.side then
    if rests = true ∧ 0 < unmet can o.remainingQuantity (d s.opposite) then
      place s ⟨o.price, unmet can o.remainingQuantity (d s.opposite)⟩ (d s)
    else d s
  else left can o.remainingQuantity (d s)

/-- The depth after a limit order. -/
def afterLimit (d : Depth) (o : Order) : Depth := d.after o (crossesLimit o) true

/-! ### Laws -/

theorem place_cut {s : OrderSide} {x : Offer} {pre post : List Offer}
    (hpre : ∀ y ∈ pre, ¬ better s x.price y.price) (hpost : ∀ y ∈ post, better s x.price y.price) :
    place s x (pre ++ post) = pre ++ x :: post := by
  have hhead : post.takeWhile (fun y => ¬ better s x.price y.price) = []
      ∧ post.dropWhile (fun y => ¬ better s x.price y.price) = post := by
    cases post with
    | nil => exact ⟨rfl, rfl⟩
    | cons y post =>
        have hy := hpost y (List.mem_cons_self ..)
        exact ⟨List.takeWhile_cons_of_neg (by simpa using hy),
          List.dropWhile_cons_of_neg (by simpa using hy)⟩
  unfold place
  rw [List.takeWhile_append_of_pos (by simpa using hpre),
    List.dropWhile_append_of_pos (by simpa using hpre), hhead.1, hhead.2, List.append_nil]

theorem mem_place {s : OrderSide} {x y : Offer} {L : List Offer} :
    y ∈ place s x L ↔ y = x ∨ y ∈ L := by
  unfold place
  rw [List.mem_append, List.mem_cons, ← or_assoc, or_comm (a := y ∈ _), or_assoc,
    ← List.mem_append, List.takeWhile_append_dropWhile]

/-- An order that can trade at no price takes nothing. -/
theorem left_unreachable (q : Int) (L : List Offer) : left (fun _ => false) q L = L := by
  have hall : L.filter (fun _ => !false) = L := List.filter_eq_self.mpr (fun _ _ => rfl)
  have hnone : L.filter (fun _ => false) = [] := List.filter_eq_nil_iff.mpr (fun _ _ => by simp)
  unfold left
  rw [hall, hnone]
  rfl

theorem after_own (d : Depth) (o : Order) (can : Int → Bool) (rests : Bool) :
    d.after o can rests o.side
      = if rests = true ∧ 0 < unmet can o.remainingQuantity (d o.side.opposite) then
          place o.side ⟨o.price, unmet can o.remainingQuantity (d o.side.opposite)⟩ (d o.side)
        else d o.side := if_pos rfl

theorem after_opposite (d : Depth) (o : Order) (can : Int → Bool) (rests : Bool) :
    d.after o can rests o.side.opposite = left can o.remainingQuantity (d o.side.opposite) :=
  if_neg (OrderSide.opposite_ne _)

end Depth

/-! ## The depth of a book -/

/-- What a resting order offers. -/
def offerOf (o : Order) : Offer := ⟨o.price, o.remainingQuantity⟩

/-- The depth of a book. -/
def depth (b : OrderBook) : Depth := fun s => (b.resting s).map offerOf

theorem SameBut.offerOf {x y : Order} (h : SameBut x y) : offerOf y = offerOf x := by
  obtain ⟨_, _, rfl⟩ := h
  rfl

theorem map_offerOf_sameBut {L M : List Order} (h : List.Forall₂ SameBut L M) :
    M.map offerOf = L.map offerOf := by
  induction h with
  | nil => rfl
  | cons hxy _ ih => rw [List.map_cons, List.map_cons, ih, hxy.offerOf]

theorem offers_reachable (crosses : Int → Bool) (L : List Order) :
    (L.map offerOf).filter (fun x => crosses x.price) = (reachable crosses L).map offerOf :=
  List.filter_map

theorem offers_beyond (crosses : Int → Bool) (L : List Order) :
    (L.map offerOf).filter (fun x => !crosses x.price) = (beyond crosses L).map offerOf :=
  List.filter_map

theorem taken_offers (crosses : Int → Bool) (q : Int) (L : List Order) :
    Depth.taken crosses q (L.map offerOf)
      = (allocate q (reachable crosses L)).map (Prod.map offerOf id) := by
  unfold Depth.taken
  rw [offers_reachable]
  exact Greedy.allocation_map (fun _ => rfl) q _

theorem left_offers (crosses : Int → Bool) (q : Int) (L : List Order) :
    Depth.left crosses q (L.map offerOf)
      = (leftOver (max q 0) (reachable crosses L) ++ beyond crosses L).map offerOf := by
  have hleft : Greedy.leftover Offer.quantity Offer.cut (max q 0) ((reachable crosses L).map offerOf)
      = (leftOver (max q 0) (reachable crosses L)).map offerOf :=
    Greedy.leftover_map (fun _ => rfl) (fun _ _ => rfl) _ _
  unfold Depth.left
  rw [offers_reachable, offers_beyond, hleft, List.map_append]

theorem crossing_reachable (crosses : Int → Bool) (L : List Order) :
    crossing crosses L = ((reachable crosses L).map Order.remainingQuantity).sum := by
  induction L with
  | nil => rfl
  | cons x L ih =>
      rw [crossing_cons, ih]
      by_cases hc : crosses x.price = true
      · rw [if_pos hc, reachable_cons_of_crosses hc, List.map_cons, List.sum_cons]
      · have hskip : reachable crosses (x :: L) = reachable crosses L := List.filter_cons_of_neg hc
        rw [if_neg hc, hskip, Int.zero_add]

theorem unmet_offers (crosses : Int → Bool) (q : Int) (L : List Order) :
    Depth.unmet crosses q (L.map offerOf) = q - crossing crosses L := by
  unfold Depth.unmet
  rw [offers_reachable, List.map_map, crossing_reachable]
  rfl

/-- Two depths that agree on both sides of an order. -/
theorem depth_ext {d d' : Depth} (s : OrderSide) (hown : d s = d' s)
    (hopp : d s.opposite = d' s.opposite) : d = d' := by
  funext t
  rcases OrderSide.eq_or_opposite s t with rfl | rfl
  · exact hown
  · exact hopp

/-! ## Sweeps -/

section Sweeps

variable {b : OrderBook} (h : SidesOk b) (amb : Ambient) {o : Order} {crosses : Int → Bool}
  (hm : CrossMono o.side.opposite crosses)

include h hm

/-- The trades of a sweep, with a quantity to fill or without. -/
theorem sweep_trades :
    (b.sweep amb o crosses).1.fills.map Fill.trade
      = tradesOf amb o 0 (allocate o.remainingQuantity
          (reachable crosses (b.resting o.side.opposite))) := by
  by_cases hq : 0 ≤ o.remainingQuantity
  · exact (sweep_greedy h amb hm hq).1
  · have hidle : sweepLoop b amb o crosses = ((b.levels o.side.opposite).entries, sweepStart b o) :=
      matchSide_idle amb o crosses _ (by change o.remainingQuantity ≤ 0; omega)
    have hnone : allocate o.remainingQuantity (reachable crosses (b.resting o.side.opposite)) = [] :=
      (Greedy.allocation_eq_nil_iff (reachable_positive (h _) crosses) _).mpr (Or.inl (by omega))
    rw [sweep_fst, hidle, hnone]
    rfl

/-- What a sweep leaves. -/
theorem depth_sweep : depth (b.sweep amb o crosses).2 = (depth b).after o crosses false := by
  refine depth_ext o.side ?_ ?_
  · rw [Depth.after_own, if_neg (fun hn => absurd hn.1 (by decide))]
    unfold depth
    rw [sweep_resting_own]
  · rw [Depth.after_opposite]
    unfold depth
    rw [left_offers]
    by_cases hq : 0 ≤ o.remainingQuantity
    · rw [Int.max_eq_left hq]
      exact map_offerOf_sameBut (sweep_greedy h amb hm hq).2
    · have hidle : sweepLoop b amb o crosses
          = ((b.levels o.side.opposite).entries, sweepStart b o) :=
        matchSide_idle amb o crosses _ (by change o.remainingQuantity ≤ 0; omega)
      have hzero : leftOver 0 (reachable crosses (b.resting o.side.opposite))
          = reachable crosses (b.resting o.side.opposite) :=
        leftOver_zero (reachable_positive (h _) crosses)
      rw [Int.max_eq_right (by omega), hzero, resting_split h hm, sweep_resting_opposite, hidle]
      rfl

end Sweeps

/-! ## Insertion and removal -/

theorem depth_insert_own {b : OrderBook} (h : SidesOk b) (order : Order) :
    depth (b.insertIntoBook order) order.side
      = Depth.place order.side (offerOf order) (depth b order.side) := by
  obtain ⟨pre, post, hold, hnew, hpre, hpost⟩ := pushBack_place (h order.side) order
  unfold depth resting
  rw [insert_levels_own, hold, hnew, List.map_append, List.map_append, List.map_cons]
  refine (Depth.place_cut ?_ ?_).symm
  · intro y hy
    obtain ⟨x, hx, rfl⟩ := List.mem_map.mp hy
    intro hbetter
    rcases hpre x hx with hlt | heq
    · exact irrefl _ (IsTrans.trans _ _ _ hlt hbetter)
    · rw [show (offerOf x).price = order.price from heq] at hbetter
      exact irrefl _ hbetter
  · intro y hy
    obtain ⟨x, hx, rfl⟩ := List.mem_map.mp hy
    exact hpost x hx

theorem depth_insert_of_ne {b : OrderBook} (order : Order) {s : OrderSide} (hs : s ≠ order.side) :
    depth (b.insertIntoBook order) s = depth b s := by
  unfold depth resting
  rw [insert_levels_of_ne b order hs]

/-- A new order that is taken out again leaves the levels as they were. -/
theorem dropFromLevel_pushBack {s : OrderSide} {m : OrdMap Int (List Order) (better s)}
    (h : SideOk s m.entries) (order : Order)
    (hfresh : ∀ x ∈ Levels.orders m.entries, x.orderId ≠ order.orderId) :
    ∃ queue, (pushBack m order).find? order.price = some queue
      ∧ (dropFromLevel (pushBack m order) order.price queue order.orderId).entries = m.entries := by
  obtain ⟨l₁, queue, l₂, -, -, -, hold, hnew⟩ := pushBack_cut h order
  have hkeep : (queue ++ [order]).filter (fun x => x.orderId ≠ order.orderId) = queue := by
    have hqueue : queue.filter (fun x => x.orderId ≠ order.orderId) = queue := by
      refine List.filter_eq_self.mpr (fun x hx => ?_)
      have hmem : x ∈ Levels.orders m.entries := by
        rw [hold, orders_append, orders_collapse]
        exact List.mem_append_right _ (List.mem_append_left _ hx)
      simpa using hfresh x hmem
    rw [List.filter_append, hqueue, List.filter_cons_of_neg (by simp), List.filter_nil,
      List.append_nil]
  refine ⟨queue ++ [order], OrdMap.find?_cut hnew, ?_⟩
  unfold dropFromLevel
  dsimp only
  rw [hkeep, hold]
  unfold collapse
  split
  · exact OrdMap.erase_cut hnew
  · exact OrdMap.upsert_cut hnew

/-- For the whole book; at price 0 the order stays in its queue. -/
theorem depth_remove_insert {b : OrderBook} (h : SidesOk b) (order : Order)
    (hfresh : NotResting b order.orderId) :
    depth ((b.insertIntoBook order).removeFromBook order.orderId).2
      = if order.price = 0 then depth (b.insertIntoBook order) else depth b := by
  have hl : (b.insertIntoBook order).orderIndex.lookup order.orderId = some order :=
    Finmap.lookup_insert _
  by_cases hp : order.price = 0
  · rw [if_pos hp, removeFromBook_unpriced hl hp]
    funext s
    unfold depth resting
    rw [levels_mk]
  · obtain ⟨queue, hfind, hdrop⟩ := dropFromLevel_pushBack (h order.side) order
      (fun x hx => hfresh x (mem_allOrders.mpr ⟨_, hx⟩))
    rw [← insert_levels_own] at hfind hdrop
    rw [if_neg hp, removeFromBook_found hl hp hfind]
    refine depth_ext order.side ?_ ?_
    · unfold depth resting
      rw [levels_mk, levels_setLevels, hdrop]
    · unfold depth resting
      rw [levels_mk, levels_setLevels_of_ne _ _ _ (OrderSide.opposite_ne _),
        insert_levels_of_ne b order (OrderSide.opposite_ne _)]

/-- An id that rests nowhere and is not in the index does not get into it by a sweep. -/
theorem sweep_lookup_none {b : OrderBook} (h : SidesOk b) (amb : Ambient) (o : Order)
    (crosses : Int → Bool) {id : String} (hfresh : NotResting b id)
    (hnone : b.orderIndex.lookup id = none) :
    (b.sweep amb o crosses).2.orderIndex.lookup id = none := by
  have hfill : KeptByFill amb o crosses (fun ls st =>
      (∀ x ∈ Levels.orders ls, x.orderId ≠ id) ∧ st.orderIndex.lookup id = none) := by
    intro p passive rest behind st _ _ ⟨hne, hlookup⟩
    have hpassive : id ≠ passive.orderId := (hne passive (List.mem_cons_self ..)).symm
    rw [orders_cons] at hne
    rw [orders_afterFill, fillFront_orderIndex]
    split
    · refine ⟨fun x hx => ?_, (Finmap.lookup_insert_of_ne _ hpassive).trans hlookup⟩
      rcases List.mem_cons.mp hx with rfl | hx
      · exact hpassive.symm
      · exact hne x (List.mem_cons_of_mem _ hx)
    · exact ⟨fun x hx => hne x (List.mem_cons_of_mem _ hx),
        (Finmap.lookup_erase_ne hpassive).trans hlookup⟩
  exact (matchSide_rule hfill _ (sweepStart b o) (h _).nonempty
    ⟨fun x hx => hfresh x (mem_allOrders.mpr ⟨_, hx⟩), hnone⟩).2

/-! ## Well-formed sides -/

theorem sidesOk_match [PoppedId] {b : OrderBook} (h : SidesOk b) (amb : Ambient) (o : Order) :
    SidesOk (b.matchIncoming amb o).2 :=
  matchIncoming_rule (P := fun _ b' => SidesOk b') (Q := fun _ b' => SidesOk b') h
    (fun crosses => sidesOk_sweep amb o crosses h) (fun _ _ hP => hP)
    (fun _ hrem hP => sidesOk_insert hP hrem) (fun _ _ hQ => sidesOk_remove hQ _)

/-- **The sides of every book are well formed**, after any calls and whatever is read of the
orders that were filled. -/
theorem sidesOk_reachable [PoppedId] (symbol : String) (ops : List BookOp) :
    SidesOk (bookAfter symbol ops) := by
  refine run_always OrderBook.step (P := fun _ b => SidesOk b) (repInv_new symbol).side ?_ ops
  intro ops op h
  cases op with
  | matchIncoming amb o => exact sidesOk_match h amb o
  | removeFromBook id => exact sidesOk_remove h id

/-! ## Calls -/

/-- What an order does not find rests in the book: that of a limit order, and that of an IOC
order without a price, which is not found again. -/
def restsIn (o : Order) : Bool := o.type = .limit || (o.type = .ioc && o.price = 0)

/-- An IOC order has an id of its own. -/
def IocFresh (b : OrderBook) (o : Order) : Prop :=
  o.type = .ioc → NotResting b o.orderId ∧ b.orderIndex.lookup o.orderId = none

section Calls

variable {b : OrderBook} (h : SidesOk b) (amb : Ambient) (o : Order)

include h

theorem depth_matchLimit : depth (b.matchLimit amb o).2 = (depth b).afterLimit o := by
  have hmono := crossMono_limit o
  have hsweep := depth_sweep h amb hmono
  have hiff := sweep_remainder_iff h amb hmono
  have hunmet : Depth.unmet (crossesLimit o) o.remainingQuantity (depth b o.side.opposite)
      = o.remainingQuantity - crossing (crossesLimit o) (b.resting o.side.opposite) :=
    unmet_offers _ _ _
  refine depth_ext o.side ?_ ?_
  · unfold Depth.afterLimit
    rw [Depth.after_own, hunmet]
    rcases matchLimit_cases b amb o with ⟨hrem, heq⟩ | ⟨hrem, heq⟩
    · have hcovered := mt hiff.mpr (not_lt.mpr hrem)
      rw [heq, hsweep, Depth.after_own, if_neg (fun hn => absurd hn.1 (by decide)),
        if_neg (fun hn => hcovered (by omega))]
    · have hlt := hiff.mp hrem
      have hsame := congrFun hsweep o.side
      rw [Depth.after_own, if_neg (fun hn => absurd hn.1 (by decide))] at hsame
      have hinsert := depth_insert_own (sidesOk_sweep amb o (crossesLimit o) h) (remainder b amb o)
      have hoffer : offerOf (remainder b amb o) = ⟨o.price,
          o.remainingQuantity - crossing (crossesLimit o) (b.resting o.side.opposite)⟩ := by
        rw [← sweep_remaining h amb hmono hrem]
        rfl
      rw [hoffer] at hinsert
      rw [heq, if_pos ⟨rfl, by omega⟩, ← hsame]
      exact hinsert
  · have hopp := congrFun hsweep o.side.opposite
    unfold Depth.afterLimit
    rw [Depth.after_opposite] at hopp ⊢
    rw [← hopp]
    rcases matchLimit_cases b amb o with ⟨-, heq⟩ | ⟨-, heq⟩
    · rw [heq]
    · rw [heq]
      exact depth_insert_of_ne (remainder b amb o) (OrderSide.opposite_ne _)

/-- The remainder of an IOC order is taken out again. -/
theorem depth_matchIoc (hfresh : NotResting b o.orderId)
    (hnone : b.orderIndex.lookup o.orderId = none) :
    depth (b.matchIoc amb o).2 = (depth b).after o (crossesLimit o) (o.price = 0) := by
  have hsides := sidesOk_sweep amb o (crossesLimit o) h
  have hsweep := depth_sweep h amb (crossMono_limit o)
  have hlimit := depth_matchLimit h amb o
  unfold Depth.afterLimit at hlimit
  have hnew : NotResting (b.sweep amb o (crossesLimit o)).2 o.orderId := by
    intro x hx
    obtain ⟨s, hs⟩ := mem_allOrders.mp hx
    rcases OrderSide.eq_or_opposite o.side s with rfl | rfl
    · rw [sweep_resting_own] at hs
      exact hfresh x (mem_allOrders.mpr ⟨_, hs⟩)
    · rw [sweep_resting_opposite] at hs
      obtain ⟨y, hy, hv⟩ := (sweepInv amb o (crossesLimit o) (h _) rfl).versions x hs
      rw [hv.orderId]
      exact hfresh y (mem_allOrders.mpr ⟨_, hy⟩)
  unfold matchIoc
  dsimp only
  rcases matchLimit_cases b amb o with ⟨hrem, heq⟩ | ⟨hrem, heq⟩
  · -- nothing was inserted, and there is nothing to take out
    have habsent := sweep_lookup_none h amb o (crossesLimit o) hfresh hnone
    rw [heq] at hlimit ⊢
    dsimp only at hlimit ⊢
    rw [removeFromBook, habsent]
    dsimp only
    by_cases hp : o.price = 0
    · rw [decide_eq_true hp]; exact hlimit
    · rw [decide_eq_false hp]; exact hsweep
  · rw [heq] at hlimit ⊢
    dsimp only at hlimit ⊢
    have hback := depth_remove_insert hsides (remainder b amb o) hnew
    refine hback.trans ?_
    change (if o.price = 0 then _ else _) = _
    by_cases hp : o.price = 0
    · rw [if_pos hp, decide_eq_true hp]; exact hlimit
    · rw [if_neg hp, decide_eq_false hp]; exact hsweep

/-- **The trades of a call** are the greedy allocation over the orders it can reach. -/
theorem match_trades :
    (b.matchIncoming amb o).1.map Fill.trade
      = tradesOf amb o 0 (allocate o.remainingQuantity
          (reachable (reaches b o) (b.resting o.side.opposite))) := by
  have hlimit : (b.matchLimit amb o).1 = (b.sweep amb o (crossesLimit o)).1.fills := by
    rcases matchLimit_cases b amb o with ⟨-, heq⟩ | ⟨-, heq⟩ <;> rw [heq]
  have hnone : reachable (fun _ => false) (b.resting o.side.opposite) = [] :=
    List.filter_eq_nil_iff.mpr (fun _ _ => by simp)
  unfold matchIncoming reaches
  cases o.type with
  | market => exact sweep_trades h amb (crossMono_all _)
  | limit =>
      dsimp only
      rw [hlimit]
      exact sweep_trades h amb (crossMono_limit o)
  | ioc =>
      dsimp only [matchIoc]
      rw [hlimit]
      exact sweep_trades h amb (crossMono_limit o)
  | fok =>
      dsimp only [matchFok]
      split
      · rename_i hless
        rw [decide_eq_false (by omega), hnone]
        rfl
      · rename_i henough
        rw [decide_eq_true (by omega)]
        exact sweep_trades h amb (crossMono_all _)
  | stopLimit =>
      dsimp only
      rw [hnone]
      rfl

/-- **What a call leaves to trade with.** -/
theorem match_depth (hioc : IocFresh b o) :
    depth (b.matchIncoming amb o).2 = (depth b).after o (reaches b o) (restsIn o) := by
  have hidle : depth b = (depth b).after o (fun _ => false) false := by
    refine depth_ext o.side ?_ ?_
    · rw [Depth.after_own, if_neg (fun hn => absurd hn.1 (by decide))]
    · rw [Depth.after_opposite, Depth.left_unreachable]
  unfold IocFresh at hioc
  unfold matchIncoming reaches restsIn
  cases ht : o.type with
  | market => exact depth_sweep h amb (crossMono_all _)
  | limit => exact depth_matchLimit h amb o
  | ioc =>
      obtain ⟨hfresh, hnone⟩ := hioc ht
      exact depth_matchIoc h amb o hfresh hnone
  | fok =>
      dsimp only [matchFok]
      split
      · rename_i hless
        rw [decide_eq_false (by omega)]
        exact hidle
      · rename_i henough
        rw [decide_eq_true (by omega)]
        exact depth_sweep h amb (crossMono_all _)
  | stopLimit => exact hidle

end Calls

/-! ## The prices of the trades -/

theorem tradesOf_price (amb : Ambient) (o : Order) (n : Nat) (shares : List (Order × Int)) :
    (tradesOf amb o n shares).map Trade.price = shares.map (fun s => s.1.price) := by
  induction shares generalizing n with
  | nil => rfl
  | cons s shares ih =>
      rw [tradesOf, List.map_cons, List.map_cons, ih]
      rfl

theorem tradesOf_symbol (amb : Ambient) (o : Order) (n : Nat) (shares : List (Order × Int)) :
    ∀ t ∈ tradesOf amb o n shares, t.symbol = o.symbol := by
  induction shares generalizing n with
  | nil => exact fun t ht => absurd ht List.not_mem_nil
  | cons s shares ih =>
      intro t ht
      rcases List.mem_cons.mp ht with rfl | ht
      · rfl
      · exact ih (n + 1) t ht

/-- The prices an order trades at, one after the other. -/
def Depth.prices (can : Int → Bool) (q : Int) (L : List Offer) : List Int :=
  (Depth.taken can q L).map (fun s => s.1.price)

theorem match_prices {b : OrderBook} (h : SidesOk b) (amb : Ambient) (o : Order) :
    (b.matchIncoming amb o).1.map (fun f => f.trade.price)
      = Depth.prices (reaches b o) o.remainingQuantity (depth b o.side.opposite) := by
  have hprices : (b.matchIncoming amb o).1.map (fun f => f.trade.price)
      = ((b.matchIncoming amb o).1.map Fill.trade).map Trade.price := by
    rw [List.map_map]; rfl
  unfold Depth.prices depth
  rw [hprices, match_trades h, tradesOf_price, taken_offers, List.map_map]
  rfl

theorem match_symbol {b : OrderBook} (h : SidesOk b) (amb : Ambient) (o : Order) :
    ∀ f ∈ (b.matchIncoming amb o).1, f.trade.symbol = o.symbol := by
  intro f hf
  have hmem : f.trade ∈ (b.matchIncoming amb o).1.map Fill.trade := List.mem_map_of_mem hf
  rw [match_trades h amb o] at hmem
  exact tradesOf_symbol amb o 0 _ f.trade hmem

/-- Nothing is traded exactly if nothing is brought or nothing can be reached. -/
theorem Depth.prices_eq_nil_iff {can : Int → Bool} {q : Int} {L : List Offer}
    (hpos : ∀ x ∈ L, 0 < x.quantity) :
    Depth.prices can q L = [] ↔ (0 < q → ∀ x ∈ L, can x.price = false) := by
  unfold Depth.prices Depth.taken
  rw [List.map_eq_nil_iff,
    Greedy.allocation_eq_nil_iff (fun x hx => hpos x (List.mem_filter.mp hx).1), List.filter_eq_nil_iff]
  constructor
  · intro hor hq x hx
    simpa using hor.resolve_left (by omega) x hx
  · intro himp
    by_cases hq : 0 < q
    · exact Or.inr (fun x hx => by simp [himp hq x hx])
    · exact Or.inl (by omega)

end TitanX.Proof
