import TitanX.Proof.StaleRun
import TitanX.Proof.Untimed

/-!
# Splitting a market order

One market order, or the same quantity in two: wherever the first of the two ends, inside an
order, between two orders, at the end of a level or of the side, the second goes on from
there, and the book and the totals come out the same.

By `sweep_greedy` both ways are greedy allocations, and the laws of those say that the orders
left over, every weighted sum of the shares and the last order touched do not depend on the
split. That is about lists of orders. What is to be added here is what the lists do not show:
the levels (a side is determined by its orders in priority order, `levels_related`), the
statuses (`Live` determines them), and the index (`index_alike_iff`). An entry that a full fill
leaves stale shows the order as the last call found it, and there the two ways can differ.
-/

namespace TitanX.Proof

open TitanX OrderBook

/-! ## A side is determined by its orders -/

/-- The first level and the rest of a side, as parts of its list of orders. -/
theorem orders_level {s : OrderSide} {p : Int} {queue : List Order} {ls : Levels}
    (h : SideOk s ((p, queue) :: ls))
    (hsorted : ((p, queue) :: ls).Pairwise (fun a b => better s a.1 b.1)) :
    (Levels.orders ((p, queue) :: ls)).filter (fun x => x.price = p) = queue
      ∧ (Levels.orders ((p, queue) :: ls)).filter (fun x => x.price ≠ p) = Levels.orders ls := by
  have hq : ∀ x ∈ queue, x.price = p := fun x hx => (h.head x hx).1.2
  have hne : ∀ x ∈ Levels.orders ls, x.price ≠ p := by
    refine h.tail.prices (P := fun q => q ≠ p) (fun l hl heq => ?_)
    have hbetter := (List.pairwise_cons.mp hsorted).1 l hl
    rw [heq] at hbetter
    exact irrefl_of (better s) p hbetter
  rw [orders_cons, List.filter_append, List.filter_append]
  constructor
  · rw [List.filter_eq_self.mpr (by simpa using hq), List.filter_eq_nil_iff.mpr (by simpa using hne),
      List.append_nil]
  · rw [List.filter_eq_nil_iff.mpr (by simpa using hq), List.filter_eq_self.mpr (by simpa using hne),
      List.nil_append]

theorem SideOk.orders_ne_nil {s : OrderSide} {p : Int} {queue : List Order} {ls : Levels}
    (h : SideOk s ((p, queue) :: ls)) : Levels.orders ((p, queue) :: ls) ≠ [] := by
  intro hnil
  rw [orders_cons] at hnil
  exact h.nonempty _ (List.mem_cons_self ..) (List.append_eq_nil_iff.mp hnil).1

section Related

variable {R : Order → Order → Prop} (hR : ∀ x y, R x y → y.price = x.price) {s : OrderSide}

include hR

/-- Related orders are in first levels at one price, and in the same places behind them. -/
theorem first_level_related {p p' : Int} {queue queue' : List Order} {ls ls' : Levels}
    (h : SideOk s ((p, queue) :: ls)) (h' : SideOk s ((p', queue') :: ls'))
    (hs : ((p, queue) :: ls).Pairwise (fun a b => better s a.1 b.1))
    (hs' : ((p', queue') :: ls').Pairwise (fun a b => better s a.1 b.1))
    (hall : List.Forall₂ R (Levels.orders ((p, queue) :: ls))
      (Levels.orders ((p', queue') :: ls'))) :
    p' = p ∧ List.Forall₂ R queue queue'
      ∧ List.Forall₂ R (Levels.orders ls) (Levels.orders ls') := by
  -- the first orders are related, so the first levels are at one price
  have hp : p' = p := by
    obtain ⟨x, rest, rfl⟩ := List.exists_cons_of_ne_nil (h.nonempty _ (List.mem_cons_self ..))
    obtain ⟨y, rest', rfl⟩ := List.exists_cons_of_ne_nil (h'.nonempty _ (List.mem_cons_self ..))
    have hxy := (List.forall₂_cons.mp hall).1
    rw [← (h.head x (List.mem_cons_self ..)).1.2, ← (h'.head y (List.mem_cons_self ..)).1.2]
    exact hR x y hxy
  subst hp
  obtain ⟨hfirst, hrest⟩ := orders_level h hs
  obtain ⟨hfirst', hrest'⟩ := orders_level h' hs'
  refine ⟨rfl, ?_, ?_⟩
  · rw [← hfirst, ← hfirst']
    exact List.rel_filter (fun x y hxy => by simp [hR x y hxy]) hall
  · rw [← hrest, ← hrest']
    exact List.rel_filter (fun x y hxy => by simp [hR x y hxy]) hall

/-- Two sides with related orders at the same prices have related levels. -/
theorem levels_related {ls : Levels} : ∀ {ls' : Levels}, SideOk s ls → SideOk s ls' →
    ls.Pairwise (fun a b => better s a.1 b.1) → ls'.Pairwise (fun a b => better s a.1 b.1) →
    List.Forall₂ R (Levels.orders ls) (Levels.orders ls') →
    OrdMap.Related id (List.Forall₂ R) ls ls' := by
  induction ls with
  | nil =>
      intro ls' _ h' _ _ hall
      cases ls' with
      | nil => exact .nil
      | cons l' ls' => exact absurd (List.forall₂_nil_left_iff.mp hall) h'.orders_ne_nil
  | cons l ls ih =>
      intro ls' h h' hs hs' hall
      cases ls' with
      | nil => exact absurd (List.forall₂_nil_right_iff.mp hall) h.orders_ne_nil
      | cons l' ls' =>
          obtain ⟨hp, hq, hls⟩ := first_level_related hR h h' hs hs' hall
          exact .cons ⟨hp, hq⟩ (ih h.tail h'.tail (List.pairwise_cons.mp hs).2
            (List.pairwise_cons.mp hs').2 hls)

end Related

/-! ## Statuses -/

/-- The status of a resting order follows from its quantities. -/
theorem SameBut.sameOrder {x y : Order} (h : SameBut x y) (hx : Live x) (hy : Live y) :
    SameOrder x y := by
  obtain ⟨status, updatedAt, rfl⟩ := h
  have hstatus : status = x.status := hy.status.trans hx.status.symm
  subst hstatus
  exact ⟨updatedAt, rfl⟩

theorem sameQueue_of_live {L M : List Order} (h : List.Forall₂ SameBut L M)
    (hL : ∀ x ∈ L, Live x) (hM : ∀ x ∈ M, Live x) : SameQueue L M := by
  induction h with
  | nil => exact .nil
  | @cons x y L M hxy _ ih =>
      refine .cons (hxy.sameOrder (hL x (List.mem_cons_self ..)) (hM y (List.mem_cons_self ..))) ?_
      exact ih (fun z hz => hL z (List.mem_cons_of_mem _ hz))
        (fun z hz => hM z (List.mem_cons_of_mem _ hz))

/-! ## The index -/

/-- Two ways to the same orders lead to the same entries of those orders. -/
theorem entry_alike {L L₁ L₂ : List Order} {index index₁ index₂ : Finmap (fun _ : String => Order)}
    (hnd : (L.map Order.orderId).Nodup) (h₁ : Reindexed L index L₁ index₁)
    (h₂ : Reindexed L index L₂ index₂) {y y' : Order} (hy : y ∈ L₁) (hy' : y' ∈ L₂)
    (hsame : SameOrder y y') :
    Option.Rel SameOrder (index₁.lookup y.orderId) (index₂.lookup y.orderId) := by
  have hid' := hsame.orderId
  have hrem := hsame.remainingQuantity
  have hcase₂ := h₂ y' hy'
  rw [hid'] at hcase₂
  rcases h₁ y hy with ⟨hyL, hl₁⟩ | ⟨⟨x, hx, hxid, hlt⟩, hl₁⟩
  · rcases hcase₂ with ⟨-, hl₂⟩ | ⟨⟨x, hx, hxid, hlt⟩, -⟩
    · rw [hl₁, hl₂]
      cases index.lookup y.orderId with
      | none => exact .none
      | some o => exact .some (SameOrder.refl o)
    · have hxy := eq_of_orderId hnd hx hyL hxid
      subst hxy
      omega
  · rcases hcase₂ with ⟨hyL, -⟩ | ⟨-, hl₂⟩
    · have hxy := eq_of_orderId hnd hx hyL (hxid.trans hid'.symm)
      subst hxy
      omega
    · rw [hl₁, hl₂]
      exact .some hsame

/-- **When two ways to the same orders lead to the same index**: one sweep from `L` to `L₁`, or
one to `M` and from there another to `L₂`. A stale entry is the order as it was before the
last call, so the ways differ where the first of the two cut down an order that the second
used up. -/
theorem index_alike_iff {r : PoppedId} {L L₁ M L₂ : List Order}
    {index index₁ between index₂ : Finmap (fun _ : String => Order)}
    (hnd : (L.map Order.orderId).Nodup) (h₁ : SweptIndex r L index L₁ index₁)
    (hfirst : SweptIndex r L index M between) (hsecond : SweptIndex r M between L₂ index₂)
    (hto : ∀ y ∈ L₁, ∃ y' ∈ L₂, SameOrder y y') (hfrom : ∀ y' ∈ L₂, ∃ y ∈ L₁, SameOrder y y')
    (hentry : ∀ x ∈ L, ∀ e, index.lookup x.orderId = some e → e = x) :
    FinmapRel SameOrder index₁ index₂ ↔
      ∀ x ∈ L, r.intact x.orderId = false → (∀ y ∈ L₁, y.orderId ≠ x.orderId) →
        ¬ ∃ y ∈ M, y.orderId = x.orderId ∧ y.remainingQuantity < x.remainingQuantity := by
  have hgone₂ : ∀ x, (∀ y ∈ L₁, y.orderId ≠ x) → ∀ y' ∈ L₂, y'.orderId ≠ x := by
    intro x hgone y' hy'
    obtain ⟨y, hy, hsame⟩ := hfrom y' hy'
    rw [hsame.orderId]
    exact hgone y hy
  have hrefl : ∀ id, Option.Rel SameOrder (index.lookup id) (index.lookup id) := by
    intro id
    cases index.lookup id with
    | none => exact .none
    | some o => exact .some (SameOrder.refl o)
  constructor
  · rintro hrel x hx hlost hgone ⟨y, hy, hid, hlt⟩
    -- one way leaves the order as it was, the other as it was in between
    have hone := h₁.popped x hx hgone
    have htwo := hsecond.popped y hy (hid ▸ hgone₂ _ hgone)
    rcases hfirst.resting y hy with ⟨hyL, -⟩ | ⟨-, hbetween⟩
    · have hxy := eq_of_orderId hnd hyL hx hid
      subst hxy
      omega
    · have hx' := hrel x.orderId
      rw [hid, hlost] at htwo
      rw [hid] at hbetween
      rw [hlost] at hone
      simp only [Bool.false_eq_true, if_false] at hone htwo
      rw [hone, htwo, hbetween] at hx'
      cases he : index.lookup x.orderId with
      | none => rw [he] at hx'; cases hx'
      | some e =>
          rw [he] at hx'
          cases hx' with
          | some hsame =>
              have hrem := hsame.remainingQuantity
              rw [hentry x hx e he] at hrem
              omega
  · intro hnone id
    by_cases hid : ∃ x ∈ L, x.orderId = id
    · obtain ⟨x, hx, rfl⟩ := hid
      by_cases hrest : ∃ y ∈ L₁, y.orderId = x.orderId
      · obtain ⟨y, hy, hyid⟩ := hrest
        obtain ⟨y', hy', hsame⟩ := hto y hy
        rw [← hyid]
        exact entry_alike hnd h₁.resting (hfirst.resting.trans hsecond.resting) hy hy' hsame
      · have hgone : ∀ y ∈ L₁, y.orderId ≠ x.orderId := fun y hy heq => hrest ⟨y, hy, heq⟩
        rw [h₁.popped x hx hgone]
        by_cases hmid : ∃ y ∈ M, y.orderId = x.orderId
        · -- used up by the second, which the first did not touch if its id is lost
          obtain ⟨y, hy, hyid⟩ := hmid
          have htwo := hsecond.popped y hy (hyid ▸ hgone₂ _ hgone)
          rw [hyid] at htwo
          rw [htwo]
          cases hlost : r.intact x.orderId with
          | true => exact .none
          | false =>
              rcases hfirst.resting y hy with ⟨-, hl⟩ | ⟨⟨x', hx', hid', hlt⟩, -⟩
              · rw [hyid] at hl
                rw [hl]
                exact hrefl _
              · have hxx := eq_of_orderId hnd hx' hx (hid'.trans hyid)
                subst hxx
                exact absurd ⟨y, hy, hyid, hlt⟩ (hnone x' hx hlost hgone)
        · have hgoneM : ∀ y ∈ M, y.orderId ≠ x.orderId := fun y hy heq => hmid ⟨y, hy, heq⟩
          rw [hsecond.others _ hgoneM, hfirst.popped x hx hgoneM]
          split
          · exact .none
          · exact hrefl _
    · have hL : ∀ x ∈ L, x.orderId ≠ id := fun x hx heq => hid ⟨x, hx, heq⟩
      have hM : ∀ y ∈ M, y.orderId ≠ id := by
        intro y hy heq
        obtain ⟨x, hx, hxid⟩ := hfirst.resting.exists_orderId hy
        exact hL x hx (hxid.trans heq)
      rw [h₁.others id hL, hsecond.others id hM, hfirst.others id hL]
      exact hrefl id

/-! ## Totals -/

/-- A weight of trades that is a weight of their passive orders, whatever their quantity and
standing. -/
structure PassiveWeight (g : Trade → Int) (w : Order → Int) : Prop where
  trade : ∀ id now aggressor x n, g (Trade.create id now aggressor x x.price n) = w x
  reduced : ∀ x n, w (reduceTo x n) = w x
  same : ∀ x y, SameBut x y → w y = w x

theorem passiveWeight_price : PassiveWeight Trade.price Order.price where
  trade _ _ _ _ _ := rfl
  reduced _ _ := rfl
  same _ _ h := h.price

theorem passiveWeight_orderId (id : String) :
    PassiveWeight (fun t => if t.passiveOrderId = id then 1 else 0)
      (fun x => if x.orderId = id then 1 else 0) where
  trade _ _ _ _ _ := rfl
  reduced _ _ := rfl
  same _ _ h := by obtain ⟨_, _, rfl⟩ := h; rfl

/-- The sum of the quantities of some trades, each times its weight. -/
def weigh (g : Trade → Int) (fills : List Fill) : Int :=
  (fills.map (fun f => g f.trade * f.trade.quantity)).sum

theorem weigh_append (g : Trade → Int) (fills fills' : List Fill) :
    weigh g (fills ++ fills') = weigh g fills + weigh g fills' := by
  simp [weigh]

theorem executed_eq_weigh (id : String) (fills : List Fill) :
    executed Trade.passiveOrderId id fills
      = weigh (fun t => if t.passiveOrderId = id then 1 else 0) fills := by
  unfold executed weigh
  congr 1
  refine List.map_congr_left (fun f _ => ?_)
  dsimp only
  by_cases hf : f.trade.passiveOrderId = id
  · rw [if_pos hf, if_pos hf, Int.one_mul]
  · rw [if_neg hf, if_neg hf, Int.zero_mul]

theorem sum_tradesOf (amb : Ambient) (aggressor : Order) {g : Trade → Int} {w : Order → Int}
    (hg : PassiveWeight g w) (shares : List (Order × Int)) :
    ∀ n, ((tradesOf amb aggressor n shares).map (fun t => g t * t.quantity)).sum
      = (shares.map (fun s => w s.1 * s.2)).sum := by
  induction shares with
  | nil => intro n; rfl
  | cons s shares ih =>
      intro n
      rw [tradesOf, List.map_cons, List.map_cons, List.sum_cons, List.sum_cons, ih, hg.trade]
      rfl

theorem prices_tradesOf (amb : Ambient) (aggressor : Order) (shares : List (Order × Int)) :
    ∀ n, (tradesOf amb aggressor n shares).map Trade.price = shares.map (fun s => s.1.price) := by
  induction shares with
  | nil => intro n; rfl
  | cons s shares ih =>
      intro n
      rw [tradesOf, List.map_cons, List.map_cons, ih]
      rfl

/-! ## One market order -/

section Market

variable {b : OrderBook} (h : RepInv b) (amb : Ambient) {o : Order} (ht : o.type = .market)

theorem matchIncoming_market [PoppedId] (b : OrderBook) (amb : Ambient) {o : Order} (ht : o.type = .market) :
    b.matchIncoming amb o = ((b.sweep amb o (fun _ => true)).1.fills,
      (b.sweep amb o (fun _ => true)).2) := by
  rw [matchIncoming, ht]
  rfl

theorem market_own (b : OrderBook) (amb : Ambient) {o : Order} (ht : o.type = .market) :
    (b.matchIncoming amb o).2.levels o.side = b.levels o.side := by
  rw [matchIncoming_market b amb ht]
  exact sweep_levels_own b amb o _

include h ht

theorem repInv_market : RepInv (b.matchIncoming amb o).2 := by
  rw [matchIncoming_market b amb ht]
  exact repInv_sweep h amb o _

theorem live_market (hl : ∀ x ∈ allOrders b, Live x) :
    ∀ x ∈ allOrders (b.matchIncoming amb o).2, Live x := by
  rw [matchIncoming_market b amb ht]
  exact live_sweep h hl amb o _

variable (hq : 0 ≤ o.remainingQuantity)

include hq

/-- A market order reaches the whole other side. -/
theorem market_greedy :
    (b.matchIncoming amb o).1.map Fill.trade
        = tradesOf amb o 0 (allocate o.remainingQuantity (b.resting o.side.opposite))
      ∧ List.Forall₂ SameBut (leftOver o.remainingQuantity (b.resting o.side.opposite))
          ((b.matchIncoming amb o).2.resting o.side.opposite) := by
  have hall : reachable (fun _ => true) (b.resting o.side.opposite) = b.resting o.side.opposite :=
    List.filter_eq_self.mpr (fun _ _ => rfl)
  have hnone : beyond (fun _ => true) (b.resting o.side.opposite) = [] :=
    List.filter_eq_nil_iff.mpr (fun _ _ => by simp)
  have hgreedy := sweep_greedy h.side amb (crossMono_all _) hq
  rw [hall, hnone, List.append_nil] at hgreedy
  rw [matchIncoming_market b amb ht]
  exact hgreedy

theorem market_weigh {g : Trade → Int} {w : Order → Int} (hg : PassiveWeight g w) :
    weigh g (b.matchIncoming amb o).1 = Greedy.weight Order.remainingQuantity w
      o.remainingQuantity (b.resting o.side.opposite) := by
  have hmap : weigh g (b.matchIncoming amb o).1
      = (((b.matchIncoming amb o).1.map Fill.trade).map (fun t => g t * t.quantity)).sum := by
    rw [List.map_map]
    rfl
  rw [hmap, (market_greedy h amb ht hq).1, sum_tradesOf amb o hg,
    Greedy.weight_eq_sum (h.resting_positive _) hq]
  rfl

theorem market_lastTradePrice :
    (b.matchIncoming amb o).2.lastTradePrice = (Greedy.last Order.remainingQuantity Order.price
      o.remainingQuantity (b.resting o.side.opposite)).or b.lastTradePrice := by
  rw [match_lastTradePrice b amb o, lastPrice, ← List.getLast?_map,
    (market_greedy h amb ht hq).1, prices_tradesOf, List.getLast?_map]
  rfl

end Market

/-! ## Two of them -/

/-- One order after the other: the executions of both, and the book they leave. -/
def matchTwice [PoppedId] (b : OrderBook) (amb₁ : Ambient) (o₁ : Order) (amb₂ : Ambient) (o₂ : Order) :
    List Fill × OrderBook :=
  let r₁ := b.matchIncoming amb₁ o₁
  let r₂ := r₁.2.matchIncoming amb₂ o₂
  (r₁.1 ++ r₂.1, r₂.2)

/-- Two market orders of one side, with together the quantity of a third. -/
structure SplitOf (o o₁ o₂ : Order) : Prop where
  market : o.type = .market
  market₁ : o₁.type = .market
  market₂ : o₂.type = .market
  side₁ : o₁.side = o.side
  side₂ : o₂.side = o.side
  positive₁ : 0 < o₁.remainingQuantity
  positive₂ : 0 < o₂.remainingQuantity
  sum : o.remainingQuantity = o₁.remainingQuantity + o₂.remainingQuantity

section Split

variable {b : OrderBook} (h : RepInv b) (amb amb₁ amb₂ : Ambient) {o o₁ o₂ : Order}
  (hsplit : SplitOf o o₁ o₂)

include hsplit

theorem split_own :
    (matchTwice b amb₁ o₁ amb₂ o₂).2.levels o.side = (b.matchIncoming amb o).2.levels o.side := by
  have hone := market_own b amb hsplit.market
  have hfirst := market_own b amb₁ hsplit.market₁
  have hsecond := market_own (b.matchIncoming amb₁ o₁).2 amb₂ hsplit.market₂
  rw [hsplit.side₁] at hfirst
  rw [hsplit.side₂] at hsecond
  exact (hsecond.trans hfirst).trans hone.symm

include h

/-- What the first of the two leaves for the second. -/
theorem split_between :
    List.Forall₂ SameBut (leftOver o₁.remainingQuantity (b.resting o.side.opposite))
      ((b.matchIncoming amb₁ o₁).2.resting o.side.opposite) := by
  have hleft := (market_greedy h amb₁ hsplit.market₁ hsplit.positive₁.le).2
  rw [hsplit.side₁] at hleft
  exact hleft

theorem split_resting :
    List.Forall₂ SameBut ((b.matchIncoming amb o).2.resting o.side.opposite)
      ((matchTwice b amb₁ o₁ amb₂ o₂).2.resting o.side.opposite) := by
  have hq₁ := hsplit.positive₁
  have hq₂ := hsplit.positive₂
  have hsum := hsplit.sum
  have hone := (market_greedy h amb hsplit.market (by omega)).2
  have htwo := (market_greedy (repInv_market h amb₁ hsplit.market₁) amb₂ hsplit.market₂ hq₂.le).2
  rw [hsplit.side₂] at htwo
  -- the same orders are left over of what the first one left
  have hmid := Greedy.leftover_rel (fun x y (hxy : SameBut x y) => hxy.remainingQuantity)
    (split_between h amb₁ hsplit) o₂.remainingQuantity (fun _ _ n hxy => hxy.reduceTo n)
  rw [leftOver, Greedy.leftover_leftover divisible_order (h.resting_positive _) hq₁.le hq₂.le,
    ← hsum] at hmid
  exact forall₂_sameBut_trans (forall₂_sameBut_symm hone) (forall₂_sameBut_trans hmid htwo)

theorem split_weigh {g : Trade → Int} {w : Order → Int} (hg : PassiveWeight g w) :
    weigh g (matchTwice b amb₁ o₁ amb₂ o₂).1 = weigh g (b.matchIncoming amb o).1 := by
  have h₁ := repInv_market h amb₁ hsplit.market₁
  have hq₁ := hsplit.positive₁
  have hq₂ := hsplit.positive₂
  have hsum := hsplit.sum
  rw [matchTwice, weigh_append, market_weigh h amb hsplit.market (by omega) hg,
    market_weigh h amb₁ hsplit.market₁ hq₁.le hg, market_weigh h₁ amb₂ hsplit.market₂ hq₂.le hg,
    hsplit.side₁, hsplit.side₂, hsum,
    Greedy.weight_add divisible_order (h.resting_positive _) hq₁.le hq₂.le hg.reduced]
  congr 1
  exact Greedy.weight_rel (fun x y (hxy : SameBut x y) => hxy.remainingQuantity)
    (split_between h amb₁ hsplit) _ hg.same

theorem split_lastTradePrice :
    (matchTwice b amb₁ o₁ amb₂ o₂).2.lastTradePrice
      = (b.matchIncoming amb o).2.lastTradePrice := by
  have h₁ := repInv_market h amb₁ hsplit.market₁
  have hq₁ := hsplit.positive₁
  have hq₂ := hsplit.positive₂
  have hsum := hsplit.sum
  have hlast := Greedy.last_rel (fun x y (hxy : SameBut x y) => hxy.remainingQuantity)
    (split_between h amb₁ hsplit) o₂.remainingQuantity passiveWeight_price.same
  rw [matchTwice, market_lastTradePrice h₁ amb₂ hsplit.market₂ hq₂.le,
    market_lastTradePrice h amb₁ hsplit.market₁ hq₁.le,
    market_lastTradePrice h amb hsplit.market (by omega), hsplit.side₁, hsplit.side₂, hsum,
    Greedy.last_add divisible_order (h.resting_positive _) hq₁.le hq₂.le passiveWeight_price.reduced,
    hlast, Option.or_assoc]
  rfl

/-- **The sides do not depend on the split.** -/
theorem split_sides (hl : ∀ x ∈ allOrders b, Live x) (s : OrderSide) :
    SameQueue ((b.matchIncoming amb o).2.resting s)
      ((matchTwice b amb₁ o₁ amb₂ o₂).2.resting s) := by
  have hlone := live_market h amb hsplit.market hl
  have hltwo : ∀ x ∈ allOrders (matchTwice b amb₁ o₁ amb₂ o₂).2, Live x :=
    live_market (repInv_market h amb₁ hsplit.market₁) amb₂ hsplit.market₂
      (live_market h amb₁ hsplit.market₁ hl)
  rcases OrderSide.eq_or_opposite o.side s with rfl | rfl
  · rw [resting, resting, split_own amb amb₁ amb₂ hsplit]
    exact List.forall₂_same.mpr (fun x _ => SameOrder.refl x)
  · exact sameQueue_of_live (split_resting h amb amb₁ amb₂ hsplit)
      (fun x hx => hlone x (mem_allOrders.mpr ⟨_, hx⟩))
      (fun x hx => hltwo x (mem_allOrders.mpr ⟨_, hx⟩))

theorem split_levels (hl : ∀ x ∈ allOrders b, Live x) (s : OrderSide) :
    SameLevels ((b.matchIncoming amb o).2.levels s).entries
      ((matchTwice b amb₁ o₁ amb₂ o₂).2.levels s).entries :=
  levels_related (fun _ _ hxy => hxy.price) ((repInv_market h amb hsplit.market).side s)
    ((repInv_market (repInv_market h amb₁ hsplit.market₁) amb₂ hsplit.market₂).side s)
    (OrdMap.sorted _) (OrdMap.sorted _) (split_sides h amb amb₁ amb₂ hsplit hl s)

end Split

/-- The executed value of some trades. -/
def turnover (fills : List Fill) : Int :=
  (fills.map (fun f => f.trade.price * f.trade.quantity)).sum

/-! ## The index of the two ways -/

/-- What a market order that ends inside an order leaves of it. -/
theorem market_partly_iff {b : OrderBook} (h : RepInv b) (amb : Ambient) {o : Order}
    (ht : o.type = .market) (hq : 0 ≤ o.remainingQuantity) {x : Order}
    (hx : x ∈ b.resting o.side.opposite) :
    (∃ y ∈ (b.matchIncoming amb o).2.resting o.side.opposite,
        y.orderId = x.orderId ∧ y.remainingQuantity < x.remainingQuantity) ↔
      quantityAhead (b.resting o.side.opposite) x < o.remainingQuantity
        ∧ o.remainingQuantity
          < quantityAhead (b.resting o.side.opposite) x + x.remainingQuantity := by
  have hpos := h.resting_positive o.side.opposite
  have hnd := h.resting_distinct o.side.opposite
  have hnd' := (repInv_market h amb ht).resting_distinct o.side.opposite
  have hleft := (market_greedy h amb ht hq).2
  have hwhole : (∀ z ∈ (b.matchIncoming amb o).2.resting o.side.opposite, z.orderId ≠ x.orderId) ↔
      quantityAhead (b.resting o.side.opposite) x + x.remainingQuantity ≤ o.remainingQuantity := by
    rw [matchIncoming_market b amb ht]
    exact (sweep_whole_iff h amb (crossMono_all _) hx).trans (and_iff_right rfl)
  obtain ⟨L₁, L₂, hcut⟩ := List.append_of_mem hx
  have hahead : quantityAhead (b.resting o.side.opposite) x
      = (L₁.map Order.remainingQuantity).sum := by
    rw [hcut] at hnd ⊢
    exact quantityAhead_cut hnd
  -- if anything is left of the order, it is this
  have hpiece : o.remainingQuantity
      < quantityAhead (b.resting o.side.opposite) x + x.remainingQuantity →
      ∃ y ∈ (b.matchIncoming amb o).2.resting o.side.opposite, y.orderId = x.orderId
        ∧ y.remainingQuantity = x.remainingQuantity - (o.remainingQuantity
          - min o.remainingQuantity (quantityAhead (b.resting o.side.opposite) x)) := by
    intro hlt
    rw [hahead] at hlt ⊢
    have hmem : reduceTo x (x.remainingQuantity - (o.remainingQuantity
        - min o.remainingQuantity (L₁.map Order.remainingQuantity).sum))
          ∈ leftOver o.remainingQuantity (L₁ ++ x :: L₂) :=
      Greedy.cut_mem_leftover
        (fun z hz => hpos z (by rw [hcut]; exact List.mem_append_left _ hz)) (hpos x hx) hq hlt
    rw [← hcut] at hmem
    obtain ⟨y, hy, hsame⟩ := forall₂_mem_right hleft.flip hmem
    obtain ⟨status, updatedAt, rfl⟩ := hsame
    exact ⟨_, hy, rfl, rfl⟩
  constructor
  · rintro ⟨y, hy, hid, hlt⟩
    have hstays : o.remainingQuantity
        < quantityAhead (b.resting o.side.opposite) x + x.remainingQuantity := by
      by_contra hle
      exact hwhole.mpr (by omega) y hy hid
    obtain ⟨y', hy', hid', hrem⟩ := hpiece hstays
    have hyy := eq_of_orderId hnd' hy hy' (hid.trans hid'.symm)
    subst hyy
    exact ⟨by omega, hstays⟩
  · rintro ⟨hlt, hstays⟩
    obtain ⟨y, hy, hid, hrem⟩ := hpiece hstays
    exact ⟨y, hy, hid, by omega⟩

/-- The first of two market orders ends inside the resting order `x`, and the second uses it
up. -/
def SplitInside (b : OrderBook) (o o₁ x : Order) : Prop :=
  quantityAhead (b.resting o.side.opposite) x < o₁.remainingQuantity
    ∧ o₁.remainingQuantity < quantityAhead (b.resting o.side.opposite) x + x.remainingQuantity
    ∧ quantityAhead (b.resting o.side.opposite) x + x.remainingQuantity ≤ o.remainingQuantity

instance (b : OrderBook) (o o₁ x : Order) : Decidable (SplitInside b o o₁ x) :=
  inferInstanceAs (Decidable (_ ∧ _ ∧ _))

section Readings

variable {r : PoppedId} {W : String → Prop} {b b' : OrderBook}

/-- A market order on a copy of a book. -/
theorem staleCopy_market (hcopy : StaleCopy r W b b') (hrep : RepInv b) (amb : Ambient) {o : Order}
    (ht : o.type = .market) :
    StaleCopy r (fun _ => True) (@matchIncoming grantedId b amb o).2 (@matchIncoming r b' amb o).2
      ∧ (@matchIncoming r b' amb o).1 = (@matchIncoming grantedId b amb o).1
      ∧ SweptIndex r (b.resting o.side.opposite) b'.orderIndex
          ((@matchIncoming grantedId b amb o).2.resting o.side.opposite)
          (@matchIncoming r b' amb o).2.orderIndex := by
  have htrue : StaleCopy r (fun _ => True) b b' :=
    ⟨hcopy.book, hcopy.index.mono (fun _ _ => trivial)⟩
  obtain ⟨hafter, hfills, -⟩ := htrue.sweep hrep amb (crossMono_all o.side.opposite)
    (fun _ _ _ _ _ _ => trivial)
  have hswept := hcopy.sweptIndex hrep amb o (fun _ => true)
  rw [hafter.resting] at hswept
  rw [@matchIncoming_market grantedId b amb o ht, @matchIncoming_market r b' amb o ht]
  exact ⟨hafter, hfills, hswept⟩

variable (hcopy : StaleCopy r W b b') (hrep : RepInv b) (hl : ∀ x ∈ allOrders b, Live x)
  (amb amb₁ amb₂ : Ambient) {o o₁ o₂ : Order} (hsplit : SplitOf o o₁ o₂)

include hcopy hrep hsplit

theorem staleCopy_market_twice :
    StaleCopy r (fun _ => True) (@matchTwice grantedId b amb₁ o₁ amb₂ o₂).2
        (@matchTwice r b' amb₁ o₁ amb₂ o₂).2
      ∧ (@matchTwice r b' amb₁ o₁ amb₂ o₂).1 = (@matchTwice grantedId b amb₁ o₁ amb₂ o₂).1 := by
  obtain ⟨hfirst, hfills₁, -⟩ := staleCopy_market hcopy hrep amb₁ hsplit.market₁
  obtain ⟨hsecond, hfills₂, -⟩ := staleCopy_market hfirst (repInv_market hrep amb₁ hsplit.market₁) amb₂
    hsplit.market₂
  refine ⟨hsecond, ?_⟩
  unfold matchTwice
  dsimp only
  rw [hfills₁, hfills₂]

include hl

/-- **When the index does not depend on the split.** -/
theorem index_split_iff :
    FinmapRel SameOrder (@matchIncoming r b' amb o).2.orderIndex
        (@matchTwice r b' amb₁ o₁ amb₂ o₂).2.orderIndex ↔
      ∀ x ∈ b.resting o.side.opposite, r.intact x.orderId = false → ¬ SplitInside b o o₁ x := by
  have hq₁ := hsplit.positive₁
  have hq₂ := hsplit.positive₂
  have hsum := hsplit.sum
  obtain ⟨-, -, hone⟩ := staleCopy_market hcopy hrep amb hsplit.market
  obtain ⟨hfirst, -, hswept₁⟩ := staleCopy_market hcopy hrep amb₁ hsplit.market₁
  obtain ⟨-, -, hswept₂⟩ := staleCopy_market hfirst (repInv_market hrep amb₁ hsplit.market₁) amb₂
    hsplit.market₂
  have hpartly : ∀ x ∈ b.resting o.side.opposite, _ := fun x hx =>
    market_partly_iff hrep amb₁ hsplit.market₁ hq₁.le (x := x) (by rw [hsplit.side₁]; exact hx)
  rw [hsplit.side₁] at hswept₁ hpartly
  rw [hsplit.side₂] at hswept₂
  have hqueue := split_sides hrep amb amb₁ amb₂ hsplit hl o.side.opposite
  refine (index_alike_iff (hrep.resting_distinct o.side.opposite) hone hswept₁ hswept₂ ?_ ?_
    ?_).trans ?_
  · exact fun y hy => forall₂_mem_right hqueue.flip hy
  · exact fun y' hy' => forall₂_mem_right hqueue hy'
  · intro x hx e he
    have hmem := mem_allOrders.mpr ⟨_, hx⟩
    rw [hcopy.index.lookup_resting hmem] at he
    obtain ⟨hid, hin⟩ := hrep.index.sound _ e he
    exact eq_of_orderId hrep.index.distinct hin hmem hid
  · have hwhole : ∀ x ∈ b.resting o.side.opposite,
        ((∀ z ∈ (@matchIncoming grantedId b amb o).2.resting o.side.opposite, z.orderId ≠ x.orderId)
          ↔ quantityAhead (b.resting o.side.opposite) x + x.remainingQuantity
            ≤ o.remainingQuantity) := by
      intro x hx
      rw [@matchIncoming_market grantedId b amb o hsplit.market]
      exact (sweep_whole_iff hrep amb (crossMono_all _) hx).trans (and_iff_right rfl)
    refine forall₂_congr (fun x hx => imp_congr_right (fun _ => ?_))
    rw [hwhole x hx, hpartly x hx, SplitInside]
    constructor
    · exact fun hn hin => hn hin.2.2 ⟨hin.1, hin.2.1⟩
    · exact fun hn hw hp => hn ⟨hp.1, hp.2, hw⟩

end Readings

/--
**Splitting is neutral, but for a stale index entry.** On every reachable book and under every
reading of a popped id, a market order, and two market orders of its side with together its
quantity, leave the same levels and last price but for timestamps, fill every passive order by
the same quantity, and execute the same value. The books are the same altogether exactly if
the split does not fall inside an order that is then used up and whose id is lost.
-/
theorem split_neutral_iff (r : PoppedId) (symbol : String) {ops : List BookOp} (h : ValidRun ops)
    (amb amb₁ amb₂ : Ambient) {o o₁ o₂ : Order} (hsplit : SplitOf o o₁ o₂) :
    (∀ s, SameLevels ((@matchIncoming r (@bookAfter r symbol ops) amb o).2.levels s).entries
        ((@matchTwice r (@bookAfter r symbol ops) amb₁ o₁ amb₂ o₂).2.levels s).entries)
      ∧ (@matchTwice r (@bookAfter r symbol ops) amb₁ o₁ amb₂ o₂).2.lastTradePrice
          = (@matchIncoming r (@bookAfter r symbol ops) amb o).2.lastTradePrice
      ∧ (∀ id, executed Trade.passiveOrderId id
            (@matchTwice r (@bookAfter r symbol ops) amb₁ o₁ amb₂ o₂).1
          = executed Trade.passiveOrderId id (@matchIncoming r (@bookAfter r symbol ops) amb o).1)
      ∧ turnover (@matchTwice r (@bookAfter r symbol ops) amb₁ o₁ amb₂ o₂).1
          = turnover (@matchIncoming r (@bookAfter r symbol ops) amb o).1
      ∧ (Alike (@matchIncoming r (@bookAfter r symbol ops) amb o).2
            (@matchTwice r (@bookAfter r symbol ops) amb₁ o₁ amb₂ o₂).2 ↔
          ∀ x ∈ (@bookAfter r symbol ops).resting o.side.opposite,
            r.intact x.orderId = false → ¬ SplitInside (@bookAfter r symbol ops) o o₁ x) := by
  have hrep := (runInv_reachable symbol h.distinct).rep
  have hlive := live_reachable symbol h
  have hcopy := staleCopy_reachable r symbol h.distinct
  obtain ⟨hone, hfills, -⟩ := staleCopy_market hcopy hrep amb hsplit.market
  obtain ⟨htwo, hfills₂⟩ := staleCopy_market_twice hcopy hrep amb₁ amb₂ hsplit
  have hlevels : ∀ s, SameLevels ((@matchIncoming r (@bookAfter r symbol ops) amb o).2.levels s).entries
      ((@matchTwice r (@bookAfter r symbol ops) amb₁ o₁ amb₂ o₂).2.levels s).entries := by
    intro s
    rw [hone.levels, htwo.levels]
    exact split_levels hrep amb amb₁ amb₂ hsplit hlive s
  have hlast : (@matchTwice r (@bookAfter r symbol ops) amb₁ o₁ amb₂ o₂).2.lastTradePrice
      = (@matchIncoming r (@bookAfter r symbol ops) amb o).2.lastTradePrice := by
    rw [hone.lastTradePrice, htwo.lastTradePrice]
    exact split_lastTradePrice hrep amb amb₁ amb₂ hsplit
  refine ⟨hlevels, hlast, ?_, ?_, ?_⟩
  · intro id
    rw [hfills, hfills₂, executed_eq_weigh, executed_eq_weigh]
    exact split_weigh hrep amb amb₁ amb₂ hsplit (passiveWeight_orderId id)
  · rw [hfills, hfills₂]
    exact split_weigh hrep amb amb₁ amb₂ hsplit passiveWeight_price
  · have hindex := index_split_iff hcopy hrep hlive amb amb₁ amb₂ hsplit
    unfold SplitInside
    rw [hcopy.resting]
    exact ⟨fun hall => hindex.mp hall.orderIndex, fun hn => ⟨hlevels, hindex.mpr hn, hlast⟩⟩

/-- A market buy of `n`. -/
def buyMarket (id : String) (n : Int) : Order := Order.create id 0 "D" "AAPL" .buy .market 0 0 n

theorem splitOf_buyMarket {id id₁ id₂ : String} {n₁ n₂ : Int} (h₁ : 0 < n₁) (h₂ : 0 < n₂) :
    SplitOf (buyMarket id (n₁ + n₂)) (buyMarket id₁ n₁) (buyMarket id₂ n₂) :=
  ⟨rfl, rfl, rfl, rfl, rfl, h₁, h₂, rfl⟩

/-- Five bought in one go, or three and two. The first sell of 5 is gone either way; its entry
says that 5 of it are left, or 2. -/
theorem split_entry_differs :
    ValidRun twoSells
      ∧ ((@matchIncoming shortIds (@bookAfter shortIds "AAPL" twoSells) still
            (buyMarket "b" (3 + 2))).2.orderIndex.lookup
          "6f1c2a34-5b67-4c89-9abc-def012345678").map (fun o => (o.remainingQuantity, o.status))
        = some (5, .pending)
      ∧ ((@matchTwice shortIds (@bookAfter shortIds "AAPL" twoSells) still (buyMarket "b1" 3) still
            (buyMarket "b2" 2)).2.orderIndex.lookup
          "6f1c2a34-5b67-4c89-9abc-def012345678").map (fun o => (o.remainingQuantity, o.status))
        = some (2, .partiallyFilled)
      ∧ ¬ Alike (@matchIncoming shortIds (@bookAfter shortIds "AAPL" twoSells) still
            (buyMarket "b" (3 + 2))).2
          (@matchTwice shortIds (@bookAfter shortIds "AAPL" twoSells) still (buyMarket "b1" 3) still
            (buyMarket "b2" 2)).2 := by
  have hone : ((@matchIncoming shortIds (@bookAfter shortIds "AAPL" twoSells) still
      (buyMarket "b" (3 + 2))).2.orderIndex.lookup "6f1c2a34-5b67-4c89-9abc-def012345678").map
        (fun o => (o.remainingQuantity, o.status)) = some (5, .pending) := by decide
  have htwo : ((@matchTwice shortIds (@bookAfter shortIds "AAPL" twoSells) still
      (buyMarket "b1" 3) still (buyMarket "b2" 2)).2.orderIndex.lookup
        "6f1c2a34-5b67-4c89-9abc-def012345678").map (fun o => (o.remainingQuantity, o.status))
      = some (2, .partiallyFilled) := by decide
  refine ⟨⟨by simp [twoSells, submitted], by decide⟩, hone, htwo, fun hall => ?_⟩
  rcases hall.orderIndex.lookup_cases "6f1c2a34-5b67-4c89-9abc-def012345678" with
    ⟨hl, -⟩ | ⟨v, v', hl, hl', hsame⟩
  · rw [hl] at hone
    exact absurd hone (by simp)
  · rw [hl] at hone
    rw [hl'] at htwo
    simp only [Option.map_some, Option.some.injEq, Prod.mk.injEq] at hone htwo
    have hrem := hsame.remainingQuantity
    omega

/-- Seven bought in one go, or five and two: the split falls between the two sells. -/
theorem split_neutral_between :
    ((@matchTwice shortIds (@bookAfter shortIds "AAPL" twoSells) still (buyMarket "b1" 5) still
        (buyMarket "b2" 2)).1.map (fun f => (f.trade.passiveOrderId, f.trade.quantity))
        = [("6f1c2a34-5b67-4c89-9abc-def012345678", 5),
          ("0d9e8f7a-6b5c-4d3e-8f2a-1b0c9d8e7f6a", 2)])
      ∧ Alike (@matchIncoming shortIds (@bookAfter shortIds "AAPL" twoSells) still
            (buyMarket "b" (5 + 2))).2
          (@matchTwice shortIds (@bookAfter shortIds "AAPL" twoSells) still (buyMarket "b1" 5) still
            (buyMarket "b2" 2)).2 := by
  have hv : ValidRun twoSells := ⟨by simp [twoSells, submitted], by decide⟩
  refine ⟨by decide, (split_neutral_iff shortIds "AAPL" hv still still still
    (splitOf_buyMarket (by decide) (by decide))).2.2.2.2.mpr (by decide)⟩

end TitanX.Proof
