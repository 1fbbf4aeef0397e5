import TitanX.Proof.BookInv
import Mathlib.Algebra.Order.BigOperators.Group.List
import Mathlib.Algebra.Order.Ring.Int

/-!
# What one call of `match` does

The five order types are three moves in different combinations: sweep the opposite
side, rest a remainder, take an order out. `matchIncoming_rule` says which
combinations there are, and reduces a property of `match` to the three moves.
-/

namespace TitanX.Proof

open TitanX OrderBook

/-! ## The aggressor's account -/

/-- The quantity executed by a list of fills. -/
def filled (fills : List Fill) : Int := (fills.map (fun f => f.trade.quantity)).sum

theorem filled_append (fills fills' : List Fill) :
    filled (fills ++ fills') = filled fills + filled fills' := by
  simp [filled]

theorem filled_nonneg {fills : List Fill} (h : ∀ f ∈ fills, 0 < f.trade.quantity) :
    0 ≤ filled fills := by
  refine List.sum_nonneg (fun x hx => ?_)
  obtain ⟨f, hf, rfl⟩ := List.mem_map.mp hx
  exact le_of_lt (h f hf)

theorem filled_fill (amb : Ambient) (aggressor : Order) (crosses : Int → Bool) (total : Int) :
    KeptByFill amb aggressor crosses
      (fun _ st => filled st.fills + st.remainingQty = total) := by
  intro p passive rest behind st _ _ h
  simp only [fillFront, filled_append]
  simp only [filled, List.map_cons, List.map_nil, List.sum_cons, List.sum_nil, Trade.create] at h ⊢
  omega

/-- What a sweep executed and what it left add up to what the aggressor brought. -/
theorem sweep_total {b : OrderBook} (h : RepInv b) (amb : Ambient) (aggressor : Order)
    (crosses : Int → Bool) :
    filled (b.sweep amb aggressor crosses).1.fills
      + (b.sweep amb aggressor crosses).1.remainingQty = aggressor.remainingQuantity := by
  rw [sweep_fst]
  exact matchSide_rule (filled_fill amb aggressor crosses aggressor.remainingQuantity) _ _
    (h.side _).nonempty (by simp [sweepStart, filled])

/-- What a sweep executes and what it leaves, with nothing to execute below zero. -/
theorem sweep_filled {b : OrderBook} (h : RepInv b) (amb : Ambient) (aggressor : Order)
    (crosses : Int → Bool) :
    filled (b.sweep amb aggressor crosses).1.fills
      + max (b.sweep amb aggressor crosses).1.remainingQty 0
      = max aggressor.remainingQuantity 0 := by
  rw [sweep_fst]
  refine matchSide_rule (I := fun _ st =>
      filled st.fills + max st.remainingQty 0 = max aggressor.remainingQuantity 0) ?_ _ _
    (h.side _).nonempty (by simp [sweepStart, filled])
  intro p passive rest behind st _ hrem hst
  dsimp only [fillFront]
  rw [filled_append]
  simp only [filled, List.map_cons, List.map_nil, List.sum_cons, List.sum_nil, Trade.create] at hst ⊢
  omega

theorem sweep_fillOk {b : OrderBook} (h : RepInv b) (amb : Ambient) (aggressor : Order)
    (crosses : Int → Bool) :
    ∀ f ∈ (b.sweep amb aggressor crosses).1.fills,
      FillOk aggressor.side.opposite aggressor crosses
        (b.levels aggressor.side.opposite).entries f :=
  (sweepInv amb aggressor crosses (h.side _) rfl).fills

theorem sweep_remaining_le {b : OrderBook} (h : RepInv b) (amb : Ambient) (aggressor : Order)
    (crosses : Int → Bool) :
    (b.sweep amb aggressor crosses).1.remainingQty ≤ aggressor.remainingQuantity := by
  have htot := sweep_total h amb aggressor crosses
  have hnn := filled_nonneg (fun f hf => (sweep_fillOk h amb aggressor crosses f hf).positive)
  omega

/-- No order appears in a sweep that was not resting before it. -/
theorem sweep_versions {b : OrderBook} (h : RepInv b) (amb : Ambient) (aggressor : Order)
    (crosses : Int → Bool) :
    ∀ o ∈ allOrders (b.sweep amb aggressor crosses).2, ∃ o₀ ∈ allOrders b, VersionOf o o₀ := by
  intro o ho
  obtain ⟨s, hs⟩ := mem_allOrders.mp ho
  rcases OrderSide.eq_or_opposite aggressor.side s with rfl | rfl
  · rw [sweep_resting_own] at hs
    exact ⟨o, mem_allOrders.mpr ⟨_, hs⟩, VersionOf.refl o⟩
  · rw [sweep_resting_opposite] at hs
    obtain ⟨o₀, ho₀, hv⟩ := (sweepInv amb aggressor crosses (h.side _) rfl).versions o hs
    exact ⟨o₀, mem_allOrders.mpr ⟨_, ho₀⟩, hv⟩

/-! ## The three moves -/

/-- The remainder `matchLimit` rests. -/
def remainder [PoppedId] (b : OrderBook) (amb : Ambient) (aggressor : Order) : Order :=
  let r := b.sweep amb aggressor (crossesLimit aggressor)
  aggressor.withRemainingQuantity r.1.remainingQty (amb.updatedAt r.1.fills.length)

theorem matchLimit_cases [PoppedId] (b : OrderBook) (amb : Ambient) (aggressor : Order) :
    ((b.sweep amb aggressor (crossesLimit aggressor)).1.remainingQty ≤ 0
      ∧ b.matchLimit amb aggressor =
        ((b.sweep amb aggressor (crossesLimit aggressor)).1.fills,
          (b.sweep amb aggressor (crossesLimit aggressor)).2))
    ∨ (0 < (b.sweep amb aggressor (crossesLimit aggressor)).1.remainingQty
      ∧ b.matchLimit amb aggressor =
        ((b.sweep amb aggressor (crossesLimit aggressor)).1.fills,
          (b.sweep amb aggressor (crossesLimit aggressor)).2.insertIntoBook
            (remainder b amb aggressor))) := by
  unfold matchLimit
  dsimp only
  split
  · rename_i h; exact Or.inr ⟨h, rfl⟩
  · rename_i h; exact Or.inl ⟨not_lt.mp h, rfl⟩

/--
**The rule for `match`.** `P` holds of what was executed and of the book until the
remainder of the incoming order has been rested, if it is; `Q` holds from then on.
-/
theorem matchIncoming_rule [PoppedId] {P Q : List Fill → OrderBook → Prop} {b : OrderBook} {amb : Ambient}
    {incoming : Order} (hidle : P [] b)
    (hsweep : ∀ crosses,
      P (b.sweep amb incoming crosses).1.fills (b.sweep amb incoming crosses).2)
    (hweak : ∀ fills b', P fills b' → Q fills b')
    (hrest : incoming.type = .limit ∨ incoming.type = .ioc →
      0 < (b.sweep amb incoming (crossesLimit incoming)).1.remainingQty →
      P (b.sweep amb incoming (crossesLimit incoming)).1.fills
        (b.sweep amb incoming (crossesLimit incoming)).2 →
      Q (b.sweep amb incoming (crossesLimit incoming)).1.fills
        ((b.sweep amb incoming (crossesLimit incoming)).2.insertIntoBook
          (remainder b amb incoming)))
    (hremove : ∀ fills b', Q fills b' → Q fills (b'.removeFromBook incoming.orderId).2) :
    Q (b.matchIncoming amb incoming).1 (b.matchIncoming amb incoming).2 := by
  -- an IOC order is a limit order whose remainder is then removed
  have hlimit : incoming.type = .limit ∨ incoming.type = .ioc →
      Q (b.matchLimit amb incoming).1 (b.matchLimit amb incoming).2 := by
    intro ht
    rcases matchLimit_cases b amb incoming with ⟨-, heq⟩ | ⟨hrem, heq⟩
    · rw [heq]; exact hweak _ _ (hsweep _)
    · rw [heq]; exact hrest ht hrem (hsweep _)
  unfold matchIncoming
  cases ht : incoming.type with
  | market => exact hweak _ _ (hsweep _)
  | limit => exact hlimit (Or.inl ht)
  | ioc => exact hremove _ _ (hlimit (Or.inr ht))
  | fok =>
      dsimp only [matchFok]
      split
      · exact hweak _ _ hidle
      · exact hweak _ _ (hsweep _)
  | stopLimit => exact hweak _ _ hidle

/-- What is known of every execution of one `match` call. -/
theorem match_fillOk {b : OrderBook} (h : RepInv b) (amb : Ambient) (incoming : Order) :
    ∀ f ∈ (b.matchIncoming amb incoming).1, ∃ crosses,
      FillOk incoming.side.opposite incoming crosses
        (b.levels incoming.side.opposite).entries f := by
  refine matchIncoming_rule
    (P := fun fills _ => ∀ f ∈ fills, ∃ crosses, FillOk incoming.side.opposite incoming crosses
      (b.levels incoming.side.opposite).entries f)
    (Q := fun fills _ => ∀ f ∈ fills, ∃ crosses, FillOk incoming.side.opposite incoming crosses
      (b.levels incoming.side.opposite).entries f)
    (fun f hf => absurd hf (by simp)) ?_ (fun _ _ hP => hP) (fun _ _ hP => hP) (fun _ _ hQ => hQ)
  exact fun crosses f hf => ⟨crosses, sweep_fillOk h amb incoming crosses f hf⟩

/-! ## The invariant through `match` -/

/-- No order resting in `b` has the id `id`. -/
def NotResting (b : OrderBook) (id : String) : Prop := ∀ o ∈ allOrders b, o.orderId ≠ id

theorem remove_subset {b : OrderBook} (h : RepInv b) (id : String) :
    ∀ o ∈ allOrders (b.removeFromBook id).2, o ∈ allOrders b := by
  intro o ho
  rcases removeFromBook_cases h id with ⟨-, heq⟩ | ⟨_, -, -, heq⟩ | ⟨_, -, -, -, hr⟩
  · rw [heq] at ho; exact ho
  · rw [heq] at ho; exact ho
  · rw [hr.allOrders] at ho; exact List.mem_of_mem_filter ho

theorem notResting_sweep {b : OrderBook} (h : RepInv b) {id : String} (hid : NotResting b id)
    (amb : Ambient) (aggressor : Order) (crosses : Int → Bool) :
    NotResting (b.sweep amb aggressor crosses).2 id := by
  intro o ho
  obtain ⟨o₀, ho₀, hv⟩ := sweep_versions h amb aggressor crosses o ho
  rw [hv.orderId]; exact hid o₀ ho₀

/-- What `matchLimit` leaves is a book again. -/
theorem repInv_matchLimit {b : OrderBook} (h : RepInv b) (amb : Ambient) {aggressor : Order}
    (hfresh : NotResting b aggressor.orderId) : RepInv (b.matchLimit amb aggressor).2 := by
  rcases matchLimit_cases b amb aggressor with ⟨-, heq⟩ | ⟨hrem, heq⟩
  · rw [heq]; exact repInv_sweep h amb aggressor _
  · rw [heq]
    exact repInv_insert (repInv_sweep h amb aggressor _) hrem
      (notResting_sweep h hfresh amb aggressor _)

/-- The rule for `match` on a book in order, with an id new to it: the representation
invariant comes along, and the rule is about the book alone. -/
theorem match_rule {P Q : OrderBook → Prop} {b : OrderBook} {amb : Ambient} {incoming : Order}
    (hrep : RepInv b) (hfresh : NotResting b incoming.orderId) (h : P b)
    (hsweep : ∀ crosses, P (b.sweep amb incoming crosses).2) (hweak : ∀ b', P b' → Q b')
    (hrest : incoming.type = .limit ∨ incoming.type = .ioc →
      0 < (b.sweep amb incoming (crossesLimit incoming)).1.remainingQty →
      RepInv (b.sweep amb incoming (crossesLimit incoming)).2 →
      P (b.sweep amb incoming (crossesLimit incoming)).2 →
      Q ((b.sweep amb incoming (crossesLimit incoming)).2.insertIntoBook
        (remainder b amb incoming)))
    (hremove : ∀ b', RepInv b' → Q b' → Q (b'.removeFromBook incoming.orderId).2) :
    RepInv (b.matchIncoming amb incoming).2 ∧ Q (b.matchIncoming amb incoming).2 := by
  refine matchIncoming_rule (P := fun _ b' => RepInv b' ∧ P b')
    (Q := fun _ b' => RepInv b' ∧ Q b') ⟨hrep, h⟩ ?_ ?_ ?_ ?_
  · exact fun crosses => ⟨repInv_sweep hrep amb incoming crosses, hsweep crosses⟩
  · exact fun _ b' hP => ⟨hP.1, hweak b' hP.2⟩
  · intro ht hrem hP
    refine ⟨repInv_insert hP.1 hrem ?_, hrest ht hrem hP.1 hP.2⟩
    exact notResting_sweep hrep hfresh amb incoming (crossesLimit incoming)
  · exact fun _ b' hQ => ⟨repInv_remove hQ.1 _, hremove b' hQ.1 hQ.2⟩

/-- After a call of `match` every resting order was resting before it, up to its
fill state, or is the incoming one. -/
structure MatchInv (b : OrderBook) (incoming : Order) (b' : OrderBook) : Prop where
  rep : RepInv b'
  versions : ∀ o ∈ allOrders b', VersionOf o incoming ∨ ∃ o₀ ∈ allOrders b, VersionOf o o₀

theorem matchInv {b : OrderBook} (h : RepInv b) (amb : Ambient) {incoming : Order}
    (hfresh : NotResting b incoming.orderId) :
    MatchInv b incoming (b.matchIncoming amb incoming).2 := by
  have hm := match_rule
    (P := fun b' => ∀ o ∈ allOrders b', ∃ o₀ ∈ allOrders b, VersionOf o o₀)
    (Q := fun b' => ∀ o ∈ allOrders b',
      VersionOf o incoming ∨ ∃ o₀ ∈ allOrders b, VersionOf o o₀)
    h hfresh (fun o ho => ⟨o, ho, VersionOf.refl o⟩) (sweep_versions h amb incoming)
    (fun b' hP o ho => Or.inr (hP o ho)) ?_ ?_
  · exact ⟨hm.1, hm.2⟩
  · intro _ _ hrep hver o ho
    rcases List.mem_cons.mp ((insert_perm hrep _).mem_iff.mp ho) with rfl | ho
    · exact Or.inl (versionOf_withRemainingQuantity _ _ _)
    · exact Or.inr (hver o ho)
  · exact fun b' hrep hQ o ho => hQ o (remove_subset hrep _ o ho)

/-! ## Fill state of resting orders -/

/-- The fill state of a resting order is coherent. -/
structure Live (o : Order) : Prop where
  positive : 0 < o.remainingQuantity
  le : o.remainingQuantity ≤ o.quantity
  status : o.status = if o.remainingQuantity = o.quantity then .pending else .partiallyFilled

/-- A positive remainder below the quantity is reported as a partial fill. -/
theorem statusFor_partly {o : Order} {n : Int} (hpos : 0 < n) (hlt : n < o.quantity) :
    o.statusFor n = .partiallyFilled := by
  unfold Order.statusFor
  rw [if_neg (by omega), if_pos hlt]

theorem live_partly {o : Order} {n now : Int} (hpos : 0 < n) (hlt : n < o.quantity) :
    Live (o.withRemainingQuantity n now) where
  positive := hpos
  le := le_of_lt hlt
  status := by
    show o.statusFor n = if n = o.quantity then .pending else .partiallyFilled
    rw [statusFor_partly hpos hlt, if_neg (by omega)]

theorem live_whole {o : Order} {now : Int} (hs : o.status = .pending) (hpos : 0 < o.quantity) :
    Live (o.withRemainingQuantity o.quantity now) where
  positive := hpos
  le := le_refl _
  status := by
    show o.statusFor o.quantity = if o.quantity = o.quantity then .pending else .partiallyFilled
    rw [Order.statusFor, if_neg (by omega), if_neg (by omega), hs, if_pos rfl]

theorem live_fill (amb : Ambient) (aggressor : Order) (crosses : Int → Bool) :
    KeptByFill amb aggressor crosses (fun ls _ => ∀ o ∈ Levels.orders ls, Live o) := by
  intro p passive rest behind st _ hrem h
  have hpassive := h passive (List.mem_cons_self ..)
  rw [orders_afterFill]
  split
  · rename_i hpos
    intro o ho
    rcases List.mem_cons.mp ho with rfl | ho
    · have hp := hpassive.positive
      have hle := hpassive.le
      refine live_partly hpos ?_
      omega
    · exact h o (List.mem_cons_of_mem _ ho)
  · exact fun o ho => h o (List.mem_cons_of_mem _ ho)

theorem live_sweep {b : OrderBook} (h : RepInv b) (hl : ∀ o ∈ allOrders b, Live o)
    (amb : Ambient) (aggressor : Order) (crosses : Int → Bool) :
    ∀ o ∈ allOrders (b.sweep amb aggressor crosses).2, Live o := by
  intro o ho
  obtain ⟨s, hs⟩ := mem_allOrders.mp ho
  rcases OrderSide.eq_or_opposite aggressor.side s with rfl | rfl
  · rw [sweep_resting_own] at hs
    exact hl o (mem_allOrders.mpr ⟨_, hs⟩)
  · rw [sweep_resting_opposite] at hs
    refine matchSide_rule (live_fill amb aggressor crosses) _ _ (h.side _).nonempty ?_ o hs
    exact fun x hx => hl x (mem_allOrders.mpr ⟨_, hx⟩)

/-- A remainder of a new order is pending if nothing of it was filled. -/
theorem live_remainder {b : OrderBook} (h : RepInv b) (amb : Ambient) {incoming : Order}
    (hc : incoming.Created)
    (hrem : 0 < (b.sweep amb incoming (crossesLimit incoming)).1.remainingQty) :
    Live (remainder b amb incoming) := by
  have hle := sweep_remaining_le h amb incoming (crossesLimit incoming)
  rw [hc.remainingQuantity_eq] at hle
  rcases lt_or_eq_of_le hle with hlt | heq
  · exact live_partly hrem hlt
  · rw [remainder, heq]
    exact live_whole hc.status_eq (heq ▸ hrem)

theorem live_match {b : OrderBook} (h : RepInv b) (hl : ∀ o ∈ allOrders b, Live o)
    (amb : Ambient) {incoming : Order} (hc : incoming.Created)
    (hfresh : NotResting b incoming.orderId) :
    ∀ o ∈ allOrders (b.matchIncoming amb incoming).2, Live o := by
  refine (match_rule (P := fun b' => ∀ o ∈ allOrders b', Live o)
    (Q := fun b' => ∀ o ∈ allOrders b', Live o) h hfresh hl
    (live_sweep h hl amb incoming) (fun _ hP => hP) ?_ ?_).2
  · intro _ hrem hrep hlive o ho
    rcases List.mem_cons.mp ((insert_perm hrep _).mem_iff.mp ho) with rfl | ho
    · exact live_remainder h amb hc hrem
    · exact hlive o ho
  · exact fun b' hrep hQ o ho => hQ o (remove_subset hrep _ o ho)

/-! ## The last trade price -/

/-- The price of the last of the trades, and `last` where there is none. -/
def lastPrice (last : Option Int) (trades : List Trade) : Option Int :=
  (trades.getLast?.map Trade.price).or last

@[simp] theorem lastPrice_snoc (last : Option Int) (trades : List Trade) (t : Trade) :
    lastPrice last (trades ++ [t]) = some t.price := by
  simp [lastPrice]

theorem lastPrice_append (last : Option Int) (trades trades' : List Trade) :
    lastPrice last (trades ++ trades') = lastPrice (lastPrice last trades) trades' := by
  rw [lastPrice, lastPrice, lastPrice, List.getLast?_append, Option.map_or, Option.or_assoc]

theorem sweep_lastTradePrice (b : OrderBook) (amb : Ambient) (aggressor : Order)
    (crosses : Int → Bool) :
    (b.sweep amb aggressor crosses).2.lastTradePrice
      = lastPrice b.lastTradePrice ((b.sweep amb aggressor crosses).1.fills.map Fill.trade) := by
  rw [sweep_fst]
  refine matchSide_keeps (I := fun st => st.lastTradePrice
    = lastPrice b.lastTradePrice (st.fills.map Fill.trade)) ?_ _ _ rfl
  intro p passive rest behind st _
  rw [fillFront]
  dsimp only
  rw [List.map_append, List.map_singleton, lastPrice_snoc]
  rfl

theorem removeFromBook_lastTradePrice (b : OrderBook) (id : String) :
    (b.removeFromBook id).2.lastTradePrice = b.lastTradePrice := by
  unfold removeFromBook
  split
  · rfl
  · dsimp only
    split
    · rfl
    · split
      · rfl
      · exact lastTradePrice_setLevels ..

/-- A `match` leaves the price of its last trade. -/
theorem match_lastTradePrice (b : OrderBook) (amb : Ambient) (o : Order) :
    (b.matchIncoming amb o).2.lastTradePrice
      = lastPrice b.lastTradePrice ((b.matchIncoming amb o).1.map Fill.trade) :=
  matchIncoming_rule
    (P := fun fills b' => b'.lastTradePrice = lastPrice b.lastTradePrice (fills.map Fill.trade))
    (Q := fun fills b' => b'.lastTradePrice = lastPrice b.lastTradePrice (fills.map Fill.trade))
    rfl (fun crosses => sweep_lastTradePrice b amb o crosses) (fun _ _ hP => hP)
    (fun _ _ hP => (lastTradePrice_setLevels ..).trans hP)
    (fun _ b' hQ => (removeFromBook_lastTradePrice b' _).trans hQ)

end TitanX.Proof
