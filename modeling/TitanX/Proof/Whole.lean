import TitanX.Proof.Allocation

/-!
# Which orders a call fills whole

A new order takes a resting one whole exactly if it can trade at its price and brings enough
for everything in front of it and for all of it (`TakesWhole`). That is a condition on the book
before the call; `notResting_match_iff` says that the loops come to the same.
-/

namespace TitanX.Proof

open TitanX OrderBook

/-! ## The condition -/

/-- The quantity in front of order `y` in a list in priority order. -/
def quantityAhead (L : List Order) (y : Order) : Int :=
  ((L.takeWhile (fun x => x.orderId ≠ y.orderId)).map Order.remainingQuantity).sum

/-- Whether a call with order `o` may trade at price `p`. -/
def reaches (b : OrderBook) (o : Order) (p : Int) : Bool :=
  match o.type with
  | .market => true
  | .limit => crossesLimit o p
  | .ioc => crossesLimit o p
  | .fok => o.quantity ≤ b.availableQuantityAtOrBetter o
  | .stopLimit => false

/-- The new order `o` can trade with the resting order `y`, and brings enough for everything
in front of it and for all of `y`. -/
def TakesWhole (b : OrderBook) (o y : Order) : Prop :=
  reaches b o y.price = true
    ∧ quantityAhead (b.resting o.side.opposite) y + y.remainingQuantity ≤ o.remainingQuantity

instance (b : OrderBook) (o y : Order) : Decidable (TakesWhole b o y) :=
  inferInstanceAs (Decidable (_ ∧ _))

theorem quantityAhead_cut {L₁ L₂ : List Order} {y : Order}
    (hnd : ((L₁ ++ y :: L₂).map Order.orderId).Nodup) :
    quantityAhead (L₁ ++ y :: L₂) y = (L₁.map Order.remainingQuantity).sum := by
  rw [List.map_append, List.map_cons] at hnd
  have hne : ∀ x ∈ L₁, x.orderId ≠ y.orderId := fun x hx =>
    (List.nodup_append.mp hnd).2.2 _ (List.mem_map_of_mem hx) _ (List.mem_cons_self ..)
  unfold quantityAhead
  rw [List.takeWhile_append_of_pos (fun x hx => by simpa using hne x hx),
    List.takeWhile_cons_of_neg (by simp), List.append_nil]

theorem quantityAhead_nonneg {L : List Order} (h : ∀ x ∈ L, 0 < x.remainingQuantity) (y : Order) :
    0 ≤ quantityAhead L y :=
  Greedy.sum_cap_nonneg (fun x hx => h x (List.takeWhile_subset _ hx))

/-! ## Sweeps -/

/-- Without a quantity the loops do nothing. -/
theorem matchSide_idle (amb : Ambient) (aggressor : Order) (crosses : Int → Bool) (ls : Levels)
    {st : Sweep} (h : st.remainingQty ≤ 0) : matchSide amb aggressor crosses ls st = (ls, st) := by
  cases ls with
  | nil => rfl
  | cons l ls =>
      obtain ⟨p, queue⟩ := l
      rw [matchSide, if_neg (not_lt.mpr h)]

theorem map_orderId_sameBut {L M : List Order} (h : List.Forall₂ SameBut L M) :
    M.map Order.orderId = L.map Order.orderId := by
  induction h with
  | nil => rfl
  | cons hxy _ ih =>
      obtain ⟨_, _, rfl⟩ := hxy
      rw [List.map_cons, List.map_cons, ih]

section Whole

variable {b : OrderBook} (h : RepInv b) (amb : Ambient)

include h

/-- **Which orders a sweep fills whole**: those within reach that it brings enough for. -/
theorem sweep_whole_iff {o : Order} {crosses : Int → Bool}
    (hm : CrossMono o.side.opposite crosses) {y : Order} (hy : y ∈ b.resting o.side.opposite) :
    (∀ z ∈ (b.sweep amb o crosses).2.resting o.side.opposite, z.orderId ≠ y.orderId) ↔
      crosses y.price = true
        ∧ quantityAhead (b.resting o.side.opposite) y + y.remainingQuantity
          ≤ o.remainingQuantity := by
  have hpos := h.resting_positive o.side.opposite
  have hahead := quantityAhead_nonneg hpos y
  have hypos := hpos y hy
  by_cases hq : 0 ≤ o.remainingQuantity
  · have hids := map_orderId_sameBut (sweep_greedy h.side amb hm hq).2
    have hsplit := resting_split h.side (s := o.side.opposite) hm
    have hiff : (∀ z ∈ (b.sweep amb o crosses).2.resting o.side.opposite, z.orderId ≠ y.orderId)
        ↔ y.orderId ∉ (leftOver o.remainingQuantity
            (reachable crosses (b.resting o.side.opposite))).map Order.orderId
          ++ (beyond crosses (b.resting o.side.opposite)).map Order.orderId := by
      rw [← List.map_append, ← hids]
      simp only [List.mem_map, not_exists, not_and]
    rw [hiff]
    by_cases hc : crosses y.price = true
    · -- within reach: the orders in front of it are, too
      obtain ⟨L₁, L₂, hcut⟩ := List.append_of_mem (mem_reachable.mpr ⟨hy, hc⟩)
      have hnd := h.resting_distinct o.side.opposite
      rw [← hsplit, hcut, List.append_assoc, List.cons_append] at hnd
      have hsum := quantityAhead_cut hnd
      rw [← List.cons_append, ← List.append_assoc, ← hcut, hsplit] at hsum
      have hndr : ((L₁ ++ y :: L₂).map Order.orderId).Nodup := by
        rw [← List.cons_append, ← List.append_assoc, List.map_append] at hnd
        exact (List.nodup_append.mp hnd).1
      have hfront : ∀ x ∈ L₁, x ∈ b.resting o.side.opposite := by
        intro x hx
        rw [← hsplit, hcut]
        exact List.mem_append_left _ (List.mem_append_left _ hx)
      have hbeyond : y.orderId ∉ (beyond crosses (b.resting o.side.opposite)).map Order.orderId := by
        intro hmem
        rw [← List.cons_append, ← List.append_assoc, List.map_append] at hnd
        exact (List.nodup_append.mp hnd).2.2 _
          (List.mem_map_of_mem (List.mem_append_right _ (List.mem_cons_self ..))) _ hmem rfl
      have hkey : ∀ (x : Order) n, (reduceTo x n).orderId = x.orderId := fun _ _ => rfl
      have hleft : y.orderId ∈ (Greedy.leftover Order.remainingQuantity reduceTo
            o.remainingQuantity (L₁ ++ y :: L₂)).map Order.orderId
          ↔ o.remainingQuantity < (L₁.map Order.remainingQuantity).sum + y.remainingQuantity :=
        Greedy.key_mem_leftover_iff hkey hndr (fun x hx => hpos x (hfront x hx)) hypos hq
      rw [hcut, List.mem_append, or_iff_left hbeyond, hsum, leftOver, hleft]
      constructor
      · intro hnot
        exact ⟨hc, by omega⟩
      · rintro ⟨-, hle⟩ hlt
        omega
    · -- out of reach, so it stays
      have hmem : y ∈ beyond crosses (b.resting o.side.opposite) :=
        List.mem_filter.mpr ⟨hy, by simpa using hc⟩
      constructor
      · intro hnot
        exact absurd (List.mem_append_right _ (List.mem_map_of_mem hmem)) hnot
      · exact fun hw => absurd hw.1 hc
  · -- nothing is brought, so nothing moves
    have hidle : sweepLoop b amb o crosses = ((b.levels o.side.opposite).entries, sweepStart b o) :=
      matchSide_idle amb o crosses _ (by change o.remainingQuantity ≤ 0; omega)
    rw [sweep_resting_opposite, hidle]
    constructor
    · intro hnot
      exact absurd rfl (hnot y hy)
    · rintro ⟨-, hle⟩
      omega

/-- An id of the opposite side rests there after a sweep, or nowhere. -/
theorem notResting_sweep_iff {o : Order} (crosses : Int → Bool) {y : Order}
    (hy : y ∈ b.resting o.side.opposite) :
    NotResting (b.sweep amb o crosses).2 y.orderId ↔
      ∀ z ∈ (b.sweep amb o crosses).2.resting o.side.opposite, z.orderId ≠ y.orderId := by
  constructor
  · exact fun hn z hz => hn z (mem_allOrders.mpr ⟨_, hz⟩)
  · intro hn z hz
    obtain ⟨s, hs⟩ := mem_allOrders.mp hz
    rcases OrderSide.eq_or_opposite o.side s with rfl | rfl
    · rw [sweep_resting_own] at hs
      exact fun heq => h.sides_disjoint hy (by rw [OrderSide.opposite_opposite]; exact hs) heq.symm
    · exact hn z hs

/-! ## Calls -/

omit amb in
theorem notResting_insert_iff {order : Order} {id : String} (hne : order.orderId ≠ id) :
    NotResting (b.insertIntoBook order) id ↔ NotResting b id := by
  have hmem : ∀ x, x ∈ allOrders (b.insertIntoBook order) ↔ x = order ∨ x ∈ allOrders b :=
    fun x => ((insert_perm h order).mem_iff).trans List.mem_cons
  constructor
  · exact fun hn x hx => hn x ((hmem x).mpr (Or.inr hx))
  · intro hn x hx
    rcases (hmem x).mp hx with rfl | hx
    · exact hne
    · exact hn x hx

omit amb in
theorem notResting_remove_iff {id id' : String} (hne : id' ≠ id) :
    NotResting (b.removeFromBook id').2 id ↔ NotResting b id := by
  constructor
  · intro hn x hx heq
    rcases removeFromBook_cases h id' with ⟨-, hno⟩ | ⟨_, -, -, hno⟩ | ⟨_, -, -, -, hr⟩
    · rw [hno] at hn; exact hn x hx heq
    · rw [hno] at hn; exact hn x hx heq
    · refine hn x ?_ heq
      rw [hr.allOrders]
      exact List.mem_filter.mpr ⟨hx, by simpa [heq] using hne.symm⟩
  · exact fun hn x hx => hn x (remove_subset h id' x hx)

/-- **Which orders a call fills whole.** -/
theorem notResting_match_iff {o : Order} (hfresh : NotResting b o.orderId) {y : Order}
    (hy : y ∈ b.resting o.side.opposite) :
    NotResting (b.matchIncoming amb o).2 y.orderId ↔ TakesWhole b o y := by
  have hyo : o.orderId ≠ y.orderId := (hfresh y (mem_allOrders.mpr ⟨_, hy⟩)).symm
  have hmarket : NotResting (b.matchMarket amb o).2 y.orderId ↔
      quantityAhead (b.resting o.side.opposite) y + y.remainingQuantity ≤ o.remainingQuantity := by
    refine (notResting_sweep_iff h amb _ hy).trans ((sweep_whole_iff h amb (crossMono_all _) hy).trans ?_)
    exact and_iff_right rfl
  have hlimit : NotResting (b.matchLimit amb o).2 y.orderId ↔ crossesLimit o y.price = true
      ∧ quantityAhead (b.resting o.side.opposite) y + y.remainingQuantity ≤ o.remainingQuantity := by
    refine Iff.trans ?_ (sweep_whole_iff h amb (crossMono_limit o) hy)
    rw [← notResting_sweep_iff h amb _ hy]
    rcases matchLimit_cases b amb o with ⟨-, heq⟩ | ⟨-, heq⟩
    · rw [heq]
    · rw [heq]
      exact notResting_insert_iff (repInv_sweep h amb o _) hyo
  have hstays : ¬ NotResting b y.orderId := fun hn => hn y (mem_allOrders.mpr ⟨_, hy⟩) rfl
  unfold matchIncoming TakesWhole reaches
  cases o.type with
  | market =>
      rw [and_iff_right rfl]
      exact hmarket
  | limit => exact hlimit
  | ioc =>
      exact (notResting_remove_iff (repInv_matchLimit h amb hfresh) hyo).trans hlimit
  | fok =>
      dsimp only [matchFok]
      rw [decide_eq_true_iff]
      split
      · rename_i hless
        exact ⟨fun hn => absurd hn hstays, fun hw => absurd hw.1 (by omega)⟩
      · rename_i henough
        rw [and_iff_right (by omega)]
        exact hmarket
  | stopLimit => exact ⟨fun hn => absurd hn hstays, fun hw => absurd hw.1 (by simp)⟩

end Whole

end TitanX.Proof
