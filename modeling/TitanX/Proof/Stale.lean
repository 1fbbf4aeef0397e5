import TitanX.Proof.Whole

/-!
# Ids of orders that are gone

When the loops have filled a resting order whole, they pop it and then erase
`passive.orderId` from the cancel index: the id of an order that the pop has destroyed. If the
id is not found there any more (`PoppedId`), the entry stays, as it was before the fill, under
an id that no longer rests.

Nothing but a cancel reads the index, and the cancel of an id that does not rest takes nothing
out of a queue. So under every reading the levels, the trades and the last price of a run are
those of the run in which the id is granted, and the index is the one of that run and stale
entries besides (`staleIn_reachable`). Which call leaves one can be told from the book before
it: a call that fills whole an order with an index entry and an id that is lost
(`LeavesStale`).
-/

namespace TitanX.Proof

open TitanX OrderBook

/-! ## The index after a sweep -/

/-- How a sweep leaves the orders and the index: an order it did not touch has the entry it
had, and one it filled partly is indexed as it now is. -/
def Reindexed (L : List Order) (index : Finmap (fun _ : String => Order)) (L' : List Order)
    (index' : Finmap (fun _ : String => Order)) : Prop :=
  ∀ y ∈ L', (y ∈ L ∧ index'.lookup y.orderId = index.lookup y.orderId)
    ∨ ((∃ x ∈ L, x.orderId = y.orderId ∧ y.remainingQuantity < x.remainingQuantity)
      ∧ index'.lookup y.orderId = some y)

theorem Reindexed.trans {L L' L'' : List Order}
    {index index' index'' : Finmap (fun _ : String => Order)} (h : Reindexed L index L' index')
    (h' : Reindexed L' index' L'' index'') : Reindexed L index L'' index'' := by
  intro z hz
  rcases h' z hz with ⟨hz', hl'⟩ | ⟨⟨y, hy, hid, hlt⟩, hl'⟩
  · rcases h z hz' with ⟨hzL, hl⟩ | ⟨hx, hl⟩
    · exact Or.inl ⟨hzL, hl'.trans hl⟩
    · exact Or.inr ⟨hx, hl'.trans hl⟩
  · refine Or.inr ⟨?_, hl'⟩
    rcases h y hy with ⟨hyL, -⟩ | ⟨⟨x, hx, hid', hlt'⟩, -⟩
    · exact ⟨y, hyL, hid, hlt⟩
    · exact ⟨x, hx, hid'.trans hid, by omega⟩

/-- What remains of a side was there before, under the same ids. -/
theorem Reindexed.exists_orderId {L L' : List Order}
    {index index' : Finmap (fun _ : String => Order)} (h : Reindexed L index L' index')
    {y : Order} (hy : y ∈ L') : ∃ x ∈ L, x.orderId = y.orderId := by
  rcases h y hy with ⟨hyL, -⟩ | ⟨⟨x, hx, hid, -⟩, -⟩
  · exact ⟨y, hyL, rfl⟩
  · exact ⟨x, hx, hid⟩

section Swept

/-- All that a sweep of the orders `L` does to the index, under the reading `r`. -/
structure SweptIndex (r : PoppedId) (L : List Order) (index : Finmap (fun _ : String => Order))
    (L' : List Order) (index' : Finmap (fun _ : String => Order)) : Prop where
  resting : Reindexed L index L' index'
  /-- An order that was filled whole loses its entry, if its id is found. -/
  popped : ∀ x ∈ L, (∀ y ∈ L', y.orderId ≠ x.orderId) →
    index'.lookup x.orderId
      = if r.intact x.orderId then none else index.lookup x.orderId
  others : ∀ id, (∀ x ∈ L, x.orderId ≠ id) → index'.lookup id = index.lookup id

/-- The state of a sweep that started from the orders `L` of side `s`. -/
structure IndexInv (r : PoppedId) (s : OrderSide) (L : List Order)
    (index : Finmap (fun _ : String => Order)) (ls : Levels) (st : Sweep) : Prop where
  side : SideOk s ls
  distinct : ((Levels.orders ls).map Order.orderId).Nodup
  swept : SweptIndex r L index (Levels.orders ls) st.orderIndex
  /-- Only the last fill can be a partial one. -/
  untouched : 0 < st.remainingQty →
    ∀ y ∈ Levels.orders ls, st.orderIndex.lookup y.orderId = index.lookup y.orderId

section Fill

variable {r : PoppedId} {amb : Ambient} {aggressor : Order} {s : OrderSide} {L : List Order}
  {index : Finmap (fun _ : String => Order)} {p : Int} {passive : Order} {rest : List Order}
  {behind : Levels} {st : Sweep}
  (h : IndexInv r s L index ((p, passive :: rest) :: behind) st)

include h

theorem IndexInv.head_ne :
    ∀ y ∈ rest ++ Levels.orders behind, y.orderId ≠ passive.orderId := by
  intro y hy heq
  have hnd := h.distinct
  rw [orders_cons, List.cons_append, List.map_cons, List.nodup_cons] at hnd
  exact hnd.1 (heq ▸ List.mem_map_of_mem hy)

theorem IndexInv.head_mem : ∃ x ∈ L, x.orderId = passive.orderId :=
  h.swept.resting.exists_orderId (List.mem_cons_self ..)

theorem IndexInv.rest_distinct :
    ((rest ++ Levels.orders behind).map Order.orderId).Nodup := by
  have hnd := h.distinct
  rw [orders_cons, List.cons_append, List.map_cons, List.nodup_cons] at hnd
  exact hnd.2

/-- A partial fill enters the order as it now is. -/
theorem IndexInv.swept_partly {updated : Order} (hid : updated.orderId = passive.orderId)
    (hlt : updated.remainingQuantity < passive.remainingQuantity) :
    SweptIndex r L index (updated :: (rest ++ Levels.orders behind))
      (st.orderIndex.insert updated.orderId updated) where
  resting := by
    intro y hy
    rcases List.mem_cons.mp hy with rfl | hy
    · refine Or.inr ⟨?_, Finmap.lookup_insert _⟩
      rcases h.swept.resting passive (List.mem_cons_self ..) with ⟨hin, -⟩ | ⟨⟨x, hx, hxid, hlt'⟩, -⟩
      · exact ⟨passive, hin, hid.symm, hlt⟩
      · exact ⟨x, hx, hxid.trans hid.symm, by omega⟩
    · rw [Finmap.lookup_insert_of_ne _ (hid ▸ h.head_ne y hy)]
      exact h.swept.resting y (List.mem_cons_of_mem _ hy)
  popped := by
    intro x hx hgone
    have hne : x.orderId ≠ updated.orderId := (hgone updated (List.mem_cons_self ..)).symm
    rw [Finmap.lookup_insert_of_ne _ hne]
    refine h.swept.popped x hx (fun y hy => ?_)
    rcases List.mem_cons.mp hy with rfl | hy
    · exact hid ▸ hgone updated (List.mem_cons_self ..)
    · exact hgone y (List.mem_cons_of_mem _ hy)
  others := by
    intro id hnone
    obtain ⟨x, hx, hxid⟩ := h.head_mem
    rw [Finmap.lookup_insert_of_ne _ (by rw [hid, ← hxid]; exact (hnone x hx).symm)]
    exact h.swept.others id hnone

/-- A full fill takes the entry out if the id of the popped order is found. -/
theorem IndexInv.swept_whole (hrem : 0 < st.remainingQty) :
    SweptIndex r L index (rest ++ Levels.orders behind)
      (if r.intact passive.orderId then st.orderIndex.erase passive.orderId
        else st.orderIndex) := by
  have hlookup : ∀ id, id ≠ passive.orderId →
      (if r.intact passive.orderId then st.orderIndex.erase passive.orderId
        else st.orderIndex).lookup id = st.orderIndex.lookup id := by
    intro id hid
    split
    · exact Finmap.lookup_erase_ne hid
    · rfl
  refine ⟨fun y hy => ?_, fun x hx hgone => ?_, fun id hnone => ?_⟩
  · rw [hlookup _ (h.head_ne y hy)]
    exact h.swept.resting y (List.mem_cons_of_mem _ hy)
  · by_cases hid : x.orderId = passive.orderId
    · -- this is the order just popped; nothing had touched its entry before
      have hbefore := h.untouched hrem passive (List.mem_cons_self ..)
      rw [hid]
      cases hintact : r.intact passive.orderId with
      | true => exact Finmap.lookup_erase _ _
      | false => exact hbefore
    · rw [hlookup _ hid]
      refine h.swept.popped x hx (fun y hy => ?_)
      rcases List.mem_cons.mp hy with rfl | hy
      · exact fun heq => hid heq.symm
      · exact hgone y hy
  · obtain ⟨x, hx, hxid⟩ := h.head_mem
    rw [hlookup _ (by rw [← hxid]; exact (hnone x hx).symm)]
    exact h.swept.others id hnone

end Fill

theorem indexInv_fill (r : PoppedId) (amb : Ambient) (aggressor : Order) (crosses : Int → Bool)
    (s : OrderSide) (L : List Order) (index : Finmap (fun _ : String => Order)) :
    KeptByFill amb aggressor crosses (IndexInv r s L index) := by
  intro p passive rest behind st _ hrem h
  have hpos := (h.side.head passive (List.mem_cons_self ..)).2
  have hside := sideOk_afterFill h.side
    (versionOf_withRemainingQuantity passive (passive.remainingQuantity
      - min st.remainingQty passive.remainingQuantity) (amb.updatedAt st.fills.length))
  have horders := orders_afterFill p (fillFront amb aggressor p passive rest behind st).1 rest behind
  by_cases hpart : (fillFront amb aggressor p passive rest behind st).1.remainingQuantity > 0
  · -- partly filled: nothing is left of the aggressor
    have hused := fillFront_partly hpart
    rw [if_pos hpart] at horders
    have hlt : (fillFront amb aggressor p passive rest behind st).1.remainingQuantity
        < passive.remainingQuantity := by
      simp only [fillFront, Order.withRemainingQuantity_remainingQuantity]
      omega
    have hindex : (fillFront amb aggressor p passive rest behind st).2.orderIndex
        = st.orderIndex.insert (fillFront amb aggressor p passive rest behind st).1.orderId
          (fillFront amb aggressor p passive rest behind st).1 := if_pos hpart
    refine ⟨hside, ?_, ?_, fun hpos' => by omega⟩
    · have hnd := h.distinct
      rw [horders]
      exact hnd
    · rw [horders, hindex]
      exact h.swept_partly rfl hlt
  · rw [if_neg hpart] at horders
    have hindex : (fillFront amb aggressor p passive rest behind st).2.orderIndex
        = if r.intact passive.orderId then st.orderIndex.erase passive.orderId
          else st.orderIndex := if_neg hpart
    refine ⟨hside, by rw [horders]; exact h.rest_distinct, ?_, fun _ y hy => ?_⟩
    · rw [horders, hindex]
      exact h.swept_whole hrem
    · rw [horders] at hy
      have hsame := h.untouched hrem y (List.mem_cons_of_mem _ hy)
      rw [hindex]
      split
      · rw [Finmap.lookup_erase_ne (h.head_ne y hy)]
        exact hsame
      · exact hsame

/-- **What a sweep does to the index.** -/
theorem sweptIndex (r : PoppedId) {b : OrderBook} (amb : Ambient) (aggressor : Order) (crosses : Int → Bool)
    (hside : SideOk aggressor.side.opposite (b.levels aggressor.side.opposite).entries)
    (hnd : ((b.resting aggressor.side.opposite).map Order.orderId).Nodup) :
    SweptIndex r (b.resting aggressor.side.opposite) b.orderIndex
      ((b.sweep amb aggressor crosses).2.resting aggressor.side.opposite)
      (b.sweep amb aggressor crosses).2.orderIndex := by
  have hend := matchSide_rule (indexInv_fill r amb aggressor crosses aggressor.side.opposite
      (b.resting aggressor.side.opposite) b.orderIndex) _ (sweepStart b aggressor) hside.nonempty
    ⟨hside, hnd, ⟨fun y hy => Or.inl ⟨hy, rfl⟩, fun x hx hgone => absurd rfl (hgone x hx),
      fun _ _ => rfl⟩, fun _ _ _ => rfl⟩
  rw [sweep_resting_opposite]
  exact hend.swept

end Swept

/-! ## Readings differ in the index alone -/

/-- The book with another index. -/
def withIndex (b : OrderBook) (index : Finmap (fun _ : String => Order)) : OrderBook :=
  { b with orderIndex := index }

theorem levels_withIndex (b : OrderBook) (index : Finmap (fun _ : String => Order))
    (s : OrderSide) : (withIndex b index).levels s = b.levels s := by
  cases s <;> rfl

theorem setLevels_withIndex (b : OrderBook) (index : Finmap (fun _ : String => Order))
    (s : OrderSide) (m : OrdMap Int (List Order) (better s)) :
    (withIndex b index).setLevels s m = withIndex (b.setLevels s m) index := by
  cases s <;> rfl

theorem resting_withIndex (b : OrderBook) (index : Finmap (fun _ : String => Order))
    (s : OrderSide) : (withIndex b index).resting s = b.resting s := by
  rw [resting, resting, levels_withIndex]

theorem allOrders_withIndex (b : OrderBook) (index : Finmap (fun _ : String => Order)) :
    allOrders (withIndex b index) = allOrders b := rfl

section Readings

variable (r r' : PoppedId) (amb : Ambient) (aggressor : Order)

theorem fillLevel_reading (p : Int) (behind : Levels) :
    ∀ (queue : List Order) (st : Sweep) (index : Finmap (fun _ : String => Order)), ∃ index',
      @fillLevel r' amb aggressor p behind queue { st with orderIndex := index }
        = ((@fillLevel r amb aggressor p behind queue st).1,
          { (@fillLevel r amb aggressor p behind queue st).2 with orderIndex := index' })
  | [], _, index => ⟨index, rfl⟩
  | passive :: rest, st, index => by
      -- one turn differs in the index only, whatever the reading makes of it
      have hturn : ∃ index', @fillFront r' amb aggressor p passive rest behind
          { st with orderIndex := index }
            = ((@fillFront r amb aggressor p passive rest behind st).1,
              { (@fillFront r amb aggressor p passive rest behind st).2 with
                orderIndex := index' }) := ⟨_, rfl⟩
      obtain ⟨index', hturn⟩ := hturn
      unfold fillLevel
      rw [hturn]
      dsimp only
      split
      · split
        · exact ⟨index', rfl⟩
        · exact fillLevel_reading p behind rest _ index'
      · exact ⟨index, rfl⟩

theorem matchSide_reading (crosses : Int → Bool) :
    ∀ (ls : Levels) (st : Sweep) (index : Finmap (fun _ : String => Order)), ∃ index',
      @matchSide r' amb aggressor crosses ls { st with orderIndex := index }
        = ((@matchSide r amb aggressor crosses ls st).1,
          { (@matchSide r amb aggressor crosses ls st).2 with orderIndex := index' })
  | [], _, index => ⟨index, rfl⟩
  | (p, queue) :: ls, st, index => by
      obtain ⟨index', hlevel⟩ := fillLevel_reading r r' amb aggressor p ls queue st index
      unfold matchSide
      rw [hlevel]
      dsimp only
      split
      · split
        · split
          · exact matchSide_reading crosses ls _ index'
          · exact ⟨index', rfl⟩
        · exact ⟨index, rfl⟩
      · exact ⟨index, rfl⟩

/-- **A sweep differs in the index alone**, whatever the readings and the indices. -/
theorem sweep_reading (b : OrderBook) (index : Finmap (fun _ : String => Order))
    (crosses : Int → Bool) : ∃ index',
    @sweep r' (withIndex b index) amb aggressor crosses
      = ({ (@sweep r b amb aggressor crosses).1 with orderIndex := index' },
        withIndex (@sweep r b amb aggressor crosses).2 index') := by
  obtain ⟨index', hloop⟩ := matchSide_reading r r' amb aggressor crosses
    (b.levels aggressor.side.opposite).entries (sweepStart b aggressor) index
  refine ⟨index', ?_⟩
  have hstart : (⟨aggressor.remainingQuantity, [], (withIndex b index).orderIndex,
      (withIndex b index).lastTradePrice⟩ : Sweep)
        = { sweepStart b aggressor with orderIndex := index } := rfl
  simp only [sweep, levels_withIndex, hstart, hloop, setLevels_withIndex]
  rfl

end Readings

/-! ## Stale entries -/

/-- The index is that of the book `b`, and entries of ids in `W` that were lost and do not
rest any more. -/
structure StaleIn (r : PoppedId) (W : String → Prop) (b : OrderBook)
    (index : Finmap (fun _ : String => Order)) : Prop where
  kept : ∀ id o, b.orderIndex.lookup id = some o → index.lookup id = some o
  stale : ∀ id o, index.lookup id = some o → b.orderIndex.lookup id = some o
    ∨ (r.intact id = false ∧ NotResting b id ∧ W id)

theorem staleIn_self (r : PoppedId) (W : String → Prop) (b : OrderBook) :
    StaleIn r W b b.orderIndex :=
  ⟨fun _ _ h => h, fun _ _ h => Or.inl h⟩

section StaleIn

variable {r : PoppedId} {W : String → Prop} {b : OrderBook}
  {index : Finmap (fun _ : String => Order)}

theorem StaleIn.mono (h : StaleIn r W b index) {W' : String → Prop} (hsub : ∀ id, W id → W' id) :
    StaleIn r W' b index where
  kept := h.kept
  stale := by
    intro id o ho
    rcases h.stale id o ho with hb | ⟨hlost, hgone, hid⟩
    · exact Or.inl hb
    · exact Or.inr ⟨hlost, hgone, hsub id hid⟩

/-- With no id to be stale, the index is that of the book. -/
theorem StaleIn.eq (h : StaleIn r (fun _ => False) b index) : index = b.orderIndex := by
  refine Finmap.ext_lookup (fun id => ?_)
  cases hb : b.orderIndex.lookup id with
  | some o => exact h.kept id o hb
  | none =>
      cases hi : index.lookup id with
      | none => rfl
      | some o =>
          rcases h.stale id o hi with ho | ⟨-, -, hf⟩
          · rw [hb] at ho; exact absurd ho (by simp)
          · exact hf.elim

/-- An id that rests is indexed as it is in the book. -/
theorem StaleIn.lookup_resting (h : StaleIn r W b index) {x : Order} (hx : x ∈ allOrders b) :
    index.lookup x.orderId = b.orderIndex.lookup x.orderId := by
  cases hi : index.lookup x.orderId with
  | none =>
      cases hb : b.orderIndex.lookup x.orderId with
      | none => rfl
      | some o => rw [h.kept _ o hb] at hi; exact absurd hi (by simp)
  | some o =>
      rcases h.stale _ o hi with hb | ⟨-, hgone, -⟩
      · exact hb.symm
      · exact absurd rfl (hgone x hx)

/-! ### Sweeps -/

/-- What two sweeps of the same orders, under whatever readings, make of the entry of an
order that still rests: both leave it, or both enter the order as it now is. -/
theorem lookup_reindexed {L L' : List Order}
    {index₁ index₁' index₂ index₂' : Finmap (fun _ : String => Order)}
    (hnd : (L.map Order.orderId).Nodup) (h₁ : Reindexed L index₁ L' index₁')
    (h₂ : Reindexed L index₂ L' index₂') {y : Order} (hy : y ∈ L') :
    (index₁'.lookup y.orderId = index₁.lookup y.orderId
        ∧ index₂'.lookup y.orderId = index₂.lookup y.orderId)
      ∨ (index₁'.lookup y.orderId = some y ∧ index₂'.lookup y.orderId = some y) := by
  -- an order cannot be one of `L` and have less than the one of `L` with its id
  have hexcl : y ∈ L → ¬ ∃ x ∈ L, x.orderId = y.orderId
      ∧ y.remainingQuantity < x.remainingQuantity := by
    rintro hyL ⟨x, hx, hid, hlt⟩
    have hxy := eq_of_orderId hnd hx hyL hid
    subst hxy
    omega
  rcases h₁ y hy with ⟨hyL, hl₁⟩ | ⟨hx, hl₁⟩
  · rcases h₂ y hy with ⟨-, hl₂⟩ | ⟨hx, -⟩
    · exact Or.inl ⟨hl₁, hl₂⟩
    · exact absurd hx (hexcl hyL)
  · rcases h₂ y hy with ⟨hyL, -⟩ | ⟨-, hl₂⟩
    · exact absurd hx (hexcl hyL)
    · exact Or.inr ⟨hl₁, hl₂⟩

/-- **A sweep** leaves stale the entries that were, and those of the orders it filled whole
whose ids are lost. -/
theorem staleIn_sweep (hrep : RepInv b) (h : StaleIn r W b index) (amb : Ambient)
    (aggressor : Order) (crosses : Int → Bool)
    (hW : ∀ x ∈ b.resting aggressor.side.opposite, r.intact x.orderId = false →
      x.orderId ∈ index →
      (∀ y ∈ (@sweep grantedId b amb aggressor crosses).2.resting aggressor.side.opposite,
        y.orderId ≠ x.orderId) → W x.orderId)
    {index' : Finmap (fun _ : String => Order)}
    (hsweep : SweptIndex r (b.resting aggressor.side.opposite) index
      ((@sweep grantedId b amb aggressor crosses).2.resting aggressor.side.opposite) index') :
    StaleIn r W (@sweep grantedId b amb aggressor crosses).2 index' := by
  have hnd := hrep.resting_distinct aggressor.side.opposite
  have hrep' := repInv_sweep hrep amb aggressor crosses
  have hgranted := sweptIndex grantedId amb aggressor crosses (hrep.side _) hnd
  -- where `id` rests after the sweep, both indices were rewritten alike
  have hboth : ∀ y ∈ (@sweep grantedId b amb aggressor crosses).2.resting aggressor.side.opposite,
      index'.lookup y.orderId
        = (@sweep grantedId b amb aggressor crosses).2.orderIndex.lookup y.orderId := by
    intro y hy
    rcases lookup_reindexed hnd hgranted.resting hsweep.resting hy with ⟨hg, hr⟩ | ⟨hg, hr⟩
    · obtain ⟨x, hx, hxid⟩ := hgranted.resting.exists_orderId hy
      rw [hg, hr, ← hxid]
      exact h.lookup_resting (mem_allOrders.mpr ⟨_, hx⟩)
    · rw [hg, hr]
  refine ⟨fun id o ho => ?_, fun id o ho => ?_⟩
  · by_cases hid : ∃ x ∈ b.resting aggressor.side.opposite, x.orderId = id
    · obtain ⟨x, hx, rfl⟩ := hid
      by_cases hrest : ∃ y ∈ (@sweep grantedId b amb aggressor crosses).2.resting
          aggressor.side.opposite, y.orderId = x.orderId
      · obtain ⟨y, hy, hyid⟩ := hrest
        rw [← hyid] at ho ⊢
        rw [hboth y hy]
        exact ho
      · -- filled whole, so the index that is granted the id has no entry
        have hgone : ∀ y ∈ (@sweep grantedId b amb aggressor crosses).2.resting
            aggressor.side.opposite, y.orderId ≠ x.orderId :=
          fun y hy heq => hrest ⟨y, hy, heq⟩
        rw [hrep'.index.lookup_eq_none
          ((notResting_sweep_iff hrep amb crosses hx).mpr hgone)] at ho
        exact absurd ho (by simp)
    · have hnone : ∀ x ∈ b.resting aggressor.side.opposite, x.orderId ≠ id :=
        fun x hx heq => hid ⟨x, hx, heq⟩
      rw [hgranted.others id hnone] at ho
      rw [hsweep.others id hnone]
      exact h.kept id o ho
  · by_cases hid : ∃ x ∈ b.resting aggressor.side.opposite, x.orderId = id
    · obtain ⟨x, hx, rfl⟩ := hid
      by_cases hrest : ∃ y ∈ (@sweep grantedId b amb aggressor crosses).2.resting
          aggressor.side.opposite, y.orderId = x.orderId
      · obtain ⟨y, hy, hyid⟩ := hrest
        rw [← hyid] at ho ⊢
        rw [hboth y hy] at ho
        exact Or.inl ho
      · have hgone : ∀ y ∈ (@sweep grantedId b amb aggressor crosses).2.resting
            aggressor.side.opposite, y.orderId ≠ x.orderId :=
          fun y hy heq => hrest ⟨y, hy, heq⟩
        rw [hsweep.popped x hx hgone] at ho
        cases hlost : r.intact x.orderId with
        | true => rw [hlost] at ho; exact absurd ho (by simp)
        | false =>
            rw [hlost] at ho
            exact Or.inr ⟨rfl, (notResting_sweep_iff hrep amb crosses hx).mpr hgone,
              hW x hx hlost (Finmap.mem_iff.mpr ⟨o, ho⟩) hgone⟩
    · have hnone : ∀ x ∈ b.resting aggressor.side.opposite, x.orderId ≠ id :=
        fun x hx heq => hid ⟨x, hx, heq⟩
      rw [hsweep.others id hnone] at ho
      rw [hgranted.others id hnone]
      rcases h.stale id o ho with hb | ⟨hlost, hold, hx⟩
      · exact Or.inl hb
      · exact Or.inr ⟨hlost, notResting_sweep hrep hold amb aggressor crosses, hx⟩

/-! ### Insertion and removal -/

/-- A new order is entered in both indices. -/
theorem StaleIn.insert (hrep : RepInv b) (h : StaleIn r W b index) (order : Order) :
    StaleIn r W (b.insertIntoBook order) (index.insert order.orderId order) := by
  have hindex : (b.insertIntoBook order).orderIndex = b.orderIndex.insert order.orderId order := rfl
  refine ⟨fun id o ho => ?_, fun id o ho => ?_⟩
  · rw [hindex] at ho
    by_cases hid : id = order.orderId
    · subst hid
      rw [Finmap.lookup_insert] at ho ⊢
      exact ho
    · rw [Finmap.lookup_insert_of_ne _ hid] at ho ⊢
      exact h.kept id o ho
  · rw [hindex]
    by_cases hid : id = order.orderId
    · subst hid
      rw [Finmap.lookup_insert] at ho ⊢
      exact Or.inl ho
    · rw [Finmap.lookup_insert_of_ne _ hid] at ho ⊢
      rcases h.stale id o ho with hb | ⟨hlost, hgone, hx⟩
      · exact Or.inl hb
      · refine Or.inr ⟨hlost, fun y hy => ?_, hx⟩
        rcases List.mem_cons.mp ((insert_perm hrep order).mem_iff.mp hy) with rfl | hy
        · exact fun heq => hid heq.symm
        · exact hgone y hy

theorem erase_absent {index : Finmap (fun _ : String => Order)} {id : String}
    (h : index.lookup id = none) : index.erase id = index := by
  refine Finmap.ext_lookup (fun k => ?_)
  by_cases hk : k = id
  · rw [hk, h, Finmap.lookup_erase]
  · rw [Finmap.lookup_erase_ne hk]

theorem removeFromBook_absent {b : OrderBook} {id : String} (h : b.orderIndex.lookup id = none) :
    b.removeFromBook id = (false, b) := by
  rw [removeFromBook, h]

/-- Whatever a removal finds, it erases the entry. -/
theorem removeFromBook_orderIndex (b : OrderBook) (id : String) :
    (b.removeFromBook id).2.orderIndex = b.orderIndex.erase id := by
  cases hl : b.orderIndex.lookup id with
  | none => rw [removeFromBook_absent hl, erase_absent hl]
  | some o =>
      by_cases hp : o.price = 0
      · rw [removeFromBook_unpriced hl hp]
      · cases hf : (b.levels o.side).find? o.price with
        | none => rw [removeFromBook_lost hl hp hf]
        | some queue => rw [removeFromBook_found hl hp hf]

/-- Filtering a queue by an id that is not in it changes nothing. -/
theorem dropFromLevel_absent {s : OrderSide} {m : OrdMap Int (List Order) (better s)}
    (hside : SideOk s m.entries) {p : Int} {queue : List Order} (hf : m.find? p = some queue)
    {id : String} (hid : ∀ o ∈ Levels.orders m.entries, o.orderId ≠ id) :
    dropFromLevel m p queue id = m := by
  obtain ⟨l₁, l₂, hcut⟩ := OrdMap.find?_eq_some hf
  have hmem : (p, queue) ∈ m.entries := by rw [hcut]; exact List.mem_append_right _ (by simp)
  have hne : queue ≠ [] := hside.nonempty _ hmem
  have hfilter : queue.filter (fun o => o.orderId ≠ id) = queue :=
    List.filter_eq_self.mpr (fun o ho => by
      simpa using hid o (mem_orders.mpr ⟨_, hmem, ho⟩))
  unfold dropFromLevel
  dsimp only
  rw [hfilter, if_neg (fun he => hne (List.isEmpty_iff.mp he))]
  exact OrdMap.ext (by rw [OrdMap.upsert_cut hcut, hcut])

/-- The removal of a stale id takes nothing out of a queue. -/
theorem removeFromBook_stale (hrep : RepInv b) {id : String} (hid : NotResting b id) :
    ((withIndex b index).removeFromBook id).2 = withIndex b (index.erase id) := by
  cases hl : (withIndex b index).orderIndex.lookup id with
  | none => rw [removeFromBook_absent hl, erase_absent (show index.lookup id = none from hl)]
  | some o =>
      by_cases hp : o.price = 0
      · rw [removeFromBook_unpriced hl hp]; rfl
      · cases hf : ((withIndex b index).levels o.side).find? o.price with
        | none => rw [removeFromBook_lost hl hp hf]; rfl
        | some queue =>
            have hlevels := levels_withIndex b index o.side
            rw [removeFromBook_found hl hp hf]
            rw [hlevels] at hf ⊢
            rw [dropFromLevel_absent (hrep.side o.side) hf
              (fun x hx => hid x (mem_allOrders.mpr ⟨_, hx⟩))]
            cases o.side <;> rfl

/-- **A removal** does to the queues what it does where the ids are granted. -/
theorem removeFromBook_withIndex (hrep : RepInv b) (h : StaleIn r W b index) (id : String) :
    ((withIndex b index).removeFromBook id).2
      = withIndex (b.removeFromBook id).2 (index.erase id) := by
  by_cases hsame : index.lookup id = b.orderIndex.lookup id
  · cases hl : b.orderIndex.lookup id with
    | none =>
        rw [hl] at hsame
        rw [removeFromBook_absent hl, removeFromBook_absent (b := withIndex b index) hsame,
          erase_absent hsame]
    | some o =>
        rw [hl] at hsame
        have hl' : (withIndex b index).orderIndex.lookup id = some o := hsame
        by_cases hp : o.price = 0
        · rw [removeFromBook_unpriced hl hp, removeFromBook_unpriced hl' hp]; rfl
        · have hlevels := levels_withIndex b index o.side
          cases hf : (b.levels o.side).find? o.price with
          | none =>
              rw [removeFromBook_lost hl hp hf, removeFromBook_lost hl' hp (by rw [hlevels]; exact hf)]
              rfl
          | some queue =>
              rw [removeFromBook_found hl hp hf,
                removeFromBook_found hl' hp (by rw [hlevels]; exact hf), hlevels,
                setLevels_withIndex]
              rfl
  · -- only a stale entry differs
    have hgone : NotResting b id := by
      intro x hx heq
      exact hsame (heq ▸ h.lookup_resting hx)
    have hnone := hrep.index.lookup_eq_none hgone
    rw [removeFromBook_stale hrep hgone]
    rw [removeFromBook_absent hnone]

theorem StaleIn.remove (hrep : RepInv b) (h : StaleIn r W b index) (id : String) :
    StaleIn r W (b.removeFromBook id).2 (index.erase id) := by
  have hindex := removeFromBook_orderIndex b id
  refine ⟨fun k o ho => ?_, fun k o ho => ?_⟩
  · rw [hindex] at ho
    by_cases hk : k = id
    · subst hk; rw [Finmap.lookup_erase] at ho; exact absurd ho (by simp)
    · rw [Finmap.lookup_erase_ne hk] at ho ⊢
      exact h.kept k o ho
  · rw [hindex]
    by_cases hk : k = id
    · subst hk; rw [Finmap.lookup_erase] at ho; exact absurd ho (by simp)
    · rw [Finmap.lookup_erase_ne hk] at ho ⊢
      rcases h.stale k o ho with hb | ⟨hlost, hgone, hx⟩
      · exact Or.inl hb
      · exact Or.inr ⟨hlost, fun y hy => hgone y (remove_subset hrep id y hy), hx⟩

end StaleIn

/-! ## Calls -/

/-- The book `b'` is `b` but for stale entries of its index. -/
structure StaleCopy (r : PoppedId) (W : String → Prop) (b b' : OrderBook) : Prop where
  book : b' = withIndex b b'.orderIndex
  index : StaleIn r W b b'.orderIndex

section Calls

variable {r : PoppedId} {W : String → Prop} {b b' : OrderBook}

theorem StaleCopy.eq (h : StaleCopy r (fun _ => False) b b') : b' = b := by
  rw [h.book, h.index.eq]
  rfl

theorem StaleCopy.levels (h : StaleCopy r W b b') (s : OrderSide) :
    b'.levels s = b.levels s := by
  rw [h.book, levels_withIndex]

theorem StaleCopy.resting (h : StaleCopy r W b b') (s : OrderSide) :
    b'.resting s = b.resting s := by
  rw [h.book, resting_withIndex]

theorem StaleCopy.allOrders (h : StaleCopy r W b b') : allOrders b' = allOrders b := by
  rw [h.book, allOrders_withIndex]

theorem StaleCopy.lastTradePrice (h : StaleCopy r W b b') :
    b'.lastTradePrice = b.lastTradePrice := by
  rw [h.book]; rfl

theorem StaleCopy.available (h : StaleCopy r W b b') (o : Order) :
    b'.availableQuantityAtOrBetter o = b.availableQuantityAtOrBetter o := by
  rw [availableQuantityAtOrBetter, availableQuantityAtOrBetter, h.levels]

theorem StaleCopy.takesWhole_iff (h : StaleCopy r W b b') (o y : Order) :
    TakesWhole b' o y ↔ TakesWhole b o y := by
  unfold TakesWhole reaches
  rw [h.available, h.resting]

/-- The index of a sweep of the copy. -/
theorem StaleCopy.sweptIndex (h : StaleCopy r W b b') (hrep : RepInv b) (amb : Ambient)
    (aggressor : Order) (crosses : Int → Bool) :
    SweptIndex r (b.resting aggressor.side.opposite) b'.orderIndex
      ((@sweep r b' amb aggressor crosses).2.resting aggressor.side.opposite)
      (@sweep r b' amb aggressor crosses).2.orderIndex := by
  rw [← h.resting]
  refine Proof.sweptIndex r amb aggressor crosses ?_ ?_
  · rw [h.levels]; exact hrep.side _
  · rw [h.resting]; exact hrep.resting_distinct _

/-- **A sweep** of a copy leaves a copy, and makes the same trades. -/
theorem StaleCopy.sweep (h : StaleCopy r W b b') (hrep : RepInv b) (amb : Ambient)
    {aggressor : Order} {crosses : Int → Bool} (hm : CrossMono aggressor.side.opposite crosses)
    (hW : ∀ x ∈ b.resting aggressor.side.opposite, r.intact x.orderId = false →
      x.orderId ∈ b'.orderIndex → crosses x.price = true →
      quantityAhead (b.resting aggressor.side.opposite) x + x.remainingQuantity
        ≤ aggressor.remainingQuantity → W x.orderId) :
    StaleCopy r W (@OrderBook.sweep grantedId b amb aggressor crosses).2
        (@OrderBook.sweep r b' amb aggressor crosses).2
      ∧ (@OrderBook.sweep r b' amb aggressor crosses).1.fills
        = (@OrderBook.sweep grantedId b amb aggressor crosses).1.fills
      ∧ (@OrderBook.sweep r b' amb aggressor crosses).1.remainingQty
        = (@OrderBook.sweep grantedId b amb aggressor crosses).1.remainingQty := by
  have hswept := h.sweptIndex hrep amb aggressor crosses
  obtain ⟨index', heq⟩ := sweep_reading grantedId r amb aggressor b b'.orderIndex crosses
  rw [← h.book] at heq
  rw [heq] at hswept ⊢
  rw [resting_withIndex] at hswept
  refine ⟨⟨rfl, staleIn_sweep hrep h.index amb aggressor crosses ?_ hswept⟩, rfl, rfl⟩
  intro x hx hlost hmem hgone
  obtain ⟨hc, hle⟩ := (sweep_whole_iff hrep amb hm hx).mp hgone
  exact hW x hx hlost hmem hc hle

theorem StaleCopy.insert (h : StaleCopy r W b b') (hrep : RepInv b) (order : Order) :
    StaleCopy r W (b.insertIntoBook order) (b'.insertIntoBook order) := by
  refine ⟨?_, h.index.insert hrep order⟩
  have hbook := h.book
  generalize b'.orderIndex = index at hbook
  subst hbook
  rw [insertIntoBook, insertIntoBook, levels_withIndex, setLevels_withIndex]
  rfl

theorem StaleCopy.remove (h : StaleCopy r W b b') (hrep : RepInv b) (id : String) :
    StaleCopy r W (b.removeFromBook id).2 (b'.removeFromBook id).2 := by
  have hbook := h.book
  have hindex := h.index
  generalize b'.orderIndex = index at hbook hindex
  subst hbook
  rw [removeFromBook_withIndex hrep hindex id]
  exact ⟨rfl, hindex.remove hrep id⟩

/-- **A call of `match`** on a copy leaves a copy, and makes the same trades. -/
theorem StaleCopy.matchIncoming (h : StaleCopy r W b b') (hrep : RepInv b) (amb : Ambient)
    {incoming : Order} (hfresh : NotResting b incoming.orderId)
    (hW : ∀ x ∈ b.resting incoming.side.opposite, r.intact x.orderId = false →
      x.orderId ∈ b'.orderIndex → TakesWhole b incoming x → W x.orderId) :
    StaleCopy r W (@OrderBook.matchIncoming grantedId b amb incoming).2
        (@OrderBook.matchIncoming r b' amb incoming).2
      ∧ (@OrderBook.matchIncoming r b' amb incoming).1
        = (@OrderBook.matchIncoming grantedId b amb incoming).1 := by
  -- the two sweeps there are, for the types that make them
  have hmarket : (∀ p, reaches b incoming p = true) →
      StaleCopy r W (@matchMarket grantedId b amb incoming).2 (@matchMarket r b' amb incoming).2
        ∧ (@matchMarket r b' amb incoming).1 = (@matchMarket grantedId b amb incoming).1 := by
    intro hall
    have hsweep := h.sweep hrep amb (crossMono_all _)
      (fun x hx hlost hmem _ hle => hW x hx hlost hmem ⟨hall _, hle⟩)
    exact ⟨hsweep.1, hsweep.2.1⟩
  have hlimit : (∀ p, reaches b incoming p = crossesLimit incoming p) →
      StaleCopy r W (@matchLimit grantedId b amb incoming).2 (@matchLimit r b' amb incoming).2
        ∧ (@matchLimit r b' amb incoming).1 = (@matchLimit grantedId b amb incoming).1 := by
    intro hall
    obtain ⟨hcopy, hfills, hqty⟩ := h.sweep hrep amb (crossMono_limit incoming)
      (fun x hx hlost hmem hc hle => hW x hx hlost hmem ⟨(hall _).trans hc, hle⟩)
    unfold matchLimit
    dsimp only
    rw [hfills, hqty]
    split
    · exact ⟨hcopy.insert (repInv_sweep hrep amb incoming _) _, rfl⟩
    · exact ⟨hcopy, rfl⟩
  unfold OrderBook.matchIncoming
  cases ht : incoming.type with
  | market => exact hmarket (fun p => by rw [reaches, ht])
  | limit => exact hlimit (fun p => by rw [reaches, ht])
  | ioc =>
      obtain ⟨hcopy, hfills⟩ := hlimit (fun p => by rw [reaches, ht])
      exact ⟨hcopy.remove (repInv_matchLimit hrep amb hfresh) incoming.orderId, hfills⟩
  | fok =>
      dsimp only
      unfold matchFok
      rw [h.available]
      split
      · exact ⟨h, rfl⟩
      · rename_i henough
        exact hmarket (fun p => by rw [reaches, ht, decide_eq_true_iff]; omega)
  | stopLimit => exact ⟨h, rfl⟩

/-- An entry whose id is lost outlives every call of `match` by another order. -/
theorem StaleCopy.mem_index_match (h : StaleCopy r W b b') (hrep : RepInv b) (amb : Ambient)
    {incoming : Order} {y : Order} (hy : y ∈ b.resting incoming.side.opposite)
    (hne : y.orderId ≠ incoming.orderId) (hlost : r.intact y.orderId = false)
    (hmem : y.orderId ∈ b'.orderIndex) :
    y.orderId ∈ (@OrderBook.matchIncoming r b' amb incoming).2.orderIndex := by
  refine @matchIncoming_rule r (fun _ b'' => y.orderId ∈ b''.orderIndex)
    (fun _ b'' => y.orderId ∈ b''.orderIndex) b' amb incoming hmem ?_ (fun _ _ hP => hP) ?_ ?_
  · intro crosses
    have hswept := h.sweptIndex hrep amb incoming crosses
    rw [Finmap.mem_iff] at hmem ⊢
    by_cases hrest : ∃ z ∈ (@OrderBook.sweep r b' amb incoming crosses).2.resting
        incoming.side.opposite, z.orderId = y.orderId
    · obtain ⟨z, hz, hid⟩ := hrest
      rcases hswept.resting z hz with ⟨-, hl⟩ | ⟨-, hl⟩
      · rw [← hid] at hmem ⊢
        rw [hl]
        exact hmem
      · exact ⟨z, by rw [← hid]; exact hl⟩
    · rw [hswept.popped y hy (fun z hz hid => hrest ⟨z, hz, hid⟩), hlost]
      exact hmem
  · intro _ _ hP
    exact Finmap.mem_insert.mpr (Or.inr hP)
  · intro _ b'' hQ
    rw [removeFromBook_orderIndex]
    exact Finmap.mem_erase.mpr ⟨hne, hQ⟩

end Calls

end TitanX.Proof
