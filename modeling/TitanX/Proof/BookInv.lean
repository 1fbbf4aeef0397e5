import TitanX.Proof.Sweep

/-!
# The representation invariant of a book

A book keeps every resting order twice: in the queue of its level, and in the
cancel index. `RepInv` is what holds of the pair in every book a run can reach.

* Each side is well formed (`SideOk`).
* No id rests twice, and an index entry is a copy of the resting order of that id.
* Every resting order *whose price is not 0* has its index entry.

The proviso in the last point is the code's: `removeFromBook` erases the index
entry before it looks at the price, and gives up at price 0. The order stays in its
queue, and only its next partial fill would enter it in the index again.
-/

namespace TitanX.Proof

open TitanX OrderBook

/-! ## The cancel index against a list of resting orders -/

/-- The index describes the orders of `L`, except that those at price 0 may be missing. -/
structure IndexOk (L : List Order) (index : Finmap (fun _ : String => Order)) : Prop where
  distinct : (L.map Order.orderId).Nodup
  sound : ∀ id o, index.lookup id = some o → o.orderId = id ∧ o ∈ L
  complete : ∀ o ∈ L, o.price ≠ 0 → index.lookup o.orderId = some o

section Index

variable {L : List Order} {index : Finmap (fun _ : String => Order)}

theorem indexOk_nil : IndexOk [] ∅ :=
  ⟨by simp, fun id o h => by simp at h, by simp⟩

theorem IndexOk.perm {L' : List Order} (h : IndexOk L index) (hp : L.Perm L') :
    IndexOk L' index where
  distinct := (hp.map Order.orderId).nodup_iff.mp h.distinct
  sound := fun id o ho => ⟨(h.sound id o ho).1, hp.mem_iff.mp (h.sound id o ho).2⟩
  complete := fun o ho => h.complete o (hp.mem_iff.mpr ho)

/-- An id that no order has is not in the index. -/
theorem IndexOk.lookup_eq_none (h : IndexOk L index) {id : String}
    (hid : ∀ o ∈ L, o.orderId ≠ id) : index.lookup id = none := by
  cases hl : index.lookup id with
  | none => rfl
  | some o =>
      obtain ⟨hoid, ho⟩ := h.sound id o hl
      exact absurd hoid (hid o ho)

/-- No other order of `a :: L` has the id of `a`. -/
theorem IndexOk.head_ne {a : Order} (h : IndexOk (a :: L) index) :
    ∀ o ∈ L, o.orderId ≠ a.orderId := by
  intro o ho heq
  have hnd := h.distinct
  rw [List.map_cons, List.nodup_cons] at hnd
  exact hnd.1 (heq ▸ List.mem_map_of_mem ho)

/-- A removal takes an id out of both structures. -/
theorem IndexOk.remove (h : IndexOk L index) (id : String) :
    IndexOk (L.filter (fun o => o.orderId ≠ id)) (index.erase id) where
  distinct := h.distinct.sublist (List.filter_sublist.map _)
  sound := by
    intro k o ho
    by_cases hk : k = id
    · subst hk; rw [Finmap.lookup_erase] at ho; exact absurd ho (by simp)
    · rw [Finmap.lookup_erase_ne hk] at ho
      obtain ⟨h1, h2⟩ := h.sound k o ho
      exact ⟨h1, List.mem_filter.mpr ⟨h2, by simpa [h1] using hk⟩⟩
  complete := by
    intro o ho hp
    obtain ⟨hmem, hne⟩ := List.mem_filter.mp ho
    rw [Finmap.lookup_erase_ne (by simpa using hne)]
    exact h.complete o hmem hp

/-- A full fill takes the order and its index entry. -/
theorem IndexOk.drop_head {a : Order} (h : IndexOk (a :: L) index) :
    IndexOk L (index.erase a.orderId) := by
  have hL : (a :: L).filter (fun o => o.orderId ≠ a.orderId) = L := by
    rw [List.filter_cons_of_neg (by simp)]
    exact List.filter_eq_self.mpr (fun o ho => by simpa using h.head_ne o ho)
  have hrem := h.remove a.orderId
  rw [hL] at hrem
  exact hrem

/-- A new order enters both structures. -/
theorem IndexOk.insert {a : Order} (h : IndexOk L index)
    (hfresh : ∀ o ∈ L, o.orderId ≠ a.orderId) :
    IndexOk (a :: L) (index.insert a.orderId a) where
  distinct := by
    rw [List.map_cons, List.nodup_cons]
    refine ⟨?_, h.distinct⟩
    intro hmem
    obtain ⟨o, ho, heq⟩ := List.mem_map.mp hmem
    exact hfresh o ho heq
  sound := by
    intro id o ho
    by_cases hk : id = a.orderId
    · subst hk
      rw [Finmap.lookup_insert] at ho
      obtain rfl := Option.some.inj ho
      exact ⟨rfl, List.mem_cons_self ..⟩
    · rw [Finmap.lookup_insert_of_ne _ hk] at ho
      exact ⟨(h.sound id o ho).1, List.mem_cons_of_mem _ (h.sound id o ho).2⟩
  complete := by
    intro o ho hp
    rcases List.mem_cons.mp ho with rfl | ho
    · exact Finmap.lookup_insert _
    · rw [Finmap.lookup_insert_of_ne _ (hfresh o ho)]
      exact h.complete o ho hp

/-- A partial fill rewrites the order and its index entry alike. -/
theorem IndexOk.replace_head {a a' : Order} (h : IndexOk (a :: L) index)
    (hid : a'.orderId = a.orderId) :
    IndexOk (a' :: L) (index.insert a'.orderId a') := by
  have hins := h.drop_head.insert (a := a') (hid ▸ h.head_ne)
  have heq : (index.erase a.orderId).insert a'.orderId a' = index.insert a'.orderId a' := by
    refine Finmap.ext_lookup (fun id => ?_)
    by_cases hk : id = a'.orderId
    · rw [hk, Finmap.lookup_insert, Finmap.lookup_insert]
    · rw [Finmap.lookup_insert_of_ne _ hk, Finmap.lookup_insert_of_ne _ hk,
        Finmap.lookup_erase_ne (hid ▸ hk)]
  rw [heq] at hins
  exact hins

/-- Giving up at price 0: the index loses an entry it was allowed to miss. -/
theorem IndexOk.erase_unpriced {a : Order} (h : IndexOk L index)
    (ha : index.lookup a.orderId = some a) (hp : a.price = 0) :
    IndexOk L (index.erase a.orderId) where
  distinct := h.distinct
  sound := by
    intro id o ho
    by_cases hk : id = a.orderId
    · subst hk; rw [Finmap.lookup_erase] at ho; exact absurd ho (by simp)
    · rw [Finmap.lookup_erase_ne hk] at ho; exact h.sound id o ho
  complete := by
    intro o ho hpo
    have hlook := h.complete o ho hpo
    -- the erased entry is that of an order at price 0, and `o` has a price
    have hne : o.orderId ≠ a.orderId := by
      intro heq
      rw [heq, ha] at hlook
      obtain rfl := Option.some.inj hlook
      exact hpo hp
    rw [Finmap.lookup_erase_ne hne]; exact hlook

end Index

/-! ## The invariant -/

/-- Every order resting in the book. -/
def allOrders (b : OrderBook) : List Order := b.resting .buy ++ b.resting .sell

theorem allOrders_perm (b : OrderBook) (s : OrderSide) :
    (allOrders b).Perm (b.resting s ++ b.resting s.opposite) := by
  cases s
  · exact List.Perm.refl _
  · exact List.perm_append_comm

theorem mem_allOrders {b : OrderBook} {o : Order} :
    o ∈ allOrders b ↔ ∃ s, o ∈ b.resting s := by
  rw [allOrders, List.mem_append]
  constructor
  · rintro (h | h)
    · exact ⟨_, h⟩
    · exact ⟨_, h⟩
  · rintro ⟨s, h⟩
    cases s
    · exact Or.inl h
    · exact Or.inr h

/-- Both sides are well formed, whatever the index says. -/
def SidesOk (b : OrderBook) : Prop := ∀ s, SideOk s (b.levels s).entries

/-- The representation invariant. -/
structure RepInv (b : OrderBook) : Prop where
  /-- Both sides are well formed. -/
  side : ∀ s, SideOk s (b.levels s).entries
  /-- The index describes what rests in them. -/
  index : IndexOk (allOrders b) b.orderIndex

theorem repInv_new (symbol : String) : RepInv (OrderBook.new symbol) where
  side := by intro s; cases s <;> exact sideOk_nil _
  index := indexOk_nil

theorem RepInv.mem_side {b : OrderBook} (h : RepInv b) {o : Order} (ho : o ∈ allOrders b) :
    o ∈ b.resting o.side := by
  obtain ⟨s, hs⟩ := mem_allOrders.mp ho
  rw [((h.side s).mem hs).1]; exact hs

theorem RepInv.positive {b : OrderBook} (h : RepInv b) {o : Order} (ho : o ∈ allOrders b) :
    0 < o.remainingQuantity := (h.side o.side).positive o (h.mem_side ho)

theorem RepInv.resting_positive {b : OrderBook} (h : RepInv b) (s : OrderSide) :
    ∀ x ∈ b.resting s, 0 < x.remainingQuantity := (h.side s).positive

theorem RepInv.resting_distinct {b : OrderBook} (h : RepInv b) (s : OrderSide) :
    ((b.resting s).map Order.orderId).Nodup := by
  have hnd := ((allOrders_perm b s).map Order.orderId).nodup_iff.mp h.index.distinct
  rw [List.map_append] at hnd
  exact (List.nodup_append.mp hnd).1

/-- No id rests on both sides. -/
theorem RepInv.sides_disjoint {b : OrderBook} (h : RepInv b) {s : OrderSide} {x y : Order}
    (hx : x ∈ b.resting s) (hy : y ∈ b.resting s.opposite) : x.orderId ≠ y.orderId := by
  have hnd := ((allOrders_perm b s).map Order.orderId).nodup_iff.mp h.index.distinct
  rw [List.map_append] at hnd
  exact (List.nodup_append.mp hnd).2.2 _ (List.mem_map_of_mem hx) _ (List.mem_map_of_mem hy)

/-- The invariant may be checked from either side. -/
theorem RepInv.of_side {b : OrderBook} (s : OrderSide) (hs : SideOk s (b.levels s).entries)
    (hopp : SideOk s.opposite (b.levels s.opposite).entries)
    (hidx : IndexOk (b.resting s ++ b.resting s.opposite) b.orderIndex) : RepInv b where
  side := by
    intro t
    rcases OrderSide.eq_or_opposite s t with rfl | rfl
    · exact hs
    · exact hopp
  index := hidx.perm (allOrders_perm b s).symm

/-! ## Sweeps -/

section SweepFields

variable [PoppedId] (b : OrderBook) (amb : Ambient) (aggressor : Order) (crosses : Int → Bool)

/-- The loop state a sweep of `b` starts from. -/
def sweepStart (b : OrderBook) (aggressor : Order) : Sweep :=
  ⟨aggressor.remainingQuantity, [], b.orderIndex, b.lastTradePrice⟩

/-- The loops' result behind `sweep`. -/
def sweepLoop (b : OrderBook) (amb : Ambient) (aggressor : Order) (crosses : Int → Bool) :
    Levels × Sweep :=
  matchSide amb aggressor crosses (b.levels aggressor.side.opposite).entries
    (sweepStart b aggressor)

theorem sweep_fst : (b.sweep amb aggressor crosses).1 = (sweepLoop b amb aggressor crosses).2 :=
  rfl

theorem sweep_levels_opposite :
    ((b.sweep amb aggressor crosses).2.levels aggressor.side.opposite).entries =
      (sweepLoop b amb aggressor crosses).1 := by
  simp only [sweep, levels_mk, levels_setLevels]; rfl

theorem sweep_levels_own :
    (b.sweep amb aggressor crosses).2.levels aggressor.side = b.levels aggressor.side := by
  simp only [sweep, levels_mk]
  exact levels_setLevels_of_ne _ _ _ (OrderSide.opposite_ne _).symm

theorem sweep_resting_opposite :
    (b.sweep amb aggressor crosses).2.resting aggressor.side.opposite
      = Levels.orders (sweepLoop b amb aggressor crosses).1 := by
  rw [resting, sweep_levels_opposite]

theorem sweep_resting_own :
    (b.sweep amb aggressor crosses).2.resting aggressor.side = b.resting aggressor.side := by
  rw [resting, sweep_levels_own, resting]

theorem sweep_levels_opposite_opposite :
    (b.sweep amb aggressor crosses).2.levels aggressor.side.opposite.opposite
      = b.levels aggressor.side.opposite.opposite := by
  rw [OrderSide.opposite_opposite]
  exact sweep_levels_own b amb aggressor crosses

variable {b}

theorem sidesOk_sweep (h : SidesOk b) : SidesOk (b.sweep amb aggressor crosses).2 := by
  intro s
  rcases OrderSide.eq_or_opposite aggressor.side s with rfl | rfl
  · rw [sweep_levels_own]; exact h _
  · rw [sweep_levels_opposite]
    exact (sweepInv amb aggressor crosses (h _) rfl).side

end SweepFields

/-- The index follows every fill. -/
theorem indexOk_fill (amb : Ambient) (aggressor : Order) (crosses : Int → Bool)
    (other : List Order) :
    KeptByFill amb aggressor crosses
      (fun ls st => IndexOk (Levels.orders ls ++ other) st.orderIndex) := by
  intro p passive rest behind st _ _ h
  rw [orders_cons, List.cons_append, List.cons_append] at h
  rw [orders_afterFill, fillFront_orderIndex]
  split
  · exact h.replace_head rfl
  · exact h.drop_head

theorem repInv_sweep {b : OrderBook} (h : RepInv b) (amb : Ambient) (aggressor : Order)
    (crosses : Int → Bool) : RepInv (b.sweep amb aggressor crosses).2 := by
  have hside := h.side aggressor.side.opposite
  have hown := sweep_levels_opposite_opposite b amb aggressor crosses
  have hsides := sidesOk_sweep amb aggressor crosses h.side
  refine RepInv.of_side aggressor.side.opposite (hsides _) (hsides _) ?_
  rw [resting, resting, hown, sweep_levels_opposite]
  exact matchSide_rule (indexOk_fill amb aggressor crosses (b.resting aggressor.side.opposite.opposite))
    _ _ hside.nonempty (h.index.perm (allOrders_perm b aggressor.side.opposite))

/-! ## Insertion -/

/-- Insertion appends to one queue, new or not, and moves nothing else. -/
theorem pushBack_cut {s : OrderSide} {m : OrdMap Int (List Order) (better s)}
    (h : SideOk s m.entries) (order : Order) :
    ∃ l₁ queue l₂, SideOk s l₁ ∧ SideOk s l₂
      ∧ (∀ o ∈ queue, (o.side = s ∧ o.price = order.price) ∧ 0 < o.remainingQuantity)
      ∧ m.entries = l₁ ++ collapse order.price queue l₂
      ∧ (pushBack m order).entries = l₁ ++ (order.price, queue ++ [order]) :: l₂ := by
  cases hf : m.find? order.price with
  | some queue =>
      obtain ⟨l₁, l₂, hcut⟩ := OrdMap.find?_eq_some hf
      rw [hcut] at h
      obtain ⟨h₁, h₂⟩ := sideOk_append.mp h
      have hne : queue ≠ [] := h₂.nonempty _ (List.mem_cons_self ..)
      refine ⟨l₁, queue, l₂, h₁, h₂.tail, h₂.head, ?_, OrdMap.upsert_cut hcut⟩
      rw [hcut, collapse, if_neg (by simpa using hne)]
  | none =>
      obtain ⟨l₁, l₂, hcut, hu⟩ := OrdMap.upsert_gap
        (f := fun queue => queue.getD [] ++ [order]) hf
      rw [hcut] at h
      obtain ⟨h₁, h₂⟩ := sideOk_append.mp h
      exact ⟨l₁, [], l₂, h₁, h₂, by simp, hcut, hu⟩

/--
Where a new order goes: behind everything at a better or at its own price, in front
of everything at a worse one.
-/
theorem pushBack_place {s : OrderSide} {m : OrdMap Int (List Order) (better s)}
    (h : SideOk s m.entries) (order : Order) :
    ∃ pre post, Levels.orders m.entries = pre ++ post
      ∧ Levels.orders (pushBack m order).entries = pre ++ order :: post
      ∧ (∀ x ∈ pre, better s x.price order.price ∨ x.price = order.price)
      ∧ (∀ x ∈ post, better s order.price x.price) := by
  obtain ⟨l₁, queue, l₂, h₁, h₂, hq, hm, hp⟩ := pushBack_cut h order
  -- the keys of the new map are sorted, so the cut is by price
  have hsorted := (pushBack m order).sorted
  rw [hp] at hsorted
  obtain ⟨-, hr, hcross⟩ := List.pairwise_append.mp hsorted
  refine ⟨Levels.orders l₁ ++ queue, Levels.orders l₂, ?_, ?_, ?_, ?_⟩
  · rw [hm, orders_append, orders_collapse, List.append_assoc]
  · rw [hp, orders_append, orders_cons]; simp
  · intro x hx
    rcases List.mem_append.mp hx with hx | hx
    · exact Or.inl (h₁.prices (P := fun q => better s q order.price)
        (fun l hl => hcross l hl _ (List.mem_cons_self ..)) x hx)
    · exact Or.inr (hq x hx).1.2
  · exact h₂.prices (List.pairwise_cons.mp hr).1

theorem pushBack_perm {s : OrderSide} {m : OrdMap Int (List Order) (better s)}
    (h : SideOk s m.entries) (order : Order) :
    (Levels.orders (pushBack m order).entries).Perm (order :: Levels.orders m.entries) := by
  obtain ⟨pre, post, h1, h2, -, -⟩ := pushBack_place h order
  rw [h1, h2]
  exact List.perm_middle

theorem sideOk_pushBack {s : OrderSide} {m : OrdMap Int (List Order) (better s)}
    (h : SideOk s m.entries) {order : Order} (hs : order.side = s)
    (hpos : 0 < order.remainingQuantity) : SideOk s (pushBack m order).entries := by
  obtain ⟨l₁, queue, l₂, h₁, h₂, hq, -, hp⟩ := pushBack_cut h order
  rw [hp]
  refine sideOk_append.mpr ⟨h₁, h₂.cons (by simp) ?_⟩
  intro o ho
  rcases List.mem_append.mp ho with ho | ho
  · exact hq o ho
  · rw [List.mem_singleton.mp ho]; exact ⟨⟨hs, rfl⟩, hpos⟩

section InsertFields

variable (b : OrderBook) (order : Order)

theorem insert_levels_own :
    (b.insertIntoBook order).levels order.side = pushBack (b.levels order.side) order := by
  simp only [insertIntoBook, levels_mk, levels_setLevels]

theorem insert_levels_of_ne {t : OrderSide} (h : t ≠ order.side) :
    (b.insertIntoBook order).levels t = b.levels t := by
  simp only [insertIntoBook, levels_mk]
  exact levels_setLevels_of_ne _ _ _ h

end InsertFields

theorem insert_perm {b : OrderBook} (h : RepInv b) (order : Order) :
    (allOrders (b.insertIntoBook order)).Perm (order :: allOrders b) := by
  refine (allOrders_perm _ order.side).trans ?_
  refine List.Perm.trans ?_ ((allOrders_perm b order.side).symm.cons order)
  rw [resting, resting, insert_levels_own, insert_levels_of_ne b order (OrderSide.opposite_ne _)]
  exact (pushBack_perm (h.side order.side) order).append_right _

theorem sidesOk_insert {b : OrderBook} (h : SidesOk b) {order : Order}
    (hpos : 0 < order.remainingQuantity) : SidesOk (b.insertIntoBook order) := by
  intro t
  by_cases ht : t = order.side
  · subst ht
    rw [insert_levels_own]
    exact sideOk_pushBack (h _) rfl hpos
  · rw [insert_levels_of_ne b order ht]; exact h t

theorem repInv_insert {b : OrderBook} (h : RepInv b) {order : Order}
    (hpos : 0 < order.remainingQuantity)
    (hfresh : ∀ o ∈ allOrders b, o.orderId ≠ order.orderId) :
    RepInv (b.insertIntoBook order) where
  side := sidesOk_insert h.side hpos
  index := (h.index.insert hfresh).perm (insert_perm h order).symm

/-! ## Removal -/

/-- The levels without order `id`: filtered queue by queue, empty levels dropped. -/
def without (ls : Levels) (id : String) : Levels :=
  (ls.map (fun l => (l.1, l.2.filter (fun o => o.orderId ≠ id)))).filter
    (fun l => !l.2.isEmpty)

theorem without_append (ls ls' : Levels) (id : String) :
    without (ls ++ ls') id = without ls id ++ without ls' id := by
  simp [without]

theorem without_cons (p : Int) (queue : List Order) (ls : Levels) (id : String) :
    without ((p, queue) :: ls) id =
      collapse p (queue.filter (fun o => o.orderId ≠ id)) (without ls id) := by
  unfold without collapse
  rw [List.map_cons, List.filter_cons]
  cases (queue.filter (fun o => o.orderId ≠ id)).isEmpty <;> rfl

theorem orders_without (ls : Levels) (id : String) :
    Levels.orders (without ls id) = (Levels.orders ls).filter (fun o => o.orderId ≠ id) := by
  induction ls with
  | nil => rfl
  | cons l ls ih =>
      obtain ⟨p, queue⟩ := l
      rw [without_cons, orders_collapse, orders_cons, List.filter_append, ih]

theorem sideOk_without {s : OrderSide} {ls : Levels} (h : SideOk s ls) (id : String) :
    SideOk s (without ls id) := by
  induction ls with
  | nil => exact h
  | cons l ls ih =>
      obtain ⟨p, queue⟩ := l
      rw [without_cons]
      exact sideOk_collapse (ih h.tail) (fun o ho => h.head o (List.mem_of_mem_filter ho))

/-- Nothing changes where `id` does not rest. -/
theorem without_eq_self {s : OrderSide} {ls : Levels} (h : SideOk s ls) {id : String}
    (hid : ∀ o ∈ Levels.orders ls, o.orderId ≠ id) : without ls id = ls := by
  induction ls with
  | nil => rfl
  | cons l ls ih =>
      obtain ⟨p, queue⟩ := l
      have hq : queue.filter (fun o => o.orderId ≠ id) = queue :=
        List.filter_eq_self.mpr (fun o ho => by
          simpa using hid o (List.mem_append_left _ ho))
      have hne : ¬ queue.isEmpty = true := fun he =>
        h.nonempty _ (List.mem_cons_self ..) (List.isEmpty_iff.mp he)
      rw [without_cons, hq, ih h.tail (fun o ho => hid o (List.mem_append_right _ ho)), collapse,
        if_neg hne]

/-- A resting order is found under its price. -/
theorem SideOk.level_of_mem {s : OrderSide} {m : OrdMap Int (List Order) (better s)}
    (h : SideOk s m.entries) {o : Order} (ho : o ∈ Levels.orders m.entries) :
    ∃ queue, m.find? o.price = some queue ∧ o ∈ queue := by
  obtain ⟨⟨p, queue⟩, hl, hol⟩ := mem_orders.mp ho
  obtain ⟨l₁, l₂, hcut⟩ := List.append_of_mem hl
  have hp : o.price = p := (h.keyed _ hl o hol).2
  exact ⟨queue, hp ▸ OrdMap.find?_cut hcut, hol⟩

/-- Two resting orders with one id are one order. -/
theorem eq_of_orderId {L : List Order} (hnd : (L.map Order.orderId).Nodup) {o o' : Order}
    (ho : o ∈ L) (ho' : o' ∈ L) (h : o.orderId = o'.orderId) : o = o' :=
  List.inj_on_of_nodup_map hnd ho ho' h

/-- Filtering the one queue an order is in takes it out of the whole side. -/
theorem dropFromLevel_entries {s : OrderSide} {m : OrdMap Int (List Order) (better s)}
    (h : SideOk s m.entries) (hnd : ((Levels.orders m.entries).map Order.orderId).Nodup)
    {o : Order} {queue : List Order} (hf : m.find? o.price = some queue) (ho : o ∈ queue) :
    (dropFromLevel m o.price queue o.orderId).entries = without m.entries o.orderId := by
  obtain ⟨l₁, l₂, hcut⟩ := OrdMap.find?_eq_some hf
  have hside := h
  rw [hcut] at hside hnd
  obtain ⟨h₁, h₂⟩ := sideOk_append.mp hside
  rw [orders_append, orders_cons, List.map_append, List.map_append] at hnd
  obtain ⟨-, hnd₂, hcross⟩ := List.nodup_append.mp hnd
  obtain ⟨-, -, hcross₂⟩ := List.nodup_append.mp hnd₂
  have hid : o.orderId ∈ queue.map Order.orderId := List.mem_map_of_mem ho
  have he₁ : without l₁ o.orderId = l₁ := without_eq_self h₁ (fun x hx =>
    hcross _ (List.mem_map_of_mem hx) _ (List.mem_append_left _ hid))
  have he₂ : without l₂ o.orderId = l₂ := without_eq_self h₂.tail (fun x hx heq =>
    hcross₂ _ hid _ (List.mem_map_of_mem hx) heq.symm)
  rw [hcut, without_append, without_cons, he₁, he₂, dropFromLevel, collapse]
  split
  · exact OrdMap.erase_cut hcut
  · exact OrdMap.upsert_cut hcut

/-- The book `b` after order `id` has been taken out of both structures. -/
structure Removed (b : OrderBook) (id : String) (b' : OrderBook) : Prop where
  levels : ∀ s, (b'.levels s).entries = without (b.levels s).entries id
  orderIndex : b'.orderIndex = b.orderIndex.erase id
  lastTradePrice : b'.lastTradePrice = b.lastTradePrice
  symbol : b'.symbol = b.symbol

/-- The removal of an order at price 0. -/
theorem removeFromBook_unpriced {b : OrderBook} {id : String} {o : Order}
    (hl : b.orderIndex.lookup id = some o) (hp : o.price = 0) :
    b.removeFromBook id = (false, { b with orderIndex := b.orderIndex.erase id }) := by
  rw [removeFromBook, hl]
  exact if_pos hp

/-- The removal of an order whose level is there. -/
theorem removeFromBook_found {b : OrderBook} {id : String} {o : Order} {queue : List Order}
    (hl : b.orderIndex.lookup id = some o) (hp : o.price ≠ 0)
    (hf : (b.levels o.side).find? o.price = some queue) :
    b.removeFromBook id =
      (true, { b.setLevels o.side (dropFromLevel (b.levels o.side) o.price queue id) with
        orderIndex := b.orderIndex.erase id }) := by
  rw [removeFromBook, hl]
  dsimp only
  rw [if_neg hp, levels_mk, hf]
  cases o.side <;> rfl

/-- And of one whose level is not. -/
theorem removeFromBook_lost {b : OrderBook} {id : String} {o : Order}
    (hl : b.orderIndex.lookup id = some o) (hp : o.price ≠ 0)
    (hf : (b.levels o.side).find? o.price = none) :
    b.removeFromBook id = (false, { b with orderIndex := b.orderIndex.erase id }) := by
  rw [removeFromBook, hl]
  dsimp only
  rw [if_neg hp, levels_mk, hf]

theorem sideOk_dropFromLevel {s : OrderSide} {m : OrdMap Int (List Order) (better s)}
    (h : SideOk s m.entries) {price : Int} {queue : List Order} (hf : m.find? price = some queue)
    (id : String) : SideOk s (dropFromLevel m price queue id).entries := by
  obtain ⟨l₁, l₂, hcut⟩ := OrdMap.find?_eq_some hf
  rw [hcut] at h
  obtain ⟨h₁, h₂⟩ := sideOk_append.mp h
  unfold dropFromLevel
  dsimp only
  split
  · rw [OrdMap.erase_cut hcut]
    exact sideOk_append.mpr ⟨h₁, h₂.tail⟩
  · rename_i hne
    rw [OrdMap.upsert_cut hcut]
    refine sideOk_append.mpr ⟨h₁, h₂.tail.cons (fun hnil => hne (List.isEmpty_iff.mpr hnil)) ?_⟩
    exact fun o ho => h₂.head o (List.mem_filter.mp ho).1

/-- A removal keeps the sides well formed, wherever the index leads it. -/
theorem sidesOk_remove {b : OrderBook} (h : SidesOk b) (id : String) :
    SidesOk (b.removeFromBook id).2 := by
  have hsame : ∀ index, SidesOk { b with orderIndex := index } := by
    intro index s
    rw [levels_mk]
    exact h s
  cases hl : b.orderIndex.lookup id with
  | none => rw [removeFromBook, hl]; exact h
  | some o =>
      by_cases hp : o.price = 0
      · rw [removeFromBook_unpriced hl hp]; exact hsame _
      · cases hf : (b.levels o.side).find? o.price with
        | none => rw [removeFromBook_lost hl hp hf]; exact hsame _
        | some queue =>
            rw [removeFromBook_found hl hp hf]
            intro s
            rw [levels_mk]
            by_cases hs : s = o.side
            · subst hs
              rw [levels_setLevels]
              exact sideOk_dropFromLevel (h _) hf id
            · rw [levels_setLevels_of_ne _ _ _ hs]; exact h s

/-- An order with a price is found and taken out. -/
theorem removeFromBook_priced {b : OrderBook} (h : RepInv b) {id : String} {o : Order}
    (hl : b.orderIndex.lookup id = some o) (hp : o.price ≠ 0) :
    (b.removeFromBook id).1 = true ∧ Removed b id (b.removeFromBook id).2 := by
  obtain ⟨rfl, hmem⟩ := h.index.sound id o hl
  have hown := h.mem_side hmem
  obtain ⟨queue, hf, hq⟩ := (h.side o.side).level_of_mem hown
  have hnd := ((allOrders_perm b o.side).map Order.orderId).nodup_iff.mp h.index.distinct
  rw [List.map_append] at hnd
  obtain ⟨hnd₁, -, hcross⟩ := List.nodup_append.mp hnd
  rw [removeFromBook_found hl hp hf]
  refine ⟨rfl, ?_, rfl, by simp, by simp⟩
  -- the order's own side loses it; the other side never had its id
  intro t
  rw [levels_mk]
  rcases OrderSide.eq_or_opposite o.side t with rfl | rfl
  · rw [levels_setLevels]
    exact dropFromLevel_entries (h.side o.side) hnd₁ hf hq
  · rw [levels_setLevels_of_ne _ _ _ (OrderSide.opposite_ne _)]
    refine (without_eq_self (h.side _) (fun x hx heq => ?_)).symm
    exact hcross _ (List.mem_map_of_mem hown) _ (List.mem_map_of_mem hx) heq.symm

/--
**What `removeFromBook` does.** An id that is not in the index: nothing. An order
at price 0: the index entry goes, the order stays. Any other: both go.
-/
theorem removeFromBook_cases {b : OrderBook} (h : RepInv b) (id : String) :
    (b.orderIndex.lookup id = none ∧ b.removeFromBook id = (false, b))
      ∨ (∃ o, b.orderIndex.lookup id = some o ∧ o.price = 0
        ∧ b.removeFromBook id = (false, { b with orderIndex := b.orderIndex.erase id }))
      ∨ (∃ o, b.orderIndex.lookup id = some o ∧ o.price ≠ 0
        ∧ (b.removeFromBook id).1 = true ∧ Removed b id (b.removeFromBook id).2) := by
  cases hl : b.orderIndex.lookup id with
  | none => exact Or.inl ⟨rfl, by rw [removeFromBook, hl]⟩
  | some o =>
      refine Or.inr ?_
      by_cases hp : o.price = 0
      · exact Or.inl ⟨o, rfl, hp, removeFromBook_unpriced hl hp⟩
      · exact Or.inr ⟨o, rfl, hp, removeFromBook_priced h hl hp⟩

theorem Removed.resting {b b' : OrderBook} {id : String} (h : Removed b id b')
    (s : OrderSide) : b'.resting s = (b.resting s).filter (fun o => o.orderId ≠ id) := by
  rw [OrderBook.resting, h.levels, orders_without]; rfl

theorem Removed.allOrders {b b' : OrderBook} {id : String} (h : Removed b id b') :
    allOrders b' = (allOrders b).filter (fun o => o.orderId ≠ id) := by
  rw [Proof.allOrders, Proof.allOrders, h.resting, h.resting, List.filter_append]

theorem Removed.orderId_ne {b b' : OrderBook} {id : String} (h : Removed b id b') :
    ∀ o ∈ Proof.allOrders b', o.orderId ≠ id := by
  intro o ho
  rw [h.allOrders] at ho
  simpa using (List.mem_filter.mp ho).2

theorem repInv_remove {b : OrderBook} (h : RepInv b) (id : String) :
    RepInv (b.removeFromBook id).2 := by
  rcases removeFromBook_cases h id with ⟨-, heq⟩ | ⟨o, hl, hp, heq⟩ | ⟨o, -, -, -, hr⟩
  · rw [heq]; exact h
  · obtain ⟨rfl, -⟩ := h.index.sound id o hl
    rw [heq]
    exact ⟨fun s => by rw [levels_mk]; exact h.side s, h.index.erase_unpriced hl hp⟩
  · exact {
      side := fun s => by rw [hr.levels]; exact sideOk_without (h.side s) id
      index := by rw [hr.allOrders, hr.orderIndex]; exact h.index.remove id }

end TitanX.Proof
