import TitanX.Proof.Crossing

/-!
# Cancelling

`removeFromBook` should take a resting order out of both structures, and only that.
It does, for every order that is not at price 0. There it stops halfway: the index
entry has been erased, the price reads as "no price", and the order stays in its
queue, out of reach of any later cancel.

Whether a book is affected is decided by what rests in it (`cancelExact_iff`), and
whether a run ever gets there by the single step that can rest an order at price 0:
a limit or immediate-or-cancel order submitted without a price, whose quantity
exceeds what it crosses (`cancelExact_granted_iff`). Here the ids of popped orders are granted;
`StaleRun` adds the other readings.
-/

namespace TitanX.Proof

open TitanX OrderBook

/-! ## Exactness of one book -/

/-- An order with the id `id` sits in some queue. -/
def RestsIn (b : OrderBook) (id : String) : Prop := ∃ o ∈ allOrders b, o.orderId = id

/-- The index and the levels describe the same orders, and cancel is exact. -/
structure CancelExact (b : OrderBook) : Prop where
  /-- The keys of the index are the ids that rest. -/
  keys : ∀ id, id ∈ b.orderIndex ↔ RestsIn b id
  /-- Cancel succeeds exactly on a resting order. -/
  verdict : ∀ id, (b.removeFromBook id).1 = true ↔ RestsIn b id
  /-- Then the id is gone from both structures and nothing else has moved. -/
  taken : ∀ id, (b.removeFromBook id).1 = true →
    Removed b id (b.removeFromBook id).2 ∧ id ∉ (b.removeFromBook id).2.orderIndex
      ∧ ¬ RestsIn (b.removeFromBook id).2 id
  /-- A refused cancel changes nothing. -/
  refused : ∀ id, (b.removeFromBook id).1 = false → (b.removeFromBook id).2 = b

/-- Nothing rests at price 0. -/
def AllPriced (b : OrderBook) : Prop := ∀ o ∈ allOrders b, o.price ≠ 0

theorem mem_index_iff {b : OrderBook} (h : RepInv b) (hp : AllPriced b) (id : String) :
    id ∈ b.orderIndex ↔ RestsIn b id := by
  rw [Finmap.mem_iff]
  constructor
  · rintro ⟨o, ho⟩
    obtain ⟨hid, hmem⟩ := h.index.sound id o ho
    exact ⟨o, hmem, hid⟩
  · rintro ⟨o, ho, rfl⟩
    exact ⟨o, h.index.complete o ho (hp o ho)⟩

/-- A cancel of an order that rests at price 0 is refused. -/
theorem remove_unpriced {b : OrderBook} (h : RepInv b) {o : Order} (ho : o ∈ allOrders b)
    (hp : o.price = 0) : (b.removeFromBook o.orderId).1 = false := by
  rcases removeFromBook_cases h o.orderId with ⟨-, heq⟩ | ⟨_, -, -, heq⟩ | ⟨x, hl, hpx, -, -⟩
  · rw [heq]
  · rw [heq]
  · obtain ⟨hid, hx⟩ := h.index.sound _ x hl
    exact absurd (eq_of_orderId h.index.distinct hx ho hid ▸ hp) hpx

theorem Removed.not_restsIn {b b' : OrderBook} {id : String} (h : Removed b id b') :
    ¬ RestsIn b' id := by
  rintro ⟨o, ho, hid⟩
  exact h.orderId_ne o ho hid

theorem cancelExact_of_priced {b : OrderBook} (h : RepInv b) (hp : AllPriced b) :
    CancelExact b := by
  have hcases : ∀ id,
      (¬ RestsIn b id ∧ b.removeFromBook id = (false, b))
        ∨ (RestsIn b id ∧ (b.removeFromBook id).1 = true
          ∧ Removed b id (b.removeFromBook id).2) := by
    intro id
    rcases removeFromBook_cases h id with ⟨hl, heq⟩ | ⟨o, hl, hz, -⟩ | ⟨o, hl, -, ht, hr⟩
    · refine Or.inl ⟨?_, heq⟩
      rw [← mem_index_iff h hp, Finmap.mem_iff, hl]
      rintro ⟨o, ho⟩
      exact absurd ho (by simp)
    · -- refused at price 0, which no resting order has
      exact absurd hz (hp o (h.index.sound id o hl).2)
    · obtain ⟨hid, hmem⟩ := h.index.sound id o hl
      exact Or.inr ⟨⟨o, hmem, hid⟩, ht, hr⟩
  refine ⟨mem_index_iff h hp, ?_, ?_, ?_⟩
  · intro id
    rcases hcases id with ⟨hn, heq⟩ | ⟨hy, ht, -⟩
    · rw [heq]; exact ⟨fun hf => absurd hf (by simp), fun hr => absurd hr hn⟩
    · exact ⟨fun _ => hy, fun _ => ht⟩
  · intro id ht
    rcases hcases id with ⟨-, heq⟩ | ⟨-, -, hr⟩
    · rw [heq] at ht; exact absurd ht (by simp)
    · refine ⟨hr, ?_, hr.not_restsIn⟩
      rw [hr.orderIndex, Finmap.mem_iff, Finmap.lookup_erase]
      rintro ⟨o, ho⟩
      exact absurd ho (by simp)
  · intro id hf
    rcases hcases id with ⟨-, heq⟩ | ⟨-, ht, -⟩
    · rw [heq]
    · rw [ht] at hf; exact absurd hf (by simp)

/-- **Cancel is exact on a book exactly when nothing rests at price 0.** -/
theorem cancelExact_iff {b : OrderBook} (h : RepInv b) : CancelExact b ↔ AllPriced b := by
  refine ⟨fun hex o ho hp => ?_, cancelExact_of_priced h⟩
  have ht := (hex.verdict o.orderId).mpr ⟨o, ho, rfl⟩
  rw [remove_unpriced h ho hp] at ht
  exact Bool.noConfusion ht

/-! ## Which step rests an order at price 0 -/

/-- The call leaves a remainder of an order without a price in a queue. -/
def RestsUnpriced (b : OrderBook) : BookOp → Prop
  | .matchIncoming _ o => (o.type = .limit ∨ o.type = .ioc) ∧ o.price = 0
      ∧ crossing (crossesLimit o) (b.resting o.side.opposite) < o.remainingQuantity
  | .removeFromBook _ => False

/-- Nothing else rests an order at price 0. -/
theorem allPriced_match {b : OrderBook} (h : RepInv b) (hp : AllPriced b) (amb : Ambient)
    {incoming : Order} (hfresh : NotResting b incoming.orderId)
    (hn : ¬ RestsUnpriced b (.matchIncoming amb incoming)) :
    AllPriced (b.matchIncoming amb incoming).2 := by
  refine (match_rule (P := AllPriced) (Q := AllPriced) h hfresh hp ?_ (fun _ hP => hP) ?_ ?_).2
  · intro crosses o ho
    obtain ⟨o₀, ho₀, hv⟩ := sweep_versions h amb incoming crosses o ho
    rw [hv.price]; exact hp o₀ ho₀
  · intro ht hrem hrep hpriced o ho
    rcases List.mem_cons.mp ((insert_perm hrep _).mem_iff.mp ho) with rfl | ho
    · intro hz
      exact hn ⟨ht, hz, (sweep_remainder_iff h.side amb (crossMono_limit incoming)).mp hrem⟩
    · exact hpriced o ho
  · exact fun b' hrep hQ o ho => hQ o (remove_subset hrep _ o ho)

/-- And that step does, whichever of the two types the order has. -/
theorem unpriced_stays {b : OrderBook} (h : RepInv b) (amb : Ambient) {incoming : Order}
    (hfresh : NotResting b incoming.orderId)
    (hn : RestsUnpriced b (.matchIncoming amb incoming)) :
    remainder b amb incoming ∈ allOrders (b.matchIncoming amb incoming).2 := by
  obtain ⟨ht, hz, hlt⟩ := hn
  -- the sweep leaves a quantity, so the remainder is entered, at price 0
  have hrem := (sweep_remainder_iff h.side amb (crossMono_limit incoming)).mpr hlt
  have hrep := repInv_sweep h amb incoming (crossesLimit incoming)
  have hnew := notResting_sweep h hfresh amb incoming (crossesLimit incoming)
  obtain ⟨-, heq⟩ := (matchLimit_cases b amb incoming).resolve_left
    (fun hle => absurd hle.1 (not_le.mpr hrem))
  have hmem : remainder b amb incoming ∈ allOrders (b.matchLimit amb incoming).2 := by
    rw [heq]; exact (insert_perm hrep _).mem_iff.mpr (List.mem_cons_self ..)
  have hrep' : RepInv (b.matchLimit amb incoming).2 := by
    rw [heq]; exact repInv_insert hrep hrem hnew
  unfold matchIncoming
  rcases ht with ht | ht
  · rw [ht]; exact hmem
  · -- the removal that should undo the insertion is refused
    rw [ht]
    have hf := remove_unpriced hrep' hmem hz
    show _ ∈ allOrders ((b.matchLimit amb incoming).2.removeFromBook incoming.orderId).2
    rcases removeFromBook_cases hrep' incoming.orderId with
      ⟨-, hno⟩ | ⟨_, -, -, hno⟩ | ⟨_, -, -, htrue, -⟩
    · rw [hno]; exact hmem
    · rw [hno]; exact hmem
    · exact absurd (hf.symm.trans htrue) (by simp)

theorem unpriced_match {b : OrderBook} (h : RepInv b) (amb : Ambient) {incoming : Order}
    (hfresh : NotResting b incoming.orderId)
    (hn : RestsUnpriced b (.matchIncoming amb incoming)) :
    ¬ AllPriced (b.matchIncoming amb incoming).2 :=
  fun hp => hp _ (unpriced_stays h amb hfresh hn) hn.2.1

theorem allPriced_step {ops : List BookOp} {op : BookOp} {b : OrderBook}
    (hd : DistinctIds (ops ++ [op])) (h : RunInv ops b) (hp : AllPriced b) :
    AllPriced (b.step op).1 ↔ ¬ RestsUnpriced b op := by
  cases op with
  | matchIncoming amb o =>
      have hfresh := h.notResting hd.last_new
      exact ⟨fun hall hn => unpriced_match h.rep amb hfresh hn hall,
        allPriced_match h.rep hp amb hfresh⟩
  | removeFromBook id =>
      exact ⟨fun _ hf => hf, fun _ o ho => hp o (remove_subset h.rep id o ho)⟩

/-! ## Runs -/

theorem allPriced_reachable (symbol : String) {ops : List BookOp} (h : DistinctIds ops)
    (hn : ∀ t ∈ bookTrace symbol ops, ¬ RestsUnpriced t.before t.input) :
    AllPriced (bookAfter symbol ops) := by
  refine trace_invariant OrderBook.step (V := DistinctIds)
    (Q := fun t => ¬ RestsUnpriced t.before t.input) (P := AllPriced) (fun _ _ hok => hok.init)
    ?_ ?_ ops h hn
  · exact fun o ho => absurd ho (by simp [allOrders, resting, OrderBook.new, levels])
  · intro is op hok hpriced hp
    exact (allPriced_step hok (runInv_reachable symbol hok.init) hp).mpr hpriced

/-- **When cancel is exact along a whole run**, if the ids of popped orders are granted: if and
only if no call of it rests an order at price 0. -/
theorem cancelExact_granted_iff (symbol : String) {ops : List BookOp} (h : DistinctIds ops) :
    (∀ pre post, ops = pre ++ post → CancelExact (bookAfter symbol pre)) ↔
      ∀ t ∈ bookTrace symbol ops, ¬ RestsUnpriced t.before t.input := by
  constructor
  · intro hall t ht
    obtain ⟨pre, op, post, hops, rfl⟩ := mem_trace OrderBook.step ht
    have hd : DistinctIds (pre ++ [op]) := by
      rw [hops, List.append_cons] at h
      exact h.of_append
    have hinv := runInv_reachable symbol hd.init
    -- exact before the call and after it, so the call itself rests nothing unpriced
    have hbefore := (cancelExact_iff hinv.rep).mp (hall pre (op :: post) hops)
    have hafter := (cancelExact_iff (runInv_reachable symbol hd).rep).mp
      (hall (pre ++ [op]) post (by rw [hops]; simp))
    rw [bookAfter_snoc] at hafter
    exact (allPriced_step hd hinv hbefore).mp hafter
  · intro hn pre post hops
    subst hops
    refine (cancelExact_iff (runInv_reachable symbol h.of_append).rep).mpr
      (allPriced_reachable symbol h.of_append (fun t ht => hn t ?_))
    rw [bookTrace, trace_append]; exact List.mem_append_left _ ht

end TitanX.Proof
