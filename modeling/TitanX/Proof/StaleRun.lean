import TitanX.Proof.Stale
import TitanX.Proof.Cancel

/-!
# The cancel index along a run

What `Stale` says of one call, for runs from an empty book. Under every reading of a popped id
the levels, the trades and the last trade price are those of the run in which the ids are
granted (`staleCopy_reachable`, `fillsOf_reading`). The index is, too, for as long as no call
fills whole an order that is indexed under an id that is lost (`reading_eq`); such a call
leaves the entry of an order that is in no queue (`leavesStale_step`). Where the ids are granted
no call does (`not_leavesStale_granted`).

So the two guarantees that speak of the index hold of a run exactly if it has no such call:
every entry is the resting order of its id (`book_representation_iff`), and, if also nothing
was ever left in a queue without a price, cancel is exact (`cancel_exact_iff`).
-/

namespace TitanX.Proof

open TitanX OrderBook

/-! ## Which calls leave an entry stale -/

/-- The call fills whole an order with an index entry, and the id of that order is lost. -/
def LeavesStale (r : PoppedId) (b : OrderBook) : BookOp → Prop
  | .matchIncoming _ o => ∃ y ∈ b.resting o.side.opposite,
      y.orderId ∈ b.orderIndex ∧ r.intact y.orderId = false ∧ TakesWhole b o y
  | .removeFromBook _ => False

instance (r : PoppedId) (b : OrderBook) (op : BookOp) : Decidable (LeavesStale r b op) :=
  match op with
  | .matchIncoming _ o => inferInstanceAs (Decidable (∃ y ∈ b.resting o.side.opposite, _ ∧ _ ∧ _))
  | .removeFromBook _ => inferInstanceAs (Decidable False)

theorem not_leavesStale_granted (b : OrderBook) (op : BookOp) : ¬ LeavesStale grantedId b op := by
  cases op with
  | matchIncoming amb o =>
      rintro ⟨y, -, -, hlost, -⟩
      exact Bool.noConfusion hlost
  | removeFromBook id => exact fun h => h

/-- The ids of the orders handed to `match`. -/
def SubmittedId (ops : List BookOp) (id : String) : Prop := ∃ x ∈ submitted ops, x.orderId = id

theorem submittedId_snoc {ops : List BookOp} (op : BookOp) {id : String} (h : SubmittedId ops id) :
    SubmittedId (ops ++ [op]) id := by
  obtain ⟨x, hx, hid⟩ := h
  exact ⟨x, by rw [submitted_append]; exact List.mem_append_left _ hx, hid⟩

theorem RunInv.submittedId {ops : List BookOp} {b : OrderBook} (h : RunInv ops b) {x : Order}
    (hx : x ∈ allOrders b) : SubmittedId ops x.orderId := by
  obtain ⟨x₀, hx₀, hv⟩ := h.versions x hx
  exact ⟨x₀, hx₀, hv.orderId.symm⟩

section Step

variable {r : PoppedId} {ops : List BookOp} {op : BookOp} {b : OrderBook}
  (hd : DistinctIds (ops ++ [op])) (hinv : RunInv ops b)

include hd hinv

theorem staleCopy_step {b' : OrderBook} (h : StaleCopy r (SubmittedId ops) b b') :
    StaleCopy r (SubmittedId (ops ++ [op])) (@OrderBook.step grantedId b op).1
        (@OrderBook.step r b' op).1
      ∧ (@OrderBook.step r b' op).2.fills = (@OrderBook.step grantedId b op).2.fills := by
  cases op with
  | matchIncoming amb o =>
      obtain ⟨hcopy, hfills⟩ := h.matchIncoming hinv.rep amb (hinv.notResting hd.last_new)
        (fun x hx _ _ _ => hinv.submittedId (mem_allOrders.mpr ⟨_, hx⟩))
      exact ⟨⟨hcopy.book, hcopy.index.mono (fun _ => submittedId_snoc _)⟩, hfills⟩
  | removeFromBook id =>
      have hcopy := h.remove hinv.rep id
      exact ⟨⟨hcopy.book, hcopy.index.mono (fun _ => submittedId_snoc _)⟩, rfl⟩

/-- A call that leaves nothing stale does what it does where the ids are granted. -/
theorem step_reading (hn : ¬ LeavesStale r b op) :
    @OrderBook.step r b op = @OrderBook.step grantedId b op := by
  cases op with
  | matchIncoming amb o =>
      obtain ⟨hcopy, hfills⟩ := StaleCopy.matchIncoming (r := r) (W := fun _ => False)
        ⟨rfl, staleIn_self r _ b⟩ hinv.rep amb (hinv.notResting hd.last_new)
        (fun x hx hlost hmem hw => hn ⟨x, hx, hmem, hlost, hw⟩)
      have hcall : @OrderBook.matchIncoming r b amb o = @OrderBook.matchIncoming grantedId b amb o :=
        Prod.ext hfills hcopy.eq
      unfold OrderBook.step
      dsimp only
      rw [hcall]
  | removeFromBook id => rfl

/-- A call that leaves an entry stale leaves it to an id that rests nowhere. -/
theorem leavesStale_step {b' : OrderBook} (h : StaleCopy r (SubmittedId ops) b b')
    (hs : LeavesStale r b' op) :
    ∃ id, id ∈ (@OrderBook.step r b' op).1.orderIndex
      ∧ NotResting (@OrderBook.step r b' op).1 id := by
  cases op with
  | removeFromBook id => exact hs.elim
  | matchIncoming amb o =>
      obtain ⟨y, hy, hmem, hlost, hw⟩ := hs
      have hfresh := hinv.notResting hd.last_new
      rw [h.resting] at hy
      rw [h.takesWhole_iff] at hw
      have hne : y.orderId ≠ o.orderId := hfresh y (mem_allOrders.mpr ⟨_, hy⟩)
      refine ⟨y.orderId, h.mem_index_match hinv.rep amb hy hne hlost hmem, ?_⟩
      have hgone := (notResting_match_iff hinv.rep amb hfresh hy).mpr hw
      intro z hz
      rw [(staleCopy_step hd hinv h).1.allOrders] at hz
      exact hgone z hz

end Step

/-! ## Runs -/

section Runs

variable (r : PoppedId) (symbol : String) {ops : List BookOp} (h : DistinctIds ops)

include h

/-- **Every reading leads to the same market.** The books of a run are those of the run in
which the ids of popped orders are granted, but for stale entries of the index. -/
theorem staleCopy_reachable :
    StaleCopy r (SubmittedId ops) (@bookAfter grantedId symbol ops) (@bookAfter r symbol ops) := by
  refine run_invariant (@OrderBook.step r) (V := DistinctIds)
    (P := fun is b' => StaleCopy r (SubmittedId is) (@bookAfter grantedId symbol is) b')
    (fun _ _ hok => hok.init) ⟨rfl, staleIn_self r _ _⟩ ?_ ops h
  intro is op hok hcopy
  rw [@bookAfter_snoc symbol is grantedId op]
  exact (staleCopy_step hok (runInv_reachable symbol hok.init) hcopy).1

/-- And every call makes the same trades. -/
theorem outputs_reading :
    (outputs (@OrderBook.step r) (OrderBook.new symbol) ops).map BookOut.fills
      = (outputs (@OrderBook.step grantedId) (OrderBook.new symbol) ops).map BookOut.fills := by
  induction ops using List.reverseRecOn with
  | nil =>
      show ([] : List (List Fill)) = []
      rfl
  | append_singleton is op ih =>
      have hcopy := staleCopy_reachable r symbol h.init
      have hfills := (staleCopy_step h (runInv_reachable symbol h.init) hcopy).2
      unfold bookAfter at hfills
      rw [outputs_snoc, outputs_snoc, List.map_append, List.map_append, ih h.init, List.map_singleton,
        List.map_singleton, hfills]

theorem fillsOf_reading : @fillsOf r symbol ops = @fillsOf grantedId symbol ops := by
  have hflat : ∀ r', @fillsOf r' symbol ops
      = ((outputs (@OrderBook.step r') (OrderBook.new symbol) ops).map BookOut.fills).flatten := by
    intro r'
    rw [outputs, List.map_map, ← List.flatMap_def]
    rfl
  rw [hflat r, hflat grantedId, outputs_reading r symbol h]

/-- Without a call that leaves an entry stale the whole run is that one. -/
theorem reading_eq (hn : ∀ t ∈ @bookTrace r symbol ops, ¬ LeavesStale r t.before t.input) :
    @bookAfter r symbol ops = @bookAfter grantedId symbol ops
      ∧ @bookTrace r symbol ops = @bookTrace grantedId symbol ops := by
  induction ops using List.reverseRecOn with
  | nil =>
      show OrderBook.new symbol = OrderBook.new symbol ∧ ([] : List (Transition _ _ _)) = []
      exact ⟨rfl, rfl⟩
  | append_singleton is op ih =>
      have hsnoc : ∀ r', @bookTrace r' symbol (is ++ [op]) = @bookTrace r' symbol is
          ++ [lastCall (@OrderBook.step r') (OrderBook.new symbol) is op] := fun r' =>
        trace_snoc (@OrderBook.step r') (OrderBook.new symbol) is op
      rw [hsnoc r] at hn ⊢
      obtain ⟨hbook, htrace⟩ := ih h.init (fun t ht => hn t (List.mem_append_left _ ht))
      have hlast := hn _ (List.mem_append_right _ (List.mem_singleton_self _))
      change ¬ LeavesStale r (@bookAfter r symbol is) op at hlast
      rw [hbook] at hlast
      have hstep := step_reading h (runInv_reachable symbol h.init) hlast
      constructor
      · rw [@bookAfter_snoc symbol is r op, @bookAfter_snoc symbol is grantedId op, hbook, hstep]
      · rw [hsnoc grantedId, htrace]
        unfold bookAfter at hbook hstep
        unfold lastCall
        rw [hbook, hstep]

/-- A call that leaves an entry stale makes the index larger than where the ids are granted. -/
theorem totalOrders_lt_of_leavesStale {op : BookOp} (hd : DistinctIds (ops ++ [op]))
    (hs : LeavesStale r (@bookAfter r symbol ops) op) :
    (@bookAfter grantedId symbol (ops ++ [op])).totalOrders
      < (@bookAfter r symbol (ops ++ [op])).totalOrders := by
  have hcopy := staleCopy_reachable r symbol hd
  obtain ⟨id, hmem, hgone⟩ := leavesStale_step hd (runInv_reachable symbol h)
    (staleCopy_reachable r symbol h) hs
  rw [← @bookAfter_snoc symbol ops r op] at hmem hgone
  have hnone : (@bookAfter grantedId symbol (ops ++ [op])).orderIndex.lookup id = none := by
    refine (runInv_reachable symbol hd).rep.index.lookup_eq_none (fun o ho => hgone o ?_)
    rw [hcopy.allOrders]
    exact ho
  refine Finset.card_lt_card ((Finset.ssubset_iff_of_subset (fun k hk => ?_)).mpr ⟨id, ?_, ?_⟩)
  · rw [Finmap.mem_keys, Finmap.mem_iff] at hk ⊢
    obtain ⟨o, ho⟩ := hk
    exact ⟨o, hcopy.index.kept k o ho⟩
  · exact Finmap.mem_keys.mpr hmem
  · rw [Finmap.mem_keys, Finmap.mem_iff, hnone]
    rintro ⟨o, ho⟩
    exact absurd ho (by simp)

/-- If no book of a run has an entry of an id that does not rest, no call left one. -/
theorem not_leavesStale_of_sound
    (hs : ∀ pre post, ops = pre ++ post → ∀ id ∈ (@bookAfter r symbol pre).orderIndex,
      ¬ NotResting (@bookAfter r symbol pre) id) :
    ∀ t ∈ @bookTrace r symbol ops, ¬ LeavesStale r t.before t.input := by
  intro t ht hstale
  obtain ⟨pre, op, post, hops, rfl⟩ := mem_trace (@OrderBook.step r) ht
  have hd : DistinctIds (pre ++ [op]) := by
    rw [hops, List.append_cons] at h
    exact h.of_append
  obtain ⟨id, hmem, hgone⟩ := leavesStale_step hd (runInv_reachable symbol hd.init)
    (staleCopy_reachable r symbol hd.init) hstale
  rw [← @bookAfter_snoc symbol pre r op] at hmem hgone
  exact hs (pre ++ [op]) post (by rw [hops]; simp) id hmem hgone

end Runs

/-! ## The representation of a book -/

/--
**The representation of a reachable book, under every reading of a popped id.** No level is
empty, an order is filed on its own side under its own price, no id rests twice, and what
rests has a positive remainder and the status that goes with it. And the entries of the index
are, field for field, the resting orders of their ids in every book of the run exactly if no
call of it fills whole an indexed order whose id is lost.
-/
theorem book_representation_iff (r : PoppedId) (symbol : String) {ops : List BookOp}
    (h : ValidRun ops) :
    ((∀ s, ∀ l ∈ ((@bookAfter r symbol ops).levels s).entries,
          l.2 ≠ [] ∧ ∀ o ∈ l.2, o.side = s ∧ o.price = l.1)
        ∧ ((allOrders (@bookAfter r symbol ops)).map Order.orderId).Nodup
        ∧ ∀ o ∈ allOrders (@bookAfter r symbol ops),
            0 < o.remainingQuantity ∧ o.remainingQuantity ≤ o.quantity
              ∧ o.status = if o.remainingQuantity = o.quantity then .pending
                else .partiallyFilled)
      ∧ ((∀ pre post, ops = pre ++ post → ∀ id o,
            (@bookAfter r symbol pre).orderIndex.lookup id = some o →
            o.orderId = id ∧ o ∈ allOrders (@bookAfter r symbol pre))
          ↔ ∀ t ∈ @bookTrace r symbol ops, ¬ LeavesStale r t.before t.input) := by
  obtain ⟨hlevels, hnd, hlive, -⟩ := book_representation symbol h
  have hcopy := staleCopy_reachable r symbol h.distinct
  refine ⟨⟨fun s => by rw [hcopy.levels]; exact hlevels s, by rw [hcopy.allOrders]; exact hnd,
    by rw [hcopy.allOrders]; exact hlive⟩, ?_, ?_⟩
  · intro hsound
    refine not_leavesStale_of_sound r symbol h.distinct (fun pre post hops id hmem hgone => ?_)
    obtain ⟨o, ho⟩ := Finmap.mem_iff.mp hmem
    obtain ⟨hid, hrest⟩ := hsound pre post hops id o ho
    exact hgone o hrest hid
  · intro hn pre post hops
    subst hops
    have heq := (reading_eq r symbol h.distinct.of_append (fun t ht => hn t (by
      rw [bookTrace, trace_append]; exact List.mem_append_left _ ht))).1
    rw [heq]
    exact (runInv_reachable symbol h.distinct.of_append).rep.index.sound

/-- Two sells of 5 at one price, with ids as `Order::create` draws them. -/
def twoSells : List BookOp :=
  [.matchIncoming still
      (Order.create "6f1c2a34-5b67-4c89-9abc-def012345678" 0 "A" "AAPL" .sell .limit 100 0 5),
    .matchIncoming still
      (Order.create "0d9e8f7a-6b5c-4d3e-8f2a-1b0c9d8e7f6a" 1 "B" "AAPL" .sell .limit 100 0 5)]

/-- A market buy of the given quantity. -/
def marketBuy (quantity : Int) : BookOp :=
  .matchIncoming still
    (Order.create "b1946ac9-2492-4234-8bcd-1f2e3d4c5b6a" 2 "C" "AAPL" .buy .market 0 0 quantity)

/-- The first sell is filled whole. It rests no more, and its entry says that all of it does. -/
theorem filled_entry_stays :
    ValidRun (twoSells ++ [marketBuy 5])
      ∧ ((@bookAfter shortIds "AAPL" (twoSells ++ [marketBuy 5])).orderIndex.lookup
          "6f1c2a34-5b67-4c89-9abc-def012345678").map (fun o => (o.remainingQuantity, o.status))
        = some (5, .pending)
      ∧ (allOrders (@bookAfter shortIds "AAPL" (twoSells ++ [marketBuy 5]))).map Order.orderId
        = ["0d9e8f7a-6b5c-4d3e-8f2a-1b0c9d8e7f6a"] :=
  ⟨⟨by simp [twoSells, marketBuy, submitted], by decide⟩, by decide, by decide⟩

/-- A partial fill leaves nothing stale. -/
theorem book_representation_partialFill :
    ((@bookAfter shortIds "AAPL" (twoSells ++ [marketBuy 3])).orderIndex.lookup
        "6f1c2a34-5b67-4c89-9abc-def012345678").map (fun o => (o.remainingQuantity, o.status))
        = some (2, .partiallyFilled)
      ∧ ∀ id o, (@bookAfter shortIds "AAPL" (twoSells ++ [marketBuy 3])).orderIndex.lookup id
          = some o → o.orderId = id
            ∧ o ∈ allOrders (@bookAfter shortIds "AAPL" (twoSells ++ [marketBuy 3])) := by
  have hv : ValidRun (twoSells ++ [marketBuy 3]) :=
    ⟨by simp [twoSells, marketBuy, submitted], by decide⟩
  exact ⟨by decide, (book_representation_iff shortIds "AAPL" hv).2.mpr (by decide) _ []
    (List.append_nil _).symm⟩

/-! ## Cancelling -/

/--
**When cancel is exact along a whole run.** Under every reading of a popped id the index and
the levels agree and cancel is exact in every book the run passes through if and only if no
call of it rests an order at price 0 and none fills whole an indexed order whose id is lost.
-/
theorem cancel_exact_iff (r : PoppedId) (symbol : String) {ops : List BookOp}
    (h : DistinctIds ops) :
    (∀ pre post, ops = pre ++ post → CancelExact (@bookAfter r symbol pre)) ↔
      ∀ t ∈ @bookTrace r symbol ops,
        ¬ RestsUnpriced t.before t.input ∧ ¬ LeavesStale r t.before t.input := by
  constructor
  · intro hall
    have hn := not_leavesStale_of_sound r symbol h (fun pre post hops id hmem hgone => by
      obtain ⟨o, ho, hid⟩ := ((hall pre post hops).keys id).mp hmem
      exact hgone o ho hid)
    -- so the run is the granted one, where only an order without a price can do harm
    have heq : ∀ pre post, ops = pre ++ post →
        @bookAfter r symbol pre = @bookAfter grantedId symbol pre := by
      intro pre post hops
      subst hops
      refine (reading_eq r symbol h.of_append (fun t ht => hn t ?_)).1
      rw [bookTrace, trace_append]; exact List.mem_append_left _ ht
    have hpriced := (cancelExact_granted_iff symbol h).mp (fun pre post hops => by
      rw [← heq pre post hops]; exact hall pre post hops)
    rw [← (reading_eq r symbol h hn).2] at hpriced
    exact fun t ht => ⟨hpriced t ht, hn t ht⟩
  · intro hn pre post hops
    have hpriced : ∀ t ∈ @bookTrace grantedId symbol ops, ¬ RestsUnpriced t.before t.input := by
      rw [← (reading_eq r symbol h (fun t ht => (hn t ht).2)).2]
      exact fun t ht => (hn t ht).1
    have hexact := (cancelExact_granted_iff symbol h).mpr hpriced pre post hops
    subst hops
    rw [(reading_eq r symbol h.of_append (fun t ht => (hn t (by
      rw [bookTrace, trace_append]; exact List.mem_append_left _ ht)).2)).1]
    exact hexact

/-- A limit buy submitted without a price. -/
def unpricedRun : List BookOp :=
  [.matchIncoming still (Order.create "a" 0 "A" "AAPL" .buy .limit 0 0 5)]

/-- Two ways to an inexact cancel. An order without a price rests and is indexed, and its
cancel is refused, having taken it out of the index and left it in the queue. And an order
that was filled whole rests no more, and its cancel succeeds. -/
theorem cancel_not_exact :
    (ValidRun unpricedRun ∧ ¬ CancelExact (bookAfter "AAPL" unpricedRun)
      ∧ (bookAfter "AAPL" (unpricedRun ++ [.removeFromBook "a"])).resting .buy =
          (bookAfter "AAPL" unpricedRun).resting .buy
      ∧ "a" ∉ (bookAfter "AAPL" (unpricedRun ++ [.removeFromBook "a"])).orderIndex)
    ∧ ValidRun (twoSells ++ [marketBuy 5])
      ∧ ¬ CancelExact (@bookAfter shortIds "AAPL" (twoSells ++ [marketBuy 5]))
      ∧ ((@bookAfter shortIds "AAPL" (twoSells ++ [marketBuy 5])).removeFromBook
          "6f1c2a34-5b67-4c89-9abc-def012345678").1 = true := by
  have htrue : ((@bookAfter shortIds "AAPL" (twoSells ++ [marketBuy 5])).removeFromBook
      "6f1c2a34-5b67-4c89-9abc-def012345678").1 = true := by decide
  refine ⟨⟨⟨by simp [unpricedRun, submitted], by decide⟩, fun hex => ?_, by decide, by decide⟩,
    ⟨by simp [twoSells, marketBuy, submitted], by decide⟩, fun hex => ?_, htrue⟩
  · have ht := (hex.verdict "a").mpr ⟨_, List.mem_cons_self .., by decide⟩
    exact absurd ht (by decide)
  · obtain ⟨o, ho, hid⟩ := (hex.verdict _).mp htrue
    have hnone : ∀ o ∈ allOrders (@bookAfter shortIds "AAPL" (twoSells ++ [marketBuy 5])),
        o.orderId ≠ "6f1c2a34-5b67-4c89-9abc-def012345678" := by decide
    exact hnone o ho hid

/-- A partial fill, and then the cancel of the rest. -/
theorem cancel_exact_partialFill :
    ((@bookAfter shortIds "AAPL" (twoSells ++ [marketBuy 3])).removeFromBook
        "6f1c2a34-5b67-4c89-9abc-def012345678").1 = true
      ∧ CancelExact (@bookAfter shortIds "AAPL" (twoSells ++ [marketBuy 3])) := by
  have hd : DistinctIds (twoSells ++ [marketBuy 3]) := by decide
  refine ⟨by decide, (cancel_exact_iff shortIds "AAPL" hd).mpr (fun t ht => ?_) _ []
    (List.append_nil _).symm⟩
  simp only [bookTrace, twoSells, marketBuy, List.cons_append, List.nil_append, trace,
    List.mem_cons, List.not_mem_nil, or_false] at ht
  rcases ht with rfl | rfl | rfl
  · exact ⟨fun hr => absurd hr.2.1 (by decide), by decide⟩
  · exact ⟨fun hr => absurd hr.2.1 (by decide), by decide⟩
  · exact ⟨fun hr => absurd hr.1 (by decide), by decide⟩

end TitanX.Proof
