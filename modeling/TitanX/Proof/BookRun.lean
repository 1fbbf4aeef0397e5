import TitanX.Proof.Match

/-!
# Books reached from empty

A run is any sequence of `match` and `removeFromBook` calls on a new book. The ids
of the submitted orders are pairwise distinct (`generate_uuid`), and where the fill
state matters the orders come from `Order::create` (`ValidRun`).

`runInv_reachable` carries the representation invariant along every run, with one
fact about the history: each resting order is a version of a submitted one. That is
what makes the id of the next order new to the book.
-/

namespace TitanX.Proof

open TitanX OrderBook

/-! ## Histories -/

/-- The orders handed to `match`. -/
def submitted (ops : List BookOp) : List Order :=
  ops.filterMap (fun op => match op with
    | .matchIncoming _ incoming => some incoming
    | .removeFromBook _ => none)

/-- The book after `ops`. -/
def bookAfter [PoppedId] (symbol : String) (ops : List BookOp) : OrderBook :=
  run OrderBook.step (OrderBook.new symbol) ops

/-- The calls with the books around them. -/
def bookTrace [PoppedId] (symbol : String) (ops : List BookOp) :
    List (Transition OrderBook BookOp BookOut) :=
  trace OrderBook.step (OrderBook.new symbol) ops

/-- Everything executed, in order. -/
def fillsOf [PoppedId] (symbol : String) (ops : List BookOp) : List Fill :=
  (bookTrace symbol ops).flatMap (fun t => t.output.fills)

def DistinctIds (ops : List BookOp) : Prop := ((submitted ops).map Order.orderId).Nodup

instance (ops : List BookOp) : Decidable (DistinctIds ops) :=
  inferInstanceAs (Decidable (List.Nodup _))

/-- The orders come from `Order::create`, each with its own id. -/
structure ValidRun (ops : List BookOp) : Prop where
  created : ∀ o ∈ submitted ops, o.Created
  distinct : DistinctIds ops

section Snoc

variable (symbol : String) (ops : List BookOp)

theorem submitted_append (ops' : List BookOp) :
    submitted (ops ++ ops') = submitted ops ++ submitted ops' := List.filterMap_append

theorem submitted_snoc_match (amb : Ambient) (o : Order) :
    submitted (ops ++ [.matchIncoming amb o]) = submitted ops ++ [o] := by
  rw [submitted_append]; rfl

theorem submitted_snoc_remove (id : String) :
    submitted (ops ++ [.removeFromBook id]) = submitted ops := by
  rw [submitted_append]; exact List.append_nil _

theorem bookAfter_snoc [PoppedId] (op : BookOp) :
    bookAfter symbol (ops ++ [op]) = ((bookAfter symbol ops).step op).1 :=
  run_snoc OrderBook.step _ ops op

theorem fillsOf_snoc [PoppedId] (op : BookOp) :
    fillsOf symbol (ops ++ [op]) = fillsOf symbol ops ++ ((bookAfter symbol ops).step op).2.fills := by
  unfold fillsOf bookTrace
  rw [trace_snoc, List.flatMap_append]
  exact congrArg _ (List.append_nil _)

end Snoc

/-- An execution belongs to one `match` call of the run. -/
theorem mem_fillsOf {symbol : String} {ops : List BookOp} {f : Fill}
    (h : f ∈ fillsOf symbol ops) :
    ∃ pre amb o post, ops = pre ++ .matchIncoming amb o :: post
      ∧ f ∈ ((bookAfter symbol pre).matchIncoming amb o).1 := by
  obtain ⟨t, ht, hf⟩ := List.mem_flatMap.mp h
  obtain ⟨pre, op, post, hops, rfl⟩ := mem_trace OrderBook.step ht
  cases op with
  | matchIncoming amb o => exact ⟨pre, amb, o, post, hops, hf⟩
  | removeFromBook id => exact absurd hf (List.not_mem_nil)

theorem DistinctIds.of_append {ops ops' : List BookOp} (h : DistinctIds (ops ++ ops')) :
    DistinctIds ops := by
  unfold DistinctIds at h ⊢
  rw [submitted_append, List.map_append] at h
  exact (List.nodup_append.mp h).1

theorem DistinctIds.init {ops : List BookOp} {op : BookOp} (h : DistinctIds (ops ++ [op])) :
    DistinctIds ops := h.of_append

theorem ValidRun.init {ops : List BookOp} {op : BookOp} (h : ValidRun (ops ++ [op])) :
    ValidRun ops where
  created := fun o ho => h.created o (by rw [submitted_append]; exact List.mem_append_left _ ho)
  distinct := h.distinct.init

/-- The last order submitted has an id of its own. -/
theorem DistinctIds.last_new {ops : List BookOp} {amb : Ambient} {o : Order}
    (h : DistinctIds (ops ++ [.matchIncoming amb o])) :
    ∀ x ∈ submitted ops, x.orderId ≠ o.orderId := by
  unfold DistinctIds at h
  rw [submitted_snoc_match, List.map_append] at h
  obtain ⟨-, -, hcross⟩ := List.nodup_append.mp h
  exact fun x hx => hcross _ (List.mem_map_of_mem hx) _ (by simp)

/-! ## The invariant of a run -/

/-- The book `b` that the calls `ops` led to. -/
structure RunInv (ops : List BookOp) (b : OrderBook) : Prop where
  rep : RepInv b
  /-- Whatever rests was submitted. -/
  versions : ∀ o ∈ allOrders b, ∃ o₀ ∈ submitted ops, VersionOf o o₀

/-- An id that was not submitted does not rest. -/
theorem RunInv.notResting {ops : List BookOp} {b : OrderBook} (h : RunInv ops b) {id : String}
    (hid : ∀ x ∈ submitted ops, x.orderId ≠ id) : NotResting b id := by
  intro o ho
  obtain ⟨o₀, ho₀, hv⟩ := h.versions o ho
  rw [hv.orderId]; exact hid o₀ ho₀

theorem runInv_step {ops : List BookOp} {op : BookOp} {b : OrderBook}
    (hd : DistinctIds (ops ++ [op])) (h : RunInv ops b) : RunInv (ops ++ [op]) (b.step op).1 := by
  cases op with
  | matchIncoming amb o =>
      have hm := matchInv h.rep amb (h.notResting hd.last_new)
      refine ⟨hm.rep, fun x hx => ?_⟩
      rw [submitted_snoc_match]
      rcases hm.versions x hx with hv | ⟨x₀, hx₀, hv⟩
      · exact ⟨o, List.mem_append_right _ (by simp), hv⟩
      · obtain ⟨y, hy, hvy⟩ := h.versions x₀ hx₀
        exact ⟨y, List.mem_append_left _ hy, hv.trans hvy⟩
  | removeFromBook id =>
      refine ⟨repInv_remove h.rep id, fun x hx => ?_⟩
      rw [submitted_snoc_remove]
      exact h.versions x (remove_subset h.rep id x hx)

/-- **Every reachable book satisfies the representation invariant.** -/
theorem runInv_reachable (symbol : String) {ops : List BookOp} (h : DistinctIds ops) :
    RunInv ops (bookAfter symbol ops) :=
  run_invariant OrderBook.step (P := RunInv) (fun _ _ hok => hok.init)
    ⟨repInv_new symbol, fun o ho => absurd ho (by simp [allOrders, resting, OrderBook.new, levels])⟩
    (fun _ _ hok hinv => runInv_step hok hinv) ops h

/-- The passive party of an execution was submitted in an earlier call, for the other
side and at the price of the trade. -/
theorem RunInv.passive {ops : List BookOp} {b : OrderBook} (h : RunInv ops b) {amb : Ambient}
    {o : Order} {f : Fill} (hf : f ∈ (b.matchIncoming amb o).1) :
    ∃ y ∈ submitted ops, f.trade.passiveOrderId = y.orderId
      ∧ y.side = o.side.opposite ∧ f.trade.price = y.price := by
  obtain ⟨crosses, hok⟩ := match_fillOk h.rep amb o f hf
  obtain ⟨y, hy, hid, -, hprice, hside⟩ := hok.passive
  obtain ⟨y₀, hy₀, hv⟩ := h.versions y (mem_allOrders.mpr ⟨_, hy⟩)
  exact ⟨y₀, hy₀, by rw [← hid, hv.orderId], by rw [← hside, hv.side], by rw [← hprice, hv.price]⟩

theorem live_reachable (symbol : String) {ops : List BookOp} (h : ValidRun ops) :
    ∀ o ∈ allOrders (bookAfter symbol ops), Live o := by
  refine run_invariant OrderBook.step (P := fun _ b => ∀ o ∈ allOrders b, Live o)
    (fun _ _ hok => hok.init) ?_ ?_ ops h
  · exact fun o ho => absurd ho (by simp [allOrders, resting, OrderBook.new, levels])
  · intro is op hok hl
    have hinv := runInv_reachable symbol hok.init.distinct
    cases op with
    | matchIncoming amb o =>
        have hc : o.Created := hok.created o (by rw [submitted_snoc_match]; simp)
        exact live_match hinv.rep hl amb hc (hinv.notResting hok.distinct.last_new)
    | removeFromBook id => exact fun o ho => hl o (remove_subset hinv.rep id o ho)

/--
The representation of a reachable book, if the ids of popped orders are granted.

No level is empty. An order is filed on its own side under its own price. No id
rests twice. What rests has a positive remainder and the status that goes with it.
And an entry of the cancel index is, field for field, the resting order of that id.
-/
theorem book_representation (symbol : String) {ops : List BookOp} (h : ValidRun ops) :
    (∀ s, ∀ l ∈ ((bookAfter symbol ops).levels s).entries,
        l.2 ≠ [] ∧ ∀ o ∈ l.2, o.side = s ∧ o.price = l.1)
      ∧ ((allOrders (bookAfter symbol ops)).map Order.orderId).Nodup
      ∧ (∀ o ∈ allOrders (bookAfter symbol ops),
          0 < o.remainingQuantity ∧ o.remainingQuantity ≤ o.quantity
            ∧ o.status = if o.remainingQuantity = o.quantity then .pending
              else .partiallyFilled)
      ∧ (∀ id o, (bookAfter symbol ops).orderIndex.lookup id = some o →
          o.orderId = id ∧ o ∈ allOrders (bookAfter symbol ops)) := by
  have hinv := (runInv_reachable symbol h.distinct).rep
  refine ⟨?_, hinv.index.distinct, ?_, hinv.index.sound⟩
  · exact fun s l hl => ⟨(hinv.side s).nonempty l hl, (hinv.side s).keyed l hl⟩
  · intro o ho
    have hl := live_reachable symbol h o ho
    exact ⟨hl.positive, hl.le, hl.status⟩

/-- Clock and id readings that never change, for concrete runs. -/
def still : Ambient := ⟨fun _ => "t", fun _ => 0, fun _ => 0⟩

end TitanX.Proof
