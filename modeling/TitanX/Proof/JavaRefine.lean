import TitanX.Proof.JavaSim
import TitanX.Proof.StaleRun

/-!
# The C++ book refines the Java book

`JavaSim` takes the loops of the two books side by side; here are the operations around
them and then whole runs. What the simulation asks of a call is in `Ready`: the incoming
order is new, was created after everything that rests, and has a price if it may have to
rest. Then Java's calls return, with the same trades and the same removal results, and the
books stay in the same state.

`createdAt` is where the two could part. The deque knows who came first by position and
the priority queue by `createdAt`, so the order of the calls has to be the order of
creation.

The Java book keeps its elements alive, so that it erases the id of a filled order in any case.
The C++ book erases what it reads of an order that is gone. The simulation is made for the
reading that grants it the id; for the others `java_refinement_iff` says what stays, and
which calls make the two part.
-/

namespace TitanX.Proof

open TitanX OrderBook

variable {Q : Type} [PriorityQueue Q Java.Order] [LawfulPriorityQueue Q Java.Order.createdAt]

/-! ## Queues -/

theorem queueSim_empty : QueueSim [] (PriorityQueue.empty : Q) :=
  ⟨[], by rw [LawfulPriorityQueue.elems_empty], .nil, .nil⟩

/-- Appending an order that was created last is offering it. -/
theorem QueueSim.offer {queue : List Order} {q : Q} (h : QueueSim queue q) {o : Order}
    {j : Java.Order} (hj : Corresponds o j) (hlast : ∀ x ∈ queue, x.createdAt < o.createdAt) :
    QueueSim (queue ++ [o]) (PriorityQueue.offer q j) := by
  obtain ⟨js, hperm, hjs, hsorted⟩ := h
  refine ⟨js ++ [j], ?_, List.rel_append hjs (.cons hj .nil), ?_⟩
  · exact (LawfulPriorityQueue.elems_offer q j).trans
      ((hperm.cons j).trans (List.perm_append_singleton j js).symm)
  · refine List.pairwise_append.mpr ⟨hsorted, List.pairwise_singleton _ _, ?_⟩
    intro k hk j' hj'
    obtain ⟨x, hx, hxk⟩ := forall₂_mem_right hjs hk
    rw [List.mem_singleton.mp hj', hxk.createdAt, hj.createdAt]
    exact hlast x hx

theorem corresponds_filter {queue : List Order} {js : List Java.Order}
    (h : List.Forall₂ Corresponds queue js) (id : String) :
    List.Forall₂ Corresponds (queue.filter (fun o => o.orderId ≠ id))
      (js.filter (fun j => !decide (j.orderId = id))) := by
  induction h with
  | nil => exact .nil
  | @cons o j queue js hj _ ih =>
      by_cases hid : o.orderId = id
      · rw [List.filter_cons_of_neg (by simpa using hid),
          List.filter_cons_of_neg (by simpa [hj.orderId] using hid)]
        exact ih
      · rw [List.filter_cons_of_pos (by simpa using hid),
          List.filter_cons_of_pos (by simpa [hj.orderId] using hid)]
        exact .cons hj ih

/-- `std::remove_if` on the deque is `removeIf` on the queue. -/
theorem QueueSim.removeIf {queue : List Order} {q : Q} (h : QueueSim queue q) (id : String) :
    QueueSim (queue.filter (fun o => o.orderId ≠ id))
      (PriorityQueue.removeIf q (fun j : Java.Order => j.orderId = id)).2 := by
  obtain ⟨js, hperm, hjs, hsorted⟩ := h
  refine ⟨js.filter (fun j => !decide (j.orderId = id)), ?_, corresponds_filter hjs id,
    hsorted.filter _⟩
  exact (LawfulPriorityQueue.elems_removeIf q _).trans (hperm.filter _)

/-- And it reports a removal if there was one. -/
theorem QueueSim.removeIf_fst {queue : List Order} {q : Q} (h : QueueSim queue q) {o : Order}
    (ho : o ∈ queue) :
    (PriorityQueue.removeIf q (fun j : Java.Order => j.orderId = o.orderId)).1 = true := by
  obtain ⟨js, hperm, hjs, -⟩ := h
  obtain ⟨j, hj, hoj⟩ := forall₂_mem_right hjs.flip ho
  rw [LawfulPriorityQueue.removeIf_fst, List.any_eq_true]
  exact ⟨j, hperm.mem_iff.mpr hj, by simpa using Corresponds.orderId hoj⟩

/-! ## Book operations -/

theorem insert_sim {b : OrderBook} {b' : Java.OrderBook Q} (h : BookSim b b') {o : Order}
    {j : Java.Order} (hj : Corresponds o j) (hp : o.price ≠ 0)
    (hlast : ∀ x ∈ allOrders b, x.createdAt < o.createdAt) :
    ∃ b₂, b'.insertIntoBook j = .ok b₂ ∧ BookSim (b.insertIntoBook o) b₂ := by
  obtain ⟨updatedAt, rfl⟩ := hj
  have hprice : (inJava o updatedAt).price = some (decimal o.price) := if_neg hp
  have hlevels : OrdMap.Related decimal QueueSim (pushBack (b.levels o.side) o).entries
      ((b'.levels o.side).upsert (decimal o.price)
        (fun queue => PriorityQueue.offer (queue.getD PriorityQueue.empty)
          (inJava o updatedAt))).entries := by
    refine OrdMap.related_upsert decimal_injective (better_iff_before o.side) (h.levels o.side)
      (queueSim_empty.offer ⟨updatedAt, rfl⟩ (by simp)) ?_
    intro queue q hmem hq
    refine hq.offer ⟨updatedAt, rfl⟩ (fun x hx => hlast x ?_)
    exact mem_allOrders.mpr ⟨o.side, mem_orders.mpr ⟨_, hmem, hx⟩⟩
  refine ⟨_, by rw [Java.OrderBook.insertIntoBook, hprice], ?_⟩
  exact h.write o.side hlevels (h.orderIndex.insert _ ⟨updatedAt, rfl⟩)
    (by simpa using h.lastTradePrice)

theorem dropFromLevel_sim {s : OrderSide} {m : OrdMap Int (List Order) (better s)}
    {m' : OrdMap Java.BigDecimal Q (Java.before s)}
    (h : OrdMap.Related decimal QueueSim m.entries m'.entries) {queue : List Order} {q : Q}
    (hq : QueueSim queue q) (p : Int) (id : String) :
    OrdMap.Related decimal QueueSim (dropFromLevel m p queue id).entries
      (if (PriorityQueue.elems
          (PriorityQueue.removeIf q (fun j : Java.Order => j.orderId = id)).2).isEmpty then
        m'.erase (decimal p)
      else m'.upsert (decimal p)
        (fun _ => (PriorityQueue.removeIf q (fun j : Java.Order => j.orderId = id)).2)).entries := by
  have hq' := hq.removeIf id
  unfold dropFromLevel
  dsimp only
  rw [hq'.isEmpty]
  split
  · exact OrdMap.related_erase decimal_injective h p
  · exact OrdMap.related_upsert decimal_injective (better_iff_before s) h hq' (fun _ _ _ _ => hq')

omit [LawfulPriorityQueue Q Java.Order.createdAt] in
theorem java_removeFromBook_found {b : Java.OrderBook Q} {id : String} {j : Java.Order}
    {price : Java.BigDecimal} {q : Q} (hl : b.orderIndex.lookup id = some j)
    (hp : j.price = some price) (hf : (b.levels j.side).find? price = some q) :
    b.removeFromBook id =
      ((PriorityQueue.removeIf q (fun o => o.orderId = id)).1,
        { b.setLevels j.side
            (if (PriorityQueue.elems (PriorityQueue.removeIf q (fun o => o.orderId = id)).2).isEmpty
              then (b.levels j.side).erase price
              else (b.levels j.side).upsert price
                (fun _ => (PriorityQueue.removeIf q (fun o => o.orderId = id)).2)) with
          orderIndex := b.orderIndex.erase id }) := by
  rw [Java.OrderBook.removeFromBook, hl]
  dsimp only
  rw [hp]
  dsimp only
  rw [Java.OrderBook.levels_mk, hf, ← Java.OrderBook.setLevels_orderIndex]

theorem remove_sim {b : OrderBook} {b' : Java.OrderBook Q} (hrep : RepInv b) (h : BookSim b b')
    (id : String) :
    (b'.removeFromBook id).1 = (b.removeFromBook id).1
      ∧ BookSim (b.removeFromBook id).2 (b'.removeFromBook id).2 := by
  have hlookup := h.orderIndex id
  cases hb : b.orderIndex.lookup id with
  | none =>
      rw [hb] at hlookup
      rw [OrderBook.removeFromBook, Java.OrderBook.removeFromBook, hb, OrdMap.rel_none_inv hlookup]
      exact ⟨rfl, h⟩
  | some o =>
      rw [hb] at hlookup
      obtain ⟨_, hb', updatedAt, rfl⟩ := OrdMap.rel_some_inv hlookup
      by_cases hp : o.price = 0
      · have hprice : (inJava o updatedAt).price = none := if_pos hp
        rw [removeFromBook_unpriced hb hp, Java.OrderBook.removeFromBook, hb']
        dsimp only
        rw [hprice]
        exact ⟨rfl, h.levels, h.orderIndex.erase id, h.lastTradePrice⟩
      · have hprice : (inJava o updatedAt).price = some (decimal o.price) := if_neg hp
        -- the index is sound, so the order is in the queue of its price
        obtain ⟨rfl, hmem⟩ := hrep.index.sound id o hb
        obtain ⟨queue, hfind, hqueue⟩ := (hrep.side o.side).level_of_mem (hrep.mem_side hmem)
        have hlevel := OrdMap.related_find? decimal_injective (h.levels o.side) o.price
        rw [hfind] at hlevel
        obtain ⟨q, hfind', hq⟩ := OrdMap.rel_some_inv hlevel
        rw [removeFromBook_found hb hp hfind, java_removeFromBook_found hb' hprice hfind']
        refine ⟨hq.removeIf_fst hqueue, ?_⟩
        exact h.write o.side (dropFromLevel_sim (h.levels o.side) hq o.price o.orderId)
          (h.orderIndex.erase o.orderId) (by simpa using h.lastTradePrice)

/-! ## Queries -/

omit [PriorityQueue Q Java.Order] [LawfulPriorityQueue Q Java.Order.createdAt] in
theorem crossesLimit_sim (aggressor : Order) (updatedAt : Int) (p : Int) :
    Java.OrderBook.crossesLimit (inJava aggressor updatedAt) (decimal aggressor.price) (decimal p)
      = crossesLimit aggressor p := by
  unfold Java.OrderBook.crossesLimit crossesLimit
  simp only [ge_iff_le, decimal_le]
  rfl

/-- The sum of a queue does not depend on the order of the iteration. -/
theorem sum_sim {queue : List Order} {js : List Java.Order}
    (h : List.Forall₂ Corresponds queue js) : ∀ total : Int,
    js.foldl (fun total o => wrap64 (total + o.remainingQuantity)) total =
      queue.foldl (fun total o => wrap64 (total + o.remainingQuantity)) total := by
  induction h with
  | nil => exact fun _ => rfl
  | cons hj _ ih =>
      intro total
      rw [List.foldl_cons, List.foldl_cons, hj.remainingQuantity]
      exact ih _

instance : RightCommutative (fun (total : Int) (o : Java.Order) =>
    wrap64 (total + o.remainingQuantity)) where
  right_comm total o o' := by
    simp only [wrap64, Int.bmod_add_bmod]
    congr 1
    omega

omit [LawfulPriorityQueue Q Java.Order.createdAt] in
theorem countSide_sim {crosses : Int → Bool} {crosses' : Java.BigDecimal → Bool}
    (hc : ∀ p, crosses' (decimal p) = crosses p) {ls : Levels} {ls' : List (Java.BigDecimal × Q)}
    (h : OrdMap.Related decimal QueueSim ls ls') (total : Int) :
    Java.OrderBook.countSide crosses' ls' total = countSide crosses ls total := by
  induction h generalizing total with
  | nil => rfl
  | @cons l l' ls ls' hl _ ih =>
      obtain ⟨p, queue⟩ := l
      obtain ⟨p', q⟩ := l'
      obtain ⟨hp, js, hperm, hjs, -⟩ := hl
      dsimp only at hp hperm
      rw [countSide, Java.OrderBook.countSide, hp, hc, hperm.foldl_eq, sum_sim hjs]
      split
      · exact ih _
      · rfl

omit [LawfulPriorityQueue Q Java.Order.createdAt] in
theorem available_sim {b : OrderBook} {b' : Java.OrderBook Q} (h : BookSim b b')
    (aggressor : Order) (updatedAt : Int) :
    b'.availableQuantityAtOrBetter (inJava aggressor updatedAt) =
      b.availableQuantityAtOrBetter aggressor := by
  refine countSide_sim (fun p => ?_) (h.levels aggressor.side.opposite) 0
  by_cases hp : aggressor.price = 0
  · have hprice : (inJava aggressor updatedAt).price = none := if_pos hp
    rw [hprice, decide_eq_true hp, Bool.true_or]
  · have hprice : (inJava aggressor updatedAt).price = some (decimal aggressor.price) := if_neg hp
    rw [hprice, decide_eq_false hp, Bool.false_or]
    exact crossesLimit_sim aggressor updatedAt p

/-! ## Matching -/

/-- What the simulation asks of an incoming order. -/
structure Ready (b : OrderBook) (incoming : Order) : Prop where
  rep : RepInv b
  fresh : NotResting b incoming.orderId
  latest : ∀ x ∈ allOrders b, x.createdAt < incoming.createdAt
  priced : incoming.type = .limit ∨ incoming.type = .ioc → incoming.price ≠ 0

/-- Java's `match` returns, with the same trades, and the books are in the same state. -/
def MatchSim (r : List Fill × OrderBook)
    (r' : Except Java.JavaException (List Java.Trade × Java.OrderBook Q)) : Prop :=
  ∃ trades b₂, r' = .ok (trades, b₂) ∧ List.Forall₂ TradeSim (r.1.map Fill.trade) trades
    ∧ BookSim r.2 b₂

section Match

variable {b : OrderBook} {b' : Java.OrderBook Q} (h : BookSim b b') (amb amb' : Ambient)
  (incoming : Order) (updatedAt : Int)

include h

theorem matchMarket_sim :
    MatchSim (b.matchMarket amb incoming)
      (.ok (b'.matchMarket amb' (inJava incoming updatedAt))) := by
  obtain ⟨hst, hb⟩ := sweep_sim amb amb' incoming updatedAt h (fun _ => true) (fun _ => true)
    (fun _ => rfl)
  exact ⟨_, _, rfl, hst.trades, hb⟩

theorem matchFok_sim :
    MatchSim (b.matchFok amb incoming) (.ok (b'.matchFok amb' (inJava incoming updatedAt))) := by
  unfold OrderBook.matchFok Java.OrderBook.matchFok
  rw [available_sim h]
  show MatchSim _ (.ok (if b.availableQuantityAtOrBetter incoming < incoming.quantity then _ else _))
  split
  · exact ⟨_, _, rfl, .nil, h⟩
  · exact matchMarket_sim h amb amb' incoming updatedAt

variable {incoming}

theorem matchLimit_sim (hready : Ready b incoming) (hp : incoming.price ≠ 0) :
    MatchSim (b.matchLimit amb incoming) (b'.matchLimit amb' (inJava incoming updatedAt)) := by
  have hprice : (inJava incoming updatedAt).price = some (decimal incoming.price) := if_neg hp
  obtain ⟨hst, hb⟩ := sweep_sim amb amb' incoming updatedAt h (crossesLimit incoming)
    (Java.OrderBook.crossesLimit (inJava incoming updatedAt) (decimal incoming.price))
    (crossesLimit_sim incoming updatedAt)
  rw [Java.OrderBook.matchLimit, hprice]
  dsimp only
  rw [hst.remainingQty]
  rcases matchLimit_cases b amb incoming with ⟨hrem, heq⟩ | ⟨hrem, heq⟩
  · rw [heq, if_neg (not_lt.mpr hrem)]
    exact ⟨_, _, rfl, hst.trades, hb⟩
  · rw [heq, if_pos hrem]
    -- the remainder was created when the order was, after all that rests
    have hj : Corresponds (remainder b amb incoming)
        ((inJava incoming updatedAt).withRemainingQuantity
          (b.sweep amb incoming (crossesLimit incoming)).1.remainingQty
          (amb'.updatedAt (b'.sweep amb' (inJava incoming updatedAt)
            (Java.OrderBook.crossesLimit (inJava incoming updatedAt)
              (decimal incoming.price))).1.trades.length)) :=
      Corresponds.withRemainingQuantity ⟨updatedAt, rfl⟩ _ _ _
    have hlast : ∀ x ∈ allOrders (b.sweep amb incoming (crossesLimit incoming)).2,
        x.createdAt < (remainder b amb incoming).createdAt := by
      intro x hx
      obtain ⟨x₀, hx₀, hv⟩ := sweep_versions hready.rep amb incoming (crossesLimit incoming) x hx
      rw [hv.createdAt]
      exact hready.latest x₀ hx₀
    obtain ⟨b₂, hok, hb₂⟩ := insert_sim hb hj hp hlast
    exact ⟨_, b₂, by rw [hok]; rfl, hst.trades, hb₂⟩

theorem matchIoc_sim (hready : Ready b incoming) (hp : incoming.price ≠ 0) :
    MatchSim (b.matchIoc amb incoming) (b'.matchIoc amb' (inJava incoming updatedAt)) := by
  obtain ⟨trades, b₂, hok, htrades, hb⟩ := matchLimit_sim h amb amb' updatedAt hready hp
  have hrep := repInv_matchLimit hready.rep amb hready.fresh
  refine ⟨trades, _, ?_, htrades, (remove_sim hrep hb incoming.orderId).2⟩
  rw [Java.OrderBook.matchIoc, hok]
  rfl

theorem match_sim (hready : Ready b incoming) :
    MatchSim (b.matchIncoming amb incoming)
      (b'.matchIncoming amb' (inJava incoming updatedAt)) := by
  have htype : (inJava incoming updatedAt).type = incoming.type := rfl
  rw [OrderBook.matchIncoming, Java.OrderBook.matchIncoming, htype]
  cases ht : incoming.type with
  | market => exact matchMarket_sim h amb amb' incoming updatedAt
  | limit => exact matchLimit_sim h amb amb' updatedAt hready (hready.priced (Or.inl ht))
  | ioc => exact matchIoc_sim h amb amb' updatedAt hready (hready.priced (Or.inr ht))
  | fok => exact matchFok_sim h amb amb' incoming updatedAt
  | stopLimit => exact ⟨[], b', rfl, .nil, h⟩

end Match

/-! ## Runs -/

/-- The same call, each with the ids and clock readings of its own program. -/
inductive OpSim : BookOp → Java.BookOp → Prop where
  | matchIncoming (amb amb' : Ambient) {o : Order} {j : Java.Order} (h : Corresponds o j) :
      OpSim (.matchIncoming amb o) (.matchIncoming amb' j)
  | removeFromBook (orderId : String) :
      OpSim (.removeFromBook orderId) (.removeFromBook orderId)

/-- The Java call returned, with the same trades. -/
def TradesSim (fills : List Fill) (out' : Java.BookOut) : Prop :=
  ∃ trades, out'.trades = .ok trades ∧ List.Forall₂ TradeSim (fills.map Fill.trade) trades

/-- The Java call returned, with the same trades and the same verdict. -/
structure OutSim (out : BookOut) (out' : Java.BookOut) : Prop where
  trades : TradesSim out.fills out'
  removed : out'.removed = out.removed

theorem step_sim {b : OrderBook} {b' : Java.OrderBook Q} (hrep : RepInv b) (h : BookSim b b')
    {op : BookOp} {op' : Java.BookOp} (hop : OpSim op op')
    (hready : ∀ amb o, op = .matchIncoming amb o → Ready b o) :
    BookSim (b.step op).1 (b'.step op').1 ∧ OutSim (b.step op).2 (b'.step op').2 := by
  cases hop with
  | matchIncoming amb amb' hj =>
      obtain ⟨updatedAt, rfl⟩ := hj
      obtain ⟨trades, b₂, hok, htrades, hb⟩ :=
        match_sim h amb amb' updatedAt (hready amb _ rfl)
      rw [Java.OrderBook.step, hok]
      exact ⟨hb, ⟨trades, rfl, htrades⟩, rfl⟩
  | removeFromBook orderId =>
      obtain ⟨hremoved, hb⟩ := remove_sim hrep h orderId
      exact ⟨hb, ⟨[], rfl, .nil⟩, hremoved⟩

/-- Distinct ids, creation in the order of the calls, and a price where one is needed. -/
structure OrderlyRun (ops : List BookOp) : Prop where
  distinct : DistinctIds ops
  increasing : (submitted ops).Pairwise (fun o o' => o.createdAt < o'.createdAt)
  priced : ∀ o ∈ submitted ops, o.type = .limit ∨ o.type = .ioc → o.price ≠ 0

theorem OrderlyRun.init {ops : List BookOp} {op : BookOp} (h : OrderlyRun (ops ++ [op])) :
    OrderlyRun ops where
  distinct := h.distinct.init
  increasing := by
    have hinc := h.increasing
    rw [submitted_append] at hinc
    exact (List.pairwise_append.mp hinc).1
  priced := fun o ho => h.priced o (by rw [submitted_append]; exact List.mem_append_left _ ho)

theorem OrderlyRun.of_append {ops ops' : List BookOp} (h : OrderlyRun (ops ++ ops')) :
    OrderlyRun ops := by
  induction ops' using List.reverseRecOn with
  | nil => rw [List.append_nil] at h; exact h
  | append_singleton ops' op ih =>
      rw [← List.append_assoc] at h
      exact ih h.init

/-- In an orderly run every `match` finds the book ready for it. -/
theorem OrderlyRun.ready (symbol : String) {ops : List BookOp} {amb : Ambient} {o : Order}
    (h : OrderlyRun (ops ++ [.matchIncoming amb o])) : Ready (bookAfter symbol ops) o := by
  have hinv := runInv_reachable symbol h.init.distinct
  refine ⟨hinv.rep, hinv.notResting h.distinct.last_new, fun x hx => ?_, ?_⟩
  · obtain ⟨x₀, hx₀, hv⟩ := hinv.versions x hx
    have hinc := h.increasing
    rw [submitted_snoc_match] at hinc
    rw [hv.createdAt]
    exact (List.pairwise_append.mp hinc).2.2 x₀ hx₀ o (List.mem_singleton_self o)
  · exact h.priced o (by rw [submitted_snoc_match]; simp)

/-- The order in which a queue hands out its elements. -/
def priorityOrder (q : Q) : List Java.Order :=
  PriorityQueue.drain (PriorityQueue.elems q).length q

theorem QueueSim.priorityOrder {queue : List Order} {q : Q} (h : QueueSim queue q) :
    List.Forall₂ Corresponds queue (priorityOrder q) := by
  obtain ⟨js, hperm, hjs, hsorted⟩ := h
  rw [Proof.priorityOrder, hperm.length_eq, PriorityQueue.drain_eq hperm hsorted]
  exact hjs

/-- The same orders in the same priority order at every level, the same best prices and the
same last trade price. -/
structure SameMarket (b : OrderBook) (b' : Java.OrderBook Q) : Prop where
  levels : ∀ s, List.Forall₂
    (fun l l' => l'.1 = decimal l.1 ∧ List.Forall₂ Corresponds l.2 (priorityOrder l'.2))
    (b.levels s).entries (b'.levels s).entries
  bestBid : b'.bestBid = b.bestBid.map decimal
  bestAsk : b'.bestAsk = b.bestAsk.map decimal
  lastTradePrice : b'.lastTradePrice = b.lastTradePrice.map decimal

theorem BookSim.sameMarket {b : OrderBook} {b' : Java.OrderBook Q} (h : BookSim b b') :
    SameMarket b b' where
  levels := fun s => (h.levels s).imp (fun _ _ hl => ⟨hl.1, hl.2.priorityOrder⟩)
  bestBid := OrdMap.related_first (h.levels .buy)
  bestAsk := OrdMap.related_first (h.levels .sell)
  lastTradePrice := h.lastTradePrice

omit [PriorityQueue Q Java.Order] [LawfulPriorityQueue Q Java.Order.createdAt] in
theorem bookSim_new [PriorityQueue Q Java.Order] (symbol : String) :
    BookSim (OrderBook.new symbol) (Java.OrderBook.new symbol : Java.OrderBook Q) where
  levels := fun s => by cases s <;> exact .nil
  orderIndex := fun _ => .none
  lastTradePrice := rfl

/-- The Java book of a symbol after a sequence of calls. -/
def javaAfter (Q : Type) [PriorityQueue Q Java.Order] (symbol : String)
    (ops : List Java.BookOp) : Java.OrderBook Q :=
  run Java.OrderBook.step (Java.OrderBook.new symbol) ops

omit [PriorityQueue Q Java.Order] [LawfulPriorityQueue Q Java.Order.createdAt] in
/-- Stale entries do not show in the market. -/
theorem SameMarket.of_copy [PriorityQueue Q Java.Order] {r : PoppedId} {W : String → Prop}
    {b b' : OrderBook} (hcopy : StaleCopy r W b b') {j : Java.OrderBook Q} (h : SameMarket b j) :
    SameMarket b' j where
  levels := fun s => by rw [hcopy.levels]; exact h.levels s
  bestBid := by rw [h.bestBid, hcopy.book]; rfl
  bestAsk := by rw [h.bestAsk, hcopy.book]; rfl
  lastTradePrice := by rw [h.lastTradePrice, hcopy.lastTradePrice]

variable (Q)

/-- The simulation, if the ids of popped orders are granted. -/
theorem java_simulation (symbol : String) {ops : List BookOp} {ops' : List Java.BookOp}
    (h : OrderlyRun ops) (hops : List.Forall₂ OpSim ops ops') :
    BookSim (bookAfter symbol ops) (javaAfter Q symbol ops')
      ∧ List.Forall₂ OutSim (outputs OrderBook.step (OrderBook.new symbol) ops)
        (outputs Java.OrderBook.step (Java.OrderBook.new symbol : Java.OrderBook Q) ops') :=
  run_simulation OrderBook.step
    (Java.OrderBook.step (Q := Q)) (V := OrderlyRun) (fun _ _ hV => hV.init)
    (bookSim_new symbol)
    (fun is op b' op' hV hop hb => step_sim (runInv_reachable symbol hV.init.distinct).rep hb hop
      (fun amb o heq => by subst heq; exact hV.ready symbol))
    ops ops' h hops

theorem java_totalOrders (symbol : String) {ops : List BookOp} {ops' : List Java.BookOp}
    (h : OrderlyRun ops) (hops : List.Forall₂ OpSim ops ops') :
    (javaAfter Q symbol ops').totalOrders = (bookAfter symbol ops).totalOrders := by
  rw [Java.OrderBook.totalOrders, OrderBook.totalOrders,
    (java_simulation Q symbol h hops).1.orderIndex.keys]

/--
**The C++ book refines the Java book, but for the index.** In an orderly run, made on both,
every call of the Java book returns, with the trades of the C++ call, and the books end up with
the same levels and prices. The removal results of the run and `totalOrders` after each of
its calls agree as well exactly if no call fills whole an order whose id is lost. This holds for
every priority queue that keeps its documentation's promises, whatever it does with equal
keys.
-/
theorem java_refinement_iff (r : PoppedId) (symbol : String) {ops : List BookOp}
    {ops' : List Java.BookOp} (h : OrderlyRun ops) (hops : List.Forall₂ OpSim ops ops') :
    (List.Forall₂ TradesSim
        ((outputs (@OrderBook.step r) (OrderBook.new symbol) ops).map BookOut.fills)
        (outputs Java.OrderBook.step (Java.OrderBook.new symbol : Java.OrderBook Q) ops')
      ∧ SameMarket (@bookAfter r symbol ops) (javaAfter Q symbol ops'))
    ∧ ((List.Forall₂ OutSim (outputs (@OrderBook.step r) (OrderBook.new symbol) ops)
          (outputs Java.OrderBook.step (Java.OrderBook.new symbol : Java.OrderBook Q) ops')
        ∧ ∀ n, (javaAfter Q symbol (ops'.take n)).totalOrders
            = (@bookAfter r symbol (ops.take n)).totalOrders)
      ↔ ∀ t ∈ @bookTrace r symbol ops, ¬ LeavesStale r t.before t.input) := by
  obtain ⟨hbook, houts⟩ := java_simulation Q symbol h hops
  have hcopy := staleCopy_reachable r symbol h.distinct
  -- the granted run agrees after every call
  have hgranted : ∀ n, (javaAfter Q symbol (ops'.take n)).totalOrders
      = (@bookAfter grantedId symbol (ops.take n)).totalOrders := by
    intro n
    have hn : OrderlyRun (ops.take n) := by
      rw [← List.take_append_drop n ops] at h
      exact h.of_append
    exact java_totalOrders Q symbol hn (List.forall₂_take n hops)
  refine ⟨⟨?_, hbook.sameMarket.of_copy hcopy⟩, ?_, ?_⟩
  · rw [outputs_reading r symbol h.distinct, List.forall₂_map_left_iff]
    exact houts.imp (fun _ _ hout => hout.trades)
  · rintro ⟨-, htotal⟩ t ht hstale
    obtain ⟨pre, op, post, hcut, rfl⟩ := mem_trace (@OrderBook.step r) ht
    have hd : DistinctIds (pre ++ [op]) := by
      have hdistinct := h.distinct
      rw [hcut, List.append_cons] at hdistinct
      exact hdistinct.of_append
    have hlt := totalOrders_lt_of_leavesStale r symbol hd.init hd hstale
    have htake : ops.take (pre ++ [op]).length = pre ++ [op] := by
      have hcut' : ops = (pre ++ [op]) ++ post := by rw [hcut]; simp
      rw [hcut', List.take_left]
    have hsame := (hgranted (pre ++ [op]).length).symm.trans (htotal (pre ++ [op]).length)
    rw [htake] at hsame
    omega
  · intro hn
    have htrace := (reading_eq r symbol h.distinct hn).2
    refine ⟨?_, fun n => ?_⟩
    · have hsame : outputs (@OrderBook.step r) (OrderBook.new symbol) ops
          = outputs (@OrderBook.step grantedId) (OrderBook.new symbol) ops :=
        congrArg (List.map Transition.output) htrace
      rw [hsame]
      exact houts
    · have hprefix : ops.take n ++ ops.drop n = ops := List.take_append_drop n ops
      have hd : DistinctIds (ops.take n) := by
        have hdistinct := h.distinct
        rw [← hprefix] at hdistinct
        exact hdistinct.of_append
      have heq := (reading_eq r symbol hd (fun t ht => hn t (by
        rw [← hprefix, bookTrace, trace_append]; exact List.mem_append_left _ ht))).1
      rw [heq]
      exact hgranted n

variable {Q}

/-- The calls of `twoSells` and a market buy on the Java book. -/
def twoSellsJava (quantity : Int) : List Java.BookOp :=
  [.matchIncoming still (inJava
      (Order.create "6f1c2a34-5b67-4c89-9abc-def012345678" 0 "A" "AAPL" .sell .limit 100 0 5) 7),
    .matchIncoming still (inJava
      (Order.create "0d9e8f7a-6b5c-4d3e-8f2a-1b0c9d8e7f6a" 1 "B" "AAPL" .sell .limit 100 0 5) 8),
    .matchIncoming still (inJava (Order.create "b1946ac9-2492-4234-8bcd-1f2e3d4c5b6a" 2 "C" "AAPL"
      .buy .market 0 0 quantity) 9)]

theorem opSim_twoSells (quantity : Int) :
    List.Forall₂ OpSim (twoSells ++ [marketBuy quantity]) (twoSellsJava quantity) :=
  .cons (.matchIncoming _ _ ⟨7, rfl⟩) (.cons (.matchIncoming _ _ ⟨8, rfl⟩)
    (.cons (.matchIncoming _ _ ⟨9, rfl⟩) .nil))

/-- A partial fill leaves the two books with the same orders. -/
theorem java_refinement_partialFill :
    (outputs (@OrderBook.step shortIds) (OrderBook.new "AAPL") (twoSells ++ [marketBuy 3])).map
        (fun out => out.fills.map (fun f => f.trade.quantity)) = [[], [], [3]]
      ∧ List.Forall₂ OutSim
        (outputs (@OrderBook.step shortIds) (OrderBook.new "AAPL") (twoSells ++ [marketBuy 3]))
        (outputs Java.OrderBook.step
          (Java.OrderBook.new "AAPL" : Java.OrderBook (ListQueue Java.Order.createdAt))
          (twoSellsJava 3)) :=
  ⟨by decide, ((java_refinement_iff (ListQueue Java.Order.createdAt) shortIds "AAPL"
    ⟨by decide, by decide, by decide⟩ (opSim_twoSells 3)).2.mpr (by decide)).1⟩

/-- After the first sell has been filled whole, Java has one order left and refuses to cancel
the other. C++ has two, and cancels it. -/
theorem java_books_part :
    List.Forall₂ OpSim (twoSells ++ [marketBuy 5]) (twoSellsJava 5)
      ∧ (javaAfter (ListQueue Java.Order.createdAt) "AAPL" (twoSellsJava 5)).totalOrders = 1
      ∧ (@bookAfter shortIds "AAPL" (twoSells ++ [marketBuy 5])).totalOrders = 2
      ∧ ((javaAfter (ListQueue Java.Order.createdAt) "AAPL" (twoSellsJava 5)).removeFromBook
          "6f1c2a34-5b67-4c89-9abc-def012345678").1 = false
      ∧ ((@bookAfter shortIds "AAPL" (twoSells ++ [marketBuy 5])).removeFromBook
          "6f1c2a34-5b67-4c89-9abc-def012345678").1 = true :=
  ⟨opSim_twoSells 5, by decide +kernel, by decide, by decide +kernel, by decide⟩

end TitanX.Proof
