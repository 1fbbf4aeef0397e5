import TitanX.Lib.OrdMapRel
import TitanX.Proof.BookInv

/-!
# Clock readings and generated ids do not matter

A call of the book draws trade ids and reads the clock (`Ambient`). What it draws ends up
in trades and in `updatedAt` of the orders it touches, and nothing ever reads that back.
So two books that are alike but for `updatedAt`, given orders that are, stay so, and
return the same trades but for ids and times.
-/

namespace TitanX.Proof

open TitanX OrderBook

/-! ## Alike -/

/-- The order with another time of its last update. -/
def restamp (o : Order) (updatedAt : Int) : Order := { o with updatedAt := updatedAt }

/-- The same order, but for the time of its last update. -/
def SameOrder (o o' : Order) : Prop := ∃ updatedAt, o' = restamp o updatedAt

/-- The same trade, but for its id and its time. -/
def SameTrade (t t' : Trade) : Prop :=
  ∃ tradeId executedAt, t' = { t with tradeId := tradeId, executedAt := executedAt }

theorem SameOrder.refl (o : Order) : SameOrder o o := ⟨o.updatedAt, rfl⟩

section Fields

variable {o o' : Order} (h : SameOrder o o')

include h

theorem SameOrder.orderId : o'.orderId = o.orderId := by obtain ⟨_, rfl⟩ := h; rfl

theorem SameOrder.remainingQuantity : o'.remainingQuantity = o.remainingQuantity := by
  obtain ⟨_, rfl⟩ := h; rfl

theorem SameOrder.price : o'.price = o.price := by
  obtain ⟨_, rfl⟩ := h; rfl

theorem SameOrder.withRemainingQuantity (n now now' : Int) :
    SameOrder (o.withRemainingQuantity n now) (o'.withRemainingQuantity n now') := by
  obtain ⟨_, rfl⟩ := h
  exact ⟨now', rfl⟩

end Fields

abbrev SameQueue : List Order → List Order → Prop := List.Forall₂ SameOrder

abbrev SameLevels : Levels → Levels → Prop := OrdMap.Related id SameQueue

/-- The trades of two lists of executions. -/
abbrev SameFills (fills fills' : List Fill) : Prop :=
  List.Forall₂ SameTrade (fills.map Fill.trade) (fills'.map Fill.trade)

structure SameSweep (st st' : Sweep) : Prop where
  remainingQty : st'.remainingQty = st.remainingQty
  fills : SameFills st.fills st'.fills
  orderIndex : FinmapRel SameOrder st.orderIndex st'.orderIndex
  lastTradePrice : st'.lastTradePrice = st.lastTradePrice

/-- The same book, but for the times of the last updates. -/
structure Alike (b b' : OrderBook) : Prop where
  levels : ∀ s, SameLevels (b.levels s).entries (b'.levels s).entries
  orderIndex : FinmapRel SameOrder b.orderIndex b'.orderIndex
  lastTradePrice : b'.lastTradePrice = b.lastTradePrice

/-- Writing one side, the index and the last trade price. -/
theorem Alike.write {b b' : OrderBook} (h : Alike b b') (s : OrderSide)
    {m m' : OrdMap Int (List Order) (better s)} (hm : SameLevels m.entries m'.entries)
    {index index' : Finmap (fun _ : String => Order)} (hindex : FinmapRel SameOrder index index')
    {last last' : Option Int} (hlast : last' = last) :
    Alike { b.setLevels s m with orderIndex := index, lastTradePrice := last }
      { b'.setLevels s m' with orderIndex := index', lastTradePrice := last' } := by
  refine ⟨fun t => ?_, hindex, hlast⟩
  cases s <;> cases t
  exacts [hm, h.levels .sell, h.levels .buy, hm]

/-! ## The loops -/

section Loops

variable (amb amb' : Ambient) (aggressor : Order) (updatedAt : Int)

theorem fillFront_alike {passive passive' : Order} (hp : SameOrder passive passive')
    {st st' : Sweep} (h : SameSweep st st') (p : Int) (rest rest' : List Order)
    (behind behind' : Levels) :
    SameOrder (fillFront amb aggressor p passive rest behind st).1
        (fillFront amb' (restamp aggressor updatedAt) p passive' rest' behind' st').1
      ∧ SameSweep (fillFront amb aggressor p passive rest behind st).2
        (fillFront amb' (restamp aggressor updatedAt) p passive' rest' behind' st').2 := by
  have hupd : SameOrder (fillFront amb aggressor p passive rest behind st).1
      (fillFront amb' (restamp aggressor updatedAt) p passive' rest' behind' st').1 := by
    simp only [fillFront, h.remainingQty, hp.remainingQuantity]
    exact hp.withRemainingQuantity _ _ _
  refine ⟨hupd, ?_, ?_, ?_, rfl⟩
  · simp only [fillFront, h.remainingQty, hp.remainingQuantity]
  · simp only [fillFront, SameFills, List.map_append]
    refine List.rel_append h.fills (.cons ?_ .nil)
    obtain ⟨_, rfl⟩ := hp
    exact ⟨_, _, by rw [h.remainingQty]; rfl⟩
  · rw [fillFront_orderIndex, fillFront_orderIndex, hupd.remainingQuantity, hupd.orderId,
      hp.orderId]
    split
    · exact h.orderIndex.insert _ hupd
    · exact h.orderIndex.erase _

theorem fillLevel_alike (p : Int) (behind behind' : Levels) : ∀ {queue queue' : List Order}
    {st st' : Sweep}, SameQueue queue queue' → SameSweep st st' →
    SameQueue (fillLevel amb aggressor p behind queue st).1
        (fillLevel amb' (restamp aggressor updatedAt) p behind' queue' st').1
      ∧ SameSweep (fillLevel amb aggressor p behind queue st).2
        (fillLevel amb' (restamp aggressor updatedAt) p behind' queue' st').2 := by
  intro queue queue' st st' hqueue hst
  induction hqueue generalizing st st' with
  | nil => exact ⟨.nil, hst⟩
  | @cons passive passive' rest rest' hp hrest ih =>
      rw [fillLevel, fillLevel, hst.remainingQty]
      split
      · obtain ⟨hupd, hst'⟩ := fillFront_alike amb amb' aggressor updatedAt hp hst p rest rest'
          behind behind'
        dsimp only
        rw [hupd.remainingQuantity]
        split
        · exact ⟨.cons hupd hrest, hst'⟩
        · exact ih hst'
      · exact ⟨.cons hp hrest, hst⟩

theorem isEmpty_alike {queue queue' : List Order} (h : SameQueue queue queue') :
    queue'.isEmpty = queue.isEmpty := by
  cases h <;> rfl

theorem matchSide_alike (crosses : Int → Bool) : ∀ {ls ls' : Levels} {st st' : Sweep},
    SameLevels ls ls' → SameSweep st st' →
    SameLevels (matchSide amb aggressor crosses ls st).1
        (matchSide amb' (restamp aggressor updatedAt) crosses ls' st').1
      ∧ SameSweep (matchSide amb aggressor crosses ls st).2
        (matchSide amb' (restamp aggressor updatedAt) crosses ls' st').2 := by
  intro ls ls' st st' hls hst
  induction hls generalizing st st' with
  | nil => exact ⟨.nil, hst⟩
  | @cons level level' ls ls' hl hls ih =>
      obtain ⟨p, queue⟩ := level
      obtain ⟨p', queue'⟩ := level'
      obtain ⟨hp, hq⟩ := hl
      dsimp only [id] at hp hq
      subst hp
      rw [matchSide, matchSide, hst.remainingQty]
      split
      · split
        · obtain ⟨hq', hst'⟩ := fillLevel_alike amb amb' aggressor updatedAt p' ls ls' hq hst
          dsimp only
          rw [isEmpty_alike hq']
          split
          · exact ih hst'
          · exact ⟨.cons ⟨rfl, hq'⟩ hls, hst'⟩
        · exact ⟨.cons ⟨rfl, hq⟩ hls, hst⟩
      · exact ⟨.cons ⟨rfl, hq⟩ hls, hst⟩

theorem sweep_alike {b b' : OrderBook} (h : Alike b b') (crosses : Int → Bool) :
    SameSweep (b.sweep amb aggressor crosses).1
        (b'.sweep amb' (restamp aggressor updatedAt) crosses).1
      ∧ Alike (b.sweep amb aggressor crosses).2
        (b'.sweep amb' (restamp aggressor updatedAt) crosses).2 := by
  have hstart : SameSweep ⟨aggressor.remainingQuantity, [], b.orderIndex, b.lastTradePrice⟩
      ⟨aggressor.remainingQuantity, [], b'.orderIndex, b'.lastTradePrice⟩ :=
    ⟨rfl, .nil, h.orderIndex, h.lastTradePrice⟩
  obtain ⟨hls, hst⟩ := matchSide_alike amb amb' aggressor updatedAt crosses
    (h.levels aggressor.side.opposite) hstart
  exact ⟨hst, h.write aggressor.side.opposite hls hst.orderIndex hst.lastTradePrice⟩

end Loops

/-! ## The calls -/

theorem insert_alike {b b' : OrderBook} (h : Alike b b') {o o' : Order} (ho : SameOrder o o') :
    Alike (b.insertIntoBook o) (b'.insertIntoBook o') := by
  obtain ⟨updatedAt, rfl⟩ := ho
  have hlevels : SameLevels (pushBack (b.levels o.side) o).entries
      (pushBack (b'.levels o.side) (restamp o updatedAt)).entries := by
    refine OrdMap.related_upsert Function.injective_id (fun _ _ => Iff.rfl) (h.levels o.side)
      (.cons ⟨updatedAt, rfl⟩ .nil) ?_
    intro queue queue' _ hq
    exact List.rel_append hq (.cons ⟨updatedAt, rfl⟩ .nil)
  exact h.write o.side hlevels (h.orderIndex.insert _ ⟨updatedAt, rfl⟩)
    (by simpa using h.lastTradePrice)

theorem filter_alike {queue queue' : List Order} (h : SameQueue queue queue') (orderId : String) :
    SameQueue (queue.filter (fun o => o.orderId ≠ orderId))
      (queue'.filter (fun o => o.orderId ≠ orderId)) := by
  induction h with
  | nil => exact .nil
  | @cons o o' queue queue' ho _ ih =>
      by_cases hid : o.orderId = orderId
      · rw [List.filter_cons_of_neg (by simpa using hid),
          List.filter_cons_of_neg (by simpa [ho.orderId] using hid)]
        exact ih
      · rw [List.filter_cons_of_pos (by simpa using hid),
          List.filter_cons_of_pos (by simpa [ho.orderId] using hid)]
        exact .cons ho ih

theorem dropFromLevel_alike {s : OrderSide} {m m' : OrdMap Int (List Order) (better s)}
    (h : SameLevels m.entries m'.entries) {queue queue' : List Order}
    (hq : SameQueue queue queue') (p : Int) (orderId : String) :
    SameLevels (dropFromLevel m p queue orderId).entries
      (dropFromLevel m' p queue' orderId).entries := by
  have hq' := filter_alike hq orderId
  unfold dropFromLevel
  dsimp only
  rw [isEmpty_alike hq']
  split
  · exact OrdMap.related_erase Function.injective_id h p
  · exact OrdMap.related_upsert Function.injective_id (fun _ _ => Iff.rfl) h hq' (fun _ _ _ _ => hq')

theorem remove_alike {b b' : OrderBook} (h : Alike b b') (orderId : String) :
    Alike (b.removeFromBook orderId).2 (b'.removeFromBook orderId).2 := by
  have hlookup := h.orderIndex orderId
  cases hb : b.orderIndex.lookup orderId with
  | none =>
      rw [hb] at hlookup
      rw [removeFromBook, removeFromBook, hb, OrdMap.rel_none_inv hlookup]
      exact h
  | some o =>
      rw [hb] at hlookup
      obtain ⟨_, hb', updatedAt, rfl⟩ := OrdMap.rel_some_inv hlookup
      have herase : Alike { b with orderIndex := b.orderIndex.erase orderId }
          { b' with orderIndex := b'.orderIndex.erase orderId } :=
        ⟨h.levels, h.orderIndex.erase orderId, h.lastTradePrice⟩
      by_cases hp : o.price = 0
      · rw [removeFromBook_unpriced hb hp, removeFromBook_unpriced hb' hp]
        exact herase
      · have hlevel := OrdMap.related_find? Function.injective_id (h.levels o.side) o.price
        cases hf : (b.levels o.side).find? o.price with
        | none =>
            rw [hf] at hlevel
            rw [removeFromBook_lost hb hp hf, removeFromBook_lost hb' hp (OrdMap.rel_none_inv hlevel)]
            exact herase
        | some queue =>
            rw [hf] at hlevel
            obtain ⟨queue', hf', hq⟩ := OrdMap.rel_some_inv hlevel
            rw [removeFromBook_found hb hp hf, removeFromBook_found hb' hp hf']
            exact h.write o.side (dropFromLevel_alike (h.levels o.side) hq o.price orderId)
              (h.orderIndex.erase orderId) (by simpa using h.lastTradePrice)

theorem countQueue_alike {queue queue' : List Order} (h : SameQueue queue queue') :
    ∀ total : Int, queue'.foldl (fun total o => wrap64 (total + o.remainingQuantity)) total =
      queue.foldl (fun total o => wrap64 (total + o.remainingQuantity)) total := by
  induction h with
  | nil => exact fun _ => rfl
  | cons ho _ ih =>
      intro total
      rw [List.foldl_cons, List.foldl_cons, ho.remainingQuantity]
      exact ih _

theorem countSide_alike (crosses : Int → Bool) : ∀ {ls ls' : Levels}, SameLevels ls ls' →
    ∀ total, countSide crosses ls' total = countSide crosses ls total
  | _, _, .nil, _ => rfl
  | (p, queue) :: ls, (p', queue') :: ls', .cons hl hls, total => by
      obtain ⟨hp, hq⟩ := hl
      dsimp only [id] at hp hq
      rw [countSide, countSide, hp, countQueue_alike hq]
      split
      · exact countSide_alike crosses hls _
      · rfl

section Calls

variable {b b' : OrderBook} (h : Alike b b') (amb amb' : Ambient) {incoming : Order}
  (updatedAt : Int)

include h

theorem matchMarket_alike :
    SameFills (b.matchMarket amb incoming).1
        (b'.matchMarket amb' (restamp incoming updatedAt)).1
      ∧ Alike (b.matchMarket amb incoming).2
        (b'.matchMarket amb' (restamp incoming updatedAt)).2 := by
  obtain ⟨hst, hb⟩ := sweep_alike amb amb' incoming updatedAt h (fun _ => true)
  exact ⟨hst.fills, hb⟩

theorem matchLimit_alike :
    SameFills (b.matchLimit amb incoming).1
        (b'.matchLimit amb' (restamp incoming updatedAt)).1
      ∧ Alike (b.matchLimit amb incoming).2
        (b'.matchLimit amb' (restamp incoming updatedAt)).2 := by
  obtain ⟨hst, hb⟩ := sweep_alike amb amb' incoming updatedAt h (crossesLimit incoming)
  have hrem := hst.remainingQty
  unfold matchLimit
  dsimp only
  change (b'.sweep amb' (restamp incoming updatedAt)
    (crossesLimit (restamp incoming updatedAt))).1.remainingQty = _ at hrem
  rw [hrem]
  split
  · exact ⟨hst.fills, insert_alike hb (SameOrder.withRemainingQuantity ⟨updatedAt, rfl⟩ _ _ _)⟩
  · exact ⟨hst.fills, hb⟩

theorem matchFok_alike :
    SameFills (b.matchFok amb incoming).1
        (b'.matchFok amb' (restamp incoming updatedAt)).1
      ∧ Alike (b.matchFok amb incoming).2
        (b'.matchFok amb' (restamp incoming updatedAt)).2 := by
  have havailable : b'.availableQuantityAtOrBetter (restamp incoming updatedAt) =
      b.availableQuantityAtOrBetter incoming :=
    countSide_alike _ (h.levels incoming.side.opposite) 0
  have hquantity : (restamp incoming updatedAt).quantity = incoming.quantity := rfl
  unfold matchFok
  rw [havailable, hquantity]
  split
  · exact ⟨.nil, h⟩
  · exact matchMarket_alike h amb amb' updatedAt

/-- **Alike books stay alike**, and their calls return the same trades. -/
theorem match_alike {incoming' : Order} (ho : SameOrder incoming incoming') :
    SameFills (b.matchIncoming amb incoming).1 (b'.matchIncoming amb' incoming').1
      ∧ Alike (b.matchIncoming amb incoming).2 (b'.matchIncoming amb' incoming').2 := by
  obtain ⟨updatedAt, rfl⟩ := ho
  have htype : (restamp incoming updatedAt).type = incoming.type := rfl
  rw [matchIncoming, matchIncoming, htype]
  cases incoming.type with
  | market => exact matchMarket_alike h amb amb' updatedAt
  | limit => exact matchLimit_alike h amb amb' updatedAt
  | ioc =>
      obtain ⟨hfills, hb⟩ := matchLimit_alike h amb amb' updatedAt
      exact ⟨hfills, remove_alike hb incoming.orderId⟩
  | fok => exact matchFok_alike h amb amb' updatedAt
  | stopLimit => exact ⟨.nil, h⟩

end Calls

end TitanX.Proof
