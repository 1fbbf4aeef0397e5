import TitanX.Model.MatchingEngine
import TitanX.Proof.BookRun
import TitanX.Proof.Risk

/-!
# The invariant of the engine

Two things tie the parts of the engine together, and both are about ids.

* The book of each symbol is one that a run of book calls reaches, with pairwise
  distinct ids (`BookRunOf`): everything proved about reachable books holds of it. The
  ids come from the risk engine, which lets each id through once.
* Every order that was let through is tracked in the active set of its account and
  side, and no account has both sets non-empty (`EngineInv.oneSided`). The sets never
  shrink, so this covers orders in flight as well as orders in a book.

An order is *in flight* between its approval and its `match` call. The invariant
carries the list of these, so that it can be used for calls that run one after the
other, where the list is empty between calls, and for calls that interleave.
-/

namespace TitanX.Proof

open TitanX MatchingEngine

/-! ## The invariant -/

/-- The risk engine has let `x` through and tracks it. -/
structure Tracked (r : RiskEngine) (x : Order) : Prop where
  seen : x.orderId ∈ r.seenOrderIds
  active : x.orderId ∈ r.activeOrders x.side x.accountId

/-- `b` is the book of `symbol` after a run of book calls, all of whose orders the risk
engine tracks and none of which is still in flight. -/
def BookRunOf (r : RiskEngine) (inflight : List Order) (symbol : String) (b : OrderBook) : Prop :=
  ∃ ops, b = bookAfter symbol ops ∧ DistinctIds ops
    ∧ ∀ x ∈ submitted ops, Tracked r x ∧ ∀ o ∈ inflight, o.orderId ≠ x.orderId

structure EngineInv (e : MatchingEngine) (inflight : List Order) : Prop where
  books : ∀ symbol b, e.books.lookup symbol = some b →
    BookRunOf e.riskEngine inflight symbol b
  /-- No id is in flight twice. -/
  distinct : (inflight.map Order.orderId).Nodup
  tracked : ∀ o ∈ inflight, Tracked e.riskEngine o
  /-- No account is active on both sides. -/
  oneSided : ∀ a, e.riskEngine.activeOrders .buy a = ∅ ∨ e.riskEngine.activeOrders .sell a = ∅
  /-- Nothing ever adds a stop order. -/
  stops : e.stopOrders = ∅

theorem engineInv_initial : EngineInv MatchingEngine.initial [] where
  books := fun symbol b h => absurd h (by simp [MatchingEngine.initial])
  distinct := List.nodup_nil
  tracked := fun o ho => absurd ho List.not_mem_nil
  oneSided := fun a => Or.inl rfl
  stops := rfl

theorem EngineInv.perm {e : MatchingEngine} {fl fl' : List Order} (h : EngineInv e fl)
    (hp : fl.Perm fl') : EngineInv e fl' where
  books := fun symbol b hb => by
    obtain ⟨ops, hops, hd, hx⟩ := h.books symbol b hb
    exact ⟨ops, hops, hd, fun x hx' =>
      ⟨(hx x hx').1, fun o ho => (hx x hx').2 o (hp.mem_iff.mpr ho)⟩⟩
  distinct := (hp.map Order.orderId).nodup_iff.mp h.distinct
  tracked := fun o ho => h.tracked o (hp.mem_iff.mpr ho)
  oneSided := h.oneSided
  stops := h.stops

@[simp] theorem bookOf_setRisk (e : MatchingEngine) (r : RiskEngine) (symbol : String) :
    ({ e with riskEngine := r } : MatchingEngine).bookOf symbol = e.bookOf symbol := rfl

theorem bookOf_of_books {e e' : MatchingEngine} (h : e'.books = e.books) (symbol : String) :
    e'.bookOf symbol = e.bookOf symbol := by
  unfold MatchingEngine.bookOf; rw [h]

theorem bookOf_of_lookup {e : MatchingEngine} {symbol : String} {b : OrderBook}
    (h : e.books.lookup symbol = some b) : e.bookOf symbol = b := by
  unfold MatchingEngine.bookOf; rw [h]; rfl

/-- The book of any symbol, also of one that has none yet. -/
theorem EngineInv.bookOf {e : MatchingEngine} {fl : List Order} (h : EngineInv e fl)
    (symbol : String) : BookRunOf e.riskEngine fl symbol (e.bookOf symbol) := by
  unfold MatchingEngine.bookOf
  cases hl : e.books.lookup symbol with
  | none => exact ⟨[], rfl, by decide, fun x hx => absurd hx List.not_mem_nil⟩
  | some b => exact h.books symbol b hl

theorem BookRunOf.rep {r : RiskEngine} {fl : List Order} {symbol : String} {b : OrderBook}
    (h : BookRunOf r fl symbol b) : RepInv b := by
  obtain ⟨ops, rfl, hd, -⟩ := h
  exact (runInv_reachable symbol hd).rep

/-- An order in flight is not resting. -/
theorem BookRunOf.notResting {r : RiskEngine} {fl : List Order} {symbol : String} {b : OrderBook}
    (h : BookRunOf r fl symbol b) {o : Order} (ho : o ∈ fl) : NotResting b o.orderId := by
  obtain ⟨ops, rfl, hd, hx⟩ := h
  exact (runInv_reachable symbol hd).notResting (fun x hx' => ((hx x hx').2 o ho).symm)

/-- What rests is tracked. -/
theorem BookRunOf.tracked {r : RiskEngine} {fl : List Order} {symbol : String} {b : OrderBook}
    (h : BookRunOf r fl symbol b) {y : Order} (hy : y ∈ allOrders b) : Tracked r y := by
  obtain ⟨ops, rfl, hd, hx⟩ := h
  obtain ⟨x, hx', hv⟩ := (runInv_reachable symbol hd).versions y hy
  obtain ⟨hseen, hactive⟩ := (hx x hx').1
  exact ⟨by rw [hv.orderId]; exact hseen, by rw [hv.orderId, hv.side, hv.accountId]; exact hactive⟩

/-- A removal prolongs the run. -/
theorem BookRunOf.remove {r : RiskEngine} {fl : List Order} {symbol : String} {b : OrderBook}
    (h : BookRunOf r fl symbol b) (orderId : String) :
    BookRunOf r fl symbol (b.removeFromBook orderId).2 := by
  obtain ⟨ops, rfl, hd, hx⟩ := h
  refine ⟨ops ++ [.removeFromBook orderId], ?_, ?_, fun x hx' => ?_⟩
  · rw [bookAfter_snoc]; rfl
  · unfold DistinctIds; rw [submitted_snoc_remove]; exact hd
  · rw [submitted_snoc_remove] at hx'; exact hx x hx'

/-! ## Steps of the risk engine -/

/-- Orders stay tracked as long as the risk engine forgets no id. -/
theorem Tracked.mono {r r' : RiskEngine} {x : Order} (h : Tracked r x)
    (hseen : r.seenOrderIds ⊆ r'.seenOrderIds)
    (hactive : ∀ s a, r.activeOrders s a ⊆ r'.activeOrders s a) : Tracked r' x :=
  ⟨hseen h.seen, hactive _ _ h.active⟩

section Steps

variable {e : MatchingEngine} {fl : List Order}

/-- A step that changes none of the active sets. -/
theorem EngineInv.setRisk (h : EngineInv e fl) {r' : RiskEngine}
    (hseen : e.riskEngine.seenOrderIds ⊆ r'.seenOrderIds)
    (hactive : ∀ s a, r'.activeOrders s a = e.riskEngine.activeOrders s a) :
    EngineInv { e with riskEngine := r' } fl := by
  have hmono : ∀ x, Tracked e.riskEngine x → Tracked r' x := fun x hx =>
    hx.mono hseen (fun s a => by rw [hactive])
  refine ⟨fun symbol b hb => ?_, h.distinct, fun o ho => hmono o (h.tracked o ho), ?_, h.stops⟩
  · obtain ⟨ops, hops, hd, hx⟩ := h.books symbol b hb
    exact ⟨ops, hops, hd, fun x hx' => ⟨hmono x (hx x hx').1, (hx x hx').2⟩⟩
  · intro a
    rw [hactive, hactive]; exact h.oneSided a

theorem EngineInv.refuse (h : EngineInv e fl) {r' : RiskEngine} (hr : Refusal e.riskEngine r') :
    EngineInv { e with riskEngine := r' } fl := h.setRisk hr.seen hr.active

/-- An approved order is in flight. -/
theorem EngineInv.approve (h : EngineInv e fl) {o : Order} {r' : RiskEngine}
    (ha : Approval e.riskEngine o r') : EngineInv { e with riskEngine := r' } (o :: fl) := by
  have hmono : ∀ x, Tracked e.riskEngine x → Tracked r' x := by
    intro x hx
    refine hx.mono (by rw [ha.seen]; exact Finset.subset_insert _ _) (fun s a => ?_)
    rw [ha.active]
    split
    · exact Finset.subset_insert _ _
    · exact Finset.Subset.refl _
  -- the new id was not seen before, so it differs from every id the engine knows
  have hne : ∀ x, Tracked e.riskEngine x → o.orderId ≠ x.orderId := fun x hx heq =>
    ha.fresh (heq ▸ hx.seen)
  refine ⟨fun symbol b hb => ?_, ?_, fun x hx => ?_, fun a => ?_, h.stops⟩
  · obtain ⟨ops, hops, hd, hx⟩ := h.books symbol b hb
    refine ⟨ops, hops, hd, fun x hx' => ⟨hmono x (hx x hx').1, fun o' ho' => ?_⟩⟩
    rcases List.mem_cons.mp ho' with rfl | ho'
    · exact hne x (hx x hx').1
    · exact (hx x hx').2 o' ho'
  · rw [List.map_cons, List.nodup_cons]
    refine ⟨fun hmem => ?_, h.distinct⟩
    obtain ⟨x, hx, heq⟩ := List.mem_map.mp hmem
    exact hne x (h.tracked x hx) heq.symm
  · rcases List.mem_cons.mp hx with rfl | hx
    · refine ⟨by rw [ha.seen]; exact Finset.mem_insert_self _ _, ?_⟩
      rw [ha.active, if_pos ⟨rfl, rfl⟩]; exact Finset.mem_insert_self _ _
    · exact hmono x (h.tracked x hx)
  · -- only the order's own account and side grow, and there the other side is empty
    have hopp := ha.opposite
    rw [ha.active, ha.active]
    by_cases hacc : a = o.accountId
    · subst hacc
      cases hside : o.side with
      | buy =>
          rw [hside] at hopp
          exact Or.inr (by rw [if_neg (by simp)]; exact hopp)
      | sell =>
          rw [hside] at hopp
          exact Or.inl (by rw [if_neg (by simp)]; exact hopp)
    · rw [if_neg (fun hc => hacc hc.2), if_neg (fun hc => hacc hc.2)]
      exact h.oneSided a

/-! ## Steps on a book -/

/-- Replacing the book of one symbol by one that a run reaches. -/
theorem EngineInv.setBook (h : EngineInv e fl) {symbol : String} {b : OrderBook}
    (hb : BookRunOf e.riskEngine fl symbol b) :
    EngineInv { e with books := e.books.insert symbol b } fl := by
  refine ⟨fun symbol' b' hl => ?_, h.distinct, h.tracked, h.oneSided, h.stops⟩
  by_cases hs : symbol' = symbol
  · subst hs
    rw [Finmap.lookup_insert] at hl
    obtain rfl := Option.some.inj hl
    exact hb
  · rw [Finmap.lookup_insert_of_ne _ hs] at hl
    exact h.books symbol' b' hl

theorem EngineInv.setLocks (h : EngineInv e fl) (locks : Finset String) :
    EngineInv { e with locks := locks } fl :=
  ⟨h.books, h.distinct, h.tracked, h.oneSided, h.stops⟩

theorem EngineInv.setHalted (h : EngineInv e fl) (halted : Bool) :
    EngineInv { e with halted := halted } fl :=
  ⟨h.books, h.distinct, h.tracked, h.oneSided, h.stops⟩

/-- An order that is matched is in flight no longer. -/
theorem EngineInv.landed {o : Order} (h : EngineInv e (o :: fl)) : EngineInv e fl where
  books := fun symbol b hb => by
    obtain ⟨ops, hops, hd, hx⟩ := h.books symbol b hb
    exact ⟨ops, hops, hd, fun x hx' =>
      ⟨(hx x hx').1, fun o' ho' => (hx x hx').2 o' (List.mem_cons_of_mem _ ho')⟩⟩
  distinct := (List.nodup_cons.mp h.distinct).2
  tracked := fun o' ho' => h.tracked o' (List.mem_cons_of_mem _ ho')
  oneSided := h.oneSided
  stops := h.stops

theorem EngineInv.match {o : Order} (h : EngineInv e (o :: fl)) (amb : Ambient) :
    EngineInv { e with
      books := e.books.insert o.symbol ((e.bookOf o.symbol).matchIncoming amb o).2 } fl := by
  refine h.landed.setBook ?_
  -- the book is that of a run, which the call prolongs; the id was new to both
  obtain ⟨ops, hops, hd, hx⟩ := h.bookOf o.symbol
  have hnew : ∀ x ∈ submitted ops, x.orderId ≠ o.orderId := fun x hx' =>
    ((hx x hx').2 o (List.mem_cons_self ..)).symm
  have hfl : ∀ o' ∈ fl, o'.orderId ≠ o.orderId := fun o' ho' heq => by
    have hnd := h.distinct
    rw [List.map_cons, List.nodup_cons] at hnd
    exact hnd.1 (heq ▸ List.mem_map_of_mem ho')
  refine ⟨ops ++ [.matchIncoming amb o], ?_, ?_, fun x hx' => ?_⟩
  · rw [bookAfter_snoc, hops]; rfl
  · unfold DistinctIds at hd ⊢
    rw [submitted_snoc_match, List.map_append]
    refine List.nodup_append.mpr ⟨hd, by simp, fun id hid id' hid' => ?_⟩
    obtain ⟨x, hx', rfl⟩ := List.mem_map.mp hid
    rw [List.mem_singleton.mp hid']; exact hnew x hx'
  · rw [submitted_snoc_match] at hx'
    rcases List.mem_append.mp hx' with hx' | hx'
    · exact ⟨(hx x hx').1, fun o' ho' => (hx x hx').2 o' (List.mem_cons_of_mem _ ho')⟩
    · rw [List.mem_singleton.mp hx']
      exact ⟨h.tracked o (List.mem_cons_self ..), hfl⟩

theorem EngineInv.cancel (h : EngineInv e fl) (symbol orderId : String) :
    EngineInv (e.cancel symbol orderId).2 fl := by
  unfold MatchingEngine.cancel
  cases hl : e.books.lookup symbol with
  | none => exact h
  | some b =>
      dsimp only
      split
      · exact h.setBook ((h.books symbol b hl).remove orderId)
      · exact h

/-- **No trade of a call is with the caller's own account.** The passive order is
tracked on one side of its account and the incoming one on the other side of its own. -/
theorem EngineInv.no_self_trade {o : Order} (h : EngineInv e (o :: fl)) {amb : Ambient} {f : Fill}
    (hf : f ∈ ((e.bookOf o.symbol).matchIncoming amb o).1) :
    f.trade.aggressorAccountId ≠ f.trade.passiveAccountId := by
  intro heq
  have hbook := h.bookOf o.symbol
  -- both orders would be active for one account, on opposite sides
  obtain ⟨crosses, hok⟩ := match_fillOk hbook.rep amb o f hf
  obtain ⟨y, hy, -, hacc, -, hside⟩ := hok.passive
  have hpassive := (hbook.tracked (mem_allOrders.mpr ⟨_, hy⟩)).active
  have hincoming := (h.tracked o (List.mem_cons_self ..)).active
  rw [hacc, hside, ← heq, hok.aggressorAccountId] at hpassive
  have hne : ∀ s, e.riskEngine.activeOrders s o.accountId ≠ ∅ := by
    intro s
    rcases OrderSide.eq_or_opposite o.side s with rfl | rfl
    · exact Finset.ne_empty_of_mem hincoming
    · exact Finset.ne_empty_of_mem hpassive
  rcases h.oneSided o.accountId with hbuy | hsell
  · exact hne _ hbuy
  · exact hne _ hsell

end Steps

end TitanX.Proof
