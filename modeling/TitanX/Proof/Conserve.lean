import TitanX.Proof.BookRun

/-!
# Conservation of quantity

The quantity of one order is spread over its executions as aggressor, its later
executions as passive party, and the remainder in a queue. `quantity_conserved` adds
them up along a whole run: they never exceed the quantity, and a limit order that was
not cancelled is accounted for to the last share.

The accounts are kept by a *key* of the orders (`openQty`) and by the *party* of the
trades that carries the same key (`executed`); what a sweep takes from the one it
books on the other (`executed_fill`). Here the key is the order id. The positions of
accounts are kept with the same lemmas.
-/

namespace TitanX.Proof

open TitanX OrderBook

/-! ## Open and executed quantity -/

/-- The quantity open in orders whose key is `x`. -/
def openQty (key : Order → String) (x : String) (L : List Order) : Int :=
  (L.map (fun o => if key o = x then o.remainingQuantity else 0)).sum

/-- The quantity executed in trades whose party is `x`. -/
def executed (party : Trade → String) (x : String) (fills : List Fill) : Int :=
  (fills.map (fun f => if party f.trade = x then f.trade.quantity else 0)).sum

section OpenQty

variable {key : Order → String} {x : String}

@[simp] theorem openQty_cons (o : Order) (L : List Order) :
    openQty key x (o :: L) = (if key o = x then o.remainingQuantity else 0) + openQty key x L :=
  rfl

theorem openQty_append (L L' : List Order) :
    openQty key x (L ++ L') = openQty key x L + openQty key x L' := by
  simp [openQty]

theorem openQty_perm {L L' : List Order} (h : L.Perm L') : openQty key x L = openQty key x L' :=
  (h.map _).sum_eq

theorem openQty_eq_zero {L : List Order} (h : ∀ o ∈ L, key o ≠ x) : openQty key x L = 0 := by
  refine List.sum_eq_zero (fun n hn => ?_)
  obtain ⟨o, ho, rfl⟩ := List.mem_map.mp hn
  exact if_neg (h o ho)

theorem openQty_sublist {L L' : List Order} (h : L.Sublist L')
    (hpos : ∀ o ∈ L', 0 < o.remainingQuantity) : openQty key x L ≤ openQty key x L' := by
  refine (h.map _).sum_le_sum (fun n hn => ?_)
  obtain ⟨o, ho, rfl⟩ := List.mem_map.mp hn
  have := hpos o ho
  split <;> omega

/-- Orders with another key may be filtered out. -/
theorem openQty_filter {L : List Order} {p : Order → Bool} (h : ∀ o ∈ L, key o = x → p o = true) :
    openQty key x (L.filter p) = openQty key x L := by
  induction L with
  | nil => rfl
  | cons o L ih =>
      have hL := ih (fun o' ho' => h o' (List.mem_cons_of_mem _ ho'))
      rw [List.filter_cons]
      split
      · rw [openQty_cons, openQty_cons, hL]
      · rename_i hp
        have hne : key o ≠ x := fun hx => hp (h o (List.mem_cons_self ..) hx)
        rw [openQty_cons, if_neg hne, hL]; omega

end OpenQty

theorem executed_append (party : Trade → String) (x : String) (fills fills' : List Fill) :
    executed party x (fills ++ fills') = executed party x fills + executed party x fills' := by
  simp [executed]

/-- `party` of a trade is `key` of its passive order, and a fill does not change `key`. -/
structure PassiveKey (key : Order → String) (party : Trade → String) : Prop where
  create : ∀ tradeId executedAt aggressor passive price quantity,
    party (Trade.create tradeId executedAt aggressor passive price quantity) = key passive
  fill : ∀ o n now, key (Order.withRemainingQuantity o n now) = key o

theorem passiveKey_orderId : PassiveKey Order.orderId Trade.passiveOrderId :=
  ⟨fun _ _ _ _ _ _ => rfl, fun _ _ _ => rfl⟩

section Executed

variable {key : Order → String} {party : Trade → String}

/-- What a fill takes from a resting order it books as executed. -/
theorem executed_fill (hk : PassiveKey key party) (x : String) (amb : Ambient)
    (aggressor : Order) (crosses : Int → Bool) (total : Int) :
    KeptByFill amb aggressor crosses
      (fun ls st => executed party x st.fills + openQty key x (Levels.orders ls) = total) := by
  intro p passive rest behind st _ _ h
  have hkey : key (fillFront amb aggressor p passive rest behind st).1 = key passive :=
    hk.fill _ _ _
  have hleft : (fillFront amb aggressor p passive rest behind st).1.remainingQuantity
      = passive.remainingQuantity - min st.remainingQty passive.remainingQuantity := rfl
  have hbooked : executed party x (fillFront amb aggressor p passive rest behind st).2.fills
      = executed party x st.fills
        + if key passive = x then min st.remainingQty passive.remainingQuantity else 0 := by
    refine (executed_append ..).trans (congrArg _ ?_)
    simp only [executed, List.map_cons, List.map_nil, List.sum_cons, List.sum_nil, hk.create,
      add_zero]
    rfl
  rw [orders_cons, List.cons_append, openQty_cons] at h
  rw [orders_afterFill, hbooked]
  -- the order is put back with what is left of it, or it is gone and nothing is left
  by_cases hx : key passive = x
  · rw [if_pos hx] at h ⊢
    split
    · rw [openQty_cons, hkey, if_pos hx, hleft]; omega
    · rename_i hgone
      rw [hleft] at hgone; omega
  · rw [if_neg hx] at h ⊢
    split
    · rw [openQty_cons, hkey, if_neg hx]; omega
    · omega

/-- A sweep moves quantity from open to executed on the side it sweeps. -/
theorem sweep_executed {b : OrderBook} (h : RepInv b) (hk : PassiveKey key party) (x : String)
    (amb : Ambient) (aggressor : Order) (crosses : Int → Bool) :
    executed party x (b.sweep amb aggressor crosses).1.fills
        + openQty key x ((b.sweep amb aggressor crosses).2.resting aggressor.side.opposite)
      = openQty key x (b.resting aggressor.side.opposite) := by
  rw [sweep_resting_opposite, sweep_fst]
  exact matchSide_rule (executed_fill hk x amb aggressor crosses _) _ _ (h.side _).nonempty
    (by simp [sweepStart, executed, resting])

/-- The same over both sides. -/
theorem sweep_executed_all {b : OrderBook} (h : RepInv b) (hk : PassiveKey key party)
    (x : String) (amb : Ambient) (aggressor : Order) (crosses : Int → Bool) :
    executed party x (b.sweep amb aggressor crosses).1.fills
        + openQty key x (allOrders (b.sweep amb aggressor crosses).2)
      = openQty key x (allOrders b) := by
  have hopp := sweep_executed h hk x amb aggressor crosses
  rw [openQty_perm (allOrders_perm _ aggressor.side), openQty_perm (allOrders_perm b aggressor.side),
    openQty_append, openQty_append, sweep_resting_own]
  omega

end Executed

/-! ## One call -/

theorem openQty_remove_side {b : OrderBook} (h : RepInv b) (id : String) (key : Order → String)
    (x : String) (s : OrderSide) :
    openQty key x ((b.removeFromBook id).2.resting s) ≤ openQty key x (b.resting s) := by
  rcases removeFromBook_cases h id with ⟨-, heq⟩ | ⟨_, -, -, heq⟩ | ⟨_, -, -, -, hr⟩
  · rw [heq]
  · rw [heq, resting, levels_mk]; exact le_refl _
  · rw [hr.resting]
    exact openQty_sublist List.filter_sublist (fun o ho => (h.side s).positive o ho)

theorem openQty_remove_le {b : OrderBook} (h : RepInv b) (id : String) (key : Order → String)
    (x : String) :
    openQty key x (allOrders (b.removeFromBook id).2) ≤ openQty key x (allOrders b) := by
  have hbuy := openQty_remove_side h id key x .buy
  have hsell := openQty_remove_side h id key x .sell
  rw [allOrders, allOrders, openQty_append, openQty_append]
  omega

/-- Removing one order leaves the account of every other. -/
theorem openQty_remove_ne {b : OrderBook} (h : RepInv b) {id x : String} (hx : x ≠ id) :
    openQty Order.orderId x (allOrders (b.removeFromBook id).2)
      = openQty Order.orderId x (allOrders b) := by
  rcases removeFromBook_cases h id with ⟨-, heq⟩ | ⟨_, -, -, heq⟩ | ⟨_, -, -, -, hr⟩
  · rw [heq]
  · rw [heq]; rfl
  · rw [hr.allOrders]
    refine openQty_filter (fun o _ ho => ?_)
    simpa [ho] using hx

/-- The quantity executed in trades naming `id`, as aggressor or as passive party. -/
def traded (id : String) (fills : List Fill) : Int :=
  (fills.map (fun f => if f.trade.Names id then f.trade.quantity else 0)).sum

theorem traded_append (id : String) (fills fills' : List Fill) :
    traded id (fills ++ fills') = traded id fills + traded id fills' := by
  simp [traded]

theorem traded_eq_zero {id : String} {fills : List Fill} (h : ∀ f ∈ fills, ¬ f.trade.Names id) :
    traded id fills = 0 := by
  refine List.sum_eq_zero (fun n hn => ?_)
  obtain ⟨f, hf, rfl⟩ := List.mem_map.mp hn
  exact if_neg (h f hf)

section OneCall

variable {b : OrderBook} {incoming : Order} (h : RepInv b) (amb : Ambient)

include h

theorem match_aggressor :
    ∀ f ∈ (b.matchIncoming amb incoming).1, f.trade.aggressorOrderId = incoming.orderId := by
  intro f hf
  obtain ⟨_, hok⟩ := match_fillOk h amb incoming f hf
  exact hok.aggressorOrderId

/-- A call books on other orders as passive parties only. -/
theorem traded_other {id : String} (hid : id ≠ incoming.orderId) :
    traded id (b.matchIncoming amb incoming).1
      = executed Trade.passiveOrderId id (b.matchIncoming amb incoming).1 := by
  refine congrArg List.sum (List.map_congr_left (fun f hf => ?_))
  have hagg : f.trade.aggressorOrderId ≠ id := by
    rw [match_aggressor h amb f hf]; exact hid.symm
  simp only [Trade.Names, hagg, false_or]

/-- Every trade of a call names the incoming order. -/
theorem traded_own :
    traded incoming.orderId (b.matchIncoming amb incoming).1
      = filled (b.matchIncoming amb incoming).1 := by
  refine congrArg List.sum (List.map_congr_left (fun f hf => ?_))
  exact if_pos (Or.inl (match_aggressor h amb f hf))

variable (hfresh : NotResting b incoming.orderId)

include hfresh

/-- A call only moves the quantity of another order from open to executed. -/
theorem match_other {id : String} (hid : id ≠ incoming.orderId) :
    traded id (b.matchIncoming amb incoming).1
        + openQty Order.orderId id (allOrders (b.matchIncoming amb incoming).2)
      = openQty Order.orderId id (allOrders b) := by
  rw [traded_other h amb hid]
  refine (matchIncoming_rule
    (P := fun fills b' => RepInv b' ∧ NotResting b' incoming.orderId
      ∧ executed Trade.passiveOrderId id fills + openQty Order.orderId id (allOrders b')
        = openQty Order.orderId id (allOrders b))
    (Q := fun fills b' => RepInv b'
      ∧ executed Trade.passiveOrderId id fills + openQty Order.orderId id (allOrders b')
        = openQty Order.orderId id (allOrders b)) ?_ ?_ ?_ ?_ ?_).2
  · exact ⟨h, hfresh, by simp [executed]⟩
  · exact fun crosses => ⟨repInv_sweep h amb incoming crosses,
      notResting_sweep h hfresh amb incoming crosses,
      sweep_executed_all h passiveKey_orderId id amb incoming crosses⟩
  · exact fun _ _ hP => ⟨hP.1, hP.2.2⟩
  · -- the remainder has the caller's id, not `id`
    rintro - hrem ⟨hrep, hnot, hsum⟩
    refine ⟨repInv_insert hrep hrem hnot, ?_⟩
    rw [openQty_perm (insert_perm hrep _), openQty_cons,
      if_neg (show (remainder b amb incoming).orderId ≠ id from hid.symm), zero_add]
    exact hsum
  · rintro fills b' ⟨hrep, hsum⟩
    exact ⟨repInv_remove hrep _, by rw [openQty_remove_ne hrep hid]; exact hsum⟩

/-- The incoming order is never over-filled. -/
theorem match_own_le :
    traded incoming.orderId (b.matchIncoming amb incoming).1
        + openQty Order.orderId incoming.orderId (allOrders (b.matchIncoming amb incoming).2)
      ≤ max incoming.remainingQuantity 0 := by
  rw [traded_own h amb]
  have hsw : ∀ crosses, NotResting (b.sweep amb incoming crosses).2 incoming.orderId :=
    notResting_sweep h hfresh amb incoming
  refine (matchIncoming_rule
    (P := fun fills b' => RepInv b' ∧ NotResting b' incoming.orderId
      ∧ filled fills ≤ max incoming.remainingQuantity 0)
    (Q := fun fills b' => RepInv b'
      ∧ filled fills + openQty Order.orderId incoming.orderId (allOrders b')
        ≤ max incoming.remainingQuantity 0) ?_ ?_ ?_ ?_ ?_).2
  · exact ⟨h, hfresh, by simp [filled]⟩
  · intro crosses
    have htot := sweep_filled h amb incoming crosses
    exact ⟨repInv_sweep h amb incoming crosses, hsw crosses, by omega⟩
  · rintro fills b' ⟨hrep, hnot, hle⟩
    exact ⟨hrep, by rw [openQty_eq_zero hnot]; omega⟩
  · -- what rests is what the sweep left over, and nothing else has this id
    rintro - hrem ⟨hrep, hnot, -⟩
    have htot := sweep_filled h amb incoming (crossesLimit incoming)
    refine ⟨repInv_insert hrep hrem hnot, ?_⟩
    rw [openQty_perm (insert_perm hrep _), openQty_cons, openQty_eq_zero hnot,
      if_pos (show (remainder b amb incoming).orderId = incoming.orderId from rfl)]
    dsimp only [remainder, Order.withRemainingQuantity_remainingQuantity]
    omega
  · -- the removal of an IOC remainder
    rintro fills b' ⟨hrep, hle⟩
    have hrm := openQty_remove_le hrep incoming.orderId Order.orderId incoming.orderId
    exact ⟨repInv_remove hrep _, by omega⟩

/-- Whatever a limit order does not execute, it rests. -/
theorem match_own_limit (ht : incoming.type = .limit) :
    traded incoming.orderId (b.matchIncoming amb incoming).1
        + openQty Order.orderId incoming.orderId (allOrders (b.matchIncoming amb incoming).2)
      = max incoming.remainingQuantity 0 := by
  rw [traded_own h amb]
  have hnot := notResting_sweep h hfresh amb incoming (crossesLimit incoming)
  have htot := sweep_filled h amb incoming (crossesLimit incoming)
  have hm : b.matchIncoming amb incoming = b.matchLimit amb incoming := by
    unfold matchIncoming; rw [ht]
  rw [hm]
  rcases matchLimit_cases b amb incoming with ⟨hrem, heq⟩ | ⟨hrem, heq⟩
  · rw [heq, openQty_eq_zero hnot]; dsimp only; omega
  · rw [heq, openQty_perm (insert_perm (repInv_sweep h amb incoming _) _), openQty_cons,
      openQty_eq_zero hnot,
      if_pos (show (remainder b amb incoming).orderId = incoming.orderId from rfl)]
    dsimp only [remainder, Order.withRemainingQuantity_remainingQuantity]
    omega

end OneCall

/-! ## Whole runs -/

/-- Some removal of `id` in the run returned `true`. -/
def Cancelled (symbol : String) (ops : List BookOp) (id : String) : Prop :=
  ∃ t ∈ bookTrace symbol ops, t.input = .removeFromBook id ∧ t.output.removed = true

/-- The account of one submitted order after the calls `ops`. -/
structure Balanced (symbol : String) (ops : List BookOp) (b : OrderBook) (x : Order) : Prop where
  within : traded x.orderId (fillsOf symbol ops) + openQty Order.orderId x.orderId (allOrders b)
    ≤ max x.quantity 0
  exact : x.type = .limit → ¬ Cancelled symbol ops x.orderId →
    traded x.orderId (fillsOf symbol ops) + openQty Order.orderId x.orderId (allOrders b)
      = max x.quantity 0

section Runs

variable {symbol : String} {ops : List BookOp}

theorem Cancelled.snoc {id : String} (op : BookOp) (h : Cancelled symbol ops id) :
    Cancelled symbol (ops ++ [op]) id := by
  obtain ⟨t, ht, hin, hout⟩ := h
  refine ⟨t, ?_, hin, hout⟩
  rw [bookTrace, trace_snoc]; exact List.mem_append_left _ ht

/-- A trade names submitted orders only. -/
theorem fills_submitted (h : DistinctIds ops) {f : Fill} (hf : f ∈ fillsOf symbol ops)
    {id : String} (hid : f.trade.Names id) : ∃ x ∈ submitted ops, x.orderId = id := by
  obtain ⟨pre, amb, o, post, rfl, hcall⟩ := mem_fillsOf hf
  have hinv := runInv_reachable symbol h.of_append
  rw [submitted_append]
  rcases hid with hid | hid
  · refine ⟨o, List.mem_append_right _ (List.mem_cons_self ..), ?_⟩
    rw [← hid, match_aggressor hinv.rep amb f hcall]
  · obtain ⟨y, hy, hy', -⟩ := hinv.passive hcall
    exact ⟨y, List.mem_append_left _ hy, by rw [← hid, hy']⟩

theorem balanced_match {amb : Ambient} {o : Order} (hv : ValidRun (ops ++ [.matchIncoming amb o]))
    (h : ∀ x ∈ submitted ops, Balanced symbol ops (bookAfter symbol ops) x) :
    ∀ x ∈ submitted (ops ++ [.matchIncoming amb o]),
      Balanced symbol (ops ++ [.matchIncoming amb o])
        ((bookAfter symbol ops).matchIncoming amb o).2 x := by
  have hinv := runInv_reachable symbol hv.distinct.init
  have hfresh := hinv.notResting hv.distinct.last_new
  have hfills : fillsOf symbol (ops ++ [.matchIncoming amb o])
      = fillsOf symbol ops ++ ((bookAfter symbol ops).matchIncoming amb o).1 := fillsOf_snoc ..
  intro x hx
  rw [submitted_snoc_match] at hx
  rcases List.mem_append.mp hx with hx | hx
  · -- an earlier order: what the call executes of it was open before
    have hne := hv.distinct.last_new x hx
    have hcall := match_other hinv.rep amb hfresh hne
    refine ⟨?_, fun ht hnc => ?_⟩ <;> rw [hfills, traded_append]
    · have := (h x hx).within; omega
    · have := (h x hx).exact ht (fun hc => hnc (hc.snoc _)); omega
  · -- the new one: nothing was booked on its id before
    obtain rfl := List.mem_singleton.mp hx
    have hc : x.Created := hv.created x (by rw [submitted_snoc_match]; simp)
    have hzero : traded x.orderId (fillsOf symbol ops) = 0 := traded_eq_zero (fun f hf hn => by
      obtain ⟨y, hy, hid⟩ := fills_submitted hv.distinct.init hf hn
      exact hv.distinct.last_new y hy hid)
    refine ⟨?_, fun ht _ => ?_⟩ <;>
      rw [hfills, traded_append, hzero, zero_add, ← hc.remainingQuantity_eq]
    · exact match_own_le hinv.rep amb hfresh
    · exact match_own_limit hinv.rep amb hfresh ht

theorem balanced_remove {id : String} (hv : ValidRun (ops ++ [.removeFromBook id]))
    (h : ∀ x ∈ submitted ops, Balanced symbol ops (bookAfter symbol ops) x) :
    ∀ x ∈ submitted (ops ++ [.removeFromBook id]),
      Balanced symbol (ops ++ [.removeFromBook id])
        ((bookAfter symbol ops).removeFromBook id).2 x := by
  have hrep := (runInv_reachable symbol hv.distinct.init).rep
  have hfills : fillsOf symbol (ops ++ [.removeFromBook id]) = fillsOf symbol ops := by
    rw [fillsOf_snoc]; exact List.append_nil _
  intro x hx
  rw [submitted_snoc_remove] at hx
  have hle := openQty_remove_le hrep id Order.orderId x.orderId
  refine ⟨?_, fun ht hnc => ?_⟩ <;> rw [hfills]
  · have := (h x hx).within; omega
  · have hold := (h x hx).exact ht (fun hc => hnc (hc.snoc _))
    by_cases hid : x.orderId = id
    · -- not cancelled, so this removal was refused and nothing left the queues
      rcases removeFromBook_cases hrep id with ⟨-, heq⟩ | ⟨_, -, -, heq⟩ | ⟨_, -, -, htrue, -⟩
      · rw [heq]; exact hold
      · rw [heq]; exact hold
      · refine absurd ⟨lastCall OrderBook.step (OrderBook.new symbol) ops (.removeFromBook id), ?_,
          by rw [hid]; rfl, htrue⟩ hnc
        rw [bookTrace, trace_snoc]; exact List.mem_append_right _ (by simp)
    · rw [openQty_remove_ne hrep hid]; exact hold

/-- **Every account balances in every reachable book.** -/
theorem balanced_reachable (symbol : String) (h : ValidRun ops) :
    ∀ x ∈ submitted ops, Balanced symbol ops (bookAfter symbol ops) x :=
  run_invariant OrderBook.step
    (P := fun ops b => ∀ x ∈ submitted ops, Balanced symbol ops b x)
    (fun _ _ hok => hok.init) (fun x hx => absurd hx (by simp [submitted]))
    (fun is op hok hp => by
      cases op with
      | matchIncoming amb o => exact balanced_match hok hp
      | removeFromBook id => exact balanced_remove hok hp) ops h

/-- An id that has left the book does not come back: only a submission would bring it. -/
theorem notResting_later {id : String} {pre : List BookOp}
    (hsub : ∃ x ∈ submitted pre, x.orderId = id) (hnot : NotResting (bookAfter symbol pre) id) :
    ∀ mid, DistinctIds (pre ++ mid) → NotResting (bookAfter symbol (pre ++ mid)) id := by
  intro mid
  -- on the last call: a later order has another id, and no call brings an order back
  induction mid using List.reverseRecOn with
  | nil => intro _; rw [List.append_nil]; exact hnot
  | append_singleton mid op ih =>
      intro hd
      rw [← List.append_assoc] at hd ⊢
      have hinv := runInv_reachable symbol hd.init
      have hold := ih hd.init
      rw [bookAfter_snoc]
      cases op with
      | matchIncoming amb o =>
          obtain ⟨x, hx, rfl⟩ := hsub
          have hne : o.orderId ≠ x.orderId := (hd.last_new x (by
            rw [submitted_append]; exact List.mem_append_left _ hx)).symm
          intro y hy
          rcases (matchInv hinv.rep amb (hinv.notResting hd.last_new)).versions y hy with
            hv | ⟨y₀, hy₀, hv⟩
          · rw [hv.orderId]; exact hne
          · rw [hv.orderId]; exact hold y₀ hy₀
      | removeFromBook id' => exact fun y hy => hold y (remove_subset hinv.rep id' y hy)

/-- A trade names the incoming order or an order resting when the call was made. -/
theorem match_names {b : OrderBook} (h : RepInv b) {amb : Ambient} {o : Order} {f : Fill}
    (hf : f ∈ (b.matchIncoming amb o).1) {id : String} (hid : f.trade.Names id) :
    o.orderId = id ∨ ¬ NotResting b id := by
  rcases hid with hid | hid
  · exact Or.inl (by rw [← hid, match_aggressor h amb f hf])
  · obtain ⟨_, hok⟩ := match_fillOk h amb o f hf
    obtain ⟨y, hy, hy', -⟩ := hok.passive
    exact Or.inr (fun hnot => hnot y (mem_allOrders.mpr ⟨_, hy⟩) (hy'.trans hid))

/-- What the calls `later` executed when made after `ops`. -/
def fillsAfter (symbol : String) (ops later : List BookOp) : List Fill :=
  (trace OrderBook.step (bookAfter symbol ops) later).flatMap (fun t => t.output.fills)

/-- No trade names an order after its removal. -/
theorem no_fill_after_remove {pre post : List BookOp} {id : String}
    (hd : DistinctIds (pre ++ .removeFromBook id :: post))
    (hr : ((bookAfter symbol pre).removeFromBook id).1 = true) :
    ∀ f ∈ fillsAfter symbol (pre ++ [.removeFromBook id]) post, ¬ f.trade.Names id := by
  rw [List.append_cons] at hd
  have hpre := runInv_reachable symbol hd.of_append.of_append
  -- the removal took a resting order, so the id was submitted and is now gone
  obtain ⟨hsub, hgone⟩ : (∃ x ∈ submitted (pre ++ [.removeFromBook id]), x.orderId = id)
      ∧ NotResting (bookAfter symbol (pre ++ [.removeFromBook id])) id := by
    rw [submitted_snoc_remove, bookAfter_snoc]
    rcases removeFromBook_cases hpre.rep id with
      ⟨-, heq⟩ | ⟨_, -, -, heq⟩ | ⟨o, hl, -, -, hrem⟩
    · rw [heq] at hr; exact absurd hr (by simp)
    · rw [heq] at hr; exact absurd hr (by simp)
    · obtain ⟨hoid, ho⟩ := hpre.rep.index.sound id o hl
      obtain ⟨x, hx, hv⟩ := hpre.versions o ho
      exact ⟨⟨x, hx, by rw [← hv.orderId, hoid]⟩, hrem.orderId_ne⟩
  intro f hf hn
  obtain ⟨t, ht, hft⟩ := List.mem_flatMap.mp hf
  obtain ⟨mid, op, rest, rfl, rfl⟩ := mem_trace OrderBook.step ht
  cases op with
  | removeFromBook _ => exact absurd hft List.not_mem_nil
  | matchIncoming amb o =>
      have hd' : DistinctIds ((pre ++ [.removeFromBook id]) ++ mid ++ [.matchIncoming amb o]) := by
        rw [List.append_cons mid, ← List.append_assoc, ← List.append_assoc] at hd
        exact hd.of_append
      have hinv := runInv_reachable symbol hd'.init
      have hf' : f ∈ ((bookAfter symbol (pre ++ [.removeFromBook id] ++ mid)).matchIncoming
          amb o).1 := by
        rw [bookAfter, run_append]; exact hft
      rcases match_names hinv.rep hf' hn with heq | hnot
      · obtain ⟨x, hx, hxid⟩ := hsub
        refine hd'.last_new x ?_ (hxid.trans heq.symm)
        rw [submitted_append]; exact List.mem_append_left _ hx
      · exact hnot (notResting_later hsub hgone mid hd'.init)

end Runs

/--
**Quantity is conserved.** Every trade is for a positive quantity. What was traded of
an order and what is left of it in the queues never exceed its quantity, and make it
up exactly for a limit order that was not cancelled. A cancelled order never trades
again.
-/
theorem quantity_conserved (symbol : String) {ops : List BookOp} (h : ValidRun ops) :
    (∀ f ∈ fillsOf symbol ops, 0 < f.trade.quantity)
      ∧ (∀ x ∈ submitted ops,
          traded x.orderId (fillsOf symbol ops)
              + openQty Order.orderId x.orderId (allOrders (bookAfter symbol ops))
            ≤ max x.quantity 0
          ∧ (x.type = .limit → ¬ Cancelled symbol ops x.orderId →
            traded x.orderId (fillsOf symbol ops)
                + openQty Order.orderId x.orderId (allOrders (bookAfter symbol ops))
              = max x.quantity 0))
      ∧ (∀ pre id post, ops = pre ++ .removeFromBook id :: post →
          ((bookAfter symbol pre).removeFromBook id).1 = true →
          ∀ f ∈ fillsAfter symbol (pre ++ [.removeFromBook id]) post, ¬ f.trade.Names id) := by
  refine ⟨fun f hf => ?_, fun x hx => ?_, fun pre id post hops hr => ?_⟩
  · obtain ⟨pre, amb, o, post, rfl, hcall⟩ := mem_fillsOf hf
    obtain ⟨_, hok⟩ := match_fillOk (runInv_reachable symbol h.distinct.of_append).rep amb o f hcall
    exact hok.positive
  · have hb := balanced_reachable symbol h x hx
    exact ⟨hb.within, hb.exact⟩
  · subst hops
    exact no_fill_after_remove h.distinct hr

/-- A limit sell of 10 that a market buy of 3 takes from. -/
def partialFillRun : List BookOp :=
  [.matchIncoming still (Order.create "s" 0 "A" "AAPL" .sell .limit 100 0 10),
    .matchIncoming still (Order.create "b" 1 "B" "AAPL" .buy .market 0 0 3)]

/-- What follows the cancel of a partly filled sell: another sell, and a buy that takes from it. -/
def afterCancel : List BookOp :=
  [.matchIncoming still (Order.create "r" 2 "C" "AAPL" .sell .limit 101 0 4),
    .matchIncoming still (Order.create "d" 3 "D" "AAPL" .buy .ioc 200 0 2)]

theorem quantity_conserved_cancel :
    (fillsOf "AAPL" (partialFillRun ++ .removeFromBook "s" :: afterCancel)).map
        (fun f => (f.trade.passiveOrderId, f.trade.quantity)) = [("s", 3), ("r", 2)]
      ∧ ∀ f ∈ fillsAfter "AAPL" (partialFillRun ++ [.removeFromBook "s"]) afterCancel,
          ¬ f.trade.Names "s" :=
  have hv : ValidRun (partialFillRun ++ .removeFromBook "s" :: afterCancel) :=
    ⟨by simp [partialFillRun, afterCancel, submitted], by decide⟩
  ⟨by decide, (quantity_conserved "AAPL" hv).2.2 partialFillRun "s" afterCancel rfl (by decide)⟩

end TitanX.Proof
