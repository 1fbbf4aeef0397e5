import TitanX.Model.OrderBook

/-!
# What one sweep of a side does

Every guarantee about matching is an invariant of the two nested loops, so the
loops are taken apart once, here. `afterFill` is the side after one turn of the
inner loop, with the level erased if that turn emptied it; `matchSide_rule` says
that whatever one such turn preserves, the whole sweep preserves; `matchSide_exit`
says why a sweep stopped.

The first use of the rule is `sweepInv`, the facts about a sweep that the later
files share: the side stays well formed, no order appears that was not there, and
every trade was made with the order at the head of the side, at its price.
-/

namespace TitanX.Proof

open TitanX OrderBook

/-! ## The orders of a side -/

@[simp] theorem orders_nil : Levels.orders [] = [] := rfl

@[simp] theorem orders_cons (p : Int) (queue : List Order) (ls : Levels) :
    Levels.orders ((p, queue) :: ls) = queue ++ Levels.orders ls := rfl

@[simp] theorem orders_append (ls ls' : Levels) :
    Levels.orders (ls ++ ls') = Levels.orders ls ++ Levels.orders ls' := by
  simp [Levels.orders]

theorem mem_orders {ls : Levels} {o : Order} :
    o ∈ Levels.orders ls ↔ ∃ l ∈ ls, o ∈ l.2 := List.mem_flatMap

/-! ## The loop rule -/

/-- A level put back in front of the others, or erased if its queue is empty. -/
def collapse (p : Int) (queue : List Order) (behind : Levels) : Levels :=
  if queue.isEmpty then behind else (p, queue) :: behind

/-- The side after one turn of the inner loop that left `updated` of the front order. -/
def afterFill (p : Int) (updated : Order) (rest : List Order) (behind : Levels) : Levels :=
  if updated.remainingQuantity > 0 then (p, updated :: rest) :: behind
  else collapse p rest behind

@[simp] theorem orders_collapse (p : Int) (queue : List Order) (behind : Levels) :
    Levels.orders (collapse p queue behind) = queue ++ Levels.orders behind := by
  unfold collapse
  split
  · rename_i h; rw [List.isEmpty_iff.mp h]; rfl
  · rfl

theorem orders_afterFill (p : Int) (updated : Order) (rest : List Order) (behind : Levels) :
    Levels.orders (afterFill p updated rest behind) =
      if updated.remainingQuantity > 0 then updated :: (rest ++ Levels.orders behind)
      else rest ++ Levels.orders behind := by
  unfold afterFill
  split
  · rfl
  · exact orders_collapse p rest behind

section Rule

variable [PoppedId] {amb : Ambient} {aggressor : Order} {crosses : Int → Bool}

/-- `I` survives one turn of the inner loop. -/
def KeptByFill (amb : Ambient) (aggressor : Order) (crosses : Int → Bool)
    (I : Levels → Sweep → Prop) : Prop :=
  ∀ p passive rest behind st, crosses p = true → 0 < st.remainingQty →
    I ((p, passive :: rest) :: behind) st →
    I (afterFill p (fillFront amb aggressor p passive rest behind st).1 rest behind)
      (fillFront amb aggressor p passive rest behind st).2

theorem fillLevel_rule {I : Levels → Sweep → Prop} (hI : KeptByFill amb aggressor crosses I)
    {p : Int} (hc : crosses p = true) {behind : Levels} :
    ∀ (queue : List Order) (st : Sweep), queue ≠ [] → I ((p, queue) :: behind) st →
      I (collapse p (fillLevel amb aggressor p behind queue st).1 behind)
        (fillLevel amb aggressor p behind queue st).2
  | [], _, hne, _ => absurd rfl hne
  | passive :: rest, st, _, h => by
      rw [fillLevel]
      split
      · rename_i hrem
        have hnext := hI p passive rest behind st hc hrem h
        dsimp only
        split
        · rename_i hp
          rw [afterFill, if_pos hp] at hnext
          exact hnext
        · rename_i hp
          rw [afterFill, if_neg hp] at hnext
          -- with the last order of the queue the level itself goes
          cases rest with
          | nil => exact hnext
          | cons o rest => exact fillLevel_rule hI hc (o :: rest) _ (by simp) hnext
      · exact h

/--
**The loop rule.** What one fill preserves, the sweep preserves. The start has no
empty level; one fill never leaves any.
-/
theorem matchSide_rule {I : Levels → Sweep → Prop} (hI : KeptByFill amb aggressor crosses I) :
    ∀ (ls : Levels) (st : Sweep), (∀ l ∈ ls, l.2 ≠ []) → I ls st →
      I (matchSide amb aggressor crosses ls st).1 (matchSide amb aggressor crosses ls st).2
  | [], _, _, h => h
  | (p, queue) :: ls, st, hne, h => by
      rw [matchSide]
      split
      · split
        · rename_i hc
          have hlevel := fillLevel_rule hI hc queue st (hne _ (List.mem_cons_self ..)) h
          dsimp only
          split
          · rename_i hq
            rw [collapse, if_pos hq] at hlevel
            exact matchSide_rule hI ls _ (fun l hl => hne l (List.mem_cons_of_mem _ hl)) hlevel
          · rename_i hq
            rw [collapse, if_neg hq] at hlevel
            exact hlevel
        · exact h
      · exact h

/-- The same rule for an invariant that does not speak of the levels. -/
theorem fillLevel_keeps {I : Sweep → Prop} {p : Int} {behind : Levels}
    (hI : ∀ passive rest st, I st → I (fillFront amb aggressor p passive rest behind st).2) :
    ∀ (queue : List Order) (st : Sweep), I st → I (fillLevel amb aggressor p behind queue st).2
  | [], _, h => h
  | passive :: rest, st, h => by
      rw [fillLevel]
      split
      · dsimp only
        split
        · exact hI passive rest st h
        · exact fillLevel_keeps hI rest _ (hI passive rest st h)
      · exact h

theorem matchSide_keeps {I : Sweep → Prop}
    (hI : ∀ p passive rest behind st, I st → I (fillFront amb aggressor p passive rest behind st).2) :
    ∀ (ls : Levels) (st : Sweep), I st → I (matchSide amb aggressor crosses ls st).2
  | [], _, h => h
  | (p, queue) :: ls, st, h => by
      have hlevel : I (fillLevel amb aggressor p ls queue st).2 :=
        fillLevel_keeps (fun passive rest => hI p passive rest ls) queue st h
      rw [matchSide]
      split
      · split
        · dsimp only
          split
          · exact matchSide_keeps hI ls _ hlevel
          · exact hlevel
        · exact h
      · exact h

variable (amb aggressor crosses) in
/-- Why a sweep stopped: the aggressor is used up, the side is, or the best level
does not cross. -/
theorem matchSide_exit : ∀ (ls : Levels) (st : Sweep),
    (matchSide amb aggressor crosses ls st).2.remainingQty ≤ 0
      ∨ (matchSide amb aggressor crosses ls st).1 = []
      ∨ ∃ p queue behind, (matchSide amb aggressor crosses ls st).1 = (p, queue) :: behind
          ∧ crosses p = false
  | [], _ => Or.inr (Or.inl rfl)
  | (p, queue) :: ls, st => by
      rw [matchSide]
      split
      · split
        · dsimp only
          split
          · exact matchSide_exit ls _
          · -- orders are left at this level, so the aggressor is used up
            rename_i hq
            exact Or.inl (fillLevel_exhausts (fun hnil => hq (List.isEmpty_iff.mpr hnil)))
        · rename_i hc
          exact Or.inr (Or.inr ⟨p, queue, ls, rfl, by simpa using hc⟩)
      · rename_i hrem
        exact Or.inl (not_lt.mp hrem)

end Rule

/-- What a fill does to the index, where the id of a popped order is granted. -/
theorem fillFront_orderIndex (amb : Ambient) (aggressor : Order) (p : Int) (passive : Order)
    (rest : List Order) (behind : Levels) (st : Sweep) :
    (fillFront amb aggressor p passive rest behind st).2.orderIndex =
      if (fillFront amb aggressor p passive rest behind st).1.remainingQuantity > 0 then
        st.orderIndex.insert (fillFront amb aggressor p passive rest behind st).1.orderId
          (fillFront amb aggressor p passive rest behind st).1
      else st.orderIndex.erase passive.orderId := rfl

/-! ## Well-formed sides -/

/-- `o` is `o₀` with only its fill state changed. -/
def VersionOf (o o₀ : Order) : Prop :=
  ∃ remaining status updatedAt, o = { o₀ with
    remainingQuantity := remaining, status := status, updatedAt := updatedAt }

theorem VersionOf.refl (o : Order) : VersionOf o o := ⟨_, _, _, rfl⟩

theorem VersionOf.trans {o o' o'' : Order} (h : VersionOf o o') (h' : VersionOf o' o'') :
    VersionOf o o'' := by
  obtain ⟨_, _, _, rfl⟩ := h
  obtain ⟨_, _, _, rfl⟩ := h'
  exact ⟨_, _, _, rfl⟩

theorem versionOf_withRemainingQuantity (o : Order) (n now : Int) :
    VersionOf (o.withRemainingQuantity n now) o := ⟨_, _, _, rfl⟩

section VersionFields

variable {o o₀ : Order} (h : VersionOf o o₀)

include h

theorem VersionOf.orderId : o.orderId = o₀.orderId := by obtain ⟨_, _, _, rfl⟩ := h; rfl

theorem VersionOf.accountId : o.accountId = o₀.accountId := by obtain ⟨_, _, _, rfl⟩ := h; rfl

theorem VersionOf.side : o.side = o₀.side := by obtain ⟨_, _, _, rfl⟩ := h; rfl

theorem VersionOf.price : o.price = o₀.price := by obtain ⟨_, _, _, rfl⟩ := h; rfl

theorem VersionOf.createdAt : o.createdAt = o₀.createdAt := by obtain ⟨_, _, _, rfl⟩ := h; rfl

theorem VersionOf.quantity : o.quantity = o₀.quantity := by obtain ⟨_, _, _, rfl⟩ := h; rfl

end VersionFields

/-- The levels of side `s` as the matching loops need them. -/
structure SideOk (s : OrderSide) (ls : Levels) : Prop where
  /-- No level is left empty, so `front()` exists. -/
  nonempty : ∀ l ∈ ls, l.2 ≠ []
  /-- An order sits on its own side, at its own price. -/
  keyed : ∀ l ∈ ls, ∀ o ∈ l.2, o.side = s ∧ o.price = l.1
  /-- Nothing exhausted rests, so a fill is never empty. -/
  positive : ∀ o ∈ Levels.orders ls, 0 < o.remainingQuantity

theorem sideOk_nil (s : OrderSide) : SideOk s [] := ⟨by simp, by simp, by simp⟩

theorem SideOk.mem {s : OrderSide} {ls : Levels} (h : SideOk s ls) {o : Order}
    (ho : o ∈ Levels.orders ls) : o.side = s ∧ ∃ l ∈ ls, l.1 = o.price := by
  obtain ⟨l, hl, hol⟩ := mem_orders.mp ho
  exact ⟨(h.keyed l hl o hol).1, l, hl, (h.keyed l hl o hol).2.symm⟩

/-- What holds of the keys holds of the prices filed under them. -/
theorem SideOk.prices {s : OrderSide} {ls : Levels} (h : SideOk s ls) {P : Int → Prop}
    (hP : ∀ l ∈ ls, P l.1) : ∀ x ∈ Levels.orders ls, P x.price := by
  intro x hx
  obtain ⟨-, l, hl, hp⟩ := h.mem hx
  exact hp ▸ hP l hl

theorem sideOk_append {s : OrderSide} {ls ls' : Levels} :
    SideOk s (ls ++ ls') ↔ SideOk s ls ∧ SideOk s ls' := by
  constructor
  · intro h
    exact ⟨⟨fun l hl => h.nonempty l (List.mem_append_left _ hl),
        fun l hl => h.keyed l (List.mem_append_left _ hl),
        fun o ho => h.positive o (by rw [orders_append]; exact List.mem_append_left _ ho)⟩,
      ⟨fun l hl => h.nonempty l (List.mem_append_right _ hl),
        fun l hl => h.keyed l (List.mem_append_right _ hl),
        fun o ho => h.positive o (by rw [orders_append]; exact List.mem_append_right _ ho)⟩⟩
  · rintro ⟨h, h'⟩
    refine ⟨fun l hl => ?_, fun l hl => ?_, fun o ho => ?_⟩
    · rcases List.mem_append.mp hl with hl | hl
      · exact h.nonempty l hl
      · exact h'.nonempty l hl
    · rcases List.mem_append.mp hl with hl | hl
      · exact h.keyed l hl
      · exact h'.keyed l hl
    · rw [orders_append] at ho
      rcases List.mem_append.mp ho with ho | ho
      · exact h.positive o ho
      · exact h'.positive o ho

theorem SideOk.tail {s : OrderSide} {l : Int × List Order} {ls : Levels}
    (h : SideOk s (l :: ls)) : SideOk s ls :=
  (sideOk_append.mp (show SideOk s ([l] ++ ls) from h)).2

/-- A level of live orders of its own price may be put in front. -/
theorem SideOk.cons {s : OrderSide} {p : Int} {queue : List Order} {ls : Levels}
    (h : SideOk s ls) (hne : queue ≠ [])
    (hq : ∀ o ∈ queue, (o.side = s ∧ o.price = p) ∧ 0 < o.remainingQuantity) :
    SideOk s ((p, queue) :: ls) where
  nonempty := by
    intro l hl
    rcases List.mem_cons.mp hl with rfl | hl
    · exact hne
    · exact h.nonempty l hl
  keyed := by
    intro l hl o ho
    rcases List.mem_cons.mp hl with rfl | hl
    · exact (hq o ho).1
    · exact h.keyed l hl o ho
  positive := by
    intro o ho
    rcases List.mem_append.mp ho with ho | ho
    · exact (hq o ho).2
    · exact h.positive o ho

theorem SideOk.head {s : OrderSide} {p : Int} {queue : List Order} {ls : Levels}
    (h : SideOk s ((p, queue) :: ls)) :
    ∀ o ∈ queue, (o.side = s ∧ o.price = p) ∧ 0 < o.remainingQuantity := fun o ho =>
  ⟨h.keyed _ (List.mem_cons_self ..) o ho, h.positive o (List.mem_append_left _ ho)⟩

theorem sideOk_collapse {s : OrderSide} {p : Int} {queue : List Order} {ls : Levels}
    (h : SideOk s ls)
    (hq : ∀ o ∈ queue, (o.side = s ∧ o.price = p) ∧ 0 < o.remainingQuantity) :
    SideOk s (collapse p queue ls) := by
  unfold collapse
  split
  · exact h
  · rename_i hne
    exact h.cons (fun hnil => hne (List.isEmpty_iff.mpr hnil)) hq

/-- One fill keeps the side well formed. -/
theorem sideOk_afterFill {s : OrderSide} {p : Int} {passive updated : Order}
    {rest : List Order} {behind : Levels} (h : SideOk s ((p, passive :: rest) :: behind))
    (hv : VersionOf updated passive) : SideOk s (afterFill p updated rest behind) := by
  have hhead := h.head
  have hrest : ∀ o ∈ rest, (o.side = s ∧ o.price = p) ∧ 0 < o.remainingQuantity :=
    fun o ho => hhead o (List.mem_cons_of_mem _ ho)
  unfold afterFill
  split
  · rename_i hpos
    refine h.tail.cons (by simp) ?_
    intro o ho
    rcases List.mem_cons.mp ho with rfl | ho
    · rw [hv.side, hv.price]
      exact ⟨(hhead passive (List.mem_cons_self ..)).1, hpos⟩
    · exact hrest o ho
  · exact sideOk_collapse h.tail hrest

/-! ## What a sweep establishes -/

/--
What is known of one execution: it was made with the order `y` at the head of the
passive side, at that level's price, for a positive quantity that `y` still had.
-/
structure FillOk (s : OrderSide) (aggressor : Order) (crosses : Int → Bool) (ls₀ : Levels)
    (f : Fill) : Prop where
  /-- The side was well formed at that moment. -/
  side : SideOk s f.resting
  /-- And held only orders that rested there when the call began. -/
  versions : ∀ o ∈ Levels.orders f.resting, ∃ o₀ ∈ Levels.orders ls₀, VersionOf o o₀
  /-- The passive party was at its head. -/
  head : ∃ y rest behind, f.resting = (f.trade.price, y :: rest) :: behind
    ∧ f.trade.passiveOrderId = y.orderId ∧ f.trade.passiveAccountId = y.accountId
    ∧ f.trade.quantity ≤ y.remainingQuantity
  crosses : crosses f.trade.price = true
  positive : 0 < f.trade.quantity
  aggressorOrderId : f.trade.aggressorOrderId = aggressor.orderId
  aggressorAccountId : f.trade.aggressorAccountId = aggressor.accountId
  aggressorSide : f.trade.aggressorSide = aggressor.side
  symbol : f.trade.symbol = aggressor.symbol

/-- The passive party of an execution rested on the side when the call began. -/
theorem FillOk.passive {s : OrderSide} {aggressor : Order} {crosses : Int → Bool}
    {ls₀ : Levels} {f : Fill} (h : FillOk s aggressor crosses ls₀ f) :
    ∃ o ∈ Levels.orders ls₀, o.orderId = f.trade.passiveOrderId
      ∧ o.accountId = f.trade.passiveAccountId ∧ o.price = f.trade.price ∧ o.side = s := by
  obtain ⟨y, rest, behind, hres, hid, hacc, -⟩ := h.head
  have hy : y ∈ Levels.orders f.resting := by rw [hres]; exact List.mem_cons_self ..
  have hside := h.side
  rw [hres] at hside
  obtain ⟨⟨hys, hyp⟩, -⟩ := hside.head y (List.mem_cons_self ..)
  obtain ⟨o, ho, hv⟩ := h.versions y hy
  exact ⟨o, ho, by rw [hid, hv.orderId], by rw [hacc, hv.accountId], by rw [← hyp, hv.price],
    by rw [← hys, hv.side]⟩

/-- The state of a sweep over side `s` that started from the levels `ls₀`. -/
structure SweepInv (s : OrderSide) (aggressor : Order) (crosses : Int → Bool) (ls₀ : Levels)
    (ls : Levels) (st : Sweep) : Prop where
  side : SideOk s ls
  versions : ∀ o ∈ Levels.orders ls, ∃ o₀ ∈ Levels.orders ls₀, VersionOf o o₀
  fills : ∀ f ∈ st.fills, FillOk s aggressor crosses ls₀ f

theorem sweepInv_fill [PoppedId] (amb : Ambient) (s : OrderSide) (aggressor : Order)
    (crosses : Int → Bool) (ls₀ : Levels) :
    KeptByFill amb aggressor crosses (SweepInv s aggressor crosses ls₀) := by
  intro p passive rest behind st hc hrem h
  have hpos : 0 < passive.remainingQuantity :=
    (h.side.head passive (List.mem_cons_self ..)).2
  have hv : VersionOf (fillFront amb aggressor p passive rest behind st).1 passive :=
    versionOf_withRemainingQuantity _ _ _
  refine ⟨sideOk_afterFill h.side hv, ?_, ?_⟩
  · -- only the front order is replaced, by a version of itself
    intro o ho
    have hmem : o = (fillFront amb aggressor p passive rest behind st).1
        ∨ o ∈ rest ++ Levels.orders behind := by
      rw [orders_afterFill] at ho
      split at ho
      · exact List.mem_cons.mp ho
      · exact Or.inr ho
    rcases hmem with rfl | hmem
    · obtain ⟨o₀, ho₀, hv₀⟩ := h.versions passive (List.mem_cons_self ..)
      exact ⟨o₀, ho₀, hv.trans hv₀⟩
    · exact h.versions o (List.mem_cons_of_mem _ hmem)
  · intro f hf
    rcases List.mem_append.mp hf with hf | hf
    · exact h.fills f hf
    · rw [List.mem_singleton.mp hf]
      exact {
        side := h.side
        versions := h.versions
        head := ⟨passive, rest, behind, rfl, rfl, rfl, min_le_right _ _⟩
        crosses := hc
        positive := lt_min hrem hpos
        aggressorOrderId := rfl
        aggressorAccountId := rfl
        aggressorSide := rfl
        symbol := rfl }

/-- **What every sweep of a well-formed side establishes.** -/
theorem sweepInv [PoppedId] (amb : Ambient) {s : OrderSide} (aggressor : Order) (crosses : Int → Bool)
    {ls : Levels} {st : Sweep} (h : SideOk s ls) (hst : st.fills = []) :
    SweepInv s aggressor crosses ls (matchSide amb aggressor crosses ls st).1
      (matchSide amb aggressor crosses ls st).2 := by
  refine matchSide_rule (sweepInv_fill amb s aggressor crosses ls) ls st h.nonempty ⟨h, ?_, ?_⟩
  · exact fun o ho => ⟨o, ho, VersionOf.refl o⟩
  · intro f hf; rw [hst] at hf; exact absurd hf (by simp)

end TitanX.Proof
