import TitanX.Proof.BookRun

/-!
# Price-time priority

Time priority is not stored anywhere: it is the position in a queue. Priority is
therefore a statement about the order of a side read as one list, best level first
and oldest order first (`OrderBook.resting`): the list is pairwise ranked by
`Before`, a better price or the same price and an earlier arrival.

A ranking that looks only at ids and prices survives every move of the book
(`Ranked`): a fill replaces the head of the list or drops it, a removal takes a
sublist, and an insertion goes behind the last order that is not worse. The same
argument, for a different ranking, says that an order once hit stays at the head of
its level (`Leads`).
-/

namespace TitanX.Proof

open TitanX OrderBook

/-! ## Rankings -/

/-- `R` looks only at what a fill leaves alone. -/
def IgnoresFills (R : Order → Order → Prop) : Prop :=
  ∀ x y x' y', VersionOf x' x → VersionOf y' y → R x y → R x' y'

/-- Both sides are ranked by `R`. -/
def Ranked (R : OrderSide → Order → Order → Prop) (b : OrderBook) : Prop :=
  ∀ s, (b.resting s).Pairwise (R s)

/-- `order` is ranked behind what is not worse than it on its side, and before the rest. -/
def Placed (R : OrderSide → Order → Order → Prop) (b : OrderBook) (order : Order) : Prop :=
  ∀ x ∈ b.resting order.side,
    (better order.side x.price order.price ∨ x.price = order.price → R order.side x order)
      ∧ (better order.side order.price x.price → R order.side order x)

theorem ranked_fill {R : Order → Order → Prop} (hR : IgnoresFills R) (amb : Ambient)
    (aggressor : Order) (crosses : Int → Bool) :
    KeptByFill amb aggressor crosses (fun ls st => (Levels.orders ls).Pairwise R
      ∧ ∀ f ∈ st.fills, (Levels.orders f.resting).Pairwise R) := by
  rintro p passive rest behind st - - ⟨hls, hfills⟩
  obtain ⟨hhead, htail⟩ := List.pairwise_cons.mp hls
  refine ⟨?_, fun f hf => ?_⟩
  · rw [orders_afterFill]
    split
    · refine List.pairwise_cons.mpr ⟨fun x hx => ?_, htail⟩
      exact hR _ _ _ _ (versionOf_withRemainingQuantity _ _ _) (VersionOf.refl x) (hhead x hx)
    · exact htail
  · rcases List.mem_append.mp hf with hf | hf
    · exact hfills f hf
    · rw [List.mem_singleton.mp hf]; exact hls

section Moves

variable {R : OrderSide → Order → Order → Prop} {b : OrderBook} (h : RepInv b) (hb : Ranked R b)

include h hb

/-- A sweep keeps the ranking, and each of its trades found the passive side ranked. -/
theorem ranked_sweep (hR : ∀ s, IgnoresFills (R s)) (amb : Ambient) (aggressor : Order)
    (crosses : Int → Bool) :
    Ranked R (b.sweep amb aggressor crosses).2
      ∧ ∀ f ∈ (b.sweep amb aggressor crosses).1.fills,
          (Levels.orders f.resting).Pairwise (R aggressor.side.opposite) := by
  have hloop := matchSide_rule (ranked_fill (hR aggressor.side.opposite) amb aggressor crosses)
    (b.levels aggressor.side.opposite).entries (sweepStart b aggressor) (h.side _).nonempty
    ⟨hb aggressor.side.opposite, fun f hf => absurd hf (by simp [sweepStart])⟩
  refine ⟨fun s => ?_, hloop.2⟩
  rcases OrderSide.eq_or_opposite aggressor.side s with rfl | rfl
  · rw [sweep_resting_own]; exact hb _
  · rw [sweep_resting_opposite]; exact hloop.1

theorem ranked_insert {order : Order} (hplace : Placed R b order) :
    Ranked R (b.insertIntoBook order) := by
  intro s
  rcases OrderSide.eq_or_opposite order.side s with rfl | rfl
  · -- behind the equal and better prices, before the worse
    obtain ⟨pre, post, hold, hnew, hpre, hpost⟩ := pushBack_place (h.side order.side) order
    have hmem : ∀ x, x ∈ pre ++ post → x ∈ b.resting order.side := fun x hx => by
      rw [resting, hold]; exact hx
    have hside := hb order.side
    rw [resting, hold] at hside
    obtain ⟨h₁, h₂, hcross⟩ := List.pairwise_append.mp hside
    rw [resting, insert_levels_own, hnew]
    refine List.pairwise_append.mpr ⟨h₁, List.pairwise_cons.mpr ⟨fun x hx => ?_, h₂⟩, ?_⟩
    · exact (hplace x (hmem x (List.mem_append_right _ hx))).2 (hpost x hx)
    · intro x hx y hy
      rcases List.mem_cons.mp hy with rfl | hy
      · exact (hplace x (hmem x (List.mem_append_left _ hx))).1 (hpre x hx)
      · exact hcross x hx y hy
  · rw [resting, insert_levels_of_ne b order (OrderSide.opposite_ne _)]; exact hb _

theorem ranked_remove (id : String) : Ranked R (b.removeFromBook id).2 := by
  intro s
  rcases removeFromBook_cases h id with ⟨-, heq⟩ | ⟨_, -, -, heq⟩ | ⟨_, -, -, -, hr⟩
  · rw [heq]; exact hb s
  · rw [heq, resting, levels_mk]; exact hb s
  · rw [hr.resting]; exact (hb s).filter _

end Moves

theorem placed_remainder {R : OrderSide → Order → Order → Prop} {b : OrderBook}
    (hR : ∀ s, IgnoresFills (R s)) (amb : Ambient) {incoming : Order}
    (hplace : Placed R b incoming) :
    Placed R (b.sweep amb incoming (crossesLimit incoming)).2 (remainder b amb incoming) := by
  intro x hx
  have hx' : x ∈ b.resting incoming.side := by
    have : x ∈ (b.sweep amb incoming (crossesLimit incoming)).2.resting incoming.side := hx
    rwa [sweep_resting_own] at this
  have hv : VersionOf (remainder b amb incoming) incoming := versionOf_withRemainingQuantity _ _ _
  exact ⟨fun hp => hR _ _ _ _ _ (VersionOf.refl x) hv ((hplace x hx').1 hp),
    fun hp => hR _ _ _ _ _ hv (VersionOf.refl x) ((hplace x hx').2 hp)⟩

/-- A call keeps a ranking that the incoming order fits into, and each of its trades
found the passive side ranked. -/
theorem ranked_match {R : OrderSide → Order → Order → Prop} {b : OrderBook} (h : RepInv b)
    (hR : ∀ s, IgnoresFills (R s)) (hb : Ranked R b) (amb : Ambient) {incoming : Order}
    (hfresh : NotResting b incoming.orderId) (hplace : Placed R b incoming) :
    Ranked R (b.matchIncoming amb incoming).2
      ∧ ∀ f ∈ (b.matchIncoming amb incoming).1,
          (Levels.orders f.resting).Pairwise (R incoming.side.opposite) := by
  have hsw := ranked_sweep h hb hR amb incoming
  refine ⟨?_, ?_⟩
  · refine (match_rule (P := Ranked R) (Q := Ranked R) h hfresh hb (fun crosses => (hsw crosses).1)
      (fun _ hP => hP) ?_ (fun b' hrep hQ => ranked_remove hrep hQ _)).2
    exact fun _ _ hrep hP => ranked_insert hrep hP (placed_remainder hR amb hplace)
  · exact matchIncoming_rule
      (P := fun fills _ => ∀ f ∈ fills, (Levels.orders f.resting).Pairwise (R incoming.side.opposite))
      (Q := fun fills _ => ∀ f ∈ fills, (Levels.orders f.resting).Pairwise (R incoming.side.opposite))
      (fun f hf => absurd hf (by simp)) (fun crosses => (hsw crosses).2) (fun _ _ hP => hP)
      (fun _ _ hP => hP) (fun _ _ hQ => hQ)

/-! ## Arrival -/

/-- When the order `id` was submitted, as a position in the sequence of submissions. -/
def arrival (ops : List BookOp) (id : String) : Nat :=
  ((submitted ops).map Order.orderId).idxOf id

/-- `x` has priority over `y`. -/
def Before (ops : List BookOp) (s : OrderSide) (x y : Order) : Prop :=
  better s x.price y.price
    ∨ (x.price = y.price ∧ arrival ops x.orderId < arrival ops y.orderId)

theorem arrival_append {ops : List BookOp} (ops' : List BookOp) {x : Order}
    (hx : x ∈ submitted ops) : arrival (ops ++ ops') x.orderId = arrival ops x.orderId := by
  unfold arrival
  rw [submitted_append, List.map_append, List.idxOf_append_of_mem (List.mem_map_of_mem hx)]

/-- Whatever was submitted before the last order arrived before it. -/
theorem arrival_lt_last {ops : List BookOp} {amb : Ambient} {o : Order}
    (hd : DistinctIds (ops ++ [.matchIncoming amb o])) {x : Order} (hx : x ∈ submitted ops) :
    arrival (ops ++ [.matchIncoming amb o]) x.orderId
      < arrival (ops ++ [.matchIncoming amb o]) o.orderId := by
  have hnew : o.orderId ∉ (submitted ops).map Order.orderId := fun hmem => by
    obtain ⟨y, hy, heq⟩ := List.mem_map.mp hmem
    exact hd.last_new y hy heq
  rw [arrival_append _ hx]
  unfold arrival
  rw [submitted_snoc_match, List.map_append, List.idxOf_append_of_notMem hnew]
  have := List.idxOf_lt_length_of_mem (List.mem_map_of_mem (f := Order.orderId) hx)
  omega

theorem before_ignoresFills (ops : List BookOp) (s : OrderSide) : IgnoresFills (Before ops s) := by
  intro x y x' y' hx hy hxy
  unfold Before
  rw [hx.price, hy.price, hx.orderId, hy.orderId]; exact hxy

section Arrival

variable {symbol : String} {ops : List BookOp}

/-- Orders that were submitted keep their ranking as the run goes on. -/
theorem before_append {L : List Order} {s : OrderSide} (ops' : List BookOp)
    (hL : ∀ x ∈ L, ∃ x₀ ∈ submitted ops, VersionOf x x₀) (h : L.Pairwise (Before ops s)) :
    L.Pairwise (Before (ops ++ ops') s) := by
  refine h.imp_of_mem (fun {x y} hx hy hxy => ?_)
  obtain ⟨x₀, hx₀, hvx⟩ := hL x hx
  obtain ⟨y₀, hy₀, hvy⟩ := hL y hy
  unfold Before
  rw [hvx.orderId, hvy.orderId, arrival_append ops' hx₀, arrival_append ops' hy₀, ← hvx.orderId,
    ← hvy.orderId]
  exact hxy

theorem RunInv.ranked_append {b : OrderBook} (h : RunInv ops b) (ops' : List BookOp)
    (hb : Ranked (Before ops) b) : Ranked (Before (ops ++ ops')) b := fun s =>
  before_append ops' (fun x hx => h.versions x (mem_allOrders.mpr ⟨s, hx⟩)) (hb s)

/-- A new order is behind its equals in price. -/
theorem placed_last {b : OrderBook} (h : RunInv ops b) {amb : Ambient} {o : Order}
    (hd : DistinctIds (ops ++ [.matchIncoming amb o])) :
    Placed (Before (ops ++ [.matchIncoming amb o])) b o := by
  intro x hx
  obtain ⟨x₀, hx₀, hv⟩ := h.versions x (mem_allOrders.mpr ⟨_, hx⟩)
  refine ⟨fun hp => ?_, Or.inl⟩
  rcases hp with hp | hp
  · exact Or.inl hp
  · exact Or.inr ⟨hp, by rw [hv.orderId]; exact arrival_lt_last hd hx₀⟩

/-- **The queues are in arrival order in every reachable book.** -/
theorem before_reachable (symbol : String) (h : DistinctIds ops) :
    Ranked (Before ops) (bookAfter symbol ops) := by
  refine run_invariant OrderBook.step (P := fun ops b => Ranked (Before ops) b)
    (fun _ _ hok => hok.init) ?_ ?_ ops h
  · intro s; cases s <;> exact List.Pairwise.nil
  · intro is op hok hp
    have hinv := runInv_reachable symbol hok.init
    have hp' := hinv.ranked_append [op] hp
    cases op with
    | matchIncoming amb o =>
        exact (ranked_match hinv.rep (before_ignoresFills _) hp' amb
          (hinv.notResting hok.last_new) (placed_last hinv hok)).1
    | removeFromBook id => exact ranked_remove hinv.rep hp' id

/-- Every trade found the passive side in priority order. -/
theorem before_fills (h : DistinctIds ops) {f : Fill} (hf : f ∈ fillsOf symbol ops) :
    (Levels.orders f.resting).Pairwise (Before ops f.trade.aggressorSide.opposite) := by
  obtain ⟨pre, amb, o, post, rfl, hcall⟩ := mem_fillsOf hf
  rw [List.append_cons] at h ⊢
  have hd := h.of_append
  have hinv := runInv_reachable symbol hd.init
  obtain ⟨_, hok⟩ := match_fillOk hinv.rep amb o f hcall
  have hp := (ranked_match hinv.rep (before_ignoresFills _)
    (hinv.ranked_append [.matchIncoming amb o] (before_reachable symbol hd.init)) amb
    (hinv.notResting hd.last_new) (placed_last hinv hd)).2 f hcall
  rw [hok.aggressorSide]
  -- the calls after this one do not change the arrival of earlier orders
  refine before_append post (fun x hx => ?_) hp
  obtain ⟨x₀, hx₀, hv⟩ := hok.versions x hx
  obtain ⟨x₁, hx₁, hv'⟩ := hinv.versions x₀ (mem_allOrders.mpr ⟨_, hx₀⟩)
  refine ⟨x₁, ?_, hv.trans hv'⟩
  rw [submitted_snoc_match]; exact List.mem_append_left _ hx₁

end Arrival

/-! ## Orders that have been hit -/

/-- The order `id` has been the passive party of a trade. -/
def Hit (fills : List Fill) (id : String) : Prop :=
  ∃ f ∈ fills, f.trade.passiveOrderId = id

theorem hit_append {fills fills' : List Fill} {id : String} :
    Hit (fills ++ fills') id ↔ Hit fills id ∨ Hit fills' id := by
  simp only [Hit, List.mem_append, or_and_right, exists_or]

/-- Only better prices are ranked before an order that has been hit. -/
def Leads (fills : List Fill) (s : OrderSide) (x y : Order) : Prop :=
  Hit fills y.orderId → better s x.price y.price

/-- A fill hits the front order. -/
theorem hit_fillFront (amb : Ambient) (aggressor : Order) (p : Int) (passive : Order)
    (rest : List Order) (behind : Levels) (st : Sweep) (fills₀ : List Fill) (id : String) :
    Hit (fills₀ ++ (fillFront amb aggressor p passive rest behind st).2.fills) id
      ↔ Hit (fills₀ ++ st.fills) id ∨ passive.orderId = id := by
  dsimp only [fillFront]
  rw [← List.append_assoc, hit_append]
  simp [Hit, Trade.create]

/-- The order that a trade hits is first of all, so nothing has to make way for it. -/
theorem leads_fill (amb : Ambient) (aggressor : Order) (crosses : Int → Bool) (s : OrderSide)
    (fills₀ : List Fill) :
    KeptByFill amb aggressor crosses (fun ls st =>
      ((Levels.orders ls).map Order.orderId).Nodup
        ∧ (Levels.orders ls).Pairwise (Leads (fills₀ ++ st.fills) s)) := by
  rintro p passive rest behind st - - ⟨hnd, hls⟩
  have hcons : Levels.orders ((p, passive :: rest) :: behind)
      = passive :: (rest ++ Levels.orders behind) := rfl
  rw [hcons, List.map_cons] at hnd
  obtain ⟨hne, hnd'⟩ := List.nodup_cons.mp hnd
  obtain ⟨hhead, htail⟩ := List.pairwise_cons.mp (hcons ▸ hls)
  -- an order further back is not the one just hit
  have hold : ∀ x y, y ∈ rest ++ Levels.orders behind → Leads (fills₀ ++ st.fills) s x y →
      Leads (fills₀ ++ (fillFront amb aggressor p passive rest behind st).2.fills) s x y := by
    intro x y hy hxy hhit
    rcases (hit_fillFront ..).mp hhit with hhit | hid
    · exact hxy hhit
    · exact absurd (List.mem_map_of_mem hy) (hid ▸ hne)
  have htail' := htail.imp_of_mem (fun {x y} _ hy hxy => hold x y hy hxy)
  rw [orders_afterFill]
  split
  · refine ⟨?_, List.pairwise_cons.mpr ⟨fun y hy => ?_, htail'⟩⟩
    · rw [List.map_cons]; exact List.nodup_cons.mpr ⟨hne, hnd'⟩
    · exact hold _ y hy (hhead y hy)
  · exact ⟨hnd', htail'⟩

section Hit

variable {b : OrderBook} (h : RepInv b) {fills₀ : List Fill} (hb : Ranked (Leads fills₀) b)
  (amb : Ambient)

include h hb

theorem leads_sweep (aggressor : Order) (crosses : Int → Bool) :
    Ranked (Leads (fills₀ ++ (b.sweep amb aggressor crosses).1.fills))
      (b.sweep amb aggressor crosses).2 := by
  have hnd := ((allOrders_perm b aggressor.side).map Order.orderId).nodup_iff.mp h.index.distinct
  rw [List.map_append] at hnd
  obtain ⟨-, hopp, hcross⟩ := List.nodup_append.mp hnd
  intro s
  rcases OrderSide.eq_or_opposite aggressor.side s with rfl | rfl
  · -- a sweep hits nothing on the aggressor's own side
    rw [sweep_resting_own]
    refine (hb aggressor.side).imp_of_mem (fun {x y} _ hy hxy hhit => hxy ?_)
    rcases hit_append.mp hhit with hhit | ⟨f, hf, hid⟩
    · exact hhit
    · obtain ⟨o, ho, hoid, -⟩ := (sweep_fillOk h amb aggressor crosses f hf).passive
      refine absurd ?_ (hcross _ (List.mem_map_of_mem hy) _ (List.mem_map_of_mem ho))
      rw [hoid, hid]
  · rw [sweep_resting_opposite]
    refine (matchSide_rule (leads_fill amb aggressor crosses aggressor.side.opposite fills₀) _ _
      (h.side _).nonempty ⟨hopp, ?_⟩).2
    simpa [sweepStart, resting] using hb aggressor.side.opposite

theorem leads_match {incoming : Order} (hfresh : NotResting b incoming.orderId)
    (hnew : ¬ Hit fills₀ incoming.orderId) :
    Ranked (Leads (fills₀ ++ (b.matchIncoming amb incoming).1))
      (b.matchIncoming amb incoming).2 := by
  refine (matchIncoming_rule
    (P := fun fills b' => RepInv b' ∧ Ranked (Leads (fills₀ ++ fills)) b')
    (Q := fun fills b' => RepInv b' ∧ Ranked (Leads (fills₀ ++ fills)) b')
    ⟨h, by rw [List.append_nil]; exact hb⟩
    (fun crosses => ⟨repInv_sweep h amb incoming crosses, leads_sweep h hb amb incoming crosses⟩)
    (fun _ _ hP => hP) ?_
    (fun _ _ hQ => ⟨repInv_remove hQ.1 _, ranked_remove hQ.1 hQ.2 _⟩)).2
  rintro - hrem ⟨hrep, hP⟩
  refine ⟨repInv_insert hrep hrem (notResting_sweep h hfresh amb incoming _),
    ranked_insert hrep hP (fun x _ => ⟨fun _ hhit => ?_, fun hp _ => hp⟩)⟩
  -- the incoming order has not been hit, so it need not lead
  rcases hit_append.mp hhit with hhit | ⟨f, hf, hid⟩
  · exact absurd hhit hnew
  · obtain ⟨o, ho, hoid, -⟩ := (sweep_fillOk h amb incoming _ f hf).passive
    exact absurd (hoid.trans hid) (hfresh o (mem_allOrders.mpr ⟨_, ho⟩))

end Hit

/-- **Orders that have been hit lead their levels in every reachable book.** -/
theorem leads_reachable (symbol : String) {ops : List BookOp} (h : DistinctIds ops) :
    Ranked (Leads (fillsOf symbol ops)) (bookAfter symbol ops) := by
  refine run_invariant OrderBook.step (P := fun ops b => Ranked (Leads (fillsOf symbol ops)) b)
    (fun _ _ hok => hok.init) ?_ ?_ ops h
  · intro s; cases s <;> exact List.Pairwise.nil
  · intro is op hok hp
    have hinv := runInv_reachable symbol hok.init
    rw [fillsOf_snoc]
    cases op with
    | matchIncoming amb o =>
        refine leads_match hinv.rep hp amb (hinv.notResting hok.last_new) ?_
        -- an order that was hit had been submitted, so it is not this one
        rintro ⟨f, hf, hid⟩
        obtain ⟨pre, amb', o', post, rfl, hcall⟩ := mem_fillsOf hf
        obtain ⟨y, hy, hy', -⟩ := (runInv_reachable symbol hok.init.of_append).passive hcall
        refine hok.last_new y ?_ (hy'.symm.trans hid)
        rw [submitted_append]; exact List.mem_append_left _ hy
    | removeFromBook id =>
        have : fillsOf symbol is ++ ((bookAfter symbol is).step (.removeFromBook id)).2.fills
            = fillsOf symbol is := List.append_nil _
        rw [this]
        exact ranked_remove hinv.rep hp id

/-- In terms of the queues: the order is at the front of its own. -/
theorem Ranked.front {b : OrderBook} (h : RepInv b) {fills : List Fill}
    (hb : Ranked (Leads fills) b) {s : OrderSide} {l : Int × List Order}
    (hl : l ∈ (b.levels s).entries) {o : Order} (ho : o ∈ l.2) (hhit : Hit fills o.orderId) :
    l.2.head? = some o := by
  obtain ⟨p, queue⟩ := l
  have hsub : queue.Sublist (b.resting s) := by
    obtain ⟨l₁, l₂, hcut⟩ := List.append_of_mem hl
    rw [resting, hcut, orders_append, orders_cons]
    exact (List.sublist_append_left _ _).trans (List.sublist_append_right _ _)
  cases queue with
  | nil => exact absurd ho List.not_mem_nil
  | cons x rest =>
      rcases List.mem_cons.mp ho with rfl | hrest
      · rfl
      · -- the front order would have a better price, but they share their level's
        have hlt := (List.pairwise_cons.mp ((hb s).sublist hsub)).1 o hrest hhit
        rw [((h.side s).keyed _ hl x (List.mem_cons_self ..)).2,
          ((h.side s).keyed _ hl o ho).2] at hlt
        exact absurd hlt (irrefl_of (better s) p)

/--
**Price-time priority.** Whenever a trade is executed, its passive party `y` is the
first order of its side, and every other order resting there has a worse price or
the same price and a later arrival. An order that has been the passive party of a
trade is at the front of its level in every later book it rests in.
-/
theorem price_time_priority (symbol : String) {ops : List BookOp} (h : DistinctIds ops) :
    (∀ f ∈ fillsOf symbol ops, ∃ y others, Levels.orders f.resting = y :: others
        ∧ y.orderId = f.trade.passiveOrderId ∧ y.side = f.trade.aggressorSide.opposite
        ∧ ∀ x ∈ others, x.side = y.side
          ∧ (better y.side y.price x.price
            ∨ (x.price = y.price ∧ arrival ops y.orderId < arrival ops x.orderId)))
      ∧ (∀ f ∈ fillsOf symbol ops, ∀ s, ∀ l ∈ ((bookAfter symbol ops).levels s).entries,
          ∀ o ∈ l.2, o.orderId = f.trade.passiveOrderId → l.2.head? = some o) := by
  refine ⟨fun f hf => ?_, fun f hf s l hl o ho hid => ?_⟩
  · have hrank := before_fills h hf
    obtain ⟨pre, amb, o, post, rfl, hcall⟩ := mem_fillsOf hf
    obtain ⟨_, hok⟩ := match_fillOk (runInv_reachable symbol h.of_append).rep amb o f hcall
    obtain ⟨y, rest, behind, hres, hid, -⟩ := hok.head
    have horders : Levels.orders f.resting = y :: (rest ++ Levels.orders behind) := by
      rw [hres]; rfl
    have hside : ∀ x ∈ Levels.orders f.resting, x.side = f.trade.aggressorSide.opposite :=
      fun x hx => by rw [hok.aggressorSide]; exact (hok.side.mem hx).1
    rw [horders] at hrank hside
    have hy := hside y (List.mem_cons_self ..)
    refine ⟨y, _, horders, hid.symm, hy, fun x hx => ?_⟩
    refine ⟨(hside x (List.mem_cons_of_mem _ hx)).trans hy.symm, ?_⟩
    rcases (List.pairwise_cons.mp hrank).1 x hx with hp | ⟨hp, ha⟩
    · exact Or.inl (hy ▸ hp)
    · exact Or.inr ⟨hp.symm, ha⟩
  · exact (leads_reachable symbol h).front (runInv_reachable symbol h).rep hl ho ⟨f, hf, hid.symm⟩

/-- Two sells at one price and a better one; two buys take the better one and part of
the first. -/
def priorityRun : List BookOp :=
  [.matchIncoming still (Order.create "x" 0 "A" "AAPL" .sell .limit 100 0 5),
    .matchIncoming still (Order.create "y" 0 "B" "AAPL" .sell .limit 100 0 5),
    .matchIncoming still (Order.create "z" 0 "C" "AAPL" .sell .limit 99 0 5),
    .matchIncoming still (Order.create "u" 0 "D" "AAPL" .buy .market 0 0 5),
    .matchIncoming still (Order.create "v" 0 "D" "AAPL" .buy .limit 100 0 2)]

theorem price_time_priority_run :
    (fillsOf "AAPL" priorityRun).map (fun f => (f.trade.passiveOrderId, f.trade.quantity))
        = [("z", 5), ("x", 2)]
      ∧ ∀ f ∈ fillsOf "AAPL" priorityRun, ∀ s,
          ∀ l ∈ ((bookAfter "AAPL" priorityRun).levels s).entries,
            ∀ o ∈ l.2, o.orderId = f.trade.passiveOrderId → l.2.head? = some o :=
  ⟨by decide, (price_time_priority "AAPL" (by decide)).2⟩

end TitanX.Proof
