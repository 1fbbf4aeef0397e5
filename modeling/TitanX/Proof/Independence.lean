import TitanX.Lib.Footprint
import TitanX.Proof.EngineRun

/-!
# Calls on different symbols

The parts of the engine that `submit` threads its order through are shared by all symbols,
but each is a map, and the order has its own keys in them: its symbol, its account and
its id. A `submit` looks at and writes these places only (`submit_within`), besides the
kill switch, which it only looks at; a `cancel` looks at one book and its lock. So calls
with different keys commute (`independent_commute`), from any state of the engine, also
one that no run leads to.
-/

namespace TitanX.Proof

open TitanX

/-! ## The places of the risk engine -/

inductive RiskPlace where
  | position (account : String)
  | active (side : OrderSide) (account : String)
  | seen (orderId : String)
  | lastPrice (symbol : String)
  | haltFlag (symbol : String)
  | reference (symbol : String)
  | window (symbol : String)

def RiskPlace.contents : RiskPlace → Setoid RiskEngine
  | .position account => Setoid.ker (fun r => r.positions.lookup account)
  | .active side account => Setoid.ker (fun r => (r.active side).lookup account)
  | .seen orderId => Setoid.ker (fun r => orderId ∈ r.seenOrderIds)
  | .lastPrice symbol => Setoid.ker (fun r => r.lastTradePrices.lookup symbol)
  | .haltFlag symbol => Setoid.ker (fun r => r.circuitBreaker.data.symbolHalts.lookup symbol)
  | .reference symbol => Setoid.ker (fun r => r.circuitBreaker.data.referencePrice.lookup symbol)
  | .window symbol => Setoid.ker (fun r => r.circuitBreaker.data.windowStart.lookup symbol)

/-- The place is one of the order's own. -/
def RiskPlace.OwnedBy (order : Order) : RiskPlace → Prop
  | .position account => account = order.accountId
  | .active _ account => account = order.accountId
  | .seen orderId => orderId = order.orderId
  | .lastPrice symbol => symbol = order.symbol
  | .haltFlag symbol => symbol = order.symbol
  | .reference symbol => symbol = order.symbol
  | .window symbol => symbol = order.symbol

/-- An operation of the risk engine at the places of an order. -/
def OwnRisk {α : Type} (order : Order) (op : RiskEngine → α × RiskEngine) : Prop :=
  Within RiskPlace.contents {p | p.OwnedBy order} {p | p.OwnedBy order} op

section Risk

variable {order : Order} {α : Type}

/-- A step at no place at all. -/
theorem OwnRisk.count {a : α} {f : RiskEngine → RiskEngine}
    (hf : ∀ r p, (RiskPlace.contents p).r (f r) r) : OwnRisk order (fun r => (a, f r)) :=
  .write (Set.empty_subset _) (fun r p _ => hf r p) (fun _ _ _ _ hp => hp.elim)

/-- A step at one place of the order. -/
theorem OwnRisk.writeAt {q : RiskPlace} (hq : q.OwnedBy order) {f : RiskEngine → RiskEngine}
    (hframe : ∀ r, ∀ p ≠ q, (RiskPlace.contents p).r (f r) r)
    (hown : ∀ r r', AgreeOn RiskPlace.contents {p | p.OwnedBy order} r r' →
      (RiskPlace.contents q).r (f r) (f r')) : OwnRisk order (fun r => ((), f r)) := by
  refine .write (Q := {q}) (Set.singleton_subset_iff.mpr hq) hframe (fun r r' h p hp => ?_)
  rw [Set.mem_singleton_iff.mp hp]
  exact hown r r' h

theorem reject_within (reason : String) : OwnRisk order (fun r => r.reject reason) :=
  OwnRisk.count (fun _ p => by cases p <;> rfl)

theorem enter_within :
    OwnRisk order (fun r => ((), { r with seenOrderIds := insert order.orderId r.seenOrderIds })) := by
  refine .writeAt (q := .seen order.orderId) rfl (fun r p hp => ?_) (fun r r' _ => ?_)
  · cases p with
    | seen orderId =>
        have hne : orderId ≠ order.orderId := fun heq => hp (congrArg RiskPlace.seen heq)
        show (orderId ∈ insert order.orderId r.seenOrderIds) = (orderId ∈ r.seenOrderIds)
        rw [Finset.mem_insert, eq_false hne, false_or]
    | _ => rfl
  · show (order.orderId ∈ insert order.orderId r.seenOrderIds)
      = (order.orderId ∈ insert order.orderId r'.seenOrderIds)
    rw [eq_true (Finset.mem_insert_self ..), eq_true (Finset.mem_insert_self ..)]

theorem track_within : OwnRisk order (fun r => ((), r.trackOrder order)) := by
  refine .writeAt (q := .active order.side order.accountId) rfl (fun r p hp => ?_)
    (fun r r' h => ?_)
  · cases p with
    | active side account =>
        refine (active_trackOrder r order side account).trans (if_neg ?_)
        rintro ⟨rfl, rfl⟩
        exact hp rfl
    | _ => unfold RiskEngine.trackOrder; cases order.side <;> rfl
  · have hids : r.activeOrders order.side order.accountId
        = r'.activeOrders order.side order.accountId :=
      congrArg (Option.getD · ∅) (h (.active order.side order.accountId) rfl)
    show ((r.trackOrder order).active order.side).lookup order.accountId
      = ((r'.trackOrder order).active order.side).lookup order.accountId
    rw [active_trackOrder, active_trackOrder, hids, if_pos ⟨rfl, rfl⟩, if_pos ⟨rfl, rfl⟩]

/-- Risk engines with the same at the places of an order. -/
abbrev Same (order : Order) : RiskEngine → RiskEngine → Prop :=
  AgreeOn RiskPlace.contents {p | p.OwnedBy order}

section Reads

variable {r r' : RiskEngine} (h : Same order r r')

include h

theorem Same.haltFlag : r.circuitBreaker.data.haltFlag order.symbol
    = r'.circuitBreaker.data.haltFlag order.symbol :=
  congrArg (Option.getD · false) (h (.haltFlag order.symbol) rfl)

theorem Same.positionExceeded : r.positionExceeded order = r'.positionExceeded order := by
  have hrow : r.positions.lookup order.accountId = r'.positions.lookup order.accountId :=
    h (.position order.accountId) rfl
  unfold RiskEngine.positionExceeded RiskEngine.getNetPosition
  rw [hrow]

theorem Same.fatFinger : r.fatFinger order = r'.fatFinger order := by
  have hlast : r.lastTradePrices.lookup order.symbol = r'.lastTradePrices.lookup order.symbol :=
    h (.lastPrice order.symbol) rfl
  unfold RiskEngine.fatFinger
  rw [hlast]

theorem Same.selfTrade : r.selfTrade order = r'.selfTrade order := by
  have hopp : (r.active order.side.opposite).lookup order.accountId
      = (r'.active order.side.opposite).lookup order.accountId :=
    h (.active order.side.opposite order.accountId) rfl
  unfold RiskEngine.selfTrade RiskEngine.activeOrders
  rw [hopp]

end Reads

/-- The risk check looks at the order's places only. -/
theorem check_within : OwnRisk order (fun r => LockFree.checkPreTrade r order) := by
  have happrove : OwnRisk order (fun r => (RiskResult.approve, r.trackOrder order)) :=
    track_within.bind (fun _ => .pure RiskResult.approve)
  have hlater : OwnRisk order (fun r =>
      if RiskEngine.notionalExceeded order then r.reject "NOTIONAL_LIMIT_EXCEEDED"
      else if r.positionExceeded order then r.reject "POSITION_LIMIT_EXCEEDED"
      else if r.fatFinger order then r.reject "FAT_FINGER_PRICE_DEVIATION"
      else if r.selfTrade order then r.reject "SELF_TRADE_PREVENTION"
      else (RiskResult.approve, r.trackOrder order)) :=
    .ite (fun _ _ _ => Iff.rfl) (reject_within _)
      (.ite (fun _ _ h => by rw [Same.positionExceeded h]) (reject_within _)
        (.ite (fun _ _ h => by rw [Same.fatFinger h]) (reject_within _)
          (.ite (fun _ _ h => by rw [Same.selfTrade h]) (reject_within _) happrove)))
  have hchecks : OwnRisk order (fun r =>
      r.checkOrder (r.circuitBreaker.data.haltFlag order.symbol) order) :=
    .ite (fun _ _ h => by rw [Same.haltFlag h]) (reject_within _)
      (.ite (fun _ _ h => iff_of_eq (h (.seen order.orderId) rfl)) (reject_within _)
        (enter_within.bind (fun _ => hlater)))
  have hcount : OwnRisk order (fun r => ((), { r with totalChecked := r.totalChecked + 1 })) :=
    OwnRisk.count (fun _ p => by cases p <;> rfl)
  exact hcount.bind (fun _ => hchecks)

/-! ## Fills -/

theorem recordFill_within {symbol : String} {side : OrderSide} {quantity : Int} :
    OwnRisk order (fun r => ((), r.recordFill order.accountId symbol side quantity)) := by
  refine .writeAt (q := .position order.accountId) rfl (fun r p hp => ?_) (fun r r' h => ?_)
  · cases p with
    | position account =>
        exact Finmap.lookup_insert_of_ne _ (fun heq => hp (congrArg RiskPlace.position heq))
    | _ => rfl
  · have hrow : r.positions.lookup order.accountId = r'.positions.lookup order.accountId :=
      h (.position order.accountId) rfl
    show (r.recordFill _ _ _ _).positions.lookup _ = (r'.recordFill _ _ _ _).positions.lookup _
    unfold RiskEngine.recordFill
    dsimp only
    rw [Finmap.lookup_insert, Finmap.lookup_insert, hrow]

theorem lastPrice_within {price : Int} :
    OwnRisk order (fun r =>
      ((), { r with lastTradePrices := r.lastTradePrices.insert order.symbol price })) := by
  refine .writeAt (q := .lastPrice order.symbol) rfl (fun r p hp => ?_) (fun r r' _ => ?_)
  · cases p with
    | lastPrice symbol =>
        exact Finmap.lookup_insert_of_ne _ (fun heq => hp (congrArg RiskPlace.lastPrice heq))
    | _ => rfl
  · show (r.lastTradePrices.insert _ _).lookup _ = (r'.lastTradePrices.insert _ _).lookup _
    rw [Finmap.lookup_insert, Finmap.lookup_insert]

/-- Breakers with the same at `symbol`. -/
structure SameBreaker (symbol : String) (cb cb' : CircuitBreaker) : Prop where
  haltFlag : cb.symbolHalts.lookup symbol = cb'.symbolHalts.lookup symbol
  reference : cb.referencePrice.lookup symbol = cb'.referencePrice.lookup symbol
  window : cb.windowStart.lookup symbol = cb'.windowStart.lookup symbol

theorem SameBreaker.openWindow {symbol : String} {cb cb' : CircuitBreaker}
    (h : SameBreaker symbol cb cb') (now price : Int) :
    SameBreaker symbol (cb.openWindow now symbol price) (cb'.openWindow now symbol price) where
  haltFlag := h.haltFlag
  reference := by
    unfold CircuitBreaker.openWindow
    rw [Finmap.lookup_insert, Finmap.lookup_insert]
  window := by
    unfold CircuitBreaker.openWindow
    rw [Finmap.lookup_insert, Finmap.lookup_insert]

theorem SameBreaker.haltSymbol {symbol : String} {cb cb' : CircuitBreaker}
    (h : SameBreaker symbol cb cb') :
    SameBreaker symbol (LockFree.haltSymbol cb symbol) (LockFree.haltSymbol cb' symbol) where
  haltFlag := by
    unfold LockFree.haltSymbol
    rw [Finmap.lookup_insert, Finmap.lookup_insert]
  reference := h.reference
  window := h.window

theorem SameBreaker.observe {symbol : String} {cb cb' : CircuitBreaker}
    (h : SameBreaker symbol cb cb') (now price : Int) :
    (cb.observe now symbol price).1 = (cb'.observe now symbol price).1
      ∧ SameBreaker symbol (cb.observe now symbol price).2 (cb'.observe now symbol price).2 := by
  unfold CircuitBreaker.observe
  rw [h.reference, h.window]
  split
  · split
    · exact ⟨rfl, h.openWindow now price⟩
    · split
      · exact ⟨rfl, h⟩
      · split
        · exact ⟨rfl, h⟩
        · split
          · exact ⟨rfl, h⟩
          · exact ⟨rfl, h⟩
  · exact ⟨rfl, h.openWindow now price⟩

theorem SameBreaker.recordTrade {symbol : String} {cb cb' : CircuitBreaker}
    (h : SameBreaker symbol cb cb') (now price : Int) :
    SameBreaker symbol (LockFree.recordTrade cb now symbol price)
      (LockFree.recordTrade cb' now symbol price) := by
  obtain ⟨htrip, hobs⟩ := h.observe now price
  unfold LockFree.recordTrade
  dsimp only
  rw [htrip]
  split
  · exact hobs.haltSymbol
  · exact hobs

/-- A trade does not show at other symbols. -/
theorem recordTrade_elsewhere (cb : CircuitBreaker) (now price : Int) {symbol s : String}
    (hs : s ≠ symbol) : SameBreaker s (LockFree.recordTrade cb now symbol price) cb := by
  have hopen : SameBreaker s (cb.openWindow now symbol price) cb :=
    ⟨rfl, Finmap.lookup_insert_of_ne _ hs, Finmap.lookup_insert_of_ne _ hs⟩
  have hobs : SameBreaker s (cb.observe now symbol price).2 cb := by
    unfold CircuitBreaker.observe
    split
    · split
      · exact hopen
      · split
        · exact ⟨rfl, rfl, rfl⟩
        · split
          · exact ⟨rfl, rfl, rfl⟩
          · split
            · exact ⟨rfl, rfl, rfl⟩
            · exact ⟨rfl, rfl, rfl⟩
    · exact hopen
  unfold LockFree.recordTrade
  dsimp only
  split
  · exact ⟨(Finmap.lookup_insert_of_ne _ hs).trans hobs.haltFlag, hobs.reference, hobs.window⟩
  · exact hobs

theorem recordTrade_within {now price : Int} :
    OwnRisk order (fun r => ((), { r with
      circuitBreaker := ⟨r.circuitBreaker.held,
        LockFree.recordTrade r.circuitBreaker.data now order.symbol price⟩ })) := by
  refine .write (Q := {.haltFlag order.symbol, .reference order.symbol, .window order.symbol})
    (fun p hp => ?_) (fun r p hp => ?_) (fun r r' h p hp => ?_)
  · rcases hp with rfl | rfl | rfl <;> rfl
  · cases p with
    | haltFlag symbol =>
        have hne : symbol ≠ order.symbol := fun heq => hp (Or.inl (congrArg _ heq))
        exact (recordTrade_elsewhere _ now price hne).haltFlag
    | reference symbol =>
        have hne : symbol ≠ order.symbol := fun heq => hp (Or.inr (Or.inl (congrArg _ heq)))
        exact (recordTrade_elsewhere _ now price hne).reference
    | window symbol =>
        have hne : symbol ≠ order.symbol := fun heq => hp (Or.inr (Or.inr (congrArg _ heq)))
        exact (recordTrade_elsewhere _ now price hne).window
    | _ => rfl
  · have hown : SameBreaker order.symbol r.circuitBreaker.data r'.circuitBreaker.data :=
      ⟨h (.haltFlag order.symbol) rfl, h (.reference order.symbol) rfl,
        h (.window order.symbol) rfl⟩
    rcases hp with rfl | rfl | rfl
    · exact (hown.recordTrade now price).haltFlag
    · exact (hown.recordTrade now price).reference
    · exact (hown.recordTrade now price).window

/-- The fill consumer, for a trade of the order. -/
theorem fillConsumer_within {now : Int} {trade : Trade}
    (hacc : trade.aggressorAccountId = order.accountId) (hsym : trade.symbol = order.symbol) :
    OwnRisk order (fun r => ((), LockFree.fillConsumer r now trade)) := by
  unfold LockFree.fillConsumer
  rw [hacc, hsym]
  exact recordFill_within.bind (fun _ => lastPrice_within.bind (fun _ => recordTrade_within))

/-- And the loop over the trades of a call. -/
theorem deliver_within (clock : Nat → Int) : ∀ (fills : List Fill) (n : Nat),
    (∀ f ∈ fills, f.trade.aggressorAccountId = order.accountId ∧ f.trade.symbol = order.symbol) →
    OwnRisk order (fun r => ((), LockFree.deliver clock n fills r))
  | [], _, _ => .pure ()
  | f :: fills, n, h => by
      obtain ⟨hacc, hsym⟩ := h f (List.mem_cons_self ..)
      exact (fillConsumer_within hacc hsym).bind (fun _ =>
        deliver_within clock fills (n + 1) (fun x hx => h x (List.mem_cons_of_mem _ hx)))

end Risk

/-! ## The trades of a call, in any book -/

section Trades

variable {amb : Ambient} {aggressor : Order}

/-- The trade is one of the aggressor, on its symbol. -/
def TradeOf (aggressor : Order) (f : Fill) : Prop :=
  f.trade.aggressorAccountId = aggressor.accountId ∧ f.trade.symbol = aggressor.symbol

theorem fillLevel_tradeOf {p : Int} {behind : Levels} : ∀ (queue : List Order) (st : OrderBook.Sweep),
    (∀ f ∈ st.fills, TradeOf aggressor f) →
    ∀ f ∈ (OrderBook.fillLevel amb aggressor p behind queue st).2.fills, TradeOf aggressor f
  | [], _, h => h
  | passive :: rest, st, h => by
      have hfront : ∀ f ∈ (OrderBook.fillFront amb aggressor p passive rest behind st).2.fills,
          TradeOf aggressor f := by
        intro f hf
        rcases List.mem_append.mp hf with hf | hf
        · exact h f hf
        · rw [List.mem_singleton.mp hf]; exact ⟨rfl, rfl⟩
      rw [OrderBook.fillLevel]
      split
      · dsimp only
        split
        · exact hfront
        · exact fillLevel_tradeOf rest _ hfront
      · exact h

theorem matchSide_tradeOf {crosses : Int → Bool} : ∀ (ls : Levels) (st : OrderBook.Sweep),
    (∀ f ∈ st.fills, TradeOf aggressor f) →
    ∀ f ∈ (OrderBook.matchSide amb aggressor crosses ls st).2.fills, TradeOf aggressor f
  | [], _, h => h
  | (p, queue) :: ls, st, h => by
      have hlevel : ∀ f ∈ (OrderBook.fillLevel amb aggressor p ls queue st).2.fills,
          TradeOf aggressor f := fillLevel_tradeOf queue st h
      rw [OrderBook.matchSide]
      split
      · split
        · dsimp only
          split
          · exact matchSide_tradeOf ls _ hlevel
          · exact hlevel
        · exact h
      · exact h

theorem match_tradeOf (b : OrderBook) (amb : Ambient) (o : Order) :
    ∀ f ∈ (b.matchIncoming amb o).1, TradeOf o f :=
  matchIncoming_rule (P := fun fills _ => ∀ f ∈ fills, TradeOf o f)
    (Q := fun fills _ => ∀ f ∈ fills, TradeOf o f) (fun _ hf => absurd hf List.not_mem_nil)
    (fun _ => matchSide_tradeOf _ _ (fun _ hf => absurd hf List.not_mem_nil))
    (fun _ _ h => h) (fun _ _ h => h) (fun _ _ h => h)

end Trades

/-! ## The places of the engine -/

inductive Place where
  | halted
  | book (symbol : String)
  | lock (symbol : String)
  | stops (symbol : String)
  | risk (place : RiskPlace)

def Place.contents : Place → Setoid MatchingEngine
  | .halted => Setoid.ker MatchingEngine.halted
  | .book symbol => Setoid.ker (fun e => e.books.lookup symbol)
  | .lock symbol => Setoid.ker (fun e => symbol ∈ e.locks)
  | .stops symbol => Setoid.ker (fun e => e.stopOrders.lookup symbol)
  | .risk place => place.contents.comap MatchingEngine.riskEngine

/-- Where a `submit` of the order writes. -/
def Place.OwnedBy (order : Order) : Place → Prop
  | .halted => False
  | .book symbol => symbol = order.symbol
  | .lock symbol => symbol = order.symbol
  | .stops symbol => symbol = order.symbol
  | .risk place => place.OwnedBy order

/-- Where it looks. -/
def Place.SeenBy (order : Order) (p : Place) : Prop := p = .halted ∨ p.OwnedBy order

/-- An operation of the engine at the places of an order. -/
def Own {α : Type} (order : Order) (op : MatchingEngine → α × MatchingEngine) : Prop :=
  Within Place.contents {p | p.SeenBy order} {p | p.OwnedBy order} op

section Submit

variable {order : Order} {α : Type}

/-- What the risk engine does is done at the same places of the engine. -/
theorem OwnRisk.lift {op : RiskEngine → α × RiskEngine} (h : OwnRisk order op) :
    Own order (fun e => ((op e.riskEngine).1, { e with riskEngine := (op e.riskEngine).2 })) := by
  refine ⟨fun e p hp => ?_, fun e e' hagree => ?_⟩
  · cases p with
    | risk place => exact h.frame e.riskEngine place hp
    | _ => rfl
  · obtain ⟨hout, hstate⟩ := h.reads e.riskEngine e'.riskEngine
      (fun place hp => hagree (.risk place) (Or.inr hp))
    refine ⟨hout, fun p hp => ?_⟩
    have hsame := hagree p hp
    cases p with
    | risk place =>
        exact hstate place (hp.resolve_left Place.noConfusion)
    | _ => exact hsame

/-- Engines with the same at the places of an order have the same book for it. -/
theorem bookOf_congr {e e' : MatchingEngine}
    (h : AgreeOn Place.contents {p | p.SeenBy order} e e') :
    e.bookOf order.symbol = e'.bookOf order.symbol :=
  congrArg (Option.getD · (OrderBook.new order.symbol)) (h (.book order.symbol) (Or.inr rfl))

/-- A step at one place of the order. -/
theorem Own.writeAt {q : Place} (hq : q.OwnedBy order) {a : α} {f : MatchingEngine → MatchingEngine}
    (hframe : ∀ e, ∀ p ≠ q, (Place.contents p).r (f e) e)
    (hown : ∀ e e', (Place.contents q).r (f e) (f e')) : Own order (fun e => (a, f e)) := by
  refine .write (Q := {q}) (Set.singleton_subset_iff.mpr hq) hframe (fun e e' _ p hp => ?_)
  rw [Set.mem_singleton_iff.mp hp]
  exact hown e e'

/-- A new book for a symbol shows nowhere else. -/
theorem setBook_frame {e : MatchingEngine} {symbol : String} {b : OrderBook} {p : Place}
    (hp : p ≠ .book symbol) :
    (Place.contents p).r { e with books := e.books.insert symbol b } e := by
  cases p with
  | book symbol' => exact Finmap.lookup_insert_of_ne _ (fun heq => hp (congrArg Place.book heq))
  | risk place => exact place.contents.refl _
  | _ => rfl

theorem setBook_own (e e' : MatchingEngine) (symbol : String) (b : OrderBook) :
    (Place.contents (.book symbol)).r { e with books := e.books.insert symbol b }
      { e' with books := e'.books.insert symbol b } := by
  show (e.books.insert _ _).lookup _ = (e'.books.insert _ _).lookup _
  rw [Finmap.lookup_insert, Finmap.lookup_insert]

/-- A call on the order's book. -/
theorem book_within (f : OrderBook → α × OrderBook) :
    Own order (fun e => ((f (e.bookOf order.symbol)).1,
      { e with books := e.books.insert order.symbol (f (e.bookOf order.symbol)).2 })) := by
  have hset : ∀ b, Own order (fun e =>
      ((f b).1, { e with books := e.books.insert order.symbol (f b).2 })) := fun b =>
    .writeAt (q := .book order.symbol) rfl (fun _ _ hp => setBook_frame hp)
      (fun e e' => setBook_own e e' order.symbol (f b).2)
  exact Within.read (fun _ _ h => bookOf_congr h) hset

theorem lock_within : Own order (fun e => ((), { e with locks := insert order.symbol e.locks })) := by
  refine .writeAt (q := .lock order.symbol) rfl (fun e p hp => ?_) (fun e e' => ?_)
  · cases p with
    | lock symbol =>
        have hne : symbol ≠ order.symbol := fun heq => hp (congrArg Place.lock heq)
        show (symbol ∈ insert order.symbol e.locks) = (symbol ∈ e.locks)
        rw [Finset.mem_insert, eq_false hne, false_or]
    | risk place => exact place.contents.refl _
    | _ => rfl
  · show (order.symbol ∈ insert order.symbol e.locks) = (order.symbol ∈ insert order.symbol e'.locks)
    rw [eq_true (Finset.mem_insert_self ..), eq_true (Finset.mem_insert_self ..)]

theorem setStops_within (stops : List Order) : Own order (fun e =>
    ((), { e with stopOrders := e.stopOrders.insert order.symbol stops })) := by
  refine .writeAt (q := .stops order.symbol) rfl (fun e p hp => ?_) (fun e e' => ?_)
  · cases p with
    | stops symbol =>
        exact Finmap.lookup_insert_of_ne _ (fun heq => hp (congrArg Place.stops heq))
    | risk place => exact place.contents.refl _
    | _ => rfl
  · show (e.stopOrders.insert _ _).lookup _ = (e'.stopOrders.insert _ _).lookup _
    rw [Finmap.lookup_insert, Finmap.lookup_insert]

theorem matched_within (env : SubmitEnv) : Own order (fun e => LockFree.matched e env order) := by
  have heq := funext (fun e => matched_eq e env order)
  rw [heq]
  exact (book_within (fun b => b.matchIncoming env.amb order)).bind
    (fun fills => lock_within.bind (fun _ => .pure fills))

/-- `checkStopTriggers`, given the stop orders of the symbol and its last price. -/
def triggerStops (env : SubmitEnv) (symbol : String) (pending : Option (List Order))
    (last : Option Int) (e : MatchingEngine) : List Fill × MatchingEngine :=
  match pending, last with
  | some pending, some lastPrice =>
      let r := MatchingEngine.activate env 0 (pending.filter (MatchingEngine.triggered lastPrice))
        (e.bookOf symbol)
      (r.1,
        { e with
          stopOrders := e.stopOrders.insert symbol
            (pending.filter (fun stop => !MatchingEngine.triggered lastPrice stop))
          books := e.books.insert symbol r.2 })
  | _, _ => ([], e)

theorem checkStopTriggers_eq (e : MatchingEngine) (env : SubmitEnv) (symbol : String) :
    e.checkStopTriggers env symbol
      = triggerStops env symbol (e.stopOrders.lookup symbol) (e.bookOf symbol).lastTradePrice e := by
  unfold MatchingEngine.checkStopTriggers triggerStops
  cases e.stopOrders.lookup symbol with
  | none => rfl
  | some pending => cases (e.bookOf symbol).lastTradePrice <;> rfl

theorem stops_within (env : SubmitEnv) :
    Own order (fun e => e.checkStopTriggers env order.symbol) := by
  have htrigger : ∀ pending last, Own order (triggerStops env order.symbol pending last) := by
    intro pending last
    cases pending with
    | none => exact .pure []
    | some pending =>
        cases last with
        | none => exact .pure []
        | some lastPrice =>
            exact (book_within (MatchingEngine.activate env 0
                (pending.filter (MatchingEngine.triggered lastPrice)))).bind
              (fun fills => (setStops_within _).bind (fun _ => .pure fills))
  have heq := funext (fun e => checkStopTriggers_eq e env order.symbol)
  have hlast : ∀ pending, Own order (fun e =>
      triggerStops env order.symbol pending (e.bookOf order.symbol).lastTradePrice e) :=
    fun pending => .read (fun _ _ h => congrArg OrderBook.lastTradePrice (bookOf_congr h))
      (htrigger pending)
  rw [heq]
  exact Within.read (fun _ _ h => h (Place.stops order.symbol) (Or.inr rfl)) hlast

/-- What `process` reports. -/
def reportOf (order : Order) (fills triggered : List Fill) : Submitted where
  trades := fills.map Fill.trade
  events := OrderEvent.received order :: fills.map (fun f => OrderEvent.filled order f.trade) ++
    (if order.type = .limit ∧ fills.isEmpty then [OrderEvent.resting order] else [])
  executed := fills ++ triggered
  consumed := fills.map Fill.trade
  completed := true

/-- `process` from the match on, given the executions. -/
def finish (env : SubmitEnv) (order : Order) (fills : List Fill) (e : MatchingEngine) :
    Submitted × MatchingEngine :=
  let e₃ := { e with riskEngine := LockFree.deliver env.clock 0 fills e.riskEngine }
  let s := if fills.isEmpty then ([], e₃) else e₃.checkStopTriggers env order.symbol
  (reportOf order fills s.1, s.2)

theorem finish_within (env : SubmitEnv) {fills : List Fill} (h : ∀ f ∈ fills, TradeOf order f) :
    Own order (finish env order fills) := by
  have hstops : Own order (fun e =>
      if fills.isEmpty then ([], e) else e.checkStopTriggers env order.symbol) :=
    .ite (fun _ _ _ => Iff.rfl) (.pure []) (stops_within env)
  have hreport : Own order (fun e =>
      (reportOf order fills (if fills.isEmpty then ([], e)
          else e.checkStopTriggers env order.symbol).1,
        (if fills.isEmpty then ([], e) else e.checkStopTriggers env order.symbol).2)) :=
    hstops.bind (fun triggered => .pure (reportOf order fills triggered))
  exact (deliver_within env.clock fills 0 h).lift.bind (fun _ => hreport)

/-- An admitted order. -/
theorem process_within (env : SubmitEnv) :
    Own order (fun e => ((LockFree.process e env order).2, (LockFree.process e env order).1)) := by
  have htrades : ∀ e, ∀ f ∈ (LockFree.matched e env order).1, TradeOf order f :=
    fun e => match_tradeOf _ env.amb order
  exact (matched_within env).bindOf (P := fun fills => ∀ f ∈ fills, TradeOf order f) htrades
    (fun _ h => finish_within env h)

/-- **A `submit` looks at and writes the places of its order only.** -/
theorem submit_within (env : SubmitEnv) (order : Order) :
    Own order (fun e => ((LockFree.submit e env order).2, (LockFree.submit e env order).1)) := by
  have hanswer : ∀ res : RiskResult, Own order (fun e =>
      if res.approved then ((LockFree.process e env order).2, (LockFree.process e env order).1)
      else (⟨[], [OrderEvent.rejected order res.reason], [], [], true⟩, e)) := fun res =>
    .ite (fun _ _ _ => Iff.rfl) (process_within env) (.pure _)
  have hchecked : Own order (fun e =>
      if (LockFree.checkPreTrade e.riskEngine order).1.approved then
        ((LockFree.process { e with riskEngine := (LockFree.checkPreTrade e.riskEngine order).2 }
            env order).2,
          (LockFree.process { e with riskEngine := (LockFree.checkPreTrade e.riskEngine order).2 }
            env order).1)
      else
        (⟨[], [OrderEvent.rejected order (LockFree.checkPreTrade e.riskEngine order).1.reason],
            [], [], true⟩,
          { e with riskEngine := (LockFree.checkPreTrade e.riskEngine order).2 })) :=
    check_within.lift.bind hanswer
  have hhalted : ∀ e e', AgreeOn Place.contents {p | p.SeenBy order} e e' →
      (e.halted = true ↔ e'.halted = true) := fun _ _ h =>
    iff_of_eq (congrArg (· = true) (h .halted (Or.inl rfl)))
  have hall := Within.ite hhalted
    (.pure (⟨[], [OrderEvent.rejected order "ENGINE_HALTED"], [], [], true⟩ : Submitted)) hchecked
  refine Eq.mpr (congrArg (Own order) (funext fun e => ?_)) hall
  unfold LockFree.submit
  by_cases hh : e.halted = true
  · simp only [if_pos hh]
  · simp only [if_neg hh]
    split
    · rfl
    · rfl

end Submit

/-! ## The calls -/

/-- Where a call writes. -/
def writes : EngineOp → Set Place
  | .submit _ order => {p | p.OwnedBy order}
  | .cancel symbol _ => {.book symbol}
  | .halt | .resume => {.halted}

/-- Where it looks. -/
def looks : EngineOp → Set Place
  | .submit _ order => {p | p.SeenBy order}
  | .cancel symbol _ => {.book symbol, .lock symbol}
  | .halt | .resume => {.halted}

theorem writes_subset_looks (op : EngineOp) : writes op ⊆ looks op := by
  intro p hp
  cases op with
  | submit env order => exact Or.inr hp
  | cancel symbol orderId => exact Or.inl hp
  | halt => exact hp
  | resume => exact hp

/-- `cancel`, given the book that is there. -/
def cancelIn (symbol orderId : String) (found : Option OrderBook) (e : MatchingEngine) :
    Bool × MatchingEngine :=
  match found with
  | none => (false, e)
  | some book =>
      if symbol ∈ e.locks then
        ((book.removeFromBook orderId).1,
          { e with books := e.books.insert symbol (book.removeFromBook orderId).2 })
      else (false, e)

theorem cancel_within (symbol orderId : String) :
    Within Place.contents (looks (.cancel symbol orderId)) (writes (.cancel symbol orderId))
      (fun e => e.cancel symbol orderId) := by
  have hset : ∀ b : OrderBook, Within Place.contents (looks (.cancel symbol orderId))
      (writes (.cancel symbol orderId)) (fun e => ((b.removeFromBook orderId).1,
        { e with books := e.books.insert symbol (b.removeFromBook orderId).2 })) := by
    refine fun b => .write (Q := {.book symbol}) (fun _ hp => hp) (fun _ _ hp => setBook_frame hp)
      (fun e e' _ p hp => ?_)
    rw [Set.mem_singleton_iff.mp hp]
    exact setBook_own e e' symbol _
  have hfound : ∀ found, Within Place.contents (looks (.cancel symbol orderId))
      (writes (.cancel symbol orderId)) (cancelIn symbol orderId found) := by
    intro found
    cases found with
    | none => exact .pure false
    | some b =>
        exact .ite (fun _ _ h => iff_of_eq (h (.lock symbol) (Or.inr rfl))) (hset b) (.pure false)
  have hbook : ∀ e e', AgreeOn Place.contents (looks (.cancel symbol orderId)) e e' →
      e.books.lookup symbol = e'.books.lookup symbol := fun _ _ h => h (.book symbol) (Or.inl rfl)
  exact .read hbook hfound

theorem setHalted_within (halted : Bool) : Within Place.contents {.halted} {.halted}
    (fun e => ((), { e with halted := halted })) := by
  refine .write (Q := {.halted}) (fun _ hp => hp) (fun e p hp => ?_) (fun e e' _ p hp => ?_)
  · cases p with
    | halted => exact absurd rfl hp
    | risk place => exact place.contents.refl _
    | _ => rfl
  · rw [Set.mem_singleton_iff.mp hp]; rfl

/-- **Every call keeps to its footprint.** -/
theorem step_within (op : EngineOp) : Within Place.contents (looks op) (writes op)
    (fun e => ((LockFree.step e op).2, (LockFree.step e op).1)) := by
  cases op with
  | submit env order =>
      exact (submit_within env order).bind (fun report => .pure (⟨report, false⟩ : EngineOut))
  | cancel symbol orderId =>
      exact (cancel_within symbol orderId).bind (fun removed => .pure (⟨.none, removed⟩ : EngineOut))
  | halt => exact (setHalted_within true).bind (fun _ => .pure (⟨.none, false⟩ : EngineOut))
  | resume => exact (setHalted_within false).bind (fun _ => .pure (⟨.none, false⟩ : EngineOut))

/-- Calls of `submit` and `cancel` on different symbols; of two `submit` calls also the
accounts and the ids are different. -/
def Independent : EngineOp → EngineOp → Prop
  | .submit _ o, .submit _ o' =>
      o.symbol ≠ o'.symbol ∧ o.accountId ≠ o'.accountId ∧ o.orderId ≠ o'.orderId
  | .submit _ o, .cancel symbol _ => o.symbol ≠ symbol
  | .cancel symbol _, .submit _ o => symbol ≠ o.symbol
  | .cancel symbol _, .cancel symbol' _ => symbol ≠ symbol'
  | _, _ => False

theorem Independent.symm {op op' : EngineOp} (h : Independent op op') : Independent op' op := by
  cases op <;> cases op' <;> first
    | exact h.elim
    | exact ⟨h.1.symm, h.2.1.symm, h.2.2.symm⟩
    | exact Ne.symm h

section Orders

variable {o o' : Order} (hs : o.symbol ≠ o'.symbol) (ha : o.accountId ≠ o'.accountId)
  (hi : o.orderId ≠ o'.orderId)

include hs ha hi

theorem RiskPlace.OwnedBy.ne {p : RiskPlace} (hp : p.OwnedBy o) : ¬ p.OwnedBy o' := by
  intro hp'
  cases p with
  | position a => exact ha (hp.symm.trans hp')
  | active side a => exact ha (hp.symm.trans hp')
  | seen i => exact hi (hp.symm.trans hp')
  | lastPrice s => exact hs (hp.symm.trans hp')
  | haltFlag s => exact hs (hp.symm.trans hp')
  | reference s => exact hs (hp.symm.trans hp')
  | window s => exact hs (hp.symm.trans hp')

/-- Orders with different keys have no place in common. -/
theorem Place.OwnedBy.ne {p : Place} (hp : p.OwnedBy o) : ¬ p.OwnedBy o' := by
  intro hp'
  cases p with
  | halted => exact hp
  | book s => exact hs (hp.symm.trans hp')
  | lock s => exact hs (hp.symm.trans hp')
  | stops s => exact hs (hp.symm.trans hp')
  | risk place => exact RiskPlace.OwnedBy.ne hs ha hi hp hp'

end Orders

theorem Independent.disjoint {op op' : EngineOp} (h : Independent op op') :
    ∀ p ∈ writes op, p ∉ looks op' := by
  intro p hp hp'
  cases op with
  | submit env o =>
      cases op' with
      | submit env' o' =>
          obtain ⟨hs, ha, hi⟩ := h
          rcases hp' with rfl | hp'
          · exact hp
          · exact Place.OwnedBy.ne hs ha hi hp hp'
      | cancel symbol orderId => rcases hp' with rfl | rfl <;> exact h (Eq.symm hp)
      | halt => exact h.elim
      | resume => exact h.elim
  | cancel symbol orderId =>
      obtain rfl : p = .book symbol := hp
      cases op' with
      | submit env o => exact h (hp'.resolve_left Place.noConfusion)
      | cancel symbol' orderId' =>
          rcases hp' with heq | heq
          · exact h (Place.book.inj heq)
          · exact Place.noConfusion heq
      | halt => exact h.elim
      | resume => exact h.elim
  | halt => cases op' <;> exact h.elim
  | resume => cases op' <;> exact h.elim

/-- The same state, mutexes and counters aside. -/
structure SameState (e e' : MatchingEngine) : Prop where
  books : e.books = e'.books
  locks : e.locks = e'.locks
  stopOrders : e.stopOrders = e'.stopOrders
  halted : e.halted = e'.halted
  positions : e.riskEngine.positions = e'.riskEngine.positions
  activeBuyOrders : e.riskEngine.activeBuyOrders = e'.riskEngine.activeBuyOrders
  activeSellOrders : e.riskEngine.activeSellOrders = e'.riskEngine.activeSellOrders
  seenOrderIds : e.riskEngine.seenOrderIds = e'.riskEngine.seenOrderIds
  lastTradePrices : e.riskEngine.lastTradePrices = e'.riskEngine.lastTradePrices
  circuitBreaker : e.riskEngine.circuitBreaker.data = e'.riskEngine.circuitBreaker.data

/-- The places are the whole state. -/
theorem sameState_of_places {e e' : MatchingEngine} (h : ∀ p, (Place.contents p).r e e') :
    SameState e e' where
  books := Finmap.ext_lookup (fun symbol => h (.book symbol))
  locks := Finset.ext (fun symbol => iff_of_eq (h (.lock symbol)))
  stopOrders := Finmap.ext_lookup (fun symbol => h (.stops symbol))
  halted := h .halted
  positions := Finmap.ext_lookup (fun account => h (.risk (.position account)))
  activeBuyOrders := Finmap.ext_lookup (fun account => h (.risk (.active .buy account)))
  activeSellOrders := Finmap.ext_lookup (fun account => h (.risk (.active .sell account)))
  seenOrderIds := Finset.ext (fun orderId => iff_of_eq (h (.risk (.seen orderId))))
  lastTradePrices := Finmap.ext_lookup (fun symbol => h (.risk (.lastPrice symbol)))
  circuitBreaker := by
    have hflags := Finmap.ext_lookup (fun symbol => h (.risk (.haltFlag symbol)))
    have hrefs := Finmap.ext_lookup (fun symbol => h (.risk (.reference symbol)))
    have hstarts := Finmap.ext_lookup (fun symbol => h (.risk (.window symbol)))
    exact CircuitBreaker.mk.injEq .. ▸ ⟨hflags, hrefs, hstarts⟩

/--
**Independent calls commute**: each returns the same in either order, and they end in the
same state, whatever the state they start from.
-/
theorem independent_commute (e : MatchingEngine) (op op' : EngineOp) (h : Independent op op') :
    (LockFree.step (LockFree.step e op').1 op).2 = (LockFree.step e op).2
      ∧ (LockFree.step (LockFree.step e op).1 op').2 = (LockFree.step e op').2
      ∧ SameState (LockFree.step (LockFree.step e op).1 op').1
          (LockFree.step (LockFree.step e op').1 op).1 := by
  obtain ⟨hout, hout', hplaces⟩ := (step_within op).commute (step_within op')
    (writes_subset_looks op) (writes_subset_looks op') h.disjoint h.symm.disjoint e
  exact ⟨hout, hout', sameState_of_places hplaces⟩

/-- A sell rests in each of two books. -/
def twoMarkets : MatchingEngine :=
  run LockFree.step MatchingEngine.initial
    [.submit stillEnv (Order.create "a" 0 "A" "AAPL" .sell .limit 100 0 5),
      .submit stillEnv (Order.create "m" 0 "A" "MSFT" .sell .limit 200 0 5)]

/-- Two accounts buy, one in each book, and both trade with the same third account. -/
theorem independent_commute_markets :
    let op := EngineOp.submit stillEnv (Order.create "b" 0 "B" "AAPL" .buy .limit 100 0 3)
    let op' := EngineOp.submit stillEnv (Order.create "c" 0 "C" "MSFT" .buy .market 0 0 2)
    (LockFree.step twoMarkets op).2.submitted.trades.map Trade.passiveAccountId = ["A"]
      ∧ (LockFree.step twoMarkets op').2.submitted.trades.map Trade.passiveAccountId = ["A"]
      ∧ (LockFree.step (LockFree.step twoMarkets op').1 op).2 = (LockFree.step twoMarkets op).2
      ∧ (LockFree.step (LockFree.step twoMarkets op).1 op').2 = (LockFree.step twoMarkets op').2
      ∧ SameState (LockFree.step (LockFree.step twoMarkets op).1 op').1
          (LockFree.step (LockFree.step twoMarkets op').1 op).1 :=
  ⟨by decide, by decide,
    independent_commute twoMarkets _ _ ⟨by decide, by decide, by decide⟩⟩

end TitanX.Proof
