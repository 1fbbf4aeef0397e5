import TitanX.Proof.Stops
import TitanX.Proof.Depth

/-!
# Stop orders that trade

`checkStopTriggers` compares the pending stop orders with the last price once, takes out
those that are triggered and matches a limit order for each. These may trade, the price moves,
and the orders that were kept are not compared again.

Where the price goes can be read off before the pass: from the depth of the book and the orders
that are triggered, in the order in which they are held (`Depth.lastAfter`). The pass ends with no
triggered order left exactly when that price triggers none that the price before had left alone
(`stops_settled_iff`). Nothing is lost or activated twice, whatever the prices do.
-/

namespace TitanX.Proof

open TitanX MatchingEngine

/-! ## The pass over the pending orders -/

/-- The stop orders that the engine holds for a symbol. -/
def pendingStops (e : MatchingEngine) (symbol : String) : List Order :=
  (e.stopOrders.lookup symbol).getD []

/-- No stop order held for the symbol is triggered at the last price of its book. -/
def StopsSettled (e : MatchingEngine) (symbol : String) : Prop :=
  ∀ stop ∈ pendingStops e symbol, ∀ last, (e.bookOf symbol).lastTradePrice = some last →
    triggered last stop = false

/-- Each stop order that was held is still held, or was matched once as a limit order. -/
def KeptOrActivated (e : MatchingEngine) (env : SubmitEnv) (symbol : String) : Prop :=
  ∃ activated,
    (pendingStops (e.checkStopTriggers env symbol).2 symbol ++ activated).Perm (pendingStops e symbol)
      ∧ ((e.checkStopTriggers env symbol).1, (e.checkStopTriggers env symbol).2.bookOf symbol)
        = matchAll env 0 ((limitOrdersOf env 0 activated).map Prod.snd) (e.bookOf symbol)

/-- The last price after limit orders in turn. -/
def Depth.lastAfter : Option Int → Depth → List Order → Option Int
  | last, _, [] => last
  | last, d, o :: os =>
      lastAfter
        ((Depth.prices (OrderBook.crossesLimit o) o.remainingQuantity
          (d o.side.opposite)).getLast?.or last)
        (d.afterLimit o) os

/-- The price to which the triggered ones among the orders `stops` move the book `b` triggers
none of the others. -/
def NoCascade (b : OrderBook) (stops : List Order) : Prop :=
  ∀ last price, b.lastTradePrice = some last →
    (depth b).lastAfter (some last) (stops.filter (triggered last)) = some price →
    ∀ stop ∈ stops, triggered last stop = false → triggered price stop = false

instance (b : OrderBook) (stops : List Order) : Decidable (NoCascade b stops) :=
  match hl : b.lastTradePrice with
  | none => isTrue (fun _ _ h => by rw [hl] at h; cases h)
  | some last =>
      match ha : (depth b).lastAfter (some last) (stops.filter (triggered last)) with
      | none => isTrue (fun _ _ h h' => by rw [hl] at h; cases h; rw [ha] at h'; cases h')
      | some price =>
          decidable_of_iff
            (∀ stop ∈ stops, triggered last stop = false → triggered price stop = false)
            ⟨fun hall _ _ h h' => by rw [hl] at h; cases h; rw [ha] at h'; cases h'; exact hall,
              fun hno => hno last price hl ha⟩

/-- What the pass does: nothing, or it parts the pending orders by the last price. -/
theorem checkStopTriggers_cases (e : MatchingEngine) (env : SubmitEnv) (symbol : String) :
    ((pendingStops e symbol = [] ∨ (e.bookOf symbol).lastTradePrice = none)
        ∧ e.checkStopTriggers env symbol = ([], e))
    ∨ ∃ last, (e.bookOf symbol).lastTradePrice = some last
        ∧ pendingStops (e.checkStopTriggers env symbol).2 symbol
          = (pendingStops e symbol).filter (fun stop => !triggered last stop)
        ∧ ((e.checkStopTriggers env symbol).1, (e.checkStopTriggers env symbol).2.bookOf symbol)
          = matchAll env 0
              ((limitOrdersOf env 0 ((pendingStops e symbol).filter (triggered last))).map Prod.snd)
              (e.bookOf symbol) := by
  obtain ⟨hfills, hbook⟩ := checkStopTriggers_activates e env symbol
  unfold activations at hfills hbook
  unfold pendingStops
  cases hpending : e.stopOrders.lookup symbol with
  | none =>
      left
      refine ⟨.inl rfl, ?_⟩
      unfold checkStopTriggers
      rw [hpending]
  | some pending =>
      cases hlast : (e.bookOf symbol).lastTradePrice with
      | none =>
          left
          refine ⟨.inr rfl, ?_⟩
          unfold checkStopTriggers
          rw [hpending]
          dsimp only
          rw [hlast]
      | some last =>
          right
          rw [hpending, hlast] at hfills hbook
          refine ⟨last, rfl, ?_, Prod.ext hfills hbook⟩
          unfold checkStopTriggers
          rw [hpending]
          dsimp only
          rw [hlast]
          dsimp only
          rw [Finmap.lookup_insert]
          rfl

/-- A limit order, on a book and on its depth. -/
theorem match_limit_depth {b : OrderBook} (h : SidesOk b) (amb : Ambient) {o : Order}
    (ht : o.type = .limit) :
    (b.matchIncoming amb o).2.lastTradePrice
        = (Depth.prices (OrderBook.crossesLimit o) o.remainingQuantity
            (depth b o.side.opposite)).getLast?.or b.lastTradePrice
      ∧ depth (b.matchIncoming amb o).2 = (depth b).afterLimit o := by
  have hreaches : reaches b o = OrderBook.crossesLimit o := by
    funext p
    rw [reaches, ht]
  have hprices := match_prices h amb o
  rw [hreaches] at hprices
  refine ⟨?_, ?_⟩
  · rw [match_lastTradePrice, ← hprices, lastPrice, List.getLast?_map, List.getLast?_map,
      Option.map_map]
    rfl
  · rw [OrderBook.matchIncoming, ht]
    exact depth_matchLimit h amb o

/-- Where limit orders move the price, one after the other. -/
theorem matchAll_lastTradePrice (env : SubmitEnv) :
    ∀ (orders : List Order) (n : Nat) (b : OrderBook), SidesOk b →
      (∀ o ∈ orders, o.type = .limit) →
      (matchAll env n orders b).2.lastTradePrice
        = (depth b).lastAfter b.lastTradePrice orders
  | [], _, _, _, _ => rfl
  | o :: orders, n, b, h, ht => by
      obtain ⟨hlast, hdepth⟩ := match_limit_depth h (env.stopAmb n) (ht o (List.mem_cons_self ..))
      rw [matchAll, Depth.lastAfter, ← hlast, ← hdepth]
      exact matchAll_lastTradePrice env orders (n + 1) _ (sidesOk_match h _ o)
        (fun x hx => ht x (List.mem_cons_of_mem o hx))

theorem limitOrdersOf_limit (env : SubmitEnv) : ∀ (stops : List Order) (n : Nat),
    ∀ o ∈ (limitOrdersOf env n stops).map Prod.snd, o.type = .limit
  | [], _, _, ho => absurd ho List.not_mem_nil
  | stop :: stops, n, o, ho => by
      rcases List.mem_cons.mp ho with rfl | ho
      · rfl
      · exact limitOrdersOf_limit env stops (n + 1) o ho

/-- The limit orders have the sides, prices and quantities of the stop orders. -/
theorem lastAfter_limitOrdersOf (env : SubmitEnv) :
    ∀ (stops : List Order) (n : Nat) (last : Option Int) (d : Depth),
      d.lastAfter last ((limitOrdersOf env n stops).map Prod.snd) = d.lastAfter last stops
  | [], _, _, _ => rfl
  | _ :: stops, n, _, _ => lastAfter_limitOrdersOf env stops (n + 1) _ _

/-- **Nothing is lost and nothing is activated twice.** -/
theorem kept_or_activated (e : MatchingEngine) (env : SubmitEnv) (symbol : String) :
    KeptOrActivated e env symbol := by
  rcases checkStopTriggers_cases e env symbol with ⟨-, heq⟩ | ⟨last, -, hkept, hmatched⟩
  · refine ⟨[], ?_, ?_⟩ <;> rw [heq]
    · rw [List.append_nil]
    · rfl
  · refine ⟨(pendingStops e symbol).filter (triggered last), ?_, hmatched⟩
    rw [hkept]
    exact List.perm_append_comm.trans (List.filter_append_perm (triggered last) (pendingStops e symbol))

/-- No pending order, or no price to compare it with. -/
theorem stopsSettled_idle {e : MatchingEngine} {symbol : String}
    (h : pendingStops e symbol = [] ∨ (e.bookOf symbol).lastTradePrice = none) :
    StopsSettled e symbol := by
  intro stop hstop last hlast
  rcases h with hnil | hnone
  · rw [hnil] at hstop
    cases hstop
  · rw [hnone] at hlast
    cases hlast

/--
**When the pass reaches a fixed point.** For any engine whose book has well-formed sides, as all
books have (`sidesOk_reachable`), and any stop orders in it: after `checkStopTriggers` no order
that is still held is triggered at the new last price, and each one was kept or activated once,
if and only if the price to which the triggered orders move the book, by its depth before the
pass, triggers none of the others.
-/
theorem stops_settled_iff (e : MatchingEngine) (env : SubmitEnv) (symbol : String)
    (hbook : SidesOk (e.bookOf symbol)) :
    StopsSettled (e.checkStopTriggers env symbol).2 symbol ∧ KeptOrActivated e env symbol
      ↔ NoCascade (e.bookOf symbol) (pendingStops e symbol) := by
  rw [and_iff_left (kept_or_activated e env symbol)]
  rcases checkStopTriggers_cases e env symbol with ⟨hidle, heq⟩ | ⟨last, hlast, hkept, hmatched⟩
  · rw [heq]
    refine iff_of_true (stopsSettled_idle hidle) ?_
    intro last price hlast _ stop hstop
    rcases hidle with hnil | hnone
    · rw [hnil] at hstop
      cases hstop
    · rw [hnone] at hlast
      cases hlast
  · -- the price after the pass, from the depth before it
    have hprice : ((e.checkStopTriggers env symbol).2.bookOf symbol).lastTradePrice
        = (depth (e.bookOf symbol)).lastAfter (some last)
            ((pendingStops e symbol).filter (triggered last)) := by
      have hafter := congrArg Prod.snd hmatched
      dsimp only at hafter
      rw [hafter, matchAll_lastTradePrice env _ 0 _ hbook (limitOrdersOf_limit env _ 0),
        lastAfter_limitOrdersOf, hlast]
    unfold StopsSettled NoCascade
    rw [hkept, hprice, hlast]
    constructor
    · intro h last' price hlast' hafter stop hstop hbefore
      cases hlast'
      exact h stop (List.mem_filter.mpr ⟨hstop, by rw [hbefore]; rfl⟩) price hafter
    · intro h stop hstop price hafter
      obtain ⟨hpending, hbefore⟩ := List.mem_filter.mp hstop
      exact h last price rfl hafter stop hpending (by rwa [Bool.not_eq_true'] at hbefore)

/-- A buy stop at 100 with the limit 110, one at 105, and one at 120. -/
def firstStop : Order := Order.create "p" 0 "W" "AAPL" .buy .stopLimit 110 100 5

def secondStop : Order := Order.create "q" 0 "W" "AAPL" .buy .stopLimit 110 105 5

def thirdStop : Order := Order.create "r" 0 "W" "AAPL" .buy .stopLimit 125 120 5

/-- The last trade was at 100, and five shares are offered at 110. -/
def offeredAt110 : MatchingEngine :=
  { (marketAfter
      [.submit stillEnv (Order.create "s1" 0 "X" "AAPL" .sell .limit 100 0 5),
        .submit stillEnv (Order.create "b1" 0 "Y" "AAPL" .buy .limit 100 0 5),
        .submit stillEnv (Order.create "s2" 0 "X" "AAPL" .sell .limit 110 0 5)]).engine with
    stopOrders := Finmap.singleton "AAPL" [firstStop, secondStop] }

/-- The same book with the second order waiting for 120: the pass is through with it. -/
theorem stops_settled_offeredAt110 :
    let e := { offeredAt110 with stopOrders := Finmap.singleton "AAPL" [firstStop, thirdStop] }
    (depth (e.bookOf "AAPL")).lastAfter (some 100) [firstStop] = some 110
      ∧ StopsSettled (e.checkStopTriggers stillEnv "AAPL").2 "AAPL"
      ∧ KeptOrActivated e stillEnv "AAPL" := by
  intro e
  refine ⟨by decide, (stops_settled_iff e stillEnv "AAPL" ?_).mpr (by decide)⟩
  exact ((engineInv_reachable _).bookOf "AAPL").rep.side

/-- **A stop order that its price has passed stays behind.** The first order trades at 110, and
the second one was compared with 100. -/
theorem stop_left_behind :
    (offeredAt110.bookOf "AAPL").lastTradePrice = some 100
      ∧ ((offeredAt110.checkStopTriggers stillEnv "AAPL").2.bookOf "AAPL").lastTradePrice = some 110
      ∧ pendingStops (offeredAt110.checkStopTriggers stillEnv "AAPL").2 "AAPL" = [secondStop]
      ∧ triggered 110 secondStop = true
      ∧ ¬StopsSettled (offeredAt110.checkStopTriggers stillEnv "AAPL").2 "AAPL" := by
  have hprice : ((offeredAt110.checkStopTriggers stillEnv "AAPL").2.bookOf "AAPL").lastTradePrice
      = some 110 := by decide
  have hkept : pendingStops (offeredAt110.checkStopTriggers stillEnv "AAPL").2 "AAPL"
      = [secondStop] := by decide
  refine ⟨by decide, hprice, hkept, by decide, fun h => ?_⟩
  have hfalse := h secondStop (by rw [hkept]; exact List.mem_singleton.mpr rfl) 110 hprice
  exact absurd hfalse (by decide)

end TitanX.Proof
