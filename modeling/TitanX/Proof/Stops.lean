import TitanX.Proof.SelfTrade

/-!
# Stop-limit orders

`OrderType.hpp` says what a stop-limit order is for: it "becomes a LIMIT order when
stopPrice is touched", and until then it is to be held in the engine's trigger map.
`StopsKept` states that for a run, from the `submit` of the order to the call that
triggers it.

The trigger half exists: `checkStopTriggers` takes the triggered orders out of the map
and matches one limit order for each (`checkStopTriggers_activates`). The other half
does not. Nothing writes to `stopOrders_`, and `match` drops a stop-limit order without
a trace, so every one that is approved is lost at once (`stops_kept_iff`).
-/

namespace TitanX.Proof

open TitanX MatchingEngine

/-! ## What triggering activates -/

/-- The limit order that the `n`-th triggered stop order becomes. -/
def limitOrderOf (env : SubmitEnv) (n : Nat) (stop : Order) : Order :=
  Order.create (env.stopOrderId n) (env.stopCreatedAt n) stop.accountId stop.symbol stop.side
    .limit stop.price 0 stop.remainingQuantity

/-- The stop orders, numbered from `n`, with the limit orders they become. -/
def limitOrdersOf (env : SubmitEnv) : Nat → List Order → List (Order × Order)
  | _, [] => []
  | n, stop :: stops => (stop, limitOrderOf env n stop) :: limitOrdersOf env (n + 1) stops

/-- The stop orders that `checkStopTriggers` activates, with the limit orders it makes
of them. -/
def activations (e : MatchingEngine) (env : SubmitEnv) (symbol : String) : List (Order × Order) :=
  match e.stopOrders.lookup symbol, (e.bookOf symbol).lastTradePrice with
  | some pending, some lastPrice => limitOrdersOf env 0 (pending.filter (triggered lastPrice))
  | _, _ => []

/-- Limit orders matched one after the other, with the readings of the `n`-th on. -/
def matchAll (env : SubmitEnv) : Nat → List Order → OrderBook → List Fill × OrderBook
  | _, [], b => ([], b)
  | n, o :: os, b =>
      ((b.matchIncoming (env.stopAmb n) o).1
          ++ (matchAll env (n + 1) os (b.matchIncoming (env.stopAmb n) o).2).1,
        (matchAll env (n + 1) os (b.matchIncoming (env.stopAmb n) o).2).2)

theorem activate_eq (env : SubmitEnv) : ∀ (stops : List Order) (n : Nat) (b : OrderBook),
    activate env n stops b = matchAll env n ((limitOrdersOf env n stops).map Prod.snd) b
  | [], _, _ => rfl
  | stop :: stops, n, b => by
      rw [activate, activate_eq env stops]
      rfl

/-- `checkStopTriggers` matches the limit orders of the activated stop orders, and keeps
the others in the map. -/
theorem checkStopTriggers_activates (e : MatchingEngine) (env : SubmitEnv) (symbol : String) :
    (e.checkStopTriggers env symbol).1
        = (matchAll env 0 ((activations e env symbol).map Prod.snd) (e.bookOf symbol)).1
      ∧ (e.checkStopTriggers env symbol).2.bookOf symbol
        = (matchAll env 0 ((activations e env symbol).map Prod.snd) (e.bookOf symbol)).2 := by
  unfold checkStopTriggers activations
  cases e.stopOrders.lookup symbol with
  | none => exact ⟨rfl, rfl⟩
  | some pending =>
      dsimp only
      cases (e.bookOf symbol).lastTradePrice with
      | none => exact ⟨rfl, rfl⟩
      | some lastPrice =>
          dsimp only
          rw [activate_eq]
          refine ⟨rfl, ?_⟩
          unfold bookOf
          rw [Finmap.lookup_insert]; rfl

/-! ## The life of a stop order -/

/-- The engine holds `o` in the trigger map. -/
def Holds (e : MatchingEngine) (o : Order) : Prop :=
  o ∈ (e.stopOrders.lookup o.symbol).getD []

/-- A trade of the call brings the last price to or through the stop price. -/
def Touches (t : Transition Market EngineOp EngineOut) (o : Order) : Prop :=
  ∃ f ∈ t.output.submitted.executed, f.trade.symbol = o.symbol
    ∧ triggered f.trade.price o = true

/-- What the call activates: a `submit` that trades and comes to its end looks at the
triggers of its symbol after the match. -/
def activatedBy (t : Transition Market EngineOp EngineOut) : List (Order × Order) :=
  match t.input with
  | .submit env o =>
      if t.output.submitted.completed = true ∧ t.output.submitted.executed.length ≠ 0 then
        activations (afterMatch t.before.engine env o) env o.symbol
      else []
  | _ => []

/-- The call activates `o` once, as a limit order for the same account, side, price and
quantity, and lets go of it. -/
def Activates (t : Transition Market EngineOp EngineOut) (o : Order) : Prop :=
  ¬ Holds t.after.engine o
    ∧ ∃ x, (activatedBy t).filter (fun p => p.1.orderId = o.orderId) = [x]
      ∧ x.2.type = .limit ∧ x.2.accountId = o.accountId ∧ x.2.side = o.side
      ∧ x.2.price = o.price ∧ x.2.quantity = o.quantity

/-- `o`, submitted after the calls `pre`, is held until the call that touches its stop
price, and that call activates it. -/
structure StopKept (pre : List EngineOp) (env : SubmitEnv) (o : Order) (post : List EngineOp) :
    Prop where
  held : ∀ mid rest, post = mid ++ rest →
    (∀ t ∈ trace Market.step (marketAfter (pre ++ [.submit env o])) mid, ¬ Touches t o) →
    Holds (marketAfter (pre ++ .submit env o :: mid)).engine o
  activated : ∀ mid op rest, post = mid ++ op :: rest →
    (∀ t ∈ trace Market.step (marketAfter (pre ++ [.submit env o])) mid, ¬ Touches t o) →
    Touches (lastCall Market.step Market.initial (pre ++ .submit env o :: mid) op) o →
    Activates (lastCall Market.step Market.initial (pre ++ .submit env o :: mid) op) o

/-- No stop-limit order of the run is lost. -/
def StopsKept (ops : List EngineOp) : Prop :=
  ∀ pre env o post, ops = pre ++ .submit env o :: post →
    Admits (marketAfter pre).engine (.submit env o) o → o.type = .stopLimit → 0 < o.quantity →
    StopKept pre env o post

/-- Nothing is ever held. -/
theorem not_holds (ops : List EngineOp) (o : Order) : ¬ Holds (marketAfter ops).engine o := by
  unfold Holds
  rw [(engineInv_reachable ops).stops, Finmap.lookup_empty]
  exact List.not_mem_nil

/--
**When stop-limit orders are kept.** No stop-limit order of a run is lost if and only if
the run approves none, of a positive quantity, in the first place.
-/
theorem stops_kept_iff (ops : List EngineOp) :
    StopsKept ops ↔ ∀ o, Approved ops o → o.type = .stopLimit → o.quantity ≤ 0 := by
  constructor
  · intro hkept o happ htype
    by_contra hq
    obtain ⟨t, ht, ha⟩ := happ
    obtain ⟨pre, op, post, hops, rfl⟩ := mem_trace Market.step ht
    obtain ⟨env, hop⟩ := ha.1
    change op = _ at hop
    subst hop
    -- it would have to be held right after its own call
    have hheld := (hkept pre env o post hops ha htype (not_le.mp hq)).held [] post rfl (by simp)
    exact not_holds _ o hheld
  · intro hnone pre env o post hops ha htype hq
    refine absurd (hnone o ?_ htype) (not_le.mpr hq)
    refine ⟨lastCall Market.step Market.initial pre (.submit env o), ?_, ha⟩
    rw [hops, List.append_cons, marketTrace, trace_append, trace_snoc]
    exact List.mem_append_left _ (List.mem_append_right _ (List.mem_cons_self ..))

/-- A stop order to sell at 95 when the price falls to 96. -/
def lostStopRun : List EngineOp :=
  [.submit stillEnv (Order.create "s" 0 "A" "AAPL" .sell .stopLimit 9500000000 9600000000 10)]

/-- The order is approved, and neither held nor matched. -/
theorem stop_order_lost :
    (marketTrace lostStopRun).map (fun t => t.output.submitted.events.map OrderEvent.type)
        = [[.orderReceived]]
      ∧ ¬ StopsKept lostStopRun := by
  refine ⟨by decide, fun hkept => ?_⟩
  have hadm : Admits (marketAfter []).engine
      (.submit stillEnv (Order.create "s" 0 "A" "AAPL" .sell .stopLimit 9500000000 9600000000 10))
      (Order.create "s" 0 "A" "AAPL" .sell .stopLimit 9500000000 9600000000 10) :=
    ⟨⟨_, rfl⟩, rfl, by decide, by decide, by constructor <;> decide⟩
  have hheld := (hkept [] stillEnv _ [] rfl hadm rfl (by decide)).held [] [] rfl (by simp)
  exact not_holds _ _ hheld

end TitanX.Proof
