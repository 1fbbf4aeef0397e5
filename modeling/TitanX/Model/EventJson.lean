import TitanX.Lib.Json
import TitanX.Model.HttpServer
import TitanX.Model.Price

/-!
# Events as JSON

`to_json` of orders, trades and events, and the payload that `EventStore::writeToDb` makes of
an event. nlohmann keeps the members of an object sorted by key, so they are listed in that
order here. The text that its `dump` prints for a value is not part of the repository, and is a
parameter.

The system clock counts nanoseconds. An event does not carry its id and its time in this model
(`OrderEvent`), so they are given separately; its latency is 0, as every factory sets it.
-/

namespace TitanX

def OrderSide.toText : OrderSide → String
  | .buy => "BUY"
  | .sell => "SELL"

def OrderType.toText : OrderType → String
  | .market => "MARKET"
  | .limit => "LIMIT"
  | .ioc => "IOC"
  | .fok => "FOK"
  | .stopLimit => "STOP_LIMIT"

def EventType.toText : EventType → String
  | .orderReceived => "ORDER_RECEIVED"
  | .orderResting => "ORDER_RESTING"
  | .orderPartiallyFilled => "ORDER_PARTIALLY_FILLED"
  | .orderFilled => "ORDER_FILLED"
  | .orderCancelled => "ORDER_CANCELLED"
  | .orderRejected => "ORDER_REJECTED"
  | .circuitBreakerTriggered => "CIRCUIT_BREAKER_TRIGGERED"
  | .engineHalted => "ENGINE_HALTED"
  | .engineResumed => "ENGINE_RESUMED"

/-- `duration_cast<milliseconds>(time.time_since_epoch()).count()`, towards zero. -/
def toMillis (time : Int) : Int := time.tdiv 1000000

def Order.toJson (o : Order) : Json :=
  .object [
    ("accountId", .text o.accountId),
    ("createdAt", .number (toMillis o.createdAt)),
    ("orderId", .text o.orderId),
    ("price", .text (priceToString o.price)),
    ("quantity", .number o.quantity),
    ("remainingQuantity", .number o.remainingQuantity),
    ("side", .text o.side.toText),
    ("status", .text o.status.toText),
    ("stopPrice", .text (priceToString o.stopPrice)),
    ("symbol", .text o.symbol),
    ("type", .text o.type.toText),
    ("updatedAt", .number (toMillis o.updatedAt))]

def Trade.toJson (t : Trade) : Json :=
  .object [
    ("aggressorAccountId", .text t.aggressorAccountId),
    ("aggressorOrderId", .text t.aggressorOrderId),
    ("aggressorSide", .text t.aggressorSide.toText),
    ("executedAt", .number (toMillis t.executedAt)),
    ("passiveAccountId", .text t.passiveAccountId),
    ("passiveOrderId", .text t.passiveOrderId),
    ("price", .text (priceToString t.price)),
    ("quantity", .number t.quantity),
    ("symbol", .text t.symbol),
    ("tradeId", .text t.tradeId)]

/-- The member `trade` of an event. -/
def tradeJson : Option Trade → Json
  | none => .null
  | some trade => trade.toJson

def OrderEvent.toJson (e : OrderEvent) (eventId : String) (occurredAt : Int) : Json :=
  .object [
    ("accountId", .text e.accountId),
    ("eventId", .text eventId),
    ("latencyMicros", .number 0),
    ("occurredAt", .number (toMillis occurredAt)),
    ("orderId", .text e.orderId),
    ("orderSnapshot", e.orderSnapshot.toJson),
    ("rejectionReason", if e.rejectionReason = "" then .null else .text e.rejectionReason),
    ("symbol", .text e.symbol),
    ("trade", tradeJson e.trade),
    ("type", .text e.type.toText)]

/-- What `writeToDb` sends for the column `payload`. -/
def OrderEvent.payload (dump : Json → String) (e : OrderEvent) (eventId : String)
    (occurredAt : Int) : String :=
  dump (e.toJson eventId occurredAt)

end TitanX
