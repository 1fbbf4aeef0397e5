import TitanX.Model.HttpServer
import TitanX.Model.JavaBook
import TitanX.Model.Price

/-!
# Market data

What the exchange shows of itself: `OrderBook::snapshot`, `MatchingEngine::getSnapshot`, and
the two routes of `titanx/gateway/HttpServer` that need no token, `GET /api/v1/orderbook` and
`GET /api/v1/health`. Beside it the snapshot of the Java reference book.

`to_json` of a snapshot writes `lastTradePrice ? price_to_string(*lastTradePrice) : nullptr`.
Both branches of a conditional have one type, here `std::string`, and a `std::string` made
from a null pointer throws. The model keeps the throw, and the server answers it with 500.
-/

namespace TitanX

structure PriceLevel where
  price : Int
  totalQuantity : Int
  orderCount : Int
  deriving DecidableEq

structure OrderBookSnapshot where
  symbol : String
  bids : List PriceLevel
  asks : List PriceLevel
  lastTradePrice : Option Int
  deriving DecidableEq

def OrderBookSnapshot.side (snap : OrderBookSnapshot) : OrderSide → List PriceLevel
  | .buy => snap.bids
  | .sell => snap.asks

/-- The value of a number in `int`. -/
def wrap32 (x : Int) : Int := x.bmod 4294967296

/-! ## Snapshots -/

namespace OrderBook

/-- The sum over a queue. -/
def levelQuantity (queue : List Order) : Int :=
  queue.foldl (fun qty o => wrap64 (qty + o.remainingQuantity)) 0

def priceLevel (l : Int × List Order) : PriceLevel :=
  ⟨l.1, levelQuantity l.2, wrap32 l.2.length⟩

/-- The loop over the levels of a side, which stops when `count` reaches `depth`. -/
def snapshotSide (depth : Int) : Int → Levels → List PriceLevel
  | _, [] => []
  | count, l :: ls =>
      if count ≥ depth then [] else priceLevel l :: snapshotSide depth (count + 1) ls

def snapshot (b : OrderBook) (depth : Int) : OrderBookSnapshot :=
  ⟨b.symbol, snapshotSide depth 0 b.bids.entries, snapshotSide depth 0 b.asks.entries,
    b.lastTradePrice⟩

end OrderBook

def MatchingEngine.getSnapshot (e : MatchingEngine) (symbol : String) (depth : Int) :
    Option OrderBookSnapshot :=
  match e.books.lookup symbol with
  | none => none
  | some book => if symbol ∈ e.locks then some (book.snapshot depth) else none

namespace Java

structure PriceLevel where
  price : BigDecimal
  totalQuantity : Int
  orderCount : Int
  deriving DecidableEq

/-- The two sides and the last price of a snapshot. -/
structure OrderBookSnapshot where
  bids : List PriceLevel
  asks : List PriceLevel
  lastTradePrice : Option BigDecimal
  deriving DecidableEq

namespace OrderBook

variable {Q : Type} [PriorityQueue Q Order]

/-- The sum of a stream over the queue is a `long` and its size an `int`. -/
def priceLevel (e : BigDecimal × Q) : PriceLevel :=
  ⟨e.1, (PriorityQueue.elems e.2).foldl (fun qty o => wrap64 (qty + o.remainingQuantity)) 0,
    wrap32 (PriorityQueue.elems e.2).length⟩

def snapshotSide (depth : Int) : Int → List (BigDecimal × Q) → List PriceLevel
  | _, [] => []
  | count, e :: es =>
      if count ≥ depth then [] else priceLevel e :: snapshotSide depth (count + 1) es

def snapshot (b : OrderBook Q) (depth : Int) : OrderBookSnapshot :=
  ⟨snapshotSide depth 0 b.bids.entries, snapshotSide depth 0 b.asks.entries, b.lastTradePrice⟩

end OrderBook

end Java

/-! ## As JSON -/

structure LevelView where
  price : String
  totalQuantity : Int
  orderCount : Int
  deriving DecidableEq

structure BookView where
  symbol : String
  bids : List LevelView
  asks : List LevelView
  lastTradePrice : String
  deriving DecidableEq

def PriceLevel.toJson (l : PriceLevel) : LevelView :=
  ⟨priceToString l.price, l.totalQuantity, l.orderCount⟩

/-- Nothing if the conversion throws. -/
def OrderBookSnapshot.toJson (snap : OrderBookSnapshot) : Option BookView :=
  snap.lastTradePrice.map (fun lastTradePrice =>
    ⟨snap.symbol, snap.bids.map PriceLevel.toJson, snap.asks.map PriceLevel.toJson,
      priceToString lastTradePrice⟩)

/-! ## The routes -/

/-- `std::atoi` as in glibc: `strtol`, which stops at the ends of its range, cut to an `int`. -/
def atoi (text : String) : Int :=
  let (negative, cs) := takeSign (text.toList.dropWhile isSpace)
  let magnitude : Int := Nat.ofDigitChars 10 (cs.takeWhile Char.isDigit) 0
  let value := if negative then -magnitude else magnitude
  wrap32 (max (-9223372036854775808) (min 9223372036854775807 value))

inductive QueryResponse where
  /-- 200 -/
  | book (view : BookView)
  /-- 404, with the symbol as it was asked for -/
  | symbolNotFound (symbol : String)
  /-- 500 -/
  | serverError
  deriving DecidableEq

structure HealthResponse where
  status : String
  halted : Bool
  circuitBreakers : Finmap (fun _ : String => Bool)

namespace HttpServer

/-- The query parameter `depth`. -/
def depthOf (depthParam : Option String) : Int :=
  match depthParam with
  | none => 10
  | some text => if atoi text ≤ 0 then 10 else atoi text

/-- `GET /api/v1/orderbook/<symbol>` -/
def getOrderBook (engine : MatchingEngine) (symbol : String) (depthParam : Option String) :
    QueryResponse :=
  match engine.getSnapshot (toUpper symbol) (depthOf depthParam) with
  | none => .symbolNotFound symbol
  | some snap =>
      match snap.toJson with
      | some view => .book view
      | none => .serverError

/-- `GET /api/v1/health`. It asks the circuit breaker, and does not answer when that waits. -/
def getHealth (engine : MatchingEngine) : Option HealthResponse :=
  (CircuitBreaker.haltStatus engine.riskEngine.circuitBreaker).value?.map (fun status =>
    ⟨if engine.halted then "HALTED" else "RUNNING", engine.halted, status⟩)

end HttpServer

end TitanX
