import TitanX.Model.MatchingEngine

/-!
# The HTTP gateway

`titanx/gateway/HttpServer`: the routes that reach the matching engine with more than a
query. A request comes with what the libraries behind the server say of it: what
`validateAndExtract` makes of a token, whether the rate limiter grants one, the body as the
JSON parser and `price_to_fixed` read it (or what they throw), and the id and the clock that
`Order::create` draws.

A handler answers with a status code and the members of a JSON object. One whose `submit`
gets stuck does not answer.
-/

namespace TitanX

structure JwtClaims where
  accountId : String
  permissions : List String
  tokenType : String
  valid : Bool
  error : String

/-- What a request brings for `authenticate`. -/
structure Credentials where
  /-- The header `Authorization`; empty when there is none. -/
  authHeader : String
  validateAndExtract : String → JwtClaims

/-- What the rate limiter says of a request. -/
structure RateAnswer where
  acquired : Bool
  retryAfter : Int

/-- The body of an order, with the defaults of absent members. -/
structure OrderBody where
  symbol : String
  side : String
  type : String
  quantity : Int
  price : Int
  stopPrice : Int

inductive Request where
  /-- `POST /api/v1/orders` -/
  | postOrder (credentials : Credentials) (rate : RateAnswer) (body : Except String OrderBody)
      (orderId : String) (now : Int) (env : SubmitEnv)
  /-- `DELETE /api/v1/orders/<orderId>`, with the query parameter `symbol` -/
  | deleteOrder (credentials : Credentials) (orderId : String) (symbolParam : Option String)
  /-- `POST /api/v1/admin/halt` -/
  | adminHalt (credentials : Credentials)
  /-- `POST /api/v1/admin/resume` -/
  | adminResume (credentials : Credentials)

/-- A member of a response. -/
inductive Field where
  | text (value : String)
  | number (value : Int)
  /-- An id, a price and a quantity for each trade. -/
  | trades (value : List (String × Int × Int))
  deriving DecidableEq

structure Response where
  code : Nat
  body : List (String × Field)
  deriving DecidableEq

/-- `std::transform` with `::toupper`. -/
def toUpper (s : String) : String := String.ofList (s.toList.map Char.toUpper)

def orderSideFromString (s : String) : Except String OrderSide :=
  if s = "BUY" then .ok .buy
  else if s = "SELL" then .ok .sell
  else .error ("Invalid OrderSide: " ++ s)

def orderTypeFromString (s : String) : Except String OrderType :=
  if s = "MARKET" then .ok .market
  else if s = "LIMIT" then .ok .limit
  else if s = "IOC" then .ok .ioc
  else if s = "FOK" then .ok .fok
  else if s = "STOP_LIMIT" then .ok .stopLimit
  else .error ("Invalid OrderType: " ++ s)

def OrderStatus.toText : OrderStatus → String
  | .pending => "PENDING"
  | .partiallyFilled => "PARTIALLY_FILLED"
  | .filled => "FILLED"
  | .cancelled => "CANCELLED"
  | .rejected => "REJECTED"

namespace HttpServer

def authenticate (c : Credentials) : Bool × JwtClaims :=
  if c.authHeader = "" ∨ c.authHeader.toList.take 7 ≠ "Bearer ".toList then
    (false, ⟨"", [], "", false, "Missing Authorization header"⟩)
  else
    let claims := c.validateAndExtract (String.ofList (c.authHeader.toList.drop 7))
    (claims.valid, claims)

/-- The order of a parsed body. Of two bad fields the compiler picks the one to report. -/
def orderOf (claims : JwtClaims) (orderId : String) (now : Int) (body : OrderBody) :
    Except String Order := do
  let side ← orderSideFromString (toUpper body.side)
  let type ← orderTypeFromString (toUpper body.type)
  return Order.create orderId now claims.accountId (toUpper body.symbol) side type body.price
    body.stopPrice body.quantity

def postOrder (engine : MatchingEngine) (credentials : Credentials) (rate : RateAnswer)
    (body : Except String OrderBody) (orderId : String) (now : Int) (env : SubmitEnv) :
    MatchingEngine × Option Response :=
  let claims := (authenticate credentials).2
  if !(authenticate credentials).1 then
    (engine, some ⟨401, [("error", .text "UNAUTHORIZED"), ("message", .text claims.error)]⟩)
  else if !rate.acquired then
    (engine, some ⟨429, [("error", .text "RATE_LIMIT_EXCEEDED"),
      ("message", .text "Maximum 100 orders/second per account"),
      ("retryAfter", .number rate.retryAfter)]⟩)
  else
    match body.bind (orderOf claims orderId now) with
    | .error what =>
        (engine, some ⟨400, [("error", .text "INVALID_REQUEST"), ("message", .text what)]⟩)
    | .ok order =>
        let r := engine.submit env order
        (r.1,
          if r.2.completed then
            some ⟨200, [("orderId", .text order.orderId), ("status", .text order.status.toText),
              ("tradesCount", .number r.2.trades.length),
              ("trades", .trades (r.2.trades.map (fun t => (t.tradeId, t.price, t.quantity))))]⟩
          else none)

def deleteOrder (engine : MatchingEngine) (credentials : Credentials) (orderId : String)
    (symbolParam : Option String) : MatchingEngine × Option Response :=
  if !(authenticate credentials).1 then
    (engine, some ⟨401, [("error", .text "UNAUTHORIZED")]⟩)
  else
    match symbolParam with
    | none =>
        (engine, some ⟨400, [("error", .text "MISSING_PARAM"),
          ("message", .text "symbol query parameter required")]⟩)
    | some symbol =>
        let r := engine.cancel (toUpper symbol) orderId
        (r.2,
          if r.1 then some ⟨200, [("orderId", .text orderId), ("status", .text "CANCELLED")]⟩
          else some ⟨404, [("error", .text "ORDER_NOT_FOUND"), ("orderId", .text orderId)]⟩)

def adminHalt (engine : MatchingEngine) (credentials : Credentials) :
    MatchingEngine × Option Response :=
  if !(authenticate credentials).1 then
    (engine, some ⟨401, [("error", .text "UNAUTHORIZED")]⟩)
  else
    (engine.halt, some ⟨200, [("status", .text "HALTED"),
      ("activatedBy", .text (authenticate credentials).2.accountId)]⟩)

def adminResume (engine : MatchingEngine) (credentials : Credentials) :
    MatchingEngine × Option Response :=
  if !(authenticate credentials).1 then
    (engine, some ⟨401, [("error", .text "UNAUTHORIZED")]⟩)
  else (engine.resume, some ⟨200, [("status", .text "RUNNING")]⟩)

/-- One request. -/
def handle (engine : MatchingEngine) : Request → MatchingEngine × Option Response
  | .postOrder credentials rate body orderId now env =>
      postOrder engine credentials rate body orderId now env
  | .deleteOrder credentials orderId symbolParam =>
      deleteOrder engine credentials orderId symbolParam
  | .adminHalt credentials => adminHalt engine credentials
  | .adminResume credentials => adminResume engine credentials

end HttpServer

end TitanX
