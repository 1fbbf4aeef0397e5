import TitanX.Model.JwtTokenService
import TitanX.Model.TokenBucketRateLimiter
import TitanX.Model.MarketData

/-!
# The gateway and what is behind it

`HttpServer` with the token service, the rate limiter and the engine it is made of, and all
of its routes. A request is what arrives: a header, a body whose prices are numbers or text,
a query parameter. Outside are jwt-cpp, the JSON parser (a body is what `value` and `get`
make of it, or what they throw) and the clocks.

The requests of a run are served one after the other. `Model.Concurrent` has the engine, and
the second half of `Model.TokenBucketRateLimiter` a bucket, under several threads.
-/

namespace TitanX

/-- The body of a login. A member that is absent is empty. -/
structure LoginBody where
  accountId : String
  password : String

/-- The member `price` or `stopPrice` of an order. -/
inductive PriceMember where
  /-- Not there, or `null`. -/
  | absent
  | text (value : String)
  /-- A JSON number, as a double. -/
  | number (value : ℚ)
  /-- Any other JSON, with what `get<double>` throws for it. -/
  | other (what : String)

def PriceMember.toFixed : PriceMember → Except String Int
  | .absent => .ok 0
  | .text value => priceToFixedOfString value
  | .number value => .ok (priceToFixed value)
  | .other what => .error what

/-- The body of an order, with its prices as they are written. -/
structure OrderJson where
  symbol : String
  side : String
  type : String
  quantity : Int
  price : PriceMember
  stopPrice : PriceMember

def OrderJson.read (body : OrderJson) : Except String OrderBody := do
  let price ← body.price.toFixed
  let stopPrice ← body.stopPrice.toFixed
  return ⟨body.symbol, body.side, body.type, body.quantity, price, stopPrice⟩

/-- What the rate limiter reads of the steady clock for a request: when it creates a bucket,
when it refills one, and when it computes `Retry-After`. -/
structure LimiterTimes where
  createdMs : SteadyMs
  nowMs : SteadyMs
  retryMs : SteadyMs

/-- A request. `wall` is the system clock in seconds when a token is verified. -/
inductive HttpRequest where
  /-- `POST /api/v1/auth/login`, with the times at which the two tokens are issued -/
  | login (body : Except String LoginBody) (sessionId : String) (accessNow refreshNow : Int)
  /-- `POST /api/v1/orders` -/
  | postOrder (authHeader : String) (wall : Int) (times : LimiterTimes)
      (body : Except String OrderJson) (orderId : String) (now : Int) (env : SubmitEnv)
  /-- `DELETE /api/v1/orders/<orderId>` -/
  | deleteOrder (authHeader : String) (wall : Int) (orderId : String) (symbolParam : Option String)
  /-- `GET /api/v1/orderbook/<symbol>` -/
  | getOrderBook (symbol : String) (depthParam : Option String)
  /-- `GET /api/v1/health` -/
  | getHealth
  /-- `POST /api/v1/admin/halt` -/
  | adminHalt (authHeader : String) (wall : Int)
  /-- `POST /api/v1/admin/resume` -/
  | adminResume (authHeader : String) (wall : Int)

inductive Answer where
  | object (response : Response)
  | query (response : QueryResponse)
  | health (response : HealthResponse)

structure HttpServer where
  engine : MatchingEngine
  rateLimiter : TokenBucketRateLimiter

namespace HttpServer

def initial : HttpServer := ⟨MatchingEngine.initial, TokenBucketRateLimiter.initial⟩

def login (jwt : JwtCpp) (body : Except String LoginBody) (sessionId : String)
    (accessNow refreshNow : Int) : Response :=
  match body with
  | .error what => ⟨400, [("error", .text "INVALID_REQUEST"), ("message", .text what)]⟩
  | .ok body =>
    if body.accountId = "" then
      ⟨400, [("error", .text "INVALID_REQUEST"), ("message", .text "accountId required")]⟩
    else if body.password ≠ "titan" then
      ⟨401, [("error", .text "UNAUTHORIZED"), ("message", .text "Invalid credentials")]⟩
    else
      ⟨200, [
        ("accessToken", .text
          (JwtTokenService.generateAccessToken jwt accessNow body.accountId ["READ", "TRADE"])),
        ("refreshToken", .text
          (JwtTokenService.generateRefreshToken jwt refreshNow body.accountId sessionId)),
        ("expiresIn", .number 900)]⟩

/-- What `authenticate` has of a request. -/
def credentials (jwt : JwtCpp) (wall : Int) (authHeader : String) : Credentials :=
  ⟨authHeader, JwtTokenService.validateAndExtract jwt wall⟩

/-- A route that changes the engine. -/
def onEngine (s : HttpServer) (request : Request) : HttpServer × Option Answer :=
  let r := handle s.engine request
  ({ s with engine := r.1 }, r.2.map .object)

/-- The call of `tryAcquire` that an authenticated order makes. -/
def orderSubmit (claims : JwtClaims) (times : LimiterTimes) : AcquireCall :=
  ⟨claims.accountId, "ORDER_SUBMIT", times.createdMs, times.nowMs⟩

/-- The rate limiter is asked once the caller is known. -/
def limit (s : HttpServer) (c : Credentials) (times : LimiterTimes) :
    TokenBucketRateLimiter × RateAnswer :=
  let (authed, claims) := authenticate c
  if authed then
    let (limiter, acquired) := s.rateLimiter.tryAcquire (orderSubmit claims times)
    (limiter, ⟨acquired, limiter.retryAfterSeconds claims.accountId "ORDER_SUBMIT" times.retryMs⟩)
  else (s.rateLimiter, ⟨false, 0⟩)

/-- One request, and its answer if there is one. -/
def serve (jwt : JwtCpp) (s : HttpServer) : HttpRequest → HttpServer × Option Answer
  | .login body sessionId accessNow refreshNow =>
      (s, some (.object (login jwt body sessionId accessNow refreshNow)))
  | .postOrder authHeader wall times body orderId now env =>
      let c := credentials jwt wall authHeader
      let (rateLimiter, rate) := s.limit c times
      { s with rateLimiter }.onEngine
        (.postOrder c rate (body.bind OrderJson.read) orderId now env)
  | .deleteOrder authHeader wall orderId symbolParam =>
      s.onEngine (.deleteOrder (credentials jwt wall authHeader) orderId symbolParam)
  | .getOrderBook symbol depthParam => (s, some (.query (getOrderBook s.engine symbol depthParam)))
  | .getHealth => (s, (getHealth s.engine).map .health)
  | .adminHalt authHeader wall => s.onEngine (.adminHalt (credentials jwt wall authHeader))
  | .adminResume authHeader wall => s.onEngine (.adminResume (credentials jwt wall authHeader))

end HttpServer

end TitanX
