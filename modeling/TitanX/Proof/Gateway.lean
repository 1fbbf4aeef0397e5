import TitanX.Model.Gateway
import TitanX.Proof.Ownership
import TitanX.Proof.RefillCredit

/-!
# Requests at the gateway

The state of the server has two parts, and each is a machine of its own: a request makes at
most one call of the rate limiter (`acquiresOf`) and at most one call of the engine (`opsOf`).
By the component rule the engine of a server is where its calls lead it, and so is the rate
limiter, in the order in which the requests were served.

The server has many threads, and here its requests are served one after the other: two of them
in one bucket at a time can get more than their share (`Proof.Overdraw`).

From there: no account gets more orders into the engine than its bucket has tokens for
(`gateway_rate_limit`), nobody spends the tokens of another account (`rate_limit_isolated`),
and requests that are not authenticated might as well not have been sent
(`unauthenticated_invisible`).
-/

namespace TitanX.Proof

open TitanX HttpServer TokenBucketRateLimiter

/-! ## What a request asks of the parts -/

/-- What a request brings for `authenticate`, on the routes that call it. -/
def credentialsOf (jwt : JwtCpp) : HttpRequest → Option Credentials
  | .postOrder authHeader wall _ _ _ _ _ => some (credentials jwt wall authHeader)
  | .deleteOrder authHeader wall _ _ => some (credentials jwt wall authHeader)
  | .adminHalt authHeader wall => some (credentials jwt wall authHeader)
  | .adminResume authHeader wall => some (credentials jwt wall authHeader)
  | _ => none

/-- The account a request is authenticated for. -/
def accountOf (jwt : JwtCpp) (r : HttpRequest) : Option String := (credentialsOf jwt r).bind caller

theorem not_authenticated {jwt : JwtCpp} {r : HttpRequest} (h : accountOf jwt r = none)
    {c : Credentials} (hc : credentialsOf jwt r = some c) : (authenticate c).1 = false := by
  have hcaller : caller c = none := by simpa [accountOf, hc] using h
  unfold caller at hcaller
  split at hcaller
  · cases hcaller
  · exact Bool.eq_false_iff.mpr (by assumption)

/-- The calls of `tryAcquire` that a request makes. -/
def acquiresOf (jwt : JwtCpp) : HttpRequest → List AcquireCall
  | .postOrder authHeader wall times _ _ _ _ =>
      if (authenticate (credentials jwt wall authHeader)).1 then
        [orderSubmit (authenticate (credentials jwt wall authHeader)).2 times]
      else []
  | _ => []

/-- The request as the routes of the engine see it. -/
def requestOf (jwt : JwtCpp) (s : HttpServer) : HttpRequest → Option Request
  | .postOrder authHeader wall times body orderId now env =>
      some (.postOrder (credentials jwt wall authHeader)
        (s.limit (credentials jwt wall authHeader) times).2 (body.bind OrderJson.read) orderId now env)
  | .deleteOrder authHeader wall orderId symbolParam =>
      some (.deleteOrder (credentials jwt wall authHeader) orderId symbolParam)
  | .adminHalt authHeader wall => some (.adminHalt (credentials jwt wall authHeader))
  | .adminResume authHeader wall => some (.adminResume (credentials jwt wall authHeader))
  | _ => none

/-- The calls of the engine that a request makes. -/
def opsOf (jwt : JwtCpp) (s : HttpServer) (r : HttpRequest) : List EngineOp :=
  ((requestOf jwt s r).bind callOf).toList

theorem serve_limiter (jwt : JwtCpp) (s : HttpServer) (r : HttpRequest) :
    (serve jwt s r).1.rateLimiter = run tryAcquire s.rateLimiter (acquiresOf jwt r) := by
  cases r with
  | postOrder authHeader wall times body orderId now env =>
      show (s.limit (credentials jwt wall authHeader) times).1 = _
      simp only [limit, acquiresOf]
      split <;> rfl
  | login | deleteOrder | getOrderBook | getHealth | adminHalt | adminResume => rfl

/-! ## The parts of a run -/

def gatewayAfter (jwt : JwtCpp) (requests : List HttpRequest) : HttpServer :=
  run (serve jwt) HttpServer.initial requests

def gatewayTrace (jwt : JwtCpp) (requests : List HttpRequest) :
    List (Transition HttpServer HttpRequest (Option Answer)) :=
  trace (serve jwt) HttpServer.initial requests

/-- The calls of the rate limiter in a run, in order. -/
def acquireCalls (jwt : JwtCpp) (requests : List HttpRequest) : List AcquireCall :=
  requests.flatMap (acquiresOf jwt)

/-- The calls of the rate limiter, with the states around them, are found in the run. -/
theorem trace_acquireCalls (jwt : JwtCpp) (requests : List HttpRequest) :
    trace tryAcquire TokenBucketRateLimiter.initial (acquireCalls jwt requests)
      = (gatewayTrace jwt requests).flatMap
          (fun t => trace tryAcquire t.before.rateLimiter (acquiresOf jwt t.input)) := by
  rw [acquireCalls, ← flatMap_trace (serve jwt) (acquiresOf jwt) HttpServer.initial]
  exact trace_component (s := HttpServer.initial) (serve jwt) tryAcquire HttpServer.rateLimiter
    (fun t => acquiresOf jwt t.input) (fun _ r => serve_limiter jwt _ r) requests

/-! ## The rate of orders -/

/-- The orders that a call submits. -/
def ordersOf : EngineOp → List Order
  | .submit _ order => [order]
  | _ => []

theorem submit_of_mem_ordersOf {op : EngineOp} {order : Order} (h : order ∈ ordersOf op) :
    ∃ env, op = .submit env order := by
  cases op with
  | submit env o => rw [List.mem_singleton.mp h]; exact ⟨env, rfl⟩
  | cancel | halt | resume => cases h

/-- A request of `POST /api/v1/orders` for which the rate limiter is asked between `s` and `t`. -/
def askedIn (s t : Int) : HttpRequest → Bool
  | .postOrder _ _ times _ _ _ _ => s ≤ times.nowMs.count ∧ times.nowMs.count ≤ t
  | _ => false

/-- The requests of a run that get an order of `account` into the engine between `s` and `t`. -/
def ordersIn (jwt : JwtCpp) (requests : List HttpRequest) (account : String) (s t : Int) : Nat :=
  (gatewayTrace jwt requests).countP fun tr =>
    askedIn s t tr.input
      && ((opsOf jwt tr.before tr.input).flatMap ordersOf).any (fun order => order.accountId = account)

theorem orderOf_accountId {claims : JwtClaims} {orderId : String} {now : Int} {body : OrderBody}
    {order : Order} (h : HttpServer.orderOf claims orderId now body = .ok order) :
    order.accountId = claims.accountId := by
  unfold HttpServer.orderOf at h
  cases hside : orderSideFromString (toUpper body.side) with
  | error what => rw [hside] at h; cases h
  | ok side =>
      cases htype : orderTypeFromString (toUpper body.type) with
      | error what => rw [hside, htype] at h; cases h
      | ok type =>
          rw [hside, htype] at h
          cases h
          rfl

/-- **An order that reaches the engine** is that of the authenticated account, and the rate
limiter has granted a token of that account for it. -/
theorem submit_of_request {jwt : JwtCpp} {s : HttpServer} {r : HttpRequest} {env : SubmitEnv}
    {order : Order} (h : .submit env order ∈ opsOf jwt s r) :
    ∃ times : LimiterTimes,
      (∀ lo hi, askedIn lo hi r = true → lo ≤ times.nowMs.count ∧ times.nowMs.count ≤ hi)
      ∧ accountOf jwt r = some order.accountId
      ∧ acquiresOf jwt r = [⟨order.accountId, "ORDER_SUBMIT", times.createdMs, times.nowMs⟩]
      ∧ (s.rateLimiter.tryAcquire
          ⟨order.accountId, "ORDER_SUBMIT", times.createdMs, times.nowMs⟩).2 = true := by
  have hcall : (requestOf jwt s r).bind callOf = some (.submit env order) := by
    simpa [opsOf] using h
  cases r with
  | login | getOrderBook | getHealth => cases hcall
  | deleteOrder authHeader wall orderId symbolParam =>
      simp only [requestOf, Option.bind_some, callOf] at hcall
      split at hcall
      · cases hcall
      · cases symbolParam <;> cases hcall
  | adminHalt authHeader wall | adminResume authHeader wall =>
      simp only [requestOf, Option.bind_some, callOf] at hcall
      split at hcall <;> cases hcall
  | postOrder authHeader wall times body orderId now env' =>
      simp only [requestOf, Option.bind_some, callOf] at hcall
      generalize hc : credentials jwt wall authHeader = c at hcall
      cases hauth : (authenticate c).1 with
      | false => simp [hauth] at hcall
      | true =>
          simp only [hauth, Bool.not_true, Bool.false_eq_true, if_false] at hcall
          split at hcall
          · cases hcall
          · rename_i hacq
            split at hcall
            · cases hcall
            · rename_i o horder
              cases hcall
              obtain ⟨parsed, -, hparsed⟩ : ∃ parsed, body.bind OrderJson.read = .ok parsed
                  ∧ HttpServer.orderOf (authenticate c).2 orderId now parsed = .ok order := by
                cases hb : body.bind OrderJson.read with
                | error what => rw [hb] at horder; cases horder
                | ok parsed => rw [hb] at horder; exact ⟨parsed, rfl, horder⟩
              rw [orderOf_accountId hparsed]
              refine ⟨times, fun lo hi hasked => by simpa [askedIn] using hasked, ?_, ?_, ?_⟩
              · simp [accountOf, credentialsOf, caller, hc, hauth]
              · simp [acquiresOf, hc, hauth, orderSubmit]
              · simpa [limit, hauth, orderSubmit] using hacq

theorem countP_le_countP_flatMap {α β : Type} {p : β → Bool} {q : α → Bool} {f : α → List β}
    {l : List α} (h : ∀ a ∈ l, q a = true → 0 < (f a).countP p) :
    l.countP q ≤ (l.flatMap f).countP p := by
  induction l with
  | nil => exact Nat.le_refl _
  | cons a l ih =>
      have htail := ih (fun b hb => h b (List.mem_cons_of_mem _ hb))
      have hhead := h a (List.mem_cons_self ..)
      rw [List.countP_cons, List.flatMap_cons, List.countP_append]
      split
      · have := hhead (by assumption)
        omega
      · omega

theorem ordersIn_le_granted (jwt : JwtCpp) (requests : List HttpRequest) (account : String)
    (s t : Int) :
    ordersIn jwt requests account s t
      ≤ granted (inWindow account "ORDER_SUBMIT" s t) (acquireCalls jwt requests) := by
  rw [ordersIn, granted, trace_acquireCalls]
  refine countP_le_countP_flatMap fun tr _ h => ?_
  simp only [Bool.and_eq_true, List.any_eq_true, List.mem_flatMap, decide_eq_true_eq] at h
  obtain ⟨hasked, order, ⟨op, hop, horder⟩, rfl⟩ := h
  obtain ⟨env, rfl⟩ := submit_of_mem_ordersOf horder
  obtain ⟨times, hin, -, hacquires, hacq⟩ := submit_of_request hop
  rw [hacquires]
  refine List.countP_pos_iff.mpr ⟨_, List.mem_singleton_self _, ?_⟩
  rw [Bool.and_eq_true]
  refine ⟨?_, hacq⟩
  have := hin s t hasked
  simp [inWindow, this]

/-- **The rate limit of the gateway.** However the orders are posted, with whichever tokens and
whatever the other accounts do, at most 100 orders of an account reach the engine in a window,
and one more for every 10 ms that it is long. -/
theorem gateway_rate_limit {jwt : JwtCpp} {requests : List HttpRequest}
    (h : ClockOrder (acquireCalls jwt requests)) (account : String) {s t : Int} (hst : s ≤ t) :
    (ordersIn jwt requests account s t : Int) ≤ 100 + (t - s + 9) / 10 := by
  have hle := ordersIn_le_granted jwt requests account s t
  have hgranted := granted_inWindow_le account "ORDER_SUBMIT" hst (acquireCalls jwt requests) h
  omega

/-- A library that takes any text for a token of the account it names. -/
def trustingJwt : JwtCpp where
  sign _ _ := ""
  decode token := .ok ((∅ : Payload).insert "sub" (.text token) |>.insert "tokenType" (.text "ACCESS"))
  verify _ _ _ _ := .ok ()
  claimNotPresent := "claim not found"
  badCast := "bad cast"

/-- A buy of one share for 100.00, posted at `ms`. -/
def posted (ms : SteadyMs) (orderId : String) : HttpRequest :=
  .postOrder "Bearer alice" 0 ⟨ms, ms, ms⟩ (.ok ⟨"aapl", "buy", "limit", 1, .text "100.00", .absent⟩)
    orderId 0 stillEnv

def twoPosted : List HttpRequest := [posted startMs "a", posted tenMs "b"]

theorem gateway_rate_limit_two_posted :
    ClockOrder (acquireCalls trustingJwt twoPosted)
      ∧ ordersIn trustingJwt twoPosted "alice" 0 10 = 2
      ∧ (ordersIn trustingJwt twoPosted "alice" 0 10 : Int) ≤ 100 + (10 - 0 + 9) / 10 := by
  have hcalls : acquireCalls trustingJwt twoPosted
      = [⟨"alice", "ORDER_SUBMIT", startMs, startMs⟩, ⟨"alice", "ORDER_SUBMIT", tenMs, tenMs⟩] := by
    rfl
  have horder : ClockOrder (acquireCalls trustingJwt twoPosted) := by
    rw [hcalls]
    exact ⟨by decide, by decide⟩
  exact ⟨horder, by decide +kernel, gateway_rate_limit horder "alice" (by decide)⟩

/-! ## The tokens of others -/

/-- The calls that ask the bucket of `key`. -/
def asks (key : String) (c : AcquireCall) : Bool := bucketKey c.accountId c.endpoint = key

/-- The bucket of a key answers as if no other bucket were asked. -/
theorem bucket_isolated (key : String) (calls : List AcquireCall) :
    ((trace tryAcquire TokenBucketRateLimiter.initial calls).filter
        (fun t => asks key t.input)).map Transition.output
      = outputs tryAcquire TokenBucketRateLimiter.initial (calls.filter (asks key)) := by
  refine outputs_isolated tryAcquire (fun l => l.buckets.lookup key) (asks key) ?_ ?_ calls rfl
  · intro l c hc
    have hne : key ≠ bucketKey c.accountId c.endpoint := Ne.symm (by simpa [asks] using hc)
    rw [lookup_tryAcquire, if_neg hne]
  · intro l l' c hc hl
    have heq : bucketKey c.accountId c.endpoint = key := by simpa [asks] using hc
    have hfound : l.findOrCreate key c.createdMs.count = l'.findOrCreate key c.createdMs.count := by
      unfold findOrCreate
      rw [hl]
    refine ⟨?_, ?_⟩
    · rw [lookup_tryAcquire, lookup_tryAcquire, hfound, hl]
    · simp only [tryAcquire, heq, hfound]

/-- At one endpoint every account has a bucket of its own. -/
theorem bucketKey_inj {account account' endpoint : String} :
    bucketKey account endpoint = bucketKey account' endpoint ↔ account = account' := by
  refine ⟨fun h => ?_, fun h => by rw [h]⟩
  have hlist := congrArg String.toList h
  simp only [bucketKey, String.toList_append, List.append_assoc] at hlist
  exact String.toList_inj.mp (List.append_cancel_right hlist)

theorem orderSubmit_key (account : String) (claims : JwtClaims) (times : LimiterTimes) :
    asks (bucketKey account "ORDER_SUBMIT") (orderSubmit claims times)
      = decide (claims.accountId = account) :=
  decide_eq_decide.mpr bucketKey_inj

/-- An answer that says to come back later. -/
def tooMany : Option Answer → Bool
  | some (.object response) => response.code = 429
  | _ => false

/-- Whether a request of `POST /api/v1/orders` by `account` got past the rate limiter. -/
def passed (jwt : JwtCpp) (account : String)
    (t : Transition HttpServer HttpRequest (Option Answer)) : List Bool :=
  match t.input with
  | .postOrder .. => if accountOf jwt t.input = some account then [!tooMany t.output] else []
  | _ => []

theorem tooMany_postOrder {e : MatchingEngine} {c : Credentials} (hc : (authenticate c).1 = true)
    (rate : RateAnswer) (body : Except String OrderBody) (orderId : String) (now : Int)
    (env : SubmitEnv) :
    tooMany ((postOrder e c rate body orderId now env).2.map .object) = !rate.acquired := by
  unfold postOrder
  simp only [hc, Bool.not_true, Bool.false_eq_true, if_false]
  cases hrate : rate.acquired with
  | false => rfl
  | true =>
      simp only [Bool.not_true, Bool.false_eq_true, if_false]
      split
      · rfl
      · split <;> rfl

/-- The calls on the bucket of an account are the requests that the account makes. -/
theorem passed_eq (jwt : JwtCpp) (account : String) (s : HttpServer) (r : HttpRequest) :
    passed jwt account ⟨s, r, (serve jwt s r).2, (serve jwt s r).1⟩
      = ((trace tryAcquire s.rateLimiter (acquiresOf jwt r)).filter
          (fun t => asks (bucketKey account "ORDER_SUBMIT") t.input)).map Transition.output := by
  cases r with
  | login | deleteOrder | getOrderBook | getHealth | adminHalt | adminResume => rfl
  | postOrder authHeader wall times body orderId now env =>
      have hserve : (serve jwt s (.postOrder authHeader wall times body orderId now env)).2
          = (postOrder s.engine (credentials jwt wall authHeader)
              (s.limit (credentials jwt wall authHeader) times).2 (body.bind OrderJson.read) orderId
              now env).2.map .object := rfl
      simp only [passed, hserve, accountOf, credentialsOf, Option.bind_some, caller, acquiresOf]
      generalize credentials jwt wall authHeader = c
      cases hauth : (authenticate c).1 with
      | false => simp
      | true =>
          have hlimit : (s.limit c times).2.acquired
              = (s.rateLimiter.tryAcquire (orderSubmit (authenticate c).2 times)).2 := by
            simp [limit, hauth]
          rw [tooMany_postOrder hauth, hlimit]
          simp only [if_true, Option.some.injEq, Bool.not_not, trace, List.filter_cons,
            orderSubmit_key, decide_eq_true_eq, List.filter_nil]
          split <;> rfl

/-- **Nobody spends another account's tokens.** Which of the orders an account posts are turned
away with 429 is what a rate limiter of its own would say: it depends on when the account
itself has posted, and on nothing that other accounts do. -/
theorem rate_limit_isolated (jwt : JwtCpp) (requests : List HttpRequest) (account : String) :
    (gatewayTrace jwt requests).flatMap (passed jwt account)
      = outputs tryAcquire TokenBucketRateLimiter.initial
          ((acquireCalls jwt requests).filter (fun c => c.accountId = account)) := by
  have hown : (acquireCalls jwt requests).filter (fun c => c.accountId = account)
      = (acquireCalls jwt requests).filter (asks (bucketKey account "ORDER_SUBMIT")) := by
    refine List.filter_congr fun c hc => ?_
    obtain ⟨r, -, hr⟩ := List.mem_flatMap.mp hc
    cases r with
    | login | deleteOrder | getOrderBook | getHealth | adminHalt | adminResume => cases hr
    | postOrder authHeader wall times body orderId now env =>
        simp only [acquiresOf] at hr
        split at hr
        · rw [List.mem_singleton.mp hr, orderSubmit_key]
          rfl
        · cases hr
  rw [hown, ← bucket_isolated, trace_acquireCalls, List.filter_flatMap, List.map_flatMap]
  refine List.flatMap_congr fun t ht => ?_
  obtain ⟨pre, r, -, -, rfl⟩ := mem_trace _ ht
  exact passed_eq jwt account _ r

/-! ## Requests without a valid token -/

/-- A request that is authenticated. Logins and queries are not: they need no token. -/
def authenticated (jwt : JwtCpp) (r : HttpRequest) : Bool := (accountOf jwt r).isSome

theorem onEngine_unauthenticated {s : HttpServer} {request : Request} {c : Credentials}
    (h : (authenticate c).1 = false)
    (hr : (∃ rate body orderId now env, request = .postOrder c rate body orderId now env)
      ∨ (∃ orderId symbolParam, request = .deleteOrder c orderId symbolParam)
      ∨ request = .adminHalt c ∨ request = .adminResume c) :
    (s.onEngine request).1 = s
      ∧ ∃ response, (s.onEngine request).2 = some (.object response) ∧ response.code = 401 := by
  rcases hr with ⟨rate, body, orderId, now, env, rfl⟩ | ⟨orderId, symbolParam, rfl⟩ | rfl | rfl <;>
    simp [onEngine, handle, postOrder, deleteOrder, adminHalt, adminResume, h]

/-- A request that is not authenticated changes nothing; a route that needs a token says so. -/
theorem serve_unauthenticated {jwt : JwtCpp} {r : HttpRequest} (h : accountOf jwt r = none)
    (s : HttpServer) :
    (serve jwt s r).1 = s
      ∧ (credentialsOf jwt r ≠ none →
          ∃ response, (serve jwt s r).2 = some (.object response) ∧ response.code = 401) := by
  cases r with
  | login | getOrderBook | getHealth => exact ⟨rfl, fun hc => absurd rfl hc⟩
  | postOrder authHeader wall times body orderId now env =>
      have hauth := not_authenticated h rfl
      have hlimit : (s.limit (credentials jwt wall authHeader) times).1 = s.rateLimiter := by
        simp [limit, hauth]
      obtain ⟨hstate, hcode⟩ := onEngine_unauthenticated
        (s := { s with rateLimiter := (s.limit (credentials jwt wall authHeader) times).1 })
        hauth (.inl ⟨_, body.bind OrderJson.read, orderId, now, env, rfl⟩)
      exact ⟨hstate.trans (by rw [hlimit]), fun _ => hcode⟩
  | deleteOrder authHeader wall orderId symbolParam =>
      have hres := onEngine_unauthenticated (s := s) (not_authenticated h rfl)
        (.inr (.inl ⟨orderId, symbolParam, rfl⟩))
      exact ⟨hres.1, fun _ => hres.2⟩
  | adminHalt authHeader wall =>
      have hres := onEngine_unauthenticated (s := s) (not_authenticated h rfl) (.inr (.inr (.inl rfl)))
      exact ⟨hres.1, fun _ => hres.2⟩
  | adminResume authHeader wall =>
      have hres := onEngine_unauthenticated (s := s) (not_authenticated h rfl) (.inr (.inr (.inr rfl)))
      exact ⟨hres.1, fun _ => hres.2⟩

/-- **Without a token there is no effect.** Take every request that is not authenticated out of
a run: the others find the same states, get the same answers and leave the same server. Those
taken out of the routes that need a token were answered with 401. -/
theorem unauthenticated_invisible (jwt : JwtCpp) (requests : List HttpRequest) :
    gatewayAfter jwt (requests.filter (authenticated jwt)) = gatewayAfter jwt requests
      ∧ gatewayTrace jwt (requests.filter (authenticated jwt))
          = (gatewayTrace jwt requests).filter (fun t => authenticated jwt t.input)
      ∧ ∀ t ∈ gatewayTrace jwt requests, authenticated jwt t.input = false →
          credentialsOf jwt t.input ≠ none →
          ∃ response, t.output = some (.object response) ∧ response.code = 401 := by
  have hnone : ∀ r, authenticated jwt r = false → accountOf jwt r = none := by
    intro r hr
    simpa [authenticated] using hr
  obtain ⟨hrun, htrace⟩ := trace_filter (serve jwt) (authenticated jwt)
    (fun s r hr => (serve_unauthenticated (hnone r hr) s).1) HttpServer.initial requests
  refine ⟨hrun, htrace, fun t ht hauth hroute => ?_⟩
  obtain ⟨pre, r, -, -, rfl⟩ := mem_trace _ ht
  exact (serve_unauthenticated (hnone r hauth) _).2 hroute

end TitanX.Proof
