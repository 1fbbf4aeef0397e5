import TitanX.Proof.Gateway

/-!
# Coming back later

An order that is turned away with 429 is told how many seconds to wait. An account that waits
as long gets its next order past the rate limiter, whatever the other accounts send meanwhile
(`retry_after_honest`). Ten milliseconds would do as well: an empty bucket has been refilled
less than that ago, and gets a token when they are over. As in `Proof.Gateway` the requests are
served one after the other; an order of the same account that is still being served could take
the token.
-/

namespace TitanX.Proof

open TitanX HttpServer TokenBucketRateLimiter TokenBucket

/-! ## The bucket -/

/-- Ten milliseconds after the last refill there is a token. -/
theorem tryConsume_granted {b : TokenBucket} (h : Standard b) {now : SteadyMs}
    (hnow : b.lastRefillTimeMs + 10 ≤ now.count) : (b.tryConsume now.count).2 = true := by
  have hnonneg := h.nonneg
  have hrefilled : 0 < (b.refill now.count).tokens := by
    rw [refill_standard h, if_pos hnow]
    dsimp only
    omega
  rcases tryConsume_cases b now.count with ⟨-, heq⟩ | ⟨hempty, -⟩
  · rw [heq]
  · omega

/-- Whoever waits as long as `secondsUntilRefill` says has waited for the refill. -/
theorem secondsUntilRefill_spec {b : TokenBucket} (h : Standard b) {now : SteadyMs}
    (hlast : b.lastRefillTimeMs ≤ now.count) :
    (b.secondsUntilRefill now.count = 0 ∨ b.secondsUntilRefill now.count = 1)
      ∧ b.lastRefillTimeMs + 10 ≤ now.count + 1000 * b.secondsUntilRefill now.count := by
  have hlo := h.lo
  have hhi := now.hi
  have helapsed : wrap64 (now.count - b.lastRefillTimeMs) = now.count - b.lastRefillTimeMs :=
    wrap64_of_lt (by omega) (by omega)
  unfold secondsUntilRefill
  rw [helapsed, tokensToAdd_standard h.rate (by omega) (by omega)]
  split
  · exact ⟨.inl rfl, by omega⟩
  · exact ⟨.inr rfl, by omega⟩

/-- The bucket that a call in order leaves behind. -/
theorem asked_bucket {calls : List AcquireCall} {c : AcquireCall} (hc : ClockOrder (calls ++ [c])) :
    ∃ b, ((limiterAfter calls).tryAcquire c).1.buckets.lookup (bucketKey c.accountId c.endpoint)
        = some b
      ∧ Standard b ∧ b.lastRefillTimeMs ≤ c.nowMs.count := by
  obtain ⟨hstandard, hlast⟩ := (bucketsInv_run calls hc.init).findOrCreate hc
    (bucketKey c.accountId c.endpoint)
  refine ⟨_, by rw [lookup_tryAcquire, if_pos rfl], standard_tryConsume hstandard c.nowMs, ?_⟩
  rw [tryConsume_last]
  exact refill_last_le hstandard hlast

/-! ## Requests -/

theorem limiter_gatewayAfter (jwt : JwtCpp) (requests : List HttpRequest) :
    (gatewayAfter jwt requests).rateLimiter = limiterAfter (acquireCalls jwt requests) := by
  rw [acquireCalls, ← flatMap_trace (serve jwt) (acquiresOf jwt) HttpServer.initial]
  exact run_component (serve jwt) tryAcquire HttpServer.rateLimiter
    (fun t => acquiresOf jwt t.input) (fun _ r => serve_limiter jwt _ r) requests

/-- What the rate limiter reads of the clock for an order. -/
def timesOf : HttpRequest → Option LimiterTimes
  | .postOrder _ _ times _ _ _ _ => some times
  | _ => none

/-- A request of `POST /api/v1/orders` by `account`. -/
structure PostOf (jwt : JwtCpp) (account : String) (times : LimiterTimes) (r : HttpRequest) :
    Prop where
  times : timesOf r = some times
  account : accountOf jwt r = some account

/-- The call that an order of `account` makes. -/
def submitCall (account : String) (times : LimiterTimes) : AcquireCall :=
  ⟨account, "ORDER_SUBMIT", times.createdMs, times.nowMs⟩

/-- The answer to an order that is turned away. -/
def refusal (retryAfter : Int) : Option Answer :=
  some (.object ⟨429, [("error", .text "RATE_LIMIT_EXCEEDED"),
    ("message", .text "Maximum 100 orders/second per account"), ("retryAfter", .number retryAfter)]⟩)

section Post

variable {jwt : JwtCpp} {account : String} {times : LimiterTimes} {r : HttpRequest}
  (h : PostOf jwt account times r)

include h

/-- Such a request is authenticated, and asks the rate limiter for its account. -/
theorem PostOf.eq_postOrder :
    ∃ authHeader wall body orderId now env,
      r = .postOrder authHeader wall times body orderId now env
        ∧ (authenticate (credentials jwt wall authHeader)).1 = true
        ∧ (authenticate (credentials jwt wall authHeader)).2.accountId = account := by
  obtain ⟨htimes, haccount⟩ := h
  cases r with
  | login | deleteOrder | getOrderBook | getHealth | adminHalt | adminResume => cases htimes
  | postOrder authHeader wall times' body orderId now env =>
      cases htimes
      have hcaller : caller (credentials jwt wall authHeader) = some account := haccount
      refine ⟨_, _, _, _, _, _, rfl, caller_eq_some hcaller, ?_⟩
      unfold caller at hcaller
      rw [if_pos (caller_eq_some haccount)] at hcaller
      exact Option.some.inj hcaller

theorem PostOf.acquiresOf_eq : acquiresOf jwt r = [submitCall account times] := by
  obtain ⟨authHeader, wall, body, orderId, now, env, rfl, hauth, rfl⟩ := h.eq_postOrder
  simp only [acquiresOf, hauth, if_true]
  rfl

theorem PostOf.limit_eq (s : HttpServer) :
    ∃ body orderId now env c, (authenticate c).1 = true
      ∧ (serve jwt s r).2 = (postOrder s.engine c
          ⟨(s.rateLimiter.tryAcquire (submitCall account times)).2,
            (s.rateLimiter.tryAcquire (submitCall account times)).1.retryAfterSeconds account
              "ORDER_SUBMIT" times.retryMs⟩
          body orderId now env).2.map .object := by
  obtain ⟨authHeader, wall, body, orderId, now, env, rfl, hauth, rfl⟩ := h.eq_postOrder
  refine ⟨body.bind OrderJson.read, orderId, now, env, credentials jwt wall authHeader, hauth, ?_⟩
  show (postOrder s.engine (credentials jwt wall authHeader)
    (s.limit (credentials jwt wall authHeader) times).2 _ orderId now env).2.map Answer.object = _
  simp only [limit, hauth, if_true]
  rfl

/-- The rate limiter decides between the two answers. -/
theorem PostOf.serve_refused {s : HttpServer}
    (hacquired : (s.rateLimiter.tryAcquire (submitCall account times)).2 = false) :
    (serve jwt s r).2 = refusal
      ((s.rateLimiter.tryAcquire (submitCall account times)).1.retryAfterSeconds account
        "ORDER_SUBMIT" times.retryMs) := by
  obtain ⟨body, orderId, now, env, c, hauth, hserve⟩ := h.limit_eq s
  rw [hserve, hacquired]
  simp [postOrder, hauth, refusal]

theorem PostOf.serve_passed {s : HttpServer}
    (hacquired : (s.rateLimiter.tryAcquire (submitCall account times)).2 = true) :
    tooMany (serve jwt s r).2 = false := by
  obtain ⟨body, orderId, now, env, c, hauth, hserve⟩ := h.limit_eq s
  rw [hserve, tooMany_postOrder hauth, hacquired]
  rfl

/-- A refusal says what the bucket of the account says. -/
theorem PostOf.seconds_of_refusal {s : HttpServer} {b : TokenBucket} {seconds : Int}
    (hlookup : (s.rateLimiter.tryAcquire (submitCall account times)).1.buckets.lookup
      (bucketKey account "ORDER_SUBMIT") = some b)
    (hrefused : (serve jwt s r).2 = refusal seconds) :
    seconds = b.secondsUntilRefill times.retryMs.count := by
  cases hacquired : (s.rateLimiter.tryAcquire (submitCall account times)).2 with
  | true =>
      have hpassed := h.serve_passed hacquired
      rw [hrefused] at hpassed
      cases hpassed
  | false =>
      have hanswer := h.serve_refused hacquired
      rw [hrefused, retryAfterSeconds, hlookup] at hanswer
      simpa [refusal] using hanswer

end Post

/-- Only such requests ask the rate limiter. -/
theorem postOf_of_mem_acquiresOf {jwt : JwtCpp} {q : HttpRequest} {c : AcquireCall}
    (h : c ∈ acquiresOf jwt q) : ∃ account times, PostOf jwt account times q := by
  cases q with
  | login | deleteOrder | getOrderBook | getHealth | adminHalt | adminResume => cases h
  | postOrder authHeader wall times body orderId now env =>
      simp only [acquiresOf] at h
      split at h
      · rename_i hauth
        refine ⟨(authenticate (credentials jwt wall authHeader)).2.accountId, times, rfl, ?_⟩
        simp [accountOf, credentialsOf, caller, hauth]
      · cases h

/-- What others send leaves the bucket of an account alone. -/
theorem bucket_frame {jwt : JwtCpp} {account : String} {requests : List HttpRequest}
    (h : ∀ q ∈ requests, ∀ times, ¬ PostOf jwt account times q) (s : HttpServer) :
    (run (serve jwt) s requests).rateLimiter.buckets.lookup (bucketKey account "ORDER_SUBMIT")
      = s.rateLimiter.buckets.lookup (bucketKey account "ORDER_SUBMIT") := by
  induction requests generalizing s with
  | nil => rfl
  | cons q requests ih =>
      show (run (serve jwt) (serve jwt s q).1 requests).rateLimiter.buckets.lookup _ = _
      rw [ih (fun q' hq' => h q' (List.mem_cons_of_mem _ hq')), serve_limiter]
      cases hcalls : acquiresOf jwt q with
      | nil => rfl
      | cons c cs =>
          have hc : c ∈ acquiresOf jwt q := by rw [hcalls]; exact List.mem_cons_self ..
          obtain ⟨account', times, hpost⟩ := postOf_of_mem_acquiresOf hc
          have hne : account ≠ account' := by
            rintro rfl
            exact h q (List.mem_cons_self ..) times hpost
          rw [← hcalls, hpost.acquiresOf_eq]
          show (s.rateLimiter.tryAcquire (submitCall account' times)).1.buckets.lookup _ = _
          rw [lookup_tryAcquire]
          exact if_neg (fun hkey => hne (bucketKey_inj.mp hkey))

/--
**`Retry-After` is honest.** An account whose order is turned away is told to wait for no
second or for one. After that time, or after 10 ms if that is earlier, its next order gets past
the rate limiter, if it sends none in between; what others send does not matter.
-/
theorem retry_after_honest {jwt : JwtCpp} {account : String} {times times' : LimiterTimes}
    {before between : List HttpRequest} {r r' : HttpRequest} {seconds : Int}
    (hr : PostOf jwt account times r) (hr' : PostOf jwt account times' r')
    (hothers : ∀ q ∈ between, ∀ t, ¬ PostOf jwt account t q)
    (hclock : ClockOrder (acquireCalls jwt (before ++ [r])))
    (hretry : times.nowMs.count ≤ times.retryMs.count)
    (hrefused : (serve jwt (gatewayAfter jwt before) r).2 = refusal seconds) :
    (seconds = 0 ∨ seconds = 1)
      ∧ (times.retryMs.count + 1000 * seconds ≤ times'.nowMs.count
          ∨ times.nowMs.count + 10 ≤ times'.nowMs.count →
        tooMany (serve jwt (gatewayAfter jwt (before ++ [r] ++ between)) r').2 = false) := by
  have hcalls : acquireCalls jwt (before ++ [r])
      = acquireCalls jwt before ++ [submitCall account times] := by
    rw [acquireCalls, List.flatMap_append, List.flatMap_singleton, hr.acquiresOf_eq]
    rfl
  obtain ⟨b, hlookup, hstandard, hlast⟩ := asked_bucket (hcalls ▸ hclock)
  have hlast : b.lastRefillTimeMs ≤ times.nowMs.count := hlast
  have hlimiter : ((gatewayAfter jwt before).rateLimiter.tryAcquire
      (submitCall account times)).1.buckets.lookup (bucketKey account "ORDER_SUBMIT") = some b := by
    rw [limiter_gatewayAfter]
    exact hlookup
  have hseconds := hr.seconds_of_refusal hlimiter hrefused
  obtain ⟨hvalue, hwait⟩ := secondsUntilRefill_spec hstandard (hlast.trans hretry)
  refine ⟨by rw [hseconds]; exact hvalue, fun hlater => hr'.serve_passed ?_⟩
  -- and it is still there when the account comes back
  have hfound : (gatewayAfter jwt (before ++ [r] ++ between)).rateLimiter.buckets.lookup
      (bucketKey account "ORDER_SUBMIT") = some b := by
    rw [gatewayAfter, run_append, bucket_frame hothers, run_snoc, serve_limiter, hr.acquiresOf_eq]
    exact hlimiter
  have hgranted : (b.tryConsume times'.nowMs.count).2 = true :=
    tryConsume_granted hstandard (by omega)
  unfold tryAcquire findOrCreate
  simp only [submitCall, hfound, Option.getD_some]
  exact hgranted

/-- A request of alice's at `ms` whose body is no JSON. -/
def garbled (ms : SteadyMs) : HttpRequest :=
  .postOrder "Bearer alice" 0 ⟨ms, ms, ms⟩ (.error "parse error") "a" 0 stillEnv

/-- As many as there are tokens. -/
def flood : List HttpRequest := List.replicate 100 (garbled startMs)

theorem postOf_garbled (ms : SteadyMs) : PostOf trustingJwt "alice" ⟨ms, ms, ms⟩ (garbled ms) :=
  ⟨rfl, rfl⟩

theorem clockOrder_flood : ClockOrder (acquireCalls trustingJwt (flood ++ [garbled startMs])) := by
  have hcalls : ∀ c ∈ acquireCalls trustingJwt (flood ++ [garbled startMs]),
      c = submitCall "alice" ⟨startMs, startMs, startMs⟩ := by
    intro c hc
    obtain ⟨q, hq, hc⟩ := List.mem_flatMap.mp hc
    have hgarbled : q = garbled startMs := by
      rcases List.mem_append.mp hq with hq | hq
      · exact List.eq_of_mem_replicate hq
      · exact List.mem_singleton.mp hq
    rw [hgarbled, (postOf_garbled startMs).acquiresOf_eq] at hc
    exact List.mem_singleton.mp hc
  refine ⟨fun c hc => ?_, List.pairwise_of_forall_mem_list fun c hc d hd => ?_⟩
  · rw [hcalls c hc]
    exact Int.le_refl _
  · rw [hcalls c hc, hcalls d hd]
    exact Int.le_refl _

theorem retry_after_honest_flood :
    (serve trustingJwt (gatewayAfter trustingJwt flood) (garbled startMs)).2 = refusal 1
      ∧ tooMany (serve trustingJwt
          (gatewayAfter trustingJwt (flood ++ [garbled startMs] ++ [.getHealth]))
          (garbled tenMs)).2 = false := by
  have hrefused : (serve trustingJwt (gatewayAfter trustingJwt flood) (garbled startMs)).2
      = refusal 1 := by
    rw [(postOf_garbled startMs).serve_refused (by decide +kernel)]
    exact congrArg refusal (by decide +kernel)
  have hothers : ∀ q ∈ [HttpRequest.getHealth], ∀ t, ¬ PostOf trustingJwt "alice" t q := by
    intro q hq t ht
    rw [List.mem_singleton.mp hq] at ht
    cases ht.times
  exact ⟨hrefused, (retry_after_honest (postOf_garbled startMs) (postOf_garbled tenMs) hothers
    clockOrder_flood (Int.le_refl _) hrefused).2 (.inr (by decide))⟩

end TitanX.Proof
