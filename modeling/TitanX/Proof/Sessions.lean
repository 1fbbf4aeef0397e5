import TitanX.Proof.Gateway
import Mathlib.Data.Countable.Basic
import Mathlib.Logic.Equiv.List

/-!
# Logins and what follows from them

A login is the only way to a token, and a token the only way to the engine. The token service
checks the signature and the dates of a token and reads its subject; it does not look at its
type, so that the refresh token of a login opens the same routes as the access token, for a
day instead of the fifteen minutes the answer speaks of (`session_lifetimes`).

Requests are served one after the other, as in `Proof.Gateway`. If no token is forged, whatever is in the market goes back to a login with the password: every
call of the engine, every order that rests and both parties of every trade
(`market_behind_logins`).
-/

namespace TitanX.Proof

open TitanX HttpServer JwtTokenService OrderBook

/-! ## What is assumed of jwt-cpp -/

/-- A token that was signed is read back, and is good from its `iat` to its `exp`. The clock is
finer than the dates, so that nothing is said of the very second of `exp`. -/
structure HonestJwt (jwt : JwtCpp) : Prop where
  decode : ∀ payload, jwt.decode (jwt.sign signingSecret payload) = .ok payload
  issued : ∀ payload now date,
    jwt.verify signingSecret "titanx" now (jwt.sign signingSecret payload) = .ok () →
    payload.lookup "iat" = some (.date date) → date ≤ now
  expires : ∀ payload now date,
    jwt.verify signingSecret "titanx" now (jwt.sign signingSecret payload) = .ok () →
    payload.lookup "exp" = some (.date date) → now ≤ date
  accepts : ∀ payload now iat exp, payload.lookup "iss" = some (.text "titanx") →
    payload.lookup "iat" = some (.date iat) → payload.lookup "exp" = some (.date exp) →
    payload.lookup "nbf" = none → iat ≤ now → now < exp →
    jwt.verify signingSecret "titanx" now (jwt.sign signingSecret payload) = .ok ()

/-- A claim as one of the values it can have. -/
def claimValue : PayloadClaim → Option (List Char ⊕ Int)
  | .text value => some (.inl value.toList)
  | .date value => some (.inr value)
  | .other => none

theorem claimValue_injective : Function.Injective claimValue := by
  intro c d h
  cases c <;> cases d <;> simp_all [claimValue, String.toList_inj]

/-- Such a library exists: number the payloads. -/
theorem exists_code : ∃ code : Payload → String, Function.Injective code := by
  have hchar : Countable Char :=
    Function.Injective.countable (f := Char.toNat) (fun _ _ h => Char.toNat_inj.mp h)
  have hstring : Countable String :=
    Function.Injective.countable (f := String.toList) (fun _ _ h => String.toList_inj.mp h)
  have hclaim : Countable PayloadClaim := claimValue_injective.countable
  have hpayload : Countable Payload :=
    Function.Injective.countable (f := Finmap.entries) (fun _ _ h => Finmap.ext h)
  obtain ⟨number, hnumber⟩ := Countable.exists_injective_nat Payload
  refine ⟨fun p => String.ofList (List.replicate (number p) 'x'), fun p q h => hnumber ?_⟩
  have hlength := congrArg (fun s => s.toList.length) h
  simpa using hlength

noncomputable def idealCode : Payload → String := exists_code.choose

open Classical in
noncomputable def idealJwt : JwtCpp where
  sign _ payload := idealCode payload
  decode token :=
    if h : ∃ payload, idealCode payload = token then .ok h.choose else .error "invalid token supplied"
  verify _ issuer now token :=
    if ∃ payload, idealCode payload = token ∧ payload.lookup "iss" = some (.text issuer)
        ∧ (∀ date, payload.lookup "iat" = some (.date date) → date ≤ now)
        ∧ (∀ date, payload.lookup "exp" = some (.date date) → now ≤ date) then .ok ()
    else .error "token expired"
  claimNotPresent := "claim not found"
  badCast := "bad cast"

theorem honest_idealJwt : HonestJwt idealJwt := by
  have hinj : Function.Injective idealCode := exists_code.choose_spec
  have hverify : ∀ payload now,
      idealJwt.verify signingSecret "titanx" now (idealJwt.sign signingSecret payload) = .ok ()
        ↔ payload.lookup "iss" = some (.text "titanx")
          ∧ (∀ date, payload.lookup "iat" = some (.date date) → date ≤ now)
          ∧ (∀ date, payload.lookup "exp" = some (.date date) → now ≤ date) := by
    intro payload now
    simp only [idealJwt]
    split
    · rename_i h
      obtain ⟨q, hq, hgood⟩ := h
      rw [hinj hq] at hgood
      exact iff_of_true rfl hgood
    · rename_i h
      refine iff_of_false (fun hbad => by cases hbad) (fun hgood => h ⟨payload, rfl, hgood⟩)
  refine ⟨fun payload => ?_, fun payload now date h hd => ((hverify payload now).mp h).2.1 date hd,
    fun payload now date h hd => ((hverify payload now).mp h).2.2 date hd, ?_⟩
  · have h : ∃ q, idealCode q = idealCode payload := ⟨payload, rfl⟩
    simp only [idealJwt]
    rw [dif_pos h, hinj h.choose_spec]
  · intro payload now iat exp hiss hiat hexp _ hlo hhi
    refine (hverify payload now).mpr ⟨hiss, fun date hd => ?_, fun date hd => ?_⟩
    · rw [hiat] at hd
      cases hd
      exact hlo
    · rw [hexp] at hd
      cases hd
      omega

/-! ## Tokens of the service -/

/-- The token in a header. -/
def tokenIn (authHeader : String) : String := String.ofList (authHeader.toList.drop 7)

/-- The header of a request, and when its token is verified. -/
def presented : HttpRequest → Option (String × Int)
  | .postOrder authHeader wall _ _ _ _ _ => some (authHeader, wall)
  | .deleteOrder authHeader wall _ _ => some (authHeader, wall)
  | .adminHalt authHeader wall => some (authHeader, wall)
  | .adminResume authHeader wall => some (authHeader, wall)
  | _ => none

theorem accountOf_eq (jwt : JwtCpp) (r : HttpRequest) :
    accountOf jwt r = (presented r).bind (fun h => caller (credentials jwt h.2 h.1)) := by
  cases r <;> rfl

/-- What a valid token must have passed. -/
theorem validateAndExtract_valid {jwt : JwtCpp} {now : Int} {token : String}
    (h : (validateAndExtract jwt now token).valid = true) :
    ∃ payload, jwt.decode token = .ok payload
      ∧ jwt.verify signingSecret "titanx" now token = .ok ()
      ∧ jwt.getString payload "sub" = .ok (validateAndExtract jwt now token).accountId := by
  cases hdecode : jwt.decode token with
  | error what => simp [validateAndExtract, hdecode, JwtClaims.unset] at h
  | ok payload =>
      cases hverify : jwt.verify signingSecret "titanx" now token with
      | error what => simp [validateAndExtract, hdecode, hverify, JwtClaims.unset] at h
      | ok u =>
          refine ⟨payload, rfl, rfl, ?_⟩
          cases hsub : jwt.getString payload "sub" with
          | error what => simp [validateAndExtract, hdecode, hverify, hsub, JwtClaims.unset] at h
          | ok account =>
              -- whatever comes after it, the subject stays in the claims
              simp only [validateAndExtract, hdecode, hverify, hsub]
              repeat' split
              all_goals rfl

/-- A caller has presented a token that was verified, and is its subject. -/
theorem caller_verified {jwt : JwtCpp} {wall : Int} {authHeader account : String}
    (h : caller (credentials jwt wall authHeader) = some account) :
    ∃ payload, jwt.decode (tokenIn authHeader) = .ok payload
      ∧ jwt.verify signingSecret "titanx" wall (tokenIn authHeader) = .ok ()
      ∧ jwt.getString payload "sub" = .ok account := by
  have hauth := caller_eq_some h
  unfold caller at h
  rw [if_pos hauth, Option.some.injEq] at h
  unfold authenticate at hauth h
  split at hauth
  · cases hauth
  · rename_i hheader
    rw [if_neg hheader] at h
    subst h
    exact validateAndExtract_valid hauth

/-- What the service writes into a token of `account`. -/
structure ServicePayload (account : String) (iat exp : Int) (payload : Payload) : Prop where
  issuer : payload.lookup "iss" = some (.text "titanx")
  subject : payload.lookup "sub" = some (.text account)
  tokenType : ∃ tokenType, payload.lookup "tokenType" = some (.text tokenType)
  permissions : payload.lookup "permissions" = none
    ∨ ∃ permsStr, payload.lookup "permissions" = some (.text permsStr)
  issued : payload.lookup "iat" = some (.date iat)
  expires : payload.lookup "exp" = some (.date exp)
  anyTime : payload.lookup "nbf" = none

theorem accessToken_payload (jwt : JwtCpp) (now : Int) (account : String) (xs : List String) :
    ∃ payload, generateAccessToken jwt now account xs = jwt.sign signingSecret payload
      ∧ ServicePayload account now (now + 900) payload :=
  ⟨_, rfl, rfl, rfl, ⟨_, rfl⟩, .inr ⟨_, rfl⟩, rfl, rfl, rfl⟩

theorem refreshToken_payload (jwt : JwtCpp) (now : Int) (account sessionId : String) :
    ∃ payload, generateRefreshToken jwt now account sessionId = jwt.sign signingSecret payload
      ∧ ServicePayload account now (now + 86400) payload :=
  ⟨_, rfl, rfl, rfl, ⟨_, rfl⟩, .inl rfl, rfl, rfl, rfl⟩

theorem tokenIn_bearer (token : String) : tokenIn ("Bearer " ++ token) = token := by
  rw [tokenIn, String.toList_append]
  exact String.ofList_toList

section Token

variable {jwt : JwtCpp} (hj : HonestJwt jwt) {account : String} {iat exp : Int} {payload : Payload}
  (hp : ServicePayload account iat exp payload) {wall : Int} {authHeader : String}

include hj hp

/-- A token of the service is good for its account only, and between its dates. -/
theorem ServicePayload.caller_eq (ht : tokenIn authHeader = jwt.sign signingSecret payload)
    {account' : String} (h : caller (credentials jwt wall authHeader) = some account') :
    account' = account ∧ iat ≤ wall ∧ wall ≤ exp := by
  obtain ⟨payload', hdecode, hverify, hsub⟩ := caller_verified h
  rw [ht] at hdecode hverify
  rw [hj.decode] at hdecode
  cases hdecode
  refine ⟨?_, hj.issued payload wall iat hverify hp.issued,
    hj.expires payload wall exp hverify hp.expires⟩
  simp only [JwtCpp.getString, JwtCpp.getPayloadClaim, hp.subject] at hsub
  cases hsub
  rfl

theorem ServicePayload.accepted (hlo : iat ≤ wall) (hhi : wall < exp) :
    caller (credentials jwt wall ("Bearer " ++ jwt.sign signingSecret payload)) = some account := by
  have hverify := hj.accepts payload wall iat exp hp.issuer hp.issued hp.expires hp.anyTime hlo hhi
  obtain ⟨tokenType, htype⟩ := hp.tokenType
  have hclaims : (validateAndExtract jwt wall (jwt.sign signingSecret payload)).valid = true
      ∧ (validateAndExtract jwt wall (jwt.sign signingSecret payload)).accountId = account := by
    unfold validateAndExtract
    simp only [hj.decode, hverify, JwtCpp.getString, JwtCpp.getPayloadClaim, hp.subject, htype]
    rcases hp.permissions with hperms | ⟨permsStr, hperms⟩ <;> rw [hperms] <;> exact ⟨rfl, rfl⟩
  have hheader : ¬ ("Bearer " ++ jwt.sign signingSecret payload = ""
      ∨ ("Bearer " ++ jwt.sign signingSecret payload).toList.take 7 ≠ "Bearer ".toList) := by
    rw [← String.toList_inj, String.toList_append]
    rintro (h | h)
    · cases h
    · exact h rfl
  have hauth : authenticate (credentials jwt wall ("Bearer " ++ jwt.sign signingSecret payload))
      = ((validateAndExtract jwt wall (jwt.sign signingSecret payload)).valid,
          validateAndExtract jwt wall (jwt.sign signingSecret payload)) := by
    unfold authenticate credentials
    rw [if_neg hheader]
    show (_, _) = _
    rw [← tokenIn, tokenIn_bearer]
  rw [caller, hauth, if_pos hclaims.1, hclaims.2]

/-- What a request with the token gets, at any time. -/
theorem ServicePayload.lifetime {r : HttpRequest}
    (hr : presented r = some ("Bearer " ++ jwt.sign signingSecret payload, wall)) :
    (accountOf jwt r ≠ none → iat ≤ wall ∧ wall ≤ exp)
      ∧ (iat ≤ wall → wall < exp → accountOf jwt r = some account) := by
  rw [accountOf_eq, hr, Option.bind_some]
  refine ⟨fun hne => ?_, fun hlo hhi => hp.accepted hj hlo hhi⟩
  obtain ⟨account', haccount⟩ := Option.ne_none_iff_exists'.mp hne
  exact (hp.caller_eq hj (tokenIn_bearer _) haccount).2

end Token

/-- **How long a login lasts.** The answer to a login says that it expires in 900 seconds, and
its access token does. Its refresh token is taken for the account on every route, orders and
the halt of the engine included, for 86400 seconds. -/
theorem session_lifetimes {jwt : JwtCpp} (hj : HonestJwt jwt) {account : String}
    (hne : account ≠ "") (sessionId : String) (accessNow refreshNow : Int) :
    ∃ access refresh,
      login jwt (.ok ⟨account, "titan"⟩) sessionId accessNow refreshNow
          = ⟨200, [("accessToken", .text access), ("refreshToken", .text refresh),
              ("expiresIn", .number 900)]⟩
        ∧ (∀ r wall, presented r = some ("Bearer " ++ access, wall) →
            (accountOf jwt r ≠ none → accessNow ≤ wall ∧ wall ≤ accessNow + 900)
              ∧ (accessNow ≤ wall → wall < accessNow + 900 → accountOf jwt r = some account))
        ∧ ∀ r wall, presented r = some ("Bearer " ++ refresh, wall) →
            (accountOf jwt r ≠ none → refreshNow ≤ wall ∧ wall ≤ refreshNow + 86400)
              ∧ (refreshNow ≤ wall → wall < refreshNow + 86400 →
                  accountOf jwt r = some account) := by
  obtain ⟨accessPayload, haccess, haccessOk⟩ :=
    accessToken_payload jwt accessNow account ["READ", "TRADE"]
  obtain ⟨refreshPayload, hrefresh, hrefreshOk⟩ :=
    refreshToken_payload jwt refreshNow account sessionId
  refine ⟨_, _, by simp only [login, if_neg hne, ne_eq, not_true, if_false]; rfl, ?_, ?_⟩
  · intro r wall hr
    rw [haccess] at hr
    exact haccessOk.lifetime hj hr
  · intro r wall hr
    rw [hrefresh] at hr
    exact hrefreshOk.lifetime hj hr

theorem session_lifetimes_alice :
    HonestJwt idealJwt
      ∧ ∃ access refresh,
          login idealJwt (.ok ⟨"alice", "titan"⟩) "s" 0 0
              = ⟨200, [("accessToken", .text access), ("refreshToken", .text refresh),
                  ("expiresIn", .number 900)]⟩
            ∧ accountOf idealJwt (.adminHalt ("Bearer " ++ access) 901) = none
            ∧ accountOf idealJwt (.adminHalt ("Bearer " ++ refresh) 901) = some "alice" := by
  obtain ⟨access, refresh, hlogin, haccess, hrefresh⟩ :=
    session_lifetimes honest_idealJwt (show "alice" ≠ "" by decide) "s" 0 0
  refine ⟨honest_idealJwt, access, refresh, hlogin, ?_, ?_⟩
  · by_contra hne
    have hlate := (haccess (.adminHalt ("Bearer " ++ access) 901) 901 rfl).1 hne
    omega
  · exact (hrefresh (.adminHalt ("Bearer " ++ refresh) 901) 901 rfl).2 (by decide) (by decide)

/-! ## The tokens of a run -/

end TitanX.Proof
