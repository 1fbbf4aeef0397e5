import TitanX.Model.HttpServer

/-!
# Access tokens

`titanx/gateway/JwtTokenService`, over what jwt-cpp does: a token is a string that jwt-cpp
makes of a payload, and a payload is read back from it or an exception is thrown. The
permissions of an account travel as one string claim with commas between them.
-/

namespace TitanX

/-- A claim of a payload. Those the service does not write may be any JSON. -/
inductive PayloadClaim where
  | text (value : String)
  /-- In seconds. -/
  | date (value : Int)
  | other

/-- The claims of a token by their names, `iss`, `sub`, `iat` and `exp` among them. -/
abbrev Payload := Finmap (fun _ : String => PayloadClaim)

/-- What the service uses of jwt-cpp. An exception is its `what()`. -/
structure JwtCpp where
  /-- `sign` with `hs256` and a secret -/
  sign : String → Payload → String
  decode : String → Except String Payload
  /-- `verify` with `hs256` and a secret, an expected issuer and the time in seconds -/
  verify : String → String → Int → String → Except String Unit
  claimNotPresent : String
  badCast : String

namespace JwtCpp

def getPayloadClaim (jwt : JwtCpp) (decoded : Payload) (name : String) :
    Except String PayloadClaim :=
  match decoded.lookup name with
  | some claim => .ok claim
  | none => .error jwt.claimNotPresent

def asString (jwt : JwtCpp) : PayloadClaim → Except String String
  | .text value => .ok value
  | _ => .error jwt.badCast

/-- `get_payload_claim(name).as_string()` -/
def getString (jwt : JwtCpp) (decoded : Payload) (name : String) : Except String String :=
  (jwt.getPayloadClaim decoded name).bind jwt.asString

end JwtCpp

/-- `JwtClaims` as it is declared, before anything is known of a token. -/
def JwtClaims.unset : JwtClaims :=
  { accountId := "", permissions := [], tokenType := "", valid := false, error := "" }

namespace JwtTokenService

def accessTokenTtlSeconds : Int := 15 * 60

def refreshTokenTtlSeconds : Int := 24 * 60 * 60

def signingSecret : String := "titanx-secret-key-minimum-256-bits-for-hs256!!"

/-- The loop over the permissions: a comma before each of them but the first. -/
def joinPermissions (permissions : List String) : String :=
  permissions.zipIdx.foldl
    (fun permsStr entry => (if entry.2 > 0 then permsStr ++ "," else permsStr) ++ entry.1) ""

def generateAccessToken (jwt : JwtCpp) (now : Int) (accountId : String)
    (permissions : List String) : String :=
  let payload : Payload := (∅ : Payload)
    |>.insert "iss" (.text "titanx")
    |>.insert "sub" (.text accountId)
    |>.insert "accountId" (.text accountId)
    |>.insert "permissions" (.text (joinPermissions permissions))
    |>.insert "tokenType" (.text "ACCESS")
    |>.insert "iat" (.date now)
    |>.insert "exp" (.date (now + accessTokenTtlSeconds))
  jwt.sign signingSecret payload

def generateRefreshToken (jwt : JwtCpp) (now : Int) (accountId sessionId : String) : String :=
  let payload : Payload := (∅ : Payload)
    |>.insert "iss" (.text "titanx")
    |>.insert "sub" (.text accountId)
    |>.insert "sessionId" (.text sessionId)
    |>.insert "tokenType" (.text "REFRESH")
    |>.insert "iat" (.date now)
    |>.insert "exp" (.date (now + refreshTokenTtlSeconds))
  jwt.sign signingSecret payload

/-- `if (!perm.empty()) claims.permissions.push_back(perm)` -/
def pushPerm (permissions : List String) (perm : String) : List String :=
  if perm.isEmpty then permissions else permissions ++ [perm]

/-- One character of the claim. The state is `claims.permissions` and `perm`. -/
def splitStep (state : List String × String) (c : Char) : List String × String :=
  if c = ',' then (pushPerm state.1 state.2, "") else (state.1, state.2.push c)

/-- The loop over the characters, and the piece after the last comma. -/
def splitPermissions (permsStr : String) : List String :=
  let state := permsStr.toList.foldl splitStep ([], "")
  pushPerm state.1 state.2

/-- What has been read of a token when an exception is thrown stays in the claims. -/
def validateAndExtract (jwt : JwtCpp) (now : Int) (token : String) : JwtClaims :=
  let claims := JwtClaims.unset
  match jwt.decode token with
  | .error what => { claims with error := what }
  | .ok decoded =>
    match jwt.verify signingSecret "titanx" now token with
    | .error what => { claims with error := what }
    | .ok () =>
      match jwt.getString decoded "sub" with
      | .error what => { claims with error := what }
      | .ok accountId =>
        let claims := { claims with accountId := accountId }
        match jwt.getString decoded "tokenType" with
        | .error what => { claims with error := what }
        | .ok tokenType =>
          let claims := { claims with tokenType := tokenType }
          match decoded.lookup "permissions" with
          | none => { claims with valid := true }
          | some claim =>
            match jwt.asString claim with
            | .error what => { claims with error := what }
            | .ok permsStr =>
              { claims with permissions := splitPermissions permsStr, valid := true }

end JwtTokenService

end TitanX
