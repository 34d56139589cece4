import SystemDesignLabs.Core.Fallible
import SystemDesignLabs.Core.Text
import SystemDesignLabs.Core.TransitionSystem

/-!
# The authorization code flow

`Authorize` and `Exchange` of `oauth.go` as a transition system. A step is one section of a call: one under the
provider's mutex, or what lies between two of them. Clients and users are those that were registered before.
Times are nanoseconds. A token is given by its claims; `s256` is the encoded SHA-256 hash of a code verifier.
-/

namespace SystemDesignLabs.OauthProvider

open Core

/-! ### Data -/

/-- A registered client application. -/
structure Client where
  secret : String
  redirectURIs : List String
  isPublic : Bool
  deriving DecidableEq, Repr

def Client.hasRedirectURI (c : Client) (redirectURI : String) : Bool :=
  c.redirectURIs.contains redirectURI

structure User where
  email : String
  name : String
  deriving DecidableEq, Repr

/-- What a provider knows and does not change: its clients and users by their ids, its own URL, the hash of a
code verifier and the format `%q`. -/
structure Provider where
  clients : String → Option Client
  users : String → Option User
  issuerURL : String
  s256 : String → String
  quote : String → String

structure AuthorizationCode where
  code : String
  clientID : String
  userID : String
  scope : String
  redirectURI : String
  expiresAt : Nat
  nonce : String
  codeChallenge : String
  codeChallengeMethod : String
  deriving DecidableEq, Repr

structure AuthorizeParams where
  clientID : String
  redirectURI : String
  scope : String
  state : String
  nonce : String
  userID : String
  codeChallenge : String
  codeChallengeMethod : String
  deriving DecidableEq, Repr

structure ExchangeParams where
  grantType : String
  code : String
  clientID : String
  clientSecret : String
  redirectURI : String
  codeVerifier : String
  deriving DecidableEq, Repr

/-- The claims of an access token. -/
structure AccessToken where
  sub : String
  iss : String
  aud : String
  iat : Nat
  exp : Nat
  scope : String
  deriving DecidableEq, Repr

/-- The claims of an ID token. -/
structure IdToken where
  sub : String
  iss : String
  aud : String
  iat : Nat
  exp : Nat
  email : String
  name : String
  nonce : Option String
  deriving DecidableEq, Repr

structure TokenResponse where
  accessToken : AccessToken
  tokenType : String
  expiresIn : Nat
  scope : String
  idToken : Option IdToken
  deriving DecidableEq, Repr

/-- The redirect URL that `Authorize` builds, by what it adds to the redirect URI. -/
structure Redirect where
  redirectURI : String
  code : String
  state : Option String
  deriving DecidableEq, Repr

/-! ### Checks -/

/-- One second. -/
def second : Nat := 1000000000

/-- The lifetime of a code. -/
def tenMinutes : Nat := 600000000000

namespace Provider

variable (p : Provider)

def lookupClient (clientID : String) : Except String Client :=
  match p.clients clientID with
  | some c => .ok c
  | none => .error ("oauth: unknown client_id " ++ p.quote clientID)

def lookupUser (userID : String) : Except String User :=
  match p.users userID with
  | some u => .ok u
  | none => .error ("oauth: unknown user_id " ++ p.quote userID)

/-- What `Authorize` checks before it generates a code. -/
def validate (params : AuthorizeParams) : Except String Unit := do
  let client ← p.lookupClient params.clientID
  if !client.hasRedirectURI params.redirectURI then
    .error ("oauth: redirect_uri " ++ p.quote params.redirectURI ++ " not registered for client "
      ++ p.quote params.clientID)
  else if client.isPublic ∧ params.codeChallenge = "" then
    .error "oauth: PKCE required for public clients — include code_challenge"
  else if client.isPublic ∧ params.codeChallengeMethod ≠ "S256" then
    .error "oauth: only code_challenge_method=S256 is supported"
  else .ok ()

/-- The code that `Authorize` stores. -/
def newCode (params : AuthorizeParams) (code : String) (now : Nat) : AuthorizationCode :=
  ⟨code, params.clientID, params.userID, params.scope, params.redirectURI, now + tenMinutes, params.nonce,
    params.codeChallenge, params.codeChallengeMethod⟩

/-- What `Exchange` checks about the code it has taken: its expiry, its client and its redirect URI. -/
def checkBinding (params : ExchangeParams) (authCode : AuthorizationCode) (now : Nat) : Except String Unit :=
  if authCode.expiresAt < now then .error "oauth: authorization_code has expired"
  else if authCode.clientID ≠ params.clientID then .error "oauth: code was not issued to this client_id"
  else if authCode.redirectURI ≠ params.redirectURI then
    .error "oauth: redirect_uri does not match the authorization request"
  else .ok ()

/-- What `Exchange` checks about the client: its secret and its code verifier. -/
def checkClient (params : ExchangeParams) (authCode : AuthorizationCode) : Except String Unit := do
  let client ← p.lookupClient params.clientID
  if client.isPublic = false ∧ client.secret ≠ params.clientSecret then .error "oauth: invalid client_secret"
  else if authCode.codeChallenge ≠ "" ∧ params.codeVerifier = "" then
    .error "oauth: code_verifier required (PKCE was used in authorization request)"
  else if authCode.codeChallenge ≠ "" ∧ p.s256 params.codeVerifier ≠ authCode.codeChallenge then
    .error "oauth: code_verifier does not match code_challenge (PKCE verification failed)"
  else .ok ()

def issueAccessToken (userID scope clientID : String) (now : Nat) : AccessToken :=
  ⟨userID, p.issuerURL, clientID, now / second, now / second + 3600, scope⟩

/-- `issueIDToken`, where signing may fail. -/
def issueIDToken (userID clientID nonce : String) (now : Nat) (signError : Option String) :
    Except String IdToken := do
  let user ← p.lookupUser userID
  match signError with
  | some err => .error ("oauth: RSA sign failed: " ++ err)
  | none =>
    .ok ⟨userID, p.issuerURL, clientID, now / second, now / second + 3600, user.email, user.name,
      if nonce = "" then none else some nonce⟩

/-- The response without an ID token. -/
def newResponse (authCode : AuthorizationCode) (now : Nat) : TokenResponse :=
  ⟨p.issueAccessToken authCode.userID authCode.scope authCode.clientID now, "Bearer", 3600, authCode.scope, none⟩

end Provider

/-- `containsScope`, where `strings.Fields` splits at white space. -/
def containsScope (scopes target : String) : Bool :=
  (scopes.toList.splitBy fun a b => isWhitespace a == isWhitespace b).any fun field =>
    !field.any isWhitespace && field == target.toList

/-! ### Calls -/

/-- Where an `Authorize` stands. A code was issued once it is stored, at the time at which it was made. -/
inductive AuthorizePhase where
  | start
  | validated
  | generated (issuedAt : Nat) (authCode : AuthorizationCode)
  | issued (issuedAt : Nat) (authCode : AuthorizationCode) (result : Except String Redirect)
  | failed (err : String)
  deriving DecidableEq, Repr

structure Authorize where
  params : AuthorizeParams
  phase : AuthorizePhase
  deriving DecidableEq, Repr

/-- The code that the call has generated. -/
def Authorize.code? (a : Authorize) : Option String :=
  match a.phase with
  | .generated _ authCode => some authCode.code
  | .issued _ authCode _ => some authCode.code
  | _ => none

/-- The code that the call has stored. -/
def Authorize.issued? (a : Authorize) : Option AuthorizationCode :=
  match a.phase with
  | .issued _ authCode _ => some authCode
  | _ => none

/-- Where an `Exchange` stands. `checkedAt` is the time at which the expiry was checked; `known` says whether
the code of a failed call was issued by then. -/
inductive ExchangePhase where
  | start
  | granted
  | taken
  | bound (checkedAt : Nat)
  | verified (checkedAt : Nat)
  | accessIssued (checkedAt : Nat) (resp : TokenResponse)
  | succeeded (checkedAt : Nat) (resp : TokenResponse)
  | failed (err : String) (known : Bool)
  deriving DecidableEq, Repr

/-- An `Exchange` with its local `authCode`. -/
structure Exchange where
  params : ExchangeParams
  authCode : Option AuthorizationCode
  phase : ExchangePhase
  deriving DecidableEq, Repr

/-- A provider at work: the time, the codes by their key, and the calls. -/
structure World where
  now : Nat
  codes : List AuthorizationCode
  authorizes : List Authorize
  exchanges : List Exchange
  deriving DecidableEq, Repr

/-- The steps. What is random or comes from elsewhere is part of the label. -/
inductive Act where
  | tick (d : Nat)
  | authorize (params : AuthorizeParams)
  | validate (k : Nat)
  | generate (k : Nat) (code : Except String String)
  | store (k : Nat) (parseError : Option String)
  | exchange (params : ExchangeParams)
  | checkGrant (k : Nat)
  | take (k : Nat)
  | checkBinding (k : Nat)
  | checkClient (k : Nat)
  | issueAccess (k : Nat)
  | issueID (k : Nat) (signError : Option String)
  deriving DecidableEq, Repr

namespace World

/-- The code was issued. -/
def isKnown (w : World) (code : String) : Bool :=
  w.authorizes.any fun a => a.issued?.any fun authCode => authCode.code == code

/-- No call has generated the code: codes are random. -/
def isFresh (w : World) (code : String) : Bool :=
  w.authorizes.all fun a => a.code? != some code

def setAuthorize (w : World) (k : Nat) (phase : AuthorizePhase) : World :=
  { w with authorizes := w.authorizes.modify k fun a => { a with phase } }

def setExchange (w : World) (k : Nat) (phase : ExchangePhase) : World :=
  { w with exchanges := w.exchanges.modify k fun e => { e with phase } }

/-- An `Exchange` returns an error. -/
def fail (w : World) (k : Nat) (e : Exchange) (err : String) : World :=
  w.setExchange k (.failed err (w.isKnown e.params.code))

end World

/-- What `Authorize` returns for a stored code. -/
def redirectOf (params : AuthorizeParams) (code : String) (parseError : Option String) : Except String Redirect :=
  match parseError with
  | some err => .error ("oauth: invalid redirect_uri: " ++ err)
  | none => .ok ⟨params.redirectURI, code, if params.state = "" then none else some params.state⟩

/-- A step of an `Authorize`. -/
def stepAuthorize (p : Provider) (w : World) (k : Nat) (a : Authorize) : Act → Option World
  | .validate _ =>
    match a.phase with
    | .start =>
      match p.validate a.params with
      | .ok () => some (w.setAuthorize k .validated)
      | .error err => some (w.setAuthorize k (.failed err))
    | _ => none
  | .generate _ code =>
    match a.phase, code with
    | .validated, .ok code =>
      if w.isFresh code then
        some (w.setAuthorize k (.generated w.now (Provider.newCode a.params code w.now)))
      else none
    | .validated, .error err => some (w.setAuthorize k (.failed ("oauth: failed to generate code: " ++ err)))
    | _, _ => none
  | .store _ parseError =>
    match a.phase with
    | .generated issuedAt authCode =>
      let w := { w with codes := authCode :: w.codes.filter (·.code ≠ authCode.code) }
      some (w.setAuthorize k (.issued issuedAt authCode (redirectOf a.params authCode.code parseError)))
    | _ => none
  | _ => none

/-- A step of an `Exchange`. -/
def stepExchange (p : Provider) (w : World) (k : Nat) (e : Exchange) : Act → Option World
  | .checkGrant _ =>
    match e.phase with
    | .start =>
      if e.params.grantType ≠ "authorization_code" then
        some (w.fail k e ("oauth: unsupported grant_type " ++ p.quote e.params.grantType))
      else some (w.setExchange k .granted)
    | _ => none
  | .take _ =>
    match e.phase with
    | .granted =>
      match w.codes.find? (·.code == e.params.code) with
      | some authCode =>
        some { w with
          codes := w.codes.filter (·.code ≠ e.params.code)
          exchanges := w.exchanges.set k ⟨e.params, some authCode, .taken⟩ }
      | none => some (w.fail k e "oauth: invalid or already-used authorization_code")
    | _ => none
  | .checkBinding _ =>
    match e.phase, e.authCode with
    | .taken, some authCode =>
      match Provider.checkBinding e.params authCode w.now with
      | .ok () => some (w.setExchange k (.bound w.now))
      | .error err => some (w.fail k e err)
    | _, _ => none
  | .checkClient _ =>
    match e.phase, e.authCode with
    | .bound checkedAt, some authCode =>
      match p.checkClient e.params authCode with
      | .ok () => some (w.setExchange k (.verified checkedAt))
      | .error err => some (w.fail k e err)
    | _, _ => none
  | .issueAccess _ =>
    match e.phase, e.authCode with
    | .verified checkedAt, some authCode =>
      let resp := p.newResponse authCode w.now
      if containsScope authCode.scope "openid" then some (w.setExchange k (.accessIssued checkedAt resp))
      else some (w.setExchange k (.succeeded checkedAt resp))
    | _, _ => none
  | .issueID _ signError =>
    match e.phase, e.authCode with
    | .accessIssued checkedAt resp, some authCode =>
      match p.issueIDToken authCode.userID authCode.clientID authCode.nonce w.now signError with
      | .ok idToken => some (w.setExchange k (.succeeded checkedAt { resp with idToken := some idToken }))
      | .error err => some (w.fail k e ("oauth: failed to issue ID token: " ++ err))
    | _, _ => none
  | _ => none

/-- One step of a provider. -/
def step (p : Provider) (w : World) : Act → Option World
  | .tick d => some { w with now := w.now + d }
  | .authorize params => some { w with authorizes := w.authorizes ++ [⟨params, .start⟩] }
  | .validate k => (w.authorizes[k]?).bind fun a => stepAuthorize p w k a (.validate k)
  | .generate k code => (w.authorizes[k]?).bind fun a => stepAuthorize p w k a (.generate k code)
  | .store k parseError => (w.authorizes[k]?).bind fun a => stepAuthorize p w k a (.store k parseError)
  | .exchange params => some { w with exchanges := w.exchanges ++ [⟨params, none, .start⟩] }
  | .checkGrant k => (w.exchanges[k]?).bind fun e => stepExchange p w k e (.checkGrant k)
  | .take k => (w.exchanges[k]?).bind fun e => stepExchange p w k e (.take k)
  | .checkBinding k => (w.exchanges[k]?).bind fun e => stepExchange p w k e (.checkBinding k)
  | .checkClient k => (w.exchanges[k]?).bind fun e => stepExchange p w k e (.checkClient k)
  | .issueAccess k => (w.exchanges[k]?).bind fun e => stepExchange p w k e (.issueAccess k)
  | .issueID k signError => (w.exchanges[k]?).bind fun e => stepExchange p w k e (.issueID k signError)

/-- A provider that has seen no call. -/
def World.initial (now : Nat) : World :=
  ⟨now, [], [], []⟩

end SystemDesignLabs.OauthProvider
