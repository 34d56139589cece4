import SystemDesignLabs.Core.Cells
import SystemDesignLabs.OauthProvider.Provider

/-!
# One grant for every code

A code is stored by the `Authorize` that generated it, and is taken out of the map by the first `Exchange` that
looks it up, before any check. So a code is in the map or was taken by one call (`Inv.owner`, `Inv.covered`),
and what that call checked about it is what it returns tokens for (`Inv.checked`). The check of the grant type
comes before the code is looked up: an `Exchange` with another grant type fails and leaves the code usable.
-/

namespace SystemDesignLabs.OauthProvider

open Option (bind_eq_some_iff some_inj)

open Core World

/-! ### Statement -/

namespace World

/-- The code is in the map. -/
def Usable (w : World) (code : String) : Prop :=
  ∃ authCode ∈ w.codes, authCode.code = code

/-- A call has stored the code. -/
def Issued (w : World) (authCode : AuthorizationCode) : Prop :=
  ∃ (i : Nat) (a : Authorize), w.authorizes[i]? = some a ∧ a.issued? = some authCode

/-- A call has taken the code. -/
def Taken (w : World) (code : String) : Prop :=
  ∃ (j : Nat) (e : Exchange), w.exchanges[j]? = some e ∧ ∃ authCode, e.authCode = some authCode
    ∧ authCode.code = code

end World

/-- The tokens name the user, the client and the scope of a code. -/
structure Names (userID clientID scope : String) (resp : TokenResponse) : Prop where
  sub : resp.accessToken.sub = userID
  aud : resp.accessToken.aud = clientID
  tokenScope : resp.accessToken.scope = scope
  scope : resp.scope = scope
  idToken : ∀ t, resp.idToken = some t → t.sub = userID ∧ t.aud = clientID

/-- An `Exchange` is entitled to tokens for the request of an `Authorize`. -/
structure Entitled (p : Provider) (request : AuthorizeParams) (issuedAt : Nat) (params : ExchangeParams)
    (checkedAt : Nat) : Prop where
  clientID : params.clientID = request.clientID
  redirectURI : params.redirectURI = request.redirectURI
  alive : checkedAt ≤ issuedAt + tenMinutes
  client : ∃ c, p.clients request.clientID = some c ∧ (c.isPublic = false → params.clientSecret = c.secret)
    ∧ (c.isPublic = true ∨ request.codeChallenge ≠ "" → p.s256 params.codeVerifier = request.codeChallenge
      ∧ ∀ verifier, p.s256 verifier = request.codeChallenge → verifier = params.codeVerifier)

/-- Codes grant at most one token, to the right party. -/
structure OneGrant (p : Provider) (w : World) : Prop where
  once : ∀ (i j : Nat) (d e : Exchange) t u resp resp', w.exchanges[i]? = some d → w.exchanges[j]? = some e →
    d.phase = .succeeded t resp → e.phase = .succeeded u resp' → d.params.code = e.params.code → i = j
  entitled : ∀ (j : Nat) (e : Exchange) t resp, w.exchanges[j]? = some e → e.phase = .succeeded t resp →
    ∃ (i : Nat) (a : Authorize), w.authorizes[i]? = some a ∧ ∃ issuedAt authCode result,
      a.phase = .issued issuedAt authCode result ∧ authCode.code = e.params.code
      ∧ Entitled p a.params issuedAt e.params t ∧ Names a.params.userID a.params.clientID a.params.scope resp
  issuer : ∀ (i j : Nat) (a b : Authorize) c, w.authorizes[i]? = some a → w.authorizes[j]? = some b →
    a.code? = some c → b.code? = some c → i = j
  unusable : ∀ (j : Nat) (e : Exchange) err, w.exchanges[j]? = some e → e.phase = .failed err true → ¬ w.Usable e.params.code

/-- No `Exchange` presents a usable code with another grant type. -/
def GrantTypeGiven (w : World) : Act → Prop
  | .checkGrant k => ∀ e ∈ w.exchanges[k]?, e.params.grantType = "authorization_code" ∨ ¬ w.Usable e.params.code
  | _ => True

instance (w : World) (code : String) : Decidable (w.Usable code) :=
  inferInstanceAs (Decidable (∃ authCode ∈ w.codes, authCode.code = code))

instance (w : World) (act : Act) : Decidable (GrantTypeGiven w act) := by
  cases act
  case checkGrant k =>
    exact inferInstanceAs (Decidable (∀ e ∈ w.exchanges[k]?,
      e.params.grantType = "authorization_code" ∨ ¬ w.Usable e.params.code))
  all_goals exact isTrue trivial

/-! ### Invariant -/

/-- What an `Authorize` has checked and made. -/
def Authorize.Made (p : Provider) (a : Authorize) : Prop :=
  match a.phase with
  | .validated => p.validate a.params = .ok ()
  | .generated issuedAt authCode =>
    p.validate a.params = .ok () ∧ authCode = Provider.newCode a.params authCode.code issuedAt
  | .issued issuedAt authCode _ =>
    p.validate a.params = .ok () ∧ authCode = Provider.newCode a.params authCode.code issuedAt
  | _ => True

/-- What an `Exchange` has checked about the code that it has taken. -/
def Exchange.Checked (p : Provider) (e : Exchange) : Prop :=
  match e.phase with
  | .bound t => ∃ c, e.authCode = some c ∧ Provider.checkBinding e.params c t = .ok ()
  | .verified t => ∃ c, e.authCode = some c ∧ Provider.checkBinding e.params c t = .ok ()
      ∧ p.checkClient e.params c = .ok ()
  | .accessIssued t resp => ∃ c, e.authCode = some c ∧ Provider.checkBinding e.params c t = .ok ()
      ∧ p.checkClient e.params c = .ok () ∧ Names c.userID c.clientID c.scope resp
  | .succeeded t resp => ∃ c, e.authCode = some c ∧ Provider.checkBinding e.params c t = .ok ()
      ∧ p.checkClient e.params c = .ok () ∧ Names c.userID c.clientID c.scope resp
  | .start => e.authCode = none
  | .granted => e.authCode = none
  | _ => True

/-- Where the codes are. -/
structure Inv (p : Provider) (w : World) : Prop where
  issuer : ∀ (i j : Nat) (a b : Authorize) c, w.authorizes[i]? = some a → w.authorizes[j]? = some b →
    a.code? = some c → b.code? = some c → i = j
  made : ∀ (i : Nat) (a : Authorize), w.authorizes[i]? = some a → a.Made p
  stored : ∀ authCode ∈ w.codes, w.Issued authCode
  taken : ∀ (j : Nat) (e : Exchange) authCode, w.exchanges[j]? = some e → e.authCode = some authCode →
    w.Issued authCode ∧ authCode.code = e.params.code ∧ ¬ w.Usable authCode.code
  owner : ∀ (i j : Nat) (d e : Exchange) c c', w.exchanges[i]? = some d → w.exchanges[j]? = some e →
    d.authCode = some c → e.authCode = some c' → c.code = c'.code → i = j
  covered : ∀ authCode, w.Issued authCode → w.Usable authCode.code ∨ w.Taken authCode.code
  checked : ∀ (j : Nat) (e : Exchange), w.exchanges[j]? = some e → e.Checked p
  failed : ∀ (j : Nat) (e : Exchange) err, w.exchanges[j]? = some e → e.phase = .failed err true → w.Taken e.params.code

variable {authCode : AuthorizationCode}

theorem Authorize.code?_of_issued? {a : Authorize} (h : a.issued? = some authCode) : a.code? = some authCode.code := by
  rw [issued?] at h
  split at h
  · next hphase =>
    cases h
    rw [code?, hphase]
  · cases h

namespace World

variable {w : World} {code : String}

theorem isKnown_iff : w.isKnown code = true ↔ ∃ authCode, w.Issued authCode ∧ authCode.code = code := by
  simp only [isKnown, List.any_eq_true, Option.any_eq_true, beq_iff_eq]
  constructor
  · rintro ⟨a, ha, authCode, hissued, hcode⟩
    obtain ⟨i, hi⟩ := List.mem_iff_getElem?.1 ha
    exact ⟨authCode, ⟨i, a, hi, hissued⟩, hcode⟩
  · rintro ⟨authCode, ⟨i, a, hi, hissued⟩, hcode⟩
    exact ⟨a, List.mem_of_getElem? hi, authCode, hissued, hcode⟩

theorem isFresh_iff : w.isFresh code = true ↔
    ∀ (i : Nat) (a : Authorize), w.authorizes[i]? = some a → a.code? ≠ some code := by
  simp only [isFresh, List.all_eq_true, bne_iff_ne]
  constructor
  · exact fun h i a hi => h a (List.mem_of_getElem? hi)
  · intro h a ha
    obtain ⟨i, hi⟩ := List.mem_iff_getElem?.1 ha
    exact h i a hi

theorem usable_of_find?
    (h : w.codes.find? (·.code == code) = some authCode) : authCode ∈ w.codes ∧ authCode.code = code := by
  have hcode := List.find?_some h
  rw [beq_iff_eq] at hcode
  exact ⟨List.mem_of_find?_eq_some h, hcode⟩

theorem not_usable_of_find? (h : w.codes.find? (·.code == code) = none) : ¬ w.Usable code := by
  rintro ⟨authCode, hmem, hcode⟩
  have hne := List.find?_eq_none.1 h authCode hmem
  exact hne (beq_iff_eq.2 hcode)

end World

namespace Inv

variable {p : Provider} {w : World} {k : Nat}

variable {a : Authorize}

theorem of_authorize (h : Inv p w) {authorizes : List Authorize} (hup : Updated w.authorizes k a authorizes)
    (hmade : a.Made p)
    (hcode : ∀ c, a.code? = some c → ∀ (i : Nat) (b : Authorize), w.authorizes[i]? = some b → b.code? ≠ some c)
    (hissued : a.issued? = none) (hold : ∀ b, w.authorizes[k]? = some b → b.issued? = none) :
    Inv p { w with authorizes } := by
  have hsame : ∀ authCode, { w with authorizes }.Issued authCode ↔ w.Issued authCode := by
    intro authCode
    constructor
    · rintro ⟨i, b, hb, hbissued⟩
      rcases hup.cases hb with ⟨-, rfl⟩ | ⟨-, hb⟩
      · rw [hissued] at hbissued
        cases hbissued
      · exact ⟨i, b, hb, hbissued⟩
    · rintro ⟨i, b, hb, hbissued⟩
      rcases hup.of_old hb with rfl | hb'
      · rw [hold b hb] at hbissued
        cases hbissued
      · exact ⟨i, b, hb', hbissued⟩
  refine ⟨?_, ?_, ?_, ?_, h.owner, ?_, h.checked, h.failed⟩
  · intro i j b b' c hb hb' hc hc'
    rcases hup.cases hb with ⟨rfl, rfl⟩ | ⟨hi, hb⟩
    · rcases hup.cases hb' with ⟨rfl, -⟩ | ⟨-, hb'⟩
      · rfl
      · exact absurd hc' (hcode c hc j b' hb')
    · rcases hup.cases hb' with ⟨rfl, rfl⟩ | ⟨-, hb'⟩
      · exact absurd hc (hcode c hc' i b hb)
      · exact h.issuer i j b b' c hb hb' hc hc'
  · intro i b hb
    rcases hup.cases hb with ⟨-, rfl⟩ | ⟨-, hb⟩
    · exact hmade
    · exact h.made i b hb
  · exact fun authCode hmem => (hsame authCode).2 (h.stored authCode hmem)
  · intro j e authCode he hauth
    obtain ⟨htaken, hparams, husable⟩ := h.taken j e authCode he hauth
    exact ⟨(hsame authCode).2 htaken, hparams, husable⟩
  · exact fun authCode hmem => h.covered authCode ((hsame authCode).1 hmem)

/-- A code is stored. It differs from all codes that were issued before. -/
theorem store (h : Inv p w) {issuedAt : Nat} {result : Except String Redirect}
    (ha : w.authorizes[k]? = some a) (hphase : a.phase = .generated issuedAt authCode) :
    Inv p ({ w with codes := authCode :: w.codes.filter (·.code ≠ authCode.code) }.setAuthorize k
      (.issued issuedAt authCode result)) := by
  have hup := updated_modify ha fun a => { a with phase := .issued issuedAt authCode result }
  have hcodek : a.code? = some authCode.code := by rw [Authorize.code?, hphase]
  have hnotk : a.issued? = none := by rw [Authorize.issued?, hphase]
  have hnew : ∀ c, w.Issued c → c.code ≠ authCode.code := by
    rintro c ⟨i, b, hb, hissued⟩ heq
    have hik := h.issuer i k b a authCode.code hb ha (heq ▸ Authorize.code?_of_issued? hissued) hcodek
    subst hik
    rw [some_inj.1 (hb.symm.trans ha), hnotk] at hissued
    cases hissued
  have hnotUsable : ¬ w.Usable authCode.code := fun ⟨c, hc, heq⟩ => hnew c (h.stored c hc) heq
  have hissued : ∀ c, w.Issued c → ({ w with codes := authCode :: w.codes.filter (·.code ≠ authCode.code) }.setAuthorize
      k (.issued issuedAt authCode result)).Issued c := by
    rintro c ⟨i, b, hb, hissued⟩
    rcases hup.of_old hb with rfl | hb'
    · rw [some_inj.1 (hb.symm.trans ha), hnotk] at hissued
      cases hissued
    · exact ⟨i, b, hb', hissued⟩
  have hthis : ({ w with codes := authCode :: w.codes.filter (·.code ≠ authCode.code) }.setAuthorize k
      (.issued issuedAt authCode result)).Issued authCode := ⟨k, _, hup.self, rfl⟩
  have hmade := h.made k a ha
  rw [Authorize.Made, hphase] at hmade
  refine ⟨?_, ?_, ?_, ?_, h.owner, ?_, h.checked, h.failed⟩
  · intro i j b b' c hb hb' hc hc'
    rcases hup.cases hb with ⟨rfl, rfl⟩ | ⟨-, hold⟩
    · rcases hup.cases hb' with ⟨rfl, -⟩ | ⟨-, hb'⟩
      · rfl
      · obtain rfl : authCode.code = c := some_inj.1 hc
        exact h.issuer i j a b' _ ha hb' hcodek hc'
    · rcases hup.cases hb' with ⟨rfl, rfl⟩ | ⟨-, hold'⟩
      · obtain rfl : authCode.code = c := some_inj.1 hc'
        exact h.issuer i j b a _ hold ha hc hcodek
      · exact h.issuer i j b b' c hold hold' hc hc'
  · intro i b hb
    rcases hup.cases hb with ⟨-, rfl⟩ | ⟨-, hb⟩
    · exact hmade
    · exact h.made i b hb
  · intro c hc
    rcases List.mem_cons.1 hc with rfl | hc
    · exact hthis
    · exact hissued c (h.stored c (List.mem_of_mem_filter hc))
  · intro j e c he hauth
    obtain ⟨htaken, hparams, husable⟩ := h.taken j e c he hauth
    refine ⟨hissued c htaken, hparams, ?_⟩
    rintro ⟨x, hx, hcode⟩
    rcases List.mem_cons.1 hx with rfl | hx
    · exact hnew c htaken hcode.symm
    · exact husable ⟨x, List.mem_of_mem_filter hx, hcode⟩
  · rintro c ⟨i, b, hb, hbissued⟩
    rcases hup.cases hb with ⟨-, rfl⟩ | ⟨-, hb⟩
    · obtain rfl : authCode = c := some_inj.1 hbissued
      exact .inl ⟨authCode, List.mem_cons_self, rfl⟩
    · rcases h.covered c ⟨i, b, hb, hbissued⟩ with ⟨x, hx, hcode⟩ | htaken
      · refine .inl ⟨x, List.mem_cons_of_mem _ (List.mem_filter.2 ⟨hx, decide_eq_true fun heq => ?_⟩), hcode⟩
        exact hnotUsable ⟨x, hx, heq⟩
      · exact .inr htaken

variable {e : Exchange}

section

variable (h : Inv p w)
include h

theorem of_exchange {exchanges : List Exchange} (hup : Updated w.exchanges k e exchanges)
    (hsame : (w.exchanges[k]? = none ∧ e.authCode = none) ∨ ∃ d, w.exchanges[k]? = some d ∧ e.params = d.params ∧ e.authCode = d.authCode)
    (hchecked : e.Checked p) (hfailed : ∀ err, e.phase = .failed err true → w.Taken e.params.code) :
    Inv p { w with exchanges } := by
  -- what a call has taken afterwards, a call with the same parameters had taken before
  have hback : ∀ (j : Nat) (d : Exchange) c, exchanges[j]? = some d → d.authCode = some c →
      ∃ d', w.exchanges[j]? = some d' ∧ d'.params = d.params ∧ d'.authCode = some c := by
    intro j d c hd hc
    rcases hup.cases hd with ⟨rfl, rfl⟩ | ⟨-, hd⟩
    · rcases hsame with ⟨-, hnone⟩ | ⟨d', hd', hparams, hauth⟩
      · rw [hnone] at hc
        cases hc
      · exact ⟨d', hd', hparams.symm, hauth ▸ hc⟩
    · exact ⟨d, hd, rfl, hc⟩
  have htaken : ∀ c, w.Taken c → { w with exchanges }.Taken c := by
    rintro c ⟨j, d, hd, authCode, hauth, hcode⟩
    rcases hup.of_old hd with rfl | hd'
    · rcases hsame with ⟨hnone, -⟩ | ⟨d', hd', -, hauth'⟩
      · rw [hnone] at hd
        cases hd
      · obtain rfl := some_inj.1 (hd.symm.trans hd')
        exact ⟨j, e, hup.self, authCode, hauth'.trans hauth, hcode⟩
    · exact ⟨j, d, hd', authCode, hauth, hcode⟩
  refine ⟨h.issuer, h.made, h.stored, ?_, ?_, ?_, ?_, ?_⟩
  · intro j d c hd hc
    obtain ⟨d', hd', hparams, hauth⟩ := hback j d c hd hc
    exact hparams ▸ h.taken j d' c hd' hauth
  · intro i j d d' c c' hd hd' hc hc' heq
    obtain ⟨x, hx, -, hxc⟩ := hback i d c hd hc
    obtain ⟨y, hy, -, hyc⟩ := hback j d' c' hd' hc'
    exact h.owner i j x y c c' hx hy hxc hyc heq
  · exact fun c hc => (h.covered c hc).imp id (htaken c.code)
  · intro j d hd
    rcases hup.cases hd with ⟨-, rfl⟩ | ⟨-, hd⟩
    · exact hchecked
    · exact h.checked j d hd
  · intro j d err hd hphase
    rcases hup.cases hd with ⟨-, rfl⟩ | ⟨-, hd⟩
    · exact htaken _ (hfailed err hphase)
    · exact htaken _ (h.failed j d err hd hphase)

section

variable (he : w.exchanges[k]? = some e)
include he

/-- A code is taken out of the map by the call that looks it up. -/
theorem take
    (hphase : e.phase = .granted) (hfound : w.codes.find? (·.code == e.params.code) = some authCode) : Inv p { w with
      codes := w.codes.filter (·.code ≠ e.params.code)
      exchanges := w.exchanges.set k ⟨e.params, some authCode, .taken⟩ } := by
  have hup := updated_set he (⟨e.params, some authCode, .taken⟩ : Exchange)
  obtain ⟨hmem, hcode⟩ := usable_of_find? hfound
  have hnone : e.authCode = none := by
    have hchecked := h.checked k e he
    rw [Exchange.Checked, hphase] at hchecked
    exact hchecked
  have htaken : ∀ c, w.Taken c → ({ w with
      codes := w.codes.filter (·.code ≠ e.params.code)
      exchanges := w.exchanges.set k ⟨e.params, some authCode, .taken⟩ } : World).Taken c := by
    rintro c ⟨j, d, hd, x, hx, hxc⟩
    rcases hup.of_old hd with rfl | hd'
    · rw [some_inj.1 (hd.symm.trans he), hnone] at hx
      cases hx
    · exact ⟨j, d, hd', x, hx, hxc⟩
  have hless : ∀ c, ({ w with
      codes := w.codes.filter (·.code ≠ e.params.code)
      exchanges := w.exchanges.set k ⟨e.params, some authCode, .taken⟩ } : World).Usable c →
      w.Usable c ∧ c ≠ e.params.code := by
    rintro c ⟨x, hx, rfl⟩
    obtain ⟨hx, hne⟩ := List.mem_filter.1 hx
    exact ⟨⟨x, hx, rfl⟩, of_decide_eq_true hne⟩
  refine ⟨h.issuer, h.made, ?_, ?_, ?_, ?_, ?_, ?_⟩
  · exact fun c hc => h.stored c (List.mem_of_mem_filter hc)
  · intro j d c hd hc
    rcases hup.cases hd with ⟨rfl, rfl⟩ | ⟨-, hd⟩
    · obtain rfl : authCode = c := some_inj.1 hc
      exact ⟨h.stored authCode hmem, hcode, fun husable => (hless _ husable).2 hcode⟩
    · obtain ⟨hissued, hparams, husable⟩ := h.taken j d c hd hc
      exact ⟨hissued, hparams, fun hafter => husable (hless _ hafter).1⟩
  · intro i j d d' c c' hd hd' hc hc' heq
    rcases hup.cases hd with ⟨rfl, rfl⟩ | ⟨-, hold⟩
    · rcases hup.cases hd' with ⟨rfl, -⟩ | ⟨-, hd'⟩
      · rfl
      · obtain rfl : authCode = c := some_inj.1 hc
        exact absurd ⟨authCode, hmem, heq⟩ (h.taken j d' c' hd' hc').2.2
    · rcases hup.cases hd' with ⟨rfl, rfl⟩ | ⟨-, hold'⟩
      · obtain rfl : authCode = c' := some_inj.1 hc'
        exact absurd ⟨authCode, hmem, heq.symm⟩ (h.taken i d c hold hc).2.2
      · exact h.owner i j d d' c c' hold hold' hc hc' heq
  · intro c hc
    rcases h.covered c hc with ⟨x, hx, hxc⟩ | hold
    · by_cases heq : c.code = e.params.code
      · exact .inr ⟨k, _, hup.self, authCode, rfl, hcode.trans heq.symm⟩
      · exact .inl ⟨x, List.mem_filter.2 ⟨hx, decide_eq_true (hxc ▸ heq)⟩, hxc⟩
    · exact .inr (htaken _ hold)
  · intro j d hd
    rcases hup.cases hd with ⟨-, rfl⟩ | ⟨-, hd⟩
    · exact trivial
    · exact h.checked j d hd
  · intro j d err hd hfailed
    rcases hup.cases hd with ⟨-, rfl⟩ | ⟨-, hd⟩
    · cases hfailed
    · exact htaken _ (h.failed j d err hd hfailed)

/-- A call fails. If its code is known, then it was taken, by this call or by another one. -/
theorem fail {err : String}
    (hgone : ¬ w.Usable e.params.code ∨ e.authCode ≠ none) : Inv p (w.fail k e err) := by
  have hup : Updated w.exchanges k { e with phase := .failed err (w.isKnown e.params.code) } _ :=
    updated_modify he fun d => { d with phase := .failed err (w.isKnown e.params.code) }
  refine h.of_exchange hup (.inr ⟨e, he, rfl, rfl⟩) (by rw [Exchange.Checked]; trivial) ?_
  intro err' hphase
  obtain ⟨authCode, hissued, hcode⟩ := isKnown_iff.1 (ExchangePhase.failed.inj hphase).2
  rcases hgone with hgone | hgone
  · rcases h.covered authCode hissued with husable | htaken
    · exact absurd (hcode ▸ husable) hgone
    · exact hcode ▸ htaken
  · obtain ⟨c, hc⟩ := Option.ne_none_iff_exists'.1 hgone
    exact ⟨k, e, he, c, hc, (h.taken k e c he hc).2.1⟩

theorem pass {phase : ExchangePhase}
    (hchecked : ({ e with phase } : Exchange).Checked p) (hphase : ∀ err known, phase ≠ .failed err known) :
    Inv p (w.setExchange k phase) := by
  have hup : Updated w.exchanges k { e with phase } _ := updated_modify he fun d => { d with phase }
  exact h.of_exchange hup (.inr ⟨e, he, rfl, rfl⟩) hchecked fun err hfailed => absurd hfailed (hphase err true)

end

/-- Every step of an `Authorize` keeps the invariant. -/
theorem stepAuthorize {w' : World} {act : Act} (ha : w.authorizes[k]? = some a)
    (hstep : OauthProvider.stepAuthorize p w k a act = some w') : Inv p w' := by
  have hnone : ∀ phase, a.phase = phase → (∀ t c r, phase ≠ .issued t c r) →
      ∀ b, w.authorizes[k]? = some b → b.issued? = none := by
    intro phase hphase hne b hb
    obtain rfl := some_inj.1 (ha.symm.trans hb)
    rw [Authorize.issued?, hphase]
    split
    · next t c r => exact absurd rfl (hne t c r)
    · rfl
  cases act with
  | validate k' =>
    simp only [OauthProvider.stepAuthorize] at hstep
    split at hstep
    · next hphase =>
      split at hstep
      · next hvalid =>
        cases hstep
        exact h.of_authorize (updated_modify ha _) hvalid nofun rfl (hnone _ hphase nofun)
      · cases hstep
        exact h.of_authorize (updated_modify ha _) trivial nofun rfl (hnone _ hphase nofun)
    · cases hstep
  | generate k' code =>
    simp only [OauthProvider.stepAuthorize] at hstep
    split at hstep
    · next code hphase =>
      obtain ⟨hfresh, hstep⟩ := Option.ite_none_right_eq_some.1 hstep
      cases hstep
      have hvalid := h.made k a ha
      rw [Authorize.Made, hphase] at hvalid
      refine h.of_authorize (updated_modify ha _) ⟨hvalid, rfl⟩ ?_ rfl (hnone _ hphase nofun)
      intro c hc i b hb
      obtain rfl : code = c := some_inj.1 hc
      exact isFresh_iff.1 hfresh i b hb
    · next hphase =>
      cases hstep
      exact h.of_authorize (updated_modify ha _) trivial nofun rfl (hnone _ hphase nofun)
    · cases hstep
  | store k' parseError =>
    simp only [OauthProvider.stepAuthorize] at hstep
    split at hstep
    · next hphase =>
      cases hstep
      exact h.store ha hphase
    · cases hstep
  | _ => cases hstep

/-- Every step of an `Exchange` keeps the invariant, the check of the grant type if the code is not usable
or the grant type is right. -/
theorem stepExchange {w' : World} {act : Act} (he : w.exchanges[k]? = some e)
    (hstep : OauthProvider.stepExchange p w k e act = some w')
    (hgrant : ∀ k', act = .checkGrant k' → e.params.grantType = "authorization_code" ∨ ¬ w.Usable e.params.code) :
    Inv p w' := by
  have hchecked := h.checked k e he
  cases act with
  | checkGrant k' =>
    simp only [OauthProvider.stepExchange] at hstep
    split at hstep
    · next hphase =>
      split at hstep
      · next hwrong =>
        cases hstep
        exact h.fail he (.inl ((hgrant k' rfl).resolve_left hwrong))
      · cases hstep
        rw [Exchange.Checked, hphase] at hchecked
        exact h.pass he hchecked nofun
    · cases hstep
  | take k' =>
    simp only [OauthProvider.stepExchange] at hstep
    split at hstep
    · next hphase =>
      split at hstep
      · next authCode hfound =>
        cases hstep
        exact h.take he hphase hfound
      · next hfound =>
        cases hstep
        exact h.fail he (.inl (not_usable_of_find? hfound))
    · cases hstep
  | checkBinding k' =>
    simp only [OauthProvider.stepExchange] at hstep
    split at hstep
    · next authCode _ hauth =>
      split at hstep
      · next hok =>
        cases hstep
        exact h.pass he ⟨authCode, hauth, hok⟩ nofun
      · cases hstep
        exact h.fail he (.inr (by rw [hauth]; exact nofun))
    · cases hstep
  | checkClient k' =>
    simp only [OauthProvider.stepExchange] at hstep
    split at hstep
    · next t authCode hphase hauth =>
      split at hstep
      · next hok =>
        cases hstep
        rw [Exchange.Checked, hphase] at hchecked
        obtain ⟨c, hc, hbinding⟩ := hchecked
        obtain rfl := some_inj.1 (hauth.symm.trans hc)
        exact h.pass he ⟨authCode, hauth, hbinding, hok⟩ nofun
      · cases hstep
        exact h.fail he (.inr (by rw [hauth]; exact nofun))
    · cases hstep
  | issueAccess k' =>
    simp only [OauthProvider.stepExchange] at hstep
    split at hstep
    · next t authCode hphase hauth =>
      rw [Exchange.Checked, hphase] at hchecked
      obtain ⟨c, hc, hbinding, hclient⟩ := hchecked
      obtain rfl := some_inj.1 (hauth.symm.trans hc)
      have hnames : Names authCode.userID authCode.clientID authCode.scope (p.newResponse authCode w.now) :=
        ⟨rfl, rfl, rfl, rfl, nofun⟩
      split at hstep
      · cases hstep
        exact h.pass he ⟨authCode, hauth, hbinding, hclient, hnames⟩ nofun
      · cases hstep
        exact h.pass he ⟨authCode, hauth, hbinding, hclient, hnames⟩ nofun
    · cases hstep
  | issueID k' signError =>
    simp only [OauthProvider.stepExchange] at hstep
    split at hstep
    · next t resp authCode hphase hauth =>
      rw [Exchange.Checked, hphase] at hchecked
      obtain ⟨c, hc, hbinding, hclient, hnames⟩ := hchecked
      obtain rfl := some_inj.1 (hauth.symm.trans hc)
      split at hstep
      · next idToken hid =>
        cases hstep
        refine h.pass he ⟨authCode, hauth, hbinding, hclient, ?_⟩ nofun
        obtain ⟨user, -, hid⟩ := bind_eq_ok.1 hid
        split at hid
        · cases hid
        · cases hid
          refine ⟨hnames.sub, hnames.aud, hnames.tokenScope, hnames.scope, fun t ht => ?_⟩
          obtain rfl := some_inj.1 ht
          exact ⟨rfl, rfl⟩
      · cases hstep
        exact h.fail he (.inr (by rw [hauth]; exact nofun))
    · cases hstep
  | _ => cases hstep

/-- Every step keeps the invariant. -/
theorem step {w' : World} {act : Act} (hok : GrantTypeGiven w act)
    (hstep : OauthProvider.step p w act = some w') : Inv p w' := by
  cases act with
  | tick d =>
    cases hstep
    exact ⟨h.issuer, h.made, h.stored, h.taken, h.owner, h.covered, h.checked, h.failed⟩
  | authorize params =>
    cases hstep
    have hnone : w.authorizes[w.authorizes.length]? = none := List.getElem?_eq_none (Nat.le_refl _)
    refine h.of_authorize (updated_push _ _) trivial nofun rfl fun b hb => ?_
    rw [hnone] at hb
    cases hb
  | exchange params =>
    cases hstep
    have hnone : w.exchanges[w.exchanges.length]? = none := List.getElem?_eq_none (Nat.le_refl _)
    exact h.of_exchange (updated_push _ _) (.inl ⟨hnone, rfl⟩) rfl nofun
  | validate k =>
    obtain ⟨a, ha, hstep⟩ := bind_eq_some_iff.1 hstep
    exact h.stepAuthorize ha hstep
  | generate k code =>
    obtain ⟨a, ha, hstep⟩ := bind_eq_some_iff.1 hstep
    exact h.stepAuthorize ha hstep
  | store k parseError =>
    obtain ⟨a, ha, hstep⟩ := bind_eq_some_iff.1 hstep
    exact h.stepAuthorize ha hstep
  | checkGrant k =>
    obtain ⟨e, he, hstep⟩ := bind_eq_some_iff.1 hstep
    exact h.stepExchange he hstep fun _ _ => hok e he
  | take k =>
    obtain ⟨e, he, hstep⟩ := bind_eq_some_iff.1 hstep
    exact h.stepExchange he hstep nofun
  | checkBinding k =>
    obtain ⟨e, he, hstep⟩ := bind_eq_some_iff.1 hstep
    exact h.stepExchange he hstep nofun
  | checkClient k =>
    obtain ⟨e, he, hstep⟩ := bind_eq_some_iff.1 hstep
    exact h.stepExchange he hstep nofun
  | issueAccess k =>
    obtain ⟨e, he, hstep⟩ := bind_eq_some_iff.1 hstep
    exact h.stepExchange he hstep nofun
  | issueID k signError =>
    obtain ⟨e, he, hstep⟩ := bind_eq_some_iff.1 hstep
    exact h.stepExchange he hstep nofun

end

theorem initial (p : Provider) (now : Nat) : Inv p (World.initial now) := by
  have hauthorizes : ∀ (i : Nat) a, (World.initial now).authorizes[i]? ≠ some a := fun i a h => by cases h
  have hexchanges : ∀ (j : Nat) e, (World.initial now).exchanges[j]? ≠ some e := fun j e h => by cases h
  exact {
    issuer := fun i _ a _ _ ha => absurd ha (hauthorizes i a)
    made := fun i a ha => absurd ha (hauthorizes i a)
    stored := fun authCode h => absurd h List.not_mem_nil
    taken := fun j e _ he => absurd he (hexchanges j e)
    owner := fun j _ e _ _ _ he => absurd he (hexchanges j e)
    covered := fun _ ⟨i, a, ha, _⟩ => absurd ha (hauthorizes i a)
    checked := fun j e he => absurd he (hexchanges j e)
    failed := fun j e _ he => absurd he (hexchanges j e) }

end Inv

/-! ### What the checks mean -/

variable {p : Provider}

theorem Provider.validate_ok {params : AuthorizeParams} (h : p.validate params = .ok ()) :
    ∃ c, p.clients params.clientID = some c ∧ (c.isPublic = true → params.codeChallenge ≠ "") := by
  obtain ⟨c, hc, h⟩ := bind_eq_ok.1 h
  refine ⟨c, ?_, ?_⟩
  · rw [lookupClient] at hc
    split at hc
    · next hclient => rw [hclient, Except.ok.inj hc]
    · cases hc
  · intro hpublic hnone
    split at h
    · cases h
    · rw [if_pos ⟨hpublic, hnone⟩] at h
      cases h

variable {params : ExchangeParams}

theorem Provider.checkBinding_ok {t : Nat} (h : Provider.checkBinding params authCode t = .ok ()) :
    t ≤ authCode.expiresAt ∧ authCode.clientID = params.clientID ∧ authCode.redirectURI = params.redirectURI := by
  rw [checkBinding] at h
  split at h
  · cases h
  · next halive =>
    split at h
    · cases h
    · next hclient =>
      split at h
      · cases h
      · next hredirect => exact ⟨Nat.not_lt.1 halive, not_not.1 hclient, not_not.1 hredirect⟩

theorem Provider.checkClient_ok (h : p.checkClient params authCode = .ok ()) :
    ∃ c, p.clients params.clientID = some c ∧ (c.isPublic = false → params.clientSecret = c.secret)
      ∧ (authCode.codeChallenge ≠ "" → p.s256 params.codeVerifier = authCode.codeChallenge) := by
  obtain ⟨c, hc, h⟩ := bind_eq_ok.1 h
  have hclient : p.clients params.clientID = some c := by
    rw [lookupClient] at hc
    split at hc
    · next hclient => rw [hclient, Except.ok.inj hc]
    · cases hc
  split at h
  · cases h
  · next hsecret =>
    split at h
    · cases h
    · split at h
      · cases h
      · next hverifier =>
        refine ⟨c, hclient, fun hconf => ?_, fun hchallenge => ?_⟩
        · by_contra hne
          exact hsecret ⟨hconf, Ne.symm hne⟩
        · by_contra hne
          exact hverifier ⟨hchallenge, hne⟩

theorem entitled_of_checks (hinj : Function.Injective p.s256) {request : AuthorizeParams}
    {issuedAt checkedAt : Nat} (hmade : authCode = Provider.newCode request authCode.code issuedAt)
    (hvalid : p.validate request = .ok ()) (hbinding : Provider.checkBinding params authCode checkedAt = .ok ())
    (hclient : p.checkClient params authCode = .ok ()) : Entitled p request issuedAt params checkedAt := by
  obtain ⟨halive, hid, hredirect⟩ := Provider.checkBinding_ok hbinding
  obtain ⟨c, hc, hpublic⟩ := Provider.validate_ok hvalid
  obtain ⟨c', hc', hsecret, hverifier⟩ := Provider.checkClient_ok hclient
  rw [hmade] at halive hid hredirect hverifier
  have hsame : params.clientID = request.clientID := hid.symm
  rw [hsame] at hc'
  obtain rfl := some_inj.1 (hc.symm.trans hc')
  refine ⟨hsame, hredirect.symm, halive, c, hc, hsecret, fun hpkce => ?_⟩
  have hchallenge : request.codeChallenge ≠ "" := hpkce.elim hpublic id
  have hhash : p.s256 params.codeVerifier = request.codeChallenge := hverifier hchallenge
  exact ⟨hhash, fun verifier h => hinj (h.trans hhash.symm)⟩

/-- The invariant is what the result says. -/
theorem Inv.oneGrant (hinj : Function.Injective p.s256) {w : World} (h : Inv p w) : OneGrant p w where
  once := by
    intro i j d e t u resp resp' hd he hphase hphase' hcode
    have hchecked := h.checked i d hd
    have hchecked' := h.checked j e he
    rw [Exchange.Checked, hphase] at hchecked
    rw [Exchange.Checked, hphase'] at hchecked'
    obtain ⟨c, hc, -⟩ := hchecked
    obtain ⟨c', hc', -⟩ := hchecked'
    refine h.owner i j d e c c' hd he hc hc' ?_
    rw [(h.taken i d c hd hc).2.1, (h.taken j e c' he hc').2.1, hcode]
  entitled := by
    intro j e t resp he hphase
    have hchecked := h.checked j e he
    rw [Exchange.Checked, hphase] at hchecked
    obtain ⟨c, hc, hbinding, hclient, hnames⟩ := hchecked
    obtain ⟨⟨i, a, ha, hissued⟩, hcode, -⟩ := h.taken j e c he hc
    have hmade := h.made i a ha
    rw [Authorize.issued?] at hissued
    split at hissued
    · next issuedAt authCode result hissuedPhase =>
      obtain rfl := some_inj.1 hissued
      rw [Authorize.Made, hissuedPhase] at hmade
      obtain ⟨hvalid, hnew⟩ := hmade
      refine ⟨i, a, ha, issuedAt, authCode, result, hissuedPhase, hcode,
        entitled_of_checks hinj hnew hvalid hbinding hclient, ?_⟩
      rw [hnew] at hnames
      exact hnames
    · cases hissued
  issuer := h.issuer
  unusable := by
    intro j e err he hphase
    obtain ⟨i, d, hd, authCode, hauth, hcode⟩ := h.failed j e err he hphase
    exact hcode ▸ (h.taken i d authCode hd hauth).2.2

/-! ### Runs -/

/-- **Codes grant at most one token, to the right party**, in every run in which no call presents a usable code
with another grant type. -/
theorem codes_grant_once {p : Provider} (hinj : Function.Injective p.s256) {now : Nat} {w : World}
    (h : ReachableIf (step p) GrantTypeGiven (World.initial now) w) : OneGrant p w :=
  (h.invariant (Inv.initial p now) fun _ _ _ _ hinv hok hstep => hinv.step hok hstep).oneGrant hinj

/-! ### A run and the failing input -/

/-- An injective hash with the value of SHA-256 at one code verifier, the one that the specification of PKCE
gives as its example. -/
def exampleS256 (verifier : String) : String :=
  if verifier = "dBjftJeZ4CVP-mB92K27uhbUJU1p1r_wW1gFWFOEjXk" then "E9Melhoa2OwvFrEMTJguCHaoeK1t8URWbuGJSstw-cM"
  else "=" ++ verifier

theorem exampleS256_injective : Function.Injective exampleS256 := by
  intro v v' h
  have hne : ∀ x : String, "=" ++ x ≠ "E9Melhoa2OwvFrEMTJguCHaoeK1t8URWbuGJSstw-cM" := by
    intro x hx
    have hchars := congrArg String.toList hx
    rw [String.toList_append] at hchars
    have hhead : '=' = 'E' := List.cons.inj hchars |>.1
    revert hhead
    decide
  rw [exampleS256, exampleS256] at h
  split at h
  · next hv =>
    split at h
    · next hv' => exact hv.trans hv'.symm
    · exact absurd h.symm (hne v')
  · split at h
    · exact absurd h (hne v)
    · exact String.append_right_inj _ |>.1 h

/-- A provider with a confidential and a public client. -/
def demoProvider : Provider where
  clients := fun clientID =>
    if clientID = "demo-client" then some ⟨"demo-secret", ["http://localhost:8080/callback"], false⟩
    else if clientID = "demo-public-client" then some ⟨"", ["http://localhost:8080/callback"], true⟩
    else none
  users := fun userID => if userID = "user-1" then some ⟨"alice@example.com", "Alice"⟩ else none
  issuerURL := "http://localhost:8080"
  s256 := exampleS256
  quote := fun s => "\"" ++ s ++ "\""

/-- The public client asks for a code. -/
def demoAuthorize : AuthorizeParams :=
  ⟨"demo-public-client", "http://localhost:8080/callback", "openid email", "random-state-value", "", "user-1",
    "E9Melhoa2OwvFrEMTJguCHaoeK1t8URWbuGJSstw-cM", "S256"⟩

/-- The public client presents its code. -/
def demoExchange (grantType : String) : ExchangeParams :=
  ⟨grantType, "c0de", "demo-public-client", "", "http://localhost:8080/callback",
    "dBjftJeZ4CVP-mB92K27uhbUJU1p1r_wW1gFWFOEjXk"⟩

/-- A code is exchanged twice: both calls pass the check of the grant type before one of them takes the code. -/
def twoExchanges : List Act :=
  [.authorize demoAuthorize, .validate 0, .generate 0 (.ok "c0de"), .store 0 none,
    .exchange (demoExchange "authorization_code"), .exchange (demoExchange "authorization_code"),
    .checkGrant 0, .checkGrant 1, .take 1, .take 0,
    .tick tenMinutes, .checkBinding 1, .checkClient 1, .issueAccess 1, .issueID 1 none]

/-- In that run the call that took the code gets its tokens and the other fails. -/
theorem codes_grant_once_two_exchanges : Function.Injective demoProvider.s256
    ∧ ∃ w, ReachableIf (step demoProvider) GrantTypeGiven (World.initial 0) w
      ∧ (w.exchanges.map fun e => decide (e.phase matches .succeeded ..)) = [false, true]
      ∧ OneGrant demoProvider w := by
  have hrun : (execIf (step demoProvider) (fun w act => decide (GrantTypeGiven w act)) (initial 0)
      twoExchanges).map (fun w => decide ((w.exchanges.map fun e => decide (e.phase matches .succeeded ..)) = [false,
      true])) = some true := by
    rfl
  obtain ⟨w, hs, hfacts⟩ := Option.map_eq_some_iff.1 hrun
  have hreach : ReachableIf (step demoProvider) GrantTypeGiven (initial 0) w :=
    ReachableIf.init.execIf (fun _ _ => of_decide_eq_true) hs
  exact ⟨exampleS256_injective, w, hreach, of_decide_eq_true hfacts, codes_grant_once exampleS256_injective hreach⟩

/-- A code is presented with the grant type of a refresh. -/
def refreshWithCode : List Act :=
  [.authorize demoAuthorize, .validate 0, .generate 0 (.ok "c0de"), .store 0 none,
    .exchange (demoExchange "refresh_token"), .checkGrant 0]

/-- **The failed call leaves the code usable.** -/
theorem wrong_grant_keeps_code : Function.Injective demoProvider.s256
    ∧ ∃ w, Reachable (step demoProvider) (World.initial 0) w ∧ ¬ OneGrant demoProvider w := by
  have hrun : (exec (step demoProvider) (initial 0) refreshWithCode).map (fun w =>
      (w.exchanges.map fun e => decide (e.params.code = "c0de" ∧ (e.phase matches .failed _ true)),
        decide (w.Usable "c0de"))) = some ([true], true) := by
    rfl
  obtain ⟨w, hs, hfacts⟩ := Option.map_eq_some_iff.1 hrun
  obtain ⟨hexchanges, husable⟩ := Prod.mk.inj hfacts
  refine ⟨exampleS256_injective, w, reachable_of_exec hs, fun h => ?_⟩
  obtain ⟨e, he, hfailed⟩ := List.map_eq_singleton_iff.1 hexchanges
  obtain ⟨hcode, hphase⟩ := of_decide_eq_true hfailed
  have hget : w.exchanges[0]? = some e := by rw [he]; rfl
  split at hphase
  · next err hfailed =>
    refine h.unusable 0 e err hget hfailed ?_
    rw [hcode]
    exact of_decide_eq_true husable
  · cases hphase

end SystemDesignLabs.OauthProvider
