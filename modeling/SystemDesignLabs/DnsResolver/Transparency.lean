import SystemDesignLabs.Core.TransitionSystem
import SystemDesignLabs.DnsResolver.Resolver

/-!
# Transparency of the DNS cache

Upstream results are a fixed assignment of records, NXDOMAIN or an error to each name and type. A call
of `Resolve` is transparent if it returns what a resolver with an empty cache would. A cached entry
always holds what upstream returned (`Consistent`), but a hit returns it as it is, before the code
that follows a CNAME: the second query for an alias returns the CNAME record without the address.

Only the set of cached names matters to a call: `chase` computes its result from this set alone
(`resolveWithDepth_assigned`). Comparing it for the cache and for the empty cache gives the exact
condition, `plain`: the first cached name on the query's CNAME chain, if there is one, holds no CNAME
whose target would add a record. In every run without expired entries, the calls are transparent if
and only if each one meets the condition in its state (`transparent_iff_plain`).
-/

namespace SystemDesignLabs.DnsResolver

open Core

/-! ## Upstream results -/

/-- What upstream has for a name and a type. -/
inductive Assigned where
  | records (rs : List DNSRecord)
  | nxdomain
  | error (e : OtherError)
  deriving DecidableEq, Repr

/-- What `recurse` returns for it. -/
def Assigned.outcome (name : Name) : Assigned → Outcome
  | .records rs => .ok rs
  | .nxdomain => .error (.nxdomain name)
  | .error e => .error (.other e)

/-- A fixed assignment in the place of `recurse`. -/
def assigned (up : Name → UInt16 → Assigned) : Upstream :=
  fun name qtype s => some ((up name qtype).outcome name, s)

/-! ## Keys of the cache -/

theorem colon_notMem_decimal (n : Nat) : 58 ∉ decimal n := by
  intro h
  obtain ⟨c, hc, heq⟩ := List.mem_map.1 h
  have hdigit := Nat.isDigit_of_mem_toDigits (b := 10) (by decide) (by decide) hc
  simp only [Char.isDigit, Bool.and_eq_true, decide_eq_true_eq] at hdigit
  have hlow : 48 ≤ c.toNat := hdigit.1
  have hhigh : c.toNat ≤ 57 := hdigit.2
  have hval := congrArg UInt8.toNat heq
  rw [Nat.toUInt8, UInt8.toNat_ofNat', Nat.mod_eq_of_lt (by omega)] at hval
  have h58 : (58 : UInt8).toNat = 58 := rfl
  omega

theorem decimal_injective {n m : Nat} (h : decimal n = decimal m) : n = m := by
  have hback : ∀ k, (decimal k).map (fun b => Char.ofNat b.toNat) = Nat.toDigits 10 k := by
    intro k
    rw [decimal, List.map_map]
    refine (List.map_congr_left fun c hc => ?_).trans (List.map_id _)
    have hdigit := Nat.isDigit_of_mem_toDigits (b := 10) (by decide) (by decide) hc
    simp only [Char.isDigit, Bool.and_eq_true, decide_eq_true_eq] at hdigit
    have hhigh : c.toNat ≤ 57 := hdigit.2
    rw [Function.comp_apply, Nat.toUInt8, UInt8.toNat_ofNat', Nat.mod_eq_of_lt (by omega),
      Char.ofNat_toNat, id]
  have hdigits : Nat.toDigits 10 n = Nat.toDigits 10 m := by
    rw [← hback n, ← hback m, h]
  rw [← Nat.ofDigitChars_ten_toDigits (n := n), hdigits, Nat.ofDigitChars_ten_toDigits]

theorem cacheKey_injective {name name' : Name} {qtype qtype' : UInt16}
    (h : cacheKey name qtype = cacheKey name' qtype') : name = name' ∧ qtype = qtype' := by
  have hcut : ∀ (n : Name) (d : List UInt8), 58 ∉ d →
      ((n ++ 58 :: d).reverse.takeWhile (· ≠ 58) = d.reverse) := by
    intro n d hd
    have hrev : (n ++ 58 :: d).reverse = d.reverse ++ 58 :: n.reverse := by simp
    rw [hrev, List.takeWhile_append_of_pos, List.takeWhile_cons_of_neg, List.append_nil]
    · simp
    · intro b hb
      have hne : b ≠ 58 := fun h58 => hd (h58 ▸ List.mem_reverse.1 hb)
      simpa using hne
  have hdec : decimal qtype.toNat = decimal qtype'.toNat := by
    have := hcut name _ (colon_notMem_decimal qtype.toNat)
    rw [show name ++ 58 :: decimal qtype.toNat = name' ++ 58 :: decimal qtype'.toNat from h,
      hcut name' _ (colon_notMem_decimal qtype'.toNat)] at this
    exact (List.reverse_injective this).symm
  refine ⟨?_, UInt16.toNat_inj.1 (decimal_injective hdec)⟩
  rw [cacheKey, cacheKey, hdec] at h
  exact List.append_cancel_right h

/-! ## The result of a call as a function of the cached names -/

section Chase

variable (env : Env) (up : Name → UInt16 → Assigned) (qtype : UInt16)

/-- The result of `resolveWithDepth` with `left` hops allowed, given the names that are cached. -/
def chase : Nat → (Name → Bool) → Name → Outcome
  | 0, _, _ => .error (.other .chainTooLong)
  | left + 1, cached, name =>
    match zoneAnswer env name qtype with
    | some records => .ok records
    | none =>
      if cached name then (up name qtype).outcome name
      else
        match up name qtype with
        | .records rs =>
          match cnameTarget rs with
          | some (target, _) =>
            joinTarget rs (chase left (fun n => n == name || cached n) target)
          | none => .ok rs
        | .nxdomain => .error (.nxdomain name)
        | .error e => .error (.other e)

/-- The names cached for a type. -/
def State.cached (s : State) : Name → Bool :=
  fun name => (s.cache (cacheKey name qtype)).isSome

end Chase

/-- Every entry holds what upstream returned. -/
def Consistent (up : Name → UInt16 → Assigned) (s : State) : Prop :=
  ∀ name qtype entry, s.cache (cacheKey name qtype) = some entry →
    (if entry.negative then Assigned.nxdomain else .records entry.records) = up name qtype

section Calls

variable {env : Env} {up : Name → UInt16 → Assigned} {qtype : UInt16} {name : Name} {s : State}

theorem store_cached (records : List DNSRecord) (negative : Bool) (ttl : UInt32) :
    (store env (cacheKey name qtype) records negative ttl s).cached qtype = fun n => n == name || s.cached qtype n := by
  funext n
  rw [State.cached, State.cached, store]
  by_cases hn : n = name
  · rw [hn]
    simp
  · have hkey : cacheKey n qtype ≠ cacheKey name qtype := fun h => hn (cacheKey_injective h).1
    simp only [Function.update_of_ne hkey, beq_eq_false_iff_ne.2 hn, Bool.false_or]

theorem Consistent.store (h : Consistent up s) {records : List DNSRecord} {negative : Bool}
    (hup : (if negative then Assigned.nxdomain else .records records) = up name qtype)
    (ttl : UInt32) : Consistent up (store env (cacheKey name qtype) records negative ttl s) := by
  intro name' qtype' entry hentry
  by_cases hkey : cacheKey name' qtype' = cacheKey name qtype
  · obtain ⟨rfl, rfl⟩ := cacheKey_injective hkey
    simp only [DnsResolver.store, Function.update_self, Option.some.injEq] at hentry
    rw [← hentry]
    exact hup
  · simp only [DnsResolver.store, Function.update_of_ne hkey] at hentry
    exact h name' qtype' entry hentry

theorem Consistent.of_cache (h : Consistent up s) {s' : State} (hcache : s'.cache = s.cache) : Consistent up s' := by
  intro name qtype entry hentry
  rw [hcache] at hentry
  exact h name qtype entry hentry

theorem State.cached_congr {s' : State} (hcache : s'.cache = s.cache) : s'.cached qtype = s.cached qtype := by
  funext name
  rw [State.cached, State.cached, hcache]

/-- What a call does to the state of a consistent resolver. -/
structure CallOk (up : Name → UInt16 → Assigned) (s : State) (out : Outcome)
    (r : Outcome × State) : Prop where
  consistent : Consistent up r.2
  stale : s.stale = true → r.2.stale = true
  /-- Unless an expired entry was met, the result is the one given. -/
  result : r.2.stale = false → r.1 = out

theorem lookup_cases (env : Env) (s : State) (key : Name) :
    (∃ entry, s.cache key = some entry ∧ (lookup env key s).1 = some entry ∧
        (lookup env key s).2.cache = s.cache ∧ (lookup env key s).2.stale = s.stale) ∨
      ((lookup env key s).1 = none ∧ (lookup env key s).2.cache = s.cache ∧
        (s.stale = true → (lookup env key s).2.stale = true) ∧
        ((lookup env key s).2.stale = false → s.cache key = none)) := by
  rw [lookup]
  cases hkey : s.cache key with
  | none => exact .inr ⟨rfl, rfl, id, fun _ => rfl⟩
  | some entry =>
    dsimp only
    split
    · exact .inl ⟨entry, rfl, rfl, rfl, rfl⟩
    · exact .inr ⟨rfl, rfl, fun _ => rfl, fun h => by cases h⟩

/-- A call returns what the set of cached names determines, and keeps the cache consistent. -/
theorem resolveWithDepth_assigned (env : Env) (qtype : UInt16) (left : Nat) (name : Name) (s : State)
    (h : Consistent up s) : ∃ r, resolveWithDepth env (assigned up) left name qtype s = some r ∧
      CallOk up s (chase env up qtype left (s.cached qtype) name) r := by
  induction left generalizing name s with
  | zero => exact ⟨_, rfl, h, id, fun _ => rfl⟩
  | succ left ih =>
    rw [resolveWithDepth, chase]
    cases zoneAnswer env name qtype with
    | some records => exact ⟨_, rfl, h, id, fun _ => rfl⟩
    | none =>
      dsimp only
      obtain ⟨entry, hentry, hfound, hcache, hstale⟩ | ⟨hfound, hcache, hstale, hmiss⟩ :=
        lookup_cases env s (cacheKey name qtype)
      · rw [hfound]
        refine ⟨_, rfl, h.of_cache hcache, fun hs => hstale.trans hs, fun _ => ?_⟩
        have hcached : s.cached qtype name = true := by rw [State.cached, hentry]; rfl
        rw [if_pos hcached, ← h name qtype entry hentry]
        cases entry.negative <;> rfl
      · have h1 := h.of_cache hcache
        have hcached : (lookup env (cacheKey name qtype) s).2.stale = false →
            s.cached qtype name = false := fun hs => by rw [State.cached, hmiss hs]; rfl
        generalize (lookup env (cacheKey name qtype) s).2 = s1 at *
        rw [hfound, assigned, Option.bind_some]
        cases hup : up name qtype with
        | nxdomain =>
          refine ⟨_, rfl, h1.store (by rw [hup]; rfl) _, hstale, fun hs => ?_⟩
          rw [hcached hs]
          rfl
        | error e =>
          refine ⟨_, rfl, h1, hstale, fun hs => ?_⟩
          rw [hcached hs]
          rfl
        | records rs =>
          dsimp only [Assigned.outcome]
          cases htarget : cnameTarget rs with
          | none =>
            refine ⟨_, rfl, h1.store (by rw [hup]; rfl) _, hstale, fun hs => ?_⟩
            rw [hcached hs]
            rfl
          | some t =>
            -- the CNAME itself is cached, then its target is resolved
            obtain ⟨target, ttl⟩ := t
            obtain ⟨r, hr, hok⟩ := ih target (cacheRecords env (cacheKey name qtype) rs ttl s1)
              (h1.store (by rw [hup]; rfl) _)
            refine ⟨(joinTarget rs r.1, r.2), ?_, hok.consistent, fun hs => hok.stale (hstale hs), fun hs => ?_⟩
            · dsimp only
              rw [hr, Option.bind_some]
            · have hs1 : s1.stale = false := by
                cases hst : s1.stale with
                | false => rfl
                | true => exact absurd hs (by rw [hok.stale hst]; decide)
              rw [hcached hs1, hok.result hs, cacheRecords, store_cached, State.cached_congr hcache]
              rfl

end Calls

/-! ## When a warm cache makes no difference -/

section Plain

variable (env : Env) (up : Name → UInt16 → Assigned) (qtype : UInt16)

/-- Resolving a name would yield at least one record. -/
def yields (name : Name) : Bool :=
  (zoneAnswer env name qtype).isSome ||
    match up name qtype with
    | .records rs => !rs.isEmpty
    | _ => false

/-- Following the CNAME of a name, with `left` further hops allowed, would add a record. -/
def adds (left : Nat) (name : Name) : Bool :=
  match up name qtype with
  | .records rs =>
    match cnameTarget rs with
    | some (target, _) => decide (0 < left) && yields env up qtype target
    | none => false
  | _ => false

/-- The first cached name on a CNAME chain, with the hops that are left there. The walk ends at a name
it has seen. -/
def firstCached (cached : Name → Bool) : Nat → (Name → Bool) → Name → Option (Nat × Name)
  | 0, _, _ => none
  | left + 1, seen, name =>
    match zoneAnswer env name qtype with
    | some _ => none
    | none =>
      if seen name then none
      else if cached name then some (left, name)
      else
        match up name qtype with
        | .records rs =>
          match cnameTarget rs with
          | some (target, _) =>
            firstCached cached left (fun n => n == name || seen n) target
          | none => none
        | _ => none

/-- The first cached name on the chain, if there is one, holds no CNAME whose target adds a record. -/
def plainFrom (cached : Name → Bool) (left : Nat) (seen : Name → Bool) (name : Name) : Bool :=
  match firstCached env up qtype cached left seen name with
  | some (l, m) => !adds env up qtype l m
  | none => true

end Plain

section Compare

variable (env : Env) (up : Name → UInt16 → Assigned) (qtype : UInt16)

theorem joinTarget_eq_iff (rs : List DNSRecord) (out : Outcome) :
    joinTarget rs out = .ok rs ↔ ∀ ts, out = .ok ts → ts = [] := by
  cases out with
  | error e => exact ⟨fun _ ts h => (by cases h), fun _ => rfl⟩
  | ok ts =>
    simp only [joinTarget, Except.ok.injEq, List.append_right_eq_self, forall_eq']

theorem cnameTarget_ne_nil {rs : List DNSRecord} {t : Name × UInt32} (h : cnameTarget rs = some t) : rs ≠ [] := by
  rintro rfl
  cases h

theorem chase_adds_iff (left : Nat) (cached : Name → Bool) (name : Name) :
    (∀ ts, chase env up qtype left cached name = .ok ts → ts = []) ↔
      (decide (0 < left) && yields env up qtype name) = false := by
  cases left with
  | zero => simp only [chase, Nat.lt_irrefl, decide_false, Bool.false_and, reduceCtorEq, false_imp_iff, implies_true]
  | succ left =>
    rw [decide_eq_true (Nat.succ_pos left), Bool.true_and, chase, yields]
    cases hzone : zoneAnswer env name qtype with
    | some records =>
      simp only [Option.isSome_some, Bool.true_or, Except.ok.injEq, forall_eq']
      have hne : records ≠ [] := by
        rw [zoneAnswer] at hzone
        split at hzone
        · obtain ⟨ip, -, rfl⟩ := Option.map_eq_some_iff.1 hzone
          exact List.cons_ne_nil _ _
        · cases hzone
      simp [hne]
    | none =>
      simp only [Option.isSome_none, Bool.false_or]
      cases hup : up name qtype with
      | nxdomain => split <;> simp [Assigned.outcome]
      | error e => split <;> simp [Assigned.outcome]
      | records rs =>
        dsimp only
        split
        · simp [Assigned.outcome]
        · cases htarget : cnameTarget rs with
          | none => simp
          | some t =>
            have hne := cnameTarget_ne_nil htarget
            cases hout : chase env up qtype left (fun n => n == name || cached n) t.1 <;>
              simp [joinTarget, hout, hne]

theorem insert_or (cached seen : Name → Bool) (name : Name) :
    (fun n => n == name || (cached n || seen n)) = fun n => cached n || (n == name || seen n) := by
  funext n
  exact Bool.or_left_comm _ _ _

/-- Where the condition holds, the cached names make no difference; where it fails, both results are
record lists, and they differ. -/
theorem chase_compare (cached : Name → Bool) (left : Nat) (seen : Name → Bool) (name : Name) :
    (plainFrom env up qtype cached left seen name = true → chase env up qtype left (fun n => cached n || seen n) name
        = chase env up qtype left seen name) ∧ (plainFrom env up qtype cached left seen name = false →
      ∃ a b, chase env up qtype left (fun n => cached n || seen n) name = .ok a ∧
        chase env up qtype left seen name = .ok b ∧ a ≠ b) := by
  induction left generalizing seen name with
  | zero => exact ⟨fun _ => rfl, fun h => by cases h⟩
  | succ left ih =>
    simp only [plainFrom, firstCached, chase]
    cases zoneAnswer env name qtype with
    | some records => exact ⟨fun _ => rfl, fun h => by cases h⟩
    | none =>
      dsimp only
      cases hseen : seen name with
      | true => simp
      | false =>
        cases hcached : cached name with
        | true =>
          -- the first cached name: the hit is returned as it is
          simp only [Bool.or_false, if_true, Bool.false_eq_true, if_false]
          rw [adds]
          cases up name qtype with
          | nxdomain => exact ⟨fun _ => rfl, fun h => by cases h⟩
          | error e => exact ⟨fun _ => rfl, fun h => by cases h⟩
          | records rs =>
            cases htarget : cnameTarget rs with
            | none => simp [Assigned.outcome, htarget]
            | some t =>
              have hadds := chase_adds_iff env up qtype left
                (fun n => n == name || seen n) t.1
              simp only [htarget, Assigned.outcome, Bool.not_eq_true', Bool.not_eq_false']
              refine ⟨fun h => ((joinTarget_eq_iff rs _).2 (hadds.2 h)).symm, fun h => ?_⟩
              have hnot : ¬ ∀ ts, chase env up qtype left
                  (fun n => n == name || seen n) t.1 = .ok ts → ts = [] :=
                fun hall => by rw [hadds.1 hall] at h; cases h
              obtain ⟨ts, hts⟩ := not_forall.1 hnot
              obtain ⟨hts, hne⟩ := Classical.not_imp.1 hts
              refine ⟨rs, rs ++ ts, rfl, by rw [hts]; rfl, fun heq => hne ?_⟩
              exact List.append_right_eq_self.1 heq.symm
        | false =>
          simp only [Bool.or_false, Bool.false_eq_true, if_false]
          cases up name qtype with
          | nxdomain => exact ⟨fun _ => rfl, fun h => by cases h⟩
          | error e => exact ⟨fun _ => rfl, fun h => by cases h⟩
          | records rs =>
            dsimp only
            cases cnameTarget rs with
            | none => exact ⟨fun _ => rfl, fun h => by cases h⟩
            | some t =>
              dsimp only
              obtain ⟨hplain, hdiff⟩ := ih (fun n => n == name || seen n) t.1
              rw [insert_or]
              refine ⟨fun h => by rw [hplain h], fun h => ?_⟩
              obtain ⟨a, b, ha, hb, hne⟩ := hdiff h
              refine ⟨rs ++ a, rs ++ b, by rw [ha]; rfl, by rw [hb]; rfl, fun heq => ?_⟩
              exact hne (List.append_cancel_left heq)

end Compare

/-! ## Time -/

section Frozen

variable {env : Env} {up : Name → UInt16 → Assigned} {qtype : UInt16}

/-- No entry has expired at time zero, and none was met that had. -/
structure Live (s : State) : Prop where
  entries : ∀ key entry, s.cache key = some entry → 0 < entry.expiresAt
  stale : s.stale = false

variable {s : State}

theorem Live.store (h : Live s) (hclock : ∀ n, env.clock n = 0) (key : Name) (records : List DNSRecord)
    (negative : Bool) {ttl : UInt32} (httl : ttl ≠ 0) : Live (store env key records negative ttl s) where
  entries := by
    intro key' entry hentry
    by_cases hkey : key' = key
    · subst hkey
      simp only [DnsResolver.store, Function.update_self, Option.some.injEq] at hentry
      have hpos : 0 < ttl.toNat := Nat.pos_of_ne_zero fun h0 => httl (UInt32.toNat_inj.1 h0)
      rw [← hentry, hclock]
      dsimp only
      omega
    · simp only [DnsResolver.store, Function.update_of_ne hkey] at hentry
      exact h.entries key' entry hentry
  stale := h.stale

theorem Live.cacheRecords (h : Live s) (hclock : ∀ n, env.clock n = 0) (key : Name) (records : List DNSRecord)
    (ttl : UInt32) : Live (cacheRecords env key records ttl s) := by
  refine h.store hclock key records false ?_
  split
  · decide
  · assumption

theorem Live.lookup (h : Live s) (hclock : ∀ n, env.clock n = 0) (key : Name) : Live (lookup env key s).2 := by
  rw [DnsResolver.lookup]
  split
  · exact h
  · rename_i entry hentry
    rw [hclock, if_pos (h.entries key entry hentry)]
    exact ⟨h.entries, h.stale⟩

theorem live_resolveWithDepth (hclock : ∀ n, env.clock n = 0) (left : Nat) (name : Name) (h : Live s)
    {r : Outcome × State} (hr : resolveWithDepth env (assigned up) left name qtype s = some r) : Live r.2 := by
  induction left generalizing name s r with
  | zero =>
    cases hr
    exact h
  | succ left ih =>
    rw [resolveWithDepth] at hr
    have hlook := h.lookup hclock (cacheKey name qtype)
    split at hr
    · cases hr
      exact h
    · dsimp only at hr
      split at hr
      · cases hr
        exact hlook
      · rw [assigned, Option.bind_some] at hr
        split at hr
        · cases hr
          exact hlook.store hclock _ _ _ (by decide)
        · cases hr
          exact hlook
        · split at hr
          · obtain ⟨t, ht, hr⟩ := Option.bind_eq_some_iff.1 hr
            cases hr
            have hlive : Live t.2 := ih _ (hlook.cacheRecords hclock _ _ _) ht
            exact hlive
          · cases hr
            exact hlook.cacheRecords hclock _ _ _

end Frozen

/-! ## Runs -/

section Runs

variable (env : Env) (up : Name → UInt16 → Assigned)

/-- What a call of `Resolve` returns. -/
def answer (s : State) (q : Name × UInt16) : Option Outcome :=
  (resolve env (assigned up) q.1 q.2 s).map Prod.fst

/-- The resolver after a call of `Resolve`. -/
def after (s : State) (q : Name × UInt16) : State :=
  ((resolve env (assigned up) q.1 q.2 s).map Prod.snd).getD s

/-- What a resolver with an empty cache returns; no entry expires during its call. -/
def freshAnswer (q : Name × UInt16) : Option Outcome :=
  answer { env with clock := fun _ => 0 } up State.empty q

/-- The condition on a query and the cache before it: the first cached name on the query's CNAME chain,
if there is one, holds no CNAME whose target would add a record. -/
def plain (s : State) (q : Name × UInt16) : Bool :=
  plainFrom env up q.2 (s.cached q.2) (maxCNAMEHops + 1) (fun _ => false) (fqdn q.1)

variable {env up}

theorem Consistent.empty : Consistent up State.empty := by
  intro name qtype entry h
  cases h

theorem freshAnswer_eq (q : Name × UInt16) : freshAnswer env up q
      = some (chase env up q.2 (maxCNAMEHops + 1) (fun _ => false) (fqdn q.1)) := by
  obtain ⟨r, hr, hok⟩ := resolveWithDepth_assigned { env with clock := fun _ => 0 } q.2
    (maxCNAMEHops + 1) (fqdn q.1) State.empty (@Consistent.empty up)
  have hlive := live_resolveWithDepth (fun _ => rfl) _ _
    ⟨fun _ _ h => (by cases h), rfl⟩ hr
  rw [freshAnswer, answer, resolve, hr, Option.map_some, hok.result hlive.stale]
  rfl

theorem answer_cases (env : Env) {s : State} (h : Consistent up s) (q : Name × UInt16) :
    Consistent up (after env up s q) ∧ (s.stale = true → (after env up s q).stale = true) ∧
      ((after env up s q).stale = false → (answer env up s q = freshAnswer env up q ↔ plain env up s q = true)) := by
  obtain ⟨r, hr, hok⟩ := resolveWithDepth_assigned env q.2 (maxCNAMEHops + 1) (fqdn q.1) s h
  have hafter : after env up s q = r.2 := by rw [after, resolve, hr]; rfl
  rw [hafter]
  refine ⟨hok.consistent, hok.stale, fun hlive => ?_⟩
  have hanswer : answer env up s q
      = some (chase env up q.2 (maxCNAMEHops + 1) (s.cached q.2) (fqdn q.1)) := by
    rw [answer, resolve, hr, Option.map_some, hok.result hlive]
  obtain ⟨heq, hne⟩ := chase_compare env up q.2 (s.cached q.2) (maxCNAMEHops + 1)
    (fun _ => false) (fqdn q.1)
  simp only [Bool.or_false] at heq hne
  rw [hanswer, freshAnswer_eq, Option.some.injEq, plain]
  constructor
  · intro hsame
    by_contra hnot
    rw [Bool.not_eq_true] at hnot
    obtain ⟨a, b, ha, hb, hab⟩ := hne hnot
    rw [ha, hb] at hsame
    exact hab (Except.ok.inj hsame)
  · exact heq

theorem stale_foldl (env : Env) {s : State} (h : Consistent up s) (hs : s.stale = true)
    (qs : List (Name × UInt16)) : (qs.foldl (after env up) s).stale = true := by
  induction qs generalizing s with
  | nil => exact hs
  | cons q qs ih =>
    obtain ⟨hcons, hstale, -⟩ := answer_cases env h q
    exact ih hcons (hstale hs)

theorem along_iff_plain {s : State} (h : Consistent up s) (qs : List (Name × UInt16))
    (hlive : (qs.foldl (after env up) s).stale = false) :
    Along (after env up) (fun s q => answer env up s q = freshAnswer env up q) s qs ↔
      Along (after env up) (fun s q => plain env up s q = true) s qs := by
  induction qs generalizing s with
  | nil => exact Iff.rfl
  | cons q qs ih =>
    obtain ⟨hcons, -, hiff⟩ := answer_cases env h q
    have hnow : (after env up s q).stale = false := by
      by_contra hnot
      have := stale_foldl env hcons (Bool.eq_true_of_not_eq_false hnot) qs
      rw [List.foldl_cons, this] at hlive
      cases hlive
    exact and_congr (hiff hnow) (ih hcons hlive)

/-- **In a run without expired entries, every call returns what a resolver with an empty cache would
if and only if every call meets the condition in its state.** -/
theorem transparent_iff_plain (env : Env) (up : Name → UInt16 → Assigned)
    (qs : List (Name × UInt16)) (hlive : (qs.foldl (after env up) State.empty).stale = false) :
    Along (after env up) (fun s q => answer env up s q = freshAnswer env up q) State.empty qs ↔
      Along (after env up) (fun s q => plain env up s q = true) State.empty qs :=
  along_iff_plain Consistent.empty qs hlive

end Runs

/-! ## Concrete runs -/

/-- The names `www.`, `web.` and `gone.` as Go strings. -/
def www : Name := [119, 119, 119, 46]

@[inherit_doc www] def web : Name := [119, 101, 98, 46]

@[inherit_doc www] def gone : Name := [103, 111, 110, 101, 46]

/-- `www.` is an alias of `web.`, which has an address; there is no `gone.`. -/
def aliasUp : Name → UInt16 → Assigned := fun name qtype =>
  if qtype ≠ typeA then .nxdomain
  else if name = www then .records [⟨www, typeCNAME, classIN, 60, 5, [3, 119, 101, 98, 0]⟩]
  else if name = web then .records [⟨web, typeA, classIN, 60, 4, [10, 0, 0, 1]⟩]
  else .nxdomain

/-- A resolver without a local zone, at a time that stands still. -/
def stillEnv : Env where
  zone := fun _ => none
  rootServers := []
  clock := fun _ => 0

/-- **A hit on an alias loses the address**: the second of two equal queries returns the CNAME record
alone. -/
theorem transparent_violated :
    (([(www, typeA), (www, typeA)].foldl (after stillEnv aliasUp) State.empty).stale = false) ∧
      ¬ Along (after stillEnv aliasUp)
        (fun s q => answer stillEnv aliasUp s q = freshAnswer stillEnv aliasUp q) State.empty
        [(www, typeA), (www, typeA)] := by
  decide

/-- The alias once, its target twice, and a name that does not exist twice. -/
theorem transparent_iff_plain_run :
    Along (after stillEnv aliasUp)
      (fun s q => answer stillEnv aliasUp s q = freshAnswer stillEnv aliasUp q) State.empty
      [(www, typeA), (web, typeA), (web, typeA), (gone, typeA), (gone, typeA)] := by
  refine (transparent_iff_plain stillEnv aliasUp _ (by rfl)).2 ?_
  decide

end SystemDesignLabs.DnsResolver
