import SystemDesignLabs.DnsResolver.Resolver

/-!
# The names of nameservers without glue

A record does not keep the offset of its RDATA; `findRDataOffset` goes through the packet again and stops at the first
record of the same type, in whatever section it is. So every nameserver of a response is resolved by the name in the
first NS record of the packet (`nsNames_right_iff`).
-/

namespace SystemDesignLabs.DnsResolver

/-- The records of a section, each with the offset of its RDATA. -/
def placedRecords (buf : List UInt8) : Nat → Nat → List (DNSRecord × Nat)
  | _, 0 => []
  | offset, count + 1 =>
    match parseRecord buf offset with
    | .error _ => []
    | .ok (rec, newOffset) => (rec, newOffset - rec.rdLength.toNat) :: placedRecords buf newOffset count

/-- A response that `ParseQuery` reads, with no record missing in a section. -/
structure WellFormed (buf : List UInt8) where
  resp : DNSQuery
  questions : List DNSQuestion
  offset : Nat
  long : headerLen ≤ buf.length
  parsed : parseQuery buf = .ok resp
  questionsParsed : parseQuestions buf headerLen (parseHeader buf).qdCount.toNat = .ok (questions, offset)
  answersWhole : resp.answers.length = (parseHeader buf).anCount.toNat
  authorityWhole : resp.authority.length = (parseHeader buf).nsCount.toNat
  additionalWhole : resp.additional.length = (parseHeader buf).arCount.toNat

/-- The name that is encoded at an offset. -/
def nameAt (buf : List UInt8) (offset : Nat) : Option Name :=
  match parseName buf offset with
  | .error _ => none
  | .ok (name, _) => some name

namespace WellFormed

variable {buf : List UInt8} (w : WellFormed buf)

/-- All records of the response, and the offsets of their RDATA. -/
def placed : List (DNSRecord × Nat) :=
  placedRecords buf w.offset
    ((parseHeader buf).anCount.toNat + (parseHeader buf).nsCount.toNat + (parseHeader buf).arCount.toNat)

/-- Those of the authority section. -/
def placedAuthority : List (DNSRecord × Nat) :=
  (w.placed.drop (parseHeader buf).anCount.toNat).take (parseHeader buf).nsCount.toNat

/-- The name in the first NS record of the packet. -/
def firstName : Option Name :=
  (w.placed.find? fun p => p.1.type = typeNS).bind fun p => nameAt buf p.2

end WellFormed

variable {buf : List UInt8}

/-- The scan stops at the first record of the type. -/
theorem findRData_eq (type : UInt16) {offset count : Nat} {p : DNSRecord × Nat}
    (h : (placedRecords buf offset count).find? (fun p => p.1.type = type) = some p) :
    findRData buf type offset count = p.2 := by
  induction count generalizing offset with
  | zero => cases h
  | succ count ih =>
    rw [placedRecords, parseRecord] at h
    rw [findRData]
    cases hname : parseName buf offset with
    | error e =>
      rw [hname] at h
      cases h
    | ok r =>
      obtain ⟨name, o⟩ := r
      rw [hname] at h
      dsimp only at h ⊢
      by_cases hshort : buf.length < o + 10
      · rw [if_pos hshort] at h
        cases h
      · rw [if_neg hshort] at h ⊢
        by_cases hcut : buf.length < o + 10 + (be16 buf (o + 8)).toNat
        · rw [if_pos hcut] at h
          cases h
        · rw [if_neg hcut] at h
          dsimp only at h
          by_cases htype : be16 buf o = type
          · simp only [List.find?_cons, htype, decide_true] at h
            cases h
            rw [if_pos htype, Nat.add_sub_cancel]
          · simp only [List.find?_cons, htype, decide_false] at h
            rw [if_neg htype]
            exact ih h

theorem skipQuestions_eq {offset count last : Nat} {questions : List DNSQuestion}
    (h : parseQuestions buf offset count = .ok (questions, last)) : skipQuestions buf offset count = some last := by
  induction count generalizing offset questions with
  | zero =>
    cases h
    rfl
  | succ count ih =>
    rw [parseQuestions] at h
    rw [skipQuestions]
    cases hname : parseName buf offset with
    | error e =>
      rw [hname] at h
      cases h
    | ok r =>
      obtain ⟨name, o⟩ := r
      rw [hname] at h
      dsimp only at h ⊢
      split at h
      · cases h
      · cases hrest : parseQuestions buf (o + 4) count with
        | error e =>
          rw [hrest] at h
          cases h
        | ok q =>
          rw [hrest] at h
          cases h
          exact ih hrest

namespace WellFormed

variable (w : WellFormed buf)

theorem nsNameOf_eq {p : DNSRecord × Nat} (hp : p ∈ w.placedAuthority) (htype : p.1.type = typeNS) :
    nsNameOf buf p.1 = w.firstName := by
  have hmem : p ∈ w.placed := List.mem_of_mem_drop (List.mem_of_mem_take hp)
  have hsome : (w.placed.find? fun p => p.1.type = typeNS).isSome := List.find?_isSome.2 ⟨p, hmem, decide_eq_true htype⟩
  obtain ⟨q, hq⟩ := Option.isSome_iff_exists.1 hsome
  rw [nsNameOf, if_pos htype, firstName, hq, Option.bind_some, nameAt, findRDataOffset,
    if_neg (Nat.not_lt.2 w.long), htype]
  have hskip : skipQuestions buf headerLen (be16 buf 4).toNat = some w.offset := skipQuestions_eq w.questionsParsed
  have hfind : findRData buf typeNS w.offset ((be16 buf 6).toNat + (be16 buf 8).toNat + (be16 buf 10).toNat) = q.2 :=
    findRData_eq typeNS hq
  rw [hskip]
  dsimp only
  exact hfind ▸ rfl

/-- **Each nameserver is resolved by its own name** exactly when all NS records of the authority section have the name
that is in the first NS record of the packet. -/
theorem nsNames_right_iff :
    (∀ p ∈ w.placedAuthority, p.1.type = typeNS → nsNameOf buf p.1 = nameAt buf p.2) ↔
      ∀ p ∈ w.placedAuthority, p.1.type = typeNS → nameAt buf p.2 = w.firstName := by
  constructor
  · intro h p hp htype
    rw [← w.nsNameOf_eq hp htype, h p hp htype]
  · intro h p hp htype
    rw [w.nsNameOf_eq hp htype, h p hp htype]

end WellFormed

/-- An authority section with the nameservers `a` and `b`. -/
def twoNameservers : List UInt8 :=
  [0, 1, 0x84, 0, 0, 0, 0, 0, 0, 2, 0, 0] ++
    [0, 0, 2, 0, 1, 0, 0, 0, 9, 0, 3, 1, 97, 0] ++ [0, 0, 2, 0, 1, 0, 0, 0, 9, 0, 3, 1, 98, 0]

/-- **The second nameserver is resolved by the name of the first one.** -/
theorem second_nameserver_misnamed : ∃ w : WellFormed twoNameservers, ∃ p ∈ w.placedAuthority,
    p.1.type = typeNS ∧ nameAt twoNameservers p.2 = some [98, dot] ∧ nsNameOf twoNameservers p.1 = some [97, dot] := by
  refine ⟨⟨_, [], 12, by decide, rfl, rfl, rfl, rfl, rfl⟩, ?_⟩
  exact ⟨_, List.mem_cons_of_mem _ List.mem_cons_self, rfl, rfl, rfl⟩

end SystemDesignLabs.DnsResolver
