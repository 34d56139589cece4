import SystemDesignLabs.Core.Fuel

/-!
# The wire format of the DNS resolver

The parsing half of `dns.go`: names with compression pointers, resource records, messages, and the
extraction of nameserver addresses. A Go string is its bytes. A slice of the packet is read with
`getD` after the bound that the source checks.

`parseName` follows pointers until it meets an offset for the second time, so that its loop ends; the
model gives the loop one round more than the packet has bytes and `parseName_ne_none` shows that this
is enough.
-/

namespace SystemDesignLabs.DnsResolver

/-- A Go string. -/
abbrev Name := List UInt8

/-- The full stop that ends a name. -/
def dot : UInt8 := 46

def typeA : UInt16 := 1

def typeNS : UInt16 := 2

def typeCNAME : UInt16 := 5

def classIN : UInt16 := 1

def rcodeNXDOMAIN : UInt8 := 3

def headerLen : Nat := 12

/-! ## Messages -/

structure DNSHeader where
  id : UInt16
  qr : Bool
  opcode : UInt8
  aa : Bool
  tc : Bool
  rd : Bool
  ra : Bool
  z : UInt8
  rcode : UInt8
  qdCount : UInt16
  anCount : UInt16
  nsCount : UInt16
  arCount : UInt16
  deriving DecidableEq, Repr

structure DNSQuestion where
  name : Name
  qType : UInt16
  qClass : UInt16
  deriving DecidableEq, Repr

structure DNSRecord where
  name : Name
  type : UInt16
  cls : UInt16
  ttl : UInt32
  rdLength : UInt16
  rdata : List UInt8
  deriving DecidableEq, Repr

structure DNSQuery where
  header : DNSHeader
  questions : List DNSQuestion
  answers : List DNSRecord
  authority : List DNSRecord
  additional : List DNSRecord
  deriving DecidableEq, Repr

/-- The errors of the parsers, one for each text. -/
inductive ParseError where
  | packetTooShort
  | questionName (e : ParseError)
  | questionTruncated
  | rrTooShort
  | rdataTruncated
  | nameBeyondPacket
  | compressionLoop
  | pointerTruncated
  | labelBeyondPacket
  deriving DecidableEq, Repr

/-! ## Names -/

/-- `binary.BigEndian.Uint16(buf[i : i+2])`. -/
def be16 (buf : List UInt8) (i : Nat) : UInt16 :=
  (buf.getD i 0).toUInt16 <<< 8 ||| (buf.getD (i + 1) 0).toUInt16

/-- `binary.BigEndian.Uint32(buf[i : i+4])`. -/
def be32 (buf : List UInt8) (i : Nat) : UInt32 :=
  (be16 buf i).toUInt32 <<< 16 ||| (be16 buf (i + 2)).toUInt32

/-- A label is put behind the labels read so far. -/
def appendLabel (name label : Name) : Name :=
  if 0 < name.length then name ++ dot :: label else name ++ label

/-- The variables of the loop of `parseName`. -/
structure NameState where
  name : Name
  visited : List Nat
  followedPointer : Bool
  nextOffset : Nat
  offset : Nat

/-- The loop of `parseName`; `none` when the rounds are used up. -/
def parseNameLoop (buf : List UInt8) : Nat → NameState → Option (Except ParseError (Name × Nat))
  | 0, _ => none
  | rounds + 1, s =>
    if buf.length ≤ s.offset then some (.error .nameBeyondPacket)
    else if s.offset ∈ s.visited then some (.error .compressionLoop)
    else
      let visited := s.offset :: s.visited
      let labelLen := buf.getD s.offset 0
      if labelLen = 0 then
        -- the root label ends the name
        some (.ok (s.name ++ [dot], if s.followedPointer then s.nextOffset else s.offset + 1))
      else if labelLen &&& 0xC0 = 0xC0 then
        if buf.length ≤ s.offset + 1 then some (.error .pointerTruncated)
        else
          parseNameLoop buf rounds
            { name := s.name
              visited := visited
              followedPointer := true
              nextOffset := if s.followedPointer then s.nextOffset else s.offset + 2
              offset := (be16 buf s.offset &&& 0x3FFF).toNat }
      else if buf.length < s.offset + 1 + labelLen.toNat then some (.error .labelBeyondPacket)
      else
        parseNameLoop buf rounds
          { s with
            name := appendLabel s.name ((buf.drop (s.offset + 1)).take labelLen.toNat)
            visited := visited
            offset := s.offset + 1 + labelLen.toNat }

/-- `parseName` with the rounds its loop can need. -/
def parseName? (buf : List UInt8) (offset : Nat) : Option (Except ParseError (Name × Nat)) :=
  parseNameLoop buf (buf.length + 1)
    { name := [], visited := [], followedPointer := false, nextOffset := offset, offset := offset }

theorem parseNameLoop_ne_none (buf : List UInt8) (rounds : Nat) (s : NameState)
    (hnodup : s.visited.Nodup) (hlt : ∀ i ∈ s.visited, i < buf.length)
    (hrounds : buf.length < s.visited.length + rounds) : parseNameLoop buf rounds s ≠ none := by
  induction rounds generalizing s with
  | zero =>
    -- more offsets were visited than the packet has
    have hcard : s.visited.length ≤ buf.length := by
      have hsub : s.visited.toFinset ⊆ Finset.range buf.length := fun i hi =>
        Finset.mem_range.2 (hlt i (List.mem_toFinset.1 hi))
      have := Finset.card_le_card hsub
      rwa [List.toFinset_card_of_nodup hnodup, Finset.card_range] at this
    omega
  | succ rounds ih =>
    -- every further round visits an offset that is new
    have hnext : s.offset < buf.length → s.offset ∉ s.visited → ∀ s' : NameState,
        s'.visited = s.offset :: s.visited → parseNameLoop buf rounds s' ≠ none := by
      intro hin hnew s' hs'
      refine ih s' (hs' ▸ List.nodup_cons.2 ⟨hnew, hnodup⟩) (fun i hi => ?_) ?_
      · rw [hs'] at hi
        rcases List.mem_cons.1 hi with rfl | hi
        · exact hin
        · exact hlt i hi
      · rw [hs', List.length_cons]
        omega
    rw [parseNameLoop]
    split
    · exact Option.some_ne_none _
    · split
      · exact Option.some_ne_none _
      · rename_i hin hnew
        have hnext := hnext (Nat.lt_of_not_le hin) hnew
        dsimp only
        split
        · exact Option.some_ne_none _
        · split
          · split
            · exact Option.some_ne_none _
            · exact hnext _ rfl
          · split
            · exact Option.some_ne_none _
            · exact hnext _ rfl

/-- The rounds are enough: the loop of `parseName` always ends. -/
theorem parseName_ne_none (buf : List UInt8) (offset : Nat) : parseName? buf offset ≠ none :=
  parseNameLoop_ne_none buf _ _ List.nodup_nil (fun _ hi => absurd hi List.not_mem_nil)
    (by simp only [List.length_nil]; omega)

def parseName (buf : List UInt8) (offset : Nat) : Except ParseError (Name × Nat) :=
  (parseName? buf offset).getD (.error .compressionLoop)

/-- The loop of `decodeName` from what is left of the RDATA. -/
def decodeNameLoop : Nat → List UInt8 → Name → Name
  | 0, _, name => name
  | _ + 1, [], name => name
  | n + 1, labelLen :: rest, name =>
    if labelLen = 0 then name
    else if rest.length < labelLen.toNat then name
    else decodeNameLoop n (rest.drop labelLen.toNat) (appendLabel name (rest.take labelLen.toNat))

/-- `decodeName`: the name in RDATA without compression, empty if there is none. Each round takes a
byte, so that the length bounds the rounds. -/
def decodeName (rdata : List UInt8) : Name :=
  let name := decodeNameLoop rdata.length rdata []
  if name.length = 0 then [] else name ++ [dot]

/-! ## Records and messages -/

def parseRecord (buf : List UInt8) (offset : Nat) : Except ParseError (DNSRecord × Nat) :=
  match parseName buf offset with
  | .error e => .error e
  | .ok (name, offset) =>
    if buf.length < offset + 10 then .error .rrTooShort
    else
      let rdLength := be16 buf (offset + 8)
      if buf.length < offset + 10 + rdLength.toNat then .error .rdataTruncated
      else
        .ok ({ name := name
               type := be16 buf offset
               cls := be16 buf (offset + 2)
               ttl := be32 buf (offset + 4)
               rdLength := rdLength
               rdata := (buf.drop (offset + 10)).take rdLength.toNat },
          offset + 10 + rdLength.toNat)

/-- `parseRRSection`: the records up to the first one that cannot be parsed. -/
def parseRRSection (buf : List UInt8) : Nat → Nat → List DNSRecord × Nat
  | offset, 0 => ([], offset)
  | offset, count + 1 =>
    match parseRecord buf offset with
    | .error _ => ([], offset)
    | .ok (rec, newOffset) =>
      let rest := parseRRSection buf newOffset count
      (rec :: rest.1, rest.2)

/-- The question loop of `ParseQuery`. -/
def parseQuestions (buf : List UInt8) : Nat → Nat → Except ParseError (List DNSQuestion × Nat)
  | offset, 0 => .ok ([], offset)
  | offset, count + 1 =>
    match parseName buf offset with
    | .error e => .error (.questionName e)
    | .ok (name, offset) =>
      if buf.length < offset + 4 then .error .questionTruncated
      else
        match parseQuestions buf (offset + 4) count with
        | .error e => .error e
        | .ok (rest, last) =>
          .ok ({ name := name, qType := be16 buf offset, qClass := be16 buf (offset + 2) }
            :: rest, last)

/-- The header of `ParseQuery`. -/
def parseHeader (buf : List UInt8) : DNSHeader :=
  let flags := be16 buf 2
  { id := be16 buf 0
    qr := flags >>> 15 == 1
    opcode := ((flags >>> 11) &&& 0xF).toUInt8
    aa := (flags >>> 10) &&& 1 == 1
    tc := (flags >>> 9) &&& 1 == 1
    rd := (flags >>> 8) &&& 1 == 1
    ra := (flags >>> 7) &&& 1 == 1
    z := 0
    rcode := (flags &&& 0xF).toUInt8
    qdCount := be16 buf 4
    anCount := be16 buf 6
    nsCount := be16 buf 8
    arCount := be16 buf 10 }

def parseQuery (buf : List UInt8) : Except ParseError DNSQuery :=
  if buf.length < headerLen then .error .packetTooShort
  else
    let header := parseHeader buf
    match parseQuestions buf headerLen header.qdCount.toNat with
    | .error e => .error e
    | .ok (questions, offset) =>
      let answers := parseRRSection buf offset header.anCount.toNat
      let authority := parseRRSection buf answers.2 header.nsCount.toNat
      let additional := parseRRSection buf authority.2 header.arCount.toNat
      .ok { header := header, questions := questions, answers := answers.1,
            authority := authority.1, additional := additional.1 }

/-! ## Addresses of nameservers -/

/-- A number in decimal, as `fmt` prints it. -/
def decimal (n : Nat) : List UInt8 :=
  (Nat.toDigits 10 n).map fun c => c.toNat.toUInt8

/-- `fmt.Sprintf("%d.%d.%d.%d:53", ...)` of the address in an A record. -/
def addrOf (rec : DNSRecord) : Option Name :=
  match rec.rdata with
  | [a, b, c, d] =>
    if rec.type = typeA then
      some (decimal a.toNat ++ dot :: decimal b.toNat ++ dot :: decimal c.toNat ++
        dot :: decimal d.toNat ++ [58, 53, 51])
    else none
  | _ => none

/-- `extractNSAddresses`: every A record of the additional section. -/
def extractNSAddresses (resp : DNSQuery) : List Name :=
  resp.additional.filterMap addrOf

/-- The question loop of `findRDataOffset`. -/
def skipQuestions (buf : List UInt8) : Nat → Nat → Option Nat
  | offset, 0 => some offset
  | offset, count + 1 =>
    match parseName buf offset with
    | .error _ => none
    | .ok (_, newOff) => skipQuestions buf (newOff + 4) count

/-- The record loop of `findRDataOffset`: the RDATA of the first record of the type. -/
def findRData (buf : List UInt8) (type : UInt16) : Nat → Nat → Nat
  | _, 0 => 0
  | offset, count + 1 =>
    match parseName buf offset with
    | .error _ => 0
    | .ok (_, offset) =>
      if buf.length < offset + 10 then 0
      else if be16 buf offset = type then offset + 10
      else findRData buf type (offset + 10 + (be16 buf (offset + 8)).toNat) count

def findRDataOffset (buf : List UInt8) (rec : DNSRecord) : Nat :=
  if buf.length < headerLen then 0
  else
    match skipQuestions buf headerLen (be16 buf 4).toNat with
    | none => 0
    | some offset =>
      findRData buf rec.type offset
        ((be16 buf 6).toNat + (be16 buf 8).toNat + (be16 buf 10).toNat)

/-- The nameserver name that `resolveNSNames` reads for a record of the authority section. -/
def nsNameOf (buf : List UInt8) (auth : DNSRecord) : Option Name :=
  if auth.type = typeNS then
    match parseName buf (findRDataOffset buf auth) with
    | .error _ => none
    | .ok (name, _) => some name
  else none

/-!
## The recursive resolver and its cache

`Resolve` and the functions it calls. `resolveWithDepth` answers from the local zone, from the cache,
or by `recurse`, and follows the first CNAME of an answer at most ten times; `recurse` walks the
delegations from the root servers for at most sixteen rounds, and resolves the names of nameservers
that come without an address by calling `Resolve` again.

The calls of `Resolve` from `resolveNSNames` are the only recursion without a bound. They go to an
oracle, so that `resolveCall` is the functional whose unrolling (`Core.unroll`) is the program. The
network assigns a response packet, or none, to each nameserver, name and type. A reading of the clock
takes the next value of a sequence. The state has one history variable, `stale`: some lookup has met
an expired entry. The counters of `Stats` and the locks are left out.
-/

open Core

def maxCNAMEHops : Nat := 10

/-- Errors other than `NXDOMAINError`, one for each text. -/
inductive OtherError where
  | chainTooLong
  | noNameservers (name : Name)
  | noUsefulAnswer (ns : Name)
  | maxDelegation (name : Name)
  | network
  | parse (e : ParseError)
  deriving DecidableEq, Repr

/-- The errors of `Resolve`. -/
inductive DnsError where
  | nxdomain (name : Name)
  | other (e : OtherError)
  deriving DecidableEq, Repr

/-- What `Resolve` returns. -/
abbrev Outcome := Except DnsError (List DNSRecord)

/-- `cacheEntry`; times are in nanoseconds. -/
structure CacheEntry where
  records : List DNSRecord
  negative : Bool
  expiresAt : Int
  deriving DecidableEq, Repr

/-- The parts of a resolver that no call changes, and the clock. -/
structure Env where
  zone : Name → Option (UInt8 × UInt8 × UInt8 × UInt8)
  rootServers : List Name
  clock : Nat → Int

/-- The parts of a resolver that calls change. -/
structure State where
  cache : Name → Option CacheEntry
  /-- How often the clock was read. -/
  reads : Nat
  /-- History: a lookup has met an expired entry. -/
  stale : Bool

/-- A resolver whose cache is empty. -/
def State.empty : State where
  cache := fun _ => none
  reads := 0
  stale := false

/-! ### The cache -/

/-- `fmt.Sprintf("%s:%d", name, qtype)`. -/
def cacheKey (name : Name) (qtype : UInt16) : Name :=
  name ++ 58 :: decimal qtype.toNat

/-- The cache lookup of `resolveWithDepth`; the clock is read only for an entry that was found. -/
def lookup (env : Env) (key : Name) (s : State) : Option CacheEntry × State :=
  match s.cache key with
  | none => (none, s)
  | some entry =>
    if env.clock s.reads < entry.expiresAt then (some entry, { s with reads := s.reads + 1 })
    else (none, { s with reads := s.reads + 1, stale := true })

/-- An entry put into the cache for `ttl` seconds from now on. -/
def store (env : Env) (key : Name) (records : List DNSRecord) (negative : Bool) (ttl : UInt32)
    (s : State) : State :=
  { s with
    cache := Function.update s.cache key
      (some ⟨records, negative, env.clock s.reads + 1000000000 * (ttl.toNat : Int)⟩)
    reads := s.reads + 1 }

def cacheRecords (env : Env) (key : Name) (records : List DNSRecord) (ttl : UInt32) (s : State) :
    State :=
  store env key records false (if ttl = 0 then 60 else ttl) s

def cacheNegative (env : Env) (key : Name) (ttl : UInt32) (s : State) : State :=
  store env key [] true (if ttl = 0 then 300 else ttl) s

def minTTL (records : List DNSRecord) : UInt32 :=
  match records with
  | [] => 60
  | rec :: rest => rest.foldl (fun min r => if r.ttl < min then r.ttl else min) rec.ttl

/-! ### CNAME chains -/

/-- The answer of the local zone. -/
def zoneAnswer (env : Env) (name : Name) (qtype : UInt16) : Option (List DNSRecord) :=
  if qtype = typeA then
    (env.zone name).map fun ip =>
      [{ name := name, type := typeA, cls := classIN, ttl := 300, rdLength := 4,
         rdata := [ip.1, ip.2.1, ip.2.2.1, ip.2.2.2] }]
  else none

/-- The CNAME record that is followed: the first one with a name in it, with its TTL. -/
def cnameTarget : List DNSRecord → Option (Name × UInt32)
  | [] => none
  | rec :: rest =>
    if rec.type = typeCNAME ∧ decodeName rec.rdata ≠ [] then some (decodeName rec.rdata, rec.ttl)
    else cnameTarget rest

/-- A way to ask upstream, which may use and change the resolver's state. -/
abbrev Upstream := Name → UInt16 → State → Option (Outcome × State)

/-- What is returned for a CNAME whose target has been resolved. -/
def joinTarget (records : List DNSRecord) : Outcome → Outcome
  | .error _ => .ok records
  | .ok targetRecords => .ok (records ++ targetRecords)

/-- `resolveWithDepth` with `left` further hops allowed: `depth` is `maxCNAMEHops + 1 - left`. -/
def resolveWithDepth (env : Env) (ask : Upstream) : Nat → Upstream
  | 0, _, _, s => some (.error (.other .chainTooLong), s)
  | left + 1, name, qtype, s =>
    match zoneAnswer env name qtype with
    | some records => some (.ok records, s)
    | none =>
      let key := cacheKey name qtype
      let found := lookup env key s
      match found.1 with
      | some entry =>
        some (if entry.negative then .error (.nxdomain name) else .ok entry.records, found.2)
      | none =>
        (ask name qtype found.2).bind fun r =>
          match r.1 with
          | .error (.nxdomain nx) => some (.error (.nxdomain nx), cacheNegative env key 300 r.2)
          | .error (.other e) => some (.error (.other e), r.2)
          | .ok records =>
            match cnameTarget records with
            | some (target, ttl) =>
              (resolveWithDepth env ask left target qtype
                (cacheRecords env key records ttl r.2)).bind fun t =>
                  some (joinTarget records t.1, t.2)
            | none =>
              some (.ok records, cacheRecords env key records (minTTL records) r.2)

/-- The normalisation of `Resolve`. -/
def fqdn (name : Name) : Name :=
  if name.getLast? = some dot then name else name ++ [dot]

def resolve (env : Env) (ask : Upstream) : Upstream :=
  fun name qtype s => resolveWithDepth env ask (maxCNAMEHops + 1) (fqdn name) qtype s

/-! ### Delegations -/

/-- The response packets: what a nameserver answers to a query for a name and a type. -/
abbrev Network := Name → Name → UInt16 → Option (List UInt8)

/-- The calls of `Resolve` that `resolveNSNames` makes. -/
abbrev NsOracle := Name → State → Option (Outcome × State)

def queryNameserver (net : Network) (ns name : Name) (qtype : UInt16) :
    Except OtherError (DNSQuery × List UInt8) :=
  match net ns name qtype with
  | none => .error .network
  | some packet =>
    match parseQuery (packet.take 4096) with
    | .error e => .error (.parse e)
    | .ok resp => .ok (resp, packet.take 4096)

/-- Whether the answers hold a record of the type or a CNAME. -/
def useful (resp : DNSQuery) (qtype : UInt16) : Bool :=
  resp.answers.any fun ans => ans.type == qtype || ans.type == typeCNAME

/-- The addresses among the records that a nameserver name resolved to. -/
def addrsOf : Outcome → List Name
  | .error _ => []
  | .ok records => records.filterMap addrOf

/-- `resolveNSNames`; no address at all is its error. -/
def resolveNSNames (o : NsOracle) (raw : List UInt8) :
    List DNSRecord → State → Option (List Name × State)
  | [], s => some ([], s)
  | auth :: rest, s =>
    match nsNameOf raw auth with
    | none => resolveNSNames o raw rest s
    | some nsName =>
      (o nsName s).bind fun r =>
        (resolveNSNames o raw rest r.2).bind fun t => some (addrsOf r.1 ++ t.1, t.2)

/-- How the loop over the nameservers of a round ends. -/
inductive RoundEnd where
  | done (r : Outcome)
  | next (servers : List Name)
  | failed (lastErr : DnsError)

/-- The loop over the nameservers of a round. -/
def askServers (o : NsOracle) (net : Network) (name : Name) (qtype : UInt16) :
    List Name → DnsError → State → Option (RoundEnd × State)
  | [], lastErr, s => some (.failed lastErr, s)
  | ns :: rest, _, s =>
    match queryNameserver net ns name qtype with
    | .error e => askServers o net name qtype rest (.other e) s
    | .ok (resp, raw) =>
      if resp.header.rcode = rcodeNXDOMAIN then some (.done (.error (.nxdomain name)), s)
      else if useful resp qtype then some (.done (.ok resp.answers), s)
      else if 0 < resp.authority.length then
        if 0 < (extractNSAddresses resp).length then
          some (.next (extractNSAddresses resp), s)
        else
          -- nameservers without an address: their names are resolved first
          (resolveNSNames o raw resp.authority s).bind fun t =>
            if 0 < t.1.length then some (.next t.1, t.2)
            else askServers o net name qtype rest (.other (.noUsefulAnswer ns)) t.2
      else askServers o net name qtype rest (.other (.noUsefulAnswer ns)) s

/-- The rounds of `recurse`. -/
def rounds (o : NsOracle) (net : Network) (name : Name) (qtype : UInt16) :
    Nat → List Name → State → Option (Outcome × State)
  | 0, _, s => some (.error (.other (.maxDelegation name)), s)
  | n + 1, servers, s =>
    if servers.length = 0 then some (.error (.other (.noNameservers name)), s)
    else
      (askServers o net name qtype servers (.other .network) s).bind fun r =>
        match r.1 with
        | .done out => some (out, r.2)
        | .failed lastErr => some (.error lastErr, r.2)
        | .next servers => rounds o net name qtype n servers r.2

/-- `recurse` from the root servers. -/
def recurse (env : Env) (net : Network) (o : NsOracle) : Upstream :=
  fun name qtype s => rounds o net name qtype 16 env.rootServers s

/-! ### The program -/

/-- A call of `Resolve`. -/
structure Call where
  name : Name
  qtype : UInt16
  state : State

/-- One call of `Resolve`, the calls it makes for the names of nameservers going to an oracle. -/
def resolveCall (env : Env) (net : Network) (f : Call → Option (Outcome × State)) (c : Call) :
    Option (Outcome × State) :=
  resolve env (recurse env net fun nsName s => f ⟨nsName, typeA, s⟩) c.name c.qtype c.state

/-- `Resolve` with `fuel` nested calls. -/
def resolveFuel (env : Env) (net : Network) (fuel : Nat) : Upstream :=
  fun name qtype s => unroll (resolveCall env net) fuel ⟨name, qtype, s⟩

end SystemDesignLabs.DnsResolver
