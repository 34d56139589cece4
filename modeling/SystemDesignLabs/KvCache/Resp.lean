import SystemDesignLabs.Core.Incremental
import SystemDesignLabs.KvCache.Aof

/-!
# The RESP server

The parser, the dispatcher and the connection loop of `v1.rs`. A buffer is a list of bytes. The clock is
read once for each command that is dispatched; `clock k` is the instant of the `k`-th command. A panic
ends the connection: the capacity of a vector, an instant or a range of the buffer is out of range, or the
mutex is poisoned by a panic on another connection. I/O errors do not occur.
-/

namespace SystemDesignLabs.KvCache

open Core

/-! ### The parser -/

/-- Why the parser does not read a command: the message of `ParseResult::Error`, or the panic of
`Vec::with_capacity`. -/
inductive ParseError where
  | message (msg : String)
  | capacityOverflow
  deriving DecidableEq

abbrev ParseResult := Parsed (List String) ParseError

/-- The position of the first `\r\n`. -/
def crlfPosition : List UInt8 → Option Nat
  | [] => none
  | b :: rest => if b = 13 ∧ rest.head? = some 10 then some 0 else (crlfPosition rest).map (· + 1)

def readLine (buf : List UInt8) (start : Nat) : Option (String × Nat) :=
  let slice := buf.drop start
  match crlfPosition slice with
  | none => none
  | some pos => (fromUtf8 (slice.take pos)).map fun line => (line, start + pos + 2)

/-- The value of a nonempty string of decimal digits. -/
def digitsValue (cs : List Char) : Option Nat :=
  if cs ≠ [] ∧ cs.all Char.isDigit then some (Nat.ofDigitChars 10 cs 0) else none

/-- `str::parse::<i64>`. -/
def parseI64 (s : String) : Option Int :=
  let value : Option Int :=
    match s.toList with
    | '-' :: cs => (digitsValue cs).map fun n => -(n : Int)
    | '+' :: cs => (digitsValue cs).map fun n => (n : Int)
    | cs => (digitsValue cs).map fun n => (n : Int)
  value.filter fun n => decide (-2 ^ 63 ≤ n ∧ n < 2 ^ 63)

/-- `str::parse::<u64>`. -/
def parseU64 (s : String) : Option UInt64 :=
  let value : Option Nat :=
    match s.toList with
    | '+' :: cs => digitsValue cs
    | cs => digitsValue cs
  (value.filter fun n => decide (n < 2 ^ 64)).map UInt64.ofNat

/-- `Vec::<String>::with_capacity` panics beyond `isize::MAX` bytes; a `String` takes 24. -/
def maxCapacity : Nat := (2 ^ 63 - 1) / 24

/-- The arguments of an array, from position `pos` on. -/
def parseArgs (buf : List UInt8) : Nat → Nat → List String → ParseResult
  | 0, pos, args => .complete args pos
  | n + 1, pos, args =>
    match buf[pos]? with
    | none => .incomplete
    | some b =>
      if b = 36 then
        match readLine buf (pos + 1) with
        | none => .incomplete
        | some (lenStr, afterDollar) =>
          match parseI64 lenStr with
          | none => .error (.message ("invalid bulk length '" ++ lenStr ++ "'"))
          | some len =>
            if len < 0 then parseArgs buf n afterDollar (args ++ [""])
            else
              let stop := afterDollar + len.toNat
              if buf.length < stop + 2 then .incomplete
              else
                match fromUtf8 ((buf.take stop).drop afterDollar) with
                | none => .error (.message "non-UTF8 argument")
                | some s => parseArgs buf n (stop + 2) (args ++ [s])
      else .error (.message "expected bulk string in array")

def parseArray (buf : List UInt8) : ParseResult :=
  match readLine buf 1 with
  | none => .incomplete
  | some (countStr, afterStar) =>
    match parseI64 countStr with
    | none => .error (.message ("invalid array length '" ++ countStr ++ "'"))
    | some count =>
      if count < 0 then .complete [] afterStar
      else if maxCapacity < count.toNat then .error .capacityOverflow
      else parseArgs buf count.toNat afterStar []

def splitWhitespace (s : String) : List String :=
  ((s.toList.splitOnP isWhitespace).filter fun cs => !cs.isEmpty).map String.ofList

def parseInline (buf : List UInt8) : ParseResult :=
  match readLine buf 0 with
  | none => .incomplete
  | some (line, consumed) => .complete (splitWhitespace line) consumed

/-- `parse_command`; 42 is the byte of a star. -/
def parseCommand (buf : List UInt8) : ParseResult :=
  match buf with
  | [] => .incomplete
  | b :: _ => if b = 42 then parseArray buf else parseInline buf

/-! ### The dispatcher -/

/-- A panic of the connection's task. -/
inductive Panic where
  | capacityOverflow
  | instantOverflow
  | poisonedLock
  | drainOutOfRange
  deriving DecidableEq

/-- The shared cache; the mutex is poisoned when a task has panicked with the lock held. -/
structure Server where
  map : String → Option CacheEntry
  poisoned : Bool

namespace Server

/-- `cache.lock().unwrap()`. -/
def lock (s : Server) : Except Panic Server :=
  if s.poisoned then .error .poisonedLock else .ok s

def put (s : Server) (key : String) (entry : Option CacheEntry) : Server :=
  { s with map := Function.update s.map key entry }

/-- Is the key present and not expired? -/
def isLive (s : Server) (now : Nat) (key : String) : Bool :=
  match s.map key with
  | none => false
  | some entry => !entry.isExpired now

end Server

def bulkString (s : String) : String :=
  "$" ++ (utf8Bytes s).length.repr ++ "\r\n" ++ s ++ "\r\n"

def nullBulk : String := "$-1\r\n"

/-- An integer reply. -/
def integerReply (n : Int) : String :=
  ":" ++ n.repr ++ "\r\n"

def wrongArguments (cmd : String) : String :=
  "-ERR wrong number of arguments for '" ++ cmd ++ "'\r\n"

def notAnInteger : String := "-ERR value is not an integer or out of range\r\n"

/-- `to_ascii_uppercase`. -/
def asciiUppercase (s : String) : String :=
  String.ofList (s.toList.map Char.toUpper)

section Commands

variable (now : Nat) (server : Server)

/-- `cmd_ping`, the arguments without the command. -/
def cmdPing : List String → String
  | [] => "+PONG\r\n"
  | msg :: _ => bulkString msg

/-- The optional `EX` flag of `cmd_set`; `none` when its number is not one. -/
def setTtl : List String → Option (Option UInt64)
  | ex :: secs :: _ => if asciiUppercase ex = "EX" then (parseU64 secs).map some else some none
  | _ => some none

/-- `cmd_set`. The deadline is computed before the lock is taken. -/
def cmdSet : List String → Except Panic (String × Server)
  | key :: value :: options =>
    match setTtl options with
    | none => .ok (notAnInteger, server)
    | some ttl =>
      match deadline now ttl with
      | none => .error .instantOverflow
      | some expiresAt => server.lock.map fun server =>
        ("+OK\r\n", server.put key (some (.new now value expiresAt)))
  | _ => .ok (wrongArguments "SET", server)

def cmdGet : List String → Except Panic (String × Server)
  | key :: _ => server.lock.map fun server =>
    match server.map key with
    | none => (nullBulk, server)
    | some entry =>
      if entry.isExpired now then (nullBulk, server.put key none)
      else (bulkString entry.value, server.put key (some { entry with accessedAt := now }))
  | _ => .ok (wrongArguments "GET", server)

/-- The loop of `cmd_del`. -/
def delKeys (now : Nat) : List String → Server → Nat → Nat × Server
  | [], server, count => (count, server)
  | key :: keys, server, count =>
    let removed := server.isLive now key
    delKeys now keys (server.put key none) (if removed then count + 1 else count)

def cmdDel : List String → Except Panic (String × Server)
  | [] => .ok (wrongArguments "DEL", server)
  | keys => server.lock.map fun server =>
    let r := delKeys now keys server 0
    (integerReply r.1, r.2)

def cmdExists : List String → Except Panic (String × Server)
  | [] => .ok (wrongArguments "EXISTS", server)
  | keys => server.lock.map fun server =>
    (integerReply (keys.countP (server.isLive now) : Nat), server)

/-- `cmd_expire`. The deadline is computed with the lock held. -/
def cmdExpire : List String → Except Panic (String × Server)
  | key :: secs :: _ =>
    match parseU64 secs with
    | none => .ok (notAnInteger, server)
    | some secs => server.lock.bind fun server =>
      match server.map key with
      | none => .ok (integerReply 0, server)
      | some entry =>
        if entry.isExpired now then .ok (integerReply 0, server)
        else
          match instantAfter now secs with
          | none => .error .instantOverflow
          | some t => .ok (integerReply 1, server.put key (some { entry with expiresAt := some t }))
  | _ => .ok (wrongArguments "EXPIRE", server)

def cmdTtl : List String → Except Panic (String × Server)
  | key :: _ => server.lock.map fun server =>
    match server.map key with
    | none => (integerReply (-2), server)
    | some entry =>
      if entry.isExpired now then (integerReply (-2), server)
      else (integerReply ((entry.ttlSecs now).getD (-1)), server)
  | _ => .ok (wrongArguments "TTL", server)

def dispatch : List String → Except Panic (String × Server)
  | [] => .ok ("-ERR empty command\r\n", server)
  | name :: args =>
    let cmd := asciiUppercase name
    if cmd = "PING" then .ok (cmdPing args, server)
    else if cmd = "SET" then cmdSet now server args
    else if cmd = "GET" then cmdGet now server args
    else if cmd = "DEL" then cmdDel now server args
    else if cmd = "EXISTS" then cmdExists now server args
    else if cmd = "EXPIRE" then cmdExpire now server args
    else if cmd = "TTL" then cmdTtl now server args
    else .ok ("-ERR unknown command '" ++ cmd ++ "'\r\n", server)

end Commands

/-! ### The connection loop -/

/-- What the connection has done: a command was dispatched and answered, or an error was reported. -/
inductive Event where
  | command (args : List String) (response : String)
  | failure (err : String)
  deriving DecidableEq

/-- What a connection works on beside its buffer: the cache, the number of commands dispatched and, as
history, what it has done. -/
structure Session where
  server : Server
  dispatched : Nat
  events : List Event

namespace Session

/-- A command is dispatched and its response written. -/
def serve (clock : Nat → Nat) (s : Session) (cmd : List String) : Except Panic Session :=
  (dispatch (clock s.dispatched) s.server cmd).map fun r =>
    ⟨r.2, s.dispatched + 1, s.events ++ [.command cmd r.1]⟩

/-- The error of a malformed frame is written. -/
def report (s : Session) (msg : String) : Session :=
  { s with events := s.events ++ [.failure ("-ERR " ++ msg ++ "\r\n")] }

end Session

/-- A connection between two reads. -/
structure Connection where
  buf : List UInt8
  session : Session

/-- The inner loop of `handle_connection`; each command takes bytes, so that as many rounds as bytes are
enough. A malformed frame clears the buffer. -/
def parseLoop (clock : Nat → Nat) : Nat → Connection → Nat → Except Panic (Connection × Nat)
  | 0, c, pos => .ok (c, pos)
  | n + 1, c, pos =>
    match parseCommand (c.buf.drop pos) with
    | .complete cmd consumed => (c.session.serve clock cmd).bind fun session =>
      parseLoop clock n ⟨c.buf, session⟩ (pos + consumed)
    | .incomplete => .ok (c, pos)
    | .error (.message msg) => .ok (⟨[], c.session.report msg⟩, pos)
    | .error .capacityOverflow => .error .capacityOverflow

/-- `buf.drain(..pos)`. -/
def Connection.drain (c : Connection) (pos : Nat) : Except Panic Connection :=
  if pos ≤ c.buf.length then .ok ⟨c.buf.drop pos, c.session⟩ else .error .drainOutOfRange

/-- One round of the outer loop: a read of these bytes. -/
def Connection.onRead (clock : Nat → Nat) (c : Connection) (bytes : List UInt8) :
    Except Panic Connection :=
  let buf := c.buf ++ bytes
  (parseLoop clock buf.length ⟨buf, c.session⟩ 0).bind fun r =>
    if 0 < r.2 then r.1.drain r.2 else .ok r.1

/-- A connection that has just been accepted. -/
def Connection.accepted (server : Server) : Connection :=
  ⟨[], server, 0, []⟩

/-- `handle_connection` on these reads. -/
def handleConnection (clock : Nat → Nat) (server : Server) (reads : List (List UInt8)) :
    Except Panic Connection :=
  reads.foldlM (Connection.onRead clock) (.accepted server)

end SystemDesignLabs.KvCache
