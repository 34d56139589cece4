import SystemDesignLabs.Core.Fallible

/-!
# The bytecode machine

The `Vm` of `labs/bytecode-vm/src/v1.rs` and `v2.rs`. The two machines differ in the tail call, which v1
does not have, and in the text of one error; `Dialect` holds the difference. An instruction is a program
on the machine that goes on, or stops with a result, an error or a panic; integer operations are checked,
as in the profile that the tests are built with.
-/

namespace SystemDesignLabs.BytecodeVm

open Core

inductive Value where
  | int (n : Int64)
  | bool (b : Bool)
  | str (s : String)
  | nil
  deriving DecidableEq

inductive VmError where
  | stackUnderflow
  | typeMismatch (expected got : String)
  | divisionByZero
  | invalidJump (ip : Nat)
  | invalidUpvalue (idx : Nat)
  | notAFunction
  | stackOverflow
  | halted
  deriving DecidableEq

/-- What distinguishes the two machines: the marks of their tail calls, and how `pop_int` names what it
finds. -/
structure Dialect where
  Tail : Type
  intGot : Value → String

inductive Instruction (d : Dialect) where
  | push (v : Value)
  | pop
  | add
  | sub
  | mul
  | div
  | neg
  | eq
  | lt
  | jump (offset : Int32)
  | jumpIfFalse (offset : Int32)
  | load (idx : Nat)
  | store (idx : Nat)
  | ret
  | halt
  | closure (code : List (Instruction d)) (nUpvalues : Nat)
  | getUpvalue (idx : Nat)
  | setUpvalue (idx : Nat)
  | callClosure (nArgs : Nat)
  | tailCall (mark : d.Tail) (nArgs : Nat)

structure Closure (d : Dialect) where
  code : List (Instruction d)
  upvalues : List Value

inductive ExtValue (d : Dialect) where
  | base (v : Value)
  | closure (c : Closure d)

/-- `PartialEq` of `ExtValue`: closures are never equal. -/
def ExtValue.eq {d : Dialect} : ExtValue d → ExtValue d → Bool
  | base a, base b => a = b
  | _, _ => false

structure Frame (d : Dialect) where
  code : List (Instruction d)
  ip : Nat
  stackBase : Nat
  upvalues : List Value

/-- `Vm`; the top of the stacks is at the end of the lists. Only v2 counts the frames. -/
structure Vm (d : Dialect) where
  stack : List (ExtValue d)
  callStack : List (Frame d)
  ip : Nat
  code : List (Instruction d)
  upvalues : List Value
  stackBase : Nat
  framesCreated : Nat

/-- How a run ends. -/
inductive Stop (d : Dialect) where
  | done (v : ExtValue d)
  | err (e : VmError)
  | panic

/-- A part of the run on the machine. -/
abbrev Run (d : Dialect) := EStateM (Stop d) (Vm d)

def maxCallDepth : Nat := 256

/-- The largest capacity of a vector of values, of 24 bytes each. -/
def maxCapacity : Nat := (2 ^ 63 - 1) / 24

namespace Vm

variable {d : Dialect}

def new (code : List (Instruction d)) : Vm d := ⟨[], [], 0, code, [], 0, 0⟩

/-! ### The stack -/

def push (v : ExtValue d) : Run d PUnit := modify fun vm => { vm with stack := vm.stack ++ [v] }

def pop : Run d (ExtValue d) := do
  let vm ← get
  match vm.stack.getLast? with
  | none => throw (.err .stackUnderflow)
  | some v =>
    set { vm with stack := vm.stack.dropLast }
    pure v

def popBase : Run d Value := do
  match ← pop with
  | .base v => pure v
  | .closure _ => throw (.err (.typeMismatch "base value" "closure"))

def popInt : Run d Int64 := do
  match ← popBase with
  | .int n => pure n
  | v => throw (.err (.typeMismatch "int" (d.intGot v)))

def popBool : Run d Bool := do
  match ← popBase with
  | .bool b => pure b
  | _ => throw (.err (.typeMismatch "bool" "other"))

/-! ### Checked integers -/

/-- The result of an `i64` operation. -/
def checked (n : Int) : Run d Int64 :=
  if Int64.minValue.toInt ≤ n ∧ n ≤ Int64.maxValue.toInt then pure (Int64.ofInt n) else throw .panic

/-- The sum of two `usize`s. -/
def checkedAdd (a b : Nat) : Run d Nat := if a + b < 2 ^ 64 then pure (a + b) else throw .panic

/-! ### Instructions -/

/-- An operation on the two topmost integers. -/
def arith (f : Int → Int → Int) : Run d PUnit := do
  let b ← popInt
  let a ← popInt
  let n ← checked (f a.toInt b.toInt)
  push (.base (.int n))

def add : Run d PUnit := do
  let b ← popBase
  let a ← popBase
  match a, b with
  | .int x, .int y =>
    let n ← checked (x.toInt + y.toInt)
    push (.base (.int n))
  | .str x, .str y => push (.base (.str (x ++ y)))
  | _, _ => throw (.err (.typeMismatch "int or str" "mixed types"))

def div : Run d PUnit := do
  let b ← popInt
  let a ← popInt
  if b = 0 then throw (.err .divisionByZero)
  else
    let n ← checked (a.toInt.tdiv b.toInt)
    push (.base (.int n))

/-- `jump`; the instruction pointer is already past the jump. -/
def jump (offset : Int32) : Run d PUnit := do
  let vm ← get
  let newIp : Int := vm.ip + offset.toInt - 1
  if newIp < 0 ∨ vm.code.length < newIp then throw (.err (.invalidJump (newIp % 2 ^ 64).toNat))
  else set { vm with ip := newIp.toNat }

/-- The loop of `Closure`: the popped values, the topmost one first. -/
def popUpvalues : Nat → Run d (List Value)
  | 0 => pure []
  | n + 1 => do
    match ← pop with
    | .closure _ => throw (.err (.typeMismatch "base value for upvalue" "closure"))
    | .base v =>
      let rest ← popUpvalues n
      pure (v :: rest)

/-- Take the closure below the arguments off the stack. The result is the closure and where the arguments
start. -/
def takeClosure (nArgs : Nat) : Run d (Closure d × Nat) := do
  let width ← checkedAdd nArgs 1
  let vm ← get
  let fnPos := vm.stack.length - width
  match vm.stack[fnPos]? with
  | none => throw .panic
  | some (.base _) => throw (.err .notAFunction)
  | some (.closure c) =>
    let stack := vm.stack.eraseIdx fnPos
    set { vm with stack := stack }
    if stack.length < nArgs then throw .panic
    else pure (c, stack.length - nArgs)

def callClosure (nArgs : Nat) : Run d PUnit := do
  let vm ← get
  if maxCallDepth ≤ vm.callStack.length then throw (.err .stackOverflow)
  else
    modify fun vm => { vm with framesCreated := vm.framesCreated + 1 }
    let (c, newStackBase) ← takeClosure nArgs
    modify fun vm => { vm with
      callStack := vm.callStack ++ [⟨vm.code, vm.ip, vm.stackBase, vm.upvalues⟩]
      code := c.code
      ip := 0
      upvalues := c.upvalues
      stackBase := newStackBase }

def tailCall (nArgs : Nat) : Run d PUnit := do
  let (c, argsStart) ← takeClosure nArgs
  modify fun vm => { vm with
    stack := vm.stack.take vm.stackBase ++ vm.stack.drop argsStart
    code := c.code
    ip := 0
    upvalues := c.upvalues }

/-- `Return`. -/
def ret : Run d PUnit := do
  let retVal ← pop
  let vm ← get
  match vm.callStack.getLast? with
  | some frame =>
    set { vm with
      stack := vm.stack.take frame.stackBase ++ [retVal]
      callStack := vm.callStack.dropLast
      code := frame.code
      ip := frame.ip
      upvalues := frame.upvalues
      stackBase := frame.stackBase }
  | none =>
    push retVal
    throw (.done retVal)

/-- The result of a run that stops here. -/
def result (vm : Vm d) : ExtValue d := vm.stack.getLast?.getD (.base .nil)

/-- One instruction. -/
def execute : Instruction d → Run d PUnit
  | .push v => push (.base v)
  | .pop => do
    let _ ← pop
    pure ()
  | .add => add
  | .sub => arith (· - ·)
  | .mul => arith (· * ·)
  | .div => div
  | .neg => do
    let a ← popInt
    let n ← checked (-a.toInt)
    push (.base (.int n))
  | .eq => do
    let b ← pop
    let a ← pop
    push (.base (.bool (a.eq b)))
  | .lt => do
    let b ← popInt
    let a ← popInt
    push (.base (.bool (a < b)))
  | .jump offset => jump offset
  | .jumpIfFalse offset => do
    let cond ← popBool
    if cond then pure () else jump offset
  | .load idx => do
    let vm ← get
    let pos ← checkedAdd vm.stackBase idx
    match vm.stack[pos]? with
    | none => throw (.err .stackUnderflow)
    | some v => push v
  | .store idx => do
    let val ← pop
    let vm ← get
    let pos ← checkedAdd vm.stackBase idx
    if vm.stack.length ≤ pos then throw (.err .stackUnderflow)
    else set { vm with stack := vm.stack.set pos val }
  | .ret => ret
  | .halt => do
    let vm ← get
    throw (.done vm.result)
  | .closure code nUpvalues =>
    if maxCapacity < nUpvalues then throw .panic
    else do
      let upvalues ← popUpvalues nUpvalues
      push (.closure ⟨code, upvalues.reverse⟩)
  | .getUpvalue idx => do
    let vm ← get
    match vm.upvalues[idx]? with
    | none => throw (.err (.invalidUpvalue idx))
    | some v => push (.base v)
  | .setUpvalue idx => do
    let v ← popBase
    let vm ← get
    if vm.upvalues.length ≤ idx then throw (.err (.invalidUpvalue idx))
    else set { vm with upvalues := vm.upvalues.set idx v }
  | .callClosure nArgs => callClosure nArgs
  | .tailCall _ nArgs => tailCall nArgs

/-- One turn of the loop of `run`. -/
def step : Run d PUnit := do
  let vm ← get
  match vm.code[vm.ip]? with
  | none => throw (.done vm.result)
  | some instr =>
    set { vm with ip := vm.ip + 1 }
    execute instr

end Vm

/-- The machine of `v1.rs`: no tail calls. -/
def v1 : Dialect where
  Tail := Empty
  intGot
    | .bool _ => "bool"
    | .str _ => "str"
    | .nil => "nil"
    | .int _ => "int"

/-- The machine of `v2.rs`. -/
def v2 : Dialect where
  Tail := Unit
  intGot _ := "other"

end SystemDesignLabs.BytecodeVm
