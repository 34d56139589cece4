import SystemDesignLabs.BytecodeVm.Frames
import SystemDesignLabs.Core.Simulation

/-!
# Tail calls save frames

A tail call can be written as an ordinary call and a return: `Untailed` relates the code of a program to the code in
which every tail call is written so, in the closures as well, and in which the jumps go where they went. The two
programs run side by side. A frame that a tail call would have reused is still on the call stack of the second program
and does nothing but return (`Calls`), and the values that the tail call would have dropped lie below those of the
callee. So the two machines agree on the values of the frame that runs (`Sim`), and on nothing below them.

As long as each instruction finds the values that it takes in its own frame, this is enough
(`tailCalls_save_frames`). But a machine that stops looks for its result on the whole stack: where the last frame has
no value of its own, a value that was dropped in one program may be the result of the other (`halt_finds_dropped`).
-/

namespace SystemDesignLabs.BytecodeVm

open Core

/-! ### Code without tail calls -/

/-- A tail call. -/
def Instruction.isTail {d : Dialect} : Instruction d → Bool
  | .tailCall _ _ => true
  | _ => false

/-- Where the code of an instruction begins when each tail call takes two places. -/
def place (code : List (Instruction v2)) (i : Nat) : Nat := i + (code.take i).countP Instruction.isTail

/-- Where a jump goes then; a target in front of the code is no place. -/
def target (code : List (Instruction v2)) (t : Int) : Int := if t < 0 then t else place code t.toNat

/-- What stands for an instruction: a call and a return for a tail call, and for a jump and a closure the same with
another offset and other code. -/
def Instruction.untailed (offset : Int32) (body : List (Instruction v2)) :
    Instruction v2 → List (Instruction v2)
  | .tailCall _ nArgs => [.callClosure nArgs, .ret]
  | .jump _ => [.jump offset]
  | .jumpIfFalse _ => [.jumpIfFalse offset]
  | .closure _ nUpvalues => [.closure body nUpvalues]
  | instr => [instr]

/-- The second code is the first one with every tail call replaced by a call and a return, in the code of closures as
well, and with the offsets of the jumps adjusted. -/
inductive Untailed : List (Instruction v2) → List (Instruction v2) → Prop
  | intro {code : List (Instruction v2)} (offsets : Nat → Int32) (bodies : Nat → List (Instruction v2))
      (jumps : ∀ i offset, code[i]? = some (.jump offset) ∨ code[i]? = some (.jumpIfFalse offset) →
        place code i + (offsets i).toInt = target code (i + offset.toInt))
      (closures : ∀ i body nUpvalues, code[i]? = some (.closure body nUpvalues) → Untailed body (bodies i)) :
      Untailed code (code.zipIdx.flatMap fun (instr, i) => instr.untailed (offsets i) (bodies i))

/-! ### The places -/

section Places

variable {code code' : List (Instruction v2)} {i j : Nat} {instr : Instruction v2}

theorem place_succ (hi : code[i]? = some instr) :
    place code (i + 1) = place code i + if instr.isTail then 2 else 1 := by
  rw [place, place, List.take_add_one, hi, List.countP_append]
  show i + 1 + (_ + [instr].countP Instruction.isTail) = _
  rw [List.countP_singleton]
  split <;> omega

theorem place_strictMono (hij : i < j) : place code i < place code j := by
  have hsub : (code.take i).Sublist (code.take j) := by
    have htake : code.take i = (code.take j).take i := by
      rw [List.take_take, Nat.min_eq_left (Nat.le_of_lt hij)]
    rw [htake]
    exact List.take_sublist _ _
  have hle := hsub.countP_le (p := Instruction.isTail)
  rw [place, place]
  omega

theorem place_lt_iff : place code i < place code j ↔ i < j := by
  constructor
  · intro h
    rcases Nat.lt_trichotomy i j with hlt | rfl | hgt
    · exact hlt
    · exact absurd h (Nat.lt_irrefl _)
    · exact absurd (Nat.lt_trans h (place_strictMono hgt)) (Nat.lt_irrefl _)
  · exact place_strictMono

theorem place_cons (c : Instruction v2) (code : List (Instruction v2)) (i : Nat) :
    place (c :: code) (i + 1) = (if c.isTail then 2 else 1) + place code i := by
  rw [place, place, List.take_succ_cons, List.countP_cons]
  split <;> omega

theorem length_untailed (offset : Int32) (body : List (Instruction v2)) (instr : Instruction v2) :
    (instr.untailed offset body).length = if instr.isTail then 2 else 1 := by
  cases instr <;> rfl

section Blocks

variable {f : Instruction v2 × Nat → List (Instruction v2)}
  (hlength : ∀ instr i, (f (instr, i)).length = if instr.isTail then 2 else 1)

include hlength

theorem length_blocks (code : List (Instruction v2)) (start : Nat) :
    ((code.zipIdx start).flatMap f).length = place code code.length := by
  induction code generalizing start with
  | nil => rfl
  | cons c code ih =>
    rw [List.zipIdx_cons, List.flatMap_cons, List.length_append, ih, hlength, List.length_cons, place_cons]

theorem getElem?_blocks {k : Nat} (start : Nat) (hi : code[i]? = some instr) (hk : k < (f (instr, start + i)).length) :
    ((code.zipIdx start).flatMap f)[place code i + k]? = (f (instr, start + i))[k]? := by
  induction code generalizing start i with
  | nil => exact nomatch hi
  | cons c code ih =>
    rw [List.zipIdx_cons, List.flatMap_cons]
    cases i with
    | zero =>
      cases hi
      have hzero : place (instr :: code) 0 = 0 := rfl
      rw [hzero, Nat.zero_add]
      exact List.getElem?_append_left hk
    | succ i =>
      have hsum : start + (i + 1) = start + 1 + i := by omega
      rw [hsum] at hk ⊢
      have hlen := hlength c start
      rw [place_cons, List.getElem?_append_right (by rw [hlen]; omega), hlen]
      have hsub : ((if c.isTail then 2 else 1) + place code i + k - if c.isTail then 2 else 1) =
          place code i + k := by omega
      rw [hsub]
      exact ih (start + 1) hi hk

end Blocks

/-- What the second code has at the place of an instruction. -/
def Untails (code : List (Instruction v2)) (i : Nat) (code' : List (Instruction v2)) : Instruction v2 → Prop
  | .tailCall _ nArgs =>
    code'[place code i]? = some (.callClosure nArgs) ∧ code'[place code i + 1]? = some .ret
  | .jump offset =>
    ∃ offset', code'[place code i]? = some (.jump offset') ∧
      place code i + offset'.toInt = target code (i + offset.toInt)
  | .jumpIfFalse offset =>
    ∃ offset', code'[place code i]? = some (.jumpIfFalse offset') ∧
      place code i + offset'.toInt = target code (i + offset.toInt)
  | .closure body nUpvalues =>
    ∃ body', code'[place code i]? = some (.closure body' nUpvalues) ∧ Untailed body body'
  | instr => code'[place code i]? = some instr

section

variable (h : Untailed code code')
include h

/-- The second code has at the place of an instruction what stands for it. -/
theorem Untailed.untails (hi : code[i]? = some instr) : Untails code i code' instr := by
  obtain ⟨offsets, bodies, jumps, closures⟩ := h
  have hat : ∀ k < (instr.untailed (offsets i) (bodies i)).length,
      (code.zipIdx.flatMap fun (instr, i) => instr.untailed (offsets i) (bodies i))[place code i + k]? =
        (instr.untailed (offsets i) (bodies i))[k]? := by
    intro k hk
    have hblock := getElem?_blocks (f := fun (instr, i) => instr.untailed (offsets i) (bodies i))
      (fun instr i => length_untailed _ _ instr) 0 hi (k := k)
    rw [Nat.zero_add] at hblock
    exact hblock hk
  have hfirst := hat 0 (by rw [length_untailed]; split <;> decide)
  rw [Nat.add_zero] at hfirst
  cases instr with
  | tailCall mark nArgs => exact ⟨hfirst, hat 1 (Nat.lt_succ_self 1)⟩
  | jump offset => exact ⟨offsets i, hfirst, jumps i offset (.inl hi)⟩
  | jumpIfFalse offset => exact ⟨offsets i, hfirst, jumps i offset (.inr hi)⟩
  | closure body nUpvalues => exact ⟨bodies i, hfirst, closures i body nUpvalues hi⟩
  | _ => exact hfirst

theorem Untailed.length : code'.length = place code code.length := by
  obtain ⟨offsets, bodies, -, -⟩ := h
  exact length_blocks (fun instr i => length_untailed _ _ instr) code 0

theorem Untailed.getElem?_eq_none (hi : code[i]? = none) : code'[place code i]? = none := by
  rw [List.getElem?_eq_none_iff] at hi ⊢
  rw [h.length]
  rcases Nat.eq_or_lt_of_le hi with heq | hlt
  · exact Nat.le_of_eq (congrArg (place code) heq)
  · exact Nat.le_of_lt (place_strictMono hlt)

end

end Places

/-! ### Machines side by side -/

/-- The same value; the code of a closure is without tail calls. -/
inductive SameValue : ExtValue v2 → ExtValue v2 → Prop
  | base (v : Value) : SameValue (.base v) (.base v)
  | closure {code code' : List (Instruction v2)} (upvalues : List Value) :
      Untailed code code' → SameValue (.closure ⟨code, upvalues⟩) (.closure ⟨code', upvalues⟩)

/-- The same way to stop. The target of a jump that is not in the code is adjusted, like those of other jumps. -/
inductive SameStop : Stop v2 → Stop v2 → Prop
  | done {v v' : ExtValue v2} : SameValue v v' → SameStop (.done v) (.done v')
  | err (e : VmError) : SameStop (.err e) (.err e)
  | invalidJump (code : List (Instruction v2)) (t : Int) :
      SameStop (.err (.invalidJump (t % 2 ^ 64).toNat)) (.err (.invalidJump (target code t % 2 ^ 64).toNat))
  | panic : SameStop .panic .panic

/-- The call stacks of frames with the given bases: those of the second machine have further frames, which do nothing
but return. No base is above that of the frame that was called. -/
inductive Calls : Nat → List (Frame v2) → Nat → List (Frame v2) → Prop
  | nil (base base' : Nat) : Calls base [] base' []
  | frame {f f' : Frame v2} {base base' : Nat} {calls calls' : List (Frame v2)} :
      Untailed f.code f'.code → f'.ip = place f.code f.ip → f'.upvalues = f.upvalues →
      f.stackBase ≤ f'.stackBase → f.stackBase ≤ base → f'.stackBase ≤ base' → Calls f.stackBase calls f'.stackBase calls' →
      Calls base (calls ++ [f]) base' (calls' ++ [f'])
  | ghost {g : Frame v2} {base base' : Nat} {calls calls' : List (Frame v2)} :
      g.code[g.ip]? = some .ret → g.stackBase ≤ base' → Calls base calls g.stackBase calls' →
      Calls base calls base' (calls' ++ [g])

namespace Vm

/-- The values of the frame that runs. -/
def own {d : Dialect} (vm : Vm d) : List (ExtValue d) := vm.stack.drop vm.stackBase

/-- Two machines with the given values in their frames. Nothing is said of the values below. -/
structure Sim (own own' : List (ExtValue v2)) (vm vm' : Vm v2) : Prop where
  code : Untailed vm.code vm'.code
  ip : vm'.ip = place vm.code vm.ip
  upvalues : vm'.upvalues = vm.upvalues
  base : vm.stackBase ≤ vm'.stackBase
  stack : ∃ below, vm.stack = below ++ own ∧ below.length = vm.stackBase
  stack' : ∃ below, vm'.stack = below ++ own' ∧ below.length = vm'.stackBase
  values : List.Forall₂ SameValue own own'
  calls : Calls vm.stackBase vm.callStack vm'.stackBase vm'.callStack

/-- Two machines that agree on the frames that run. -/
def Alike (vm vm' : Vm v2) : Prop := ∃ own own', Sim own own' vm vm'

end Vm

/-- The values that an instruction takes are the frame's own; some instructions fail before they take all. -/
def Instruction.Takes {d : Dialect} (own : List (ExtValue d)) (depth : Nat) : Instruction d → Prop
  | .add => 2 ≤ own.length ∨ ∃ c, own = [.closure c]
  | .sub | .mul | .div | .lt => 2 ≤ own.length ∨ ∃ v, own = [v] ∧ ∀ n, v ≠ .base (.int n)
  | .closure _ nUpvalues => maxCapacity < nUpvalues ∨ nUpvalues ≤ own.length ∨ ∃ c, .closure c ∈ own
  | .callClosure nArgs => maxCallDepth ≤ depth ∨ 2 ^ 64 ≤ nArgs + 1 ∨ nArgs + 1 ≤ own.length
  | .tailCall _ nArgs => 2 ^ 64 ≤ nArgs + 1 ∨ nArgs + 1 ≤ own.length
  | instr => instr.pops ≤ own.length

/-- The next instruction does not pop below the base of its frame. -/
def Vm.TakesOwn {d : Dialect} (vm : Vm d) : Prop :=
  ∀ instr, vm.code[vm.ip]? = some instr → instr.Takes vm.own vm.callStack.length

/-! ### Lists of values -/

section Values

variable {α β : Type} {R : α → β → Prop}

variable {l : List α} {l' : List β}

theorem forall₂_concat {x : α} {x' : β} (h : List.Forall₂ R l l') (hx : R x x') :
    List.Forall₂ R (l ++ [x]) (l' ++ [x']) := by
  induction h with
  | nil => exact .cons hx .nil
  | cons hr _ ih => exact .cons hr ih

theorem forall₂_append_left {k : List α} {m : List β} (h : List.Forall₂ R (l ++ k) m) :
    ∃ l' k', m = l' ++ k' ∧ List.Forall₂ R l l' ∧ List.Forall₂ R k k' := by
  induction l generalizing m with
  | nil => exact ⟨[], m, rfl, .nil, h⟩
  | cons a l ih =>
    cases h with
    | cons hr hrest =>
      obtain ⟨l', k', rfl, hl, hk⟩ := ih hrest
      exact ⟨_ :: l', k', rfl, .cons hr hl, hk⟩

theorem forall₂_concat_left {m : List β} {x : α} (h : List.Forall₂ R (l ++ [x]) m) :
    ∃ l' x', m = l' ++ [x'] ∧ List.Forall₂ R l l' ∧ R x x' := by
  obtain ⟨l', k', rfl, hl, hk⟩ := forall₂_append_left h
  cases hk with
  | cons hx hnil =>
    cases hnil
    exact ⟨l', _, rfl, hl, hx⟩

theorem forall₂_set {x : α} {x' : β} (h : List.Forall₂ R l l') (hx : R x x') (i : Nat) :
    List.Forall₂ R (l.set i x) (l'.set i x') := by
  induction h generalizing i with
  | nil => exact .nil
  | cons hr hrest ih =>
    cases i with
    | zero => exact .cons hx hrest
    | succ i => exact .cons hr (ih i)

theorem forall₂_getElem? (h : List.Forall₂ R l l') (i : Nat) :
    l[i]? = none ∧ l'[i]? = none ∨ ∃ x x', l[i]? = some x ∧ l'[i]? = some x' ∧ R x x' := by
  induction h generalizing i with
  | nil => exact .inl ⟨rfl, rfl⟩
  | cons hr _ ih =>
    cases i with
    | zero => exact .inr ⟨_, _, rfl, rfl, hr⟩
    | succ i => exact ih i

theorem exists_concat (h : 1 ≤ l.length) : ∃ l₀ x, l = l₀ ++ [x] := by
  rcases List.eq_nil_or_concat l with rfl | ⟨l₀, x, rfl⟩
  · exact absurd h (Nat.not_succ_le_zero 0)
  · exact ⟨l₀, x, List.concat_eq_append⟩

theorem exists_split {n : Nat} (h : n + 1 ≤ l.length) : ∃ l₀ x l₁, l = l₀ ++ x :: l₁ ∧ l₁.length = n := by
  have hlt : l.length - (n + 1) < l.length := by omega
  refine ⟨l.take (l.length - (n + 1)), l[l.length - (n + 1)], l.drop (l.length - (n + 1) + 1), ?_, ?_⟩
  · rw [List.getElem_cons_drop hlt, List.take_append_drop]
  · rw [List.length_drop]
    omega

end Values

namespace Vm

/-! ### The parts of the instructions -/

/-- What parts of instructions leave on both machines, or how both stop. -/
abbrev Sides {α : Type} (m : Run v2 α) (vm : Vm v2) (m' : Run v2 α) (vm' : Vm v2)
    (post : α → Vm v2 → α → Vm v2 → Prop) : Prop :=
  Agrees m vm m' vm' post SameStop

/-- Both machines go on alike. -/
abbrev SidesAlike (m : Run v2 PUnit) (vm : Vm v2) (m' : Run v2 PUnit) (vm' : Vm v2) : Prop :=
  Sides m vm m' vm' fun _ t _ t' => Alike t t'

variable {own own' : List (ExtValue v2)} {x x' : ExtValue v2} {vm vm' : Vm v2}

theorem Sim.lengths (h : Sim own own' vm vm') :
    vm.stack.length = vm.stackBase + own.length ∧ vm'.stack.length = vm'.stackBase + own.length := by
  obtain ⟨below, hstack, hbelow⟩ := h.stack
  obtain ⟨below', hstack', hbelow'⟩ := h.stack'
  rw [hstack, hstack', List.length_append, List.length_append, hbelow, hbelow', h.values.length_eq]
  exact ⟨rfl, rfl⟩

theorem Sim.own_eq (h : Sim own own' vm vm') : vm.own = own := by
  obtain ⟨below, hstack, hbelow⟩ := h.stack
  rw [Vm.own, hstack, ← hbelow, List.drop_left]

variable {below below' : List (ExtValue v2)}

section

variable (h : Sim own own' vm vm')
include h

theorem Sim.withOwn {values values' : List (ExtValue v2)}
    (hvalues : List.Forall₂ SameValue values values') (hbelow : below.length = vm.stackBase)
    (hbelow' : below'.length = vm'.stackBase) :
    Sim values values' { vm with stack := below ++ values } { vm' with stack := below' ++ values' } :=
  ⟨h.code, h.ip, h.upvalues, h.base, ⟨below, rfl, hbelow⟩, ⟨below', rfl, hbelow'⟩, hvalues, h.calls⟩

theorem sim_push {v v' : ExtValue v2} (hv : SameValue v v') :
    Sides (push v) vm (push v') vm' fun _ t _ t' => Sim (own ++ [v]) (own' ++ [v']) t t' := by
  obtain ⟨below, hstack, hbelow⟩ := h.stack
  obtain ⟨below', hstack', hbelow'⟩ := h.stack'
  apply Agrees.modify
  rw [hstack, hstack', List.append_assoc, List.append_assoc]
  exact h.withOwn (forall₂_concat h.values hv) hbelow hbelow'

theorem alike_push {v v' : ExtValue v2} (hv : SameValue v v') :
    SidesAlike (push v) vm (push v') vm' :=
  (sim_push h hv).mono fun _ _ _ _ h' => ⟨_, _, h'⟩

end

/-- Values were taken from the frames, and nothing else is changed. -/
def Popped (own : List (ExtValue v2)) (vm t vm' t' : Vm v2) : Prop :=
  (∃ stack, t = { vm with stack := stack }) ∧ (∃ stack, t' = { vm' with stack := stack }) ∧
    ∃ rest, Sim own rest t t'

section

variable (h : Sim (own ++ [x]) own' vm vm')
include h

theorem sim_pop :
    Sides pop vm pop vm' fun v t v' t' => v = x ∧ SameValue x v' ∧ Popped own vm t vm' t' := by
  obtain ⟨below, hstack, hbelow⟩ := h.stack
  obtain ⟨below', hstack', hbelow'⟩ := h.stack'
  obtain ⟨rest, x', rfl, hrest, hx⟩ := forall₂_concat_left h.values
  rw [← List.append_assoc] at hstack hstack'
  apply Agrees.get
  rw [hstack, hstack', List.getLast?_concat, List.getLast?_concat]
  apply Agrees.setSeq
  apply Agrees.pure
  rw [List.dropLast_concat, List.dropLast_concat]
  exact ⟨rfl, hx, ⟨_, rfl⟩, ⟨_, rfl⟩, rest, h.withOwn hrest hbelow hbelow'⟩

theorem sim_popBase :
    Sides popBase vm popBase vm' fun v t v' t' => x = .base v ∧ v' = v ∧ Popped own vm t vm' t' := by
  apply Agrees.seq (sim_pop h)
  rintro v t v' t' ⟨rfl, hv, ht⟩
  cases hv with
  | base v => exact Agrees.pure ⟨rfl, rfl, ht⟩
  | closure upvalues _ => exact Agrees.throw (.err _)

theorem sim_popInt :
    Sides popInt vm popInt vm' fun n t n' t' => x = .base (.int n) ∧ n' = n ∧ Popped own vm t vm' t' := by
  apply Agrees.seq (sim_popBase h)
  rintro v t v' t' ⟨hx, rfl, ht⟩
  cases v' with
  | int n => exact Agrees.pure ⟨hx, rfl, ht⟩
  | bool _ | str _ | nil => exact Agrees.throw (.err _)

theorem sim_popBool :
    Sides popBool vm popBool vm' fun b t b' t' => b' = b ∧ Popped own vm t vm' t' := by
  apply Agrees.seq (sim_popBase h)
  rintro v t v' t' ⟨-, rfl, ht⟩
  cases v' with
  | bool b => exact Agrees.pure ⟨rfl, ht⟩
  | int _ | str _ | nil => exact Agrees.throw (.err _)

end

theorem sides_checked (n : Int) : Sides (checked n) vm (checked n) vm' fun a t a' t' => a' = a ∧ t = vm ∧ t' = vm' := by
  rw [checked]
  split
  · exact Agrees.pure ⟨rfl, rfl, rfl⟩
  · exact Agrees.throw .panic

theorem alike_checked (n : Int) (h : Sim own own' vm vm') :
    SidesAlike (do let n ← checked n; push (.base (.int n))) vm (do let n ← checked n; push (.base (.int n))) vm' := by
  apply Agrees.seq (sides_checked n)
  rintro a t _ t' ⟨rfl, rfl, rfl⟩
  exact alike_push h (.base _)

theorem alike_popInts {k : Int64 → Int64 → Run v2 PUnit} (h : Sim own own' vm vm')
    (htakes : 2 ≤ own.length ∨ ∃ v, own = [v] ∧ ∀ n, v ≠ .base (.int n))
    (hk : ∀ b a values values' t t', Sim values values' t t' → SidesAlike (k b a) t (k b a) t') :
    SidesAlike (do let b ← popInt; let a ← popInt; k b a) vm (do let b ← popInt; let a ← popInt; k b a) vm' := by
  have hne : 1 ≤ own.length := by
    rcases htakes with hlen | ⟨v, rfl, -⟩
    · omega
    · exact Nat.le_refl 1
  obtain ⟨own₁, b, rfl⟩ := exists_concat hne
  apply Agrees.seq (sim_popInt h)
  rintro n t n' t' ⟨rfl, hn, -, -, rest, ht⟩
  subst hn
  rcases htakes with hlen | ⟨v, hv, hint⟩
  · obtain ⟨own₂, a, rfl⟩ := exists_concat (l := own₁) (by
      rw [List.length_append, List.length_singleton] at hlen
      omega)
    apply Agrees.seq (sim_popInt ht)
    rintro m t₂ _ t₂' ⟨-, rfl, -, -, rest₂, ht₂⟩
    exact hk _ _ _ _ _ _ ht₂
  · have hv' : v = .base (.int n') := by
      cases own₁ with
      | nil => exact (List.cons.inj hv).1.symm
      | cons _ _ => simp at hv
    exact absurd hv' (hint n')

theorem alike_arith (f : Int → Int → Int) (h : Sim own own' vm vm')
    (htakes : 2 ≤ own.length ∨ ∃ v, own = [v] ∧ ∀ n, v ≠ .base (.int n)) : SidesAlike (arith f) vm (arith f) vm' :=
  alike_popInts h htakes fun _ _ _ _ _ _ ht => alike_checked _ ht

theorem alike_add (h : Sim own own' vm vm') (htakes : 2 ≤ own.length ∨ ∃ c, own = [.closure c]) :
    SidesAlike add vm add vm' := by
  have hne : 1 ≤ own.length := by
    rcases htakes with hlen | ⟨c, rfl⟩
    · omega
    · exact Nat.le_refl 1
  obtain ⟨own₁, b, rfl⟩ := exists_concat hne
  apply Agrees.seq (sim_popBase h)
  rintro v t v' t' ⟨rfl, hv, -, -, rest, ht⟩
  subst hv
  rcases htakes with hlen | ⟨c, hc⟩
  · obtain ⟨own₂, a, rfl⟩ := exists_concat (l := own₁) (by
      rw [List.length_append, List.length_singleton] at hlen
      omega)
    apply Agrees.seq (sim_popBase ht)
    rintro w t₂ w' t₂' ⟨-, hw, -, -, rest₂, ht₂⟩
    subst hw
    cases w' with
    | int n =>
      cases v' with
      | int m => exact alike_checked _ ht₂
      | bool _ | str _ | nil => exact Agrees.throw (.err _)
    | str s =>
      cases v' with
      | str t => exact alike_push ht₂ (.base _)
      | int _ | bool _ | nil => exact Agrees.throw (.err _)
    | bool _ | nil => exact Agrees.throw (.err _)
  · cases own₁ with
    | nil => exact nomatch hc
    | cons _ _ => simp at hc

theorem alike_eq (h : Sim own own' vm vm') (hlen : 2 ≤ own.length) : SidesAlike (execute .eq) vm (execute .eq) vm' := by
  obtain ⟨own₁, b, rfl⟩ := exists_concat (l := own) (by omega)
  rw [List.length_append, List.length_singleton] at hlen
  obtain ⟨own₂, a, rfl⟩ := exists_concat (l := own₁) (by omega)
  apply Agrees.seq (sim_pop h)
  rintro v t v' t' ⟨rfl, hv, -, -, rest, ht⟩
  apply Agrees.seq (sim_pop ht)
  rintro w t₂ w' t₂' ⟨rfl, hw, -, -, rest₂, ht₂⟩
  -- closures are never equal, whatever their code is
  have heq : w.eq v = w'.eq v' := by
    cases hv <;> cases hw <;> rfl
  rw [heq]
  exact alike_push ht₂ (.base _)

variable {offset offset' : Int32}

theorem alike_jump (h : Sim own own' vm vm')
    (htarget : (vm'.ip + offset'.toInt - 1 : Int) = target vm.code (vm.ip + offset.toInt - 1)) :
    SidesAlike (jump offset) vm (jump offset') vm' := by
  have hlength := h.code.length
  apply Agrees.get
  dsimp only
  rw [htarget]
  generalize (vm.ip + offset.toInt - 1 : Int) = t
  have hbad : (target vm.code t < 0 ∨ (vm'.code.length : Int) < target vm.code t) ↔
      (t < 0 ∨ (vm.code.length : Int) < t) := by
    rw [target]
    split
    · next hneg =>
      exact ⟨fun _ => .inl hneg, fun _ => .inl hneg⟩
    · next hpos =>
      have hplace := @place_lt_iff vm.code vm.code.length t.toNat
      rw [hlength]
      omega
  by_cases hout : t < 0 ∨ (vm.code.length : Int) < t
  · rw [if_pos hout, if_pos (hbad.2 hout)]
    exact Agrees.throw (.invalidJump vm.code t)
  · rw [if_neg hout, if_neg (fun h' => hout (hbad.1 h'))]
    have hnat : (target vm.code t).toNat = place vm.code t.toNat := by
      rw [target, if_neg (fun hneg => hout (.inl hneg)), Int.toNat_natCast]
    apply Agrees.set
    exact ⟨own, own', h.code, hnat, h.upvalues, h.base, h.stack, h.stack', h.values, h.calls⟩

theorem alike_popUpvalues (n : Nat) (h : Sim own own' vm vm') (htakes : n ≤ own.length ∨ ∃ c, .closure c ∈ own) :
    Sides (popUpvalues n) vm (popUpvalues n) vm' fun vs t vs' t' => vs' = vs ∧ Alike t t' := by
  induction n generalizing own own' vm vm' with
  | zero => exact Agrees.pure ⟨rfl, _, _, h⟩
  | succ n ih =>
    have hne : 1 ≤ own.length := by
      rcases htakes with hlen | ⟨c, hc⟩
      · omega
      · exact List.length_pos_of_mem hc
    obtain ⟨own₁, x, rfl⟩ := exists_concat hne
    apply Agrees.seq (sim_pop h)
    rintro v t v' t' ⟨rfl, hv, -, -, rest, ht⟩
    cases hv with
    | closure upvalues _ => exact Agrees.throw (.err _)
    | base v =>
      have htakes₁ : n ≤ own₁.length ∨ ∃ c, .closure c ∈ own₁ := by
        rcases htakes with hlen | ⟨c, hc⟩
        · rw [List.length_append, List.length_singleton] at hlen
          exact .inl (Nat.le_of_succ_le_succ hlen)
        · rcases List.mem_append.1 hc with hc | hc
          · exact .inr ⟨c, hc⟩
          · exact nomatch List.mem_singleton.1 hc
      apply Agrees.seq (ih ht htakes₁)
      rintro vs t₂ vs' t₂' ⟨rfl, ht₂⟩
      exact Agrees.pure ⟨rfl, ht₂⟩

theorem alike_closure {body body' : List (Instruction v2)} {nUpvalues : Nat} (h : Sim own own' vm vm')
    (hbody : Untailed body body') (htakes : maxCapacity < nUpvalues ∨ nUpvalues ≤ own.length ∨ ∃ c, .closure c ∈ own) :
    SidesAlike (execute (.closure body nUpvalues)) vm (execute (.closure body' nUpvalues)) vm' := by
  rw [execute, execute]
  by_cases hcap : maxCapacity < nUpvalues
  · rw [if_pos hcap, if_pos hcap]
    exact Agrees.throw .panic
  · rw [if_neg hcap, if_neg hcap]
    apply Agrees.seq (alike_popUpvalues nUpvalues h (htakes.resolve_left hcap))
    rintro vs t vs' t' ⟨rfl, _, _, ht⟩
    exact alike_push ht (.closure _ hbody)

theorem sides_checkedAdd {a a' b : Nat} (hle : a ≤ a') (hfits : a' + b < 2 ^ 64) :
    Sides (checkedAdd a b) vm (checkedAdd a' b) vm' fun n t n' t' => n = a + b ∧ n' = a' + b ∧ t = vm ∧ t' = vm' := by
  rw [checkedAdd, checkedAdd, if_pos (by omega), if_pos hfits]
  exact Agrees.pure ⟨rfl, rfl, rfl, rfl⟩

section

variable (h : Sim own own' vm vm')
include h

theorem Sim.getElem? (idx : Nat) :
    vm.stack[vm.stackBase + idx]? = own[idx]? ∧ vm'.stack[vm'.stackBase + idx]? = own'[idx]? := by
  obtain ⟨below, hstack, hbelow⟩ := h.stack
  obtain ⟨below', hstack', hbelow'⟩ := h.stack'
  rw [hstack, hstack', ← hbelow, ← hbelow', List.getElem?_append_right (Nat.le_add_right _ _),
    List.getElem?_append_right (Nat.le_add_right _ _), Nat.add_sub_cancel_left, Nat.add_sub_cancel_left]
  exact ⟨rfl, rfl⟩

theorem alike_load {idx : Nat} (hfits : vm'.stackBase + idx < 2 ^ 64) :
    SidesAlike (execute (.load idx)) vm (execute (.load idx)) vm' := by
  apply Agrees.get
  apply Agrees.seq (sides_checkedAdd h.base hfits)
  rintro pos t pos' t' ⟨rfl, rfl, rfl, rfl⟩
  rw [(h.getElem? idx).1, (h.getElem? idx).2]
  rcases forall₂_getElem? h.values idx with ⟨hnone, hnone'⟩ | ⟨v, v', hv, hv', hsame⟩
  · rw [hnone, hnone']
    exact Agrees.throw (.err _)
  · rw [hv, hv']
    exact alike_push h hsame

theorem alike_store {idx : Nat} (hlen : 1 ≤ own.length)
    (hfits : vm'.stackBase + idx < 2 ^ 64) : SidesAlike (execute (.store idx)) vm (execute (.store idx)) vm' := by
  obtain ⟨own₁, x, rfl⟩ := exists_concat hlen
  apply Agrees.seq (sim_pop h)
  rintro v t v' t' ⟨rfl, hv, -, ⟨stack', rfl⟩, rest, ht⟩
  apply Agrees.get
  apply Agrees.seq (sides_checkedAdd ht.base hfits)
  rintro pos t₂ pos' t₂' ⟨rfl, rfl, rfl, rfl⟩
  obtain ⟨hlen, hlen'⟩ := ht.lengths
  by_cases hout : own₁.length ≤ idx
  · rw [if_pos (by omega), if_pos (by omega)]
    exact Agrees.throw (.err _)
  · rw [if_neg (by omega), if_neg (by omega)]
    obtain ⟨below, hstack, hbelow⟩ := ht.stack
    obtain ⟨below', hstack', hbelow'⟩ := ht.stack'
    have hset : t₂.stack.set (t₂.stackBase + idx) v = below ++ own₁.set idx v := by
      rw [hstack, ← hbelow, List.set_append_right _ _ (Nat.le_add_right _ _), Nat.add_sub_cancel_left]
    have hset' : stack'.set (vm'.stackBase + idx) v' = below' ++ rest.set idx v' := by
      have hbase : vm'.stackBase = below'.length := hbelow'.symm
      have hstack'' : stack' = below' ++ rest := hstack'
      rw [hstack'', hbase, List.set_append_right _ _ (Nat.le_add_right _ _), Nat.add_sub_cancel_left]
    apply Agrees.set
    dsimp only
    rw [hset, hset']
    exact ⟨_, _, ht.withOwn (forall₂_set ht.values hv idx) hbelow hbelow'⟩

end

theorem alike_getUpvalue (idx : Nat) (h : Sim own own' vm vm') :
    SidesAlike (execute (.getUpvalue idx)) vm (execute (.getUpvalue idx)) vm' := by
  apply Agrees.get
  rw [h.upvalues]
  cases vm.upvalues[idx]? with
  | none => exact Agrees.throw (.err _)
  | some v => exact alike_push h (.base v)

theorem alike_setUpvalue (idx : Nat) (h : Sim own own' vm vm') (hlen : 1 ≤ own.length) :
    SidesAlike (execute (.setUpvalue idx)) vm (execute (.setUpvalue idx)) vm' := by
  obtain ⟨own₁, x, rfl⟩ := exists_concat hlen
  apply Agrees.seq (sim_popBase h)
  rintro v t v' t' ⟨-, rfl, -, -, rest, ht⟩
  apply Agrees.get
  rw [ht.upvalues]
  split
  · exact Agrees.throw (.err _)
  · apply Agrees.set
    exact ⟨_, _, ht.code, ht.ip, rfl, ht.base, ht.stack, ht.stack', ht.values, ht.calls⟩

section

variable (h : Sim own own' vm vm')
include h

theorem alike_jumpIfFalse (hlen : 1 ≤ own.length)
    (htarget : (vm'.ip + offset'.toInt - 1 : Int) = target vm.code (vm.ip + offset.toInt - 1)) :
    SidesAlike (execute (.jumpIfFalse offset)) vm (execute (.jumpIfFalse offset')) vm' := by
  obtain ⟨own₁, x, rfl⟩ := exists_concat hlen
  apply Agrees.seq (sim_popBool h)
  rintro b t _ t' ⟨rfl, ⟨stack, rfl⟩, ⟨stack', rfl⟩, rest, ht⟩
  split
  · exact Agrees.pure ⟨_, _, ht⟩
  · exact alike_jump ht htarget

theorem alike_neg (hlen : 1 ≤ own.length) :
    SidesAlike (execute .neg) vm (execute .neg) vm' := by
  obtain ⟨own₁, x, rfl⟩ := exists_concat hlen
  apply Agrees.seq (sim_popInt h)
  rintro n t _ t' ⟨-, rfl, -, -, rest, ht⟩
  exact alike_checked _ ht

theorem alike_div (htakes : 2 ≤ own.length ∨ ∃ v, own = [v] ∧ ∀ n, v ≠ .base (.int n)) :
    SidesAlike div vm div vm' := by
  apply alike_popInts h htakes
  intro b a values values' t t' ht
  split
  · exact Agrees.throw (.err _)
  · exact alike_checked _ ht

end

/-! ### Calls -/

section Closures

variable {d : Dialect} {vm : Vm d} {nArgs : Nat} {front args : List (ExtValue d)}

theorem checkedAdd_eq {a b : Nat} (h : a + b < 2 ^ 64) : checkedAdd a b vm = .ok (a + b) vm := by
  rw [checkedAdd, if_pos h]
  rfl

theorem checkedAdd_eq_panic {a b : Nat} (h : 2 ^ 64 ≤ a + b) : checkedAdd a b vm = .error .panic vm := by
  rw [checkedAdd, if_neg (by omega)]
  rfl

theorem takeClosure_eq {c : Closure d} (hfits : nArgs + 1 < 2 ^ 64) (hstack : vm.stack = front ++ .closure c :: args)
    (hargs : args.length = nArgs) :
    takeClosure nArgs vm = .ok (c, front.length) { vm with stack := front ++ args } := by
  have hpos : vm.stack.length - (nArgs + 1) = front.length := by
    rw [hstack, List.length_append, List.length_cons, hargs, Nat.add_sub_cancel_right]
  have hget : vm.stack[vm.stack.length - (nArgs + 1)]? = some (.closure c) := by
    rw [hpos, hstack, List.getElem?_append_right (Nat.le_refl _), Nat.sub_self]
    rfl
  have herase : vm.stack.eraseIdx (vm.stack.length - (nArgs + 1)) = front ++ args := by
    rw [hpos, hstack, List.eraseIdx_append_of_length_le (Nat.le_refl _), Nat.sub_self]
    rfl
  have hlen : ¬ (front ++ args).length < nArgs := by
    rw [List.length_append, hargs]
    omega
  have hsub : (front ++ args).length - nArgs = front.length := by
    rw [List.length_append, hargs, Nat.add_sub_cancel_right]
  rw [takeClosure]
  simp only [bind, EStateM.bind, checkedAdd_eq hfits, get, getThe, MonadStateOf.get, EStateM.get, hget, set, EStateM.set,
    herase, if_neg hlen, hsub, pure, EStateM.pure]

theorem takeClosure_eq_error {v : Value} (hfits : nArgs + 1 < 2 ^ 64) (hstack : vm.stack = front ++ .base v :: args)
    (hargs : args.length = nArgs) : takeClosure nArgs vm = .error (.err .notAFunction) vm := by
  have hpos : vm.stack.length - (nArgs + 1) = front.length := by
    rw [hstack, List.length_append, List.length_cons, hargs, Nat.add_sub_cancel_right]
  have hget : vm.stack[vm.stack.length - (nArgs + 1)]? = some (.base v) := by
    rw [hpos, hstack, List.getElem?_append_right (Nat.le_refl _), Nat.sub_self]
    rfl
  rw [takeClosure]
  simp only [bind, EStateM.bind, checkedAdd_eq hfits, get, getThe, MonadStateOf.get, EStateM.get, hget, throw, throwThe,
    MonadExceptOf.throw, EStateM.throw]

theorem takeClosure_eq_panic (hfits : 2 ^ 64 ≤ nArgs + 1) : takeClosure nArgs vm = .error .panic vm := by
  rw [takeClosure]
  simp only [bind, EStateM.bind, checkedAdd_eq_panic hfits]

/-- What a call does with the closure that it has taken. -/
def enter (c : Closure d) (newStackBase : Nat) : Run d PUnit :=
  modify fun vm => { vm with
    callStack := vm.callStack ++ [⟨vm.code, vm.ip, vm.stackBase, vm.upvalues⟩]
    code := c.code
    ip := 0
    upvalues := c.upvalues
    stackBase := newStackBase }

theorem callClosure_eq (hdepth : vm.callStack.length < maxCallDepth) :
    callClosure nArgs vm = (takeClosure nArgs >>= fun out => enter out.1 out.2)
      { vm with framesCreated := vm.framesCreated + 1 } := by
  have hdepth' : ¬ maxCallDepth ≤ vm.callStack.length := Nat.not_le.2 hdepth
  rw [callClosure]
  simp only [bind, EStateM.bind, get, getThe, MonadStateOf.get, EStateM.get, if_neg hdepth', modify, modifyGet,
    MonadStateOf.modifyGet, EStateM.modifyGet, enter]

end Closures

/-- The closure and the arguments are taken from the frames: what was in front of the closure, and the arguments. -/
structure Taken (below below' : List (ExtValue v2)) (c c' : Closure v2) (front front' args args' : List (ExtValue v2)) :
    Prop where
  front : ∃ rest rest', front = below ++ rest ∧ front' = below' ++ rest' ∧ rest.length = rest'.length
  args : List.Forall₂ SameValue args args'
  code : Untailed c.code c'.code
  upvalues : c'.upvalues = c.upvalues

variable {nArgs : Nat}

theorem sides_takeClosure (hstack : vm.stack = below ++ own) (hstack' : vm'.stack = below' ++ own')
    (hvalues : List.Forall₂ SameValue own own') (htakes : 2 ^ 64 ≤ nArgs + 1 ∨ nArgs + 1 ≤ own.length) :
    Sides (takeClosure nArgs) vm (takeClosure nArgs) vm' fun out t out' t' =>
      ∃ front front' args args', Taken below below' out.1 out'.1 front front' args args' ∧
        out.2 = front.length ∧ out'.2 = front'.length ∧
        t = { vm with stack := front ++ args } ∧ t' = { vm' with stack := front' ++ args' } := by
  by_cases hfits : 2 ^ 64 ≤ nArgs + 1
  · rw [Sides, Agrees, takeClosure_eq_panic hfits, takeClosure_eq_panic hfits]
    exact .panic
  · have hfits' : nArgs + 1 < 2 ^ 64 := Nat.lt_of_not_le hfits
    obtain ⟨rest, x, args, rfl, hargs⟩ := exists_split (htakes.resolve_left hfits)
    obtain ⟨rest', k, rfl, hrest, hk⟩ := forall₂_append_left hvalues
    cases hk with
    | @cons _ x' _ args' hx hargs' =>
      rw [← List.append_assoc] at hstack hstack'
      have hlen : args'.length = nArgs := hargs'.length_eq.symm.trans hargs
      cases hx with
      | base v =>
        rw [Sides, Agrees, takeClosure_eq_error hfits' hstack hargs, takeClosure_eq_error hfits' hstack' hlen]
        exact .err _
      | closure upvalues hcode =>
        rw [Sides, Agrees, takeClosure_eq hfits' hstack hargs, takeClosure_eq hfits' hstack' hlen]
        exact ⟨_, _, args, args', ⟨⟨rest, rest', rfl, rfl, hrest.length_eq⟩, hargs', hcode, rfl⟩, rfl, rfl, rfl, rfl⟩

/-- A call pushes a frame on both sides. -/
theorem alike_callClosure (h : Sim own own' vm vm') (hdepth : vm.callStack.length < maxCallDepth)
    (hdepth' : vm'.callStack.length < maxCallDepth) (htakes : 2 ^ 64 ≤ nArgs + 1 ∨ nArgs + 1 ≤ own.length) :
    SidesAlike (callClosure nArgs) vm (callClosure nArgs) vm' := by
  obtain ⟨below, hstack, hbelow⟩ := h.stack
  obtain ⟨below', hstack', hbelow'⟩ := h.stack'
  have htake := @sides_takeClosure own own' { vm with framesCreated := vm.framesCreated + 1 }
    { vm' with framesCreated := vm'.framesCreated + 1 } below below' nArgs hstack hstack' h.values htakes
  rw [SidesAlike, Sides, Agrees, callClosure_eq hdepth, callClosure_eq hdepth']
  apply Agrees.seq htake
  rintro ⟨c, base⟩ t ⟨c', base'⟩ t' ⟨front, front', args, args', ⟨⟨rest, rest', hfront, hfront', hlen⟩, hargs, hcode,
    hup⟩, rfl, rfl, rfl, rfl⟩
  have hfrontlen : front.length = vm.stackBase + rest.length := by
    rw [hfront, List.length_append, hbelow]
  have hfrontlen' : front'.length = vm'.stackBase + rest.length := by
    rw [hfront', List.length_append, hbelow', hlen]
  have hbase := h.base
  apply Agrees.modify
  refine ⟨args, args', hcode, rfl, hup, ?_, ⟨front, rfl, rfl⟩, ⟨front', rfl, rfl⟩, hargs, ?_⟩
  · show front.length ≤ front'.length
    omega
  · refine .frame h.code h.ip h.upvalues hbase ?_ ?_ h.calls
    · show vm.stackBase ≤ front.length
      omega
    · show vm'.stackBase ≤ front'.length
      omega

/-- A tail call keeps the call stack; the call in its place pushes a frame that does nothing but return. -/
theorem alike_tailCall {vm₀ vm₀' : Vm v2} (h : Sim own own' vm₀ vm₀')
    (hvm : vm = { vm₀ with ip := vm₀.ip + 1 }) (hvm' : vm' = { vm₀' with ip := vm₀'.ip + 1 })
    (hret : vm'.code[vm'.ip]? = some .ret) (hdepth' : vm'.callStack.length < maxCallDepth)
    (htakes : 2 ^ 64 ≤ nArgs + 1 ∨ nArgs + 1 ≤ own.length) :
    SidesAlike (tailCall nArgs) vm (callClosure nArgs) vm' := by
  subst hvm hvm'
  obtain ⟨below, hstack, hbelow⟩ := h.stack
  obtain ⟨below', hstack', hbelow'⟩ := h.stack'
  have htake := @sides_takeClosure own own' { vm₀ with ip := vm₀.ip + 1 }
    { vm₀' with ip := vm₀'.ip + 1, framesCreated := vm₀'.framesCreated + 1 } below below' nArgs hstack hstack' h.values
    htakes
  rw [SidesAlike, Sides, Agrees, callClosure_eq hdepth']
  apply Agrees.seq htake
  rintro ⟨c, base⟩ t ⟨c', base'⟩ t' ⟨front, front', args, args', ⟨⟨rest, rest', hfront, hfront', hlen⟩, hargs, hcode,
    hup⟩, rfl, rfl, rfl, rfl⟩
  have hfrontlen : front'.length = vm₀'.stackBase + rest.length := by
    rw [hfront', List.length_append, hbelow', hlen]
  -- what the frame had below the closure is dropped on the first side only
  have hdrop : (front ++ args).take vm₀.stackBase ++ (front ++ args).drop front.length = below ++ args := by
    rw [hfront, List.append_assoc, ← hbelow, List.take_left, ← List.append_assoc, List.drop_left]
  have hbase := h.base
  apply Agrees.modify
  dsimp only
  rw [hdrop]
  refine ⟨args, args', hcode, rfl, hup, ?_, ⟨below, rfl, hbelow⟩, ⟨front', rfl, rfl⟩, hargs, ?_⟩
  · show vm₀.stackBase ≤ front'.length
    omega
  · refine .ghost hret ?_ h.calls
    show vm₀'.stackBase ≤ front'.length
    omega

/-! ### Steps -/

section Steps

variable {d : Dialect} {vm : Vm d}

/-- The loop of `run`. -/
def machine : Machine (Vm d) (Stop d) := fun vm =>
  match step vm with
  | .ok _ vm' => .inl vm'
  | .error e _ => .inr e

theorem step_eq {instr : Instruction d} (hi : vm.code[vm.ip]? = some instr) :
    step vm = execute instr { vm with ip := vm.ip + 1 } := by
  rw [step]
  simp only [bind, EStateM.bind, get, getThe, MonadStateOf.get, EStateM.get, hi, set, EStateM.set]

theorem machine_eq_none (hi : vm.code[vm.ip]? = none) : machine vm = .inr (.done vm.result) := by
  rw [machine, step]
  simp only [bind, EStateM.bind, get, getThe, MonadStateOf.get, EStateM.get, hi, throw, throwThe, MonadExceptOf.throw,
    EStateM.throw]

theorem machine_eq_halt (hi : vm.code[vm.ip]? = some .halt) : machine vm = .inr (.done vm.result) := by
  rw [machine, step_eq hi, execute]
  simp only [bind, EStateM.bind, get, getThe, MonadStateOf.get, EStateM.get, throw, throwThe, MonadExceptOf.throw,
    EStateM.throw]
  rfl

/-- The machine when it has returned to a frame. -/
def resumed (f : Frame d) (calls : List (Frame d)) (stack : List (ExtValue d)) (framesCreated : Nat) : Vm d :=
  ⟨stack, calls, f.ip, f.code, f.upvalues, f.stackBase, framesCreated⟩

variable {stack : List (ExtValue d)} {x : ExtValue d}

theorem pop_eq (hstack : vm.stack = stack ++ [x]) : pop vm = .ok x { vm with stack := stack } := by
  rw [pop]
  simp only [bind, EStateM.bind, get, getThe, MonadStateOf.get, EStateM.get, hstack, List.getLast?_concat,
    List.dropLast_concat, set, EStateM.set, pure, EStateM.pure]

theorem machine_eq_return {f : Frame d} {calls : List (Frame d)} (hi : vm.code[vm.ip]? = some .ret)
    (hstack : vm.stack = stack ++ [x]) (hcalls : vm.callStack = calls ++ [f]) :
    machine vm = .inl (resumed f calls (stack.take f.stackBase ++ [x]) vm.framesCreated) := by
  have hpop : pop { vm with ip := vm.ip + 1 } = .ok x { vm with ip := vm.ip + 1, stack := stack } := pop_eq hstack
  rw [machine, step_eq hi, execute, ret]
  simp only [bind, EStateM.bind, hpop, get, getThe, MonadStateOf.get, EStateM.get]
  simp only [hcalls, List.getLast?_concat, List.dropLast_concat, set, EStateM.set]
  rfl

theorem machine_eq_result (hi : vm.code[vm.ip]? = some .ret) (hstack : vm.stack = stack ++ [x])
    (hcalls : vm.callStack = []) : machine vm = .inr (.done x) := by
  have hpop : pop { vm with ip := vm.ip + 1 } = .ok x { vm with ip := vm.ip + 1, stack := stack } := pop_eq hstack
  rw [machine, step_eq hi, execute, ret]
  simp only [bind, EStateM.bind, hpop, get, getThe, MonadStateOf.get, EStateM.get]
  simp only [hcalls, List.getLast?_nil]
  rfl

theorem machine_eq_overflow (hi : vm.code[vm.ip]? = some (.callClosure nArgs))
    (hdepth : maxCallDepth ≤ vm.callStack.length) : machine vm = .inr (.err .stackOverflow) := by
  rw [machine, step_eq hi, execute, callClosure]
  simp only [bind, EStateM.bind, get, getThe, MonadStateOf.get, EStateM.get, if_pos hdepth, throw, throwThe,
    MonadExceptOf.throw, EStateM.throw]

theorem machine_eq_load {idx : Nat} (hi : vm.code[vm.ip]? = some (.load idx)) (hpos : 2 ^ 64 ≤ vm.stackBase + idx) :
    machine vm = .inr .panic := by
  rw [machine, step_eq hi, execute]
  simp only [bind, EStateM.bind, get, getThe, MonadStateOf.get, EStateM.get, checkedAdd_eq_panic hpos]

theorem machine_eq_load_none {idx : Nat} (hi : vm.code[vm.ip]? = some (.load idx)) (hpos : vm.stackBase + idx < 2 ^ 64)
    (hnone : vm.stack[vm.stackBase + idx]? = none) : machine vm = .inr (.err .stackUnderflow) := by
  rw [machine, step_eq hi, execute]
  simp only [bind, EStateM.bind, get, getThe, MonadStateOf.get, EStateM.get, checkedAdd_eq hpos, hnone, throw, throwThe,
    MonadExceptOf.throw, EStateM.throw]

theorem machine_eq_store {idx : Nat} (hi : vm.code[vm.ip]? = some (.store idx)) (hstack : vm.stack = stack ++ [x])
    (hpos : 2 ^ 64 ≤ vm.stackBase + idx) : machine vm = .inr .panic := by
  have hpop : pop { vm with ip := vm.ip + 1 } = .ok x { vm with ip := vm.ip + 1, stack := stack } := pop_eq hstack
  rw [machine, step_eq hi, execute]
  simp only [bind, EStateM.bind, hpop, get, getThe, MonadStateOf.get, EStateM.get, checkedAdd_eq_panic hpos]

end Steps

/-- The machine stops in a frame that has no value of its own: its result is a value of another frame. -/
def Idle (vm : Vm v2) : Prop := vm.own = [] ∧ ∀ instr, vm.code[vm.ip]? = some instr → instr = .halt

/-- Both machines stop in the same way, or both stop where the frame has no value. -/
def SameEnd (vm : Vm v2) (o o' : Stop v2) : Prop :=
  SameStop o o' ∨ Vm.Idle vm ∧ ∃ v v', o = .done v ∧ o' = .done v'

/-- The call stack is full, or the position of a slot, counted from the base, is no machine integer. -/
def Fails (vm : Vm v2) (o : Stop v2) : Prop :=
  o = .err .stackOverflow ∨
    o = .panic ∧ ∃ idx, (vm.code[vm.ip]? = some (.load idx) ∨ vm.code[vm.ip]? = some (.store idx)) ∧
      2 ^ 64 ≤ vm.stackBase + idx

/-- The second machine does what the first one does next. -/
def Matched (vm vm' : Vm v2) : Prop :=
  match machine vm with
  | .inl t => (∃ t', Relation.TransGen machine.Goes vm' t' ∧ Alike t t') ∨
      ∃ n last o', machine.Ends n vm' last o' ∧ Fails last o'
  | .inr o => ∃ n last o', machine.Ends n vm' last o' ∧ (SameEnd vm o o' ∨ Fails last o')

theorem Matched.of_sides (h : SidesAlike step vm step vm') : Matched vm vm' := by
  rw [Matched, machine]
  rcases h.cases with ⟨_, t, _, t', ht, ht', halike⟩ | ⟨o, t, o', t', ho, ho', hsame⟩
  · rw [ht]
    have hgoes : machine.Goes vm' t' := by
      rw [Machine.Goes, machine, ht']
    exact .inl ⟨t', .single hgoes, halike⟩
  · rw [ho]
    have hends : machine vm' = .inr o' := by
      rw [machine, ho']
    exact ⟨0, vm', o', .stop hends, .inl (.inl hsame)⟩

theorem Matched.of_fails {o' : Stop v2} (h : machine vm' = .inr o') (hfails : Fails vm' o') : Matched vm vm' := by
  rw [Matched]
  split
  · exact .inr ⟨0, vm', o', .stop h, hfails⟩
  · exact ⟨0, vm', o', .stop h, .inr hfails⟩

variable {calls calls' : List (Frame v2)}

/-- A return passes through the frames that do nothing but return. -/
theorem unwind {base base' : Nat} (framesCreated : Nat) (h : Calls base calls base' calls')
    {stack stack' : List (ExtValue v2)} (hx : SameValue x x') (hbase : base ≤ stack.length)
    (hbase' : base' ≤ stack'.length) (hi : vm'.code[vm'.ip]? = some .ret)
    (hstack : vm'.stack = stack' ++ [x']) (hcalls : vm'.callStack = calls') :
    (calls = [] ∧ ∃ n last, machine.Ends n vm' last (.done x')) ∨
      ∃ f rest t', calls = rest ++ [f] ∧ Relation.TransGen machine.Goes vm' t' ∧
        Alike (resumed f rest (stack.take f.stackBase ++ [x]) framesCreated) t' := by
  induction h generalizing vm' stack' with
  | nil base base' => exact .inl ⟨rfl, 0, vm', .stop (machine_eq_result hi hstack hcalls)⟩
  | @frame f f' base base' calls calls' hcode hip hup hle hf hf' hrest =>
    refine .inr ⟨f, calls, _, rfl, .single (machine_eq_return hi hstack hcalls), [x], [x'], hcode, hip, hup, hle,
      ⟨_, rfl, ?_⟩, ⟨_, rfl, ?_⟩, .cons hx .nil, hrest⟩
    · rw [List.length_take]
      exact Nat.min_eq_left (Nat.le_trans hf hbase)
    · rw [List.length_take]
      exact Nat.min_eq_left (Nat.le_trans hf' hbase')
  | @ghost g base base' calls calls' hret hg _ ih =>
    have hgoes := machine_eq_return hi hstack hcalls
    have hlen : g.stackBase ≤ (stack'.take g.stackBase).length := by
      rw [List.length_take]
      exact Nat.le_min.2 ⟨Nat.le_refl _, Nat.le_trans hg hbase'⟩
    rcases @ih (resumed g calls' (stack'.take g.stackBase ++ [x']) vm'.framesCreated) _ hbase hlen hret rfl rfl with
      ⟨hnil, n, last, hends⟩ | ⟨f, rest, t', hcalls', hgoes', halike⟩
    · exact .inl ⟨hnil, n + 1, last, .next hgoes hends⟩
    · exact .inr ⟨f, rest, t', hcalls', .head hgoes hgoes', halike⟩

section

variable (h : Sim own own' vm vm')
include h

theorem matched_ret (hi : vm.code[vm.ip]? = some .ret)
    (hi' : vm'.code[vm'.ip]? = some .ret) (hlen : 1 ≤ own.length) : Matched vm vm' := by
  obtain ⟨own₁, x, rfl⟩ := exists_concat hlen
  obtain ⟨own₁', x', rfl, -, hx⟩ := forall₂_concat_left h.values
  obtain ⟨below, hstack, hbelow⟩ := h.stack
  obtain ⟨below', hstack', hbelow'⟩ := h.stack'
  rw [← List.append_assoc] at hstack hstack'
  have hbase : vm.stackBase ≤ (below ++ own₁).length := by
    rw [List.length_append, hbelow]
    exact Nat.le_add_right _ _
  have hbase' : vm'.stackBase ≤ (below' ++ own₁').length := by
    rw [List.length_append, hbelow']
    exact Nat.le_add_right _ _
  have hunwind := unwind vm.framesCreated h.calls hx hbase hbase' hi' hstack' rfl
  rw [Matched]
  rcases hunwind with ⟨hnil, n, last, hends⟩ | ⟨f, rest, t', hcalls, hgoes, halike⟩
  · rw [machine_eq_result hi hstack hnil]
    exact ⟨n, last, _, hends, .inl (.inl (.done hx))⟩
  · rw [machine_eq_return hi hstack hcalls]
    exact .inl ⟨t', hgoes, halike⟩

theorem matched_stop (hidle : ∀ instr, vm.code[vm.ip]? = some instr → instr = .halt)
    (hstop : machine vm = .inr (.done vm.result)) (hstop' : machine vm' = .inr (.done vm'.result)) :
    Matched vm vm' := by
  rw [Matched, hstop]
  refine ⟨0, vm', _, .stop hstop', .inl ?_⟩
  rcases Nat.eq_zero_or_pos own.length with hzero | hpos
  · have hnil : own = [] := List.length_eq_zero_iff.1 hzero
    exact .inr ⟨⟨h.own_eq.trans hnil, hidle⟩, _, _, rfl, rfl⟩
  · obtain ⟨own₁, x, rfl⟩ := exists_concat hpos
    obtain ⟨own₁', x', rfl, -, hx⟩ := forall₂_concat_left h.values
    obtain ⟨below, hstack, -⟩ := h.stack
    obtain ⟨below', hstack', -⟩ := h.stack'
    rw [result, result, hstack, hstack', ← List.append_assoc, ← List.append_assoc, List.getLast?_concat,
      List.getLast?_concat]
    exact .inl (.done hx)

theorem Sim.fetch {instr : Instruction v2} (hi : vm.code[vm.ip]? = some instr)
    (htail : instr.isTail = false) : Sim own own' { vm with ip := vm.ip + 1 } { vm' with ip := vm'.ip + 1 } := by
  refine ⟨h.code, ?_, h.upvalues, h.base, h.stack, h.stack', h.values, h.calls⟩
  show vm'.ip + 1 = place vm.code (vm.ip + 1)
  rw [place_succ hi, htail, h.ip]
  rfl

end

theorem length_calls_le {base base' : Nat} (h : Calls base calls base' calls') : calls.length ≤ calls'.length := by
  induction h with
  | nil => exact Nat.le_refl _
  | frame _ _ _ _ _ _ _ ih =>
    rw [List.length_append, List.length_append]
    exact Nat.add_le_add_right ih _
  | ghost _ _ _ ih =>
    rw [List.length_append]
    exact Nat.le_trans ih (Nat.le_add_right _ _)

theorem Sim.target_eq (h : Sim own own' vm vm')
    (htarget : place vm.code vm.ip + offset'.toInt = target vm.code (vm.ip + offset.toInt)) :
    ((vm'.ip + 1 : Nat) + offset'.toInt - 1 : Int) = target vm.code ((vm.ip + 1 : Nat) + offset.toInt - 1) := by
  have hback : ∀ (n : Nat) (k : Int), ((n + 1 : Nat) + k - 1 : Int) = n + k := by
    intro n k
    push_cast
    omega
  rw [hback, hback, h.ip]
  exact htarget

/-- One step of the first machine. -/
theorem Sim.matched (h : Sim own own' vm vm') (htakes : vm.TakesOwn) : Matched vm vm' := by
  cases hi : vm.code[vm.ip]? with
  | none =>
    have hi' : vm'.code[vm'.ip]? = none := by
      rw [h.ip]
      exact h.code.getElem?_eq_none hi
    exact matched_stop h (fun instr hinstr => nomatch hi.symm.trans hinstr) (machine_eq_none hi) (machine_eq_none hi')
  | some instr =>
    have hat := h.code.untails hi
    have hown := htakes instr hi
    rw [h.own_eq] at hown
    have hbase := h.base
    -- an instruction that stands for itself
    have hplain : ∀ {instr' : Instruction v2}, instr.isTail = false → vm'.code[place vm.code vm.ip]? = some instr' →
        (Sim own own' { vm with ip := vm.ip + 1 } { vm' with ip := vm'.ip + 1 } →
          SidesAlike (execute instr) { vm with ip := vm.ip + 1 } (execute instr') { vm' with ip := vm'.ip + 1 }) →
        Matched vm vm' := by
      intro instr' htail hi' hsides
      rw [← h.ip] at hi'
      apply Matched.of_sides
      rw [SidesAlike, Sides, Agrees, step_eq hi, step_eq hi']
      exact hsides (h.fetch hi htail)
    cases instr with
    | push v => exact hplain rfl hat fun h => alike_push h (.base v)
    | pop =>
      obtain ⟨own₁, x, rfl⟩ := exists_concat hown
      exact hplain rfl hat fun h =>
        Agrees.seq (sim_pop h) fun _ _ _ _ hp => Agrees.pure ⟨_, hp.2.2.2.2⟩
    | add => exact hplain rfl hat fun h => alike_add h hown
    | sub => exact hplain rfl hat fun h => alike_arith _ h hown
    | mul => exact hplain rfl hat fun h => alike_arith _ h hown
    | div => exact hplain rfl hat fun h => alike_div h hown
    | neg => exact hplain rfl hat fun h => alike_neg h hown
    | eq => exact hplain rfl hat fun h => alike_eq h hown
    | lt => exact hplain rfl hat fun h => alike_popInts h hown fun _ _ _ _ _ _ ht => alike_push ht (.base _)
    | jump offset =>
      obtain ⟨offset', hi', htarget⟩ := hat
      exact hplain rfl hi' fun h' => alike_jump h' (h.target_eq htarget)
    | jumpIfFalse offset =>
      obtain ⟨offset', hi', htarget⟩ := hat
      exact hplain rfl hi' fun h' => alike_jumpIfFalse h' hown (h.target_eq htarget)
    | load idx =>
      by_cases hpos : 2 ^ 64 ≤ vm'.stackBase + idx
      · have hi' : vm'.code[vm'.ip]? = some (.load idx) := h.ip ▸ hat
        exact .of_fails (machine_eq_load hi' hpos) (.inr ⟨rfl, idx, .inl hi', hpos⟩)
      · exact hplain rfl hat fun h' => alike_load h' (Nat.lt_of_not_le hpos)
    | store idx =>
      by_cases hpos : 2 ^ 64 ≤ vm'.stackBase + idx
      · have hi' : vm'.code[vm'.ip]? = some (.store idx) := h.ip ▸ hat
        obtain ⟨own₁, x, rfl⟩ := exists_concat hown
        obtain ⟨own₁', x', rfl, -, hx⟩ := forall₂_concat_left h.values
        obtain ⟨below', hstack', -⟩ := h.stack'
        rw [← List.append_assoc] at hstack'
        exact .of_fails (machine_eq_store hi' hstack' hpos) (.inr ⟨rfl, idx, .inr hi', hpos⟩)
      · exact hplain rfl hat fun h' => alike_store h' hown (Nat.lt_of_not_le hpos)
    | ret =>
      exact matched_ret h hi (h.ip ▸ hat) hown
    | halt =>
      refine matched_stop h (fun instr hinstr => ?_) (machine_eq_halt hi) (machine_eq_halt (h.ip ▸ hat))
      exact (Option.some.inj (hi.symm.trans hinstr)).symm
    | closure body nUpvalues =>
      obtain ⟨body', hi', hbody⟩ := hat
      exact hplain rfl hi' fun h' => alike_closure h' hbody hown
    | getUpvalue idx => exact hplain rfl hat fun h' => alike_getUpvalue idx h'
    | setUpvalue idx => exact hplain rfl hat fun h' => alike_setUpvalue idx h' hown
    | callClosure nArgs =>
      by_cases hdepth : maxCallDepth ≤ vm'.callStack.length
      · have hi' : vm'.code[vm'.ip]? = some (.callClosure nArgs) := h.ip ▸ hat
        exact .of_fails (machine_eq_overflow hi' hdepth) (.inl rfl)
      · have hle := length_calls_le h.calls
        exact hplain rfl hat fun h' => alike_callClosure h' (show vm.callStack.length < _ by omega)
          (Nat.lt_of_not_le hdepth) (hown.resolve_left (by omega))
    | tailCall mark nArgs =>
      obtain ⟨hcall, hret⟩ := hat
      rw [← h.ip] at hcall hret
      by_cases hdepth : maxCallDepth ≤ vm'.callStack.length
      · exact .of_fails (machine_eq_overflow hcall hdepth) (.inl rfl)
      · apply Matched.of_sides
        rw [SidesAlike, Sides, Agrees, step_eq hi, step_eq hcall]
        exact alike_tailCall h rfl rfl hret (Nat.lt_of_not_le hdepth) hown

/-- The program without tail calls simulates the program with them. -/
theorem simulates : Simulates machine machine TakesOwn Alike SameEnd Fails where
  goes := by
    rintro s t s' ⟨own, own', h⟩ htakes hs
    have hmatched := h.matched htakes
    rw [Matched, hs] at hmatched
    exact hmatched
  stops := by
    rintro s t o ⟨own, own', h⟩ htakes hs
    have hmatched := h.matched htakes
    rw [Matched, hs] at hmatched
    exact hmatched

theorem alike_new {code code' : List (Instruction v2)} (h : Untailed code code') : Alike (new code) (new code') :=
  ⟨[], [], h, rfl, rfl, Nat.le_refl _, ⟨[], rfl, rfl⟩, ⟨[], rfl, rfl⟩, .nil, .nil 0 0⟩

theorem callStack_takeClosure {d : Dialect} (nArgs : Nat) (vm : Vm d) :
    Leaves (takeClosure nArgs) vm fun _ t => t.callStack = vm.callStack := by
  apply Holds.seq (leaves_checkedAdd nArgs 1 vm)
  rintro width vm' ⟨rfl, rfl⟩
  apply Holds.bind
  apply Holds.get
  dsimp only
  split
  · exact Holds.throw trivial
  · exact Holds.throw trivial
  · apply Holds.bind
    apply Holds.set
    split
    · exact Holds.throw trivial
    · exact Holds.pure rfl

theorem callStack_tailCall {d : Dialect} {vm vm' : Vm d} {mark : d.Tail}
    (hi : vm.code[vm.ip]? = some (.tailCall mark nArgs)) (hgoes : machine.Goes vm vm') :
    vm'.callStack = vm.callStack := by
  have hleaves : Leaves step vm fun _ t => t.callStack = vm.callStack := by
    rw [Leaves, Holds, step_eq hi]
    apply Holds.seq (callStack_takeClosure nArgs _)
    rintro ⟨c, argsStart⟩ t ht
    exact Holds.modify ht
  rw [Machine.Goes, machine] at hgoes
  cases hstep : step vm with
  | ok a t =>
    rw [hstep] at hgoes
    cases hgoes
    exact hleaves.of_ok hstep
  | error e t =>
    rw [hstep] at hgoes
    cases hgoes

end Vm

/-- **Tail calls only save frames.** Where no instruction takes a value from below the base of its frame, the two
programs stop in the same way. But the program without tail calls may fill its call stack, or count a slot from a base
too far up; and a machine that stops where its frame has no value may find another result. -/
theorem tailCalls_save_frames {code code' : List (Instruction v2)} (h : Untailed code code')
    (htakes : ∀ vm, Vm.machine.Reaches (.new code) vm → vm.TakesOwn) :
    (∀ n last o, Vm.machine.Ends n (.new code) last o →
        ∃ k last' o', Vm.machine.Ends k (.new code') last' o' ∧ (Vm.SameEnd last o o' ∨ Vm.Fails last' o')) ∧
      (∀ n last' o', Vm.machine.Ends n (.new code') last' o' →
        Vm.Fails last' o' ∨ ∃ k last o, Vm.machine.Ends k (.new code) last o ∧ Vm.SameEnd last o o') ∧
      ∀ (vm vm' : Vm v2) (nArgs : Nat), vm.code[vm.ip]? = some (.tailCall ⟨⟩ nArgs) → Vm.machine.Goes vm vm' →
        vm'.callStack.length = vm.callStack.length :=
  ⟨fun _ _ _ hends => Vm.simulates.forward (Vm.alike_new h) htakes hends, fun _ _ _ hends => Vm.simulates.backward
    (Vm.alike_new h) htakes hends, fun _ _ _ hi hgoes => congrArg List.length (Vm.callStack_tailCall hi hgoes)⟩

/-! ### A program with a tail call -/

/-- Push 7, then tail-call a closure without arguments. -/
def mainCode (body : List (Instruction v2)) : List (Instruction v2) :=
  [.push (.int 7), .closure body 0, .tailCall ⟨⟩ 0]

/-- The same with a call and a return. -/
def mainCalls (body : List (Instruction v2)) : List (Instruction v2) :=
  [.push (.int 7), .closure body 0, .callClosure 0, .ret]

variable {body : List (Instruction v2)}

theorem untailed_mainCode (h : Untailed body body) : Untailed (mainCode body) (mainCalls body) := by
  refine .intro (fun _ => 0) (fun _ => body) ?_ ?_
  · intro i offset hi
    match i with
    | 0 | 1 | 2 => exact hi.elim (nomatch ·) (nomatch ·)
    | i + 3 => exact hi.elim (nomatch ·) (nomatch ·)
  · intro i code nUpvalues hi
    match i with
    | 0 | 2 => exact nomatch hi
    | 1 =>
      cases hi
      exact h
    | i + 3 => exact nomatch hi

theorem untailed_self {code : List (Instruction v2)}
    (h : ∀ instr ∈ code, ∀ offset body, instr.untailed offset body = [instr]) : Untailed code code := by
  have hflat : ∀ start, ((code.zipIdx start).flatMap fun (instr, _) => instr.untailed 0 []) = code := by
    induction code with
    | nil => exact fun _ => rfl
    | cons instr code ih =>
      intro start
      rw [List.zipIdx_cons, List.flatMap_cons]
      dsimp only
      rw [h instr List.mem_cons_self, ih fun instr hinstr => h instr (List.mem_cons_of_mem _ hinstr)]
      rfl
  have hcode : Untailed code (code.zipIdx.flatMap fun (instr, _) => instr.untailed 0 []) := by
    refine .intro (fun _ => 0) (fun _ => []) (fun i offset hi => ?_) fun i body nUpvalues hi => ?_
    · rcases hi with hi | hi
      · exact nomatch (h _ (List.mem_of_getElem? hi) 0 []).trans (h _ (List.mem_of_getElem? hi) 1 []).symm
      · exact nomatch (h _ (List.mem_of_getElem? hi) 0 []).trans (h _ (List.mem_of_getElem? hi) 1 []).symm
    · exact nomatch (h _ (List.mem_of_getElem? hi) 0 []).trans (h _ (List.mem_of_getElem? hi) 0 [.pop]).symm
  rw [hflat 0] at hcode
  exact hcode

theorem takesOwn_mainCode (hbody : ∀ vm, Vm.machine.Reaches ⟨[], [], 0, body, [], 0, 0⟩ vm → vm.TakesOwn)
    (vm : Vm v2) (h : Vm.machine.Reaches (.new (mainCode body)) vm) : vm.TakesOwn := by
  have hnext : ∀ {s t u : Vm v2}, Vm.machine.Reaches s t → Vm.machine s = .inl u → t = s ∨ Vm.machine.Reaches u t := by
    intro s t u hst hs
    rcases hst.cases_head with rfl | ⟨w, hw, hrest⟩
    · exact .inl rfl
    · cases Sum.inl.inj (hw.symm.trans hs)
      exact .inr hrest
  rcases hnext h rfl with rfl | h
  · intro instr hi
    cases hi
    exact Nat.zero_le _
  rcases hnext h rfl with rfl | h
  · intro instr hi
    cases hi
    exact .inr (.inl (Nat.zero_le _))
  rcases hnext h rfl with rfl | h
  · intro instr hi
    cases hi
    exact .inr (Nat.le_succ 1)
  exact hbody vm h

theorem takesOwn_single {instr : Instruction v2} {o : Stop v2}
    (hstop : Vm.machine ⟨[], [], 0, [instr], [], 0, 0⟩ = .inr o) (htakes : instr.Takes [] 0) (vm : Vm v2)
    (h : Vm.machine.Reaches (.new (mainCode [instr])) vm) : vm.TakesOwn := by
  refine takesOwn_mainCode (fun vm hvm => ?_) vm h
  rcases hvm.cases_head with rfl | ⟨t, ht, -⟩
  · intro instr' hi
    cases hi
    exact htakes
  · exact nomatch ht.symm.trans hstop

/-- A closure that stops the machine at once. -/
theorem tailCalls_save_frames_halt :
    (∀ n last o, Vm.machine.Ends n (.new (mainCode [.halt])) last o →
        ∃ k last' o', Vm.machine.Ends k (.new (mainCalls [.halt])) last' o' ∧
          (Vm.SameEnd last o o' ∨ Vm.Fails last' o')) ∧
      (∀ n last' o', Vm.machine.Ends n (.new (mainCalls [.halt])) last' o' →
        Vm.Fails last' o' ∨ ∃ k last o, Vm.machine.Ends k (.new (mainCode [.halt])) last o ∧ Vm.SameEnd last o o') ∧
      ∀ (vm vm' : Vm v2) (nArgs : Nat), vm.code[vm.ip]? = some (.tailCall ⟨⟩ nArgs) → Vm.machine.Goes vm vm' →
        vm'.callStack.length = vm.callStack.length :=
  tailCalls_save_frames (untailed_mainCode (untailed_self (by simp [Instruction.untailed])))
    (takesOwn_single rfl (Nat.zero_le _))

/-- The last slot that a machine integer counts. -/
def lastSlot : Nat := 2 ^ 64 - 1

/-- **A dropped value is found by one program only, and a slot is out of range for one program only.** -/
theorem halt_finds_dropped :
    (Untailed (mainCode [.halt]) (mainCalls [.halt]) ∧
      (∀ vm, Vm.machine.Reaches (.new (mainCode [.halt])) vm → vm.TakesOwn) ∧
      (∃ n last, Vm.machine.Ends n (.new (mainCode [.halt])) last (.done (.base .nil))) ∧
      ∃ n last, Vm.machine.Ends n (.new (mainCalls [.halt])) last (.done (.base (.int 7)))) ∧
    Untailed (mainCode [.load lastSlot]) (mainCalls [.load lastSlot]) ∧
      (∀ vm, Vm.machine.Reaches (.new (mainCode [.load lastSlot])) vm → vm.TakesOwn) ∧
      (∃ n last, Vm.machine.Ends n (.new (mainCode [.load lastSlot])) last (.err .stackUnderflow)) ∧
      ∃ n last, Vm.machine.Ends n (.new (mainCalls [.load lastSlot])) last .panic := by
  have hsame : ∀ instr ∈ [Instruction.load lastSlot], ∀ offset body, instr.untailed offset body = [instr] := by
    simp [Instruction.untailed]
  have hempty : Vm.machine (⟨[], [], 0, [.load lastSlot], [], 0, 0⟩ : Vm v2) = .inr (.err .stackUnderflow) :=
    Vm.machine_eq_load_none rfl (show 0 + (2 ^ 64 - 1) < 2 ^ 64 by omega) rfl
  have hbelow : Vm.machine (⟨[.base (.int 7)], [⟨mainCalls [.load lastSlot], 3, 0, []⟩], 0, [.load lastSlot], [], 1, 1⟩ :
      Vm v2) = .inr .panic := Vm.machine_eq_load rfl (show 2 ^ 64 ≤ 1 + (2 ^ 64 - 1) by omega)
  refine ⟨⟨untailed_mainCode (untailed_self (by simp [Instruction.untailed])), takesOwn_single rfl (Nat.zero_le _),
    ⟨3, _, .next rfl (.next rfl (.next rfl (.stop rfl)))⟩, ⟨3, _, .next rfl (.next rfl (.next rfl (.stop rfl)))⟩⟩,
    untailed_mainCode (untailed_self hsame), takesOwn_single hempty (Nat.zero_le _),
    ⟨3, _, .next rfl (.next rfl (.next rfl (.stop hempty)))⟩,
    ⟨3, _, .next rfl (.next rfl (.next rfl (.stop hbelow)))⟩⟩

end SystemDesignLabs.BytecodeVm
