import SystemDesignLabs.BytecodeVm.Machine

/-!
# Calls and the caller's frame

What a call leaves of the caller's frame. Between a call and the matching return the machine keeps the
values below the closure and the saved frames (`Guarded`), as long as no instruction pops below them. But
the return cuts the stack to the base that was saved, which is the caller's own one and not the callee's:
the caller's locals and temporaries are lost, and its frame is restored exactly when it had none
(`frame_preserved_iff`).
-/

namespace SystemDesignLabs.BytecodeVm

open List Core Holds

variable {d : Dialect}

/-- How many values the instruction takes off the stack. -/
def Instruction.pops : Instruction d → Nat
  | .push _ | .jump _ | .load _ | .halt | .getUpvalue _ => 0
  | .pop | .neg | .jumpIfFalse _ | .store _ | .ret | .setUpvalue _ => 1
  | .add | .sub | .mul | .div | .eq | .lt => 2
  | .closure _ nUpvalues => nUpvalues
  | .callClosure nArgs => nArgs + 1
  | .tailCall _ nArgs => nArgs + 1

namespace Vm

/-- How many values the next instruction takes off the stack. -/
def pops (vm : Vm d) : Nat :=
  match vm.code[vm.ip]? with
  | none => 0
  | some instr => instr.pops

/-- The machine goes on, does not pop below the base, and keeps the first saved frames. -/
def Goes (base depth : Nat) (vm vm' : Vm d) : Prop :=
  step vm = .ok ⟨⟩ vm' ∧ base + vm.pops ≤ vm.stack.length ∧ depth ≤ vm'.callStack.length

/-- The values `below` and the frames `saved` are untouched, at least `k` values are above, and no base
is below them. -/
structure Guarded (below : List (ExtValue d)) (saved : List (Frame d)) (k : Nat) (vm : Vm d) : Prop where
  stack : ∃ above, vm.stack = below ++ above ∧ k ≤ above.length
  base : below.length ≤ vm.stackBase
  frames : ∃ inner, vm.callStack = saved ++ inner ∧ ∀ f ∈ inner, below.length ≤ f.stackBase

/-- After a step: still guarded, or the last of the saved frames was popped. -/
def Kept (below : List (ExtValue d)) (saved : List (Frame d)) (vm : Vm d) : Prop :=
  Guarded below saved 0 vm ∨ vm.callStack.length < saved.length

variable {below : List (ExtValue d)} {saved : List (Frame d)} {k : Nat} {vm : Vm d}

theorem Guarded.mono {k' : Nat} (h : Guarded below saved k vm) (hle : k' ≤ k) : Guarded below saved k' vm := by
  obtain ⟨above, hstack, hk⟩ := h.stack
  exact ⟨⟨above, hstack, Nat.le_trans hle hk⟩, h.base, h.frames⟩

theorem Guarded.above {k' : Nat} (h : Guarded below saved k vm) {above : List (ExtValue d)}
    (hk : k' ≤ above.length) : Guarded below saved k' { vm with stack := below ++ above } :=
  ⟨⟨above, rfl, hk⟩, h.base, h.frames⟩

/-! ### The parts of the instructions -/

/-- What a part of an instruction leaves, if it does not stop. -/
abbrev Leaves {α : Type} (m : Run d α) (vm : Vm d) (post : α → Vm d → Prop) : Prop :=
  Holds m vm post fun _ => True

theorem guarded_push (h : Guarded below saved k vm) (v : ExtValue d) :
    Leaves (push v) vm fun _ => Guarded below saved (k + 1) := by
  obtain ⟨above, hstack, hk⟩ := h.stack
  apply Holds.modify
  rw [hstack, append_assoc]
  exact h.above (by rw [length_append]; exact Nat.succ_le_succ hk)

section

variable (h : Guarded below saved (k + 1) vm)
include h

theorem guarded_pop : Leaves pop vm fun _ => Guarded below saved k := by
  obtain ⟨above, hstack, hk⟩ := h.stack
  apply Holds.bind
  apply Holds.get
  split
  · exact Holds.throw trivial
  · apply Holds.bind
    apply Holds.set
    apply Holds.pure
    have hne : above ≠ [] := by
      rintro rfl
      exact absurd hk (by simp)
    rw [hstack, dropLast_append_of_ne_nil hne]
    apply h.above
    rw [length_dropLast]
    omega

theorem guarded_popBase : Leaves popBase vm fun _ => Guarded below saved k := by
  apply seq (guarded_pop h)
  intro v vm' h'
  cases v with
  | base v => exact pure h'
  | closure c => exact throw trivial

theorem guarded_popInt : Leaves popInt vm fun _ => Guarded below saved k := by
  apply seq (guarded_popBase h)
  intro v vm' h'
  split
  · exact pure h'
  · exact throw trivial

theorem guarded_popBool : Leaves popBool vm fun _ => Guarded below saved k := by
  apply seq (guarded_popBase h)
  intro v vm' h'
  split
  · exact pure h'
  · exact throw trivial

end

theorem leaves_checked (n : Int) (vm : Vm d) : Leaves (checked n) vm fun _ vm' => vm' = vm := by
  rw [checked]
  split
  · exact pure rfl
  · exact throw trivial

theorem leaves_checkedAdd (a b : Nat) (vm : Vm d) : Leaves (checkedAdd a b) vm fun n vm' => n = a + b ∧ vm' = vm := by
  rw [checkedAdd]
  split
  · exact pure ⟨rfl, rfl⟩
  · exact throw trivial

theorem guarded_jump (h : Guarded below saved k vm) (offset : Int32) :
    Leaves (jump offset) vm fun _ => Guarded below saved k := by
  apply Holds.bind
  apply Holds.get
  dsimp only
  split
  · exact Holds.throw trivial
  · exact Holds.set ⟨h.stack, h.base, h.frames⟩

theorem guarded_popUpvalues (n : Nat) (h : Guarded below saved (k + n) vm) :
    Leaves (popUpvalues n) vm fun _ => Guarded below saved k := by
  induction n generalizing vm with
  | zero => exact pure h
  | succ n ih =>
    apply seq (guarded_pop (k := k + n) h)
    intro v vm' h'
    cases v with
    | closure c => exact throw trivial
    | base v =>
      apply seq (ih h')
      intro rest vm'' h''
      exact pure h''

variable {nArgs : Nat}

theorem guarded_takeClosure (h : Guarded below saved (k + nArgs + 1) vm) :
    Leaves (takeClosure nArgs) vm fun out vm' => Guarded below saved (k + nArgs) vm' ∧
      below.length ≤ out.2 ∧ vm'.code = vm.code ∧ vm'.ip = vm.ip := by
  obtain ⟨above, hstack, hk⟩ := h.stack
  apply Holds.seq (leaves_checkedAdd nArgs 1 vm)
  rintro width vm' ⟨rfl, rfl⟩
  apply Holds.bind
  apply Holds.get
  dsimp only
  split
  · exact Holds.throw trivial
  · exact Holds.throw trivial
  · apply Holds.bind
    apply Holds.set
    split
    · exact Holds.throw trivial
    · apply Holds.pure
      have hpos : vm'.stack.length - (nArgs + 1) = below.length + (above.length - (nArgs + 1)) := by
        rw [hstack, length_append]
        omega
      have herase : (below ++ above).eraseIdx (below.length + (above.length - (nArgs + 1))) =
          below ++ above.eraseIdx (above.length - (nArgs + 1)) := by
        rw [eraseIdx_append_of_length_le (Nat.le_add_right _ _), Nat.add_sub_cancel_left]
      have hlength : (above.eraseIdx (above.length - (nArgs + 1))).length = above.length - 1 := by
        rw [length_eraseIdx, if_pos (by omega)]
      rw [hpos, hstack, herase]
      refine ⟨h.above (by omega), ?_, rfl, rfl⟩
      dsimp only
      rw [length_append, hlength]
      omega

theorem guarded_callClosure (h : Guarded below saved (nArgs + 1) vm) :
    Leaves (callClosure nArgs) vm fun _ => Guarded below saved 0 := by
  apply Holds.bind
  apply Holds.get
  split
  · exact Holds.throw trivial
  · apply Holds.bind
    apply Holds.modify
    have hcount : Guarded below saved (0 + nArgs + 1)
        { vm with framesCreated := vm.framesCreated + 1 } :=
      ⟨(h.mono (by omega)).stack, h.base, h.frames⟩
    apply Holds.seq (guarded_takeClosure hcount)
    rintro ⟨c, newStackBase⟩ vm' ⟨h', hbase, -⟩
    apply Holds.modify
    refine ⟨(h'.mono (Nat.zero_le _)).stack, hbase, ?_⟩
    obtain ⟨inner, hinner, hbases⟩ := h'.frames
    refine ⟨inner ++ [⟨vm'.code, vm'.ip, vm'.stackBase, vm'.upvalues⟩], ?_, ?_⟩
    · dsimp only
      rw [hinner, append_assoc]
    · intro f hf
      obtain hf | hf := mem_append.1 hf
      · exact hbases f hf
      · rw [mem_singleton.1 hf]
        exact h'.base

theorem guarded_tailCall (h : Guarded below saved (nArgs + 1) vm) :
    Leaves (tailCall nArgs) vm fun _ => Guarded below saved 0 := by
  apply seq (guarded_takeClosure (h.mono (show 0 + nArgs + 1 ≤ nArgs + 1 by omega)))
  rintro ⟨c, argsStart⟩ vm' ⟨h', -⟩
  apply Holds.modify
  obtain ⟨above, hstack, -⟩ := h'.stack
  refine ⟨⟨above.take (vm'.stackBase - below.length) ++ vm'.stack.drop argsStart, ?_, Nat.zero_le _⟩,
    h'.base, h'.frames⟩
  dsimp only
  rw [hstack, take_append, take_of_length_le h'.base, append_assoc]

theorem kept_ret (h : Guarded below saved 1 vm) (hsaved : saved ≠ []) : Leaves ret vm fun _ => Kept below saved := by
  apply Holds.seq (guarded_pop h)
  intro retVal vm' h'
  apply Holds.bind
  apply Holds.get
  obtain ⟨above, hstack, -⟩ := h'.stack
  obtain ⟨inner, hinner, hbases⟩ := h'.frames
  rw [hinner]
  rcases eq_nil_or_concat inner with rfl | ⟨inner, f, rfl⟩
  · -- The frame that the call saved.
    rw [append_nil]
    split
    · apply Holds.set
      right
      dsimp only
      rw [length_dropLast]
      exact Nat.pred_lt (fun hzero => hsaved (length_eq_zero_iff.1 hzero))
    · apply Holds.bind
      apply Holds.modify
      exact Holds.throw trivial
  · rw [concat_eq_append, ← append_assoc, getLast?_concat, dropLast_concat]
    have hf : below.length ≤ f.stackBase := hbases f (by simp)
    apply Holds.set
    left
    refine ⟨⟨above.take (f.stackBase - below.length) ++ [retVal], ?_, Nat.zero_le _⟩, hf, inner, rfl, ?_⟩
    · dsimp only
      rw [hstack, take_append, take_of_length_le hf, append_assoc]
    · intro f' hf'
      exact hbases f' (by simp [hf'])

theorem guarded_arith (f : Int → Int → Int) (h : Guarded below saved 2 vm) :
    Leaves (arith f) vm fun _ => Guarded below saved 0 := by
  apply seq (guarded_popInt h)
  intro b vm₁ h₁
  apply seq (guarded_popInt h₁)
  intro a vm₂ h₂
  apply seq (leaves_checked _ vm₂)
  rintro n vm₃ rfl
  exact (guarded_push h₂ _).mono (fun _ _ h => h.mono (Nat.zero_le _)) fun _ _ => trivial

theorem guarded_push_zero (h : Guarded below saved k vm) (v : ExtValue d) :
    Leaves (push v) vm fun _ => Guarded below saved 0 :=
  (guarded_push h v).mono (fun _ _ h => h.mono (Nat.zero_le _)) fun _ _ => trivial

/-- An instruction that takes enough values from above keeps what is guarded. -/
theorem guarded_execute {instr : Instruction d} (hret : instr ≠ .ret) (h : Guarded below saved instr.pops vm) :
    Leaves (execute instr) vm fun _ => Guarded below saved 0 := by
  cases instr with
  | push v => exact guarded_push_zero h _
  | pop =>
    apply Holds.seq (guarded_pop h)
    intro v vm' h'
    exact Holds.pure h'
  | add =>
    apply Holds.seq (guarded_popBase h)
    intro b vm₁ h₁
    apply Holds.seq (guarded_popBase h₁)
    intro a vm₂ h₂
    split
    · apply Holds.seq (leaves_checked _ vm₂)
      rintro n vm₃ rfl
      exact guarded_push_zero h₂ _
    · exact guarded_push_zero h₂ _
    · exact Holds.throw trivial
  | sub => exact guarded_arith _ h
  | mul => exact guarded_arith _ h
  | div =>
    apply Holds.seq (guarded_popInt h)
    intro b vm₁ h₁
    apply Holds.seq (guarded_popInt h₁)
    intro a vm₂ h₂
    split
    · exact Holds.throw trivial
    · apply Holds.seq (leaves_checked _ vm₂)
      rintro n vm₃ rfl
      exact guarded_push_zero h₂ _
  | neg =>
    apply Holds.seq (guarded_popInt h)
    intro a vm₁ h₁
    apply Holds.seq (leaves_checked _ vm₁)
    rintro n vm₂ rfl
    exact guarded_push_zero h₁ _
  | eq =>
    apply Holds.seq (guarded_pop h)
    intro b vm₁ h₁
    apply Holds.seq (guarded_pop h₁)
    intro a vm₂ h₂
    exact guarded_push_zero h₂ _
  | lt =>
    apply Holds.seq (guarded_popInt h)
    intro b vm₁ h₁
    apply Holds.seq (guarded_popInt h₁)
    intro a vm₂ h₂
    exact guarded_push_zero h₂ _
  | jump offset => exact guarded_jump h offset
  | jumpIfFalse offset =>
    apply Holds.seq (guarded_popBool h)
    intro cond vm₁ h₁
    split
    · exact Holds.pure h₁
    · exact guarded_jump h₁ offset
  | load idx =>
    apply Holds.bind
    apply Holds.get
    apply Holds.seq (leaves_checkedAdd _ _ vm)
    rintro pos vm' ⟨rfl, rfl⟩
    split
    · exact Holds.throw trivial
    · exact guarded_push_zero h _
  | store idx =>
    apply Holds.seq (guarded_pop h)
    intro val vm₁ h₁
    apply Holds.bind
    apply Holds.get
    apply Holds.seq (leaves_checkedAdd _ _ vm₁)
    rintro pos vm' ⟨rfl, rfl⟩
    split
    · exact Holds.throw trivial
    · -- The slot is not below the base of the frame.
      apply Holds.set
      obtain ⟨above, hstack, -⟩ := h₁.stack
      have hle : below.length ≤ vm'.stackBase + idx := Nat.le_trans h₁.base (Nat.le_add_right _ _)
      rw [hstack, set_append_right _ _ hle]
      exact h₁.above (Nat.zero_le _)
  | ret => exact absurd rfl hret
  | halt => exact Holds.bind (Holds.get (Holds.throw trivial))
  | closure code nUpvalues =>
    rw [execute]
    split
    · exact Holds.throw trivial
    · apply Holds.seq (guarded_popUpvalues nUpvalues (h.mono (Nat.le_of_eq (Nat.zero_add nUpvalues))))
      intro upvalues vm₁ h₁
      exact guarded_push_zero h₁ _
  | getUpvalue idx =>
    apply Holds.bind
    apply Holds.get
    split
    · exact Holds.throw trivial
    · exact guarded_push_zero h _
  | setUpvalue idx =>
    apply Holds.seq (guarded_popBase h)
    intro v vm₁ h₁
    apply Holds.bind
    apply Holds.get
    split
    · exact Holds.throw trivial
    · exact Holds.set ⟨h₁.stack, h₁.base, h₁.frames⟩
  | callClosure nArgs => exact guarded_callClosure h
  | tailCall mark nArgs => exact guarded_tailCall h

/-- One step of the machine. -/
theorem kept_step (hsaved : saved ≠ []) (h : Guarded below saved 0 vm)
    (hpops : below.length + vm.pops ≤ vm.stack.length) : Leaves step vm fun _ => Kept below saved := by
  apply Holds.bind
  apply Holds.get
  cases hinstr : vm.code[vm.ip]? with
  | none => exact Holds.throw trivial
  | some instr =>
    apply Holds.bind
    apply Holds.set
    rw [pops, hinstr] at hpops
    have hready : Guarded below saved instr.pops { vm with ip := vm.ip + 1 } := by
      obtain ⟨above, hstack, -⟩ := h.stack
      rw [hstack, length_append] at hpops
      exact ⟨⟨above, hstack, Nat.le_of_add_le_add_left hpops⟩, h.base, h.frames⟩
    cases instr with
    | ret => exact kept_ret hready hsaved
    | _ =>
      exact (guarded_execute (by simp) hready).mono (fun _ _ h' => .inl h') fun _ _ => trivial

theorem guarded_goes {vm' : Vm d} (hsaved : saved ≠ []) (h : Guarded below saved 0 vm)
    (hgoes : Goes below.length saved.length vm vm') : Guarded below saved 0 vm' := by
  obtain ⟨hstep, hpops, hdepth⟩ := hgoes
  exact ((kept_step hsaved h hpops).of_ok hstep).resolve_right (Nat.not_lt.2 hdepth)

/-- The run between a call and its return keeps what is guarded. -/
theorem guarded_run {vm' : Vm d} (hsaved : saved ≠ []) (h : Guarded below saved 0 vm)
    (hrun : Relation.ReflTransGen (Goes below.length saved.length) vm vm') : Guarded below saved 0 vm' := by
  induction hrun with
  | refl => exact h
  | tail _ hgoes ih => exact guarded_goes hsaved ih hgoes

end Vm

/-! ## A call and its return -/

/-- A call with its matching return: the machine before the call, after it, before the return, and after
it. In between, the saved frame stays on the call stack, and no instruction pops below the base that the
callee got. -/
structure Call (d : Dialect) where
  before : Vm d
  below : List (ExtValue d)
  closure : Closure d
  args : List (ExtValue d)
  entered : Vm d
  returning : Vm d
  after : Vm d
  stack : before.stack = below ++ [.closure closure] ++ args
  calls : before.code[before.ip]? = some (.callClosure args.length)
  enters : Vm.step before = .ok ⟨⟩ entered
  runs : Relation.ReflTransGen (Vm.Goes below.length entered.callStack.length) entered returning
  returns : returning.code[returning.ip]? = some .ret
  depth : returning.callStack.length = entered.callStack.length
  owns : below.length + 1 ≤ returning.stack.length
  resumes : Vm.step returning = .ok ⟨⟩ after

namespace Call

/-- The machine resumes with the caller's frame, and the returned value in place of the closure and the
arguments. -/
def Preserved (c : Call d) : Prop :=
  ∃ r, c.returning.stack.getLast? = some r ∧ c.after.stack = c.below ++ [r] ∧
    c.after.stackBase = c.before.stackBase ∧ c.after.code = c.before.code ∧
    c.after.ip = c.before.ip + 1 ∧ c.after.upvalues = c.before.upvalues

/-- The caller has neither locals nor temporaries, or it is itself below its base and the callee leaves
nothing but the returned value. -/
def Bare (c : Call d) : Prop :=
  c.below.length = c.before.stackBase ∨
    c.below.length < c.before.stackBase ∧ c.returning.stack.length = c.below.length + 1

/-- What the call saves. -/
def frame (c : Call d) : Frame d :=
  ⟨c.before.code, c.before.ip + 1, c.before.stackBase, c.before.upvalues⟩

/-- The callee starts with its arguments above the guarded values. -/
theorem guarded_entered (c : Call d) : c.entered.callStack = c.before.callStack ++ [c.frame] ∧
    Vm.Guarded c.below c.entered.callStack 0 c.entered := by
  have hlen : c.before.stack.length = c.below.length + 1 + c.args.length := by
    rw [c.stack, length_append, length_append]
    rfl
  have hfn : c.before.stack[c.below.length]? = some (.closure c.closure) := by
    rw [c.stack, append_assoc, getElem?_append_right (Nat.le_refl _), Nat.sub_self]
    rfl
  have herase : c.before.stack.eraseIdx c.below.length = c.below ++ c.args := by
    rw [c.stack, append_assoc, eraseIdx_append_of_length_le (Nat.le_refl _), Nat.sub_self]
    rfl
  have hleaves : Vm.Leaves Vm.step c.before fun _ vm =>
      vm.callStack = c.before.callStack ++ [c.frame] ∧ vm.stack = c.below ++ c.args ∧
        vm.stackBase = c.below.length := by
    apply Holds.bind
    apply Holds.get
    rw [c.calls]
    apply Holds.bind
    apply Holds.set
    apply Holds.bind
    apply Holds.get
    split
    · exact Holds.throw trivial
    · apply Holds.bind
      apply Holds.modify
      apply Holds.bind
      apply Holds.seq (Vm.leaves_checkedAdd _ _ _)
      rintro width vm ⟨rfl, rfl⟩
      apply Holds.bind
      apply Holds.get
      have hpos : c.before.stack.length - (c.args.length + 1) = c.below.length := by omega
      dsimp only
      rw [hpos, hfn]
      apply Holds.bind
      apply Holds.set
      split
      · exact Holds.throw trivial
      · apply Holds.pure
        apply Holds.modify
        refine ⟨rfl, herase, ?_⟩
        dsimp only
        rw [herase, length_append, Nat.add_sub_cancel]
  obtain ⟨hcalls, hstack, hbase⟩ := hleaves.of_ok c.enters
  refine ⟨hcalls, ⟨c.args, hstack, Nat.zero_le _⟩, Nat.le_of_eq hbase.symm, [], (append_nil _).symm, ?_⟩
  exact fun f hf => absurd hf not_mem_nil

theorem take_append_eq_left {α : Type} {l l' : List α} {n : Nat} :
    (l ++ l').take n = l ↔ l.length = n ∨ l.length < n ∧ l' = [] := by
  constructor
  · intro h
    rcases Nat.lt_trichotomy l.length n with hlt | heq | hgt
    · refine .inr ⟨hlt, ?_⟩
      rw [take_append, take_of_length_le (Nat.le_of_lt hlt)] at h
      have hnil : l'.take (n - l.length) = [] := append_right_eq_self.1 h
      rcases take_eq_nil_iff.1 hnil with hzero | hnil
      · omega
      · exact hnil
    · exact .inl heq
    · have hlen := congrArg length h
      rw [length_take, length_append] at hlen
      omega
  · rintro (rfl | ⟨hlt, rfl⟩)
    · rw [take_left']
      rfl
    · rw [append_nil, take_of_length_le (Nat.le_of_lt hlt)]

/-- A call preserves the caller's frame exactly when there is none above its base. -/
theorem preserved_iff_bare (c : Call d) : c.Preserved ↔ c.Bare := by
  obtain ⟨hcalls, hentered⟩ := c.guarded_entered
  have hsaved : c.entered.callStack ≠ [] := by
    rw [hcalls]
    simp
  obtain ⟨⟨above, hstack, -⟩, -, inner, hinner, -⟩ := Vm.guarded_run hsaved hentered c.runs
  -- The saved frame is on top again.
  have hnil : inner = [] := by
    have hdepth := c.depth
    rw [hinner, length_append] at hdepth
    exact length_eq_zero_iff.1 (by omega)
  rw [hnil, append_nil, hcalls] at hinner
  have hne : above ≠ [] := by
    rintro rfl
    have howns := c.owns
    rw [hstack, append_nil] at howns
    omega
  obtain ⟨rest, r, rfl⟩ := (eq_nil_or_concat above).resolve_left hne
  rw [concat_eq_append] at hstack
  have hlast : c.returning.stack.getLast? = some r := by
    rw [hstack, ← append_assoc, getLast?_concat]
  have hafter : c.after.stack = (c.below ++ rest).take c.before.stackBase ++ [r] ∧
      c.after.stackBase = c.before.stackBase ∧ c.after.code = c.before.code ∧
      c.after.ip = c.before.ip + 1 ∧ c.after.upvalues = c.before.upvalues := by
    have hleaves : Vm.Leaves Vm.step c.returning fun _ vm =>
        vm.stack = (c.below ++ rest).take c.before.stackBase ++ [r] ∧
          vm.stackBase = c.before.stackBase ∧ vm.code = c.before.code ∧
          vm.ip = c.before.ip + 1 ∧ vm.upvalues = c.before.upvalues := by
      apply Holds.bind
      apply Holds.get
      rw [c.returns]
      apply Holds.bind
      apply Holds.set
      apply Holds.bind
      apply Holds.bind
      apply Holds.get
      dsimp only
      rw [hlast]
      apply Holds.bind
      apply Holds.set
      apply Holds.pure
      apply Holds.bind
      apply Holds.get
      dsimp only
      rw [hinner, getLast?_concat, hstack, ← append_assoc, dropLast_concat]
      apply Holds.set
      exact ⟨rfl, rfl, rfl, rfl, rfl⟩
    exact hleaves.of_ok c.resumes
  have hbare : c.Bare ↔ (c.below ++ rest).take c.before.stackBase = c.below := by
    rw [Bare, take_append_eq_left, hstack, length_append, length_append, length_singleton, ← length_eq_zero_iff]
    omega
  rw [hbare, Preserved]
  constructor
  · rintro ⟨r', hr', hstack', -⟩
    cases hlast.symm.trans hr'
    exact append_cancel_right (hafter.1.symm.trans hstack')
  · intro htake
    exact ⟨r, hlast, by rw [hafter.1, htake], hafter.2⟩

end Call

/-- **When a call preserves the caller's frame**, on both machines. -/
theorem frame_preserved_iff (c₁ : Call v1) (c₂ : Call v2) :
    (c₁.Preserved ↔ c₁.Bare) ∧ (c₂.Preserved ↔ c₂.Bare) :=
  ⟨c₁.preserved_iff_bare, c₂.preserved_iff_bare⟩

/-! ## A temporary that is lost -/

/-- A function that returns 5. -/
def five (d : Dialect) : Closure d := ⟨[.push (.int 5), .ret], []⟩

/-- Push 1, then call the function. -/
def sumCode (d : Dialect) : List (Instruction d) :=
  [.push (.int 1), .closure (five d).code 0, .callClosure 0, .add, .halt]

/-- The call of `sumCode`, with 1 on the stack. -/
def sumCall (d : Dialect) : Call d where
  before := ⟨[.base (.int 1), .closure (five d)], [], 2, sumCode d, [], 0, 0⟩
  below := [.base (.int 1)]
  closure := five d
  args := []
  entered := ⟨[.base (.int 1)], [⟨sumCode d, 3, 0, []⟩], 0, (five d).code, [], 1, 1⟩
  returning := ⟨[.base (.int 1), .base (.int 5)], [⟨sumCode d, 3, 0, []⟩], 1, (five d).code, [], 1, 1⟩
  after := ⟨[.base (.int 5)], [], 3, sumCode d, [], 0, 1⟩
  stack := rfl
  calls := rfl
  enters := rfl
  runs := .single ⟨rfl, Nat.le_refl _, Nat.le_refl _⟩
  returns := rfl
  depth := rfl
  owns := Nat.le_refl _
  resumes := rfl

/-- **The caller's temporary is gone after the call**, on both machines, in a program that starts on an
empty stack. -/
theorem temporary_lost :
    (∃ (c : Call v1) (vm : Vm v1), Vm.step (.new (sumCode v1)) = .ok ⟨⟩ vm ∧
      Vm.step vm = .ok ⟨⟩ c.before ∧ c.below = [.base (.int 1)] ∧
      c.after.stack = [.base (.int 5)] ∧ ¬ c.Preserved) ∧
    ∃ (c : Call v2) (vm : Vm v2), Vm.step (.new (sumCode v2)) = .ok ⟨⟩ vm ∧
      Vm.step vm = .ok ⟨⟩ c.before ∧ c.below = [.base (.int 1)] ∧
      c.after.stack = [.base (.int 5)] ∧ ¬ c.Preserved := by
  have hlost : ∀ d, ¬ (sumCall d).Preserved := by
    rintro d ⟨r, -, hstack, -⟩
    have hlen : 1 = 2 := congrArg length hstack
    exact absurd hlen (by decide)
  exact ⟨⟨sumCall v1, _, rfl, rfl, rfl, rfl, hlost v1⟩, sumCall v2, _, rfl, rfl, rfl, rfl, hlost v2⟩

end SystemDesignLabs.BytecodeVm
