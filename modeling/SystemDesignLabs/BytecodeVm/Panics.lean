import SystemDesignLabs.BytecodeVm.TailCalls

/-!
# Where the machine panics

`Overruns` lists the instructions that panic: an integer result out of range, a slot or a capacity that is too large,
and a call that finds no callee, since `saturating_sub` takes the bottom of a stack that is too short for one. A run
panics exactly if it comes to one of these (`never_panics_iff`).
-/

namespace SystemDesignLabs.BytecodeVm

open Core

namespace Vm

/-- The machine panics in this part of a run. -/
def Panics {α : Type} (m : Run v2 α) (vm : Vm v2) : Prop :=
  ∃ vm', m vm = .error .panic vm'

/-- One step of a run that goes on. -/
def Next (vm vm' : Vm v2) : Prop :=
  step vm = .ok ⟨⟩ vm'

/-- No step of a run of the program panics. -/
def NeverPanics (code : List (Instruction v2)) : Prop :=
  ∀ vm, Relation.ReflTransGen Next (new code) vm → ¬ Panics step vm

/-- The number is no `i64`. -/
def OutOfRange (n : Int) : Prop :=
  ¬ (Int64.minValue.toInt ≤ n ∧ n ≤ Int64.maxValue.toInt)

/-- The topmost values are these two integers. -/
def Ints (vm : Vm v2) (a b : Int64) : Prop :=
  ∃ below, vm.stack = below ++ [.base (.int a)] ++ [.base (.int b)]

/-- The place of the callee is off the stack, or there are fewer arguments than asked above a closure at the bottom. -/
def NoCallee (vm : Vm v2) (nArgs : Nat) : Prop :=
  2 ^ 64 ≤ nArgs + 1 ∨ vm.stack = [] ∨ (vm.stack.length ≤ nArgs ∧ ∃ c, vm.stack[0]? = some (.closure c))

/-- The instruction panics on this machine. -/
def OverrunsAt (vm : Vm v2) : Instruction v2 → Prop
  | .add => ∃ a b, vm.Ints a b ∧ OutOfRange (a.toInt + b.toInt)
  | .sub => ∃ a b, vm.Ints a b ∧ OutOfRange (a.toInt - b.toInt)
  | .mul => ∃ a b, vm.Ints a b ∧ OutOfRange (a.toInt * b.toInt)
  | .div => ∃ a b, vm.Ints a b ∧ b ≠ 0 ∧ OutOfRange (a.toInt.tdiv b.toInt)
  | .neg => ∃ below a, vm.stack = below ++ [.base (.int a)] ∧ OutOfRange (-a.toInt)
  | .load idx => 2 ^ 64 ≤ vm.stackBase + idx
  | .store idx => vm.stack ≠ [] ∧ 2 ^ 64 ≤ vm.stackBase + idx
  | .closure _ nUpvalues => maxCapacity < nUpvalues
  | .callClosure nArgs => vm.callStack.length < maxCallDepth ∧ vm.NoCallee nArgs
  | .tailCall _ nArgs => vm.NoCallee nArgs
  | _ => False

/-- The next instruction panics. -/
def Overruns (vm : Vm v2) : Prop :=
  ∃ instr, vm.code[vm.ip]? = some instr ∧ vm.OverrunsAt instr

/-! ### The parts of the instructions -/

variable {α β : Type} {vm : Vm v2}

section Bind

variable {m : Run v2 α} {f : α → Run v2 β} {vm' : Vm v2}

theorem panics_bind_ok {a : α} (h : m vm = .ok a vm') : Panics (m >>= f) vm ↔ Panics (f a) vm' := by
  show (∃ t, EStateM.bind m f vm = .error .panic t) ↔ _
  rw [EStateM.bind, h]
  rfl

theorem panics_bind (h : m vm = .error .panic vm') : Panics (m >>= f) vm :=
  ⟨vm', by show EStateM.bind m f vm = _; rw [EStateM.bind, h]⟩

theorem not_panics_bind {e : VmError} (h : m vm = .error (.err e) vm') : ¬ Panics (m >>= f) vm := by
  rintro ⟨t, ht⟩
  change EStateM.bind m f vm = _ at ht
  rw [EStateM.bind, h] at ht
  cases ht

theorem not_panics_ok {a : α} (h : m vm = .ok a vm') : ¬ Panics m vm := by
  rintro ⟨t, ht⟩
  rw [h] at ht
  cases ht

theorem not_panics_err {e : VmError} (h : m vm = .error (.err e) vm') : ¬ Panics m vm := by
  rintro ⟨t, ht⟩
  rw [h] at ht
  cases ht

end Bind

theorem panics_get {f : Vm v2 → Run v2 β} : Panics (get >>= f) vm ↔ Panics (f vm) vm := Iff.rfl

theorem panics_pop {f : ExtValue v2 → Run v2 β} :
    Panics (pop >>= f) vm ↔ ∃ below v, vm.stack = below ++ [v] ∧ Panics (f v) { vm with stack := below } := by
  obtain ⟨stack, callStack, ip, code, upvalues, stackBase, frames⟩ := vm
  rcases List.eq_nil_or_concat stack with rfl | ⟨below, v, rfl⟩
  · refine iff_of_false (not_panics_bind (e := .stackUnderflow) rfl) ?_
    rintro ⟨below, v, h, -⟩
    exact absurd h (by simp)
  · rw [List.concat_eq_append]
    have hpop : pop ⟨below ++ [v], callStack, ip, code, upvalues, stackBase, frames⟩ =
        .ok v (⟨below, callStack, ip, code, upvalues, stackBase, frames⟩ : Vm v2) := by
      rw [pop]
      simp only [bind, EStateM.bind, get, getThe, MonadStateOf.get, EStateM.get, List.getLast?_concat,
        List.dropLast_concat, set, EStateM.set, pure, EStateM.pure]
    rw [panics_bind_ok hpop]
    refine ⟨fun h => ⟨below, v, rfl, h⟩, ?_⟩
    rintro ⟨_, _, h, hpanics⟩
    obtain ⟨rfl, hv⟩ := List.append_inj' h rfl
    cases hv
    exact hpanics

theorem panics_popBase {f : Value → Run v2 β} : Panics (popBase >>= f) vm ↔
    ∃ below v, vm.stack = below ++ [.base v] ∧ Panics (f v) { vm with stack := below } := by
  rw [popBase, bind_assoc, panics_pop]
  constructor
  · rintro ⟨below, _ | _, hstack, h⟩
    · exact ⟨below, _, hstack, h⟩
    · exact absurd h nofun
  · rintro ⟨below, v, hstack, h⟩
    exact ⟨below, .base v, hstack, h⟩

theorem panics_popInt {f : Int64 → Run v2 β} : Panics (popInt >>= f) vm ↔
    ∃ below n, vm.stack = below ++ [.base (.int n)] ∧ Panics (f n) { vm with stack := below } := by
  rw [popInt, bind_assoc, panics_popBase]
  constructor
  · rintro ⟨below, _ | _, hstack, h⟩
    · exact ⟨below, _, hstack, h⟩
    all_goals exact absurd h nofun
  · rintro ⟨below, n, hstack, h⟩
    exact ⟨below, .int n, hstack, h⟩

theorem panics_ints {f : Int64 → Int64 → Run v2 β} {P : Int64 → Int64 → Prop}
    (hf : ∀ a b vm, Panics (f b a) vm ↔ P a b) :
    Panics (do let b ← popInt; let a ← popInt; f b a) vm ↔ ∃ a b, vm.Ints a b ∧ P a b := by
  rw [panics_popInt]
  constructor
  · rintro ⟨below, b, hstack, h⟩
    obtain ⟨below', a, hbelow, h⟩ := panics_popInt.1 h
    exact ⟨a, b, ⟨below', hbelow ▸ hstack⟩, (hf _ _ _).1 h⟩
  · rintro ⟨a, b, ⟨below, hstack⟩, h⟩
    exact ⟨_, b, hstack, panics_popInt.2 ⟨below, a, rfl, (hf _ _ _).2 h⟩⟩

theorem panics_checked (n : Int) (vm : Vm v2) :
    Panics (do let n ← checked n; push (.base (.int n))) vm ↔ OutOfRange n := by
  rw [checked, OutOfRange]
  split
  · next h => exact iff_of_false (by rintro ⟨_, ⟨⟩⟩) (not_not_intro h)
  · next h => exact iff_of_true (panics_bind rfl) h

theorem panics_checkedAdd {a b : Nat} {f : Nat → Run v2 β} (hf : ¬ Panics (f (a + b)) vm) :
    Panics (checkedAdd a b >>= f) vm ↔ 2 ^ 64 ≤ a + b := by
  by_cases h : a + b < 2 ^ 64
  · exact iff_of_false (hf ∘ (panics_bind_ok (checkedAdd_eq h)).1) (Nat.not_le.2 h)
  · exact iff_of_true (panics_bind (checkedAdd_eq_panic (Nat.not_lt.1 h))) (Nat.not_lt.1 h)

theorem not_panics_jump (offset : Int32) : ¬ Panics (jump offset) vm := by
  rintro ⟨vm', h⟩
  change (ite _ _ _ : Run v2 PUnit) vm = _ at h
  split at h <;> cases h

theorem not_panics_popUpvalues (n : Nat) {f : List Value → Run v2 β} (hf : ∀ l vm, ¬ Panics (f l) vm) :
    ¬ Panics (popUpvalues n >>= f) vm := by
  induction n generalizing vm f with
  | zero => exact hf [] vm
  | succ n ih =>
    rw [popUpvalues, bind_assoc, panics_pop]
    rintro ⟨below, v | c, hstack, h⟩
    · exact ih (fun l => hf (v :: l)) (bind_assoc (popUpvalues n) _ _ ▸ h)
    · exact absurd h nofun

/-- The bottom of a stack that is too short for the call. -/
theorem takeClosure_short {nArgs : Nat} {v : ExtValue v2} {rest : List (ExtValue v2)} (hfits : nArgs + 1 < 2 ^ 64)
    (hstack : vm.stack = v :: rest) (hlt : rest.length < nArgs) : takeClosure nArgs vm = match v with
      | .base _ => .error (.err .notAFunction) vm | .closure _ => .error .panic { vm with stack := rest } := by
  have hpos : (v :: rest).length - (nArgs + 1) = 0 := by
    rw [List.length_cons]
    omega
  rw [takeClosure]
  cases v <;> simp only [bind, EStateM.bind, checkedAdd_eq hfits, get, getThe, MonadStateOf.get, EStateM.get, hstack, hpos,
    List.getElem?_cons_zero, List.eraseIdx_cons_zero, set, EStateM.set, if_pos hlt, throw, throwThe,
    MonadExceptOf.throw, EStateM.throw]

theorem panics_takeClosure {nArgs : Nat} {f : Closure v2 × Nat → Run v2 β} (hf : ∀ p vm, ¬ Panics (f p) vm) :
    Panics (takeClosure nArgs >>= f) vm ↔ vm.NoCallee nArgs := by
  by_cases hfits : nArgs + 1 < 2 ^ 64
  swap
  · exact iff_of_true (panics_bind (takeClosure_eq_panic (Nat.not_lt.1 hfits))) (.inl (Nat.not_lt.1 hfits))
  by_cases hlen : nArgs + 1 ≤ vm.stack.length
  · obtain ⟨front, v, args, hstack, hargs⟩ := exists_split hlen
    have hcallee : ¬ vm.NoCallee nArgs := by
      rintro (h | h | ⟨h, -⟩)
      · omega
      · rw [h] at hlen
        exact Nat.not_succ_le_zero _ hlen
      · omega
    refine iff_of_false ?_ hcallee
    cases v with
    | base v => exact not_panics_bind (takeClosure_eq_error hfits hstack hargs)
    | closure c => exact hf _ _ ∘ (panics_bind_ok (takeClosure_eq hfits hstack hargs)).1
  · rcases hstack : vm.stack with _ | ⟨v, rest⟩
    · have hrun : takeClosure nArgs vm = .error .panic vm := by
        rw [takeClosure]
        simp only [bind, EStateM.bind, checkedAdd_eq hfits, get, getThe, MonadStateOf.get, EStateM.get, hstack,
          List.getElem?_nil]
        rfl
      exact iff_of_true (panics_bind hrun) (.inr (.inl hstack))
    · have hlt : rest.length < nArgs := by
        rw [hstack, List.length_cons] at hlen
        omega
      have hrun := takeClosure_short hfits hstack hlt
      cases v with
      | base v =>
        refine iff_of_false (not_panics_bind hrun) ?_
        rintro (h | h | ⟨-, c, h⟩)
        · omega
        · cases hstack.symm.trans h
        · rw [hstack] at h
          cases h
      | closure c => exact iff_of_true (panics_bind hrun) (.inr (.inr ⟨by omega, c, by rw [hstack]; rfl⟩))

/-! ### The instructions -/

theorem panics_execute (instr : Instruction v2) : Panics (execute instr) vm ↔ vm.OverrunsAt instr := by
  cases instr with
  | push v => exact iff_of_false (by rintro ⟨_, ⟨⟩⟩) (by rintro ⟨⟩)
  | pop => exact panics_pop.trans (iff_of_false (by rintro ⟨_, _, _, h⟩; exact not_panics_ok rfl h) (by rintro ⟨⟩))
  | add =>
    constructor
    · intro h
      obtain ⟨below, b, hb, h⟩ := panics_popBase.1 h
      obtain ⟨below', a, ha, h⟩ := panics_popBase.1 h
      rcases a with a | _ | a | _
      · cases b with
        | int b => exact ⟨_, _, ⟨below', ha ▸ hb⟩, (panics_checked _ _).1 h⟩
        | _ => rcases h with ⟨_, ⟨⟩⟩
      · rcases h with ⟨_, ⟨⟩⟩
      · cases b <;> rcases h with ⟨_, ⟨⟩⟩
      · rcases h with ⟨_, ⟨⟩⟩
    · rintro ⟨a, b, ⟨below, hstack⟩, h⟩
      exact panics_popBase.2 ⟨_, _, hstack, panics_popBase.2 ⟨_, _, rfl, (panics_checked _ _).2 h⟩⟩
  | sub => exact panics_ints fun _ _ => panics_checked _
  | mul => exact panics_ints fun _ _ => panics_checked _
  | div =>
    refine panics_ints fun a b vm => ?_
    split
    · next h => exact iff_of_false (by rintro ⟨_, ⟨⟩⟩) fun hb => hb.1 h
    · next h => exact (panics_checked _ vm).trans (and_iff_right h).symm
  | neg => exact panics_popInt.trans (exists_congr fun _ => exists_congr fun _ => and_congr_right fun _ => panics_checked _ _)
  | eq =>
    refine iff_of_false (fun h => ?_) (by rintro ⟨⟩)
    obtain ⟨_, _, _, h⟩ := panics_pop.1 h
    obtain ⟨_, _, _, h⟩ := panics_pop.1 h
    exact not_panics_ok rfl h
  | lt =>
    refine iff_of_false (fun h => ?_) (by rintro ⟨⟩)
    obtain ⟨_, _, _, h⟩ := panics_popInt.1 h
    obtain ⟨_, _, _, h⟩ := panics_popInt.1 h
    exact not_panics_ok rfl h
  | jump offset => exact iff_of_false (not_panics_jump offset) (by rintro ⟨⟩)
  | jumpIfFalse offset =>
    refine iff_of_false (fun h => ?_) (by rintro ⟨⟩)
    rw [execute, popBool, bind_assoc, panics_popBase] at h
    obtain ⟨_, v, _, h⟩ := h
    cases v with
    | bool cond =>
      cases cond
      · exact not_panics_jump offset h
      · exact not_panics_ok rfl h
    | _ => exact not_panics_err rfl h
  | load idx =>
    rw [execute, panics_get]
    apply panics_checkedAdd
    cases vm.stack[vm.stackBase + idx]? with
    | none => exact not_panics_err rfl
    | some v => exact not_panics_ok rfl
  | store idx =>
    have hchecked (val : ExtValue v2) (below : List (ExtValue v2)) : Panics (do
        let pos ← checkedAdd vm.stackBase idx
        if below.length ≤ pos then throw (.err .stackUnderflow)
        else set { vm with stack := below.set pos val }) { vm with stack := below } ↔ 2 ^ 64 ≤ vm.stackBase + idx := by
      apply panics_checkedAdd
      split
      · exact not_panics_err rfl
      · exact not_panics_ok rfl
    refine panics_pop.trans ⟨?_, ?_⟩
    · rintro ⟨below, val, hstack, h⟩
      exact ⟨by rw [hstack]; simp, (hchecked val below).1 h⟩
    · rintro ⟨hne, h⟩
      obtain ⟨below, val, hstack⟩ := exists_concat (List.length_pos_iff.2 hne)
      exact ⟨below, val, hstack, (hchecked val below).2 h⟩
  | ret =>
    refine iff_of_false (fun h => ?_) (by rintro ⟨⟩)
    obtain ⟨_, _, _, h⟩ := panics_pop.1 h
    rw [panics_get] at h
    split at h
    · exact not_panics_ok rfl h
    · obtain ⟨u, hu⟩ := h
      change EStateM.Result.error (Stop.done _) _ = _ at hu
      cases hu
  | halt => exact iff_of_false (by rintro ⟨_, ⟨⟩⟩) (by rintro ⟨⟩)
  | closure body nUpvalues =>
    rw [execute]
    split
    · next h => exact iff_of_true ⟨vm, rfl⟩ h
    · next h => exact iff_of_false (not_panics_popUpvalues nUpvalues fun _ _ => not_panics_ok rfl) h
  | getUpvalue idx =>
    refine iff_of_false (fun h => ?_) (by rintro ⟨⟩)
    rw [execute, panics_get] at h
    split at h
    · exact not_panics_err rfl h
    · exact not_panics_ok rfl h
  | setUpvalue idx =>
    refine iff_of_false (fun h => ?_) (by rintro ⟨⟩)
    obtain ⟨_, _, _, h⟩ := panics_popBase.1 h
    change Panics (ite _ _ _) _ at h
    split at h
    · exact not_panics_err rfl h
    · exact not_panics_ok rfl h
  | callClosure nArgs =>
    show Panics (callClosure nArgs) vm ↔ _ ∧ _
    by_cases hdepth : vm.callStack.length < maxCallDepth
    · rw [Panics, callClosure_eq hdepth, and_iff_right hdepth]
      exact panics_takeClosure fun _ _ => not_panics_ok rfl
    · refine iff_of_false (fun h => ?_) fun h => hdepth h.1
      change Panics (ite _ _ _) _ at h
      rw [if_pos (Nat.not_lt.1 hdepth)] at h
      exact not_panics_err rfl h
  | tailCall _ nArgs => exact panics_takeClosure fun _ _ => not_panics_ok rfl

theorem panics_step_iff : Panics step vm ↔ vm.Overruns := by
  rw [step, panics_get, Overruns]
  cases vm.code[vm.ip]? with
  | none => exact iff_of_false (by rintro ⟨_, ⟨⟩⟩) (by rintro ⟨_, ⟨⟩, _⟩)
  | some instr =>
    refine (@panics_execute { vm with ip := vm.ip + 1 } instr).trans ⟨fun h => ⟨instr, rfl, ?_⟩, ?_⟩
    · cases instr <;> exact h
    · rintro ⟨_, ⟨⟩, h⟩
      cases instr <;> exact h

/-- No step of a run panics exactly if the run comes to no instruction that overruns. -/
theorem never_panics_iff (code : List (Instruction v2)) : NeverPanics code ↔
    ∀ vm, Relation.ReflTransGen Next (new code) vm → ¬ vm.Overruns :=
  forall_congr' fun _ => forall_congr' fun _ => not_congr panics_step_iff

/-- A call on the empty stack looks for its callee at place 0. -/
theorem call_of_nothing_panics : ¬ NeverPanics [.callClosure 0] :=
  fun h => h _ .refl ⟨_, rfl⟩

end Vm

end SystemDesignLabs.BytecodeVm
