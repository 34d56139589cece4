import Mathlib

/-!
# Fallible programs with state

A program in `EStateM ε σ` returns a value or an error, and in both cases a state: what was done before
an error stays done. `Holds m s post onError` says what is true of the outcome of `m` from the state
`s`. The rules below follow the structure of a program, so that the specification of a sequence is put
together from those of its parts. `Agrees` compares the outcomes of two programs, by rules of the same kind.
-/

namespace SystemDesignLabs.Core


universe u

variable {ε σ α β : Type u}

/-- The outcome of `m` from `s`: `post` of the value and the state, or `onError` of the state. -/
def Holds (m : EStateM ε σ α) (s : σ) (post : α → σ → Prop) (onError : σ → Prop) : Prop :=
  match m s with
  | .ok a s' => post a s'
  | .error _ s' => onError s'

/-- Run a program on a part of the state. -/
def onPart {σ τ ε α : Type u} (read : σ → τ) (write : σ → τ → σ) (m : EStateM ε τ α) :
    EStateM ε σ α := fun s =>
  match m (read s) with
  | .ok a t => .ok a (write s t)
  | .error e t => .error e (write s t)

namespace Holds

variable {m : EStateM ε σ α} {f : α → EStateM ε σ β} {s : σ}
  {post : α → σ → Prop} {post' : β → σ → Prop} {onError : σ → Prop}

theorem pure {a : α} (h : post a s) : Holds (Pure.pure a : EStateM ε σ α) s post onError := h

theorem throw {e : ε} (h : onError s) : Holds (throw e : EStateM ε σ α) s post onError := h

theorem modify {g : σ → σ} {post : PUnit → σ → Prop} (h : post ⟨⟩ (g s)) :
    Holds (modify g : EStateM ε σ PUnit) s post onError := h

theorem get {post : σ → σ → Prop} (h : post s s) : Holds (get : EStateM ε σ σ) s post onError := h

theorem bind (h : Holds m s (fun a s' => Holds (f a) s' post' onError) onError) : Holds (m >>= f) s post' onError := by
  show match EStateM.bind m f s with
    | .ok a s' => post' a s'
    | .error _ s' => onError s'
  simp only [Holds] at h
  rw [EStateM.bind]
  cases hm : m s with
  | ok a s' =>
    rw [hm] at h
    exact h
  | error e s' =>
    rw [hm] at h
    exact h

theorem mono {post₁ : α → σ → Prop} {onError₁ : σ → Prop} (h : Holds m s post₁ onError₁)
    (hpost : ∀ a s', post₁ a s' → post a s') (herr : ∀ s', onError₁ s' → onError s') : Holds m s post onError := by
  simp only [Holds] at h ⊢
  cases hm : m s with
  | ok a s' =>
    rw [hm] at h
    exact hpost a s' h
  | error e s' =>
    rw [hm] at h
    exact herr s' h

theorem set {t : σ} {post : PUnit → σ → Prop} (h : post ⟨⟩ t) : Holds (set t : EStateM ε σ PUnit) s post onError := h

theorem seq (h : Holds m s post onError)
    (hf : ∀ a s', post a s' → Holds (f a) s' post' onError) : Holds (m >>= f) s post' onError :=
  (h.mono hf fun _ he => he).bind

theorem of_ok (h : Holds m s post onError) {a : α} {s' : σ}
    (hok : m s = .ok a s') : post a s' := by
  rw [Holds, hok] at h
  exact h

theorem onPart {τ : Type u} {read : σ → τ} {write : σ → τ → σ} {n : EStateM ε τ α}
    (h : Holds n (read s) (fun a t => post a (write s t)) (fun t => onError (write s t))) :
    Holds (Core.onPart read write n) s post onError := by
  simp only [Holds] at h
  rw [Holds, Core.onPart]
  cases hn : n (read s) with
  | ok a t =>
    rw [hn] at h
    exact h
  | error e t =>
    rw [hn] at h
    exact h

end Holds

/-! ### Two programs side by side -/

/-- Both programs return, with values and states in a relation, or both fail with errors in one. -/
def Agrees {ε' σ' α' : Type u} (m : EStateM ε σ α) (s : σ) (m' : EStateM ε' σ' α') (s' : σ')
    (post : α → σ → α' → σ' → Prop) (onError : ε → ε' → Prop) : Prop :=
  match m s, m' s' with
  | .ok a t, .ok a' t' => post a t a' t'
  | .error e _, .error e' _ => onError e e'
  | _, _ => False

namespace Agrees

variable {ε' σ' α' β' : Type u} {m : EStateM ε σ α} {s : σ} {m' : EStateM ε' σ' α'} {s' : σ'}
  {post : α → σ → α' → σ' → Prop} {onError : ε → ε' → Prop}

theorem pure {a : α} {a' : α'} (h : post a s a' s') :
    Agrees (Pure.pure a : EStateM ε σ α) s (Pure.pure a' : EStateM ε' σ' α') s' post onError := h

theorem throw {e : ε} {e' : ε'} (h : onError e e') :
    Agrees (throw e : EStateM ε σ α) s (throw e' : EStateM ε' σ' α') s' post onError := h

theorem set {t : σ} {t' : σ'} {post : PUnit → σ → PUnit → σ' → Prop} (h : post ⟨⟩ t ⟨⟩ t') :
    Agrees (set t : EStateM ε σ PUnit) s (set t' : EStateM ε' σ' PUnit) s' post onError := h

theorem modify {g : σ → σ} {g' : σ' → σ'} {post : PUnit → σ → PUnit → σ' → Prop} (h : post ⟨⟩ (g s) ⟨⟩ (g' s')) :
    Agrees (modify g : EStateM ε σ PUnit) s (modify g' : EStateM ε' σ' PUnit) s' post onError := h

variable {post' : β → σ → β' → σ' → Prop}

theorem seq {f : α → EStateM ε σ β} {f' : α' → EStateM ε' σ' β'} (h : Agrees m s m' s' post onError)
    (hf : ∀ a t a' t', post a t a' t' → Agrees (f a) t (f' a') t' post' onError) :
    Agrees (m >>= f) s (m' >>= f') s' post' onError := by
  simp only [Agrees] at h
  show match EStateM.bind m f s, EStateM.bind m' f' s' with
    | .ok b t, .ok b' t' => post' b t b' t'
    | .error e _, .error e' _ => onError e e'
    | _, _ => False
  rw [EStateM.bind, EStateM.bind]
  cases hm : m s with
  | ok a t =>
    cases hm' : m' s' with
    | ok a' t' =>
      rw [hm, hm'] at h
      exact hf a t a' t' h
    | error e' t' =>
      rw [hm, hm'] at h
      exact h.elim
  | error e t =>
    cases hm' : m' s' with
    | ok a' t' =>
      rw [hm, hm'] at h
      exact h.elim
    | error e' t' =>
      rw [hm, hm'] at h
      exact h

theorem get {f : σ → EStateM ε σ β} {f' : σ' → EStateM ε' σ' β'} (h : Agrees (f s) s (f' s') s' post' onError) :
    Agrees (MonadState.get >>= f) s (MonadState.get >>= f') s' post' onError := h

theorem setSeq {f : PUnit → EStateM ε σ β} {f' : PUnit → EStateM ε' σ' β'} {t : σ} {t' : σ'}
    (h : Agrees (f ⟨⟩) t (f' ⟨⟩) t' post' onError) :
    Agrees (MonadStateOf.set t >>= f) s (MonadStateOf.set t' >>= f') s' post' onError := h

theorem mono {post₁ : α → σ → α' → σ' → Prop} (h : Agrees m s m' s' post₁ onError)
    (hpost : ∀ a t a' t', post₁ a t a' t' → post a t a' t') : Agrees m s m' s' post onError := by
  simp only [Agrees] at h ⊢
  cases hm : m s with
  | ok a t =>
    cases hm' : m' s' with
    | ok a' t' =>
      rw [hm, hm'] at h
      exact hpost a t a' t' h
    | error e' t' =>
      rw [hm, hm'] at h
      exact h.elim
  | error e t =>
    cases hm' : m' s' with
    | ok a' t' =>
      rw [hm, hm'] at h
      exact h.elim
    | error e' t' =>
      rw [hm, hm'] at h
      exact h

theorem cases (h : Agrees m s m' s' post onError) : (∃ a t a' t', m s = .ok a t ∧ m' s' = .ok a' t' ∧ post a t a' t') ∨
      ∃ e t e' t', m s = .error e t ∧ m' s' = .error e' t' ∧ onError e e' := by
  simp only [Agrees] at h
  cases hm : m s with
  | ok a t =>
    cases hm' : m' s' with
    | ok a' t' =>
      rw [hm, hm'] at h
      exact .inl ⟨a, t, a', t', rfl, rfl, h⟩
    | error e' t' =>
      rw [hm, hm'] at h
      exact h.elim
  | error e t =>
    cases hm' : m' s' with
    | ok a' t' =>
      rw [hm, hm'] at h
      exact h.elim
    | error e' t' =>
      rw [hm, hm'] at h
      exact .inr ⟨e, t, e', t', rfl, rfl, h⟩

end Agrees

/-! ### Lists of fallible calls -/

variable {f : α → Except ε β}

theorem ok_bind {a : α} : ((.ok a : Except ε α) >>= f) = f a := rfl

theorem bind_eq_ok {x : Except ε α} {b : β} : x >>= f = .ok b ↔ ∃ a, x = .ok a ∧ f a = .ok b := by
  cases x with
  | error e =>
    constructor
    · intro h
      cases h
    · rintro ⟨a, ha, -⟩
      cases ha
  | ok a =>
    constructor
    · exact fun h => ⟨a, rfl, h⟩
    · rintro ⟨a', ha, h⟩
      cases ha
      exact h

theorem exists_of_mem_mapM {l : List α} {l' : List β} (h : l.mapM f = .ok l') {b : β} (hb : b ∈ l') :
    ∃ a ∈ l, f a = .ok b := by
  induction l generalizing l' with
  | nil =>
    cases h
    exact absurd hb (by simp)
  | cons a l ih =>
    rw [List.mapM_cons] at h
    obtain ⟨b', hb', h⟩ := bind_eq_ok.1 h
    obtain ⟨bs, hbs, h⟩ := bind_eq_ok.1 h
    cases h
    rcases List.mem_cons.1 hb with rfl | hb
    · exact ⟨a, List.mem_cons_self, hb'⟩
    · obtain ⟨a', ha', hfa⟩ := ih hbs hb
      exact ⟨a', List.mem_cons_of_mem _ ha', hfa⟩

theorem foldlM_invariant {f : β → α → Except ε β} {P : β → Prop} {l : List α}
    (hstep : ∀ b a b', P b → a ∈ l → f b a = .ok b' → P b') {b b' : β} (hb : P b)
    (h : l.foldlM f b = .ok b') : P b' := by
  induction l generalizing b with
  | nil =>
    cases h
    exact hb
  | cons a l ih =>
    rw [List.foldlM_cons] at h
    obtain ⟨b₁, hb₁, h⟩ := bind_eq_ok.1 h
    exact ih (fun c d c' hc hd => hstep c d c' hc (List.mem_cons_of_mem _ hd))
      (hstep b a b₁ hb List.mem_cons_self hb₁) h

end SystemDesignLabs.Core
