import SystemDesignLabs.Core.Cells
import SystemDesignLabs.Pubsub.Push

/-!
# Every message is delivered or dead-lettered

Both loops of a push subscription receive from its channel. What `deliveryLoop` receives is counted as delivered
without a POST. In runs in which `pushLoop` receives every message, each one ends with a POST that was answered 200 or
as a dead letter, and the counters count just that (`Inv`).
-/

namespace SystemDesignLabs.Pubsub

open Core Subscription

/-! ### Statements -/

/-- The message that a loop is at work on. -/
def Loop.number : Loop → Option Nat
  | .idle => none
  | .trying number _ _ => some number
  | .waiting number _ _ => some number
  | .succeeded number => some number
  | .exhausted number _ => some number
  | .publishing number => some number

/-- A step of a loop. -/
def Op.ofLoops : Op → Bool
  | .options => false
  | .publish _ => false
  | _ => true

/-- Only `pushLoop` receives from the channel. -/
def TakenByPush (_ : Subscription) : Op → Prop
  | .receive .delivery => False
  | _ => True

instance (s : Subscription) (op : Op) : Decidable (TakenByPush s op) := by
  cases op
  case receive w =>
    cases w
    · exact isFalse id
    · exact isTrue trivial
  all_goals exact isTrue trivial

/-- The number of steps that a loop may still make with its message. -/
def Loop.work : Loop → Nat
  | .idle => 0
  | .trying _ _ attempt => 2 * (maxRetries - attempt) + 3
  | .waiting _ _ attempt => 2 * (maxRetries - attempt) + 4
  | .succeeded _ => 1
  | .exhausted _ _ => 2
  | .publishing _ => 1

/-- A success that is not counted yet. -/
def Loop.uncounted : Loop → Nat
  | .succeeded _ => 1
  | _ => 0

/-- A dead letter that is counted and not published yet. -/
def Loop.unpublished : Loop → Nat
  | .exhausted _ _ => 1
  | _ => 0

namespace Subscription

variable (c : Setup) (s : Subscription)

/-- A count of what `pushLoop` has begun. -/
def pushCount (f : Loop → Nat) : Nat :=
  (s.push.map f).getD 0

/-- How the POSTs of a message were answered, in order. -/
def postsOf (number : Nat) : List Bool :=
  (s.posts.filter fun p => p.number = number).map Post.ok

def deadLettersOf (number : Nat) : List DeadLetter :=
  s.deadLetters.filter fun d => d.number = number

/-- The messages in the order of their first POSTs. -/
def firstPosts : List Nat :=
  (s.posts.filter fun p => p.attempt = 0).map Post.number

/-- The last POST of a message was answered 200, and no other. -/
structure PushedOnce (number : Nat) : Prop where
  posts : ∃ failures ≤ maxRetries, s.postsOf number = List.replicate failures false ++ [true]
  deadLetters : s.deadLettersOf number = []

/-- No POST of a message was answered 200, and it was published to the dead-letter topic. -/
structure DeadLettered (number : Nat) : Prop where
  posts : s.postsOf number = List.replicate (maxRetries + 1) false
  deadLetters : ∃ m, s.accepted[number]? = some m
    ∧ s.deadLettersOf number = [⟨number, c.topic ++ "-dlq", m.body, m.attributes⟩]

/-- A message is in the channel or in the hands of `pushLoop`. -/
def Pending (number : Nat) : Prop :=
  number ∈ s.ch.map Prod.fst ∨ s.push.bind Loop.number = some number

/-- How many steps the loops may still make. -/
def work : Nat :=
  10 * s.ch.length + s.delivery.work + s.pushCount Loop.work

/-- Every accepted message ends, and in one way only: it was delivered by a POST, or it was dead-lettered after
four. The counters count just that, the first POSTs come in the order in which the channel accepted the messages,
and the loops come to rest when all messages have ended. -/
structure Right : Prop where
  ended : ∀ number < s.accepted.length, s.Pending number ∨ s.PushedOnce number ∨ s.DeadLettered c number
  payloads : ∀ p ∈ s.posts, ∃ m, s.accepted[p.number]? = some m ∧ p.payload = m.payload ∧ p.url = c.webhookURL
  delivered : s.stats.delivered + s.pushCount Loop.uncounted = (s.posts.filter Post.ok).length
  dlq : s.stats.dlq = s.deadLetters.length + s.pushCount Loop.unpublished
  order : s.firstPosts.Pairwise (· < ·)
  goesOn : s.push.isSome → (∃ number, s.Pending number) →
    ∃ op s', op.ofLoops = true ∧ TakenByPush s op ∧ s.step c op = some s'
  rests : ∀ ops s', (∀ op ∈ ops, op.ofLoops = true) → exec (step c) s ops = some s' → ops.length ≤ s.work

end Subscription

/-! ### The loops come to rest -/

namespace Subscription

variable {c : Setup} {s s' : Subscription}

theorem work_goTo (s : Subscription) (w : Worker) {l l' : Loop} (hl : s.loop w = some l) (hwork : l'.work < l.work) :
    (s.goTo w l').work < s.work := by
  cases w with
  | delivery =>
    cases hl
    show 10 * s.ch.length + l'.work + s.pushCount Loop.work < 10 * s.ch.length + s.delivery.work + s.pushCount Loop.work
    omega
  | push =>
    have hpush : s.push = some l := hl
    have hcount : s.pushCount Loop.work = l.work := by rw [pushCount, hpush]; rfl
    show 10 * s.ch.length + s.delivery.work + l'.work < 10 * s.ch.length + s.delivery.work + s.pushCount Loop.work
    omega

theorem work_attempted (s : Subscription) (w : Worker) {number attempt : Nat} {m : Message} (ok : Bool)
    (hl : s.loop w = some (.trying number m attempt)) : (s.attempted w number m attempt ok).work < s.work := by
  rw [attempted]
  split
  · refine work_goTo s w hl ?_
    show 1 < 2 * (maxRetries - attempt) + 3
    omega
  · split
    · refine work_goTo { s with stats := _ } w (l := .trying number m attempt) (by cases w <;> exact hl) ?_
      show 2 * (maxRetries - (attempt + 1)) + 4 < 2 * (maxRetries - attempt) + 3
      omega
    · refine work_goTo { s with stats := _ } w (l := .trying number m attempt) (by cases w <;> exact hl) ?_
      show 2 < 2 * (maxRetries - attempt) + 3
      omega

/-- Every step of a loop leaves less to do. -/
theorem work_step {op : Op} (hop : op.ofLoops = true) (hs : s.step c op = some s') : s'.work < s.work := by
  cases op with
  | options => cases hop
  | publish m => cases hop
  | receive w =>
    simp only [step, receive] at hs
    split at hs
    · next number m rest hl hch =>
      cases hs
      have hlength : s.ch.length = rest.length + 1 := by rw [hch, List.length_cons]
      cases w with
      | delivery =>
        cases hl' : s.delivery <;> simp only [loop, hl', Option.some_inj, reduceCtorEq] at hl
        show 10 * rest.length + 9 + s.pushCount Loop.work < 10 * s.ch.length + s.delivery.work + s.pushCount Loop.work
        omega
      | push =>
        show 10 * rest.length + s.delivery.work + 9 < 10 * s.ch.length + s.delivery.work + s.pushCount Loop.work
        omega
    · cases hs
  | attempt w ok =>
    simp only [step, attempt] at hs
    split at hs
    · next hl =>
      obtain ⟨-, hs⟩ := Option.ite_none_right_eq_some.1 hs
      cases hs
      exact work_attempted s .delivery ok hl
    · next hl =>
      cases hs
      exact work_attempted { s with posts := _ } .push ok hl
    · cases hs
  | count w =>
    simp only [step, count] at hs
    split at hs
    · next number hl =>
      cases hs
      exact work_goTo { s with stats := _ } w (l := .succeeded number) (by cases w <;> exact hl) Nat.one_pos
    · cases hs
  | wake w =>
    simp only [step, wake] at hs
    split at hs
    · next hl =>
      cases hs
      exact work_goTo s w hl (Nat.lt_succ_self _)
    · cases hs
  | deadLetter w =>
    simp only [step, deadLetter] at hs
    split at hs
    · next number m hl =>
      cases hs
      exact work_goTo { s with deadLetters := _ } w (l := .exhausted number m) (by cases w <;> exact hl) Nat.one_lt_two
    · cases hs
  | returned w =>
    simp only [step, returned] at hs
    split at hs
    · next hl =>
      cases hs
      exact work_goTo s w hl Nat.one_pos
    · cases hs

/-- The loops come to rest. -/
theorem length_le_work {ops : List Op} (hops : ∀ op ∈ ops, op.ofLoops = true) (hs : exec (step c) s ops = some s') :
    ops.length ≤ s.work := by
  induction ops generalizing s with
  | nil => exact Nat.zero_le _
  | cons op ops ih =>
    obtain ⟨s₁, hs₁, hs⟩ := Option.bind_eq_some_iff.1 hs
    have hless := work_step (hops op List.mem_cons_self) hs₁
    have hrest := ih (fun op' hop' => hops op' (List.mem_cons_of_mem _ hop')) hs
    rw [List.length_cons]
    omega

/-- Where a message is pending, `pushLoop` can go on. -/
theorem goesOn (hpush : s.push.isSome) (hpending : ∃ number, s.Pending number) :
    ∃ op s', op.ofLoops = true ∧ TakenByPush s op ∧ s.step c op = some s' := by
  obtain ⟨l, hl⟩ := Option.isSome_iff_exists.1 hpush
  have hloop : s.loop .push = some l := hl
  cases l with
  | idle =>
    obtain ⟨number, hch | hwork⟩ := hpending
    · obtain ⟨e, he, -⟩ := List.mem_map.1 hch
      cases hlist : s.ch with
      | nil =>
        rw [hlist] at he
        exact absurd he List.not_mem_nil
      | cons e rest =>
        exact ⟨.receive .push, { s with ch := rest }.goTo .push (.trying e.1 e.2 0), rfl, trivial, by
          rw [step, receive, hloop, hlist]⟩
    · rw [hl] at hwork
      cases hwork
  | trying number m attempt =>
    exact ⟨.attempt .push true, _, rfl, trivial, by
      show s.attempt c .push true = _
      unfold Subscription.attempt
      rw [hloop]⟩
  | waiting number m attempt => exact ⟨.wake .push, _, rfl, trivial, by rw [step, wake, hloop]⟩
  | succeeded number => exact ⟨.count .push, _, rfl, trivial, by rw [step, count, hloop]⟩
  | exhausted number m => exact ⟨.deadLetter .push, _, rfl, trivial, by rw [step, deadLetter, hloop]⟩
  | publishing number => exact ⟨.returned .push, _, rfl, trivial, by rw [step, returned, hloop]⟩

end Subscription

/-! ### Invariant -/

/-- What is known of the message that `pushLoop` has in hand, which is the one before `taken`. -/
def WorkInv (c : Setup) (s : Subscription) (taken : Nat) : Loop → Prop
  | .idle => True
  | .trying number m attempt => number + 1 = taken ∧ s.accepted[number]? = some m ∧ attempt ≤ maxRetries
      ∧ s.postsOf number = List.replicate attempt false ∧ s.deadLettersOf number = []
  | .waiting number m attempt => number + 1 = taken ∧ s.accepted[number]? = some m ∧ attempt ≤ maxRetries
      ∧ s.postsOf number = List.replicate attempt false ∧ s.deadLettersOf number = []
  | .succeeded number => number + 1 = taken ∧ s.PushedOnce number
  | .exhausted number m => number + 1 = taken ∧ s.accepted[number]? = some m
      ∧ s.postsOf number = List.replicate (maxRetries + 1) false ∧ s.deadLettersOf number = []
  | .publishing number => number + 1 = taken ∧ s.DeadLettered c number

/-- `deliveryLoop` has received nothing, and `pushLoop` the first `taken` messages. -/
structure Inv (c : Setup) (s : Subscription) (taken : Nat) : Prop where
  delivery : s.delivery = .idle
  url : s.push.isSome → s.webhookURL = c.webhookURL
  length : taken + s.ch.length = s.accepted.length
  queue : ∀ i, s.ch[i]? = s.accepted[taken + i]?.map fun m => (taken + i, m)
  working : ∀ l, s.push = some l → WorkInv c s taken l
  ended : ∀ number < taken, s.push.bind Loop.number ≠ some number → s.PushedOnce number ∨ s.DeadLettered c number
  unposted : ∀ number, taken ≤ number → s.postsOf number = [] ∧ s.deadLettersOf number = []
  payloads : ∀ p ∈ s.posts, ∃ m, s.accepted[p.number]? = some m ∧ p.payload = m.payload ∧ p.url = c.webhookURL
  delivered : s.stats.delivered + s.pushCount Loop.uncounted = (s.posts.filter Post.ok).length
  dlq : s.stats.dlq = s.deadLetters.length + s.pushCount Loop.unpublished
  order : s.firstPosts.Pairwise (· < ·)

variable {c : Setup} {s s' : Subscription} {taken : Nat}

theorem WorkInv.number {l : Loop} (h : WorkInv c s taken l) {number : Nat} (hl : l.number = some number) :
    number + 1 = taken := by
  cases l with
  | idle => cases hl
  | trying => cases hl; exact h.1
  | waiting => cases hl; exact h.1
  | succeeded => cases hl; exact h.1
  | exhausted => cases hl; exact h.1
  | publishing => cases hl; exact h.1

namespace Subscription

theorem PushedOnce.frame {number : Nat} (h : s.PushedOnce number) (hposts : s'.postsOf number = s.postsOf number)
    (hdead : s'.deadLettersOf number = s.deadLettersOf number) : s'.PushedOnce number :=
  ⟨hposts ▸ h.posts, hdead ▸ h.deadLetters⟩

theorem DeadLettered.frame {number : Nat} (h : s.DeadLettered c number) (hposts : s'.postsOf number = s.postsOf number)
    (hdead : s'.deadLettersOf number = s.deadLettersOf number)
    (haccepted : ∀ m, s.accepted[number]? = some m → s'.accepted[number]? = some m) : s'.DeadLettered c number := by
  obtain ⟨hfailed, m, hm, hletter⟩ := h
  exact ⟨hposts ▸ hfailed, m, haccepted m hm, hdead ▸ hletter⟩

theorem postsOf_push (s : Subscription) (p : Post) (number : Nat) :
    ({ s with posts := s.posts ++ [p] } : Subscription).postsOf number
      = s.postsOf number ++ if p.number = number then [p.ok] else [] := by
  by_cases h : p.number = number <;> simp [postsOf, h]

theorem deadLettersOf_push (s : Subscription) (d : DeadLetter) (number : Nat) :
    ({ s with deadLetters := s.deadLetters ++ [d] } : Subscription).deadLettersOf number
      = s.deadLettersOf number ++ if d.number = number then [d] else [] := by
  by_cases h : d.number = number <;> simp [deadLettersOf, h]

end Subscription

namespace Inv

theorem posted (h : Inv c s taken) {p : Post} (hp : p ∈ s.posts) : p.number < taken := by
  by_contra hlate
  have hnone := (h.unposted p.number (Nat.le_of_not_lt hlate)).1
  have hmem : p.ok ∈ s.postsOf p.number := List.mem_map_of_mem (List.mem_filter.2 ⟨hp, decide_eq_true rfl⟩)
  rw [hnone] at hmem
  exact List.not_mem_nil hmem

theorem accept (h : Inv c s taken) (m : Message) : Inv c (s.accept m) taken := by
  have hold : ∀ (i : Nat) (m' : Message), s.accepted[i]? = some m' → (s.accepted ++ [m])[i]? = some m' :=
    fun _ _ hi => getElem?_push_of_some hi
  refine ⟨h.delivery, h.url, ?_, fun i => ?_, fun l hl => ?_, fun number hlt hnot => ?_, h.unposted, fun p hp => ?_,
    h.delivered, h.dlq, h.order⟩
  · show taken + (s.ch ++ [_]).length = (s.accepted ++ [m]).length
    rw [List.length_append, List.length_append, List.length_singleton, List.length_singleton, ← h.length, Nat.add_assoc]
  · show (s.ch ++ [(s.accepted.length, m)])[i]? = (s.accepted ++ [m])[taken + i]?.map _
    rw [getElem?_push, getElem?_push, ← h.length]
    by_cases hi : i = s.ch.length
    · rw [if_pos hi, if_pos (by rw [hi]), hi]
      rfl
    · rw [if_neg hi, if_neg (by omega), h.queue]
  · have hwork := h.working l hl
    cases l with
    | idle => trivial
    | trying number m' attempt => exact ⟨hwork.1, hold _ _ hwork.2.1, hwork.2.2⟩
    | waiting number m' attempt => exact ⟨hwork.1, hold _ _ hwork.2.1, hwork.2.2⟩
    | succeeded number => exact ⟨hwork.1, hwork.2.frame rfl rfl⟩
    | exhausted number m' => exact ⟨hwork.1, hold _ _ hwork.2.1, hwork.2.2⟩
    | publishing number => exact ⟨hwork.1, hwork.2.frame rfl rfl (hold number)⟩
  · exact (h.ended number hlt hnot).imp (fun h => h.frame rfl rfl) fun h => h.frame rfl rfl (hold number)
  · obtain ⟨m', hm', hrest⟩ := h.payloads p hp
    exact ⟨m', hold _ _ hm', hrest⟩

theorem drop (h : Inv c s taken) : Inv c { s with stats := { s.stats with dropped := s.stats.dropped + 1 } } taken := by
  refine ⟨h.delivery, h.url, h.length, h.queue, fun l hl => ?_, fun number hlt hnot => ?_, h.unposted, h.payloads,
    h.delivered, h.dlq, h.order⟩
  · have hwork := h.working l hl
    cases l with
    | idle => trivial
    | trying => exact hwork
    | waiting => exact hwork
    | succeeded number => exact ⟨hwork.1, hwork.2.frame rfl rfl⟩
    | exhausted => exact hwork
    | publishing number => exact ⟨hwork.1, hwork.2.frame rfl rfl fun _ hm => hm⟩
  · exact (h.ended number hlt hnot).imp (fun h => h.frame rfl rfl) fun h => h.frame rfl rfl fun _ hm => hm

variable {number : Nat}

/-- `pushLoop` goes on with the message that it has in hand, or has done with it. -/
theorem goTo (h : Inv c s taken) {l r : Loop} (hl : s.push = some l) (hnumber : l.number = some number)
    (hch : s'.ch = s.ch) (haccepted : s'.accepted = s.accepted) (hdelivery : s'.delivery = s.delivery)
    (hurl : s'.webhookURL = s.webhookURL) (hpush : s'.push = some r)
    (hposts : ∀ i, i ≠ number → s'.postsOf i = s.postsOf i)
    (hdead : ∀ i, i ≠ number → s'.deadLettersOf i = s.deadLettersOf i) (hwork : WorkInv c s' taken r)
    (hend : r.number = some number ∨ s'.PushedOnce number ∨ s'.DeadLettered c number)
    (hpayloads : ∀ p ∈ s'.posts, p ∈ s.posts ∨ ∃ m, s.accepted[p.number]? = some m ∧ p.payload = m.payload ∧ p.url = c.webhookURL)
    (hdelivered : s'.stats.delivered + r.uncounted = (s'.posts.filter Post.ok).length)
    (hdlq : s'.stats.dlq = s'.deadLetters.length + r.unpublished) (horder : s'.firstPosts.Pairwise (· < ·)) :
    Inv c s' taken where
  delivery := hdelivery.trans h.delivery
  url := fun _ => hurl.trans (h.url (by rw [hl]; rfl))
  length := by rw [hch, haccepted, h.length]
  queue := by
    rw [hch, haccepted]
    exact h.queue
  working := by
    intro l' hl'
    rw [hpush] at hl'
    cases hl'
    exact hwork
  ended := by
    intro i hi hnot
    by_cases hin : i = number
    · subst hin
      refine hend.resolve_left fun hsame => hnot ?_
      rw [hpush]
      exact hsame
    · refine (h.ended i hi ?_).imp (fun h => h.frame (hposts i hin) (hdead i hin)) fun h =>
        h.frame (hposts i hin) (hdead i hin) fun m hm => by rw [haccepted]; exact hm
      rw [hl]
      intro heq
      exact hin (Option.some_inj.1 (heq.symm.trans hnumber))
  unposted := by
    intro i hi
    have hbefore := (h.working l hl).number hnumber
    have hin : i ≠ number := by omega
    rw [hposts i hin, hdead i hin]
    exact h.unposted i hi
  payloads := by
    intro p hp
    rw [haccepted]
    exact (hpayloads p hp).elim (h.payloads p) id
  delivered := by
    rw [pushCount, hpush]
    exact hdelivered
  dlq := by
    rw [pushCount, hpush]
    exact hdlq
  order := horder

theorem options (h : Inv c s taken) (hnone : s.push = none) : Inv c (s.options c) taken := by
  have hidle : ∀ l, (s.options c).push = some l → l = .idle := by
    intro l hl
    have hl : (if c.subType = .push then some .idle else s.push) = some l := hl
    split at hl
    · cases hl
      rfl
    · rw [hnone] at hl
      cases hl
  have hcount : ∀ f : Loop → Nat, f .idle = 0 → (s.options c).pushCount f = s.pushCount f := by
    intro f hf
    rw [pushCount, pushCount, hnone]
    cases hl : (s.options c).push with
    | none => rfl
    | some l =>
      rw [hidle l hl]
      exact hf
  refine ⟨h.delivery, fun _ => rfl, h.length, h.queue, fun l hl => ?_, fun number hlt _ => ?_, h.unposted, h.payloads,
    ?_, ?_, h.order⟩
  · rw [hidle l hl]
    trivial
  · exact (h.ended number hlt (by rw [hnone]; nofun)).imp (fun h => h.frame rfl rfl) fun h => h.frame rfl rfl fun _ hm => hm
  · rw [hcount _ rfl]
    exact h.delivered
  · rw [hcount _ rfl]
    exact h.dlq

variable {m : Message}

section

variable (h : Inv c s taken)
include h

theorem receive (hl : s.push = some .idle) {rest : List (Nat × Message)}
    (hch : s.ch = (number, m) :: rest) : Inv c ({ s with ch := rest }.goTo .push (.trying number m 0)) (taken + 1) := by
  have hfirst := h.queue 0
  rw [hch, List.getElem?_cons_zero, Nat.add_zero] at hfirst
  obtain ⟨m', hm', heq⟩ := Option.map_eq_some_iff.1 hfirst.symm
  cases heq
  refine ⟨h.delivery, fun _ => h.url (by rw [hl]; rfl), ?_, fun i => ?_, fun l hl' => ?_, fun i hi hnot => ?_,
    fun i hi => h.unposted i (Nat.le_of_succ_le hi), h.payloads, ?_, ?_, h.order⟩
  · have hlength := h.length
    rw [hch, List.length_cons] at hlength
    show taken + 1 + rest.length = s.accepted.length
    omega
  · have hnext := h.queue (i + 1)
    rw [hch, List.getElem?_cons_succ] at hnext
    show rest[i]? = s.accepted[taken + 1 + i]?.map _
    rw [hnext, Nat.add_assoc, Nat.add_comm 1 i]
  · cases hl'
    exact ⟨rfl, hm', Nat.zero_le _, (h.unposted taken (Nat.le_refl _)).1, (h.unposted taken (Nat.le_refl _)).2⟩
  · have hlt : i < taken := by
      refine Nat.lt_of_le_of_ne (Nat.le_of_lt_succ hi) fun heq => hnot ?_
      rw [heq]
      rfl
    exact (h.ended i hlt (by rw [hl]; nofun)).imp (fun h => h.frame rfl rfl) fun h => h.frame rfl rfl fun _ hm => hm
  · have hdelivered := h.delivered
    rw [pushCount, hl] at hdelivered
    exact hdelivered
  · have hdlq := h.dlq
    rw [pushCount, hl] at hdlq
    exact hdlq

theorem firstPosts_push {attempt : Nat}
    (hl : s.push = some (.trying number m attempt)) (url : String) (payload : PushPayload) (ok : Bool) :
    ({ s with posts := s.posts ++ [⟨number, attempt, url, payload, ok⟩] } : Subscription).firstPosts.Pairwise (· < ·) := by
  obtain ⟨htaken, -, -, hposts, -⟩ := h.working _ hl
  by_cases hattempt : attempt = 0
  · subst hattempt
    have hfirsts : ({ s with posts := s.posts ++ [⟨number, 0, url, payload, ok⟩] } : Subscription).firstPosts
        = s.firstPosts ++ [number] := by
      simp [firstPosts]
    rw [hfirsts]
    refine List.pairwise_append.2 ⟨h.order, List.pairwise_singleton _ _, fun i hi j hj => ?_⟩
    rw [List.mem_singleton.1 hj]
    obtain ⟨p, hp, rfl⟩ := List.mem_map.1 hi
    have hmem := (List.mem_filter.1 hp).1
    have hlt := h.posted hmem
    have hne : p.number ≠ number := by
      intro heq
      have hpost : p.ok ∈ s.postsOf number := List.mem_map_of_mem (List.mem_filter.2 ⟨hmem, decide_eq_true heq⟩)
      rw [hposts] at hpost
      exact List.not_mem_nil hpost
    omega
  · have hfirsts : ({ s with posts := s.posts ++ [⟨number, attempt, url, payload, ok⟩] } : Subscription).firstPosts
        = s.firstPosts := by
      simp [firstPosts, hattempt]
    rw [hfirsts]
    exact h.order

/-- A POST. -/
theorem attempt {attempt : Nat} (hl : s.push = some (.trying number m attempt)) (ok : Bool) :
    Inv c ({ s with posts := s.posts ++ [(⟨number, attempt, s.webhookURL, m.payload, ok⟩ : Post)] }.attempted
      .push number m attempt ok) taken := by
  obtain ⟨htaken, hm, hattempt, hposts, hdead⟩ := h.working _ hl
  have hpushed := postsOf_push s ⟨number, attempt, s.webhookURL, m.payload, ok⟩
  have hnow := hpushed number
  rw [hposts, if_pos rfl] at hnow
  have hothers : ∀ i, i ≠ number → ({ s with posts := s.posts ++ [⟨number, attempt, s.webhookURL, m.payload, ok⟩] } :
      Subscription).postsOf i = s.postsOf i := by
    intro i hi
    rw [hpushed i, if_neg (Ne.symm hi), List.append_nil]
  have hpayloads : ∀ p ∈ s.posts ++ [(⟨number, attempt, s.webhookURL, m.payload, ok⟩ : Post)], p ∈ s.posts
      ∨ ∃ m, s.accepted[p.number]? = some m ∧ p.payload = m.payload ∧ p.url = c.webhookURL := by
    intro p hp
    rcases List.mem_append.1 hp with hp | hp
    · exact .inl hp
    · rw [List.mem_singleton.1 hp]
      exact .inr ⟨m, hm, rfl, h.url (by rw [hl]; rfl)⟩
  have horder := h.firstPosts_push hl s.webhookURL m.payload ok
  have hdelivered := h.delivered
  have hdlq := h.dlq
  rw [pushCount, hl] at hdelivered hdlq
  cases ok with
  | true =>
    refine h.goTo hl rfl rfl rfl rfl rfl rfl hothers (fun _ _ => rfl) (r := .succeeded number)
      ⟨htaken, ⟨attempt, hattempt, hnow⟩, hdead⟩ (.inl rfl) hpayloads ?_ hdlq horder
    show s.stats.delivered + 1 = ((s.posts ++ [_]).filter Post.ok).length
    rw [List.filter_append, List.length_append]
    exact congrArg (· + 1) hdelivered
  | false =>
    have hsame : ((s.posts ++ [(⟨number, attempt, s.webhookURL, m.payload, false⟩ : Post)]).filter Post.ok).length
        = (s.posts.filter Post.ok).length := by
      rw [List.filter_append]
      exact congrArg List.length (List.append_nil _)
    have hfailed : List.replicate attempt false ++ [false] = List.replicate (attempt + 1) false :=
      List.replicate_succ'.symm
    rw [hfailed] at hnow
    rw [attempted, if_neg Bool.false_ne_true]
    split
    · next hmore =>
      exact h.goTo hl rfl rfl rfl rfl rfl rfl hothers (fun _ _ => rfl) (r := .waiting number m (attempt + 1))
        ⟨htaken, hm, hmore, hnow, hdead⟩ (.inl rfl) hpayloads (hdelivered.trans hsame.symm) hdlq horder
    · next hlast =>
      have hall : attempt = maxRetries := Nat.le_antisymm hattempt (Nat.le_of_not_lt hlast)
      rw [hall] at hnow
      exact h.goTo hl rfl rfl rfl rfl rfl rfl hothers (fun _ _ => rfl) (r := .exhausted number m)
        ⟨htaken, hm, hall ▸ hnow, hdead⟩ (.inl rfl) hpayloads (hdelivered.trans hsame.symm) (congrArg (· + 1) hdlq) horder

theorem deadLetter (hl : s.push = some (.exhausted number m)) :
    Inv c ({ s with deadLetters := s.deadLetters ++ [(⟨number, c.topic ++ "-dlq", m.body, m.attributes⟩ : DeadLetter)]
      }.goTo .push (.publishing number)) taken := by
  obtain ⟨htaken, hm, hposts, hdead⟩ := h.working _ hl
  have hpublished := deadLettersOf_push s ⟨number, c.topic ++ "-dlq", m.body, m.attributes⟩
  have hnow := hpublished number
  rw [hdead, if_pos rfl] at hnow
  have hdelivered := h.delivered
  have hdlq := h.dlq
  rw [pushCount, hl] at hdelivered hdlq
  refine h.goTo hl rfl rfl rfl rfl rfl rfl (fun _ _ => rfl) (fun i hi => ?_) (r := .publishing number)
    ⟨htaken, hposts, m, hm, hnow⟩ (.inl rfl) (fun p hp => .inl hp) hdelivered ?_ h.order
  · exact (hpublished i).trans (by rw [if_neg (Ne.symm hi), List.append_nil])
  · show s.stats.dlq = (s.deadLetters ++ [_]).length + 0
    rw [List.length_append]
    exact hdlq

/-- A step in which `deliveryLoop` receives nothing. -/
theorem step {op : Op} (hok : TakenByPush s op) (hs : s.step c op = some s') :
    ∃ taken', Inv c s' taken' := by
  cases op with
  | options =>
    obtain ⟨hnone, hs⟩ := Option.ite_none_right_eq_some.1 hs
    cases hs
    exact ⟨taken, h.options hnone⟩
  | publish m =>
    simp only [Subscription.step, Subscription.publish, Subscription.deliverAsync] at hs
    split at hs
    · split at hs
      · split at hs
        · cases hs
          exact ⟨taken, h.accept m⟩
        · cases hs
          exact ⟨taken, h.drop⟩
      · obtain ⟨-, hs⟩ := Option.ite_none_right_eq_some.1 hs
        cases hs
        exact ⟨taken, h.accept m⟩
    · cases hs
      exact ⟨taken, h⟩
  | receive w =>
    simp only [Subscription.step, Subscription.receive] at hs
    split at hs
    · next hl hch =>
      cases hs
      cases w with
      | delivery => exact hok.elim
      | push => exact ⟨taken + 1, h.receive hl hch⟩
    · cases hs
  | attempt w ok =>
    simp only [Subscription.step, Subscription.attempt] at hs
    split at hs
    · next hl =>
      rw [loop, h.delivery] at hl
      cases hl
    · next hl =>
      cases hs
      exact ⟨taken, h.attempt hl ok⟩
    · cases hs
  | count w =>
    simp only [Subscription.step, Subscription.count] at hs
    split at hs
    · next number hl =>
      cases hs
      cases w with
      | delivery =>
        rw [loop, h.delivery] at hl
        cases hl
      | push =>
        have hdelivered := h.delivered
        have hdlq := h.dlq
        have hpush : s.push = some (.succeeded number) := hl
        rw [pushCount, hpush] at hdelivered hdlq
        exact ⟨taken, h.goTo hpush rfl rfl rfl rfl rfl rfl (fun _ _ => rfl) (fun _ _ => rfl) (r := .idle) trivial
          (.inr (.inl ((h.working _ hpush).2.frame rfl rfl))) (fun p hp => .inl hp) hdelivered hdlq h.order⟩
    · cases hs
  | wake w =>
    simp only [Subscription.step, Subscription.wake] at hs
    split at hs
    · next number m attempt hl =>
      cases hs
      cases w with
      | delivery =>
        rw [loop, h.delivery] at hl
        cases hl
      | push =>
        have hdelivered := h.delivered
        have hdlq := h.dlq
        have hpush : s.push = some (.waiting number m attempt) := hl
        rw [pushCount, hpush] at hdelivered hdlq
        exact ⟨taken, h.goTo hpush rfl rfl rfl rfl rfl rfl (fun _ _ => rfl) (fun _ _ => rfl)
          (r := .trying number m attempt) (h.working _ hpush) (.inl rfl) (fun p hp => .inl hp) hdelivered hdlq h.order⟩
    · cases hs
  | deadLetter w =>
    simp only [Subscription.step, Subscription.deadLetter] at hs
    split at hs
    · next number m hl =>
      cases hs
      cases w with
      | delivery =>
        rw [loop, h.delivery] at hl
        cases hl
      | push => exact ⟨taken, h.deadLetter hl⟩
    · cases hs
  | returned w =>
    simp only [Subscription.step, Subscription.returned] at hs
    split at hs
    · next number hl =>
      cases hs
      cases w with
      | delivery =>
        rw [loop, h.delivery] at hl
        cases hl
      | push =>
        have hdelivered := h.delivered
        have hdlq := h.dlq
        have hpush : s.push = some (.publishing number) := hl
        rw [pushCount, hpush] at hdelivered hdlq
        exact ⟨taken, h.goTo hpush rfl rfl rfl rfl rfl rfl (fun _ _ => rfl) (fun _ _ => rfl) (r := .idle) trivial
          (.inr (.inr ((h.working _ hpush).2.frame rfl rfl fun _ hm => hm))) (fun p hp => .inl hp) hdelivered hdlq h.order⟩
    · cases hs

end

theorem subscribe (c : Setup) : Inv c .subscribe 0 where
  delivery := rfl
  url := fun h => by cases h
  length := rfl
  queue := fun _ => rfl
  working := fun _ hl => by cases hl
  ended := fun _ hlt => absurd hlt (Nat.not_lt_zero _)
  unposted := fun _ _ => ⟨rfl, rfl⟩
  payloads := fun _ hp => absurd hp List.not_mem_nil
  delivered := rfl
  dlq := rfl
  order := List.Pairwise.nil

theorem right (h : Inv c s taken) : s.Right c where
  ended := by
    intro number hlt
    by_cases htaken : number < taken
    · by_cases hwork : s.push.bind Loop.number = some number
      · exact .inl (.inr hwork)
      · exact .inr (h.ended number htaken hwork)
    · have hqueue := h.queue (number - taken)
      rw [Nat.add_sub_cancel' (Nat.le_of_not_lt htaken), List.getElem?_eq_getElem hlt] at hqueue
      exact .inl (.inl (List.mem_map.2 ⟨_, List.mem_of_getElem? hqueue, rfl⟩))
  payloads := h.payloads
  delivered := h.delivered
  dlq := h.dlq
  order := h.order
  goesOn := goesOn
  rests := fun _ _ => length_le_work

end Inv

/-! ### Runs -/

/-- **Every message of a push subscription ends, in every run in which `pushLoop` receives all of them.** -/
theorem delivered_or_dead_lettered (c : Setup) (h : ReachableIf (Subscription.step c) TakenByPush .subscribe s) :
    s.Right c := by
  have hinv : ∃ taken, Inv c s taken :=
    ReachableIf.invariant (I := fun s => ∃ taken, Inv c s taken) ⟨0, Inv.subscribe c⟩
      (fun _ _ _ _ hinv hok hstep => hinv.elim fun _ hinv => hinv.step hok hstep) h
  obtain ⟨taken, hinv⟩ := hinv
  exact hinv.right

def pushSetup : Setup :=
  ⟨"orders", fun _ => true, .drop, .push, "http://localhost:9000/hook", none⟩

def order (id : String) : Message :=
  ⟨id, "orders", [0x31], [("kind", "new")], 0⟩

/-- The first message is delivered by its second POST, and the second one is dead-lettered. -/
def retriedAndDead : List Op :=
  [.options, .publish (order "a"), .publish (order "b"), .receive .push, .attempt .push false, .wake .push,
    .attempt .push true, .count .push, .receive .push, .attempt .push false, .wake .push, .attempt .push false,
    .wake .push, .attempt .push false, .wake .push, .attempt .push false, .deadLetter .push, .returned .push]

/-- In that run one message is counted as delivered and one as dead-lettered. -/
theorem delivered_or_dead_lettered_both : ∃ s,
    ReachableIf (Subscription.step pushSetup) TakenByPush .subscribe s
    ∧ (s.stats = ⟨1, 0, 4, 1⟩ ∧ s.posts.length = 6 ∧ s.deadLetters.map DeadLetter.topic = ["orders-dlq"])
    ∧ s.Right pushSetup := by
  have hrun : (execIf (step pushSetup) (fun s op => decide (TakenByPush s op)) .subscribe retriedAndDead).map
      (fun s => decide (s.stats = ⟨1, 0, 4, 1⟩ ∧ s.posts.length = 6
        ∧ s.deadLetters.map DeadLetter.topic = ["orders-dlq"])) = some true := by rfl
  obtain ⟨s, hs, hfacts⟩ := Option.map_eq_some_iff.1 hrun
  have hreach : ReachableIf (step pushSetup) TakenByPush .subscribe s :=
    ReachableIf.init.execIf (fun _ _ => of_decide_eq_true) hs
  exact ⟨s, hreach, of_decide_eq_true hfacts, delivered_or_dead_lettered pushSetup hreach⟩

/-- `deliveryLoop` is the first to receive. -/
def takenByDelivery : List Op :=
  [.options, .publish (order "a"), .receive .delivery, .attempt .delivery true, .count .delivery]

/-- **The message is counted as delivered without a POST.** -/
theorem counted_without_post : ∃ s, Reachable (Subscription.step pushSetup) .subscribe s ∧ ¬ s.Right pushSetup := by
  have hrun : (exec (step pushSetup) .subscribe takenByDelivery).map
      (fun s => decide (s.stats.delivered = 1 ∧ s.posts = [])) = some true := by rfl
  obtain ⟨s, hs, hfacts⟩ := Option.map_eq_some_iff.1 hrun
  obtain ⟨hcounted, hposts⟩ := of_decide_eq_true hfacts
  refine ⟨s, reachable_of_exec hs, fun h => ?_⟩
  have hdelivered := h.delivered
  rw [hcounted, hposts] at hdelivered
  exact absurd hdelivered (by rw [Nat.add_comm]; exact Nat.succ_ne_zero _)

end SystemDesignLabs.Pubsub
