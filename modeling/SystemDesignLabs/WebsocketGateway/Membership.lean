import SystemDesignLabs.Core.TransitionSystem
import SystemDesignLabs.WebsocketGateway.Hub

/-!
# Room membership

Between the lookup of a room and the change of its member map no lock is held. A room that is empty stays in the
hub as long as a call in progress is about to add a client to it or to delete it, and a client is in the room
that its `roomID` names, in the runs in which a client leaves its room before it joins another one, and no call
uses a room that has left the hub in the meantime (`Orderly`).
-/

namespace SystemDesignLabs.WebsocketGateway

open Core SortedMap

/-- A call in this phase will take its client out of its room. -/
def CallPhase.Leaves : CallPhase → Prop
  | .unregisterCheck => True
  | .leaveStart => True
  | .leaveLookup _ => True
  | .leaveRemove _ _ => True
  | _ => False

/-- A call in this phase will add a client to the room, or delete it if it is empty. -/
def CallPhase.Holds (name : String) (rm : Nat) : CallPhase → Prop
  | .joinAssign room r => room = name ∧ r = rm
  | .joinAdd room r => room = name ∧ r = rm
  | .leaveDelete room r => room = name ∧ r = rm
  | _ => False

namespace Hub

/-! ## The property and its condition -/

/-- What holds when no call is in progress. -/
structure Consistent (w : Hub) : Prop where
  member : ∀ c ∈ w.clients, ∀ rm, c ∈ w.members rm → w.rooms.get (w.roomIDOf c) = some rm
  unregistered : ∀ c, c ∉ w.clients → ∀ rm, c ∉ w.members rm
  nonempty : ∀ name rm, w.rooms.get name = some rm → w.members rm ≠ []
  active : w.activeRooms = w.rooms.entries.length

/-- Membership is consistent whenever no call is in progress. -/
def Settles (w : Hub) : Prop := w.calls = [] → w.Consistent

/-- No call of this client is in progress. -/
def Free (w : Hub) (c : String) : Prop := ∀ call ∈ w.calls, call.client ≠ c

instance (w : Hub) (c : String) : Decidable (w.Free c) := by
  unfold Free
  infer_instance

/-- The room of a call that adds a client or deletes the room is the one that the hub has under its name. -/
def Current (w : Hub) : CallPhase → Prop
  | .joinAdd room rm => w.rooms.get room = some rm
  | .leaveDelete room rm => w.members rm = [] → w.rooms.get room = some rm
  | _ => True

instance (w : Hub) (phase : CallPhase) : Decidable (w.Current phase) := by
  cases phase <;> unfold Current <;> infer_instance

/-- The condition on a step: the calls of one client follow one another, a client that joins a named room is
registered and in no other room, and a room that a call changes or deletes is still in the hub. -/
def Orderly (w : Hub) : HubOp → Prop
  | .register c => w.Free c
  | .joinRoom c room => w.Free c ∧ room ≠ "" ∧ c ∈ w.clients ∧ (w.roomIDOf c = "" ∨ w.roomIDOf c = room)
  | .leaveRoom c => w.Free c
  | .unregister c => w.Free c
  | .step k => ∀ call ∈ w.calls[k]?, w.Current call.phase

instance (w : Hub) (op : HubOp) : Decidable (w.Orderly op) := by
  cases op <;> unfold Orderly <;> infer_instance

/-! ## The invariant -/

/-- The name of a room in the heap. -/
def nameOf (w : Hub) (rm : Nat) : Option String := (w.heap[rm]?).map Room.name

/-- What a call knows about its client and its room. -/
def PhaseOk (w : Hub) (c : String) : CallPhase → Prop
  | .joinLookup room => room ≠ "" ∧ c ∈ w.clients ∧ (w.roomIDOf c = "" ∨ w.roomIDOf c = room)
  | .joinAssign room rm =>
    room ≠ "" ∧ c ∈ w.clients ∧ (w.roomIDOf c = "" ∨ w.roomIDOf c = room) ∧ w.nameOf rm = some room
  | .joinAdd room rm => c ∈ w.clients ∧ w.roomIDOf c = room ∧ w.nameOf rm = some room
  | .leaveLookup room => w.roomIDOf c = room
  | .leaveRemove room rm => w.nameOf rm = some room ∧ ∀ rm', c ∈ w.members rm' → rm' = rm
  | .leaveDelete room rm => w.nameOf rm = some room ∧ ∀ rm', c ∉ w.members rm'
  | .leaveReset => ∀ rm', c ∉ w.members rm'
  | _ => True

structure Inv (w : Hub) : Prop where
  solo : (w.calls.map Call.client).Nodup
  named : ∀ name rm, w.rooms.get name = some rm → name ≠ "" ∧ w.nameOf rm = some name
  member : ∀ c rm, c ∈ w.members rm → w.rooms.get (w.roomIDOf c) = some rm
  phase : ∀ call ∈ w.calls, w.PhaseOk call.client call.phase
  registered : ∀ c rm, c ∈ w.members rm → c ∈ w.clients ∨ ∃ call ∈ w.calls, call.client = c ∧ call.phase.Leaves
  held : ∀ name rm, w.rooms.get name = some rm → w.members rm = [] → ∃ call ∈ w.calls, call.phase.Holds name rm
  active : w.activeRooms = w.rooms.entries.length

theorem Inv.settles {w : Hub} (h : Inv w) : w.Settles := by
  intro hcalls
  refine ⟨fun c _ => h.member c, fun c hc rm hrm => ?_, fun name rm hrm hempty => ?_, h.active⟩
  · obtain ⟨call, hcall, -⟩ := (h.registered c rm hrm).resolve_left hc
    rw [hcalls] at hcall
    exact nomatch hcall
  · obtain ⟨call, hcall, -⟩ := h.held name rm hrm hempty
    rw [hcalls] at hcall
    exact nomatch hcall

/-! ## The heap -/

section Heap

variable {w w' : Hub} {rm rm' : Nat} {c c' : String}

theorem mem_members : c ∈ w.members rm ↔ ∃ r, w.heap[rm]? = some r ∧ c ∈ r.clients := by
  rw [members]
  cases w.heap[rm]? with
  | none => exact iff_of_false (fun h => nomatch h) (fun ⟨_, h, _⟩ => nomatch h)
  | some r => exact ⟨fun h => ⟨r, rfl, h⟩, fun ⟨_, hr, h⟩ => Option.some.inj hr ▸ h⟩

theorem mem_addClient {r : Room} : c' ∈ (r.addClient c).clients ↔ c' ∈ r.clients ∨ c' = c := by
  rw [Room.addClient]
  split
  · rename_i hmem
    exact ⟨.inl, fun h => h.elim id fun heq => heq ▸ hmem⟩
  · exact List.mem_cons.trans Or.comm

theorem name_addClient (r : Room) : (r.addClient c).name = r.name := by
  rw [Room.addClient]
  split <;> rfl

theorem mem_members_add (hheap : w'.heap = w.heap.modify rm (·.addClient c)) (hname : (w.nameOf rm).isSome) :
    c' ∈ w'.members rm' ↔ c' ∈ w.members rm' ∨ (rm' = rm ∧ c' = c) := by
  rw [mem_members, mem_members, hheap, List.getElem?_modify]
  by_cases hrm : rm = rm'
  · subst hrm
    rw [nameOf, Option.isSome_map] at hname
    obtain ⟨r, hr⟩ := Option.isSome_iff_exists.1 hname
    simp [hr, mem_addClient]
  · simp [hrm, Ne.symm hrm]

theorem mem_removeClient {r : Room} : c' ∈ (r.removeClient c).1.clients ↔ c' ∈ r.clients ∧ c' ≠ c := by
  rw [Room.removeClient, List.mem_filter, decide_eq_true_iff]

theorem mem_members_remove (hheap : w'.heap = w.heap.modify rm fun r => (r.removeClient c).1) :
    c' ∈ w'.members rm' ↔ c' ∈ w.members rm' ∧ ¬ (rm' = rm ∧ c' = c) := by
  rw [mem_members, mem_members, hheap, List.getElem?_modify]
  by_cases hrm : rm = rm'
  · subst hrm
    cases w.heap[rm]? with
    | none => simp
    | some r => simp [mem_removeClient]
  · simp [hrm, Ne.symm hrm]

theorem nameOf_modify {f : Room → Room} (hf : ∀ r, (f r).name = r.name) (hheap : w'.heap = w.heap.modify rm f) :
    w'.nameOf rm' = w.nameOf rm' := by
  rw [nameOf, nameOf, hheap, List.getElem?_modify]
  cases w.heap[rm']? with
  | none => rfl
  | some r =>
    show some (if rm = rm' then f r else r).name = some r.name
    split
    · exact congrArg some (hf r)
    · rfl

theorem members_new {room : String} (hheap : w'.heap = w.heap ++ [newRoom room]) : w'.members rm' = w.members rm' := by
  rw [members, members, hheap]
  by_cases hlt : rm' < w.heap.length
  · rw [List.getElem?_append_left hlt]
  · rw [List.getElem?_append_right (Nat.not_lt.1 hlt), List.getElem?_eq_none (Nat.not_lt.1 hlt)]
    cases rm' - w.heap.length <;> rfl

theorem nameOf_new {room : String} (hheap : w'.heap = w.heap ++ [newRoom room]) :
    (∀ n, w.nameOf rm' = some n → w'.nameOf rm' = some n) ∧ w'.nameOf w.heap.length = some room := by
  rw [nameOf, nameOf, nameOf, hheap]
  constructor
  · intro n hn
    obtain ⟨r, hr, rfl⟩ := Option.map_eq_some_iff.1 hn
    rw [List.getElem?_append_left (List.getElem?_eq_some_iff.1 hr).1, hr]
    rfl
  · rw [List.getElem?_append_right (Nat.le_refl _), Nat.sub_self]
    rfl

end Heap

/-! ## Steps -/

/-- What a step of a call of the client `c` leaves alone. -/
structure Frame (w w' : Hub) (c : String) : Prop where
  roomID : ∀ c' ≠ c, w'.roomIDOf c' = w.roomIDOf c'
  members : ∀ c' ≠ c, ∀ rm, c' ∈ w'.members rm ↔ c' ∈ w.members rm
  clients : ∀ c' ≠ c, c' ∈ w'.clients ↔ c' ∈ w.clients
  names : ∀ rm n, w.nameOf rm = some n → w'.nameOf rm = some n

section Steps

variable {w w' : Hub} {c : String}

variable {phase : CallPhase}

theorem PhaseOk.frame (hframe : Frame w w' c) {c' : String} (hne : c' ≠ c) (h : w.PhaseOk c' phase) :
    w'.PhaseOk c' phase := by
  cases phase with
  | register => trivial
  | joinLookup room => exact ⟨h.1, (hframe.clients c' hne).2 h.2.1, hframe.roomID c' hne ▸ h.2.2⟩
  | joinAssign room rm =>
    exact ⟨h.1, (hframe.clients c' hne).2 h.2.1, hframe.roomID c' hne ▸ h.2.2.1, hframe.names _ _ h.2.2.2⟩
  | joinAdd room rm =>
    exact ⟨(hframe.clients c' hne).2 h.1, (hframe.roomID c' hne).trans h.2.1, hframe.names _ _ h.2.2⟩
  | unregisterDelete => trivial
  | unregisterCheck => trivial
  | leaveStart => trivial
  | leaveLookup room => exact (hframe.roomID c' hne).trans h
  | leaveRemove room rm => exact ⟨hframe.names _ _ h.1, fun rm' hrm' => h.2 rm' ((hframe.members c' hne rm').1 hrm')⟩
  | leaveDelete room rm =>
    exact ⟨hframe.names _ _ h.1, fun rm' hrm' => h.2 rm' ((hframe.members c' hne rm').1 hrm')⟩
  | leaveReset => exact fun rm' hrm' => h rm' ((hframe.members c' hne rm').1 hrm')

/-- The invariant after a step of a call, from what the step does for its own client and its own room. -/
theorem Inv.advance (h : Inv w) {k : Nat} (hcall : w.calls[k]? = some ⟨c, phase⟩) (next : Option CallPhase)
    (hcalls : w'.calls = w.advance k c next) (hframe : Frame w w' c)
    (hnext : ∀ phase' ∈ next, w'.PhaseOk c phase')
    (hnamed : ∀ name rm, w'.rooms.get name = some rm → w.rooms.get name ≠ some rm → name ≠ "" ∧ w'.nameOf rm = some name)
    (hkept : ∀ c' ≠ c, ∀ rm, c' ∈ w.members rm → w.rooms.get (w.roomIDOf c') = some rm → w'.rooms.get (w.roomIDOf c') = some rm)
    (hmember : ∀ rm, c ∈ w'.members rm → w'.rooms.get (w'.roomIDOf c) = some rm ∧ (c ∈ w'.clients ∨ ∃ phase' ∈ next, phase'.Leaves))
    (hheld : ∀ name rm, w'.rooms.get name = some rm → w'.members rm = [] → (∃ phase' ∈ next, phase'.Holds name rm) ∨ (w.rooms.get name = some rm ∧ w.members rm = [] ∧ ¬ phase.Holds name rm))
    (hactive : w'.activeRooms = w'.rooms.entries.length) : Inv w' := by
  have hmem := List.mem_of_getElem? hcall
  have hnodup := @nodup_proceed _ _ _ _ (next.map (Call.mk c)) _ Call.client hcall h.solo (by
    intro b hb
    obtain ⟨phase', -, rfl⟩ := Option.map_eq_some_iff.1 hb
    rfl)
  have hothers : ∀ call ∈ w.calls, call.client ≠ c → call ∈ w'.calls := fun call hin hne => by
    rw [hcalls]
    exact mem_proceed hcall hin fun heq => hne (heq ▸ rfl)
  have hown : ∀ phase' ∈ next, (⟨c, phase'⟩ : Call) ∈ w'.calls := fun phase' hphase' => by
    rw [hcalls]
    exact mem_proceed_next hcall (Option.mem_map_of_mem _ hphase')
  refine ⟨?_, ?_, ?_, ?_, ?_, ?_, hactive⟩
  · rw [hcalls]
    exact hnodup.1
  · intro name rm hrm
    by_cases hold : w.rooms.get name = some rm
    · exact ⟨(h.named name rm hold).1, hframe.names _ _ (h.named name rm hold).2⟩
    · exact hnamed name rm hrm hold
  · intro c' rm hrm
    by_cases hc : c' = c
    · subst hc
      exact (hmember rm hrm).1
    · have hrm' := (hframe.members c' hc rm).1 hrm
      rw [hframe.roomID c' hc]
      exact hkept c' hc rm hrm' (h.member c' rm hrm')
  · intro call hin
    rw [hcalls] at hin
    rcases hnodup.2 call hin with hin | ⟨hin, hne⟩
    · obtain ⟨phase', hphase', rfl⟩ := Option.map_eq_some_iff.1 hin
      exact hnext phase' hphase'
    · exact (h.phase call hin).frame hframe hne
  · intro c' rm hrm
    by_cases hc : c' = c
    · subst hc
      exact (hmember rm hrm).2.imp id fun ⟨phase', hphase', hleaves⟩ => ⟨_, hown phase' hphase', rfl, hleaves⟩
    · rcases h.registered c' rm ((hframe.members c' hc rm).1 hrm) with hreg | ⟨call, hin, rfl, hleaves⟩
      · exact .inl ((hframe.clients c' hc).2 hreg)
      · exact .inr ⟨call, hothers call hin hc, rfl, hleaves⟩
  · intro name rm hrm hempty
    rcases hheld name rm hrm hempty with ⟨phase', hphase', hholds⟩ | ⟨hold, hempty', hnot⟩
    · exact ⟨_, hown phase' hphase', hholds⟩
    · obtain ⟨call, hin, hholds⟩ := h.held name rm hold hempty'
      refine ⟨call, ?_, hholds⟩
      rw [hcalls]
      refine mem_proceed hcall hin fun heq => hnot ?_
      rw [heq] at hholds
      exact hholds

theorem Inv.proceed (h : Inv w) {k : Nat} (hcall : w.calls[k]? = some ⟨c, phase⟩) {next : Option CallPhase}
    (hnext : ∀ phase' ∈ next, w.PhaseOk c phase')
    (hleaves : phase.Leaves → (∀ rm, c ∉ w.members rm) ∨ ∃ phase' ∈ next, phase'.Leaves)
    (hholds : ∀ name rm, phase.Holds name rm → w.members rm ≠ []) : Inv { w with calls := w.advance k c next } := by
  have hframe : Frame w { w with calls := w.advance k c next } c :=
    ⟨fun _ _ => rfl, fun _ _ _ => Iff.rfl, fun _ _ => Iff.rfl, fun _ _ hn => hn⟩
  refine h.advance hcall next rfl hframe ?_ (fun _ _ hrm hold => absurd hrm hold) (fun _ _ _ _ hrm => hrm) ?_ ?_ h.active
  · intro phase' hphase'
    have hok := hnext phase' hphase'
    cases phase' <;> exact hok
  · intro rm hrm
    refine ⟨h.member c rm hrm, ?_⟩
    rcases h.registered c rm hrm with hreg | ⟨call, hin, hclient, hcl⟩
    · exact .inl hreg
    · -- the only call of the client is this one
      have hsame : call = ⟨c, phase⟩ :=
        List.inj_on_of_nodup_map h.solo hin (List.mem_of_getElem? hcall) hclient
      subst hsame
      exact .inr ((hleaves hcl).resolve_left fun hnone => hnone rm hrm)
  · exact fun name rm hrm hempty => .inr ⟨hrm, hempty, fun hh => hholds name rm hh hempty⟩

theorem Inv.notMem_of_roomID (h : Inv w) (hroom : w.roomIDOf c = "") (rm : Nat) : c ∉ w.members rm := by
  intro hrm
  have hget := h.member c rm hrm
  rw [hroom] at hget
  exact (h.named _ _ hget).1 rfl

theorem roomIDOf_insert (h : Hub) (c' room : String) {w' : Hub} (hw' : w'.roomIDs = h.roomIDs.insert c room) :
    w'.roomIDOf c' = if c' = c then room else h.roomIDOf c' := by
  rw [roomIDOf, roomIDOf, hw', get_insert]
  split <;> rfl

variable {k : Nat}

theorem inv_register (h : Inv w) (hcall : w.calls[k]? = some ⟨c, .register⟩) : Inv (w.stepCall k ⟨c, .register⟩) := by
  rw [stepCall]
  dsimp only
  split
  · exact h.proceed hcall nofun nofun nofun
  · have hclients : ∀ c', (c' ∈ (if c ∈ w.clients then w.clients else c :: w.clients)) ↔ c' ∈ w.clients ∨ c' = c := by
      intro c'
      split
      · rename_i hc
        exact ⟨.inl, fun h => h.elim id fun heq => heq ▸ hc⟩
      · exact List.mem_cons.trans Or.comm
    refine h.advance hcall none rfl ⟨fun _ _ => rfl, fun _ _ _ => Iff.rfl, fun c' hc' => ?_, fun _ _ hn => hn⟩ nofun
      (fun _ _ hrm hold => absurd hrm hold) (fun _ _ _ _ hrm => hrm) ?_ (fun _ _ hrm hempty => .inr ⟨hrm, hempty, nofun⟩)
      h.active
    · exact (hclients c').trans (or_iff_left hc')
    · exact fun rm hrm => ⟨h.member c rm hrm, .inl ((hclients c).2 (.inr rfl))⟩

variable {room : String}

theorem inv_joinLookup (h : Inv w) (hcall : w.calls[k]? = some ⟨c, .joinLookup room⟩) :
    Inv (w.stepCall k ⟨c, .joinLookup room⟩) := by
  obtain ⟨hroom, hclient, hid⟩ := h.phase _ (List.mem_of_getElem? hcall)
  rw [stepCall]
  dsimp only
  split
  · rename_i rm hrm
    refine h.proceed hcall ?_ (by rintro ⟨⟩) (by rintro _ _ ⟨⟩)
    rintro _ ⟨⟩
    exact ⟨hroom, hclient, hid, (h.named room rm hrm).2⟩
  · -- a new room, which this call holds until a client is in it
    rename_i hnone
    have hmembers := fun rm => @members_new w { w with
      rooms := w.rooms.insert room w.heap.length
      heap := w.heap ++ [newRoom room]
      activeRooms := w.activeRooms + 1
      calls := w.advance k c (some (.joinAssign room w.heap.length)) } rm room rfl
    have hnames := fun rm => @nameOf_new w { w with
      rooms := w.rooms.insert room w.heap.length
      heap := w.heap ++ [newRoom room]
      activeRooms := w.activeRooms + 1
      calls := w.advance k c (some (.joinAssign room w.heap.length)) } rm room rfl
    refine h.advance hcall (some _) rfl ⟨fun _ _ => rfl, fun c' _ rm => by rw [hmembers], fun _ _ => Iff.rfl,
      fun rm => (hnames rm).1⟩ ?_ ?_ ?_ ?_ ?_ ?_
    · rintro _ ⟨⟩
      exact ⟨hroom, hclient, hid, (hnames 0).2⟩
    · intro name rm hrm hold
      dsimp only at hrm
      rw [get_insert] at hrm
      split at hrm
      · rename_i hname
        cases hrm
        rw [hname]
        exact ⟨hroom, (hnames 0).2⟩
      · exact absurd hrm hold
    · intro c' _ rm _ hget
      dsimp only
      rw [get_insert, if_neg, hget]
      rintro rfl
      cases hget.symm.trans hnone
    · intro rm hrm
      rw [hmembers] at hrm
      have hget := h.member c rm hrm
      refine ⟨?_, .inl hclient⟩
      show (w.rooms.insert room w.heap.length).get (w.roomIDOf c) = some rm
      rw [get_insert, if_neg, hget]
      intro heq
      cases (heq ▸ hget).symm.trans hnone
    · intro name rm hrm hempty
      dsimp only at hrm
      rw [get_insert] at hrm
      split at hrm
      · rename_i hname
        cases hrm
        exact .inl ⟨_, rfl, hname.symm, rfl⟩
      · rw [hmembers] at hempty
        exact .inr ⟨hrm, hempty, by rintro ⟨⟩⟩
    · dsimp only
      rw [length_insert, hnone, h.active]
      rfl

variable {rm : Nat}

section

variable (h : Inv w)
include h

theorem inv_joinAssign (hcall : w.calls[k]? = some ⟨c, .joinAssign room rm⟩) :
    Inv (w.stepCall k ⟨c, .joinAssign room rm⟩) := by
  obtain ⟨hroom, hclient, hid, hname⟩ := h.phase _ (List.mem_of_getElem? hcall)
  rw [stepCall]
  dsimp only
  have hroomID := fun c' => @roomIDOf_insert c w c' room { w with
    roomIDs := w.roomIDs.insert c room
    calls := w.advance k c (some (.joinAdd room rm)) } rfl
  refine h.advance hcall (some _) rfl ⟨fun c' hc' => by rw [hroomID, if_neg hc'], fun _ _ _ => Iff.rfl, fun _ _ => Iff.rfl,
    fun _ _ hn => hn⟩ ?_ (fun _ _ hrm hold => absurd hrm hold) (fun _ _ _ _ hrm => hrm) ?_ ?_ h.active
  · rintro _ ⟨⟩
    exact ⟨hclient, by rw [hroomID, if_pos rfl], hname⟩
  · intro rm' hrm'
    rw [hroomID, if_pos rfl]
    refine ⟨?_, .inl hclient⟩
    rcases hid with hid | hid
    · exact absurd hrm' (h.notMem_of_roomID hid rm')
    · exact hid ▸ h.member c rm' hrm'
  · intro name rm' hrm' hempty
    by_cases hholds : room = name ∧ rm = rm'
    · exact .inl ⟨_, rfl, hholds⟩
    · exact .inr ⟨hrm', hempty, hholds⟩

/-- A client is added to the room that the hub has under the name. -/
theorem inv_joinAdd (hcall : w.calls[k]? = some ⟨c, .joinAdd room rm⟩)
    (hcurrent : w.rooms.get room = some rm) : Inv (w.stepCall k ⟨c, .joinAdd room rm⟩) := by
  obtain ⟨hclient, hid, hname⟩ := h.phase _ (List.mem_of_getElem? hcall)
  rw [stepCall]
  dsimp only
  have hmembers : ∀ c' rm', c' ∈ ({ w with
      heap := w.heap.modify rm (·.addClient c)
      calls := w.advance k c none } : Hub).members rm' ↔ c' ∈ w.members rm' ∨ (rm' = rm ∧ c' = c) := fun c' rm' =>
    mem_members_add rfl (by rw [hname]; rfl)
  refine h.advance hcall none rfl ⟨fun _ _ => rfl, fun c' hc' rm' => ?_, fun _ _ => Iff.rfl, fun rm' n hn => ?_⟩ nofun
    (fun _ _ hrm hold => absurd hrm hold) (fun _ _ _ _ hrm => hrm) ?_ ?_ h.active
  · rw [hmembers]
    exact or_iff_left fun hh => hc' hh.2
  · rw [← hn]
    exact nameOf_modify (fun r => name_addClient r) rfl
  · intro rm' hrm'
    refine ⟨?_, .inl hclient⟩
    rcases (hmembers c rm').1 hrm' with hrm' | ⟨rfl, -⟩
    · exact h.member c rm' hrm'
    · show w.rooms.get (w.roomIDOf c) = some rm'
      rw [hid, hcurrent]
  · intro name rm' hrm' hempty
    have hnone : ∀ c', ¬ (c' ∈ w.members rm' ∨ (rm' = rm ∧ c' = c)) := fun c' hc' => by
      have := (hmembers c' rm').2 hc'
      rw [hempty] at this
      exact nomatch this
    refine .inr ⟨hrm', List.eq_nil_iff_forall_not_mem.2 fun c' hc' => hnone c' (.inl hc'), ?_⟩
    exact fun hholds => hnone c (.inr ⟨hholds.2.symm, rfl⟩)

theorem inv_unregisterDelete (hcall : w.calls[k]? = some ⟨c, .unregisterDelete⟩) :
    Inv (w.stepCall k ⟨c, .unregisterDelete⟩) := by
  rw [stepCall]
  dsimp only
  refine h.advance hcall (some _) rfl ⟨fun _ _ => rfl, fun _ _ _ => Iff.rfl, fun c' hc' => ?_, fun _ _ hn => hn⟩ ?_
    (fun _ _ hrm hold => absurd hrm hold) (fun _ _ _ _ hrm => hrm) ?_ (fun _ _ hrm hempty => .inr ⟨hrm, hempty, nofun⟩)
    h.active
  · rw [List.mem_filter, decide_eq_true_iff]
    exact and_iff_left hc'
  · rintro _ ⟨⟩
    trivial
  · exact fun rm hrm => ⟨h.member c rm hrm, .inr ⟨_, rfl, trivial⟩⟩

theorem inv_leaveLookup (hcall : w.calls[k]? = some ⟨c, .leaveLookup room⟩) :
    Inv (w.stepCall k ⟨c, .leaveLookup room⟩) := by
  have hid : w.roomIDOf c = room := h.phase _ (List.mem_of_getElem? hcall)
  have hmember : ∀ rm, c ∈ w.members rm → w.rooms.get room = some rm := fun rm hrm => hid ▸ h.member c rm hrm
  rw [stepCall]
  dsimp only
  split
  · rename_i rm hrm
    refine h.proceed hcall ?_ (fun _ => .inr ⟨_, rfl, trivial⟩) (by rintro _ _ ⟨⟩)
    rintro _ ⟨⟩
    exact ⟨(h.named room rm hrm).2, fun rm' hrm' => Option.some.inj ((hmember rm' hrm').symm.trans hrm)⟩
  · rename_i hnone
    refine h.proceed hcall (by rintro _ ⟨⟩) (fun _ => .inl fun rm hrm => ?_) (by rintro _ _ ⟨⟩)
    cases (hmember rm hrm).symm.trans hnone

/-- A client is removed, and the call goes on to delete the room if it is empty. -/
theorem inv_leaveRemove (hcall : w.calls[k]? = some ⟨c, .leaveRemove room rm⟩) :
    Inv (w.stepCall k ⟨c, .leaveRemove room rm⟩) := by
  obtain ⟨hname, honly⟩ := h.phase _ (List.mem_of_getElem? hcall)
  obtain ⟨r, hr, hroom⟩ := Option.map_eq_some_iff.1 hname
  rw [stepCall]
  dsimp only
  rw [hr, Option.getD_some]
  generalize hnext : (if (r.removeClient c).2 = true then CallPhase.leaveDelete room rm else .leaveReset) = next
  have hmembers : ∀ c' rm', c' ∈ ({ w with
      heap := w.heap.modify rm fun r => (r.removeClient c).1
      calls := w.advance k c (some next) } : Hub).members rm' ↔ c' ∈ w.members rm' ∧ ¬ (rm' = rm ∧ c' = c) :=
    fun c' rm' => mem_members_remove rfl
  have hnone : ∀ rm', c ∉ ({ w with
      heap := w.heap.modify rm fun r => (r.removeClient c).1
      calls := w.advance k c (some next) } : Hub).members rm' := fun rm' hrm' =>
    ((hmembers c rm').1 hrm').2 ⟨honly rm' ((hmembers c rm').1 hrm').1, rfl⟩
  have hnames : ∀ rm', ({ w with
      heap := w.heap.modify rm fun r => (r.removeClient c).1
      calls := w.advance k c (some next) } : Hub).nameOf rm' = w.nameOf rm' := fun rm' =>
    @nameOf_modify w _ rm rm' (fun r => (r.removeClient c).1) (fun _ => rfl) rfl
  refine h.advance hcall (some _) rfl ⟨fun _ _ => rfl, fun c' hc' rm' => ?_, fun _ _ => Iff.rfl, fun rm' n hn => ?_⟩ ?_
    (fun _ _ hrm hold => absurd hrm hold) (fun _ _ _ _ hrm => hrm) (fun rm' hrm' => absurd hrm' (hnone rm')) ?_ h.active
  · rw [hmembers]
    exact and_iff_left fun hh => hc' hh.2
  · rw [hnames, hn]
  · rintro _ ⟨⟩
    by_cases hlast : (r.removeClient c).2 = true
    · rw [if_pos hlast] at hnext
      subst hnext
      exact ⟨(hnames rm).trans hname, hnone⟩
    · rw [if_neg hlast] at hnext
      subst hnext
      exact hnone
  · intro name rm' hrm' hempty
    by_cases hsame : rm' = rm
    · -- the room that this call has emptied
      subst hsame
      have hrest : (r.removeClient c).2 = true := by
        have hmodify : (w.heap.modify rm' fun r => (r.removeClient c).1)[rm']? = some (r.removeClient c).1 := by
          rw [List.getElem?_modify_eq, hr]
          rfl
        rw [members] at hempty
        dsimp only at hempty
        rw [hmodify] at hempty
        exact List.isEmpty_iff.2 hempty
      rw [hrest, if_pos rfl] at hnext
      have hnamed := (h.named name rm' hrm').2
      rw [hname] at hnamed
      exact .inl ⟨next, rfl, hnext ▸ ⟨Option.some.inj hnamed, rfl⟩⟩
    · refine .inr ⟨hrm', List.eq_nil_iff_forall_not_mem.2 fun c' hc' => ?_, nofun⟩
      have := (hmembers c' rm').2 ⟨hc', fun hh => hsame hh.1⟩
      rw [hempty] at this
      exact nomatch this

/-- An empty room is deleted. -/
theorem inv_leaveDelete (hcall : w.calls[k]? = some ⟨c, .leaveDelete room rm⟩)
    (hcurrent : w.members rm = [] → w.rooms.get room = some rm) : Inv (w.stepCall k ⟨c, .leaveDelete room rm⟩) := by
  obtain ⟨-, hnone⟩ := h.phase _ (List.mem_of_getElem? hcall)
  rw [stepCall]
  dsimp only
  split
  · rename_i hempty
    have hempty := List.isEmpty_iff.1 hempty
    have hget := hcurrent hempty
    refine h.advance hcall (some _) rfl ⟨fun _ _ => rfl, fun _ _ _ => Iff.rfl, fun _ _ => Iff.rfl, fun _ _ hn => hn⟩ ?_ ?_ ?_
      (fun rm' hrm' => absurd hrm' (hnone rm')) ?_ ?_
    · rintro _ ⟨⟩
      exact hnone
    · intro name rm' hrm' hold
      dsimp only at hrm'
      rw [get_erase] at hrm'
      split at hrm'
      · exact nomatch hrm'
      · exact absurd hrm' hold
    · intro c' _ rm' hc' hget'
      dsimp only
      rw [get_erase, if_neg, hget']
      intro heq
      rw [heq, hget] at hget'
      cases hget'
      rw [hempty] at hc'
      exact nomatch hc'
    · intro name rm' hrm' hempty'
      dsimp only at hrm'
      rw [get_erase] at hrm'
      split at hrm'
      · exact nomatch hrm'
      · rename_i hne
        exact .inr ⟨hrm', hempty', fun hholds => hne hholds.1.symm⟩
    · have hlength := length_erase_of_get hget
      have hactive := h.active
      dsimp only
      omega
  · rename_i hempty
    refine h.proceed hcall ?_ nofun ?_
    · rintro _ ⟨⟩
      exact hnone
    · rintro name rm' ⟨-, rfl⟩ hnil
      exact hempty (List.isEmpty_iff.2 hnil)

theorem inv_leaveReset (hcall : w.calls[k]? = some ⟨c, .leaveReset⟩) :
    Inv (w.stepCall k ⟨c, .leaveReset⟩) := by
  have hnone : ∀ rm, c ∉ w.members rm := h.phase _ (List.mem_of_getElem? hcall)
  rw [stepCall]
  dsimp only
  refine h.advance hcall none rfl ⟨fun c' hc' => ?_, fun _ _ _ => Iff.rfl, fun _ _ => Iff.rfl, fun _ _ hn => hn⟩ nofun
    (fun _ _ hrm hold => absurd hrm hold) (fun _ _ _ _ hrm => hrm) (fun rm hrm => absurd hrm (hnone rm))
    (fun _ _ hrm hempty => .inr ⟨hrm, hempty, nofun⟩) h.active
  rw [@roomIDOf_insert c w c' "" _ rfl, if_neg hc']

theorem inv_begin (hfree : w.Free c) (hok : w.PhaseOk c phase) :
    Inv (w.begin c phase) := by
  refine ⟨?_, h.named, h.member, ?_, ?_, ?_, h.active⟩
  · rw [begin, List.map_append, List.map_singleton]
    refine List.nodup_append.2 ⟨h.solo, List.nodup_singleton _, fun a ha b hb heq => ?_⟩
    obtain ⟨call, hcall, rfl⟩ := List.mem_map.1 ha
    exact hfree call hcall (heq.trans (List.mem_singleton.1 hb))
  · intro call hcall
    rcases List.mem_append.1 hcall with hcall | hcall
    · have hold := h.phase call hcall
      cases hphase : call.phase <;> rw [hphase] at hold <;> exact hold
    · rw [List.mem_singleton.1 hcall]
      cases phase <;> exact hok
  · intro c' rm hrm
    exact (h.registered c' rm hrm).imp id fun ⟨call, hcall, hh⟩ => ⟨call, List.mem_append_left _ hcall, hh⟩
  · intro name rm hrm hempty
    obtain ⟨call, hcall, hh⟩ := h.held name rm hrm hempty
    exact ⟨call, List.mem_append_left _ hcall, hh⟩

/-- Every orderly step keeps the invariant. -/
theorem inv_step {op : HubOp} (hok : w.Orderly op) (hstep : step w op = some w') : Inv w' := by
  cases op with
  | register c =>
    cases hstep
    exact inv_begin h hok trivial
  | joinRoom c room =>
    cases hstep
    exact inv_begin h hok.1 hok.2
  | leaveRoom c =>
    cases hstep
    exact inv_begin h hok trivial
  | unregister c =>
    cases hstep
    exact inv_begin h hok trivial
  | step k =>
    rw [step] at hstep
    split at hstep
    · rename_i call hcall
      cases hstep
      obtain ⟨c, phase⟩ := call
      have hcurrent : w.Current phase := hok _ hcall
      cases phase with
      | register => exact inv_register h hcall
      | joinLookup room => exact inv_joinLookup h hcall
      | joinAssign room rm => exact inv_joinAssign h hcall
      | joinAdd room rm => exact inv_joinAdd h hcall hcurrent
      | unregisterDelete => exact inv_unregisterDelete h hcall
      | unregisterCheck =>
        rw [stepCall]
        dsimp only
        split
        · refine h.proceed hcall ?_ (fun _ => .inr ⟨_, rfl, trivial⟩) nofun
          rintro _ ⟨⟩
          trivial
        · rename_i hroom
          exact h.proceed hcall nofun (fun _ => .inl (h.notMem_of_roomID (not_not.1 hroom))) nofun
      | leaveStart =>
        rw [stepCall]
        refine h.proceed hcall ?_ (fun _ => .inr ⟨_, rfl, trivial⟩) nofun
        rintro _ ⟨⟩
        rfl
      | leaveLookup room => exact inv_leaveLookup h hcall
      | leaveRemove room rm => exact inv_leaveRemove h hcall
      | leaveDelete room rm => exact inv_leaveDelete h hcall hcurrent
      | leaveReset => exact inv_leaveReset h hcall
    · exact nomatch hstep

end

end Steps

/-- **Membership is consistent in the orderly runs**, whenever no call is in progress. -/
theorem settles_of_orderly {maxConns : Int} {w : Hub} (h : ReachableIf step Orderly (new maxConns) w) : w.Settles := by
  have hnone : ∀ rm, (new maxConns).members rm = [] := fun rm => rfl
  have hinit : Inv (new maxConns) := by
    refine ⟨List.nodup_nil, nofun, fun c rm hrm => ?_, nofun, fun c rm hrm => ?_, nofun, rfl⟩
    all_goals
      rw [hnone] at hrm
      exact nomatch hrm
  exact (h.invariant (I := Inv) hinit fun _ _ _ _ hw hok hstep => inv_step hw hok hstep).settles

/-- Two clients that join one room at the same time; one leaves it while the other one is added, and unregisters. -/
theorem settles_of_orderly_two : ∃ w : Hub, w.clients = ["b"] ∧ w.members 0 = ["b"] ∧ w.activeRooms = 1 ∧
    w.calls = [] ∧ w.Settles := by
  have hrun : (execIf step (fun w op => decide (Orderly w op)) (new 2)
      [.register "a", .step 0, .register "b", .step 0, .joinRoom "a" "r", .joinRoom "b" "r", .step 0, .step 0, .step 0,
        .leaveRoom "a", .step 0, .step 1, .step 1, .step 1, .step 0, .step 0, .step 0, .step 0, .unregister "a",
        .step 0, .step 0]).map
        (fun w => decide (w.clients = ["b"] ∧ w.members 0 = ["b"] ∧ w.activeRooms = 1 ∧ w.calls = [])) = some true := by
    rfl
  obtain ⟨w, hw, hfacts⟩ := Option.map_eq_some_iff.1 hrun
  obtain ⟨hclients, hmembers, hactive, hcalls⟩ := of_decide_eq_true hfacts
  exact ⟨w, hclients, hmembers, hactive, hcalls,
    settles_of_orderly (ReachableIf.init.execIf (fun _ _ => of_decide_eq_true) hw)⟩

/-- **A client that joins a second room stays in the first one.** -/
theorem member_of_two_rooms : ¬ ∀ maxConns w, Reachable step (new maxConns) w → w.Settles := by
  intro h
  have hrun : (exec step (new 0) [.register "a", .step 0, .joinRoom "a" "r", .step 0, .step 0, .step 0,
      .joinRoom "a" "s", .step 0, .step 0, .step 0]).map (fun w => decide
        (w.calls = [] ∧ "a" ∈ w.clients ∧ "a" ∈ w.members 0 ∧ "a" ∈ w.members 1)) = some true := by
    rfl
  obtain ⟨w, hw, hfacts⟩ := Option.map_eq_some_iff.1 hrun
  obtain ⟨hcalls, hclient, hfirst, hsecond⟩ := of_decide_eq_true hfacts
  have hmember := (h 0 w (reachable_of_exec hw) hcalls).member "a" hclient
  exact absurd (Option.some.inj ((hmember 0 hfirst).symm.trans (hmember 1 hsecond))) (by decide)

end Hub

end SystemDesignLabs.WebsocketGateway
