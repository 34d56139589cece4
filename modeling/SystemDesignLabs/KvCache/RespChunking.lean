import SystemDesignLabs.Core.Fallible
import SystemDesignLabs.KvCache.RespParser

/-!
# The RESP connection loop and the boundaries of reads

A connection should dispatch the same commands and send the same responses however its bytes are cut into
reads, and never panic (`ChunkIndependent`). Commands that arrive in order do not depend on the cuts
(`reads_of_no_message`), but a malformed frame does: the buffer is cleared, and then as many bytes as the
commands of the read took are drained from it, which panics (`joined_frame_panics`); and what is cleared
is the rest of the read, not of the frame, so that bytes behind it are discarded or not
(`differs_of_near`). A stream without these, and without numbers out of range, is treated alike
(`independent_of_calm`); conversely a stream that is treated alike is one of those, unless no `\r\n` can be
reached behind the malformed frame (`calm_of_independent`).
-/

namespace SystemDesignLabs.KvCache

open List Core Connection

variable {clock : Nat → Nat}

/-! ### One read -/

/-- The commands are dispatched one after the other. -/
def serveAll (clock : Nat → Nat) (session : Session) (cmds : List (List String)) :
    Except Panic Session :=
  cmds.foldlM (Session.serve clock) session

/-- What the inner loop does where no command is in front. -/
def leave (buf rest : List UInt8) (session : Session) : Except Panic (Connection × Nat) :=
  match parseCommand rest with
  | .error (.message msg) => .ok (⟨[], session.report msg⟩, buf.length - rest.length)
  | .error .capacityOverflow => .error .capacityOverflow
  | _ => .ok (⟨buf, session⟩, buf.length - rest.length)

/-- The inner loop dispatches the commands in front of the buffer. -/
theorem parseLoop_eq {n pos : Nat} {buf rest : List UInt8} {session : Session}
    {cmds : List (List String)} (h : Items parseCommand (buf.drop pos) cmds rest)
    (hpos : pos ≤ buf.length) (hfuel : buf.length - pos ≤ n) :
    parseLoop clock n ⟨buf, session⟩ pos = (serveAll clock session cmds).bind (leave buf rest) := by
  induction n generalizing pos session cmds with
  | zero =>
    have hnil : buf.drop pos = [] := drop_eq_nil_of_le (by omega)
    rw [hnil] at h
    cases h with
    | stop _ =>
      show _ = Except.ok _
      rw [length_nil, Nat.sub_zero, show pos = buf.length by omega]
      rfl
    | item hp _ => cases hp
  | succ n ih =>
    cases h with
    | stop hstop =>
      have hend : buf.length - (buf.drop pos).length = pos := by
        rw [length_drop]
        omega
      show parseLoop clock (n + 1) ⟨buf, session⟩ pos = leave buf (buf.drop pos) session
      rw [parseLoop, leave, hend]
      dsimp only
      split
      · rename_i hp
        exact absurd hp (hstop _ _)
      · rename_i hp
        rw [hp]
      · rename_i hp
        rw [hp]
      · rename_i hp
        rw [hp]
    | @item _ _ cmd consumed cmds hp ht =>
      have hconsumed := parseCommand_incremental.consumes _ _ _ hp
      rw [length_drop] at hconsumed
      rw [drop_drop] at ht
      rw [parseLoop]
      dsimp only
      rw [hp]
      dsimp only
      rw [serveAll, foldlM_cons]
      cases hserve : session.serve clock cmd with
      | error e => rfl
      | ok session' =>
        show parseLoop clock n ⟨buf, session'⟩ (pos + consumed) = _
        rw [ih ht (by omega) (by omega)]
        rfl

/-- What a read ends in, after its commands. The clearing of the buffer and the draining of its front
clash. -/
def settle (cmds : List (List String)) (rest : List UInt8) (session : Session) :
    Except Panic Connection :=
  match parseCommand rest with
  | .error (.message msg) =>
    if cmds = [] then .ok ⟨[], session.report msg⟩ else .error .drainOutOfRange
  | .error .capacityOverflow => .error .capacityOverflow
  | _ => .ok ⟨rest, session⟩

/-- One read dispatches the commands that it completes. -/
theorem onRead_eq {c : Connection} {bytes rest : List UInt8} {cmds : List (List String)}
    (h : Items parseCommand (c.buf ++ bytes) cmds rest) :
    c.onRead clock bytes = (serveAll clock c.session cmds).bind (settle cmds rest) := by
  have hloop := @parseLoop_eq clock (c.buf ++ bytes).length 0 (c.buf ++ bytes) rest c.session cmds h
    (Nat.zero_le _) (Nat.sub_le _ _)
  rw [onRead]
  rw [hloop]
  cases serveAll clock c.session cmds with
  | error e => rfl
  | ok session =>
    obtain ⟨front, hfront⟩ := h.exists_front
    have hlen := congrArg length hfront
    have hsplit : (front ++ rest).length = front.length + rest.length := length_append
    rw [hsplit] at hlen
    have hdrop : (c.buf ++ bytes).drop ((c.buf ++ bytes).length - rest.length) = rest := by
      rw [hlen, Nat.add_sub_cancel, hfront, drop_left]
    have hzero : cmds = [] → rest = c.buf ++ bytes := by
      rintro rfl
      cases h with
      | stop _ => rfl
    have hpos : cmds ≠ [] → rest.length < (c.buf ++ bytes).length :=
      h.length_lt parseCommand_incremental
    -- where no command was dispatched nothing is drained
    have hdrained : ∀ session : Session,
        (if 0 < (c.buf ++ bytes).length - rest.length then drain ⟨c.buf ++ bytes, session⟩ ((c.buf ++
          bytes).length - rest.length) else .ok ⟨c.buf ++ bytes, session⟩) = .ok ⟨rest, session⟩ := by
      intro session
      by_cases hcmds : cmds = []
      · rw [hzero hcmds, Nat.sub_self, if_neg (Nat.lt_irrefl 0)]
      · have hlt := hpos hcmds
        rw [if_pos (by omega), drain, if_pos (Nat.sub_le _ _), hdrop]
    show (leave (c.buf ++ bytes) rest session).bind _ = settle cmds rest session
    rw [leave, settle]
    cases parseCommand rest with
    | complete cmd n => exact hdrained session
    | incomplete => exact hdrained session
    | error e =>
      cases e with
      | capacityOverflow => rfl
      | message msg =>
        dsimp only
        by_cases hcmds : cmds = []
        · rw [if_pos hcmds, hzero hcmds, Nat.sub_self]
          rfl
        · have hlt := hpos hcmds
          rw [if_neg hcmds]
          show (if 0 < (c.buf ++ bytes).length - rest.length then _ else _) = _
          rw [if_pos (by omega), drain]
          exact if_neg (by rw [length_nil]; omega)

/-! ### Runs of reads -/

/-- The reads between which the bytes of a stream arrive: at most 1024 bytes each. -/
structure Reads (stream : List UInt8) (reads : List (List UInt8)) : Prop where
  flatten : reads.flatten = stream
  size : ∀ r ∈ reads, r ≠ [] ∧ r.length ≤ 1024

theorem serveAll_append {session : Session} {cmds cmds' : List (List String)} : serveAll clock session (cmds ++ cmds')
      = (serveAll clock session cmds).bind fun session => serveAll clock session cmds' :=
  foldlM_append

section Runs

variable {buf rest : List UInt8} {cmds : List (List String)} {session : Session}
  {reads : List (List UInt8)}

/-- What a read leaves: the commands it completes, and a buffer at whose front no command is. Either the
buffer is incomplete, and the rest of the stream completes the rest of the commands, or the frame at
its front is malformed, and it is the one at which the commands of the stream end. -/
theorem exists_read (r later : List UInt8)
    (h : Items parseCommand (buf ++ (r ++ later)) cmds rest) : ∃ cmds₁ buf₁, Items parseCommand (buf ++ r) cmds₁ buf₁ ∧
      ((parseCommand buf₁ = .incomplete ∧
          ∃ cmds₂, cmds = cmds₁ ++ cmds₂ ∧ Items parseCommand (buf₁ ++ later) cmds₂ rest) ∨
        ∃ e, parseCommand buf₁ = .error e ∧ parseCommand rest = .error e ∧ cmds = cmds₁ ∧ rest = buf₁ ++ later) := by
  obtain ⟨cmds₁, buf₁, hfirst⟩ := exists_items parseCommand_incremental (buf ++ r)
  refine ⟨cmds₁, buf₁, hfirst, ?_⟩
  rw [← append_assoc] at h
  cases hp : parseCommand buf₁ with
  | complete cmd n => exact absurd hp (hfirst.stuck _ _)
  | incomplete =>
    left
    obtain ⟨cmds₂, rest', hrest⟩ := exists_items parseCommand_incremental (buf₁ ++ later)
    obtain ⟨rfl, rfl⟩ := h.unique (hfirst.extend parseCommand_incremental hrest)
    exact ⟨rfl, cmds₂, rfl, hrest⟩
  | error e =>
    right
    have hfails := parseCommand_incremental.failure _ _ hp later
    have hstop : Items parseCommand (buf₁ ++ later) [] (buf₁ ++ later) :=
      .stop fun a n => by rw [hfails]; exact nofun
    obtain ⟨rfl, rfl⟩ := h.unique (hfirst.extend parseCommand_incremental hstop)
    exact ⟨e, rfl, hfails, (append_nil _), rfl⟩

theorem settle_incomplete (h : parseCommand rest = .incomplete) : settle cmds rest session = .ok ⟨rest, session⟩ := by
  rw [settle, h]

theorem settle_congr (hok : ∀ msg, parseCommand rest ≠ .error (.message msg))
    (cmds' : List (List String)) : settle cmds rest = settle cmds' rest := by
  funext session
  rw [settle, settle]
  split
  · rename_i msg hp
    exact absurd hp (hok msg)
  · rfl
  · rfl

/-- Without a malformed frame the boundaries of the reads do not matter: the commands of the stream
are dispatched in order. -/
theorem reads_of_no_message (h : Items parseCommand (buf ++ reads.flatten) cmds rest)
    (hbuf : parseCommand buf = .incomplete) (hok : ∀ msg, parseCommand rest ≠ .error (.message msg)) :
    reads.foldlM (Connection.onRead clock) ⟨buf, session⟩ = (serveAll clock session cmds).bind (settle cmds rest) := by
  induction reads generalizing buf session cmds with
  | nil =>
    rw [flatten_nil, append_nil] at h
    cases h with
    | stop _ => exact (settle_incomplete hbuf).symm
    | item hp _ =>
      rw [hbuf] at hp
      cases hp
  | cons r reads ih =>
    rw [flatten_cons] at h
    obtain ⟨cmds₁, buf₁, hfirst, hcase⟩ := exists_read r reads.flatten h
    rw [foldlM_cons, onRead_eq hfirst]
    rcases hcase with ⟨hincomplete, cmds₂, rfl, hrest⟩ | ⟨e, he, hend, rfl, -⟩
    · rw [serveAll_append, settle_congr hok cmds₂]
      cases serveAll clock session cmds₁ with
      | error e => rfl
      | ok session' =>
        show (settle cmds₁ buf₁ session').bind _ = (serveAll clock session' cmds₂).bind _
        rw [settle_incomplete hincomplete]
        exact ih hrest hincomplete
    · cases e with
      | message msg => exact absurd hend (hok msg)
      | capacityOverflow =>
        cases serveAll clock session cmds with
        | error e => rfl
        | ok session' =>
          show (settle cmds buf₁ session').bind _ = settle cmds rest session'
          rw [settle, settle, he, hend]
          rfl

theorem reads_of_no_crlf (h : crlfPosition (buf ++ reads.flatten) = none) :
    ∃ buf', reads.foldlM (Connection.onRead clock) ⟨buf, session⟩ = .ok ⟨buf', session⟩ := by
  have hincomplete := parseCommand_eq_incomplete h
  have hbuf : parseCommand buf = .incomplete := by
    by_contra hne
    rw [parseCommand_incremental.stable hne] at hincomplete
    exact hne hincomplete
  have hstop : Items parseCommand (buf ++ reads.flatten) [] (buf ++ reads.flatten) :=
    .stop fun a n => by rw [hincomplete]; exact nofun
  rw [reads_of_no_message hstop hbuf fun msg => by rw [hincomplete]; exact nofun]
  exact ⟨_, settle_incomplete hincomplete⟩

/-- A malformed frame is harmless when no read joins it to a command, and no `\r\n` comes after it. -/
theorem reads_of_message {front back : List UInt8} {msg : String}
    (h : Items parseCommand (buf ++ reads.flatten) cmds (front ++ back)) (hbuf : parseCommand buf = .incomplete)
    (hfails : FailsAt parseCommand front (.message msg)) (hback : crlfPosition back = none)
    (hsize : ∀ r ∈ reads, r.length ≤ 1024) (halone : cmds = [] ∨ 1024 ≤ front.length) :
    (reads.foldlM (Connection.onRead clock) ⟨buf, session⟩).map Connection.session
      = (serveAll clock session cmds).map fun session => session.report msg := by
  induction reads generalizing buf session cmds with
  | nil =>
    have hend := parseCommand_incremental.failure _ _ hfails.fails back
    rw [flatten_nil, append_nil] at h
    cases h with
    | stop _ =>
      rw [hbuf] at hend
      cases hend
    | item hp _ =>
      rw [hbuf] at hp
      cases hp
  | cons r reads ih =>
    obtain ⟨hr, hsize⟩ := forall_mem_cons.1 hsize
    rw [flatten_cons] at h
    obtain ⟨cmds₁, buf₁, hfirst, hcase⟩ := exists_read r reads.flatten h
    rw [foldlM_cons, onRead_eq hfirst]
    rcases hcase with ⟨hincomplete, cmds₂, rfl, hrest⟩ | ⟨e, he, hend, rfl, hsplit⟩
    · have halone' : cmds₂ = [] ∨ 1024 ≤ front.length :=
        halone.imp_left fun hnil => (append_eq_nil_iff.1 hnil).2
      rw [serveAll_append]
      cases serveAll clock session cmds₁ with
      | error e => rfl
      | ok session' =>
        show Except.map _ ((settle cmds₁ buf₁ session').bind _)
          = (serveAll clock session' cmds₂).map _
        rw [settle_incomplete hincomplete]
        exact ih hrest hincomplete hsize halone'
    · rw [parseCommand_incremental.failure _ _ hfails.fails back] at hend
      cases hend
      -- the read ends the malformed frame
      have hfront : front <+: buf₁ := by
        rcases prefix_or_prefix_of_prefix (prefix_append front back)
          (hsplit ▸ prefix_append buf₁ reads.flatten) with hle | hge
        · exact hle
        · by_cases heq : buf₁ = front
          · rw [heq]
          · rw [hfails.before _ hge heq] at he
            cases he
      obtain ⟨discarded, rfl⟩ := hfront
      rw [append_assoc] at hsplit
      have hlater : crlfPosition reads.flatten = none := by
        have hdrop := crlfPosition_drop hback discarded.length
        rwa [append_cancel_left hsplit, drop_left] at hdrop
      have hnone : cmds = [] := by
        by_contra hne
        have hlt := hfirst.length_lt_of_incomplete parseCommand_incremental hbuf hne
        rw [length_append] at hlt
        have hlarge := halone.resolve_left hne
        omega
      subst hnone
      show Except.map _ ((settle [] (front ++ discarded) session).bind _) = Except.ok _
      rw [settle, he]
      dsimp only
      obtain ⟨buf', hrun⟩ := @reads_of_no_crlf clock [] (session.report msg) reads hlater
      show Except.map _ (reads.foldlM (onRead clock) ⟨[], session.report msg⟩) = _
      rw [hrun]
      rfl

end Runs

/-! ### Independence of the boundaries -/

/-- Whatever the boundaries of the reads, the connection does not panic and does the same. -/
def ChunkIndependent (clock : Nat → Nat) (server : Server) (stream : List UInt8) : Prop :=
  ∀ reads reads', Reads stream reads → Reads stream reads' →
    ∃ c c', handleConnection clock server reads = .ok c ∧
      handleConnection clock server reads' = .ok c' ∧ c.session.events = c'.session.events

/-- The commands of a stream end in a malformed frame that cannot be joined to a command by a read and
that no `\r\n` follows. -/
def EndsIsolated (cmds : List (List String)) (rest : List UInt8) : Prop :=
  ∃ front back msg, rest = front ++ back ∧ FailsAt parseCommand front (.message msg) ∧
    crlfPosition back = none ∧ (cmds = [] ∨ 1024 ≤ front.length)

/-- No command of the stream panics in `dispatch`, no array is announced with more elements than a vector
can hold, and there is no malformed frame but an isolated one at the end. -/
def CalmStream (clock : Nat → Nat) (server : Server) (stream : List UInt8) : Prop :=
  ∃ cmds rest, Items parseCommand stream cmds rest ∧
    (∃ session, serveAll clock (Connection.accepted server).session cmds = .ok session) ∧
    (parseCommand rest = .incomplete ∨ EndsIsolated cmds rest)

/-- The first `\r\n` after a malformed frame is too far for one read. -/
def FarCrlf (stream : List UInt8) : Prop :=
  ∃ cmds front back msg pos, Items parseCommand stream cmds (front ++ back) ∧
    FailsAt parseCommand front (.message msg) ∧ crlfPosition back = some pos ∧ 1021 < pos

section Independence

variable {server : Server} {stream : List UInt8}

variable {cmds : List (List String)} {reads : List (List UInt8)}

theorem handle_of_no_message {rest : List UInt8} (h : Items parseCommand stream cmds rest)
    (hreads : Reads stream reads) (hok : ∀ msg, parseCommand rest ≠ .error (.message msg)) :
    handleConnection clock server reads
      = (serveAll clock (Connection.accepted server).session cmds).bind (settle cmds rest) := by
  rw [← hreads.flatten] at h
  exact reads_of_no_message h rfl hok

variable {front back : List UInt8} {msg : String}

theorem handle_of_message (h : Items parseCommand stream cmds (front ++ back)) (hreads : Reads stream reads)
    (hfails : FailsAt parseCommand front (.message msg)) (hback : crlfPosition back = none)
    (halone : cmds = [] ∨ 1024 ≤ front.length) : (handleConnection clock server reads).map Connection.session
      = (serveAll clock (Connection.accepted server).session cmds).map fun s => s.report msg := by
  rw [← hreads.flatten] at h
  exact reads_of_message h rfl hfails hback (fun r hr => (hreads.size r hr).2) halone

/-- A calm stream is treated alike however it is cut. -/
theorem independent_of_calm (h : CalmStream clock server stream) : ChunkIndependent clock server stream := by
  obtain ⟨cmds, rest, hitems, ⟨session, hserve⟩, hend⟩ := h
  -- all reads lead to the same session
  have hsame : ∃ final : Session, ∀ reads, Reads stream reads →
      ∃ buf, handleConnection clock server reads = .ok ⟨buf, final⟩ := by
    rcases hend with hincomplete | ⟨front, back, msg, rfl, hfails, hback, halone⟩
    · refine ⟨session, fun reads hreads => ⟨rest, ?_⟩⟩
      rw [handle_of_no_message hitems hreads fun msg => by rw [hincomplete]; exact nofun, hserve]
      exact settle_incomplete hincomplete
    · refine ⟨session.report msg, fun reads hreads => ?_⟩
      have hrun := @handle_of_message clock server _ _ _ _ _ _ hitems hreads hfails hback halone
      rw [hserve] at hrun
      cases hc : handleConnection clock server reads with
      | error e =>
        rw [hc] at hrun
        cases hrun
      | ok c =>
        rw [hc] at hrun
        have hfinal : c.session = session.report msg := Except.ok.inj hrun
        exact ⟨c.buf, congrArg (fun s => Except.ok (mk c.buf s)) hfinal⟩
  obtain ⟨final, hsame⟩ := hsame
  intro reads reads' hreads hreads'
  obtain ⟨buf, hrun⟩ := hsame reads hreads
  obtain ⟨buf', hrun'⟩ := hsame reads' hreads'
  exact ⟨_, _, hrun, hrun', rfl⟩

/-! The other direction: the reads that show the difference. -/

/-- A stream in reads of one byte. -/
def singles (s : List UInt8) : List (List UInt8) :=
  s.map fun b => [b]

theorem singles_flatten (s : List UInt8) : (singles s).flatten = s := by
  induction s with
  | nil => rfl
  | cons b s ih =>
    show b :: (singles s).flatten = b :: s
    rw [ih]

theorem reads_singles (s : List UInt8) : Reads s (singles s) := by
  refine ⟨singles_flatten s, fun r hr => ?_⟩
  obtain ⟨b, -, rfl⟩ := mem_map.1 hr
  exact ⟨cons_ne_nil b [], by rw [length_singleton]; omega⟩

theorem reads_join {x y : List UInt8} {middle : List (List UInt8)} (hmiddle : ∀ r ∈ middle, r ≠ [] ∧ r.length ≤ 1024) :
    Reads (x ++ (middle.flatten ++ y)) (singles x ++ (middle ++ singles y)) := by
  constructor
  · rw [flatten_append, flatten_append, singles_flatten, singles_flatten]
  · intro r hr
    rcases mem_append.1 hr with hr | hr
    · exact (reads_singles x).size r hr
    · rcases mem_append.1 hr with hr | hr
      · exact hmiddle r hr
      · exact (reads_singles y).size r hr

theorem handle_singles_append {x buf : List UInt8} (h : Items parseCommand x cmds buf)
    (hbuf : parseCommand buf = .incomplete) (tail : List (List UInt8)) :
    handleConnection clock server (singles x ++ tail)
      = (serveAll clock (Connection.accepted server).session cmds).bind fun session =>
          tail.foldlM (Connection.onRead clock) ⟨buf, session⟩ := by
  have hall : Items parseCommand ([] ++ (singles x).flatten) cmds buf := by
    rwa [nil_append, singles_flatten]
  have hrun := @reads_of_no_message clock [] buf cmds (accepted server).session (singles x)
    hall rfl fun msg => by rw [hbuf]; exact nofun
  rw [handleConnection, foldlM_append]
  show ((singles x).foldlM (onRead clock) ⟨[], (accepted server).session⟩).bind _
    = _
  rw [hrun]
  cases serveAll clock (accepted server).session cmds with
  | error e => rfl
  | ok session =>
    show (settle cmds buf session).bind _ = _
    rw [settle_incomplete hbuf]
    rfl

theorem panics_of_joined (h : Items parseCommand stream cmds (front ++ back))
    (hfails : FailsAt parseCommand front (.message msg)) (hcmds : cmds ≠ []) (hshort : front.length < 1024) :
    ∃ reads, Reads stream reads ∧ ∀ c, handleConnection clock server reads ≠ .ok c := by
  obtain ⟨P, hP⟩ := h.exists_front
  have hne : P ≠ [] := by
    rintro rfl
    have hlt := h.length_lt parseCommand_incremental hcmds
    rw [hP, nil_append] at hlt
    exact Nat.lt_irrefl _ hlt
  obtain ⟨P', b, rfl⟩ : ∃ P' b, P = P' ++ [b] := ⟨_, _, (dropLast_concat_getLast hne).symm⟩
  have hstream : stream = P' ++ ([b :: front].flatten ++ back) := by
    rw [hP, flatten_singleton, append_assoc]
    rfl
  refine ⟨singles P' ++ ([b :: front] ++ singles back), ?_, ?_⟩
  · rw [hstream]
    refine reads_join fun r hr => ?_
    rw [mem_singleton.1 hr]
    exact ⟨cons_ne_nil _ _, hshort⟩
  · intro c hc
    rw [hstream, flatten_singleton] at h
    -- before the last byte of the last command
    obtain ⟨cmds₁, buf₁, hfirst, hcase⟩ := @exists_read [] _ _ P' (b :: front ++ back) h
    rw [nil_append] at hfirst
    rcases hcase with ⟨hbuf₁, cmds₂, rfl, hrest⟩ | ⟨e, -, -, -, hend⟩
    · rw [handle_singles_append hfirst hbuf₁] at hc
      obtain ⟨session, -, hc⟩ := bind_eq_ok.1 hc
      rw [cons_append, nil_append, foldlM_cons] at hc
      obtain ⟨c₁, hread, -⟩ := bind_eq_ok.1 hc
      -- the read that ends the last command and the frame
      obtain ⟨cmds₃, buf₃, hjoined, hcase⟩ := exists_read (b :: front) back hrest
      rcases hcase with ⟨hbuf₃, cmds₄, -, hlater⟩ | ⟨e, he, -, rfl, hend⟩
      · by_cases hcmds₄ : cmds₄ = []
        · subst hcmds₄
          have hfront : front = buf₃ := append_cancel_right hlater.eq_of_nil
          rw [← hfront, hfails.fails] at hbuf₃
          cases hbuf₃
        · have hlt := hlater.length_lt_of_incomplete parseCommand_incremental hbuf₃ hcmds₄
          rw [length_append] at hlt
          omega
      · have hfront : front = buf₃ := append_cancel_right hend
        subst hfront
        have hsome : cmds₂ ≠ [] := by
          rintro rfl
          have hlen := congrArg length hrest.eq_of_nil
          rw [length_append, length_append, length_append, length_cons] at hlen
          omega
        rw [onRead_eq hjoined] at hread
        obtain ⟨session', -, hread⟩ := bind_eq_ok.1 hread
        rw [settle, hfails.fails] at hread
        dsimp only at hread
        rw [if_neg hsome] at hread
        cases hread
    · have hlen := congrArg length hend
      rw [length_append, length_append, length_append, length_cons] at hlen
      omega

variable {s s' : Session}

theorem serveAll_length (h : serveAll clock s cmds = .ok s') : s'.events.length = s.events.length + cmds.length := by
  induction cmds generalizing s with
  | nil =>
    cases h
    rfl
  | cons cmd cmds ih =>
    rw [serveAll, foldlM_cons] at h
    obtain ⟨s₁, hs₁, h⟩ := bind_eq_ok.1 h
    have hone : s₁.events.length = s.events.length + 1 := by
      rw [Session.serve] at hs₁
      cases hd : dispatch (clock s.dispatched) s.server cmd with
      | error e =>
        rw [hd] at hs₁
        cases hs₁
      | ok r =>
        rw [hd] at hs₁
        cases hs₁
        rw [length_append, length_singleton]
    rw [ih h, hone, length_cons]
    omega

theorem settle_length {c c' : Connection} {rest : List UInt8} (h : settle cmds rest s = .ok c)
    (h' : settle cmds rest s' = .ok c') : c.buf = c'.buf ∧
      c.session.events.length + s'.events.length = c'.session.events.length + s.events.length := by
  rw [settle] at h h'
  cases hp : parseCommand rest with
  | complete cmd n =>
    rw [hp] at h h'
    cases h
    cases h'
    exact ⟨rfl, Nat.add_comm _ _⟩
  | incomplete =>
    rw [hp] at h h'
    cases h
    cases h'
    exact ⟨rfl, Nat.add_comm _ _⟩
  | error e =>
    rw [hp] at h h'
    cases e with
    | capacityOverflow => cases h
    | message msg =>
      dsimp only at h h'
      by_cases hcmds : cmds = []
      · rw [if_pos hcmds] at h h'
        cases h
        cases h'
        refine ⟨rfl, ?_⟩
        rw [Session.report, Session.report, length_append, length_append]
        omega
      · rw [if_neg hcmds] at h
        cases h

theorem events_length {buf : List UInt8} {c c' : Connection}
    (h : reads.foldlM (Connection.onRead clock) ⟨buf, s⟩ = .ok c)
    (h' : reads.foldlM (Connection.onRead clock) ⟨buf, s'⟩ = .ok c') :
    c.session.events.length + s'.events.length = c'.session.events.length + s.events.length := by
  induction reads generalizing buf s s' with
  | nil =>
    cases h
    cases h'
    exact Nat.add_comm _ _
  | cons r reads ih =>
    rw [foldlM_cons] at h h'
    obtain ⟨c₁, hread, h⟩ := bind_eq_ok.1 h
    obtain ⟨c₁', hread', h'⟩ := bind_eq_ok.1 h'
    obtain ⟨cmds, rest, hitems⟩ := exists_items parseCommand_incremental (buf ++ r)
    rw [onRead_eq hitems] at hread hread'
    obtain ⟨s₁, hserve, hsettle⟩ := bind_eq_ok.1 hread
    obtain ⟨s₁', hserve', hsettle'⟩ := bind_eq_ok.1 hread'
    obtain ⟨hbuf, hlen⟩ := settle_length hsettle hsettle'
    have hstart : c₁' = ⟨c₁.buf, c₁'.session⟩ := by rw [hbuf]
    rw [hstart] at h'
    have hlater := ih h h'
    have hcount : s₁.events.length = s.events.length + cmds.length := serveAll_length hserve
    have hcount' : s₁'.events.length = s'.events.length + cmds.length := serveAll_length hserve'
    omega

theorem differs_of_near {pos : Nat} (h : Items parseCommand stream cmds (front ++ back))
    (hfails : FailsAt parseCommand front (.message msg)) (hback : crlfPosition back = some pos)
    (hnear : pos ≤ 1021) : ¬ ChunkIndependent clock server stream := by
  intro hsame
  obtain ⟨P, hP⟩ := h.exists_front
  have hne : front ≠ [] := by
    rintro rfl
    cases hfails.fails
  obtain ⟨f, b, rfl⟩ : ∃ f b, front = f ++ [b] := ⟨_, _, (dropLast_concat_getLast hne).symm⟩
  obtain ⟨Q, R, rfl, rfl⟩ := exists_of_crlfPosition hback
  have hbefore : parseCommand f = .incomplete := by
    refine hfails.before f (prefix_append _ _) fun heq => ?_
    have hlen := congrArg length heq
    rw [length_append, length_singleton] at hlen
    omega
  -- before the last byte of the frame all commands have been dispatched
  have hframe : f ++ [b] ++ (Q ++ 13 :: 10 :: R) = f ++ b :: (Q ++ 13 :: 10 :: R) := by
    rw [append_assoc]
    rfl
  rw [hframe] at h hP
  have hfirst : Items parseCommand (P ++ f) cmds f := by
    rw [hP, ← append_assoc] at h
    obtain ⟨cmds₁, buf₁, hfirst, hcase⟩ := @exists_read [] _ _ (P ++ f) (b :: (Q ++ 13 :: 10 :: R)) h
    rw [nil_append] at hfirst
    rcases hcase with ⟨hincomplete, cmds₂, rfl, hrest⟩ | ⟨e, he, -, -, hend⟩
    · by_cases hcmds₂ : cmds₂ = []
      · subst hcmds₂
        have hbuf : f = buf₁ := append_cancel_right hrest.eq_of_nil
        rw [append_nil]
        rwa [← hbuf] at hfirst
      · have hlt := hrest.length_lt_of_incomplete parseCommand_incremental hincomplete hcmds₂
        rw [length_append] at hlt
        omega
    · have hbuf : f = buf₁ := append_cancel_right hend
      rw [← hbuf, hbefore] at he
      cases he
  -- the read with the last byte of the frame discards what comes after it
  have hdiscard : ∀ (x : List UInt8) (s : Session),
      onRead clock ⟨f, s⟩ (b :: x) = .ok ⟨[], s.report msg⟩ := by
    intro x s
    have herror : parseCommand (f ++ b :: x) = .error (.message msg) := by
      have hmore := parseCommand_incremental.failure _ _ hfails.fails x
      rwa [append_assoc] at hmore
    have hstop : Items parseCommand (f ++ b :: x) [] (f ++ b :: x) :=
      .stop fun a n => by rw [herror]; exact nofun
    rw [onRead_eq hstop]
    show settle [] (f ++ b :: x) s = _
    rw [settle, herror]
    rfl
  have hreads : Reads stream (singles (P ++ f) ++ ([b :: (Q ++ [13, 10])] ++ singles R)) := by
    have hjoin := @reads_join (P ++ f) R [b :: (Q ++ [13, 10])] fun r hr => by
      rw [mem_singleton.1 hr, length_cons, length_append]
      exact ⟨cons_ne_nil _ _, by simp only [length_cons, length_nil]; omega⟩
    rw [flatten_singleton] at hjoin
    rw [hP, ← append_assoc]
    simpa using hjoin
  have hreads' : Reads stream (singles (P ++ f) ++ ([b :: Q, [13, 10]] ++ singles R)) := by
    have hjoin := @reads_join (P ++ f) R [b :: Q, [13, 10]] fun r hr => by
      rcases mem_pair.1 hr with rfl | rfl
      · exact ⟨cons_ne_nil _ _, by rw [length_cons]; omega⟩
      · exact ⟨cons_ne_nil _ _, by decide⟩
    rw [hP, ← append_assoc]
    simpa using hjoin
  obtain ⟨c, c', hrun, hrun', hevents⟩ := hsame _ _ hreads hreads'
  rw [handle_singles_append hfirst hbefore] at hrun hrun'
  obtain ⟨s, hserve, hrun⟩ := bind_eq_ok.1 hrun
  obtain ⟨s', hserve', hrun'⟩ := bind_eq_ok.1 hrun'
  obtain rfl : s = s' := Except.ok.inj (hserve.symm.trans hserve')
  rw [cons_append, nil_append, foldlM_cons, hdiscard] at hrun
  rw [cons_append, cons_append, nil_append, foldlM_cons, hdiscard] at hrun'
  -- or else the bytes left are an empty command
  have hempty : Items parseCommand ([] ++ [13, 10]) [[]] [] := by
    refine .item (n := 2) (by rfl) (.stop fun a n => ?_)
    exact nofun
  change (singles R).foldlM (onRead clock) ⟨[], s.report msg⟩ = .ok c at hrun
  change ([13, 10] :: singles R).foldlM (onRead clock) ⟨[], s.report msg⟩ = .ok c' at hrun'
  rw [foldlM_cons, onRead_eq hempty] at hrun'
  obtain ⟨c₁, hread, hrun'⟩ := bind_eq_ok.1 hrun'
  obtain ⟨s₁, hserve₁, hsettle⟩ := bind_eq_ok.1 hread
  rw [settle_incomplete rfl] at hsettle
  cases hsettle
  have hcount : s₁.events.length = (s.report msg).events.length + 1 := serveAll_length hserve₁
  have hlen := events_length hrun hrun'
  rw [hevents] at hlen
  omega

/-- A stream that is treated alike however it is cut is calm, but for the streams whose next `\r\n`
after a malformed frame is out of reach of one read. -/
theorem calm_of_independent (h : ChunkIndependent clock server stream) :
    CalmStream clock server stream ∨ FarCrlf stream := by
  obtain ⟨cmds, rest, hitems⟩ := exists_items parseCommand_incremental stream
  obtain ⟨c, -, hrun, -⟩ := h _ _ (reads_singles stream) (reads_singles stream)
  cases hp : parseCommand rest with
  | complete cmd n => exact absurd hp (hitems.stuck _ _)
  | incomplete =>
    left
    rw [handle_of_no_message hitems (reads_singles stream) fun msg => by rw [hp]; exact nofun] at hrun
    obtain ⟨session, hserve, -⟩ := bind_eq_ok.1 hrun
    exact ⟨cmds, rest, hitems, ⟨session, hserve⟩, .inl hp⟩
  | error e =>
    cases e with
    | capacityOverflow =>
      rw [handle_of_no_message hitems (reads_singles stream) fun msg => by rw [hp]; exact nofun]
        at hrun
      obtain ⟨session, -, hsettle⟩ := bind_eq_ok.1 hrun
      rw [settle, hp] at hsettle
      cases hsettle
    | message msg =>
      obtain ⟨front, back, rfl, hfails⟩ := exists_failsAt parseCommand_incremental hp
      by_cases halone : cmds = [] ∨ 1024 ≤ front.length
      · cases hback : crlfPosition back with
        | none =>
          left
          have hsession := @handle_of_message clock server _ _ _ _ _ _ hitems
            (reads_singles stream) hfails hback halone
          rw [hrun] at hsession
          cases hserve : serveAll clock (accepted server).session cmds with
          | error e =>
            rw [hserve] at hsession
            cases hsession
          | ok session =>
            exact ⟨cmds, front ++ back, hitems, ⟨session, hserve⟩, .inr ⟨front, back, msg, rfl, hfails, hback, halone⟩⟩
        | some pos =>
          rcases Nat.lt_or_ge 1021 pos with hfar | hnear
          · exact .inr ⟨cmds, front, back, msg, pos, hitems, hfails, hback, hfar⟩
          · exact absurd h (differs_of_near hitems hfails hback hnear)
      · obtain ⟨hcmds, hshort⟩ := not_or.1 halone
        obtain ⟨reads, hreads, hpanic⟩ :=
          @panics_of_joined clock server _ _ _ _ _ hitems hfails hcmds (by omega)
        obtain ⟨c', -, hrun', -⟩ := h _ _ hreads hreads
        exact absurd hrun' (hpanic c')

end Independence

end SystemDesignLabs.KvCache
