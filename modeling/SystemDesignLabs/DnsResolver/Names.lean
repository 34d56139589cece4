import SystemDesignLabs.DnsResolver.Resolver

/-!
# What `parseName` decodes

A packet is a graph: `place` is what stands at an offset, and `Hop` leads from a label to what is behind it and from a
pointer to where it points. `Met` walks along this graph to a root label and says which labels are met, and where the
name ends in line. The loop of `parseName` follows the same walk (`parseNameLoop_spec`), so that it reports a loop only
where the walk has no end.
-/

namespace SystemDesignLabs.DnsResolver

open List Option

open Relation (ReflTransGen TransGen)

/-! ### The graph of a packet -/

/-- What stands at an offset of a packet; `outside` is a label or pointer that is not whole. -/
inductive Place where
  | outside
  | root
  | label (label : Name) (next : Nat)
  | pointer (target : Nat)

def place (buf : List UInt8) (offset : Nat) : Place :=
  match buf[offset]? with
  | none => .outside
  | some n =>
    if n = 0 then .root
    else if n &&& 0xC0 = 0xC0 then
      if offset + 1 < buf.length then .pointer (be16 buf offset &&& 0x3FFF).toNat else .outside
    else if offset + 1 + n.toNat ≤ buf.length then .label ((buf.drop (offset + 1)).take n.toNat) (offset + 1 + n.toNat)
    else .outside

/-- One label or pointer is followed. -/
inductive Hop (buf : List UInt8) (o : Nat) : Nat → Prop where
  | label {l : Name} {next : Nat} (h : place buf o = .label l next) : Hop buf o next
  | pointer {target : Nat} (h : place buf o = .pointer target) : Hop buf o target

/-- From `o` a label or pointer can always be followed, so that no root label is ever reached. -/
def Endless (buf : List UInt8) (o : Nat) : Prop :=
  ∀ o', ReflTransGen (Hop buf) o o' → ∃ o'', Hop buf o' o''

/-- The walk from an offset reaches a root label: the labels that are met, and the offset just after the first pointer
or root label in line. -/
inductive Met (buf : List UInt8) : Nat → List Name → Nat → Prop where
  | root {o : Nat} (h : place buf o = .root) : Met buf o [] (o + 1)
  | label {o o' next : Nat} {l : Name} {labels : List Name} (h : place buf o = .label l o')
      (hrest : Met buf o' labels next) : Met buf o (l :: labels) next
  | pointer {o target next : Nat} {labels : List Name} (h : place buf o = .pointer target)
      (hrest : Met buf target labels next) : Met buf o labels (o + 2)

/-- The labels joined by dots, with the dot at the end. -/
def dotted (labels : List Name) : Name := [dot].intercalate labels ++ [dot]

variable {buf : List UInt8}

theorem Hop.unique {o a b : Nat} (ha : Hop buf o a) (hb : Hop buf o b) : a = b := by
  cases ha <;> cases hb <;> simp_all

variable {labels : List Name}

theorem Met.hop {o o' next : Nat} (h : Met buf o labels next) (hhop : Hop buf o o') :
    ∃ labels' next', Met buf o' labels' next' := by
  cases h with
  | root h => cases hhop <;> simp_all
  | label h hrest => exact ⟨_, _, hhop.unique (.label h) ▸ hrest⟩
  | pointer h hrest => exact ⟨_, _, hhop.unique (.pointer h) ▸ hrest⟩

theorem Met.inside {o o' next : Nat} (h : Met buf o labels next) (hreach : ReflTransGen (Hop buf) o o') :
    place buf o' ≠ .outside := by
  have hmet : ∃ labels' next', Met buf o' labels' next' := by
    induction hreach with
    | refl => exact ⟨_, _, h⟩
    | tail _ hhop ih =>
      obtain ⟨_, _, hmet⟩ := ih
      exact hmet.hop hhop
  obtain ⟨_, _, hmet⟩ := hmet
  cases hmet <;> simp_all

variable {o next : Nat}

theorem Met.not_endless (h : Met buf o labels next) : ¬ Endless buf o := by
  intro hendless
  induction h with
  | root h =>
    obtain ⟨_, hhop⟩ := hendless _ .refl
    cases hhop <;> simp_all
  | label h _ ih => exact ih fun o' ho' => hendless o' (.head (.label h) ho')
  | pointer h _ ih => exact ih fun o' ho' => hendless o' (.head (.pointer h) ho')

theorem Met.unique {next' : Nat} {labels' : List Name} (h : Met buf o labels next)
    (h' : Met buf o labels' next') : labels = labels' ∧ next = next' := by
  induction h generalizing labels' next' with
  | root h => cases h' <;> simp_all
  | label h _ ih =>
    cases h' with
    | label h' hrest' =>
      rw [h] at h'
      cases h'
      obtain ⟨rfl, rfl⟩ := ih hrest'
      exact ⟨rfl, rfl⟩
    | root h' | pointer h' _ =>
      rw [h] at h'
      cases h'
  | pointer h _ ih =>
    cases h' with
    | pointer h' hrest' =>
      rw [h] at h'
      cases h'
      exact ⟨(ih hrest').1, rfl⟩
    | root h' | label h' _ =>
      rw [h] at h'
      cases h'

theorem endless_of_cycle (h : TransGen (Hop buf) o o) : Endless buf o := by
  have hcycle : ∀ o', ReflTransGen (Hop buf) o o' → TransGen (Hop buf) o' o := by
    intro o' hreach
    induction hreach with
    | refl => exact h
    | tail _ hhop ih =>
      obtain ⟨c, hc, hrest⟩ := Relation.TransGen.head'_iff.1 ih
      obtain rfl := hhop.unique hc
      exact Relation.TransGen.trans_right hrest h
  intro o' hreach
  obtain ⟨c, hc, -⟩ := Relation.TransGen.head'_iff.1 (hcycle o' hreach)
  exact ⟨c, hc⟩

theorem Endless.of_hop {o' : Nat} (hhop : Hop buf o o') (h : Endless buf o') : Endless buf o := by
  intro a ha
  rcases Relation.ReflTransGen.cases_head ha with rfl | ⟨b, hb, hrest⟩
  · exact ⟨o', hhop⟩
  · exact h a (hb.unique hhop ▸ hrest)

/-! ### The loop -/

theorem parseNameLoop_succ (rounds : Nat) {s : NameState} (hnew : s.offset ∉ s.visited) : match place buf s.offset with
    | .outside => ∃ e, e ≠ .compressionLoop ∧ parseNameLoop buf (rounds + 1) s = some (.error e)
    | .root => parseNameLoop buf (rounds + 1) s =
        some (.ok (s.name ++ [dot], if s.followedPointer then s.nextOffset else s.offset + 1))
    | .label l next => parseNameLoop buf (rounds + 1) s = parseNameLoop buf rounds
        { s with name := appendLabel s.name l, visited := s.offset :: s.visited, offset := next }
    | .pointer target => parseNameLoop buf (rounds + 1) s = parseNameLoop buf rounds
        { s with visited := s.offset :: s.visited, followedPointer := true, offset := target
                 nextOffset := if s.followedPointer then s.nextOffset else s.offset + 2 } := by
  rw [place, parseNameLoop, getD_eq_getElem?_getD]
  by_cases hin : s.offset < buf.length
  · rw [getElem?_eq_getElem hin, if_neg (Nat.not_le.2 hin), if_neg hnew, getD_some]
    dsimp only
    by_cases hzero : buf[s.offset] = 0
    · simp only [hzero, ↓reduceIte]
    · by_cases htop : buf[s.offset] &&& 0xC0 = 0xC0
      · by_cases hlt : s.offset + 1 < buf.length
        · simp only [hzero, htop, hlt, Nat.not_le.2 hlt, ↓reduceIte]
        · simp only [hzero, htop, hlt, Nat.le_of_not_lt hlt, ↓reduceIte]
          exact ⟨.pointerTruncated, by rintro ⟨⟩, rfl⟩
      · by_cases hle : s.offset + 1 + buf[s.offset].toNat ≤ buf.length
        · simp only [hzero, htop, hle, Nat.not_lt.2 hle, ↓reduceIte]
        · simp only [hzero, htop, hle, Nat.lt_of_not_le hle, ↓reduceIte]
          exact ⟨.labelBeyondPacket, by rintro ⟨⟩, rfl⟩
  · rw [getElem?_eq_none (Nat.le_of_not_lt hin), if_pos (Nat.le_of_not_lt hin)]
    exact ⟨.nameBeyondPacket, by rintro ⟨⟩, rfl⟩

/-- How the loop may end, where its walk is from an offset on: the walk has no end, or reaches a root label, or leaves
the packet. -/
theorem parseNameLoop_spec (rounds : Nat) {s : NameState} {r : Except ParseError (Name × Nat)}
    (h : parseNameLoop buf rounds s = some r) (hvisited : ∀ v ∈ s.visited, TransGen (Hop buf) v s.offset) :
    (r = .error .compressionLoop ∧ Endless buf s.offset) ∨ (∃ labels next, Met buf s.offset labels next ∧
        r = .ok (labels.foldl appendLabel s.name ++ [dot], if s.followedPointer then s.nextOffset else next)) ∨
      ∃ e o, r = .error e ∧ e ≠ .compressionLoop ∧ ReflTransGen (Hop buf) s.offset o ∧ place buf o = .outside := by
  induction rounds generalizing s with
  | zero => cases h
  | succ rounds ih =>
    by_cases hnew : s.offset ∈ s.visited
    · have hendless := endless_of_cycle (hvisited _ hnew)
      rw [parseNameLoop] at h
      split at h
      · next hout =>
        refine .inr (.inr ⟨_, s.offset, (some.inj h).symm, by rintro ⟨⟩, .refl, ?_⟩)
        rw [place, getElem?_eq_none hout]
      · exact .inl ⟨(some.inj h).symm, hendless⟩
    · -- the round goes on behind the label, or where the pointer points
      have hgo : ∀ s' : NameState, Hop buf s.offset s'.offset → s'.visited = s.offset :: s.visited →
          ∀ v ∈ s'.visited, TransGen (Hop buf) v s'.offset := by
        intro s' hhop hs' v hv
        rw [hs'] at hv
        rcases mem_cons.1 hv with rfl | hv
        · exact .single hhop
        · exact (hvisited v hv).tail hhop
      have hround := @parseNameLoop_succ buf rounds s hnew
      cases hplace : place buf s.offset with
      | outside =>
        rw [hplace] at hround
        obtain ⟨e, he, hround⟩ := hround
        exact .inr (.inr ⟨e, s.offset, some.inj (h.symm.trans hround), he, .refl, hplace⟩)
      | root =>
        rw [hplace] at hround
        exact .inr (.inl ⟨[], s.offset + 1, .root hplace, some.inj (h.symm.trans hround)⟩)
      | label l next =>
        rw [hplace] at hround
        rcases ih (hround.symm.trans h) (hgo _ (.label hplace) rfl) with ⟨hr, hend⟩ | ⟨labels, last, hmet, hr⟩ |
          ⟨e, o, hr, he, hreach, ho⟩
        · exact .inl ⟨hr, hend.of_hop (.label hplace)⟩
        · exact .inr (.inl ⟨l :: labels, last, .label hplace hmet, hr⟩)
        · exact .inr (.inr ⟨e, o, hr, he, .head (.label hplace) hreach, ho⟩)
      | pointer target =>
        rw [hplace] at hround
        rcases ih (hround.symm.trans h) (hgo _ (.pointer hplace) rfl) with ⟨hr, hend⟩ | ⟨labels, last, hmet, hr⟩ |
          ⟨e, o, hr, he, hreach, ho⟩
        · exact .inl ⟨hr, hend.of_hop (.pointer hplace)⟩
        · exact .inr (.inl ⟨labels, _, .pointer hplace hmet, hr⟩)
        · exact .inr (.inr ⟨e, o, hr, he, .head (.pointer hplace) hreach, ho⟩)

theorem ne_nil_of_place {l : Name} (h : place buf o = .label l next) : l ≠ [] := by
  rw [place] at h
  split at h
  · cases h
  · next n _ =>
    split_ifs at h with hzero _ _ hle
    cases h
    have hpos : n.toNat ≠ 0 := fun hn => hzero (UInt8.toNat_inj.1 hn)
    apply ne_nil_of_length_pos
    rw [length_take, length_drop]
    omega

theorem Met.ne_nil (h : Met buf o labels next) : ∀ l ∈ labels, l ≠ [] := by
  induction h with
  | root => exact nofun
  | label h _ ih => exact forall_mem_cons.2 ⟨ne_nil_of_place h, ih⟩
  | pointer _ _ ih => exact ih

theorem foldl_appendLabel {name : Name} (hname : name ≠ []) :
    labels.foldl appendLabel name = name ++ labels.flatMap (dot :: ·) := by
  induction labels generalizing name with
  | nil => exact (append_nil name).symm
  | cons l labels ih =>
    rw [foldl_cons, appendLabel, if_pos (length_pos_of_ne_nil hname), ih (by simp), flatMap_cons,
      append_assoc]

theorem intercalate_cons (l : Name) (labels : List Name) :
    [dot].intercalate (l :: labels) = l ++ labels.flatMap (dot :: ·) := by
  induction labels generalizing l with
  | nil => simp
  | cons l' labels ih =>
    rw [intercalate_cons_cons, ih, flatMap_cons, append_assoc]
    rfl

theorem foldl_appendLabel_nil (h : ∀ l ∈ labels, l ≠ []) : labels.foldl appendLabel [] = [dot].intercalate labels := by
  cases labels with
  | nil => rfl
  | cons l labels =>
    rw [foldl_cons, intercalate_cons]
    exact foldl_appendLabel (h l mem_cons_self)

theorem parseName_spec (buf : List UInt8) (o : Nat) : (parseName buf o = .error .compressionLoop ∧ Endless buf o) ∨
      (∃ labels next, Met buf o labels next ∧ parseName buf o = .ok (dotted labels, next)) ∨
      ∃ e o', parseName buf o = .error e ∧ e ≠ .compressionLoop ∧ ReflTransGen (Hop buf) o o' ∧
        place buf o' = .outside := by
  obtain ⟨r, hr⟩ := ne_none_iff_exists'.1 (parseName_ne_none buf o)
  have hspec := parseNameLoop_spec _ hr nofun
  rw [parseName, hr, getD_some]
  refine hspec.imp id (Or.imp ?_ id)
  rintro ⟨labels, next, hmet, rfl⟩
  exact ⟨labels, next, hmet, by rw [foldl_appendLabel_nil hmet.ne_nil]; rfl⟩

/-! ### Ranges -/

/-- `buf[i:j]`; `none` where Go panics. -/
def slice (buf : List UInt8) (i j : Nat) : Option Name :=
  if i ≤ j ∧ j ≤ buf.length then some ((buf.drop i).take (j - i)) else none

/-- The loop of `parseName` with every access checked: `none` where one is out of range, too. -/
def parseNameChecked (buf : List UInt8) : Nat → NameState → Option (Except ParseError (Name × Nat))
  | 0, _ => none
  | rounds + 1, s =>
    if buf.length ≤ s.offset then some (.error .nameBeyondPacket)
    else if s.offset ∈ s.visited then some (.error .compressionLoop)
    else
      let visited := s.offset :: s.visited
      buf[s.offset]?.bind fun labelLen =>
        if labelLen = 0 then some (.ok (s.name ++ [dot], if s.followedPointer then s.nextOffset else s.offset + 1))
        else if labelLen &&& 0xC0 = 0xC0 then
          if buf.length ≤ s.offset + 1 then some (.error .pointerTruncated)
          else (slice buf s.offset (s.offset + 2)).bind fun ptr =>
            parseNameChecked buf rounds
              { name := s.name
                visited := visited
                followedPointer := true
                nextOffset := if s.followedPointer then s.nextOffset else s.offset + 2
                offset := (be16 ptr 0 &&& 0x3FFF).toNat }
        else if buf.length < s.offset + 1 + labelLen.toNat then some (.error .labelBeyondPacket)
        else (slice buf (s.offset + 1) (s.offset + 1 + labelLen.toNat)).bind fun label =>
          parseNameChecked buf rounds
            { s with name := appendLabel s.name label, visited := visited, offset := s.offset + 1 + labelLen.toNat }

/-- No access is out of range. -/
theorem parseNameChecked_eq (buf : List UInt8) (rounds : Nat) (s : NameState) :
    parseNameChecked buf rounds s = parseNameLoop buf rounds s := by
  induction rounds generalizing s with
  | zero => rfl
  | succ rounds ih =>
    rw [parseNameChecked, parseNameLoop, getD_eq_getElem?_getD]
    split
    · rfl
    · next hin =>
      split
      · rfl
      · have hin := Nat.lt_of_not_le hin
        rw [getElem?_eq_getElem hin, getD_some, bind_some]
        dsimp only
        split
        · rfl
        · split
          · split
            · rfl
            · next hlt =>
              have hptr : be16 ((buf.drop s.offset).take (s.offset + 2 - s.offset)) 0 = be16 buf s.offset := by
                simp [be16, getD_eq_getElem?_getD]
              rw [slice, if_pos ⟨by omega, by omega⟩, bind_some, ih, hptr]
          · split
            · rfl
            · next hle =>
              rw [slice, if_pos ⟨by omega, by omega⟩, bind_some, ih, Nat.add_sub_cancel_left]

/-! ### Names that are written -/

def appendName (buf : List UInt8) (name : Name) : List UInt8 :=
  let n := if name.getLast? = some dot then name.dropLast else name
  if n = [] then buf ++ [0]
  else buf ++ (n.splitOn dot).flatMap (fun label => UInt8.ofNat label.length :: label) ++ [0]

/-- A label that can be written: 1 to 63 bytes without a dot. -/
def Plain (label : Name) : Prop := 0 < label.length ∧ label.length ≤ 63 ∧ dot ∉ label

/-- The bytes of a name. -/
def wire (labels : List Name) : List UInt8 :=
  labels.flatMap (fun label => UInt8.ofNat label.length :: label) ++ [0]

theorem appendName_dotted (h : ∀ l ∈ labels, Plain l) (buf : List UInt8) :
    appendName buf (dotted labels) = buf ++ wire labels := by
  rw [appendName, dotted, getLast?_concat, if_pos rfl, dropLast_concat]
  cases labels with
  | nil => rfl
  | cons l labels =>
    have hne : [dot].intercalate (l :: labels) ≠ [] := by
      rw [intercalate_cons]
      exact append_ne_nil_of_left_ne_nil (ne_nil_of_length_pos (h l mem_cons_self).1) _
    rw [if_neg hne, splitOn_intercalate dot (fun l hl => (h l hl).2.2) (cons_ne_nil _ _), append_assoc]
    rfl

theorem met_wire (h : ∀ l ∈ labels, Plain l) (front rest : List UInt8) :
    Met (front ++ (wire labels ++ rest)) front.length labels (front.length + (wire labels).length) := by
  induction labels generalizing front with
  | nil =>
    apply Met.root
    rw [place, getElem?_append_right (Nat.le_refl _), Nat.sub_self]
    rfl
  | cons l labels ih =>
    obtain ⟨⟨hpos, hle, -⟩, hlabels⟩ := forall_mem_cons.1 h
    have hsplit : front ++ (wire (l :: labels) ++ rest) =
        (front ++ UInt8.ofNat l.length :: l) ++ (wire labels ++ rest) := by
      simp [wire, flatMap_cons]
    have hlen : front.length + (wire (l :: labels)).length =
        (front ++ UInt8.ofNat l.length :: l).length + (wire labels).length := by
      simp only [wire, flatMap_cons, length_append, length_cons]
      omega
    have hrest := ih hlabels (front ++ UInt8.ofNat l.length :: l)
    rw [hsplit, hlen]
    refine .label ?_ hrest
    have hnat : (UInt8.ofNat l.length).toNat = l.length := UInt8.toNat_ofNat_of_lt' (Nat.lt_of_le_of_lt hle (by decide))
    have hzero : UInt8.ofNat l.length ≠ 0 := fun heq => by
      rw [heq] at hnat
      exact absurd hnat (Nat.ne_of_lt hpos)
    have htop : ∀ k : Fin 64, UInt8.ofNat k.val &&& 0xC0 ≠ 0xC0 := by decide
    rw [place, append_assoc, getElem?_append_right (Nat.le_refl _), Nat.sub_self]
    show (if UInt8.ofNat l.length = 0 then _ else _) = _
    rw [if_neg hzero, if_neg (htop ⟨l.length, by omega⟩), hnat, if_pos, length_append, length_cons]
    · congr 1
      · rw [← drop_drop, drop_left]
        exact take_left
      · omega
    · simp only [length_append, length_cons]
      omega

/-! ### The result -/

/-- **`parseName` is total and right.** Its loop ends, with every access in range. A loop is only reported where no root
label is ever reached. Otherwise, if the walk stays inside of the packet, the labels that are met are returned, and
the offset just behind the first pointer or root label in line. What `appendName` writes is read back. -/
theorem parseName_correct (buf : List UInt8) (o : Nat) :
    (parseNameChecked buf (buf.length + 1) ⟨[], [], false, o, o⟩ = some (parseName buf o)) ∧
      (parseName buf o = .error .compressionLoop → Endless buf o) ∧
      (¬ Endless buf o → (∀ o', ReflTransGen (Hop buf) o o' → place buf o' ≠ .outside) →
        ∃ labels next, Met buf o labels next ∧ parseName buf o = .ok (dotted labels, next)) ∧
      ∀ labels rest, (∀ l ∈ labels, Plain l) →
        parseName (appendName buf (dotted labels) ++ rest) buf.length =
          .ok (dotted labels, (appendName buf (dotted labels)).length) := by
  refine ⟨?_, ?_, ?_, ?_⟩
  · obtain ⟨r, hr⟩ := ne_none_iff_exists'.1 (parseName_ne_none buf o)
    rw [parseNameChecked_eq, parseName, hr]
    exact hr
  · intro hloop
    rcases parseName_spec buf o with ⟨-, hend⟩ | ⟨_, _, -, hok⟩ | ⟨e, _, he, hne, -⟩
    · exact hend
    · exact nomatch hloop.symm.trans hok
    · exact absurd (Except.error.inj (he.symm.trans hloop)) hne
  · intro hend hinside
    rcases parseName_spec buf o with ⟨-, hend'⟩ | hok | ⟨_, o', -, -, hreach, hout⟩
    · exact absurd hend' hend
    · exact hok
    · exact absurd hout (hinside o' hreach)
  · intro labels rest hplain
    have hmet := met_wire hplain buf rest
    rw [appendName_dotted hplain, append_assoc, length_append]
    rcases parseName_spec (buf ++ (wire labels ++ rest)) buf.length with ⟨-, hend⟩ | ⟨_, _, hmet', hok⟩ |
      ⟨_, o', -, -, hreach, hout⟩
    · exact absurd hend hmet.not_endless
    · obtain ⟨rfl, rfl⟩ := hmet.unique hmet'
      exact hok
    · exact absurd hout (hmet.inside hreach)

end SystemDesignLabs.DnsResolver
