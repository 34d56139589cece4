import SystemDesignLabs.Core.CountMap
import SystemDesignLabs.Core.Encodings
import SystemDesignLabs.Core.Splice

/-!
# The byte-pair encoding tokenizers

`BPETokenizer` learns merge rules from a training text and encodes a text by applying all rules in the
order they were learned. `GPT2BPETokenizer` has the same fields and learns and encodes within the
pre-tokens that the pattern's `findall` splits a text into; its functions have `findall` as a parameter.
The training loop of both is `learn`, over a corpus that can count its pairs and apply a merge. It also
returns the corpus at its end, which the code leaves in a local variable.
-/

namespace SystemDesignLabs.Tokenizer

open Core

/-- Two neighbouring tokens, ordered as Python orders tuples. -/
abbrev TokenPair := Nat ×ₗ Nat

abbrev PairCounts := CountMap TokenPair

/-- What a call raises. -/
inductive Error where
  | valueError (message : String)
  | runtimeError (message : String)
  | keyError (key : Nat)
  deriving DecidableEq

structure BPETokenizer where
  merges : List (TokenPair × Nat)
  vocab : SortedMap Nat (List UInt8)
  mergeIndex : SortedMap TokenPair Nat
  trained : Bool
  deriving DecidableEq

/-! ### Helper functions -/

/-- `counts[(a, b)] += 1`. -/
def addPair (counts : PairCounts) (pair : TokenPair) : PairCounts :=
  SortedMap.insert counts pair (counts.count pair + 1)

/-- Count every adjacent pair in the token sequence, on top of what is counted. -/
def countInto (counts : PairCounts) : List Nat → PairCounts
  | a :: b :: ids => countInto (addPair counts (toLex (a, b))) (b :: ids)
  | _ => counts

/-- Count every adjacent pair in the token sequence. -/
def countPairs (ids : List Nat) : PairCounts := countInto SortedMap.empty ids

/-- Replace every non-overlapping occurrence of the pair by the new token. -/
def applyMerge (ids : List Nat) (pair : TokenPair) (newId : Nat) : List Nat :=
  replacePairs (ofLex pair).1 (ofLex pair).2 newId ids

/-- The most frequent pair, the largest one among equally frequent ones. -/
def bestPair (counts : PairCounts) : Option TokenPair :=
  (counts.entries.map Prod.fst).argmax fun pair => toLex (counts.count pair, pair)

/-- The ids of the bytes of a text. -/
def byteIds (text : String) : List Nat := (utf8Bytes text).map UInt8.toNat

/-! ### Training -/

/-- What the training loop does with the training text. -/
structure Corpus (S : Type) where
  countPairs : S → PairCounts
  applyMerge : S → TokenPair → Nat → S

/-- One token sequence. -/
def sequence : Corpus (List Nat) := ⟨countPairs, applyMerge⟩

/-- One token sequence for each pre-token: pairs never cross a boundary. -/
def tokenChunks : Corpus (List (List Nat)) where
  countPairs := fun chunks => chunks.foldl countInto SortedMap.empty
  applyMerge := fun chunks pair newId => chunks.map fun chunk => applyMerge chunk pair newId

namespace BPETokenizer

/-- The first `n` byte tokens. -/
def byteVocab (n : Nat) : SortedMap Nat (List UInt8) :=
  SortedMap.insertAll SortedMap.empty ((List.range n).map fun i => (i, [UInt8.ofNat i]))

/-- All 256 bytes and no merges. -/
def initial : BPETokenizer := ⟨[], byteVocab 256, SortedMap.empty, false⟩

/-- Record a merge; the new token stands for the bytes of its parents. -/
def record (tok : BPETokenizer) (pair : TokenPair) (newId : Nat) : Except Error BPETokenizer :=
  match tok.vocab.get (ofLex pair).1, tok.vocab.get (ofLex pair).2 with
  | some x, some y => .ok { tok with
      merges := tok.merges ++ [(pair, newId)]
      mergeIndex := tok.mergeIndex.insert pair newId
      vocab := tok.vocab.insert newId (x ++ y) }
  | some _, none => .error (.keyError (ofLex pair).2)
  | none, _ => .error (.keyError (ofLex pair).1)

/-- The training loop with `remaining` rounds to go. It ends early when no pair is left or none occurs
twice. -/
def learn {S : Type} (corpus : Corpus S) : Nat → Nat → BPETokenizer → S → Except Error (BPETokenizer × S)
  | 0, _, tok, s => .ok (tok, s)
  | remaining + 1, mergeStep, tok, s =>
    let pairCounts := corpus.countPairs s
    match bestPair pairCounts with
    | none => .ok (tok, s)
    | some best =>
      if pairCounts.count best < 2 then .ok (tok, s)
      else do
        let newId := 256 + mergeStep
        let tok ← tok.record best newId
        learn corpus remaining (mergeStep + 1) tok (corpus.applyMerge s best newId)

/-- The part that both `train` functions share, with the training text split up by `start`. Every field is
set anew, so it does not matter what was learned before. -/
def trainOn {S : Type} (corpus : Corpus S) (start : S) (vocabSize : Int) : Except Error (BPETokenizer × S) :=
  if vocabSize ≤ 256 then
    .error (.valueError ("vocab_size must be > 256, got " ++ toString vocabSize))
  else do
    let numMerges := (vocabSize - 256).toNat
    let (tok, s) ← learn corpus numMerges 0 initial start
    pure ({ tok with trained := true }, s)

/-- Learn merge rules from a text. The second part is the token sequence at the end of the loop. -/
def train (text : String) (vocabSize : Int) : Except Error (BPETokenizer × List Nat) :=
  trainOn sequence (byteIds text) vocabSize

/-! ### Encode and decode -/

/-- Apply every merge in training order. -/
def mergeAll (tok : BPETokenizer) (ids : List Nat) : List Nat :=
  tok.merges.foldl (fun ids rule => applyMerge ids rule.1 rule.2) ids

def encode (tok : BPETokenizer) (text : String) : Except Error (List Nat) :=
  if tok.trained then .ok (tok.mergeAll (byteIds text))
  else .error (.runtimeError "Call train() before encode()")

/-- The bytes of a token sequence; an unknown token has none. -/
def bytesOf (tok : BPETokenizer) (tokens : List Nat) : List UInt8 :=
  tokens.flatMap fun t => (tok.vocab.get t).getD []

def decode (tok : BPETokenizer) (tokens : List Nat) : Except Error String :=
  if tok.trained then .ok (decodeReplace (tok.bytesOf tokens))
  else .error (.runtimeError "Call train() before decode()")

end BPETokenizer

/-- The same fields, with other functions. -/
abbrev GPT2BPETokenizer := BPETokenizer

namespace GPT2BPETokenizer

variable (findall : String → List String)

/-- Learn merge rules within the pre-tokens of a text. The second part are the token sequences at the end of
the loop. -/
def train (text : String) (vocabSize : Int) : Except Error (GPT2BPETokenizer × List (List Nat)) :=
  BPETokenizer.trainOn tokenChunks ((findall text).map byteIds) vocabSize

/-- Apply every merge in training order within each pre-token. -/
def encode (tok : GPT2BPETokenizer) (text : String) : Except Error (List Nat) :=
  if tok.trained then .ok ((findall text).flatMap fun preToken => tok.mergeAll (byteIds preToken))
  else .error (.runtimeError "Call train() before encode()")

def decode (tok : GPT2BPETokenizer) (tokens : List Nat) : Except Error String := BPETokenizer.decode tok tokens

end GPT2BPETokenizer

/-!
## What training establishes

A trained tokenizer is `Learned`: the first 256 tokens are the bytes, and the token of each merge rule
stands for the bytes of its two parents. So applying a merge keeps the bytes of a token sequence, and
encoding followed by decoding gives the text back. The corpus at the end of training is the initial one
with all merges applied in order, which is what encoding computes.
-/

open List BPETokenizer SortedMap

/-- The invariant of the training loop before round `mergeStep`. -/
structure Learned (mergeStep : Nat) (tok : BPETokenizer) : Prop where
  bytes : ∀ i < 256, tok.vocab.get i = some [UInt8.ofNat i]
  rules : ∀ rule ∈ tok.merges, ∃ x y, tok.vocab.get (ofLex rule.1).1 = some x ∧
    tok.vocab.get (ofLex rule.1).2 = some y ∧ tok.vocab.get rule.2 = some (x ++ y)
  fresh : ∀ t x, tok.vocab.get t = some x → t < 256 + mergeStep
  index : tok.mergeIndex = SortedMap.insertAll SortedMap.empty tok.merges

/-- Each of these tokens is in the vocabulary. -/
def Known (tok : BPETokenizer) (tokens : List Nat) : Prop := ∀ t ∈ tokens, ∃ x, tok.vocab.get t = some x

/-- The counted pairs are made of tokens of the corpus, and a merge brings in the new token at most. -/
structure Corpus.Lawful {S : Type} (corpus : Corpus S) (tokens : S → List Nat) : Prop where
  counted : ∀ s, CountMap.KeysIn (fun pair => (ofLex pair).1 ∈ tokens s ∧ (ofLex pair).2 ∈ tokens s)
    (corpus.countPairs s)
  merged : ∀ s pair newId t, t ∈ tokens (corpus.applyMerge s pair newId) → t = newId ∨ t ∈ tokens s

/-- Apply the merges of a list in order. -/
def Corpus.replay {S : Type} (corpus : Corpus S) (merges : List (TokenPair × Nat)) (s : S) : S :=
  merges.foldl (fun s rule => corpus.applyMerge s rule.1 rule.2) s

theorem replay_concat {S : Type} (corpus : Corpus S) (merges : List (TokenPair × Nat)) (rule : TokenPair × Nat)
    (s : S) : corpus.replay (merges ++ [rule]) s = corpus.applyMerge (corpus.replay merges s) rule.1 rule.2 :=
  foldl_append

/-! ### The two corpora -/

theorem keysIn_countInto {P : TokenPair → Prop} {counts : PairCounts} {ids : List Nat}
    (hcounts : CountMap.KeysIn P counts) (hids : ∀ a ∈ ids, ∀ b ∈ ids, P (toLex (a, b))) :
    CountMap.KeysIn P (countInto counts ids) := by
  induction ids generalizing counts with
  | nil => exact hcounts
  | cons a ids ih =>
    cases ids with
    | nil => exact hcounts
    | cons b ids =>
      refine ih ?_ fun c hc d hd => hids c (mem_cons_of_mem a hc) d (mem_cons_of_mem a hd)
      intro p hp
      rcases SortedList.mem_insertList hp with rfl | hp
      · exact hids a mem_cons_self b (mem_cons_of_mem a mem_cons_self)
      · exact hcounts p hp

theorem lawful_sequence : sequence.Lawful id where
  counted := fun _ => keysIn_countInto (fun _ h => nomatch h) fun _ ha _ hb => ⟨ha, hb⟩
  merged := fun _ _ _ _ ht => mem_replacePairs ht

theorem lawful_tokenChunks : tokenChunks.Lawful List.flatten where
  counted := by
    intro chunks
    have hfold : ∀ (l : List (List Nat)) (counts : PairCounts) (P : TokenPair → Prop),
        CountMap.KeysIn P counts → (∀ chunk ∈ l, ∀ a ∈ chunk, ∀ b ∈ chunk, P (toLex (a, b))) →
          CountMap.KeysIn P (l.foldl countInto counts) := by
      intro l
      induction l with
      | nil => exact fun _ _ hcounts _ => hcounts
      | cons chunk l ih =>
        intro counts P hcounts hl
        obtain ⟨hchunk, hl⟩ := forall_mem_cons.1 hl
        exact ih _ P (keysIn_countInto hcounts hchunk) hl
    refine hfold chunks empty _ (fun _ h => nomatch h) fun chunk hchunk a ha b hb => ?_
    exact ⟨mem_flatten_of_mem hchunk ha, mem_flatten_of_mem hchunk hb⟩
  merged := by
    intro chunks pair newId t ht
    obtain ⟨merged, hmerged, ht⟩ := mem_flatten.1 ht
    obtain ⟨chunk, hchunk, rfl⟩ := mem_map.1 hmerged
    exact (mem_replacePairs ht).imp_right fun h => mem_flatten_of_mem hchunk h

theorem replay_tokenChunks (tok : BPETokenizer) (chunks : List (List Nat)) :
    tokenChunks.replay tok.merges chunks = chunks.map tok.mergeAll := by
  have hfold : ∀ (merges : List (TokenPair × Nat)) (chunks : List (List Nat)),
      tokenChunks.replay merges chunks =
        chunks.map fun ids => merges.foldl (fun ids rule => applyMerge ids rule.1 rule.2) ids := by
    intro merges
    induction merges with
    | nil => exact fun chunks => (map_id chunks).symm
    | cons rule merges ih =>
      intro chunks
      refine (ih _).trans ?_
      exact map_map
  exact hfold tok.merges chunks

/-! ### The training loop -/

theorem get_byteVocab (n t : Nat) : (byteVocab n).get t = if t < n then some [UInt8.ofNat t] else none := by
  have hmem : ∀ t' x, (t', x) ∈ (range n).map (fun i => (i, [UInt8.ofNat i])) ↔
      t' < n ∧ x = [UInt8.ofNat t'] := by
    intro t' x
    rw [mem_map]
    constructor
    · rintro ⟨i, hi, heq⟩
      obtain ⟨rfl, rfl⟩ := Prod.mk.inj heq
      exact ⟨mem_range.1 hi, rfl⟩
    · rintro ⟨ht, rfl⟩
      exact ⟨t', mem_range.2 ht, rfl⟩
  split
  · rename_i ht
    exact get_insertAll_of_mem _ ((hmem t _).2 ⟨ht, rfl⟩) fun y hy => ((hmem t y).1 hy).2
  · rename_i ht
    refine get_insertAll_of_ne _ ?_
    rintro p hp rfl
    exact ht ((hmem p.1 p.2).1 hp).1

theorem learned_initial : Learned 0 initial := by
  have hvocab : initial.vocab = byteVocab 256 := by rw [initial]
  refine ⟨?_, (fun _ h => nomatch h), ?_, rfl⟩
  · intro i hi
    rw [hvocab, get_byteVocab, if_pos hi]
  · intro t x hx
    rw [hvocab, get_byteVocab] at hx
    split at hx
    · assumption
    · exact nomatch hx

theorem bestPair_mem {counts : PairCounts} {P : TokenPair → Prop} (hcounts : CountMap.KeysIn P counts)
    {best : TokenPair} (h : bestPair counts = some best) : P best := by
  obtain ⟨entry, hentry, rfl⟩ := mem_map.1 (argmax_mem h)
  exact hcounts entry hentry

variable {tok : BPETokenizer}

/-- One round: the new token is fresh, so what was known stays, and it stands for its parents. -/
theorem learned_record {mergeStep : Nat} (h : Learned mergeStep tok) {pair : TokenPair} {x y : List UInt8}
    (hx : tok.vocab.get (ofLex pair).1 = some x) (hy : tok.vocab.get (ofLex pair).2 = some y) :
    ∃ tok', tok.record pair (256 + mergeStep) = .ok tok' ∧ Learned (mergeStep + 1) tok' ∧
      tok'.merges = tok.merges ++ [(pair, 256 + mergeStep)] ∧
      tok'.vocab = tok.vocab.insert (256 + mergeStep) (x ++ y) := by
  have hkeep : ∀ t z, tok.vocab.get t = some z →
      (tok.vocab.insert (256 + mergeStep) (x ++ y)).get t = some z := by
    intro t z hz
    rw [get_insert, if_neg (Nat.ne_of_lt (h.fresh t z hz)), hz]
  have hnew : (tok.vocab.insert (256 + mergeStep) (x ++ y)).get (256 + mergeStep) = some (x ++ y) := by
    rw [get_insert, if_pos rfl]
  refine ⟨_, by rw [record, hx, hy], ⟨?_, ?_, ?_, ?_⟩, rfl, rfl⟩
  · exact fun i hi => hkeep i _ (h.bytes i hi)
  · intro rule hrule
    rcases mem_append.1 hrule with hrule | hrule
    · obtain ⟨a, b, ha, hb, hab⟩ := h.rules rule hrule
      exact ⟨a, b, hkeep _ a ha, hkeep _ b hb, hkeep _ _ hab⟩
    · rw [mem_singleton.1 hrule]
      exact ⟨x, y, hkeep _ x hx, hkeep _ y hy, hnew⟩
  · intro t z hz
    rw [get_insert] at hz
    split at hz
    · omega
    · exact Nat.lt_succ_of_lt (h.fresh t z hz)
  · have hindex : insertAll empty (tok.merges ++ [(pair, 256 + mergeStep)]) =
        (insertAll empty tok.merges).insert pair (256 + mergeStep) := foldl_append
    exact (congrArg (fun m => m.insert pair (256 + mergeStep)) h.index).trans hindex.symm

/-- The training loop succeeds, and the corpus at its end is the replay of all merges. -/
theorem learn_spec {S : Type} {corpus : Corpus S} {tokens : S → List Nat} (hcorpus : corpus.Lawful tokens)
    {start : S} (remaining : Nat) {mergeStep : Nat} {s : S} (h : Learned mergeStep tok)
    (hknown : Known tok (tokens s)) (hs : s = corpus.replay tok.merges start) :
    ∃ tok' s' k, learn corpus remaining mergeStep tok s = .ok (tok', s') ∧ Learned k tok' ∧
      s' = corpus.replay tok'.merges start := by
  induction remaining generalizing mergeStep tok s with
  | zero => exact ⟨tok, s, mergeStep, rfl, h, hs⟩
  | succ remaining ih =>
    rw [learn]
    cases hbest : bestPair (corpus.countPairs s) with
    | none => exact ⟨tok, s, mergeStep, rfl, h, hs⟩
    | some best =>
      by_cases hcount : (corpus.countPairs s).count best < 2
      · exact ⟨tok, s, mergeStep, if_pos hcount, h, hs⟩
      · obtain ⟨ha, hb⟩ := bestPair_mem (hcorpus.counted s) hbest
        obtain ⟨x, hx⟩ := hknown _ ha
        obtain ⟨y, hy⟩ := hknown _ hb
        obtain ⟨tok', hrecord, hlearned, hmerges, hvocab⟩ := learned_record h hx hy
        have hknown' : Known tok' (tokens (corpus.applyMerge s best (256 + mergeStep))) := by
          intro t ht
          rw [hvocab, get_insert]
          split
          · exact ⟨_, rfl⟩
          · rename_i hne
            exact hknown t ((hcorpus.merged s best _ t ht).resolve_left hne)
        have hreplay : corpus.applyMerge s best (256 + mergeStep) = corpus.replay tok'.merges start := by
          rw [hmerges, replay_concat, ← hs]
        obtain ⟨tok'', s', k, hlearn, hrest⟩ := ih hlearned hknown' hreplay
        refine ⟨tok'', s', k, ?_, hrest⟩
        simp only [if_neg hcount, hrecord]
        exact hlearn

/-! ### Bytes -/

/-- A merge keeps the bytes, by the invariant about the rules. -/
theorem bytesOf_mergeAll {k : Nat} (h : Learned k tok) (ids : List Nat) :
    tok.bytesOf (tok.mergeAll ids) = tok.bytesOf ids := by
  have hfold : ∀ merges : List (TokenPair × Nat), (∀ rule ∈ merges, rule ∈ tok.merges) → ∀ ids,
      tok.bytesOf (merges.foldl (fun ids rule => applyMerge ids rule.1 rule.2) ids) = tok.bytesOf ids := by
    intro merges
    induction merges with
    | nil => exact fun _ ids => rfl
    | cons rule merges ih =>
      intro hmerges ids
      obtain ⟨hrule, hmerges⟩ := forall_mem_cons.1 hmerges
      obtain ⟨x, y, hx, hy, hxy⟩ := h.rules rule hrule
      refine (ih hmerges _).trans (flatMap_replacePairs ?_ ids)
      rw [hx, hy, hxy]
      rfl
  exact hfold tok.merges (fun _ hrule => hrule) ids

theorem bytesOf_byteIds {k : Nat} (h : Learned k tok) (text : String) :
    tok.bytesOf (byteIds text) = utf8Bytes text := by
  rw [bytesOf, byteIds, flatMap_map]
  have hbyte : ∀ b : UInt8, (tok.vocab.get b.toNat).getD [] = [b] := by
    intro b
    rw [h.bytes b.toNat b.toNat_lt, UInt8.ofNat_toNat]
    rfl
  simp only [hbyte]
  exact flatMap_singleton' _

theorem bytesOf_encoded {k : Nat} (h : Learned k tok) (text : String) :
    tok.bytesOf (tok.mergeAll (byteIds text)) = utf8Bytes text :=
  (bytesOf_mergeAll h _).trans (bytesOf_byteIds h text)

theorem bytesOf_flatten (tok : BPETokenizer) (chunks : List (List Nat)) :
    tok.bytesOf chunks.flatten = (chunks.map tok.bytesOf).flatten := by
  rw [bytesOf, ← flatMap_id, flatMap_assoc, flatMap_def]
  rfl

theorem utf8Bytes_join (texts : List String) : utf8Bytes (String.join texts) = (texts.map utf8Bytes).flatten := by
  induction texts with
  | nil => rfl
  | cons text texts ih =>
    rw [String.join_cons, utf8Bytes_append, ih]
    rfl

/-! ### What encoding leaves -/

/-- Rules that make younger and younger tokens of older ones, all below a bound. -/
structure Ordered (bound : Nat) (merges : List (TokenPair × Nat)) : Prop where
  older : ∀ rule ∈ merges, (ofLex rule.1).1 < rule.2 ∧ (ofLex rule.1).2 < rule.2
  sorted : merges.Pairwise fun rule rule' => rule.2 < rule'.2
  below : ∀ rule ∈ merges, rule.2 < bound

theorem ordered_concat {bound : Nat} {merges : List (TokenPair × Nat)} (h : Ordered bound merges) {pair : TokenPair}
    (ha : (ofLex pair).1 < bound) (hb : (ofLex pair).2 < bound) : Ordered (bound + 1) (merges ++ [(pair, bound)]) where
  older := forall_mem_append.2 ⟨h.older, forall_mem_singleton.2 ⟨ha, hb⟩⟩
  sorted := pairwise_append.2 ⟨h.sorted, pairwise_singleton _ _, fun rule hrule _ hlast =>
    mem_singleton.1 hlast ▸ h.below rule hrule⟩
  below := forall_mem_append.2 ⟨fun rule hrule => Nat.lt_succ_of_lt (h.below rule hrule),
    forall_mem_singleton.2 (Nat.lt_succ_self bound)⟩

/-- Training orders the rules: a round pairs known tokens, and its own token is not known yet. -/
theorem ordered_learn {S : Type} {corpus : Corpus S} (remaining : Nat) {mergeStep : Nat} {s s' : S}
    (h : Learned mergeStep tok) (ho : Ordered (256 + mergeStep) tok.merges)
    (hlearn : learn corpus remaining mergeStep tok s = .ok (tok', s')) : ∃ bound, Ordered bound tok'.merges := by
  induction remaining generalizing mergeStep tok s with
  | zero =>
    cases hlearn
    exact ⟨_, ho⟩
  | succ remaining ih =>
    rw [learn] at hlearn
    dsimp only at hlearn
    split at hlearn
    · cases hlearn
      exact ⟨_, ho⟩
    · rename_i best _
      split at hlearn
      · cases hlearn
        exact ⟨_, ho⟩
      · cases hx : tok.vocab.get (ofLex best).1 with
        | none => rw [record, hx] at hlearn; cases hlearn
        | some x =>
          cases hy : tok.vocab.get (ofLex best).2 with
          | none => rw [record, hx, hy] at hlearn; cases hlearn
          | some y =>
            obtain ⟨tok₁, hrecord, hlearned, hmerges, -⟩ := learned_record h hx hy
            rw [hrecord] at hlearn
            exact ih hlearned (hmerges ▸ ordered_concat ho (h.fresh _ x hx) (h.fresh _ y hy)) hlearn

/-- No two neighbours are the pair of a rule. -/
def FullyMerged (tok : BPETokenizer) (tokens : List Nat) : Prop :=
  ∀ rule ∈ tok.merges, tokens.IsChain fun a b => ¬ (a = (ofLex rule.1).1 ∧ b = (ofLex rule.1).2)

theorem fullyMerged_mergeAll {bound : Nat} (h : Ordered bound tok.merges) (ids : List Nat) :
    FullyMerged tok (tok.mergeAll ids) := by
  rw [FullyMerged, mergeAll]
  obtain ⟨holder, hsorted, -⟩ := h
  generalize tok.merges = merges at holder hsorted ⊢
  induction merges using reverseRecOn with
  | nil => exact fun _ hrule => absurd hrule not_mem_nil
  | append_singleton merges last ih =>
    obtain ⟨hrules, -, hlast⟩ := pairwise_append.1 hsorted
    have ih := ih (fun rule hrule => holder rule (mem_append_left _ hrule)) hrules
    rw [foldl_concat]
    intro rule hrule
    -- the new token is younger than the tokens of the rule, so it forms no pair of the rule
    have hle : rule.2 ≤ last.2 := by
      rcases mem_append.1 hrule with hrule | hrule
      · exact (hlast rule hrule last (mem_singleton.2 rfl)).le
      · rw [mem_singleton.1 hrule]
    obtain ⟨ha, hb⟩ := holder rule hrule
    refine isChain_replacePairs (fun x hx => ?_) (fun x hx => ?_) ?_
    · exact absurd hx.1 (ha.trans_le hle).ne'
    · exact absurd hx.2 (hb.trans_le hle).ne'
    · rcases mem_append.1 hrule with hrule | hrule
      · exact (ih rule hrule).imp fun _ _ => .inr
      · rw [mem_singleton.1 hrule]
        exact (pairwise_of_forall fun _ _ => em _).isChain

theorem ordered_trainOn {S : Type} {corpus : Corpus S} {start s : S} {vocabSize : Int}
    (h : trainOn corpus start vocabSize = .ok (tok, s)) : ∃ bound, Ordered bound tok.merges := by
  rw [trainOn] at h
  split at h
  · cases h
  · dsimp only at h
    cases hlearn : learn corpus (vocabSize - 256).toNat 0 initial start with
    | error e =>
      rw [hlearn] at h
      cases h
    | ok p =>
      have ho : Ordered 256 initial.merges := ⟨by simp [initial], .nil, by simp [initial]⟩
      have hordered := ordered_learn _ learned_initial ho hlearn
      rw [hlearn] at h
      cases h
      exact hordered

end SystemDesignLabs.Tokenizer
