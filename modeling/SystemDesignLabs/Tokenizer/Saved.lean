import SystemDesignLabs.Core.Json
import SystemDesignLabs.Tokenizer.Bpe

/-!
# Saved tokenizers

`save` writes the vocabulary and the merges as a JSON document, with the bytes of a token in base64;
`load` reads such a file. A tokenizer that training made is read back as it was, so it encodes and decodes
every input identically. With this, `bpe_lossless` says what both tokenizers promise.
-/

namespace SystemDesignLabs.Tokenizer

open List Option Core BPETokenizer

/-! ## Save and load -/

theorem plain_b64Char : ∀ v : Fin 64, isPlainChar (b64Char v) := by decide

theorem plain_b64encode (bs : List UInt8) : ∀ c ∈ b64encode bs, isPlainChar c := by
  have hplain : ∀ {v : Nat}, v < 64 → isPlainChar (b64Char v) := fun hv => plain_b64Char ⟨_, hv⟩
  induction bs using b64encode.induct with
  | case1 x y z bs ih =>
    have hx := x.toNat_lt
    have hy := y.toNat_lt
    have hz := z.toNat_lt
    simp only [b64encode, forall_mem_cons]
    exact ⟨hplain (by omega), hplain (by omega), hplain (by omega), hplain (by omega), ih⟩
  | case2 x y =>
    have hx := x.toNat_lt
    have hy := y.toNat_lt
    simp only [b64encode, forall_mem_cons]
    exact ⟨hplain (by omega), hplain (by omega), hplain (by omega), by decide, fun _ h => by cases h⟩
  | case3 x =>
    have hx := x.toNat_lt
    simp only [b64encode, forall_mem_cons]
    exact ⟨hplain (by omega), hplain (by omega), by decide, by decide, fun _ h => by cases h⟩
  | case4 => exact fun _ h => by cases h

namespace GPT2BPETokenizer

/-- `base64.b64encode(bseq).decode("ascii")`. -/
def b64Text (bseq : List UInt8) : PlainText := ⟨b64encode bseq, plain_b64encode bseq⟩

def keyVersion : PlainText := ⟨['v', 'e', 'r', 's', 'i', 'o', 'n'], List.all_eq_true.1 (by decide)⟩

def keyVocabSize : PlainText := ⟨['v', 'o', 'c', 'a', 'b', '_', 's', 'i', 'z', 'e'], List.all_eq_true.1 (by decide)⟩

def keyVocab : PlainText := ⟨['v', 'o', 'c', 'a', 'b'], List.all_eq_true.1 (by decide)⟩

def keyMerges : PlainText := ⟨['m', 'e', 'r', 'g', 'e', 's'], List.all_eq_true.1 (by decide)⟩

def version : PlainText := ⟨['g', 'p', 't', '2', 'b', 'p', 'e', '-', 'v', '2'], List.all_eq_true.1 (by decide)⟩

/-- The document of a tokenizer: the vocabulary in the order of the ids, the merges in training order. -/
def document (tok : GPT2BPETokenizer) : Json :=
  .obj [
    (keyVersion, .str version),
    (keyVocabSize, .num tok.vocab.entries.length),
    (keyVocab, .arr (tok.vocab.entries.map fun e => .arr [.num e.1, .str (b64Text e.2)])),
    (keyMerges, .arr (tok.merges.map fun rule =>
      .arr [.num (ofLex rule.1).1, .num (ofLex rule.1).2, .num rule.2]))]

/-- The text that `save` writes to the file. -/
def save (tok : GPT2BPETokenizer) : List Char := Json.dump 0 (document tok)

/-- `data[key]`; a later member of an object wins over an earlier one. -/
def member (data : Json) (key : PlainText) : Option Json :=
  match data with
  | .obj members => (members.reverse.find? fun m => m.1 = key).map Prod.snd
  | _ => none

/-- One entry of the vocabulary. -/
def loadEntry : Json → Option (Nat × List UInt8)
  | .arr [.num tokenId, .str b64] => (b64decode b64.chars).map (tokenId, ·)
  | _ => none

/-- One merge. -/
def loadMerge : Json → Option (TokenPair × Nat)
  | .arr [.num a, .num b, .num newId] => some (toLex (a, b), newId)
  | _ => none

/-- Read the text of a file. A text that is not a document with these members is an error. -/
def load (text : List Char) : Option GPT2BPETokenizer := do
  let data ← Json.load text
  let .arr vocab ← member data keyVocab | none
  let .arr merges ← member data keyMerges | none
  let entries ← vocab.mapM loadEntry
  let rules ← merges.mapM loadMerge
  some ⟨rules, SortedMap.insertAll SortedMap.empty entries, SortedMap.insertAll SortedMap.empty rules, true⟩

theorem mapM_map_eq_some {α β : Type} {f : α → β} {g : β → Option α} (h : ∀ a, g (f a) = some a) (l : List α) :
    (l.map f).mapM g = some l := by
  induction l with
  | nil => rfl
  | cons a l ih =>
    rw [map_cons, mapM_cons, h a, ih]
    rfl

theorem insertAll_entries (m : SortedMap Nat (List UInt8)) : SortedMap.insertAll SortedMap.empty m.entries = m := by
  apply SortedMap.ext_get
  intro t
  rw [SortedMap.get_insertAll _ m.sorted, SortedMap.get_empty, or_none]
  rfl

/-- A saved tokenizer is read back as it was, when its index is the one of its merges. -/
theorem load_save {tok : GPT2BPETokenizer} (htrained : tok.trained = true)
    (hindex : tok.mergeIndex = SortedMap.insertAll SortedMap.empty tok.merges) : load (save tok) = some tok := by
  have hvocab : member (document tok) keyVocab =
      some (.arr (tok.vocab.entries.map fun e => .arr [.num e.1, .str (b64Text e.2)])) := rfl
  have hmerges : member (document tok) keyMerges = some (.arr (tok.merges.map fun rule =>
      .arr [.num (ofLex rule.1).1, .num (ofLex rule.1).2, .num rule.2])) := rfl
  have hentry : ∀ e : Nat × List UInt8, loadEntry (.arr [.num e.1, .str (b64Text e.2)]) = some e := by
    intro e
    rw [loadEntry, b64Text, b64decode_b64encode, map_some]
  have hmerge : ∀ rule : TokenPair × Nat,
      loadMerge (.arr [.num (ofLex rule.1).1, .num (ofLex rule.1).2, .num rule.2]) = some rule := fun _ => rfl
  have hentries := mapM_map_eq_some hentry tok.vocab.entries
  have hrules := mapM_map_eq_some hmerge tok.merges
  rw [load, save, Json.load_dump, bind_eq_bind, bind_some, hvocab, bind_eq_bind, bind_some, hmerges]
  simp only [bind_eq_bind, bind_some, hentries, hrules, insertAll_entries, ← hindex]
  rw [← htrained]

end GPT2BPETokenizer

/-! ## The promises of the tokenizers -/

/-- Training with room for a merge succeeds, with a tokenizer that meets the invariant and the replay of its
merges as the last corpus. -/
theorem trainOn_spec {S : Type} {corpus : Corpus S} {tokens : S → List Nat} (hcorpus : corpus.Lawful tokens)
    {start : S} (hstart : ∀ t ∈ tokens start, t < 256) {vocabSize : Int} (hsize : 256 < vocabSize) :
    ∃ tok s k, trainOn corpus start vocabSize = .ok (tok, s) ∧ Learned k tok ∧ tok.trained = true ∧
      s = corpus.replay tok.merges start := by
  have hknown : Known initial (tokens start) := fun t ht => ⟨_, learned_initial.bytes t (hstart t ht)⟩
  obtain ⟨tok, s, k, hlearn, hlearned, hs⟩ :=
    learn_spec hcorpus (vocabSize - 256).toNat learned_initial hknown rfl
  refine ⟨{ tok with trained := true }, s, k, ?_, ?_, rfl, hs⟩
  · rw [trainOn, if_neg (Int.not_le.2 hsize)]
    simp only [hlearn]
    rfl
  · exact ⟨hlearned.bytes, hlearned.rules, hlearned.fresh, hlearned.index⟩

theorem byteIds_lt (text : String) : ∀ t ∈ byteIds text, t < 256 := by
  intro t ht
  obtain ⟨b, -, rfl⟩ := mem_map.1 ht
  exact b.toNat_lt

/-- **Byte-pair encoding is lossless and consistent with training.** Both tokenizers can be trained on any
text, encode the training text to what training ended with, and decode what they encode to the text. The
second one encodes each pre-token by itself: its tokens fall into groups that have the bytes of one
pre-token each. What is loaded from its file encodes and decodes as it does. -/
theorem bpe_lossless (findall : String → List String) (hfindall : ∀ s, String.join (findall s) = s)
    (text : String) (vocabSize : Int) (hsize : 256 < vocabSize) :
    (∃ tok ids, BPETokenizer.train text vocabSize = .ok (tok, ids) ∧ tok.encode text = .ok ids ∧
      ∀ t, ∃ tokens, tok.encode t = .ok tokens ∧ tok.decode tokens = .ok t) ∧
    ∃ tok chunks, GPT2BPETokenizer.train findall text vocabSize = .ok (tok, chunks) ∧
      GPT2BPETokenizer.encode findall tok text = .ok chunks.flatten ∧
      (∀ t, ∃ groups : List (List Nat), GPT2BPETokenizer.encode findall tok t = .ok groups.flatten ∧
        groups.map tok.bytesOf = (findall t).map utf8Bytes ∧
        GPT2BPETokenizer.decode tok groups.flatten = .ok t) ∧
      ∃ loaded, GPT2BPETokenizer.load (GPT2BPETokenizer.save tok) = some loaded ∧
        (∀ t, GPT2BPETokenizer.encode findall loaded t = GPT2BPETokenizer.encode findall tok t) ∧
        ∀ tokens, GPT2BPETokenizer.decode loaded tokens = GPT2BPETokenizer.decode tok tokens := by
  constructor
  · obtain ⟨tok, ids, k, htrain, hlearned, htrained, hids⟩ :=
      trainOn_spec lawful_sequence (byteIds_lt text) hsize
    refine ⟨tok, ids, htrain, ?_, fun t => ⟨tok.mergeAll (byteIds t), ?_, ?_⟩⟩
    · rw [encode, if_pos htrained, hids]
      rfl
    · rw [encode, if_pos htrained]
    · rw [decode, if_pos htrained, bytesOf_encoded hlearned, decodeReplace_utf8Bytes]
  · have hstart : ∀ t ∈ ((findall text).map byteIds).flatten, t < 256 := by
      intro t ht
      obtain ⟨ids, hids, ht⟩ := List.mem_flatten.1 ht
      obtain ⟨preToken, -, rfl⟩ := List.mem_map.1 hids
      exact byteIds_lt preToken t ht
    obtain ⟨tok, chunks, k, htrain, hlearned, htrained, hchunks⟩ :=
      trainOn_spec lawful_tokenChunks hstart hsize
    have hencode : ∀ t, GPT2BPETokenizer.encode findall tok t =
        .ok ((findall t).map fun preToken => tok.mergeAll (byteIds preToken)).flatten := by
      intro t
      rw [GPT2BPETokenizer.encode, if_pos htrained]
      rfl
    refine ⟨tok, chunks, htrain, ?_, fun t => ⟨_, hencode t, ?_, ?_⟩, tok,
      GPT2BPETokenizer.load_save htrained hlearned.index, fun _ => rfl, fun _ => rfl⟩
    · rw [hencode, hchunks, replay_tokenChunks, List.map_map]
      rfl
    · rw [List.map_map]
      exact List.map_congr_left fun preToken _ => bytesOf_encoded hlearned preToken
    · have hbytes : tok.bytesOf ((findall t).map fun preToken => tok.mergeAll (byteIds preToken)).flatten =
          utf8Bytes t := by
        rw [bytesOf_flatten, List.map_map]
        calc ((findall t).map (tok.bytesOf ∘ fun preToken => tok.mergeAll (byteIds preToken))).flatten
            = ((findall t).map utf8Bytes).flatten :=
              congrArg List.flatten (List.map_congr_left fun preToken _ => bytesOf_encoded hlearned preToken)
          _ = utf8Bytes (String.join (findall t)) := (utf8Bytes_join (findall t)).symm
          _ = utf8Bytes t := by rw [hfindall]
      rw [GPT2BPETokenizer.decode, decode, if_pos htrained, hbytes, decodeReplace_utf8Bytes]

/-- Two words, split as the pattern splits them, with the space in front of the second one. -/
def twoWords (s : String) : List String := if s = "aa aa" then ["aa", " aa"] else [s]

theorem bpe_lossless_twoWords :
    (∃ tok ids, BPETokenizer.train "aa aa" 258 = .ok (tok, ids) ∧ tok.encode "aa aa" = .ok ids ∧
      ∀ t, ∃ tokens, tok.encode t = .ok tokens ∧ tok.decode tokens = .ok t) ∧
    ∃ tok chunks, GPT2BPETokenizer.train twoWords "aa aa" 258 = .ok (tok, chunks) ∧
      GPT2BPETokenizer.encode twoWords tok "aa aa" = .ok chunks.flatten := by
  have hjoin : ∀ s, String.join (twoWords s) = s := by
    intro s
    rw [twoWords]
    split
    · rename_i hs
      rw [hs]
      rfl
    · simp
  obtain ⟨hsequence, tok, chunks, htrain, hencode, -⟩ := bpe_lossless twoWords hjoin "aa aa" 258 (by decide)
  exact ⟨hsequence, tok, chunks, htrain, hencode⟩

end SystemDesignLabs.Tokenizer
