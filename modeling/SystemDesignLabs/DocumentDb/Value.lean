import SystemDesignLabs.Core.SortedMap

/-!
# JSON values

`serde_json::Value` as the document database uses it: numbers are integers of 64 bits or finite doubles, and an
object is a map sorted by its keys. A double is given by its bits, and how it prints is a parameter of what
uses it.
-/

namespace SystemDesignLabs.DocumentDb

open Core

/-! ### Numbers -/

/-- The bits of a double that is neither infinite nor NaN. -/
def IsFinite (bits : UInt64) : Prop :=
  bits.toNat / 2 ^ 52 % 2048 ≠ 2047

instance (bits : UInt64) : Decidable (IsFinite bits) :=
  inferInstanceAs (Decidable (_ ≠ _))

/-- A double is zero, of either sign. -/
def IsZero (bits : UInt64) : Prop :=
  bits.toNat % 2 ^ 63 = 0

instance (bits : UInt64) : Decidable (IsZero bits) :=
  inferInstanceAs (Decidable (_ = _))

inductive Number where
  | posInt (n : UInt64)
  | negInt (i : { i : Int // -(2 ^ 63) ≤ i ∧ i < 0 })
  | float (bits : { bits : UInt64 // IsFinite bits })
  deriving DecidableEq

namespace Number

def asI64 : Number → Option Int
  | posInt n => if n.toNat < 2 ^ 63 then some n.toNat else none
  | negInt i => some i.1
  | float _ => none

/-- The bits of an integer from 2^63 on as a double: of the doubles there, which are 2048 apart, the nearest, and of
two that are as near the even one. -/
def largeAsF64 (n : Nat) : Nat :=
  let q := n / 2048
  let rounded := if 1024 < n % 2048 ∨ (n % 2048 = 1024 ∧ q % 2 = 1) then q + 1 else q
  1086 * 2 ^ 52 + (rounded - 2 ^ 52)

/-- The bits of `as_f64`, for a number that is no `i64`. -/
def asF64 : Number → Nat
  | posInt n => largeAsF64 n.toNat
  | negInt _ => 0
  | float bits => bits.1.toNat

/-- The number of an `i64`. -/
def ofI64 (bits : UInt64) : Number :=
  if h : bits.toNat < 2 ^ 63 then posInt bits
  else negInt ⟨bits.toNat - 2 ^ 64, by have := bits.toNat_lt; omega⟩

/-- `from_f64`, or 0 where it fails. -/
def ofF64 (bits : UInt64) : Number :=
  if h : IsFinite bits then float ⟨bits, h⟩ else posInt 0

/-- `==`: doubles are compared as doubles, so that the two zeros are equal. -/
def eq : Number → Number → Bool
  | float a, float b => a = b ∨ (IsZero a.1 ∧ IsZero b.1)
  | m, n => m = n

end Number

/-! ### Values -/

/-- `serde_json::Value`. The fields of an object are in the order of their keys. -/
inductive Value where
  | null
  | bool (b : Bool)
  | number (n : Number)
  | string (s : String)
  | array (items : List Value)
  | object (fields : List (String × Value))

namespace Value

mutual

/-- `==`. -/
def eq : Value → Value → Bool
  | null, null => true
  | bool a, bool b => a == b
  | number m, number n => m.eq n
  | string s, string t => s == t
  | array items, array items' => eqItems items items'
  | object fields, object fields' => eqFields fields fields'
  | _, _ => false

def eqItems : List Value → List Value → Bool
  | [], [] => true
  | v :: items, v' :: items' => v.eq v' && eqItems items items'
  | _, _ => false

def eqFields : List (String × Value) → List (String × Value) → Bool
  | [], [] => true
  | (k, v) :: fields, (k', v') :: fields' => k == k' && v.eq v' && eqFields fields fields'
  | _, _ => false

end

def asObject : Value → Option (List (String × Value))
  | object fields => some fields
  | _ => none

mutual

/-- The keys of every object in the value increase. -/
def Sorted : Value → Prop
  | array items => SortedItems items
  | object fields => SortedList.Sorted fields ∧ SortedFields fields
  | _ => True

def SortedItems : List Value → Prop
  | [] => True
  | v :: items => v.Sorted ∧ SortedItems items

def SortedFields : List (String × Value) → Prop
  | [] => True
  | (_, v) :: fields => v.Sorted ∧ SortedFields fields

end

end Value

/-- A value as `serde_json` builds it. -/
structure Json where
  value : Value
  sorted : value.Sorted

/-- A filter: the fields and their expected values, in the order in which its map is iterated. -/
abbrev Filter := List (String × Value)

def matchesFilter (doc : Value) (filter : Filter) : Bool :=
  if filter = [] then true
  else
    match doc.asObject with
    | none => false
    | some obj => filter.all fun (key, expected) =>
      match SortedList.find obj key with
      | some actual => actual.eq expected
      | none => false

/-- `insert` embeds the id in the document. -/
def withId (id : String) : Value → Value
  | .object fields => .object (SortedList.insertList "_id" (.string id) fields)
  | doc => doc

/-- `index_key`, where `numberString` is how a number prints. -/
def indexKey (numberString : Number → String) : Value → String
  | .string s => s
  | .number n => numberString n
  | .bool b => if b then "true" else "false"
  | .null => "null"
  | .array _ => "__array__"
  | .object _ => "__object__"

/-! ### Facts -/

theorem Number.ofI64_asI64 {n : Number} {i : Int} (h : n.asI64 = some i) {bits : UInt64}
    (hbits : (bits.toNat : Int) = i % 2 ^ 64) : ofI64 bits = n := by
  cases n with
  | posInt n =>
    obtain ⟨hlt, hi⟩ := Option.ite_none_right_eq_some.1 h
    have hn := n.toNat_lt
    have hi : i = n.toNat := (Option.some_inj.1 hi).symm
    have heq : bits.toNat = n.toNat := by omega
    obtain rfl := UInt64.toNat_inj.1 heq
    exact dif_pos hlt
  | negInt j =>
    obtain ⟨j, hlow, hneg⟩ := j
    obtain rfl : j = i := Option.some_inj.1 h
    have hge : ¬ bits.toNat < 2 ^ 63 := by omega
    rw [ofI64, dif_neg hge]
    congr 2
    omega
  | float bits => cases h

namespace Value

theorem sortedFields_insertList {key : String} {v : Value} (hv : v.Sorted) {fields : List (String × Value)}
    (h : SortedFields fields) : SortedFields (SortedList.insertList key v fields) := by
  induction fields with
  | nil => exact ⟨hv, trivial⟩
  | cons p fields ih =>
    obtain ⟨key', v'⟩ := p
    rw [SortedList.insertList]
    split
    · exact ⟨hv, h⟩
    · split
      · exact ⟨hv, h.2⟩
      · exact ⟨h.1, ih h.2⟩

theorem sorted_withId (id : String) {doc : Value} (h : doc.Sorted) : (withId id doc).Sorted := by
  cases doc with
  | object fields =>
    have hid : (string id).Sorted := trivial
    exact ⟨SortedList.sorted_insertList _ _ h.1, sortedFields_insertList hid h.2⟩
  | _ => exact h

end Value

theorem withId_withId (id : String) {doc : Value} (h : doc.Sorted) : withId id (withId id doc) = withId id doc := by
  cases doc with
  | object fields =>
    let map : SortedMap String Value := ⟨fields, h.1⟩
    have hself : (map.insert "_id" (.string id)).get "_id" = some (.string id) := by
      rw [SortedMap.get_insert, if_pos rfl]
    have hsame := congrArg SortedMap.entries (SortedMap.insert_of_get hself)
    exact congrArg Value.object hsame
  | _ => rfl

theorem Number.eq_iff {m n : Number} : m.eq n = true ↔ m = n ∨ ∃ a b, m = float a ∧ n = float b ∧ IsZero a.1 ∧ IsZero b.1 := by
  cases m <;> cases n <;> simp [eq]

end SystemDesignLabs.DocumentDb
