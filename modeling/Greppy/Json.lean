/-
**JSON values, as `serde_json::Value` has them.**

Node and edge rows carry a `properties` column holding a JSON document.  The indexer only ever looks
up a field of an object, reads it as a string or as an unsigned integer, and inserts the field
`line`; this module is that much of `serde_json`.

An object is a list of fields.  `serde_json`'s default map is ordered by key, so `Json.insert` puts a
new field at its sorted place and overwrites a field that is already there.
-/

import Mathlib.Algebra.Group.Int.Defs
import Mathlib.Data.String.Basic

set_option autoImplicit false

namespace Greppy

/-- A JSON value.  A number that is not an integer is kept as its text. -/
inductive Json where
  | null
  | bool (b : Bool)
  | int (n : ℤ)
  | float (text : String)
  | str (s : String)
  | arr (items : List Json)
  | obj (fields : List (String × Json))

namespace Json

mutual

/-- Equality of JSON values is decidable; the handler for `deriving` does not cover nested types. -/
def decEq : (a b : Json) → Decidable (a = b)
  | null, null => isTrue rfl
  | bool a, bool b => decidable_of_iff (a = b) (by simp)
  | int a, int b => decidable_of_iff (a = b) (by simp)
  | float a, float b => decidable_of_iff (a = b) (by simp)
  | str a, str b => decidable_of_iff (a = b) (by simp)
  | arr a, arr b => @decidable_of_iff _ (a = b) (by simp) (decEqItems a b)
  | obj a, obj b => @decidable_of_iff _ (a = b) (by simp) (decEqFields a b)
  | null, bool _ | null, int _ | null, float _ | null, str _ | null, arr _ | null, obj _ =>
    isFalse (by simp)
  | bool _, null | bool _, int _ | bool _, float _ | bool _, str _ | bool _, arr _ | bool _, obj _ =>
    isFalse (by simp)
  | int _, null | int _, bool _ | int _, float _ | int _, str _ | int _, arr _ | int _, obj _ =>
    isFalse (by simp)
  | float _, null | float _, bool _ | float _, int _ | float _, str _ | float _, arr _
  | float _, obj _ => isFalse (by simp)
  | str _, null | str _, bool _ | str _, int _ | str _, float _ | str _, arr _ | str _, obj _ =>
    isFalse (by simp)
  | arr _, null | arr _, bool _ | arr _, int _ | arr _, float _ | arr _, str _ | arr _, obj _ =>
    isFalse (by simp)
  | obj _, null | obj _, bool _ | obj _, int _ | obj _, float _ | obj _, str _ | obj _, arr _ =>
    isFalse (by simp)

def decEqItems : (a b : List Json) → Decidable (a = b)
  | [], [] => isTrue rfl
  | [], _ :: _ => isFalse (by simp)
  | _ :: _, [] => isFalse (by simp)
  | a :: as, b :: bs =>
    match decEq a b, decEqItems as bs with
    | isTrue h, isTrue hs => isTrue (by rw [h, hs])
    | isFalse h, _ => isFalse (by simp [h])
    | _, isFalse hs => isFalse (by simp [hs])

def decEqFields : (a b : List (String × Json)) → Decidable (a = b)
  | [], [] => isTrue rfl
  | [], _ :: _ => isFalse (by simp)
  | _ :: _, [] => isFalse (by simp)
  | (k, a) :: as, (l, b) :: bs =>
    match String.decEq k l, decEq a b, decEqFields as bs with
    | isTrue hk, isTrue h, isTrue hs => isTrue (by rw [hk, h, hs])
    | isFalse hk, _, _ => isFalse (by simp [hk])
    | _, isFalse h, _ => isFalse (by simp [h])
    | _, _, isFalse hs => isFalse (by simp [hs])

end

instance : DecidableEq Json := decEq

/-- `Value::get` with a string index: `none` on a missing field and on anything but an object. -/
def get : Json → String → Option Json
  | obj fields, key => fields.lookup key
  | _, _ => none

/-- `Value::as_str`. -/
def asStr : Json → Option String
  | str s => some s
  | _ => none

/-- `Value::as_u64`. -/
def asU64 : Json → Option ℕ
  | int n => if 0 ≤ n ∧ n < 2 ^ 64 then some n.toNat else none
  | _ => none

/-- The string field `key` of an object: `.get(key).and_then(|v| v.as_str())`. -/
def getStr (v : Json) (key : String) : Option String := (v.get key).bind asStr

/-- Inserting a field into an ordered map. -/
def insertField (key : String) (value : Json) : List (String × Json) → List (String × Json)
  | [] => [(key, value)]
  | (k, v) :: rest =>
    if key = k then (key, value) :: rest
    else if key < k then (key, value) :: (k, v) :: rest
    else (k, v) :: insertField key value rest

/-- Insert or overwrite a field of an object; other values are left alone. -/
def insert : Json → String → Json → Json
  | obj fields, key, value => obj (insertField key value fields)
  | v, _, _ => v

/-- The empty object, the default of every `properties` column. -/
def emptyObj : Json := obj []

/-- The fields of an object are in the order of their keys, each key once. -/
def Ordered : Json → Prop
  | obj fields => fields.Pairwise fun a b => a.1 < b.1
  | _ => True

/-! ### Fields after an insert -/

theorem lookup_insertField_self (key : String) (value : Json) (fields : List (String × Json)) :
    (insertField key value fields).lookup key = some value := by
  induction fields with
  | nil => simp [insertField]
  | cons p rest ih =>
    obtain ⟨k, v⟩ := p
    unfold insertField
    split
    · simp
    · rename_i hne
      split
      · simp
      · rw [List.lookup_cons, beq_false_of_ne hne]
        exact ih

theorem lookup_insertField_of_ne {key other : String} (h : other ≠ key) (value : Json)
    (fields : List (String × Json)) :
    (insertField key value fields).lookup other = fields.lookup other := by
  induction fields with
  | nil => simpa [insertField] using h
  | cons p rest ih =>
    obtain ⟨k, v⟩ := p
    unfold insertField
    split
    · rename_i heq
      subst heq
      rw [List.lookup_cons, List.lookup_cons, beq_false_of_ne h]
    · split
      · rw [List.lookup_cons, beq_false_of_ne h]
      · rw [List.lookup_cons, List.lookup_cons, ih]

theorem insertField_idem (key : String) (value : Json) (fields : List (String × Json)) :
    insertField key value (insertField key value fields) = insertField key value fields := by
  induction fields with
  | nil => simp [insertField]
  | cons p rest ih =>
    obtain ⟨k, v⟩ := p
    by_cases heq : key = k
    · simp [insertField, heq]
    · by_cases hlt : key < k
      · simp [insertField, heq, hlt]
      · rw [insertField, if_neg heq, if_neg hlt, insertField, if_neg heq, if_neg hlt, ih]

theorem insertField_of_lookup {key : String} {value : Json} {fields : List (String × Json)}
    (hordered : fields.Pairwise fun a b => a.1 < b.1) (h : fields.lookup key = some value) :
    insertField key value fields = fields := by
  induction fields with
  | nil => cases h
  | cons p rest ih =>
    obtain ⟨k, v⟩ := p
    rw [List.pairwise_cons] at hordered
    rw [List.lookup_cons] at h
    unfold insertField
    by_cases heq : key = k
    · subst heq
      simp only [beq_self_eq_true, Option.some.injEq] at h
      rw [if_pos rfl, h]
    · rw [if_neg heq]
      rw [beq_false_of_ne heq] at h
      -- the field is further down, among the greater keys
      obtain ⟨before, after, hrest, _⟩ := List.lookup_eq_some_iff.1 h
      have hmem : (key, value) ∈ rest := by
        rw [hrest]
        exact List.mem_append_right _ List.mem_cons_self
      have hlt : k < key := hordered.1 _ hmem
      rw [if_neg (lt_asymm hlt), ih hordered.2 h]

theorem get_insert_of_ne {key other : String} (h : other ≠ key) (v value : Json) :
    (v.insert key value).get other = v.get other := by
  cases v with
  | obj fields => exact lookup_insertField_of_ne h value fields
  | null => rfl
  | bool b => rfl
  | int n => rfl
  | float text => rfl
  | str s => rfl
  | arr items => rfl

theorem insert_idem (v : Json) (key : String) (value : Json) :
    (v.insert key value).insert key value = v.insert key value := by
  cases v with
  | obj fields => exact congrArg obj (insertField_idem key value fields)
  | null => rfl
  | bool b => rfl
  | int n => rfl
  | float text => rfl
  | str s => rfl
  | arr items => rfl

theorem insert_of_get {v value : Json} {key : String} (hordered : v.Ordered)
    (h : v.get key = some value) : v.insert key value = v := by
  cases v with
  | obj fields => exact congrArg obj (insertField_of_lookup hordered h)
  | null => cases h
  | bool b => cases h
  | int n => cases h
  | float text => cases h
  | str s => cases h
  | arr items => cases h

end Json

end Greppy
