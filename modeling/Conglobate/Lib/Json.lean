import Conglobate.Lib.OrdMap
import Conglobate.Lib.Text
import Mathlib.Data.Char

/- JSON values and typed readings of them, as `serde_json` has them.

   A value's objects are lists of fields; a reader sees an object as the map its
   fields make (`asObject`, later fields win), and what is written back is a map's
   entries, which read as that map (`asObject_ofMap`). A struct is also read from an
   array of its fields in order (`asStruct`), as derived deserializers do.

   Correspondence (Rust ↔ Lean):
     `serde_json::Value`                    ↔ `Json`
     `Value::Number` of a `u64`             ↔ `natural`
     any other number                       ↔ `other`, by its text
     `Map<String, Value>`                   ↔ `OrdMap Text Json`
     `to_vec`                               ↔ `Json.toVec`
     `Deserialize for String, u64, Vec<_>`  ↔ `asString`, `asUnsigned`, `asArray` -/
namespace Conglobate

inductive Json where
  | null
  | bool (value : Bool)
  | natural (value : Nat)
  | other (literal : Text)
  | string (value : Text)
  | array (items : List Json)
  | object (fields : List (Text × Json))

/-- Why a typed reading fails. -/
inductive JsonError where
  | invalidType
  | invalidLength
  | missingField (name : Text)
  | unknownField (name : Text)
  | duplicateField
  | unknownVariant (tag : Text)
  | invalidValue
  | outOfRange
  deriving DecidableEq, Repr

namespace Json

/-! The text of a value. -/

/-- One character of a string. -/
def escape (c : Char) : Text :=
  if c = '"' then ['\\', '"']
  else if c = '\\' then ['\\', '\\']
  else if c.toNat = 8 then ['\\', 'b']
  else if c.toNat = 9 then ['\\', 't']
  else if c.toNat = 10 then ['\\', 'n']
  else if c.toNat = 12 then ['\\', 'f']
  else if c.toNat = 13 then ['\\', 'r']
  else if c.toNat < 32 then
    ['\\', 'u', '0', '0', Hex.digit (c.toNat / 16), Hex.digit (c.toNat % 16)]
  else [c]

def stringText (t : Text) : Text := '"' :: t.flatMap escape ++ ['"']

mutual

/-- The compact text of a value. -/
def text : Json → Text
  | .null => ['n', 'u', 'l', 'l']
  | .bool true => ['t', 'r', 'u', 'e']
  | .bool false => ['f', 'a', 'l', 's', 'e']
  | .natural n => Decimal.write n
  | .other literal => literal
  | .string t => stringText t
  | .array items => '[' :: itemsText items ++ [']']
  | .object fields => '{' :: fieldsText fields ++ ['}']

def itemsText : List Json → Text
  | [] => []
  | [j] => text j
  | j :: rest => text j ++ ',' :: itemsText rest

def fieldsText : List (Text × Json) → Text
  | [] => []
  | [e] => stringText e.1 ++ ':' :: text e.2
  | e :: rest => stringText e.1 ++ ':' :: text e.2 ++ ',' :: fieldsText rest

end

def toVec (j : Json) : Bytes := j.text.utf8

/-! Readings. -/

def asString : Json → Except JsonError Text
  | .string t => .ok t
  | _ => .error .invalidType

/-- An unsigned integer of `bits` bits. -/
def asUnsigned (bits : Nat) : Json → Except JsonError Nat
  | .natural n => if n < 2 ^ bits then .ok n else .error .outOfRange
  | _ => .error .invalidType

def asArray : Json → Except JsonError (List Json)
  | .array items => .ok items
  | _ => .error .invalidType

/-- The map a list of fields makes: a later field replaces an earlier one. -/
def fieldMap (fields : List (Text × Json)) : OrdMap Text Json :=
  fields.foldl (fun m e => m.insert e.1 e.2) OrdMap.empty

def asObject : Json → Except JsonError (OrdMap Text Json)
  | .object fields => .ok (fieldMap fields)
  | _ => .error .invalidType

/-- A struct's fields: an object's, or an array's under the struct's names in order. -/
def asStruct (names : List Text) : Json → Except JsonError (OrdMap Text Json)
  | .object fields => .ok (fieldMap fields)
  | .array items =>
    if items.length ≤ names.length then
      .ok (fieldMap (names.zip items))
    else
      .error .invalidLength
  | _ => .error .invalidType

/-- A map's value. -/
def ofMap (m : OrdMap Text Json) : Json := .object m.entries

/-- A required field. -/
def field (m : OrdMap Text Json) (name : Text) : Except JsonError Json :=
  match m.get? name with
  | some j => .ok j
  | none => .error (.missingField name)

/-- A map with string values. -/
def asStrings (j : Json) : Except JsonError (OrdMap Text Text) := do
  let m ← j.asObject
  m.mapM asString

/-- A map of strings, as a value. -/
def ofStrings (m : OrdMap Text Text) : Json := .object (m.entries.map (fun e => (e.1, .string e.2)))

theorem fieldMap_entries (m : OrdMap Text Json) : fieldMap m.entries = m := by
  have hfold : ∀ (l : List (Text × Json)) (n : OrdMap Text Json),
      l.Pairwise (fun a b => a.1 < b.1) → (∀ e ∈ n.entries, ∀ x ∈ l, e.1 < x.1) →
      (l.foldl (fun m e => m.insert e.1 e.2) n).entries = n.entries ++ l := by
    intro l
    induction l with
    | nil =>
      intro n _ _
      exact (List.append_nil _).symm
    | cons e rest ih =>
      intro n hs habove
      rw [List.pairwise_cons] at hs
      have hentries : (n.insert e.1 e.2).entries = n.entries ++ [(e.1, e.2)] :=
        OrdMap.insert_above (fun x hx => habove x hx e List.mem_cons_self)
      rw [List.foldl_cons, ih (n.insert e.1 e.2) hs.2, hentries, List.append_assoc]
      · rfl
      · intro x hx y hy
        rw [hentries, List.mem_append, List.mem_singleton] at hx
        rcases hx with hx | rfl
        · exact habove x hx y (List.mem_cons_of_mem _ hy)
        · exact hs.1 y hy
  apply OrdMap.ext
  have h := hfold m.entries OrdMap.empty m.sorted
    (fun e he => absurd he (List.not_mem_nil : e ∉ ([] : List (Text × Json))))
  rw [fieldMap, h]
  rfl

/-- **What is written reads as the map written.** -/
theorem asObject_ofMap (m : OrdMap Text Json) : (ofMap m).asObject = .ok m :=
  congrArg Except.ok (fieldMap_entries m)

theorem asStruct_ofMap (names : List Text) (m : OrdMap Text Json) :
    (ofMap m).asStruct names = .ok m :=
  congrArg Except.ok (fieldMap_entries m)

theorem field_eq_ok {m : OrdMap Text Json} {name : Text} {j : Json} :
    field m name = .ok j ↔ m.get? name = some j := by
  unfold field
  cases m.get? name <;> simp

theorem asString_eq_ok {j : Json} {t : Text} : j.asString = .ok t ↔ j = .string t := by
  cases j <;> simp [asString]

/-- The values of a map are the strings of another. -/
def StringMap (m : OrdMap Text Json) (t : OrdMap Text Text) :
    Prop := ∀ k, m.get? k = (t.get? k).map Json.string

theorem mapM_asString {m : OrdMap Text Json} {t : OrdMap Text Text} (h : m.mapM asString = .ok t) :
    StringMap m t := by
  intro k
  have hk := OrdMap.mapM_get? h k
  cases hm : m.get? k with
  | none =>
    rw [hm] at hk
    rw [hk]
    rfl
  | some j =>
    rw [hm] at hk
    obtain ⟨w, hw, hget⟩ := hk
    rw [hget, asString_eq_ok.mp hw]
    rfl

/-- **A map reads as strings** exactly where its values are strings. -/
theorem asStrings_eq_ok {fields : List (Text × Json)} {t : OrdMap Text Text} :
    (Json.object fields).asStrings = .ok t ↔ StringMap (fieldMap fields) t := by
  show (fieldMap fields).mapM asString = .ok t ↔ _
  constructor
  · exact mapM_asString
  · intro h
    have hall : ∀ e ∈ (fieldMap fields).entries, ∃ w, e.2.asString = .ok w := by
      intro e he
      have hget := OrdMap.get?_eq_some.mpr he
      rw [h e.1] at hget
      obtain ⟨w, -, hw⟩ := Option.map_eq_some_iff.mp hget
      exact ⟨w, asString_eq_ok.mpr hw.symm⟩
    obtain ⟨r, hr⟩ := OrdMap.mapM_eq_ok.mpr hall
    have hsame : r = t := by
      refine OrdMap.ext_get? (fun k => ?_)
      have hk := (mapM_asString hr k).symm.trans (h k)
      exact Option.map_injective (fun _ _ heq => Json.string.inj heq) hk
    rw [hr, hsame]

theorem asStrings_ofMap {m : OrdMap Text Json} {t : OrdMap Text Text} :
    (ofMap m).asStrings = .ok t ↔ StringMap m t := by
  rw [ofMap, asStrings_eq_ok, fieldMap_entries]

theorem StringMap.erase {m : OrdMap Text Json} {t : OrdMap Text Text} (h : StringMap m t)
    (k : Text) :
    StringMap (m.erase k) (t.erase k) := by
  intro j
  rw [OrdMap.get?_erase, OrdMap.get?_erase, h j]
  split <;> rfl

theorem StringMap.insert {m : OrdMap Text Json} {t : OrdMap Text Text} (h : StringMap m t)
    (k v : Text) :
    StringMap (m.insert k (.string v)) (t.insert k v) := by
  intro j
  rw [OrdMap.get?_insert, OrdMap.get?_insert, h j]
  split <;> rfl

theorem StringMap.filter {m : OrdMap Text Json} {t : OrdMap Text Text} (h : StringMap m t)
    (p : Text → Bool) :
    StringMap (m.filter (fun e => p e.1)) (t.filter (fun e => p e.1)) := by
  intro j
  rw [OrdMap.get?_filter, OrdMap.get?_filter, h j]
  split <;> rfl

end Json

end Conglobate
