import Conglobate.Lib.Ascii
import Conglobate.Lib.File
import Conglobate.Lib.OrdMap
import Mathlib.Data.Finset.Card

/- Native Linux boot configuration (`boot_config/mod.rs`).

   A configuration is a map from dot-separated keys to value lists, and its
   canonical text. `canonicalize` is the source's `TryFrom`: it checks the keys
   and the node budget, drops bare parents that have children, and writes the
   text. What it returns it returns again (`canonicalize_idem`), so a
   `BootConfig` carries that as a field: no other pair of values and text can be
   built.

   Correspondence (Rust ↔ Lean):
     `plan::boot_config::Key::new`     ↔ `keyValid`
     `BootConfig::check_key`, `space`,
       `check_value`, `encode`         ↔ the same names
     the `for (key, value)` scan       ↔ `Scan`, `scanEntry`
     `TryFrom<BTreeMap<..>>`           ↔ `canonicalize`, `BootConfig.tryFrom` -/
namespace Conglobate.BootConfig

open Ascii

/-- The failures of this module, with what their messages name. -/
inductive Error where
  /-- "invalid key or key length/depth overflow: {key:?}" -/
  | invalidKey (key : Bytes)
  /-- "value contains non-printable or non-ASCII bytes" -/
  | unprintable
  /-- "value requires quoting but contains both quote characters; .." -/
  | quoting
  /-- "Linux node limit exceeded" -/
  | nodeLimit
  /-- "native text contains NUL" -/
  | nul
  /-- "{reason} at byte {at}" -/
  | syntaxError (reason : String) (byte : Nat)
  /-- Not an error of the source: the fuel of a loop ran out. -/
  | outOfFuel
  deriving DecidableEq, Repr

abbrev Values := OrdMap Bytes (List Bytes)

def maxNodes : Nat := 8192

def keyByte (c : UInt8) : Bool := isAlphanumeric c || c == hyphen || c == underscore

/-- `Key::new` accepts the key. -/
def keyValid (key : Bytes) : Bool :=
  key.length < 256 && (key.splitOn dot).length ≤ 16 &&
    (key.splitOn dot).all (fun part => !part.isEmpty && part.all keyByte)

def checkKey (key : Bytes) : Except Error Unit :=
  if keyValid key then .ok () else .error (.invalidKey key)

def space (c : UInt8) : Bool :=
  c == blank || c == tab || c == newline || c == carriageReturn || c == verticalTab || c == formFeed

def checkValue (value : Bytes) : Except Error Unit :=
  if value.all (fun c => isGraphic c || space c) then .ok () else .error .unprintable

/-- The bytes an unquoted value ends at. -/
def delimiter (c : UInt8) : Bool :=
  c == comma || c == semicolon || c == newline || c == hash || c == closeBrace

/-- What `encode` appends to the text. -/
def encode (value : Bytes) : Except Error Bytes := do
  checkValue value
  if !value.contains doubleQuote then .ok (doubleQuote :: value ++ [doubleQuote])
  else if !value.contains singleQuote then .ok (singleQuote :: value ++ [singleQuote])
  else if !value.any delimiter &&
      !value.head?.any (fun c => space c || c == singleQuote || c == doubleQuote) &&
      !value.getLast?.any space then .ok value
  else .error .quoting

/-- The prefixes of a key that end before a dot: its ancestors. -/
def ancestors (key : Bytes) : List Bytes :=
  ((List.range key.length).filter (fun i => key[i]? = some dot)).map key.take

/-- What the first walk over the map collects. -/
structure Scan where
  parents : Finset Bytes
  nodes : Finset Bytes
  count : Nat

def scanEntry (s : Scan) (entry : Bytes × List Bytes) : Except Error Scan := do
  checkKey entry.1
  .ok {
    parents := s.parents ∪ (ancestors entry.1).toFinset
    nodes := insert entry.1 (s.nodes ∪ (ancestors entry.1).toFinset)
    count := s.count + entry.2.length }

/-- The values of an entry after its first, each behind ", ". -/
def encodeMore : List Bytes → Except Error Bytes
  | [] => .ok []
  | value :: values => do
    let item ← encode value
    let more ← encodeMore values
    .ok (comma :: blank :: item ++ more)

/-- The line of one entry. -/
def encodeEntry (entry : Bytes × List Bytes) : Except Error Bytes :=
  match entry.2 with
  | [] => .ok (entry.1 ++ [semicolon, newline])
  | value :: values => do
    let item ← encode value
    let more ← encodeMore values
    .ok (entry.1 ++ [blank, equals, blank] ++ (item ++ more) ++ [semicolon, newline])

def encodeEntries : List (Bytes × List Bytes) → Except Error Bytes
  | [] => .ok []
  | entry :: entries => do
    let line ← encodeEntry entry
    let text ← encodeEntries entries
    .ok (line ++ text)

/-- The retained values and their text. -/
def canonicalize (values : Values) : Except Error (Values × Bytes) := do
  let s ← values.entries.foldlM scanEntry ⟨∅, ∅, 0⟩
  if s.count + s.nodes.card > maxNodes then .error .nodeLimit
  else do
    let text ← encodeEntries (values.filter (fun e => !e.2.isEmpty || e.1 ∉ s.parents)).entries
    .ok (values.filter (fun e => !e.2.isEmpty || e.1 ∉ s.parents), text)

/-! What the scan collects. -/

def keyNodes (key : Bytes) : Finset Bytes := insert key (ancestors key).toFinset

/-- Every key of the entries and every ancestor of one. -/
def nodesOf : List (Bytes × List Bytes) → Finset Bytes
  | [] => ∅
  | e :: rest => keyNodes e.1 ∪ nodesOf rest

def parentsOf : List (Bytes × List Bytes) → Finset Bytes
  | [] => ∅
  | e :: rest => (ancestors e.1).toFinset ∪ parentsOf rest

def countOf (entries : List (Bytes × List Bytes)) : Nat := (entries.map (fun e => e.2.length)).sum

theorem mem_nodesOf {entries : List (Bytes × List Bytes)} {k : Bytes} :
    k ∈ nodesOf entries ↔ ∃ e ∈ entries, k ∈ keyNodes e.1 := by
  induction entries with
  | nil => simp [nodesOf]
  | cons e rest ih => simp [nodesOf, ih]

theorem mem_parentsOf {entries : List (Bytes × List Bytes)} {k : Bytes} :
    k ∈ parentsOf entries ↔ ∃ e ∈ entries, k ∈ ancestors e.1 := by
  induction entries with
  | nil => simp [parentsOf]
  | cons e rest ih => simp [parentsOf, ih]

theorem checkKey_eq_ok {key : Bytes} : checkKey key = .ok () ↔ keyValid key = true := by
  rw [checkKey]
  split <;> simp [*]

theorem scan_eq_ok {entries : List (Bytes × List Bytes)} {s s' : Scan} :
    entries.foldlM scanEntry s = .ok s' ↔ (∀ e ∈ entries, keyValid e.1 = true) ∧
      s' = ⟨s.parents ∪ parentsOf entries, s.nodes ∪ nodesOf entries,
        s.count + countOf entries⟩ := by
  induction entries generalizing s with
  | nil =>
    simp only [List.foldlM_nil, parentsOf, nodesOf, countOf, Finset.union_empty]
    constructor
    · rintro ⟨⟩
      simp
    · rintro ⟨-, rfl⟩
      rfl
  | cons e rest ih =>
    rw [List.foldlM_cons, except_bind_eq_ok]
    have hcount : countOf (e :: rest) = e.2.length + countOf rest := by simp [countOf]
    have hnodes : insert e.1 (s.nodes ∪ (ancestors e.1).toFinset) ∪ nodesOf rest =
        s.nodes ∪ nodesOf (e :: rest) := by
      simp only [nodesOf, keyNodes, Finset.insert_union, Finset.union_insert, Finset.union_assoc]
    constructor
    · rintro ⟨t, ht, hrest⟩
      obtain ⟨⟨⟩, hkey, ht⟩ := except_bind_eq_ok.mp ht
      cases ht
      obtain ⟨hvalid, rfl⟩ := ih.mp hrest
      refine ⟨List.forall_mem_cons.mpr ⟨checkKey_eq_ok.mp hkey, hvalid⟩, ?_⟩
      simp only [hnodes, hcount, parentsOf, Finset.union_assoc, Nat.add_assoc]
    · rintro ⟨hvalid, rfl⟩
      obtain ⟨hkey, hvalid⟩ := List.forall_mem_cons.mp hvalid
      refine ⟨_, by rw [scanEntry, checkKey_eq_ok.mpr hkey, except_ok_bind], ih.mpr ⟨hvalid, ?_⟩⟩
      simp only [hnodes, hcount, parentsOf, Finset.union_assoc, Nat.add_assoc]

/-- The entries `retain` keeps. -/
def retained (values : Values) : Values :=
  values.filter (fun e => !e.2.isEmpty || e.1 ∉ parentsOf values.entries)

/-- **What `canonicalize` accepts, and what it returns.** -/
theorem canonicalize_eq_ok {values kept : Values} {text : Bytes} :
    canonicalize values = .ok (kept, text) ↔
      (∀ e ∈ values.entries, keyValid e.1 = true) ∧
      countOf values.entries + (nodesOf values.entries).card ≤ maxNodes ∧
      kept = retained values ∧ encodeEntries kept.entries = .ok text := by
  rw [canonicalize, except_bind_eq_ok]
  constructor
  · rintro ⟨s, hs, h⟩
    obtain ⟨hvalid, rfl⟩ := scan_eq_ok.mp hs
    simp only [Finset.empty_union, Nat.zero_add] at h
    split at h
    · cases h
    · rename_i hcount
      obtain ⟨t, ht, h⟩ := except_bind_eq_ok.mp h
      cases h
      exact ⟨hvalid, by omega, rfl, ht⟩
  · rintro ⟨hvalid, hcount, rfl, ht⟩
    refine ⟨_, scan_eq_ok.mpr ⟨hvalid, rfl⟩, ?_⟩
    simp only [Finset.empty_union, Nat.zero_add]
    rw [if_neg (by omega)]
    have ht' : encodeEntries (values.filter (fun e => !e.2.isEmpty ||
      e.1 ∉ parentsOf values.entries)).entries =
      .ok text := ht
    rw [ht', except_ok_bind]
    rfl

theorem retained_subset {values : Values} {e : Bytes × List Bytes}
    (h : e ∈ (retained values).entries) :
    e ∈ values.entries := (List.mem_filter.mp h).1

/-- What is retained is retained again. -/
theorem retained_retained (values : Values) : retained (retained values) = retained values := by
  apply OrdMap.ext
  change (retained values).entries.filter _ = (retained values).entries
  rw [List.filter_eq_self]
  intro e he
  have hkeep := (List.mem_filter.mp he).2
  simp only [Bool.or_eq_true, Bool.not_eq_true', decide_eq_true_eq] at hkeep ⊢
  refine hkeep.imp id (fun hout hin => hout ?_)
  obtain ⟨x, hx, hmem⟩ := mem_parentsOf.mp hin
  exact mem_parentsOf.mpr ⟨x, retained_subset hx, hmem⟩

theorem countOf_sublist {l l' : List (Bytes × List Bytes)} (h : l.Sublist l') :
    countOf l ≤ countOf l' := by
  unfold countOf
  induction h with
  | slnil => exact Nat.le_refl _
  | cons e _ ih => exact Nat.le_trans ih (by simp)
  | cons_cons e _ ih => simpa using ih

theorem nodesOf_subset {l l' : List (Bytes × List Bytes)} (h : ∀ e ∈ l, e ∈ l') :
    nodesOf l ⊆ nodesOf l' := by
  intro k hk
  obtain ⟨e, he, hmem⟩ := mem_nodesOf.mp hk
  exact mem_nodesOf.mpr ⟨e, h e he, hmem⟩

/-- The entries retained cost no more nodes. -/
theorem retained_budget (values : Values) :
    countOf (retained values).entries + (nodesOf (retained values).entries).card ≤
      countOf values.entries + (nodesOf values.entries).card :=
  Nat.add_le_add (countOf_sublist List.filter_sublist)
    (Finset.card_le_card (nodesOf_subset (fun _ h => retained_subset h)))

/-- **Canonicalizing is idempotent.** -/
theorem canonicalize_idem {values kept : Values} {text : Bytes}
    (h : canonicalize values = .ok (kept, text)) :
    canonicalize kept = .ok (kept, text) := by
  obtain ⟨hvalid, hcount, rfl, ht⟩ := canonicalize_eq_ok.mp h
  rw [canonicalize_eq_ok]
  exact ⟨fun e he => hvalid e (retained_subset he), Nat.le_trans (retained_budget values) hcount,
    (retained_retained values).symm, ht⟩

end BootConfig

/-- A boot configuration: values in canonical form, and their text. -/
structure BootConfig where
  values : BootConfig.Values
  text : Bytes
  canonical : BootConfig.canonicalize values = .ok (values, text)

namespace BootConfig

@[ext] theorem ext {c d : BootConfig} (h : c.values = d.values) : c = d := by
  obtain ⟨values, text, hc⟩ := c
  obtain ⟨values', text', hd⟩ := d
  cases h
  rw [hc, Except.ok.injEq, Prod.mk.injEq] at hd
  cases hd.2
  rfl

def tryFrom (values : Values) : Except Error BootConfig :=
  match h : canonicalize values with
  | .ok (kept, text) => .ok ⟨kept, text, canonicalize_idem h⟩
  | .error e => .error e

theorem tryFrom_eq_ok {values : Values} {c : BootConfig} :
    tryFrom values = .ok c ↔ canonicalize values = .ok (c.values, c.text) := by
  unfold tryFrom
  split
  · rename_i kept text h
    constructor
    · rintro ⟨⟩
      exact h
    · intro hc
      rw [h, Except.ok.injEq, Prod.mk.injEq] at hc
      exact congrArg Except.ok (BootConfig.ext hc.1)
  · rename_i e h
    simp [h]

/-- The configuration with no keys. -/
def default : BootConfig := ⟨OrdMap.empty, [], rfl⟩

end BootConfig

end Conglobate
