import Conglobate.Copy.Source

/- The entries of a captured context (`context/mod.rs`).

   A captured name is one a tree may have (`EntryName`): no separator, no NUL, and
   none of the names with a meaning of their own. A captured map has such names
   only, and below an entry there is something only if it is a directory. -/
namespace Conglobate.Context

open Copy

/-- `u8::to_ascii_lowercase`. -/
def toAsciiLowercase (b : UInt8) : UInt8 := if 65 ≤ b && b ≤ 90 then b + 32 else b

/-- ".git" -/
def gitName : Bytes := [46, 103, 105, 116]

/-- What `EntryName::try_from` takes. -/
def entryName (bytes : Bytes) : Bool :=
  !(bytes == [] || bytes == dotName || bytes == dotdotName ||
    bytes.map toAsciiLowercase == gitName ||
    bytes.contains slash || bytes.contains 0)

/-- The entries are those of one tree. -/
structure Captured (entries : Entries) : Prop where
  root : [] ∉ entries.keys
  names : ∀ path ∈ entries.keys, ∀ name ∈ path, entryName name = true
  parents : ∀ path name, path ++ [name] ∈ entries.keys → path = [] ∨ entries.get? path =
    some .directory

theorem entryName_eq_true {bytes : Bytes} (h : entryName bytes = true) :
    bytes ≠ [] ∧ bytes ≠ dotName ∧ bytes ≠ dotdotName ∧ slash ∉ bytes := by
  simp only [entryName, Bool.not_eq_true', Bool.or_eq_false_iff, beq_eq_false_iff_ne,
    List.contains_eq_mem, decide_eq_false_iff_not] at h
  obtain ⟨⟨⟨⟨⟨hnil, hdot⟩, hdotdot⟩, -⟩, hslash⟩, -⟩ := h
  exact ⟨hnil, hdot, hdotdot, hslash⟩

end Conglobate.Context
