import Conglobate.Copy.Selection

/- What is below a COPY source (`CopySource::descendants`, `copy/source.rs`).

   The captured entries are one ordered map, and paths are ordered name by name, so what
   is below a path is one range of it (`descendants_exact`). -/
namespace Conglobate.Copy

namespace CopySource

def isDirectory (entries : Entries) (s : CopySource) : Bool :=
  decide (s.resolved = []) || decide (entries.get? s.resolved = some .directory)

/-- An entry relative to the source, unless it is the source. -/
def relative (s : CopySource) (e : EntryPath × ContextEntry) : Option (EntryPath × ContextEntry) :=
  if s.resolved.isPrefixOf e.1 && e.1.drop s.resolved.length ≠ [] then
    some (e.1.drop s.resolved.length, e.2) else none

/-- `entries.range(resolved..)` while below it. -/
def descendants (entries : Entries) (s : CopySource) : List (EntryPath × ContextEntry) :=
  ((entries.entries.dropWhile fun e => decide (e.1 < s.resolved)).takeWhile fun e =>
    s.isDirectory entries && s.resolved.isPrefixOf e.1).filterMap s.relative

end CopySource

/-- Below an entry there is something only if it is a directory. -/
theorem directory_above {entries : Entries}
    (hparents : ∀ path name, path ++ [name] ∈ entries.keys → path = [] ∨
    entries.get? path = some .directory) {path rest : EntryPath} (hrest : rest ≠ [])
    (h : path ++ rest ∈ entries.keys) :
    path = [] ∨ entries.get? path = some .directory := by
  induction rest using List.reverseRecOn with
  | nil => exact absurd rfl hrest
  | append_singleton rest name ih =>
    rw [← List.append_assoc] at h
    by_cases hnil : rest = []
    · rw [hnil, List.append_nil] at h
      exact hparents path name h
    · obtain hroot | hdir := hparents (path ++ rest) name h
      · exact absurd (List.append_eq_nil_iff.mp hroot).2 hnil
      · apply ih hnil
        rw [OrdMap.mem_keys, hdir]
        rfl

theorem CopySource.relative_eq_some {s : CopySource} {e : EntryPath × ContextEntry} {r : EntryPath}
    {entry : ContextEntry} :
    s.relative e = some (r, entry) ↔ r ≠ [] ∧ e = (s.resolved ++ r, entry) := by
  obtain ⟨path, value⟩ := e
  rw [relative]
  constructor
  · intro h
    split at h
    · rename_i hbelow
      rw [Bool.and_eq_true, List.isPrefixOf_iff_prefix] at hbelow
      obtain ⟨⟨rest, rfl⟩, hne⟩ := hbelow
      simp only [List.drop_left, Option.some.injEq, Prod.mk.injEq, ne_eq, decide_not,
        Bool.not_eq_true', decide_eq_false_iff_not] at h hne
      obtain ⟨rfl, rfl⟩ := h
      exact ⟨hne, rfl⟩
    · cases h
  · intro h
    obtain ⟨hne, heq⟩ := h
    obtain ⟨rfl, rfl⟩ := Prod.mk.inj heq
    simp [hne]

/-- The range has what is at or below the source, if that is a directory. -/
theorem CopySource.mem_descendants {entries : Entries} {s : CopySource} {r : EntryPath}
    {entry : ContextEntry} :
    (r, entry) ∈ s.descendants entries ↔
      s.isDirectory entries = true ∧ r ≠ [] ∧ entries.get? (s.resolved ++ r) = some entry := by
  rw [descendants, List.mem_filterMap]
  cases hdir : s.isDirectory entries with
  | false =>
    refine iff_of_false (fun h => ?_) (fun h => Bool.false_ne_true h.1)
    obtain ⟨e, he, -⟩ := h
    have hfalse := List.mem_takeWhile_imp he
    rw [Bool.false_and] at hfalse
    exact Bool.false_ne_true hfalse
  | true =>
    simp only [Bool.true_and, true_and]
    -- the keys of the range are the range of the keys
    have hkeys : ((entries.entries.dropWhile fun e => decide (e.1 < s.resolved)).takeWhile fun e =>
        s.resolved.isPrefixOf e.1).map Prod.fst =
        (entries.keys.dropWhile fun path => decide (path < s.resolved)).takeWhile fun path =>
            s.resolved.isPrefixOf path := by
      rw [OrdMap.keys, List.dropWhile_map, List.takeWhile_map]
      rfl
    have hsub : ((entries.entries.dropWhile fun e => decide (e.1 < s.resolved)).takeWhile fun e =>
        s.resolved.isPrefixOf e.1) ⊆ entries.entries :=
      ((List.takeWhile_sublist _).trans (List.dropWhile_sublist _)).subset
    constructor
    · intro h
      obtain ⟨e, he, hrelative⟩ := h
      obtain ⟨hne, rfl⟩ := relative_eq_some.mp hrelative
      exact ⟨hne, OrdMap.get?_eq_some.mpr (hsub he)⟩
    · intro h
      obtain ⟨hne, hget⟩ := h
      refine ⟨(s.resolved ++ r, entry), ?_, relative_eq_some.mpr ⟨hne, rfl⟩⟩
      have hkey : s.resolved ++ r ∈ entries.keys := by
        rw [OrdMap.mem_keys, hget]
        rfl
      have hrange := (mem_range (keys_pairwise entries)).mpr ⟨hkey, List.prefix_append s.resolved r⟩
      rw [← hkeys] at hrange
      obtain ⟨e, he, hpath⟩ := List.mem_map.mp hrange
      have hentry := OrdMap.get?_eq_some.mpr (hsub he)
      rw [hpath, hget, Option.some.injEq] at hentry
      have heq : e = (s.resolved ++ r, entry) := Prod.ext hpath hentry.symm
      exact heq ▸ he

theorem lt_of_append_lt {path r r' : EntryPath} (h : path ++ r < path ++ r') : r < r' := by
  induction path with
  | nil => exact h
  | cons name path ih =>
    rw [List.cons_append, List.cons_append, List.cons_lt_cons_iff] at h
    obtain hlt | ⟨-, hlt⟩ := h
    · exact absurd hlt (lt_irrefl name)
    · exact ih hlt

/-- They come in the order of their paths. -/
theorem CopySource.descendants_sorted (entries : Entries) (s : CopySource) :
    ((s.descendants entries).map Prod.fst).Pairwise (· < ·) := by
  have hrange : ((entries.entries.dropWhile fun e => decide (e.1 < s.resolved)).takeWhile fun e =>
      s.isDirectory entries && s.resolved.isPrefixOf e.1).Pairwise (fun a b => a.1 < b.1) :=
    entries.sorted.sublist ((List.takeWhile_sublist _).trans (List.dropWhile_sublist _))
  rw [List.pairwise_map, descendants, List.pairwise_filterMap]
  refine hrange.imp fun {a b} hless r hr r' hr' => ?_
  obtain ⟨r, entry⟩ := r
  obtain ⟨r', entry'⟩ := r'
  obtain ⟨-, rfl⟩ := relative_eq_some.mp hr
  obtain ⟨-, rfl⟩ := relative_eq_some.mp hr'
  exact lt_of_append_lt hless

/-- **Descendants are exact**: every entry strictly below the source, once, directories before
    what is in them, and nothing of a file. -/
theorem descendants_exact (entries : Entries) (s : CopySource)
    (hparents : ∀ path name, path ++ [name] ∈ entries.keys → path = [] ∨
    entries.get? path = some .directory) :
    (∀ r entry, (r, entry) ∈ s.descendants entries ↔ r ≠ [] ∧
      entries.get? (s.resolved ++ r) = some entry) ∧
      ((s.descendants entries).map Prod.fst).Nodup ∧
      ((s.descendants entries).map Prod.fst).Pairwise (fun a b => ¬ b <+: a) ∧
      (s.isDirectory entries = false → s.descendants entries = []) := by
  have hsorted := CopySource.descendants_sorted entries s
  refine ⟨fun r entry => ?_, ?_, ?_, ?_⟩
  · rw [CopySource.mem_descendants]
    refine and_iff_right_of_imp fun h => ?_
    have hkey : s.resolved ++ r ∈ entries.keys := by
      rw [OrdMap.mem_keys, h.2]
      rfl
    rw [CopySource.isDirectory, Bool.or_eq_true, decide_eq_true_eq, decide_eq_true_eq]
    exact directory_above hparents h.1 hkey
  · exact hsorted.imp fun h => ne_of_lt h
  · exact hsorted.imp fun h hpre => not_lt_of_prefix hpre h
  · intro hfile
    rw [CopySource.descendants, hfile, List.filterMap_eq_nil_iff]
    intro e he
    have hfalse := List.mem_takeWhile_imp he
    rw [Bool.false_and] at hfalse
    exact absurd hfalse Bool.false_ne_true

/-- "d", "d-b", and the file "d/f". -/
def siblings : Entries :=
  ((OrdMap.empty.insert [[100]] .directory).insert [[100, 45, 98]] .directory).insert
    [[100], [102]] (.file 0 false [])

/-- Below "d" there is "f", and not what is below "d-b". -/
theorem siblings_descendants :
    (∀ r entry, (r, entry) ∈ CopySource.descendants siblings ⟨[[100]], [[100]]⟩ ↔
      r ≠ [] ∧ siblings.get? ([[100]] ++ r) = some entry) ∧
      ((CopySource.descendants siblings ⟨[[100]], [[100]]⟩).map Prod.fst).Nodup ∧
      ((CopySource.descendants siblings ⟨[[100]], [[100]]⟩).map Prod.fst).Pairwise
        (fun a b => ¬ b <+: a) ∧
      (CopySource.isDirectory siblings ⟨[[100]], [[100]]⟩ = false → CopySource.descendants siblings
        ⟨[[100]], [[100]]⟩ = []) := by
  apply descendants_exact
  intro path name hkey
  have hkeys : siblings.keys = [[[100]], [[100], [102]], [[100, 45, 98]]] := by decide
  rw [hkeys] at hkey
  simp only [List.mem_cons, List.not_mem_nil, or_false] at hkey
  obtain heq | heq | heq := hkey
  · exact .inl (List.append_inj' (show path ++ [name] = [] ++ [[100]] from heq) rfl).1
  · obtain ⟨rfl, -⟩ := List.append_inj' (show path ++ [name] = [[100]] ++ [[102]] from heq) rfl
    exact .inr (by decide)
  · exact .inl (List.append_inj' (show path ++ [name] = [] ++ [[100, 45, 98]] from heq) rfl).1

end Conglobate.Copy
