import Conglobate.Context.Expand

/- Contexts of one place that are expanded more or less.

   Two contexts that show the same place differ only at modules that one of them has not
   expanded, and below them. What is in a directory of both is the same, name by name, but
   for store numbers (`Partly.child`); so is all that is below a path with no module left
   (`Partly.same_below`).

   What is proved:
     1. `Shows.partly` — a context stands so to what it becomes;
     2. `Partly.same_below` — where nothing is left to expand, nothing is hidden. -/
namespace Conglobate.Context

open Copy

/-- How an entry may change while modules are expanded. -/
inductive Grew : Option ContextEntry → Option ContextEntry → Prop where
  | none : Grew none none
  | same {e e' : ContextEntry} : e.isModule = false → unnumbered e = unnumbered e' →
      Grew (some e) (some e')
  | module {e e' : ContextEntry} : e.isModule = true → Grew (some e) (some e')

/-- The second entries are the first with modules expanded. -/
structure Partly (entries entries' : Entries) : Prop where
  captured : Captured entries
  captured' : Captured entries'
  grown : Grown entries entries'
  child : ∀ path name, IsDirectory entries path → Grew (entries.get? (path ++ [name]))
    (entries'.get? (path ++ [name]))

/-- A path whose directory is expanded. -/
def Near (entries : Entries) (path : EntryPath) :
    Prop := path = [] ∨ ∃ d name, path = d ++ [name] ∧ IsDirectory entries d

/-- What is captured is in a directory. -/
theorem Near.of_key {entries : Entries} (hcaptured : Captured entries) {path : EntryPath}
    (h : path ∈ entries.keys) :
    Near entries path := by
  obtain rfl | ⟨d, name, rfl⟩ := List.eq_nil_or_concat path
  · exact .inl rfl
  · rw [List.concat_eq_append] at h ⊢
    exact .inr ⟨d, name, rfl, hcaptured.parents d name h⟩

theorem Near.of_directory {entries : Entries} (hcaptured : Captured entries) {path : EntryPath}
    (h : IsDirectory entries path) :
    Near entries path := by
  obtain hnil | hget := h
  · exact .inl hnil
  · exact .of_key hcaptured (OrdMap.mem_keys.mpr (by rw [hget]; rfl))

theorem unnumbered_isModule (e : ContextEntry) : (unnumbered e).isModule = e.isModule := by
  cases e <;> rfl

theorem unnumbered_directory {e e' : ContextEntry} (h : unnumbered e = unnumbered e') :
    e = .directory ↔ e' = .directory := by
  have hside : ∀ e : ContextEntry, e = .directory ↔ unnumbered e = .directory := by
    intro e
    cases e <;> simp [unnumbered]
  rw [hside e, h, ← hside e']

namespace Grew

variable {o o' : Option ContextEntry}

/-- But for a module, the same is there. -/
theorem same_of_plain (h : Grew o o') (hplain : o.any ContextEntry.isModule = false) :
    o.map unnumbered = o'.map unnumbered := by
  cases h with
  | none => rfl
  | same _ heq => rw [Option.map_some, Option.map_some, heq]
  | module hmodule =>
    rw [Option.any_some, hmodule] at hplain
    cases hplain

theorem isSome (h : Grew o o') : o.isSome = o'.isSome := by
  cases h <;> rfl

end Grew

theorem directory_same {o o' : Option ContextEntry} (h : o.map unnumbered = o'.map unnumbered) :
    o = some .directory ↔ o' = some .directory := by
  cases o with
  | none =>
    rw [Option.map_none, eq_comm, Option.map_eq_none_iff] at h
    rw [h]
  | some e =>
    rw [Option.map_some, eq_comm, Option.map_eq_some_iff] at h
    obtain ⟨e', rfl, heq⟩ := h
    rw [Option.some.injEq, Option.some.injEq]
    exact unnumbered_directory heq.symm

namespace Partly

variable {entries entries' : Entries}

/-- A directory has children of the same names. -/
theorem mem_keys (h : Partly entries entries') {path : EntryPath} (hdir : IsDirectory entries path)
    (name : Bytes) :
    path ++ [name] ∈ entries.keys ↔ path ++ [name] ∈ entries'.keys := by
  rw [OrdMap.mem_keys, OrdMap.mem_keys, (h.child path name hdir).isSome]

theorem same_at (h : Partly entries entries') {path : EntryPath} (hnear : Near entries path)
    (hplain : (entries.get? path).any ContextEntry.isModule = false) :
    (entries.get? path).map unnumbered = (entries'.get? path).map unnumbered := by
  obtain rfl | ⟨d, name, rfl, hdir⟩ := hnear
  · have hroot : ∀ {m : Entries}, Captured m → m.get? [] = none := by
      intro m hcaptured
      rw [← Option.not_isSome_iff_eq_none, ← OrdMap.mem_keys]
      exact hcaptured.root
    rw [hroot h.captured, hroot h.captured']
  · exact (h.child d name hdir).same_of_plain hplain

theorem directory_iff (h : Partly entries entries') {path : EntryPath} (hnear : Near entries path)
    (hplain : (entries.get? path).any ContextEntry.isModule = false) :
    IsDirectory entries path ↔ IsDirectory entries' path :=
  or_congr_right (directory_same (h.same_at hnear hplain))

/-- What is no module in the first is none in the second. -/
theorem plain (h : Partly entries entries') {path : EntryPath} (hnear : Near entries path)
    (hplain : (entries.get? path).any ContextEntry.isModule = false) :
    (entries'.get? path).any ContextEntry.isModule = false := by
  have hsame := h.same_at hnear hplain
  have hany : ∀ o : Option ContextEntry, o.any ContextEntry.isModule =
      (o.map unnumbered).any ContextEntry.isModule := by
    intro o
    cases o with
    | none => rfl
    | some e => exact (unnumbered_isModule e).symm
  rw [hany, ← hsame, ← hany, hplain]

/-- **At and below a path without modules there is the same** in both. -/
theorem same_below (h : Partly entries entries') {path : EntryPath} (hnear : Near entries path)
    (hplain : ∀ q, path <+: q → (entries.get? q).any ContextEntry.isModule = false)
    (rest : EntryPath) :
    (entries.get? (path ++ rest)).map unnumbered =
      (entries'.get? (path ++ rest)).map unnumbered := by
  induction rest using List.reverseRecOn with
  | nil =>
    rw [List.append_nil]
    exact h.same_at hnear (hplain path (List.prefix_refl _))
  | append_singleton rest name ih =>
    rw [← List.append_assoc]
    have hhere : (entries.get? (path ++ rest ++ [name])).any ContextEntry.isModule = false := by
      apply hplain
      rw [List.append_assoc]
      exact List.prefix_append _ _
    by_cases habove : IsDirectory entries (path ++ rest)
    · exact (h.child _ name habove).same_of_plain hhere
    -- below what is no directory there is nothing, in either
    have habove' : ¬ IsDirectory entries' (path ++ rest) := fun hdir' =>
      habove (hdir'.imp_right fun hget => (directory_same ih).mpr hget)
    have hnone : ∀ {m : Entries}, Captured m → ¬ IsDirectory m (path ++ rest) →
        m.get? (path ++ rest ++ [name]) = none := by
      intro m hcaptured hnot
      rw [← Option.not_isSome_iff_eq_none, ← OrdMap.mem_keys]
      intro hkey
      exact hnot (hcaptured.parents _ name hkey)
    rw [hnone h.captured habove, hnone h.captured' habove']

/-- A link stays what it is. -/
theorem symlink (h : Partly entries entries') {path : EntryPath} {name : Bytes}
    (hdir : IsDirectory entries path) {target : Bytes}
    (hget : entries.get? (path ++ [name]) = some (.symlink target)) :
    entries'.get? (path ++ [name]) = some (.symlink target) := by
  have hchild := h.child path name hdir
  rw [hget] at hchild
  generalize entries'.get? (path ++ [name]) = o' at hchild
  cases hchild with
  | @same _ e' _ heq => cases e' <;> simp_all [unnumbered]
  | module hmodule => cases hmodule

/-- So does a file, but for its store's number. -/
theorem file (h : Partly entries entries') {path : EntryPath} {name : Bytes}
    (hdir : IsDirectory entries path) {store : Nat} {executable : Bool} {oid : ObjectId}
    (hget : entries.get? (path ++ [name]) = some (.file store executable oid)) :
    ∃ store', entries'.get? (path ++ [name]) = some (.file store' executable oid) := by
  have hchild := h.child path name hdir
  rw [hget] at hchild
  generalize entries'.get? (path ++ [name]) = o' at hchild
  cases hchild with
  | @same _ e' _ heq => cases e' <;> simp_all [unnumbered]
  | module hmodule => cases hmodule

end Partly

section
variable {ρ : Type} {g : Git ρ} {P₀ : Place ρ} {c c' : CapturedContext ρ}

/-- Entries that tell the same thing differ only by a module that is expanded. -/
theorem Tells.grew {stores stores' : List (Store ρ)} {e e' : ContextEntry} {thing : Thing ρ}
    (h : Tells g stores e thing) (h' : Tells g stores' e' thing) (hplain : e.isModule = false)
    (hdir : e = .directory → e' = .directory) :
    unnumbered e = unnumbered e' := by
  by_cases hmodule : e'.isModule = true
  · -- the thing is a module, which the first has expanded
    have hnested := h'.directory_iff.mpr (.inr hmodule)
    obtain rfl | hmodule' := h.directory_iff.mp hnested
    · rw [hdir rfl]
    · rw [hplain] at hmodule'
      cases hmodule'
  · rw [h.shown hplain, h'.shown (Bool.eq_false_of_not_eq_true hmodule)]

/-- **A context and what it becomes** are the same place, expanded more. -/
theorem Shows.partly (h : Shows g P₀ c) (h' : Shows g P₀ c') (hgrown : Grown c.entries c'.entries) :
    Partly c.entries c'.entries where
  captured := h.captured
  captured' := h'.captured
  grown := hgrown
  child path name hdir := by
    obtain ⟨P, hP⟩ := h.place hdir
    obtain ⟨-, hlisted⟩ := h.listed path P hdir hP
    obtain ⟨-, hlisted'⟩ := h'.listed path P (hgrown path hdir) hP
    cases hget : c.entries.get? (path ++ [name]) with
    | none =>
      cases hget' : c'.entries.get? (path ++ [name]) with
      | none => exact .none
      | some e' =>
        -- it would be listed
        obtain ⟨Q, thing, hQ, hthing, -⟩ := h'.tells path name e' hget'
        rw [hP, Option.some.injEq] at hQ
        obtain ⟨e, he⟩ := hlisted name thing (hQ ▸ hthing)
        rw [hget] at he
        cases he
    | some e =>
      obtain ⟨Q, thing, hQ, hthing, htells⟩ := h.tells path name e hget
      rw [hP, Option.some.injEq] at hQ
      subst hQ
      obtain ⟨e', hget'⟩ := hlisted' name thing hthing
      obtain ⟨Q', thing', hQ', hthing', htells'⟩ := h'.tells path name e' hget'
      rw [hP, Option.some.injEq] at hQ'
      rw [← hQ', hthing, Option.some.injEq] at hthing'
      subst hthing'
      rw [hget']
      cases hmodule : e.isModule with
      | true => exact .module hmodule
      | false =>
        refine .same hmodule (htells.grew htells' hmodule fun heq => ?_)
        rw [heq] at hget
        have hdir' := (hgrown _ (.inr hget)).resolve_left (List.concat_ne_nil _ _)
        rw [hget', Option.some.injEq] at hdir'
        exact hdir'

end

end Conglobate.Context
