import Conglobate.Context.Entry
import Conglobate.Lib.Posix
import Conglobate.Lib.Split

/- Where a COPY source resolves to (`SourceTree::resolve`, `copy/source.rs`).

   The captured tree is a tree to walk in (`tree`): a file is a leaf, a link's
   target its names with a dot for a slash at the end, and an unexpanded module
   nothing. `resolve` keeps a link's names in another form (`linkParts`: dots between
   names are dropped), which asks the same of a walk (`Alike`, `resolveFrom_alike`).

   What is proved:
     1. `resolveState_sound` — what the loop returns is where the walk ends, and
        nothing on the way is an absolute link, leaves the root or is the
        forty-first link;
     2. `resolveState_complete` — such a walk's end is returned;
     3. `resolve_confined` — both, with what the tree has at the result.

   Requested paths are read by `Path::iter` (`pathIter`): a slash or a slash and a
   dot at their end are dropped, unlike a link's, and an absolute one's first name
   is the slash, which no captured entry has. -/
namespace Conglobate.Copy

open Context

/-! Paths as names. -/

/-- The names between a path's slashes, a slash at the end with a dot behind it. -/
def posixParts (path : Bytes) : List Bytes :=
  (path.splitOn slash).filter (fun part => part ≠ []) ++ if path.getLast? =
    some slash then [dotName] else []

/-- `Path::iter`. -/
def pathIter (path : Bytes) : List Bytes :=
  (if isAbsolute path then [[slash]] else []) ++ pathParts path

/-- Lists of names that ask the same: dots in front of others make no difference. -/
inductive Alike : List Bytes → List Bytes → Prop where
  | nil : Alike [] []
  | name (part : Bytes) {a b : List Bytes} : Alike a b → Alike (part :: a) (part :: b)
  | dotLeft {a b : List Bytes} : a ≠ [] → Alike a b → Alike (dotName :: a) b
  | dotRight {a b : List Bytes} : b ≠ [] → Alike a b → Alike a (dotName :: b)

namespace Alike

theorem refl : ∀ a : List Bytes, Alike a a
  | [] => .nil
  | part :: rest => .name part (refl rest)

theorem append_left (l : List Bytes) {a b : List Bytes} (h : Alike a b) :
    Alike (l ++ a) (l ++ b) := by
  induction l with
  | nil => exact h
  | cons part rest ih => exact ih.name part

theorem eq_nil_iff {a b : List Bytes} (h : Alike a b) : a = [] ↔ b = [] := by
  induction h with
  | nil => exact Iff.rfl
  | name _ _ _ => exact iff_of_false (List.cons_ne_nil _ _) (List.cons_ne_nil _ _)
  | dotLeft ha _ ih => exact iff_of_false (List.cons_ne_nil _ _) (fun hb => ha (ih.mpr hb))
  | dotRight hb _ ih => exact iff_of_false (fun ha => hb (ih.mp ha)) (List.cons_ne_nil _ _)

theorem symm {a b : List Bytes} (h : Alike a b) : Alike b a := by
  induction h with
  | nil => exact .nil
  | name part _ ih => exact ih.name part
  | dotLeft ha _ ih => exact ih.dotRight ha
  | dotRight hb _ ih => exact ih.dotLeft hb

/-- Dots in front of a name can be left out. -/
theorem filter_dots (l : List Bytes) {tail : List Bytes} (htail : tail ≠ []) :
    Alike (l ++ tail) (l.filter (fun part => part ≠ dotName) ++ tail) := by
  induction l with
  | nil => exact .refl tail
  | cons part rest ih =>
    by_cases hdot : part = dotName
    · rw [List.filter_cons_of_neg (by simp [hdot]), hdot]
      exact ih.dotLeft (List.append_ne_nil_of_right_ne_nil _ htail)
    · rw [List.filter_cons_of_pos (by simp [hdot])]
      exact ih.name part

end Alike

/-- A path with a slash has a last one, and a name or nothing behind it. -/
theorem endsInDirectory_of_split {pre last : Bytes} (hlast : slash ∉ last) :
    endsInDirectory (pre ++ slash :: last) = true ↔ last = [] ∨ last = dotName := by
  rw [endsInDirectory, Bool.or_eq_true, List.isSuffixOf_iff_suffix, List.isSuffixOf_iff_suffix]
  constructor
  · rintro (hslash | hdot)
    · obtain ⟨q, hq⟩ := hslash
      obtain rfl | ⟨init, c, rfl⟩ := List.eq_nil_or_concat last
      · exact .inl rfl
      · rw [List.concat_eq_append, ← List.cons_append, ← List.append_assoc] at hq
        have hc := (List.append_inj' hq rfl).2
        exact absurd (by simp [← List.singleton_inj.mp hc] : slash ∈ init.concat c) hlast
    · obtain ⟨q, hq⟩ := hdot
      obtain rfl | ⟨init, c, rfl⟩ := List.eq_nil_or_concat last
      · exact .inl rfl
      · rw [List.concat_eq_append, ← List.cons_append, ← List.append_assoc] at hq
        have hsplit : q ++ [slash] ++ [46] = (pre ++ slash :: init) ++ [c] := by simpa using hq
        obtain ⟨hinit, hc⟩ := List.append_inj' hsplit rfl
        obtain rfl | ⟨first, d, rfl⟩ := List.eq_nil_or_concat init
        · exact .inr (by rw [← List.singleton_inj.mp hc]; rfl)
        · have hinit : q ++ [slash] = (pre ++ slash :: first) ++ [d] := by simpa using hinit
          have hd := (List.append_inj' hinit rfl).2
          exact absurd (by simp [← List.singleton_inj.mp hd] : slash ∈ (first.concat d).concat c) hlast
  · rintro (rfl | rfl)
    · exact .inl (List.suffix_append _ _)
    · exact .inr (List.suffix_append _ _)

theorem intercalate_concat (first : Bytes) (rest : List Bytes) (last : Bytes) :
    [slash].intercalate (first :: (rest ++ [last])) = [slash].intercalate (first :: rest) ++
      slash :: last := by
  induction rest generalizing first with
  | nil => simp [List.intercalate]
  | cons part rest ih => simpa [List.intercalate] using ih part

/-- The last part of a path with several is behind its last slash. -/
theorem split_last {path first last : Bytes} {rest : List Bytes}
    (h : path.splitOn slash = first :: (rest ++ [last])) :
    slash ∉ last ∧ ∃ pre, path = pre ++ slash :: last := by
  have hmem : last ∈ path.splitOn slash := by simp [h]
  refine ⟨(splitOn_part hmem).1, [slash].intercalate (first :: rest), ?_⟩
  have hjoin := @List.intercalate_splitOn _ path _ _ slash
  rw [h] at hjoin
  rw [← hjoin]
  exact intercalate_concat first rest last

theorem getLast?_of_split {pre last : Bytes} (hlast : slash ∉ last) :
    (pre ++ slash :: last).getLast? = some slash ↔ last = [] := by
  obtain rfl | ⟨init, c, rfl⟩ := List.eq_nil_or_concat last
  · simp
  · rw [List.concat_eq_append, ← List.cons_append, ← List.append_assoc, List.getLast?_concat]
    refine iff_of_false (fun h => ?_) (by simp)
    exact hlast (by simp [Option.some.inj h])

/-- **A path's names in the loop's form** ask what its names do: what it drops are
    the dots between them. -/
theorem linkParts_alike (path : Bytes) (rest : List Bytes) :
    Alike (linkParts path ++ rest) (posixParts path ++ rest) := by
  obtain ⟨first, parts, hsplit⟩ := List.exists_cons_of_ne_nil (List.splitOn_ne_nil slash path)
  have hposix : posixParts path = (if first = [] then [] else [first]) ++
      (parts.filter (fun part => part ≠ []) ++ if path.getLast? = some slash then [dotName]
          else []) := by
    rw [posixParts, hsplit, List.filter_cons]
    by_cases hfirst : first = [] <;> simp [hfirst]
  have hlink : linkParts path = (if first = [] then [] else [first]) ++
      ((parts.filter (fun part => part ≠ [])).filter (fun part => part ≠ dotName) ++
        if endsInDirectory path then [dotName] else []) := by
    rw [linkParts, pathParts, hsplit, List.filter_filter, List.append_assoc]
    congr 3
    funext part
    simp [Bool.and_comm]
  rw [hposix, hlink]
  simp only [List.append_assoc]
  apply Alike.append_left
  obtain rfl | ⟨init, last, rfl⟩ := List.eq_nil_or_concat parts
  · -- a path without a slash: nothing is dropped
    have hpath : path = first := by
      have hjoin := @List.intercalate_splitOn _ path _ _ slash
      rw [hsplit] at hjoin
      simpa using hjoin.symm
    have hslash : slash ∉ path := hpath ▸ (splitOn_part (hsplit ▸ List.mem_singleton_self first)).1
    have hend : path.getLast? ≠ some slash := fun h => hslash (List.mem_of_getLast? h)
    have hdirectory : endsInDirectory path = false := by
      rw [← Bool.not_eq_true, endsInDirectory, Bool.or_eq_true, List.isSuffixOf_iff_suffix,
        List.isSuffixOf_iff_suffix]
      rintro (h | h)
      · exact hslash (h.subset (by simp))
      · exact hslash (h.subset (by simp))
    rw [if_neg hend, hdirectory]
    exact Alike.refl rest
  · rw [List.concat_eq_append] at hsplit
    obtain ⟨hlast, pre, hpath⟩ := split_last hsplit
    have hend := @getLast?_of_split pre last hlast
    have hdirectory := @endsInDirectory_of_split pre last hlast
    rw [← hpath] at hend hdirectory
    have hdots : ∀ name, Alike ((init.filter (fun part => part ≠ [])).filter
        (fun part => part ≠ dotName) ++ name :: rest)
        (init.filter (fun part => part ≠ []) ++ name :: rest) := fun name =>
      (Alike.filter_dots _ (List.cons_ne_nil name rest)).symm
    rw [List.concat_eq_append, List.filter_append, List.filter_append]
    by_cases hnil : last = []
    · -- a slash at the end: a dot stands behind all names
      rw [if_pos (hend.mpr hnil), if_pos (hdirectory.mpr (.inl hnil)), hnil]
      simpa [List.filter_filter] using hdots dotName
    rw [if_neg (fun h => hnil (hend.mp h))]
    by_cases hdot : last = dotName
    · -- a dot at the end is kept
      rw [if_pos (hdirectory.mpr (.inr hdot)), hdot]
      simpa [List.filter_filter, dotName] using hdots dotName
    · rw [if_neg (fun h => (hdirectory.mp h).elim hnil hdot)]
      simpa [List.filter_filter, hnil, hdot] using hdots last

/-- What stands between slashes. -/
def Unslashed (part : Bytes) : Prop := part ≠ [] ∧ slash ∉ part

theorem posixParts_unslashed (path : Bytes) : ∀ part ∈ posixParts path, Unslashed part := by
  intro part hpart
  rw [posixParts, List.mem_append] at hpart
  obtain hpart | hpart := hpart
  · obtain ⟨hmem, hne⟩ := List.mem_filter.mp hpart
    exact ⟨by simpa using hne, (splitOn_part hmem).1⟩
  · split at hpart
    · rw [List.mem_singleton.mp hpart]
      exact ⟨by decide, by decide⟩
    · cases hpart

theorem pathParts_unslashed (path : Bytes) : ∀ part ∈ pathParts path, Unslashed part := by
  intro part hpart
  obtain ⟨first, rest, hsplit⟩ := List.exists_cons_of_ne_nil (List.splitOn_ne_nil slash path)
  have hparts : ∀ x ∈ first :: rest, slash ∉ x := fun x hx => (splitOn_part (hsplit ▸ hx)).1
  rw [pathParts, hsplit, List.mem_append] at hpart
  obtain hpart | hpart := hpart
  · split at hpart
    · cases hpart
    · rename_i hne
      rw [List.mem_singleton.mp hpart]
      exact ⟨hne, hparts first List.mem_cons_self⟩
  · obtain ⟨hmem, hne⟩ := List.mem_filter.mp hpart
    rw [Bool.and_eq_true] at hne
    exact ⟨by simpa using hne.1, hparts part (List.mem_cons_of_mem _ hmem)⟩

/-! The captured tree. -/

/-- What an entry is to a walk; a module is nothing until it is expanded. -/
def ContextEntry.node : ContextEntry → Option (Posix.Node Bytes)
  | .directory => some .directory
  | .module _ _ _ => none
  | .file _ _ _ => some .leaf
  | .symlink target => some (.link (isAbsolute target) (posixParts target))

def tree (entries : Entries) (path : EntryPath) :
    Option (Posix.Node Bytes) := (entries.get? path).bind ContextEntry.node

/-- `"."` and `".."`. -/
def names : Posix.Names Bytes := ⟨dotName, dotdotName, by decide⟩

theorem isDirectory_iff {entries : Entries} {path : EntryPath} :
    Posix.IsDirectory (tree entries) path ↔ path = [] ∨ entries.get? path = some .directory := by
  rw [Posix.IsDirectory, tree]
  refine or_congr_right ?_
  cases entries.get? path with
  | none => simp
  | some e => cases e <;> simp [ContextEntry.node]

/-! The loop, name by name. -/

section
variable {entries : Entries} {path : EntryPath} {links : Nat} {here : EntryPath} {rest : List Bytes}
    {part : Bytes}

theorem resolveFrom_dot : resolveFrom entries path links here (dotName :: rest) =
    resolveFrom entries path links here rest := by
  rw [resolveFrom, if_pos rfl]

theorem resolveFrom_dotdot : resolveFrom entries path links here (dotdotName :: rest) =
    if here = [] then
      .error (.symlink path)
    else
      resolveFrom entries path links here.dropLast rest := by
  rw [resolveFrom, if_neg (by decide), if_pos rfl]

theorem resolveFrom_missing (hdot : part ≠ dotName) (hdotdot : part ≠ dotdotName)
    (h : entries.get? (here ++ [part]) = none) :
    resolveFrom entries path links here (part :: rest) = .error (.missing path) := by
  rw [resolveFrom, if_neg hdot, if_neg hdotdot, h]

theorem resolveFrom_module {store : Nat} {place : EntryPath} {oid : ObjectId}
    (hdot : part ≠ dotName) (hdotdot : part ≠ dotdotName)
    (h : entries.get? (here ++ [part]) = some (.module store place oid)) :
    resolveFrom entries path links here (part :: rest) = .error (.module (here ++ [part])) := by
  rw [resolveFrom, if_neg hdot, if_neg hdotdot, h]

theorem resolveFrom_directory (hdot : part ≠ dotName) (hdotdot : part ≠ dotdotName)
    (h : entries.get? (here ++ [part]) = some .directory) :
    resolveFrom entries path links here (part :: rest) =
      resolveFrom entries path links (here ++ [part]) rest := by
  rw [resolveFrom, if_neg hdot, if_neg hdotdot, h]

theorem resolveFrom_file {store : Nat} {executable : Bool} {oid : ObjectId} (hdot : part ≠ dotName)
    (hdotdot : part ≠ dotdotName)
    (h : entries.get? (here ++ [part]) = some (.file store executable oid)) :
    resolveFrom entries path links here (part :: rest) =
      if rest ≠ [] then
        .error (.missing path)
      else
        resolveFrom entries path links (here ++ [part]) rest := by
  rw [resolveFrom, if_neg hdot, if_neg hdotdot, h]

theorem resolveFrom_symlink {target : Bytes} (hdot : part ≠ dotName) (hdotdot : part ≠ dotdotName)
    (h : entries.get? (here ++ [part]) = some (.symlink target)) :
    resolveFrom entries path links here (part :: rest) =
      if 40 < links + 1 ∨ isAbsolute target = true then .error (.symlink path)
      else resolveFrom entries path (links + 1) here (linkParts target ++ rest) := by
  rw [resolveFrom, if_neg hdot, if_neg hdotdot, h]

/-- **Lists that ask the same resolve the same.** -/
theorem resolveFrom_alike {a b : List Bytes} (h : Alike a b) :
    resolveFrom entries path links here a = resolveFrom entries path links here b := by
  -- on the links left, and for one number of them along the lists
  induction hleft : 41 - links using Nat.strong_induction_on generalizing links here a b with
  | _ left ihlinks =>
    induction h generalizing here with
    | nil => rfl
    | dotLeft _ _ ih => rw [resolveFrom_dot, ih]
    | dotRight _ _ ih => rw [resolveFrom_dot, ih]
    | @name part a b hab ih =>
      by_cases hdot : part = dotName
      · rw [hdot, resolveFrom_dot, resolveFrom_dot, ih]
      by_cases hdotdot : part = dotdotName
      · rw [hdotdot, resolveFrom_dotdot, resolveFrom_dotdot, ih]
      cases hentry : entries.get? (here ++ [part]) with
      | none =>
        rw [resolveFrom_missing hdot hdotdot hentry, resolveFrom_missing hdot hdotdot hentry]
      | some e =>
        cases e with
        | directory =>
          rw [resolveFrom_directory hdot hdotdot hentry,
            resolveFrom_directory hdot hdotdot hentry, ih]
        | module _ _ _ =>
          rw [resolveFrom_module hdot hdotdot hentry, resolveFrom_module hdot hdotdot hentry]
        | file _ _ _ =>
          rw [resolveFrom_file hdot hdotdot hentry, resolveFrom_file hdot hdotdot hentry, ih]
          simp only [ne_eq, hab.eq_nil_iff]
        | symlink target =>
          rw [resolveFrom_symlink hdot hdotdot hentry, resolveFrom_symlink hdot hdotdot hentry]
          split
          · rfl
          · exact ihlinks _ (by omega) (hab.append_left _) rfl

end

theorem tree_eq_some {entries : Entries} {q : EntryPath} {node : Posix.Node Bytes} :
    tree entries q = some node ↔ ∃ e, entries.get? q = some e ∧ e.node = some node :=
  Option.bind_eq_some_iff

/-! The walk the loop makes. -/

abbrev Step (entries : Entries) : Posix.State Bytes → Posix.State Bytes → Prop :=
  Posix.Step names (tree entries)

abbrev Reaches (entries : Entries) : Posix.State Bytes → Posix.State Bytes → Prop :=
  Posix.Reaches names (tree entries)

/-- The loop lets the walk go on here. -/
def Allowed (entries : Entries) (s : Posix.State Bytes) :
    Prop := Posix.Stays names (tree entries) s ∧ s.links ≤ 40

/-- The loop, begun where a walk is. -/
def resolveState (entries : Entries) (path : EntryPath) (s : Posix.State Bytes) :
    Except SelectionError EntryPath :=
  resolveFrom entries path s.links s.here s.pending

section
variable {entries : Entries} {path p : EntryPath}

theorem stays_of_ne {here rest : List Bytes} {part : Bytes} {links : Nat}
    (hdotdot : part ≠ dotdotName ∨ here ≠ [])
    (hlink : part ≠ dotName → part ≠ dotdotName → ∀ target, tree entries (here ++ [part]) ≠ some
    (.link true target)) :
    Posix.Stays names (tree entries) ⟨here, part :: rest, links⟩ := by
  refine ⟨fun hnil heq => ?_, fun name target hname hd hdd => ?_⟩
  · exact hdotdot.elim (fun h => h (Option.some.inj heq)) (fun h => h hnil)
  · obtain rfl := Option.some.inj hname
    exact hlink hd hdd target

/-- **One round of a run that ends well** is a step of the walk. -/
theorem resolveState_step {s : Posix.State Bytes} (hplaced : Posix.Placed (tree entries) s.here)
    (hdir : Posix.IsDirectory (tree entries) s.here) (hpending : s.pending ≠ [])
    (hlinks : s.links ≤ 40) (h : resolveState entries path s = .ok p) :
    Posix.Stays names (tree entries) s ∧ ∃ t, Step entries s t ∧ t.links ≤ 40 ∧
      (t.pending = [] ∨ Posix.IsDirectory (tree entries) t.here) ∧
        resolveState entries path t = .ok p ∧
      Prod.Lex (· < ·) (· < ·) (41 - t.links, t.pending.length) (41 - s.links,
        s.pending.length) := by
  obtain ⟨here, pending, links⟩ := s
  obtain ⟨part, rest, rfl⟩ := List.exists_cons_of_ne_nil hpending
  rw [resolveState] at h
  have hshorter : Prod.Lex (· < ·) (· < ·) (41 - links, rest.length) (41 - links,
      (part :: rest).length) :=
    Prod.Lex.right _ (Nat.lt_succ_self _)
  by_cases hdot : part = dotName
  · subst hdot
    rw [resolveFrom_dot] at h
    exact ⟨stays_of_ne (.inl (by decide)) (fun hne => absurd rfl hne), _, Posix.Step.dot hdir,
      hlinks, .inr hdir, h, hshorter⟩
  by_cases hdotdot : part = dotdotName
  · subst hdotdot
    rw [resolveFrom_dotdot] at h
    split at h
    · cases h
    · rename_i hnil
      exact ⟨stays_of_ne (.inr hnil) (fun _ hne => absurd rfl hne), _, Posix.Step.parent hdir,
        hlinks, .inr hplaced.parent, h, hshorter⟩
  cases hentry : entries.get? (here ++ [part]) with
  | none =>
    rw [resolveFrom_missing hdot hdotdot hentry] at h
    cases h
  | some e =>
    have hnode : ∀ node, e.node = some node → tree entries (here ++ [part]) = some node :=
      fun node hnode => tree_eq_some.mpr ⟨e, hentry, hnode⟩
    have hstays : (∀ target, e.node ≠ some (.link true target)) →
        Posix.Stays names (tree entries) ⟨here, part :: rest, links⟩ := by
      refine fun hlink => stays_of_ne (.inl hdotdot) (fun _ _ target heq => ?_)
      obtain ⟨e', he', hnode'⟩ := tree_eq_some.mp heq
      rw [hentry, Option.some.injEq] at he'
      exact hlink target (he' ▸ hnode')
    cases e with
    | module _ _ _ =>
      rw [resolveFrom_module hdot hdotdot hentry] at h
      cases h
    | directory =>
      rw [resolveFrom_directory hdot hdotdot hentry] at h
      refine ⟨hstays (fun _ heq => by cases heq), _, Posix.Step.enter hdir hdot hdotdot
        (hnode _ rfl) trivial, hlinks, .inr (.inr (hnode _ rfl)), h, hshorter⟩
    | file _ _ _ =>
      rw [resolveFrom_file hdot hdotdot hentry] at h
      split at h
      · cases h
      · rename_i hrest
        exact ⟨hstays (fun _ heq => by cases heq), _, Posix.Step.enter hdir hdot hdotdot
          (hnode _ rfl) trivial, hlinks, .inl (not_not.mp hrest), h, hshorter⟩
    | symlink target =>
      rw [resolveFrom_symlink hdot hdotdot hentry] at h
      split at h
      · cases h
      · rename_i hfollow
        obtain ⟨hcount, habsolute⟩ := not_or.mp hfollow
        have habsolute : isAbsolute target = false := Bool.not_eq_true _ ▸ habsolute
        have hless : 41 - (links + 1) < 41 - links := by
          have hcount : ¬ 40 < links + 1 := hcount
          omega
        have hlink : tree entries (here ++ [part]) = some (.link false (posixParts target)) := by
          rw [hnode _ rfl, habsolute]
        rw [resolveFrom_alike (linkParts_alike target rest)] at h
        refine ⟨hstays (fun _ heq => ?_), _, Posix.Step.follow hdir hdot hdotdot hlink,
          not_lt.mp hcount, .inr hdir, h, Prod.Lex.left _ _ hless⟩
        rw [ContextEntry.node, habsolute] at heq
        cases heq

/-- **Soundness of the loop.** What it returns is where the walk ends, and all of
    the way is allowed. -/
theorem resolveState_sound (s : Posix.State Bytes) (hplaced : Posix.Placed (tree entries) s.here)
    (hdir : s.pending = [] ∨ Posix.IsDirectory (tree entries) s.here) (hlinks : s.links ≤ 40)
    (h : resolveState entries path s = .ok p) :
    (∀ t, Reaches entries s t → Allowed entries t) ∧ ∃ n, Reaches entries s ⟨p, [], n⟩ := by
  by_cases hpending : s.pending = []
  · obtain ⟨here, pending, links⟩ := s
    obtain rfl : pending = [] := hpending
    rw [resolveState, resolveFrom] at h
    cases h
    refine ⟨fun t ht => ?_, links, .refl⟩
    obtain rfl | ⟨u, hu, -⟩ := Relation.ReflTransGen.cases_head ht
    · exact ⟨⟨fun _ => by simp, fun _ _ heq => absurd heq (by simp)⟩, hlinks⟩
    · exact absurd rfl hu.pending
  · obtain ⟨hstays, u, hstep, hlinks', hdir', h', hless⟩ :=
      resolveState_step hplaced (hdir.resolve_left hpending) hpending hlinks h
    obtain ⟨hway, n, hend⟩ := resolveState_sound u (hstep.placed hplaced) hdir' hlinks' h'
    refine ⟨fun t ht => ?_, n, .head hstep hend⟩
    obtain rfl | ⟨v, hv, ht⟩ := Relation.ReflTransGen.cases_head ht
    · exact ⟨hstays, hlinks⟩
    · exact hway t (hstep.unique hv ▸ ht)
termination_by (41 - s.links, s.pending.length)
decreasing_by exact hless

/-- **Completeness of the loop.** Where an allowed walk ends is returned. -/
theorem resolveState_complete {s : Posix.State Bytes} {n : Nat}
    (hway : ∀ t, Reaches entries s t → Allowed entries t) (h : Reaches entries s ⟨p, [], n⟩) :
    resolveState entries path s = .ok p := by
  induction h using Relation.ReflTransGen.head_induction_on with
  | refl => rw [resolveState, resolveFrom]
  | head hstep hrest ih =>
    have ih := ih (fun t ht => hway t (.head hstep ht))
    have hallowed := hway _ .refl
    have hnext := hway _ (.single hstep)
    rw [resolveState] at ih ⊢
    cases hstep with
    | dot _ => exact resolveFrom_dot.trans ih
    | parent _ =>
      refine resolveFrom_dotdot.trans ?_
      rw [if_neg (fun hnil => hallowed.1.1 hnil rfl), ih]
    | @enter here rest _ name node hdir hdot hdotdot hnode hsolid =>
      obtain ⟨e, hentry, he⟩ := tree_eq_some.mp hnode
      cases e with
      | directory => rw [resolveFrom_directory hdot hdotdot hentry, ih]
      | module _ _ _ => cases he
      | symlink _ =>
        obtain rfl := Option.some.inj he
        exact absurd hsolid id
      | file _ _ _ =>
        rw [resolveFrom_file hdot hdotdot hentry, ih]
        -- with names left, the walk would be stuck at the file
        refine if_neg (not_not.mpr ?_)
        obtain heq | ⟨u, hu, -⟩ := Relation.ReflTransGen.cases_head hrest
        · exact (Posix.State.mk.inj heq).2.1
        · obtain hnil | hentry' := isDirectory_iff.mp hu.directory
          · exact absurd hnil (List.concat_ne_nil _ _)
          · rw [hentry] at hentry'
            cases hentry'
    | @follow here rest target links name absolute hdir hdot hdotdot hlink =>
      obtain ⟨e, hentry, he⟩ := tree_eq_some.mp hlink
      cases e with
      | symlink bytes =>
        obtain ⟨rfl, rfl⟩ := Posix.Node.link.inj (Option.some.inj he)
        have habsolute : isAbsolute bytes = false := by
          rw [← Bool.not_eq_true]
          intro habsolute
          exact hallowed.1.2 name _ rfl hdot hdotdot (habsolute ▸ hlink)
        have hcount : ¬ (40 < links + 1 ∨ isAbsolute bytes = true) := by
          rw [habsolute]
          exact not_or.mpr ⟨not_lt.mpr hnext.2, Bool.false_ne_true⟩
        rw [resolveFrom_symlink hdot hdotdot hentry, if_neg hcount,
          resolveFrom_alike (linkParts_alike bytes rest)]
        rwa [habsolute] at ih
      | _ => cases he

end

/-! The whole function. -/

/-- What the error names has no part in what is returned. -/
theorem resolveFrom_eq_ok {entries : Entries} {label path p : EntryPath} :
    resolveFrom entries label 0 [] path = .ok p ↔
      (∀ t, Reaches entries ⟨[], path, 0⟩ t → Allowed entries t) ∧
        ∃ n, Reaches entries ⟨[], path, 0⟩ ⟨p, [], n⟩ :=
  ⟨fun h => resolveState_sound ⟨[], path, 0⟩ Posix.Placed.nil (.inr .nil) (Nat.zero_le _) h,
    fun h => h.2.elim fun _ hend => resolveState_complete h.1 hend⟩

theorem resolve_eq_ok {entries : Entries} {path p : EntryPath} :
    resolve entries path = .ok p ↔
      (∀ t, Reaches entries ⟨[], path, 0⟩ t → Allowed entries t) ∧
        ∃ n, Reaches entries ⟨[], path, 0⟩ ⟨p, [], n⟩ :=
  resolveFrom_eq_ok

theorem posixParts_of_endsInDirectory {target : Bytes} (h : endsInDirectory target = true) :
    ∃ front, posixParts target = front ++ [dotName] := by
  rw [endsInDirectory, Bool.or_eq_true, List.isSuffixOf_iff_suffix, List.isSuffixOf_iff_suffix] at h
  obtain ⟨pre, rfl⟩ | ⟨pre, rfl⟩ := h
  · exact ⟨_, by rw [posixParts, if_pos (List.getLast?_concat)]⟩
  · refine ⟨(pre.splitOn slash).filter (fun part => part ≠ []), ?_⟩
    have hdot : (46 : UInt8) ≠ slash := by decide
    have hlast : (pre ++ [slash, 46]).getLast? ≠ some slash := by simpa using hdot
    have hsplit : (pre ++ slash :: [46]).splitOn slash = pre.splitOn slash ++ [46].splitOn slash :=
      List.splitOn_append_cons_self _ _
    rw [posixParts, if_neg hlast, hsplit, List.filter_append, List.append_nil]
    rfl

/-- A path without a slash or a slash and a dot at its end is asked for as it is. -/
theorem resolve_posixParts {entries : Entries} {path : Bytes} (h : endsInDirectory path = false) :
    resolveFrom entries (pathParts path) 0 [] (pathParts path) =
      resolveFrom entries (pathParts path) 0 [] (posixParts path) := by
  have halike := linkParts_alike path []
  rw [List.append_nil, List.append_nil, linkParts, h, if_neg Bool.false_ne_true,
    List.append_nil] at halike
  exact resolveFrom_alike halike

/-- An entry is where its name says, so a step to it needs no further look at the name. -/
theorem Captured.name_ne {entries : Entries} (h : Captured entries) {here : EntryPath}
    {name : Bytes} {e : ContextEntry} (hentry : entries.get? (here ++ [name]) = some e) :
    name ≠ dotName ∧ name ≠ dotdotName := by
  have hmem : here ++ [name] ∈ entries.keys := OrdMap.mem_keys.mpr (by simp [hentry])
  obtain ⟨-, hdot, hdotdot, -⟩ := entryName_eq_true (h.names _ hmem name (by simp))
  exact ⟨hdot, hdotdot⟩

/-- A walk only stands at entries, so its names are captured ones. -/
theorem names_of_placed {entries : Entries} (h : Captured entries) {p : EntryPath}
    (hp : Posix.Placed (tree entries) p) :
    ∀ name ∈ p, entryName name = true := by
  obtain rfl | ⟨node, hnode, -⟩ := hp.outer
  · exact fun _ hmem => absurd hmem List.not_mem_nil
  · obtain ⟨e, hentry, -⟩ := tree_eq_some.mp hnode
    exact h.names p (OrdMap.mem_keys.mpr (by simp [hentry]))

theorem resolve_placed {entries : Entries} {path p : EntryPath} (h : resolve entries path = .ok p) :
    Posix.Placed (tree entries) p := by
  obtain ⟨-, n, hend⟩ := resolve_eq_ok.mp h
  exact Posix.Reaches.placed hend Posix.Placed.nil

/-- Where the walk is not allowed to go on, nothing is returned. -/
theorem resolve_error {entries : Entries} {path : EntryPath} {t : Posix.State Bytes}
    (ht : Reaches entries ⟨[], path, 0⟩ t) (hallowed : ¬ Allowed entries t) :
    ∃ e, resolve entries path = .error e := by
  cases h : resolve entries path with
  | error e => exact ⟨e, rfl⟩
  | ok p => exact absurd ((resolve_eq_ok.mp h).1 t ht) hallowed

/-- The walk of a requested path, from the root. -/
abbrev Way (entries : Entries) (path : List Bytes) (t : Posix.State Bytes) :
    Prop := Reaches entries ⟨[], path, 0⟩ t

/-- What resolving `requested` may come to. -/
structure Confined (entries : Entries) (requested : Bytes) : Prop where
  /-- The result is the root or an entry, no link and no module, below directories only. -/
  inside : ∀ p, resolve entries (pathIter requested) = .ok p →
    (p = [] ∨ ∃ e, entries.get? p = some e ∧ e.isModule = false ∧ ∀ target, e ≠ .symlink target) ∧
    (∀ q, q <+: p → q ≠ p → q = [] ∨ entries.get? q = some .directory) ∧
    ∀ name ∈ p, name ≠ [] ∧ name ≠ dotName ∧ name ≠ dotdotName ∧ slash ∉ name
  /-- A dot-dot at the root is an error. -/
  escape : ∀ rest n, Way entries (pathIter requested) ⟨[], dotdotName :: rest, n⟩ →
    ∃ e, resolve entries (pathIter requested) = .error e
  /-- An absolute link is an error. -/
  absolute : ∀ here name rest n target, Way entries (pathIter requested) ⟨here, name :: rest, n⟩ →
    entries.get? (here ++ [name]) = some (.symlink target) → isAbsolute target = true →
    ∃ e, resolve entries (pathIter requested) = .error e
  /-- A link whose target ends as a directory's resolves to one. -/
  directory : ∀ here name rest n target p, Way entries (pathIter requested)
    ⟨here, name :: rest, n⟩ →
    entries.get? (here ++ [name]) = some (.symlink target) → endsInDirectory target = true →
    resolve entries (pathIter requested) = .ok p →
    ∃ q m, (q = [] ∨ entries.get? q = some .directory) ∧
      Reaches entries ⟨here, name :: rest, n⟩ ⟨q, rest, m⟩
  /-- A relative path's names are walked as POSIX has it. -/
  walked : isAbsolute requested = false → ∀ p, resolve entries (pathIter requested) = .ok p ↔
    (∀ t, Way entries (pathParts requested) t → Allowed entries t) ∧
      ∃ n, Way entries (pathParts requested) ⟨p, [], n⟩
  /-- So is the path itself, where no slash or slash and dot at its end is dropped. -/
  posix : isAbsolute requested = false → endsInDirectory requested = false →
    ∀ p, resolve entries (pathIter requested) = .ok p ↔
      (∀ t, Way entries (posixParts requested) t → Allowed entries t) ∧
        ∃ n, Way entries (posixParts requested) ⟨p, [], n⟩
  /-- An absolute path is refused. -/
  relative : isAbsolute requested = true → ∃ e, resolve entries (pathIter requested) = .error e

theorem pathIter_relative {requested : Bytes} (h : isAbsolute requested = false) :
    pathIter requested = pathParts requested := by
  rw [pathIter, h]
  rfl

/-- **Source resolution is confined**, and otherwise path walking. -/
theorem resolve_confined {entries : Entries} (hcaptured : Captured entries) (requested : Bytes) :
    Confined entries requested where
  inside p h := by
    have hplaced := resolve_placed h
    refine ⟨?_, fun q hq hne => isDirectory_iff.mp (hplaced.inner q hq hne), fun name hname => ?_⟩
    · obtain hnil | ⟨node, hnode, hsolid⟩ := hplaced.outer
      · exact .inl hnil
      · obtain ⟨e, hentry, he⟩ := tree_eq_some.mp hnode
        refine .inr ⟨e, hentry, ?_, ?_⟩
        · cases e with
          | module _ _ _ => cases he
          | _ => rfl
        · rintro target rfl
          rw [← Option.some.inj he] at hsolid
          exact hsolid
    · exact entryName_eq_true (names_of_placed hcaptured hplaced name hname)
  escape rest n hway := by
    apply resolve_error hway
    intro hallowed
    exact hallowed.1.1 rfl rfl
  absolute here name rest n target hway hentry habsolute := by
    obtain ⟨hdot, hdotdot⟩ := Captured.name_ne hcaptured hentry
    apply resolve_error hway
    intro hallowed
    apply hallowed.1.2 name (posixParts target) rfl hdot hdotdot
    exact tree_eq_some.mpr ⟨_, hentry, by rw [ContextEntry.node, habsolute]⟩
  directory here name rest n target p hway hentry hdirectory h := by
    obtain ⟨hdot, hdotdot⟩ := Captured.name_ne hcaptured hentry
    obtain ⟨-, m, hend⟩ := resolve_eq_ok.mp h
    have hend := Posix.Reaches.through hend hway
    obtain ⟨front, hfront⟩ := posixParts_of_endsInDirectory hdirectory
    obtain heq | ⟨u, hu, -⟩ := Relation.ReflTransGen.cases_head hend
    · exact absurd (Posix.State.mk.inj heq).2.1 (List.cons_ne_nil _ _)
    · -- the link is followed, and the dot behind its names is walked in a directory
      have hlink : tree entries (here ++ [name]) =
          some (.link (isAbsolute target) (front ++ [dotName])) :=
        tree_eq_some.mpr ⟨_, hentry, by rw [ContextEntry.node, hfront]⟩
      have hstep := @Posix.Step.follow _ names _ _ rest _ n _ _ hu.directory hdot hdotdot hlink
      have hend := Posix.Reaches.of_step hend hstep
      rw [List.append_assoc] at hend hstep
      obtain ⟨q, m, hq, hreaches⟩ := @Posix.Reaches.directory _ names _ _ _ _ _ _ _ hend
      exact ⟨q, m, isDirectory_iff.mp hq, .head hstep hreaches⟩
  walked hrelative p := by
    rw [pathIter_relative hrelative]
    exact resolve_eq_ok
  posix hrelative hend p := by
    rw [pathIter_relative hrelative, resolve, resolve_posixParts hend]
    exact resolveFrom_eq_ok
  relative habsolute := by
    cases h : resolve entries (pathIter requested) with
    | error e => exact ⟨e, rfl⟩
    | ok p =>
      -- no captured entry is named by a slash
      rw [pathIter, habsolute, if_pos rfl, List.singleton_append, resolve] at h
      have hnone : entries.get? ([] ++ [[slash]]) = none := by
        rw [← Option.not_isSome_iff_eq_none, ← OrdMap.mem_keys]
        intro hmem
        obtain ⟨-, -, -, hslash⟩ := entryName_eq_true (hcaptured.names _ hmem [slash] (by simp))
        exact hslash (by simp)
      rw [resolveFrom_missing (by decide) (by decide) hnone] at h
      cases h

/-- A tree with one file. -/
def oneFile : Entries := OrdMap.empty.insert [[102]] (.file 0 false [])

theorem oneFile_captured : Captured oneFile where
  root := by decide
  names := by decide
  parents path name hmem := by
    obtain h | h := OrdMap.mem_keys_insert.mp hmem
    · exact .inl (List.append_eq_singleton_iff.mp h |>.elim (fun h => h.1)
        (fun h => absurd h.2 (List.cons_ne_nil _ _)))
    · exact absurd h List.not_mem_nil

/-- **A slash at the end of a requested path is dropped**: "f/" resolves to the file
    "f", where path walking wants a directory. -/
theorem file_with_slash_resolves :
    Captured oneFile ∧ resolve oneFile (pathIter [102, slash]) = .ok [[102]] ∧
      (∀ t, Way oneFile (posixParts [102, slash]) t → Allowed oneFile t) ∧
      ¬ ∃ p n, Way oneFile (posixParts [102, slash]) ⟨p, [], n⟩ := by
  have hparts : posixParts [102, slash] = [[102], dotName] := by decide
  have hiter : pathIter [102, slash] = [[102]] := by decide
  have hentry : oneFile.get? ([] ++ [[102]]) = some (.file 0 false []) := rfl
  have hresolve : resolve oneFile (pathIter [102, slash]) = .ok [[102]] := by
    rw [hiter, resolve, resolveFrom_file (by decide) (by decide) hentry, if_neg (not_not_intro rfl),
      resolveFrom]
    rfl
  have hnode : tree oneFile ([] ++ [[102]]) = some .leaf := rfl
  -- one step into the file, and no further
  have hway : ∀ t, Way oneFile [[102], dotName] t → t = ⟨[], [[102], dotName], 0⟩ ∨
      t = ⟨[[102]], [dotName], 0⟩ := by
    intro t ht
    induction ht with
    | refl => exact .inl rfl
    | tail _ hstep ih =>
      obtain rfl | rfl := ih
      · have henter := @Posix.Step.enter _ names _ _ [dotName] 0 _ _ (.inl rfl)
          (by decide) (by decide)
          hnode trivial
        exact .inr (hstep.unique henter)
      · obtain h | h := hstep.directory
        · exact absurd h (List.cons_ne_nil _ _)
        · exact absurd (hnode.symm.trans h) (by simp)
  refine ⟨oneFile_captured, hresolve, ?_, ?_⟩
  · rw [hparts]
    intro t ht
    obtain rfl | rfl := hway t ht
    · refine ⟨stays_of_ne (.inl (by decide)) (fun _ _ target heq => ?_), Nat.zero_le _⟩
      exact absurd (hnode.symm.trans heq) (by simp)
    · exact ⟨stays_of_ne (.inl (by decide)) (fun hne => absurd rfl hne), Nat.zero_le _⟩
  · rw [hparts]
    rintro ⟨p, n, hend⟩
    obtain heq | heq := hway _ hend
    · exact absurd (Posix.State.mk.inj heq).2.1 (List.cons_ne_nil _ _).symm
    · exact absurd (Posix.State.mk.inj heq).2.1 (List.cons_ne_nil _ _).symm

/-- "d/f", and a link "l" to "d". -/
def linked : Entries := ((OrdMap.empty.insert [[100]] .directory).insert
    [[100], [102]] (.file 0 false [])).insert [[108]] (.symlink [100])

theorem linked_captured : Captured linked where
  root := by decide
  names := by decide
  parents path name hmem := by
    have hkeys : linked.keys = [[[100]], [[100], [102]], [[108]]] := by decide
    rw [hkeys, List.mem_cons, List.mem_cons, List.mem_singleton] at hmem
    obtain h | h | h := hmem
    · exact .inl (List.append_eq_singleton_iff.mp h |>.elim (fun h => h.1)
        (fun h => absurd h.2 (List.cons_ne_nil _ _)))
    · have hsplit : path ++ [name] = [[100]] ++ [[102]] := h
      obtain rfl := (List.append_inj' hsplit rfl).1
      exact .inr (by decide)
    · exact .inl (List.append_eq_singleton_iff.mp h |>.elim (fun h => h.1)
        (fun h => absurd h.2 (List.cons_ne_nil _ _)))

/-- `resolve_confined` on "l/../l/f". -/
theorem linked_confined : Confined linked [108, slash, 46, 46, slash, 108, slash, 102] :=
  resolve_confined linked_captured _

end Conglobate.Copy
