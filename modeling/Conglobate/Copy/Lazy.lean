import Conglobate.Lib.Demand
import Conglobate.Context.Partly
import Conglobate.Context.CaptureProps

/- COPY selection on a context that is not expanded yet (`SourceTree::select`,
   `copy/source.rs`).

   A selection looks at entries one after the other, and stops at a module. So on a context
   with modules left it names one of them, or has the outcome it would have with all of
   them expanded (`select_upto`); in that case no module is left below what it selected, and
   the sources have below them what they would have (`descendants_same`).

   What is proved:
     1. `select_upto` — a module of the context is named, or the outcome is the same;
     2. `select_ends` — what is named is one, and what is selected has none;
     3. `descendants_same` — the sources' descendants are the same but for store numbers. -/
namespace Conglobate.Copy

open Context

/-- The error names a module. -/
def Unexpanded (entries : Entries) (e : SelectionError) : Prop :=
  ∃ q, e = .module q ∧ (entries.get? q).any ContextEntry.isModule = true

section
variable {entries entries' : Entries}

/-! One path. -/

/-- Resolving looks at what is in directories. -/
theorem resolveFrom_upto (h : Partly entries entries') (path : EntryPath) (links : Nat)
    (here pending : EntryPath) (hdir : pending = [] ∨ IsDirectory entries here) :
    Upto (Unexpanded entries) (resolveFrom entries path links here pending)
      (resolveFrom entries' path links here pending) := by
  fun_induction resolveFrom entries path links here pending with
  | case1 links here =>
    rw [resolveFrom]
    exact .refl _
  | case2 links here pending ih =>
    rw [resolveFrom_dot]
    exact ih (.inr (hdir.resolve_left (List.cons_ne_nil _ _)))
  | case3 links pending hdot =>
    rw [resolveFrom_dotdot, if_pos rfl]
    exact .refl _
  | case4 links here pending hnil hdot ih =>
    rw [resolveFrom_dotdot, if_neg hnil]
    apply ih
    -- what is above a directory is one
    obtain ⟨d, name, rfl⟩ := (List.eq_nil_or_concat here).resolve_left hnil
    rw [List.concat_eq_append, List.dropLast_concat]
    have hget := (hdir.resolve_left (List.cons_ne_nil _ _)).resolve_left hnil
    rw [List.concat_eq_append] at hget
    exact .inr (h.captured.parents d name (OrdMap.mem_keys.mpr (by rw [hget]; rfl)))
  | case5 links here part pending hdot hdotdot hget =>
    have hchild := h.child here part (hdir.resolve_left (List.cons_ne_nil _ _))
    have hget' : entries'.get? (here ++ [part]) = none := by
      rw [← Option.not_isSome_iff_eq_none, ← hchild.isSome, hget]
      exact Bool.false_ne_true
    rw [resolveFrom_missing hdot hdotdot hget']
    exact .refl _
  | case6 links here part pending hdot hdotdot store place oid hget =>
    exact .lack ⟨here ++ [part], rfl, by rw [hget]; rfl⟩ _
  | case7 links here part pending hdot hdotdot target hget hrefused =>
    have hget' := h.symlink (hdir.resolve_left (List.cons_ne_nil _ _)) hget
    rw [resolveFrom_symlink hdot hdotdot hget', if_pos hrefused]
    exact .refl _
  | case8 links here part pending hdot hdotdot target hget hfollow ih =>
    have hhere := hdir.resolve_left (List.cons_ne_nil _ _)
    have hget' := h.symlink hhere hget
    rw [resolveFrom_symlink hdot hdotdot hget', if_neg hfollow]
    exact ih (.inr hhere)
  | case9 links here part pending hdot hdotdot store executable oid hget hmore =>
    obtain ⟨store', hget'⟩ := h.file (hdir.resolve_left (List.cons_ne_nil _ _)) hget
    rw [resolveFrom_file hdot hdotdot hget', if_pos hmore]
    exact .refl _
  | case10 links here part pending hdot hdotdot store executable oid hget hmore ih =>
    obtain ⟨store', hget'⟩ := h.file (hdir.resolve_left (List.cons_ne_nil _ _)) hget
    rw [resolveFrom_file hdot hdotdot hget', if_neg hmore]
    exact ih (.inl (not_not.mp hmore))
  | case11 links here part pending hdot hdotdot hget ih =>
    have hget' := (h.grown _ (.inr hget)).resolve_left (List.concat_ne_nil _ _)
    rw [resolveFrom_directory hdot hdotdot hget']
    exact ih (.inr (.inr hget))

theorem resolve_upto (h : Partly entries entries') (path : EntryPath) :
    Upto (Unexpanded entries) (resolve entries path) (resolve entries' path) :=
  resolveFrom_upto h path 0 [] path (.inr (.inl rfl))

/-- Where resolving ends is in a directory, and no module. -/
theorem resolve_near (hcaptured : Captured entries) {path r : EntryPath}
    (h : resolve entries path = .ok r) :
    Near entries r ∧ (entries.get? r).any ContextEntry.isModule = false := by
  obtain hdir | ⟨store, executable, oid, hget⟩ := resolve_file_or_directory h
  · refine ⟨.of_directory hcaptured hdir, ?_⟩
    obtain rfl | hget := hdir
    · cases hget : entries.get? [] with
      | none => rfl
      | some e => exact absurd (OrdMap.mem_keys.mpr (by rw [hget]; rfl)) hcaptured.root
    · rw [hget]
      rfl
  · refine ⟨.of_key hcaptured (OrdMap.mem_keys.mpr (by rw [hget]; rfl)), ?_⟩
    rw [hget]
    rfl

/-! One component. -/

theorem children_pairwise (entries : Entries) (d : EntryPath) :
    (children entries d).Pairwise (· < ·) := by
  apply List.Pairwise.filter
  exact List.Pairwise.sublist ((List.takeWhile_sublist _).trans (List.dropWhile_sublist _))
    (keys_pairwise entries)

/-- **A directory has the same children** in both. -/
theorem children_same (h : Partly entries entries') {d : EntryPath} (hdir : IsDirectory entries d) :
    children entries d = children entries' d := by
  have hperm : (children entries d).Perm (children entries' d) := by
    rw [List.perm_ext_iff_of_nodup (children_nodup entries d) (children_nodup entries' d)]
    intro q
    rw [mem_children, mem_children]
    refine exists_congr fun name => and_congr_right fun hq => ?_
    rw [hq, h.mem_keys hdir]
  apply hperm.eq_of_pairwise _ (children_pairwise entries d) (children_pairwise entries' d)
  intro a b _ _ hab hba
  exact absurd (lt_trans hab hba) (lt_irrefl _)

theorem standing_upto (h : Partly entries entries') {path : EntryPath} (hnear : Near entries path)
    (hplain : (entries.get? path).any ContextEntry.isModule = false) (seen : Bool) :
    Upto (Unexpanded entries) (standing entries seen path) (standing entries' seen path) := by
  cases seen with
  | true =>
    have hsame := directory_same (h.same_at hnear hplain)
    have hstand : (path ≠ [] ∧ entries.get? path ≠ some .directory) ↔
        (path ≠ [] ∧ entries'.get? path ≠ some .directory) :=
      and_congr_right fun _ => not_congr hsame
    rw [standing, standing, if_pos rfl, if_pos rfl]
    simp only [hstand]
    exact .refl _
  | false =>
    rw [standing, standing, if_neg Bool.false_ne_true, if_neg Bool.false_ne_true]
    exact (resolve_upto h path).map some

/-- Where a path's walk stands is in a directory, and no module. -/
theorem standing_near (hcaptured : Captured entries) {path : EntryPath} (hnear : Near entries path)
    (hplain : (entries.get? path).any ContextEntry.isModule = false) {seen : Bool}
    {actual : EntryPath} (h : standing entries seen path = .ok (some actual)) :
    Near entries actual ∧ (entries.get? actual).any ContextEntry.isModule = false := by
  cases seen with
  | true =>
    rw [standing, if_pos rfl, Except.ok.injEq] at h
    split at h
    · cases h
    · obtain rfl := Option.some.inj h
      exact ⟨hnear, hplain⟩
  | false =>
    rw [standing, if_neg Bool.false_ne_true] at h
    obtain ⟨r, hr, heq⟩ := except_map_eq_ok.mp h
    obtain rfl := Option.some.inj heq
    exact resolve_near hcaptured hr

/-- What a path adds where it stands. -/
def added (entries : Entries) (part : Text) (matcher : SourcePattern) (seen : Bool)
    (actual : EntryPath) : List EntryPath :=
  if actual = [] ∨ entries.get? actual = some .directory then
    if wildcard part || seen then
      (children entries actual).filter (fun child => matcher.matchesName (child.getLast?.getD []))
    else [actual ++ [part.utf8]]
  else []

theorem visit_eq {part : Text} {matcher : SourcePattern} {seen : Bool} {next : List EntryPath}
    {path : EntryPath} (hplain : (entries.get? path).any ContextEntry.isModule = false) :
    visit entries part matcher seen next path = (standing entries seen path).map fun actual =>
      next ++ (actual.elim [] (added entries part matcher seen)) := by
  rw [visit, hplain, if_neg Bool.false_ne_true]
  cases standing entries seen path with
  | error e => rfl
  | ok actual =>
    rw [except_ok_bind]
    show _ = Except.ok (next ++ actual.elim [] (added entries part matcher seen))
    cases actual with
    | none => simp
    | some actual =>
      rw [Option.elim_some, added]
      by_cases hdir : actual = [] ∨ entries.get? actual = some .directory
      · rw [Option.filter_some_pos (by simpa using hdir), if_pos hdir]
        dsimp only
        split <;> rfl
      · rw [Option.filter_some_neg (by simpa using hdir), if_neg hdir, List.append_nil]

theorem added_same (h : Partly entries entries') {part : Text} {matcher : SourcePattern}
    {seen : Bool} {actual : EntryPath} (hnear : Near entries actual)
    (hplain : (entries.get? actual).any ContextEntry.isModule = false) :
    added entries part matcher seen actual = added entries' part matcher seen actual := by
  have hiff : (actual = [] ∨ entries.get? actual = some .directory) ↔
      (actual = [] ∨ entries'.get? actual = some .directory) :=
    h.directory_iff hnear hplain
  rw [added, added]
  by_cases hdir : actual = [] ∨ entries.get? actual = some .directory
  · rw [if_pos hdir, if_pos (hiff.mp hdir), children_same h hdir]
  · rw [if_neg hdir, if_neg (fun hdir' => hdir (hiff.mpr hdir'))]

/-- What is added is in a directory, and captured if it was found. -/
theorem added_near {part : Text} {matcher : SourcePattern} {seen : Bool} {actual q : EntryPath}
    (hq : q ∈ added entries part matcher seen actual) :
    Near entries q ∧ ((seen || wildcard part) = true → q ∈ entries.keys) := by
  rw [added] at hq
  split at hq
  · rename_i hdir
    rw [Bool.or_comm] at hq
    split at hq
    · obtain ⟨hchild, -⟩ := List.mem_filter.mp hq
      obtain ⟨name, rfl, hkey⟩ := mem_children.mp hchild
      exact ⟨.inr ⟨actual, name, rfl, hdir⟩, fun _ => hkey⟩
    · rename_i hliteral
      rw [List.mem_singleton.mp hq]
      exact ⟨.inr ⟨actual, _, rfl, hdir⟩, fun hseen => absurd hseen hliteral⟩
  · cases hq

/-- What a walk's paths are. -/
def Walked (entries : Entries) (seen : Bool) (paths : List EntryPath) : Prop :=
  ∀ q ∈ paths, Near entries q ∧ (seen = true → q ∈ entries.keys)

theorem visit_upto (h : Partly entries entries') {part : Text} {matcher : SourcePattern}
    {seen : Bool} {next : List EntryPath} {path : EntryPath} (hnear : Near entries path)
    (hnext : Walked entries (seen || wildcard part) next) :
    Upto (Unexpanded entries) (visit entries part matcher seen next path)
      (visit entries' part matcher seen next path) ∧
      ∀ next', visit entries part matcher seen next path = .ok next' →
        Walked entries (seen || wildcard part) next' := by
  cases hplain : (entries.get? path).any ContextEntry.isModule with
  | true =>
    rw [visit, hplain, if_pos rfl]
    exact ⟨.lack ⟨path, rfl, hplain⟩ _, fun next' hvisit => by cases hvisit⟩
  | false =>
    rw [visit_eq hplain, visit_eq (h.plain hnear hplain)]
    have hstand := standing_upto h hnear hplain seen
    refine ⟨?_, fun next' hvisit => ?_⟩
    · obtain ⟨e, he, hstuck⟩ | hsame := hstand
      · rw [hstuck]
        exact .lack he _
      · rw [← hsame]
        cases hactual : standing entries seen path with
        | error e => exact .refl _
        | ok actual =>
          cases actual with
          | none => exact .refl _
          | some actual =>
            obtain ⟨hnear', hplain'⟩ := standing_near h.captured hnear hplain hactual
            show Upto _ (Except.ok (next ++ added entries part matcher seen actual))
              (.ok (next ++ added entries' part matcher seen actual))
            rw [added_same h hnear' hplain']
            exact .refl _
    · obtain ⟨actual, -, rfl⟩ := except_map_eq_ok.mp hvisit
      intro q hq
      obtain hq | hq := List.mem_append.mp hq
      · exact hnext q hq
      · cases actual with
        | none => cases hq
        | some actual => exact added_near hq

/-- **A round over a component.** -/
theorem partRound_upto (h : Partly entries entries') {w : Walk} (hw : Walked entries w.seen w.paths)
    (part : Text) :
    Upto (Unexpanded entries) (partRound entries w part) (partRound entries' w part) ∧
      ∀ w', partRound entries w part = .ok w' → Walked entries w'.seen w'.paths := by
  rw [partRound, partRound]
  cases (SourcePattern.fromStr part).mapError SelectionError.pattern with
  | error e => exact ⟨.refl _, fun w' hw' => by cases hw'⟩
  | ok matcher =>
    rw [except_ok_bind, except_ok_bind]
    have hfold := @Upto.foldlM _ _ _ (Unexpanded entries) (visit entries part matcher w.seen)
      (visit entries' part matcher w.seen)
      w.paths [] (Walked entries (w.seen || wildcard part)) (fun q hq => absurd hq List.not_mem_nil)
      (fun q hq next hnext => visit_upto h (hw q hq).1 hnext)
    refine ⟨hfold.1.bind fun next _ => .refl _, fun w' hw' => ?_⟩
    obtain ⟨next, hnext, hw'⟩ := except_bind_eq_ok.mp hw'
    cases hw'
    intro q hq
    exact hfold.2 next hnext q (List.mem_mergeSort.mp hq)

/-! One source. -/

/-- A wildcard chose captured paths, so all of them are kept. -/
theorem keepPresent_walked {w : Walk} (hw : Walked entries w.seen w.paths) :
    keepPresent entries w = w.paths := by
  rw [keepPresent]
  split
  · rename_i hseen
    apply List.filter_eq_self.mpr
    intro q hq
    rw [Bool.or_eq_true]
    exact .inr (OrdMap.contains_eq_true.mpr ((hw q hq).2 hseen))
  · rfl

theorem Walked.grown (h : Partly entries entries') {seen : Bool} {paths : List EntryPath}
    (hw : Walked entries seen paths) :
    Walked entries' seen paths := by
  intro q hq
  obtain ⟨hnear, hkeys⟩ := hw q hq
  obtain rfl | ⟨d, name, rfl, hdir⟩ := hnear
  · exact ⟨.inl rfl, fun hseen => absurd (hkeys hseen) h.captured.root⟩
  · exact ⟨.inr ⟨d, name, rfl, h.grown d hdir⟩, fun hseen => (h.mem_keys hdir name).mp
      (hkeys hseen)⟩

/-- Nothing at or below the path is left to expand. -/
def NoModule (entries : Entries) (path : EntryPath) :
    Prop := ∀ q, path <+: q → (entries.get? q).any ContextEntry.isModule = false

theorem noModule_iff {path : EntryPath} :
    NoModule entries path ↔ entries.entries.find? (fun e => path.isPrefixOf e.1 && e.2.isModule) =
      none := by
  rw [List.find?_eq_none]
  constructor
  · intro h e he hfound
    rw [Bool.and_eq_true, List.isPrefixOf_iff_prefix] at hfound
    have hplain := h e.1 hfound.1
    rw [OrdMap.get?_eq_some.mpr (show (e.1, e.2) ∈ entries.entries from he), Option.any_some,
      hfound.2] at hplain
    cases hplain
  · intro h q hq
    cases hget : entries.get? q with
    | none => rfl
    | some e =>
      have hnot := h (q, e) (OrdMap.get?_eq_some.mp hget)
      rw [Bool.and_eq_true, List.isPrefixOf_iff_prefix, not_and] at hnot
      exact Bool.eq_false_of_not_eq_true (hnot hq)

theorem NoModule.grown (h : Partly entries entries') {path : EntryPath} (hnear : Near entries path)
    (hs : NoModule entries path) :
    NoModule entries' path := by
  intro q hq
  obtain ⟨rest, rfl⟩ := hq
  have hsame := h.same_below hnear hs rest
  have hany : ∀ o : Option ContextEntry, o.any ContextEntry.isModule =
      (o.map unnumbered).any ContextEntry.isModule := by
    intro o
    cases o with
    | none => rfl
    | some e => exact (unnumbered_isModule e).symm
  rw [hany, ← hsame, ← hany]
  exact hs _ (List.prefix_append _ _)

theorem selectPath_upto (h : Partly entries entries') (found : List CopySource)
    (selected : EntryPath) :
    Upto (Unexpanded entries) (selectPath entries found selected)
      (selectPath entries' found selected) := by
  rw [selectPath, selectPath]
  refine (resolve_upto h selected).bind fun r hr => ?_
  cases hfind : entries.entries.find? (fun e => r.isPrefixOf e.1 && e.2.isModule) with
  | some e =>
    have hfound := List.find?_some hfind
    rw [Bool.and_eq_true] at hfound
    have hget : entries.get? e.1 = some e.2 :=
      OrdMap.get?_eq_some.mpr (List.mem_of_find?_eq_some hfind)
    exact .lack ⟨e.1, rfl, by rw [hget]; exact hfound.2⟩ _
  | none =>
    have hnone := (noModule_iff.mpr hfind).grown h (resolve_near h.captured hr).1
    rw [noModule_iff.mp hnone]
    exact .refl _

theorem rounds_upto (h : Partly entries entries') (parts : List Text) :
    Upto (Unexpanded entries) (parts.foldlM (partRound entries) ⟨[[]], false⟩) (parts.foldlM
      (partRound entries') ⟨[[]], false⟩) ∧
      ∀ w, parts.foldlM (partRound entries) ⟨[[]], false⟩ = .ok w →
        Walked entries w.seen w.paths := by
  apply Upto.foldlM (fun w : Walk => Walked entries w.seen w.paths)
  · intro q hq
    rw [List.mem_singleton.mp hq]
    exact ⟨.inl rfl, fun hseen => absurd hseen Bool.false_ne_true⟩
  · exact fun part _ w hw => partRound_upto h hw part

theorem selectPattern_upto (h : Partly entries entries') (found : List CopySource)
    (p : SourcePattern) :
    Upto (Unexpanded entries) (selectPattern entries found p) (selectPattern entries' found p) := by
  obtain ⟨hrounds, hwalked⟩ := rounds_upto h (sourceParts p)
  rw [selectPattern, selectPattern]
  refine hrounds.bind fun w hw => ?_
  have hw := hwalked w hw
  rw [keepPresent_walked hw, keepPresent_walked (hw.grown h)]
  split
  · exact .refl _
  · exact (Upto.foldlM (fun _ => True) trivial fun path _ found _ =>
      ⟨selectPath_upto h found path, fun _ _ => trivial⟩).1

/-- **A selection stops at a module** of the context, or does what it would with modules expanded. -/
theorem select_upto (h : Partly entries entries') (patterns : List SourcePattern) :
    Upto (Unexpanded entries) (select entries patterns) (select entries' patterns) := by
  rw [select, select]
  refine Upto.bind ?_ fun found _ => .refl _
  exact (Upto.foldlM (fun _ => True) trivial fun p _ found _ =>
    ⟨selectPattern_upto h found p, fun _ _ => trivial⟩).1

end

/-! What is named, and what is selected. -/

section
variable {entries : Entries}

/-- A module error names a module. -/
def NamesModule (entries : Entries) (e : SelectionError) :
    Prop := ∀ q, e = .module q → (entries.get? q).any ContextEntry.isModule = true

theorem resolveFrom_named (path : EntryPath) (links : Nat) (here pending : EntryPath) :
    Fails (NamesModule entries) (resolveFrom entries path links here pending) := by
  fun_induction resolveFrom entries path links here pending with
  | case1 links here => exact .ok _
  | case2 links here pending ih => exact ih
  | case3 links pending hdot => exact .error fun q hq => by cases hq
  | case4 links here pending hdot hnil ih => exact ih
  | case5 links here part pending hdot hdotdot hget => exact .error fun q hq => by cases hq
  | case6 links here part pending hdot hdotdot store place oid hget =>
    apply Fails.error
    intro q hq
    cases hq
    rw [hget]
    rfl
  | case7 links here part pending hdot hdotdot target hget hrefused =>
    exact .error fun q hq => by cases hq
  | case8 links here part pending hdot hdotdot target hget hfollow ih => exact ih
  | case9 links here part pending hdot hdotdot store executable oid hget hmore =>
    exact .error fun q hq => by cases hq
  | case10 links here part pending hdot hdotdot store executable oid hget hmore ih => exact ih
  | case11 links here part pending hdot hdotdot hget ih => exact ih

theorem resolve_named (path : EntryPath) : Fails (NamesModule entries) (resolve entries path) :=
  resolveFrom_named path 0 [] path

theorem visit_named (part : Text) (matcher : SourcePattern) (seen : Bool) (next : List EntryPath)
    (path : EntryPath) :
    Fails (NamesModule entries) (visit entries part matcher seen next path) := by
  cases hmodule : (entries.get? path).any ContextEntry.isModule with
  | true =>
    rw [visit, hmodule, if_pos rfl]
    apply Fails.error
    intro q hq
    cases hq
    exact hmodule
  | false =>
    rw [visit_eq hmodule]
    apply Fails.map
    rw [standing]
    split
    · exact .ok _
    · exact (resolve_named path).map some

theorem partRound_named (w : Walk) (part : Text) :
    Fails (NamesModule entries) (partRound entries w part) := by
  rw [partRound]
  refine Fails.bind (Fails.mapError fun e _ q hq => by cases hq) fun matcher _ => ?_
  refine Fails.bind (Fails.foldlM fun next path _ =>
    visit_named part matcher w.seen next path) fun next _ => ?_
  exact .ok _

/-- A source with nothing left to expand. -/
def Sourced (entries : Entries) (s : CopySource) :
    Prop := resolve entries s.selected = .ok s.resolved ∧ NoModule entries s.resolved

theorem selectPath_ends (found : List CopySource) (hfound : ∀ s ∈ found, Sourced entries s)
    (selected : EntryPath) :
    Ends (NamesModule entries) (fun found => ∀ s ∈ found, Sourced entries s)
      (selectPath entries found selected) := by
  rw [selectPath]
  cases hr : resolve entries selected with
  | error e => exact .error (resolve_named selected e hr)
  | ok r =>
    rw [except_ok_bind]
    cases hfind : entries.entries.find? (fun e => r.isPrefixOf e.1 && e.2.isModule) with
    | some e =>
      have hmodule := List.find?_some hfind
      rw [Bool.and_eq_true] at hmodule
      have hget : entries.get? e.1 = some e.2 :=
        OrdMap.get?_eq_some.mpr (List.mem_of_find?_eq_some hfind)
      apply Ends.error
      intro q hq
      cases hq
      rw [hget]
      exact hmodule.2
    | none =>
      apply Ends.ok
      intro s hs
      obtain hs | hs := List.mem_append.mp hs
      · exact hfound s hs
      · rw [List.mem_singleton.mp hs]
        exact ⟨hr, noModule_iff.mpr hfind⟩

theorem selectPattern_ends (found : List CopySource) (hfound : ∀ s ∈ found, Sourced entries s)
    (p : SourcePattern) :
    Ends (NamesModule entries) (fun found => ∀ s ∈ found, Sourced entries s)
      (selectPattern entries found p) := by
  rw [selectPattern]
  refine Ends.bind (Ends.of_fails (Fails.foldlM fun w part _ => partRound_named w part)) fun w _ =>
    ?_
  split
  · exact .error fun q hq => by cases hq
  · exact Ends.foldlM_inv (fun _ found => ∀ s ∈ found, Sourced entries s) hfound
      fun _ path _ found _ hfound => selectPath_ends found hfound path

/-- **A module that is named is one**, and what is selected has none left. -/
theorem select_ends (patterns : List SourcePattern) :
    Ends (NamesModule entries) (fun found => ∀ s ∈ found, Sourced entries s)
      (select entries patterns) := by
  rw [select]
  have hall : Ends (NamesModule entries) (fun found => ∀ s ∈ found, Sourced entries s)
      (patterns.foldlM (selectPattern entries) []) :=
    Ends.foldlM_inv (fun _ found => ∀ s ∈ found, Sourced entries s)
      (fun s hs => absurd hs List.not_mem_nil)
      fun _ p _ found _ hfound => selectPattern_ends found hfound p
  refine hall.bind fun found hfound => ?_
  split
  · exact .error fun q hq => by cases hq
  · exact .ok hfound

end

/-! What is below a source. -/

section
variable {entries entries' : Entries}

/-- An entry below a source, without the number of its store. -/
def plainEntry (e : EntryPath × ContextEntry) : EntryPath × ContextEntry := (e.1, unnumbered e.2)

/-- A source is the same in both, and what is below it. -/
structure Unchanged (entries entries' : Entries) (s : CopySource) : Prop where
  directory : s.isDirectory entries = s.isDirectory entries'
  here : (entries.get? s.resolved).map unnumbered = (entries'.get? s.resolved).map unnumbered
  descendants : (s.descendants entries).map plainEntry = (s.descendants entries').map plainEntry

/-- **The same is below a source** that has nothing left to expand. -/
theorem descendants_same (h : Partly entries entries') {s : CopySource} (hs : Sourced entries s) :
    Unchanged entries entries' s := by
  obtain ⟨hnear, hplain⟩ := resolve_near h.captured hs.1
  have hdir : s.isDirectory entries = s.isDirectory entries' := by
    have hiff := h.directory_iff hnear hplain
    rw [CopySource.isDirectory, CopySource.isDirectory, ← Bool.decide_or, ← Bool.decide_or]
    exact decide_eq_decide.mpr hiff
  refine ⟨hdir, h.same_at hnear hplain, ?_⟩
  -- both are in the order of their paths, and have the same entries
  have hsorted : ∀ m : Entries, ((s.descendants m).map plainEntry).Pairwise
      (fun a b => a.1 < b.1) := by
    intro m
    have hpaths := s.descendants_sorted m
    rw [List.pairwise_map] at hpaths ⊢
    exact hpaths
  have hnodup : ∀ m : Entries, ((s.descendants m).map plainEntry).Nodup := by
    intro m
    refine (hsorted m).imp fun {a b} hless heq => ?_
    rw [heq] at hless
    exact lt_irrefl _ hless
  have hmem : ∀ (m : Entries) (r : EntryPath) (e : ContextEntry), (r, e) ∈
      (s.descendants m).map plainEntry ↔
      s.isDirectory m = true ∧ r ≠ [] ∧ (m.get? (s.resolved ++ r)).map unnumbered = some e := by
    intro m r e
    simp only [List.mem_map, plainEntry, Prod.exists, Prod.mk.injEq, Option.map_eq_some_iff,
      CopySource.mem_descendants]
    constructor
    · intro hfound
      obtain ⟨r', e', ⟨hdir, hne, hget⟩, rfl, rfl⟩ := hfound
      exact ⟨hdir, hne, e', hget, rfl⟩
    · intro hfound
      obtain ⟨hdir, hne, e', hget, rfl⟩ := hfound
      exact ⟨r, e', ⟨hdir, hne, hget⟩, rfl, rfl⟩
  have hperm : ((s.descendants entries).map plainEntry).Perm
      ((s.descendants entries').map plainEntry) := by
    rw [List.perm_ext_iff_of_nodup (hnodup entries) (hnodup entries')]
    intro x
    obtain ⟨r, e⟩ := x
    rw [hmem, hmem, hdir, h.same_below hnear hs.2 r]
  apply hperm.eq_of_pairwise _ (hsorted entries) (hsorted entries')
  intro a b _ _ hab hba
  exact absurd (lt_trans hab hba) (lt_irrefl _)

end

end Conglobate.Copy
