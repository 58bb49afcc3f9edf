import Conglobate.Copy.Components
import Conglobate.Copy.Resolve
import Mathlib.Data.List.Sort
import Mathlib.Data.List.TakeWhile

/- What COPY selects (`SourceTree::select`, `copy/source.rs`).

   A source's components are walked over one flat map of paths. The names before the
   first wildcard are literal: each is looked up where those before it resolve to
   (`Named`). From there on every component is a pattern for the names of a
   directory's children, and no link is followed (`Matched`). `Chosen` is what both
   come to, and `select_exact` says that selection returns exactly that, in order
   and without repetition.

   The children of a directory are one range of the ordered map (`mem_range`): a
   path's descendants are next to each other and right behind it. -/
namespace Conglobate.Copy

/-! A directory's children. -/

theorem not_lt_of_prefix {d x : EntryPath} (h : d <+: x) : ¬ x < d := by
  induction d generalizing x with
  | nil => exact List.not_lt_nil x
  | cons a d ih =>
    obtain ⟨rest, rfl⟩ := h
    rw [List.cons_append, List.cons_lt_cons_iff]
    rintro (hlt | ⟨-, hlt⟩)
    · exact lt_irrefl a hlt
    · exact ih (List.prefix_append d rest) hlt

/-- Between a path and something below it there is only what is below it. -/
theorem prefix_of_between {d x y : EntryPath} (hd : d <+: x) (hfrom : ¬ y < d) (hto : y < x) :
    d <+: y := by
  induction d generalizing x y with
  | nil => exact List.nil_prefix
  | cons a d ih =>
    obtain ⟨rest, rfl⟩ := hd
    cases y with
    | nil => exact absurd (List.nil_lt_cons a d) hfrom
    | cons b y =>
      rw [List.cons_append, List.cons_lt_cons_iff] at hto
      rw [List.cons_lt_cons_iff, not_or, not_and] at hfrom
      obtain hlt | ⟨rfl, hlt⟩ := hto
      · exact absurd hlt hfrom.1
      · exact List.prefix_cons_inj b |>.mpr (ih (List.prefix_append d rest) (hfrom.2 rfl) hlt)

theorem mem_takeWhile_prefix {d x : EntryPath} {l : List EntryPath} (hs : l.Pairwise (· < ·))
    (hfrom : ∀ y ∈ l, ¬ y < d) :
    x ∈ l.takeWhile (fun path => d.isPrefixOf path) ↔ x ∈ l ∧ d <+: x := by
  induction l with
  | nil => simp
  | cons y rest ih =>
    obtain ⟨hhead, hs⟩ := List.pairwise_cons.mp hs
    have ih := ih hs (fun z hz => hfrom z (List.mem_cons_of_mem _ hz))
    rw [List.takeWhile_cons, List.mem_cons]
    split
    · rename_i hprefix
      rw [List.mem_cons, ih]
      constructor
      · rintro (rfl | ⟨hx, hd⟩)
        · exact ⟨.inl rfl, List.isPrefixOf_iff_prefix.mp hprefix⟩
        · exact ⟨.inr hx, hd⟩
      · rintro ⟨rfl | hx, hd⟩
        · exact .inl rfl
        · exact .inr ⟨hx, hd⟩
    · rename_i hprefix
      rw [List.isPrefixOf_iff_prefix] at hprefix
      refine iff_of_false List.not_mem_nil ?_
      rintro ⟨rfl | hx, hd⟩
      · exact hprefix hd
      · exact hprefix (prefix_of_between hd (hfrom y List.mem_cons_self) (hhead x hx))

/-- **The paths below `d` are one range** of the map's keys. -/
theorem mem_range {d x : EntryPath} {l : List EntryPath} (hs : l.Pairwise (· < ·)) :
    x ∈ (l.dropWhile (fun path => decide (path < d))).takeWhile (fun path => d.isPrefixOf path) ↔
      x ∈ l ∧ d <+: x := by
  induction l with
  | nil => simp
  | cons y rest ih =>
    obtain ⟨hhead, hrest⟩ := List.pairwise_cons.mp hs
    rw [List.dropWhile_cons]
    split
    · rename_i hlt
      rw [ih hrest, List.mem_cons]
      refine and_congr_left fun hd => ⟨.inr, fun hx => hx.resolve_left ?_⟩
      rintro rfl
      exact not_lt_of_prefix hd (of_decide_eq_true hlt)
    · rename_i hlt
      have hfrom : ∀ z ∈ y :: rest, ¬ z < d := by
        intro z hz
        have hy : ¬ y < d := by simpa using hlt
        obtain rfl | hz := List.mem_cons.mp hz
        · exact hy
        · exact fun h => hy (lt_trans (hhead z hz) h)
      exact mem_takeWhile_prefix hs hfrom

theorem keys_pairwise (entries : Entries) : entries.keys.Pairwise (· < ·) := by
  rw [OrdMap.keys, List.pairwise_map]
  exact entries.sorted

/-- A path's children are the entries one name below it. -/
theorem mem_children {entries : Entries} {d x : EntryPath} :
    x ∈ children entries d ↔ ∃ name, x = d ++ [name] ∧ x ∈ entries.keys := by
  rw [children, List.mem_filter, mem_range (keys_pairwise entries)]
  simp only [decide_eq_true_eq, Bool.and_eq_true]
  constructor
  · rintro ⟨⟨hx, -⟩, hne, rfl⟩
    exact ⟨x.getLast hne, (List.dropLast_append_getLast hne).symm, hx⟩
  · rintro ⟨name, rfl, hx⟩
    exact ⟨⟨hx, List.prefix_append d [name]⟩, List.concat_ne_nil name d, List.dropLast_concat⟩

theorem children_nodup (entries : Entries) (d : EntryPath) : (children entries d).Nodup := by
  apply List.Nodup.filter
  apply List.Nodup.sublist _ (OrdMap.nodup_keys entries)
  exact (List.takeWhile_sublist _).trans (List.dropWhile_sublist _)

/-! What is chosen. -/

/-- The components before the first wildcard. -/
def literalParts (parts : List Text) : List Text := parts.takeWhile (fun part => !wildcard part)

/-- The components from the first wildcard on. -/
def wildParts (parts : List Text) : List Text := parts.dropWhile (fun part => !wildcard part)

def Directory (entries : Entries) (path : EntryPath) :
    Prop := path = [] ∨ entries.get? path = some .directory

/-- Literal components name a path: the last one, as spelled, in the directory that
    those before it resolve to. -/
inductive Named (entries : Entries) : List Text → EntryPath → Prop where
  | nil : Named entries [] []
  | snoc {parts : List Text} {part : Text} {q d : EntryPath} :
      Named entries parts q → resolve entries q = .ok d →
      Directory entries d → Named entries (parts ++ [part]) (d ++ [part.utf8])

/-- Literal components resolve to `d`. -/
def Literal (entries : Entries) (parts : List Text) (d : EntryPath) : Prop :=
  ∃ q, Named entries parts q ∧ resolve entries q = .ok d

/-- Components matched against the names of real directories' children. -/
inductive Matched (entries : Entries) : EntryPath → List Text → EntryPath → Prop where
  | nil {d : EntryPath} : Matched entries d [] d
  | cons {d q : EntryPath} {part : Text} {rest : List Text} {matcher : SourcePattern}
      {name : Bytes} :
      Directory entries d → d ++ [name] ∈ entries.keys → SourcePattern.fromStr part = .ok matcher →
      matcher.matchesName name = true → Matched entries (d ++ [name]) rest q →
        Matched entries d (part :: rest) q

/-- The paths a source's components choose. -/
def Chosen (entries : Entries) (parts : List Text) (q : EntryPath) : Prop :=
  (wildParts parts = [] ∧ Named entries (literalParts parts) q) ∨
  (wildParts parts ≠ [] ∧ ∃ d, Literal entries (literalParts parts) d ∧
    Matched entries d (wildParts parts) q)

theorem Named.unique {entries : Entries} {parts : List Text} {q q' : EntryPath}
    (h : Named entries parts q) (h' : Named entries parts q') : q = q' := by
  induction h generalizing q' with
  | nil =>
    generalize hparts : ([] : List Text) = parts at h'
    cases h' with
    | nil => rfl
    | snoc _ _ _ => exact absurd hparts.symm (List.concat_ne_nil _ _)
  | @snoc parts part q d _ hresolve _ ih =>
    generalize hparts : parts ++ [part] = other at h'
    cases h' with
    | nil => exact absurd hparts (List.concat_ne_nil _ _)
    | snoc hnamed hresolve' _ =>
      obtain ⟨rfl, hpart⟩ := List.append_inj' hparts rfl
      obtain rfl := List.singleton_inj.mp hpart
      obtain rfl := ih hnamed
      rw [hresolve, Except.ok.injEq] at hresolve'
      rw [hresolve']

theorem Literal.unique {entries : Entries} {parts : List Text} {d d' : EntryPath}
    (h : Literal entries parts d) (h' : Literal entries parts d') : d = d' := by
  obtain ⟨q, hq, hd⟩ := h
  obtain ⟨q', hq', hd'⟩ := h'
  rw [hq.unique hq', hd', Except.ok.injEq] at hd
  exact hd.symm

/-! One component. -/

/-- What a path's directory has for a matcher. -/
def found (entries : Entries) (matcher : SourcePattern) (d : EntryPath) : List EntryPath :=
  if d = [] ∨ entries.get? d = some .directory then
    (children entries d).filter (fun child => matcher.matchesName (child.getLast?.getD []))
  else []

theorem mem_found {entries : Entries} {matcher : SourcePattern} {d q : EntryPath} :
    q ∈ found entries matcher d ↔ Directory entries d ∧ ∃ name, q = d ++ [name] ∧ q ∈ entries.keys ∧
      matcher.matchesName name = true := by
  rw [found, Directory]
  split
  · rename_i hdir
    rw [List.mem_filter, mem_children, and_iff_right hdir]
    constructor
    · rintro ⟨⟨name, rfl, hmem⟩, hmatch⟩
      rw [List.getLast?_concat, Option.getD_some] at hmatch
      exact ⟨name, rfl, hmem, hmatch⟩
    · rintro ⟨name, rfl, hmem, hmatch⟩
      exact ⟨⟨name, rfl, hmem⟩, by rwa [List.getLast?_concat, Option.getD_some]⟩
  · rename_i hdir
    exact iff_of_false List.not_mem_nil (fun h => hdir h.1)

theorem found_nodup (entries : Entries) (matcher : SourcePattern) (d : EntryPath) :
    (found entries matcher d).Nodup := by
  rw [found]
  split
  · exact (children_nodup entries d).filter _
  · exact List.nodup_nil

/-- Different directories have different children. -/
theorem flatMap_found_nodup {entries : Entries} {matcher : SourcePattern} {paths : List EntryPath}
    (h : paths.Nodup) :
    (paths.flatMap (found entries matcher)).Nodup := by
  rw [List.nodup_flatMap]
  refine ⟨fun d _ => found_nodup entries matcher d, h.imp ?_⟩
  intro d d' hne q hq hq'
  obtain ⟨-, name, rfl, -⟩ := mem_found.mp hq
  obtain ⟨-, name', heq, -⟩ := mem_found.mp hq'
  exact hne (List.append_inj' heq rfl).1

section
variable {entries : Entries} (hmodules : ∀ e ∈ entries.entries, e.2.isModule = false)
include hmodules

theorem not_module (path : EntryPath) : (entries.get? path).any ContextEntry.isModule = false := by
  cases h : entries.get? path with
  | none => rfl
  | some e => exact hmodules (path, e) (OrdMap.get?_eq_some.mp h)

/-- Once a wildcard is seen, a path adds its own children. -/
theorem visit_seen (part : Text) (matcher : SourcePattern) (next : List EntryPath) (q : EntryPath) :
    visit entries part matcher true next q = .ok (next ++ found entries matcher q) := by
  rw [visit, not_module hmodules, if_neg Bool.false_ne_true, standing, if_pos rfl,
    except_ok_bind, found]
  by_cases hdir : q = [] ∨ entries.get? q = some .directory
  · have hstand : ¬ (q ≠ [] ∧ entries.get? q ≠ some .directory) := fun h => hdir.elim h.1 h.2
    rw [if_neg hstand, if_pos hdir, Option.filter_some_pos (by simpa using hdir)]
    simp
  · have hstand : q ≠ [] ∧ entries.get? q ≠ some .directory := not_or.mp hdir
    rw [if_pos hstand, if_neg hdir, List.append_nil]
    rfl

/-- Before that, a path adds what its component names where it resolves to. -/
theorem visit_unseen {part : Text} {matcher : SourcePattern} {q : EntryPath}
    {next : List EntryPath} :
    visit entries part matcher false [] q = .ok next ↔ ∃ d, resolve entries q = .ok d ∧
      next = if wildcard part then found entries matcher d
        else if d = [] ∨ entries.get? d = some .directory then [d ++ [part.utf8]] else [] := by
  rw [visit, not_module hmodules, if_neg Bool.false_ne_true, standing, if_neg Bool.false_ne_true]
  cases resolve entries q with
  | error e =>
    refine iff_of_false (fun h => by cases h) ?_
    rintro ⟨d, hd, -⟩
    cases hd
  | ok d =>
    have hmap : (some <$> (Except.ok d : Except SelectionError EntryPath)) = .ok (some d) := rfl
    rw [hmap, except_ok_bind]
    simp only [Except.ok.injEq, exists_eq_left', found]
    have hok : ∀ {x : List EntryPath}, (.ok x : Except SelectionError (List EntryPath)) = .ok next ↔
        next = x := by
      simp [eq_comm]
    by_cases hdir : d = [] ∨ entries.get? d = some .directory
    · rw [if_pos hdir, if_pos hdir, Option.filter_some_pos (by simpa using hdir)]
      cases wildcard part with
      | true => exact hok
      | false => exact hok
    · rw [if_neg hdir, if_neg hdir, Option.filter_some_neg (by simpa using hdir), ite_self]
      exact hok

theorem foldlM_visit_seen (part : Text) (matcher : SourcePattern) (paths next : List EntryPath) :
    paths.foldlM (visit entries part matcher true) next =
      .ok (next ++ paths.flatMap (found entries matcher)) := by
  induction paths generalizing next with
  | nil =>
    rw [List.flatMap_nil, List.append_nil]
    rfl
  | cons q rest ih =>
    rw [List.foldlM_cons, visit_seen hmodules, except_ok_bind, ih, List.flatMap_cons,
      List.append_assoc]

/-! All components. -/

/-- The order paths are kept in. -/
def ordered (paths : List EntryPath) : List EntryPath := paths.mergeSort (fun a b => decide (a ≤ b))

omit hmodules in
theorem mem_ordered {q : EntryPath} {paths : List EntryPath} :
    q ∈ ordered paths ↔ q ∈ paths := List.mem_mergeSort

omit hmodules in
theorem ordered_pairwise {paths : List EntryPath} (h : paths.Nodup) :
    (ordered paths).Pairwise (· < ·) := by
  have hle : (ordered paths).Pairwise (· ≤ ·) := List.pairwise_mergeSort' (· ≤ ·) paths
  have hnodup : (ordered paths).Nodup := (List.mergeSort_perm paths _).nodup_iff.mpr h
  exact (hle.and hnodup).imp fun h => lt_of_le_of_ne h.1 h.2

theorem partRound_seen {part : Text} {matcher : SourcePattern}
    (hparse : SourcePattern.fromStr part = .ok matcher) (paths : List EntryPath) :
    partRound entries ⟨paths, true⟩ part = .ok ⟨ordered
      (paths.flatMap (found entries matcher)), true⟩ := by
  rw [partRound, hparse]
  show (paths.foldlM (visit entries part matcher true) [] >>= _) = _
  rw [foldlM_visit_seen hmodules, except_ok_bind, List.nil_append]
  rfl

omit hmodules in
/-- Without paths there is nothing to find. -/
theorem partRound_nil {part : Text} {matcher : SourcePattern}
    (hparse : SourcePattern.fromStr part = .ok matcher) (seen : Bool) :
    partRound entries ⟨[], seen⟩ part = .ok ⟨[], seen || wildcard part⟩ := by
  rw [partRound, hparse]
  show Except.ok (Walk.mk (([] : List EntryPath).mergeSort _) _) = _
  rw [List.mergeSort_nil]

theorem partRound_single {part : Text} {matcher : SourcePattern}
    (hparse : SourcePattern.fromStr part = .ok matcher) {q : EntryPath} {w : Walk} :
    partRound entries ⟨[q], false⟩ part = .ok w ↔ ∃ d, resolve entries q = .ok d ∧
      w = ⟨ordered (if wildcard part then found entries matcher d
        else if d = [] ∨ entries.get? d = some .directory then
          [d ++ [part.utf8]]
        else
          []), false || wildcard part⟩ := by
  rw [partRound, hparse]
  show ((visit entries part matcher false [] q >>= fun next => pure next) >>= _) = _ ↔ _
  rw [bind_pure, except_bind_eq_ok]
  simp only [visit_unseen hmodules]
  constructor
  · rintro ⟨_, ⟨d, hd, rfl⟩, hw⟩
    cases hw
    exact ⟨d, hd, rfl⟩
  · rintro ⟨d, hd, rfl⟩
    exact ⟨_, ⟨d, hd, rfl⟩, rfl⟩

/-- **A literal component** leaves one path or none. -/
theorem partRound_literal {part : Text} {matcher : SourcePattern}
    (hparse : SourcePattern.fromStr part = .ok matcher) (hliteral : wildcard part = false)
    {q : EntryPath} {w : Walk} :
    partRound entries ⟨[q], false⟩ part = .ok w ∧ w.paths ≠ [] ↔
      ∃ d, resolve entries q = .ok d ∧ Directory entries d ∧ w = ⟨[d ++ [part.utf8]], false⟩ := by
  rw [partRound_single hmodules hparse, hliteral]
  simp only [Bool.false_eq_true, if_false, Bool.or_self]
  constructor
  · rintro ⟨⟨d, hd, rfl⟩, hne⟩
    by_cases hdir : d = [] ∨ entries.get? d = some .directory
    · exact ⟨d, hd, hdir, by rw [if_pos hdir, ordered, List.mergeSort_singleton]⟩
    · exact absurd (by rw [if_neg hdir, ordered, List.mergeSort_nil]) hne
  · rintro ⟨d, hd, hdir, rfl⟩
    rw [Directory] at hdir
    exact ⟨⟨d, hd, by rw [if_pos hdir, ordered, List.mergeSort_singleton]⟩, List.cons_ne_nil _ _⟩

/-- **The first wildcard** finds children where the path before it resolves to. -/
theorem partRound_wildcard {part : Text} {matcher : SourcePattern}
    (hparse : SourcePattern.fromStr part = .ok matcher) (hwild : wildcard part = true)
    {q : EntryPath} {w : Walk} :
    partRound entries ⟨[q], false⟩ part = .ok w ↔
      ∃ d, resolve entries q = .ok d ∧ w = ⟨ordered (found entries matcher d), true⟩ := by
  rw [partRound_single hmodules hparse, hwild]
  simp

/-- Every component is a pattern. -/
def Parses (parts : List Text) : Prop :=
  ∀ part ∈ parts, ∃ matcher, SourcePattern.fromStr part = .ok matcher

omit hmodules in
/-- Without paths the walk ends without. -/
theorem rounds_nil {parts : List Text} (hparse : Parses parts) {v w : Walk} (hv : v.paths = [])
    (h : parts.foldlM (partRound entries) v = .ok w) : w.paths = [] := by
  induction parts generalizing v with
  | nil =>
    cases h
    exact hv
  | cons part rest ih =>
    obtain ⟨matcher, hmatcher⟩ := hparse part List.mem_cons_self
    obtain ⟨paths, seen⟩ := v
    obtain rfl : paths = [] := hv
    rw [List.foldlM_cons, partRound_nil hmatcher, except_ok_bind] at h
    exact ih (fun x hx => hparse x (List.mem_cons_of_mem _ hx)) rfl h

/-- **The literal components** end with the path they name, if with any. -/
theorem rounds_literal {parts : List Text} (hparse : Parses parts)
    (hliteral : ∀ part ∈ parts, wildcard part = false) {w : Walk} :
    parts.foldlM (partRound entries) ⟨[[]], false⟩ = .ok w ∧ w.paths ≠ [] ↔
      ∃ q, Named entries parts q ∧ w = ⟨[q], false⟩ := by
  -- on the last component: those before it have named a path, or there is none left
  induction parts using List.reverseRecOn generalizing w with
  | nil =>
    constructor
    · rintro ⟨h, -⟩
      cases h
      exact ⟨[], .nil, rfl⟩
    · rintro ⟨q, hq, rfl⟩
      rw [hq.unique .nil]
      exact ⟨rfl, List.cons_ne_nil _ _⟩
  | append_singleton parts part ih =>
    have ih := @ih (fun x hx => hparse x (List.mem_append_left _ hx))
      (fun x hx => hliteral x (List.mem_append_left _ hx))
    obtain ⟨matcher, hmatcher⟩ := hparse part (by simp)
    have hplain := hliteral part (by simp)
    rw [List.foldlM_append, except_bind_eq_ok]
    constructor
    · rintro ⟨⟨v, hv, hw⟩, hne⟩
      rw [List.foldlM_cons, except_bind_eq_ok] at hw
      obtain ⟨u, hu, hw⟩ := hw
      cases hw
      by_cases hpaths : v.paths = []
      · obtain ⟨paths, seen⟩ := v
        obtain rfl : paths = [] := hpaths
        rw [partRound_nil hmatcher] at hu
        cases hu
        exact absurd rfl hne
      · obtain ⟨q, hq, rfl⟩ := ih.mp ⟨hv, hpaths⟩
        obtain ⟨d, hd, hdir, rfl⟩ := (partRound_literal hmodules hmatcher hplain).mp ⟨hu, hne⟩
        exact ⟨_, hq.snoc hd hdir, rfl⟩
    · rintro ⟨q, hq, rfl⟩
      generalize hparts : parts ++ [part] = whole at hq
      cases hq with
      | nil => exact absurd hparts (List.concat_ne_nil _ _)
      | snoc hnamed hd hdir =>
        obtain ⟨rfl, hpart⟩ := List.append_inj' hparts rfl
        obtain rfl := List.singleton_inj.mp hpart
        obtain ⟨hv, -⟩ := ih.mpr ⟨_, hnamed, rfl⟩
        obtain ⟨hround, hne⟩ := (partRound_literal hmodules hmatcher hplain).mpr ⟨_, hd, hdir, rfl⟩
        exact ⟨⟨_, hv, by rw [List.foldlM_cons, hround]; rfl⟩, hne⟩

/-- **The components behind a wildcard** match what they find, and never fail. -/
theorem rounds_wild {parts : List Text} (hparse : Parses parts) {paths : List EntryPath}
    (hs : paths.Pairwise (· < ·)) :
    ∃ w, parts.foldlM (partRound entries) ⟨paths, true⟩ = .ok w ∧ w.seen = true ∧
      w.paths.Pairwise (· < ·) ∧ ∀ q, q ∈ w.paths ↔ ∃ d ∈ paths, Matched entries d parts q := by
  induction parts generalizing paths with
  | nil =>
    refine ⟨⟨paths, true⟩, rfl, rfl, hs, fun q => ⟨fun hq => ⟨q, hq, .nil⟩, ?_⟩⟩
    rintro ⟨d, hd, hmatched⟩
    cases hmatched
    exact hd
  | cons part rest ih =>
    obtain ⟨matcher, hmatcher⟩ := hparse part List.mem_cons_self
    have hnodup : (paths.flatMap (found entries matcher)).Nodup :=
      flatMap_found_nodup (hs.imp ne_of_lt)
    obtain ⟨w, hw, hseen, hsorted, hmem⟩ :=
      ih (fun x hx => hparse x (List.mem_cons_of_mem _ hx)) (ordered_pairwise hnodup)
    refine ⟨w, ?_, hseen, hsorted, fun q => (hmem q).trans ?_⟩
    · rw [List.foldlM_cons, partRound_seen hmodules hmatcher, except_ok_bind, hw]
    · constructor
      · rintro ⟨c, hc, hmatched⟩
        obtain ⟨d, hd, hfound⟩ := List.mem_flatMap.mp (mem_ordered.mp hc)
        obtain ⟨hdir, name, rfl, hkey, hname⟩ := mem_found.mp hfound
        exact ⟨d, hd, .cons hdir hkey hmatcher hname hmatched⟩
      · rintro ⟨d, hd, hmatched⟩
        cases hmatched with
        | cons hdir hkey hmatcher' hname hrest =>
          rw [hmatcher, Except.ok.injEq] at hmatcher'
          refine ⟨_, mem_ordered.mpr (List.mem_flatMap.mpr ⟨d, hd, ?_⟩), hrest⟩
          exact mem_found.mpr ⟨hdir, _, rfl, hkey, hmatcher' ▸ hname⟩

omit hmodules in
theorem Matched.key {d q : EntryPath} {parts : List Text} (h : Matched entries d parts q)
    (hne : parts ≠ []) :
    q ∈ entries.keys := by
  induction h with
  | nil => exact absurd rfl hne
  | @cons d q part rest matcher name _ hkey _ _ hrest ih =>
    cases rest with
    | nil =>
      cases hrest
      exact hkey
    | cons => exact ih (List.cons_ne_nil _ _)

/-- **All components** end with the paths they choose. -/
theorem rounds_chosen {parts : List Text} (hparse : Parses parts) :
    (∀ w, parts.foldlM (partRound entries) ⟨[[]], false⟩ = .ok w → w.paths ≠ [] →
      w.paths.Pairwise (· < ·) ∧
      (∀ q, q ∈ w.paths ↔ Chosen entries parts q) ∧
        (w.seen = true → (∃ d, Literal entries (literalParts parts) d) ∧
        ∀ q ∈ w.paths, q ∈ entries.keys)) ∧
    ∀ q, Chosen entries parts q → ∃ w, parts.foldlM (partRound entries) ⟨[[]], false⟩ = .ok w ∧
      q ∈ w.paths := by
  have hsplit : parts = literalParts parts ++ wildParts parts :=
    List.takeWhile_append_dropWhile.symm
  have hliteralParse : Parses (literalParts parts) :=
    fun x hx => hparse x ((List.takeWhile_subset _) hx)
  have hliteral : ∀ part ∈ literalParts parts, wildcard part = false := fun x hx => by
    simpa using List.mem_takeWhile_imp hx
  have hfold : ∀ w, parts.foldlM (partRound entries) ⟨[[]], false⟩ = .ok w ↔
      ∃ v, (literalParts parts).foldlM (partRound entries) ⟨[[]], false⟩ = .ok v ∧
        (wildParts parts).foldlM (partRound entries) v = .ok w := by
    intro w
    conv_lhs => rw [hsplit, List.foldlM_append, except_bind_eq_ok]
  cases hwild : wildParts parts with
  | nil =>
    simp only [Chosen, hwild, ne_eq, not_true_eq_false, false_and, or_false, true_and]
    rw [hwild] at hfold
    constructor
    · intro w hw hne
      obtain ⟨v, hv, hw⟩ := (hfold w).mp hw
      cases hw
      obtain ⟨q, hq, rfl⟩ := (rounds_literal hmodules hliteralParse hliteral).mp ⟨hv, hne⟩
      refine ⟨List.pairwise_singleton _ _, fun q' => ?_, fun hseen => by cases hseen⟩
      rw [List.mem_singleton]
      exact ⟨fun h => h ▸ hq, fun h => h.unique hq⟩
    · intro q hq
      obtain ⟨hv, -⟩ := (rounds_literal hmodules hliteralParse hliteral).mpr ⟨q, hq, rfl⟩
      exact ⟨⟨[q], false⟩, (hfold _).mpr ⟨_, hv, rfl⟩, List.mem_singleton_self q⟩
  | cons part rest =>
    have hpart : wildcard part = true := by
      have hhead := List.head?_dropWhile_not (fun part => !wildcard part) parts
      rw [← wildParts, hwild] at hhead
      simpa using hhead
    have hmem : ∀ x ∈ part :: rest, x ∈ parts := fun x hx => (List.dropWhile_subset _) (hwild ▸ hx)
    obtain ⟨matcher, hmatcher⟩ := hparse part (hmem part List.mem_cons_self)
    simp only [Chosen, hwild, ne_eq, reduceCtorEq, not_false_eq_true, true_and, false_and, false_or]
    rw [hwild] at hfold
    -- from where the literal components resolve to, every component is matched
    have hrun : ∀ q d, resolve entries q = .ok d →
        ∃ w, (part :: rest).foldlM (partRound entries) ⟨[q], false⟩ = .ok w ∧ w.seen = true ∧
          w.paths.Pairwise (· < ·) ∧ ∀ q', q' ∈ w.paths ↔ Matched entries d (part :: rest) q' := by
      intro q d hd
      obtain ⟨w, hw, hseen, hsorted, hw'⟩ :=
        rounds_wild hmodules (fun x hx => hparse x (hmem x (List.mem_cons_of_mem _ hx)))
        (ordered_pairwise (found_nodup entries matcher d))
      have hfirst := (partRound_wildcard hmodules hmatcher hpart).mpr ⟨d, hd, rfl⟩
      refine ⟨w, by rw [List.foldlM_cons, hfirst, except_ok_bind, hw], hseen, hsorted,
        fun q' => (hw' q').trans ?_⟩
      constructor
      · rintro ⟨c, hc, hmatched⟩
        obtain ⟨hdir, name, rfl, hkey, hname⟩ := mem_found.mp (mem_ordered.mp hc)
        exact .cons hdir hkey hmatcher hname hmatched
      · intro hmatched
        cases hmatched with
        | cons hdir hkey hmatcher' hname hrest =>
          rw [hmatcher, Except.ok.injEq] at hmatcher'
          exact ⟨_, mem_ordered.mpr (mem_found.mpr ⟨hdir, _, rfl, hkey, hmatcher' ▸ hname⟩), hrest⟩
    constructor
    · intro w hw hne
      obtain ⟨v, hv, hw⟩ := (hfold w).mp hw
      by_cases hpaths : v.paths = []
      · exact absurd (rounds_nil (fun x hx => hparse x (hmem x hx)) hpaths hw) hne
      · obtain ⟨q, hq, rfl⟩ := (rounds_literal hmodules hliteralParse hliteral).mp ⟨hv, hpaths⟩
        rw [List.foldlM_cons, except_bind_eq_ok] at hw
        obtain ⟨u, hu, hw⟩ := hw
        obtain ⟨d, hd, -⟩ := (partRound_wildcard hmodules hmatcher hpart).mp hu
        obtain ⟨w', hw', hseen, hsorted, hmem'⟩ := hrun q d hd
        rw [List.foldlM_cons, hu, except_ok_bind, hw, Except.ok.injEq] at hw'
        subst hw'
        refine ⟨hsorted, fun q' => (hmem' q').trans ?_, fun _ => ⟨⟨d, q, hq, hd⟩, fun q' hq' => ?_⟩⟩
        · constructor
          · exact fun hmatched => ⟨d, ⟨q, hq, hd⟩, hmatched⟩
          · rintro ⟨d', hd', hmatched⟩
            rwa [Literal.unique ⟨q, hq, hd⟩ hd']
        · exact ((hmem' q').mp hq').key (List.cons_ne_nil _ _)
    · rintro q' ⟨d, ⟨q, hq, hd⟩, hmatched⟩
      obtain ⟨hv, -⟩ := (rounds_literal hmodules hliteralParse hliteral).mpr ⟨q, hq, rfl⟩
      obtain ⟨w, hw, -, -, hmem'⟩ := hrun q d hd
      exact ⟨w, (hfold w).mpr ⟨_, hv, hw⟩, (hmem' q').mpr hmatched⟩

/-! The chosen paths. -/

/-- Without modules a selected path only has to resolve. -/
theorem selectPath_eq_ok {selected : EntryPath} {before after : List CopySource} :
    selectPath entries before selected = .ok after ↔
      ∃ r, resolve entries selected = .ok r ∧ after = before ++ [⟨selected, r⟩] := by
  have hnone : ∀ r, entries.entries.find? (fun e => List.isPrefixOf r e.1 && e.2.isModule) =
      none := by
    intro r
    rw [List.find?_eq_none]
    intro e he
    simp [hmodules e he]
  rw [selectPath, except_bind_eq_ok]
  simp only [hnone, Except.ok.injEq, eq_comm]

/-- **The chosen paths** are returned in their order, each with its resolution. -/
theorem foldlM_selectPath {paths : List EntryPath} {before after : List CopySource} :
    paths.foldlM (selectPath entries) before = .ok after ↔ ∃ new, after = before ++ new ∧
      new.map CopySource.selected = paths ∧
      ∀ s ∈ new, resolve entries s.selected = .ok s.resolved := by
  induction paths generalizing before with
  | nil =>
    simp only [List.foldlM_nil, List.map_eq_nil_iff]
    constructor
    · intro h
      cases h
      exact ⟨[], by simp, rfl, by simp⟩
    · rintro ⟨new, rfl, rfl, -⟩
      rw [List.append_nil]
      rfl
  | cons path rest ih =>
    rw [List.foldlM_cons, except_bind_eq_ok]
    constructor
    · rintro ⟨mid, hmid, h⟩
      obtain ⟨r, hr, rfl⟩ := (selectPath_eq_ok hmodules).mp hmid
      obtain ⟨new, rfl, hnew, hall⟩ := ih.mp h
      refine ⟨⟨path, r⟩ :: new, by simp, by rw [List.map_cons, hnew], ?_⟩
      exact List.forall_mem_cons.mpr ⟨hr, hall⟩
    · rintro ⟨new, rfl, hnew, hall⟩
      obtain ⟨s, new, rfl, rfl, rfl⟩ := List.map_eq_cons_iff.mp hnew
      obtain ⟨hs, hall⟩ := List.forall_mem_cons.mp hall
      exact ⟨_, (selectPath_eq_ok hmodules).mpr ⟨s.resolved, hs, rfl⟩,
        ih.mpr ⟨new, by simp, rfl, hall⟩⟩

/-- **One source**, on its own: it succeeds with the chosen paths if they all resolve. -/
theorem selectPattern_eq_ok {p : SourcePattern} (hparse : Parses (sourceParts p))
    {before after : List CopySource} :
    selectPattern entries before p = .ok after ↔ ∃ new, after = before ++ new ∧ new ≠ [] ∧
      (new.map CopySource.selected).Pairwise (· < ·) ∧
        (∀ q, q ∈ new.map CopySource.selected ↔ Chosen entries (sourceParts p) q) ∧
      ∀ s ∈ new, resolve entries s.selected = .ok s.resolved := by
  obtain ⟨hrounds, hchosen⟩ := rounds_chosen hmodules hparse
  have hkeep : ∀ w, (sourceParts p).foldlM (partRound entries) ⟨[[]], false⟩ = .ok w →
      keepPresent entries w = w.paths := by
    intro w hw
    rw [keepPresent]
    split
    · rename_i hseen
      apply List.filter_eq_self.mpr
      intro q hq
      obtain ⟨-, -, hkeys⟩ := hrounds w hw (List.ne_nil_of_mem hq)
      rw [Bool.or_eq_true]
      exact .inr (OrdMap.contains_eq_true.mpr ((hkeys hseen).2 q hq))
    · rfl
  rw [selectPattern, except_bind_eq_ok]
  constructor
  · rintro ⟨w, hw, h⟩
    rw [hkeep w hw] at h
    split at h
    · cases h
    · rename_i hne
      obtain ⟨hsorted, hmem, -⟩ := hrounds w hw hne
      obtain ⟨new, rfl, hnew, hall⟩ := (foldlM_selectPath hmodules).mp h
      refine ⟨new, rfl, ?_, hnew ▸ hsorted, fun q => hnew ▸ hmem q, hall⟩
      rintro rfl
      exact hne hnew.symm
  · rintro ⟨new, rfl, hne, hsorted, hmem, hall⟩
    obtain ⟨s, hs⟩ := List.exists_mem_of_ne_nil new hne
    obtain ⟨w, hw, hpath⟩ := hchosen s.selected ((hmem _).mp (List.mem_map_of_mem hs))
    have hpaths := List.ne_nil_of_mem hpath
    obtain ⟨hsorted', hmem', -⟩ := hrounds w hw hpaths
    -- both lists are the chosen paths in order
    have heq : new.map CopySource.selected = w.paths := by
      have hperm := (List.perm_ext_iff_of_nodup (hsorted.imp ne_of_lt) (hsorted'.imp ne_of_lt)).mpr
        fun q => (hmem q).trans (hmem' q).symm
      apply hperm.eq_of_pairwise _ hsorted hsorted'
      intro a b _ _ hab hba
      exact absurd (lt_trans hab hba) (lt_irrefl _)
    refine ⟨w, hw, ?_⟩
    rw [hkeep w hw, if_neg hpaths]
    exact (foldlM_selectPath hmodules).mpr ⟨new, rfl, heq, hall⟩

end

/-! Lists of sources. -/

theorem selectPath_append {entries : Entries} (selected : EntryPath)
    (before after : List CopySource) :
    selectPath entries before selected = .ok after ↔
      ∃ new, after = before ++ new ∧ selectPath entries [] selected = .ok new := by
  have hsplit : ∀ before, selectPath entries before selected = (selectPath entries [] selected).map
      (before ++ ·) := by
    intro before
    rw [selectPath, selectPath]
    cases resolve entries selected with
    | error e => rfl
    | ok r =>
      rw [except_ok_bind, except_ok_bind]
      cases entries.entries.find? (fun e => List.isPrefixOf r e.1 && e.2.isModule) <;> rfl
  rw [hsplit before]
  cases selectPath entries [] selected with
  | error e => simp [Except.map]
  | ok new => simp [Except.map, eq_comm]

theorem foldlM_append_iff {α : Type}
    {f : List CopySource → α → Except SelectionError (List CopySource)}
    (hf : ∀ a before after, f before a = .ok after ↔ ∃ new, after = before ++ new ∧
    f [] a = .ok new) {l : List α} {before after : List CopySource} :
    l.foldlM f before = .ok after ↔ ∃ news, List.Forall₂ (fun a new => f [] a = .ok new) l news ∧
      after = before ++ news.flatten := by
  induction l generalizing before with
  | nil =>
    rw [List.foldlM_nil]
    constructor
    · intro h
      cases h
      exact ⟨[], .nil, by simp⟩
    · rintro ⟨news, hnews, rfl⟩
      cases hnews
      simp [pure, Except.pure]
  | cons a rest ih =>
    rw [List.foldlM_cons, except_bind_eq_ok]
    constructor
    · rintro ⟨mid, hmid, h⟩
      obtain ⟨new, rfl, hnew⟩ := (hf a _ _).mp hmid
      obtain ⟨news, hnews, rfl⟩ := ih.mp h
      exact ⟨new :: news, .cons hnew hnews, by simp⟩
    · rintro ⟨_, hnews, rfl⟩
      cases hnews with
      | cons hnew hrest => exact ⟨_, (hf a _ _).mpr ⟨_, rfl, hnew⟩, ih.mpr ⟨_, hrest, by simp⟩⟩

theorem selectPattern_append {entries : Entries} (p : SourcePattern)
    (before after : List CopySource) :
    selectPattern entries before p = .ok after ↔ ∃ new, after = before ++ new ∧
      selectPattern entries [] p = .ok new := by
  rw [selectPattern, selectPattern, except_bind_eq_ok]
  simp only [except_bind_eq_ok]
  constructor
  · rintro ⟨w, hw, h⟩
    split at h
    · cases h
    · rename_i hne
      obtain ⟨news, hnews, rfl⟩ := (foldlM_append_iff selectPath_append).mp h
      refine ⟨news.flatten, rfl, w, hw, ?_⟩
      rw [if_neg hne]
      exact (foldlM_append_iff selectPath_append).mpr ⟨news, hnews, rfl⟩
  · rintro ⟨new, rfl, w, hw, h⟩
    split at h
    · cases h
    · rename_i hne
      obtain ⟨news, hnews, rfl⟩ := (foldlM_append_iff selectPath_append).mp h
      refine ⟨w, hw, ?_⟩
      rw [if_neg hne]
      exact (foldlM_append_iff selectPath_append).mpr ⟨news, hnews, rfl⟩

/-- A source that succeeds selects something. -/
theorem selectPattern_ne_nil {entries : Entries} {p : SourcePattern} {new : List CopySource}
    (h : selectPattern entries [] p = .ok new) : new ≠ [] := by
  rw [selectPattern, except_bind_eq_ok] at h
  obtain ⟨w, -, h⟩ := h
  split at h
  · cases h
  · rename_i hne
    obtain ⟨path, rest, hpaths⟩ := List.exists_cons_of_ne_nil hne
    rw [hpaths] at h
    obtain ⟨news, hnews, rfl⟩ := (foldlM_append_iff selectPath_append).mp h
    cases hnews with
    | cons hnew _ =>
      rw [selectPath, except_bind_eq_ok] at hnew
      obtain ⟨r, -, hnew⟩ := hnew
      split at hnew
      · cases hnew
      · cases hnew
        simp

theorem select_single {entries : Entries} {p : SourcePattern} {found : List CopySource} :
    select entries [p] = .ok found ↔ selectPattern entries [] p = .ok found := by
  rw [select, List.foldlM_cons, except_bind_eq_ok]
  constructor
  · rintro ⟨out, hout, h⟩
    split at h
    · cases h
    · cases h
      obtain ⟨new, hnew, hnil⟩ := except_bind_eq_ok.mp hout
      cases hnil
      exact hnew
  · intro h
    refine ⟨found, except_bind_eq_ok.mpr ⟨found, h, rfl⟩, ?_⟩
    rw [if_neg (selectPattern_ne_nil h)]

/-- **A list of sources** selects what each selects, one after the other. -/
theorem select_list {entries : Entries} {patterns : List SourcePattern} {found : List CopySource} :
    select entries patterns = .ok found ↔ patterns ≠ [] ∧
      ∃ founds, List.Forall₂ (fun p new => select entries [p] = .ok new) patterns founds ∧
        found = founds.flatten := by
  simp only [select_single]
  rw [select, except_bind_eq_ok]
  simp only [foldlM_append_iff selectPattern_append, List.nil_append]
  constructor
  · rintro ⟨out, ⟨founds, hall, rfl⟩, h⟩
    split at h
    · cases h
    · rename_i hne
      cases h
      refine ⟨?_, founds, hall, rfl⟩
      rintro rfl
      cases hall
      exact hne rfl
  · rintro ⟨hne, founds, hall, rfl⟩
    refine ⟨_, ⟨founds, hall, rfl⟩, if_neg ?_⟩
    cases hall with
    | nil => exact absurd rfl hne
    | cons hnew _ =>
      rw [List.flatten_cons]
      exact fun h => selectPattern_ne_nil hnew (List.append_eq_nil_iff.mp h).1

/-- Paths that resolve, with their resolutions. -/
theorem resolved_list {entries : Entries} {paths : List EntryPath}
    (h : ∀ q ∈ paths, ∃ r, resolve entries q = .ok r) :
    ∃ new : List CopySource, new.map CopySource.selected = paths ∧
      ∀ s ∈ new, resolve entries s.selected = .ok s.resolved := by
  induction paths with
  | nil => exact ⟨[], rfl, by simp⟩
  | cons q rest ih =>
    obtain ⟨⟨r, hr⟩, hrest⟩ := List.forall_mem_cons.mp h
    obtain ⟨new, hnew, hall⟩ := ih hrest
    exact ⟨⟨q, r⟩ :: new, by rw [List.map_cons, hnew], List.forall_mem_cons.mpr ⟨hr, hall⟩⟩

/-- **COPY selection is exact.** In a tree without modules, a source whose components
    each parse is selected just when its literal components resolve, some path is
    chosen and every chosen one resolves; selected is then what is chosen, in order,
    once, and with its resolution. A list is selected when it is not empty and each
    of its sources is, with what each selects. -/
theorem select_exact {entries : Entries} (hmodules : ∀ e ∈ entries.entries, e.2.isModule = false) :
    (∀ p : SourcePattern, Parses (sourceParts p) →
      ((∃ found, select entries [p] = .ok found) ↔
        (∃ d, Literal entries (literalParts (sourceParts p)) d) ∧
        (∃ q, Chosen entries (sourceParts p) q) ∧ ∀ q, Chosen entries (sourceParts p) q →
          ∃ r, resolve entries q = .ok r) ∧
      ∀ found, select entries [p] = .ok found → (found.map CopySource.selected).Pairwise (· < ·) ∧
        (∀ q, q ∈ found.map CopySource.selected ↔ Chosen entries (sourceParts p) q) ∧
        ∀ s ∈ found, resolve entries s.selected = .ok s.resolved) ∧
    ∀ patterns found, select entries patterns = .ok found ↔ patterns ≠ [] ∧
      ∃ founds, List.Forall₂ (fun p new => select entries [p] = .ok new) patterns founds ∧
        found = founds.flatten := by
  refine ⟨fun p hparse => ⟨⟨?_, ?_⟩, ?_⟩, fun _ _ => select_list⟩
  · intro h
    obtain ⟨found, hfound⟩ := h
    obtain ⟨new, -, hne, -, hmem, hall⟩ :=
      (selectPattern_eq_ok hmodules hparse).mp (select_single.mp hfound)
    have hresolves : ∀ q, Chosen entries (sourceParts p) q → ∃ r, resolve entries q = .ok r := by
      intro q hq
      obtain ⟨s, hs, rfl⟩ := List.mem_map.mp ((hmem q).mpr hq)
      exact ⟨_, hall s hs⟩
    obtain ⟨s, hs⟩ := List.exists_mem_of_ne_nil new hne
    have hchosen := (hmem _).mp (List.mem_map_of_mem hs)
    refine ⟨?_, ⟨_, hchosen⟩, hresolves⟩
    obtain ⟨-, hnamed⟩ | ⟨-, d, hd, -⟩ := hchosen
    · exact ⟨s.resolved, s.selected, hnamed, hall s hs⟩
    · exact ⟨d, hd⟩
  · rintro ⟨-, ⟨q, hq⟩, hresolves⟩
    obtain ⟨hrounds, hchosen⟩ := rounds_chosen hmodules hparse
    obtain ⟨w, hw, hpath⟩ := hchosen q hq
    obtain ⟨hsorted, hmem, -⟩ := hrounds w hw (List.ne_nil_of_mem hpath)
    obtain ⟨new, hnew, hall⟩ := resolved_list fun q hq => hresolves q ((hmem q).mp hq)
    refine ⟨new, select_single.mpr ((selectPattern_eq_ok hmodules hparse).mpr
      ⟨new, rfl, ?_, hnew ▸ hsorted, fun q => hnew ▸ hmem q, hall⟩)⟩
    rintro rfl
    exact absurd (hnew ▸ hpath) List.not_mem_nil
  · intro found hfound
    obtain ⟨new, hnew, -, hsorted, hmem, hall⟩ :=
      (selectPattern_eq_ok hmodules hparse).mp (select_single.mp hfound)
    rw [hnew, List.nil_append]
    exact ⟨hsorted, hmem, hall⟩

/-- "l/*" -/
def linkedPattern : SourcePattern := ⟨['l', '/', '*'], [.literal [108, slash], .star]⟩

/-- `select_exact` for "l/*", through the link. -/
theorem star_selects_file : ∃ found, select linked [linkedPattern] = .ok found := by
  have hparts : sourceParts linkedPattern = [['l'], ['*']] := by decide
  have hmodules : ∀ e ∈ linked.entries, e.2.isModule = false := by decide
  have hstar : SourcePattern.fromStr ['*'] = .ok ⟨['*'], [.star]⟩ := by
    have hnormalized : normalized ['*'] = ['*'] := by decide
    apply fromStr_normalized (by decide)
    rw [hnormalized]
    exact parse_cons_eq_ok.mpr ⟨.star, [], [], rfl, by rw [parse], rfl⟩
  have hliteral : SourcePattern.fromStr ['l'] = .ok ⟨['l'], [.literal [108]]⟩ := by
    have hnormalized : normalized ['l'] = ['l'] := by decide
    apply fromStr_normalized (by decide)
    rw [hnormalized]
    exact parse_cons_eq_ok.mpr ⟨.literal [108], [], [], rfl, by rw [parse], rfl⟩
  have hparse : Parses (sourceParts linkedPattern) := by
    intro part hpart
    rw [hparts, List.mem_cons, List.mem_singleton] at hpart
    obtain rfl | rfl := hpart
    · exact ⟨_, hliteral⟩
    · exact ⟨_, hstar⟩
  -- the link leads to the directory
  have hdirectory : linked.get? ([] ++ [[100]]) = some .directory := by decide
  have hlink : resolve linked [[108]] = .ok [[100]] := by
    have hentry : linked.get? ([] ++ [[108]]) = some (.symlink [100]) := by decide
    rw [resolve, resolveFrom_symlink (by decide) (by decide) hentry, if_neg (by decide)]
    show resolveFrom linked [[108]] 1 [] [[100]] = _
    rw [resolveFrom_directory (by decide) (by decide) hdirectory, resolveFrom]
    rfl
  have hfile : resolve linked [[100], [102]] = .ok [[100], [102]] := by
    have hentry : linked.get? ([[100]] ++ [[102]]) = some (.file 0 false []) := by decide
    rw [resolve, resolveFrom_directory (by decide) (by decide) hdirectory]
    show resolveFrom linked _ 0 [[100]] [[102]] = _
    rw [resolveFrom_file (by decide) (by decide) hentry, if_neg (not_not_intro rfl), resolveFrom]
    rfl
  have hroot : resolve linked [] = .ok [] := by rw [resolve, resolveFrom]
  have hnamed : Named linked (literalParts [['l'], ['*']]) [[108]] :=
    Named.nil.snoc hroot (.inl rfl)
  refine ((select_exact hmodules).1 linkedPattern hparse).1.mpr ?_
  rw [hparts]
  refine ⟨⟨_, _, hnamed, hlink⟩, ⟨[[100], [102]], ?_⟩, ?_⟩
  · exact .inr ⟨by decide, [[100]], ⟨_, hnamed, hlink⟩,
      .cons (.inr hdirectory) (by decide) hstar (by decide) .nil⟩
  · intro q hq
    obtain ⟨hwild, -⟩ | ⟨-, d, ⟨q', hq', hd⟩, hmatched⟩ := hq
    · exact absurd hwild (by decide)
    obtain rfl := hq'.unique hnamed
    obtain rfl := Except.ok.inj (hd.symm.trans hlink)
    cases hmatched with
    | @cons _ _ _ _ _ name _ hkey _ _ hrest =>
      cases hrest
      have hkeys : linked.keys = [[[100]], [[100], [102]], [[108]]] := by decide
      rw [hkeys] at hkey
      simp only [List.singleton_append, List.mem_cons, List.cons.injEq, List.not_mem_nil,
        reduceCtorEq, and_false, and_true, or_false, false_or, true_and] at hkey
      rw [hkey]
      exact ⟨_, hfile⟩

end Conglobate.Copy
