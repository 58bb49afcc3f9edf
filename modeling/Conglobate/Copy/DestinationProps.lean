import Conglobate.Copy.Destination

/- COPY destinations stay in the image (`copy/destination/mod.rs`).

   The two trees are one image, the output's put at "mnt" (`view`), and what is missing
   in it is going to be a directory (`walkTree`): resolution looks names up
   one by one, each below directories and missing names only.

   What is proved:
     1. `resolveFrom_sound` — what the loop returns is where a walk of that image
        ends, or, where final links are not followed, a link in such a place;
     2. `resolveFrom_reaches` — a walk of at most forty links is followed to its end;
     3. `resolve_inside` — both, with what it means for the result. -/
namespace Conglobate.Copy

namespace Destination

/-- What a path of the image denotes, the output's tree at "mnt". -/
def view (dest : Destination) (path : List Bytes) : Option ImageNode :=
  if (dest.location path).2 = [] then
    some .directory
  else
    (dest.location path).1.node (dest.location path).2

end Destination

/-- What a node is to a walk. -/
def ImageNode.toPosix : ImageNode → Posix.Node Bytes
  | .directory => .directory
  | .file => .leaf
  | .symlink target => .link (isAbsolute target) (posixParts target)

/-- The image, with a directory for what is missing. -/
def Destination.walkTree (dest : Destination) (path : List Bytes) : Option (Posix.Node Bytes) :=
  match dest.view path with
  | none => some .directory
  | some node => some node.toPosix

/-! Looking up. -/

theorem ImageTree.missing {tree : ImageTree} {path : List Bytes} (hne : path ≠ [])
    (h : tree.node path = none) (rest : List Bytes) :
    tree.node (path ++ rest) = none := by
  induction rest using List.reverseRecOn with
  | nil => rwa [List.append_nil]
  | append_singleton rest name ih =>
    by_contra hsome
    rw [← List.append_assoc] at hsome
    obtain hnil | hdir := tree.parents _ _ hsome
    · exact hne (List.append_eq_nil_iff.mp hnil).1
    · rw [ih] at hdir
      cases hdir

theorem openat2_sound {tree : ImageTree} {here names : List Bytes} {node : Option ImageNode}
    (hne : names ≠ []) (h : openat2 tree here names = .ok node) :
    node = tree.node (here ++ names) := by
  induction names generalizing here with
  | nil => exact absurd rfl hne
  | cons name rest ih =>
    cases rest with
    | nil => exact (Except.ok.inj h).symm
    | cons next rest =>
      rw [openat2] at h
      · cases hname : tree.node (here ++ [name]) with
        | none =>
          rw [hname] at h
          have hmissing := tree.missing (List.concat_ne_nil name here) hname (next :: rest)
          rw [List.append_assoc] at hmissing
          exact (Except.ok.inj h).symm.trans hmissing.symm
        | some found =>
          rw [hname] at h
          cases found with
          | directory =>
            have hnode := ih (List.cons_ne_nil _ _) h
            rwa [List.append_assoc] at hnode
          | _ => cases h
      · exact fun heq => List.cons_ne_nil _ _ heq

theorem openat2_complete {tree : ImageTree} {here names : List Bytes} (hne : names ≠ [])
    (h : ∀ front, front <+: names → front ≠ [] → front ≠ names →
      tree.node (here ++ front) = none ∨ tree.node (here ++ front) = some .directory) :
    openat2 tree here names = .ok (tree.node (here ++ names)) := by
  induction names generalizing here with
  | nil => exact absurd rfl hne
  | cons name rest ih =>
    cases rest with
    | nil => rfl
    | cons next rest =>
      have hfirst := h [name] (List.prefix_append [name] _) (List.cons_ne_nil _ _) (by simp)
      rw [openat2]
      · obtain hname | hname := hfirst
        · have hmissing := tree.missing (List.concat_ne_nil name here) hname (next :: rest)
          rw [List.append_assoc] at hmissing
          rw [hname]
          exact congrArg Except.ok hmissing.symm
        · rw [hname]
          have hnode := @ih (here ++ [name]) (List.cons_ne_nil next rest)
            (fun front hfront hfne hfne' => ?_)
          · rw [List.append_assoc] at hnode
            exact hnode
          · rw [List.append_assoc]
            apply h (name :: front) (List.prefix_cons_inj name |>.mpr hfront) (List.cons_ne_nil _ _)
            exact fun heq => hfne' (List.cons.inj heq).2
      · exact fun heq => List.cons_ne_nil _ _ heq

namespace Destination
variable {dest : Destination}

/-- Paths under "mnt" are the output's. -/
theorem location_mnt {output : ImageTree} (h : dest.output = some output) (rest : List Bytes) :
    dest.location (mntName :: rest) = (output, rest) := by
  rw [location, h]
  exact if_pos rfl

/-- All other paths are the root's. -/
theorem location_root {path : List Bytes} (h : dest.output = none ∨ path.head? ≠ some mntName) :
    dest.location path = (dest.root, path) := by
  rw [location]
  cases hout : dest.output with
  | none => rfl
  | some output => exact if_neg (h.resolve_left (by simp [hout]))

/-- A path is in one of them. -/
theorem location_cases (dest : Destination) (path : List Bytes) :
    (∃ output rest, dest.output = some output ∧ path = mntName :: rest) ∨ dest.output = none ∨
      path.head? ≠ some mntName := by
  cases hout : dest.output with
  | none => exact .inr (.inl rfl)
  | some output =>
    by_cases hmnt : path.head? = some mntName
    · exact .inl ⟨output, path.tail, rfl, List.eq_cons_of_mem_head? hmnt⟩
    · exact .inr (.inr hmnt)

/-- The ways into a tree are ways of the image. -/
theorem location_prefix {path front : List Bytes} (hfront : front <+: (dest.location path).2)
    (hne : front ≠ []) :
    ∃ q, q <+: path ∧ (q = path → front = (dest.location path).2) ∧
      dest.location q = ((dest.location path).1, front) := by
  obtain ⟨output, rest, hout, rfl⟩ | hroot := dest.location_cases path
  · rw [location_mnt hout] at hfront ⊢
    refine ⟨mntName :: front, ?_, fun heq => (List.cons.inj heq).2, location_mnt hout front⟩
    rw [List.prefix_cons_inj]
    exact hfront
  · rw [location_root hroot] at hfront ⊢
    refine ⟨front, hfront, id, location_root (hroot.imp_right fun hmnt => ?_)⟩
    obtain ⟨name, front, rfl⟩ := List.exists_cons_of_ne_nil hne
    obtain ⟨rest, rfl⟩ := hfront
    exact hmnt

theorem isDirectory_walkTree {path : List Bytes} :
    Posix.IsDirectory dest.walkTree path ↔ path = [] ∨ dest.view path = none ∨
      dest.view path = some .directory := by
  rw [Posix.IsDirectory, walkTree]
  refine or_congr_right ?_
  cases dest.view path with
  | none => simp
  | some node => cases node <;> simp [ImageNode.toPosix]

/-- **What is observed is what the image has.** -/
theorem observe_sound {path : List Bytes} {node : Option ImageNode}
    (h : dest.observe path = .ok node) : node = dest.view path := by
  rw [observe] at h
  split at h
  · cases h
  · rw [view]
    by_cases hnil : (dest.location path).2 = []
    · rw [hnil] at h
      rw [if_pos hnil]
      exact (Except.ok.inj h).symm
    · rw [if_neg hnil]
      exact openat2_sound hnil h

/-- **Below directories and missing names**, the image is observed. -/
theorem observe_complete {path : List Bytes} (hrefused : dest.refused path = false)
    (h : ∀ q, q <+: path → q ≠ path → Posix.IsDirectory dest.walkTree q) :
    dest.observe path = .ok (dest.view path) := by
  rw [observe, hrefused, if_neg Bool.false_ne_true, view]
  by_cases hnil : (dest.location path).2 = []
  · rw [if_pos hnil, hnil]
    rfl
  · rw [if_neg hnil]
    apply openat2_complete hnil
    intro front hfront hne hproper
    obtain ⟨q, hq, hwhole, hlocation⟩ := location_prefix hfront hne
    obtain hroot | hnode := isDirectory_walkTree.mp (h q hq fun heq => hproper (hwhole heq))
    · -- the image's root is in the root's tree at no name
      rw [hroot, location_root (.inr (by simp))] at hlocation
      exact absurd (Prod.mk.inj hlocation).2.symm hne
    · rw [view, hlocation, if_neg hne] at hnode
      exact hnode

/-! The loop, name by name. -/

/-- A name that is entered. -/
structure Entered (part : Bytes) : Prop where
  not_slash : part ≠ [slash]
  not_dot : part ≠ dotName
  not_dotdot : part ≠ dotdotName

section
variable {f : Bool} {links : Nat} {here rest : List Bytes} {part : Bytes}

theorem resolveFrom_slash : resolveFrom dest f links here ([slash] :: rest) =
    resolveFrom dest f links [] rest := by
  rw [resolveFrom, if_pos rfl]

theorem resolveFrom_dot : resolveFrom dest f links here (dotName :: rest) =
    resolveFrom dest f links here rest := by
  rw [resolveFrom, if_neg (by decide), if_pos rfl]

theorem resolveFrom_dotdot : resolveFrom dest f links here (dotdotName :: rest) =
    resolveFrom dest f links here.dropLast rest := by
  rw [resolveFrom, if_neg (by decide), if_neg (by decide), if_pos rfl]

theorem resolveFrom_error {e : CopyError} (hpart : Entered part)
    (h : dest.observe (here ++ [part]) = .error e) :
    resolveFrom dest f links here (part :: rest) = .error e := by
  rw [resolveFrom, if_neg hpart.not_slash, if_neg hpart.not_dot, if_neg hpart.not_dotdot, h]

theorem resolveFrom_missing (hpart : Entered part) (h : dest.observe (here ++ [part]) = .ok none) :
    resolveFrom dest f links here (part :: rest) =
      resolveFrom dest f links (here ++ [part]) rest := by
  rw [resolveFrom, if_neg hpart.not_slash, if_neg hpart.not_dot, if_neg hpart.not_dotdot, h]

theorem resolveFrom_directory (hpart : Entered part)
    (h : dest.observe (here ++ [part]) = .ok (some .directory)) :
    resolveFrom dest f links here (part :: rest) =
      resolveFrom dest f links (here ++ [part]) rest := by
  rw [resolveFrom, if_neg hpart.not_slash, if_neg hpart.not_dot, if_neg hpart.not_dotdot, h]

theorem resolveFrom_file (hpart : Entered part)
    (h : dest.observe (here ++ [part]) = .ok (some .file)) :
    resolveFrom dest f links here (part :: rest) =
      if rest ≠ [] then
        .error .traversesNonDirectory
      else
        resolveFrom dest f links (here ++ [part]) rest := by
  rw [resolveFrom, if_neg hpart.not_slash, if_neg hpart.not_dot, if_neg hpart.not_dotdot, h]

theorem resolveFrom_symlink {target : Bytes} (hpart : Entered part)
    (h : dest.observe (here ++ [part]) = .ok (some (.symlink target))) :
    resolveFrom dest f links here (part :: rest) =
      if f = true ∨ rest ≠ [] then
        if 40 < links + 1 then
          .error .tooManySymlinks
        else
          resolveFrom dest f (links + 1) here (targetParts target ++ rest)
      else resolveFrom dest f links (here ++ [part]) rest := by
  rw [resolveFrom, if_neg hpart.not_slash, if_neg hpart.not_dot, if_neg hpart.not_dotdot, h]

/-- **Lists that ask the same resolve the same.** -/
theorem resolveFrom_alike {a b : List Bytes} (h : Alike a b) :
    resolveFrom dest f links here a = resolveFrom dest f links here b := by
  -- on the links left, and for one number of them along the lists
  induction hleft : 41 - links using Nat.strong_induction_on generalizing links here a b with
  | _ left ihlinks =>
    induction h generalizing here with
    | nil => rfl
    | dotLeft _ _ ih => rw [resolveFrom_dot, ih]
    | dotRight _ _ ih => rw [resolveFrom_dot, ih]
    | @name part a b hab ih =>
      by_cases hslash : part = [slash]
      · rw [hslash, resolveFrom_slash, resolveFrom_slash, ih]
      by_cases hdot : part = dotName
      · rw [hdot, resolveFrom_dot, resolveFrom_dot, ih]
      by_cases hdotdot : part = dotdotName
      · rw [hdotdot, resolveFrom_dotdot, resolveFrom_dotdot, ih]
      have hpart : Entered part := ⟨hslash, hdot, hdotdot⟩
      cases hnode : dest.observe (here ++ [part]) with
      | error e => rw [resolveFrom_error hpart hnode, resolveFrom_error hpart hnode]
      | ok node =>
        cases node with
        | none => rw [resolveFrom_missing hpart hnode, resolveFrom_missing hpart hnode, ih]
        | some node =>
          cases node with
          | directory =>
            rw [resolveFrom_directory hpart hnode, resolveFrom_directory hpart hnode, ih]
          | file =>
            rw [resolveFrom_file hpart hnode, resolveFrom_file hpart hnode, ih]
            simp only [ne_eq, hab.eq_nil_iff]
          | symlink target =>
            rw [resolveFrom_symlink hpart hnode, resolveFrom_symlink hpart hnode, ih]
            simp only [ne_eq, hab.eq_nil_iff]
            split
            · split
              · rfl
              · exact ihlinks _ (by omega) (hab.append_left _) rfl
            · rfl

/-- A link's target is walked from the root if it is absolute. -/
theorem resolveFrom_target (target : Bytes) :
    resolveFrom dest f links here (targetParts target ++ rest) =
      resolveFrom dest f links (if isAbsolute target then [] else here)
        (posixParts target ++ rest) := by
  rw [← resolveFrom_alike (linkParts_alike target rest), linkParts, targetParts, pathIter]
  cases isAbsolute target with
  | true =>
    rw [if_pos rfl, if_pos rfl]
    exact resolveFrom_slash
  | false =>
    rw [if_neg Bool.false_ne_true, if_neg Bool.false_ne_true]
    rfl

end

/-! The walk the loop makes. -/

abbrev Walks (dest : Destination) : Posix.State Bytes → Posix.State Bytes → Prop :=
  Posix.Reaches names dest.walkTree

/-- The loop, begun where a walk is. -/
def resolveState (dest : Destination) (f : Bool) (s : Posix.State Bytes) :
    Except CopyError (List Bytes) :=
  resolveFrom dest f s.links s.here s.pending

theorem walkTree_some {path : List Bytes} {node : ImageNode} (h : dest.view path = some node) :
    dest.walkTree path = some node.toPosix := by
  rw [walkTree, h]

theorem walkTree_none {path : List Bytes} (h : dest.view path = none) :
    dest.walkTree path = some .directory := by
  rw [walkTree, h]

/-- A link in a place, where final links are not followed. -/
def EndsOnLink (dest : Destination) (f : Bool) (s : Posix.State Bytes) (p : List Bytes) : Prop :=
  f = false ∧ ∃ here name n, n ≤ 40 ∧ Walks dest s ⟨here, [name], n⟩ ∧ Entered name ∧
    Posix.IsDirectory dest.walkTree here ∧ p = here ++ [name]

/-- **One round of a run that ends well** is a step of the walk, or its end on a link. -/
theorem resolveState_step {f : Bool} {p : List Bytes} {s : Posix.State Bytes}
    (hplaced : Posix.Placed dest.walkTree s.here) (hdir : Posix.IsDirectory dest.walkTree s.here)
    (hpending : s.pending ≠ []) (hlinks : s.links ≤ 40) (hslash : [slash] ∉ s.pending)
    (h : resolveState dest f s = .ok p) :
    EndsOnLink dest f s p ∨ ∃ t, Posix.Step names dest.walkTree s t ∧ t.links ≤ 40 ∧
      (t.pending = [] ∨ Posix.IsDirectory dest.walkTree t.here) ∧ [slash] ∉ t.pending ∧
        resolveState dest f t = .ok p ∧
      Prod.Lex (· < ·) (· < ·) (41 - t.links, t.pending.length) (41 - s.links,
        s.pending.length) := by
  obtain ⟨here, pending, links⟩ := s
  obtain ⟨part, rest, rfl⟩ := List.exists_cons_of_ne_nil hpending
  rw [resolveState] at h
  obtain ⟨hpartslash, hrestslash⟩ := not_or.mp (fun hor => hslash (List.mem_cons.mpr hor))
  have hshorter : Prod.Lex (· < ·) (· < ·) (41 - links, rest.length) (41 - links,
      (part :: rest).length) :=
    Prod.Lex.right _ (Nat.lt_succ_self _)
  by_cases hdot : part = dotName
  · subst hdot
    rw [resolveFrom_dot] at h
    exact .inr ⟨_, .dot hdir, hlinks, .inr hdir, hrestslash, h, hshorter⟩
  by_cases hdotdot : part = dotdotName
  · subst hdotdot
    rw [resolveFrom_dotdot] at h
    exact .inr ⟨_, .parent hdir, hlinks, .inr hplaced.parent, hrestslash, h, hshorter⟩
  have hpart : Entered part := ⟨fun heq => hpartslash heq.symm, hdot, hdotdot⟩
  cases hobserve : dest.observe (here ++ [part]) with
  | error e =>
    rw [resolveFrom_error hpart hobserve] at h
    cases h
  | ok node =>
    have hview := observe_sound hobserve
    cases node with
    | none =>
      rw [resolveFrom_missing hpart hobserve] at h
      have hnode := walkTree_none hview.symm
      exact .inr ⟨_, .enter hdir hdot hdotdot hnode trivial, hlinks, .inr (.inr hnode), hrestslash,
        h, hshorter⟩
    | some node =>
      have hnode := walkTree_some hview.symm
      cases node with
      | directory =>
        rw [resolveFrom_directory hpart hobserve] at h
        exact .inr ⟨_, .enter hdir hdot hdotdot hnode trivial, hlinks, .inr (.inr hnode),
          hrestslash, h, hshorter⟩
      | file =>
        rw [resolveFrom_file hpart hobserve] at h
        split at h
        · cases h
        · rename_i hrest
          exact .inr ⟨_, .enter hdir hdot hdotdot hnode trivial, hlinks, .inl (not_not.mp hrest),
            hrestslash, h, hshorter⟩
      | symlink target =>
        rw [resolveFrom_symlink hpart hobserve] at h
        split at h
        · split at h
          · cases h
          · rename_i hcount
            rw [resolveFrom_target] at h
            have hless : 41 - (links + 1) < 41 - links := by
              have hcount : ¬ 40 < links + 1 := hcount
              omega
            refine .inr ⟨_, .follow hdir hdot hdotdot hnode, Nat.not_lt.mp hcount, ?_, ?_, h,
              Prod.Lex.left _ _ hless⟩
            · cases isAbsolute target with
              | true => exact .inr .nil
              | false => exact .inr hdir
            · rw [List.mem_append, not_or]
              exact ⟨fun hmem => (posixParts_unslashed target _ hmem).2 List.mem_cons_self,
                hrestslash⟩
        · rename_i hfinal
          obtain ⟨hf, hrest⟩ := not_or.mp hfinal
          obtain rfl : rest = [] := not_not.mp hrest
          rw [resolveFrom] at h
          cases h
          exact .inl ⟨Bool.not_eq_true _ ▸ hf, here, part, links, hlinks, .refl, hpart, hdir, rfl⟩

/-- **Soundness of the loop.** What it returns is where the walk ends, or a link in a
    place the walk comes to. -/
theorem resolveFrom_sound {f : Bool} {p : List Bytes} (s : Posix.State Bytes)
    (hplaced : Posix.Placed dest.walkTree s.here)
    (hdir : s.pending = [] ∨ Posix.IsDirectory dest.walkTree s.here) (hlinks : s.links ≤ 40)
    (hslash : [slash] ∉ s.pending) (h : resolveState dest f s = .ok p) :
    EndsOnLink dest f s p ∨ ∃ n, n ≤ 40 ∧ Walks dest s ⟨p, [], n⟩ := by
  by_cases hpending : s.pending = []
  · obtain ⟨here, pending, links⟩ := s
    obtain rfl : pending = [] := hpending
    rw [resolveState, resolveFrom] at h
    cases h
    exact .inr ⟨links, hlinks, .refl⟩
  · obtain hlink | ⟨u, hstep, hlinks', hdir', hslash', h', hless⟩ :=
      resolveState_step hplaced (hdir.resolve_left hpending) hpending hlinks hslash h
    · exact .inl hlink
    · obtain ⟨hf, here, name, n, hn, hwalk, hrest⟩ | ⟨n, hn, hwalk⟩ :=
        resolveFrom_sound u (hstep.placed hplaced) hdir' hlinks' hslash' h'
      · exact .inl ⟨hf, here, name, n, hn, .head hstep hwalk, hrest⟩
      · exact .inr ⟨n, hn, .head hstep hwalk⟩
termination_by (41 - s.links, s.pending.length)
decreasing_by exact hless

/-- **Completeness of the loop.** A walk of at most forty links is followed to its end,
    and what stands behind it is resolved from there. -/
theorem resolveFrom_reaches {f : Bool} {p rest : List Bytes} {n : Nat}
    (hrefused : ∀ q, dest.refused q = false) (hn : n ≤ 40) (hf : f = true ∨ rest ≠ [])
    (hp : rest = [] ∨ Posix.IsDirectory dest.walkTree p) {s : Posix.State Bytes}
    (hplaced : Posix.Placed dest.walkTree s.here) (hslash : [slash] ∉ s.pending)
    (h : Walks dest s ⟨p, [], n⟩) :
    resolveFrom dest f s.links s.here (s.pending ++ rest) = resolveFrom dest f n p rest := by
  induction h using Relation.ReflTransGen.head_induction_on with
  | refl => rfl
  | @head s t hstep hrest ih =>
    have hplaced' := hstep.placed hplaced
    have hobserve : ∀ part, Posix.IsDirectory dest.walkTree s.here →
        dest.observe (s.here ++ [part]) = .ok (dest.view (s.here ++ [part])) := by
      intro part hdir
      apply observe_complete (hrefused _)
      intro q hq hne
      obtain hq | hq := List.prefix_concat_iff.mp hq
      · exact absurd hq hne
      · by_cases hwhole : q = s.here
        · exact hwhole ▸ hdir
        · exact hplaced.inner q hq hwhole
    cases hstep with
    | dot _ =>
      have ih := ih hplaced' (fun hmem => hslash (List.mem_cons_of_mem _ hmem))
      exact resolveFrom_dot.trans ih
    | parent _ =>
      have ih := ih hplaced' (fun hmem => hslash (List.mem_cons_of_mem _ hmem))
      exact resolveFrom_dotdot.trans ih
    | @enter here pending links name node hdir hdot hdotdot hnode hsolid =>
      have ih := ih hplaced' (fun hmem => hslash (List.mem_cons_of_mem _ hmem))
      have hpart : Entered name := ⟨fun heq => hslash (by simp [heq]), hdot, hdotdot⟩
      have hobserve := hobserve name hdir
      cases hview : dest.view (here ++ [name]) with
      | none =>
        rw [hview] at hobserve
        exact (resolveFrom_missing hpart hobserve).trans ih
      | some found =>
        rw [hview] at hobserve
        rw [walkTree_some hview, Option.some.injEq] at hnode
        cases found with
        | directory => exact (resolveFrom_directory hpart hobserve).trans ih
        | symlink target =>
          rw [← hnode] at hsolid
          exact absurd hsolid id
        | file =>
          -- with names left, the walk would be stuck at the file
          have hnil : pending ++ rest = [] := by
            have hstuck : ¬ Posix.IsDirectory dest.walkTree (here ++ [name]) := by
              rw [isDirectory_walkTree, hview]
              simp
            obtain heq | ⟨u, hu, -⟩ := Relation.ReflTransGen.cases_head hrest
            · obtain ⟨rfl, rfl, -⟩ := Posix.State.mk.inj heq
              rw [hp.resolve_right hstuck]
              rfl
            · exact absurd hu.directory hstuck
          have hstay := @resolveFrom_file dest f links here (pending ++ rest) name hpart hobserve
          rw [if_neg (not_not.mpr hnil)] at hstay
          exact hstay.trans ih
    | @follow here pending target links name absolute hdir hdot hdotdot hlink =>
      have hpart : Entered name := ⟨fun heq => hslash (by simp [heq]), hdot, hdotdot⟩
      have hobserve := hobserve name hdir
      cases hview : dest.view (here ++ [name]) with
      | none =>
        rw [walkTree_none hview] at hlink
        cases hlink
      | some found =>
        rw [hview] at hobserve
        rw [walkTree_some hview, Option.some.injEq] at hlink
        cases found with
        | symlink bytes =>
          cases hlink
          have ih := ih hplaced' (by
            rw [List.mem_append, not_or]
            exact ⟨fun hmem => (posixParts_unslashed bytes _ hmem).2 List.mem_cons_self,
              fun hmem => hslash (List.mem_cons_of_mem _ hmem)⟩)
          have hcount : links + 1 ≤ n := Posix.Reaches.links_le hrest
          have hfollow : f = true ∨ pending ++ rest ≠ [] :=
            hf.imp_right fun hne hnil => hne (List.append_eq_nil_iff.mp hnil).2
          have hround := @resolveFrom_symlink dest f links here
            (pending ++ rest) name bytes hpart hobserve
          rw [if_pos hfollow, if_neg (by omega), resolveFrom_target, ← List.append_assoc] at hround
          exact hround.trans ih
        | _ => cases hlink

/-! The whole function. -/

/-- A walk enters names of what it was asked, and of links. -/
theorem walks_names {s t : Posix.State Bytes} (h : Walks dest s t)
    (hhere : ∀ name ∈ s.here, Unslashed name ∧ name ≠ dotName ∧ name ≠ dotdotName)
    (hpending : ∀ part ∈ s.pending, Unslashed part) :
    (∀ name ∈ t.here, Unslashed name ∧ name ≠ dotName ∧ name ≠ dotdotName) ∧
      ∀ part ∈ t.pending, Unslashed part := by
  induction h with
  | refl => exact ⟨hhere, hpending⟩
  | tail _ hstep ih =>
    obtain ⟨hhere, hpending⟩ := ih
    cases hstep with
    | dot _ => exact ⟨hhere, fun part hpart => hpending part (List.mem_cons_of_mem _ hpart)⟩
    | parent _ =>
      exact ⟨fun name hname => hhere name (List.mem_of_mem_dropLast hname), fun part hpart =>
        hpending part (List.mem_cons_of_mem _ hpart)⟩
    | enter _ hdot hdotdot _ _ =>
      refine ⟨?_, fun part hpart => hpending part (List.mem_cons_of_mem _ hpart)⟩
      intro name hname
      obtain hname | hname := List.mem_append.mp hname
      · exact hhere name hname
      · rw [List.mem_singleton.mp hname]
        exact ⟨hpending _ List.mem_cons_self, hdot, hdotdot⟩
    | @follow here _ target _ _ absolute _ _ _ hlink =>
      constructor
      · cases absolute with
        | true => exact fun name hname => absurd hname List.not_mem_nil
        | false => exact hhere
      · have htarget : ∀ part ∈ target, Unslashed part := by
          rw [walkTree] at hlink
          split at hlink
          · cases hlink
          · rename_i node _
            cases node with
            | symlink bytes =>
              cases hlink
              exact posixParts_unslashed bytes
            | _ => cases hlink
        intro part hpart
        obtain hpart | hpart := List.mem_append.mp hpart
        · exact htarget part hpart
        · exact hpending part (List.mem_cons_of_mem _ hpart)

theorem resolve_eq (dest : Destination) (path : Bytes) (f : Bool) :
    resolve dest path f = resolveState dest f ⟨[], pathParts path, 0⟩ := by
  rw [resolve, pathIter, resolveState]
  cases isAbsolute path with
  | true => exact resolveFrom_slash
  | false => rfl

/-- What a resolved path is. -/
structure Inside (dest : Destination) (followFinal : Bool) (p : List Bytes) : Prop where
  /-- It has names only: it is below the root. -/
  names : ∀ name ∈ p, Unslashed name ∧ name ≠ dotName ∧ name ≠ dotdotName
  /-- Above it there are directories, or nothing yet. -/
  above : ∀ q, q <+: p → q ≠ p → q = [] ∨ dest.view q = none ∨ dest.view q = some .directory
  /-- It is no link where final links are followed. -/
  final : followFinal = true → ∀ target, dest.view p ≠ some (.symlink target)
  /-- Under "mnt" it is the output's. -/
  output : ∀ output rest, dest.output = some output → p = mntName :: rest →
    dest.location p = (output, rest)
  /-- Everywhere else it is the root's. -/
  root : dest.output = none ∨ p.head? ≠ some mntName → dest.location p = (dest.root, p)

/-- **Destinations stay in the image.** What a destination resolves to is below the root
    with no link above it, nor at it where final links are followed. It is where a walk
    of the image ends that has the output's tree at "mnt", and a directory for what is
    missing, and every such walk of at most forty links is resolved to its end. -/
theorem resolve_inside (dest : Destination) (path : Bytes) (followFinal : Bool) :
    (∀ p, resolve dest path followFinal = .ok p → Inside dest followFinal p) ∧
      (∀ p, resolve dest path true = .ok p → ∃ n, n ≤ 40 ∧
        Walks dest ⟨[], pathParts path, 0⟩ ⟨p, [], n⟩) ∧
      ((∀ q, dest.refused q = false) →
        (∀ p n, n ≤ 40 → Walks dest ⟨[], pathParts path, 0⟩ ⟨p, [], n⟩ →
          resolve dest path true = .ok p) ∧
        ∀ front name p n, pathParts path = front ++ [name] → name ≠ dotName →
          name ≠ dotdotName → n ≤ 40 →
          Walks dest ⟨[], front, 0⟩ ⟨p, [], n⟩ → Posix.IsDirectory dest.walkTree p →
          resolve dest path false = .ok (p ++ [name])) := by
  have hslash : [slash] ∉ pathParts path :=
    fun hmem => (pathParts_unslashed path _ hmem).2 List.mem_cons_self
  have hstart : Posix.Placed dest.walkTree [] := Posix.Placed.nil
  have hsound : ∀ f p, resolve dest path f = .ok p →
      EndsOnLink dest f ⟨[], pathParts path, 0⟩ p ∨ ∃ n, n ≤ 40 ∧
          Walks dest ⟨[], pathParts path, 0⟩ ⟨p, [], n⟩ := by
    intro f p h
    rw [resolve_eq] at h
    exact resolveFrom_sound ⟨[], pathParts path, 0⟩ hstart (.inr .nil) (Nat.zero_le _) hslash h
  have hnames : ∀ t, Walks dest ⟨[], pathParts path, 0⟩ t →
      (∀ name ∈ t.here, Unslashed name ∧ name ≠ dotName ∧ name ≠ dotdotName) ∧
          ∀ part ∈ t.pending, Unslashed part :=
    fun t ht => walks_names ht (fun name hname => absurd hname List.not_mem_nil)
      (pathParts_unslashed path)
  refine ⟨?_, ?_, ?_⟩
  · intro p h
    have houtput : ∀ output rest, dest.output = some output → p = mntName :: rest →
        dest.location p = (output, rest) :=
      fun output rest hout heq => heq ▸ location_mnt hout rest
    obtain ⟨hf, here, name, n, -, hwalk, hname, hdir, rfl⟩ | ⟨n, -, hwalk⟩ := hsound followFinal p h
    · obtain ⟨hhere, hpending⟩ := hnames _ hwalk
      have hplaced := hwalk.placed hstart
      refine ⟨?_, ?_, fun hfollow => absurd (hf.symm.trans hfollow) Bool.false_ne_true, houtput,
        location_root⟩
      · intro part hpart
        obtain hpart | hpart := List.mem_append.mp hpart
        · exact hhere part hpart
        · rw [List.mem_singleton.mp hpart]
          exact ⟨hpending name List.mem_cons_self, hname.not_dot, hname.not_dotdot⟩
      · intro q hq hne
        obtain hq | hq := List.prefix_concat_iff.mp hq
        · exact absurd hq hne
        · rw [← isDirectory_walkTree]
          by_cases hwhole : q = here
          · exact hwhole ▸ hdir
          · exact hplaced.inner q hq hwhole
    · have hplaced : Posix.Placed dest.walkTree p := hwalk.placed hstart
      refine ⟨(hnames _ hwalk).1, ?_, ?_, houtput, location_root⟩
      · intro q hq hne
        exact isDirectory_walkTree.mp (hplaced.inner q hq hne)
      · intro _ target htarget
        obtain rfl | ⟨node, hnode, hsolid⟩ := hplaced.outer
        · rw [view, location_root (.inr (by simp))] at htarget
          cases htarget
        · rw [walkTree_some htarget, Option.some.injEq] at hnode
          rw [← hnode] at hsolid
          exact hsolid
  · intro p h
    obtain ⟨hf, -⟩ | hwalk := hsound true p h
    · cases hf
    · exact hwalk
  · intro hrefused
    constructor
    · intro p n hn hwalk
      have hrun := @resolveFrom_reaches dest true p [] n hrefused hn (.inl rfl)
        (.inl rfl) _ hstart hslash hwalk
      rw [List.append_nil] at hrun
      rw [resolve_eq, resolveState]
      exact hrun.trans (by rw [resolveFrom])
    · intro front name p n hparts hdot hdotdot hn hwalk hdir
      rw [hparts, List.mem_append, not_or] at hslash
      have hname : Entered name := ⟨fun heq => hslash.2 (by simp [heq]), hdot, hdotdot⟩
      have hrun := @resolveFrom_reaches dest false p [name] n hrefused hn
        (.inr (List.cons_ne_nil _ _)) (.inr hdir) _ hstart
        hslash.1 hwalk
      have hplaced : Posix.Placed dest.walkTree p := hwalk.placed hstart
      have hobserve : dest.observe (p ++ [name]) = .ok (dest.view (p ++ [name])) := by
        apply observe_complete (hrefused _)
        intro q hq hne
        obtain hq | hq := List.prefix_concat_iff.mp hq
        · exact absurd hq hne
        · by_cases hwhole : q = p
          · exact hwhole ▸ hdir
          · exact hplaced.inner q hq hwhole
      have hlast : resolveFrom dest false n p [name] = .ok (p ++ [name]) := by
        have hend : resolveFrom dest false n (p ++ [name]) [] = .ok (p ++ [name]) := by
          rw [resolveFrom]
        cases hview : dest.view (p ++ [name]) with
        | none => exact (resolveFrom_missing hname (hview ▸ hobserve)).trans hend
        | some node =>
          cases node with
          | directory => exact (resolveFrom_directory hname (hview ▸ hobserve)).trans hend
          | file => rw [resolveFrom_file hname (hview ▸ hobserve), if_neg (not_not.mpr rfl), hend]
          | symlink target =>
            rw [resolveFrom_symlink hname (hview ▸ hobserve), if_neg (by simp), hend]
      rw [resolve_eq, resolveState, hparts]
      exact hrun.trans hlast

/-- A tool's image with a link to the output and a directory for it, and an empty output. -/
def bootstrapExport : Destination where
  root :=
    { node := fun path =>
        if path = [[101]] then
          some (.symlink [slash, 109, 110, 116])
        else if path = [mntName] then
          some .directory
        else
          none
      parents := by
        intro path name h
        left
        by_contra hne
        have hlong : ∀ one : Bytes, path ++ [name] ≠ [one] := by
          intro one heq
          apply hne
          simpa using congrArg List.length heq
        rw [if_neg (hlong _), if_neg (hlong _)] at h
        exact h rfl }
  output := some ⟨fun _ => none, fun _ _ h => absurd rfl h⟩
  refused := fun _ => false

theorem bootstrapExport_inside : Inside bootstrapExport true [mntName, [102]] := by
  have hresolved : resolve bootstrapExport [slash, 101, slash, 102] true =
      .ok [mntName, [102]] := by
    have hexport : Entered [101] := ⟨by decide, by decide, by decide⟩
    have hmnt : Entered mntName := ⟨by decide, by decide, by decide⟩
    have hforward : Entered [102] := ⟨by decide, by decide, by decide⟩
    show resolveFrom bootstrapExport true 0 [] [[slash], [101], [102]] = _
    have hlink : bootstrapExport.observe ([] ++ [[101]]) =
      .ok (some (.symlink [slash, 109, 110, 116])) := rfl
    rw [resolveFrom_slash, resolveFrom_symlink hexport hlink, if_pos (.inl rfl), if_neg (by decide)]
    show resolveFrom bootstrapExport true 1 [] [[slash], mntName, [102]] = _
    rw [resolveFrom_slash, resolveFrom_directory hmnt rfl, resolveFrom_missing hforward rfl,
      resolveFrom]
    rfl
  exact (resolve_inside bootstrapExport [slash, 101, slash, 102] true).1 _ hresolved

end Destination

end Conglobate.Copy
