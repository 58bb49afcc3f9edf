import Conglobate.Copy.Overlay
import Conglobate.Lib.Flow

/- Putting things below a directory.

   A tree is put below a directory entry by entry, each path resolved again in the trees as
   they are by then. Below a directory that is there, a path resolves to itself:
   directories come before what is in them, and what has become a directory stays one. So
   each is put where it belongs.

   What is proved:
     1. `resolve_below` — what a path below directories resolves to;
     2. `putBelow_total`, `Written.put_below` — when one entry can be put, and what it adds;
     3. `run_total`, `Written.run` — the same of a tree: it can be put exactly when each of
        its entries fits the trees before, whatever the order. -/
namespace Conglobate.Copy

/-- What is to be put: a leaf may be one that cannot be read. -/
inductive Item where
  | directory
  | leaf (o : Option Object)
  deriving DecidableEq

/-- A leaf is no directory. -/
def Item.Solid (x : Item) : Prop := ∀ o, x = .leaf (some o) → o.content ≠ .directory

def putLeaf (v : Volume) (path : List Bytes) (o : Option Object) : Except WriteError Volume :=
  match path.getLast? with
  | none => .error .io
  | some name => do
    let found ← v.observe path
    if found = some .directory then
      .error .io
    else
      v.replace path.dropLast name (o.elim (.error .io) .ok)

/-- A directory that is there is given root's metadata, if these are to be `reset`. -/
def putItem (reset : Bool) (v : Volume) (path : List Bytes) : Item → Except WriteError Volume
  | .directory =>
    (fun u : Volume => if reset then u.fileMetadata (u.spot path) 0o755 else u) <$> v.directory path
  | .leaf o => putLeaf v path o

def putBelow (reset : Bool) (target : List Bytes) (v : Volume) (e : EntryPath × Item) :
    Except WriteError Volume := do
  let path ← (v.destination.resolveFrom false 0 [] (target ++ e.1)).mapError WriteError.resolution
  putItem reset v path e.2

/-- The paths above a path. -/
def Above (path q : List Bytes) : Prop := q ≠ [] ∧ q <+: path ∧ q ≠ path

/-- The directories that putting this makes. -/
def MadeFor (path : List Bytes) (x : Item) (q : List Bytes) :
    Prop := Above path q ∨ x = .directory ∧ q = path

def putOf (reset : Bool) : Item → Option Put
  | .directory => if reset then some .directory else none
  | .leaf o => o.map .leaf

def putsOf (reset : Bool) (target : List Bytes) (l : List (EntryPath × Item)) : Puts :=
  l.filterMap fun e => (putOf reset e.2).map fun x => (target ++ e.1, x)

/-- The entries with their directories before them, each once. -/
structure Ordered (l : List (EntryPath × Item)) : Prop where
  nodup : (l.map Prod.fst).Nodup
  proper : ∀ e ∈ l, e.1 ≠ []
  above : ∀ front e back, l = front ++ e :: back → ∀ q, Above e.1 q → (q, .directory) ∈ front

namespace Volume

variable {v : Volume}

/-! What is observed. -/

theorem view_destination (path : List Bytes) :
    v.destination.view path = (v.atPath path).map fun o => o.content.node := by
  have htop : ∀ side, (v.found ⟨side, []⟩).map (fun o => o.content.node) = some .directory := by
    intro side
    obtain ⟨i, hi, hdir⟩ := v.roots side
    rw [found, hi, Option.map_some, Option.map_some, hdir]
    rfl
  have hroot : ∀ side rest, (if rest = [] then some ImageNode.directory
      else (v.tree side).node rest) =
      (v.found ⟨side, rest⟩).map fun o => o.content.node := by
    intro side rest
    by_cases hrest : rest = []
    · rw [if_pos hrest, hrest, htop side]
    · rw [if_neg hrest]
      rfl
  rw [atPath]
  by_cases hmnt : v.bootstrap = true ∧ path.head? = some mntName
  · obtain ⟨rest, rfl⟩ : ∃ rest, path = mntName :: rest :=
      ⟨path.tail, List.eq_cons_of_mem_head? hmnt.2⟩
    have hout : v.destination.output = some (v.tree .output) := if_pos hmnt.1
    rw [spot_mnt hmnt.1, Destination.view, Destination.location_mnt hout]
    exact hroot .output rest
  · have hlocation : v.destination.output = none ∨ path.head? ≠ some mntName := by
      by_cases hboot : v.bootstrap = true
      · exact .inr fun hhead => hmnt ⟨hboot, hhead⟩
      · exact .inl (if_neg hboot)
    rw [spot_root hmnt, Destination.view, Destination.location_root hlocation]
    exact hroot .root path

theorem view_eq_directory {path : List Bytes} :
    v.destination.view path = some .directory ↔ v.isDirectory (v.spot path) = true := by
  rw [view_destination, atPath, isDirectory]
  cases v.found (v.spot path) with
  | none => simp
  | some o => cases hcontent : o.content <;> simp [Content.node, hcontent]

theorem observe_eq_ok {path : List Bytes} {node : Option ImageNode}
    (h : v.observe path = .ok node) :
    node = v.destination.view path :=
  Destination.observe_sound (except_mapError_eq_ok.mp h)

theorem observe_not_directory {path : List Bytes} {node : Option ImageNode}
    (h : v.observe path = .ok node) (hnode : node ≠ some .directory) :
    v.isDirectory (v.spot path) = false := by
  rw [← Bool.not_eq_true, ← view_eq_directory, ← observe_eq_ok h]
  exact hnode

theorem observe_directory {path : List Bytes} (h : v.observe path = .ok (some .directory)) :
    v.isDirectory (v.spot path) = true := by
  rw [← view_eq_directory, ← observe_eq_ok h]

/-- The output's tree is no leaf's place. -/
theorem not_mnt {path : List Bytes} (h : v.isDirectory (v.spot path) = false) :
    ¬ (v.bootstrap = true ∧ path = [mntName]) := by
  intro hmnt
  rw [hmnt.2, spot_mnt hmnt.1, v.isDirectory_top .output] at h
  cases h

/-! Resolving below a directory. -/

/-- What is resolved has names that are entered. -/
theorem resolve_entered {dest : Destination} {f : Bool} {links : Nat} {here pending p : List Bytes}
    (hhere : ∀ name ∈ here, Destination.Entered name)
    (h : dest.resolveFrom f links here pending = .ok p) :
    ∀ name ∈ p, Destination.Entered name := by
  have hsnoc : ∀ {here : List Bytes} {part : Bytes}, (∀ name ∈ here, Destination.Entered name) →
      part ≠ [slash] →
      part ≠ dotName → part ≠ dotdotName → ∀ name ∈ here ++ [part], Destination.Entered name := by
    intro here part hhere hslash hdot hdotdot name hname
    obtain hname | hname := List.mem_append.mp hname
    · exact hhere name hname
    · rw [List.mem_singleton.mp hname]
      exact ⟨hslash, hdot, hdotdot⟩
  fun_induction Destination.resolveFrom dest f links here pending with
  | case1 links here =>
    cases h
    exact hhere
  | case2 links here pending ih => exact ih (fun name hname => absurd hname List.not_mem_nil) h
  | case3 links here pending _ ih => exact ih hhere h
  | case4 links here pending _ _ ih =>
    exact ih (fun name hname => hhere name (List.mem_of_mem_dropLast hname)) h
  | case5 => cases h
  | case6 links here part pending hslash hdot hdotdot _ ih =>
    exact ih (hsnoc hhere hslash hdot hdotdot) h
  | case7 => cases h
  | case8 links here part pending _ _ _ target _ _ _ ih => exact ih hhere h
  | case9 links here part pending hslash hdot hdotdot target _ _ ih =>
    exact ih (hsnoc hhere hslash hdot hdotdot) h
  | case10 => cases h
  | case11 links here part pending hslash hdot hdotdot _ _ ih =>
    exact ih (hsnoc hhere hslash hdot hdotdot) h
  | case12 links here part pending hslash hdot hdotdot _ ih =>
    exact ih (hsnoc hhere hslash hdot hdotdot) h

/-- The kernel looks all of this way up. -/
def Unrefused (v : Volume) (here names : List Bytes) :
    Prop := ∀ front, front ≠ [] → front <+: names → v.refused (here ++ front) = false

/-- **Below directories a path resolves to itself**, if the kernel looks it up. -/
theorem resolve_below {links : Nat} {here names p : List Bytes}
    (hentered : ∀ name ∈ names, Destination.Entered name)
    (hdirs : ∀ front, front <+: names → front ≠ names →
    v.isDirectory (v.spot (here ++ front)) = true) :
    v.destination.resolveFrom false links here names = .ok p ↔ p = here ++ names ∧
      v.Unrefused here names := by
  induction names generalizing here with
  | nil =>
    rw [Destination.resolveFrom, Except.ok.injEq, List.append_nil, eq_comm]
    exact (and_iff_left fun front hne hfront => absurd (List.prefix_nil.mp hfront) hne).symm
  | cons name rest ih =>
    have hname := hentered name List.mem_cons_self
    have hunrefused : v.Unrefused here (name :: rest) ↔ v.refused (here ++ [name]) = false ∧
        v.Unrefused (here ++ [name]) rest := by
      constructor
      · intro h
        refine ⟨h [name] (List.cons_ne_nil _ _) (List.prefix_append [name] rest),
          fun front _ hfront => ?_⟩
        rw [List.append_assoc]
        exact h (name :: front) (List.cons_ne_nil _ _) ((List.prefix_cons_inj name).mpr hfront)
      · intro h front hne hfront
        obtain ⟨first, front, rfl⟩ := List.exists_cons_of_ne_nil hne
        obtain ⟨rfl, hrest⟩ := List.cons_prefix_cons.mp hfront
        by_cases hnil : front = []
        · rw [hnil]
          exact h.1
        · have hdeep := h.2 front hnil hrest
          rwa [List.append_assoc] at hdeep
    have hnext := @ih (here ++ [name]) (fun part hpart => hentered part
        (List.mem_cons_of_mem _ hpart)) (fun front hfront hne => by
      rw [List.append_assoc]
      exact hdirs (name :: front) ((List.prefix_cons_inj name).mpr hfront) fun heq => hne
        (List.cons.inj heq).2)
    rw [List.append_assoc] at hnext
    rw [hunrefused]
    cases hrefused : v.refused (here ++ [name]) with
    | true =>
      have hobserve : v.destination.observe (here ++ [name]) = .error .io := if_pos hrefused
      rw [Destination.resolveFrom_error hname hobserve]
      exact iff_of_false (fun h => by cases h) (fun h => Bool.false_ne_true h.2.1.symm)
    | false =>
      have hhere : v.isDirectory (v.spot here) = true := by
        have hdir := hdirs [] List.nil_prefix (List.cons_ne_nil _ _).symm
        rwa [List.append_nil] at hdir
      have hobserve : v.destination.observe (here ++ [name]) =
          .ok (v.destination.view (here ++ [name])) := by
        apply Destination.observe_complete hrefused
        intro q hq hne
        obtain hq | hq := List.prefix_concat_iff.mp hq
        · exact absurd hq hne
        · obtain ⟨rest', rfl⟩ := hq
          exact Destination.isDirectory_walkTree.mpr
            (.inr (.inr (view_eq_directory.mpr (isDirectory_front hhere))))
      rw [and_iff_right rfl]
      refine Iff.trans ?_ hnext
      -- with names left it is a directory; a link at the end is not followed
      have hlast : rest ≠ [] → v.destination.view (here ++ [name]) = some .directory := by
        intro hne
        apply view_eq_directory.mpr
        exact hdirs [name] (List.prefix_append [name] rest) fun heq => hne
          (List.cons.inj heq).2.symm
      cases hview : v.destination.view (here ++ [name]) with
      | none => rw [Destination.resolveFrom_missing hname (hview ▸ hobserve)]
      | some node =>
        cases node with
        | directory => rw [Destination.resolveFrom_directory hname (hview ▸ hobserve)]
        | file =>
          have hrest : rest = [] := by_contra fun hne => by
            rw [hlast hne] at hview
            cases hview
          rw [Destination.resolveFrom_file hname (hview ▸ hobserve), if_neg (not_not.mpr hrest)]
        | symlink target =>
          have hrest : rest = [] := by_contra fun hne => by
            rw [hlast hne] at hview
            cases hview
          rw [Destination.resolveFrom_symlink hname (hview ▸ hobserve), if_neg (by simp [hrest])]

/-! One entry. -/

section
variable {b : Volume} {made : List Bytes → Prop} {written : Puts} {v' : Volume} {reset : Bool}

theorem mem_fronts_dropLast {path q : List Bytes} (hpath : path ≠ []) :
    q ∈ fronts [] path.dropLast ↔ Above path q := by
  obtain ⟨name, hname⟩ : ∃ name, path = path.dropLast ++ [name] :=
    ⟨path.getLast hpath, (List.dropLast_append_getLast hpath).symm⟩
  rw [mem_fronts_nil, Above]
  refine and_congr_right fun _ => ?_
  generalize path.dropLast = front at hname
  subst hname
  rw [List.prefix_concat_iff]
  constructor
  · intro h
    refine ⟨.inr h, fun heq => ?_⟩
    have hlength := h.length_le
    rw [heq, List.length_append, List.length_singleton] at hlength
    exact absurd hlength (Nat.not_succ_le_self _)
  · intro h
    exact h.1.resolve_left h.2

/-- **One leaf** is put in place of what is no directory. -/
theorem Written.put_leaf (h : Written b made written v) {path : List Bytes} {o : Option Object}
    (hsolid : (Item.leaf o).Solid) (hrun : putLeaf v path o = .ok v') :
    ∃ o', o = some o' ∧ Written b (fun q => made q ∨ Above path q)
      (written ++ [(path, .leaf o')]) v' := by
  rw [putLeaf] at hrun
  cases hlast : path.getLast? with
  | none =>
    rw [hlast] at hrun
    cases hrun
  | some name =>
    rw [hlast] at hrun
    obtain ⟨node, hobserve, hrun⟩ := except_bind_eq_ok.mp hrun
    split at hrun
    · cases hrun
    rename_i hnode
    have hne : path ≠ [] := by
      intro hnil
      rw [hnil] at hlast
      cases hlast
    have hpath : path.dropLast ++ [name] = path := List.dropLast_append_getLast? name hlast
    have hmnt : ¬ (b.bootstrap = true ∧ path.dropLast ++ [name] = [mntName]) := by
      rw [hpath, ← h.bootstrap]
      exact not_mnt (observe_not_directory hobserve hnode)
    have hobject : ∀ o', (o.elim (.error .io) .ok : Except WriteError Object) = .ok o' →
        o = some o' := by
      intro o' ho
      cases o with
      | none => cases ho
      | some _ => rw [Except.ok.inj ho]
    obtain ⟨o', ho, hwritten⟩ :=
      h.replace hmnt (fun o' ho => hsolid o' (congrArg Item.leaf (hobject o' ho))) hrun
    rw [hpath] at hwritten
    exact ⟨o', hobject o' ho, hwritten.congr fun q _ => or_congr_right (mem_fronts_dropLast hne)⟩

/-- **One item**. -/
theorem Written.put_item (h : Written b made written v) {path : List Bytes} (hpath : path ≠ [])
    {x : Item} (hsolid : x.Solid) (hrun : putItem reset v path x = .ok v') :
    Written b (fun q => made q ∨ MadeFor path x q)
      (written ++ (putOf reset x).toList.map fun x => (path, x)) v' ∧
      (x = .directory → v'.isDirectory (b.spot path) = true) ∧ x ≠ .leaf none := by
  cases x with
  | leaf o =>
    obtain ⟨o', rfl, hwritten⟩ := h.put_leaf hsolid hrun
    refine ⟨hwritten.congr fun q _ => or_congr_right ?_, Item.noConfusion, fun heq => ?_⟩
    · exact (or_iff_left fun hdir => Item.noConfusion hdir.1).symm
    · cases heq
  | directory =>
    obtain ⟨u, hopen, rfl⟩ := except_map_eq_ok.mp hrun
    obtain ⟨hopened, hdir⟩ := h.directory_opened hopen
    have hmade : ∀ q, q ∈ fronts [] path ↔ MadeFor path .directory q := by
      intro q
      rw [mem_fronts_nil, MadeFor, Above]
      by_cases heq : q = path
      · subst heq
        exact iff_of_true ⟨hpath, List.prefix_refl q⟩ (.inr ⟨rfl, rfl⟩)
      · rw [or_iff_left fun hdir => heq hdir.2, and_iff_left heq]
    have hopened := hopened.congr fun q _ => or_congr_right (hmade q)
    cases reset with
    | false =>
      rw [if_neg Bool.false_ne_true]
      refine ⟨?_, fun _ => hdir, Item.noConfusion⟩
      rwa [putOf, if_neg Bool.false_ne_true, Option.toList_none, List.map_nil, List.append_nil]
    | true =>
      rw [if_pos rfl, spot_congr hopened.bootstrap]
      refine ⟨hopened.set (.inr ((hmade path).mp (mem_fronts_nil.mpr
        ⟨hpath, List.prefix_refl _⟩))) hdir, fun _ => ?_,
        Item.noConfusion⟩
      rw [fileMetadata_isDirectory, hdir]

/-- It can be put here. -/
def Fits (v : Volume) (target : List Bytes) (e : EntryPath × Item) : Prop :=
  v.Unrefused [] (target ++ e.1) ∧
    (e.2 = .directory → v.inode (v.spot (target ++ e.1)) = none ∨
      v.isDirectory (v.spot (target ++ e.1)) = true) ∧
    ∀ o, e.2 = .leaf o → v.isDirectory (v.spot (target ++ e.1)) = false ∧ o ≠ none

/-- Where nothing was made or put, what fits is the same. -/
theorem Written.fits (h : Written v made written v') {target : List Bytes} {e : EntryPath × Item}
    (hmade : ¬ made (target ++ e.1)) (hlast : lastAt written (target ++ e.1) = none) :
    Fits v' target e ↔ Fits v target e := by
  have hinode := h.untouched hmade hlast
  have hdirectory : v'.isDirectory (v.spot (target ++ e.1)) =
      v.isDirectory (v.spot (target ++ e.1)) := by
    rw [Bool.eq_iff_iff, isDirectory_iff, isDirectory_iff, hinode]
    constructor
    · intro hdir
      obtain ⟨i, hi, hcontent⟩ := hdir
      exact ⟨i, hi, (h.content (v.known _ _ hi)).symm.trans hcontent⟩
    · intro hdir
      obtain ⟨i, hi, hcontent⟩ := hdir
      exact ⟨i, hi, (h.content (v.known _ _ hi)).trans hcontent⟩
  rw [Fits, Fits, spot_congr h.bootstrap, hinode, hdirectory, Unrefused, Unrefused, h.refused]

/-- There are directories above the path. -/
def Below (v : Volume) (path : List Bytes) : Prop :=
  path ≠ [] ∧ (∀ name ∈ path, Destination.Entered name) ∧
    ∀ front, front <+: path → front ≠ path → v.isDirectory (v.spot front) = true

theorem Below.clear {path : List Bytes} (h : Below v path) : Clear v path.dropLast := by
  intro q hne hq
  obtain ⟨name, hname⟩ : ∃ name, path = path.dropLast ++ [name] :=
    ⟨path.getLast h.1, (List.dropLast_append_getLast h.1).symm⟩
  have habove := (mem_fronts_dropLast h.1).mp (mem_fronts_nil.mpr ⟨hne, hq⟩)
  exact .inr (h.2.2 q habove.2.1 habove.2.2)

theorem Below.resolve {path p : List Bytes} (h : Below v path) :
    v.destination.resolveFrom false 0 [] path = .ok p ↔ p = path ∧ v.Unrefused [] path :=
  resolve_below h.2.1 h.2.2

/-- What is below directories is observed. -/
theorem Below.observe {path : List Bytes} (h : Below v path) (hunrefused : v.Unrefused [] path) :
    v.observe path = .ok (v.destination.view path) := by
  have hobserve : v.destination.observe path = .ok (v.destination.view path) := by
    apply Destination.observe_complete (hunrefused path h.1 (List.prefix_refl path))
    intro q hq hne
    exact Destination.isDirectory_walkTree.mpr (.inr
      (.inr (view_eq_directory.mpr (h.2.2 q hq hne))))
  rw [Volume.observe, hobserve]
  rfl

/-- **One entry below directories.** -/
theorem Written.put_below (h : Written b made written v) {target : List Bytes}
    {e : EntryPath × Item} (hbelow : Below v (target ++ e.1)) (hsolid : e.2.Solid)
    (hrun : putBelow reset target v e = .ok v') :
    Written b (fun q => made q ∨ MadeFor (target ++ e.1) e.2 q)
      (written ++ putsOf reset target [e]) v' ∧
      (e.2 = .directory → v'.isDirectory (b.spot (target ++ e.1)) = true) ∧ e.2 ≠ .leaf none := by
  obtain ⟨path, hresolve, hrun⟩ := except_bind_eq_ok.mp hrun
  obtain ⟨rfl, -⟩ := hbelow.resolve.mp (except_mapError_eq_ok.mp hresolve)
  have hputs : putsOf reset target [e] = (putOf reset e.2).toList.map fun x =>
      (target ++ e.1, x) := by
    rw [putsOf, List.filterMap_cons, List.filterMap_nil]
    cases putOf reset e.2 with
    | none => rfl
    | some x => rfl
  rw [hputs]
  exact h.put_item hbelow.1 hsolid hrun

/-- **An entry below directories can be put** exactly where it fits. -/
theorem putBelow_total {target : List Bytes} {e : EntryPath × Item}
    (hbelow : Below v (target ++ e.1)) (hsolid : e.2.Solid) :
    (∃ v', putBelow reset target v e = .ok v') ↔ Fits v target e := by
  obtain ⟨r, x⟩ := e
  constructor
  · intro h
    obtain ⟨v', hrun⟩ := h
    obtain ⟨path, hresolve, hrun⟩ := except_bind_eq_ok.mp hrun
    obtain ⟨rfl, hunrefused⟩ := hbelow.resolve.mp (except_mapError_eq_ok.mp hresolve)
    refine ⟨hunrefused, fun hdirectory => ?_, fun o ho => ?_⟩
    · obtain rfl : x = .directory := hdirectory
      obtain ⟨u, hopen, -⟩ := except_map_eq_ok.mp hrun
      exact directory_total.mp ⟨u, hopen⟩ _ hbelow.1 (List.prefix_refl _)
    · obtain rfl : x = .leaf o := ho
      obtain ⟨o', rfl, hwritten⟩ := (Written.refl v).put_leaf hsolid hrun
      refine ⟨(hwritten.leaf (target ++ r) o' ?_).1, Option.some_ne_none o'⟩
      rw [lastAt_snoc, if_pos rfl]
  · intro h
    obtain ⟨hunrefused, hdirectory, hleaf⟩ := h
    have hput : ∃ v', putItem reset v (target ++ r) x = .ok v' := by
      cases x with
      | directory =>
        have hclear : Clear v (target ++ r) := by
          intro q hne hq
          by_cases heq : q = target ++ r
          · exact heq ▸ hdirectory rfl
          · exact .inr (hbelow.2.2 q hq heq)
        obtain ⟨u, hopen⟩ := directory_total.mpr hclear
        exact ⟨_, except_map_eq_ok.mpr ⟨u, hopen, rfl⟩⟩
      | leaf o =>
        obtain ⟨hfile, hsome⟩ := hleaf o rfl
        obtain ⟨o', rfl⟩ := Option.ne_none_iff_exists'.mp hsome
        have hobserve := hbelow.observe hunrefused
        have hnode : v.destination.view (target ++ r) ≠ some .directory := by
          rw [Ne, view_eq_directory, hfile]
          exact Bool.false_ne_true
        have hclear := hbelow.clear
        have hmnt := not_mnt hfile
        obtain ⟨name, hname⟩ : ∃ name, (target ++ r).getLast? = some name :=
          ⟨_, List.getLast?_eq_some_getLast hbelow.1⟩
        have hpath : (target ++ r).dropLast ++ [name] = target ++ r :=
          List.dropLast_append_getLast? name hname
        rw [← hpath] at hmnt hfile
        obtain ⟨v', hreplace⟩ := @replace_total _ _ name o' hmnt hclear hfile
        refine ⟨v', ?_⟩
        show putLeaf v (target ++ r) (some o') = .ok v'
        rw [putLeaf, hname]
        dsimp only
        rw [hobserve, except_ok_bind, if_neg hnode]
        exact hreplace
    obtain ⟨v', hput⟩ := hput
    refine ⟨v', ?_⟩
    rw [putBelow, hbelow.resolve.mpr ⟨rfl, hunrefused⟩]
    exact hput

/-! A tree. -/

theorem putsOf_append (target : List Bytes) (l l' : List (EntryPath × Item)) :
    putsOf reset target (l ++ l') = putsOf reset target l ++ putsOf reset target l' :=
      List.filterMap_append

/-- What putting these entries makes. -/
def MadeAll (target : List Bytes) (l : List (EntryPath × Item)) (q : List Bytes) :
    Prop := ∃ e ∈ l, MadeFor (target ++ e.1) e.2 q

theorem madeAll_snoc {target q : List Bytes} {l : List (EntryPath × Item)} {e : EntryPath × Item} :
    MadeAll target (l ++ [e]) q ↔ MadeAll target l q ∨ MadeFor (target ++ e.1) e.2 q := by
  simp only [MadeAll, List.mem_append, List.mem_singleton, or_and_right, exists_or, exists_eq_left]

/-- Where putting a tree stands: these entries are put. -/
structure Standing (b : Volume) (made : List Bytes → Prop) (written : Puts) (reset : Bool)
    (target : List Bytes) (done : List (EntryPath × Item)) (u : Volume) : Prop where
  written : Written b (fun q => made q ∨ MadeAll target done q)
    (written ++ putsOf reset target done) u
  opened : u.isDirectory (b.spot target) = true
  directories : ∀ r, (r, .directory) ∈ done → u.isDirectory (b.spot (target ++ r)) = true
  readable : ∀ e ∈ done, e.2 ≠ .leaf none

theorem Standing.nil (h : Written b made written v) {target : List Bytes}
    (htarget : v.isDirectory (b.spot target) = true) :
    Standing b made written reset target [] v where
  written := by
    rw [putsOf, List.filterMap_nil, List.append_nil]
    refine h.congr fun q _ => (or_iff_left ?_).symm
    intro hmade
    obtain ⟨e, he, -⟩ := hmade
    exact List.not_mem_nil he
  opened := htarget
  directories r hr := absurd hr List.not_mem_nil
  readable e he := absurd he List.not_mem_nil

/-- What a tree is put with: names that are entered, and leaves. -/
structure Proper (target : List Bytes) (l : List (EntryPath × Item)) : Prop extends Ordered l where
  entered : ∀ e ∈ l, ∀ name ∈ target ++ e.1, Destination.Entered name
  solid : ∀ e ∈ l, e.2.Solid

section
variable {target : List Bytes} {l front back : List (EntryPath × Item)} {e : EntryPath × Item}
    {u : Volume}

/-- The next entry is below directories. -/
theorem Standing.below (hl : Proper target l) (hsplit : l = front ++ e :: back)
    (h : Standing b made written reset target front u) :
    Below u (target ++ e.1) := by
  have he : e ∈ l := by rw [hsplit]; exact List.mem_append_right _ List.mem_cons_self
  refine ⟨List.append_ne_nil_of_right_ne_nil target (hl.proper e he), hl.entered e he,
    fun q hq hne => ?_⟩
  rw [spot_congr h.written.bootstrap]
  obtain hq | ⟨r, rfl⟩ := List.prefix_or_prefix_of_prefix hq (List.prefix_append target e.1)
  · -- above the target
    obtain ⟨rest, rfl⟩ := hq
    have htarget := h.opened
    rw [← spot_congr h.written.bootstrap] at htarget ⊢
    exact isDirectory_front htarget
  · by_cases hnil : r = []
    · rw [hnil, List.append_nil]
      exact h.opened
    · apply h.directories
      apply hl.above front e back hsplit
      exact ⟨hnil, (List.prefix_append_right_inj target).mp hq, fun heq => hne (by rw [heq])⟩

/-- **One entry of a tree.** -/
theorem Standing.next (hl : Proper target l) (hsplit : l = front ++ e :: back)
    (h : Standing b made written reset target front u) (hrun : putBelow reset target u e = .ok v') :
    Standing b made written reset target (front ++ [e]) v' := by
  have he : e ∈ l := by rw [hsplit]; exact List.mem_append_right _ List.mem_cons_self
  have hbelow := h.below hl hsplit
  obtain ⟨hwritten, hdirectory, hreadable⟩ := h.written.put_below hbelow (hl.solid e he) hrun
  have hstay : ∀ k, u.isDirectory k = true → v'.isDirectory k = true := by
    intro k hk
    exact ((Written.refl u).put_below hbelow (hl.solid e he) hrun).1.isDirectory hk
  exact
    { written := by
        rw [putsOf_append, ← List.append_assoc]
        refine hwritten.congr fun q _ => ?_
        rw [madeAll_snoc, or_assoc]
      opened := hstay _ h.opened
      directories := fun r hr => by
        obtain hr | hr := List.mem_append.mp hr
        · exact hstay _ (h.directories r hr)
        · rw [← List.mem_singleton.mp hr] at hdirectory
          exact hdirectory rfl
      readable := fun e' he' => by
        obtain he' | he' := List.mem_append.mp he'
        · exact h.readable e' he'
        · rw [List.mem_singleton.mp he']
          exact hreadable }

/-- **A tree that is put.** -/
theorem Written.run (h : Written b made written v) (hl : Proper target l)
    (htarget : v.isDirectory (b.spot target) = true)
    (hrun : l.foldlM (putBelow reset target) v = .ok v') :
    Standing b made written reset target l v' :=
  Flow.foldlM_partial (Standing b made written reset target) (.nil h htarget)
    (fun _ _ _ _ _ hsplit hstanding hstep => hstanding.next hl hsplit hstep) hrun

/-- The next entry's place is as it was. -/
theorem Standing.untouched (hl : Proper target l) (hsplit : l = front ++ e :: back)
    (h : Standing v (fun _ => False) [] reset target front u) :
    Fits u target e ↔ Fits v target e := by
  have he : e ∈ l := by rw [hsplit]; exact List.mem_append_right _ List.mem_cons_self
  have hnodup := hl.nodup
  rw [hsplit, List.map_append, List.map_cons, List.nodup_append] at hnodup
  have hfresh : ∀ e' ∈ front, e'.1 ≠ e.1 :=
    fun e' he' => hnodup.2.2 _ (List.mem_map_of_mem (f := Prod.fst) he') _ List.mem_cons_self
  have hmade : ¬ (False ∨ MadeAll target front (target ++ e.1)) := by
    intro hmade
    obtain ⟨e', he', hmade⟩ := hmade.resolve_left id
    obtain ⟨hne, hfront, hproper⟩ | ⟨-, heq⟩ := hmade
    · -- an entry that this one is above has it in front already
      obtain ⟨before, after, hfrontsplit⟩ := List.append_of_mem he'
      have habove : Above e'.1 e.1 :=
        ⟨hl.proper e he, (List.prefix_append_right_inj target).mp hfront, fun heq => hproper
          (by rw [heq])⟩
      have hmem := hl.above before e' (after ++ e :: back)
        (by rw [hsplit, hfrontsplit, List.append_assoc]; rfl) _ habove
      apply hfresh (e.1, .directory) ?_ rfl
      rw [hfrontsplit]
      exact List.mem_append_left _ hmem
    · exact hfresh e' he' (List.append_cancel_left heq).symm
  have hlast : lastAt ([] ++ putsOf reset target front) (target ++ e.1) = none := by
    rw [lastAt_eq_none]
    intro hmem
    rw [List.nil_append, putsOf, List.mem_map] at hmem
    obtain ⟨y, hy, heq⟩ := hmem
    obtain ⟨e', he', hput⟩ := List.mem_filterMap.mp hy
    obtain ⟨x, -, rfl⟩ := Option.map_eq_some_iff.mp hput
    exact hfresh e' he' (List.append_cancel_left heq)
  exact h.written.fits hmade hlast

/-- **A tree can be put** exactly when each entry fits the trees before. -/
theorem run_total (hl : Proper target l) (htarget : v.isDirectory (v.spot target) = true) :
    (∃ v', l.foldlM (putBelow reset target) v = .ok v') ↔ ∀ e ∈ l, Fits v target e := by
  constructor
  · intro h e he
    obtain ⟨v', hrun⟩ := h
    have hinv := Flow.foldlM_partial (fun done u => Standing v
      (fun _ => False) [] reset target done u ∧ ∀ e ∈ done, Fits v target e)
      ⟨.nil (.refl v) htarget, fun e he => absurd he List.not_mem_nil⟩ ?_ hrun
    · exact hinv.2 e he
    · intro front e back u u' hsplit hinv hstep
      have he : e ∈ l := by rw [hsplit]; exact List.mem_append_right _ List.mem_cons_self
      refine ⟨hinv.1.next hl hsplit hstep, fun e' he' => ?_⟩
      obtain he' | he' := List.mem_append.mp he'
      · exact hinv.2 e' he'
      · rw [List.mem_singleton.mp he']
        exact (hinv.1.untouched hl hsplit).mp ((putBelow_total (hinv.1.below hl hsplit)
          (hl.solid e he)).mp ⟨u', hstep⟩)
  · intro h
    -- entry by entry, each fitting when its turn comes
    suffices hrest : ∀ back front u, l = front ++ back →
        Standing v (fun _ => False) [] reset target front u →
        ∃ v', back.foldlM (putBelow reset target) u = .ok v' from
      hrest l [] v rfl (.nil (.refl v) htarget)
    intro back
    induction back with
    | nil => exact fun front u _ _ => ⟨u, rfl⟩
    | cons e back ih =>
      intro front u hsplit hstanding
      have he : e ∈ l := by rw [hsplit]; exact List.mem_append_right _ List.mem_cons_self
      have hfits := (hstanding.untouched hl hsplit).mpr (h e he)
      obtain ⟨u', hstep⟩ := (putBelow_total (hstanding.below hl hsplit) (hl.solid e he)).mpr hfits
      rw [List.foldlM_cons, hstep]
      exact ih (front ++ [e]) u' (by rw [hsplit, List.append_assoc]; rfl)
        (hstanding.next hl hsplit hstep)

/-- The target is opened, with the directories above it. -/
structure OpenedAt (v : Volume) (target : List Bytes) (u : Volume) : Prop where
  written : Written v (fun q => q ∈ fronts [] target) [] u
  opened : u.isDirectory (v.spot target) = true

theorem OpenedAt.of_directory {target : List Bytes} {u : Volume}
    (hopen : v.directory target = .ok u) : OpenedAt v target u := by
  obtain ⟨hwritten, hdir⟩ := (Written.refl v).directory_opened hopen
  exact ⟨hwritten.congr fun q _ => or_iff_right id, hdir⟩

/-- It is there then, and can be opened again. -/
theorem OpenedAt.again {target : List Bytes} {u u' : Volume} (h : OpenedAt v target u)
    (hopen : u.directory target = .ok u') :
    OpenedAt v target u' := by
  obtain ⟨hwritten, hdir⟩ := h.written.directory_opened hopen
  exact ⟨hwritten.congr fun q _ => or_iff_left_of_imp id, hdir⟩

/-- Nothing was in its way. -/
theorem OpenedAt.clear {target : List Bytes} {u : Volume} (h : OpenedAt v target u) :
    Clear v target := by
  intro q hne hq
  obtain ⟨i, -, -, hold, -⟩ := h.written.directory q (.inr ⟨rfl, mem_fronts_nil.mpr ⟨hne, hq⟩⟩)
  exact hold.symm.imp And.left fun hdir => isDirectory_iff.mpr ⟨i, hdir⟩

theorem OpenedAt.clear_opened {target : List Bytes} {u : Volume} (h : OpenedAt v target u) :
    Clear u target := by
  intro q _ hq
  obtain ⟨rest, rfl⟩ := hq
  have hdir := h.opened
  rw [← spot_congr h.written.bootstrap] at hdir
  exact .inr (isDirectory_front hdir)

/-- Opening the target makes no difference to what fits below it. -/
theorem OpenedAt.fits {target : List Bytes} {e : EntryPath × Item} {u : Volume}
    (h : OpenedAt v target u) (hne : e.1 ≠ []) :
    Fits u target e ↔ Fits v target e := by
  apply h.written.fits
  · intro hmade
    have hlength := (mem_fronts_nil.mp hmade).2.length_le
    rw [List.length_append] at hlength
    exact hne (List.length_eq_zero_iff.mp (by omega))
  · rfl

end

end

end Volume

end Conglobate.Copy
