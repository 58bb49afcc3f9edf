import Conglobate.Network.ResolverTarget

/- Resolver injection restores the image (`network/resolver_target.rs`).

   What is proved:
     1. `Built.release` — a record of creations is undone in its order, back to the tree
        it began with;
     2. `rounds_built` — whatever the rounds do, their record is one;
     3. `rounds_path` — what the kernel finds in the end is where the rounds went, though
        they drop the dots that the kernel looks at;
     4. `injection_restores` — what `resolve`, `existing` and `release` leave. -/
namespace Conglobate.Network

open Copy

/-! Trees. -/

namespace Tree

variable {t t' : Tree} {parent : List Bytes} {name : Bytes} {object : Object}

theorem ext_get? (hroot : t.root = t'.root) (hentries : t.entries = t'.entries) : t = t' := by
  obtain ⟨root, entries, _⟩ := t
  obtain ⟨root', entries', _⟩ := t'
  obtain rfl : root = root' := hroot
  obtain rfl : entries = entries' := hentries
  rfl

theorem get?_snoc (t : Tree) (path : List Bytes) (name : Bytes) :
    t.get? (path ++ [name]) = t.entries.get? (path ++ [name]) := by
  rw [get?, if_neg (by simp)]

theorem isDirectory_of_get? {path : List Bytes} {ino : Nat}
    (h : t.get? path = some ⟨ino, .directory⟩) : t.IsDirectory path := by
  rw [IsDirectory, h]
  rfl

theorem isDirectory_parent {path : List Bytes} (h : t.get? (path ++ [name]) = some object) :
    t.IsDirectory path := by
  apply t.parents path name
  rw [← get?_snoc, h]
  exact Option.some_ne_none object

theorem create_eq_ok (h : t.create parent name object = .ok t') :
    t.IsDirectory parent ∧ t.get? (parent ++ [name]) = none ∧ t'.root = t.root ∧
      t'.entries = t.entries.insert (parent ++ [name]) object := by
  rw [create] at h
  split at h
  · rename_i hfree
    cases h
    exact ⟨hfree.1, hfree.2, rfl, rfl⟩
  · cases h

theorem get?_create (h : t.create parent name object = .ok t') (path : List Bytes) :
    t'.get? path = if path = parent ++ [name] then some object else t.get? path := by
  obtain ⟨-, -, hroot, hentries⟩ := create_eq_ok h
  rw [get?, get?, hroot, hentries, OrdMap.get?_insert]
  by_cases hnil : path = []
  · have hne : path ≠ parent ++ [name] := fun heq => by simp [hnil] at heq
    rw [if_pos hnil, if_pos hnil, if_neg hne]
  · rw [if_neg hnil, if_neg hnil]
    by_cases hpath : path = parent ++ [name]
    · rw [if_pos hpath, if_pos hpath]
    · rw [if_neg hpath, if_neg hpath]

/-- **A new object can be taken away again**, which leaves what was before. -/
theorem create_unlink {directory : Bool} (h : t.create parent name object = .ok t')
    (hkind : directory = true ↔ object.kind = .directory) :
    t'.unlink parent name directory = .ok t := by
  obtain ⟨-, hnone, hroot, hentries⟩ := create_eq_ok h
  have hself : t'.get? (parent ++ [name]) = some object := by rw [get?_create h, if_pos rfl]
  have hchildless : t'.Childless (parent ++ [name]) := by
    intro e he
    by_cases hnil : e.1 = []
    · exact .inl hnil
    refine .inr fun hbelow => ?_
    have heq : e.1 = (parent ++ [name]) ++ [e.1.getLast hnil] := by
      conv_lhs => rw [← List.dropLast_append_getLast hnil, hbelow]
    have hget := get?_create h e.1
    rw [get?, if_neg hnil, OrdMap.get?_eq_some.mpr he, if_neg (by rw [heq]; simp), heq] at hget
    -- a child would have had a directory above it before
    have hdirectory := isDirectory_parent hget.symm
    rw [IsDirectory, hnone] at hdirectory
    cases hdirectory
  rw [unlink]
  split
  · rename_i hmissing
    rw [hself] at hmissing
    cases hmissing
  · rename_i found hfound
    rw [hself, Option.some.injEq] at hfound
    rw [dif_pos ⟨hfound ▸ hkind, hchildless⟩]
    refine congrArg Except.ok (ext_get? hroot ?_)
    show t'.entries.erase (parent ++ [name]) = t.entries
    refine OrdMap.ext_get? fun path => ?_
    rw [hentries, OrdMap.get?_erase, OrdMap.get?_insert]
    by_cases hpath : path = parent ++ [name]
    · rw [if_pos hpath, hpath, ← get?_snoc, hnone]
    · rw [if_neg hpath, if_neg hpath]

/-- Everything is still there. -/
def Within (t t' : Tree) : Prop :=
  ∀ path object, t.get? path = some object → t'.get? path = some object

theorem Within.refl (t : Tree) : t.Within t := fun _ _ h => h

theorem Within.trans {t'' : Tree} (h : t.Within t') (h' : t'.Within t'') : t.Within t'' :=
  fun path object hobject => h' path object (h path object hobject)

theorem within_create (h : t.create parent name object = .ok t') : t.Within t' := by
  intro path found hfound
  rw [get?_create h]
  split
  · rename_i heq
    rw [heq, (create_eq_ok h).2.1] at hfound
    cases hfound
  · exact hfound

theorem Within.isDirectory {path : List Bytes} (h : t.Within t') (hdir : t.IsDirectory path) :
    t'.IsDirectory path := by
  obtain ⟨object, hobject, hkind⟩ := Option.map_eq_some_iff.mp hdir
  rw [IsDirectory, h path object hobject, Option.map_some, hkind]

/-! The kernel's walk. -/

theorem inRoot_nil (links : Nat) (here : List Bytes) : t.inRoot links here [] = .ok here := by
  rw [inRoot]

section
variable {links : Nat} {here rest : List Bytes} {part : Bytes}

theorem inRoot_dot (hdir : t.IsDirectory here) :
    t.inRoot links here (dotName :: rest) = t.inRoot links here rest := by
  rw [inRoot, if_neg (not_not.mpr hdir), if_pos rfl]

theorem inRoot_dotdot (hdir : t.IsDirectory here) :
    t.inRoot links here (dotdotName :: rest) = t.inRoot links here.dropLast rest := by
  rw [inRoot, if_neg (not_not.mpr hdir), if_neg (by decide), if_pos rfl]

theorem inRoot_symlink {ino : Nat} {target : Bytes} (hdot : part ≠ dotName)
    (hdotdot : part ≠ dotdotName) (h : t.get? (here ++ [part]) = some ⟨ino, .symlink target⟩) :
    t.inRoot links here (part :: rest) =
      if 40 < links + 1 then .error .other
      else t.inRoot (links + 1) (if isAbsolute target then
        [] else here) (posixParts target ++ rest) := by
  rw [inRoot, if_neg (not_not.mpr (isDirectory_parent h)), if_neg hdot, if_neg hdotdot, h]

theorem inRoot_enter (hdot : part ≠ dotName) (hdotdot : part ≠ dotdotName)
    (h : t.get? (here ++ [part]) = some object) (hkind : ∀ target, object.kind ≠ .symlink target) :
    t.inRoot links here (part :: rest) = t.inRoot links (here ++ [part]) rest := by
  rw [inRoot, if_neg (not_not.mpr (isDirectory_parent h)), if_neg hdot, if_neg hdotdot, h]
  obtain ⟨ino, kind⟩ := object
  cases kind with
  | symlink target => exact absurd rfl (hkind target)
  | directory => rfl
  | file content => rfl
  | special => rfl

/-- A walk along directories goes where its names say. -/
theorem inRoot_along (hnames : ∀ name ∈ rest, name ≠ dotName ∧ name ≠ dotdotName)
    (hdirs : ∀ q, q <+: rest → q ≠ [] → t.IsDirectory (here ++ q)) :
    t.inRoot links here rest = .ok (here ++ rest) := by
  induction rest generalizing here with
  | nil => rw [inRoot_nil, List.append_nil]
  | cons name rest ih =>
    obtain ⟨hdot, hdotdot⟩ := hnames name List.mem_cons_self
    have hdir := hdirs [name] ⟨rest, rfl⟩ (List.cons_ne_nil _ _)
    obtain ⟨object, hobject, hkind⟩ := Option.map_eq_some_iff.mp hdir
    rw [inRoot_enter hdot hdotdot hobject (fun target heq => by rw [hkind] at heq; cases heq)]
    rw [ih (fun other hother => hnames other (List.mem_cons_of_mem _ hother)), List.append_assoc]
    · rfl
    · intro q hq _
      rw [List.append_assoc]
      exact hdirs (name :: q) (List.prefix_cons_inj name |>.mpr hq) (List.cons_ne_nil _ _)

end


theorem inRoot_within {links : Nat} {here rest path : List Bytes} (hwithin : t.Within t')
    (h : t.inRoot links here rest = .ok path) :
    t'.inRoot links here rest = .ok path := by
  induction links, here, rest using inRoot.induct t with
  | case1 links here => rwa [inRoot_nil] at h ⊢
  | case2 links here name rest hdir =>
    rw [inRoot, if_pos hdir] at h
    cases h
  | case3 links here rest hdir ih =>
    have hdir := not_not.mp hdir
    rw [inRoot_dot hdir] at h
    rw [inRoot_dot (hwithin.isDirectory hdir)]
    exact ih h
  | case4 links here rest hdir _ ih =>
    have hdir := not_not.mp hdir
    rw [inRoot_dotdot hdir] at h
    rw [inRoot_dotdot (hwithin.isDirectory hdir)]
    exact ih h
  | case5 links here name rest hdir hdot hdotdot hnone =>
    rw [inRoot, if_neg hdir, if_neg hdot, if_neg hdotdot, hnone] at h
    cases h
  | case6 links here name rest hdir hdot hdotdot ino target hlink hmany =>
    rw [inRoot_symlink hdot hdotdot hlink, if_pos hmany] at h
    cases h
  | case7 links here name rest hdir hdot hdotdot ino target hlink hmany ih =>
    rw [inRoot_symlink hdot hdotdot hlink, if_neg hmany] at h
    rw [inRoot_symlink hdot hdotdot (hwithin _ _ hlink), if_neg hmany]
    exact ih h
  | case8 links here name rest hdir hdot hdotdot object hnode hsome ih =>
    have hkind : ∀ target, object.kind ≠ .symlink target :=
      fun target heq => hnode object.ino target (by rw [← heq])
    rw [inRoot_enter hdot hdotdot hsome hkind] at h
    rw [inRoot_enter hdot hdotdot (hwithin _ _ hsome) hkind]
    exact ih h

end Tree

/-- What an object is to a walk. -/
def Kind.toPosix : Kind → Posix.Node Bytes
  | .directory => .directory
  | .symlink target => .link (isAbsolute target) (posixParts target)
  | _ => .leaf

/-- What paths denote. -/
def Tree.posix (t : Tree) (path : List Bytes) :
    Option (Posix.Node Bytes) := (t.get? path).map fun object => object.kind.toPosix

theorem Tree.IsDirectory.posix {t : Tree} {path : List Bytes} (h : t.IsDirectory path) :
    Posix.IsDirectory t.posix path := by
  obtain ⟨object, hobject, hkind⟩ := Option.map_eq_some_iff.mp h
  refine .inr ?_
  rw [Tree.posix, hobject, Option.map_some, hkind, Kind.toPosix]

/-- **Where the kernel ends, a walk of the tree ends.** -/
theorem Tree.inRoot_reaches {t : Tree} {links : Nat} {here rest path : List Bytes}
    (h : t.inRoot links here rest = .ok path) :
    ∃ n, Posix.Reaches names t.posix ⟨here, rest, links⟩ ⟨path, [], n⟩ := by
  induction links, here, rest using inRoot.induct t with
  | case1 links here =>
    rw [inRoot_nil] at h
    cases h
    exact ⟨links, .refl⟩
  | case2 links here name rest hdir =>
    rw [inRoot, if_pos hdir] at h
    cases h
  | case3 links here rest hdir ih =>
    have hdir := not_not.mp hdir
    rw [inRoot_dot hdir] at h
    obtain ⟨n, hn⟩ := ih h
    exact ⟨n, .head (Posix.Step.dot hdir.posix) hn⟩
  | case4 links here rest hdir _ ih =>
    have hdir := not_not.mp hdir
    rw [inRoot_dotdot hdir] at h
    obtain ⟨n, hn⟩ := ih h
    exact ⟨n, .head (Posix.Step.parent hdir.posix) hn⟩
  | case5 links here name rest hdir hdot hdotdot hnone =>
    rw [inRoot, if_neg hdir, if_neg hdot, if_neg hdotdot, hnone] at h
    cases h
  | case6 links here name rest hdir hdot hdotdot ino target hlink hmany =>
    rw [inRoot_symlink hdot hdotdot hlink, if_pos hmany] at h
    cases h
  | case7 links here name rest hdir hdot hdotdot ino target hlink hmany ih =>
    rw [inRoot_symlink hdot hdotdot hlink, if_neg hmany] at h
    obtain ⟨n, hn⟩ := ih h
    have hnode : t.posix (here ++ [name]) = some (.link (isAbsolute target)
        (posixParts target)) := by
      rw [Tree.posix, hlink]
      rfl
    exact ⟨n, .head (Posix.Step.follow (not_not.mp hdir).posix hdot hdotdot hnode) hn⟩
  | case8 links here name rest hdir hdot hdotdot object hnode hsome ih =>
    have hkind : ∀ target, object.kind ≠ .symlink target :=
      fun target heq => hnode object.ino target (by rw [← heq])
    rw [inRoot_enter hdot hdotdot hsome hkind] at h
    obtain ⟨n, hn⟩ := ih h
    have hposix : t.posix (here ++ [name]) = some object.kind.toPosix := by
      rw [Tree.posix, hsome, Option.map_some]
    refine ⟨n, .head (Posix.Step.enter (not_not.mp hdir).posix hdot hdotdot hposix ?_) hn⟩
    cases hobject : object.kind with
    | symlink target => exact absurd hobject (hkind target)
    | directory => exact trivial
    | file content => exact trivial
    | special => exact trivial

/-! The record of creations. -/

/-- What was created is opened, and removals go through. -/
def Settled (k : Kernel) : Prop := ∀ left, k.fault left .pin = false ∧ k.fault left .remove = false

def CreatedKind.kind : CreatedKind → Kind
  | .directory => .directory
  | .file => .file []

/-- A tree made from another by recorded creations. -/
inductive Built (base : Tree) : List CreatedEntry → Tree → Prop where
  | base : Built base [] base
  | create {scaffold : List CreatedEntry} {t t' : Tree} {parent : List Bytes} {name : Bytes}
      {ino : Nat} {kind : CreatedKind} :
      Built base scaffold t → t.create parent name ⟨ino, kind.kind⟩ = .ok t' →
      Built base (⟨parent, .pinned ino, name, kind⟩ :: scaffold) t'

variable {k : Kernel} {base t : Tree} {scaffold : List CreatedEntry}

/-- **The record is undone**, from its last entry to its first. -/
theorem Built.release (hsettled : Settled k) (h : Built base scaffold t) :
    release k scaffold t = (.ok (), base) := by
  induction h with
  | base => rfl
  | @create scaffold t t' parent name ino kind _ hcreate ih =>
    have hkind : decide (kind = .directory) = true ↔ kind.kind = .directory := by cases kind <;> decide
    have hget : t'.get? (parent ++ [name]) = some ⟨ino, kind.kind⟩ := by
      rw [Tree.get?_create hcreate, if_pos rfl]
    have hremove : CreatedEntry.remove k scaffold.length ⟨parent, .pinned ino, name, kind⟩ t' =
        .ok t := by
      rw [CreatedEntry.remove, (hsettled _).2, hget]
      simp only [Bool.false_eq_true, if_false, ne_eq, not_true_eq_false,
        Tree.create_unlink hcreate hkind]
      rfl
    rw [Network.release, hremove]
    exact ih

theorem Built.within (h : Built base scaffold t) : base.Within t := by
  induction h with
  | base => exact .refl base
  | create _ hcreate ih => exact ih.trans (Tree.within_create hcreate)

theorem Built.root (h : Built base scaffold t) : t.root = base.root := by
  induction h with
  | base => rfl
  | create _ hcreate ih => exact (Tree.create_eq_ok hcreate).2.2.1.trans ih

/-- What is new has been recorded. -/
theorem Built.recorded (h : Built base scaffold t) {path : List Bytes} {object : Object}
    (hobject : t.get? path = some object) (hnew : base.get? path = none) :
    ∃ e ∈ scaffold, path = e.parent ++ [e.name] ∧ object.kind = e.kind.kind := by
  induction h generalizing object with
  | base =>
    rw [hnew] at hobject
    cases hobject
  | @create scaffold t t' parent name ino kind _ hcreate ih =>
    rw [Tree.get?_create hcreate] at hobject
    split at hobject
    · rename_i hpath
      obtain rfl := Option.some.inj hobject
      exact ⟨_, List.mem_cons_self, hpath, rfl⟩
    · obtain ⟨e, he, hpath, hkind⟩ := ih hobject
      exact ⟨e, List.mem_cons_of_mem _ he, hpath, hkind⟩

/-! One round. -/

/-- What a name of the directory walked to denotes, created perhaps. -/
inductive Opened (w : Walk) (part : Bytes) (directory : Bool) : Object → Walk → Prop where
  | found {object : Object} : w.tree.get? (w.resolved ++ [part]) = some object →
      Opened w part directory object w
  | created {tree : Tree} {ino : Nat} {kind : CreatedKind} :
      w.tree.create w.resolved part ⟨ino, kind.kind⟩ = .ok tree →
      (kind = .directory ↔ directory = true) →
      Opened w part directory ⟨ino, kind.kind⟩
        { w with tree := tree, scaffold := ⟨w.resolved, .pinned ino, part, kind⟩ :: w.scaffold }

section
variable {creates : Bool} {left : Nat} {w w' : Walk} {part : Bytes} {directory : Bool}

theorem openNode_cases (hsettled : Settled k) {r : Except ResolverError Object}
    (h : openNode k creates left w w.resolved part directory = (r, w')) :
    (w' = w ∧ ∃ e, r = .error e) ∨
      ∃ object, Opened w part directory object w' ∧ ∀ found, r = .ok found → found = object := by
  rw [openNode] at h
  split at h
  · cases h
    exact .inl ⟨rfl, _, rfl⟩
  split at h
  · rename_i object hfound
    cases h
    exact .inr ⟨object, .found hfound, fun found heq => (Except.ok.inj heq).symm⟩
  split at h
  · rw [create] at h
    split at h
    · cases h
      exact .inl ⟨rfl, _, rfl⟩
    cases hcreate : w.tree.create w.resolved part ⟨k.alloc w.tree, if directory then .directory
        else .file []⟩ with
    | error e =>
      rw [hcreate] at h
      cases h
      exact .inl ⟨rfl, _, rfl⟩
    | ok tree =>
      rw [hcreate] at h
      simp only [(hsettled left).1, Bool.and_false, Bool.false_eq_true, if_false] at h
      obtain ⟨hr, rfl⟩ := Prod.mk.inj h
      have hkind : (if directory then Kind.directory else Kind.file []) =
          (if directory then CreatedKind.directory else CreatedKind.file).kind := by cases directory <;> rfl
      have hdirectory : (if directory then CreatedKind.directory else CreatedKind.file) =
          .directory ↔ directory = true := by
        cases directory <;> decide
      rw [hkind] at hcreate
      refine .inr ⟨_, .created hcreate hdirectory, fun found heq => ?_⟩
      rw [← hr] at heq
      split at heq
      · cases heq
      · rw [← Except.ok.inj heq, hkind]
  · cases h
    exact .inl ⟨rfl, _, rfl⟩

end

/-- Where the loop stands between its rounds. -/
structure Between (base : Tree) (forbidden : List Nat) (w : Walk) : Prop where
  built : Built base w.scaffold w.tree
  root : base.root.kind = .directory
  ordinary : ∀ name ∈ w.resolved, name ≠ dotName ∧ name ≠ dotdotName
  directories : ∀ q, q <+: w.resolved → q ≠ [] → ∃ ino, w.tree.get? q = some ⟨ino, .directory⟩ ∧
    ino ∉ forbidden
  /-- The first name is none of the runtime's. -/
  runtime : ∀ name ∈ w.resolved.head?, name ∉ runtimeNames
  made : ∀ e ∈ w.scaffold, e.kind = .directory

section
variable {forbidden : List Nat} {creates : Bool} {left : Nat} {w w' : Walk} {part : Bytes}
    {directory : Bool} {object : Object}

theorem Between.isDirectory_root (h : Between base forbidden w) : w.tree.IsDirectory [] := by
  rw [Tree.IsDirectory, Tree.get?, if_pos rfl, h.built.root, Option.map_some, h.root]

theorem Between.isDirectory (h : Between base forbidden w) {q : List Bytes}
    (hq : q <+: w.resolved) : w.tree.IsDirectory q := by
  by_cases hnil : q = []
  · exact hnil ▸ h.isDirectory_root
  · obtain ⟨ino, hino, -⟩ := h.directories q hq hnil
    exact Tree.isDirectory_of_get? hino

/-- **The path walked is the path opened.** -/
theorem Between.openDirectory (h : Between base forbidden w) :
    ∃ ino, w.tree.openDirectory (if w.resolved = [] then [dotName] else w.resolved) =
      .ok (w.resolved, ino) := by
  have hwalk : w.tree.inRoot 0 [] (if w.resolved = [] then [dotName] else w.resolved) =
      .ok w.resolved := by
    split
    · rename_i hnil
      rw [Tree.inRoot_dot h.isDirectory_root, Tree.inRoot_nil, hnil]
    · exact Tree.inRoot_along h.ordinary (fun q hq _ => h.isDirectory hq)
  obtain ⟨⟨ino, kind⟩, hobject, hkind⟩ :=
    Option.map_eq_some_iff.mp (h.isDirectory (List.prefix_refl w.resolved))
  obtain rfl : kind = .directory := hkind
  exact ⟨ino, by rw [Tree.openDirectory, hwalk]; simp only [hobject]⟩

theorem Opened.get? (h : Opened w part directory object w') :
    w'.tree.get? (w.resolved ++ [part]) = some object := by
  cases h with
  | found hfound => exact hfound
  | created hcreate _ => rw [Tree.get?_create hcreate, if_pos rfl]

theorem Opened.within (h : Opened w part directory object w') : w.tree.Within w'.tree := by
  cases h with
  | found _ => exact .refl _
  | created hcreate _ => exact Tree.within_create hcreate

theorem Opened.built (h : Opened w part directory object w') (hw : Built base w.scaffold w.tree) :
    Built base w'.scaffold w'.tree := by
  cases h with
  | found _ => exact hw
  | created hcreate _ => exact hw.create hcreate

theorem Opened.same (h : Opened w part directory object w') :
    w'.links = w.links ∧ w'.resolved = w.resolved ∧ w'.pending = w.pending := by
  cases h <;> exact ⟨rfl, rfl, rfl⟩

/-- An object may be entered under this path. -/
def Clear (forbidden : List Nat) (path : List Bytes) (ino : Nat) : Prop :=
  (∀ name ∈ path.head?, name ∉ runtimeNames) ∧ ino ∉ forbidden

def Ordinary (part : Bytes) : Prop := part ≠ [slash] ∧ part ≠ dotName ∧ part ≠ dotdotName

/-- A round behind which there is another. -/
inductive Advance (forbidden : List Nat) (w : Walk) : Walk → Prop where
  | root {pending : List Bytes} : w.pending = [slash] :: pending →
      Advance forbidden w { w with resolved := [], pending := pending }
  | dot {pending : List Bytes} : w.pending = dotName :: pending →
      Advance forbidden w { w with pending := pending }
  | parent {pending : List Bytes} : w.pending = dotdotName :: pending → w.resolved ≠ [] →
      Advance forbidden w { w with resolved := w.resolved.dropLast, pending := pending }
  | follow {part : Bytes} {pending : List Bytes} {ino : Nat} {target : Bytes} {w' : Walk} :
      w.pending = part :: pending →
      Ordinary part → Opened w part (decide (pending ≠ [])) ⟨ino, .symlink target⟩ w' →
        w.links < 40 →
      Advance forbidden w { w' with links := w'.links + 1, pending := pathIter target ++ pending }
  | enter {part : Bytes} {pending : List Bytes} {ino : Nat} {w' : Walk} :
      w.pending = part :: pending → pending ≠ [] →
      Ordinary part → Opened w part (decide (pending ≠ [])) ⟨ino, .directory⟩ w' →
        Clear forbidden (w.resolved ++ [part]) ino →
      Advance forbidden w { w' with resolved := w'.resolved ++ [part], pending := pending }

/-- A round that selects the target. -/
inductive Ends (k : Kernel) (forbidden : List Nat) (left : Nat) (w : Walk) :
    Walk → Selected → Prop where
  | file {part : Bytes} {ino : Nat} {content : Bytes} {w' : Walk} {selected : Selected} :
      w.pending = [part] → Ordinary part →
      Opened w part false ⟨ino, .file content⟩ w' → Clear forbidden (w.resolved ++ [part]) ino →
      final k left { w' with resolved := w'.resolved ++ [part], pending := [] }
        ⟨ino, .file content⟩ = .ok selected →
      Ends k forbidden left w { w' with resolved := w'.resolved ++ [part], pending := [] } selected

theorem clear_of_checks {path : List Bytes}
    (h : ¬ (path.head?.any (fun name => runtimeNames.contains name) ||
    forbidden.contains object.ino) = true) :
    Clear forbidden path object.ino := by
  rw [Bool.or_eq_true, not_or, List.contains_iff_mem] at h
  refine ⟨fun name hname hmem => h.1 ?_, h.2⟩
  rw [Option.mem_def.mp hname, Option.any_some, List.contains_iff_mem]
  exact hmem

theorem enter_cases {pending : List Bytes} {r : Option (Except ResolverError Selected)}
    (hpending : w.pending = part :: pending) (hpart : Ordinary part) {w₁ : Walk} {ino : Nat}
    {kind : Kind} (hopened : Opened w part (decide (pending ≠ [])) ⟨ino, kind⟩ w₁)
    (hbuilt : Built base w.scaffold w.tree)
    (h : enter k forbidden left { w₁ with resolved := w₁.resolved ++ [part], pending := pending }
    ⟨ino, kind⟩ = (w', r)) :
    (r = none ∧ Advance forbidden w w') ∨ (∃ e, r = some (.error e) ∧
      Built base w'.scaffold w'.tree) ∨
      ∃ selected, r = some (.ok selected) ∧ Ends k forbidden left w w' selected := by
  obtain ⟨-, hresolved, -⟩ := hopened.same
  have hbuilt' := hopened.built hbuilt
  rw [enter] at h
  split at h
  · cases h
    exact .inr (.inl ⟨_, rfl, hbuilt'⟩)
  rename_i hchecks
  have hclear := clear_of_checks hchecks
  rw [hresolved] at hclear
  split at h
  · rename_i hlast
    obtain rfl : pending = [] := hlast
    cases kind with
    | file content =>
      obtain ⟨rfl, hr⟩ := Prod.mk.inj h
      cases hfinal : final k left { w₁ with resolved := w₁.resolved ++ [part], pending := [] }
          ⟨ino, .file content⟩ with
      | error e => exact .inr (.inl ⟨e, by rw [← hr, hfinal], hbuilt'⟩)
      | ok selected =>
        exact .inr (.inr ⟨selected, by rw [← hr, hfinal], .file hpending hpart hopened hclear hfinal⟩)
    | _ =>
      cases h
      exact .inr (.inl ⟨_, rfl, hbuilt'⟩)
  · rename_i hmore
    split at h
    · cases h
      exact .inr (.inl ⟨_, rfl, hbuilt'⟩)
    · rename_i hdirectory
      obtain rfl : kind = .directory := Decidable.of_not_not hdirectory
      cases h
      exact .inl ⟨rfl, .enter hpending hmore hpart hopened hclear⟩

theorem inspect_cases {pending : List Bytes} {r : Option (Except ResolverError Selected)}
    (hpending : w.pending = part :: pending) (hpart : Ordinary part) {w₁ : Walk}
    (hopened : Opened w part (decide (pending ≠ [])) object w₁)
    (hbuilt : Built base w.scaffold w.tree)
    (h : inspect k forbidden left w₁ part pending object = (w', r)) :
    (r = none ∧ Advance forbidden w w') ∨ (∃ e, r = some (.error e) ∧
      Built base w'.scaffold w'.tree) ∨
      ∃ selected, r = some (.ok selected) ∧ Ends k forbidden left w w' selected := by
  obtain ⟨hlinks, -, -⟩ := hopened.same
  have hbuilt' := hopened.built hbuilt
  rw [inspect] at h
  split at h
  · cases h
    exact .inr (.inl ⟨_, rfl, hbuilt'⟩)
  obtain ⟨ino, kind⟩ := object
  cases kind with
  | symlink target =>
    dsimp only at h
    split at h
    · cases h
      exact .inr (.inl ⟨_, rfl, hbuilt'⟩)
    · rename_i hcount
      split at h
      · cases h
        exact .inr (.inl ⟨_, rfl, hbuilt'⟩)
      · cases h
        exact .inl ⟨rfl, .follow hpending hpart hopened (by omega)⟩
  | _ => exact enter_cases hpending hpart hopened hbuilt h

/-- **What a round can do.** -/
theorem round_cases (hsettled : Settled k) (hw : Between base forbidden w)
    {r : Option (Except ResolverError Selected)} (h : round k creates forbidden left w = (w', r)) :
    (r = none ∧ Advance forbidden w w') ∨ (∃ e, r = some (.error e) ∧
      Built base w'.scaffold w'.tree) ∨
      ∃ selected, r = some (.ok selected) ∧ Ends k forbidden left w w' selected := by
  rw [round] at h
  split at h
  · cases h
    exact .inr (.inl ⟨_, rfl, hw.built⟩)
  rename_i part pending hpending
  split at h
  · rename_i hslash
    cases h
    exact .inl ⟨rfl, .root (hslash ▸ hpending)⟩
  rename_i hslash
  split at h
  · rename_i hdot
    cases h
    exact .inl ⟨rfl, .dot (hdot ▸ hpending)⟩
  rename_i hdot
  split at h
  · rename_i hdotdot
    split at h
    · cases h
      exact .inr (.inl ⟨_, rfl, hw.built⟩)
    · rename_i hne
      cases h
      exact .inl ⟨rfl, .parent (hdotdot ▸ hpending) hne⟩
  rename_i hdotdot
  rw [visit] at h
  split at h
  · cases h
    exact .inr (.inl ⟨_, rfl, hw.built⟩)
  obtain ⟨ino, hopen⟩ := hw.openDirectory
  rw [hopen] at h
  dsimp only at h
  cases hnode : openNode k creates left w w.resolved part (decide (pending ≠ [])) with
  | mk opened w₁ =>
    rw [hnode] at h
    obtain ⟨rfl, e, rfl⟩ | ⟨object, hopened, hobject⟩ := openNode_cases hsettled hnode
    · cases h
      exact .inr (.inl ⟨_, rfl, hw.built⟩)
    · cases opened with
      | error e =>
        cases h
        exact .inr (.inl ⟨_, rfl, hopened.built hw.built⟩)
      | ok found =>
        obtain rfl := hobject found rfl
        exact inspect_cases hpending ⟨hslash, hdot, hdotdot⟩ hopened hw.built h

/-! Rounds. -/

theorem Opened.resolved (h : Opened w part directory object w') :
    w'.resolved = w.resolved := h.same.2.1

/-- No link is created. -/
theorem Opened.eq_of_symlink {ino : Nat} {target : Bytes}
    (h : Opened w part directory ⟨ino, .symlink target⟩ w') : w' = w := by
  generalize hobject : (⟨ino, .symlink target⟩ : Object) = object at h
  cases h with
  | found _ => rfl
  | @created tree ino kind _ _ => cases kind <;> cases hobject

/-- The record has one entry more at most, for what was asked for. -/
theorem Opened.record (h : Opened w part directory object w') :
    w'.scaffold = w.scaffold ∨ ∃ e, w'.scaffold = e :: w.scaffold ∧
      (e.kind = .directory ↔ directory = true) := by
  cases h with
  | found _ => exact .inl rfl
  | created _ hkind => exact .inr ⟨_, rfl, hkind⟩

theorem Advance.within (h : Advance forbidden w w') : w.tree.Within w'.tree := by
  cases h with
  | root _ => exact .refl _
  | dot _ => exact .refl _
  | parent _ _ => exact .refl _
  | follow _ _ hopened _ => exact hopened.within
  | enter _ _ _ hopened _ => exact hopened.within

/-- **The loop stands as before** behind a round. -/
theorem Advance.between (h : Advance forbidden w w') (hw : Between base forbidden w) :
    Between base forbidden w' := by
  cases h with
  | root _ =>
    refine ⟨hw.built, hw.root, ?_, ?_, ?_, hw.made⟩
    · exact fun name hname => absurd hname List.not_mem_nil
    · exact fun q hq hne => absurd (List.prefix_nil.mp hq) hne
    · exact fun name hname => by cases hname
  | dot _ => exact ⟨hw.built, hw.root, hw.ordinary, hw.directories, hw.runtime, hw.made⟩
  | parent _ _ =>
    have hpre : w.resolved.dropLast <+: w.resolved := List.dropLast_prefix _
    refine ⟨hw.built, hw.root, ?_, ?_, ?_, hw.made⟩
    · exact fun name hname => hw.ordinary name (hpre.subset hname)
    · exact fun q hq hne => hw.directories q (hq.trans hpre) hne
    · refine fun name hname => hw.runtime name ?_
      obtain ⟨rest, hrest⟩ := hpre
      rw [← hrest, List.head?_append, Option.mem_def.mp hname]
      rfl
  | follow _ _ hopened _ =>
    rw [hopened.eq_of_symlink]
    exact ⟨hw.built, hw.root, hw.ordinary, hw.directories, hw.runtime, hw.made⟩
  | @enter part pending ino w₁ _ hmore hpart hopened hclear =>
    have hget := hopened.get?
    have hwithin := hopened.within
    refine ⟨hopened.built hw.built, hw.root, ?_, ?_, ?_, ?_⟩
    · intro name hname
      rw [hopened.resolved, List.mem_append, List.mem_singleton] at hname
      obtain hname | rfl := hname
      · exact hw.ordinary name hname
      · exact hpart.2
    · intro q hq hne
      rw [hopened.resolved] at hq
      obtain rfl | hq := List.prefix_concat_iff.mp hq
      · exact ⟨ino, hget, hclear.2⟩
      · obtain ⟨other, hother, hforbidden⟩ := hw.directories q hq hne
        exact ⟨other, hwithin _ _ hother, hforbidden⟩
    · rw [hopened.resolved]
      exact hclear.1
    · intro e he
      obtain hsame | ⟨new, hnew, hkind⟩ := hopened.record
      · exact hw.made e (hsame ▸ he)
      · rw [hnew, List.mem_cons] at he
        obtain rfl | he := he
        · exact hkind.mpr (decide_eq_true hmore)
        · exact hw.made e he

/-! The kernel beside the rounds. -/

/-- A walk's names, and fewer of them: some of the dots are left out. -/
inductive Fewer : List Bytes → List Bytes → Prop where
  | nil : Fewer [] []
  | name {part : Bytes} {a b : List Bytes} : part ≠ [slash] → Fewer a b →
      Fewer (part :: a) (part :: b)
  | dot {a b : List Bytes} : Fewer a b → Fewer (dotName :: a) b

theorem Fewer.append {a b c d : List Bytes} (h : Fewer a b) (h' : Fewer c d) :
    Fewer (a ++ c) (b ++ d) := by
  induction h with
  | nil => exact h'
  | name hpart _ ih => exact .name hpart ih
  | dot _ ih => exact .dot ih

theorem Fewer.filter {a : List Bytes} (h : ∀ name ∈ a, slash ∉ name) :
    Fewer a (a.filter (fun name => name ≠ dotName)) := by
  induction a with
  | nil => exact .nil
  | cons name rest ih =>
    have hrest := ih (fun other hother => h other (List.mem_cons_of_mem _ hother))
    by_cases hdot : name = dotName
    · rw [List.filter_cons_of_neg (by simp [hdot]), hdot]
      exact .dot hrest
    · rw [List.filter_cons_of_pos (by simp [hdot])]
      refine .name (fun hslash => h name List.mem_cons_self ?_) hrest
      rw [hslash]
      exact List.mem_singleton_self slash

/-- `Path::components` leaves out dots that the kernel looks at. -/
theorem fewer_pathParts (target : Bytes) : Fewer (posixParts target) (pathParts target) := by
  obtain ⟨first, rest, hsplit⟩ := List.exists_cons_of_ne_nil (List.splitOn_ne_nil slash target)
  have hparts : ∀ name ∈ first :: rest, slash ∉ name :=
    fun name hname => (splitOn_part (hsplit ▸ hname)).1
  have hposix : posixParts target = (if first = [] then [] else [first]) ++
      (rest.filter (fun part => part ≠ []) ++ if target.getLast? = some slash then [dotName]
          else []) := by
    rw [posixParts, hsplit, List.filter_cons]
    by_cases hfirst : first = [] <;> simp [hfirst]
  have hpath : pathParts target = (if first = [] then [] else [first]) ++
      ((rest.filter (fun part => part ≠ [])).filter (fun part => part ≠ dotName) ++ []) := by
    rw [pathParts, hsplit, List.append_nil, List.filter_filter]
    refine congrArg (_ ++ ·) (congrArg (List.filter · rest) ?_)
    funext part
    exact Bool.and_comm _ _
  rw [hposix, hpath]
  refine Fewer.append ?_ (Fewer.append (Fewer.filter fun name hname => ?_) ?_)
  · split
    · exact .nil
    · refine .name (fun hslash => hparts first List.mem_cons_self ?_) .nil
      rw [hslash]
      exact List.mem_singleton_self slash
  · exact hparts name (List.mem_cons_of_mem _ (List.mem_filter.mp hname).1)
  · split
    · exact .dot .nil
    · exact .nil

section
variable {links : Nat} {here path : List Bytes} {pending : List Bytes} {all : List Bytes}

theorem inRoot_of_dot (h : t.inRoot links here (dotName :: pending) = .ok path) :
    t.inRoot links here pending = .ok path := by
  rw [Tree.inRoot] at h
  split at h
  · cases h
  · rwa [if_pos rfl] at h

/-- Dots do not move the kernel: it comes to the name. -/
theorem Fewer.inRoot (h : Fewer all (part :: pending))
    (hpath : t.inRoot links here all = .ok path) :
    ∃ rest, Fewer rest pending ∧ t.inRoot links here (part :: rest) = .ok path := by
  generalize hnames : part :: pending = fewer at h
  induction h with
  | nil => cases hnames
  | name _ hrest _ =>
    obtain ⟨rfl, rfl⟩ := List.cons.inj hnames
    exact ⟨_, hrest, hpath⟩
  | dot _ ih => exact ih (inRoot_of_dot hpath) hnames

theorem Fewer.inRoot_end (h : Fewer all []) (hpath : t.inRoot links here all = .ok path) :
    path = here := by
  generalize hnames : ([] : List Bytes) = fewer at h
  induction h with
  | nil =>
    rw [Tree.inRoot_nil] at hpath
    exact (Except.ok.inj hpath).symm
  | name _ _ _ => cases hnames
  | dot _ ih => exact ih (inRoot_of_dot hpath) hnames

/-- The kernel, with these names left, beside the loop: an absolute link takes it to the root at once. -/
def Beside (here all : List Bytes) (w : Walk) : Prop :=
  (here = w.resolved ∧ Fewer all w.pending) ∨ ∃ pending, here = [] ∧
    w.pending = [slash] :: pending ∧ Fewer all pending

theorem Beside.of_ne (h : Beside here all w) (hpending : w.pending = part :: pending)
    (hpart : part ≠ [slash]) :
    here = w.resolved ∧ Fewer all (part :: pending) := by
  obtain ⟨hhere, hfewer⟩ | ⟨other, -, hslash, -⟩ := h
  · exact ⟨hhere, hpending ▸ hfewer⟩
  · rw [hpending] at hslash
    exact absurd (List.cons.inj hslash).1 hpart

theorem Fewer.not_slash (h : Fewer all ([slash] :: pending)) : False := by
  generalize hnames : [slash] :: pending = fewer at h
  induction h with
  | nil => cases hnames
  | name hpart _ _ => exact hpart (List.cons.inj hnames).1.symm
  | dot _ ih => exact ih hnames

/-- **The kernel goes along with a round.** -/
theorem Advance.beside {later : Tree} (h : Advance forbidden w w') (hw : Between base forbidden w)
    (hwithin : w'.tree.Within later) (hbeside : Beside here all w)
    (hpath : later.inRoot links here all = .ok path) :
    ∃ links' here' all', Beside here' all' w' ∧ later.inRoot links' here' all' = .ok path := by
  have hinside := h.within.trans hwithin
  have hdirectory : later.IsDirectory w.resolved :=
    hinside.isDirectory (hw.isDirectory (List.prefix_refl _))
  cases h with
  | @root pending hpending =>
    obtain ⟨-, hfewer⟩ | ⟨other, rfl, hslash, hfewer⟩ := hbeside
    · rw [hpending] at hfewer
      exact hfewer.not_slash.elim
    · rw [hpending] at hslash
      obtain ⟨-, rfl⟩ := List.cons.inj hslash
      exact ⟨links, [], all, .inl ⟨rfl, hfewer⟩, hpath⟩
  | dot hpending =>
    obtain ⟨rfl, hfewer⟩ := hbeside.of_ne hpending (by decide)
    obtain ⟨rest, hrest, hpath⟩ := hfewer.inRoot hpath
    exact ⟨links, _, rest, .inl ⟨rfl, hrest⟩, inRoot_of_dot hpath⟩
  | parent hpending _ =>
    obtain ⟨rfl, hfewer⟩ := hbeside.of_ne hpending (by decide)
    obtain ⟨rest, hrest, hpath⟩ := hfewer.inRoot hpath
    rw [Tree.inRoot_dotdot hdirectory] at hpath
    exact ⟨links, _, rest, .inl ⟨rfl, hrest⟩, hpath⟩
  | @follow part pending ino target w₁ hpending hpart hopened _ =>
    obtain ⟨rfl, hfewer⟩ := hbeside.of_ne hpending hpart.1
    obtain ⟨rest, hrest, hpath⟩ := hfewer.inRoot hpath
    have hlink : later.get? (w.resolved ++ [part]) = some ⟨ino, .symlink target⟩ :=
      hwithin _ _ hopened.get?
    rw [Tree.inRoot_symlink hpart.2.1 hpart.2.2 hlink] at hpath
    split at hpath
    · cases hpath
    refine ⟨_, _, _, ?_, hpath⟩
    have hnames := (fewer_pathParts target).append hrest
    by_cases habsolute : isAbsolute target = true
    · refine .inr ⟨pathParts target ++ pending, by rw [if_pos habsolute], ?_, hnames⟩
      show pathIter target ++ pending = _
      rw [pathIter, if_pos habsolute]
      rfl
    · refine .inl ⟨by rw [if_neg habsolute]; exact hopened.resolved.symm, ?_⟩
      show Fewer _ (pathIter target ++ pending)
      rw [pathIter, if_neg habsolute]
      exact hnames
  | @enter part pending ino w₁ hpending _ hpart hopened _ =>
    obtain ⟨rfl, hfewer⟩ := hbeside.of_ne hpending hpart.1
    obtain ⟨rest, hrest, hpath⟩ := hfewer.inRoot hpath
    have hnode := hwithin _ _ hopened.get?
    rw [Tree.inRoot_enter hpart.2.1 hpart.2.2 hnode (fun _ heq => by cases heq)] at hpath
    exact ⟨links, _, rest, .inl ⟨by rw [hopened.resolved], hrest⟩, hpath⟩

end

/-! Runs. -/

section
variable {n : Nat} {r : Except ResolverError Selected}

theorem Ends.within {selected : Selected} (h : Ends k forbidden left w w' selected) :
    w.tree.Within w'.tree := by
  cases h with
  | file _ _ hopened _ _ => exact hopened.within

theorem Ends.built {selected : Selected} (h : Ends k forbidden left w w' selected)
    (hw : Built base w.scaffold w.tree) :
    Built base w'.scaffold w'.tree := by
  cases h with
  | file _ _ hopened _ _ => exact hopened.built hw

/-- **Whatever the rounds do is on record.** -/
theorem rounds_built (hsettled : Settled k) (hw : Between base forbidden w)
    (h : rounds k creates forbidden n w = (w', r)) : Built base w'.scaffold w'.tree := by
  induction n generalizing w with
  | zero =>
    cases h
    exact hw.built
  | succ n ih =>
    rw [rounds] at h
    split at h
    · rename_i w₁ result hround
      cases h
      obtain ⟨hnone, -⟩ | ⟨e, -, hbuilt⟩ | ⟨selected, -, hends⟩ := round_cases hsettled hw hround
      · cases hnone
      · exact hbuilt
      · exact hends.built hw.built
    · rename_i w₁ hround
      obtain ⟨-, hadvance⟩ | ⟨e, hsome, -⟩ | ⟨selected, hsome, -⟩ := round_cases hsettled hw hround
      · exact ih (hadvance.between hw) h
      · cases hsome
      · cases hsome

/-- **The kernel goes along with a run**, up to its last round. -/
theorem rounds_path (hsettled : Settled k) (hw : Between base forbidden w) {selected : Selected}
    (h : rounds k creates forbidden n w = (w', .ok selected)) :
    w.tree.Within w'.tree ∧ ∃ left w₀, Between base forbidden w₀ ∧
      Ends k forbidden left w₀ w' selected ∧
      ∀ links here all path, Beside here all w → w'.tree.inRoot links here all = .ok path →
        ∃ links' here' all', Beside here' all' w₀ ∧ w'.tree.inRoot links' here' all' =
          .ok path := by
  induction n generalizing w with
  | zero => cases h
  | succ n ih =>
    rw [rounds] at h
    split at h
    · rename_i w₁ result hround
      obtain ⟨rfl, rfl⟩ := Prod.mk.inj h
      obtain ⟨hnone, -⟩ | ⟨e, hsome, -⟩ | ⟨found, hsome, hends⟩ := round_cases hsettled hw hround
      · cases hnone
      · cases hsome
      · cases hsome
        exact ⟨hends.within, n, w, hw, hends, fun links here all path hbeside hpath =>
          ⟨links, here, all, hbeside, hpath⟩⟩
    · rename_i w₁ hround
      obtain ⟨-, hadvance⟩ | ⟨e, hsome, -⟩ | ⟨found, hsome, -⟩ := round_cases hsettled hw hround
      · obtain ⟨hwithin, left, w₀, hw₀, hends, hgoes⟩ := ih (hadvance.between hw) h
        refine ⟨hadvance.within.trans hwithin, left, w₀, hw₀, hends,
          fun links here all path hbeside hpath => ?_⟩
        obtain ⟨links', here', all', hbeside', hpath'⟩ := hadvance.beside hw hwithin hbeside hpath
        exact hgoes links' here' all' path hbeside' hpath'
      · cases hsome
      · cases hsome

/-! Without creation. -/

/-- Nothing is created. -/
def Same (w w' : Walk) : Prop := w'.tree = w.tree ∧ w'.scaffold = w.scaffold

theorem enter_same : Same w (enter k forbidden left w object).1 := by
  rw [enter]
  split
  · exact ⟨rfl, rfl⟩
  · split
    · split
      · exact ⟨rfl, rfl⟩
      · exact ⟨rfl, rfl⟩
    · split
      · exact ⟨rfl, rfl⟩
      · exact ⟨rfl, rfl⟩

theorem inspect_same {pending : List Bytes} :
    Same w (inspect k forbidden left w part pending object).1 := by
  rw [inspect]
  split
  · exact ⟨rfl, rfl⟩
  · split
    · split
      · exact ⟨rfl, rfl⟩
      · split
        · exact ⟨rfl, rfl⟩
        · exact ⟨rfl, rfl⟩
    · exact enter_same

theorem openNode_existing {parent : List Bytes} :
    (openNode k false left w parent part directory).2 = w := by
  rw [openNode]
  split
  · rfl
  · split
    · rfl
    · rfl

theorem visit_same {pending : List Bytes} : Same w
    (visit k false forbidden left w part pending).1 := by
  rw [visit]
  split
  · exact ⟨rfl, rfl⟩
  split
  · exact ⟨rfl, rfl⟩
  rename_i parent _ _
  have hopened := @openNode_existing k left w part (decide (pending ≠ [])) parent
  split
  · rename_i hnode
    rw [hnode] at hopened
    exact hopened ▸ ⟨rfl, rfl⟩
  · rename_i hnode
    rw [hnode] at hopened
    obtain rfl := hopened
    exact inspect_same

theorem round_same : Same w (round k false forbidden left w).1 := by
  rw [round]
  split
  · exact ⟨rfl, rfl⟩
  split
  · exact ⟨rfl, rfl⟩
  split
  · exact ⟨rfl, rfl⟩
  split
  · split
    · exact ⟨rfl, rfl⟩
    · exact ⟨rfl, rfl⟩
  · exact visit_same

theorem rounds_same (h : rounds k false forbidden n w = (w', r)) : Same w w' := by
  induction n generalizing w with
  | zero =>
    cases h
    exact ⟨rfl, rfl⟩
  | succ n ih =>
    have hsame := @round_same k forbidden n w
    rw [rounds] at h
    split at h
    · rename_i hround
      rw [hround] at hsame
      cases h
      exact hsame
    · rename_i hround
      rw [hround] at hsame
      obtain ⟨htree, hscaffold⟩ := ih h
      exact ⟨htree.trans hsame.1, hscaffold.trans hsame.2⟩

theorem walk_same (h : walk k false t = (w, r)) : w.tree = t ∧ w.scaffold = [] := by
  rw [walk] at h
  split at h
  · cases h
    exact ⟨rfl, rfl⟩
  split at h
  · cases h
    exact ⟨rfl, rfl⟩
  split at h
  · cases h
    exact ⟨rfl, rfl⟩
  · exact rounds_same h

/-- **`existing` never changes the tree.** -/
theorem existing_unchanged : (existing k t).2 = t := by
  rw [existing, select]
  split
  · rfl
  split
  · rename_i hwalk
    exact (walk_same hwalk).1
  · rename_i hwalk
    obtain ⟨htree, hscaffold⟩ := walk_same hwalk
    rw [htree, hscaffold]
    rfl

end

/-! Selection. -/

/-- Where the runtime's names lead: to directories inside the root. -/
def RuntimeDirectories (t : Tree) : Prop :=
  ∀ name ∈ runtimeNames, ∃ path ino, t.openDirectory [name] = .ok (path, ino) ∧ ino ≠ t.root.ino

/-- What a successful selection has made of a tree. -/
structure Injected (k : Kernel) (before : Tree) (target : ResolverTarget) (after : Tree) :
    Prop where
  kept : before.Within after
  /-- New are directories and an empty file. -/
  made : ∀ path object, after.get? path = some object → before.get? path = none →
    object.kind = .directory ∨ object.kind = .file []
  single : ∀ path path' ino ino', after.get? path = some ⟨ino, .file []⟩ → before.get? path = none →
    after.get? path' = some ⟨ino', .file []⟩ → before.get? path' = none → path = path'
  /-- New directories hold only what is new. -/
  inside : ∀ path name object, before.get? path = none → after.get? (path ++ [name]) = some object →
    before.get? (path ++ [name]) = none
  regular : ∃ ino content, after.get? target.path = some ⟨ino, .file content⟩
  denoted : target.target = target.path ∧ ∃ n, Posix.Reaches names after.posix
    ⟨[], resolvConf, 0⟩ ⟨target.path, [], n⟩
  linkFree : ∀ q, q <+: target.path → q ≠ target.path → after.IsDirectory q
  runtime : ∀ name ∈ target.path.head?, name ∉ runtimeNames
  /-- No object on the way is one the runtime's names denote. -/
  apart : ∀ q, q <+: target.path → ∀ name ∈ runtimeNames, ∀ path ino, after.openDirectory [name] =
    .ok (path, ino) → (after.get? q).map Object.ino ≠ some ino
  released : target.release k after = (.ok (), before)

theorem Tree.openDirectory_within {t' : Tree} {all path : List Bytes} {ino : Nat}
    (hwithin : t.Within t') (h : t.openDirectory all = .ok (path, ino)) :
    t'.openDirectory all = .ok (path, ino) := by
  rw [Tree.openDirectory] at h ⊢
  split at h
  · cases h
  · rename_i found hfound
    rw [Tree.inRoot_within hwithin hfound]
    dsimp only
    split at h
    · rename_i other hother
      cases h
      rw [hwithin _ _ hother]
    · cases h

theorem runtimeTargets_mem {all : List Bytes} {forbidden : List Nat}
    (h : runtimeTargets k t all = .ok forbidden) {name : Bytes} (hname : name ∈ all)
    {path : List Bytes} {ino : Nat} (hopen : t.openDirectory [name] = .ok (path, ino)) :
    ino ∈ forbidden := by
  induction all generalizing forbidden with
  | nil => cases hname
  | cons first rest ih =>
    rw [runtimeTargets] at h
    split at h
    · cases h
    split at h
    · rename_i other hfirst
      obtain ⟨inos, hinos, rfl⟩ := except_map_eq_ok.mp h
      obtain rfl | hname := List.mem_cons.mp hname
      · rw [hopen] at hfirst
        cases hfirst
        exact List.mem_cons_self
      · exact List.mem_cons_of_mem _ (ih hinos hname)
    · rename_i hfirst
      obtain rfl | hname := List.mem_cons.mp hname
      · rw [hopen] at hfirst
        cases hfirst
      · exact ih h hname
    · cases h

theorem final_eq_ok {left : Nat} {w : Walk} {object : Object} {selected : Selected}
    (h : final k left w object = .ok selected) :
    w.tree.inRoot 0 [] resolvConf = .ok selected.target ∧ selected.path = w.resolved := by
  rw [final] at h
  split at h
  · cases h
  split at h
  · cases h
  · rename_i found hfound
    split at h
    · cases h
      exact ⟨hfound, rfl⟩
    · cases h

theorem start_between {forbidden : List Nat} (hroot : base.root.kind = .directory) :
    Between base forbidden ⟨base, [], 0, [], resolvConf⟩ where
  built := .base
  root := hroot
  ordinary name hname := absurd hname List.not_mem_nil
  directories q hq hne := absurd (List.prefix_nil.mp hq) hne
  runtime name hname := by cases hname
  made e he := absurd he List.not_mem_nil

/-- A run of the walk: it fails at once, or goes through its rounds. -/
theorem walk_cases {creates : Bool} {w : Walk} {r : Except ResolverError Selected}
    (h : walk k creates base = (w, r)) :
    (w.scaffold = [] ∧ w.tree = base ∧ ∃ e, r = .error e) ∨
      ∃ forbidden, runtimeTargets k base runtimeNames = .ok forbidden ∧
        base.root.kind = .directory ∧
        rounds k creates forbidden 4096 ⟨base, [], 0, [], resolvConf⟩ = (w, r) := by
  rw [walk] at h
  split at h
  · cases h
    exact .inl ⟨rfl, rfl, _, rfl⟩
  split at h
  · cases h
    exact .inl ⟨rfl, rfl, _, rfl⟩
  rename_i hroot
  split at h
  · cases h
    exact .inl ⟨rfl, rfl, _, rfl⟩
  · rename_i forbidden hforbidden
    exact .inr ⟨forbidden, hforbidden, Decidable.of_not_not hroot, h⟩

theorem walk_built (hsettled : Settled k) {creates : Bool} {w : Walk}
    {r : Except ResolverError Selected} (h : walk k creates base = (w, r)) :
    Built base w.scaffold w.tree := by
  obtain ⟨hscaffold, htree, -⟩ | ⟨forbidden, -, hroot, hrounds⟩ := walk_cases h
  · rw [hscaffold, htree]
    exact .base
  · exact rounds_built hsettled (start_between hroot) hrounds

/-- **A selection that fails has undone what it did.** -/
theorem select_fails (hsettled : Settled k) {creates : Bool} {e : ResolverError} {after : Tree}
    (h : select k base creates = (.error e, after)) : after = base := by
  rw [select] at h
  split at h
  · cases h
    rfl
  split at h
  · cases h
  · rename_i hwalk
    rw [(walk_built hsettled hwalk).release hsettled] at h
    cases h
    rfl

/-- What was made by the time of the last round: directories, and perhaps the file. -/
theorem Ends.made {forbidden : List Nat} {left : Nat} {w w' : Walk} {selected : Selected}
    (h : Ends k forbidden left w w' selected) (hw : Between base forbidden w) :
    ∀ e ∈ w'.scaffold, e.kind = .directory ∨ w'.scaffold.head? = some e := by
  cases h with
  | file _ _ hopened _ _ =>
    intro e he
    obtain hsame | ⟨new, hnew, -⟩ := hopened.record
    · exact .inl (hw.made e (hsame ▸ he))
    · have he : e ∈ new :: w.scaffold := hnew ▸ he
      obtain rfl | he := List.mem_cons.mp he
      · exact .inr (by show List.head? _ = _; rw [hnew]; rfl)
      · exact .inl (hw.made e he)

theorem resolvConf_fewer : Fewer resolvConf resolvConf := .name (by decide) (.name (by decide) .nil)

/-- **Where the rounds went is where the kernel ends.** -/
theorem Ends.path {forbidden : List Nat} {left : Nat} {w w' : Walk} {selected : Selected}
    {links : Nat} {here all path : List Bytes} (h : Ends k forbidden left w w' selected)
    (hbeside : Beside here all w) (hpath : w'.tree.inRoot links here all = .ok path) :
    path = w'.resolved := by
  cases h with
  | @file part ino content w₁ _ hpending hpart hopened _ _ =>
    obtain ⟨rfl, hfewer⟩ := hbeside.of_ne hpending hpart.1
    obtain ⟨rest, hrest, hpath⟩ := hfewer.inRoot hpath
    have hnode : w₁.tree.get? (w.resolved ++ [part]) = some ⟨ino, .file content⟩ := hopened.get?
    rw [Tree.inRoot_enter hpart.2.1 hpart.2.2 hnode (fun _ heq => by cases heq)] at hpath
    rw [hrest.inRoot_end hpath]
    show _ = w₁.resolved ++ [part]
    rw [hopened.resolved]

/-- **A selection that succeeds** has injected the target, and can be released. -/
theorem select_injects (hsettled : Settled k) (hruntime : RuntimeDirectories base) {creates : Bool}
    {target : ResolverTarget} {after : Tree} (h : select k base creates = (.ok target, after)) :
    Injected k base target after := by
  rw [select] at h
  split at h
  · cases h
  split at h
  swap
  · split at h
    · cases h
    · cases h
  rename_i w selected hwalk
  obtain ⟨htarget, rfl⟩ := Prod.mk.inj h
  obtain rfl := Except.ok.inj htarget
  have hbuilt := walk_built hsettled hwalk
  obtain ⟨-, -, e, he⟩ | ⟨forbidden, hforbidden, hroot, hrounds⟩ := walk_cases hwalk
  · cases he
  obtain ⟨-, left, w₀, hw₀, hends, hgoes⟩ := rounds_path hsettled (start_between hroot) hrounds
  have hbeside : Beside [] resolvConf ⟨base, [], 0, [], resolvConf⟩ := .inl ⟨rfl, resolvConf_fewer⟩
  have hwithin := hends.within
  have hmade := hends.made hw₀
  -- the kernel's last resolution ends where the rounds did
  have hfound : w.tree.inRoot 0 [] resolvConf = .ok selected.target ∧
      selected.path = w.resolved := by
    cases hends with
    | file _ _ _ _ hfinal => exact final_eq_ok hfinal
  obtain ⟨hkernel, hpath⟩ := hfound
  obtain ⟨links, here, all, hbeside', hkernel'⟩ := hgoes _ _ _ _ hbeside hkernel
  have htarget : selected.target = w.resolved := hends.path hbeside' hkernel'
  have hfile : ∃ part ino content, w.resolved = w₀.resolved ++ [part] ∧ w.tree.get? w.resolved =
      some ⟨ino, .file content⟩ ∧ Clear forbidden w.resolved ino := by
    cases hends with
    | @file part ino content w₁ _ _ _ hopened hclear _ =>
      have hresolved := hopened.resolved
      refine ⟨part, ino, content, congrArg (· ++ [part]) hresolved, ?_, ?_⟩
      · show w₁.tree.get? (w₁.resolved ++ [part]) = _
        rw [hresolved]
        exact hopened.get?
      · show Clear forbidden (w₁.resolved ++ [part]) ino
        rw [hresolved]
        exact hclear
  obtain ⟨part, ino, content, hresolved, hget, hclear⟩ := hfile
  refine ⟨hbuilt.within, ?_, ?_, ?_, ⟨ino, content, hpath ▸ hget⟩, ⟨?_, ?_⟩, ?_,
    hpath ▸ hclear.1, ?_, ?_⟩
  · intro path object hobject hnew
    obtain ⟨e, -, -, hkind⟩ := hbuilt.recorded hobject hnew
    rw [hkind]
    cases e.kind with
    | directory => exact .inl rfl
    | file => exact .inr rfl
  · intro path path' ino ino' hfile hnew hfile' hnew'
    have hlast : ∀ q i, w.tree.get? q = some ⟨i, .file []⟩ → base.get? q = none →
        ∃ e, w.scaffold.head? = some e ∧ q = e.parent ++ [e.name] := by
      intro q i hq hnone
      obtain ⟨e, he, heq, hkind⟩ := hbuilt.recorded hq hnone
      obtain hdirectory | hhead := hmade e he
      · rw [hdirectory] at hkind
        cases hkind
      · exact ⟨e, hhead, heq⟩
    obtain ⟨e, he, rfl⟩ := hlast path ino hfile hnew
    obtain ⟨e', he', rfl⟩ := hlast path' ino' hfile' hnew'
    rw [he, Option.some.injEq] at he'
    rw [he']
  · intro path name object hnew _
    by_contra hsome
    obtain ⟨found, hfound⟩ := Option.ne_none_iff_exists'.mp hsome
    have hdirectory := Tree.isDirectory_parent hfound
    rw [Tree.IsDirectory, hnew] at hdirectory
    cases hdirectory
  · exact htarget.trans hpath.symm
  · rw [htarget, ← hpath] at hkernel
    exact Tree.inRoot_reaches hkernel
  · intro q hq hne
    show w.tree.IsDirectory q
    rw [hpath, hresolved] at hq hne
    obtain heq | hq := List.prefix_concat_iff.mp hq
    · exact absurd heq hne
    · exact hwithin.isDirectory (hw₀.isDirectory hq)
  · intro q hq name hname path other hopen
    -- the name's directory is the one looked up at first
    obtain ⟨place, number, hbase, hinside⟩ := hruntime name hname
    have hopened := Tree.openDirectory_within hbuilt.within hbase
    rw [hopened] at hopen
    obtain ⟨rfl, rfl⟩ := Prod.mk.inj (Except.ok.inj hopen)
    have hmem := runtimeTargets_mem hforbidden hname hbase
    have hpre : q <+: w.resolved := hpath ▸ hq
    show (w.tree.get? q).map Object.ino ≠ some number
    by_cases hnil : q = []
    · rw [hnil, Tree.get?, if_pos rfl, hbuilt.root]
      exact fun heq => hinside (Option.some.inj heq).symm
    · rw [hresolved] at hpre
      obtain rfl | hpre := List.prefix_concat_iff.mp hpre
      · rw [← hresolved, hget]
        intro heq
        have hsame : ino = number := Option.some.inj heq
        exact hclear.2 (hsame ▸ hmem)
      · obtain ⟨i, hi, hfree⟩ := hw₀.directories q hpre hnil
        rw [hwithin _ _ hi]
        intro heq
        have hsame : i = number := Option.some.inj heq
        exact hfree (hsame ▸ hmem)
  · exact hbuilt.release hsettled

/-- **Resolver injection restores the image**, with or without creation. -/
theorem injection_restores (k : Kernel) (before : Tree) (hsettled : Settled k)
    (hruntime : RuntimeDirectories before) :
    (∀ creates e after, select k before creates = (.error e, after) → after = before) ∧
      (∀ creates target after, select k before creates = (.ok target, after) →
        Injected k before target after) ∧
      (existing k before).2 = before :=
  ⟨fun _ _ _ h => select_fails hsettled h, fun _ _ _ h => select_injects hsettled hruntime h,
    existing_unchanged⟩

end

/-! A root with the runtime's three directories, and a link at "etc/resolv.conf". -/

def linkedEntries : OrdMap (List Bytes) Object :=
  ((((OrdMap.empty.insert [[100, 101, 118]] ⟨2, .directory⟩).insert [[112, 114, 111, 99]] ⟨3,
    .directory⟩).insert
    [[115, 121, 115]] ⟨4, .directory⟩).insert [[101, 116, 99]] ⟨5, .directory⟩).insert
    -- to "../run/r"
    [[101, 116, 99], [114, 101, 115, 111, 108, 118, 46, 99, 111, 110, 102]]
    ⟨6, .symlink [46, 46, 47, 114, 117, 110, 47, 114]⟩

def linkedRoot : Tree where
  root := ⟨1, .directory⟩
  entries := linkedEntries
  parents path name hsome := by
    have hkeys : ∀ key ∈ linkedEntries.keys,
        (if key.dropLast = [] then some ⟨1, .directory⟩
            else linkedEntries.get? key.dropLast).map Object.kind = some .directory := by
      decide
    have hparent := hkeys _ (OrdMap.mem_keys.mpr (Option.isSome_iff_ne_none.mpr hsome))
    rwa [List.dropLast_concat] at hparent

/-- Nothing fails of itself, and numbers are taken above all others. -/
def steadyKernel : Kernel where
  fault _ _ := false
  alloc t := t.root.ino + (t.entries.entries.map fun e => e.2.ino).sum + 1
  fresh t path object h := by
    rw [Tree.get?] at h
    split at h
    · obtain rfl := Option.some.inj h
      omega
    · have hmem := List.mem_map_of_mem (f := fun e : List Bytes × Object => e.2.ino)
        (OrdMap.get?_eq_some.mp h)
      have hle := List.le_sum_of_mem hmem
      dsimp only at hle
      omega

theorem linkedRoot_runtime : RuntimeDirectories linkedRoot := by
  have hopen : ∀ name ino, name ≠ dotName → name ≠ dotdotName → linkedRoot.get? [name] =
      some ⟨ino, .directory⟩ → linkedRoot.openDirectory [name] = .ok ([name], ino) := by
    intro name ino hdot hdotdot hget
    rw [Tree.openDirectory, Tree.inRoot_enter hdot hdotdot hget (fun _ heq => by cases heq),
      Tree.inRoot_nil]
    dsimp only [List.nil_append]
    rw [hget]
  intro name hname
  simp only [runtimeNames, List.mem_cons, List.not_mem_nil, or_false] at hname
  obtain rfl | rfl | rfl := hname
  · exact ⟨_, 2, hopen _ 2 (by decide) (by decide) (by decide), by decide⟩
  · exact ⟨_, 3, hopen _ 3 (by decide) (by decide) (by decide), by decide⟩
  · exact ⟨_, 4, hopen _ 4 (by decide) (by decide) (by decide), by decide⟩

theorem linkedRoot_restored :
    (∀ creates e after, select steadyKernel linkedRoot creates = (.error e, after) →
      after = linkedRoot) ∧
      (∀ creates target after, select steadyKernel linkedRoot creates = (.ok target, after) →
        Injected steadyKernel linkedRoot target after) ∧
      (existing steadyKernel linkedRoot).2 = linkedRoot :=
  injection_restores steadyKernel linkedRoot (fun _ => ⟨rfl, rfl⟩) linkedRoot_runtime

end Conglobate.Network
