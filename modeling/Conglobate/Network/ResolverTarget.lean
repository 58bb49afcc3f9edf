import Conglobate.Copy.Resolve

/- The resolver file's target in a command root (`network/resolver_target.rs`).

   A command root is a tree of objects on one file system, so that inode numbers tell
   them apart. "etc/resolv.conf" is walked name by name, and what is missing on the way
   is created; the record of it is undone when the walk fails, or by `release`. A
   system call may fail at any time (`Kernel.fault`), and then has done nothing. Nobody
   else changes the tree, so a descriptor's object stays at its path.

   Correspondence (Rust ↔ Lean):
     `openat2` with `IN_ROOT`                ↔ `Tree.inRoot`, `Tree.openDirectory`
     `mkdirat`, `openat` with `O_EXCL`       ↔ `Tree.create`
     `unlinkat`                              ↔ `Tree.unlink`
     `ResolverScaffold`, its last entry first ↔ `List CreatedEntry`
     `CreatedEntry::remove`, `ResolverScaffold::release`, `create` ↔ `CreatedEntry.remove`, `release`, `create`
     `ResolverTarget::walk`, one of its rounds ↔ `walk`, `round`
     `select`, `resolve`, `existing`         ↔ `select`, `resolve`, `existing` -/
namespace Conglobate.Network

open Copy

inductive Kind where
  | directory
  | file (content : Bytes)
  | symlink (target : Bytes)
  | special
  deriving DecidableEq

structure Object where
  ino : Nat
  kind : Kind
  deriving DecidableEq

/-- What is below a path is below a directory. -/
structure Tree where
  root : Object
  entries : OrdMap (List Bytes) Object
  parents : ∀ path name, entries.get? (path ++ [name]) ≠ none →
    (if path = [] then some root else entries.get? path).map Object.kind = some .directory

inductive Errno where
  | noent
  | other
  deriving DecidableEq

namespace Tree

def get? (t : Tree) (path : List Bytes) : Option Object :=
  if path = [] then some t.root else t.entries.get? path

def IsDirectory (t : Tree) (path : List Bytes) :
    Prop := (t.get? path).map Object.kind = some .directory

instance (t : Tree) (path : List Bytes) : Decidable (t.IsDirectory path) :=
  inferInstanceAs (Decidable (_ = _))

/-- The kernel's walk from a path, which the root's parent does not leave. -/
def inRoot (t : Tree) (links : Nat) (here : List Bytes) : List Bytes → Except Errno (List Bytes)
  | [] => .ok here
  | name :: rest =>
    if ¬ t.IsDirectory here then .error .other
    else if name = dotName then inRoot t links here rest
    else if name = dotdotName then inRoot t links here.dropLast rest
    else
      match t.get? (here ++ [name]) with
      | none => .error .noent
      | some ⟨_, .symlink target⟩ =>
        if 40 < links + 1 then .error .other
        else inRoot t (links + 1) (if isAbsolute target then
          [] else here) (posixParts target ++ rest)
      | some _ => inRoot t links (here ++ [name]) rest
termination_by names => (41 - links, names.length)
decreasing_by
  · exact Prod.Lex.right _ (Nat.lt_succ_self _)
  · exact Prod.Lex.right _ (Nat.lt_succ_self _)
  · exact Prod.Lex.left _ _ (by omega)
  · exact Prod.Lex.right _ (Nat.lt_succ_self _)

/-- With `O_DIRECTORY`: where the directory is, and its inode. -/
def openDirectory (t : Tree) (names : List Bytes) : Except Errno (List Bytes × Nat) :=
  match t.inRoot 0 [] names with
  | .error e => .error e
  | .ok path =>
    match t.get? path with
    | some ⟨ino, .directory⟩ => .ok (path, ino)
    | _ => .error .other

/-- A new object, where there is none in a directory. -/
def create (t : Tree) (parent : List Bytes) (name : Bytes) (object : Object) : Except Errno Tree :=
  if hfree : t.IsDirectory parent ∧ t.get? (parent ++ [name]) = none then
    .ok {
      root := t.root
      entries := t.entries.insert (parent ++ [name]) object
      parents := by
        obtain ⟨hparent, hnone⟩ := hfree
        rw [get?, if_neg (by simp)] at hnone
        intro path child hsome
        rw [OrdMap.get?_insert] at hsome ⊢
        have hbelow : path = parent ++ [name] → t.entries.get? (path ++ [child]) = none := by
          rintro rfl
          by_contra hchild
          have hdirectory := t.parents _ _ hchild
          rw [if_neg (by simp), hnone] at hdirectory
          cases hdirectory
        split at hsome
        · rename_i heq
          obtain ⟨rfl, -⟩ := List.append_inj' heq rfl
          have hself : path ≠ path ++ [name] := fun heq => by simpa using congrArg List.length heq
          rw [if_neg hself]
          exact hparent
        · have hne : path ≠ parent ++ [name] := fun heq => hsome (hbelow heq)
          rw [if_neg hne]
          exact t.parents _ _ hsome }
  else .error .other

def Childless (t : Tree) (path : List Bytes) :
    Prop := ∀ e ∈ t.entries.entries, e.1 = [] ∨ e.1.dropLast ≠ path

instance (t : Tree) (path : List Bytes) : Decidable (t.Childless path) :=
  inferInstanceAs (Decidable (∀ e ∈ _, _))

/-- With `AT_REMOVEDIR` an empty directory, otherwise anything else. -/
def unlink (t : Tree) (parent : List Bytes) (name : Bytes) (directory : Bool) : Except Errno Tree :=
  match t.get? (parent ++ [name]) with
  | none => .error .noent
  | some object =>
    if hfree : (directory = true ↔ object.kind = .directory) ∧ t.Childless (parent ++ [name]) then
      .ok {
        root := t.root
        entries := t.entries.erase (parent ++ [name])
        parents := by
          intro path child hsome
          rw [OrdMap.get?_erase] at hsome ⊢
          split at hsome
          · exact absurd rfl hsome
          · have hne : path ≠ parent ++ [name] := by
              rintro rfl
              obtain ⟨object, hobject⟩ := Option.ne_none_iff_exists'.mp hsome
              obtain hnil | hparent := hfree.2 _ (OrdMap.get?_eq_some.mp hobject)
              · simp at hnil
              · simp at hparent
            rw [if_neg hne]
            exact t.parents _ _ hsome }
    else .error .other

end Tree

inductive Call where
  | mountNamespace
  | rootMetadata
  | runtime (name : Bytes)
  | parent
  | node
  | reserve
  | create
  /-- The directory just made, opened. -/
  | pin
  | clone
  | metadata
  | readlink
  | final
  /-- Any of the calls that remove an entry. -/
  | remove

structure Kernel where
  /-- Whether a call fails for reasons of its own, by the rounds (or entries) left. -/
  fault : Nat → Call → Bool
  alloc : Tree → Nat
  fresh : ∀ t path object, t.get? path = some object → object.ino ≠ alloc t

inductive ResolverError where
  | io (errno : Errno)
  | other (text : String)
  /-- "resolver scaffold cleanup: {cleanup}" -/
  | cleanup (source cleanup : ResolverError)

inductive CreatedNode where
  | pinned (ino : Nat)
  | unpinnedDirectory

inductive CreatedKind where
  | directory
  | file
  deriving DecidableEq

structure CreatedEntry where
  parent : List Bytes
  node : CreatedNode
  name : Bytes
  kind : CreatedKind

def CreatedEntry.remove (k : Kernel) (left : Nat) (entry : CreatedEntry) (t : Tree) :
    Except ResolverError Tree :=
  if k.fault left .remove then .error (.io .other)
  else
    match t.get? (entry.parent ++ [entry.name]) with
    | none => .error (.io .noent)
    | some actual =>
      match entry.node with
      | .unpinnedDirectory =>
        .error (.other "cannot safely remove unpinned resolver directory; discard build layer")
      | .pinned ino =>
        if actual.ino ≠ ino then .error (.other "resolver scaffold entry was replaced")
        else (t.unlink entry.parent entry.name (entry.kind = .directory)).mapError .io

/-- `ResolverScaffold::release`, and the tree it leaves. -/
def release (k : Kernel) : List CreatedEntry → Tree → Except ResolverError Unit × Tree
  | [], t => (.ok (), t)
  | entry :: rest, t =>
    match entry.remove k rest.length t with
    | .error e => (.error e, t)
    | .ok t' => release k rest t'

structure Walk where
  tree : Tree
  scaffold : List CreatedEntry
  links : Nat
  resolved : List Bytes
  pending : List Bytes

/-- `ResolverScaffold::create`. -/
def create (k : Kernel) (left : Nat) (w : Walk) (parent : List Bytes) (name : Bytes)
    (directory : Bool) :
    Except ResolverError Object × Walk :=
  let object : Object := ⟨k.alloc w.tree, if directory then .directory else .file []⟩
  if k.fault left .reserve || k.fault left .create then (.error (.io .other), w)
  else
    match w.tree.create parent name object with
    | .error e => (.error (.io e), w)
    | .ok tree =>
      if directory && k.fault left .pin then
        (.error (.io .other), { w with tree := tree, scaffold :=
          ⟨parent, .unpinnedDirectory, name, .directory⟩ :: w.scaffold })
      else
        (if k.fault left .clone then .error (.io .other) else .ok object,
          { w with
            tree := tree
            scaffold := ⟨parent, .pinned object.ino, name, if directory then .directory
              else .file⟩ :: w.scaffold })

/-- The object of a name, or a new one. -/
def openNode (k : Kernel) (creates : Bool) (left : Nat) (w : Walk) (parent : List Bytes)
    (part : Bytes) (directory : Bool) :
    Except ResolverError Object × Walk :=
  if k.fault left .node then (.error (.io .other), w)
  else
    match w.tree.get? (parent ++ [part]) with
    | some object => (.ok object, w)
    | none => if creates then create k left w parent part directory else (.error (.io .noent), w)

/-- "dev", "proc" and "sys". -/
def runtimeNames : List Bytes := [[100, 101, 118], [112, 114, 111, 99], [115, 121, 115]]

/-- "etc" and "resolv.conf". -/
def resolvConf : List Bytes :=
  [[101, 116, 99], [114, 101, 115, 111, 108, 118, 46, 99, 111, 110, 102]]

structure Selected where
  /-- Where the kernel found the target. -/
  target : List Bytes
  path : List Bytes

/-- The kernel's own resolution has the last word. -/
def final (k : Kernel) (left : Nat) (w : Walk) (object : Object) : Except ResolverError Selected :=
  if k.fault left .final then .error (.io .other)
  else
    match w.tree.inRoot 0 [] resolvConf with
    | .error e => .error (.io e)
    | .ok selected =>
      if (w.tree.get? selected).map Object.ino = some object.ino then .ok ⟨selected, w.resolved⟩
      else .error (.other "resolver target changed during selection")

/-- What a round does with an object that is no link. -/
def enter (k : Kernel) (forbidden : List Nat) (left : Nat) (w : Walk) (object : Object) :
    Walk × Option (Except ResolverError Selected) :=
  if w.resolved.head?.any (fun name => runtimeNames.contains name) ||
    forbidden.contains object.ino then
    (w, some (.error (.other "resolver target is inside a command runtime mount")))
  else if w.pending = [] then
    match object.kind with
    | .file _ => (w, some (final k left w object))
    | _ => (w, some (.error (.other "resolver target must be a regular file")))
  else if object.kind ≠ .directory then
    (w, some (.error (.other "resolver ancestor is not a directory")))
  else (w, none)

def inspect (k : Kernel) (forbidden : List Nat) (left : Nat) (w : Walk) (part : Bytes)
    (pending : List Bytes) (object : Object) :
    Walk × Option (Except ResolverError Selected) :=
  if k.fault left .metadata then (w, some (.error (.io .other)))
  else
    match object.kind with
    | .symlink target =>
      if 40 < w.links + 1 then (w, some (.error (.other "resolver symlink limit exceeded")))
      else if k.fault left .readlink then (w, some (.error (.io .other)))
      else ({ w with links := w.links + 1, pending := pathIter target ++ pending }, none)
    | _ =>
      enter k forbidden left { w with resolved := w.resolved ++ [part], pending := pending } object

/-- A name that denotes an entry. -/
def visit (k : Kernel) (creates : Bool) (forbidden : List Nat) (left : Nat) (w : Walk)
    (part : Bytes) (pending : List Bytes) :
    Walk × Option (Except ResolverError Selected) :=
  if k.fault left .parent then (w, some (.error (.io .other)))
  else
    match w.tree.openDirectory (if w.resolved = [] then [dotName] else w.resolved) with
    | .error e => (w, some (.error (.io e)))
    | .ok (parent, _) =>
      match openNode k creates left w parent part (pending ≠ []) with
      | (.error e, w') => (w', some (.error e))
      | (.ok object, w') => inspect k forbidden left w' part pending object

/-- One round of the loop, and what it returns if it is the last. -/
def round (k : Kernel) (creates : Bool) (forbidden : List Nat) (left : Nat) (w : Walk) :
    Walk × Option (Except ResolverError Selected) :=
  match w.pending with
  | [] => (w, some (.error (.other "resolver target is a directory")))
  | part :: pending =>
    if part = [slash] then ({ w with resolved := [], pending := pending }, none)
    else if part = dotName then ({ w with pending := pending }, none)
    else if part = dotdotName then
      if w.resolved = [] then (w, some (.error (.other "resolver symlink escapes command root")))
      else ({ w with resolved := w.resolved.dropLast, pending := pending }, none)
    else visit k creates forbidden left w part pending

def rounds (k : Kernel) (creates : Bool) (forbidden : List Nat) :
    Nat → Walk → Walk × Except ResolverError Selected
  | 0, w => (w, .error (.other "resolver path expansion limit exceeded"))
  | left + 1, w =>
    match round k creates forbidden left w with
    | (w', some result) => (w', result)
    | (w', none) => rounds k creates forbidden left w'

/-- The inodes of the runtime's directories. -/
def runtimeTargets (k : Kernel) (t : Tree) : List Bytes → Except ResolverError (List Nat)
  | [] => .ok []
  | name :: rest =>
    if k.fault 0 (.runtime name) then .error (.io .other)
    else
      match t.openDirectory [name] with
      | .ok (_, ino) => (ino :: ·) <$> runtimeTargets k t rest
      | .error .noent => runtimeTargets k t rest
      | .error e => .error (.io e)

def walk (k : Kernel) (creates : Bool) (t : Tree) : Walk × Except ResolverError Selected :=
  let start : Walk := ⟨t, [], 0, [], resolvConf⟩
  if k.fault 0 .rootMetadata then (start, .error (.io .other))
  else if t.root.kind ≠ .directory then (start, .error (.other "resolver root is not a directory"))
  else
    match runtimeTargets k t runtimeNames with
    | .error e => (start, .error e)
    | .ok forbidden => rounds k creates forbidden 4096 start

structure ResolverTarget where
  target : List Bytes
  path : List Bytes
  scaffold : List CreatedEntry

def select (k : Kernel) (t : Tree) (creates : Bool) : Except ResolverError ResolverTarget × Tree :=
  if k.fault 0 .mountNamespace then (.error (.io .other), t)
  else
    match walk k creates t with
    | (w, .ok selected) => (.ok ⟨selected.target, selected.path, w.scaffold⟩, w.tree)
    | (w, .error source) =>
      match release k w.scaffold w.tree with
      | (.ok (), t') => (.error source, t')
      | (.error cleanup, t') => (.error (.cleanup source cleanup), t')

def resolve (k : Kernel) (t : Tree) : Except ResolverError ResolverTarget × Tree := select k t true

/-- Without creation. -/
def existing (k : Kernel) (t : Tree) : Except ResolverError ResolverTarget × Tree :=
  select k t false

def ResolverTarget.release (k : Kernel) (target : ResolverTarget) (t : Tree) :
    Except ResolverError Unit × Tree :=
  Network.release k target.scaffold t

end Conglobate.Network
