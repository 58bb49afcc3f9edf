import Conglobate.Copy.Resolve

/- Capturing a context from committed objects (`context/mod.rs`, `context/modules.rs`,
   `context/lazy.rs`).

   Trees are read from an object store, and only what they say is kept: entries with the
   identities of their blobs. A nested module stays one entry until it is expanded, which
   opens a store of its own. The context's directory is selected first, object by object
   with a stack of the ones above, and then scanned.

   What git objects, stores and their settings are is not this program's (`Git`). The
   context of an expansion that failed is not looked at again. Reading trees goes on as
   long as there are trees, which `fuel` bounds.

   Correspondence (Rust ↔ Lean):
     `gix`, the file system below a repository ↔ `Git`
     `ObjectReader::open`, `verified`        ↔ `openReader`, `verified`
     `tree`, `blob`, `commit_tree`           ↔ `readTree`, `readBlob`, `commitTree`
     `open_module`, what it needs of the outer store ↔ `CapturedContext.openModule`, `moduleStore`
     the loop of `capture`, and its variables ↔ `selectFrom`, `Selection`
     the loop of `scan`, one of its entries ↔ `scanFrom`, `scanEntry`
     `capture`, `expand`, `blob`             ↔ `capture`, `CapturedContext.expand`, `CapturedContext.blob` -/
namespace Conglobate.Context

open Copy

inductive ContextError where
  | io
  | git
  | invalid (text : String)
  /-- "submodule {path:?}: {reason}" -/
  | module (path : EntryPath) (reason : ContextError)
  /-- An index out of bounds. -/
  | panics
  deriving DecidableEq

inductive EntryKind where
  | tree
  | blob
  | blobExecutable
  | link
  | commit
  deriving DecidableEq

structure TreeEntry where
  filename : Bytes
  kind : EntryKind
  oid : ObjectId
  deriving DecidableEq

inductive ObjectKind where
  | tree
  | blob
  | commit
  | tag
  deriving DecidableEq

structure GitObject where
  kind : ObjectKind
  data : Bytes

/-- Open repositories, and what is read of them. -/
structure Git (ρ : Type) where
  openRepository : Bytes → Except ContextError ρ
  alternates : ρ → Except ContextError (List Bytes)
  /-- The length of the repository's identities. -/
  objectHash : ρ → Nat
  commonDir : ρ → Bytes
  findObject : ρ → ObjectId → Except ContextError GitObject
  computeHash : Nat → GitObject → Except ContextError ObjectId
  decodeTree : Bytes → Except ContextError (List TreeEntry)
  decodeCommit : Bytes → Except ContextError ObjectId
  /-- The paths and names of the "submodule" sections. -/
  submodules : Bytes → Except ContextError (List (Option Bytes × Option Bytes))
  canonicalize : Bytes → Except ContextError Bytes

section
variable {ρ : Type} (g : Git ρ)

/-! Objects. -/

def openReader (path : Bytes) : Except ContextError ρ := do
  let repository ← g.openRepository path
  let alternates ← g.alternates repository
  if alternates ≠ [] then
    .error (.invalid "host object alternates are unsupported")
  else
    .ok repository

def verified (r : ρ) (id : ObjectId) : Except ContextError GitObject := do
  let object ← g.findObject r id
  let actual ← g.computeHash id.length object
  if actual ≠ id then .error (.invalid "object content does not match its identity") else .ok object

/-- Names a tree may have, no two of them the same. -/
def checkNames : List Bytes → List TreeEntry → Except ContextError Unit
  | _, [] => .ok ()
  | names, entry :: rest =>
    if entryName entry.filename = false then .error (.invalid "invalid tree entry name")
    else if names.contains entry.filename then .error (.invalid "duplicate tree entry")
    else checkNames (entry.filename :: names) rest

def readTree (r : ρ) (id : ObjectId) : Except ContextError (List TreeEntry) := do
  let object ← verified g r id
  if object.kind ≠ .tree then .error .git
  else do
    let entries ← g.decodeTree object.data
    checkNames [] entries
    .ok entries

def readBlob (r : ρ) (id : ObjectId) : Except ContextError Bytes := do
  let object ← verified g r id
  if object.kind ≠ .blob then .error .git else .ok object.data

def commitTree (r : ρ) (id : ObjectId) : Except ContextError ObjectId :=
  if id.length ≠ g.objectHash r then
    .error (.invalid "module object format differs from repository")
  else do
    let object ← verified g r id
    if object.kind ≠ .commit then .error .git else g.decodeCommit object.data

/-- A link's target, which is not empty and has no NUL. -/
def readLink (r : ρ) (id : ObjectId) : Except ContextError Bytes := do
  let target ← readBlob g r id
  if target = [] ∨ (0 : UInt8) ∈ target then
    .error (.invalid "invalid symlink contents")
  else
    .ok target

end

/-! Stores. -/

structure Store (ρ : Type) where
  reader : ρ
  root : ObjectId
  depth : Nat

structure CapturedContext (ρ : Type) where
  stores : List (Store ρ)
  entries : Entries

/-- ".gitmodules" -/
def gitmodules : Bytes := [46, 103, 105, 116, 109, 111, 100, 117, 108, 101, 115]

/-- "modules" -/
def modulesName : Bytes := [109, 111, 100, 117, 108, 101, 115]

/-- `Path::join`. -/
def joinPath (directory name : Bytes) : Bytes :=
  if isAbsolute name then name
  else if directory = [] ∨ directory.getLast? = some slash then directory ++ name
  else directory ++ slash :: name

/-- The bytes of an entry's path. -/
def pathBytes (path : EntryPath) : Bytes := [slash].intercalate path

/-- A relative path of ordinary names. -/
def SafeName (name : Bytes) : Prop :=
  name ≠ [] ∧ isAbsolute name = false ∧ ∀ part ∈ pathParts name, part ≠ dotName ∧ part ≠ dotdotName

instance (name : Bytes) : Decidable (SafeName name) := inferInstanceAs (Decidable (_ ∧ _ ∧ _))

section
variable {ρ : Type} (g : Git ρ)

/-- The module's name: one section has the path. -/
def moduleName (path : EntryPath) (sections : List (Option Bytes × Option Bytes)) :
    Except ContextError Bytes :=
  match sections.filterMap (fun s => if s.1 = some (pathBytes path) then s.2 else none) with
  | [] => .error (.invalid "used gitlink has no .gitmodules mapping")
  | name :: more =>
    if more ≠ [] then
      .error (.invalid "ambiguous submodule path mapping")
    else
      .ok name

/-- Where the module's store is. -/
def moduleLocation (parent : Store ρ) (path : EntryPath) : Except ContextError Bytes := do
  let entries ← readTree g parent.reader parent.root
  match entries.find? (fun entry => entry.filename = gitmodules) with
  | none => .error (.invalid "used submodule has no committed .gitmodules")
  | some entry =>
    if entry.kind ≠ .blob then .error (.invalid ".gitmodules is not a regular file")
    else do
      let bytes ← readBlob g parent.reader entry.oid
      let sections ← g.submodules bytes
      let name ← moduleName path sections
      if ¬ SafeName name then .error (.invalid "unsafe submodule store name")
      else do
        let modules := joinPath (g.commonDir parent.reader) modulesName
        let canonical ← (g.canonicalize (joinPath modules name)).mapError (.module path)
        let inside ← g.canonicalize modules
        if (pathIter inside).isPrefixOf (pathIter canonical) then .ok canonical
        else .error (.invalid "submodule store escapes modules directory")

def maxDepth : Nat := 8

/-- The store of a module, by the path it has in the outer one. -/
def moduleStore (parent : Store ρ) (path : EntryPath) (oid : ObjectId) :
    Except ContextError (Store ρ) :=
  if maxDepth < parent.depth + 1 then .error (.invalid "submodule depth exceeds cap of 8")
  else do
    let location ← moduleLocation g parent path
    let reader ← openReader g location
    let root ← (commitTree g reader oid).mapError (.module path)
    .ok ⟨reader, root, parent.depth + 1⟩

namespace CapturedContext

variable (c : CapturedContext ρ)

def store (i : Nat) : Except ContextError (Store ρ) :=
  match c.stores[i]? with
  | none => .error .panics
  | some s => .ok s

def openModule (parent : Nat) (path : EntryPath) (oid : ObjectId) :
    Except ContextError (Nat × CapturedContext ρ) := do
  let outer ← c.store parent
  let inner ← moduleStore g outer path oid
  .ok (c.stores.length, { c with stores := c.stores ++ [inner] })

end CapturedContext

/-! Scanning. -/

/-- A tree still to be read. -/
structure Unread where
  parent : EntryPath
  repositoryPath : EntryPath
  oid : ObjectId

/-- `scan` on one entry of a tree: what is still to be read has the last one first. -/
def scanEntry (r : ρ) (store : Nat) (tree : Unread) (s : List Unread × Entries)
    (entry : TreeEntry) :
    Except ContextError (List Unread × Entries) :=
  if entryName entry.filename = false then .error (.invalid "invalid tree entry name")
  else do
    let path := tree.parent ++ [entry.filename]
    let modulePath := tree.repositoryPath ++ [entry.filename]
    let value ← match entry.kind with
      | .tree => .ok ContextEntry.directory
      | .commit => .ok (.module store modulePath entry.oid)
      | .link => .symlink <$> readLink g r entry.oid
      | .blob => .ok (.file store false entry.oid)
      | .blobExecutable => .ok (.file store true entry.oid)
    if s.2.contains path then .error (.invalid "duplicate tree entry")
    else .ok (if entry.kind = .tree then
      ⟨path, modulePath, entry.oid⟩ :: s.1 else s.1, s.2.insert path value)

/-- The loop of `scan`. -/
def scanFrom (r : ρ) (store : Nat) : Nat → List Unread → Entries →
    Option (Except ContextError Entries)
  | 0, _, _ => none
  | _ + 1, [], entries => some (.ok entries)
  | fuel + 1, tree :: pending, entries =>
    match readTree g r tree.oid >>= List.foldlM (scanEntry g r store tree) (pending, entries) with
    | .error e => some (.error e)
    | .ok (pending, entries) => scanFrom r store fuel pending entries

namespace CapturedContext

variable (c : CapturedContext ρ)

def scan (fuel : Nat) (store : Nat) (prefixed repositoryPath : EntryPath) (id : ObjectId) :
    Option (Except ContextError (CapturedContext ρ)) :=
  match c.store store with
  | .error e => some (.error e)
  | .ok s => (scanFrom g s.reader store fuel [⟨prefixed, repositoryPath, id⟩] c.entries).map
      (Except.map fun entries => { c with entries := entries })

def expand (fuel : Nat) (selected : EntryPath) : Option (Except ContextError (CapturedContext ρ)) :=
  match c.entries.get? selected with
  | some (.module store path oid) =>
    match c.openModule g store path oid with
    | .error e => some (.error (.module selected e))
    | .ok (index, opened) =>
      match opened.store index with
      | .error e => some (.error e)
      | .ok s => (opened.scan g fuel index selected [] s.root).map
          (Except.map fun scanned => { scanned with entries := scanned.entries.insert selected .directory })
  | _ => some (.ok c)

/-- "version https://git-lfs.github.com/spec/v1" -/
def lfsVersion : Bytes :=
  "version https://git-lfs.github.com/spec/v1".toList.map fun ch => UInt8.ofNat ch.toNat

/-- A blob's bytes; pointers to large files are none. -/
def blob (store : Nat) (id : ObjectId) : Except ContextError Bytes := do
  let s ← c.store store
  let bytes ← readBlob g s.reader id
  if (lfsVersion ++ [10]).isPrefixOf bytes || (lfsVersion ++ [13, 10]).isPrefixOf bytes then
    .error (.invalid "Git LFS pointers are unsupported")
  else .ok bytes

end CapturedContext

/-! Selecting the context's directory. -/

/-- Where the loop of `capture` stands, and where it stood above. -/
structure Selection (ρ : Type) where
  context : CapturedContext ρ
  store : Nat
  subtree : ObjectId
  repositoryPath : EntryPath
  parents : List (Nat × ObjectId × EntryPath)

/-- The entry of a name in the directory selected so far. -/
def Selection.entry (w : Selection ρ) (name : Bytes) : Except ContextError TreeEntry := do
  let s ← w.context.store w.store
  let entries ← readTree g s.reader w.subtree
  match entries.find? (fun entry => entry.filename = name) with
  | none => .error (.invalid "context subtree does not exist")
  | some entry => .ok entry

/-- A tree below. -/
def Selection.enter (w : Selection ρ) (name : Bytes) (oid : ObjectId) : Selection ρ where
  context := w.context
  store := w.store
  subtree := oid
  repositoryPath := w.repositoryPath ++ [name]
  parents := (w.store, w.subtree, w.repositoryPath) :: w.parents

/-- A module below. -/
def Selection.enterModule (w : Selection ρ) (name : Bytes) (oid : ObjectId) :
    Except ContextError (Selection ρ) := do
  let opened ← w.context.openModule g w.store (w.repositoryPath ++ [name]) oid
  let s ← opened.2.store opened.1
  .ok ⟨opened.2, opened.1, s.root, [], (w.store, w.subtree, w.repositoryPath) :: w.parents⟩

def Selection.link (w : Selection ρ) (followed : Nat) (oid : ObjectId) :
    Except ContextError (List Bytes) :=
  if 40 < followed + 1 then .error (.invalid "too many context symlinks")
  else do
    let s ← w.context.store w.store
    let target ← readLink g s.reader oid
    if isAbsolute target then
      .error (.invalid "absolute context symlink")
    else
      .ok (pathParts target)

/-- The loop of `capture`, with the links followed so far. -/
def selectFrom (followed : Nat) (w : Selection ρ) : List Bytes → Except ContextError (Selection ρ)
  | [] => .ok w
  | name :: pending =>
    if name = dotName then selectFrom followed w pending
    else if name = dotdotName then
      match w.parents with
      | [] => .error (.invalid "context selection escapes repository")
      | (store, subtree, path) :: parents =>
        selectFrom followed ⟨w.context, store, subtree, path, parents⟩ pending
    else
      match w.entry g name with
      | .error e => .error e
      | .ok entry =>
        match entry.kind with
        | .tree => selectFrom followed (w.enter name entry.oid) pending
        | .commit =>
          match w.enterModule g name entry.oid with
          | .error e => .error e
          | .ok inside => selectFrom followed inside pending
        | .link =>
          match _h : w.link g followed entry.oid with
          | .error e => .error e
          | .ok parts => selectFrom (followed + 1) w (parts ++ pending)
        | _ => .error (.invalid "context selection is not a directory")
termination_by pending => (41 - followed, pending.length)
decreasing_by
  · exact Prod.Lex.right _ (Nat.lt_succ_self _)
  · exact Prod.Lex.right _ (Nat.lt_succ_self _)
  · exact Prod.Lex.right _ (Nat.lt_succ_self _)
  · exact Prod.Lex.right _ (Nat.lt_succ_self _)
  · refine Prod.Lex.left _ _ ?_
    have hcount : ¬ 40 < followed + 1 := by
      intro hmany
      rw [Selection.link, if_pos hmany] at _h
      cases _h
    omega

/-- The context of a commit, before its directory is selected. -/
def captureStart (repository : Bytes) (commit : ObjectId) : Except ContextError (Selection ρ) := do
  let reader ← openReader g repository
  if commit.length ≠ g.objectHash reader then
    .error (.invalid "commit object format differs from repository")
  else do
    let root ← commitTree g reader commit
    .ok ⟨⟨[⟨reader, root, 0⟩], OrdMap.empty⟩, 0, root, [], []⟩

def capture (fuel : Nat) (repository : Bytes) (commit : ObjectId) (context : Bytes) :
    Option (Except ContextError (CapturedContext ρ)) :=
  match captureStart g repository commit >>= fun start => selectFrom g 0 start
      (pathIter context) with
  | .error e => some (.error e)
  | .ok w => w.context.scan g fuel w.store [] w.repositoryPath w.subtree

end

end Conglobate.Context
