import Conglobate.Copy.Resolve

/- Where a COPY destination resolves to (`CopyDestination::resolve`,
   `copy/destination/mod.rs`).

   An image is a tree of directories, other files and links. In a bootstrap stage a
   second tree is the output's, and paths below "mnt" are looked up in it. The kernel
   walks a path beneath a tree's root without following links; it may refuse a path
   for its length, for a NUL or for reasons of its own.

   Correspondence (Rust ↔ Lean):
     `root`, `output`                    ↔ `Destination`
     `location`                          ↔ `Destination.location`
     `openat2` with `BENEATH`, `NO_SYMLINKS`, `O_PATH` and `O_NOFOLLOW` ↔ `openat2`
     `observe`                           ↔ `Destination.observe`
     the loop of `resolve`               ↔ `Destination.resolveFrom`
     `resolve`                           ↔ `Destination.resolve` -/
namespace Conglobate.Copy

inductive ImageNode where
  | directory
  | file
  | symlink (target : Bytes)
  deriving DecidableEq

/-- A tree below a directory: what is in it is in a directory of it. -/
structure ImageTree where
  node : List Bytes → Option ImageNode
  parents : ∀ path name, node (path ++ [name]) ≠ none → path = [] ∨ node path = some .directory

inductive CopyError where
  | io
  /-- "too many destination symlinks" -/
  | tooManySymlinks
  /-- "destination traverses a non-directory" -/
  | traversesNonDirectory
  deriving DecidableEq

/-- What the names after `here` denote. -/
def openat2 (tree : ImageTree) (here : List Bytes) :
    List Bytes → Except CopyError (Option ImageNode)
  | [] => .ok (some .directory)
  | [name] => .ok (tree.node (here ++ [name]))
  | name :: rest =>
    match tree.node (here ++ [name]) with
    | none => .ok none
    | some .directory => openat2 tree (here ++ [name]) rest
    | some _ => .error .io

/-- "mnt" -/
def mntName : Bytes := [109, 110, 116]

structure Destination where
  root : ImageTree
  output : Option ImageTree
  /-- Paths the kernel does not look up. -/
  refused : List Bytes → Bool

namespace Destination

/-- The tree a path is looked up in, and the path there. -/
def location (dest : Destination) (path : List Bytes) : ImageTree × List Bytes :=
  match dest.output with
  | none => (dest.root, path)
  | some output => if path.head? = some mntName then (output, path.tail) else (dest.root, path)

def observe (dest : Destination) (path : List Bytes) : Except CopyError (Option ImageNode) :=
  if dest.refused path then .error .io else openat2 (dest.location path).1 [] (dest.location path).2

/-- What following a link puts in front of what is pending. -/
def targetParts (target : Bytes) : List Bytes :=
  pathIter target ++ if endsInDirectory target then [dotName] else []

/-- The loop of `resolve`, with the links followed so far. -/
def resolveFrom (dest : Destination) (followFinal : Bool) (links : Nat) (resolved : List Bytes) :
    List Bytes → Except CopyError (List Bytes)
  | [] => .ok resolved
  | part :: pending =>
    if part = [slash] then resolveFrom dest followFinal links [] pending
    else if part = dotName then resolveFrom dest followFinal links resolved pending
    else if part = dotdotName then resolveFrom dest followFinal links resolved.dropLast pending
    else
      match dest.observe (resolved ++ [part]) with
      | .error e => .error e
      | .ok none => resolveFrom dest followFinal links (resolved ++ [part]) pending
      | .ok (some (.symlink target)) =>
        if followFinal ∨ pending ≠ [] then
          if 40 < links + 1 then .error .tooManySymlinks
          else resolveFrom dest followFinal (links + 1) resolved (targetParts target ++ pending)
        else resolveFrom dest followFinal links (resolved ++ [part]) pending
      | .ok (some .file) =>
        if pending ≠ [] then .error .traversesNonDirectory
        else resolveFrom dest followFinal links (resolved ++ [part]) pending
      | .ok (some .directory) => resolveFrom dest followFinal links (resolved ++ [part]) pending
termination_by pending => (41 - links, pending.length)
decreasing_by
  · exact Prod.Lex.right _ (Nat.lt_succ_self _)
  · exact Prod.Lex.right _ (Nat.lt_succ_self _)
  · exact Prod.Lex.right _ (Nat.lt_succ_self _)
  · exact Prod.Lex.right _ (Nat.lt_succ_self _)
  · exact Prod.Lex.left _ _ (by omega)
  · exact Prod.Lex.right _ (Nat.lt_succ_self _)
  · exact Prod.Lex.right _ (Nat.lt_succ_self _)
  · exact Prod.Lex.right _ (Nat.lt_succ_self _)

def resolve (dest : Destination) (path : Bytes) (followFinal : Bool) :
    Except CopyError (List Bytes) :=
  resolveFrom dest followFinal 0 [] (pathIter path)

end Destination

end Conglobate.Copy
