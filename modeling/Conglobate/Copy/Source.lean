import Conglobate.Copy.Match
import Mathlib.Data.List.Lex
import Mathlib.Data.Prod.Lex

/- COPY sources in a captured tree (`copy/source.rs`).

   A captured path is the list of its names, and a tree the ordered map of its
   entries. A path is resolved name by name from the root: links are followed with
   their targets put in front of what is pending, at most forty of them, which is
   what ends the walk. A source's components are walked one after the other; once
   one has a wildcard, links are leaves.

   Correspondence (Rust ↔ Lean):
     `PathBuf` of an entry               ↔ `EntryPath`
     `Path::iter` of a link's target     ↔ `pathParts`
     the loop of `SourceTree::resolve`   ↔ `resolveFrom`
     one round over a component's paths  ↔ `visit`
     `paths`, `wildcard_seen`            ↔ `Walk`
     one round over the components       ↔ `partRound`
     the loop over `paths` at the end    ↔ `selectPaths`
     `SourceTree::select`                ↔ `select` -/
namespace Conglobate.Copy

abbrev EntryPath := List Bytes

abbrev ObjectId := Bytes

/-- `ContextEntry`. -/
inductive ContextEntry where
  | directory
  | module (store : Nat) (path : EntryPath) (oid : ObjectId)
  | file (store : Nat) (executable : Bool) (oid : ObjectId)
  | symlink (target : Bytes)
  deriving DecidableEq, Repr

namespace ContextEntry

def isModule : ContextEntry → Bool
  | .module _ _ _ => true
  | _ => false

def isFile : ContextEntry → Bool
  | .file _ _ _ => true
  | _ => false

end ContextEntry

abbrev Entries := OrdMap EntryPath ContextEntry

inductive SelectionError where
  /-- "unresolved submodule: {0:?}" -/
  | module (path : EntryPath)
  /-- "COPY source matched no entries: {0}" -/
  | noMatch (source : Text)
  /-- "COPY source is missing or traverses a non-directory: {0:?}" -/
  | missing (path : EntryPath)
  /-- "COPY source symlink escapes the context or has a cycle: {0:?}" -/
  | symlink (path : EntryPath)
  | pattern (error : PatternError)
  deriving DecidableEq, Repr

/-! Paths. -/

def dotName : Bytes := [46]

def dotdotName : Bytes := [46, 46]

/-- The components of a path that is not absolute: empty ones are dropped, and dots
    but a leading one. -/
def pathParts (path : Bytes) : List Bytes :=
  match path.splitOn slash with
  | [] => []
  | first :: rest =>
    (if first = [] then [] else [first]) ++ rest.filter (fun part => part ≠ [] && part ≠ dotName)

def isAbsolute (path : Bytes) : Bool := path.head? = some slash

/-- `ends_with(b"/") || ends_with(b"/.")`. -/
def endsInDirectory (path : Bytes) : Bool := [slash].isSuffixOf path || [slash, 46].isSuffixOf path

/-- What following a link puts in front of what is pending. -/
def linkParts (target : Bytes) : List Bytes :=
  pathParts target ++ if endsInDirectory target then [dotName] else []

/-- The loop of `resolve` for `path`, with the links followed so far. -/
def resolveFrom (entries : Entries) (path : EntryPath) (links : Nat) (resolved : EntryPath) :
    EntryPath → Except SelectionError EntryPath
  | [] => .ok resolved
  | part :: pending =>
    if part = dotName then resolveFrom entries path links resolved pending
    else if part = dotdotName then
      if resolved = [] then
        .error (.symlink path)
      else
        resolveFrom entries path links resolved.dropLast pending
    else
      match entries.get? (resolved ++ [part]) with
      | none => .error (.missing path)
      | some (.module _ _ _) => .error (.module (resolved ++ [part]))
      | some (.symlink target) =>
        if 40 < links + 1 ∨ isAbsolute target = true then .error (.symlink path)
        else resolveFrom entries path (links + 1) resolved (linkParts target ++ pending)
      | some (.file _ _ _) =>
        if pending ≠ [] then
          .error (.missing path)
        else
          resolveFrom entries path links (resolved ++ [part]) pending
      | some .directory => resolveFrom entries path links (resolved ++ [part]) pending
termination_by pending => (41 - links, pending.length)
decreasing_by
  · exact Prod.Lex.right _ (Nat.lt_succ_self _)
  · exact Prod.Lex.right _ (Nat.lt_succ_self _)
  · exact Prod.Lex.left _ _ (by omega)
  · exact Prod.Lex.right _ (Nat.lt_succ_self _)
  · exact Prod.Lex.right _ (Nat.lt_succ_self _)

def resolve (entries : Entries) (path : EntryPath) :
    Except SelectionError EntryPath := resolveFrom entries path 0 [] path

/-! Selection. -/

def wildcard : Text → Bool
  | [] => false
  | '\\' :: [] => false
  | '\\' :: _ :: rest => wildcard rest
  | c :: rest => c = '*' || c = '?' || c = '[' || wildcard rest

/-- `entries.range(directory..)` while below it, at its level. -/
def children (entries : Entries) (directory : EntryPath) : List EntryPath :=
  ((entries.keys.dropWhile (fun path => decide (path < directory))).takeWhile
    (fun path => directory.isPrefixOf path)).filter
    (fun path => path ≠ [] && path.dropLast = directory)

/-- Where a path's walk stands, unless it ends there. -/
def standing (entries : Entries) (seen : Bool) (path : EntryPath) :
    Except SelectionError (Option EntryPath) :=
  if seen then .ok (if path ≠ [] ∧ entries.get? path ≠ some .directory then none else some path)
  else some <$> resolve entries path

def visit (entries : Entries) (part : Text) (matcher : SourcePattern) (seen : Bool)
    (next : List EntryPath) (path : EntryPath) :
    Except SelectionError (List EntryPath) :=
  if (entries.get? path).any ContextEntry.isModule then .error (.module path)
  else do
    let actual ← standing entries seen path
    match actual.filter (fun actual => actual = [] || entries.get? actual = some .directory) with
    | none => .ok next
    | some actual =>
      if wildcard part || seen then
        .ok (next ++ (children entries actual).filter
          (fun child => matcher.matchesName (child.getLast?.getD [])))
      else .ok (next ++ [actual ++ [part.utf8]])

structure Walk where
  paths : List EntryPath
  seen : Bool

def partRound (entries : Entries) (w : Walk) (part : Text) : Except SelectionError Walk := do
  let matcher ← (SourcePattern.fromStr part).mapError SelectionError.pattern
  let next ← w.paths.foldlM (visit entries part matcher w.seen) []
  .ok ⟨next.mergeSort (fun a b => decide (a ≤ b)), w.seen || wildcard part⟩

/-- A selected name and what it resolves to. -/
structure CopySource where
  selected : EntryPath
  resolved : EntryPath
  deriving DecidableEq, Repr

def selectPath (entries : Entries) (found : List CopySource) (selected : EntryPath) :
    Except SelectionError (List CopySource) := do
  let resolved ← resolve entries selected
  match entries.entries.find? (fun e => resolved.isPrefixOf e.1 && e.2.isModule) with
  | some e => .error (.module e.1)
  | none => .ok (found ++ [⟨selected, resolved⟩])

/-- The components of a source. -/
def sourceParts (p : SourcePattern) : List Text := Plan.ImagePath.components (trimSlashes p.source)

/-- What a wildcard chose must be there. -/
def keepPresent (entries : Entries) (w : Walk) : List EntryPath :=
  if w.seen then w.paths.filter (fun path => path = [] || entries.contains path) else w.paths

def selectPattern (entries : Entries) (found : List CopySource) (p : SourcePattern) :
    Except SelectionError (List CopySource) := do
  let w ← (sourceParts p).foldlM (partRound entries) ⟨[[]], false⟩
  if keepPresent entries w = [] then .error (.noMatch p.source)
  else (keepPresent entries w).foldlM (selectPath entries) found

def select (entries : Entries) (patterns : List SourcePattern) :
    Except SelectionError (List CopySource) := do
  let found ← patterns.foldlM (selectPattern entries) []
  if found = [] then .error (.noMatch []) else .ok found

end Conglobate.Copy
