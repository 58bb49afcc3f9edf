import Conglobate.Context.Place

/- Reading a file of a context (`CapturedContext::read`, `context/read.rs`).

   A second walk over captured entries, beside the one that COPY sources resolve with:
   it expands a module where it meets one, and gives the bytes of the file where it ends.

   What is proved:
     1. `read_agrees` — of a complete context, a file is read exactly where resolving
        ends, and nothing else is;
     2. `directory_refused` — a directory resolves and cannot be read.

   Correspondence (Rust ↔ Lean):
     the loop of `read`, `resolved` at its end ↔ `CapturedContext.readFrom`, `CapturedContext.reach`
     `read`                                    ↔ `CapturedContext.read` -/
namespace Conglobate.Context

open Copy

section
variable {ρ : Type} (g : Git ρ)

namespace CapturedContext

/-- The loop of `read`, with the links followed so far. -/
def readFrom (fuel : Nat) (c : CapturedContext ρ) (followed : Nat) (resolved : EntryPath) :
    List Bytes → Option (Except ContextError (EntryPath × CapturedContext ρ))
  | [] => some (.ok (resolved, c))
  | part :: pending =>
    if part = dotName then readFrom fuel c followed resolved pending
    else if part = dotdotName then
      if resolved = [] then some (.error (.invalid "symlink escapes context"))
      else readFrom fuel c followed resolved.dropLast pending
    else
      match c.expand g fuel (resolved ++ [part]) with
      | none => none
      | some (.error e) => some (.error e)
      | some (.ok c) =>
        match c.entries.get? (resolved ++ [part]) with
        | none => some (.error (.invalid "selected context path does not exist"))
        | some (.symlink target) =>
          if 40 < followed + 1 then some (.error (.invalid "too many context symlinks"))
          else if isAbsolute target then some (.error (.invalid "absolute context symlink"))
          else readFrom fuel c (followed + 1) resolved (linkParts target ++ pending)
        | some (.file _ _ _) =>
          if pending ≠ [] then some (.error (.invalid "context path traverses a non-directory"))
          else readFrom fuel c followed (resolved ++ [part]) pending
        | some _ => readFrom fuel c followed (resolved ++ [part]) pending
termination_by pending => (41 - followed, pending.length)
decreasing_by
  · exact Prod.Lex.right _ (Nat.lt_succ_self _)
  · exact Prod.Lex.right _ (Nat.lt_succ_self _)
  · exact Prod.Lex.left _ _ (by omega)
  · exact Prod.Lex.right _ (Nat.lt_succ_self _)
  · exact Prod.Lex.right _ (Nat.lt_succ_self _)

/-- Where the loop ends. A slash at the path's end asks for a directory. -/
def reach (fuel : Nat) (c : CapturedContext ρ) (path : Bytes) :
    Option (Except ContextError (EntryPath × CapturedContext ρ)) :=
  c.readFrom g fuel 0 [] (pathIter path ++ if endsInDirectory path then [dotName] else [])

def read (fuel : Nat) (c : CapturedContext ρ) (path : Bytes) :
    Option (Except ContextError (Bytes × CapturedContext ρ)) :=
  match c.reach g fuel path with
  | none => none
  | some (.error e) => some (.error e)
  | some (.ok (resolved, c)) =>
    match c.entries.get? resolved with
    | some (.file store _ oid) => some ((c.blob g store oid).map fun bytes => (bytes, c))
    | _ => some (.error (.invalid "selected context path is not a regular file"))

end CapturedContext

end

section
variable {ρ : Type} {g : Git ρ} {fuel : Nat} {c : CapturedContext ρ}

variable (g fuel) in
/-- Expanding what is no module does nothing. -/
theorem expand_plain {path : EntryPath}
    (h : ∀ e, c.entries.get? path = some e → e.isModule = false) :
    c.expand g fuel path = some (.ok c) := by
  rw [CapturedContext.expand]
  split
  · rename_i hget
    have hmodule := h _ hget
    cases hmodule
  · rfl

/-- The same end as a resolution's. -/
def SameEnd (c : CapturedContext ρ) (r : Except SelectionError EntryPath)
    (s : Option (Except ContextError (EntryPath × CapturedContext ρ))) : Prop :=
  (∃ F, r = .ok F ∧ s = some (.ok (F, c))) ∨ (∃ e, r = .error e) ∧ ∃ e, s = some (.error e)

theorem SameEnd.error {e : SelectionError} {e' : ContextError} :
    SameEnd c (.error e) (some (.error e')) :=
  .inr ⟨⟨e, rfl⟩, e', rfl⟩

/-- **The two walks are one** where nothing is left to expand. -/
theorem readFrom_sameEnd (hcomplete : Complete c.entries) (label : EntryPath) (links : Nat)
    (here : EntryPath) (pending : List Bytes) :
    SameEnd c (resolveFrom c.entries label links here pending)
      (c.readFrom g fuel links here pending) := by
  fun_induction resolveFrom c.entries label links here pending with
  | case1 links here =>
    rw [CapturedContext.readFrom]
    exact .inl ⟨here, rfl, rfl⟩
  | case2 links here pending ih =>
    rw [CapturedContext.readFrom, if_pos rfl]
    exact ih
  | case3 links pending hdot =>
    rw [CapturedContext.readFrom, if_neg hdot, if_pos rfl, if_pos rfl]
    exact .error
  | case4 links here pending hdot hnil ih =>
    rw [CapturedContext.readFrom, if_neg hdot, if_pos rfl, if_neg hnil]
    exact ih
  | case5 links here part pending hdot hdotdot hget =>
    have hplain := expand_plain g fuel (hcomplete (here ++ [part]))
    rw [CapturedContext.readFrom, if_neg hdot, if_neg hdotdot, hplain]
    dsimp only
    rw [hget]
    exact .error
  | case6 links here part pending hdot hdotdot store place oid hget =>
    have hmodule := hcomplete _ _ hget
    cases hmodule
  | case7 links here part pending hdot hdotdot target hget hrefused =>
    have hplain := expand_plain g fuel (hcomplete (here ++ [part]))
    rw [CapturedContext.readFrom, if_neg hdot, if_neg hdotdot, hplain]
    dsimp only
    rw [hget]
    dsimp only
    -- too many of them is said before absolute
    by_cases hmany : 40 < links + 1
    · rw [if_pos hmany]
      exact .error
    · rw [if_neg hmany, if_pos (hrefused.resolve_left hmany)]
      exact .error
  | case8 links here part pending hdot hdotdot target hget hfollow ih =>
    have hplain := expand_plain g fuel (hcomplete (here ++ [part]))
    obtain ⟨hfew, hrelative⟩ := not_or.mp hfollow
    rw [CapturedContext.readFrom, if_neg hdot, if_neg hdotdot, hplain]
    dsimp only
    rw [hget]
    dsimp only
    rw [if_neg hfew, if_neg hrelative]
    exact ih
  | case9 links here part pending hdot hdotdot store executable oid hget hmore =>
    have hplain := expand_plain g fuel (hcomplete (here ++ [part]))
    rw [CapturedContext.readFrom, if_neg hdot, if_neg hdotdot, hplain]
    dsimp only
    rw [hget]
    dsimp only
    rw [if_pos hmore]
    exact .error
  | case10 links here part pending hdot hdotdot store executable oid hget hmore ih =>
    have hplain := expand_plain g fuel (hcomplete (here ++ [part]))
    rw [CapturedContext.readFrom, if_neg hdot, if_neg hdotdot, hplain]
    dsimp only
    rw [hget]
    dsimp only
    rw [if_neg hmore]
    exact ih
  | case11 links here part pending hdot hdotdot hget ih =>
    have hplain := expand_plain g fuel (hcomplete (here ++ [part]))
    rw [CapturedContext.readFrom, if_neg hdot, if_neg hdotdot, hplain]
    dsimp only
    rw [hget]
    exact ih

/-! The whole function. -/

/-- Every file of the context has bytes. -/
def Legible (g : Git ρ) (c : CapturedContext ρ) : Prop :=
  ∀ path store executable oid, c.entries.get? path = some (.file store executable oid) →
    ∃ bytes, c.blob g store oid = .ok bytes

/-- What reading and resolving one path come to. -/
structure ReadsAs (g : Git ρ) (fuel : Nat) (c : CapturedContext ρ) (path : Bytes) : Prop where
  /-- The file reached is read exactly when it is what the path resolves to. -/
  file : ∀ F, (∃ store executable oid bytes, c.reach g fuel path = some (.ok (F, c)) ∧
      c.entries.get? F = some (.file store executable oid) ∧ c.blob g store oid = .ok bytes ∧
      c.read g fuel path = some (.ok (bytes, c))) ↔
    resolve c.entries (pathIter path) = .ok F ∧ ∃ store executable oid, c.entries.get? F =
      some (.file store executable oid)
  /-- Otherwise it is refused, and resolving fails or ends in a directory. -/
  refused : (¬ ∃ F store executable oid, resolve c.entries (pathIter path) = .ok F ∧
      c.entries.get? F = some (.file store executable oid)) →
    (∃ e, c.read g fuel path = some (.error e)) ∧
      ((∃ e, resolve c.entries (pathIter path) = .error e) ∨
        ∃ D, resolve c.entries (pathIter path) = .ok D ∧
          (D = [] ∨ c.entries.get? D = some .directory))

variable (g fuel) in
theorem reach_sameEnd (hcomplete : Complete c.entries) {path : Bytes}
    (hend : endsInDirectory path = false) :
    SameEnd c (resolve c.entries (pathIter path)) (c.reach g fuel path) := by
  rw [CapturedContext.reach, hend, if_neg Bool.false_ne_true, List.append_nil]
  exact readFrom_sameEnd hcomplete _ 0 [] _

theorem read_of_reach {path : Bytes} {F : EntryPath} (h : c.reach g fuel path = some (.ok (F, c)))
    {store : Nat} {executable : Bool} {oid : ObjectId}
    (hfile : c.entries.get? F = some (.file store executable oid)) :
    c.read g fuel path = some ((c.blob g store oid).map fun bytes => (bytes, c)) := by
  rw [CapturedContext.read, h]
  dsimp only
  rw [hfile]

/-- What a path resolves to is a file or a directory. -/
theorem resolve_file_or_directory {entries : Entries} {path F : EntryPath}
    (h : resolve entries path = .ok F) :
    (F = [] ∨ entries.get? F = some .directory) ∨ ∃ store executable oid, entries.get? F =
      some (.file store executable oid) := by
  obtain hnil | ⟨node, hnode, hsolid⟩ := (resolve_placed h).outer
  · exact .inl (.inl hnil)
  · obtain ⟨e, hget, he⟩ := tree_eq_some.mp hnode
    cases e with
    | directory => exact .inl (.inr hget)
    | module _ _ _ => cases he
    | file store executable oid => exact .inr ⟨store, executable, oid, hget⟩
    | symlink _ =>
      obtain rfl := Option.some.inj he
      exact absurd hsolid id

/-- **Reading agrees with resolving** on every file of a complete context. -/
theorem read_agrees (hcomplete : Complete c.entries) (hlegible : Legible g c) {path : Bytes}
    (hend : endsInDirectory path = false) :
    ReadsAs g fuel c path where
  file F := by
    have hsame := reach_sameEnd g fuel hcomplete hend
    constructor
    · intro h
      obtain ⟨store, executable, oid, bytes, hreach, hfile, -, -⟩ := h
      obtain ⟨F', hresolve, hreach'⟩ | ⟨-, e, herror⟩ := hsame
      · rw [hreach'] at hreach
        cases hreach
        exact ⟨hresolve, store, executable, oid, hfile⟩
      · rw [herror] at hreach
        cases hreach
    · intro h
      obtain ⟨hresolve, store, executable, oid, hfile⟩ := h
      obtain ⟨F', hresolve', hreach⟩ | ⟨⟨e, herror⟩, -⟩ := hsame
      · rw [hresolve'] at hresolve
        cases hresolve
        obtain ⟨bytes, hbytes⟩ := hlegible F store executable oid hfile
        refine ⟨store, executable, oid, bytes, hreach, hfile, hbytes, ?_⟩
        rw [read_of_reach hreach hfile, hbytes]
        rfl
      · rw [herror] at hresolve
        cases hresolve
  refused hother := by
    obtain ⟨F, hresolve, hreach⟩ | ⟨herror, e, hreach⟩ := reach_sameEnd g fuel hcomplete hend
    · have hdirectory : F = [] ∨ c.entries.get? F = some .directory := by
        apply (resolve_file_or_directory hresolve).resolve_right
        intro hfile
        obtain ⟨store, executable, oid, hfile⟩ := hfile
        exact hother ⟨F, store, executable, oid, hresolve, hfile⟩
      refine ⟨⟨.invalid "selected context path is not a regular file", ?_⟩,
        .inr ⟨F, hresolve, hdirectory⟩⟩
      rw [CapturedContext.read, hreach]
      dsimp only
      split
      · rename_i hget
        exact absurd ⟨F, _, _, _, hresolve, hget⟩ hother
      · rfl
    · refine ⟨⟨e, ?_⟩, .inl herror⟩
      rw [CapturedContext.read, hreach]

end

/-! One directory with one empty file. -/

/-- The empty blob's identity. -/
def emptyBlob : ObjectId :=
  [0xe6, 0x9d, 0xe2, 0x9b, 0xb2, 0xd1, 0xd6, 0x43, 0x4b, 0x8b, 0x29, 0xae, 0x77, 0x5a, 0xd8, 0xc2,
    0xe4, 0x8c, 0x53, 0x91]

/-- A repository with the empty blob. -/
def emptyBlobGit : Git Unit where
  openRepository _ := .ok ()
  alternates _ := .ok []
  objectHash _ := 20
  commonDir _ := gitName
  findObject _ id := if id = emptyBlob then .ok ⟨.blob, []⟩ else .error .git
  computeHash _ object := if object.kind = .blob ∧ object.data = [] then .ok emptyBlob
    else .error .git
  decodeTree _ := .error .git
  decodeCommit _ := .error .git
  submodules _ := .error .git
  canonicalize path := .ok path

/-- "d/f", a file. -/
def oneContext : CapturedContext Unit where
  stores := [⟨(), [], 0⟩]
  entries := (OrdMap.empty.insert [[100]] .directory).insert
    [[100], [102]] (.file 0 false emptyBlob)

theorem oneContext_entry {path : EntryPath} {e : ContextEntry}
    (h : oneContext.entries.get? path = some e) :
    e = .directory ∨ e = .file 0 false emptyBlob := by
  have hmem : (path, e) ∈ oneContext.entries.entries := OrdMap.get?_eq_some.mp h
  have hentries : oneContext.entries.entries = [([[100]], .directory),
    ([[100], [102]], .file 0 false emptyBlob)] := by decide
  rw [hentries, List.mem_cons, List.mem_singleton] at hmem
  exact hmem.imp (fun heq => (Prod.mk.inj heq).2) (fun heq => (Prod.mk.inj heq).2)

theorem oneContext_complete : Complete oneContext.entries := by
  intro path e h
  obtain rfl | rfl := oneContext_entry h
  · rfl
  · rfl

theorem oneContext_legible : Legible emptyBlobGit oneContext := by
  intro path store executable oid h
  obtain heq | heq := oneContext_entry h
  · cases heq
  · cases heq
    exact ⟨[], by rfl⟩

/-- The same with a link "l" to "d". -/
def linkedContext : CapturedContext Unit :=
  { oneContext with entries := oneContext.entries.insert [[108]] (.symlink [100]) }

theorem linkedContext_entry {path : EntryPath} {e : ContextEntry}
    (h : linkedContext.entries.get? path = some e) :
    e = .symlink [100] ∨ e = .directory ∨ e = .file 0 false emptyBlob := by
  rw [linkedContext, OrdMap.get?_insert] at h
  split at h
  · exact .inl (Option.some.inj h).symm
  · exact .inr (oneContext_entry h)

theorem linkedContext_complete : Complete linkedContext.entries := by
  intro path e h
  obtain rfl | rfl | rfl := linkedContext_entry h
  · rfl
  · rfl
  · rfl

theorem linkedContext_legible : Legible emptyBlobGit linkedContext := by
  intro path store executable oid h
  obtain heq | heq | heq := linkedContext_entry h
  · cases heq
  · cases heq
  · cases heq
    exact ⟨[], by rfl⟩

/-- `read_agrees` on "l/f", which is "d/f". -/
theorem file_reads : ReadsAs emptyBlobGit 0 linkedContext [108, slash, 102] :=
  read_agrees linkedContext_complete linkedContext_legible (by decide)

/-- **A directory resolves**, and is refused by `read`. -/
theorem directory_refused : Complete oneContext.entries ∧ Legible emptyBlobGit oneContext ∧
    isAbsolute [100] = false ∧
    endsInDirectory [100] = false ∧ resolve oneContext.entries (pathIter [100]) = .ok [[100]] ∧
    oneContext.entries.get? [[100]] = some .directory ∧
    oneContext.read emptyBlobGit 0 [100] = some (.error
      (.invalid "selected context path is not a regular file")) := by
  have hget : oneContext.entries.get? ([] ++ [[100]]) = some .directory := by decide
  have hiter : pathIter [100] = [[100]] := by decide
  refine ⟨oneContext_complete, oneContext_legible, by decide, by decide, ?_, hget, ?_⟩
  · rw [hiter, resolve, resolveFrom_directory (by decide) (by decide) hget, resolveFrom]
    rfl
  · have hexpand : oneContext.expand emptyBlobGit 0 ([] ++ [[100]]) = some (.ok oneContext) :=
      expand_plain _ _ fun e h => oneContext_complete _ e h
    have hreach : oneContext.reach emptyBlobGit 0 [100] = some (.ok ([[100]], oneContext)) := by
      rw [CapturedContext.reach, hiter, if_neg (by decide), List.append_nil,
        CapturedContext.readFrom, if_neg (by decide),
        if_neg (by decide), hexpand]
      dsimp only
      rw [hget]
      dsimp only
      rw [CapturedContext.readFrom]
      rfl
    have hhere : oneContext.entries.get? [[100]] = some .directory := hget
    rw [CapturedContext.read, hreach]
    dsimp only
    rw [hhere]

end Conglobate.Context
