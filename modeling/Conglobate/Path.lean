import Conglobate.Copy.Source
import Conglobate.Lib.Split

/- Relative paths (`path.rs`).

   A path is a locator: what it names has still to be resolved. Its names are kept as
   written, also where they lead up again; what was checked is that they never lead above
   the directory they start from (`locate`), and for a file, that they do not lead back to
   it. Without links on the way, such a path stays below whatever it is joined to
   (`locate_below`).

   Correspondence (Rust ↔ Lean):
     `Path::components` of a relative path ↔ `Copy.pathParts`
     the loop of `try_from`                ↔ `locate`
     `RelativePath<FilePath>`              ↔ `ContextPath`
     `RelativePath::try_from`              ↔ `ContextPath.tryFrom` -/
namespace Conglobate

open Copy

inductive PathError where
  | absolute
  | escape
  | empty
  | nul
  deriving DecidableEq, Repr

namespace PathError

/-- What is displayed. -/
def message : PathError → String
  | .absolute => "context path must be relative"
  | .escape => "context path escapes the selected context"
  | .empty => "context file path must name a file, not the context root"
  | .nul => "context path contains NUL"

end PathError

/-- Where names lead, without links: nothing above where they start. -/
def locate (here : List Bytes) : List Bytes → Option (List Bytes)
  | [] => some here
  | name :: rest =>
    if name = dotName then locate here rest
    else if name = dotdotName then if here = [] then none else locate here.dropLast rest
    else locate (here ++ [name]) rest

theorem locate_append (here a b : List Bytes) :
    locate here (a ++ b) = (locate here a).bind fun there => locate there b := by
  induction a generalizing here with
  | nil => rfl
  | cons name rest ih =>
    rw [List.cons_append, locate, locate]
    split
    · exact ih here
    · split
      · split
        · rfl
        · exact ih here.dropLast
      · exact ih (here ++ [name])

/-- **A path that does not lead above its start** stays below whatever that is joined to. -/
theorem locate_below (base : List Bytes) {here names there : List Bytes}
    (h : locate here names = some there) :
    locate (base ++ here) names = some (base ++ there) := by
  induction names generalizing here with
  | nil =>
    cases h
    rfl
  | cons name rest ih =>
    rw [locate] at h ⊢
    split
    · rename_i hdot
      rw [if_pos hdot] at h
      exact ih h
    · rename_i hdot
      rw [if_neg hdot] at h
      split
      · rename_i hdotdot
        rw [if_pos hdotdot] at h
        by_cases hhere : here = []
        · rw [if_pos hhere] at h
          cases h
        · rw [if_neg hhere] at h
          rw [if_neg (fun hnil => hhere (List.append_eq_nil_iff.mp hnil).2),
            List.dropLast_append_of_ne_nil hhere]
          exact ih h
      · rename_i hdotdot
        rw [if_neg hdotdot] at h
        rw [List.append_assoc]
        exact ih h

/-- Names that are neither dots. -/
def PlainNames (names : List Bytes) : Prop := ∀ name ∈ names, name ≠ dotName ∧ name ≠ dotdotName

theorem locate_plain {names : List Bytes} (h : PlainNames names) (here : List Bytes) :
    locate here names = some (here ++ names) := by
  induction names generalizing here with
  | nil => rw [List.append_nil]; rfl
  | cons name rest ih =>
    obtain ⟨⟨hdot, hdotdot⟩, hrest⟩ := List.forall_mem_cons.mp h
    rw [locate, if_neg hdot, if_neg hdotdot, ih hrest, List.append_assoc]
    rfl

/-- A relative path of a file. -/
structure ContextPath where
  names : List Bytes
  /-- They lead to something below. -/
  valid : (locate [] names).any (fun there => !there.isEmpty) = true

namespace ContextPath

theorem names_injective : Function.Injective ContextPath.names := by
  rintro ⟨a, _⟩ ⟨b, _⟩ h
  exact (ContextPath.mk.injEq ..).mpr h

instance instLinearOrder : LinearOrder ContextPath := LinearOrder.lift' names names_injective

/-- Where the path leads. -/
def location (p : ContextPath) : List Bytes := (locate [] p.names).getD []

theorem locate_names (p : ContextPath) : locate [] p.names = some p.location ∧ p.location ≠ [] := by
  obtain ⟨there, hthere, hsome⟩ := (Option.any_eq_true _ _).mp p.valid
  have hlocation : p.location = there := by
    rw [location, hthere]
    rfl
  rw [hlocation]
  refine ⟨hthere, fun hnil => ?_⟩
  rw [hnil] at hsome
  cases hsome

theorem names_ne_nil (p : ContextPath) : p.names ≠ [] := by
  intro hnil
  obtain ⟨hlocate, hne⟩ := p.locate_names
  rw [hnil] at hlocate
  exact hne (Option.some.inj hlocate).symm

/-- The checks of the names. -/
def check (names : List Bytes) : Except PathError ContextPath :=
  if h : (locate [] names).any (fun there => !there.isEmpty) = true then .ok ⟨names, h⟩
  else if (locate [] names).isNone then .error .escape
  else .error .empty

def tryFrom (path : Bytes) : Except PathError ContextPath :=
  if path.contains 0 then .error .nul
  else if isAbsolute path then .error .absolute
  else check (pathParts path)

theorem check_eq_ok {names : List Bytes} {p : ContextPath} :
    check names = .ok p ↔ p.names = names := by
  rw [check]
  split
  · rename_i h
    refine ⟨fun heq => ?_, fun heq => ?_⟩
    · cases heq
      rfl
    · rw [names_injective (show p.names = (ContextPath.mk names h).names from heq)]
  · rename_i h
    refine iff_of_false (fun heq => ?_) fun heq => h (heq ▸ p.valid)
    split at heq <;> cases heq

end ContextPath

end Conglobate
