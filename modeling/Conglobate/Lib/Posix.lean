import Mathlib.Data.List.Basic
import Mathlib.Logic.Relation

/- Path walking as POSIX has it, over any names and any tree.

   A tree says what each path from its root denotes: a directory, something else
   that is no link, or a link with its target's names. The root is a directory. A walk stands
   somewhere, has names pending and has followed some links; one step looks at the
   first pending name (`Step`): a dot stays, a dot-dot goes to the parent (the root
   is its own), another name enters what it denotes, or puts a link's names in
   front of what is pending, from the root if the link is absolute. Every step
   needs a directory to stand in, so a walk is stuck at what is missing and behind
   what is no directory. Steps are determined (`Step.unique`), and a walk only
   stands where every prefix is a directory (`Reaches.placed`). -/
namespace Conglobate.Posix

inductive Node (ν : Type) where
  | directory
  | leaf
  | link (absolute : Bool) (target : List ν)

/-- The two names that denote no entry. -/
structure Names (ν : Type) where
  dot : ν
  dotdot : ν
  distinct : dot ≠ dotdot

structure State (ν : Type) where
  here : List ν
  pending : List ν
  links : Nat

section
variable {ν : Type} (names : Names ν) (tree : List ν → Option (Node ν))

def IsDirectory (path : List ν) : Prop := path = [] ∨ tree path = some .directory

/-- Entered as it is: no link. -/
def Node.Solid : Node ν → Prop
  | .link _ _ => False
  | _ => True

inductive Step : State ν → State ν → Prop where
  | dot {here rest : List ν} {links : Nat} : IsDirectory tree here →
      Step ⟨here, names.dot :: rest, links⟩ ⟨here, rest, links⟩
  | parent {here rest : List ν} {links : Nat} : IsDirectory tree here →
      Step ⟨here, names.dotdot :: rest, links⟩ ⟨here.dropLast, rest, links⟩
  | enter {here rest : List ν} {links : Nat} {name : ν} {node : Node ν} : IsDirectory tree here →
      name ≠ names.dot → name ≠ names.dotdot → tree (here ++ [name]) = some node → node.Solid →
      Step ⟨here, name :: rest, links⟩ ⟨here ++ [name], rest, links⟩
  | follow {here rest target : List ν} {links : Nat} {name : ν} {absolute : Bool} :
      IsDirectory tree here →
      name ≠ names.dot → name ≠ names.dotdot → tree (here ++ [name]) =
        some (.link absolute target) →
      Step ⟨here, name :: rest, links⟩ ⟨if absolute then [] else here, target ++ rest, links + 1⟩

/-- Where a walk comes by. -/
def Reaches : State ν → State ν → Prop := Relation.ReflTransGen (Step names tree)

/-- The next name neither leaves the root nor is an absolute link. -/
def Stays (s : State ν) : Prop :=
  (s.here = [] → s.pending.head? ≠ some names.dotdot) ∧
  ∀ name target, s.pending.head? = some name → name ≠ names.dot → name ≠ names.dotdot →
    tree (s.here ++ [name]) ≠ some (.link true target)

/-- Every proper prefix is a directory, and the whole is the root or no link. -/
structure Placed (path : List ν) : Prop where
  inner : ∀ q, q <+: path → q ≠ path → IsDirectory tree q
  outer : path = [] ∨ ∃ node, tree path = some node ∧ node.Solid

end

variable {ν : Type} {names : Names ν} {tree : List ν → Option (Node ν)} {s t u : State ν}

theorem IsDirectory.nil : IsDirectory tree [] := .inl rfl

theorem Step.directory (h : Step names tree s t) : IsDirectory tree s.here := by
  cases h <;> assumption

theorem Step.pending (h : Step names tree s t) : s.pending ≠ [] := by
  cases h <;> exact List.cons_ne_nil _ _

/-- **One next state at most.** -/
theorem Step.unique (h : Step names tree s t) (h' : Step names tree s u) : t = u := by
  generalize hs : s = s' at h'
  -- both steps look at the same name; only steps of one kind agree on it
  cases h with
  | dot _ =>
    cases h' with
    | dot _ => simp_all
    | parent _ => exact absurd (List.cons.inj (State.mk.inj hs).2.1).1 names.distinct
    | enter _ hdot _ _ _ => exact absurd (List.cons.inj (State.mk.inj hs).2.1).1.symm hdot
    | follow _ hdot _ _ => exact absurd (List.cons.inj (State.mk.inj hs).2.1).1.symm hdot
  | parent _ =>
    cases h' with
    | dot _ => exact absurd (List.cons.inj (State.mk.inj hs).2.1).1.symm names.distinct
    | parent _ => simp_all
    | enter _ _ hdotdot _ _ => exact absurd (List.cons.inj (State.mk.inj hs).2.1).1.symm hdotdot
    | follow _ _ hdotdot _ => exact absurd (List.cons.inj (State.mk.inj hs).2.1).1.symm hdotdot
  | enter _ hdot hdotdot hnode hsolid =>
    cases h' with
    | dot _ => exact absurd (List.cons.inj (State.mk.inj hs).2.1).1 hdot
    | parent _ => exact absurd (List.cons.inj (State.mk.inj hs).2.1).1 hdotdot
    | enter _ _ _ _ _ => simp_all
    | follow _ _ _ hlink =>
      obtain ⟨rfl, hpending, -⟩ := State.mk.inj hs
      obtain ⟨rfl, -⟩ := List.cons.inj hpending
      rw [hnode, Option.some.injEq] at hlink
      exact absurd hsolid (by rw [hlink]; exact id)
  | follow _ hdot hdotdot hlink =>
    cases h' with
    | dot _ => exact absurd (List.cons.inj (State.mk.inj hs).2.1).1 hdot
    | parent _ => exact absurd (List.cons.inj (State.mk.inj hs).2.1).1 hdotdot
    | enter _ _ _ hnode hsolid =>
      obtain ⟨rfl, hpending, -⟩ := State.mk.inj hs
      obtain ⟨rfl, -⟩ := List.cons.inj hpending
      rw [hlink, Option.some.injEq] at hnode
      exact absurd hsolid (by rw [← hnode]; exact id)
    | follow _ _ _ _ => simp_all

/-! Where walks stand. -/

theorem Placed.nil : Placed tree [] :=
  ⟨fun _ hq hne => absurd (List.prefix_nil.mp hq) hne, .inl rfl⟩

theorem Placed.snoc {here : List ν} {name : ν} {node : Node ν} (h : Placed tree here)
    (hdir : IsDirectory tree here) (hnode : tree (here ++ [name]) = some node)
    (hsolid : node.Solid) : Placed tree (here ++ [name]) where
  inner q hq hne := by
    obtain heq | hq := List.prefix_concat_iff.mp hq
    · exact absurd heq hne
    · by_cases hwhole : q = here
      · exact hwhole ▸ hdir
      · exact h.inner q hq hwhole
  outer := .inr ⟨node, hnode, hsolid⟩

theorem Placed.parent {here : List ν} (h : Placed tree here) : IsDirectory tree here.dropLast := by
  by_cases hnil : here = []
  · exact .inl (by rw [hnil]; rfl)
  · apply h.inner _ (List.dropLast_prefix here)
    intro heq
    have hlength := congrArg List.length heq
    have := List.length_pos_iff.mpr hnil
    rw [List.length_dropLast] at hlength
    omega

theorem IsDirectory.solid {path : List ν} (h : IsDirectory tree path) :
    path = [] ∨ ∃ node, tree path = some node ∧ node.Solid :=
  h.imp_right fun hnode => ⟨.directory, hnode, trivial⟩

theorem Placed.dropLast {here : List ν} (h : Placed tree here) : Placed tree here.dropLast where
  inner q hq hne := by
    have hprefix : here.dropLast <+: here := List.dropLast_prefix here
    refine h.inner q (hq.trans hprefix) ?_
    rintro rfl
    exact hne (hq.eq_of_length_le hprefix.length_le)
  outer := h.parent.solid

/-- A link is no place; a step away from one keeps to where it stood. -/
theorem Step.placed (h : Step names tree s t) (hs : Placed tree s.here) : Placed tree t.here := by
  cases h with
  | dot _ => exact hs
  | parent _ => exact hs.dropLast
  | enter hdir _ _ hnode hsolid => exact hs.snoc hdir hnode hsolid
  | @follow _ _ _ _ _ absolute _ _ _ _ =>
    cases absolute with
    | true => exact Placed.nil
    | false => exact hs

/-- **A walk stands inside the tree**, behind directories only. -/
theorem Reaches.placed (h : Reaches names tree s t) (hs : Placed tree s.here) :
    Placed tree t.here := by
  induction h with
  | refl => exact hs
  | tail _ hstep ih => exact hstep.placed ih

/-! Walks that end. -/

/-- Links are counted up. -/
theorem Reaches.links_le (h : Reaches names tree s t) : s.links ≤ t.links := by
  induction h with
  | refl => exact Nat.le_refl _
  | tail _ hstep ih =>
    refine Nat.le_trans ih ?_
    cases hstep <;> simp

/-- On the way to an end, every step is the one taken. -/
theorem Reaches.of_step {p : List ν} {n : Nat} (h : Reaches names tree s ⟨p, [], n⟩)
    (hstep : Step names tree s t) :
    Reaches names tree t ⟨p, [], n⟩ := by
  obtain heq | ⟨u, hu, hrest⟩ := Relation.ReflTransGen.cases_head h
  · exact absurd (by rw [heq]) hstep.pending
  · rwa [hstep.unique hu]

/-- Whatever comes by on the way ends there too. -/
theorem Reaches.through {p : List ν} {n : Nat} (h : Reaches names tree s ⟨p, [], n⟩)
    (ht : Reaches names tree s t) :
    Reaches names tree t ⟨p, [], n⟩ := by
  induction ht with
  | refl => exact h
  | tail _ hstep ih => exact ih.of_step hstep

/-- A step away from names in front of others leaves these behind. -/
theorem Step.front {here front rest : List ν} {name : ν} {k : Nat}
    (h : Step names tree ⟨here, name :: front ++ rest, k⟩ t) :
    ∃ here' front' k', t = ⟨here', front' ++ rest, k'⟩ := by
  generalize hs : (⟨here, name :: front ++ rest, k⟩ : State ν) = s at h
  cases h with
  | follow _ _ _ _ =>
    obtain ⟨-, rfl⟩ := List.cons.inj (State.mk.inj hs).2.1
    exact ⟨_, _, _, congrArg (State.mk _ · _) (List.append_assoc _ front rest).symm⟩
  | _ =>
    obtain ⟨-, rfl⟩ := List.cons.inj (State.mk.inj hs).2.1
    exact ⟨_, _, _, rfl⟩

/-- **A walk comes by between its names**: what is in front is walked first. -/
theorem Reaches.split {front rest p : List ν} {here : List ν} {k n : Nat}
    (h : Reaches names tree ⟨here, front ++ rest, k⟩ ⟨p, [], n⟩) :
    ∃ q m, Reaches names tree ⟨here, front ++ rest, k⟩ ⟨q, rest, m⟩ := by
  generalize hs : (⟨here, front ++ rest, k⟩ : State ν) = s at h ⊢
  induction h using Relation.ReflTransGen.head_induction_on generalizing here front k with
  | refl =>
    rw [State.mk.injEq, List.append_eq_nil_iff] at hs
    obtain ⟨-, ⟨-, rfl⟩, -⟩ := hs
    exact ⟨p, n, .refl⟩
  | head hstep _ ih =>
    subst hs
    cases front with
    | nil => exact ⟨here, k, .refl⟩
    | cons name front =>
      obtain ⟨here', front', k', hnext⟩ := hstep.front
      obtain ⟨q, m, hq⟩ := ih hnext.symm
      exact ⟨q, m, .head hstep hq⟩

/-- Names that end in a dot lead to a directory. -/
theorem Reaches.directory {front rest p : List ν} {here : List ν} {k n : Nat}
    (h : Reaches names tree ⟨here, front ++ names.dot :: rest, k⟩ ⟨p, [], n⟩) :
    ∃ q m, IsDirectory tree q ∧ Reaches names tree
      ⟨here, front ++ names.dot :: rest, k⟩ ⟨q, rest, m⟩ := by
  obtain ⟨q, m, hq⟩ := h.split
  obtain heq | ⟨u, hu, -⟩ := Relation.ReflTransGen.cases_head (h.through hq)
  · rw [State.mk.injEq] at heq
    exact absurd heq.2.1 (List.cons_ne_nil _ _)
  · have hdot : Step names tree ⟨q, names.dot :: rest, m⟩ ⟨q, rest, m⟩ := .dot hu.directory
    exact ⟨q, m, hu.directory, hq.tail hdot⟩

end Conglobate.Posix
