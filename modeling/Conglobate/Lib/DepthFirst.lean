import Mathlib.Algebra.BigOperators.Group.Finset.Basic
import Mathlib.Algebra.Order.BigOperators.Group.Finset
import Mathlib.Logic.Relation
import Conglobate.Lib.File

/- Depth-first ordering with an explicit stack.

   A node's entry is popped twice: once to push its dependencies above an exit
   mark, once, at the mark, to finish it. `run` is the loop, `walk` one search and
   `walks` several that share what is finished. The order of finishing is `Ordered`:
   no node twice, each behind all it depends on. A search fails only on a node
   that has no dependency list or lies on a cycle, and only when it reaches one
   (`walks_eq_ok`); the fuel is never the reason (`Fault`). -/
namespace Conglobate.DepthFirst

open Relation

/-- Why a search stops early. -/
inductive Failure (α : Type) where
  | unknown (a : α)
  | cycle (a : α)
  | outOfFuel
  deriving DecidableEq, Repr

/-- The locals of a search, the top of the stack first; a set flag marks an exit. -/
structure State (α : Type) where
  stack : List (α × Bool)
  visiting : Finset α
  done : Finset α
  order : List α

variable {α : Type} (deps : α → Option (List α))

section Loop
variable [DecidableEq α]

/-- One round, the top entry popped. -/
def round (s : State α) (name : α) (exit : Bool) (rest : List (α × Bool)) :
    Except (Failure α) (State α) :=
  if exit then
    .ok ⟨rest, s.visiting.erase name, insert name s.done, s.order ++ [name]⟩
  else if name ∈ s.done then .ok { s with stack := rest }
  else
    match deps name with
    | none => .error (.unknown name)
    | some ds =>
      if name ∈ s.visiting then .error (.cycle name)
      else .ok { s with
        stack := ds.map (fun d => (d, false)) ++ (name, true) :: rest
        visiting := insert name s.visiting }

def run : Nat → State α → Except (Failure α) (State α)
  | 0, s => if s.stack = [] then .ok s else .error .outOfFuel
  | fuel + 1, s =>
    match s.stack with
    | [] => .ok s
    | (name, exit) :: rest =>
      match round deps s name exit rest with
      | .error e => .error e
      | .ok s' => run fuel s'

/-- What expanding every node of `nodes` pushes. -/
def weight (nodes : Finset α) : Nat := ∑ a ∈ nodes, (((deps a).getD []).length + 1)

/-- Search from `start`, what is finished and its order carried over. -/
def walk (nodes : Finset α) (start : α) (done : Finset α) (order : List α) :
    Except (Failure α) (Finset α × List α) := do
  let s ← run deps (weight deps nodes + 1) ⟨[(start, false)], ∅, done, order⟩
  .ok (s.done, s.order)

/-- Search from each of `starts` in turn. -/
def walks (nodes : Finset α) (starts : List α) (done : Finset α) (order : List α) :
    Except (Failure α) (Finset α × List α) :=
  starts.foldlM (fun s start => walk deps nodes start s.1 s.2) (done, order)

/-- Search from each of `starts` in turn, every order thrown away. -/
def checks (nodes : Finset α) (starts : List α) (done : Finset α) : Except (Failure α) (Finset α) :=
  starts.foldlM (fun done start => Prod.fst <$> walk deps nodes start done []) done

end Loop

/-! Orders. -/

/-- `a` depends on `b`. -/
def Edge (a b : α) : Prop := ∃ ds, deps a = some ds ∧ b ∈ ds

/-- New nodes, once each, every one behind all it depends on. -/
inductive Ordered (before : Finset α) : List α → Prop
  | nil : Ordered before []
  | snoc {l : List α} {a : α} : Ordered before l → a ∉ before → a ∉ l → (deps a).isSome →
      (∀ b, Edge deps a b → b ∈ before ∨ b ∈ l) → Ordered before (l ++ [a])

namespace Ordered

variable {deps} {before : Finset α} {l l' : List α}

theorem nodup (h : Ordered deps before l) : l.Nodup := by
  induction h with
  | nil => exact List.nodup_nil
  | snoc _ _ hl _ _ ih =>
    rw [← List.concat_eq_append]
    exact ih.concat hl

theorem known (h : Ordered deps before l) : ∀ a ∈ l, (deps a).isSome := by
  induction h with
  | nil => simp
  | snoc _ _ _ hk _ ih =>
    intro x hx
    rcases List.mem_append.mp hx with hx | hx
    · exact ih x hx
    · rw [List.mem_singleton.mp hx]
      exact hk

/-- **What a node depends on is before it.** -/
theorem earlier (h : Ordered deps before l) {l₁ l₂ : List α} {a b : α} (hl : l = l₁ ++ a :: l₂)
    (he : Edge deps a b) : b ∈ before ∨ b ∈ l₁ := by
  induction h generalizing l₂ with
  | nil => simp at hl
  | @snoc l x hl' _ _ _ hd ih =>
    rcases List.eq_nil_or_concat l₂ with rfl | ⟨l₂', z, rfl⟩
    · obtain ⟨rfl, hx⟩ := List.append_inj' hl rfl
      rw [List.singleton_inj] at hx
      exact hd b (hx ▸ he)
    · rw [List.concat_eq_append, ← List.cons_append, ← List.append_assoc] at hl
      obtain ⟨rfl, -⟩ := List.append_inj' hl rfl
      exact ih rfl

theorem closed (h : Ordered deps before l) {a b : α} (ha : a ∈ l) (he : Edge deps a b) :
    b ∈ before ∨ b ∈ l := by
  obtain ⟨l₁, l₂, hl⟩ := List.append_of_mem ha
  refine (h.earlier hl he).imp id ?_
  intro hb
  rw [hl]
  exact List.mem_append_left _ hb

/-- Orders compose. -/
theorem append [DecidableEq α] (h : Ordered deps before l)
    (h' : Ordered deps (before ∪ l.toFinset) l') :
    Ordered deps before (l ++ l') := by
  induction h' with
  | nil => rwa [List.append_nil]
  | @snoc l' a _ hb hl hk hd ih =>
    rw [Finset.mem_union, List.mem_toFinset, not_or] at hb
    rw [← List.append_assoc]
    refine ih.snoc hb.1 ?_ hk ?_
    · rw [List.mem_append, not_or]
      exact ⟨hb.2, hl⟩
    · intro b he
      have := hd b he
      rw [Finset.mem_union, List.mem_toFinset, or_assoc] at this
      rwa [List.mem_append]

/-- A complete order contains all that its nodes reach. -/
theorem reach (h : Ordered deps ∅ l) {a b : α} (ha : a ∈ l) (hr : ReflTransGen (Edge deps) a b) :
    b ∈ l := by
  induction hr with
  | refl => exact ha
  | tail _ he ih => exact (h.closed ih he).resolve_left (Finset.notMem_empty _)

/-- **No node of a complete order lies on a cycle.** -/
theorem acyclic (h : Ordered deps ∅ l) : ∀ a ∈ l, ¬ TransGen (Edge deps) a a := by
  induction h with
  | nil => simp
  | @snoc l a h _ hl _ hd ih =>
    intro x hx
    rcases List.mem_append.mp hx with hx | hx
    · exact ih x hx
    · rw [List.mem_singleton.mp hx]
      intro hcycle
      obtain ⟨b, he, hr⟩ := TransGen.head'_iff.mp hcycle
      have hb : b ∈ l := (hd b he).resolve_left (Finset.notMem_empty _)
      exact hl (h.reach hb hr)

end Ordered

/-! The invariant of a search. -/

/-- Under every exit mark, all the node depends on is `above`: finished, or on the
    stack above the mark. -/
def Covered (above : α → Prop) : List (α × Bool) → Prop
  | [] => True
  | (a, exit) :: rest =>
    (exit = true → ∀ b, Edge deps a b → above b) ∧ Covered (fun x => above x ∨ x = a) rest

theorem Covered.mono {deps : α → Option (List α)} {above above' : α → Prop} {l : List (α × Bool)}
    (h : Covered deps above l) (hsub : ∀ a, above a → above' a) : Covered deps above' l := by
  induction l generalizing above above' with
  | nil => trivial
  | cons e rest ih =>
    obtain ⟨hmark, hrest⟩ := h
    exact ⟨fun he b hb => hsub b (hmark he b hb), ih hrest (fun a ha => ha.imp (hsub a) id)⟩

/-- Pushed dependencies cover what is below them. -/
theorem Covered.push {deps : α → Option (List α)} {above : α → Prop} {ds : List α}
    {rest : List (α × Bool)} (h : Covered deps (fun x => above x ∨ x ∈ ds) rest) :
    Covered deps above (ds.map (fun d => (d, false)) ++ rest) := by
  induction ds generalizing above with
  | nil => exact h.mono (by simp)
  | cons d ds ih =>
    refine ⟨by simp, ih (h.mono ?_)⟩
    intro a ha
    rw [List.mem_cons] at ha
    tauto

/-- The state of a search from `start` that began with `before` finished. -/
structure Inv [DecidableEq α] (start : α) (before : Finset α) (front : List α) (s : State α) :
    Prop where
  visiting : ∀ a, a ∈ s.visiting ↔ (a, true) ∈ s.stack
  exits : s.stack.Pairwise (fun u l => u.2 = true → l.2 = true → u.1 ≠ l.1)
  fresh : ∀ a ∈ s.visiting, a ∉ s.done
  known : ∀ a ∈ s.visiting, (deps a).isSome
  covered : Covered deps (· ∈ s.done) s.stack
  path : s.stack.Pairwise (fun u l => l.2 = true → TransGen (Edge deps) l.1 u.1)
  reach : ∀ e ∈ s.stack, ReflTransGen (Edge deps) start e.1
  ordered : ∃ new, s.order = front ++ new ∧ Ordered deps before new ∧
    s.done = before ∪ new.toFinset ∧ ∀ a ∈ new, ReflTransGen (Edge deps) start a
  started : start ∈ s.done ∨ ∃ exit, (start, exit) ∈ s.stack

/-- A failure the graph accounts for. -/
def Fault (start : α) : Failure α → Prop
  | .unknown a => ReflTransGen (Edge deps) start a ∧ deps a = none
  | .cycle a => ReflTransGen (Edge deps) start a ∧ TransGen (Edge deps) a a
  | .outOfFuel => False

/-- The rounds a search may still take. -/
def budget [DecidableEq α] (nodes : Finset α) (s : State α) : Nat :=
  s.stack.length + weight deps (nodes.filter (fun a => a ∉ s.done ∧ a ∉ s.visiting))

section Round
variable [DecidableEq α] {deps} {nodes : Finset α} {start : α} {before : Finset α} {front : List α}
    {s : State α} {name : α} {rest : List (α × Bool)}

theorem inv_exit (h : Inv deps start before front s) (hstack : s.stack = (name, true) :: rest) :
    Inv deps start before front ⟨rest, s.visiting.erase name, insert name s.done,
      s.order ++ [name]⟩ := by
  obtain ⟨hvisiting, hexits, hfresh, hknown, hcovered, hpath, hreach,
    ⟨new, horder, hnew, hdone, hnewReach⟩, hstarted⟩ := h
  rw [hstack] at hvisiting hexits hcovered hpath hreach hstarted
  rw [List.pairwise_cons] at hexits hpath
  have hin : name ∈ s.visiting := (hvisiting name).mpr List.mem_cons_self
  have hout : name ∉ s.done := hfresh name hin
  refine ⟨?_, hexits.2, ?_, ?_, ?_, hpath.2, fun e he => hreach e
    (List.mem_cons_of_mem _ he), ?_, ?_⟩
  · intro a
    rw [Finset.mem_erase, hvisiting, List.mem_cons]
    constructor
    · rintro ⟨hne, h | h⟩
      · exact absurd (congrArg Prod.fst h) hne
      · exact h
    · exact fun h => ⟨fun heq => hexits.1 _ h rfl rfl heq.symm, .inr h⟩
  · intro a ha
    rw [Finset.mem_erase] at ha
    rw [Finset.mem_insert, not_or]
    exact ⟨ha.1, hfresh a ha.2⟩
  · intro a ha
    exact hknown a (Finset.mem_of_mem_erase ha)
  · refine hcovered.2.mono ?_
    rintro a (h | rfl)
    · exact Finset.mem_insert_of_mem h
    · exact Finset.mem_insert_self _ _
  · rw [hdone, Finset.mem_union, List.mem_toFinset, not_or] at hout
    refine ⟨new ++ [name], by rw [horder, List.append_assoc],
      hnew.snoc hout.1 hout.2 (hknown name hin) ?_, ?_, ?_⟩
    · intro b he
      have hb := hcovered.1 rfl b he
      rwa [hdone, Finset.mem_union, List.mem_toFinset] at hb
    · ext a
      simp only [hdone, Finset.mem_insert, Finset.mem_union, List.mem_toFinset, List.mem_append,
        List.mem_singleton]
      tauto
    · intro a ha
      rcases List.mem_append.mp ha with ha | ha
      · exact hnewReach a ha
      · rw [List.mem_singleton.mp ha]
        exact hreach _ List.mem_cons_self
  · rcases hstarted with h | ⟨exit, h⟩
    · exact .inl (Finset.mem_insert_of_mem h)
    · rcases List.mem_cons.mp h with h | h
      · rw [(Prod.mk.inj h).1]
        exact .inl (Finset.mem_insert_self _ _)
      · exact .inr ⟨exit, h⟩

theorem inv_skip (h : Inv deps start before front s) (hstack : s.stack = (name, false) :: rest)
    (hin : name ∈ s.done) : Inv deps start before front { s with stack := rest } := by
  obtain ⟨hvisiting, hexits, hfresh, hknown, hcovered, hpath, hreach, hordered, hstarted⟩ := h
  rw [hstack] at hvisiting hexits hcovered hpath hreach hstarted
  rw [List.pairwise_cons] at hexits hpath
  refine ⟨?_, hexits.2, hfresh, hknown, ?_, hpath.2, fun e he => hreach e
    (List.mem_cons_of_mem _ he), hordered, ?_⟩
  · intro a
    rw [hvisiting]
    simp
  · refine hcovered.2.mono ?_
    rintro a (h | rfl)
    · exact h
    · exact hin
  · rcases hstarted with h | ⟨exit, h⟩
    · exact .inl h
    · rcases List.mem_cons.mp h with h | h
      · rw [(Prod.mk.inj h).1]
        exact .inl hin
      · exact .inr ⟨exit, h⟩

theorem inv_expand (h : Inv deps start before front s) (hstack : s.stack = (name, false) :: rest)
    (hout : name ∉ s.done) (hnot : name ∉ s.visiting) {ds : List α} (hds : deps name = some ds) :
    Inv deps start before front { s with
      stack := ds.map (fun d => (d, false)) ++ (name, true) :: rest
      visiting := insert name s.visiting } := by
  obtain ⟨hvisiting, hexits, hfresh, hknown, hcovered, hpath, hreach, hordered, hstarted⟩ := h
  rw [hstack] at hvisiting hexits hcovered hpath hreach hstarted
  rw [List.pairwise_cons] at hexits hpath
  have hedge : ∀ d ∈ ds, Edge deps name d := fun d hd => ⟨ds, hds, hd⟩
  have hname := hreach (name, false) List.mem_cons_self
  refine ⟨?_, ?_, ?_, ?_, ?_, ?_, ?_, hordered, ?_⟩
  · intro a
    rw [Finset.mem_insert, hvisiting]
    simp
  · rw [List.pairwise_append, List.pairwise_cons]
    refine ⟨?_, ⟨?_, hexits.2⟩, ?_⟩
    · exact List.pairwise_map.mpr (List.pairwise_of_forall (by simp))
    · intro e he _ hexit heq
      obtain ⟨a, m⟩ := e
      dsimp only at hexit heq
      subst hexit heq
      exact hnot ((hvisiting name).mpr (List.mem_cons_of_mem _ he))
    · intro u hu l _ hexit
      obtain ⟨d, -, rfl⟩ := List.mem_map.mp hu
      cases hexit
  · intro a ha
    rcases Finset.mem_insert.mp ha with rfl | ha
    · exact hout
    · exact hfresh a ha
  · intro a ha
    rcases Finset.mem_insert.mp ha with rfl | ha
    · rw [hds]
      rfl
    · exact hknown a ha
  · refine Covered.push ⟨fun _ b hb => .inr ?_, hcovered.2.mono (fun a ha => by tauto)⟩
    obtain ⟨ds', hds', hb⟩ := hb
    rw [hds, Option.some.injEq] at hds'
    rwa [hds']
  · rw [List.pairwise_append, List.pairwise_cons]
    refine ⟨?_, ⟨fun l hl hexit => hpath.1 l hl hexit, hpath.2⟩, ?_⟩
    · exact List.pairwise_map.mpr (List.pairwise_of_forall (by simp))
    · intro u hu l hl hexit
      obtain ⟨d, hd, rfl⟩ := List.mem_map.mp hu
      rcases List.mem_cons.mp hl with rfl | hl
      · exact TransGen.single (hedge d hd)
      · exact (hpath.1 l hl hexit).tail (hedge d hd)
  · intro e he
    rcases List.mem_append.mp he with he | he
    · obtain ⟨d, hd, rfl⟩ := List.mem_map.mp he
      exact hname.tail (hedge d hd)
    · rcases List.mem_cons.mp he with rfl | he
      · exact hname
      · exact hreach e (List.mem_cons_of_mem _ he)
  · rcases hstarted with h | ⟨exit, h⟩
    · exact .inl h
    · rcases List.mem_cons.mp h with h | h
      · exact .inr ⟨true, by simp [(Prod.mk.inj h).1]⟩
      · exact .inr ⟨exit, by simp [h]⟩

/-- **One round** keeps the invariant and uses up budget, or fails for a reason. -/
theorem round_spec (hnodes : ∀ a, (deps a).isSome → a ∈ nodes) {exit : Bool}
    (h : Inv deps start before front s) (hstack : s.stack = (name, exit) :: rest) :
    (∃ s', round deps s name exit rest = .ok s' ∧ Inv deps start before front s' ∧
      budget deps nodes s' < budget deps nodes s) ∨
    ∃ e, round deps s name exit rest = .error e ∧ Fault deps start e := by
  have hreach := h.reach (name, exit) (by rw [hstack]; exact List.mem_cons_self)
  cases exit with
  | true =>
    refine .inl ⟨_, if_pos rfl, inv_exit h hstack, ?_⟩
    have hin : name ∈ s.visiting := (h.visiting name).mpr (by rw [hstack]; exact List.mem_cons_self)
    have hsame : nodes.filter (fun a => a ∉ insert name s.done ∧ a ∉ s.visiting.erase name) =
        nodes.filter (fun a => a ∉ s.done ∧ a ∉ s.visiting) := by
      refine Finset.filter_congr (fun a _ => ?_)
      by_cases ha : a = name <;> simp [ha, hin]
    unfold budget
    rw [hsame, hstack, List.length_cons]
    exact Nat.add_lt_add_right (Nat.lt_succ_self _) _
  | false =>
    rw [round, if_neg (by simp)]
    by_cases hdone : name ∈ s.done
    · refine .inl ⟨_, if_pos hdone, inv_skip h hstack hdone, ?_⟩
      unfold budget
      rw [hstack, List.length_cons]
      exact Nat.add_lt_add_right (Nat.lt_succ_self _) _
    · rw [if_neg hdone]
      cases hds : deps name with
      | none => exact .inr ⟨_, rfl, hreach, hds⟩
      | some ds =>
        by_cases hvisiting : name ∈ s.visiting
        · refine .inr ⟨_, if_pos hvisiting, hreach, ?_⟩
          have hmark := (h.visiting name).mp hvisiting
          have hpath := h.path
          rw [hstack, List.pairwise_cons] at hpath
          rw [hstack] at hmark
          exact hpath.1 (name, true) (by simpa using hmark) rfl
        · refine .inl ⟨_, if_neg hvisiting, inv_expand h hstack hdone hvisiting hds, ?_⟩
          have hless : nodes.filter (fun a => a ∉ s.done ∧ a ∉ insert name s.visiting) =
              (nodes.filter (fun a => a ∉ s.done ∧ a ∉ s.visiting)).erase name := by
            ext a
            simp only [Finset.mem_filter, Finset.mem_insert, Finset.mem_erase, not_or]
            tauto
          have hmem : name ∈ nodes.filter (fun a => a ∉ s.done ∧ a ∉ s.visiting) := by
            rw [Finset.mem_filter]
            exact ⟨hnodes name (by rw [hds]; rfl), hdone, hvisiting⟩
          have hsum := Finset.add_sum_erase _ (fun a => ((deps a).getD []).length + 1) hmem
          simp only [hds, Option.getD_some] at hsum
          unfold budget weight
          simp only [hless, hstack, List.length_append, List.length_map, List.length_cons]
          omega

/-- **A search ends**, in the invariant or for a reason. -/
theorem run_spec (hnodes : ∀ a, (deps a).isSome → a ∈ nodes) {fuel : Nat}
    (h : Inv deps start before front s) (hfuel : budget deps nodes s ≤ fuel) :
    (∃ s', run deps fuel s = .ok s' ∧ Inv deps start before front s' ∧ s'.stack = []) ∨
    ∃ e, run deps fuel s = .error e ∧ Fault deps start e := by
  induction fuel generalizing s with
  | zero =>
    have hempty : s.stack = [] := by
      rw [← List.length_eq_zero_iff]
      unfold budget at hfuel
      omega
    exact .inl ⟨s, by rw [run, if_pos hempty], h, hempty⟩
  | succ fuel ih =>
    cases hstack : s.stack with
    | nil => exact .inl ⟨s, by rw [run, hstack], h, hstack⟩
    | cons e rest =>
      obtain ⟨name, exit⟩ := e
      rcases round_spec hnodes h hstack with ⟨s', hround, hinv, hless⟩ | ⟨e, hround, hfault⟩
      · simp only [run, hstack, hround]
        exact ih hinv (by omega)
      · exact .inr ⟨e, by simp only [run, hstack, hround], hfault⟩

end Round

/-! Searches. -/

section Walks
variable {deps} {nodes : Finset α} (hnodes : ∀ a, (deps a).isSome → a ∈ nodes)

include hnodes in
/-- **One search** appends an order of new nodes, all reached from its start. -/
theorem walk_spec [DecidableEq α] (start : α) (before : Finset α) (front : List α) :
    (∃ new, walk deps nodes start before front = .ok (before ∪ new.toFinset, front ++ new) ∧
      Ordered deps before new ∧ (start ∈ before ∨ start ∈ new) ∧
      ∀ a ∈ new, ReflTransGen (Edge deps) start a) ∨
    ∃ e, walk deps nodes start before front = .error e ∧ Fault deps start e := by
  have hinv : Inv deps start before front ⟨[(start, false)], ∅, before, front⟩ := by
    refine ⟨by simp, List.pairwise_singleton _ _, by simp, by simp, ⟨by simp, trivial⟩,
      List.pairwise_singleton _ _, ?_, ⟨[], by simp, .nil, by simp, by simp⟩, .inr ⟨false, by simp⟩⟩
    intro e he
    rw [List.mem_singleton.mp he]
  have hfuel : budget deps nodes ⟨[(start, false)], ∅, before, front⟩ ≤ weight deps nodes + 1 := by
    have : weight deps (nodes.filter (fun a => a ∉ before ∧ a ∉ (∅ : Finset α))) ≤
        weight deps nodes :=
      Finset.sum_le_sum_of_subset (Finset.filter_subset _ _)
    unfold budget
    simp only [List.length_singleton]
    omega
  rcases run_spec hnodes hinv hfuel with ⟨s, hrun, hs, hstack⟩ | ⟨e, hrun, hfault⟩
  · obtain ⟨new, horder, hnew, hdone, hreach⟩ := hs.ordered
    refine .inl ⟨new, ?_, hnew, ?_, hreach⟩
    · rw [walk, hrun, except_ok_bind, horder, hdone]
    · have := hs.started
      rw [hstack, hdone, Finset.mem_union, List.mem_toFinset] at this
      simpa using this
  · exact .inr ⟨e, by rw [walk, hrun]; rfl, hfault⟩

include hnodes in
/-- **Several searches** make one order, of exactly what the starts reach. -/
theorem walks_spec [DecidableEq α] (starts : List α) {l : List α} (hl : Ordered deps ∅ l) :
    (∃ l', walks deps nodes starts l.toFinset l = .ok (l'.toFinset, l') ∧ Ordered deps ∅ l' ∧
      (∀ a ∈ l, a ∈ l') ∧ (∀ start ∈ starts, start ∈ l') ∧
      ∀ a ∈ l', a ∈ l ∨ ∃ start ∈ starts, ReflTransGen (Edge deps) start a) ∨
    ∃ e, walks deps nodes starts l.toFinset l = .error e ∧
      ∃ start ∈ starts, Fault deps start e := by
  induction starts generalizing l with
  | nil => exact .inl ⟨l, rfl, hl, fun _ h => h, by simp, fun _ h => .inl h⟩
  | cons start starts ih =>
    unfold walks at ih ⊢
    rw [List.foldlM_cons]
    rcases walk_spec hnodes start l.toFinset l with ⟨new, hwalk, hnew, hstart, hreach⟩ | ⟨e,
      hwalk, hfault⟩
    · have hl' : Ordered deps ∅ (l ++ new) := hl.append (by rwa [Finset.empty_union])
      rw [hwalk, except_ok_bind, ← List.toFinset_append]
      rcases ih hl' with ⟨l', hok, hordered, hsub, hstarts, hall⟩ | ⟨e, herr, start', hmem, hfault⟩
      · refine .inl ⟨l', hok, hordered, fun a ha => hsub a (List.mem_append_left _ ha), ?_, ?_⟩
        · intro x hx
          rcases List.mem_cons.mp hx with rfl | hx
          · rw [List.mem_toFinset] at hstart
            exact hsub x (List.mem_append.mpr hstart)
          · exact hstarts x hx
        · intro a ha
          rcases hall a ha with h | ⟨x, hx, hr⟩
          · rcases List.mem_append.mp h with h | h
            · exact .inl h
            · exact .inr ⟨start, List.mem_cons_self, hreach a h⟩
          · exact .inr ⟨x, List.mem_cons_of_mem _ hx, hr⟩
      · exact .inr ⟨e, herr, start', List.mem_cons_of_mem _ hmem, hfault⟩
    · refine .inr ⟨e, ?_, start, List.mem_cons_self, hfault⟩
      rw [hwalk]
      rfl

include hnodes in
/-- **Searches succeed exactly when nothing they reach is unknown or on a cycle.** -/
theorem walks_eq_ok [DecidableEq α] (starts : List α) :
    (∃ r, walks deps nodes starts ∅ [] = .ok r) ↔
      ∀ start ∈ starts, ∀ a, ReflTransGen (Edge deps) start a →
        (deps a).isSome ∧ ¬ TransGen (Edge deps) a a := by
  have hspec := walks_spec hnodes starts .nil
  rw [List.toFinset_nil] at hspec
  constructor
  · rintro ⟨r, hr⟩ start hstart a hreach
    rcases hspec with ⟨l, hok, hl, -, hstarts, -⟩ | ⟨e, herr, -⟩
    · have ha := hl.reach (hstarts start hstart) hreach
      exact ⟨hl.known a ha, hl.acyclic a ha⟩
    · rw [herr] at hr
      cases hr
  · intro hgood
    rcases hspec with ⟨l, hok, -⟩ | ⟨e, -, start, hstart, hfault⟩
    · exact ⟨_, hok⟩
    · cases e with
      | unknown a =>
        have := (hgood start hstart a hfault.1).1
        rw [hfault.2] at this
        cases this
      | cycle a => exact absurd hfault.2 (hgood start hstart a hfault.1).2
      | outOfFuel => exact hfault.elim

end Walks

/-! The order does not steer a search. -/

section Front
variable [DecidableEq α] {nodes : Finset α}

def State.after (front : List α) (s : State α) : State α := { s with order := front ++ s.order }

theorem round_after (front : List α) (s : State α) (name : α) (exit : Bool)
    (rest : List (α × Bool)) :
    round deps (s.after front) name exit rest = (round deps s name exit rest).map
      (State.after front) := by
  unfold round State.after
  split
  · simp [Except.map]
  · split
    · rfl
    · split
      · rfl
      · split <;> rfl

theorem run_after (front : List α) (fuel : Nat) (s : State α) :
    run deps fuel (s.after front) = (run deps fuel s).map (State.after front) := by
  induction fuel generalizing s with
  | zero =>
    have hstack : (s.after front).stack = s.stack := rfl
    rw [run, run, hstack]
    split <;> rfl
  | succ fuel ih =>
    have hstack : (s.after front).stack = s.stack := rfl
    rw [run, run, hstack]
    split
    · rfl
    · rename_i name exit rest hcons
      rw [round_after deps]
      cases round deps s name exit rest with
      | error e => rfl
      | ok s' => exact ih s'

/-- A search carries the order it was given in front of its own. -/
theorem walk_after (start : α) (done : Finset α) (front : List α) :
    walk deps nodes start done front = (walk deps nodes start done []).map
      (fun r => (r.1, front ++ r.2)) := by
  have h := run_after deps front (weight deps nodes + 1) ⟨[(start, false)], ∅, done, []⟩
  simp only [State.after, List.append_nil] at h
  rw [walk, walk, h]
  cases run deps (weight deps nodes + 1) ⟨[(start, false)], ∅, done, []⟩ <;> rfl

/-- **Checking is searching** with the order forgotten. -/
theorem checks_eq_walks (starts : List α) (done : Finset α) (front : List α) :
    checks deps nodes starts done = Prod.fst <$> walks deps nodes starts done front := by
  unfold checks walks
  induction starts generalizing done front with
  | nil => rfl
  | cons start starts ih =>
    rw [List.foldlM_cons, List.foldlM_cons]
    dsimp only
    rw [walk_after deps start done front]
    cases walk deps nodes start done [] with
    | error e => rfl
    | ok r => exact ih r.1 (front ++ r.2)

end Front

/-! Two graphs that agree on what a search meets. -/

section Congr
variable {deps} [DecidableEq α] {deps' : α → Option (List α)} {nodes nodes' : Finset α}

/-- More fuel does not change a run that ends. -/
theorem run_mono {fuel fuel' : Nat} {s t : State α} (h : run deps fuel s = .ok t)
    (hle : fuel ≤ fuel') :
    run deps fuel' s = .ok t := by
  induction fuel generalizing fuel' s with
  | zero =>
    have hempty : s.stack = [] ∧ s = t := by
      rw [run] at h
      split at h
      · rename_i hempty
        exact ⟨hempty, Except.ok.inj h⟩
      · cases h
    cases fuel' with
    | zero => exact h
    | succ fuel' =>
      rw [run, hempty.1, hempty.2]
  | succ fuel ih =>
    obtain ⟨fuel', rfl⟩ : ∃ n, fuel' = n + 1 := ⟨fuel' - 1, by omega⟩
    rw [run] at h ⊢
    split at h
    · exact h
    · rename_i name exit rest hcons
      cases hround : round deps s name exit rest with
      | error e =>
        rw [hround] at h
        cases h
      | ok s' =>
        rw [hround] at h
        exact ih h (by omega)

/-- What a search can meet: the nodes of `S` are listed alike, and lead to `S` only. -/
structure Agree (deps deps' : α → Option (List α)) (S : α → Prop) : Prop where
  same : ∀ a, S a → deps a = deps' a
  closed : ∀ a b, S a → Edge deps a b → S b

variable {S : α → Prop}

theorem round_congr (h : Agree deps deps' S) {s : State α} {name : α} (hname : S name) (exit : Bool)
    (rest : List (α × Bool)) : round deps s name exit rest = round deps' s name exit rest := by
  rw [round, round, h.same name hname]

/-- A round leaves nodes of `S` on the stack. -/
theorem round_stack (h : Agree deps deps' S) {s s' : State α} {name : α} {exit : Bool}
    {rest : List (α × Bool)} (hname : S name) (hrest : ∀ e ∈ rest, S e.1)
    (hround : round deps s name exit rest = .ok s') :
    ∀ e ∈ s'.stack, S e.1 := by
  rw [round] at hround
  split at hround
  · cases hround
    exact hrest
  · split at hround
    · cases hround
      exact hrest
    · split at hround
      · cases hround
      · rename_i ds hds
        split at hround
        · cases hround
        · cases hround
          intro e he
          rcases List.mem_append.mp he with he | he
          · obtain ⟨d, hd, rfl⟩ := List.mem_map.mp he
            exact h.closed name d hname ⟨ds, hds, hd⟩
          · rcases List.mem_cons.mp he with rfl | he
            · exact hname
            · exact hrest e he

/-- **A run over nodes on which two graphs agree is the same in both.** -/
theorem run_congr (h : Agree deps deps' S) {fuel : Nat} {s : State α}
    (hstack : ∀ e ∈ s.stack, S e.1) :
    run deps fuel s = run deps' fuel s := by
  induction fuel generalizing s with
  | zero => rfl
  | succ fuel ih =>
    rw [run, run]
    split
    · rfl
    · rename_i name exit rest hcons
      rw [hcons, List.forall_mem_cons] at hstack
      rw [← round_congr h hstack.1 exit rest]
      cases hround : round deps s name exit rest with
      | error e => rfl
      | ok s' => exact ih (round_stack h hstack.1 hstack.2 hround)

/-- Two searches from one node that both end, end alike. -/
theorem walk_congr (h : Agree deps deps' S) {start : α} (hstart : S start) {done : Finset α}
    {order : List α} {r r' : Finset α × List α} (hr : walk deps nodes start done order = .ok r)
    (hr' : walk deps' nodes' start done order = .ok r') : r = r' := by
  obtain ⟨s, hs, hr⟩ := except_bind_eq_ok.mp hr
  obtain ⟨s', hs', hr'⟩ := except_bind_eq_ok.mp hr'
  rw [← run_congr h (by simpa using hstart)] at hs'
  -- both runs end within the larger of the two fuels
  have hlong := run_mono hs (Nat.le_max_left _ (weight deps' nodes' + 1))
  have hlong' := run_mono hs' (Nat.le_max_right (weight deps nodes + 1) _)
  rw [hlong] at hlong'
  cases hlong'
  cases hr
  cases hr'
  rfl

/-- **Two successful searches over graphs that agree on what they meet are the same.** -/
theorem walks_congr (h : Agree deps deps' S) {starts : List α} (hstarts : ∀ start ∈ starts, S start)
    {done : Finset α} {order : List α} {r r' : Finset α × List α}
    (hr : walks deps nodes starts done order = .ok r)
    (hr' : walks deps' nodes' starts done order = .ok r') :
    r = r' := by
  induction starts generalizing done order with
  | nil =>
    cases hr
    cases hr'
    rfl
  | cons start starts ih =>
    rw [List.forall_mem_cons] at hstarts
    rw [walks, List.foldlM_cons] at hr hr'
    obtain ⟨next, hnext, hr⟩ := except_bind_eq_ok.mp hr
    obtain ⟨next', hnext', hr'⟩ := except_bind_eq_ok.mp hr'
    cases walk_congr h hstarts.1 hnext hnext'
    exact ih hstarts.2 hr hr'

end Congr

end Conglobate.DepthFirst
