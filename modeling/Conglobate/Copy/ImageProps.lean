import Conglobate.Copy.Image
import Conglobate.Copy.WriteProps

/- COPY from a stage puts a tree (`copy/destination/image.rs`).

   A stage's directory is put in the order of its streams, a directory before what is in
   it, so it fits where any tree with its entries does.

   What is proved:
     1. `mem_flatten`, `flatten_proper` — the entries the streams have are those that paths
        name, and they can be put as a tree;
     2. `imageFrom_eq_ok` — the loop puts what its streams still have;
     3. `image_eq_ok` — a directory is put as a tree. -/
namespace Conglobate.Copy

/-! The entries of a stage's directory. -/

def Node.entries : Node → List (Bytes × Node)
  | .directory entries => entries
  | _ => []

/-- What it is to be put as. -/
def Node.item : Node → Item
  | .directory _ => .directory
  | n => .leaf n.object

theorem Node.sizeOf_entries (n : Node) : sizeOf n.entries ≤ sizeOf n := by
  cases n with
  | directory entries =>
    rw [Node.entries, Node.directory.sizeOf_spec]
    exact Nat.le_add_left _ _
  | file bytes mode =>
    show sizeOf ([] : List (Bytes × Node)) ≤ _
    rw [Node.file.sizeOf_spec, List.nil.sizeOf_spec]
    omega
  | symlink target => simp [Node.entries]
  | special => simp [Node.entries]

/-- All that is in these entries, as the loop comes to it. -/
def flatten (here : EntryPath) : List (Bytes × Node) → List (EntryPath × Item)
  | [] => []
  | (name, n) :: rest =>
    (here ++ [name], n.item) :: (flatten (here ++ [name]) n.entries ++ flatten here rest)
termination_by entries => sizeOf entries
decreasing_by
  · have hsize := n.sizeOf_entries
    simp
    omega
  · simp

/-- What a path names in these entries. -/
def lookup (entries : List (Bytes × Node)) : EntryPath → Option Node
  | [] => none
  | name :: rest =>
    ((entries.find? fun e => e.1 = name).map Prod.snd).bind fun n => if rest = [] then some n
      else lookup n.entries rest

/-- Names as the kernel has them: each once in a directory, and none with a meaning of its own. -/
inductive WellNamed : List (Bytes × Node) → Prop where
  | mk {entries : List (Bytes × Node)} : (entries.map Prod.fst).Nodup →
      (∀ e ∈ entries, Destination.Entered e.1) →
      (∀ e ∈ entries, WellNamed e.2.entries) → WellNamed entries

theorem WellNamed.tail {e : Bytes × Node} {rest : List (Bytes × Node)} (h : WellNamed (e :: rest)) :
    WellNamed rest := by
  cases h with
  | mk hnodup hentered hinside =>
    exact .mk (List.nodup_cons.mp hnodup).2 (fun e he => hentered e (List.mem_cons_of_mem _ he))
      (fun e he => hinside e (List.mem_cons_of_mem _ he))

theorem WellNamed.head {e : Bytes × Node} {rest : List (Bytes × Node)} (h : WellNamed (e :: rest)) :
    Destination.Entered e.1 ∧ WellNamed e.2.entries ∧ e.1 ∉ rest.map Prod.fst := by
  cases h with
  | mk hnodup hentered hinside =>
    exact ⟨hentered e List.mem_cons_self, hinside e List.mem_cons_self,
      (List.nodup_cons.mp hnodup).1⟩

/-- What is in the entries is below one of their names. -/
theorem flatten_below {here : EntryPath} {entries : List (Bytes × Node)} {e : EntryPath × Item}
    (he : e ∈ flatten here entries) :
    ∃ name t, name ∈ entries.map Prod.fst ∧ e.1 = here ++ name :: t := by
  fun_induction flatten here entries with
  | case1 => cases he
  | case2 here name n rest ihin ihrest =>
    obtain rfl | he := List.mem_cons.mp he
    · exact ⟨name, [], List.mem_cons_self, rfl⟩
    obtain he | he := List.mem_append.mp he
    · obtain ⟨other, t, -, heq⟩ := ihin he
      refine ⟨name, other :: t, List.mem_cons_self, ?_⟩
      rw [heq, List.append_assoc]
      rfl
    · obtain ⟨other, t, hmem, heq⟩ := ihrest he
      exact ⟨other, t, List.mem_cons_of_mem _ hmem, heq⟩

theorem flatten_nodup {here : EntryPath} {entries : List (Bytes × Node)} (h : WellNamed entries) :
    ((flatten here entries).map Prod.fst).Nodup := by
  fun_induction flatten here entries with
  | case1 => exact List.nodup_nil
  | case2 here name n rest ihin ihrest =>
    obtain ⟨-, hinside, hfresh⟩ := h.head
    have hin : ∀ p ∈ (flatten (here ++ [name]) n.entries).map Prod.fst, ∃ other t, p = here ++
        name :: other :: t := by
      intro p hp
      obtain ⟨e, he, rfl⟩ := List.mem_map.mp hp
      obtain ⟨other, t, -, heq⟩ := flatten_below he
      exact ⟨other, t, by rw [heq, List.append_assoc]; rfl⟩
    have hrest : ∀ p ∈ (flatten here rest).map Prod.fst, ∃ other t, other ≠ name ∧
        p = here ++ other :: t := by
      intro p hp
      obtain ⟨e, he, rfl⟩ := List.mem_map.mp hp
      obtain ⟨other, t, hmem, heq⟩ := flatten_below he
      exact ⟨other, t, fun hsame => hfresh (hsame ▸ hmem), heq⟩
    rw [List.map_cons, List.nodup_cons, List.map_append, List.mem_append, not_or, List.nodup_append]
    refine ⟨⟨fun hmem => ?_, fun hmem => ?_⟩, ihin hinside, ihrest h.tail, fun p hp q hq heq => ?_⟩
    · obtain ⟨other, t, heq⟩ := hin _ hmem
      have htail := List.append_cancel_left heq
      exact List.cons_ne_nil other t (List.cons.inj htail).2.symm
    · obtain ⟨other, t, hne, heq⟩ := hrest _ hmem
      exact hne (List.cons.inj (List.append_cancel_left heq)).1.symm
    · obtain ⟨other, t, heq'⟩ := hin p hp
      obtain ⟨other', t', hne, heq''⟩ := hrest q hq
      rw [heq', heq''] at heq
      exact hne (List.cons.inj (List.append_cancel_left heq)).1.symm

/-- An element of two lists is in one of them. -/
theorem append_split {α : Type} {a b front back : List α} {x : α}
    (h : a ++ b = front ++ x :: back) :
    (∃ rest, a = front ++ x :: rest) ∨ ∃ rest, front = a ++ rest ∧ b = rest ++ x :: back := by
  obtain ⟨rest, hfront, hb⟩ | ⟨rest, ha, hback⟩ := List.append_eq_append_iff.mp h
  · exact .inr ⟨rest, hfront, hb⟩
  · cases rest with
    | nil => exact .inr ⟨[], by rw [ha, List.append_nil, List.append_nil], hback.symm⟩
    | cons first rest =>
      obtain ⟨rfl, -⟩ := List.cons.inj hback
      exact .inl ⟨rest, ha⟩

/-- **A directory comes before what is in it.** -/
theorem flatten_above {here : EntryPath} {entries : List (Bytes × Node)}
    {front back : List (EntryPath × Item)} {e : EntryPath × Item}
    (hsplit : flatten here entries = front ++ e :: back) {q : EntryPath} (hhere : here <+: q)
    (hne : q ≠ here) (hq : q <+: e.1) (hproper : q ≠ e.1) : (q, .directory) ∈ front := by
  fun_induction flatten here entries generalizing front back with
  | case1 => exact absurd hsplit (by simp)
  | case2 here name n rest ihin ihrest =>
    obtain ⟨t, rfl⟩ := hhere
    cases front with
    | nil =>
      -- nothing is between a directory and a name in it
      rw [List.nil_append] at hsplit
      obtain ⟨rfl, -⟩ := List.cons.inj hsplit
      obtain ht | ht := List.prefix_concat_iff.mp ((List.prefix_append_right_inj here).mp hq : t <+:
        [] ++ [name])
      · exact absurd (by rw [ht]; rfl) hproper
      · exact absurd (by rw [List.prefix_nil.mp ht, List.append_nil]) hne
    | cons first front =>
      rw [List.cons_append] at hsplit
      obtain ⟨rfl, htail⟩ := List.cons.inj hsplit
      obtain ⟨back', hin⟩ | ⟨front', hfront, hrest⟩ := append_split htail
      · -- in this directory, which is the first or below it
        have hmem : e ∈ flatten (here ++ [name]) n.entries := by
          rw [hin]
          exact List.mem_append_right _ List.mem_cons_self
        obtain ⟨other, s, hother, heq⟩ := flatten_below hmem
        have hdirectory : n.item = .directory := by
          cases n with
          | directory _ => rfl
          | file _ _ => cases hother
          | symlink _ => cases hother
          | special => cases hother
        have hname : here ++ [name] <+: here ++ t := by
          rw [heq, List.append_assoc] at hq
          have ht := (List.prefix_append_right_inj here).mp hq
          obtain ⟨first, t, rfl⟩ :=
            List.exists_cons_of_ne_nil (fun hnil => hne (by rw [hnil, List.append_nil]) : t ≠ [])
          obtain ⟨rfl, -⟩ := List.cons_prefix_cons.mp ht
          exact (List.prefix_append_right_inj here).mpr (List.prefix_append [first] t)
        by_cases hsame : here ++ t = here ++ [name]
        · rw [hsame, ← hdirectory]
          exact List.mem_cons_self
        · exact List.mem_cons_of_mem _ (ihin hin hname hsame)
      · rw [hfront]
        apply List.mem_cons_of_mem
        exact List.mem_append_right _ (ihrest hrest (List.prefix_append here t) hne)

theorem lookup_cons {name other : Bytes} {n : Node} {rest : List (Bytes × Node)} (t : EntryPath) :
    lookup ((name, n) :: rest) (other :: t) =
      if other = name then
        (if t = [] then some n else lookup n.entries t)
      else
        lookup rest (other :: t) := by
  rw [lookup]
  by_cases hname : other = name
  · rw [if_pos hname, List.find?_cons, decide_eq_true hname.symm]
    rfl
  · rw [if_neg hname, List.find?_cons, decide_eq_false (Ne.symm hname), lookup]

theorem lookup_name {entries : List (Bytes × Node)} {name : Bytes} {t : EntryPath} {n : Node}
    (h : lookup entries (name :: t) = some n) :
    name ∈ entries.map Prod.fst := by
  rw [lookup] at h
  obtain ⟨m, hm, -⟩ := Option.bind_eq_some_iff.mp h
  obtain ⟨e, he, -⟩ := Option.map_eq_some_iff.mp hm
  have hfound := List.find?_some he
  have hname : e.1 = name := of_decide_eq_true hfound
  exact hname ▸ List.mem_map_of_mem (List.mem_of_find?_eq_some he)

/-- **The entries are what paths name.** -/
theorem mem_flatten {here : EntryPath} {entries : List (Bytes × Node)} (h : WellNamed entries)
    {p : EntryPath} {x : Item} :
    (p, x) ∈ flatten here entries ↔ ∃ r n, p = here ++ r ∧ lookup entries r = some n ∧
      n.item = x := by
  fun_induction flatten here entries with
  | case1 here =>
    refine iff_of_false List.not_mem_nil fun h => ?_
    obtain ⟨r, n, -, hr, -⟩ := h
    cases r with
    | nil => cases hr
    | cons name t => exact List.not_mem_nil (lookup_name hr)
  | case2 here name n rest ihin ihrest =>
    obtain ⟨-, hinside, hfresh⟩ := h.head
    rw [List.mem_cons, List.mem_append, ihin hinside, ihrest h.tail]
    constructor
    · intro hmem
      obtain heq | ⟨r, m, rfl, hr, hm⟩ | ⟨r, m, rfl, hr, hm⟩ := hmem
      · obtain ⟨rfl, rfl⟩ := Prod.mk.inj heq
        refine ⟨[name], n, rfl, ?_, rfl⟩
        rw [lookup_cons, if_pos rfl, if_pos rfl]
      · refine ⟨name :: r, m, ?_, ?_, hm⟩
        · rw [List.append_assoc]
          rfl
        · have hne : r ≠ [] := by
            rintro rfl
            cases hr
          rw [lookup_cons, if_pos rfl, if_neg hne, hr]
      · cases r with
        | nil => cases hr
        | cons other t =>
          have hne : other ≠ name := fun hsame => hfresh (hsame ▸ lookup_name hr)
          refine ⟨other :: t, m, rfl, ?_, hm⟩
          rw [lookup_cons, if_neg hne, hr]
    · intro hlookup
      obtain ⟨r, m, rfl, hr, hm⟩ := hlookup
      cases r with
      | nil => cases hr
      | cons other t =>
        rw [lookup_cons] at hr
        split at hr
        · rename_i hname
          subst hname
          split at hr
          · rename_i ht
            cases hr
            exact .inl (by rw [ht, hm])
          · refine .inr (.inl ⟨t, m, ?_, hr, hm⟩)
            rw [List.append_assoc]
            rfl
        · exact .inr (.inr ⟨other :: t, m, rfl, hr, hm⟩)

theorem Node.item_solid (n : Node) : n.item.Solid := by
  intro o ho
  cases n with
  | directory _ => cases ho
  | file bytes mode =>
    cases ho
    exact Content.noConfusion
  | symlink target =>
    cases ho
    exact Content.noConfusion
  | special => cases ho

theorem flatten_entered {here : EntryPath} {entries : List (Bytes × Node)} (h : WellNamed entries)
    (hhere : ∀ name ∈ here, Destination.Entered name) {e : EntryPath × Item}
    (he : e ∈ flatten here entries) :
    ∀ name ∈ e.1, Destination.Entered name := by
  fun_induction flatten here entries with
  | case1 => cases he
  | case2 here name n rest ihin ihrest =>
    obtain ⟨hname, hinside, -⟩ := h.head
    have hnext : ∀ part ∈ here ++ [name], Destination.Entered part := by
      intro part hpart
      obtain hpart | hpart := List.mem_append.mp hpart
      · exact hhere part hpart
      · rwa [List.mem_singleton.mp hpart]
    obtain rfl | he := List.mem_cons.mp he
    · exact hnext
    obtain he | he := List.mem_append.mp he
    · exact ihin hinside hnext he
    · exact ihrest h.tail hhere he

/-- A stage's directory can be put as a tree. -/
theorem flatten_proper {entries : List (Bytes × Node)} (h : WellNamed entries) {target : List Bytes}
    (htarget : ∀ name ∈ target, Destination.Entered name) :
    Volume.Proper target (flatten [] entries) where
  nodup := flatten_nodup h
  proper e he := by
    obtain ⟨name, t, -, heq⟩ := flatten_below he
    rw [heq]
    exact List.cons_ne_nil name t
  above front e back hsplit q hq := flatten_above hsplit List.nil_prefix hq.1 hq.2.1 hq.2.2
  entered e he name hname := by
    obtain hname | hname := List.mem_append.mp hname
    · exact htarget name hname
    · exact flatten_entered h (fun name hname => absurd hname List.not_mem_nil) he name hname
  solid e he := by
    obtain ⟨p, x⟩ := e
    obtain ⟨r, n, -, -, rfl⟩ := (mem_flatten h).mp he
    exact n.item_solid

/-! The loop. -/

theorem imageLeaf_eq_ok {v v' : Volume} {n : Node} {path : List Bytes} :
    imageLeaf v n path = .ok v' ↔ putLeaf v path n.object = .ok v' := by
  rw [imageLeaf, putLeaf]
  cases n.object with
  | none =>
    refine iff_of_false (fun h => by cases h) (fun h => ?_)
    cases hlast : path.getLast? with
    | none =>
      rw [hlast] at h
      cases h
    | some name =>
      rw [hlast] at h
      obtain ⟨node, -, h⟩ := except_bind_eq_ok.mp h
      split at h
      · cases h
      · obtain ⟨v1, -, h⟩ := except_bind_eq_ok.mp h
        obtain ⟨v2, -, h⟩ := except_bind_eq_ok.mp h
        cases h
  | some o =>
    dsimp only
    cases path.getLast? with
    | none =>
      refine iff_of_false (fun h => ?_) (fun h => by cases h)
      obtain ⟨node, -, h⟩ := except_bind_eq_ok.mp h
      split at h
      · cases h
      · cases h
    | some name =>
      rw [except_bind_eq_ok, except_bind_eq_ok]
      refine exists_congr fun node => and_congr_right fun _ => ?_
      split
      · exact iff_of_false (fun h => by cases h) (fun h => by cases h)
      · exact Iff.rfl

/-- **One round** puts one entry, and is in it then; a leaf has nothing in it. -/
theorem imageFrom_round {v v' : Volume} {name : Bytes} (hname : Destination.Entered name) {n : Node}
    {rest : List (Bytes × Node)} {directory : List Bytes}
    {pending : List (List (Bytes × Node) × List Bytes)}
    (hself : ∀ path, v.destination.resolveFrom false 0 [] (directory ++ [name]) = .ok path →
    path = directory ++ [name]) :
    imageFrom v (((name, n) :: rest, directory) :: pending) = .ok v' ↔
      ∃ u, putBelow false directory v ([name], n.item) = .ok u ∧
      imageFrom u ((n.entries, directory ++ [name]) :: (rest, directory) :: pending) = .ok v' := by
  have hnamed : ¬ (name = dotName ∨ name = dotdotName) :=
    fun h => h.elim hname.not_dot hname.not_dotdot
  rw [imageFrom, if_neg hnamed, putBelow]
  dsimp only
  cases hresolve : v.destination.resolveFrom false 0 [] (directory ++ [name]) with
  | error e =>
    refine iff_of_false (fun h => by cases h) (fun h => ?_)
    obtain ⟨u, hu, -⟩ := h
    cases hu
  | ok path =>
    obtain rfl := hself path hresolve
    have hput : ∀ u, ((Except.ok (directory ++ [name]) : Except CopyError
        (List Bytes)).mapError WriteError.resolution >>= fun path =>
        putItem false v path n.item) = .ok u ↔ putItem false v (directory ++ [name]) n.item =
          .ok u := fun u => Iff.rfl
    simp only [hput]
    -- a leaf's round, whatever it is
    have hleaf : ∀ n : Node, n.item = .leaf n.object →
        ∀ u, putItem false v (directory ++ [name]) n.item = .ok u ↔
        imageLeaf v n (directory ++ [name]) = .ok u := by
      intro n hitem u
      rw [hitem]
      exact imageLeaf_eq_ok.symm
    cases n with
    | directory entries =>
      have hitem : ∀ u, putItem false v (directory ++ [name])
          (Node.directory entries).item = .ok u ↔ v.directory (directory ++ [name]) = .ok u := by
        intro u
        show (fun u : Volume => if false = true then _ else u) <$> v.directory
          (directory ++ [name]) = .ok u ↔ _
        rw [except_map_eq_ok]
        simp
      simp only [hitem]
      dsimp only [Except.mapError]
      cases v.directory (directory ++ [name]) with
      | error e =>
        exact iff_of_false (fun h => by cases h) (fun h => by obtain ⟨u, hu, -⟩ := h; cases hu)
      | ok u => exact ⟨fun h => ⟨u, rfl, h⟩, fun h => by obtain ⟨u', hu, h⟩ := h; cases hu; exact h⟩
    | _ =>
      dsimp only [Except.mapError, Node.entries]
      simp only [imageFrom]
      split
      · rename_i e hfailed
        refine iff_of_false (fun h => by cases h) (fun h => ?_)
        obtain ⟨u, hu, -⟩ := h
        have hu := (hleaf _ (by rfl) u).mp hu
        rw [hfailed] at hu
        cases hu
      · rename_i u hdone
        refine ⟨fun h => ⟨u, (hleaf _ (by rfl) u).mpr hdone, h⟩, fun h => ?_⟩
        obtain ⟨u', hu, h⟩ := h
        have hu := (hleaf _ (by rfl) u').mp hu
        rw [hdone, Except.ok.injEq] at hu
        rw [hu, h]

/-- What streams still have. -/
def remaining (pending : List (List (Bytes × Node) × EntryPath)) : List (EntryPath × Item) :=
  pending.flatMap fun s => flatten s.2 s.1

theorem remaining_cons (entries : List (Bytes × Node)) (here : EntryPath)
    (pending : List (List (Bytes × Node) × EntryPath)) :
    remaining ((entries, here) :: pending) = flatten here entries ++ remaining pending :=
      List.flatMap_cons

theorem remaining_round (name : Bytes) (n : Node) (rest : List (Bytes × Node)) (here : EntryPath)
    (pending : List (List (Bytes × Node) × EntryPath)) :
    remaining (((name, n) :: rest, here) :: pending) =
      (here ++ [name], n.item) :: remaining ((n.entries, here ++ [name]) ::
        (rest, here) :: pending) := by
  rw [remaining_cons, remaining_cons, remaining_cons, flatten, List.cons_append, List.append_assoc]

/-- The streams with the paths their directories were given. -/
def below (target : List Bytes) (pending : List (List (Bytes × Node) × EntryPath)) :
    List (List (Bytes × Node) × List Bytes) :=
  pending.map fun s => (s.1, target ++ s.2)

theorem weight_next (s : List (Bytes × Node) × EntryPath)
    (pending : List (List (Bytes × Node) × EntryPath)) :
    weight pending < weight (s :: pending) := by
  rw [weight, weight, List.map_cons, List.sum_cons]
  omega

theorem weight_round (name : Bytes) (n : Node) (rest : List (Bytes × Node)) (here next : EntryPath)
    (pending : List (List (Bytes × Node) × EntryPath)) :
    weight ((n.entries, next) :: (rest, here) :: pending) <
      weight (((name, n) :: rest, here) :: pending) := by
  have hsize := n.sizeOf_entries
  simp only [weight, List.map_cons, List.sum_cons, List.cons.sizeOf_spec, Prod.mk.sizeOf_spec]
  omega

/-- **The loop puts what its streams still have**, entry by entry. -/
theorem imageFrom_eq_ok {v₀ v v' : Volume} {made : List Bytes → Prop} {target : List Bytes}
    {l done : List (EntryPath × Item)} (hl : Volume.Proper target l)
    (pending : List (List (Bytes × Node) × EntryPath)) (hsplit : l = done ++ remaining pending)
    (hstanding : Volume.Standing v₀ made [] false target done v) :
    imageFrom v (below target pending) = .ok v' ↔ (remaining pending).foldlM
      (putBelow false target) v = .ok v' := by
  induction hw : weight pending using Nat.strong_induction_on generalizing v done pending with | _ w ih
  subst hw
  cases pending with
  | nil =>
    rw [below, List.map_nil, imageFrom]
    exact Iff.rfl
  | cons s pending =>
    obtain ⟨stream, here⟩ := s
    cases stream with
    | nil =>
      have hnone : remaining (([], here) :: pending) = remaining pending := by
        rw [remaining_cons, flatten, List.nil_append]
      have hnext := ih _ (weight_next ([], here) pending) pending
        (by rw [hsplit, hnone]) hstanding rfl
      rw [hnone, ← hnext]
      show imageFrom v (([], target ++ here) :: below target pending) = .ok v' ↔ _
      rw [imageFrom]
    | cons entry rest =>
      obtain ⟨name, n⟩ := entry
      rw [remaining_round] at hsplit ⊢
      have he : (here ++ [name], n.item) ∈ l := by
        rw [hsplit]; exact List.mem_append_right _ List.mem_cons_self
      have hname : Destination.Entered name := hl.entered _ he name (by simp)
      have hbelow := hstanding.below hl hsplit
      have hpath : target ++ (here ++ [name]) = target ++ here ++ [name] :=
        (List.append_assoc ..).symm
      have hround := @imageFrom_round v v' name hname n rest (target ++ here)
          (below target pending) fun path hresolve => by
        rw [← hpath] at hresolve ⊢
        exact (hbelow.resolve.mp hresolve).1
      have hput : putBelow false (target ++ here) v ([name], n.item) =
          putBelow false target v (here ++ [name], n.item) := by
        rw [putBelow, putBelow, hpath]
      rw [hput] at hround
      rw [List.foldlM_cons, except_bind_eq_ok]
      refine Iff.trans hround (exists_congr fun u => and_congr_right fun hu => ?_)
      have hnext := ih _ (weight_round name n rest here (here ++ [name]) pending)
        ((n.entries, here ++ [name]) :: (rest, here) :: pending)
        (by rw [hsplit, List.append_cons]) (hstanding.next hl hsplit hu) rfl
      rw [← hnext]
      show _ ↔ imageFrom u ((n.entries, target ++ (here ++ [name])) ::
        (rest, target ++ here) :: below target pending) = .ok v'
      rw [hpath]

/-- **A stage's directory is put as a tree.** -/
theorem image_eq_ok {v v' : Volume} {d : CopyDirective} {entries : List (Bytes × Node)}
    (hnamed : WellNamed entries) (path : Bytes) :
    image (.ok (.directory entries)) path d v = .ok v' ↔ putTree false d (flatten [] entries) v =
      .ok v' := by
  rw [image, except_ok_bind, putTree_eq_ok]
  simp only [except_bind_eq_ok, except_mapError_eq_ok]
  have hloop : ∀ target w u, v.destination.resolve d.destination true = .ok target →
      openTarget d target v = .ok w →
      w.directory target = .ok u → (imageFrom u [(entries, target)] = .ok v' ↔
        (flatten [] entries).foldlM (putBelow false target) u = .ok v') := by
    intro target w u hresolve hopen hdirectory
    have hopened := opening_opened hopen hdirectory
    have hproper := flatten_proper hnamed (Volume.resolve_entered
      (fun name hname => absurd hname List.not_mem_nil) hresolve)
    have hremaining : remaining [(entries, [])] = flatten [] entries := by
      rw [remaining_cons, remaining, List.flatMap_nil, List.append_nil]
    have hbelow : below target [(entries, [])] = [(entries, target)] := by
      rw [below, List.map_singleton, List.append_nil]
    have hfrom := @imageFrom_eq_ok _ u v' _ _ _ [] hproper [(entries, [])] hremaining.symm
      (.nil hopened.written hopened.opened)
    rwa [hremaining, hbelow] at hfrom
  constructor
  · intro h
    obtain ⟨target, hresolve, w, hopen, u, hdirectory, hrun⟩ := h
    exact ⟨target, w, u, hresolve, hopen, hdirectory,
      (hloop target w u hresolve hopen hdirectory).mp hrun⟩
  · intro h
    obtain ⟨target, w, u, hresolve, hopen, hdirectory, hrun⟩ := h
    exact ⟨target, hresolve, w, hopen, u, hdirectory,
      (hloop target w u hresolve hopen hdirectory).mpr hrun⟩

end Conglobate.Copy
