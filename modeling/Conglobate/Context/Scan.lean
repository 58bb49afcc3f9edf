import Conglobate.Context.Place

/- Scanning a tree (`CapturedContext::scan`, `context/mod.rs`).

   A scan reads a tree, and the trees in it, one after the other. It leaves modules as
   they are (`scanned`).

   What is proved:
     1. `scanFrom_ok` — what a scan that succeeds has added, and that all could be read;
     2. `scanFrom_total` — a tree that can be read all the way down is scanned, if nothing
        is there yet: some fuel is enough. -/
namespace Conglobate.Context

open Copy

section
variable {ρ : Type} (g : Git ρ)

/-- The tree inside. -/
def Thing.inTree : Thing ρ → Option (Place ρ)
  | .directory P => some P
  | _ => none

/-- The place of a path that goes through no module. -/
def treeAt (P : Place ρ) (path : EntryPath) : Option (Place ρ) :=
  path.foldlM (fun P name => (P.step g name).bind Thing.inTree) P

/-- The entry that scanning a place gives a path below it. -/
def scanned (i : Nat) (P : Place ρ) : EntryPath → Option ContextEntry
  | [] => none
  | name :: rest =>
    if rest = [] then (P.step g name).map (Thing.toEntry i)
    else ((P.step g name).bind Thing.inTree).bind fun P' => scanned i P' rest

def Unread.place (t : Unread) (s : Store ρ) : Place ρ := ⟨s, t.repositoryPath, t.oid⟩

/-- The trees among a tree's entries. -/
def Unread.trees (t : Unread) (entries : List TreeEntry) : List Unread :=
  (entries.filter fun entry => entry.kind = .tree).map fun entry =>
    ⟨t.parent ++ [entry.filename], t.repositoryPath ++ [entry.filename], entry.oid⟩

/-- It can be read all the way down to its modules. -/
inductive Readable : Place ρ → Prop where
  | mk {P : Place ρ} : P.Read g → (∀ name P', P.step g name = some (.directory P') → Readable P') →
      Readable P

end

section
variable {ρ : Type} {g : Git ρ}

theorem scanned_snoc (i : Nat) (P : Place ρ) (path : EntryPath) (name : Bytes) :
    scanned g i P (path ++ [name]) = (treeAt g P path).bind fun P' => (P'.step g name).map
      (Thing.toEntry i) := by
  induction path generalizing P with
  | nil =>
    rw [List.nil_append, scanned, if_pos rfl]
    rfl
  | cons first rest ih =>
    rw [List.cons_append, scanned, if_neg (by simp), treeAt, List.foldlM_cons]
    cases hinside : (P.step g first).bind Thing.inTree with
    | none => rfl
    | some P' => exact ih P'

/-- What is in a tree is at a place in the same store. -/
theorem placeAt_of_treeAt {P P' : Place ρ} {path : EntryPath} (h : treeAt g P path = some P') :
    placeAt g P path = some P' ∧ P'.store = P.store := by
  induction path generalizing P with
  | nil =>
    obtain rfl := Option.some.inj h
    exact ⟨rfl, rfl⟩
  | cons name rest ih =>
    rw [treeAt, List.foldlM_cons] at h
    obtain ⟨Q, hQ, hrest⟩ := Option.bind_eq_some_iff.mp h
    obtain ⟨thing, hthing, hinside⟩ := Option.bind_eq_some_iff.mp hQ
    obtain ⟨hplace, hstore⟩ := ih hrest
    cases thing with
    | directory inner =>
      obtain rfl := Option.some.inj hinside
      have hsame : inner.store = P.store := by
        rw [Place.step] at hthing
        obtain ⟨entry, -, hentry⟩ := Option.bind_eq_some_iff.mp hthing
        rw [Place.thing] at hentry
        split at hentry
        · cases hentry
          rfl
        · cases hentry
        · obtain ⟨target, -, heq⟩ := Option.map_eq_some_iff.mp hentry
          cases heq
        · cases hentry
        · cases hentry
      refine ⟨?_, hstore.trans hsame⟩
      rw [placeAt, List.foldlM_cons, hthing]
      exact hplace
    | module _ _ _ => cases hinside
    | file _ _ _ => cases hinside
    | symlink _ => cases hinside

theorem Readable.inside {P P' : Place ρ} (h : Readable g P) {path : EntryPath}
    (hP : treeAt g P path = some P') :
    Readable g P' := by
  induction path generalizing P with
  | nil => exact Option.some.inj hP ▸ h
  | cons name rest ih =>
    rw [treeAt, List.foldlM_cons] at hP
    obtain ⟨Q, hQ, hrest⟩ := Option.bind_eq_some_iff.mp hP
    obtain ⟨thing, hthing, hinside⟩ := Option.bind_eq_some_iff.mp hQ
    cases h with
    | mk _ htrees =>
      cases thing with
      | directory inner =>
        obtain rfl := Option.some.inj hinside
        exact ih (htrees name inner hthing) hrest
      | module _ _ _ => cases hinside
      | file _ _ _ => cases hinside
      | symlink _ => cases hinside

theorem Readable.read {P : Place ρ} (h : Readable g P) : P.Read g := by
  cases h with
  | mk hread _ => exact hread

theorem Whole.readable {P : Place ρ} (h : Whole g P) : Readable g P := by
  induction h with
  | mk hread _ _ ih => exact .mk hread fun name P' hthing => ih name _ P' hthing rfl

/-! The entries of one tree. -/

section
variable {s : Store ρ} {i : Nat} {t : Unread}

theorem Place.thing_tree {P : Place ρ} {entry : TreeEntry} (h : entry.kind = .tree) :
    P.thing g entry = some (.directory ⟨P.store, P.path ++ [entry.filename], entry.oid⟩) := by
  rw [Place.thing, h]

theorem Place.thing_directory {P P' : Place ρ} {entry : TreeEntry}
    (h : P.thing g entry = some (.directory P')) :
    entry.kind = .tree ∧ P' = ⟨P.store, P.path ++ [entry.filename], entry.oid⟩ := by
  rw [Place.thing] at h
  split at h
  · rename_i hkind
    cases h
    exact ⟨hkind, rfl⟩
  · cases h
  · obtain ⟨target, -, heq⟩ := Option.map_eq_some_iff.mp h
    cases heq
  · cases h
  · cases h

/-- **One entry**: it has a name and can be read, and there is none at its path. -/
theorem scanEntry_eq_ok {st st' : List Unread × Entries} {entry : TreeEntry} :
    scanEntry g s.reader i t st entry = .ok st' ↔
      entryName entry.filename = true ∧ ∃ thing, (t.place s).thing g entry = some thing ∧
        st.2.get? (t.parent ++ [entry.filename]) = none ∧
        st' = (if entry.kind = .tree then
            ⟨t.parent ++ [entry.filename], t.repositoryPath ++ [entry.filename], entry.oid⟩ :: st.1
              else st.1,
          st.2.insert (t.parent ++ [entry.filename]) (thing.toEntry i)) := by
  have hvalue : ∀ (value : ContextEntry),
      (if st.2.contains (t.parent ++ [entry.filename]) then .error (.invalid "duplicate tree entry")
        else .ok (if entry.kind = .tree then
            ⟨t.parent ++ [entry.filename], t.repositoryPath ++ [entry.filename], entry.oid⟩ :: st.1
              else st.1,
          st.2.insert (t.parent ++ [entry.filename]) value) : Except ContextError
            (List Unread × Entries)) = .ok st' ↔
      st.2.get? (t.parent ++ [entry.filename]) = none ∧
        st' = (if entry.kind = .tree then
            ⟨t.parent ++ [entry.filename], t.repositoryPath ++ [entry.filename], entry.oid⟩ :: st.1
              else st.1,
          st.2.insert (t.parent ++ [entry.filename]) value) := by
    intro value
    rw [← OrdMap.contains_eq_false]
    cases st.2.contains (t.parent ++ [entry.filename]) with
    | true => simp
    | false => simp [eq_comm]
  rw [scanEntry]
  by_cases hname : entryName entry.filename = true
  swap
  · rw [if_pos (by simpa using hname)]
    exact iff_of_false (fun h => by cases h) (fun h => hname h.1)
  rw [if_neg (by simpa using hname), Place.thing]
  simp only [hname, true_and]
  cases hkind : entry.kind with
  | tree =>
    simpa only [hkind, except_ok_bind, Option.some.injEq, exists_eq_left', Thing.toEntry,
      Unread.place] using hvalue .directory
  | commit =>
    simpa only [hkind, except_ok_bind, Option.some.injEq, exists_eq_left', Thing.toEntry,
      Unread.place] using
      hvalue (.module i (t.repositoryPath ++ [entry.filename]) entry.oid)
  | blob =>
    simpa only [hkind, except_ok_bind, Option.some.injEq, exists_eq_left', Thing.toEntry,
      Unread.place] using hvalue (.file i false entry.oid)
  | blobExecutable =>
    simpa only [hkind, except_ok_bind, Option.some.injEq, exists_eq_left', Thing.toEntry,
      Unread.place] using hvalue (.file i true entry.oid)
  | link =>
    have hstore : readLink g (t.place s).store.reader entry.oid = readLink g s.reader entry.oid :=
      rfl
    cases hlink : readLink g s.reader entry.oid with
    | error e =>
      refine iff_of_false (fun h => by cases h) (fun h => ?_)
      obtain ⟨thing, hthing, -⟩ := h
      rw [hstore, hlink] at hthing
      cases hthing
    | ok target =>
      have hthing : (readLink g (t.place s).store.reader entry.oid).toOption.map Thing.symlink =
          some (Thing.symlink target : Thing ρ) := by
        rw [hstore, hlink]
        rfl
      have hmap : ContextEntry.symlink <$> (.ok target : Except ContextError Bytes) =
        .ok (.symlink target) := rfl
      simp only [hthing, hmap]
      simpa only [hkind, except_ok_bind, Option.some.injEq, exists_eq_left', Thing.toEntry,
        Unread.place] using hvalue (.symlink target)

/-- These entries have been added below a tree's path, and nothing else. -/
structure Added (g : Git ρ) (s : Store ρ) (i : Nat) (t : Unread) (done : List TreeEntry)
    (m m' : Entries) : Prop where
  there : ∀ entry ∈ done, ∃ thing, (t.place s).thing g entry = some thing ∧
    m'.get? (t.parent ++ [entry.filename]) = some (thing.toEntry i)
  free : ∀ entry ∈ done, m.get? (t.parent ++ [entry.filename]) = none
  kept : ∀ q, (∀ entry ∈ done, q ≠ t.parent ++ [entry.filename]) → m'.get? q = m.get? q

theorem Added.nil (m : Entries) : Added g s i t [] m m where
  there _ h := absurd h List.not_mem_nil
  free _ h := absurd h List.not_mem_nil
  kept _ _ := rfl

/-- One more, before the others. -/
theorem Added.cons {entry : TreeEntry} {rest : List TreeEntry} {m m' : Entries} {thing : Thing ρ}
    (hthing : (t.place s).thing g entry = some thing)
    (hfree : m.get? (t.parent ++ [entry.filename]) = none)
    (h : Added g s i t rest (m.insert (t.parent ++ [entry.filename]) (thing.toEntry i)) m') :
    Added g s i t (entry :: rest) m m' := by
  have hhere : (m.insert (t.parent ++ [entry.filename]) (thing.toEntry i)).get?
      (t.parent ++ [entry.filename]) =
      some (thing.toEntry i) := by
    rw [OrdMap.get?_insert, if_pos rfl]
  -- no other entry has its path
  have hother : ∀ e ∈ rest, t.parent ++ [e.filename] ≠ t.parent ++ [entry.filename] := by
    intro e he heq
    have hnone := h.free e he
    rw [heq, hhere] at hnone
    cases hnone
  refine ⟨fun e he => ?_, fun e he => ?_, fun q hq => ?_⟩
  · obtain rfl | he := List.mem_cons.mp he
    · exact ⟨thing, hthing, (h.kept _ fun e he heq => hother e he heq.symm).trans hhere⟩
    · exact h.there e he
  · obtain rfl | he := List.mem_cons.mp he
    · exact hfree
    · have hnone := h.free e he
      rwa [OrdMap.get?_insert, if_neg (hother e he)] at hnone
  · rw [h.kept q fun e he => hq e (List.mem_cons_of_mem _ he), OrdMap.get?_insert,
      if_neg (hq entry List.mem_cons_self)]

/-- **The entries of a tree**, in their order: its trees are to be read next, the last one
    first. -/
theorem scanEntries_ok {entries : List TreeEntry} {pending pending' : List Unread} {m m' : Entries}
    (h : entries.foldlM (scanEntry g s.reader i t) (pending, m) = .ok (pending', m')) :
    Added g s i t entries m m' ∧ pending' = (t.trees entries).reverse ++ pending := by
  induction entries generalizing pending m with
  | nil =>
    cases h
    exact ⟨.nil _, rfl⟩
  | cons entry rest ih =>
    rw [List.foldlM_cons] at h
    obtain ⟨st, hstep, hrest⟩ := except_bind_eq_ok.mp h
    obtain ⟨-, thing, hthing, hfree, rfl⟩ := scanEntry_eq_ok.mp hstep
    obtain ⟨hadded, rfl⟩ := ih hrest
    refine ⟨hadded.cons hthing hfree, ?_⟩
    rw [Unread.trees, Unread.trees, List.filter_cons]
    by_cases htree : entry.kind = .tree
    · rw [if_pos htree, if_pos (decide_eq_true htree), List.map_cons, List.reverse_cons,
        List.append_assoc]
      rfl
    · rw [if_neg htree, if_neg (by simpa using htree)]

/-- **They can be added** where they can be read, with names of their own, and nothing is there. -/
theorem scanEntries_total {entries : List TreeEntry}
    (hnames : ∀ entry ∈ entries, entryName entry.filename = true)
    (hnodup : (entries.map TreeEntry.filename).Nodup)
    (hread : ∀ entry ∈ entries, ((t.place s).thing g entry).isSome = true) {pending : List Unread}
    {m : Entries} (hfree : ∀ entry ∈ entries, m.get? (t.parent ++ [entry.filename]) = none) :
    ∃ st, entries.foldlM (scanEntry g s.reader i t) (pending, m) = .ok st := by
  induction entries generalizing pending m with
  | nil => exact ⟨_, rfl⟩
  | cons entry rest ih =>
    obtain ⟨thing, hthing⟩ := Option.isSome_iff_exists.mp (hread entry List.mem_cons_self)
    rw [List.map_cons, List.nodup_cons] at hnodup
    have hstep := (@scanEntry_eq_ok _ g s i t (pending, m) _ entry).mpr
      ⟨hnames entry List.mem_cons_self, thing, hthing, hfree entry List.mem_cons_self, rfl⟩
    rw [List.foldlM_cons, hstep, except_ok_bind]
    apply ih (fun e he => hnames e (List.mem_cons_of_mem _ he)) hnodup.2
      (fun e he => hread e (List.mem_cons_of_mem _ he))
    intro e he
    have hne : t.parent ++ [e.filename] ≠ t.parent ++ [entry.filename] := by
      intro heq
      have hname := List.singleton_inj.mp (List.append_cancel_left heq)
      exact hnodup.1 (hname ▸ List.mem_map_of_mem he)
    rw [OrdMap.get?_insert, if_neg hne]
    exact hfree e (List.mem_cons_of_mem _ he)

/-! The loop. -/

/-- Strictly below. -/
def Under (parent q : EntryPath) : Prop := ∃ name rest, q = parent ++ name :: rest

/-- Nothing is below the trees to be read, and none of them is at or below another. -/
structure Ready (pending : List Unread) (m : Entries) : Prop where
  clear : ∀ t ∈ pending, ∀ q, Under t.parent q → m.get? q = none
  apart : pending.Pairwise fun t t' => ¬ t.parent <+: t'.parent ∧ ¬ t'.parent <+: t.parent

theorem under_snoc {parent q : EntryPath} {name : Bytes} (h : Under (parent ++ [name]) q) :
    Under parent q := by
  obtain ⟨next, rest, rfl⟩ := h
  exact ⟨name, next :: rest, List.append_assoc ..⟩

/-- Below one of two that are apart there is nothing below the other. -/
theorem not_under_of_apart {parent parent' q : EntryPath}
    (hnot : ¬ parent <+: parent' ∧ ¬ parent' <+: parent) (hq : Under parent q) :
    ¬ Under parent' q := by
  intro hq'
  obtain ⟨name, rest, rfl⟩ := hq
  obtain ⟨name', rest', heq⟩ := hq'
  have hprefixes := List.prefix_or_prefix_of_prefix (List.prefix_append parent (name :: rest))
    ⟨name' :: rest', heq.symm⟩
  exact hprefixes.elim hnot.1 hnot.2

theorem under_name {parent : EntryPath} {name : Bytes} :
    Under parent (parent ++ [name]) := ⟨name, [], rfl⟩

theorem Unread.mem_trees {entries : List TreeEntry} {t' : Unread} :
    t' ∈ t.trees entries ↔ ∃ entry ∈ entries, entry.kind = .tree ∧
      ⟨t.parent ++ [entry.filename], t.repositoryPath ++ [entry.filename], entry.oid⟩ = t' := by
  rw [Unread.trees, List.mem_map]
  simp only [List.mem_filter, decide_eq_true_eq, and_assoc]

/-- **After a tree** those in it and those left are ready. -/
theorem Ready.next {pending : List Unread} {m m' : Entries} (h : Ready (t :: pending) m)
    {entries : List TreeEntry} (hnodup : (entries.map TreeEntry.filename).Nodup)
    (hadded : Added g s i t entries m m') :
    Ready ((t.trees entries).reverse ++ pending) m' := by
  obtain ⟨hapart, hpending⟩ := List.pairwise_cons.mp h.apart
  refine ⟨fun t' ht' q hq => ?_, ?_⟩
  · obtain ht' | ht' := List.mem_append.mp ht'
    · obtain ⟨entry, hentry, -, rfl⟩ := Unread.mem_trees.mp (List.mem_reverse.mp ht')
      rw [hadded.kept q, h.clear t List.mem_cons_self q (under_snoc hq)]
      intro other _ heq
      -- it is deeper than an entry
      obtain ⟨name, rest, rfl⟩ := hq
      have hlength := congrArg List.length heq
      simp only [List.length_append, List.length_cons, List.length_nil] at hlength
      omega
    · rw [hadded.kept q, h.clear t' (List.mem_cons_of_mem _ ht') q hq]
      intro other _ heq
      exact not_under_of_apart (hapart t' ht') under_name (heq ▸ hq)
  · rw [List.pairwise_append]
    refine ⟨?_, hpending, fun t₁ ht₁ t₂ ht₂ => ?_⟩
    · rw [List.pairwise_reverse, Unread.trees, List.pairwise_map]
      have hnames : (entries.filter fun entry => entry.kind = .tree).Pairwise fun a b =>
          a.filename ≠ b.filename :=
        (List.pairwise_map.mp hnodup).sublist List.filter_sublist
      refine hnames.imp fun {a b} hne => ?_
      have hnot : ∀ {a b : Bytes}, a ≠ b → ¬ t.parent ++ [a] <+: t.parent ++ [b] := by
        intro a b hne hpre
        obtain ⟨rfl, -⟩ :=
          List.cons_prefix_cons.mp ((List.prefix_append_right_inj t.parent).mp hpre)
        exact hne rfl
      exact ⟨hnot hne.symm, hnot hne⟩
    · obtain ⟨entry, hentry, -, rfl⟩ := Unread.mem_trees.mp (List.mem_reverse.mp ht₁)
      have hfront : t.parent <+: t.parent ++ [entry.filename] := List.prefix_append _ _
      refine ⟨fun hpre => (hapart t₂ ht₂).1 (hfront.trans hpre), fun hpre => ?_⟩
      obtain heq | hpre := List.prefix_concat_iff.mp hpre
      · exact (hapart t₂ ht₂).1 (heq ▸ hfront)
      · exact (hapart t₂ ht₂).2 hpre

/-- What reading the trees left adds below one of them. -/
def Holds (g : Git ρ) (s : Store ρ) (i : Nat) (t : Unread) (m : Entries) : Prop :=
  Readable g (t.place s) ∧ ∀ name rest, m.get? (t.parent ++ name :: rest) =
    scanned g i (t.place s) (name :: rest)

/-- One tree, once those in it are. -/
theorem Holds.of_trees {pending : List Unread} {entries : List TreeEntry} {m m' mlast : Entries}
    (h : Ready (t :: pending) m) (hread : readTree g s.reader t.oid = .ok entries)
    (hadded : Added g s i t entries m m') (htrees : ∀ t' ∈ t.trees entries, Holds g s i t' mlast)
    (hkept : ∀ q, (∀ t' ∈ (t.trees entries).reverse ++ pending, ¬ Under t'.parent q) →
    mlast.get? q = m'.get? q) :
    Holds g s i t mlast := by
  obtain ⟨hapart, -⟩ := List.pairwise_cons.mp h.apart
  have hstep : ∀ {name thing}, (t.place s).step g name = some thing ↔
      ∃ entry ∈ entries, entry.filename = name ∧ (t.place s).thing g entry = some thing :=
        Place.step_eq_some hread
  have hsome : ∀ entry ∈ entries, ((t.place s).thing g entry).isSome = true := by
    intro entry hentry
    obtain ⟨thing, hthing, -⟩ := hadded.there entry hentry
    rw [hthing]
    rfl
  -- a tree inside is among those read next
  have hinside : ∀ name P', (t.place s).step g name = some (.directory P') →
      ∃ t' ∈ t.trees entries, t'.place s = P' ∧ t'.parent = t.parent ++ [name] := by
    intro name P' hname
    obtain ⟨entry, hentry, rfl, hthing⟩ := hstep.mp hname
    obtain ⟨hkind, rfl⟩ := Place.thing_directory hthing
    exact ⟨_, Unread.mem_trees.mpr ⟨entry, hentry, hkind, rfl⟩, rfl, rfl⟩
  -- and a path not below one of them is as it was after this one
  have hleft : ∀ name rest, (rest ≠ [] → ∀ P', (t.place s).step g name ≠ some (.directory P')) →
      mlast.get? (t.parent ++ name :: rest) = m'.get? (t.parent ++ name :: rest) := by
    intro name rest hnot
    apply hkept
    intro t' ht' hunder
    obtain ht' | ht' := List.mem_append.mp ht'
    · obtain ⟨entry, hentry, hkind, rfl⟩ := Unread.mem_trees.mp (List.mem_reverse.mp ht')
      obtain ⟨next, more, heq⟩ := hunder
      rw [List.append_assoc] at heq
      obtain ⟨rfl, rfl⟩ := List.cons.inj (List.append_cancel_left heq)
      exact hnot (List.cons_ne_nil next more) _ (hstep.mpr
        ⟨entry, hentry, rfl, Place.thing_tree hkind⟩)
    · exact not_under_of_apart (hapart t' ht') ⟨name, rest, rfl⟩ hunder
  refine ⟨.mk ⟨entries, hread, hsome⟩ fun name P' hname => ?_, fun name rest => ?_⟩
  · obtain ⟨t', ht', rfl, -⟩ := hinside name P' hname
    exact (htrees t' ht').1
  have hclear : m.get? (t.parent ++ name :: rest) = none :=
    h.clear t List.mem_cons_self _ ⟨name, rest, rfl⟩
  cases rest with
  | nil =>
    rw [hleft name [] fun hne => absurd rfl hne, scanned, if_pos rfl]
    cases hname : (t.place s).step g name with
    | none =>
      rw [hadded.kept, hclear]
      · rfl
      · intro entry hentry heq
        obtain ⟨thing, hthing⟩ := Option.isSome_iff_exists.mp (hsome entry hentry)
        rw [hstep.mpr ⟨entry, hentry, (List.singleton_inj.mp (List.append_cancel_left heq)).symm,
          hthing⟩] at hname
        cases hname
    | some thing =>
      obtain ⟨entry, hentry, rfl, hthing⟩ := hstep.mp hname
      obtain ⟨thing', hthing', hget⟩ := hadded.there entry hentry
      rw [hthing, Option.some.injEq] at hthing'
      rw [hget, hthing']
      rfl
  | cons next more =>
    rw [scanned, if_neg (List.cons_ne_nil next more)]
    by_cases hdirectory : ∃ P', (t.place s).step g name = some (.directory P')
    · obtain ⟨P', hname⟩ := hdirectory
      obtain ⟨t', ht', rfl, hparent⟩ := hinside name P' hname
      have hdeep := (htrees t' ht').2 next more
      rw [hparent, List.append_assoc] at hdeep
      rw [hname]
      exact hdeep
    · have hnot : ∀ P', (t.place s).step g name ≠ some (.directory P') :=
        fun P' hname => hdirectory ⟨P', hname⟩
      have hnone : ((t.place s).step g name).bind Thing.inTree = none := by
        cases hname : (t.place s).step g name with
        | none => rfl
        | some thing =>
          cases thing with
          | directory P' => exact absurd hname (hnot P')
          | module _ _ _ => rfl
          | file _ _ _ => rfl
          | symlink _ => rfl
      rw [hleft name (next :: more) fun _ => hnot, hadded.kept, hclear, hnone]
      · rfl
      · intro entry _ heq
        have hlength := congrArg List.length heq
        simp only [List.length_append, List.length_cons, List.length_nil] at hlength
        omega

/-- **What a scan has added**: below each tree what it shows, and nothing elsewhere. -/
theorem scanFrom_ok {fuel : Nat} {pending : List Unread} {m m' : Entries} (hready : Ready pending m)
    (h : scanFrom g s.reader i fuel pending m = some (.ok m')) :
    (∀ t ∈ pending, Holds g s i t m') ∧ ∀ q, (∀ t ∈ pending, ¬ Under t.parent q) →
      m'.get? q = m.get? q := by
  induction fuel generalizing pending m with
  | zero =>
    rw [scanFrom] at h
    cases h
  | succ fuel ih =>
    cases pending with
    | nil =>
      rw [scanFrom] at h
      cases h
      exact ⟨fun t ht => absurd ht List.not_mem_nil, fun q _ => rfl⟩
    | cons t pending =>
      rw [scanFrom] at h
      cases hround : readTree g s.reader t.oid >>= List.foldlM (scanEntry g s.reader i t)
          (pending, m) with
      | error e =>
        rw [hround] at h
        cases h
      | ok st =>
        obtain ⟨pending₁, m₁⟩ := st
        rw [hround] at h
        obtain ⟨entries, hread, hfold⟩ := except_bind_eq_ok.mp hround
        obtain ⟨hadded, rfl⟩ := scanEntries_ok hfold
        obtain ⟨hholds, hkept⟩ := ih (hready.next (readTree_ok hread).2 hadded) h
        have htrees : ∀ t' ∈ t.trees entries, Holds g s i t' m' :=
          fun t' ht' => hholds t' (List.mem_append_left _ (List.mem_reverse.mpr ht'))
        refine ⟨fun t' ht' => ?_, fun q hq => ?_⟩
        · obtain rfl | ht' := List.mem_cons.mp ht'
          · exact .of_trees hready hread hadded htrees hkept
          · exact hholds t' (List.mem_append_right _ ht')
        · have hhere := hq t List.mem_cons_self
          rw [hkept q, hadded.kept q]
          · rintro entry _ rfl
            exact hhere under_name
          · intro t' ht' hunder
            obtain ht' | ht' := List.mem_append.mp ht'
            · obtain ⟨entry, -, -, rfl⟩ := Unread.mem_trees.mp (List.mem_reverse.mp ht')
              exact hhere (under_snoc hunder)
            · exact hq t' (List.mem_cons_of_mem _ ht') hunder

/-- More fuel makes no difference. -/
theorem scanFrom_mono {r : ρ} {fuel more : Nat} {pending : List Unread} {m : Entries}
    {result : Except ContextError Entries} (h : scanFrom g r i fuel pending m = some result) :
    scanFrom g r i (fuel + more) pending m = some result := by
  induction fuel generalizing pending m with
  | zero =>
    rw [scanFrom] at h
    cases h
  | succ fuel ih =>
    rw [Nat.succ_add]
    cases pending with
    | nil => exact h
    | cons t pending =>
      rw [scanFrom] at h ⊢
      cases hround : readTree g r t.oid >>= List.foldlM (scanEntry g r i t) (pending, m) with
      | error e =>
        rw [hround] at h
        exact h
      | ok st =>
        rw [hround] at h
        exact ih h

/-- **One tree and what is in it** takes a number of rounds. -/
theorem Readable.rounds {P : Place ρ} (h : Readable g P) {t : Unread} (ht : t.place s = P)
    {pending : List Unread} {m : Entries} (hready : Ready (t :: pending) m) :
    ∃ k m', Ready pending m' ∧
      ∀ fuel, scanFrom g s.reader i (fuel + k) (t :: pending) m =
        scanFrom g s.reader i fuel pending m' := by
  induction h generalizing t pending m with
  | @mk P hread hinside ih =>
    subst ht
    obtain ⟨entries, hentries, hsome⟩ := hread
    obtain ⟨hnames, hnodup⟩ := readTree_ok hentries
    obtain ⟨⟨pending₁, m₁⟩, hfold⟩ := @scanEntries_total _ g s i t _ hnames hnodup hsome pending m
      (fun entry _ => hready.clear t List.mem_cons_self _ under_name)
    obtain ⟨hadded, rfl⟩ := scanEntries_ok hfold
    -- the trees in it, one after the other
    have htrees : ∀ (l : List Unread), (∀ t' ∈ l, ∃ name P',
        (t.place s).step g name = some (.directory P') ∧ t'.place s = P') →
        ∀ m, Ready (l ++ pending) m → ∃ k m', Ready pending m' ∧
          ∀ fuel, scanFrom g s.reader i (fuel + k) (l ++ pending) m =
              scanFrom g s.reader i fuel pending m' := by
      intro l
      induction l with
      | nil => exact fun _ m hready => ⟨0, m, hready, fun fuel => rfl⟩
      | cons t' l ihl =>
        intro hl m hready
        obtain ⟨name, P', hname, hplace⟩ := hl t' List.mem_cons_self
        obtain ⟨k₁, m₁, hready₁, hrun₁⟩ := ih name P' hname hplace hready
        obtain ⟨k₂, m₂, hready₂, hrun₂⟩ :=
          ihl (fun t' ht' => hl t' (List.mem_cons_of_mem _ ht')) m₁ hready₁
        refine ⟨k₂ + k₁, m₂, hready₂, fun fuel => ?_⟩
        rw [← Nat.add_assoc]
        exact (hrun₁ (fuel + k₂)).trans (hrun₂ fuel)
    have hmem : ∀ t' ∈ (t.trees entries).reverse, ∃ name P', (t.place s).step g name =
        some (.directory P') ∧ t'.place s = P' := by
      intro t' ht'
      obtain ⟨entry, hentry, hkind, rfl⟩ := Unread.mem_trees.mp (List.mem_reverse.mp ht')
      exact ⟨entry.filename, _, (Place.step_of_mem hentries hentry).trans
        (Place.thing_tree hkind), rfl⟩
    obtain ⟨k, m', hready', hrun⟩ := htrees _ hmem m₁ (hready.next hnodup hadded)
    refine ⟨k + 1, m', hready', fun fuel => ?_⟩
    rw [← Nat.add_assoc, scanFrom]
    have hround : readTree g s.reader t.oid >>= List.foldlM (scanEntry g s.reader i t)
        (pending, m) =
        .ok ((t.trees entries).reverse ++ pending, m₁) :=
          except_bind_eq_ok.mpr ⟨entries, hentries, hfold⟩
    rw [hround]
    exact hrun fuel

/-- **A tree that can be read is scanned**, with fuel enough. -/
theorem scanFrom_total {m : Entries} (h : Readable g (t.place s))
    (hclear : ∀ q, Under t.parent q → m.get? q = none) :
    ∃ k m', ∀ fuel, k ≤ fuel → scanFrom g s.reader i fuel [t] m = some (.ok m') := by
  have hready : Ready [t] m := by
    refine ⟨fun t' ht' => ?_, List.pairwise_singleton _ t⟩
    rw [List.mem_singleton.mp ht']
    exact hclear
  obtain ⟨k, m', -, hrun⟩ := h.rounds (i := i) rfl hready
  refine ⟨k + 1, m', fun fuel hfuel => ?_⟩
  obtain ⟨more, rfl⟩ := Nat.exists_eq_add_of_le hfuel
  have hend : scanFrom g s.reader i (k + 1) [t] m = some (.ok m') := by
    rw [Nat.add_comm, hrun, scanFrom]
  exact scanFrom_mono hend

end

end

end Conglobate.Context
