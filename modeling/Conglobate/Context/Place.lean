import Conglobate.Context.Capture

/- What a context shows (`context/mod.rs`).

   Committed objects are a tree of places: a directory is a tree in some store, and below
   a module is the tree of its commit, in a store of the module's own (`placeAt`). A
   context shows a place if its entries say what is there, and its directories have all
   that is in them; a module it has not expanded hides what is below (`Shows`).

   What is proved:
     1. `Shows.hidden_or_shown` — of a path, a context has either what the place has
        there or a module above it;
     2. `Shows.complete` — without modules, a context is all of its place;
     3. `Shows.whole` — and then every module below the place opens. -/
namespace Conglobate.Context

open Copy

/-- A directory of the committed objects: a tree in a store, and its path there. -/
structure Place (ρ : Type) where
  store : Store ρ
  path : EntryPath
  oid : ObjectId

inductive Thing (ρ : Type) where
  | directory (place : Place ρ)
  | module (outer : Store ρ) (path : EntryPath) (oid : ObjectId)
  | file (store : Store ρ) (executable : Bool) (oid : ObjectId)
  | symlink (target : Bytes)

section
variable {ρ : Type} (g : Git ρ)

namespace Place

def entry (P : Place ρ) (name : Bytes) : Option TreeEntry :=
  match readTree g P.store.reader P.oid with
  | .error _ => none
  | .ok entries => entries.find? (fun entry => entry.filename = name)

def thing (P : Place ρ) (entry : TreeEntry) : Option (Thing ρ) :=
  match entry.kind with
  | .tree => some (.directory ⟨P.store, P.path ++ [entry.filename], entry.oid⟩)
  | .commit => some (.module P.store (P.path ++ [entry.filename]) entry.oid)
  | .link => (readLink g P.store.reader entry.oid).toOption.map .symlink
  | .blob => some (.file P.store false entry.oid)
  | .blobExecutable => some (.file P.store true entry.oid)

/-- What a name denotes here. -/
def step (P : Place ρ) (name : Bytes) : Option (Thing ρ) := (P.entry g name).bind (P.thing g)

/-- The tree can be read, and the links in it. -/
def Read (P : Place ρ) : Prop :=
  ∃ entries, readTree g P.store.reader P.oid = .ok entries ∧
    ∀ entry ∈ entries, (P.thing g entry).isSome = true

end Place

namespace Thing

/-- The place inside. -/
def enter : Thing ρ → Option (Place ρ)
  | .directory P => some P
  | .module outer path oid => (moduleStore g outer path oid).toOption.map fun s => ⟨s, [], s.root⟩
  | _ => none

/-- Something may be inside. -/
def nested : Thing ρ → Bool
  | .directory _ => true
  | .module _ _ _ => true
  | _ => false

/-- An entry for this thing, its store being number `i`. -/
def toEntry (i : Nat) : Thing ρ → ContextEntry
  | .directory _ => .directory
  | .module _ path oid => .module i path oid
  | .file _ executable oid => .file i executable oid
  | .symlink target => .symlink target

/-- An entry for this thing when it is expanded, without the number of a store. -/
def shown : Thing ρ → ContextEntry
  | .directory _ => .directory
  | .module _ _ _ => .directory
  | .file _ executable oid => .file 0 executable oid
  | .symlink target => .symlink target

end Thing

/-- The place of a path. -/
def placeAt (P : Place ρ) (path : EntryPath) : Option (Place ρ) :=
  path.foldlM (fun P name => (P.step g name).bind (Thing.enter g)) P

end

/-- An entry without the number of its store. -/
def unnumbered : ContextEntry → ContextEntry
  | .module _ path oid => .module 0 path oid
  | .file _ executable oid => .file 0 executable oid
  | e => e

section
variable {ρ : Type} {g : Git ρ}

@[simp] theorem placeAt_nil (P : Place ρ) : placeAt g P [] = some P := rfl

theorem placeAt_append (P : Place ρ) (path rest : EntryPath) :
    placeAt g P (path ++ rest) = (placeAt g P path).bind fun P' => placeAt g P' rest :=
  List.foldlM_append

theorem placeAt_snoc (P : Place ρ) (path : EntryPath) (name : Bytes) :
    placeAt g P (path ++ [name]) = (placeAt g P path).bind fun P' => (P'.step g name).bind
      (Thing.enter g) := by
  rw [placeAt_append]
  refine congrArg _ (funext fun P' => ?_)
  rw [placeAt, List.foldlM_cons]
  cases (P'.step g name).bind (Thing.enter g) <;> rfl

theorem placeAt_snoc_eq_some {P P' : Place ρ} {path : EntryPath} {name : Bytes} :
    placeAt g P (path ++ [name]) = some P' ↔
      ∃ Q thing, placeAt g P path = some Q ∧ Q.step g name = some thing ∧
        thing.enter g = some P' := by
  rw [placeAt_snoc]
  simp only [Option.bind_eq_some_iff]
  constructor
  · intro h
    obtain ⟨Q, hQ, thing, hthing, henter⟩ := h
    exact ⟨Q, thing, hQ, hthing, henter⟩
  · intro h
    obtain ⟨Q, thing, hQ, hthing, henter⟩ := h
    exact ⟨Q, hQ, thing, hthing, henter⟩

theorem Thing.nested_of_enter {thing : Thing ρ} {P : Place ρ} (h : thing.enter g = some P) :
    thing.nested = true := by
  cases thing with
  | directory _ => rfl
  | module _ _ _ => rfl
  | file _ _ _ => cases h
  | symlink _ => cases h

/-! Trees that were read. -/

theorem checkNames_ok {names : List Bytes} {entries : List TreeEntry}
    (h : checkNames names entries = .ok ()) :
    (∀ entry ∈ entries, entryName entry.filename = true ∧ entry.filename ∉ names) ∧
      (entries.map TreeEntry.filename).Nodup := by
  induction entries generalizing names with
  | nil => exact ⟨fun entry hentry => absurd hentry List.not_mem_nil, List.nodup_nil⟩
  | cons first rest ih =>
    rw [checkNames] at h
    split at h
    · cases h
    split at h
    · cases h
    · rename_i hname hcontains
      have hfresh : first.filename ∉ names := fun hmem => hcontains (List.contains_iff_mem.mpr hmem)
      obtain ⟨hrest, hnodup⟩ := ih h
      refine ⟨fun entry hentry => ?_, ?_⟩
      · obtain rfl | hentry := List.mem_cons.mp hentry
        · exact ⟨by simpa using hname, hfresh⟩
        · exact ⟨(hrest entry hentry).1, fun hmem => (hrest entry hentry).2
            (List.mem_cons_of_mem _ hmem)⟩
      · rw [List.map_cons, List.nodup_cons]
        refine ⟨fun hmem => ?_, hnodup⟩
        obtain ⟨entry, hentry, hsame⟩ := List.mem_map.mp hmem
        exact (hrest entry hentry).2 (hsame ▸ List.mem_cons_self)

/-- **A tree has names that may stand there**, each once. -/
theorem readTree_ok {r : ρ} {id : ObjectId} {entries : List TreeEntry}
    (h : readTree g r id = .ok entries) :
    (∀ entry ∈ entries, entryName entry.filename = true) ∧
      (entries.map TreeEntry.filename).Nodup := by
  rw [readTree] at h
  obtain ⟨object, -, h⟩ := except_bind_eq_ok.mp h
  split at h
  · cases h
  obtain ⟨decoded, -, h⟩ := except_bind_eq_ok.mp h
  obtain ⟨u, hcheck, h⟩ := except_bind_eq_ok.mp h
  cases h
  obtain ⟨hnames, hnodup⟩ := checkNames_ok hcheck
  exact ⟨fun entry hentry => (hnames entry hentry).1, hnodup⟩

theorem find?_filename {entries : List TreeEntry} (h : (entries.map TreeEntry.filename).Nodup)
    {entry : TreeEntry} (hentry : entry ∈ entries) :
    entries.find? (fun e => e.filename = entry.filename) = some entry := by
  induction entries with
  | nil => cases hentry
  | cons first rest ih =>
    rw [List.map_cons, List.nodup_cons] at h
    obtain rfl | hrest := List.mem_cons.mp hentry
    · exact List.find?_cons_of_pos (decide_eq_true rfl)
    · rw [List.find?_cons_of_neg]
      · exact ih h.2 hrest
      · intro heq
        exact h.1 (of_decide_eq_true heq ▸ List.mem_map_of_mem hrest)

theorem Place.step_of_mem {P : Place ρ} {entries : List TreeEntry}
    (h : readTree g P.store.reader P.oid = .ok entries) {entry : TreeEntry}
    (hentry : entry ∈ entries) : P.step g entry.filename = P.thing g entry := by
  rw [Place.step, Place.entry, h]
  dsimp only
  rw [find?_filename (readTree_ok h).2 hentry]
  rfl

theorem Place.step_eq_some {P : Place ρ} {entries : List TreeEntry}
    (h : readTree g P.store.reader P.oid = .ok entries) {name : Bytes} {thing : Thing ρ} :
    P.step g name = some thing ↔ ∃ entry ∈ entries, entry.filename = name ∧
      P.thing g entry = some thing := by
  constructor
  · intro hstep
    rw [Place.step, Place.entry, h] at hstep
    dsimp only at hstep
    obtain ⟨entry, hfind, hthing⟩ := Option.bind_eq_some_iff.mp hstep
    have hname := List.find?_some hfind
    exact ⟨entry, List.mem_of_find?_eq_some hfind, of_decide_eq_true hname, hthing⟩
  · intro hentry
    obtain ⟨entry, hmem, rfl, hthing⟩ := hentry
    rw [Place.step_of_mem h hmem, hthing]

theorem Place.entryName_of_step {P : Place ρ} {name : Bytes} {thing : Thing ρ}
    (h : P.step g name = some thing) :
    entryName name = true := by
  rw [Place.step, Place.entry] at h
  cases hread : readTree g P.store.reader P.oid with
  | error e =>
    rw [hread] at h
    cases h
  | ok entries =>
    rw [hread] at h
    dsimp only at h
    obtain ⟨entry, hfind, -⟩ := Option.bind_eq_some_iff.mp h
    have hname := List.find?_some hfind
    exact (of_decide_eq_true hname : entry.filename = name) ▸ (readTree_ok hread).1 entry
      (List.mem_of_find?_eq_some hfind)

/-! Showing. -/

variable (g) in
/-- What an entry says of the objects. -/
def Tells (stores : List (Store ρ)) : ContextEntry → Thing ρ → Prop
  | .directory, thing => ∃ P, thing.enter g = some P
  | .module i path oid, thing => ∃ s, stores[i]? = some s ∧ thing = .module s path oid
  | .file i executable oid, thing => ∃ s, stores[i]? = some s ∧ thing = .file s executable oid
  | .symlink target, thing => thing = .symlink target

variable (g) in
/-- Everything in this directory has an entry. -/
def Listed (entries : Entries) (path : EntryPath) (P : Place ρ) : Prop :=
  P.Read g ∧ ∀ name thing, P.step g name = some thing → ∃ e, entries.get? (path ++ [name]) = some e

def IsDirectory (entries : Entries) (path : EntryPath) :
    Prop := path = [] ∨ entries.get? path = some .directory

variable (g) in
structure Shows (P₀ : Place ρ) (c : CapturedContext ρ) : Prop where
  captured : Captured c.entries
  tells : ∀ path name e, c.entries.get? (path ++ [name]) = some e →
    ∃ P thing, placeAt g P₀ path = some P ∧ P.step g name = some thing ∧ Tells g c.stores e thing
  listed : ∀ path P, IsDirectory c.entries path → placeAt g P₀ path = some P →
    Listed g c.entries path P

/-- Nothing is left to expand. -/
def Complete (entries : Entries) : Prop := ∀ path e, entries.get? path = some e → e.isModule = false

section
variable {P₀ : Place ρ} {c : CapturedContext ρ}

theorem Tells.directory_iff {stores : List (Store ρ)} {e : ContextEntry} {thing : Thing ρ}
    (h : Tells g stores e thing) :
    thing.nested = true ↔ e = .directory ∨ e.isModule = true := by
  cases e with
  | directory =>
    obtain ⟨P, hP⟩ := h
    exact iff_of_true (Thing.nested_of_enter hP) (.inl rfl)
  | module i path oid =>
    obtain ⟨s, -, rfl⟩ := h
    exact iff_of_true rfl (.inr rfl)
  | file i executable oid =>
    obtain ⟨s, -, rfl⟩ := h
    exact iff_of_false Bool.false_ne_true (fun heq => heq.elim (fun heq => by cases heq)
      (fun heq => by cases heq))
  | symlink target =>
    obtain rfl := h
    exact iff_of_false Bool.false_ne_true (fun heq => heq.elim (fun heq => by cases heq)
      (fun heq => by cases heq))

/-- A directory of the context is a place. -/
theorem Shows.place (h : Shows g P₀ c) {path : EntryPath} (hdir : IsDirectory c.entries path) :
    ∃ P, placeAt g P₀ path = some P := by
  obtain rfl | ⟨init, name, rfl⟩ := List.eq_nil_or_concat path
  · exact ⟨P₀, rfl⟩
  rw [List.concat_eq_append] at hdir ⊢
  have hget := hdir.resolve_left (by simp)
  obtain ⟨P, thing, hP, hthing, P', hP'⟩ := h.tells init name _ hget
  exact ⟨P', placeAt_snoc_eq_some.mpr ⟨P, thing, hP, hthing, hP'⟩⟩

/-- **What is at a place is shown, or a module above hides it.** -/
theorem Shows.hidden_or_shown (h : Shows g P₀ c) (path : EntryPath) {P : Place ρ}
    (hP : placeAt g P₀ path = some P) :
    IsDirectory c.entries path ∨ ∃ q e, q <+: path ∧ c.entries.get? q = some e ∧
      e.isModule = true := by
  induction path using List.reverseRecOn generalizing P with
  | nil => exact .inl (.inl rfl)
  | append_singleton path name ih =>
    obtain ⟨Q, thing, hQ, hthing, henter⟩ := placeAt_snoc_eq_some.mp hP
    obtain hdir | ⟨q, e, hq, he, hmodule⟩ := ih hQ
    · obtain ⟨e, he⟩ := (h.listed path Q hdir hQ).2 name thing hthing
      obtain ⟨Q', thing', hQ', hthing', htells⟩ := h.tells path name e he
      rw [hQ, Option.some.injEq] at hQ'
      rw [← hQ', hthing, Option.some.injEq] at hthing'
      obtain rfl | hmodule := htells.directory_iff.mp (hthing' ▸ Thing.nested_of_enter henter)
      · exact .inl (.inr he)
      · exact .inr ⟨path ++ [name], e, List.prefix_refl _, he, hmodule⟩
    · exact .inr ⟨q, e, hq.trans (List.prefix_append _ _), he, hmodule⟩

theorem Tells.shown {stores : List (Store ρ)} {e : ContextEntry} {thing : Thing ρ}
    (h : Tells g stores e thing) (hexpanded : e.isModule = false) : unnumbered e = thing.shown := by
  cases e with
  | directory =>
    obtain ⟨P, hP⟩ := h
    cases thing with
    | directory _ => rfl
    | module _ _ _ => rfl
    | file _ _ _ => cases hP
    | symlink _ => cases hP
  | module i path oid => cases hexpanded
  | file i executable oid =>
    obtain ⟨s, -, rfl⟩ := h
    rfl
  | symlink target =>
    obtain rfl := h
    rfl

/-- **A complete context is all of its place.** -/
theorem Shows.complete (h : Shows g P₀ c) (hcomplete : Complete c.entries) (path : EntryPath)
    (name : Bytes) :
    (c.entries.get? (path ++ [name])).map unnumbered =
      ((placeAt g P₀ path).bind fun P => P.step g name).map Thing.shown := by
  cases he : c.entries.get? (path ++ [name]) with
  | some e =>
    obtain ⟨P, thing, hP, hthing, htells⟩ := h.tells path name e he
    rw [hP, Option.map_some, Option.bind_some, hthing, Option.map_some,
      htells.shown (hcomplete _ e he)]
  | none =>
    cases hP : placeAt g P₀ path with
    | none => rfl
    | some P =>
      rw [Option.bind_some]
      cases hthing : P.step g name with
      | none => rfl
      | some thing =>
        obtain hdir | ⟨q, e, -, hq, hmodule⟩ := h.hidden_or_shown path hP
        · obtain ⟨e, he'⟩ := (h.listed path P hdir hP).2 name thing hthing
          rw [he] at he'
          cases he'
        · rw [hcomplete q e hq] at hmodule
          cases hmodule

end

/-! Places that open all the way down. -/

variable (g) in
inductive Whole : Place ρ → Prop where
  | mk {P : Place ρ} : P.Read g →
      (∀ name thing, P.step g name = some thing → thing.nested = true →
        ∃ P', thing.enter g = some P') →
      (∀ name thing P', P.step g name = some thing → thing.enter g = some P' → Whole P') → Whole P

section
variable {P₀ : Place ρ} {c : CapturedContext ρ}

theorem Whole.read {P : Place ρ} (h : Whole g P) : P.Read g := by
  cases h with
  | mk hread _ _ => exact hread

theorem Whole.opens {P : Place ρ} (h : Whole g P) {name : Bytes} {thing : Thing ρ}
    (hthing : P.step g name = some thing) (hnested : thing.nested = true) :
    ∃ P', thing.enter g = some P' := by
  cases h with
  | mk _ hopens _ => exact hopens name thing hthing hnested

theorem Whole.inside {P P' : Place ρ} (h : Whole g P) {path : EntryPath}
    (hP : placeAt g P path = some P') : Whole g P' := by
  induction path using List.reverseRecOn generalizing P' with
  | nil => exact Option.some.inj hP ▸ h
  | append_singleton path name ih =>
    obtain ⟨Q, thing, hQ, hthing, henter⟩ := placeAt_snoc_eq_some.mp hP
    cases ih hQ with
    | mk _ _ hbelow => exact hbelow name thing P' hthing henter

theorem length_le_of_key (c : CapturedContext ρ) :
    ∃ n, ∀ path e, c.entries.get? path = some e → path.length ≤ n := by
  refine ⟨(c.entries.entries.map fun e => e.1.length).sum, fun path e he => ?_⟩
  exact List.le_sum_of_mem (List.mem_map_of_mem (f := fun e : EntryPath × ContextEntry =>
    e.1.length) (OrdMap.get?_eq_some.mp he))

/-- **A complete context has opened every module.** -/
theorem Shows.whole (h : Shows g P₀ c) (hcomplete : Complete c.entries) : Whole g P₀ := by
  obtain ⟨bound, hbound⟩ := length_le_of_key c
  -- down from a directory of the context, whose paths are not longer than its keys
  suffices hdown : ∀ path P, IsDirectory c.entries path → placeAt g P₀ path = some P →
    Whole g P from
    hdown [] P₀ (.inl rfl) rfl
  intro path P hdir hP
  induction hleft : bound + 1 - path.length using Nat.strong_induction_on generalizing path P with
  | _ left ih =>
    obtain ⟨hread, hlisted⟩ := h.listed path P hdir hP
    have hinside : ∀ name thing, P.step g name = some thing → thing.nested = true →
        (∃ P', thing.enter g = some P') ∧ c.entries.get? (path ++ [name]) = some .directory := by
      intro name thing hthing hnested
      obtain ⟨e, he⟩ := hlisted name thing hthing
      obtain ⟨Q, thing', hQ, hthing', htells⟩ := h.tells path name e he
      rw [hP, Option.some.injEq] at hQ
      rw [← hQ, hthing, Option.some.injEq] at hthing'
      obtain rfl | hmodule := htells.directory_iff.mp (hthing' ▸ hnested)
      · exact ⟨hthing' ▸ htells, he⟩
      · rw [hcomplete _ e he] at hmodule
        cases hmodule
    refine .mk hread (fun name thing hthing hnested => (hinside name thing hthing hnested).1) ?_
    intro name thing P' hthing henter
    obtain ⟨-, hget⟩ := hinside name thing hthing (Thing.nested_of_enter henter)
    have hlength := hbound _ _ hget
    rw [List.length_append, List.length_singleton] at hlength
    refine ih (bound + 1 - (path ++ [name]).length) ?_ (path ++ [name]) P' (.inr hget) ?_ rfl
    · rw [List.length_append, List.length_singleton]
      omega
    · exact placeAt_snoc_eq_some.mpr ⟨P, thing, hP, hthing, henter⟩

end

end

end Conglobate.Context
