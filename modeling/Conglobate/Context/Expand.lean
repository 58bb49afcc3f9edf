import Conglobate.Context.Read
import Conglobate.Context.Scan
import Conglobate.Copy.Descendants
import Mathlib.Data.Set.Finite.Lattice
import Mathlib.Data.Set.Card
import Mathlib.Logic.Relation

/- Expanding the modules of a context (`CapturedContext::expand`, `context/mod.rs`).

   A context goes on showing its place while its modules are expanded, one after the other.
   Where everything below a place can be read and opened, each can be, and there are only
   so many of them.

   What is proved:
     1. `Shows.of_scan`, `Shows.expand` — scanning a place shows it, and expanding a module
        goes on showing it;
     2. `expand_total` — a module that opens is expanded: some fuel is enough;
     3. `Shows.completes` — all of them can be expanded, in whatever order it was begun. -/
namespace Conglobate.Context

open Copy

section
variable {ρ : Type} {g : Git ρ}

/-! What scanning a place shows. -/

section
variable {i : Nat} {P : Place ρ}

theorem scanned_of_treeAt {path : EntryPath} (hne : path ≠ []) {P' : Place ρ}
    (h : treeAt g P path = some P') :
    scanned g i P path = some .directory := by
  obtain hnil | ⟨init, name, rfl⟩ := List.eq_nil_or_concat path
  · exact absurd hnil hne
  rw [List.concat_eq_append] at h ⊢
  rw [treeAt, List.foldlM_append] at h
  obtain ⟨Q, hQ, hlast⟩ := Option.bind_eq_some_iff.mp h
  rw [List.foldlM_cons] at hlast
  obtain ⟨Q', hname, -⟩ := Option.bind_eq_some_iff.mp hlast
  obtain ⟨thing, hthing, hinside⟩ := Option.bind_eq_some_iff.mp hname
  rw [scanned_snoc]
  show (treeAt g P init).bind _ = _
  rw [show treeAt g P init = some Q from hQ, Option.bind_some, hthing]
  cases thing with
  | directory _ => rfl
  | module _ _ _ => cases hinside
  | file _ _ _ => cases hinside
  | symlink _ => cases hinside

theorem scanned_snoc_eq_some {path : EntryPath} {name : Bytes} {e : ContextEntry} :
    scanned g i P (path ++ [name]) = some e ↔
      ∃ Q thing, treeAt g P path = some Q ∧ Q.step g name = some thing ∧ thing.toEntry i = e := by
  rw [scanned_snoc]
  simp only [Option.bind_eq_some_iff, Option.map_eq_some_iff]
  exact exists_congr fun Q => exists_and_left.symm

theorem scanned_names {path : EntryPath} {e : ContextEntry} (h : scanned g i P path = some e) :
    ∀ name ∈ path, entryName name = true := by
  induction path generalizing P with
  | nil => exact fun name hname => absurd hname List.not_mem_nil
  | cons first rest ih =>
    intro name hname
    rw [scanned] at h
    split at h
    · rename_i hrest
      obtain ⟨thing, hthing, -⟩ := Option.map_eq_some_iff.mp h
      rw [hrest, List.mem_singleton] at hname
      exact hname ▸ Place.entryName_of_step hthing
    · obtain ⟨P', hP', hdeep⟩ := Option.bind_eq_some_iff.mp h
      obtain ⟨thing, hthing, -⟩ := Option.bind_eq_some_iff.mp hP'
      obtain rfl | hname := List.mem_cons.mp hname
      · exact Place.entryName_of_step hthing
      · exact ih hdeep name hname

theorem scanned_parent {path : EntryPath} {name : Bytes} {e : ContextEntry}
    (h : scanned g i P (path ++ [name]) = some e) :
    path = [] ∨ scanned g i P path = some .directory := by
  obtain ⟨Q, thing, hQ, -⟩ := scanned_snoc_eq_some.mp h
  by_cases hnil : path = []
  · exact .inl hnil
  · exact .inr (scanned_of_treeAt hnil hQ)

/-- What a thing is an entry for, told by the store it is of. -/
theorem tells_toEntry {stores : List (Store ρ)} {Q : Place ρ} {name : Bytes} {thing : Thing ρ}
    (hthing : Q.step g name = some thing) (hstore : stores[i]? = some Q.store) :
    Tells g stores (thing.toEntry i) thing := by
  obtain ⟨entry, -, hentry⟩ := Option.bind_eq_some_iff.mp hthing
  rw [Place.thing] at hentry
  cases hkind : entry.kind with
  | tree =>
    rw [hkind] at hentry
    cases hentry
    exact ⟨_, rfl⟩
  | commit =>
    rw [hkind] at hentry
    cases hentry
    exact ⟨Q.store, hstore, rfl⟩
  | link =>
    rw [hkind] at hentry
    obtain ⟨target, -, rfl⟩ := Option.map_eq_some_iff.mp hentry
    rfl
  | blob =>
    rw [hkind] at hentry
    cases hentry
    exact ⟨Q.store, hstore, rfl⟩
  | blobExecutable =>
    rw [hkind] at hentry
    cases hentry
    exact ⟨Q.store, hstore, rfl⟩

theorem scanned_tells {stores : List (Store ρ)} (hstore : stores[i]? = some P.store)
    {path : EntryPath} {name : Bytes} {e : ContextEntry}
    (h : scanned g i P (path ++ [name]) = some e) :
    ∃ Q thing, placeAt g P path = some Q ∧ Q.step g name = some thing ∧ Tells g stores e thing := by
  obtain ⟨Q, thing, hQ, hthing, rfl⟩ := scanned_snoc_eq_some.mp h
  obtain ⟨hplace, hsame⟩ := placeAt_of_treeAt hQ
  exact ⟨Q, thing, hplace, hthing, tells_toEntry hthing (hsame ▸ hstore)⟩

theorem scanned_listed (hread : Readable g P) {path : EntryPath}
    (hdir : path = [] ∨ scanned g i P path = some .directory) {Q : Place ρ}
    (hQ : placeAt g P path = some Q) :
    Q.Read g ∧ ∀ name thing, Q.step g name = some thing → ∃ e, scanned g i P (path ++ [name]) =
      some e := by
  have htree : treeAt g P path = some Q := by
    obtain rfl | ⟨init, name, rfl⟩ := List.eq_nil_or_concat path
    · exact hQ
    rw [List.concat_eq_append] at hdir hQ ⊢
    obtain ⟨Q', thing, hQ', hthing, hentry⟩ := scanned_snoc_eq_some.mp (hdir.resolve_left (by simp))
    cases thing with
    | directory inside =>
      have hinside : treeAt g P (init ++ [name]) = some inside := by
        rw [treeAt, List.foldlM_append]
        show (treeAt g P init).bind _ = _
        rw [hQ', Option.bind_some, List.foldlM_cons, hthing]
        rfl
      rw [(placeAt_of_treeAt hinside).1] at hQ
      rw [hinside, hQ]
    | module _ _ _ => cases hentry
    | file _ _ _ => cases hentry
    | symlink _ => cases hentry
  exact ⟨(hread.inside htree).read, fun name thing hthing =>
    ⟨_, scanned_snoc_eq_some.mpr ⟨Q, thing, htree, hthing, rfl⟩⟩⟩

end

/-- **A context that was scanned shows its place.** -/
theorem Shows.of_scan {c : CapturedContext ρ} {i : Nat} {P : Place ρ}
    (hstore : c.stores[i]? = some P.store) (hread : Readable g P)
    (hentries : ∀ path, c.entries.get? path = scanned g i P path) : Shows g P c where
  captured :=
    { root := fun hkey => by
        rw [OrdMap.mem_keys, hentries] at hkey
        cases hkey
      names := fun path hkey => by
        obtain ⟨e, he⟩ := Option.isSome_iff_exists.mp (OrdMap.mem_keys.mp hkey)
        exact scanned_names ((hentries path).symm.trans he)
      parents := fun path name hkey => by
        obtain ⟨e, he⟩ := Option.isSome_iff_exists.mp (OrdMap.mem_keys.mp hkey)
        rw [hentries path]
        exact scanned_parent ((hentries _).symm.trans he) }
  tells path name e he := scanned_tells hstore ((hentries _).symm.trans he)
  listed path Q hdir hQ := by
    have hlisted := scanned_listed (i := i) hread (hdir.imp_right (hentries path).symm.trans) hQ
    exact ⟨hlisted.1, fun name thing hthing => by rw [hentries]; exact hlisted.2 name thing hthing⟩

/-! Expanding one module. -/

theorem under_iff {parent q : EntryPath} : Under parent q ↔ parent <+: q ∧ q ≠ parent := by
  constructor
  · intro h
    obtain ⟨name, rest, rfl⟩ := h
    refine ⟨List.prefix_append _ _, fun heq => ?_⟩
    exact List.cons_ne_nil name rest (List.append_right_eq_self.mp heq)
  · intro h
    obtain ⟨⟨rest, rfl⟩, hne⟩ := h
    have hrest : rest ≠ [] := fun hnil => hne (by rw [hnil, List.append_nil])
    obtain ⟨name, rest, rfl⟩ := List.exists_cons_of_ne_nil hrest
    exact ⟨name, rest, rfl⟩

/-- Below what is no directory there is nothing. -/
theorem Captured.clear {entries : Entries} (h : Captured entries) {path : EntryPath}
    (hne : path ≠ []) (hget : entries.get? path ≠ some .directory) {q : EntryPath}
    (hq : Under path q) : entries.get? q = none := by
  obtain ⟨name, rest, rfl⟩ := hq
  rw [← Option.not_isSome_iff_eq_none]
  intro hthere
  have habove := directory_above h.parents (List.cons_ne_nil name rest) (OrdMap.mem_keys.mpr hthere)
  exact habove.elim hne hget

variable (g) in
/-- What expanding a module has done. -/
structure Expanded (c : CapturedContext ρ) (selected : EntryPath) (c' : CapturedContext ρ)
    (outer : Store ρ) (path : EntryPath) (oid : ObjectId) (inner : Store ρ) : Prop where
  opened : moduleStore g outer path oid = .ok inner
  stores : c'.stores = c.stores ++ [inner]
  readable : Readable g ⟨inner, [], inner.root⟩
  here : c'.entries.get? selected = some .directory
  below : ∀ name rest, c'.entries.get? (selected ++ name :: rest) =
    scanned g c.stores.length ⟨inner, [], inner.root⟩ (name :: rest)
  kept : ∀ q, ¬ selected <+: q → c'.entries.get? q = c.entries.get? q

section
variable {fuel : Nat} {c c' : CapturedContext ρ} {selected : EntryPath}

theorem openModule_eq_ok {parent : Nat} {path : EntryPath} {oid : ObjectId}
    {r : Nat × CapturedContext ρ} :
    c.openModule g parent path oid = .ok r ↔ ∃ outer inner, c.stores[parent]? = some outer ∧
      moduleStore g outer path oid = .ok inner ∧
      r = (c.stores.length, { c with stores := c.stores ++ [inner] }) := by
  rw [CapturedContext.openModule, except_bind_eq_ok, CapturedContext.store]
  cases c.stores[parent]? with
  | none =>
    exact iff_of_false (fun h => by obtain ⟨s, hs, -⟩ := h; cases hs)
      (fun h => by obtain ⟨s, _, hs, -⟩ := h; cases hs)
  | some outer =>
    constructor
    · intro h
      obtain ⟨s, hs, h⟩ := h
      cases hs
      obtain ⟨inner, hinner, h⟩ := except_bind_eq_ok.mp h
      cases h
      exact ⟨outer, inner, rfl, hinner, rfl⟩
    · intro h
      obtain ⟨s, inner, hs, hinner, rfl⟩ := h
      cases hs
      exact ⟨outer, rfl, except_bind_eq_ok.mpr ⟨inner, hinner, rfl⟩⟩

theorem store_last (stores : List (Store ρ)) (inner : Store ρ) :
    (stores ++ [inner])[stores.length]? = some inner :=
  List.getElem?_concat_length

/-- Expanding a module that opened is scanning its tree. -/
theorem expand_module {store : Nat} {path : EntryPath} {oid : ObjectId}
    (hget : c.entries.get? selected = some (.module store path oid)) {outer inner : Store ρ}
    (houter : c.stores[store]? = some outer) (hinner : moduleStore g outer path oid = .ok inner) :
    c.expand g fuel selected = (scanFrom g inner.reader c.stores.length fuel
      [⟨selected, [], inner.root⟩] c.entries).map
      (Except.map fun entries => ⟨c.stores ++ [inner], entries.insert selected .directory⟩) := by
  have hopened := openModule_eq_ok.mpr ⟨outer, inner, houter, hinner, rfl⟩
  have hstore : CapturedContext.store (⟨c.stores ++ [inner],
      c.entries⟩ : CapturedContext ρ) c.stores.length = .ok inner := by
    rw [CapturedContext.store, store_last]
  rw [CapturedContext.expand, hget]
  dsimp only
  rw [hopened]
  dsimp only
  rw [hstore]
  dsimp only
  rw [CapturedContext.scan, hstore]
  dsimp only
  rw [Option.map_map]
  refine congrArg (fun f => Option.map f _) (funext fun r => ?_)
  cases r with
  | error e => rfl
  | ok entries => rfl

/-- **What an expansion that succeeds has done.** -/
theorem expand_eq_ok (hcaptured : Captured c.entries)
    (h : c.expand g fuel selected = some (.ok c')) :
    (c' = c ∧ ∀ e, c.entries.get? selected = some e → e.isModule = false) ∨
      ∃ store path oid outer inner, c.entries.get? selected = some (.module store path oid) ∧
        c.stores[store]? = some outer ∧ Expanded g c selected c' outer path oid inner := by
  by_cases hmodule : ∃ store path oid, c.entries.get? selected = some (.module store path oid)
  swap
  · left
    have hplain : ∀ e, c.entries.get? selected = some e → e.isModule = false := by
      intro e he
      cases e with
      | module store path oid => exact absurd ⟨store, path, oid, he⟩ hmodule
      | directory => rfl
      | file _ _ _ => rfl
      | symlink _ => rfl
    rw [expand_plain g fuel hplain] at h
    cases h
    exact ⟨rfl, hplain⟩
  right
  obtain ⟨store, path, oid, hget⟩ := hmodule
  obtain ⟨outer, inner, houter, hinner⟩ : ∃ outer inner, c.stores[store]? = some outer ∧
      moduleStore g outer path oid = .ok inner := by
    cases hopened : c.openModule g store path oid with
    | error e =>
      rw [CapturedContext.expand, hget] at h
      dsimp only at h
      rw [hopened] at h
      cases h
    | ok r =>
      obtain ⟨outer, inner, houter, hinner, -⟩ := openModule_eq_ok.mp hopened
      exact ⟨outer, inner, houter, hinner⟩
  rw [expand_module hget houter hinner] at h
  obtain ⟨r, hscan, hr⟩ := Option.map_eq_some_iff.mp h
  obtain ⟨m, rfl, rfl⟩ : ∃ m, r = .ok m ∧ (⟨c.stores ++ [inner],
      m.insert selected .directory⟩ : CapturedContext ρ) = c' := by
    cases r with
    | error e => cases hr
    | ok m => exact ⟨m, rfl, Except.ok.inj hr⟩
  have hne : selected ≠ [] := by
    rintro rfl
    exact hcaptured.root (OrdMap.mem_keys.mpr (by rw [hget]; rfl))
  have hready : Ready [⟨selected, [], inner.root⟩] c.entries := by
    refine ⟨fun t ht q hq => ?_, List.pairwise_singleton _ _⟩
    rw [List.mem_singleton.mp ht] at hq
    exact hcaptured.clear hne (by rw [hget]; exact fun heq => by cases heq) hq
  obtain ⟨hholds, hkept⟩ := @scanFrom_ok _ g inner _ _ _ _ _ hready hscan
  obtain ⟨hreadable, hbelow⟩ := hholds _ (List.mem_singleton_self _)
  refine ⟨store, path, oid, outer, inner, hget, houter, hinner, rfl, hreadable, ?_, fun name rest =>
    ?_, fun q hq => ?_⟩
  · rw [OrdMap.get?_insert, if_pos rfl]
  · have hother : selected ++ name :: rest ≠ selected :=
      fun heq => List.cons_ne_nil name rest (List.append_right_eq_self.mp heq)
    rw [OrdMap.get?_insert, if_neg hother]
    exact hbelow name rest
  · have hother : q ≠ selected := by
      rintro rfl
      exact hq (List.prefix_refl _)
    rw [OrdMap.get?_insert, if_neg hother]
    apply hkept
    intro t ht hunder
    rw [List.mem_singleton.mp ht] at hunder
    exact hq (under_iff.mp hunder).1

end

theorem Tells.more {stores : List (Store ρ)} {e : ContextEntry} {thing : Thing ρ}
    (h : Tells g stores e thing) (inner : Store ρ) :
    Tells g (stores ++ [inner]) e thing := by
  have hkept : ∀ {i : Nat} {s : Store ρ}, stores[i]? = some s → (stores ++ [inner])[i]? =
      some s := by
    intro i s hs
    rw [List.getElem?_append_left (List.getElem?_eq_some_iff.mp hs).1, hs]
  cases e with
  | directory => exact h
  | module i path oid =>
    obtain ⟨s, hs, heq⟩ := h
    exact ⟨s, hkept hs, heq⟩
  | file i executable oid =>
    obtain ⟨s, hs, heq⟩ := h
    exact ⟨s, hkept hs, heq⟩
  | symlink target => exact h

section
variable {P₀ : Place ρ} {c c' : CapturedContext ρ} {selected : EntryPath} {store : Nat}
    {path : EntryPath} {oid : ObjectId} {outer inner : Store ρ}

/-- The place in a module of the context. -/
theorem Shows.opened (h : Shows g P₀ c)
    (hget : c.entries.get? selected = some (.module store path oid))
    (houter : c.stores[store]? = some outer) (hinner : moduleStore g outer path oid = .ok inner) :
    placeAt g P₀ selected = some ⟨inner, [], inner.root⟩ := by
  obtain rfl | ⟨init, name, rfl⟩ := List.eq_nil_or_concat selected
  · exact absurd (OrdMap.mem_keys.mpr (by rw [hget]; rfl)) h.captured.root
  rw [List.concat_eq_append] at hget ⊢
  obtain ⟨P, thing, hP, hthing, s, hs, rfl⟩ := h.tells init name _ hget
  rw [houter, Option.some.injEq] at hs
  subst hs
  refine placeAt_snoc_eq_some.mpr ⟨P, _, hP, hthing, ?_⟩
  rw [Thing.enter, hinner]
  rfl

/-- A path is in the module, or the module is not above it. -/
theorem below_or_apart (selected q : EntryPath) :
    q = selected ∨ (∃ name rest, q = selected ++ name :: rest) ∨ ¬ selected <+: q := by
  by_cases hq : selected <+: q
  · by_cases heq : q = selected
    · exact .inl heq
    · exact .inr (.inl (under_iff.mpr ⟨hq, heq⟩))
  · exact .inr (.inr hq)

/-- **Expanding a module goes on showing the place.** -/
theorem Shows.expanded (h : Shows g P₀ c)
    (hget : c.entries.get? selected = some (.module store path oid))
    (houter : c.stores[store]? = some outer)
    (hexpanded : Expanded g c selected c' outer path oid inner) : Shows g P₀ c' := by
  have hplace := h.opened hget houter hexpanded.opened
  have hkey : selected ∈ c.entries.keys := OrdMap.mem_keys.mpr (by rw [hget]; rfl)
  have hne : selected ≠ [] := by
    rintro rfl
    exact h.captured.root hkey
  have hstore : c'.stores[c.stores.length]? = some inner := by rw [hexpanded.stores, store_last]
  have hinside : ∀ r, placeAt g P₀ (selected ++ r) = placeAt g ⟨inner, [], inner.root⟩ r := by
    intro r
    rw [placeAt_append, hplace]
    rfl
  -- what is above an entry that was kept was kept
  have hdirectory : ∀ q name, ¬ selected <+: q ++ [name] → q ≠ selected ∧ c'.entries.get? q =
      c.entries.get? q := by
    intro q name hnot
    have hnot' : ¬ selected <+: q := fun hpre => hnot (hpre.trans (List.prefix_append _ _))
    exact ⟨fun heq => hnot' (heq ▸ List.prefix_refl _), hexpanded.kept q hnot'⟩
  refine ⟨⟨fun hkey' => ?_, fun q hq => ?_, fun q name hq => ?_⟩, fun q name e he => ?_,
    fun q Q hdir hQ => ?_⟩
  · rw [OrdMap.mem_keys, hexpanded.kept [] fun hpre => hne (List.prefix_nil.mp hpre),
      ← OrdMap.mem_keys] at hkey'
    exact h.captured.root hkey'
  · obtain ⟨e, he⟩ := Option.isSome_iff_exists.mp (OrdMap.mem_keys.mp hq)
    obtain rfl | ⟨first, rest, rfl⟩ | hnot := below_or_apart selected q
    · exact h.captured.names q hkey
    · rw [hexpanded.below] at he
      intro part hpart
      obtain hpart | hpart := List.mem_append.mp hpart
      · exact h.captured.names selected hkey part hpart
      · exact scanned_names he part hpart
    · rw [hexpanded.kept q hnot] at he
      exact h.captured.names q (OrdMap.mem_keys.mpr (by rw [he]; rfl))
  · obtain ⟨e, he⟩ := Option.isSome_iff_exists.mp (OrdMap.mem_keys.mp hq)
    obtain heq | ⟨first, rest, heq⟩ | hnot := below_or_apart selected (q ++ [name])
    · -- the module itself was there
      refine (h.captured.parents q name (heq ▸ hkey)).imp_right fun hdir => ?_
      rw [hexpanded.kept q, hdir]
      intro hpre
      have hlength := hpre.length_le
      rw [← heq, List.length_append, List.length_singleton] at hlength
      exact absurd hlength (Nat.not_succ_le_self _)
    · right
      obtain hrest | ⟨init, last, hrest⟩ := List.eq_nil_or_concat rest
      · rw [hrest] at heq
        rw [(List.append_inj' heq rfl).1, hexpanded.here]
      · rw [hrest, List.concat_eq_append, ← List.cons_append, ← List.append_assoc] at heq
        obtain ⟨rfl, hlast⟩ := List.append_inj' heq rfl
        rw [hlast, List.append_assoc, List.cons_append, hexpanded.below, ← List.cons_append] at he
        rw [hexpanded.below]
        exact (scanned_parent he).resolve_left (List.cons_ne_nil _ _)
    · rw [hexpanded.kept _ hnot] at he
      rw [(hdirectory q name hnot).2]
      exact h.captured.parents q name (OrdMap.mem_keys.mpr (by rw [he]; rfl))
  · obtain heq | ⟨first, rest, heq⟩ | hnot := below_or_apart selected (q ++ [name])
    · rw [heq, hexpanded.here, Option.some.injEq] at he
      subst he
      rw [← heq] at hplace
      obtain ⟨P, thing, hP, hthing, henter⟩ := placeAt_snoc_eq_some.mp hplace
      exact ⟨P, thing, hP, hthing, _, henter⟩
    · obtain ⟨r, hr⟩ : ∃ r, q = selected ++ r ∧ first :: rest = r ++ [name] := by
        obtain hrest | ⟨init, last, hrest⟩ := List.eq_nil_or_concat rest
        · rw [hrest] at heq ⊢
          obtain ⟨rfl, hlast⟩ := List.append_inj' heq rfl
          exact ⟨[], (List.append_nil _).symm, by rw [hlast, List.nil_append]⟩
        · rw [hrest, List.concat_eq_append, ← List.cons_append, ← List.append_assoc] at heq
          obtain ⟨rfl, hlast⟩ := List.append_inj' heq rfl
          exact ⟨first :: init, rfl, by rw [hrest, List.concat_eq_append, hlast, List.cons_append]⟩
      rw [heq, hexpanded.below, hr.2] at he
      obtain ⟨Q, thing, hQ, hthing, htells⟩ :=
        @scanned_tells _ g _ ⟨inner, [], inner.root⟩ _ hstore _ _ _ he
      exact ⟨Q, thing, by rw [hr.1, hinside, hQ], hthing, htells⟩
    · rw [hexpanded.kept _ hnot] at he
      obtain ⟨P, thing, hP, hthing, htells⟩ := h.tells q name e he
      refine ⟨P, thing, hP, hthing, ?_⟩
      rw [hexpanded.stores]
      exact htells.more inner
  · obtain rfl | ⟨first, rest, rfl⟩ | hnot := below_or_apart selected q
    · rw [hplace, Option.some.injEq] at hQ
      subst hQ
      have hlisted := @scanned_listed _ g c.stores.length _ hexpanded.readable [] (.inl rfl) _ rfl
      exact ⟨hlisted.1, fun name thing hthing => by rw [hexpanded.below]; exact hlisted.2 name thing hthing⟩
    · have hget' := hdir.resolve_left (by simp)
      rw [hexpanded.below] at hget'
      rw [hinside] at hQ
      have hlisted := scanned_listed hexpanded.readable (.inr hget') hQ
      refine ⟨hlisted.1, fun name thing hthing => ?_⟩
      rw [List.append_assoc, List.cons_append, hexpanded.below]
      exact hlisted.2 name thing hthing
    · have hold : IsDirectory c.entries q :=
        hdir.imp_right fun hget' => (hexpanded.kept q hnot).symm.trans hget'
      obtain ⟨hread, hlisted⟩ := h.listed q Q hold hQ
      refine ⟨hread, fun name thing hthing => ?_⟩
      obtain ⟨e, he⟩ := hlisted name thing hthing
      obtain heq | ⟨first, rest, heq⟩ | hnot' := below_or_apart selected (q ++ [name])
      · exact ⟨.directory, by rw [heq, hexpanded.here]⟩
      · rw [heq] at he
        rw [h.captured.clear hne (by rw [hget]; exact fun hsame => by cases hsame)
          ⟨first, rest, rfl⟩] at he
        cases he
      · exact ⟨e, by rw [hexpanded.kept _ hnot', he]⟩

/-- **A module that opens is expanded.** -/
theorem expand_total (h : Shows g P₀ c) (hwhole : Whole g P₀) (selected : EntryPath) :
    ∃ k c', ∀ fuel, k ≤ fuel → c.expand g fuel selected = some (.ok c') := by
  by_cases hmodule : ∃ store path oid, c.entries.get? selected = some (.module store path oid)
  swap
  · refine ⟨0, c, fun fuel _ => expand_plain g fuel fun e he => ?_⟩
    cases e with
    | module store path oid => exact absurd ⟨store, path, oid, he⟩ hmodule
    | directory => rfl
    | file _ _ _ => rfl
    | symlink _ => rfl
  obtain ⟨store, path, oid, hget⟩ := hmodule
  obtain hnil | ⟨init, name, rfl⟩ := List.eq_nil_or_concat selected
  · rw [hnil] at hget
    exact absurd (OrdMap.mem_keys.mpr (by rw [hget]; rfl)) h.captured.root
  rw [List.concat_eq_append] at hget ⊢
  obtain ⟨P, thing, hP, hthing, outer, houter, rfl⟩ := h.tells init name _ hget
  obtain ⟨P', henter⟩ := (hwhole.inside hP).opens hthing rfl
  obtain ⟨inner, hinner, rfl⟩ := Option.map_eq_some_iff.mp henter
  have hopened : moduleStore g outer path oid = .ok inner := except_toOption_eq_some.mp hinner
  have hreadable := (hwhole.inside (h.opened hget houter hopened)).readable
  have hclear : ∀ q, Under (init ++ [name]) q → c.entries.get? q = none := fun q hq =>
    h.captured.clear (by simp) (by rw [hget]; exact fun heq => by cases heq) hq
  obtain ⟨k, m, hrun⟩ := @scanFrom_total _ g inner c.stores.length
    ⟨init ++ [name], [], inner.root⟩ c.entries hreadable hclear
  refine ⟨k, ⟨c.stores ++ [inner], m.insert (init ++ [name]) .directory⟩, fun fuel hfuel => ?_⟩
  rw [expand_module hget houter hopened, hrun fuel hfuel]
  rfl

theorem Shows.expand {fuel : Nat} (h : Shows g P₀ c)
    (hrun : c.expand g fuel selected = some (.ok c')) : Shows g P₀ c' := by
  obtain ⟨rfl, -⟩ | ⟨store, path, oid, outer, inner, hget, houter, hexpanded⟩ :=
    expand_eq_ok h.captured hrun
  · exact h
  · exact h.expanded hget houter hexpanded

end

/-! Expanding modules one after the other. -/

variable (g) in
/-- A module was expanded, or something that is none. -/
def Expands (c c' : CapturedContext ρ) : Prop :=
  ∃ fuel selected, c.expand g fuel selected = some (.ok c')

variable (g) in
/-- The contexts that a context becomes. -/
def Becomes : CapturedContext ρ → CapturedContext ρ → Prop := Relation.ReflTransGen (Expands g)

/-- What has become a directory stays one. -/
def Grown (entries entries' : Entries) : Prop := ∀ q, IsDirectory entries q → IsDirectory entries' q

section
variable {P₀ : Place ρ} {c c' : CapturedContext ρ}

theorem Expanded.grown {selected path : EntryPath} {store : Nat} {oid : ObjectId}
    {outer inner : Store ρ} (hcaptured : Captured c.entries)
    (hget : c.entries.get? selected = some (.module store path oid))
    (h : Expanded g c selected c' outer path oid inner) :
    Grown c.entries c'.entries := by
  intro q hq
  refine hq.imp_right fun hdir => ?_
  have hne : selected ≠ [] := by
    rintro rfl
    exact hcaptured.root (OrdMap.mem_keys.mpr (by rw [hget]; rfl))
  have hnot : ∀ s, s = c.entries.get? selected → s ≠ some .directory := fun s hs heq => by
    rw [hs, hget] at heq
    cases heq
  obtain rfl | hunder | hapart := below_or_apart selected q
  · exact absurd hdir (hnot _ rfl)
  · rw [hcaptured.clear hne (hnot _ rfl) hunder] at hdir
    cases hdir
  · rw [h.kept q hapart, hdir]

/-- **Whatever it becomes shows the place**, and more of it. -/
theorem Shows.becomes (h : Shows g P₀ c) (hrun : Becomes g c c') :
    Shows g P₀ c' ∧ Grown c.entries c'.entries := by
  induction hrun with
  | refl => exact ⟨h, fun q hq => hq⟩
  | tail _ hstep ih =>
    obtain ⟨hshows, hgrown⟩ := ih
    obtain ⟨fuel, selected, hexpand⟩ := hstep
    refine ⟨hshows.expand hexpand, fun q hq => ?_⟩
    obtain ⟨rfl, -⟩ | ⟨store, path, oid, outer, inner, hget, -, hexpanded⟩ :=
      expand_eq_ok hshows.captured hexpand
    · exact hgrown q hq
    · exact hexpanded.grown hshows.captured hget q (hgrown q hq)

/-- Below a place that opens all the way down there are only so many. -/
theorem Whole.finite {P : Place ρ} (h : Whole g P) :
    {path | (placeAt g P path).isSome = true}.Finite := by
  induction h with
  | @mk P hread hopens hbelow ih =>
    obtain ⟨entries, hentries, -⟩ := hread
    have hinside : ∀ entry : TreeEntry, {path | ((P.step g entry.filename).bind (Thing.enter g)).any
        (fun P' => (placeAt g P' path).isSome) = true}.Finite := by
      intro entry
      cases hthing : P.step g entry.filename with
      | none => simp
      | some thing =>
        rw [Option.bind_some]
        cases henter : thing.enter g with
        | none => simp
        | some P' => exact ih _ _ _ hthing henter
    refine Set.Finite.subset ((Set.finite_singleton []).union
      (Set.Finite.biUnion (List.finite_toSet entries)
      fun entry _ => (hinside entry).image (entry.filename :: ·))) ?_
    -- the root, and what is in an entry
    intro path hpath
    cases path with
    | nil => exact .inl rfl
    | cons name rest =>
      obtain ⟨P', hP'⟩ := Option.isSome_iff_exists.mp hpath
      rw [placeAt, List.foldlM_cons] at hP'
      obtain ⟨Q, hQ, hrest⟩ := Option.bind_eq_some_iff.mp hP'
      obtain ⟨thing, hthing, henter⟩ := Option.bind_eq_some_iff.mp hQ
      obtain ⟨entry, hentry, rfl, -⟩ := (Place.step_eq_some hentries).mp hthing
      refine .inr (Set.mem_biUnion hentry ⟨rest, ?_, rfl⟩)
      have hplace : placeAt g Q rest = some P' := hrest
      show Option.any _ ((P.step g entry.filename).bind (Thing.enter g)) = true
      rw [hQ, Option.any_some, hplace]
      rfl

/-- The places that are not shown yet. -/
def Unshown (g : Git ρ) (P₀ : Place ρ) (c : CapturedContext ρ) : Set EntryPath :=
  {path | (placeAt g P₀ path).isSome = true ∧ c.entries.get? path ≠ some .directory}

/-- **Each module that is expanded leaves fewer** to show. -/
theorem unshown_less (h : Shows g P₀ c) (hwhole : Whole g P₀) {selected : EntryPath}
    {e : ContextEntry} (hget : c.entries.get? selected = some e) (hmodule : e.isModule = true)
    {fuel : Nat} (hrun : c.expand g fuel selected = some (.ok c')) :
    (Unshown g P₀ c').ncard < (Unshown g P₀ c).ncard := by
  apply Set.ncard_lt_ncard _ (hwhole.finite.subset fun path hpath => hpath.1)
  obtain ⟨rfl, hplain⟩ | ⟨store, path, oid, outer, inner, hget', houter, hexpanded⟩ :=
    expand_eq_ok h.captured hrun
  · rw [hplain e hget] at hmodule
    cases hmodule
  have hgrown := hexpanded.grown h.captured hget'
  refine ⟨fun q hq => ⟨hq.1, fun hdir => ?_⟩, fun hsub => ?_⟩
  · obtain rfl | hdir' := hgrown q (.inr hdir)
    · exact h.captured.root (OrdMap.mem_keys.mpr (by rw [hdir]; rfl))
    · exact hq.2 hdir'
  · have hplace := h.opened hget' houter hexpanded.opened
    have hmem : selected ∈ Unshown g P₀ c := by
      refine ⟨by rw [hplace]; rfl, ?_⟩
      rw [hget']
      exact fun heq => by cases heq
    exact (hsub hmem).2 hexpanded.here

/-- **All modules can be expanded**, one after the other. -/
theorem Shows.completes (h : Shows g P₀ c) (hwhole : Whole g P₀) :
    ∃ full, Becomes g c full ∧ Complete full.entries := by
  induction hleft : (Unshown g P₀ c).ncard using Nat.strong_induction_on generalizing c with
  | _ left ih =>
    by_cases hcomplete : Complete c.entries
    · exact ⟨c, .refl, hcomplete⟩
    · rw [Complete] at hcomplete
      push Not at hcomplete
      obtain ⟨selected, e, hget, hmodule⟩ := hcomplete
      obtain ⟨k, next, hrun⟩ := expand_total h hwhole selected
      have hnext := hrun k (le_refl k)
      have hless := unshown_less h hwhole hget (Bool.eq_true_of_not_eq_false hmodule) hnext
      obtain ⟨full, hbecomes, hfull⟩ := ih _ (hleft ▸ hless) (h.expand hnext) rfl
      exact ⟨full, .head ⟨k, selected, hnext⟩ hbecomes, hfull⟩

end

end

end Conglobate.Context
