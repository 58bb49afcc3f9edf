import Conglobate.Context.Expand

/- Capturing a directory and capturing its repository (`CapturedContext::capture`,
   `context/mod.rs`).

   The context's directory is selected in the objects, with a stack of the directories
   above, before anything is captured. The walk is the one that a path is resolved with in
   the captured repository, once all of that is expanded: each stands at the same place,
   and dots of a link's end are no difference to directories.

   What is proved:
     1. `selectFrom_same` — the two walks end alike;
     2. `capture_shows` — what is captured shows the place selected;
     3. `capture_agrees` — so capturing a directory gives what capturing the repository has
        below it. -/
namespace Conglobate.Context

open Copy

section
variable {ρ : Type} {g : Git ρ}

/-! Where the selection stands. -/

/-- The place that an object in a store is. -/
def placeOf (stores : List (Store ρ)) (t : Nat × ObjectId × EntryPath) : Option (Place ρ) :=
  stores[t.1]?.map fun s => ⟨s, t.2.2, t.2.1⟩

variable (g) in
/-- The way back up: the stack has the places above. -/
inductive Climbs (P₀ : Place ρ) (stores : List (Store ρ)) :
    EntryPath → Nat × ObjectId × EntryPath → List (Nat × ObjectId × EntryPath) → Prop where
  | top {t : Nat × ObjectId × EntryPath} : placeOf stores t = some P₀ → Climbs P₀ stores [] t []
  | into {here : EntryPath} {name : Bytes} {t p : Nat × ObjectId × EntryPath}
      {above : List (Nat × ObjectId × EntryPath)} {P : Place ρ} : Climbs P₀ stores here p above →
      placeAt g P₀ (here ++ [name]) = some P → placeOf stores t = some P →
      Climbs P₀ stores (here ++ [name]) t (p :: above)

/-- The object selected so far. -/
def Selection.current (w : Selection ρ) : Nat × ObjectId × EntryPath :=
  (w.store, w.subtree, w.repositoryPath)

variable (g) in
/-- The selection stands at a path of the repository, and nothing is captured. -/
structure StandsAt (P₀ : Place ρ) (w : Selection ρ) (here : EntryPath) : Prop where
  climbs : Climbs g P₀ w.context.stores here w.current w.parents
  empty : w.context.entries = OrdMap.empty

theorem placeOf_more {stores : List (Store ρ)} {t : Nat × ObjectId × EntryPath} {P : Place ρ}
    (h : placeOf stores t = some P) (inner : Store ρ) : placeOf (stores ++ [inner]) t = some P := by
  obtain ⟨s, hs, rfl⟩ := Option.map_eq_some_iff.mp h
  rw [placeOf, List.getElem?_append_left (List.getElem?_eq_some_iff.mp hs).1, hs]
  rfl

theorem Climbs.more {P₀ : Place ρ} {stores : List (Store ρ)} {here : EntryPath}
    {t : Nat × ObjectId × EntryPath} {above : List (Nat × ObjectId × EntryPath)}
    (h : Climbs g P₀ stores here t above) (inner : Store ρ) :
    Climbs g P₀ (stores ++ [inner]) here t above := by
  induction h with
  | top ht => exact .top (placeOf_more ht inner)
  | into _ hP ht ih => exact .into ih hP (placeOf_more ht inner)

theorem Climbs.place {P₀ : Place ρ} {stores : List (Store ρ)} {here : EntryPath}
    {t : Nat × ObjectId × EntryPath} {above : List (Nat × ObjectId × EntryPath)}
    (h : Climbs g P₀ stores here t above) :
    ∃ P, placeAt g P₀ here = some P ∧ placeOf stores t = some P := by
  cases h with
  | top ht => exact ⟨P₀, rfl, ht⟩
  | into _ hP ht => exact ⟨_, hP, ht⟩

/-! Dots. -/

/-- Names without the dots among them. -/
def undotted (pending : List Bytes) : List Bytes := pending.filter fun part => part ≠ dotName

theorem undotted_cons {part : Bytes} {pending : List Bytes} (h : part ≠ dotName) :
    undotted (part :: pending) = part :: undotted pending :=
  List.filter_cons_of_pos (decide_eq_true h)

theorem undotted_dot (pending : List Bytes) : undotted (dotName :: pending) = undotted pending :=
  List.filter_cons_of_neg (by simp)

theorem undotted_append (a b : List Bytes) : undotted (a ++ b) = undotted a ++ undotted b :=
  List.filter_append ..

theorem undotted_linkParts (target : Bytes) :
    undotted (linkParts target) = undotted (pathParts target) := by
  rw [linkParts, undotted_append]
  split
  · rw [undotted_dot]
    exact List.append_nil _
  · exact List.append_nil _

/-- Dots are passed over. -/
theorem selectFrom_skip {pending rest : List Bytes} {part : Bytes}
    (h : undotted pending = part :: undotted rest) :
    ∃ rest', undotted rest' = undotted rest ∧ ∀ followed (w : Selection ρ),
      selectFrom g followed w pending = selectFrom g followed w (part :: rest') := by
  induction pending with
  | nil => cases h
  | cons first more ih =>
    by_cases hdot : first = dotName
    · rw [hdot, undotted_dot] at h
      obtain ⟨rest', hrest, hsame⟩ := ih h
      refine ⟨rest', hrest, fun followed w => ?_⟩
      rw [hdot, selectFrom, if_pos rfl, hsame]
    · rw [undotted_cons hdot] at h
      obtain ⟨rfl, hmore⟩ := List.cons.inj h
      exact ⟨more, hmore, fun followed w => rfl⟩

theorem selectFrom_dots {pending : List Bytes} (h : undotted pending = []) (followed : Nat)
    (w : Selection ρ) :
    selectFrom g followed w pending = .ok w := by
  induction pending with
  | nil => rw [selectFrom]
  | cons first more ih =>
    by_cases hdot : first = dotName
    · rw [hdot, undotted_dot] at h
      rw [hdot, selectFrom, if_pos rfl, ih h]
    · rw [undotted_cons hdot] at h
      cases h

/-! One name. -/

section
variable {P₀ : Place ρ} {full : CapturedContext ρ}

/-- What a complete context has for a name is what the place has. -/
theorem Shows.entry_eq (h : Shows g P₀ full) (hcomplete : Complete full.entries) {here : EntryPath}
    {P : Place ρ} (hP : placeAt g P₀ here = some P) (name : Bytes) :
    (full.entries.get? (here ++ [name])).map unnumbered = (P.step g name).map Thing.shown := by
  rw [h.complete hcomplete, hP]
  rfl

theorem Selection.entry_eq {w : Selection ρ} {P : Place ρ}
    (hplace : placeOf w.context.stores w.current = some P) (hread : P.Read g) (name : Bytes) :
    (P.entry g name = none ∧ ∃ e, w.entry g name = .error e) ∨
      ∃ entry, P.entry g name = some entry ∧ w.entry g name = .ok entry ∧ entry.filename = name ∧
        ∃ thing, P.thing g entry = some thing := by
  obtain ⟨s, hs, rfl⟩ := Option.map_eq_some_iff.mp hplace
  obtain ⟨entries, hentries, hsome⟩ := hread
  have hstore : w.context.store w.store = .ok s := by
    have hindex : w.context.stores[w.store]? = some s := hs
    rw [CapturedContext.store, hindex]
  have hread : readTree g s.reader w.subtree = .ok entries := hentries
  rw [Place.entry, Selection.entry, hstore, except_ok_bind, hread, except_ok_bind, hentries]
  dsimp only
  cases hfind : entries.find? fun entry => entry.filename = name with
  | none => exact .inl ⟨rfl, _, rfl⟩
  | some entry =>
    have hname := List.find?_some hfind
    have hthing := hsome entry (List.mem_of_find?_eq_some hfind)
    exact .inr ⟨entry, rfl, rfl, of_decide_eq_true hname, Option.isSome_iff_exists.mp hthing⟩

end

theorem Place.thing_symlink {P : Place ρ} {entry : TreeEntry} {target : Bytes}
    (h : P.thing g entry = some (.symlink target)) :
    entry.kind = .link ∧ readLink g P.store.reader entry.oid = .ok target := by
  rw [Place.thing] at h
  split at h
  · cases h
  · cases h
  · rename_i hkind
    obtain ⟨target', hread, heq⟩ := Option.map_eq_some_iff.mp h
    cases heq
    exact ⟨hkind, except_toOption_eq_some.mp hread⟩
  · cases h
  · cases h

theorem Place.thing_module {P : Place ρ} {entry : TreeEntry} {outer : Store ρ} {path : EntryPath}
    {oid : ObjectId} (h : P.thing g entry = some (.module outer path oid)) :
    entry.kind = .commit ∧ outer = P.store ∧ path = P.path ++ [entry.filename] ∧
      oid = entry.oid := by
  rw [Place.thing] at h
  split at h
  · cases h
  · rename_i hkind
    cases h
    exact ⟨hkind, rfl, rfl, rfl⟩
  · obtain ⟨_, -, heq⟩ := Option.map_eq_some_iff.mp h
    cases heq
  · cases h
  · cases h

theorem Place.thing_file {P : Place ρ} {entry : TreeEntry} {store : Store ρ} {executable : Bool}
    {oid : ObjectId} (h : P.thing g entry = some (.file store executable oid)) :
    entry.kind = .blob ∨ entry.kind = .blobExecutable := by
  rw [Place.thing] at h
  split at h
  · cases h
  · cases h
  · obtain ⟨_, -, heq⟩ := Option.map_eq_some_iff.mp h
    cases heq
  · rename_i hkind
    exact .inl hkind
  · rename_i hkind
    exact .inr hkind

section
variable {P₀ : Place ρ} {w : Selection ρ} {here : EntryPath} {name : Bytes} {P : Place ρ}

/-- A tree is entered. -/
theorem StandsAt.enter (h : StandsAt g P₀ w here) (hP : placeAt g P₀ here = some P)
    (hplace : placeOf w.context.stores w.current = some P) {entry : TreeEntry} {P' : Place ρ}
    (hname : entry.filename = name) (hstep : P.step g name = some (.directory P'))
    (hthing : P.thing g entry = some (.directory P')) :
    StandsAt g P₀ (w.enter name entry.oid) (here ++ [name]) where
  climbs := by
    refine .into h.climbs (placeAt_snoc_eq_some.mpr ⟨P, _, hP, hstep, rfl⟩) ?_
    obtain ⟨s, hs, rfl⟩ := Option.map_eq_some_iff.mp hplace
    obtain ⟨-, rfl⟩ := Place.thing_directory hthing
    have hindex : w.context.stores[w.store]? = some s := hs
    show w.context.stores[w.store]?.map _ = _
    rw [hindex, hname]
    rfl
  empty := h.empty

/-- So is a module, in a store that is opened for it. -/
theorem StandsAt.enterModule (h : StandsAt g P₀ w here) (hP : placeAt g P₀ here = some P)
    (hplace : placeOf w.context.stores w.current = some P) {oid : ObjectId} {P' : Place ρ}
    (hstep : P.step g name = some (.module P.store (P.path ++ [name]) oid))
    (henter : (Thing.module P.store (P.path ++ [name]) oid).enter g = some P') :
    ∃ inside, w.enterModule g name oid = .ok inside ∧ StandsAt g P₀ inside (here ++ [name]) := by
  obtain ⟨inner, hinner, rfl⟩ := Option.map_eq_some_iff.mp henter
  obtain ⟨s, hs, rfl⟩ := Option.map_eq_some_iff.mp hplace
  have hopened : w.context.openModule g w.store (w.repositoryPath ++ [name]) oid =
      .ok (w.context.stores.length, { w.context with stores := w.context.stores ++ [inner] }) :=
    openModule_eq_ok.mpr ⟨s, inner, hs, except_toOption_eq_some.mp hinner, rfl⟩
  have hlast : CapturedContext.store
      ({ w.context with stores := w.context.stores ++ [inner] } : CapturedContext ρ)
      w.context.stores.length = .ok inner := by
    rw [CapturedContext.store, store_last]
  refine ⟨⟨{ w.context with stores := w.context.stores ++ [inner] }, w.context.stores.length,
    inner.root, [], w.current :: w.parents⟩,
    ?_, ⟨.into (h.climbs.more inner) (placeAt_snoc_eq_some.mpr ⟨_, _, hP, hstep, henter⟩) ?_,
      h.empty⟩⟩
  · rw [Selection.enterModule, hopened, except_ok_bind]
    dsimp only
    rw [hlast, except_ok_bind]
    rfl
  · show (w.context.stores ++ [inner])[w.context.stores.length]?.map _ = _
    rw [store_last]
    rfl

/-- A link that is followed goes on from the same place. -/
theorem Selection.link_eq (hplace : placeOf w.context.stores w.current = some P) {oid : ObjectId}
    {target : Bytes} (hread : readLink g P.store.reader oid = .ok target) (followed : Nat) :
    w.link g followed oid = if 40 < followed + 1 then .error (.invalid "too many context symlinks")
      else if isAbsolute target then
        .error (.invalid "absolute context symlink")
      else
        .ok (pathParts target) := by
  obtain ⟨s, hs, rfl⟩ := Option.map_eq_some_iff.mp hplace
  have hstore : w.context.store w.store = .ok s := by
    have hindex : w.context.stores[w.store]? = some s := hs
    rw [CapturedContext.store, hindex]
  have hread' : readLink g s.reader oid = .ok target := hread
  rw [Selection.link, hstore, except_ok_bind, hread', except_ok_bind]

end

/-! The walks. -/

/-- They end alike: both in a directory, the same, or neither in any. -/
def SameSelection (g : Git ρ) (P₀ : Place ρ) (entries : Entries)
    (r : Except SelectionError EntryPath) (s : Except ContextError (Selection ρ)) : Prop :=
  (∃ d w, r = .ok d ∧ IsDirectory entries d ∧ s = .ok w ∧ StandsAt g P₀ w d) ∨
    (∀ d, r = .ok d → ¬ IsDirectory entries d) ∧ ∃ e, s = .error e

section
variable {P₀ : Place ρ} {full : CapturedContext ρ} {w : Selection ρ} {here : EntryPath}
    {part : Bytes}

theorem SameSelection.error {e : SelectionError} {e' : ContextError} :
    SameSelection g P₀ full.entries (.error e) (.error e') :=
      .inr ⟨fun d h => (by cases h), e', rfl⟩

/-! One name of the walks. -/

/-- What a name is in the directory selected, for both. -/
theorem Shows.named (h : Shows g P₀ full) (hcomplete : Complete full.entries)
    (hstands : StandsAt g P₀ w here) (name : Bytes) :
    ∃ P, placeAt g P₀ here = some P ∧ placeOf w.context.stores w.current = some P ∧
      ((full.entries.get? (here ++ [name]) = none ∧ ∃ e, w.entry g name = .error e) ∨
        ∃ entry thing e, w.entry g name = .ok entry ∧ entry.filename = name ∧
          P.step g name = some thing ∧
          P.thing g entry = some thing ∧ full.entries.get? (here ++ [name]) = some e ∧
            unnumbered e = thing.shown) := by
  obtain ⟨P, hP, hplace⟩ := hstands.climbs.place
  refine ⟨P, hP, hplace, ?_⟩
  have hsame := h.entry_eq hcomplete hP name
  obtain ⟨hnone, herror⟩ | ⟨entry, hentry, hok, hfilename, thing, hthing⟩ :=
    Selection.entry_eq hplace ((h.whole hcomplete).inside hP).read name
  · rw [Place.step, hnone, Option.bind_none, Option.map_none] at hsame
    exact .inl ⟨Option.map_eq_none_iff.mp hsame, herror⟩
  · have hstep : P.step g name = some thing := by rw [Place.step, hentry, Option.bind_some, hthing]
    rw [hstep] at hsame
    obtain ⟨e, he, hshown⟩ := Option.map_eq_some_iff.mp hsame
    exact .inr ⟨entry, thing, e, hok, hfilename, hstep, hthing, he, hshown⟩

/-- A link is one for both, and is read the same. -/
theorem Shows.link (h : Shows g P₀ full) (hcomplete : Complete full.entries)
    (hstands : StandsAt g P₀ w here) {target : Bytes}
    (hget : full.entries.get? (here ++ [part]) = some (.symlink target)) :
    ∃ entry, w.entry g part = .ok entry ∧ entry.kind = .link ∧
      ∀ followed, w.link g followed entry.oid =
      if 40 < followed + 1 then .error (.invalid "too many context symlinks")
      else if isAbsolute target then
        .error (.invalid "absolute context symlink")
      else
        .ok (pathParts target) := by
  obtain ⟨P, -, hplace, ⟨hnone, -⟩ | ⟨entry, thing, e, hentry, -, -, hthing, he, hshown⟩⟩ :=
    h.named hcomplete hstands part
  · rw [hget] at hnone
    cases hnone
  rw [hget, Option.some.injEq] at he
  subst he
  obtain rfl : thing = .symlink target := by
    cases thing with
    | symlink _ => cases hshown; rfl
    | directory _ => cases hshown
    | module _ _ _ => cases hshown
    | file _ _ _ => cases hshown
  obtain ⟨hkind, hread⟩ := Place.thing_symlink hthing
  exact ⟨entry, hentry, hkind, Selection.link_eq hplace hread⟩

variable {links : Nat} {rest : List Bytes}

/-- What is not there is none to select. -/
theorem Shows.missing (h : Shows g P₀ full) (hcomplete : Complete full.entries)
    (hstands : StandsAt g P₀ w here) (hdot : part ≠ dotName) (hdotdot : part ≠ dotdotName)
    (hget : full.entries.get? (here ++ [part]) = none) :
    ∃ e, selectFrom g links w (part :: rest) = .error e := by
  rw [selectFrom, if_neg hdot, if_neg hdotdot]
  obtain ⟨P, -, -, ⟨-, e, herror⟩ | ⟨entry, thing, e, -, -, -, -, he, -⟩⟩ :=
    h.named hcomplete hstands part
  · rw [herror]
    exact ⟨e, rfl⟩
  · rw [hget] at he
    cases he

/-- Nor is a file. -/
theorem Shows.file (h : Shows g P₀ full) (hcomplete : Complete full.entries)
    (hstands : StandsAt g P₀ w here) (hdot : part ≠ dotName) (hdotdot : part ≠ dotdotName)
    {store : Nat} {executable : Bool} {oid : ObjectId}
    (hget : full.entries.get? (here ++ [part]) = some (.file store executable oid)) :
    ∃ e, selectFrom g links w (part :: rest) = .error e := by
  obtain ⟨P, -, -, ⟨hnone, -⟩ | ⟨entry, thing, e, hentry, -, -, hthing, he, hshown⟩⟩ :=
    h.named hcomplete hstands part
  · rw [hget] at hnone
    cases hnone
  rw [hget, Option.some.injEq] at he
  subst he
  rw [selectFrom, if_neg hdot, if_neg hdotdot, hentry]
  dsimp only
  cases thing with
  | file _ _ _ =>
    obtain hkind | hkind := Place.thing_file hthing
    · rw [hkind]
      exact ⟨_, rfl⟩
    · rw [hkind]
      exact ⟨_, rfl⟩
  | symlink _ => cases hshown
  | directory _ => cases hshown
  | module _ _ _ => cases hshown

/-- A directory is entered, a module in a store of its own. -/
theorem Shows.directory (h : Shows g P₀ full) (hcomplete : Complete full.entries)
    (hstands : StandsAt g P₀ w here) (hdot : part ≠ dotName) (hdotdot : part ≠ dotdotName)
    (hget : full.entries.get? (here ++ [part]) = some .directory) :
    ∃ inside, selectFrom g links w (part :: rest) = selectFrom g links inside rest ∧
      StandsAt g P₀ inside (here ++ [part]) := by
  obtain ⟨P, hP, hplace, ⟨hnone, -⟩ | ⟨entry, thing, e, hentry, rfl, hstep, hthing, he, hshown⟩⟩ :=
    h.named hcomplete hstands part
  · rw [hget] at hnone
    cases hnone
  rw [hget, Option.some.injEq] at he
  subst he
  rw [selectFrom, if_neg hdot, if_neg hdotdot, hentry]
  dsimp only
  cases thing with
  | directory P' =>
    rw [(Place.thing_directory hthing).1]
    exact ⟨_, rfl, hstands.enter hP hplace rfl hstep hthing⟩
  | module outer path oid =>
    obtain ⟨hkind, rfl, rfl, rfl⟩ := Place.thing_module hthing
    obtain ⟨P', henter⟩ := ((h.whole hcomplete).inside hP).opens hstep rfl
    obtain ⟨inside, hinside, hnext⟩ := hstands.enterModule hP hplace hstep henter
    rw [hkind]
    dsimp only
    rw [hinside]
    exact ⟨inside, rfl, hnext⟩
  | file _ _ _ => cases hshown
  | symlink _ => cases hshown

/-- A link too many, or an absolute one, ends the walk. -/
theorem Shows.refused (h : Shows g P₀ full) (hcomplete : Complete full.entries)
    (hstands : StandsAt g P₀ w here) (hdot : part ≠ dotName) (hdotdot : part ≠ dotdotName)
    {target : Bytes} (hget : full.entries.get? (here ++ [part]) = some (.symlink target))
    (hrefused : 40 < links + 1 ∨ isAbsolute target) :
    ∃ e, selectFrom g links w (part :: rest) = .error e := by
  obtain ⟨entry, hentry, hkind, hlink⟩ := h.link hcomplete hstands hget
  have herror : ∃ e, w.link g links entry.oid = .error e := by
    by_cases hmany : 40 < links + 1
    · exact ⟨_, (hlink links).trans (if_pos hmany)⟩
    · refine ⟨_, ((hlink links).trans (if_neg hmany)).trans (if_pos ?_)⟩
      exact hrefused.resolve_left hmany
  obtain ⟨e, herror⟩ := herror
  rw [selectFrom, if_neg hdot, if_neg hdotdot, hentry]
  dsimp only
  rw [hkind]
  dsimp only
  split
  · exact ⟨_, rfl⟩
  · rename_i hok
    rw [herror] at hok
    cases hok

/-- Another one goes on with its names. -/
theorem Shows.followed (h : Shows g P₀ full) (hcomplete : Complete full.entries)
    (hstands : StandsAt g P₀ w here) (hdot : part ≠ dotName) (hdotdot : part ≠ dotdotName)
    {target : Bytes} (hget : full.entries.get? (here ++ [part]) = some (.symlink target))
    (hfollow : ¬ (40 < links + 1 ∨ isAbsolute target)) :
    selectFrom g links w (part :: rest) = selectFrom g (links + 1) w
      (pathParts target ++ rest) := by
  obtain ⟨entry, hentry, hkind, hlink⟩ := h.link hcomplete hstands hget
  obtain ⟨hfew, hrelative⟩ := not_or.mp hfollow
  have hlink := hlink links
  rw [if_neg hfew, if_neg hrelative] at hlink
  rw [selectFrom, if_neg hdot, if_neg hdotdot, hentry]
  dsimp only
  rw [hkind]
  dsimp only
  split
  · rename_i herror
    rw [hlink] at herror
    cases herror
  · rename_i parts hok
    rw [hlink] at hok
    cases hok
    rfl

/-- Above the first directory there is none. -/
theorem StandsAt.outermost (h : StandsAt g P₀ w []) :
    ∃ e, selectFrom g links w (dotdotName :: rest) = .error e := by
  rw [selectFrom, if_neg (by decide), if_pos rfl]
  obtain ⟨⟨stores, entries⟩, store, subtree, path, parents⟩ := w
  obtain ⟨hclimbs, -⟩ := h
  generalize hhere : ([] : EntryPath) = top at hclimbs
  cases hclimbs with
  | top _ => exact ⟨_, rfl⟩
  | into _ _ _ => exact absurd hhere.symm (by simp)

/-- Above another one there is its parent. -/
theorem StandsAt.leave (h : StandsAt g P₀ w here) (hne : here ≠ []) :
    ∃ outside, selectFrom g links w (dotdotName :: rest) = selectFrom g links outside rest ∧
      StandsAt g P₀ outside here.dropLast := by
  rw [selectFrom, if_neg (by decide), if_pos rfl]
  obtain ⟨⟨stores, entries⟩, store, subtree, path, parents⟩ := w
  obtain ⟨hclimbs, hempty⟩ := h
  cases hclimbs with
  | top _ => exact absurd rfl hne
  | into hclimbs _ _ =>
    rw [List.dropLast_concat]
    exact ⟨_, rfl, hclimbs, hempty⟩

/-- **The two walks are one** where all that can be read and opened was. -/
theorem selectFrom_same (h : Shows g P₀ full) (hcomplete : Complete full.entries)
    (label : EntryPath) (links : Nat) (here : EntryPath) (pending : List Bytes) {w : Selection ρ}
    {names : List Bytes} (hnames : undotted names = undotted pending)
    (hstands : StandsAt g P₀ w here) (hdir : IsDirectory full.entries here) :
    SameSelection g P₀ full.entries (resolveFrom full.entries label links here pending)
      (selectFrom g links w names) := by
  fun_induction resolveFrom full.entries label links here pending generalizing w names with
  | case1 links here =>
    rw [selectFrom_dots hnames]
    exact .inl ⟨here, w, rfl, hdir, rfl, hstands⟩
  | case2 links here pending ih => exact ih (hnames.trans (undotted_dot pending)) hstands hdir
  | case3 links pending hdot =>
    obtain ⟨rest, -, hskip⟩ := selectFrom_skip (hnames.trans (undotted_cons hdot))
    obtain ⟨e, herror⟩ := hstands.outermost
    rw [hskip, herror]
    exact .error
  | case4 links here pending hne hdot ih =>
    obtain ⟨rest, hrest, hskip⟩ := selectFrom_skip (hnames.trans (undotted_cons hdot))
    obtain ⟨outside, hleave, hnext⟩ := hstands.leave hne
    rw [hskip, hleave]
    apply ih hrest hnext
    -- above a directory there is one
    refine h.captured.parents here.dropLast (here.getLast hne) ?_
    rw [List.dropLast_append_getLast, OrdMap.mem_keys, hdir.resolve_left hne]
    rfl
  | case5 links here part pending hdot hdotdot hget =>
    obtain ⟨rest, -, hskip⟩ := selectFrom_skip (hnames.trans (undotted_cons hdot))
    obtain ⟨e, herror⟩ := h.missing hcomplete hstands hdot hdotdot hget
    rw [hskip, herror]
    exact .error
  | case6 links here part pending hdot hdotdot store place oid hget =>
    have hmodule := hcomplete _ _ hget
    cases hmodule
  | case7 links here part pending hdot hdotdot target hget hrefused =>
    obtain ⟨rest, -, hskip⟩ := selectFrom_skip (hnames.trans (undotted_cons hdot))
    obtain ⟨e, herror⟩ := h.refused hcomplete hstands hdot hdotdot hget hrefused
    rw [hskip, herror]
    exact .error
  | case8 links here part pending hdot hdotdot target hget hfollow ih =>
    obtain ⟨rest, hrest, hskip⟩ := selectFrom_skip (hnames.trans (undotted_cons hdot))
    rw [hskip, h.followed hcomplete hstands hdot hdotdot hget hfollow]
    apply ih _ hstands hdir
    rw [undotted_append, undotted_append, undotted_linkParts, hrest]
  | case9 links here part pending hdot hdotdot store executable oid hget hmore =>
    obtain ⟨rest, -, hskip⟩ := selectFrom_skip (hnames.trans (undotted_cons hdot))
    obtain ⟨e, herror⟩ := h.file hcomplete hstands hdot hdotdot hget
    rw [hskip, herror]
    exact .error
  | case10 links here part pending hdot hdotdot store executable oid hget hmore =>
    obtain ⟨rest, -, hskip⟩ := selectFrom_skip (hnames.trans (undotted_cons hdot))
    obtain ⟨e, herror⟩ := h.file hcomplete hstands hdot hdotdot hget
    rw [hskip, herror, not_not.mp hmore, resolveFrom]
    -- what it resolves to is no directory
    refine .inr ⟨fun d hd => ?_, e, rfl⟩
    cases hd
    refine fun hdir => hdir.elim (by simp) fun hdirectory => ?_
    rw [hget] at hdirectory
    cases hdirectory
  | case11 links here part pending hdot hdotdot hget ih =>
    obtain ⟨rest, hrest, hskip⟩ := selectFrom_skip (hnames.trans (undotted_cons hdot))
    obtain ⟨inside, hinside, hnext⟩ := h.directory hcomplete hstands hdot hdotdot hget
    rw [hskip, hinside]
    exact ih hrest hnext (.inr hget)

end

/-! Capturing. -/

section
variable {repository context : Bytes} {commit : ObjectId} {fuel : Nat}

/-- The place that a commit's tree is, in the first store. -/
def rootPlace (reader : ρ) (root : ObjectId) : Place ρ := ⟨⟨reader, root, 0⟩, [], root⟩

theorem captureStart_stands {start : Selection ρ}
    (h : captureStart g repository commit = .ok start) :
    ∃ P₀, StandsAt g P₀ start [] := by
  obtain ⟨reader, -, h⟩ := except_bind_eq_ok.mp h
  split at h
  · cases h
  obtain ⟨root, -, h⟩ := except_bind_eq_ok.mp h
  cases h
  exact ⟨rootPlace reader root, .top rfl, rfl⟩

/-- Nothing is captured before the directory is selected. -/
theorem scan_eq {w : Selection ρ} (hempty : w.context.entries = OrdMap.empty) {P : Place ρ}
    (hplace : placeOf w.context.stores w.current = some P) (fuel : Nat) :
    w.context.scan g fuel w.store [] w.repositoryPath w.subtree =
      (scanFrom g P.store.reader w.store fuel [⟨[], P.path, P.oid⟩] OrdMap.empty).map
        (Except.map fun entries => { w.context with entries := entries }) := by
  obtain ⟨s, hs, rfl⟩ := Option.map_eq_some_iff.mp hplace
  have hstore : w.context.store w.store = .ok s := by
    have hindex : w.context.stores[w.store]? = some s := hs
    rw [CapturedContext.store, hindex]
  rw [CapturedContext.scan, hstore]
  dsimp only
  rw [hempty]
  rfl

theorem ready_empty (t : Unread) : Ready [t] OrdMap.empty :=
  ⟨fun _ _ q _ => OrdMap.get?_empty q, List.pairwise_singleton _ t⟩

/-- **What is captured shows the place selected.** -/
theorem scan_shows {w : Selection ρ} (hempty : w.context.entries = OrdMap.empty) {P : Place ρ}
    (hplace : placeOf w.context.stores w.current = some P) {c : CapturedContext ρ}
    (hscan : w.context.scan g fuel w.store [] w.repositoryPath w.subtree = some (.ok c)) :
    Shows g P c := by
  rw [scan_eq hempty hplace] at hscan
  obtain ⟨r, hrun, hr⟩ := Option.map_eq_some_iff.mp hscan
  cases r with
  | error e => cases hr
  | ok m =>
    cases hr
    obtain ⟨hholds, hkept⟩ := @scanFrom_ok _ g P.store _ _ _ _ _ (ready_empty _) hrun
    obtain ⟨hreadable, hbelow⟩ := hholds _ (List.mem_singleton_self _)
    obtain ⟨s, hs, heq⟩ := Option.map_eq_some_iff.mp hplace
    refine Shows.of_scan (i := w.store) ?_ hreadable fun path => ?_
    · have hindex : w.context.stores[w.store]? = some s := hs
      rw [← heq]
      exact hindex
    · cases path with
      | nil =>
        rw [hkept []]
        · rfl
        · intro t ht hunder
          rw [List.mem_singleton.mp ht] at hunder
          exact (under_iff.mp hunder).2 rfl
      | cons name rest => exact hbelow name rest

theorem scan_total {w : Selection ρ} (hempty : w.context.entries = OrdMap.empty) {P : Place ρ}
    (hplace : placeOf w.context.stores w.current = some P) (hread : Readable g P) :
    ∃ k c, ∀ fuel, k ≤ fuel → w.context.scan g fuel w.store [] w.repositoryPath w.subtree =
      some (.ok c) := by
  obtain ⟨k, m, hrun⟩ := @scanFrom_total _ g P.store w.store ⟨[], P.path, P.oid⟩ OrdMap.empty hread
    (fun q _ => OrdMap.get?_empty q)
  refine ⟨k, { w.context with entries := m }, fun fuel hfuel => ?_⟩
  rw [scan_eq hempty hplace, hrun fuel hfuel]
  rfl

theorem capture_eq_ok {c : CapturedContext ρ} :
    capture g fuel repository commit context = some (.ok c) ↔
    ∃ start w, captureStart g repository commit = .ok start ∧
      selectFrom g 0 start (pathIter context) = .ok w ∧
      w.context.scan g fuel w.store [] w.repositoryPath w.subtree = some (.ok c) := by
  rw [capture]
  cases hselect : captureStart g repository commit >>= fun start => selectFrom g 0 start
      (pathIter context) with
  | error e =>
    refine iff_of_false (fun h => by cases h) (fun h => ?_)
    obtain ⟨start, w, hstart, hw, -⟩ := h
    rw [hstart, except_ok_bind, hw] at hselect
    cases hselect
  | ok w =>
    obtain ⟨start, hstart, hw⟩ := except_bind_eq_ok.mp hselect
    constructor
    · exact fun h => ⟨start, w, hstart, hw, h⟩
    · intro h
      obtain ⟨start', w', hstart', hw', h⟩ := h
      rw [hstart, Except.ok.injEq] at hstart'
      subst hstart'
      rw [hw, Except.ok.injEq] at hw'
      subst hw'
      exact h

/-- The stores of a selection are known. -/
structure Known (w : Selection ρ) : Prop where
  current : ∃ P, placeOf w.context.stores w.current = some P
  above : ∀ t ∈ w.parents, ∃ P, placeOf w.context.stores t = some P
  empty : w.context.entries = OrdMap.empty

theorem Known.enter {w : Selection ρ} (h : Known w) (name : Bytes) (oid : ObjectId) :
    Known (w.enter name oid) where
  current := by
    obtain ⟨P, hP⟩ := h.current
    obtain ⟨s, hs, -⟩ := Option.map_eq_some_iff.mp hP
    exact ⟨⟨s, w.repositoryPath ++ [name], oid⟩, Option.map_eq_some_iff.mpr ⟨s, hs, rfl⟩⟩
  above t ht := by
    obtain rfl | ht := List.mem_cons.mp ht
    · exact h.current
    · exact h.above t ht
  empty := h.empty

theorem Known.enterModule {w inside : Selection ρ} (h : Known w) {name : Bytes} {oid : ObjectId}
    (hinside : w.enterModule g name oid = .ok inside) : Known inside := by
  obtain ⟨opened, hopened, hinside⟩ := except_bind_eq_ok.mp hinside
  obtain ⟨s, hs, hinside⟩ := except_bind_eq_ok.mp hinside
  obtain ⟨outer, inner, houter, hinner, rfl⟩ := openModule_eq_ok.mp hopened
  cases hinside
  have hkept : ∀ {t}, (∃ P, placeOf w.context.stores t = some P) →
      ∃ P, placeOf (w.context.stores ++ [inner]) t = some P := by
    intro t ht
    obtain ⟨P, hP⟩ := ht
    exact ⟨P, placeOf_more hP inner⟩
  refine ⟨?_, fun t ht => ?_, h.empty⟩
  · refine ⟨⟨inner, [], s.root⟩, ?_⟩
    show (w.context.stores ++ [inner])[w.context.stores.length]?.map _ = _
    rw [store_last]
    rfl
  · obtain rfl | ht := List.mem_cons.mp ht
    · exact hkept h.current
    · exact hkept (h.above t ht)

/-- They stay known. -/
theorem selectFrom_known {w w' : Selection ρ} (h : Known w) {followed : Nat} {pending : List Bytes}
    (hrun : selectFrom g followed w pending = .ok w') : Known w' := by
  fun_induction selectFrom g followed w pending with
  | case1 =>
    cases hrun
    exact h
  | case2 followed w pending ih => exact ih h hrun
  | case3 => cases hrun
  | case4 followed w pending store subtree path parents hparents _ ih =>
    refine ih ⟨?_, fun t ht => ?_, h.empty⟩ hrun
    · exact h.above (store, subtree, path) (by rw [hparents]; exact List.mem_cons_self)
    · exact h.above t (by rw [hparents]; exact List.mem_cons_of_mem _ ht)
  | case5 => cases hrun
  | case6 followed w name pending _ _ entry _ _ ih => exact ih (h.enter name entry.oid) hrun
  | case7 => cases hrun
  | case8 followed w name pending _ _ entry _ _ inside hinside ih =>
    exact ih (h.enterModule hinside) hrun
  | case9 => cases hrun
  | case10 followed w name pending _ _ entry _ _ parts _ ih => exact ih h hrun
  | case11 => cases hrun

/-- **A context that is captured shows some place.** -/
theorem capture_shows {c : CapturedContext ρ}
    (h : capture g fuel repository commit context = some (.ok c)) : ∃ P, Shows g P c := by
  obtain ⟨start, w, hstart, hselect, hscan⟩ := capture_eq_ok.mp h
  obtain ⟨P₀, hstands⟩ := captureStart_stands hstart
  have hknown : Known start := by
    obtain ⟨⟨stores, entries⟩, store, subtree, path, parents⟩ := start
    obtain ⟨hclimbs, hempty⟩ := hstands
    generalize hhere : ([] : EntryPath) = top at hclimbs
    cases hclimbs with
    | top ht => exact ⟨⟨_, ht⟩, fun t ht => absurd ht List.not_mem_nil, hempty⟩
    | into _ _ _ => exact absurd hhere.symm (by simp)
  have hselected := selectFrom_known hknown hselect
  obtain ⟨P, hP⟩ := hselected.current
  exact ⟨P, scan_shows hselected.empty hP hscan⟩

/-- How capturing a directory answers to all of its repository. -/
structure CapturesAs (g : Git ρ) (repository : Bytes) (commit : ObjectId) (context : Bytes)
    (full : CapturedContext ρ) : Prop where
  /-- With fuel enough there is an answer. -/
  terminates : ∃ k, ∀ fuel, k ≤ fuel → ∃ result, capture g fuel repository commit context =
    some result
  /-- It is captured exactly if the path resolves to a directory. -/
  captured : (∃ fuel c, capture g fuel repository commit context = some (.ok c)) ↔
    ∃ d, resolve full.entries (pathIter context) = .ok d ∧ IsDirectory full.entries d
  /-- All of its modules can be expanded, whatever was expanded before. -/
  expands : ∀ fuel c, capture g fuel repository commit context = some (.ok c) →
    (∃ sub, Becomes g c sub ∧ Complete sub.entries) ∧
      ∀ sub, Becomes g c sub → ∀ selected, ∃ k next, ∀ fuel, k ≤ fuel → sub.expand g fuel selected =
        some (.ok next)
  /-- And then it has what the repository has below the directory. -/
  same : ∀ fuel c d, capture g fuel repository commit context = some (.ok c) →
    resolve full.entries (pathIter context) = .ok d →
    ∀ sub, Becomes g c sub → Complete sub.entries → ∀ path, path ≠ [] →
      (sub.entries.get? path).map unnumbered = (full.entries.get? (d ++ path)).map unnumbered
  /-- Above the repository there is nothing. -/
  escapes : ∀ t, Reaches full.entries ⟨[], pathIter context, 0⟩ t → t.here = [] →
    t.pending.head? = some dotdotName →
    ∀ fuel result, capture g fuel repository commit context = some result → ∃ e, result = .error e

/-- **Capturing a directory agrees with capturing the repository**, whatever links, dots and
    modules its path goes through. -/
theorem capture_agrees {root full : CapturedContext ρ}
    (hroot : capture g fuel repository commit dotName = some (.ok root))
    (hexpanded : Becomes g root full) (hcomplete : Complete full.entries) (context : Bytes) :
    CapturesAs g repository commit context full := by
  obtain ⟨start, w₀, hstart, hselect, hscan⟩ := capture_eq_ok.mp hroot
  obtain ⟨P₀, hstands⟩ := captureStart_stands hstart
  have hdot : pathIter dotName = [dotName] := by decide
  rw [hdot, selectFrom, if_pos rfl, selectFrom, Except.ok.injEq] at hselect
  subst hselect
  obtain ⟨P, hP, hplace⟩ := hstands.climbs.place
  obtain rfl : P₀ = P := Option.some.inj hP
  have hshows := scan_shows hstands.empty hplace hscan
  obtain ⟨hfull, -⟩ := hshows.becomes hexpanded
  have hwhole := hfull.whole hcomplete
  have hsame := selectFrom_same hfull hcomplete (pathIter context) 0 []
    (pathIter context) rfl hstands (.inl rfl)
  -- what is captured, and where
  have hcaptured : ∀ {fuel c}, capture g fuel repository commit context = some (.ok c) →
      ∃ d P, resolve full.entries (pathIter context) = .ok d ∧ IsDirectory full.entries d ∧
          placeAt g P₀ d = some P ∧ Shows g P c := by
    intro fuel c h
    obtain ⟨start', w, hstart', hw, hscan⟩ := capture_eq_ok.mp h
    rw [hstart, Except.ok.injEq] at hstart'
    subst hstart'
    obtain ⟨d, w', hd, hdir, hw', hthere⟩ | ⟨-, e, he⟩ := hsame
    · rw [hw, Except.ok.injEq] at hw'
      subst hw'
      obtain ⟨P, hP, hplace⟩ := hthere.climbs.place
      exact ⟨d, P, hd, hdir, hP, scan_shows hthere.empty hplace hscan⟩
    · rw [hw] at he
      cases he
  have htotal : (∀ d, resolve full.entries (pathIter context) = .ok d →
        ¬ IsDirectory full.entries d) ∧
        (∃ e, ∀ fuel, capture g fuel repository commit context = some (.error e)) ∨
      ∃ k c, ∀ fuel, k ≤ fuel → capture g fuel repository commit context = some (.ok c) := by
    obtain ⟨d, w, -, -, hw, hthere⟩ | ⟨hnone, e, he⟩ := hsame
    · obtain ⟨P, hP, hplace⟩ := hthere.climbs.place
      obtain ⟨k, c, hrun⟩ := scan_total hthere.empty hplace (hwhole.inside hP).readable
      exact .inr ⟨k, c, fun fuel hfuel => capture_eq_ok.mpr ⟨start, w, hstart, hw, hrun fuel hfuel⟩⟩
    · refine .inl ⟨hnone, e, fun fuel => ?_⟩
      rw [capture, hstart, except_ok_bind, he]
  refine ⟨?_, ⟨fun h => ?_, fun h => ?_⟩, fun fuel c h => ?_,
    fun fuel c d h hd sub hsub hall path hne => ?_,
    fun t ht hhere hpending fuel result h => ?_⟩
  · obtain ⟨-, e, he⟩ | ⟨k, c, hc⟩ := htotal
    · exact ⟨0, fun fuel _ => ⟨_, he fuel⟩⟩
    · exact ⟨k, fun fuel hfuel => ⟨_, hc fuel hfuel⟩⟩
  · obtain ⟨fuel, c, h⟩ := h
    obtain ⟨d, P, hd, hdir, -⟩ := hcaptured h
    exact ⟨d, hd, hdir⟩
  · obtain ⟨d, hd, hdir⟩ := h
    obtain ⟨hnone, -⟩ | ⟨k, c, hc⟩ := htotal
    · exact absurd hdir (hnone d hd)
    · exact ⟨k, c, hc k (le_refl k)⟩
  · obtain ⟨d, P, -, -, hP, hshows⟩ := hcaptured h
    refine ⟨hshows.completes (hwhole.inside hP), fun sub hsub selected => ?_⟩
    exact expand_total (hshows.becomes hsub).1 (hwhole.inside hP) selected
  · obtain ⟨d', P, hd', -, hP, hshows⟩ := hcaptured h
    rw [hd, Except.ok.injEq] at hd'
    subst hd'
    obtain ⟨init, name, rfl⟩ := (List.eq_nil_or_concat path).resolve_left hne
    rw [List.concat_eq_append, (hshows.becomes hsub).1.complete hall, ← List.append_assoc,
      hfull.complete hcomplete, placeAt_append, hP]
    rfl
  · cases result with
    | error e => exact ⟨e, rfl⟩
    | ok c =>
      exfalso
      obtain ⟨d, -, hd, -⟩ := hcaptured h
      exact ((resolve_eq_ok.mp hd).1 t ht).1.1 hhere hpending

end

end

/-! A repository with a module "m", which has one file, and a link "l" to it. -/

def directoryTree : ObjectId :=
  [0x3d, 0x5a, 0x50, 0x3f, 0x40, 0x62, 0xd1, 0x98, 0xb4, 0x43, 0xdb, 0x50, 0x65, 0xca, 0x72, 0x7f,
    0x83, 0x54, 0xe7, 0xdf]

def moduleCommit : ObjectId :=
  [0x0f, 0xa6, 0x39, 0x91, 0xc5, 0x26, 0x37, 0xac, 0x8e, 0x2a, 0x47, 0x1b, 0x66, 0x89, 0x24, 0xa0,
    0xa9, 0xed, 0x33, 0x77]

def modulesBlob : ObjectId :=
  [0xc8, 0xb0, 0xdb, 0x12, 0xf2, 0x7b, 0x4e, 0xf3, 0x86, 0x26, 0x49, 0x98, 0x07, 0x52, 0xda, 0x34,
    0x0d, 0x4f, 0xcb, 0x70]

def linkBlob : ObjectId :=
  [0x08, 0xb9, 0x81, 0x1c, 0x98, 0xf0, 0xd9, 0x0d, 0xba, 0xcc, 0x00, 0x6d, 0xdc, 0xd8, 0x0c, 0x59,
    0x45, 0xb9, 0xea, 0x55]

def outerTree : ObjectId :=
  [0xd7, 0x56, 0x29, 0x4f, 0x12, 0x81, 0xc8, 0x7d, 0x9f, 0x76, 0xb3, 0x85, 0x37, 0xf4, 0x4d, 0xac,
    0x1f, 0x8f, 0xd4, 0xc1]

def outerCommit : ObjectId :=
  [0x77, 0x84, 0xcc, 0xa8, 0x74, 0xbd, 0x6b, 0x7a, 0x31, 0xc0, 0x04, 0xfb, 0x1d, 0xd0, 0x5b, 0x1f,
    0xdc, 0x38, 0xf8, 0x8f]

def asciiBytes (s : String) : Bytes := s.toList.map fun ch => UInt8.ofNat ch.toNat

/-- "100644 f", and the empty blob. -/
def directoryObject : GitObject := ⟨.tree, asciiBytes "100644 f" ++ 0 :: emptyBlob⟩

def moduleCommitObject : GitObject :=
  ⟨.commit, asciiBytes "tree 3d5a503f4062d198b443db5065ca727f8354e7df\nauthor a <a> 0 +0000\ncommitter a <a> 0 +0000\n\n"⟩

def outerCommitObject : GitObject :=
  ⟨.commit, asciiBytes "tree d756294f1281c87d9f76b38537f44dac1f8fd4c1\nauthor a <a> 0 +0000\ncommitter a <a> 0 +0000\n\n"⟩

def modulesObject : GitObject := ⟨.blob, asciiBytes "[submodule \"m\"]\n\tpath = m\n\turl = m\n"⟩

def linkObject : GitObject := ⟨.blob, [109]⟩

/-- "100644 .gitmodules", "120000 l" and "160000 m". -/
def outerObject : GitObject :=
  ⟨.tree, asciiBytes "100644 .gitmodules" ++ 0 :: modulesBlob ++ asciiBytes "120000 l" ++
    0 :: linkBlob ++
    asciiBytes "160000 m" ++ 0 :: moduleCommit⟩

/-- ".git/modules/m" -/
def moduleDirectory : Bytes := asciiBytes ".git/modules/m"

/-- Whether a repository is the module's. -/
def moduleGit : Git Bool where
  openRepository path :=
    if path = [] then .ok false else if path = moduleDirectory then .ok true else .error .git
  alternates _ := .ok []
  objectHash _ := 20
  commonDir _ := gitName
  findObject inner id :=
    if inner then
      if id = moduleCommit then .ok moduleCommitObject
      else if id = directoryTree then .ok directoryObject
      else if id = emptyBlob then .ok ⟨.blob, []⟩
      else .error .git
    else if id = outerCommit then .ok outerCommitObject
    else if id = outerTree then .ok outerObject
    else if id = modulesBlob then .ok modulesObject
    else if id = linkBlob then .ok linkObject
    else .error .git
  computeHash _ object :=
    if object.data = moduleCommitObject.data then .ok moduleCommit
    else if object.data = outerCommitObject.data then .ok outerCommit
    else if object.data = outerObject.data then .ok outerTree
    else if object.data = directoryObject.data then .ok directoryTree
    else if object.data = modulesObject.data then .ok modulesBlob
    else if object.data = linkObject.data then .ok linkBlob
    else if object.data = [] then .ok emptyBlob
    else .error .git
  decodeTree data :=
    if data = outerObject.data then
      .ok [⟨gitmodules, .blob, modulesBlob⟩, ⟨[108], .link, linkBlob⟩,
        ⟨[109], .commit, moduleCommit⟩]
    else if data = directoryObject.data then .ok [⟨[102], .blob, emptyBlob⟩]
    else .error .git
  decodeCommit data :=
    if data = outerCommitObject.data then .ok outerTree
    else if data = moduleCommitObject.data then .ok directoryTree
    else .error .git
  submodules data := if data = modulesObject.data then .ok [(some [109], some [109])]
    else .error .git
  canonicalize path := .ok path

/-- The module is not expanded. -/
def moduleStart : CapturedContext Bool where
  stores := [⟨false, outerTree, 0⟩]
  entries := ((OrdMap.empty.insert [gitmodules] (.file 0 false modulesBlob)).insert [[108]]
    (.symlink [109])).insert [[109]]
    (.module 0 [[109]] moduleCommit)

/-- It is. -/
def moduleFull : CapturedContext Bool where
  stores := [⟨false, outerTree, 0⟩, ⟨true, directoryTree, 1⟩]
  entries := (((OrdMap.empty.insert [gitmodules] (.file 0 false modulesBlob)).insert [[108]]
    (.symlink [109])).insert [[109]]
    .directory).insert [[109], [102]] (.file 1 false emptyBlob)

/-- At its root. -/
def moduleRoot : Selection Bool := ⟨⟨[⟨false, outerTree, 0⟩], OrdMap.empty⟩, 0, outerTree, [], []⟩

theorem moduleGit_captured : capture moduleGit 3 [] outerCommit dotName =
    some (.ok moduleStart) := by
  have hstart : captureStart moduleGit [] outerCommit = .ok moduleRoot := by rfl
  refine capture_eq_ok.mpr ⟨moduleRoot, moduleRoot, hstart, ?_, by rfl⟩
  rw [show pathIter dotName = [dotName] by decide, selectFrom, if_pos rfl, selectFrom]

theorem module_expanded : moduleStart.expand moduleGit 3 [[109]] = some (.ok moduleFull) := by rfl

theorem module_becomes : Becomes moduleGit moduleStart moduleFull :=
  .single ⟨3, [[109]], module_expanded⟩

theorem moduleFull_complete : Complete moduleFull.entries := by
  intro path e h
  have hmem := OrdMap.get?_eq_some.mp h
  have hall : ∀ e ∈ moduleFull.entries.entries, e.2.isModule = false := by decide
  exact hall (path, e) hmem

/-- Capturing "l/../m" of it. -/
theorem directory_captures : CapturesAs moduleGit [] outerCommit (asciiBytes "l/../m") moduleFull :=
  capture_agrees moduleGit_captured module_becomes moduleFull_complete _

end Conglobate.Context
