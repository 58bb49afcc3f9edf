import Conglobate.Context.Read
import Conglobate.Copy.Puts
import Conglobate.Copy.Write

/- COPY overlays its sources (`CopyDestination::copy`, `copy/destination/mod.rs`).

   A selected directory is put below the target as a tree, its directories given root's
   metadata; a selected file is put in place of what is no directory.

   What is proved:
     1. `Written.source` — what one source adds;
     2. `copy_overlays` — what a copy that succeeds has done;
     3. `empty_directory_made` — a directory with nothing in it makes its target. -/
namespace Conglobate.Copy

open Context (Git CapturedContext Captured)

/-- Two folds whose steps succeed alike. -/
theorem foldlM_ok_congr {ε α β σ : Type} {f : σ → α → Except ε σ} {g : σ → β → Except ε σ}
    {h : α → β} {l : List α} (hstep : ∀ s a t, a ∈ l → (f s a = .ok t ↔ g s (h a) = .ok t))
    (s t : σ) :
    l.foldlM f s = .ok t ↔ (l.map h).foldlM g s = .ok t := by
  induction l generalizing s with
  | nil => exact Iff.rfl
  | cons a rest ih =>
    rw [List.map_cons, List.foldlM_cons, List.foldlM_cons, except_bind_eq_ok, except_bind_eq_ok]
    refine exists_congr fun u => and_congr (hstep s a u List.mem_cons_self) ?_
    exact ih (fun s a t ha => hstep s a t (List.mem_cons_of_mem _ ha)) u

section
variable {ρ : Type} (g : Git ρ) (c : CapturedContext ρ)

/-- What an entry is to be put as. -/
def itemOf : ContextEntry → Item
  | .directory => .directory
  | e => .leaf (entryObject g c e).toOption

/-- What is put for an entry. -/
inductive EntryPut : ContextEntry → Put → Prop where
  | directory : EntryPut .directory .directory
  | leaf {e : ContextEntry} {o : Object} : entryObject g c e = .ok o → EntryPut e (.leaf o)

/-- What was put for these entries. -/
def PutFor : List (List Bytes × ContextEntry) → Puts → Prop :=
  List.Forall₂ fun e x => e.1 = x.1 ∧ EntryPut g c e.2 x.2

end

section
variable {ρ : Type} {g : Git ρ} {c : CapturedContext ρ} {v v' : Volume}

theorem entryObject_leaf {e : ContextEntry} {o : Object} (h : entryObject g c e = .ok o) :
    o.content ≠ .directory := by
  cases e with
  | directory => cases h
  | module _ _ _ => cases h
  | file store executable oid =>
    obtain ⟨bytes, -, rfl⟩ := except_map_eq_ok.mp h
    exact Content.noConfusion
  | symlink target =>
    cases h
    exact Content.noConfusion

theorem itemOf_leaf {e : ContextEntry} (he : e ≠ .directory) :
    itemOf g c e = .leaf (entryObject g c e).toOption := by
  cases e with
  | directory => exact absurd rfl he
  | _ => rfl

theorem itemOf_solid (e : ContextEntry) : (itemOf g c e).Solid := by
  intro o ho
  have he : e ≠ .directory := by
    rintro rfl
    cases ho
  rw [itemOf_leaf he] at ho
  exact entryObject_leaf (except_toOption_eq_some.mp (Item.leaf.inj ho))

/-! The writers, and what they put. -/

theorem replace_eq_ok {parent : List Bytes} {name : Bytes} {x y : Except WriteError Object}
    (h : ∀ o, x = .ok o ↔ y = .ok o) :
    v.replace parent name x = .ok v' ↔ v.replace parent name y = .ok v' := by
  simp only [Volume.replace, except_bind_eq_ok, h]

theorem elim_toOption {x : Except WriteError Object} (o : Object) :
    (x.toOption.elim (.error .io) .ok : Except WriteError Object) = .ok o ↔ x = .ok o := by
  cases x with
  | error e => exact iff_of_false (fun h => by cases h) (fun h => by cases h)
  | ok o' => exact Iff.rfl

theorem leaf_eq_ok {path : List Bytes} {e : ContextEntry} :
    leaf g c v path e = .ok v' ↔ putLeaf v path (entryObject g c e).toOption = .ok v' := by
  rw [leaf, putLeaf]
  cases path.getLast? with
  | none => exact iff_of_false (fun h => by cases h) (fun h => by cases h)
  | some name =>
    simp only [except_bind_eq_ok]
    refine exists_congr fun node => and_congr_right fun _ => ?_
    split
    · exact iff_of_false (fun h => by cases h) (fun h => by cases h)
    · exact replace_eq_ok fun o => (elim_toOption o).symm

theorem copyDescendant_eq_ok {target : List Bytes} {e : EntryPath × ContextEntry} :
    copyDescendant g c target v e = .ok v' ↔ putBelow true target v (e.1, itemOf g c e.2) =
      .ok v' := by
  rw [copyDescendant, putBelow, except_bind_eq_ok, except_bind_eq_ok]
  refine exists_congr fun path => and_congr_right fun _ => ?_
  split
  · rename_i hdirectory
    rw [hdirectory]
    show _ ↔ (fun u : Volume => if true = true then u.fileMetadata (u.spot path) 0o755
      else u) <$> v.directory path = .ok v'
    rw [except_bind_eq_ok, except_map_eq_ok]
    simp
  · rename_i hleaf
    dsimp only
    rw [itemOf_leaf hleaf]
    exact leaf_eq_ok

/-! Descendants. -/

/-- Descendants come after their directories. -/
theorem descendants_proper {entries : Entries} (hcaptured : Captured entries) (s : CopySource)
    {target : List Bytes} (htarget : ∀ name ∈ target, Destination.Entered name) :
    Volume.Proper target ((s.descendants entries).map fun e => (e.1, itemOf g c e.2)) where
  nodup := by
    rw [List.map_map]
    exact (CopySource.descendants_sorted entries s).imp fun h => ne_of_lt h
  proper e he := by
    obtain ⟨e, hmem, rfl⟩ := List.mem_map.mp he
    exact (CopySource.mem_descendants.mp hmem).2.1
  solid e he := by
    obtain ⟨e, he, rfl⟩ := List.mem_map.mp he
    exact itemOf_solid e.2
  entered e he name hname := by
    obtain ⟨e, hmem, rfl⟩ := List.mem_map.mp he
    obtain hname | hname := List.mem_append.mp hname
    · exact htarget name hname
    · obtain ⟨-, -, hget⟩ := CopySource.mem_descendants.mp hmem
      have hkey : s.resolved ++ e.1 ∈ entries.keys := by
        rw [OrdMap.mem_keys, hget]
        rfl
      obtain ⟨-, hdot, hdotdot, hslash⟩ :=
        Context.entryName_eq_true (hcaptured.names _ hkey name (List.mem_append_right _ hname))
      refine ⟨?_, hdot, hdotdot⟩
      rintro rfl
      exact hslash (List.mem_singleton_self slash)
  above front e back hsplit q hq := by
    obtain ⟨front, rest, hl, rfl, hrest⟩ := List.map_eq_append_iff.mp hsplit
    obtain ⟨e, back, rfl, rfl, rfl⟩ := List.map_eq_cons_iff.mp hrest
    have he : e ∈ s.descendants entries := by
      rw [hl]; exact List.mem_append_right _ List.mem_cons_self
    obtain ⟨hdirectory, hne, hget⟩ := CopySource.mem_descendants.mp he
    obtain ⟨hnil, hfront, hproper⟩ := hq
    obtain ⟨tail, htail⟩ := hfront
    have htailne : tail ≠ [] := by
      rintro rfl
      exact hproper (by rw [← htail, List.append_nil])
    -- it is a directory of the context
    have hkey : s.resolved ++ q ++ tail ∈ entries.keys := by
      rw [List.append_assoc, htail, OrdMap.mem_keys, hget]
      rfl
    have habove := (directory_above hcaptured.parents htailne hkey).resolve_left fun h => hnil
      (List.append_eq_nil_iff.mp h).2
    have hmem : (q, ContextEntry.directory) ∈ s.descendants entries :=
      CopySource.mem_descendants.mpr ⟨hdirectory, hnil, habove⟩
    -- and it comes before, its path being a front of this one's
    apply List.mem_map.mpr
    refine ⟨(q, .directory), ?_, rfl⟩
    rw [hl] at hmem
    obtain hmem | hmem := List.mem_append.mp hmem
    · exact hmem
    · exfalso
      have hsorted := CopySource.descendants_sorted entries s
      rw [hl, List.map_append, List.map_cons, List.pairwise_append] at hsorted
      have hfront : q <+: e.1 := ⟨tail, htail⟩
      obtain heq | hmem := List.mem_cons.mp hmem
      · exact hproper (congrArg Prod.fst heq)
      · have hgreater := (List.pairwise_cons.mp hsorted.2.1).1 q
          (List.mem_map_of_mem (f := Prod.fst) hmem)
        exact not_lt_of_prefix hfront hgreater

/-- What is put for descendants that can be read. -/
theorem putFor_descendants {target : List Bytes} {l : List (EntryPath × ContextEntry)}
    (hreadable : ∀ e ∈ l.map fun e => (e.1, itemOf g c e.2), e.2 ≠ .leaf none) :
    PutFor g c (l.map fun e => (target ++ e.1, e.2)) (putsOf true target
      (l.map fun e => (e.1, itemOf g c e.2))) := by
  induction l with
  | nil => exact .nil
  | cons e rest ih =>
    have hrest := ih fun e' he' => hreadable e' (List.mem_cons_of_mem _ he')
    have hput : ∃ x, putOf true (itemOf g c e.2) = some x ∧ EntryPut g c e.2 x := by
      by_cases hdirectory : e.2 = .directory
      · rw [hdirectory]
        exact ⟨.directory, rfl, .directory⟩
      · have hsome := hreadable _ List.mem_cons_self
        dsimp only at hsome
        rw [itemOf_leaf hdirectory] at hsome ⊢
        cases ho : entryObject g c e.2 with
        | error _ =>
          rw [ho] at hsome
          exact absurd rfl hsome
        | ok o => exact ⟨.leaf o, rfl, .leaf ho⟩
    obtain ⟨x, hx, hput⟩ := hput
    rw [List.map_cons, List.map_cons, putsOf, List.filterMap_cons]
    dsimp only
    rw [hx]
    exact .cons ⟨rfl, hput⟩ hrest

/-! Sources. -/

/-- Where a file goes. -/
def fileTarget (inside : Bool) (target : List Bytes) (s : CopySource) : List Bytes :=
  if inside then target ++ (fileName s.selected).toList else target

/-- What a source puts, and where. -/
def placedBy (entries : Entries) (inside : Bool) (target : List Bytes) (s : CopySource) :
    List (List Bytes × ContextEntry) :=
  if s.isDirectory entries then (s.descendants entries).map fun e => (target ++ e.1, e.2)
  else (entries.get? s.resolved).toList.map fun e => (fileTarget inside target s, e)

/-- What is made for entries: the directories above them. -/
def AboveOne (placed : List (List Bytes × ContextEntry)) (q : List Bytes) :
    Prop := ∃ e ∈ placed, Above e.1 q

/-- What a selected directory's target makes. -/
def Opened (opened : Bool) (target q : List Bytes) : Prop := opened = true ∧ q ≠ [] ∧ q <+: target

theorem aboveOne_append {a b : List (List Bytes × ContextEntry)} {q : List Bytes} :
    AboveOne (a ++ b) q ↔ AboveOne a q ∨ AboveOne b q := by
  simp only [AboveOne, List.mem_append, or_and_right, exists_or]

theorem opened_or {a b : Bool} {target q : List Bytes} :
    Opened (a || b) target q ↔ Opened a target q ∨ Opened b target q := by
  rw [Opened, Bool.or_eq_true, or_and_right]
  exact Iff.rfl

namespace Volume
variable {b : Volume} {made : List Bytes → Prop} {written : Puts}

/-- **One source.** -/
theorem Written.source (h : Written b made written v) (hcaptured : Captured c.entries)
    {target : List Bytes} (htarget : ∀ name ∈ target, Destination.Entered name) {s : CopySource}
    (hrun : copySource g c target v s = .ok v') :
    ∃ new, PutFor g c (placedBy c.entries (v.isDirectory (v.spot target)) target s) new ∧
      Written b (fun q => made q ∨ AboveOne (placedBy c.entries
        (v.isDirectory (v.spot target)) target s) q ∨
        Opened (s.isDirectory c.entries) target q) (written ++ new) v' := by
  rw [copySource] at hrun
  cases hdirectory : s.isDirectory c.entries with
  | true =>
    rw [hdirectory, if_pos rfl] at hrun
    obtain ⟨u, hopen, hrun⟩ := except_bind_eq_ok.mp hrun
    obtain ⟨hopened, hdir⟩ := h.directory_opened hopen
    have hrun := (@foldlM_ok_congr _ _ _ _ (copyDescendant g c target) (putBelow true target)
      (fun e => (e.1, itemOf g c e.2)) (s.descendants c.entries)
        (fun _ _ _ _ => copyDescendant_eq_ok) u v').mp hrun
    have hproper := descendants_proper (g := g) (c := c) hcaptured s htarget
    have hstanding := hopened.run hproper hdir hrun
    have hput := @putFor_descendants _ _ _ target _ hstanding.readable
    rw [placedBy, hdirectory, if_pos rfl]
    refine ⟨_, hput, hstanding.written.congr fun q hlast => ?_⟩
    rw [mem_fronts_nil, or_assoc]
    refine or_congr_right (or_comm.trans (or_congr ?_ (and_iff_right rfl).symm))
    -- a directory that is put need not be made
    constructor
    · intro hmade
      obtain ⟨e, he, hmade⟩ := hmade
      obtain ⟨e, hmem, rfl⟩ := List.mem_map.mp he
      obtain habove | ⟨hitem, rfl⟩ := hmade
      · exact ⟨_, List.mem_map_of_mem hmem, habove⟩
      · exfalso
        apply lastAt_eq_none.mp hlast
        rw [List.map_append]
        apply List.mem_append_right
        refine List.mem_map.mpr ⟨(target ++ e.1, .directory), ?_, rfl⟩
        refine List.mem_filterMap.mpr ⟨_, he, ?_⟩
        dsimp only at hitem ⊢
        rw [hitem]
        rfl
    · intro habove
      obtain ⟨e, he, habove⟩ := habove
      obtain ⟨e, hmem, rfl⟩ := List.mem_map.mp he
      exact ⟨_, List.mem_map_of_mem hmem, .inl habove⟩
  | false =>
    rw [hdirectory, if_neg Bool.false_ne_true] at hrun
    obtain ⟨node, hobserve, hrun⟩ := except_bind_eq_ok.mp hrun
    obtain ⟨path, hpath, hrun⟩ := except_bind_eq_ok.mp hrun
    have hfile : path = fileTarget (v.isDirectory (v.spot target)) target s := by
      rw [fileTarget]
      rw [filePath] at hpath
      split at hpath
      · rename_i hnode
        rw [observe_directory (hnode ▸ hobserve), if_pos rfl]
        cases hname : fileName s.selected with
        | none =>
          rw [hname] at hpath
          cases hpath
        | some name =>
          rw [hname] at hpath
          cases hpath
          rfl
      · rename_i hnode
        rw [observe_not_directory hobserve hnode, if_neg Bool.false_ne_true]
        cases hpath
        rfl
    cases hget : c.entries.get? s.resolved with
    | none =>
      rw [hget] at hrun
      cases hrun
    | some e =>
      rw [hget] at hrun
      have hsolid : (Item.leaf (entryObject g c e).toOption).Solid := by
        intro o ho
        exact entryObject_leaf (except_toOption_eq_some.mp (Item.leaf.inj ho))
      obtain ⟨o, ho, hwritten⟩ := h.put_leaf hsolid (leaf_eq_ok.mp hrun)
      rw [placedBy, hdirectory, if_neg Bool.false_ne_true, hget, ← hfile]
      refine ⟨[(path, .leaf o)], .cons ⟨rfl, .leaf (except_toOption_eq_some.mp ho)⟩ .nil,
        hwritten.congr fun q _ => ?_⟩
      simp [AboveOne, Opened]

/-- **The sources**, one after the other, once the target is what it is going to be. -/
theorem Written.sources (h : Written b made written v) (hcaptured : Captured c.entries)
    {target : List Bytes} (htarget : ∀ name ∈ target, Destination.Entered name) {inside : Bool}
    {sources : List CopySource}
    (hinside : ∀ front s back u, sources = front ++ s :: back →
    front.foldlM (copySource g c target) v = .ok u →
      u.isDirectory (u.spot target) = inside) (hrun : sources.foldlM
        (copySource g c target) v = .ok v') :
    ∃ new, PutFor g c (sources.flatMap (placedBy c.entries inside target)) new ∧
      Written b (fun q => made q ∨ AboveOne (sources.flatMap (placedBy c.entries inside target)) q ∨
        Opened (sources.any fun s => s.isDirectory c.entries) target q) (written ++ new) v' := by
  have hinv := Flow.foldlM_partial (fun done u => done.foldlM (copySource g c target) v = .ok u ∧
    ∃ new, PutFor g c (done.flatMap (placedBy c.entries inside target)) new ∧
      Written b (fun q => made q ∨ AboveOne (done.flatMap (placedBy c.entries inside target)) q ∨
        Opened (done.any fun s => s.isDirectory c.entries) target q) (written ++ new) u) ?_ ?_ hrun
  · exact hinv.2
  · refine ⟨rfl, [], .nil, ?_⟩
    rw [List.append_nil]
    exact h.congr fun q _ => by simp [AboveOne, Opened]
  · intro front s back u u' hsplit hinv hstep
    obtain ⟨hfront, new, hput, hwritten⟩ := hinv
    have hsame := hinside front s back u hsplit hfront
    obtain ⟨more, hmore, hnext⟩ := hwritten.source hcaptured htarget hstep
    rw [hsame] at hmore hnext
    refine ⟨?_, new ++ more, ?_, ?_⟩
    · rw [List.foldlM_append, hfront]
      show ([s].foldlM (copySource g c target) u) = .ok u'
      rw [List.foldlM_cons, hstep]
      rfl
    · rw [List.flatMap_append, List.flatMap_singleton]
      exact List.rel_append hput hmore
    · rw [← List.append_assoc]
      refine hnext.congr fun q _ => ?_
      rw [List.flatMap_append, List.flatMap_singleton, List.any_append, List.any_cons, List.any_nil,
        Bool.or_false, aboveOne_append, opened_or]
      tauto

/-- What is a directory stays one. -/
theorem sources_stay (hcaptured : Captured c.entries) {target : List Bytes}
    (htarget : ∀ name ∈ target, Destination.Entered name) {sources : List CopySource} {k : Spot}
    (hk : v.isDirectory k = true) (hrun : sources.foldlM (copySource g c target) v = .ok v') :
    v'.isDirectory k = true ∧ v'.bootstrap = v.bootstrap := by
  apply Flow.foldlM_partial (fun _ u => u.isDirectory k = true ∧
    u.bootstrap = v.bootstrap) ⟨hk, rfl⟩ _ hrun
  intro front s back u u' hsplit hinv hstep
  obtain ⟨new, -, hwritten⟩ := (Written.refl u).source hcaptured htarget hstep
  exact ⟨hwritten.isDirectory hinv.1, hwritten.bootstrap.trans hinv.2⟩

end Volume

theorem PutFor.lastAt {placed : List (List Bytes × ContextEntry)} {written : Puts}
    (h : PutFor g c placed written) (p : List Bytes) :
    (lastAt placed p = none ∧ lastAt written p = none) ∨
      ∃ e x, lastAt placed p = some e ∧ lastAt written p = some x ∧ EntryPut g c e x := by
  -- from the left, with what was last before
  suffices hfold : ∀ (a : Option ContextEntry) (a' : Option Put),
      ((a = none ∧ a' = none) ∨ ∃ e x, a = some e ∧ a' = some x ∧ EntryPut g c e x) →
      ((placed.foldl (fun last e => if e.1 = p then some e.2 else last) a = none ∧
        written.foldl (fun last e => if e.1 = p then some e.2 else last) a' = none) ∨
        ∃ e x, placed.foldl (fun last e => if e.1 = p then some e.2 else last) a = some e ∧
          written.foldl (fun last e => if e.1 = p then some e.2 else last) a' = some x ∧
            EntryPut g c e x) from
    hfold none none (.inl ⟨rfl, rfl⟩)
  induction h with
  | nil => exact fun a a' hacc => hacc
  | @cons e x placed written hput _ ih =>
    intro a a' hacc
    rw [List.foldl_cons, List.foldl_cons]
    apply ih
    rw [← hput.1]
    by_cases hp : e.1 = p
    · rw [if_pos hp, if_pos hp]
      exact .inr ⟨e.2, x.2, rfl, rfl, hput.2⟩
    · rw [if_neg hp, if_neg hp]
      exact hacc

/-! The whole copy. -/

/-- What a copy has put, and what it has made for that. -/
theorem copy_written (hcaptured : Captured c.entries) {d : CopyDirective} {before after : Volume}
    (h : copy g c d before = .ok after) :
    ∃ sources target new, select c.entries d.sources = .ok sources ∧
      before.destination.resolve d.destination true = .ok target ∧
      PutFor g c (sources.flatMap (placedBy c.entries
        (d.trailing || before.isDirectory (before.spot target)) target)) new ∧
      before.Written (fun q =>
        AboveOne (sources.flatMap (placedBy c.entries
          (d.trailing || before.isDirectory (before.spot target)) target)) q ∨
        Opened (d.trailing || sources.any fun s =>
          s.isDirectory c.entries) target q) new after := by
  rw [copy] at h
  obtain ⟨sources, hselect, h⟩ := except_bind_eq_ok.mp h
  split at h
  · cases h
  rename_i hmany
  obtain ⟨target, hresolve, h⟩ := except_bind_eq_ok.mp h
  rw [except_mapError_eq_ok] at hselect hresolve
  have htarget := Volume.resolve_entered (fun name hname => absurd hname List.not_mem_nil) hresolve
  cases htrailing : d.trailing with
  | true =>
    obtain ⟨u, hopen, hrun⟩ := except_bind_eq_ok.mp h
    rw [openTarget, htrailing, if_pos rfl] at hopen
    obtain ⟨hopened, hdir⟩ := (Volume.Written.refl before).directory_opened hopen
    obtain ⟨new, hput, hwritten⟩ :=
      @Volume.Written.sources _ _ _ _ _ _ _ _ hopened hcaptured _ htarget true sources
      (fun front s back w _ hfront => by
        obtain ⟨hstay, hbootstrap⟩ := Volume.sources_stay hcaptured htarget hdir hfront
        rwa [Volume.spot_congr (hbootstrap.trans hopened.bootstrap)]) hrun
    refine ⟨sources, target, new, hselect, hresolve, hput, hwritten.congr fun q _ => ?_⟩
    have hall : (q ≠ [] ∧ q <+: target) ↔ Opened true target q := (and_iff_right rfl).symm
    have hany : Opened (sources.any fun s => s.isDirectory c.entries) target q →
      Opened true target q := fun hq => ⟨rfl, hq.2⟩
    rw [Bool.true_or, Volume.mem_fronts_nil, hall]
    tauto
  | false =>
    obtain ⟨u, hsame, hrun⟩ := except_bind_eq_ok.mp h
    rw [openTarget, htrailing, if_neg Bool.false_ne_true] at hsame
    cases hsame
    -- at most one source, which finds the target as it was
    obtain ⟨new, hput, hwritten⟩ :=
      @Volume.Written.sources _ _ _ _ _ _ _ _ (Volume.Written.refl before) hcaptured _ htarget
      (before.isDirectory (before.spot target)) sources
      (fun front s back w hsplit hfront => by
        have hlength : sources.length ≤ 1 := by
          by_contra hlong
          exact hmany ⟨not_le.mp hlong, htrailing⟩
        rw [hsplit, List.length_append, List.length_cons] at hlength
        obtain rfl : front = [] := List.length_eq_zero_iff.mp (by omega)
        cases hfront
        rfl) hrun
    exact ⟨sources, target, new, hselect, hresolve, hput, hwritten.congr fun q _ => or_iff_right id⟩

/-- How a copy has changed the trees: what is placed last at a path is there, and nothing
    else is different. -/
structure Overlaid (g : Git ρ) (c : CapturedContext ρ) (before after : Volume) (target : List Bytes)
    (opened : Bool) (placed : List (List Bytes × ContextEntry)) : Prop where
  /-- A file or a link is a new object of root's, with one name. -/
  leaf : ∀ p e, lastAt placed p = some e → e ≠ .directory →
    ∃ o i, entryObject g c e = .ok o ∧ before.next ≤ i ∧ after.inode (before.spot p) = some i ∧
      after.object i = o ∧ ∀ k, after.inode k = some i → k = before.spot p
  /-- A directory is root's, the one that was there or a new one. -/
  directory : ∀ p, lastAt placed p = some .directory →
    ∃ i, after.inode (before.spot p) = some i ∧ after.object i = rootDirectory ∧
      (before.isDirectory (before.spot p) = true ∧ before.inode (before.spot p) = some i ∨
        before.inode (before.spot p) = none ∧ before.next ≤ i)
  /-- A directory above is the one that was there, or a new one of root's. -/
  made : ∀ p, lastAt placed p = none → AboveOne placed p ∨ Opened opened target p →
    ∃ i, after.inode (before.spot p) = some i ∧
      (before.isDirectory (before.spot p) = true ∧ before.inode (before.spot p) = some i ∨
        before.inode (before.spot p) = none ∧ before.next ≤ i ∧ after.object i = rootDirectory)
  /-- All other names, in both trees, are the same objects'. -/
  kept : ∀ k, (∀ p, p ∈ placed.map Prod.fst ∨ AboveOne placed p ∨ Opened opened target p →
    before.spot p ≠ k) → after.inode k = before.inode k
  /-- All objects but the directories placed are as they were. -/
  object : ∀ i < before.next, after.object i ≠ before.object i →
    ∃ p, lastAt placed p = some .directory ∧ before.inode (before.spot p) = some i

theorem entryPut_directory {x : Put} (h : EntryPut g c .directory x) : x = .directory := by
  cases h with
  | directory => rfl
  | leaf ho => cases ho

theorem entryPut_leaf {e : ContextEntry} (he : e ≠ .directory) {x : Put} (h : EntryPut g c e x) :
    ∃ o, entryObject g c e = .ok o ∧ x = .leaf o := by
  cases h with
  | directory => exact absurd rfl he
  | leaf ho => exact ⟨_, ho, rfl⟩

theorem Volume.Written.overlaid {before after : Volume} {target : List Bytes} {opened : Bool}
    {placed : List (List Bytes × ContextEntry)} {written : Puts}
    (h : before.Written (fun q => AboveOne placed q ∨ Opened opened target q) written after)
    (hput : PutFor g c placed written) :
    Overlaid g c before after target opened placed where
  leaf p e hlast hleaf := by
    obtain ⟨hnone, -⟩ | ⟨e', x, he, hx, hput⟩ := hput.lastAt p
    · rw [hlast] at hnone
      cases hnone
    · rw [hlast, Option.some.injEq] at he
      subst he
      obtain ⟨o, ho, rfl⟩ := entryPut_leaf hleaf hput
      obtain ⟨-, -, i, hnew, hi, hobject, hname⟩ := h.leaf p o hx
      exact ⟨o, i, ho, hnew, hi, hobject, hname⟩
  directory p hlast := by
    obtain ⟨hnone, -⟩ | ⟨e, x, he, hx, hput⟩ := hput.lastAt p
    · rw [hlast] at hnone
      cases hnone
    · rw [hlast, Option.some.injEq] at he
      subst he
      obtain rfl := entryPut_directory hput
      obtain ⟨i, hi, -, hold, hroot⟩ := h.directory p (.inl hx)
      refine ⟨i, hi, hroot (.inl hx), hold.imp_left fun hold => ?_⟩
      exact ⟨Volume.isDirectory_iff.mpr ⟨i, hold⟩, hold.1⟩
  made p hlast hmade := by
    obtain ⟨-, hnone⟩ | ⟨e, x, he, -, -⟩ := hput.lastAt p
    · obtain ⟨i, hi, -, hold, hroot⟩ := h.directory p (.inr ⟨hnone, hmade⟩)
      refine ⟨i, hi, hold.imp (fun hold => ?_) (fun hnew => ?_)⟩
      · exact ⟨Volume.isDirectory_iff.mpr ⟨i, hold⟩, hold.1⟩
      · exact ⟨hnew.1, hnew.2, hroot (.inr hnew.1)⟩
    · rw [hlast] at he
      cases he
  kept k hk := by
    apply h.kept k
    intro p hp
    apply hk p
    obtain hp | hp := hp
    · exact .inr hp
    · -- what is put at is placed at
      obtain ⟨-, hnone⟩ | ⟨e, x, he, -, -⟩ := hput.lastAt p
      · exact absurd hp (lastAt_eq_none.mp hnone)
      · exact .inl (List.mem_map.mpr ⟨(p, e), lastAt_mem he, rfl⟩)
  object i hi hne := by
    obtain ⟨p, hlast, hp⟩ := h.object i hi hne
    refine ⟨p, ?_, hp⟩
    obtain ⟨-, hnone⟩ | ⟨e, x, he, hx, hput⟩ := hput.lastAt p
    · rw [hlast] at hnone
      cases hnone
    · rw [hlast, Option.some.injEq] at hx
      subst hx
      rw [he]
      cases hput with
      | directory => rfl

/-- **COPY overlays exactly its sources**, at the destination as it was resolved before. A
    selected directory, like a slash at the end, makes the target. -/
theorem copy_overlays (hcaptured : Captured c.entries) {d : CopyDirective} {before after : Volume}
    (h : copy g c d before = .ok after) :
    ∃ sources target, select c.entries d.sources = .ok sources ∧
      before.destination.resolve d.destination true = .ok target ∧
      Overlaid g c before after target (d.trailing || sources.any fun s => s.isDirectory c.entries)
        (sources.flatMap (placedBy c.entries (d.trailing ||
          before.isDirectory (before.spot target)) target)) := by
  obtain ⟨sources, target, new, hselect, hresolve, hput, hwritten⟩ := copy_written hcaptured h
  exact ⟨sources, target, hselect, hresolve, hwritten.overlaid hput⟩

/-! A tree at the destination. -/

/-- A tree is put below the destination. -/
def putTree (reset : Bool) (d : CopyDirective) (l : List (EntryPath × Item)) (v : Volume) :
    Except WriteError Volume := do
  let target ← (v.destination.resolve d.destination true).mapError WriteError.resolution
  let v ← openTarget d target v
  let v ← v.directory target
  l.foldlM (putBelow reset target) v

/-- A tree of entries can be put below the target. -/
def Room (v : Volume) (target : List Bytes) (l : List (EntryPath × Item)) : Prop :=
  v.Clear target ∧ ∀ e ∈ l, v.Fits target e

section
variable {reset : Bool} {d : CopyDirective} {l : List (EntryPath × Item)}

/-- The target is opened twice, if there is a slash. -/
theorem opening_opened {target : List Bytes} {w u : Volume} (hopen : openTarget d target v = .ok w)
    (hdirectory : w.directory target = .ok u) :
    v.OpenedAt target u := by
  rw [openTarget] at hopen
  split at hopen
  · exact (Volume.OpenedAt.of_directory hopen).again hdirectory
  · cases hopen
    exact .of_directory hdirectory

theorem opening_total {target : List Bytes} (hclear : v.Clear target) :
    ∃ w u, openTarget d target v = .ok w ∧ w.directory target = .ok u := by
  obtain ⟨w, hopen⟩ := Volume.directory_total.mpr hclear
  rw [openTarget]
  split
  · obtain ⟨u, hagain⟩ :=
      Volume.directory_total.mpr (Volume.OpenedAt.of_directory hopen).clear_opened
    exact ⟨w, u, hopen, hagain⟩
  · exact ⟨v, w, rfl, hopen⟩

theorem putTree_eq_ok : putTree reset d l v = .ok v' ↔
    ∃ target w u, v.destination.resolve d.destination true = .ok target ∧
    openTarget d target v = .ok w ∧ w.directory target = .ok u ∧
    l.foldlM (putBelow reset target) u = .ok v' := by
  simp only [putTree, except_bind_eq_ok, except_mapError_eq_ok]
  constructor
  · intro h
    obtain ⟨target, hresolve, w, hopen, u, hdirectory, hrun⟩ := h
    exact ⟨target, w, u, hresolve, hopen, hdirectory, hrun⟩
  · intro h
    obtain ⟨target, w, u, hresolve, hopen, hdirectory, hrun⟩ := h
    exact ⟨target, hresolve, w, hopen, u, hdirectory, hrun⟩

/-- A tree stands below its target, and with it the directories above. -/
def Volume.Stands (v : Volume) (reset : Bool) (target : List Bytes) (l : List (EntryPath × Item))
    (u : Volume) : Prop :=
  v.Standing (fun q => q ∈ Volume.fronts [] target) [] reset target l u

/-- A tree that is put, and where. -/
theorem putTree_standing
    (hl : ∀ target, (∀ name ∈ target, Destination.Entered name) → Volume.Proper target l)
    (h : putTree reset d l v = .ok v') : ∃ target, v.destination.resolve d.destination true =
    .ok target ∧
      v.Stands reset target l v' := by
  obtain ⟨target, w, u, hresolve, hopen, hdirectory, hrun⟩ := putTree_eq_ok.mp h
  have hopened := opening_opened hopen hdirectory
  have htarget := Volume.resolve_entered (fun name hname => absurd hname List.not_mem_nil) hresolve
  exact ⟨target, hresolve, hopened.written.run (hl target htarget) hopened.opened hrun⟩

/-- **A tree can be put** where there is room for it. -/
theorem putTree_total
    (hl : ∀ target, (∀ name ∈ target, Destination.Entered name) → Volume.Proper target l) :
    (∃ v', putTree reset d l v = .ok v') ↔ ∃ target, v.destination.resolve d.destination true =
      .ok target ∧ Room v target l := by
  have hrun : ∀ target u, v.destination.resolve d.destination true = .ok target →
      v.OpenedAt target u →
      ((∃ v', l.foldlM (putBelow reset target) u = .ok v') ↔ ∀ e ∈ l, v.Fits target e) := by
    intro target u hresolve hopened
    have hproper := hl target (Volume.resolve_entered
      (fun name hname => absurd hname List.not_mem_nil) hresolve)
    have hdir := hopened.opened
    rw [← Volume.spot_congr hopened.written.bootstrap] at hdir
    rw [Volume.run_total hproper hdir]
    exact forall₂_congr fun e he => hopened.fits (hproper.proper e he)
  constructor
  · intro h
    obtain ⟨v', h⟩ := h
    obtain ⟨target, w, u, hresolve, hopen, hdirectory, hput⟩ := putTree_eq_ok.mp h
    have hopened := opening_opened hopen hdirectory
    exact ⟨target, hresolve, hopened.clear, (hrun target u hresolve hopened).mp ⟨v', hput⟩⟩
  · intro h
    obtain ⟨target, hresolve, hclear, hfits⟩ := h
    obtain ⟨w, u, hopen, hdirectory⟩ := @opening_total _ d _ hclear
    obtain ⟨v', hput⟩ := (hrun target u hresolve (opening_opened hopen hdirectory)).mpr hfits
    exact ⟨v', putTree_eq_ok.mpr ⟨target, w, u, hresolve, hopen, hdirectory, hput⟩⟩

end

/-- What a source's descendants are to be put as. -/
def treeOf (g : Git ρ) (c : CapturedContext ρ) (s : CopySource) : List (EntryPath × Item) :=
  (s.descendants c.entries).map fun e => (e.1, itemOf g c e.2)

/-- **One directory is put as a tree.** -/
theorem copy_eq_ok {d : CopyDirective} {s : CopySource}
    (hselect : select c.entries d.sources = .ok [s]) (hdirectory : s.isDirectory c.entries = true) :
    copy g c d v = .ok v' ↔ putTree true d (treeOf g c s) v = .ok v' := by
  have hone : ¬ (1 < [s].length ∧ d.trailing = false) := fun h => Nat.lt_irrefl 1 h.1
  have hselected : (select c.entries d.sources).mapError WriteError.selection = .ok [s] := by
    rw [hselect]
    rfl
  rw [copy, hselected, except_ok_bind, if_neg hone, putTree]
  simp only [except_bind_eq_ok]
  refine exists_congr fun target => and_congr_right fun _ => exists_congr fun w =>
    and_congr_right fun _ => ?_
  have hsource : [s].foldlM (copySource g c target) w = .ok v' ↔ copySource g c target w s =
      .ok v' := by
    rw [List.foldlM_cons, except_bind_eq_ok]
    exact ⟨fun h => by obtain ⟨u, hu, heq⟩ := h; cases heq; exact hu, fun h => ⟨v', h, rfl⟩⟩
  rw [hsource, copySource, hdirectory, if_pos rfl, except_bind_eq_ok]
  refine exists_congr fun u => and_congr_right fun _ => ?_
  exact @foldlM_ok_congr _ _ _ _ (copyDescendant g c target) (putBelow true target)
    (fun e => (e.1, itemOf g c e.2)) (s.descendants c.entries)
      (fun _ _ _ _ => copyDescendant_eq_ok) u v'

end

/-! Empty trees, and copies of a whole context to "/n". -/

/-- Two roots with nothing in them. -/
def bareVolume : Volume where
  bootstrap := false
  inode k := if k = ⟨.root, []⟩ then some 0 else if k = ⟨.output, []⟩ then some 1 else none
  object _ := rootDirectory
  next := 2
  refused _ := false
  roots side := by
    cases side with
    | root => exact ⟨0, rfl, rfl⟩
    | output => exact ⟨1, rfl, rfl⟩
  parents k name h := by
    rw [if_neg (Spot.child_ne_top k name .root), if_neg (Spot.child_ne_top k name .output)] at h
    exact absurd rfl h
  known k i h := by
    split at h
    · rw [← Option.some.inj h]
      exact Nat.zero_lt_two
    split at h
    · rw [← Option.some.inj h]
      exact Nat.one_lt_two
    · cases h
  single k k' i hk hk' _ := by
    split at hk
    · rename_i hroot
      cases hk
      split at hk'
      · rename_i hroot'
        rw [hroot, hroot']
      · split at hk'
        · cases hk'
        · cases hk'
    split at hk
    · rename_i houtput
      cases hk
      split at hk'
      · cases hk'
      split at hk'
      · rename_i houtput'
        rw [houtput, houtput']
      · cases hk'
    · cases hk

theorem bareVolume_free {path : List Bytes} (h : path ≠ []) :
    bareVolume.inode (bareVolume.spot path) = none := by
  have hspot : bareVolume.spot path = ⟨.root, path⟩ :=
    Volume.spot_root (fun hmnt => Bool.false_ne_true hmnt.1)
  rw [hspot]
  show (if (⟨.root, path⟩ : Spot) = ⟨.root, []⟩ then some 0
    else if (⟨.root, path⟩ : Spot) = ⟨.output, []⟩ then some 1 else none) = none
  rw [if_neg fun heq => h (Spot.mk.inj heq).2, if_neg fun heq => Side.noConfusion
    (Spot.mk.inj heq).1]

/-- "/" to "/n". -/
def wholeTo : CopyDirective := ⟨[⟨['/'], []⟩], [slash, 110]⟩

theorem wholeTo_selects {entries : Entries}
    (hcomplete : ∀ e ∈ entries.entries, e.2.isModule = false) :
    select entries wholeTo.sources = .ok [⟨[], []⟩] := by
  have hparts : sourceParts ⟨['/'], []⟩ = [] := by decide
  have hresolve : resolve entries [] = .ok [] := by rw [resolve, resolveFrom]
  have hfind : entries.entries.find? (fun e => ([] : EntryPath).isPrefixOf e.1 && e.2.isModule) =
      none := by
    rw [List.find?_eq_none]
    intro e he
    rw [hcomplete e he, Bool.and_false]
    exact Bool.false_ne_true
  have hpath : selectPath entries [] [] = .ok [⟨[], []⟩] := by
    rw [selectPath, hresolve, except_ok_bind, hfind]
    rfl
  have hpattern : selectPattern entries [] ⟨['/'], []⟩ = .ok [⟨[], []⟩] := by
    rw [selectPattern, hparts]
    show [[]].foldlM (selectPath entries) [] = _
    rw [List.foldlM_cons, hpath]
    rfl
  rw [select, wholeTo, List.foldlM_cons, hpattern]
  rfl

theorem wholeTo_resolves : bareVolume.destination.resolve wholeTo.destination true =
    .ok [[110]] := by
  show bareVolume.destination.resolveFrom true 0 [] [[slash], [110]] = _
  rw [Destination.resolveFrom_slash, Destination.resolveFrom_missing
    ⟨by decide, by decide, by decide⟩ rfl, Destination.resolveFrom]
  rfl

/-- There is room for everything. -/
theorem bareVolume_room {target : List Bytes} {l : List (EntryPath × Item)}
    (hl : ∀ e ∈ l, e.1 ≠ [] ∧ e.2 ≠ .leaf none) :
    Room bareVolume target l := by
  refine ⟨fun q hne _ => .inl (bareVolume_free hne),
    fun e he => ⟨fun _ _ _ => rfl, fun _ => .inl ?_, fun o ho => ⟨?_, ?_⟩⟩⟩
  · exact bareVolume_free (List.append_ne_nil_of_right_ne_nil target (hl e he).1)
  · rw [Volume.isDirectory, Volume.found, bareVolume_free (List.append_ne_nil_of_right_ne_nil target
      (hl e he).1)]
    rfl
  · rintro rfl
    exact (hl e he).2 ho

theorem wholeTo_copied {ρ : Type} {g : Git ρ} {c : CapturedContext ρ}
    (hcaptured : Captured c.entries) (hcomplete : ∀ e ∈ c.entries.entries, e.2.isModule = false)
    (hreadable : ∀ e ∈ c.entries.entries, itemOf g c e.2 ≠ .leaf none) :
    ∃ after, copy g c wholeTo bareVolume = .ok after := by
  simp only [copy_eq_ok (wholeTo_selects hcomplete) rfl]
  apply (putTree_total fun target htarget => descendants_proper hcaptured _ htarget).mpr
  refine ⟨[[110]], wholeTo_resolves, bareVolume_room fun e he => ?_⟩
  obtain ⟨e, hmem, rfl⟩ := List.mem_map.mp he
  obtain ⟨-, hne, hget⟩ := CopySource.mem_descendants.mp hmem
  exact ⟨hne, hreadable _ (OrdMap.get?_eq_some.mp hget)⟩

open Context (oneContext emptyBlobGit)

theorem oneContext_captured : Captured oneContext.entries where
  root := by decide
  names := by decide
  parents path name hkey := by
    have hkeys : oneContext.entries.keys = [[[100]], [[100], [102]]] := by decide
    rw [hkeys] at hkey
    simp only [List.mem_cons, List.not_mem_nil, or_false] at hkey
    obtain heq | heq := hkey
    · exact .inl (List.append_inj' (show path ++ [name] = [] ++ [[100]] from heq) rfl).1
    · obtain ⟨rfl, -⟩ := List.append_inj' (show path ++ [name] = [[100]] ++ [[102]] from heq) rfl
      exact .inr (by decide)

/-- `copy_overlays` on the context with "d/f". -/
theorem whole_context_overlays : ∃ after, copy emptyBlobGit oneContext wholeTo bareVolume =
    .ok after ∧ ∃ sources target, select oneContext.entries wholeTo.sources = .ok sources ∧
      bareVolume.destination.resolve wholeTo.destination true = .ok target ∧
      Overlaid emptyBlobGit oneContext bareVolume after target
        (wholeTo.trailing || sources.any fun s => s.isDirectory oneContext.entries)
        (sources.flatMap (placedBy oneContext.entries
          (wholeTo.trailing || bareVolume.isDirectory (bareVolume.spot target)) target)) := by
  have hentries : oneContext.entries.entries = [([[100]], .directory),
    ([[100], [102]], .file 0 false Context.emptyBlob)] := by decide
  have hcopied : ∃ after, copy emptyBlobGit oneContext wholeTo bareVolume = .ok after := by
    apply wholeTo_copied oneContext_captured
    · decide
    · rw [hentries]
      decide
  obtain ⟨after, h⟩ := hcopied
  exact ⟨after, h, copy_overlays oneContext_captured h⟩

/-- A context with nothing in it. -/
def emptyContext : CapturedContext Unit := ⟨[], OrdMap.empty⟩

/-- **A selected directory makes its target**, without a slash and with nothing to put there. -/
theorem empty_directory_made : wholeTo.trailing = false ∧
    select emptyContext.entries wholeTo.sources = .ok [⟨[], []⟩] ∧
    CopySource.descendants emptyContext.entries ⟨[], []⟩ = [] ∧ bareVolume.atPath [[110]] = none ∧
    ∃ after, copy emptyBlobGit emptyContext wholeTo bareVolume = .ok after ∧ after.atPath [[110]] =
      some rootDirectory := by
  have hselect : select emptyContext.entries wholeTo.sources = .ok [⟨[], []⟩] :=
    wholeTo_selects (by decide)
  have hdescendants : CopySource.descendants emptyContext.entries ⟨[], []⟩ = [] := by decide
  have hcaptured : Captured emptyContext.entries :=
    ⟨by decide, by decide, fun path name hkey => absurd hkey List.not_mem_nil⟩
  obtain ⟨after, hcopy⟩ := wholeTo_copied (g := emptyBlobGit) hcaptured (by decide)
    (fun e he => absurd he List.not_mem_nil)
  obtain ⟨sources, target, new, hsources, htarget, hput, hwritten⟩ := copy_written hcaptured hcopy
  rw [hselect] at hsources
  rw [wholeTo_resolves] at htarget
  cases hsources
  cases htarget
  have hplaced : [(⟨[], []⟩ : CopySource)].flatMap (placedBy emptyContext.entries
      (wholeTo.trailing || bareVolume.isDirectory (bareVolume.spot [[110]])) [[110]]) = [] := by
    rw [List.flatMap_singleton, placedBy, hdescendants]
    rfl
  rw [hplaced] at hput hwritten
  cases hput
  have hfree : bareVolume.inode (bareVolume.spot [[110]]) = none := bareVolume_free (by decide)
  refine ⟨by decide, hselect, hdescendants, ?_, after, hcopy, ?_⟩
  · rw [Volume.atPath, Volume.found, hfree]
    rfl
  · obtain ⟨i, hi, -, -, hroot⟩ :=
      hwritten.directory [[110]] (.inr ⟨rfl, .inr ⟨rfl, by decide, List.prefix_refl _⟩⟩)
    rw [Volume.atPath, Volume.spot_congr hwritten.bootstrap, Volume.found, hi, Option.map_some,
      hroot (.inr hfree)]

end Conglobate.Copy
