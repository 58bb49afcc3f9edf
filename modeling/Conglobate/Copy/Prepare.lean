import Conglobate.Copy.Lazy

/- Preparing a context for its COPY directives (`CopySources::prepare`, `copy/source.rs`;
   `CapturedBuild::try_from`, `input/mod.rs`).

   A directive is selected, and where that stops at a module, the module is expanded and
   the selection begun again. Expanding opens a place that was hidden, of which there are
   only so many, so this ends; and it ends as selecting from the whole context would.

   What is proved:
     1. `prepare_lazily` — preparing a directive ends, and succeeds or fails as selecting it
        with all modules expanded does;
     2. `prepared_agrees` — directives prepared in any order, with whatever else is expanded
        later, select what they do with all modules expanded;
     3. `build_prepares` — the directives of a build are prepared just when all of them can
        be selected, and otherwise refused as the first that cannot.

   Correspondence (Rust ↔ Lean):
     the loop of `CopySources::prepare`       ↔ `prepareFrom`
     `CopySources::prepare`                   ↔ `prepare`
     the loop over a build's COPY directives  ↔ `prepareAll`
   The context of an expansion that failed is not looked at again. -/
namespace Conglobate.Copy

open Context

section
variable {ρ : Type} (g : Git ρ)

/-- The loop of `prepare`: a module that stops the selection is expanded. -/
def prepareFrom (fuel : Nat) : Nat → CapturedContext ρ → List SourcePattern →
    Option (Except ContextError (CapturedContext ρ × Except SelectionError Unit))
  | 0, _, _ => none
  | rounds + 1, c, patterns =>
    match select c.entries patterns with
    | .error (.module path) =>
      match c.expand g fuel path with
      | none => none
      | some (.error e) => some (.error e)
      | some (.ok next) => prepareFrom fuel rounds next patterns
    | result => some (.ok (c, result.map fun _ => ()))

def prepare (fuel : Nat) (c : CapturedContext ρ) (patterns : List SourcePattern) :
    Option (Except ContextError (CapturedContext ρ × Except SelectionError Unit)) :=
  prepareFrom g fuel fuel c patterns

/-- The sources of a build's directives, one after the other. -/
def prepareAll (fuel : Nat) : CapturedContext ρ → List (List SourcePattern) →
    Option (Except ContextError (CapturedContext ρ × Except SelectionError Unit))
  | c, [] => some (.ok (c, .ok ()))
  | c, patterns :: rest =>
    match prepare g fuel c patterns with
    | none => none
    | some (.error e) => some (.error e)
    | some (.ok (next, .error e)) => some (.ok (next, .error e))
    | some (.ok (next, .ok ())) => prepareAll fuel next rest

end

section
variable {ρ : Type} {g : Git ρ} {P₀ : Place ρ} {c full : CapturedContext ρ}

/-- What selecting comes to, but for what is selected. -/
def selects (entries : Entries) (patterns : List SourcePattern) : Except SelectionError Unit :=
  (select entries patterns).map fun _ => ()

/-- **Whatever shows a place is part of all of it.** -/
theorem shows_partly (h : Shows g P₀ c) (hfull : Shows g P₀ full)
    (hcomplete : Complete full.entries) :
    Partly c.entries full.entries := by
  apply h.partly hfull
  intro q hq
  obtain ⟨P, hP⟩ := h.place hq
  apply (hfull.hidden_or_shown q hP).resolve_right
  intro hhidden
  obtain ⟨q', e, -, hget, hmodule⟩ := hhidden
  rw [hcomplete q' e hget] at hmodule
  cases hmodule

/-- No module is named where there is none. -/
theorem complete_names {entries : Entries} (hcomplete : Complete entries)
    {patterns : List SourcePattern} {q : EntryPath} :
    select entries patterns ≠ .error (.module q) := by
  intro h
  have hnamed := (select_ends patterns).1 _ h q rfl
  cases hget : entries.get? q with
  | none =>
    rw [hget] at hnamed
    cases hnamed
  | some e =>
    rw [hget, Option.any_some, hcomplete q e hget] at hnamed
    cases hnamed

theorem prepareFrom_settled {fuel rounds : Nat} {patterns : List SourcePattern}
    (h : ∀ q, select c.entries patterns ≠ .error (.module q)) :
    prepareFrom g fuel (rounds + 1) c patterns = some (.ok (c, selects c.entries patterns)) := by
  rw [prepareFrom, selects]
  split
  · rename_i q hq
    exact absurd hq (h q)
  · rfl

/-- **Preparing ends**, with modules expanded, and as selecting from all of the place. -/
theorem prepareFrom_total (h : Shows g P₀ c) (hfull : Shows g P₀ full)
    (hcomplete : Complete full.entries) (patterns : List SourcePattern) :
    ∃ k c', (∀ fuel rounds, k ≤ fuel → k ≤ rounds →
        prepareFrom g fuel rounds c patterns = some (.ok (c', selects full.entries patterns))) ∧
      Becomes g c c' ∧ select c'.entries patterns = select full.entries patterns := by
  have hwhole := hfull.whole hcomplete
  -- on the places that are not shown yet
  induction hleft : (Unshown g P₀ c).ncard using Nat.strong_induction_on generalizing c with
  | _ left ih =>
    obtain ⟨-, ⟨q, rfl, hmodule⟩, hstop⟩ | hsame :=
      select_upto (shows_partly h hfull hcomplete) patterns
    · obtain ⟨e, hget, he⟩ := (Option.any_eq_true _ _).mp hmodule
      obtain ⟨k, next, hexpand⟩ := expand_total h hwhole q
      have hless := unshown_less h hwhole hget he (hexpand k (le_refl k))
      obtain ⟨k', c', hrun, hbecomes, hselect⟩ :=
        ih _ (hleft ▸ hless) (h.expand (hexpand k (le_refl k))) rfl
      refine ⟨max k k' + 1, c', fun fuel rounds hfuel hrounds => ?_,
        .head ⟨k, q, hexpand k (le_refl k)⟩ hbecomes, hselect⟩
      obtain ⟨rounds, rfl⟩ := Nat.exists_eq_add_of_lt (Nat.lt_of_lt_of_le (Nat.succ_pos _) hrounds)
      rw [Nat.zero_add, prepareFrom, hstop]
      dsimp only
      rw [hexpand fuel (by omega)]
      exact hrun fuel rounds (by omega) (by omega)
    · refine ⟨1, c, fun fuel rounds _ hrounds => ?_, .refl, hsame⟩
      obtain ⟨rounds, rfl⟩ := Nat.exists_eq_add_of_lt (Nat.lt_of_lt_of_le Nat.zero_lt_one hrounds)
      rw [Nat.zero_add, prepareFrom_settled fun q => by rw [hsame]; exact complete_names hcomplete,
        selects, hsame, selects]

/-- An expansion that came to an end came to that one. -/
theorem expand_more {fuel fuel' : Nat} (hfuel : fuel ≤ fuel') {selected : EntryPath}
    {r : Except ContextError (CapturedContext ρ)} (h : c.expand g fuel selected = some r) :
    c.expand g fuel' selected = some r := by
  obtain ⟨more, rfl⟩ := Nat.exists_eq_add_of_le hfuel
  rw [CapturedContext.expand] at h ⊢
  split
  · rename_i store path oid hget
    rw [hget] at h
    dsimp only at h
    cases hopen : c.openModule g store path oid with
    | error e =>
      rw [hopen] at h
      exact h
    | ok opened =>
      rw [hopen] at h
      dsimp only at h ⊢
      cases hstore : opened.2.store opened.1 with
      | error e =>
        rw [hstore] at h
        exact h
      | ok s =>
        rw [hstore] at h
        dsimp only at h ⊢
        rw [CapturedContext.scan, hstore] at h ⊢
        dsimp only at h ⊢
        obtain ⟨scanned, hscan, hr⟩ := Option.map_eq_some_iff.mp h
        obtain ⟨entries, hentries, hscanned⟩ := Option.map_eq_some_iff.mp hscan
        rw [scanFrom_mono hentries, Option.map_some, hscanned, Option.map_some, hr]
  · rename_i hplain
    split at h
    · rename_i store path oid hget
      exact absurd hget (hplain store path oid)
    · exact h

/-- A preparation that came to an end came to that one. -/
theorem prepareFrom_more {fuel fuel' rounds rounds' : Nat} (hfuel : fuel ≤ fuel')
    (hrounds : rounds ≤ rounds') {patterns : List SourcePattern}
    {r : Except ContextError (CapturedContext ρ × Except SelectionError Unit)}
    (h : prepareFrom g fuel rounds c patterns = some r) :
    prepareFrom g fuel' rounds' c patterns = some r := by
  induction rounds generalizing c rounds' with
  | zero => cases h
  | succ rounds ih =>
    obtain ⟨more, rfl⟩ := Nat.exists_eq_add_of_le' (Nat.le_trans (Nat.succ_pos rounds) hrounds)
    rw [prepareFrom] at h ⊢
    split
    · rename_i q hq
      rw [hq] at h
      dsimp only at h
      cases hexpand : c.expand g fuel q with
      | none =>
        rw [hexpand] at h
        cases h
      | some result =>
        rw [hexpand] at h
        rw [expand_more hfuel hexpand]
        cases result with
        | error e => exact h
        | ok next => exact ih (Nat.le_of_succ_le_succ hrounds) h
    · rename_i hq
      split at h
      · rename_i q hq'
        exact absurd hq' (hq q)
      · exact h

/-! Runs. -/

variable (g) in
/-- Directives prepared one after the other, whether they can be selected or not. -/
inductive Prepares : CapturedContext ρ → List (List SourcePattern × Except SelectionError Unit) →
    CapturedContext ρ → Prop where
  | nil (c : CapturedContext ρ) : Prepares c [] c
  | cons {fuel : Nat} {c next c' : CapturedContext ρ} {patterns : List SourcePattern}
      {outcome : Except SelectionError Unit}
      {rest : List (List SourcePattern × Except SelectionError Unit)} :
      prepare g fuel c patterns = some (.ok (next, outcome)) → Prepares next rest c' →
      Prepares c ((patterns, outcome) :: rest) c'

variable (g) in
/-- What a directive selects, now and whatever is expanded later, is what it selects from all. -/
def Selects (full : CapturedContext ρ) (patterns : List SourcePattern) (c : CapturedContext ρ) :
    Prop :=
  ∀ later, Becomes g c later → ∃ found, select later.entries patterns = .ok found ∧
    select full.entries patterns = .ok found ∧ ∀ s ∈ found, Unchanged later.entries full.entries s

/-- **A selection that succeeded stays**, and so do its sources, whatever is expanded. -/
theorem selects_of_ok (h : Shows g P₀ c) (hfull : Shows g P₀ full)
    (hcomplete : Complete full.entries) {patterns : List SourcePattern} {found : List CopySource}
    (hselect : select c.entries patterns = .ok found) : Selects g full patterns c := by
  intro later hlater
  obtain ⟨hlater, hgrown⟩ := h.becomes hlater
  have hpartly := shows_partly hlater hfull hcomplete
  have hstays := (select_upto (h.partly hlater hgrown) patterns).result hselect
  refine ⟨found, hstays, (select_upto hpartly patterns).result hstays, fun s hs => ?_⟩
  exact descendants_same hpartly ((select_ends patterns).2 found hstays s hs)

/-- How preparing a directive went, whatever fuel it had. -/
theorem prepare_eq (h : Shows g P₀ c) (hfull : Shows g P₀ full) (hcomplete : Complete full.entries)
    {fuel : Nat} {patterns : List SourcePattern} {next : CapturedContext ρ}
    {outcome : Except SelectionError Unit}
    (hrun : prepare g fuel c patterns = some (.ok (next, outcome))) :
    outcome = selects full.entries patterns ∧ Becomes g c next ∧ select next.entries patterns =
      select full.entries patterns := by
  obtain ⟨k, c', htotal, hbecomes, hselect⟩ := prepareFrom_total h hfull hcomplete patterns
  have hmore := prepareFrom_more (Nat.le_max_left fuel k) (Nat.le_max_left fuel k) hrun
  rw [htotal _ _ (Nat.le_max_right fuel k) (Nat.le_max_right fuel k)] at hmore
  cases hmore
  exact ⟨rfl, hbecomes, hselect⟩

/-- **Directives prepared one after the other** each come to what selecting from all does. -/
theorem prepares_agree (h : Shows g P₀ c) (hfull : Shows g P₀ full)
    (hcomplete : Complete full.entries)
    {steps : List (List SourcePattern × Except SelectionError Unit)} {c' : CapturedContext ρ}
    (hrun : Prepares g c steps c') :
    Becomes g c c' ∧ ∀ step ∈ steps, step.2 = selects full.entries step.1 ∧
      (step.2 = .ok () → Selects g full step.1 c') := by
  induction hrun with
  | nil c => exact ⟨.refl, fun step hstep => absurd hstep List.not_mem_nil⟩
  | @cons fuel c next c' patterns outcome rest hprepare hrest ih =>
    obtain ⟨rfl, hbecomes, hselect⟩ := prepare_eq h hfull hcomplete hprepare
    have hnext := (h.becomes hbecomes).1
    obtain ⟨hbecomes', hsteps⟩ := ih hnext
    refine ⟨hbecomes.trans hbecomes', fun step hstep => ?_⟩
    obtain rfl | hstep := List.mem_cons.mp hstep
    · refine ⟨rfl, fun hok later hlater => ?_⟩
      -- what was selected then stays selected
      obtain ⟨found, hfound, -⟩ := except_map_eq_ok.mp hok
      exact selects_of_ok hnext hfull hcomplete (hselect.trans hfound) later
        (hbecomes'.trans hlater)
    · exact hsteps step hstep

/-- **A build's directives** are prepared in their order, up to one that cannot be. -/
theorem prepareAll_total (h : Shows g P₀ c) (hfull : Shows g P₀ full)
    (hcomplete : Complete full.entries) (directives : List (List SourcePattern)) :
    ∃ k c', (∀ fuel, k ≤ fuel → prepareAll g fuel c directives = some (.ok
      (c', directives.forM (selects full.entries)))) ∧
      Becomes g c c' ∧ (directives.forM (selects full.entries) = .ok () →
        ∀ patterns ∈ directives, Selects g full patterns c') := by
  induction directives generalizing c with
  | nil =>
    exact ⟨0, c, fun fuel _ => rfl, .refl, fun _ patterns hmem => absurd hmem List.not_mem_nil⟩
  | cons patterns rest ih =>
    obtain ⟨k, next, hprepare, hbecomes, hselect⟩ := prepareFrom_total h hfull hcomplete patterns
    have hnext := (h.becomes hbecomes).1
    cases houtcome : selects full.entries patterns with
    | error e =>
      have hall : (patterns :: rest).forM (selects full.entries) = .error e := by
        show (selects full.entries patterns >>= fun _ => rest.forM (selects full.entries)) = _
        rw [houtcome]
        rfl
      refine ⟨k, next, fun fuel hfuel => ?_, hbecomes, fun hok => ?_⟩
      · rw [prepareAll, prepare, hprepare fuel fuel hfuel hfuel, houtcome, hall]
      · rw [hall] at hok
        cases hok
    | ok u =>
      have hall : (patterns :: rest).forM (selects full.entries) =
          rest.forM (selects full.entries) := by
        show (selects full.entries patterns >>= fun _ => rest.forM (selects full.entries)) = _
        rw [houtcome]
        rfl
      obtain ⟨k', c', hrest, hbecomes', hselects⟩ := ih hnext
      refine ⟨max k k', c', fun fuel hfuel => ?_, hbecomes.trans hbecomes', fun hok => ?_⟩
      · rw [prepareAll, prepare, hprepare fuel fuel (by omega) (by omega), houtcome, hall]
        exact hrest fuel (by omega)
      · rw [hall] at hok
        intro sources hmem
        obtain rfl | hmem := List.mem_cons.mp hmem
        · obtain ⟨found, hfound, -⟩ := except_map_eq_ok.mp houtcome
          exact fun later hlater => selects_of_ok hnext hfull hcomplete (hselect.trans hfound) later
            (hbecomes'.trans hlater)
        · exact hselects hok sources hmem

end

/-- "m" -/
def modulePattern : SourcePattern := ⟨['m'], [.literal [109]]⟩

/-! The whole functions. -/

section
variable {ρ : Type} {g : Git ρ} {repository context : Bytes} {commit : ObjectId} {fuel : Nat}
    {start full : CapturedContext ρ}

/-- **Preparing is lazy selection.** In whatever state expanding has left a captured context, preparing
    a directive ends, has expanded modules only, and comes to what selecting from the whole context
    does; after it the directive selects that, and after whatever is expanded later. -/
theorem prepare_lazily (hcapture : capture g fuel repository commit context = some (.ok start))
    (hexpanded : Becomes g start full) (hcomplete : Complete full.entries) {c : CapturedContext ρ}
    (hc : Becomes g start c) (patterns : List SourcePattern) :
    ∃ k c', (∀ fuel, k ≤ fuel → prepare g fuel c patterns = some (.ok
      (c', selects full.entries patterns))) ∧ Becomes g c c' ∧
      select c'.entries patterns = select full.entries patterns ∧
      ((∃ found, select full.entries patterns = .ok found) → Selects g full patterns c') := by
  obtain ⟨P, hstart⟩ := capture_shows hcapture
  have hfull := (hstart.becomes hexpanded).1
  have hshows := (hstart.becomes hc).1
  obtain ⟨k, c', hrun, hbecomes, hselect⟩ := prepareFrom_total hshows hfull hcomplete patterns
  refine ⟨k, c', fun fuel hfuel => hrun fuel fuel hfuel hfuel, hbecomes, hselect, fun hfound => ?_⟩
  obtain ⟨found, hfound⟩ := hfound
  exact selects_of_ok (hshows.becomes hbecomes).1 hfull hcomplete (hselect.trans hfound)

/-- `prepare_lazily` for the module. -/
theorem module_prepared : ∃ k c', (∀ fuel, k ≤ fuel →
      prepare moduleGit fuel moduleStart [modulePattern] =
        some (.ok (c', selects moduleFull.entries [modulePattern]))) ∧
    Becomes moduleGit moduleStart c' ∧ select c'.entries [modulePattern] =
      select moduleFull.entries [modulePattern] ∧
    ((∃ found, select moduleFull.entries [modulePattern] = .ok found) →
      Selects moduleGit moduleFull [modulePattern] c') :=
  prepare_lazily moduleGit_captured module_becomes moduleFull_complete .refl [modulePattern]

/-- **The order of preparations does not matter.** In every run of them each directive comes to what
    selecting it from the whole context does, and those that could be selected still select that
    after the run. -/
theorem prepared_agrees (hcapture : capture g fuel repository commit context = some (.ok start))
    (hexpanded : Becomes g start full) (hcomplete : Complete full.entries)
    {c c' : CapturedContext ρ} (hc : Becomes g start c)
    {steps : List (List SourcePattern × Except SelectionError Unit)}
    (hrun : Prepares g c steps c') :
    ∀ step ∈ steps, step.2 = selects full.entries step.1 ∧
      (step.2 = .ok () → Selects g full step.1 c') := by
  obtain ⟨P, hstart⟩ := capture_shows hcapture
  exact (prepares_agree (hstart.becomes hc).1 (hstart.becomes hexpanded).1 hcomplete hrun).2

/-- `prepared_agrees` for the module. -/
theorem module_agrees : ∃ c', Prepares moduleGit moduleStart
    [([modulePattern], selects moduleFull.entries [modulePattern])] c' ∧
    ∀ step ∈ [([modulePattern], selects moduleFull.entries [modulePattern])],
      step.2 = selects moduleFull.entries step.1 ∧
        (step.2 = .ok () → Selects moduleGit moduleFull step.1 c') := by
  obtain ⟨P, hstart⟩ := capture_shows moduleGit_captured
  have hfull := (hstart.becomes module_becomes).1
  obtain ⟨k, c', hrun, -⟩ := prepareFrom_total hstart hfull moduleFull_complete [modulePattern]
  have hprepares : Prepares moduleGit moduleStart [([modulePattern],
      selects moduleFull.entries [modulePattern])] c' :=
    .cons (hrun k k (le_refl k) (le_refl k)) (.nil c')
  exact ⟨c', hprepares, prepared_agrees moduleGit_captured module_becomes
    moduleFull_complete .refl hprepares⟩

/-- **A build's directives** are prepared just when the whole context has what each selects, and
    refused as the first that has nothing to select there. -/
theorem build_prepares (hcapture : capture g fuel repository commit context = some (.ok start))
    (hexpanded : Becomes g start full) (hcomplete : Complete full.entries) {c : CapturedContext ρ}
    (hc : Becomes g start c) (directives : List (List SourcePattern)) :
    ∃ k c', (∀ fuel, k ≤ fuel → prepareAll g fuel c directives = some (.ok
      (c', directives.forM (selects full.entries)))) ∧
      Becomes g c c' ∧ ((∀ patterns ∈ directives, ∃ found, select full.entries patterns =
        .ok found) → ∀ patterns ∈ directives, Selects g full patterns c') := by
  obtain ⟨P, hstart⟩ := capture_shows hcapture
  obtain ⟨k, c', hrun, hbecomes, hselects⟩ :=
    prepareAll_total (hstart.becomes hc).1 (hstart.becomes hexpanded).1 hcomplete directives
  refine ⟨k, c', hrun, hbecomes, fun hall => hselects
    (except_forM_eq_ok.mpr fun patterns hmem => ?_)⟩
  obtain ⟨found, hfound⟩ := hall patterns hmem
  rw [selects, hfound]
  rfl

/-- `build_prepares` for the module. -/
theorem module_builds : ∃ k c', (∀ fuel, k ≤ fuel →
    prepareAll moduleGit fuel moduleStart [[modulePattern]] =
      some (.ok (c', [[modulePattern]].forM (selects moduleFull.entries)))) ∧
    Becomes moduleGit moduleStart c' ∧ ((∀ patterns ∈ [[modulePattern]], ∃ found,
      select moduleFull.entries patterns = .ok found) →
      ∀ patterns ∈ [[modulePattern]], Selects moduleGit moduleFull patterns c') :=
  build_prepares moduleGit_captured module_becomes moduleFull_complete .refl [[modulePattern]]

end

end Conglobate.Copy
