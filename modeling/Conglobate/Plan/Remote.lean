import Conglobate.Artifact.Reference
import Conglobate.Image
import Conglobate.Lib.Ipv6

/- Image references of a plan (`plan/remote.rs`, `plan/stage_ref.rs`,
   `plan/image_ref.rs`). A remote is accepted under the spellings of its selector
   and under no others (`new_eq_some`), so its displayed form names it
   (**`reference_canonical`**).

   Correspondence (Rust ↔ Lean):
     `Remote::new`                ↔ `hostAndPort`, `hostAllowed`, `portAllowed`,
                                    `registryAllowed`, `repositoryPart`, `Remote.new`
     `Remote::fmt`                ↔ `Remote.toString`
     `StageRef::new`              ↔ `StageRef.new`
     `ImageRef::try_from`         ↔ `ImageRef.tryFrom`
     `eq_ignore_ascii_case`       ↔ equality of `Char.toLower` -/
namespace Conglobate.Plan

open Conglobate.Artifact (Digest Reference)
open Conglobate.Artifact.Reference (Spelled localhost latest looksLikeRegistry validateTag)

namespace Remote

/-- The host of a registry, and what is behind its colon. -/
def hostAndPort : Text → Option (Text × Option Text)
  | '[' :: ipv6 =>
    match splitOnce ']' ipv6 with
    | none => none
    | some (address, suffix) =>
      if Ipv6.parses address then
        match suffix with
        | [] => some (address, none)
        | ':' :: port => some (address, some port)
        | _ :: _ => none
      else none
  | registry =>
    match rsplitOnce ':' registry with
    | some (host, port) => some (host, some port)
    | none => some (registry, none)

def hostPart (part : Text) : Bool :=
  part ≠ [] && part.all (fun c => c.isAlphanum || c == '-') && part.head? ≠ some '-' &&
    part.getLast? ≠ some '-'

/-- A name is qualified by a dot or a port, or is localhost. -/
def hostAllowed (host : Text) (port : Option Text) : Bool :=
  (host = localhost || host.contains '.' || port.isSome) && (host.splitOn '.').all hostPart

def portAllowed (port : Text) : Bool :=
  port.all Char.isDigit && ((Decimal.parseUnsigned 16 port).filter (0 < ·)).isSome

def registryAllowed (registry : Text) : Bool :=
  match hostAndPort registry with
  | none => false
  | some (host, port) =>
    (registry.head? = some '[' || hostAllowed host port) && port.all portAllowed

def repositoryChar (c : Char) : Bool := c.isLower || c.isDigit || ['.', '_', '-'].contains c

def repositoryPart (part : Text) : Bool :=
  part ≠ [] && part.all repositoryChar && part.head?.any Char.isAlphanum &&
    part.getLast?.any Char.isAlphanum

def new (value : Text) : Option Remote := do
  let parts ← splitOnce '/' value
  if registryAllowed parts.1 then
    let parsed ← (Reference.fromStr value).toOption
    if parsed.registry = parts.1 ∧ (parsed.repo.splitOn '/').all repositoryPart then
      some ⟨parsed.registry, parsed.repo, parsed.kind⟩
    else none
  else none

end Remote

def StageRef.new (value : Text) : Option StageRef :=
  if h : value ≠ [] ∧ value ≠ ['.'] ∧ value ≠ ['.', '.'] ∧
      value.all (fun c => c.isAlphanum || c == '_' || c == '.' || c == '-') = true then
    some ⟨value, h⟩
  else none

inductive ImageRefError where
  /-- "expected a stage or fully qualified image" -/
  | unqualified
  /-- "localhost images require !bootstrap on a tool use" -/
  | localhost
  deriving DecidableEq, Repr

/-- The registry's host before a port is localhost, in any case. -/
def Remote.isLocalhost (r : Remote) : Bool :=
  (r.registry.takeWhile (· ≠ ':')).map Char.toLower = localhost

/-- `TryFrom<String>`. -/
def ImageRef.tryFrom (value : Text) : Except ImageRefError ImageRef :=
  match StageRef.new value with
  | some name => .ok (.stage name)
  | none =>
    match Remote.new value with
    | none => .error .unqualified
    | some found => if found.isLocalhost then .error .localhost else .ok (.remote found)

/-! What is accepted. -/

namespace Remote

/-- The registry and the repository are ones that are accepted. -/
structure Wellformed (r : Remote) : Prop where
  allowed : registryAllowed r.registry = true
  registry : looksLikeRegistry r.registry = true
  component : '/' ∉ r.registry
  selects : '@' ∉ r.registry
  rooted : r.registry.head? ≠ some '\\'
  repository : ∀ part ∈ r.repository.splitOn '/', repositoryPart part = true

theorem repositoryPart_eq_true {part : Text} (h : repositoryPart part = true) :
    part ≠ [] ∧ (∀ c ∈ part, repositoryChar c = true) ∧ part.head?.any Char.isAlphanum = true := by
  simp only [repositoryPart, Bool.and_eq_true, decide_eq_true_eq, List.all_eq_true] at h
  exact ⟨h.1.1.1, h.1.1.2, h.1.2⟩

/-- A character that no part may hold is not in the repository. -/
theorem Wellformed.not_mem_repository {r : Remote} (h : r.Wellformed) {c : Char}
    (hc : repositoryChar c = false) (hslash : c ≠ '/') : c ∉ r.repository := by
  intro hmem
  have hsplit : c = '/' ∨ ∃ part ∈ r.repository.splitOn '/', c ∈ part := mem_splitOn hmem
  rcases hsplit with hc' | ⟨part, hpart, hc'⟩
  · exact hslash hc'
  · have htrue := (repositoryPart_eq_true (h.repository part hpart)).2.1 c hc'
    rw [hc] at htrue
    cases htrue

theorem repositoryChar_not_upper {c : Char} (h : repositoryChar c = true) : c.isUpper = false := by
  have hall : ∀ n : Fin 128, repositoryChar (Char.ofNat n) = true → (Char.ofNat n).isUpper =
    false := by decide +kernel
  cases hup : c.isUpper with
  | false => rfl
  | true =>
    have hle : c.toNat ≤ 90 := by
      have hbounds : c.val ≥ 'A'.val ∧ c.val ≤ 'Z'.val := of_decide_eq_true hup
      exact hbounds.2
    have hc := hall ⟨c.toNat, by omega⟩
    rw [Char.ofNat_toNat] at hc
    exact hup.symm.trans (hc h)

/-- An accepted repository passes the reference's own checks. -/
theorem Wellformed.validateRepo {r : Remote} (h : r.Wellformed) :
    Reference.validateRepo r.repository = .ok () := by
  have hupper : ¬ r.repository.any Char.isUpper = true := by
    intro hany
    obtain ⟨c, hc, hup⟩ := List.any_eq_true.mp hany
    by_cases hchar : repositoryChar c = true
    · rw [repositoryChar_not_upper hchar] at hup
      cases hup
    · refine h.not_mem_repository (Bool.eq_false_iff.mpr hchar) ?_ hc
      rintro rfl
      cases hup
  rw [Reference.validateRepo, if_neg hupper, except_forM_eq_ok]
  intro part hpart
  obtain ⟨hne, hchars, hhead⟩ := repositoryPart_eq_true (h.repository part hpart)
  have hdots : ¬ (part = ['.'] ∨ part = ['.', '.']) := by
    rintro (rfl | rfl) <;> cases hhead
  have hforbidden : ¬ (part.contains '\x00' || part.contains '\\') = true := by
    intro hmem
    rw [Bool.or_eq_true, List.contains_iff_mem, List.contains_iff_mem] at hmem
    rcases hmem with hc | hc
    · cases hchars _ hc
    · cases hchars _ hc
  rw [Reference.validatePathComponent, if_neg hne, if_neg hdots, if_neg hforbidden]

/-- A repository and a registry with a selector behind them, as written. -/
def spell (r : Remote) (spelling : Text) : Text := r.registry ++ '/' :: (r.repository ++ spelling)

/-- Nothing of a repository is a colon, so nothing of the last component is. -/
theorem Wellformed.colon {r : Remote} (h : r.Wellformed) :
    ':' ∉ (r.spell []).drop (Reference.searchFrom (r.spell [])) := by
  have hrepo : ':' ∉ r.repository := h.not_mem_repository (by decide) (by decide)
  rw [spell, List.append_nil, Reference.searchFrom]
  cases hlast : rsplitOnce '/' (r.registry ++ '/' :: r.repository) with
  | none => exact absurd (rsplitOnce_eq_none.mp hlast) (by simp)
  | some p =>
    obtain ⟨c, hc⟩ := rsplitOnce_suffix hlast h.component
    have hdrop : (p.1 ++ '/' :: p.2).drop (p.1.length + 1) = p.2 := by simp
    rw [(rsplitOnce_eq_some.mp hlast).1, Option.elim_some, hdrop]
    intro hmem
    rw [hc] at hrepo
    exact hrepo (List.mem_append_right _ hmem)

/-- A reference whose registry is what is before the first slash has it written
    there, then its repository and a spelling of its selector. -/
theorem fromStr_spelled {value rest : Text} {parsed : Reference}
    (hsplit : splitOnce '/' value = some (parsed.registry, rest))
    (h : Reference.fromStr value = .ok parsed) :
    looksLikeRegistry parsed.registry = true ∧ '@' ∉ parsed.registry ∧
      parsed.registry.head? ≠ some '\\' ∧
      ∃ spelling, Spelled parsed.kind spelling ∧ value = parsed.registry ++
        '/' :: (parsed.repo ++ spelling) := by
  obtain ⟨-, -, hrooted, before, hselector, hparts, -, hkind⟩ := Reference.fromStr_eq_ok.mp h
  obtain ⟨spelling, hvalue, hspelled, hat⟩ := Reference.splitSelector_spelled hselector hkind
  rw [Reference.splitRegistry] at hparts
  cases hfirst : splitOnce '/' before with
  | none =>
    -- then nothing of the value is a slash
    have hslash : '/' ∉ value := by
      rw [hvalue, List.mem_append, not_or]
      exact ⟨splitOnce_eq_none.mp hfirst, hspelled.no_slash⟩
    rw [splitOnce_eq_none.mpr hslash] at hsplit
    cases hsplit
  | some p =>
    have hwhole := splitOnce_append (b := p.2) hfirst spelling
    rw [← hvalue, hsplit] at hwhole
    obtain ⟨hbefore, -⟩ := splitOnce_eq_some.mp hfirst
    have hp : p.1 = parsed.registry := (congrArg Prod.fst (Option.some.inj hwhole)).symm
    simp only [hfirst] at hparts
    by_cases hlooks : looksLikeRegistry p.1 = true
    · rw [if_pos hlooks] at hparts
      have hrepo : p.2 = parsed.repo := congrArg Prod.snd hparts
      rw [hp, hrepo] at hbefore
      rw [hbefore] at hat hvalue
      refine ⟨hp ▸ hlooks, fun hc => hat (List.mem_append_left _ hc), ?_, spelling, hspelled, ?_⟩
      · intro hhead
        rw [hvalue] at hrooted
        cases hreg : parsed.registry with
        | nil =>
          rw [hreg] at hhead
          cases hhead
        | cons c cs =>
          rw [hreg] at hhead hrooted
          exact hrooted hhead
      · rw [hvalue, List.append_assoc, List.cons_append]
    · -- the default registry is not written, and it would look like one
      rw [if_neg hlooks] at hparts
      have hdefault : Reference.dockerIo = parsed.registry := congrArg Prod.fst hparts
      rw [hp, ← hdefault] at hlooks
      exact absurd (by decide) hlooks

/-- **Every spelling of an accepted remote is read as it.** -/
theorem Wellformed.fromStr_spell {r : Remote} (h : r.Wellformed) {spelling : Text}
    (hs : Spelled r.selector spelling) :
    Reference.fromStr (r.spell spelling) = .ok ⟨r.registry, r.repository, r.selector⟩ := by
  have hne : r.registry ≠ [] := by
    intro hnil
    have hlooks := h.registry
    rw [hnil] at hlooks
    cases hlooks
  obtain ⟨c, cs, hreg⟩ := List.exists_cons_of_ne_nil hne
  have hhead : (r.spell spelling).head? = r.registry.head? := by
    rw [spell, hreg]
    rfl
  have hwhole : r.spell spelling = r.spell [] ++ spelling := by
    rw [spell, spell, List.append_nil, List.append_assoc, List.cons_append]
  have hat : '@' ∉ r.spell [] := by
    rw [spell, List.append_nil, List.mem_append, List.mem_cons, not_or, not_or]
    exact ⟨h.selects, by decide, h.not_mem_repository (by decide) (by decide)⟩
  refine Reference.fromStr_eq_ok.mpr ⟨?_, ?_, ?_, r.spell [], ?_, ?_, h.validateRepo, ?_⟩
  · rw [spell, hreg]
    exact List.cons_ne_nil _ _
  · rw [hhead, hreg]
    intro hc
    have hmem : '/' ∈ r.registry := List.mem_of_mem_head? (by rw [hreg]; exact hc)
    exact h.component hmem
  · rw [hhead]
    exact h.rooted
  · rw [hwhole]
    exact Reference.splitSelector_append hs hat h.colon
  · rw [Reference.splitRegistry, spell, List.append_nil, splitOnce_eq_some.mpr ⟨rfl, h.component⟩]
    simp only [h.registry, if_true]
  · cases hkind : r.selector with
    | tag tag =>
      rw [hkind] at hs
      exact hs.1
    | digest digest => rfl

/-- **The texts that are accepted as a remote**: its registry and repository are
    allowed, and one of its selector's spellings is behind them. -/
theorem new_eq_some {value : Text} {r : Remote} :
    new value = some r ↔ r.Wellformed ∧ ∃ spelling, Spelled r.selector spelling ∧
      value = r.spell spelling := by
  constructor
  · intro h
    obtain ⟨⟨registry, rest⟩, hparts, h⟩ := Option.bind_eq_some_iff.mp h
    split at h
    · rename_i hallowed
      obtain ⟨parsed, hparsed, h⟩ := Option.bind_eq_some_iff.mp h
      split at h
      · rename_i hchecks
        cases h
        obtain ⟨hregistry, hrepository⟩ := hchecks
        have hsame : parsed.registry = registry := hregistry
        rw [← hsame] at hparts
        have hread : Reference.fromStr value = .ok parsed := except_toOption_eq_some.mp hparsed
        obtain ⟨hlooks, hat, hrooted, spelling, hspelled, hvalue⟩ := fromStr_spelled hparts hread
        refine ⟨⟨?_, hlooks, (splitOnce_eq_some.mp hparts).2, hat, hrooted, ?_⟩, spelling,
          hspelled, hvalue⟩
        · rw [hsame]
          exact hallowed
        · exact List.all_eq_true.mp hrepository
      · cases h
    · cases h
  · rintro ⟨hwell, spelling, hspelled, rfl⟩
    have hsplit : splitOnce '/' (r.spell spelling) = some (r.registry, r.repository ++ spelling) :=
      splitOnce_eq_some.mpr ⟨rfl, hwell.component⟩
    rw [new, hsplit, Option.bind_eq_bind, Option.bind_some, if_pos hwell.allowed,
      hwell.fromStr_spell hspelled]
    exact if_pos ⟨rfl, List.all_eq_true.mpr hwell.repository⟩

/-! The displayed form. -/

/-- The spelling of a selector that is displayed. -/
def shown : Selector → Text
  | .tag tag => ':' :: tag
  | .digest digest => '@' :: Digest.toString ⟨digest⟩

theorem toString_eq (r : Remote) : r.toString = r.spell (shown r.selector) := by
  rw [toString, spell, List.append_assoc, List.cons_append]
  cases r.selector <;> rfl

/-- Where a selector has a spelling, it has the displayed one. -/
theorem spelled_shown {kind : Selector} {spelling : Text} (h : Spelled kind spelling) :
    Spelled kind (shown kind) := by
  cases kind with
  | tag tag => exact ⟨h.1, .inl rfl⟩
  | digest digest => exact ⟨Digest.toString ⟨digest⟩, rfl, Digest.fromStr_toString _⟩

/-- **What is displayed is accepted again**, as the same reference. -/
theorem new_toString {value : Text} {r : Remote} (h : new value = some r) :
    new r.toString = some r := by
  obtain ⟨hwell, spelling, hspelled, -⟩ := new_eq_some.mp h
  exact new_eq_some.mpr ⟨hwell, shown r.selector, spelled_shown hspelled, toString_eq r⟩

/-- The texts that name a remote: the displayed one, the one without a tag for
    `latest`, and the ones with letters of the digest's digits in upper case. -/
def Names (r : Remote) (value : Text) : Prop :=
  value = r.toString ∨ (r.selector = .tag latest ∧ value ++ ':' :: latest = r.toString) ∨
    ∃ digest digits, r.selector = .digest digest ∧ digits.map Char.toLower = Digest.hex ⟨digest⟩ ∧
      value = r.registry ++ '/' :: (r.repository ++ '@' :: (Digest.algorithm ++ digits))

theorem names_iff {r : Remote} {spelling : Text} (h : Spelled r.selector spelling) (value : Text) :
    r.Names value ↔ ∃ spelling, Spelled r.selector spelling ∧ value = r.spell spelling := by
  have hlatest : ∀ value : Text, r.selector = .tag latest →
      (value ++ ':' :: latest = r.toString ↔ value = r.spell []) := by
    intro value hkind
    have hshown : r.toString = r.spell [] ++ ':' :: latest := by
      rw [toString_eq, hkind, spell, spell, shown, List.append_nil, List.append_assoc,
        List.cons_append]
    rw [hshown, List.append_left_inj]
  constructor
  · intro hnames
    rcases hnames with hvalue | ⟨hkind, hvalue⟩ | ⟨digest, digits, hkind, hdigits, hvalue⟩
    · exact ⟨shown r.selector, spelled_shown h, hvalue.trans (toString_eq r)⟩
    · rw [hkind] at h ⊢
      exact ⟨[], ⟨h.1, .inr ⟨rfl, rfl⟩⟩, (hlatest value hkind).mp hvalue⟩
    · rw [hkind]
      exact ⟨'@' :: (Digest.algorithm ++ digits), ⟨_, rfl,
        Digest.fromStr_eq_ok.mpr ⟨digits, rfl, hdigits⟩⟩, hvalue⟩
  · rintro ⟨other, hother, rfl⟩
    cases hkind : r.selector with
    | tag tag =>
      rw [hkind] at hother
      obtain ⟨-, rfl | ⟨rfl, rfl⟩⟩ := hother
      · exact .inl (by rw [toString_eq, hkind, shown])
      · exact .inr (.inl ⟨hkind, (hlatest _ hkind).mpr rfl⟩)
    | digest digest =>
      rw [hkind] at hother
      obtain ⟨text, rfl, hdigest⟩ := hother
      obtain ⟨digits, rfl, hdigits⟩ := Digest.fromStr_eq_ok.mp hdigest
      exact .inr (.inr ⟨digest, digits, hkind, hdigits, rfl⟩)

/-- **The texts accepted as one remote.** -/
theorem new_eq_some_iff_names {value other : Text} {r : Remote} (h : new value = some r) :
    new other = some r ↔ r.Names other := by
  obtain ⟨hwell, spelling, hspelled, -⟩ := new_eq_some.mp h
  rw [names_iff hspelled, new_eq_some, and_iff_right hwell]

/-- A remote has a slash, and a stage has none. -/
theorem stageRef_isNone_or (value : Text) :
    (StageRef.new value).isNone ∨ (new value).isNone := by
  by_cases hslash : '/' ∈ value
  · refine .inl (Option.isNone_iff_eq_none.mpr (dif_neg ?_))
    intro h
    exact absurd (List.all_eq_true.mp h.2.2.2 '/' hslash) (by decide)
  · right
    rw [new, splitOnce_eq_none.mpr hslash]
    rfl

theorem isLocalhost_of_registry {r : Remote} {port : Text}
    (h : r.registry.map Char.toLower = localhost ∨
    r.registry.map Char.toLower = localhost ++ ':' :: port) :
    r.isLocalhost = true := by
  have hcase : (fun c => decide (c ≠ ':')) ∘ Char.toLower = fun c => decide (c ≠ ':') := by
    funext c
    exact decide_eq_decide.mpr (not_congr Text.toLower_eq_colon)
  have hhost : (r.registry.takeWhile (· ≠ ':')).map Char.toLower =
      (r.registry.map Char.toLower).takeWhile (· ≠ ':') := by
    rw [List.takeWhile_map, hcase]
  rw [isLocalhost, hhost, decide_eq_true_eq]
  rcases h with h | h
  · rw [h]
    rfl
  · rw [h]
    rfl

end Remote

theorem ImageRef.tryFrom_remote {value : Text} {r : Remote}
    (h : ImageRef.tryFrom value = .ok (.remote r)) :
    Remote.new value = some r ∧ r.isLocalhost = false := by
  rw [ImageRef.tryFrom] at h
  cases hstage : StageRef.new value with
  | some name =>
    rw [hstage] at h
    cases h
  | none =>
    cases hnew : Remote.new value with
    | none =>
      rw [hstage, hnew] at h
      cases h
    | some found =>
      simp only [hstage, hnew] at h
      split at h
      · cases h
      · rename_i hlocal
        cases h
        exact ⟨rfl, Bool.eq_false_iff.mpr hlocal⟩

/-- **A remote's displayed form names it.** What is displayed is accepted again as
    the same remote, and two remotes that display alike are one. The other texts
    accepted as it leave out the tag `latest` or have upper case letters in its
    digest. No text names both a stage and a remote, and the remote of an image
    reference has no registry that is localhost, in any case and with any port. -/
theorem reference_canonical :
    (∀ value r, Remote.new value = some r → Remote.new r.toString = some r) ∧
      (∀ value value' r r', Remote.new value = some r → Remote.new value' = some r' →
        r.toString = r'.toString → r = r') ∧
      (∀ value r, Remote.new value = some r → ∀ other, Remote.new other = some r ↔ r.Names other) ∧
      (∀ value, (StageRef.new value).isNone ∨ (Remote.new value).isNone) ∧
      ∀ value r, ImageRef.tryFrom value = .ok (.remote r) →
        r.registry.map Char.toLower ≠ localhost ∧
          ∀ port, r.registry.map Char.toLower ≠ localhost ++ ':' :: port := by
  refine ⟨fun value r h => Remote.new_toString h, ?_, fun value r h other =>
    Remote.new_eq_some_iff_names h, Remote.stageRef_isNone_or, ?_⟩
  · intro value value' r r' h h' hshown
    have hr := Remote.new_toString h
    rw [hshown, Remote.new_toString h'] at hr
    exact (Option.some.inj hr).symm
  · intro value r h
    obtain ⟨-, hlocal⟩ := ImageRef.tryFrom_remote h
    refine ⟨fun hhost => ?_, fun port hhost => ?_⟩
    · have htrue : r.isLocalhost = true := @Remote.isLocalhost_of_registry r [] (.inl hhost)
      rw [hlocal] at htrue
      cases htrue
    · have htrue := Remote.isLocalhost_of_registry (.inr hhost)
      rw [hlocal] at htrue
      cases htrue

/-- A registry and repository with a digest of one repeated digit behind them. -/
def pinned (digit : Char) : Text := "r.io/a@sha256:".toList ++ List.replicate 64 digit

/-- The digest of either case is one reference, and neither text is the other with
    its tag written out. -/
theorem digest_case_coincides :
    (Remote.new (pinned 'A')).isSome = true ∧ Remote.new (pinned 'A') = Remote.new (pinned 'a') ∧
      pinned 'A' ≠ pinned 'a' ∧ pinned 'A' ≠ pinned 'a' ++ ':' :: latest ∧
        pinned 'a' ≠ pinned 'A' ++ ':' :: latest := by
  decide +kernel

theorem reference_canonical_sample :
    ∃ r, Remote.new (pinned 'a') = some r ∧ Remote.new r.toString = some r ∧
      r.Names (pinned 'A') := by
  have hsome : (Remote.new (pinned 'a')).isSome = true := by decide +kernel
  have hsame : Remote.new (pinned 'A') = Remote.new (pinned 'a') := by decide +kernel
  obtain ⟨r, hr⟩ := Option.isSome_iff_exists.mp hsome
  refine ⟨r, hr, reference_canonical.1 (pinned 'a') r hr, ?_⟩
  exact (reference_canonical.2.2.1 (pinned 'a') r hr (pinned 'A')).mp (hsame.trans hr)

end Conglobate.Plan
