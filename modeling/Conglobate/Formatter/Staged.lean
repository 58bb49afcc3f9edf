import Conglobate.Formatter.Stage

/- What staging a formatter leaves (`formatter/staged.rs`).

   What is proved:
     1. `inRoot_locate` — without links, the kernel's walk ends where names lead;
     2. `stageFile_triple` — a file is written where its path leads, and nothing that was
        there changes;
     3. `stageAll_triple` — the directory then has the captured files and the directories
        they need, and nothing else (`Holds`); and where no call is refused, the paths are
        plain and none is in `dev`, staging does not fail.

   The second half of the third needs that no captured file is above another. -/
namespace Conglobate.Formatter

open Isolation.Shell (Files Node Errno)
open Copy (dotName dotdotName)
open Effect

/-! Trees without links. -/

section Trees
variable {t : Files} {here names : List Bytes} {name : Bytes}

def Linkless (t : Files) : Prop := ∀ path target, t.get? path ≠ some (.symlink target)

/-- What has something below is a directory. -/
theorem isDirectory_of_below (h : t.get? (here ++ names) ≠ none) (hne : names ≠ []) :
    t.isDirectory here = true := by
  induction names using List.reverseRecOn with
  | nil => exact absurd rfl hne
  | append_singleton front name ih =>
    rw [← List.append_assoc] at h
    have habove := t.parents (here ++ front) name h
    by_cases hfront : front = []
    · rw [hfront, List.append_nil] at habove
      rw [Files.isDirectory, Bool.or_eq_true, decide_eq_true_eq]
      exact habove
    · apply ih _ hfront
      obtain hnil | hdirectory := habove
      · exact absurd (List.append_eq_nil_iff.mp hnil).2 hfront
      · intro hnone
        rw [show t.entries.get? (here ++ front) = none from hnone] at hdirectory
        cases hdirectory

/-- **Without links, a walk ends where the names lead.** -/
theorem inRoot_locate (h : Linkless t) {links : Nat} {there at' : List Bytes}
    (hwalk : t.inRoot links here names = .ok there) (hlocate : locate here names = some at') :
    there = at' := by
  induction names generalizing here with
  | nil =>
    rw [Files.inRoot] at hwalk
    cases hwalk
    cases hlocate
    rfl
  | cons name rest ih =>
    rw [Files.inRoot] at hwalk
    rw [locate] at hlocate
    split at hwalk
    · cases hwalk
    · split at hwalk
      · rename_i hdot
        rw [if_pos hdot] at hlocate
        exact ih hwalk hlocate
      · rename_i hdot
        rw [if_neg hdot] at hlocate
        split at hwalk
        · rename_i hdotdot
          rw [if_pos hdotdot] at hlocate
          by_cases hhere : here = []
          · rw [if_pos hhere] at hlocate
            cases hlocate
          · rw [if_neg hhere] at hlocate
            exact ih hwalk hlocate
        · rename_i hdotdot
          rw [if_neg hdotdot] at hlocate
          split at hwalk
          · cases hwalk
          · rename_i target hlink
            exact absurd hlink (h _ _)
          · exact ih hwalk hlocate

/-- **A walk along plain names** to something that is there. -/
theorem inRoot_plain (h : Linkless t) (hplain : PlainNames names)
    (hhere : t.isDirectory here = true)
    (hthere : t.isDirectory (here ++ names) = true ∨ t.get? (here ++ names) ≠ none) (links : Nat) :
    t.inRoot links here names = .ok (here ++ names) := by
  induction names generalizing here with
  | nil => rw [Files.inRoot, List.append_nil]
  | cons name rest ih =>
    obtain ⟨⟨hdot, hdotdot⟩, hrest⟩ := List.forall_mem_cons.mp hplain
    have hsome : t.get? (here ++ name :: rest) ≠ none := by
      obtain hdirectory | hsome := hthere
      · obtain hnil | ⟨mode, hmode⟩ := Files.isDirectory_iff.mp hdirectory
        · exact absurd (List.append_eq_nil_iff.mp hnil).2 (List.cons_ne_nil _ _)
        · rw [hmode]
          exact Option.some_ne_none _
      · exact hsome
    have happend : here ++ name :: rest = (here ++ [name]) ++ rest := by simp
    rw [happend] at hsome hthere ⊢
    -- the next name is there, and a directory if more names follow
    have hnext : t.get? (here ++ [name]) ≠ none := by
      by_cases hnil : rest = []
      · rw [hnil, List.append_nil] at hsome
        exact hsome
      · obtain hnil' | ⟨mode, hmode⟩ := Files.isDirectory_iff.mp (isDirectory_of_below hsome hnil)
        · exact absurd (List.append_eq_nil_iff.mp hnil').2 (List.cons_ne_nil _ _)
        · rw [hmode]
          exact Option.some_ne_none _
    rw [Files.inRoot, if_neg (by rw [hhere]; decide), if_neg hdot, if_neg hdotdot]
    have hgo : t.inRoot links (here ++ [name]) rest = .ok ((here ++ [name]) ++ rest) := by
      by_cases hnil : rest = []
      · rw [hnil, Files.inRoot, List.append_nil]
      · exact ih hrest (isDirectory_of_below hsome hnil) hthere
    split
    · rename_i hnone
      exact absurd hnone hnext
    · rename_i target hlink
      exact absurd hlink (h _ _)
    · exact hgo

end Trees

/-! What the directory holds. -/

def placed (file : FormatterFile) : Node := .file file.bytes file.mode

/-- A directory that some captured file is in, or the device's. -/
def Needed (files : Runtime) (there : List Bytes) : Prop :=
  there = [dev] ∨ ∃ p ∈ files.keys, ∃ above, above <+: p.names ∧ above ≠ p.names ∧
    locate [] above = some there

/-- The files of a front are written, and there are directories that are needed, and nothing else. -/
structure Holds (files : Runtime) (front : List (ContextPath × FormatterFile)) (t : Files) :
    Prop where
  distinct : (front.map fun e => e.1.location).Nodup
  written : ∀ e ∈ front, t.get? e.1.location = some (placed e.2)
  only : ∀ there node, t.get? there = some node →
    (∃ e ∈ front, there = e.1.location ∧ node = placed e.2) ∨ node.isDirectory = true ∧
      Needed files there

/-- Staging that cannot fail: no call is refused, and no name leads up or into `dev`. -/
structure Sound (k : Kernel) (files : Runtime) : Prop where
  fault : ∀ n, k.fault n = none
  plain : ∀ p ∈ files.keys, PlainNames p.names
  dev : ∀ p ∈ files.keys, p.names.head? ≠ some Formatter.dev

variable {k : Kernel} {files : Runtime} {front : List (ContextPath × FormatterFile)} {t : Files}
    {w : World}

def In (files : Runtime) (front : List (ContextPath × FormatterFile)) (w : World) : Prop :=
  ∃ t, w.backing = some t ∧ Holds files front t

/-- A failure keeps the directory, and has a reason. -/
def Failed (k : Kernel) (files : Runtime) (w : World) :
    Prop := (∃ t, w.backing = some t) ∧ ¬ Sound k files

theorem Holds.linkless (h : Holds files front t) : Linkless t := by
  intro path target hlink
  obtain ⟨e, -, -, hnode⟩ | ⟨hdirectory, -⟩ := h.only path _ hlink
  · cases hnode
  · cases hdirectory

theorem location_of_plain {p : ContextPath} (h : PlainNames p.names) : p.location = p.names := by
  have hlocate := p.locate_names.1
  rw [locate_plain h, List.nil_append] at hlocate
  exact (Option.some.inj hlocate).symm

theorem plain_above {a b : List Bytes} (h : PlainNames b) (hbelow : a <+: b) : PlainNames a :=
  fun name hname => h name (hbelow.subset hname)

/-- Above a captured file there are directories only. -/
theorem Holds.directory (h : Holds files front t) (hsound : Sound k files) (hapart : Apart files)
    (hfront : ∀ e ∈ front, e.1 ∈ files.keys) {p : ContextPath} (hp : p ∈ files.keys)
    {above : List Bytes} (habove : above <+: p.names) (hne : above ≠ p.names)
    (hsome : t.get? above ≠ none) : t.isDirectory above = true := by
  obtain ⟨node, hnode⟩ := Option.ne_none_iff_exists'.mp hsome
  obtain ⟨e, he, hlocation, -⟩ | ⟨hdirectory, -⟩ := h.only above node hnode
  · have hkey := hfront e he
    rw [location_of_plain (hsound.plain e.1 hkey)] at hlocation
    have hsame := hapart e.1 hkey p hp (hlocation ▸ habove)
    exact absurd (hlocation.trans (congrArg ContextPath.names hsame)) hne
  · rw [Files.isDirectory, hnode, Option.any_some, hdirectory, Bool.or_true]

/-! Calls. -/

theorem call_triple {P : World → Prop} {E : IoError → World → Prop}
    (hP : ∀ w n, P w → P { w with calls := n })
    (hE : ∀ e w, P w → (∃ n, k.fault n ≠ none) → E e w) : Triple P (call k) (fun _ => P) E := by
  intro w hw
  have hnext := hP w (w.calls + 1) hw
  unfold call
  split
  · rename_i e hfault
    refine ⟨fun a s' hrun => (by cases hrun), fun e' s' hrun => ?_⟩
    cases hrun
    exact hE _ _ hnext ⟨w.calls, by rw [hfault]; exact Option.some_ne_none _⟩
  · refine ⟨fun a s' hrun => ?_, fun e' s' hrun => by cases hrun⟩
    cases hrun
    exact hnext

theorem failed_of_fault (h : w.backing = some t) (hfault : ∃ n, k.fault n ≠ none) :
    Failed k files w := by
  obtain ⟨n, hn⟩ := hfault
  exact ⟨⟨t, h⟩, fun hsound => hn (hsound.fault n)⟩

theorem vacant_eq_ok {dots : Errno} {names above : List Bytes} {name : Bytes}
    (h : vacant dots t names = .ok (above, name)) :
    names = names.dropLast ++ [name] ∧ t.inRoot 0 [] names.dropLast = .ok above ∧
      t.isDirectory above = true ∧
      name ≠ dotName ∧ name ≠ dotdotName ∧ t.get? (above ++ [name]) = none := by
  unfold vacant at h
  split at h
  · cases h
  · rename_i last hlast
    split at h
    · cases h
    · rename_i there hthere
      split at h
      · cases h
      · rename_i hdirectory
        split at h
        · cases h
        · rename_i hdots
          rw [not_or] at hdots
          split at h
          · cases h
          · rename_i hnone
            cases h
            refine ⟨?_, hthere, Bool.not_eq_false _ ▸ hdirectory, hdots.1,
              hdots.2, by simpa using hnone⟩
            obtain ⟨front, rfl⟩ := List.getLast?_eq_some_iff.mp hlast
            rw [List.dropLast_concat]

/-- **A new object goes where its names lead.** -/
theorem vacant_location (hlinkless : Linkless t) {dots : Errno} {names above there : List Bytes}
    {name : Bytes} (h : vacant dots t names = .ok (above, name))
    (hlocate : locate [] names = some there) : there = above ++ [name] := by
  obtain ⟨hnames, hwalk, -, hdot, hdotdot, -⟩ := vacant_eq_ok h
  rw [hnames, locate_append] at hlocate
  obtain ⟨mid, hmid, hlast⟩ := Option.bind_eq_some_iff.mp hlocate
  rw [inRoot_locate hlinkless hwalk hmid]
  rw [locate, if_neg hdot, if_neg hdotdot, locate] at hlast
  exact (Option.some.inj hlast).symm

/-- What a call that makes an object leaves. -/
theorem makeNode_triple {dots : Errno} {names : List Bytes} {node : Node} {start : Files} :
    Triple (fun w => w.backing = some start) (makeNode k dots names node)
      (fun there w => ∃ above name, vacant dots start names = .ok (above, name) ∧
        there = above ++ [name] ∧ w.backing = some (start.create above name node))
      (fun e w => w.backing = some start ∧
        ((∃ n, k.fault n ≠ none) ∨ ∃ errno, vacant dots start names = .error errno ∧
          e = errnoError errno)) := by
  refine Triple.bind (Q := fun _ w => w.backing = some start)
    (call_triple (fun _ _ h => h) fun e w hw hfault => ⟨hw, .inl hfault⟩) fun _ => ?_
  refine Triple.bind (Q := fun s w => s = w ∧ w.backing = some start)
    (Triple.get fun w hw => ⟨rfl, hw⟩) fun s => ?_
  refine Triple.of_state fun w hw => ?_
  obtain ⟨rfl, hbacking⟩ := hw
  have htree : s.tree = start := by rw [World.tree, hbacking]; rfl
  rw [htree]
  cases hvacant : vacant dots start names with
  | error errno => exact Triple.throw fun w hw => ⟨hw ▸ hbacking, .inr ⟨errno, rfl, rfl⟩⟩
  | ok place =>
    refine Triple.bind (Q := fun _ w => w.backing = some (start.create place.1 place.2 node))
      (Triple.set fun w hw => rfl) fun _ => ?_
    exact Triple.pure fun w hw => ⟨place.1, place.2, rfl, rfl, hw⟩

/-! Directories. -/

/-- **A walk along plain names** that meets nothing but directories, to what is not there. -/
theorem inRoot_missing (h : Linkless t) {here names : List Bytes} (hplain : PlainNames names)
    (hhere : t.isDirectory here = true)
    (hdirectories : ∀ above, above <+: names → t.get? (here ++ above) ≠ none →
    t.isDirectory (here ++ above) = true) (hnames : names ≠ [])
    (hnone : t.get? (here ++ names) = none) (links : Nat) :
    t.inRoot links here names = .error .noent := by
  induction names generalizing here with
  | nil => exact absurd rfl hnames
  | cons name rest ih =>
    obtain ⟨⟨hdot, hdotdot⟩, hrest⟩ := List.forall_mem_cons.mp hplain
    rw [Files.inRoot, if_neg (by rw [hhere]; decide), if_neg hdot, if_neg hdotdot]
    have happend : ∀ more, here ++ name :: more = (here ++ [name]) ++ more := fun more => by simp
    split
    · rfl
    · rename_i target hlink
      exact absurd hlink (h _ _)
    · rename_i node hnode hother
      apply ih hrest
      · apply hdirectories [name] (List.prefix_append [name] rest)
        rw [hother]
        exact Option.some_ne_none _
      · intro above habove hsome
        rw [← happend] at hsome ⊢
        exact hdirectories (name :: above) (List.prefix_cons_inj name |>.mpr habove) hsome
      · rintro rfl
        rw [hother] at hnone
        cases hnone
      · rw [← happend]
        exact hnone

/-- A directory, as the kernel finds it. -/
def Leads (t : Files) (names : List Bytes) : Prop :=
  ∃ there, t.inRoot 0 [] names = .ok there ∧ t.isDirectory there = true

theorem isDir_triple {names : List Bytes} {start : Files} :
    Triple (fun w => w.backing = some start) (isDir k names)
      (fun found w => w.backing = some start ∧ (found = true → Leads start names) ∧
        (found = false → (∃ n, k.fault n ≠ none) ∨ ¬ Leads start names)) (fun _ _ => False) := by
  intro w hw
  have htree : w.tree = start := by rw [World.tree, hw]; rfl
  unfold isDir
  rw [htree]
  split
  · rename_i e hfault
    refine ⟨fun a s' hrun => ?_, fun e' s' hrun => by cases hrun⟩
    cases hrun
    exact ⟨hw, fun hfalse => (by cases hfalse), fun _ => .inl
      ⟨w.calls, by rw [hfault]; exact Option.some_ne_none _⟩⟩
  · split
    · rename_i errno hwalk
      refine ⟨fun a s' hrun => ?_, fun e' s' hrun => by cases hrun⟩
      cases hrun
      refine ⟨hw, fun hfalse => (by cases hfalse), fun _ => .inr fun hleads => ?_⟩
      obtain ⟨there, hthere, -⟩ := hleads
      rw [hwalk] at hthere
      cases hthere
    · rename_i there hwalk
      refine ⟨fun a s' hrun => ?_, fun e' s' hrun => by cases hrun⟩
      cases hrun
      refine ⟨hw, fun hfound => ⟨there, hwalk, hfound⟩, fun hmissing => .inr fun hleads => ?_⟩
      obtain ⟨there', hthere', hdirectory⟩ := hleads
      rw [hwalk] at hthere'
      cases hthere'
      rw [hmissing] at hdirectory
      cases hdirectory

theorem unlessDir_triple {names : List Bytes} {start : Files} {e : IoError} :
    Triple (fun w => w.backing = some start) (unlessDir k names e)
      (fun _ w => w.backing = some start ∧ Leads start names)
      (fun _ w => w.backing = some start ∧ ((∃ n, k.fault n ≠ none) ∨ ¬ Leads start names)) := by
  refine Triple.bind (isDir_triple.imp (fun _ h => h) (fun _ _ h => h) fun _ _ h =>
    h.elim) fun found => ?_
  refine Triple.ite (fun hfound => Triple.pure fun w hw => ?_) fun hmissing =>
    Triple.throw fun w hw => ?_
  · exact ⟨hw.1, hw.2.1 hfound⟩
  · exact ⟨hw.1, hw.2.2 (Bool.not_eq_true _ ▸ hmissing)⟩

section Above
variable {p : ContextPath} {names : List Bytes}

/-- What is above a captured file leads somewhere, and the directory there is needed. -/
theorem located_above (hp : p ∈ files.keys) (habove : names <+: p.names) (hne : names ≠ p.names) :
    ∃ there, locate [] names = some there ∧ Needed files there := by
  obtain ⟨rest, hrest⟩ := habove
  have hlocate := p.locate_names.1
  rw [← hrest, locate_append] at hlocate
  obtain ⟨there, hthere, -⟩ := Option.bind_eq_some_iff.mp hlocate
  exact ⟨there, hthere, .inr ⟨p, hp, names, ⟨rest, hrest⟩, hne, hthere⟩⟩

/-- There is a directory, as names without links lead. -/
theorem Holds.leads_iff (h : Holds files front t) (hsound : Sound k files) (hp : p ∈ files.keys)
    (habove : names <+: p.names) :
    Leads t names ↔ t.isDirectory names = true := by
  have hplain := plain_above (hsound.plain p hp) habove
  refine ⟨fun hleads => ?_, fun hdirectory => ⟨names, ?_, hdirectory⟩⟩
  · obtain ⟨there, hthere, hdirectory⟩ := hleads
    have hsame := inRoot_locate h.linkless hthere (locate_plain hplain [])
    rw [List.nil_append] at hsame
    rw [← hsame]
    exact hdirectory
  · have hwalk := inRoot_plain h.linkless hplain (Files.isDirectory_iff.mpr (.inl rfl))
      (.inl hdirectory) 0
    rw [List.nil_append] at hwalk
    exact hwalk

/-- **Where making a directory fails**, it is there, or the one above is not. -/
theorem Holds.vacant_error (h : Holds files front t) (hsound : Sound k files) (hapart : Apart files)
    (hfront : ∀ e ∈ front, e.1 ∈ files.keys) (hp : p ∈ files.keys) {above : List Bytes}
    {name : Bytes} (habove : above ++ [name] <+: p.names) (hne : above ++ [name] ≠ p.names)
    {errno : Errno} (hvacant : vacant .exist t (above ++ [name]) = .error errno) :
    t.isDirectory (above ++ [name]) = true ∨ errno = .noent ∧ t.isDirectory above ≠ true := by
  have hplain := plain_above (hsound.plain p hp) habove
  have hshort : above <+: p.names := (List.prefix_append above [name]).trans habove
  have hproper : ∀ other, other <+: above → other ≠ p.names := by
    intro other hother heq
    have hlength := habove.length_le
    have hless := hother.length_le
    rw [heq] at hless
    rw [List.length_append, List.length_singleton] at hlength
    omega
  have hdots := hplain name (by simp)
  by_cases hdirectory : t.isDirectory above = true
  · left
    have hwalk := inRoot_plain h.linkless (plain_above hplain (List.prefix_append above [name]))
      (Files.isDirectory_iff.mpr (.inl rfl)) (.inl hdirectory) 0
    rw [List.nil_append] at hwalk
    apply h.directory hsound hapart hfront hp habove hne
    intro hnone
    rw [vacant, List.getLast?_concat, List.dropLast_concat] at hvacant
    simp [hwalk, hdirectory, hdots.1, hdots.2, hnone] at hvacant
  · right
    refine ⟨?_, hdirectory⟩
    have hnone : t.get? above = none := by
      by_contra hsome
      exact hdirectory (h.directory hsound hapart hfront hp hshort
        (hproper above (List.prefix_refl _)) hsome)
    have hwalk : t.inRoot 0 [] above = .error .noent := by
      apply inRoot_missing h.linkless (plain_above hplain (List.prefix_append above [name]))
        (Files.isDirectory_iff.mpr (.inl rfl))
      · intro other hother hsome
        rw [List.nil_append] at hsome ⊢
        exact h.directory hsound hapart hfront hp (hother.trans hshort) (hproper other hother) hsome
      · rintro rfl
        exact hdirectory (Files.isDirectory_iff.mpr (.inl rfl))
      · exact hnone
    rw [vacant, List.getLast?_concat, List.dropLast_concat] at hvacant
    simp only [hwalk] at hvacant
    exact (Except.error.inj hvacant).symm

end Above

/-- A needed directory more. -/
theorem Holds.create (h : Holds files front t) {above : List Bytes} {name : Bytes} {mode : Nat}
    (hdirectory : t.isDirectory above = true) (hnone : t.get? (above ++ [name]) = none)
    (hneeded : Needed files (above ++ [name])) :
    Holds files front (t.create above name (.directory mode)) where
  distinct := h.distinct
  written := by
    intro e he
    have hthere := h.written e he
    rw [Files.get?_create hdirectory hnone, if_neg]
    · exact hthere
    · intro heq
      rw [heq, hnone] at hthere
      cases hthere
  only := by
    intro there node hnode
    rw [Files.get?_create hdirectory hnone] at hnode
    split at hnode
    · rename_i heq
      cases hnode
      exact .inr ⟨rfl, heq ▸ hneeded⟩
    · exact h.only there node hnode

/-- In a tree with what was written so far, a directory is there, where staging cannot fail. -/
def Directed (k : Kernel) (files : Runtime) (front : List (ContextPath × FormatterFile))
    (names : List Bytes) (w : World) : Prop :=
  ∃ t, w.backing = some t ∧ Holds files front t ∧ (Sound k files → t.isDirectory names = true)

theorem mkdir_triple (h : Holds files front t) {names there : List Bytes}
    (hlocate : locate [] names = some there) (hneeded : Needed files there) :
    Triple (fun w => w.backing = some t) (mkdir k names)
      (fun _ w => ∃ t', w.backing = some t' ∧ Holds files front t' ∧ t'.isDirectory there = true)
      (fun e w => w.backing = some t ∧
        ((∃ n, k.fault n ≠ none) ∨ ∃ errno, vacant .exist t names = .error errno ∧
          e = errnoError errno)) := by
  refine Triple.bind makeNode_triple fun made => Triple.pure fun w hw => ?_
  obtain ⟨above, name, hvacant, -, hbacking⟩ := hw
  obtain ⟨-, -, hdirectory, -, -, hnone⟩ := vacant_eq_ok hvacant
  have hthere := vacant_location h.linkless hvacant hlocate
  refine ⟨_, hbacking, h.create hdirectory hnone (hthere ▸ hneeded), ?_⟩
  rw [Files.isDirectory, hthere, Files.get?_create hdirectory hnone, if_pos rfl, Option.any_some]
  exact Bool.or_true _

section Loop
variable {p : ContextPath}

/-- A directory that could not be made, but was there already. -/
theorem unlessDir_directed (h : Holds files front t) (hp : p ∈ files.keys) {names : List Bytes}
    (habove : names <+: p.names) {e : IoError}
    (hthere : Sound k files → t.isDirectory names = true) :
    Triple (fun w => w.backing = some t) (unlessDir k names e)
      (fun _ => Directed k files front names) (fun _ => Failed k files) := by
  refine unlessDir_triple.imp (fun _ hw => hw) (fun _ w hw => ?_) fun _ w hw => ?_
  · exact ⟨t, hw.1, h, fun hsound => (h.leads_iff hsound hp habove).mp hw.2⟩
  · refine ⟨⟨t, hw.1⟩, fun hsound => ?_⟩
    obtain ⟨n, hfault⟩ | hleads := hw.2
    · exact hfault (hsound.fault n)
    · exact hleads ((h.leads_iff hsound hp habove).mpr (hthere hsound))

/-- A directory that is made, or else. -/
theorem mkdirOr_triple (h : Holds files front t) (hp : p ∈ files.keys) {names : List Bytes}
    (habove : names <+: p.names) (hne : names ≠ p.names) (hplain : Sound k files → PlainNames names)
    {fallback : IoError → Run Unit}
    (hfallback : ∀ e, ((∃ n, k.fault n ≠ none) ∨ ∃ errno, vacant .exist t names = .error errno ∧
    e = errnoError errno) →
      Triple (fun w => w.backing = some t) (fallback e) (fun _ => Directed k files front names)
        (fun _ => Failed k files)) :
    Triple (fun w => w.backing = some t) (mkdirOr k names fallback)
      (fun _ => Directed k files front names)
      (fun _ => Failed k files) := by
  obtain ⟨there, hlocate, hneeded⟩ := located_above hp habove hne
  refine Triple.bind (Triple.attempt (mkdir_triple h hlocate hneeded)) fun made => ?_
  cases made with
  | ok done =>
    refine Triple.pure fun w hw => ?_
    obtain ⟨t', hbacking, h', hdirectory⟩ := hw.1 () rfl
    refine ⟨t', hbacking, h', fun hsound => ?_⟩
    rw [locate_plain (hplain hsound), List.nil_append] at hlocate
    rw [Option.some.inj hlocate]
    exact hdirectory
  | error e =>
    refine Triple.of_state fun w₀ hw₀ => ?_
    obtain ⟨hbacking, hreason⟩ := hw₀.2 e rfl
    exact (hfallback e hreason).imp (fun w hw => hw ▸ hbacking) (fun _ _ hw => hw) fun _ _ hw => hw

/-- **The directories above a file** are made, or there already. -/
theorem createDirAll_triple (hapart : Apart files) (hfront : ∀ e ∈ front, e.1 ∈ files.keys)
    (hp : p ∈ files.keys) {names : List Bytes} (habove : names.reverse <+: p.names)
    (hne : names.reverse ≠ p.names) :
    Triple (In files front) (createDirAll k names) (fun _ => Directed k files front names.reverse)
      (fun _ => Failed k files) := by
  induction names with
  | nil =>
    refine Triple.of_state fun w₀ hw₀ => ?_
    obtain ⟨t, hbacking, h⟩ := hw₀
    rw [createDirAll]
    refine (mkdirOr_triple h hp habove hne (fun _ name hname => by cases hname) fun e _ => ?_).imp
      (fun w hw => hw ▸ hbacking) (fun _ _ hw => hw) fun _ _ hw => hw
    exact unlessDir_directed h hp habove fun _ => Files.isDirectory_iff.mpr (.inl rfl)
  | cons name above ih =>
    rw [List.reverse_cons] at habove hne
    have hplain : Sound k files → PlainNames (above.reverse ++ [name]) :=
      fun hsound => plain_above (hsound.plain p hp) habove
    have hshort : above.reverse <+: p.names := (List.prefix_append _ _).trans habove
    have hproper : above.reverse ≠ p.names := by
      intro heq
      have hlength := habove.length_le
      rw [← heq, List.length_append, List.length_singleton] at hlength
      omega
    refine Triple.of_state fun w₀ hw₀ => ?_
    obtain ⟨t, hbacking, h⟩ := hw₀
    rw [createDirAll, List.reverse_cons]
    refine (mkdirOr_triple h hp habove hne hplain fun e hreason => ?_).imp
      (fun w hw => hw ▸ hbacking) (fun _ _ hw => hw) fun _ _ hw => hw
    refine Triple.ite (fun hkind => ?_) fun hkind => ?_
    · -- the directory above is made first
      refine Triple.bind ((ih hshort hproper).imp (fun w hw => ⟨t, hw, h⟩) (fun _ _ hw =>
        hw) fun _ _ hw => hw) fun _ => ?_
      refine Triple.of_state fun w₁ hw₁ => ?_
      obtain ⟨t', hbacking', h', habove'⟩ := hw₁
      refine (mkdirOr_triple h' hp habove hne hplain fun e hreason => ?_).imp
        (fun w hw => hw ▸ hbacking') (fun _ _ hw => hw) fun _ _ hw => hw
      apply unlessDir_directed h' hp habove
      intro hsound
      obtain ⟨n, hfault⟩ | ⟨errno, hvacant, -⟩ := hreason
      · exact absurd (hsound.fault n) hfault
      · obtain hthere | ⟨-, hmissing⟩ := h'.vacant_error hsound hapart hfront hp habove hne hvacant
        · exact hthere
        · exact absurd (habove' hsound) hmissing
    · apply unlessDir_directed h hp habove
      intro hsound
      obtain ⟨n, hfault⟩ | ⟨errno, hvacant, hkind'⟩ := hreason
      · exact absurd (hsound.fault n) hfault
      · obtain hthere | ⟨hnoent, -⟩ := h.vacant_error hsound hapart hfront hp habove hne hvacant
        · exact hthere
        · rw [hkind', hnoent] at hkind
          exact absurd rfl hkind

end Loop

/-! Files. -/

/-- One file more is in a tree with what was written so far. -/
def Writing (files : Runtime) (front : List (ContextPath × FormatterFile)) (there : List Bytes)
    (bytes : Bytes) (mode : Nat) (w : World) : Prop :=
  ∃ t t', Holds files front t ∧ t.get? there = none ∧ w.backing = some t' ∧
    ∀ path, t'.get? path = if path = there then some (.file bytes mode) else t.get? path

section Files
variable {e : ContextPath × FormatterFile} {there : List Bytes} {bytes : Bytes} {mode : Nat}

/-- **Where a file can be written**: in a directory, at a place that no other file is at or below. -/
theorem Holds.vacant_file (h : Holds files front t) (hsound : Sound k files) (hapart : Apart files)
    (hfront : ∀ e ∈ front, e.1 ∈ files.keys) (hkey : e.1 ∈ files.keys)
    (hfresh : ∀ other ∈ front, other.1 ≠ e.1) (hdirectory : t.isDirectory e.1.names.dropLast = true)
    (errno : Errno) : vacant .other t e.1.names ≠ .error errno := by
  have hplain := hsound.plain e.1 hkey
  obtain ⟨above, name, hnames⟩ : ∃ above name, e.1.names = above ++ [name] :=
    ⟨_, _, (List.dropLast_append_getLast e.1.names_ne_nil).symm⟩
  have hnone : t.get? (above ++ [name]) = none := by
    by_contra hsome
    obtain ⟨node, hnode⟩ := Option.ne_none_iff_exists'.mp hsome
    obtain ⟨other, hother, hlocation, -⟩ | ⟨-, hneeded⟩ := h.only _ node hnode
    · rw [location_of_plain (hsound.plain other.1 (hfront other hother)), ← hnames] at hlocation
      exact hfresh other hother (ContextPath.names_injective hlocation.symm)
    · obtain hdev | ⟨p, hp, below, hbelow, hne, hlocate⟩ := hneeded
      · apply hsound.dev e.1 hkey
        rw [hnames, hdev]
        rfl
      · rw [locate_plain (plain_above (hsound.plain p hp) hbelow), List.nil_append] at hlocate
        rw [Option.some.inj hlocate, ← hnames] at hbelow hne
        exact hne (congrArg ContextPath.names (hapart e.1 hkey p hp hbelow))
  rw [hnames] at hdirectory hplain ⊢
  rw [List.dropLast_concat] at hdirectory
  have hdots := hplain name (by simp)
  have hwalk := inRoot_plain h.linkless (plain_above hplain (List.prefix_append above [name]))
    (Files.isDirectory_iff.mpr (.inl rfl)) (.inl hdirectory) 0
  rw [List.nil_append] at hwalk
  rw [vacant, List.getLast?_concat, List.dropLast_concat]
  simp [hwalk, hdirectory, hdots.1, hdots.2, hnone]

theorem createNew_triple (hapart : Apart files) (hfront : ∀ e ∈ front, e.1 ∈ files.keys)
    (hkey : e.1 ∈ files.keys) (hfresh : ∀ other ∈ front, other.1 ≠ e.1) :
    Triple (Directed k files front e.1.names.dropLast) (createNew k e.1.names)
      (fun there w => there = e.1.location ∧ Writing files front there [] 0o600 w)
        (fun _ => Failed k files) := by
  refine Triple.of_state fun w₀ hw₀ => ?_
  obtain ⟨t, hbacking, h, hdirected⟩ := hw₀
  refine makeNode_triple.imp (fun w hw => hw ▸ hbacking) (fun there w hw => ?_) fun errno w hw => ?_
  · obtain ⟨above, name, hvacant, hthere, hmade⟩ := hw
    obtain ⟨-, -, hdirectory, -, -, hnone⟩ := vacant_eq_ok hvacant
    refine ⟨hthere.trans (vacant_location h.linkless hvacant e.1.locate_names.1).symm, ?_⟩
    rw [hthere]
    exact ⟨t, _, h, hnone, hmade, fun path => Files.get?_create hdirectory hnone path⟩
  · refine ⟨⟨t, hw.1⟩, fun hsound => ?_⟩
    obtain ⟨n, hfault⟩ | ⟨errno, hvacant, -⟩ := hw.2
    · exact hfault (hsound.fault n)
    · exact h.vacant_file hsound hapart hfront hkey hfresh (hdirected hsound) errno hvacant

/-- Writing to the file changes nothing else. -/
theorem Writing.put (h : Writing files front there bytes mode w) (bytes' : Bytes) (mode' : Nat) :
    Writing files front there bytes' mode' (w.put there (.file bytes' mode')) := by
  obtain ⟨t, t', hholds, hnone, hbacking, hget⟩ := h
  have htree : w.tree = t' := by rw [World.tree, hbacking]; rfl
  refine ⟨t, _, hholds, hnone, rfl, fun path => ?_⟩
  rw [htree, Files.get?_change (by rw [hget, if_pos rfl]; rfl), hget]
  split <;> rfl

theorem Writing.failed (h : Writing files front there bytes mode w)
    (hfault : ∃ n, k.fault n ≠ none) : Failed k files w := by
  obtain ⟨t, t', -, -, hbacking, -⟩ := h
  exact failed_of_fault hbacking hfault

theorem writeAll_triple : Triple (Writing files front there [] 0o600) (writeAll k there bytes)
    (fun _ => Writing files front there bytes 0o600) (fun _ => Failed k files) := by
  intro w hw
  unfold writeAll
  split
  · rename_i e hfault
    refine ⟨fun a s' hrun => (by cases hrun), fun e' s' hrun => ?_⟩
    cases hrun
    exact (hw.put _ _).failed ⟨w.calls, by rw [hfault]; exact Option.some_ne_none _⟩
  · refine ⟨fun a s' hrun => ?_, fun e' s' hrun => by cases hrun⟩
    cases hrun
    exact hw.put _ _

theorem setPermissions_triple : Triple (Writing files front there bytes 0o600)
    (setPermissions k there bytes mode)
    (fun _ => Writing files front there bytes mode) (fun _ => Failed k files) := by
  intro w hw
  unfold setPermissions
  split
  · rename_i e hfault
    refine ⟨fun a s' hrun => (by cases hrun), fun e' s' hrun => ?_⟩
    cases hrun
    obtain ⟨t, t', -, -, hbacking, -⟩ := hw
    exact failed_of_fault hbacking ⟨w.calls, by rw [hfault]; exact Option.some_ne_none _⟩
  · refine ⟨fun a s' hrun => ?_, fun e' s' hrun => by cases hrun⟩
    cases hrun
    exact hw.put _ _

/-- A file that is written is one of those that are. -/
theorem Writing.holds (h : Writing files front e.1.location e.2.bytes e.2.mode w) :
    In files (front ++ [e]) w := by
  obtain ⟨t, t', hholds, hnone, hbacking, hget⟩ := h
  have hother : ∀ other ∈ front, other.1.location ≠ e.1.location := by
    intro other hmem heq
    have hthere := hholds.written other hmem
    rw [heq, hnone] at hthere
    cases hthere
  refine ⟨t', hbacking, ⟨?_, fun other hmem => ?_, fun there node hnode => ?_⟩⟩
  · rw [List.map_append, List.map_singleton]
    refine List.nodup_append.mpr ⟨hholds.distinct, List.nodup_singleton _, fun a ha b hb heq => ?_⟩
    obtain ⟨other, hmem, rfl⟩ := List.mem_map.mp ha
    exact hother other hmem (heq.trans (List.mem_singleton.mp hb))
  · obtain hmem | hmem := List.mem_append.mp hmem
    · rw [hget, if_neg (hother other hmem)]
      exact hholds.written other hmem
    · rw [List.mem_singleton.mp hmem, hget, if_pos rfl]
      rfl
  · rw [hget] at hnode
    split at hnode
    · rename_i heq
      cases hnode
      exact .inl ⟨e, List.mem_append_right _ (List.mem_singleton_self e), heq, rfl⟩
    · obtain ⟨other, hmem, hsame⟩ | hneeded := hholds.only there node hnode
      · exact .inl ⟨other, List.mem_append_left _ hmem, hsame⟩
      · exact .inr hneeded

/-- **One file**: written with the directories above it, besides what was there. -/
theorem stageFile_triple (hapart : Apart files) (hfront : ∀ e ∈ front, e.1 ∈ files.keys)
    (hkey : e.1 ∈ files.keys) (hfresh : ∀ other ∈ front, other.1 ≠ e.1) :
    Triple (In files front) (stageFile k e) (fun _ => In files (front ++ [e]))
      (fun _ => Failed k files) := by
  have hshort : e.1.names.dropLast ≠ e.1.names := by
    intro heq
    have hlength := congrArg List.length heq
    rw [List.length_dropLast] at hlength
    have hpositive := List.length_pos_iff.mpr e.1.names_ne_nil
    omega
  have hdirectories : Triple (In files front) (createDirAll k e.1.names.dropLast.reverse)
      (fun _ => Directed k files front e.1.names.dropLast.reverse.reverse)
          (fun _ => Failed k files) := by
    apply createDirAll_triple hapart hfront hkey
    · rw [List.reverse_reverse]
      exact List.dropLast_prefix _
    · rw [List.reverse_reverse]
      exact hshort
  rw [List.reverse_reverse] at hdirectories
  refine Triple.bind hdirectories fun _ => ?_
  refine Triple.bind (createNew_triple hapart hfront hkey hfresh) fun there => ?_
  refine Triple.of_state fun w₁ hw₁ => ?_
  obtain ⟨rfl, hwriting⟩ := hw₁
  refine Triple.bind (writeAll_triple.imp (fun w hw => hw ▸ hwriting)
    (fun _ _ hw => hw) fun _ _ hw => hw) fun _ => ?_
  refine Triple.bind setPermissions_triple fun _ => ?_
  refine (call_triple (fun _ _ hw => hw) fun _ w hw hfault => ?_).imp (fun _ hw => hw)
    (fun _ w hw => hw.holds) fun _ _ hw => hw
  exact Writing.failed hw hfault

end Files

/-! The whole directory. -/

section Stage
variable {c : CapturedFormatter}

theorem holds_empty : Holds files [] .empty where
  distinct := List.nodup_nil
  written _ he := by cases he
  only _ _ hnode := by cases hnode

theorem vacant_dev : vacant .exist .empty [dev] = .ok ([], dev) := by
  have hwalk : Files.empty.inRoot 0 [] [] = .ok [] := by rw [Files.inRoot]
  have hroot : Files.empty.isDirectory [] = true := rfl
  have hdots : dev ≠ dotName ∧ dev ≠ dotdotName := by decide
  have hnone : Files.empty.get? [dev] = none := rfl
  simp [vacant, hwalk, hroot, hdots.1, hdots.2, hnone]

/-- **All files**, from an empty directory. -/
theorem stageAll_triple : Triple (fun w => w.backing = some .empty) (stageAll k c)
    (fun _ => In c.files c.files.entries)
    (fun _ => Failed k c.files) := by
  refine Triple.ite (fun hdev => Triple.throw fun w hw => ?_) fun hdev => ?_
  · refine ⟨⟨_, hw⟩, fun hsound => ?_⟩
    obtain ⟨p, hp, hhead⟩ := List.any_eq_true.mp hdev
    exact hsound.dev p hp (eq_of_beq hhead)
  · have hlocate : locate [] [dev] = some [dev] := by decide
    have hempty : Holds c.files [] .empty := holds_empty
    have hmkdir := mkdir_triple (k := k) hempty hlocate (.inl rfl)
    refine Triple.bind (Q := fun _ => In c.files [])
      (hmkdir.imp (fun _ hw => hw) (fun _ w hw => ?_) fun e w hw => ?_) fun _ => ?_
    · obtain ⟨t, hbacking, h, -⟩ := hw
      exact ⟨t, hbacking, h⟩
    · obtain hfault | ⟨errno, hvacant, -⟩ := hw.2
      · exact failed_of_fault hw.1 hfault
      · rw [vacant_dev] at hvacant
        cases hvacant
    have hcalls : Triple (In c.files c.files.entries) (call k) (fun _ => In c.files c.files.entries)
        (fun _ => Failed k c.files) := by
      apply call_triple (fun _ _ hw => hw)
      intro e w hw hfault
      obtain ⟨t, hbacking, -⟩ := hw
      exact failed_of_fault hbacking hfault
    refine Triple.bind (Triple.forM (fun front w => In c.files front w) fun front e rest hentries =>
      ?_) fun _ => ?_
    · -- the paths of a runtime are distinct
      have hkeys : c.files.keys = front.map Prod.fst ++ e.1 :: rest.map Prod.fst := by
        rw [OrdMap.keys, hentries, List.map_append, List.map_cons]
      have hnodup := c.files.nodup_keys
      rw [hkeys] at hnodup
      apply stageFile_triple c.apart
      · intro other hother
        rw [hkeys]
        exact List.mem_append_left _ (List.mem_map_of_mem hother)
      · rw [hkeys]
        exact List.mem_append_right _ (List.mem_cons_self ..)
      · intro other hother heq
        exact (List.nodup_append.mp hnodup).2.2 _ (List.mem_map_of_mem hother) _
          (List.mem_cons_self ..) heq
    · exact Triple.bind hcalls fun _ => Triple.bind hcalls fun _ => hcalls

theorem close_triple : Triple (fun _ => True) (close k)
    (fun _ w => w.backing = none) (fun _ _ => True) := by
  intro w hw
  unfold close
  split
  · refine ⟨fun a s' hrun => (by cases hrun), fun e' s' hrun => ?_⟩
    exact trivial
  · refine ⟨fun a s' hrun => ?_, fun e' s' hrun => by cases hrun⟩
    cases hrun
    rfl

theorem stage_triple : Triple (fun w => w.backing = none) (stage k c)
    (fun _ => In c.files c.files.entries)
    (fun e w => ¬ Sound k c.files ∧ (e.cleanup = none → w.backing = none)) := by
  have hcalls : Triple (fun w => w.backing = none) (call k) (fun _ w => w.backing = none)
      (fun _ w => ¬ Sound k c.files ∧ w.backing = none) := by
    apply call_triple (fun _ _ hw => hw)
    intro e w hw hfault
    obtain ⟨n, hn⟩ := hfault
    exact ⟨fun hsound => hn (hsound.fault n), hw⟩
  refine Triple.bind (Q := fun _ w => w.backing = some .empty) (Triple.adaptExcept ?_) fun _ => ?_
  · refine (Triple.bind hcalls fun _ => Triple.bind hcalls fun _ =>
      Triple.modify fun w hw => ?_).imp
      (fun _ hw => hw) (fun _ _ hw => hw) fun e w hw => ⟨hw.1, fun _ => hw.2⟩
    rfl
  · refine Triple.bind (Triple.attempt stageAll_triple) fun staged => ?_
    cases staged with
    | ok done => exact Triple.pure fun w hw => hw.1 () rfl
    | error e =>
      refine Triple.of_state fun w₀ hw₀ => ?_
      obtain ⟨-, hsound⟩ := hw₀.2 e rfl
      refine Triple.bind (Triple.attempt (close_triple.imp (fun _ _ => trivial)
        (fun _ _ hw => hw) fun _ _ hw => hw)) fun closed => ?_
      cases closed with
      | ok done => exact Triple.throw fun w hw => ⟨hsound, fun _ => hw.1 () rfl⟩
      | error cleanup => exact Triple.throw fun w hw => ⟨hsound, fun heq => by cases heq⟩

end Stage

/-- **A staged formatter** has its files where their paths lead, with their bytes and modes,
    and nothing else but directories they need; what failed has left nothing, or says so; and
    where nothing is refused, plain paths outside `dev` are staged. -/
theorem staged (k : Kernel) (c : CapturedFormatter) (w : World) (h : w.backing = none) :
    (∀ w', stage k c w = .ok () w' → ∃ t, w'.backing = some t ∧ Holds c.files c.files.entries t) ∧
      (∀ e w', stage k c w = .error e w' → e.cleanup = none → w'.backing = none) ∧
      (Sound k c.files → ∃ w', stage k c w = .ok () w') := by
  obtain ⟨hok, herror⟩ := stage_triple (k := k) (c := c) w h
  refine ⟨fun w' hrun => hok () w' hrun, fun e w' hrun => (herror e w' hrun).2, fun hsound => ?_⟩
  cases hrun : stage k c w with
  | ok done w' => exact ⟨w', rfl⟩
  | error e w' => exact absurd hsound (herror e w' hrun).1

/-! Two files below one directory, and no refusals. -/

/-- "sbin/mke2fs" -/
def sampleTool : ContextPath where
  names := [[115, 98, 105, 110], [109, 107, 101, 50, 102, 115]]
  valid := by decide

/-- "sbin/lib/c" -/
def sampleLoaded : ContextPath where
  names := [[115, 98, 105, 110], [108, 105, 98], [99]]
  valid := by decide

def sampleFormatter : CapturedFormatter where
  executable := sampleTool
  files := (OrdMap.empty.insert sampleTool ⟨[127, 69], true⟩).insert sampleLoaded ⟨[127], false⟩
  fat := none
  apart := apart_of_conflicts (by decide +kernel)
  runs := by decide +kernel
  formats := rfl

def quietKernel : Kernel where
  fault _ := none
  made := 0o755
  short _ := 0
  remains t := t

theorem sample_sound : Sound quietKernel sampleFormatter.files where
  fault _ := rfl
  plain := by
    have hkeys : sampleFormatter.files.keys = [sampleLoaded, sampleTool] := by decide +kernel
    rw [hkeys]
    unfold PlainNames
    decide +kernel
  dev := by
    have hkeys : sampleFormatter.files.keys = [sampleLoaded, sampleTool] := by decide +kernel
    rw [hkeys]
    decide +kernel

theorem sample_staged : ∃ w t, stage quietKernel sampleFormatter ⟨none, 0⟩ = .ok () w ∧
    w.backing = some t ∧ Holds sampleFormatter.files sampleFormatter.files.entries t := by
  obtain ⟨hholds, -, hsucceeds⟩ := staged quietKernel sampleFormatter ⟨none, 0⟩ rfl
  obtain ⟨w, hrun⟩ := hsucceeds sample_sound
  obtain ⟨t, hbacking, ht⟩ := hholds w hrun
  exact ⟨w, t, hrun, hbacking, ht⟩

end Conglobate.Formatter
