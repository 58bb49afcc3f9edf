import Conglobate.Isolation.Shell
import Conglobate.Copy.Selection

/- What the injection of a shell leaves (`isolation/shell.rs`).

   What is proved:
     1. `descend_triple`, `writeBytes_triple` — a file is written with the directories above
        it, and with nothing else.
     2. `directory_triple` — a top-level directory is covered once.
     3. `forM_place_triple` — all files, or a failure that leaves the image with at most new
        directories at its top (`Points`).

   The files come in the order of their paths, so none is where a directory for another one
   was made before (`Apart`). -/
namespace Conglobate.Isolation.Shell

open Copy Effect

/-! File systems. -/

namespace Files

variable {t : Files} {here : List Bytes} {name : Bytes} {node : Node}

theorem get?_create (hhere : t.isDirectory here = true) (hnone : t.get? (here ++ [name]) = none)
    (path : List Bytes) :
    (t.create here name node).get? path = if path = here ++ [name] then some node
      else t.get? path := by
  rw [create, dif_pos ⟨hhere, hnone⟩]
  refine (OrdMap.get?_insert t.entries _ _ path).trans ?_
  by_cases hnew : path = here ++ [name]
  · rw [if_pos hnew, if_pos hnew]
  · rw [if_neg hnew, if_neg hnew]
    rfl

theorem get?_change {path : List Bytes}
    (hsame : (t.get? path).map Node.isDirectory = some node.isDirectory) (q : List Bytes) :
    (t.change path node).get? q = if q = path then some node else t.get? q := by
  rw [change, dif_pos hsame]
  refine (OrdMap.get?_insert t.entries _ _ q).trans ?_
  by_cases hthere : q = path
  · rw [if_pos hthere, if_pos hthere]
  · rw [if_neg hthere, if_neg hthere]
    rfl

theorem isDirectory_iff {path : List Bytes} :
    t.isDirectory path = true ↔ path = [] ∨ ∃ mode, t.get? path = some (.directory mode) := by
  rw [isDirectory, Bool.or_eq_true, decide_eq_true_eq]
  apply or_congr_right
  cases t.get? path with
  | none => simp
  | some node => cases node <;> simp [Node.isDirectory]

theorem openDirectory_ok {next : List Bytes} :
    t.openDirectory here name = .ok next ↔ next = here ++ [name] ∧ ∃ mode, t.get? (here ++ [name]) =
      some (.directory mode) := by
  rw [openDirectory]
  cases t.get? (here ++ [name]) with
  | none => simp
  | some node => cases node <;> simp [eq_comm]

theorem openDirectory_noent : t.openDirectory here name = .error .noent ↔
    t.get? (here ++ [name]) = none := by
  rw [openDirectory]
  cases t.get? (here ++ [name]) with
  | none => simp
  | some node => cases node <;> simp

end Files

/-! Calls. -/

/-- Nothing but the number of calls made. -/
def Callfree (P : World → Prop) : Prop := ∀ w n, P w → P { w with calls := n }

theorem call_triple {k : Kernel} {e : ShellError} {P : World → Prop} {E : ShellError → World → Prop}
    (hP : Callfree P) (hE : ∀ w, P w → E e w) : Triple P (call k e) (fun _ => P) E := by
  intro w hw
  have hnext := hP w (w.calls + 1) hw
  unfold call
  split
  · refine ⟨fun a s' hrun => (by cases hrun), fun e' s' hrun => ?_⟩
    cases hrun
    exact hE _ hnext
  · refine ⟨fun a s' hrun => ?_, fun e' s' hrun => by cases hrun⟩
    cases hrun
    exact hnext

theorem call_of_fault {k : Kernel} {e : ShellError} {w : World} (h : k.fault w.calls = true) :
    call k e w = .error e { w with calls := w.calls + 1 } := if_pos h

/-! Temporary file systems. -/

namespace World

variable {w : World} {top : Bytes} {f : Files → Files}

def tops (w : World) : List Bytes := w.mounts.map Prod.fst

theorem private?_eq_none : w.private? top = none ↔ top ∉ w.tops := by
  rw [private?, Option.map_eq_none_iff, List.find?_eq_none, tops, List.mem_map]
  refine ⟨fun h hmem => ?_, fun h m hm heq => h ⟨m, hm, of_decide_eq_true heq⟩⟩
  obtain ⟨m, hm, heq⟩ := hmem
  exact h m hm (decide_eq_true heq)

theorem tops_update : (w.update top f).tops = w.tops := by
  rw [tops, update, tops, List.map_map]
  refine List.map_congr_left fun m _ => ?_
  show (if m.1 = top then (m.1, f m.2) else m).1 = m.1
  split <;> rfl

theorem private?_update (other : Bytes) :
    (w.update top f).private? other = if other = top then (w.private? top).map f
      else w.private? other := by
  obtain ⟨layer, mounts, calls⟩ := w
  simp only [private?, update]
  induction mounts with
  | nil => simp
  | cons m rest ih =>
    rw [List.map_cons]
    by_cases htop : m.1 = top
    · rw [if_pos htop]
      by_cases hother : other = top
      · rw [if_pos hother, List.find?_cons_of_pos (by simp [htop, hother]),
          List.find?_cons_of_pos (by simp [htop])]
        rfl
      · rw [if_neg hother] at ih ⊢
        have hne : ¬ m.1 = other := fun heq => hother (heq.symm.trans htop)
        rw [List.find?_cons_of_neg (by simpa using hne),
          List.find?_cons_of_neg (by simpa using hne)]
        exact ih
    · rw [if_neg htop]
      by_cases hother : m.1 = other
      · have hne : other ≠ top := fun heq => htop (hother.trans heq)
        rw [if_neg hne, List.find?_cons_of_pos (by simpa using hother),
          List.find?_cons_of_pos (by simpa using hother)]
      · rw [List.find?_cons_of_neg (by simpa using hother), ih,
          List.find?_cons_of_neg (by simpa using htop),
          List.find?_cons_of_neg (by simpa using hother)]

/-- **A change in one temporary file system** is in no other one. -/
theorem files_update (htop : top ∈ w.tops) (other : Bytes) :
    (w.update top f).files other = if other = top then f (w.files top) else w.files other := by
  rw [files, private?_update]
  by_cases hother : other = top
  · rw [if_pos hother, if_pos hother, files]
    cases hprivate : w.private? top with
    | none => exact absurd htop (private?_eq_none.mp hprivate)
    | some t => rfl
  · rw [if_neg hother, if_neg hother, files]

theorem files_of_apart (htop : top ∉ w.tops) : w.files top = .empty := by
  rw [files, private?_eq_none.mpr htop]
  rfl

/-- What is mounted last is seen where nothing was. -/
theorem private?_mounted (htop : top ∉ w.tops) (other : Bytes) :
    ({ w with mounts := w.mounts ++ [(top, .empty)] } : World).private? other =
      if other = top then some .empty else w.private? other := by
  have hnone := private?_eq_none.mpr htop
  rw [private?, Option.map_eq_none_iff] at hnone
  show ((w.mounts ++ [(top, Files.empty)]).find? (fun m => decide (m.1 = other))).map Prod.snd = _
  rw [List.find?_append]
  by_cases hother : other = top
  · rw [if_pos hother, hother, hnone]
    simp
  · have hne : ¬ top = other := fun heq => hother heq.symm
    rw [if_neg hother, private?]
    cases w.mounts.find? (fun m => decide (m.1 = other)) with
    | none => simp [hne]
    | some m => rfl

end World

/-! What is kept. -/

/-- The layer is the image with new empty directories at its top, all but one of which have
    the mode they are to have. -/
def Points (k : Kernel) (image : Files) (bare : Option Bytes) (layer : Files) : Prop :=
  ∀ path, layer.get? path = image.get? path ∨ ∃ top, path = [top] ∧ image.get? path = none ∧
    layer.get? path = some (.directory (if bare = some top then k.made else 0o755))

/-- Whatever fails. -/
def Framed (k : Kernel) (image : Files) (w : World) : Prop := ∃ bare, Points k image bare w.layer

/-- The files in `done` are placed, and there is nothing else but directories on the way to
    those that were begun. -/
structure Laid (k : Kernel) (image : Files) (done begun : List Placed) (w : World) : Prop where
  layer : Points k image none w.layer
  tops : w.tops.Nodup
  touched : ∀ top ∈ w.tops, ∃ f ∈ begun, f.relative.head? = some top
  holds : ∀ f ∈ done, ∃ top rest, f.relative = top :: rest ∧ rest ≠ [] ∧ top ∈ w.tops ∧
    (w.files top).get? rest = some (.file f.bytes 0o755)
  only : ∀ top path node, (w.files top).get? path = some node →
    (∃ f ∈ done, f.relative = top :: path ∧ node = .file f.bytes 0o755) ∨
      (node = .directory 0o755 ∧ ∃ f ∈ begun, top :: path <+: f.relative ∧ top :: path ≠ f.relative)

section
variable {k : Kernel} {image : Files} {done begun : List Placed}

theorem Laid.callfree : Callfree (Laid k image done begun) :=
  fun _ _ h => ⟨h.layer, h.tops, h.touched, h.holds, h.only⟩

theorem Laid.framed {w : World} (h : Laid k image done begun w) :
    Framed k image w := ⟨none, h.layer⟩

/-- More files are begun. -/
theorem Laid.begin {w : World} (h : Laid k image done begun w) (f : Placed) :
    Laid k image done (begun ++ [f]) w where
  layer := h.layer
  tops := h.tops
  touched top htop := by
    obtain ⟨g, hg, hhead⟩ := h.touched top htop
    exact ⟨g, List.mem_append_left _ hg, hhead⟩
  holds := h.holds
  only top path node hget := by
    refine (h.only top path node hget).imp_right fun hdir => ?_
    obtain ⟨hnode, g, hg, hbelow⟩ := hdir
    exact ⟨hnode, g, List.mem_append_left _ hg, hbelow⟩

/-! One object in a temporary file system. -/

/-- All that changed is one object. -/
structure Changed (w w' : World) (top : Bytes) (path : List Bytes) (node : Node) : Prop where
  layer : w'.layer = w.layer
  tops : w'.tops = w.tops
  files : ∀ other q, (w'.files other).get? q = if other = top ∧ q = path then some node
    else (w.files other).get? q

namespace Changed

variable {w w' w'' : World} {top : Bytes} {path here : List Bytes} {name : Bytes}
    {node node' : Node}

theorem is_there (h : Changed w w' top path node) : (w'.files top).get? path = some node := by
  rw [h.files, if_pos ⟨rfl, rfl⟩]

theorem trans (h : Changed w w' top path node) (h' : Changed w' w'' top path node') :
    Changed w w'' top path node' where
  layer := h'.layer.trans h.layer
  tops := h'.tops.trans h.tops
  files other q := by
    rw [h'.files, h.files]
    split <;> rfl

theorem create (htop : top ∈ w.tops) (hdir : (w.files top).isDirectory here = true)
    (hnone : (w.files top).get? (here ++ [name]) = none) :
    Changed w (w.update top fun t => t.create here name node) top (here ++ [name]) node where
  layer := rfl
  tops := World.tops_update
  files other q := by
    rw [World.files_update htop]
    by_cases hother : other = top
    · rw [if_pos hother, Files.get?_create hdir hnone, hother]
      simp only [true_and]
    · rw [if_neg hother, if_neg (fun h => hother h.1)]

theorem change (htop : top ∈ w.tops)
    (hsame : ((w.files top).get? path).map Node.isDirectory = some node.isDirectory) :
    Changed w (w.update top fun t => t.change path node) top path node where
  layer := rfl
  tops := World.tops_update
  files other q := by
    rw [World.files_update htop]
    by_cases hother : other = top
    · rw [if_pos hother, Files.get?_change hsame, hother]
      simp only [true_and]
    · rw [if_neg hother, if_neg (fun h => hother h.1)]

end Changed

/-- In a state like this one, one object was changed. -/
def After (P : World → Prop) (top : Bytes) (path : List Bytes) (node : Node) (w : World) : Prop :=
  ∃ w₀, P w₀ ∧ Changed w₀ w top path node

theorem After.callfree {P : World → Prop} {top : Bytes} {path : List Bytes} {node : Node} :
    Callfree (After P top path node) := by
  intro w n h
  obtain ⟨w₀, hw₀, hchanged⟩ := h
  exact ⟨w₀, hw₀, hchanged.layer, hchanged.tops, hchanged.files⟩

/-- A directory that is new. -/
theorem Laid.opened {w w' : World} {top : Bytes} {path : List Bytes} {f : Placed}
    (h : Laid k image done begun w) (hnone : (w.files top).get? path = none) (hf : f ∈ begun)
    (hway : top :: path <+: f.relative ∧ top :: path ≠ f.relative)
    (hchanged : Changed w w' top path (.directory 0o755)) : Laid k image done begun w' where
  layer := by
    rw [hchanged.layer]
    exact h.layer
  tops := hchanged.tops ▸ h.tops
  touched := hchanged.tops ▸ h.touched
  holds g hg := by
    obtain ⟨t, rest, hrelative, hrest, htop, hget⟩ := h.holds g hg
    refine ⟨t, rest, hrelative, hrest, hchanged.tops ▸ htop, ?_⟩
    rw [hchanged.files, if_neg, hget]
    intro heq
    obtain ⟨rfl, rfl⟩ := heq
    rw [hnone] at hget
    cases hget
  only other q node hget := by
    rw [hchanged.files] at hget
    split at hget
    · rename_i heq
      obtain ⟨rfl, rfl⟩ := heq
      exact .inr ⟨(Option.some.inj hget).symm, f, hf, hway⟩
    · exact h.only other q node hget

/-- A file that is new. -/
theorem Laid.placed {w w' : World} {top : Bytes} {path : List Bytes} {f : Placed}
    (h : Laid k image done begun w) (hnone : (w.files top).get? path = none)
    (hrelative : f.relative = top :: path) (hpath : path ≠ []) (htop : top ∈ w.tops)
    (hchanged : Changed w w' top path (.file f.bytes 0o755)) :
    Laid k image (done ++ [f]) begun w' where
  layer := by
    rw [hchanged.layer]
    exact h.layer
  tops := hchanged.tops ▸ h.tops
  touched := hchanged.tops ▸ h.touched
  holds g hg := by
    obtain hg | hg := List.mem_append.mp hg
    · obtain ⟨t, rest, hrel, hrest, ht, hget⟩ := h.holds g hg
      refine ⟨t, rest, hrel, hrest, hchanged.tops ▸ ht, ?_⟩
      rw [hchanged.files, if_neg, hget]
      intro heq
      obtain ⟨rfl, rfl⟩ := heq
      rw [hnone] at hget
      cases hget
    · obtain rfl := List.mem_singleton.mp hg
      exact ⟨top, path, hrelative, hpath, hchanged.tops ▸ htop, hchanged.is_there⟩
  only other q node hget := by
    rw [hchanged.files] at hget
    split at hget
    · rename_i heq
      obtain ⟨rfl, rfl⟩ := heq
      exact .inl ⟨f, List.mem_append_right _ (List.mem_singleton_self f), hrelative,
        (Option.some.inj hget).symm⟩
    · refine (h.only other q node hget).imp_left fun hfile => ?_
      obtain ⟨g, hg, hplaced⟩ := hfile
      exact ⟨g, List.mem_append_left _ hg, hplaced⟩

/-! One file. -/

/-- Standing in a directory of a temporary file system. -/
def StandsIn (k : Kernel) (image : Files) (done begun : List Placed) (top : Bytes)
    (here : List Bytes) (w : World) : Prop :=
  Laid k image done begun w ∧ top ∈ w.tops ∧ (w.files top).isDirectory here = true

theorem StandsIn.callfree {top : Bytes} {here : List Bytes} :
    Callfree (StandsIn k image done begun top here) :=
  fun w n h => ⟨Laid.callfree w n h.1, h.2⟩

theorem After.framed {P : World → Prop} (hP : ∀ w, P w → Laid k image done begun w) {top : Bytes}
    {path : List Bytes} {node : Node} {w : World} (h : After P top path node w) :
    Framed k image w := by
  obtain ⟨w₀, hw₀, hchanged⟩ := h
  refine ⟨none, ?_⟩
  rw [hchanged.layer]
  exact (hP w₀ hw₀).layer

/-- **A directory on the way** to a file that was begun. -/
theorem descend_triple {top : Bytes} {here : List Bytes} {name : Bytes} {f : Placed}
    (hf : f ∈ begun)
    (hway : top :: (here ++ [name]) <+: f.relative ∧ top :: (here ++ [name]) ≠ f.relative) :
    Triple (StandsIn k image done begun top here) (descend k top here name)
      (fun next w => next = here ++ [name] ∧ StandsIn k image done begun top next w)
        (fun _ => Framed k image) := by
  rw [descend]
  refine Triple.bind (call_triple StandsIn.callfree fun w h => h.1.framed) fun _ => ?_
  refine Triple.bind (Triple.get (Q := fun a w => a = w ∧
    StandsIn k image done begun top here w) fun w h => ⟨rfl, h⟩) fun w₀ => ?_
  cases hopen : (w₀.files top).openDirectory here name with
  | ok next =>
    obtain ⟨rfl, mode, hget⟩ := Files.openDirectory_ok.mp hopen
    apply Triple.pure
    intro w h
    obtain ⟨rfl, hlaid, htop, -⟩ := h
    exact ⟨rfl, hlaid, htop, Files.isDirectory_iff.mpr (.inr ⟨mode, hget⟩)⟩
  | error e =>
    cases e with
    | noent =>
      have hnone := Files.openDirectory_noent.mp hopen
      let P : World → Prop := fun w => StandsIn k image done begun top here w ∧
        (w.files top).get? (here ++ [name]) = none
      have hP : ∀ w, P w → Laid k image done begun w := fun w h => h.1.1
      have hstart : ∀ w, w₀ = w ∧ StandsIn k image done begun top here w → P w := by
        intro w h
        obtain ⟨rfl, hstands⟩ := h
        exact ⟨hstands, hnone⟩
      have hcallfree : Callfree P := fun w n h => ⟨StandsIn.callfree _ _ h.1, h.2⟩
      refine Triple.imp (P := P) ?_ hstart (fun _ _ h => h) (fun _ _ h => h)
      refine Triple.bind (call_triple hcallfree fun w h => h.1.1.framed) fun _ => ?_
      -- made, and then with its mode
      refine Triple.bind (Q := fun _ => After P top (here ++ [name]) (.directory k.made))
        (Triple.modify fun w h => ?_) fun _ => ?_
      · exact ⟨w, h, .create h.1.2.1 h.1.2.2 h.2⟩
      refine Triple.bind (call_triple After.callfree fun w h => h.framed hP) fun _ => ?_
      refine Triple.bind (Q := fun _ => After P top (here ++ [name]) (.directory 0o755))
        (Triple.modify fun w h => ?_) fun _ => ?_
      · obtain ⟨w', hw', hchanged⟩ := h
        have htop : top ∈ w.tops := hchanged.tops ▸ hw'.1.2.1
        exact ⟨w', hw', hchanged.trans (.change htop (by rw [hchanged.is_there]; rfl))⟩
      refine Triple.bind (call_triple After.callfree fun w h => h.framed hP) fun _ => ?_
      apply Triple.pure
      intro w h
      obtain ⟨w', ⟨⟨hlaid, htop, hdir⟩, hfree⟩, hchanged⟩ := h
      refine ⟨rfl, hlaid.opened hfree hf hway hchanged, hchanged.tops ▸ htop, ?_⟩
      exact Files.isDirectory_iff.mpr (.inr ⟨0o755, hchanged.is_there⟩)
    | notdir => exact Triple.throw fun w h => h.2.1.framed
    | loop => exact Triple.throw fun w h => h.2.1.framed
    | exist => exact Triple.throw fun w h => h.2.1.framed
    | other => exact Triple.throw fun w h => h.2.1.framed

/-- A write that fails leaves the file unfinished and the image as it is. -/
theorem writeAll_triple {P : World → Prop} {top : Bytes} {path : List Bytes} {bytes : Bytes}
    {mode : Nat} (hP : ∀ w, P w → Laid k image done begun w) (htop : ∀ w, P w → top ∈ w.tops) :
    Triple (After P top path (.file [] mode)) (writeAll k top path bytes)
      (fun _ => After P top path (.file bytes k.made))
      (fun _ => Framed k image) := by
  have hstep : ∀ w bytes', After P top path (.file [] mode) w →
      After P top path (.file bytes' k.made) (w.update top fun t => t.change path
          (.file bytes' k.made)) := by
    intro w bytes' h
    obtain ⟨w₀, hw₀, hchanged⟩ := h
    refine ⟨w₀, hw₀, hchanged.trans (.change (hchanged.tops ▸ htop w₀ hw₀) ?_)⟩
    rw [hchanged.is_there]
    rfl
  refine Triple.bind (Q := fun a w => a = w ∧ After P top path (.file [] mode) w)
    (Triple.get fun w h => ⟨rfl, h⟩) fun w₀ => ?_
  by_cases hfault : k.fault w₀.calls = true
  · -- the call after it is the one that fails
    rw [if_pos hfault]
    let Q : Unit → World → Prop := fun _ w => k.fault w.calls = true ∧ Framed k image w
    refine Triple.bind (Q := Q) (Triple.modify fun w h => ?_) fun _ => ?_
    · obtain ⟨rfl, hafter⟩ := h
      exact ⟨hfault, (hstep _ _ hafter).framed hP⟩
    · intro w h
      refine ⟨fun a w' hrun => ?_, fun e w' hrun => ?_⟩
      · cases (call_of_fault h.1).symm.trans hrun
      · cases (call_of_fault h.1).symm.trans hrun
        exact h.2
  · rw [if_neg hfault]
    refine Triple.bind (Q := fun _ => After P top path (.file bytes k.made))
      (Triple.modify fun w h => hstep _ _ h.2) fun _ => ?_
    exact call_triple After.callfree fun w h => h.framed hP

/-- No file placed before is in the way. -/
theorem Laid.free {w : World} {top : Bytes} {path : List Bytes} {f : Placed}
    (h : Laid k image done (done ++ [f]) w) (hrelative : f.relative = top :: path)
    (hapart : ∀ g ∈ done, ¬ f.relative <+: g.relative) :
    (w.files top).get? path = none := by
  by_contra hsome
  obtain ⟨node, hget⟩ := Option.ne_none_iff_exists'.mp hsome
  obtain ⟨g, hg, hsame, -⟩ | ⟨-, g, hg, hway, hne⟩ := h.only top path node hget
  · apply hapart g hg
    rw [hsame, hrelative]
  · rw [← hrelative] at hway hne
    obtain hg | hg := List.mem_append.mp hg
    · exact hapart g hg hway
    · obtain rfl := List.mem_singleton.mp hg
      exact hne rfl

/-- **A file is written** where none is. -/
theorem writeBytes_triple {top : Bytes} {rest : List Bytes} {f : Placed}
    (hrelative : f.relative = top :: rest) (hrest : rest ≠ [])
    (hapart : ∀ g ∈ done, ¬ f.relative <+: g.relative) :
    Triple (fun w => Laid k image done (done ++ [f]) w ∧ top ∈ w.tops)
      (writeBytes k top rest f.bytes f.required)
      (fun _ => Laid k image (done ++ [f]) (done ++ [f])) (fun _ => Framed k image) := by
  have hf : f ∈ done ++ [f] := List.mem_append_right _ (List.mem_singleton_self f)
  have hpath : rest.dropLast ++ [rest.getLast?.getD []] = rest := by
    rw [List.getLast?_eq_some_getLast hrest, Option.getD_some]
    exact List.dropLast_append_getLast hrest
  have hstart : Callfree fun w => Laid k image done (done ++ [f]) w ∧ top ∈ w.tops :=
    fun w n h => ⟨Laid.callfree w n h.1, h.2⟩
  refine Triple.bind (call_triple hstart fun w h => h.1.framed) fun _ => ?_
  -- down to the file's directory
  let Stands : List Bytes → List Bytes → World → Prop :=
    fun front here w => here = front ∧ StandsIn k image done (done ++ [f]) top here w
  refine Triple.bind (Q := Stands rest.dropLast) ?_ fun parent => ?_
  · refine Triple.imp (P := Stands [] []) (Triple.foldlM Stands ?_) (fun w h => ?_) (fun _ _ h => h)
      (fun _ _ h => h)
    · intro front name back here hl
      have hbelow : front ++ [name] <+: rest.dropLast := ⟨back, by rw [hl, List.append_assoc]; rfl⟩
      have hshort : (front ++ [name]).length < rest.length := by
        have hle := hbelow.length_le
        have hlen := congrArg List.length hpath
        rw [List.length_append, List.length_singleton] at hlen
        omega
      have hway : top :: (front ++ [name]) <+: f.relative ∧ top :: (front ++ [name]) ≠
          f.relative := by
        rw [hrelative]
        refine ⟨List.cons_prefix_cons.mpr ⟨rfl, hbelow.trans (List.dropLast_prefix rest)⟩,
          fun heq => ?_⟩
        rw [List.cons.inj heq |>.2] at hshort
        exact lt_irrefl _ hshort
      by_cases hhere : here = front
      · rw [hhere]
        exact (descend_triple hf hway).imp (fun w h => h.2) (fun next w h => h) (fun _ _ h => h)
      · exact fun w h => absurd h.1 hhere
    · exact ⟨rfl, h.1, h.2, Files.isDirectory_iff.mpr (.inl rfl)⟩
  -- and there the file
  have hcallfree : Callfree (Stands rest.dropLast parent) :=
    fun w n h => ⟨h.1, StandsIn.callfree w n h.2⟩
  refine Triple.bind (call_triple hcallfree fun w h => h.2.1.framed) fun _ => ?_
  refine Triple.bind (Q := fun a w => a = w ∧ Stands rest.dropLast parent w)
    (Triple.get fun w h => ⟨rfl, h⟩) fun w₀ => ?_
  let P : World → Prop := fun w => StandsIn k image done (done ++ [f]) top rest.dropLast w
  have hP : ∀ w, P w → Laid k image done (done ++ [f]) w := fun w h => h.1
  have htops : ∀ w, P w → top ∈ w.tops := fun w h => h.2.1
  by_cases hparent : parent = rest.dropLast
  case neg => exact fun w h => absurd h.2.1 hparent
  rw [hparent, hpath]
  refine Triple.ite (fun hsome => ?_) fun _ => ?_
  · intro w h
    obtain ⟨rfl, -, hlaid, -⟩ := h
    rw [hlaid.free hrelative hapart] at hsome
    cases hsome
  refine Triple.bind (Q := fun _ => After P top rest (.file [] k.made))
    (Triple.modify fun w h => ?_) fun _ => ?_
  · obtain ⟨-, -, hlaid, htop, hdir⟩ := h
    have hnone : (w.files top).get? (rest.dropLast ++ [rest.getLast?.getD []]) = none := by
      rw [hpath]
      exact hlaid.free hrelative hapart
    have hcreated := @Changed.create w top rest.dropLast (rest.getLast?.getD [])
      (.file [] k.made) htop hdir hnone
    rw [hpath] at hcreated
    exact ⟨w, ⟨hlaid, htop, hdir⟩, hcreated⟩
  refine Triple.bind (writeAll_triple hP htops) fun _ => ?_
  refine Triple.bind (call_triple After.callfree fun w h => h.framed hP) fun _ => ?_
  apply Triple.modify
  intro w h
  obtain ⟨w', hw', hchanged⟩ := h
  have htop : top ∈ w.tops := hchanged.tops ▸ hw'.2.1
  have hdone : Changed w' _ top rest (.file f.bytes 0o755) :=
    hchanged.trans (.change htop (by rw [hchanged.is_there]; rfl))
  exact hw'.1.placed (hw'.1.free hrelative hapart) hrelative hrest hw'.2.1 hdone

/-! One mount. -/

theorem Points.none_of_free {bare : Option Bytes} {layer : Files} {top : Bytes}
    (h : Points k image bare layer) (hnone : layer.get? [top] = none) :
    image.get? [top] = none := by
  obtain hsame | ⟨t, -, himage, hget⟩ := h [top]
  · rw [← hsame, hnone]
  · rw [hnone] at hget
    cases hget

/-- A directory at the top that is new, with any mode or with the right one. -/
theorem Points.grown {bare : Option Bytes} {layer layer' : Files} {top : Bytes}
    (h : Points k image none layer) (hnone : layer.get? [top] = none)
    (hbare : ∀ other, bare = some other → other = top) (hgrown : ∀ path, layer'.get? path =
      if path = [top] then
        some (.directory (if bare = some top then k.made else 0o755))
      else
        layer.get? path) :
    Points k image bare layer' := by
  intro path
  rw [hgrown]
  by_cases hpath : path = [top]
  · rw [if_pos hpath]
    exact .inr ⟨top, hpath, hpath ▸ h.none_of_free hnone, rfl⟩
  · rw [if_neg hpath]
    refine (h path).imp_right fun hnew => ?_
    obtain ⟨other, rfl, himage, hget⟩ := hnew
    have hne : bare ≠ some other := fun heq => hpath (by rw [hbare other heq])
    exact ⟨other, rfl, himage, by rw [if_neg hne, hget, if_neg (by simp)]⟩

theorem Laid.relayered {w w' : World} (h : Laid k image done begun w)
    (hlayer : Points k image none w'.layer) (hmounts : w'.mounts = w.mounts) :
    Laid k image done begun w' := by
  have hfiles : ∀ top, w'.files top = w.files top :=
    fun top => by rw [World.files, World.private?, hmounts]; rfl
  have htops : w'.tops = w.tops := by rw [World.tops, hmounts]; rfl
  refine ⟨hlayer, htops ▸ h.tops, htops ▸ h.touched, fun f hf => ?_, fun top path node hget => ?_⟩
  · rw [htops]
    simp only [hfiles]
    exact h.holds f hf
  · rw [hfiles] at hget
    exact h.only top path node hget

theorem mountPoint_triple {top : Bytes} {Q : World → Prop}
    (hQ : ∀ w w', Q w → w'.mounts = w.mounts → Q w') :
    Triple (fun w => Laid k image done begun w ∧ Q w) (mountPoint k top)
      (fun _ w => Laid k image done begun w ∧ Q w)
      (fun _ => Framed k image) := by
  have hstart : Callfree fun w => Laid k image done begun w ∧ Q w :=
    fun w n h => ⟨Laid.callfree w n h.1, hQ w _ h.2 rfl⟩
  refine Triple.bind (call_triple hstart fun w h => h.1.framed) fun _ => ?_
  refine Triple.bind (Q := fun a w => a = w ∧ Laid k image done begun w ∧ Q w)
    (Triple.get fun w h => ⟨rfl, h⟩) fun w₀ => ?_
  cases hopen : w₀.layer.openDirectory [] top with
  | ok next => exact Triple.pure fun w h => h.2
  | error e =>
    cases e with
    | noent =>
      have hnone := Files.openDirectory_noent.mp hopen
      let P : World → Prop := fun w => (Laid k image done begun w ∧ Q w) ∧ w.layer.get? [top] = none
      refine Triple.imp (P := P) ?_ (fun w h => ⟨h.2, h.1 ▸ hnone⟩) (fun _ _ h => h)
        (fun _ _ h => h)
      have hP : Callfree P := fun w n h => ⟨hstart w n h.1, h.2⟩
      refine Triple.bind (call_triple hP fun w h => h.1.1.framed) fun _ => ?_
      -- made, but not with its mode yet
      let Made : World → Prop := fun w => ∃ w', P w' ∧ w.mounts = w'.mounts ∧
        ∀ path, w.layer.get? path = if path = [top] then some (.directory k.made)
          else w'.layer.get? path
      refine Triple.bind (Q := fun _ => Made) (Triple.modify fun w h => ?_) fun _ => ?_
      · exact ⟨w, h, rfl, Files.get?_create (Files.isDirectory_iff.mpr (.inl rfl)) h.2⟩
      have hmade : ∀ w, Made w → Framed k image w := by
        intro w h
        obtain ⟨w', ⟨⟨hlaid, -⟩, hfree⟩, -, hget⟩ := h
        refine ⟨some top, hlaid.layer.grown hfree (fun other heq =>
          (Option.some.inj heq).symm) fun path => ?_⟩
        rw [if_pos rfl]
        exact hget path
      refine Triple.bind (call_triple (fun w n h => h) hmade) fun _ => ?_
      apply Triple.modify
      intro w h
      obtain ⟨w', ⟨⟨hlaid, hkept⟩, hfree⟩, hmounts, hget⟩ := h
      have hthere : (w.layer.get? [top]).map Node.isDirectory =
          some (Node.directory 0o755).isDirectory := by
        rw [hget, if_pos rfl]
        rfl
      refine ⟨hlaid.relayered ?_ hmounts, hQ w' _ hkept hmounts⟩
      refine hlaid.layer.grown hfree (fun other heq => by cases heq) fun path => ?_
      rw [Files.get?_change hthere, hget]
      by_cases hpath : path = [top]
      · rw [if_pos hpath, if_pos hpath, if_neg (by simp)]
      · rw [if_neg hpath, if_neg hpath, if_neg hpath]
    | notdir => exact Triple.throw fun w h => h.2.1.framed
    | loop => exact Triple.throw fun w h => h.2.1.framed
    | exist => exact Triple.throw fun w h => h.2.1.framed
    | other => exact Triple.throw fun w h => h.2.1.framed

/-- **A temporary file system over a top-level directory**, at most one. -/
theorem directory_triple {top : Bytes} {f : Placed} (hf : f ∈ begun)
    (hhead : f.relative.head? = some top) :
    Triple (Laid k image done begun) (directory k top) (fun _ w => Laid k image done begun w ∧
      top ∈ w.tops)
      (fun _ => Framed k image) := by
  refine Triple.bind (Q := fun a w => a = w ∧ Laid k image done begun w)
    (Triple.get fun w h => ⟨rfl, h⟩) fun w₀ => ?_
  refine Triple.ite (fun hsome => ?_) fun hnone => ?_
  · have hthere : top ∈ w₀.tops := by
      by_contra hapart
      rw [World.private?_eq_none.mpr hapart] at hsome
      cases hsome
    refine Triple.imp (P := fun w => Laid k image done begun w ∧ top ∈ w.tops) ?_
      (fun w h => ⟨h.2, h.1 ▸ hthere⟩)
      (fun _ _ h => h) (fun _ _ h => h)
    exact call_triple (fun w n h => ⟨Laid.callfree w n h.1, h.2⟩) fun w h => h.1.framed
  · have hapart : top ∉ w₀.tops := by
      rw [Bool.not_eq_true, Option.isSome_eq_false_iff, Option.isNone_iff_eq_none] at hnone
      exact World.private?_eq_none.mp hnone
    let P : World → Prop := fun w => Laid k image done begun w ∧ top ∉ w.tops
    have hP : Callfree P := fun w n h => ⟨Laid.callfree w n h.1, h.2⟩
    have hframed : ∀ w, P w → Framed k image w := fun w h => h.1.framed
    refine Triple.imp (P := P) ?_ (fun w h => ⟨h.2, h.1 ▸ hapart⟩) (fun _ _ h => h) (fun _ _ h => h)
    refine Triple.bind (Q := fun _ => P) (mountPoint_triple
      (Q := fun w => top ∉ w.tops) fun w w' h hmounts => ?_) fun _ => ?_
    · rw [World.tops, hmounts]
      exact h
    refine Triple.bind (call_triple hP hframed) fun _ => ?_
    refine Triple.bind (call_triple hP hframed) fun _ => ?_
    refine Triple.bind (call_triple hP hframed) fun _ => ?_
    let Mounted : World → Prop := fun w => Laid k image done begun w ∧ top ∈ w.tops
    refine Triple.bind (Q := fun _ => Mounted) (Triple.modify fun w h => ?_) fun _ => ?_
    · obtain ⟨hlaid, hnew⟩ := h
      let w' : World := { w with mounts := w.mounts ++ [(top, .empty)] }
      have htops : w'.tops = w.tops ++ [top] := List.map_append
      have hfiles : ∀ other, w'.files other = w.files other := by
        intro other
        rw [World.files, World.private?_mounted hnew]
        by_cases hother : other = top
        · rw [if_pos hother, hother, World.files_of_apart hnew]
          rfl
        · rw [if_neg hother]
          rfl
      have hmem : ∀ other, other ∈ w'.tops ↔ other ∈ w.tops ∨ other = top := by
        intro other
        rw [htops, List.mem_append, List.mem_singleton]
      refine ⟨⟨hlaid.layer, ?_, fun other hother => ?_, fun g hg => ?_, fun other path node hget =>
        ?_⟩, (hmem top).mpr (.inr rfl)⟩
      · rw [htops]
        exact List.nodup_append.mpr ⟨hlaid.tops, List.nodup_singleton top, by
          intro a ha b hb heq
          exact hnew (List.mem_singleton.mp hb ▸ heq ▸ ha)⟩
      · obtain hother | rfl := (hmem other).mp hother
        · exact hlaid.touched other hother
        · exact ⟨f, hf, hhead⟩
      · obtain ⟨t, rest, hrelative, hrest, ht, hget⟩ := hlaid.holds g hg
        exact ⟨t, rest, hrelative, hrest, (hmem t).mpr (.inl ht), by rw [hfiles, hget]⟩
      · rw [hfiles] at hget
        exact hlaid.only other path node hget
    · exact call_triple (fun w n h => ⟨Laid.callfree w n h.1, h.2⟩) fun w h => h.1.framed

/-! All files. -/

/-- No file is on the way to one that is placed before it. -/
def Apart (files : List Placed) : Prop :=
  files.Pairwise fun g f => f.relative <+: g.relative → f.relative.length < 2

/-- **One file after those before it.** -/
theorem place_triple {f : Placed}
    (hapart : ∀ g ∈ done, f.relative <+: g.relative → f.relative.length < 2) :
    Triple (Laid k image done done) (place k f) (fun _ => Laid k image (done ++ [f]) (done ++ [f]))
      (fun _ => Framed k image) := by
  unfold place
  cases hrelative : f.relative with
  | nil => exact Triple.throw fun w h => h.framed
  | cons top rest =>
    refine Triple.ite (fun _ => Triple.throw fun w h => h.framed) fun hrest => ?_
    have hf : f ∈ done ++ [f] := List.mem_append_right _ (List.mem_singleton_self f)
    have hlong : 2 ≤ f.relative.length := by
      have hpos := List.length_pos_iff.mpr hrest
      rw [hrelative, List.length_cons]
      omega
    refine Triple.imp (P := Laid k image done (done ++ [f])) ?_ (fun w h => h.begin f)
      (fun _ _ h => h) (fun _ _ h => h)
    refine Triple.bind (directory_triple hf (by rw [hrelative]; rfl)) fun _ => ?_
    exact writeBytes_triple hrelative hrest fun g hg hbelow => absurd (hapart g hg hbelow)
      (Nat.not_lt.mpr hlong)

/-- **All files**, or a failure on the way. -/
theorem forM_place_triple {files : List Placed} (hapart : Apart files) :
    Triple (Laid k image [] []) (files.forM (place k)) (fun _ => Laid k image files files)
      (fun _ => Framed k image) := by
  refine Triple.forM (fun front => Laid k image front front) fun front f rest hfiles =>
    place_triple fun g hg => ?_
  rw [Apart, hfiles] at hapart
  exact (List.pairwise_append.mp hapart).2.2 g hg f List.mem_cons_self

end

end Conglobate.Isolation.Shell
