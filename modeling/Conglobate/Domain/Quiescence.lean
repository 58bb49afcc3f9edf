import Conglobate.Domain.Cancel

/- What stopping a domain leaves (`domain/mod.rs`, `domain/helper.rs`,
   `process/mod.rs`, `process/reaper.rs`).

   What is proved, of a supervisor whose helper is its child and where everyone else is in
   the domain, under a parent that runs:
     1. `cancel_triple` — a cancellation that succeeds leaves no one of the domain running,
        and no domain.
     2. `waitUntil_triple` — the status is the one the helper ended with.
     3. `drain_triple` — a drain that succeeds leaves the supervisor alone.
     4. `quiescent` — the whole: no process of the command is left, and none can come back;
        and where it fails, the helper is still there to be waited for, or no one runs.

   The others do what they like before every call. What carries the proofs is that what
   they do keeps everyone in the domain (`Held`), until no one runs: then they do nothing
   (`Still`). -/
namespace Conglobate.Domain

open Process Processes Effect

section Calls
variable {k : Kernel} {P : World → Prop} {E : IoError → World → Prop}

/-- What the others cannot change. -/
def Lasting (k : Kernel) (P : World → Prop) : Prop := ∀ w, P w → P (w.advance k)

theorem enter_triple (h : Lasting k P) (hE : ∀ e w, P w → E e w) :
    Triple P (enter k) (fun _ => P) E := by
  intro w hw
  have hnext := h w hw
  unfold enter
  split
  · refine ⟨fun a s' hrun => (by cases hrun), fun e s' hrun => ?_⟩
    cases hrun
    exact hE _ _ hnext
  · refine ⟨fun a s' hrun => ?_, fun e s' hrun => by cases hrun⟩
    cases hrun
    exact hnext

theorem now_triple (h : Lasting k P) : Triple P (now k) (fun _ => P) E := by
  intro w hw
  refine ⟨fun a s' hrun => ?_, fun e s' hrun => by cases hrun⟩
  cases hrun
  exact h w hw

theorem remaining_triple (h : Lasting k P) (hE : ∀ e w, P w → E e w) {deadline : Nat}
    {expired : String} :
    Triple P (remaining k deadline expired) (fun _ => P) E := by
  refine Triple.bind (now_triple h) fun t => Triple.ite (fun _ => ?_) fun _ => ?_
  · exact Triple.pure fun _ hw => hw
  · exact Triple.throw fun _ hw => hE _ _ hw

theorem poll_triple (h : Lasting k P) (hE : ∀ e w, P w → E e w) :
    Triple P (poll k) (fun _ => P) E := by
  intro w hw
  have hnext := h w hw
  unfold poll
  split
  · split
    · refine ⟨fun a s' hrun => ?_, fun e s' hrun => by cases hrun⟩
      cases hrun
      exact hnext
    · refine ⟨fun a s' hrun => (by cases hrun), fun e s' hrun => ?_⟩
      cases hrun
      exact hE _ _ hnext
  · refine ⟨fun a s' hrun => ?_, fun e s' hrun => by cases hrun⟩
    cases hrun
    exact hnext

/-- The world after the others' turn. -/
theorem get_triple : Triple P (get : Run World) (fun s w => s = w ∧ P w) E :=
  Triple.get fun _ hw => ⟨rfl, hw⟩

/-- **Watching an exit** changes nothing. -/
theorem waitExit_triple (h : Lasting k P) (hE : ∀ e w, P w → E e w)
    {process deadline rounds : Nat} :
    Triple P (waitExit k process deadline rounds) (fun _ => P) E := by
  induction rounds with
  | zero => exact Triple.throw fun _ hw => hE _ _ hw
  | succ rounds ih =>
    refine Triple.bind (Q := fun _ => P) ?_ fun exited => ?_
    · refine Triple.bind (enter_triple h hE) fun _ => ?_
      exact Triple.bind get_triple fun s => Triple.pure fun _ hw => hw.2
    · refine Triple.ite (fun _ => Triple.pure fun _ hw => hw) fun _ => ?_
      refine Triple.bind (remaining_triple h hE) fun _ => ?_
      exact Triple.bind (poll_triple h hE) fun _ => ih

end Calls

/-! Invariants. -/

/-- The processes after so many calls, with no one waited for by the supervisor. -/
def left (k : Kernel) (start : World) : Nat → Table Cgroup ExitStatus
  | 0 => start.processes
  | n + 1 => Processes.run k.supervisor (left k start n) (k.others (start.calls + n))

/-- The helper ended so, by one of the calls. -/
def Told (k : Kernel) (helper : Nat) (start : World) (status : ExitStatus) : Prop :=
  ∃ n e, (left k start n).get? helper = some e ∧ e.ended = some status

/-- Everyone is in the domain, the helper is the supervisor's, and what was done to them the
    others did. -/
structure Held (k : Kernel) (helper : Nat) (start w : World) : Prop where
  rooted : Rooted k.supervisor .domain w.processes
  child : IsChild k.supervisor w.processes helper
  alone : ∃ n, w.processes = left k start n ∧ w.calls = start.calls + n

/-- No one of the domain runs, and there is no domain. -/
structure Still (k : Kernel) (w : World) : Prop where
  rooted : Rooted k.supervisor .domain w.processes
  quiet : Quiet k.supervisor w.processes
  directory : w.directory = false
  killed : w.killed = true

variable {k : Kernel} {helper deadline rounds : Nat} {start w : World}

theorem Held.advance : Lasting k (Held k helper start) := by
  intro w h
  obtain ⟨n, hprocesses, hcalls⟩ := h.alone
  refine ⟨h.rooted.run _, child_run h.child _, n + 1, ?_, ?_⟩
  · show Processes.run k.supervisor w.processes (k.others w.calls) = _
    rw [hprocesses, hcalls]
    rfl
  · show w.calls + 1 = _
    omega

theorem Held.initially (hrooted : Rooted k.supervisor .domain start.processes)
    (hchild : IsChild k.supervisor start.processes helper) :
    Held k helper start start :=
  ⟨hrooted, hchild, 0, rfl, rfl⟩

theorem Held.told (h : Held k helper start w) {e : Entry Cgroup ExitStatus} {status : ExitStatus}
    (he : w.processes.get? helper = some e) (hended : e.ended = some status) :
    Told k helper start status := by
  obtain ⟨n, hprocesses, -⟩ := h.alone
  exact ⟨n, e, hprocesses ▸ he, hended⟩

theorem Still.advance : Lasting k (Still k) := by
  intro w h
  have hsame : (w.advance k).processes = w.processes := run_of_quiet h.quiet _
  exact ⟨hsame ▸ h.rooted, hsame ▸ h.quiet, h.directory, h.killed⟩

theorem lasting_and {P Q : World → Prop} (hP : Lasting k P) (hQ : Lasting k Q) :
    Lasting k fun w => P w ∧ Q w :=
  fun w h => ⟨hP w h.1, hQ w h.2⟩

theorem lasting_killed : Lasting k fun w => w.killed = true := fun _ h => h

/-! The domain. -/

/-- Who is not populated is quiet, as there is no one elsewhere. -/
theorem quiet_of_not_populated (h : Rooted k.supervisor .domain w.processes)
    (hempty : populated w = false) :
    Quiet k.supervisor w.processes := by
  intro p e he hne
  have hmem := OrdMap.get?_eq_some.mp he
  have hall := List.any_eq_false.mp hempty (p, e) hmem
  have hgroup := h.groups p e he hne
  simpa [hgroup, Option.isSome_iff_ne_none] using hall

theorem readEvents_triple {P : World → Prop} {E : IoError → World → Prop} (h : Lasting k P)
    (hE : ∀ e w, P w → E e w) :
    Triple P (readEvents k) (fun text w => P w ∧ ∃ frozen,
      text = eventsText (populated w) frozen) E := by
  refine Triple.bind (enter_triple h hE) fun _ => ?_
  refine Triple.bind get_triple fun s => Triple.pure fun w hw => ?_
  obtain ⟨rfl, hw⟩ := hw
  exact ⟨hw, k.frozen s.calls, rfl⟩

theorem waitEmpty_triple :
    Triple (fun w => Held k helper start w ∧ w.killed = true) (waitEmpty k deadline rounds)
      (fun _ w => Held k helper start w ∧ w.killed = true ∧ Quiet k.supervisor w.processes)
      (fun _ => Held k helper start) := by
  have hkeep : Lasting k fun w => Held k helper start w ∧ w.killed = true :=
    lasting_and Held.advance lasting_killed
  have hfail : ∀ (e : IoError) w, Held k helper start w ∧ w.killed = true → Held k helper start w :=
    fun _ _ h => h.1
  induction rounds with
  | zero => exact Triple.throw fun w hw => hw.1
  | succ rounds ih =>
    refine Triple.bind (enter_triple hkeep hfail) fun _ => ?_
    refine Triple.bind (readEvents_triple hkeep hfail) fun text => ?_
    refine Triple.ite (fun _ => Triple.throw fun w hw => hw.1.1) fun _ => ?_
    refine Triple.bind (Q := fun value w => (Held k helper start w ∧ w.killed = true) ∧
      value = populated w) ?_ fun value => ?_
    · refine Triple.lift (fun value w hvalue hw => ?_) fun e w _ hw => hw.1.1
      obtain ⟨hheld, frozen, rfl⟩ := hw
      rw [domainEvents_eventsText] at hvalue
      exact ⟨hheld, (Except.ok.inj hvalue).symm⟩
    · refine Triple.ite (fun _ => ?_) fun hfalse => ?_
      · -- still populated: its events are polled, and read again
        refine Triple.imp (P := fun w => Held k helper start w ∧ w.killed = true) ?_
          (fun _ hw => hw.1) (fun _ _ h => h) fun _ _ h => h
        refine Triple.bind (remaining_triple hkeep hfail) fun _ => ?_
        refine Triple.bind (poll_triple hkeep hfail) fun _ => ?_
        refine Triple.bind get_triple fun s => Triple.ite
          (fun _ => Triple.throw fun w hw => hw.2.1) fun _ => ?_
        exact Triple.imp ih (fun w hw => hw.2) (fun _ _ h => h) fun _ _ h => h
      · refine Triple.pure fun w hw => ?_
        obtain ⟨⟨hheld, hkilled⟩, rfl⟩ := hw
        exact ⟨hheld, hkilled, quiet_of_not_populated hheld.rooted (Bool.not_eq_true _ ▸ hfalse)⟩

theorem lasting_quiet : Lasting k fun w => Quiet k.supervisor w.processes := by
  intro w h
  have hsame : (w.advance k).processes = w.processes := run_of_quiet h _
  rw [hsame]
  exact h

/-- **A cancelled domain** has no one running, and is gone. -/
theorem cancel_triple :
    Triple (Held k helper start) (cancel k deadline) (fun _ w => Held k helper start w ∧ Still k w)
      (fun _ => Held k helper start) := by
  have hkeep : Lasting k (Held k helper start) := Held.advance
  have hfail : ∀ (e : IoError) w, Held k helper start w → Held k helper start w := fun _ _ h => h
  refine Triple.bind (enter_triple hkeep hfail) fun _ => ?_
  refine Triple.bind get_triple fun s => ?_
  refine Triple.bind (Q := fun _ => Held k helper start)
    (Triple.lift (fun _ w _ hw => hw.2) fun _ w _ hw => hw.2) fun _ => ?_
  refine Triple.bind (enter_triple hkeep hfail) fun _ => ?_
  refine Triple.bind (enter_triple hkeep hfail) fun _ => ?_
  refine Triple.bind (Q := fun _ w => Held k helper start w ∧ w.killed = true)
    (Triple.modify fun w hw => ⟨⟨hw.rooted, hw.child, hw.alone⟩, rfl⟩) fun _ => ?_
  refine Triple.bind (enter_triple (lasting_and hkeep lasting_killed) fun _ _ h => h.1) fun _ => ?_
  refine Triple.bind waitEmpty_triple fun _ => ?_
  refine Triple.bind (enter_triple (lasting_and hkeep
    (lasting_and lasting_killed lasting_quiet)) fun _ _ h => h.1) fun _ => ?_
  refine Triple.bind get_triple fun s => ?_
  refine Triple.ite (fun _ => Triple.throw fun w hw => hw.2.1) fun _ => Triple.set fun w hw => ?_
  obtain ⟨rfl, hheld, hkilled, hquiet⟩ := hw
  exact ⟨⟨hheld.rooted, hheld.child, hheld.alone⟩, hheld.rooted, hquiet, rfl, hkilled⟩

/-! The helper. -/

theorem Still.erase (h : Still k w) {p : Nat} {e : Entry Cgroup ExitStatus}
    (he : w.processes.get? p = some e) (hended : e.ended.isSome = true) :
    Still k { w with processes := w.processes.erase p } :=
  ⟨h.rooted.erase he hended, h.quiet.erase p, h.directory, h.killed⟩

theorem tryWait_triple :
    Triple (fun w => Held k helper start w ∧ Still k w) (tryWait k helper)
      (fun status w => Still k w ∧ (∀ s, status = some s → Told k helper start s) ∧
        (status = none → Held k helper start w))
      (fun _ w => Held k helper start w ∨ Still k w) := by
  have hkeep : Lasting k fun w => Held k helper start w ∧ Still k w :=
    lasting_and Held.advance Still.advance
  refine Triple.bind (enter_triple hkeep fun _ _ h => .inl h.1) fun _ => ?_
  refine Triple.bind get_triple fun s => ?_
  refine Triple.of_state fun w hw => ?_
  obtain ⟨rfl, hheld, hstill⟩ := hw
  refine Triple.bind (Q := fun found w => w = s ∧ collect k s helper = .ok found) ?_ fun found => ?_
  · exact Triple.lift (fun found w hfound hw => ⟨hw, hfound⟩) fun _ w _ hw => hw ▸ .inl hheld
  · refine Triple.bind (Q := fun _ w => w = found.2 ∧ collect k s helper = .ok found)
      (Triple.set fun w hw => ⟨rfl, hw.2⟩) fun _ => ?_
    refine Triple.pure fun w hw => ?_
    obtain ⟨rfl, hfound⟩ := hw
    unfold collect at hfound
    split at hfound
    · cases hfound
    · rename_i e he
      split at hfound
      · cases hfound
      · cases hfound
        cases hended : e.ended with
        | none =>
          rw [Option.isSome_none, if_neg Bool.false_ne_true]
          exact ⟨hstill, fun s hs => (by cases hs), fun _ => hheld⟩
        | some status =>
          rw [Option.isSome_some, if_pos rfl]
          refine ⟨hstill.erase he (by rw [hended]; rfl), fun s hs => ?_, fun hs => by cases hs⟩
          cases hs
          exact hheld.told he hended

theorem waitUntil_triple :
    Triple (fun w => Held k helper start w ∧ Still k w) (waitUntil k helper deadline rounds)
      (fun status w => Still k w ∧ Told k helper start status)
        (fun _ w => Held k helper start w ∨ Still k w) := by
  have hkeep : Lasting k fun w => Held k helper start w ∧ Still k w :=
    lasting_and Held.advance Still.advance
  induction rounds with
  | zero => exact Triple.throw fun w hw => .inl hw.1
  | succ rounds ih =>
    refine Triple.bind tryWait_triple fun status => ?_
    cases status with
    | some status => exact Triple.pure fun w hw => ⟨hw.1, hw.2.1 status rfl⟩
    | none =>
      refine Triple.imp (P := fun w => Held k helper start w ∧ Still k w) ?_
        (fun w hw => ⟨hw.2.2 rfl, hw.1⟩) (fun _ _ h => h) fun _ _ h => h
      refine Triple.bind ?_ fun _ => ih
      exact Triple.adaptExcept (waitExit_triple hkeep fun _ _ h => .inl h.1)

/-! The others. -/

theorem mem_endedChildren {p : Nat} (h : p ∈ endedChildren k w) :
    ∃ e, w.processes.get? p = some e ∧ e.ended.isSome = true := by
  obtain ⟨⟨q, e⟩, hmem, rfl⟩ := List.mem_map.mp h
  obtain ⟨hmem, hended⟩ := List.mem_filter.mp hmem
  rw [Bool.and_eq_true] at hended
  exact ⟨e, OrdMap.get?_eq_some.mpr hmem, hended.2⟩

theorem pick_mem {l : List Nat} {p : Nat} (h : pick k w l = some p) :
    p ∈ l := List.mem_of_getElem? h

theorem waitAny_triple :
    Triple (Still k) (waitAny k) (fun waited w => Still k w ∧
      (waited = .noChildren → children k w = [])) (fun _ => Still k) := by
  intro w hw
  have hnext := Still.advance w hw
  unfold waitAny
  split
  · split
    · refine ⟨fun a s' hrun => ?_, fun e s' hrun => by cases hrun⟩
      cases hrun
      exact ⟨hnext, fun h => by cases h⟩
    · refine ⟨fun a s' hrun => (by cases hrun), fun e s' hrun => ?_⟩
      cases hrun
      exact hnext
  · split
    · rename_i hnone
      refine ⟨fun a s' hrun => ?_, fun e s' hrun => by cases hrun⟩
      cases hrun
      exact ⟨hnext, fun _ => hnone⟩
    · split
      · refine ⟨fun a s' hrun => ?_, fun e s' hrun => by cases hrun⟩
        cases hrun
        exact ⟨hnext, fun h => by cases h⟩
      · rename_i p hp
        refine ⟨fun a s' hrun => ?_, fun e s' hrun => by cases hrun⟩
        cases hrun
        obtain ⟨e, he, hended⟩ := mem_endedChildren (pick_mem hp)
        exact ⟨hnext.erase he hended, fun h => by cases h⟩

theorem waitForChild_triple : Triple (Still k) (waitForChild k deadline) (fun _ => Still k)
    (fun _ => Still k) := by
  have hkeep : Lasting k (Still k) := Still.advance
  have hfail : ∀ (e : IoError) w, Still k w → Still k w := fun _ _ h => h
  refine Triple.bind (enter_triple hkeep hfail) fun _ => ?_
  refine Triple.bind get_triple fun s => ?_
  split
  · exact Triple.throw fun w hw => hw.2
  · refine Triple.imp (P := Still k) ?_ (fun w hw => hw.2) (fun _ _ h => h) fun _ _ h => h
    refine Triple.bind (enter_triple hkeep hfail) fun _ => ?_
    refine Triple.bind (enter_triple hkeep hfail) fun _ => ?_
    refine Triple.bind get_triple fun s => Triple.ite (fun _ => ?_) fun _ =>
      Triple.throw fun w hw => hw.2
    exact Triple.imp (waitExit_triple hkeep hfail) (fun w hw => hw.2)
      (fun _ _ h => h) fun _ _ h => h

theorem drainLoop_triple {collected : Nat} :
    Triple (Still k) (drainLoop k deadline rounds collected)
      (fun _ w => Still k w ∧ children k w = []) (fun _ => Still k) := by
  induction rounds generalizing collected with
  | zero => exact Triple.throw fun w hw => hw
  | succ rounds ih =>
    refine Triple.bind waitAny_triple fun waited => ?_
    cases waited with
    | noChildren => exact Triple.pure fun w hw => ⟨hw.1, hw.2 rfl⟩
    | interrupted => exact Triple.imp ih (fun w hw => hw.1) (fun _ _ h => h) fun _ _ h => h
    | stillAlive =>
      refine Triple.imp (P := Still k) ?_ (fun w hw => hw.1) (fun _ _ h => h) fun _ _ h => h
      exact Triple.bind waitForChild_triple fun _ => ih
    | reaped process =>
      refine Triple.imp (P := Still k) ?_ (fun w hw => hw.1) (fun _ _ h => h) fun _ _ h => h
      refine Triple.bind (Q := fun _ => Still k) (Triple.lift (fun _ w _ hw => hw) fun _ w _ hw =>
        hw) fun total => ?_
      refine Triple.bind (now_triple Still.advance) fun t => ?_
      exact Triple.ite (fun _ => Triple.throw fun w hw => hw) fun _ => ih

theorem drain_triple : Triple (Still k) (drain k deadline)
    (fun _ w => Still k w ∧ children k w = []) (fun _ => Still k) := by
  refine Triple.bind (enter_triple Still.advance fun _ _ h => h) fun _ => ?_
  refine Triple.bind get_triple fun s => Triple.ite (fun _ => ?_) fun _ =>
    Triple.throw fun w hw => hw.2
  exact Triple.imp drainLoop_triple (fun w hw => hw.2) (fun _ _ h => h) fun _ _ h => h

/-- Only the supervisor is there, the domain was killed and is gone. -/
structure Alone (k : Kernel) (w : World) : Prop where
  processes : ∀ p, (w.processes.get? p).isSome = true ↔ p = k.supervisor
  directory : w.directory = false
  killed : w.killed = true

theorem Still.alone (h : Still k w) (hnone : children k w = []) : Alone k w := by
  refine ⟨fun p => ⟨fun hp => ?_, fun hp => ?_⟩, h.directory, h.killed⟩
  · by_contra hne
    obtain ⟨e, he⟩ := Option.isSome_iff_exists.mp hp
    have hparent := h.rooted.parent_of_quiet h.quiet he hne
    have hmem : p ∈ children k w := by
      refine List.mem_map.mpr ⟨(p, e), List.mem_filter.mpr ⟨OrdMap.get?_eq_some.mp he, ?_⟩, rfl⟩
      simp [hparent, hne]
    rw [hnone] at hmem
    cases hmem
  · obtain ⟨e, he, -⟩ := isRunning_iff.mp h.rooted.running
    rw [hp, he]
    rfl

/-- Then nothing happens. -/
theorem Alone.quiet (h : Alone k w) : Quiet k.supervisor w.processes := by
  intro p e he hne
  exact absurd ((h.processes p).mp (by rw [he]; rfl)) hne

theorem finishUntil_triple :
    Triple (Held k helper start) (finishUntil k helper deadline)
      (fun stopped w => Alone k w ∧ Told k helper start stopped.1)
        (fun _ w => Held k helper start w ∨ Still k w) := by
  refine Triple.bind (Triple.imp cancel_triple (fun _ h => h) (fun _ _ h => h) fun _ _ h =>
    .inl h) fun _ => ?_
  refine Triple.bind waitUntil_triple fun status => ?_
  refine Triple.of_state fun w hw => ?_
  refine Triple.bind (Q := fun _ w => Still k w ∧ children k w = []) ?_ fun others => ?_
  · exact Triple.imp drain_triple (fun s hs => hs ▸ hw.1) (fun _ _ h => h) fun _ _ h => .inr h
  · exact Triple.pure fun s hs => ⟨hs.1.alone hs.2, hw.2⟩

/-- **A command that was stopped is gone.** No process but the supervisor is left, nothing the others do
    brings one back, and the helper's status is the one it ended with. Where stopping it fails, the helper is
    still the supervisor's to wait for, or no one of the domain runs any more and the domain is gone. -/
theorem quiescent (k : Kernel) (helper deadline : Nat) (w : World)
    (hrooted : Rooted k.supervisor .domain w.processes)
    (hchild : IsChild k.supervisor w.processes helper) :
    (∀ status others w', finishUntil k helper deadline w = .ok (status, others) w' →
      Alone k w' ∧ Told k helper w status ∧ ∀ events,
        Processes.run k.supervisor w'.processes events = w'.processes) ∧
    ∀ e w', finishUntil k helper deadline w = .error e w' →
      Rooted k.supervisor .domain w'.processes ∧
        (IsChild k.supervisor w'.processes helper ∨
          Quiet k.supervisor w'.processes ∧ w'.directory = false ∧ w'.killed = true) := by
  have hheld : Held k helper w w := Held.initially hrooted hchild
  have htriple : Triple (Held k helper w) (finishUntil k helper deadline)
      (fun stopped w' => Alone k w' ∧ Told k helper w stopped.1)
        (fun _ w' => Held k helper w w' ∨ Still k w') := finishUntil_triple
  obtain ⟨hok, herror⟩ := htriple w hheld
  refine ⟨fun status others w' hrun => ?_, fun e w' hrun => ?_⟩
  · obtain ⟨halone, htold⟩ := hok _ w' hrun
    exact ⟨halone, htold, fun events => run_of_quiet halone.quiet events⟩
  · obtain hheld | hstill := herror e w' hrun
    · exact ⟨hheld.rooted, .inl hheld.child⟩
    · exact ⟨hstill.rooted, .inr ⟨hstill.quiet, hstill.directory, hstill.killed⟩⟩

/-- Four processes: the helper's child forks, and they end one after the other. -/
def sample : Kernel where
  supervisor := 1
  lease _ := .ok ()
  subreaper _ := true
  procfs _ := true
  clock n := n
  refuses _ := none
  others
    | 3 => [.fork 3 4, .exit 3 2 ⟨9⟩]
    | 7 => [.exit 2 1 ⟨0⟩]
    | 8 => [.exit 4 1 ⟨9⟩]
    | _ => []
  frozen _ := false
  unavailable _ := false
  picks n := n
  rounds := 50

def sampleWorld : World where
  processes := ((OrdMap.empty.insert 1 ⟨0, .outside, none⟩).insert 2 ⟨1, .domain, none⟩).insert 3
    ⟨2, .domain, none⟩
  directory := true
  killed := false
  calls := 0

theorem sample_rooted : Rooted sample.supervisor .domain sampleWorld.processes := by
  have hparents : ∀ e ∈ sampleWorld.processes.entries, e.1 ≠ 1 →
      isRunning sampleWorld.processes e.2.parent = true ∧ e.2.group = .domain := by
    decide
  refine ⟨by decide, fun p e he hne => ?_, fun p e he hne => ?_⟩
  · exact (hparents _ (OrdMap.get?_eq_some.mp he) hne).1
  · exact (hparents _ (OrdMap.get?_eq_some.mp he) hne).2

theorem sample_child : IsChild sample.supervisor sampleWorld.processes 2 :=
  ⟨⟨1, .domain, none⟩, rfl, rfl⟩

theorem sample_quiescent : ∃ status others w', finishUntil sample 2 100 sampleWorld =
    .ok (status, others) w' ∧ Alone sample w' ∧ Told sample 2 sampleWorld status := by
  have hrun : succeeds (finishUntil sample 2 100 sampleWorld) = true := by decide +kernel
  obtain ⟨⟨status, others⟩, w', hrun⟩ := exists_of_succeeds hrun
  obtain ⟨halone, htold, -⟩ :=
    (quiescent sample 2 100 sampleWorld sample_rooted sample_child).1 status others w' hrun
  exact ⟨status, others, w', hrun, halone, htold⟩

end Conglobate.Domain
