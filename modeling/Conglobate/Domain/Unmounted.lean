import Conglobate.Domain.Stops
import Conglobate.Step.Custody

/- When the storage of a step is unmounted (`step/execution.rs`, `domain/helper.rs`).

   The run of a step sees the domain's cancellation, the reap of its helper and the drain
   as operations that answer. Here they are those of the domain (`Answered`), with all that
   the processes do meanwhile. What a journal says was done was done (`Honest`), so an
   unmounted step had its processes stopped: `unmounted_alone`. -/
namespace Conglobate.Domain

open Process Processes Execution
open Journal (Enters Writes)

/-- How a run ends, without its world. -/
def outcome {α : Type} (x : Run α) (w : World) : Except IoError α :=
  match x w with
  | .ok a _ => .ok a
  | .error e _ => .error e

theorem outcome_eq_ok {α : Type} {x : Run α} {w : World} {a : α} :
    outcome x w = .ok a ↔ ∃ w', x w = .ok a w' := by
  unfold outcome
  cases x w with
  | ok b w' => simp
  | error e w' => simp

section Domain
variable {R U N D ε α : Type}

theorem ending_inj {r r' : Except ε α} {log log' : List Event}
    (h : Journal.ending r log = Journal.ending r' log') :
    log = log' := by
  cases r with
  | ok a =>
    cases r' with
    | ok a' => exact (EStateM.Result.ok.inj h).2
    | error e' => cases h
  | error e =>
    cases r' with
    | ok a' => cases h
    | error e' => exact (EStateM.Result.error.inj h).2

/-- The operations on processes are those of the domain, from a world. -/
structure Answered (k : Kernel) (helper : Nat) (w : World) (env : Environment R U N Nat D) :
    Prop where
  cancellation : ∀ d, env.cancellation d = outcome (cancel k d) w
  reap : ∀ d, (env.waitUntil d).mapError WaitError.toIo =
    outcome (cancel k d >>= fun _ => waitUntil k helper d k.rounds) w
  drain : ∀ d, env.drainUntil d = outcome (Prod.snd <$> finishUntil k helper d) w

/-- Such operations. -/
def answering (k : Kernel) (helper : Nat) (w : World) (env : Environment R U N Nat D) :
    Environment R U N Nat D :=
  { env with
    cancellation := fun d => outcome (cancel k d) w
    waitUntil := fun d => (outcome (cancel k d >>= fun _ =>
      waitUntil k helper d k.rounds) w).mapError WaitError.io
    drainUntil := fun d => outcome (Prod.snd <$> finishUntil k helper d) w }

variable {env : Environment R U N Nat D} {k : Kernel} {helper : Nat} {w : World}

theorem toIo_io (r : Except IoError α) : (r.mapError WaitError.io).mapError WaitError.toIo = r := by
  cases r with
  | ok a => rfl
  | error e => rfl

theorem answering_answered : Answered k helper w (answering k helper w env) :=
  ⟨fun _ => rfl, fun _ => toIo_io _, fun _ => rfl⟩

/-- A drain that is entered as done was done. -/
def Honest (env : Environment R U N Nat D) (e : Event) : Prop :=
  ∀ d, e = .performed .drain (some d) true → ∃ others, env.drainUntil d = .ok others

theorem honest_reading (t : Instant) : Honest env (.reading t) := fun _ h => Event.noConfusion h

theorem honest_performed {operation : Operation} (h : operation ≠ .drain)
    (deadline : Option Instant) (ok : Bool) :
    Honest env (.performed operation deadline ok) := by
  intro d heq
  exact absurd (Event.performed.inj heq).1 h

theorem now_honest : Enters (Honest env) (Execution.now env : Journal Event ε Instant) :=
  fun log => ⟨.ok (env.clock log.length), [.reading (env.clock log.length)], rfl,
    List.forall_mem_singleton.mpr (honest_reading _)⟩

theorem perform_honest {operation : Operation} (h : operation ≠ .drain) (deadline : Option Instant)
    (answer : Except ε α) :
    Enters (Honest env) (perform operation deadline answer) :=
  Enters.enter (honest_performed h deadline _) answer

theorem drain_honest (d : Instant) : Enters (Honest env)
    (perform .drain (some d) (env.drainUntil d)) := by
  refine Enters.enter (fun d' heq => ?_) _
  obtain ⟨-, hd, hok⟩ := Event.performed.inj heq
  cases hd
  cases hdrain : env.drainUntil d with
  | ok others => exact ⟨others, rfl⟩
  | error e =>
    rw [hdrain] at hok
    cases hok

theorem checkUntil_honest {deadline : Instant} {expired : String} :
    Enters (Honest env) (checkUntil env deadline expired) := by
  refine now_honest.bind fun t => ?_
  split
  · exact Enters.throw _
  · exact Enters.pure _

theorem transfer_honest {step : Step R N} {budget : SetupBudget} :
    Enters (Honest env) (step.transfer env budget) :=
  checkUntil_honest.bind fun _ => perform_honest (by decide) _ _

theorem awaitPrepared_honest {budget : SetupBudget} :
    Enters (Honest env) (budget.awaitPrepared env) := by
  refine checkUntil_honest.bind fun _ => ?_
  refine (perform_honest (by decide) _ _).bind fun _ => ?_
  refine (perform_honest (by decide) _ _).bind fun _ => ?_
  refine (perform_honest (by decide) _ _).bind fun _ => ?_
  exact checkUntil_honest

theorem start_honest {budget : SetupBudget} {timeout : Nat} :
    Enters (Honest env) (budget.start env timeout) := by
  refine checkUntil_honest.attempt.bind fun checked => ?_
  cases checked with
  | error source => exact Enters.throw _
  | ok _ =>
    refine now_honest.bind fun t => ?_
    cases t.checkedAdd timeout with
    | none => exact Enters.throw _
    | some deadline =>
      refine (perform_honest (by decide) _ _).attempt.bind fun started => ?_
      cases started with
      | error source => exact Enters.throw _
      | ok _ =>
        refine now_honest.bind fun t => ?_
        split
        · exact Enters.throw _
        · exact Enters.pure _

theorem observe_honest {command : RunningCommand} :
    Enters (Honest env) (command.observe env : Journal Event ε Observed) := by
  refine Enters.bind ?_ fun outcome => now_honest.bind fun t => Enters.pure _
  refine (perform_honest (by decide) _ _).attempt.bind fun completed => ?_
  cases completed with
  | error e => exact Enters.pure _
  | ok status =>
    refine now_honest.bind fun t => ?_
    split
    · exact Enters.pure _
    · exact Enters.pure _

theorem teardownUntil_honest {step : Step R N} {deadline : Instant} :
    Enters (Honest env) (step.teardownUntil env deadline) := by
  refine Enters.bind ?_ fun finished => checkUntil_honest.bind fun _ => ?_
  · refine (perform_honest (by decide) _ _).bind fun _ => ?_
    refine (perform_honest (by decide) _ _).bind fun _ => ?_
    exact (drain_honest deadline).bind fun _ => Enters.pure _
  · cases step.network with
    | none => exact Enters.pure _
    | some network =>
      refine Enters.bind ?_ fun _ => Enters.pure _
      exact checkUntil_honest.bind fun _ => perform_honest (by decide) _ _

theorem teardown_honest {step : Step R N} : Enters (Honest env) (step.teardown env) :=
  now_honest.bind fun _ => teardownUntil_honest

theorem teardownAfterCommand_honest {step : Step R N} {deadline : Instant} {status : ExitStatus} :
    Enters (Honest env) (step.teardownAfterCommand env deadline status) := by
  refine (perform_honest (by decide) _ _).attempt.bind fun acknowledged => ?_
  refine teardownUntil_honest.attempt.bind fun cleaned => ?_
  cases acknowledged with
  | ok _ => exact Enters.lift _
  | error primary =>
    cases cleaned with
    | ok _ => exact Enters.throw _
    | error cleanup => exact Enters.throw _

theorem observed_honest {observed : Observed} {step : Step R N} :
    Enters (Honest env) (observed.teardown env step) := by
  obtain ⟨outcome, deadline⟩ := observed
  cases outcome with
  | exited status => exact teardownAfterCommand_honest
  | observationFailed e => exact teardownUntil_honest

theorem unmount_honest {completion : TeardownCompletion R Nat} :
    Enters (Honest env) (completion.unmount env) := by
  refine checkUntil_honest.bind fun _ => ?_
  refine (perform_honest (by decide) _ _).bind fun volume => ?_
  refine (perform_honest (by decide) _ _).bind fun _ => ?_
  exact checkUntil_honest.bind fun _ => Enters.pure _

theorem afterTeardown_honest {outcome : ExecutionOutcome}
    {cleanup : Except IoError (TeardownCompletion R Nat)} :
    Enters (Honest env) (afterTeardown env outcome cleanup) := by
  refine Enters.bind ?_ fun finished => ?_
  · exact ((Enters.lift cleanup).bind fun _ => unmount_honest).attempt
  · cases finished with
    | error e =>
      cases outcome.success with
      | true => exact Enters.throw _
      | false => exact Enters.throw _
    | ok finalized =>
      cases outcome.success with
      | true => exact Enters.pure _
      | false => exact Enters.throw _

theorem rejectSetup_honest {step : Step R N} {e : IoError} :
    Enters (Honest env) (step.rejectSetup env e) :=
  teardown_honest.attempt.bind fun _ => afterTeardown_honest

/-- **A journal says nothing that is not so** of its drains. -/
theorem execute_honest {step : Step R N} {budget : SetupBudget} {timeout : Nat} :
    Enters (Honest env) (step.execute env budget timeout) := by
  refine transfer_honest.attempt.bind fun transferred => ?_
  cases transferred with
  | error e => exact rejectSetup_honest
  | ok _ =>
    refine awaitPrepared_honest.attempt.bind fun prepared => ?_
    cases prepared with
    | error e => exact rejectSetup_honest
    | ok _ =>
      refine start_honest.attempt.bind fun started => ?_
      cases started with
      | error failure => exact rejectSetup_honest
      | ok command =>
        refine observe_honest.bind fun observed => ?_
        exact observed_honest.attempt.bind fun _ => afterTeardown_honest

/-- **Nothing is unmounted under a command.** In every run of a step, the storage is unmounted only where the
    domain was stopped by then: its processes are gone, the helper's among them, none of what the others do brings
    one back, and the cleanup of a command that exited was certified. -/
theorem unmounted_alone (env : Environment R U N Nat D) (step : Step R N) (budget : SetupBudget)
    (timeout : Nat) (k : Kernel) (helper : Nat) (w : World) (hanswered : Answered k helper w env)
    (hrooted : Rooted k.supervisor .domain w.processes)
    (hchild : IsChild k.supervisor w.processes helper) :
    ∃ r journal, step.execute env budget timeout [] = Journal.ending r journal ∧
      ∀ before deadline ok after, journal = before ++ .performed .unmount deadline ok :: after →
        ∃ d status others w', deadline = some d ∧ .performed .drain (some d) true ∈ before ∧
          finishUntil k helper d w = .ok (status, others) w' ∧ Alone k w' ∧
          Told k helper w status ∧ (∀ events, Processes.run k.supervisor w'.processes events =
            w'.processes) ∧
          (ended r → .performed .acknowledgment (some d) true ∈ before) := by
  have hreleases : Writes (fun r new => ∀ front : List Event, (∀ e ∈ front, e.Plain) →
      Released (ended r) (front ++ new))
      (step.execute env budget timeout) := execute_released
  have hhonest : Enters (Honest env) (step.execute env budget timeout) := execute_honest
  obtain ⟨r, journal, hrun, hreleased⟩ := hreleases []
  obtain ⟨r', journal', hrun', hentered⟩ := hhonest []
  -- both tell of the same run
  have hjournal : [] ++ journal = [] ++ journal' := ending_inj (hrun.symm.trans hrun')
  cases hjournal
  refine ⟨r, journal, hrun, fun before deadline ok after hsplit => ?_⟩
  obtain ⟨d, hdeadline, hcleared, -⟩ :=
    hreleased [] (List.forall_mem_nil _) before deadline ok after hsplit
  have hbefore : .performed .drain (some d) true ∈ before := by
    apply hcleared.stopped.subset
    simp [stopped]
  have hdrained : .performed .drain (some d) true ∈ journal :=
    hsplit ▸ List.mem_append_left _ hbefore
  obtain ⟨others, hdrain⟩ := hentered _ hdrained d rfl
  rw [hanswered.drain, outcome_eq_ok] at hdrain
  obtain ⟨w', hmap⟩ := hdrain
  obtain ⟨⟨status, total⟩, hfinish, -⟩ := Effect.map_eq_ok.mp hmap
  obtain ⟨halone, htold⟩ := (finishUntil_triple w (Held.initially hrooted hchild)).1 _ w' hfinish
  exact ⟨d, status, total, w', hdeadline, hbefore, hfinish, halone, htold, fun events =>
    run_of_quiet halone.quiet events, hcleared.acknowledged⟩

end Domain

/-- A step whose operations all succeed, with the domain of `sample`. -/
def sampleStep : Environment Unit Unit Unit Nat Unit :=
  answering sample 2 sampleWorld
    { clock := fun n => n
      send := fun _ _ _ => .ok ()
      pair := .ok ()
      sendGateUntil := fun _ => .ok ()
      waitReadyUntil := fun _ => .ok ()
      startReportingUntil := fun _ => .ok ()
      completionUntil := fun _ => .ok ⟨0⟩
      receive := fun _ => .ok (.cleaned ⟨0⟩)
      cancellation := fun _ => .ok ()
      waitUntil := fun _ => .ok ⟨0⟩
      drainUntil := fun _ => .ok 0
      closeResolver := fun _ => .ok ()
      unmountUntil := fun _ _ => .ok ()
      validate := fun _ => .ok () }

def journalOf {ε α : Type} : EStateM.Result ε (List Execution.Event) α → List Execution.Event
  | .ok _ journal => journal
  | .error _ journal => journal

theorem journalOf_ending {ε α : Type} (r : Except ε α) (journal : List Execution.Event) :
    journalOf (Journal.ending r journal) = journal := by
  cases r with
  | ok a => rfl
  | error e => rfl

theorem sample_unmounted : ∃ d status others w', finishUntil sample 2 d sampleWorld =
    .ok (status, others) w' ∧ Alone sample w' := by
  obtain ⟨r, journal, hrun, hall⟩ :=
    unmounted_alone sampleStep ⟨(), none⟩ ⟨100⟩ 100 sample 2 sampleWorld answering_answered
    sample_rooted sample_child
  have hunmounted : .performed .unmount (some 30000000013) true ∈ journalOf
      (Step.execute sampleStep ⟨(), none⟩ ⟨100⟩ 100 []) := by
    decide +kernel
  rw [hrun, journalOf_ending] at hunmounted
  obtain ⟨before, after, hsplit⟩ := List.append_of_mem hunmounted
  obtain ⟨d, status, others, w', -, -, hfinish, halone, -⟩ := hall before _ _ after hsplit
  exact ⟨d, status, others, w', hfinish, halone⟩

end Conglobate.Domain
