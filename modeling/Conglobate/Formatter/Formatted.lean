import Conglobate.Formatter.Execution
import Conglobate.Formatter.Selected

/- Who owns what a formatter writes and runs (`formatter/execution.rs`).

   What is proved:
     1. `reject_drives` — giving up closes the snapshot's views and the runtime, whatever is
        refused on the way;
     2. `reap_drives` — a formatter that may still run keeps both;
     3. `spawned_reaped` — an owner's formatters are reaped, or run;
     4. `custody` — in every run, whatever is refused and whatever the clock says, the steps
        are those of an owner (`Custody.next`), nothing is given up before every formatter is
        reaped, and a run succeeds only with every device formatted;
     5. `selected_formats` — with what was selected for the same format, and a disk that has
        room, a formatting does succeed where nothing is refused.

   The first two are what the fourth needs of its failures. -/
namespace Conglobate.Formatter.Execution

open Journal (Drives Writes replay ending)
open Process (ExitStatus)

variable {a : Answers} {deadline : Nat} {c : CapturedFormatter} {f : Ext4Format} {s : Custody}

/-! Operations. -/

theorem ask_drives {α : Type} {operation : Operation} {value : Nat → α}
    {Q : Except IoError α → Custody → Prop}
    (hok : ∀ v, ∃ t, s.next (.performed operation true) = some t ∧ Q (.ok v) t)
    (herror : ∀ e, ∃ t, s.next (.performed operation false) = some t ∧ Q (.error e) t) :
    Drives Custody.next s Q (ask a operation value) := by
  intro log
  unfold ask
  cases a.refuse operation log.length with
  | none =>
    obtain ⟨t, hnext, hq⟩ := hok (value log.length)
    refine ⟨.ok (value log.length), [.performed operation true], rfl, t, ?_, hq⟩
    rw [replay, List.foldlM_cons, hnext]
    rfl
  | some e =>
    obtain ⟨t, hnext, hq⟩ := herror e
    refine ⟨.error e, [.performed operation false], rfl, t, ?_, hq⟩
    rw [replay, List.foldlM_cons, hnext]
    rfl

/-- An operation that changes no custody. -/
theorem perform_stays {operation : Operation}
    (h : ∀ ok, s.next (.performed operation ok) = some s) :
    Drives Custody.next s (fun _ t => t = s) (perform a operation) :=
  ask_drives (fun _ => ⟨s, h true, rfl⟩) fun _ => ⟨s, h false, rfl⟩

theorem perform_goes {operation : Operation} {t : Custody}
    (h : ∀ ok, s.next (.performed operation ok) = some t) :
    Drives Custody.next s (fun _ u => u = t) (perform a operation) :=
  ask_drives (fun _ => ⟨t, h true, rfl⟩) fun _ => ⟨t, h false, rfl⟩

theorem now_drives : Drives Custody.next s (fun _ t => t = s) (now a) := by
  intro log
  refine ⟨.ok (a.clock log.length), [.reading (a.clock log.length)], rfl, s, ?_, rfl⟩
  rw [replay, List.foldlM_cons]
  cases s <;> rfl

theorem recover_drives {α : Type} {x : Journal Event IoError α}
    {handle : IoError → Journal Event FormatError α} {P : Except IoError α → Custody → Prop}
    {Q : Except FormatError α → Custody → Prop} (hx : Drives Custody.next s P x)
    (hok : ∀ v t, P (.ok v) t → Q (.ok v) t)
    (herror : ∀ e t, P (.error e) t → Drives Custody.next t Q (handle e)) :
    Drives Custody.next s Q (recover x handle) := by
  refine Drives.attempt_bind hx fun r t hp => ?_
  cases r with
  | ok v => exact Drives.pure (hok v t hp)
  | error e => exact herror e t hp

/-- **Giving up**, where both are owned and nothing runs. -/
theorem reject_drives {α : Type} {e : IoError}
    (h : ∀ ok, s.next (.performed .views ok) = some .releasing) :
    Drives Custody.next s (fun r t => (∃ error, r = .error error) ∧
      t = .released) (reject a e : Journal Event FormatError α) := by
  have hstorage : Drives Custody.next s (fun _ t => t = .releasing) (do
      perform a .views
      perform a .close
      perform a .detach) := by
    refine Drives.bind (perform_goes h) (fun _ _ ht => ht) fun _ t ht => ?_
    rw [ht]
    refine Drives.bind (perform_stays fun _ => rfl) (fun _ _ ht => ht) fun _ t ht => ?_
    rw [ht]
    exact perform_stays fun _ => rfl
  refine Drives.attempt_bind hstorage fun storage t ht => ?_
  rw [ht]
  have hruntime : Drives Custody.next .releasing (fun _ t => t = .released) (perform a .runtime) :=
    perform_goes fun _ => rfl
  exact Drives.attempt_bind hruntime fun runtime t ht => Drives.throw ⟨⟨_, rfl⟩, ht⟩

theorem closeRuntime_drives {α : Type} {e : IoError} :
    Drives Custody.next .runtime (fun r t => (∃ error, r = .error error) ∧ t = .released)
      (closeRuntime a e : Journal Event FormatError α) := by
  have hruntime : Drives Custody.next .runtime (fun _ t => t = .released) (perform a .runtime) :=
    perform_goes fun _ => rfl
  exact Drives.attempt_bind hruntime fun runtime t ht => Drives.throw ⟨⟨_, rfl⟩, ht⟩

/-! Launch. -/

theorem checkBudget_drives : Drives Custody.next s (fun _ t => t = s) (checkBudget a deadline) := by
  refine Drives.bind now_drives (fun _ _ ht => ht) fun t u hu => ?_
  rw [hu]
  split
  · exact Drives.throw rfl
  · exact Drives.pure rfl

theorem prepare_drives {l : List Device} {invocation : Invocation} :
    Drives Custody.next (.held l) (fun _ t => t = .held l) (prepare a deadline invocation) := by
  have hcutoff : Drives Custody.next (.held l) (fun _ t => t = .held l) (cutoff a deadline) := by
    refine Drives.bind checkBudget_drives (fun _ _ ht => ht) fun _ t ht => ?_
    rw [ht]
    exact perform_stays fun _ => rfl
  refine Drives.bind hcutoff (fun _ _ ht => ht) fun _ t ht => ?_
  rw [ht]
  refine Drives.bind (perform_stays fun _ => rfl) (fun _ _ ht => ht) fun _ t ht => ?_
  rw [ht]
  exact perform_stays fun _ => rfl

theorem spawn_drives {l : List Device} {invocation : Invocation}
    (h : Custody.turn l = some invocation.device) :
    Drives Custody.next (.held l) (fun r t => (r = .ok () → t = .running l invocation.device) ∧
      ∀ e, r = .error e → t = .held l)
      (perform a (.spawn invocation)) :=
  ask_drives (fun _ => ⟨.running l invocation.device, if_pos h, fun _ => rfl,
    fun e heq => by cases heq⟩)
    fun e => ⟨.held l, if_pos h, fun heq => (by cases heq), fun _ _ => rfl⟩

/-- The ESP's formatter is to run exactly where there is an ESP. -/
def Ready (f : Ext4Format) (next : Option Invocation) : Prop :=
  next.isSome = f.esp.isSome ∧ ∀ invocation ∈ next, invocation.device = .esp

theorem except_option_mapM_isSome {ε α β : Type} {g : α → Except ε β} {o : Option α} {r : Option β}
    (h : o.mapM g = .ok r) :
    r.isSome = o.isSome := by
  cases o with
  | none =>
    cases h
    rfl
  | some v =>
    obtain ⟨w, -, hw⟩ := except_map_eq_ok.mp h
    rw [← hw]
    rfl

theorem espFormat_isSome {esp : Option Fat32Format} (h : f.espFormat = .ok esp) :
    esp.isSome = f.esp.isSome :=
  except_option_mapM_isSome h

theorem prepareEsp_drives : Drives Custody.next (.held [])
    (fun r t => t = .held [] ∧ ∀ next, r = .ok next → Ready f next)
      (prepareEsp a deadline c f) := by
  refine Drives.bind (Drives.lift (Q := fun r t => t = .held [] ∧ r = f.espFormat) ⟨rfl, rfl⟩)
    (fun e t h => ⟨h.1, fun next heq => by cases heq⟩) fun esp t h => ?_
  obtain ⟨rfl, hesp⟩ := h
  have hsome := espFormat_isSome hesp.symm
  split
  · rename_i hnone
    refine Drives.pure ⟨rfl, fun next heq => ?_⟩
    cases heq
    rw [Option.isNone_iff_eq_none.mp hnone] at hsome
    exact ⟨hsome, fun invocation hmem => by cases hmem⟩
  · rename_i hesp
    split
    · exact Drives.throw ⟨rfl, fun next heq => by cases heq⟩
    · split
      · exact Drives.throw ⟨rfl, fun next heq => by cases heq⟩
      · refine Drives.bind prepare_drives (fun e t ht =>
          ⟨ht, fun next heq => by cases heq⟩) fun _ t ht => ?_
        refine Drives.pure ⟨ht, fun next heq => ?_⟩
        cases heq
        refine ⟨?_, fun invocation hmem => ?_⟩
        · rw [← hsome, Option.isSome_some]
          refine (Option.isSome_iff_ne_none.mpr fun hnone => hesp ?_).symm
          rw [hnone]
          rfl
        · cases hmem
          rfl

theorem launch_drives : Drives Custody.next (.held [])
    (fun r t => (∀ next, r = .ok next → Ready f next ∧ t = .running [] .root) ∧ ∀ e, r = .error e →
      t = .held [])
    (launch a deadline c f) := by
  have hfailed : ∀ {e : IoError} {t : Custody}, t = .held [] →
      (∀ next, (.error e : Except IoError (Option Invocation)) = .ok next → Ready f next ∧
        t = .running [] .root) ∧
        ∀ e', (.error e : Except IoError (Option Invocation)) = .error e' → t = .held [] :=
    fun ht => ⟨fun next heq => (by cases heq), fun e' _ => ht⟩
  refine Drives.bind checkBudget_drives (fun e t ht => hfailed ht) fun _ t ht => ?_
  rw [ht]
  split
  · exact Drives.throw (hfailed rfl)
  · refine Drives.bind prepareEsp_drives (fun e t ht => hfailed ht.1) fun next t ht => ?_
    obtain ⟨rfl, hready⟩ := ht
    refine Drives.bind prepare_drives (fun e t ht => hfailed ht) fun _ t ht => ?_
    rw [ht]
    refine Drives.bind checkBudget_drives (fun e t ht => hfailed ht) fun _ t ht => ?_
    rw [ht]
    have hturn : Custody.turn [] = some (ext4Invocation c f).device := rfl
    refine Drives.bind (spawn_drives hturn) (fun e t ht => hfailed (ht.2 e rfl)) fun _ t ht => ?_
    refine Drives.pure ⟨fun next' heq => ?_, fun e heq => by cases heq⟩
    cases heq
    exact ⟨hready next rfl, ht.1 rfl⟩

/-! Formatting. -/

/-- A failure that gave up what it owned, or keeps it for a formatter that may still run. -/
def Abandoned (s : Custody) : Prop := s = .released ∨ ∃ l device, s = .running l device

theorem format_drives {carapace : Carapace} : Drives Custody.next .runtime
    (fun r t => (∀ next, r = .ok next → Ready f next ∧ t = .running [] .root) ∧ ∀ e, r = .error e →
      t = .runtime ∨ t = .released)
    (format a deadline c f carapace) := by
  have hreleased : ∀ {r : Except FormatError (Option Invocation)} {t : Custody},
      (∃ error, r = .error error) ∧ t = .released →
      (∀ next, r = .ok next → Ready f next ∧ t = .running [] .root) ∧ ∀ e, r = .error e →
          t = .runtime ∨ t = .released := by
    intro r t h
    obtain ⟨⟨error, rfl⟩, ht⟩ := h
    exact ⟨fun next heq => (by cases heq), fun e _ => .inr ht⟩
  have hchecked : Drives Custody.next .runtime (fun _ t => t = .runtime) (do
      checkBudget a deadline
      let _ ← Journal.lift (f.layout carapace)) := by
    refine Drives.bind checkBudget_drives (fun _ _ ht => ht) fun _ t ht => ?_
    rw [ht]
    refine Drives.bind (Drives.lift (Q := fun _ t => t = .runtime) rfl)
      (fun _ _ ht => ht) fun _ t ht => ?_
    exact Drives.pure ht
  have hbare : Drives Custody.next .runtime (fun _ t => t = .runtime) (recover (do
      checkBudget a deadline
      let _ ← Journal.lift (f.layout carapace)) bare) := by
    refine recover_drives hchecked (fun _ _ ht => ht) fun e t ht => ?_
    rw [ht]
    exact Drives.throw rfl
  refine Drives.bind hbare (fun e t ht => ⟨fun next heq => (by cases heq),
    fun _ _ => .inl ht⟩) fun _ t ht => ?_
  rw [ht]
  have hcreate : Drives Custody.next .runtime (fun r t => (∀ e, r = .error e → t = .released) ∧
      (r = .ok () → t = .held []))
      (recover (perform a .create) (closeRuntime a)) := by
    have hperform : Drives Custody.next .runtime (fun r t => (∀ e, r = .error e → t = .runtime) ∧
        (r = .ok () → t = .held []))
        (perform a .create) :=
      ask_drives (fun _ => ⟨.held [], rfl, fun e heq => (by cases heq), fun _ => rfl⟩)
        fun e => ⟨.runtime, rfl, fun _ _ => rfl, fun heq => by cases heq⟩
    refine recover_drives hperform (fun v t ht => ⟨fun e heq => (by cases heq),
      fun _ => ht.2 rfl⟩) fun e t ht => ?_
    rw [ht.1 e rfl]
    refine closeRuntime_drives.imp fun r t h => ?_
    obtain ⟨⟨error, rfl⟩, ht⟩ := h
    exact ⟨fun _ _ => ht, fun heq => by cases heq⟩
  refine Drives.bind hcreate (fun e t ht => ⟨fun next heq => (by cases heq), fun _ _ => .inr
    (ht.1 e rfl)⟩) fun _ t ht => ?_
  rw [ht.2 rfl]
  refine recover_drives launch_drives (fun next t ht =>
    ⟨fun next' heq => ?_, fun e heq => by cases heq⟩) fun e t ht => ?_
  · cases heq
    exact ht.1 next rfl
  · rw [ht.2 e rfl]
    exact (reject_drives fun _ => rfl).imp fun r t h => hreleased h

/-- **A formatter is reaped**, or given up, or may still run, and then both are kept. -/
theorem reap_drives {l : List Device} {device : Device} : Drives Custody.next (.running l device)
    (fun r t => (∀ status, r = .ok status → t = .reaped l device) ∧ ∀ e, r = .error e → Abandoned t)
      (reap a device) := by
  have hwait : Drives Custody.next (.running l device)
      (fun r t => (∀ status, r = .ok status → t = .reaped l device) ∧ ∀ e, r = .error e →
        t = .running l device)
      (ask a (.wait device) a.status) :=
    ask_drives (fun _ => ⟨.reaped l device, if_pos rfl, fun _ _ => rfl, fun e heq => by cases heq⟩)
      fun e => ⟨.running l device, if_pos rfl, fun _ heq => (by cases heq), fun _ _ => rfl⟩
  refine recover_drives hwait (fun status t ht => ⟨fun _ _ => ht.1 status rfl,
    fun e heq => by cases heq⟩) fun e t ht => ?_
  rw [ht.2 e rfl]
  have hterminate : Drives Custody.next (.running l device)
      (fun r t => (r = .ok () → t = .reaped l device) ∧ ∀ e, r = .error e →
          t = .running l device) (do
        let _ ← now a
        perform a (.terminate device)) := by
    refine Drives.bind now_drives (fun e t ht => ⟨fun heq => (by cases heq),
      fun _ _ => ht⟩) fun _ t ht => ?_
    rw [ht]
    exact ask_drives (fun _ => ⟨.reaped l device, if_pos rfl, fun _ => rfl,
      fun e heq => by cases heq⟩)
      fun e => ⟨.running l device, if_pos rfl, fun heq => (by cases heq), fun _ _ => rfl⟩
  refine Drives.attempt_bind hterminate fun terminated t ht => ?_
  cases terminated with
  | ok done =>
    rw [ht.1 rfl]
    refine (reject_drives fun _ => rfl).imp fun r t h => ?_
    obtain ⟨⟨error, rfl⟩, ht⟩ := h
    exact ⟨fun _ heq => (by cases heq), fun _ _ => .inl ht⟩
  -- the formatter may still run, and nothing is given up
  | error cleanup =>
    exact Drives.throw ⟨fun _ heq => (by cases heq), fun _ _ => .inr ⟨l, device, ht.2 cleanup rfl⟩⟩

theorem finish_drives {l : List Device} {device : Device} {status : ExitStatus} :
    Drives Custody.next (.reaped l device)
    (fun r t => (r = .ok () → t = .held (l ++ [device])) ∧ ∀ e, r = .error e → t = .reaped l device)
      (finish a deadline status) := by
  have hfailed : ∀ {e : IoError}, ((.error e : Except IoError Unit) = .ok () →
      Custody.reaped l device = .held (l ++ [device])) ∧
      ∀ e', (.error e : Except IoError Unit) = .error e' → Custody.reaped l device =
          .reaped l device :=
    ⟨fun heq => (by cases heq), fun _ _ => rfl⟩
  refine Drives.bind now_drives (fun e t ht => ?_) fun _ t ht => ?_
  · rw [ht]
    exact hfailed
  rw [ht]
  split
  · exact Drives.throw hfailed
  · split
    · exact Drives.throw hfailed
    · exact ask_drives (fun _ => ⟨.held (l ++ [device]), rfl, fun _ => rfl,
        fun e heq => by cases heq⟩)
        fun e => ⟨.reaped l device, rfl, hfailed⟩

/-- One formatter, from where it runs to where its device is formatted. -/
theorem settle_drives {l : List Device} {device : Device} {α : Type}
    {rest : Journal Event FormatError α} {Q : Except FormatError α → Custody → Prop}
    (hfailed : ∀ e t, Abandoned t → Q (.error e) t)
    (hrest : Drives Custody.next (.held (l ++ [device])) Q rest) :
    Drives Custody.next (.running l device) Q (do
      let status ← reap a device
      recover (finish a deadline status) (reject a)
      rest) := by
  refine Drives.bind reap_drives (fun e t ht => hfailed e t (ht.2 e rfl)) fun status t ht => ?_
  rw [ht.1 status rfl]
  have hfinish : Drives Custody.next (.reaped l device)
      (fun r t => (r = .ok () → t = .held (l ++ [device])) ∧ ∀ e, r = .error e → Abandoned t)
      (recover (finish a deadline status) (reject a)) := by
    refine recover_drives finish_drives (fun v t ht =>
      ⟨fun _ => ht.1 rfl, fun e heq => by cases heq⟩) fun e t ht => ?_
    rw [ht.2 e rfl]
    refine (reject_drives fun _ => rfl).imp fun r t h => ?_
    obtain ⟨⟨error, rfl⟩, ht⟩ := h
    exact ⟨fun heq => (by cases heq), fun _ _ => .inl ht⟩
  refine Drives.bind hfinish (fun e t ht => hfailed e t (ht.2 e rfl)) fun _ t ht => ?_
  rw [ht.1 rfl]
  exact hrest

theorem wait_none_drives {l : List Device} {device : Device} :
    Drives Custody.next (.running l device)
    (fun r t => (r = .ok () → t = .held (l ++ [device])) ∧ ∀ e, r = .error e → Abandoned t)
      (wait a deadline device none) := by
  rw [wait]
  apply settle_drives
  · exact fun e t ht => ⟨fun heq => (by cases heq), fun _ _ => ht⟩
  · exact Drives.pure ⟨fun _ => rfl, fun e heq => by cases heq⟩

/-- The devices a format has. -/
def devices (f : Ext4Format) : List Device := if f.esp.isSome then [.root, .esp] else [.root]

theorem wait_drives {next : Option Invocation} (h : Ready f next) :
    Drives Custody.next (.running [] .root)
    (fun r t => (r = .ok () → t = .held (devices f)) ∧ ∀ e, r = .error e → Abandoned t)
      (wait a deadline .root next) := by
  obtain ⟨hsome, hdevice⟩ := h
  cases next with
  | none =>
    have hdevices : devices f = [.root] := if_neg (by rw [← hsome]; decide)
    rw [hdevices]
    exact wait_none_drives
  | some invocation =>
    have hdevices : devices f = [.root, .esp] := if_pos hsome.symm
    have hesp : invocation.device = .esp := hdevice invocation rfl
    rw [hdevices, wait]
    apply settle_drives
    · exact fun e t ht => ⟨fun heq => (by cases heq), fun _ _ => ht⟩
    -- the ESP's formatter is spawned behind the root's sync
    · have hturn : Custody.turn ([] ++ [.root]) = some invocation.device := by rw [hesp]; rfl
      have hspawn : Drives Custody.next (.held ([] ++ [.root]))
          (fun r t => (r = .ok () → t = .running [.root] .esp) ∧ ∀ e, r = .error e → Abandoned t)
          (recover (perform a (.spawn invocation)) (reject a)) := by
        refine recover_drives (spawn_drives hturn)
          (fun v t ht => ⟨fun _ => ?_, fun e heq => by cases heq⟩) fun e t ht => ?_
        · rw [ht.1 rfl, hesp]
          rfl
        · rw [ht.2 e rfl]
          refine (reject_drives fun _ => rfl).imp fun r t h => ?_
          obtain ⟨⟨error, rfl⟩, ht⟩ := h
          exact ⟨fun heq => (by cases heq), fun _ _ => .inl ht⟩
      refine Drives.bind hspawn (fun e t ht => ⟨fun heq => (by cases heq),
        fun _ _ => ht.2 e rfl⟩) fun _ t ht => ?_
      rw [ht.1 rfl, hesp]
      exact wait_none_drives

/-! What is given up, and when. -/

/-- A formatter that was spawned is reaped by then. -/
def Reaped (invocation : Invocation) (steps : List Event) : Prop :=
  ∃ operation, (operation = .wait invocation.device ∨ operation = .terminate invocation.device) ∧
    Event.performed operation true ∈ steps

/-- An operation that gives something up. -/
def Gives (operation : Operation) : Prop :=
  operation = .views ∨ operation = .close ∨ operation = .detach ∨ operation = .runtime

theorem running_keeps {l : List Device} {device : Device} {operation : Operation} {ok : Bool}
    (h : Gives operation) :
    (Custody.running l device).next (.performed operation ok) = none := by
  obtain rfl | rfl | rfl | rfl := h <;> rfl

theorem next_spawn {invocation : Invocation} {t : Custody}
    (h : s.next (.performed (.spawn invocation) true) = some t) :
    ∃ l, t = .running l invocation.device := by
  cases s with
  | held l =>
    rw [Custody.next] at h
    split at h
    · exact ⟨l, (Option.some.inj h).symm⟩
    · cases h
  | runtime => cases h
  | running l device => cases h
  | reaped l device => cases h
  | releasing => cases h
  | released => cases h

/-- A formatter runs until it is reaped. -/
theorem next_running {l : List Device} {device : Device} {event : Event} {t : Custody}
    (h : (Custody.running l device).next event = some t) :
    t = .running l device ∨
      ∃ operation, (operation = .wait device ∨ operation = .terminate device) ∧
        event = .performed operation true := by
  have hsame : ∀ {other : Device} {t' : Custody}, (if device = other then some t' else none) =
      some t → device = other ∧ t = t' := by
    intro other t' heq
    split at heq
    · rename_i hdevice
      exact ⟨hdevice, (Option.some.inj heq).symm⟩
    · cases heq
  cases event with
  | reading clock => exact .inl (Option.some.inj h).symm
  | performed operation ok =>
    cases operation with
    | wait other =>
      cases ok with
      | true => exact .inr ⟨.wait device, .inl rfl, by rw [(hsame h).1]⟩
      | false => exact .inl (hsame h).2
    | terminate other =>
      cases ok with
      | true => exact .inr ⟨.terminate device, .inr rfl, by rw [(hsame h).1]⟩
      | false => exact .inl (hsame h).2
    | create => cases ok <;> cases h
    | cutoff => cases h
    | command invocation => cases h
    | input other => cases h
    | spawn invocation => cases ok <;> cases h
    | sync => cases ok <;> cases h
    | views => cases h
    | close => cases h
    | detach => cases h
    | runtime => cases h

/-- **A formatter that was spawned** is reaped, or runs. -/
theorem spawned_reaped {steps : List Event} (h : replay Custody.next .runtime steps = some s) :
    ∀ front invocation rest, steps = front ++ .performed (.spawn invocation) true :: rest →
      Reaped invocation rest ∨ ∃ l, s = .running l invocation.device := by
  induction steps using List.reverseRecOn generalizing s with
  | nil =>
    exact fun front invocation rest heq => absurd heq.symm
      (List.append_ne_nil_of_right_ne_nil _ (List.cons_ne_nil _ _))
  | append_singleton before event ih =>
    intro front invocation rest heq
    rw [Journal.replay_append] at h
    obtain ⟨mid, hmid, hevent⟩ := Option.bind_eq_some_iff.mp h
    have hnext : mid.next event = some s := by
      rw [replay, List.foldlM_cons] at hevent
      obtain ⟨t, ht, hrest⟩ := Option.bind_eq_some_iff.mp hevent
      cases hrest
      exact ht
    obtain rfl | ⟨rest', last, rfl⟩ := List.eq_nil_or_concat rest
    · -- it was spawned just now
      obtain ⟨-, hlast⟩ := List.append_inj' heq rfl
      rw [List.singleton_inj.mp hlast] at hnext
      exact .inr (next_spawn hnext)
    · rw [List.concat_eq_append] at heq ⊢
      rw [← List.cons_append, ← List.append_assoc] at heq
      obtain ⟨hbefore, hlast⟩ := List.append_inj' heq rfl
      obtain hreaped | ⟨l, rfl⟩ := ih hmid front invocation rest' hbefore
      · obtain ⟨operation, hoperation, hmem⟩ := hreaped
        exact .inl ⟨operation, hoperation, List.mem_append_left _ hmem⟩
      · obtain hruns | ⟨operation, hoperation, hreap⟩ := next_running hnext
        · exact .inr ⟨l, hruns⟩
        · refine .inl ⟨operation, hoperation, List.mem_append_right _ ?_⟩
          rw [← List.singleton_inj.mp hlast, hreap]
          exact List.mem_singleton_self _

/-- **Custody.** Whatever is refused and whatever the clock says, the steps of a run are
    those of an owner: each formatter is spawned on what is synced, the root's first. Nothing
    is given up before every formatter that was spawned is reaped. A run succeeds only with
    every device formatted and both still owned; one that fails behind the first spawn has
    given both up, or a formatter may still run. -/
theorem custody (a : Answers) (deadline : Nat) (c : CapturedFormatter) (f : Ext4Format)
    (carapace : Carapace) :
    ∃ r journal s, run a deadline c f carapace [] = ending r journal ∧
      replay Custody.next .runtime journal = some s ∧
      (r = .ok () → s = .held (devices f)) ∧ (∀ e, r = .error e → s = .runtime ∨ Abandoned s) ∧
      ∀ before operation ok after, journal = before ++ .performed operation ok :: after →
        Gives operation →
        ∀ front invocation rest, before = front ++ .performed (.spawn invocation) true :: rest →
          Reaped invocation rest := by
  have hrun : Drives Custody.next .runtime
      (fun r t => (r = .ok () → t = .held (devices f)) ∧ ∀ e, r = .error e → t = .runtime ∨
        Abandoned t)
      (run a deadline c f carapace) := by
    refine Drives.bind format_drives (fun e t ht =>
      ⟨fun heq => (by cases heq), fun _ _ => ?_⟩) fun next t ht => ?_
    · exact (ht.2 e rfl).imp_right .inl
    · obtain ⟨hready, rfl⟩ := ht.1 next rfl
      exact (wait_drives hready).imp fun r t h => ⟨h.1, fun e he => .inr (h.2 e he)⟩
  obtain ⟨r, journal, hend, s, hreplay, hok, herror⟩ := hrun []
  refine ⟨r, journal, s, hend, hreplay, hok, herror,
    fun before operation ok after heq hgives front invocation rest hspawn => ?_⟩
  rw [heq, Journal.replay_append] at hreplay
  obtain ⟨mid, hmid, hafter⟩ := Option.bind_eq_some_iff.mp hreplay
  obtain hreaped | ⟨l, rfl⟩ := spawned_reaped hmid front invocation rest hspawn
  · exact hreaped
  · rw [replay, List.foldlM_cons, running_keeps hgives] at hafter
    cases hafter

/-! Where nothing is refused. -/

/-- Whatever was done before, the computation succeeds. -/
def Succeeds {ε α : Type} (P : α → Prop) (x : Journal Event ε α) :
    Prop := ∀ log, ∃ v log', x log = .ok v log' ∧ P v

namespace Succeeds

variable {ε α β : Type} {P : α → Prop} {Q : β → Prop}

theorem pure {v : α} (h : P v) : Succeeds P (pure v : Journal Event ε α) :=
  fun log => ⟨v, log, rfl, h⟩

theorem lift {r : Except ε α} {v : α} (hr : r = .ok v) (h : P v) :
    Succeeds P (Journal.lift r : Journal Event ε α) := by
  intro log
  rw [hr]
  exact ⟨v, log, rfl, h⟩

theorem bind {x : Journal Event ε α} {g : α → Journal Event ε β} (hx : Succeeds P x)
    (hg : ∀ v, P v → Succeeds Q (g v)) :
    Succeeds Q (x >>= g) := by
  intro log
  obtain ⟨v, mid, hrun, hp⟩ := hx log
  obtain ⟨w, log', hrest, hq⟩ := hg v hp mid
  exact ⟨w, log', (Journal.bind_of_ok hrun).trans hrest, hq⟩

theorem recover {x : Journal Event IoError α} {handle : IoError → Journal Event FormatError α}
    (hx : Succeeds P x) :
    Succeeds P (recover x handle) := by
  intro log
  obtain ⟨v, log', hrun, hp⟩ := hx log
  exact ⟨v, log', (Journal.attempt_bind_of_ok hrun).trans rfl, hp⟩

end Succeeds

/-- No operation is refused, the deadline does not pass, what is made has the views the
    format needs, and the formatters succeed. -/
structure Willing (a : Answers) (deadline : Nat) (f : Ext4Format) : Prop where
  refuse : ∀ operation n, a.refuse operation n = none
  clock : ∀ n, a.clock n < deadline
  esp : a.esp = f.esp.isSome
  status : ∀ n, (a.status n).success = true

section Willing
variable {a : Answers} {deadline : Nat} {c : CapturedFormatter} {f : Ext4Format}

theorem ask_succeeds (h : Willing a deadline f) {α : Type} {operation : Operation} {value : Nat → α}
    {P : α → Prop} (hvalue : ∀ n, P (value n)) : Succeeds P (ask a operation value) := by
  intro log
  unfold ask
  rw [h.refuse]
  exact ⟨_, _, rfl, hvalue _⟩

theorem perform_succeeds (h : Willing a deadline f) (operation : Operation) :
    Succeeds (fun _ => True) (perform a operation) :=
  ask_succeeds h fun _ => trivial

theorem now_succeeds (h : Willing a deadline f) : Succeeds (fun t => t < deadline) (now a) :=
  fun log => ⟨_, _, rfl, h.clock log.length⟩

theorem checkBudget_succeeds (h : Willing a deadline f) :
    Succeeds (fun _ => True) (checkBudget a deadline) := by
  refine Succeeds.bind (now_succeeds h) fun t ht => ?_
  rw [if_neg (Nat.not_le.mpr ht)]
  exact Succeeds.pure trivial

theorem prepare_succeeds (h : Willing a deadline f) (invocation : Invocation) :
    Succeeds (fun _ => True) (prepare a deadline invocation) := by
  refine Succeeds.bind (P := fun _ => True) ?_ fun _ _ => ?_
  · exact Succeeds.bind (checkBudget_succeeds h) fun _ _ => perform_succeeds h _
  · exact Succeeds.bind (perform_succeeds h _) fun _ _ => perform_succeeds h _

theorem prepareEsp_succeeds (h : Willing a deadline f) {esp : Option Fat32Format}
    (hesp : f.espFormat = .ok esp) (hfat : c.fat.isSome = f.esp.isSome) :
    Succeeds (fun _ => True) (prepareEsp a deadline c f) := by
  have hsome := espFormat_isSome hesp
  refine Succeeds.bind (P := fun found => found = esp) (Succeeds.lift hesp rfl) fun found hfound =>
    ?_
  rw [hfound]
  split
  · exact Succeeds.pure trivial
  · rename_i hnone
    have hthere : f.esp.isSome = true := by
      rw [← hsome]
      exact Option.isSome_iff_ne_none.mpr (by simpa using hnone)
    rw [hthere] at hfat
    rw [if_neg (by rw [h.esp, hthere]; decide)]
    split
    · rename_i hmissing
      rw [hmissing] at hfat
      cases hfat
    · exact Succeeds.bind (prepare_succeeds h _) fun _ _ => Succeeds.pure trivial

theorem wait_succeeds (h : Willing a deadline f) (device : Device) (next : Option Invocation) :
    Succeeds (fun _ => True) (wait a deadline device next) := by
  have hsettle : ∀ (device : Device) (rest : Journal Event FormatError Unit),
      Succeeds (fun _ => True) rest → Succeeds (fun _ => True) (do
        let status ← reap a device
        recover (finish a deadline status) (reject a)
        rest) := by
    intro device rest hrest
    refine Succeeds.bind (P := fun status => status.success = true) (Succeeds.recover
      (ask_succeeds h h.status)) fun status hstatus => ?_
    refine Succeeds.bind (P := fun _ => True) (Succeeds.recover ?_) fun _ _ => hrest
    refine Succeeds.bind (now_succeeds h) fun t ht => ?_
    rw [if_neg (Nat.not_le.mpr ht), if_neg (by rw [hstatus]; decide)]
    exact perform_succeeds h _
  have hlast : ∀ device, Succeeds (fun _ => True) (wait a deadline device none) := by
    intro device
    rw [wait]
    exact hsettle device _ (Succeeds.pure trivial)
  cases next with
  | none => exact hlast device
  | some invocation =>
    rw [wait]
    apply hsettle
    exact Succeeds.bind (P := fun _ => True) (Succeeds.recover (perform_succeeds h _)) fun _ _ =>
      hlast invocation.device

end Willing

/-- What the builder adds to what it selects. -/
theorem configured_of_selected {host : Host} {spec : Plan.Format} {c : CapturedFormatter}
    (h : forFilesystem host spec = .ok c) :
    configured c = true ∧ c.fat.isSome = spec.esp.isSome := by
  obtain ⟨captured, hcaptured, h⟩ := except_bind_eq_ok.mp h
  obtain ⟨tool, htool, hconfigured⟩ := except_bind_eq_ok.mp hcaptured
  obtain ⟨-, hnofat, -⟩ := hostTool_provides htool
  obtain ⟨-, hfat, -, hfiles⟩ := withConfiguration_eq_ok hconfigured
  have hconfiguration : captured.files.get? configurationPath = some configuration := by
    rw [hfiles, OrdMap.get?_insert, if_pos rfl]
  have hentry : ∀ {d : CapturedFormatter}, d.files.get? configurationPath = some configuration →
      configured d = true := by
    intro d hd
    refine List.any_eq_true.mpr ⟨(configurationPath, configuration), OrdMap.get?_eq_some.mp hd, ?_⟩
    simp [configuration]
  split at h
  · rename_i hesp
    obtain ⟨fat, -, hwith⟩ := except_bind_eq_ok.mp h
    obtain ⟨-, hfat', hdiffer, hextended⟩ := withFat_eq_ok hwith
    refine ⟨hentry ?_, ?_⟩
    · rw [hextended]
      exact get?_extend_of_differ hdiffer hconfiguration
    · rw [hfat', hesp]
      rfl
  · rename_i hesp
    cases h
    have hnone : spec.esp.isSome = false := Bool.not_eq_true _ ▸ hesp
    refine ⟨hentry hconfiguration, ?_⟩
    rw [hfat, hnofat, hnone]
    rfl

/-- **A selected runtime formats.** With what was selected for a format, and a disk that
    has room for it, a formatting succeeds where nothing is refused. -/
theorem selected_formats (host : Host) (spec : Plan.Format) (c : CapturedFormatter) (a : Answers)
    (deadline : Nat) (carapace : Carapace) (hselected : forFilesystem host spec = .ok c)
    (hlayout : ((Ext4Format.ofFormat spec).layout carapace).isOk = true)
    (hwilling : Willing a deadline (Ext4Format.ofFormat spec)) :
    ∃ journal, run a deadline c (Ext4Format.ofFormat spec) carapace [] = .ok () journal := by
  obtain ⟨hconfigured, hfat⟩ := configured_of_selected hselected
  obtain ⟨layout, hlayout⟩ : ∃ layout, (Ext4Format.ofFormat spec).layout carapace = .ok layout := by
    cases hlayout' : (Ext4Format.ofFormat spec).layout carapace with
    | ok layout => exact ⟨layout, rfl⟩
    | error e =>
      rw [hlayout'] at hlayout
      cases hlayout
  obtain ⟨esp, hesp⟩ : ∃ esp, (Ext4Format.ofFormat spec).espFormat = .ok esp := by
    rw [Ext4Format.layout] at hlayout
    split at hlayout
    · cases hlayout
    · obtain ⟨esp, hesp, -⟩ := except_bind_eq_ok.mp hlayout
      exact ⟨esp, hesp⟩
  have hlaunch : Succeeds (fun _ => True) (launch a deadline c (Ext4Format.ofFormat spec)) := by
    refine Succeeds.bind (checkBudget_succeeds hwilling) fun _ _ => ?_
    rw [if_neg (by rw [hconfigured]; decide)]
    refine Succeeds.bind (prepareEsp_succeeds hwilling hesp hfat) fun next _ => ?_
    refine Succeeds.bind (prepare_succeeds hwilling _) fun _ _ => ?_
    refine Succeeds.bind (checkBudget_succeeds hwilling) fun _ _ => ?_
    exact Succeeds.bind (perform_succeeds hwilling _) fun _ _ => Succeeds.pure trivial
  have hformat : Succeeds (fun _ => True) (format a deadline c
      (Ext4Format.ofFormat spec) carapace) := by
    refine Succeeds.bind (P := fun _ => True) (Succeeds.recover ?_) fun _ _ => ?_
    · refine Succeeds.bind (checkBudget_succeeds hwilling) fun _ _ => ?_
      exact Succeeds.bind (P := fun _ => True) (Succeeds.lift hlayout trivial) fun _ _ =>
        Succeeds.pure trivial
    · refine Succeeds.bind (P := fun _ => True) (Succeeds.recover
        (perform_succeeds hwilling _)) fun _ _ => ?_
      exact Succeeds.recover hlaunch
  obtain ⟨done, journal, hrun, -⟩ :=
    Succeeds.bind hformat (fun next _ => wait_succeeds hwilling .root next) []
  exact ⟨journal, hrun⟩

/-! Answers that refuse nothing. -/

def sampleAnswers : Answers where
  clock _ := 0
  refuse _ _ := none
  esp := true
  status _ := ⟨0⟩
  display _ := ""

/-- Two GiB. -/
def sampleCarapace : Carapace := ⟨2 ^ 22, by decide⟩

theorem sample_formats : ∃ c journal, forFilesystem sampleHost sampleFormat = .ok c ∧
    run sampleAnswers 1 c (Ext4Format.ofFormat sampleFormat) sampleCarapace [] =
      .ok () journal := by
  obtain ⟨c, hc⟩ := sample_captured
  have hlayout : ((Ext4Format.ofFormat sampleFormat).layout sampleCarapace).isOk = true := by
    decide +kernel
  have hwilling : Willing sampleAnswers 1 (Ext4Format.ofFormat sampleFormat) :=
    ⟨fun _ _ => rfl, fun _ => Nat.zero_lt_one, rfl, fun _ => rfl⟩
  obtain ⟨journal, hrun⟩ :=
    selected_formats sampleHost sampleFormat c sampleAnswers 1 sampleCarapace hc hlayout hwilling
  exact ⟨c, journal, hc, hrun⟩

end Conglobate.Formatter.Execution
