import Conglobate.Isolation.Gate

/- The execution gate authorises once and in order (`gate_authorizes`).

   Each end of the pair only ever reads its channel in order, so the phase of a party
   says what its channel began with: `Supervisor.Keeps` and `Init.Keeps` are what the
   phases say, each of them kept by what the other party does because a channel that
   was read from the front is only added to at its end. -/
namespace Conglobate.Isolation

open Process

variable {D α σ : Type}

/-! Packets. -/

abbrev readyPacket : Datagram D := opcodePacket 1
abbrev startPacket : Datagram D := opcodePacket 2

/-- The report of a status. -/
def statusPacket (status : ExitStatus) : Datagram D :=
  ⟨[0x83, 1, 3, 0x44] ++ Bytes.be 4 status.raw.toNat, []⟩

theorem receiveNow_eq_ok {capacity : Nat} {d received : Datagram D} :
    receiveNow capacity d = .ok received ↔
      (d.bytes.length ≤ capacity ∧ d.descriptors.length ≤ maxDescriptors) ∧ d = received := by
  unfold receiveNow
  split
  · rename_i hlong
    refine iff_of_false (fun h => by cases h) (fun h => ?_)
    omega
  · rename_i hfits
    rw [Except.ok.injEq, and_iff_right]
    omega

/-- **One packet for each phase**: three bytes, and no descriptors. -/
theorem checkOpcode_eq_ok {opcode : UInt8} {d : Datagram D} :
    checkOpcode opcode d = .ok () ↔ d = opcodePacket opcode := by
  obtain ⟨bytes, descriptors⟩ := d
  rw [checkOpcode, except_bind_eq_ok]
  constructor
  · rintro ⟨received, hreceived, h⟩
    obtain ⟨-, rfl⟩ := receiveNow_eq_ok.mp hreceived
    split at h
    · cases h
    · split at h
      · cases h
      · rename_i hgood
        simp only [not_or, not_not, Bool.not_eq_true, Bool.not_eq_false', List.isEmpty_iff] at hgood
        obtain ⟨hlength, hbytes, rfl⟩ := hgood
        rw [List.take_of_length_le (Nat.le_of_eq hlength)] at hbytes
        rw [hbytes]
        rfl
  · intro h
    cases h
    refine ⟨_, receiveNow_eq_ok.mpr ⟨⟨?_, Nat.zero_le _⟩, rfl⟩, ?_⟩
    · show 3 ≤ 4
      decide
    · simp

theorem completionStatus_eq_ok {bytes : Bytes} {status : ExitStatus} (hlength : bytes.length = 8) :
    CompletionPacket.status bytes = .ok status ↔ bytes = (statusPacket (D := D) status).bytes ∧
      Terminal status := by
  unfold CompletionPacket.status
  constructor
  · intro h
    split at h
    · cases h
    · rename_i hprefix
      split at h
      · rename_i hvalid
        cases h
        refine ⟨?_, validStatus_iff.mp hvalid⟩
        have hrest : (bytes.drop 4).length = 4 := by rw [List.length_drop, hlength]
        show bytes = [0x83, 1, 3, 0x44] ++ Bytes.be 4 _
        rw [Packet.bytes_status hrest, ← not_not.mp hprefix, List.take_append_drop]
      · cases h
  · rintro ⟨rfl, hterminal⟩
    have hrest : (statusPacket (D := D) status).bytes.drop 4 = Bytes.be 4 status.raw.toNat := rfl
    have hprefix : (statusPacket (D := D) status).bytes.take 4 = [0x83, 1, 3, 0x44] := rfl
    rw [if_neg (not_not.mpr hprefix), hrest, Packet.status_bytes,
      if_pos (validStatus_iff.mpr hterminal)]

/-- **Statuses**: the eight bytes of a terminal one, and no descriptors. -/
theorem checkCompletion_eq_ok {d : Datagram D} {status : ExitStatus} :
    checkCompletion d = .ok status ↔ d = statusPacket status ∧ Terminal status := by
  have hsize : (statusPacket (D := D) status).bytes.length = 8 := by simp [statusPacket]
  rw [checkCompletion, except_bind_eq_ok]
  constructor
  · rintro ⟨received, hreceived, h⟩
    obtain ⟨-, rfl⟩ := receiveNow_eq_ok.mp hreceived
    split at h
    · cases h
    · split at h
      · cases h
      · rename_i hgood
        simp only [not_or, not_not, Bool.not_eq_true, Bool.not_eq_false', List.isEmpty_iff] at hgood
        obtain ⟨hbytes, hterminal⟩ := (completionStatus_eq_ok (D := D) hgood.1).mp h
        obtain ⟨bytes, descriptors⟩ := d
        cases hgood.2
        cases hbytes
        exact ⟨rfl, hterminal⟩
  · rintro ⟨rfl, hterminal⟩
    refine ⟨_, receiveNow_eq_ok.mpr ⟨⟨by rw [hsize]; decide, Nat.zero_le _⟩, rfl⟩, ?_⟩
    rw [if_neg (by rw [hsize]; decide), if_neg]
    · exact (completionStatus_eq_ok hsize).mpr ⟨rfl, hterminal⟩
    · simp [statusPacket]

theorem new_eq_ok {status : ExitStatus} {bytes : Bytes} :
    CompletionPacket.new status = .ok bytes ↔ bytes = (statusPacket (D := D) status).bytes ∧
      Terminal status := by
  unfold CompletionPacket.new
  split
  · rename_i hvalid
    rw [Except.ok.injEq, and_iff_left (validStatus_iff.mp hvalid)]
    exact eq_comm
  · rename_i hvalid
    exact iff_of_false (fun h => by cases h) (fun h => hvalid (validStatus_iff.mpr h.2))

/-- A report is that of one status. -/
theorem statusPacket_injective {a b : ExitStatus}
    (h : (statusPacket a : Datagram D) = statusPacket b) : a = b := by
  have hbytes : Bytes.be 4 a.raw.toNat = Bytes.be 4 b.raw.toNat :=
    List.append_cancel_left (congrArg Datagram.bytes h)
  have hraw : a.raw = b.raw := calc
    a.raw = BitVec.ofNat 32 (Bytes.ofBe (Bytes.be 4 a.raw.toNat)) := (Packet.status_bytes a).symm
    _ = BitVec.ofNat 32 (Bytes.ofBe (Bytes.be 4 b.raw.toNat)) := by rw [hbytes]
    _ = b.raw := Packet.status_bytes b
  cases a
  cases b
  exact congrArg ExitStatus.mk hraw

/-! Rounds. -/

/-- What makes a round be made again: within the deadline, no event, or an interruption. -/
def Retries (deadline now : Nat) (poll : Poll) (answer : Except IoError Bool) : Prop :=
  now < deadline ∧ (poll = .timeout ∨ (∃ e, poll = .failed e ∧ e.kind = .interrupted) ∨
    (poll = .ready true ∧ ∃ e, answer = .error e ∧ retried e = true))

theorem wait_again {deadline now : Nat} {poll : Poll} (h : wait deadline now poll = .again)
    (answer : Except IoError Bool) :
    Retries deadline now poll answer := by
  unfold wait at h
  split at h
  · cases h
  · rename_i hbefore
    refine ⟨Nat.lt_of_not_le hbefore, ?_⟩
    cases poll with
    | timeout => exact .inl rfl
    | ready contains => cases contains <;> cases h
    | failed e =>
      dsimp only at h
      split at h
      · rename_i hkind
        exact .inr (.inl ⟨e, rfl, hkind⟩)
      · cases h

theorem wait_ok {deadline now : Nat} {poll : Poll} (h : wait deadline now poll = .done (.ok ())) :
    now < deadline ∧ poll = .ready true := by
  unfold wait at h
  split at h
  · cases h
  · rename_i hbefore
    refine ⟨Nat.lt_of_not_le hbefore, ?_⟩
    cases poll with
    | timeout => cases h
    | ready contains =>
      cases contains with
      | true => rfl
      | false => cases h
    | failed e =>
      dsimp only at h
      split at h
      · cases h
      · cases h

/-- **One round of sending.** -/
theorem sending_cases {c c' : Channel D} {shut : Bool} {d : Datagram D} {deadline now : Nat}
    {poll : Poll} {answer : Except IoError Bool} {round : Round Unit}
    (h : sending c shut d deadline now poll answer = some (c', round)) :
    (Retries deadline now poll answer ∧ c' = c ∧ round = .again) ∨
      (∃ e, c' = c ∧ round = .done (.error e)) ∨
    (now < deadline ∧ poll = .ready true ∧ answer = .ok true ∧ shut = false ∧ c' = c.put d ∧
      round = .done (.ok ())) := by
  unfold sending at h
  split at h
  · rename_i hwait
    cases h
    exact .inl ⟨wait_again hwait answer, rfl, rfl⟩
  · rename_i e _
    cases h
    exact .inr (.inl ⟨e, rfl, rfl⟩)
  · rename_i hwait
    obtain ⟨hbefore, hpoll⟩ := wait_ok hwait
    split at h
    · cases shut with
      | true => cases h
      | false =>
        cases h
        exact .inr (.inr ⟨hbefore, hpoll, rfl, rfl, rfl, rfl⟩)
    · cases h
      exact .inr (.inl ⟨_, rfl, rfl⟩)
    · rename_i e
      cases hretried : retried e with
      | true =>
        rw [hretried] at h
        cases h
        exact .inl ⟨⟨hbefore, .inr (.inr ⟨hpoll, e, rfl, hretried⟩)⟩, rfl, rfl⟩
      | false =>
        rw [hretried] at h
        cases h
        exact .inr (.inl ⟨e, rfl, rfl⟩)

/-- **One round of receiving**, where no bytes are nothing that is accepted. -/
theorem receiving_cases {c c' : Channel D} {shut : Bool} {check : Datagram D → Except IoError α}
    {deadline now : Nat} {poll : Poll} {answer : Except IoError Bool} {round : Round α}
    (h : receiving c shut check deadline now poll answer = some (c', round))
    (hempty : ∀ a, check ⟨[], []⟩ ≠ .ok a) :
    (Retries deadline now poll answer ∧ c' = c ∧ round = .again) ∨
    (∃ e, (c' = c ∨ c' = c.advance) ∧ round = .done (.error e)) ∨
    (now < deadline ∧ poll = .ready true ∧ ∃ d a, c.next = some d ∧ check d = .ok a ∧
      c' = c.advance ∧ round = .done (.ok a)) := by
  unfold receiving at h
  split at h
  · rename_i hwait
    cases h
    exact .inl ⟨wait_again hwait answer, rfl, rfl⟩
  · rename_i e _
    cases h
    exact .inr (.inl ⟨e, .inl rfl, rfl⟩)
  · rename_i hwait
    obtain ⟨hbefore, hpoll⟩ := wait_ok hwait
    split at h
    · rw [Channel.receive] at h
      cases hnext : c.next with
      | some d =>
        rw [hnext] at h
        cases h
        cases hcheck : check d with
        | error e => exact .inr (.inl ⟨e, .inr rfl, rfl⟩)
        | ok a => exact .inr (.inr ⟨hbefore, hpoll, d, a, rfl, hcheck, rfl, rfl⟩)
      | none =>
        -- the end of a channel that was shut down
        rw [hnext] at h
        cases shut with
        | false => cases h
        | true =>
          cases h
          cases hcheck : check ⟨[], []⟩ with
          | error e => exact .inr (.inl ⟨e, .inl rfl, rfl⟩)
          | ok a => exact absurd hcheck (hempty a)
    · rename_i e
      cases hretried : retried e with
      | true =>
        rw [hretried] at h
        cases h
        exact .inl ⟨⟨hbefore, .inr (.inr ⟨hpoll, e, rfl, hretried⟩)⟩, rfl, rfl⟩
      | false =>
        rw [hretried] at h
        cases h
        exact .inr (.inl ⟨e, .inl rfl, rfl⟩)

theorem checkOpcode_nil {opcode : UInt8} (a : Unit) :
    checkOpcode opcode (⟨[], []⟩ : Datagram D) ≠ .ok a := by
  intro h
  cases checkOpcode_eq_ok.mp h

theorem checkCompletion_nil (status : ExitStatus) :
    checkCompletion (⟨[], []⟩ : Datagram D) ≠ .ok status := by
  intro h
  have hbytes := congrArg (fun d => d.bytes.length) (checkCompletion_eq_ok.mp h).1
  simp [statusPacket] at hbytes

/-- What a round of the supervisor can do: be made again, end its call with an error, or the one
    thing its phase waits for. -/
inductive SupervisorRound (s : State D) (now : Nat) (poll : Poll) (answer : Except IoError Bool) :
    State D → Prop
  | again {deadline : Nat} (call : s.supervisor.deadline = some deadline)
      (retries : Retries deadline now poll answer) :
      SupervisorRound s now poll answer s
  | failed {deadline : Nat} {e : IoError} {up : Channel D}
      (call : s.supervisor.deadline = some deadline) (read : up = s.up ∨ up = s.up.advance) :
      SupervisorRound s now poll answer ({ s with up := up }.setSupervisor (.failed e))
  | ready {deadline : Nat} (call : s.supervisor = .awaitingReady deadline) (within : now < deadline)
      (polled : poll = .ready true) (next : s.up.next = some readyPacket) :
      SupervisorRound s now poll answer ({ s with up := s.up.advance }.setSupervisor .ready)
  | started {deadline : Nat} (call : s.supervisor = .starting deadline) (within : now < deadline)
      (polled : poll = .ready true) (opened : s.shut = false) :
      SupervisorRound s now poll answer ({ s with down := s.down.put startPacket }.setSupervisor .started)
  | completed {deadline : Nat} {status : ExitStatus}
      (call : s.supervisor = .awaitingCompletion deadline) (within : now < deadline)
      (polled : poll = .ready true) (next : s.up.next = some (statusPacket status))
      (terminal : Terminal status) :
      SupervisorRound s now poll answer ({ s with up := s.up.advance }.setSupervisor
        (.completed status))

inductive InitRound (s : State D) (now : Nat) (poll : Poll) (answer : Except IoError Bool) :
    State D → Prop
  | again {deadline : Nat} (call : s.init.deadline = some deadline)
      (retries : Retries deadline now poll answer) :
      InitRound s now poll answer s
  | failed {deadline : Nat} {e : IoError} {down : Channel D}
      (call : s.init.deadline = some deadline) (read : down = s.down ∨ down = s.down.advance) :
      InitRound s now poll answer ({ s with down := down }.setInit (.failed e))
  | announced {deadline : Nat} (call : s.init = .announcing deadline) (within : now < deadline)
      (polled : poll = .ready true) (opened : s.shut = false) :
      InitRound s now poll answer ({ s with up := s.up.put readyPacket }.setInit
        (.awaitingStart deadline))
  | authorized {deadline : Nat} (call : s.init = .awaitingStart deadline) (within : now < deadline)
      (polled : poll = .ready true) (next : s.down.next = some startPacket) :
      InitRound s now poll answer ({ s with down := s.down.advance }.setInit .reporter)

theorem setSupervisor_self {s : State D} (h : s.supervisor.live = true) :
    s.setSupervisor s.supervisor = s := by
  rw [State.setSupervisor, h, Bool.not_true, Bool.or_false]

theorem setInit_self {s : State D} (h : s.init.live = true) : s.setInit s.init = s := by
  rw [State.setInit, h, Bool.not_true, Bool.or_false]

theorem supervisorRound_spec {s s' : State D} {now : Nat} {poll : Poll}
    {answer : Except IoError Bool} (h : supervisorRound s now poll answer = some s') :
    SupervisorRound s now poll answer s' := by
  unfold supervisorRound at h
  split at h
  · rename_i deadline hcall
    have hlive : s.supervisor.live = true := by rw [hcall]; rfl
    obtain ⟨⟨up, round⟩, hround, rfl⟩ := Option.map_eq_some_iff.mp h
    rcases receiving_cases hround checkOpcode_nil with ⟨hretries, rfl, rfl⟩ | ⟨e, hread, rfl⟩ |
      ⟨hwithin, hpolled, d, _, hnext, hcheck, rfl, rfl⟩
    · show SupervisorRound s now poll answer (s.setSupervisor s.supervisor)
      rw [setSupervisor_self hlive]
      exact .again (by rw [hcall]; rfl) hretries
    · exact .failed (by rw [hcall]; rfl) hread
    · rw [checkOpcode_eq_ok.mp hcheck] at hnext
      exact .ready hcall hwithin hpolled hnext
  · rename_i deadline hcall
    have hlive : s.supervisor.live = true := by rw [hcall]; rfl
    obtain ⟨⟨down, round⟩, hround, rfl⟩ := Option.map_eq_some_iff.mp h
    rcases sending_cases hround with ⟨hretries, rfl, rfl⟩ | ⟨e, rfl, rfl⟩ | ⟨hwithin, hpolled, -,
      hopen, rfl, rfl⟩
    · show SupervisorRound s now poll answer (s.setSupervisor s.supervisor)
      rw [setSupervisor_self hlive]
      exact .again (by rw [hcall]; rfl) hretries
    · exact .failed (by rw [hcall]; rfl) (.inl rfl)
    · exact .started hcall hwithin hpolled hopen
  · rename_i deadline hcall
    have hlive : s.supervisor.live = true := by rw [hcall]; rfl
    obtain ⟨⟨up, round⟩, hround, rfl⟩ := Option.map_eq_some_iff.mp h
    rcases receiving_cases hround checkCompletion_nil with ⟨hretries, rfl, rfl⟩ | ⟨e, hread, rfl⟩ |
      ⟨hwithin, hpolled, d, status, hnext, hcheck, rfl, rfl⟩
    · show SupervisorRound s now poll answer (s.setSupervisor s.supervisor)
      rw [setSupervisor_self hlive]
      exact .again (by rw [hcall]; rfl) hretries
    · exact .failed (by rw [hcall]; rfl) hread
    · obtain ⟨hd, hterminal⟩ := checkCompletion_eq_ok.mp hcheck
      rw [hd] at hnext
      exact .completed hcall hwithin hpolled hnext hterminal
  · cases h

theorem initRound_spec {s s' : State D} {now : Nat} {poll : Poll} {answer : Except IoError Bool}
    (h : initRound s now poll answer = some s') : InitRound s now poll answer s' := by
  unfold initRound at h
  split at h
  · rename_i deadline hcall
    have hlive : s.init.live = true := by rw [hcall]; rfl
    obtain ⟨⟨up, round⟩, hround, rfl⟩ := Option.map_eq_some_iff.mp h
    rcases sending_cases hround with ⟨hretries, rfl, rfl⟩ | ⟨e, rfl, rfl⟩ | ⟨hwithin, hpolled, -,
      hopen, rfl, rfl⟩
    · show InitRound s now poll answer (s.setInit s.init)
      rw [setInit_self hlive]
      exact .again (by rw [hcall]; rfl) hretries
    · exact .failed (by rw [hcall]; rfl) (.inl rfl)
    · exact .announced hcall hwithin hpolled hopen
  · rename_i deadline hcall
    have hlive : s.init.live = true := by rw [hcall]; rfl
    obtain ⟨⟨down, round⟩, hround, rfl⟩ := Option.map_eq_some_iff.mp h
    rcases receiving_cases hround checkOpcode_nil with ⟨hretries, rfl, rfl⟩ | ⟨e, hread, rfl⟩ |
      ⟨hwithin, hpolled, d, _, hnext, hcheck, rfl, rfl⟩
    · show InitRound s now poll answer (s.setInit s.init)
      rw [setInit_self hlive]
      exact .again (by rw [hcall]; rfl) hretries
    · exact .failed (by rw [hcall]; rfl) hread
    · rw [checkOpcode_eq_ok.mp hcheck] at hnext
      exact .authorized hcall hwithin hpolled hnext
  · cases h

/-- What an attempt to report can do. -/
inductive Reporting (s : State D) (status : ExitStatus) : State D → Prop
  | again : Reporting s status s
  | failed {e : IoError} : Reporting s status (s.setInit (.failed e))
  | reported (terminal : Terminal status) (opened : s.shut = false) :
      Reporting s status ({ s with up := s.up.put (statusPacket status) }.setInit
        (.reported status))

theorem report_spec {s s' : State D} {status : ExitStatus} {answer : Except IoError Bool}
    (h : report s status answer = some s') :
    s.init = .reporter ∧ Reporting s status s' := by
  unfold report at h
  split at h
  · rename_i hreporter
    refine ⟨hreporter, ?_⟩
    cases hnew : CompletionPacket.new status with
    | error e =>
      rw [hnew] at h
      cases h
      exact .failed
    | ok bytes =>
      obtain ⟨hbytes, hterminal⟩ := (new_eq_ok (D := D)).mp hnew
      rw [hnew] at h
      dsimp only at h
      split at h
      · split at h
        · cases h
        · rename_i hopen
          cases h
          rw [hbytes]
          exact .reported hterminal (Bool.not_eq_true _ ▸ hopen)
      · cases h
        exact .failed
      · split at h
        · cases h
          exact .again
        · cases h
          exact .failed
  · cases h

/-! What the phases say. -/

theorem head_put {c : Channel D} {d e : Datagram D} (h : c.sent.head? = some d) :
    (c.put e).sent.head? = some d := by
  obtain ⟨rest, hrest⟩ := List.head?_eq_some_iff.mp h
  show (c.sent ++ [e]).head? = some d
  rw [hrest]
  rfl

/-- What the supervisor read, and where it is to be relied on, sent. -/
def Supervisor.Keeps (honest : Prop) (up down : Channel D) : Supervisor → Prop
  | .waiting | .awaitingReady _ => up.read = 0 ∧ (honest → down.sent = [])
  | .ready | .starting _ =>
    up.read = 1 ∧ up.sent.head? = some readyPacket ∧ (honest → down.sent = [])
  | .started | .awaitingCompletion _ =>
    up.read = 1 ∧ up.sent.head? = some readyPacket ∧ (honest → down.sent = [startPacket])
  | .completed status =>
    up.read = 2 ∧ (up.sent.head? = some readyPacket ∧ up.sent[1]? = some (statusPacket status) ∧
      Terminal status) ∧ (honest → down.sent = [startPacket])
  | .failed _ | .dropped =>
    honest → down.sent = [] ∨ (down.sent = [startPacket] ∧ 1 ≤ up.read ∧
      up.sent.head? = some readyPacket)

/-- What init read, and where it is to be relied on, sent. -/
def Init.Keeps (honest : Prop) (up down : Channel D) : Init → Prop
  | .endpoint | .announcing _ => down.read = 0 ∧ (honest → up.sent = [])
  | .awaitingStart _ => down.read = 0 ∧ (honest → up.sent = [readyPacket])
  | .reporter =>
    down.read = 1 ∧ down.sent.head? = some startPacket ∧ (honest → up.sent = [readyPacket])
  | .reported status =>
    down.read = 1 ∧ (down.sent.head? = some startPacket ∧ Terminal status) ∧
      (honest → up.sent = [readyPacket, statusPacket status])
  | .failed _ | .dropped => honest → up.sent = [] ∨ up.sent = [readyPacket]

namespace Supervisor.Keeps

variable {p : Supervisor} {honest : Prop} {up down down' : Channel D}

/-- Start was sent only behind a ready packet that was received. -/
theorem started (h : p.Keeps honest up down) (hhonest : honest) :
    down.sent = [] ∨ (down.sent = [startPacket] ∧ 1 ≤ up.read ∧
      up.sent.head? = some readyPacket) := by
  cases p with
  | waiting => exact .inl (h.2 hhonest)
  | awaitingReady deadline => exact .inl (h.2 hhonest)
  | ready => exact .inl (h.2.2 hhonest)
  | starting deadline => exact .inl (h.2.2 hhonest)
  | started => exact .inr ⟨h.2.2 hhonest, Nat.le_of_eq h.1.symm, h.2.1⟩
  | awaitingCompletion deadline => exact .inr ⟨h.2.2 hhonest, Nat.le_of_eq h.1.symm, h.2.1⟩
  | completed status => exact .inr ⟨h.2.2 hhonest, by rw [h.1]; decide, h.2.1.1⟩
  | failed e => exact h hhonest
  | dropped => exact h hhonest

theorem put_up (h : p.Keeps honest up down) (d : Datagram D) : p.Keeps honest (up.put d) down := by
  cases p with
  | waiting => exact h
  | awaitingReady deadline => exact h
  | ready => exact ⟨h.1, head_put h.2.1, h.2.2⟩
  | starting deadline => exact ⟨h.1, head_put h.2.1, h.2.2⟩
  | started => exact ⟨h.1, head_put h.2.1, h.2.2⟩
  | awaitingCompletion deadline => exact ⟨h.1, head_put h.2.1, h.2.2⟩
  | completed status =>
    obtain ⟨hread, ⟨hhead, hnext, hterminal⟩, hdown⟩ := h
    refine ⟨hread, ⟨head_put hhead, ?_, hterminal⟩, hdown⟩
    show (up.sent ++ [d])[1]? = _
    rw [List.getElem?_append_left (List.getElem?_eq_some_iff.mp hnext).1]
    exact hnext
  | failed e => exact fun hhonest => (h hhonest).imp_right (fun h => ⟨h.1, h.2.1, head_put h.2.2⟩)
  | dropped => exact fun hhonest => (h hhonest).imp_right (fun h => ⟨h.1, h.2.1, head_put h.2.2⟩)

/-- Only what a supervisor that is relied on sent matters. -/
theorem congr_down (h : p.Keeps honest up down) (hdown : honest → down'.sent = down.sent) :
    p.Keeps honest up down' := by
  cases p with
  | waiting => exact ⟨h.1, fun hhonest => (hdown hhonest).trans (h.2 hhonest)⟩
  | awaitingReady deadline => exact ⟨h.1, fun hhonest => (hdown hhonest).trans (h.2 hhonest)⟩
  | ready => exact ⟨h.1, h.2.1, fun hhonest => (hdown hhonest).trans (h.2.2 hhonest)⟩
  | starting deadline => exact ⟨h.1, h.2.1, fun hhonest => (hdown hhonest).trans (h.2.2 hhonest)⟩
  | started => exact ⟨h.1, h.2.1, fun hhonest => (hdown hhonest).trans (h.2.2 hhonest)⟩
  | awaitingCompletion deadline =>
    exact ⟨h.1, h.2.1, fun hhonest => (hdown hhonest).trans (h.2.2 hhonest)⟩
  | completed status => exact ⟨h.1, h.2.1, fun hhonest => (hdown hhonest).trans (h.2.2 hhonest)⟩
  | failed e =>
    intro hhonest
    rw [hdown hhonest]
    exact h hhonest
  | dropped =>
    intro hhonest
    rw [hdown hhonest]
    exact h hhonest

end Supervisor.Keeps

namespace Init.Keeps

variable {p : Init} {honest : Prop} {up up' down : Channel D}

/-- An end that goes before it reported sent at most a ready packet. -/
theorem unreported (h : p.Keeps honest up down) (hlive : p.live = true) (hhonest : honest) :
    up.sent = [] ∨ up.sent = [readyPacket] := by
  cases p with
  | endpoint => exact .inl (h.2 hhonest)
  | announcing deadline => exact .inl (h.2 hhonest)
  | awaitingStart deadline => exact .inr (h.2 hhonest)
  | reporter => exact .inr (h.2.2 hhonest)
  | reported status => cases hlive
  | failed e => cases hlive
  | dropped => cases hlive

theorem put_down (h : p.Keeps honest up down) (d : Datagram D) :
    p.Keeps honest up (down.put d) := by
  cases p with
  | endpoint => exact h
  | announcing deadline => exact h
  | awaitingStart deadline => exact h
  | reporter => exact ⟨h.1, head_put h.2.1, h.2.2⟩
  | reported status => exact ⟨h.1, ⟨head_put h.2.1.1, h.2.1.2⟩, h.2.2⟩
  | failed e => exact h
  | dropped => exact h

theorem congr_up (h : p.Keeps honest up down) (hup : honest → up'.sent = up.sent) :
    p.Keeps honest up' down := by
  cases p with
  | endpoint => exact ⟨h.1, fun hhonest => (hup hhonest).trans (h.2 hhonest)⟩
  | announcing deadline => exact ⟨h.1, fun hhonest => (hup hhonest).trans (h.2 hhonest)⟩
  | awaitingStart deadline => exact ⟨h.1, fun hhonest => (hup hhonest).trans (h.2 hhonest)⟩
  | reporter => exact ⟨h.1, h.2.1, fun hhonest => (hup hhonest).trans (h.2.2 hhonest)⟩
  | reported status => exact ⟨h.1, h.2.1, fun hhonest => (hup hhonest).trans (h.2.2 hhonest)⟩
  | failed e =>
    intro hhonest
    rw [hup hhonest]
    exact h hhonest
  | dropped =>
    intro hhonest
    rw [hup hhonest]
    exact h hhonest

end Init.Keeps

/-! Interleavings. -/

/-- Both parties are where their channels say. -/
def Inv (rogue : Party → Prop) (s : State D) : Prop :=
  s.supervisor.Keeps (¬ rogue .supervisor) s.up s.down ∧ s.init.Keeps (¬ rogue .init) s.up s.down

variable {rogue : Party → Prop} {s s' : State D}

theorem inv_pair : Inv rogue (State.pair : State D) := ⟨⟨rfl, fun _ => rfl⟩, ⟨rfl, fun _ => rfl⟩⟩

theorem Inv.supervisorRound {now : Nat} {poll : Poll} {answer : Except IoError Bool}
    (hinv : Inv rogue s) (h : SupervisorRound s now poll answer s') : Inv rogue s' := by
  obtain ⟨hsupervisor, hinit⟩ := hinv
  cases h with
  | again => exact ⟨hsupervisor, hinit⟩
  | @failed _ e up _ hread =>
    have hup : up.sent = s.up.sent ∧ s.up.read ≤ up.read := by
      rcases hread with rfl | rfl
      · exact ⟨rfl, Nat.le_refl _⟩
      · exact ⟨rfl, Nat.le_succ _⟩
    refine ⟨fun hhonest => ?_, hinit.congr_up (fun _ => hup.1)⟩
    rcases hsupervisor.started hhonest with hdown | ⟨hdown, hone, hhead⟩
    · exact .inl hdown
    · exact .inr ⟨hdown, Nat.le_trans hone hup.2, hup.1 ▸ hhead⟩
  | ready hcall _ _ hnext =>
    rw [hcall] at hsupervisor
    rw [Channel.next, hsupervisor.1, ← List.head?_eq_getElem?] at hnext
    exact ⟨⟨congrArg (· + 1) hsupervisor.1, hnext, hsupervisor.2⟩, hinit.congr_up (fun _ => rfl)⟩
  | started hcall _ _ _ =>
    rw [hcall] at hsupervisor
    refine ⟨⟨hsupervisor.1, hsupervisor.2.1, fun hhonest => ?_⟩, hinit.put_down _⟩
    show s.down.sent ++ [startPacket] = [startPacket]
    rw [hsupervisor.2.2 hhonest, List.nil_append]
  | completed hcall _ _ hnext hterminal =>
    rw [hcall] at hsupervisor
    rw [Channel.next, hsupervisor.1] at hnext
    exact ⟨⟨congrArg (· + 1) hsupervisor.1, ⟨hsupervisor.2.1, hnext, hterminal⟩, hsupervisor.2.2⟩,
      hinit.congr_up (fun _ => rfl)⟩

theorem Init.live_of_deadline {p : Init} {deadline : Nat} (h : p.deadline = some deadline) :
    p.live = true := by
  cases p with
  | announcing deadline => rfl
  | awaitingStart deadline => rfl
  | endpoint => rfl
  | reporter => rfl
  | reported status => cases h
  | failed e => cases h
  | dropped => cases h

theorem Inv.initRound {now : Nat} {poll : Poll} {answer : Except IoError Bool} (hinv : Inv rogue s)
    (h : InitRound s now poll answer s') : Inv rogue s' := by
  obtain ⟨hsupervisor, hinit⟩ := hinv
  cases h with
  | again => exact ⟨hsupervisor, hinit⟩
  | @failed _ e down hcall hread =>
    have hdown : down.sent = s.down.sent := by
      rcases hread with rfl | rfl
      · rfl
      · rfl
    exact ⟨hsupervisor.congr_down (fun _ => hdown), hinit.unreported (Init.live_of_deadline hcall)⟩
  | announced hcall _ _ _ =>
    rw [hcall] at hinit
    refine ⟨hsupervisor.put_up _, ⟨hinit.1, fun hhonest => ?_⟩⟩
    show s.up.sent ++ [readyPacket] = [readyPacket]
    rw [hinit.2 hhonest, List.nil_append]
  | authorized hcall _ _ hnext =>
    rw [hcall] at hinit
    rw [Channel.next, hinit.1, ← List.head?_eq_getElem?] at hnext
    exact ⟨hsupervisor.congr_down (fun _ => rfl), ⟨congrArg (· + 1) hinit.1, hnext, hinit.2⟩⟩

theorem Inv.report {status : ExitStatus} (hinv : Inv rogue s) (hreporter : s.init = .reporter)
    (h : Reporting s status s') :
    Inv rogue s' := by
  obtain ⟨hsupervisor, hinit⟩ := hinv
  cases h with
  | again => exact ⟨hsupervisor, hinit⟩
  | failed => exact ⟨hsupervisor, hinit.unreported (by rw [hreporter]; rfl)⟩
  | reported hterminal _ =>
    rw [hreporter] at hinit
    refine ⟨hsupervisor.put_up _, ⟨hinit.1, ⟨hinit.2.1, hterminal⟩, fun hhonest => ?_⟩⟩
    show s.up.sent ++ [statusPacket status] = [readyPacket, statusPacket status]
    rw [hinit.2.2 hhonest]
    rfl

/-- **One step of any party, or of an end that is not relied on.** -/
theorem Inv.step {event : Event D} (hinv : Inv rogue s) (hallowed : event.Allowed rogue)
    (h : step s event = some s') :
    Inv rogue s' := by
  have hsupervisor := hinv.1
  have hinit := hinv.2
  cases event with
  | waitReady deadline =>
    obtain ⟨hwaiting, h⟩ := Option.ite_none_right_eq_some.mp h
    cases h
    rw [hwaiting] at hsupervisor
    exact ⟨hsupervisor, hinit⟩
  | startReporting deadline =>
    obtain ⟨hready, h⟩ := Option.ite_none_right_eq_some.mp h
    cases h
    rw [hready] at hsupervisor
    exact ⟨hsupervisor, hinit⟩
  | completion deadline =>
    obtain ⟨hstarted, h⟩ := Option.ite_none_right_eq_some.mp h
    cases h
    rw [hstarted] at hsupervisor
    exact ⟨hsupervisor, hinit⟩
  | supervisorRound now poll answer => exact hinv.supervisorRound (supervisorRound_spec h)
  | dropSupervisor =>
    obtain ⟨-, h⟩ := Option.ite_none_right_eq_some.mp h
    cases h
    exact ⟨hsupervisor.started, hinit⟩
  | readyForReporting deadline =>
    obtain ⟨hendpoint, h⟩ := Option.ite_none_right_eq_some.mp h
    cases h
    rw [hendpoint] at hinit
    exact ⟨hsupervisor, hinit⟩
  | initRound now poll answer => exact hinv.initRound (initRound_spec h)
  | report status answer =>
    obtain ⟨hreporter, h⟩ := report_spec h
    exact hinv.report hreporter h
  | dropInit =>
    obtain ⟨hlive, h⟩ := Option.ite_none_right_eq_some.mp h
    cases h
    exact ⟨hsupervisor, hinit.unreported hlive⟩
  | inject party d =>
    cases party with
    | supervisor =>
      obtain ⟨-, h⟩ := Option.ite_none_left_eq_some.mp h
      cases h
      exact ⟨hsupervisor.congr_down (fun hhonest => absurd hallowed hhonest), hinit.put_down d⟩
    | init =>
      obtain ⟨-, h⟩ := Option.ite_none_left_eq_some.mp h
      cases h
      exact ⟨hsupervisor.put_up d, hinit.congr_up (fun hhonest => absurd hallowed hhonest)⟩

theorem Inv.run {events : List (Event D)} (hinv : Inv rogue s)
    (hallowed : ∀ e ∈ events, e.Allowed rogue) (h : run s events = some s') : Inv rogue s' := by
  induction events generalizing s with
  | nil =>
    cases h
    exact hinv
  | cons event events ih =>
    rw [List.forall_mem_cons] at hallowed
    obtain ⟨mid, hstep, hrest⟩ := Option.bind_eq_some_iff.mp h
    exact ih (hinv.step hallowed.1 hstep) hallowed.2 hrest

/-! Ends that are gone. -/

theorem Supervisor.live_of_deadline {p : Supervisor} {deadline : Nat}
    (h : p.deadline = some deadline) : p.live = true := by
  cases p with
  | completed status => cases h
  | failed e => cases h
  | dropped => cases h
  | _ => rfl

/-- A supervisor that is gone stays so, and sends nothing. -/
theorem supervisor_gone {event : Event D} (hgone : s.supervisor.live = false)
    (h : step s event = some s') :
    s'.supervisor = s.supervisor ∧ (event.Allowed (· ≠ .supervisor) →
      s'.down.sent = s.down.sent) := by
  have hnot : ∀ p : Supervisor, p.live = true → s.supervisor ≠ p := by
    rintro p hlive rfl
    rw [hgone] at hlive
    cases hlive
  cases event with
  | waitReady deadline => exact absurd (Option.ite_none_right_eq_some.mp h).1 (hnot _ rfl)
  | startReporting deadline => exact absurd (Option.ite_none_right_eq_some.mp h).1 (hnot _ rfl)
  | completion deadline => exact absurd (Option.ite_none_right_eq_some.mp h).1 (hnot _ rfl)
  | supervisorRound now poll answer =>
    cases supervisorRound_spec h with
    | again hcall => exact absurd rfl (hnot _ (Supervisor.live_of_deadline hcall))
    | failed hcall => exact absurd rfl (hnot _ (Supervisor.live_of_deadline hcall))
    | ready hcall => exact absurd hcall (hnot _ rfl)
    | started hcall => exact absurd hcall (hnot _ rfl)
    | completed hcall => exact absurd hcall (hnot _ rfl)
  | dropSupervisor => exact absurd rfl (hnot _ (Option.ite_none_right_eq_some.mp h).1)
  | readyForReporting deadline =>
    cases (Option.ite_none_right_eq_some.mp h).2
    exact ⟨rfl, fun _ => rfl⟩
  | initRound now poll answer =>
    cases initRound_spec h with
    | again => exact ⟨rfl, fun _ => rfl⟩
    | failed _ hread =>
      rcases hread with rfl | rfl
      · exact ⟨rfl, fun _ => rfl⟩
      · exact ⟨rfl, fun _ => rfl⟩
    | announced => exact ⟨rfl, fun _ => rfl⟩
    | authorized => exact ⟨rfl, fun _ => rfl⟩
  | report status answer =>
    cases (report_spec h).2 with
    | again => exact ⟨rfl, fun _ => rfl⟩
    | failed => exact ⟨rfl, fun _ => rfl⟩
    | reported => exact ⟨rfl, fun _ => rfl⟩
  | dropInit =>
    cases (Option.ite_none_right_eq_some.mp h).2
    exact ⟨rfl, fun _ => rfl⟩
  | inject party d =>
    cases party with
    | supervisor =>
      cases (Option.ite_none_left_eq_some.mp h).2
      exact ⟨rfl, fun hallowed => absurd rfl hallowed⟩
    | init =>
      cases (Option.ite_none_left_eq_some.mp h).2
      exact ⟨rfl, fun _ => rfl⟩

/-- **What the phases of a run say.** -/
theorem Inv.authorized (hinv : Inv rogue s) (h : s.init.authorized = true) :
    (s.down.read = 1 ∧ s.down.sent.head? = some startPacket) ∧
      (¬ rogue .supervisor → s.down.sent = [startPacket] ∧ 1 ≤ s.up.read ∧
        s.up.sent.head? = some readyPacket) := by
  obtain ⟨hsupervisor, hinit⟩ := hinv
  have hstart : s.down.read = 1 ∧ s.down.sent.head? = some startPacket := by
    cases hphase : s.init with
    | reporter =>
      rw [hphase] at hinit
      exact ⟨hinit.1, hinit.2.1⟩
    | reported status =>
      rw [hphase] at hinit
      exact ⟨hinit.1, hinit.2.1.1⟩
    | _ =>
      rw [hphase] at h
      cases h
  refine ⟨hstart, fun hhonest => ?_⟩
  rcases hsupervisor.started hhonest with hnone | hstarted
  · rw [hnone] at hstart
    cases hstart.2
  · exact hstarted

theorem Inv.completed {status : ExitStatus} (hinv : Inv rogue s)
    (h : s.supervisor = .completed status) :
    (s.up.read = 2 ∧ s.up.sent.head? = some readyPacket ∧
      s.up.sent[1]? = some (statusPacket status) ∧ Terminal status) ∧
      (¬ rogue .init → s.init = .reported status) := by
  obtain ⟨hsupervisor, hinit⟩ := hinv
  rw [h] at hsupervisor
  obtain ⟨hread, ⟨hhead, hnext, hterminal⟩, -⟩ := hsupervisor
  refine ⟨⟨hread, hhead, hnext, hterminal⟩, fun hhonest => ?_⟩
  have hlong : 1 < s.up.sent.length := (List.getElem?_eq_some_iff.mp hnext).1
  -- an end that is relied on sends a second packet only by reporting
  have hshort : s.up.sent = [] ∨ s.up.sent = [readyPacket] → False := by
    rintro (hnone | hone)
    · rw [hnone] at hlong
      exact absurd hlong (Nat.not_lt_zero 1)
    · rw [hone] at hlong
      exact absurd hlong (Nat.lt_irrefl 1)
  cases hphase : s.init with
  | reported status' =>
    rw [hphase] at hinit
    rw [hinit.2.2 hhonest] at hnext
    rw [statusPacket_injective (Option.some.inj hnext)]
  | failed e =>
    rw [hphase] at hinit
    exact (hshort (hinit hhonest)).elim
  | dropped =>
    rw [hphase] at hinit
    exact (hshort (hinit hhonest)).elim
  | _ =>
    refine (hshort (hinit.unreported ?_ hhonest)).elim
    rw [hphase]
    rfl

/-- **The gate authorises once, in order, and only what is meant.** In every interleaving, whatever the
    ends of parties that are not relied on send: start is sent at most once, behind a ready packet that
    was received; init is authorised by that start alone; a status is that of the packet behind the
    ready packet, and of init's report where init is relied on. Each round of a call is made again, fails
    or sees exactly what its phase waits for, before its deadline, and a failed end never goes on. -/
theorem gate_authorizes (rogue : Party → Prop) (events : List (Event D))
    (hallowed : ∀ e ∈ events, e.Allowed rogue) (s : State D)
    (hrun : run State.pair events = some s) :
    (¬ rogue .supervisor →
      s.down.sent = [] ∨ (s.down.sent = [startPacket] ∧ 1 ≤ s.up.read ∧
        s.up.sent.head? = some readyPacket)) ∧
    (s.init.authorized = true → (s.down.read = 1 ∧ s.down.sent.head? = some startPacket) ∧
      (¬ rogue .supervisor → s.down.sent = [startPacket] ∧ 1 ≤ s.up.read ∧
        s.up.sent.head? = some readyPacket)) ∧
    (∀ status, s.supervisor = .completed status →
      (s.up.read = 2 ∧ s.up.sent.head? = some readyPacket ∧
        s.up.sent[1]? = some (statusPacket status) ∧ Terminal status) ∧
      (¬ rogue .init → s.init = .reported status)) ∧
    (∀ now poll answer s', step s (.supervisorRound now poll answer) = some s' →
      SupervisorRound s now poll answer s') ∧
    (∀ now poll answer s', step s (.initRound now poll answer) = some s' →
      InitRound s now poll answer s') ∧
    (∀ event s', s.supervisor.live = false → step s event = some s' →
      s'.supervisor = s.supervisor ∧ (event.Allowed (· ≠ .supervisor) →
        s'.down.sent = s.down.sent)) ∧
    ∀ status, (∃ bytes, CompletionPacket.new status = .ok bytes) ↔ Terminal status := by
  have hinv : Inv rogue s := inv_pair.run hallowed hrun
  refine ⟨hinv.1.started, hinv.authorized, fun status h => hinv.completed h,
    fun now poll answer s' h => supervisorRound_spec h,
    fun now poll answer s' h => initRound_spec h, fun event s' hgone h => supervisor_gone hgone h,
      fun status => ?_⟩
  constructor
  · rintro ⟨bytes, h⟩
    exact ((new_eq_ok (D := D)).mp h).2
  · exact fun h => ⟨_, (new_eq_ok (D := D)).mpr ⟨rfl, h⟩⟩

/-- A command that exits with 37, and both parties to be relied on. -/
def honestRun : List (Event Unit) :=
  [.waitReady 10, .readyForReporting 10, .initRound 1 (.ready true) (.ok true), .supervisorRound 2
    (.ready true) (.ok true),
    .startReporting 10, .supervisorRound 3 (.ready true) (.ok true), .initRound 4 (.ready true)
      (.ok true), .completion 20,
    .report ⟨37 * 256⟩ (.ok true), .supervisorRound 5 (.ready true) (.ok true)]

theorem gate_authorizes_sample :
    ∃ s, run State.pair honestRun = some s ∧ s.supervisor = .completed ⟨37 * 256⟩ ∧
      s.init = .reported ⟨37 * 256⟩ := by
  have hallowed : ∀ e ∈ honestRun, e.Allowed (fun _ => False) := by simp [honestRun, Event.Allowed]
  have hrun : run State.pair honestRun = some ⟨.completed ⟨37 * 256⟩, .reported ⟨37 * 256⟩,
    ⟨[readyPacket, statusPacket ⟨37 * 256⟩], 2⟩, ⟨[startPacket], 1⟩, true⟩ := rfl
  have h := gate_authorizes (fun _ => False) honestRun hallowed _ hrun
  exact ⟨_, hrun, rfl, (h.2.2.1 _ rfl).2 not_false⟩

end Conglobate.Isolation
