import Conglobate.Process.SupervisionProps

/- What supervision is good for (`process/identity.rs`, `process/supervision`, `execution/helper.rs`).

   What is proved, of every interleaving:
     1. `supervised` — where the receiver is relied on, a supervisor that joined it watches
        the receiver's own process, which has placed itself in the domain and closed the
        descriptor for that; and a cleanup that is certified was done, after a command
        helper that ended with the code of the shell's status.
     2. `contained` — whatever the supervisor sends, the receiver starts a command only when
        it is in the domain, with a volume and a gate that passed every check; from a
        supervisor that is relied on these are the first two things it sent.
     3. `loss_final` — a party that is lost is lost for good, and what was once not healthy
        is never healthy again as long as nothing is received; a receiver that ends well
        has outlived its supervisor. -/
namespace Conglobate.Process.Supervision

open Isolation (Channel Poll)

variable {D : Type} {k : Descriptors D} {rogue : Party → Prop} {c : Ciborium} {s s' : State D}

/-! Loss. -/

def Party.other : Party → Party
  | .supervisor => .helper
  | .helper => .supervisor

/-- What is sent to a party. -/
def State.inbound (s : State D) : Party → Channel D
  | .supervisor => s.up
  | .helper => s.down

/-- Whom a party watches. -/
def State.peer? (s : State D) : Party → Option D
  | .supervisor =>
    match s.supervisor with
    | .paired peer | .offering peer _ _ | .awaitingJoined peer _ _ | .joined peer _ => some peer
    | _ => none
  | .helper => s.helper.peer?

/-- What a party that watches `peer` observes, where the kernel answers. -/
def observed (k : Descriptors D) (s : State D) (p : Party) (peer : D) : Except IoError Bool :=
  peerLost (s.inbound p) s.shut (hasExited k s peer (.ok false)) none

/-- What a step never takes back. -/
structure Onward (s s' : State D) : Prop where
  dead : ∀ p, s.dead p = true → s'.dead p = true
  shut : s.shut = true → s'.shut = true
  sent : ∀ p, (s.inbound p).sent <+: (s'.inbound p).sent
  read : ∀ p, (s.inbound p).read ≤ (s'.inbound p).read
  closed : s.shut = true → ∀ p, (s'.inbound p).sent = (s.inbound p).sent

theorem Onward.refl (s : State D) : Onward s s :=
  ⟨fun _ h => h, fun h => h, fun _ => List.prefix_rfl, fun _ => Nat.le_refl _, fun _ _ => rfl⟩

theorem Onward.trans {s'' : State D} (h : Onward s s') (h' : Onward s' s'') : Onward s s'' where
  dead p hp := h'.dead p (h.dead p hp)
  shut hs := h'.shut (h.shut hs)
  sent p := (h.sent p).trans (h'.sent p)
  read p := Nat.le_trans (h.read p) (h'.read p)
  closed hs p := (h'.closed (h.shut hs) p).trans (h.closed hs p)

/-- What one step can do to a channel. -/
inductive Later (shut : Bool) (ch : Channel D) : Channel D → Prop
  | same : Later shut ch ch
  | read : Later shut ch ch.advance
  | sent (opened : shut = false) (d : Datagram D) : Later shut ch (ch.put d)

theorem Later.of_read {shut : Bool} {ch ch' : Channel D} (h : ch' = ch ∨ ch' = ch.advance) :
    Later shut ch ch' := by
  obtain rfl | rfl := h
  · exact .same
  · exact .read

theorem Later.facts {shut : Bool} {ch ch' : Channel D} (h : Later shut ch ch') :
    ch.sent <+: ch'.sent ∧ ch.read ≤ ch'.read ∧ (shut = true → ch'.sent = ch.sent) := by
  cases h with
  | same => exact ⟨List.prefix_rfl, Nat.le_refl _, fun _ => rfl⟩
  | read => exact ⟨List.prefix_rfl, Nat.le_succ _, fun _ => rfl⟩
  | sent opened d =>
    exact ⟨List.prefix_append _ _, Nat.le_refl _, fun hshut => by rw [opened] at hshut; cases hshut⟩

theorem Onward.of_channels (hdead : ∀ p, s.dead p = true → s'.dead p = true)
    (hshut : s.shut = true → s'.shut = true) (hup : Later s.shut s.up s'.up)
    (hdown : Later s.shut s.down s'.down) : Onward s s' where
  dead := hdead
  shut := hshut
  sent p := by
    cases p with
    | supervisor => exact hup.facts.1
    | helper => exact hdown.facts.1
  read p := by
    cases p with
    | supervisor => exact hup.facts.2.1
    | helper => exact hdown.facts.2.1
  closed hs p := by
    cases p with
    | supervisor => exact hup.facts.2.2 hs
    | helper => exact hdown.facts.2.2 hs

theorem step_onward {event : Event D} (hstep : step c k s event = some s') : Onward s s' := by
  unfold step at hstep
  split at hstep
  · cases hstep
  cases event with
  | exchange deadline =>
    simp only [act] at hstep
    split at hstep <;> cases hstep
    exact .of_channels (fun _ h => h) id .same .same
  | join fd deadline =>
    simp only [act] at hstep
    split at hstep <;> cases hstep
    · exact .of_channels (fun _ h => h) id .same .same
    · exact .of_channels (fun _ h => h) (fun _ => rfl) .same .same
  | send packet deadline =>
    simp only [act] at hstep
    split at hstep
    · split at hstep <;> cases hstep
      exact .of_channels (fun _ h => h) id .same .same
    · cases hstep
  | cleanup expected deadline =>
    simp only [act] at hstep
    split at hstep <;> cases hstep
    exact .of_channels (fun _ h => h) id .same .same
  | supervisorRound now poll answer =>
    cases supervisorRound_spec hstep with
    | again => exact .refl _
    | fails hread => exact .of_channels (fun _ h => h) (fun _ => rfl) (.of_read hread) .same
    | returns _ hread => exact .of_channels (fun _ h => h) id (.of_read hread) .same
    | tells hopened _ => exact .of_channels (fun _ h => h) id .same (.sent hopened _)
    | takes _ _ => exact .of_channels (fun _ h => h) id .read .same
  | drop =>
    cases hstep
    exact .of_channels (fun _ h => h) (fun _ => rfl) .same .same
  | helperRound now poll answer =>
    cases helperRound_spec hstep with
    | again => exact .refl _
    | gives _ hread => exact .of_channels (fun _ h => h) (fun _ => rfl) .same (.of_read hread)
    | tells hopened _ => exact .of_channels (fun _ h => h) id (.sent hopened _) .same
    | takes _ _ => exact .of_channels (fun _ h => h) id .same .read
  | proceed now fault status =>
    obtain ⟨text, rfl⟩ | ⟨helper, r, -, rfl⟩ := proceed_spec hstep
    · exact .of_channels (fun _ h => h) (fun _ => rfl) .same .same
    · exact .of_channels (fun _ h => h) id .same .same
  | observe now poll exit recv =>
    obtain rfl | ⟨text, rfl⟩ | ⟨peer, status, deadline, -, rfl, -⟩ := observe_spec hstep
    · exact .refl _
    · exact .of_channels (fun _ h => h) (fun _ => rfl) .same .same
    · exact .of_channels (fun _ h => h) (fun _ => rfl) .same .same
  | die p closed =>
    cases hstep
    refine .of_channels (fun q hq => ?_) (fun hshut => ?_) .same .same
    · show (if q = p then true else s.dead q) = true
      rw [hq, ite_self]
    · show (s.shut || closed) = true
      rw [hshut, Bool.true_or]
  | inject p d =>
    cases p with
    | supervisor =>
      simp only [act] at hstep
      split at hstep <;> cases hstep
      rename_i hopened
      exact .of_channels (fun _ h => h) id .same (.sent (Bool.not_eq_true _ ▸ hopened) d)
    | helper =>
      simp only [act] at hstep
      split at hstep <;> cases hstep
      rename_i hopened
      exact .of_channels (fun _ h => h) id (.sent (Bool.not_eq_true _ ▸ hopened) d) .same

theorem run_onward {events : List (Event D)} (hrun : run c k s events = some s') : Onward s s' := by
  induction events generalizing s with
  | nil =>
    cases hrun
    exact .refl _
  | cons event rest ih =>
    obtain ⟨mid, hstep, hrest⟩ := Option.bind_eq_some_iff.mp hrun
    exact (step_onward hstep).trans (ih hrest)

theorem hasExited_eq (s : State D) (peer : D) :
    hasExited k s peer (.ok false) = .ok ((k.process peer).elim false s.dead) := rfl

theorem Onward.exited (h : Onward s s') {peer : D}
    (hexited : (k.process peer).elim false s.dead = true) :
    (k.process peer).elim false s'.dead = true := by
  cases hp : k.process peer with
  | none =>
    rw [hp] at hexited
    cases hexited
  | some p =>
    rw [hp] at hexited
    exact h.dead p hexited

theorem Onward.next (h : Onward s s') {p : Party} (hread : (s'.inbound p).read = (s.inbound p).read)
    {d : Datagram D} (hnext : (s.inbound p).next = some d) : (s'.inbound p).next = some d := by
  obtain ⟨more, hmore⟩ := h.sent p
  rw [Channel.next] at hnext ⊢
  rw [hread, ← hmore, List.getElem?_append_left (List.getElem?_eq_some_iff.mp hnext).1]
  exact hnext

theorem Onward.drained (h : Onward s s') {p : Party} (hshut : s.shut = true)
    (hnext : (s.inbound p).next = none) :
    (s'.inbound p).next = none := by
  rw [Channel.next, List.getElem?_eq_none_iff] at hnext ⊢
  rw [h.closed hshut]
  exact Nat.le_trans hnext (h.read p)

/-- What is not healthy, as long as nothing is received. -/
theorem Onward.unhealthy (h : Onward s s') {p : Party} {peer : D}
    (hread : (s'.inbound p).read = (s.inbound p).read)
    (hobserved : observed k s p peer ≠ .ok false) : observed k s' p peer ≠ .ok false := by
  unfold observed at hobserved ⊢
  rw [hasExited_eq] at hobserved ⊢
  by_cases hexited : (k.process peer).elim false s.dead = true
  · rw [h.exited hexited]
    exact fun heq => by cases heq
  rw [Bool.not_eq_true] at hexited
  rw [hexited] at hobserved
  cases hexited' : (k.process peer).elim false s'.dead with
  | true => exact fun heq => by cases heq
  | false =>
    cases hnext : (s.inbound p).next with
    | some d =>
      -- it is still the next one
      simp only [peerLost, hnext, h.next hread hnext] at hobserved ⊢
      exact hobserved
    | none =>
      simp only [peerLost, hnext] at hobserved
      have hshut : s.shut = true := by
        by_contra hopened
        exact hobserved (congrArg Except.ok (Bool.not_eq_true _ ▸ hopened))
      simp only [peerLost, h.drained hshut hnext, h.shut hshut]
      exact fun heq => by cases heq

/-- A receiver that is relied on sends no empty datagram. -/
theorem Said.bytes_ne_nil {r : Record D} {l : List (Datagram D)} (h : Said k r l) :
    ∀ d ∈ l, d.bytes ≠ [] := by
  intro d hd
  cases h with
  | nothing => exact absurd hd List.not_mem_nil
  | identity =>
    obtain rfl := List.mem_singleton.mp hd
    exact List.cons_ne_nil _ _
  | joined =>
    simp only [List.mem_cons, List.not_mem_nil, or_false] at hd
    obtain rfl | rfl := hd <;> exact List.cons_ne_nil _ _
  | reported placed finished cleaned sent =>
    simp only [List.mem_cons, List.not_mem_nil, or_false] at hd
    obtain rfl | rfl | rfl := hd
    · exact List.cons_ne_nil _ _
    · exact List.cons_ne_nil _ _
    · exact send_ne_nil sent

/-- Whoever is relied on is watched as the process it is. -/
theorem Inv.watches (h : Inv k rogue s) {p : Party} (hhonest : ¬ rogue p.other) {peer : D}
    (hpeer : s.peer? p = some peer) :
    peer = k.self p.other ∧ ∀ d ∈ (s.inbound p).sent, d.bytes ≠ [] := by
  cases p with
  | helper => exact ⟨h.watched hhonest hpeer, (h.supervisor.spoke hhonest).1.bytes_ne_nil⟩
  | supervisor =>
    have hsaid := (h.helper.said hhonest).1
    refine ⟨?_, hsaid.bytes_ne_nil⟩
    have hzero : s.up.sent[0]? = some (identityPacket peer) := by
      have hat := h.supervisor.at'
      simp only [State.peer?] at hpeer
      split at hpeer
      · rename_i hcall
        rw [hcall] at hat
        exact Option.some.inj hpeer ▸ hat.2
      · rename_i hcall
        rw [hcall] at hat
        exact Option.some.inj hpeer ▸ hat.2
      · rename_i hcall
        rw [hcall] at hat
        exact Option.some.inj hpeer ▸ hat.2
      · rename_i hcall
        rw [hcall] at hat
        exact Option.some.inj hpeer ▸ hat.2.1
      · cases hpeer
    generalize s.up.sent = l at hsaid hzero
    cases hsaid with
    | nothing => cases hzero
    | identity =>
      exact (List.cons.inj (congrArg Datagram.descriptors (Option.some.inj hzero))).1.symm
    | joined => exact (List.cons.inj (congrArg Datagram.descriptors (Option.some.inj hzero))).1.symm
    | reported =>
      exact (List.cons.inj (congrArg Datagram.descriptors (Option.some.inj hzero))).1.symm

/-! A command that ends with 37. -/

def sampleDescriptors : Descriptors Nat where
  self
    | .supervisor => 0
    | .helper => 1
  process
    | 0 => some .supervisor
    | 1 => some .helper
    | _ => none
  identifies p := by cases p <;> rfl
  cgroup2 fd := fd == 2
  directory fd := fd == 3
  nsfs fd := fd == 4
  resolver _ := false
  seqpacket fd := fd == 5
  same a b := a == b

def sampleStatus : ExitStatus := ⟨37 * 256⟩

def sampleEvents : List (Event Nat) :=
  let supervisor : Event Nat := .supervisorRound 0 (.ready true) (.ok ())
  let helper : Event Nat := .helperRound 0 (.ready true) (.ok ())
  let own : Event Nat := .proceed 0 none sampleStatus
  [.exchange 100, supervisor, own, helper, helper, supervisor,
    .join (.ok 2) 100, supervisor, own, helper, own, helper, supervisor,
    .send (.volume 3 4) 100, supervisor, helper, own, own, .send (.gate 5) 100, supervisor,
      helper, own,
    own, own, helper, .cleanup sampleStatus 100, supervisor, own]

/-- The receiver sees that the supervisor is gone. -/
def sampleLater : List (Event Nat) := [.observe 0 .timeout (.ok false) none]

theorem sample_allowed : ∀ event ∈ sampleEvents, event.Allowed fun _ => False := by
  simp [sampleEvents, Event.Allowed]

theorem sample_run : ∃ s, run Ciborium.reader sampleDescriptors
    (State.start 100) sampleEvents = some s ∧
    s.certified = [sampleStatus] ∧ s.record.started = true := by
  have hrun : ((run Ciborium.reader sampleDescriptors (State.start 100) sampleEvents).any fun s =>
      decide (s.certified = [sampleStatus] ∧ s.record.started = true)) = true := by
    decide +kernel
  obtain ⟨s, hs, hfacts⟩ := (Option.any_eq_true _ _).mp hrun
  exact ⟨s, hs, of_decide_eq_true hfacts⟩

theorem sample_end : ∃ s s', run Ciborium.reader sampleDescriptors (State.start 100)
    (sampleEvents ++ [.drop]) = some s ∧
    run Ciborium.reader sampleDescriptors s sampleLater = some s' ∧ s.peer? .helper = some 0 ∧
    observed sampleDescriptors s .helper 0 = .ok true := by
  have hrun : ((run Ciborium.reader sampleDescriptors (State.start 100)
      (sampleEvents ++ [.drop])).any fun s =>
      (run Ciborium.reader sampleDescriptors s sampleLater).isSome &&
        decide (s.peer? .helper = some 0 ∧ observed sampleDescriptors s .helper 0 = .ok true)) =
            true := by
    decide +kernel
  obtain ⟨s, hs, hfacts⟩ := (Option.any_eq_true _ _).mp hrun
  obtain ⟨hlater, hfacts⟩ := Bool.and_eq_true_iff.mp hfacts
  obtain ⟨s', hs'⟩ := Option.isSome_iff_exists.mp hlater
  exact ⟨s, s', hs, hs', of_decide_eq_true hfacts⟩

/-! The protocol. -/

/-- **What a supervisor knows** that joined a receiver which is relied on: it watches that
    process, which is in the domain; and a cleanup that was certified was done, after a
    command helper that ended with the code of the shell's status. -/
theorem supervised {deadline : Nat} {events : List (Event D)}
    (hallowed : ∀ event ∈ events, event.Allowed rogue) (hhelper : ¬ rogue .helper)
    (hrun : run c k (State.start deadline) events = some s) :
    (∀ peer call, s.supervisor = .joined peer call →
      peer = k.self .helper ∧ (∃ fd, s.record.placed = some fd) ∧ s.record.holds = none) ∧
    ∀ expected ∈ s.certified, ∃ status, s.record.finished = some status ∧ s.record.cleanup =
      some (.ok ()) ∧ status.code = some expected.shellCode := by
  have hinv : Inv k rogue s := run_inv hallowed (inv_start deadline) hrun
  have hsaid := (hinv.helper.said hhelper).1
  refine ⟨fun peer call hjoined => ?_, fun expected hexpected => ?_⟩
  · have hat := hinv.supervisor.at'
    rw [hjoined] at hat
    obtain ⟨-, hzero, hone⟩ := hat
    have hplaced : s.record.placed ≠ none ∧ peer = k.self .helper := by
      generalize s.up.sent = l at hsaid hzero hone
      cases hsaid with
      | nothing => cases hzero
      | identity => cases hone
      | joined placed =>
        exact ⟨placed, (List.cons.inj (congrArg Datagram.descriptors
          (Option.some.inj hzero))).1.symm⟩
      | reported placed =>
        exact ⟨placed, (List.cons.inj (congrArg Datagram.descriptors
          (Option.some.inj hzero))).1.symm⟩
    obtain ⟨fd, hfd⟩ := Option.ne_none_iff_exists'.mp hplaced.1
    exact ⟨hplaced.2, ⟨fd, hfd⟩, (hinv.helper.sound.placed fd hfd).2.1⟩
  · obtain ⟨i, status, d, hi, hsent, hsend, hcode⟩ := hinv.supervisor.certified expected hexpected
    -- the third thing a receiver says is its report
    have hlong := (List.getElem?_eq_some_iff.mp hsent).1
    generalize s.up.sent = l at hsaid hsent hlong
    cases hsaid with
    | nothing => cases hlong
    | identity => exact absurd hlong (by simp; omega)
    | joined => exact absurd hlong (by simp; omega)
    | @reported finished cleanup d' placed hfinished hcleanup hreport =>
      have htwo : i = 2 := by
        simp only [List.length_cons, List.length_nil] at hlong
        omega
      subst htwo
      obtain rfl := Option.some.inj hsent
      have hsame := send_injective hsend hreport
      cases cleanup with
      | error text => cases hsame
      | ok u =>
        obtain rfl := Packet.cleaned.inj hsame
        exact ⟨status, hfinished, hcleanup, hcode⟩

/-- `supervised` for the command. -/
theorem sample_supervised : ∃ s, run Ciborium.reader sampleDescriptors
    (State.start 100) sampleEvents = some s ∧
    s.certified = [sampleStatus] ∧ s.record.cleanup = some (.ok ()) := by
  obtain ⟨s, hrun, hcertified, -⟩ := sample_run
  obtain ⟨-, hcleaned⟩ := supervised sample_allowed not_false hrun
  obtain ⟨status, -, hcleanup, -⟩ :=
    hcleaned sampleStatus (by rw [hcertified]; exact List.mem_singleton_self _)
  exact ⟨s, hrun, hcertified, hcleanup⟩

/-- **Where a command is started**: in the domain, whatever the supervisor sends, with a
    volume and a gate that passed every check. From a supervisor that is relied on, the domain
    is the one it offered, and the two are the first things it sent to the joined receiver. -/
theorem contained {deadline : Nat} {events : List (Event D)}
    (hallowed : ∀ event ∈ events, event.Allowed rogue)
    (hrun : run c k (State.start deadline) events = some s) (hstarted : s.record.started = true) :
    ∃ fd input endpoint, s.record.placed = some fd ∧ k.cgroup2 fd = true ∧ s.record.holds = none ∧
      s.record.volume = some input ∧
      inspect k input = .ok () ∧ prepare k input = .ok () ∧ s.record.gate = some endpoint ∧
        k.seqpacket endpoint = true ∧
      (¬ rogue .supervisor → s.offered = some fd ∧
        ∃ packet rest, s.delivered = packet :: .gate endpoint :: rest ∧ volumeInput packet =
          some input) := by
  have hinv : Inv k rogue s := run_inv hallowed (inv_start deadline) hrun
  have hsound := hinv.helper.sound
  obtain ⟨endpoint, hgate⟩ := Option.ne_none_iff_exists'.mp (hsound.started hstarted)
  obtain ⟨hsocket, ⟨input, hvolume, hprepare⟩, hthree⟩ := hsound.gate endpoint hgate
  obtain ⟨hplaced, hinspect, packet, d, htwo, hsend, hinput⟩ := hsound.volume input hvolume
  obtain ⟨fd, hfd⟩ := Option.ne_none_iff_exists'.mp hplaced
  obtain ⟨hcgroup, hholds, hone⟩ := hsound.placed fd hfd
  refine ⟨fd, input, endpoint, hfd, hcgroup, hholds, hvolume, hinspect, hprepare, hgate, hsocket,
    fun hhonest => ?_⟩
  have hspoke := (hinv.supervisor.spoke hhonest).1
  generalize s.down.sent = l at hspoke hone htwo hthree
  generalize s.offered = offered at hspoke ⊢
  generalize s.delivered = delivered at hspoke ⊢
  cases hspoke with
  | nothing => cases hone
  | identity => cases hone
  | @offered fd' delivered sent each =>
    have hsame : fd' = fd :=
      (List.cons.inj (congrArg Datagram.descriptors (Option.some.inj hone))).1
    refine ⟨by rw [hsame], ?_⟩
    cases each with
    | nil => cases htwo
    | @cons first _ rest _ hfirst each =>
      obtain rfl := Option.some.inj htwo
      cases each with
      | nil => cases hthree
      | @cons second _ rest _ hsecond each =>
        obtain rfl := Option.some.inj hthree
        have hgate' : (Packet.gate endpoint).send = .ok (gatePacket endpoint) := rfl
        exact ⟨packet, rest, by rw [send_injective hfirst hsend, send_injective hsecond hgate'], hinput⟩

/-- `contained` for the command. -/
theorem sample_contained : ∃ s fd input endpoint, run Ciborium.reader sampleDescriptors
    (State.start 100) sampleEvents = some s ∧
    s.record.placed = some fd ∧ s.record.volume = some input ∧ s.record.gate = some endpoint ∧
      s.offered = some fd := by
  obtain ⟨s, hrun, -, hstarted⟩ := sample_run
  obtain ⟨fd, input, endpoint, hplaced, -, -, hvolume, -, -, hgate, -, hhonest⟩ :=
    contained sample_allowed hrun hstarted
  exact ⟨s, fd, input, endpoint, hrun, hplaced, hvolume, hgate, (hhonest not_false).1⟩

/-- **A loss is for good.** A party that lost one it relies on lost it in every later state; what
    it observes is not healthy again while it receives nothing, whoever the other one is; it is
    healthy only while the other one lives, connected, and has said nothing more; and a
    receiver that ended well has cleaned up and outlived its supervisor. -/
theorem loss_final {deadline : Nat} {events later : List (Event D)}
    (hallowed : ∀ event ∈ events, event.Allowed rogue)
    (hrun : run c k (State.start deadline) events = some s) (hlater : run c k s later = some s') :
    (∀ p peer, ¬ rogue p.other → s.peer? p = some peer → observed k s p peer = .ok true →
      observed k s' p peer = .ok true) ∧
    (∀ p peer, (s'.inbound p).read = (s.inbound p).read → observed k s p peer ≠ .ok false →
      observed k s' p peer ≠ .ok false) ∧
    (∀ p peer, ¬ rogue p.other → s.peer? p = some peer → observed k s p peer = .ok false →
      s.dead p.other = false ∧ s.shut = false ∧ (s.inbound p).sent.length ≤ (s.inbound p).read) ∧
    ∀ status, s.helper = .exited (.ok status) → s.record.finished = some status ∧ s.record.cleanup =
      some (.ok ()) ∧ (¬ rogue .supervisor → SupervisorEnded s) := by
  have hinv : Inv k rogue s := run_inv hallowed (inv_start deadline) hrun
  have honward := run_onward hlater
  refine ⟨fun p peer hhonest hpeer hlost => ?_, fun p peer hread => honward.unhealthy hread,
    fun p peer hhonest hpeer hhealthy => ?_, fun status hstatus => ?_⟩
  · obtain ⟨-, hfull⟩ := hinv.watches hhonest hpeer
    obtain hexited | ⟨d, hnext, hnil⟩ | ⟨hnext, hshut⟩ := peerLost_true hlost
    · rw [observed, hasExited_eq, honward.exited (Except.ok.inj hexited)]
      rfl
    · rw [Channel.next] at hnext
      exact absurd hnil (hfull d (List.mem_of_getElem? hnext))
    · rw [observed, hasExited_eq]
      cases (k.process peer).elim false s'.dead with
      | true => rfl
      | false => simp only [peerLost, honward.drained hshut hnext, honward.shut hshut]
  · obtain ⟨rfl, -⟩ := hinv.watches hhonest hpeer
    rw [observed, hasExited_eq, k.identifies, Option.elim_some] at hhealthy
    cases hdead : s.dead p.other with
    | true =>
      rw [hdead] at hhealthy
      cases hhealthy
    | false =>
      rw [hdead] at hhealthy
      cases hnext : (s.inbound p).next with
      | some d =>
        simp only [peerLost, hnext] at hhealthy
        split at hhealthy <;> cases hhealthy
      | none =>
        simp only [peerLost, hnext] at hhealthy
        rw [Channel.next, List.getElem?_eq_none_iff] at hnext
        exact ⟨rfl, Except.ok.inj hhealthy, hnext⟩
  · have hat := hinv.helper.at'
    rw [hstatus] at hat
    exact ⟨hat.1, hat.2, hinv.outlived status hstatus⟩

/-- `loss_final` for the command. -/
theorem sample_lost : ∃ s s', run Ciborium.reader sampleDescriptors (State.start 100)
    (sampleEvents ++ [.drop]) = some s ∧
    run Ciborium.reader sampleDescriptors s sampleLater = some s' ∧
      observed sampleDescriptors s .helper 0 = .ok true ∧
    observed sampleDescriptors s' .helper 0 = .ok true := by
  obtain ⟨s, s', hrun, hlater, hpeer, hlost⟩ := sample_end
  have hallowed : ∀ event ∈ sampleEvents ++ [.drop], event.Allowed fun _ => False := by
    intro event hevent
    obtain hevent | hevent := List.mem_append.mp hevent
    · exact sample_allowed event hevent
    · rw [List.mem_singleton.mp hevent]
      trivial
  exact ⟨s, s', hrun, hlater, hlost, (loss_final hallowed hrun hlater).1 .helper 0 not_false hpeer hlost⟩

end Conglobate.Process.Supervision
