import Conglobate.Process.Supervision
import Conglobate.Isolation.GateProps

/- What supervision is good for (`process/identity.rs`, `process/supervision`, `execution/helper.rs`).

   `Inv` is the invariant of every interleaving (`run_inv`). Each party's part of it speaks of
   its own phase and of what the other one sent, which only grows. Of a party that is not
   relied on, nothing is known that it sent. -/
namespace Conglobate.Process.Supervision

open Isolation (Channel Poll Round retried)

variable {D α : Type}

/-! Packets. -/

theorem send_injective {p q : Packet D} {d : Datagram D} (hp : p.send = .ok d)
    (hq : q.send = .ok d) : p = q := by
  have hstatus : ∀ {status : ExitStatus} {q : Packet D}, (Packet.cleaned status).send = .ok d →
      q.send = .ok d → ∃ status', q = .cleaned status' := by
    intro status q hstatus hq
    by_contra hother
    have hreceived := Packet.receive_send Ciborium.reader_faithful
      (fun status' heq => absurd ⟨status', heq⟩ hother) hq
    rw [Packet.receive_status hstatus] at hreceived
    split at hreceived
    · exact hother ⟨status, (Except.ok.inj hreceived).symm⟩
    · cases hreceived
  by_cases hcleaned : ∃ status, p = .cleaned status
  · obtain ⟨status, rfl⟩ := hcleaned
    obtain ⟨status', rfl⟩ := hstatus hp hq
    have hbytes := Except.ok.inj ((Packet.send_eq_ok.mp hp).1.trans
      (Packet.send_eq_ok.mp hq).1.symm)
    have hraw := congrArg (fun bytes => BitVec.ofNat 32 (Bytes.ofBe bytes))
      (List.append_cancel_left hbytes)
    rw [Packet.status_bytes, Packet.status_bytes] at hraw
    cases status
    cases status'
    exact congrArg (fun raw => Packet.cleaned ⟨raw⟩) hraw
  · have hplain : ∀ status, p = .cleaned status → Terminal status :=
      fun status heq => absurd ⟨status, heq⟩ hcleaned
    have hplain' : ∀ status, q = .cleaned status → Terminal status := by
      rintro status rfl
      exact absurd (hstatus hq hp) hcleaned
    have hreceived := Packet.receive_send Ciborium.reader_faithful hplain hp
    rw [Packet.receive_send Ciborium.reader_faithful hplain' hq] at hreceived
    exact (Except.ok.inj hreceived).symm

theorem send_ne_nil {p : Packet D} {d : Datagram D} (h : p.send = .ok d) : d.bytes ≠ [] := by
  intro hnil
  have hreceived : Packet.receive Ciborium.reader (D := D) ⟨[], d.descriptors⟩ =
      Packet.receive Ciborium.reader d := by
    rw [← hnil]
  by_cases hcleaned : ∃ status, p = .cleaned status
  · obtain ⟨status, rfl⟩ := hcleaned
    have hbytes := (Packet.send_eq_ok.mp h).1
    rw [hnil] at hbytes
    cases Except.ok.inj hbytes
  · rw [Packet.receive_send Ciborium.reader_faithful
      (fun status heq => absurd ⟨status, heq⟩ hcleaned) h] at hreceived
    unfold Packet.receive receiveNow at hreceived
    split at hreceived <;> cases hreceived

/-- The test of an identity. -/
theorem checkIdentity_eq_ok {d : Datagram D} {fd : D} :
    checkIdentity d = .ok fd ↔ d = identityPacket fd := by
  obtain ⟨bytes, descriptors⟩ := d
  unfold checkIdentity identityPacket
  rw [except_bind_eq_ok]
  refine ⟨fun h => ?_, fun h => ?_⟩
  · obtain ⟨received, hreceived, h⟩ := h
    obtain ⟨-, rfl⟩ := Isolation.receiveNow_eq_ok.mp hreceived
    split at h
    · cases h
    · split at h
      · rename_i one hone
        split at h
        · rename_i hbytes
          dsimp only at hone hbytes
          rw [hone, hbytes, Except.ok.inj h]
        · cases h
      · cases h
  · cases h
    exact ⟨_, Isolation.receiveNow_eq_ok.mpr ⟨⟨Nat.le_refl 3, by simp [maxDescriptors]⟩, rfl⟩, rfl⟩

/-- What is received as something was sent as it. -/
theorem expect_eq_ok {c : Ciborium} {kind : Packet D → Option α} {message : String} {d : Datagram D}
    {a : α} (h : expect c kind message d = .ok a) :
    ∃ p : Packet D, p.send = .ok d ∧ kind p = some a := by
  obtain ⟨p, hp, h⟩ := except_bind_eq_ok.mp h
  refine ⟨p, Packet.send_receive hp, ?_⟩
  cases hkind : kind p with
  | some b =>
    rw [hkind] at h
    rw [Except.ok.inj h]
  | none =>
    rw [hkind] at h
    cases h

def joinedPacket : Datagram D := ⟨[0x82, 1, 2], []⟩

def offerPacket (fd : D) : Datagram D := ⟨[0x82, 1, 1], [fd]⟩

def gatePacket (fd : D) : Datagram D := ⟨[0x82, 1, 13], [fd]⟩

theorem asJoined_eq_some {p : Packet D} {d : Datagram D} (hsend : p.send = .ok d)
    (h : asJoined p = some ()) : d = joinedPacket := by
  cases p with
  | joined => exact (Except.ok.inj hsend).symm
  | _ => cases h

theorem asOffer_eq_some {p : Packet D} {d : Datagram D} {fd : D} (hsend : p.send = .ok d)
    (h : asOffer p = some fd) : d = offerPacket fd := by
  cases p with
  | offer other =>
    rw [← Option.some.inj h]
    exact (Except.ok.inj hsend).symm
  | _ => cases h

theorem asGate_eq_some {p : Packet D} {d : Datagram D} {fd : D} (hsend : p.send = .ok d)
    (h : asGate p = some fd) : d = gatePacket fd := by
  cases p with
  | gate other =>
    rw [← Option.some.inj h]
    exact (Except.ok.inj hsend).symm
  | _ => cases h

/-! Rounds. -/

theorem sending_cases {c c' : Channel D} {shut : Bool} {d : Datagram D} {deadline now : Nat}
    {poll : Poll} {answer : Except IoError Unit} {round : Round Unit}
    (h : sending c shut d deadline now poll answer = some (c', round)) :
    (c' = c ∧ round = .again) ∨ (∃ e, c' = c ∧ round = .done (.error e)) ∨
      (shut = false ∧ c' = c.put d ∧ round = .done (.ok ())) := by
  unfold sending at h
  split at h
  · cases h
    exact .inl ⟨rfl, rfl⟩
  · rename_i e _
    cases h
    exact .inr (.inl ⟨e, rfl, rfl⟩)
  · split at h
    · cases shut with
      | true => cases h
      | false =>
        cases h
        exact .inr (.inr ⟨rfl, rfl, rfl⟩)
    · rename_i e
      cases h
      cases retried e with
      | true => exact .inl ⟨rfl, rfl⟩
      | false => exact .inr (.inl ⟨e, rfl, rfl⟩)

theorem receiving_cases {c c' : Channel D} {shut : Bool} {check : Datagram D → Except IoError α}
    {deadline now : Nat} {poll : Poll} {answer : Except IoError Unit} {round : Round α}
    (h : receiving c shut check deadline now poll answer = some (c', round))
    (hempty : ∀ a, check ⟨[], []⟩ ≠ .ok a) :
    (c' = c ∧ round = .again) ∨ (∃ e, (c' = c ∨ c' = c.advance) ∧ round = .done (.error e)) ∨
      ∃ d a, c.next = some d ∧ check d = .ok a ∧ c' = c.advance ∧ round = .done (.ok a) := by
  unfold receiving at h
  split at h
  · cases h
    exact .inl ⟨rfl, rfl⟩
  · rename_i e _
    cases h
    exact .inr (.inl ⟨e, .inl rfl, rfl⟩)
  · split at h
    · rw [Channel.receive] at h
      cases hnext : c.next with
      | some d =>
        rw [hnext] at h
        cases h
        cases hcheck : check d with
        | error e => exact .inr (.inl ⟨e, .inr rfl, rfl⟩)
        | ok a => exact .inr (.inr ⟨d, a, rfl, hcheck, rfl, rfl⟩)
      | none =>
        -- the end of a channel that was shut down
        rw [hnext] at h
        cases shut with
        | false => cases h
        | true =>
          cases h
          cases hcheck : check ⟨[], []⟩ with
          | error e => exact .inr (.inl ⟨e, .inl rfl, rfl⟩)
          | ok a => exact absurd hcheck (hempty a)
    · rename_i e
      cases h
      cases retried e with
      | true => exact .inl ⟨rfl, rfl⟩
      | false => exact .inr (.inl ⟨e, .inl rfl, rfl⟩)

theorem checkIdentity_nil (fd : D) : checkIdentity (⟨[], []⟩ : Datagram D) ≠ .ok fd := by
  intro h
  cases checkIdentity_eq_ok.mp h

theorem expect_nil {c : Ciborium} {kind : Packet D → Option α} {message : String} (a : α) :
    expect c kind message (⟨[], []⟩ : Datagram D) ≠ .ok a := by
  intro h
  obtain ⟨p, hsend, -⟩ := expect_eq_ok h
  exact send_ne_nil hsend rfl

theorem certify_nil {c : Ciborium} {expected : ExitStatus} (u : Unit) :
    certify expected (Packet.receive c (⟨[], []⟩ : Datagram D)) ≠ .ok u := by
  intro h
  obtain ⟨status, hreceived, -⟩ := certify_eq_ok.mp h
  exact send_ne_nil (Packet.send_receive hreceived) rfl

/-! The receiver's part. -/

section
variable {k : Descriptors D}

/-- What it has done it did with what it was sent, in this order. -/
structure Sound (k : Descriptors D) (down : List (Datagram D)) (r : Record D) : Prop where
  placed : ∀ fd, r.placed = some fd → k.cgroup2 fd = true ∧ r.holds = none ∧
    down[1]? = some (offerPacket fd)
  volume : ∀ input, r.volume = some input → r.placed ≠ none ∧ inspect k input = .ok () ∧
    ∃ packet d, down[2]? = some d ∧ packet.send = .ok d ∧ volumeInput packet = some input
  gate : ∀ fd, r.gate = some fd → k.seqpacket fd = true ∧
    (∃ input, r.volume = some input ∧ prepare k input = .ok ()) ∧
    down[3]? = some (gatePacket fd)
  started : r.started = true → r.gate ≠ none
  finished : r.finished ≠ none → r.started = true
  cleanup : r.cleanup ≠ none → r.finished ≠ none

/-- What it said, with what it had done by then. -/
inductive Said (k : Descriptors D) (r : Record D) : List (Datagram D) → Prop
  | nothing : Said k r []
  | identity : Said k r [identityPacket (k.self .helper)]
  | joined (placed : r.placed ≠ none) : Said k r [identityPacket (k.self .helper), joinedPacket]
  | reported {status : ExitStatus} {cleanup : Except Text Unit} {d : Datagram D}
      (placed : r.placed ≠ none) (finished : r.finished = some status)
      (cleaned : r.cleanup = some cleanup)
      (sent : (report status cleanup : Packet D).send = .ok d) :
      Said k r [identityPacket (k.self .helper), joinedPacket, d]

namespace Helper

/-- How much it has said, while it runs. -/
def said : Helper D → Option Nat
  | .unpaired _ | .identifying _ => some 0
  | .awaitingPeer _ | .paired _ _ | .awaitingOffer _ _ | .placing _ _ _ | .acknowledging _ _ =>
    some 1
  | .reported _ _ | .awaitingLoss _ _ _ _ => some 3
  | .exited _ => none
  | _ => some 2

/-- Whom it watches. -/
def peer? : Helper D → Option D
  | .paired peer _ | .awaitingOffer peer _ | .placing peer _ _ | .acknowledging peer _
  | .awaitingVolume peer _ | .inspecting peer _ _ | .preparing peer _ _ | .awaitingGate peer _ _
  | .admitting peer _ _ | .executing peer _ _
  | .cleaning peer _ | .reporting peer _ _ _ | .reported peer _ | .awaitingLoss peer _ _ _ =>
    some peer
  | _ => none

/-- Where it is, by what it has read and done. -/
def At (k : Descriptors D) (r : Record D) (down : Channel D) : Helper D → Prop
  | .unpaired _ | .identifying _ | .awaitingPeer _ => down.read = 0 ∧ r = .empty
  | .paired _ _ | .awaitingOffer _ _ => down.read = 1 ∧ r = .empty
  | .placing _ fd _ =>
    down.read = 2 ∧ r = { Record.empty with holds := some fd } ∧
      down.sent[1]? = some (offerPacket fd)
  | .acknowledging _ _ | .awaitingVolume _ _ =>
    down.read = 2 ∧ ∃ fd, r = { Record.empty with placed := some fd }
  | .inspecting _ input _ => down.read = 3 ∧ (∃ fd, r = { Record.empty with placed := some fd }) ∧
      ∃ packet d, down.sent[2]? = some d ∧ packet.send = .ok d ∧ volumeInput packet = some input
  | .preparing _ input _ =>
    down.read = 3 ∧ ∃ fd, r = { Record.empty with placed := some fd, volume := some input }
  | .awaitingGate _ input _ =>
    down.read = 3 ∧ (∃ fd, r = { Record.empty with placed := some fd, volume := some input }) ∧
      prepare k input = .ok ()
  | .admitting _ input fd =>
    (∃ fd', r = { Record.empty with placed := some fd', volume := some input }) ∧
      prepare k input = .ok () ∧ down.sent[3]? = some (gatePacket fd)
  | .executing _ _ _ => r.started = true ∧ r.finished = none ∧ r.cleanup = none
  | .cleaning _ status => r.finished = some status ∧ r.cleanup = none
  | .reporting _ status cleanup _ => r.finished = some status ∧ r.cleanup = some cleanup
  | .reported _ status => r.finished = some status ∧ r.cleanup = some (.ok ())
  | .awaitingLoss _ status cleanup _ => r.finished = some status ∧ r.cleanup = some cleanup
  | .exited (.ok status) => r.finished = some status ∧ r.cleanup = some (.ok ())
  | .exited (.error _) => True

end Helper

/-- The receiver is where the channels say. -/
structure HelperInv (k : Descriptors D) (honest : Prop) (helper : Helper D) (r : Record D)
    (up : List (Datagram D)) (down : Channel D) :
    Prop where
  sound : Sound k down.sent r
  at' : helper.At k r down
  said : honest → Said k r up ∧ ∀ n, helper.said = some n → up.length = n
  peer : ∀ peer, helper.peer? = some peer → down.sent[0]? = some (identityPacket peer)

theorem getElem?_put {l : List (Datagram D)} {i : Nat} {d e : Datagram D} (h : l[i]? = some d) :
    (l ++ [e])[i]? = some d := by
  rw [List.getElem?_append_left (List.getElem?_eq_some_iff.mp h).1]
  exact h

theorem Sound.put {down : List (Datagram D)} {r : Record D} (h : Sound k down r) (d : Datagram D) :
    Sound k (down ++ [d]) r := by
  refine ⟨fun fd hfd => ?_, fun input hinput => ?_, fun fd hfd => ?_, h.started,
    h.finished, h.cleanup⟩
  · obtain ⟨hcgroup, hholds, hsent⟩ := h.placed fd hfd
    exact ⟨hcgroup, hholds, getElem?_put hsent⟩
  · obtain ⟨hplaced, hinspect, packet, d', hsent, hpacket⟩ := h.volume input hinput
    exact ⟨hplaced, hinspect, packet, d', getElem?_put hsent, hpacket⟩
  · obtain ⟨hsocket, hvolume, hsent⟩ := h.gate fd hfd
    exact ⟨hsocket, hvolume, getElem?_put hsent⟩

theorem Helper.At.put {helper : Helper D} {r : Record D} {down : Channel D} (h : helper.At k r down)
    (d : Datagram D) :
    helper.At k r (down.put d) := by
  cases helper with
  | placing peer fd deadline => exact ⟨h.1, h.2.1, getElem?_put h.2.2⟩
  | inspecting peer input deadline =>
    obtain ⟨hread, hrecord, packet, d', hsent, hpacket⟩ := h
    exact ⟨hread, hrecord, packet, d', getElem?_put hsent, hpacket⟩
  | admitting peer input fd => exact ⟨h.1, h.2.1, getElem?_put h.2.2⟩
  | exited result => cases result <;> exact h
  | _ => exact h

/-- More that is sent to the receiver. -/
theorem HelperInv.put {honest : Prop} {helper : Helper D} {r : Record D} {up : List (Datagram D)}
    {down : Channel D} (h : HelperInv k honest helper r up down) (d : Datagram D) :
    HelperInv k honest helper r up (down.put d) where
  sound := h.sound.put d
  at' := h.at'.put d
  said := h.said
  peer peer hpeer := getElem?_put (h.peer peer hpeer)

/-- A receiver that ends with an error. -/
theorem HelperInv.exits {honest : Prop} {helper : Helper D} {r : Record D} {up : List (Datagram D)}
    {down down' : Channel D} (h : HelperInv k honest helper r up down)
    (hdown : down'.sent = down.sent) (text : Text) :
    HelperInv k honest (.exited (.error text)) { r with holds := none } up down' where
  sound := by
    rw [hdown]
    exact ⟨fun fd hfd => ⟨(h.sound.placed fd hfd).1, rfl, (h.sound.placed fd hfd).2.2⟩,
      h.sound.volume, h.sound.gate, h.sound.started,
      h.sound.finished, h.sound.cleanup⟩
  at' := trivial
  said hhonest := by
    refine ⟨?_, fun n hn => by cases hn⟩
    obtain hsaid := (h.said hhonest).1
    cases hsaid with
    | nothing => exact .nothing
    | identity => exact .identity
    | joined placed => exact .joined placed
    | reported placed finished cleaned sent => exact .reported placed finished cleaned sent
  peer peer hpeer := by cases hpeer

/-- What it can say. -/
inductive Says (k : Descriptors D) : Helper D → Datagram D → Helper D → Prop
  | identity {deadline : Nat} : Says k (.identifying deadline) (identityPacket (k.self .helper))
      (.awaitingPeer deadline)
  | joined {peer : D} {deadline : Nat} : Says k (.acknowledging peer deadline) joinedPacket
      (.awaitingVolume peer deadline)
  | report {peer : D} {status : ExitStatus} {cleanup : Except Text Unit} {deadline : Nat}
      {d : Datagram D} (sent : (report status cleanup : Packet D).send = .ok d) :
      Says k (.reporting peer status cleanup deadline) d
        (if cleanup = .ok () then .reported peer status
          else .awaitingLoss peer status cleanup deadline)

/-- What it can be told. -/
inductive Takes : Helper D → Record D → Datagram D → Helper D → Record D → Prop
  | identity {deadline : Nat} {r : Record D} {peer : D} :
      Takes (.awaitingPeer deadline) r (identityPacket peer) (.paired peer deadline) r
  | offer {peer fd : D} {deadline : Nat} {r : Record D} :
      Takes (.awaitingOffer peer deadline) r (offerPacket fd) (.placing peer fd deadline)
        { r with holds := some fd }
  | volume {peer : D} {deadline : Nat} {r : Record D} {packet : Packet D} {d : Datagram D}
      {input : VolumeInput D} (sent : packet.send = .ok d)
      (input' : volumeInput packet = some input) :
      Takes (.awaitingVolume peer deadline) r d (.inspecting peer input deadline) r
  | gate {peer fd : D} {input : VolumeInput D} {deadline : Nat} {r : Record D} :
      Takes (.awaitingGate peer input deadline) r (gatePacket fd) (.admitting peer input fd) r

/-- What a round of the receiver can do. -/
inductive HelperRound (k : Descriptors D) (s : State D) : State D → Prop
  | again : HelperRound k s s
  | gives {down : Channel D} (text : Text) (read : down = s.down ∨ down = s.down.advance) :
      HelperRound k s (State.exits { s with down := down } (.error text))
  | tells {d : Datagram D} {helper : Helper D} (opened : s.shut = false)
      (said : Says k s.helper d helper) :
      HelperRound k s { s with up := s.up.put d, helper := helper }
  | takes {d : Datagram D} {helper : Helper D} {r : Record D} (next : s.down.next = some d)
      (taken : Takes s.helper s.record d helper r) :
      HelperRound k s { s with down := s.down.advance, helper := helper, record := r }

section
variable {c : Ciborium} {s s' : State D} {now : Nat} {poll : Poll} {answer : Except IoError Unit}

/-- A send of the receiver. -/
theorem helper_sends {d : Datagram D} {deadline : Nat} {helper : Helper D}
    (htold : Says k s.helper d helper)
    (h : (sending s.up s.shut d deadline now poll answer).map (fun r =>
      r.2.settle s (fun _ => { s with up := r.1, helper := helper }) s.gives) =
        some s') : HelperRound k s s' := by
  obtain ⟨⟨up, round⟩, hround, rfl⟩ := Option.map_eq_some_iff.mp h
  obtain ⟨rfl, rfl⟩ | ⟨e, rfl, rfl⟩ | ⟨hopened, rfl, rfl⟩ := sending_cases hround
  · exact .again
  · exact .gives _ (.inl rfl)
  · exact .tells hopened htold

/-- A receive of the receiver. -/
theorem helper_receives {check : Datagram D → Except IoError α} {deadline : Nat}
    {helper : α → Helper D} {record : α → Record D} {text : IoError → Text}
    (hempty : ∀ a, check ⟨[], []⟩ ≠ .ok a)
    (htakes : ∀ d a, check d = .ok a → Takes s.helper s.record d (helper a) (record a))
    (h : (receiving s.down s.shut check deadline now poll answer).map (fun r =>
      r.2.settle s (fun a => { s with down := r.1, helper := helper a, record := record a })
        fun e => State.exits { s with down := r.1 } (.error (text e))) =
          some s') : HelperRound k s s' := by
  obtain ⟨⟨down, round⟩, hround, rfl⟩ := Option.map_eq_some_iff.mp h
  obtain ⟨rfl, rfl⟩ | ⟨e, hread, rfl⟩ | ⟨d, a, hnext, hcheck, rfl, rfl⟩ :=
    receiving_cases hround hempty
  · exact .again
  · exact .gives _ hread
  · exact .takes hnext (htakes d a hcheck)

theorem helperRound_spec (h : helperRound c k s now poll answer = some s') :
    HelperRound k s s' := by
  unfold helperRound at h
  split at h
  · rename_i deadline hcall
    exact helper_sends (hcall ▸ .identity) h
  · rename_i deadline hcall
    refine helper_receives checkIdentity_nil (fun d peer hcheck => ?_) h
    rw [hcall, checkIdentity_eq_ok.mp hcheck]
    exact .identity
  · rename_i peer deadline hcall
    refine helper_receives expect_nil (fun d fd hcheck => ?_) h
    obtain ⟨p, hsend, hkind⟩ := expect_eq_ok hcheck
    rw [hcall, asOffer_eq_some hsend hkind]
    exact .offer
  · rename_i peer deadline hcall
    exact helper_sends (hcall ▸ .joined) h
  · rename_i peer deadline hcall
    refine helper_receives expect_nil (fun d input hcheck => ?_) h
    obtain ⟨p, hsend, hkind⟩ := expect_eq_ok hcheck
    rw [hcall]
    exact .volume hsend hkind
  · rename_i peer input deadline hcall
    refine helper_receives expect_nil (fun d fd hcheck => ?_) h
    obtain ⟨p, hsend, hkind⟩ := expect_eq_ok hcheck
    rw [hcall, asGate_eq_some hsend hkind]
    exact .gate
  · rename_i peer status cleanup deadline hcall
    cases hsend : (report status cleanup : Packet D).send with
    | error e =>
      rw [hsend] at h
      cases h
      exact .gives _ (.inl rfl)
    | ok d =>
      rw [hsend] at h
      exact helper_sends (hcall ▸ .report hsend) h
  · cases h

end

/-- What it does on its own. -/
inductive Own (k : Descriptors D) : Helper D → Record D → Helper D → Record D → Prop
  | opens {deadline : Nat} {r : Record D} : Own k (.unpaired deadline) r (.identifying deadline) r
  | single {peer : D} {deadline : Nat} {r : Record D} :
      Own k (.paired peer deadline) r (.awaitingOffer peer deadline) r
  | places {peer fd : D} {deadline : Nat} {r : Record D} (cgroup : k.cgroup2 fd = true) :
      Own k (.placing peer fd deadline) r (.acknowledging peer deadline)
        { r with placed := some fd, holds := none }
  | inspects {peer : D} {input : VolumeInput D} {deadline : Nat} {r : Record D}
      (passes : inspect k input = .ok ()) :
      Own k (.inspecting peer input deadline) r (.preparing peer input deadline)
        { r with volume := some input }
  | prepares {peer : D} {input : VolumeInput D} {deadline : Nat} {r : Record D}
      (passes : prepare k input = .ok ()) :
      Own k (.preparing peer input deadline) r (.awaitingGate peer input deadline) r
  | admits {peer fd : D} {input : VolumeInput D} {r : Record D} (socket : k.seqpacket fd = true) :
      Own k (.admitting peer input fd) r (.executing peer input fd)
        { r with gate := some fd, started := true }
  | finishes {peer fd : D} {input : VolumeInput D} {r : Record D} (status : ExitStatus) :
      Own k (.executing peer input fd) r (.cleaning peer status) { r with finished := some status }
  | cleans {peer : D} {status : ExitStatus} {r : Record D} (cleanup : Except Text Unit)
      (deadline : Nat) :
      Own k (.cleaning peer status) r (.reporting peer status cleanup deadline)
        { r with cleanup := some cleanup }
  | waits {peer : D} {status : ExitStatus} {r : Record D} (deadline : Nat) :
      Own k (.reported peer status) r (.awaitingLoss peer status (.ok ()) deadline) r

theorem proceed_spec {s s' : State D} {now : Nat} {fault : Option Text} {status : ExitStatus}
    (h : proceed k s now fault status = some s') : (∃ text, s' = s.exits (.error text)) ∨
      ∃ helper r, Own k s.helper s.record helper r ∧
        s' = { s with helper := helper, record := r } := by
  unfold proceed at h
  split at h
  · rename_i peer finished _ hcall
    cases h
    exact .inr ⟨_, _, hcall ▸ .cleans _ _, rfl⟩
  · rename_i deadline hcall
    cases h
    exact .inr ⟨_, _, hcall ▸ .opens, rfl⟩
  · rename_i peer deadline hcall
    cases h
    exact .inr ⟨_, _, hcall ▸ .single, rfl⟩
  · rename_i peer fd deadline hcall
    split at h
    · rename_i hcgroup
      cases h
      exact .inr ⟨_, _, hcall ▸ .places hcgroup, rfl⟩
    · exact .inl ⟨_, (Option.some.inj h).symm⟩
  · rename_i peer input deadline hcall
    split at h
    · exact .inl ⟨_, (Option.some.inj h).symm⟩
    · rename_i hpasses
      cases h
      exact .inr ⟨_, _, hcall ▸ .inspects hpasses, rfl⟩
  · rename_i peer input deadline hcall
    split at h
    · exact .inl ⟨_, (Option.some.inj h).symm⟩
    · rename_i hpasses
      cases h
      exact .inr ⟨_, _, hcall ▸ .prepares hpasses, rfl⟩
  · rename_i peer input fd hcall
    split at h
    · rename_i hsocket
      cases h
      exact .inr ⟨_, _, hcall ▸ .admits hsocket, rfl⟩
    · exact .inl ⟨_, (Option.some.inj h).symm⟩
  · rename_i peer _ _ hcall
    cases h
    exact .inr ⟨_, _, hcall ▸ .finishes status, rfl⟩
  · rename_i peer finished hcall
    cases h
    exact .inr ⟨_, _, hcall ▸ .waits _, rfl⟩
  all_goals first | exact .inl ⟨_, (Option.some.inj h).symm⟩ | cases h

theorem observe_spec {s s' : State D} {now : Nat} {poll : Poll} {exit : Except IoError Bool}
    {recv : Option IoError} (h : observe k s now poll exit recv = some s') :
    s' = s ∨ (∃ text, s' = s.exits (.error text)) ∨
      ∃ peer status deadline, s.helper = .awaitingLoss peer status (.ok ()) deadline ∧
        s' = s.exits (.ok status) ∧
        peerLost s.down s.shut (hasExited k s peer exit) recv = .ok true := by
  unfold observe at h
  split at h
  · rename_i peer status cleanup deadline hcall
    split at h
    · exact .inr (.inl ⟨_, (Option.some.inj h).symm⟩)
    · rename_i hlost
      cases cleanup with
      | error text => exact .inr (.inl ⟨text, (Option.some.inj h).symm⟩)
      | ok u => exact .inr (.inr ⟨peer, status, deadline, hcall, (Option.some.inj h).symm, hlost⟩)
    · split at h
      · exact .inr (.inl ⟨_, (Option.some.inj h).symm⟩)
      · split at h
        · split at h
          · exact .inl (Option.some.inj h).symm
          · exact .inr (.inl ⟨_, (Option.some.inj h).symm⟩)
        · exact .inl (Option.some.inj h).symm
  · cases h

/-! What the receiver's steps keep. -/

section
variable {honest : Prop} {helper helper' : Helper D} {r r' : Record D} {up : List (Datagram D)}
    {down : Channel D} {d : Datagram D}

theorem HelperInv.told (h : HelperInv k honest helper r up down) (htold : Says k helper d helper') :
    HelperInv k honest helper' r (up ++ [d]) down := by
  obtain ⟨hsound, hat, hsaid, hpeer⟩ := h
  cases htold with
  | identity =>
    refine ⟨hsound, hat, fun hhonest => ?_, fun peer hp => by cases hp⟩
    obtain ⟨-, hlength⟩ := hsaid hhonest
    obtain rfl := List.length_eq_zero_iff.mp (hlength 0 rfl)
    exact ⟨.identity, fun n hn => Option.some.inj hn⟩
  | joined =>
    refine ⟨hsound, hat, fun hhonest => ?_, hpeer⟩
    obtain ⟨hsaid, hlength⟩ := hsaid hhonest
    have hone := hlength 1 rfl
    obtain ⟨-, fd, hr⟩ := hat
    cases hsaid with
    | identity => exact ⟨.joined (by simp [hr]), fun n hn => Option.some.inj hn⟩
    | _ => cases hone
  | @report peer status cleanup deadline _ hsent =>
    obtain ⟨hfinished, hcleanup⟩ := hat
    have hsaid' : honest → Said k r (up ++ [d]) ∧ (up ++ [d]).length = 3 := by
      intro hhonest
      obtain ⟨hsaid, hlength⟩ := hsaid hhonest
      have htwo := hlength 2 rfl
      cases hsaid with
      | joined placed => exact ⟨.reported placed hfinished hcleanup hsent, rfl⟩
      | _ => cases htwo
    by_cases hclean : cleanup = .ok ()
    · rw [if_pos hclean]
      refine ⟨hsound, ⟨hfinished, hclean ▸ hcleanup⟩, fun hhonest => ?_, hpeer⟩
      exact ⟨(hsaid' hhonest).1, fun n hn => (hsaid' hhonest).2.trans (Option.some.inj hn)⟩
    · rw [if_neg hclean]
      refine ⟨hsound, ⟨hfinished, hcleanup⟩, fun hhonest => ?_, hpeer⟩
      exact ⟨(hsaid' hhonest).1, fun n hn => (hsaid' hhonest).2.trans (Option.some.inj hn)⟩

theorem sound_empty {l : List (Datagram D)} {holds : Option D} :
    Sound k l { Record.empty with holds := holds } where
  placed _ h := by cases h
  volume _ h := by cases h
  gate _ h := by cases h
  started h := by cases h
  finished h := absurd rfl h
  cleanup h := absurd rfl h

/-- What it said before its report, by when it does more. -/
theorem Said.short (h : Said k r up) (hplaced : r.placed ≠ none → r'.placed ≠ none)
    (hlength : up.length ≤ 2) : Said k r' up := by
  cases h with
  | nothing => exact .nothing
  | identity => exact .identity
  | joined placed => exact .joined (hplaced placed)
  | reported => exact absurd hlength (by simp)

theorem HelperInv.takes (h : HelperInv k honest helper r up down) (hnext : down.next = some d)
    (htakes : Takes helper r d helper' r') : HelperInv k honest helper' r' up down.advance := by
  obtain ⟨hsound, hat, hsaid, hpeer⟩ := h
  rw [Channel.next] at hnext
  cases htakes with
  | identity =>
    obtain ⟨hread, hr⟩ := hat
    rw [hread] at hnext
    exact ⟨hsound, ⟨congrArg (· + 1) hread, hr⟩, hsaid, fun peer hp => Option.some.inj hp ▸ hnext⟩
  | offer =>
    obtain ⟨hread, rfl⟩ := hat
    rw [hread] at hnext
    refine ⟨sound_empty, ⟨congrArg (· + 1) hread, rfl, hnext⟩, fun hhonest => ?_, hpeer⟩
    obtain ⟨hsaid, hlength⟩ := hsaid hhonest
    exact ⟨hsaid.short (fun hplaced => absurd rfl hplaced) (by rw [hlength 1 rfl]; decide), hlength⟩
  | @volume peer deadline _ packet _ input hsent hinput =>
    obtain ⟨hread, fd, hr⟩ := hat
    rw [hread] at hnext
    exact ⟨hsound, ⟨congrArg (· + 1) hread, ⟨fd, hr⟩, packet, d, hnext, hsent, hinput⟩,
      hsaid, hpeer⟩
  | gate =>
    obtain ⟨hread, hr, hprepare⟩ := hat
    rw [hread] at hnext
    exact ⟨hsound, ⟨hr, hprepare, hnext⟩, hsaid, hpeer⟩

theorem HelperInv.own (h : HelperInv k honest helper r up down) (hown : Own k helper r helper' r') :
    HelperInv k honest helper' r' up down := by
  obtain ⟨hsound, hat, hsaid, hpeer⟩ := h
  cases hown with
  | opens => exact ⟨hsound, hat, hsaid, fun peer hp => by cases hp⟩
  | single => exact ⟨hsound, hat, hsaid, hpeer⟩
  | @places peer fd deadline _ hcgroup =>
    obtain ⟨hread, rfl, hsent⟩ := hat
    refine ⟨?_, ⟨hread, fd, rfl⟩, fun hhonest => ?_, hpeer⟩
    · refine ⟨fun fd' hfd => ?_, fun input hinput => ?_, hsound.gate, hsound.started,
        hsound.finished, hsound.cleanup⟩
      · cases hfd
        exact ⟨hcgroup, rfl, hsent⟩
      · cases hinput
    · obtain ⟨hsaid, hlength⟩ := hsaid hhonest
      exact ⟨hsaid.short (fun hplaced => absurd rfl hplaced)
        (by rw [hlength 1 rfl]; decide), hlength⟩
  | @inspects peer input deadline _ hpasses =>
    obtain ⟨hread, ⟨fd, rfl⟩, hpacket⟩ := hat
    refine ⟨?_, ⟨hread, fd, rfl⟩, fun hhonest => ?_, hpeer⟩
    · refine ⟨hsound.placed, fun input' hinput => ?_, fun fd' hfd => ?_, hsound.started,
        hsound.finished, hsound.cleanup⟩
      · cases hinput
        exact ⟨by simp, hpasses, hpacket⟩
      · cases hfd
    · obtain ⟨hsaid, hlength⟩ := hsaid hhonest
      exact ⟨hsaid.short id (by rw [hlength 2 rfl]), hlength⟩
  | prepares hpasses => exact ⟨hsound, ⟨hat.1, hat.2, hpasses⟩, hsaid, hpeer⟩
  | @admits peer fd input _ hsocket =>
    obtain ⟨⟨fd', rfl⟩, hprepare, hsent⟩ := hat
    refine ⟨?_, ⟨rfl, rfl, rfl⟩, fun hhonest => ?_, hpeer⟩
    · refine ⟨hsound.placed, hsound.volume, fun other hother => ?_,
        fun _ => by simp, fun _ => rfl, hsound.cleanup⟩
      cases hother
      exact ⟨hsocket, ⟨input, rfl, hprepare⟩, hsent⟩
    · obtain ⟨hsaid, hlength⟩ := hsaid hhonest
      exact ⟨hsaid.short id (by rw [hlength 2 rfl]), hlength⟩
  | finishes status =>
    obtain ⟨hstarted, hfinished, hcleanup⟩ := hat
    refine ⟨?_, ⟨rfl, hcleanup⟩, fun hhonest => ?_, hpeer⟩
    · exact ⟨hsound.placed, hsound.volume, hsound.gate, hsound.started, fun _ => hstarted,
        fun h => absurd hcleanup h⟩
    · obtain ⟨hsaid, hlength⟩ := hsaid hhonest
      exact ⟨hsaid.short id (by rw [hlength 2 rfl]), hlength⟩
  | cleans cleanup deadline =>
    obtain ⟨hfinished, hcleanup⟩ := hat
    refine ⟨?_, ⟨hfinished, rfl⟩, fun hhonest => ?_, hpeer⟩
    · exact ⟨hsound.placed, hsound.volume, hsound.gate, hsound.started, hsound.finished,
        fun _ => by simp [hfinished]⟩
    · obtain ⟨hsaid, hlength⟩ := hsaid hhonest
      exact ⟨hsaid.short id (by rw [hlength 2 rfl]), hlength⟩
  | waits deadline => exact ⟨hsound, hat, hsaid, hpeer⟩

end

/-! The supervisor's part. -/

namespace Supervisor

/-- Where it is, by what it has read. -/
def At (up : Channel D) : Supervisor D → Prop
  | .unpaired | .identifying _ | .awaitingPeer _ => up.read = 0
  | .paired peer | .offering peer _ _ | .awaitingJoined peer _ _ =>
    up.read = 1 ∧ up.sent[0]? = some (identityPacket peer)
  | .joined peer _ =>
    2 ≤ up.read ∧ up.sent[0]? = some (identityPacket peer) ∧ up.sent[1]? = some joinedPacket
  | .failed _ | .dropped => True

/-- Where it is, by how much it has said. -/
def Spoken (offered : Option D) (n : Nat) : Supervisor D → Prop
  | .unpaired | .identifying _ => n = 0
  | .awaitingPeer _ | .paired _ | .offering _ _ _ => n = 1
  | .awaitingJoined _ _ _ | .joined _ none | .joined _ (some (.certifying _ _)) => offered ≠ none
  | .joined _ (some (.sending packet d _)) => offered ≠ none ∧ packet.send = .ok d
  | .failed _ | .dropped => True

end Supervisor

/-- What it said. -/
inductive Spoke (k : Descriptors D) : List (Datagram D) → Option D → List (Packet D) → Prop
  | nothing : Spoke k [] none []
  | identity : Spoke k [identityPacket (k.self .supervisor)] none []
  | offered (fd : D) {delivered : List (Packet D)} {sent : List (Datagram D)}
      (each : List.Forall₂ (fun p d => p.send = .ok d) delivered sent) :
      Spoke k (identityPacket (k.self .supervisor) :: offerPacket fd :: sent) (some fd) delivered

/-- The supervisor is where the channels say. -/
structure SupervisorInv (k : Descriptors D) (honest : Prop) (supervisor : Supervisor D)
    (up : Channel D) (down : List (Datagram D)) (offered : Option D) (delivered : List (Packet D))
    (certified : List ExitStatus) : Prop where
  at' : supervisor.At up
  spoke : honest → Spoke k down offered delivered ∧ supervisor.Spoken offered down.length
  certified : ∀ expected ∈ certified, ∃ i status d, 2 ≤ i ∧ up.sent[i]? = some d ∧
    (Packet.cleaned status : Packet D).send = .ok d ∧ status.code = some expected.shellCode

/-- What it can say. -/
inductive SupervisorSays (k : Descriptors D) :
    Supervisor D → Option D → List (Packet D) → Datagram D → Supervisor D → Option D →
    List (Packet D) → Prop
  | identity {deadline : Nat} {offered : Option D} {delivered : List (Packet D)} :
      SupervisorSays k (.identifying deadline) offered delivered
        (identityPacket (k.self .supervisor)) (.awaitingPeer deadline)
        offered delivered
  | offer {peer fd : D} {deadline : Nat} {offered : Option D} {delivered : List (Packet D)} :
      SupervisorSays k (.offering peer fd deadline) offered delivered (offerPacket fd)
        (.awaitingJoined peer fd deadline) (some fd) delivered
  | packet {peer : D} {packet : Packet D} {d : Datagram D} {deadline : Nat} {offered : Option D}
      {delivered : List (Packet D)} :
      SupervisorSays k (.joined peer (some (.sending packet d deadline))) offered delivered d
        (.joined peer none) offered
        (delivered ++ [packet])

/-- What it can be told. -/
inductive SupervisorTakes : Supervisor D → List ExitStatus → Datagram D → Supervisor D →
    List ExitStatus → Prop
  | identity {deadline : Nat} {peer : D} {certified : List ExitStatus} :
      SupervisorTakes (.awaitingPeer deadline) certified (identityPacket peer)
        (.paired peer) certified
  | joined {peer fd : D} {deadline : Nat} {certified : List ExitStatus} :
      SupervisorTakes (.awaitingJoined peer fd deadline) certified joinedPacket
        (.joined peer none) certified
  | cleaned {peer : D} {expected status : ExitStatus} {deadline : Nat} {d : Datagram D}
      {certified : List ExitStatus} (sent : (Packet.cleaned status : Packet D).send = .ok d)
      (code : status.code = some expected.shellCode) :
      SupervisorTakes (.joined peer (some (.certifying expected deadline))) certified d
        (.joined peer none) (certified ++ [expected])

/-- What a round of the supervisor can do. -/
inductive SupervisorRound (k : Descriptors D) (s : State D) : State D → Prop
  | again : SupervisorRound k s s
  | fails {up : Channel D} {e : IoError} (read : up = s.up ∨ up = s.up.advance) :
      SupervisorRound k s (State.fails { s with up := up } e)
  | returns {up : Channel D} {peer : D} {call : Call D}
      (calling : s.supervisor = .joined peer (some call)) (read : up = s.up ∨ up = s.up.advance) :
      SupervisorRound k s { s with up := up, supervisor := .joined peer none }
  | tells {d : Datagram D} {supervisor : Supervisor D} {offered : Option D}
      {delivered : List (Packet D)} (opened : s.shut = false)
      (said : SupervisorSays k s.supervisor s.offered s.delivered d supervisor offered delivered) :
      SupervisorRound k s { s with
        down := s.down.put d, supervisor := supervisor, offered := offered, delivered := delivered }
  | takes {d : Datagram D} {supervisor : Supervisor D} {certified : List ExitStatus}
      (next : s.up.next = some d)
      (taken : SupervisorTakes s.supervisor s.certified d supervisor certified) :
      SupervisorRound k s { s with
        up := s.up.advance, supervisor := supervisor, certified := certified }

theorem supervisorRound_spec {c : Ciborium} {s s' : State D} {now : Nat} {poll : Poll}
    {answer : Except IoError Unit} (h : supervisorRound c k s now poll answer = some s') :
    SupervisorRound k s s' := by
  unfold supervisorRound at h
  split at h
  · rename_i deadline hcall
    obtain ⟨⟨down, round⟩, hround, rfl⟩ := Option.map_eq_some_iff.mp h
    obtain ⟨rfl, rfl⟩ | ⟨e, rfl, rfl⟩ | ⟨hopened, rfl, rfl⟩ := sending_cases hround
    · exact .again
    · exact .fails (.inl rfl)
    · exact .tells hopened (hcall ▸ .identity)
  · rename_i deadline hcall
    obtain ⟨⟨up, round⟩, hround, rfl⟩ := Option.map_eq_some_iff.mp h
    obtain ⟨rfl, rfl⟩ | ⟨e, hread, rfl⟩ | ⟨d, peer, hnext, hcheck, rfl, rfl⟩ :=
      receiving_cases hround checkIdentity_nil
    · exact .again
    · exact .fails hread
    · refine .takes hnext ?_
      rw [hcall, checkIdentity_eq_ok.mp hcheck]
      exact .identity
  · rename_i peer fd deadline hcall
    obtain ⟨⟨down, round⟩, hround, rfl⟩ := Option.map_eq_some_iff.mp h
    obtain ⟨rfl, rfl⟩ | ⟨e, rfl, rfl⟩ | ⟨hopened, rfl, rfl⟩ := sending_cases hround
    · exact .again
    · exact .fails (.inl rfl)
    · exact .tells hopened (hcall ▸ .offer)
  · rename_i peer fd deadline hcall
    obtain ⟨⟨up, round⟩, hround, rfl⟩ := Option.map_eq_some_iff.mp h
    obtain ⟨rfl, rfl⟩ | ⟨e, hread, rfl⟩ | ⟨d, u, hnext, hcheck, rfl, rfl⟩ :=
      receiving_cases hround expect_nil
    · exact .again
    · exact .fails hread
    · obtain ⟨p, hsend, hkind⟩ := expect_eq_ok hcheck
      refine .takes hnext ?_
      rw [hcall, asJoined_eq_some hsend hkind]
      exact .joined
  · rename_i peer packet d deadline hcall
    obtain ⟨⟨down, round⟩, hround, rfl⟩ := Option.map_eq_some_iff.mp h
    obtain ⟨rfl, rfl⟩ | ⟨e, rfl, rfl⟩ | ⟨hopened, rfl, rfl⟩ := sending_cases hround
    · exact .again
    · exact .returns hcall (.inl rfl)
    · exact .tells hopened (hcall ▸ .packet)
  · rename_i peer expected deadline hcall
    obtain ⟨⟨up, round⟩, hround, rfl⟩ := Option.map_eq_some_iff.mp h
    obtain ⟨rfl, rfl⟩ | ⟨e, hread, rfl⟩ | ⟨d, u, hnext, hcheck, rfl, rfl⟩ :=
      receiving_cases hround certify_nil
    · exact .again
    · exact .returns hcall hread
    · obtain ⟨status, hreceived, hcode⟩ := certify_eq_ok.mp hcheck
      exact .takes hnext (hcall ▸ .cleaned (Packet.send_receive hreceived) hcode)
  · cases h

section
variable {honest : Prop} {supervisor supervisor' : Supervisor D} {up : Channel D}
    {down : List (Datagram D)} {offered offered' : Option D}
    {delivered delivered' : List (Packet D)} {certified certified' : List ExitStatus}
    {d : Datagram D}

/-- More that is sent to the supervisor. -/
theorem SupervisorInv.put
    (h : SupervisorInv k honest supervisor up down offered delivered certified) (d : Datagram D) :
    SupervisorInv k honest supervisor (up.put d) down offered delivered certified := by
  refine ⟨?_, h.spoke, fun expected hexpected => ?_⟩
  · have hat := h.at'
    cases supervisor with
    | paired peer => exact ⟨hat.1, getElem?_put hat.2⟩
    | offering peer fd deadline => exact ⟨hat.1, getElem?_put hat.2⟩
    | awaitingJoined peer fd deadline => exact ⟨hat.1, getElem?_put hat.2⟩
    | joined peer call => exact ⟨hat.1, getElem?_put hat.2.1, getElem?_put hat.2.2⟩
    | _ => exact hat
  · obtain ⟨i, status, d', hi, hsent, hcleaned⟩ := h.certified expected hexpected
    exact ⟨i, status, d', hi, getElem?_put hsent, hcleaned⟩

/-- An endpoint that is gone. -/
theorem SupervisorInv.gone {up' : Channel D}
    (h : SupervisorInv k honest supervisor up down offered delivered certified)
    (hup : up'.sent = up.sent) (hgone : supervisor' = .dropped ∨ ∃ e, supervisor' = .failed e) :
    SupervisorInv k honest supervisor' up' down offered delivered certified := by
  refine ⟨?_, fun hhonest => ⟨(h.spoke hhonest).1, ?_⟩, ?_⟩
  · obtain rfl | ⟨e, rfl⟩ := hgone <;> trivial
  · obtain rfl | ⟨e, rfl⟩ := hgone <;> trivial
  · rw [hup]
    exact h.certified

/-- A joined endpoint between two calls. -/
theorem SupervisorInv.returns {up' : Channel D} {peer : D} {call : Call D}
    (h : SupervisorInv k honest (.joined peer (some call)) up down offered delivered certified)
    (hread : up' = up ∨ up' = up.advance) : SupervisorInv k honest
    (.joined peer none) up' down offered delivered certified := by
  have hoffered : honest → offered ≠ none := by
    intro hhonest
    have hspoken := (h.spoke hhonest).2
    cases call with
    | sending packet d deadline => exact hspoken.1
    | certifying expected deadline => exact hspoken
  obtain ⟨hlong, hzero, hone⟩ := h.at'
  obtain rfl | rfl := hread
  · exact ⟨⟨hlong, hzero, hone⟩, fun hhonest => ⟨(h.spoke hhonest).1, hoffered hhonest⟩,
      h.certified⟩
  · exact ⟨⟨Nat.le_succ_of_le hlong, hzero, hone⟩, fun hhonest =>
      ⟨(h.spoke hhonest).1, hoffered hhonest⟩, h.certified⟩

theorem SupervisorInv.told
    (h : SupervisorInv k honest supervisor up down offered delivered certified)
    (htold : SupervisorSays k supervisor offered delivered d supervisor' offered' delivered') :
    SupervisorInv k honest supervisor' up (down ++ [d]) offered' delivered' certified := by
  obtain ⟨hat, hspoke, hcertified⟩ := h
  cases htold with
  | identity =>
    refine ⟨hat, fun hhonest => ?_, hcertified⟩
    obtain ⟨hsaid, hlength⟩ := hspoke hhonest
    cases hsaid with
    | nothing => exact ⟨.identity, rfl⟩
    | identity => cases hlength
    | offered => cases hlength
  | offer =>
    refine ⟨hat, fun hhonest => ?_, hcertified⟩
    obtain ⟨hsaid, hlength⟩ := hspoke hhonest
    cases hsaid with
    | nothing => cases hlength
    | identity => exact ⟨.offered _ .nil, by simp [Supervisor.Spoken]⟩
    | offered => cases hlength
  | @packet peer packet _ deadline _ _ =>
    refine ⟨hat, fun hhonest => ?_, hcertified⟩
    obtain ⟨hsaid, hoffered, hsend⟩ := hspoke hhonest
    cases hsaid with
    | nothing => exact absurd rfl hoffered
    | identity => exact absurd rfl hoffered
    | offered fd each => exact ⟨.offered fd (List.rel_append each (.cons hsend .nil)), hoffered⟩

theorem SupervisorInv.takes
    (h : SupervisorInv k honest supervisor up down offered delivered certified)
    (hnext : up.next = some d)
    (htakes : SupervisorTakes supervisor certified d supervisor' certified') :
    SupervisorInv k honest supervisor' up.advance down offered delivered certified' := by
  obtain ⟨hat, hspoke, hcertified⟩ := h
  rw [Channel.next] at hnext
  cases htakes with
  | identity =>
    rw [show up.read = 0 from hat] at hnext
    exact ⟨⟨congrArg (· + 1) hat, hnext⟩, hspoke, hcertified⟩
  | joined =>
    obtain ⟨hread, hzero⟩ := hat
    rw [hread] at hnext
    exact ⟨⟨Nat.le_of_eq (congrArg (· + 1) hread).symm, hzero, hnext⟩, hspoke, hcertified⟩
  | cleaned hsent hcode =>
    obtain ⟨hlong, hzero, hone⟩ := hat
    refine ⟨⟨Nat.le_succ_of_le hlong, hzero, hone⟩, hspoke, fun expected hexpected => ?_⟩
    obtain hexpected | hexpected := List.mem_append.mp hexpected
    · exact hcertified expected hexpected
    · obtain rfl := List.mem_singleton.mp hexpected
      exact ⟨up.read, _, d, hlong, hnext, hsent, hcode⟩

end

/-! Interleavings. -/

/-- Only the ends of parties that are not relied on send datagrams of their own. -/
def Event.Allowed (rogue : Party → Prop) : Event D → Prop
  | .inject p _ => rogue p
  | _ => True

def SupervisorEnded (s : State D) : Prop :=
  (∃ e, s.supervisor = .failed e) ∨ s.supervisor = .dropped ∨ s.dead .supervisor = true

def HelperEnded (s : State D) : Prop :=
  (∃ result, s.helper = .exited result) ∨ s.dead .helper = true

structure Inv (k : Descriptors D) (rogue : Party → Prop) (s : State D) : Prop where
  helper : HelperInv k (¬ rogue .helper) s.helper s.record s.up.sent s.down
  supervisor : SupervisorInv k (¬ rogue .supervisor) s.supervisor s.up s.down.sent s.offered
    s.delivered s.certified
  shut : s.shut = true → SupervisorEnded s ∨ HelperEnded s
  outlived : ∀ status, s.helper = .exited (.ok status) → ¬ rogue .supervisor → SupervisorEnded s

section
variable {rogue : Party → Prop} {c : Ciborium} {s s' : State D}

theorem inv_start (deadline : Nat) : Inv k rogue (State.start deadline : State D) where
  helper := ⟨sound_empty, ⟨rfl, rfl⟩, fun _ => ⟨.nothing, fun n hn => Option.some.inj hn⟩,
    fun peer hp => by cases hp⟩
  supervisor := ⟨rfl, fun _ => ⟨.nothing, rfl⟩, fun expected h => absurd h List.not_mem_nil⟩
  shut h := by cases h
  outlived status h := by cases h

theorem supervisor_lives (halive : s.dead .supervisor = false)
    (hfailed : ∀ e, s.supervisor ≠ .failed e) (hdropped : s.supervisor ≠ .dropped) :
    ¬ SupervisorEnded s := by
  intro hended
  obtain ⟨e, he⟩ | he | he := hended
  · exact hfailed e he
  · exact hdropped he
  · rw [halive] at he
    cases he

theorem helper_lives (halive : s.dead .helper = false)
    (hexited : ∀ result, s.helper ≠ .exited result) : ¬ HelperEnded s := by
  intro hended
  obtain ⟨result, he⟩ | he := hended
  · exact hexited result he
  · rw [halive] at he
    cases he

/-- A step of the supervisor on its own. -/
theorem Inv.supervises (h : Inv k rogue s) {supervisor : Supervisor D} (hlive : ¬ SupervisorEnded s)
    (hat : supervisor.At s.up)
    (hspoken : ¬ rogue .supervisor → supervisor.Spoken s.offered s.down.sent.length) :
    Inv k rogue { s with supervisor := supervisor } where
  helper := h.helper
  supervisor := ⟨hat, fun hhonest => ⟨(h.supervisor.spoke hhonest).1, hspoken hhonest⟩,
    h.supervisor.certified⟩
  shut hshut := .inr ((h.shut hshut).resolve_left hlive)
  outlived status hstatus hhonest := absurd (h.outlived status hstatus hhonest) hlive

/-- A supervisor that ends. -/
theorem Inv.supervisor_ends (h : Inv k rogue s) {up : Channel D} {supervisor : Supervisor D}
    {shut : Bool} (hup : up.sent = s.up.sent)
    (hends : supervisor = .dropped ∨ ∃ e, supervisor = .failed e) :
    Inv k rogue { s with up := up, supervisor := supervisor, shut := shut } := by
  have hended : SupervisorEnded { s with up := up, supervisor := supervisor, shut := shut } :=
    hends.elim (fun h => .inr (.inl h)) fun h => .inl h
  refine ⟨?_, h.supervisor.gone hup hends, fun _ => .inl hended, fun _ _ _ => hended⟩
  show HelperInv k _ s.helper s.record up.sent s.down
  rw [hup]
  exact h.helper

theorem advance_sent {ch ch' : Channel D} (h : ch' = ch ∨ ch' = ch.advance) :
    ch'.sent = ch.sent := by
  obtain rfl | rfl := h <;> rfl

theorem Inv.supervisorRound (h : Inv k rogue s) (halive : s.dead .supervisor = false)
    (hround : SupervisorRound k s s') :
    Inv k rogue s' := by
  cases hround with
  | again => exact h
  | @fails up e hread => exact h.supervisor_ends (advance_sent hread) (.inr ⟨e, rfl⟩)
  | @returns up peer call hcalling hread =>
    have hlive : ¬ SupervisorEnded s :=
      supervisor_lives halive (fun e he => by rw [hcalling] at he; cases he)
        fun he => by rw [hcalling] at he; cases he
    have hinv := h.supervisor
    rw [hcalling] at hinv
    refine ⟨?_, hinv.returns hread, fun hshut => .inr ((h.shut hshut).resolve_left hlive),
      fun status hstatus hhonest => absurd (h.outlived status hstatus hhonest) hlive⟩
    show HelperInv k _ s.helper s.record up.sent s.down
    rw [advance_sent hread]
    exact h.helper
  | @tells d supervisor offered delivered hopened htold =>
    have hlive : ¬ SupervisorEnded s := by
      refine supervisor_lives halive (fun e he => ?_) fun he => ?_
      all_goals
        rw [he] at htold
        cases htold
    exact ⟨h.helper.put d, h.supervisor.told htold, fun hshut => .inr
      ((h.shut hshut).resolve_left hlive),
      fun status hstatus hhonest => absurd (h.outlived status hstatus hhonest) hlive⟩
  | @takes d supervisor certified hnext htakes =>
    have hlive : ¬ SupervisorEnded s := by
      refine supervisor_lives halive (fun e he => ?_) fun he => ?_
      all_goals
        rw [he] at htakes
        cases htakes
    exact ⟨h.helper, h.supervisor.takes hnext htakes, fun hshut => .inr
      ((h.shut hshut).resolve_left hlive),
      fun status hstatus hhonest => absurd (h.outlived status hstatus hhonest) hlive⟩

/-- A receiver that ends with an error. -/
theorem Inv.helper_ends (h : Inv k rogue s) {down : Channel D} (hdown : down.sent = s.down.sent)
    (text : Text) :
    Inv k rogue (State.exits { s with down := down } (.error text)) := by
  refine ⟨h.helper.exits hdown text, ?_, fun _ => .inr (.inl ⟨_, rfl⟩),
    fun status hstatus => by cases hstatus⟩
  show SupervisorInv k _ s.supervisor s.up down.sent s.offered s.delivered s.certified
  rw [hdown]
  exact h.supervisor

/-- A receiver that goes on. -/
theorem Inv.helper_goes (h : Inv k rogue s) {helper : Helper D} {r : Record D} {up down : Channel D}
    (hhelper : HelperInv k (¬ rogue .helper) helper r up.sent down)
    (hsupervisor : SupervisorInv k (¬ rogue .supervisor) s.supervisor up down.sent s.offered
      s.delivered s.certified)
    (hlive : ¬ HelperEnded s) (hgoes : ∀ status, helper ≠ .exited (.ok status)) :
    Inv k rogue { s with helper := helper, record := r, up := up, down := down } where
  helper := hhelper
  supervisor := hsupervisor
  shut hshut := .inl ((h.shut hshut).resolve_right hlive)
  outlived status hstatus := absurd hstatus (hgoes status)

theorem Inv.helperRound (h : Inv k rogue s) (halive : s.dead .helper = false)
    (hround : HelperRound k s s') : Inv k rogue s' := by
  cases hround with
  | again => exact h
  | gives text hread => exact h.helper_ends (advance_sent hread) text
  | @tells d helper hopened htold =>
    have hlive : ¬ HelperEnded s := by
      refine helper_lives halive fun result he => ?_
      rw [he] at htold
      cases htold
    refine h.helper_goes (h.helper.told htold) (h.supervisor.put d) hlive fun status heq => ?_
    generalize s.helper = before at htold
    cases htold with
    | identity => cases heq
    | joined => cases heq
    | report => split at heq <;> cases heq
  | @takes d helper r hnext htakes =>
    have hlive : ¬ HelperEnded s := by
      refine helper_lives halive fun result he => ?_
      rw [he] at htakes
      cases htakes
    refine h.helper_goes (h.helper.takes hnext htakes) h.supervisor hlive fun status heq => ?_
    generalize s.helper = before at htakes
    generalize s.record = r at htakes
    cases htakes <;> cases heq

theorem Inv.own (h : Inv k rogue s) (halive : s.dead .helper = false) {helper : Helper D}
    {r : Record D} (hown : Own k s.helper s.record helper r) :
    Inv k rogue { s with helper := helper, record := r } := by
  have hlive : ¬ HelperEnded s := by
    refine helper_lives halive fun result he => ?_
    rw [he] at hown
    cases hown
  refine h.helper_goes (h.helper.own hown) h.supervisor hlive fun status heq => ?_
  generalize s.helper = before at hown
  generalize s.record = r at hown
  cases hown <;> cases heq

/-- The party a receiver watches is the supervisor, where that is relied on. -/
theorem Inv.watched (h : Inv k rogue s) (hhonest : ¬ rogue .supervisor) {peer : D}
    (hpeer : s.helper.peer? = some peer) :
    peer = k.self .supervisor := by
  have hzero := h.helper.peer peer hpeer
  have hspoke := (h.supervisor.spoke hhonest).1
  generalize s.down.sent = l at hzero hspoke
  generalize s.offered = offered at hspoke
  generalize s.delivered = delivered at hspoke
  cases hspoke with
  | nothing => cases hzero
  | identity => exact (List.cons.inj (congrArg Datagram.descriptors (Option.some.inj hzero))).1.symm
  | offered => exact (List.cons.inj (congrArg Datagram.descriptors (Option.some.inj hzero))).1.symm

/-- A supervisor that is relied on sends no empty datagram. -/
theorem Spoke.bytes_ne_nil {l : List (Datagram D)} {offered : Option D}
    {delivered : List (Packet D)} (h : Spoke k l offered delivered) :
    ∀ d ∈ l, d.bytes ≠ [] := by
  cases h with
  | nothing => exact fun d hd => absurd hd List.not_mem_nil
  | identity =>
    intro d hd
    obtain rfl := List.mem_singleton.mp hd
    exact List.cons_ne_nil _ _
  | offered fd each =>
    intro d hd
    obtain rfl | hd := List.mem_cons.mp hd
    · exact List.cons_ne_nil _ _
    obtain rfl | hd := List.mem_cons.mp hd
    · exact List.cons_ne_nil _ _
    · obtain ⟨i, hi, rfl⟩ := List.mem_iff_getElem.mp hd
      exact send_ne_nil (List.Forall₂.get each (each.length_eq ▸ hi) hi)

theorem peerLost_true {ch : Channel D} {shut : Bool} {exit : Except IoError Bool}
    {recv : Option IoError} (h : peerLost ch shut exit recv = .ok true) :
    exit = .ok true ∨ (∃ d, ch.next = some d ∧ d.bytes = []) ∨ (ch.next = none ∧ shut = true) := by
  unfold peerLost at h
  split at h
  · cases h
  · exact .inl rfl
  · split at h
    · cases h
    · cases hnext : ch.next with
      | some d =>
        rw [hnext] at h
        dsimp only at h
        split at h
        · rename_i hnil
          exact .inr (.inl ⟨d, rfl, hnil⟩)
        · cases h
      | none =>
        rw [hnext] at h
        exact .inr (.inr ⟨rfl, Except.ok.inj h⟩)

/-- **A receiver that ends well** has outlived its supervisor. -/
theorem Inv.observe (h : Inv k rogue s) (halive : s.dead .helper = false) {now : Nat} {poll : Poll}
    {exit : Except IoError Bool} {recv : Option IoError}
    (hobserve : observe k s now poll exit recv = some s') : Inv k rogue s' := by
  obtain rfl | ⟨text, rfl⟩ | ⟨peer, status, deadline, hcall, rfl, hlost⟩ := observe_spec hobserve
  · exact h
  · exact h.helper_ends rfl text
  have hat := h.helper.at'
  rw [hcall] at hat
  refine ⟨⟨(h.helper.exits rfl []).sound, hat, ?_, fun peer hp => by cases hp⟩, h.supervisor,
    fun _ => .inr (.inl ⟨_, rfl⟩), fun _ _ hhonest => ?_⟩
  · exact fun hhonest => ⟨((h.helper.exits rfl []).said hhonest).1, fun n hn => by cases hn⟩
  · show SupervisorEnded s
    have hpeer := h.watched hhonest (by rw [hcall]; rfl)
    obtain hexit | ⟨d, hnext, hnil⟩ | ⟨-, hshut⟩ := peerLost_true hlost
    · rw [hasExited, hpeer, k.identifies] at hexit
      obtain ⟨other, -, hdead⟩ := except_map_eq_ok.mp hexit
      exact .inr (.inr hdead)
    · rw [Channel.next] at hnext
      exact absurd hnil ((h.supervisor.spoke hhonest).1.bytes_ne_nil d (List.mem_of_getElem? hnext))
    · exact (h.shut hshut).resolve_right (helper_lives halive fun result he => by rw [hcall] at he; cases he)

/-- **One step of either party.** -/
theorem step_inv {event : Event D} (hallowed : event.Allowed rogue) (h : Inv k rogue s)
    (hstep : step c k s event = some s') :
    Inv k rogue s' := by
  unfold step at hstep
  split at hstep
  · cases hstep
  rename_i halive
  rw [Bool.not_eq_true] at halive
  cases event with
  | exchange deadline =>
    simp only [act] at hstep
    split at hstep
    · rename_i hcall
      cases hstep
      have hinv := h.supervisor
      rw [hcall] at hinv
      exact h.supervises (supervisor_lives halive (by simp [hcall])
        (by simp [hcall])) hinv.at' fun hhonest => (hinv.spoke hhonest).2
    · cases hstep
  | join fd deadline =>
    simp only [act] at hstep
    split at hstep
    · rename_i peer fd hcall
      cases hstep
      have hinv := h.supervisor
      rw [hcall] at hinv
      exact h.supervises (supervisor_lives halive (by simp [hcall])
        (by simp [hcall])) hinv.at' fun hhonest => (hinv.spoke hhonest).2
    · rename_i e _
      cases hstep
      exact h.supervisor_ends rfl (.inr ⟨e, rfl⟩)
    · cases hstep
  | send packet deadline =>
    simp only [act] at hstep
    split at hstep
    · rename_i peer d hcall hsend
      split at hstep
      · cases hstep
        have hinv := h.supervisor
        rw [hcall] at hinv
        exact h.supervises (supervisor_lives halive (by simp [hcall]) (by simp [hcall])) hinv.at'
          fun hhonest => ⟨(hinv.spoke hhonest).2, hsend⟩
      · cases hstep
    · cases hstep
  | cleanup expected deadline =>
    simp only [act] at hstep
    split at hstep
    · rename_i peer hcall
      cases hstep
      have hinv := h.supervisor
      rw [hcall] at hinv
      exact h.supervises (supervisor_lives halive (by simp [hcall])
        (by simp [hcall])) hinv.at' fun hhonest => (hinv.spoke hhonest).2
    · cases hstep
  | supervisorRound now poll answer => exact h.supervisorRound halive (supervisorRound_spec hstep)
  | drop =>
    cases hstep
    exact h.supervisor_ends rfl (.inl rfl)
  | helperRound now poll answer => exact h.helperRound halive (helperRound_spec hstep)
  | proceed now fault status =>
    obtain ⟨text, rfl⟩ | ⟨helper, r, hown, rfl⟩ := proceed_spec hstep
    · exact h.helper_ends rfl text
    · exact h.own halive hown
  | observe now poll exit recv => exact h.observe halive hstep
  | die p closed =>
    cases hstep
    have hsupervisor : SupervisorEnded s → SupervisorEnded
        { s with dead := fun q => if q = p then true else s.dead q, shut := s.shut || closed } := by
      refine Or.imp_right (Or.imp_right fun hdead => ?_)
      show (if Party.supervisor = p then true else s.dead .supervisor) = true
      rw [hdead, ite_self]
    refine ⟨h.helper, h.supervisor, fun hshut => ?_, fun status hstatus hhonest => hsupervisor
      (h.outlived status hstatus hhonest)⟩
    cases p with
    | supervisor => exact .inl (.inr (.inr rfl))
    | helper => exact .inr (.inr rfl)
  | inject p d =>
    cases p with
    | supervisor =>
      simp only [act] at hstep
      split at hstep
      · cases hstep
      · cases hstep
        refine ⟨h.helper.put d, ⟨h.supervisor.at', fun hhonest => absurd hallowed hhonest,
          h.supervisor.certified⟩, h.shut, fun status hstatus hhonest => absurd hallowed hhonest⟩
    | helper =>
      simp only [act] at hstep
      split at hstep
      · cases hstep
      · cases hstep
        exact ⟨⟨h.helper.sound, h.helper.at', fun hhonest => absurd hallowed hhonest,
          h.helper.peer⟩, h.supervisor.put d, h.shut, h.outlived⟩

/-- **Every state of every interleaving.** -/
theorem run_inv {events : List (Event D)} (hallowed : ∀ event ∈ events, event.Allowed rogue)
    (h : Inv k rogue s) (hrun : run c k s events = some s') : Inv k rogue s' := by
  induction events generalizing s with
  | nil =>
    cases hrun
    exact h
  | cons event rest ih =>
    obtain ⟨mid, hstep, hrest⟩ := Option.bind_eq_some_iff.mp hrun
    exact ih (fun e he => hallowed e (List.mem_cons_of_mem _ he))
      (step_inv (hallowed event List.mem_cons_self) h hstep) hrest

end

end

end Conglobate.Process.Supervision
