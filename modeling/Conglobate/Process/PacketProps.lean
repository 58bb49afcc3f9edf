import Conglobate.Process.Packet

/- Supervision packets round trip (`packet_round_trip`).

   A packet is told by its opcode and how many descriptors come with it, and its
   length by its opcode: what is received is what would be sent again, so nothing is
   accepted that is not the datagram of the packet it is taken for. -/
namespace Conglobate.Process

variable {D : Type}

/-! Statuses. -/

/-- The wait statuses of a process that ended: by an exit code, or by a signal, with or
    without a core dump. -/
def Terminal (status : ExitStatus) : Prop :=
  (∃ code, code < 256 ∧ status.raw = BitVec.ofNat 32 (256 * code)) ∨
  ∃ signal, 1 ≤ signal ∧ signal ≤ 64 ∧
    (status.raw = BitVec.ofNat 32 signal ∨ status.raw = BitVec.ofNat 32 (128 + signal))

/-- The second byte of a number. -/
theorem and_byte (n : Nat) : n &&& 65280 = 256 * (n / 256 % 256) := by
  rw [show 65280 = 2 ^ 8 * (2 ^ 8 - 1) from rfl, show 256 = 2 ^ 8 from rfl]
  apply Nat.eq_of_testBit_eq
  intro i
  rw [Nat.testBit_and, Nat.testBit_two_pow_mul, Nat.testBit_two_pow_mul,
    Nat.testBit_two_pow_sub_one, Nat.testBit_mod_two_pow,
    Nat.testBit_div_two_pow]
  by_cases hi : 8 ≤ i
  · simp [hi, Bool.and_comm]
  · simp [hi]

theorem and_not_eq_zero {w : Nat} {x m : BitVec w} : x &&& ~~~m = 0 ↔ x &&& m = x := by
  constructor
  · intro h
    apply BitVec.eq_of_getLsbD_eq
    intro i hi
    have hbit := congrArg (fun y => y.getLsbD i) h
    simp [hi] at hbit
    simp [hi]
    exact hbit
  · intro h
    rw [← h]
    apply BitVec.eq_of_getLsbD_eq
    intro i hi
    simp [hi]

/-- No bits outside of the second byte: an exit code. -/
theorem exited_iff {raw : BitVec 32} : raw &&& ~~~0xff00#32 = 0 ↔ ∃ code, code < 256 ∧
    raw = BitVec.ofNat 32 (256 * code) := by
  have hmask : raw &&& 0xff00#32 = raw ↔ raw.toNat = 256 * (raw.toNat / 256 % 256) := by
    rw [← BitVec.toNat_inj, BitVec.toNat_and, ← and_byte]
    exact eq_comm
  rw [and_not_eq_zero, hmask]
  constructor
  · intro h
    refine ⟨raw.toNat / 256 % 256, Nat.mod_lt _ (by decide), ?_⟩
    rw [← h, BitVec.ofNat_toNat, BitVec.setWidth_eq]
  · rintro ⟨code, hcode, rfl⟩
    rw [BitVec.toNat_ofNat]
    omega

/-- No bits outside of the first byte, and a possible signal in it. -/
theorem signaled_iff {raw : BitVec 32} :
    (0 < raw.toInt ∧ raw &&& ~~~0xff#32 = 0 ∧ 1 ≤ (raw &&& 0x7f#32).toInt ∧
      (raw &&& 0x7f#32).toInt ≤ 64) ↔
      ∃ signal, 1 ≤ signal ∧ signal ≤ 64 ∧ (raw = BitVec.ofNat 32 signal ∨
        raw = BitVec.ofNat 32 (128 + signal)) := by
  have hlow : (raw &&& 0x7f#32).toNat = raw.toNat % 128 := by
    rw [BitVec.toNat_and]
    exact Nat.and_two_pow_sub_one_eq_mod raw.toNat 7
  have hbyte : raw &&& 0xff#32 = raw ↔ raw.toNat < 256 := by
    rw [← BitVec.toNat_inj, BitVec.toNat_and, show raw.toNat &&&
      (0xff#32).toNat = raw.toNat % 256 from
      Nat.and_two_pow_sub_one_eq_mod raw.toNat 8]
    omega
  have hint : (raw &&& 0x7f#32).toInt = (raw.toNat % 128 : Nat) := by
    rw [BitVec.toInt_eq_toNat_cond, hlow, if_pos (by omega)]
  rw [and_not_eq_zero, hbyte, hint]
  constructor
  · rintro ⟨hpos, hlt, hone, hmax⟩
    refine ⟨raw.toNat % 128, by omega, by omega, ?_⟩
    by_cases hcore : raw.toNat < 128
    · refine .inl (BitVec.eq_of_toNat_eq ?_)
      rw [BitVec.toNat_ofNat]
      omega
    · refine .inr (BitVec.eq_of_toNat_eq ?_)
      rw [BitVec.toNat_ofNat]
      omega
  · rintro ⟨signal, hone, hmax, rfl | rfl⟩
    all_goals
      rw [BitVec.toInt_eq_toNat_cond, BitVec.toNat_ofNat]
      refine ⟨?_, by omega, by omega, by omega⟩
      split
      all_goals omega

/-- **The statuses accepted are the terminal ones.** -/
theorem validStatus_iff {status : ExitStatus} :
    Packet.validStatus status.raw = true ↔ Terminal status := by
  rw [Packet.validStatus, Terminal, ← exited_iff, ← signaled_iff]
  simp only [Bool.or_eq_true, Bool.and_eq_true, beq_iff_eq, decide_eq_true_iff, and_assoc]

/-! Framing. -/

namespace Packet

/-- **What is framed**: an opcode, a status of four bytes, or a diagnostic. -/
theorem framed_iff {bytes : Bytes} : framed bytes = true ↔ (∃ b, b ≠ 11 ∧ bytes = [0x82, 1, b]) ∨
    (∃ rest, rest.length = 4 ∧ bytes = [0x83, 1, 11, 0x44] ++ rest) ∨
    ∃ rest, 2 ≤ rest.length ∧ bytes = [0x83, 1, 12] ++ rest := by
  rw [framed, Bool.or_eq_true, Bool.or_eq_true, or_assoc]
  refine or_congr ?_ (or_congr ?_ ?_)
  · simp only [Bool.and_eq_true, beq_iff_eq, bne_iff_ne]
    constructor
    · rintro ⟨⟨hlength, hfront⟩, hop⟩
      obtain ⟨a, b, c, rfl⟩ := List.length_eq_three.mp hlength
      cases hfront
      exact ⟨c, hop, rfl⟩
    · rintro ⟨b, hop, rfl⟩
      exact ⟨⟨rfl, rfl⟩, hop⟩
  · simp only [Bool.and_eq_true, beq_iff_eq]
    constructor
    · rintro ⟨hlength, hfront⟩
      refine ⟨bytes.drop 4, by rw [List.length_drop, hlength], ?_⟩
      rw [← hfront, List.take_append_drop]
    · rintro ⟨rest, hlength, rfl⟩
      exact ⟨by rw [List.length_append, hlength]; rfl, rfl⟩
  · simp only [Bool.and_eq_true, beq_iff_eq, decide_eq_true_iff]
    constructor
    · rintro ⟨hlength, hfront⟩
      refine ⟨bytes.drop 3, by rw [List.length_drop]; omega, ?_⟩
      rw [← hfront, List.take_append_drop]
    · rintro ⟨rest, hlength, rfl⟩
      refine ⟨?_, rfl⟩
      rw [List.length_append]
      show 5 ≤ 3 + rest.length
      omega

theorem header_length (p : Packet D) : p.header.2.length ≤ 5 := by
  cases p
  all_goals simp [header]

/-- **What is sent**: the payload, with the descriptors of the header. -/
theorem send_eq_ok {p : Packet D} {d : Datagram D} :
    p.send = .ok d ↔ p.payload = .ok d.bytes ∧ d.descriptors = p.header.2 := by
  have hfew : ¬ maxDescriptors < p.header.2.length :=
    Nat.not_lt.mpr (Nat.le_trans (header_length p) (by decide))
  rw [send, except_bind_eq_ok]
  constructor
  · rintro ⟨bytes, hbytes, h⟩
    rw [sendNow, if_neg hfew] at h
    cases h
    exact ⟨hbytes, rfl⟩
  · rintro ⟨hbytes, hdescriptors⟩
    refine ⟨d.bytes, hbytes, ?_⟩
    rw [sendNow, if_neg hfew, ← hdescriptors]

/-- A diagnostic's bytes: the opcode, and the text. -/
theorem message_bytes (message : Text) :
    (Cbor.array [.unsigned 1, .unsigned 12, .text message]).encode = [0x83, 1, 12] ++
      (Cbor.text message).encode := by
  show [0x83] ++ ([1] ++ ([12] ++ ((Cbor.text message).encode ++ []))) = _
  rw [List.append_nil]
  rfl

theorem message_length {message : Text} (hne : message ≠ [])
    (hmax : message.utf8.length ≤ maxMessage) :
    2 ≤ (Cbor.text message).encode.length ∧ (Cbor.text message).encode.length ≤ 1027 := by
  have hpos : 1 ≤ message.utf8.length := by
    cases message with
    | nil => exact absurd rfl hne
    | cons c message =>
      have hc := (Utf8.encoding_length c).1
      show 1 ≤ (String.utf8EncodeChar c ++ Text.utf8 message).length
      rw [List.length_append]
      omega
  have hmax' : message.utf8.length ≤ 1024 := hmax
  rw [Cbor.encode, List.length_append, Cbor.head]
  split
  · rw [List.length_singleton]
    omega
  · split
    · rw [List.length_cons, Bytes.be_length]
      omega
    · rw [if_pos (by omega), List.length_cons, Bytes.be_length]
      omega

/-- Four bytes hold a status. -/
theorem status_bytes (status : ExitStatus) : BitVec.ofNat 32
    (Bytes.ofBe (Bytes.be 4 status.raw.toNat)) = status.raw := by
  rw [Bytes.ofBe_be status.raw.isLt, BitVec.ofNat_toNat, BitVec.setWidth_eq]

/-- Four bytes are the status they are read as. -/
theorem bytes_status {bytes : Bytes} (h : bytes.length = 4) :
    Bytes.be 4 (BitVec.ofNat 32 (Bytes.ofBe bytes)).toNat = bytes := by
  have hlt : Bytes.ofBe bytes < 2 ^ 32 := by
    have hle := Bytes.ofLe_lt bytes.reverse
    rw [List.length_reverse, h] at hle
    exact hle
  rw [BitVec.toNat_ofNat, Nat.mod_eq_of_lt hlt, ← h, Bytes.be_ofBe]

/-- Every datagram sent fits the buffer. -/
theorem send_fits {p : Packet D} {d : Datagram D} (h : p.send = .ok d) :
    d.bytes.length ≤ bufferSize := by
  have hpayload := (send_eq_ok.mp h).1
  cases p with
  | cleanupFailed message =>
    rw [payload] at hpayload
    split at hpayload
    · cases hpayload
    · rename_i hsize
      rw [not_or] at hsize
      have hlength := (message_length hsize.1 (Nat.le_of_not_lt hsize.2)).2
      rw [message_bytes, Except.ok.injEq] at hpayload
      rw [← hpayload, List.length_append]
      show 3 + (Cbor.text message).encode.length ≤ 1030
      omega
  | cleaned status =>
    rw [← Except.ok.inj hpayload, List.length_append, Bytes.be_length]
    show 4 + 4 ≤ 1030
    decide
  | _ =>
    rw [← Except.ok.inj hpayload]
    show 3 ≤ 1030
    decide

/-- What a framed datagram that fits is taken for. -/
theorem receive_eq {c : Ciborium} {d : Datagram D} (hfits : d.bytes.length ≤ bufferSize)
    (hfew : d.descriptors.length ≤ maxDescriptors) (hframed : framed d.bytes = true) :
    receive c d = dispatch c d := by
  have hne : d.bytes.length ≠ 0 := by
    intro hzero
    rw [List.length_eq_zero_iff.mp hzero] at hframed
    cases hframed
  rw [receive, receiveNow, if_neg (not_or.mpr ⟨Nat.not_lt.mpr hfits, Nat.not_lt.mpr hfew⟩),
    except_ok_bind, if_neg hne, hframed]
  rfl

/-- A status sent is received if it is a terminal one. -/
theorem receive_status {c : Ciborium} {status : ExitStatus} {d : Datagram D}
    (h : (Packet.cleaned status).send = .ok d) :
    receive c d = if validStatus status.raw then .ok (.cleaned status)
      else .error (.invalidData "nonterminal or invalid command status") := by
  have hfits := send_fits h
  obtain ⟨hpayload, hdescriptors⟩ := send_eq_ok.mp h
  obtain ⟨bytes, descriptors⟩ := d
  dsimp only at hpayload hdescriptors hfits
  subst hdescriptors
  have hbytes := Except.ok.inj hpayload
  subst hbytes
  have hlength : (Bytes.be 4 status.raw.toNat).length = 4 := Bytes.be_length 4 _
  rw [receive_eq hfits (Nat.zero_le _) (framed_iff.mpr (.inr (.inl ⟨_, hlength, rfl⟩)))]
  show receiveStatus ((Bytes.be 4 status.raw.toNat).take 4) = _
  rw [List.take_of_length_le (Nat.le_of_eq hlength), receiveStatus, status_bytes]

/-- **What is sent is received**, in the same roles. -/
theorem receive_send {c : Ciborium} (hc : c.Faithful) {p : Packet D} {d : Datagram D}
    (hterminal : ∀ status, p = .cleaned status → Terminal status) (h : p.send = .ok d) :
    receive c d = .ok p := by
  have hsent := h
  have hfits := send_fits h
  obtain ⟨hpayload, hdescriptors⟩ := send_eq_ok.mp h
  have hfew : d.descriptors.length ≤ maxDescriptors := by
    rw [hdescriptors]
    exact Nat.le_trans (header_length p) (by decide)
  obtain ⟨bytes, descriptors⟩ := d
  dsimp only at hpayload hdescriptors hfits hfew
  subst hdescriptors
  cases p with
  | cleanupFailed message =>
    rw [payload] at hpayload
    split at hpayload
    · cases hpayload
    · rename_i hsize
      rw [not_or] at hsize
      have hmax : message.utf8.length ≤ 1024 := Nat.le_of_not_lt hsize.2
      have hlength := (message_length hsize.1 hmax).1
      rw [message_bytes, Except.ok.injEq] at hpayload
      subst hpayload
      rw [receive_eq hfits hfew (framed_iff.mpr (.inr (.inr ⟨_, hlength, rfl⟩)))]
      show receiveMessage c (Cbor.text message).encode = _
      rw [receiveMessage, hc.text message (show message.utf8.length < 2 ^ 64 by omega)]
      exact if_neg (by simp [hsize.1, hsize.2])
  | cleaned status => rw [receive_status hsent, if_pos (validStatus_iff.mpr (hterminal status rfl))]
  | _ =>
    have hbytes := Except.ok.inj hpayload
    subst hbytes
    rfl

/-- No text is written as nothing. -/
theorem receiveMessage_nil {c : Ciborium} {p : Packet D} : receiveMessage c [] ≠ .ok p := by
  intro h
  rw [receiveMessage] at h
  split at h
  · cases h
  · rename_i message _
    have hencoded : (Cbor.text message).encode ≠ [] := by
      intro hnil
      rw [Cbor.encode] at hnil
      have hpos := Cbor.head_length 3 message.utf8.length
      rw [(List.append_eq_nil_iff.mp hnil).1] at hpos
      exact absurd hpos (by decide)
    rw [if_pos (.inr (.inr hencoded))] at h
    cases h

/-- **What is received is what would be sent.** -/
theorem send_receive {c : Ciborium} {p : Packet D} {d : Datagram D} (h : receive c d = .ok p) :
    p.send = .ok d := by
  obtain ⟨result, hresult, h⟩ := except_bind_eq_ok.mp h
  rw [receiveNow] at hresult
  split at hresult
  · cases hresult
  · cases hresult
    split at h
    · cases h
    · split at h
      · cases h
      · rename_i hframed
        rw [Bool.not_eq_true, Bool.not_eq_false'] at hframed
        obtain ⟨bytes, descriptors⟩ := d
        dsimp only at hframed h
        rw [send_eq_ok]
        dsimp only
        obtain ⟨b, hb, rfl⟩ | ⟨rest, hlength, rfl⟩ | ⟨rest, hlength, rfl⟩ := framed_iff.mp hframed
        · -- an opcode alone
          have hopcode : ∀ k, b.toNat = k → b = UInt8.ofNat k :=
            fun k hk => by rw [← hk, UInt8.ofNat_toNat]
          unfold dispatch at h
          split at h
          case h_4 =>
            exact absurd h receiveMessage_nil
          case h_5 hop _ => exact absurd (hopcode 11 hop) hb
          case h_10 => cases h
          all_goals
            rename_i hop hdescriptors
            cases h
            refine ⟨?_, hdescriptors⟩
            rw [hopcode _ hop]
            rfl
        · -- a status
          have hop : ∀ k, (([0x83, 1, 11, 0x44] ++ rest : Bytes).getD 2 0).toNat = k → k = 11 :=
            fun k hk => hk.symm
          unfold dispatch at h
          split at h
          case h_5 hdescriptors =>
            have hrest : ((([0x83, 1, 11, 0x44] ++ rest : Bytes).drop 4).take 4) = rest :=
              List.take_of_length_le (Nat.le_of_eq hlength)
            dsimp only at h
            rw [hrest, receiveStatus] at h
            split at h
            · cases h
              refine ⟨?_, hdescriptors⟩
              show Except.ok ([0x83, 1, 11, 0x44] ++ Bytes.be 4 _) = _
              rw [bytes_status hlength]
            · cases h
          case h_10 => cases h
          all_goals
            rename_i hother _
            exact absurd (hop _ hother) (by decide)
        · -- a diagnostic
          have hop : ∀ k, (([0x83, 1, 12] ++ rest : Bytes).getD 2 0).toNat = k → k = 12 :=
            fun k hk => hk.symm
          unfold dispatch at h
          split at h
          case h_4 hdescriptors =>
            rw [show (([0x83, 1, 12] ++ rest : Bytes).drop 3) = rest from rfl, receiveMessage] at h
            split at h
            · cases h
            · rename_i message _
              split at h
              · cases h
              · rename_i hsize
                simp only [not_or, Decidable.not_not] at hsize
                cases h
                refine ⟨?_, hdescriptors⟩
                rw [payload, if_neg (not_or.mpr ⟨hsize.1, hsize.2.1⟩), message_bytes, hsize.2.2]
          case h_10 => cases h
          all_goals
            rename_i hother _
            exact absurd (hop _ hother) (by decide)

/-- What is accepted for sending: every packet but a diagnostic that is empty or too long. -/
theorem send_accepts (p : Packet D) :
    (∃ d, p.send = .ok d) ↔ ∀ message, p = .cleanupFailed message → message ≠ [] ∧
      message.utf8.length ≤ maxMessage := by
  constructor
  · rintro ⟨d, h⟩ message rfl
    have hpayload := (send_eq_ok.mp h).1
    rw [payload] at hpayload
    split at hpayload
    · cases hpayload
    · rename_i hsize
      rw [not_or] at hsize
      exact ⟨hsize.1, Nat.le_of_not_lt hsize.2⟩
  · intro h
    have hpayload : ∃ bytes, p.payload = .ok bytes := by
      cases p with
      | cleanupFailed message =>
        obtain ⟨hne, hmax⟩ := h message rfl
        exact ⟨_, if_neg (not_or.mpr ⟨hne, Nat.not_lt.mpr hmax⟩)⟩
      | _ => exact ⟨_, rfl⟩
    obtain ⟨bytes, hbytes⟩ := hpayload
    exact ⟨⟨bytes, p.header.2⟩, send_eq_ok.mpr ⟨hbytes, rfl⟩⟩

end Packet

/-! Diagnostics. -/

theorem utf8_cons_length (c : Char) (t : Text) :
    (Text.utf8 (c :: t)).length = c.utf8Size + t.utf8.length := by
  show (String.utf8EncodeChar c ++ Text.utf8 t).length = _
  rw [List.length_append, String.length_utf8EncodeChar]

/-- **A truncated text** is its longest part within the limit that ends with a character. -/
theorem truncate_floor (t : Text) (limit : Nat) :
    truncate t (floorCharBoundary t limit) <+: t ∧
      (Text.utf8 (truncate t (floorCharBoundary t limit))).length ≤ limit ∧
      ∀ longer : Text, longer <+: t → longer.utf8.length ≤ limit →
        longer <+: truncate t (floorCharBoundary t limit) := by
  induction t generalizing limit with
  | nil => exact ⟨List.nil_prefix, Nat.zero_le _, fun longer h _ => h⟩
  | cons c t ih =>
    by_cases hfits : c.utf8Size ≤ limit
    · have hpos := c.utf8Size_pos
      have htruncate : truncate (c :: t) (floorCharBoundary (c :: t) limit) =
          c :: truncate t (floorCharBoundary t (limit - c.utf8Size)) := by
        rw [floorCharBoundary, if_pos hfits, truncate, if_neg (by omega), Nat.add_sub_cancel_left]
      obtain ⟨hpart, hsize, hlongest⟩ := ih (limit - c.utf8Size)
      rw [htruncate]
      refine ⟨List.cons_prefix_cons.mpr ⟨rfl, hpart⟩, ?_, fun longer hlonger hlimit => ?_⟩
      · rw [utf8_cons_length]
        omega
      · cases longer with
        | nil => exact List.nil_prefix
        | cons d longer =>
          obtain ⟨rfl, hrest⟩ := List.cons_prefix_cons.mp hlonger
          rw [utf8_cons_length] at hlimit
          exact List.cons_prefix_cons.mpr ⟨rfl, hlongest longer hrest (by omega)⟩
    · have htruncate : truncate (c :: t) (floorCharBoundary (c :: t) limit) = [] := by
        rw [floorCharBoundary, if_neg hfits, truncate, if_pos rfl]
      rw [htruncate]
      refine ⟨List.nil_prefix, Nat.zero_le _, fun longer hlonger hlimit => ?_⟩
      cases longer with
      | nil => exact List.nil_prefix
      | cons d longer =>
        obtain ⟨rfl, _⟩ := List.cons_prefix_cons.mp hlonger
        rw [utf8_cons_length] at hlimit
        omega

/-- **Supervision packets round trip** and are unambiguous: every packet sent is received as
    it was, in the receive buffer, if a status it carries is terminal; and whatever is
    received is the very datagram of the packet it is taken for. A failed cleanup is always
    reported, by the longest part of its diagnostic that ends with a character within the
    limit. -/
theorem packet_round_trip {c : Ciborium} (hc : c.Faithful) :
    (∀ p : Packet D, (∃ d, p.send = .ok d) ↔
      ∀ message, p = .cleanupFailed message → message ≠ [] ∧ message.utf8.length ≤ 1024) ∧
    (∀ (p : Packet D) d, p.send = .ok d → d.bytes.length ≤ Packet.bufferSize) ∧
    (∀ (p : Packet D) d, (∀ status, p = .cleaned status → Terminal status) → p.send = .ok d →
      Packet.receive c d = .ok p) ∧
    (∀ (p : Packet D) d, Packet.receive c d = .ok p → p.send = .ok d) ∧
    (∀ status, (∃ d : Datagram D, Packet.receive c d = .ok (.cleaned status)) ↔ Terminal status) ∧
    ∀ error : Text, ∃ message, ∃ d, (cleanupFailure error : Packet D) = .cleanupFailed message ∧
      (cleanupFailure error : Packet D).send = .ok d ∧ message <+: diagnosticPrefix ++ error ∧
    message.utf8.length ≤ 1024 ∧
      ∀ longer : Text, longer <+: diagnosticPrefix ++ error → longer.utf8.length ≤ 1024 →
        longer <+: message := by
  refine ⟨Packet.send_accepts, fun p d => Packet.send_fits, fun p d => Packet.receive_send hc,
    fun p d => Packet.send_receive, ?_, ?_⟩
  · intro status
    constructor
    · rintro ⟨d, h⟩
      have hagain := Packet.receive_status (c := c) (Packet.send_receive h)
      rw [h] at hagain
      split at hagain
      · rename_i hvalid
        exact validStatus_iff.mp hvalid
      · cases hagain
    · intro hterminal
      obtain ⟨d, hd⟩ := (Packet.send_accepts (D := D) (.cleaned status)).mpr
        (fun message h => by cases h)
      exact ⟨d, Packet.receive_send hc (fun other h => by cases h; exact hterminal) hd⟩
  · intro error
    generalize hfull : diagnosticPrefix ++ error = full
    obtain ⟨hpart, hsize, hlongest⟩ := truncate_floor full Packet.maxMessage
    have hmessage : cleanupFailure (D := D) error =
        .cleanupFailed (truncate full (floorCharBoundary full Packet.maxMessage)) := by
      rw [cleanupFailure, hfull]
    have hshort : (Text.utf8 diagnosticPrefix).length ≤ Packet.maxMessage := by decide
    have hprefix := hlongest diagnosticPrefix (hfull ▸ List.prefix_append _ _) hshort
    have hne : truncate full (floorCharBoundary full Packet.maxMessage) ≠ [] := by
      intro hnil
      rw [hnil, List.prefix_nil] at hprefix
      cases hprefix
    have haccepted : ∃ d, (cleanupFailure (D := D) error).send = .ok d := by
      rw [hmessage, Packet.send_accepts]
      intro message h
      rw [← Packet.cleanupFailed.inj h]
      exact ⟨hne, hsize⟩
    obtain ⟨d, hd⟩ := haccepted
    exact ⟨_, d, hmessage, hd, hpart, hsize, hlongest⟩

/-- Packets of numbered descriptors. -/
theorem packet_round_trip_sample :
    (∀ p : Packet Nat, (∃ d, p.send = .ok d) ↔
      ∀ message, p = .cleanupFailed message → message ≠ [] ∧ message.utf8.length ≤ 1024) ∧
    (∀ (p : Packet Nat) d, p.send = .ok d → d.bytes.length ≤ Packet.bufferSize) ∧
    (∀ (p : Packet Nat) d, (∀ status, p = .cleaned status → Terminal status) → p.send = .ok d →
      Packet.receive Ciborium.reader d = .ok p) ∧
    (∀ (p : Packet Nat) d, Packet.receive Ciborium.reader d = .ok p → p.send = .ok d) ∧
    (∀ status, (∃ d : Datagram Nat, Packet.receive Ciborium.reader d = .ok (.cleaned status)) ↔
      Terminal status) ∧
    ∀ error : Text, ∃ message, ∃ d, (cleanupFailure error : Packet Nat) = .cleanupFailed message ∧
      (cleanupFailure error : Packet Nat).send = .ok d ∧ message <+: diagnosticPrefix ++ error ∧
    message.utf8.length ≤ 1024 ∧
      ∀ longer : Text, longer <+: diagnosticPrefix ++ error → longer.utf8.length ≤ 1024 →
        longer <+: message :=
  packet_round_trip Ciborium.reader_faithful

end Conglobate.Process
