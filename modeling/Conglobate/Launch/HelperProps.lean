import Conglobate.Launch.Helper
import Conglobate.Lib.Flow

/- Helper launches round trip (`launch_round_trip`).

   What is decoded is what would be encoded again, and what is encoded decodes
   wherever it fits in an argument and the role keeps its rules (`decode_iff`).
   A launch made from a decoded one leaves out fields, so it fits where that did. -/
namespace Conglobate.Launch

/-- Hexadecimal is ASCII. -/
theorem hex_utf8_length (bytes : Bytes) : (Text.utf8 (Hex.encode bytes)).length =
    2 * bytes.length := by
  rw [Text.utf8_length_ascii, Hex.encode_length]
  intro ch hch
  obtain ⟨n, hn, rfl⟩ := Hex.mem_encode hch
  exact Hex.value_ascii (Hex.value_digit hn)

/-! The cutoff. -/

namespace SetupCutoff

theorem toArgument_length (s : SetupCutoff) : s.toArgument.utf8.length ≤ 24 := by
  have hhead := Cbor.head_length_le 0 s.nanos.toNat
  have hbytes : (Cbor.array [.unsigned 1, .unsigned s.nanos.toNat]).encode = [0x82, 1] ++
    (Cbor.head 0 s.nanos.toNat ++ []) := rfl
  rw [toArgument, hex_utf8_length, hbytes, List.append_nil, List.length_append]
  show 2 * (2 + (Cbor.head 0 s.nanos.toNat).length) ≤ 24
  omega

/-- **A cutoff is read back**, and nothing else is read as it. -/
theorem fromArgument_iff {c : Ciborium} (hc : c.Faithful) {text : Text} {s : SetupCutoff} :
    fromArgument c text = .ok s ↔ text = s.toArgument := by
  constructor
  · intro h
    rw [fromArgument] at h
    split at h
    · cases h
    · split at h
      · cases h
      · split at h
        · cases h
        · split at h
          · cases h
          · split at h
            · cases h
            · rename_i hcanonical
              cases h
              exact (Decidable.not_not.mp hcanonical).symm
  · rintro rfl
    have hone : (1 : UInt8).toNat = 1 := rfl
    have hread := hc.cutoff 1 s.nanos
    rw [hone] at hread
    rw [fromArgument, if_neg (Nat.not_lt.mpr s.toArgument_length), toArgument, Hex.decode_encode]
    dsimp only
    rw [hread]
    dsimp only
    rw [if_neg (not_not.mpr rfl)]
    exact if_neg (not_not.mpr rfl)

end SetupCutoff

/-! Roles. -/

/-- The rules of a role. -/
def Role.Valid : Role → Prop
  | .receiver _ uid gid parent => uid ≠ 0 ∧ gid ≠ 0 ∧ isAbsolute parent = true ∧ 0 ∉ parent
  | .formatter _ arguments => arguments.length ≤ 128
  | _ => True

theorem checkedReceiver_eq_ok {script : Text} {uid gid : UInt32} {parent : Bytes} {role : Role} :
    Role.checkedReceiver script uid gid parent = .ok role ↔
      (Role.receiver script uid gid parent).Valid ∧ role = .receiver script uid gid parent := by
  rw [Role.checkedReceiver, Role.Valid]
  split
  · rename_i hbad
    refine iff_of_false (fun h => by cases h) (fun h => ?_)
    obtain ⟨⟨huid, hgid, habsolute, hnul⟩, _⟩ := h
    rcases hbad with hbad | hbad | hbad | hbad
    · exact huid hbad
    · exact hgid hbad
    · rw [hbad] at habsolute
      cases habsolute
    · exact hnul (List.contains_iff_mem.mp hbad)
  · rename_i hgood
    simp only [not_or, Bool.not_eq_false] at hgood
    rw [Except.ok.injEq, and_iff_right ⟨hgood.1, hgood.2.1, hgood.2.2.1, fun h => hgood.2.2.2
      (List.contains_iff_mem.mpr h)⟩]
    exact eq_comm

namespace HelperInvocation

theorem toU32_toNat (x : UInt32) : toU32 x.toNat = .ok x := by
  rw [toU32, if_pos x.toNat_lt, UInt32.ofNat_toNat]

theorem mapM_formatterArgument {items : List Cbor} {arguments : List Bytes} :
    items.mapM formatterArgument = .ok arguments ↔ items = arguments.map Cbor.bytes := by
  have hitem : ∀ item value, formatterArgument item = .ok value ↔ item = Cbor.bytes value := by
    intro item value
    cases item with
    | bytes b =>
      show Except.ok b = Except.ok value ↔ _
      rw [Except.ok.injEq, Cbor.bytes.injEq]
    | _ => exact iff_of_false (fun h => by cases h) (fun h => by cases h)
  rw [except_mapM_eq_ok]
  constructor
  · intro h
    induction h with
    | nil => rfl
    | cons hfirst _ ih => rw [List.map_cons, ih, (hitem _ _).mp hfirst]
  · rintro rfl
    induction arguments with
    | nil => exact .nil
    | cons value arguments ih => exact .cons ((hitem _ _).mpr rfl) ih

/-- **A role is decoded from its fields** where it keeps its rules, and from nothing that breaks them. -/
theorem decodeRole_fields {role : Role} (h : role.Valid) :
    decodeRole (UInt8.ofNat (roleFields role).1) (roleFields role).2 = .ok role := by
  cases role with
  | receiver script uid gid parent =>
    show (do
      let uid ← toU32 uid.toNat
      let gid ← toU32 gid.toNat
      Role.checkedReceiver script uid gid parent) = _
    rw [toU32_toNat, except_ok_bind, toU32_toNat, except_ok_bind]
    exact checkedReceiver_eq_ok.mpr ⟨h, rfl⟩
  | formatter executable arguments =>
    show (if 128 < (arguments.map Cbor.bytes).length then Except.error LaunchError.formatterArguments
      else do
        let arguments ← (arguments.map Cbor.bytes).mapM formatterArgument
        .ok (Role.formatter executable arguments)) = _
    rw [List.length_map, if_neg (Nat.not_lt.mpr h), mapM_formatterArgument.mpr rfl]
    rfl
  | _ => rfl

theorem decodeRole_valid {tag : UInt8} {rest : List Cbor} {role : Role}
    (h : decodeRole tag rest = .ok role) : role.Valid := by
  unfold decodeRole at h
  split at h
  · cases h
    trivial
  · obtain ⟨uid, _, h⟩ := except_bind_eq_ok.mp h
    obtain ⟨gid, _, h⟩ := except_bind_eq_ok.mp h
    obtain ⟨hvalid, rfl⟩ := checkedReceiver_eq_ok.mp h
    exact hvalid
  · cases h
    trivial
  · cases h
    trivial
  · split at h
    · cases h
    · rename_i hfew
      obtain ⟨arguments, harguments, h⟩ := except_bind_eq_ok.mp h
      cases h
      rw [mapM_formatterArgument.mp harguments, List.length_map] at hfew
      exact Nat.le_of_not_lt hfew
  · cases h

/-! Launch inputs. -/

theorem encode_length (inv : HelperInvocation) :
    inv.encode.utf8.length = 2 * (Cbor.array inv.fields).encode.length :=
  hex_utf8_length _

/-- The fields of an input that fits in an argument fit their heads. -/
theorem fields_fit {inv : HelperInvocation} (h : inv.encode.utf8.length ≤ maxArgument) :
    (Cbor.array inv.fields).Fits := by
  have hbytes : (Cbor.encodeAll inv.fields).length ≤ maxArgument := by
    rw [encode_length, Cbor.encode, List.length_append] at h
    omega
  have hmax : maxArgument = 131072 := rfl
  have hitem : ∀ item ∈ inv.fields, item.encode.length ≤ 131072 := fun item hitem =>
    Nat.le_trans (Cbor.encodeAll_length hitem).1 (hmax ▸ hbytes)
  have htext : ∀ t : Text, (Cbor.text t).encode.length ≤ 131072 → (Cbor.text t).Fits := by
    intro t ht
    rw [Cbor.encode, List.length_append] at ht
    show t.utf8.length < 2 ^ 64
    omega
  have hvalue : ∀ b : Bytes, (Cbor.bytes b).encode.length ≤ 131072 → (Cbor.bytes b).Fits := by
    intro b hb
    rw [Cbor.encode, List.length_append] at hb
    show b.length < 2 ^ 64
    omega
  have harray : ∀ values : List Bytes, (Cbor.array (values.map Cbor.bytes)).encode.length ≤ 131072 →
      (Cbor.array (values.map Cbor.bytes)).Fits := by
    intro values hvalues
    rw [Cbor.encode, List.length_append] at hvalues
    refine ⟨?_, Cbor.fitsAll_iff.mpr (fun item hmem => ?_)⟩
    · cases values with
      | nil => exact (by decide : 0 < 2 ^ 64)
      | cons value values =>
        have hlength := (@Cbor.encodeAll_length (Cbor.bytes value)
          (List.map Cbor.bytes (value :: values)) List.mem_cons_self).2
        omega
    · have hlength := (Cbor.encodeAll_length hmem).1
      obtain ⟨value, _, rfl⟩ := List.mem_map.mp hmem
      exact hvalue value (by omega)
  refine ⟨?_, Cbor.fitsAll_iff.mpr (fun item hmem => ?_)⟩
  · have hlength := (@Cbor.encodeAll_length (.unsigned 1) inv.fields List.mem_cons_self).2
    omega
  · have hlength := hitem item hmem
    obtain ⟨cutoff, role⟩ := inv
    obtain hmem | hmem := List.mem_append.mp hmem
    · simp only [List.mem_cons, List.not_mem_nil, or_false] at hmem
      obtain rfl | rfl | rfl := hmem
      · exact (by decide : 1 < 2 ^ 64)
      · show (roleFields role).1 < 2 ^ 64
        cases role
        all_goals simp [roleFields]
      · exact htext _ hlength
    · cases role with
      | seed => cases hmem
      | receiver script uid gid parent =>
        simp only [roleFields, List.mem_cons, List.not_mem_nil, or_false] at hmem
        have huid := uid.toNat_lt
        have hgid := gid.toNat_lt
        obtain rfl | rfl | rfl | rfl := hmem
        · exact htext _ hlength
        · show uid.toNat < 2 ^ 64
          omega
        · show gid.toNat < 2 ^ 64
          omega
        · exact hvalue _ hlength
      | namespaces script =>
        rw [List.mem_singleton.mp hmem] at hlength ⊢
        exact htext _ hlength
      | root script =>
        rw [List.mem_singleton.mp hmem] at hlength ⊢
        exact htext _ hlength
      | formatter executable arguments =>
        simp only [roleFields, List.mem_cons, List.not_mem_nil, or_false] at hmem
        obtain rfl | rfl := hmem
        · exact hvalue _ hlength
        · exact harray _ hlength

theorem decodeFields_valid {c : Ciborium} {parsed : List Cbor} {inv : HelperInvocation}
    (h : decodeFields c parsed = .ok inv) :
    inv.role.Valid := by
  unfold decodeFields at h
  split at h
  · obtain ⟨version, _, h⟩ := except_bind_eq_ok.mp h
    split at h
    · cases h
    · obtain ⟨cutoff, _, h⟩ := except_bind_eq_ok.mp h
      obtain ⟨tag, _, h⟩ := except_bind_eq_ok.mp h
      obtain ⟨role, hrole, h⟩ := except_bind_eq_ok.mp h
      cases h
      exact decodeRole_valid hrole
  · cases h

theorem decodeFields_fields {c : Ciborium} (hc : c.Faithful) {inv : HelperInvocation}
    (h : inv.role.Valid) :
    decodeFields c inv.fields = .ok inv := by
  have htag : toU8 (roleFields inv.role).1 = .ok (UInt8.ofNat (roleFields inv.role).1) := by
    cases inv.role
    all_goals rfl
  show (do
    let cutoff ← SetupCutoff.fromArgument c inv.cutoff.toArgument
    let tag ← toU8 (roleFields inv.role).1
    let role ← decodeRole tag (roleFields inv.role).2
    .ok (HelperInvocation.mk cutoff role)) = _
  rw [(SetupCutoff.fromArgument_iff hc).mpr rfl, except_ok_bind, htag, except_ok_bind,
    decodeRole_fields h]
  rfl

/-- **Decoding accepts the encodings** of what keeps the rules and fits in an argument, and nothing else. -/
theorem decode_iff {c : Ciborium} (hc : c.Faithful) {text : Text} {inv : HelperInvocation} :
    decode c text = .ok inv ↔ inv.role.Valid ∧ text = inv.encode ∧ inv.encode.utf8.length ≤
      maxArgument := by
  constructor
  · intro h
    rw [decode] at h
    split at h
    · cases h
    · rename_i hsize
      split at h
      · cases h
      · split at h
        · cases h
        · obtain ⟨parsed, hparsed, h⟩ := except_bind_eq_ok.mp h
          split at h
          · cases h
          · rename_i hcanonical
            rw [Decidable.not_not] at hcanonical
            cases h
            exact ⟨decodeFields_valid hparsed, hcanonical.symm,
              by rw [hcanonical]; exact Nat.le_of_not_lt hsize⟩
  · rintro ⟨hvalid, rfl, hsize⟩
    rw [decode, if_neg (Nat.not_lt.mpr hsize), encode, Hex.decode_encode]
    dsimp only
    rw [hc.fields inv.fields (fields_fit hsize)]
    dsimp only
    rw [decodeFields_fields hc hvalid, except_ok_bind]
    exact if_neg (not_not.mpr rfl)

/-- **A launch made from a decoded one fits** where that did: it leaves fields out. -/
theorem next_length {inv inv' : HelperInvocation} (h : inv.next = some inv') :
    inv'.encode.utf8.length ≤ inv.encode.utf8.length := by
  obtain ⟨cutoff, role⟩ := inv
  rw [encode_length, encode_length]
  refine Nat.mul_le_mul_left 2 ?_
  cases role with
  | receiver script uid gid parent =>
    cases h
    show ([0x84, 1, 2] ++ ((Cbor.text cutoff.toArgument).encode ++
      ((Cbor.text script).encode ++ []))).length ≤
      ([0x87, 1, 1] ++ ((Cbor.text cutoff.toArgument).encode ++ ((Cbor.text script).encode ++
        Cbor.encodeAll [.unsigned uid.toNat, .unsigned gid.toNat, .bytes parent]))).length
    simp only [List.length_append, List.length_cons, List.length_nil]
    omega
  | namespaces script =>
    cases h
    exact Nat.le_refl _
  | _ => cases h

/-- What `parse` makes of the arguments of a launch. -/
theorem parse_arguments (c : Ciborium) (text : Text) :
    parse c [selector.utf8, text.utf8] = some <$> decode c text := by
  have hhead : ([selector.utf8, text.utf8] : List Bytes).head? = some selector.utf8 := rfl
  have hargument : ([selector.utf8, text.utf8] : List Bytes).getD 1 [] = text.utf8 := rfl
  have htwo : ([selector.utf8, text.utf8] : List Bytes).length = 2 := rfl
  rw [parse, hhead, if_neg (not_not.mpr rfl), htwo, if_neg (not_not.mpr rfl), hargument,
    Utf8.read_utf8]

end HelperInvocation

open HelperInvocation

namespace HelperProgram

/-- **A launch accepted** fits in an argument, and parses back if its role keeps its rules. -/
theorem command_parses {c : Ciborium} (hc : c.Faithful) {p : HelperProgram}
    {output : Except IoError Unit} {inv : HelperInvocation} {cmd : Command}
    (hvalid : inv.role.Valid) (h : p.command output inv = .ok cmd) :
    inv.encode.utf8.length ≤ maxArgument ∧ parse c cmd.arguments = .ok (some inv) := by
  rw [command] at h
  split at h
  · cases h
  · rename_i hsize
    obtain ⟨_, _, h⟩ := except_bind_eq_ok.mp h
    cases h
    have hfits := Nat.le_of_not_lt hsize
    rw [parse_arguments, (decode_iff hc).mpr ⟨hvalid, rfl, hfits⟩]
    exact ⟨hfits, rfl⟩

theorem command_fits {p : HelperProgram} {inv : HelperInvocation}
    (h : inv.encode.utf8.length ≤ maxArgument) :
    ∃ cmd, p.command (.ok ()) inv = .ok cmd :=
  ⟨_, if_neg (Nat.not_lt.mpr h)⟩

end HelperProgram

/-- **Launch descriptions survive every hop.** A receiver launched parses its own
    description; the namespaces it launches with what it parsed, and the root these
    launch, fit in an argument and parse the script and the cutoff they were given.
    Formatter launches parse back. A text is decoded exactly if it is the encoding of a
    launch that keeps its role's rules, and fits. -/
theorem launch_round_trip {c : Ciborium} (hc : c.Faithful) (p : HelperProgram) :
    (∀ output script cutoff uid gid parent cmd, p.receiver output script cutoff uid gid parent =
      .ok cmd →
      ∃ first second third next last, parse c cmd.arguments = .ok (some first) ∧
        first = ⟨cutoff, .receiver script uid gid parent⟩ ∧
        first.next = some second ∧ p.command (.ok ()) second = .ok next ∧
        second = ⟨cutoff, .namespaces script⟩ ∧ parse c next.arguments = .ok (some second) ∧
        second.next = some third ∧ p.command (.ok ()) third = .ok last ∧
        third = ⟨cutoff, .root script⟩ ∧ parse c last.arguments = .ok (some third)) ∧
    (∀ output executable arguments cutoff cmd, arguments.length ≤ 128 →
      p.formatter output executable arguments cutoff = .ok cmd →
      parse c cmd.arguments = .ok (some ⟨cutoff, .formatter executable arguments⟩)) ∧
    ∀ text, (∃ inv, decode c text = .ok inv) ↔
      ∃ inv : HelperInvocation, inv.role.Valid ∧ text = inv.encode ∧ text.utf8.length ≤
        maxArgument := by
  refine ⟨?_, ?_, ?_⟩
  · intro output script cutoff uid gid parent cmd h
    obtain ⟨role, hrole, hcommand⟩ := except_bind_eq_ok.mp h
    obtain ⟨hvalid, rfl⟩ := checkedReceiver_eq_ok.mp hrole
    obtain ⟨hfirst, hparsed⟩ := HelperProgram.command_parses hc hvalid hcommand
    have hsecond : HelperInvocation.next ⟨cutoff, .receiver script uid gid parent⟩ =
      some ⟨cutoff, .namespaces script⟩ := rfl
    have hthird : HelperInvocation.next ⟨cutoff, .namespaces script⟩ =
      some ⟨cutoff, .root script⟩ := rfl
    have hfits := Nat.le_trans (next_length hsecond) hfirst
    obtain ⟨next, hnext⟩ := HelperProgram.command_fits (p := p) hfits
    obtain ⟨last, hlast⟩ :=
      HelperProgram.command_fits (p := p) (Nat.le_trans (next_length hthird) hfits)
    have hentered : (Role.namespaces script).Valid := trivial
    have hrooted : (Role.root script).Valid := trivial
    exact ⟨_, _, _, next, last, hparsed, rfl, hsecond, hnext, rfl,
      (HelperProgram.command_parses hc hentered hnext).2, hthird, hlast,
      rfl, (HelperProgram.command_parses hc hrooted hlast).2⟩
  · intro output executable arguments cutoff cmd hfew h
    have hvalid : (Role.formatter executable arguments).Valid := hfew
    exact (HelperProgram.command_parses hc hvalid h).2
  · intro text
    constructor
    · rintro ⟨inv, h⟩
      obtain ⟨hvalid, rfl, hsize⟩ := (decode_iff hc).mp h
      exact ⟨inv, hvalid, rfl, hsize⟩
    · rintro ⟨inv, hvalid, rfl, hsize⟩
      exact ⟨inv, (decode_iff hc).mpr ⟨hvalid, rfl, hsize⟩⟩

theorem launch_round_trip_sample :
    (∀ output script cutoff uid gid parent cmd, (HelperProgram.mk
      [47]).receiver output script cutoff uid gid parent = .ok cmd →
      ∃ first second third next last, parse Ciborium.reader cmd.arguments = .ok (some first) ∧
        first = ⟨cutoff, .receiver script uid gid parent⟩ ∧
        first.next = some second ∧ (HelperProgram.mk [47]).command (.ok ()) second = .ok next ∧
        second = ⟨cutoff, .namespaces script⟩ ∧ parse Ciborium.reader next.arguments =
          .ok (some second) ∧
        second.next = some third ∧ (HelperProgram.mk [47]).command (.ok ()) third = .ok last ∧
        third = ⟨cutoff, .root script⟩ ∧ parse Ciborium.reader last.arguments = .ok (some third)) ∧
    (∀ output executable arguments cutoff cmd, arguments.length ≤ 128 →
      (HelperProgram.mk [47]).formatter output executable arguments cutoff = .ok cmd →
      parse Ciborium.reader cmd.arguments = .ok (some ⟨cutoff, .formatter executable arguments⟩)) ∧
    ∀ text, (∃ inv, decode Ciborium.reader text = .ok inv) ↔
      ∃ inv : HelperInvocation, inv.role.Valid ∧ text = inv.encode ∧ text.utf8.length ≤
        maxArgument :=
  launch_round_trip Ciborium.reader_faithful ⟨[47]⟩

end Conglobate.Launch
