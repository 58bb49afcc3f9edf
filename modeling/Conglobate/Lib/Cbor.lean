import Conglobate.Lib.LittleEndian
import Conglobate.Lib.Utf8

/- Deterministic CBOR, for the data packets and launch inputs are made of: unsigned
   integers, byte strings, texts and arrays.

   Every item starts with its head: the major type and a number, in the fewest bytes
   that hold the number. `read` takes an item off the front of its input, whatever
   follows it (`read_encode`), so an encoding determines its item. The reader takes longer
   heads too; who wants them refused encodes again and compares. -/
namespace Conglobate

namespace Bytes

/-- The `k`-byte big-endian encoding of `n`. -/
def be (k n : Nat) : Bytes := (le k n).reverse

def ofBe (bs : Bytes) : Nat := ofLe bs.reverse

@[simp] theorem be_length (k n : Nat) : (be k n).length = k := by
  rw [be, List.length_reverse, le_length]

theorem ofBe_be {k n : Nat} (h : n < 256 ^ k) : ofBe (be k n) = n := by
  rw [ofBe, be, List.reverse_reverse, ofLe_le h]

theorem be_ofBe (bs : Bytes) : be bs.length (ofBe bs) = bs := by
  have h := le_ofLe bs.reverse
  rw [List.length_reverse] at h
  rw [be, ofBe, h, List.reverse_reverse]

end Bytes

inductive Cbor where
  | unsigned (n : Nat)
  | bytes (value : Bytes)
  | text (value : Text)
  | array (items : List Cbor)

namespace Cbor

/-- An item's head. -/
def head (major n : Nat) : Bytes :=
  if n < 24 then [UInt8.ofNat (32 * major + n)]
  else if n < 256 then UInt8.ofNat (32 * major + 24) :: Bytes.be 1 n
  else if n < 65536 then UInt8.ofNat (32 * major + 25) :: Bytes.be 2 n
  else if n < 4294967296 then UInt8.ofNat (32 * major + 26) :: Bytes.be 4 n
  else UInt8.ofNat (32 * major + 27) :: Bytes.be 8 n

mutual

/-- `into_writer`. -/
def encode : Cbor → Bytes
  | .unsigned n => head 0 n
  | .bytes value => head 2 value.length ++ value
  | .text value => head 3 value.utf8.length ++ value.utf8
  | .array items => head 4 items.length ++ encodeAll items

def encodeAll : List Cbor → Bytes
  | [] => []
  | item :: items => item.encode ++ encodeAll items

end

mutual

/-- The numbers of an item fit a head. -/
def Fits : Cbor → Prop
  | .unsigned n => n < 2 ^ 64
  | .bytes value => value.length < 2 ^ 64
  | .text value => value.utf8.length < 2 ^ 64
  | .array items => items.length < 2 ^ 64 ∧ FitsAll items

def FitsAll : List Cbor → Prop
  | [] => True
  | item :: items => item.Fits ∧ FitsAll items

end

/-! Reading. -/

/-- A number of `k` bytes. -/
def readNumber (k : Nat) (input : Bytes) : Option (Nat × Bytes) :=
  if input.length < k then none else some (Bytes.ofBe (input.take k), input.drop k)

/-- The head the bytes start with: the major type and the number. -/
def readHead : Bytes → Option (Nat × Nat × Bytes)
  | [] => none
  | b :: rest =>
    if b.toNat % 32 < 24 then some (b.toNat / 32, b.toNat % 32, rest)
    else if b.toNat % 32 < 28 then
      (readNumber (2 ^ (b.toNat % 32 - 24)) rest).map (fun x => (b.toNat / 32, x.1, x.2))
    else none

/-- The next `n` bytes. -/
def readBytes (n : Nat) (input : Bytes) : Option (Bytes × Bytes) :=
  if input.length < n then none else some (input.take n, input.drop n)

/-- `n` items, each by `item`. -/
def readItems (item : Bytes → Option (Cbor × Bytes)) : Nat → Bytes → Option (List Cbor × Bytes)
  | 0, input => some ([], input)
  | n + 1, input =>
    (item input).bind (fun first => (readItems item n first.2).map
      (fun more => (first.1 :: more.1, more.2)))

/-- The item the bytes start with; each level of arrays takes fuel. -/
def readFrom : Nat → Bytes → Option (Cbor × Bytes)
  | 0, _ => none
  | fuel + 1, input =>
    (readHead input).bind (fun h =>
      if h.1 = 0 then some (.unsigned h.2.1, h.2.2)
      else if h.1 = 2 then (readBytes h.2.1 h.2.2).map (fun x => (.bytes x.1, x.2))
      else if h.1 = 3 then
        (readBytes h.2.1 h.2.2).bind (fun x => (Utf8.read x.1).map (fun t => (.text t, x.2)))
      else if h.1 = 4 then (readItems (readFrom fuel) h.2.1 h.2.2).map (fun x => (.array x.1, x.2))
      else none)

/-- The item the bytes start with. An array takes a byte, so there is a byte for each level. -/
def read (input : Bytes) : Option (Cbor × Bytes) := readFrom (input.length + 1) input

/-! Heads. -/

theorem readNumber_be {k n : Nat} (h : n < 256 ^ k) (rest : Bytes) :
    readNumber k (Bytes.be k n ++ rest) = some (n, rest) := by
  have hlength : (Bytes.be k n).length = k := Bytes.be_length k n
  rw [readNumber, if_neg (by rw [List.length_append]; omega), List.take_left' hlength,
    List.drop_left' hlength, Bytes.ofBe_be h]

/-- **A head is read off**, whatever follows it. -/
theorem readHead_head {major n : Nat} (hmajor : major < 8) (hn : n < 2 ^ 64) (rest : Bytes) :
    readHead (head major n ++ rest) = some (major, n, rest) := by
  have hfirst : ∀ low, low < 32 → (UInt8.ofNat (32 * major + low)).toNat = 32 * major + low := by
    intro low hlow
    rw [UInt8.toNat_ofNat']
    exact Nat.mod_eq_of_lt (by omega)
  -- the longer forms differ in how many bytes the number has
  have hlong : ∀ low, low < 4 → n < 256 ^ 2 ^ low →
      readHead (UInt8.ofNat (32 * major + (24 + low)) :: Bytes.be (2 ^ low) n ++ rest) =
          some (major, n, rest) := by
    intro low hlow hfits
    show readHead (UInt8.ofNat (32 * major + (24 + low)) :: (Bytes.be (2 ^ low) n ++ rest)) = _
    have hmod : (32 * major + (24 + low)) % 32 = 24 + low := by omega
    have hdiv : (32 * major + (24 + low)) / 32 = major := by omega
    rw [readHead, hfirst _ (by omega), hmod, hdiv, if_neg (by omega), if_pos (by omega),
      Nat.add_sub_cancel_left, readNumber_be hfits]
    rfl
  rw [head]
  split
  · show readHead (UInt8.ofNat (32 * major + n) :: rest) = _
    rw [readHead, hfirst n (by omega), if_pos (by omega)]
    congr
    · omega
    · omega
  · split
    · exact hlong 0 (by omega) (by omega)
    · split
      · exact hlong 1 (by omega) (by omega)
      · split
        · exact hlong 2 (by omega) (by omega)
        · exact hlong 3 (by omega) (by omega)

theorem readBytes_append (value rest : Bytes) :
    readBytes value.length (value ++ rest) = some (value, rest) := by
  rw [readBytes, if_neg (by rw [List.length_append]; omega), List.take_left, List.drop_left]

/-! Items. -/

theorem head_length (major n : Nat) : 1 ≤ (head major n).length := by
  rw [head]
  split
  · exact Nat.le_refl 1
  · split
    · exact Nat.succ_le_succ (Nat.zero_le _)
    · split
      · exact Nat.succ_le_succ (Nat.zero_le _)
      · split
        · exact Nat.succ_le_succ (Nat.zero_le _)
        · exact Nat.succ_le_succ (Nat.zero_le _)

theorem head_length_le (major n : Nat) : (head major n).length ≤ 9 := by
  rw [head]
  repeat' split
  all_goals simp

theorem encode_length (v : Cbor) : 1 ≤ v.encode.length := by
  have hpos := fun major n => head_length major n
  cases v with
  | unsigned n => exact hpos 0 n
  | bytes value =>
    rw [encode, List.length_append]
    exact Nat.le_trans (hpos 2 value.length) (Nat.le_add_right _ _)
  | text value =>
    rw [encode, List.length_append]
    exact Nat.le_trans (hpos 3 value.utf8.length) (Nat.le_add_right _ _)
  | array items =>
    rw [encode, List.length_append]
    exact Nat.le_trans (hpos 4 items.length) (Nat.le_add_right _ _)

/-- An array is no shorter than its items. -/
theorem encodeAll_length {item : Cbor} {items : List Cbor} (h : item ∈ items) :
    item.encode.length ≤ (encodeAll items).length ∧ items.length ≤ (encodeAll items).length := by
  have hall : ∀ items : List Cbor, items.length ≤ (encodeAll items).length := by
    intro items
    induction items with
    | nil => exact Nat.zero_le _
    | cons item items ih =>
      have hpos := encode_length item
      rw [encodeAll, List.length_append, List.length_cons]
      omega
  refine ⟨?_, hall items⟩
  induction items with
  | nil => cases h
  | cons first items ih =>
    rw [encodeAll, List.length_append]
    obtain rfl | h := List.mem_cons.mp h
    · exact Nat.le_add_right _ _
    · exact Nat.le_trans (ih h) (Nat.le_add_left _ _)

theorem fitsAll_iff {items : List Cbor} : FitsAll items ↔ ∀ item ∈ items, item.Fits := by
  induction items with
  | nil => exact iff_of_true trivial (fun item h => by cases h)
  | cons item items ih => rw [FitsAll, ih, List.forall_mem_cons]

/-- What is read after a head. -/
theorem readFrom_head {fuel major n : Nat} (hmajor : major < 8) (hn : n < 2 ^ 64) (rest : Bytes) :
    readFrom (fuel + 1) (head major n ++ rest) =
      if major = 0 then some (.unsigned n, rest)
      else if major = 2 then (readBytes n rest).map (fun x => (.bytes x.1, x.2))
      else if major = 3 then
        (readBytes n rest).bind (fun x => (Utf8.read x.1).map (fun t => (.text t, x.2)))
      else if major = 4 then (readItems (readFrom fuel) n rest).map (fun x => (.array x.1, x.2))
      else none := by
  rw [readFrom, readHead_head hmajor hn, Option.bind_some]

mutual

/-- **An item is read off**, whatever follows it. -/
theorem readFrom_encode (v : Cbor) {fuel : Nat} (hfits : v.Fits) (hfuel : v.encode.length ≤ fuel)
    (rest : Bytes) :
    readFrom fuel (v.encode ++ rest) = some (v, rest) := by
  cases fuel with
  | zero =>
    exfalso
    cases v with
    | unsigned n =>
      have hpos := head_length 0 n
      rw [encode] at hfuel
      omega
    | bytes value =>
      have hpos := head_length 2 value.length
      rw [encode, List.length_append] at hfuel
      omega
    | text value =>
      have hpos := head_length 3 value.utf8.length
      rw [encode, List.length_append] at hfuel
      omega
    | array items =>
      have hpos := head_length 4 items.length
      rw [encode, List.length_append] at hfuel
      omega
  | succ fuel =>
    cases v with
    | unsigned n =>
      rw [encode, readFrom_head (by omega) hfits]
      rfl
    | bytes value =>
      rw [encode, List.append_assoc, readFrom_head (by omega) hfits, readBytes_append]
      rfl
    | text value =>
      rw [encode, List.append_assoc, readFrom_head (by omega) hfits, readBytes_append]
      show (Utf8.read value.utf8).map (fun t => (Cbor.text t, rest)) = _
      rw [Utf8.read_utf8]
      rfl
    | array items =>
      have hpos := head_length 4 items.length
      rw [encode, List.length_append] at hfuel
      rw [encode, List.append_assoc, readFrom_head (by omega) hfits.1]
      show (readItems (readFrom fuel) items.length (encodeAll items ++ rest)).map
        (fun x => (Cbor.array x.1, x.2)) = _
      rw [readItems_encode items hfits.2 (by omega)]
      rfl

theorem readItems_encode (items : List Cbor) {fuel : Nat} (hfits : FitsAll items)
    (hfuel : (encodeAll items).length ≤ fuel) (rest : Bytes) :
    readItems (readFrom fuel) items.length (encodeAll items ++ rest) = some (items, rest) := by
  cases items with
  | nil => rfl
  | cons item items =>
    rw [encodeAll, List.length_append] at hfuel
    rw [encodeAll, List.append_assoc, List.length_cons, readItems, readFrom_encode item hfits.1
      (by omega), Option.bind_some, readItems_encode items hfits.2 (by omega)]
    rfl

end

theorem read_encode {v : Cbor} (hfits : v.Fits) (rest : Bytes) :
    read (v.encode ++ rest) = some (v, rest) :=
  readFrom_encode v hfits (by rw [List.length_append]; omega) rest

end Cbor

end Conglobate
