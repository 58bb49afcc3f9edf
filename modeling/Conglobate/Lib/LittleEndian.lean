import Conglobate.Lib.ByteStore

/- Little-endian numbers. `le k n` is the `k`-byte encoding of `n` (its low
   bytes when `n` does not fit), `ofLe` the number a byte string encodes. The
   two are inverse on numbers that fit (`ofLe_le`) and on byte strings of the
   width (`le_ofLe`), so a fixed-width field round trips. -/
namespace Conglobate

namespace Bytes

/-- The `k`-byte little-endian encoding of `n`. -/
def le : Nat → Nat → Bytes
  | 0, _ => []
  | k + 1, n => UInt8.ofNat n :: le k (n / 256)

/-- The number a little-endian byte string encodes. -/
def ofLe : Bytes → Nat
  | [] => 0
  | b :: bs => b.toNat + 256 * ofLe bs

@[simp] theorem le_length (k n : Nat) : (le k n).length = k := by
  induction k generalizing n with
  | zero => rfl
  | succ k ih => simp [le, ih]

theorem ofLe_le_mod (k n : Nat) : ofLe (le k n) = n % 256 ^ k := by
  induction k generalizing n with
  | zero => simp [le, ofLe, Nat.mod_one]
  | succ k ih =>
    rw [le, ofLe, ih, UInt8.toNat_ofNat', show (2 : Nat) ^ 8 = 256 from rfl,
      show 256 ^ (k + 1) = 256 * 256 ^ k from Nat.pow_succ', Nat.mod_mul]

/-- **A number that fits decodes to itself.** -/
theorem ofLe_le {k n : Nat} (h : n < 256 ^ k) : ofLe (le k n) = n := by
  rw [ofLe_le_mod, Nat.mod_eq_of_lt h]

theorem ofLe_lt (bs : Bytes) : ofLe bs < 256 ^ bs.length := by
  induction bs with
  | nil => simp [ofLe]
  | cons b bs ih =>
    have hb := b.toNat_lt
    simp only [ofLe, List.length_cons, Nat.pow_succ]
    omega

/-- **A byte string of the width encodes back to itself.** -/
theorem le_ofLe (bs : Bytes) : le bs.length (ofLe bs) = bs := by
  induction bs with
  | nil => rfl
  | cons b bs ih =>
    have hb : b.toNat < 256 := b.toNat_lt
    have hdiv : (b.toNat + 256 * ofLe bs) / 256 = ofLe bs := by omega
    simp only [List.length_cons, ofLe, le, hdiv, ih]
    congr 1
    apply UInt8.toNat.inj
    rw [UInt8.toNat_ofNat']
    omega

/-! The machine words of a wire format. -/

def le32 (x : UInt32) : Bytes := le 4 x.toNat
def le64 (x : UInt64) : Bytes := le 8 x.toNat
def u32 (bs : Bytes) : UInt32 := UInt32.ofNat (ofLe bs)
def u64 (bs : Bytes) : UInt64 := UInt64.ofNat (ofLe bs)

@[simp] theorem le32_length (x : UInt32) : (le32 x).length = 4 := le_length _ _
@[simp] theorem le64_length (x : UInt64) : (le64 x).length = 8 := le_length _ _

@[simp] theorem u32_le32 (x : UInt32) : u32 (le32 x) = x := by
  rw [u32, le32, ofLe_le x.toNat_lt, UInt32.ofNat_toNat]

@[simp] theorem u64_le64 (x : UInt64) : u64 (le64 x) = x := by
  rw [u64, le64, ofLe_le x.toNat_lt, UInt64.ofNat_toNat]

/-! Byte arrays of a fixed length. -/

/-- The array a field of `n` bytes holds. -/
def array (n : Nat) (bs : Bytes) : Vector UInt8 n := Vector.ofFn (fun i => bs.getD i 0)

@[simp] theorem array_toList {n : Nat} (v : Vector UInt8 n) : array n v.toList = v := by
  apply Vector.ext
  intro i hi
  simp [array]

end Bytes

end Conglobate
