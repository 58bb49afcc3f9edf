import Conglobate.Lib.ByteStore

/- CRC-32/ISO-HDLC, bit by bit: reflected polynomial `0xEDB88320`, initial value
   and final complement all ones. A digest is updated a piece at a time, and
   only the concatenation of the pieces counts (`update_append`). -/
namespace Conglobate.Crc32

def polynomial : BitVec 32 := 0xEDB88320#32

def bitStep (crc : BitVec 32) : BitVec 32 :=
  if crc.getLsbD 0 then (crc >>> 1) ^^^ polynomial else crc >>> 1

def byteStep (crc : BitVec 32) (byte : UInt8) : BitVec 32 :=
  Nat.repeat bitStep 8 (crc ^^^ byte.toBitVec.setWidth 32)

/-- `crc.digest()`. -/
def digest : BitVec 32 := 0xFFFFFFFF#32

def update (crc : BitVec 32) (bytes : Bytes) : BitVec 32 := bytes.foldl byteStep crc

def finalize (crc : BitVec 32) : UInt32 := ⟨crc ^^^ 0xFFFFFFFF#32⟩

def checksum (bytes : Bytes) : UInt32 := finalize (update digest bytes)

/-- **Only the concatenation of the pieces counts.** -/
theorem update_append (crc : BitVec 32) (a b : Bytes) :
    update crc (a ++ b) = update (update crc a) b :=
  List.foldl_append

/-- The catalogue's check value, of "123456789". -/
example : checksum [49, 50, 51, 52, 53, 54, 55, 56, 57] = 0xCBF43926 := by decide +kernel

end Conglobate.Crc32
