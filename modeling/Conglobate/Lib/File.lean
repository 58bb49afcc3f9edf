import Conglobate.Lib.ByteStore

/- Files as a program holds them: the operations of `ByteStore` with the failures
   a system call reports. A `File` carries the bound its length type gives, so
   no file too long for `off_t` can be built; a write that would make one is
   refused. -/
namespace Conglobate

/-- The `io::ErrorKind`s the modelled functions return or inspect. -/
inductive ErrorKind where
  | unexpectedEof
  | invalidData
  | invalidInput
  | permissionDenied
  | notFound
  | alreadyExists
  | fileTooLarge
  | timedOut
  | brokenPipe
  | wouldBlock
  | interrupted
  | other
  deriving DecidableEq, Repr

structure IoError where
  kind : ErrorKind
  message : String
  deriving DecidableEq, Repr

namespace IoError

def unexpectedEof : IoError := ⟨.unexpectedEof, "failed to fill whole buffer"⟩
def invalidData (message : String) : IoError := ⟨.invalidData, message⟩
def invalidInput (message : String) : IoError := ⟨.invalidInput, message⟩
def fileTooLarge : IoError := ⟨.fileTooLarge, "file too large"⟩

end IoError

/-- From a bound computation that succeeded, both halves. -/
theorem except_bind_eq_ok {ε α β : Type} {x : Except ε α} {f : α → Except ε β} {b : β} :
    (x >>= f) = .ok b ↔ ∃ a, x = .ok a ∧ f a = .ok b := by
  cases x with
  | error e => simp [bind, Except.bind]
  | ok a => simp [bind, Except.bind]

theorem except_ok_bind {ε α β : Type} (a : α) (f : α → Except ε β) :
    ((Except.ok a : Except ε α) >>= f) = f a := rfl

theorem except_map_eq_ok {ε α β : Type} {x : Except ε α} {f : α → β} {b : β} :
    (f <$> x) = .ok b ↔ ∃ a, x = .ok a ∧ f a = b := by
  cases x with
  | error e => simp [Functor.map, Except.map]
  | ok a => simp [Functor.map, Except.map]

theorem except_toOption_bind {ε α β : Type} (x : Except ε α) (f : α → Except ε β) :
    (x >>= f).toOption = x.toOption.bind (fun a => (f a).toOption) := by
  cases x <;> rfl

theorem except_toOption_eq_some {ε α : Type} {x : Except ε α} {a : α} :
    x.toOption = some a ↔ x = .ok a := by
  cases x <;> simp [Except.toOption]

theorem except_mapError_eq_ok {ε ε' α : Type} {x : Except ε α} {f : ε → ε'} {a : α} :
    x.mapError f = .ok a ↔ x = .ok a := by
  cases x with
  | error e => simp [Except.mapError]
  | ok b => simp [Except.mapError]

/-- `read_exact_at` on the bytes of a file or device. -/
def Bytes.readExactAt (f : Bytes) (off n : Nat) : Except IoError Bytes :=
  match f.readAt off n with
  | some bs => .ok bs
  | none => .error .unexpectedEof

theorem Bytes.readExactAt_eq_ok {f : Bytes} {off n : Nat} {bs : Bytes} :
    f.readExactAt off n = .ok bs ↔ f.readAt off n = some bs := by
  unfold readExactAt
  cases f.readAt off n <;> simp

/-- A regular file: its bytes, no more than `off_t` can number. -/
structure File where
  bytes : Bytes
  fits : bytes.length < 2 ^ 63

namespace File

def readExactAt (f : File) (off n : Nat) : Except IoError Bytes := f.bytes.readExactAt off n

def writeAllAt (f : File) (off : Nat) (bs : Bytes) : Except IoError File :=
  if h : (f.bytes.writeAt off bs).length < 2 ^ 63 then .ok ⟨f.bytes.writeAt off bs, h⟩
  else .error .fileTooLarge

/-- `set_len` to no more than the file's own length. -/
def truncate (f : File) (n : Nat) : File where
  bytes := f.bytes.take n
  fits := by
    have := f.fits
    rw [List.length_take]
    omega

/-- A write inside the file succeeds. -/
theorem writeAllAt_inside {f : File} {o : Nat} {b : Bytes} (h : o + b.length ≤ f.bytes.length) :
    ∃ g, f.writeAllAt o b = .ok g ∧ g.bytes = f.bytes.writeAt o b := by
  have hlen : (f.bytes.writeAt o b).length < 2 ^ 63 := by
    have := f.fits
    rw [Bytes.writeAt_length]
    omega
  exact ⟨⟨_, hlen⟩, dif_pos hlen, rfl⟩

end File

end Conglobate
