import Conglobate.Process.PacketProps

/- Cleanup acknowledgments (`process/supervision/control.rs`).

   The receiver acknowledges cleanup with the status of the namespace helper, which a
   shell's conventions relate to the status of the command: the helper exits with the
   command's code, or with 128 and the signal that ended it.

   Correspondence (Rust ↔ Lean):
     `ExitStatus::success`, `code`, `signal` ↔ the same names
     `expected.code().unwrap_or_else(..)`    ↔ `shellCode`
     `cleanup_until`, of what was received   ↔ `certify` -/
namespace Conglobate.Process

namespace ExitStatus

/-- A zero wait status. -/
def success (status : ExitStatus) : Bool := status.raw == 0

/-- `WIFEXITED` and `WEXITSTATUS`. -/
def code (status : ExitStatus) : Option Nat :=
  if status.raw &&& 0x7f = 0 then some ((status.raw >>> 8) &&& 0xff).toNat else none

/-- `WIFSIGNALED` and `WTERMSIG`: neither exited nor stopped. -/
def signal (status : ExitStatus) : Option Nat :=
  if 0 < (status.raw &&& 0x7f).toNat ∧ (status.raw &&& 0x7f).toNat < 127 then
    some (status.raw &&& 0x7f).toNat else none

/-- What a shell exits with for a command that ended so. -/
def shellCode (status : ExitStatus) : Nat := status.code.getD (128 + status.signal.getD 1)

end ExitStatus

variable {D : Type}

/-- What a received packet says about the cleanup of a command that ended as `expected`. -/
def certify (expected : ExitStatus) (received : Except IoError (Packet D)) : Except IoError Unit :=
  match received with
  | .error e => .error e
  | .ok (.cleaned status) =>
    if status.code = some expected.shellCode then .ok ()
    else .error ⟨.other, "namespace helper did not finish with the reported shell outcome"⟩
  | .ok (.cleanupFailed message) => .error ⟨.other, String.ofList message⟩
  | .ok _ => .error (.invalidData "expected receiver cleanup")

/-- **What certifies a cleanup**: the shell's exit code for the command, and nothing else. -/
theorem certify_eq_ok {expected : ExitStatus} {received : Except IoError (Packet D)} :
    certify expected received = .ok () ↔
      ∃ status, received = .ok (.cleaned status) ∧ status.code = some expected.shellCode := by
  cases received with
  | error e => simp [certify]
  | ok packet =>
    cases packet with
    | cleaned status => simp [certify]
    | _ => simp [certify]

end Conglobate.Process
