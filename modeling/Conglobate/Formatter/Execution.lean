import Conglobate.Formatter.Capture
import Conglobate.Lib.Journal
import Conglobate.Process.Control

/- Running the formatters (`formatter/execution.rs`, with the command lines of
   `formatter/profile.rs` and `formatter/fat32.rs`).

   A formatting owns the snapshot it writes and the runtime it runs until the formatter has
   been reaped; only then may it give them up. Every operation may be refused and the clock
   has a reading for every point of a run (`Answers`); a run keeps a journal of its readings
   and operations, by which these points are counted.

   Correspondence (Rust ↔ Lean):
     `Ext4Format::arguments`, `Fat32Format::arguments` ↔ `ext4Arguments`, `fatArguments`
     `SetupBudget::check`, `SetupBudget::cutoff` ↔ `checkBudget`, `cutoff`
     `PartitionedSnapshot::create`, `esp_id`   ↔ `Operation.create`, `Answers.esp`
     `FormatInputs::reject`                    ↔ `reject`
     `inputs.next`                             ↔ the second argument of `wait`
     `FormatterRuntime::format`                ↔ `format`, its closure `launch`
     `Formatting::wait`                        ↔ `reap`, `finish`, `wait` -/
namespace Conglobate.Formatter.Execution

open Process (ExitStatus)

inductive Device where
  | root
  | esp
  deriving DecidableEq, Repr

/-- A formatter, with what it is given. -/
structure Invocation where
  executable : ContextPath
  arguments : List Text
  device : Device
  deriving DecidableEq

/-- "/dev/output" -/
def output : Text := "/dev/output".toList

def ext4Options : List Text :=
  ["-q", "-F", "-t", "ext4", "-T", "conglobate", "-b", "4096", "-I", "256", "-i", "16384",
    "-m", "0", "-E",
    "root_owner=0:0,nodiscard,lazy_itable_init=0,assume_storage_prezeroed=1"].map String.toList

/-- `FilesystemSize::blocks` of 4 KiB. -/
def ext4Arguments (f : Ext4Format) : List Text :=
  ext4Options ++ ["-L".toList, f.label, output, (toString (f.size.bytes / 4096)).toList]

def fatArguments : List Text :=
  ["-I", "-F", "32", "-S", "4096", "-s", "1", "-n", "ESP"].map String.toList ++ [output]

inductive Operation where
  | create
  | cutoff
  | command (invocation : Invocation)
  | input (device : Device)
  | spawn (invocation : Invocation)
  | wait (device : Device)
  | terminate (device : Device)
  | sync
  | views
  | close
  | detach
  | runtime
  deriving DecidableEq

inductive Event where
  | reading (t : Nat)
  | performed (operation : Operation) (succeeded : Bool)
  deriving DecidableEq

/-- What a run is answered, by the steps before. -/
structure Answers where
  clock : Nat → Nat
  refuse : Operation → Nat → Option IoError
  /-- Whether the snapshot that was made has a view of an ESP. -/
  esp : Bool
  /-- What a formatter exited with. -/
  status : Nat → ExitStatus
  /-- How an exit status is displayed. -/
  display : ExitStatus → String

/-- An error, in the context of the cleanups that failed. -/
structure FormatError where
  source : IoError
  cleanup : List IoError

section Run
variable (a : Answers) (deadline : Nat) (c : CapturedFormatter) (f : Ext4Format)

def now : Journal Event IoError Nat :=
  fun log => .ok (a.clock log.length) (log ++ [.reading (a.clock log.length)])

def ask {α : Type} (operation : Operation) (value : Nat → α) : Journal Event IoError α := fun log =>
  match a.refuse operation log.length with
  | none => .ok (value log.length) (log ++ [.performed operation true])
  | some e => .error e (log ++ [.performed operation false])

def perform (operation : Operation) : Journal Event IoError Unit := ask a operation fun _ => ()

/-- What is done after a failure. -/
def recover {α : Type} (x : Journal Event IoError α)
    (handle : IoError → Journal Event FormatError α) :
    Journal Event FormatError α := do
  let r ← Journal.attempt x
  match r with
  | .ok v => pure v
  | .error e => handle e

def failures : List (Except IoError Unit) → List IoError
  | [] => []
  | .ok () :: rest => failures rest
  | .error e :: rest => e :: failures rest

def reject {α : Type} (e : IoError) : Journal Event FormatError α := do
  let storage ← Journal.attempt do
    perform a .views
    perform a .close
    perform a .detach
  let runtime ← Journal.attempt (perform a .runtime)
  throw ⟨e, failures [storage, runtime]⟩

def checkBudget : Journal Event IoError Unit := do
  let t ← now a
  if deadline ≤ t then throw ⟨.timedOut, "fixed step setup deadline expired"⟩ else pure ()

def cutoff : Journal Event IoError Unit := do
  checkBudget a deadline
  perform a .cutoff

/-- The builder's own configuration is there. -/
def configured : Bool :=
  c.files.entries.any fun e => e.1 == configurationPath && e.2.bytes == configuration.bytes &&
    !e.2.executable

/-- A command with its device. -/
def prepare (invocation : Invocation) : Journal Event IoError Unit := do
  cutoff a deadline
  perform a (.command invocation)
  perform a (.input invocation.device)

def prepareEsp : Journal Event IoError (Option Invocation) := do
  let esp ← Journal.lift f.espFormat
  if esp.isNone then pure none
  else if a.esp = false then throw ⟨.other, "missing formatted ESP view"⟩
  else
    match c.fat with
    | none => throw ⟨.other, "ESP formatting requires captured mkfs.fat"⟩
    | some executable => do
      prepare a deadline ⟨executable, fatArguments, .esp⟩
      pure (some ⟨executable, fatArguments, .esp⟩)

def ext4Invocation : Invocation := ⟨c.executable, ext4Arguments f, .root⟩

/-- The closure of `format`: the root's formatter runs, and the ESP's is ready. -/
def launch : Journal Event IoError (Option Invocation) := do
  checkBudget a deadline
  if configured c = false then
    throw (.invalidInput "formatter requires builder-owned ext4 configuration")
  else do
    let next ← prepareEsp a deadline c f
    prepare a deadline (ext4Invocation c f)
    checkBudget a deadline
    perform a (.spawn (ext4Invocation c f))
    pure next

/-- An error that has nothing to clean up. -/
def bare {α : Type} (e : IoError) : Journal Event FormatError α := throw ⟨e, []⟩

def closeRuntime {α : Type} (e : IoError) : Journal Event FormatError α := do
  let runtime ← Journal.attempt (perform a .runtime)
  throw ⟨e, failures [runtime]⟩

/-- With what is left to run. -/
def format (carapace : Carapace) : Journal Event FormatError (Option Invocation) := do
  recover (do
    checkBudget a deadline
    let _ ← Journal.lift (f.layout carapace)) bare
  recover (perform a .create) (closeRuntime a)
  recover (launch a deadline c f) (reject a)

/-- What a formatter exited with that was reaped. A child that may still run keeps both. -/
def reap (device : Device) : Journal Event FormatError ExitStatus :=
  recover (ask a (.wait device) a.status) fun e => do
    let terminated ← Journal.attempt do
      let _ ← now a
      perform a (.terminate device)
    match terminated with
    | .ok () => reject a e
    | .error cleanup => throw ⟨e, [cleanup]⟩

def finish (status : ExitStatus) : Journal Event IoError Unit := do
  let t ← now a
  if deadline ≤ t then throw ⟨.timedOut, "formatter completed after cutoff"⟩
  else if status.success = false then throw ⟨.other, "formatter exited " ++ a.display status⟩
  else perform a .sync

def wait (device : Device) (next : Option Invocation) : Journal Event FormatError Unit := do
  let status ← reap a device
  recover (finish a deadline status) (reject a)
  match next with
  | none => pure ()
  | some invocation => do
    recover (perform a (.spawn invocation)) (reject a)
    wait invocation.device none
termination_by next.isSome.toNat
decreasing_by simp

def run (carapace : Carapace) : Journal Event FormatError Unit := do
  let next ← format a deadline c f carapace
  wait a deadline .root next

end Run

/-! Custody of the snapshot and the runtime, as it should be. -/

inductive Custody where
  /-- There is only the runtime. -/
  | runtime
  /-- Both are owned, and these devices are formatted. -/
  | held (formatted : List Device)
  | running (formatted : List Device) (device : Device)
  | reaped (formatted : List Device) (device : Device)
  | releasing
  | released
  deriving DecidableEq

namespace Custody

/-- The device whose turn it is. -/
def turn : List Device → Option Device
  | [] => some .root
  | [.root] => some .esp
  | _ => none

/-- What an owner may do: one formatter at a time, the root's before the ESP's, each on
    what is synced; and nothing is given up while one may run. -/
def next : Custody → Event → Option Custody
  | s, .reading _ => some s
  | .runtime, .performed .create true => some (.held [])
  | .runtime, .performed .create false => some .runtime
  | .runtime, .performed .runtime _ => some .released
  | .held l, .performed .cutoff _ => some (.held l)
  | .held l, .performed (.command _) _ => some (.held l)
  | .held l, .performed (.input _) _ => some (.held l)
  | .held l, .performed (.spawn i) true =>
    if turn l = some i.device then
      some (.running l i.device)
    else
      none
  | .held l, .performed (.spawn i) false => if turn l = some i.device then some (.held l) else none
  | .running l d, .performed (.wait d') true => if d = d' then some (.reaped l d) else none
  | .running l d, .performed (.wait d') false => if d = d' then some (.running l d) else none
  | .running l d, .performed (.terminate d') true => if d = d' then some (.reaped l d) else none
  | .running l d, .performed (.terminate d') false => if d = d' then some (.running l d) else none
  | .reaped l d, .performed .sync true => some (.held (l ++ [d]))
  | .reaped l d, .performed .sync false => some (.reaped l d)
  | .held _, .performed .views _ => some .releasing
  | .reaped _ _, .performed .views _ => some .releasing
  | .releasing, .performed .close _ => some .releasing
  | .releasing, .performed .detach _ => some .releasing
  | .releasing, .performed .runtime _ => some .released
  | _, _ => none

end Custody

end Conglobate.Formatter.Execution
