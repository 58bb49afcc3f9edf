import Conglobate.Lib.Words
import Conglobate.Process.Reaper

/- Stopping a command's domain (`domain/mod.rs`, `domain/events.rs`,
   `domain/helper.rs`).

   The domain is a control group the helper joined, so everyone it made is in it. It is
   killed, watched until it is empty, and removed; then the helper is waited for, and
   then whoever was inherited.

   Correspondence (Rust ↔ Lean):
     `DomainEvents::try_from`              ↔ `domainEvents`
     `DomainWatch::wait_empty_until`       ↔ `waitEmpty`
     `CommandDomain::cancel`               ↔ `cancel`
     `ContainedHelper::finish_until`       ↔ `finishUntil`
     `cgroup.events`, as the kernel has it ↔ `eventsText` -/
namespace Conglobate.Domain

open Process Processes Effect

/-! `cgroup.events`. -/

def populatedWord : Text := "populated".toList

def populatedValue : Option Text → Except IoError Bool
  | some ['0'] => .ok false
  | some ['1'] => .ok true
  | _ => .error ⟨.other, "invalid cgroup populated value"⟩

/-- One line, after what the lines before it said. -/
def eventsLine (populated : Option Bool) (line : Text) : Except IoError (Option Bool) :=
  match Text.words line with
  | [] => .ok populated
  | word :: fields =>
    if word = populatedWord then do
      let value ← populatedValue fields.head?
      if 1 < fields.length ∨ populated.isSome then
        .error ⟨.other, "ambiguous cgroup populated value"⟩
      else .ok (some value)
    else .ok populated

def domainEvents (text : Text) : Except IoError Bool := do
  let populated ← (Text.lines text).foldlM eventsLine none
  match populated with
  | some value => .ok value
  | none => .error ⟨.other, "missing cgroup populated value"⟩

/-- What the kernel writes. -/
def eventsText (populated frozen : Bool) : Text :=
  "populated ".toList ++ (if populated then ['1'] else ['0']) ++ "\nfrozen ".toList ++
    (if frozen then ['1'] else ['0']) ++ ['\n']

theorem domainEvents_eventsText (populated frozen : Bool) :
    domainEvents (eventsText populated frozen) = .ok populated := by
  cases populated <;> cases frozen <;> rfl

/-! The domain. -/

section Cancel
variable (k : Kernel)

/-- Someone of the domain runs. -/
def populated (w : World) : Bool :=
  w.processes.entries.any (fun e => e.2.group = .domain && e.2.ended.isNone)

def readEvents : Run Text := do
  enter k
  let w ← get
  pure (eventsText (populated w) (k.frozen w.calls))

def waitEmpty (deadline : Nat) : Nat → Run Unit
  | 0 => throw unfinished
  | rounds + 1 => do
    enter k
    let text ← readEvents k
    if 4096 < text.length then throw ⟨.other, "oversized cgroup event value"⟩ else do
      let populated ← Effect.lift (domainEvents text)
      if populated then do
        remaining k deadline "command domain remains populated"
        poll k
        let w ← get
        if k.unavailable w.calls then throw ⟨.other, "cgroup event descriptor unavailable"⟩
        else waitEmpty deadline rounds
      else pure ()

/-- "Device or resource busy (os error 16)" -/
def busy : IoError := ⟨.other, "Device or resource busy (os error 16)"⟩

/-- A group with processes is not removed. -/
def removeDirectory : Run Unit := do
  enter k
  let w ← get
  if populated w then throw busy else set { w with directory := false }

def cancel (deadline : Nat) : Run Unit := do
  enter k
  let w ← get
  Effect.lift (k.lease w.calls)
  -- `cgroup.kill`, opened and written, whatever the deadline is
  enter k
  enter k
  modify (fun w => { w with killed := true })
  enter k
  waitEmpty k deadline k.rounds
  removeDirectory k

/-- The helper's status, and how many others were waited for. -/
def finishUntil (helper deadline : Nat) : Run (ExitStatus × Nat) := do
  cancel k deadline
  let status ← waitUntil k helper deadline k.rounds
  let others ← drain k deadline
  pure (status, others)

end Cancel

end Conglobate.Domain
