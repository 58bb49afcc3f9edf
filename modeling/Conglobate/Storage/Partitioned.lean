import Conglobate.Disk.Probe

/- The root and ESP views above a snapshot (`storage/partitioned.rs`).

   `openViews` looks for a GPT disk and maps its partitions; if the device's data
   are no such disk, it maps the whole device. What the operating system answers
   (the open, the ioctl, the seek, the device mapper) is given by `Snapshot` and
   `Views`. Whether the device is partitioned is decided by its bytes alone, and a
   failed read is the failure of `openViews` (`open_decided`).

   Correspondence (Rust ↔ Lean):
     `PartitionedSnapshot::open`            ↔ `openViews`
     its `match` on `Disk::read`            ↔ `extents`
     `Mapping::create`, `activate`, `close` ↔ `Views`
     `NonZeroU64::new(..).expect(..)`       ↔ the panic in `view`
     `capacity`, `view`                     ↔ the same names -/
namespace Conglobate.PartitionedSnapshot

open Conglobate.Disk

/-- What opening a snapshot's device answers. -/
structure Snapshot where
  openReadOnly : Except ErrorKind Unit
  /-- `ioctl_blksszget` -/
  blockSize : Except ErrorKind Nat
  /-- `seek(SeekFrom::End(0))` -/
  length : Except ErrorKind Nat
  reader : Reader

/-- What the device mapper answers. -/
structure Views (μ : Type) where
  create : Partition → Except ErrorKind Unit
  activate : Partition → Except ErrorKind μ
  close : μ → Except ErrorKind Unit

inductive Error where
  | io (kind : ErrorKind)
  /-- "images require 4096-byte logical sectors" -/
  | sectors
  | disk (e : Disk.Error)
  /-- "{error}; root view cleanup: {cleanup}" -/
  | cleanup (error : Error) (cleanup : ErrorKind)
  deriving DecidableEq, Repr

def Error.kind : Error → ErrorKind
  | .io kind => kind
  | .sectors => .invalidData
  | .disk e => e.kind
  | .cleanup _ _ => .other

def capacity (snapshot : Snapshot) : Except Error Nat := do
  let blockSize ← snapshot.blockSize.mapError .io
  if blockSize ≠ 4096 then .error .sectors else snapshot.length.mapError .io

section

variable {μ : Type}

def view (views : Views μ) (partition : Partition) : Except (Fault Error) μ := do
  (views.create partition).mapError (fun kind => .error (.io kind))
  if partition.sectors = 0 then .error .panic
  else (views.activate partition).mapError (fun kind => .error (.io kind))

/-- The views of a disk; the root's is closed when the ESP's fails. -/
def mapViews (views : Views μ) (disk : Disk) : Except (Fault Error) (μ × Option μ) := do
  let root ← view views disk.root
  match disk.esp.mapM (view views) with
  | .ok esp => .ok (root, esp)
  | .error .panic => .error .panic
  | .error (.error e) =>
    match views.close root with
    | .ok () => .error (.error e)
    | .error kind => .error (.error (.cleanup e kind))

/-- The whole device, unpartitioned. -/
def wholeDevice (capacity : Nat) : Disk := ⟨⟨0, capacity / 512⟩, none⟩

/-- The extents to map: the disk's, or the whole device where the data are no disk. -/
def extents (capacity : Nat) : Except (Fault Disk.Error) Disk → Except (Fault Error) Disk
  | .ok disk => .ok disk
  | .error (.error e) =>
    if e.kind = .invalidData then
      .ok (wholeDevice capacity)
    else
      .error (.error (.disk e))
  | .error .panic => .error .panic

/-- With the accesses made. -/
def openViews (c : Carapace) (arch : Arch) (snapshot : Snapshot) (views : Views μ) :
    Except (Fault Error) (μ × Option μ) × List Access :=
  match snapshot.openReadOnly with
  | .error kind => (.error (.error (.io kind)), [])
  | .ok () =>
    match capacity snapshot with
    | .error e => (.error (.error e), [])
    | .ok capacity =>
      (extents capacity (Probe.read c snapshot.reader capacity
        (rootPartitionType arch) []).1 >>= mapViews views,
        (Probe.read c snapshot.reader capacity (rootPartitionType arch) []).2)

/-! What the data decide. -/

/-- The extents the bytes of a device give. -/
def decided (c : Carapace) (arch : Arch) (device : Bytes) : Disk :=
  match Disk.read c device device.length (rootPartitionType arch) with
  | .ok disk => disk
  | .error _ => wholeDevice device.length

theorem openViews_eq (c : Carapace) (arch : Arch) {snapshot : Snapshot} (views : Views μ) {n : Nat}
    (hopen : snapshot.openReadOnly = .ok ()) (hcapacity : capacity snapshot = .ok n) :
    openViews c arch snapshot views =
      (extents n (Probe.read c snapshot.reader n (rootPartitionType arch) []).1 >>= mapViews views,
        (Probe.read c snapshot.reader n (rootPartitionType arch) []).2) := by
  rw [openViews, hopen, hcapacity]

/-- Errors about the data all fall back. -/
theorem extents_decided (c : Carapace) (arch : Arch) {device : Bytes}
    (h : ∀ e, Disk.read c device device.length (rootPartitionType arch) = .error e →
    e.kind = .invalidData) :
    extents device.length ((Disk.read c device device.length
      (rootPartitionType arch)).mapError .error) =
      .ok (decided c arch device) := by
  rw [decided]
  cases hread : Disk.read c device device.length (rootPartitionType arch) with
  | ok disk => rfl
  | error e => exact if_pos (h e hread)

/-- **Probing is total.** Whatever the bytes of a device, and whatever its reader does
    outside them: the disk is read inside the device, without a panic, and with reads that
    do not fail every failure is `InvalidData`. So what is mapped is decided by the bytes
    alone. A read that fails with another kind fails the probe, and the opening, with it. -/
theorem open_decided (c : Carapace) (arch : Arch) (views : Views μ) (device : Bytes) :
    (∀ (reader : Reader) (rootType : Uuid), reader.Serves device →
      (∀ a ∈ (Probe.read c reader device.length rootType []).2, a.offset + a.length ≤
        device.length) ∧
      (Probe.read c reader device.length rootType []).1 ≠ .error .panic ∧
      (reader.Reliable device → ∀ e,
        (Probe.read c reader device.length rootType []).1 = .error (.error e) →
          e.kind = .invalidData)) ∧
    ∀ snapshot : Snapshot, snapshot.openReadOnly = .ok () → capacity snapshot = .ok device.length →
      (snapshot.reader.Reliable device →
        (openViews c arch snapshot views).1 = mapViews views (decided c arch device)) ∧
      (snapshot.reader.Serves device → ∀ a ∈ (openViews c arch snapshot views).2, ∀ kind,
        a.failed = some kind → kind ≠ .invalidData →
          ∃ e, (openViews c arch snapshot views).1 = .error (.error e) ∧ e.kind = kind) := by
  refine ⟨fun reader rootType hserves => ?_, fun snapshot hopen hcapacity =>
    ⟨fun hreliable => ?_, ?_⟩⟩
  · have hfollows := Probe.read_follows hserves c rootType
    refine ⟨?_, hfollows.no_panic [], fun hreliable e he => ?_⟩
    · obtain ⟨new, hlog, hanswered, -⟩ := hfollows []
      rw [hlog, List.nil_append]
      exact fun a ha => (hanswered a ha).inside
    · obtain ⟨hrun, herror⟩ := hfollows.reliable hreliable []
      rw [hrun] at he
      cases hread : Disk.read c device device.length rootType with
      | ok disk =>
        rw [hread] at he
        cases he
      | error e' =>
        rw [hread] at he
        cases he
        exact herror e hread
  · obtain ⟨hrun, herror⟩ :=
      (Probe.read_follows hreliable.serves c (rootPartitionType arch)).reliable hreliable []
    rw [openViews_eq c arch views hopen hcapacity, hrun, extents_decided c arch herror]
    rfl
  · intro hserves a ha kind hfailed hkind
    rw [openViews_eq c arch views hopen hcapacity] at ha ⊢
    obtain ⟨e, he, hk⟩ := (Probe.read_follows hserves c (rootPartitionType arch)).failed ha hfailed
    refine ⟨.disk e, ?_, hk⟩
    rw [he, extents, if_neg (by rw [hk]; exact hkind)]
    rfl

end

/-- A device that never fails. -/
def plainReader (device : Bytes) : Reader := fun _ offset length =>
  match device.readAt offset length with
  | some bytes => .ok bytes
  | none => .error .unexpectedEof

theorem plainReader_reliable (device : Bytes) : (plainReader device).Reliable device := by
  intro log offset length h
  rw [plainReader, Bytes.readAt_of_le h]

/-- The GPT signature, and nothing a header has. -/
def hostileHeader : Bytes := gptSignature.toList ++ Bytes.zeros 4088

/-- A device of thirteen blocks that begins like a GPT disk. -/
def hostileDevice : Bytes := Bytes.zeros 4096 ++ (hostileHeader ++ Bytes.zeros 45056)

theorem hostileHeader_length : hostileHeader.length = 4096 := by
  rw [hostileHeader, List.length_append, Bytes.zeros_length]
  rfl

theorem hostileDevice_length : hostileDevice.length = 53248 := by
  rw [hostileDevice, List.length_append, List.length_append, Bytes.zeros_length, Bytes.zeros_length,
    hostileHeader_length]

def sampleSnapshot : Snapshot :=
  ⟨.ok (), .ok 4096, .ok hostileDevice.length, plainReader hostileDevice⟩

def sampleViews : Views Partition :=
  ⟨fun _ => .ok (), fun partition => .ok partition, fun _ => .ok ()⟩

/-- Its header is refused, and the whole device is shown. -/
theorem open_decided_sample :
    (openViews ⟨2 ^ 20, by decide⟩ .x86_64 sampleSnapshot sampleViews).1 =
      .ok (⟨0, 104⟩, none) := by
  have hcapacity : capacity sampleSnapshot = .ok hostileDevice.length := by
    rw [capacity, sampleSnapshot, hostileDevice_length]
    rfl
  have h := ((open_decided ⟨2 ^ 20, by decide⟩ .x86_64 sampleViews hostileDevice).2 sampleSnapshot
    rfl hcapacity).1 (plainReader_reliable hostileDevice)
  have hblock : block hostileDevice 1 (.header .primary 1) = .ok hostileHeader := by
    have hread : hostileDevice.readAt 4096 4096 = some hostileHeader := by
      have hmiddle := Bytes.readAt_middle (Bytes.zeros 4096) hostileHeader (Bytes.zeros 45056)
      rwa [Bytes.zeros_length, hostileHeader_length] at hmiddle
    have hoffset : 1 * sectorSize = 4096 := rfl
    rw [block, hoffset, if_pos (by decide), hread]
  have hheader : ∃ e, header hostileDevice 1 .primary = .error e := by
    rw [header, hblock]
    exact ⟨_, rfl⟩
  obtain ⟨e, hheader⟩ := hheader
  have hread : Disk.read ⟨2 ^ 20, by decide⟩ hostileDevice hostileDevice.length
      (rootPartitionType .x86_64) = .error e := by
    rw [hostileDevice_length, Disk.read, if_neg (by decide), headers, hheader]
    rfl
  rw [h, decided, hread]
  dsimp only
  rw [hostileDevice_length]
  rfl

end Conglobate.PartitionedSnapshot
