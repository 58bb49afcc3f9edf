import Conglobate.Disk.Layout
import Conglobate.Plan.Basic

/- The formats a root may have (`formatter/profile.rs`, `fat32.rs`): the checks a
   plan's format passes before anything is written, and the disk it needs. -/
namespace Conglobate.Formatter

open Plan

/-- A FAT32 filesystem on a 4 KiB-sector ESP: between 257 MiB and 1 TiB. -/
structure Fat32Format where
  size : FilesystemSize
  bounds : 257 * 2 ^ 20 ≤ size.bytes ∧ size.bytes ≤ 2 ^ 40

def Fat32Format.tryFrom (size : FilesystemSize) : Except IoError Fat32Format :=
  if h : 257 * 2 ^ 20 ≤ size.bytes ∧ size.bytes ≤ 2 ^ 40 then .ok ⟨size, h⟩
  else .error (.invalidInput "ESP must be between 257 MiB and 1 TiB for 4 KiB-sector FAT32")

structure Ext4Format where
  size : FilesystemSize
  label : Text
  esp : Option FilesystemSize

namespace Ext4Format

def ofFormat (spec : Format) : Ext4Format := ⟨spec.size, spec.label, spec.esp⟩

def espFormat (f : Ext4Format) : Except IoError (Option Fat32Format) :=
  f.esp.mapM Fat32Format.tryFrom

def layout (c : Carapace) (f : Ext4Format) : Except IoError (Disk.Layout c) :=
  if f.size.bytes < 16 * 2 ^ 20 ∨ f.label.utf8.length > 16 ∨ '\x00' ∈ f.label then
    .error (.invalidInput "ext4 requires at least 16 MiB and a label of at most 16 bytes without NUL")
  else do
    let esp ← f.espFormat
    Disk.Layout.new c f.size.bytes (esp.map (fun e => e.size.bytes))

end Ext4Format

end Conglobate.Formatter
