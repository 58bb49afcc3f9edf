import Conglobate.Output.Staging

/- Verified copies into staging, read by read (`output/mod.rs`, `cache/mod.rs`).

   A pending file stands at its final name from the start. It is filled from a reader
   that gives what it likes, is hashed on the way, and is removed again unless the
   declared size and digest, the sync and the keeping all come out right.

   Correspondence (Rust ↔ Lean):
     `impl Read`                            ↔ `Reader`
     the file system, with its failures     ↔ `Medium`
     the loop over `remaining`              ↔ `transfer`
     the read of one more byte and the hash ↔ `finish`
     both, from the start                   ↔ `stream`
     `pending_file`, its drop, `keep`       ↔ `withPending`, `discard`
     `store_verified`, `copy_blob`          ↔ `storeStream`, `copyStream`

   What is proved:
     1. `staged_verified` — a name is staged exactly if its copy succeeded, and then
        with the size and digest; nothing else in staging has changed;
     2. `storeStream_refines` — of a reader that delivers some bytes, where nothing
        fails, the staged outcome is the one `storeVerified` has for these bytes. -/
namespace Conglobate.Output

open Artifact Content

/-- A call gives bytes, at most as many as it asks for and none at the end, or fails. -/
structure Reader (σ : Type) where
  start : σ
  read : σ → Nat → Except IoError Bytes × σ
  bounded : ∀ s n bytes, (read s n).1 = .ok bytes → bytes.length ≤ n

/-- What becomes of the pending file. -/
structure Medium where
  /-- Opening may fail, and leave anything under the name. -/
  opening : Option (IoError × Option Bytes)
  /-- The writes, counted: one may fail behind some of its bytes. -/
  write : Nat → Option (IoError × Nat)
  sync : Option IoError
  keep : Option IoError
  removes : Bool

/-- A copy under way. -/
structure Transfer (σ : Type) where
  reader : σ
  written : Bytes
  hashed : Bytes
  remaining : Nat
  writes : Nat

section
variable {σ : Type}

/-- Bytes read were written and hashed. -/
def Transfer.next (t : Transfer σ) (reader : σ) (chunk : Bytes) : Transfer σ where
  reader := reader
  written := t.written ++ chunk
  hashed := t.hashed ++ chunk
  remaining := t.remaining - chunk.length
  writes := t.writes + 1

def Transfer.answer (t : Transfer σ) (r : Reader σ) :
    Except IoError Bytes × σ := r.read t.reader (min t.remaining 65536)

def transfer (m : Medium) (r : Reader σ) (truncated : String) (t : Transfer σ) :
    Except CacheError Unit × Transfer σ :=
  if t.remaining = 0 then (.ok (), t)
  else
    match _h : (t.answer r).1 with
    | .error e => (.error (.io e), { t with reader := (t.answer r).2 })
    | .ok [] => (.error (.invalid truncated), { t with reader := (t.answer r).2 })
    | .ok (b :: more) =>
      match m.write t.writes with
      | some (e, n) =>
        (.error (.io e), { t with reader := (t.answer r).2, written := t.written ++ (b :: more).take n })
      | none => transfer m r truncated (t.next (t.answer r).2 (b :: more))
termination_by t.remaining
decreasing_by
  simp only [Transfer.next, List.length_cons]
  omega

def finish (r : Reader σ) (sha256 : Sha256) (digest : Digest) (mismatch : String) (t : Transfer σ) :
    Except CacheError Unit :=
  match (r.read t.reader 1).1 with
  | .error e => .error (.io e)
  | .ok (_ :: _) => .error (.invalid mismatch)
  | .ok [] => if sha256 t.hashed ≠ digest.sha256 then .error (.invalid mismatch) else .ok ()

/-- What the copy comes to, and what it has written by then. -/
def stream (m : Medium) (r : Reader σ) (sha256 : Sha256) (digest : Digest) (size : UInt64)
    (truncated mismatch : String) :
    Except CacheError Unit × Bytes :=
  let run := transfer m r truncated ⟨r.start, [], [], size.toNat, 0⟩
  match run.1 with
  | .error e => (.error e, run.2.written)
  | .ok () => (finish r sha256 digest mismatch run.2, run.2.written)

/-- The pending file dropped. -/
def discard (m : Medium) (files : OrdMap Text Bytes) (name : Text) : OrdMap Text Bytes :=
  if m.removes then files.erase name else files

/-- What is left under a name that could not be opened. -/
def leave (files : OrdMap Text Bytes) (name : Text) (left : Option Bytes) : OrdMap Text Bytes :=
  match left with
  | none => files
  | some bytes => files.insert name bytes

/-- A pending file, filled and then kept or dropped. -/
def withPending (m : Medium) (files : OrdMap Text Bytes) (name : Text)
    (body : Except CacheError Unit × Bytes) :
    Except CacheError Unit × OrdMap Text Bytes :=
  match m.opening with
  | some (e, left) => (.error (.io e), discard m (leave files name left) name)
  | none =>
    match body.1 with
    | .error e => (.error e, discard m (files.insert name body.2) name)
    | .ok () =>
      match m.sync with
      | some e => (.error (.io e), discard m (files.insert name body.2) name)
      | none =>
        match m.keep with
        | some e => (.error (.io e), discard m (files.insert name body.2) name)
        | none => (.ok (), files.insert name body.2)

def storeStream (m : Medium) (files : OrdMap Text Bytes) (sha256 : Sha256) (r : Reader σ)
    (digest : Digest) (size : UInt64) :
    Except CacheError Unit × OrdMap Text Bytes :=
  withPending m files digest.hex
    (stream m r sha256 digest size "truncated produced scute" "produced scute content mismatch")

/-- The cache's file, once opened, is a length and a reader. -/
def copyStream (m : Medium) (files : OrdMap Text Bytes) (sha256 : Sha256)
    (file : Except CacheError (Nat × Reader σ)) (digest : Digest) (size : UInt64) :
    Except CacheError Unit × OrdMap Text Bytes :=
  withPending m files digest.hex <|
    match file with
    | .error e => (.error e, [])
    | .ok (length, r) =>
      if length ≠ size.toNat then (.error (.invalid "blob size mismatch"), [])
      else stream m r sha256 digest size "blob truncated during read" "blob content mismatch"

/-! The loop. -/

variable {m : Medium} {r : Reader σ} {truncated mismatch : String} {sha256 : Sha256}
    {digest : Digest} {size : UInt64}

/-- **What was written was hashed**, and is as much as was to be copied. -/
theorem transfer_sound (t : Transfer σ) {t' : Transfer σ} (hsame : t.written = t.hashed)
    (h : transfer m r truncated t = (.ok (), t')) :
    t'.written = t'.hashed ∧ t'.written.length = t.written.length + t.remaining := by
  rw [transfer] at h
  split at h
  · rename_i hdone
    cases h
    exact ⟨hsame, by rw [hdone, Nat.add_zero]⟩
  · split at h
    · cases h
    · cases h
    · rename_i b more hread
      have hbound := r.bounded _ _ _ hread
      split at h
      · cases h
      · have hnext : (t.next (t.answer r).2 (b :: more)).written =
            (t.next (t.answer r).2 (b :: more)).hashed := by
          rw [Transfer.next, hsame]
        obtain ⟨hwritten, hlength⟩ := transfer_sound _ hnext h
        refine ⟨hwritten, ?_⟩
        simp only [Transfer.next, List.length_append, List.length_cons] at hbound hlength
        omega
termination_by t.remaining
decreasing_by
  simp only [Transfer.next, List.length_cons]
  omega

/-- **A copy that succeeds has the size and the digest.** -/
theorem stream_sound {bytes : Bytes}
    (h : stream m r sha256 digest size truncated mismatch = (.ok (), bytes)) :
    bytes.length = size.toNat ∧ sha256 bytes = digest.sha256 := by
  unfold stream at h
  generalize hrun : transfer m r truncated ⟨r.start, [], [], size.toNat, 0⟩ = run at h
  obtain ⟨result, t⟩ := run
  cases result with
  | error e => cases h
  | ok u =>
    obtain ⟨hwritten, hlength⟩ := transfer_sound _ rfl hrun
    obtain ⟨hfinish, rfl⟩ := Prod.mk.inj h
    refine ⟨by simpa using hlength, ?_⟩
    simp only [finish] at hfinish
    split at hfinish
    · cases hfinish
    · cases hfinish
    · split at hfinish
      · cases hfinish
      · rename_i hhash
        rw [hwritten]
        exact Decidable.of_not_not hhash

/-! The pending file. -/

/-- What an attempt to stage a blob leaves. -/
structure Verified (m : Medium) (files : OrdMap Text Bytes) (sha256 : Sha256) (digest : Digest)
    (size : UInt64) (outcome : Except CacheError Unit × OrdMap Text Bytes) : Prop where
  /-- After a success the name has the declared bytes. -/
  content : outcome.1 = .ok () →
    ∃ bytes, outcome.2.get? digest.hex = some bytes ∧ bytes.length = size.toNat ∧
      sha256 bytes = digest.sha256
  /-- After any other end it is not there, unless it could not be removed. -/
  staged : m.removes = true → ((∃ bytes, outcome.2.get? digest.hex = some bytes) ↔
    outcome.1 = .ok ())
  /-- Nothing else has changed. -/
  frame : ∀ name, name ≠ digest.hex → outcome.2.get? name = files.get? name

theorem get?_discard {files : OrdMap Text Bytes} {name other : Text} (h : other ≠ name) :
    (discard m files name).get? other = files.get? other := by
  rw [discard]
  split
  · rw [OrdMap.get?_erase, if_neg h]
  · rfl

theorem discarded {files : OrdMap Text Bytes} {name : Text} (h : m.removes = true) :
    (discard m files name).get? name = none := by
  rw [discard, if_pos h, OrdMap.get?_erase, if_pos rfl]

/-- **A failed attempt leaves nothing**, whatever stood under the name. -/
theorem verified_failed {files held : OrdMap Text Bytes} {e : CacheError}
    (hheld : ∀ name, name ≠ digest.hex → held.get? name = files.get? name) :
    Verified m files sha256 digest size (.error e, discard m held digest.hex) where
  content h := by cases h
  staged h := by
    refine iff_of_false (fun hstaged => ?_) (fun hok => by cases hok)
    obtain ⟨bytes, hbytes⟩ := hstaged
    have hnone : (discard m held digest.hex).get? digest.hex = none := discarded h
    rw [hnone] at hbytes
    cases hbytes
  frame name hname := (get?_discard hname).trans (hheld name hname)

theorem withPending_verified {files : OrdMap Text Bytes} {body : Except CacheError Unit × Bytes}
    (hbody : ∀ bytes, body = (.ok (), bytes) → bytes.length = size.toNat ∧
    sha256 bytes = digest.sha256) :
    Verified m files sha256 digest size (withPending m files digest.hex body) := by
  obtain ⟨result, bytes⟩ := body
  have hinsert : ∀ name, name ≠ digest.hex → (files.insert digest.hex bytes).get? name =
      files.get? name := by
    intro name hname
    rw [OrdMap.get?_insert, if_neg hname]
  rw [withPending]
  split
  · rename_i e left _
    apply verified_failed
    intro name hname
    cases left with
    | none => rfl
    | some bytes => exact (OrdMap.get?_insert _ _ _ _).trans (if_neg hname)
  · cases result with
    | error e => exact verified_failed hinsert
    | ok u =>
      dsimp only
      split
      · exact verified_failed hinsert
      · split
        · exact verified_failed hinsert
        · have hself : (files.insert digest.hex bytes).get? digest.hex = some bytes := by
            rw [OrdMap.get?_insert, if_pos rfl]
          exact ⟨fun _ => ⟨bytes, hself, hbody bytes rfl⟩, fun _ => iff_of_true
            ⟨bytes, hself⟩ rfl, hinsert⟩

/-- **A staged blob exists only when verified**, from any reader, any file of the cache,
    any earlier staging and whatever fails. -/
theorem staged_verified (m : Medium) (files : OrdMap Text Bytes) (sha256 : Sha256) (r : Reader σ)
    (file : Except CacheError (Nat × Reader σ)) (digest : Digest) (size : UInt64) :
    Verified m files sha256 digest size (storeStream m files sha256 r digest size) ∧
      Verified m files sha256 digest size (copyStream m files sha256 file digest size) := by
  constructor
  · exact withPending_verified fun bytes h => stream_sound h
  · apply withPending_verified
    intro bytes h
    cases file with
    | error e => cases h
    | ok opened =>
      obtain ⟨length, r⟩ := opened
      dsimp only at h
      split at h
      · cases h
      · exact stream_sound h

/-! Readers that deliver. -/

/-- Calls give the bytes in pieces, and nothing behind them. -/
def Delivers (r : Reader σ) : Nat → σ → Bytes → Prop
  | 0, _, _ => False
  | calls + 1, s, bytes =>
    ∀ n, 0 < n → ∃ chunk rest, bytes = chunk ++ rest ∧ (chunk = [] → bytes = []) ∧
      (r.read s n).1 = .ok chunk ∧ (bytes ≠ [] → Delivers r calls (r.read s n).2 rest)

/-- **A delivering reader is copied** up to the size, or found too short. -/
theorem transfer_delivers (hwrite : ∀ k, m.write k = none) (calls : Nat) (t : Transfer σ)
    {bytes : Bytes} (h : Delivers r calls t.reader bytes) :
    if bytes.length < t.remaining then (transfer m r truncated t).1 = .error (.invalid truncated)
    else ∃ t', transfer m r truncated t = (.ok (), t') ∧ t'.written = t.written ++ bytes.take t.remaining ∧
      t'.hashed = t.hashed ++ bytes.take t.remaining ∧
        ∃ left, Delivers r left t'.reader (bytes.drop t.remaining) := by
  induction calls generalizing t bytes with
  | zero => exact absurd h id
  | succ calls ih =>
    by_cases hdone : t.remaining = 0
    · rw [hdone, if_neg (Nat.not_lt_zero _), transfer, if_pos hdone]
      exact ⟨t, rfl, by simp, by simp, calls + 1, h⟩
    · obtain ⟨chunk, rest, rfl, hnil, hread, hrest⟩ := h (min t.remaining 65536) (by omega)
      have hbound := r.bounded _ _ _ hread
      cases chunk with
      | nil =>
        obtain rfl : rest = [] := hnil rfl
        have hshort : ([] ++ [] : Bytes).length < t.remaining := by
          show 0 < t.remaining
          omega
        rw [if_pos hshort, transfer, if_neg hdone]
        split
        · rename_i hanswer
          exact absurd (hanswer.symm.trans hread) (by simp)
        · rfl
        · rename_i hanswer
          exact absurd (hanswer.symm.trans hread) (by simp)
      | cons b more =>
        have hstep : transfer m r truncated t = transfer m r truncated
            (t.next (t.answer r).2 (b :: more)) := by
          rw [transfer, if_neg hdone]
          split
          · rename_i hanswer
            exact absurd (hanswer.symm.trans hread) (by simp)
          · rename_i hanswer
            exact absurd (hanswer.symm.trans hread) (by simp)
          · rename_i hanswer
            obtain ⟨rfl, rfl⟩ := List.cons.inj (Except.ok.inj (hanswer.symm.trans hread))
            rw [hwrite]
        have hnext := ih (t.next (t.answer r).2 (b :: more)) (hrest (by simp))
        have hlength : (b :: more).length ≤ t.remaining := Nat.le_trans hbound (Nat.min_le_left _ _)
        have hremaining : (t.next (t.answer r).2 (b :: more)).remaining =
          t.remaining - (b :: more).length := rfl
        have htake : (b :: more ++ rest).take t.remaining = (b :: more) ++
            rest.take (t.remaining - (b :: more).length) := by
          rw [List.take_append, List.take_of_length_le hlength]
        have hdrop : (b :: more ++ rest).drop t.remaining =
            rest.drop (t.remaining - (b :: more).length) := by
          rw [List.drop_append, List.drop_eq_nil_of_le hlength, List.nil_append]
        rw [hstep, htake, hdrop]
        by_cases hless : rest.length < (t.next (t.answer r).2 (b :: more)).remaining
        · rw [if_pos hless] at hnext
          rw [hremaining] at hless
          rw [if_pos (by rw [List.length_append]; omega)]
          exact hnext
        · rw [if_neg hless] at hnext
          rw [hremaining] at hless
          rw [if_neg (by rw [List.length_append]; omega)]
          obtain ⟨t', hrun, hwritten, hhashed, hleft⟩ := hnext
          exact ⟨t', hrun, hwritten.trans (List.append_assoc _ _ _),
            hhashed.trans (List.append_assoc _ _ _), hleft⟩

/-- What a stream of a delivering reader comes to. -/
theorem stream_delivers (hwrite : ∀ k, m.write k = none) {calls : Nat} {bytes : Bytes}
    (h : Delivers r calls r.start bytes) :
    (stream m r sha256 digest size truncated mismatch).1 =
        (if bytes.length < size.toNat then .error (.invalid truncated)
        else if size.toNat < bytes.length ∨ sha256 bytes ≠ digest.sha256 then
          .error (.invalid mismatch)
        else .ok ()) ∧
      ((stream m r sha256 digest size truncated mismatch).1 = .ok () →
        (stream m r sha256 digest size truncated mismatch).2 = bytes.take size.toNat) := by
  have hrun := @transfer_delivers _ m r truncated hwrite calls ⟨r.start, [], [], size.toNat, 0⟩ _ h
  simp only [List.nil_append] at hrun
  rw [stream]
  by_cases hshort : bytes.length < size.toNat
  · rw [if_pos hshort] at hrun ⊢
    simp only [hrun]
    exact ⟨trivial, fun h => by cases h⟩
  · rw [if_neg hshort] at hrun ⊢
    obtain ⟨t, ht, hwritten, hhashed, left, hleft⟩ := hrun
    simp only [ht]
    refine ⟨?_, fun _ => hwritten⟩
    cases left with
    | zero => exact absurd hleft id
    | succ left =>
      obtain ⟨chunk, rest, hchunk, hnil, hread, -⟩ := hleft 1 Nat.one_pos
      simp only [finish, hread]
      cases chunk with
      | nil =>
        -- nothing is left behind the size
        have hall : bytes.length ≤ size.toNat := List.drop_eq_nil_iff.mp (hnil rfl)
        rw [hhashed, List.take_of_length_le hall]
        by_cases hhash : sha256 bytes = digest.sha256
        · simp [hhash, hall]
        · simp [hhash]
      | cons b more =>
        have hlong : size.toNat < bytes.length := by
          by_contra hle
          rw [List.drop_eq_nil_of_le (Nat.not_lt.mp hle)] at hchunk
          cases hchunk
        simp [hlong]

/-- **Read by read, staging is what it is at once**: of a reader that delivers some
    bytes, where nothing fails, they are staged exactly if they pass the check. -/
theorem storeStream_refines (w : Files) {files : OrdMap Text Bytes} (hopen : m.opening = none)
    (hwrite : ∀ k, m.write k = none) (hsync : m.sync = none) (hkeep : m.keep = none) {calls : Nat}
    {bytes : Bytes} (h : Delivers r calls r.start bytes) :
    (storeStream m files w.sha256 r digest size).1 = checkStream w bytes digest size ∧
      (checkStream w bytes digest size = .ok () →
        (storeStream m files w.sha256 r digest size).2 = files.insert digest.hex bytes) := by
  obtain ⟨hresult, hwritten⟩ :=
    @stream_delivers _ m r "truncated produced scute" "produced scute content mismatch" w.sha256
    digest size hwrite _ _ h
  rw [← checkStream] at hresult
  have hlength : checkStream w bytes digest size = .ok () → bytes.length ≤ size.toNat := by
    intro hcheck
    rw [checkStream] at hcheck
    split at hcheck
    · cases hcheck
    · split at hcheck
      · cases hcheck
      · rename_i hmismatch
        exact Nat.not_lt.mp (not_or.mp hmismatch).1
  rw [storeStream, withPending, hopen]
  dsimp only
  generalize stream m r w.sha256 digest size "truncated produced scute"
    "produced scute content mismatch" = body at hresult hwritten
  obtain ⟨result, written⟩ := body
  obtain rfl : result = checkStream w bytes digest size := hresult
  cases hcheck : checkStream w bytes digest size with
  | error e => exact ⟨rfl, fun h => by cases h⟩
  | ok u =>
    have hbytes : written = bytes := by
      rw [← List.take_of_length_le (hlength hcheck)]
      exact hwritten hcheck
    rw [hsync, hkeep, hbytes]
    exact ⟨rfl, fun _ => rfl⟩

end

end Conglobate.Output
