import StratifiedHashTree.FileDevice
import StratifiedHashTree.Hosting
import StratifiedHashTree.Isolation

/-!
# Slates that may only read

A buffer in memory can be shared: one slate writes to it, and others are opened on it for reading
only, at any time and at any cache level.

Each of these behaves as if it had a copy of the slate for itself, made when it was opened. It shows
the generation of that time, whatever has been appended since; it refuses to write, and neither the
buffer nor what it shows has changed then; and opened again, it shows what there is now. The slate
that writes does not notice them (`StratifiedHashTree.replicas_copies`). There is one thing it must
not do: cut what another one shows.
-/

namespace StratifiedHashTree

open Outcome
open Handles (bufferOf)

variable {w : ℕ} {hw : w ≤ 64} {checksum : Checksum} {H : HashFn w} {L m n : ℕ} {v : ℕ → Bytes}

/-! ### Storages that were opened for reading -/

namespace BlockStorage

section Opened

variable {D : BlockDevice} {K : Disk D}

theorem reader_opened (ro : Bool) (buffer : Bytes) (p q : ℕ) :
    reader D ⟨K.state ro buffer p, q⟩ = (.ok (K.state true buffer 0), ⟨K.state ro buffer p, q⟩) :=
  reader_eq (K.clone_eq ro buffer p)

theorem scan_opened (hw : w ≤ 64) (ro : Bool) (p q : ℕ) {log : List (Entry w)} {k : ℕ} (count : ℕ)
    {κ : Type} (callback : ScanFn (Entry w) κ) (a : κ) (hk : k < log.length)
    (hroom : Room checksum log) (hlaid : Laid checksum log) :
    scan D checksum (content checksum (log.take k)).length count callback
        (a, ⟨K.state ro (content checksum log) p, q⟩) =
      ((scanList callback ((log.drop k).take count) a).1,
        ((scanList callback ((log.drop k).take count) a).2,
          ⟨K.state ro (content checksum log) p, q⟩)) := by
  obtain ⟨p', hscan⟩ := scanReader_content K hw true 0 count callback a hk hroom hlaid
  rw [scan, Prog.bind_ok (Prog.onSnd_run (reader_opened ro _ p q) a), Prog.bind_ok (Prog.get_run _)]
  simp only [hscan]
  rw [Prog.bind_ok (Prog.set_run _ _)]
  rfl

/-- **The content of a log serves it**, wherever the cursor is and whatever may be written. -/
theorem serves_opened (hw : w ≤ 64) (hfits : Fits (logStorage K hw checksum) H v n) (ro : Bool)
    (p q : ℕ) : Serves (blockStorage (w := w) D checksum)
      (· = ⟨K.state ro (content checksum (history (logStorage K hw checksum) H v n)) p, q⟩) H v
      (positionOf (logStorage K hw checksum) H v) n where
  read := by
    rintro _ rfl k h1 h2
    have hk : k - 1 < (history (logStorage K hw checksum) H v n).length := by
      rw [length_history]
      omega
    have hclone : D.cloneDevice
        (K.state ro (content checksum (history (logStorage K hw checksum) H v n)) p) =
          (.ok (K.state true (content checksum (history (logStorage K hw checksum) H v n) ++ []) 0),
            K.state ro (content checksum (history (logStorage K hw checksum) H v n)) p) := by
      rw [List.append_nil]
      exact K.clone_eq ro _ p
    let self : BlockStorage D :=
      ⟨K.state ro (content checksum (history (logStorage K hw checksum) H v n)) p, q⟩
    have hread : read D checksum _ self = _ := read_eq K hw hk hfits.laid hclone
    rw [take_history _ H v (by omega), history_getElem, Nat.sub_add_cancel h1] at hread
    exact ⟨_, hread, rfl⟩
  scan := by
    rintro _ rfl k count h1 h2 h3 κ callback a
    have hk : k - 1 < (history (logStorage K hw checksum) H v n).length := by
      rw [length_history]
      omega
    have hscan := scan_opened (K := K) hw ro p q count callback a hk hfits.room hfits.laid
    rw [take_history _ H v (by omega), take_drop_history h1 h3] at hscan
    exact ⟨_, hscan, rfl⟩

theorem readable_opened (hw : w ≤ 64) (hfits : Fits (logStorage K hw checksum) H v n) (ro : Bool)
    (p q : ℕ) : Readable (blockStorage (w := w) D checksum)
      ⟨K.state ro (content checksum (history (logStorage K hw checksum) H v n)) p, q⟩ H v
      (positionOf (logStorage K hw checksum) H v) n where
  reader := by
    change (do
      let _ ← reader D
      return () : Run (BlockStorage D) Unit) _ = _
    rw [Prog.bind_ok (reader_opened ro _ p q)]
    rfl
  read k h1 h2 := by
    obtain ⟨_, hread, rfl⟩ := (serves_opened hw hfits ro p q).read rfl k h1 h2
    exact hread

/-- Looking for the last entry. -/
theorem last_opened (hw : w ≤ 64) (hfits : Fits (logStorage K hw checksum) H v n) (ro : Bool)
    (p q : ℕ) :
    last D checksum
        ⟨K.state ro (content checksum (history (logStorage K hw checksum) H v n)) p, q⟩ =
      (.ok ((history (logStorage K hw checksum) H v n).getLast?,
          (content checksum (history (logStorage K hw checksum) H v n)).length),
        ⟨K.state ro (content checksum (history (logStorage K hw checksum) H v n))
            (content checksum (history (logStorage K hw checksum) H v n)).length,
          (content checksum (history (logStorage K hw checksum) H v n)).length⟩) := by
  rw [last, Prog.bind_ok (onDevice_eq (boot_opened K ro hw hfits.room hfits.laid p) q)]
  rfl

end Opened

/-- A storage on a buffer. -/
def fromBuffer (buffer : Bytes) (readOnly : Bool) : BlockStorage memoryDevice :=
  { device := MemoryDevice.withBuffer buffer readOnly, position := 0 }

/-- The error of a storage on a buffer that may only be read. -/
def notPermitted : Failure Error := .err MemoryDevice.permissionDenied

section ReadOnly

variable (buffer : Bytes) (c q : Position)

/-- Nothing is written, -/
theorem put_readOnly (hw : w ≤ 64) (checksum : Checksum) {e : Entry w} {p : Position}
    (he : e.Placed p) :
    ∃ c' q', put memoryDevice checksum p e ⟨MemoryDevice.disk.state true buffer c, q⟩ =
      (.error notPermitted, ⟨MemoryDevice.disk.state true buffer c', q'⟩) := by
  -- the cursor may have moved, but that is all
  obtain ⟨c', hmove⟩ : ∃ c', moveTo memoryDevice p ⟨MemoryDevice.disk.state true buffer c, q⟩ =
      (.ok (), ⟨MemoryDevice.disk.state true buffer c', p⟩) := by
    rw [moveTo, Prog.bind_ok (Prog.get_run _)]
    by_cases hp : q = p
    · exact ⟨c, by rw [if_neg (not_not.mpr hp), ← hp]; rfl⟩
    · exact ⟨p, by rw [if_pos hp]; rfl⟩
  have hwrite : memoryDevice.write (record checksum e) (MemoryDevice.disk.state true buffer c') =
      (.error notPermitted, MemoryDevice.disk.state true buffer c') := rfl
  have hflush := flushBuf_of_error (record_ne_nil checksum e) hwrite
  have hdata : buffered memoryDevice (writeData checksum e)
      (MemoryDevice.disk.state true buffer c') =
        (.error notPermitted, MemoryDevice.disk.state true buffer c') := by
    rw [buffered_writeData hw he (flushOrDrop_err hflush hflush)]
    rfl
  refine ⟨c', p, ?_⟩
  rw [put, Prog.bind_ok hmove, Prog.bind_ok (Prog.get_run _), Prog.liftM_eq, debugAssert_of rfl,
    Prog.lift_ok_bind, Prog.bind_error (onDevice_eq hdata p)]

/-- and nothing is cut. -/
theorem truncate_readOnly (p : Position) :
    truncate memoryDevice p ⟨MemoryDevice.disk.state true buffer c, q⟩ =
      (.error notPermitted, ⟨MemoryDevice.disk.state true buffer c, q⟩) := by
  have hcut : onDevice (memoryDevice.truncate p) ⟨MemoryDevice.disk.state true buffer c, q⟩ =
      (.error notPermitted, ⟨MemoryDevice.disk.state true buffer c, q⟩) := rfl
  rw [truncate, Prog.bind_error hcut]

end ReadOnly

end BlockStorage

/-! ### A slate that may only read -/

/-- What is in the buffer when the first `n` payloads have been appended. -/
abbrev written (hw : w ≤ 64) (checksum : Checksum) (H : HashFn w) (v : ℕ → Bytes) (n : ℕ) : Bytes :=
  BlockStorage.content checksum (history (memoryLog hw checksum) H v n)

/-- A slate on a buffer. -/
abbrev BufferSlate (hw : w ≤ 64) (checksum : Checksum) := SlateOn (.blockMemory hw checksum)

/-- **A slate that may only read**, on the content of the first `n` payloads. It shows the first `m`
of them. -/
structure ReadOnly (hw : w ≤ 64) (checksum : Checksum) (H : HashFn w) (L : ℕ) (v : ℕ → Bytes)
    (m n : ℕ) (t : BufferSlate hw checksum) : Prop where
  le : m ≤ n
  fits : Fits (memoryLog hw checksum) H v n
  position_eq : t.position = positionOf (memoryLog hw checksum) H v (m + 1)
  storage_eq : ∃ c q : Position, t.storage =
    (⟨MemoryDevice.disk.state true (written hw checksum H v n) c, q⟩ : BlockStorage memoryDevice)
  represents : Represents H v (positionOf (memoryLog hw checksum) H v) L m t.cache

namespace ReadOnly

variable {t : BufferSlate hw checksum} {fuel : ℕ}

theorem buffer_eq (h : ReadOnly hw checksum H L v m n t) :
    bufferOf t.storage = written hw checksum H v n := by
  obtain ⟨c, q, hst⟩ := h.storage_eq
  rw [hst]
  rfl

theorem shows (h : ReadOnly hw checksum H L v m n t) :
    t.Shows H L v (positionOf (memoryLog hw checksum) H v) m where
  lt := Nat.lt_of_succ_lt (h.fits.mono h.le).lt
  represents := h.represents
  reader := by
    obtain ⟨c, q, hst⟩ := h.storage_eq
    rw [hst]
    exact (BlockStorage.readable_opened (K := MemoryDevice.disk) hw h.fits true c q).reader
  serves := by
    obtain ⟨c, q, hst⟩ := h.storage_eq
    rw [hst]
    exact (BlockStorage.serves_opened (K := MemoryDevice.disk) hw h.fits true c q).mono h.le

/-- **It refuses to append**, and shows what it has shown before. -/
theorem append_eq (h : ReadOnly hw checksum H L v m n t) (value : Bytes) :
    ∃ t', Slate.append H value t =
        (.error (if MAX_PAYLOAD_SIZE < value.length then .err (.tooLargePayload value.length)
          else BlockStorage.notPermitted), t') ∧ ReadOnly hw checksum H L v m n t' := by
  by_cases hlarge : MAX_PAYLOAD_SIZE < value.length
  · refine ⟨t, ?_, h⟩
    rw [if_pos hlarge, Slate.append, if_pos hlarge]
    rfl
  · rw [if_neg hlarge]
    -- the value is the next one of a sequence that is the same up to here
    have hv : ∀ k, 1 ≤ k → k ≤ m → v k = Function.update v (m + 1) value k := fun k _ hk => by
      rw [Function.update_of_ne (by omega)]
    have hvalue : Function.update v (m + 1) value (m + 1) = value := Function.update_self ..
    have hfits := (h.fits.mono h.le).congr hv
    have hrep := h.represents.congr hv fun _ _ hk => positionOf_congr (S := memoryLog hw checksum)
      (H := H) hv (hk.trans (Nat.le_succ m))
    have hposition := h.position_eq.trans (positionOf_congr (S := memoryLog hw checksum) (H := H) hv
      (Nat.le_refl _))
    have hle : (Function.update v (m + 1) value (m + 1)).length ≤ MAX_PAYLOAD_SIZE := by
      rw [hvalue]
      exact Nat.le_of_not_lt hlarge
    obtain ⟨next, -, happend⟩ := append_of_put hrep hposition hfits.lt hle
    obtain ⟨c, q, hst⟩ := h.storage_eq
    obtain ⟨c', q', hput⟩ := BlockStorage.put_readOnly (written hw checksum H v n) c q hw checksum
      (hfits.placed (Nat.le_add_left 1 m) (Nat.le_refl _) hle)
    rw [← hst] at hput
    have hrefused := happend.of_error hput
    rw [hvalue] at hrefused
    exact ⟨_, hrefused, h.le, h.fits, h.position_eq, ⟨c', q', rfl⟩, h.represents⟩

/-- **It refuses to cut** what it shows. -/
theorem truncate_eq (h : ReadOnly hw checksum H L v m n t) (hf : INDEX_SIZE < fuel) (i : ℕ) :
    Slate.truncate fuel i t =
      (if 1 ≤ i ∧ i ≤ m then .error BlockStorage.notPermitted else .ok false, t) := by
  by_cases hi : 1 ≤ i ∧ i ≤ m
  · obtain ⟨c, q, hst⟩ := h.storage_eq
    have hcut : Slate.onStorage ((memoryLog hw checksum).truncate
        (positionOf (memoryLog hw checksum) H v i)) t =
          (.error BlockStorage.notPermitted, t) := by
      refine SlateOf.onStorage_keep ?_
      rw [hst]
      exact BlockStorage.truncate_readOnly _ c q _
    rw [h.shows.truncate_eq hf hi.1 hi.2, if_pos hi, Prog.bind_error hcut]
  · rw [h.shows.truncate_no hf (by omega), if_neg hi]

/-- **Opened again, it shows everything** there is. -/
theorem reopen (hfits : Fits (memoryLog hw checksum) H v n) (L : ℕ) :
    ∃ t : BufferSlate hw checksum, Slate.withCacheLevel (S := (memoryLog hw checksum).toStorage)
        (BlockStorage.fromBuffer (written hw checksum H v n) true) L = .ok t ∧
      ReadOnly hw checksum H L v n n t := by
  have hlast : (memoryLog hw checksum).last
      (BlockStorage.fromBuffer (written hw checksum H v n) true) = _ :=
    BlockStorage.last_opened (K := MemoryDevice.disk) hw hfits true 0 0
  obtain ⟨c, hload, hc⟩ := loadMetadata_of_readable (L := L) hfits hlast
    (BlockStorage.readable_opened (K := MemoryDevice.disk) hw hfits true _ _)
  let buffer := written hw checksum H v n
  let storage : BlockStorage memoryDevice :=
    ⟨MemoryDevice.disk.state true buffer buffer.length, buffer.length⟩
  refine ⟨⟨buffer.length, storage, c⟩, ?_, Nat.le_refl n, hfits, rfl, ⟨_, _, rfl⟩, hc⟩
  unfold Slate.withCacheLevel
  rw [hload]
  rfl

end ReadOnly

/-! ### A buffer that is shared -/

/-- A storage, on the buffer as it is now. -/
def BlockStorage.onBuffer (buffer : Bytes) (self : BlockStorage memoryDevice) :
    BlockStorage memoryDevice :=
  let device : MemoryDevice := self.device
  { self with device := ({ device with buffer := buffer } : MemoryDevice) }

/-- A slate, on the buffer as it is now. -/
def BufferSlate.onBuffer (buffer : Bytes) (self : BufferSlate hw checksum) :
    BufferSlate hw checksum :=
  { self with storage := BlockStorage.onBuffer buffer self.storage }

/-- **A shared buffer**: the slate that writes to it, and those that may only read. -/
structure Shared (ι : Type) (hw : w ≤ 64) (checksum : Checksum) where
  writer : BufferSlate hw checksum
  readers : ι → BufferSlate hw checksum

/-- A command to one of the slates. -/
inductive Turn (ι : Type) (w : ℕ) : Type 1 where
  | write (command : Command w)
  | read (i : ι) (command : Command w)

namespace Shared

variable {ι : Type} [DecidableEq ι]

/-- **A slate takes its turn**, on the buffer as the others have left it. -/
def take (H : HashFn w) (fuel : ℕ) (turn : Turn ι w) (self : Shared ι hw checksum) :
    Sight w Bytes × Shared ι hw checksum :=
  match turn with
  | .write command =>
    let result := Slate.watch bufferOf (memoryLog hw checksum).reopen H fuel command self.writer
    (result.1, { self with writer := result.2 })
  | .read i command =>
    let reader := BufferSlate.onBuffer (bufferOf self.writer.storage) (self.readers i)
    let result := Slate.watch bufferOf
      (fun storage => BlockStorage.fromBuffer (bufferOf storage) true) H fuel command reader
    (result.1, { writer := BufferSlate.onBuffer (bufferOf result.2.storage) self.writer
                 readers := Function.update self.readers i result.2 })

/-- What is answered from a copy of the slate that writes. -/
def answerFrom (H : HashFn w) (fuel : ℕ) (writer copy : BufferSlate hw checksum) :
    Command w → Response w × BufferSlate hw checksum
  | .append value =>
    (.appended (.error (if MAX_PAYLOAD_SIZE < value.length then
      .err (.tooLargePayload value.length) else BlockStorage.notPermitted)), copy)
  | .truncate i =>
    (.truncated (if 1 ≤ i ∧ i ≤ copy.n then .error BlockStorage.notPermitted else .ok false), copy)
  | .reopen level => Slate.execute (memoryLog hw checksum).reopen H fuel (.reopen level) writer
  | .ask c => Slate.execute (memoryLog hw checksum).reopen H fuel (.ask c) copy
  | .askAt revision c =>
    Slate.execute (memoryLog hw checksum).reopen H fuel (.askAt revision c) copy

/-- A slate takes its turn, as if each of those that may only read had a copy of its own. -/
def takeCopied (H : HashFn w) (fuel : ℕ) (turn : Turn ι w) (self : Shared ι hw checksum) :
    Sight w Bytes × Shared ι hw checksum :=
  match turn with
  | .write command =>
    let result := Slate.watch bufferOf (memoryLog hw checksum).reopen H fuel command self.writer
    (result.1, { self with writer := result.2 })
  | .read i command =>
    let result := answerFrom H fuel self.writer (self.readers i) command
    (⟨result.1, result.2.root, bufferOf self.writer.storage⟩,
      { self with readers := Function.update self.readers i result.2 })

/-- The slate that writes does not run out of memory, and does not cut what another one shows. -/
def Careful (H : HashFn w) (fuel : ℕ) (turn : Turn ι w) (self : Shared ι hw checksum) : Prop :=
  match turn with
  | .write command =>
    Slate.NoPanic (memoryLog hw checksum).reopen H fuel command self.writer ∧
      ∀ k, command = .truncate k → ∀ i, k = 0 ∨ (self.readers i).n < k
  | .read _ _ => True

/-- **Slates that may only read, and their copies**: they show the same generation. -/
def Copied (H : HashFn w) (s t : Shared ι hw checksum) : Prop :=
  s.writer = t.writer ∧ ∃ n v, (∃ L, SlateOf (memoryLog hw checksum) H L v n t.writer) ∧
    ∀ i, ∃ L m, SlateOf (memoryLog hw checksum) H L v m (t.readers i) ∧
      ReadOnly hw checksum H L v m n
        (BufferSlate.onBuffer (written hw checksum H v n) (s.readers i))

end Shared

/-! ### What a turn does -/

/-- Reading goes on when other payloads have come behind those that are shown. -/
theorem ReadOnly.onBuffer {v' : ℕ → Bytes} {n' : ℕ} {t : BufferSlate hw checksum}
    (h : ReadOnly hw checksum H L v m n t) (heq : ∀ k, 1 ≤ k → k ≤ m → v k = v' k) (hle : m ≤ n')
    (hfits : Fits (memoryLog hw checksum) H v' n') :
    ReadOnly hw checksum H L v' m n' (BufferSlate.onBuffer (written hw checksum H v' n') t) where
  le := hle
  fits := hfits
  position_eq := h.position_eq.trans
    (positionOf_congr (S := memoryLog hw checksum) (H := H) heq (Nat.le_refl _))
  storage_eq := by
    obtain ⟨c, q, hst⟩ := h.storage_eq
    refine ⟨c, q, ?_⟩
    change BlockStorage.onBuffer _ t.storage = _
    rw [hst]
    rfl
  represents := h.represents.congr heq fun _ _ hk =>
    positionOf_congr (S := memoryLog hw checksum) (H := H) heq (hk.trans (Nat.le_succ m))

/-- **A command to the slate that writes** leaves the payloads of before, those behind a cut
apart. -/
theorem SlateOf.execute_keeps {S : LogStorage (Entry w) Entry.Placed} {s : Slate S.toStorage}
    {fuel : ℕ} (h : SlateOf S H L v n s) (hf : INDEX_SIZE < fuel) (command : Command w)
    (hpanic : Slate.NoPanic S.reopen H fuel command s) :
    ∃ L' n' v', SlateOf S H L' v' n' (Slate.execute S.reopen H fuel command s).2 ∧
      ∀ m ≤ n, (∀ k, command = .truncate k → k = 0 ∨ m < k) →
        m ≤ n' ∧ ∀ k, 1 ≤ k → k ≤ m → v k = v' k := by
  have hsame : ∀ m ≤ n, (∀ k, command = .truncate k → k = 0 ∨ m < k) →
      m ≤ n ∧ ∀ k, 1 ≤ k → k ≤ m → v k = v k := fun m hm _ => ⟨hm, fun _ _ _ => rfl⟩
  cases command with
  | append value =>
    have hv : ∀ k, 1 ≤ k → k ≤ n → v k = Function.update v (n + 1) value k := fun k _ hk => by
      rw [Function.update_of_ne (by omega)]
    have hvalue : Function.update v (n + 1) value (n + 1) = value := Function.update_self ..
    rcases (h.congr hv).append_cases hvalue.symm with ⟨s', h1, h2⟩ | ⟨p, s', h1⟩ | ⟨e, h1⟩
    · rw [Slate.execute, h1]
      exact ⟨L, n + 1, _, h2, fun m hm _ => ⟨hm.trans (Nat.le_succ n), fun k hk1 hk2 =>
        hv k hk1 (hk2.trans hm)⟩⟩
    · exact absurd (congrArg Response.appended (congrArg Prod.fst h1)) (hpanic p)
    · rw [Slate.execute, h1]
      exact ⟨L, n, v, h, hsame⟩
  | truncate i =>
    by_cases hi : i = 0 ∨ n < i
    · rw [Slate.execute, h.truncate_no hf hi]
      exact ⟨L, n, v, h, hsame⟩
    · rw [not_or, Nat.not_lt] at hi
      obtain ⟨s', h1, h2⟩ := h.truncate_ok hf (Nat.pos_of_ne_zero hi.1) hi.2
      rw [Slate.execute, h1]
      refine ⟨L, i - 1, v, h2, fun m _ hcut => ⟨?_, fun _ _ _ => rfl⟩⟩
      exact Nat.le_sub_one_of_lt ((hcut i rfl).resolve_left hi.1)
  | reopen level =>
    obtain ⟨s', h1, h2⟩ := h.reopen level
    simp only [Slate.execute, h1]
    exact ⟨level, n, v, h2, hsame⟩
  | ask c =>
    rw [Slate.execute, (h.shows.askNow_eq h.shows fuel c).2.1]
    exact ⟨L, n, v, h, hsame⟩
  | askAt revision c =>
    rw [Slate.execute, (h.shows.askAt_eq h.shows hf revision c).2.1]
    exact ⟨L, n, v, h, hsame⟩

/-- **A command to a slate that may only read** is answered from the copy. -/
theorem ReadOnly.execute_eq {writer copy t : BufferSlate hw checksum} {fuel Lw : ℕ}
    (h : ReadOnly hw checksum H L v m n t) (hcopy : SlateOf (memoryLog hw checksum) H L v m copy)
    (hwriter : SlateOf (memoryLog hw checksum) H Lw v n writer) (hf : INDEX_SIZE < fuel)
    (command : Command w) :
    let result := Slate.execute (fun storage => BlockStorage.fromBuffer (bufferOf storage) true) H
      fuel command t
    let right := Shared.answerFrom H fuel writer copy command
    result.1 = right.1 ∧ ∃ L' m', SlateOf (memoryLog hw checksum) H L' v m' right.2 ∧
      ReadOnly hw checksum H L' v m' n result.2 := by
  have hn : copy.n = m := hcopy.n_eq
  cases command with
  | append value =>
    obtain ⟨t', happend, h'⟩ := h.append_eq value
    simp only [Slate.execute, Shared.answerFrom, happend]
    exact ⟨trivial, L, m, hcopy, h'⟩
  | truncate i =>
    simp only [Slate.execute, Shared.answerFrom, h.truncate_eq hf i, hn]
    exact ⟨trivial, L, m, hcopy, h⟩
  | reopen level =>
    obtain ⟨t', hopen, h'⟩ := ReadOnly.reopen hwriter.fits level
    obtain ⟨s', hs, hs'⟩ := hwriter.reopen level
    simp only [Slate.execute, Shared.answerFrom, h.buffer_eq, hopen, hs]
    exact ⟨trivial, level, n, hs', h'⟩
  | ask c =>
    obtain ⟨h1, h2, h3⟩ := h.shows.askNow_eq hcopy.shows fuel c
    simp only [Slate.execute, Shared.answerFrom, h1, h2, h3]
    exact ⟨trivial, L, m, hcopy, h⟩
  | askAt revision c =>
    obtain ⟨h1, h2, h3⟩ := h.shows.askAt_eq hcopy.shows hf revision c
    simp only [Slate.execute, Shared.answerFrom, h1, h2, h3]
    exact ⟨trivial, L, m, hcopy, h⟩

namespace Shared

variable {ι : Type} [DecidableEq ι] {s t : Shared ι hw checksum} {fuel : ℕ}

/-- **Each turn ends as it would with copies.** -/
theorem Copied.take (h : Copied H s t) (hf : INDEX_SIZE < fuel) (turn : Turn ι w)
    (hcareful : Careful H fuel turn t) :
    (Shared.take H fuel turn s).1 = (takeCopied H fuel turn t).1 ∧
      Copied H (Shared.take H fuel turn s).2 (takeCopied H fuel turn t).2 := by
  obtain ⟨hwriter, n, v, ⟨Lw, hw'⟩, hreaders⟩ := h
  cases turn with
  | write command =>
    simp only [Shared.take, takeCopied, hwriter]
    refine ⟨trivial, rfl, ?_⟩
    obtain ⟨hpanic, hcut⟩ := hcareful
    obtain ⟨L', n', v', h1, h2⟩ := hw'.execute_keeps hf command hpanic
    refine ⟨n', v', ⟨L', h1⟩, fun i => ?_⟩
    obtain ⟨L, m, hcopy, hread⟩ := hreaders i
    obtain ⟨hle, heq⟩ := h2 m hread.le fun k hk => by
      have h3 := hcut k hk i
      rwa [show (t.readers i).n = m from hcopy.n_eq] at h3
    exact ⟨L, m, hcopy.congr heq, hread.onBuffer heq hle h1.fits⟩
  | read i command =>
    obtain ⟨L, m, hcopy, hread⟩ := hreaders i
    have hbuffer : bufferOf t.writer.storage = written hw checksum H v n := by
      rw [hw'.storage_eq]
      rfl
    obtain ⟨h1, L', m', h2, h3⟩ := hread.execute_eq hcopy hw' hf command
    have hroot := congrArg Cache.root (h3.represents.unique h2.represents)
    have hafter := h3.buffer_eq
    simp only [Shared.take, takeCopied, Slate.watch, hwriter, hbuffer, hafter]
    refine ⟨?_, ?_, n, v, ⟨Lw, hw'⟩, fun j => ?_⟩
    · exact congrArg₂ (fun response root => (⟨response, root, _⟩ : Sight w Bytes)) h1 hroot
    · -- the buffer is as it was
      rw [← hbuffer]
      rfl
    · by_cases hj : j = i
      · subst hj
        simp only [Function.update_self]
        exact ⟨L', m', h2, h3.onBuffer (fun _ _ _ => rfl) h3.le h3.fits⟩
      · simp only [Function.update_of_ne hj]
        exact hreaders j

omit [DecidableEq ι] in
/-- Slates are opened on the buffer of another one. -/
theorem exists_copied {vs : List Bytes} {writer : BufferSlate hw checksum}
    (h : Reaches (.blockMemory hw checksum) H L vs writer) (levels : ι → ℕ) :
    ∃ copies readers : ι → BufferSlate hw checksum,
      (∀ i, Slate.withCacheLevel ((memoryLog hw checksum).reopen writer.storage) (levels i) =
        .ok (copies i)) ∧
      (∀ i, Slate.withCacheLevel (S := (memoryLog hw checksum).toStorage)
        (BlockStorage.fromBuffer (bufferOf writer.storage) true) (levels i) = .ok (readers i)) ∧
      Copied H ⟨writer, readers⟩ ⟨writer, copies⟩ := by
  have hs := h.slateOf
  have hbuffer : bufferOf writer.storage = written hw checksum H (payload vs) vs.length := by
    rw [hs.storage_eq]
    rfl
  have hfits : Fits (memoryLog hw checksum) H (payload vs) vs.length := hs.fits
  choose copies hcopies hcopies' using fun i => hs.reopen (levels i)
  choose readers hreaders hreaders' using fun i => ReadOnly.reopen hfits (levels i)
  rw [hbuffer]
  exact ⟨copies, readers, hcopies, hreaders, rfl, vs.length, payload vs, ⟨L, hs⟩, fun i =>
    ⟨levels i, vs.length, hcopies' i,
      (hreaders' i).onBuffer (fun _ _ _ => rfl) (Nat.le_refl _) hfits⟩⟩

end Shared

/-- **A billion turns are careful**, if the slate that writes only appends. -/
theorem Shared.always_careful {ι : Type} [DecidableEq ι] {fuel : ℕ} (hf : INDEX_SIZE < fuel) :
    ∀ (turns : List (Turn ι w)) {L : ℕ} {vs : List Bytes} {s : Shared ι hw checksum},
      Reaches (.blockMemory hw checksum) H L vs s.writer → vs.length + turns.length < 2 ^ 30 →
      (∀ k, Turn.write (.truncate k) ∉ turns) →
      Always (takeCopied H fuel) (Careful H fuel) turns s
  | [], _, _, _, _, _, _ => trivial
  | .write command :: turns, _, vs, s, h, hlen, hcut => by
    rw [List.length_cons] at hlen
    obtain ⟨hpanic, L', vs', h2, h3⟩ := h.execute hf (by omega) command
    refine ⟨⟨hpanic, fun k hk => ?_⟩, ?_⟩
    · exact absurd (List.mem_cons.mpr (.inl (congrArg Turn.write hk.symm))) (hcut k)
    · exact always_careful hf turns h2 (by omega) fun k hk => hcut k (List.mem_cons_of_mem _ hk)
  | .read i command :: turns, _, vs, s, h, hlen, hcut => by
    rw [List.length_cons] at hlen
    refine ⟨trivial, ?_⟩
    exact always_careful hf turns h (by omega) fun k hk => hcut k (List.mem_cons_of_mem _ hk)

/-- **Slates that may only read are as good as copies.** Any number of slates is opened for reading
on the buffer of a slate that can be reached, and all of them are used in turn, command by command.
Each of them answers as a copy of the slate that writes, made when it was opened, which refuses to
append and to cut; opened again, it is a new copy. What is in the buffer, and what the slate that
writes answers, is as if there were no others. -/
theorem replicas_copies {vs : List Bytes} {writer : BufferSlate hw checksum}
    (h : Reaches (.blockMemory hw checksum) H L vs writer) {fuel : ℕ} (hf : INDEX_SIZE < fuel)
    {ι : Type} [DecidableEq ι] (levels : ι → ℕ) :
    ∃ copies readers : ι → BufferSlate hw checksum,
      (∀ i, Slate.withCacheLevel ((memoryLog hw checksum).reopen writer.storage) (levels i) =
        .ok (copies i)) ∧
      (∀ i, Slate.withCacheLevel (S := (memoryLog hw checksum).toStorage)
        (BlockStorage.fromBuffer (bufferOf writer.storage) true) (levels i) = .ok (readers i)) ∧
      ∀ turns : List (Turn ι w),
        Always (Shared.takeCopied H fuel) (Shared.Careful H fuel) turns ⟨writer, copies⟩ →
        (runAll (Shared.take H fuel) turns ⟨writer, readers⟩).1 =
          (runAll (Shared.takeCopied H fuel) turns ⟨writer, copies⟩).1 := by
  obtain ⟨copies, readers, h1, h2, h3⟩ := Shared.exists_copied h levels
  refine ⟨copies, readers, h1, h2, fun turns hcareful => ?_⟩
  exact (runAll_eq (R := Shared.Copied H) (fun turn s t h hg => h.take hf turn hg) turns _ _ h3
    hcareful).1

/-- Two slates read what is appended to. -/
def readingTurns : List (Turn Bool 1) :=
  [.write (.append [1]), .read true (.ask (.get 1)), .read true (.reopen 2),
    .write (.append [2, 2]), .read true (.ask (.get 1)), .read true (.append [3]),
    .read true (.truncate 1), .read false (.reopen 0), .write (.append [4]),
    .read false (.askAt 2 (.getSample 1)), .read false (.truncate 7), .write (.reopen 0)]

theorem replicas_copies_two :
    ∃ (writer : SlateOn tinyBlock) (copies readers : Bool → BufferSlate one_le_64 fun _ => 7),
      openNew tinyBlock 1 = .ok writer ∧
      (∀ i, Slate.withCacheLevel ((memoryLog one_le_64 fun _ => 7).reopen writer.storage) 1 =
        .ok (copies i)) ∧
      (∀ i, Slate.withCacheLevel (S := (memoryLog one_le_64 fun _ => 7).toStorage)
        (BlockStorage.fromBuffer (bufferOf writer.storage) true) 1 = .ok (readers i)) ∧
      (runAll (Shared.take byteSum 65) readingTurns ⟨writer, readers⟩).1 =
        (runAll (Shared.takeCopied byteSum 65) readingTurns ⟨writer, copies⟩).1 := by
  have hf : INDEX_SIZE < 65 := by decide
  obtain ⟨writer, hwriter, -⟩ := openNew_eq tinyBlock byteSum 1 (payload [])
  have hnew : Reaches tinyBlock byteSum 1 [] writer := .new hwriter
  obtain ⟨copies, readers, hcopies, hreaders, h⟩ := replicas_copies hnew hf fun _ : Bool => 1
  refine ⟨writer, copies, readers, hwriter, hcopies, hreaders, h readingTurns ?_⟩
  exact Shared.always_careful hf _ hnew (by decide) fun k => by simp [readingTurns]

end StratifiedHashTree
