import Mathlib.Data.Int.Notation
import Mathlib.Tactic.Ring
import StratifiedHashTree.Storage

/-!
# Block devices

The trait `BlockDevice` of `storage.rs` with the operations of `Read`, `Write` and `Seek`
it builds on, as a record of operations over a state, and the device in memory of
`storage/memory.rs`.

A device may read or write less than it is asked to. What the storage uses are the loops
of the standard library around single calls: `StratifiedHashTree.readExact`,
`StratifiedHashTree.writeAll` and, for what is in the buffer of a `BufWriter`,
`StratifiedHashTree.flushBuf`. The devices themselves have nothing to flush. Buffered
readers are left out: they hand the same bytes over in the same order, and the loops below
already allow for any cuts between them.
-/

namespace StratifiedHashTree

open Outcome

/-! ### Signed positions -/

/-- A `u64` as an `i64`. -/
def toI64 (p : ℕ) : ℤ := if p < 2 ^ 63 then p else p - 2 ^ 64

/-- An `i64` as a `u64`. -/
def toU64 (z : ℤ) : ℕ := (z % 2 ^ 64).toNat

/-- Addition of `i64`. -/
def addI64 (a b : ℤ) : Result ℤ :=
  if -2 ^ 63 ≤ a + b ∧ a + b < 2 ^ 63 then .ok (a + b) else panic .overflow

theorem toI64_of_lt {p : ℕ} (h : p < 2 ^ 63) : toI64 p = p := if_pos h

theorem toU64_natCast {p : ℕ} (h : p < 2 ^ 64) : toU64 p = p := by
  rw [toU64, Int.emod_eq_of_lt (by omega) (by exact_mod_cast h), Int.toNat_natCast]

theorem addI64_of_lt {a b : ℤ} (h1 : 0 ≤ a + b) (h2 : a + b < 2 ^ 63) :
    addI64 a b = .ok (a + b) := if_pos ⟨by omega, h2⟩

/-- Where a seek goes. -/
inductive SeekFrom where
  /-- Counted from the start. -/
  | start (p : ℕ)
  /-- Counted from the end. -/
  | fromEnd (d : ℤ)
  /-- Counted from the current position. -/
  | current (d : ℤ)

/-- A block device. -/
structure BlockDevice where
  State : Type
  /-- Reads at most so many bytes. -/
  read : ℕ → Run State Bytes
  /-- Writes some of the bytes; returns how many. -/
  write : Bytes → Run State ℕ
  /-- Moves the cursor; returns where it is. -/
  seek : SeekFrom → Run State Position
  /-- Cuts the content; whether anything was cut. -/
  truncate : Position → Run State Bool
  /-- Opens another cursor on the content. -/
  cloneDevice : Run State State

namespace BlockDevice

/-- The position of the cursor. -/
def streamPosition (D : BlockDevice) : Run D.State Position := D.seek (.current 0)

end BlockDevice

/-! ### Loops around single calls -/

section Loops

variable {σ : Type}

/-- The end of the content in the middle of a read. -/
def unexpectedEof : Error := .io .unexpectedEof "failed to fill whole buffer"

/-- A device that accepts nothing. -/
def writeZero : Error := .io .writeZero "failed to write whole buffer"

/-- The loop of `StratifiedHashTree.readExact`; every round reads a byte or fails. -/
def readExactFrom (read : ℕ → Run σ Bytes) : ℕ → ℕ → Run σ Bytes
  | _, 0 => return []
  | 0, _ + 1 => fun s => (.error .outOfFuel, s)
  | fuel + 1, k + 1 => do
    let bytes ← read (k + 1)
    if bytes.length = 0 then
      Prog.err unexpectedEof
    else do
      let rest ← readExactFrom read fuel (k + 1 - bytes.length)
      return bytes ++ rest

/-- Reads so many bytes. -/
def readExact (read : ℕ → Run σ Bytes) (k : ℕ) : Run σ Bytes := readExactFrom read k k

/-- The loop of `StratifiedHashTree.writeAll`; every round writes a byte or fails. -/
def writeAllFrom (write : Bytes → Run σ ℕ) : ℕ → Bytes → Run σ Unit
  | _, [] => return ()
  | 0, _ :: _ => fun s => (.error .outOfFuel, s)
  | fuel + 1, b :: bs => do
    let n ← write (b :: bs)
    if n = 0 then
      Prog.err writeZero
    else
      writeAllFrom write fuel ((b :: bs).drop n)

/-- Writes all of the bytes. -/
def writeAll (write : Bytes → Run σ ℕ) (bytes : Bytes) : Run σ Unit :=
  writeAllFrom write bytes.length bytes

/-- A device that accepts nothing of what is in a buffer. -/
def writeZeroBuffered : Error := .io .writeZero "failed to write the buffered data"

/-- The loop of `StratifiedHashTree.flushBuf`; every round hands over a byte or fails. -/
def flushBufFrom (write : Bytes → Run σ ℕ) : ℕ → Run (Bytes × σ) Unit
  | 0 => fun s => if s.1 = [] then (.ok (), s) else (.error .outOfFuel, s)
  | fuel + 1 => do
    let s ← Prog.get
    if s.1 = [] then
      return ()
    else do
      let n ← Prog.onSnd (write s.1)
      if n = 0 then
        Prog.err writeZeroBuffered
      else do
        Prog.modify fun s => (s.1.drop n, s.2)
        flushBufFrom write fuel

/-- `BufWriter::flush_buf`: hands over what is in the buffer. What the device has accepted
is not in the buffer any more, also when it fails after that. -/
def flushBuf (write : Bytes → Run σ ℕ) : Run (Bytes × σ) Unit := fun s =>
  flushBufFrom write s.1.length s

/-- A `BufWriter` that is dropped flushes what is left in its buffer; an error is lost. -/
def dropBuf (write : Bytes → Run σ ℕ) : Run (Bytes × σ) Unit := fun s =>
  match flushBuf write s with
  | (.error (.err _), s') => (.ok (), s')
  | result => result

/-- A write that is accepted at once. -/
theorem writeAll_of_write {write : Bytes → Run σ ℕ} {bytes : Bytes} {s s' : σ} (hne : bytes ≠ [])
    (h : write bytes s = (.ok bytes.length, s')) : writeAll write bytes s = (.ok (), s') := by
  cases bytes with
  | nil => exact absurd rfl hne
  | cons b bs =>
    rw [writeAll, List.length_cons, writeAllFrom, Prog.bind_ok h,
      if_neg (by rw [List.length_cons]; omega), List.drop_length]
    cases bs.length with
    | zero => rfl
    | succ n => rfl

/-- A buffer that is accepted at once. -/
theorem flushBuf_of_write {write : Bytes → Run σ ℕ} {bytes : Bytes} {s s' : σ} (hne : bytes ≠ [])
    (h : write bytes s = (.ok bytes.length, s')) :
    flushBuf write (bytes, s) = (.ok (), ([], s')) := by
  obtain ⟨b, bs, rfl⟩ := List.exists_cons_of_ne_nil hne
  have hrest : ∀ fuel, flushBufFrom write fuel (([] : Bytes), s') = (.ok (), ([], s')) := by
    intro fuel
    cases fuel with
    | zero => rfl
    | succ fuel => rfl
  rw [flushBuf, List.length_cons, flushBufFrom, Prog.bind_ok (Prog.get_run _), if_neg hne,
    Prog.bind_ok (Prog.onSnd_run h _), if_neg (by rw [List.length_cons]; omega),
    Prog.bind_ok (Prog.modify_run _ _)]
  simp only [List.drop_length]
  exact hrest _

/-- A buffer of which nothing is accepted is as it was. -/
theorem flushBuf_of_error {write : Bytes → Run σ ℕ} {bytes : Bytes} {s s' : σ} {f : Failure Error}
    (hne : bytes ≠ []) (h : write bytes s = (.error f, s')) :
    flushBuf write (bytes, s) = (.error f, (bytes, s')) := by
  obtain ⟨b, bs, rfl⟩ := List.exists_cons_of_ne_nil hne
  rw [flushBuf, List.length_cons, flushBufFrom, Prog.bind_ok (Prog.get_run _), if_neg hne,
    Prog.bind_error (Prog.onSnd_run h _)]

/-- A buffer of which some bytes are accepted, and no more after that. -/
theorem flushBuf_of_partial {write : Bytes → Run σ ℕ} {bytes : Bytes} {k : ℕ} {s s' s'' : σ}
    {f : Failure Error} (hk : k + 1 < bytes.length) (h : write bytes s = (.ok (k + 1), s'))
    (hrest : write (bytes.drop (k + 1)) s' = (.error f, s'')) :
    flushBuf write (bytes, s) = (.error f, (bytes.drop (k + 1), s'')) := by
  have hne : bytes ≠ [] := List.ne_nil_of_length_pos (by omega)
  have hne' : bytes.drop (k + 1) ≠ [] := by
    rw [Ne, List.drop_eq_nil_iff]
    omega
  obtain ⟨fuel, hfuel⟩ : ∃ fuel, bytes.length = fuel + 1 + 1 := ⟨bytes.length - 2, by omega⟩
  rw [flushBuf, hfuel, flushBufFrom, Prog.bind_ok (Prog.get_run _), if_neg hne,
    Prog.bind_ok (Prog.onSnd_run h _), if_neg (Nat.succ_ne_zero k),
    Prog.bind_ok (Prog.modify_run _ _), flushBufFrom, Prog.bind_ok (Prog.get_run _), if_neg hne',
    Prog.bind_error (Prog.onSnd_run hrest _)]

/-- A read that is answered at once. -/
theorem readExact_of_read {read : ℕ → Run σ Bytes} {bytes : Bytes} {s s' : σ} (hne : bytes ≠ [])
    (h : read bytes.length s = (.ok bytes, s')) :
    readExact read bytes.length s = (.ok bytes, s') := by
  obtain ⟨k, hk⟩ : ∃ k, bytes.length = k + 1 :=
    Nat.exists_eq_succ_of_ne_zero fun h0 => hne (List.length_eq_zero_iff.mp h0)
  rw [readExact, hk, readExactFrom, ← hk, Prog.bind_ok h, if_neg (by omega), Nat.sub_self]
  cases k with
  | zero => rw [readExactFrom]; simp
  | succ k => rw [readExactFrom]; simp

/-- Reading nothing. -/
theorem readExact_zero (read : ℕ → Run σ Bytes) (s : σ) : readExact read 0 s = (.ok [], s) := rfl

end Loops

/-! ### Little-endian numbers -/

/-- A number in so many bytes, the lowest first. -/
def leBytes : ℕ → ℕ → Bytes
  | 0, _ => []
  | k + 1, n => UInt8.ofNat n :: leBytes k (n / 256)

/-- The number in some bytes. -/
def ofLeBytes : Bytes → ℕ
  | [] => 0
  | b :: bs => b.toNat + 256 * ofLeBytes bs

@[simp] theorem length_leBytes (k n : ℕ) : (leBytes k n).length = k := by
  induction k generalizing n with
  | zero => rfl
  | succ k ih => rw [leBytes, List.length_cons, ih]

/-- Reading back what was written. -/
theorem ofLeBytes_leBytes {k n : ℕ} (h : n < 256 ^ k) : ofLeBytes (leBytes k n) = n := by
  induction k generalizing n with
  | zero =>
    rw [pow_zero] at h
    rw [leBytes, ofLeBytes]
    omega
  | succ k ih =>
    rw [pow_succ] at h
    rw [leBytes, ofLeBytes, ih (by omega), UInt8.toNat_ofNat']
    omega

/-! ### The device in memory -/

/-- `MemoryDevice`: a cursor on a shared buffer. -/
structure MemoryDevice where
  readOnly : Bool
  buffer : Bytes
  position : Position
  deriving DecidableEq

/-- The content after writing at a position: a gap before it is filled with zeros. -/
def overwrite (content : Bytes) (p : ℕ) (bytes : Bytes) : Bytes :=
  (content ++ List.replicate (p - content.length) 0).take p ++ bytes ++
    content.drop (p + bytes.length)

/-- Writing at the end. -/
theorem overwrite_end (content bytes : Bytes) :
    overwrite content content.length bytes = content ++ bytes := by
  rw [overwrite, Nat.sub_self, List.replicate_zero, List.append_nil, List.take_length,
    List.drop_of_length_le (by omega), List.append_nil]

/-- The length after writing within the content, or at its end. -/
theorem length_overwrite {content : Bytes} {p : ℕ} (bytes : Bytes) (h : p ≤ content.length) :
    (overwrite content p bytes).length = max content.length (p + bytes.length) := by
  rw [overwrite, List.length_append, List.length_append, List.length_take, List.length_append,
    List.length_replicate, List.length_drop]
  omega

namespace MemoryDevice

/-- The largest buffer. -/
def MAX_CAPACITY : ℕ := 2 ^ 63 - 1

/-- The error of a write to a device that was opened for reading. -/
def permissionDenied : Error := .io .permissionDenied "this memory device is read-only"

/-- A new device. -/
def new : MemoryDevice := { readOnly := false, buffer := [], position := 0 }

/-- A device on a buffer. -/
def withBuffer (buffer : Bytes) (readOnly : Bool) : MemoryDevice :=
  { readOnly := readOnly, buffer := buffer, position := 0 }

def read (k : ℕ) : Run MemoryDevice Bytes := fun self =>
  let bytes := (self.buffer.drop self.position).take k
  (.ok bytes, { self with position := self.position + bytes.length })

def write (bytes : Bytes) : Run MemoryDevice ℕ := fun self =>
  if self.readOnly then
    (err permissionDenied, self)
  else if MAX_CAPACITY < self.position + bytes.length then
    (panic .capacity, self)
  else
    (.ok bytes.length, { self with
      buffer := overwrite self.buffer self.position bytes
      position := self.position + bytes.length })

def seek (pos : SeekFrom) : Run MemoryDevice Position := do
  let self ← Prog.get
  let p ← match pos with
    | .start p => (.ok p : Result ℕ)
    | .current d => (addI64 (toI64 self.position) d).map toU64
    | .fromEnd d => (addI64 (toI64 self.buffer.length) d).map toU64
  Prog.set { self with position := p }
  return p

def truncate (position : Position) : Run MemoryDevice Bool := fun self =>
  if self.readOnly then
    (err permissionDenied, self)
  else if position < self.buffer.length then
    (.ok true, { self with buffer := self.buffer.take position, position := position })
  else
    (.ok false, self)

/-- A clone is for reading. -/
def cloneDevice : Run MemoryDevice MemoryDevice := fun self =>
  (.ok { readOnly := true, buffer := self.buffer, position := 0 }, self)

end MemoryDevice

/-- The device in memory. -/
def memoryDevice : BlockDevice where
  State := MemoryDevice
  read := MemoryDevice.read
  write := MemoryDevice.write
  seek := MemoryDevice.seek
  truncate := MemoryDevice.truncate
  cloneDevice := MemoryDevice.cloneDevice

/-! ### Devices that keep what is written

What the storage needs of a device: it has a content and a cursor, writes go to the end of
the content when the cursor is there, up to the largest buffer, and the content can be cut.
Where a cut leaves the cursor is left open: in memory it moves to the new end, on a file it
stays where it was. -/

/-- **A device that keeps its content.** The state with a content and a cursor is a
function of the two, and of whether the device was opened for reading only. -/
structure Disk (D : BlockDevice) where
  state : Bool → Bytes → Position → D.State
  content : D.State → Bytes
  content_eq : ∀ (ro : Bool) (buffer : Bytes) (p : ℕ), content (state ro buffer p) = buffer
  seek_start : ∀ (ro : Bool) (buffer : Bytes) (p q : ℕ),
    D.seek (.start q) (state ro buffer p) = (.ok q, state ro buffer q)
  seek_end : ∀ (ro : Bool) {buffer : Bytes} (p : ℕ), buffer.length < 2 ^ 63 →
    D.seek (.fromEnd 0) (state ro buffer p) = (.ok buffer.length, state ro buffer buffer.length)
  seek_back : ∀ (ro : Bool) (buffer : Bytes) {p d : ℕ}, d ≤ p → p < 2 ^ 63 →
    D.seek (.current (-(d : ℤ))) (state ro buffer p) = (.ok (p - d), state ro buffer (p - d))
  read_eq : ∀ (ro : Bool) {buffer bytes post : Bytes} {p : ℕ}, buffer.drop p = bytes ++ post →
    D.read bytes.length (state ro buffer p) = (.ok bytes, state ro buffer (p + bytes.length))
  write_end : ∀ {buffer bytes : Bytes}, buffer.length + bytes.length ≤ MemoryDevice.MAX_CAPACITY →
    D.write bytes (state false buffer buffer.length) =
      (.ok bytes.length, state false (buffer ++ bytes) (buffer ++ bytes).length)
  /-- What does not fit is a panic, or an error that changes nothing. -/
  write_full : ∀ {buffer bytes : Bytes}, MemoryDevice.MAX_CAPACITY < buffer.length + bytes.length →
    ∃ f s, D.write bytes (state false buffer buffer.length) = (.error f, s) ∧
      ((∃ p, f = .panic p) ∨ ∃ e, f = .err e ∧ s = state false buffer buffer.length)
  truncate_eq : ∀ {buffer : Bytes} {q : ℕ}, q < buffer.length →
    ∃ p, D.truncate q (state false buffer buffer.length) = (.ok true, state false (buffer.take q) p)
  clone_eq : ∀ (ro : Bool) (buffer : Bytes) (p : ℕ),
    D.cloneDevice (state ro buffer p) = (.ok (state true buffer 0), state ro buffer p)
  /-- A new device over the content of another. -/
  reopen : D.State → D.State
  reopen_eq : ∀ (ro : Bool) (buffer : Bytes) (p : ℕ),
    reopen (state ro buffer p) = state false buffer 0

/-- What lies behind what was read. -/
theorem drop_add_length {buffer bytes post : Bytes} {p : ℕ} (h : buffer.drop p = bytes ++ post) :
    buffer.drop (p + bytes.length) = post := by
  rw [← List.drop_drop, h, List.drop_left]

namespace Disk

variable {D : BlockDevice} (K : Disk D)

theorem streamPosition_eq (ro : Bool) (buffer : Bytes) {p : ℕ} (h : p < 2 ^ 63) :
    D.streamPosition (K.state ro buffer p) = (.ok p, K.state ro buffer p) := by
  have h1 := K.seek_back ro buffer (Nat.zero_le p) h
  rwa [Nat.sub_zero] at h1

theorem readExact_eq (ro : Bool) {buffer bytes post : Bytes} {p : ℕ}
    (h : buffer.drop p = bytes ++ post) :
    readExact D.read bytes.length (K.state ro buffer p) =
      (.ok bytes, K.state ro buffer (p + bytes.length)) := by
  by_cases hne : bytes = []
  · subst hne
    exact readExact_zero _ _
  · exact readExact_of_read hne (K.read_eq ro h)

theorem writeAll_eq {buffer bytes : Bytes}
    (h : buffer.length + bytes.length ≤ MemoryDevice.MAX_CAPACITY) :
    writeAll D.write bytes (K.state false buffer buffer.length) =
      (.ok (), K.state false (buffer ++ bytes) (buffer ++ bytes).length) := by
  by_cases hne : bytes = []
  · subst hne
    rw [List.append_nil]
    rfl
  · exact writeAll_of_write hne (K.write_end h)

theorem flushBuf_eq {buffer bytes : Bytes} (hne : bytes ≠ [])
    (h : buffer.length + bytes.length ≤ MemoryDevice.MAX_CAPACITY) :
    flushBuf D.write (bytes, K.state false buffer buffer.length) =
      (.ok (), ([], K.state false (buffer ++ bytes) (buffer ++ bytes).length)) :=
  flushBuf_of_write hne (K.write_end h)

/-- What does not fit is not flushed; and if this is an error, the device is as before, also
after the buffer was dropped. -/
theorem flushBuf_full {buffer bytes : Bytes} (hne : bytes ≠ [])
    (h : MemoryDevice.MAX_CAPACITY < buffer.length + bytes.length) :
    (∃ p s, flushBuf D.write (bytes, K.state false buffer buffer.length) = (.error (.panic p), s)) ∨
    ∃ e, flushBuf D.write (bytes, K.state false buffer buffer.length) =
      (.error (.err e), (bytes, K.state false buffer buffer.length)) := by
  obtain ⟨f, s, hwrite, ⟨p, rfl⟩ | ⟨e, rfl, rfl⟩⟩ := K.write_full h
  · exact Or.inl ⟨p, _, flushBuf_of_error hne hwrite⟩
  · exact Or.inr ⟨e, flushBuf_of_error hne hwrite⟩

end Disk

namespace MemoryDevice

variable {buffer : Bytes}

theorem fromEnd_zero (h : buffer.length < 2 ^ 63) :
    (addI64 (toI64 buffer.length) 0).map toU64 = .ok buffer.length := by
  rw [toI64_of_lt h, addI64_of_lt (by omega) (by omega), Except.map, Int.add_zero,
    toU64_natCast (by omega)]

theorem current_back {p d : ℕ} (hd : d ≤ p) (h : p < 2 ^ 63) :
    (addI64 (toI64 p) (-(d : ℤ))).map toU64 = .ok (p - d) := by
  rw [toI64_of_lt h, addI64_of_lt (by omega) (by omega), Except.map,
    show (p : ℤ) + -(d : ℤ) = ((p - d : ℕ) : ℤ) by omega, toU64_natCast (by omega)]

/-- Cutting the buffer moves the cursor to the new end. -/
theorem truncate_eq {q : ℕ} (p : Position) (h : q < buffer.length) :
    truncate q ⟨false, buffer, p⟩ = (.ok true, ⟨false, buffer.take q, q⟩) := by
  rw [truncate]
  simp only [Bool.false_eq_true, if_false]
  rw [if_pos h]

/-- The buffer does not grow past the largest allocation. -/
theorem write_full {self : MemoryDevice} {bytes : Bytes} (hro : self.readOnly = false)
    (h : MAX_CAPACITY < self.position + bytes.length) :
    write bytes self = (.error (.panic .capacity), self) := by
  rw [write, hro, if_neg (by simp), if_pos h]
  rfl

/-- **The device in memory keeps its content.** -/
def disk : Disk memoryDevice where
  state := fun ro buffer p => ⟨ro, buffer, p⟩
  content := fun self => self.buffer
  content_eq := fun _ _ _ => rfl
  seek_start := fun _ _ _ _ => rfl
  seek_end := fun ro buffer p h => by
    change seek (.fromEnd 0) ⟨ro, buffer, p⟩ = _
    rw [seek, Prog.bind_ok (Prog.get_run _)]
    simp only [Prog.liftM_eq, fromEnd_zero h, Prog.lift_ok_bind]
    rfl
  seek_back := fun ro buffer p d hd h => by
    change seek (.current (-(d : ℤ))) ⟨ro, buffer, p⟩ = _
    rw [seek, Prog.bind_ok (Prog.get_run _)]
    simp only [Prog.liftM_eq, current_back hd h, Prog.lift_ok_bind]
    rfl
  read_eq := fun ro buffer bytes post p h => by
    change read bytes.length ⟨ro, buffer, p⟩ = _
    rw [read]
    simp only [h, List.take_left']
    rfl
  write_end := fun {buffer bytes} h => by
    change write bytes ⟨false, buffer, buffer.length⟩ = _
    rw [write]
    simp only [Bool.false_eq_true, if_false]
    rw [if_neg (by omega), overwrite_end, List.length_append]
    rfl
  write_full := fun {buffer bytes} h =>
    ⟨_, _, @write_full ⟨false, buffer, buffer.length⟩ bytes rfl h, Or.inl ⟨.capacity, rfl⟩⟩
  truncate_eq := fun {buffer q} h => ⟨q, truncate_eq buffer.length h⟩
  clone_eq := fun _ _ _ => rfl
  reopen := fun self => withBuffer self.buffer false
  reopen_eq := fun _ _ _ => rfl

end MemoryDevice

end StratifiedHashTree
