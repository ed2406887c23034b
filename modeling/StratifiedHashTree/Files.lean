import StratifiedHashTree.Device

/-!
# The device on a file

`FileDevice` of `storage/file.rs` over a file that is a byte array with a cursor: a write
behind the end fills the gap with zeros, a write past the largest offset is refused, and
setting the length leaves the cursor alone.

It keeps its content (`StratifiedHashTree.FileDevice.disk`), as the device in memory does,
so whatever holds of slates over such devices holds of slates on files. What tells the two
devices apart is where a cut leaves the cursor.
-/

namespace StratifiedHashTree

open Outcome

/-! ### Files -/

/-- **A file that is open**: a byte array with a cursor. -/
structure File where
  content : Bytes
  cursor : Position
  writable : Bool
  deriving DecidableEq

namespace File

/-- The largest offset; offsets are signed. -/
def MAX_OFFSET : ℕ := 2 ^ 63 - 1

/-- The error of a write to a file that was opened for reading. -/
def badFileDescriptor : Error := .io .other "bad file descriptor"

/-- The error of a write past the largest offset that a file can have. -/
def fileTooLarge : Error := .io .other "file too large"

/-- The error of a seek to before the start. -/
def invalidSeek : Error := .io .other "invalid seek to a negative position"

def read (k : ℕ) : Run File Bytes := fun self =>
  let bytes := (self.content.drop self.cursor).take k
  (.ok bytes, { self with cursor := self.cursor + bytes.length })

def write (bytes : Bytes) : Run File ℕ := fun self =>
  if self.writable then
    if MAX_OFFSET < self.cursor + bytes.length then
      (err fileTooLarge, self)
    else
      (.ok bytes.length, { self with
        content := overwrite self.content self.cursor bytes
        cursor := self.cursor + bytes.length })
  else
    (err badFileDescriptor, self)

def seek (pos : SeekFrom) : Run File Position := fun self =>
  let target : ℤ := match pos with
    | .start p => p
    | .fromEnd d => self.content.length + d
    | .current d => self.cursor + d
  if target < 0 then
    (err invalidSeek, self)
  else
    (.ok target.toNat, { self with cursor := target.toNat })

/-- Cuts the file, or fills it up with zeros. -/
def setLen (size : ℕ) : Run File Unit := fun self =>
  if self.writable then
    (.ok (), { self with
      content := (self.content ++ List.replicate (size - self.content.length) 0).take size })
  else
    (err badFileDescriptor, self)

end File

/-- How a file is opened; what matters for a file that is there already. -/
structure OpenOptions where
  write : Bool
  deriving DecidableEq

/-- Opens the file with some content. -/
def OpenOptions.open (self : OpenOptions) (content : Bytes) : File where
  content := content
  cursor := 0
  writable := self.write

/-- `FileDevice`. -/
structure FileDevice where
  readOptions : OpenOptions
  file : File
  deriving DecidableEq

namespace FileDevice

/-- A device on the file with some content. -/
def withOptions (content : Bytes) (writeOptions readOptions : OpenOptions) : FileDevice where
  readOptions := readOptions
  file := writeOptions.open content

/-- A program on the file. -/
def onFile {α : Type} (x : Run File α) : Run FileDevice α := fun self =>
  ((x self.file).1, { self with file := (x self.file).2 })

def truncate (position : Position) : Run FileDevice Bool := do
  let current ← onFile (File.seek (.current 0))
  let self ← Prog.get
  (debugAssert (self.file.content.length = current) : Result Unit)
  if position < current then do
    onFile (File.setLen position)
    return true
  else
    return false

/-- Opens the file once more. -/
def cloneDevice : Run FileDevice FileDevice := fun self =>
  (.ok { self with file := self.readOptions.open self.file.content }, self)

/-- A reader on the file that another device has changed. -/
def attach (self shared : FileDevice) : FileDevice :=
  { self with file := { self.file with content := shared.file.content } }

end FileDevice

/-- The device on a file. -/
def fileDevice : BlockDevice where
  State := FileDevice
  read k := FileDevice.onFile (File.read k)
  write bytes := FileDevice.onFile (File.write bytes)
  seek pos := FileDevice.onFile (File.seek pos)
  truncate := FileDevice.truncate
  cloneDevice := FileDevice.cloneDevice

/-! ### The file, call by call -/

namespace FileDevice

theorem seek_start_eq (self : FileDevice) (q : ℕ) : onFile (File.seek (.start q)) self =
    (.ok q, { self with file := { self.file with cursor := q } }) := by
  have h : File.seek (.start q) self.file = (.ok q, { self.file with cursor := q }) := by
    rw [File.seek]
    simp only
    rw [if_neg (by omega), Int.toNat_natCast]
  rw [onFile, h]

theorem seek_end_eq (self : FileDevice) : onFile (File.seek (.fromEnd 0)) self =
    (.ok self.file.content.length,
      { self with file := { self.file with cursor := self.file.content.length } }) := by
  have h : File.seek (.fromEnd 0) self.file = (.ok self.file.content.length,
      { self.file with cursor := self.file.content.length }) := by
    rw [File.seek]
    simp only
    rw [if_neg (by omega), Int.add_zero, Int.toNat_natCast]
  rw [onFile, h]

theorem seek_back_eq {self : FileDevice} {d : ℕ} (hd : d ≤ self.file.cursor) :
    onFile (File.seek (.current (-(d : ℤ)))) self = (.ok (self.file.cursor - d),
      { self with file := { self.file with cursor := self.file.cursor - d } }) := by
  have htarget : (self.file.cursor : ℤ) + -(d : ℤ) = ((self.file.cursor - d : ℕ) : ℤ) := by omega
  have h : File.seek (.current (-(d : ℤ))) self.file = (.ok (self.file.cursor - d),
      { self.file with cursor := self.file.cursor - d }) := by
    rw [File.seek]
    simp only
    rw [htarget, if_neg (by omega), Int.toNat_natCast]
  rw [onFile, h]

theorem write_eq {self : FileDevice} (hw : self.file.writable = true) {bytes : Bytes}
    (hroom : self.file.cursor + bytes.length ≤ File.MAX_OFFSET) :
    onFile (File.write bytes) self = (.ok bytes.length, { self with file := { self.file with
      content := overwrite self.file.content self.file.cursor bytes
      cursor := self.file.cursor + bytes.length } }) := by
  have h : File.write bytes self.file = (.ok bytes.length, { self.file with
      content := overwrite self.file.content self.file.cursor bytes
      cursor := self.file.cursor + bytes.length }) := by
    rw [File.write, if_pos hw, if_neg (Nat.not_lt.mpr hroom)]
  rw [onFile, h]

/-- A file does not grow past the largest offset. -/
theorem write_full {self : FileDevice} (hw : self.file.writable = true) {bytes : Bytes}
    (hfull : File.MAX_OFFSET < self.file.cursor + bytes.length) :
    onFile (File.write bytes) self = (err File.fileTooLarge, self) := by
  have h : File.write bytes self.file = (err File.fileTooLarge, self.file) := by
    rw [File.write, if_pos hw, if_pos hfull]
  rw [onFile, h]

theorem read_end {self : FileDevice} (h : self.file.content.length ≤ self.file.cursor) (k : ℕ) :
    onFile (File.read k) self = (.ok [], self) := by
  have h1 : File.read k self.file = (.ok [], self.file) := by
    rw [File.read, List.drop_of_length_le h, List.take_nil]
    rfl
  rw [onFile, h1]

theorem streamPosition_eq (self : FileDevice) :
    onFile (File.seek (.current 0)) self = (.ok self.file.cursor, self) := by
  have h := @seek_back_eq self 0 (Nat.zero_le _)
  rwa [Nat.sub_zero] at h

/-- Cutting the file when the cursor is at the end. -/
theorem truncate_true {self : FileDevice} (hwritable : self.file.writable = true)
    (hcursor : self.file.cursor = self.file.content.length) {q : ℕ}
    (hq : q < self.file.content.length) : truncate q self =
      (.ok true, { self with file := { self.file with content := self.file.content.take q } }) := by
  have hset : onFile (File.setLen q) self =
      (.ok (), { self with file := { self.file with content := self.file.content.take q } }) := by
    have h : File.setLen q self.file =
        (.ok (), { self.file with content := self.file.content.take q }) := by
      rw [File.setLen, if_pos hwritable, Nat.sub_eq_zero_of_le hq.le, List.replicate_zero,
        List.append_nil]
    rw [onFile, h]
  rw [truncate, Prog.bind_ok (streamPosition_eq self), Prog.bind_ok (Prog.get_run _), Prog.liftM_eq,
    debugAssert_of hcursor.symm, Prog.lift_ok_bind, hcursor, if_pos hq, Prog.bind_ok hset]
  rfl

theorem truncate_false {self : FileDevice} (hcursor : self.file.cursor = self.file.content.length)
    {q : ℕ} (hq : self.file.content.length ≤ q) : truncate q self = (.ok false, self) := by
  rw [truncate, Prog.bind_ok (streamPosition_eq self), Prog.bind_ok (Prog.get_run _), Prog.liftM_eq,
    debugAssert_of hcursor.symm, Prog.lift_ok_bind, hcursor, if_neg (Nat.not_lt.mpr hq)]
  rfl

/-- **The device on a file keeps its content.** Readers are opened for reading only. -/
def disk : Disk fileDevice where
  state := fun ro buffer p => ⟨⟨false⟩, ⟨buffer, p, !ro⟩⟩
  content := fun self => self.file.content
  content_eq := fun _ _ _ => rfl
  seek_start := fun ro buffer p q => seek_start_eq _ q
  seek_end := fun ro buffer p _ => seek_end_eq _
  seek_back := fun ro buffer p d hd _ => @seek_back_eq ⟨⟨false⟩, ⟨buffer, p, !ro⟩⟩ d hd
  read_eq := fun ro buffer bytes post p h => by
    change onFile (File.read bytes.length) ⟨⟨false⟩, ⟨buffer, p, !ro⟩⟩ = _
    rw [onFile, File.read]
    simp only [h, List.take_left']
    rfl
  write_end := fun {buffer bytes} h => by
    have hwrite := @write_eq ⟨⟨false⟩, ⟨buffer, buffer.length, true⟩⟩ rfl bytes h
    simp only [overwrite_end] at hwrite
    rw [List.length_append]
    exact hwrite
  write_full := fun {buffer bytes} h =>
    ⟨_, _, @write_full ⟨⟨false⟩, ⟨buffer, buffer.length, true⟩⟩ rfl bytes h,
      Or.inr ⟨File.fileTooLarge, rfl, rfl⟩⟩
  truncate_eq := fun {buffer q} h =>
    ⟨buffer.length, @truncate_true ⟨⟨false⟩, ⟨buffer, buffer.length, true⟩⟩ rfl rfl q h⟩
  clone_eq := fun _ _ _ => rfl
  reopen := fun self => withOptions self.file.content ⟨true⟩ ⟨false⟩
  reopen_eq := fun _ _ _ => rfl

end FileDevice

end StratifiedHashTree
