import Mathlib.Data.List.Induction
import StratifiedHashTree.Serialize

/-!
# The block storage

`BlockStorage` of `storage.rs`: the records of a log one after the other on a block device,
behind an identifier and a version. What the storage remembers is one number, the position
behind the last datum it stored; a `put` at this position does not move the cursor of the
device first.

On a device that keeps its content (`StratifiedHashTree.Disk`) the storage represents a log
(`StratifiedHashTree.BlockStorage.logStorage`): the content is the header followed by the
records, and the remembered position and the cursor both stand at its end. This last point
is an invariant of the operations as long as they succeed, and it is what the unmoved
cursor rests on.
-/

namespace StratifiedHashTree

open Outcome

variable {w : ℕ}

/-- The first bytes of a storage. -/
def STORAGE_IDENTIFIER : Bytes := [0x01, 0xF3, 0x33]

/-- The version of the format. -/
def STORAGE_VERSION : UInt8 := 1

def isVersionCompatible (version : UInt8) : Bool := version ≤ STORAGE_VERSION

/-- The storage over a device. -/
structure BlockStorage (D : BlockDevice) where
  device : D.State
  position : Position

/-- The first datum with its position, and the last one with the position after it. -/
abbrev FirstLast (w : ℕ) := (Option (Entry w) × Position) × (Option (Entry w) × Position)

/-! ### Opening a storage -/

section Boot

variable (D : BlockDevice) (checksum : Checksum)

/-- Moves the cursor back, but not into the identifier. -/
def backToSafety (distance : ℕ) (ifErr : String) : Run D.State Position := do
  let position ← D.streamPosition
  if position < STORAGE_IDENTIFIER.length + 1 + distance then
    Prog.err (.damagedStorage
      s!"{ifErr} (cannot move {distance} bytes backword from the current position {position})")
  else
    D.seek (.current (-(distance : ℤ)))

/-- The error for a storage with another identifier. -/
def badMagicNumber : Error := .storageIsNotForSlate "bad magic number"

/-- Writes the identifier and the version to an empty device, and checks them otherwise. -/
def checkHeader : Run D.State Unit := do
  let size ← D.seek (.fromEnd 0)
  if size = 0 then do
    writeAll D.write STORAGE_IDENTIFIER
    writeAll D.write [STORAGE_VERSION]
  else if size ≤ 3 then
    Prog.err badMagicNumber
  else do
    let _ ← D.seek (.start 0)
    let buffer ← readExact D.read 4
    let version := buffer.getD 3 0
    if buffer.take 3 ≠ STORAGE_IDENTIFIER then
      Prog.err badMagicNumber
    else if ¬isVersionCompatible version then
      Prog.err (.incompatibleVersion (version.toNat / 16) (version.toNat % 16))
    else
      return ()

/-- The message about a last datum that does not end the storage. -/
def notTheEnd (position metaInformation : Position) : String :=
  s!"The last data is corrupted; The data read from the position {position} pointed to by the meta information {metaInformation} was not the end."

/-- Reads the last datum, from its end. -/
def readLast (nextPosition : Position) : Run D.State (Entry w) := do
  -- over the offset and the checksum
  let _ ← backToSafety D 12 "The first data is corrupted."
  let offset ← readExact D.read 4
  let distance ← addBits 32 (ofLeBytes offset) 4
  let _ ← backToSafety D distance "The last data is corrupted."
  let position ← D.streamPosition
  let data ← readData D checksum position
  -- a wrong offset may point to some other datum by chance
  let endPosition ← D.streamPosition
  if endPosition ≠ nextPosition then do
    let metaInformation ← subBits nextPosition 12
    Prog.err (.damagedStorage (notTheEnd position metaInformation))
  else
    return data

/-- Opens the content of a device. -/
def boot : Run D.State (FirstLast w) := do
  checkHeader D
  let firstPosition ← D.streamPosition
  let nextPosition ← D.seek (.fromEnd 0)
  -- nothing behind the header
  if nextPosition = firstPosition then
    return ((none, firstPosition), (none, nextPosition))
  else do
    let _ ← D.seek (.start firstPosition)
    let firstEntry ← readData D checksum firstPosition
    let _ ← D.seek (.fromEnd 0)
    let latestEntry ← readLast D checksum nextPosition
    return ((some firstEntry, firstPosition), (some latestEntry, nextPosition))

end Boot

/-! ### The operations -/

namespace BlockStorage

section Operations

variable (D : BlockDevice) (checksum : Checksum)

/-- A program on the device. -/
def onDevice {D : BlockDevice} {α : Type} (x : Run D.State α) : Run (BlockStorage D) α :=
  fun self => ((x self.device).1, { self with device := (x self.device).2 })

/-- Moves the position that is remembered. -/
def setPosition {D : BlockDevice} (position : Position) : Run (BlockStorage D) Unit :=
  Prog.modify fun self => { self with position := position }

def first : Run (BlockStorage D) (Option (Entry w) × Position) := do
  let (first, _) ← onDevice (boot D checksum)
  return first

def last : Run (BlockStorage D) (Option (Entry w) × Position) := do
  let (_, (data, position)) ← onDevice (boot D checksum)
  setPosition position
  return (data, position)

/-- Flushes a buffer; when the device fails, the buffer is dropped, which flushes once more what
is left. After a panic of the device nothing more is written. -/
def flushOrDrop : Run (Bytes × D.State) Unit := fun s =>
  match flushBuf D.write s with
  | (.error (.err e), s') => (do
      dropBuf D.write
      Prog.err e : Run (Bytes × D.State) Unit) s'
  | result => result

/-- A program writes to a `BufWriter` over the device, which is flushed when the program has
succeeded, and dropped otherwise. Its capacity is left out: a buffer that is full is flushed
earlier, and hands the same bytes over in the same order; when the device fails then, there are
only fewer bytes left to be dropped. -/
def buffered {α : Type} (x : Run ChecksumWrite α) : Run D.State α := fun device =>
  let (result, out) := x ChecksumWrite.new
  let flushed := (match result with
    | .ok a => do
      flushOrDrop D
      return a
    | .error f => do
      dropBuf D.write
      Prog.lift (.error f) : Run (Bytes × D.State) α) (out.output, device)
  (flushed.1, flushed.2.2)

/-- The start of a `put`: the cursor is moved only when the position is not the remembered
one. -/
def moveTo (position : Position) : Run (BlockStorage D) Unit := do
  let self ← Prog.get
  if self.position ≠ position then do
    let p ← onDevice (D.seek (.start position))
    setPosition p
  else
    return ()

/-- Stores a datum. -/
def put (position : Position) (data : Entry w) : Run (BlockStorage D) Position := do
  moveTo D position
  let self ← Prog.get
  (debugAssert (self.position = position) : Result Unit)
  -- when this fails, the remembered position stays, though the cursor may have moved
  let length ← onDevice (buffered D (writeData checksum data))
  let self ← Prog.get
  let next ← addBits 64 self.position length
  setPosition next
  return next

def truncate (position : Position) : Run (BlockStorage D) Bool := do
  let truncated ← onDevice (D.truncate position)
  if truncated then do
    setPosition position
    return true
  else
    return false

/-- A clone of the device. -/
def reader : Run (BlockStorage D) D.State := onDevice D.cloneDevice

/-- Reads the datum at a position, on a reader. -/
def read (position : Position) : Run (BlockStorage D) (Entry w) := do
  let device ← reader D
  ((do
    let _ ← D.seek (.start position)
    readData D checksum position : Run D.State (Entry w)) device).1

/-- The loop of a scan; it ends at the end of the content. -/
def scanFrom {κ : Type} (callback : ScanFn (Entry w) κ) (last : Position) :
    ℕ → Position → Run (κ × D.State) ℕ
  | 0, _ => return 0
  | count + 1, position =>
    if position < last then do
      let data ← Prog.onSnd (readData D checksum position)
      let s ← Prog.get
      match callback data s.1 with
      | (.ok (), a) => do
        Prog.set (a, s.2)
        let position' ← Prog.onSnd D.streamPosition
        let read ← scanFrom callback last count position'
        return read + 1
      | (.error e, a) => do
        Prog.set (a, s.2)
        Prog.err (.callback e)
    else
      return 0

/-- A scan, on a reader. -/
def scanReader (position : Position) (count : ℕ) {κ : Type} (callback : ScanFn (Entry w) κ) :
    Run (κ × D.State) ℕ := do
  let last ← Prog.onSnd (D.seek (.fromEnd 0))
  if position < last then do
    let _ ← Prog.onSnd (D.seek (.start position))
    scanFrom D checksum callback last count position
  else
    return 0

def scan (position : Position) (count : ℕ) {κ : Type} (callback : ScanFn (Entry w) κ) :
    Run (κ × BlockStorage D) ℕ := do
  let device ← Prog.onSnd (reader D)
  let s ← Prog.get
  let result := scanReader D checksum position count callback (s.1, device)
  Prog.set (result.2.1, s.2)
  result.1

end Operations

end BlockStorage

/-- The storage over a block device. -/
def blockStorage (D : BlockDevice) (checksum : Checksum) : Storage (Entry w) where
  State := BlockStorage D
  first := BlockStorage.first D checksum
  last := BlockStorage.last D checksum
  put := BlockStorage.put D checksum
  truncate := BlockStorage.truncate D
  reader := do
    let _ ← BlockStorage.reader D
    return ()
  read := BlockStorage.read D checksum
  scan position count := fun callback => BlockStorage.scan D checksum position count callback

namespace BlockStorage

/-! ### The content of a log -/

section Content

variable (checksum : Checksum)

/-- What every content begins with. -/
def header : Bytes := STORAGE_IDENTIFIER ++ [STORAGE_VERSION]

/-- **The content of a log.** -/
def content (log : List (Entry w)) : Bytes := header ++ log.flatMap (record checksum)

theorem length_header : header.length = 4 := rfl

theorem content_nil : content checksum ([] : List (Entry w)) = header := by
  rw [content, List.flatMap_nil, List.append_nil]

theorem content_append (log log' : List (Entry w)) :
    content checksum (log ++ log') = content checksum log ++ log'.flatMap (record checksum) := by
  rw [content, content, List.flatMap_append, List.append_assoc]

theorem content_concat (log : List (Entry w)) (e : Entry w) :
    content checksum (log ++ [e]) = content checksum log ++ record checksum e := by
  rw [content_append, List.flatMap_singleton]

theorem length_record_pos (e : Entry w) : 25 ≤ (record checksum e).length := by
  rw [length_record, length_encodeEntry]
  omega

theorem record_ne_nil (e : Entry w) : record checksum e ≠ [] := by
  have h := length_record_pos checksum e
  exact List.ne_nil_of_length_pos (by omega)

/-- Every record takes a byte at least. -/
theorem length_le_content (log : List (Entry w)) :
    log.length + 4 ≤ (content checksum log).length := by
  induction log using List.reverseRecOn with
  | nil => rw [content_nil]; exact Nat.le_refl _
  | append_singleton log e ih =>
    have h := length_record_pos checksum e
    rw [content_concat, List.length_append, List.length_append, List.length_singleton]
    omega

theorem content_take_le (log : List (Entry w)) (k : ℕ) :
    (content checksum (log.take k)).length ≤ (content checksum log).length := by
  conv_rhs => rw [← List.take_append_drop k log]
  rw [content_append, List.length_append]
  omega

theorem take_content (log : List (Entry w)) (k : ℕ) :
    (content checksum log).take (content checksum (log.take k)).length =
      content checksum (log.take k) := by
  have h : content checksum log = content checksum (log.take k) ++
      (log.drop k).flatMap (record checksum) := by
    rw [← content_append, List.take_append_drop]
  rw [h, List.take_left]

/-- What lies at the end of a beginning of a log. -/
theorem drop_content (log : List (Entry w)) (k : ℕ) :
    (content checksum log).drop (content checksum (log.take k)).length =
      (log.drop k).flatMap (record checksum) := by
  have h : content checksum log = content checksum (log.take k) ++
      (log.drop k).flatMap (record checksum) := by
    rw [← content_append, List.take_append_drop]
  rw [h, List.drop_left]

theorem drop_content_of_lt {log : List (Entry w)} {k : ℕ} (hk : k < log.length) :
    (content checksum log).drop (content checksum (log.take k)).length =
      record checksum log[k] ++ (log.drop (k + 1)).flatMap (record checksum) := by
  rw [drop_content, List.drop_eq_getElem_cons hk, List.flatMap_cons]

theorem content_take_succ {log : List (Entry w)} {k : ℕ} (hk : k < log.length) :
    (content checksum (log.take (k + 1))).length =
      (content checksum (log.take k)).length + (record checksum log[k]).length := by
  rw [← List.take_append_getElem hk, content_concat, List.length_append]

/-- The records of a log start one after the other. -/
theorem content_take_lt {log : List (Entry w)} {i j : ℕ} (hij : i < j) (hj : j ≤ log.length) :
    (content checksum (log.take i)).length < (content checksum (log.take j)).length := by
  have h1 := content_take_succ checksum (show i < log.length by omega)
  have h2 := length_record_pos checksum (log.get ⟨i, by omega⟩)
  have h3 := content_take_le checksum (log.take j) (i + 1)
  rw [List.take_take, Nat.min_eq_left (show i + 1 ≤ j from hij)] at h3
  rw [List.get_eq_getElem] at h2
  simp only at h2
  omega

end Content

/-! ### The storage represents a log -/

section Log

variable {D : BlockDevice} (K : Disk D) (checksum : Checksum)

/-- The logs whose content a buffer can hold. -/
def Room (log : List (Entry w)) : Prop := (content checksum log).length ≤ MemoryDevice.MAX_CAPACITY

instance (log : List (Entry w)) : Decidable (Room checksum log) :=
  inferInstanceAs (Decidable (_ ≤ _))

/-- The data of the log lie where they say they do. -/
def Laid (log : List (Entry w)) : Prop :=
  ∀ k (h : k < log.length), (log[k]).Placed (content checksum (log.take k)).length

/-- The state that represents a log: the position and the cursor are at the end. -/
def render (log : List (Entry w)) : BlockStorage D where
  device := K.state false (content checksum log) (content checksum log).length
  position := (content checksum log).length

variable {checksum}

theorem Room.lt {log : List (Entry w)} (h : Room checksum log) :
    (content checksum log).length < 2 ^ 63 := by
  have h1 : MemoryDevice.MAX_CAPACITY = 2 ^ 63 - 1 := rfl
  rw [Room] at h
  omega

theorem Room.take {log : List (Entry w)} (h : Room checksum log) (k : ℕ) :
    Room checksum (log.take k) := (content_take_le checksum log k).trans h

theorem Laid.take {log : List (Entry w)} (h : Laid checksum log) (k : ℕ) :
    Laid checksum (log.take k) :=
  @laid_take _ Entry.Placed (fun log => (content checksum log).length) log h k

theorem backToSafety_eq (ro : Bool) (buffer : Bytes) {p distance : ℕ} (ifErr : String)
    (hp : p < 2 ^ 63) (h : 4 + distance ≤ p) :
    backToSafety D distance ifErr (K.state ro buffer p) =
      (.ok (p - distance), K.state ro buffer (p - distance)) := by
  have hnot : ¬p < STORAGE_IDENTIFIER.length + 1 + distance := by
    have h4 : STORAGE_IDENTIFIER.length + 1 = 4 := rfl
    omega
  rw [backToSafety, Prog.bind_ok (K.streamPosition_eq ro buffer hp), if_neg hnot]
  exact K.seek_back ro buffer (by omega) hp

/-- The header of an empty device is written. -/
theorem checkHeader_nil (p : ℕ) :
    checkHeader D (K.state false [] p) = (.ok (), K.state false header 4) := by
  have h1 : writeAll D.write STORAGE_IDENTIFIER (K.state false [] ([] : Bytes).length) =
      (.ok (), K.state false STORAGE_IDENTIFIER STORAGE_IDENTIFIER.length) :=
    K.writeAll_eq (by decide)
  have h2 : writeAll D.write [STORAGE_VERSION]
      (K.state false STORAGE_IDENTIFIER STORAGE_IDENTIFIER.length) =
        (.ok (), K.state false header header.length) := K.writeAll_eq (by decide)
  rw [checkHeader, Prog.bind_ok (K.seek_end false p (by decide)),
    if_pos (show (([] : Bytes).length : Position) = 0 from rfl)]
  exact (Prog.bind_ok h1).trans h2

/-- The header of a content is accepted; nothing is written. -/
theorem checkHeader_opened (ro : Bool) {log : List (Entry w)} (hroom : Room checksum log) (p : ℕ) :
    checkHeader D (K.state ro (content checksum log) p) =
      (.ok (), K.state ro (content checksum log) 4) := by
  have h1 := length_le_content checksum log
  have h2 : readExact D.read 4 (K.state ro (content checksum log) 0) =
      (.ok header, K.state ro (content checksum log) 4) :=
    K.readExact_eq ro (show (content checksum log).drop 0 = _ from rfl)
  have hpos : ¬(content checksum log).length = 0 ∧ ¬(content checksum log).length ≤ 3 := by omega
  rw [checkHeader, Prog.bind_ok (K.seek_end ro p hroom.lt), if_neg hpos.1, if_neg hpos.2,
    Prog.bind_ok (K.seek_start ro _ _ 0), Prog.bind_ok h2]
  simp only [show header.take 3 = STORAGE_IDENTIFIER from rfl,
    show isVersionCompatible (header.getD 3 0) = true from rfl]
  rfl

/-- **The last datum** is found from the end. -/
theorem readLast_eq (ro : Bool) (hw : w ≤ 64) {log : List (Entry w)} {e : Entry w}
    (hroom : Room checksum (log ++ [e])) (he : e.Placed (content checksum log).length) :
    readLast D checksum (content checksum (log ++ [e])).length
        (K.state ro (content checksum (log ++ [e])) (content checksum (log ++ [e])).length) =
      (.ok e, K.state ro (content checksum (log ++ [e]))
        (content checksum (log ++ [e])).length) := by
  have hlt := hroom.lt
  have hlen := length_le_content checksum log
  have hrec := length_record checksum e
  have hrec' := length_record_lt hw checksum he
  have hsum : (content checksum (log ++ [e])).length =
      (content checksum log).length + (encodeEntry e).length + 12 := by
    rw [content_concat, List.length_append, hrec, Nat.add_assoc]
  have hdrop : (content checksum (log ++ [e])).drop (content checksum log).length =
      record checksum e ++ [] := by
    rw [content_concat, List.drop_left, List.append_nil]
  have hoffset : (content checksum (log ++ [e])).drop
      ((content checksum log).length + (encodeEntry e).length) = leBytes 4 (encodeEntry e).length ++
        (leBytes 8 (checksum (checkedBytes e)).toNat ++ []) := by
    rw [record, checkedBytes, List.append_assoc, List.append_assoc] at hdrop
    exact drop_add_length hdrop
  have hread := K.readExact_eq ro hoffset
  rw [length_leBytes] at hread
  have hdata := readData_eq K hw checksum he ro hdrop
  rw [hsum] at hlt ⊢
  rw [readLast, Prog.bind_ok (backToSafety_eq K ro _ _ hlt (by omega)), Nat.add_sub_cancel,
    Prog.bind_ok hread, ofLeBytes_leBytes (by omega), Prog.liftM_eq, addBits_of_lt (by omega),
    Prog.lift_ok_bind, Prog.bind_ok (backToSafety_eq K ro _ _ (by omega) (by omega)),
    show (content checksum log).length + (encodeEntry e).length + 4 - ((encodeEntry e).length + 4) =
      (content checksum log).length by omega,
    Prog.bind_ok (K.streamPosition_eq ro _ (by omega)), Prog.bind_ok hdata, hrec,
    ← Nat.add_assoc, Prog.bind_ok (K.streamPosition_eq ro _ hlt), if_neg (fun h => h rfl)]
  rfl

/-- **Opening a content** finds the first and the last datum, and leaves the cursor at the
end. -/
theorem boot_opened (ro : Bool) (hw : w ≤ 64) {log : List (Entry w)} (hroom : Room checksum log)
    (hlaid : Laid checksum log) (p : ℕ) :
    boot D checksum (K.state ro (content checksum log) p) =
      (.ok ((log.head?, 4), (log.getLast?, (content checksum log).length)),
        K.state ro (content checksum log) (content checksum log).length) := by
  rw [boot, Prog.bind_ok (checkHeader_opened K ro hroom p),
    Prog.bind_ok (K.streamPosition_eq ro _ (by decide)),
    Prog.bind_ok (K.seek_end ro _ hroom.lt)]
  rcases List.eq_nil_or_concat log with rfl | ⟨init, e, heq⟩
  · rw [content_nil, if_pos length_header]
    rfl
  · rw [List.concat_eq_append] at heq
    subst heq
    have h1 := length_record_pos checksum e
    have h2 := length_le_content checksum init
    have h3 := content_concat checksum init e
    have hlast : e.Placed (content checksum init).length := by
      have h4 := hlaid init.length (by rw [List.length_append, List.length_singleton]; omega)
      rwa [List.getElem_concat_length rfl, List.take_left] at h4
    obtain ⟨x, rest, hx⟩ : ∃ x rest, init ++ [e] = x :: rest :=
      List.exists_cons_of_ne_nil (by simp)
    have hfirst : x.Placed 4 := by
      have h4 := hlaid 0 (by rw [List.length_append, List.length_singleton]; omega)
      rw [List.take_zero, content_nil, length_header] at h4
      simpa only [hx, List.getElem_cons_zero] using h4
    have hdrop : (content checksum (init ++ [e])).drop 4 =
        record checksum x ++ rest.flatMap (record checksum) := by
      rw [hx, content, List.flatMap_cons]
      rfl
    have hne : ¬(content checksum (init ++ [e])).length = 4 := by
      rw [h3, List.length_append]
      omega
    rw [if_neg hne, Prog.bind_ok (K.seek_start ro _ _ 4),
      Prog.bind_ok (readData_eq K hw checksum hfirst ro hdrop),
      Prog.bind_ok (K.seek_end ro _ hroom.lt), Prog.bind_ok (readLast_eq K ro hw hroom hlast),
      List.getLast?_concat, hx]
    rfl

theorem boot_content (hw : w ≤ 64) {log : List (Entry w)} (hroom : Room checksum log)
    (hlaid : Laid checksum log) (p : ℕ) :
    boot D checksum (K.state false (content checksum log) p) =
      (.ok ((log.head?, 4), (log.getLast?, (content checksum log).length)),
        K.state false (content checksum log) (content checksum log).length) :=
  boot_opened K false hw hroom hlaid p

theorem onDevice_eq {α : Type} {x : Run D.State α} {device device' : D.State} {a : Result α}
    (h : x device = (a, device')) (position : Position) :
    onDevice x ⟨device, position⟩ = (a, ⟨device', position⟩) := by
  rw [onDevice]
  simp only [h]

theorem first_content (hw : w ≤ 64) {log : List (Entry w)} (hroom : Room checksum log)
    (hlaid : Laid checksum log) (p q : ℕ) :
    first D checksum ⟨K.state false (content checksum log) p, q⟩ =
      (.ok (log.head?, 4),
        ⟨K.state false (content checksum log) (content checksum log).length, q⟩) := by
  rw [first, Prog.bind_ok (onDevice_eq (boot_content K hw hroom hlaid p) q)]
  rfl

theorem last_content (hw : w ≤ 64) {log : List (Entry w)} (hroom : Room checksum log)
    (hlaid : Laid checksum log) (p q : ℕ) :
    last D checksum ⟨K.state false (content checksum log) p, q⟩ =
      (.ok (log.getLast?, (content checksum log).length), render K checksum log) := by
  rw [last, Prog.bind_ok (onDevice_eq (boot_content K hw hroom hlaid p) q)]
  rfl

/-- Opening an empty device. -/
theorem last_nil (p q : ℕ) : last D checksum ⟨K.state false [] p, q⟩ =
    (.ok ((none : Option (Entry w)), (content checksum ([] : List (Entry w))).length),
      render K checksum ([] : List (Entry w))) := by
  have h : boot (w := w) D checksum (K.state false [] p) =
      (.ok ((none, 4), (none, 4)), K.state false header 4) := by
    rw [boot, Prog.bind_ok (checkHeader_nil K p),
      Prog.bind_ok (K.streamPosition_eq false _ (by decide)),
      Prog.bind_ok (K.seek_end false _ (by decide))]
    rfl
  rw [last, Prog.bind_ok (onDevice_eq h q), render, content_nil]
  rfl

/-- The bytes of a record reach the device. -/
theorem buffered_writeData (hw : w ≤ 64) {e : Entry w} {p : Position} (he : e.Placed p)
    {device : D.State} {a : Result Unit} {rest : Bytes × D.State}
    (h : flushOrDrop D (record checksum e, device) = (a, rest)) :
    buffered D (writeData checksum e) device =
      (a.map fun _ => (record checksum e).length, rest.2) := by
  obtain ⟨s, hs, hout⟩ := writeData_eq hw checksum he
  rw [buffered, hs]
  simp only [hout]
  rw [Prog.bind_run, h]
  rcases a with f | ⟨⟩
  · rfl
  · rfl

/-- A `put` at the remembered position writes at the cursor. -/
theorem put_eq (hw : w ≤ 64) {e : Entry w} {p : Position} (he : e.Placed p) {device : D.State}
    {rest : Bytes × D.State} (h : flushOrDrop D (record checksum e, device) = (.ok (), rest)) :
    put D checksum p e ⟨device, p⟩ = (do
      let next ← addBits 64 p (record checksum e).length
      setPosition next
      return next : Run (BlockStorage D) Position) ⟨rest.2, p⟩ := by
  have hmove : moveTo D p ⟨device, p⟩ = (.ok (), ⟨device, p⟩) := by
    rw [moveTo, Prog.bind_ok (Prog.get_run _), if_neg (fun h => h rfl)]
    rfl
  rw [put, Prog.bind_ok hmove, Prog.bind_ok (Prog.get_run _), Prog.liftM_eq, debugAssert_of rfl,
    Prog.lift_ok_bind, Prog.bind_ok (onDevice_eq (buffered_writeData hw he h) p)]
  rfl

/-- When the device fails, so does the `put`; the position that is remembered stays. -/
theorem put_error (hw : w ≤ 64) {e : Entry w} {p : Position} (he : e.Placed p) {device : D.State}
    {f : Failure Error} {rest : Bytes × D.State}
    (h : flushOrDrop D (record checksum e, device) = (.error f, rest)) :
    put D checksum p e ⟨device, p⟩ = (.error f, ⟨rest.2, p⟩) := by
  have hmove : moveTo D p ⟨device, p⟩ = (.ok (), ⟨device, p⟩) := by
    rw [moveTo, Prog.bind_ok (Prog.get_run _), if_neg (fun h => h rfl)]
    rfl
  rw [put, Prog.bind_ok hmove, Prog.bind_ok (Prog.get_run _), Prog.liftM_eq, debugAssert_of rfl,
    Prog.lift_ok_bind, Prog.bind_error (onDevice_eq (buffered_writeData hw he h) p)]

/-- When such a `put` returns, all bytes were flushed. -/
theorem flush_of_put (hw : w ≤ 64) {e : Entry w} {p next : Position} (he : e.Placed p)
    {device : D.State} {self : BlockStorage D}
    (h : put D checksum p e ⟨device, p⟩ = (.ok next, self)) :
    ∃ rest, flushOrDrop D (record checksum e, device) = (.ok (), (rest, self.device)) := by
  rcases hflush : flushOrDrop D (record checksum e, device) with ⟨f | ⟨⟩, rest, device'⟩
  · rw [put_error hw he hflush] at h
    exact absurd (Prod.mk.inj h).1 (by simp)
  · rw [put_eq hw he hflush] at h
    simp only [Prog.bind_eq_ok, Prog.liftM_eq] at h
    obtain ⟨q, self', hq, _, self'', hset, hret⟩ := h
    refine ⟨rest, ?_⟩
    rw [← (Prod.mk.inj hret).2, ← (Prod.mk.inj hset).2, ← (Prod.mk.inj hq).2]

/-- What is flushed at once is not flushed again. -/
theorem flushOrDrop_ok {s s' : Bytes × D.State} (h : flushBuf D.write s = (.ok (), s')) :
    flushOrDrop D s = (.ok (), s') := by
  rw [flushOrDrop, h]

/-- Only the first try counts. -/
theorem flushBuf_of_flushOrDrop {s s' : Bytes × D.State}
    (h : flushOrDrop D s = (.ok (), s')) : flushBuf D.write s = (.ok (), s') := by
  rw [flushOrDrop] at h
  rcases hflush : flushBuf D.write s with ⟨(e | _ | _) | ⟨⟩, s''⟩
  · rw [hflush] at h
    obtain ⟨_, _, -, hfail⟩ := Prog.bind_eq_ok.mp h
    exact absurd (Prod.mk.inj hfail).1 (by simp [err])
  · rw [hflush] at h
    exact absurd (Prod.mk.inj h).1 (by simp)
  · rw [hflush] at h
    exact absurd (Prod.mk.inj h).1 (by simp)
  · rw [hflush] at h
    exact h

theorem flushOrDrop_panic {s s' : Bytes × D.State} {p : Panic}
    (h : flushBuf D.write s = (.error (.panic p), s')) :
    flushOrDrop D s = (.error (.panic p), s') := by
  rw [flushOrDrop, h]

/-- When the device fails again, nothing more has happened. -/
theorem flushOrDrop_err {s s' s'' : Bytes × D.State} {e e' : Error}
    (h : flushBuf D.write s = (.error (.err e), s'))
    (h' : flushBuf D.write s' = (.error (.err e'), s'')) :
    flushOrDrop D s = (.error (.err e), s'') := by
  have hdrop : dropBuf D.write s' = (.ok (), s'') := by
    rw [dropBuf, h']
  rw [flushOrDrop, h]
  simp only
  rw [Prog.bind_ok hdrop]
  rfl

/-- When the device works again, what was left has been written all the same. -/
theorem flushOrDrop_late {s s' s'' : Bytes × D.State} {e : Error}
    (h : flushBuf D.write s = (.error (.err e), s'))
    (h' : flushBuf D.write s' = (.ok (), s'')) :
    flushOrDrop D s = (.error (.err e), s'') := by
  have hdrop : dropBuf D.write s' = (.ok (), s'') := by
    rw [dropBuf, h']
  rw [flushOrDrop, h]
  simp only
  rw [Prog.bind_ok hdrop]
  rfl

theorem put_content (hw : w ≤ 64) {log : List (Entry w)} {e : Entry w}
    (he : e.Placed (content checksum log).length) (hroom : Room checksum (log ++ [e])) :
    put D checksum (content checksum log).length e (render K checksum log) =
      (.ok (content checksum (log ++ [e])).length, render K checksum (log ++ [e])) := by
  have hlt := hroom.lt
  rw [Room] at hroom
  rw [content_concat, List.length_append] at hlt hroom
  have hflush := flushOrDrop_ok (K.flushBuf_eq (record_ne_nil checksum e) hroom)
  rw [render, put_eq hw he hflush]
  simp only [Prog.liftM_eq]
  rw [addBits_of_lt (by omega), Prog.lift_ok_bind, render, content_concat, List.length_append]
  rfl

/-- A device that is too small for a record panics, or reports it and is as before. -/
theorem put_full (hw : w ≤ 64) {log : List (Entry w)} {e : Entry w}
    (he : e.Placed (content checksum log).length) (hroom : ¬Room checksum (log ++ [e])) :
    ∃ f s, put D checksum (content checksum log).length e (render K checksum log) = (.error f, s) ∧
      ((∃ p, f = .panic p) ∨ ∃ error, f = .err error ∧ s = render K checksum log) := by
  rw [Room, content_concat, List.length_append, Nat.not_le] at hroom
  rcases K.flushBuf_full (record_ne_nil checksum e) hroom with ⟨p, s, h⟩ | ⟨error, h⟩
  · exact ⟨_, _, put_error hw he (flushOrDrop_panic h), Or.inl ⟨p, rfl⟩⟩
  · exact ⟨_, _, put_error hw he (flushOrDrop_err h h), Or.inr ⟨error, rfl, rfl⟩⟩

/-- Cutting the storage leaves the beginning of the log; the cursor may be anywhere. -/
theorem truncate_content {log : List (Entry w)} {k : ℕ} (hk : k < log.length) :
    ∃ p, truncate D (content checksum (log.take k)).length (render K checksum log) =
      (.ok true, ⟨K.state false (content checksum (log.take k)) p,
        (content checksum (log.take k)).length⟩) := by
  have hlt := content_take_lt checksum hk (Nat.le_refl _)
  rw [List.take_length] at hlt
  obtain ⟨p, hcut⟩ := K.truncate_eq hlt
  refine ⟨p, ?_⟩
  rw [truncate, render, Prog.bind_ok (onDevice_eq hcut _), take_content, if_pos rfl]
  rfl

theorem reader_eq {self : BlockStorage D} {device : D.State}
    (hclone : D.cloneDevice self.device = (.ok device, self.device)) :
    reader D self = (.ok device, self) := onDevice_eq hclone self.position

theorem reader_render (log : List (Entry w)) : reader D (render K checksum log) =
    (.ok (K.state true (content checksum log) 0), render K checksum log) :=
  reader_eq (K.clone_eq false _ _)

/-- Reading needs the records only, not what comes behind them. -/
theorem read_eq (hw : w ≤ 64) {log : List (Entry w)} {k : ℕ} (hk : k < log.length)
    (hlaid : Laid checksum log) {self : BlockStorage D} {bytes : Bytes}
    (hclone : D.cloneDevice self.device =
      (.ok (K.state true (content checksum log ++ bytes) 0), self.device)) :
    read D checksum (content checksum (log.take k)).length self = (.ok log[k], self) := by
  have hdrop : (content checksum log ++ bytes).drop (content checksum (log.take k)).length =
      record checksum log[k] ++ ((log.drop (k + 1)).flatMap (record checksum) ++ bytes) := by
    rw [List.drop_append_of_le_length (content_take_le checksum log k),
      drop_content_of_lt checksum hk, List.append_assoc]
  have hdata := readData_eq K hw checksum (hlaid k hk) true hdrop
  rw [read, Prog.bind_ok (reader_eq hclone), Prog.bind_ok (K.seek_start true _ _ _), hdata]
  rfl

theorem read_content (hw : w ≤ 64) {log : List (Entry w)} {k : ℕ} (hk : k < log.length)
    (hlaid : Laid checksum log) :
    read D checksum (content checksum (log.take k)).length (render K checksum log) =
      (.ok log[k], render K checksum log) := by
  have hclone : D.cloneDevice (render K checksum log).device =
      (.ok (K.state true (content checksum log ++ []) 0), (render K checksum log).device) := by
    rw [List.append_nil]
    exact K.clone_eq false _ _
  exact read_eq K hw hk hlaid hclone

section ScanStep

variable {κ : Type} {callback : ScanFn (Entry w) κ} {last position : ℕ} {e : Entry w} {a b : κ}
  {s s' s'' : D.State}

/-- A round of a scan. -/
theorem scanFrom_ok {count : ℕ} {next : Position} (hin : position < last)
    (hdata : readData D checksum position s = (.ok e, s')) (hcb : callback e a = (.ok (), b))
    (hnext : D.streamPosition s' = (.ok next, s'')) :
    scanFrom D checksum callback last (count + 1) position (a, s) =
      ((scanFrom D checksum callback last count next (b, s'')).1.map (· + 1),
        (scanFrom D checksum callback last count next (b, s'')).2) := by
  rw [scanFrom, if_pos hin, Prog.bind_ok (Prog.onSnd_run hdata a), Prog.bind_ok (Prog.get_run _)]
  simp only [hcb]
  rw [Prog.bind_ok (Prog.set_run _ _), Prog.bind_ok (Prog.onSnd_run hnext b), Prog.bind_run]
  rcases scanFrom D checksum callback last count next (b, s'') with ⟨f | r, t⟩
  · rfl
  · rfl

/-- A round whose callback fails is the last one. -/
theorem scanFrom_err {count : ℕ} {f : String} (hin : position < last)
    (hdata : readData D checksum position s = (.ok e, s')) (hcb : callback e a = (.error f, b)) :
    scanFrom D checksum callback last (count + 1) position (a, s) =
      (.error (.err (.callback f)), (b, s')) := by
  rw [scanFrom, if_pos hin, Prog.bind_ok (Prog.onSnd_run hdata a), Prog.bind_ok (Prog.get_run _)]
  simp only [hcb]
  rw [Prog.bind_ok (Prog.set_run _ _)]
  rfl

/-- The start of a scan. -/
theorem scanReader_of_lt {count : ℕ} {q : Position} (hend : D.seek (.fromEnd 0) s = (.ok last, s'))
    (hin : position < last) (hstart : D.seek (.start position) s' = (.ok q, s'')) :
    scanReader D checksum position count callback (a, s) =
      scanFrom D checksum callback last count position (a, s'') := by
  rw [scanReader, Prog.bind_ok (Prog.onSnd_run hend a), if_pos hin,
    Prog.bind_ok (Prog.onSnd_run hstart a)]

end ScanStep

/-- The loop of a scan passes the data on. -/
theorem scanFrom_content (hw : w ≤ 64) (ro : Bool) {κ : Type} (callback : ScanFn (Entry w) κ)
    {log : List (Entry w)} (hroom : Room checksum log) (hlaid : Laid checksum log) :
    ∀ (count k : ℕ) (a : κ), k ≤ log.length →
      ∃ p, scanFrom D checksum callback (content checksum log).length count
        (content checksum (log.take k)).length
        (a, K.state ro (content checksum log) (content checksum (log.take k)).length) =
          ((scanList callback ((log.drop k).take count) a).1,
            ((scanList callback ((log.drop k).take count) a).2,
              K.state ro (content checksum log) p))
  | 0, k, a, _ => ⟨_, by rw [scanFrom, List.take_zero]; rfl⟩
  | count + 1, k, a, hk => by
    rcases hk.eq_or_lt with rfl | hlt
    · refine ⟨(content checksum log).length, ?_⟩
      rw [List.take_length, scanFrom, if_neg (Nat.lt_irrefl _), List.drop_length, List.take_nil]
      rfl
    · have hnext := content_take_succ checksum hlt
      have hpos := length_record_pos checksum log[k]
      have hle := content_take_le checksum log (k + 1)
      have hroom' := hroom.lt
      have hdata := readData_eq K hw checksum (hlaid k hlt) ro (drop_content_of_lt checksum hlt)
      rw [← hnext] at hdata
      have hin : (content checksum (log.take k)).length < (content checksum log).length := by omega
      rw [List.drop_eq_getElem_cons hlt, List.take_succ_cons]
      rcases hcb : callback log[k] a with ⟨e | ⟨⟩, b⟩
      · refine ⟨(content checksum (log.take (k + 1))).length, ?_⟩
        rw [scanFrom_err hin hdata hcb, scanList, hcb]
      · obtain ⟨p, hp⟩ := scanFrom_content hw ro callback hroom hlaid count (k + 1) b hlt
        refine ⟨p, ?_⟩
        rw [scanFrom_ok hin hdata hcb (K.streamPosition_eq ro _ (by omega)), hp, scanList, hcb]

/-- A scan on a reader, wherever its cursor is. -/
theorem scanReader_content (hw : w ≤ 64) (ro : Bool) (q : Position) {log : List (Entry w)} {k : ℕ}
    (count : ℕ) {κ : Type} (callback : ScanFn (Entry w) κ) (a : κ) (hk : k < log.length)
    (hroom : Room checksum log) (hlaid : Laid checksum log) :
    ∃ p, scanReader D checksum (content checksum (log.take k)).length count callback
        (a, K.state ro (content checksum log) q) =
      ((scanList callback ((log.drop k).take count) a).1,
        ((scanList callback ((log.drop k).take count) a).2,
          K.state ro (content checksum log) p)) := by
  have hlt := content_take_lt checksum hk (Nat.le_refl _)
  rw [List.take_length] at hlt
  obtain ⟨p, hp⟩ := scanFrom_content K hw ro callback hroom hlaid count k a hk.le
  refine ⟨p, ?_⟩
  rw [scanReader_of_lt (K.seek_end ro q hroom.lt) hlt (K.seek_start ro _ _ _)]
  exact hp

theorem scan_content (hw : w ≤ 64) {log : List (Entry w)} {k : ℕ} (count : ℕ) {κ : Type}
    (callback : ScanFn (Entry w) κ) (a : κ) (hk : k < log.length) (hroom : Room checksum log)
    (hlaid : Laid checksum log) :
    scan D checksum (content checksum (log.take k)).length count callback
        (a, render K checksum log) =
      ((scanList callback ((log.drop k).take count) a).1,
        ((scanList callback ((log.drop k).take count) a).2, render K checksum log)) := by
  obtain ⟨p, hscan⟩ := scanReader_content K hw true 0 count callback a hk hroom hlaid
  rw [scan, Prog.bind_ok (Prog.onSnd_run (reader_render K log) a), Prog.bind_ok (Prog.get_run _)]
  simp only [hscan]
  rw [Prog.bind_ok (Prog.set_run _ _)]
  rfl

/-- **The block storage represents a log.** -/
def logStorage (hw : w ≤ 64) (checksum : Checksum) :
    LogStorage (Entry w) fun p e => e.Placed p where
  toStorage := blockStorage D checksum
  fresh := ⟨K.state false [] 0, 0⟩
  reopen := fun self => ⟨K.reopen self.device, 0⟩
  render := render K checksum
  endPos log := (content checksum log).length
  Room := Room checksum
  room_nil := by rw [Room, content_nil]; decide
  room_take k h := h.take k
  room_length {log} h := by
    have h1 := h.lt
    have h2 := length_le_content checksum log
    omega
  endPos_lt h := h.lt.trans (by decide)
  last_fresh := last_nil K 0 0
  last_reopen {log} hroom hlaid := by
    rw [render, K.reopen_eq]
    exact last_content K hw hroom hlaid 0 0
  put_room _ he hroom := put_content K hw he hroom
  put_full _ he hroom := put_full K hw he hroom
  truncate_render {log k} hroom hlaid hk := by
    obtain ⟨p, hcut⟩ := truncate_content K hk
    exact ⟨_, hcut, last_content K hw (hroom.take k) (Laid.take hlaid k) _ _⟩
  reader_render {log} := by
    change (do
      let _ ← reader D
      return () : Run (BlockStorage D) Unit) (render K checksum log) = _
    rw [Prog.bind_ok (reader_render K log)]
    rfl
  read_render hk _ hlaid := read_content K hw hk hlaid
  scan_render count _ callback a hk hroom hlaid := scan_content K hw count callback a hk hroom hlaid

/-- In memory, a log that is too long is a panic. -/
theorem memory_panicsWhenFull (hw : w ≤ 64) (checksum : Checksum) :
    (logStorage MemoryDevice.disk hw checksum).PanicsWhenFull := by
  intro log e _ he hfull
  have hlong : MemoryDevice.MAX_CAPACITY <
      (content checksum log).length + (record checksum e).length := by
    rw [← List.length_append, ← content_concat]
    exact Nat.lt_of_not_le hfull
  have hwrite : memoryDevice.write (record checksum e)
      (MemoryDevice.disk.state false (content checksum log) (content checksum log).length) =
        (.error (.panic .capacity), _) :=
    @MemoryDevice.write_full ⟨false, content checksum log, (content checksum log).length⟩ _ rfl
      hlong
  exact ⟨_, _, put_error hw he
    (flushOrDrop_panic (flushBuf_of_error (record_ne_nil checksum e) hwrite))⟩

end Log

end BlockStorage

end StratifiedHashTree
