import StratifiedHashTree.Mirror
import StratifiedHashTree.Serving

/-!
# Queries while the slate goes on

A query shares the storage with its slate, without a lock that would keep the two apart: a
call consists of many accesses to the storage, and between any two of them the slate may have
appended something. `StratifiedHashTree.Growing` is a slate together with what is appended
before each of the next accesses. What counts as one access depends on the storage. The
key-value storage holds its lock for a whole read or scan; on a block storage the query has
a cursor of its own, and every single call to the device is one
(`StratifiedHashTree.Growing.device`).

Appending leaves everything where it is. So the storage serves the entries that were there
when the query was opened, before as after, and a query cannot tell whether the slate has
gone on (`StratifiedHashTree.queries_isolated`). On the block storage there is something to
be shown for it: reading a record takes many accesses, and a scan asks for the end of the
content, which moves. What is read of a record lies in the content of before, and there the
device agrees with one that has nothing else
(`StratifiedHashTree.MemoryDevice.sealedDevice`); and a scan stops at the generation of the
query, wherever the end is. A buffer between the query and its device would fetch the same
bytes a little earlier.
-/

namespace StratifiedHashTree

open Outcome
open Prog (Agree AgreeAt Never Unknown Yields)

variable {w : ℕ}

/-! ### Slates that go on -/

/-- **A slate that goes on**: the payloads that are appended before each of the next accesses
to its storage. -/
structure Growing (B : Backend w) where
  slate : SlateOn B
  schedule : List (List Bytes)

namespace Growing

section Accesses

variable {B : Backend w} (H : HashFn w)

/-- An append, if it completes. -/
def appended (s : SlateOn B) (value : Bytes) : SlateOn B :=
  match Slate.append H value s with
  | (.ok _, s') => s'
  | (.error _, _) => s

/-- What happens before an access. -/
def goOn (self : Growing B) : Growing B :=
  match self.schedule with
  | [] => self
  | values :: rest => ⟨values.foldl (appended H) self.slate, rest⟩

/-- Replaces the storage of the slate. -/
def setStorage (self : Growing B) (storage : B.log.State) : Growing B :=
  { self with slate := { self.slate with storage := storage } }

/-- An access to the storage. -/
def access {α : Type} (x : Run B.log.State α) : Run (Growing B) α := fun self =>
  let self := self.goOn H
  let result := x self.slate.storage
  (result.1, self.setStorage result.2)

/-- An access to the storage with a callback. -/
def accessWith {κ α : Type} (x : Run (κ × B.log.State) α) : Run (κ × Growing B) α := fun s =>
  let self := s.2.goOn H
  let result := x (s.1, self.slate.storage)
  (result.1, (result.2.1, self.setStorage result.2.2))

/-- A storage whose calls are single accesses. -/
def storage (B : Backend w) : Storage (Entry w) where
  State := Growing B
  first := access H B.log.first
  last := access H B.log.last
  put position data := access H (B.log.put position data)
  truncate position := access H (B.log.truncate position)
  reader := access H B.log.reader
  read position := access H (B.log.read position)
  scan position count := fun callback => accessWith H (B.log.scan position count callback)

end Accesses

/-! ### Cursors -/

variable {hw : w ≤ 64} {checksum : Checksum} (H : HashFn w)

/-- The buffer of a block storage in memory. -/
def buffer (self : Growing (.blockMemory hw checksum)) : Bytes :=
  let storage : BlockStorage memoryDevice := self.slate.storage
  let device : MemoryDevice := storage.device
  device.buffer

/-- **The cursor of a query** on the buffer of a slate that goes on. -/
structure Cursor (hw : w ≤ 64) (checksum : Checksum) where
  growing : Growing (.blockMemory hw checksum)
  position : Position

/-- A call to the device of a query; it is one for reading. -/
def call {α : Type} (x : Run MemoryDevice α) : Run (Cursor hw checksum) α := fun self =>
  let growing := self.growing.goOn H
  let result := x { readOnly := true, buffer := growing.buffer, position := self.position }
  (result.1, ⟨growing, result.2.position⟩)

/-- The device of a query. -/
def device (hw : w ≤ 64) (checksum : Checksum) : BlockDevice where
  State := Cursor hw checksum
  read k := call H (MemoryDevice.read k)
  write bytes := call H (MemoryDevice.write bytes)
  seek pos := call H (MemoryDevice.seek pos)
  truncate position := call H (MemoryDevice.truncate position)
  cloneDevice self := (.ok { self with position := 0 }, self)

/-- An access to the storage that is not one of the cursor. -/
def besides {α : Type} (x : Run (Growing (.blockMemory hw checksum)) α) :
    Run (Cursor hw checksum) α := fun self =>
  ((x self.growing).1, ⟨(x self.growing).2, self.position⟩)

/-- The storage as a query sees it, through its cursor. -/
def cursorStorage (hw : w ≤ 64) (checksum : Checksum) : Storage (Entry w) where
  State := Cursor hw checksum
  first := besides (access H (Backend.blockMemory hw checksum).log.first)
  last := besides (access H (Backend.blockMemory hw checksum).log.last)
  put position data := besides (access H ((Backend.blockMemory hw checksum).log.put position data))
  truncate position :=
    besides (access H ((Backend.blockMemory hw checksum).log.truncate position))
  reader := besides (access H (Backend.blockMemory hw checksum).log.reader)
  read := BlockStorage.readReader (device H hw checksum) checksum
  scan position count := fun callback =>
    BlockStorage.scanReader (device H hw checksum) checksum position count callback

end Growing

/-- **The two backends in memory.** -/
inductive InMemory (w : ℕ) where
  | memKVS
  | block (hw : w ≤ 64) (checksum : Checksum)

namespace InMemory

/-- The backend of a slate. -/
def backend : InMemory w → Backend w
  | .memKVS => .memKVS
  | .block hw checksum => .blockMemory hw checksum

/-- The storage that a query shares with a slate. -/
def shared (H : HashFn w) : InMemory w → Storage (Entry w)
  | .memKVS => Growing.storage H .memKVS
  | .block hw checksum => Growing.cursorStorage H hw checksum

/-- A slate, with what will be appended to it, and the cursor of a query that was just
opened. -/
def start (H : HashFn w) : (M : InMemory w) → SlateOn M.backend → List (List Bytes) →
    (M.shared H).State
  | .memKVS, s, schedule => (⟨s, schedule⟩ : Growing .memKVS)
  | .block hw checksum, s, schedule => (⟨⟨s, schedule⟩, 0⟩ : Growing.Cursor hw checksum)

end InMemory

/-! ### What is there stays there -/

section Grown

variable {B : Backend w} {H : HashFn w} {L : ℕ} {vs : List Bytes}

/-- The slate has the payloads of before, and maybe more. -/
def Grown (H : HashFn w) (L : ℕ) (vs : List Bytes) (self : Growing B) : Prop :=
  ∃ ws, Reaches B H L (vs ++ ws) self.slate

theorem grown_appended (values : List Bytes) : ∀ {s : SlateOn B} {ws : List Bytes},
    Reaches B H L (vs ++ ws) s →
      ∃ ws', Reaches B H L (vs ++ ws') (values.foldl (Growing.appended H) s) := by
  induction values with
  | nil => exact fun h => ⟨_, h⟩
  | cons value values ih =>
    intro s ws h
    rw [List.foldl_cons, Growing.appended]
    rcases ha : Slate.append H value s with ⟨e | info, s'⟩
    · exact ih h
    · have h1 := h.append ha
      rw [List.append_assoc] at h1
      exact ih h1

theorem Grown.goOn {self : Growing B} (h : Grown H L vs self) : Grown H L vs (self.goOn H) := by
  rw [Growing.goOn]
  cases self.schedule with
  | nil => exact h
  | cons values rest =>
    obtain ⟨ws, hws⟩ := h
    exact grown_appended values hws

/-- **A slate that has gone on serves the entries of before**, and is unchanged by it. -/
theorem Grown.serves {self : Growing B} (h : Grown H L vs self) :
    Serves B.log.toStorage (· = self.slate.storage) H (payload vs) (positionOf B.log H (payload vs))
      vs.length := by
  obtain ⟨ws, hws⟩ := h
  have hs := hws.slateOf
  have hv : ∀ k, 1 ≤ k → k ≤ vs.length → payload (vs ++ ws) k = payload vs k :=
    fun k h1 h2 => (payload_append_left ws h1 h2).symm
  have h1 := hs.fits.serves.mono (show vs.length ≤ (vs ++ ws).length by
    rw [List.length_append]
    exact Nat.le_add_right _ _)
  rw [hs.storage_eq]
  exact h1.congr hv fun k _ h2 => positionOf_congr hv (h2.trans (Nat.le_succ _))

/-- An access that leaves the storage alone. -/
theorem access_keep {α : Type} {x : Run B.log.State α} {self : Growing B} {o : Result α}
    (h : x (self.goOn H).slate.storage = (o, (self.goOn H).slate.storage)) :
    Growing.access H x self = (o, self.goOn H) := by
  unfold Growing.access
  simp only [h]
  rfl

theorem accessWith_keep {κ α : Type} {x : Run (κ × B.log.State) α} {self : Growing B} {a b : κ}
    {o : Result α}
    (h : x (a, (self.goOn H).slate.storage) = (o, (b, (self.goOn H).slate.storage))) :
    Growing.accessWith H x (a, self) = (o, (b, self.goOn H)) := by
  unfold Growing.accessWith
  simp only [h]
  rfl

/-- A storage whose calls are single accesses serves them, too. -/
theorem serves_storage : Serves (Growing.storage H B) (Grown H L vs) H (payload vs)
    (positionOf B.log H (payload vs)) vs.length where
  read := by
    intro self hself k h1 h2
    obtain ⟨_, hread, rfl⟩ := hself.goOn.serves.read rfl k h1 h2
    exact ⟨self.goOn H, access_keep hread, hself.goOn⟩
  scan := by
    intro self hself k count h1 h2 h3 κ callback a
    obtain ⟨_, hscan, rfl⟩ := hself.goOn.serves.scan rfl k count h1 h2 h3 callback a
    exact ⟨self.goOn H, accessWith_keep hscan, hself.goOn⟩

end Grown

/-! ### Reading a record in many accesses -/

namespace MemoryDevice

/-- Reads from a buffer that something may come behind: it is left open what. -/
def sealedRead (k : ℕ) : Run MemoryDevice Bytes := fun self =>
  if 0 < k ∧ self.buffer.length < self.position + k then (.error .outOfFuel, self)
  else read k self

/-- The device in memory with such reads. -/
def sealedDevice : BlockDevice where
  State := MemoryDevice
  read := sealedRead
  write := write
  seek := seek
  truncate := truncate
  cloneDevice := cloneDevice

/-- It keeps its content. -/
def sealedDisk : Disk sealedDevice where
  state := disk.state
  content := disk.content
  content_eq := disk.content_eq
  seek_start := disk.seek_start
  seek_end := disk.seek_end
  seek_back := disk.seek_back
  read_eq := fun ro buffer bytes post p h => by
    change sealedRead bytes.length ⟨ro, buffer, p⟩ = _
    rw [sealedRead, if_neg]
    · exact disk.read_eq ro h
    · rintro ⟨hpos, hlt⟩
      -- what is read is there
      have hlen := congrArg List.length h
      rw [List.length_drop, List.length_append] at hlen
      simp only at hlt
      omega
  write_end := disk.write_end
  write_full := disk.write_full
  truncate_eq := disk.truncate_eq
  clone_eq := disk.clone_eq
  reopen := disk.reopen
  reopen_eq := disk.reopen_eq

end MemoryDevice

section Reading

variable {D D' : BlockDevice} {R : D.State → D'.State → Prop} {P Q : Failure Error → Prop}
  (K : Disk D')

/-- **A record is read through a device**, or a fault is reported, when its reads agree with those
of one that has the record. -/
theorem readData_of_agree (hw : w ≤ 64) (hchecked : ∀ k, k ≤ MAX_PAYLOAD_SIZE →
      Agree (ReadingAlike R) P Q (readExact (ChecksumRead.read D) k)
        (readExact (ChecksumRead.read D') k))
    (hstored : Agree R P Q (readExact D.read 8) (readExact D'.read 8))
    (checksum : Checksum) {p : Position} {e : Entry w} (h : e.Placed p) (ro : Bool)
    {buffer : Bytes} {q : ℕ} {post : Bytes} (hdrop : buffer.drop q = record checksum e ++ post)
    {s : D.State} (hst : R s (K.state ro buffer q)) :
    Yields P (fun s' => R s' (K.state ro buffer (q + (record checksum e).length))) e
      (readData D checksum p) s := by
  have hlt := length_record_lt hw checksum h
  have hlen := length_record checksum e
  rw [hlen] at hlt
  rw [record, checkedBytes, List.append_assoc, List.append_assoc] at hdrop
  -- the entry, and then what is compared with its bytes
  have hentry := consumes_readEntryFrom K h ro buffer q _ [] 0 hdrop (by omega)
  rw [List.nil_append, Nat.zero_add] at hentry
  have hdelimiter := readDelimiter_eq K hw checksum h ro (drop_add_length hdrop)
  have hnew : ReadingAlike R (ChecksumRead.new s)
      (⟨K.state ro buffer q, [], 0⟩ : ChecksumRead D') :=
    ⟨hst, rfl, rfl⟩
  have hmax : max MAX_PAYLOAD_SIZE w = MAX_PAYLOAD_SIZE := max_eq_left (hw.trans (by decide))
  have hread : Yields P (fun s' : ChecksumRead D =>
        R s'.input (K.state ro buffer (q + (record checksum e).length))) e
      (readEntryFrom (readExact (ChecksumRead.read D)) p >>= fun data =>
        ChecksumRead.checkDelimiter checksum >>= fun _ => Pure.pure data) (ChecksumRead.new s) := by
    refine ((agree_readEntryFrom (fun k hk => hchecked k (hk.trans hmax.le)) p hnew).yields
      hentry).bind fun s1 hst1 => ?_
    rw [ChecksumRead.checkDelimiter, bind_assoc]
    refine ((agree_readDelimiter (hchecked 4 (by decide)) hstored checksum hst1).yields
      hdelimiter).bind fun s2 hst2 => ?_
    simp only [ne_eq, not_true_eq_false, if_false]
    refine .of_eq rfl ?_
    have h3 := hst2.1
    rwa [hlen, ← Nat.add_assoc]
  rcases hread with ⟨f, s', hf, hs⟩ | ⟨s', hs, hs'⟩
  · exact Yields.of_fault (t := s'.input) (by rw [readData, hs]) hf
  · exact Yields.of_eq (t := s'.input) (by rw [readData, hs]) hs'

end Reading

/-! ### Cursors see what was there -/

section Cursors

variable {hw : w ≤ 64} {checksum : Checksum} {H : HashFn w} {L : ℕ} {vs : List Bytes}

/-- The log of a block storage in memory. -/
abbrev memoryLog (hw : w ≤ 64) (checksum : Checksum) : LogStorage (Entry w) Entry.Placed :=
  (Backend.blockMemory hw checksum).log

/-- The content of a block storage with some payloads. -/
abbrev contentOf (hw : w ≤ 64) (checksum : Checksum) (H : HashFn w) (vs : List Bytes) : Bytes :=
  BlockStorage.content checksum
    (history (memoryLog hw checksum) H (payload vs) vs.length)

/-- The buffer starts with the content of before. -/
theorem Grown.buffer_eq {self : Growing (.blockMemory hw checksum)} (h : Grown H L vs self) :
    (∃ rest, self.buffer = contentOf hw checksum H vs ++ rest) ∧ self.buffer.length < 2 ^ 63 := by
  obtain ⟨ws, hws⟩ := h
  have hs := hws.slateOf
  have hbuffer : self.buffer = contentOf hw checksum H (vs ++ ws) := by
    rw [Growing.buffer, hs.storage_eq]
    rfl
  have hlog : history (memoryLog hw checksum) H (payload vs) vs.length =
      (history (memoryLog hw checksum) H (payload (vs ++ ws)) (vs ++ ws).length).take
        vs.length := by
    rw [take_history _ _ _ (by rw [List.length_append]; exact Nat.le_add_right _ _)]
    exact history_congr fun k h1 h2 => payload_append_left ws h1 h2
  refine ⟨⟨((history (memoryLog hw checksum) H (payload (vs ++ ws))
    (vs ++ ws).length).drop vs.length).flatMap (record checksum), ?_⟩, ?_⟩
  · rw [hbuffer, contentOf, contentOf, hlog, ← BlockStorage.content_append, List.take_append_drop]
  · rw [hbuffer]
    exact BlockStorage.Room.lt hs.fits.room

/-- The device that has the content of before and nothing else, with the cursor at the same
position. -/
def Sees (H : HashFn w) (L : ℕ) (vs : List Bytes) (self : Growing.Cursor hw checksum)
    (device : MemoryDevice) : Prop :=
  Grown H L vs self.growing ∧
    device = MemoryDevice.disk.state true (contentOf hw checksum H vs) self.position

theorem call_eq {α : Type} {x : Run MemoryDevice α} {self : Growing.Cursor hw checksum}
    {o : Result α} {t : MemoryDevice}
    (h : x ⟨true, (self.growing.goOn H).buffer, self.position⟩ = (o, t)) :
    Growing.call H x self = (o, ⟨self.growing.goOn H, t.position⟩) := by
  rw [Growing.call]
  simp only [h]

/-- What is read in the content of before is what is read now. -/
theorem agree_cursor_read (k : ℕ) : Agree (Sees H L vs) Never Unknown
    ((Growing.device H hw checksum).read k) (MemoryDevice.sealedDevice.read k) := by
  rintro self _ ⟨hself, rfl⟩
  change AgreeAt _ _ _ (Growing.call H (MemoryDevice.read k)) (MemoryDevice.sealedRead k) self
    ⟨true, contentOf hw checksum H vs, self.position⟩
  by_cases hk : 0 < k ∧ (contentOf hw checksum H vs).length < self.position + k
  · exact .of_unknown (by rw [MemoryDevice.sealedRead, if_pos hk])
  · obtain ⟨⟨rest, hrest⟩, -⟩ := hself.goOn.buffer_eq
    have hbytes : ((self.growing.goOn H).buffer.drop self.position).take k =
        ((contentOf hw checksum H vs).drop self.position).take k := by
      rw [hrest]
      rcases Nat.eq_zero_or_pos k with rfl | hpos
      · rw [List.take_zero, List.take_zero]
      · have hle : self.position + k ≤ (contentOf hw checksum H vs).length := by
          refine Nat.le_of_not_lt fun hlt => hk ⟨hpos, hlt⟩
        rw [List.drop_append_of_le_length (by omega),
          List.take_append_of_le_length (by rw [List.length_drop]; omega)]
    have hnow : MemoryDevice.read k ⟨true, (self.growing.goOn H).buffer, self.position⟩ =
        (.ok (((contentOf hw checksum H vs).drop self.position).take k),
          ⟨true, (self.growing.goOn H).buffer, self.position +
            (((contentOf hw checksum H vs).drop self.position).take k).length⟩) := by
      rw [MemoryDevice.read]
      simp only [hbytes]
    refine .of_eq (call_eq hnow) ?_ ⟨hself.goOn, rfl⟩
    rw [MemoryDevice.sealedRead, if_neg hk]
    rfl

theorem seek_start_cursor (self : Growing.Cursor hw checksum) (q : Position) :
    (Growing.device H hw checksum).seek (.start q) self = (.ok q, ⟨self.growing.goOn H, q⟩) := rfl

theorem streamPosition_cursor {self : Growing.Cursor hw checksum} (h : self.position < 2 ^ 63) :
    (Growing.device H hw checksum).streamPosition self =
      (.ok self.position, ⟨self.growing.goOn H, self.position⟩) :=
  call_eq (MemoryDevice.streamPosition_eq h)

theorem seek_end_cursor {self : Growing.Cursor hw checksum} (hself : Grown H L vs self.growing) :
    ∃ last, (contentOf hw checksum H vs).length ≤ last ∧
      (Growing.device H hw checksum).seek (.fromEnd 0) self =
        (.ok last, ⟨self.growing.goOn H, last⟩) := by
  obtain ⟨⟨rest, hrest⟩, hlt⟩ := hself.goOn.buffer_eq
  refine ⟨(self.growing.goOn H).buffer.length, ?_, call_eq (MemoryDevice.seek_end_eq hlt)⟩
  rw [hrest, List.length_append]
  exact Nat.le_add_right _ _

/-- An entry starts before the end. -/
theorem positionOf_lt_contentOf {k : ℕ} (h1 : 1 ≤ k) (h2 : k ≤ vs.length) :
    positionOf (memoryLog hw checksum) H (payload vs) k < (contentOf hw checksum H vs).length :=
  positionOf_block_lt MemoryDevice.disk hw checksum h1 (Nat.lt_succ_of_le h2)

theorem Grown.fits {B : Backend w} {self : Growing B} (h : Grown H L vs self) :
    Fits B.log H (payload vs) vs.length := by
  obtain ⟨ws, hws⟩ := h
  have hle : vs.length ≤ (vs ++ ws).length := by
    rw [List.length_append]
    exact Nat.le_add_right _ _
  exact (hws.slateOf.fits.mono hle).congr fun k h1 h2 => (payload_append_left ws h1 h2).symm

/-- **A record of before is read**, in as many accesses as it takes. -/
theorem readData_cursor {self : Growing.Cursor hw checksum} (hself : Grown H L vs self.growing)
    {k : ℕ} (h1 : 1 ≤ k) (h2 : k ≤ vs.length)
    (hpos : self.position = positionOf (memoryLog hw checksum) H (payload vs) k) :
    ∃ self', readData (Growing.device H hw checksum) checksum
        (positionOf (memoryLog hw checksum) H (payload vs) k) self =
          (.ok (entryOf (memoryLog hw checksum) H (payload vs) k), self') ∧
      Grown H L vs self'.growing ∧
      self'.position = positionOf (memoryLog hw checksum) H (payload vs) (k + 1) := by
  have hplaced := hself.fits.placed h1 (h2.trans (Nat.le_succ _)) (hself.fits.payload_le k h1 h2)
  obtain ⟨post, hdrop⟩ := drop_block_content (H := H) (v := payload vs) MemoryDevice.disk hw
    checksum h1 h2
  have hsees : Sees H L vs self (MemoryDevice.sealedDisk.state true (contentOf hw checksum H vs)
      (positionOf (memoryLog hw checksum) H (payload vs) k)) := ⟨hself, by rw [hpos]; rfl⟩
  have hread : ∀ k, Agree (Sees H L vs) Never Unknown ((Growing.device H hw checksum).read k)
      (MemoryDevice.sealedDevice.read k) := agree_cursor_read
  obtain ⟨self', hread, hself', hstate⟩ := (@readData_of_agree w (Growing.device H hw checksum)
    MemoryDevice.sealedDevice (Sees H L vs) Never Unknown MemoryDevice.sealedDisk hw
    (fun k _ => agree_readExact (agree_checksumRead hread) k) (agree_readExact hread 8) checksum
    _ _ hplaced true _ _ _ hdrop _ hsees).ok
  refine ⟨self', hread, hself', ?_⟩
  rw [memoryLog, Backend.blockMemory, positionOf_block_succ H (payload vs) MemoryDevice.disk hw
    checksum h1]
  exact (congrArg MemoryDevice.position hstate).symm

/-- The loop of a scan passes the entries on, wherever the content ends now. -/
theorem scanFrom_cursor {κ : Type} (callback : ScanFn (Entry w) κ) {last : ℕ}
    (hlast : (contentOf hw checksum H vs).length ≤ last) : ∀ (count k : ℕ) (a : κ)
    (self : Growing.Cursor hw checksum), Grown H L vs self.growing → 1 ≤ k →
    k + count ≤ vs.length + 1 →
    self.position = positionOf (memoryLog hw checksum) H (payload vs) k →
    ∃ self', BlockStorage.scanFrom (Growing.device H hw checksum) checksum callback last count
        (positionOf (memoryLog hw checksum) H (payload vs) k) (a, self) =
      ((scanList callback (entriesFrom H (payload vs)
          (positionOf (memoryLog hw checksum) H (payload vs)) k count) a).1,
        ((scanList callback (entriesFrom H (payload vs)
          (positionOf (memoryLog hw checksum) H (payload vs)) k count) a).2, self')) ∧
      Grown H L vs self'.growing
  | 0, k, a, self, hself, _, _, _ => ⟨self, rfl, hself⟩
  | count + 1, k, a, self, hself, h1, h2, hpos => by
    have hlt : positionOf (memoryLog hw checksum) H (payload vs) k < last :=
      (positionOf_lt_contentOf h1 (by omega)).trans_le hlast
    obtain ⟨self1, hread, hself1, hpos1⟩ := readData_cursor hself h1 (by omega) hpos
    rw [entriesFrom, List.range'_succ, List.map_cons]
    rcases hcb : callback (entryOf (memoryLog hw checksum) H (payload vs) k) a with ⟨e | ⟨⟩, b⟩
    · refine ⟨self1, ?_, hself1⟩
      rw [BlockStorage.scanFrom_err hlt hread hcb, scanList, hcb]
    · have hbound : self1.position < 2 ^ 63 := by
        obtain ⟨⟨rest, hrest⟩, hbuffer⟩ := hself1.buffer_eq
        rw [hrest, List.length_append] at hbuffer
        rw [hpos1]
        have hle : positionOf (memoryLog hw checksum) H (payload vs) (k + 1) ≤
            (contentOf hw checksum H vs).length :=
          positionOf_mono (B := .blockMemory hw checksum) (show k + 1 ≤ vs.length + 1 by omega)
        exact hle.trans_lt ((Nat.le_add_right _ _).trans_lt hbuffer)
      have hposition := streamPosition_cursor (H := H) hbound
      rw [hpos1] at hposition
      obtain ⟨self2, hscan, hself2⟩ := scanFrom_cursor callback hlast count (k + 1) b
        ⟨self1.growing.goOn H, positionOf (memoryLog hw checksum) H (payload vs) (k + 1)⟩
        hself1.goOn (by omega) (by omega) rfl
      refine ⟨self2, ?_, hself2⟩
      rw [BlockStorage.scanFrom_ok hlt hread hcb hposition, hscan, scanList, hcb]
      rfl

/-- **A query on a block storage is served** through its cursor. -/
theorem serves_cursorStorage : Serves (Growing.cursorStorage H hw checksum)
    (fun self => Grown H L vs (Growing.Cursor.growing self)) H (payload vs)
    (positionOf (memoryLog hw checksum) H (payload vs)) vs.length where
  read := by
    intro self hself k h1 h2
    -- the cursor has moved to the position
    have hmoved : Grown H L vs (⟨(Growing.Cursor.growing self).goOn H,
        positionOf (memoryLog hw checksum) H (payload vs) k⟩ :
          Growing.Cursor hw checksum).growing := hself.goOn
    obtain ⟨self', hread, hself', -⟩ := readData_cursor hmoved h1 h2 rfl
    exact ⟨self', (Prog.bind_ok (seek_start_cursor self _)).trans hread, hself'⟩
  scan := by
    intro self hself k count h1 h2 h3 κ callback a
    obtain ⟨last, hlast, hend⟩ := seek_end_cursor (H := H) hself
    have hlt : positionOf (memoryLog hw checksum) H (payload vs) k < last :=
      (positionOf_lt_contentOf h1 (by omega)).trans_le hlast
    obtain ⟨self', hscan, hself'⟩ := scanFrom_cursor callback hlast count k a
      ⟨((Growing.Cursor.growing self).goOn H).goOn H,
        positionOf (memoryLog hw checksum) H (payload vs) k⟩ hself.goOn.goOn h1 h3 rfl
    exact ⟨self', (BlockStorage.scanReader_of_lt hend hlt (seek_start_cursor _ _)).trans hscan,
      hself'⟩

end Cursors

/-! ### Queries cannot tell -/

section Queries

variable {H : HashFn w} {L : ℕ} {vs : List Bytes}

variable (H L vs) in
/-- **Whatever a slate appends, its queries are served.** -/
theorem InMemory.exists_serves (M : InMemory w) : ∃ I : (M.shared H).State → Prop,
    (∀ {s : SlateOn M.backend}, Reaches M.backend H L vs s → ∀ schedule, I (M.start H s schedule)) ∧
      Serves (M.shared H) I H (payload vs) (positionOf M.backend.log H (payload vs)) vs.length := by
  have hgrown : ∀ {B : Backend w} {s : SlateOn B}, Reaches B H L vs s → ∀ schedule,
      Grown H L vs (⟨s, schedule⟩ : Growing B) := by
    intro B s h schedule
    refine ⟨[], ?_⟩
    rw [List.append_nil]
    exact h
  cases M with
  | memKVS => exact ⟨_, fun h schedule => hgrown h schedule, serves_storage⟩
  | block hw checksum => exact ⟨_, fun h schedule => hgrown h schedule, serves_cursorStorage⟩

/-- **Open queries are isolated from appends.** A query was opened on a slate, of the current
generation or of an old one, and is asked any number of things; meanwhile the slate goes on, as
it likes, between any two accesses to the storage. Every answer is the one that the query would
have given on the storage as it was. -/
theorem queries_isolated (M : InMemory w) {s s' : SlateOn M.backend} {m : Index}
    {q : Query M.backend.log.toStorage} (h : Reaches M.backend H L vs s) (hq : Opens s m q s')
    (schedule : List (List Bytes)) (fuel : ℕ) (calls : List (Call w)) :
    (runAll ((q.onto (M.shared H)).call fuel) calls (M.start H s' schedule)).1 =
      (runAll (q.call fuel) calls s'.storage).1 := by
  have hs := h.slateOf
  obtain ⟨rfl, hm, hc⟩ := hs.of_opens hq
  obtain ⟨I, hI, hserves⟩ := M.exists_serves H L vs
  have hnow := hs.fits.serves
  rw [← hs.storage_eq] at hnow
  exact (Query.runAll_call_eq (hnow.mono hm) (hserves.mono hm) hc fuel calls
    ⟨rfl, hI h schedule⟩).symm

/-- Four questions to an old generation of a block storage, while it grows. -/
theorem queries_isolated_three :
    ∃ (s s' : SlateOn tinyBlock) (q : Query tinyBlock.log.toStorage),
      Reaches tinyBlock byteSum 0 [[1], [], [2, 3]] s ∧ Opens s 2 q s' ∧
      (runAll ((q.onto ((InMemory.block (by decide) fun _ => 7).shared byteSum)).call 65)
        [.get 1, .getSample 2, .readEntry 1, .get 2]
        ((InMemory.block (by decide) fun _ => 7).start byteSum s'
          [[[4]], [], [[5], [6]], [[]]])).1 =
      (runAll (q.call 65) [.get 1, .getSample 2, .readEntry 1, .get 2] s'.storage).1 := by
  obtain ⟨s, h⟩ := exists_reaches_of_length_lt tinyBlock byteSum 0 [[1], [], [2, 3]]
    (by decide) (by decide)
  obtain ⟨snapshot, hsnapshot, hview⟩ :=
    h.slateOf.viewAt (show INDEX_SIZE < 65 by decide) (show 1 ≤ 2 by decide) (by decide)
  have hq : Opens s 2 _ s := .historical (by decide) hsnapshot hview.query_eq
  exact ⟨s, s, _, h, hq, queries_isolated (.block (by decide) fun _ => 7) h hq _ 65 _⟩

end Queries

end StratifiedHashTree
