import StratifiedHashTree.Files
import StratifiedHashTree.Readers

/-!
# The block storage on a file

The device on a file mirrors the one in memory (`StratifiedHashTree.FileDevice.mirror`) in all
calls but one. To cut the content, the device in memory moves its cursor to the new end; the
file keeps its cursor, now behind the end. The block storage goes on from its own position
without moving the cursor, so the next record leaves a gap; and the next cut ends in a debug
assertion. When the storage is asked for its first or last datum in between, the cursor is
brought to the end, and everything is fine again.

This is all that tells the two storages apart
(`StratifiedHashTree.Handles.file_agrees_iff`).
-/

namespace StratifiedHashTree

open Outcome Prog AppendLog

variable {w : ℕ} {κ : Type}

/-- `BlockStorage::from_file`, for the file with some content. -/
def BlockStorage.fromFile (content : Bytes) (readOnly : Bool) : BlockStorage fileDevice where
  device := FileDevice.withOptions content ⟨!readOnly⟩ ⟨false⟩
  position := 0

/-- The device after a `put` at the remembered position. -/
theorem BlockStorage.device_put {D : BlockDevice} {checksum : Checksum} (hw : w ≤ 64) {e : Entry w}
    {p : ℕ} (he : e.Placed p) {device : D.State} {rest : Bytes × D.State}
    (h : flushOrDrop D (record checksum e, device) = (.ok (), rest)) :
    (put D checksum p e ⟨device, p⟩).2.device = rest.2 := by
  rw [put_eq hw he h]
  simp only [Prog.liftM_eq]
  rcases addBits 64 p (record checksum e).length with f | next
  · rfl
  · rfl

/-- The length after writing behind the end. -/
theorem length_overwrite_behind {content : Bytes} {p : ℕ} (bytes : Bytes) (h : content.length ≤ p) :
    (overwrite content p bytes).length = p + bytes.length := by
  rw [overwrite, List.length_append, List.length_append, List.length_take, List.length_append,
    List.length_replicate, List.length_drop]
  omega

namespace FileDevice

/-- **Cutting the file when the cursor is elsewhere** ends in a debug assertion. -/
theorem truncate_panic {self : FileDevice} (hcursor : self.file.content.length ≠ self.file.cursor)
    (q : ℕ) : truncate q self = (panic .assertion, self) := by
  rw [truncate, Prog.bind_ok (streamPosition_eq self), Prog.bind_ok (Prog.get_run _), Prog.liftM_eq,
    debugAssert, if_neg hcursor]
  rfl

/-- What a `put` at the remembered position leaves of the file: the record is at the cursor,
wherever this is. -/
theorem put_device (hw : w ≤ 64) (checksum : Checksum) {e : Entry w} {p : ℕ} (he : e.Placed p)
    {self : FileDevice} (hwritable : self.file.writable = true)
    (hroom : self.file.cursor + (record checksum e).length ≤ File.MAX_OFFSET) :
    (BlockStorage.put fileDevice checksum p e ⟨self, p⟩).2.device = { self with file := { self.file
      with content := overwrite self.file.content self.file.cursor (record checksum e)
           cursor := self.file.cursor + (record checksum e).length } } :=
  BlockStorage.device_put hw he (BlockStorage.flushOrDrop_ok
    (flushBuf_of_write (BlockStorage.record_ne_nil checksum e) (write_eq hwritable hroom)))

/-- A `put` that would go past the largest offset is an error. -/
theorem put_tooLarge (hw : w ≤ 64) (checksum : Checksum) {e : Entry w} {p : ℕ} (he : e.Placed p)
    {self : FileDevice} (hwritable : self.file.writable = true)
    (hfull : File.MAX_OFFSET < self.file.cursor + (record checksum e).length) :
    (BlockStorage.put fileDevice checksum p e ⟨self, p⟩).1 =
      Outcome.err File.fileTooLarge := by
  have hflush : flushBuf fileDevice.write (record checksum e, self) =
      (.error (.err File.fileTooLarge), (record checksum e, self)) :=
    flushBuf_of_error (BlockStorage.record_ne_nil checksum e) (write_full hwritable hfull)
  rw [BlockStorage.put_error hw he (BlockStorage.flushOrDrop_err hflush hflush)]
  rfl

/-- **The device on a file mirrors the device in memory.** -/
def mirror : Mirror fileDevice where
  same := fun ro s t => s.file.content = t.buffer ∧ t.buffer.length < 2 ^ 63 ∧
    (ro = false → s.file.writable = true ∧ t.readOnly = false)
  rel := fun ro s t => s.file.content = t.buffer ∧ t.buffer.length < 2 ^ 63 ∧
    (ro = false → s.file.writable = true ∧ t.readOnly = false) ∧
      s.file.cursor = t.position ∧ t.position < 2 ^ 63
  same_of_rel := fun h => ⟨h.1, h.2.1, h.2.2.1⟩
  length_lt := fun h => h.2.1
  position_lt := fun h => h.2.2.2.2
  read := fun ro k s t h => by
    obtain ⟨h1, h2, h3, h4, h5⟩ := h
    have hbytes : (s.file.content.drop s.file.cursor).take k =
        (t.buffer.drop t.position).take k := by rw [h1, h4]
    refine Or.inr (Or.inr ⟨congrArg Except.ok hbytes, h1, h2, h3, ?_,
      MemoryDevice.add_take_lt h5 h2 k⟩)
    exact congrArg₂ (· + ·) h4 (congrArg List.length hbytes)
  write := fun bytes s t h => by
    obtain ⟨h1, h2, h3, h4, h5⟩ := h
    obtain ⟨h6, h7⟩ := h3 rfl
    by_cases hfull : MemoryDevice.MAX_CAPACITY < t.position + bytes.length
    · exact Or.inr (Or.inl ⟨_, rfl, congrArg Prod.fst (MemoryDevice.write_full h7 hfull)⟩)
    · have hlt := Nat.lt_of_le_of_lt (Nat.le_of_not_lt hfull)
        (show MemoryDevice.MAX_CAPACITY < 2 ^ 63 by decide)
      have hroom : s.file.cursor + bytes.length ≤ File.MAX_OFFSET := by
        rw [h4]
        exact Nat.le_of_not_lt hfull
      refine AgreeAt.of_eq (write_eq h6 hroom)
        (MemoryDevice.write_room h7 (Nat.le_of_not_lt hfull)) ⟨?_, ?_, fun _ => ⟨h6, h7⟩, ?_, hlt⟩
      · simp only [h1, h4]
      · exact lt_of_le_of_lt (MemoryDevice.length_overwrite_le t.buffer t.position bytes)
          (max_lt h2 hlt)
      · simp only [h4]
  seek_start := fun {ro s t q} h hq => by
    obtain ⟨h1, h2, h3⟩ := h
    exact AgreeAt.of_eq (seek_start_eq s q) (MemoryDevice.seek_start_eq t q) ⟨h1, h2, h3, rfl, hq⟩
  seek_end := fun {ro s t} h => by
    obtain ⟨h1, h2, h3⟩ := h
    have hs := seek_end_eq s
    rw [h1] at hs
    exact AgreeAt.of_eq hs (MemoryDevice.seek_end_eq h2) ⟨h1, h2, h3, rfl, h2⟩
  seek_back := fun {ro s t d} h hd => by
    obtain ⟨h1, h2, h3, h4, h5⟩ := h
    have hs := @seek_back_eq s d (by rw [h4]; exact hd)
    rw [h4] at hs
    exact AgreeAt.of_eq hs (MemoryDevice.seek_back_eq hd h5)
      ⟨h1, h2, h3, rfl, lt_of_le_of_lt (Nat.sub_le _ d) h5⟩

end FileDevice

/-! ### The two storages side by side -/

namespace Handles

/-- What a storage on a file has stored. -/
def fileOf (self : BlockStorage fileDevice) : Bytes :=
  let device : FileDevice := self.device
  device.file.content

/-- Where the cursor of a storage on a file is. -/
def cursorOf (self : BlockStorage fileDevice) : Position :=
  let device : FileDevice := self.device
  device.file.cursor

/-- What a storage in memory has stored. -/
def bufferOf (self : BlockStorage memoryDevice) : Bytes :=
  let device : MemoryDevice := self.device
  device.buffer

/-- Where the cursor of a storage in memory is. -/
def memoryCursorOf (self : BlockStorage memoryDevice) : Position :=
  let device : MemoryDevice := self.device
  device.position

/-- Makes a call of the storage on a file, and looks at the file afterwards. -/
def observeFile (checksum : Checksum) (request : Request (Entry w) κ) (self : Handles fileDevice) :
    (Reply (Entry w) κ × Bytes) × Handles fileDevice :=
  let result := serve fileDevice FileDevice.attach checksum request self
  ((result.1, fileOf result.2.storage), result.2)

/-- Makes a call of the storage in memory, and looks at its buffer afterwards. -/
def observeMemory (checksum : Checksum) (request : Request (Entry w) κ)
    (self : Handles memoryDevice) : (Reply (Entry w) κ × Bytes) × Handles memoryDevice :=
  let result := serveMemory checksum request self
  ((result.1, bufferOf result.2.storage), result.2)

/-- **The two storages are alike**: they have the same content, and the cursor of the file is
at the end – or behind it, when the content was cut. -/
structure Alike (checksum : Checksum) (handles : Handles fileDevice)
    (memory : Handles memoryDevice) (client : Client (Entry w)) : Prop where
  holds : Holds checksum memory client
  same : FileDevice.mirror.SameStorage handles.storage memory.storage
  cursor_eq : client.cut = false → cursorOf handles.storage = endOf checksum client.log
  cursor_lt : client.cut = true → endOf checksum client.log < cursorOf handles.storage
  readers_eq : handles.readers.length = memory.readers.length

/-- A request that has to wait until the cursor is at the end. -/
def Ready (request : Request (Entry w) κ) (client : Client (Entry w)) : Prop :=
  match request with
  | .put _ _ | .truncate _ => client.cut = false
  | _ => True

/-- The request is answered alike from alike states, if it need not wait. -/
def AnswersAlike (checksum : Checksum) (request : Request (Entry w) κ)
    (handles : Handles fileDevice)
    (memory : Handles memoryDevice) (client : Client (Entry w)) : Prop :=
  (observeFile checksum request handles).1 = (observeMemory checksum request memory).1 ∧
    Alike checksum (observeFile checksum request handles).2
      (observeMemory checksum request memory).2 (client.after (endOf checksum) request)

variable {checksum : Checksum} {handles : Handles fileDevice} {memory : Handles memoryDevice}
  {client client' : Client (Entry w)}

theorem Holds.memoryCursorOf_eq (h : Holds checksum memory client) :
    memoryCursorOf memory.storage = endOf checksum client.log := by
  rw [h.storage_eq]
  rfl

theorem Holds.bufferOf_eq (h : Holds checksum memory client) :
    bufferOf memory.storage = BlockStorage.content checksum client.log := by
  rw [h.storage_eq]
  rfl

/-- A storage on a file with the content of the log. -/
theorem Holds.sameStorage (h : Holds checksum memory client) {storage : BlockStorage fileDevice}
    (hcontent : fileOf storage = BlockStorage.content checksum client.log)
    (hwritable : (show FileDevice from storage.device).file.writable = true)
    (hposition : storage.position = endOf checksum client.log) :
    FileDevice.mirror.SameStorage storage memory.storage := by
  have hbuffer := h.bufferOf_eq
  refine ⟨⟨hcontent.trans hbuffer.symm, ?_, fun _ => ⟨hwritable, ?_⟩⟩, ?_⟩
  · exact lt_of_eq_of_lt (congrArg List.length hbuffer) h.room.lt
  · exact congrArg (fun storage : BlockStorage memoryDevice =>
      (show MemoryDevice from storage.device).readOnly) h.storage_eq
  · rw [h.storage_eq]
    exact hposition

/-- Alike storages whose cursors are at the end. -/
theorem Alike.storing (h : Alike checksum handles memory client) (hcut : client.cut = false) :
    FileDevice.mirror.Storing handles.storage memory.storage := by
  obtain ⟨h1, h2, h3⟩ := h.same.1
  have hposition := h.holds.memoryCursorOf_eq
  refine ⟨⟨h1, h2, h3, (h.cursor_eq hcut).trans hposition.symm, ?_⟩, h.same.2⟩
  exact lt_of_eq_of_lt hposition h.holds.room.lt

/-- After a request that has moved the cursors to the end. -/
theorem Alike.of_storing (h : Alike checksum handles memory client)
    {storage : BlockStorage fileDevice} {storage' : BlockStorage memoryDevice}
    (hst : FileDevice.mirror.Storing storage storage')
    (hholds : Holds checksum { memory with storage := storage' } client')
    (hcut : client'.cut = false) : Alike checksum { handles with storage := storage }
      { memory with storage := storage' } client' where
  holds := hholds
  same := ⟨FileDevice.mirror.same_of_rel hst.1, hst.2⟩
  cursor_eq := fun _ => hst.1.2.2.2.1.trans hholds.memoryCursorOf_eq
  cursor_lt := fun h => absurd (hcut.symm.trans h) (by simp)
  readers_eq := h.readers_eq

/-- Programs that agree, when the one in memory returns. -/
theorem ok_of_agree {α : Type} {x : Run (BlockStorage fileDevice) α}
    {y : Run (BlockStorage memoryDevice) α} {s : BlockStorage fileDevice}
    {t : BlockStorage memoryDevice} {a : α}
    (h : AgreeAt FileDevice.mirror.Storing Never Full x y s t) (hy : (y t).1 = .ok a) :
    (x s).1 = (y t).1 ∧ FileDevice.mirror.Storing (x s).2 (y t).2 := by
  obtain ⟨s', h1, h2⟩ := h.ok (Prod.ext hy rfl : y t = (.ok a, (y t).2))
  rw [h1, hy]
  exact ⟨rfl, h2⟩

theorem Alike.first (hw : w ≤ 64) (h : Alike checksum handles memory client) :
    AnswersAlike checksum (.first : Request (Entry w) κ) handles memory client := by
  obtain ⟨h1, h2⟩ := h.holds.serve_first (κ := κ) hw
  obtain ⟨h3, h4⟩ := ok_of_agree (FileDevice.mirror.first checksum h.same)
    (Reply.datum.inj (h1.1 _ rfl))
  refine ⟨Prod.ext (congrArg Reply.datum h3) h4.1.1, h.of_storing h4 h2 rfl⟩

theorem Alike.last (hw : w ≤ 64) (h : Alike checksum handles memory client) :
    AnswersAlike checksum (.last : Request (Entry w) κ) handles memory client := by
  obtain ⟨h1, h2⟩ := h.holds.serve_last (κ := κ) hw
  obtain ⟨h3, h4⟩ := ok_of_agree (FileDevice.mirror.last checksum h.same)
    (Reply.datum.inj (h1.1 _ rfl))
  exact ⟨Prod.ext (congrArg Reply.datum h3) h4.1.1, h.of_storing h4 h2 rfl⟩

/-- A `put` when the cursors are at the end. -/
theorem Alike.put (hw : w ≤ 64) (h : Alike checksum handles memory client)
    (hcut : client.cut = false) {e : Entry w} (he : e.Placed (endOf checksum client.log))
    (hroom : BlockStorage.Room checksum (client.log ++ [e])) :
    AnswersAlike checksum (.put (endOf checksum client.log) e : Request (Entry w) κ) handles memory
      client := by
  obtain ⟨h1, h2⟩ := h.holds.serve_put (κ := κ) hw he hroom
  obtain ⟨h3, h4⟩ := ok_of_agree
    (FileDevice.mirror.put hw checksum he h.holds.room.lt (h.storing hcut))
    (Reply.next.inj (h1.1 _ rfl))
  exact ⟨Prod.ext (congrArg Reply.next h3) h4.1.1, h.of_storing h4 h2 hcut⟩

/-- **A `put` after a cut leaves a gap.** -/
theorem Alike.put_cut (hw : w ≤ 64) (h : Alike checksum handles memory client)
    (hcut : client.cut = true) {e : Entry w} (he : e.Placed (endOf checksum client.log))
    (hroom : BlockStorage.Room checksum (client.log ++ [e])) :
    (observeFile checksum (.put (endOf checksum client.log) e : Request (Entry w) κ) handles).1 ≠
      (observeMemory checksum (.put (endOf checksum client.log) e) memory).1 := by
  intro heq
  obtain ⟨⟨h1, -⟩, h2⟩ := h.holds.serve_put (κ := κ) hw he hroom
  obtain ⟨⟨device, position⟩, readers⟩ := handles
  obtain rfl : position = endOf checksum client.log :=
    h.same.2.trans (congrArg BlockStorage.position h.holds.storage_eq)
  have hwritable := (h.same.1.2.2 rfl).1
  by_cases hfull : File.MAX_OFFSET <
    cursorOf ⟨device, endOf checksum client.log⟩ + (record checksum e).length
  · -- the record does not fit behind the gap
    have hfile : (observeFile checksum (.put (endOf checksum client.log) e : Request (Entry w) κ)
        ⟨⟨device, endOf checksum client.log⟩, readers⟩).1.1 =
        .next (Outcome.err File.fileTooLarge) :=
      congrArg Reply.next (FileDevice.put_tooLarge hw checksum he hwritable hfull)
    have hok := (congrArg Reply.plain (hfile.symm.trans (congrArg Prod.fst heq))).trans (h1 _ rfl)
    exact absurd (Reply.next.inj hok) (by simp [Outcome.err])
  -- the record is written at the old end, so the file is too long from then on
  have hdevice := FileDevice.put_device hw checksum he hwritable (Nat.le_of_not_lt hfull)
  have hcursor : endOf checksum client.log < cursorOf ⟨device, endOf checksum client.log⟩ :=
    h.cursor_lt hcut
  have hcontent : fileOf ⟨device, endOf checksum client.log⟩ =
      BlockStorage.content checksum client.log := h.same.1.1.trans h.holds.bufferOf_eq
  have hfile : (observeFile checksum (.put (endOf checksum client.log) e : Request (Entry w) κ)
      ⟨⟨device, endOf checksum client.log⟩, readers⟩).1.2 =
        overwrite (fileOf ⟨device, endOf checksum client.log⟩)
          (cursorOf ⟨device, endOf checksum client.log⟩) (record checksum e) :=
    congrArg (fun d : FileDevice => d.file.content) hdevice
  have hlen := congrArg List.length
    (hfile.symm.trans ((congrArg Prod.snd heq).trans h2.bufferOf_eq))
  have hlog : (client.after (endOf checksum)
      (.put (endOf checksum client.log) e : Request (Entry w) κ)).log = client.log ++ [e] := rfl
  rw [hcontent, length_overwrite_behind _ hcursor.le, hlog, BlockStorage.content_concat,
    List.length_append] at hlen
  exact absurd (Nat.add_right_cancel hlen) hcursor.ne'

/-- A cut that leaves the file as it should be, but for the cursor. -/
theorem Alike.of_truncate (h : Alike checksum handles memory client) {p : Position}
    (hp : ¬Inside (endOf checksum) client.log p) {cut : Bool} {log : List (Entry w)}
    {storage : BlockStorage fileDevice}
    (hfile : BlockStorage.truncate fileDevice p handles.storage = (.ok cut, storage))
    (hserve : AppendLog.serve (κ := κ) (endOf checksum) (.truncate p) client.log =
      (.truncated (.ok cut), log))
    (hcontent : fileOf storage = BlockStorage.content checksum log)
    (hwritable : (show FileDevice from storage.device).file.writable = true)
    (hposition : storage.position = endOf checksum log)
    (hcursor : (client.after (endOf checksum) (.truncate p : Request (Entry w) κ)).cut = false →
      cursorOf storage = endOf checksum log)
    (hlt : (client.after (endOf checksum) (.truncate p : Request (Entry w) κ)).cut = true →
      endOf checksum log < cursorOf storage) :
    AnswersAlike checksum (.truncate p : Request (Entry w) κ) handles memory client := by
  obtain ⟨h1, h2⟩ := h.holds.serve_truncate (κ := κ) hp
  have hlog : (client.after (endOf checksum) (.truncate p : Request (Entry w) κ)).log = log :=
    congrArg Prod.snd hserve
  have hobserve : observeFile checksum (.truncate p : Request (Entry w) κ) handles =
      ((.truncated (.ok cut), fileOf storage), { handles with storage := storage }) :=
    congrArg (fun result : Result Bool × BlockStorage fileDevice =>
      ((Reply.truncated result.1, fileOf result.2), { handles with storage := result.2 })) hfile
  rw [← hlog] at hcontent hposition hcursor hlt
  rw [AnswersAlike, hobserve]
  refine ⟨Prod.ext ?_ ?_, h2, h2.sameStorage hcontent hwritable hposition, hcursor, hlt,
    h.readers_eq⟩
  · exact ((h1.1 _ rfl).trans (congrArg Prod.fst hserve)).symm
  · exact hcontent.trans h2.bufferOf_eq.symm

/-- A cut when the cursors are at the end. -/
theorem Alike.truncate (h : Alike checksum handles memory client) (hcut : client.cut = false)
    {p : Position} (hp : ¬Inside (endOf checksum) client.log p) :
    AnswersAlike checksum (.truncate p : Request (Entry w) κ) handles memory client := by
  have hcursor := h.cursor_eq hcut
  have hcontent : fileOf handles.storage = BlockStorage.content checksum client.log :=
    h.same.1.1.trans h.holds.bufferOf_eq
  have hposition : handles.storage.position = endOf checksum client.log :=
    h.same.2.trans (congrArg BlockStorage.position h.holds.storage_eq)
  have hwritable := (h.same.1.2.2 rfl).1
  have hend : cursorOf handles.storage = (fileOf handles.storage).length := by
    rw [hcursor, hcontent]
  rcases hl : locate (endOf checksum) client.log p with _ | k
  · -- nothing is cut, and the cursor stays at the end
    have hle : (fileOf handles.storage).length ≤ p := by
      rw [hcontent]
      exact Nat.le_of_not_lt fun hlt => hp ⟨hlt, hl⟩
    have hafter :
        (client.after (endOf checksum) (.truncate p : Request (Entry w) κ)).cut = false := by
      rw [Client.after, hcut, hl]
      rfl
    refine h.of_truncate hp (BlockStorage.truncate_of_false (D := fileDevice)
      (FileDevice.truncate_false hend hle) handles.storage.position) ?_ hcontent hwritable hposition
        (fun _ => hcursor) fun h => absurd (hafter.symm.trans h) (by simp)
    rw [AppendLog.serve, hl]
  · -- the length is set, and the cursor stays behind it
    obtain ⟨hk, rfl⟩ := of_locate hl
    have hlt : endOf checksum (client.log.take k) < endOf checksum client.log := by
      have h1 := BlockStorage.content_take_lt checksum hk (Nat.le_refl _)
      rwa [List.take_length] at h1
    have hafter : (client.after (endOf checksum)
        (.truncate (endOf checksum (client.log.take k)) : Request (Entry w) κ)).cut = true := by
      rw [Client.after, hl]
      exact Bool.or_true _
    refine h.of_truncate hp (BlockStorage.truncate_of_true (D := fileDevice)
      (FileDevice.truncate_true hwritable hend
        (lt_of_lt_of_eq hlt (congrArg List.length hcontent.symm)))
        handles.storage.position) ?_ ?_ hwritable rfl
        (fun h => absurd (hafter.symm.trans h) (by simp)) fun _ => ?_
    · rw [AppendLog.serve, hl]
    · exact (congrArg (List.take (endOf checksum (client.log.take k))) hcontent).trans
        (BlockStorage.take_content checksum client.log k)
    · exact lt_of_lt_of_eq hlt hcursor.symm

/-- **A cut after a cut is a panic.** -/
theorem Alike.truncate_cut (h : Alike checksum handles memory client) (hcut : client.cut = true)
    {p : Position} (hp : ¬Inside (endOf checksum) client.log p) :
    (observeFile checksum (.truncate p : Request (Entry w) κ) handles).1 ≠
      (observeMemory checksum (.truncate p) memory).1 := by
  intro heq
  obtain ⟨h1, -⟩ := h.holds.serve_truncate (κ := κ) hp
  have hlen : (fileOf handles.storage).length = endOf checksum client.log :=
    congrArg List.length (h.same.1.1.trans h.holds.bufferOf_eq)
  have hcursor : (fileOf handles.storage).length ≠ cursorOf handles.storage :=
    (lt_of_eq_of_lt hlen (h.cursor_lt hcut)).ne
  have hfile := BlockStorage.truncate_of_error (D := fileDevice)
    (FileDevice.truncate_panic hcursor p) handles.storage.position
  have hreply : (observeFile checksum (.truncate p : Request (Entry w) κ) handles).1.1 =
      .truncated (panic .assertion) :=
    congrArg (fun result : Result Bool × BlockStorage fileDevice => Reply.truncated result.1) hfile
  have hpanic : (AppendLog.serve (κ := κ) (endOf checksum) (.truncate p) client.log).1 =
      .truncated (panic .assertion) :=
    (h1.1 _ rfl).symm.trans ((congrArg Prod.fst heq).symm.trans hreply)
  rw [AppendLog.serve] at hpanic
  rcases hl : locate (endOf checksum) client.log p with _ | k
  · rw [hl] at hpanic
    exact absurd hpanic (by simp [Outcome.panic])
  · rw [hl] at hpanic
    exact absurd hpanic (by simp [Outcome.panic])

/-- After a request that has left the storages alone. -/
theorem Alike.of_keep (h : Alike checksum handles memory client) {memory' : Handles memoryDevice}
    {readers : List fileDevice.State} (hholds : Holds checksum memory' client')
    (hlog : client'.log = client.log) (hcut : client'.cut = client.cut)
    (hreaders : readers.length = client'.readers) :
    Alike checksum ⟨handles.storage, readers⟩ memory' client' := by
  have hstorage : memory'.storage = memory.storage := by
    rw [hholds.storage_eq, h.holds.storage_eq, hlog]
  refine ⟨hholds, ?_, fun hc => ?_, fun hc => ?_, hreaders.trans hholds.readers_eq.symm⟩
  · rw [hstorage]
    exact h.same
  · rw [hlog]
    exact h.cursor_eq (hcut.symm.trans hc)
  · rw [hlog]
    exact h.cursor_lt (hcut.symm.trans hc)

/-- The contents of storages that are alike. -/
theorem Alike.fileOf_eq (h : Alike checksum handles memory client) :
    fileOf handles.storage = bufferOf memory.storage := h.same.1.1

/-- Opening a reader. -/
theorem Alike.reader (h : Alike checksum handles memory client) :
    AnswersAlike checksum (.reader : Request (Entry w) κ) handles memory client := by
  obtain ⟨h1, h2⟩ := h.holds.serve_reader (κ := κ)
  have hreaders : handles.readers.length + 1 = client.readers + 1 := by
    rw [h.readers_eq, h.holds.readers_eq]
  have halike : Alike checksum
      (observeFile checksum (.reader : Request (Entry w) κ) handles).2 _
        (client.after (endOf checksum) (.reader : Request (Entry w) κ)) :=
    h.of_keep h2 rfl rfl (List.length_append.trans hreaders)
  exact ⟨Prod.ext (h1.1 _ rfl).symm halike.fileOf_eq, halike⟩

/-- The readers of storages that are alike see the same. -/
theorem Alike.attach (h : Alike checksum handles memory client) (device : FileDevice)
    (device' : MemoryDevice) : FileDevice.mirror.same true
      (device.attach handles.storage.device) (device'.attach memory.storage.device) :=
  ⟨h.same.1.1, h.same.1.2.1, fun hro => absurd hro (by simp)⟩

/-- A reader reads the same, wherever it is told to. -/
theorem Alike.readReader_eq (h : Alike checksum handles memory client) (p : Position)
    (device : FileDevice) (device' : MemoryDevice) :
    (BlockStorage.readReader (w := w) fileDevice checksum p
        (device.attach handles.storage.device)).1 =
      (BlockStorage.readReader memoryDevice checksum p
        (device'.attach memory.storage.device)).1 := by
  have hsame := h.attach device device'
  by_cases hp : p < 2 ^ 63
  · exact (FileDevice.mirror.readReader checksum hp hsame).outcome.1
  · -- so far out there is nothing, whether a file can have the position or not
    have hle : (bufferOf memory.storage).length ≤ p :=
      (Nat.le_of_lt hsame.2.1).trans (Nat.le_of_not_lt hp)
    have hle' : (fileOf handles.storage).length ≤ p := by
      rw [h.fileOf_eq]
      exact hle
    have hfile : BlockStorage.readReader (w := w) fileDevice checksum p
        (device.attach handles.storage.device) = (.error (.err unexpectedEof), _) :=
      BlockStorage.readReader_of_read
        (FileDevice.seek_start_eq (device.attach handles.storage.device) p)
        (FileDevice.read_end hle' 8)
    have hmemory : BlockStorage.readReader (w := w) memoryDevice checksum p
        (device'.attach memory.storage.device) = (.error (.err unexpectedEof), _) :=
      MemoryDevice.readReader_end checksum hle
    exact (congrArg Prod.fst hfile).trans (congrArg Prod.fst hmemory).symm

theorem Alike.scanReader_eq (h : Alike checksum handles memory client) (p : Position) (count : ℕ)
    (callback : ScanFn (Entry w) κ) (init : κ) (device : FileDevice) (device' : MemoryDevice) :
    (BlockStorage.scanReader fileDevice checksum p count callback
        (init, device.attach handles.storage.device)).1 =
      (BlockStorage.scanReader memoryDevice checksum p count callback
        (init, device'.attach memory.storage.device)).1 ∧
    (BlockStorage.scanReader fileDevice checksum p count callback
        (init, device.attach handles.storage.device)).2.1 =
      (BlockStorage.scanReader memoryDevice checksum p count callback
        (init, device'.attach memory.storage.device)).2.1 := by
  obtain ⟨h1, h2, -⟩ := (FileDevice.mirror.scanReader checksum p count callback init
    (h.attach device device')).outcome
  exact ⟨h1, h2⟩

theorem Alike.read (hw : w ≤ 64) (h : Alike checksum handles memory client) {r : ℕ}
    (hr : r < client.readers) (p : Position) :
    AnswersAlike checksum (.read r p : Request (Entry w) κ) handles memory client := by
  obtain ⟨-, h2⟩ := h.holds.serve_read (κ := κ) hw hr p
  obtain ⟨device', hdevice'⟩ := h.holds.exists_reader hr
  obtain ⟨device, hdevice⟩ : ∃ device : FileDevice, handles.readers[r]? = some device := by
    rw [← h.holds.readers_eq, ← h.readers_eq] at hr
    exact ⟨_, List.getElem?_eq_getElem hr⟩
  have hdata := h.readReader_eq p device device'
  rcases hread : BlockStorage.readReader (w := w) fileDevice checksum p
    (device.attach handles.storage.device) with ⟨data, result⟩
  rcases hread' : BlockStorage.readReader (w := w) memoryDevice checksum p
    (device'.attach memory.storage.device) with ⟨data', result'⟩
  obtain rfl : data = data' := by rwa [hread, hread'] at hdata
  have hfile : serve fileDevice FileDevice.attach checksum (.read r p : Request (Entry w) κ)
      handles = (.read data, ⟨handles.storage, handles.readers.set r result⟩) :=
    serve_read hdevice hread
  have hmemory : serveMemory checksum (.read r p : Request (Entry w) κ) memory =
      (.read data, ⟨memory.storage, memory.readers.set r result'⟩) := serve_read hdevice' hread'
  rw [hmemory, Client.after_read] at h2
  rw [AnswersAlike, observeFile, observeMemory, hfile, hmemory, Client.after_read]
  exact ⟨Prod.ext rfl h.fileOf_eq,
    h.of_keep h2 rfl rfl (List.length_set.trans (h.readers_eq.trans h.holds.readers_eq))⟩

theorem Alike.scan (hw : w ≤ 64) (h : Alike checksum handles memory client) {r : ℕ}
    (hr : r < client.readers) (p : Position) (count : ℕ) (callback : ScanFn (Entry w) κ)
    (init : κ) :
    AnswersAlike checksum (.scan r p count callback init) handles memory client := by
  obtain ⟨-, h2⟩ := h.holds.serve_scan hw hr p count callback init
  obtain ⟨device', hdevice'⟩ := h.holds.exists_reader hr
  obtain ⟨device, hdevice⟩ : ∃ device : FileDevice, handles.readers[r]? = some device := by
    rw [← h.holds.readers_eq, ← h.readers_eq] at hr
    exact ⟨_, List.getElem?_eq_getElem hr⟩
  have hdata := h.scanReader_eq p count callback init device device'
  rcases hscan : BlockStorage.scanReader fileDevice checksum p count callback
    (init, device.attach handles.storage.device) with ⟨n, a, result⟩
  rcases hscan' : BlockStorage.scanReader memoryDevice checksum p count callback
    (init, device'.attach memory.storage.device) with ⟨n', a', result'⟩
  rw [hscan, hscan'] at hdata
  obtain ⟨rfl, rfl⟩ := hdata
  have hfile : serve fileDevice FileDevice.attach checksum (.scan r p count callback init)
      handles = (.scanned n a, ⟨handles.storage, handles.readers.set r result⟩) :=
    serve_scan hdevice hscan
  have hmemory : serveMemory checksum (.scan r p count callback init) memory =
      (.scanned n a, ⟨memory.storage, memory.readers.set r result'⟩) := serve_scan hdevice' hscan'
  rw [hmemory, Client.after_scan] at h2
  rw [AnswersAlike, observeFile, observeMemory, hfile, hmemory, Client.after_scan]
  exact ⟨Prod.ext rfl h.fileOf_eq,
    h.of_keep h2 rfl rfl (List.length_set.trans (h.readers_eq.trans h.holds.readers_eq))⟩

/-- **One request**: it is answered alike if and only if it need not wait. -/
theorem Alike.step (hw : w ≤ 64) (h : Alike checksum handles memory client)
    {request : Request (Entry w) κ} (hallows : Allows checksum request client) :
    ((observeFile checksum request handles).1 = (observeMemory checksum request memory).1 ↔
        Ready request client) ∧
      (Ready request client → Alike checksum (observeFile checksum request handles).2
        (observeMemory checksum request memory).2 (client.after (endOf checksum) request)) := by
  have key : AnswersAlike checksum request handles memory client → Ready request client →
      ((observeFile checksum request handles).1 = (observeMemory checksum request memory).1 ↔
          Ready request client) ∧
        (Ready request client → Alike checksum (observeFile checksum request handles).2
          (observeMemory checksum request memory).2 (client.after (endOf checksum) request)) :=
    fun h1 h2 => ⟨⟨fun _ => h2, fun _ => h1.1⟩, fun _ => h1.2⟩
  cases request with
  | first => exact key (h.first hw) trivial
  | last => exact key (h.last hw) trivial
  | put p e =>
    obtain ⟨rfl, he, hroom⟩ := hallows
    rcases hcut : client.cut with _ | _
    · exact key (h.put hw hcut he hroom) hcut
    · have hnot : ¬Ready (.put (endOf checksum client.log) e : Request (Entry w) κ) client :=
        fun hready => absurd (hcut.symm.trans hready) (by simp)
      exact ⟨⟨fun heq => absurd heq (h.put_cut hw hcut he hroom), fun hready => absurd hready hnot⟩,
        fun hready => absurd hready hnot⟩
  | truncate p =>
    rcases hcut : client.cut with _ | _
    · exact key (h.truncate hcut hallows) hcut
    · have hnot : ¬Ready (.truncate p : Request (Entry w) κ) client :=
        fun hready => absurd (hcut.symm.trans hready) (by simp)
      exact ⟨⟨fun heq => absurd heq (h.truncate_cut hcut hallows),
        fun hready => absurd hready hnot⟩,
        fun hready => absurd hready hnot⟩
  | reader => exact key h.reader trivial
  | read r p => exact key (h.read hw hallows p) trivial
  | scan r p count callback init => exact key (h.scan hw hallows p count callback init) trivial

/-- Opening the two storages. -/
theorem Begins.alike (hw : w ≤ 64) {storage : BlockStorage memoryDevice} {log : List (Entry w)}
    (h : Begins checksum storage log) :
    (observeFile checksum (.last : Request (Entry w) κ)
        ⟨BlockStorage.fromFile (bufferOf storage) false, []⟩).1 =
        (observeMemory checksum .last ⟨storage, []⟩).1 ∧
      Alike checksum (observeFile checksum (.last : Request (Entry w) κ)
          ⟨BlockStorage.fromFile (bufferOf storage) false, []⟩).2
        (observeMemory checksum (.last : Request (Entry w) κ) ⟨storage, []⟩).2
        ⟨log, 0, false⟩ := by
  obtain ⟨h1, h2⟩ := h.serve_last (κ := κ) hw
  have hsame : FileDevice.mirror.SameStorage (BlockStorage.fromFile (bufferOf storage) false)
      storage := by
    cases h with
    | new => exact ⟨⟨rfl, by decide, fun _ => ⟨rfl, rfl⟩⟩, rfl⟩
    | withBuffer hlaid hroom => exact ⟨⟨rfl, hroom.lt, fun _ => ⟨rfl, rfl⟩⟩, rfl⟩
  obtain ⟨h3, h4⟩ := ok_of_agree (FileDevice.mirror.last checksum hsame)
    (Reply.datum.inj (h1.1 _ rfl))
  exact ⟨Prod.ext (congrArg Reply.datum h3) h4.1.1, h2,
    ⟨FileDevice.mirror.same_of_rel h4.1, h4.2⟩, fun _ => h4.1.2.2.2.1.trans h2.memoryCursorOf_eq,
    fun hc => absurd hc (by simp), rfl⟩

/-- **The block storage on a file and the one in memory**: a run over the same content is
answered alike, with the same content after every request, if and only if every `put` and
every cut waits for a `first` or `last` after a cut. -/
theorem file_agrees_iff (hw : w ≤ 64) {storage : BlockStorage memoryDevice} {log : List (Entry w)}
    (h : Begins checksum storage log) {requests : List (Request (Entry w) κ)}
    (hallows : Always (Client.ask (endOf checksum)) (Allows checksum) requests ⟨log, 0, false⟩) :
    (runAll (observeFile checksum) (.last :: requests)
        ⟨BlockStorage.fromFile (bufferOf storage) false, []⟩).1 =
      (runAll (observeMemory checksum) (.last :: requests) ⟨storage, []⟩).1 ↔
    Always (Client.ask (endOf checksum)) Ready requests ⟨log, 0, false⟩ := by
  obtain ⟨h1, h2⟩ := h.alike (κ := κ) hw
  rw [runAll, runAll, List.cons.injEq, eq_true h1, true_and]
  exact runAll_answers_iff (R := fun handles memory client => Alike checksum handles memory client)
    (fun request handles memory client halike hr => halike.step hw hr) requests _ _ _ h2 hallows

/-! ### A put after a cut -/

section Cut

/-- Puts an entry, cuts the storage before it, and puts it once more. -/
def cutRun : List (Request (Entry 1) Unit) :=
  [.put 4 (twoEntries 1), .truncate 4, .put 4 (twoEntries 1)]

theorem allows_cutRun :
    Always (Client.ask (endOf seven)) (Allows seven) cutRun ⟨[], 0, false⟩ := by
  have h1 : ¬Inside (endOf seven) [twoEntries 1] 4 := by decide +kernel
  refine ⟨⟨?_, placed_first, ?_⟩, h1, ⟨?_, placed_first, ?_⟩, trivial⟩
  all_goals decide +kernel

/-- The run is answered alike if and only if the second `put` need not wait. -/
theorem file_agrees_iff_cutRun :
    (runAll (observeFile seven) (.last :: cutRun) ⟨BlockStorage.fromFile [] false, []⟩).1 =
        (runAll (observeMemory seven) (.last :: cutRun) ⟨⟨MemoryDevice.new, 0⟩, []⟩).1 ↔
      Always (Client.ask (endOf seven)) Ready cutRun ⟨[], 0, false⟩ :=
  file_agrees_iff (by decide) .new allows_cutRun

/-- **After a cut, the next record leaves a gap on the file**: the same replies, but another
content. -/
theorem not_file_agrees :
    Always (Client.ask (endOf seven)) (Allows seven) cutRun ⟨[], 0, false⟩ ∧
      (runAll (observeFile seven) (.last :: cutRun) ⟨BlockStorage.fromFile [] false, []⟩).1 ≠
        (runAll (observeMemory seven) (.last :: cutRun) ⟨⟨MemoryDevice.new, 0⟩, []⟩).1 ∧
      (fileOf (runAll (observeFile seven) (.last :: cutRun)
        ⟨BlockStorage.fromFile [] false, []⟩).2.storage).length = 56 ∧
      (bufferOf (runAll (observeMemory seven) (.last :: cutRun)
        ⟨⟨MemoryDevice.new, 0⟩, []⟩).2.storage).length = 30 := by
  refine ⟨allows_cutRun, ?_, ?_, ?_⟩
  all_goals decide +kernel

end Cut

end Handles

end StratifiedHashTree
