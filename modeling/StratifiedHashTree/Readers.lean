import StratifiedHashTree.Backend
import StratifiedHashTree.Decoding
import StratifiedHashTree.Requests

/-!
# A block storage and its readers

A storage hands out readers, and they are used while the storage goes on: each is a device
of its own, with its own cursor, on the content that the storage changes
(`StratifiedHashTree.Handles`).

In memory, the storage and its readers together behave as a log of the entries
(`StratifiedHashTree.Handles.memory_keeps_log`), over every run in which entries are put at
the end and the storage is cut where an entry starts. What a storage cannot do is tell
whether an entry starts at a position: there is nothing but bytes. So a read at a position
that has been the start of an entry may find, after a cut, a record in the payload of a
later entry (`StratifiedHashTree.Handles.not_read_error`). It finds what is in the bytes and
nothing else, and where no record begins it is an error.
-/

namespace StratifiedHashTree

open Outcome Prog AppendLog

variable {w : ℕ} {κ : Type}

/-- **A storage with the readers it has opened.** -/
structure Handles (D : BlockDevice) where
  storage : BlockStorage D
  readers : List D.State

namespace Handles

section Serve

variable (D : BlockDevice) (attach : D.State → D.State → D.State) (checksum : Checksum)

/-- Makes a call. A reader sees what the storage has done to the content meanwhile. -/
def serve : Request (Entry w) κ → Handles D → Reply (Entry w) κ × Handles D
  | .first, self =>
    let result := BlockStorage.first D checksum self.storage
    (.datum result.1, { self with storage := result.2 })
  | .last, self =>
    let result := BlockStorage.last D checksum self.storage
    (.datum result.1, { self with storage := result.2 })
  | .put position data, self =>
    let result := BlockStorage.put D checksum position data self.storage
    (.next result.1, { self with storage := result.2 })
  | .truncate position, self =>
    let result := BlockStorage.truncate D position self.storage
    (.truncated result.1, { self with storage := result.2 })
  | .reader, self =>
    match BlockStorage.reader D self.storage with
    | (.ok device, storage) => (.opened (.ok ()), ⟨storage, self.readers ++ [device]⟩)
    | (.error e, storage) => (.opened (.error e), ⟨storage, self.readers⟩)
  | .read r position, self =>
    match self.readers[r]? with
    | some device =>
      let result := BlockStorage.readReader D checksum position (attach device self.storage.device)
      (.read result.1, { self with readers := self.readers.set r result.2 })
    | none => (.read (panic .outOfBounds), self)
  | .scan r position count callback init, self =>
    match self.readers[r]? with
    | some device =>
      let result := BlockStorage.scanReader D checksum position count callback
        (init, attach device self.storage.device)
      (.scanned result.1 result.2.1, { self with readers := self.readers.set r result.2.2 })
    | none => (.scanned (panic .outOfBounds) init, self)

variable {D attach checksum} {self : Handles D} {r : ℕ} {device : D.State} {result : D.State}

theorem serve_reader {storage : BlockStorage D}
    (h : BlockStorage.reader D self.storage = (.ok device, storage)) :
    serve D attach checksum (.reader : Request (Entry w) κ) self =
      (.opened (.ok ()), ⟨storage, self.readers ++ [device]⟩) := by
  rw [serve.eq_def]
  simp only [h]

theorem serve_read {position : Position} {data : Result (Entry w)}
    (hr : self.readers[r]? = some device)
    (h : BlockStorage.readReader D checksum position (attach device self.storage.device) =
      (data, result)) :
    serve D attach checksum (.read r position : Request (Entry w) κ) self =
      (.read data, { self with readers := self.readers.set r result }) := by
  rw [serve.eq_def]
  simp only [hr, h]

theorem serve_scan {position : Position} {count : ℕ} {callback : ScanFn (Entry w) κ} {init a : κ}
    {n : Result ℕ} (hr : self.readers[r]? = some device)
    (h : BlockStorage.scanReader D checksum position count callback
      (init, attach device self.storage.device) = (n, (a, result))) :
    serve D attach checksum (.scan r position count callback init) self =
      (.scanned n a, { self with readers := self.readers.set r result }) := by
  rw [serve.eq_def]
  simp only [hr, h]

end Serve

end Handles

/-! ### At the end of the content -/

/-- Where nothing can be read, no entry is. -/
theorem readData_end {D : BlockDevice} {checksum : Checksum} {position : Position} {s s' : D.State}
    (h : D.read 8 s = (.ok [], s')) :
    readData (w := w) D checksum position s = (.error (.err unexpectedEof), s') := by
  have hread : ChecksumRead.read D 8 (ChecksumRead.new s) = (.ok [], ⟨s', [], 0⟩) := by
    have hin : ChecksumRead.onInput (D.read 8) (ChecksumRead.new s) = (.ok [], ⟨s', [], 0⟩) := by
      rw [ChecksumRead.onInput, ChecksumRead.new]
      simp only [h]
    rw [ChecksumRead.read, Prog.bind_ok hin]
    rfl
  have hexact : readExact (ChecksumRead.read D) 8 (ChecksumRead.new s) =
      (.error (.err unexpectedEof), ⟨s', [], 0⟩) := by
    rw [readExact, readExactFrom, Prog.bind_ok hread]
    rfl
  have hinodes : readInodesFrom (w := w) (readExact (ChecksumRead.read D)) position
      (ChecksumRead.new s) = (.error (.err unexpectedEof), ⟨s', [], 0⟩) := by
    rw [readInodesFrom, Prog.bind_error hexact]
  have hentry : readEntryFrom (w := w) (readExact (ChecksumRead.read D)) position
      (ChecksumRead.new s) = (.error (.err unexpectedEof), ⟨s', [], 0⟩) := by
    rw [readEntryFrom, Prog.bind_error hinodes]
  rw [readData, Prog.bind_error hentry]

namespace BlockStorage

variable {D : BlockDevice} {checksum : Checksum} {s s' s'' : D.State} {position last q : ℕ}

theorem readReader_of_read (h1 : D.seek (.start position) s = (.ok q, s'))
    (h2 : D.read 8 s' = (.ok [], s'')) :
    readReader (w := w) D checksum position s = (.error (.err unexpectedEof), s'') := by
  rw [readReader, Prog.bind_ok h1]
  exact readData_end h2

/-- A cut that the device refuses. -/
theorem truncate_of_false {s s' : D.State} (h : D.truncate q s = (.ok false, s'))
    (position : Position) : truncate D q ⟨s, position⟩ = (.ok false, ⟨s', position⟩) := by
  rw [truncate, Prog.bind_ok (onDevice_eq h position)]
  rfl

theorem truncate_of_true {s s' : D.State} (h : D.truncate q s = (.ok true, s'))
    (position : Position) : truncate D q ⟨s, position⟩ = (.ok true, ⟨s', q⟩) := by
  rw [truncate, Prog.bind_ok (onDevice_eq h position)]
  rfl

theorem truncate_of_error {s s' : D.State} {e : Failure Error}
    (h : D.truncate q s = (.error e, s')) (position : Position) :
    truncate D q ⟨s, position⟩ = (.error e, ⟨s', position⟩) := by
  rw [truncate, Prog.bind_error (onDevice_eq h position)]

theorem scanReader_of_le (count : ℕ) (callback : ScanFn (Entry w) κ) (a : κ)
    (h : D.seek (.fromEnd 0) s = (.ok last, s')) (hle : last ≤ position) :
    scanReader D checksum position count callback (a, s) = (.ok 0, (a, s')) := by
  rw [scanReader, Prog.bind_ok (Prog.onSnd_run h a), if_neg (Nat.not_lt.mpr hle)]
  rfl

end BlockStorage

/-! ### From any position

What a reader finds at a position is settled by the bytes there, whether it is the start of an
entry or not. -/

/-- The record at a position, and where it ends. -/
def RecordTo (checksum : Checksum) (content : Bytes) (p : Position) (e : Entry w)
    (next : Position) : Prop :=
  ∃ bytes post, content.drop p = bytes ++ post ∧ IsRecord checksum p bytes e ∧
    next = p + bytes.length

theorem RecordTo.recordAt {checksum : Checksum} {content : Bytes} {p next : Position} {e : Entry w}
    (h : RecordTo checksum content p e next) : RecordAt checksum content p e := by
  obtain ⟨bytes, post, hdrop, hrecord, -⟩ := h
  exact ⟨bytes, post, hdrop, hrecord⟩

/-- **What a read finds**: the record that begins at the position; an error where none does. -/
inductive Found (checksum : Checksum) (content : Bytes) (p : Position) : Result (Entry w) → Prop
  | record {e : Entry w} : RecordAt checksum content p e → Found checksum content p (.ok e)
  | nothing {error : Error} : (∀ e : Entry w, ¬RecordAt checksum content p e) →
      Found checksum content p (err error)

/-- **What a scan finds**, with the state of its callback: one record after the other, as many as
are asked for, or up to the end of the content; an error where no record begins. -/
inductive Scanned (checksum : Checksum) (content : Bytes) (callback : ScanFn (Entry w) κ) :
    ℕ → Position → κ → Result ℕ → κ → Prop
  | done {p : Position} {a : κ} : Scanned checksum content callback 0 p a (.ok 0) a
  | atEnd {count : ℕ} {p : Position} {a : κ} : content.length ≤ p →
      Scanned checksum content callback count p a (.ok 0) a
  | passed {count : ℕ} {p next : Position} {a b c : κ} {e : Entry w} {n : Result ℕ} :
      p < content.length → RecordTo checksum content p e next → callback e a = (.ok (), b) →
      Scanned checksum content callback count next b n c →
      Scanned checksum content callback (count + 1) p a (n.map (· + 1)) c
  | refused {count : ℕ} {p next : Position} {a b : κ} {e : Entry w} {message : String} :
      p < content.length → RecordTo checksum content p e next →
      callback e a = (.error message, b) →
      Scanned checksum content callback (count + 1) p a (err (.callback message)) b
  | nothing {count : ℕ} {p : Position} {a : κ} {error : Error} : p < content.length →
      (∀ e : Entry w, ¬RecordAt checksum content p e) →
      Scanned checksum content callback (count + 1) p a (err error) a

namespace BlockStorage

section FromAnywhere

variable {D : BlockDevice} {K : Disk D} {checksum : Checksum} {content : Bytes}

/-- Reading at the cursor. -/
theorem readData_found (hall : K.ReadsAll) (hw : w ≤ 64) (hcontent : content.length < 2 ^ 63)
    (ro : Bool) (p : ℕ) :
    (∃ (e : Entry w) (next : ℕ), RecordTo checksum content p e next ∧
      (p ≤ content.length → next ≤ content.length) ∧
      readData D checksum p (K.state ro content p) = (.ok e, K.state ro content next)) ∨
    ((∃ error s, readData (w := w) D checksum p (K.state ro content p) = (Outcome.err error, s)) ∧
      ∀ e : Entry w, ¬RecordAt checksum content p e) := by
  rcases readData_cases (w := w) hall hw checksum hcontent p ro p with
    ⟨e, bytes, post, hdrop, hrecord, hread⟩ | ⟨⟨error, hread⟩, hnone⟩
  · have hlen := congrArg List.length hdrop
    rw [List.length_drop, List.length_append] at hlen
    have hnext : p ≤ content.length → p + bytes.length ≤ content.length := fun hp => by omega
    exact Or.inl ⟨e, _, ⟨bytes, post, hdrop, hrecord, rfl⟩, hnext, hread⟩
  · refine Or.inr ⟨⟨error, _, Prod.ext hread rfl⟩, ?_⟩
    rintro e ⟨bytes, post, hdrop, hrecord⟩
    exact hnone e bytes post hdrop hrecord

theorem readReader_found (hall : K.ReadsAll) (hw : w ≤ 64) (hcontent : content.length < 2 ^ 63)
    (ro : Bool) (p q : Position) :
    Found checksum content p
      (readReader (w := w) D checksum p (K.state ro content q)).1 := by
  rw [readReader, Prog.bind_ok (K.seek_start ro content q p)]
  rcases readData_found (w := w) hall hw hcontent ro p with
    ⟨e, next, hrecord, -, hread⟩ | ⟨⟨error, s, hread⟩, hnone⟩
  · rw [hread]
    exact .record hrecord.recordAt
  · rw [hread]
    exact .nothing hnone

theorem scanFrom_found (hall : K.ReadsAll) (hw : w ≤ 64) (hcontent : content.length < 2 ^ 63)
    (ro : Bool) (callback : ScanFn (Entry w) κ) : ∀ (count p : ℕ) (a : κ),
    Scanned checksum content callback count p a
      (scanFrom D checksum callback content.length count p (a, K.state ro content p)).1
      (scanFrom D checksum callback content.length count p (a, K.state ro content p)).2.1
  | 0, p, a => .done
  | count + 1, p, a => by
    by_cases hp : p < content.length
    · rcases readData_found (w := w) hall hw hcontent ro p with
        ⟨e, next, hrecord, hnext, hread⟩ | ⟨⟨error, s, hread⟩, hnone⟩
      · rcases hcb : callback e a with ⟨message | ⟨⟩, b⟩
        · rw [scanFrom_err hp hread hcb]
          exact .refused hp hrecord hcb
        · rw [scanFrom_ok hp hread hcb (K.streamPosition_eq ro content
            ((hnext hp.le).trans_lt hcontent))]
          exact .passed hp hrecord hcb (scanFrom_found hall hw hcontent ro callback count next b)
      · rw [scanFrom, if_pos hp, Prog.bind_error (Prog.onSnd_run hread a)]
        exact .nothing hp hnone
    · rw [scanFrom, if_neg hp]
      exact .atEnd (Nat.le_of_not_lt hp)

theorem scanReader_found (hall : K.ReadsAll) (hw : w ≤ 64) (hcontent : content.length < 2 ^ 63)
    (ro : Bool) (callback : ScanFn (Entry w) κ) (count : ℕ) (p q : Position) (a : κ) :
    Scanned checksum content callback count p a
      (scanReader D checksum p count callback (a, K.state ro content q)).1
      (scanReader D checksum p count callback (a, K.state ro content q)).2.1 := by
  by_cases hp : p < content.length
  · rw [scanReader_of_lt (K.seek_end ro q hcontent) hp (K.seek_start ro content _ p)]
    exact scanFrom_found hall hw hcontent ro callback count p a
  · rw [scanReader_of_le count callback a (K.seek_end ro q hcontent) (Nat.le_of_not_lt hp)]
    exact .atEnd (Nat.le_of_not_lt hp)

end FromAnywhere

end BlockStorage

namespace MemoryDevice

/-- A reader on the content of another device. -/
def attach (self shared : MemoryDevice) : MemoryDevice := { self with buffer := shared.buffer }

theorem read_end {self : MemoryDevice} (h : self.buffer.length ≤ self.position) (k : ℕ) :
    read k self = (.ok [], self) := by
  rw [read, List.drop_of_length_le h, List.take_nil]
  rfl

theorem truncate_end {self : MemoryDevice} {q : ℕ} (hro : self.readOnly = false)
    (h : self.buffer.length ≤ q) : truncate q self = (.ok false, self) := by
  rw [truncate, hro, if_neg (by simp), if_neg (Nat.not_lt.mpr h)]

/-- A read from behind the content. -/
theorem readReader_end (checksum : Checksum) {self : MemoryDevice} {q : ℕ}
    (h : self.buffer.length ≤ q) : BlockStorage.readReader (w := w) memoryDevice checksum q self =
      (.error (.err unexpectedEof), { self with position := q }) :=
  BlockStorage.readReader_of_read (seek_start_eq self q) (read_end h 8)

/-- A scan from behind the content. -/
theorem scanReader_end (checksum : Checksum) {self : MemoryDevice} {q : ℕ}
    (h : self.buffer.length ≤ q) (hlt : self.buffer.length < 2 ^ 63) (count : ℕ)
    (callback : ScanFn (Entry w) κ) (a : κ) :
    BlockStorage.scanReader memoryDevice checksum q count callback (a, self) =
      (.ok 0, (a, { self with position := self.buffer.length })) :=
  BlockStorage.scanReader_of_le count callback a (seek_end_eq hlt) h

end MemoryDevice

/-! ### The storage in memory keeps a log -/

namespace Handles

/-- Where the log of a client ends. -/
abbrev endOf (checksum : Checksum) (log : List (Entry w)) : Position :=
  (BlockStorage.content checksum log).length

/-- What a client may ask for: to put an entry at the end, and to cut the storage where an
entry starts, or where there is nothing to cut. -/
def Allows (checksum : Checksum) : Request (Entry w) κ → Client (Entry w) → Prop
  | .put p e, client => p = endOf checksum client.log ∧ e.Placed p ∧
      BlockStorage.Room checksum (client.log ++ [e])
  | .truncate p, client => ¬Inside (endOf checksum) client.log p
  | .read r _, client => r < client.readers
  | .scan r _ _ _ _, client => r < client.readers
  | _, _ => True

/-- The storage in memory and its readers, as a client sees them. -/
structure Holds (checksum : Checksum) (handles : Handles memoryDevice)
    (client : Client (Entry w)) : Prop where
  storage_eq : handles.storage = BlockStorage.render MemoryDevice.disk checksum client.log
  laid : BlockStorage.Laid checksum client.log
  room : BlockStorage.Room checksum client.log
  readers_eq : handles.readers.length = client.readers

end Handles

namespace BlockStorage

variable {checksum : Checksum}

/-- A log with an entry more. -/
theorem Laid.concat {log : List (Entry w)} {e : Entry w} (h : Laid checksum log)
    (he : e.Placed (content checksum log).length) : Laid checksum (log ++ [e]) :=
  @laid_concat _ Entry.Placed (fun log => (content checksum log).length) log h e he

/-- A reader reads an entry where it starts, wherever the cursor was. -/
theorem readReader_content {D : BlockDevice} (K : Disk D) (hw : w ≤ 64) (ro : Bool) (q : Position)
    {log : List (Entry w)} {k : ℕ} (hk : k < log.length) (hlaid : Laid checksum log) :
    ∃ p, readReader D checksum (content checksum (log.take k)).length
      (K.state ro (content checksum log) q) =
        (.ok log[k], K.state ro (content checksum log) p) := by
  refine ⟨(content checksum (log.take k)).length + (record checksum log[k]).length, ?_⟩
  rw [readReader, Prog.bind_ok (K.seek_start ro _ q _)]
  exact readData_eq K hw checksum (hlaid k hk) ro (drop_content_of_lt checksum hk)

end BlockStorage

namespace Handles

/-- Makes a call of the storage in memory: its readers share its buffer. -/
def serveMemory (checksum : Checksum) (request : Request (Entry w) κ)
    (self : Handles memoryDevice) : Reply (Entry w) κ × Handles memoryDevice :=
  serve memoryDevice MemoryDevice.attach checksum request self

variable {checksum : Checksum} {self : Handles memoryDevice} {client : Client (Entry w)}

/-- A reader of the storage sees the log. -/
theorem Holds.attach_eq (h : Holds checksum self client) (device : MemoryDevice) :
    device.attach self.storage.device = MemoryDevice.disk.state device.readOnly
      (BlockStorage.content checksum client.log) device.position :=
  congrArg (fun storage => device.attach storage.device) h.storage_eq

/-- A reader has moved its cursor. -/
theorem Holds.set (h : Holds checksum self client) (r : ℕ) (device : MemoryDevice) :
    Holds checksum { self with readers := self.readers.set r device } client :=
  ⟨h.storage_eq, h.laid, h.room, List.length_set.trans h.readers_eq⟩

/-- The readers that are open. -/
theorem Holds.exists_reader (h : Holds checksum self client) {r : ℕ} (hr : r < client.readers) :
    ∃ device : MemoryDevice, self.readers[r]? = some device := by
  rw [← h.readers_eq] at hr
  exact ⟨_, List.getElem?_eq_getElem hr⟩

/-- A request that only concerns the storage. -/
theorem Holds.of_storage (h : Holds checksum self client) {storage : BlockStorage memoryDevice}
    {log log' : List (Entry w)} {cut : Bool} (hlog : log' = log)
    (hs : storage = BlockStorage.render MemoryDevice.disk checksum log)
    (hlaid : BlockStorage.Laid checksum log) (hroom : BlockStorage.Room checksum log) :
    Holds checksum { self with storage := storage } ⟨log', client.readers, cut⟩ := by
  subst hlog
  exact ⟨hs, hlaid, hroom, h.readers_eq⟩

/-- What a reader replies from within an entry. -/
def Within (checksum : Checksum) (log : List (Entry w)) : Request (Entry w) κ → Reply (Entry w) κ →
    Prop
  | .read _ p, reply => Inside (endOf checksum) log p →
    ∃ result, reply = .read result ∧ Found checksum (BlockStorage.content checksum log) p result
  | .scan _ p count callback init, reply => Inside (endOf checksum) log p →
    ∃ result a, reply = .scanned result a ∧
      Scanned checksum (BlockStorage.content checksum log) callback count p init result a
  | _, _ => True

/-- **What a client expects**: the reply of the log, up to what the error of a read says; within
an entry, what is found in the bytes. -/
def Expected (checksum : Checksum) (request : Request (Entry w) κ) (client : Client (Entry w))
    (reply : Reply (Entry w) κ) : Prop :=
  (∀ expected ∈ answer (endOf checksum) request client.log, reply.plain = expected) ∧
    Within checksum client.log request reply

/-- A reply is what a client expects, and so is what is left behind. -/
def Conforms (checksum : Checksum) (request : Request (Entry w) κ) (client : Client (Entry w))
    (result : Reply (Entry w) κ × Handles memoryDevice) : Prop :=
  Expected checksum request client result.1 ∧
    Holds checksum result.2 (client.after (endOf checksum) request)

theorem Holds.serve_first (hw : w ≤ 64) (h : Holds checksum self client) :
    Conforms checksum (.first : Request (Entry w) κ) client (serveMemory checksum .first self) := by
  have hnil : endOf checksum ([] : List (Entry w)) = 4 := by
    rw [endOf, BlockStorage.content_nil, BlockStorage.length_header]
  have h1 : BlockStorage.first memoryDevice checksum self.storage =
      (.ok (client.log.head?, 4), BlockStorage.render MemoryDevice.disk checksum client.log) := by
    rw [h.storage_eq]
    exact BlockStorage.first_content MemoryDevice.disk hw h.room h.laid _ _
  refine ⟨⟨?_, trivial⟩, h.of_storage rfl (congrArg Prod.snd h1) h.laid h.room⟩
  rintro _ ⟨⟩
  rw [AppendLog.serve, hnil]
  exact congrArg (fun result => Reply.datum result.1) h1

theorem Holds.serve_last (hw : w ≤ 64) (h : Holds checksum self client) :
    Conforms checksum (.last : Request (Entry w) κ) client (serveMemory checksum .last self) := by
  have h1 : BlockStorage.last memoryDevice checksum self.storage =
      (.ok (client.log.getLast?, endOf checksum client.log),
        BlockStorage.render MemoryDevice.disk checksum client.log) := by
    rw [h.storage_eq]
    exact BlockStorage.last_content MemoryDevice.disk hw h.room h.laid _ _
  refine ⟨⟨?_, trivial⟩, h.of_storage rfl (congrArg Prod.snd h1) h.laid h.room⟩
  rintro _ ⟨⟩
  exact congrArg (fun result => Reply.datum result.1) h1

theorem Holds.serve_put (hw : w ≤ 64) (h : Holds checksum self client) {e : Entry w}
    (he : e.Placed (endOf checksum client.log))
    (hroom : BlockStorage.Room checksum (client.log ++ [e])) :
    Conforms checksum (.put (endOf checksum client.log) e : Request (Entry w) κ) client
      (serveMemory checksum (.put (endOf checksum client.log) e) self) := by
  have h1 : BlockStorage.put memoryDevice checksum (endOf checksum client.log) e self.storage =
      (.ok (endOf checksum (client.log ++ [e])),
        BlockStorage.render MemoryDevice.disk checksum (client.log ++ [e])) := by
    rw [h.storage_eq]
    exact BlockStorage.put_content MemoryDevice.disk hw he hroom
  refine ⟨⟨?_, trivial⟩, h.of_storage rfl (congrArg Prod.snd h1) (h.laid.concat he) hroom⟩
  rintro _ ⟨⟩
  exact congrArg (fun result => Reply.next result.1) h1

theorem Holds.serve_truncate (h : Holds checksum self client) {p : Position}
    (hp : ¬Inside (endOf checksum) client.log p) :
    Conforms checksum (.truncate p : Request (Entry w) κ) client
      (serveMemory checksum (.truncate p) self) := by
  rcases hl : locate (endOf checksum) client.log p with _ | k
  · -- at the end or behind it: nothing is cut
    have hend : endOf checksum client.log ≤ p := Nat.le_of_not_lt fun hlt => hp ⟨hlt, hl⟩
    have h0 : MemoryDevice.truncate p ⟨false, BlockStorage.content checksum client.log,
        endOf checksum client.log⟩ = (.ok false, _) := MemoryDevice.truncate_end rfl hend
    have h1 : BlockStorage.truncate memoryDevice p self.storage =
        (.ok false, BlockStorage.render MemoryDevice.disk checksum client.log) := by
      rw [h.storage_eq]
      exact BlockStorage.truncate_of_false h0 _
    have h2 : AppendLog.serve (κ := κ) (endOf checksum) (.truncate p) client.log =
        (.truncated (.ok false), client.log) := by rw [AppendLog.serve, hl]
    refine ⟨⟨?_, trivial⟩, h.of_storage (congrArg Prod.snd h2) (congrArg Prod.snd h1) h.laid h.room⟩
    rintro _ ⟨⟩
    rw [h2]
    exact congrArg (fun result => Reply.truncated result.1) h1
  · -- at the start of an entry: it goes, with all behind it
    obtain ⟨hk, rfl⟩ := of_locate hl
    have hlt := BlockStorage.content_take_lt checksum hk (Nat.le_refl _)
    rw [List.take_length] at hlt
    have h0 : MemoryDevice.truncate (endOf checksum (client.log.take k))
        ⟨false, BlockStorage.content checksum client.log, endOf checksum client.log⟩ = _ :=
      MemoryDevice.truncate_eq _ hlt
    rw [BlockStorage.take_content] at h0
    have h1 : BlockStorage.truncate memoryDevice (endOf checksum (client.log.take k)) self.storage =
        (.ok true, BlockStorage.render MemoryDevice.disk checksum (client.log.take k)) := by
      rw [h.storage_eq]
      exact BlockStorage.truncate_of_true h0 _
    have h2 : AppendLog.serve (κ := κ) (endOf checksum)
        (.truncate (endOf checksum (client.log.take k))) client.log =
          (.truncated (.ok true), client.log.take k) := by rw [AppendLog.serve, hl]
    refine ⟨⟨?_, trivial⟩, h.of_storage (congrArg Prod.snd h2) (congrArg Prod.snd h1)
      (h.laid.take k) (h.room.take k)⟩
    rintro _ ⟨⟩
    rw [h2]
    exact congrArg (fun result => Reply.truncated result.1) h1

theorem Holds.serve_reader (h : Holds checksum self client) :
    Conforms checksum (.reader : Request (Entry w) κ) client
      (serveMemory checksum .reader self) := by
  have h1 : BlockStorage.reader memoryDevice self.storage =
      (.ok ⟨true, BlockStorage.content checksum client.log, 0⟩, self.storage) := by
    rw [h.storage_eq]
    exact BlockStorage.reader_render MemoryDevice.disk client.log
  have h2 : serveMemory checksum (.reader : Request (Entry w) κ) self = (.opened (.ok ()),
      ⟨self.storage, self.readers ++ [⟨true, BlockStorage.content checksum client.log, 0⟩]⟩) :=
    Handles.serve_reader h1
  rw [h2]
  refine ⟨⟨?_, trivial⟩, h.storage_eq, h.laid, h.room, ?_⟩
  · rintro _ ⟨⟩
    rfl
  · exact List.length_append.trans (congrArg (· + 1) h.readers_eq)

theorem Holds.serve_read (hw : w ≤ 64) (h : Holds checksum self client) {r : ℕ}
    (hr : r < client.readers) (p : Position) :
    Conforms checksum (.read r p : Request (Entry w) κ) client
      (serveMemory checksum (.read r p) self) := by
  obtain ⟨device, hdevice⟩ := h.exists_reader hr
  rcases hread : BlockStorage.readReader (w := w) memoryDevice checksum p
    (device.attach self.storage.device) with ⟨data, device'⟩
  have h1 : serveMemory checksum (.read r p : Request (Entry w) κ) self =
      (.read data, { self with readers := self.readers.set r device' }) :=
    Handles.serve_read hdevice hread
  rw [h.attach_eq device] at hread
  rw [Conforms, h1, Client.after_read]
  refine ⟨⟨fun a ha => ?_, fun _ => ⟨data, rfl, ?_⟩⟩, h.set r device'⟩
  swap
  · have hfound : Found checksum (BlockStorage.content checksum client.log) p
        (BlockStorage.readReader (w := w) memoryDevice checksum p (MemoryDevice.disk.state
          device.readOnly (BlockStorage.content checksum client.log) device.position)).1 :=
      BlockStorage.readReader_found MemoryDevice.readsAll hw h.room.lt _ p _
    rwa [hread] at hfound
  rcases hl : locate (endOf checksum) client.log p with _ | k
  · by_cases hend : p < endOf checksum client.log
    · -- within an entry, the log does not answer
      rw [answer_read_inside ⟨hend, hl⟩] at ha
      exact absurd ha (by simp)
    · rw [answer_read_end hend hl, Option.mem_some_iff] at ha
      have h2 : BlockStorage.readReader (w := w) memoryDevice checksum p
          (MemoryDevice.disk.state device.readOnly (BlockStorage.content checksum client.log)
            device.position) = (.error (.err unexpectedEof), _) :=
        MemoryDevice.readReader_end checksum (Nat.le_of_not_lt hend)
      rw [← ha, (Prod.mk.inj (hread.symm.trans h2)).1]
      rfl
  · -- the entry that was put there
    obtain ⟨hk, rfl⟩ := of_locate hl
    obtain ⟨q, h2⟩ := BlockStorage.readReader_content MemoryDevice.disk hw device.readOnly
      device.position hk h.laid
    rw [answer_read hk hl, Option.mem_some_iff] at ha
    rw [← ha, (Prod.mk.inj (hread.symm.trans h2)).1]
    rfl

theorem Holds.serve_scan (hw : w ≤ 64) (h : Holds checksum self client) {r : ℕ}
    (hr : r < client.readers) (p : Position) (count : ℕ) (callback : ScanFn (Entry w) κ)
    (init : κ) : Conforms checksum (.scan r p count callback init) client
      (serveMemory checksum (.scan r p count callback init) self) := by
  obtain ⟨device, hdevice⟩ := h.exists_reader hr
  rcases hscan : BlockStorage.scanReader memoryDevice checksum p count callback
    (init, device.attach self.storage.device) with ⟨n, a, device'⟩
  have h1 : serveMemory checksum (.scan r p count callback init) self =
      (.scanned n a, { self with readers := self.readers.set r device' }) :=
    Handles.serve_scan hdevice hscan
  rw [h.attach_eq device] at hscan
  rw [Conforms, h1, Client.after_scan]
  refine ⟨⟨fun b hb => ?_, fun _ => ⟨n, a, rfl, ?_⟩⟩, h.set r device'⟩
  swap
  · have hfound : Scanned checksum (BlockStorage.content checksum client.log) callback count p init
        _ (BlockStorage.scanReader memoryDevice checksum p count callback (init,
          MemoryDevice.disk.state device.readOnly (BlockStorage.content checksum client.log)
            device.position)).2.1 :=
      BlockStorage.scanReader_found MemoryDevice.readsAll hw h.room.lt _ callback count p _ init
    rwa [hscan] at hfound
  rcases hl : locate (endOf checksum) client.log p with _ | k
  · -- no entry starts there
    by_cases hend : p < endOf checksum client.log
    · rw [answer_scan_inside ⟨hend, hl⟩] at hb
      exact absurd hb (by simp)
    · rw [answer_scan_end hend hl, Option.mem_some_iff] at hb
      have h2 : BlockStorage.scanReader memoryDevice checksum p count callback
          (init, MemoryDevice.disk.state device.readOnly (BlockStorage.content checksum client.log)
            device.position) = (.ok 0, (init, _)) :=
        MemoryDevice.scanReader_end checksum (Nat.le_of_not_lt hend) h.room.lt count callback init
      have h3 := Prod.mk.inj (hscan.symm.trans h2)
      rw [← hb, h3.1, (Prod.mk.inj h3.2).1]
      rfl
  · obtain ⟨hk, rfl⟩ := of_locate hl
    obtain ⟨q, h2⟩ := BlockStorage.scanReader_content MemoryDevice.disk hw device.readOnly
      device.position count callback init hk h.room h.laid
    rw [answer_scan hl, Option.mem_some_iff] at hb
    have h3 := Prod.mk.inj (hscan.symm.trans h2)
    rw [← hb, h3.1, (Prod.mk.inj h3.2).1]
    rfl

/-- **One request**: the storage in memory replies as a client expects. -/
theorem Holds.serve (hw : w ≤ 64) (h : Holds checksum self client) {request : Request (Entry w) κ}
    (hallows : Allows checksum request client) :
    Conforms checksum request client (serveMemory checksum request self) := by
  cases request with
  | first => exact h.serve_first hw
  | last => exact h.serve_last hw
  | put p e =>
    obtain ⟨rfl, he, hroom⟩ := hallows
    exact h.serve_put hw he hroom
  | truncate p => exact h.serve_truncate hallows
  | reader => exact h.serve_reader
  | read r p => exact h.serve_read hw hallows p
  | scan r p count callback init => exact h.serve_scan hw hallows p count callback init

/-! ### Whole runs -/

/-- **A storage that was not used yet**, and the log it will turn out to keep. -/
inductive Begins (checksum : Checksum) : BlockStorage memoryDevice → List (Entry w) → Prop
  | new : Begins checksum ⟨MemoryDevice.new, 0⟩ []
  | withBuffer {log : List (Entry w)} : BlockStorage.Laid checksum log →
      BlockStorage.Room checksum log →
      Begins checksum ⟨MemoryDevice.withBuffer (BlockStorage.content checksum log) false, 0⟩ log

/-- A run with a storage that was not used yet; its first request is for the last datum. -/
def run (checksum : Checksum) (storage : BlockStorage memoryDevice)
    (requests : List (Request (Entry w) κ)) : List (Reply (Entry w) κ) × Handles memoryDevice :=
  runAll (serveMemory checksum) (.last :: requests) ⟨storage, []⟩

/-- What a client expects of a request, and what it knows afterwards. -/
def await (checksum : Checksum) (request : Request (Entry w) κ) (client : Client (Entry w)) :
    (Reply (Entry w) κ → Prop) × Client (Entry w) :=
  (Expected checksum request client, client.after (endOf checksum) request)

/-- What is expected of such a run. -/
def expect (checksum : Checksum) (log : List (Entry w)) (requests : List (Request (Entry w) κ)) :
    List (Reply (Entry w) κ → Prop) × Client (Entry w) :=
  runAll (await checksum) (.last :: requests) ⟨log, 0, false⟩

/-- Opening a storage. -/
theorem Begins.serve_last (hw : w ≤ 64) {storage : BlockStorage memoryDevice} {log : List (Entry w)}
    (h : Begins checksum storage log) :
    Conforms checksum (.last : Request (Entry w) κ) ⟨log, 0, false⟩
      (serveMemory checksum .last ⟨storage, []⟩) := by
  have key : BlockStorage.last memoryDevice checksum storage =
        (.ok (log.getLast?, endOf checksum log),
          BlockStorage.render MemoryDevice.disk checksum log) →
      BlockStorage.Laid checksum log → BlockStorage.Room checksum log →
        Conforms checksum (.last : Request (Entry w) κ) ⟨log, 0, false⟩
          (serveMemory checksum .last ⟨storage, []⟩) := by
    intro h1 hlaid hroom
    refine ⟨⟨?_, trivial⟩, congrArg Prod.snd h1, hlaid, hroom, rfl⟩
    rintro _ ⟨⟩
    exact congrArg (fun result => Reply.datum result.1) h1
  cases h with
  | new =>
    refine key (BlockStorage.last_nil MemoryDevice.disk 0 0) (fun k hk => absurd hk (by simp)) ?_
    rw [BlockStorage.Room, BlockStorage.content_nil]
    decide
  | withBuffer hlaid hroom =>
    exact key (BlockStorage.last_content MemoryDevice.disk hw hroom hlaid 0 0) hlaid hroom

/-- **The block storage in memory keeps a log**: in every run that starts with `last`, puts
entries at the end and cuts the storage where entries start or behind the end, it replies
as the log does – up to what the error of a read says – and afterwards the content is the one
of the log. From a position within an entry, a read returns the record that begins there, or is
an error if none does, and so does a scan for one record after the other. -/
theorem memory_keeps_log (hw : w ≤ 64) {storage : BlockStorage memoryDevice} {log : List (Entry w)}
    (h : Begins checksum storage log) {requests : List (Request (Entry w) κ)}
    (hallows : Always (Client.ask (endOf checksum)) (Allows checksum) requests ⟨log, 0, false⟩) :
    List.Forall₂ (fun reply expected => expected reply) (run checksum storage requests).1
        (expect checksum log requests).1 ∧
      Holds checksum (run checksum storage requests).2 (expect checksum log requests).2 := by
  obtain ⟨h1, h2⟩ := h.serve_last (κ := κ) hw
  have hstep : ∀ (request : Request (Entry w) κ) (self : Handles memoryDevice)
      (client : Client (Entry w)), Holds checksum self client → Allows checksum request client →
        (await checksum request client).1 (serveMemory checksum request self).1 ∧
          Holds checksum (serveMemory checksum request self).2
            (await checksum request client).2 :=
    fun request self client hs hr => Holds.serve hw hs hr
  have hawait : Always (await checksum) (Allows checksum) requests ⟨log, 0, false⟩ :=
    hallows.of_state fun _ _ => rfl
  obtain ⟨h3, h4⟩ := runAll_forall₂ (A := fun reply expected => expected reply) hstep requests _ _
    h2 hawait
  exact ⟨.cons h1 h3, h4⟩

/-! ### A read from within an entry -/

section Embedded

/-- A checksum that does not matter. -/
def seven : Checksum := fun _ => 7

/-- The entries of a slate with two empty payloads. -/
def twoEntries (i : ℕ) : Entry 1 := entryOf tinyBlock.log byteSum (payload [[], []]) i

/-- The first entry of a slate with a payload in which the record of the second entry of
another slate is found, just where it started. -/
def embedding : Entry 1 := entryOf tinyBlock.log byteSum
  (payload [List.replicate 13 0 ++ record seven (twoEntries 2)]) 1

/-- Puts two entries, cuts the storage before them, and puts the other entry. -/
def embeddedRun : List (Request (Entry 1) Unit) :=
  [.put 4 (twoEntries 1), .put 30 (twoEntries 2), .reader, .truncate 4, .put 4 embedding,
    .read 0 30]

/-- What is put is placed where it is put. -/
theorem placed_entryOf (vs : List Bytes) (hlen : vs.length < 2 ^ 30)
    (hv : ∀ v ∈ vs, v.length ≤ MAX_PAYLOAD_SIZE) {i : ℕ} (h1 : 1 ≤ i) (hi : i ≤ vs.length)
    {p : Position} (hp : positionOf tinyBlock.log byteSum (payload vs) i = p) :
    (entryOf tinyBlock.log byteSum (payload vs) i).Placed p := by
  have h := holds_of_length_lt tinyBlock (H := byteSum) hlen hv
  rw [← hp]
  exact Fits.placed h h1 (hi.trans (Nat.le_succ _)) (hv _ (payload_mem h1 hi))

theorem placed_first : (twoEntries 1).Placed 4 :=
  placed_entryOf [[], []] (by decide) (by decide) (by decide) (by decide) (by decide +kernel)

theorem placed_second : (twoEntries 2).Placed 30 :=
  placed_entryOf [[], []] (by decide) (by decide) (by decide) (by decide) (by decide +kernel)

/-- The run is one that a client may ask for. -/
theorem allows_embeddedRun :
    Always (Client.ask (endOf seven)) (Allows seven) embeddedRun ⟨[], 0, false⟩ := by
  have h3 : embedding.Placed 4 := placed_entryOf
    [List.replicate 13 0 ++ record seven (twoEntries 2)] (by decide) (by decide +kernel) (by decide)
      (by decide) (by decide +kernel)
  have h4 : ¬Inside (endOf seven) [twoEntries 1, twoEntries 2] 4 := by decide +kernel
  refine ⟨⟨?_, placed_first, ?_⟩, ⟨?_, placed_second, ?_⟩, trivial, h4, ⟨?_, h3, ?_⟩, Nat.one_pos,
    trivial⟩
  all_goals decide +kernel

/-- What such a run replies, and what it leaves behind. -/
theorem memory_keeps_log_embeddedRun :
    List.Forall₂ (fun reply expected => expected reply)
        (run seven ⟨MemoryDevice.new, 0⟩ embeddedRun).1 (expect seven [] embeddedRun).1 ∧
      Holds seven (run seven ⟨MemoryDevice.new, 0⟩ embeddedRun).2
        (expect seven [] embeddedRun).2 :=
  memory_keeps_log (by decide) .new allows_embeddedRun

/-- **A removed entry may be read all the same**, from within the payload of a later one. -/
theorem not_read_error :
    Always (Client.ask (endOf seven)) (Allows seven) embeddedRun ⟨[], 0, false⟩ ∧
      (expect seven [] embeddedRun).2.log = [embedding] ∧
      locate (endOf seven) [embedding] 30 = none ∧
      (run seven ⟨MemoryDevice.new, 0⟩ embeddedRun).1.getLast? =
        some (.read (.ok (twoEntries 2))) := by
  refine ⟨allows_embeddedRun, ?_, ?_, ?_⟩
  all_goals decide +kernel

end Embedded

end Handles

end StratifiedHashTree
