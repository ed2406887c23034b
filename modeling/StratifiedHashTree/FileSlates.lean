import StratifiedHashTree.FileDevice
import StratifiedHashTree.Hosting

/-!
# Slates on files

A storage on a file differs from one in memory once its content has been cut: the cursor of
the file stays where it was, and what is written next leaves a gap
(`StratifiedHashTree.Handles.file_agrees_iff`). A slate never writes there. Between cutting
and writing it looks for the last entry, and this leads the cursor back to the end. So a
file hosts the log of the storage in memory, and a slate on a file gives the answers of one
in memory, and leaves the same bytes, command by command
(`StratifiedHashTree.file_slate_agrees`).
-/

namespace StratifiedHashTree

open Outcome Prog
open Handles (fileOf bufferOf)

variable {w : ℕ}

namespace BlockStorage

section Host

variable {checksum : Checksum} {log : List (Entry w)} {st : BlockStorage fileDevice}

/-- The storage in memory that holds a log. -/
abbrev inMemory (checksum : Checksum) (log : List (Entry w)) : BlockStorage memoryDevice :=
  render MemoryDevice.disk checksum log

/-- **A storage on a file keeps a log**: it has the content and the cursor that a storage in
memory has then. -/
def OnFile (checksum : Checksum) (log : List (Entry w)) (st : BlockStorage fileDevice) : Prop :=
  FileDevice.mirror.Storing st (inMemory checksum log)

/-- A file that has the content of a log, wherever its cursor is. -/
theorem last_onFile {self : BlockStorage memoryDevice}
    (hsame : FileDevice.mirror.SameStorage st self)
    (hlast : last memoryDevice checksum self =
      (.ok (log.getLast?, (content checksum log).length), inMemory checksum log)) :
    ∃ st', last fileDevice checksum st =
        (.ok (log.getLast?, (content checksum log).length), st') ∧ OnFile checksum log st' :=
  (FileDevice.mirror.last checksum hsame).ok hlast

theorem OnFile.content_eq (h : OnFile checksum log st) : fileOf st = content checksum log := h.1.1

/-- A reader on the file of a log. -/
theorem OnFile.clone (h : OnFile checksum log st) : ∃ device, fileDevice.cloneDevice st.device =
    (.ok device, st.device) ∧ FileDevice.mirror.same true device
      (MemoryDevice.disk.state true (content checksum log) 0) :=
  ⟨_, rfl, h.content_eq, h.1.2.1, fun hro => absurd hro (by simp)⟩

theorem OnFile.read (h : OnFile checksum log st) {k : ℕ} (hw : w ≤ 64) (hk : k < log.length)
    (hroom : Room checksum log) (hlaid : Laid checksum log) :
    read fileDevice checksum (content checksum (log.take k)).length st = (.ok log[k], st) := by
  obtain ⟨device, hclone, hsame⟩ := h.clone
  have hmemory := read_content MemoryDevice.disk hw hk hlaid
  rw [read_eq_readReader checksum (MemoryDevice.disk.clone_eq false _ _)] at hmemory
  have hlt : (content checksum (log.take k)).length < 2 ^ 63 :=
    (content_take_le checksum log k).trans_lt hroom.lt
  rw [read_eq_readReader checksum hclone,
    (FileDevice.mirror.readReader checksum hlt hsame).outcome.1, (Prod.mk.inj hmemory).1]

theorem OnFile.scan {κ : Type} (h : OnFile checksum log st) {k : ℕ} (hw : w ≤ 64) (count : ℕ)
    (callback : ScanFn (Entry w) κ) (a : κ) (hk : k < log.length) (hroom : Room checksum log)
    (hlaid : Laid checksum log) :
    scan fileDevice checksum (content checksum (log.take k)).length count callback (a, st) =
      ((scanList callback ((log.drop k).take count) a).1,
        ((scanList callback ((log.drop k).take count) a).2, st)) := by
  obtain ⟨device, hclone, hsame⟩ := h.clone
  obtain ⟨p, hmemory⟩ := scanReader_content MemoryDevice.disk hw true 0 count callback a hk hroom
    hlaid
  obtain ⟨h1, h2, -⟩ := (FileDevice.mirror.scanReader checksum
    (content checksum (log.take k)).length count callback a hsame).outcome
  have h3 := congrArg Prod.fst hmemory
  have h4 := congrArg (fun r => r.2.1) hmemory
  rw [BlockStorage.scan, Prog.bind_ok (Prog.onSnd_run (reader_eq hclone) a),
    Prog.bind_ok (Prog.get_run _)]
  simp only
  rw [Prog.bind_ok (Prog.set_run _ _)]
  exact Prod.ext (h1.trans h3) (Prod.ext (h2.trans h4) rfl)

/-- Cutting leaves the cursor of the file behind, and looking for the last entry brings it
back. -/
theorem OnFile.truncate_last (h : OnFile checksum log st) {k : ℕ} (hw : w ≤ 64)
    (hk : k < log.length) (hroom : Room checksum log) (hlaid : Laid checksum log) :
    ∃ st' st'', truncate fileDevice (content checksum (log.take k)).length st =
        (.ok true, st') ∧
      last fileDevice checksum st' =
        (.ok ((log.take k).getLast?, (content checksum (log.take k)).length), st'') ∧
      OnFile checksum (log.take k) st'' := by
  obtain ⟨device, position⟩ := st
  obtain ⟨⟨hcontent, hlength, hwritable, hcursor, -⟩, -⟩ := h
  have hlt : (content checksum (log.take k)).length < (content checksum log).length := by
    have h1 := content_take_lt checksum hk (Nat.le_refl _)
    rwa [List.take_length] at h1
  have hcontent' : device.file.content = content checksum log := hcontent
  have hcursor' : device.file.cursor = device.file.content.length := by
    rw [hcontent']
    exact hcursor
  have hcut := FileDevice.truncate_true (hwritable rfl).1 hcursor'
    (q := (content checksum (log.take k)).length) (by rw [hcontent']; exact hlt)
  have hmemory := last_content MemoryDevice.disk hw (hroom.take k) (Laid.take hlaid k) 0
    (content checksum (log.take k)).length
  have hsame : FileDevice.mirror.SameStorage
      ⟨{ device with file := { device.file with
          content := device.file.content.take (content checksum (log.take k)).length } },
        (content checksum (log.take k)).length⟩
      ⟨MemoryDevice.disk.state false (content checksum (log.take k)) 0,
        (content checksum (log.take k)).length⟩ := by
    refine ⟨⟨?_, (hroom.take k).lt, fun _ => ⟨(hwritable rfl).1, rfl⟩⟩, rfl⟩
    change device.file.content.take _ = _
    rw [hcontent', take_content]
    rfl
  obtain ⟨st, hlast, hkeeps⟩ := last_onFile hsame hmemory
  exact ⟨_, st, truncate_of_true hcut position, hlast, hkeeps⟩

end Host

/-- **A file hosts the log of the storage in memory.** -/
def fileHost (hw : w ≤ 64) (checksum : Checksum) :
    (Backend.blockMemory hw checksum).log.Host where
  toStorage := blockStorage fileDevice checksum
  reopen self := fromFile (fileOf self) false
  Keeps := OnFile checksum
  last_reopen {log st} h hroom hlaid := by
    have hsame : FileDevice.mirror.SameStorage (fromFile (fileOf st) false)
        ⟨MemoryDevice.disk.state false (content checksum log) 0, 0⟩ :=
      ⟨⟨h.content_eq, hroom.lt, fun _ => ⟨rfl, rfl⟩⟩, rfl⟩
    exact last_onFile hsame (last_content MemoryDevice.disk hw hroom hlaid 0 0)
  put_room h hroom hx hroom' :=
    ((FileDevice.mirror.put hw checksum hx hroom.lt) h).ok
      (put_content MemoryDevice.disk hw hx hroom')
  truncate_last h hroom hlaid hk := h.truncate_last hw hk hroom hlaid
  reader_keeps h := by
    obtain ⟨device, hclone, -⟩ := h.clone
    change (do
      let _ ← reader fileDevice
      return () : Run (BlockStorage fileDevice) Unit) _ = _
    rw [Prog.bind_ok (reader_eq hclone)]
    rfl
  read_keeps hk h hroom hlaid := h.read hw hk hroom hlaid
  scan_keeps count _ callback a hk _ h hroom hlaid := h.scan hw count callback a hk hroom hlaid
  full_panics := memory_panicsWhenFull hw checksum

end BlockStorage

/-- **A slate on a file** gives the answers of a slate in memory, whatever it is told to do and
asked, as long as the one in memory does not run out of memory; and after each command the file
has the bytes that are in memory. -/
theorem file_slate_agrees (hw : w ≤ 64) (checksum : Checksum) (H : HashFn w) (L : ℕ) {fuel : ℕ}
    (hf : INDEX_SIZE < fuel) :
    ∃ (s : SlateOn (.blockMemory hw checksum)) (t : Slate (blockStorage fileDevice checksum)),
      openNew (.blockMemory hw checksum) L = .ok s ∧
      Slate.withCacheLevel (S := blockStorage fileDevice checksum)
        (BlockStorage.fromFile [] false) L = .ok t ∧
      ∀ commands : List (Command w),
        Always (Slate.watch bufferOf (Backend.blockMemory hw checksum).log.reopen H fuel)
          (Slate.NoPanic (Backend.blockMemory hw checksum).log.reopen H fuel) commands s →
        (runAll (Slate.watch bufferOf (Backend.blockMemory hw checksum).log.reopen H fuel)
            commands s).1 =
          (runAll (Slate.watch fileOf (fun self => BlockStorage.fromFile (fileOf self) false) H
            fuel) commands t).1 := by
  have hnew : FileDevice.mirror.SameStorage (BlockStorage.fromFile [] false)
      ⟨MemoryDevice.disk.state false [] 0, 0⟩ := ⟨⟨rfl, by decide, fun _ => ⟨rfl, rfl⟩⟩, rfl⟩
  have hempty : BlockStorage.last memoryDevice checksum ⟨MemoryDevice.disk.state false [] 0, 0⟩ =
      (.ok (([] : List (Entry w)).getLast?,
          (BlockStorage.content checksum ([] : List (Entry w))).length),
        BlockStorage.inMemory checksum []) := BlockStorage.last_nil MemoryDevice.disk 0 0
  obtain ⟨st, hlast, hkeeps⟩ := BlockStorage.last_onFile hnew hempty
  obtain ⟨s, t, hs, ht, -, htwins⟩ :=
    twins_fresh (BlockStorage.fileHost hw checksum) H L hlast hkeeps
  have hlook : ∀ {log : List (Entry w)} {st : (BlockStorage.fileHost hw checksum).State},
      (BlockStorage.fileHost hw checksum).Keeps log st →
        bufferOf ((Backend.blockMemory hw checksum).log.render log) = fileOf st :=
    fun {_ _} h => (BlockStorage.OnFile.content_eq h).symm
  exact ⟨s, t, hs, ht, fun commands hpanic => htwins.runAll_eq hlook hf commands hpanic⟩

/-- Commands that cut the content and write behind the cut. -/
def cuttingCommands : List (Command 1) :=
  [.append [1], .append [2, 2], .append [3], .truncate 2, .append [4], .reopen 0, .append [5, 5],
    .truncate 9, .ask (.get 2), .askAt 1 (.getSample 1), .askAt 7 (.get 1)]

theorem file_slate_agrees_eleven :
    ∃ (s : SlateOn tinyBlock) (t : Slate (blockStorage (w := 1) fileDevice fun _ => 7)),
      openNew tinyBlock 1 = .ok s ∧
      Slate.withCacheLevel (S := blockStorage fileDevice fun _ => 7)
        (BlockStorage.fromFile [] false) 1 = .ok t ∧
      (runAll (Slate.watch bufferOf tinyBlock.log.reopen byteSum 65) cuttingCommands s).1 =
        (runAll (Slate.watch fileOf (fun self => BlockStorage.fromFile (fileOf self) false) byteSum
          65) cuttingCommands t).1 := by
  have hf : INDEX_SIZE < 65 := by decide
  obtain ⟨s, t, hs, ht, h⟩ := file_slate_agrees one_le_64 (fun _ => 7) byteSum 1 hf
  exact ⟨s, t, hs, ht, h _ (always_noPanic bufferOf hf _ (Reaches.new hs) (by decide))⟩

end StratifiedHashTree
