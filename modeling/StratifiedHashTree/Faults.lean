import StratifiedHashTree.Snapshots

/-!
# Writes that fail half way

A device may accept some bytes of a record and fail after that. The slate then returns the
error and keeps its cache and its position, and the storage keeps the position it
remembers; but the cursor of the device has moved behind the bytes that were accepted. The
next `put` is asked for the remembered position, and leaves the cursor where it is
(`StratifiedHashTree.BlockStorage.moveTo`). A write that is buffered is tried once more when
the buffer is dropped, and a device that works again by then accepts more bytes of the record,
or all of them, although the append has failed.

So nothing of what the slate answers has changed
(`StratifiedHashTree.FailedAppend.unchanged`), and yet the next append writes its record
behind the stray bytes, while all links to it will give the position of the slate: an append
can be retried if and only if the device accepted nothing at all, neither before it failed nor
when the buffer was dropped (`StratifiedHashTree.retried_iff`).
-/

namespace StratifiedHashTree

open Outcome

variable {w : ℕ}

/-! ### Devices that fail -/

/-- **A device with faults**: in the state `limited ks buffer` it has the content `buffer`,
with the cursor behind it. It accepts as many bytes as the first number in `ks` says, and fails
once; then it goes on with the next number. Clones are for reading and not affected. -/
structure Disk.Faults {D : BlockDevice} (K : Disk D) where
  limited : List ℕ → Bytes → D.State
  limit : List ℕ → D.State → D.State
  repair : D.State → D.State
  content_limited : ∀ (ks : List ℕ) (buffer : Bytes), K.content (limited ks buffer) = buffer
  limit_eq : ∀ (ks : List ℕ) (buffer : Bytes),
    limit ks (K.state false buffer buffer.length) = limited ks buffer
  repair_eq : ∀ (ks : List ℕ) (buffer : Bytes),
    repair (limited ks buffer) = K.state false buffer buffer.length
  clone_eq : ∀ (ks : List ℕ) (buffer : Bytes),
    D.cloneDevice (limited ks buffer) = (.ok (K.state true buffer 0), limited ks buffer)
  flush_fails : ∀ {k : ℕ} (ks : List ℕ) {buffer bytes : Bytes}, k < bytes.length →
    buffer.length + k ≤ MemoryDevice.MAX_CAPACITY →
    ∃ e, flushBuf D.write (bytes, limited (k :: ks) buffer) =
      (.error (.err e), (bytes.drop k, limited ks (buffer ++ bytes.take k)))
  flush_goes : ∀ {k : ℕ} (ks : List ℕ) {buffer bytes : Bytes}, bytes ≠ [] → bytes.length ≤ k →
    buffer.length + bytes.length ≤ MemoryDevice.MAX_CAPACITY →
    flushBuf D.write (bytes, limited (k :: ks) buffer) =
      (.ok (), ([], limited ((k - bytes.length) :: ks) (buffer ++ bytes)))

/-- A device with the numbers of bytes that it still accepts from one failure to the next, if it
fails at all; when there are no more of them, it fails every time. -/
structure Limited (D : BlockDevice) where
  device : D.State
  room : Option (List ℕ)

namespace Limited

variable {D : BlockDevice}

/-- A program on the device inside. -/
def inner {α : Type} (x : Run D.State α) : Run (Limited D) α := fun self =>
  ((x self.device).1, { self with device := (x self.device).2 })

/-- The error of a device that is full. -/
def noSpace : Error := .io .other "no space left on device"

/-- A write of the bytes there is room for. -/
def write (bytes : Bytes) : Run (Limited D) ℕ := fun self =>
  match self.room with
  | none => inner (D.write bytes) self
  | some [] => (.error (.err noSpace), self)
  | some (0 :: ks) => (.error (.err noSpace), { self with room := some ks })
  | some ((room + 1) :: ks) =>
    match D.write (bytes.take (room + 1)) self.device with
    | (.ok n, device) => (.ok n, ⟨device, some ((room + 1 - n) :: ks)⟩)
    | (.error e, device) => (.error e, ⟨device, some ((room + 1) :: ks)⟩)

/-- A clone of the device inside. -/
def cloneDevice : Run (Limited D) (Limited D) := do
  let device ← inner D.cloneDevice
  return ⟨device, none⟩

theorem inner_eq {α : Type} {x : Run D.State α} {device device' : D.State} {a : Result α}
    (h : x device = (a, device')) (room : Option (List ℕ)) :
    inner x ⟨device, room⟩ = (a, ⟨device', room⟩) := by
  rw [inner]
  simp only [h]

variable (K : Disk D)

theorem cloneDevice_eq (ro : Bool) (buffer : Bytes) (p : ℕ) (room : Option (List ℕ)) :
    cloneDevice ⟨K.state ro buffer p, room⟩ =
      (.ok ⟨K.state true buffer 0, none⟩, ⟨K.state ro buffer p, room⟩) := by
  rw [cloneDevice, Prog.bind_ok (inner_eq (K.clone_eq ro buffer p) room)]
  rfl

/-- A write for which there is some room. -/
theorem write_room {k : ℕ} (ks : List ℕ) {buffer bytes : Bytes}
    (hroom : buffer.length + (bytes.take (k + 1)).length ≤ MemoryDevice.MAX_CAPACITY) :
    write bytes ⟨K.state false buffer buffer.length, some ((k + 1) :: ks)⟩ =
      (.ok (bytes.take (k + 1)).length, ⟨K.state false (buffer ++ bytes.take (k + 1))
        (buffer ++ bytes.take (k + 1)).length,
        some ((k + 1 - (bytes.take (k + 1)).length) :: ks)⟩) := by
  rw [write]
  simp only [K.write_end hroom]

/-- **What does not fit is accepted as far as there is room**, and refused once. -/
theorem flushBuf_fails {k : ℕ} (ks : List ℕ) {buffer bytes : Bytes} (hk : k < bytes.length)
    (hroom : buffer.length + k ≤ MemoryDevice.MAX_CAPACITY) :
    ∃ e, flushBuf write (bytes, ⟨K.state false buffer buffer.length, some (k :: ks)⟩) =
      (.error (.err e), (bytes.drop k,
        ⟨K.state false (buffer ++ bytes.take k) (buffer ++ bytes.take k).length, some ks⟩)) := by
  refine ⟨noSpace, ?_⟩
  cases k with
  | zero =>
    rw [List.take_zero, List.append_nil, List.drop_zero]
    exact flushBuf_of_error (List.ne_nil_of_length_pos hk) rfl
  | succ k =>
    have htake : (bytes.take (k + 1)).length = k + 1 := List.length_take_of_le hk.le
    have h1 := @write_room D K k ks buffer bytes (by rw [htake]; exact hroom)
    rw [htake, Nat.sub_self] at h1
    exact flushBuf_of_partial hk h1 rfl

/-- What fits is accepted. -/
theorem flushBuf_goes {k : ℕ} (ks : List ℕ) {buffer bytes : Bytes} (hne : bytes ≠ [])
    (hk : bytes.length ≤ k) (hroom : buffer.length + bytes.length ≤ MemoryDevice.MAX_CAPACITY) :
    flushBuf write (bytes, ⟨K.state false buffer buffer.length, some (k :: ks)⟩) =
      (.ok (), ([], ⟨K.state false (buffer ++ bytes) (buffer ++ bytes).length,
        some ((k - bytes.length) :: ks)⟩)) := by
  obtain ⟨k, rfl⟩ : ∃ m, k = m + 1 :=
    Nat.exists_eq_succ_of_ne_zero (by have := List.length_pos_of_ne_nil hne; omega)
  have h1 := @write_room D K k ks buffer bytes (by rw [List.take_of_length_le hk]; exact hroom)
  rw [List.take_of_length_le hk] at h1
  exact flushBuf_of_write hne h1

end Limited

/-- Any device, with a limit to what it accepts. -/
def limitedDevice (D : BlockDevice) : BlockDevice where
  State := Limited D
  read k := Limited.inner (D.read k)
  write := Limited.write
  seek pos := Limited.inner (D.seek pos)
  truncate p := Limited.inner (D.truncate p)
  cloneDevice := Limited.cloneDevice

/-- As long as there is no limit, such a device keeps its content if the device inside
does. -/
def limitedDisk {D : BlockDevice} (K : Disk D) : Disk (limitedDevice D) where
  state := fun ro buffer p => ⟨K.state ro buffer p, none⟩
  content := fun self => K.content self.device
  content_eq := fun ro buffer p => K.content_eq ro buffer p
  seek_start := fun ro buffer p q => Limited.inner_eq (K.seek_start ro buffer p q) none
  seek_end := fun ro buffer p h => Limited.inner_eq (K.seek_end ro p h) none
  seek_back := fun ro buffer p d hd h => Limited.inner_eq (K.seek_back ro buffer hd h) none
  read_eq := fun ro buffer bytes post p h => Limited.inner_eq (K.read_eq ro h) none
  write_end := fun {buffer bytes} h => Limited.inner_eq (K.write_end h) none
  write_full := fun {buffer bytes} h => by
    obtain ⟨f, s, hwrite, hf⟩ := K.write_full h
    refine ⟨f, _, Limited.inner_eq hwrite none, hf.imp_right ?_⟩
    rintro ⟨e, rfl, rfl⟩
    exact ⟨e, rfl, rfl⟩
  truncate_eq := fun {buffer q} h => by
    obtain ⟨p, hcut⟩ := K.truncate_eq h
    exact ⟨p, Limited.inner_eq hcut none⟩
  clone_eq := fun ro buffer p => Limited.cloneDevice_eq K ro buffer p none
  reopen := fun self => ⟨K.reopen self.device, none⟩
  reopen_eq := fun ro buffer p => congrArg (Limited.mk · none) (K.reopen_eq ro buffer p)

/-- **Every device that keeps its content can have faults.** -/
def limitedFaults {D : BlockDevice} (K : Disk D) : (limitedDisk K).Faults where
  limited := fun ks buffer => ⟨K.state false buffer buffer.length, some ks⟩
  limit := fun ks self => ⟨self.device, some ks⟩
  repair := fun self => ⟨self.device, none⟩
  content_limited := fun _ buffer => K.content_eq false buffer buffer.length
  limit_eq := fun _ _ => rfl
  repair_eq := fun _ _ => rfl
  clone_eq := fun ks buffer => Limited.cloneDevice_eq K false buffer buffer.length (some ks)
  flush_fails := fun ks _ _ hk hroom => Limited.flushBuf_fails K ks hk hroom
  flush_goes := fun ks _ _ hne hk hroom => Limited.flushBuf_goes K ks hne hk hroom

/-! ### Slates whose device fails -/

section Slates

variable {D : BlockDevice} {K : Disk D} {hw : w ≤ 64} {checksum : Checksum} {F : K.Faults}
  {H : HashFn w} {L : ℕ} {vs : List Bytes} {v : ℕ → Bytes} {n k k' : ℕ} {value value' : Bytes}
  {s s1 s2 : SlateOn (.block K hw checksum)}

/-- The log of a block storage. -/
abbrev blockLog (K : Disk D) (hw : w ≤ 64) (checksum : Checksum) :
    LogStorage (Entry w) Entry.Placed := (Backend.block K hw checksum).log

/-- The storage of a slate. -/
def blocks (s : SlateOn (.block K hw checksum)) : BlockStorage D := s.storage

/-- Something happens to the device of a slate. -/
def changeDevice (f : D.State → D.State) (s : SlateOn (.block K hw checksum)) :
    SlateOn (.block K hw checksum) :=
  { s with storage := (⟨f (blocks s).device, (blocks s).position⟩ : BlockStorage D) }

/-- **An append that fails**: the device accepts `k` bytes, fewer than the record has, and fails;
when the buffer is dropped, it accepts another `k'` bytes at most, until it is repaired. -/
structure FailedAppend (F : K.Faults) (H : HashFn w) (k k' : ℕ) (value : Bytes)
    (s s1 : SlateOn (.block K hw checksum)) : Prop where
  payload_le : value.length ≤ MAX_PAYLOAD_SIZE
  lt_length : ∃ entry model, Slate.buildEntry H s value = .ok (entry, model) ∧
    k < (record checksum entry).length ∧ k + k' ≤ (record checksum entry).length
  room : (K.content (blocks s).device).length + (k + k') ≤ MemoryDevice.MAX_CAPACITY
  fails : ∃ e, Slate.append H value (changeDevice (F.limit [k, k']) s) = (.error (.err e), s1)

/-- **The slates that can be reached when writes may fail**, as long as the writes that fail
leave nothing behind, and the device is repaired each time. -/
inductive Survives (F : K.Faults) (H : HashFn w) :
    ℕ → List Bytes → SlateOn (.block K hw checksum) → Prop
  | new {L : ℕ} {s : SlateOn (.block K hw checksum)} :
      openNew (.block K hw checksum) L = .ok s → Survives F H L [] s
  | append {L : ℕ} {vs : List Bytes} {s s' : SlateOn (.block K hw checksum)} {v : Bytes}
      {info : MetaInfo w} :
      Survives F H L vs s → Slate.append H v s = (.ok info, s') → Survives F H L (vs ++ [v]) s'
  | truncate {L : ℕ} {vs : List Bytes} {s s' : SlateOn (.block K hw checksum)} {fuel i : ℕ} :
      Survives F H L vs s → INDEX_SIZE < fuel → Slate.truncate fuel i s = (.ok true, s') →
      Survives F H L (vs.take (i - 1)) s'
  | keep {L : ℕ} {vs : List Bytes} {s s' : SlateOn (.block K hw checksum)} {fuel i : ℕ} :
      Survives F H L vs s → INDEX_SIZE < fuel → Slate.truncate fuel i s = (.ok false, s') →
      Survives F H L vs s'
  | reopen {L L' : ℕ} {vs : List Bytes} {s s' : SlateOn (.block K hw checksum)} :
      Survives F H L vs s →
      Slate.withCacheLevel ((blockLog K hw checksum).reopen s.storage) L' = .ok s' →
      Survives F H L' vs s'
  | failed {L : ℕ} {vs : List Bytes} {s s1 : SlateOn (.block K hw checksum)} {v : Bytes} :
      Survives F H L vs s → FailedAppend F H 0 0 v s s1 →
      Survives F H L vs (changeDevice F.repair s1)

/-- **A failed append was retried**: between the slates `s` and `s1` nothing has changed for
a reader; the append that led to `s2` put its record at the position of the slate, and its
payload is found there, now and after the storage is opened again. -/
structure Retried (H : HashFn w) (value : Bytes) (s s1 s2 : SlateOn (.block K hw checksum)) :
    Prop where
  n_eq : s1.n = s.n
  root_eq : s1.root = s.root
  get_eq : ∀ fuel, INDEX_SIZE < fuel → ∀ i,
    (s1.snapshot.get fuel i s1.storage).1 = (s.snapshot.get fuel i s.storage).1
  placed : ∃ entry model, Slate.buildEntry H s1 value = .ok (entry, model) ∧
    K.content (blocks s2).device =
      overwrite (K.content (blocks s1).device) s1.position (record checksum entry)
  get_new : ∀ fuel, INDEX_SIZE < fuel →
    s2.snapshot.get fuel (s.n + 1) s2.storage = (.ok (some value), s2.storage)
  reopens : ∀ L, ∃ s3 : SlateOn (.block K hw checksum),
    Slate.withCacheLevel ((blockLog K hw checksum).reopen s2.storage) L = .ok s3 ∧
      s3.n = s.n + 1

/-! ### Appends on a device that was changed -/

theorem blocks_eq (h : SlateOf (blockLog K hw checksum) H L v n s) :
    blocks s = BlockStorage.render K checksum (history (blockLog K hw checksum) H v n) :=
  h.storage_eq

theorem content_eq (h : SlateOf (blockLog K hw checksum) H L v n s) :
    K.content (blocks s).device =
      BlockStorage.content checksum (history (blockLog K hw checksum) H v n) := by
  rw [blocks_eq h]
  exact K.content_eq false _ _

/-- The cursor is behind the content. -/
theorem device_eq (h : SlateOf (blockLog K hw checksum) H L v n s) :
    (blocks s).device =
      K.state false (K.content (blocks s).device) (K.content (blocks s).device).length := by
  rw [content_eq h, blocks_eq h]
  rfl

/-- So is the position. -/
theorem length_content (h : SlateOf (blockLog K hw checksum) H L v n s) :
    (K.content (blocks s).device).length = s.position := by
  rw [content_eq h, h.position_eq]
  rfl

/-- The storage remembers the position of the slate, whatever happens to the device. -/
theorem blocks_changeDevice (h : SlateOf (blockLog K hw checksum) H L v n s)
    (f : D.State → D.State) :
    blocks (changeDevice f s) =
      ⟨f (blocks s).device, positionOf (blockLog K hw checksum) H v (n + 1)⟩ := by
  rw [changeDevice, blocks, blocks_eq h]
  rfl

/-- When the device fails, the append fails, and only the device has changed. -/
theorem append_of_flush_error (h : SlateOf (blockLog K hw checksum) H L v n s)
    (hv : (v (n + 1)).length ≤ MAX_PAYLOAD_SIZE) {f : D.State → D.State} {e : Failure Error}
    {rest : Bytes × D.State}
    (hflush : BlockStorage.flushOrDrop D
      (record checksum (entryOf (blockLog K hw checksum) H v (n + 1)), f (blocks s).device) =
        (.error e, rest)) :
    Slate.append H (v (n + 1)) (changeDevice f s) =
      (.error e, changeDevice (fun _ => rest.2) s) := by
  have hplaced := h.fits.placed (Nat.le_add_left 1 n) (Nat.le_refl (n + 1)) hv
  have hput : BlockStorage.put D checksum (positionOf (blockLog K hw checksum) H v (n + 1))
      (entryOf (blockLog K hw checksum) H v (n + 1)) (blocks (changeDevice f s)) =
        (.error e, blocks (changeDevice (fun _ => rest.2) s)) := by
    rw [blocks_changeDevice h, BlockStorage.put_error hw hplaced hflush, blocks_changeDevice h]
  exact SlateOf.append_error (s := changeDevice f s) h.represents h.position_eq h.fits.lt hv hput

/-- When the append returns, the record was flushed. -/
theorem flush_of_append (h : SlateOf (blockLog K hw checksum) H L v n s)
    (hv : (v (n + 1)).length ≤ MAX_PAYLOAD_SIZE) {f : D.State → D.State} {info : MetaInfo w}
    (ha : Slate.append H (v (n + 1)) (changeDevice f s) = (.ok info, s2)) :
    ∃ rest, BlockStorage.flushOrDrop D
      (record checksum (entryOf (blockLog K hw checksum) H v (n + 1)), f (blocks s).device) =
        (.ok (), (rest, (blocks s2).device)) := by
  obtain ⟨position, hput⟩ := SlateOf.put_of_append (s := changeDevice f s) h.represents
    h.position_eq h.fits.lt hv ha
  have hput' : BlockStorage.put D checksum (positionOf (blockLog K hw checksum) H v (n + 1))
      (entryOf (blockLog K hw checksum) H v (n + 1)) (blocks (changeDevice f s)) =
        (.ok position, blocks s2) := hput
  rw [blocks_changeDevice h] at hput'
  exact BlockStorage.flush_of_put hw
    (h.fits.placed (Nat.le_add_left 1 n) (Nat.le_refl (n + 1)) hv) hput'

/-! ### What a failed append leaves behind -/

/-- A device that fails in a flush, and then accepts what it still accepts of the dropped
buffer. -/
theorem Disk.Faults.flushOrDrop_eq {buffer bytes : Bytes} (hk : k < bytes.length)
    (hk' : k + k' ≤ bytes.length) (hroom : buffer.length + (k + k') ≤ MemoryDevice.MAX_CAPACITY) :
    ∃ e ks rest, BlockStorage.flushOrDrop D (bytes, F.limited [k, k'] buffer) =
      (.error (.err e), (rest, F.limited ks (buffer ++ bytes.take (k + k')))) := by
  obtain ⟨e, hfails⟩ := F.flush_fails [k'] hk (show buffer.length + k ≤ _ by omega)
  have hlen : (buffer ++ bytes.take k).length = buffer.length + k := by
    rw [List.length_append, List.length_take_of_le hk.le]
  have hdrop : (bytes.drop k).length = bytes.length - k := List.length_drop
  have htake : bytes.take (k + k') = bytes.take k ++ (bytes.drop k).take k' := List.take_add
  rw [htake, ← List.append_assoc]
  rcases (show k + k' < bytes.length ∨ k + k' = bytes.length by omega) with hlt | heq
  · obtain ⟨e', hdropped⟩ := @Disk.Faults.flush_fails D K F k' [] (buffer ++ bytes.take k)
      (bytes.drop k) (by omega) (by omega)
    exact ⟨e, _, _, BlockStorage.flushOrDrop_err hfails hdropped⟩
  · have hdropped := @Disk.Faults.flush_goes D K F k' [] (buffer ++ bytes.take k)
      (bytes.drop k) (List.ne_nil_of_length_pos (by omega)) (by omega) (by omega)
    rw [List.take_of_length_le (show (bytes.drop k).length ≤ k' by omega)]
    exact ⟨e, _, _, BlockStorage.flushOrDrop_late hfails hdropped⟩

/-- **A failed append leaves its first bytes** behind the content, and the cursor behind
these. -/
theorem FailedAppend.eq_changeDevice (h : SlateOf (blockLog K hw checksum) H L v n s)
    (hvalue : value = v (n + 1)) (hf : FailedAppend F H k k' value s s1) :
    ∃ (ks : List ℕ) (bytes : Bytes), bytes.length = k + k' ∧
      s1 = changeDevice (fun _ => F.limited ks (K.content (blocks s).device ++ bytes)) s := by
  subst hvalue
  obtain ⟨hv, ⟨entry, model, hbuild, hk, hk'⟩, hroom, e, hfails⟩ := hf
  rw [buildEntry_eq h.represents h.position_eq h.fits.lt, Except.ok.injEq, Prod.mk.injEq] at hbuild
  obtain ⟨rfl, rfl⟩ := hbuild
  have hlimit : F.limit [k, k'] (blocks s).device =
      F.limited [k, k'] (K.content (blocks s).device) := by
    rw [device_eq h, F.limit_eq, K.content_eq]
  obtain ⟨e', ks, rest, hflush⟩ := F.flushOrDrop_eq hk hk' hroom
  rw [← hlimit] at hflush
  rw [append_of_flush_error h hv hflush] at hfails
  exact ⟨ks, _, List.length_take_of_le hk', (Prod.mk.inj hfails).2.symm⟩

/-- The entries can be read all the same. -/
theorem readable_of_limited (h : SlateOf (blockLog K hw checksum) H L v n s) {ks : List ℕ}
    {bytes : Bytes}
    (hst : (blocks s1).device = F.limited ks (K.content (blocks s).device ++ bytes)) :
    Readable (blockLog K hw checksum).toStorage s1.storage H v
      (positionOf (blockLog K hw checksum) H v) n := by
  have hclone := F.clone_eq ks (K.content (blocks s).device ++ bytes)
  rw [← hst, content_eq h] at hclone
  constructor
  · have hreader : (do
        let _ ← BlockStorage.reader D
        return () : Run (BlockStorage D) Unit) (blocks s1) = (.ok (), blocks s1) := by
      rw [Prog.bind_ok (BlockStorage.reader_eq hclone)]
      rfl
    exact hreader
  · intro i h1 h2
    have hi : i - 1 < (history (blockLog K hw checksum) H v n).length := by
      rw [length_history]
      omega
    have hread := BlockStorage.read_eq K hw hi h.fits.laid hclone
    simp only [take_history (blockLog K hw checksum) H v (show i - 1 ≤ n by omega),
      history_getElem, Nat.sub_add_cancel h1] at hread
    exact hread

/-- **A failed append changes nothing** that the slate answers. -/
theorem FailedAppend.unchanged (h : SlateOf (blockLog K hw checksum) H L v n s)
    (hvalue : value = v (n + 1)) (hf : FailedAppend F H k k' value s s1) :
    s1.n = s.n ∧ s1.root = s.root ∧ ∀ fuel, INDEX_SIZE < fuel → ∀ i,
      (s1.snapshot.get fuel i s1.storage).1 = (s.snapshot.get fuel i s.storage).1 := by
  obtain ⟨ks, bytes, -, hs1⟩ := hf.eq_changeDevice h hvalue
  have hcache : s1.cache = s.cache := by
    rw [hs1]
    rfl
  refine ⟨congrArg Cache.revision hcache, congrArg Cache.root hcache, fun fuel hfuel i => ?_⟩
  have hst : (blocks s1).device = F.limited ks (K.content (blocks s).device ++ bytes) := by
    rw [hs1]
    rfl
  have hr := readable_of_limited h hst
  have hget := StratifiedHashTree.get_eq (q := { cache := s1.cache })
    (by rw [hcache]; exact h.represents) h.lt hr hfuel i
  have hquery : s1.snapshot.query s1.storage = (.ok { cache := s1.cache }, s1.storage) := by
    rw [Snapshot.query, Prog.bind_ok hr.reader]
    rfl
  rw [h.view.get_eq hfuel, Snapshot.get, Prog.bind_ok hquery, hget]

/-- When the device accepted nothing, repairing it brings the slate back. -/
theorem FailedAppend.repair_eq (h : SlateOf (blockLog K hw checksum) H L v n s)
    (hvalue : value = v (n + 1)) (hf : FailedAppend F H 0 0 value s s1) :
    changeDevice F.repair s1 = s := by
  obtain ⟨ks, bytes, hbytes, hs1⟩ := hf.eq_changeDevice h hvalue
  rw [List.length_eq_zero_iff] at hbytes
  subst hbytes
  have hdevice : F.repair (F.limited ks (K.content (blocks s).device ++ [])) =
      (blocks s).device := by
    rw [List.append_nil, F.repair_eq, ← device_eq h]
  have hst : (⟨F.repair (blocks s1).device, (blocks s1).position⟩ : BlockStorage D) = blocks s := by
    rw [hs1]
    exact congrArg (BlockStorage.mk · (blocks s).position) hdevice
  rw [changeDevice, hst, hs1]
  rfl

/-- What was accepted stays in front of the record of the next append. -/
theorem content_of_append (h : SlateOf (blockLog K hw checksum) H L v n s)
    (hvalue : value = v (n + 1)) {ks : List ℕ} {bytes : Bytes}
    (hs1 : s1 = changeDevice (fun _ => F.limited ks (K.content (blocks s).device ++ bytes)) s)
    {info : MetaInfo w} (ha : Slate.append H value (changeDevice F.repair s1) = (.ok info, s2)) :
    K.content (blocks s2).device = K.content (blocks s).device ++ bytes ++
      record checksum (entryOf (blockLog K hw checksum) H v (n + 1)) := by
  subst hvalue
  by_cases hv : (v (n + 1)).length ≤ MAX_PAYLOAD_SIZE
  · have hs1' : changeDevice F.repair s1 = changeDevice
        (fun _ => F.repair (F.limited ks (K.content (blocks s).device ++ bytes))) s := by
      rw [hs1]
      rfl
    rw [hs1'] at ha
    obtain ⟨rest, hflush⟩ := flush_of_append h hv ha
    rw [F.repair_eq] at hflush
    have hne := BlockStorage.record_ne_nil checksum
      (entryOf (blockLog K hw checksum) H v (n + 1))
    by_cases hroom : (K.content (blocks s).device ++ bytes).length +
        (record checksum (entryOf (blockLog K hw checksum) H v (n + 1))).length ≤
          MemoryDevice.MAX_CAPACITY
    · rw [BlockStorage.flushOrDrop_ok (K.flushBuf_eq hne hroom)] at hflush
      rw [← (Prod.mk.inj (Prod.mk.inj hflush).2).2, K.content_eq]
    · rcases K.flushBuf_full hne (Nat.lt_of_not_le hroom) with ⟨p, st, hfull⟩ | ⟨e, hfull⟩
      · rw [BlockStorage.flushOrDrop_panic hfull] at hflush
        exact absurd (Prod.mk.inj hflush).1 (by simp)
      · rw [BlockStorage.flushOrDrop_err hfull hfull] at hflush
        exact absurd (Prod.mk.inj hflush).1 (by simp)
  · rw [SlateOf.append_tooLarge (by omega)] at ha
    exact absurd (Prod.mk.inj ha).1 (by simp)

/-- Failing writes that accept nothing lead nowhere new. -/
theorem Survives.reaches (h : Survives F H L vs s) : Reaches (.block K hw checksum) H L vs s := by
  induction h with
  | new h => exact .new h
  | append _ ha ih => exact ih.append ha
  | truncate _ hf ht ih => exact ih.truncate hf ht
  | keep _ hf ht ih => exact ih.keep hf ht
  | reopen _ ho ih => exact ih.reopen ho
  | @failed L vs s s1 value _ hf ih =>
    have hslate := ih.slateOf.congr fun k h1 h2 => payload_append_left [value] h1 h2
    rw [hf.repair_eq hslate (payload_concat vs value).symm]
    exact ih

/-- **Failed appends can be retried exactly when they left nothing behind.** Whatever was
accepted of the record, the slate answers as before; but the next append that succeeds puts its
record at the position of the slate if and only if nothing was accepted, neither before the
device failed nor when the buffer was dropped, and then everything is as if the failed append
had never been tried. -/
theorem retried_iff (h : Survives F H L vs s) (hf : FailedAppend F H k k' value s s1)
    {info : MetaInfo w} (ha : Slate.append H value' (changeDevice F.repair s1) = (.ok info, s2)) :
    Retried H value' s s1 s2 ↔ k = 0 ∧ k' = 0 := by
  have hslate := h.reaches.slateOf.congr fun k h1 h2 => payload_append_left [value] h1 h2
  have hslate' := h.reaches.slateOf.congr fun k h1 h2 => payload_append_left [value'] h1 h2
  have hvalue := (payload_concat vs value).symm
  have hvalue' := (payload_concat vs value').symm
  obtain ⟨ks, bytes, hbytes, hs1⟩ := hf.eq_changeDevice hslate hvalue
  have hcontent := content_of_append hslate' hvalue' hs1 ha
  have hbuild : Slate.buildEntry H s1 value' =
      .ok (entryOf (blockLog K hw checksum) H (payload (vs ++ [value'])) (vs.length + 1),
        modelOf (vs.length + 1)) := by
    have hc : s1.cache = s.cache := by
      rw [hs1]
      rfl
    have hpos : s1.position = s.position := by
      rw [hs1]
      rfl
    have hb := buildEntry_eq (hc ▸ hslate'.represents) (hpos.trans hslate'.position_eq)
      hslate'.fits.lt
    rwa [← hvalue'] at hb
  have hcontent1 : K.content (blocks s1).device = K.content (blocks s).device ++ bytes := by
    rw [hs1]
    exact F.content_limited ks _
  have hposition : s1.position = (K.content (blocks s).device).length := by
    rw [length_content hslate, hs1]
    rfl
  constructor
  · intro hr
    obtain ⟨entry, model, hbuild', hplaced⟩ := hr.placed
    rw [hbuild, Except.ok.injEq, Prod.mk.injEq] at hbuild'
    obtain ⟨rfl, -⟩ := hbuild'
    -- a record behind the stray bytes makes the content longer than one over them
    have hlen := congrArg List.length hplaced
    have hpos := BlockStorage.length_record_pos checksum
      (entryOf (blockLog K hw checksum) H (payload (vs ++ [value'])) (vs.length + 1))
    rw [hcontent, hcontent1, hposition, length_overwrite _ (by rw [List.length_append]; omega),
      List.length_append, List.length_append] at hlen
    omega
  · rintro ⟨rfl, rfl⟩
    -- the cursor is where it was, and the append is one on the slate itself
    rw [List.length_eq_zero_iff] at hbytes
    subst hbytes
    obtain ⟨h1, h2, h3⟩ := hf.unchanged hslate hvalue
    rw [hf.repair_eq hslate hvalue] at ha
    have hs2 := (h.reaches.append ha).slateOf
    rw [List.length_append, List.length_singleton] at hs2
    have hn : s.n = vs.length := hslate.n_eq
    refine ⟨h1, h2, h3, ⟨_, _, hbuild, ?_⟩, fun fuel hfuel => ?_, fun L' => ?_⟩
    · rw [hcontent, hcontent1, hposition, List.append_nil, overwrite_end]
    · rw [hn, hs2.view.get_eq hfuel, if_pos ⟨Nat.le_add_left 1 _, Nat.le_refl _⟩, payload_concat]
    · obtain ⟨s3, ho, hs3⟩ := hs2.reopen L'
      exact ⟨s3, ho, by rw [hs3.n_eq, hn]⟩

end Slates

/-! ### The first append, tried twice -/

/-- The device in memory, with faults. -/
def memoryFaults : (limitedDisk MemoryDevice.disk).Faults := limitedFaults MemoryDevice.disk

/-- A slate on it, for hashes of one byte and with a constant checksum. -/
abbrev FaultySlate := SlateOn
  (.block (limitedDisk MemoryDevice.disk) (Nat.le_add_left 1 63) fun _ => 7)

/-- The slate without entries. -/
def emptySlate : FaultySlate where
  position := 4
  storage :=
    (⟨⟨⟨false, BlockStorage.header, 4⟩, none⟩, 4⟩ : BlockStorage (limitedDevice memoryDevice))
  cache := Cache.empty 0

/-- What is left of it when an append fails after so many bytes. -/
def failedSlate (ks : List ℕ) : FaultySlate :=
  (Slate.append byteSum [1] (changeDevice (memoryFaults.limit ks) emptySlate)).2

/-- The same, with the device repaired and the payload appended again. -/
def retriedSlate (ks : List ℕ) : FaultySlate :=
  (Slate.append byteSum [1] (changeDevice memoryFaults.repair (failedSlate ks))).2

/-- When the device has accepted nothing, the second try succeeds. -/
theorem retried_iff_zero :
    Retried byteSum [1] emptySlate (failedSlate [0, 0]) (retriedSlate [0, 0]) := by
  have hs : Survives memoryFaults byteSum 0 [] emptySlate := .new rfl
  have hf : FailedAppend memoryFaults byteSum 0 0 [1] emptySlate (failedSlate [0, 0]) :=
    ⟨by decide, ⟨_, _, rfl, by decide, by decide⟩, by decide, _, rfl⟩
  have ha : Slate.append byteSum [1] (changeDevice memoryFaults.repair (failedSlate [0, 0])) =
      (.ok _, retriedSlate [0, 0]) := rfl
  exact (retried_iff hs hf ha).mpr ⟨rfl, rfl⟩

/-- **One byte is enough**: the second try returns, and after it the storage cannot be
opened any more. -/
theorem not_retried_one : Reaches _ byteSum 0 [] emptySlate ∧
    FailedAppend memoryFaults byteSum 1 0 [1] emptySlate (failedSlate [1, 0]) ∧
    (∃ info, Slate.append byteSum [1] (changeDevice memoryFaults.repair (failedSlate [1, 0])) =
      (.ok info, retriedSlate [1, 0])) ∧
    isOk (Slate.withCacheLevel ((blockLog _ _ _).reopen (retriedSlate [1, 0]).storage) 0) =
      false ∧
    ¬Retried byteSum [1] emptySlate (failedSlate [1, 0]) (retriedSlate [1, 0]) := by
  have ho : isOk (Slate.withCacheLevel
      ((blockLog _ _ _).reopen (retriedSlate [1, 0]).storage) 0) = false := by decide +kernel
  refine ⟨.new rfl, ⟨by decide, ⟨_, _, rfl, by decide, by decide⟩, by decide, _, rfl⟩, ⟨_, rfl⟩,
    ho, fun hr => ?_⟩
  obtain ⟨s3, h3, -⟩ := hr.reopens 0
  rw [h3] at ho
  exact Bool.noConfusion ho

end StratifiedHashTree
