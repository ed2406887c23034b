import StratifiedHashTree.Device

/-!
# The records of a storage

`serialize.rs` and `checksum.rs`. An entry is stored as the fields that cannot be put
together again – the index, the heights, left branches and hashes of its nodes, the
payload with its hash – followed by a delimiter: the length of all this, to find the head
of a record from its end, and a checksum. The checksum is a parameter: nothing is asked of
it.

The theorems are about two judgements, one for each direction.
`StratifiedHashTree.Emits P bytes a` says that the program `P` writes the bytes and
returns `a`; `StratifiedHashTree.Consumes P bytes a` that it returns `a` from a cursor at
which the bytes lie. Both are closed under sequencing, so a codec is checked field by
field (`StratifiedHashTree.emits_writeEntryTo`,
`StratifiedHashTree.consumes_readEntryFrom`).
-/

namespace StratifiedHashTree

open Outcome

variable {w : ℕ}

/-- A checksum algorithm. -/
abbrev Checksum := Bytes → UInt64

/-- A buffer of `w` bytes, filled with some bytes. -/
def Hash.fill (bytes : Bytes) : Hash w where
  value := bytes.take w ++ List.replicate (w - (bytes.take w).length) 0
  length_value := by
    rw [List.length_append, List.length_replicate, List.length_take]
    omega

theorem Hash.fill_value (h : Hash w) : Hash.fill h.value = h := by
  obtain ⟨value, rfl⟩ := h
  simp [Hash.fill]

/-! ### Entries -/

section Codec

variable {σ : Type}

/-- Writes the nodes of an entry; `length` counts what was written before. -/
def writeInodesFrom (write : Bytes → Run σ Unit) : List (INode w) → ℕ → Run σ ℕ
  | [], length => return length
  | i :: rest, length => do
    let j ← subBits i.metaInfo.address.j 1
    (debugAssert (j &&& (INDEX_SIZE - 1) = j) : Result Unit)
    (debugAssert (w = i.metaInfo.hash.value.length) : Result Unit)
    write (leBytes 1 (j &&& (INDEX_SIZE - 1)))
    write (leBytes 8 i.left.position)
    write (leBytes 8 i.left.i)
    write (leBytes 1 i.left.j)
    write i.metaInfo.hash.value
    writeInodesFrom write rest (length + (18 + i.metaInfo.hash.value.length))

def writeInodesTo (write : Bytes → Run σ Unit) (index : Index) (inodes : List (INode w)) :
    Run σ ℕ := do
  (debugAssert (inodes.length ≤ 0xFF) : Result Unit)
  write (leBytes 8 index)
  write (leBytes 1 inodes.length)
  writeInodesFrom write inodes 9

def writeEntryTo (write : Bytes → Run σ Unit) (entry : Entry w) : Run σ ℕ := do
  (debugAssert (entry.enode.payload.length ≤ MAX_PAYLOAD_SIZE) : Result Unit)
  let length ← writeInodesTo write entry.index entry.inodes
  write (leBytes 4 entry.enode.payload.length)
  write entry.enode.payload
  write entry.enode.metaInfo.hash.value
  return length + (4 + entry.enode.payload.length + entry.enode.metaInfo.hash.value.length)

/-- `Serializable::write`. -/
def Entry.write (write : Bytes → Run σ Unit) (self : Entry w) : Run σ ℕ := do
  (debugAssert (self.enode.payload.length ≤ MAX_PAYLOAD_SIZE) : Result Unit)
  (debugAssert (self.inodes.length ≤ 0xFF) : Result Unit)
  writeEntryTo write self

/-- Reads so many nodes; the right branch of each is the node before it. -/
def readInodes (read : ℕ → Run σ Bytes) (i : Index) (position : Position) :
    ℕ → ℕ → Run σ (List (INode w))
  | 0, _ => return []
  | count + 1, rightJ => do
    let b ← read 1
    -- only the lower 6 bits
    let j := (ofLeBytes b &&& (INDEX_SIZE - 1)) + 1
    let leftPosition ← read 8
    let leftI ← read 8
    let leftJ ← read 1
    let hash ← read w
    let inodes ← readInodes read i position count j
    return { metaInfo := { address := ⟨i, j, position⟩, hash := Hash.fill hash }
             left := ⟨ofLeBytes leftI, ofLeBytes leftJ, ofLeBytes leftPosition⟩
             right := ⟨i, rightJ, position⟩ } :: inodes

def readInodesFrom (read : ℕ → Run σ Bytes) (position : Position) :
    Run σ (Index × List (INode w)) := do
  let i ← read 8
  let count ← read 1
  let inodes ← readInodes read (ofLeBytes i) position (ofLeBytes count) 0
  return (ofLeBytes i, inodes)

/-- `Serializable::read`. -/
def readEntryFrom (read : ℕ → Run σ Bytes) (position : Position) : Run σ (Entry w) := do
  let (i, inodes) ← readInodesFrom read position
  let size ← read 4
  let payload ← read (ofLeBytes size &&& MAX_PAYLOAD_SIZE)
  let hash ← read w
  return { enode := { metaInfo := { address := ⟨i, 0, position⟩, hash := Hash.fill hash }
                      payload := payload }
           inodes := inodes }

end Codec

/-! ### Checksums -/

/-- A writer that keeps what it wrote for the checksum and counts it. -/
structure ChecksumWrite where
  output : Bytes
  hasher : Bytes
  offset : ℕ

namespace ChecksumWrite

/-- A new writer. -/
def new : ChecksumWrite := { output := [], hasher := [], offset := 0 }

def write (bytes : Bytes) : Run ChecksumWrite Unit := do
  let self ← Prog.get
  let offset ← addBits 32 self.offset (bytes.length % 2 ^ 32)
  Prog.set { output := self.output ++ bytes, hasher := self.hasher ++ bytes, offset := offset }

/-- Writes the offset to the head of the entry, and the checksum. -/
def writeDelimiter (checksum : Checksum) : Run ChecksumWrite ℕ := do
  let self ← Prog.get
  write (leBytes 4 self.offset)
  let self ← Prog.get
  let offset ← addBits 32 self.offset 8
  Prog.set { self with
    output := self.output ++ leBytes 8 (checksum self.hasher).toNat
    offset := offset }
  return 12

end ChecksumWrite

/-- Serializes an entry; returns the length. -/
def writeData (checksum : Checksum) (e : Entry w) : Run ChecksumWrite ℕ := do
  let length ← e.write ChecksumWrite.write
  let delimiter ← ChecksumWrite.writeDelimiter checksum
  return length + delimiter

/-- A reader on a device that keeps what it read for the checksum and counts it. -/
structure ChecksumRead (D : BlockDevice) where
  input : D.State
  hasher : Bytes
  offset : ℕ

namespace ChecksumRead

variable {D : BlockDevice}

/-- A new reader. -/
def new (input : D.State) : ChecksumRead D := { input := input, hasher := [], offset := 0 }

/-- A program on the device. -/
def onInput {α : Type} (x : Run D.State α) : Run (ChecksumRead D) α := fun self =>
  ((x self.input).1, { self with input := (x self.input).2 })

def read (D : BlockDevice) (k : ℕ) : Run (ChecksumRead D) Bytes := do
  let bytes ← onInput (D.read k)
  let self ← Prog.get
  let offset ← addBits 32 self.offset (bytes.length % 2 ^ 32)
  Prog.set { self with hasher := self.hasher ++ bytes, offset := offset }
  return bytes

/-- The delimiter as it is stored, and as it should be. -/
def readDelimiter (checksum : Checksum) :
    Run (ChecksumRead D) (ℕ × (ℕ × UInt64) × (ℕ × UInt64)) := do
  let self ← Prog.get
  let offset ← readExact (read D) 4
  let stored ← onInput (readExact D.read 8)
  let after ← Prog.get
  return (12, (ofLeBytes offset, UInt64.ofNat (ofLeBytes stored)),
    (self.offset, checksum after.hasher))

/-- A program that is not allowed to fail. -/
def unwrapped {σ α : Type} (x : Run σ α) : Run σ α := fun s =>
  match x s with
  | (.error (.err _), s') => (panic .unwrap, s')
  | r => r

/-- The entry is read once more, for the log, before its wrong offset is reported. -/
def dumpEntry (actualOffset : ℕ) : Run (ChecksumRead D) Unit := do
  let position ← unwrapped (onInput D.streamPosition)
  let seek := max 0 (toI64 position - actualOffset)
  let _ ← unwrapped (onInput (D.seek (.start (toU64 seek))))
  let _ ← unwrapped (onInput (readExact D.read actualOffset))
  return ()

/-- Reads the delimiter and checks the entry read before against it. -/
def checkDelimiter (checksum : Checksum) : Run (ChecksumRead D) ℕ := do
  let (length, (offset, stored), (actualOffset, actual)) ← readDelimiter checksum
  if actualOffset ≠ offset then do
    dumpEntry actualOffset
    Prog.err (.incorrectEntryHeadOffset offset actualOffset)
  else if actual ≠ stored then do
    let length ← addBits 32 offset 12
    let position ← onInput D.streamPosition
    let start ← subBits position length
    Prog.err (.checksumVerificationFailed start length stored.toNat actual.toNat)
  else
    return length

end ChecksumRead

/-- Reads the entry at the cursor of a device. -/
def readData (D : BlockDevice) (checksum : Checksum) (position : Position) :
    Run D.State (Entry w) := fun s =>
  let result := (do
    let data ← readEntryFrom (readExact (ChecksumRead.read D)) position
    let _ ← ChecksumRead.checkDelimiter checksum
    return data : Run (ChecksumRead D) (Entry w)) (ChecksumRead.new s)
  (result.1, result.2.input)

/-! ### The bytes of an entry -/

/-- The bytes of a node. -/
def encodeInode (i : INode w) : Bytes :=
  leBytes 1 (i.metaInfo.address.j - 1) ++ (leBytes 8 i.left.position ++ (leBytes 8 i.left.i ++
    (leBytes 1 i.left.j ++ i.metaInfo.hash.value)))

/-- The bytes of an entry. -/
def encodeEntry (e : Entry w) : Bytes :=
  (leBytes 8 e.index ++ (leBytes 1 e.inodes.length ++ e.inodes.flatMap encodeInode)) ++
    (leBytes 4 e.enode.payload.length ++ (e.enode.payload ++ e.enode.metaInfo.hash.value))

/-- The bytes that the checksum is taken of. -/
def checkedBytes (e : Entry w) : Bytes := encodeEntry e ++ leBytes 4 (encodeEntry e).length

/-- **The record of an entry.** -/
def record (checksum : Checksum) (e : Entry w) : Bytes :=
  checkedBytes e ++ leBytes 8 (checksum (checkedBytes e)).toNat

theorem length_encodeInode (i : INode w) : (encodeInode i).length = 18 + w := by
  simp only [encodeInode, List.length_append, length_leBytes, i.metaInfo.hash.length_value]
  omega

theorem length_flatMap_encodeInode : ∀ inodes : List (INode w),
    (inodes.flatMap encodeInode).length = inodes.length * (18 + w)
  | [] => by simp
  | i :: rest => by
    rw [List.flatMap_cons, List.length_append, length_encodeInode, length_flatMap_encodeInode rest,
      List.length_cons, Nat.succ_mul, Nat.add_comm]

theorem length_encodeEntry (e : Entry w) : (encodeEntry e).length =
    9 + e.inodes.length * (18 + w) + (4 + e.enode.payload.length + w) := by
  simp only [encodeEntry, List.length_append, length_leBytes, length_flatMap_encodeInode,
    e.enode.metaInfo.hash.length_value]
  omega

theorem length_record (checksum : Checksum) (e : Entry w) :
    (record checksum e).length = (encodeEntry e).length + 12 := by
  simp only [record, checkedBytes, List.length_append, length_leBytes]

/-- The record of a placed entry is not too long for its length field. -/
theorem length_record_lt (hw : w ≤ 64) (checksum : Checksum) {p : Position} {e : Entry w}
    (h : e.Placed p) : (record checksum e).length < 2 ^ 32 := by
  have h1 := h.payload_le
  have h2 := h.inodes_le
  have h3 : e.inodes.length * (18 + w) ≤ 64 * (18 + 64) :=
    Nat.mul_le_mul h2 (Nat.add_le_add_left hw 18)
  have h4 : MAX_PAYLOAD_SIZE = 2 ^ 31 - 1 := rfl
  rw [length_record, length_encodeEntry]
  omega

/-! ### Writing -/

/-- The program writes the bytes and returns a value. -/
def Emits {α : Type} (x : Run ChecksumWrite α) (bytes : Bytes) (a : α) : Prop :=
  ∀ s : ChecksumWrite, s.offset + bytes.length < 2 ^ 32 →
    x s = (.ok a, ⟨s.output ++ bytes, s.hasher ++ bytes, s.offset + bytes.length⟩)

namespace Emits

variable {α β : Type}

theorem pure (a : α) : Emits (Pure.pure a : Run ChecksumWrite α) [] a := fun s _ => by
  rw [List.append_nil, List.append_nil]
  rfl

/-- **The sequence rule.** -/
theorem bind {x : Run ChecksumWrite α} {f : α → Run ChecksumWrite β} {bs cs : Bytes} {a : α} {b : β}
    (hx : Emits x bs a) (hf : Emits (f a) cs b) : Emits (x >>= f) (bs ++ cs) b := by
  intro s hs
  rw [List.length_append] at hs
  rw [Prog.bind_ok (hx s (by omega)), hf _ (by simp only; omega)]
  simp only [List.append_assoc, List.length_append, Nat.add_assoc]

theorem write (bytes : Bytes) : Emits (ChecksumWrite.write bytes) bytes () := by
  intro s hs
  rw [ChecksumWrite.write, Prog.bind_ok (Prog.get_run s)]
  simp only [Prog.liftM_eq]
  rw [Nat.mod_eq_of_lt (by omega), addBits_of_lt hs, Prog.lift_ok_bind]
  rfl

end Emits

theorem and_mask_of_lt {j : ℕ} (h : j < INDEX_SIZE) : j &&& (INDEX_SIZE - 1) = j := by
  rw [show INDEX_SIZE - 1 = 2 ^ 6 - 1 from rfl, Nat.and_two_pow_sub_one_eq_mod,
    Nat.mod_eq_of_lt (show j < 2 ^ 6 from h)]

/-- Writing the nodes. -/
theorem emits_writeInodesFrom {i : Index} {p : Position} :
    ∀ (inodes : List (INode w)) (below n : ℕ),
    Chained i p below inodes → Emits (writeInodesFrom ChecksumWrite.write inodes n)
      (inodes.flatMap encodeInode) (n + (inodes.flatMap encodeInode).length)
  | [], _, n, _ => Emits.pure n
  | inode :: rest, below, n, h => by
    obtain ⟨-, h1, h2, -, -, -, -, hrest⟩ := h
    have hj : inode.metaInfo.address.j - 1 < INDEX_SIZE := by omega
    have hmask := and_mask_of_lt hj
    have ih := emits_writeInodesFrom rest _ (n + (18 + inode.metaInfo.hash.value.length)) hrest
    have hlen : n + (18 + inode.metaInfo.hash.value.length) + (rest.flatMap encodeInode).length =
        n + ((inode :: rest).flatMap encodeInode).length := by
      rw [List.flatMap_cons, List.length_append, length_encodeInode,
        inode.metaInfo.hash.length_value]
      omega
    rw [hlen] at ih
    rw [writeInodesFrom, Prog.liftM_eq, subBits_of_le h1, Prog.lift_ok_bind, Prog.liftM_eq,
      debugAssert_of hmask, Prog.lift_ok_bind, Prog.liftM_eq,
      debugAssert_of inode.metaInfo.hash.length_value.symm, Prog.lift_ok_bind, hmask,
      List.flatMap_cons, encodeInode, List.append_assoc, List.append_assoc, List.append_assoc,
      List.append_assoc]
    exact (Emits.write _).bind ((Emits.write _).bind ((Emits.write _).bind ((Emits.write _).bind
      ((Emits.write _).bind ih))))

/-- **Writing an entry** writes its bytes and returns how many. -/
theorem emits_writeEntryTo {p : Position} {e : Entry w} (h : e.Placed p) :
    Emits (e.write ChecksumWrite.write) (encodeEntry e) (encodeEntry e).length := by
  have h255 : e.inodes.length ≤ 0xFF := h.inodes_le.trans (by decide)
  have hinodes : Emits (writeInodesTo ChecksumWrite.write e.index e.inodes)
      (leBytes 8 e.index ++ (leBytes 1 e.inodes.length ++ e.inodes.flatMap encodeInode))
      (9 + (e.inodes.flatMap encodeInode).length) := by
    rw [writeInodesTo, Prog.liftM_eq, debugAssert_of h255, Prog.lift_ok_bind]
    exact (Emits.write _).bind ((Emits.write _).bind (emits_writeInodesFrom _ 0 9 h.chained))
  have hlen : (encodeEntry e).length = 9 + (e.inodes.flatMap encodeInode).length +
      (4 + e.enode.payload.length + e.enode.metaInfo.hash.value.length) := by
    rw [length_encodeEntry, length_flatMap_encodeInode, e.enode.metaInfo.hash.length_value]
  have htail : Emits (ChecksumWrite.write e.enode.metaInfo.hash.value >>= fun _ =>
      (Pure.pure (encodeEntry e).length : Run ChecksumWrite ℕ)) e.enode.metaInfo.hash.value
        (encodeEntry e).length := by
    have h1 := (Emits.write e.enode.metaInfo.hash.value).bind
      (f := fun _ => (Pure.pure (encodeEntry e).length : Run ChecksumWrite ℕ))
      (Emits.pure (encodeEntry e).length)
    rwa [List.append_nil] at h1
  rw [Entry.write, Prog.liftM_eq, debugAssert_of h.payload_le, Prog.lift_ok_bind, Prog.liftM_eq,
    debugAssert_of h255, Prog.lift_ok_bind, writeEntryTo, Prog.liftM_eq,
    debugAssert_of h.payload_le, Prog.lift_ok_bind, encodeEntry]
  refine hinodes.bind ((Emits.write _).bind ((Emits.write _).bind ?_))
  rw [← hlen]
  exact htail

/-- Serializing an entry, and the writer that is left. -/
theorem writeData_run (hw : w ≤ 64) (checksum : Checksum) {p : Position} {e : Entry w}
    (h : e.Placed p) : writeData checksum e ChecksumWrite.new =
      (.ok (record checksum e).length,
        ⟨record checksum e, checkedBytes e, (record checksum e).length⟩) := by
  have hlt := length_record_lt hw checksum h
  have hlen := length_record checksum e
  have h1 := emits_writeEntryTo h ChecksumWrite.new (by rw [ChecksumWrite.new]; simp only; omega)
  have h2 := Emits.write (leBytes 4 (encodeEntry e).length)
    ⟨encodeEntry e, encodeEntry e, (encodeEntry e).length⟩
    (by rw [length_leBytes]; simp only; omega)
  simp only [ChecksumWrite.new, List.nil_append, Nat.zero_add] at h1
  rw [writeData, ChecksumWrite.new, Prog.bind_ok h1, ChecksumWrite.writeDelimiter,
    bind_assoc, Prog.bind_ok (Prog.get_run _), bind_assoc, Prog.bind_ok h2, bind_assoc,
    Prog.bind_ok (Prog.get_run _), length_leBytes, Prog.liftM_eq,
    addBits_of_lt (by simp only; omega), bind_assoc, Prog.lift_ok_bind, bind_assoc,
    Prog.bind_ok (Prog.set_run _ _), hlen]
  rfl

/-- **Serializing an entry** gives its record. -/
theorem writeData_eq (hw : w ≤ 64) (checksum : Checksum) {p : Position} {e : Entry w}
    (h : e.Placed p) : ∃ s, writeData checksum e ChecksumWrite.new =
      (.ok (record checksum e).length, s) ∧ s.output = record checksum e :=
  ⟨_, writeData_run hw checksum h, rfl⟩

/-! ### Reading -/

section Reading

variable {D : BlockDevice} (K : Disk D)

/-- The program returns a value from a cursor at which the bytes lie, and moves behind
them. -/
def Consumes {α : Type} (x : Run (ChecksumRead D) α) (bytes : Bytes) (a : α) : Prop :=
  ∀ (ro : Bool) (buffer : Bytes) (p : ℕ) (post hasher : Bytes) (offset : ℕ),
    buffer.drop p = bytes ++ post → offset + bytes.length < 2 ^ 32 →
    x ⟨K.state ro buffer p, hasher, offset⟩ =
      (.ok a, ⟨K.state ro buffer (p + bytes.length), hasher ++ bytes, offset + bytes.length⟩)

namespace Consumes

variable {K} {α β : Type}

theorem pure (a : α) : Consumes K (Pure.pure a : Run (ChecksumRead D) α) [] a := by
  intro ro buffer p post hasher offset _ _
  rw [List.append_nil]
  rfl

/-- **The sequence rule.** -/
theorem bind {x : Run (ChecksumRead D) α} {f : α → Run (ChecksumRead D) β}
    {bs cs : Bytes} {a : α} {b : β} (hx : Consumes K x bs a) (hf : Consumes K (f a) cs b) :
    Consumes K (x >>= f) (bs ++ cs) b := by
  intro ro buffer p post hasher offset hdrop hlt
  rw [List.append_assoc] at hdrop
  rw [List.length_append] at hlt
  rw [Prog.bind_ok (hx ro buffer p _ hasher offset hdrop (by omega)),
    hf ro buffer _ post _ _ (drop_add_length hdrop) (by omega)]
  simp only [List.append_assoc, List.length_append, Nat.add_assoc]

/-- Returning a value at the end. -/
theorem map {x : Run (ChecksumRead D) α} {f : α → β} {bs : Bytes} {a : α}
    (hx : Consumes K x bs a) : Consumes K (x >>= fun a => Pure.pure (f a)) bs (f a) := by
  have h1 := hx.bind (f := fun a => (Pure.pure (f a) : Run (ChecksumRead D) β)) (pure (f a))
  rwa [List.append_nil] at h1

theorem read {bytes : Bytes} {k : ℕ} (hk : bytes.length = k) :
    Consumes K (readExact (ChecksumRead.read D) k) bytes bytes := by
  subst hk
  intro ro buffer p post hasher offset hdrop hlt
  by_cases hne : bytes = []
  · subst hne
    rw [List.append_nil]
    rfl
  · refine readExact_of_read hne ?_
    have hread : ChecksumRead.onInput (D.read bytes.length)
        ⟨K.state ro buffer p, hasher, offset⟩ =
          (.ok bytes, ⟨K.state ro buffer (p + bytes.length), hasher, offset⟩) := by
      rw [ChecksumRead.onInput]
      simp only
      rw [K.read_eq ro hdrop]
    rw [ChecksumRead.read, Prog.bind_ok hread, Prog.bind_ok (Prog.get_run _)]
    simp only [Prog.liftM_eq]
    rw [Nat.mod_eq_of_lt (by omega), addBits_of_lt hlt, Prog.lift_ok_bind]
    rfl

end Consumes

/-- Reading the nodes. -/
theorem consumes_readInodes {i : Index} {p : Position} : ∀ (inodes : List (INode w)) (below : ℕ),
    Chained i p below inodes →
    Consumes K (readInodes (readExact (ChecksumRead.read D)) i p inodes.length below)
      (inodes.flatMap encodeInode) inodes
  | [], below, _ => Consumes.pure []
  | inode :: rest, below, h => by
    obtain ⟨haddr, h1, h2, h3, h4, h5, hright, hrest⟩ := h
    have hj : inode.metaInfo.address.j - 1 < INDEX_SIZE := by omega
    have hj' : (ofLeBytes (leBytes 1 (inode.metaInfo.address.j - 1)) &&& (INDEX_SIZE - 1)) + 1 =
        inode.metaInfo.address.j := by
      rw [ofLeBytes_leBytes (hj.trans_le (by decide)), and_mask_of_lt hj, Nat.sub_add_cancel h1]
    have ih := consumes_readInodes rest _ hrest
    have hinode : (⟨⟨⟨i, inode.metaInfo.address.j, p⟩, Hash.fill inode.metaInfo.hash.value⟩,
        ⟨ofLeBytes (leBytes 8 inode.left.i), ofLeBytes (leBytes 1 inode.left.j),
          ofLeBytes (leBytes 8 inode.left.position)⟩, ⟨i, below, p⟩⟩ : INode w) = inode := by
      rw [Hash.fill_value, ofLeBytes_leBytes (h4.trans_le (by decide)),
        ofLeBytes_leBytes (h5.trans_le (by decide)), ofLeBytes_leBytes (h3.trans_le (by decide)),
        ← haddr, ← hright]
    rw [List.length_cons, readInodes, List.flatMap_cons, encodeInode, List.append_assoc,
      List.append_assoc, List.append_assoc, List.append_assoc]
    refine (Consumes.read (length_leBytes 1 _)).bind ((Consumes.read (length_leBytes 8 _)).bind
      ((Consumes.read (length_leBytes 8 _)).bind ((Consumes.read (length_leBytes 1 _)).bind
        ((Consumes.read inode.metaInfo.hash.length_value).bind ?_))))
    rw [hj', hinode]
    exact ih.map

/-- **Reading an entry** from its bytes. -/
theorem consumes_readEntryFrom {p : Position} {e : Entry w} (h : e.Placed p) :
    Consumes K (readEntryFrom (readExact (ChecksumRead.read D)) p) (encodeEntry e) e := by
  have hi : ofLeBytes (leBytes 8 e.index) = e.index :=
    ofLeBytes_leBytes (h.index_lt.trans_le (by decide))
  have hcount : ofLeBytes (leBytes 1 e.inodes.length) = e.inodes.length :=
    ofLeBytes_leBytes (lt_of_le_of_lt h.inodes_le (by decide))
  have hsize : ofLeBytes (leBytes 4 e.enode.payload.length) &&& MAX_PAYLOAD_SIZE =
      e.enode.payload.length := by
    have h1 : e.enode.payload.length < 2 ^ 31 := lt_of_le_of_lt h.payload_le (by decide)
    rw [ofLeBytes_leBytes (h1.trans_le (by decide)), show MAX_PAYLOAD_SIZE = 2 ^ 31 - 1 from rfl,
      Nat.and_two_pow_sub_one_eq_mod, Nat.mod_eq_of_lt h1]
  have hinodes : Consumes K (readInodesFrom (readExact (ChecksumRead.read D)) p)
      (leBytes 8 e.index ++ (leBytes 1 e.inodes.length ++ e.inodes.flatMap encodeInode))
      (e.index, e.inodes) := by
    refine (Consumes.read (length_leBytes 8 _)).bind ((Consumes.read (length_leBytes 1 _)).bind ?_)
    rw [hi, hcount]
    exact (consumes_readInodes K e.inodes 0 h.chained).map
  have hentry : (⟨⟨⟨⟨e.index, 0, p⟩, Hash.fill e.enode.metaInfo.hash.value⟩, e.enode.payload⟩,
      e.inodes⟩ : Entry w) = e := by
    rw [Hash.fill_value, ← h.address_eq]
  have hhash : Consumes K (readExact (ChecksumRead.read D) w >>= fun hash =>
      (Pure.pure ⟨⟨⟨⟨e.index, 0, p⟩, Hash.fill hash⟩, e.enode.payload⟩, e.inodes⟩ :
        Run (ChecksumRead D) (Entry w))) e.enode.metaInfo.hash.value e := by
    have h1 := (Consumes.read (K := K) e.enode.metaInfo.hash.length_value).map
      (f := fun hash =>
        (⟨⟨⟨⟨e.index, 0, p⟩, Hash.fill hash⟩, e.enode.payload⟩, e.inodes⟩ : Entry w))
    rwa [hentry] at h1
  rw [encodeEntry]
  refine hinodes.bind ((Consumes.read (length_leBytes 4 _)).bind ?_)
  rw [hsize]
  exact (Consumes.read rfl).bind hhash

/-- The delimiter of a record. -/
theorem readDelimiter_eq (hw : w ≤ 64) (checksum : Checksum) {p : Position} {e : Entry w}
    (h : e.Placed p) (ro : Bool) {buffer : Bytes} {q : ℕ} {post : Bytes}
    (hdrop : buffer.drop q = leBytes 4 (encodeEntry e).length ++
      (leBytes 8 (checksum (checkedBytes e)).toNat ++ post)) :
    ChecksumRead.readDelimiter checksum
        ⟨K.state ro buffer q, encodeEntry e, (encodeEntry e).length⟩ =
      (.ok (12, ((encodeEntry e).length, checksum (checkedBytes e)),
          ((encodeEntry e).length, checksum (checkedBytes e))),
        ⟨K.state ro buffer (q + 4 + 8), checkedBytes e, (encodeEntry e).length + 4⟩) := by
  have hlt := length_record_lt hw checksum h
  rw [length_record] at hlt
  have hoffset := Consumes.read (K := K) (length_leBytes 4 (encodeEntry e).length) ro buffer q _
    (encodeEntry e) (encodeEntry e).length hdrop (by rw [length_leBytes]; omega)
  have hdrop' := drop_add_length hdrop
  rw [length_leBytes] at hoffset hdrop'
  have hstored : ChecksumRead.onInput (readExact D.read 8)
      (⟨K.state ro buffer (q + 4), checkedBytes e, (encodeEntry e).length + 4⟩ : ChecksumRead D) =
        (.ok (leBytes 8 (checksum (checkedBytes e)).toNat),
          ⟨K.state ro buffer (q + 4 + 8), checkedBytes e, (encodeEntry e).length + 4⟩) := by
    have h1 := K.readExact_eq ro hdrop'
    rw [length_leBytes] at h1
    rw [ChecksumRead.onInput]
    simp only
    rw [h1]
  have hoff : ofLeBytes (leBytes 4 (encodeEntry e).length) = (encodeEntry e).length :=
    ofLeBytes_leBytes (by omega)
  have hsum : UInt64.ofNat (ofLeBytes (leBytes 8 (checksum (checkedBytes e)).toNat)) =
      checksum (checkedBytes e) := by
    rw [ofLeBytes_leBytes ((checksum (checkedBytes e)).toNat_lt), UInt64.ofNat_toNat]
  rw [ChecksumRead.readDelimiter, Prog.bind_ok (Prog.get_run _), Prog.bind_ok hoffset,
    ← checkedBytes, Prog.bind_ok hstored, Prog.bind_ok (Prog.get_run _), hoff, hsum]
  rfl

/-- **Reading a record** gives the entry, and leaves the cursor behind the record. -/
theorem readData_eq (hw : w ≤ 64) (checksum : Checksum) {p : Position} {e : Entry w}
    (h : e.Placed p) (ro : Bool) {buffer : Bytes} {q : ℕ} {post : Bytes}
    (hdrop : buffer.drop q = record checksum e ++ post) :
    readData D checksum p (K.state ro buffer q) =
      (.ok e, K.state ro buffer (q + (record checksum e).length)) := by
  have hlt := length_record_lt hw checksum h
  rw [length_record] at hlt
  have hlen := length_record checksum e
  rw [record, checkedBytes, List.append_assoc, List.append_assoc] at hdrop
  have hentry := consumes_readEntryFrom K h ro buffer q _ [] 0 hdrop (by omega)
  rw [List.nil_append, Nat.zero_add] at hentry
  have hdelimiter := readDelimiter_eq K hw checksum h ro (drop_add_length hdrop)
  rw [readData]
  simp only [ChecksumRead.new]
  rw [Prog.bind_ok hentry, ChecksumRead.checkDelimiter, bind_assoc, Prog.bind_ok hdelimiter]
  simp only [ne_eq, not_true_eq_false, if_false]
  rw [hlen]
  rfl

end Reading

end StratifiedHashTree
