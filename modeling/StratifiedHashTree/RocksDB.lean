import Mathlib.Data.Finmap
import StratifiedHashTree.Decoding

/-!
# The storage on a key-value database

`RocksDBStorage` of `storage/rocksdb.rs`, over a database that is a map from byte sequences to
byte sequences. Data are serialized, and stored under the numbers `1, 2, …`, scrambled or not,
behind a prefix. The next number is stored as well, under the number `0` that no datum has; an
empty storage has no such record.

The operations are written for any way to use the database
(`StratifiedHashTree.DBCalls`); with calls that never fail and a lock that is always free they are
those of the storage itself.

Scrambled or not, two numbers never have the same key
(`StratifiedHashTree.RocksDBStorage.createKey_inj`): every step of the scrambling can be undone.
And entries can be read from what is written for them
(`StratifiedHashTree.Entry.roundTrips`).
-/

namespace StratifiedHashTree

open Outcome

variable {α κ : Type} {w : ℕ}

/-- The trait `Serializable`: how to write a value with any writer, and read it, for a position,
with any reader. -/
structure Serializable (α : Type) where
  write : {σ : Type} → (Bytes → Run σ Unit) → α → Run σ ℕ
  read : {σ : Type} → (ℕ → Run σ Bytes) → Position → Run σ α

/-- `Serializable for Entry`. -/
def Entry.serializable : Serializable (Entry w) where
  write := Entry.write
  read := readEntryFrom

/-- The map of a database. -/
abbrev DB := Finmap fun _ : Bytes => Bytes

/-- `RocksDBStorage`. -/
structure RocksDBStorage where
  db : DB
  keyPrefix : Bytes
  keyHashing : Bool
  keyForMetadata : Bytes

namespace RocksDBStorage

/-! ### Keys -/

/-- Scrambles 64 bits. -/
def bijectiveScramble (x : BitVec 64) : BitVec 64 :=
  let x := (x ^^^ (x >>> 30)) * 0xbf58476d1ce4e5b9#64
  let x := (x ^^^ (x >>> 27)) * 0x94d049bb133111eb#64
  x ^^^ (x >>> 31)

/-- Bytes, the highest first. -/
def beBytes (k n : ℕ) : Bytes := (leBytes k n).reverse

def createKey (position : Position) (hashing : Bool) (keyPrefix : Bytes) : Bytes :=
  let key := if hashing then (bijectiveScramble (BitVec.ofNat 64 position)).toNat else position
  keyPrefix ++ beBytes 8 key

/-- A storage on a database. -/
def new (db : DB) (keyPrefix : Bytes) (keyHashing : Bool) : RocksDBStorage where
  db := db
  keyPrefix := keyPrefix
  keyHashing := keyHashing
  keyForMetadata := createKey 0 keyHashing keyPrefix

/-- The key of a datum. -/
def key (self : RocksDBStorage) (i : Index) : Bytes := createKey i self.keyHashing self.keyPrefix

/-! ### Calls of the database -/

/-- `DB::get`. -/
def get (key : Bytes) : Run RocksDBStorage (Option Bytes) := do
  let self ← Prog.get
  return self.db.lookup key

/-- `DB::put`. -/
def dbPut (key value : Bytes) : Run RocksDBStorage Unit :=
  Prog.modify fun self => { self with db := self.db.insert key value }

/-- `DB::delete`. -/
def delete (key : Bytes) : Run RocksDBStorage Unit :=
  Prog.modify fun self => { self with db := self.db.erase key }

/-- The error of a key that is not there. -/
def keyNotFound (key : Bytes) (position : Position) : Error :=
  .io .notFound
    s!"There is no entry stored for key {key.map UInt8.toNat} corresponding to position {position}"

/-- A datum in the bytes of a value. -/
def fromValue (S : Serializable α) (value : Bytes) (position : Position) : Result α :=
  (S.read takeExact position value).1

/-- A writer that extends a vector. -/
def extend (bytes : Bytes) : Run Bytes Unit := Prog.modify fun value => value ++ bytes

end RocksDBStorage

/-! ### The storage -/

/-- **A way to use a database**: the fields of the storage, the calls of the database, and the lock
around it. To take the lock for reading is a step of its own; what is done under the lock for
writing is handed over, since the lock knows whether it panics. -/
structure DBCalls (σ : Type) where
  self : Run σ RocksDBStorage
  get : Bytes → Run σ (Option Bytes)
  dbPut : Bytes → Bytes → Run σ Unit
  delete : Bytes → Run σ Unit
  lockRead : Run σ Unit
  underWrite : {β : Type} → Run σ β → Run σ β

namespace DBCalls

open RocksDBStorage

variable {σ : Type} (C : DBCalls σ)

def getMetadata : Run σ (Option Position) := do
  let self ← C.self
  match ← C.get self.keyForMetadata with
  | some value =>
    -- the slice of the first eight bytes panics when there are fewer
    if value.length < 8 then
      Prog.lift (panic .outOfBounds)
    else do
      let position := ofLeBytes (value.take 8)
      (debugAssert (position ≠ 0) : Result Unit)
      return some position
  | none => return none

def setMetadata (nextPosition : Position) : Run σ Unit := do
  (debugAssert (nextPosition ≠ 0) : Result Unit)
  let self ← C.self
  if nextPosition = 1 then
    C.delete self.keyForMetadata
  else do
    -- the number is written over the first eight bytes of what was there
    let value ← C.get self.keyForMetadata
    let metadata := value.getD (List.replicate 8 0)
    C.dbPut self.keyForMetadata (leBytes 8 nextPosition ++ metadata.drop 8)

/-- Deletes data as long as there are any; every step deletes one, so one step more than there
are keys is enough. -/
def truncateFrom : ℕ → Position → Run σ Unit
  | 0, _ => fun s => (.error .outOfFuel, s)
  | fuel + 1, p => do
    let self ← C.self
    match ← C.get (self.key p) with
    | some _ => do
      C.delete (self.key p)
      let p' ← addBits 64 p 1
      truncateFrom fuel p'
    | none => return ()

/-- What a `put` does under the lock. -/
def store (key value : Bytes) (position : Position) : Run σ Unit := do
  C.dbPut key value
  let next ← addBits 64 position 1
  C.setMetadata next

/-- What a `truncate` does under the lock. -/
def cut (position : Position) : Run σ Bool := do
  match ← C.getMetadata with
  | some nextPosition => do
    (debugAssert (nextPosition ≠ 0) : Result Unit)
    if position < nextPosition then do
      let self ← C.self
      C.truncateFrom (self.db.keys.card + 1) position
      C.setMetadata position
      return true
    else
      return false
  | none => return false

def truncate (position : Position) : Run σ Bool := do
  (debugAssert (position ≠ 0) : Result Unit)
  C.underWrite (C.cut position)

section Operations

variable (S : Serializable α)

def first : Run σ (Option α × Position) := do
  let self ← C.self
  C.lockRead
  match ← C.get (self.key 1) with
  | some value => do
    let data ← fromValue S value 1
    return (some data, 1)
  | none => return (none, 1)

def last : Run σ (Option α × Position) := do
  C.lockRead
  match ← C.getMetadata with
  | some nextPosition => do
    let position ← subBits nextPosition 1
    let self ← C.self
    match ← C.get (self.key position) with
    | some value => do
      let position ← subBits nextPosition 1
      let data ← fromValue S value position
      return (some data, nextPosition)
    | none => Prog.err (keyNotFound (self.key position) nextPosition)
  | none => return (none, 1)

def put (position : Position) (entry : α) : Run σ Position := do
  (debugAssert (position ≠ 0) : Result Unit)
  let self ← C.self
  let key := self.key position
  -- the entry is written to a vector before the lock is taken
  match S.write extend entry [] with
  | (.ok _, value) => do
    C.underWrite (C.store key value position)
    addBits 64 position 1
  | (.error e, _) => Prog.lift (.error e)

def read (position : Position) : Run σ α := do
  let self ← C.self
  C.lockRead
  match ← C.get (createKey position self.keyHashing self.keyPrefix) with
  | some value => fromValue S value position
  | none => Prog.err (keyNotFound (createKey position self.keyHashing self.keyPrefix) position)

/-- The loop of a scan. -/
def scanFrom (callback : ScanFn α κ) : ℕ → Position → Run (κ × σ) ℕ
  | 0, _ => return 0
  | count + 1, position => do
    let self ← Prog.onSnd C.self
    match ← Prog.onSnd (C.get (createKey position self.keyHashing self.keyPrefix)) with
    | some value => do
      let data ← fromValue S value position
      let s ← Prog.get
      match callback data s.1 with
      | (.ok (), a) => do
        Prog.set (a, s.2)
        let next ← addBits 64 position 1
        let read ← scanFrom callback count next
        return read + 1
      | (.error e, a) => do
        Prog.set (a, s.2)
        Prog.err (.callback e)
    | none => return 0

def scan (position : Position) (count : ℕ) (callback : ScanFn α κ) : Run (κ × σ) ℕ := do
  Prog.onSnd C.lockRead
  C.scanFrom S callback count position

/-- The storage on a database, however it is used. -/
def storage : Storage α where
  State := σ
  first := C.first S
  last := C.last S
  put := C.put S
  truncate := C.truncate
  reader := return ()
  read := C.read S
  scan position count := fun callback => C.scan S position count callback

end Operations

/-- The calls that never fail, with a lock that is free. -/
def plain : DBCalls RocksDBStorage where
  self := Prog.get
  get := RocksDBStorage.get
  dbPut := RocksDBStorage.dbPut
  delete := RocksDBStorage.delete
  lockRead := return ()
  underWrite x := x

theorem plain_self (s : RocksDBStorage) : plain.self s = (.ok s, s) := rfl

theorem plain_lockRead (s : RocksDBStorage) : plain.lockRead s = (.ok (), s) := rfl

end DBCalls

namespace RocksDBStorage

def getMetadata : Run RocksDBStorage (Option Position) := DBCalls.plain.getMetadata

def setMetadata (nextPosition : Position) : Run RocksDBStorage Unit :=
  DBCalls.plain.setMetadata nextPosition

def truncateFrom (fuel : ℕ) (p : Position) : Run RocksDBStorage Unit :=
  DBCalls.plain.truncateFrom fuel p

def truncate (position : Position) : Run RocksDBStorage Bool := DBCalls.plain.truncate position

section Operations

variable (S : Serializable α)

def first : Run RocksDBStorage (Option α × Position) := DBCalls.plain.first S

def last : Run RocksDBStorage (Option α × Position) := DBCalls.plain.last S

def put (position : Position) (entry : α) : Run RocksDBStorage Position :=
  DBCalls.plain.put S position entry

def read (position : Position) : Run RocksDBStorage α := DBCalls.plain.read S position

def scanFrom (callback : ScanFn α κ) (count : ℕ) (position : Position) :
    Run (κ × RocksDBStorage) ℕ := DBCalls.plain.scanFrom S callback count position

end Operations

end RocksDBStorage

/-- The storage on a database. -/
def rocksDB (S : Serializable α) : Storage α := DBCalls.plain.storage S

namespace RocksDBStorage

/-! ### No two numbers have the same key -/

/-- A word can be told from its combination with its higher bits: the highest ones are left
alone, and each one below is found from those above it. -/
theorem xorShift_injective {n k : ℕ} (hk : 0 < k) :
    Function.Injective fun x : BitVec n => x ^^^ (x >>> k) := by
  intro x y h
  have key : ∀ d i : ℕ, n ≤ i + d → x.getLsbD i = y.getLsbD i := by
    intro d
    induction d with
    | zero =>
      intro i hi
      rw [BitVec.getLsbD_of_ge x i hi, BitVec.getLsbD_of_ge y i hi]
    | succ d ih =>
      intro i hi
      have h1 := congrArg (fun z : BitVec n => z.getLsbD i) h
      simp only [BitVec.getLsbD_xor, BitVec.getLsbD_ushiftRight] at h1
      rw [ih (k + i) (by omega)] at h1
      exact Bool.xor_left_inj.mp h1
  exact BitVec.eq_of_getLsbD_eq fun i _ => key n i (Nat.le_add_left n i)

theorem mul_injective {n : ℕ} {c c' : BitVec n} (h : c * c' = 1#n) :
    Function.Injective fun x : BitVec n => x * c := by
  intro x y hxy
  have h1 : x * c * c' = y * c * c' := congrArg (fun z => z * c') hxy
  rwa [BitVec.mul_assoc, BitVec.mul_assoc, h, BitVec.mul_one, BitVec.mul_one] at h1

/-- **Scrambling loses nothing.** -/
theorem bijectiveScramble_injective : Function.Injective bijectiveScramble := by
  have h1 : 0xbf58476d1ce4e5b9#64 * 0x96de1b173f119089#64 = 1#64 := by decide
  have h2 : 0x94d049bb133111eb#64 * 0x319642b2d24d8ec3#64 = 1#64 := by decide
  intro x y h
  simp only [bijectiveScramble] at h
  have h3 := xorShift_injective (show 0 < 31 by decide) h
  have h4 := xorShift_injective (show 0 < 27 by decide) (mul_injective h2 h3)
  exact xorShift_injective (show 0 < 30 by decide) (mul_injective h1 h4)

theorem leBytes_inj {k m n : ℕ} (hm : m < 256 ^ k) (hn : n < 256 ^ k)
    (h : leBytes k m = leBytes k n) : m = n := by
  have h1 := congrArg ofLeBytes h
  rwa [ofLeBytes_leBytes hm, ofLeBytes_leBytes hn] at h1

theorem beBytes_inj {k m n : ℕ} (hm : m < 256 ^ k) (hn : n < 256 ^ k)
    (h : beBytes k m = beBytes k n) : m = n := leBytes_inj hm hn (List.reverse_injective h)

/-- The number that is stored in a key. -/
def scrambled (hashing : Bool) (position : Position) : ℕ :=
  if hashing then (bijectiveScramble (BitVec.ofNat 64 position)).toNat else position

theorem createKey_eq (position : Position) (hashing : Bool) (keyPrefix : Bytes) :
    createKey position hashing keyPrefix = keyPrefix ++ beBytes 8 (scrambled hashing position) :=
  rfl

theorem scrambled_lt {hashing : Bool} {p : ℕ} (hp : p < 2 ^ 64) : scrambled hashing p < 2 ^ 64 := by
  rw [scrambled]
  split
  · exact BitVec.isLt _
  · exact hp

theorem scrambled_inj {hashing : Bool} {p q : ℕ} (hp : p < 2 ^ 64) (hq : q < 2 ^ 64)
    (h : scrambled hashing p = scrambled hashing q) : p = q := by
  cases hashing with
  | false => exact h
  | true =>
    rw [scrambled, scrambled, if_pos rfl, if_pos rfl] at h
    have h2 := congrArg BitVec.toNat (bijectiveScramble_injective (BitVec.eq_of_toNat_eq h))
    rwa [BitVec.toNat_ofNat, BitVec.toNat_ofNat, Nat.mod_eq_of_lt hp, Nat.mod_eq_of_lt hq] at h2

/-- A key is cut into its prefix and its number: the number takes the last eight bytes. -/
theorem createKey_parts {hashing : Bool} {keyPrefix keyPrefix' : Bytes} {p q : ℕ} (hp : p < 2 ^ 64)
    (hq : q < 2 ^ 64) (h : createKey p hashing keyPrefix = createKey q hashing keyPrefix') :
    keyPrefix = keyPrefix' ∧ p = q := by
  have hbytes : 2 ^ 64 = 256 ^ 8 := by norm_num
  have hlen : ∀ n, (beBytes 8 n).length = 8 := fun n => by
    rw [beBytes, List.length_reverse, length_leBytes]
  rw [createKey_eq, createKey_eq] at h
  obtain ⟨h1, h2⟩ := List.append_inj' h ((hlen _).trans (hlen _).symm)
  have hp' := @scrambled_lt hashing p hp
  have hq' := @scrambled_lt hashing q hq
  rw [hbytes] at hp' hq'
  exact ⟨h1, scrambled_inj hp hq (beBytes_inj hp' hq' h2)⟩

/-- **No two numbers have the same key.** -/
theorem createKey_inj {hashing : Bool} {keyPrefix : Bytes} {p q : ℕ} (hp : p < 2 ^ 64)
    (hq : q < 2 ^ 64) (h : createKey p hashing keyPrefix = createKey q hashing keyPrefix) :
    p = q := (createKey_parts hp hq h).2

/-- **Keys lose nothing.** Scrambling is injective, and so a key tells its prefix and its position,
with and without it. No datum is ever stored under the key of the metadata. -/
theorem createKey_loses_nothing : Function.Injective bijectiveScramble ∧
    (∀ (hashing : Bool) (keyPrefix keyPrefix' : Bytes) (p q : ℕ), p < 2 ^ 64 → q < 2 ^ 64 →
      (createKey p hashing keyPrefix = createKey q hashing keyPrefix' ↔
        keyPrefix = keyPrefix' ∧ p = q)) ∧
    ∀ (db db' : DB) (hashing : Bool) (keyPrefix keyPrefix' : Bytes) (p : ℕ), 1 ≤ p → p < 2 ^ 64 →
      (new db keyPrefix hashing).key p ≠ (new db' keyPrefix' hashing).keyForMetadata := by
  refine ⟨bijectiveScramble_injective, fun hashing keyPrefix keyPrefix' p q hp hq => ?_, ?_⟩
  · constructor
    · exact createKey_parts hp hq
    · rintro ⟨rfl, rfl⟩
      rfl
  · intro db db' hashing keyPrefix keyPrefix' p h1 hp h
    obtain ⟨-, h2⟩ := createKey_parts hp (by decide) h
    exact absurd h2 (Nat.ne_zero_of_lt h1)

/-- The first datum of a storage whose keys are scrambled, behind a prefix. -/
theorem createKey_loses_nothing_one :
    (new ∅ [7] true).key 1 ≠ (new ∅ [7] true).keyForMetadata :=
  createKey_loses_nothing.2.2 ∅ ∅ true [7] [7] 1 (by decide) (by decide)

end RocksDBStorage

/-- The bytes that are written for a datum. -/
def Serializable.bytes (S : Serializable α) (x : α) : Bytes :=
  (S.write RocksDBStorage.extend x []).2

/-- **What is written can be read** for the position at which it is placed. -/
structure Serializable.RoundTrips (S : Serializable α) (Placed : Position → α → Prop) : Prop where
  write_ok : ∀ {p : Position} {x : α}, Placed p x →
    ∃ n, (S.write RocksDBStorage.extend x []).1 = .ok n
  read_ok : ∀ {p : Position} {x : α}, Placed p x →
    RocksDBStorage.fromValue S (S.bytes x) p = .ok x

/-! ### Entries -/

section Entries

open Prog

variable {σ τ : Type} {R : σ → τ → Prop} {P Q : Failure Error → Prop}
  {write : Bytes → Run σ Unit} {write' : Bytes → Run τ Unit}

/-- Writing the nodes of an entry agrees when writing does. -/
theorem agree_writeInodesFrom (h : ∀ bytes, Agree R P Q (write bytes) (write' bytes)) :
    ∀ (inodes : List (INode w)) (length : ℕ),
      Agree R P Q (writeInodesFrom write inodes length) (writeInodesFrom write' inodes length)
  | [], length => .pure length
  | i :: rest, length => by
    rw [writeInodesFrom, writeInodesFrom]
    exact (Agree.lift _).bind fun j => (Agree.lift _).bind fun _ => (Agree.lift _).bind fun _ =>
      (h _).bind fun _ => (h _).bind fun _ => (h _).bind fun _ => (h _).bind fun _ =>
        (h _).bind fun _ => agree_writeInodesFrom h rest _

/-- So does writing an entry. -/
theorem agree_write (h : ∀ bytes, Agree R P Q (write bytes) (write' bytes)) (e : Entry w) :
    Agree R P Q (e.write write) (e.write write') := by
  rw [Entry.write, Entry.write, writeEntryTo, writeEntryTo, writeInodesTo, writeInodesTo]
  exact (Agree.lift _).bind fun _ => (Agree.lift _).bind fun _ => (Agree.lift _).bind fun _ =>
    ((Agree.lift _).bind fun _ => (h _).bind fun _ => (h _).bind fun _ =>
      agree_writeInodesFrom h _ _).bind fun length => (h _).bind fun _ => (h _).bind fun _ =>
        (h _).bind fun _ => .pure _

/-- The writers of a record and of a vector. -/
theorem agree_extend (bytes : Bytes) : Agree (fun s t => s.output = t) (fun _ => True) Never
    (ChecksumWrite.write bytes) (RocksDBStorage.extend bytes) := by
  rintro s t rfl
  rcases hadd : (addBits 32 s.offset (bytes.length % 2 ^ 32) : Result ℕ) with e | offset
  · refine Or.inl ⟨e, trivial, ?_⟩
    rw [ChecksumWrite.write, Prog.bind_ok (Prog.get_run s), Prog.liftM_eq, hadd]
    rfl
  · refine Or.inr (Or.inr ?_)
    rw [ChecksumWrite.write, Prog.bind_ok (Prog.get_run s), Prog.liftM_eq, hadd]
    exact ⟨rfl, rfl⟩

/-- **An entry can be read from what is written for it.** -/
theorem Entry.roundTrips (hw : w ≤ 64) : (Entry.serializable (w := w)).RoundTrips Entry.Placed := by
  have hwrite : ∀ {p : Position} {e : Entry w}, e.Placed p →
      e.write RocksDBStorage.extend [] = (.ok (encodeEntry e).length, encodeEntry e) := by
    intro p e h
    have hlen := length_record_lt hw (fun _ => 0) h
    rw [length_record] at hlen
    have hemits := emits_writeEntryTo h ChecksumWrite.new
      (show 0 + (encodeEntry e).length < 2 ^ 32 by omega)
    rcases agree_write agree_extend e (show ChecksumWrite.new.output = [] from rfl) with
      ⟨f, -, h1⟩ | ⟨f, h1, -⟩ | ⟨h1, h2⟩
    · rw [hemits] at h1
      cases h1
    · exact h1.elim
    · rw [hemits] at h1 h2
      exact Prod.ext h1.symm h2.symm
  refine ⟨fun h => ⟨_, congrArg Prod.fst (hwrite h)⟩, fun {p e} h => ?_⟩
  have hmax := maxEntryLength_lt hw
  have hlen := length_record_lt hw (fun _ => 0) h
  rw [length_record] at hlen
  have hbytes : Entry.serializable.bytes e = encodeEntry e := congrArg Prod.snd (hwrite h)
  have htracks : Tracks MemoryDevice.disk true (encodeEntry e) 0
    (ChecksumRead.new (MemoryDevice.disk.state true (encodeEntry e) 0)) (encodeEntry e) :=
    ⟨rfl, rfl, rfl⟩
  obtain ⟨h1, -⟩ := follows_readEntryFrom (w := w) MemoryDevice.readsAll p htracks
    (show 0 + maxEntryLength w < 2 ^ 32 by omega)
  have h2 := consumes_readEntryFrom MemoryDevice.disk h true (encodeEntry e) 0 [] [] 0
    (List.append_nil _).symm (by omega)
  have h3 : (decodeEntry p (encodeEntry e)).1 = .ok e := by
    rw [← h1]
    exact congrArg Prod.fst h2
  rw [hbytes]
  exact h3

end Entries

end StratifiedHashTree
