import StratifiedHashTree.Query

/-!
# The slate

The write side of `lib.rs`: a storage, the position at which its next entry goes, and the
cache of the current generation. `Slate.append` builds the nodes of a new generation on
the remembered perfect subtrees, writes them as one entry and moves the cache on;
`Slate.truncate` cuts the storage and rebuilds everything from what is left;
`Slate.snapshotAt` rebuilds the cache of an old generation from one entry.

A failing operation leaves behind whatever it had done until then, as it does in the
source: the fields are replaced one by one.
-/

namespace StratifiedHashTree

open Outcome Formula

variable {w : ℕ}

/-- A hash tree that is serialized in a storage. -/
structure Slate (S : Storage (Entry w)) where
  position : Position
  storage : S.State
  cache : Cache w

/-- A view on one generation. -/
structure Snapshot (S : Storage (Entry w)) where
  cache : Cache w

namespace Snapshot

variable {S : Storage (Entry w)}

/-- The root node of the generation. -/
def root (self : Snapshot S) : Result (MetaInfo w) := do
  let entry ← unwrap (self.cache.entry self.cache.revision)
  return entry.root

/-- The generation. -/
def revision (self : Snapshot S) : Index := self.cache.revision

/-- Opens a query on the generation. -/
def query (self : Snapshot S) : Run S.State (Query S) := do
  S.reader
  return { cache := self.cache }

end Snapshot

namespace Slate

variable {S : Storage (Entry w)}

/-- A program on the storage of a slate. -/
def onStorage {α : Type} (x : Run S.State α) : Run (Slate S) α := fun s =>
  ((x s.storage).1, { s with storage := (x s.storage).2 })

/-- The cache and the next position, from the last entry of a storage. -/
def loadMetadata (S : Storage (Entry w)) (level : ℕ) : Run S.State (Cache w × Position) := do
  let (latest, position) ← S.last
  match latest with
  | some entry => do
    let cache ← Cache.load S level entry
    return (cache, position)
  | none => return (Cache.empty level, position)

/-- Opens a slate on a storage. -/
def withCacheLevel (storage : S.State) (level : ℕ) : Result (Slate S) :=
  match loadMetadata S level storage with
  | (.ok (cache, position), storage') =>
    .ok { position := position, storage := storage', cache := cache }
  | (.error e, _) => .error e

/-- The root node of the current generation. -/
def root (self : Slate S) : Option (MetaInfo w) := self.cache.root

/-- The current generation. -/
def n (self : Slate S) : Index := self.cache.revision

/-- A snapshot of the current generation. -/
def snapshot (self : Slate S) : Snapshot S := { cache := self.cache }

/-! ### Appending -/

/-- The index of the next entry. -/
def nextIndex (cache : Cache w) : Result Index :=
  match cache.root with
  | some node => addBits 64 node.address.i 1
  | none => .ok 1

/-- The intermediate nodes of a new entry, from the leaf upwards: each combines a
remembered perfect subtree with the node built before it. -/
def buildInodes (H : HashFn w) (cache : Cache w) (i : Index) (position : Position) :
    Hash w → List Formula.INode → Result (List (INode w))
  | _, [] => .ok []
  | rightHash, n :: ns => do
    debugAssert (i = n.node.i)
    debugAssert (n.node.i = n.right.i)
    debugAssert (n.right.j < n.node.j)
    debugAssert (n.right.j ≤ n.left.j)
    let left ← cache.getPbstRoot n.left.i n.left.j
    let hash := left.hash.combine H n.node.j rightHash
    let inode : INode w :=
      { metaInfo := { address := ⟨n.node.i, n.node.j, position⟩, hash := hash }
        left := left.address
        right := ⟨n.right.i, n.right.j, position⟩ }
    let inodes ← buildInodes H cache i position hash ns
    return inode :: inodes

/-- The entry of an append, with the model of the generation it creates. -/
def buildEntry (H : HashFn w) (self : Slate S) (value : Bytes) : Result (Entry w × Model) := do
  let i ← nextIndex self.cache
  let enode : ENode w :=
    { metaInfo := { address := ⟨i, 0, self.position⟩, hash := Hash.fromBytes H 0 value }
      payload := value }
  let model ← Model.new i
  let nodes ← model.inodes
  let inodes ← buildInodes H self.cache i self.position enode.metaInfo.hash nodes
  let entry ← Entry.new enode inodes
  return (entry, model)

/-- The height and the hash of the root that an append returns. -/
def rootOfNodes (enode : ENode w) (inodes : List (INode w)) : ℕ × Hash w :=
  match inodes.getLast? with
  | some inode => (inode.metaInfo.address.j, inode.metaInfo.hash)
  | none => (0, enode.metaInfo.hash)

/-- Appends a value; returns the root node of the new generation. -/
def append (H : HashFn w) (value : Bytes) : Run (Slate S) (MetaInfo w) := do
  if MAX_PAYLOAD_SIZE < value.length then
    Prog.err (.tooLargePayload value.length)
  else do
    let self ← Prog.get
    let (entry, model) ← buildEntry H self value
    let root := rootOfNodes entry.enode entry.inodes
    let position ← onStorage (S.put self.position entry)
    Prog.modify fun s => { s with position := position }
    -- the storage and the position have moved on, whatever becomes of the cache
    let cache ← self.cache.migrate entry model
    Prog.modify fun s => { s with cache := cache }
    return { address := ⟨entry.index, root.1, self.position⟩, hash := root.2 }

/-! ### Looking up and truncating -/

/-- The search of `StratifiedHashTree.Slate.loadEntry`, from an entry. -/
def loadEntryFrom (S : Storage (Entry w)) (cache : Cache w) (i : Index) :
    ℕ → Entry w → Run S.State (Entry w)
  | 0, _ => fun s => (.error .outOfFuel, s)
  | fuel + 1, entry =>
    if entry.index = i then
      return entry
    else do
      match ← findLeft i entry.inodes with
      | some inode => do
        let next ← fetchLeft S cache inode.left
        loadEntryFrom S cache i fuel next
      | none =>
        Prog.err (.internalStateInconsistency
          s!"The entry doesn't have a path to {i}: {entry.debug}")

/-- The entry of an index of the current generation. -/
def loadEntry (fuel : ℕ) (i : Index) : Run (Slate S) (Entry w) := do
  let self ← Prog.get
  if i = 0 ∨ self.n < i then
    Prog.err (.invalidArgument s!"Entry {i} is not contained in the current revision {self.n}")
  else
    match self.cache.entry i with
    | some entry => return entry
    | none => do
      let entry ← (unwrap (self.cache.entry self.n) : Result (Entry w))
      onStorage S.reader
      onStorage (loadEntryFrom S self.cache i fuel entry)

/-- A snapshot of an old generation. -/
def snapshotAt (fuel : ℕ) (revision : Index) : Run (Slate S) (Snapshot S) := do
  let entry ← loadEntry fuel revision
  let self ← Prog.get
  let cache ← onStorage (Cache.load S self.cache.level entry)
  return { cache := cache }

/-- Deletes the entries from an index on; whether there were any. -/
def truncate (fuel : ℕ) (i : Index) : Run (Slate S) Bool := do
  let self ← Prog.get
  let query ← onStorage self.snapshot.query
  match ← onStorage (query.readEntry fuel i) with
  | some entry => do
    let _ ← onStorage (S.truncate entry.enode.metaInfo.address.position)
    -- everything is rebuilt from what is left
    let (cache, position) ← onStorage (loadMetadata S self.cache.level)
    (debugAssert (entry.enode.metaInfo.address.position = position) : Result Unit)
    Prog.modify fun s => { s with position := position, cache := cache }
    return true
  | none => return false

end Slate

end StratifiedHashTree
