import StratifiedHashTree.Cache

/-!
# Queries

The read side of `lib.rs`. A query holds the cache of one generation and a cursor into
the storage; it never looks at anything else of the slate, so a query of an old
generation goes on reading the old tree while the slate grows.

There are two ways through the stored tree. `Query.walkDown` visits *nodes*: it moves to
the right inside the node list of an entry, and to the left by loading the entry the node
links to. `Query.readEntry` jumps from *entry* to entry, through the one link whose
subtree contains the index it is looking for. Both follow links that come from the
storage, hence the step bound.
-/

namespace StratifiedHashTree

open Outcome Formula

variable {w : ℕ}

/-- The entry that a left branch leads to, from the cache or from the storage. -/
def fetchLeft (S : Storage (Entry w)) (cache : Cache w) (left : Address) :
    Run S.State (Entry w) :=
  match cache.entry left.i with
  | some entry => pure entry
  | none => readEntryWithIndexCheck S left.position left.i

/-- The first of the intermediate nodes whose left branch contains the index `i`. -/
def findLeft (i : Index) : List (INode w) → Result (Option (INode w))
  | [] => .ok none
  | inode :: rest => do
    if ← contains inode.left.i inode.left.j i then
      return some inode
    else
      findLeft i rest

/-- Where a walk goes from a node. -/
inductive WalkDirection where
  | left
  | right
  | both
  | terminate
  deriving DecidableEq, Repr

/-- The callback of a walk: it sees the revision, the node, its hash and, at a leaf, the
value. -/
abbrev WalkFn (w : ℕ) (κ : Type) :=
  Index → Index → ℕ → Hash w → Option Bytes → Run κ WalkDirection

/-- A query of the generation of a cache. -/
structure Query (S : Storage (Entry w)) where
  cache : Cache w

/-- The stratum sample: the authentication path of a leaf in a revision. -/
structure StratumSample (w : ℕ) where
  revision : Index
  leaf : Value
  witnesses : Finmap fun _ : Index × ℕ => Hash w

namespace Query

variable {S : Storage (Entry w)}

/-- The revision of the query. -/
def revision (self : Query S) : Index := self.cache.revision

/-- Following the left branch of a node: the entry it leads to, and the index of the node
in it. -/
def descend (self : Query S) (i : Index) (current : INode w) : Run S.State (Entry w × ℕ) := do
  let left ← fetchLeft S self.cache current.left
  (debugAssert (current.left.i = left.index) : Result Unit)
  (debugAssert (left.index < i) : Result Unit)
  -- the leaf is in front of the intermediate nodes
  if current.left.j = 0 then
    return (left, 0)
  else
    match left.inodes.findIdx? fun inode => inode.metaInfo.address.j = current.left.j with
    | some k => return (left, k + 1)
    | none => Prog.lift (panic .explicit)

/-- The walk from the node number `nodeIndex` of an entry. -/
def walkDownFrom {κ : Type} (self : Query S) (callback : WalkFn w κ) :
    ℕ → ℕ → Entry w → Run (κ × S.State) Unit
  | 0, _, _ => fun s => (.error .outOfFuel, s)
  | _ + 1, 0, entry => do
    let info := entry.enode.metaInfo
    let _ ← Prog.onFst
      (callback self.revision entry.index info.address.j info.hash (some entry.enode.payload))
    return ()
  | fuel + 1, k + 1, entry => do
    let current ← (index entry.inodes k : Result (INode w))
    let info := current.metaInfo
    let dir ← Prog.onFst (callback self.revision entry.index info.address.j info.hash none)
    match dir with
    | .terminate => return ()
    | .right => walkDownFrom self callback fuel k entry
    | .left => do
      let left ← Prog.onSnd (self.descend entry.index current)
      walkDownFrom self callback fuel left.2 left.1
    | .both => do
      -- the right side first: it is in the entry at hand
      walkDownFrom self callback fuel k entry
      let left ← Prog.onSnd (self.descend entry.index current)
      walkDownFrom self callback fuel left.2 left.1

/-- The walk from the root of the tree. -/
def walkDown {κ : Type} (self : Query S) (fuel : ℕ) (callback : WalkFn w κ) :
    Run (κ × S.State) Unit :=
  match self.cache.lastEntry with
  | some entry => self.walkDownFrom callback fuel entry.inodes.length entry
  | none => pure ()

/-- A walk with a local variable; the value of the variable is returned. -/
def collect {κ : Type} (self : Query S) (fuel : ℕ) (callback : WalkFn w κ) (init : κ) :
    Run S.State κ := fun s =>
  match self.walkDown fuel callback (init, s) with
  | (.ok (), (result, s')) => (.ok result, s')
  | (.error e, (_, s')) => (.error e, s')

/-- The callback of `StratifiedHashTree.Query.get`. -/
def getStep (i : Index) : WalkFn w (Result (Option Bytes)) := fun _ bi bj _ leafValue =>
  -- the leaf of the index is at the end of the right edge below
  if bi = i then
    if bj = 0 then
      match leafValue with
      | some value => do
        Prog.set (.ok (some value))
        return .terminate
      | none => Prog.lift (panic .explicit)
    else
      return .right
  else do
    let (_, right) ← subnodesOf bi bj
    if ← contains right.1 right.2 i then
      return .right
    else
      return .left

/-- The value of an index; none outside of the revision. -/
def get (self : Query S) (fuel : ℕ) (i : Index) : Run S.State (Option Bytes) :=
  if i = 0 ∨ self.revision < i then
    return none
  else do
    let result ← self.collect fuel (getStep i) (.ok none)
    result

/-- The callback of `StratifiedHashTree.Query.getSample`. -/
def sampleStep (i : Index) :
    WalkFn w ((Finmap fun _ : Index × ℕ => Hash w) × Option Bytes) := fun _ bi bj hash value => do
  let inside ← contains bi bj i
  let (witnesses, leafData) ← Prog.get
  -- a node beside the way to the index is a witness
  if inside = false then do
    Prog.set (witnesses.insert (bi, bj) hash, leafData)
    return .terminate
  else if bj = 0 then do
    Prog.set (witnesses, value)
    return .terminate
  else
    return .both

/-- The stratum sample of an index; none outside of the revision. -/
def getSample (self : Query S) (fuel : ℕ) (i : Index) : Run S.State (Option (StratumSample w)) := do
  let (witnesses, leafData) ← self.collect fuel (sampleStep i) (∅, none)
  return leafData.map fun data =>
    { revision := self.revision, leaf := { i := i, value := data }, witnesses := witnesses }

/-- The search of `StratifiedHashTree.Query.readEntry`, from an entry. -/
def readEntryFrom (self : Query S) (i : Index) : ℕ → Entry w → Run S.State (Option (Entry w))
  | 0, _ => fun s => (.error .outOfFuel, s)
  | fuel + 1, entry =>
    if entry.index = i then
      return some entry
    else do
      match ← findLeft i entry.inodes with
      | some inode => do
        let next ← fetchLeft S self.cache inode.left
        readEntryFrom self i fuel next
      | none => return none

/-- The entry of an index; none outside of the revision. -/
def readEntry (self : Query S) (fuel : ℕ) (i : Index) : Run S.State (Option (Entry w)) :=
  match self.cache.entry self.revision with
  | some entry => self.readEntryFrom i fuel entry
  | none => return none

/-- Passes the entries of a range of indices to a callback; returns how many. -/
def scan {κ : Type} (self : Query S) (fuel : ℕ) (i0 i1 : Index) (callback : ScanFn (Entry w) κ) :
    Run (κ × S.State) ℕ :=
  let n := self.revision
  let a := max (min i0 i1) 1
  let b := min (max i0 i1) n
  if b < a then
    return 0
  else do
    (debugAssert (1 ≤ a ∧ a ≤ n ∧ 1 ≤ b ∧ b ≤ n ∧ a ≤ b) : Result Unit)
    match ← Prog.onSnd (self.readEntry fuel a) with
    | some entry => do
      let d ← subBits b a
      let count ← addBits 64 d 1
      S.scan entry.enode.metaInfo.address.position count callback
    | none => return 0

end Query

end StratifiedHashTree
