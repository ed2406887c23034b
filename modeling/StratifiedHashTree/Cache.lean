import Mathlib.Data.Finmap
import StratifiedHashTree.Storage

/-!
# The cache of a slate

`cache.rs`: what a slate remembers of its own storage – the model of the current
generation, the entries within a fixed number of links of the latest one, and the
attributes of the perfect subtrees, on which the next append hangs its spine.

There are two ways to obtain a cache, and they share no code. `Cache.load` rebuilds it
from the last entry, reading the entries it links to; `Cache.migrate` carries it over
one append, without reading anything.
-/

namespace StratifiedHashTree

open Outcome Formula

/-- A `HashMap` keyed by indices. -/
abbrev IndexMap (β : Type) := Finmap fun _ : Index => β

variable {w : ℕ}

/-- Reads an entry and checks that it has the index its link names. -/
def readEntryWithIndexCheck (S : Storage (Entry w)) (position : Position) (expected : Index) :
    Run S.State (Entry w) := do
  let entry ← S.read position
  if entry.index ≠ expected then
    Prog.err (.internalStateInconsistency
      s!"The index of entry {expected} read from {position} was actually {entry.index}")
  else
    return entry

/-- The cache of a generation. -/
structure Cache (w : ℕ) where
  level : ℕ
  model : Option Model
  cache : IndexMap (Entry w)
  pbstRoots : IndexMap (MetaInfo w)
  deriving DecidableEq

namespace Cache

/-- The empty cache of a level. -/
def empty (level : ℕ) : Cache w :=
  { level := level, model := none, cache := ∅, pbstRoots := ∅ }

/-- The cached entry of an index. -/
def entry (self : Cache w) (i : Index) : Option (Entry w) := self.cache.lookup i

/-- The number of cached entries. -/
def len (self : Cache w) : ℕ := self.cache.keys.card

/-- The generation of the cache. -/
def revision (self : Cache w) : Index :=
  match self.model with
  | some model => model.n
  | none => 0

/-- The entry of the generation; none for the generation 0. -/
def lastEntry (self : Cache w) : Option (Entry w) := self.cache.lookup self.revision

/-- The root node of the generation; none for the generation 0. -/
def root (self : Cache w) : Option (MetaInfo w) := self.lastEntry.map Entry.root

/-- The attributes of the perfect subtree `b_{i,j}`. -/
def getPbstRoot (self : Cache w) (i : Index) (j : ℕ) : Result (MetaInfo w) :=
  match self.pbstRoots.lookup i with
  | some info => do
    debugAssert (j = info.address.j)
    return info
  | none => panic .explicit

/-! ### Loading -/

/-- The addresses of the perfect subtrees of a generation, from its inner nodes taken
from the root downwards; and whether the last one is an inner node. -/
def pbstRootAddrs : List (INode w) → Result (List Address × Bool)
  | [] => .ok ([], false)
  | inode :: rest => do
    if ← isPbst inode.metaInfo.address.i inode.metaInfo.address.j then
      return ([inode.metaInfo.address], true)
    else
      let (addrs, found) ← pbstRootAddrs rest
      return (inode.left :: addrs, found)

/-- Reads the entries at the given addresses and, as far as `level` allows, the entries
they link to. -/
def loadWithLevel (S : Storage (Entry w)) :
    ℕ → List Address → IndexMap (Entry w) → Run S.State (IndexMap (Entry w))
  | level + 2, addrs, cache => addrs.foldlM (fun cache addr => do
      let entry ← readEntryWithIndexCheck S addr.position addr.i
      loadWithLevel S (level + 1) (entry.inodes.map fun inode => inode.left)
        (cache.insert entry.index entry)) cache
  | _, addrs, cache => addrs.foldlM (fun cache addr => do
      let entry ← readEntryWithIndexCheck S addr.position addr.i
      return cache.insert entry.index entry) cache

/-- The entries to be cached. -/
def loadCached (S : Storage (Entry w)) (level : ℕ) (addrs : List Address)
    (cache : IndexMap (Entry w)) : Run S.State (IndexMap (Entry w)) :=
  if 0 < level then do
    S.reader
    loadWithLevel S level addrs cache
  else
    return cache

/-- The entries in which the perfect subtrees are looked up: the cached ones, unless
nothing but the last entry is cached. -/
def loadNeighbours (S : Storage (Entry w)) (level : ℕ) (addrs : List Address)
    (lastOnly cache : IndexMap (Entry w)) : Run S.State (IndexMap (Entry w)) :=
  if level = 0 then do
    S.reader
    loadWithLevel S 1 addrs lastOnly
  else
    return cache

/-- The attributes of the perfect subtrees, by their index. -/
def collectRoots (entries : IndexMap (Entry w)) (addrs : List Address) :
    Result (IndexMap (MetaInfo w)) :=
  addrs.foldlM (fun roots addr =>
    match entries.lookup addr.i with
    | some entry => do
      let info ← unwrap (entry.metaInfo addr.j)
      return roots.insert addr.i info
    | none => panic .explicit) ∅

/-- Builds the cache of the generation of an entry. -/
def load (S : Storage (Entry w)) (level : ℕ) (lastEntry : Entry w) : Run S.State (Cache w) := do
  let i := lastEntry.index
  let model ← Model.new i
  let (addrs, found) ← pbstRootAddrs lastEntry.inodes.reverse
  -- at the end of the right edge, the leaf itself is a perfect subtree
  let rootAddrs := if found then addrs else addrs ++ [lastEntry.enode.metaInfo.address]
  let level1Addrs := lastEntry.inodes.map fun inode => inode.left
  let lastOnly : IndexMap (Entry w) := (∅ : IndexMap (Entry w)).insert i lastEntry
  let cache ← loadCached S level level1Addrs lastOnly
  let entries ← loadNeighbours S level level1Addrs lastOnly cache
  let pbstRoots ← collectRoots entries rootAddrs
  return { level := level, model := some model, cache := cache, pbstRoots := pbstRoots }

/-! ### Migrating -/

/-- The entry that holds a perfect subtree of the next generation. -/
def rootEntry (self : Cache w) (entry : Entry w) (i : Index) : Result (Entry w) :=
  if i = entry.index then .ok entry
  else
    match self.entry i with
    | some cached => .ok cached
    | none => panic .explicit

/-- The attributes of a perfect subtree of the next generation. -/
def nextRoot (self : Cache w) (entry : Entry w) (root : Addr) : Result (MetaInfo w) :=
  match self.pbstRoots.lookup root.i with
  | some info => do
    debugAssert (root.j = info.address.j)
    return info
  | none => do
    -- not remembered yet: the new entry has completed it
    let holder ← self.rootEntry entry root.i
    let info ← unwrap (holder.metaInfo root.j)
    debugAssert (root.i = info.address.i)
    return info

/-- Copies the entries within `distance` links of an entry to a new cache. -/
def migrateCache (cache : IndexMap (Entry w)) :
    ℕ → Entry w → IndexMap (Entry w) → Result (IndexMap (Entry w))
  | 0, _, _ => panic .assertion
  | 1, entry, newCache => entry.inodes.foldlM (fun newCache inode => do
      let leftEntry ← unwrap (cache.lookup inode.left.i)
      return newCache.insert inode.left.i leftEntry) newCache
  | distance + 2, entry, newCache => entry.inodes.foldlM (fun newCache inode => do
      let leftEntry ← unwrap (cache.lookup inode.left.i)
      let newCache ← migrateCache cache (distance + 1) leftEntry newCache
      return newCache.insert inode.left.i leftEntry) newCache

/-- The entries cached in the next generation, except for its last one. -/
def migrateEntries (self : Cache w) (entry : Entry w) : Result (IndexMap (Entry w)) :=
  if 0 < self.level then migrateCache self.cache self.level entry ∅ else .ok ∅

/-- The cache of the next generation, from the entry that created it. -/
def migrate (self : Cache w) (entry : Entry w) (model : Model) : Result (Cache w) := do
  let i := entry.index
  debugAssert (self.revision + 1 = i)
  debugAssert (self.revision + 1 = model.n)
  let pbstRoots ← model.pbstRoots.foldlM (fun roots root => do
    let info ← self.nextRoot entry root
    return roots.insert root.i info) (∅ : IndexMap (MetaInfo w))
  let cache ← self.migrateEntries entry
  return { level := self.level, model := some model, cache := cache.insert i entry,
           pbstRoots := pbstRoots }

end Cache

end StratifiedHashTree
