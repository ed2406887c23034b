import StratifiedHashTree.Formula

/-!
# Hashes, nodes and entries

The data of `lib.rs`. A hash is a byte string of the fixed length `w` of the algorithm
that the crate was built with, and the algorithm itself is a parameter: a function of
the level byte and the bytes (`StratifiedHashTree.HashFn`), about which nothing is
assumed.

An *entry* is what one append writes: the leaf with its payload, and the intermediate
nodes that the append created, from the leaf upwards. The left branch of such a node
leads into an older entry, whose position in the storage is recorded; the right branch
stays in the entry itself.
-/

namespace StratifiedHashTree

open Outcome

/-- A position in a storage. -/
abbrev Position := ℕ

/-- A sequence of bytes. -/
abbrev Bytes := List UInt8

/-- The largest payload. -/
def MAX_PAYLOAD_SIZE : ℕ := 0x7FFFFFFF

/-- A hash value of `w` bytes. -/
structure Hash (w : ℕ) where
  value : Bytes
  length_value : value.length = w
  deriving DecidableEq

/-- A hash algorithm: the hash of the level byte followed by the bytes. -/
abbrev HashFn (w : ℕ) := UInt8 → Bytes → Hash w

variable {w : ℕ}

namespace Hash

variable (H : HashFn w)

/-- The hash of the bytes at the level `j`. -/
def fromBytes (j : ℕ) (value : Bytes) : Hash w := H (UInt8.ofNat j) value

/-- The hash of two concatenated hashes at the level `j`. -/
def combine (self : Hash w) (j : ℕ) (other : Hash w) : Hash w :=
  fromBytes H j (self.value ++ other.value)

end Hash

/-- Where the entry holding the node `b_{i,j}` is stored. -/
structure Address where
  i : Index
  j : ℕ
  position : Position
  deriving DecidableEq, Repr

/-- The attributes of a node `b_{i,j}`. -/
structure MetaInfo (w : ℕ) where
  address : Address
  hash : Hash w
  deriving DecidableEq

/-- An intermediate node. -/
structure INode (w : ℕ) where
  metaInfo : MetaInfo w
  left : Address
  right : Address
  deriving DecidableEq

/-- A leaf with its payload. -/
structure ENode (w : ℕ) where
  metaInfo : MetaInfo w
  payload : Bytes
  deriving DecidableEq

/-- What one append writes. -/
structure Entry (w : ℕ) where
  enode : ENode w
  inodes : List (INode w)
  deriving DecidableEq

namespace Entry

/-- The index of an entry. -/
def index (self : Entry w) : Index := self.enode.metaInfo.address.i

/-- An entry whose intermediate nodes are in increasing height. -/
def new (enode : ENode w) (inodes : List (INode w)) : Result (Entry w) := do
  debugAssert ((inodes.map fun inode => inode.metaInfo.address.j).IsChain (· < ·))
  return { enode := enode, inodes := inodes }

/-- The root node of the generation that the entry created. -/
def root (self : Entry w) : MetaInfo w :=
  match self.inodes.getLast? with
  | some root => root.metaInfo
  | none => self.enode.metaInfo

/-- The intermediate node of height `j`. -/
def inode (self : Entry w) (j : ℕ) : Option (INode w) :=
  self.inodes.find? fun inode => inode.metaInfo.address.j = j

/-- The attributes of the node of height `j`. -/
def metaInfo (self : Entry w) (j : ℕ) : Option (MetaInfo w) :=
  if j = 0 then some self.enode.metaInfo else (self.inode j).map fun inode => inode.metaInfo

end Entry

/-! ### Entries in place

An entry read back from a storage knows the fields that are stored; the others are put
together from the position it was read from and from the order of its nodes. An entry is
*placed* at a position when this gives the entry again. -/

/-- The nodes of an entry, from the node above the height `below` upwards: each sits in the
entry, and its right branch is the node before it. -/
def Chained (i : Index) (position : Position) : ℕ → List (INode w) → Prop
  | _, [] => True
  | below, inode :: rest =>
    inode.metaInfo.address = ⟨i, inode.metaInfo.address.j, position⟩ ∧
      1 ≤ inode.metaInfo.address.j ∧ inode.metaInfo.address.j ≤ INDEX_SIZE ∧
      inode.left.position < 2 ^ 64 ∧ inode.left.i < 2 ^ 64 ∧ inode.left.j < 2 ^ 8 ∧
      inode.right = ⟨i, below, position⟩ ∧ Chained i position inode.metaInfo.address.j rest

/-- The entry can be stored at a position, and read back from there. -/
structure Entry.Placed (position : Position) (e : Entry w) : Prop where
  index_lt : e.index < 2 ^ 64
  position_lt : position < 2 ^ 64
  address_eq : e.enode.metaInfo.address = ⟨e.index, 0, position⟩
  payload_le : e.enode.payload.length ≤ MAX_PAYLOAD_SIZE
  inodes_le : e.inodes.length ≤ INDEX_SIZE
  chained : Chained e.index position 0 e.inodes

/-- A value with its index. -/
structure Value where
  i : Index
  value : Bytes
  deriving DecidableEq, Repr

/-- The hash of a value. -/
def Value.hash (H : HashFn w) (self : Value) : Hash w := Hash.fromBytes H 0 self.value

/-! ### The text of an entry

The derived debug format, as one error message prints it. -/

section DebugFormat

/-- An upper-case hexadecimal digit. -/
def hexDigit (d : ℕ) : Char := "0123456789ABCDEF".toList.getD d '0'

/-- Bytes in hexadecimal. -/
def hex (value : Bytes) : String :=
  String.ofList (value.flatMap fun c => [hexDigit (c.toNat / 16), hexDigit (c.toNat % 16)])

def Address.debug (a : Address) : String :=
  s!"Address \x7b i: {a.i}, j: {a.j}, position: {a.position} \x7d"

def MetaInfo.debug (m : MetaInfo w) : String :=
  s!"MetaInfo \x7b address: {m.address.debug}, hash: Hash({hex m.hash.value}) \x7d"

def INode.debug (n : INode w) : String :=
  s!"INode \x7b meta: {n.metaInfo.debug}, left: {n.left.debug}, right: {n.right.debug} \x7d"

def Entry.debug (e : Entry w) : String :=
  let payload := String.intercalate ", " (e.enode.payload.map fun c => toString c.toNat)
  let inodes := String.intercalate ", " (e.inodes.map INode.debug)
  let enode := s!"ENode \x7b meta: {e.enode.metaInfo.debug}, payload: [{payload}] \x7d"
  s!"Entry \x7b enode: {enode}, inodes: [{inodes}] \x7d"

end DebugFormat

end StratifiedHashTree
