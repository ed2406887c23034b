import StratifiedHashTree.Error

/-!
# The formulas of Slate

`formula.rs`: the closed forms that name the nodes of a stratified hash tree, and
the model of a generation. A node `b_{i,j}` is named by its index `i` and its
height `j`; the tree of the first `n` leaves is `𝑇ₙ`.

Nothing here builds a tree. The functions compute the neighbours of a node from
the bits of its name, with the checks that the source makes on the way: the
arithmetic is that of `u64` and `u8`, and a debug assertion that fails is a panic.
What they compute is the subject of `StratifiedHashTree.FormulaTree`.
-/

namespace StratifiedHashTree

/-- The type of an index. -/
abbrev Index := ℕ

/-- The bit width of an index. -/
def INDEX_SIZE : ℕ := 64

namespace Formula

open Outcome

/-- The name of a node `b_{i,j}`. -/
structure Addr where
  i : Index
  j : ℕ
  deriving DecidableEq, Repr

/-- An intermediate node with its branches. -/
structure INode where
  node : Addr
  left : Addr
  right : Addr
  deriving DecidableEq, Repr

/-! ### Machine arithmetic on indices -/

/-- The number of leading zero bits of a `u64`. -/
def leadingZeros (x : ℕ) : ℕ := if x = 0 then 64 else 63 - Nat.log2 x

/-- The number of one bits of a `u64`. -/
def countOnes (x : ℕ) : ℕ := (List.range 64).countP x.testBit

/-- `i mod 2^j`, for `j ≤ 64`. -/
def iMod2e (i : Index) (j : ℕ) : Result Index := do
  debugAssert (j ≤ 64)
  -- a shift by the width of the type would overflow
  if 64 ≤ j then
    return i
  else
    let w ← shlBits 64 1 j
    let mask ← subBits w 1
    return i &&& mask

/-- `2^j`, for `j < 64`. -/
def pow2e (j : ℕ) : Result Index := do
  debugAssert (j < 64)
  shlBits 64 1 j

/-- `⌈log₂ x⌉`. -/
def ceilLog2 (x : Index) : Result ℕ := do
  debugAssert (0 < x)
  let y ← subBits x 1
  subBits INDEX_SIZE (leadingZeros y)

/-- `⌊log₂ x⌋`. -/
def floorLog2 (x : Index) : Result ℕ := do
  debugAssert (0 < x)
  return Nat.log2 x

/-! ### Nodes -/

/-- Whether the subtree of `b_{i,j}` is a perfect binary tree. -/
def isPbst (i : Index) (j : ℕ) : Result Bool := do
  let m ← iMod2e i j
  return m == 0

/-- The number of perfect subtrees of `𝑇ₙ`. -/
def countPbsts (n : Index) : ℕ := countOnes n

/-- The range of the leaves below `b_{i,j}`. -/
def range (i : Index) (j : ℕ) : Result (Index × Index) := do
  debugAssert (j ≤ 64)
  let p ← subBits i 1
  let m ← iMod2e p j
  let iMin ← subBits i m
  return (iMin, i)

/-- The root of the generation `n`. -/
def rootOf (n : Index) : Result (Index × ℕ) := do
  debugAssert (0 < n)
  let j ← ceilLog2 n
  return (n, j)

/-- Whether a node `b_{i,j}` can exist. -/
def isValid (i : Index) (j : ℕ) : Result Bool :=
  if i = 0 then
    .ok false
  else if j = 0 then
    .ok true
  else do
    let height ← ceilLog2 i
    if height < j then
      return false
    else if j = height then
      return true
    else if ← isPbst i j then
      return true
    else
      -- the condition for an ephemeral node
      let w ← shlBits 64 1 j
      let mask ← subBits w 1
      let half ← shlBits 64 1 (j - 1)
      return decide (half < (i &&& mask))

/-- The bits of the index of a left child above its own height. -/
def leftUpper (i : Index) (j : ℕ) : Result Index :=
  if j < INDEX_SIZE then do
    let p ← subBits i 1
    let q ← shrBits 64 p j
    shlBits 64 q j
  else
    .ok 0

/-- The left and the right child of `b_{i,j}`. -/
def subnodesOf (i : Index) (j : ℕ) : Result ((Index × ℕ) × (Index × ℕ)) := do
  let valid ← isValid i j
  debugAssert (valid = true)
  let upper ← leftUpper i j
  let jl ← subBits j 1
  let lower ← pow2e jl
  -- the leaves of the right child are those after the left one
  let d ← subBits i (upper ||| lower)
  let jr ← ceilLog2 d
  return ((upper ||| lower, jl), (i, jr))

/-- The number of leaves below `b_{i,j}`. -/
def leafCount (i : Index) (j : ℕ) : Result Index := do
  let p ← subBits i 1
  let m ← iMod2e p j
  addBits 64 m 1

/-- Whether the node `b_{k,*}` lies in the subtree of `b_{i,j}`. -/
def contains (i : Index) (j : ℕ) (k : Index) : Result Bool := do
  debugAssert (j ≤ 64)
  let r ← range i j
  return decide (r.1 ≤ k ∧ k ≤ r.2)

/-- The recursion of `StratifiedHashTree.Formula.stratumSampleSize`; every call goes to
a lower node, so one more step than the height is enough. -/
def branchCount (ti : Index) : ℕ → Index → ℕ → ℕ → Result ℕ
  | 0, _, _, _ => .error .outOfFuel
  | fuel + 1, i, j, count =>
    if j = 0 then
      .ok count
    else do
      let (l, r) ← subnodesOf i j
      let count' ← addBits 8 count 1
      if ← contains l.1 l.2 ti then
        branchCount ti fuel l.1 l.2 count'
      else
        let inRight ← contains r.1 r.2 ti
        debugAssert (inRight = true)
        branchCount ti fuel r.1 r.2 count'

/-- The size of a stratum sample. -/
def stratumSampleSize (n i : Index) : Result ℕ := do
  let (ri, rj) ← rootOf n
  if ← contains ri rj i then
    branchCount i (rj + 1) ri rj 0
  else
    return 0

/-! ### The perfect subtrees of a generation -/

/-- The iteration of `StratifiedHashTree.Formula.pbstRoots`: each step clears the
highest bit of `remaining`, so as many steps as there are bits are enough. -/
def pbstRootsFrom (n : Index) : ℕ → Index → Result (List Addr)
  | 0, remaining => if remaining = 0 then .ok [] else .error .outOfFuel
  | fuel + 1, remaining =>
    if remaining = 0 then
      .ok []
    else do
      let j ← floorLog2 remaining
      let size ← pow2e j
      let d ← subBits n remaining
      let i ← addBits 64 d size
      let remaining' ← subBits remaining size
      let roots ← pbstRootsFrom n fuel remaining'
      return ⟨i, j⟩ :: roots

/-- The roots of the perfect subtrees of `𝑇ₙ`, from left to right. -/
def pbstRoots (n : Index) : Result (List Addr) := pbstRootsFrom n INDEX_SIZE n

/-- The first perfect subtree that contains the node `b_{k,*}`. -/
def findRoot (k : Index) : List Addr → Result (Option Addr)
  | [] => .ok none
  | root :: rest => do
    if ← contains root.i root.j k then
      return some root
    else
      findRoot k rest

/-- The distance from the latest entry `eₙ` to the entry `eₖ`. -/
def entryAccessDistance (k n : Index) : Result (Option ℕ) := do
  let roots ← pbstRoots n
  match ← findRoot k roots with
  | some root => do
    let r ← range root.i root.j
    let offset ← subBits k r.1
    let steps ← subBits root.j (countOnes offset)
    let distance ← addBits 8 steps (if root.i ≠ n then 1 else 0)
    return some distance
  | none => return none

/-! ### The limits of the distances -/

/-- A function of two neighbours, along a list. -/
def windows {α β : Type} (f : α → α → Result β) : List α → Result (List β)
  | a :: b :: rest => do
    let x ← f a b
    let xs ← windows f (b :: rest)
    return x :: xs
  | _ => .ok []

/-- The first index of every distance, read off the first perfect subtree. -/
def lowerStarts (n : Index) : List Addr → Result (List Index)
  | [] => .ok []
  | root :: rest => do
    let starts ← (List.range (root.j + 1)).mapM fun d => do
      let e ← subBits root.j d
      pow2e e
    return if rest = [] then starts else n :: starts

/-- The last index of every distance within a perfect subtree. A left branch leads to every
subtree but the rightmost one, and the distance 0 is left open there. -/
def upperEnds (rightMost : Bool) (root : Addr) : Result (List Index) := do
  let n ← pow2e root.j
  let r ← range root.i root.j
  let offset ← subBits r.1 1
  let ends ← (List.range (root.j + 1)).mapM fun d => do
    let m ← addBits 64 n 1
    let size ← pow2e d
    let e ← subBits m size
    addBits 64 offset e
  return if rightMost then ends else 0 :: ends

/-- Fills the places that are still open, which hold a 0; there has to be a place for
everything. -/
def mergeEnds : List Index → List Index → Result (List Index)
  | acc, [] => .ok acc
  | [], _ :: _ => panic .outOfBounds
  | a :: acc, e :: ends => do
    let rest ← mergeEnds acc ends
    return (if a = 0 then e else a) :: rest

/-- One round of the fold over the perfect subtrees, counted from the right. -/
def pushEnds (acc : List Index) (root : Addr × ℕ) : Result (List Index) := do
  let ends ← upperEnds (root.2 == 0) root.1
  mergeEnds acc ends

/-- From one start to the next. -/
def lowerRange (a b : Index) : Result (Index × Index) := do
  let e ← subBits a 1
  return (b, e)

/-- From one end to the next. -/
def upperRange (a b : Index) : Result (Index × Index) := do
  let s ← addBits 64 b 1
  return (s, a)

/-- The upper and the lower limits of the distance from the latest entry: the ranges of the
indices, by the distance. -/
def entryAccessDistanceLimits (n : Index) :
    Result (List (Index × Index) × List (Index × Index)) :=
  if n = 0 then
    .ok ([], [])
  else do
    let h ← ceilLog2 n
    let roots ← pbstRoots n
    let starts ← lowerStarts n roots
    let ll ← windows lowerRange starts
    let ends ← roots.reverse.zipIdx.foldlM pushEnds (List.replicate (h + 1) 0)
    let ul ← windows upperRange ends
    return (ul ++ [(1, 1)], (n, n) :: ll)

/-- The number of nodes of the generation `n`, leaves included, as a `u128`. -/
def totalNodes (n : Index) : ℕ := if n = 0 then 0 else 2 * n - 1

/-! ### The model of a generation -/

/-- The conceptual model of the hash tree `𝑇ₙ` of a generation `n ≥ 1`. -/
structure Model where
  n : Index
  pbstRoots : List Addr
  ephemeralNodes : List INode
  deriving DecidableEq, Repr

namespace Model

/-- The right child of an ephemeral node: the ephemeral node created before it, or, for
the first one, the last perfect subtree. -/
def ephemeralRight (pbsts : List Addr) (position : ℕ) : List INode → Result Addr
  | e :: _ => .ok e.node
  | [] => index pbsts position

/-- One round of `StratifiedHashTree.Formula.Model.createEphemeralNodes`. -/
def pushEphemeral (n : Index) (pbsts : List Addr) (ephemerals : List INode) (i : ℕ) :
    Result (List INode) := do
  let last ← subBits pbsts.length 1
  let position ← subBits last i
  let before ← subBits position 1
  let left ← index pbsts before
  let j ← addBits 8 left.j 1
  let right ← ephemeralRight pbsts position ephemerals
  return ⟨⟨n, j⟩, left, right⟩ :: ephemerals

/-- The ephemeral nodes connecting the perfect subtrees: built from the right, each new
one in front of the others. -/
def createEphemeralNodes (n : Index) (pbsts : List Addr) : Result (List INode) := do
  debugAssert (pbsts.length ≠ 0)
  let last ← subBits pbsts.length 1
  (List.range last).foldlM (pushEphemeral n pbsts) []

/-- The model of the generation `n`. -/
def new (n : Index) : Result Model := do
  debugAssert (n ≠ 0)
  let pbsts ← Formula.pbstRoots n
  debugAssert (pbsts.length ≠ 0)
  let ephemerals ← createEphemeralNodes n pbsts
  return { n := n, pbstRoots := pbsts, ephemeralNodes := ephemerals }

/-- The root node of the hash tree. -/
def root (self : Model) : Result Addr :=
  match self.ephemeralNodes with
  | e :: _ => .ok e.node
  | [] => unwrap self.pbstRoots.head?

/-- The intermediate node at distance `k` below the root of the last perfect subtree,
on its right edge. -/
def edgeNode (node : Addr) (k : ℕ) : Result INode := do
  let j ← subBits node.j k
  let w ← shlBits 64 1 j
  let jc ← subBits j 1
  let half ← shlBits 64 1 jc
  let base ← subBits node.i w
  let left ← addBits 64 base half
  return ⟨⟨node.i, j⟩, ⟨left, jc⟩, ⟨node.i, jc⟩⟩

/-- The intermediate nodes added by this generation, in increasing height. -/
def inodes (self : Model) : Result (List INode) := do
  let _capacity ← ceilLog2 self.n
  let edge ← match self.pbstRoots.find? fun node => node.i = self.n ∧ node.j ≠ 0 with
    | some node => (List.range node.j).mapM (edgeNode node)
    | none => .ok []
  return (self.ephemeralNodes ++ edge).reverse

/-- The intermediate node `b_{i,j}` of a perfect subtree. -/
def pbstInode (i : Index) (j : ℕ) : Result INode := do
  let perfect ← isPbst i j
  debugAssert (perfect = true)
  debugAssert (j ≠ 0)
  let jc ← subBits j 1
  let half ← shlBits 64 1 jc
  let left ← subBits i half
  return ⟨⟨i, j⟩, ⟨left, jc⟩, ⟨i, jc⟩⟩

/-- The intermediate node `b_{i,j}`: computed below the perfect subtrees of the generations
before, and else looked for among the ephemeral nodes. -/
def inode (self : Model) (i : Index) (j : ℕ) : Result (Option INode) :=
  if j = 0 then
    .ok none
  else do
    let perfect ← isPbst i j
    if perfect = true ∧ i < self.n then
      let inode ← pbstInode i j
      return some inode
    else
      return self.ephemeralNodes.find? fun node => node.node.i = i ∧ node.node.j = j

end Model

end Formula

end StratifiedHashTree
