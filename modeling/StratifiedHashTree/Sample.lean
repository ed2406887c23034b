import Mathlib.Data.Finset.Sort
import Mathlib.Data.Prod.Lex
import StratifiedHashTree.Slate

/-!
# Stratum samples

The side that holds no slate. A stratum sample is a leaf with a map of hashes, and
`StratumSample.rootHash` computes the root that it belongs to, asking the map for the
siblings that the formulas name. Nothing guarantees that the map has them: a missing one
is a panic, an index that the path does not lead to is an error.

Two samples of the same leaf are compared witness by witness
(`StratumSample.compare`), and the nodes that differ tell where to look next; the
documentation of `compare` turns this into a search for a leaf at which two slates differ
(`StratifiedHashTree.differenceSearch`).
-/

namespace StratifiedHashTree

open Outcome Formula

variable {w : ℕ}

namespace StratumSample

variable (H : HashFn w)

/-- The hash of the node `b_{i,j}` on the path of the sample. -/
def computeHash (self : StratumSample w) : ℕ → Index → ℕ → Result (Hash w)
  | 0, _, _ => .error .outOfFuel
  | fuel + 1, i, j =>
    if j = 0 then
      if self.leaf.i = i then
        .ok (self.leaf.hash H)
      else
        err (.sampleVerificationFailed
          (s!"The sample structure is incorrect: This path is for b_{i}, but " ++
            s!"b_{self.leaf.i} is stored"))
    else do
      let (l, r) ← subnodesOf i j
      if ← contains l.1 l.2 self.leaf.i then do
        let left ← computeHash self fuel l.1 l.2
        let right ← unwrap (self.witnesses.lookup r)
        return left.combine H j right
      else if ← contains r.1 r.2 self.leaf.i then do
        let left ← unwrap (self.witnesses.lookup l)
        let right ← computeHash self fuel r.1 r.2
        return left.combine H j right
      else
        err (.sampleVerificationFailed
          ("The stratum sample structure is incorrect: The leaf node " ++
            s!"b_{self.leaf.i} is not contained"))

/-- The root hash of the sample. Every call goes to a lower node, so one more step than
the height of the root is enough. -/
def rootHash (self : StratumSample w) : Result (Hash w) := do
  let (i, j) ← rootOf self.revision
  computeHash H self (j + 1) i j

end StratumSample

/-- The outcome of a comparison. -/
inductive Prove where
  /-- The two trees are the same. -/
  | identical
  /-- The trees differ below these nodes. -/
  | divergent (nodes : List (Index × ℕ))
  deriving DecidableEq

namespace StratumSample

variable (H : HashFn w)

/-- Node names in ascending order. -/
def sortNodes (nodes : List (Index × ℕ)) : List (Index × ℕ) :=
  nodes.mergeSort fun x y => toLex x ≤ toLex y

/-- The names of the witnesses, in one of the orders in which a map may yield them; the result
of a comparison is the same for every other one
(`StratifiedHashTree.StratumSample.divergents_perm`). -/
def witnessKeys (self : StratumSample w) : List (Index × ℕ) :=
  ((self.witnesses.keys.map toLex.toEmbedding).sort).map ofLex

/-- The loop over the witnesses of the sample: those whose hashes in the other one differ are
pushed. -/
def pushDivergents (self other : StratumSample w) :
    List (Index × ℕ) → List (Index × ℕ) → Result (List (Index × ℕ))
  | [], divergents => .ok divergents
  | k :: keys, divergents =>
    match other.witnesses.lookup k with
    | some h2 =>
      if self.witnesses.lookup k ≠ some h2 then
        pushDivergents self other keys (divergents ++ [k])
      else
        pushDivergents self other keys divergents
    | none => panic .explicit

/-- The nodes at which two samples differ: the witnesses, which come in some order, and then the
leaf are pushed one after the other; the list is sorted and reversed. -/
def divergents (self other : StratumSample w) (keys : List (Index × ℕ)) :
    Result (List (Index × ℕ)) := do
  let nodes ← pushDivergents self other keys []
  let nodes := if self.leaf.hash H ≠ other.leaf.hash H then nodes ++ [(self.leaf.i, 0)] else nodes
  return (sortNodes nodes).reverse

/-- Compares two samples. -/
def compare (self other : StratumSample w) : Result Prove :=
  if self.revision ≠ other.revision then
    err (.sampleVerificationFailed
      (s!"The revisions being compared are different: {self.revision} != " ++
        s!"{other.revision}"))
  else if self.leaf.i ≠ other.leaf.i then
    err (.sampleVerificationFailed
      (s!"The different stratum sample between {self.leaf.i} and {other.leaf.i} in " ++
        s!"revisions {self.revision} cannot be compared"))
  else do
    -- the structure of both samples is verified by computing their root hashes
    let h1 ← self.rootHash H
    let h2 ← other.rootHash H
    if h1 = h2 then
      return .identical
    else do
      let nodes ← self.divergents H other self.witnessKeys
      return .divergent nodes

end StratumSample

/-! ### The search for a difference -/

section Search

variable {S T : Storage (Entry w)} (H : HashFn w)

/-- A sample taken from a snapshot of a revision. -/
def sampleAt (fuel : ℕ) (revision i : Index) : Run (Slate S) (StratumSample w) := do
  let snapshot ← Slate.snapshotAt fuel revision
  let query ← Slate.onStorage snapshot.query
  let sample ← Slate.onStorage (query.getSample fuel i)
  Prog.lift (unwrap sample)

/-- One round of the search: a sample of the client, the sample of the server for the
same leaf, and the first node at which the two differ. -/
def searchRound (fuel : ℕ) (revision i : Index) : Run (Slate S × Slate T) (Index × ℕ) := do
  let sample ← Prog.onFst (sampleAt fuel revision i)
  let server ← Prog.onSnd (sampleAt fuel sample.revision sample.leaf.i)
  match ← (server.compare H sample : Result Prove) with
  | .divergent diffs => (index diffs 0 : Result (Index × ℕ))
  | .identical => Prog.lift (panic .explicit)

/-- The search that the documentation of `StratumSample.compare` describes, for at most so
many rounds; returns the index and the number of rounds. -/
def differenceSearch (fuel : ℕ) (revision : Index) :
    ℕ → ℕ → Index → Run (Slate S × Slate T) (Index × ℕ)
  | 0, _, _ => fun s => (.error .outOfFuel, s)
  | rounds + 1, interactions, i => do
    let (di, dj) ← searchRound H fuel revision i
    if dj = 0 then
      return (di, interactions + 1)
    else
      differenceSearch fuel revision rounds (interactions + 1) di

end Search

end StratifiedHashTree
