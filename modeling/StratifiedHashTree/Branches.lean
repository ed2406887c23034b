import Mathlib.Data.List.Forall2
import StratifiedHashTree.Backend
import StratifiedHashTree.Existence
import StratifiedHashTree.Pairing

/-!
# Values with branches

`lib.rs`: the values of consecutive leaves, with the nodes that branch off on the way from the
root to them. The root is computed from below (`StratifiedHashTree.ValuesWithBranches.root`): the
values are folded in pairs until one node is left, and the branches are folded into it, the last
one first.

No index is looked at in the first part, and no height in the second. That the pairs are the nodes
of the tree is due to its shape: the subtrees of the height `r`, with what is left over at the end
(`StratifiedHashTree.Tree.cut`), folded in pairs, are those of the height `r + 1`, since a left
side is perfect and no pair reaches over its end. In the second part, the side of a branch is that
of its index.

So the root of a generation is reconstructed from the leaves of any of its nodes
(`StratifiedHashTree.root_reconstructed`).
-/

namespace StratifiedHashTree

open Outcome Formula FormulaTree
open Pairing (Pairs foldAll)

variable {w : ℕ}

/-! ### The code -/

/-- A node of a hash tree. -/
structure Node (w : ℕ) where
  i : Index
  j : ℕ
  hash : Hash w
  deriving DecidableEq

/-- The parent of a left and a right node. -/
def Node.parent (H : HashFn w) (self right : Node w) : Result (Node w) := do
  debugAssert (self.i < right.i)
  debugAssert (right.j ≤ self.j)
  let j ← addBits 8 self.j 1
  return { i := right.i, j := j, hash := self.hash.combine H j right.hash }

/-- The leaf of a value. -/
def Value.toNode (H : HashFn w) (self : Value) : Node w :=
  { i := self.i, j := 0, hash := self.hash H }

/-- Values with the branches on the way to them. -/
structure ValuesWithBranches (w : ℕ) where
  values : List Value
  branches : List (Node w)
  deriving DecidableEq

namespace ValuesWithBranches

/-- The values have to be consecutive. -/
def new (values : List Value) (branches : List (Node w)) : Result (ValuesWithBranches w) := do
  let last ← subBits values.length 1
  (List.range last).forM fun i => do
    let value ← index values i
    let next ← index values (i + 1)
    let successor ← addBits 64 value.i 1
    debugAssert (successor = next.i)
  return { values := values, branches := branches }

/-- Folding a branch into a node. -/
def foldBranch (H : HashFn w) (folding branch : Node w) : Result (Node w) :=
  if folding.i < branch.i then folding.parent H branch else branch.parent H folding

/-- The root node. -/
def root (H : HashFn w) (self : ValuesWithBranches w) : Result (Node w) := do
  let hashes := self.values.map (Value.toNode H)
  -- a round leaves fewer nodes than there were
  let hashes ← foldAll (Node.parent H) (hashes.length + 1) hashes
  let folding ← index hashes 0
  self.branches.reverse.foldlM (foldBranch H) folding

end ValuesWithBranches

/-! ### Levels of a tree -/

namespace Tree

/-- A tree cut at a height: the subtrees of that height, and what is left over at the end. -/
def cut (r : ℕ) : Tree → List Tree
  | leaf k => [leaf k]
  | node l r' => if (node l r').height ≤ r then [node l r'] else cut r l ++ cut r r'

variable {r : ℕ} {t : Tree}

theorem cut_of_height_le : ∀ {t : Tree}, t.height ≤ r → cut r t = [t]
  | leaf _, _ => rfl
  | node _ _, h => if_pos h

theorem cut_node_of_lt {l r' : Tree} (h : r < (node l r').height) :
    cut r (node l r') = cut r l ++ cut r r' := if_neg (Nat.not_le_of_lt h)

theorem length_cut_pos (r : ℕ) : ∀ t : Tree, 0 < (cut r t).length
  | leaf _ => Nat.one_pos
  | node l r' => by
    rw [cut]
    split
    · exact Nat.one_pos
    · rw [List.length_append]
      exact Nat.add_pos_left (length_cut_pos r l) _

theorem one_lt_length_cut (h : r < t.height) : 1 < (cut r t).length := by
  cases t with
  | leaf k => exact absurd h (Nat.not_lt_zero r)
  | node l r' =>
    have h1 := length_cut_pos r l
    have h2 := length_cut_pos r r'
    rw [cut_node_of_lt h, List.length_append]
    omega

namespace LeftPerfect

/-- A perfect tree falls into equal parts. -/
theorem length_cut (h : LeftPerfect t) (hp : t.Perfect) (hr : r ≤ t.height) :
    (cut r t).length = 2 ^ (t.height - r) := by
  induction h with
  | @leaf k hk =>
    obtain rfl : r = 0 := Nat.le_zero.mp hr
    rfl
  | @node l r' hl hr' hpl hle ha hd ihl ihr =>
    have hlr : LeftPerfect (.node l r') := .node hl hr' hpl hle ha hd
    have hheight := hlr.height_eq
    have hright := hlr.perfect_right hp
    have heq := hlr.height_right_of_perfect hp
    by_cases h : (Tree.node l r').height ≤ r
    · rw [cut_of_height_le h, Nat.sub_eq_zero_of_le h]
      rfl
    · rw [cut_node_of_lt (Nat.lt_of_not_le h), List.length_append, ihl hpl (by omega),
        ihr hright (by omega), heq, hheight, Nat.succ_sub (by omega), Nat.pow_succ]
      omega

/-- At the height zero there are the leaves. -/
theorem cut_zero (h : LeftPerfect t) : cut 0 t = (List.range' t.lo t.size).map Tree.leaf := by
  induction h with
  | leaf hk => rfl
  | @node l r hl hr hpl hle ha hd ihl ihr =>
    have h1 := hl.lo_add_size
    rw [cut_node_of_lt (by rw [height_node]; omega), ihl, ihr, lo_node, size_node,
      ← List.map_append, ha, ← h1, List.range'_append_1]

end LeftPerfect

end Tree

/-! ### Folding values -/

section Fold

variable (H : HashFn w) (v : ℕ → Bytes) {t : Tree} {n r : ℕ}

/-- A subtree as a node. -/
def treeNode (t : Tree) : Node w := { i := t.hi, j := t.height, hash := treeHash H v t }

/-- The values of the leaves from one index to another. -/
def leafValues (lo hi : Index) : List Value :=
  (List.range' lo (hi + 1 - lo)).map fun k => { i := k, value := v k }

variable {H v}

/-- The parent of the two sides of a node. -/
theorem parent_treeNode {l r : Tree} (h : (Tree.node l r).LeftPerfect) (hb : r.hi < 2 ^ 64) :
    (treeNode H v l).parent H (treeNode H v r) = .ok (treeNode H v (.node l r)) := by
  have h1 := h.hi_left_lt
  have h2 := h.height_right_le
  have h3 := height_le_64 h.left (h1.trans hb)
  rw [Node.parent, debugAssert_of (show (treeNode H v l).i < (treeNode H v r).i from h1), ok_bind,
    debugAssert_of (show (treeNode H v r).j ≤ (treeNode H v l).j from h2), ok_bind,
    addBits_of_lt (show (treeNode H v l).j + 1 < 2 ^ 8 from (Nat.succ_le_succ h3).trans_lt
      (by decide)), ok_bind, treeNode, treeNode, treeNode, treeHash_node, h.height_eq]
  rfl

/-- **The subtrees of a height, folded in pairs, are those of the next one.** -/
theorem pairs_cut (ht : t.LeftPerfect) : t.hi < 2 ^ 64 →
    Pairs (Node.parent H) ((Tree.cut r t).map (treeNode H v))
      ((Tree.cut (r + 1) t).map (treeNode H v)) := by
  induction ht with
  | leaf hk => exact fun _ => .odd _
  | @node l r' hl hr hp hle ha hd ihl ihr =>
    have hlr : (Tree.node l r').LeftPerfect := .node hl hr hp hle ha hd
    have hh := hlr.height_eq
    intro hb
    rw [Tree.hi_node] at hb
    have hbl := hlr.hi_left_lt.trans hb
    rcases Nat.lt_trichotomy (Tree.node l r').height (r + 1) with h | h | h
    · -- the whole tree is one of the parts
      rw [Tree.cut_of_height_le (by omega), Tree.cut_of_height_le (by omega)]
      exact .odd _
    · -- its two sides are the parts
      rw [Tree.cut_node_of_lt (by omega), Tree.cut_of_height_le (show l.height ≤ r by omega),
        Tree.cut_of_height_le (show r'.height ≤ r by omega), Tree.cut_of_height_le (by omega)]
      exact .pair (parent_treeNode hlr hb) .nil
    · -- no pair reaches over the end of the left side, which has an even number of parts
      have heven : (((Tree.cut r l).map (treeNode H v)).length) % 2 = 0 := by
        rw [List.length_map, hl.length_cut hp (by omega),
          show l.height - r = l.height - r - 1 + 1 by omega, pow_succ, Nat.mul_mod_left]
      rw [Tree.cut_node_of_lt (by omega), Tree.cut_node_of_lt h, List.map_append, List.map_append]
      exact (ihl hbl).append heven (ihr hb)

/-- The loop ends with the root of the tree. -/
theorem foldAll_cut (ht : t.LeftPerfect) (hb : t.hi < 2 ^ 64) : ∀ (fuel r : ℕ),
    t.height ≤ r + fuel →
    foldAll (Node.parent H) (fuel + 1) ((Tree.cut r t).map (treeNode H v)) = .ok [treeNode H v t]
  | 0, r, h => by
    rw [Nat.add_zero] at h
    rw [Tree.cut_of_height_le h]
    rfl
  | fuel + 1, r, h => by
    by_cases hr : t.height ≤ r
    · rw [Tree.cut_of_height_le hr]
      rfl
    · have hlen : 1 < ((Tree.cut r t).map (treeNode H v)).length := by
        rw [List.length_map]
        exact Tree.one_lt_length_cut (Nat.lt_of_not_le hr)
      rw [Pairing.foldAll_of_pairs (pairs_cut ht hb) hlen]
      exact foldAll_cut ht hb fuel (r + 1) (by omega)

/-- The values of a subtree are its leaves. -/
theorem map_toNode_leafValues (ht : t.LeftPerfect) :
    (leafValues v t.lo t.hi).map (Value.toNode H) = (Tree.cut 0 t).map (treeNode H v) := by
  have h1 := ht.lo_add_size
  rw [ht.cut_zero, leafValues, List.map_map, List.map_map, ← h1, Nat.add_sub_cancel_left]
  rfl

theorem length_leafValues (ht : t.LeftPerfect) : (leafValues v t.lo t.hi).length = t.size := by
  have h1 := ht.lo_add_size
  rw [leafValues, List.length_map, List.length_range', ← h1, Nat.add_sub_cancel_left]

/-- A tree has more leaves than levels below its root. -/
theorem height_le_size : ∀ t : Tree, t.height ≤ t.size
  | .leaf _ => Nat.zero_le 1
  | .node l r => by
    have h1 := height_le_size l
    have h2 := height_le_size r
    have h3 := l.size_pos
    have h4 := r.size_pos
    rw [Tree.height_node, Tree.size_node]
    omega

/-- **The values of a subtree fold to its root**, and then come the branches. -/
theorem root_leafValues (ht : t.LeftPerfect) (hb : t.hi < 2 ^ 64) (branches : List (Node w)) :
    ValuesWithBranches.root H { values := leafValues v t.lo t.hi, branches := branches } =
      branches.reverse.foldlM (ValuesWithBranches.foldBranch H) (treeNode H v t) := by
  have hfold := foldAll_cut (H := H) (v := v) ht hb t.size 0
    (by rw [Nat.zero_add]; exact height_le_size t)
  rw [ValuesWithBranches.root]
  simp only
  rw [List.length_map, length_leafValues ht, map_toNode_leafValues ht, hfold]
  rfl

/-- A loop over a list whose steps all return. -/
theorem forM_ok {α : Type} {f : α → Result Unit} : ∀ xs : List α, (∀ x ∈ xs, f x = .ok ()) →
    xs.forM f = .ok ()
  | [], _ => rfl
  | x :: xs, h => by
    rw [List.forM, h x List.mem_cons_self, ok_bind]
    exact forM_ok xs fun y hy => h y (List.mem_cons_of_mem x hy)

theorem index_leafValues {lo hi k : ℕ} (hk : lo + k ≤ hi) :
    (index (leafValues v lo hi) k : Result Value) = .ok { i := lo + k, value := v (lo + k) } := by
  refine index_of_getElem? ?_
  rw [leafValues, List.getElem?_map, List.getElem?_range' (by omega), Nat.one_mul]
  rfl

/-- The values of a subtree are consecutive. -/
theorem new_leafValues (ht : t.LeftPerfect) (hb : t.hi < 2 ^ 64) (branches : List (Node w)) :
    ValuesWithBranches.new (leafValues v t.lo t.hi) branches =
      .ok { values := leafValues v t.lo t.hi, branches := branches } := by
  have h1 := ht.lo_add_size
  rw [ValuesWithBranches.new, length_leafValues ht, subBits_of_le t.size_pos, ok_bind, forM_ok]
  · rfl
  · intro k hk
    rw [List.mem_range] at hk
    rw [index_leafValues (by omega), ok_bind, index_leafValues (by omega), ok_bind,
      addBits_of_lt (show t.lo + k + 1 < 2 ^ 64 by omega), ok_bind]
    exact debugAssert_of (Nat.add_assoc _ _ _)

end Fold

/-! ### Folding branches -/

/-- **The way from the root of a generation to a node**, with the nodes beside it in the order in
which they are met. -/
inductive Route (n : Index) : Index × ℕ → List (Index × ℕ) → Prop
  | root {x : Index × ℕ} : rootOf n = .ok x → Route n x []
  | left {i : Index} {j : ℕ} {l r : Index × ℕ} {siblings : List (Index × ℕ)} :
      Route n (i, j) siblings → j ≠ 0 → subnodesOf i j = .ok (l, r) → Route n l (siblings ++ [r])
  | right {i : Index} {j : ℕ} {l r : Index × ℕ} {siblings : List (Index × ℕ)} :
      Route n (i, j) siblings → j ≠ 0 → subnodesOf i j = .ok (l, r) → Route n r (siblings ++ [l])

/-- A node with its Merkle hash. -/
structure Node.Hashed (H : HashFn w) (v : ℕ → Bytes) (x : Index × ℕ) (node : Node w) : Prop where
  i_eq : node.i = x.1
  j_eq : node.j = x.2
  hash_eq : merkleHash H v x.1 x.2 = .ok node.hash

section Routes

variable {H : HashFn w} {v : ℕ → Bytes} {n : ℕ}

/-- There is a generation where there is a node. -/
theorem InTree.pos {x : Index × ℕ} (h : InTree n x) : 1 ≤ n := by
  induction h with
  | root hr =>
    rcases Nat.eq_zero_or_pos n with rfl | hn
    · cases hr
    · exact hn
  | left _ _ _ ih => exact ih
  | right _ _ _ ih => exact ih

/-- There is a way to every node. -/
theorem exists_route {x : Index × ℕ} (h : InTree n x) : ∃ siblings, Route n x siblings := by
  induction h with
  | root hr => exact ⟨[], .root hr⟩
  | left _ hj hs ih =>
    obtain ⟨siblings, h⟩ := ih
    exact ⟨_, .left h hj hs⟩
  | right _ hj hs ih =>
    obtain ⟨siblings, h⟩ := ih
    exact ⟨_, .right h hj hs⟩

/-- The Merkle hash of a node is that of its subtree. -/
theorem hashed_iff {t : Tree} (ht : t.LeftPerfect) (hb : t.hi < 2 ^ 64) {node : Node w} :
    node.Hashed H v t.label ↔ node = treeNode H v t := by
  have hash := merkleHash_label (H := H) (v := v) ht hb
  constructor
  · obtain ⟨i, j, nodeHash⟩ := node
    rintro ⟨hi : i = t.hi, hj : j = t.height, h : merkleHash H v t.hi t.height = .ok nodeHash⟩
    rw [hash, Except.ok.injEq] at h
    rw [treeNode, h, hi, hj]
  · rintro rfl
    exact ⟨rfl, rfl, hash⟩

/-- The nodes of a list of subtrees. -/
theorem forall₂_hashed_iff : ∀ (ts : List Tree) (branches : List (Node w)),
    (∀ t ∈ ts, t.LeftPerfect ∧ t.hi < 2 ^ 64) →
    (List.Forall₂ (Node.Hashed H v) (ts.map Tree.label) branches ↔
      branches = ts.map (treeNode H v))
  | [], branches, _ => List.forall₂_nil_left_iff
  | t :: ts, branches, h => by
    obtain ⟨h1, h2⟩ := h t List.mem_cons_self
    have hts := fun branches => forall₂_hashed_iff ts branches fun s hs =>
      h s (List.mem_cons_of_mem t hs)
    rw [List.map_cons, List.forall₂_cons_left_iff, List.map_cons]
    simp only [hashed_iff h1 h2, hts]
    constructor
    · rintro ⟨_, _, rfl, rfl, rfl⟩
      rfl
    · rintro rfl
      exact ⟨_, _, rfl, rfl, rfl⟩

/-- One branch, and the ones before it. -/
theorem foldBranch_concat {ts : List Tree} {s t u root : Tree}
    (hstep : ValuesWithBranches.foldBranch H (treeNode H v t) (treeNode H v s) =
      .ok (treeNode H v u))
    (hfold : (ts.map (treeNode H v)).reverse.foldlM (ValuesWithBranches.foldBranch H)
      (treeNode H v u) = .ok (treeNode H v root)) :
    ((ts ++ [s]).map (treeNode H v)).reverse.foldlM (ValuesWithBranches.foldBranch H)
      (treeNode H v t) = .ok (treeNode H v root) := by
  rw [List.map_append, List.map_singleton, List.reverse_concat, List.foldlM_cons, hstep, ok_bind]
  exact hfold

/-- A branch to the right of a node, and one to its left. -/
theorem foldBranch_node {l r : Tree} (h : (Tree.node l r).LeftPerfect) (hb : r.hi < 2 ^ 64) :
    ValuesWithBranches.foldBranch H (treeNode H v l) (treeNode H v r) =
        .ok (treeNode H v (.node l r)) ∧
      ValuesWithBranches.foldBranch H (treeNode H v r) (treeNode H v l) =
        .ok (treeNode H v (.node l r)) := by
  have hlt : (treeNode H v l).i < (treeNode H v r).i := h.hi_left_lt
  rw [ValuesWithBranches.foldBranch, if_pos hlt, ValuesWithBranches.foldBranch,
    if_neg (Nat.lt_asymm hlt)]
  exact ⟨parent_treeNode h hb, parent_treeNode h hb⟩

/-- **The nodes beside a way fold its end into the root**, the last one first. -/
theorem foldBranch_route (hn : 1 ≤ n) (hb : n < 2 ^ 64) {x : Index × ℕ}
    {siblings : List (Index × ℕ)} (h : Route n x siblings) :
    ∃ (t : Tree) (ts : List Tree), Tree.Sub t (Tree.upTo n) ∧ x = t.label ∧
      siblings = ts.map Tree.label ∧ (∀ s ∈ ts, Tree.Sub s (Tree.upTo n)) ∧
      (ts.map (treeNode H v)).reverse.foldlM (ValuesWithBranches.foldBranch H) (treeNode H v t) =
        .ok (treeNode H v (Tree.upTo n)) := by
  induction h with
  | root hr =>
    rw [rootOf_label hn hb, Except.ok.injEq] at hr
    exact ⟨_, [], .refl, hr.symm, rfl, fun s hs => absurd hs List.not_mem_nil, rfl⟩
  | left _ hj hs ih =>
    obtain ⟨t, ts, ht, hx, rfl, hts, hfold⟩ := ih
    obtain ⟨l, r, rfl, ⟨hl, rfl⟩, hr, rfl⟩ := children_upTo hn hb ht hx hj hs
    obtain ⟨h1, h2⟩ := sub_upTo hn hb ht
    exact ⟨l, ts ++ [r], hl, rfl,
      by rw [List.map_append, List.map_singleton],
      List.forall_mem_append.mpr ⟨hts, List.forall_mem_singleton.mpr hr⟩,
      foldBranch_concat (foldBranch_node h1 h2).1 hfold⟩
  | right _ hj hs ih =>
    obtain ⟨t, ts, ht, hx, rfl, hts, hfold⟩ := ih
    obtain ⟨l, r, rfl, ⟨hl, rfl⟩, hr, rfl⟩ := children_upTo hn hb ht hx hj hs
    obtain ⟨h1, h2⟩ := sub_upTo hn hb ht
    exact ⟨r, ts ++ [l], hr, rfl,
      by rw [List.map_append, List.map_singleton],
      List.forall_mem_append.mpr ⟨hts, List.forall_mem_singleton.mpr hl⟩,
      foldBranch_concat (foldBranch_node h1 h2).2 hfold⟩

end Routes

/-! ### The root -/

/-- The root that is computed from values and branches. -/
def reconstruct (H : HashFn w) (values : List Value) (branches : List (Node w)) :
    Result (Node w) := do
  let self ← ValuesWithBranches.new values branches
  self.root H

section Reconstruct

variable {H : HashFn w} {v : ℕ → Bytes} {t : Tree}

theorem reconstruct_leafValues (ht : t.LeftPerfect) (hb : t.hi < 2 ^ 64)
    (branches : List (Node w)) : reconstruct H (leafValues v t.lo t.hi) branches =
      branches.reverse.foldlM (ValuesWithBranches.foldBranch H) (treeNode H v t) := by
  rw [reconstruct, new_leafValues ht hb, ok_bind, root_leafValues ht hb]

end Reconstruct

/-- **The root of a generation, from the values below any of its nodes and from the nodes beside
the way to it.** It has the height of the generation and the root hash of every slate of the list.
With all of the values there is nothing beside them. -/
theorem root_reconstructed (H : HashFn w) (vs : List Bytes) (hb : vs.length < 2 ^ 64) {i : Index}
    {j : ℕ} (h : InTree vs.length (i, j)) :
    ∃ root : Node w, ceilLog2 vs.length = .ok root.j ∧
      root.Hashed H (payload vs) (vs.length, root.j) ∧
      (∀ {B : Backend w} {L : ℕ} {s : SlateOn B}, Reaches B H L vs s →
        ∃ info, s.root = some info ∧ root = ⟨info.address.i, info.address.j, info.hash⟩) ∧
      (∃ siblings, Route vs.length (i, j) siblings) ∧
      (∃ lo hi, range i j = .ok (lo, hi) ∧ ∀ siblings, Route vs.length (i, j) siblings →
        (∃ branches, List.Forall₂ (Node.Hashed H (payload vs)) siblings branches) ∧
        ∀ branches, List.Forall₂ (Node.Hashed H (payload vs)) siblings branches →
          reconstruct H (leafValues (payload vs) lo hi) branches = .ok root) ∧
      reconstruct H (leafValues (payload vs) 1 vs.length) [] = .ok root := by
  have hn := h.pos
  have hu := Tree.leftPerfect_upTo hn
  have hlo := Tree.lo_upTo hn
  have hhi := Tree.hi_upTo hn
  have hhash := (hashed_iff (H := H) (v := payload vs) hu (by rwa [hhi])).mpr rfl
  rw [Tree.label, hhi] at hhash
  refine ⟨treeNode H (payload vs) (Tree.upTo vs.length), ?_, hhash, ?_, exists_route h, ?_, ?_⟩
  · rw [ceilLog2_eq hn hb.le, ← Tree.height_upTo hn]
    rfl
  · intro B L s hs
    refine ⟨nodeInfo H (payload vs) (positionOf B.log H (payload vs)) (Tree.upTo vs.length), ?_,
      rfl⟩
    rw [hs.slateOf.root_eq, if_pos hn]
  · obtain ⟨u, hu, hx⟩ := (inTree_iff hn hb).mp h
    obtain ⟨rfl, rfl⟩ := Prod.mk.inj hx
    obtain ⟨h1, h2⟩ := sub_upTo hn hb hu
    refine ⟨u.lo, u.hi, range_label h1 h2, fun siblings hroute => ?_⟩
    obtain ⟨t, ts, ht, hx, rfl, hts, hfold⟩ :=
      foldBranch_route (H := H) (v := payload vs) hn hb hroute
    obtain ⟨h3, h4⟩ := sub_upTo hn hb ht
    obtain ⟨hxi, hxj⟩ := Prod.mk.inj hx
    obtain rfl : u = t := h1.eq_of_label h3 hxi hxj
    have hbranches := fun branches => forall₂_hashed_iff (H := H) (v := payload vs) ts branches
      fun s hs => sub_upTo hn hb (hts s hs)
    refine ⟨⟨_, (hbranches _).mpr rfl⟩, fun branches hb => ?_⟩
    rw [(hbranches branches).mp hb, reconstruct_leafValues h1 h2, hfold]
  · have hall := reconstruct_leafValues (H := H) (v := payload vs) hu (by rwa [hhi]) []
    rw [hlo, hhi] at hall
    exact hall

/-- The last three of seven values are below an ephemeral node, beside the perfect subtree of the
first four. -/
theorem root_reconstructed_seven : ∃ branch root : Node 1,
    branch.Hashed byteSum (payload [[1], [], [2, 3], [4], [5], [], [6]]) (4, 2) ∧
    root.i = 7 ∧ root.j = 3 ∧
    reconstruct byteSum [⟨5, [5]⟩, ⟨6, []⟩, ⟨7, [6]⟩] [branch] = .ok root := by
  have hroot : rootOf 7 = .ok (7, 3) := by decide
  have hsub : subnodesOf 7 3 = .ok ((4, 2), (7, 2)) := by decide
  obtain ⟨root, hj, hhash, -, -, ⟨lo, hi, hrange, h⟩, -⟩ := root_reconstructed byteSum
    [[1], [], [2, 3], [4], [5], [], [6]] (by decide) (i := 7) (j := 2)
    (.right (.root hroot) (by decide) hsub)
  obtain ⟨⟨branches, hbranches⟩, hfold⟩ := h [(4, 2)] (.right (.root hroot) (by decide) hsub)
  obtain ⟨branch, _, hb, hnil, rfl⟩ := List.forall₂_cons_left_iff.mp hbranches
  obtain rfl := List.forall₂_nil_left_iff.mp hnil
  have h57 : range 7 2 = .ok (5, 7) := by decide
  obtain ⟨rfl, rfl⟩ := Prod.mk.inj (Except.ok.inj (hrange.symm.trans h57))
  have h3 : ceilLog2 7 = .ok 3 := by decide
  exact ⟨branch, root, hb, hhash.i_eq, Except.ok.inj (hj.symm.trans h3), hfold _ hbranches⟩

end StratifiedHashTree
