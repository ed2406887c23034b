import StratifiedHashTree.Backend
import StratifiedHashTree.Unfold

/-!
# What appending builds

`StratifiedHashTree.Slate.append` works bottom-up, from the leaf to the root, on the
perfect subtrees that the cache remembers. What comes out is described here top-down: the
entry of an index has the nodes of that index in the tree that the formulas unfold
(`StratifiedHashTree.Generated`), with the Merkle hashes of their subtrees and with links
to where the entries below were put.
-/

namespace StratifiedHashTree

open Outcome Formula FormulaTree

variable {w : ℕ}

/-- An intermediate node is the node `b_{i,j}` of the generation `i`: its hash is the Merkle
hash, combined from those of its children, and its branches lead to where these are. -/
structure GeneratedINode (H : HashFn w) (v : ℕ → Bytes) (positions : ℕ → Position) (i : Index)
    (inode : INode w) (j : ℕ) (l r : Index × ℕ) : Prop where
  children : subnodesOf i j = .ok (l, r)
  address_eq : inode.metaInfo.address = ⟨i, j, positions i⟩
  merkle : merkleHash H v i j = .ok inode.metaInfo.hash
  combined : ∃ left right, merkleHash H v l.1 l.2 = .ok left ∧ merkleHash H v r.1 r.2 = .ok right ∧
    inode.metaInfo.hash = left.combine H j right
  left_eq : inode.left = ⟨l.1, l.2, positions l.1⟩
  right_eq : inode.right = ⟨r.1, r.2, positions i⟩

/-- **The entry of an index**, in terms of the formulas: the leaf, and one node for every
intermediate node of the index in the tree of its generation, in increasing height. -/
structure Generated (H : HashFn w) (v : ℕ → Bytes) (positions : ℕ → Position) (i : Index)
    (e : Entry w) : Prop where
  enode_eq : e.enode =
    { metaInfo := { address := ⟨i, 0, positions i⟩, hash := Hash.fromBytes H 0 (v i) }
      payload := v i }
  increasing : (e.inodes.map fun inode => inode.metaInfo.address.j).Pairwise (· < ·)
  complete : ∀ j, j ≠ 0 → InTree i (i, j) →
    ∃ inode ∈ e.inodes, ∃ l r, GeneratedINode H v positions i inode j l r
  sound : ∀ inode ∈ e.inodes, ∃ j l r, j ≠ 0 ∧ InTree i (i, j) ∧
    GeneratedINode H v positions i inode j l r

/-- The root that an append returns is the root of the generation. -/
def GeneratedRoot (H : HashFn w) (v : ℕ → Bytes) (positions : ℕ → Position) (i : Index)
    (info : MetaInfo w) : Prop :=
  ∃ j, ceilLog2 i = .ok j ∧ info.address = ⟨i, j, positions i⟩ ∧
    merkleHash H v i j = .ok info.hash

/-- The position at which the entry of an index was put. -/
def putPosition (puts : List (Position × MetaInfo w)) (i : Index) : Position :=
  (puts.map Prod.fst).getD (i - 1) 0

/-- What a slate is after its payloads were appended. -/
structure BuiltTree (B : Backend w) (H : HashFn w) (vs : List Bytes) (s : SlateOn B)
    (puts : List (Position × MetaInfo w)) : Prop where
  length_puts : puts.length = vs.length
  n_eq : s.n = vs.length
  root_eq : s.root = puts.getLast?.map Prod.snd
  returned : ∀ i, 1 ≤ i → i ≤ vs.length → ∃ put, puts[i - 1]? = some put ∧
    GeneratedRoot H (payload vs) (putPosition puts) i put.2
  stored : ∀ i, 1 ≤ i → i ≤ vs.length → ∃ e,
    B.log.read (putPosition puts i) s.storage = (.ok e, s.storage) ∧
      Generated H (payload vs) (putPosition puts) i e

/-! ### Entries -/

section Entries

variable {H : HashFn w} {v : ℕ → Bytes} {pos : ℕ → Position} {i : ℕ}

/-- A pair of the spine is a node of the formulas. -/
theorem generatedINode_of_mem_spine (hi : 1 ≤ i) (hb : i < 2 ^ 64) {p : Tree × Tree}
    (hp : p ∈ (Tree.upTo i).spine) : InTree i (i, (Tree.node p.1 p.2).height) ∧
      GeneratedINode H v pos i (spineINode H v pos p) (Tree.node p.1 p.2).height
        p.1.label p.2.label := by
  obtain ⟨hsub, hhi⟩ := (Tree.leftPerfect_upTo hi).mem_spine_iff.mp hp
  rw [Tree.hi_upTo hi] at hhi
  obtain ⟨h1, h2⟩ := sub_upTo hi hb hsub
  have hin : InTree i (i, (Tree.node p.1 p.2).height) :=
    (inTree_iff hi hb).mpr ⟨_, hsub, by rw [Tree.label, Tree.hi_node, hhi]⟩
  have hchildren : subnodesOf i (Tree.node p.1 p.2).height = .ok (p.1.label, p.2.label) := by
    rw [← hhi]
    exact subnodesOf_label h1 h2
  have hmerkle : merkleHash H v i (Tree.node p.1 p.2).height =
      .ok (treeHash H v (.node p.1 p.2)) := by
    rw [← hhi]
    exact merkleHash_label h1 h2
  obtain ⟨a, b, ha, hb', hab⟩ := merkleHash_node (H := H) (v := v) hi hb hin label_node_ne hchildren
  refine ⟨hin, hchildren, ?_, hmerkle, ⟨a, b, ha, hb', ?_⟩, rfl, ?_⟩
  · rw [spineINode_metaInfo, nodeInfo_address, nodeAddress, Tree.hi_node, hhi]
  · rw [hmerkle, Except.ok.injEq] at hab
    exact hab
  · rw [spineINode_right, nodeAddress, Tree.label, hhi]

/-- **The entry of an index in the tree is the one of the formulas.** -/
theorem entryAt_generated (hi : 1 ≤ i) (hb : i < 2 ^ 64) :
    Generated H v pos i (entryAt H v pos i) where
  enode_eq := rfl
  increasing := spine_heights (Tree.leftPerfect_upTo hi)
  complete := by
    intro j hj hin
    obtain ⟨t, ht, hx⟩ := (inTree_iff hi hb).mp hin
    obtain ⟨h1, rfl⟩ := Prod.mk.inj hx
    cases t with
    | leaf k => exact absurd rfl hj
    | node l r =>
      have hmem : (l, r) ∈ (Tree.upTo i).spine := by
        refine (Tree.leftPerfect_upTo hi).mem_spine_iff.mpr ⟨ht, ?_⟩
        rw [Tree.hi_upTo hi]
        exact h1.symm
      exact ⟨spineINode H v pos (l, r), List.mem_reverse.mpr (List.mem_map_of_mem hmem), _, _,
        (generatedINode_of_mem_spine hi hb hmem).2⟩
  sound := by
    intro inode hmem
    rw [entryAt, List.mem_reverse, List.mem_map] at hmem
    obtain ⟨p, hp, rfl⟩ := hmem
    have hnode : InTree i (i, _) ∧ GeneratedINode H v pos i (spineINode H v pos p) _ _ _ :=
      generatedINode_of_mem_spine hi hb hp
    exact ⟨_, _, _, label_node_ne, hnode⟩

/-- The root of a generation in the tree is the one of the formulas. -/
theorem nodeInfo_generatedRoot (hi : 1 ≤ i) (hb : i < 2 ^ 64) :
    GeneratedRoot H v pos i (nodeInfo H v pos (Tree.upTo i)) := by
  refine ⟨(Tree.upTo i).height, ?_, ?_, ?_⟩
  · rw [ceilLog2_eq hi hb.le, Tree.height_upTo hi]
  · rw [nodeInfo_address, nodeAddress, Tree.hi_upTo hi]
  · have h1 := merkleHash_label (H := H) (v := v) (Tree.leftPerfect_upTo hi)
      (by rwa [Tree.hi_upTo hi])
    rwa [Tree.hi_upTo hi] at h1

end Entries

/-! ### Slates -/

section Slates

variable {B : Backend w} {H : HashFn w} {L : ℕ} {vs : List Bytes} {s : SlateOn B}
  {puts : List (Position × MetaInfo w)}

/-- The positions of the puts are the positions of the log. -/
theorem putPosition_eq (h : build B H L vs = .ok (s, puts)) {i : ℕ} (h1 : 1 ≤ i)
    (h2 : i ≤ vs.length) : putPosition puts i = positionOf B.log H (payload vs) i := by
  rw [(of_build h).2, putPosition, List.map_map, List.getD_eq_getElem?_getD, List.getElem?_map,
    List.getElem?_range (by omega)]
  simp only [Option.map_some, Option.getD_some, Function.comp_apply, putOf, Nat.sub_add_cancel h1]

/-- A node is the same for positions that agree. -/
theorem nodeInfo_eq_of_build (h : build B H L vs = .ok (s, puts)) {i : ℕ} (h1 : 1 ≤ i)
    (h2 : i ≤ vs.length) :
    nodeInfo H (payload vs) (positionOf B.log H (payload vs)) (Tree.upTo i) =
      nodeInfo H (payload vs) (putPosition puts) (Tree.upTo i) := by
  rw [nodeInfo, nodeInfo, nodeAddress, nodeAddress, Tree.hi_upTo h1, putPosition_eq h h1 h2]

theorem builtTree_of_build (h : build B H L vs = .ok (s, puts)) : BuiltTree B H vs s puts := by
  obtain ⟨hs, hputs⟩ := of_build h
  have hget : ∀ i, 1 ≤ i → i ≤ vs.length →
      puts[i - 1]? = some (putOf B.log H (payload vs) i) := by
    intro i h1 h2
    rw [hputs, List.getElem?_map, List.getElem?_range (by omega), Option.map_some,
      Nat.sub_add_cancel h1]
  have hlen : puts.length = vs.length := by rw [hputs, List.length_map, List.length_range]
  have hb := hs.lt
  refine ⟨hlen, hs.n_eq, ?_, fun i h1 h2 => ?_, fun i h1 h2 => ?_⟩
  · rw [hs.root_eq, List.getLast?_eq_getElem?, hlen]
    by_cases hn : 1 ≤ vs.length
    · rw [if_pos hn, hget _ hn (Nat.le_refl _)]
      rfl
    · rw [if_neg hn, hputs, show vs.length = 0 by omega]
      rfl
  · refine ⟨_, hget i h1 h2, ?_⟩
    rw [putOf, nodeInfo_eq_of_build h h1 h2]
    exact nodeInfo_generatedRoot h1 (by omega)
  · refine ⟨entryOf B.log H (payload vs) i, ?_, ?_⟩
    · rw [putPosition_eq h h1 h2, hs.storage_eq]
      exact hs.fits.read h1 h2
    · have heq : entryOf B.log H (payload vs) i = entryAt H (payload vs) (putPosition puts) i :=
        entryAt_congr H _ _ h1 (fun _ _ _ => rfl) fun k hk1 hk2 =>
          (putPosition_eq h hk1 (hk2.trans h2)).symm
      rw [heq]
      exact entryAt_generated h1 (by omega)

/-- **Appending builds the tree.** Payloads that fit can be appended, others cannot; and
after they were, every stored entry is the leaf of its payload with one node for each
intermediate node of its index, and the roots returned on the way are the roots of the
generations. -/
theorem build_builtTree (B : Backend w) (H : HashFn w) (L : ℕ) (vs : List Bytes) :
    ((∃ r, build B H L vs = .ok r) ↔ B.Holds H vs) ∧
      ∀ (s : SlateOn B) (puts : List (Position × MetaInfo w)),
        build B H L vs = .ok (s, puts) → BuiltTree B H vs s puts := by
  refine ⟨⟨fun ⟨_, hr⟩ => holds_of_build hr, fun h => ?_⟩, fun _ _ h => builtTree_of_build h⟩
  obtain ⟨s, hs, -⟩ := build_ok L h
  exact ⟨_, hs⟩

/-- Three payloads in a block storage. -/
theorem build_builtTree_three :
    ∃ s puts, BuiltTree tinyBlock byteSum [[1], [], [2, 3]] s puts := by
  obtain ⟨⟨s, puts⟩, h⟩ := (build_builtTree tinyBlock byteSum 2 [[1], [], [2, 3]]).1.mpr
    (holds_of_length_lt _ (by decide) (by decide))
  exact ⟨s, puts, (build_builtTree _ byteSum 2 [[1], [], [2, 3]]).2 s puts h⟩

end Slates

end StratifiedHashTree
