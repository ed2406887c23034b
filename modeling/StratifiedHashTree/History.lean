import StratifiedHashTree.FormulaTree
import StratifiedHashTree.Merkle
import StratifiedHashTree.Slate

/-!
# Histories

What the entries of a slate *are*, said without the algorithm that writes them. Given the
payloads and the positions of all entries, the entry of an index `i` is determined
(`StratifiedHashTree.entryAt`): its inner nodes are the spine of the tree over the indices
up to `i`, and the hash of each of them is the Merkle digest of its subtree. The log of
the first `n` entries is then `StratifiedHashTree.history`, where the position of each is
the end of the log before it.

A node of any later tree is found in the entry of its last index
(`StratifiedHashTree.entryAt_metaInfo`), because its subtree sits on the spine of that
entry. This is the one fact behind every lookup, and the reason why the storage never
has to be rewritten.
-/

namespace StratifiedHashTree

open Outcome Formula FormulaTree

variable {w : ℕ}

/-- The Merkle scheme of the crate: the level is hashed in front of the bytes. -/
def scheme (H : HashFn w) : MerkleScheme Bytes (UInt8 × Bytes) (Hash w) where
  hash x := H x.1 x.2
  leafInput value := (UInt8.ofNat 0, value)
  nodeInput j left right := (UInt8.ofNat j, left.value ++ right.value)
  maxHeight := INDEX_SIZE
  leafInput_injective _ _ h := (Prod.mk.inj h).2
  nodeInput_injective := by
    rintro h h' ⟨a, ha⟩ ⟨a', ha'⟩ ⟨b, hb⟩ ⟨b', hb'⟩ hh hh' heq
    obtain ⟨h1, h2⟩ := Prod.mk.inj heq
    obtain ⟨h3, h4⟩ := List.append_inj h2 (ha.trans ha'.symm)
    have h5 := congrArg UInt8.toNat h1
    rw [UInt8.toNat_ofNat', UInt8.toNat_ofNat', Nat.mod_eq_of_lt (hh.trans_lt (by decide)),
      Nat.mod_eq_of_lt (hh'.trans_lt (by decide))] at h5
    exact ⟨h5, by simpa using h3, by simpa using h4⟩
  leafInput_ne_nodeInput := by
    intro v h a b h1 hh heq
    have h2 := congrArg UInt8.toNat (Prod.mk.inj heq).1
    rw [UInt8.toNat_ofNat', UInt8.toNat_ofNat', Nat.mod_eq_of_lt (hh.trans_lt (by decide))] at h2
    omega

section Entries

variable (H : HashFn w) (v : ℕ → Bytes) (pos : ℕ → Position)

/-- The Merkle hash of a subtree. -/
def treeHash (t : Tree) : Hash w := (scheme H).digest v t

theorem treeHash_node (l r : Tree) : treeHash H v (.node l r) =
    (treeHash H v l).combine H (Tree.node l r).height (treeHash H v r) := rfl

/-- The address of a subtree: it is in the entry of its last index. -/
def nodeAddress (t : Tree) : Address := ⟨t.hi, t.height, pos t.hi⟩

/-- The attributes of a subtree. -/
def nodeInfo (t : Tree) : MetaInfo w := ⟨nodeAddress pos t, treeHash H v t⟩

/-- The intermediate node of a pair of children. -/
def spineINode (p : Tree × Tree) : INode w :=
  { metaInfo := nodeInfo H v pos (.node p.1 p.2)
    left := nodeAddress pos p.1
    right := nodeAddress pos p.2 }

@[simp] theorem nodeAddress_i (t : Tree) : (nodeAddress pos t).i = t.hi := rfl

@[simp] theorem nodeAddress_j (t : Tree) : (nodeAddress pos t).j = t.height := rfl

@[simp] theorem nodeAddress_position (t : Tree) : (nodeAddress pos t).position = pos t.hi := rfl

@[simp] theorem nodeInfo_address (t : Tree) :
    (nodeInfo H v pos t).address = nodeAddress pos t := rfl

@[simp] theorem nodeInfo_hash (t : Tree) : (nodeInfo H v pos t).hash = treeHash H v t := rfl

@[simp] theorem spineINode_metaInfo (p : Tree × Tree) :
    (spineINode H v pos p).metaInfo = nodeInfo H v pos (.node p.1 p.2) := rfl

@[simp] theorem spineINode_left (p : Tree × Tree) :
    (spineINode H v pos p).left = nodeAddress pos p.1 := rfl

@[simp] theorem spineINode_right (p : Tree × Tree) :
    (spineINode H v pos p).right = nodeAddress pos p.2 := rfl

/-- **The entry of an index.** -/
def entryAt (i : ℕ) : Entry w :=
  { enode := { metaInfo := nodeInfo H v pos (.leaf i), payload := v i }
    inodes := ((Tree.upTo i).spine.map (spineINode H v pos)).reverse }

@[simp] theorem entryAt_index (i : ℕ) : (entryAt H v pos i).index = i := rfl

@[simp] theorem entryAt_position (i : ℕ) :
    (entryAt H v pos i).enode.metaInfo.address.position = pos i := rfl

@[simp] theorem entryAt_payload (i : ℕ) : (entryAt H v pos i).enode.payload = v i := rfl

/-- An entry depends on the payloads and positions up to its index only. -/
theorem entryAt_congr {v' : ℕ → Bytes} {pos' : ℕ → Position} {i : ℕ} (hi : 1 ≤ i)
    (hv : ∀ k, 1 ≤ k → k ≤ i → v k = v' k) (hpos : ∀ k, 1 ≤ k → k ≤ i → pos k = pos' k) :
    entryAt H v pos i = entryAt H v' pos' i := by
  have hinfo : ∀ {t : Tree}, t.LeftPerfect → t.hi ≤ i →
      nodeInfo H v pos t = nodeInfo H v' pos' t := by
    intro t ht hti
    have hhash : treeHash H v t = treeHash H v' t := by
      refine MerkleScheme.digest_congr fun k hk => ?_
      have hkr := (MerkleScheme.sub_leaf_iff ht).mp hk
      rw [MerkleScheme.leafDigest, MerkleScheme.leafDigest,
        hv k (ht.lo_pos.trans hkr.1) (hkr.2.trans hti)]
    rw [nodeInfo, nodeInfo, nodeAddress, nodeAddress, hhash, hpos _ ht.hi_pos hti]
  have hspine : (Tree.upTo i).spine.map (spineINode H v pos) =
      (Tree.upTo i).spine.map (spineINode H v' pos') := by
    refine List.map_congr_left fun p hp => ?_
    obtain ⟨h1, h2, -, -⟩ := (Tree.leftPerfect_upTo hi).of_mem_spine hp
    rw [Tree.hi_upTo hi] at h2
    have h3 := h1.hi_left_lt
    have h4 := h1.right.hi_pos
    have h5 := h1.left.hi_pos
    rw [spineINode, spineINode, hinfo h1 h2.le, nodeAddress, nodeAddress, nodeAddress, nodeAddress,
      hpos _ h5 (h3.le.trans h2.le), hpos _ h4 h2.le]
  rw [entryAt, entryAt, hspine, hinfo (.leaf hi) (Nat.le_refl i), hv i hi (Nat.le_refl i)]

/-! ### The nodes of an entry -/

/-- Where a node is among the nodes of the entry of its last index. -/
theorem entryAt_inodes_split {l r : Tree} (h : (Tree.node l r).LeftPerfect) :
    ∃ zs, (entryAt H v pos r.hi).inodes =
      (r.spine.map (spineINode H v pos)).reverse ++ spineINode H v pos (l, r) :: zs := by
  obtain ⟨ys, hys⟩ := h.spine_suffix_upTo
  refine ⟨(ys.map (spineINode H v pos)).reverse, ?_⟩
  rw [Tree.hi_node, Tree.spine_node] at hys
  rw [entryAt, ← hys, List.map_append, List.reverse_append, List.map_cons, List.reverse_cons,
    List.append_assoc]
  rfl

variable {H v pos}

/-- The nodes below a node are lower. -/
theorem height_of_mem_spine {l r : Tree} (h : (Tree.node l r).LeftPerfect) {inode : INode w}
    (hmem : inode ∈ (r.spine.map (spineINode H v pos)).reverse) :
    inode.metaInfo.address.j < (Tree.node l r).height := by
  rw [List.mem_reverse, List.mem_map] at hmem
  obtain ⟨p, hp, rfl⟩ := hmem
  exact (h.right.of_mem_spine hp).2.2.2.trans_lt (Tree.height_right_lt l r)

/-- The node of a height, by its number in the entry. -/
theorem entryAt_getElem? {l r : Tree} (h : (Tree.node l r).LeftPerfect) :
    (entryAt H v pos r.hi).inodes[r.spine.length]? = some (spineINode H v pos (l, r)) := by
  obtain ⟨zs, hzs⟩ := entryAt_inodes_split H v pos h
  rw [hzs, List.getElem?_append_right (by simp)]
  simp

/-- The number of the node of a height in the entry. -/
theorem entryAt_findIdx? {l r : Tree} (h : (Tree.node l r).LeftPerfect) :
    (entryAt H v pos r.hi).inodes.findIdx?
      (fun inode => inode.metaInfo.address.j = (Tree.node l r).height) = some r.spine.length := by
  obtain ⟨zs, hzs⟩ := entryAt_inodes_split H v pos h
  have hlow : (r.spine.map (spineINode H v pos)).reverse.findIdx?
      (fun inode => inode.metaInfo.address.j = (Tree.node l r).height) = none := by
    rw [List.findIdx?_eq_none_iff]
    intro inode hmem
    exact decide_eq_false (height_of_mem_spine h hmem).ne
  rw [hzs, List.findIdx?_append, hlow, List.findIdx?_cons]
  simp [spineINode, nodeInfo, nodeAddress]

/-- **A node is found in the entry of its last index**, by its height. -/
theorem entryAt_metaInfo {t : Tree} (h : t.LeftPerfect) :
    (entryAt H v pos t.hi).metaInfo t.height = some (nodeInfo H v pos t) := by
  cases t with
  | leaf k => rfl
  | node l r =>
    obtain ⟨zs, hzs⟩ := entryAt_inodes_split H v pos h
    have hlow : (r.spine.map (spineINode H v pos)).reverse.find?
        (fun inode => inode.metaInfo.address.j = (Tree.node l r).height) = none := by
      rw [List.find?_eq_none]
      intro inode hmem hcon
      exact (height_of_mem_spine h hmem).ne (of_decide_eq_true hcon)
    have hpos : (Tree.node l r).height ≠ 0 := by
      rw [Tree.height_node]
      omega
    rw [Entry.metaInfo, if_neg hpos, Entry.inode, Tree.hi_node, hzs, List.find?_append, hlow,
      Option.none_or, List.find?_cons_of_pos (by simp [spineINode, nodeInfo, nodeAddress])]
    rfl

/-- The root of an entry is the root of its tree. -/
theorem entryAt_root {i : ℕ} (hi : 1 ≤ i) :
    (entryAt H v pos i).root = nodeInfo H v pos (Tree.upTo i) := by
  rw [Entry.root, entryAt]
  simp only [List.getLast?_reverse]
  cases hu : Tree.upTo i with
  | leaf k =>
    have h1 := Tree.hi_upTo hi
    rw [hu, Tree.hi_leaf] at h1
    rw [h1]
    rfl
  | node l r => rfl

/-- The height and the hash of the root that an append returns. -/
theorem rootOfNodes_entryAt {i : ℕ} (hi : 1 ≤ i) :
    Slate.rootOfNodes (entryAt H v pos i).enode (entryAt H v pos i).inodes =
      ((Tree.upTo i).height, treeHash H v (Tree.upTo i)) := by
  rw [Slate.rootOfNodes, entryAt]
  simp only [List.getLast?_reverse]
  cases hu : Tree.upTo i with
  | leaf k =>
    have h1 := Tree.hi_upTo hi
    rw [hu, Tree.hi_leaf] at h1
    rw [h1]
    rfl
  | node l r => rfl

/-- The nodes of an entry come in increasing height. -/
theorem spine_heights {t : Tree} (h : t.LeftPerfect) :
    ((t.spine.map (spineINode H v pos)).reverse.map fun inode =>
      inode.metaInfo.address.j).Pairwise (· < ·) := by
  induction h with
  | leaf => exact List.Pairwise.nil
  | @node l r hl hr hp hle ha hd _ ihr =>
    have hlr : (Tree.node l r).LeftPerfect := .node hl hr hp hle ha hd
    rw [Tree.spine_node, List.map_cons, List.reverse_cons, List.map_append, List.pairwise_append]
    refine ⟨ihr, List.pairwise_singleton _ _, fun a ha b hb => ?_⟩
    obtain ⟨inode, hmem, rfl⟩ := List.mem_map.mp ha
    rw [List.map_singleton, List.mem_singleton] at hb
    rw [hb]
    exact height_of_mem_spine hlr hmem

/-! ### Placed entries -/

variable (H v pos) in
/-- The nodes of an entry are chained. -/
theorem chained_spine {t : Tree} (h : t.LeftPerfect) (hb : t.hi < 2 ^ 64)
    (hpos : ∀ k, 1 ≤ k → k ≤ t.hi → pos k < 2 ^ 64) :
    ∀ zs, Chained t.hi (pos t.hi) t.height zs →
      Chained t.hi (pos t.hi) 0 ((t.spine.map (spineINode H v pos)).reverse ++ zs) := by
  induction h with
  | leaf => exact fun zs hzs => hzs
  | @node l r hl hr hp hle ha hd _ ihr =>
    intro zs hzs
    have hlr : (Tree.node l r).LeftPerfect := .node hl hr hp hle ha hd
    have h64 := height_le_64 hlr hb
    have hll := Tree.height_left_lt l r
    have hlt := hlr.hi_left_lt
    rw [Tree.hi_node] at hb hpos
    have hlp := hpos l.hi hl.hi_pos hlt.le
    rw [Tree.spine_node, List.map_cons, List.reverse_cons, List.append_assoc, List.singleton_append]
    refine ihr hb hpos _ ⟨rfl, ?_, h64, hlp, hlt.trans hb, ?_, rfl, hzs⟩
    · show 1 ≤ (Tree.node l r).height
      omega
    · show l.height < 2 ^ 8
      omega

/-- A spine is no longer than its tree is high. -/
theorem length_spine_le : ∀ t : Tree, t.spine.length ≤ t.height
  | .leaf _ => Nat.le_refl _
  | .node l r => by
    rw [Tree.spine_node, List.length_cons]
    exact Nat.succ_le_of_lt ((length_spine_le r).trans_lt (Tree.height_right_lt l r))

/-- **An entry is placed** at its position. -/
theorem entryAt_placed {i : ℕ} (hi : 1 ≤ i) (hb : i < 2 ^ 64)
    (hv : (v i).length ≤ MAX_PAYLOAD_SIZE) (hpos : ∀ k, 1 ≤ k → k ≤ i → pos k < 2 ^ 64) :
    (entryAt H v pos i).Placed (pos i) where
  index_lt := hb
  position_lt := hpos i hi (Nat.le_refl i)
  address_eq := rfl
  payload_le := hv
  inodes_le := by
    have h1 := height_le_64 (Tree.leftPerfect_upTo hi) (by rwa [Tree.hi_upTo hi])
    rw [entryAt, List.length_reverse, List.length_map]
    exact (length_spine_le _).trans h1
  chained := by
    have h1 := Tree.hi_upTo hi
    have h2 := chained_spine H v pos (Tree.leftPerfect_upTo hi)
      (by rwa [h1]) (by rwa [h1]) [] trivial
    rwa [List.append_nil, h1] at h2

end Entries

/-! ### The log -/

section Log

variable (S : LogStorage (Entry w) Entry.Placed) (H : HashFn w) (v : ℕ → Bytes)

/-- **The log of the first entries**: the position of an entry is the end of the log
before it. -/
def history : ℕ → List (Entry w)
  | 0 => []
  | n + 1 => history n ++ [entryAt H v (fun k => S.endPos ((history n).take (k - 1))) (n + 1)]

/-- The position of an entry. -/
def positionOf (k : ℕ) : Position := S.endPos (history S H v (k - 1))

/-- The entry of an index, at its position. -/
abbrev entryOf (i : ℕ) : Entry w := entryAt H v (positionOf S H v) i

@[simp] theorem length_history (n : ℕ) : (history S H v n).length = n := by
  induction n with
  | zero => rfl
  | succ n ih => rw [history, List.length_append, ih, List.length_singleton]

theorem take_history {k n : ℕ} (h : k ≤ n) : (history S H v n).take k = history S H v k := by
  induction n with
  | zero =>
    obtain rfl : k = 0 := Nat.le_zero.mp h
    rfl
  | succ n ih =>
    rcases h.eq_or_lt with rfl | hlt
    · exact List.take_of_length_le (length_history S H v _).le
    · have hk : k ≤ n := Nat.lt_succ_iff.mp hlt
      rw [history, List.take_append_of_le_length (by rwa [length_history]), ih hk]

theorem history_succ (n : ℕ) :
    history S H v (n + 1) = history S H v n ++ [entryOf S H v (n + 1)] := by
  rw [history]
  refine congrArg (fun e => history S H v n ++ [e]) ?_
  refine entryAt_congr H v _ (Nat.le_add_left 1 n) (fun k _ _ => rfl) fun k hk1 hk2 => ?_
  rw [positionOf, take_history S H v (by omega)]

theorem history_getElem {k n : ℕ} (h : k < (history S H v n).length) :
    (history S H v n)[k] = entryOf S H v (k + 1) := by
  have hk : k < n := by rwa [length_history] at h
  have h1 : (history S H v n)[k]? = some (entryOf S H v (k + 1)) := by
    rw [← List.getElem?_take_of_lt (Nat.lt_succ_self k), take_history S H v hk, history_succ,
      List.getElem?_append_right (by rw [length_history])]
    simp
  exact (List.getElem?_eq_some_iff.mp h1).2

theorem getLast?_history (n : ℕ) :
    (history S H v (n + 1)).getLast? = some (entryOf S H v (n + 1)) := by
  rw [history_succ, List.getLast?_concat]

variable {S H v}

/-- The log depends on its own payloads only. -/
theorem history_congr {v' : ℕ → Bytes} {n : ℕ} (h : ∀ k, 1 ≤ k → k ≤ n → v k = v' k) :
    history S H v n = history S H v' n := by
  induction n with
  | zero => rfl
  | succ n ih =>
    rw [history, history, ih fun k h1 h2 => h k h1 (by omega)]
    refine congrArg (fun e => history S H v' n ++ [e]) ?_
    exact entryAt_congr H v _ (Nat.le_add_left 1 n) (fun k h1 h2 => h k h1 h2) fun _ _ _ => rfl

/-- **Where the entries lie** is all that a history owes to its storage. -/
theorem history_eq_of_endPos (S S' : LogStorage (Entry w) Entry.Placed)
    (h : ∀ log, S.endPos log = S'.endPos log) (n : ℕ) : history S H v n = history S' H v n := by
  induction n with
  | zero => rfl
  | succ n ih => simp only [history, ih, h]

theorem positionOf_congr {v' : ℕ → Bytes} {n : ℕ} (h : ∀ k, 1 ≤ k → k ≤ n → v k = v' k)
    {k : ℕ} (hk : k ≤ n + 1) : positionOf S H v k = positionOf S H v' k := by
  rw [positionOf, positionOf, history_congr fun i h1 h2 => h i h1 (by omega)]

/-- A log that fits and whose payloads are not too large. -/
structure Fits (S : LogStorage (Entry w) Entry.Placed) (H : HashFn w) (v : ℕ → Bytes) (n : ℕ) :
    Prop where
  room : S.Room (history S H v n)
  payload_le : ∀ k, 1 ≤ k → k ≤ n → (v k).length ≤ MAX_PAYLOAD_SIZE

theorem Fits.mono {k n : ℕ} (h : Fits S H v n) (hk : k ≤ n) : Fits S H v k where
  room := by
    have h1 := S.room_take k h.room
    rwa [take_history S H v hk] at h1
  payload_le i h1 h2 := h.payload_le i h1 (h2.trans hk)

theorem Fits.congr {v' : ℕ → Bytes} {n : ℕ} (h : Fits S H v n)
    (heq : ∀ k, 1 ≤ k → k ≤ n → v k = v' k) : Fits S H v' n where
  room := by
    rw [← history_congr heq]
    exact h.room
  payload_le i h1 h2 := by
    rw [← heq i h1 h2]
    exact h.payload_le i h1 h2

theorem Fits.lt {n : ℕ} (h : Fits S H v n) : n + 1 < 2 ^ 64 := by
  have h1 := S.room_length h.room
  rwa [length_history] at h1

theorem Fits.position_lt {k n : ℕ} (h : Fits S H v n) (hk : k ≤ n + 1) :
    positionOf S H v k < 2 ^ 64 := S.endPos_lt (h.mono (by omega : k - 1 ≤ n)).room

/-- Every entry of a log that fits is placed; so is the next one. -/
theorem Fits.placed {i n : ℕ} (h : Fits S H v n) (h1 : 1 ≤ i) (hi : i ≤ n + 1)
    (hv : (v i).length ≤ MAX_PAYLOAD_SIZE) :
    (entryOf S H v i).Placed (positionOf S H v i) :=
  entryAt_placed h1 (by have := h.lt; omega) hv fun _ _ hk => h.position_lt (hk.trans hi)

theorem Fits.laid {n : ℕ} (h : Fits S H v n) : S.Laid (history S H v n) := by
  intro k hk
  have hkn : k < n := by rwa [length_history] at hk
  rw [take_history S H v hkn.le, history_getElem]
  exact h.placed (Nat.le_add_left 1 k) (by omega) (h.payload_le _ (Nat.le_add_left 1 k) hkn)

/-- Reading at the position of an entry gives the entry. -/
theorem Fits.read {i n : ℕ} (h : Fits S H v n) (h1 : 1 ≤ i) (hi : i ≤ n) :
    S.read (positionOf S H v i) (S.render (history S H v n)) =
      (.ok (entryOf S H v i), S.render (history S H v n)) := by
  have hk : i - 1 < (history S H v n).length := by
    rw [length_history]
    omega
  have h2 := S.read_render hk h.room h.laid
  rw [take_history S H v (by omega), history_getElem, Nat.sub_add_cancel h1] at h2
  exact h2

end Log

end StratifiedHashTree
