import StratifiedHashTree.History

/-!
# The tree that the formulas unfold

What a node of a generation is, in the words of the crate: the tree starts at
`rootOf n` and goes on with the two children that `subnodesOf` names
(`StratifiedHashTree.InTree`); the way to a leaf goes through the nodes that `contains`
accepts (`StratifiedHashTree.OnPath`), and what hangs off it are its siblings
(`StratifiedHashTree.IsSibling`). The Merkle hash is defined by the same recursion
(`StratifiedHashTree.merkleHash`).

These are the notions the statements about a slate are made in. Here they are identified
with the subtrees of `StratifiedHashTree.Tree.upTo`, where the proofs take place.
-/

namespace StratifiedHashTree

open Outcome Formula FormulaTree

variable {w : ℕ}

/-- `b_{i,j}` is a node of the generation `n`. -/
inductive InTree (n : Index) : Index × ℕ → Prop
  | root {x : Index × ℕ} : rootOf n = .ok x → InTree n x
  | left {i : Index} {j : ℕ} {l r : Index × ℕ} : InTree n (i, j) → j ≠ 0 →
      subnodesOf i j = .ok (l, r) → InTree n l
  | right {i : Index} {j : ℕ} {l r : Index × ℕ} : InTree n (i, j) → j ≠ 0 →
      subnodesOf i j = .ok (l, r) → InTree n r

/-- `b_{i,j}` is on the way from the root of the generation `n` to the leaf `b_{k,0}`. -/
inductive OnPath (n k : Index) : Index × ℕ → Prop
  | root {x : Index × ℕ} : rootOf n = .ok x → OnPath n k x
  | left {i : Index} {j : ℕ} {l r : Index × ℕ} : OnPath n k (i, j) → j ≠ 0 →
      subnodesOf i j = .ok (l, r) → contains l.1 l.2 k = .ok true → OnPath n k l
  | right {i : Index} {j : ℕ} {l r : Index × ℕ} : OnPath n k (i, j) → j ≠ 0 →
      subnodesOf i j = .ok (l, r) → contains r.1 r.2 k = .ok true → OnPath n k r

/-- A node that hangs off the way to the leaf `b_{k,0}`. -/
def IsSibling (n k : Index) (x : Index × ℕ) : Prop :=
  ∃ i j l r, OnPath n k (i, j) ∧ j ≠ 0 ∧ subnodesOf i j = .ok (l, r) ∧
    (contains l.1 l.2 k = .ok true ∧ x = r ∨ contains r.1 r.2 k = .ok true ∧ x = l)

/-- The Merkle hash of a node, within a step bound. -/
def merkleHashFrom (H : HashFn w) (v : ℕ → Bytes) : ℕ → Index → ℕ → Result (Hash w)
  | 0, _, _ => .error .outOfFuel
  | fuel + 1, i, j =>
    if j = 0 then
      .ok (Hash.fromBytes H 0 (v i))
    else do
      let (l, r) ← subnodesOf i j
      let left ← merkleHashFrom H v fuel l.1 l.2
      let right ← merkleHashFrom H v fuel r.1 r.2
      return left.combine H j right

/-- **The Merkle hash of the node `b_{i,j}`** over payloads: the hash of the payload at a
leaf, and the combined hashes of the two children above. -/
def merkleHash (H : HashFn w) (v : ℕ → Bytes) (i : Index) (j : ℕ) : Result (Hash w) :=
  merkleHashFrom H v (j + 1) i j

/-! ### Subtrees -/

section Subtrees

variable {n k : ℕ}

theorem label_node_ne {l r : Tree} : (Tree.node l r).height ≠ 0 := by
  rw [Tree.height_node]
  omega

/-- The children of a node, by their labels. -/
theorem subnodesOf_label {l r : Tree} (h : (Tree.node l r).LeftPerfect) (hb : r.hi < 2 ^ 64) :
    subnodesOf (Tree.node l r).hi (Tree.node l r).height = .ok (l.label, r.label) :=
  subnodesOf_node h hb

/-- A node whose children are named is an inner node with these children. -/
theorem eq_of_subnodesOf {t : Tree} (h : t.LeftPerfect) (hb : t.hi < 2 ^ 64) (hj : t.height ≠ 0)
    {x y : Index × ℕ} (hs : subnodesOf t.hi t.height = .ok (x, y)) :
    ∃ l r, t = .node l r ∧ x = l.label ∧ y = r.label := by
  cases t with
  | leaf k => exact absurd rfl hj
  | node l r =>
    rw [subnodesOf_label h hb, Except.ok.injEq, Prod.mk.injEq] at hs
    exact ⟨l, r, rfl, hs.1.symm, hs.2.symm⟩

theorem contains_iff {t : Tree} (h : t.LeftPerfect) (hb : t.hi < 2 ^ 64) :
    contains t.label.1 t.label.2 k = .ok true ↔ t.lo ≤ k ∧ k ≤ t.hi := by
  rw [show contains t.label.1 t.label.2 k = _ from contains_label h hb k, Except.ok.injEq,
    decide_eq_true_iff]

variable (hn : 1 ≤ n) (hb : n < 2 ^ 64)

include hn hb

theorem rootOf_label : rootOf n = .ok (Tree.upTo n).label := by
  rw [rootOf_eq hn hb, Tree.label, Tree.hi_upTo hn]

theorem sub_upTo {t : Tree} (ht : Tree.Sub t (Tree.upTo n)) : t.LeftPerfect ∧ t.hi < 2 ^ 64 := by
  have h1 := ht.hi_le (Tree.leftPerfect_upTo hn)
  rw [Tree.hi_upTo hn] at h1
  exact ⟨ht.leftPerfect (Tree.leftPerfect_upTo hn), h1.trans_lt hb⟩

/-- The children of a node of a generation are nodes of the generation. -/
theorem children_upTo {t : Tree} (ht : Tree.Sub t (Tree.upTo n)) {i : Index} {j : ℕ}
    (hx : (i, j) = t.label) (hj : j ≠ 0) {x y : Index × ℕ} (hs : subnodesOf i j = .ok (x, y)) :
    ∃ l r, t = .node l r ∧ (Tree.Sub l (Tree.upTo n) ∧ x = l.label) ∧
      Tree.Sub r (Tree.upTo n) ∧ y = r.label := by
  obtain ⟨rfl, rfl⟩ := Prod.mk.inj hx
  obtain ⟨h1, h2⟩ := sub_upTo hn hb ht
  obtain ⟨l, r, rfl, hl, hr⟩ := eq_of_subnodesOf h1 h2 hj hs
  exact ⟨l, r, rfl, ⟨Tree.Sub.trans (.left .refl) ht, hl⟩, Tree.Sub.trans (.right .refl) ht, hr⟩

/-- **The nodes of a generation are the subtrees of its tree.** -/
theorem inTree_iff {x : Index × ℕ} :
    InTree n x ↔ ∃ t, Tree.Sub t (Tree.upTo n) ∧ x = t.label := by
  constructor
  · intro h
    induction h with
    | root hr =>
      rw [rootOf_label hn hb, Except.ok.injEq] at hr
      exact ⟨_, .refl, hr.symm⟩
    | left _ hj hs ih =>
      obtain ⟨t, ht, hx⟩ := ih
      obtain ⟨l, r, -, ⟨hl, rfl⟩, -⟩ := children_upTo hn hb ht hx hj hs
      exact ⟨l, hl, rfl⟩
    | right _ hj hs ih =>
      obtain ⟨t, ht, hx⟩ := ih
      obtain ⟨l, r, -, -, hr, rfl⟩ := children_upTo hn hb ht hx hj hs
      exact ⟨r, hr, rfl⟩
  · rintro ⟨t, ht, rfl⟩
    -- from the root downwards
    have key : ∀ u : Tree, Tree.Sub u (Tree.upTo n) → InTree n u.label → Tree.Sub t u →
        InTree n t.label := by
      intro u hu hin hsub
      induction hsub with
      | refl => exact hin
      | @left l r _ ih =>
        obtain ⟨h1, h2⟩ := sub_upTo hn hb hu
        exact ih (Tree.Sub.trans (.left .refl) hu)
          (.left hin label_node_ne (subnodesOf_label h1 h2))
      | @right l r _ ih =>
        obtain ⟨h1, h2⟩ := sub_upTo hn hb hu
        exact ih (Tree.Sub.trans (.right .refl) hu)
          (.right hin label_node_ne (subnodesOf_label h1 h2))
    exact key _ .refl (.root (rootOf_label hn hb)) ht

/-- **The way to a leaf** goes through the subtrees that contain it. -/
theorem onPath_iff (h1 : 1 ≤ k) (h2 : k ≤ n) {x : Index × ℕ} :
    OnPath n k x ↔ ∃ t, Tree.Sub t (Tree.upTo n) ∧ (t.lo ≤ k ∧ k ≤ t.hi) ∧ x = t.label := by
  have hrange : (Tree.upTo n).lo ≤ k ∧ k ≤ (Tree.upTo n).hi := by
    rw [Tree.lo_upTo hn, Tree.hi_upTo hn]
    exact ⟨h1, h2⟩
  constructor
  · intro h
    induction h with
    | root hr =>
      rw [rootOf_label hn hb, Except.ok.injEq] at hr
      exact ⟨_, .refl, hrange, hr.symm⟩
    | left _ hj hs hc ih =>
      obtain ⟨t, ht, -, hx⟩ := ih
      obtain ⟨l, r, -, ⟨hl, rfl⟩, -⟩ := children_upTo hn hb ht hx hj hs
      obtain ⟨h3, h4⟩ := sub_upTo hn hb hl
      exact ⟨l, hl, (contains_iff h3 h4).mp hc, rfl⟩
    | right _ hj hs hc ih =>
      obtain ⟨t, ht, -, hx⟩ := ih
      obtain ⟨l, r, -, -, hr, rfl⟩ := children_upTo hn hb ht hx hj hs
      obtain ⟨h3, h4⟩ := sub_upTo hn hb hr
      exact ⟨r, hr, (contains_iff h3 h4).mp hc, rfl⟩
  · rintro ⟨t, ht, hk, rfl⟩
    have key : ∀ u : Tree, Tree.Sub u (Tree.upTo n) → OnPath n k u.label → Tree.Sub t u →
        OnPath n k t.label := by
      intro u hu hin hsub
      induction hsub with
      | refl => exact hin
      | @left l r hs ih =>
        obtain ⟨h1, h2⟩ := sub_upTo hn hb hu
        have hlu : Tree.Sub l (Tree.upTo n) := Tree.Sub.trans (.left .refl) hu
        obtain ⟨h3, h4⟩ := sub_upTo hn hb hlu
        refine ih hlu
          (.left hin label_node_ne (subnodesOf_label h1 h2) ((contains_iff h3 h4).mpr ?_))
        exact ⟨(hs.lo_le h3).trans hk.1, hk.2.trans (hs.hi_le h3)⟩
      | @right l r hs ih =>
        obtain ⟨h1, h2⟩ := sub_upTo hn hb hu
        have hru : Tree.Sub r (Tree.upTo n) := Tree.Sub.trans (.right .refl) hu
        obtain ⟨h3, h4⟩ := sub_upTo hn hb hru
        refine ih hru
          (.right hin label_node_ne (subnodesOf_label h1 h2) ((contains_iff h3 h4).mpr ?_))
        exact ⟨(hs.lo_le h3).trans hk.1, hk.2.trans (hs.hi_le h3)⟩
    exact key _ .refl (.root (rootOf_label hn hb)) ht

/-- **The siblings** of a way are the siblings in the tree. -/
theorem isSibling_iff (h1 : 1 ≤ k) (h2 : k ≤ n) {x : Index × ℕ} :
    IsSibling n k x ↔ ∃ t ∈ Tree.siblings k (Tree.upTo n), x = t.label := by
  have hmem : ∀ {s : Tree}, s ∈ Tree.siblings k (Tree.upTo n) ↔ _ :=
    (Tree.leftPerfect_upTo hn).mem_siblings_iff (by rwa [Tree.lo_upTo hn])
      (by rwa [Tree.hi_upTo hn])
  constructor
  · rintro ⟨i, j, x1, x2, hpath, hj, hs, hc⟩
    obtain ⟨t, ht, -, hx⟩ := (onPath_iff hn hb h1 h2).mp hpath
    obtain ⟨l, r, rfl, ⟨hl, rfl⟩, hr, rfl⟩ := children_upTo hn hb ht hx hj hs
    obtain ⟨h5, h6⟩ := sub_upTo hn hb hl
    obtain ⟨h7, h8⟩ := sub_upTo hn hb hr
    rcases hc with ⟨hc, rfl⟩ | ⟨hc, rfl⟩
    · exact ⟨r, hmem.mpr ⟨l, r, ht, Or.inl ⟨(contains_iff h5 h6).mp hc, rfl⟩⟩, rfl⟩
    · exact ⟨l, hmem.mpr ⟨l, r, ht, Or.inr ⟨(contains_iff h7 h8).mp hc, rfl⟩⟩, rfl⟩
  · rintro ⟨t, ht, rfl⟩
    obtain ⟨l, r, hs, hc⟩ := hmem.mp ht
    obtain ⟨h3, h4⟩ := sub_upTo hn hb hs
    obtain ⟨h5, h6⟩ := sub_upTo hn hb (Tree.Sub.trans (.left .refl) hs : Tree.Sub l _)
    obtain ⟨h7, h8⟩ := sub_upTo hn hb (Tree.Sub.trans (.right .refl) hs : Tree.Sub r _)
    have h9 := h3.hi_left_lt
    have h10 := h3.lo_right
    have hk : (Tree.node l r).lo ≤ k ∧ k ≤ (Tree.node l r).hi := by
      rw [Tree.lo_node, Tree.hi_node]
      have := h5.lo_le_hi
      omega
    refine ⟨_, _, _, _, (onPath_iff hn hb h1 h2).mpr ⟨_, hs, hk, rfl⟩, label_node_ne,
      subnodesOf_label h3 h4, ?_⟩
    rcases hc with ⟨hc, rfl⟩ | ⟨hc, rfl⟩
    · exact Or.inl ⟨(contains_iff h5 h6).mpr hc, rfl⟩
    · exact Or.inr ⟨(contains_iff h7 h8).mpr hc, rfl⟩

end Subtrees

/-! ### Hashes -/

/-- **The Merkle hash of a node is the digest of its subtree.** -/
theorem merkleHashFrom_label {H : HashFn w} {v : ℕ → Bytes} : ∀ (fuel : ℕ) {t : Tree},
    t.LeftPerfect → t.hi < 2 ^ 64 → t.height < fuel →
    merkleHashFrom H v fuel t.hi t.height = .ok (treeHash H v t)
  | 0, _, _, _, hf => absurd hf (Nat.not_lt_zero _)
  | fuel + 1, .leaf k, _, _, _ => if_pos rfl
  | fuel + 1, .node l r, h, hb, hf => by
    have h1 := h.hi_left_lt
    have h2 := Tree.height_left_lt l r
    have h3 := Tree.height_right_lt l r
    rw [Tree.hi_node] at hb
    have hl : merkleHashFrom H v fuel l.hi l.height = .ok (treeHash H v l) :=
      merkleHashFrom_label fuel h.left (by omega) (by omega)
    have hr : merkleHashFrom H v fuel r.hi r.height = .ok (treeHash H v r) :=
      merkleHashFrom_label fuel h.right hb (by omega)
    rw [merkleHashFrom, if_neg label_node_ne, subnodesOf_label h hb, ok_bind]
    simp only [Tree.label]
    rw [hl, ok_bind, hr, ok_bind, pure_eq_ok, treeHash_node]

theorem merkleHash_label {H : HashFn w} {v : ℕ → Bytes} {t : Tree} (h : t.LeftPerfect)
    (hb : t.hi < 2 ^ 64) : merkleHash H v t.hi t.height = .ok (treeHash H v t) :=
  merkleHashFrom_label _ h hb (Nat.lt_succ_self _)

/-- The Merkle hash of an inner node combines those of its children. -/
theorem merkleHash_node {H : HashFn w} {v : ℕ → Bytes} {n : ℕ} (hn : 1 ≤ n) (hb : n < 2 ^ 64)
    {i : Index} {j : ℕ} (h : InTree n (i, j)) (hj : j ≠ 0) {l r : Index × ℕ}
    (hs : subnodesOf i j = .ok (l, r)) : ∃ a b, merkleHash H v l.1 l.2 = .ok a ∧
      merkleHash H v r.1 r.2 = .ok b ∧ merkleHash H v i j = .ok (a.combine H j b) := by
  obtain ⟨t, ht, hx⟩ := (inTree_iff hn hb).mp h
  obtain ⟨l, r, rfl, ⟨-, rfl⟩, -, rfl⟩ := children_upTo hn hb ht hx hj hs
  obtain ⟨rfl, rfl⟩ := Prod.mk.inj hx
  obtain ⟨h1, h2⟩ := sub_upTo hn hb ht
  have h3 := h1.hi_left_lt
  rw [Tree.hi_node] at h2
  exact ⟨treeHash H v l, treeHash H v r, merkleHash_label h1.left (h3.trans h2),
    merkleHash_label h1.right h2, merkleHash_label h1 h2⟩

end StratifiedHashTree
