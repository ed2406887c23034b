import StratifiedHashTree.Merkle
import StratifiedHashTree.Unfold

/-!
# Which nodes exist

A node is named by two numbers, and `formula.rs` says of any two numbers whether they name one
(`StratifiedHashTree.Formula.isValid`). The test goes by bits: a root, a perfect subtree, or
an ephemeral node, whose index has a rest that is more than half its width. What it decides is
whether there is a left-perfect tree with this label
(`StratifiedHashTree.FormulaTree.isValid_iff`), in whatever generation.

In which generations it is a node is decided by a second test, whether the subtree is perfect:
the nodes of a generation are its own valid ones, and the perfect ones of the generations before
(`StratifiedHashTree.inTree_iff_isValid_or_isPbst`). So a perfect node stays once it is there, and
an ephemeral node is in one generation only.

The formulas for the children are taken up once more, on the valid names: the children tile their
parent (`StratifiedHashTree.children_tile`).
-/

namespace StratifiedHashTree

open Outcome Formula FormulaTree

/-! ### Subtrees of the tree up to an index -/

namespace Tree

namespace Sub

variable {s t : Tree}

/-- Under a perfect node everything is perfect. -/
theorem perfect (hs : Sub s t) (ht : LeftPerfect t) (hp : t.Perfect) : s.Perfect := by
  induction hs with
  | refl => exact hp
  | left _ ih => exact ih ht.left ht.perfect_left
  | right _ ih => exact ih ht.right (ht.perfect_right hp)

/-- A subtree that ends before its tree does hangs off a left branch. -/
theorem perfect_of_hi_lt (hs : Sub s t) (ht : LeftPerfect t) (hlt : s.hi < t.hi) : s.Perfect := by
  induction hs with
  | refl => exact absurd hlt (Nat.lt_irrefl _)
  | left hs _ => exact hs.perfect ht.left ht.perfect_left
  | right _ ih => exact ih ht.right hlt

end Sub

namespace LeftPerfect

variable {s t : Tree}

/-- **A left-perfect tree is a subtree of the tree up to its last index.** -/
theorem sub_upTo_hi (h : LeftPerfect t) : Sub t (upTo t.hi) := by
  have hu := leftPerfect_upTo h.hi_pos
  cases t with
  | leaf k =>
    refine (MerkleScheme.sub_leaf_iff hu).mpr ?_
    rw [lo_upTo h.hi_pos, hi_upTo h.hi_pos]
    exact ⟨h.lo_pos, Nat.le_refl k⟩
  | node l r => exact (hu.mem_spine_iff.mp (h.spine_suffix_upTo.subset List.mem_cons_self)).1

/-- A perfect tree is a subtree of every tree that goes on behind it. -/
theorem sub_upTo_of_perfect (h : LeftPerfect t) (hp : t.Perfect) {n : ℕ} (hn : t.hi ≤ n) :
    Sub t (upTo n) := by
  have h1 : 1 ≤ n := h.hi_pos.trans hn
  refine (leftPerfect_upTo h1).sub_of_perfect h hp ?_ ?_
  · rw [lo_upTo h1]
    exact h.lo_pos
  · rwa [hi_upTo h1]

end LeftPerfect

/-- The tree over the last indices up to `i`, when it starts at a multiple of its width. -/
theorem exists_leftPerfect {i s : ℕ} (h1 : 1 ≤ s) (h2 : s ≤ i) (hd : 2 ^ Nat.clog 2 s ∣ i - s) :
    ∃ t, LeftPerfect t ∧ t.hi = i ∧ t.height = Nat.clog 2 s ∧ t.size = s := by
  refine ⟨grow (i - s) s, leftPerfect_grow _ _ h1 hd, ?_, height_grow _ _ h1, size_grow _ _ h1⟩
  rw [hi_grow _ _ h1]
  omega

/-- There is a perfect tree for every multiple of a power of two. -/
theorem exists_perfect {i j : ℕ} (hi : 1 ≤ i) (hd : 2 ^ j ∣ i) :
    ∃ t, LeftPerfect t ∧ t.hi = i ∧ t.height = j ∧ t.Perfect := by
  have hclog : Nat.clog 2 (2 ^ j) = j := Nat.clog_pow _ _ Nat.one_lt_two
  obtain ⟨t, h1, h2, h3, h4⟩ := exists_leftPerfect (Nat.two_pow_pos j) (Nat.le_of_dvd hi hd)
    (by rw [hclog]; exact Nat.dvd_sub hd (dvd_refl _))
  rw [hclog] at h3
  exact ⟨t, h1, h2, h3, by rw [Perfect, h3, h4]⟩

/-- The leaves of a tree, among its subtrees. -/
theorem length_filter_nodes (t : Tree) :
    (t.nodes.filter fun s => s.height = 0).length = t.size := by
  induction t with
  | leaf k => rfl
  | node l r ihl ihr =>
    have hne : ¬(node l r).height = 0 := label_node_ne
    rw [nodes, List.filter_cons_of_neg (by simpa using hne), List.filter_append,
      List.length_append, ihl, ihr, size_node, Nat.add_comm]

end Tree

/-! ### The two tests -/

namespace FormulaTree

variable {i j : ℕ}

theorem isPbst_eq (hb : i < 2 ^ 64) (hj : j ≤ 64) : isPbst i j = .ok (decide (2 ^ j ∣ i)) := by
  rw [isPbst, iMod2e_eq hb hj, ok_bind, pure_eq_ok]
  refine congrArg _ ?_
  rw [Bool.eq_iff_iff, beq_iff_eq, decide_eq_true_iff]
  exact (Nat.dvd_iff_mod_eq_zero).symm

theorem isPbst_iff (hb : i < 2 ^ 64) (hj : j ≤ 64) : isPbst i j = .ok true ↔ 2 ^ j ∣ i := by
  rw [isPbst_eq hb hj, Except.ok.injEq, decide_eq_true_iff]

/-- What the test for a node looks at. -/
theorem isValid_eq (hi : 1 ≤ i) (hb : i < 2 ^ 64) :
    isValid i j = .ok (decide (j = 0 ∨ j = Nat.clog 2 i ∨
      j < Nat.clog 2 i ∧ (2 ^ j ∣ i ∨ 2 ^ (j - 1) < i % 2 ^ j))) := by
  have hclog : Nat.clog 2 i ≤ 64 := Nat.clog_le_of_le_pow hb.le
  rw [isValid, if_neg (Nat.pos_iff_ne_zero.mp hi)]
  by_cases h0 : j = 0
  · rw [if_pos h0, decide_eq_true (Or.inl h0)]
  rw [if_neg h0, ceilLog2_eq hi hb.le, ok_bind]
  rcases Nat.lt_trichotomy j (Nat.clog 2 i) with hlt | heq | hgt
  · have hw : ∀ {j : ℕ}, j < 64 → shlBits 64 1 j = .ok (2 ^ j) := fun {j} hj => by
      rw [shlBits_of_lt hj (by rw [Nat.one_mul]; exact two_pow_le_of_le (by omega)), Nat.one_mul]
    rw [if_neg (by omega), if_neg (by omega), isPbst_eq hb (by omega), ok_bind]
    by_cases hd : 2 ^ j ∣ i
    · rw [if_pos (decide_eq_true hd), pure_eq_ok,
        decide_eq_true (Or.inr (Or.inr ⟨hlt, Or.inl hd⟩))]
    · rw [if_neg (by simpa using hd), hw (by omega), ok_bind, subBits_of_le (Nat.two_pow_pos _),
        ok_bind, hw (by omega), ok_bind, Nat.and_two_pow_sub_one_eq_mod, pure_eq_ok]
      refine congrArg Except.ok
        (decide_eq_decide.mpr ⟨fun h => Or.inr (Or.inr ⟨hlt, Or.inr h⟩), ?_⟩)
      rintro (h | h | ⟨-, h | h⟩)
      · exact absurd h h0
      · exact absurd h hlt.ne
      · exact absurd h hd
      · exact h
  · rw [if_neg (by omega), if_pos heq, decide_eq_true (Or.inr (Or.inl heq)), pure_eq_ok]
  · rw [if_pos hgt, pure_eq_ok, decide_eq_false (by omega)]

/-- **A name is valid when there is a tree with this label.** -/
theorem isValid_iff (hb : i < 2 ^ 64) :
    isValid i j = .ok true ↔ ∃ t : Tree, t.LeftPerfect ∧ t.hi = i ∧ t.height = j := by
  constructor
  · intro h
    rcases Nat.eq_zero_or_pos i with rfl | hi
    · rw [isValid, if_pos rfl] at h
      cases h
    rw [isValid_eq hi hb, Except.ok.injEq, decide_eq_true_iff] at h
    rcases h with rfl | rfl | ⟨hlt, hd | hrest⟩
    · exact ⟨.leaf i, .leaf hi, rfl, rfl⟩
    · exact ⟨Tree.upTo i, Tree.leftPerfect_upTo hi, Tree.hi_upTo hi, Tree.height_upTo hi⟩
    · obtain ⟨t, h1, h2, h3, -⟩ := Tree.exists_perfect hi hd
      exact ⟨t, h1, h2, h3⟩
    · -- the tree over the rest of the index
      have hmod : i % 2 ^ j < 2 ^ j := Nat.mod_lt _ (Nat.two_pow_pos j)
      have hle : i % 2 ^ j ≤ i := Nat.mod_le i _
      have hclog : Nat.clog 2 (i % 2 ^ j) = j := by
        refine le_antisymm (Nat.clog_le_of_le_pow hmod.le) ?_
        have h1 := (Nat.lt_clog_iff_pow_lt Nat.one_lt_two).mpr hrest
        omega
      have hpos : 1 ≤ i % 2 ^ j := (Nat.two_pow_pos (j - 1)).trans hrest
      obtain ⟨t, h1, h2, h3, -⟩ := Tree.exists_leftPerfect hpos hle
        (by rw [hclog]; exact Nat.dvd_sub_mod i)
      exact ⟨t, h1, h2, h3.trans hclog⟩
  · rintro ⟨t, h, rfl, rfl⟩
    exact isValid_label h hb

end FormulaTree

/-! ### The nodes of a generation -/

section Generations

variable {n i j : ℕ}

/-- A node of a generation, as a subtree. -/
theorem inTree_iff_sub (hn : 1 ≤ n) (hb : n < 2 ^ 64) :
    InTree n (i, j) ↔ ∃ t, Tree.Sub t (Tree.upTo n) ∧ t.hi = i ∧ t.height = j := by
  rw [inTree_iff hn hb]
  constructor
  · rintro ⟨t, ht, heq⟩
    obtain ⟨rfl, rfl⟩ := Prod.mk.inj heq
    exact ⟨t, ht, rfl, rfl⟩
  · rintro ⟨t, ht, rfl, rfl⟩
    exact ⟨t, ht, rfl⟩

/-- **The nodes of a generation** are its own valid ones, and the perfect ones before. -/
theorem inTree_iff_of_pos (hn : 1 ≤ n) (hb : n < 2 ^ 64) (hi : 1 ≤ i) (hib : i < 2 ^ 64)
    (hj : j ≤ 64) : InTree n (i, j) ↔
      i = n ∧ isValid n j = .ok true ∨ i < n ∧ isPbst i j = .ok true := by
  have hu := Tree.leftPerfect_upTo hn
  have hhi := Tree.hi_upTo hn
  rw [inTree_iff_sub hn hb, isPbst_iff hib hj, isValid_iff hb]
  constructor
  · rintro ⟨t, ht, rfl, rfl⟩
    have h1 := ht.hi_le hu
    rw [hhi] at h1
    rcases h1.eq_or_lt with heq | hlt
    · exact Or.inl ⟨heq, t, ht.leftPerfect hu, heq, rfl⟩
    · refine Or.inr ⟨hlt, ((ht.leftPerfect hu).perfect_iff_dvd).mp ?_⟩
      exact ht.perfect_of_hi_lt hu (by rwa [hhi])
  · rintro (⟨rfl, t, h1, rfl, rfl⟩ | ⟨hlt, hd⟩)
    · exact ⟨t, h1.sub_upTo_hi, rfl, rfl⟩
    · obtain ⟨t, h1, rfl, rfl, h2⟩ := Tree.exists_perfect hi hd
      exact ⟨t, h1.sub_upTo_of_perfect h2 hlt.le, rfl, rfl⟩

/-- **Which nodes exist when.** The nodes of a generation are its own valid ones, and the perfect
ones of the generations before. So a perfect node is in every generation from its own on, with its
two children, and an ephemeral one is in its own generation only. -/
theorem inTree_iff_isValid_or_isPbst (hn : 1 ≤ n) (hb : n < 2 ^ 64) (hi : 1 ≤ i) (hib : i < 2 ^ 64)
    (hj : j ≤ 64) :
    (InTree n (i, j) ↔ i = n ∧ isValid n j = .ok true ∨ i < n ∧ isPbst i j = .ok true) ∧
    (InTree i (i, j) → isPbst i j = .ok true → ∀ m, i ≤ m → m < 2 ^ 64 → InTree m (i, j) ∧
      (j ≠ 0 → ∃ l r, subnodesOf i j = .ok (l, r) ∧
        (InTree i l ∧ InTree i r) ∧ InTree m l ∧ InTree m r)) ∧
    (isValid i j = .ok true → isPbst i j = .ok false →
      ∀ m, 1 ≤ m → m < 2 ^ 64 → (InTree m (i, j) ↔ m = i)) := by
  refine ⟨inTree_iff_of_pos hn hb hi hib hj, ?_, ?_⟩
  · intro hin hp m him hm
    have h1 : 1 ≤ m := hi.trans him
    have hmem : InTree m (i, j) := by
      rcases him.eq_or_lt with rfl | hlt
      · exact hin
      · exact (inTree_iff_of_pos h1 hm hi hib hj).mpr (Or.inr ⟨hlt, hp⟩)
    refine ⟨hmem, fun h0 => ?_⟩
    obtain ⟨t, ht, rfl, rfl⟩ := (inTree_iff_sub h1 hm).mp hmem
    have hlp := ht.leftPerfect (Tree.leftPerfect_upTo h1)
    cases t with
    | leaf k => exact absurd rfl h0
    | node l r =>
      have hs := subnodesOf_label hlp hib
      exact ⟨l.label, r.label, hs, ⟨.left hin h0 hs, .right hin h0 hs⟩, .left hmem h0 hs,
        .right hmem h0 hs⟩
  · intro hv hp m h1 hm
    rw [inTree_iff_of_pos h1 hm hi hib hj]
    constructor
    · rintro (⟨heq, -⟩ | ⟨-, htrue⟩)
      · exact heq.symm
      · rw [hp] at htrue
        cases htrue
    · rintro rfl
      exact Or.inl ⟨rfl, hv⟩

/-- The perfect node `b_{2,1}` stays in the third generation, and the root `b_{3,2}` does not stay
in the fourth one. -/
theorem inTree_iff_isValid_or_isPbst_three :
    InTree 3 (2, 1) ∧ InTree 3 (3, 2) ∧ ¬InTree 4 (3, 2) := by
  have h3 : 3 < 2 ^ 64 := by decide
  have h4 : 4 < 2 ^ 64 := by decide
  have h1 := inTree_iff_isValid_or_isPbst (n := 3) (i := 2) (j := 1) (by decide) h3 (by decide)
    (by decide) (by decide)
  have h2 := inTree_iff_isValid_or_isPbst (n := 3) (i := 3) (j := 2) (by decide) h3 (by decide) h3
    (by decide)
  refine ⟨h1.1.mpr (Or.inr ⟨by decide, rfl⟩), h2.1.mpr (Or.inl ⟨rfl, rfl⟩), fun h => ?_⟩
  exact absurd ((h2.2.2 rfl rfl 4 (by decide) h4).mp h) (by decide)

end Generations

/-! ### Children and leaves -/

/-- The nodes below `b_{i,j}`, within a step bound. -/
def unfoldFrom : ℕ → Index → ℕ → Result (List (Index × ℕ))
  | 0, _, _ => .error .outOfFuel
  | fuel + 1, i, j =>
    if j = 0 then
      .ok [(i, j)]
    else do
      let (l, r) ← subnodesOf i j
      let right ← unfoldFrom fuel r.1 r.2
      let left ← unfoldFrom fuel l.1 l.2
      return (i, j) :: (right ++ left)

/-- **The tree unfolded from the root of a generation**, as the list of its nodes. -/
def unfolded (n : Index) : Result (List (Index × ℕ)) := do
  let (i, j) ← rootOf n
  unfoldFrom (j + 1) i j

section Children

variable {n i j : ℕ}

theorem unfoldFrom_label : ∀ (fuel : ℕ) {t : Tree}, t.LeftPerfect → t.hi < 2 ^ 64 →
    t.height < fuel → unfoldFrom fuel t.hi t.height = .ok (t.nodes.map Tree.label)
  | 0, _, _, _, hf => absurd hf (Nat.not_lt_zero _)
  | fuel + 1, .leaf k, _, _, _ => if_pos rfl
  | fuel + 1, .node l r, h, hb, hf => by
    have h1 := h.hi_left_lt
    have h2 := Tree.height_left_lt l r
    have h3 := Tree.height_right_lt l r
    rw [Tree.hi_node] at hb
    have hl : unfoldFrom fuel l.label.1 l.label.2 = .ok (l.nodes.map Tree.label) :=
      unfoldFrom_label fuel h.left (by omega) (by omega)
    have hr : unfoldFrom fuel r.label.1 r.label.2 = .ok (r.nodes.map Tree.label) :=
      unfoldFrom_label fuel h.right hb (by omega)
    rw [unfoldFrom, if_neg label_node_ne, subnodesOf_label h hb, ok_bind]
    simp only
    rw [hr, ok_bind, hl, ok_bind, pure_eq_ok, Tree.nodes, List.map_cons, List.map_append]
    rfl

/-- The tree of a generation, unfolded. -/
theorem unfolded_eq (hn : 1 ≤ n) (hb : n < 2 ^ 64) :
    unfolded n = .ok ((Tree.upTo n).nodes.map Tree.label) := by
  have h := unfoldFrom_label _ (Tree.leftPerfect_upTo hn) (by rwa [Tree.hi_upTo hn])
    (Nat.lt_succ_self _)
  rw [unfolded, rootOf_label hn hb, ok_bind]
  exact h

/-- The number of leaves of a node. -/
theorem leafCount_label {t : Tree} (h : t.LeftPerfect) (hb : t.hi < 2 ^ 64) :
    leafCount t.hi t.height = .ok t.size := by
  have h1 := h.size_eq_mod
  have h2 := h.lo_add_size
  have h3 := h.lo_pos
  have h4 := h.hi_pos
  rw [leafCount, subBits_of_le h4, ok_bind, iMod2e_eq (by omega) (height_le_64 h hb), ok_bind,
    addBits_of_lt (by omega), h1]

/-- The children of a valid name. -/
theorem children_of_isValid (hi : 1 ≤ i) (hb : i < 2 ^ 64) (h1 : 1 ≤ j)
    (hv : isValid i j = .ok true) : ∃ lo il jl ir jr : ℕ,
      subnodesOf i j = .ok ((il, jl), (ir, jr)) ∧
      (isValid il jl = .ok true ∧ jl < j) ∧ (isValid ir jr = .ok true ∧ jr < j) ∧
      (isPbst il jl = .ok true ∧ leafCount il jl = .ok (2 ^ (j - 1)) ∧
        il + 1 - lo = 2 ^ (j - 1)) ∧
      (range i j = .ok (lo, i) ∧ leafCount i j = .ok (i + 1 - lo)) ∧
      (range il jl = .ok (lo, il) ∧ range ir jr = .ok (il + 1, i) ∧ lo ≤ il ∧ il + 1 ≤ i) ∧
      ∀ k, lo ≤ k → k ≤ i →
        contains il jl k = .ok true ∧ contains ir jr k = .ok false ∨
        contains il jl k = .ok false ∧ contains ir jr k = .ok true := by
  obtain ⟨t, ht, rfl, rfl⟩ := (isValid_iff hb).mp hv
  cases t with
  | leaf k => exact absurd h1 (Nat.not_succ_le_zero 0)
  | node l r =>
    have hlt := ht.hi_left_lt
    have hr : r.hi < 2 ^ 64 := hb
    have hl : l.hi < 2 ^ 64 := hlt.trans hr
    have hsize := ht.lo_add_size
    have hlsize := ht.left.lo_add_size
    have hlp : l.size = 2 ^ l.height := ht.perfect_left
    have hrlo := ht.lo_right
    have hlo := ht.left.lo_le_hi
    have hheight : (Tree.node l r).height - 1 = l.height := by
      rw [ht.height_eq, Nat.add_sub_cancel]
    have hrange := range_label ht hb
    have hrrange := range_label ht.right hr
    rw [Tree.lo_node, Tree.hi_node] at hrange hsize
    rw [hrlo] at hrrange
    rw [hheight, Tree.hi_node]
    refine ⟨l.lo, l.hi, l.height, r.hi, r.height, subnodesOf_node ht hr,
      ⟨isValid_label ht.left hl, Tree.height_left_lt l r⟩,
      ⟨isValid_label ht.right hr, Tree.height_right_lt l r⟩, ⟨?_, ?_, ?_⟩, ⟨hrange, ?_⟩,
      ⟨range_label ht.left hl, hrrange, hlo, hlt⟩, ?_⟩
    · rw [isPbst_label ht.left hl, decide_eq_true ht.perfect_left]
    · rw [leafCount_label ht.left hl, hlp]
    · omega
    · rw [show r.hi + 1 - l.lo = (Tree.node l r).size by omega]
      exact leafCount_label ht hb
    · intro k hk1 hk2
      rw [contains_label ht.left hl, contains_label ht.right hr]
      by_cases hk : k ≤ l.hi
      · exact Or.inl ⟨congrArg _ (decide_eq_true ⟨hk1, hk⟩),
          congrArg _ (decide_eq_false (by omega))⟩
      · exact Or.inr ⟨congrArg _ (decide_eq_false (by omega)),
          congrArg _ (decide_eq_true ⟨by omega, hk2⟩)⟩

/-- **The children tile their parent.** Of every valid name of an inner node, the two children have
valid names of smaller height. The left one is perfect, and its leaves are as many as half the
width; those of the right one come next, and together they are the leaves of the node. So every
index below the node is below one of its children and not below the other. From the root of a
generation, the tree unfolds to as many leaves as there are indices. -/
theorem children_tile :
    (∀ i j : ℕ, 1 ≤ i → i < 2 ^ 64 → 1 ≤ j → j ≤ 64 → isValid i j = .ok true →
      ∃ lo il jl ir jr : ℕ, subnodesOf i j = .ok ((il, jl), (ir, jr)) ∧
        (isValid il jl = .ok true ∧ jl < j) ∧ (isValid ir jr = .ok true ∧ jr < j) ∧
        (isPbst il jl = .ok true ∧ leafCount il jl = .ok (2 ^ (j - 1)) ∧
          il + 1 - lo = 2 ^ (j - 1)) ∧
        (range i j = .ok (lo, i) ∧ leafCount i j = .ok (i + 1 - lo)) ∧
        (range il jl = .ok (lo, il) ∧ range ir jr = .ok (il + 1, i) ∧ lo ≤ il ∧ il + 1 ≤ i) ∧
        ∀ k, lo ≤ k → k ≤ i →
          contains il jl k = .ok true ∧ contains ir jr k = .ok false ∨
          contains il jl k = .ok false ∧ contains ir jr k = .ok true) ∧
    ∀ n : ℕ, 1 ≤ n → n < 2 ^ 64 →
      (∃ x, rootOf n = .ok x ∧ range x.1 x.2 = .ok (1, n)) ∧
      ∃ nodes, unfolded n = .ok nodes ∧ nodes.length = totalNodes n ∧
        (nodes.filter fun x => x.2 = 0).length = n ∧ nodes.Nodup ∧
        ∀ x, x ∈ nodes ↔ InTree n x := by
  refine ⟨fun i j hi hb h1 _ hv => children_of_isValid hi hb h1 hv, fun n hn hb => ?_⟩
  have hu := Tree.leftPerfect_upTo hn
  have hsize : (Tree.upTo n).size = n := Tree.size_grow 0 n hn
  have hrange := range_label hu (by rwa [Tree.hi_upTo hn])
  rw [Tree.lo_upTo hn, Tree.hi_upTo hn] at hrange
  refine ⟨⟨_, rootOf_eq hn hb, hrange⟩, _, unfolded_eq hn hb, ?_, ?_, hu.nodup_nodes, fun x => ?_⟩
  · have h1 := Tree.length_nodes (Tree.upTo n)
    rw [hsize] at h1
    rw [List.length_map, totalNodes, if_neg (show ¬n = 0 by omega)]
    omega
  · have hleaf : ((fun x : Index × ℕ => decide (x.2 = 0)) ∘ Tree.label) =
        fun t : Tree => decide (t.height = 0) := rfl
    rw [List.filter_map, List.length_map, hleaf, Tree.length_filter_nodes, hsize]
  · rw [List.mem_map, inTree_iff hn hb]
    constructor
    · rintro ⟨t, ht, rfl⟩
      exact ⟨t, Tree.mem_nodes_iff.mp ht, rfl⟩
    · rintro ⟨t, ht, rfl⟩
      exact ⟨t, Tree.mem_nodes_iff.mpr ht, rfl⟩

/-- The ephemeral node `b_{7,2}`, in the generation with seven leaves. -/
theorem children_tile_seven : (∃ il jl ir jr : ℕ, subnodesOf 7 2 = .ok ((il, jl), (ir, jr)) ∧
    jl < 2 ∧ jr < 2) ∧ ∃ nodes, unfolded 7 = .ok nodes ∧ nodes.length = 13 := by
  obtain ⟨h1, h2⟩ := children_tile
  obtain ⟨-, il, jl, ir, jr, h3, ⟨-, h4⟩, ⟨-, h5⟩, -⟩ :=
    h1 7 2 (by decide) (by decide) (by decide) (by decide) rfl
  obtain ⟨-, nodes, h6, h7, -⟩ := h2 7 (by decide) (by decide)
  exact ⟨⟨il, jl, ir, jr, h3, h4, h5⟩, nodes, h6, h7⟩

end Children

end StratifiedHashTree
