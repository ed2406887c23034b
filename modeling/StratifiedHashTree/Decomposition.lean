import StratifiedHashTree.Distance
import StratifiedHashTree.Existence

/-!
# The decomposition of a generation

`formula.rs` knows a generation twice. The closed forms name a node and its children by bits, and
lookups and samples go by them; `Formula.Model` takes the generation apart into its perfect
subtrees and ties these together again with ephemeral nodes, and an append goes by this. The two
have no code in common.

The perfect subtrees are the one bits of the number of leaves, from the highest one on
(`StratifiedHashTree.pbstRoots_decompose`). What the model puts on top of them is the right edge of
the tree that the closed forms unfold (`StratifiedHashTree.inodes_are_spine`). And the perfect
subtrees of a generation are all that the right edge of the next one hangs on: counting on by one
carries over the lowest one bits, and their subtrees become left children.

The model can also be asked for a single node (`StratifiedHashTree.Formula.Model.inode`). It
computes the perfect ones and looks the others up, but the perfect ones that the generation itself
adds are on neither side (`StratifiedHashTree.findsInode_iff`).
-/

namespace StratifiedHashTree

open Outcome Formula FormulaTree

/-! ### Tilings -/

/-- Ranges that follow each other from `a` to `b`, none of them empty. -/
def Tiles : ℕ → ℕ → List (ℕ × ℕ) → Prop
  | a, b, [] => a = b + 1
  | a, b, r :: rs => r.1 = a ∧ r.1 ≤ r.2 ∧ Tiles (r.2 + 1) b rs

/-- Tilings are put together at an index. -/
theorem tiles_append {a b m : ℕ} {rs rs' : List (ℕ × ℕ)} (h : Tiles a m rs)
    (h' : Tiles (m + 1) b rs') : Tiles a b (rs ++ rs') := by
  induction rs generalizing a with
  | nil =>
    have ha : a = m + 1 := h
    rw [ha]
    exact h'
  | cons r rs ih =>
    obtain ⟨h1, h2, h3⟩ := h
    exact ⟨h1, h2, ih h3⟩

theorem tiles_singleton {a b : ℕ} (h : a ≤ b) : Tiles a b [(a, b)] := ⟨rfl, h, rfl⟩

/-! ### Peaks -/

namespace Tree

/-- **Induction from the highest bit on**: a power of two, or one with something behind it. -/
theorem bit_induction {P : ℕ → ℕ → Prop} (single : ∀ b m, P b (2 ^ m))
    (more : ∀ b m s, 1 ≤ s → s < 2 ^ m → P (b + 2 ^ m) s → P b (2 ^ m + s)) :
    ∀ (s b : ℕ), 1 ≤ s → P b s := by
  intro s
  induction s using Nat.strong_induction_on with
  | _ s ih =>
    intro b hs
    have hle : 2 ^ Nat.log 2 s ≤ s := Nat.pow_log_le_self 2 (by omega)
    have hlt := Nat.lt_pow_succ_log_self Nat.one_lt_two s
    rw [pow_succ] at hlt
    rcases hle.eq_or_lt with heq | hlt'
    · rw [← heq]
      exact single b _
    · have hpos := Nat.two_pow_pos (Nat.log 2 s)
      have h := more b (Nat.log 2 s) (s - 2 ^ Nat.log 2 s) (by omega) (by omega)
        (ih _ (by omega) _ (by omega))
      rwa [Nat.add_sub_cancel' hle] at h

theorem peaks_grow_two_pow (b m : ℕ) : (grow b (2 ^ m)).peaks = [grow b (2 ^ m)] := by
  refine peaks_grow_of_eq b (Nat.two_pow_pos m) ?_
  rw [Nat.log_pow Nat.one_lt_two]

theorem peaks_grow_add (b : ℕ) {m s : ℕ} (h1 : 1 ≤ s) (hs : s < 2 ^ m) :
    (grow b (2 ^ m + s)).peaks = grow b (2 ^ m) :: (grow (b + 2 ^ m) s).peaks := by
  have hlog : Nat.log 2 (2 ^ m + s) = m := by
    refine Nat.log_eq_of_pow_le_of_lt_pow (by omega) ?_
    rw [pow_succ]
    omega
  have h := peaks_grow_of_lt b (s := 2 ^ m + s) (by rw [hlog]; omega)
  rwa [hlog, Nat.add_sub_cancel_left] at h

theorem height_grow_two_pow (b m : ℕ) : (grow b (2 ^ m)).height = m := by
  rw [height_grow b _ (Nat.two_pow_pos m), Nat.clog_pow _ _ Nat.one_lt_two]

/-- **The heights of the peaks are the one bits.** -/
theorem mem_heights_peaks (s b : ℕ) (hs : 1 ≤ s) :
    ∀ j, j ∈ (grow b s).peaks.map height ↔ s.testBit j = true := by
  refine bit_induction (P := fun b s => ∀ j, j ∈ (grow b s).peaks.map height ↔
    s.testBit j = true) ?_ ?_ s b hs
  · intro b m j
    rw [peaks_grow_two_pow, List.map_singleton, List.mem_singleton, height_grow_two_pow,
      Nat.testBit_two_pow, decide_eq_true_iff, eq_comm]
  · intro b m s h1 hs ih j
    rw [peaks_grow_add b h1 hs, List.map_cons, List.mem_cons, height_grow_two_pow, ih]
    rcases Nat.lt_trichotomy j m with hlt | rfl | hgt
    · rw [Nat.testBit_two_pow_add_gt hlt]
      exact or_iff_right hlt.ne
    · rw [Nat.testBit_two_pow_add_eq, Nat.testBit_lt_two_pow hs]
      simp
    · have h2 : 2 ^ (m + 1) ≤ 2 ^ j := Nat.pow_le_pow_right Nat.two_pos hgt
      rw [pow_succ] at h2
      rw [Nat.testBit_lt_two_pow (show 2 ^ m + s < 2 ^ j by omega),
        Nat.testBit_lt_two_pow (show s < 2 ^ j by omega)]
      exact or_iff_right hgt.ne'

/-- The peaks come in decreasing height. -/
theorem heights_peaks_sorted (s b : ℕ) (hs : 1 ≤ s) :
    ((grow b s).peaks.map height).Pairwise (· > ·) := by
  refine bit_induction (P := fun b s => ((grow b s).peaks.map height).Pairwise (· > ·)) ?_ ?_ s b hs
  · intro b m
    rw [peaks_grow_two_pow]
    exact List.pairwise_singleton _ _
  · intro b m s h1 hs ih
    rw [peaks_grow_add b h1 hs, List.map_cons, height_grow_two_pow]
    refine List.pairwise_cons.mpr ⟨fun j hj => ?_, ih⟩
    have h2 := Nat.ge_two_pow_of_testBit ((mem_heights_peaks s _ h1 j).mp hj)
    exact (Nat.pow_lt_pow_iff_right Nat.one_lt_two).mp (h2.trans_lt hs)

/-- There is a peak for every one bit. -/
theorem length_peaks (s b : ℕ) (hs : 1 ≤ s) : s < 2 ^ 64 →
    (grow b s).peaks.length = countOnes s := by
  refine bit_induction (P := fun b s => s < 2 ^ 64 → (grow b s).peaks.length = countOnes s)
    ?_ ?_ s b hs
  · intro b m hb
    have hm : m < 64 := (Nat.pow_lt_pow_iff_right Nat.one_lt_two).mp hb
    have h := countOnes_two_pow_add hm (Nat.two_pow_pos m)
    rw [peaks_grow_two_pow, ← Nat.add_zero (2 ^ m), h, countOnes_zero]
    rfl
  · intro b m s h1 hs ih hb
    have hm : m < 64 := (Nat.pow_lt_pow_iff_right Nat.one_lt_two).mp (by omega)
    rw [peaks_grow_add b h1 hs, List.length_cons, ih (by omega), countOnes_two_pow_add hm hs]

variable {t : Tree}

/-- **The peaks tile the leaves.** -/
theorem tiles_peaks (h : LeftPerfect t) : Tiles t.lo t.hi (t.peaks.map fun p => (p.lo, p.hi)) := by
  induction h with
  | leaf => exact tiles_singleton (Nat.le_refl _)
  | @node l r hl hr hp hle ha hd _ ihr =>
    have hlr : LeftPerfect (.node l r) := .node hl hr hp hle ha hd
    by_cases hperf : (node l r).Perfect
    · rw [peaks_of_perfect hperf]
      exact tiles_singleton hlr.lo_le_hi
    · rw [peaks_of_not_perfect hperf]
      rw [ha] at ihr
      exact ⟨rfl, hl.lo_le_hi, ihr⟩

theorem getLast?_peaks (t : Tree) : t.peaks.getLast? = some t.lastPeak := by
  induction t with
  | leaf k => rfl
  | node l r _ ihr =>
    by_cases hp : (node l r).Perfect
    · rw [peaks_of_perfect hp, lastPeak_of_perfect hp]
      rfl
    · rw [peaks_of_not_perfect hp, lastPeak_of_not_perfect hp, List.getLast?_cons, ihr]
      rfl

end Tree

/-! ### The iteration over the perfect subtrees -/

section Roots

variable {n : ℕ}

/-- **How many steps an iteration makes** can be told from what it yields. -/
theorem pbstRootsFrom_steps : ∀ (fuel m : ℕ) {roots : List Addr},
    pbstRootsFrom n fuel m = .ok roots → ∀ steps, pbstRootsFrom n steps m =
      if roots.length ≤ steps then .ok roots else .error .outOfFuel := by
  -- nothing remains, and nothing is yielded
  have hend : ∀ {roots : List Addr}, roots = [] → ∀ steps, pbstRootsFrom n steps 0 =
      if roots.length ≤ steps then .ok roots else .error .outOfFuel := by
    rintro roots rfl steps
    cases steps with
    | zero => rfl
    | succ steps => rfl
  intro fuel
  induction fuel with
  | zero =>
    intro m roots h steps
    by_cases hm : m = 0
    · rw [pbstRootsFrom, if_pos hm, Except.ok.injEq] at h
      rw [hm]
      exact hend h.symm steps
    · rw [pbstRootsFrom, if_neg hm] at h
      cases h
  | succ fuel ih =>
    intro m roots h steps
    by_cases hm : m = 0
    · rw [pbstRootsFrom, if_pos hm, Except.ok.injEq] at h
      rw [hm]
      exact hend h.symm steps
    · rw [pbstRootsFrom, if_neg hm] at h
      obtain ⟨j, hj, h⟩ := bind_eq_ok.mp h
      obtain ⟨size, hsize, h⟩ := bind_eq_ok.mp h
      obtain ⟨d, hd, h⟩ := bind_eq_ok.mp h
      obtain ⟨i, hi, h⟩ := bind_eq_ok.mp h
      obtain ⟨remaining, hremaining, h⟩ := bind_eq_ok.mp h
      obtain ⟨rest, hrest, h⟩ := bind_eq_ok.mp h
      rw [pure_eq_ok, Except.ok.injEq] at h
      rw [← h, List.length_cons]
      cases steps with
      | zero => rw [pbstRootsFrom, if_neg hm, if_neg (by omega)]
      | succ steps =>
        rw [pbstRootsFrom, if_neg hm, hj, ok_bind, hsize, ok_bind, hd, ok_bind, hi, ok_bind,
          hremaining, ok_bind, ih remaining hrest steps]
        by_cases hle : rest.length ≤ steps
        · rw [if_pos hle, if_pos (Nat.succ_le_succ hle), ok_bind, pure_eq_ok]
        · rw [if_neg hle, if_neg (by omega), error_bind]

/-- The ranges of the roots of some trees. -/
theorem mapM_range : ∀ {ts : List Tree}, (∀ t ∈ ts, t.LeftPerfect ∧ t.hi < 2 ^ 64) →
    (ts.map addr).mapM (fun root => range root.i root.j) =
      .ok (ts.map fun t => (t.lo, t.hi))
  | [], _ => rfl
  | t :: ts, h => by
    obtain ⟨h1, h2⟩ := h t List.mem_cons_self
    have hr : range (addr t).i (addr t).j = .ok (t.lo, t.hi) := range_label h1 h2
    rw [List.map_cons, List.mapM_cons, hr, ok_bind,
      mapM_range fun u hu => h u (List.mem_cons_of_mem _ hu), ok_bind, pure_eq_ok, List.map_cons]

/-- **The decomposition of a generation into perfect subtrees.** The iteration makes as many steps
as there are one bits, and yields a root for each of them, the highest one first. Their ranges
follow each other up to the last index. And the nodes that the next generation adds have left
children among them. -/
theorem pbstRoots_decompose (hn : 1 ≤ n) (hb : n < 2 ^ 64) : ∃ roots,
    (∀ steps, pbstRootsFrom n steps n =
      if countPbsts n ≤ steps then .ok roots else .error .outOfFuel) ∧
    pbstRoots n = .ok roots ∧ roots.length = countPbsts n ∧
    (roots.map Addr.j).Pairwise (· > ·) ∧ (∀ j, j ∈ roots.map Addr.j ↔ n.testBit j = true) ∧
    (∃ ranges, roots.mapM (fun root => range root.i root.j) = .ok ranges ∧ Tiles 1 n ranges) ∧
    roots.getLast?.map Addr.i = some n ∧
    (n + 1 < 2 ^ 64 → ∃ model inodes, Model.new (n + 1) = .ok model ∧
      model.inodes = .ok inodes ∧ ∀ inode ∈ inodes, inode.left ∈ roots) := by
  have hu := Tree.leftPerfect_upTo hn
  have hhi := Tree.hi_upTo hn
  have hheights : ((Tree.upTo n).peaks.map addr).map Addr.j =
      (Tree.upTo n).peaks.map Tree.height := List.map_map
  have hlen : ((Tree.upTo n).peaks.map addr).length = countPbsts n := by
    rw [List.length_map]
    exact Tree.length_peaks n 0 hn hb
  have hroots := pbstRoots_eq hn hb
  refine ⟨_, fun steps => ?_, hroots, hlen, ?_, ?_, ⟨_, mapM_range ?_, ?_⟩, ?_, fun hb' => ?_⟩
  · rw [← hlen]
    exact pbstRootsFrom_steps _ _ hroots steps
  · rw [hheights]
    exact Tree.heights_peaks_sorted n 0 hn
  · rw [hheights]
    exact Tree.mem_heights_peaks n 0 hn
  · intro t ht
    obtain ⟨h1, -, -, h2⟩ := hu.of_mem_peaks ht
    exact ⟨h1, by omega⟩
  · have h := Tree.tiles_peaks hu
    rwa [Tree.lo_upTo hn, hhi] at h
  · rw [List.getLast?_map, Tree.getLast?_peaks]
    exact congrArg some ((lastPeak_spec hu).2.2.trans hhi)
  · refine ⟨_, _, new_eq (Nat.le_add_left 1 n) hb', inodes_new (Nat.le_add_left 1 n) hb', ?_⟩
    intro inode hinode
    obtain ⟨p, hp, rfl⟩ := List.mem_map.mp (List.mem_reverse.mp hinode)
    exact List.mem_map_of_mem (exists_peak_of_spine_succ hn hp)

/-- The three perfect subtrees of a generation with 11 leaves, and the next generation. -/
theorem pbstRoots_decompose_eleven : pbstRoots 11 = .ok [⟨8, 3⟩, ⟨10, 1⟩, ⟨11, 0⟩] ∧
    ∃ model inodes, Model.new 12 = .ok model ∧ model.inodes = .ok inodes ∧
      ∀ inode ∈ inodes, inode.left ∈ ([⟨8, 3⟩, ⟨10, 1⟩, ⟨11, 0⟩] : List Addr) := by
  have hroots : pbstRoots 11 = .ok [⟨8, 3⟩, ⟨10, 1⟩, ⟨11, 0⟩] := rfl
  obtain ⟨roots, -, h1, -, -, -, -, -, h2⟩ :=
    pbstRoots_decompose (n := 11) (by decide) (by decide)
  rw [hroots, Except.ok.injEq] at h1
  rw [← h1] at h2
  exact ⟨hroots, h2 (by decide)⟩

end Roots

/-! ### The nodes that a generation adds -/

section Spine

variable {n i j : ℕ}

/-- Every node of a spine is the right child of the one above it; the last right child is a leaf. -/
theorem spine_chained {t : Tree} (h : t.LeftPerfect) :
    t.spine.map (fun p => Tree.node p.1 p.2) ++ [Tree.leaf t.hi] = t :: t.spine.map Prod.snd := by
  induction h with
  | leaf => rfl
  | node _ _ _ _ _ _ _ ihr =>
    rw [Tree.spine_node, List.map_cons, List.cons_append, Tree.hi_node, ihr, List.map_cons]

/-- The names on a spine, from the leaf upwards. -/
theorem spine_addrs {t : Tree} (h : t.LeftPerfect) :
    ⟨t.hi, 0⟩ :: ((t.spine.map spineNode).reverse.map Formula.INode.node) =
      (t.spine.map spineNode).reverse.map Formula.INode.right ++ [addr t] := by
  have h1 := congrArg (List.map addr) (spine_chained h)
  rw [List.map_append, List.map_cons, List.map_map, List.map_cons, List.map_map] at h1
  have h2 := congrArg List.reverse h1
  rw [List.reverse_append, List.reverse_cons, List.reverse_cons] at h2
  rw [List.map_reverse, List.map_reverse, List.map_map, List.map_map]
  exact h2

/-- The heights on a spine. -/
theorem spine_heights_sorted {t : Tree} (h : t.LeftPerfect) :
    (t.spine.map fun p => (Tree.node p.1 p.2).height).Pairwise (· > ·) := by
  induction h with
  | leaf => exact List.Pairwise.nil
  | @node l r hl hr hp hle ha hd _ ihr =>
    rw [Tree.spine_node, List.map_cons]
    refine List.pairwise_cons.mpr ⟨fun x hx => ?_, ihr⟩
    obtain ⟨p, hmem, rfl⟩ := List.mem_map.mp hx
    exact (hr.of_mem_spine hmem).2.2.2.trans_lt (Tree.height_right_lt l r)

/-- The children of a node of a spine are the ones the formula computes. -/
theorem subnodesOf_spineNode (hn : 1 ≤ n) (hb : n < 2 ^ 64) {p : Tree × Tree}
    (hp : p ∈ (Tree.upTo n).spine) :
    subnodesOf (spineNode p).node.i (spineNode p).node.j =
      .ok (((spineNode p).left.i, (spineNode p).left.j),
        ((spineNode p).right.i, (spineNode p).right.j)) := by
  obtain ⟨h1, h2, -, -⟩ := (Tree.leftPerfect_upTo hn).of_mem_spine hp
  rw [Tree.hi_upTo hn] at h2
  exact subnodesOf_node h1 (by omega)

/-- The nodes of a spine are the valid ones of its generation. -/
theorem mem_spine_iff_isValid (hn : 1 ≤ n) (hb : n < 2 ^ 64) (a : Addr) :
    (∃ p ∈ (Tree.upTo n).spine, (spineNode p).node = a) ↔
      a.i = n ∧ 1 ≤ a.j ∧ isValid n a.j = .ok true := by
  have hu := Tree.leftPerfect_upTo hn
  have hhi := Tree.hi_upTo hn
  rw [isValid_iff hb]
  constructor
  · rintro ⟨p, hp, rfl⟩
    obtain ⟨h1, h2, -, -⟩ := hu.of_mem_spine hp
    have h3 : (Tree.node p.1 p.2).height ≠ 0 := label_node_ne
    exact ⟨h2.trans hhi, Nat.pos_of_ne_zero h3, _, h1, h2.trans hhi, rfl⟩
  · rintro ⟨h1, h2, t, ht, h3, h4⟩
    cases t with
    | leaf k => exact absurd h2 (by rw [← h4]; exact Nat.not_succ_le_zero 0)
    | node l r =>
      have hmem : (l, r) ∈ (Tree.upTo n).spine := by
        rw [← h3]
        exact ht.spine_suffix_upTo.subset List.mem_cons_self
      refine ⟨(l, r), hmem, ?_⟩
      rw [spineNode, addr, h3, h4, ← h1]

/-- The root of the model is the root of the tree. -/
theorem model_root (n : ℕ) :
    Model.root ⟨n, (Tree.upTo n).peaks.map addr, ephemerals (Tree.upTo n)⟩ =
      .ok (addr (Tree.upTo n)) := by
  by_cases hp : (Tree.upTo n).Perfect
  · rw [ephemerals_of_perfect hp, Tree.peaks_of_perfect hp]
    rfl
  · cases hu : Tree.upTo n with
    | leaf k => exact absurd (by rw [hu]; exact Tree.perfect_leaf k) hp
    | node l r =>
      rw [hu] at hp
      rw [ephemerals_of_not_perfect hp]
      rfl

/-- **The model adds the right edge.** The nodes that a generation adds come in increasing height,
and they are the valid ones of its index. Their children are those that the formula computes: the
right one is the node before, and the last node is the root. The left ones share no leaf, and
together they have all leaves but the last. -/
theorem inodes_are_spine (hn : 1 ≤ n) (hb : n < 2 ^ 64) : ∃ model nodes root,
    Model.new n = .ok model ∧ model.inodes = .ok nodes ∧
    (model.root = .ok root ∧ rootOf n = .ok (root.i, root.j)) ∧
    (nodes.map fun x => x.node.j).Pairwise (· < ·) ∧
    (∀ a, a ∈ nodes.map Formula.INode.node ↔ a.i = n ∧ 1 ≤ a.j ∧ isValid n a.j = .ok true) ∧
    (∀ x ∈ nodes, subnodesOf x.node.i x.node.j =
      .ok ((x.left.i, x.left.j), (x.right.i, x.right.j))) ∧
    nodes.map Formula.INode.right = (⟨n, 0⟩ :: nodes.map Formula.INode.node).dropLast ∧
    (⟨n, 0⟩ :: nodes.map Formula.INode.node).getLast? = some root ∧
    (nodes.Pairwise fun x y => ∀ k : ℕ, ¬(contains x.left.i x.left.j k = .ok true ∧
      contains y.left.i y.left.j k = .ok true)) ∧
    ∀ k : ℕ, (∃ x ∈ nodes, contains x.left.i x.left.j k = .ok true) ↔ 1 ≤ k ∧ k ≤ n - 1 := by
  have hu := Tree.leftPerfect_upTo hn
  have hhi := Tree.hi_upTo hn
  have haddrs := spine_addrs hu
  rw [hhi] at haddrs
  have hcontains : ∀ {p : Tree × Tree}, p ∈ (Tree.upTo n).spine → ∀ k : ℕ,
      contains (spineNode p).left.i (spineNode p).left.j k = .ok true ↔
        p.1.lo ≤ k ∧ k ≤ p.1.hi := by
    intro p hp k
    obtain ⟨h1, -, h2⟩ := left_range hn hp
    exact contains_iff h1 (h2.trans hb)
  refine ⟨_, _, addr (Tree.upTo n), new_eq hn hb, inodes_new hn hb, ⟨model_root n, ?_⟩, ?_, ?_, ?_,
    ?_, ?_, ?_, ?_⟩
  · rw [rootOf_eq hn hb, addr, hhi]
  · rw [← List.map_reverse, List.map_map, List.map_reverse, List.pairwise_reverse]
    exact spine_heights_sorted hu
  · intro a
    rw [← mem_spine_iff_isValid hn hb a, List.mem_map]
    constructor
    · rintro ⟨x, hx, rfl⟩
      obtain ⟨p, hp, rfl⟩ := List.mem_map.mp (List.mem_reverse.mp hx)
      exact ⟨p, hp, rfl⟩
    · rintro ⟨p, hp, rfl⟩
      exact ⟨_, List.mem_reverse.mpr (List.mem_map_of_mem hp), rfl⟩
  · intro x hx
    obtain ⟨p, hp, rfl⟩ := List.mem_map.mp (List.mem_reverse.mp hx)
    exact subnodesOf_spineNode hn hb hp
  · rw [haddrs, List.dropLast_concat]
  · rw [haddrs, List.getLast?_concat]
  · rw [List.pairwise_reverse, List.pairwise_map]
    refine (spine_sorted hu).imp_of_mem fun {p q} hp hq hlt k => ?_
    rw [hcontains hp, hcontains hq]
    omega
  · intro k
    constructor
    · rintro ⟨x, hx, hk⟩
      obtain ⟨p, hp, rfl⟩ := List.mem_map.mp (List.mem_reverse.mp hx)
      obtain ⟨h1, -, h2⟩ := left_range hn hp
      have h3 := (hcontains hp k).mp hk
      have h4 := h1.lo_pos
      omega
    · rintro ⟨h1, h2⟩
      obtain ⟨p, hp, hk⟩ := hu.exists_mem_spine (k := k) (by rwa [Tree.lo_upTo hn])
        (by rw [hhi]; omega)
      exact ⟨_, List.mem_reverse.mpr (List.mem_map_of_mem hp), (hcontains hp k).mpr hk⟩

/-- The seventh generation adds its root and the ephemeral node `b_{7,2}`. -/
theorem inodes_are_spine_seven : ∃ model nodes root, Model.new 7 = .ok model ∧
    model.inodes = .ok nodes ∧ model.root = .ok root ∧ rootOf 7 = .ok (root.i, root.j) ∧
    ⟨7, 2⟩ ∈ nodes.map Formula.INode.node ∧ ⟨7, 1⟩ ∉ nodes.map Formula.INode.node := by
  obtain ⟨model, nodes, root, h1, h2, ⟨h3, h4⟩, -, h5, -⟩ :=
    inodes_are_spine (n := 7) (by decide) (by decide)
  refine ⟨model, nodes, root, h1, h2, h3, h4, (h5 _).mpr ⟨rfl, by decide, rfl⟩, fun h => ?_⟩
  have hvalid : isValid 7 1 = .ok true := ((h5 _).mp h).2.2
  cases hvalid

end Spine

/-! ### Looking up a node -/

section Lookup

variable {n i j : ℕ} {x : Formula.INode}

/-- An intermediate node of a generation, with its children. -/
def IsInode (n : Index) (x : Formula.INode) : Prop :=
  1 ≤ x.node.j ∧ InTree n (x.node.i, x.node.j) ∧
    subnodesOf x.node.i x.node.j = .ok ((x.left.i, x.left.j), (x.right.i, x.right.j))

/-- **A lookup is right**: it returns the intermediate node of this name, and nothing when there is
none. -/
def FindsInode (n i : Index) (j : ℕ) : Prop :=
  ∃ model found, Model.new n = .ok model ∧ model.inode i j = .ok found ∧
    ∀ x, found = some x ↔ x.node = ⟨i, j⟩ ∧ IsInode n x

theorem IsInode.unique {y : Formula.INode} (hx : IsInode n x) (hy : IsInode n y)
    (heq : x.node = y.node) : x = y := by
  obtain ⟨⟨xi, xj⟩, ⟨xli, xlj⟩, ⟨xri, xrj⟩⟩ := x
  obtain ⟨⟨yi, yj⟩, ⟨yli, ylj⟩, ⟨yri, yrj⟩⟩ := y
  obtain ⟨rfl, rfl⟩ := Addr.mk.inj heq
  have h := hx.2.2.symm.trans hy.2.2
  simp only [Except.ok.injEq, Prod.mk.injEq] at h
  obtain ⟨⟨rfl, rfl⟩, rfl, rfl⟩ := h
  rfl

/-- The node of a pair of children. -/
theorem isInode_spineNode (hn : 1 ≤ n) (hb : n < 2 ^ 64) {l r : Tree}
    (h : Tree.Sub (.node l r) (Tree.upTo n)) : IsInode n (spineNode (l, r)) := by
  obtain ⟨h1, h2⟩ := sub_upTo hn hb h
  have h3 : (Tree.node l r).height ≠ 0 := label_node_ne
  exact ⟨Nat.pos_of_ne_zero h3, (inTree_iff_sub hn hb).mpr ⟨_, h, rfl, rfl⟩, subnodesOf_node h1 h2⟩

/-- An intermediate node is that of a pair of children. -/
theorem exists_of_isInode (hn : 1 ≤ n) (hb : n < 2 ^ 64) (h : IsInode n x) :
    ∃ l r, Tree.Sub (.node l r) (Tree.upTo n) ∧ x = spineNode (l, r) := by
  obtain ⟨t, ht, h1, h2⟩ := (inTree_iff_sub hn hb).mp h.2.1
  cases t with
  | leaf k =>
    have h3 := h.1
    rw [← h2] at h3
    exact absurd h3 (Nat.not_succ_le_zero 0)
  | node l r =>
    refine ⟨l, r, ht, h.unique (isInode_spineNode hn hb ht) ?_⟩
    obtain ⟨⟨xi, xj⟩, xl, xr⟩ := x
    exact (Addr.mk.injEq _ _ _ _).mpr ⟨h1.symm, h2.symm⟩

/-- The ephemeral nodes of a generation are those on its spine that are not perfect. -/
theorem mem_ephemerals_iff {t : Tree} (h : t.LeftPerfect) {e : Formula.INode} :
    e ∈ ephemerals t ↔ ∃ p ∈ t.spine, ¬(Tree.node p.1 p.2).Perfect ∧ e = spineNode p := by
  induction h with
  | leaf =>
    exact ⟨fun he => absurd he List.not_mem_nil, fun ⟨p, hp, _⟩ => absurd hp List.not_mem_nil⟩
  | @node l r hl hr hp hle ha hd _ ihr =>
    have hlr : (Tree.node l r).LeftPerfect := .node hl hr hp hle ha hd
    by_cases hperf : (Tree.node l r).Perfect
    · rw [ephemerals_of_perfect hperf]
      refine ⟨fun he => absurd he List.not_mem_nil, ?_⟩
      rintro ⟨p, hmem, hnot, -⟩
      -- below a perfect node everything is perfect
      obtain ⟨hsub, -⟩ := hlr.mem_spine_iff.mp hmem
      exact absurd (hsub.perfect hlr hperf) hnot
    · rw [ephemerals_of_not_perfect hperf, List.mem_cons, ihr, Tree.spine_node]
      constructor
      · rintro (rfl | ⟨p, hmem, h1, h2⟩)
        · exact ⟨(l, r), List.mem_cons_self, hperf, rfl⟩
        · exact ⟨p, List.mem_cons_of_mem _ hmem, h1, h2⟩
      · rintro ⟨p, hmem, h1, h2⟩
        rcases List.mem_cons.mp hmem with rfl | hmem
        · exact Or.inl h2
        · exact Or.inr ⟨p, hmem, h1, h2⟩

/-- **What a search among the ephemeral nodes finds**: the nodes that are not perfect. -/
theorem find_ephemerals_iff (hn : 1 ≤ n) (hb : n < 2 ^ 64) :
    (ephemerals (Tree.upTo n)).find? (fun node => node.node.i = i ∧ node.node.j = j) = some x ↔
      (x.node = ⟨i, j⟩ ∧ IsInode n x) ∧ i = n ∧ ¬2 ^ j ∣ i := by
  have hu := Tree.leftPerfect_upTo hn
  have hhi := Tree.hi_upTo hn
  have hmem : ∀ y, y ∈ ephemerals (Tree.upTo n) → y.node.i = i → y.node.j = j →
      (y.node = ⟨i, j⟩ ∧ IsInode n y) ∧ i = n ∧ ¬2 ^ j ∣ i := by
    rintro y hy rfl rfl
    obtain ⟨p, hp, hnot, rfl⟩ := (mem_ephemerals_iff hu).mp hy
    obtain ⟨hsub, hend⟩ := hu.mem_spine_iff.mp hp
    rw [(hsub.leftPerfect hu).perfect_iff_dvd] at hnot
    exact ⟨⟨rfl, isInode_spineNode hn hb hsub⟩, hend.trans hhi, hnot⟩
  constructor
  · intro h
    have h1 := List.find?_some h
    simp only [decide_eq_true_iff] at h1
    exact hmem x (List.mem_of_find?_eq_some h) h1.1 h1.2
  · rintro ⟨⟨hname, hx⟩, rfl, hnot⟩
    obtain ⟨l, r, hsub, rfl⟩ := exists_of_isInode hn hb hx
    obtain ⟨h1, h2⟩ := Addr.mk.inj hname
    have hin : spineNode (l, r) ∈ ephemerals (Tree.upTo i) := by
      refine (mem_ephemerals_iff hu).mpr ⟨(l, r), hu.mem_spine_iff.mpr ⟨hsub, ?_⟩, ?_, rfl⟩
      · exact h1.trans hhi.symm
      · rw [(hsub.leftPerfect hu).perfect_iff_dvd, h1, h2]
        exact hnot
    cases hf : (ephemerals (Tree.upTo i)).find? (fun node => node.node.i = i ∧ node.node.j = j) with
    | none =>
      have h3 := List.find?_eq_none.mp hf _ hin
      exact absurd (decide_eq_true ⟨h1, h2⟩) h3
    | some y =>
      have h3 := List.find?_some hf
      simp only [decide_eq_true_iff] at h3
      obtain ⟨⟨h4, h5⟩, -⟩ := hmem y (List.mem_of_find?_eq_some hf) h3.1 h3.2
      rw [h5.unique hx (h4.trans hname.symm)]

/-- The computed node of a perfect subtree. -/
theorem pbstInode_iff (hn : 1 ≤ n) (hb : n < 2 ^ 64) (hi : 1 ≤ i) (hlt : i < n) (hj : 1 ≤ j)
    (hj64 : j ≤ 64) (hd : 2 ^ j ∣ i) : ∃ y, Model.pbstInode i j = .ok y ∧
      y.node = ⟨i, j⟩ ∧ IsInode n y := by
  obtain ⟨t, ht, rfl, rfl, hp⟩ := Tree.exists_perfect hi hd
  cases t with
  | leaf k => exact absurd hj (Nat.not_succ_le_zero 0)
  | node l r =>
    have hh := ht.height_eq
    have hrp := ht.perfect_right hp
    have hsize : l.size + r.size = 2 ^ (l.height + 1) := by
      rw [← hh]
      exact hp
    have hlsize : l.size = 2 ^ l.height := ht.perfect_left
    rw [pow_succ] at hsize
    have hrh := ht.height_right_of_perfect hp
    have hadd := ht.right.lo_add_size
    have hlo := ht.lo_right
    have hle := ht.left.hi_pos
    rw [Tree.hi_node] at hlt hi
    have hw : shlBits 64 1 l.height = .ok (2 ^ l.height) := by
      rw [shlBits_of_lt (by omega) (by rw [Nat.one_mul]; exact two_pow_le_of_le (by omega)),
        Nat.one_mul]
    refine ⟨spineNode (l, r), ?_, rfl,
      isInode_spineNode hn hb (ht.sub_upTo_of_perfect hp (show r.hi ≤ n from hlt.le))⟩
    rw [Model.pbstInode, isPbst_label ht (hlt.trans hb), decide_eq_true hp, ok_bind,
      debugAssert_of rfl, ok_bind, debugAssert_of label_node_ne, ok_bind, subBits_of_le hj, ok_bind,
      hh, Nat.add_sub_cancel, hw, ok_bind, Tree.hi_node, subBits_of_le (by omega), ok_bind,
      pure_eq_ok, show r.hi - 2 ^ l.height = l.hi by omega, spineNode, addr, addr, addr, hh, hrh]
    rfl

/-- What a lookup does above the leaves. -/
theorem inode_eq (hi : i < 2 ^ 64) (hj : j ≤ 64) (h0 : j ≠ 0) :
    Model.inode ⟨n, (Tree.upTo n).peaks.map addr, ephemerals (Tree.upTo n)⟩ i j =
      if 2 ^ j ∣ i ∧ i < n then Model.pbstInode i j >>= fun inode => pure (some inode)
      else
        .ok ((ephemerals (Tree.upTo n)).find? fun node => node.node.i = i ∧ node.node.j = j) := by
  rw [Model.inode, if_neg h0, isPbst_eq hi hj, ok_bind]
  simp only [decide_eq_true_iff]
  exact if_congr Iff.rfl rfl rfl

/-- At the index 0 the left child would be to the left of everything. -/
theorem not_findsInode_zero (hn : 1 ≤ n) (hb : n < 2 ^ 64) (hj : j ≤ 64) (h0 : j ≠ 0) :
    ¬FindsInode n 0 j := by
  rintro ⟨model, found, h1, h2, -⟩
  rw [new_eq hn hb, Except.ok.injEq] at h1
  have hj1 : 1 ≤ j := Nat.pos_of_ne_zero h0
  have hd : 2 ^ j ∣ 0 := dvd_zero _
  have hw : shlBits 64 1 (j - 1) = .ok (2 ^ (j - 1)) := by
    rw [shlBits_of_lt (by omega) (by rw [Nat.one_mul]; exact two_pow_le_of_le (by omega)),
      Nat.one_mul]
  rw [← h1, inode_eq (by decide) hj h0, if_pos ⟨hd, hn⟩, Model.pbstInode,
    isPbst_eq (by decide) hj, decide_eq_true hd, ok_bind, debugAssert_of rfl, ok_bind,
    debugAssert_of h0, ok_bind, subBits_of_le hj1, ok_bind, hw, ok_bind, subBits,
    if_neg (Nat.not_le.mpr (Nat.two_pow_pos (j - 1)))] at h2
  cases h2

/-- The perfect nodes of the generations before are computed. -/
theorem findsInode_of_lt (hn : 1 ≤ n) (hb : n < 2 ^ 64) (hi : 1 ≤ i) (hlt : i < n) (hj : j ≤ 64)
    (h0 : j ≠ 0) (hd : 2 ^ j ∣ i) : FindsInode n i j := by
  obtain ⟨y, h1, h2, h3⟩ := pbstInode_iff hn hb hi hlt (Nat.pos_of_ne_zero h0) hj hd
  refine ⟨_, some y, new_eq hn hb, ?_, fun x => ?_⟩
  · rw [inode_eq (hlt.trans hb) hj h0, if_pos ⟨hd, hlt⟩, h1, ok_bind, pure_eq_ok]
  · rw [Option.some.injEq]
    constructor
    · rintro rfl
      exact ⟨h2, h3⟩
    · rintro ⟨h4, h5⟩
      exact h3.unique h5 (h2.trans h4.symm)

/-- Of the other nodes, those are found that are ephemeral. -/
theorem findsInode_iff_ephemeral (hn : 1 ≤ n) (hb : n < 2 ^ 64) (hi : i < 2 ^ 64) (hj : j ≤ 64)
    (h0 : j ≠ 0) (hc : ¬(2 ^ j ∣ i ∧ i < n)) : FindsInode n i j ↔
      ∀ x : Formula.INode, x.node = ⟨i, j⟩ ∧ IsInode n x → i = n ∧ ¬2 ^ j ∣ i := by
  have hmodel := new_eq hn hb
  have hrun := inode_eq (n := n) hi hj h0
  rw [if_neg hc] at hrun
  constructor
  · rintro ⟨model, found, h1, h2, h3⟩ x hx
    rw [hmodel, Except.ok.injEq] at h1
    rw [← h1, hrun, Except.ok.injEq] at h2
    rw [← h2] at h3
    exact ((find_ephemerals_iff hn hb).mp ((h3 x).mpr hx)).2
  · intro h
    refine ⟨_, _, hmodel, hrun, fun x => (find_ephemerals_iff hn hb).trans ?_⟩
    exact ⟨And.left, fun hx => ⟨hx, h x hx⟩⟩

/-- A generation adds a perfect node of every height that goes into its index. -/
theorem exists_isInode_of_dvd (hn : 1 ≤ n) (hb : n < 2 ^ 64) (h0 : j ≠ 0) (hd : 2 ^ j ∣ n) :
    ∃ x : Formula.INode, x.node = ⟨n, j⟩ ∧ IsInode n x := by
  obtain ⟨t, ht, h1, h2, -⟩ := Tree.exists_perfect hn hd
  cases t with
  | leaf k => exact absurd h2.symm h0
  | node l r =>
    have hsub := ht.sub_upTo_hi
    rw [h1] at hsub
    exact ⟨spineNode (l, r), (Addr.mk.injEq _ _ _ _).mpr ⟨h1, h2⟩, isInode_spineNode hn hb hsub⟩

/-- The nodes of the generations before are perfect. -/
theorem IsInode.eq_of_not_dvd (hn : 1 ≤ n) (hb : n < 2 ^ 64) (hx : IsInode n x)
    (hname : x.node = ⟨i, j⟩) (hc : ¬(2 ^ j ∣ i ∧ i < n)) : i = n := by
  obtain ⟨l, r, hsub, rfl⟩ := exists_of_isInode hn hb hx
  have hu := Tree.leftPerfect_upTo hn
  have hhi := Tree.hi_upTo hn
  obtain ⟨h1, h2⟩ := Addr.mk.inj hname
  have h3 := hsub.hi_le hu
  rw [hhi] at h3
  rcases h3.eq_or_lt with heq | hlt
  · exact h1.symm.trans heq
  · have hp := hsub.perfect_of_hi_lt hu (by rwa [hhi])
    rw [(hsub.leftPerfect hu).perfect_iff_dvd, h1, h2] at hp
    exact absurd ⟨hp, h1.symm.trans_lt hlt⟩ hc

/-- **When a lookup is right.** A model computes the perfect nodes of the generations before, and
finds the ephemeral nodes of its own; so it misses the perfect nodes that its own generation adds.
And for the index 0, whose subtrees all look perfect, it computes a left child that is not there. -/
theorem findsInode_iff (hn : 1 ≤ n) (hb : n < 2 ^ 64) (hi : i < 2 ^ 64) (hj : j ≤ 64) :
    FindsInode n i j ↔ j = 0 ∨ 1 ≤ i ∧ ¬(i = n ∧ isPbst n j = .ok true) := by
  rw [isPbst_iff hb hj]
  by_cases h0 : j = 0
  · refine ⟨fun _ => Or.inl h0, fun _ => ⟨_, none, new_eq hn hb, if_pos h0, fun x => ?_⟩⟩
    refine ⟨fun h => absurd h.symm (Option.some_ne_none x), ?_⟩
    rintro ⟨h1, h2, -⟩
    rw [h1, h0] at h2
    exact absurd h2 (Nat.not_succ_le_zero 0)
  rcases Nat.eq_zero_or_pos i with rfl | hi1
  · refine ⟨fun h => absurd h (not_findsInode_zero hn hb hj h0), ?_⟩
    rintro (h | ⟨h, -⟩)
    · exact absurd h h0
    · exact absurd h (Nat.not_succ_le_zero 0)
  by_cases hc : 2 ^ j ∣ i ∧ i < n
  · exact ⟨fun _ => Or.inr ⟨hi1, fun h => absurd h.1 hc.2.ne⟩,
      fun _ => findsInode_of_lt hn hb hi1 hc.2 hj h0 hc.1⟩
  · rw [findsInode_iff_ephemeral hn hb hi hj h0 hc]
    constructor
    · intro h
      refine Or.inr ⟨hi1, ?_⟩
      rintro ⟨rfl, hd⟩
      obtain ⟨x, hx⟩ := exists_isInode_of_dvd hn hb h0 hd
      exact (h x hx).2 hd
    · rintro (h | ⟨-, hnot⟩) x ⟨hname, hx⟩
      · exact absurd h h0
      · have hin := hx.eq_of_not_dvd hn hb hname hc
        exact ⟨hin, fun hd => hnot ⟨hin, by rwa [← hin]⟩⟩

/-- The root of the second generation is an intermediate node, and the lookup does not find it; the
lookup of the index 0 ends in an underflow. -/
theorem findsInode_root_two : ¬FindsInode 2 2 1 ∧ InTree 2 (2, 1) ∧
    ∃ model, Model.new 2 = .ok model ∧ model.root = .ok ⟨2, 1⟩ ∧ model.inode 2 1 = .ok none ∧
      model.inode 0 1 = Outcome.panic .overflow := by
  have htree : InTree 2 (2, 1) := .root rfl
  refine ⟨?_, htree, _, rfl, rfl, rfl, rfl⟩
  rintro ⟨model, found, h1, h2, h3⟩
  have hmodel : Model.new 2 = .ok ⟨2, [⟨2, 1⟩], []⟩ := rfl
  rw [hmodel, Except.ok.injEq] at h1
  have hnone : Model.inode ⟨2, [⟨2, 1⟩], []⟩ 2 1 = .ok none := rfl
  rw [← h1, hnone, Except.ok.injEq] at h2
  have h4 := (h3 ⟨⟨2, 1⟩, ⟨1, 0⟩, ⟨2, 0⟩⟩).mpr ⟨rfl, Nat.le_refl 1, htree, rfl⟩
  rw [← h2] at h4
  cases h4

/-- The perfect node `b_{2,1}` is found in the third generation. -/
theorem findsInode_three : FindsInode 3 2 1 :=
  (findsInode_iff (n := 3) (by decide) (by decide) (by decide) (by decide)).mpr
    (Or.inr ⟨by decide, fun h => absurd h.1 (by decide)⟩)

end Lookup

end StratifiedHashTree
