import StratifiedHashTree.Formula
import StratifiedHashTree.Tree

/-!
# The formulas name a left-perfect tree

The closed forms of `StratifiedHashTree.Formula` against the trees of
`StratifiedHashTree.Tree`. The name `b_{i,j}` of a node is the label of its subtree, and
on labels the formulas compute what their names say, without leaving `u64`:

* `StratifiedHashTree.Formula.subnodesOf` gives the labels of the two children
  (`StratifiedHashTree.FormulaTree.subnodesOf_node`);
* `StratifiedHashTree.Formula.contains` decides membership in the interval of leaves
  (`StratifiedHashTree.FormulaTree.contains_label`);
* `StratifiedHashTree.Formula.isPbst` decides whether the subtree is perfect
  (`StratifiedHashTree.FormulaTree.isPbst_label`);
* the perfect subtrees of a generation are the peaks of its tree
  (`StratifiedHashTree.FormulaTree.pbstRoots_eq`), and the nodes it adds are the spine
  (`StratifiedHashTree.FormulaTree.inodes_new`).

The bit operations are gone after this file.
-/

namespace StratifiedHashTree

namespace FormulaTree

open Formula Outcome

/-! ### Powers and logarithms -/

theorem two_pow_le_of_le {j : ℕ} (hj : j ≤ 63) : 2 ^ j < 2 ^ 64 :=
  Nat.pow_lt_pow_right Nat.one_lt_two (by omega)

theorem pow2e_eq {j : ℕ} (hj : j < 64) : pow2e j = .ok (2 ^ j) := by
  have h : 1 * 2 ^ j < 2 ^ 64 := by
    rw [Nat.one_mul]
    exact two_pow_le_of_le (by omega)
  rw [pow2e, debugAssert_of hj, ok_bind, shlBits_of_lt hj h, Nat.one_mul]

theorem iMod2e_eq {i j : ℕ} (hi : i < 2 ^ 64) (hj : j ≤ 64) : iMod2e i j = .ok (i % 2 ^ j) := by
  rw [iMod2e, debugAssert_of hj, ok_bind]
  rcases hj.eq_or_lt with rfl | hlt
  · rw [if_pos (Nat.le_refl 64), Nat.mod_eq_of_lt hi, pure_eq_ok]
  · have h : 1 * 2 ^ j < 2 ^ 64 := by
      rw [Nat.one_mul]
      exact two_pow_le_of_le (by omega)
    rw [if_neg (by omega), shlBits_of_lt hlt h, ok_bind, Nat.one_mul,
      subBits_of_le (Nat.two_pow_pos j), ok_bind, pure_eq_ok, Nat.and_two_pow_sub_one_eq_mod]

theorem leadingZeros_le (x : ℕ) : leadingZeros x ≤ 64 := by
  rw [leadingZeros]
  split <;> omega

theorem ceilLog2_eq {x : ℕ} (h1 : 1 ≤ x) (h2 : x ≤ 2 ^ 64) : ceilLog2 x = .ok (Nat.clog 2 x) := by
  rw [ceilLog2, debugAssert_of (show 0 < x from h1), ok_bind, subBits_of_le h1, ok_bind, INDEX_SIZE,
    subBits_of_le (leadingZeros_le _), leadingZeros]
  rcases Nat.lt_or_ge x 2 with hlt | hge
  · obtain rfl : x = 1 := by omega
    simp
  · have hlog : Nat.log 2 (x - 1) < 64 := Nat.log_lt_of_lt_pow (by omega) (by omega)
    rw [if_neg (by omega), Nat.log2_eq_log_two, Tree.clog_eq_log_succ hge]
    exact congrArg _ (by omega)

theorem floorLog2_eq {x : ℕ} (h : 1 ≤ x) : floorLog2 x = .ok (Nat.log 2 x) := by
  rw [floorLog2, debugAssert_of (show 0 < x from h), ok_bind, Nat.log2_eq_log_two, pure_eq_ok]

/-! ### Nodes -/

section Nodes

variable {t l r : Tree}

/-- The height of a node whose indices are in `u64`. -/
theorem height_le_64 (h : t.LeftPerfect) (hb : t.hi < 2 ^ 64) : t.height ≤ 64 := by
  have h1 := h.lo_add_size
  have h2 := h.lo_pos
  rw [h.height_eq_clog]
  exact Nat.clog_le_of_le_pow (by omega)

/-- A step for every bit of an index leads from the root to the leaves. -/
theorem height_upTo_lt {n fuel : ℕ} (hn : 1 ≤ n) (hb : n < 2 ^ 64) (hf : INDEX_SIZE < fuel) :
    (Tree.upTo n).height < fuel :=
  (height_le_64 (Tree.leftPerfect_upTo hn) (by rwa [Tree.hi_upTo hn])).trans_lt hf

/-- `b_{i,j}` is perfect when `i` is a multiple of `2^j`. -/
theorem isPbst_label (h : t.LeftPerfect) (hb : t.hi < 2 ^ 64) :
    isPbst t.hi t.height = .ok (decide t.Perfect) := by
  rw [isPbst, iMod2e_eq hb (height_le_64 h hb), ok_bind, pure_eq_ok]
  refine congrArg _ ?_
  rw [Bool.eq_iff_iff, beq_iff_eq, decide_eq_true_iff, h.perfect_iff_dvd]
  exact (Nat.dvd_iff_mod_eq_zero).symm

/-- The range of a node is the interval of its leaves. -/
theorem range_label (h : t.LeftPerfect) (hb : t.hi < 2 ^ 64) :
    range t.hi t.height = .ok (t.lo, t.hi) := by
  have h1 : (t.hi - 1) % 2 ^ t.height = t.size - 1 := Nat.eq_sub_of_add_eq h.size_eq_mod
  have h2 := h.lo_add_size
  have h3 := h.hi_pos
  have h4 := h.lo_pos
  have h5 := t.size_pos
  rw [range, debugAssert_of (height_le_64 h hb), ok_bind, subBits_of_le h3, ok_bind,
    iMod2e_eq (by omega) (height_le_64 h hb), ok_bind, h1, subBits_of_le (by omega), ok_bind,
    pure_eq_ok, show t.hi - (t.size - 1) = t.lo by omega]

/-- A node contains the indices of its interval. -/
theorem contains_label (h : t.LeftPerfect) (hb : t.hi < 2 ^ 64) (k : ℕ) :
    contains t.hi t.height k = .ok (decide (t.lo ≤ k ∧ k ≤ t.hi)) := by
  rw [contains, debugAssert_of (height_le_64 h hb), ok_bind, range_label h hb, ok_bind, pure_eq_ok]

/-- Every node of a left-perfect tree is valid. -/
theorem isValid_label (h : t.LeftPerfect) (hb : t.hi < 2 ^ 64) :
    isValid t.hi t.height = .ok true := by
  have h1 := h.hi_pos
  rw [isValid, if_neg (Nat.pos_iff_ne_zero.mp h1)]
  cases t with
  | leaf k => exact if_pos rfl
  | node l r =>
    have hh := h.height_eq
    have h64 := height_le_64 h hb
    have hle := h.height_le_upTo
    rw [Tree.height_upTo h1] at hle
    rw [if_neg (by omega), ceilLog2_eq h1 hb.le, ok_bind, if_neg (by omega)]
    by_cases heq : (Tree.node l r).height = Nat.clog 2 (Tree.node l r).hi
    · rw [if_pos heq, pure_eq_ok]
    · rw [if_neg heq, isPbst_label h hb, ok_bind]
      by_cases hp : (Tree.node l r).Perfect
      · rw [decide_eq_true hp, if_pos rfl, pure_eq_ok]
      · -- an ephemeral node: the rest of its index is its number of leaves
        have hclog : Nat.clog 2 (Tree.node l r).hi ≤ 64 := Nat.clog_le_of_le_pow hb.le
        have hj : (Tree.node l r).height < 64 := by omega
        have hs := h.size_eq_mod
        have hlt := h.two_pow_lt_size
        have hsle := (Tree.node l r).size_le_two_pow
        have hsz : (Tree.node l r).hi % 2 ^ (Tree.node l r).height = (Tree.node l r).size := by
          have hne : (Tree.node l r).size ≠ 2 ^ (Tree.node l r).height := hp
          have hdvd := h.dvd_lo
          have hadd := h.lo_add_size
          have hlo := h.lo_pos
          have e : (Tree.node l r).hi = (Tree.node l r).size + ((Tree.node l r).lo - 1) := by omega
          rw [e, Nat.add_mod, Nat.mod_eq_zero_of_dvd hdvd, Nat.add_zero, Nat.mod_mod,
            Nat.mod_eq_of_lt (by omega)]
        have hw : ∀ {j : ℕ}, j < 64 → shlBits 64 1 j = .ok (2 ^ j) := fun {j} hj => by
          rw [shlBits_of_lt hj (by rw [Nat.one_mul]; exact two_pow_le_of_le (by omega)),
            Nat.one_mul]
        rw [decide_eq_false hp, if_neg Bool.false_ne_true, hw hj, ok_bind,
          subBits_of_le (Nat.two_pow_pos _), ok_bind, hw (by omega), ok_bind,
          Nat.and_two_pow_sub_one_eq_mod, hsz, hh, Nat.add_sub_cancel, decide_eq_true hlt,
          pure_eq_ok]

/-- **The children of a node have the names the formula computes.** -/
theorem subnodesOf_node (h : (Tree.node l r).LeftPerfect) (hb : r.hi < 2 ^ 64) :
    subnodesOf r.hi (Tree.node l r).height = .ok ((l.hi, l.height), (r.hi, r.height)) := by
  have hh := h.height_eq
  have h64 := height_le_64 h hb
  have hv := isValid_label h hb
  have hi := h.hi_pos
  have hlo := h.lo_pos
  have hsz := h.lo_add_size
  have hlsz := h.left.lo_add_size
  have hrsz := h.right.lo_add_size
  have hrlo := h.lo_right
  have hpos := (Tree.node l r).size_pos
  have hsle := (Tree.node l r).size_le_two_pow
  have hlp : l.size = 2 ^ l.height := h.perfect_left
  simp only [Tree.hi_node, Tree.lo_node] at hv hi hlo hsz
  -- the start of the node, a multiple of its width
  obtain ⟨c, hc⟩ := h.dvd_lo
  rw [Tree.lo_node] at hc
  have hdiv : (r.hi - 1) / 2 ^ (Tree.node l r).height = c := by
    rw [show r.hi - 1 = ((Tree.node l r).size - 1) + 2 ^ (Tree.node l r).height * c by omega,
      Nat.add_mul_div_left _ _ (Nat.two_pow_pos _), Nat.div_eq_of_lt (by omega), Nat.zero_add]
  have hupper : leftUpper r.hi (Tree.node l r).height = .ok (l.lo - 1) := by
    rw [leftUpper]
    -- at the full width the node starts at the first index, and there is nothing to shift
    by_cases hlt : (Tree.node l r).height < INDEX_SIZE
    · have hlt' : (Tree.node l r).height < 64 := hlt
      rw [if_pos hlt, subBits_of_le hi, ok_bind, shrBits_of_lt hlt', ok_bind, hdiv,
        shlBits_of_lt hlt' (by rw [Nat.mul_comm, ← hc]; omega), Nat.mul_comm, hc]
    · rw [if_neg hlt]
      have h64' : (Tree.node l r).height = 64 := le_antisymm h64 (Nat.le_of_not_lt hlt)
      rw [h64', Nat.div_eq_of_lt (by omega)] at hdiv
      rw [hc, ← hdiv, Nat.mul_zero]
  have hor : l.lo - 1 ||| 2 ^ l.height = l.hi := by
    have hlt : 2 ^ l.height < 2 ^ (Tree.node l r).height :=
      Nat.pow_lt_pow_right Nat.one_lt_two (by omega)
    rw [hc, ← Nat.two_pow_add_eq_or_of_lt hlt]
    omega
  have hsub : r.hi - l.hi = r.size := by omega
  have hrpos := r.size_pos
  rw [subnodesOf, hv, ok_bind, debugAssert_of rfl, ok_bind, hupper, ok_bind,
    subBits_of_le (by omega), ok_bind, show (Tree.node l r).height - 1 = l.height by omega,
    pow2e_eq (by omega), ok_bind, hor,
    subBits_of_le (by omega), ok_bind, hsub, ceilLog2_eq hrpos (by omega), ok_bind,
    ← h.right.height_eq_clog, pure_eq_ok]

/-- The root of a generation is the label of its tree. -/
theorem rootOf_eq {n : ℕ} (hn : 1 ≤ n) (hb : n < 2 ^ 64) :
    rootOf n = .ok (n, (Tree.upTo n).height) := by
  rw [rootOf, debugAssert_of (show 0 < n from hn), ok_bind, ceilLog2_eq hn hb.le, ok_bind,
    Tree.height_upTo hn, pure_eq_ok]

end Nodes

/-! ### The perfect subtrees of a generation -/

/-- The name of a tree. -/
def addr (t : Tree) : Addr := ⟨t.hi, t.height⟩

/-- The intermediate node of a pair of children. -/
def spineNode (p : Tree × Tree) : Formula.INode :=
  ⟨addr (.node p.1 p.2), addr p.1, addr p.2⟩

/-- The iteration over the perfect subtrees: what remains is the width of the tree
still to be tiled. -/
theorem pbstRootsFrom_eq (n : ℕ) : ∀ (fuel b m : ℕ), b + m = n → n < 2 ^ 64 → m < 2 ^ fuel →
    1 ≤ m → pbstRootsFrom n fuel m = .ok ((Tree.grow b m).peaks.map addr) := by
  intro fuel
  induction fuel with
  | zero =>
    intro b m _ _ hm h1
    rw [pow_zero] at hm
    omega
  | succ fuel ih =>
    intro b m hbm hn hm h1
    have hle : 2 ^ Nat.log 2 m ≤ m := Nat.pow_log_le_self 2 (by omega)
    have hlt : m < 2 * 2 ^ Nat.log 2 m := by
      have h := Nat.lt_pow_succ_log_self Nat.one_lt_two m
      rw [pow_succ] at h
      omega
    have hlog : Nat.log 2 m < 64 := Nat.log_lt_of_lt_pow (by omega) (by omega)
    have hpos := Nat.two_pow_pos (Nat.log 2 m)
    have hhead : addr (Tree.grow b (2 ^ Nat.log 2 m)) = ⟨b + 2 ^ Nat.log 2 m, Nat.log 2 m⟩ := by
      rw [addr, Tree.hi_grow _ _ hpos, Tree.height_grow _ _ hpos, Nat.clog_pow _ _ Nat.one_lt_two]
    rw [pbstRootsFrom, if_neg (show ¬m = 0 by omega), floorLog2_eq h1, ok_bind, pow2e_eq hlog,
      ok_bind, subBits_of_le (by omega), ok_bind, show n - m = b by omega,
      addBits_of_lt (by omega), ok_bind,
      subBits_of_le hle, ok_bind]
    -- the last subtree, or a rest that is narrower than the one before it
    rcases hle.eq_or_lt with heq | hlt'
    · have hnil : pbstRootsFrom n fuel (m - 2 ^ Nat.log 2 m) = .ok [] := by
        rw [heq, Nat.sub_self]
        cases fuel with
        | zero => exact if_pos rfl
        | succ fuel => exact if_pos rfl
      rw [hnil, ok_bind, pure_eq_ok, Tree.peaks_grow_of_eq b h1 heq.symm, ← hhead, heq]
      rfl
    · have hlog' : Nat.log 2 m ≤ fuel := by
        have h := (Nat.pow_lt_pow_iff_right Nat.one_lt_two).mp (lt_of_le_of_lt hle hm)
        omega
      have hfuel : m - 2 ^ Nat.log 2 m < 2 ^ fuel :=
        lt_of_lt_of_le (show m - 2 ^ Nat.log 2 m < 2 ^ Nat.log 2 m by omega)
          (Nat.pow_le_pow_right Nat.two_pos hlog')
      rw [ih (b + 2 ^ Nat.log 2 m) (m - 2 ^ Nat.log 2 m) (by omega) hn hfuel (by omega), ok_bind,
        pure_eq_ok, Tree.peaks_grow_of_lt b hlt', List.map_cons, hhead]

/-- **The perfect subtrees of a generation are the peaks of its tree.** -/
theorem pbstRoots_eq {n : ℕ} (hn : 1 ≤ n) (hb : n < 2 ^ 64) :
    Formula.pbstRoots n = .ok ((Tree.upTo n).peaks.map addr) :=
  pbstRootsFrom_eq n INDEX_SIZE 0 n (Nat.zero_add n) hb hb hn

/-! ### The model of a generation -/

/-- The inner nodes of a spine above the last peak. -/
def ephemerals : Tree → List Formula.INode
  | .leaf _ => []
  | .node l r => if (Tree.node l r).Perfect then [] else spineNode (l, r) :: ephemerals r

theorem ephemerals_of_perfect {t : Tree} (h : t.Perfect) : ephemerals t = [] := by
  cases t with
  | leaf k => rfl
  | node l r => exact if_pos h

theorem ephemerals_of_not_perfect {l r : Tree} (h : ¬(Tree.node l r).Perfect) :
    ephemerals (.node l r) = spineNode (l, r) :: ephemerals r := if_neg h

/-- Adding a peak in front does not change the rounds that do not reach it. -/
theorem pushEphemeral_cons (n : ℕ) (a : Addr) {pbsts : List Addr} (hne : 1 ≤ pbsts.length)
    (acc : List Formula.INode) {i : ℕ} (hi : i < pbsts.length - 1) :
    Model.pushEphemeral n (a :: pbsts) acc i = Model.pushEphemeral n pbsts acc i := by
  have hidx : ∀ k, (index (a :: pbsts) (k + 1) : Result Addr) = index pbsts k := fun _ => rfl
  obtain ⟨d, hd⟩ : ∃ d, pbsts.length - 1 - i = d + 1 := ⟨pbsts.length - 1 - i - 1, by omega⟩
  have hright : Model.ephemeralRight (a :: pbsts) (d + 2) acc =
      Model.ephemeralRight pbsts (d + 1) acc := by
    cases acc with
    | nil => exact hidx (d + 1)
    | cons e es => rfl
  simp only [Model.pushEphemeral, List.length_cons]
  rw [subBits_of_le (Nat.le_add_left 1 _), ok_bind, Nat.add_sub_cancel, subBits_of_le (by omega),
    ok_bind, show pbsts.length - i = d + 2 by omega, subBits_of_le (by omega), ok_bind,
    subBits_of_le hne, ok_bind, subBits_of_le hi.le, ok_bind, hd, subBits_of_le (by omega), ok_bind,
    hright, show d + 2 - 1 = d + 1 by omega, Nat.add_sub_cancel, hidx d]

theorem foldlM_congr {α β : Type} {f g : β → α → Result β} : ∀ (xs : List α) (b : β),
    (∀ b, ∀ x ∈ xs, f b x = g b x) → xs.foldlM f b = xs.foldlM g b
  | [], _, _ => rfl
  | x :: xs, b, h => by
    rw [List.foldlM_cons, List.foldlM_cons, h b x List.mem_cons_self]
    refine bind_congr fun b' => foldlM_congr xs b' fun b'' y hy => ?_
    exact h b'' y (List.mem_cons_of_mem _ hy)

theorem peaks_length_pos (t : Tree) : 1 ≤ t.peaks.length := by
  cases t with
  | leaf k => exact Nat.le_refl 1
  | node l r =>
    by_cases hp : (Tree.node l r).Perfect
    · rw [Tree.peaks_of_perfect hp]
      exact Nat.le_refl 1
    · rw [Tree.peaks_of_not_perfect hp]
      exact Nat.le_add_left 1 _

/-- The loop over the perfect subtrees creates the ephemeral nodes of the spine, from
the lowest to the highest. -/
theorem ephemerals_loop {t : Tree} (h : t.LeftPerfect) (hb : t.hi < 2 ^ 64) :
    (List.range ((t.peaks.map addr).length - 1)).foldlM
      (Model.pushEphemeral t.hi (t.peaks.map addr)) [] = .ok (ephemerals t) := by
  induction h with
  | leaf => rfl
  | @node l r hl hr hp hle ha hd _ ihr =>
    have hlr : (Tree.node l r).LeftPerfect := .node hl hr hp hle ha hd
    by_cases hperf : (Tree.node l r).Perfect
    · rw [Tree.peaks_of_perfect hperf, ephemerals_of_perfect hperf]
      rfl
    · have hpos : 1 ≤ (r.peaks.map addr).length := by
        rw [List.length_map]
        exact peaks_length_pos r
      have hh := hlr.height_eq
      have h64 := height_le_64 hlr hb
      rw [Tree.peaks_of_not_perfect hperf, ephemerals_of_not_perfect hperf, List.map_cons,
        List.length_cons, Nat.add_sub_cancel]
      obtain ⟨m, hm⟩ : ∃ m, (r.peaks.map addr).length = m + 1 := ⟨_, (Nat.sub_add_cancel hpos).symm⟩
      have ih := ihr hb
      rw [hm, Nat.add_sub_cancel] at ih
      have hcongr := foldlM_congr (f := Model.pushEphemeral r.hi (addr l :: r.peaks.map addr))
        (List.range m) [] fun acc i hi =>
          pushEphemeral_cons r.hi (addr l) hpos acc (by rw [hm]; exact List.mem_range.mp hi)
      rw [Tree.hi_node, hm, List.range_succ, List.foldlM_append, hcongr, ih, ok_bind,
        List.foldlM_cons]
      -- the last round: the new peak against the ephemeral node before it, or the last peak
      have hright : Model.ephemeralRight (addr l :: r.peaks.map addr) 1 (ephemerals r) =
          .ok (addr r) := by
        by_cases hrp : r.Perfect
        · rw [ephemerals_of_perfect hrp, Tree.peaks_of_perfect hrp]
          rfl
        · cases r with
          | leaf k => exact absurd (Tree.perfect_leaf k) hrp
          | node rl rr =>
            rw [ephemerals_of_not_perfect hrp]
            rfl
      rw [Model.pushEphemeral, List.length_cons, hm, subBits_of_le (by omega), ok_bind,
        subBits_of_le (by omega), ok_bind, show m + 1 + 1 - 1 - m = 1 by omega,
        subBits_of_le (Nat.le_refl 1), ok_bind, show (index (addr l :: r.peaks.map addr) (1 - 1) :
          Result Addr) = .ok (addr l) from rfl, ok_bind, addBits_of_lt (by
            rw [addr]
            simp only
            omega), ok_bind, hright, ok_bind]
      exact congrArg
        (fun j => Except.ok ((⟨⟨r.hi, j⟩, addr l, addr r⟩ : Formula.INode) :: ephemerals r)) hh.symm

/-- **The model of a generation**: the peaks of its tree and the ephemeral nodes of its
spine. -/
theorem new_eq {n : ℕ} (hn : 1 ≤ n) (hb : n < 2 ^ 64) :
    Model.new n = .ok ⟨n, (Tree.upTo n).peaks.map addr, ephemerals (Tree.upTo n)⟩ := by
  have hpos := peaks_length_pos (Tree.upTo n)
  have hlen : ((Tree.upTo n).peaks.map addr).length ≠ 0 := by
    rw [List.length_map]
    omega
  have hloop := ephemerals_loop (Tree.leftPerfect_upTo hn) (by rwa [Tree.hi_upTo hn])
  rw [Tree.hi_upTo hn] at hloop
  rw [Model.new, debugAssert_of (show n ≠ 0 by omega), ok_bind, pbstRoots_eq hn hb, ok_bind,
    debugAssert_of hlen, ok_bind, Model.createEphemeralNodes, debugAssert_of hlen, ok_bind,
    subBits_of_le (Nat.pos_of_ne_zero hlen), ok_bind, hloop, ok_bind, pure_eq_ok]

/-- The right edge of a perfect tree. -/
theorem edgeNode_mapM {t : Tree} (h : t.LeftPerfect) (hb : t.hi < 2 ^ 64) (hp : t.Perfect) :
    (List.range t.height).mapM (Model.edgeNode (addr t)) = .ok (t.spine.map spineNode) := by
  induction h with
  | leaf => rfl
  | @node l r hl hr hlp hle ha hd _ ihr =>
    have hlr : (Tree.node l r).LeftPerfect := .node hl hr hlp hle ha hd
    have hh := hlr.height_eq
    have hrp := hlr.perfect_right hp
    have hlo := hlr.lo_pos
    have hadd := hlr.lo_add_size
    have hladd := hl.lo_add_size
    have hsize : (Tree.node l r).size = 2 ^ (l.height + 1) := by rw [← hh]; exact hp
    have hlsize : l.size = 2 ^ l.height := hlp
    have hrh := hlr.height_right_of_perfect hp
    simp only [Tree.hi_node, Tree.lo_node] at hadd hb hlo
    have hj : l.height + 1 < 64 := by
      refine (Nat.pow_lt_pow_iff_right Nat.one_lt_two).mp ?_
      omega
    have hw : ∀ {j : ℕ}, j < 64 → shlBits 64 1 j = .ok (2 ^ j) := fun {j} hj => by
      rw [shlBits_of_lt hj (by rw [Nat.one_mul]; exact two_pow_le_of_le (by omega)), Nat.one_mul]
    have hfirst : Model.edgeNode (addr (.node l r)) 0 = .ok (spineNode (l, r)) := by
      rw [Model.edgeNode, addr, Tree.hi_node, hh]
      simp only
      rw [subBits_of_le (Nat.zero_le _), ok_bind, Nat.sub_zero, hw hj, ok_bind,
        subBits_of_le (Nat.le_add_left 1 _), ok_bind, Nat.add_sub_cancel, hw (by omega), ok_bind,
        subBits_of_le (by omega), ok_bind, addBits_of_lt (by omega), ok_bind, pure_eq_ok,
        show r.hi - 2 ^ (l.height + 1) + 2 ^ l.height = l.hi by omega, spineNode, addr, addr, addr,
        Tree.hi_node, hh, hrh]
    have hrest : ∀ k, Model.edgeNode (addr (.node l r)) (k + 1) = Model.edgeNode (addr r) k := by
      intro k
      simp only [Model.edgeNode, addr, Tree.hi_node, hh, hrh]
      by_cases hk : k ≤ l.height
      · rw [subBits_of_le (by omega), subBits_of_le hk, Nat.add_sub_add_right]
      · rw [subBits, if_neg (by omega), subBits, if_neg hk]
    have hcomp : Model.edgeNode (addr (.node l r)) ∘ Nat.succ = Model.edgeNode (addr r) :=
      funext hrest
    have ih := ihr hb hrp
    rw [hrh] at ih
    rw [hh, List.range_succ_eq_map, List.mapM_cons, hfirst, ok_bind, List.mapM_map, hcomp, ih,
      ok_bind, pure_eq_ok]
    rfl

/-- Below its ephemeral nodes, a spine is the right edge of its last peak. -/
theorem ephemerals_append (t : Tree) :
    ephemerals t ++ t.lastPeak.spine.map spineNode = t.spine.map spineNode := by
  induction t with
  | leaf k => rfl
  | node l r _ ihr =>
    by_cases hp : (Tree.node l r).Perfect
    · rw [ephemerals_of_perfect hp, Tree.lastPeak_of_perfect hp, List.nil_append]
    · rw [ephemerals_of_not_perfect hp, Tree.lastPeak_of_not_perfect hp, List.cons_append, ihr]
      rfl

theorem lastPeak_spec {t : Tree} (h : t.LeftPerfect) :
    t.lastPeak.LeftPerfect ∧ t.lastPeak.Perfect ∧ t.lastPeak.hi = t.hi := by
  induction h with
  | leaf hk => exact ⟨.leaf hk, Tree.perfect_leaf _, rfl⟩
  | @node l r hl hr hlp hle ha hd _ ihr =>
    by_cases hp : (Tree.node l r).Perfect
    · rw [Tree.lastPeak_of_perfect hp]
      exact ⟨.node hl hr hlp hle ha hd, hp, rfl⟩
    · rw [Tree.lastPeak_of_not_perfect hp]
      exact ihr

/-- Among the peaks, the search for a perfect subtree of the last index finds the last
peak, or nothing when that is a leaf. -/
theorem find_lastPeak {t : Tree} (h : t.LeftPerfect) :
    (t.peaks.map addr).find? (fun node => node.i = t.hi ∧ node.j ≠ 0) =
      if t.lastPeak.height ≠ 0 then some (addr t.lastPeak) else none := by
  induction h with
  | leaf => simp [Tree.peaks, Tree.lastPeak, addr]
  | @node l r hl hr hlp hle ha hd _ ihr =>
    have hlr : (Tree.node l r).LeftPerfect := .node hl hr hlp hle ha hd
    by_cases hp : (Tree.node l r).Perfect
    · rw [Tree.peaks_of_perfect hp, Tree.lastPeak_of_perfect hp, List.map_singleton,
        List.find?_singleton]
      simp [addr]
    · have hlt := hlr.hi_left_lt
      rw [Tree.peaks_of_not_perfect hp, Tree.lastPeak_of_not_perfect hp, List.map_cons,
        List.find?_cons_of_neg (by simp [addr, hlt.ne])]
      exact ihr

/-- **The nodes a generation adds are the spine of its tree**, from the leaf upwards. -/
theorem inodes_new {n : ℕ} (hn : 1 ≤ n) (hb : n < 2 ^ 64) :
    Model.inodes ⟨n, (Tree.upTo n).peaks.map addr, ephemerals (Tree.upTo n)⟩ =
      .ok ((Tree.upTo n).spine.map spineNode).reverse := by
  obtain ⟨h1, h2, h3⟩ := lastPeak_spec (Tree.leftPerfect_upTo hn)
  have hfind := find_lastPeak (Tree.leftPerfect_upTo hn)
  rw [Tree.hi_upTo hn] at hfind h3
  rw [Model.inodes, ceilLog2_eq hn hb.le, ok_bind]
  simp only [hfind]
  by_cases h0 : (Tree.upTo n).lastPeak.height ≠ 0
  · rw [if_pos h0]
    simp only
    rw [show (addr (Tree.upTo n).lastPeak).j = (Tree.upTo n).lastPeak.height from rfl,
      edgeNode_mapM h1 (by rw [h3]; exact hb) h2, ok_bind, pure_eq_ok, ephemerals_append]
  · rw [if_neg h0]
    simp only
    rw [ok_bind, pure_eq_ok, ← ephemerals_append]
    cases hl : (Tree.upTo n).lastPeak with
    | leaf k => rfl
    | node l r =>
      rw [hl, Tree.height_node] at h0
      omega

end FormulaTree

end StratifiedHashTree
