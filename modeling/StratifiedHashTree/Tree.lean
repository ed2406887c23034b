import Mathlib.Data.Nat.Log
import Mathlib.Tactic.Ring
import Mathlib.Tactic.Linarith

/-!
# Left-perfect trees

The shape of a hash tree over a growing list of leaves: every left subtree is
perfect – a full binary tree with a power of two of leaves – and whatever is left
over goes to the right. Appending a leaf then never touches a left subtree, which
is why such trees are the ones an append-only log is authenticated with.

A `StratifiedHashTree.Tree` carries the indices of its leaves and nothing else. A
node is named by its *label*: the greatest index below it and its height. On a
left-perfect tree (`StratifiedHashTree.Tree.LeftPerfect`) the label determines the
whole subtree (`StratifiedHashTree.Tree.LeftPerfect.eq_of_label`), and this is what
allows two trees of different sizes to be compared node by node.

The tree over the indices `b + 1, …, b + s` is `StratifiedHashTree.Tree.grow`. Two
lists are read off a tree from its root downwards, always going right:

* the **spine** (`StratifiedHashTree.Tree.spine`), the inner nodes on the way to
  the last leaf – these are the nodes that an append creates;
* the **peaks** (`StratifiedHashTree.Tree.peaks`), the perfect subtrees that tile
  the leaves from left to right – these are what an append has to remember.

The two are one list seen twice: the left children of the spine after an append
are the peaks before it (`StratifiedHashTree.Tree.spine_grow_succ`).
-/

namespace StratifiedHashTree

/-- A binary tree whose leaves carry an index. -/
inductive Tree where
  /-- A leaf. -/
  | leaf (k : ℕ)
  /-- An inner node. -/
  | node (l r : Tree)
  deriving DecidableEq, Repr

namespace Tree

/-- The distance to the furthest leaf. -/
def height : Tree → ℕ
  | leaf _ => 0
  | node l r => max l.height r.height + 1

/-- The number of leaves. -/
def size : Tree → ℕ
  | leaf _ => 1
  | node l r => l.size + r.size

/-- The index of the leftmost leaf. -/
def lo : Tree → ℕ
  | leaf k => k
  | node l _ => l.lo

/-- The index of the rightmost leaf. -/
def hi : Tree → ℕ
  | leaf k => k
  | node _ r => r.hi

/-- The name of a node: the greatest index below it, and its height. -/
def label (t : Tree) : ℕ × ℕ := (t.hi, t.height)

@[simp] theorem height_leaf (k : ℕ) : (leaf k).height = 0 := rfl

@[simp] theorem size_leaf (k : ℕ) : (leaf k).size = 1 := rfl

@[simp] theorem lo_leaf (k : ℕ) : (leaf k).lo = k := rfl

@[simp] theorem hi_leaf (k : ℕ) : (leaf k).hi = k := rfl

@[simp] theorem size_node (l r : Tree) : (node l r).size = l.size + r.size := rfl

@[simp] theorem lo_node (l r : Tree) : (node l r).lo = l.lo := rfl

@[simp] theorem hi_node (l r : Tree) : (node l r).hi = r.hi := rfl

theorem height_node (l r : Tree) : (node l r).height = max l.height r.height + 1 := rfl

theorem size_pos : ∀ t : Tree, 0 < t.size
  | leaf _ => Nat.one_pos
  | node l _ => Nat.add_pos_left l.size_pos _

theorem height_left_lt (l r : Tree) : l.height < (node l r).height := by
  rw [height_node]
  omega

theorem height_right_lt (l r : Tree) : r.height < (node l r).height := by
  rw [height_node]
  omega

/-- A tree has at most as many leaves as its height allows. -/
theorem size_le_two_pow : ∀ t : Tree, t.size ≤ 2 ^ t.height
  | leaf _ => Nat.le_refl _
  | node l r => by
    have hl : l.size ≤ 2 ^ max l.height r.height :=
      l.size_le_two_pow.trans (Nat.pow_le_pow_right Nat.two_pos (Nat.le_max_left _ _))
    have hr : r.size ≤ 2 ^ max l.height r.height :=
      r.size_le_two_pow.trans (Nat.pow_le_pow_right Nat.two_pos (Nat.le_max_right _ _))
    rw [size_node, height_node, pow_succ]
    omega

/-- A perfect tree has every leaf its height allows. -/
def Perfect (t : Tree) : Prop := t.size = 2 ^ t.height

instance (t : Tree) : Decidable t.Perfect := inferInstanceAs (Decidable (t.size = 2 ^ t.height))

theorem perfect_leaf (k : ℕ) : (leaf k).Perfect := rfl

/-- **Left-perfect trees**: every left subtree is perfect, no right subtree is
higher than its sibling, the indices are consecutive, and a node starts at a
multiple of its own width. -/
inductive LeftPerfect : Tree → Prop
  /-- A leaf, at an index counted from one. -/
  | leaf {k : ℕ} : 1 ≤ k → LeftPerfect (leaf k)
  /-- An inner node. -/
  | node {l r : Tree} : LeftPerfect l → LeftPerfect r → l.Perfect → r.height ≤ l.height →
      r.lo = l.hi + 1 → 2 ^ (l.height + 1) ∣ l.lo - 1 → LeftPerfect (node l r)

namespace LeftPerfect

variable {t u l r : Tree}

theorem left (h : LeftPerfect (.node l r)) : LeftPerfect l := by
  cases h with
  | node hl => exact hl

theorem right (h : LeftPerfect (.node l r)) : LeftPerfect r := by
  cases h with
  | node _ hr => exact hr

theorem perfect_left (h : LeftPerfect (.node l r)) : l.Perfect := by
  cases h with
  | node _ _ hp => exact hp

theorem lo_right (h : LeftPerfect (.node l r)) : r.lo = l.hi + 1 := by
  cases h with
  | node _ _ _ _ ha => exact ha

theorem height_right_le (h : LeftPerfect (.node l r)) : r.height ≤ l.height := by
  cases h with
  | node _ _ _ hh => exact hh

theorem height_eq (h : LeftPerfect (.node l r)) : (Tree.node l r).height = l.height + 1 := by
  rw [height_node, Nat.max_eq_left h.height_right_le]

theorem lo_pos (h : LeftPerfect t) : 1 ≤ t.lo := by
  induction h with
  | leaf hk => exact hk
  | node _ _ _ _ _ _ ihl _ => exact ihl

/-- The indices below a node are consecutive. -/
theorem lo_add_size (h : LeftPerfect t) : t.lo + t.size = t.hi + 1 := by
  induction h with
  | leaf => rfl
  | node _ _ _ _ ha _ ihl ihr =>
    simp only [lo_node, size_node, hi_node]
    omega

theorem lo_le_hi (h : LeftPerfect t) : t.lo ≤ t.hi := by
  have h1 := h.lo_add_size
  have h2 := t.size_pos
  omega

theorem hi_pos (h : LeftPerfect t) : 1 ≤ t.hi := h.lo_pos.trans h.lo_le_hi

theorem hi_left_lt (h : LeftPerfect (.node l r)) : l.hi < r.hi := by
  have h1 := h.right.lo_le_hi
  have h2 := h.lo_right
  omega

/-- A node starts at a multiple of its own width. -/
theorem dvd_lo (h : LeftPerfect t) : 2 ^ t.height ∣ t.lo - 1 := by
  cases h with
  | leaf => exact one_dvd _
  | node hl hr hp hh ha hd => rwa [(LeftPerfect.node hl hr hp hh ha hd).height_eq]

/-- A tree is more than half full. -/
theorem two_pow_lt_size (h : LeftPerfect (.node l r)) : 2 ^ l.height < (Tree.node l r).size := by
  have h1 : l.size = 2 ^ l.height := h.perfect_left
  have h2 := r.size_pos
  rw [size_node]
  omega

/-- The height of a left-perfect tree is the logarithm of its size. -/
theorem height_eq_clog (h : LeftPerfect t) : t.height = Nat.clog 2 t.size := by
  refine le_antisymm ?_ (Nat.clog_le_of_le_pow t.size_le_two_pow)
  cases t with
  | leaf k => exact Nat.zero_le _
  | node l r =>
    rw [h.height_eq]
    exact (Nat.lt_clog_iff_pow_lt Nat.one_lt_two).mpr h.two_pow_lt_size

/-- The size of a node can be computed from its label. -/
theorem size_eq_mod (h : LeftPerfect t) : (t.hi - 1) % 2 ^ t.height + 1 = t.size := by
  obtain ⟨c, hc⟩ := h.dvd_lo
  have h1 := h.lo_add_size
  have h2 := h.lo_pos
  have h3 := t.size_pos
  have h4 := t.size_le_two_pow
  have h5 : t.hi - 1 = (t.size - 1) + 2 ^ t.height * c := by omega
  rw [h5, Nat.add_mul_mod_self_left, Nat.mod_eq_of_lt (by omega)]
  omega

/-- **The label of a node determines its subtree.** -/
theorem eq_of_label (ht : LeftPerfect t) : ∀ {u : Tree}, LeftPerfect u → t.hi = u.hi →
    t.height = u.height → t = u := by
  induction ht with
  | @leaf k hk =>
    intro u hu hhi hh
    cases u with
    | leaf k' => exact congrArg Tree.leaf hhi
    | node l' r' => rw [hu.height_eq] at hh; exact absurd hh (Nat.succ_ne_zero _).symm
  | @node l r hl hr hp hle ha hd ihl ihr =>
    intro u hu hhi hh
    have ht : LeftPerfect (.node l r) := .node hl hr hp hle ha hd
    cases u with
    | leaf k' => rw [ht.height_eq] at hh; exact absurd hh (Nat.succ_ne_zero _)
    | node l' r' =>
      have hsize : (Tree.node l r).size = (Tree.node l' r').size := by
        rw [← ht.size_eq_mod, ← hu.size_eq_mod, hhi, hh]
      have hlh : l.height = l'.height := by
        have h1 := ht.height_eq
        have h2 := hu.height_eq
        omega
      have hls : l.size = l'.size := by
        rw [show l.size = 2 ^ l.height from hp, show l'.size = 2 ^ l'.height from hu.perfect_left,
          hlh]
      have hrs : r.size = r'.size := by
        rw [size_node, size_node] at hsize
        omega
      have hlhi : l.hi = l'.hi := by
        have h1 := hr.lo_add_size
        have h2 := hu.right.lo_add_size
        have h3 := hu.lo_right
        simp only [hi_node] at hhi
        omega
      have hrh : r.height = r'.height := by
        rw [hr.height_eq_clog, hu.right.height_eq_clog, hrs]
      rw [ihl hu.left hlhi hlh, ihr hu.right hhi hrh]

/-- A node is perfect exactly when its last index is a multiple of its width. -/
theorem perfect_iff_dvd (h : LeftPerfect t) : t.Perfect ↔ 2 ^ t.height ∣ t.hi := by
  have h1 := h.lo_add_size
  have h2 := h.lo_pos
  have h3 := h.dvd_lo
  have h4 : t.hi = (t.lo - 1) + t.size := by omega
  rw [h4]
  constructor
  · intro hp
    have hp' : t.size = 2 ^ t.height := hp
    exact (Nat.dvd_add_right h3).mpr (by rw [hp'])
  · intro hd
    exact le_antisymm t.size_le_two_pow
      (Nat.le_of_dvd t.size_pos ((Nat.dvd_add_right h3).mp hd))

/-- The two sides of a perfect node are of one size. -/
theorem size_right_of_perfect (h : LeftPerfect (.node l r)) (hp : (Tree.node l r).Perfect) :
    r.size = 2 ^ l.height := by
  have h1 : l.size = 2 ^ l.height := h.perfect_left
  have h2 : l.size + r.size = 2 ^ (Tree.node l r).height := hp
  rw [h.height_eq, pow_succ] at h2
  omega

/-- The two sides of a perfect node are of one height. -/
theorem height_right_of_perfect (h : LeftPerfect (.node l r)) (hp : (Tree.node l r).Perfect) :
    r.height = l.height := by
  rw [h.right.height_eq_clog, h.size_right_of_perfect hp, Nat.clog_pow _ _ Nat.one_lt_two]

/-- Under a perfect node everything is perfect. -/
theorem perfect_right (h : LeftPerfect (.node l r)) (hp : (Tree.node l r).Perfect) : r.Perfect := by
  rw [Perfect, h.size_right_of_perfect hp, h.height_right_of_perfect hp]

end LeftPerfect

/-! ### The tree over an interval -/

/-- The width of the left subtree of a tree with `s` leaves: the greatest power of
two below `s`. -/
def split (s : ℕ) : ℕ := 2 ^ Nat.log 2 (s - 1)

theorem split_pos (s : ℕ) : 0 < split s := Nat.two_pow_pos _

theorem split_lt {s : ℕ} (hs : 2 ≤ s) : split s < s := by
  have h := Nat.pow_log_le_self 2 (show s - 1 ≠ 0 by omega)
  rw [split]
  omega

theorem sub_split_le {s : ℕ} (hs : 2 ≤ s) : s - split s ≤ split s := by
  have h := Nat.lt_pow_succ_log_self Nat.one_lt_two (s - 1)
  rw [pow_succ] at h
  rw [split]
  omega

/-- The height of a tree, one level down. -/
theorem clog_eq_log_succ {s : ℕ} (hs : 2 ≤ s) : Nat.clog 2 s = Nat.log 2 (s - 1) + 1 := by
  refine le_antisymm (Nat.clog_le_of_le_pow ?_) ?_
  · have h := Nat.lt_pow_succ_log_self Nat.one_lt_two (s - 1)
    omega
  · exact (Nat.lt_clog_iff_pow_lt Nat.one_lt_two).mpr (split_lt hs)

/-- The left-perfect tree over the indices `b + 1, …, b + s`. -/
def grow (b s : ℕ) : Tree :=
  if h : s ≤ 1 then leaf (b + 1)
  else node (grow b (split s)) (grow (b + split s) (s - split s))
termination_by s
decreasing_by
  · exact split_lt (by omega)
  · have := split_pos s
    omega

/-- The tree over the indices `1, …, n`. -/
def upTo (n : ℕ) : Tree := grow 0 n

theorem grow_one (b : ℕ) : grow b 1 = leaf (b + 1) := by
  rw [grow, dif_pos (Nat.le_refl 1)]

theorem grow_of_two_le (b : ℕ) {s : ℕ} (hs : 2 ≤ s) :
    grow b s = node (grow b (split s)) (grow (b + split s) (s - split s)) := by
  rw [grow, dif_neg (by omega)]

/-- **Induction along an interval**: a single leaf, or an interval cut at the
greatest power of two below its length. -/
theorem grow_induction {P : ℕ → ℕ → Prop} (leaf : ∀ b, P b 1)
    (node : ∀ b s, 2 ≤ s → P b (split s) → P (b + split s) (s - split s) → P b s) :
    ∀ (s b : ℕ), 1 ≤ s → P b s := by
  intro s
  induction s using Nat.strong_induction_on with
  | _ s ih =>
    intro b hs
    rcases Nat.lt_or_ge s 2 with h1 | h2
    · obtain rfl : s = 1 := by omega
      exact leaf b
    · have hp := split_pos s
      have hlt := split_lt h2
      exact node b s h2 (ih _ hlt b hp) (ih _ (by omega) _ (by omega))

theorem size_grow (b s : ℕ) (hs : 1 ≤ s) : (grow b s).size = s := by
  refine grow_induction (P := fun b s => (grow b s).size = s) ?_ ?_ s b hs
  · intro b
    rw [grow_one, size_leaf]
  · intro b s h2 hl hr
    have hlt := split_lt h2
    rw [grow_of_two_le b h2, size_node, hl, hr]
    omega

theorem lo_grow (b s : ℕ) (hs : 1 ≤ s) : (grow b s).lo = b + 1 := by
  refine grow_induction (P := fun b s => (grow b s).lo = b + 1) ?_ ?_ s b hs
  · intro b
    rw [grow_one, lo_leaf]
  · intro b s h2 hl _
    rw [grow_of_two_le b h2, lo_node, hl]

theorem hi_grow (b s : ℕ) (hs : 1 ≤ s) : (grow b s).hi = b + s := by
  refine grow_induction (P := fun b s => (grow b s).hi = b + s) ?_ ?_ s b hs
  · intro b
    rw [grow_one, hi_leaf]
  · intro b s h2 _ hr
    have hlt := split_lt h2
    rw [grow_of_two_le b h2, hi_node, hr]
    omega

theorem clog_split (s : ℕ) : Nat.clog 2 (split s) = Nat.log 2 (s - 1) :=
  Nat.clog_pow _ _ Nat.one_lt_two

theorem height_grow (b s : ℕ) (hs : 1 ≤ s) : (grow b s).height = Nat.clog 2 s := by
  refine grow_induction (P := fun b s => (grow b s).height = Nat.clog 2 s) ?_ ?_ s b hs
  · intro b
    rw [grow_one, height_leaf, Nat.clog_one_right]
  · intro b s h2 hl hr
    have hle : Nat.clog 2 (s - split s) ≤ Nat.log 2 (s - 1) :=
      Nat.clog_le_of_le_pow (sub_split_le h2)
    rw [grow_of_two_le b h2, height_node, hl, hr, clog_split, clog_eq_log_succ h2,
      Nat.max_eq_left hle]

/-- Over an interval that starts at a multiple of its width, the tree is
left-perfect. -/
theorem leftPerfect_grow (b s : ℕ) (hs : 1 ≤ s) :
    2 ^ Nat.clog 2 s ∣ b → LeftPerfect (grow b s) := by
  refine grow_induction (P := fun b s => 2 ^ Nat.clog 2 s ∣ b → LeftPerfect (grow b s)) ?_ ?_ s b hs
  · intro b _
    rw [grow_one]
    exact .leaf (Nat.succ_pos b)
  · intro b s h2 hl hr hd
    have hp := split_pos s
    have hlt := split_lt h2
    have hle : Nat.clog 2 (s - split s) ≤ Nat.log 2 (s - 1) :=
      Nat.clog_le_of_le_pow (sub_split_le h2)
    have hdl : 2 ^ Nat.log 2 (s - 1) ∣ b := by
      rw [clog_eq_log_succ h2] at hd
      exact (pow_dvd_pow 2 (Nat.le_succ _)).trans hd
    rw [grow_of_two_le b h2]
    refine .node (hl (by rwa [clog_split])) (hr ?_) ?_ ?_ ?_ ?_
    · exact (pow_dvd_pow 2 hle).trans ((Nat.dvd_add_right hdl).mpr (dvd_refl _))
    · rw [Perfect, size_grow _ _ hp, height_grow _ _ hp, clog_split, split]
    · rw [height_grow _ _ hp, height_grow _ _ (by omega), clog_split]
      exact hle
    · rw [lo_grow _ _ (by omega), hi_grow _ _ hp]
    · rw [height_grow _ _ hp, lo_grow _ _ hp, clog_split, Nat.add_sub_cancel]
      rwa [clog_eq_log_succ h2] at hd

/-- The tree over the first indices is left-perfect. -/
theorem leftPerfect_upTo {n : ℕ} (hn : 1 ≤ n) : LeftPerfect (upTo n) :=
  leftPerfect_grow 0 n hn (dvd_zero _)

theorem lo_upTo {n : ℕ} (hn : 1 ≤ n) : (upTo n).lo = 1 := lo_grow 0 n hn

theorem hi_upTo {n : ℕ} (hn : 1 ≤ n) : (upTo n).hi = n := by
  rw [upTo, hi_grow 0 n hn, Nat.zero_add]

theorem height_upTo {n : ℕ} (hn : 1 ≤ n) : (upTo n).height = Nat.clog 2 n := height_grow 0 n hn

/-- A perfect tree over an interval has a power of two of leaves. -/
theorem perfect_grow_iff (b s : ℕ) (hs : 1 ≤ s) : (grow b s).Perfect ↔ s = 2 ^ Nat.log 2 s := by
  rw [Perfect, size_grow b s hs, height_grow b s hs]
  constructor
  · intro h
    rw [h, Nat.log_pow Nat.one_lt_two]
  · intro h
    rw [h, Nat.clog_pow _ _ Nat.one_lt_two]

/-! ### The spine and the peaks -/

/-- The inner nodes on the way from the root to the last leaf, as the pairs of
their children. -/
def spine : Tree → List (Tree × Tree)
  | leaf _ => []
  | node l r => (l, r) :: spine r

/-- The perfect subtrees that tile the leaves, from left to right. -/
def peaks : Tree → List Tree
  | leaf k => [leaf k]
  | node l r => if (node l r).Perfect then [node l r] else l :: peaks r

@[simp] theorem spine_leaf (k : ℕ) : (leaf k).spine = [] := rfl

@[simp] theorem spine_node (l r : Tree) : (node l r).spine = (l, r) :: r.spine := rfl

theorem peaks_of_perfect {t : Tree} (h : t.Perfect) : t.peaks = [t] := by
  cases t with
  | leaf k => rfl
  | node l r => exact if_pos h

theorem peaks_of_not_perfect {l r : Tree} (h : ¬(node l r).Perfect) :
    (node l r).peaks = l :: r.peaks := if_neg h

/-- The last peak: the perfect subtree that holds the last leaf. -/
def lastPeak : Tree → Tree
  | leaf k => leaf k
  | node l r => if (node l r).Perfect then node l r else r.lastPeak

theorem lastPeak_of_perfect {t : Tree} (h : t.Perfect) : t.lastPeak = t := by
  cases t with
  | leaf k => rfl
  | node l r => exact if_pos h

theorem lastPeak_of_not_perfect {l r : Tree} (h : ¬(node l r).Perfect) :
    (node l r).lastPeak = r.lastPeak := if_neg h

/-- The peaks of the tree over a power of two of leaves. -/
theorem peaks_grow_of_eq (b : ℕ) {s : ℕ} (hs : 1 ≤ s) (h : s = 2 ^ Nat.log 2 s) :
    (grow b s).peaks = [grow b s] := peaks_of_perfect ((perfect_grow_iff b s hs).mpr h)

/-- Cutting the greatest power of two off the leaves cuts a tree at its first peak. -/
theorem grow_of_lt (b : ℕ) {s : ℕ} (h : 2 ^ Nat.log 2 s < s) :
    grow b s =
      node (grow b (2 ^ Nat.log 2 s)) (grow (b + 2 ^ Nat.log 2 s) (s - 2 ^ Nat.log 2 s)) := by
  have hpos := Nat.two_pow_pos (Nat.log 2 s)
  have hlog : Nat.log 2 (s - 1) = Nat.log 2 s := by
    refine Nat.log_eq_of_pow_le_of_lt_pow (by omega) ?_
    have h := Nat.lt_pow_succ_log_self Nat.one_lt_two s
    omega
  rw [grow_of_two_le b (by omega), split, hlog]

/-- Cutting the greatest power of two off the leaves peels the first peak off. -/
theorem peaks_grow_of_lt (b : ℕ) {s : ℕ} (h : 2 ^ Nat.log 2 s < s) :
    (grow b s).peaks =
      grow b (2 ^ Nat.log 2 s) :: (grow (b + 2 ^ Nat.log 2 s) (s - 2 ^ Nat.log 2 s)).peaks := by
  have hnp : ¬(grow b s).Perfect := fun hp => by
    have := (perfect_grow_iff b s (Nat.zero_lt_of_lt h)).mp hp
    omega
  rw [grow_of_lt b h] at hnp ⊢
  exact peaks_of_not_perfect hnp

/-- **What an append hangs its spine on**: the left children of the new spine are
the peaks of the old tree. -/
theorem spine_grow_succ (b s : ℕ) (hs : 1 ≤ s) :
    (grow b (s + 1)).spine.map Prod.fst = (grow b s).peaks := by
  induction s using Nat.strong_induction_on generalizing b with
  | _ s ih =>
    have hw : split (s + 1) = 2 ^ Nat.log 2 s := rfl
    have hle : 2 ^ Nat.log 2 s ≤ s := Nat.pow_log_le_self 2 (by omega)
    have hpos := Nat.two_pow_pos (Nat.log 2 s)
    rw [grow_of_two_le b (by omega : 2 ≤ s + 1), spine_node, List.map_cons, hw]
    rcases hle.eq_or_lt with heq | hlt
    · -- a perfect tree is its own only peak, and the new leaf is the right child
      rw [peaks_grow_of_eq b hs heq.symm, heq, show s + 1 - s = 1 by omega, grow_one]
      rfl
    · rw [peaks_grow_of_lt b hlt, show s + 1 - 2 ^ Nat.log 2 s = s - 2 ^ Nat.log 2 s + 1 by omega]
      exact congrArg _ (ih (s - 2 ^ Nat.log 2 s) (by omega) _ (by omega))

/-- The left children of the spine of the next tree are the peaks of this one. -/
theorem spine_upTo_succ {n : ℕ} (hn : 1 ≤ n) :
    (upTo (n + 1)).spine.map Prod.fst = (upTo n).peaks := spine_grow_succ 0 n hn

namespace LeftPerfect

variable {t u : Tree}

/-- The pairs on a spine are children of left-perfect nodes that end where the
tree does. -/
theorem of_mem_spine (h : LeftPerfect t) : ∀ {p : Tree × Tree}, p ∈ t.spine →
    LeftPerfect (Tree.node p.1 p.2) ∧ p.2.hi = t.hi ∧ t.lo ≤ p.1.lo ∧
      (Tree.node p.1 p.2).height ≤ t.height := by
  induction h with
  | leaf => exact fun hp => absurd hp List.not_mem_nil
  | @node l r hl hr hp hle ha hd _ ihr =>
    have hlr : LeftPerfect (.node l r) := .node hl hr hp hle ha hd
    intro p hmem
    rcases List.mem_cons.mp hmem with rfl | hmem
    · exact ⟨hlr, rfl, Nat.le_refl _, Nat.le_refl _⟩
    · obtain ⟨h1, h2, h3, h4⟩ := ihr hmem
      have h5 := hl.lo_le_hi
      refine ⟨h1, h2, ?_, h4.trans (height_right_lt l r).le⟩
      rw [lo_node]
      omega

/-- **A node is on the spine of every tree that ends where it ends** and is high
enough: what lies to its right does not depend on how far the tree reaches to the
left. -/
theorem spine_suffix (hu : LeftPerfect u) : ∀ {t : Tree}, LeftPerfect t → t.hi = u.hi →
    t.height ≤ u.height → t.spine <:+ u.spine := by
  induction hu with
  | leaf =>
    intro t _ _ hle
    cases t with
    | leaf => exact List.suffix_refl _
    | node l r => exact absurd hle (by rw [height_node, height_leaf]; omega)
  | @node l r hl hr hp hle ha hd _ ihr =>
    have hlr : LeftPerfect (.node l r) := .node hl hr hp hle ha hd
    intro t ht hhi hth
    rcases hth.eq_or_lt with heq | hlt
    · obtain rfl := ht.eq_of_label hlr hhi heq
      exact List.suffix_refl _
    · refine (ihr ht hhi ?_).trans (List.suffix_cons _ _)
      cases t with
      | leaf => exact Nat.zero_le _
      | node tl tr =>
        -- both `t` and the left child end at multiples of the width of `t`, so `t`
        -- starts to the right of the left child and fits into the right one
        rw [hlr.height_eq] at hlt
        have hdl : 2 ^ (Tree.node tl tr).height ∣ l.hi :=
          (pow_dvd_pow 2 (Nat.lt_succ_iff.mp hlt)).trans (hl.perfect_iff_dvd.mp hp)
        have hdt := ht.dvd_lo
        have h1 := ht.lo_add_size
        have h2 := hr.lo_add_size
        have h3 := (Tree.node tl tr).size_le_two_pow
        have h4 := hr.lo_le_hi
        have h5 := ht.lo_pos
        have hlo : l.hi ≤ (Tree.node tl tr).lo - 1 := by
          by_contra hcon
          have h6 : (Tree.node tl tr).lo - 1 + 2 ^ (Tree.node tl tr).height ≤ l.hi := by
            obtain ⟨a, ha'⟩ := hdl
            obtain ⟨c, hc⟩ := hdt
            rw [ha', hc] at hcon ⊢
            have h7 : c < a := lt_of_mul_lt_mul_left (Nat.lt_of_not_le hcon) (Nat.zero_le _)
            calc 2 ^ (Tree.node tl tr).height * c + 2 ^ (Tree.node tl tr).height
                = 2 ^ (Tree.node tl tr).height * (c + 1) := by ring
              _ ≤ 2 ^ (Tree.node tl tr).height * a := Nat.mul_le_mul_left _ h7
          simp only [hi_node] at hhi h1
          omega
        have hsize : (Tree.node tl tr).size ≤ r.size := by
          rw [hi_node] at hhi h1
          simp only [hi_node] at hhi
          omega
        rw [ht.height_eq]
        refine (Nat.pow_lt_pow_iff_right Nat.one_lt_two).mp ?_
        exact lt_of_lt_of_le ht.two_pow_lt_size (hsize.trans r.size_le_two_pow)

/-- A left-perfect tree is no higher than the tree over all indices up to its last. -/
theorem height_le_upTo (h : LeftPerfect t) : t.height ≤ (upTo t.hi).height := by
  have h1 := h.lo_add_size
  have h2 := h.lo_pos
  rw [height_upTo h.hi_pos, h.height_eq_clog]
  exact Nat.clog_mono_right 2 (by omega)

/-- Every left-perfect tree sits on the spine of the tree over the indices up to
its last one. -/
theorem spine_suffix_upTo (h : LeftPerfect t) : t.spine <:+ (upTo t.hi).spine :=
  (leftPerfect_upTo h.hi_pos).spine_suffix h (hi_upTo h.hi_pos).symm h.height_le_upTo

/-- The peaks are perfect, end inside the tree and are no higher than it. -/
theorem of_mem_peaks (h : LeftPerfect t) : ∀ {p : Tree}, p ∈ t.peaks →
    LeftPerfect p ∧ p.Perfect ∧ t.lo ≤ p.lo ∧ p.hi ≤ t.hi := by
  induction h with
  | leaf hk =>
    intro p hp
    rw [peaks, List.mem_singleton] at hp
    rw [hp]
    exact ⟨.leaf hk, perfect_leaf _, Nat.le_refl _, Nat.le_refl _⟩
  | @node l r hl hr hp hle ha hd _ ihr =>
    have hlr : LeftPerfect (.node l r) := .node hl hr hp hle ha hd
    intro p hmem
    by_cases hperf : (Tree.node l r).Perfect
    · rw [peaks_of_perfect hperf, List.mem_singleton] at hmem
      rw [hmem]
      exact ⟨hlr, hperf, Nat.le_refl _, Nat.le_refl _⟩
    · rw [peaks_of_not_perfect hperf] at hmem
      rcases List.mem_cons.mp hmem with rfl | hmem
      · exact ⟨hl, hp, Nat.le_refl _, hlr.hi_left_lt.le⟩
      · obtain ⟨h1, h2, h3, h4⟩ := ihr hmem
        have h5 := hl.lo_le_hi
        refine ⟨h1, h2, ?_, h4⟩
        rw [lo_node]
        omega

/-- The peaks come in the order of their indices. -/
theorem peaks_sorted (h : LeftPerfect t) : t.peaks.Pairwise fun p q => p.hi < q.lo := by
  induction h with
  | leaf => exact List.pairwise_singleton _ _
  | @node l r hl hr hp hle ha hd _ ihr =>
    by_cases hperf : (Tree.node l r).Perfect
    · rw [peaks_of_perfect hperf]
      exact List.pairwise_singleton _ _
    · rw [peaks_of_not_perfect hperf]
      refine List.pairwise_cons.mpr ⟨fun q hq => ?_, ihr⟩
      have h1 := (hr.of_mem_peaks hq).2.2.1
      omega

/-- **The left children of a spine tile everything before the last leaf**: an
index below the last one lies under exactly one of them. -/
theorem exists_mem_spine (h : LeftPerfect t) {k : ℕ} (hlo : t.lo ≤ k) (hhi : k < t.hi) :
    ∃ p ∈ t.spine, p.1.lo ≤ k ∧ k ≤ p.1.hi := by
  induction h with
  | leaf => exact absurd hhi (by simpa using hlo)
  | @node l r hl hr hp hle ha hd _ ihr =>
    rcases Nat.lt_or_ge l.hi k with hk | hk
    · obtain ⟨p, hmem, hp⟩ := ihr (by omega) hhi
      exact ⟨p, List.mem_cons_of_mem _ hmem, hp⟩
    · exact ⟨(l, r), List.mem_cons_self, hlo, hk⟩

end LeftPerfect

end Tree

end StratifiedHashTree
