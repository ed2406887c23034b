import StratifiedHashTree.Tree

/-!
# Paths and tilings

The path from the root of a tree to a leaf, seen from its sides. What hangs off a path
are the *siblings* of its nodes (`StratifiedHashTree.Tree.siblings`); together with the
leaf itself they are the *parts* into which the path cuts the tree
(`StratifiedHashTree.Tree.parts`), listed from left to right. The parts tile the leaves:
they are disjoint (`StratifiedHashTree.Tree.LeftPerfect.parts_sorted`) and no leaf is
missed (`StratifiedHashTree.Tree.LeftPerfect.exists_mem_parts`).

The parts around a leaf of a subtree refine the subtree and nothing else
(`StratifiedHashTree.Tree.LeftPerfect.mem_parts_of_sub`); a search that goes from a part
to the parts around its last leaf therefore gets strictly lower with every step.
-/

namespace StratifiedHashTree

/-- Two members of a list in which every earlier member is related to every later one. -/
theorem eq_or_rel_of_pairwise {α : Type} {R : α → α → Prop} {xs : List α} (h : xs.Pairwise R)
    {a b : α} (ha : a ∈ xs) (hb : b ∈ xs) : a = b ∨ R a b ∨ R b a := by
  induction h with
  | nil => exact absurd ha List.not_mem_nil
  | @cons x xs hx _ ih =>
    rcases List.mem_cons.mp ha with rfl | ha'
    · rcases List.mem_cons.mp hb with rfl | hb'
      · exact Or.inl rfl
      · exact Or.inr (Or.inl (hx b hb'))
    · rcases List.mem_cons.mp hb with rfl | hb'
      · exact Or.inr (Or.inr (hx a ha'))
      · exact ih ha' hb'

namespace Tree

/-! ### Subtrees -/

/-- Being a subtree. -/
inductive Sub (s : Tree) : Tree → Prop
  /-- A tree is its own subtree. -/
  | refl : Sub s s
  /-- A subtree of the left child. -/
  | left {l r : Tree} : Sub s l → Sub s (node l r)
  /-- A subtree of the right child. -/
  | right {l r : Tree} : Sub s r → Sub s (node l r)

namespace Sub

variable {s t u : Tree}

theorem trans (h : Sub s t) (h' : Sub t u) : Sub s u := by
  induction h' with
  | refl => exact h
  | left _ ih => exact .left ih
  | right _ ih => exact .right ih

theorem leftPerfect (h : Sub s t) (ht : LeftPerfect t) : LeftPerfect s := by
  induction h with
  | refl => exact ht
  | left _ ih => exact ih ht.left
  | right _ ih => exact ih ht.right

theorem height_le (h : Sub s t) : s.height ≤ t.height := by
  induction h with
  | refl => exact Nat.le_refl _
  | left _ ih => exact ih.trans (height_left_lt _ _).le
  | right _ ih => exact ih.trans (height_right_lt _ _).le

theorem lo_le (h : Sub s t) (ht : LeftPerfect t) : t.lo ≤ s.lo := by
  induction h with
  | refl => exact Nat.le_refl _
  | left _ ih => exact ih ht.left
  | @right l r _ ih =>
    have h1 := ih ht.right
    have h2 := ht.lo_right
    have h3 := ht.left.lo_le_hi
    rw [lo_node]
    omega

theorem hi_le (h : Sub s t) (ht : LeftPerfect t) : s.hi ≤ t.hi := by
  induction h with
  | refl => exact Nat.le_refl _
  | left _ ih => exact (ih ht.left).trans ht.hi_left_lt.le
  | right _ ih => exact ih ht.right

end Sub

/-- The pairs on the spine are the children of the nodes that end where the tree does. -/
theorem LeftPerfect.mem_spine_iff {t : Tree} (h : LeftPerfect t) {p : Tree × Tree} :
    p ∈ t.spine ↔ Sub (.node p.1 p.2) t ∧ p.2.hi = t.hi := by
  induction h with
  | leaf =>
    refine ⟨fun hp => absurd hp List.not_mem_nil, fun ⟨hp, _⟩ => ?_⟩
    cases hp
  | @node l r hl hr hp hle ha hd _ ihr =>
    have hlr : LeftPerfect (.node l r) := .node hl hr hp hle ha hd
    rw [spine_node, List.mem_cons, ihr]
    constructor
    · rintro (rfl | ⟨h1, h2⟩)
      · exact ⟨.refl, rfl⟩
      · exact ⟨.right h1, h2⟩
    · rintro ⟨h1, h2⟩
      cases h1 with
      | refl => exact Or.inl rfl
      | left h1 =>
        have h3 := h1.hi_le hl
        have h4 := hlr.hi_left_lt
        simp only [hi_node] at h2 h3
        omega
      | right h1 => exact Or.inr ⟨h1, h2⟩

/-- The subtrees of a tree, each before those below it and the right ones before the left ones. -/
def nodes : Tree → List Tree
  | leaf k => [leaf k]
  | node l r => node l r :: (nodes r ++ nodes l)

theorem mem_nodes_iff {s t : Tree} : s ∈ t.nodes ↔ Sub s t := by
  induction t with
  | leaf k =>
    rw [nodes, List.mem_singleton]
    constructor
    · rintro rfl
      exact .refl
    · intro h
      cases h
      rfl
  | node l r ihl ihr =>
    rw [nodes, List.mem_cons, List.mem_append, ihl, ihr]
    constructor
    · rintro (rfl | h | h)
      · exact .refl
      · exact .right h
      · exact .left h
    · intro h
      cases h with
      | refl => exact Or.inl rfl
      | left h => exact Or.inr (Or.inr h)
      | right h => exact Or.inr (Or.inl h)

/-- There are twice as many subtrees as there are leaves, less one. -/
theorem length_nodes (t : Tree) : t.nodes.length + 1 = 2 * t.size := by
  induction t with
  | leaf k => rfl
  | node l r ihl ihr =>
    rw [nodes, List.length_cons, List.length_append, size_node]
    omega

/-- **No two subtrees have the same label.** -/
theorem LeftPerfect.nodup_nodes {t : Tree} (h : LeftPerfect t) : (t.nodes.map label).Nodup := by
  induction h with
  | leaf => exact List.pairwise_singleton _ _
  | @node l r hl hr hp hle ha hd ihl ihr =>
    have hlr : LeftPerfect (.node l r) := .node hl hr hp hle ha hd
    have hlt := hlr.hi_left_lt
    rw [nodes, List.map_cons, List.map_append, List.nodup_cons, List.nodup_append]
    refine ⟨fun hmem => ?_, ihr, ihl, ?_⟩
    · -- the node is higher than those below it
      rw [← List.map_append] at hmem
      obtain ⟨s, hs, heq⟩ := List.mem_map.mp hmem
      have hheight : s.height = (Tree.node l r).height := congrArg Prod.snd heq
      rcases List.mem_append.mp hs with hs | hs
      · have h1 := (mem_nodes_iff.mp hs).height_le
        have h2 := height_right_lt l r
        omega
      · have h1 := (mem_nodes_iff.mp hs).height_le
        have h2 := height_left_lt l r
        omega
    · -- the nodes on the right end after those on the left
      intro x hx y hy heq
      obtain ⟨s, hs, rfl⟩ := List.mem_map.mp hx
      obtain ⟨s', hs', rfl⟩ := List.mem_map.mp hy
      have h1 := (mem_nodes_iff.mp hs).lo_le hr
      have h2 := ((mem_nodes_iff.mp hs).leftPerfect hr).lo_le_hi
      have h3 := (mem_nodes_iff.mp hs').hi_le hl
      have h4 : s.hi = s'.hi := congrArg Prod.fst heq
      have h5 := hlr.lo_right
      omega

/-- **A perfect tree between the leaves of another one is a subtree of it.** -/
theorem LeftPerfect.sub_of_perfect {t : Tree} (h : LeftPerfect t) : ∀ {s : Tree}, LeftPerfect s →
    s.Perfect → t.lo ≤ s.lo → s.hi ≤ t.hi → Sub s t := by
  induction h with
  | @leaf k hk =>
    intro s hs _ hlo hhi
    have h1 := hs.lo_add_size
    have h2 := s.size_pos
    simp only [lo_leaf, hi_leaf] at hlo hhi
    cases s with
    | leaf i =>
      obtain rfl : i = k := le_antisymm hhi hlo
      exact .refl
    | node sl sr =>
      have h3 := sl.size_pos
      have h4 := sr.size_pos
      simp only [size_node] at h1
      omega
  | @node l r hl hr hp hle ha hd ihl ihr =>
    intro s hs hsp hlo hhi
    have hlr : LeftPerfect (.node l r) := .node hl hr hp hle ha hd
    have h1 := hs.lo_add_size
    have h2 := hs.lo_pos
    by_cases hcl : s.hi ≤ l.hi
    · exact .left (ihl hs hsp hlo hcl)
    by_cases hcr : r.lo ≤ s.lo
    · exact .right (ihr hs hsp hcr hhi)
    -- a tree across the middle is at least as wide as the whole one
    have hsize : s.size = 2 ^ s.height := hsp
    have hheight : l.height < s.height := by
      by_contra hcon
      obtain ⟨a, ha'⟩ := (pow_dvd_pow 2 (Nat.le_of_not_lt hcon)).trans (hl.perfect_iff_dvd.mp hp)
      obtain ⟨c, hc⟩ := hs.dvd_lo
      have h3 : 2 ^ s.height * c < 2 ^ s.height * a := by omega
      have h4 : c < a := lt_of_mul_lt_mul_left h3 (Nat.zero_le _)
      have h5 : 2 ^ s.height * (c + 1) ≤ 2 ^ s.height * a := Nat.mul_le_mul_left _ h4
      rw [Nat.mul_add_one] at h5
      omega
    have h3 := hlr.lo_add_size
    have h4 := (Tree.node l r).size_le_two_pow
    have h5 : 2 ^ (Tree.node l r).height ≤ 2 ^ s.height := by
      rw [hlr.height_eq]
      exact Nat.pow_le_pow_right Nat.two_pos hheight
    have h6 : s.size = (Tree.node l r).size := by omega
    have h7 : s.hi = (Tree.node l r).hi := by omega
    have h8 : s = .node l r := by
      refine hs.eq_of_label hlr h7 ?_
      rw [hs.height_eq_clog, hlr.height_eq_clog, h6]
    rw [h8]
    exact .refl

/-! ### Left steps -/

/-- The number of left branches on the way to the leaf `k`. -/
def leftSteps (k : ℕ) : Tree → ℕ
  | leaf _ => 0
  | node l r => if k ≤ l.hi then leftSteps k l + 1 else leftSteps k r

theorem leftSteps_left {k : ℕ} {l r : Tree} (h : k ≤ l.hi) :
    leftSteps k (node l r) = leftSteps k l + 1 := if_pos h

theorem leftSteps_right {k : ℕ} {l r : Tree} (h : ¬k ≤ l.hi) :
    leftSteps k (node l r) = leftSteps k r := if_neg h

theorem leftSteps_le_height (k : ℕ) : ∀ t : Tree, leftSteps k t ≤ t.height
  | leaf _ => Nat.le_refl _
  | node l r => by
    by_cases hk : k ≤ l.hi
    · rw [leftSteps_left hk]
      exact Nat.succ_le_of_lt ((leftSteps_le_height k l).trans_lt (height_left_lt l r))
    · rw [leftSteps_right hk]
      exact (leftSteps_le_height k r).trans (height_right_lt l r).le

namespace LeftPerfect

variable {t : Tree} {k : ℕ}

/-- There is none on the way to the last leaf. -/
theorem leftSteps_hi (h : LeftPerfect t) : leftSteps t.hi t = 0 := by
  induction h with
  | leaf => rfl
  | @node l r hl hr hp hle ha hd _ ihr =>
    have hlt := (LeftPerfect.node hl hr hp hle ha hd).hi_left_lt
    rw [leftSteps_right (by rw [hi_node]; omega)]
    exact ihr

/-- The first of them leaves the spine. -/
theorem leftSteps_of_mem_spine (h : LeftPerfect t) {p : Tree × Tree} :
    p ∈ t.spine → p.1.lo ≤ k → k ≤ p.1.hi → leftSteps k t = leftSteps k p.1 + 1 := by
  induction h with
  | leaf => exact fun hmem => absurd hmem List.not_mem_nil
  | @node l r hl hr hp hle ha hd _ ihr =>
    intro hmem hlo hhi
    rcases List.mem_cons.mp hmem with rfl | hmem
    · exact leftSteps_left hhi
    · have h1 := (hr.of_mem_spine hmem).2.2.1
      rw [leftSteps_right (by omega)]
      exact ihr hmem hlo hhi

theorem eq_hi_of_leftSteps (h : LeftPerfect t) (hlo : t.lo ≤ k) (hhi : k ≤ t.hi)
    (h0 : leftSteps k t = 0) : k = t.hi := by
  rcases hhi.eq_or_lt with heq | hlt
  · exact heq
  · obtain ⟨p, hp, h1, h2⟩ := h.exists_mem_spine hlo hlt
    rw [h.leftSteps_of_mem_spine hp h1 h2] at h0
    exact absurd h0 (Nat.succ_ne_zero _)

/-- From a subtree there are fewer. -/
theorem leftSteps_le_of_sub {s : Tree} (hs : Sub s t) (h : LeftPerfect t) (hlo : s.lo ≤ k)
    (hhi : k ≤ s.hi) : leftSteps k s ≤ leftSteps k t := by
  induction hs with
  | refl => exact Nat.le_refl _
  | @left l r hsub ih =>
    have h1 := hsub.hi_le h.left
    rw [leftSteps_left (by omega)]
    exact (ih h.left).trans (Nat.le_succ _)
  | @right l r hsub ih =>
    have h1 := hsub.lo_le h.right
    have h2 := h.lo_right
    rw [leftSteps_right (by omega)]
    exact ih h.right

/-- Only the last leaf and the leaf itself matter: the way begins on a common right edge. -/
theorem leftSteps_upTo (h : LeftPerfect t) (hlo : t.lo ≤ k) (hhi : k ≤ t.hi) :
    leftSteps k (upTo t.hi) = leftSteps k t := by
  have hu := leftPerfect_upTo h.hi_pos
  rcases hhi.eq_or_lt with rfl | hlt
  · have h1 := hu.leftSteps_hi
    rw [hi_upTo h.hi_pos] at h1
    rw [h1, h.leftSteps_hi]
  · obtain ⟨p, hp, h1, h2⟩ := h.exists_mem_spine hlo hlt
    rw [h.leftSteps_of_mem_spine hp h1 h2,
      hu.leftSteps_of_mem_spine (h.spine_suffix_upTo.subset hp) h1 h2]

end LeftPerfect

/-! ### Siblings and parts -/

/-- The siblings of the nodes on the way to the leaf `k`, from right to left. -/
def siblings (k : ℕ) : Tree → List Tree
  | leaf _ => []
  | node l r => if k ≤ l.hi then r :: siblings k l else siblings k r ++ [l]

/-- The parts into which the way to the leaf `k` cuts the tree, from left to right. -/
def parts (k : ℕ) : Tree → List Tree
  | leaf i => [leaf i]
  | node l r => if k ≤ l.hi then parts k l ++ [r] else l :: parts k r

theorem siblings_left {k : ℕ} {l r : Tree} (h : k ≤ l.hi) :
    siblings k (node l r) = r :: siblings k l := if_pos h

theorem siblings_right {k : ℕ} {l r : Tree} (h : ¬k ≤ l.hi) :
    siblings k (node l r) = siblings k r ++ [l] := if_neg h

theorem parts_left {k : ℕ} {l r : Tree} (h : k ≤ l.hi) :
    parts k (node l r) = parts k l ++ [r] := if_pos h

theorem parts_right {k : ℕ} {l r : Tree} (h : ¬k ≤ l.hi) :
    parts k (node l r) = l :: parts k r := if_neg h

theorem sub_of_mem_parts {k : ℕ} {s : Tree} : ∀ {t : Tree}, s ∈ parts k t → Sub s t
  | leaf i, h => by
    rw [List.mem_singleton.mp h]
    exact .refl
  | node l r, h => by
    by_cases hk : k ≤ l.hi
    · rw [parts_left hk, List.mem_append, List.mem_singleton] at h
      rcases h with h | rfl
      · exact .left (sub_of_mem_parts h)
      · exact .right .refl
    · rw [parts_right hk, List.mem_cons] at h
      rcases h with rfl | h
      · exact .left .refl
      · exact .right (sub_of_mem_parts h)

/-- Cutting a node leaves only lower parts. -/
theorem height_lt_of_mem_parts {k : ℕ} {s l r : Tree} (h : s ∈ parts k (node l r)) :
    s.height < (node l r).height := by
  by_cases hk : k ≤ l.hi
  · rw [parts_left hk, List.mem_append, List.mem_singleton] at h
    rcases h with h | rfl
    · exact (sub_of_mem_parts h).height_le.trans_lt (height_left_lt l r)
    · exact height_right_lt l _
  · rw [parts_right hk, List.mem_cons] at h
    rcases h with rfl | h
    · exact height_left_lt _ r
    · exact (sub_of_mem_parts h).height_le.trans_lt (height_right_lt l r)

theorem sub_of_mem_siblings {k : ℕ} {s : Tree} : ∀ {t : Tree}, s ∈ siblings k t → Sub s t
  | leaf _, h => absurd h List.not_mem_nil
  | node l r, h => by
    by_cases hk : k ≤ l.hi
    · rw [siblings_left hk, List.mem_cons] at h
      rcases h with rfl | h
      · exact .right .refl
      · exact .left (sub_of_mem_siblings h)
    · rw [siblings_right hk, List.mem_append, List.mem_singleton] at h
      rcases h with h | rfl
      · exact .right (sub_of_mem_siblings h)
      · exact .left .refl

/-- There is at most one sibling for every level. -/
theorem length_siblings_le (k : ℕ) : ∀ t : Tree, (siblings k t).length ≤ t.height
  | leaf _ => Nat.le_refl _
  | node l r => by
    by_cases hk : k ≤ l.hi
    · rw [siblings_left hk, List.length_cons]
      exact Nat.succ_le_of_lt ((length_siblings_le k l).trans_lt (height_left_lt l r))
    · rw [siblings_right hk, List.length_append, List.length_singleton]
      exact Nat.succ_le_of_lt ((length_siblings_le k r).trans_lt (height_right_lt l r))

namespace LeftPerfect

variable {t : Tree} {k : ℕ}

/-- **The parts are the leaf and the siblings.** -/
theorem mem_parts (h : LeftPerfect t) (hlo : t.lo ≤ k) (hhi : k ≤ t.hi) {s : Tree} :
    s ∈ parts k t ↔ s = Tree.leaf k ∨ s ∈ siblings k t := by
  induction h with
  | @leaf i hi =>
    obtain rfl : k = i := le_antisymm hhi hlo
    rw [parts, siblings, List.mem_singleton]
    exact ⟨Or.inl, fun h => h.resolve_right List.not_mem_nil⟩
  | @node l r hl hr hp hle ha hd ihl ihr =>
    by_cases hk : k ≤ l.hi
    · rw [parts_left hk, siblings_left hk, List.mem_append, List.mem_singleton, List.mem_cons,
        ihl hlo hk]
      exact or_assoc.trans (or_congr_right or_comm)
    · rw [parts_right hk, siblings_right hk, List.mem_cons, List.mem_append, List.mem_singleton,
        ihr (by omega) hhi]
      exact or_comm.trans or_assoc

/-- **The parts come in the order of their leaves**, and so they are disjoint. -/
theorem parts_sorted (h : LeftPerfect t) (k : ℕ) :
    (parts k t).Pairwise fun p q => p.hi < q.lo := by
  induction h with
  | leaf => exact List.pairwise_singleton _ _
  | @node l r hl hr hp hle ha hd ihl ihr =>
    by_cases hk : k ≤ l.hi
    · rw [parts_left hk, List.pairwise_append]
      refine ⟨ihl, List.pairwise_singleton _ _, fun p hp q hq => ?_⟩
      rw [List.mem_singleton.mp hq]
      have h1 := (sub_of_mem_parts hp).hi_le hl
      omega
    · rw [parts_right hk, List.pairwise_cons]
      refine ⟨fun q hq => ?_, ihr⟩
      have h1 := (sub_of_mem_parts hq).lo_le hr
      omega

/-- **The siblings come from right to left.** -/
theorem siblings_sorted (h : LeftPerfect t) (k : ℕ) :
    (siblings k t).Pairwise fun p q => q.hi < p.lo := by
  induction h with
  | leaf => exact List.Pairwise.nil
  | @node l r hl hr hp hle ha hd ihl ihr =>
    by_cases hk : k ≤ l.hi
    · rw [siblings_left hk, List.pairwise_cons]
      refine ⟨fun q hq => ?_, ihl⟩
      have h1 := (sub_of_mem_siblings hq).hi_le hl
      omega
    · rw [siblings_right hk, List.pairwise_append]
      refine ⟨ihr, List.pairwise_singleton _ _, fun p hp q hq => ?_⟩
      rw [List.mem_singleton.mp hq]
      have h1 := (sub_of_mem_siblings hp).lo_le hr
      omega

/-- No sibling holds the leaf. -/
theorem outside_of_mem_siblings (h : LeftPerfect t) {s : Tree} (hs : s ∈ siblings k t) :
    s.hi < k ∨ k < s.lo := by
  induction h with
  | leaf => exact absurd hs List.not_mem_nil
  | @node l r hl hr hp hle ha hd ihl ihr =>
    by_cases hk : k ≤ l.hi
    · rw [siblings_left hk, List.mem_cons] at hs
      rcases hs with rfl | hs
      · exact Or.inr (by omega)
      · exact ihl hs
    · rw [siblings_right hk, List.mem_append, List.mem_singleton] at hs
      rcases hs with hs | rfl
      · exact ihr hs
      · exact Or.inl (Nat.lt_of_not_le hk)

/-- **No leaf is missed** by the parts. -/
theorem exists_mem_parts (h : LeftPerfect t) (k : ℕ) {m : ℕ} (hlo : t.lo ≤ m) (hhi : m ≤ t.hi) :
    ∃ s ∈ parts k t, s.lo ≤ m ∧ m ≤ s.hi := by
  induction h with
  | @leaf i hi => exact ⟨_, List.mem_singleton_self _, hlo, hhi⟩
  | @node l r hl hr hp hle ha hd ihl ihr =>
    by_cases hk : k ≤ l.hi
    · rw [parts_left hk]
      by_cases hm : m ≤ l.hi
      · obtain ⟨s, hs, h1⟩ := ihl hlo hm
        exact ⟨s, List.mem_append_left _ hs, h1⟩
      · exact ⟨r, List.mem_append_right _ (List.mem_singleton_self r), by omega, hhi⟩
    · rw [parts_right hk]
      by_cases hm : m ≤ l.hi
      · exact ⟨l, List.mem_cons_self, hlo, hm⟩
      · obtain ⟨s, hs, h1⟩ := ihr (by omega) hhi
        exact ⟨s, List.mem_cons_of_mem _ hs, h1⟩

/-- Two parts that share a leaf are one. -/
theorem parts_disjoint (h : LeftPerfect t) {p q : Tree} (hp : p ∈ parts k t) (hq : q ∈ parts k t)
    {m : ℕ} (hpm : p.lo ≤ m ∧ m ≤ p.hi) (hqm : q.lo ≤ m ∧ m ≤ q.hi) : p = q := by
  rcases eq_or_rel_of_pairwise (h.parts_sorted k) hp hq with h1 | h1 | h1
  · exact h1
  · omega
  · omega

/-- The leaf itself is a part. -/
theorem leaf_mem_parts (h : LeftPerfect t) (hlo : t.lo ≤ k) (hhi : k ≤ t.hi) :
    Tree.leaf k ∈ parts k t := (h.mem_parts hlo hhi).mpr (Or.inl rfl)

/-- **A sibling is the other child** of a node on the way. -/
theorem mem_siblings_iff (h : LeftPerfect t) (hlo : t.lo ≤ k) (hhi : k ≤ t.hi) {s : Tree} :
    s ∈ siblings k t ↔ ∃ l r, Sub (Tree.node l r) t ∧
      ((l.lo ≤ k ∧ k ≤ l.hi) ∧ s = r ∨ (r.lo ≤ k ∧ k ≤ r.hi) ∧ s = l) := by
  induction h with
  | leaf =>
    refine ⟨fun hs => absurd hs List.not_mem_nil, ?_⟩
    rintro ⟨l, r, hs, -⟩
    cases hs
  | @node l r hl hr hp hle ha hd ihl ihr =>
    have hlr : LeftPerfect (.node l r) := .node hl hr hp hle ha hd
    by_cases hk : k ≤ l.hi
    · rw [siblings_left hk, List.mem_cons, ihl hlo hk]
      constructor
      · rintro (rfl | ⟨l', r', hs, h1⟩)
        · exact ⟨l, s, .refl, Or.inl ⟨⟨hlo, hk⟩, rfl⟩⟩
        · exact ⟨l', r', .left hs, h1⟩
      · rintro ⟨l', r', hs, h1⟩
        cases hs with
        | refl =>
          rcases h1 with ⟨-, rfl⟩ | ⟨h1, -⟩
          · exact Or.inl rfl
          · omega
        | left hs => exact Or.inr ⟨l', r', hs, h1⟩
        | right hs =>
          -- a node of the right child is not on the way
          have h2 := hs.lo_le hr
          have h3 := (hs.leftPerfect hr).lo_right
          have h4 := (hs.leftPerfect hr).left.lo_le_hi
          rw [lo_node] at h2
          omega
    · rw [siblings_right hk, List.mem_append, List.mem_singleton, ihr (by omega) hhi]
      constructor
      · rintro (⟨l', r', hs, h1⟩ | rfl)
        · exact ⟨l', r', .right hs, h1⟩
        · exact ⟨s, r, .refl, Or.inr ⟨⟨by omega, hhi⟩, rfl⟩⟩
      · rintro ⟨l', r', hs, h1⟩
        cases hs with
        | refl =>
          rcases h1 with ⟨h1, -⟩ | ⟨-, rfl⟩
          · omega
          · exact Or.inr rfl
        | left hs =>
          have h2 := hs.hi_le hl
          have h3 := (hs.leftPerfect hl).hi_left_lt
          rw [hi_node] at h2
          omega
        | right hs => exact Or.inl ⟨l', r', hs, h1⟩

/-- **The parts around a leaf of a subtree** are the parts of the subtree, and others
outside of it. -/
theorem mem_parts_of_sub {s : Tree} (hs : Sub s t) (h : LeftPerfect t) (hlo : s.lo ≤ k)
    (hhi : k ≤ s.hi) {p : Tree} (hp : p ∈ parts k s) : p ∈ parts k t := by
  induction hs with
  | refl => exact hp
  | @left l r hs ih =>
    have h1 := hs.hi_le h.left
    rw [parts_left (hhi.trans h1)]
    exact List.mem_append_left _ (ih h.left)
  | @right l r hs ih =>
    have h1 := hs.lo_le h.right
    have h2 := h.lo_right
    rw [parts_right (by omega)]
    exact List.mem_cons_of_mem _ (ih h.right)

/-- A part that meets a subtree around whose leaf it was cut lies inside of it. -/
theorem mem_parts_sub {s : Tree} (hs : Sub s t) (h : LeftPerfect t) (hlo : s.lo ≤ k)
    (hhi : k ≤ s.hi) {p : Tree} (hp : p ∈ parts k t) {m : ℕ} (hm : s.lo ≤ m ∧ m ≤ s.hi)
    (hpm : p.lo ≤ m ∧ m ≤ p.hi) : p ∈ parts k s := by
  obtain ⟨q, hq, hqm⟩ := (hs.leftPerfect h).exists_mem_parts k hm.1 hm.2
  rwa [h.parts_disjoint hp (mem_parts_of_sub hs h hlo hhi hq) hpm hqm]

/-- The parts carry different labels. -/
theorem parts_label_injective (h : LeftPerfect t) {p q : Tree} (hp : p ∈ parts k t)
    (hq : q ∈ parts k t) (heq : p.label = q.label) : p = q := by
  have h1 : p.hi = q.hi := congrArg Prod.fst heq
  have h2 : p.height = q.height := congrArg Prod.snd heq
  exact ((sub_of_mem_parts hp).leftPerfect h).eq_of_label
    ((sub_of_mem_parts hq).leftPerfect h) h1 h2

end LeftPerfect

end Tree

end StratifiedHashTree
