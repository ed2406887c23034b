import Mathlib.Order.Bounds.Basic
import StratifiedHashTree.Decomposition

/-!
# The limits of the distances

How far an index may be from the latest entry is shown by two lists of ranges
(`StratifiedHashTree.Formula.entryAccessDistanceLimits`). The upper list goes by the *last* index
of every distance, the lower one by the *first*; an index is at most as far as the upper list says,
and at least as far as the lower one.

On a tree the two are read off from the root. The first indices are on the left edge
(`StratifiedHashTree.Tree.firsts`): going left once more is always possible at the leftmost place.
The last indices are those of the right subtree, as far as its distances reach, and then those of
the left one (`StratifiedHashTree.Tree.lasts`). So both lists are strictly decreasing, and the
ranges between neighbours tile the indices.

The source gets the first list from the first perfect subtree alone. For the second one it goes
through all of them from right to left, and fills what is still open
(`StratifiedHashTree.FormulaTree.ends_fold`); a 0 stands for an open place, and no index is 0.
-/

namespace StratifiedHashTree

open Outcome Formula FormulaTree

/-! ### First and last indices -/

namespace Tree

/-- The last index of every distance. -/
def lasts : Tree → List ℕ
  | leaf k => [k]
  | node l r => lasts r ++ (lasts l).drop r.height

/-- The first index of every distance. -/
def firsts : Tree → List ℕ
  | leaf k => [k]
  | node l r => r.hi :: firsts l

/-- The indices at a distance. -/
def atDistance (t : Tree) (d : ℕ) : Set ℕ := {k | (t.lo ≤ k ∧ k ≤ t.hi) ∧ leftSteps k t = d}

theorem head?_firsts (t : Tree) : t.firsts.head? = some t.hi := by
  cases t with
  | leaf k => rfl
  | node l r => rfl

theorem getLast?_firsts (t : Tree) : t.firsts.getLast? = some t.lo := by
  induction t with
  | leaf k => rfl
  | node l r ihl _ => rw [firsts, List.getLast?_cons, ihl, lo_node, Option.getD_some]

namespace LeftPerfect

variable {t : Tree}

theorem length_firsts (h : LeftPerfect t) : t.firsts.length = t.height + 1 := by
  induction h with
  | leaf => rfl
  | @node l r hl hr hp hle ha hd ihl _ =>
    rw [firsts, List.length_cons, ihl, (LeftPerfect.node hl hr hp hle ha hd).height_eq]

theorem length_lasts (h : LeftPerfect t) : t.lasts.length = t.height + 1 := by
  induction h with
  | leaf => rfl
  | @node l r hl hr hp hle ha hd ihl ihr =>
    have hh := (LeftPerfect.node hl hr hp hle ha hd).height_eq
    rw [lasts, List.length_append, List.length_drop, ihl, ihr, hh]
    omega

/-- An index of a right subtree is at the same distance below the node, and one of a left subtree
is one step further away. -/
theorem mem_atDistance_node {l r : Tree} (h : LeftPerfect (.node l r)) {d k : ℕ} :
    k ∈ (Tree.node l r).atDistance d ↔
      k ∈ r.atDistance d ∨ ∃ e, d = e + 1 ∧ k ∈ l.atDistance e := by
  have h1 := h.lo_right
  have h2 := h.left.lo_le_hi
  have h3 := h.right.lo_le_hi
  constructor
  · rintro ⟨⟨hlo, hhi⟩, hd⟩
    by_cases hk : k ≤ l.hi
    · rw [leftSteps_left hk] at hd
      exact Or.inr ⟨_, hd.symm, ⟨hlo, hk⟩, rfl⟩
    · rw [leftSteps_right hk] at hd
      exact Or.inl ⟨⟨by omega, hhi⟩, hd⟩
  · rintro (⟨⟨hlo, hhi⟩, hd⟩ | ⟨e, rfl, ⟨hlo, hhi⟩, hd⟩)
    · refine ⟨⟨?_, hhi⟩, by rw [leftSteps_right (by omega), hd]⟩
      rw [lo_node]
      omega
    · refine ⟨⟨hlo, ?_⟩, by rw [leftSteps_left hhi, hd]⟩
      rw [hi_node]
      omega

/-- **The first index of a distance.** -/
theorem isLeast_firsts (h : LeftPerfect t) {d k : ℕ} (hk : t.firsts[d]? = some k) :
    IsLeast (t.atDistance d) k := by
  induction h generalizing d k with
  | @leaf i hi =>
    obtain ⟨rfl, rfl⟩ : d = 0 ∧ i = k := by
      cases d with
      | zero => exact ⟨rfl, by simpa [firsts] using hk⟩
      | succ d => simp [firsts] at hk
    exact ⟨⟨⟨Nat.le_refl _, Nat.le_refl _⟩, rfl⟩, fun m hm => hm.1.1⟩
  | @node l r hl hr hp hle ha hd ihl _ =>
    have hlr : LeftPerfect (.node l r) := .node hl hr hp hle ha hd
    cases d with
    | zero =>
      have hk' : r.hi = k := by simpa [firsts] using hk
      rw [← hk']
      refine ⟨⟨⟨hlr.lo_le_hi, Nat.le_refl _⟩, hlr.leftSteps_hi⟩, fun m hm => ?_⟩
      exact (hlr.eq_hi_of_leftSteps hm.1.1 hm.1.2 hm.2).ge
    | succ d =>
      obtain ⟨h1, h2⟩ := ihl (d := d) (k := k) (by simpa [firsts] using hk)
      refine ⟨hlr.mem_atDistance_node.mpr (Or.inr ⟨d, rfl, h1⟩), fun m hm => ?_⟩
      rcases hlr.mem_atDistance_node.mp hm with hm' | ⟨e, he, hm'⟩
      · have h3 := hm'.1.1
        have h4 := h1.1.2
        omega
      · obtain rfl : e = d := by omega
        exact h2 hm'

/-- **The last index of a distance.** -/
theorem isGreatest_lasts (h : LeftPerfect t) {d k : ℕ} (hk : t.lasts[d]? = some k) :
    IsGreatest (t.atDistance d) k := by
  induction h generalizing d k with
  | @leaf i hi =>
    obtain ⟨rfl, rfl⟩ : d = 0 ∧ i = k := by
      cases d with
      | zero => exact ⟨rfl, by simpa [lasts] using hk⟩
      | succ d => simp [lasts] at hk
    exact ⟨⟨⟨Nat.le_refl _, Nat.le_refl _⟩, rfl⟩, fun m hm => hm.1.2⟩
  | @node l r hl hr hp hle ha hd ihl ihr =>
    have hlr : LeftPerfect (.node l r) := .node hl hr hp hle ha hd
    have hlen := hr.length_lasts
    rw [lasts] at hk
    by_cases hlt : d < r.lasts.length
    · rw [List.getElem?_append_left hlt] at hk
      obtain ⟨h1, h2⟩ := ihr hk
      refine ⟨hlr.mem_atDistance_node.mpr (Or.inl h1), fun m hm => ?_⟩
      rcases hlr.mem_atDistance_node.mp hm with hm' | ⟨e, -, hm'⟩
      · exact h2 hm'
      · have h3 := hm'.1.2
        have h4 := h1.1.1
        omega
    · -- beyond the distances of the right subtree
      obtain ⟨e, rfl⟩ : ∃ e, d = e + 1 := ⟨d - 1, by omega⟩
      rw [List.getElem?_append_right (by omega), List.getElem?_drop, hlen,
        show r.height + (e + 1 - (r.height + 1)) = e by omega] at hk
      obtain ⟨h1, h2⟩ := ihl hk
      refine ⟨hlr.mem_atDistance_node.mpr (Or.inr ⟨e, rfl, h1⟩), fun m hm => ?_⟩
      rcases hlr.mem_atDistance_node.mp hm with hm' | ⟨e', he, hm'⟩
      · have h3 := leftSteps_le_height m r
        have h4 := hm'.2
        omega
      · obtain rfl : e' = e := by omega
        exact h2 hm'

/-- The indices of such lists are indices of the tree. -/
theorem mem_firsts_bounds (h : LeftPerfect t) {k : ℕ} (hk : k ∈ t.firsts) :
    t.lo ≤ k ∧ k ≤ t.hi := by
  obtain ⟨d, hd⟩ := List.mem_iff_getElem?.mp hk
  exact (h.isLeast_firsts hd).1.1

theorem mem_lasts_bounds (h : LeftPerfect t) {k : ℕ} (hk : k ∈ t.lasts) : t.lo ≤ k ∧ k ≤ t.hi := by
  obtain ⟨d, hd⟩ := List.mem_iff_getElem?.mp hk
  exact (h.isGreatest_lasts hd).1.1

theorem firsts_sorted (h : LeftPerfect t) : t.firsts.Pairwise (· > ·) := by
  induction h with
  | leaf => exact List.pairwise_singleton _ _
  | @node l r hl hr hp hle ha hd ihl _ =>
    have hlr : LeftPerfect (.node l r) := .node hl hr hp hle ha hd
    exact List.pairwise_cons.mpr
      ⟨fun k hk => (hl.mem_firsts_bounds hk).2.trans_lt hlr.hi_left_lt, ihl⟩

theorem lasts_sorted (h : LeftPerfect t) : t.lasts.Pairwise (· > ·) := by
  induction h with
  | leaf => exact List.pairwise_singleton _ _
  | @node l r hl hr hp hle ha hd ihl ihr =>
    refine List.pairwise_append.mpr ⟨ihr, ihl.sublist (List.drop_sublist _ _), fun k hk m hm => ?_⟩
    have h1 := (hr.mem_lasts_bounds hk).1
    have h2 := (hl.mem_lasts_bounds (List.mem_of_mem_drop hm)).2
    omega

theorem head?_lasts (h : LeftPerfect t) : t.lasts.head? = some t.hi := by
  induction h with
  | leaf => rfl
  | node _ _ _ _ _ _ _ ihr => rw [lasts, List.head?_append, ihr, hi_node, Option.some_or]

theorem getLast?_lasts (h : LeftPerfect t) : t.lasts.getLast? = some t.lo := by
  induction h with
  | leaf => rfl
  | @node l r hl hr hp hle ha hd ihl _ =>
    have hlen := hl.length_lasts
    rw [lasts, List.getLast?_append, List.getLast?_drop, if_neg (by omega), ihl, lo_node,
      Option.some_or]

/-! ### Perfect trees -/

/-- Below a perfect subtree at the left end, the first index doubles with every step. -/
theorem firsts_of_perfect (h : LeftPerfect t) : t.Perfect → t.lo = 1 →
    t.firsts = (List.range (t.height + 1)).map fun d => 2 ^ (t.height - d) := by
  induction h with
  | leaf =>
    rintro - hlo
    rw [lo_leaf] at hlo
    rw [hlo]
    rfl
  | @node l r hl hr hp hle ha hd ihl _ =>
    intro hperf hlo
    have hlr : LeftPerfect (.node l r) := .node hl hr hp hle ha hd
    have hh := hlr.height_eq
    have h1 := hlr.lo_add_size
    have h2 : (Tree.node l r).size = 2 ^ (Tree.node l r).height := hperf
    rw [hi_node, hlo, h2, hh] at h1
    rw [firsts, ihl hp hlo, hh, @List.range_succ_eq_map (l.height + 1), List.map_cons, List.map_map,
      show r.hi = 2 ^ (l.height + 1 - 0) by rw [Nat.sub_zero]; omega]
    refine congrArg _ (List.map_congr_left fun d _ => ?_)
    rw [Function.comp_apply, Nat.succ_eq_add_one, Nat.add_sub_add_right]

/-- Below a perfect subtree, what is behind the last index doubles with every step. -/
theorem lasts_of_perfect (h : LeftPerfect t) : t.Perfect →
    t.lasts = (List.range (t.height + 1)).map fun d => t.lo - 1 + (2 ^ t.height + 1 - 2 ^ d) := by
  induction h with
  | @leaf k hk =>
    intro _
    refine congrArg (fun i => [i]) (?_ : k = k - 1 + (2 ^ 0 + 1 - 2 ^ 0))
    rw [pow_zero]
    omega
  | @node l r hl hr hp hle ha hd ihl ihr =>
    intro hperf
    have hlr : LeftPerfect (.node l r) := .node hl hr hp hle ha hd
    have hrh := hlr.height_right_of_perfect hperf
    have h1 := hl.lo_add_size
    have h2 : l.size = 2 ^ l.height := hp
    have h3 := hl.lo_pos
    have h4 : 2 ^ (l.height + 1) = 2 ^ l.height * 2 := pow_succ 2 l.height
    have hdrop : (l.lasts).drop l.height = [l.lo] := by
      rw [ihl hp, ← List.map_drop, List.range_succ, List.drop_left' List.length_range,
        List.map_singleton]
      exact congrArg (fun i => [i]) (by omega)
    rw [lasts, hrh, hdrop, ihr (hlr.perfect_right hperf), hrh, hlr.height_eq, lo_node,
      @List.range_succ (l.height + 1), List.map_append, List.map_singleton]
    congr 1
    · refine List.map_congr_left fun d hd => ?_
      have h5 : 2 ^ d ≤ 2 ^ l.height :=
        Nat.pow_le_pow_right Nat.two_pos (Nat.lt_succ_iff.mp (List.mem_range.mp hd))
      omega
    · exact congrArg (fun i => [i]) (by omega)

end LeftPerfect

end Tree

/-! ### Ranges between neighbours -/

section Neighbours

/-- A function along a list. -/
theorem mapM_ok {α β : Type} {f : α → Result β} {g : α → β} : ∀ {xs : List α},
    (∀ x ∈ xs, f x = .ok (g x)) → xs.mapM f = .ok (xs.map g)
  | [], _ => rfl
  | x :: xs, h => by
    rw [List.mapM_cons, h x List.mem_cons_self, ok_bind,
      mapM_ok fun y hy => h y (List.mem_cons_of_mem _ hy), ok_bind, pure_eq_ok, List.map_cons]

/-- A function of neighbours along a list. -/
theorem windows_ok {α β : Type} {f : α → α → Result β} {g : α → α → β} : ∀ {a : α} {xs : List α},
    (a :: xs).IsChain (fun a b => f a b = .ok (g a b)) →
    windows f (a :: xs) = .ok (List.zipWith g (a :: xs) xs)
  | a, [], _ => rfl
  | a, b :: xs, h => by
    obtain ⟨h1, h2⟩ := List.isChain_cons_cons.mp h
    rw [windows, h1, ok_bind, windows_ok h2, ok_bind, pure_eq_ok, List.zipWith_cons_cons]

variable {a m : ℕ}

/-- What is between the ends of ranges that go downwards. -/
theorem upper_ends : ∀ {a : ℕ} {xs : List ℕ}, (a :: xs).getLast? = some m →
    (List.zipWith (fun a b => (b + 1, a)) (a :: xs) xs ++ [(m, m)]).map Prod.snd = a :: xs
  | a, [], h => by
    have ha : a = m := by simpa using h
    rw [ha]
    rfl
  | a, b :: xs, h => by
    rw [List.zipWith_cons_cons, List.cons_append, List.map_cons,
      upper_ends (by simpa [List.getLast?_cons] using h)]

theorem lower_starts : ∀ {a : ℕ} {xs : List ℕ},
    (List.zipWith (fun a b => (b, a - 1)) (a :: xs) xs).map Prod.fst = xs
  | _, [] => rfl
  | _, b :: xs => by rw [List.zipWith_cons_cons, List.map_cons, lower_starts]

/-- **The ranges up to the next end** tile everything. -/
theorem tiles_upper : ∀ {a : ℕ} {xs : List ℕ}, (a :: xs).Pairwise (· > ·) →
    (a :: xs).getLast? = some m →
    Tiles m a (List.zipWith (fun a b => (b + 1, a)) (a :: xs) xs ++ [(m, m)]).reverse
  | a, [], _, h => by
    have ha : a = m := by simpa using h
    rw [ha]
    exact tiles_singleton (Nat.le_refl m)
  | a, b :: xs, hs, h => by
    obtain ⟨h1, h2⟩ := List.pairwise_cons.mp hs
    have hlt : b < a := h1 b List.mem_cons_self
    rw [List.zipWith_cons_cons, List.cons_append, List.reverse_cons]
    exact tiles_append (tiles_upper h2 (by simpa [List.getLast?_cons] using h))
      (tiles_singleton hlt)

/-- **The ranges from the next start** tile everything below the first one. -/
theorem tiles_lower (hm : 1 ≤ m) : ∀ {a : ℕ} {xs : List ℕ}, (a :: xs).Pairwise (· > ·) →
    (a :: xs).getLast? = some m →
    Tiles m (a - 1) (List.zipWith (fun a b => (b, a - 1)) (a :: xs) xs).reverse
  | a, [], _, h => by
    have ha : a = m := by simpa using h
    rw [ha]
    exact (Nat.sub_add_cancel hm).symm
  | a, b :: xs, hs, h => by
    obtain ⟨h1, h2⟩ := List.pairwise_cons.mp hs
    have hlt : b < a := h1 b List.mem_cons_self
    have hlast : (b :: xs).getLast? = some m := by simpa [List.getLast?_cons] using h
    have hpos : m ≤ b := by
      rcases List.mem_cons.mp (List.mem_of_getLast? hlast) with heq | hmem
      · exact heq.le
      · exact ((List.pairwise_cons.mp h2).1 m hmem).le
    have hnext : b - 1 + 1 = b := Nat.sub_add_cancel (hm.trans hpos)
    rw [List.zipWith_cons_cons, List.reverse_cons]
    refine tiles_append (tiles_lower hm h2 hlast) ?_
    rw [hnext]
    exact tiles_singleton (Nat.le_sub_one_of_lt hlt)

/-- The ranges of a tiling do not overlap. -/
theorem Tiles.pairwise {b : ℕ} : ∀ {a : ℕ} {rs : List (ℕ × ℕ)}, Tiles a b rs →
    rs.Pairwise (fun r r' => r.2 < r'.1) ∧ ∀ r ∈ rs, a ≤ r.1 ∧ r.1 ≤ r.2
  | _, [], _ => ⟨List.Pairwise.nil, fun _ hr => absurd hr List.not_mem_nil⟩
  | a, r :: rs, ⟨h1, h2, h3⟩ => by
    obtain ⟨h4, h5⟩ := h3.pairwise
    refine ⟨List.pairwise_cons.mpr ⟨fun r' hr' => (h5 r' hr').1, h4⟩, fun r' hr' => ?_⟩
    rcases List.mem_cons.mp hr' with rfl | hmem
    · exact ⟨h1.ge, h2⟩
    · have h6 := h5 r' hmem
      exact ⟨by omega, h6.2⟩

/-- In a tiling downwards, a later range lies below an earlier one. -/
theorem Tiles.lt_of_reverse {b i j : ℕ} {rs : List (ℕ × ℕ)} (h : Tiles a b rs.reverse) (hij : i < j)
    {r r' : ℕ × ℕ} (hr : rs[i]? = some r) (hr' : rs[j]? = some r') : r'.2 < r.1 := by
  have h1 := List.pairwise_reverse.mp h.pairwise.1
  obtain ⟨hi, rfl⟩ := List.getElem?_eq_some_iff.mp hr
  obtain ⟨hj, rfl⟩ := List.getElem?_eq_some_iff.mp hr'
  exact List.pairwise_iff_getElem.mp h1 i j hi hj hij

end Neighbours

/-! ### The two lists -/

namespace FormulaTree

variable {t : Tree}

/-- The starts, from a first perfect subtree. -/
theorem starts_of_perfect (h : t.LeftPerfect) (hb : t.hi < 2 ^ 64) (hp : t.Perfect)
    (hlo : t.lo = 1) :
    (List.range ((addr t).j + 1)).mapM (fun d => do
      let e ← subBits (addr t).j d
      pow2e e) = .ok t.firsts := by
  have hadd := h.lo_add_size
  have hsize : t.size = 2 ^ t.height := hp
  have hj : t.height < 64 := by
    refine (Nat.pow_lt_pow_iff_right Nat.one_lt_two).mp ?_
    omega
  rw [h.firsts_of_perfect hp hlo]
  refine mapM_ok fun d hd => ?_
  have hd' : d ≤ t.height := Nat.lt_succ_iff.mp (List.mem_range.mp hd)
  rw [show (addr t).j = t.height from rfl, subBits_of_le hd', ok_bind, pow2e_eq (by omega)]

/-- **The starts are the first indices.** -/
theorem lowerStarts_eq {n : ℕ} (hn : 1 ≤ n) (hb : n < 2 ^ 64) :
    lowerStarts n ((Tree.upTo n).peaks.map addr) = .ok (Tree.upTo n).firsts := by
  have hu := Tree.leftPerfect_upTo hn
  have hhi := Tree.hi_upTo hn
  have hlo := Tree.lo_upTo hn
  by_cases hp : (Tree.upTo n).Perfect
  · rw [Tree.peaks_of_perfect hp, List.map_singleton, lowerStarts,
      starts_of_perfect hu (by rwa [hhi]) hp hlo, ok_bind, if_pos rfl, pure_eq_ok]
  · cases hcase : Tree.upTo n with
    | leaf k => exact absurd (by rw [hcase]; exact Tree.perfect_leaf k) hp
    | node l r =>
      rw [hcase] at hu hp hhi hlo
      have hlt := hu.hi_left_lt
      rw [Tree.hi_node] at hhi
      have hne : r.peaks.map addr ≠ [] := by
        have h1 := peaks_length_pos r
        intro hnil
        rw [List.map_eq_nil_iff] at hnil
        rw [hnil] at h1
        exact absurd h1 (Nat.not_succ_le_zero 0)
      rw [Tree.peaks_of_not_perfect hp, List.map_cons, lowerStarts,
        starts_of_perfect hu.left (by omega) hu.perfect_left hlo, ok_bind, if_neg hne, pure_eq_ok,
        Tree.firsts, hhi]

/-- **The ends within a perfect subtree** are the last indices in it. -/
theorem upperEnds_eq (h : t.LeftPerfect) (hb : t.hi < 2 ^ 64) (hp : t.Perfect) (rightMost : Bool) :
    upperEnds rightMost (addr t) = .ok (if rightMost then t.lasts else 0 :: t.lasts) := by
  have hadd := h.lo_add_size
  have hlo := h.lo_pos
  have hsize : t.size = 2 ^ t.height := hp
  have hj : t.height < 64 := by
    refine (Nat.pow_lt_pow_iff_right Nat.one_lt_two).mp ?_
    omega
  have hpow : 2 ^ t.height < 2 ^ 64 := Nat.pow_lt_pow_right Nat.one_lt_two hj
  have hr : range (addr t).i (addr t).j = .ok (t.lo, t.hi) := range_label h hb
  have hends : ((List.range (t.height + 1)).mapM fun d => do
      let m ← addBits 64 (2 ^ t.height) 1
      let size ← pow2e d
      let e ← subBits m size
      addBits 64 (t.lo - 1) e) = .ok t.lasts := by
    rw [h.lasts_of_perfect hp]
    refine mapM_ok fun d hd => ?_
    have hd' : d ≤ t.height := Nat.lt_succ_iff.mp (List.mem_range.mp hd)
    have hle : 2 ^ d ≤ 2 ^ t.height := Nat.pow_le_pow_right Nat.two_pos hd'
    have hone : 1 ≤ 2 ^ d := Nat.one_le_two_pow
    have h63 : 2 ^ t.height ≤ 2 ^ 63 := Nat.pow_le_pow_right Nat.two_pos (by omega)
    rw [addBits_of_lt (by omega), ok_bind, pow2e_eq (by omega), ok_bind, subBits_of_le (by omega),
      ok_bind, addBits_of_lt (by omega)]
  rw [upperEnds, show (addr t).j = t.height from rfl, pow2e_eq hj, ok_bind]
  rw [show (addr t).j = t.height from rfl] at hr
  rw [hr, ok_bind, subBits_of_le hlo, ok_bind, hends, ok_bind, pure_eq_ok]

/-- Filling the open places behind some closed ones. -/
theorem mergeEnds_fill : ∀ (acc ends : List ℕ) {z m : ℕ}, (∀ a ∈ acc, a ≠ 0) →
    acc.length ≤ ends.length → z = ends.length - acc.length + m →
    mergeEnds (acc ++ List.replicate z 0) ends =
      .ok (acc ++ ends.drop acc.length ++ List.replicate m 0)
  | [], [], z, m, _, _, hz => by
    obtain rfl : z = m := by simpa using hz
    cases z with
    | zero => rfl
    | succ z => rfl
  | [], e :: ends, z, m, _, _, hz => by
    obtain ⟨z, rfl⟩ : ∃ y, z = y + 1 := ⟨ends.length + m, by simp at hz; omega⟩
    have ih := mergeEnds_fill [] ends (z := z) (m := m)
      (fun a ha => absurd ha List.not_mem_nil) (Nat.zero_le _) (by simp at hz ⊢; omega)
    rw [List.nil_append] at ih
    rw [List.nil_append, List.replicate_succ, mergeEnds, ih, ok_bind, pure_eq_ok, if_pos rfl]
    rfl
  | a :: acc, [], _, _, _, hle, _ => absurd hle (Nat.not_succ_le_zero _)
  | a :: acc, e :: ends, z, m, hne, hle, hz => by
    have ih := mergeEnds_fill acc ends (z := z) (m := m)
      (fun b hb => hne b (List.mem_cons_of_mem _ hb)) (Nat.le_of_succ_le_succ hle)
      (by simp at hz; omega)
    rw [List.cons_append, mergeEnds, ih, ok_bind, pure_eq_ok,
      if_neg (hne a List.mem_cons_self)]
    rfl

/-- **The fold over the perfect subtrees**, from right to left: as far as it has come, the last
indices of what is covered, and then the places that are open. -/
theorem ends_fold (h : t.LeftPerfect) : t.hi < 2 ^ 64 → ∀ m,
    (t.peaks.map addr).reverse.zipIdx.foldlM pushEnds (List.replicate (t.height + 1 + m) 0) =
      .ok (t.lasts ++ List.replicate m 0) := by
  -- a perfect subtree is the only one of its own, and so the rightmost
  have hperfect : ∀ {t : Tree}, t.LeftPerfect → t.hi < 2 ^ 64 → t.Perfect → ∀ m,
      (t.peaks.map addr).reverse.zipIdx.foldlM pushEnds (List.replicate (t.height + 1 + m) 0) =
        .ok (t.lasts ++ List.replicate m 0) := by
    intro t h hb hp m
    have hfill := mergeEnds_fill [] t.lasts (z := t.height + 1 + m) (m := m)
      (fun a ha => absurd ha List.not_mem_nil) (Nat.zero_le _)
      (by rw [h.length_lasts, List.length_nil, Nat.sub_zero])
    have hpush : pushEnds (List.replicate (t.height + 1 + m) 0) (addr t, 0) =
        .ok (t.lasts ++ List.replicate m 0) := by
      rw [pushEnds, upperEnds_eq h hb hp, ok_bind]
      exact hfill
    rw [Tree.peaks_of_perfect hp, List.map_singleton, List.reverse_singleton,
      List.zipIdx_singleton, List.foldlM_cons, hpush]
    rfl
  induction h with
  | leaf hk => exact fun hb m => hperfect (.leaf hk) hb (Tree.perfect_leaf _) m
  | @node l r hl hr hp hle ha hd _ ihr =>
    intro hb m
    have hlr : (Tree.node l r).LeftPerfect := .node hl hr hp hle ha hd
    by_cases hperf : (Tree.node l r).Perfect
    · exact hperfect hlr hb hperf m
    · have hlt := hlr.hi_left_lt
      have hh := hlr.height_eq
      have hpos := peaks_length_pos r
      rw [Tree.hi_node] at hb
      have hrest := ihr hb (l.height + 1 - r.height + m)
      rw [show r.height + 1 + (l.height + 1 - r.height + m) = (Tree.node l r).height + 1 + m by
        omega] at hrest
      have hindex : ((0 + (r.peaks.map addr).reverse.length) == 0) = false := by
        rw [beq_eq_false_iff_ne, List.length_reverse, List.length_map]
        omega
      have hfill := mergeEnds_fill r.lasts (0 :: l.lasts)
        (z := l.height + 1 - r.height + m) (m := m)
        (fun a ha' => Nat.ne_zero_of_lt (hr.lo_pos.trans (hr.mem_lasts_bounds ha').1))
        (by rw [hr.length_lasts, List.length_cons, hl.length_lasts]; omega)
        (by rw [hr.length_lasts, List.length_cons, hl.length_lasts]; omega)
      have hpush : pushEnds (r.lasts ++ List.replicate (l.height + 1 - r.height + m) 0)
          (addr l, 0 + (r.peaks.map addr).reverse.length) =
            .ok ((Tree.node l r).lasts ++ List.replicate m 0) := by
        rw [pushEnds, upperEnds_eq hl (by omega) hp, ok_bind, hindex, Tree.lasts]
        rw [hr.length_lasts, List.drop_succ_cons] at hfill
        exact hfill
      rw [Tree.peaks_of_not_perfect hperf, List.map_cons, List.reverse_cons, List.zipIdx_append,
        List.foldlM_append, hrest, ok_bind, List.zipIdx_singleton, List.foldlM_cons, hpush]
      rfl

end FormulaTree

section Limits

variable {n : ℕ}

/-- The indices at a distance from the latest entry. -/
theorem setOf_distance (hn : 1 ≤ n) (hb : n < 2 ^ 64) (d : ℕ) :
    {k | entryAccessDistance k n = .ok (some d)} = (Tree.upTo n).atDistance d := by
  have hhi := Tree.hi_upTo hn
  have hlo := Tree.lo_upTo hn
  ext k
  change entryAccessDistance k n = .ok (some d) ↔
    ((Tree.upTo n).lo ≤ k ∧ k ≤ (Tree.upTo n).hi) ∧ Tree.leftSteps k (Tree.upTo n) = d
  rw [entryAccessDistance_eq hn hb, Except.ok.injEq, hhi, hlo]
  by_cases hk : 1 ≤ k ∧ k ≤ n
  · rw [if_pos hk, Option.some.injEq]
    exact (and_iff_right hk).symm
  · rw [if_neg hk]
    exact ⟨fun h => absurd h (Option.some_ne_none d).symm, fun h => absurd h.1 hk⟩

/-- **The two lists of limits**, by the last and the first indices. -/
theorem entryAccessDistanceLimits_eq (hn : 1 ≤ n) (hb : n < 2 ^ 64) {ends starts : List ℕ}
    (hends : (Tree.upTo n).lasts = n :: ends) (hstarts : (Tree.upTo n).firsts = n :: starts) :
    entryAccessDistanceLimits n =
      .ok (List.zipWith (fun a b => (b + 1, a)) (n :: ends) ends ++ [(1, 1)],
        (n, n) :: List.zipWith (fun a b => (b, a - 1)) (n :: starts) starts) := by
  have hu := Tree.leftPerfect_upTo hn
  have hhi := Tree.hi_upTo hn
  have hfold := ends_fold hu (by rwa [hhi]) 0
  have hsorted := hu.lasts_sorted
  have hsorted' := hu.firsts_sorted
  rw [Nat.add_zero, Tree.height_upTo hn, List.replicate_zero, List.append_nil, hends] at hfold
  rw [hends] at hsorted
  rw [hstarts] at hsorted'
  have hupper : windows upperRange (n :: ends) =
      .ok (List.zipWith (fun a b => (b + 1, a)) (n :: ends) ends) := by
    refine windows_ok (hsorted.imp_of_mem fun {a b} ha _ hlt => ?_).isChain
    have ha' : a ∈ (Tree.upTo n).lasts := by rwa [hends]
    have h1 := (hu.mem_lasts_bounds ha').2
    have hlt' : b < a := hlt
    rw [upperRange, addBits_of_lt (by omega), ok_bind, pure_eq_ok]
  have hlower : windows lowerRange (n :: starts) =
      .ok (List.zipWith (fun a b => (b, a - 1)) (n :: starts) starts) := by
    refine windows_ok (hsorted'.imp_of_mem fun {a b} _ _ hlt => ?_).isChain
    have hlt' : b < a := hlt
    rw [lowerRange, subBits_of_le (by omega), ok_bind, pure_eq_ok]
  rw [entryAccessDistanceLimits, if_neg (show ¬n = 0 by omega), ceilLog2_eq hn hb.le, ok_bind,
    pbstRoots_eq hn hb, ok_bind, lowerStarts_eq hn hb, ok_bind, hstarts, hlower, ok_bind, hfold,
    ok_bind, hupper, ok_bind, pure_eq_ok]

/-- The upper ranges go from the last indices down to the next ones. -/
theorem exists_ends (hn : 1 ≤ n) : ∃ ends, (Tree.upTo n).lasts = n :: ends ∧
    Tiles 1 n (List.zipWith (fun a b => (b + 1, a)) (n :: ends) ends ++ [(1, 1)]).reverse ∧
    (List.zipWith (fun a b => (b + 1, a)) (n :: ends) ends ++ [(1, 1)]).map Prod.snd =
      (Tree.upTo n).lasts := by
  have hu := Tree.leftPerfect_upTo hn
  have hhead := hu.head?_lasts
  have hlast := hu.getLast?_lasts
  have hsorted := hu.lasts_sorted
  rw [Tree.hi_upTo hn] at hhead
  obtain ⟨ends, hends⟩ := List.head?_eq_some_iff.mp hhead
  rw [hends, Tree.lo_upTo hn] at hlast
  rw [hends] at hsorted
  exact ⟨ends, hends, tiles_upper hsorted hlast, (upper_ends hlast).trans hends.symm⟩

/-- The lower ranges go from the first indices up to the previous ones. -/
theorem exists_starts (hn : 1 ≤ n) : ∃ starts, (Tree.upTo n).firsts = n :: starts ∧
    Tiles 1 n ((n, n) :: List.zipWith (fun a b => (b, a - 1)) (n :: starts) starts).reverse ∧
    ((n, n) :: List.zipWith (fun a b => (b, a - 1)) (n :: starts) starts).map Prod.fst =
      (Tree.upTo n).firsts := by
  have hu := Tree.leftPerfect_upTo hn
  have hhead := Tree.head?_firsts (Tree.upTo n)
  have hlast := Tree.getLast?_firsts (Tree.upTo n)
  have hsorted := hu.firsts_sorted
  rw [Tree.hi_upTo hn] at hhead
  obtain ⟨starts, hstarts⟩ := List.head?_eq_some_iff.mp hhead
  rw [hstarts, Tree.lo_upTo hn] at hlast
  rw [hstarts] at hsorted
  refine ⟨starts, hstarts, ?_, ?_⟩
  · rw [List.reverse_cons]
    refine tiles_append (tiles_lower (Nat.le_refl 1) hsorted hlast) ?_
    rw [Nat.sub_add_cancel hn]
    exact tiles_singleton (Nat.le_refl n)
  · rw [List.map_cons, lower_starts, hstarts]

section Bounds

variable {ul ll : List (ℕ × ℕ)} (hn : 1 ≤ n)

include hn

/-- What the upper ranges end with. -/
theorem isGreatest_of_ends (hends : ul.map Prod.snd = (Tree.upTo n).lasts) {d : ℕ} {r : ℕ × ℕ}
    (hr : ul[d]? = some r) : IsGreatest ((Tree.upTo n).atDistance d) r.2 := by
  refine (Tree.leftPerfect_upTo hn).isGreatest_lasts ?_
  rw [← hends, List.getElem?_map, hr]
  rfl

/-- What the lower ranges start with. -/
theorem isLeast_of_starts (hstarts : ll.map Prod.fst = (Tree.upTo n).firsts) {d : ℕ} {r : ℕ × ℕ}
    (hr : ll[d]? = some r) : IsLeast ((Tree.upTo n).atDistance d) r.1 := by
  refine (Tree.leftPerfect_upTo hn).isLeast_firsts ?_
  rw [← hstarts, List.getElem?_map, hr]
  rfl

/-- An index is at most as far as its upper range says. -/
theorem leftSteps_le_of_upper (hends : ul.map Prod.snd = (Tree.upTo n).lasts)
    (htiles : Tiles 1 n ul.reverse) {i a : ℕ} {r : ℕ × ℕ} (hr : ul[a]? = some r) (h1 : r.1 ≤ i)
    (h2 : i ≤ r.2) : 1 ≤ i ∧ i ≤ n ∧ Tree.leftSteps i (Tree.upTo n) ≤ a := by
  have hlo := (htiles.pairwise.2 r (List.mem_reverse.mpr (List.mem_of_getElem? hr))).1
  have hhi := (isGreatest_of_ends hn hends hr).1.1.2
  rw [Tree.hi_upTo hn] at hhi
  refine ⟨hlo.trans h1, h2.trans hhi, ?_⟩
  by_contra hcon
  obtain ⟨s, hs⟩ : ∃ s, ul[Tree.leftSteps i (Tree.upTo n)]? = some s := by
    have hle := Tree.leftSteps_le_height i (Tree.upTo n)
    have hlen := congrArg List.length hends
    rw [List.length_map, (Tree.leftPerfect_upTo hn).length_lasts] at hlen
    exact ⟨_, List.getElem?_eq_getElem (by omega)⟩
  -- the range of its own distance comes later, and ends before the index
  have hlt := htiles.lt_of_reverse (Nat.lt_of_not_le hcon) hr hs
  have hmem : i ∈ (Tree.upTo n).atDistance (Tree.leftSteps i (Tree.upTo n)) := by
    refine ⟨⟨?_, ?_⟩, rfl⟩
    · rw [Tree.lo_upTo hn]
      exact hlo.trans h1
    · rw [Tree.hi_upTo hn]
      exact h2.trans hhi
  exact absurd (h1.trans ((isGreatest_of_ends hn hends hs).2 hmem)) (Nat.not_le.mpr hlt)

/-- An index is at least as far as its lower range says. -/
theorem le_leftSteps_of_lower (hstarts : ll.map Prod.fst = (Tree.upTo n).firsts)
    (htiles : Tiles 1 n ll.reverse) {i b : ℕ} {r : ℕ × ℕ} (hr : ll[b]? = some r) (h1 : 1 ≤ i)
    (h2 : i ≤ r.2) (hi : i ≤ n) : b ≤ Tree.leftSteps i (Tree.upTo n) := by
  by_contra hcon
  obtain ⟨s, hs⟩ : ∃ s, ll[Tree.leftSteps i (Tree.upTo n)]? = some s := by
    have hle := Tree.leftSteps_le_height i (Tree.upTo n)
    have hlen := congrArg List.length hstarts
    rw [List.length_map, (Tree.leftPerfect_upTo hn).length_firsts] at hlen
    exact ⟨_, List.getElem?_eq_getElem (by omega)⟩
  -- the range of its own distance comes earlier, and starts behind the index
  have hlt := htiles.lt_of_reverse (Nat.lt_of_not_le hcon) hs hr
  have hmem : i ∈ (Tree.upTo n).atDistance (Tree.leftSteps i (Tree.upTo n)) := by
    refine ⟨⟨?_, ?_⟩, rfl⟩
    · rwa [Tree.lo_upTo hn]
    · rwa [Tree.hi_upTo hn]
  exact absurd (((isLeast_of_starts hn hstarts hs).2 hmem).trans h2) (Nat.not_le.mpr hlt)

end Bounds

/-- **The limits are tight.** In both lists there is a range for every distance, none of them empty,
and they tile the indices downwards. The upper ranges end with the last index of their distance,
the lower ones start with the first one. So an index is at most as far as its upper range says, and
at least as far as its lower one. -/
theorem distanceLimits_tight (hn : 1 ≤ n) (hb : n < 2 ^ 64) : ∃ h ul ll,
    ceilLog2 n = .ok h ∧ entryAccessDistanceLimits n = .ok (ul, ll) ∧
    (ul.length = h + 1 ∧ Tiles 1 n ul.reverse) ∧ (ll.length = h + 1 ∧ Tiles 1 n ll.reverse) ∧
    (∀ d r, ul[d]? = some r →
      IsGreatest {k : ℕ | entryAccessDistance k n = .ok (some d)} r.2) ∧
    (∀ d r, ll[d]? = some r →
      IsLeast {k : ℕ | entryAccessDistance k n = .ok (some d)} r.1) ∧
    ∀ (i a b : ℕ) r r', ul[a]? = some r → ll[b]? = some r' → r.1 ≤ i ∧ i ≤ r.2 →
      r'.1 ≤ i ∧ i ≤ r'.2 →
      ∃ d, entryAccessDistance i n = .ok (some d) ∧ b ≤ d ∧ d ≤ a := by
  have hu := Tree.leftPerfect_upTo hn
  obtain ⟨ends, hends, hulTiles, hulSnd⟩ := exists_ends hn
  obtain ⟨starts, hstarts, hllTiles, hllFst⟩ := exists_starts hn
  have hulLength := congrArg List.length hulSnd
  have hllLength := congrArg List.length hllFst
  rw [List.length_map, hu.length_lasts, Tree.height_upTo hn] at hulLength
  rw [List.length_map, hu.length_firsts, Tree.height_upTo hn] at hllLength
  refine ⟨_, _, _, ceilLog2_eq hn hb.le, entryAccessDistanceLimits_eq hn hb hends hstarts,
    ⟨hulLength, hulTiles⟩, ⟨hllLength, hllTiles⟩, fun d r hr => ?_, fun d r hr => ?_, ?_⟩
  · rw [setOf_distance hn hb]
    exact isGreatest_of_ends hn hulSnd hr
  · rw [setOf_distance hn hb]
    exact isLeast_of_starts hn hllFst hr
  · rintro i a b r r' hr hr' ⟨h1, h2⟩ ⟨-, h3⟩
    obtain ⟨hi1, hi2, hle⟩ := leftSteps_le_of_upper hn hulSnd hulTiles hr h1 h2
    refine ⟨_, ?_, le_leftSteps_of_lower hn hllFst hllTiles hr' hi1 h3 hi2, hle⟩
    rw [entryAccessDistance_eq hn hb, if_pos ⟨hi1, hi2⟩]

/-- The limits of twelve entries. -/
theorem distanceLimits_tight_twelve :
    entryAccessDistanceLimits 12 = .ok ([(12, 12), (10, 11), (6, 9), (2, 5), (1, 1)],
      [(12, 12), (8, 11), (4, 7), (2, 3), (1, 1)]) ∧
    IsGreatest {k : ℕ | entryAccessDistance k 12 = .ok (some 2)} 9 ∧
    IsLeast {k : ℕ | entryAccessDistance k 12 = .ok (some 2)} 4 := by
  have hrun : entryAccessDistanceLimits 12 =
      .ok ([(12, 12), (10, 11), (6, 9), (2, 5), (1, 1)],
        [(12, 12), (8, 11), (4, 7), (2, 3), (1, 1)]) := by decide +kernel
  obtain ⟨h, ul, ll, -, h1, -, -, h2, h3, -⟩ :=
    distanceLimits_tight (n := 12) (by decide) (by decide)
  rw [hrun, Except.ok.injEq, Prod.mk.injEq] at h1
  obtain ⟨rfl, rfl⟩ := h1
  exact ⟨hrun, h2 2 (6, 9) rfl, h3 2 (4, 7) rfl⟩

end Limits

end StratifiedHashTree
