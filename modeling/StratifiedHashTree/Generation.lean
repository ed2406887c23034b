import StratifiedHashTree.History
import StratifiedHashTree.Maps

/-!
# The cache of a generation

What a cache holds, said without the algorithms that fill it
(`StratifiedHashTree.Loaded`): the entries that can be reached from the latest one through
at most `L` left branches (`StratifiedHashTree.Near`), and the attributes of the perfect
subtrees. There is only one such cache (`StratifiedHashTree.Loaded.unique`), which is what lets two
ways of obtaining a cache be compared at all.

What the next append needs is there: the left branches of the next entry lead to perfect
subtrees of this tree, and those are in the last entry or are linked to by it
(`StratifiedHashTree.near_of_spine_succ`).
-/

namespace StratifiedHashTree

open Outcome Formula FormulaTree

variable {w : ℕ}

/-! ### Neighbours -/

/-- The entry `k` is reached from the entry `n` through at most `L` left branches. -/
def Near : ℕ → ℕ → ℕ → Prop
  | 0, n, k => k = n
  | L + 1, n, k => k = n ∨ ∃ p ∈ (Tree.upTo n).spine, Near L p.1.hi k

theorem near_self (L n : ℕ) : Near L n n := by
  cases L with
  | zero => rfl
  | succ L => exact Or.inl rfl

theorem Near.succ {L n k : ℕ} (h : Near L n k) : Near (L + 1) n k := by
  induction L generalizing n with
  | zero => exact Or.inl h
  | succ L ih =>
    rcases h with h | ⟨p, hp, h⟩
    · exact Or.inl h
    · exact Or.inr ⟨p, hp, ih h⟩

/-- Neighbours are older. -/
theorem Near.range {L n k : ℕ} (h : Near L n k) (hn : 1 ≤ n) : 1 ≤ k ∧ k ≤ n := by
  induction L generalizing n with
  | zero =>
    have hk : k = n := h
    omega
  | succ L ih =>
    rcases h with h | ⟨p, hp, h⟩
    · omega
    · obtain ⟨h1, h2, -, -⟩ := (Tree.leftPerfect_upTo hn).of_mem_spine hp
      rw [Tree.hi_upTo hn] at h2
      have h3 := h1.hi_left_lt
      have h4 := ih h h1.left.hi_pos
      omega

/-- The indices on the left of a spine. -/
theorem left_range {n : ℕ} (hn : 1 ≤ n) {p : Tree × Tree} (hp : p ∈ (Tree.upTo n).spine) :
    p.1.LeftPerfect ∧ 1 ≤ p.1.hi ∧ p.1.hi < n := by
  obtain ⟨h1, h2, -, -⟩ := (Tree.leftPerfect_upTo hn).of_mem_spine hp
  rw [Tree.hi_upTo hn] at h2
  exact ⟨h1.left, h1.left.hi_pos, by have := h1.hi_left_lt; omega⟩

/-- A peak is the last one, or a left child of the spine. -/
theorem mem_peaks_cases {t q : Tree} (h : t.LeftPerfect) (hq : q ∈ t.peaks) :
    q.hi = t.hi ∨ ∃ p ∈ t.spine, q = p.1 := by
  induction h with
  | leaf =>
    rw [Tree.peaks, List.mem_singleton] at hq
    exact Or.inl (congrArg Tree.hi hq)
  | @node l r hl hr hp hle ha hd _ ihr =>
    by_cases hperf : (Tree.node l r).Perfect
    · rw [Tree.peaks_of_perfect hperf, List.mem_singleton] at hq
      exact Or.inl (congrArg Tree.hi hq)
    · rw [Tree.peaks_of_not_perfect hperf, List.mem_cons] at hq
      rcases hq with rfl | hq
      · exact Or.inr ⟨_, List.mem_cons_self, rfl⟩
      · rcases ihr hq with h1 | ⟨p, hp, h1⟩
        · exact Or.inl h1
        · exact Or.inr ⟨p, List.mem_cons_of_mem _ hp, h1⟩

/-- The left branches of the next entry lead to the peaks of this tree. -/
theorem exists_peak_of_spine_succ {n : ℕ} (hn : 1 ≤ n) {p : Tree × Tree}
    (hp : p ∈ (Tree.upTo (n + 1)).spine) : p.1 ∈ (Tree.upTo n).peaks := by
  rw [← Tree.spine_upTo_succ hn]
  exact List.mem_map_of_mem hp

/-- **What the next entry links to is at hand**: its left branches lead to the last entry
or to where the last entry's left branches lead. -/
theorem near_of_spine_succ {L n k : ℕ} (hn : 1 ≤ n) {p : Tree × Tree}
    (hp : p ∈ (Tree.upTo (n + 1)).spine) (h : Near L p.1.hi k) : Near (L + 1) n k := by
  rcases mem_peaks_cases (Tree.leftPerfect_upTo hn) (exists_peak_of_spine_succ hn hp) with
    h1 | ⟨q, hq, h1⟩
  · rw [Tree.hi_upTo hn] at h1
    rw [h1] at h
    exact h.succ
  · rw [h1] at h
    exact Or.inr ⟨q, hq, h⟩

/-! ### The cache of a generation -/

section Loaded

variable (H : HashFn w) (v : ℕ → Bytes) (pos : ℕ → Position)

/-- The attributes of trees, by their last index. -/
def rootMap (ts : List Tree) : IndexMap (MetaInfo w) := mapOf Tree.hi (nodeInfo H v pos) ts

/-- The model of a generation, as its tree says. -/
def modelOf (n : ℕ) : Model := ⟨n, (Tree.upTo n).peaks.map addr, ephemerals (Tree.upTo n)⟩

/-- **The cache of a generation** `n ≥ 1`. -/
structure Loaded (L n : ℕ) (c : Cache w) : Prop where
  level_eq : c.level = L
  model_eq : c.model = some (modelOf n)
  holds : Holds (entryAt H v pos) {k | Near L n k} c.cache
  roots_eq : c.pbstRoots = rootMap H v pos (Tree.upTo n).peaks

/-- The cache of any generation. -/
def Represents (L : ℕ) : ℕ → Cache w → Prop
  | 0, c => c = Cache.empty L
  | n + 1, c => Loaded H v pos L (n + 1) c

variable {H v pos} {L n : ℕ} {c c' : Cache w}

theorem Represents.loaded (h : Represents H v pos L n c) (hn : 1 ≤ n) : Loaded H v pos L n c := by
  cases n with
  | zero => omega
  | succ n => exact h

theorem Loaded.represents (h : Loaded H v pos L n c) (hn : 1 ≤ n) : Represents H v pos L n c := by
  cases n with
  | zero => omega
  | succ n => exact h

/-- **There is only one cache of a generation.** -/
theorem Loaded.unique (h : Loaded H v pos L n c) (h' : Loaded H v pos L n c') : c = c' := by
  cases c
  cases c'
  obtain ⟨rfl, rfl, h1, rfl⟩ := h
  obtain ⟨h2, h3, h4, h5⟩ := h'
  simp only at h1 h2 h3 h4 h5
  rw [h1.unique h4, h2, h3, h5]

theorem Represents.unique (h : Represents H v pos L n c) (h' : Represents H v pos L n c') :
    c = c' := by
  cases n with
  | zero =>
    have h1 : c = Cache.empty L := h
    have h2 : c' = Cache.empty L := h'
    rw [h1, h2]
  | succ n => exact Loaded.unique h h'

theorem nodeInfo_congr {v' : ℕ → Bytes} {pos' : ℕ → Position} {t : Tree} (ht : t.LeftPerfect)
    (hv : ∀ k, 1 ≤ k → k ≤ t.hi → v k = v' k) (hpos : ∀ k, 1 ≤ k → k ≤ t.hi → pos k = pos' k) :
    nodeInfo H v pos t = nodeInfo H v' pos' t := by
  have h1 : (entryAt H v pos t.hi).metaInfo t.height = some (nodeInfo H v pos t) :=
    entryAt_metaInfo ht
  rw [entryAt_congr H v pos ht.hi_pos hv hpos, entryAt_metaInfo ht] at h1
  exact (Option.some.inj h1).symm

/-- The cache of a generation depends on the payloads and positions up to it only. -/
theorem Loaded.congr {v' : ℕ → Bytes} {pos' : ℕ → Position} (hn : 1 ≤ n)
    (h : Loaded H v pos L n c) (hv : ∀ k, 1 ≤ k → k ≤ n → v k = v' k)
    (hpos : ∀ k, 1 ≤ k → k ≤ n → pos k = pos' k) : Loaded H v' pos' L n c where
  level_eq := h.level_eq
  model_eq := h.model_eq
  holds := by
    intro k e
    rw [h.holds k e]
    refine and_congr_right fun hk => ?_
    have hr := Near.range hk hn
    rw [entryAt_congr H v pos hr.1 (fun i h1 h2 => hv i h1 (h2.trans hr.2))
      fun i h1 h2 => hpos i h1 (h2.trans hr.2)]
  roots_eq := by
    rw [h.roots_eq]
    refine mapOf_congr fun t ht => ?_
    obtain ⟨h1, -, -, h2⟩ := (Tree.leftPerfect_upTo hn).of_mem_peaks ht
    rw [Tree.hi_upTo hn] at h2
    exact nodeInfo_congr h1 (fun i h3 h4 => hv i h3 (h4.trans h2))
      fun i h3 h4 => hpos i h3 (h4.trans h2)

theorem Represents.congr {v' : ℕ → Bytes} {pos' : ℕ → Position} (h : Represents H v pos L n c)
    (hv : ∀ k, 1 ≤ k → k ≤ n → v k = v' k) (hpos : ∀ k, 1 ≤ k → k ≤ n → pos k = pos' k) :
    Represents H v' pos' L n c := by
  cases n with
  | zero => exact h
  | succ n => exact Loaded.congr (Nat.le_add_left 1 n) h hv hpos

/-! ### What a cache answers -/

theorem Represents.level_eq (h : Represents H v pos L n c) : c.level = L := by
  cases n with
  | zero =>
    have h1 : c = Cache.empty L := h
    rw [h1]
    rfl
  | succ n => exact Loaded.level_eq h

theorem Represents.revision_eq (h : Represents H v pos L n c) : c.revision = n := by
  cases n with
  | zero =>
    have h1 : c = Cache.empty L := h
    rw [h1]
    rfl
  | succ n =>
    rw [Cache.revision, Loaded.model_eq h]
    rfl

/-- The cached entries are the entries. -/
theorem Represents.of_entry (h : Represents H v pos L n c) {k : ℕ} {e : Entry w}
    (he : c.entry k = some e) : e = entryAt H v pos k := by
  cases n with
  | zero =>
    have h1 : c = Cache.empty L := h
    rw [h1, Cache.entry, Cache.empty] at he
    exact absurd he (by rw [Finmap.lookup_empty]; exact (Option.some_ne_none e).symm)
  | succ n => exact ((Loaded.holds h k e).mp he).2

theorem Loaded.entry_self (h : Loaded H v pos L n c) : c.entry n = some (entryAt H v pos n) :=
  h.holds.lookup (near_self L n)

theorem Loaded.revision_eq (h : Loaded H v pos L n c) : c.revision = n := by
  rw [Cache.revision, h.model_eq]
  rfl

theorem Loaded.lastEntry_eq (h : Loaded H v pos L n c) :
    c.lastEntry = some (entryAt H v pos n) := by
  rw [Cache.lastEntry, h.revision_eq]
  exact h.entry_self

theorem Loaded.root_eq (h : Loaded H v pos L n c) (hn : 1 ≤ n) :
    c.root = some (nodeInfo H v pos (Tree.upTo n)) := by
  rw [Cache.root, h.lastEntry_eq, Option.map_some, entryAt_root hn]

theorem Represents.root_zero (h : Represents H v pos L 0 c) : c.root = none := by
  have h1 : c = Cache.empty L := h
  rw [h1]
  rfl

/-! ### The perfect subtrees -/

/-- The peaks have different last indices. -/
theorem peak_eq_of_hi {t p q : Tree} (h : t.LeftPerfect) (hp : p ∈ t.peaks) (hq : q ∈ t.peaks)
    (heq : p.hi = q.hi) : p = q := by
  have h1 := (h.of_mem_peaks hp).1.lo_le_hi
  have h2 := (h.of_mem_peaks hq).1.lo_le_hi
  rcases eq_or_rel_of_pairwise h.peaks_sorted hp hq with h3 | h3 | h3
  · exact h3
  · omega
  · omega

theorem Loaded.lookup_peak (h : Loaded H v pos L n c) (hn : 1 ≤ n) {t : Tree}
    (ht : t ∈ (Tree.upTo n).peaks) : c.pbstRoots.lookup t.hi = some (nodeInfo H v pos t) := by
  rw [h.roots_eq]
  refine lookup_mapOf (fun p hp q hq heq => ?_) ht
  rw [peak_eq_of_hi (Tree.leftPerfect_upTo hn) hp hq heq]

/-- **A remembered perfect subtree.** -/
theorem Loaded.getPbstRoot_eq (h : Loaded H v pos L n c) (hn : 1 ≤ n) {t : Tree}
    (ht : t ∈ (Tree.upTo n).peaks) : c.getPbstRoot t.hi t.height = .ok (nodeInfo H v pos t) := by
  rw [Cache.getPbstRoot, h.lookup_peak hn ht]
  simp [nodeInfo, nodeAddress]

end Loaded

end StratifiedHashTree
