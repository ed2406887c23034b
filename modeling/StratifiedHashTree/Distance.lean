import StratifiedHashTree.Unfold
import StratifiedHashTree.Snapshots

/-!
# How far an entry is from the latest one

Every left branch on the way down the tree of a generation is a link to another entry, and so
the number of left branches is the number of entries to be read. `formula.rs` has a closed form
for it (`StratifiedHashTree.Formula.entryAccessDistance`): below a perfect subtree, a right branch
is a one bit of the offset of the leaf
(`StratifiedHashTree.FormulaTree.entryAccessDistance_eq`).

The cache does not count this way. It follows all the links of an entry, and the nodes at the
top of an older generation link to places where the current one does not go. Still it does not
get any further: what is reached through such a link is no further away in the current
generation (`StratifiedHashTree.near_iff`). So there is a closed form for what a cache holds
(`StratifiedHashTree.cache_representation`).
-/

namespace StratifiedHashTree

open Outcome Formula

variable {w : ℕ}

/-! ### Counting bits -/

namespace FormulaTree

/-- The highest bit counts for itself. -/
theorem countOnes_two_pow_add {m y : ℕ} (hm : m < 64) (hy : y < 2 ^ m) :
    countOnes (2 ^ m + y) = countOnes y + 1 := by
  have key : ∀ width, (List.range width).countP (2 ^ m + y).testBit =
      (List.range width).countP y.testBit + if m < width then 1 else 0 := by
    intro width
    induction width with
    | zero => rfl
    | succ width ih =>
      rw [List.range_succ, List.countP_append, List.countP_append, ih, List.countP_singleton,
        List.countP_singleton]
      rcases Nat.lt_trichotomy width m with hlt | rfl | hgt
      · rw [Nat.testBit_two_pow_add_gt hlt, if_neg (show ¬m < width by omega),
          if_neg (show ¬m < width + 1 by omega), Nat.add_zero, Nat.add_zero]
      · rw [Nat.testBit_two_pow_add_eq, Nat.testBit_lt_two_pow hy]
        simp
      · have h1 : 2 ^ (m + 1) ≤ 2 ^ width := Nat.pow_le_pow_right Nat.two_pos hgt
        rw [pow_succ] at h1
        rw [Nat.testBit_lt_two_pow (show 2 ^ m + y < 2 ^ width by omega),
          Nat.testBit_lt_two_pow (show y < 2 ^ width by omega), if_pos hgt,
          if_pos (show m < width + 1 by omega)]
        simp
  rw [countOnes, countOnes, key 64, if_pos hm]

theorem countOnes_zero : countOnes 0 = 0 := by
  rw [countOnes, List.countP_eq_zero]
  intro b _
  rw [Nat.zero_testBit]
  exact Bool.false_ne_true

/-- **Below a perfect subtree** every step is a left one, or a one bit of the offset. -/
theorem leftSteps_add_countOnes {t : Tree} (h : t.LeftPerfect) (hb : t.hi < 2 ^ 64) {k : ℕ} :
    t.Perfect → t.lo ≤ k → k ≤ t.hi →
      Tree.leftSteps k t + countOnes (k - t.lo) = t.height := by
  induction h with
  | @leaf i hi =>
    intro _ hlo hhi
    obtain rfl : k = i := le_antisymm hhi hlo
    rw [Tree.lo_leaf, Nat.sub_self, countOnes_zero]
    rfl
  | @node l r hl hr hp hle ha hd ihl ihr =>
    intro hperf hlo hhi
    have hlr : (Tree.node l r).LeftPerfect := .node hl hr hp hle ha hd
    have hrp := hlr.perfect_right hperf
    have hlsize : l.size = 2 ^ l.height := hp
    have hrsize : r.size = 2 ^ r.height := hrp
    have hheight := hlr.height_right_of_perfect hperf
    have hladd := hl.lo_add_size
    have hradd := hr.lo_add_size
    have hlt := hlr.hi_left_lt
    rw [Tree.hi_node] at hb hhi
    rw [Tree.lo_node] at hlo ⊢
    rw [hlr.height_eq]
    by_cases hk : k ≤ l.hi
    · have h1 := ihl (by omega) hp hlo hk
      rw [Tree.leftSteps_left hk]
      omega
    · have hm : l.height < 64 := by
        refine (Nat.pow_lt_pow_iff_right Nat.one_lt_two).mp ?_
        have h1 := hl.lo_pos
        omega
      have h1 := ihr hb hrp (by omega) hhi
      rw [hheight] at h1 hrsize
      rw [Tree.leftSteps_right hk,
        show k - l.lo = 2 ^ l.height + (k - r.lo) by omega,
        countOnes_two_pow_add hm (by omega)]
      omega

/-! ### The closed form -/

/-- The first of the peaks that contains an index is the only one. -/
theorem findRoot_peaks {t : Tree} (h : t.LeftPerfect) (hb : t.hi < 2 ^ 64) {k : ℕ} :
    t.lo ≤ k → k ≤ t.hi → ∃ p ∈ t.peaks, findRoot k (t.peaks.map addr) = .ok (some (addr p)) ∧
      (p.lo ≤ k ∧ k ≤ p.hi) ∧
      Tree.leftSteps k t = Tree.leftSteps k p + if p.hi ≠ t.hi then 1 else 0 := by
  induction h with
  | @leaf i hi =>
    intro hlo hhi
    have hc := contains_label (.leaf hi) hb k
    refine ⟨.leaf i, List.mem_singleton_self _, ?_, ⟨hlo, hhi⟩, by simp⟩
    rw [Tree.peaks, List.map_singleton, findRoot]
    change (contains (Tree.leaf i).hi (Tree.leaf i).height k >>= fun c => _) = _
    rw [hc, ok_bind, if_pos (decide_eq_true ⟨hlo, hhi⟩), pure_eq_ok]
  | @node l r hl hr hp hle ha hd _ ihr =>
    intro hlo hhi
    have hlr : (Tree.node l r).LeftPerfect := .node hl hr hp hle ha hd
    by_cases hperf : (Tree.node l r).Perfect
    · have hc := contains_label hlr hb k
      rw [Tree.peaks_of_perfect hperf]
      refine ⟨.node l r, List.mem_singleton_self _, ?_, ⟨hlo, hhi⟩, by simp⟩
      rw [List.map_singleton, findRoot]
      change (contains (Tree.node l r).hi (Tree.node l r).height k >>= fun c => _) = _
      rw [hc, ok_bind, if_pos (decide_eq_true ⟨hlo, hhi⟩), pure_eq_ok]
    · have hlt := hlr.hi_left_lt
      rw [Tree.hi_node] at hb hhi
      have hc := contains_label hl (by omega) k
      rw [Tree.peaks_of_not_perfect hperf, List.map_cons, findRoot]
      change ∃ p ∈ _, (contains l.hi l.height k >>= fun c => _) = _ ∧ _
      rw [hc, ok_bind]
      by_cases hk : k ≤ l.hi
      · refine ⟨l, List.mem_cons_self, ?_, ⟨hlo, hk⟩, ?_⟩
        · rw [if_pos (decide_eq_true ⟨hlo, hk⟩), pure_eq_ok]
        · rw [Tree.leftSteps_left hk, Tree.hi_node, if_pos (by omega)]
      · obtain ⟨p, h1, h2, h3, h4⟩ := ihr hb (by omega) hhi
        refine ⟨p, List.mem_cons_of_mem _ h1, ?_, h3, ?_⟩
        · rw [if_neg (by simp [hk]), h2]
        · rw [Tree.leftSteps_right hk, h4, Tree.hi_node]

/-- None of them contains another index. -/
theorem findRoot_eq_none {k : ℕ} : ∀ {ts : List Tree},
    (∀ t ∈ ts, t.LeftPerfect ∧ t.hi < 2 ^ 64 ∧ ¬(t.lo ≤ k ∧ k ≤ t.hi)) →
    findRoot k (ts.map addr) = .ok none
  | [], _ => rfl
  | t :: ts, h => by
    obtain ⟨h1, h2, h3⟩ := h t List.mem_cons_self
    have hc := contains_label h1 h2 k
    rw [List.map_cons, findRoot]
    change (contains t.hi t.height k >>= fun c => _) = _
    rw [hc, ok_bind, if_neg (by simpa using h3)]
    exact findRoot_eq_none fun u hu => h u (List.mem_cons_of_mem _ hu)

/-- **The distance is the number of left branches.** -/
theorem entryAccessDistance_eq {n : ℕ} (hn : 1 ≤ n) (hb : n < 2 ^ 64) (k : ℕ) :
    entryAccessDistance k n =
      .ok (if 1 ≤ k ∧ k ≤ n then some (Tree.leftSteps k (Tree.upTo n)) else none) := by
  have hu := Tree.leftPerfect_upTo hn
  have hhi := Tree.hi_upTo hn
  have hlo := Tree.lo_upTo hn
  rw [entryAccessDistance, pbstRoots_eq hn hb, ok_bind]
  by_cases hk : 1 ≤ k ∧ k ≤ n
  · obtain ⟨p, h1, h2, ⟨h3, h4⟩, h5⟩ := findRoot_peaks hu (by rwa [hhi])
      (show (Tree.upTo n).lo ≤ k by rw [hlo]; exact hk.1) (by rw [hhi]; exact hk.2)
    obtain ⟨hp, hperf, -, hphi⟩ := hu.of_mem_peaks h1
    rw [hhi] at h5 hphi
    have hsum := leftSteps_add_countOnes hp (by omega) hperf h3 h4
    have hheight := height_le_64 hp (by omega)
    have hr := range_label hp (by omega)
    have hlt : Tree.leftSteps k p + (if p.hi ≠ n then 1 else 0) < 2 ^ 8 := by
      split <;> omega
    rw [h2, ok_bind, if_pos hk, h5]
    change (range p.hi p.height >>= fun r => subBits k r.1 >>= fun offset =>
      subBits p.height (countOnes offset) >>= fun steps =>
      addBits 8 steps (if p.hi ≠ n then 1 else 0) >>= fun distance => pure (some distance)) = _
    rw [hr, ok_bind, subBits_of_le h3, ok_bind, subBits_of_le (by omega), ok_bind,
      show p.height - countOnes (k - p.lo) = Tree.leftSteps k p by omega, addBits_of_lt hlt,
      ok_bind, pure_eq_ok]
  · rw [findRoot_eq_none, ok_bind, if_neg hk, pure_eq_ok]
    intro t ht
    obtain ⟨h1, -, h2, h3⟩ := hu.of_mem_peaks ht
    rw [hhi] at h3
    rw [hlo] at h2
    exact ⟨h1, by omega, by omega⟩

end FormulaTree

open FormulaTree

/-! ### The way to a subtree -/

/-- A subtree into which so many left edges lead. -/
def LeadsInto (n m : ℕ) (t : Tree) : Prop :=
  ∀ k, t.lo ≤ k → k ≤ t.hi → Tree.leftSteps k (Tree.upTo n) = m + Tree.leftSteps k t

theorem leadsInto_upTo (n : ℕ) : LeadsInto n 0 (Tree.upTo n) := fun _ _ _ => (Nat.zero_add _).symm

theorem LeadsInto.left {n m : ℕ} {l r : Tree} (h : LeadsInto n m (.node l r))
    (ht : (Tree.node l r).LeftPerfect) : LeadsInto n (m + 1) l := by
  intro k hlo hhi
  rw [h k hlo (hhi.trans ht.hi_left_lt.le), Tree.leftSteps_left hhi, Nat.add_right_comm,
    Nat.add_assoc]

theorem LeadsInto.right {n m : ℕ} {l r : Tree} (h : LeadsInto n m (.node l r))
    (ht : (Tree.node l r).LeftPerfect) : LeadsInto n m r := by
  intro k hlo hhi
  have h1 := ht.lo_right
  have h2 := ht.left.lo_le_hi
  rw [h k (by rw [Tree.lo_node]; omega) hhi, Tree.leftSteps_right (by omega)]

/-- A left branch of a spine leads one edge further. -/
theorem LeadsInto.spine {n m : ℕ} {t : Tree} (h : LeadsInto n m t) (ht : t.LeftPerfect)
    {p : Tree × Tree} (hp : p ∈ t.spine) : LeadsInto n (m + 1) p.1 := by
  intro k hlo hhi
  obtain ⟨h1, h2, h3, -⟩ := ht.of_mem_spine hp
  have h4 := h1.hi_left_lt
  rw [h k (h3.trans hlo) (by omega), ht.leftSteps_of_mem_spine hp hlo hhi, Nat.add_right_comm,
    Nat.add_assoc]

/-- The last entry of a subtree is as far away as there are left edges into it. -/
theorem LeadsInto.leftSteps_hi {n m : ℕ} {t : Tree} (h : LeadsInto n m t) (ht : t.LeftPerfect) :
    Tree.leftSteps t.hi (Tree.upTo n) = m := by
  rw [h t.hi ht.lo_le_hi (Nat.le_refl _), ht.leftSteps_hi, Nat.add_zero]

/-! ### What is near -/

theorem leftSteps_upTo_self {n : ℕ} (hn : 1 ≤ n) : Tree.leftSteps n (Tree.upTo n) = 0 := by
  have h1 := (Tree.leftPerfect_upTo hn).leftSteps_hi
  rwa [Tree.hi_upTo hn] at h1

/-- A link of the latest entry saves no more than one step: where the current generation goes, the
older one goes, too. -/
theorem leftSteps_le_succ {n k : ℕ} (hn : 1 ≤ n) {p : Tree × Tree} (hp : p ∈ (Tree.upTo n).spine)
    (h1 : 1 ≤ k) (h2 : k ≤ p.1.hi) :
    Tree.leftSteps k (Tree.upTo n) ≤ Tree.leftSteps k (Tree.upTo p.1.hi) + 1 := by
  have hu := Tree.leftPerfect_upTo hn
  obtain ⟨hpl, hp1, hpn⟩ := left_range hn hp
  obtain ⟨q, hq, h3, h4⟩ := hu.exists_mem_spine (k := k) (by rwa [Tree.lo_upTo hn])
    (by rw [Tree.hi_upTo hn]; omega)
  obtain ⟨hql, -, -⟩ := left_range hn hq
  have hqhi : q.1.hi ≤ p.1.hi := by
    obtain ⟨m, rfl⟩ : ∃ m, n = m + 1 := ⟨n - 1, by omega⟩
    have hm : 1 ≤ m := by omega
    rcases eq_or_rel_of_pairwise (Tree.leftPerfect_upTo hm).peaks_sorted
      (exists_peak_of_spine_succ hm hq) (exists_peak_of_spine_succ hm hp) with heq | hlt | hlt
    · rw [heq]
    · have hle := hpl.lo_le_hi
      omega
    · omega
  have hsub : Tree.Sub q.1 (Tree.upTo p.1.hi) := by
    refine (Tree.leftPerfect_upTo hp1).sub_of_perfect hql ?_ ?_ ?_
    · exact (hu.of_mem_spine hq).1.perfect_left
    · rw [Tree.lo_upTo hp1]
      exact hql.lo_pos
    · rwa [Tree.hi_upTo hp1]
  rw [hu.leftSteps_of_mem_spine hq h3 h4]
  exact Nat.succ_le_succ (Tree.LeftPerfect.leftSteps_le_of_sub hsub (Tree.leftPerfect_upTo hp1)
    h3 h4)

/-- **The neighbours are the entries at a small distance.** -/
theorem near_iff {L n k : ℕ} (hn : 1 ≤ n) :
    Near L n k ↔ (1 ≤ k ∧ k ≤ n) ∧ Tree.leftSteps k (Tree.upTo n) ≤ L := by
  induction L generalizing n with
  | zero =>
    constructor
    · intro h
      have hk : k = n := h
      rw [hk, leftSteps_upTo_self hn]
      exact ⟨⟨hn, Nat.le_refl n⟩, Nat.le_refl 0⟩
    · rintro ⟨⟨h1, h2⟩, h3⟩
      have h4 := (Tree.leftPerfect_upTo hn).eq_hi_of_leftSteps (by rwa [Tree.lo_upTo hn])
        (by rwa [Tree.hi_upTo hn]) (Nat.le_zero.mp h3)
      rwa [Tree.hi_upTo hn] at h4
  | succ L ih =>
    have hu := Tree.leftPerfect_upTo hn
    constructor
    · rintro (rfl | ⟨p, hp, hnear⟩)
      · rw [leftSteps_upTo_self hn]
        exact ⟨⟨hn, Nat.le_refl _⟩, Nat.zero_le _⟩
      · obtain ⟨-, h1, h2⟩ := left_range hn hp
        obtain ⟨⟨h3, h4⟩, h5⟩ := (ih h1).mp hnear
        exact ⟨⟨h3, h4.trans h2.le⟩, (leftSteps_le_succ hn hp h3 h4).trans (Nat.succ_le_succ h5)⟩
    · rintro ⟨⟨h1, h2⟩, h3⟩
      rcases h2.eq_or_lt with rfl | hlt
      · exact Or.inl rfl
      · obtain ⟨p, hp, h4, h5⟩ := hu.exists_mem_spine (k := k) (by rwa [Tree.lo_upTo hn])
          (by rwa [Tree.hi_upTo hn])
        obtain ⟨hpl, h6, h7⟩ := left_range hn hp
        refine Or.inr ⟨p, hp, (ih h6).mpr ⟨⟨h1, h5⟩, ?_⟩⟩
        rw [hu.leftSteps_of_mem_spine hp h4 h5] at h3
        rw [hpl.leftSteps_upTo h4 h5]
        exact Nat.le_of_succ_le_succ h3

/-! ### What a cache holds -/

section Cached

variable {H : HashFn w} {v : ℕ → Bytes} {pos : ℕ → Position} {L n k : ℕ} {c : Cache w}

/-- What is near is cached. -/
theorem Represents.entry_near (h : Represents H v pos L n c) (h1 : 1 ≤ k) (h2 : k ≤ n)
    (hnear : Tree.leftSteps k (Tree.upTo n) ≤ L) : c.entry k = some (entryAt H v pos k) :=
  (h.loaded (h1.trans h2)).holds.lookup ((near_iff (h1.trans h2)).mpr ⟨⟨h1, h2⟩, hnear⟩)

/-- What is further away is not. -/
theorem Represents.entry_far (h : Represents H v pos L n c) (hn : 1 ≤ n)
    (hfar : ¬Tree.leftSteps k (Tree.upTo n) ≤ L) : c.entry k = none := by
  cases he : c.entry k with
  | none => rfl
  | some e => exact absurd ((near_iff hn).mp (((h.loaded hn).holds _ e).mp he).1).2 hfar

end Cached

/-- **The cache of a generation, in closed form**: the entries at a small distance, as they were
appended, and one item for every perfect subtree. -/
structure CacheOf (B : Backend w) (H : HashFn w) (L : ℕ) (vs : List Bytes) (n : Index)
    (c : Cache w) : Prop where
  revision_eq : c.revision = n
  cached_iff : ∀ k, (∃ e, c.entry k = some e) ↔ ∃ d, entryAccessDistance k n = .ok (some d) ∧ d ≤ L
  appended : ∀ k e, c.entry k = some e → AppendedEntry B H L vs k e
  roots : ∃ roots, pbstRoots n = .ok roots ∧ (roots.map Addr.i).Nodup ∧
    (∀ i, i ∈ c.pbstRoots ↔ i ∈ roots.map Addr.i) ∧
    ∀ root ∈ roots, ∃ e hash, AppendedEntry B H L vs root.i e ∧
      merkleHash H (payload vs) root.i root.j = .ok hash ∧
      c.pbstRoots.lookup root.i =
        some ⟨⟨root.i, root.j, e.enode.metaInfo.address.position⟩, hash⟩

section Representation

variable {B : Backend w} {H : HashFn w} {L : ℕ} {vs : List Bytes} {s : SlateOn B}

theorem AppendedEntry.unique {i : Index} {e e' : Entry w} (h : AppendedEntry B H L vs i e)
    (h' : AppendedEntry B H L vs i e') : e = e' := by
  obtain ⟨s, puts, model, h1, h2⟩ := h
  obtain ⟨s', puts', model', h3, h4⟩ := h'
  rw [h1, Except.ok.injEq, Prod.mk.injEq] at h3
  rw [← h3.1, h2, Except.ok.injEq, Prod.mk.injEq] at h4
  exact h4.1

/-- The entries at a small distance. -/
theorem distance_le_iff {n : ℕ} (hn : 1 ≤ n) (hb : n < 2 ^ 64) (k : ℕ) :
    (∃ d, entryAccessDistance k n = .ok (some d) ∧ d ≤ L) ↔ Near L n k := by
  rw [near_iff hn, entryAccessDistance_eq hn hb]
  constructor
  · rintro ⟨d, hd, hle⟩
    rw [Except.ok.injEq] at hd
    by_cases hk : 1 ≤ k ∧ k ≤ n
    · rw [if_pos hk, Option.some.injEq] at hd
      exact ⟨hk, hd.trans_le hle⟩
    · rw [if_neg hk] at hd
      exact absurd hd (Option.some_ne_none d).symm
  · rintro ⟨hk, hle⟩
    exact ⟨_, by rw [if_pos hk], hle⟩

/-- **A cache that is loaded** is the cache of its generation. -/
theorem Loaded.cacheOf {n : ℕ} {c : Cache w} (hn : 1 ≤ n) (hvs : n ≤ vs.length)
    (hB : B.Holds H vs) (h : Loaded H (payload vs) (positionOf B.log H (payload vs)) L n c) :
    CacheOf B H L vs n c where
  revision_eq := h.revision_eq
  cached_iff k := by
    have hb := hB.lt
    rw [distance_le_iff hn (by omega)]
    constructor
    · rintro ⟨e, he⟩
      exact ((h.holds k e).mp he).1
    · intro hk
      exact ⟨_, h.holds.lookup hk⟩
  appended k e he := by
    obtain ⟨hk, rfl⟩ := (h.holds k e).mp he
    obtain ⟨h1, h2⟩ := Near.range hk hn
    exact appendedEntry_entryOf L hB h1 (h2.trans hvs)
  roots := by
    have hb := hB.lt
    have hu := Tree.leftPerfect_upTo hn
    have hhi := Tree.hi_upTo hn
    have hkeys : ∀ t ∈ (Tree.upTo n).peaks, ∀ u ∈ (Tree.upTo n).peaks, t.hi = u.hi →
        nodeInfo H (payload vs) (positionOf B.log H (payload vs)) t =
          nodeInfo H (payload vs) (positionOf B.log H (payload vs)) u := by
      intro t ht u hu' heq
      rw [peak_eq_of_hi hu ht hu' heq]
    have hindices : ((Tree.upTo n).peaks.map addr).map Addr.i = (Tree.upTo n).peaks.map Tree.hi :=
      List.map_map
    refine ⟨_, pbstRoots_eq hn (by omega), ?_, fun i => ?_, ?_⟩
    · rw [hindices, List.Nodup, List.pairwise_map]
      refine hu.peaks_sorted.imp_of_mem fun {t u} _ hu' hlt => ?_
      have h1 := (hu.of_mem_peaks hu').1.lo_le_hi
      exact (hlt.trans_le h1).ne
    · rw [hindices, List.mem_map, ← Finmap.mem_keys, h.roots_eq]
      exact mem_keys_mapOf hkeys
    · rintro root hroot
      obtain ⟨t, ht, rfl⟩ := List.mem_map.mp hroot
      obtain ⟨h1, -, -, h2⟩ := hu.of_mem_peaks ht
      rw [hhi] at h2
      exact ⟨_, _, appendedEntry_entryOf L hB h1.hi_pos (h2.trans hvs),
        merkleHash_label h1 (by omega), h.lookup_peak hn ht⟩

/-- **The representation of a cache.** Whatever led to a slate, its cache and those of its
snapshots are the caches of their generations. So the next append finds all it needs: its nodes
are built, its cache is migrated, and the cache of any of its entries is loaded. -/
theorem cache_representation (h : Reaches B H L vs s) :
    (∀ fuel, INDEX_SIZE < fuel → ∀ (snapshot : Snapshot B.log.toStorage) (m : ℕ),
      (snapshot = s.snapshot ∧ m = vs.length) ∨ Slate.snapshotAt fuel m s = (.ok snapshot, s) →
      1 ≤ m → CacheOf B H L vs m snapshot.cache) ∧
    (∀ value, ∃ entry model cache, Slate.buildEntry H s value = .ok (entry, model) ∧
      s.cache.migrate entry model = .ok cache) ∧
    ∀ L' k e, 1 ≤ k → k ≤ vs.length → AppendedEntry B H L vs k e →
      ∃ cache, Cache.load B.log.toStorage L' e s.storage = (.ok cache, s.storage) := by
  have hs := h.slateOf
  refine ⟨fun fuel hf snapshot m hsnap hm => ?_, fun value => ?_, fun L' k e h1 h2 he => ?_⟩
  · have hview := h.view hf hsnap
    exact Loaded.cacheOf hm hview.le hs.fits (hview.represents.loaded hm)
  · have hs' := hs.congr fun k h1 h2 => payload_append_left [value] h1 h2
    have hbuild := buildEntry_eq hs'.represents hs'.position_eq hs'.fits.lt
    obtain ⟨cache, hmigrate, -⟩ := migrate_loaded hs'.represents
    rw [payload_concat] at hbuild
    exact ⟨_, _, cache, hbuild, hmigrate⟩
  · have hlt := hs.lt
    obtain ⟨cache, hload, -⟩ := load_loaded (L := L') (hs.readable.mono h2) h1 (by omega)
    rw [he.unique (appendedEntry_entryOf L hs.fits h1 h2)]
    exact ⟨cache, hload⟩

/-- Three payloads with a cache of one level, in a block storage. -/
theorem cache_representation_three : ∃ s : SlateOn tinyBlock,
    Reaches tinyBlock byteSum 1 [[1], [], [2, 3]] s ∧
    CacheOf tinyBlock byteSum 1 [[1], [], [2, 3]] 3 s.cache ∧
    (∃ entry model cache, Slate.buildEntry byteSum s [4] = .ok (entry, model) ∧
      s.cache.migrate entry model = .ok cache) := by
  obtain ⟨s, h⟩ := exists_reaches_of_length_lt tinyBlock byteSum 1 [[1], [], [2, 3]]
    (by decide) (by decide)
  obtain ⟨h1, h2, -⟩ := cache_representation h
  exact ⟨s, h, h1 65 (by decide) s.snapshot 3 (Or.inl ⟨rfl, rfl⟩) (by decide), h2 [4]⟩

end Representation

end StratifiedHashTree
