import StratifiedHashTree.Generation

/-!
# Building, migrating and loading

The three algorithms around the cache of a generation, against
`StratifiedHashTree.Loaded`:

* with the remembered perfect subtrees, the nodes that an append builds bottom-up are the
  spine of the next tree (`StratifiedHashTree.buildEntry_eq`);
* `StratifiedHashTree.Cache.migrate` gives the cache of the next generation, and reads
  nothing for it (`StratifiedHashTree.migrate_loaded`);
* `StratifiedHashTree.Cache.load` gives the same cache from the stored entries
  (`StratifiedHashTree.load_loaded`), whatever comes after them in the storage.
-/

namespace StratifiedHashTree

open Outcome Formula FormulaTree

variable {w : ℕ} {H : HashFn w} {v : ℕ → Bytes} {pos : ℕ → Position} {L n : ℕ} {c : Cache w}

/-! ### Building the next entry -/

variable (H v pos c) in
/-- **The nodes are built from the leaf upwards**, with the hash of the node below at hand:
the induction goes down the right edge, so the nodes still to be built are passed on. -/
theorem buildInodes_spine {t : Tree} (ht : t.LeftPerfect)
    (hget : ∀ p ∈ t.spine, c.getPbstRoot p.1.hi p.1.height = .ok (nodeInfo H v pos p.1)) :
    ∀ ns, Slate.buildInodes H c t.hi (pos t.hi) (treeHash H v (.leaf t.hi))
      ((t.spine.map spineNode).reverse ++ ns) =
        (Slate.buildInodes H c t.hi (pos t.hi) (treeHash H v t) ns >>= fun inodes =>
          .ok ((t.spine.map (spineINode H v pos)).reverse ++ inodes)) := by
  induction ht with
  | leaf =>
    intro ns
    exact (bind_pure (Slate.buildInodes H c _ (pos _) (treeHash H v (.leaf _)) ns)).symm
  | @node l r hl hr hp hle ha hd _ ihr =>
    have hlr : (Tree.node l r).LeftPerfect := .node hl hr hp hle ha hd
    intro ns
    have ih := ihr (fun p hp => hget p (List.mem_cons_of_mem _ hp)) (spineNode (l, r) :: ns)
    have hstep : Slate.buildInodes H c r.hi (pos r.hi) (treeHash H v r) (spineNode (l, r) :: ns) =
        (Slate.buildInodes H c r.hi (pos r.hi) (treeHash H v (.node l r)) ns >>= fun inodes =>
          .ok (spineINode H v pos (l, r) :: inodes)) := by
      rw [Slate.buildInodes,
        debugAssert_of (show r.hi = (spineNode (l, r)).node.i from rfl), ok_bind,
        debugAssert_of (show (spineNode (l, r)).node.i = (spineNode (l, r)).right.i from rfl),
        ok_bind, debugAssert_of (show (spineNode (l, r)).right.j < (spineNode (l, r)).node.j from
          Tree.height_right_lt l r), ok_bind,
        debugAssert_of (show (spineNode (l, r)).right.j ≤ (spineNode (l, r)).left.j from hle),
        ok_bind]
      change (c.getPbstRoot l.hi l.height >>= fun left => _) = _
      rw [hget (l, r) List.mem_cons_self, ok_bind]
      rfl
    rw [Tree.spine_node, List.map_cons, List.map_cons, List.reverse_cons, List.reverse_cons,
      List.append_assoc, List.singleton_append, Tree.hi_node, ih, hstep, bind_assoc]
    refine bind_congr fun inodes => ?_
    rw [ok_bind, List.append_assoc, List.singleton_append]

/-- The index after the ones of a generation. -/
theorem nextIndex_eq (h : Represents H v pos L n c) (hb : n + 1 < 2 ^ 64) :
    Slate.nextIndex c = .ok (n + 1) := by
  rw [Slate.nextIndex]
  cases n with
  | zero => rw [h.root_zero]
  | succ n =>
    rw [Loaded.root_eq h (Nat.le_add_left 1 n)]
    simp only [nodeInfo, nodeAddress]
    rw [Tree.hi_upTo (Nat.le_add_left 1 n), addBits_of_lt hb]

/-- The perfect subtrees that the next entry is built on. -/
theorem getPbstRoot_of_spine (h : Represents H v pos L n c) {p : Tree × Tree}
    (hp : p ∈ (Tree.upTo (n + 1)).spine) :
    c.getPbstRoot p.1.hi p.1.height = .ok (nodeInfo H v pos p.1) := by
  cases n with
  | zero =>
    rw [Tree.upTo, Tree.grow_one] at hp
    exact absurd hp List.not_mem_nil
  | succ n =>
    exact Loaded.getPbstRoot_eq h (Nat.le_add_left 1 n)
      (exists_peak_of_spine_succ (Nat.le_add_left 1 n) hp)

/-- **The entry of an append** is the entry of the next index. -/
theorem buildEntry_eq {S : Storage (Entry w)} {s : Slate S} (h : Represents H v pos L n s.cache)
    (hpos : s.position = pos (n + 1)) (hb : n + 1 < 2 ^ 64) :
    Slate.buildEntry H s (v (n + 1)) = .ok (entryAt H v pos (n + 1), modelOf (n + 1)) := by
  have hn : 1 ≤ n + 1 := Nat.le_add_left 1 n
  have hu := Tree.leftPerfect_upTo hn
  have hhi := Tree.hi_upTo hn
  have hb' := buildInodes_spine H v pos s.cache hu
    (fun p hp => getPbstRoot_of_spine h hp) []
  rw [List.append_nil, hhi, Slate.buildInodes, ok_bind, List.append_nil] at hb'
  have hchain : ((((Tree.upTo (n + 1)).spine.map (spineINode H v pos)).reverse).map
      fun inode => inode.metaInfo.address.j).IsChain (· < ·) :=
    List.isChain_iff_pairwise.mpr (spine_heights hu)
  have hinodes : (modelOf (n + 1)).inodes = .ok ((Tree.upTo (n + 1)).spine.map spineNode).reverse :=
    inodes_new hn hb
  rw [Slate.buildEntry, nextIndex_eq h hb, ok_bind]
  simp only [new_eq hn hb, ok_bind]
  change ((modelOf (n + 1)).inodes >>= fun nodes => _) = _
  rw [hinodes, ok_bind, hpos]
  change (Slate.buildInodes H s.cache (n + 1) (pos (n + 1)) (treeHash H v (.leaf (n + 1))) _ >>=
    fun inodes => _) = _
  rw [hb', ok_bind, Entry.new, debugAssert_of hchain, ok_bind]
  rfl

/-! ### Migrating -/

/-- The nodes of an entry, as the pairs of their children. -/
theorem mem_entryAt_inodes {i : ℕ} {inode : INode w} (h : inode ∈ (entryAt H v pos i).inodes) :
    ∃ p ∈ (Tree.upTo i).spine, spineINode H v pos p = inode := by
  rwa [entryAt, List.mem_reverse, List.mem_map] at h

variable (H v pos) in
/-- Something holds of the index behind a left branch of an entry. -/
theorem exists_left_iff {i : ℕ} {P : ℕ → Prop} :
    (∃ inode ∈ (entryAt H v pos i).inodes, P inode.left.i) ↔
      ∃ p ∈ (Tree.upTo i).spine, P p.1.hi := by
  constructor
  · rintro ⟨inode, hmem, hP⟩
    obtain ⟨p, hp, rfl⟩ := mem_entryAt_inodes hmem
    exact ⟨p, hp, hP⟩
  · rintro ⟨p, hp, hP⟩
    refine ⟨spineINode H v pos p, ?_, hP⟩
    rw [entryAt, List.mem_reverse]
    exact List.mem_map_of_mem hp

/-- The entries copied from the old cache: everything that is near the left branches of
an entry. -/
theorem migrateCache_holds {cache : IndexMap (Entry w)} {D0 : Set ℕ}
    (hcache : Holds (entryAt H v pos) D0 cache) : ∀ (d i : ℕ), 1 ≤ i →
    (∀ p ∈ (Tree.upTo i).spine, ∀ k, Near d p.1.hi k → k ∈ D0) →
    ∀ D m, Holds (entryAt H v pos) D m →
      ∃ m', Cache.migrateCache cache (d + 1) (entryAt H v pos i) m = .ok m' ∧
        Holds (entryAt H v pos) (D ∪ {k | ∃ p ∈ (Tree.upTo i).spine, Near d p.1.hi k}) m' := by
  intro d
  induction d with
  | zero =>
    intro i hi hD D m hm
    have hstep : ∀ inode ∈ (entryAt H v pos i).inodes, ∀ D m, Holds (entryAt H v pos) D m →
        ∃ m', (do
          let leftEntry ← unwrap (cache.lookup inode.left.i)
          return m.insert inode.left.i leftEntry) = (.ok m' : Result _) ∧
            Holds (entryAt H v pos) (D ∪ {inode.left.i}) m' := by
      intro inode hmem D m hm
      obtain ⟨p, hp, rfl⟩ := mem_entryAt_inodes hmem
      have hl := hcache.lookup (hD p hp p.1.hi rfl)
      refine ⟨m.insert p.1.hi (entryAt H v pos p.1.hi), ?_, hm.insert p.1.hi⟩
      simp only [spineINode, nodeAddress]
      rw [hl, unwrap_some, ok_bind, pure_eq_ok]
    obtain ⟨m', h1, h2⟩ := Holds.foldlM _ hstep D m hm
    refine ⟨m', h1, h2.congr fun k => or_congr_right ?_⟩
    exact exists_left_iff H v pos (P := fun l => Near 0 l k)
  | succ d ih =>
    intro i hi hD D m hm
    have hstep : ∀ inode ∈ (entryAt H v pos i).inodes, ∀ D m, Holds (entryAt H v pos) D m →
        ∃ m', (do
          let leftEntry ← unwrap (cache.lookup inode.left.i)
          let newCache ← Cache.migrateCache cache (d + 1) leftEntry m
          return newCache.insert inode.left.i leftEntry) = (.ok m' : Result _) ∧
            Holds (entryAt H v pos) (D ∪ {k | Near (d + 1) inode.left.i k}) m' := by
      intro inode hmem D m hm
      obtain ⟨p, hp, rfl⟩ := mem_entryAt_inodes hmem
      have hl := hcache.lookup (hD p hp p.1.hi (near_self _ _))
      obtain ⟨m1, h3, h4⟩ := ih p.1.hi (left_range hi hp).2.1
        (fun q hq k hk => hD p hp k (Or.inr ⟨q, hq, hk⟩)) D m hm
      refine ⟨m1.insert p.1.hi (entryAt H v pos p.1.hi), ?_, (h4.insert p.1.hi).congr fun k => ?_⟩
      · simp only [spineINode, nodeAddress]
        rw [hl, unwrap_some, ok_bind, h3, ok_bind, pure_eq_ok]
      · exact or_assoc.trans (or_congr_right or_comm)
    obtain ⟨m', h1, h2⟩ := Holds.foldlM _ hstep D m hm
    refine ⟨m', h1, h2.congr fun k => or_congr_right ?_⟩
    exact exists_left_iff H v pos (P := fun l => Near (d + 1) l k)

/-- A perfect subtree of the next generation. -/
theorem nextRoot_eq (h : Represents H v pos L n c) {t : Tree}
    (ht : t ∈ (Tree.upTo (n + 1)).peaks) :
    c.nextRoot (entryAt H v pos (n + 1)) (addr t) = .ok (nodeInfo H v pos t) := by
  have hn : 1 ≤ n + 1 := Nat.le_add_left 1 n
  have hu := Tree.leftPerfect_upTo hn
  have htl := (hu.of_mem_peaks ht).1
  rcases mem_peaks_cases hu ht with hhi | ⟨p, hp, rfl⟩
  · -- it is in the new entry, and no older subtree ends where it does
    rw [Tree.hi_upTo hn] at hhi
    have hnone : c.pbstRoots.lookup t.hi = none := by
      cases n with
      | zero =>
        have h1 : c = Cache.empty L := h
        rw [h1, Cache.empty, Finmap.lookup_empty]
      | succ n =>
        have hu' := Tree.leftPerfect_upTo (Nat.le_add_left 1 n)
        rw [Loaded.roots_eq h]
        refine lookup_mapOf_eq_none fun q hq => ?_
        have h1 := (hu'.of_mem_peaks hq).2.2.2
        rw [Tree.hi_upTo (Nat.le_add_left 1 n)] at h1
        omega
    have hmeta : (entryAt H v pos _).metaInfo _ = some (nodeInfo H v pos _) := entryAt_metaInfo htl
    rw [hhi] at hmeta
    rw [Cache.nextRoot]
    simp only [addr]
    rw [hnone]
    simp only [hhi]
    rw [Cache.rootEntry, entryAt_index, if_pos rfl, ok_bind, hmeta, unwrap_some, ok_bind,
      debugAssert_of (show n + 1 = (nodeInfo H v pos t).address.i from hhi.symm), ok_bind,
      pure_eq_ok]
  · -- it was a subtree of this generation before
    have hlookup : c.pbstRoots.lookup p.1.hi = some (nodeInfo H v pos p.1) := by
      cases n with
      | zero =>
        rw [Tree.upTo, Tree.grow_one] at hp
        exact absurd hp List.not_mem_nil
      | succ n =>
        exact Loaded.lookup_peak h (Nat.le_add_left 1 n)
          (exists_peak_of_spine_succ (Nat.le_add_left 1 n) hp)
    rw [Cache.nextRoot]
    simp only [addr]
    rw [hlookup]
    simp [nodeInfo, nodeAddress]

/-- Collecting the attributes of a list of trees. -/
theorem foldlM_rootMap {α : Type} {g : Tree → α} {f : IndexMap (MetaInfo w) → α →
    Result (IndexMap (MetaInfo w))} : ∀ (ts : List Tree) (m : IndexMap (MetaInfo w)),
    (∀ t ∈ ts, ∀ m, f m (g t) = .ok (m.insert t.hi (nodeInfo H v pos t))) →
    (ts.map g).foldlM f m = .ok (insertAll Tree.hi (nodeInfo H v pos) m ts)
  | [], _, _ => rfl
  | t :: ts, m, h => by
    rw [List.map_cons, List.foldlM_cons, h t List.mem_cons_self, ok_bind, insertAll_cons]
    exact foldlM_rootMap ts _ fun u hu => h u (List.mem_cons_of_mem _ hu)

/-- **Migrating** leads to the cache of the next generation. -/
theorem migrate_loaded (h : Represents H v pos L n c) :
    ∃ c', c.migrate (entryAt H v pos (n + 1)) (modelOf (n + 1)) = .ok c' ∧
      Loaded H v pos L (n + 1) c' := by
  have hn : 1 ≤ n + 1 := Nat.le_add_left 1 n
  have hroots : (modelOf (n + 1)).pbstRoots.foldlM (fun roots root => do
      let info ← c.nextRoot (entryAt H v pos (n + 1)) root
      return roots.insert root.i info) (∅ : IndexMap (MetaInfo w)) =
        .ok (rootMap H v pos (Tree.upTo (n + 1)).peaks) := by
    refine foldlM_rootMap _ _ fun t ht m => ?_
    rw [nextRoot_eq h ht, ok_bind, pure_eq_ok]
    rfl
  have hentries : ∃ m, c.migrateEntries (entryAt H v pos (n + 1)) = .ok m ∧
      Holds (entryAt H v pos) {k | Near L (n + 1) k}
        (m.insert (n + 1) (entryAt H v pos (n + 1))) := by
    rw [Cache.migrateEntries, h.level_eq]
    cases L with
    | zero =>
      exact ⟨∅, if_neg (Nat.lt_irrefl 0),
        (Holds.empty.insert (n + 1)).congr fun k => by simp [Near]⟩
    | succ d =>
      -- what the new entry is near to was near to the last one, too
      have hnear : ∃ D0, Holds (entryAt H v pos) D0 c.cache ∧
          ∀ p ∈ (Tree.upTo (n + 1)).spine, ∀ k, Near d p.1.hi k → k ∈ D0 := by
        cases n with
        | zero =>
          have h1 : c = Cache.empty (d + 1) := h
          refine ⟨∅, by rw [h1]; exact Holds.empty, fun p hp => ?_⟩
          rw [Tree.upTo, Tree.grow_one] at hp
          exact absurd hp List.not_mem_nil
        | succ n =>
          exact ⟨_, Loaded.holds h, fun p hp k hk => near_of_spine_succ (Nat.le_add_left 1 n) hp hk⟩
      obtain ⟨D0, hD0, hnear⟩ := hnear
      obtain ⟨m, h1, h2⟩ := migrateCache_holds hD0 d (n + 1) hn hnear ∅ ∅ Holds.empty
      refine ⟨m, by rw [if_pos (Nat.succ_pos d), h1], (h2.insert (n + 1)).congr fun k => ?_⟩
      exact (or_congr_left (iff_of_eq (false_or _))).trans or_comm
  obtain ⟨m, hm, hholds⟩ := hentries
  have hrev := h.revision_eq
  refine ⟨{ level := c.level, model := some (modelOf (n + 1)),
            cache := m.insert (n + 1) (entryAt H v pos (n + 1)),
            pbstRoots := rootMap H v pos (Tree.upTo (n + 1)).peaks }, ?_, ⟨?_, ?_, ?_, ?_⟩⟩
  · rw [Cache.migrate, entryAt_index, debugAssert_of (show c.revision + 1 = n + 1 by rw [hrev]),
      ok_bind, debugAssert_of (show c.revision + 1 = (modelOf (n + 1)).n by rw [hrev]; rfl),
      ok_bind, hroots, ok_bind, hm, ok_bind, pure_eq_ok]
  · exact h.level_eq
  · rfl
  · exact hholds
  · rfl

/-! ### Loading -/

/-- The first entries can be read at their positions, and reading them changes nothing. -/
structure Readable (S : Storage (Entry w)) (st : S.State) (H : HashFn w) (v : ℕ → Bytes)
    (pos : ℕ → Position) (n : ℕ) : Prop where
  reader : S.reader st = (.ok (), st)
  read : ∀ k, 1 ≤ k → k ≤ n → S.read (pos k) st = (.ok (entryAt H v pos k), st)

variable {S : Storage (Entry w)} {st : S.State}

theorem Readable.mono {k : ℕ} (h : Readable S st H v pos n) (hk : k ≤ n) :
    Readable S st H v pos k where
  reader := h.reader
  read i h1 h2 := h.read i h1 (h2.trans hk)

/-- Following a link. -/
theorem Readable.readEntry (h : Readable S st H v pos n) {k : ℕ} (h1 : 1 ≤ k) (h2 : k ≤ n) :
    readEntryWithIndexCheck S (pos k) k st = (.ok (entryAt H v pos k), st) := by
  rw [readEntryWithIndexCheck, Prog.bind_ok (h.read k h1 h2),
    if_neg (show ¬(entryAt H v pos k).index ≠ k from fun hne => hne rfl)]
  rfl

/-- A link to one of the first entries. -/
def Linked (pos : ℕ → Position) (n : ℕ) (a : Address) : Prop :=
  1 ≤ a.i ∧ a.i ≤ n ∧ a.position = pos a.i

/-- **The entries read from the storage**: everything that is near the given links. -/
theorem loadWithLevel_holds (hr : Readable S st H v pos n) : ∀ (d : ℕ) (addrs : List Address),
    (∀ a ∈ addrs, Linked pos n a) → ∀ D m, Holds (entryAt H v pos) D m →
      ∃ m', Cache.loadWithLevel S (d + 1) addrs m st = (.ok m', st) ∧
        Holds (entryAt H v pos) (D ∪ {k | ∃ a ∈ addrs, Near d a.i k}) m' := by
  intro d
  induction d with
  | zero =>
    intro addrs ha D m hm
    refine Holds.foldlM_run addrs (fun a hmem D m hm => ?_) D m hm
    obtain ⟨h1, h2, h3⟩ := ha a hmem
    refine ⟨m.insert a.i (entryAt H v pos a.i), ?_, hm.insert a.i⟩
    rw [h3, Prog.bind_ok (hr.readEntry h1 h2)]
    rfl
  | succ d ih =>
    intro addrs ha D m hm
    refine Holds.foldlM_run addrs (fun a hmem D m hm => ?_) D m hm
    obtain ⟨h1, h2, h3⟩ := ha a hmem
    have hlinked : ∀ b ∈ (entryAt H v pos a.i).inodes.map (fun inode => inode.left),
        Linked pos n b := by
      intro b hb
      obtain ⟨inode, hmem, rfl⟩ := List.mem_map.mp hb
      obtain ⟨p, hp, rfl⟩ := mem_entryAt_inodes hmem
      obtain ⟨-, h4, h5⟩ := left_range h1 hp
      exact ⟨h4, h5.le.trans h2, rfl⟩
    obtain ⟨m', h4, h5⟩ := ih _ hlinked _ _ (hm.insert a.i)
    refine ⟨m', ?_, h5.congr fun k => ?_⟩
    · rw [h3, Prog.bind_ok (hr.readEntry h1 h2)]
      exact h4
    · have h6 : (∃ b ∈ (entryAt H v pos a.i).inodes.map (fun inode => inode.left), Near d b.i k) ↔
          ∃ p ∈ (Tree.upTo a.i).spine, Near d p.1.hi k := by
        rw [← exists_left_iff H v pos (P := fun l => Near d l k)]
        simp only [List.mem_map, exists_exists_and_eq_and]
      exact or_assoc.trans (or_congr_right (or_congr_right h6))

variable (H v pos) in
/-- The perfect subtrees of a generation are found among the nodes of its entry. -/
theorem pbstRootAddrs_spine {t : Tree} (ht : t.LeftPerfect) (hb : t.hi < 2 ^ 64) :
    ∃ addrs found, Cache.pbstRootAddrs (t.spine.map (spineINode H v pos)) = .ok (addrs, found) ∧
      (if found then addrs else addrs ++ [nodeAddress pos (.leaf t.hi)]) =
        t.peaks.map (nodeAddress pos) := by
  induction ht with
  | leaf => exact ⟨[], false, rfl, rfl⟩
  | @node l r hl hr hp hle ha hd _ ihr =>
    have hlr : (Tree.node l r).LeftPerfect := .node hl hr hp hle ha hd
    have hp := isPbst_label hlr hb
    rw [Tree.spine_node, List.map_cons, Cache.pbstRootAddrs]
    change ∃ addrs found, (isPbst (Tree.node l r).hi (Tree.node l r).height >>= fun x => _) = _ ∧ _
    rw [hp, ok_bind]
    by_cases hperf : (Tree.node l r).Perfect
    · rw [if_pos (decide_eq_true hperf), Tree.peaks_of_perfect hperf]
      exact ⟨_, true, rfl, rfl⟩
    · obtain ⟨addrs, found, h1, h2⟩ := ihr hb
      rw [if_neg (fun h => hperf (of_decide_eq_true h)), h1, Tree.peaks_of_not_perfect hperf]
      refine ⟨nodeAddress pos l :: addrs, found, rfl, ?_⟩
      rw [List.map_cons, ← h2]
      cases found with
      | true => rfl
      | false => rfl

/-- The attributes of the perfect subtrees, from the entries around the last one. -/
theorem collectRoots_eq {entries : IndexMap (Entry w)} (hn : 1 ≤ n)
    (hentries : ∀ k, Near 1 n k → entries.lookup k = some (entryAt H v pos k)) :
    Cache.collectRoots entries ((Tree.upTo n).peaks.map (nodeAddress pos)) =
      .ok (rootMap H v pos (Tree.upTo n).peaks) := by
  have hu := Tree.leftPerfect_upTo hn
  refine foldlM_rootMap _ _ fun t ht m => ?_
  have hnear : Near 1 n t.hi := by
    rcases mem_peaks_cases hu ht with h | ⟨p, hp, rfl⟩
    · exact Or.inl (h.trans (Tree.hi_upTo hn))
    · exact Or.inr ⟨p, hp, rfl⟩
  have hl := hentries _ hnear
  simp only [nodeAddress]
  rw [hl]
  simp only
  rw [entryAt_metaInfo (hu.of_mem_peaks ht).1, unwrap_some, ok_bind, pure_eq_ok]

/-- The entries within so many links of the last one. -/
theorem loadWithLevel_last (hr : Readable S st H v pos n) (hn : 1 ≤ n) (d : ℕ) :
    ∃ m, Cache.loadWithLevel S (d + 1) ((entryAt H v pos n).inodes.map fun inode => inode.left)
      ((∅ : IndexMap (Entry w)).insert n (entryAt H v pos n)) st = (.ok m, st) ∧
      Holds (entryAt H v pos) {k | Near (d + 1) n k} m := by
  have hlinked : ∀ a ∈ (entryAt H v pos n).inodes.map (fun inode => inode.left),
      Linked pos n a := by
    intro a ha
    obtain ⟨inode, hmem, rfl⟩ := List.mem_map.mp ha
    obtain ⟨p, hp, rfl⟩ := mem_entryAt_inodes hmem
    obtain ⟨-, h1, h2⟩ := left_range hn hp
    exact ⟨h1, h2.le, rfl⟩
  obtain ⟨m, h1, h2⟩ := loadWithLevel_holds hr d _ hlinked _ _ (Holds.empty.insert n)
  refine ⟨m, h1, h2.congr fun k => ?_⟩
  have h3 : (∃ b ∈ (entryAt H v pos n).inodes.map (fun inode => inode.left), Near d b.i k) ↔
      ∃ p ∈ (Tree.upTo n).spine, Near d p.1.hi k := by
    rw [← exists_left_iff H v pos (P := fun l => Near d l k)]
    simp only [List.mem_map, exists_exists_and_eq_and]
  exact or_congr (iff_of_eq (false_or _)) h3

/-- What is cached, and the neighbours among which the perfect subtrees are looked up. -/
theorem loadCached_last (hr : Readable S st H v pos n) (hn : 1 ≤ n) :
    ∃ cache entries, Cache.loadCached S L
      ((entryAt H v pos n).inodes.map fun inode => inode.left)
      ((∅ : IndexMap (Entry w)).insert n (entryAt H v pos n)) st = (.ok cache, st) ∧
      Cache.loadNeighbours S L ((entryAt H v pos n).inodes.map fun inode => inode.left)
        ((∅ : IndexMap (Entry w)).insert n (entryAt H v pos n)) cache st = (.ok entries, st) ∧
      Holds (entryAt H v pos) {k | Near L n k} cache ∧
      ∀ k, Near 1 n k → entries.lookup k = some (entryAt H v pos k) := by
  have hlast : Holds (entryAt H v pos) (∅ ∪ {n})
      ((∅ : IndexMap (Entry w)).insert n (entryAt H v pos n)) := Holds.empty.insert n
  cases L with
  | zero =>
    obtain ⟨m, h1, h2⟩ := loadWithLevel_last hr hn 0
    refine ⟨_, m, rfl, ?_, hlast.congr fun k => iff_of_eq (false_or _), fun k hk => h2.lookup hk⟩
    rw [Cache.loadNeighbours, if_pos rfl, Prog.bind_ok hr.reader, h1]
  | succ d =>
    obtain ⟨m, h1, h2⟩ := loadWithLevel_last hr hn d
    refine ⟨m, m, ?_, rfl, h2, fun k hk => h2.lookup ?_⟩
    · rw [Cache.loadCached, if_pos (Nat.succ_pos d), Prog.bind_ok hr.reader, h1]
    · rcases hk with hk | ⟨p, hp, hk⟩
      · exact Or.inl hk
      · refine Or.inr ⟨p, hp, ?_⟩
        have hk' : k = p.1.hi := hk
        rw [hk']
        exact near_self d _

/-- **Loading** leads to the cache of the generation. -/
theorem load_loaded (hr : Readable S st H v pos n) (hn : 1 ≤ n) (hb : n < 2 ^ 64) :
    ∃ c', Cache.load S L (entryAt H v pos n) st = (.ok c', st) ∧ Loaded H v pos L n c' := by
  have hu := Tree.leftPerfect_upTo hn
  have hhi := Tree.hi_upTo hn
  obtain ⟨addrs, found, haddrs, hroots⟩ := pbstRootAddrs_spine H v pos hu
    (by rwa [hhi])
  rw [hhi] at hroots
  obtain ⟨cache, entries, h1, h2, h3, h4⟩ := loadCached_last (L := L) hr hn
  refine ⟨{ level := L, model := some (modelOf n), cache := cache,
            pbstRoots := rootMap H v pos (Tree.upTo n).peaks }, ?_, ⟨rfl, rfl, h3, rfl⟩⟩
  rw [Cache.load]
  simp only [entryAt_index, Prog.liftM_eq, new_eq hn hb, Prog.lift_ok_bind]
  rw [show (entryAt H v pos n).inodes.reverse = (Tree.upTo n).spine.map (spineINode H v pos) from
    List.reverse_reverse _, haddrs, Prog.lift_ok_bind, Prog.bind_ok h1, Prog.bind_ok h2]
  simp only
  rw [show (entryAt H v pos n).enode.metaInfo.address = nodeAddress pos (.leaf n) from rfl, hroots,
    collectRoots_eq hn h4, Prog.lift_ok_bind]
  rfl

end StratifiedHashTree
