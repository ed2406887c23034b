import StratifiedHashTree.Existence
import StratifiedHashTree.Distance
import StratifiedHashTree.Links
import StratifiedHashTree.Simulation
import StratifiedHashTree.Snapshots

/-!
# What an access costs

`formula.rs` calls the distance of an entry its cost: one read of the storage for every link on
the way from the latest entry. In the words of the tree, a link is a left edge on the way from the
root to the leaf (`StratifiedHashTree.LeftEdges`), and the distance is their number.

There are three ways to an entry, and they do not take the same steps: a search over entries jumps
through the one left branch that contains the index, and a lookup of a value walks from node to
node. Both come to the same entries, the last ones of the subtrees that they enter to the left.
The first of them are in the cache, as many as it has levels. On a storage that counts its reads
(`StratifiedHashTree.metered`) each of the three reads the rest
(`StratifiedHashTree.access_cost`).
-/

namespace StratifiedHashTree

open Outcome Formula FormulaTree
open Prog (Counts)

variable {w : ℕ}

/-! ### Left edges -/

/-- The nodes of a generation, with the number of left edges on the way from the root. -/
inductive LeftEdges (n : Index) : Index × ℕ → ℕ → Prop
  | root {x : Index × ℕ} : rootOf n = .ok x → LeftEdges n x 0
  | left {i : Index} {j m : ℕ} {l r : Index × ℕ} : LeftEdges n (i, j) m → j ≠ 0 →
      subnodesOf i j = .ok (l, r) → LeftEdges n l (m + 1)
  | right {i : Index} {j m : ℕ} {l r : Index × ℕ} : LeftEdges n (i, j) m → j ≠ 0 →
      subnodesOf i j = .ok (l, r) → LeftEdges n r m

section Edges

variable {n k : ℕ} (hn : 1 ≤ n) (hb : n < 2 ^ 64)

include hn hb

/-- The way to a node, in the tree. -/
theorem LeftEdges.exists_sub {x : Index × ℕ} {m : ℕ} (h : LeftEdges n x m) :
    ∃ t, Tree.Sub t (Tree.upTo n) ∧ x = t.label ∧ LeadsInto n m t := by
  induction h with
  | root hr =>
    rw [rootOf_label hn hb, Except.ok.injEq] at hr
    exact ⟨_, .refl, hr.symm, leadsInto_upTo n⟩
  | left _ hj hs ih =>
    obtain ⟨t, ht, hx, hm⟩ := ih
    obtain ⟨l, r, rfl, ⟨hl, rfl⟩, -⟩ := children_upTo hn hb ht hx hj hs
    exact ⟨l, hl, rfl, hm.left (sub_upTo hn hb ht).1⟩
  | right _ hj hs ih =>
    obtain ⟨t, ht, hx, hm⟩ := ih
    obtain ⟨l, r, rfl, -, hr, rfl⟩ := children_upTo hn hb ht hx hj hs
    exact ⟨r, hr, rfl, hm.right (sub_upTo hn hb ht).1⟩

omit hn hb in
/-- There is a way to every node. -/
theorem exists_leftEdges {x : Index × ℕ} (h : InTree n x) : ∃ m, LeftEdges n x m := by
  induction h with
  | root hr => exact ⟨0, .root hr⟩
  | left _ hj hs ih =>
    obtain ⟨m, hm⟩ := ih
    exact ⟨m + 1, .left hm hj hs⟩
  | right _ hj hs ih =>
    obtain ⟨m, hm⟩ := ih
    exact ⟨m, .right hm hj hs⟩

/-- **The left edges on the way to a leaf** are its left steps. -/
theorem leftEdges_leaf_iff (h1 : 1 ≤ k) (h2 : k ≤ n) (m : ℕ) :
    LeftEdges n (k, 0) m ↔ m = Tree.leftSteps k (Tree.upTo n) := by
  have hsteps : ∀ {m}, LeftEdges n (k, 0) m → m = Tree.leftSteps k (Tree.upTo n) := by
    intro m h
    obtain ⟨t, ht, hx, hm⟩ := h.exists_sub hn hb
    have hhi : t.hi = k := (congrArg Prod.fst hx).symm
    have h3 := hm.leftSteps_hi (sub_upTo hn hb ht).1
    rw [hhi] at h3
    exact h3.symm
  refine ⟨hsteps, ?_⟩
  rintro rfl
  have hleaf : InTree n (k, 0) := (inTree_iff_sub hn hb).mpr
    ⟨.leaf k, (MerkleScheme.sub_leaf_iff (Tree.leftPerfect_upTo hn)).mpr
      (by rw [Tree.lo_upTo hn, Tree.hi_upTo hn]; exact ⟨h1, h2⟩), rfl, rfl⟩
  obtain ⟨m, hm⟩ := exists_leftEdges hleaf
  rwa [← hsteps hm]

end Edges

/-! ### A storage that counts -/

/-- **A storage that counts the data that are read** from it by their positions. -/
abbrev metered (S : Storage (Entry w)) : Storage (Entry w) where
  State := S.State × ℕ
  first := Prog.onFst S.first
  last := Prog.onFst S.last
  put position entry := Prog.onFst (S.put position entry)
  truncate position := Prog.onFst (S.truncate position)
  reader := Prog.onFst S.reader
  read position := Prog.counted (S.read position)
  scan position count _ callback := fun
    | (a, (st, reads)) =>
      let result := S.scan position count callback (a, st)
      (result.1, (result.2.1, (result.2.2, reads)))

/-- A slate whose storage has counted so many reads. -/
def meter {S : Storage (Entry w)} (reads : ℕ) (s : Slate S) : Slate (metered S) where
  position := s.position
  storage := ((s.storage, reads) : S.State × ℕ)
  cache := s.cache

section Counting

variable {S : Storage (Entry w)} {H : HashFn w} {v : ℕ → Bytes} {pos : ℕ → Position} {L n m i : ℕ}
  {c : Cache w} {st : S.State}

/-- **Following a branch** reads an entry when more left edges lead to it than the cache has
levels. -/
theorem fetchLeft_counts (hc : Represents H v pos L n c) (hr : Readable S st H v pos n) {t : Tree}
    (ht : t.LeftPerfect) (hn : t.hi ≤ n) (hm : LeadsInto n m t) :
    Counts st (if m ≤ L then 0 else 1) (entryAt H v pos t.hi)
      (fetchLeft (metered S) c (nodeAddress pos t)) := by
  have hsteps := hm.leftSteps_hi ht
  by_cases hnear : m ≤ L
  · have hcached : c.entry (nodeAddress pos t).i = some (entryAt H v pos t.hi) :=
      hc.entry_near ht.hi_pos hn (hsteps.trans_le hnear)
    rw [if_pos hnear, fetchLeft, hcached]
    exact Counts.pure _
  · have hcached : c.entry (nodeAddress pos t).i = none :=
      hc.entry_far (ht.hi_pos.trans hn) (fun hle => hnear (hsteps.symm.trans_le hle))
    have hread : Counts st 1 (entryAt H v pos t.hi)
        ((metered S).read (nodeAddress pos t).position) := Counts.counted (hr.read _ ht.hi_pos hn)
    rw [if_neg hnear, fetchLeft, hcached]
    simp only
    rw [readEntryWithIndexCheck]
    refine hread.bind (m := 0) ?_
    rw [if_neg (show ¬(entryAt H v pos t.hi).index ≠ (nodeAddress pos t).i from not_not.mpr rfl)]
    exact Counts.pure _

/-- One step of a way, and the rest of it. -/
theorem reads_step (L m d : ℕ) :
    (m + (d + 1) - L) - (m - L) =
      (if m + 1 ≤ L then 0 else 1) + ((m + 1 + d - L) - (m + 1 - L)) := by
  split <;> omega

/-- **A search over entries** reads the entries on its way that are not cached. -/
theorem searchFrom_counts (hc : Represents H v pos L n c) (hb : n < 2 ^ 64)
    (hr : Readable S st H v pos n) {α : Type} (found lost : Entry w → Run (S.State × ℕ) α) {a : α}
    (hfound : Counts st 0 a (found (entryAt H v pos i))) : ∀ fuel {t : Tree} {m : ℕ},
    t.LeftPerfect → t.hi ≤ n → t.height < fuel → t.lo ≤ i → i ≤ t.hi → LeadsInto n m t →
    Counts st ((m + Tree.leftSteps i t - L) - (m - L)) a
      (searchFrom (metered S) c i found lost fuel (entryAt H v pos t.hi))
  | 0, _, _, _, _, hf, _, _, _ => absurd hf (Nat.not_lt_zero _)
  | fuel + 1, t, m, ht, hn, hf, hlo, hhi, hm => by
    by_cases hi : t.hi = i
    · have hfind : (entryAt H v pos t.hi).index = i := hi
      have h0 : (m + Tree.leftSteps i t - L) - (m - L) = 0 := by
        rw [← hi, ht.leftSteps_hi]
        omega
      rw [searchFrom_found fuel hfind, h0, hi]
      exact hfound
    · have hne : (entryAt H v pos t.hi).index ≠ i := hi
      obtain ⟨p, hp, h1, h2, h3, h4, h5⟩ := exists_step ht hlo (by omega)
      have hnext := hm.spine ht hp
      rw [searchFrom_left fuel hne (findLeft_some ht (hn.trans_lt hb) hp h2 h3), spineINode_left,
        ht.leftSteps_of_mem_spine hp h2 h3, reads_step]
      exact (fetchLeft_counts hc hr h1 (h4.le.trans hn) hnext).bind
        (searchFrom_counts hc hb hr found lost hfound fuel h1 (h4.le.trans hn) (by omega) h2 h3
          hnext)

/-- **A lookup of a value** reads the entries on its way that are not cached. -/
theorem walkDownFrom_counts {q : Query (metered S)} (hc : Represents H v pos L n q.cache)
    (hb : n < 2 ^ 64) (hr : Readable S st H v pos n) {t : Tree} (ht : t.LeftPerfect) : ∀ {m : ℕ},
    t.hi ≤ n → t.lo ≤ i → i ≤ t.hi → LeadsInto n m t → ∀ fuel, t.height < fuel → ∀ a reads,
      q.walkDownFrom (Query.getStep i) fuel t.spine.length (entryAt H v pos t.hi)
          (a, ((st, reads) : S.State × ℕ)) =
        (.ok (), (.ok (some (v i)),
          ((st, reads + ((m + Tree.leftSteps i t - L) - (m - L))) : S.State × ℕ))) := by
  induction ht with
  | @leaf k hk =>
    intro m hn hlo hhi hm fuel hf a reads
    obtain rfl : i = k := le_antisymm hhi hlo
    obtain ⟨fuel, rfl⟩ := Nat.exists_eq_succ_of_ne_zero (Nat.ne_zero_of_lt hf)
    have hleaf := getStep_leaf (w := w) i q.revision (treeHash H v (.leaf i)) (v i) a
    rw [Tree.hi_leaf, walkDownFrom_leaf,
      show m + Tree.leftSteps i (.leaf i) - L - (m - L) = 0 by rw [Tree.leftSteps]; omega]
    exact Prog.bind_ok (Prog.onFst_run hleaf _)
  | @node l r hl hr' hp hle ha hd ihl ihr =>
    have hlr : (Tree.node l r).LeftPerfect := .node hl hr' hp hle ha hd
    have hlt := hlr.hi_left_lt
    have hhl := Tree.height_left_lt l r
    have hhr := Tree.height_right_lt l r
    intro m hn hlo hhi hm fuel hf a reads
    rw [Tree.hi_node] at hn hhi
    rw [Tree.lo_node] at hlo
    obtain ⟨fuel, rfl⟩ := Nat.exists_eq_succ_of_ne_zero (Nat.ne_zero_of_lt hf)
    have hstep := getStep_node hlr (hn.trans_lt hb) hhi q.revision
      (treeHash H v (.node l r)) a
    rw [Tree.hi_node, walkDownFrom_node q _ hlr]
    refine (Prog.bind_ok (Prog.onFst_run hstep _)).trans ?_
    -- a branch to the left costs a read once the way has left the cache
    by_cases hk : r.lo ≤ i
    · rw [if_pos hk, Tree.leftSteps_right (by omega)]
      exact ihr hn hk hhi (hm.right hlr) fuel (by omega) a reads
    · have hk' : i ≤ l.hi := by omega
      have hfetch := fetchLeft_counts hc hr hl (hlt.le.trans hn) (hm.left hlr) reads
      have hdescend := descend_of_fetchLeft (q := q) hlr v hfetch
      rw [if_neg hk, Tree.leftSteps_left hk', reads_step]
      simp only
      refine (Prog.bind_ok (Prog.onSnd_run hdescend a)).trans ?_
      rw [← Nat.add_assoc]
      exact ihl (hlt.le.trans hn) hlo hk' (hm.left hlr) fuel (by omega) a _

variable {fuel k : ℕ} (hb : n < 2 ^ 64) (hr : Readable S st H v pos n) (hf : INDEX_SIZE < fuel)
  (h1 : 1 ≤ k) (h2 : k ≤ n)

include hb hr hf h1 h2

/-- A search from the latest entry. -/
theorem searchFrom_last_counts (hc : Represents H v pos L n c) {α : Type}
    (found lost : Entry w → Run (S.State × ℕ) α) {a : α}
    (hfound : Counts st 0 a (found (entryAt H v pos k))) :
    Counts st (Tree.leftSteps k (Tree.upTo n) - L) a
      (searchFrom (metered S) c k found lost fuel (entryAt H v pos n)) := by
  have hn := h1.trans h2
  have hu := Tree.leftPerfect_upTo hn
  have hhi := Tree.hi_upTo hn
  have hsearch := searchFrom_counts hc hb hr found lost hfound fuel hu hhi.le
    (height_upTo_lt hn hb hf) (by rwa [Tree.lo_upTo hn]) (by rwa [hhi]) (leadsInto_upTo n)
  rw [hhi, Nat.zero_add, Nat.zero_sub, Nat.sub_zero] at hsearch
  exact hsearch

theorem readEntry_counts {q : Query (metered S)} (hc : Represents H v pos L n q.cache) :
    Counts st (Tree.leftSteps k (Tree.upTo n) - L) (some (entryAt H v pos k))
      (q.readEntry fuel k) := by
  have hl := hc.loaded (h1.trans h2)
  have hsearch := searchFrom_last_counts hb hr hf h1 h2 hc (fun e => pure (some e))
    (fun _ => pure none) (Counts.pure (some (entryAt H v pos k)))
  rw [Query.readEntry, Query.revision, hc.revision_eq, hl.entry_self]
  simp only
  rw [Query.readEntryFrom_eq_search]
  exact hsearch

theorem get_counts {q : Query (metered S)} (hc : Represents H v pos L n q.cache) :
    Counts st (Tree.leftSteps k (Tree.upTo n) - L) (some (v k)) (q.get fuel k) := by
  have hn := h1.trans h2
  have hu := Tree.leftPerfect_upTo hn
  have hhi := Tree.hi_upTo hn
  have hrevision : q.revision = n := hc.revision_eq
  intro reads
  have hwalk := walkDownFrom_counts (i := k) hc hb hr hu hhi.le (by rwa [Tree.lo_upTo hn])
    (by rwa [hhi]) (leadsInto_upTo n) fuel (height_upTo_lt hn hb hf) (.ok none) reads
  rw [hhi, Nat.zero_add, Nat.zero_sub, Nat.sub_zero] at hwalk
  have hdown := walkDown_eq_walkDownFrom (hc.loaded hn) (Query.getStep k) fuel
  have hcollect : q.collect fuel (Query.getStep k) (.ok none) ((st, reads) : S.State × ℕ) =
      (.ok (.ok (some (v k))), (st, reads + (Tree.leftSteps k (Tree.upTo n) - L))) := by
    rw [Query.collect, hdown, hwalk]
  rw [Query.get, hrevision, if_neg (show ¬(k = 0 ∨ n < k) by omega), Prog.bind_ok hcollect]
  rfl

omit hr in
/-- The early return of `StratifiedHashTree.Slate.loadEntry` for a cached entry reads nothing, as
the search does. -/
theorem loadEntry_counts {s : Slate S} (hr : Readable S s.storage H v pos n)
    (hc : Represents H v pos L n s.cache) (reads : ℕ) :
    Slate.loadEntry fuel k (meter reads s) =
      (.ok (entryAt H v pos k), meter (reads + (Tree.leftSteps k (Tree.upTo n) - L)) s) := by
  have hn := h1.trans h2
  have hl := hc.loaded hn
  have hrevision : s.cache.revision = n := hc.revision_eq
  rw [Slate.loadEntry, Prog.bind_ok (Prog.get_run _), Slate.n, meter, hrevision,
    if_neg (show ¬(k = 0 ∨ n < k) by omega)]
  cases he : s.cache.entry k with
  | some e =>
    obtain ⟨hk, rfl⟩ := (hl.holds k e).mp he
    have hle := ((near_iff hn).mp hk).2
    rw [Nat.sub_eq_zero_of_le hle]
    rfl
  | none =>
    have hsearch := searchFrom_last_counts hb hr hf h1 h2 hc pure
      (fun entry => Prog.err (.internalStateInconsistency
        s!"The entry doesn't have a path to {k}: {entry.debug}"))
      (Counts.pure (entryAt H v pos k)) reads
    rw [← Slate.loadEntryFrom_eq_search] at hsearch
    have hreader : (metered S).reader ((s.storage, reads) : S.State × ℕ) =
        (.ok (), ((s.storage, reads) : S.State × ℕ)) := Prog.onFst_run hr.reader reads
    simp only [hl.entry_self, unwrap_some, Prog.liftM_eq, Prog.lift_ok_bind]
    rw [Prog.bind_ok (SlateOf.onStorage_run hreader)]
    exact SlateOf.onStorage_run hsearch

end Counting

/-! ### The distance is the cost -/

section Slates

variable {B : Backend w} {H : HashFn w} {vs : List Bytes} {s : SlateOn B} {fuel k L : ℕ}

/-- **So many entries are read** on each of the three ways to an entry of a slate. -/
structure CostsReads (H : HashFn w) (vs : List Bytes) (s : SlateOn B) (fuel k reads : ℕ) :
    Prop where
  readEntry : (meter 0 s).snapshot.readEntry fuel k (meter 0 s).storage =
    (.ok (some (entryOf B.log H (payload vs) k)), (meter reads s).storage)
  loadEntry : Slate.loadEntry fuel k (meter 0 s) =
    (.ok (entryOf B.log H (payload vs) k), meter reads s)
  get : (meter 0 s).snapshot.get fuel k (meter 0 s).storage =
    (.ok (some (payload vs k)), (meter reads s).storage)

/-- The three ways cost the same. -/
theorem Reaches.costsReads (h : Reaches B H L vs s) (hf : INDEX_SIZE < fuel) (h1 : 1 ≤ k)
    (h2 : k ≤ vs.length) :
    CostsReads H vs s fuel k (Tree.leftSteps k (Tree.upTo vs.length) - L) := by
  have hs := h.slateOf
  have hr := hs.readable
  have hquery : (meter 0 s).snapshot.query (meter 0 s).storage =
      (.ok ⟨s.cache⟩, (meter 0 s).storage) := Prog.bind_ok (Prog.onFst_run hr.reader 0)
  have hread := readEntry_counts (q := ⟨s.cache⟩) hs.lt hr hf h1 h2 hs.represents 0
  have hget := get_counts (q := ⟨s.cache⟩) hs.lt hr hf h1 h2 hs.represents 0
  have hload := loadEntry_counts hs.lt hf h1 h2 hr hs.represents 0
  rw [Nat.zero_add] at hread hget hload
  refine ⟨?_, hload, ?_⟩
  · rw [Snapshot.readEntry, Prog.bind_ok hquery]
    exact hread
  · rw [Snapshot.get, Prog.bind_ok hquery]
    exact hget

end Slates

/-- **The distance of an entry is what its access costs**: there is one for every entry of the
generation, it is the number of left edges on the way to the leaf and no more than the height of
the tree, and a slate reads as many entries, less those on the levels of its cache. -/
theorem access_cost {n : ℕ} (hb : n < 2 ^ 64) (k : ℕ) :
    ∃ distance, entryAccessDistance k n = .ok distance ∧
      (distance = none ↔ k = 0 ∨ n < k) ∧
      ∀ d, distance = some d →
        (∀ m, LeftEdges n (k, 0) m ↔ m = d) ∧ (∃ h, ceilLog2 n = .ok h ∧ d ≤ h) ∧
        ∀ {w : ℕ} {B : Backend w} {H : HashFn w} {L : ℕ} {vs : List Bytes} {s : SlateOn B},
          Reaches B H L vs s → vs.length = n → ∀ fuel, INDEX_SIZE < fuel →
            CostsReads H vs s fuel k (d - L) := by
  rcases Nat.eq_zero_or_pos n with rfl | hn
  · refine ⟨none, rfl, ⟨fun _ => by omega, fun _ => rfl⟩, ?_⟩
    rintro d ⟨⟩
  · refine ⟨_, entryAccessDistance_eq hn hb k, ?_, ?_⟩
    · rw [ite_eq_right_iff]
      simp only [reduceCtorEq, imp_false]
      omega
    · intro d hd
      obtain ⟨⟨h1, h2⟩, hd⟩ := Option.ite_none_right_eq_some.mp hd
      rw [Option.some.injEq] at hd
      have hle := Tree.leftSteps_le_height k (Tree.upTo n)
      rw [Tree.height_upTo hn, hd] at hle
      refine ⟨fun m => ?_, ⟨_, ceilLog2_eq hn hb.le, hle⟩, ?_⟩
      · rw [leftEdges_leaf_iff hn hb h1 h2, hd]
      · intro w B H L vs s hs hlen fuel hf
        subst hlen
        rw [← hd]
        exact hs.costsReads hf h1 h2

/-- The first of seven entries is three left edges away; with one level in the cache, its access
reads two entries. -/
theorem access_cost_seven :
    ∃ s : SlateOn tinyBlock, Reaches tinyBlock byteSum 1 [[1], [], [2, 3], [4], [5], [], [6]] s ∧
      LeftEdges 7 (1, 0) 3 ∧ CostsReads byteSum [[1], [], [2, 3], [4], [5], [], [6]] s 65 1 2 := by
  obtain ⟨s, hs⟩ := exists_reaches_of_length_lt tinyBlock byteSum 1
    [[1], [], [2, 3], [4], [5], [], [6]] (by decide) (by decide)
  obtain ⟨distance, h1, -, h2⟩ := access_cost (n := 7) (by decide) 1
  have h3 : entryAccessDistance 1 7 = .ok (some 3) := by decide
  obtain ⟨h4, -, h5⟩ := h2 3 (Except.ok.inj (h1.symm.trans h3))
  exact ⟨s, hs, (h4 3).mpr rfl, h5 hs rfl 65 (by decide)⟩

end StratifiedHashTree
