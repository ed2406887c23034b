import StratifiedHashTree.Loading

/-!
# Lookups

The two ways through the stored tree, against the tree itself.

* The walk over nodes is the recursion over the tree
  (`StratifiedHashTree.walkDownFrom_eq`): a node is the number of its entry and its place
  in it, and both children are found from there. What the walk *does* is then a matter of
  the callback alone: `StratifiedHashTree.walkTree_get` finds a value,
  `StratifiedHashTree.walkTree_sample` collects the siblings of a path.
* The search over entries jumps through the one left branch that contains the index it
  is looking for (`StratifiedHashTree.readEntryFrom_eq`). It may jump far into a spine;
  what gets lower is the subtree behind the branch, so its height bounds the steps.

None of the results mentions the cache: a cached entry is the stored one
(`StratifiedHashTree.fetchLeft_eq`).
-/

namespace StratifiedHashTree

open Outcome Formula FormulaTree

variable {w : ℕ} {H : HashFn w} {v : ℕ → Bytes} {pos : ℕ → Position} {L n : ℕ} {c : Cache w}
  {S : Storage (Entry w)} {st : S.State}

/-- **The cache is transparent**: following a left branch gives the entry it leads to,
cached or not. -/
theorem fetchLeft_eq (hc : Represents H v pos L n c) (hr : Readable S st H v pos n) {t : Tree}
    (h1 : 1 ≤ t.hi) (h2 : t.hi ≤ n) :
    fetchLeft S c (nodeAddress pos t) st = (.ok (entryAt H v pos t.hi), st) := by
  rw [fetchLeft]
  cases he : c.entry (nodeAddress pos t).i with
  | none => exact hr.readEntry h1 h2
  | some e => rw [hc.of_entry he]; rfl

/-! ### Walking over nodes -/

section Walk

variable {κ : Type}

/-- The walk over a tree, right before left. -/
def walkTree (H : HashFn w) (v : ℕ → Bytes) (revision : Index) (callback : WalkFn w κ) :
    Tree → Run κ Unit
  | .leaf k => do
    let _ ← callback revision k 0 (treeHash H v (.leaf k)) (some (v k))
    return ()
  | .node l r => do
    let dir ← callback revision r.hi (Tree.node l r).height (treeHash H v (.node l r)) none
    match dir with
    | .terminate => return ()
    | .right => walkTree H v revision callback r
    | .left => walkTree H v revision callback l
    | .both => do
      walkTree H v revision callback r
      walkTree H v revision callback l

/-- Going left from a node once the entry behind the branch is there: the place of the left child
in it. The hashes of the two entries do not matter, nor the positions in the second one. -/
theorem descend_of_fetchLeft {q : Query S} {l r : Tree} (h : (Tree.node l r).LeftPerfect)
    (v' : ℕ → Bytes) {pos' : ℕ → Position} {st' : S.State}
    (hfetch : fetchLeft S q.cache (nodeAddress pos' l) st = (.ok (entryAt H v pos l.hi), st')) :
    q.descend r.hi (spineINode H v' pos' (l, r)) st =
      (.ok (entryAt H v pos l.hi, l.spine.length), st') := by
  have hlt := h.hi_left_lt
  have hindex : (nodeAddress pos' l).i = (entryAt H v pos l.hi).index := rfl
  rw [Query.descend, spineINode_left, Prog.bind_ok hfetch, Prog.liftM_eq, debugAssert_of hindex,
    Prog.lift_ok_bind, Prog.liftM_eq,
    debugAssert_of (show (entryAt H v pos l.hi).index < r.hi from hlt), Prog.lift_ok_bind,
    nodeAddress_j]
  cases l with
  | leaf k => rfl
  | node ll lr =>
    have hidx : (entryAt H v pos lr.hi).inodes.findIdx?
        (fun inode => inode.metaInfo.address.j = (Tree.node ll lr).height) = some lr.spine.length :=
      entryAt_findIdx? h.left
    rw [if_neg (by rw [Tree.height_node]; omega), Tree.hi_node, hidx]
    rfl

/-- **Every left branch below a node leads to the entry behind it.** -/
def Leads (S : Storage (Entry w)) (c : Cache w) (H : HashFn w) (v : ℕ → Bytes)
    (pos : ℕ → Position) (st : S.State) (t : Tree) : Prop :=
  ∀ {l r : Tree}, Tree.Sub (.node l r) t →
    fetchLeft S c (nodeAddress pos l) st = (.ok (entryAt H v pos l.hi), st)

theorem leads_of_readable (hc : Represents H v pos L n c) (hr : Readable S st H v pos n) {t : Tree}
    (ht : t.LeftPerfect) (hn : t.hi ≤ n) : Leads S c H v pos st t := by
  intro l r hsub
  have hlr := hsub.leftPerfect ht
  exact fetchLeft_eq hc hr hlr.left.hi_pos
    (hlr.hi_left_lt.le.trans ((hsub.hi_le ht).trans hn))

/-- A round of the walk at a leaf. -/
theorem walkDownFrom_leaf (q : Query S) (callback : WalkFn w κ) (fuel k : ℕ) :
    q.walkDownFrom callback (fuel + 1) (Tree.leaf k).spine.length (entryAt H v pos k) = (do
      let _ ← Prog.onFst (callback q.revision k 0 (treeHash H v (.leaf k)) (some (v k)))
      return ()) := by
  rw [Tree.spine_leaf, List.length_nil, Query.walkDownFrom]
  rfl

/-- **A round of the walk** at an inner node: the right side goes on in the entry at hand, the
left one in the entry behind the branch. -/
theorem walkDownFrom_node (q : Query S) (callback : WalkFn w κ) {l r : Tree}
    (h : (Tree.node l r).LeftPerfect) (fuel : ℕ) :
    q.walkDownFrom callback (fuel + 1) (Tree.node l r).spine.length (entryAt H v pos r.hi) = (do
      let dir ← Prog.onFst (callback q.revision r.hi (Tree.node l r).height
        (treeHash H v (.node l r)) none)
      match dir with
      | .terminate => return ()
      | .right => q.walkDownFrom callback fuel r.spine.length (entryAt H v pos r.hi)
      | .left => do
        let left ← Prog.onSnd (q.descend r.hi (spineINode H v pos (l, r)))
        q.walkDownFrom callback fuel left.2 left.1
      | .both => do
        q.walkDownFrom callback fuel r.spine.length (entryAt H v pos r.hi)
        let left ← Prog.onSnd (q.descend r.hi (spineINode H v pos (l, r)))
        q.walkDownFrom callback fuel left.2 left.1) := by
  have hidx : (index (entryAt H v pos r.hi).inodes r.spine.length : Result (INode w)) =
      .ok (spineINode H v pos (l, r)) := index_of_getElem? (entryAt_getElem? h)
  rw [Tree.spine_node, List.length_cons, Query.walkDownFrom, Prog.liftM_eq, hidx,
    Prog.lift_ok_bind]
  rfl

/-- The walk over the stored nodes, where the branches lead on. -/
theorem walkDownFrom_of_leads {q : Query S} (callback : WalkFn w κ) {t : Tree}
    (ht : t.LeftPerfect) : Leads S q.cache H v pos st t → ∀ fuel, t.height < fuel → ∀ a,
      q.walkDownFrom callback fuel t.spine.length (entryAt H v pos t.hi) (a, st) =
        Prog.onFst (walkTree H v q.revision callback t) (a, st) := by
  induction ht with
  | @leaf k hk =>
    intro hleads fuel hf a
    obtain ⟨fuel, rfl⟩ : ∃ f, fuel = f + 1 := ⟨fuel - 1, by omega⟩
    rw [Tree.hi_leaf, walkDownFrom_leaf, walkTree, Prog.onFst_bind]
    rfl
  | @node l r hl hr' hp hle ha hd ihl ihr =>
    have hlr : (Tree.node l r).LeftPerfect := .node hl hr' hp hle ha hd
    have hhl := Tree.height_left_lt l r
    have hhr := Tree.height_right_lt l r
    intro hleads fuel hf a
    obtain ⟨fuel, rfl⟩ : ∃ f, fuel = f + 1 := ⟨fuel - 1, by omega⟩
    have hleft : ∀ a, (Prog.onSnd (q.descend r.hi (spineINode H v pos (l, r))) >>= fun left =>
        q.walkDownFrom callback fuel left.2 left.1) (a, st) =
          Prog.onFst (walkTree H v q.revision callback l) (a, st) := by
      intro a
      rw [Prog.bind_ok (Prog.onSnd_run (descend_of_fetchLeft hlr v (hleads .refl)) a)]
      exact ihl (fun hsub => hleads hsub.left) fuel (by omega) a
    have hright : ∀ a, q.walkDownFrom callback fuel r.spine.length (entryAt H v pos r.hi) (a, st) =
        Prog.onFst (walkTree H v q.revision callback r) (a, st) :=
      ihr (fun hsub => hleads hsub.right) fuel (by omega)
    rw [Tree.hi_node, walkDownFrom_node q callback hlr, walkTree, Prog.onFst_bind]
    refine Prog.onFst_bind_congr (fun dir a => ?_) a
    cases dir with
    | terminate => rfl
    | right => exact hright a
    | left => exact hleft a
    | both =>
      -- both sides: the source walks the right one first
      change (q.walkDownFrom callback fuel r.spine.length (entryAt H v pos r.hi) >>= fun _ =>
        Prog.onSnd (q.descend r.hi (spineINode H v pos (l, r))) >>= fun left =>
          q.walkDownFrom callback fuel left.2 left.1) (a, st) =
        Prog.onFst (walkTree H v q.revision callback r >>= fun _ =>
          walkTree H v q.revision callback l) (a, st)
      rw [Prog.onFst_bind, Prog.bind_run, hright a]
      exact Prog.onFst_bind_congr (fun _ a => hleft a) a

/-- **The walk over the stored nodes is the walk over the tree.** The step bound is the
height of the node it starts from. -/
theorem walkDownFrom_eq {q : Query S} (hc : Represents H v pos L n q.cache)
    (hr : Readable S st H v pos n) (callback : WalkFn w κ) {t : Tree} (ht : t.LeftPerfect)
    (hn : t.hi ≤ n) {fuel : ℕ} (hf : t.height < fuel) (a : κ) :
    q.walkDownFrom callback fuel t.spine.length (entryAt H v pos t.hi) (a, st) =
      Prog.onFst (walkTree H v n callback t) (a, st) := by
  have hwalk := walkDownFrom_of_leads callback ht (leads_of_readable hc hr ht hn) fuel hf a
  rwa [Query.revision, hc.revision_eq] at hwalk

/-- The walk starts at the root, the last node of the last entry. -/
theorem walkDown_eq_walkDownFrom {q : Query S} (hc : Loaded H v pos L n q.cache)
    (callback : WalkFn w κ) (fuel : ℕ) : q.walkDown fuel callback =
      q.walkDownFrom callback fuel (Tree.upTo n).spine.length (entryAt H v pos n) := by
  rw [Query.walkDown, hc.lastEntry_eq]
  simp only
  rw [entryAt, List.length_reverse, List.length_map]

/-- The walk from the root. -/
theorem walkDown_eq {q : Query S} (hc : Loaded H v pos L n q.cache) (hn : 1 ≤ n)
    (hr : Readable S st H v pos n) (callback : WalkFn w κ) {fuel : ℕ}
    (hf : (Tree.upTo n).height < fuel) (a : κ) :
    q.walkDown fuel callback (a, st) =
      Prog.onFst (walkTree H v n callback (Tree.upTo n)) (a, st) := by
  have h1 := Tree.hi_upTo hn
  have h2 := walkDownFrom_eq (hc.represents hn) hr callback (Tree.leftPerfect_upTo hn) h1.le hf a
  rw [h1] at h2
  rw [walkDown_eq_walkDownFrom hc]
  exact h2

/-- A walk with a local variable. -/
theorem collect_eq {q : Query S} (hc : Loaded H v pos L n q.cache) (hn : 1 ≤ n)
    (hr : Readable S st H v pos n) (callback : WalkFn w κ) {fuel : ℕ}
    (hf : (Tree.upTo n).height < fuel) {a b : κ}
    (h : walkTree H v n callback (Tree.upTo n) a = (.ok (), b)) :
    q.collect fuel callback a st = (.ok b, st) := by
  rw [Query.collect, walkDown_eq hc hn hr callback hf]
  simp only [Prog.onFst, h]

end Walk

/-! ### Values -/

/-- Where a lookup goes from a node: into the half that has the index. -/
theorem getStep_node {l r : Tree} (h : (Tree.node l r).LeftPerfect) (hb : r.hi < 2 ^ 64) {i : ℕ}
    (hhi : i ≤ r.hi) (revision : Index) (hash : Hash w) (s : Result (Option Bytes)) :
    Query.getStep i revision r.hi (Tree.node l r).height hash none s =
      (.ok (if r.lo ≤ i then WalkDirection.right else .left), s) := by
  have hpos : ¬(Tree.node l r).height = 0 := by
    rw [Tree.height_node]
    omega
  rw [Query.getStep]
  by_cases hi : r.hi = i
  · rw [if_pos hi, if_neg hpos, if_pos (hi ▸ h.right.lo_le_hi)]
    rfl
  · rw [if_neg hi]
    simp only [Prog.liftM_eq, subnodesOf_node h hb, Prog.lift_ok_bind, contains_label h.right hb]
    by_cases hlo : r.lo ≤ i
    · rw [if_pos (decide_eq_true ⟨hlo, hhi⟩), if_pos hlo]
      rfl
    · rw [if_neg (fun hd => hlo (of_decide_eq_true hd).1), if_neg hlo]
      rfl

/-- At the leaf of its index it takes the value. -/
theorem getStep_leaf (i revision : Index) (hash : Hash w) (value : Bytes)
    (s : Result (Option Bytes)) :
    Query.getStep i revision i 0 hash (some value) s = (.ok .terminate, .ok (some value)) := by
  rw [Query.getStep, if_pos rfl, if_pos rfl]
  rfl

/-- The walk of a lookup finds the value. -/
theorem walkTree_get {t : Tree} (ht : t.LeftPerfect) {i : ℕ} : t.hi < 2 ^ 64 → t.lo ≤ i → i ≤ t.hi →
    ∀ s, walkTree H v n (Query.getStep i) t s = (.ok (), .ok (some (v i))) := by
  induction ht with
  | @leaf k hk =>
    intro _ hlo hhi s
    obtain rfl : i = k := le_antisymm hhi hlo
    rw [walkTree, Prog.bind_ok (getStep_leaf i n _ (v i) s)]
    rfl
  | @node l r hl hr hp hle ha hd ihl ihr =>
    have hlr : (Tree.node l r).LeftPerfect := .node hl hr hp hle ha hd
    intro hb hlo hhi s
    rw [Tree.hi_node] at hb hhi
    rw [Tree.lo_node] at hlo
    have hlt := hlr.hi_left_lt
    rw [walkTree, Prog.bind_ok (getStep_node hlr hb hhi n _ s)]
    by_cases h : r.lo ≤ i
    · rw [if_pos h]
      exact ihr hb h hhi s
    · rw [if_neg h]
      exact ihl (by omega) hlo (by omega) s

/-- **`get` returns the value.** -/
theorem get_eq {q : Query S} (hc : Represents H v pos L n q.cache) (hb : n < 2 ^ 64)
    (hr : Readable S st H v pos n) {fuel : ℕ} (hf : INDEX_SIZE < fuel) (i : ℕ) :
    q.get fuel i st = (.ok (if 1 ≤ i ∧ i ≤ n then some (v i) else none), st) := by
  rw [Query.get, Query.revision, hc.revision_eq]
  by_cases hi : i = 0 ∨ n < i
  · rw [if_pos hi, if_neg (by omega)]
    rfl
  · have hn : 1 ≤ n := by omega
    have hu := Tree.leftPerfect_upTo hn
    have hhi := Tree.hi_upTo hn
    have hwalk := walkTree_get (H := H) (v := v) (n := n) hu (i := i) (by rwa [hhi])
      (by rw [Tree.lo_upTo hn]; omega) (by rw [hhi]; omega) (.ok none)
    rw [if_neg hi, if_pos (by omega),
      Prog.bind_ok (collect_eq (hc.loaded hn) hn hr _ (height_upTo_lt hn hb hf) hwalk)]
    rfl

/-! ### Samples -/

/-- The witness map of a list of trees. -/
def witnessMap (H : HashFn w) (v : ℕ → Bytes) (ts : List Tree) :
    Finmap fun _ : Index × ℕ => Hash w :=
  mapOf Tree.label (treeHash H v) ts

/-- The sample of an index, as the tree says. -/
def sampleOf (H : HashFn w) (v : ℕ → Bytes) (n i : ℕ) : StratumSample w :=
  { revision := n, leaf := ⟨i, v i⟩, witnesses := witnessMap H v (Tree.siblings i (Tree.upTo n)) }

/-- A sample remembers the nodes that do not contain its index, and goes no deeper. -/
theorem walkTree_sample_outside {t : Tree} (ht : t.LeftPerfect) (hb : t.hi < 2 ^ 64) {i : ℕ}
    (hi : ¬(t.lo ≤ i ∧ i ≤ t.hi)) (m : Finmap fun _ : Index × ℕ => Hash w) (x : Option Bytes) :
    walkTree H v n (Query.sampleStep i) t (m, x) =
      (.ok (), (m.insert t.label (treeHash H v t), x)) := by
  have hc := contains_label ht hb i
  cases t with
  | leaf k =>
    have hstep : Query.sampleStep i n k 0 (treeHash H v (.leaf k)) (some (v k)) (m, x) =
        (.ok .terminate, (m.insert (k, 0) (treeHash H v (.leaf k)), x)) := by
      rw [Query.sampleStep,
        show contains k 0 i = .ok false from hc.trans (by rw [decide_eq_false hi])]
      rfl
    rw [walkTree, Prog.bind_ok hstep]
    rfl
  | node l r =>
    have hstep : Query.sampleStep i n r.hi (Tree.node l r).height (treeHash H v (.node l r)) none
        (m, x) = (.ok .terminate,
          (m.insert (r.hi, (Tree.node l r).height) (treeHash H v (.node l r)), x)) := by
      rw [Query.sampleStep, show contains r.hi (Tree.node l r).height i = .ok false from
        hc.trans (by rw [decide_eq_false hi])]
      rfl
    rw [walkTree, Prog.bind_ok hstep]
    rfl

/-- **The walk of a sample collects the siblings of the path**, from right to left, and the
value at its end. -/
theorem walkTree_sample {t : Tree} (ht : t.LeftPerfect) {i : ℕ} : t.hi < 2 ^ 64 → t.lo ≤ i →
    i ≤ t.hi → ∀ m x, walkTree H v n (Query.sampleStep i) t (m, x) =
      (.ok (), (insertAll Tree.label (treeHash H v) m (Tree.siblings i t), some (v i))) := by
  induction ht with
  | @leaf k hk =>
    intro hb hlo hhi m x
    obtain rfl : i = k := le_antisymm hhi hlo
    have hc : contains i 0 i = .ok true :=
      (contains_label (.leaf hk) hb i).trans (by rw [decide_eq_true ⟨hlo, hhi⟩])
    rw [walkTree, Query.sampleStep, hc]
    rfl
  | @node l r hl hr hp hle ha hd ihl ihr =>
    have hlr : (Tree.node l r).LeftPerfect := .node hl hr hp hle ha hd
    intro hb hlo hhi m x
    have hc : contains r.hi (Tree.node l r).height i = .ok true :=
      (contains_label hlr hb i).trans (by rw [decide_eq_true ⟨hlo, hhi⟩])
    rw [Tree.hi_node] at hb hhi
    rw [Tree.lo_node] at hlo
    have hlt := hlr.hi_left_lt
    have hpos : ¬(Tree.node l r).height = 0 := by
      rw [Tree.height_node]
      omega
    have hstep : Query.sampleStep i n r.hi (Tree.node l r).height (treeHash H v (.node l r)) none
        (m, x) = (.ok .both, (m, x)) := by
      simp only [Query.sampleStep, hc, Prog.liftM_eq, Prog.lift_ok_bind, if_neg hpos,
        Bool.true_eq_false, if_false]
      rfl
    rw [walkTree, Prog.bind_ok hstep]
    simp only
    by_cases hk : i ≤ l.hi
    · rw [Prog.bind_ok (walkTree_sample_outside hr hb (by omega) m x), Tree.siblings_left hk,
        insertAll_cons]
      exact ihl (by omega) hlo hk _ _
    · rw [Prog.bind_ok (ihr hb (by omega) hhi m x), Tree.siblings_right hk, insertAll_append]
      exact walkTree_sample_outside hl (by omega) (by omega) _ _

/-- **`getSample` returns the sample of the tree.** -/
theorem getSample_eq {q : Query S} (hc : Represents H v pos L n q.cache) (hb : n < 2 ^ 64)
    (hr : Readable S st H v pos n) {fuel : ℕ} (hf : INDEX_SIZE < fuel) (i : ℕ) :
    q.getSample fuel i st =
      (.ok (if 1 ≤ i ∧ i ≤ n then some (sampleOf H v n i) else none), st) := by
  rw [Query.getSample, Query.revision, hc.revision_eq]
  cases Nat.eq_zero_or_pos n with
  | inl h0 =>
    subst h0
    have hc' : q.cache = Cache.empty L := hc
    have hcol : q.collect fuel (Query.sampleStep i) (∅, none) st = (.ok (∅, none), st) := by
      rw [Query.collect, Query.walkDown, hc']
      rfl
    rw [Prog.bind_ok hcol, if_neg (by omega)]
    rfl
  | inr hn =>
    have hu := Tree.leftPerfect_upTo hn
    have hhi := Tree.hi_upTo hn
    have hlo := Tree.lo_upTo hn
    by_cases hi : 1 ≤ i ∧ i ≤ n
    · have hwalk := walkTree_sample (H := H) (v := v) (n := n) hu (i := i) (by rwa [hhi])
        (by rw [hlo]; exact hi.1) (by rw [hhi]; exact hi.2) ∅ none
      rw [Prog.bind_ok (collect_eq (hc.loaded hn) hn hr _ (height_upTo_lt hn hb hf) hwalk),
        if_pos hi]
      rfl
    · have hwalk := walkTree_sample_outside (H := H) (v := v) (n := n) hu (i := i) (by rwa [hhi])
        (by rwa [hlo, hhi]) ∅ none
      rw [Prog.bind_ok (collect_eq (hc.loaded hn) hn hr _ (height_upTo_lt hn hb hf) hwalk),
        if_neg hi]
      rfl

/-! ### Searching over entries -/

/-- The first node whose left branch contains an index, by the trees behind the branches. -/
theorem findLeft_map {i : ℕ} : ∀ ps : List (Tree × Tree),
    (∀ p ∈ ps, p.1.LeftPerfect ∧ p.1.hi < 2 ^ 64) →
    findLeft i (ps.map (spineINode H v pos)) =
      .ok ((ps.find? fun p => p.1.lo ≤ i ∧ i ≤ p.1.hi).map (spineINode H v pos))
  | [], _ => rfl
  | p :: ps, h => by
    obtain ⟨h1, h2⟩ := h p List.mem_cons_self
    rw [List.map_cons, findLeft, spineINode_left, nodeAddress_i, nodeAddress_j,
      contains_label h1 h2, ok_bind]
    by_cases hp : p.1.lo ≤ i ∧ i ≤ p.1.hi
    · rw [if_pos (decide_eq_true hp), List.find?_cons_of_pos (by simpa using hp)]
      rfl
    · rw [if_neg (fun hd => hp (of_decide_eq_true hd)), List.find?_cons_of_neg (by simpa using hp)]
      exact findLeft_map ps fun q hq => h q (List.mem_cons_of_mem _ hq)

/-- The left children of a spine come in the order of their indices. -/
theorem spine_sorted {t : Tree} (h : t.LeftPerfect) :
    t.spine.Pairwise fun p q => p.1.hi < q.1.lo := by
  induction h with
  | leaf => exact List.Pairwise.nil
  | @node l r hl hr hp hle ha hd _ ihr =>
    refine List.pairwise_cons.mpr ⟨fun q hq => ?_, ihr⟩
    have h1 := (hr.of_mem_spine hq).2.2.1
    simp only
    omega

theorem findLeft_entryAt {m i : ℕ} (hm : 1 ≤ m) (hb : m < 2 ^ 64) :
    findLeft i (entryAt H v pos m).inodes =
      .ok (((Tree.upTo m).spine.reverse.find? fun p => p.1.lo ≤ i ∧ i ≤ p.1.hi).map
        (spineINode H v pos)) := by
  rw [entryAt, ← List.map_reverse]
  refine findLeft_map _ fun p hp => ?_
  obtain ⟨h1, -, h2⟩ := left_range hm (List.mem_reverse.mp hp)
  exact ⟨h1, h2.trans hb⟩

/-- The one left branch that contains an index below a node. -/
theorem findLeft_some {t : Tree} (ht : t.LeftPerfect) (hb : t.hi < 2 ^ 64) {p : Tree × Tree} {i : ℕ}
    (hp : p ∈ t.spine) (hlo : p.1.lo ≤ i) (hhi : i ≤ p.1.hi) :
    findLeft i (entryAt H v pos t.hi).inodes = .ok (some (spineINode H v pos p)) := by
  have hu := Tree.leftPerfect_upTo ht.hi_pos
  obtain ⟨ys, hys⟩ := ht.spine_suffix_upTo
  have hmem : p ∈ (Tree.upTo t.hi).spine := by
    rw [← hys]
    exact List.mem_append_right _ hp
  rw [findLeft_entryAt ht.hi_pos hb]
  cases hf : (Tree.upTo t.hi).spine.reverse.find? fun p => p.1.lo ≤ i ∧ i ≤ p.1.hi with
  | none =>
    have h1 := List.find?_eq_none.mp hf p (List.mem_reverse.mpr hmem)
    exact absurd (decide_eq_true ⟨hlo, hhi⟩) h1
  | some q =>
    have h1 : q.1.lo ≤ i ∧ i ≤ q.1.hi := by simpa using List.find?_some hf
    have h2 := List.mem_reverse.mp (List.mem_of_find?_eq_some hf)
    -- the left branches do not overlap, so it is the same pair
    rcases eq_or_rel_of_pairwise (spine_sorted hu) hmem h2 with h3 | h3 | h3
    · rw [h3]
      rfl
    · omega
    · omega

/-- No left branch leads out of the tree. -/
theorem findLeft_none {m i : ℕ} (hm : 1 ≤ m) (hb : m < 2 ^ 64) (hi : i = 0 ∨ m < i) :
    findLeft i (entryAt H v pos m).inodes = .ok none := by
  rw [findLeft_entryAt hm hb]
  cases hf : (Tree.upTo m).spine.reverse.find? fun p => p.1.lo ≤ i ∧ i ≤ p.1.hi with
  | none => rfl
  | some q =>
    have h1 : q.1.lo ≤ i ∧ i ≤ q.1.hi := by simpa using List.find?_some hf
    obtain ⟨h2, -, h3⟩ := left_range hm (List.mem_reverse.mp (List.mem_of_find?_eq_some hf))
    have h4 := h2.lo_pos
    omega

/-- The next step towards an index below a node: the pair of its spine whose left child
contains the index, and lies lower. -/
theorem exists_step {t : Tree} (ht : t.LeftPerfect) {i : ℕ} (hlo : t.lo ≤ i) (hhi : i < t.hi) :
    ∃ p ∈ t.spine, p.1.LeftPerfect ∧ p.1.lo ≤ i ∧ i ≤ p.1.hi ∧ p.1.hi < t.hi ∧
      p.1.height < t.height := by
  obtain ⟨p, hp, h1, h2⟩ := ht.exists_mem_spine hlo hhi
  obtain ⟨h3, h4, -, h5⟩ := ht.of_mem_spine hp
  have h6 := h3.hi_left_lt
  have h7 := Tree.height_left_lt p.1 p.2
  exact ⟨p, hp, h3.left, h1, h2, by omega, by omega⟩

/-- **The search over entries** finds the entry of an index below a node, in at most as
many steps as the node is high. -/
theorem readEntryFrom_eq {q : Query S} (hc : Represents H v pos L n q.cache) (hb : n < 2 ^ 64)
    (hr : Readable S st H v pos n) {i : ℕ} : ∀ fuel {t : Tree}, t.LeftPerfect → t.hi ≤ n →
    t.height < fuel → t.lo ≤ i → i ≤ t.hi →
    q.readEntryFrom i fuel (entryAt H v pos t.hi) st = (.ok (some (entryAt H v pos i)), st)
  | 0, _, _, _, hf, _, _ => absurd hf (Nat.not_lt_zero _)
  | fuel + 1, t, ht, hn, hf, hlo, hhi => by
    rw [Query.readEntryFrom, entryAt_index]
    by_cases hi : t.hi = i
    · rw [if_pos hi, hi]
      rfl
    · obtain ⟨p, hp, h1, h2, h3, h4, h5⟩ := exists_step ht hlo (by omega)
      rw [if_neg hi]
      simp only [Prog.liftM_eq, findLeft_some ht (hn.trans_lt hb) hp h2 h3, Prog.lift_ok_bind]
      rw [spineINode_left, Prog.bind_ok (fetchLeft_eq hc hr h1.hi_pos (h4.le.trans hn))]
      exact readEntryFrom_eq hc hb hr fuel h1 (h4.le.trans hn) (by omega) h2 h3

/-- **`readEntry` returns the entry.** -/
theorem readEntry_eq {q : Query S} (hc : Represents H v pos L n q.cache) (hb : n < 2 ^ 64)
    (hr : Readable S st H v pos n) {fuel : ℕ} (hf : INDEX_SIZE < fuel) (i : ℕ) :
    q.readEntry fuel i st =
      (.ok (if 1 ≤ i ∧ i ≤ n then some (entryAt H v pos i) else none), st) := by
  rw [Query.readEntry, Query.revision, hc.revision_eq]
  cases Nat.eq_zero_or_pos n with
  | inl h0 =>
    subst h0
    have hc' : q.cache = Cache.empty L := hc
    rw [hc', if_neg (by omega)]
    rfl
  | inr hn =>
    have hu := Tree.leftPerfect_upTo hn
    have hhi := Tree.hi_upTo hn
    have hlo := Tree.lo_upTo hn
    rw [(hc.loaded hn).entry_self]
    by_cases hi : 1 ≤ i ∧ i ≤ n
    · have h1 := readEntryFrom_eq hc hb hr fuel hu hhi.le (height_upTo_lt hn hb hf) (i := i)
        (by rw [hlo]; exact hi.1) (by rw [hhi]; exact hi.2)
      rw [hhi] at h1
      rw [if_pos hi]
      exact h1
    · obtain ⟨fuel, rfl⟩ : ∃ f, fuel = f + 1 := ⟨fuel - 1, by omega⟩
      simp only
      rw [if_neg hi, Query.readEntryFrom, entryAt_index, if_neg (show ¬n = i by omega)]
      simp only [Prog.liftM_eq, findLeft_none hn hb (show i = 0 ∨ n < i by omega),
        Prog.lift_ok_bind]
      rfl

/-- The search of `loadEntry` takes the same steps, and finds what the one of `readEntry`
finds. -/
theorem loadEntryFrom_of_readEntryFrom {q : Query S} {i : ℕ} {found : Entry w} {st' : S.State} :
    ∀ (fuel : ℕ) {e : Entry w} {st : S.State},
      q.readEntryFrom i fuel e st = (.ok (some found), st') →
      Slate.loadEntryFrom S q.cache i fuel e st = (.ok found, st')
  | 0, _, _, h => absurd (Prod.mk.inj h).1 (by simp)
  | fuel + 1, e, st, h => by
    rw [Query.readEntryFrom] at h
    rw [Slate.loadEntryFrom]
    by_cases hi : e.index = i
    · rw [if_pos hi] at h ⊢
      obtain ⟨h1, rfl⟩ := Prod.mk.inj h
      rw [Option.some.inj (Except.ok.inj h1)]
      rfl
    · rw [if_neg hi, Prog.liftM_eq, Prog.bind_eq_ok] at h
      obtain ⟨left, st1, hleft, h⟩ := h
      rw [if_neg hi, Prog.liftM_eq, Prog.bind_ok hleft]
      cases left with
      | none => exact absurd (Prod.mk.inj h).1 (by simp)
      | some inode =>
        obtain ⟨next, st2, hnext, h⟩ := Prog.bind_eq_ok.mp h
        exact (Prog.bind_ok hnext).trans (loadEntryFrom_of_readEntryFrom fuel h)

end StratifiedHashTree
