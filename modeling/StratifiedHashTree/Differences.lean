import StratifiedHashTree.Samples

/-!
# Locating differences

Two slates with as many entries have trees of one shape, and a sample of an index cuts both
into the same parts: the leaf, and the siblings on its way. Comparing the samples lists the
parts that differ (`StratifiedHashTree.compare_locates`). One direction – a part that
differs holds a leaf that differs – only needs that hashes are functions of the leaves; for
the other there must be no collision.

Going on from the last part that differs, again and again, finds the last leaf that differs
(`StratifiedHashTree.differenceSearch_converges`). The part that holds this leaf gets lower
in every round: the new cut goes through its last leaf, so outside of it nothing new is
listed behind it.
-/

namespace StratifiedHashTree

open Outcome Formula FormulaTree

variable {w : ℕ}

/-! ### Sorting -/

namespace StratumSample

theorem sortNodes_perm (nodes : List (Index × ℕ)) : (sortNodes nodes).Perm nodes :=
  List.mergeSort_perm nodes _

theorem mem_sortNodes {nodes : List (Index × ℕ)} {x : Index × ℕ} :
    x ∈ sortNodes nodes ↔ x ∈ nodes := (sortNodes_perm nodes).mem_iff

theorem sorted_sortNodes (nodes : List (Index × ℕ)) :
    (sortNodes nodes).Pairwise fun x y => toLex x ≤ toLex y := by
  have h : (sortNodes nodes).Pairwise fun x y => decide (toLex x ≤ toLex y) = true :=
    List.pairwise_mergeSort
      (fun x y z h1 h2 => decide_eq_true ((of_decide_eq_true h1).trans (of_decide_eq_true h2)))
      (fun x y => by simpa using le_total (toLex x) (toLex y)) nodes
  exact h.imp of_decide_eq_true

/-- Nodes that were pushed once each are sorted strictly. -/
theorem pairwise_sortNodes {nodes : List (Index × ℕ)} (h : nodes.Nodup) :
    (sortNodes nodes).Pairwise fun x y => toLex x < toLex y := by
  have hne : (sortNodes nodes).Pairwise (· ≠ ·) := (sortNodes_perm nodes).nodup_iff.mpr h
  exact (sorted_sortNodes nodes).imp₂ (fun x y hle hne => lt_of_le_of_ne hle fun heq => hne heq) hne

/-- In which order nodes were pushed does not matter. -/
theorem sortNodes_congr {nodes nodes' : List (Index × ℕ)} (h : nodes.Perm nodes') :
    sortNodes nodes = sortNodes nodes' :=
  (((sortNodes_perm nodes).trans h).trans (sortNodes_perm nodes').symm).eq_of_pairwise
    (fun _ _ _ _ h1 h2 => toLex.injective (le_antisymm h1 h2)) (sorted_sortNodes nodes)
    (sorted_sortNodes nodes')

/-! ### The witnesses that differ -/

variable {self other : StratumSample w}

theorem mem_witnessKeys {x : Index × ℕ} : x ∈ self.witnessKeys ↔ x ∈ self.witnesses := by
  rw [← Finmap.mem_keys]
  simp [witnessKeys]

theorem nodup_witnessKeys : self.witnessKeys.Nodup :=
  (Finset.sort_nodup _ _).map ofLex.injective

/-- The witnesses that the loop pushes. -/
def differing (self other : StratumSample w) (keys : List (Index × ℕ)) : List (Index × ℕ) :=
  keys.filter fun k => self.witnesses.lookup k ≠ other.witnesses.lookup k

/-- **The loop over the witnesses** pushes those that differ, if the other sample has all of
them. -/
theorem pushDivergents_eq : ∀ (keys divergents : List (Index × ℕ)),
    (∀ k ∈ keys, k ∈ other.witnesses) →
    self.pushDivergents other keys divergents = .ok (divergents ++ self.differing other keys)
  | [], divergents, _ => by rw [pushDivergents, differing, List.filter_nil, List.append_nil]
  | k :: keys, divergents, h => by
    obtain ⟨h2, hk⟩ := Finmap.mem_iff.mp (h k List.mem_cons_self)
    have hrest : ∀ x ∈ keys, x ∈ other.witnesses := fun x hx => h x (List.mem_cons_of_mem k hx)
    rw [pushDivergents, hk, differing, List.filter_cons, hk]
    by_cases hne : self.witnesses.lookup k ≠ some h2
    · simp only [if_pos hne, decide_eq_true hne, if_true]
      rw [pushDivergents_eq keys _ hrest, List.append_assoc]
      rfl
    · simp only [if_neg hne, decide_eq_false hne, Bool.false_eq_true, if_false]
      exact pushDivergents_eq keys _ hrest

/-- It panics if the other sample lacks a witness. -/
theorem pushDivergents_panic : ∀ (keys divergents : List (Index × ℕ)),
    (¬∀ k ∈ keys, k ∈ other.witnesses) →
    self.pushDivergents other keys divergents = panic .explicit
  | [], _, h => absurd (fun _ hk => absurd hk List.not_mem_nil) h
  | k :: keys, divergents, h => by
    rw [pushDivergents]
    rcases hk : other.witnesses.lookup k with _ | h2
    · rfl
    · have hrest : ¬∀ x ∈ keys, x ∈ other.witnesses := fun hall => h fun x hx => by
        rcases List.mem_cons.mp hx with rfl | hx
        · exact Finmap.mem_iff.mpr ⟨h2, hk⟩
        · exact hall x hx
      simp only
      by_cases hne : self.witnesses.lookup k ≠ some h2
      · rw [if_pos hne]
        exact pushDivergents_panic keys _ hrest
      · rw [if_neg hne]
        exact pushDivergents_panic keys _ hrest

/-- What is pushed: the witnesses that differ, and the leaf. -/
theorem divergents_eq (H : HashFn w) {keys : List (Index × ℕ)}
    (h : ∀ k ∈ keys, k ∈ other.witnesses) :
    self.divergents H other keys = .ok (sortNodes (self.differing other keys ++
      if self.leaf.hash H ≠ other.leaf.hash H then [(self.leaf.i, 0)] else [])).reverse := by
  rw [divergents, pushDivergents_eq keys [] h, ok_bind, List.nil_append]
  by_cases hleaf : self.leaf.hash H ≠ other.leaf.hash H
  · rw [if_pos hleaf, if_pos hleaf]
    rfl
  · rw [if_neg hleaf, if_neg hleaf, List.append_nil]
    rfl

theorem divergents_panic (H : HashFn w) {keys : List (Index × ℕ)}
    (h : ¬∀ k ∈ keys, k ∈ other.witnesses) : self.divergents H other keys = panic .explicit := by
  rw [divergents, pushDivergents_panic keys [] h]
  rfl

/-- **The order of the witnesses does not matter** for what is listed. -/
theorem divergents_perm (H : HashFn w) {keys keys' : List (Index × ℕ)} (h : keys.Perm keys') :
    self.divergents H other keys = self.divergents H other keys' := by
  have hiff : (∀ k ∈ keys, k ∈ other.witnesses) ↔ ∀ k ∈ keys', k ∈ other.witnesses :=
    forall_congr' fun k => imp_congr_left h.mem_iff
  by_cases hall : ∀ k ∈ keys, k ∈ other.witnesses
  · have hdiffering : (self.differing other keys).Perm (self.differing other keys') := h.filter _
    rw [divergents_eq H hall, divergents_eq H (hiff.mp hall),
      sortNodes_congr (hdiffering.append_right _)]
  · rw [divergents_panic H hall, divergents_panic H fun hall' => hall (hiff.mpr hall')]

end StratumSample

/-! ### Comparing the samples of two trees -/

section Compare

variable (H : HashFn w) (v v' : ℕ → Bytes) {n i : ℕ}

/-- The parts of both trees that differ, as the comparison lists them. -/
structure DivergentParts (H : HashFn w) (v v' : ℕ → Bytes) (n i : ℕ) (d : List (Index × ℕ)) :
    Prop where
  sorted : d.Pairwise fun x y => toLex y < toLex x
  mem_iff : ∀ x, x ∈ d ↔
    ∃ t ∈ Tree.parts i (Tree.upTo n), x = t.label ∧ treeHash H v t ≠ treeHash H v' t

/-- A witness of a sample is a sibling, and has its hash. -/
theorem witnesses_sampleOf (hn : 1 ≤ n) (hb : n < 2 ^ 64) (h1 : 1 ≤ i) (h2 : i ≤ n) :
    (∀ x, x ∈ (sampleOf H v n i).witnesses ↔
      ∃ t ∈ Tree.siblings i (Tree.upTo n), x = t.label) ∧
    ∀ t ∈ Tree.siblings i (Tree.upTo n),
      (sampleOf H v n i).witnesses.lookup t.label = some (treeHash H v t) := by
  have hlookup : ∀ t ∈ Tree.siblings i (Tree.upTo n),
      (sampleOf H v n i).witnesses.lookup t.label = some (treeHash H v t) := by
    intro t ht
    obtain ⟨h3, h4⟩ := sub_upTo hn hb (Tree.sub_of_mem_siblings ht)
    exact (lookup_witnessMap hn hb h1 h2 _ _).mpr
      ⟨(isSibling_iff hn hb h1 h2).mpr ⟨t, ht, rfl⟩, merkleHash_label h3 h4⟩
  refine ⟨fun x => ?_, hlookup⟩
  rw [Finmap.mem_iff, ← isSibling_iff hn hb h1 h2]
  constructor
  · rintro ⟨h, hx⟩
    exact ((lookup_witnessMap hn hb h1 h2 x h).mp hx).1
  · intro hx
    obtain ⟨t, ht, rfl⟩ := (isSibling_iff hn hb h1 h2).mp hx
    exact ⟨_, hlookup t ht⟩

/-- The witnesses of both samples that differ are the siblings that differ. -/
theorem mem_differing_sampleOf (hn : 1 ≤ n) (hb : n < 2 ^ 64) (h1 : 1 ≤ i) (h2 : i ≤ n)
    (x : Index × ℕ) : x ∈ (sampleOf H v n i).differing (sampleOf H v' n i)
        (sampleOf H v n i).witnessKeys ↔
      ∃ t ∈ Tree.siblings i (Tree.upTo n), x = t.label ∧ treeHash H v t ≠ treeHash H v' t := by
  obtain ⟨hkeys, hlookup⟩ := witnesses_sampleOf H v hn hb h1 h2
  obtain ⟨-, hlookup'⟩ := witnesses_sampleOf H v' hn hb h1 h2
  rw [StratumSample.differing, List.mem_filter, StratumSample.mem_witnessKeys, hkeys,
    decide_eq_true_iff]
  constructor
  · rintro ⟨⟨t, ht, rfl⟩, hne⟩
    rw [hlookup t ht, hlookup' t ht] at hne
    exact ⟨t, ht, rfl, fun heq => hne (congrArg some heq)⟩
  · rintro ⟨t, ht, rfl, hne⟩
    refine ⟨⟨t, ht, rfl⟩, ?_⟩
    rw [hlookup t ht, hlookup' t ht]
    exact fun heq => hne (Option.some.inj heq)

/-- **The leaf is no witness** of its own sample. -/
theorem leaf_not_mem_witnesses (hn : 1 ≤ n) (hb : n < 2 ^ 64) (h1 : 1 ≤ i) (h2 : i ≤ n) :
    (i, 0) ∉ (sampleOf H v n i).witnesses := by
  intro hmem
  obtain ⟨t, ht, hlabel⟩ := ((witnesses_sampleOf H v hn hb h1 h2).1 _).mp hmem
  have hu := Tree.leftPerfect_upTo hn
  have hhi : i = t.hi := congrArg Prod.fst hlabel
  have hle := ((Tree.sub_of_mem_siblings ht).leftPerfect hu).lo_le_hi
  rcases hu.outside_of_mem_siblings ht with hout | hout
  · omega
  · omega

/-- **What the comparison lists**: every part that differs, and none of them twice. -/
theorem divergents_sampleOf (hn : 1 ≤ n) (hb : n < 2 ^ 64) (h1 : 1 ≤ i) (h2 : i ≤ n) :
    ∃ d, (sampleOf H v n i).divergents H (sampleOf H v' n i) (sampleOf H v n i).witnessKeys =
        .ok d ∧ DivergentParts H v v' n i d := by
  have hall : ∀ k ∈ (sampleOf H v n i).witnessKeys, k ∈ (sampleOf H v' n i).witnesses := by
    intro k hk
    rw [StratumSample.mem_witnessKeys, (witnesses_sampleOf H v hn hb h1 h2).1] at hk
    exact ((witnesses_sampleOf H v' hn hb h1 h2).1 k).mpr hk
  have hmem := mem_differing_sampleOf H v v' hn hb h1 h2
  have hdistinct : ((sampleOf H v n i).differing (sampleOf H v' n i)
      (sampleOf H v n i).witnessKeys).Nodup := StratumSample.nodup_witnessKeys.filter _
  have hparts : ∀ {t : Tree}, t ∈ Tree.parts i (Tree.upTo n) ↔ _ :=
    (Tree.leftPerfect_upTo hn).mem_parts (k := i) (by rwa [Tree.lo_upTo hn])
      (by rwa [Tree.hi_upTo hn])
  have hleaf : (sampleOf H v n i).leaf.hash H ≠ (sampleOf H v' n i).leaf.hash H ↔
      treeHash H v (.leaf i) ≠ treeHash H v' (.leaf i) := Iff.rfl
  have hlist := @StratumSample.divergents_eq w (sampleOf H v n i) _ H _ hall
  by_cases hdiff : treeHash H v (.leaf i) ≠ treeHash H v' (.leaf i)
  · rw [if_pos (hleaf.mpr hdiff)] at hlist
    refine ⟨_, hlist, List.pairwise_reverse.mpr (StratumSample.pairwise_sortNodes ?_), fun x => ?_⟩
    · -- the leaf is pushed once more only if it is a witness
      rw [List.nodup_append]
      refine ⟨hdistinct, List.nodup_singleton _, fun x hx y hy heq => ?_⟩
      rw [List.mem_singleton.mp hy] at heq
      rw [StratumSample.differing, List.mem_filter, StratumSample.mem_witnessKeys, heq] at hx
      exact leaf_not_mem_witnesses H v hn hb h1 h2 hx.1
    · rw [List.mem_reverse, StratumSample.mem_sortNodes, List.mem_append, hmem, List.mem_singleton]
      constructor
      · rintro (⟨t, ht, hx⟩ | rfl)
        · exact ⟨t, hparts.mpr (Or.inr ht), hx⟩
        · exact ⟨.leaf i, hparts.mpr (Or.inl rfl), rfl, hdiff⟩
      · rintro ⟨t, ht, rfl, hx⟩
        rcases hparts.mp ht with rfl | ht
        · exact Or.inr rfl
        · exact Or.inl ⟨t, ht, rfl, hx⟩
  · rw [if_neg fun h => hdiff (hleaf.mp h), List.append_nil] at hlist
    refine ⟨_, hlist, List.pairwise_reverse.mpr (StratumSample.pairwise_sortNodes hdistinct),
      fun x => ?_⟩
    rw [List.mem_reverse, StratumSample.mem_sortNodes, hmem]
    constructor
    · rintro ⟨t, ht, hx⟩
      exact ⟨t, hparts.mpr (Or.inr ht), hx⟩
    · rintro ⟨t, ht, rfl, hx⟩
      rcases hparts.mp ht with rfl | ht
      · exact absurd hx hdiff
      · exact ⟨t, ht, rfl, hx⟩

/-- **Comparing the samples of two trees of one shape.** -/
theorem compare_sampleOf (hn : 1 ≤ n) (hb : n < 2 ^ 64) (h1 : 1 ≤ i) (h2 : i ≤ n) :
    (treeHash H v (Tree.upTo n) = treeHash H v' (Tree.upTo n) →
      StratumSample.compare H (sampleOf H v n i) (sampleOf H v' n i) = .ok .identical) ∧
    (treeHash H v (Tree.upTo n) ≠ treeHash H v' (Tree.upTo n) → ∃ d,
      StratumSample.compare H (sampleOf H v n i) (sampleOf H v' n i) = .ok (.divergent d) ∧
        DivergentParts H v v' n i d) := by
  have hroot := rootHash_sampleOf (H := H) (v := v) hn hb h1 h2
  have hroot' := rootHash_sampleOf (H := H) (v := v') hn hb h1 h2
  have hcompare : StratumSample.compare H (sampleOf H v n i) (sampleOf H v' n i) =
      (if treeHash H v (Tree.upTo n) = treeHash H v' (Tree.upTo n) then .ok .identical
        else do
          let nodes ← (sampleOf H v n i).divergents H (sampleOf H v' n i)
            (sampleOf H v n i).witnessKeys
          return .divergent nodes) := by
    rw [StratumSample.compare, if_neg (fun h => h rfl), if_neg (fun h => h rfl), hroot, ok_bind,
      hroot', ok_bind]
    rfl
  constructor
  · intro heq
    rw [hcompare, if_pos heq]
  · intro hne
    obtain ⟨d, hd, hparts⟩ := divergents_sampleOf H v v' hn hb h1 h2
    rw [if_neg hne, hd, ok_bind] at hcompare
    exact ⟨d, hcompare, hparts⟩

variable {H v v'}

/-- **The first node of the list is the last part that differs.** -/
theorem DivergentParts.head {d : List (Index × ℕ)} (h : DivergentParts H v v' n i d) (hn : 1 ≤ n)
    {p : Tree} (hp : ((Tree.parts i (Tree.upTo n)).filter fun s =>
      (scheme H).digest v s ≠ (scheme H).digest v' s).getLast? = some p) :
    index d 0 = (.ok p.label : Result (Index × ℕ)) := by
  have hu := Tree.leftPerfect_upTo hn
  have hmem := List.mem_of_getLast? hp
  obtain ⟨hpart, hne⟩ := List.mem_filter.mp hmem
  have hpd : p.label ∈ d := (h.mem_iff _).mpr ⟨p, hpart, rfl, of_decide_eq_true hne⟩
  cases d with
  | nil => exact absurd hpd List.not_mem_nil
  | cons x rest =>
    obtain ⟨q, hq, hx, hqne⟩ := (h.mem_iff x).mp List.mem_cons_self
    suffices hqp : q = p by rw [hx, hqp]; rfl
    by_contra hcon
    have hqf : q ∈ (Tree.parts i (Tree.upTo n)).filter fun s =>
        (scheme H).digest v s ≠ (scheme H).digest v' s :=
      List.mem_filter.mpr ⟨hq, decide_eq_true hqne⟩
    -- the last part that differs comes after every other one
    obtain ⟨front, hfront⟩ := List.getLast?_eq_some_iff.mp hp
    have hsorted := (hu.parts_sorted i).filter fun s =>
      (scheme H).digest v s ≠ (scheme H).digest v' s
    rw [hfront] at hqf hsorted
    have hlt : q.hi < p.lo := by
      rcases List.mem_append.mp hqf with hqf | hqf
      · exact (List.pairwise_append.mp hsorted).2.2 q hqf p (List.mem_singleton_self p)
      · exact absurd (List.mem_singleton.mp hqf) hcon
    have hple := ((Tree.sub_of_mem_parts hpart).leftPerfect hu).lo_le_hi
    -- but the first node of the list is not before any other one
    rcases List.mem_cons.mp hpd with hpx | hprest
    · have : p.hi = q.hi := congrArg Prod.fst (hpx.trans hx)
      omega
    · have hgt := (List.pairwise_cons.mp h.sorted).1 _ hprest
      rw [hx, Prod.Lex.toLex_lt_toLex] at hgt
      have hle : p.hi ≤ q.hi := hgt.elim (fun h1 => (show p.hi < q.hi from h1).le) fun h1 => h1.1.le
      omega

end Compare

/-! ### Comparing the samples of two slates -/

section Slates

variable {B B' : Backend w} {H : HashFn w} {L L' fuel : ℕ} {vs vs' : List Bytes} {s : SlateOn B}
  {s' : SlateOn B'}

/-- The leaf hashes of an index differ. -/
def LeavesDiffer (H : HashFn w) (vs vs' : List Bytes) (k : Index) : Prop :=
  Hash.fromBytes H 0 (payload vs k) ≠ Hash.fromBytes H 0 (payload vs' k)

/-- What the list of a comparison has to be: strictly descending, and made of the nodes
around the way to the leaf whose Merkle hashes differ. -/
structure Divergence (H : HashFn w) (vs vs' : List Bytes) (i : Index) (d : List (Index × ℕ)) :
    Prop where
  nonempty : d ≠ []
  descending : d.Pairwise fun x y => toLex y < toLex x
  mem_iff : ∀ x, x ∈ d ↔ (x = (i, 0) ∨ IsSibling vs.length i x) ∧
    merkleHash H (payload vs) x.1 x.2 ≠ merkleHash H (payload vs') x.1 x.2
  sound : ∀ x ∈ d, ∃ k, contains x.1 x.2 k = .ok true ∧ LeavesDiffer H vs vs' k

/-- Every index whose leaf hashes differ is below a node of the list. -/
def CoversDifferences (H : HashFn w) (vs vs' : List Bytes) (d : List (Index × ℕ)) : Prop :=
  ∀ k, 1 ≤ k → k ≤ vs.length → LeavesDiffer H vs vs' k →
    ∃ x ∈ d, contains x.1 x.2 k = .ok true

theorem divergence_of_parts {i : ℕ} {d : List (Index × ℕ)} (hb : vs.length < 2 ^ 64) (h1 : 1 ≤ i)
    (h2 : i ≤ vs.length)
    (hne : treeHash H (payload vs) (Tree.upTo vs.length) ≠
      treeHash H (payload vs') (Tree.upTo vs.length))
    (h : DivergentParts H (payload vs) (payload vs') vs.length i d) : Divergence H vs vs' i d := by
  have hn : 1 ≤ vs.length := h1.trans h2
  have hu := Tree.leftPerfect_upTo hn
  have hparts : ∀ {t : Tree}, t ∈ Tree.parts i (Tree.upTo vs.length) ↔ _ :=
    hu.mem_parts (k := i) (by rwa [Tree.lo_upTo hn]) (by rwa [Tree.hi_upTo hn])
  have hmerkle : ∀ {t : Tree}, t ∈ Tree.parts i (Tree.upTo vs.length) →
      (merkleHash H (payload vs) t.label.1 t.label.2 ≠
          merkleHash H (payload vs') t.label.1 t.label.2 ↔
        treeHash H (payload vs) t ≠ treeHash H (payload vs') t) := by
    intro t ht
    obtain ⟨h3, h4⟩ := sub_upTo hn hb (Tree.sub_of_mem_parts ht)
    rw [show merkleHash H (payload vs) t.label.1 t.label.2 = _ from merkleHash_label h3 h4,
      show merkleHash H (payload vs') t.label.1 t.label.2 = _ from merkleHash_label h3 h4, ne_eq,
      Except.ok.injEq]
  refine ⟨?_, h.sorted, fun x => ?_, fun x hx => ?_⟩
  · -- an empty list would mean equal parts, and so equal trees
    rintro rfl
    refine hne (MerkleScheme.digest_congr_parts (k := i) fun t ht => ?_)
    by_contra hcon
    exact absurd ((h.mem_iff t.label).mpr ⟨t, ht, rfl, hcon⟩) List.not_mem_nil
  · rw [h.mem_iff, isSibling_iff hn hb h1 h2]
    constructor
    · rintro ⟨t, ht, rfl, hdiff⟩
      refine ⟨?_, (hmerkle ht).mpr hdiff⟩
      rcases hparts.mp ht with rfl | ht
      · exact Or.inl rfl
      · exact Or.inr ⟨t, ht, rfl⟩
    · rintro ⟨rfl | ⟨t, ht, rfl⟩, hdiff⟩
      · have ht := hparts.mpr (Or.inl rfl)
        exact ⟨.leaf i, ht, rfl, (hmerkle ht).mp hdiff⟩
      · have ht := hparts.mpr (Or.inr ht)
        exact ⟨t, ht, rfl, (hmerkle ht).mp hdiff⟩
  · obtain ⟨t, ht, rfl, hdiff⟩ := (h.mem_iff x).mp hx
    obtain ⟨h3, h4⟩ := sub_upTo hn hb (Tree.sub_of_mem_parts ht)
    obtain ⟨k, hk, hkne⟩ := MerkleScheme.exists_leafDigest_ne (M := scheme H) hdiff
    exact ⟨k, (contains_iff h3 h4).mpr ((MerkleScheme.sub_leaf_iff h3).mp hk), hkne⟩

/-- What is hashed in the trees of two slates of one length. -/
theorem collision_of_trees (h : Reaches B H L vs s) (h' : Reaches B' H L' vs' s')
    (hlen : vs'.length = vs.length) (hn : 1 ≤ vs.length)
    (hc : (scheme H).Collision ((scheme H).inputs (payload vs) (Tree.upTo vs.length))
      ((scheme H).inputs (payload vs') (Tree.upTo vs.length))) :
    HashCollision H (buildInputs B H L vs) (buildInputs B' H L' vs') := by
  have h1 := inputs_subset_buildInputs (B := B') L' h'.slateOf.fits (by rwa [hlen])
  rw [hlen] at h1
  exact hc.mono (inputs_subset_buildInputs L h.slateOf.fits hn) h1

/-- Without a collision, the hashes of the trees of two slates tell leaves apart. -/
theorem separates_of_slates (h : Reaches B H L vs s) (h' : Reaches B' H L' vs' s')
    (hlen : vs'.length = vs.length) (hn : 1 ≤ vs.length) :
    MerkleScheme.Separates (scheme H) (payload vs) (payload vs') (Tree.upTo vs.length) ∨
      HashCollision H (buildInputs B H L vs) (buildInputs B' H L' vs') := by
  have hu := Tree.leftPerfect_upTo hn
  rcases MerkleScheme.separates_or_collision (scheme H) (payload vs) (payload vs')
    (height_le_64 hu (by rw [Tree.hi_upTo hn]; exact h.slateOf.lt)) with hsep | hc
  · exact Or.inl hsep
  · exact Or.inr (collision_of_trees h h' hlen hn hc)

/-- **Comparing locates the differences.** The samples of an index of two slates with as many
entries compare as identical exactly when the roots are equal; otherwise the nodes around
the way to the index that differ are listed, every one of them holds a leaf that differs,
and every leaf that differs is held by one – or there is a collision between what was
hashed for the two slates. -/
theorem compare_locates (h : Reaches B H L vs s) (h' : Reaches B' H L' vs' s')
    (hlen : vs'.length = vs.length) {root root' : MetaInfo w} (hroot : s.root = some root)
    (hroot' : s'.root = some root') (hf : INDEX_SIZE < fuel) {i : ℕ} (h1 : 1 ≤ i)
    (h2 : i ≤ vs.length) : ∃ a b,
      s.snapshot.getSample fuel i s.storage = (.ok (some a), s.storage) ∧
      s'.snapshot.getSample fuel i s'.storage = (.ok (some b), s'.storage) ∧
      (a.compare H b = .ok .identical ↔ root.hash = root'.hash) ∧
      (root.hash ≠ root'.hash → ∃ d, a.compare H b = .ok (.divergent d) ∧
        Divergence H vs vs' i d ∧
        (CoversDifferences H vs vs' d ∨
          HashCollision H (buildInputs B H L vs) (buildInputs B' H L' vs'))) := by
  have hs := h.slateOf
  have hs' := h'.slateOf
  have hn : 1 ≤ vs.length := h1.trans h2
  have hsample := hs.view.getSample_eq hf i
  have hsample' := hs'.view.getSample_eq hf i
  have hr := hs.root_eq
  have hr' := hs'.root_eq
  rw [hlen] at hsample' hr'
  rw [if_pos ⟨h1, h2⟩] at hsample hsample'
  rw [hroot, if_pos hn, Option.some.injEq] at hr
  rw [hroot', if_pos hn, Option.some.injEq] at hr'
  obtain ⟨heq, hne⟩ := compare_sampleOf H (payload vs) (payload vs') hn hs.lt h1 h2
  refine ⟨_, _, hsample, hsample', ?_, fun hdiff => ?_⟩
  · rw [hr, hr', nodeInfo_hash, nodeInfo_hash]
    refine ⟨fun hid => ?_, heq⟩
    by_contra hcon
    obtain ⟨d, hd, -⟩ := hne hcon
    rw [hd, Except.ok.injEq] at hid
    exact absurd hid Prove.noConfusion
  · rw [hr, hr', nodeInfo_hash, nodeInfo_hash] at hdiff
    obtain ⟨d, hd, hparts⟩ := hne hdiff
    refine ⟨d, hd, divergence_of_parts hs.lt h1 h2 hdiff hparts, ?_⟩
    refine (separates_of_slates h h' hlen hn).imp_left fun hsep k hk1 hk2 hkne => ?_
    have hu := Tree.leftPerfect_upTo hn
    -- the part around the way that holds the leaf must differ, for its leaf does
    obtain ⟨p, hp, hpk⟩ := hu.exists_mem_parts i (m := k) (by rwa [Tree.lo_upTo hn])
      (by rwa [Tree.hi_upTo hn])
    have hsub := Tree.sub_of_mem_parts hp
    obtain ⟨h3, h4⟩ := sub_upTo hn hs.lt hsub
    refine ⟨p.label, (hparts.mem_iff _).mpr ⟨p, hp, rfl, fun hpe => hkne ?_⟩,
      (contains_iff h3 h4).mpr hpk⟩
    exact hsep p hsub hpe k ((MerkleScheme.sub_leaf_iff h3).mpr hpk)

/-- Two slates of two payloads over different storages, which differ in the second one. -/
theorem compare_locates_two : ∃ (s : SlateOn .memKVS) (s' : SlateOn tinyBlock)
    (a b : StratumSample 1) (d : List (Index × ℕ)),
      s.snapshot.getSample 65 1 s.storage = (.ok (some a), s.storage) ∧
      s'.snapshot.getSample 65 1 s'.storage = (.ok (some b), s'.storage) ∧
      a.compare byteSum b = .ok (.divergent d) ∧ Divergence byteSum [[1], [2]] [[1], [3]] 1 d ∧
      (CoversDifferences byteSum [[1], [2]] [[1], [3]] d ∨
        HashCollision byteSum (buildInputs .memKVS byteSum 0 [[1], [2]])
          (buildInputs tinyBlock byteSum 1 [[1], [3]])) := by
  obtain ⟨s, h⟩ := exists_reaches_of_length_lt .memKVS byteSum 0 [[1], [2]]
    (by decide) (by decide)
  obtain ⟨s', h'⟩ := exists_reaches_of_length_lt tinyBlock byteSum 1 [[1], [3]]
    (by decide) (by decide)
  have hroot := h.slateOf.root_eq
  have hroot' := h'.slateOf.root_eq
  rw [if_pos (by decide), show ([[1], [2]] : List Bytes).length = 2 from rfl, upTo_two] at hroot
  rw [if_pos (by decide), show ([[1], [3]] : List Bytes).length = 2 from rfl, upTo_two] at hroot'
  have hne : treeHash byteSum (payload [[1], [2]]) (.node (.leaf 1) (.leaf 2)) ≠
      treeHash byteSum (payload [[1], [3]]) (.node (.leaf 1) (.leaf 2)) := by decide
  obtain ⟨a, b, ha, hb, -, hab⟩ := compare_locates h h' rfl hroot hroot' (i := 1)
    (show INDEX_SIZE < 65 by decide) (by decide) (by decide)
  obtain ⟨d, hd, hdivergence, hcovers⟩ := hab hne
  exact ⟨s, s', a, b, d, ha, hb, hd, hdivergence, hcovers⟩

/-! ### The search -/

/-- A sample taken from the current generation of a slate. -/
theorem sampleAt_eq {S : LogStorage (Entry w) Entry.Placed} {v : ℕ → Bytes} {n : ℕ}
    {s : Slate S.toStorage} (h : SlateOf S H L v n s) (hf : INDEX_SIZE < fuel) {i : ℕ} (h1 : 1 ≤ i)
    (h2 : i ≤ n) : sampleAt fuel n i s = (.ok (sampleOf H v n i), s) := by
  obtain ⟨snapshot, hsnap, hview⟩ := h.viewAt hf (h1.trans h2) (Nat.le_refl n)
  have hsample := getSample_eq (q := { cache := snapshot.cache }) hview.represents hview.lt
    hview.readable hf i
  rw [if_pos ⟨h1, h2⟩] at hsample
  rw [sampleAt, Prog.bind_ok hsnap, Prog.bind_ok (SlateOf.onStorage_keep hview.query_eq),
    Prog.bind_ok (SlateOf.onStorage_keep hsample)]
  rfl

/-- **One round of the search** leads to the part that holds the last difference. -/
theorem searchRound_eq {S T : LogStorage (Entry w) Entry.Placed} {v v' : ℕ → Bytes} {n m : ℕ}
    {s : Slate S.toStorage} {s' : Slate T.toStorage} (h : SlateOf S H L v n s)
    (h' : SlateOf T H L' v' n s') (hf : INDEX_SIZE < fuel)
    (hsep : MerkleScheme.Separates (scheme H) v' v (Tree.upTo n)) (hm1 : 1 ≤ m) (hm2 : m ≤ n)
    (hm : (scheme H).leafDigest v' m ≠ (scheme H).leafDigest v m)
    (hmax : ∀ k, m < k → k ≤ n → (scheme H).leafDigest v' k = (scheme H).leafDigest v k) {i : ℕ}
    (h1 : 1 ≤ i) (h2 : i ≤ n) : ∃ p ∈ Tree.parts i (Tree.upTo n), (p.lo ≤ m ∧ m ≤ p.hi) ∧
      searchRound H fuel n i (s, s') = (.ok p.label, (s, s')) := by
  have hn : 1 ≤ n := h1.trans h2
  have hu := Tree.leftPerfect_upTo hn
  have hne : treeHash H v' (Tree.upTo n) ≠ treeHash H v (Tree.upTo n) := fun heq =>
    hm (hsep _ .refl heq m ((MerkleScheme.sub_leaf_iff hu).mpr
      ⟨by rwa [Tree.lo_upTo hn], by rwa [Tree.hi_upTo hn]⟩))
  obtain ⟨d, hd, hparts⟩ := (compare_sampleOf H v' v hn h.lt h1 h2).2 hne
  obtain ⟨p, hlast, hp, hpm⟩ := MerkleScheme.last_differing (M := scheme H) hu hsep
    (by rwa [Tree.lo_upTo hn]) (by rwa [Tree.hi_upTo hn]) hm (by rwa [Tree.hi_upTo hn]) i
  refine ⟨p, hp, hpm, ?_⟩
  have hserver : sampleAt fuel (sampleOf H v n i).revision (sampleOf H v n i).leaf.i s' =
      (.ok (sampleOf H v' n i), s') := sampleAt_eq h' hf h1 h2
  rw [searchRound, Prog.bind_ok (Prog.onFst_run (sampleAt_eq h hf h1 h2) s'),
    Prog.bind_ok (Prog.onSnd_run hserver s)]
  simp only [hd, Prog.liftM_eq, Prog.lift_ok_bind, hparts.head hn hlast]
  rfl

/-- **The search** goes on as long as the part that holds the last difference has a height,
and this height drops with every round. -/
theorem differenceSearch_eq {S T : LogStorage (Entry w) Entry.Placed} {v v' : ℕ → Bytes} {n m : ℕ}
    {s : Slate S.toStorage} {s' : Slate T.toStorage} (h : SlateOf S H L v n s)
    (h' : SlateOf T H L' v' n s') (hf : INDEX_SIZE < fuel)
    (hsep : MerkleScheme.Separates (scheme H) v' v (Tree.upTo n)) (hm1 : 1 ≤ m) (hm2 : m ≤ n)
    (hm : (scheme H).leafDigest v' m ≠ (scheme H).leafDigest v m)
    (hmax : ∀ k, m < k → k ≤ n → (scheme H).leafDigest v' k = (scheme H).leafDigest v k) :
    ∀ (height rounds interactions i : ℕ) (p : Tree), 1 ≤ i → i ≤ n →
      p ∈ Tree.parts i (Tree.upTo n) → (p.lo ≤ m ∧ m ≤ p.hi) → p.height ≤ height → height < rounds →
      ∃ t, differenceSearch H fuel n rounds interactions i (s, s') =
        (.ok (m, interactions + t), (s, s')) ∧ t ≤ height + 1 := by
  have hn : 1 ≤ n := hm1.trans hm2
  have hu := Tree.leftPerfect_upTo hn
  intro height
  induction height with
  | zero =>
    intro rounds interactions i p h1 h2 hp hpm hheight hrounds
    obtain ⟨rounds, rfl⟩ := Nat.exists_eq_succ_of_ne_zero hrounds.ne'
    obtain ⟨q, hq, hqm, hround⟩ := searchRound_eq h h' hf hsep hm1 hm2 hm hmax h1 h2
    obtain rfl := hu.parts_disjoint hq hp hqm hpm
    have hq0 : q.label = (m, 0) := by
      cases q with
      | leaf k =>
        obtain rfl : m = k := le_antisymm hpm.2 hpm.1
        rfl
      | node l r => exact absurd hheight (by have := label_node_ne (l := l) (r := r); omega)
    refine ⟨1, ?_, Nat.le_refl 1⟩
    rw [hq0] at hround
    rw [differenceSearch, Prog.bind_ok hround]
    rfl
  | succ height ih =>
    intro rounds interactions i p h1 h2 hp hpm hheight hrounds
    obtain ⟨rounds, rfl⟩ := Nat.exists_eq_succ_of_ne_zero (Nat.ne_zero_of_lt hrounds)
    obtain ⟨q, hq, hqm, hround⟩ := searchRound_eq h h' hf hsep hm1 hm2 hm hmax h1 h2
    obtain rfl := hu.parts_disjoint hq hp hqm hpm
    rw [differenceSearch, Prog.bind_ok hround]
    cases q with
    | leaf k =>
      obtain rfl : m = k := le_antisymm hpm.2 hpm.1
      exact ⟨1, rfl, by omega⟩
    | node l r =>
      -- the next cut goes through the last leaf of this part
      have hsub := Tree.sub_of_mem_parts hq
      have hqp := hsub.leftPerfect hu
      have hhi := hsub.hi_le hu
      rw [Tree.hi_upTo hn] at hhi
      obtain ⟨p', hp', hpm'⟩ := hu.exists_mem_parts (Tree.node l r).hi (m := m)
        (by rwa [Tree.lo_upTo hn]) (by rwa [Tree.hi_upTo hn])
      have hlow := Tree.height_lt_of_mem_parts
        (hu.mem_parts_sub hsub hqp.lo_le_hi (Nat.le_refl _) hp' hqm hpm')
      obtain ⟨t, ht, htle⟩ := ih rounds (interactions + 1) _ p' hqp.hi_pos hhi hp' hpm' (by omega)
        (by omega)
      refine ⟨t + 1, ?_, by omega⟩
      change (if (Tree.node l r).height = 0 then
        (pure ((Tree.node l r).hi, interactions + 1) :
          Run (Slate S.toStorage × Slate T.toStorage) (Index × ℕ))
        else differenceSearch H fuel n rounds (interactions + 1) (Tree.node l r).hi) (s, s') = _
      rw [if_neg label_node_ne, ht, Nat.add_assoc, Nat.add_comm 1]

/-- **The search for a difference converges.** On two slates with as many entries and
different roots, from any start and with at least as many rounds as the trees are high, the
search ends within this number of rounds with the last index whose leaf hashes differ – or
there is a collision between what was hashed for the two slates. -/
theorem differenceSearch_converges (h : Reaches B H L vs s) (h' : Reaches B' H L' vs' s')
    (hlen : vs'.length = vs.length) {root root' : MetaInfo w} (hroot : s.root = some root)
    (hroot' : s'.root = some root') (hne : root.hash ≠ root'.hash) (hf : INDEX_SIZE < fuel)
    {height rounds start : ℕ} (hheight : ceilLog2 vs.length = .ok height)
    (hrounds : max 1 height ≤ rounds) (h1 : 1 ≤ start) (h2 : start ≤ vs.length) :
    (∃ m t, differenceSearch H fuel vs.length rounds 0 start (s, s') = (.ok (m, t), (s, s')) ∧
      t ≤ max 1 height ∧ 1 ≤ m ∧ m ≤ vs.length ∧ LeavesDiffer H vs vs' m ∧
      ∀ k, m < k → k ≤ vs.length → ¬LeavesDiffer H vs vs' k) ∨
    HashCollision H (buildInputs B' H L' vs') (buildInputs B H L vs) := by
  have hs := h.slateOf
  have hs' := h'.slateOf
  rw [hlen] at hs'
  have hn : 1 ≤ vs.length := h1.trans h2
  have hu := Tree.leftPerfect_upTo hn
  have hr := hs.root_eq
  have hr' := hs'.root_eq
  rw [hroot, if_pos hn, Option.some.injEq] at hr
  rw [hroot', if_pos hn, Option.some.injEq] at hr'
  rw [hr, hr', nodeInfo_hash, nodeInfo_hash] at hne
  rw [ceilLog2_eq hn hs.lt.le, ← Tree.height_upTo hn, Except.ok.injEq] at hheight
  have hsep := separates_of_slates h' h hlen.symm (by rwa [hlen])
  rw [hlen] at hsep
  refine hsep.imp_left fun hsep => ?_
  -- the last index whose leaf hashes differ
  obtain ⟨k, hk, hkne⟩ := MerkleScheme.exists_leafDigest_ne (M := scheme H) hne
  have hk' := (MerkleScheme.sub_leaf_iff hu).mp hk
  rw [Tree.lo_upTo hn, Tree.hi_upTo hn] at hk'
  classical
  obtain ⟨m, hmk, hmn, hm, hmax⟩ : ∃ m, k ≤ m ∧ m ≤ vs.length ∧ LeavesDiffer H vs vs' m ∧
      ∀ j, m < j → j ≤ vs.length → ¬LeavesDiffer H vs vs' j :=
    ⟨Nat.findGreatest (LeavesDiffer H vs vs') vs.length, Nat.le_findGreatest hk'.2 hkne,
      Nat.findGreatest_le _, Nat.findGreatest_spec hk'.2 hkne,
      fun _ => Nat.findGreatest_is_greatest⟩
  have hm1 : 1 ≤ m := hk'.1.trans hmk
  obtain ⟨p, hp, hpm⟩ := hu.exists_mem_parts start (m := m) (by rwa [Tree.lo_upTo hn])
    (by rwa [Tree.hi_upTo hn])
  have hpheight : p.height + 1 ≤ max 1 height := by
    cases hT : Tree.upTo vs.length with
    | leaf i =>
      rw [hT] at hp
      rw [List.mem_singleton.mp hp]
      exact Nat.le_max_left _ _
    | node l r =>
      rw [hT] at hp hheight
      have hlow := Tree.height_lt_of_mem_parts hp
      omega
  obtain ⟨t, ht, htle⟩ := differenceSearch_eq hs hs' hf hsep hm1 hmn (fun heq => hm heq.symm)
    (fun j hj1 hj2 => (not_not.mp (hmax j hj1 hj2)).symm) p.height rounds 0 start p h1 h2 hp hpm
    (Nat.le_refl _) (by omega)
  rw [Nat.zero_add] at ht
  exact ⟨m, t, ht, htle.trans hpheight, hm1, hmn, hm, hmax⟩

/-- Two slates that differ in the second of two payloads: one round is enough. -/
theorem differenceSearch_converges_two : ∃ s s' : SlateOn .memKVS,
    (∃ m t, differenceSearch byteSum 65 2 1 0 1 (s, s') = (.ok (m, t), (s, s')) ∧ t ≤ max 1 1 ∧
      1 ≤ m ∧ m ≤ 2 ∧ LeavesDiffer byteSum [[1], [2]] [[1], [3]] m ∧
      ∀ k, m < k → k ≤ 2 → ¬LeavesDiffer byteSum [[1], [2]] [[1], [3]] k) ∨
    HashCollision byteSum (buildInputs .memKVS byteSum 0 [[1], [3]])
      (buildInputs .memKVS byteSum 0 [[1], [2]]) := by
  obtain ⟨s, h⟩ := exists_reaches_of_length_lt .memKVS byteSum 0 [[1], [2]]
    (by decide) (by decide)
  obtain ⟨s', h'⟩ := exists_reaches_of_length_lt .memKVS byteSum 0 [[1], [3]]
    (by decide) (by decide)
  have hroot := h.slateOf.root_eq
  have hroot' := h'.slateOf.root_eq
  rw [if_pos (by decide), show ([[1], [2]] : List Bytes).length = 2 from rfl, upTo_two] at hroot
  rw [if_pos (by decide), show ([[1], [3]] : List Bytes).length = 2 from rfl, upTo_two] at hroot'
  have hne : treeHash byteSum (payload [[1], [2]]) (.node (.leaf 1) (.leaf 2)) ≠
      treeHash byteSum (payload [[1], [3]]) (.node (.leaf 1) (.leaf 2)) := by decide
  exact ⟨s, s', differenceSearch_converges h h' rfl hroot hroot' hne
    (show INDEX_SIZE < 65 by decide) rfl (by decide) (by decide) (by decide)⟩

end Slates

end StratifiedHashTree
