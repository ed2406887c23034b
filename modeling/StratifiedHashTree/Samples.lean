import StratifiedHashTree.HashInputs
import StratifiedHashTree.Snapshots

/-!
# Stratum samples prove membership

The two sides of a sample. A slate can give one for each of its indices, and it leads to the
root of the slate (`StratifiedHashTree.getSample_complete`): the walk that collects it, the
recursion that checks it and the one that counts it follow the same way through the tree.
And a sample that leads to the root of a slate says the truth about it, whoever made it up
and whatever revision it claims to be of – or a collision comes out
(`StratifiedHashTree.sample_binding`).
-/

namespace StratifiedHashTree

open Outcome Formula FormulaTree

variable {w : ℕ} {B : Backend w} {H : HashFn w} {L fuel : ℕ} {vs : List Bytes} {s : SlateOn B}

/-! ### The sample of the tree -/

section SampleOf

variable {v : ℕ → Bytes} {n i : ℕ}

/-- The witnesses are the siblings, with their Merkle hashes. -/
theorem lookup_witnessMap (hn : 1 ≤ n) (hb : n < 2 ^ 64) (h1 : 1 ≤ i) (h2 : i ≤ n) (x : Index × ℕ)
    (h : Hash w) : (sampleOf H v n i).witnesses.lookup x = some h ↔
      IsSibling n i x ∧ merkleHash H v x.1 x.2 = .ok h := by
  have hu := Tree.leftPerfect_upTo hn
  have hparts : ∀ {t : Tree}, t ∈ Tree.siblings i (Tree.upTo n) → t ∈ Tree.parts i (Tree.upTo n) :=
    fun ht => (hu.mem_parts (by rwa [Tree.lo_upTo hn]) (by rwa [Tree.hi_upTo hn])).mpr (Or.inr ht)
  have hinj : ∀ t ∈ Tree.siblings i (Tree.upTo n), ∀ u ∈ Tree.siblings i (Tree.upTo n),
      t.label = u.label → t = u :=
    fun t ht u hu' heq => hu.parts_label_injective (hparts ht) (hparts hu') heq
  have hmerkle : ∀ {t : Tree}, t ∈ Tree.siblings i (Tree.upTo n) →
      merkleHash H v t.label.1 t.label.2 = .ok (treeHash H v t) := by
    intro t ht
    obtain ⟨h3, h4⟩ := sub_upTo hn hb (Tree.sub_of_mem_parts (hparts ht))
    exact merkleHash_label h3 h4
  rw [isSibling_iff hn hb h1 h2, sampleOf, witnessMap]
  constructor
  · intro hlookup
    obtain ⟨t, ht, rfl, rfl⟩ := (lookup_mapOf_eq_some
      (fun t ht u hu' heq => by rw [hinj t ht u hu' heq])).mp hlookup
    exact ⟨⟨t, ht, rfl⟩, hmerkle ht⟩
  · rintro ⟨⟨t, ht, rfl⟩, hh⟩
    rw [hmerkle ht, Except.ok.injEq] at hh
    rw [← hh]
    exact lookup_mapOf (fun t ht u hu' heq => by rw [hinj t ht u hu' heq]) ht

/-- The recursion that counts goes down the same way. -/
theorem branchCount_eq {t : Tree} (ht : t.LeftPerfect) : ∀ (fuel count : ℕ), t.hi < 2 ^ 64 →
    t.height < fuel → t.lo ≤ i → i ≤ t.hi → count + t.height < 2 ^ 8 →
    branchCount i fuel t.hi t.height count = .ok (count + (Tree.siblings i t).length) := by
  induction ht with
  | @leaf k hk =>
    intro fuel count hb hf hlo hhi hc
    obtain ⟨fuel, rfl⟩ := Nat.exists_eq_succ_of_ne_zero (Nat.ne_zero_of_lt hf)
    rw [branchCount, if_pos (show (Tree.leaf k).height = 0 from rfl)]
    rfl
  | @node l r hl hr hp hle ha hd ihl ihr =>
    have hlr : (Tree.node l r).LeftPerfect := .node hl hr hp hle ha hd
    intro fuel count hb hf hlo hhi hc
    obtain ⟨fuel, rfl⟩ := Nat.exists_eq_succ_of_ne_zero (Nat.ne_zero_of_lt hf)
    have h1 := hlr.hi_left_lt
    have h2 := Tree.height_left_lt l r
    have h3 := Tree.height_right_lt l r
    rw [Tree.hi_node] at hb hhi
    rw [Tree.lo_node] at hlo
    have hcl : contains l.label.1 l.label.2 i = _ := contains_label hl (h1.trans hb) i
    have hcr : contains r.label.1 r.label.2 i = _ := contains_label hr hb i
    rw [branchCount, if_neg label_node_ne, subnodesOf_label hlr hb, ok_bind]
    simp only [addBits_of_lt (show count + 1 < 2 ^ 8 by omega), hcl, hcr, ok_bind]
    by_cases hk : i ≤ l.hi
    · rw [if_pos (decide_eq_true ⟨hlo, hk⟩), Tree.siblings_left hk, List.length_cons]
      have h4 := ihl fuel (count + 1) (h1.trans hb) (by omega) hlo hk (by omega)
      rw [show count + ((Tree.siblings i l).length + 1) =
        count + 1 + (Tree.siblings i l).length by omega]
      exact h4
    · have hin : r.lo ≤ i ∧ i ≤ r.hi := ⟨by have := hlr.lo_right; omega, hhi⟩
      rw [if_neg (by simpa using fun _ => by omega), debugAssert_of (decide_eq_true hin), ok_bind,
        Tree.siblings_right hk, List.length_append, List.length_singleton]
      have h4 := ihr fuel (count + 1) hb (by omega) hin.1 hhi (by omega)
      rw [show count + ((Tree.siblings i r).length + 1) =
        count + 1 + (Tree.siblings i r).length by omega]
      exact h4

/-- **The size of a sample** is the number of siblings. -/
theorem stratumSampleSize_eq (hn : 1 ≤ n) (hb : n < 2 ^ 64) (h1 : 1 ≤ i) (h2 : i ≤ n) :
    stratumSampleSize n i = .ok (Tree.siblings i (Tree.upTo n)).length := by
  have hu := Tree.leftPerfect_upTo hn
  have hhi := Tree.hi_upTo hn
  have hlo := Tree.lo_upTo hn
  have h64 := height_le_64 hu (by rwa [hhi])
  have hc := (contains_iff (k := i) hu (by rwa [hhi])).mpr ⟨by rwa [hlo], by rwa [hhi]⟩
  have hcount := branchCount_eq hu (i := i) ((Tree.upTo n).height + 1) 0
    (by rwa [hhi]) (Nat.lt_succ_self _) (by rwa [hlo]) (by rwa [hhi]) (by omega)
  rw [Nat.zero_add] at hcount
  rw [stratumSampleSize, rootOf_label hn hb, ok_bind]
  simp only [hc, ok_bind, if_true]
  exact hcount

/-- There are as many witnesses as siblings. -/
theorem card_witnesses (hn : 1 ≤ n) :
    (sampleOf H v n i).witnesses.keys.card = (Tree.siblings i (Tree.upTo n)).length := by
  have hu := Tree.leftPerfect_upTo hn
  have hsorted := hu.siblings_sorted i
  have hne : (Tree.siblings i (Tree.upTo n)).Pairwise fun p q => p.label ≠ q.label := by
    refine hsorted.imp_of_mem fun {p q} hp hq hlt heq => ?_
    have h1 := ((Tree.sub_of_mem_siblings hp).leftPerfect hu).lo_le_hi
    have h2 : p.hi = q.hi := congrArg Prod.fst heq
    omega
  have hnodup : ((Tree.siblings i (Tree.upTo n)).map Tree.label).Nodup :=
    List.pairwise_map.mpr hne
  have hinj : ∀ t ∈ Tree.siblings i (Tree.upTo n), ∀ u ∈ Tree.siblings i (Tree.upTo n),
      t.label = u.label → treeHash H v t = treeHash H v u := by
    intro t ht u hu' heq
    rcases eq_or_rel_of_pairwise hne ht hu' with h1 | h1 | h1
    · rw [h1]
    · exact absurd heq h1
    · exact absurd heq.symm h1
  have hkeys : (sampleOf H v n i).witnesses.keys =
      ((Tree.siblings i (Tree.upTo n)).map Tree.label).toFinset := by
    refine Finset.ext fun x => ?_
    rw [sampleOf, witnessMap, mem_keys_mapOf hinj, List.mem_toFinset, List.mem_map]
  rw [hkeys, List.toFinset_card_of_nodup hnodup, List.length_map]

/-- **The sample of the tree leads to its root.** -/
theorem rootHash_sampleOf (hn : 1 ≤ n) (hb : n < 2 ^ 64) (h1 : 1 ≤ i) (h2 : i ≤ n) :
    (sampleOf H v n i).rootHash H = .ok (treeHash H v (Tree.upTo n)) := by
  have hu := Tree.leftPerfect_upTo hn
  refine eq_ok_of_toOption ((rootHash_toOption hn hb).trans ?_)
  refine MerkleScheme.climb_complete (M := scheme H) hu ((Tree.lo_upTo hn).le.trans h1)
    (h2.trans (Tree.hi_upTo hn).ge) fun t ht => ?_
  obtain ⟨h3, h4⟩ := sub_upTo hn hb (Tree.sub_of_mem_siblings ht)
  exact (lookup_witnessMap hn hb h1 h2 t.label _).mpr
    ⟨(isSibling_iff hn hb h1 h2).mpr ⟨t, ht, rfl⟩, merkleHash_label h3 h4⟩

end SampleOf

/-! ### Completeness -/

/-- What a sample of an index of a slate has to be. -/
structure CompleteSample (H : HashFn w) (vs : List Bytes) (i : Index) (sample : StratumSample w) :
    Prop where
  revision_eq : sample.revision = vs.length
  leaf_eq : sample.leaf = ⟨i, payload vs i⟩
  witnesses_iff : ∀ (x : Index × ℕ) (h : Hash w), sample.witnesses.lookup x = some h ↔
    IsSibling vs.length i x ∧ merkleHash H (payload vs) x.1 x.2 = .ok h
  size_eq : stratumSampleSize vs.length i = .ok sample.witnesses.keys.card
  size_le : ∃ height, ceilLog2 vs.length = .ok height ∧ sample.witnesses.keys.card ≤ height

theorem completeSample_sampleOf {i : ℕ} (hb : vs.length < 2 ^ 64) (h1 : 1 ≤ i)
    (h2 : i ≤ vs.length) : CompleteSample H vs i (sampleOf H (payload vs) vs.length i) := by
  have hn : 1 ≤ vs.length := h1.trans h2
  refine ⟨rfl, rfl, lookup_witnessMap hn hb h1 h2, ?_, ?_⟩
  · rw [stratumSampleSize_eq hn hb h1 h2, card_witnesses hn]
  · refine ⟨_, ceilLog2_eq hn hb.le, ?_⟩
    rw [card_witnesses hn, ← Tree.height_upTo hn]
    exact Tree.length_siblings_le i _

/-- **Samples are complete.** A slate gives no sample for an index it does not have, and for
any other one the leaf with the Merkle hashes of the siblings on its way; and this leads
to the root of the slate. -/
theorem getSample_complete (h : Reaches B H L vs s) (hf : INDEX_SIZE < fuel) (i : ℕ) :
    (i = 0 ∨ vs.length < i →
      s.snapshot.getSample fuel i s.storage = (.ok none, s.storage)) ∧
    (1 ≤ i ∧ i ≤ vs.length → ∃ sample root,
      s.snapshot.getSample fuel i s.storage = (.ok (some sample), s.storage) ∧
      CompleteSample H vs i sample ∧ s.root = some root ∧ sample.rootHash H = .ok root.hash) := by
  have hs := h.slateOf
  have hsample := hs.view.getSample_eq hf i
  constructor
  · intro hi
    rw [hsample, if_neg (by omega)]
  · rintro ⟨h1, h2⟩
    have hn : 1 ≤ vs.length := h1.trans h2
    refine ⟨sampleOf H (payload vs) vs.length i,
      nodeInfo H (payload vs) (positionOf B.log H (payload vs)) (Tree.upTo vs.length), ?_,
      completeSample_sampleOf hs.lt h1 h2, ?_, rootHash_sampleOf hn hs.lt h1 h2⟩
    · rw [hsample, if_pos ⟨h1, h2⟩]
    · rw [hs.root_eq, if_pos hn]

/-- The third of five payloads, in a block storage. -/
theorem getSample_complete_five : ∃ s : SlateOn tinyBlock,
    Reaches tinyBlock byteSum 1 [[1], [], [2, 3], [4], [5]] s ∧ ∃ sample root,
      s.snapshot.getSample 65 3 s.storage = (.ok (some sample), s.storage) ∧
      CompleteSample byteSum [[1], [], [2, 3], [4], [5]] 3 sample ∧ s.root = some root ∧
      sample.rootHash byteSum = .ok root.hash := by
  obtain ⟨s, h⟩ := exists_reaches_of_length_lt tinyBlock byteSum 1 [[1], [], [2, 3], [4], [5]]
    (by decide) (by decide)
  exact ⟨s, h, (getSample_complete h (show INDEX_SIZE < 65 by decide) 3).2 (by decide)⟩

/-! ### Binding -/

/-- **Samples are binding.** A sample of any revision, with any leaf and any witnesses, that
leads to the root of a slate has a leaf of the slate; otherwise there is a collision
between what is hashed for the sample and what was hashed for the slate. -/
theorem sample_binding (h : Reaches B H L vs s) {root : MetaInfo w} (hroot : s.root = some root)
    (sample : StratumSample w) (hrevision : sample.revision < 2 ^ 64)
    (hsample : sample.rootHash H = .ok root.hash) :
    (1 ≤ sample.leaf.i ∧ sample.leaf.i ≤ vs.length ∧
      sample.leaf.value = payload vs sample.leaf.i) ∨
    HashCollision H (sample.hashInputs H) (buildInputs B H L vs) := by
  have hs := h.slateOf
  rw [hs.root_eq] at hroot
  by_cases hn : 1 ≤ vs.length
  · rw [if_pos hn, Option.some.injEq] at hroot
    -- there is no root hash of a revision 0
    have hm : 1 ≤ sample.revision := by
      by_contra hcon
      have hzero : sample.revision = 0 := Nat.eq_zero_of_not_pos hcon
      rw [StratumSample.rootHash, hzero] at hsample
      exact absurd hsample (by simp [rootOf, debugAssert, Outcome.panic])
    have hclimb := rootHash_toOption (H := H) hm hrevision
    rw [hsample, ← hroot] at hclimb
    have hu := Tree.leftPerfect_upTo hm
    have ht := Tree.leftPerfect_upTo hn
    rcases MerkleScheme.climb_binding (M := scheme H) hu ht
      (by rw [Tree.lo_upTo hm, Tree.lo_upTo hn])
      (height_le_64 hu (by rwa [Tree.hi_upTo hm]))
      (height_le_64 ht (by rw [Tree.hi_upTo hn]; exact hs.lt)) hclimb.symm with ⟨h1, h2, h3⟩ | hc
    · rw [Tree.lo_upTo hn] at h1
      rw [Tree.hi_upTo hn] at h2
      exact Or.inl ⟨h1, h2, h3⟩
    · exact Or.inr (hc.mono (climbInputs_subset hm hrevision)
        (inputs_subset_buildInputs L hs.fits hn))
  · rw [if_neg hn] at hroot
    exact absurd hroot.symm (Option.some_ne_none root)

theorem upTo_two : Tree.upTo 2 = .node (.leaf 1) (.leaf 2) := by
  have hsplit : Tree.split 2 = 1 := by decide
  rw [Tree.upTo, Tree.grow_of_two_le 0 (Nat.le_refl 2), hsplit, Tree.grow_one, Tree.grow_one]

/-- Hashes that add up bytes are not binding: a leaf with another value leads to the root of
two payloads, and there is the collision. -/
theorem sample_binding_two :
    HashCollision byteSum
      (StratumSample.hashInputs byteSum { revision := 1, leaf := ⟨1, [4]⟩, witnesses := ∅ })
      (buildInputs .memKVS byteSum 0 [[1], [2]]) := by
  obtain ⟨s, h⟩ := exists_reaches_of_length_lt .memKVS byteSum 0 [[1], [2]]
    (by decide) (by decide)
  have hroot := h.slateOf.root_eq
  rw [if_pos (by decide)] at hroot
  refine (sample_binding h hroot { revision := 1, leaf := ⟨1, [4]⟩, witnesses := ∅ } (by decide)
    ?_).resolve_left fun hleaf => absurd hleaf.2.2 (by decide)
  rw [nodeInfo_hash, show ([[1], [2]] : List Bytes).length = 2 from rfl, upTo_two]
  rfl

end StratifiedHashTree
