import StratifiedHashTree.Differences

/-!
# Samples from outside

A sample that another party has sent may have any revision, any leaf and any witnesses.
`StratumSample.rootHash` notices a leaf that the revision does not have, and reports an error.
It does not notice that a witness is missing, or that there is no tree of the revision 0: then
it panics. And `StratumSample.compare` panics when the other sample lacks one of the witnesses
of this one, needed or not.

Both are said exactly by `StratifiedHashTree.StratumSample.replies_iff`.
-/

namespace StratifiedHashTree

open Outcome Formula FormulaTree

variable {w : ℕ} {H : HashFn w} {α : Type}

/-- A value or an error, but no panic. -/
def Replies (outcome : Result α) : Prop := (∃ a, outcome = .ok a) ∨ ∃ e, outcome = err e

theorem replies_ok (a : α) : Replies (.ok a) := Or.inl ⟨a, rfl⟩

theorem replies_err (e : Error) : Replies (err e : Result α) := Or.inr ⟨e, rfl⟩

theorem not_replies_panic (p : Panic) : ¬Replies (Outcome.panic p : Result α) := by
  rintro (⟨a, h⟩ | ⟨e, h⟩)
  · cases h
  · exact absurd (Except.error.inj h) (by simp)

namespace StratumSample

/-- The tree of the revision has the leaf. -/
def Contains (self : StratumSample w) : Prop := 1 ≤ self.leaf.i ∧ self.leaf.i ≤ self.revision

/-- Every sibling on the way to the leaf has a witness. -/
def Witnessed (self : StratumSample w) (t : Tree) : Prop :=
  ∀ s ∈ Tree.siblings self.leaf.i t, s.label ∈ self.witnesses

/-- The root to which the leaf and the witnesses lead, along the tree of the revision. -/
def climbedRoot (H : HashFn w) (self : StratumSample w) : Option (Hash w) :=
  (scheme H).climb self.leaf.i self.leaf.value self.witnesses.lookup (Tree.upTo self.revision)

variable {self : StratumSample w}

theorem witnessed_left {l r : Tree} (h : self.leaf.i ≤ l.hi) :
    self.Witnessed (.node l r) ↔ r.label ∈ self.witnesses ∧ self.Witnessed l := by
  rw [Witnessed, Tree.siblings_left h, List.forall_mem_cons, Witnessed]

theorem witnessed_right {l r : Tree} (h : ¬self.leaf.i ≤ l.hi) :
    self.Witnessed (.node l r) ↔ self.Witnessed r ∧ l.label ∈ self.witnesses := by
  rw [Witnessed, Tree.siblings_right h, List.forall_mem_append, List.forall_mem_singleton,
    Witnessed]

theorem unwrap_of_mem {x : Index × ℕ} (h : x ∈ self.witnesses) :
    ∃ d, (unwrap (self.witnesses.lookup x) : Result (Hash w)) = .ok d := by
  obtain ⟨d, hd⟩ := Finmap.mem_iff.mp h
  exact ⟨d, by rw [hd]; rfl⟩

theorem unwrap_of_not_mem {x : Index × ℕ} (h : x ∉ self.witnesses) :
    (unwrap (self.witnesses.lookup x) : Result (Hash w)) = Outcome.panic .unwrap := by
  rw [Finmap.lookup_eq_none.mpr h]
  rfl

/-- A leaf that is not in the tree is noticed at once. -/
theorem computeHash_outside {t : Tree} (ht : t.LeftPerfect) (hb : t.hi < 2 ^ 64) (fuel : ℕ)
    (hk : ¬(t.lo ≤ self.leaf.i ∧ self.leaf.i ≤ t.hi)) :
    ∃ e, self.computeHash H (fuel + 1) t.hi t.height = err e := by
  cases ht with
  | @leaf k hpos =>
    rw [computeHash, if_pos (show (Tree.leaf k).height = 0 from rfl), Tree.hi_leaf, if_neg]
    · exact ⟨_, rfl⟩
    · rintro rfl
      exact hk ⟨Nat.le_refl _, Nat.le_refl _⟩
  | @node l r hl hr hp hle ha hd =>
    have hlr : (Tree.node l r).LeftPerfect := .node hl hr hp hle ha hd
    have h1 := hlr.hi_left_lt
    have h2 := hlr.lo_right
    have h3 := hl.lo_le_hi
    rw [Tree.lo_node, Tree.hi_node] at hk
    rw [Tree.hi_node] at hb
    have hnot : ∀ k : ℕ, ¬(l.lo ≤ k ∧ k ≤ r.hi) →
        ¬(l.lo ≤ k ∧ k ≤ l.hi) ∧ ¬(r.lo ≤ k ∧ k ≤ r.hi) := fun k h => by omega
    obtain ⟨hkl, hkr⟩ := hnot _ hk
    have hcl : contains l.label.1 l.label.2 self.leaf.i = _ :=
      contains_label hl (h1.trans hb) self.leaf.i
    have hcr : contains r.label.1 r.label.2 self.leaf.i = _ := contains_label hr hb self.leaf.i
    rw [decide_eq_false hkl] at hcl
    rw [decide_eq_false hkr] at hcr
    rw [computeHash, if_neg label_node_ne, subnodesOf_label hlr hb, ok_bind]
    simp only [hcl, hcr, ok_bind]
    exact ⟨_, rfl⟩

/-- **A leaf that is in the tree**: its hash is computed when every witness is there, and there
is a panic otherwise. -/
theorem computeHash_inside {t : Tree} (ht : t.LeftPerfect) : ∀ {fuel : ℕ}, t.hi < 2 ^ 64 →
    t.height < fuel → t.lo ≤ self.leaf.i → self.leaf.i ≤ t.hi →
      (self.Witnessed t ∧ ∃ d, self.computeHash H fuel t.hi t.height = .ok d) ∨
        (¬self.Witnessed t ∧ self.computeHash H fuel t.hi t.height = Outcome.panic .unwrap) := by
  induction ht with
  | @leaf k hk =>
    intro fuel hb hf h1 h2
    obtain ⟨fuel, rfl⟩ := Nat.exists_eq_succ_of_ne_zero (Nat.ne_zero_of_lt hf)
    have hleaf : self.leaf.i = k := le_antisymm h2 h1
    refine Or.inl ⟨fun s hs => absurd hs List.not_mem_nil, self.leaf.hash H, ?_⟩
    rw [computeHash, if_pos (show (Tree.leaf k).height = 0 from rfl), Tree.hi_leaf, if_pos hleaf]
  | @node l r hl hr hp hle ha hd ihl ihr =>
    have hlr : (Tree.node l r).LeftPerfect := .node hl hr hp hle ha hd
    intro fuel hb hf h1 h2
    obtain ⟨fuel, rfl⟩ := Nat.exists_eq_succ_of_ne_zero (Nat.ne_zero_of_lt hf)
    have h3 := hlr.hi_left_lt
    have h4 := Tree.height_left_lt l r
    have h5 := Tree.height_right_lt l r
    have h6 := hlr.lo_right
    rw [Tree.hi_node] at hb h2
    rw [Tree.lo_node] at h1
    have hcl : contains l.label.1 l.label.2 self.leaf.i = _ :=
      contains_label hl (h3.trans hb) self.leaf.i
    have hcr : contains r.label.1 r.label.2 self.leaf.i = _ := contains_label hr hb self.leaf.i
    rw [computeHash, if_neg label_node_ne, subnodesOf_label hlr hb, ok_bind]
    simp only [hcl, hcr, ok_bind]
    by_cases hk : self.leaf.i ≤ l.hi
    · rw [if_pos (decide_eq_true ⟨h1, hk⟩), witnessed_left hk]
      rcases ihl (h3.trans hb) (show l.height < fuel by omega) h1 hk with ⟨h7, d, h8⟩ | ⟨h7, h8⟩
      · have h8' : self.computeHash H fuel l.label.1 l.label.2 = .ok d := h8
        rw [h8', ok_bind]
        by_cases hwit : r.label ∈ self.witnesses
        · obtain ⟨d', hd'⟩ := unwrap_of_mem hwit
          rw [hd', ok_bind]
          exact Or.inl ⟨⟨hwit, h7⟩, _, rfl⟩
        · rw [unwrap_of_not_mem hwit]
          exact Or.inr ⟨fun h => hwit h.1, rfl⟩
      · have h8' : self.computeHash H fuel l.label.1 l.label.2 = Outcome.panic .unwrap := h8
        rw [h8']
        exact Or.inr ⟨fun h => h7 h.2, rfl⟩
    · have hkr : r.lo ≤ self.leaf.i ∧ self.leaf.i ≤ r.hi := ⟨h6.le.trans (Nat.lt_of_not_le hk), h2⟩
      rw [if_neg (by simpa using fun _ => Nat.lt_of_not_le hk), if_pos (decide_eq_true hkr),
        witnessed_right hk]
      by_cases hwit : l.label ∈ self.witnesses
      · obtain ⟨d', hd'⟩ := unwrap_of_mem hwit
        rw [hd', ok_bind]
        rcases ihr hb (show r.height < fuel by omega) hkr.1 hkr.2 with ⟨h7, d, h8⟩ | ⟨h7, h8⟩
        · have h8' : self.computeHash H fuel r.label.1 r.label.2 = .ok d := h8
          rw [h8', ok_bind]
          exact Or.inl ⟨⟨h7, hwit⟩, _, rfl⟩
        · have h8' : self.computeHash H fuel r.label.1 r.label.2 = Outcome.panic .unwrap := h8
          rw [h8']
          exact Or.inr ⟨fun h => h7 h.1, rfl⟩
      · rw [unwrap_of_not_mem hwit]
        exact Or.inr ⟨fun h => hwit h.2, rfl⟩

/-! ### Exactly when there is a reply -/

/-- There is no tree of the revision 0. -/
theorem rootHash_zero (h : self.revision = 0) : self.rootHash H = Outcome.panic .assertion := by
  rw [rootHash, h]
  rfl

theorem rootHash_outside (hb : self.revision < 2 ^ 64) (hn : 1 ≤ self.revision)
    (h : ¬self.Contains) : ∃ e, self.rootHash H = err e := by
  have hu := Tree.leftPerfect_upTo hn
  have h1 := computeHash_outside (H := H) hu (by rwa [Tree.hi_upTo hn])
    (Tree.upTo self.revision).height (by rwa [Tree.lo_upTo hn, Tree.hi_upTo hn])
  rw [Tree.hi_upTo hn] at h1
  rw [rootHash, rootOf_eq hn hb, ok_bind]
  exact h1

theorem rootHash_inside (hb : self.revision < 2 ^ 64) (h : self.Contains) :
    (self.Witnessed (Tree.upTo self.revision) ∧ ∃ d, self.rootHash H = .ok d) ∨
      (¬self.Witnessed (Tree.upTo self.revision) ∧
        self.rootHash H = Outcome.panic .unwrap) := by
  have hn : 1 ≤ self.revision := h.1.trans h.2
  have hu := Tree.leftPerfect_upTo hn
  have h1 := computeHash_inside (H := H) hu (by rwa [Tree.hi_upTo hn])
    (Nat.lt_succ_self (Tree.upTo self.revision).height)
    (by rw [Tree.lo_upTo hn]; exact h.1) (by rw [Tree.hi_upTo hn]; exact h.2)
  rw [Tree.hi_upTo hn] at h1
  rw [rootHash, rootOf_eq hn hb, ok_bind]
  exact h1

/-- **The sample is one that can be computed with**: there is a tree of its revision, and if
the leaf is in it, then the witnesses are there. -/
def Sound (self : StratumSample w) : Prop :=
  1 ≤ self.revision ∧ (self.Contains → self.Witnessed (Tree.upTo self.revision))

theorem replies_rootHash_iff (hb : self.revision < 2 ^ 64) :
    Replies (self.rootHash H) ↔ self.Sound := by
  by_cases hn : 1 ≤ self.revision
  · by_cases hc : self.Contains
    · rcases rootHash_inside (H := H) hb hc with ⟨h1, d, h2⟩ | ⟨h1, h2⟩
      · rw [h2]
        exact iff_of_true (replies_ok d) ⟨hn, fun _ => h1⟩
      · rw [h2]
        exact iff_of_false (not_replies_panic _) fun h => h1 (h.2 hc)
    · obtain ⟨e, h1⟩ := rootHash_outside (H := H) hb hn hc
      rw [h1]
      exact iff_of_true (replies_err e) ⟨hn, fun h => absurd h hc⟩
  · rw [rootHash_zero (Nat.eq_zero_of_not_pos hn)]
    exact iff_of_false (not_replies_panic _) fun h => hn h.1

/-- **The samples are ones that can be compared**: they are not of the same leaf and revision;
or they can be computed with, and if they lead to different roots of a tree with the leaf, the
other one has all witnesses of this one. -/
def Comparable (H : HashFn w) (self other : StratumSample w) : Prop :=
  self.revision = other.revision → self.leaf.i = other.leaf.i → self.Sound ∧ other.Sound ∧
    (self.Contains → self.climbedRoot H ≠ other.climbedRoot H →
      ∀ x ∈ self.witnesses, x ∈ other.witnesses)

/-- The root that is computed is the one to which the sample leads. -/
theorem climbedRoot_eq (hb : self.revision < 2 ^ 64) (hn : 1 ≤ self.revision) {d : Hash w}
    (h : self.rootHash H = .ok d) : self.climbedRoot H = some d := by
  rw [climbedRoot, ← rootHash_toOption hn hb, h]
  rfl

/-- The witnesses can be compared when the other sample has all of them. -/
theorem divergents_cases (H : HashFn w) (self other : StratumSample w) :
    ((∀ x ∈ self.witnesses, x ∈ other.witnesses) ∧
        ∃ nodes, self.divergents H other self.witnessKeys = .ok nodes) ∨
      ((¬∀ x ∈ self.witnesses, x ∈ other.witnesses) ∧
        self.divergents H other self.witnessKeys = Outcome.panic .explicit) := by
  have hkeys : (∀ x ∈ self.witnessKeys, x ∈ other.witnesses) ↔
      ∀ x ∈ self.witnesses, x ∈ other.witnesses :=
    forall_congr' fun x => imp_congr_left mem_witnessKeys
  by_cases h : ∀ x ∈ self.witnesses, x ∈ other.witnesses
  · exact Or.inl ⟨h, _, divergents_eq H (hkeys.mpr h)⟩
  · exact Or.inr ⟨h, divergents_panic H fun hall => h (hkeys.mp hall)⟩

theorem replies_compare_iff {other : StratumSample w} (hb : self.revision < 2 ^ 64) :
    Replies (self.compare H other) ↔ self.Comparable H other := by
  rw [compare]
  by_cases hrevision : self.revision = other.revision
  · rw [if_neg (not_not.mpr hrevision)]
    by_cases hleaf : self.leaf.i = other.leaf.i
    · rw [if_neg (not_not.mpr hleaf)]
      have hb' : other.revision < 2 ^ 64 := hrevision ▸ hb
      have hcontains : self.Contains ↔ other.Contains := by
        rw [Contains, Contains, hleaf, hrevision]
      have hcomparable : self.Comparable H other ↔ self.Sound ∧ other.Sound ∧
          (self.Contains → self.climbedRoot H ≠ other.climbedRoot H →
            ∀ x ∈ self.witnesses, x ∈ other.witnesses) :=
        ⟨fun h => h hrevision hleaf, fun h _ _ => h⟩
      rw [hcomparable]
      by_cases hn : 1 ≤ self.revision
      · have hn' : 1 ≤ other.revision := hrevision ▸ hn
        by_cases hc : self.Contains
        · have hc' := hcontains.mp hc
          rcases rootHash_inside (H := H) hb hc with ⟨h1, d, h2⟩ | ⟨h1, h2⟩
          · rcases rootHash_inside (H := H) hb' hc' with ⟨h3, d', h4⟩ | ⟨h3, h4⟩
            · rw [h2, h4, ok_bind, ok_bind, climbedRoot_eq hb hn h2, climbedRoot_eq hb' hn' h4]
              by_cases hd : d = d'
              · rw [if_pos hd]
                exact iff_of_true (replies_ok _) ⟨⟨hn, fun _ => h1⟩, ⟨hn', fun _ => h3⟩,
                  fun _ hne => absurd (congrArg some hd) hne⟩
              · rw [if_neg hd]
                rcases divergents_cases H self other with ⟨h5, nodes, h6⟩ | ⟨h5, h6⟩
                · rw [h6, ok_bind]
                  exact iff_of_true (replies_ok _) ⟨⟨hn, fun _ => h1⟩, ⟨hn', fun _ => h3⟩,
                    fun _ _ => h5⟩
                · rw [h6]
                  refine iff_of_false (not_replies_panic _) fun h => h5 (h.2.2 hc fun heq => ?_)
                  exact hd (Option.some.inj heq)
            · rw [h2, h4, ok_bind]
              exact iff_of_false (not_replies_panic _) fun h => h3 (h.2.1.2 hc')
          · rw [h2]
            exact iff_of_false (not_replies_panic _) fun h => h1 (h.1.2 hc)
        · obtain ⟨e, h1⟩ := rootHash_outside (H := H) hb hn hc
          rw [h1]
          refine iff_of_true (replies_err e) ⟨⟨hn, fun h => absurd h hc⟩, ⟨hn', fun h => ?_⟩,
            fun h => absurd h hc⟩
          exact absurd (hcontains.mpr h) hc
      · rw [rootHash_zero (Nat.eq_zero_of_not_pos hn)]
        exact iff_of_false (not_replies_panic _) fun h => hn h.1.1
    · rw [if_pos hleaf]
      exact iff_of_true (replies_err _) fun _ h => absurd h hleaf
  · rw [if_pos hrevision]
    exact iff_of_true (replies_err _) fun h => absurd h hrevision

/-- **Samples from outside**: there is a reply for exactly the samples that can be computed
with, and for exactly those that can be compared; a panic otherwise. -/
theorem replies_iff (self other : StratumSample w) (hb : self.revision < 2 ^ 64) :
    (Replies (self.rootHash H) ↔ self.Sound) ∧
      (Replies (self.compare H other) ↔ self.Comparable H other) :=
  ⟨replies_rootHash_iff hb, replies_compare_iff hb⟩

/-- A sample of the first of two leaves that lacks the witness for the second one. -/
def unwitnessed : StratumSample 1 := { revision := 2, leaf := ⟨1, []⟩, witnesses := ∅ }

theorem replies_iff_unwitnessed :
    (Replies (unwitnessed.rootHash byteSum) ↔ unwitnessed.Sound) ∧
      (Replies (unwitnessed.compare byteSum unwitnessed) ↔
        unwitnessed.Comparable byteSum unwitnessed) :=
  replies_iff unwitnessed unwitnessed (by decide)

/-- **A missing witness is a panic**, of both operations. -/
theorem not_replies : ¬Replies (unwitnessed.rootHash byteSum) ∧
    ¬Replies (unwitnessed.compare byteSum unwitnessed) := by
  have h : unwitnessed.rootHash byteSum = Outcome.panic .unwrap := by decide +kernel
  have h' : unwitnessed.compare byteSum unwitnessed = Outcome.panic .unwrap := by decide +kernel
  exact ⟨by rw [h]; exact not_replies_panic _, by rw [h']; exact not_replies_panic _⟩

end StratumSample

end StratifiedHashTree
