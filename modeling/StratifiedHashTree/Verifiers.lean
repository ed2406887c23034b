import StratifiedHashTree.Branches
import StratifiedHashTree.Malformed

/-!
# Two ways to verify a leaf

A stratum sample is verified from the root downwards: the way to the leaf is looked for, and the
witnesses are fetched from a map by the names of the nodes. Values with branches are verified from
the leaf upwards: the branches are folded in, one after the other, and which of two nodes is the
left one is decided by their indices. The one never looks at the order of the witnesses, the other
never at the revision.

They are two programs for one computation, whatever hashes they are given. A sample has a root hash
exactly if the nodes beside the way to its leaf have witnesses, and these, as branches, lead to a
root with the same hash (`StratifiedHashTree.verifiers_agree`).
-/

namespace StratifiedHashTree

open Outcome Formula FormulaTree

variable {w : ℕ} {H : HashFn w}

namespace StratumSample

variable {self : StratumSample w}

/-- **A witness of a sample, as a branch.** -/
structure IsWitness (sample : StratumSample w) (x : Index × ℕ) (branch : Node w) : Prop where
  i_eq : branch.i = x.1
  j_eq : branch.j = x.2
  hash_eq : sample.witnesses.lookup x = some branch.hash

/-- The hash of a node on the way of a sample, whatever steps are left. -/
def Computes (H : HashFn w) (self : StratumSample w) (t : Tree) (d : Hash w) : Prop :=
  ∀ fuel, t.height < fuel → self.computeHash H fuel t.hi t.height = .ok d

theorem computes_leaf : self.Computes H (.leaf self.leaf.i) (self.leaf.hash H) := by
  intro fuel hf
  obtain ⟨fuel, rfl⟩ := Nat.exists_eq_succ_of_ne_zero (Nat.ne_zero_of_lt hf)
  rw [computeHash, if_pos (show (Tree.leaf self.leaf.i).height = 0 from rfl), Tree.hi_leaf,
    if_pos rfl]

section Nodes

variable {l r : Tree} {a b : Hash w}

/-- The way goes to the left, -/
theorem computes_left (h : (Tree.node l r).LeftPerfect) (hb : r.hi < 2 ^ 64)
    (hlo : l.lo ≤ self.leaf.i) (hhi : self.leaf.i ≤ l.hi) (ha : self.Computes H l a)
    (hwit : self.witnesses.lookup r.label = some b) :
    self.Computes H (.node l r) (a.combine H (Tree.node l r).height b) := by
  intro fuel hf
  obtain ⟨fuel, rfl⟩ := Nat.exists_eq_succ_of_ne_zero (Nat.ne_zero_of_lt hf)
  have hheight := Tree.height_left_lt l r
  have hin : contains l.label.1 l.label.2 self.leaf.i = _ :=
    contains_label h.left (h.hi_left_lt.trans hb) self.leaf.i
  have hleft : self.computeHash H fuel l.label.1 l.label.2 = .ok a := ha fuel (by omega)
  rw [decide_eq_true ⟨hlo, hhi⟩] at hin
  rw [computeHash, if_neg label_node_ne, subnodesOf_label h hb, ok_bind]
  simp only [hin, ok_bind, if_true, hleft, hwit]
  rfl

/-- or to the right. -/
theorem computes_right (h : (Tree.node l r).LeftPerfect) (hb : r.hi < 2 ^ 64)
    (hlo : r.lo ≤ self.leaf.i) (hhi : self.leaf.i ≤ r.hi) (hr : self.Computes H r b)
    (hwit : self.witnesses.lookup l.label = some a) :
    self.Computes H (.node l r) (a.combine H (Tree.node l r).height b) := by
  intro fuel hf
  obtain ⟨fuel, rfl⟩ := Nat.exists_eq_succ_of_ne_zero (Nat.ne_zero_of_lt hf)
  have hheight := Tree.height_right_lt l r
  have hlt : l.hi < self.leaf.i := by
    rw [h.lo_right] at hlo
    exact hlo
  have hout : contains l.label.1 l.label.2 self.leaf.i = _ :=
    contains_label h.left (h.hi_left_lt.trans hb) self.leaf.i
  have hin : contains r.label.1 r.label.2 self.leaf.i = _ := contains_label h.right hb self.leaf.i
  have hright : self.computeHash H fuel r.label.1 r.label.2 = .ok b := hr fuel (by omega)
  rw [decide_eq_false fun h => absurd h.2 (Nat.not_le.mpr hlt)] at hout
  rw [decide_eq_true ⟨hlo, hhi⟩] at hin
  rw [computeHash, if_neg label_node_ne, subnodesOf_label h hb, ok_bind]
  simp only [hout, hin, ok_bind, hright, hwit]
  rfl

end Nodes

/-! ### The way of a sample -/

section Ways

variable {n : ℕ} {x : Index × ℕ} {siblings : List (Index × ℕ)} {branches : List (Node w)}

/-- The branches of a way that is longer by a step. -/
theorem forall₂_isWitness_concat (h : List.Forall₂ self.IsWitness (siblings ++ [x]) branches) :
    ∃ before branch, branches = before ++ [branch] ∧
      List.Forall₂ self.IsWitness siblings before ∧ self.IsWitness x branch := by
  rw [← List.forall₂_reverse_iff, List.reverse_concat, List.forall₂_cons_left_iff] at h
  obtain ⟨branch, before, hx, h, heq⟩ := h
  refine ⟨before.reverse, branch, ?_, ?_, hx⟩
  · rw [← List.reverse_cons, ← heq, List.reverse_reverse]
  · rw [← List.forall₂_reverse_iff, List.reverse_reverse]
    exact h

/-- The witnesses can be told as branches where they are there. -/
theorem exists_branches_iff : ∀ {siblings : List (Index × ℕ)},
    (∃ branches, List.Forall₂ self.IsWitness siblings branches) ↔
      ∀ s ∈ siblings, s ∈ self.witnesses
  | [] => by simp
  | x :: siblings => by
    rw [List.forall_mem_cons, ← exists_branches_iff, Finmap.mem_iff]
    constructor
    · rintro ⟨branches, h⟩
      obtain ⟨branch, branches, hx, h, -⟩ := List.forall₂_cons_left_iff.mp h
      exact ⟨⟨branch.hash, hx.hash_eq⟩, branches, h⟩
    · rintro ⟨⟨d, hd⟩, branches, h⟩
      exact ⟨⟨x.1, x.2, d⟩ :: branches, .cons ⟨rfl, rfl, hd⟩ h⟩

/-- **Folding a branch** into a node beside it, whatever hashes the two have. -/
theorem foldBranch_beside {l r : Tree} (h : (Tree.node l r).LeftPerfect) (hb : r.hi < 2 ^ 64)
    (a b : Hash w) :
    ValuesWithBranches.foldBranch H ⟨l.hi, l.height, a⟩ ⟨r.hi, r.height, b⟩ =
        .ok ⟨(Tree.node l r).hi, (Tree.node l r).height, a.combine H (Tree.node l r).height b⟩ ∧
      ValuesWithBranches.foldBranch H ⟨r.hi, r.height, b⟩ ⟨l.hi, l.height, a⟩ =
        .ok ⟨(Tree.node l r).hi, (Tree.node l r).height, a.combine H (Tree.node l r).height b⟩ := by
  have hlt := h.hi_left_lt
  have hheight := height_le_64 h.left (hlt.trans hb)
  have hparent : Node.parent H ⟨l.hi, l.height, a⟩ ⟨r.hi, r.height, b⟩ =
      .ok ⟨(Tree.node l r).hi, (Tree.node l r).height,
        a.combine H (Tree.node l r).height b⟩ := by
    rw [Node.parent]
    simp only
    rw [debugAssert_of hlt, ok_bind, debugAssert_of h.height_right_le, ok_bind,
      addBits_of_lt ((Nat.succ_le_succ hheight).trans_lt (by decide)), ok_bind, h.height_eq]
    rfl
  rw [ValuesWithBranches.foldBranch, if_pos hlt, ValuesWithBranches.foldBranch,
    if_neg (Nat.lt_asymm hlt)]
  exact ⟨hparent, hparent⟩

variable (H) (self) in
/-- **What there is along a way**, for both of them: the witnesses that the sample looks for are
those of the nodes beside the way and those below its end, and the hash of the end leads to the same
hash of the root. The induction is on the way. -/
theorem route_cases (hn : 1 ≤ n) (hb : n < 2 ^ 64) (h : Route n x siblings) :
    ∃ t, Tree.Sub t (Tree.upTo n) ∧ x = t.label ∧ (t.lo ≤ self.leaf.i → self.leaf.i ≤ t.hi →
      (self.Witnessed (Tree.upTo n) ↔ (∀ s ∈ siblings, s ∈ self.witnesses) ∧ self.Witnessed t) ∧
      ∀ {branches : List (Node w)} {a : Hash w}, List.Forall₂ self.IsWitness siblings branches →
        self.Computes H t a → ∃ d, self.Computes H (Tree.upTo n) d ∧
          branches.reverse.foldlM (ValuesWithBranches.foldBranch H) ⟨t.hi, t.height, a⟩ =
            .ok ⟨n, (Tree.upTo n).height, d⟩) := by
  induction h with
  | root hr =>
    rw [rootOf_label hn hb, Except.ok.injEq] at hr
    refine ⟨_, .refl, hr.symm, fun _ _ => ⟨by simp, fun {branches a} hbranches ha => ⟨a, ha, ?_⟩⟩⟩
    rw [List.forall₂_nil_left_iff.mp hbranches, Tree.hi_upTo hn]
    rfl
  | left _ hj hs ih =>
    obtain ⟨t, ht, hx, ih⟩ := ih
    obtain ⟨l, r, rfl, ⟨hl, rfl⟩, hr, rfl⟩ := children_upTo hn hb ht hx hj hs
    obtain ⟨h1, h2⟩ := sub_upTo hn hb ht
    refine ⟨l, hl, rfl, fun hlo hhi => ?_⟩
    obtain ⟨hwit, hfold⟩ := ih hlo (hhi.trans h1.hi_left_lt.le)
    constructor
    · rw [hwit, witnessed_left hhi, List.forall_mem_append, List.forall_mem_singleton, and_assoc]
    · intro branches a hbranches ha
      obtain ⟨before, ⟨i, j, b⟩, rfl, hbefore, hi, hj, hlookup⟩ :=
        forall₂_isWitness_concat hbranches
      obtain ⟨d, hd, hfold⟩ := hfold hbefore (computes_left h1 h2 hlo hhi ha hlookup)
      obtain ⟨rfl, rfl⟩ : i = r.hi ∧ j = r.height := ⟨hi, hj⟩
      refine ⟨d, hd, ?_⟩
      rw [List.reverse_concat, List.foldlM_cons, (foldBranch_beside h1 h2 a b).1, ok_bind]
      exact hfold
  | right _ hj hs ih =>
    obtain ⟨t, ht, hx, ih⟩ := ih
    obtain ⟨l, r, rfl, ⟨hl, rfl⟩, hr, rfl⟩ := children_upTo hn hb ht hx hj hs
    obtain ⟨h1, h2⟩ := sub_upTo hn hb ht
    refine ⟨r, hr, rfl, fun hlo hhi => ?_⟩
    have hlt : l.hi < self.leaf.i := h1.lo_right.symm.trans_le hlo
    obtain ⟨hwit, hfold⟩ := ih (h1.left.lo_le_hi.trans hlt.le) hhi
    constructor
    · rw [hwit, witnessed_right (Nat.not_le.mpr hlt), List.forall_mem_append,
        List.forall_mem_singleton, and_assoc, and_comm (a := self.Witnessed r)]
    · intro branches b hbranches hb'
      obtain ⟨before, ⟨i, j, a⟩, rfl, hbefore, hi, hj, hlookup⟩ :=
        forall₂_isWitness_concat hbranches
      obtain ⟨d, hd, hfold⟩ := hfold hbefore (computes_right h1 h2 hlo hhi hb' hlookup)
      obtain ⟨rfl, rfl⟩ : i = l.hi ∧ j = l.height := ⟨hi, hj⟩
      refine ⟨d, hd, ?_⟩
      rw [List.reverse_concat, List.foldlM_cons, (foldBranch_beside h1 h2 a b).2, ok_bind]
      exact hfold

end Ways

/-! ### Both of them -/

/-- The root of a value with branches: the branches are folded into its leaf. -/
theorem reconstruct_singleton (value : Value) (branches : List (Node w)) :
    reconstruct H [value] branches =
      branches.reverse.foldlM (ValuesWithBranches.foldBranch H) (value.toNode H) :=
  rfl

end StratumSample

/-- **The two ways to verify a leaf agree**, for every sample of a leaf that its revision has,
whatever witnesses it comes with: there is a root hash exactly if the nodes beside the way have
witnesses, and the root to which these lead as branches is the root of the revision, with that
hash. -/
theorem verifiers_agree (H : HashFn w) (self : StratumSample w) (hb : self.revision < 2 ^ 64)
    (hleaf : self.Contains) :
    (∃ siblings, Route self.revision (self.leaf.i, 0) siblings) ∧
      ∀ siblings, Route self.revision (self.leaf.i, 0) siblings →
        ((∃ branches, List.Forall₂ self.IsWitness siblings branches) ↔
          ∃ d, self.rootHash H = .ok d) ∧
        ∀ branches, List.Forall₂ self.IsWitness siblings branches →
          ∃ root : Node w, rootOf self.revision = .ok (root.i, root.j) ∧
            self.rootHash H = .ok root.hash ∧ reconstruct H [self.leaf] branches = .ok root := by
  have hn : 1 ≤ self.revision := hleaf.1.trans hleaf.2
  have hu := Tree.leftPerfect_upTo hn
  have hsub : Tree.Sub (.leaf self.leaf.i) (Tree.upTo self.revision) := by
    rw [MerkleScheme.sub_leaf_iff hu, Tree.lo_upTo hn, Tree.hi_upTo hn]
    exact hleaf
  constructor
  · exact exists_route ((inTree_iff hn hb).mpr ⟨_, hsub, rfl⟩)
  · intro siblings hroute
    obtain ⟨t, ht, hx, h⟩ := self.route_cases H hn hb hroute
    obtain ⟨hi, hj⟩ := Prod.mk.inj hx
    -- the way ends at the leaf
    obtain rfl : Tree.leaf self.leaf.i = t :=
      (sub_upTo hn hb hsub).1.eq_of_label (sub_upTo hn hb ht).1 hi hj
    obtain ⟨hwit, hfold⟩ := h (Nat.le_refl _) (Nat.le_refl _)
    have hnone : self.Witnessed (.leaf self.leaf.i) := fun s hs => absurd hs List.not_mem_nil
    constructor
    · rw [and_iff_left hnone] at hwit
      rw [StratumSample.exists_branches_iff, ← hwit]
      rcases StratumSample.rootHash_inside (H := H) hb hleaf with ⟨h1, h2⟩ | ⟨h1, h2⟩
      · exact iff_of_true h1 h2
      · rw [h2]
        exact iff_of_false h1 (by simp [Outcome.panic])
    · intro branches hbranches
      obtain ⟨d, hd, hfold⟩ := hfold hbranches StratumSample.computes_leaf
      refine ⟨_, rootOf_eq hn hb, ?_, (StratumSample.reconstruct_singleton _ _).trans hfold⟩
      rw [StratumSample.rootHash, rootOf_eq hn hb, ok_bind]
      have hroot := hd _ (Nat.lt_succ_self _)
      rw [Tree.hi_upTo hn] at hroot
      exact hroot

/-- The second of three values, with hashes that no value has. -/
theorem verifiers_agree_three :
    let self : StratumSample 1 := { revision := 3, leaf := ⟨2, [5]⟩, witnesses :=
      (Finmap.insert (1, 0) ⟨[7], rfl⟩ ∅).insert (3, 0) ⟨[8], rfl⟩ }
    ∃ root : Node 1, rootOf 3 = .ok (root.i, root.j) ∧ self.rootHash byteSum = .ok root.hash ∧
      reconstruct byteSum [⟨2, [5]⟩] [⟨3, 0, ⟨[8], rfl⟩⟩, ⟨1, 0, ⟨[7], rfl⟩⟩] = .ok root := by
  intro self
  have hroot : rootOf 3 = .ok (3, 2) := by decide
  have h3 : subnodesOf 3 2 = .ok ((2, 1), (3, 0)) := by decide
  have h2 : subnodesOf 2 1 = .ok ((1, 0), (2, 0)) := by decide
  have hroute : Route 3 (2, 0) [(3, 0), (1, 0)] :=
    .right (.left (.root hroot) (by decide) h3) (by decide) h2
  refine (verifiers_agree byteSum self (by decide) ⟨by decide, by decide⟩).2 _ hroute |>.2 _ ?_
  exact .cons ⟨rfl, rfl, by decide⟩ (.cons ⟨rfl, rfl, by decide⟩ .nil)

end StratifiedHashTree
