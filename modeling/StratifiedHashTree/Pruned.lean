import StratifiedHashTree.Merkle

/-!
# Pruned trees

What somebody has in hand who knows a part of a tree only: some values, and digests of subtrees
that are not looked into. Such a `StratifiedHashTree.Pruned` tree is put together in whatever
shape, and with whatever heights, an adversary likes; it has a digest all the same, computed as if
it were a tree.

When that digest is the one of an honest tree, the pruned tree *shows* a part of it
(`StratifiedHashTree.Pruned.Shows`): its shape is that of the tree as far as it goes, its heights
and its values are those of the tree, and a stub has the digest of the subtree that it stands for –
or there is a collision (`StratifiedHashTree.Pruned.shows_or_collision`). Nothing is asked of the
shape of either tree: the height that is hashed at a node says that there is a node, and the digests
below it take the argument to the two sides.

A whole tree is a pruned one without stubs (`StratifiedHashTree.Pruned.ofTree`), so two honest trees
with one digest have the same values (`StratifiedHashTree.Pruned.values_eq_or_collision`), however
many there are.
-/

namespace StratifiedHashTree

/-- **A pruned tree**: values at the leaves that are known, and digests in the place of subtrees
that are not. -/
inductive Pruned (Value Digest : Type) where
  /-- The digest of a subtree. -/
  | stub (d : Digest)
  /-- A leaf with its value. -/
  | leaf (x : Value)
  /-- A node, of a height that is claimed. -/
  | node (h : ℕ) (l r : Pruned Value Digest)

namespace Pruned

variable {Value Input Digest : Type}

/-- The values that are known, from left to right. -/
def leaves : Pruned Value Digest → List Value
  | stub _ => []
  | leaf x => [x]
  | node _ l r => l.leaves ++ r.leaves

/-- Nothing is left out. -/
def Full : Pruned Value Digest → Prop
  | stub _ => False
  | leaf _ => True
  | node _ l r => l.Full ∧ r.Full

/-- A height is the one that is claimed for the whole, where one is. -/
def Claims (j : ℕ) : Pruned Value Digest → Prop
  | stub _ => True
  | leaf _ => j = 0
  | node h _ _ => j = h

/-- The heights can be told apart. -/
def Bounded (m : ℕ) : Pruned Value Digest → Prop
  | stub _ => True
  | leaf _ => True
  | node h l r => (1 ≤ h ∧ h ≤ m) ∧ l.Bounded m ∧ r.Bounded m

section Scheme

variable (M : MerkleScheme Value Input Digest)

/-- The digest of a pruned tree. -/
def digest : Pruned Value Digest → Digest
  | stub d => d
  | leaf x => M.hash (M.leafInput x)
  | node h l r => M.hash (M.nodeInput h (digest l) (digest r))

/-- Everything that is hashed in a pruned tree. -/
def inputs : Pruned Value Digest → Set Input
  | stub _ => ∅
  | leaf x => {M.leafInput x}
  | node h l r => insert (M.nodeInput h (l.digest M) (r.digest M)) (inputs l ∪ inputs r)

/-- **A part of a tree is shown**: the two agree as far as the pruned tree goes. -/
inductive Shows (v : ℕ → Value) : Pruned Value Digest → Tree → Prop
  /-- A digest stands for a subtree. -/
  | stub {d : Digest} {t : Tree} : d = M.digest v t → Shows v (stub d) t
  /-- A leaf has the value of the leaf. -/
  | leaf {x : Value} {k : ℕ} : x = v k → Shows v (leaf x) (.leaf k)
  /-- A node has the height of the node. -/
  | node {h : ℕ} {p q : Pruned Value Digest} {l r : Tree} : h = (Tree.node l r).height →
      Shows v p l → Shows v q r → Shows v (node h p q) (.node l r)

end Scheme

variable {M : MerkleScheme Value Input Digest} {v : ℕ → Value}

/-! ### Binding -/

/-- **Binding.** A pruned tree with the digest of a tree shows a part of it, or there is a
collision. The induction is on the pruned tree; at a node, the height that is hashed makes the
other tree a node as well, and equal inputs take the digests to the two sides. -/
theorem shows_or_collision {p : Pruned Value Digest} : p.Bounded M.maxHeight → ∀ {t : Tree},
    t.height ≤ M.maxHeight → p.digest M = M.digest v t →
    Shows M v p t ∨ M.Collision (p.inputs M) (M.inputs v t) := by
  induction p with
  | stub d => exact fun _ t _ h => Or.inl (.stub h)
  | leaf x =>
    intro _ t ht h
    rw [MerkleScheme.digest_eq_hash] at h
    rcases MerkleScheme.eq_or_collision (A := (leaf x).inputs M) (Set.mem_singleton _)
      (M.input_mem_inputs v (.refl (s := t))) h with heq | hc
    · cases t with
      | leaf k => exact Or.inl (.leaf (M.leafInput_injective heq))
      | node l r =>
        exact absurd heq (M.leafInput_ne_nodeInput (Nat.le_add_left 1 _) ht)
    · exact Or.inr hc
  | node h p q ihp ihq =>
    rintro ⟨⟨hh1, hhm⟩, hp, hq⟩ t ht heq
    rw [MerkleScheme.digest_eq_hash] at heq
    rcases MerkleScheme.eq_or_collision (A := (node h p q).inputs M) (Set.mem_insert _ _)
      (M.input_mem_inputs v (.refl (s := t))) heq with heq | hc
    · cases t with
      | leaf k => exact absurd heq.symm (M.leafInput_ne_nodeInput hh1 hhm)
      | node l r =>
        obtain ⟨hht, hl, hr⟩ := M.nodeInput_injective hhm ht heq
        have hlt := (Tree.height_left_lt l r).le.trans ht
        have hrt := (Tree.height_right_lt l r).le.trans ht
        rcases ihp hp hlt hl with hsl | hc
        · rcases ihq hq hrt hr with hsr | hc
          · exact Or.inl (.node hht hsl hsr)
          · exact Or.inr (hc.mono (Set.subset_union_right.trans (Set.subset_insert _ _))
              (M.inputs_subset_of_sub v (.right .refl)))
        · exact Or.inr (hc.mono (Set.subset_union_left.trans (Set.subset_insert _ _))
            (M.inputs_subset_of_sub v (.left .refl)))
    · exact Or.inr hc

/-- Whoever shows a part of a tree has its digest. -/
theorem Shows.digest_eq {p : Pruned Value Digest} {t : Tree} (h : Shows M v p t) :
    p.digest M = M.digest v t := by
  induction h with
  | stub hd => exact hd
  | leaf hx => exact congrArg (fun x => M.hash (M.leafInput x)) hx
  | node hh _ _ ihp ihq => rw [digest, ihp, ihq, hh, MerkleScheme.digest]

/-- Where nothing is left out, the height that is claimed is the height. -/
theorem Shows.height_eq {p : Pruned Value Digest} {t : Tree} (h : Shows M v p t) (hp : p.Full)
    {j : ℕ} (hj : p.Claims j) : j = t.height := by
  cases h with
  | stub _ => exact hp.elim
  | leaf _ => exact hj
  | node hh _ _ => exact Eq.trans hj hh

/-- Where nothing is left out, all the values are shown. -/
theorem Shows.leaves_eq {p : Pruned Value Digest} {t : Tree} (h : Shows M v p t) :
    p.Full → t.LeftPerfect → p.leaves = (List.range' t.lo t.size).map v := by
  induction h with
  | stub _ => exact fun hp => hp.elim
  | leaf hx =>
    intro _ _
    rw [leaves, hx]
    rfl
  | @node h p q l r _ _ _ ihp ihq =>
    rintro ⟨hp, hq⟩ ht
    have h1 := ht.left.lo_add_size
    rw [leaves, ihp hp ht.left, ihq hq ht.right, ← List.map_append, Tree.lo_node, Tree.size_node,
      ht.lo_right, ← h1, List.range'_append_1]

/-! ### Whole trees -/

/-- A tree of which everything is known. -/
def ofTree (v : ℕ → Value) : Tree → Pruned Value Digest
  | .leaf k => leaf (v k)
  | .node l r => node (Tree.node l r).height (ofTree v l) (ofTree v r)

variable (Digest) in
theorem full_ofTree (v : ℕ → Value) : ∀ t : Tree, (ofTree v t : Pruned Value Digest).Full
  | .leaf _ => trivial
  | .node l r => ⟨full_ofTree v l, full_ofTree v r⟩

theorem shows_ofTree : ∀ t : Tree, Shows M v (ofTree v t) t
  | .leaf _ => .leaf rfl
  | .node l r => .node rfl (shows_ofTree l) (shows_ofTree r)

theorem bounded_ofTree {m : ℕ} : ∀ {t : Tree}, t.height ≤ m →
    (ofTree v t : Pruned Value Digest).Bounded m
  | .leaf _, _ => trivial
  | .node l r, h => ⟨⟨Nat.le_add_left 1 _, h⟩,
      bounded_ofTree ((Tree.height_left_lt l r).le.trans h),
      bounded_ofTree ((Tree.height_right_lt l r).le.trans h)⟩

/-- What is hashed in a whole tree. -/
theorem inputs_ofTree : ∀ t : Tree, (ofTree v t).inputs M ⊆ M.inputs v t
  | .leaf k => by
    rintro x rfl
    exact M.input_mem_inputs v .refl
  | .node l r => by
    have hl := (inputs_ofTree l).trans (M.inputs_subset_of_sub v (t := .node l r) (.left .refl))
    have hr := (inputs_ofTree r).trans (M.inputs_subset_of_sub v (t := .node l r) (.right .refl))
    refine Set.insert_subset ?_ (Set.union_subset hl hr)
    rw [(shows_ofTree l).digest_eq, (shows_ofTree r).digest_eq]
    exact M.input_mem_inputs v (.refl (s := .node l r))

/-- **Trees with one digest have the same values**, and the same number of them, or there is a
collision. -/
theorem values_eq_or_collision {v' : ℕ → Value} {t u : Tree} (ht : t.LeftPerfect)
    (hu : u.LeftPerfect) (hth : t.height ≤ M.maxHeight) (huh : u.height ≤ M.maxHeight)
    (h : M.digest v t = M.digest v' u) :
    (List.range' t.lo t.size).map v = (List.range' u.lo u.size).map v' ∨
      M.Collision (M.inputs v t) (M.inputs v' u) := by
  rw [← (shows_ofTree t).digest_eq] at h
  rcases shows_or_collision (bounded_ofTree hth) huh h with hs | hc
  · have hfull := full_ofTree Digest v t
    have hown : Shows M v (ofTree v t) t := shows_ofTree t
    exact Or.inl ((hown.leaves_eq hfull ht).symm.trans (hs.leaves_eq hfull hu))
  · exact Or.inr (hc.mono (inputs_ofTree t) subset_rfl)

end Pruned

end StratifiedHashTree
