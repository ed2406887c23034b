import StratifiedHashTree.Branches
import StratifiedHashTree.Pruned
import StratifiedHashTree.Samples

/-!
# What a root hash binds

Whoever trusts the root hash of a slate, and nothing else, is shown values, and some hashes that
were not computed from values. What follows for the values?

The computation of a root from values and branches is done once more, with the pruned tree that it
puts together (`StratifiedHashTree.Traced`): a branch is a stub, the height of a node is the one
that was hashed. So when the root comes out right, the pruned tree shows a part of the tree of the
slate, and the values are the payloads below one of its nodes, in their order, with the hashes of
the nodes beside the way to it (`StratifiedHashTree.values_binding`). The heights in the branches
are up to whoever made them, up to 255, while the tree of a slate is not higher than 64; the scheme
is therefore taken with all the heights that a byte can tell apart
(`StratifiedHashTree.byteScheme`).

The indices that come with the values are not hashed. They decide which node is the left one and
nothing else, so renumbering them changes neither the height nor the hash of the root
(`StratifiedHashTree.ValuesWithBranches.root_renumber`).

When everything is shown, there is nothing left to say: two slates with one root hash hold the same
payloads (`StratifiedHashTree.payloads_eq_or_collision`), whatever they are stored on.
-/

namespace StratifiedHashTree

open Outcome Formula FormulaTree
open Pairing (Pairs foldAll foldAll_induct foldAll_simulate foldlM_simulate index_simulate)

variable {w : ℕ}

/-- The scheme of the crate, with every height that the level byte can tell apart. -/
def byteScheme (H : HashFn w) : MerkleScheme Bytes HashInput (Hash w) where
  hash x := H x.1 x.2
  leafInput := valueInput
  nodeInput := combineInput
  maxHeight := 255
  leafInput_injective _ _ h := (Prod.mk.inj h).2
  nodeInput_injective := by
    rintro h h' ⟨a, ha⟩ ⟨a', ha'⟩ ⟨b, hb⟩ ⟨b', hb'⟩ hh hh' heq
    obtain ⟨h1, h2⟩ := Prod.mk.inj heq
    obtain ⟨h3, h4⟩ := List.append_inj h2 (ha.trans ha'.symm)
    have h5 := congrArg UInt8.toNat h1
    rw [UInt8.toNat_ofNat', UInt8.toNat_ofNat', Nat.mod_eq_of_lt (Nat.lt_succ_of_le hh),
      Nat.mod_eq_of_lt (Nat.lt_succ_of_le hh')] at h5
    exact ⟨h5, by simpa using h3, by simpa using h4⟩
  leafInput_ne_nodeInput := by
    intro v h a b h1 hh heq
    have h2 := congrArg UInt8.toNat (Prod.mk.inj heq).1
    rw [UInt8.toNat_ofNat', UInt8.toNat_ofNat', Nat.mod_eq_of_lt (Nat.lt_succ_of_le hh)] at h2
    omega

section Scheme

variable {H : HashFn w} {v : ℕ → Bytes}

theorem digest_byteScheme : ∀ t : Tree, (byteScheme H).digest v t = treeHash H v t
  | .leaf _ => rfl
  | .node l r => by
    rw [MerkleScheme.digest, digest_byteScheme l, digest_byteScheme r]
    rfl

/-- The inputs of a tree are the same under both bounds. -/
theorem inputs_byteScheme (t : Tree) : (byteScheme H).inputs v t ⊆ (scheme H).inputs v t := by
  rintro x ⟨s, hs, rfl⟩
  refine ⟨s, hs, ?_⟩
  cases s with
  | leaf k => rfl
  | node l r =>
    rw [MerkleScheme.input, digest_byteScheme, digest_byteScheme]
    rfl

/-- A tree of a generation is low enough. -/
theorem height_le_maxHeight {n : ℕ} (hn : 1 ≤ n) (hb : n < 2 ^ 64) :
    (Tree.upTo n).height ≤ (byteScheme H).maxHeight :=
  (height_le_64 (Tree.leftPerfect_upTo hn) (by rwa [Tree.hi_upTo hn])).trans
    (show 64 ≤ 255 by decide)

end Scheme

/-! ### Parents -/

/-- What a parent is. -/
theorem Node.parent_eq_ok {H : HashFn w} {a b c : Node w} (h : a.parent H b = .ok c) :
    a.i < b.i ∧ b.j ≤ a.j ∧ a.j + 1 < 2 ^ 8 ∧
      c = { i := b.i, j := a.j + 1, hash := a.hash.combine H (a.j + 1) b.hash } := by
  rw [Node.parent, bind_eq_ok] at h
  obtain ⟨_, h1, h⟩ := h
  rw [bind_eq_ok] at h
  obtain ⟨_, h2, h⟩ := h
  rw [bind_eq_ok] at h
  obtain ⟨j, hj, h⟩ := h
  have hi : a.i < b.i := by
    by_contra hcon
    rw [debugAssert, if_neg hcon] at h1
    cases h1
  have hle : b.j ≤ a.j := by
    by_contra hcon
    rw [debugAssert, if_neg hcon] at h2
    cases h2
  have hlt : a.j + 1 < 2 ^ 8 := by
    by_contra hcon
    rw [addBits, if_neg hcon] at hj
    cases hj
  rw [addBits_of_lt hlt, Except.ok.injEq] at hj
  obtain rfl := hj
  exact ⟨hi, hle, hlt, (Except.ok.inj h).symm⟩

theorem Node.parent_ok {H : HashFn w} {a b : Node w} (h1 : a.i < b.i) (h2 : b.j ≤ a.j)
    (h3 : a.j + 1 < 2 ^ 8) : a.parent H b =
      .ok { i := b.i, j := a.j + 1, hash := a.hash.combine H (a.j + 1) b.hash } := by
  rw [Node.parent, debugAssert_of h1, ok_bind, debugAssert_of h2, ok_bind, addBits_of_lt h3,
    ok_bind]
  rfl

/-! ### Tracing -/

/-- **A node, with the pruned tree that it is the root of.** -/
structure Traced (H : HashFn w) where
  node : Node w
  tree : Pruned Bytes (Hash w)
  digest_eq : tree.digest (byteScheme H) = node.hash
  claims : tree.Claims node.j
  bounded : tree.Bounded (byteScheme H).maxHeight

namespace Traced

variable {H : HashFn w}

/-- The leaf of a value. -/
def ofValue (H : HashFn w) (x : Value) : Traced H where
  node := x.toNode H
  tree := .leaf x.value
  digest_eq := rfl
  claims := rfl
  bounded := trivial

/-- A branch is not looked into. -/
def ofBranch (H : HashFn w) (branch : Node w) : Traced H where
  node := branch
  tree := .stub branch.hash
  digest_eq := rfl
  claims := trivial
  bounded := trivial

/-- The parent of a left and a right node. -/
def parent (self right : Traced H) : Result (Traced H) :=
  match h : self.node.parent H right.node with
  | .ok node => .ok {
      node := node
      tree := .node node.j self.tree right.tree
      digest_eq := by
        obtain ⟨-, -, -, rfl⟩ := Node.parent_eq_ok h
        rw [Pruned.digest, self.digest_eq, right.digest_eq]
        rfl
      claims := rfl
      bounded := by
        obtain ⟨-, -, hj, rfl⟩ := Node.parent_eq_ok h
        exact ⟨⟨Nat.le_add_left 1 _, Nat.le_of_lt_succ hj⟩, self.bounded, right.bounded⟩ }
  | .error e => .error e

/-- Folding a branch into a node. -/
def foldBranch (folding : Traced H) (branch : Node w) : Result (Traced H) :=
  if folding.node.i < branch.i then
    folding.parent (ofBranch H branch)
  else
    (ofBranch H branch).parent folding

variable {a b c : Traced H}

/-- A parent is traced. -/
theorem parent_of_node {x y z : Node w} (ha : a.node = x) (hb : b.node = y)
    (h : x.parent H y = .ok z) : ∃ c, a.parent b = .ok c ∧ c.node = z := by
  subst ha hb
  rw [parent]
  split
  · next z' h' =>
    obtain rfl := Except.ok.inj (h.symm.trans h')
    exact ⟨_, rfl, rfl⟩
  · next e h' => exact nomatch h.symm.trans h'

/-- Folding a branch is traced. -/
theorem foldBranch_of_node {x branch branch' z : Node w} (ha : a.node = x) (hb : branch = branch')
    (h : ValuesWithBranches.foldBranch H x branch = .ok z) :
    ∃ c, a.foldBranch branch' = .ok c ∧ c.node = z := by
  subst ha hb
  rw [ValuesWithBranches.foldBranch] at h
  rw [foldBranch]
  split
  · next hlt =>
    rw [if_pos hlt] at h
    exact parent_of_node rfl rfl h
  · next hlt =>
    rw [if_neg hlt] at h
    exact parent_of_node rfl rfl h

/-- The tree of a parent. -/
theorem tree_parent (h : a.parent b = .ok c) : c.tree = .node c.node.j a.tree b.tree := by
  rw [parent] at h
  split at h
  · obtain rfl := Except.ok.inj h
    rfl
  · cases h

end Traced

namespace ValuesWithBranches

variable (H : HashFn w)

/-- The root node, with the tree that is put together. -/
def rootTraced (self : ValuesWithBranches w) : Result (Traced H) := do
  let hashes := self.values.map (Traced.ofValue H)
  let hashes ← foldAll Traced.parent (hashes.length + 1) hashes
  let folding ← index hashes 0
  self.branches.reverse.foldlM Traced.foldBranch folding

/-- **What is hashed while the root is computed.** -/
def hashInputs (self : ValuesWithBranches w) : Set HashInput :=
  match self.rootTraced H with
  | .ok traced => traced.tree.inputs (byteScheme H)
  | .error _ => ∅

end ValuesWithBranches

/-! ### The two computations -/

section Traces

variable {H : HashFn w} {self : ValuesWithBranches w} {root : Node w}

/-- **The root that is computed is traced.** -/
theorem exists_rootTraced (h : self.root H = .ok root) :
    ∃ traced, self.rootTraced H = .ok traced ∧ traced.node = root := by
  rw [ValuesWithBranches.root] at h
  simp only [List.length_map, bind_eq_ok] at h
  obtain ⟨hashes, hhashes, folding, hfolding, h⟩ := h
  have hvalues : List.Forall₂ (fun a (t : Traced H) => t.node = a)
      (self.values.map (Value.toNode H)) (self.values.map (Traced.ofValue H)) :=
    List.forall₂_map_right_iff.mpr (List.forall₂_map_left_iff.mpr
      (List.forall₂_same.mpr fun _ _ => rfl))
  obtain ⟨hashes', h1, hR⟩ := foldAll_simulate Traced.parent_of_node hvalues hhashes
  obtain ⟨folding', h2, hR⟩ := index_simulate hR hfolding
  obtain ⟨traced, h3, hR⟩ := foldlM_simulate
    (f := ValuesWithBranches.foldBranch H) (R := fun a (t : Traced H) => t.node = a) (Q := Eq)
    Traced.foldBranch_of_node (List.forall₂_refl self.branches.reverse) hR h
  refine ⟨traced, ?_, hR⟩
  rw [ValuesWithBranches.rootTraced]
  simp only [List.length_map]
  rw [h1, ok_bind, h2, ok_bind, h3]

/-- What is known below the nodes of a sequence. -/
def Traced.leaves (xs : List (Traced H)) : List Bytes := xs.flatMap fun x => x.tree.leaves

/-- Folding in pairs keeps what is known, and its order. -/
theorem full_of_pairs {xs ys : List (Traced H)} (h : Pairs Traced.parent xs ys) :
    (∀ x ∈ xs, x.tree.Full) →
      (∀ y ∈ ys, y.tree.Full) ∧ Traced.leaves ys = Traced.leaves xs := by
  induction h with
  | nil => exact fun h => ⟨h, rfl⟩
  | odd a => exact fun h => ⟨h, rfl⟩
  | @pair a b c xs ys hf _ ih =>
    intro hall
    obtain ⟨ha, hb, hxs⟩ : a.tree.Full ∧ b.tree.Full ∧ ∀ x ∈ xs, x.tree.Full := by
      simpa only [List.forall_mem_cons] using hall
    obtain ⟨hys, hleaves⟩ := ih hxs
    have htree := Traced.tree_parent hf
    refine ⟨List.forall_mem_cons.mpr ⟨?_, hys⟩, ?_⟩
    · rw [htree]
      exact ⟨ha, hb⟩
    · rw [Traced.leaves, List.flatMap_cons, ← Traced.leaves, hleaves, htree, Pruned.leaves,
        List.append_assoc]
      rfl

/-- **The first part** of the computation puts all the values together. -/
theorem full_of_foldAll {fuel : ℕ} {values : List Value} {hashes : List (Traced H)}
    (h : foldAll Traced.parent fuel (values.map (Traced.ofValue H)) = .ok hashes)
    {folding : Traced H} (hfolding : (index hashes 0 : Result (Traced H)) = .ok folding) :
    folding.tree.Full ∧ folding.tree.leaves = values.map Value.value := by
  have hvalues : Traced.leaves (values.map (Traced.ofValue H)) = values.map Value.value := by
    rw [Traced.leaves, List.flatMap_map]
    exact List.flatMap_pure_eq_map _ _
  obtain ⟨⟨hfull, hleaves⟩, hlen⟩ := foldAll_induct (P := fun xs => (∀ x ∈ xs, x.tree.Full) ∧
      Traced.leaves xs = values.map Value.value)
    (fun hpairs hxs => by
      obtain ⟨h1, h2⟩ := full_of_pairs hpairs hxs.1
      exact ⟨h1, h2.trans hxs.2⟩) h
    ⟨by
      intro x hx
      obtain ⟨y, -, rfl⟩ := List.mem_map.mp hx
      trivial, hvalues⟩
  cases hashes with
  | nil => exact nomatch hfolding
  | cons x rest =>
    obtain rfl := Except.ok.inj hfolding
    obtain rfl : rest = [] := List.eq_nil_of_length_eq_zero (by
      rw [List.length_cons] at hlen
      omega)
    refine ⟨hfull x (List.mem_singleton_self x), ?_⟩
    rw [← hleaves, Traced.leaves, List.flatMap_singleton]

/-- The two ways to fold a branch. -/
theorem Traced.foldBranch_cases {folding out : Traced H} {branch : Node w}
    (h : folding.foldBranch branch = .ok out) :
    out.tree = .node out.node.j folding.tree (.stub branch.hash) ∨
      out.tree = .node out.node.j (.stub branch.hash) folding.tree := by
  rw [Traced.foldBranch] at h
  split at h
  · exact Or.inl (Traced.tree_parent h)
  · exact Or.inr (Traced.tree_parent h)

section Shown

variable {v : ℕ → Bytes} {n : ℕ}

/-- The hash of a branch is that of a node. -/
def HasHash (H : HashFn w) (v : ℕ → Bytes) (x : Index × ℕ) (branch : Node w) : Prop :=
  merkleHash H v x.1 x.2 = .ok branch.hash

/-- **The second part** of the computation walks up a way of the tree. When its end shows a part of
a subtree, its start shows a part of one below it, and the branches have the hashes of the nodes
beside the way between the two. -/
theorem shows_of_branches (hn : 1 ≤ n) (hb : n < 2 ^ 64) : ∀ {branches : List (Node w)}
    {folding out : Traced H} {t : Tree} {above : List (Index × ℕ)},
    branches.reverse.foldlM Traced.foldBranch folding = .ok out → Tree.Sub t (Tree.upTo n) →
    Route n t.label above → Pruned.Shows (byteScheme H) v out.tree t →
    ∃ u beside, Tree.Sub u (Tree.upTo n) ∧ Route n u.label (above ++ beside) ∧
      List.Forall₂ (HasHash H v) beside branches ∧
      Pruned.Shows (byteScheme H) v folding.tree u ∧
      (folding.node.j = u.height → out.node.j = t.height)
  | [], folding, out, t, above, h, ht, hroute, hshows => by
    obtain rfl := Except.ok.inj h
    exact ⟨t, [], ht, by rwa [List.append_nil], .nil, hshows, id⟩
  | branch :: branches, folding, out, t, above, h, ht, hroute, hshows => by
    rw [List.reverse_cons, List.foldlM_append, bind_eq_ok] at h
    obtain ⟨mid, hmid, h⟩ := h
    rw [List.foldlM_cons, bind_eq_ok] at h
    obtain ⟨out', hout, h⟩ := h
    obtain rfl := Except.ok.inj h
    -- the branch that is folded last is a child of the node that is shown
    obtain ⟨l, r, rfl, htop, hside⟩ : ∃ l r, t = .node l r ∧ out'.node.j = (Tree.node l r).height ∧
        ((Pruned.Shows (byteScheme H) v mid.tree l ∧ branch.hash = treeHash H v r) ∨
          Pruned.Shows (byteScheme H) v mid.tree r ∧ branch.hash = treeHash H v l) := by
      rcases Traced.foldBranch_cases hout with htree | htree
      · rw [htree] at hshows
        obtain _ | _ | ⟨hh, hl, ⟨hd⟩⟩ := hshows
        exact ⟨_, _, rfl, hh, Or.inl ⟨hl, hd.trans (digest_byteScheme _)⟩⟩
      · rw [htree] at hshows
        obtain _ | _ | ⟨hh, ⟨hd⟩, hr⟩ := hshows
        exact ⟨_, _, rfl, hh, Or.inr ⟨hr, hd.trans (digest_byteScheme _)⟩⟩
    obtain ⟨h1, h2⟩ := sub_upTo hn hb ht
    have hj : (Tree.node l r).height ≠ 0 := label_node_ne
    have hsub := subnodesOf_label h1 h2
    rcases hside with ⟨hmids, hhash⟩ | ⟨hmids, hhash⟩
    · obtain ⟨u, beside, hu, hroute', hall, hstart, -⟩ :=
        shows_of_branches hn hb hmid (Tree.Sub.trans (.left .refl) ht) (.left hroute hj hsub) hmids
      rw [List.append_assoc] at hroute'
      refine ⟨u, r.label :: beside, hu, hroute', .cons ?_ hall, hstart, fun _ => htop⟩
      rw [HasHash, hhash]
      exact merkleHash_label h1.right h2
    · obtain ⟨u, beside, hu, hroute', hall, hstart, -⟩ :=
        shows_of_branches hn hb hmid (Tree.Sub.trans (.right .refl) ht) (.right hroute hj hsub)
          hmids
      rw [List.append_assoc] at hroute'
      refine ⟨u, l.label :: beside, hu, hroute', .cons ?_ hall, hstart, fun _ => htop⟩
      rw [HasHash, hhash]
      exact merkleHash_label h1.left (h1.hi_left_lt.trans h2)

end Shown

end Traces

/-- Where nothing is met, there is the root. -/
theorem Route.rootOf_eq {n : ℕ} {x : Index × ℕ} (h : Route n x []) : rootOf n = .ok x := by
  generalize hs : ([] : List (Index × ℕ)) = siblings at h
  cases h with
  | root hr => exact hr
  | left _ _ _ => exact absurd hs.symm (List.concat_ne_nil _ _)
  | right _ _ _ => exact absurd hs.symm (List.concat_ne_nil _ _)

/-! ### Binding -/

section Binding

variable {B : Backend w} {H : HashFn w} {L : ℕ} {vs : List Bytes} {s : SlateOn B}

/-- The hash of the root of a slate. -/
theorem Reaches.root_hash (h : Reaches B H L vs s) {info : MetaInfo w}
    (hinfo : s.root = some info) :
    1 ≤ vs.length ∧ info.address.j = (Tree.upTo vs.length).height ∧
      info.hash = (byteScheme H).digest (payload vs) (Tree.upTo vs.length) := by
  rw [h.slateOf.root_eq] at hinfo
  split at hinfo
  · next hn =>
    rw [Option.some.injEq] at hinfo
    rw [← hinfo, digest_byteScheme]
    exact ⟨hn, rfl, rfl⟩
  · cases hinfo

/-- What is hashed in the tree of a slate was hashed while it was built. -/
theorem Reaches.inputs_subset (h : Reaches B H L vs s) (hn : 1 ≤ vs.length) :
    (byteScheme H).inputs (payload vs) (Tree.upTo vs.length) ⊆ buildInputs B H L vs :=
  (inputs_byteScheme _).trans (inputs_subset_buildInputs L h.slateOf.fits hn)

/-- **Values with branches are binding.** When the root that is computed from them has the hash of
the root of a slate, it has its height as well, and the values are, in their order, the payloads
below a node of the generation, and the branches have the hashes of the nodes beside the way to it –
or there is a collision between what was hashed for either. -/
theorem values_binding (h : Reaches B H L vs s) {info : MetaInfo w} (hinfo : s.root = some info)
    {self : ValuesWithBranches w} {root : Node w} (hself : self.root H = .ok root)
    (hroot : root.hash = info.hash) :
    (root.j = info.address.j ∧ ∃ (x : Index × ℕ) (siblings : List (Index × ℕ)) (lo hi : Index),
      Route vs.length x siblings ∧ range x.1 x.2 = .ok (lo, hi) ∧
      self.values.map Value.value = (leafValues (payload vs) lo hi).map Value.value ∧
      List.Forall₂ (HasHash H (payload vs)) siblings self.branches) ∨
    HashCollision H (self.hashInputs H) (buildInputs B H L vs) := by
  obtain ⟨hn, hj, hdigest⟩ := h.root_hash hinfo
  have hb := h.slateOf.lt
  obtain ⟨traced, htraced, rfl⟩ := exists_rootTraced hself
  have hinputs : self.hashInputs H = traced.tree.inputs (byteScheme H) := by
    rw [ValuesWithBranches.hashInputs, htraced]
  rw [← traced.digest_eq, hdigest] at hroot
  rcases Pruned.shows_or_collision traced.bounded (height_le_maxHeight hn hb) hroot with hshows | hc
  · left
    rw [ValuesWithBranches.rootTraced, bind_eq_ok] at htraced
    obtain ⟨hashes, hhashes, htraced⟩ := htraced
    rw [bind_eq_ok] at htraced
    obtain ⟨folding, hfolding, hbranches⟩ := htraced
    obtain ⟨hfull, hleaves⟩ := full_of_foldAll hhashes hfolding
    obtain ⟨u, siblings, hu, hroute, hall, hstart, htop⟩ :=
      shows_of_branches hn hb hbranches .refl (.root (rootOf_label hn hb)) hshows
    obtain ⟨h1, h2⟩ := sub_upTo hn hb hu
    have h3 := h1.lo_add_size
    refine ⟨(htop (hstart.height_eq hfull folding.claims)).trans hj.symm, u.label,
      siblings, u.lo, u.hi, hroute, range_label h1 h2, ?_, hall⟩
    rw [← hleaves, hstart.leaves_eq hfull h1, leafValues, List.map_map, ← h3,
      Nat.add_sub_cancel_left]
    rfl
  · rw [hinputs]
    exact Or.inr (hc.mono subset_rfl (h.inputs_subset hn))

/-- The payloads, one after the other. -/
theorem map_payload (vs : List Bytes) : (List.range' 1 vs.length).map (payload vs) = vs := by
  refine List.ext_getElem (by rw [List.length_map, List.length_range']) fun k h1 h2 => ?_
  rw [List.getElem_map, List.getElem_range', Nat.one_mul, payload_eq_getElem (by omega) (by omega)]
  simp only [List.get_eq_getElem, Nat.add_sub_cancel_left]

/-- **One root hash, one history.** Slates with one root hash hold the same payloads, in the same
order and as many of them, whatever they are stored on – or there is a collision between what was
hashed for the two. -/
theorem payloads_eq_or_collision {B' : Backend w} {L' : ℕ} {vs' : List Bytes} {s' : SlateOn B'}
    (h : Reaches B H L vs s) (h' : Reaches B' H L' vs' s') {info info' : MetaInfo w}
    (hinfo : s.root = some info) (hinfo' : s'.root = some info') (hhash : info.hash = info'.hash) :
    vs = vs' ∨ HashCollision H (buildInputs B H L vs) (buildInputs B' H L' vs') := by
  obtain ⟨hn, -, hdigest⟩ := h.root_hash hinfo
  obtain ⟨hn', -, hdigest'⟩ := h'.root_hash hinfo'
  have hu := Tree.leftPerfect_upTo hn
  have hu' := Tree.leftPerfect_upTo hn'
  have hvalues := fun (vs : List Bytes) (hn : 1 ≤ vs.length) =>
    show (List.range' (Tree.upTo vs.length).lo (Tree.upTo vs.length).size).map (payload vs) = vs by
      have h1 := (Tree.leftPerfect_upTo hn).lo_add_size
      rw [Tree.lo_upTo hn, Tree.hi_upTo hn, Nat.add_comm, Nat.add_right_cancel_iff] at h1
      rw [Tree.lo_upTo hn, h1, map_payload]
  rw [hdigest, hdigest'] at hhash
  rcases Pruned.values_eq_or_collision hu hu' (height_le_maxHeight hn h.slateOf.lt)
    (height_le_maxHeight hn' h'.slateOf.lt) hhash with heq | hc
  · rw [hvalues vs hn, hvalues vs' hn'] at heq
    exact Or.inl heq
  · exact Or.inr (hc.mono (h.inputs_subset hn) (h'.inputs_subset hn'))

/-- Two payloads in memory, and the other way round in a block storage: hashes that add up bytes
cannot tell them apart. -/
theorem payloads_eq_or_collision_two : HashCollision byteSum
    (buildInputs .memKVS byteSum 0 [[1], [2]]) (buildInputs tinyBlock byteSum 1 [[2], [1]]) := by
  obtain ⟨s, h⟩ := exists_reaches_of_length_lt .memKVS byteSum 0 [[1], [2]]
    (by decide) (by decide)
  obtain ⟨s', h'⟩ := exists_reaches_of_length_lt tinyBlock byteSum 1 [[2], [1]]
    (by decide) (by decide)
  have hroot := h.slateOf.root_eq
  have hroot' := h'.slateOf.root_eq
  rw [if_pos (by decide), show ([[1], [2]] : List Bytes).length = 2 from rfl, upTo_two] at hroot
  rw [if_pos (by decide), show ([[2], [1]] : List Bytes).length = 2 from rfl, upTo_two] at hroot'
  exact (payloads_eq_or_collision h h' hroot hroot' rfl).resolve_left (by decide)

end Binding

/-- Hashes that add up bytes are not binding: the two payloads the other way round lead to the same
root, and there is the collision. -/
theorem values_binding_two : HashCollision byteSum
    (ValuesWithBranches.hashInputs byteSum { values := [⟨1, [2]⟩, ⟨2, [1]⟩], branches := [] })
    (buildInputs .memKVS byteSum 0 [[1], [2]]) := by
  obtain ⟨s, h⟩ := exists_reaches_of_length_lt .memKVS byteSum 0 [[1], [2]]
    (by decide) (by decide)
  have hroot := h.slateOf.root_eq
  rw [if_pos (by decide)] at hroot
  have hself : ValuesWithBranches.root byteSum { values := [⟨1, [2]⟩, ⟨2, [1]⟩], branches := [] } =
      .ok ⟨2, 1, byteSum 1 [2, 1]⟩ := by decide
  refine (values_binding h hroot hself ?_).resolve_left ?_
  · rw [nodeInfo_hash, show ([[1], [2]] : List Bytes).length = 2 from rfl, upTo_two]
    rfl
  · rintro ⟨-, x, siblings, lo, hi, hroute, hrange, hvalues, hall⟩
    -- nothing branches off, so all the values would have to be those of the slate
    obtain rfl := List.forall₂_nil_right_iff.mp hall
    have hx := hroute.rootOf_eq
    have htwo : rootOf 2 = .ok (2, 1) := by decide
    obtain rfl := Except.ok.inj (hx.symm.trans htwo)
    have hall : range 2 1 = .ok (1, 2) := by decide
    obtain ⟨rfl, rfl⟩ := Prod.mk.inj (Except.ok.inj (hrange.symm.trans hall))
    exact absurd hvalues (by decide)

/-! ### Renumbering -/

/-- A node with another index. -/
def Node.renumber (f : Index → Index) (self : Node w) : Node w := { self with i := f self.i }

/-- A value with another index. -/
def Value.renumber (f : Index → Index) (self : Value) : Value := { self with i := f self.i }

section Renumber

variable {H : HashFn w} {f : Index → Index} {values : List Value} {branches : List (Node w)}
  {root : Node w}

/-- A parent, renumbered. -/
theorem Node.parent_renumber (hf : StrictMono f) {x y z x' y' : Node w} (hx : x' = x.renumber f)
    (hy : y' = y.renumber f) (h : x.parent H y = .ok z) :
    ∃ z', x'.parent H y' = .ok z' ∧ z' = z.renumber f := by
  subst hx hy
  obtain ⟨h1, h2, h3, rfl⟩ := Node.parent_eq_ok h
  exact ⟨_, Node.parent_ok (hf h1) h2 h3, rfl⟩

/-- Folding a branch, renumbered. -/
theorem foldBranch_renumber (hf : StrictMono f) {x branch z x' branch' : Node w}
    (hx : x' = x.renumber f) (hb : branch' = branch.renumber f)
    (h : ValuesWithBranches.foldBranch H x branch = .ok z) :
    ∃ z', ValuesWithBranches.foldBranch H x' branch' = .ok z' ∧ z' = z.renumber f := by
  rw [ValuesWithBranches.foldBranch] at h
  have hlt : x'.i < branch'.i ↔ x.i < branch.i := by
    rw [hx, hb]
    exact hf.lt_iff_lt
  rw [ValuesWithBranches.foldBranch]
  by_cases hside : x.i < branch.i
  · rw [if_pos hside] at h
    rw [if_pos (hlt.mpr hside)]
    exact Node.parent_renumber hf hx hb h
  · rw [if_neg hside] at h
    rw [if_neg (mt hlt.mp hside)]
    exact Node.parent_renumber hf hb hx h

/-- **The root does not depend on the numbers**: with other indices in the same order it has the
same height and the same hash. -/
theorem ValuesWithBranches.root_renumber (hf : StrictMono f)
    (h : ValuesWithBranches.root H { values := values, branches := branches } = .ok root) :
    ValuesWithBranches.root H
        { values := values.map (Value.renumber f), branches := branches.map (Node.renumber f) } =
      .ok (root.renumber f) := by
  rw [ValuesWithBranches.root] at h
  simp only [List.length_map, bind_eq_ok] at h
  obtain ⟨hashes, hhashes, folding, hfolding, h⟩ := h
  have hvalues : List.Forall₂ (fun x y : Node w => y = x.renumber f)
      (values.map (Value.toNode H)) ((values.map (Value.renumber f)).map (Value.toNode H)) := by
    rw [List.map_map]
    exact List.forall₂_map_right_iff.mpr (List.forall₂_map_left_iff.mpr
      (List.forall₂_same.mpr fun _ _ => rfl))
  have hbranches : List.Forall₂ (fun x y : Node w => y = x.renumber f) branches.reverse
      (branches.map (Node.renumber f)).reverse := by
    rw [← List.map_reverse]
    exact List.forall₂_map_right_iff.mpr (List.forall₂_same.mpr fun _ _ => rfl)
  obtain ⟨hashes', h1, hR⟩ := foldAll_simulate (Node.parent_renumber hf) hvalues hhashes
  obtain ⟨folding', h2, hR⟩ := index_simulate hR hfolding
  obtain ⟨root', h3, rfl⟩ := foldlM_simulate (f := ValuesWithBranches.foldBranch H)
    (R := fun x y : Node w => y = x.renumber f) (Q := fun x y : Node w => y = x.renumber f)
    (foldBranch_renumber hf) hbranches hR h
  rw [ValuesWithBranches.root]
  simp only [List.length_map]
  rw [h1, ok_bind, h2, ok_bind, h3]

/-- A loop over a list returns when every step does. -/
theorem forM_eq_ok_iff {α : Type} {f : α → Result Unit} {xs : List α} :
    xs.forM f = .ok () ↔ ∀ x ∈ xs, f x = .ok () := by
  refine ⟨fun h => ?_, forM_ok xs⟩
  induction xs with
  | nil => exact fun x hx => absurd hx List.not_mem_nil
  | cons x xs ih =>
    rw [List.forM, bind_eq_ok] at h
    obtain ⟨_, hx, h⟩ := h
    exact List.forall_mem_cons.mpr ⟨hx, ih h⟩

/-- The number of a value and of the next one. -/
def Value.Adjoins (a b : Value) : Prop := a.i + 1 < 2 ^ 64 ∧ a.i + 1 = b.i

/-- What is checked of two neighbours. -/
theorem successor_eq_ok_iff {k : ℕ} (hk : k + 1 < values.length) :
    (do
      let value ← index values k
      let next ← index values (k + 1)
      let successor ← addBits 64 value.i 1
      debugAssert (successor = next.i) : Result Unit) = .ok () ↔
    Value.Adjoins values[k] values[k + 1] := by
  rw [index_of_getElem? (List.getElem?_eq_getElem (by omega)), ok_bind,
    index_of_getElem? (List.getElem?_eq_getElem hk), ok_bind]
  by_cases hlt : values[k].i + 1 < 2 ^ 64
  · rw [addBits_of_lt hlt, ok_bind]
    by_cases heq : values[k].i + 1 = values[k + 1].i
    · exact iff_of_true (debugAssert_of heq) ⟨hlt, heq⟩
    · rw [debugAssert, if_neg heq]
      exact iff_of_false (by rintro ⟨⟩) fun h => heq h.2
  · rw [addBits, if_neg hlt]
    exact iff_of_false (by rintro ⟨⟩) fun h => hlt h.1

/-- **What is checked of values**: there is one, and every one follows the one before it. -/
theorem ValuesWithBranches.new_eq_ok_iff {self : ValuesWithBranches w} :
    ValuesWithBranches.new values branches = .ok self ↔
      1 ≤ values.length ∧
        (∀ k (hk : k + 1 < values.length), Value.Adjoins values[k] values[k + 1]) ∧
        self = { values := values, branches := branches } := by
  by_cases hlen : 1 ≤ values.length
  · rw [ValuesWithBranches.new, subBits_of_le hlen, ok_bind, bind_eq_ok]
    constructor
    · rintro ⟨_, h, hself⟩
      refine ⟨hlen, fun k hk => ?_, (Except.ok.inj hself).symm⟩
      exact (successor_eq_ok_iff hk).mp (forM_eq_ok_iff.mp h k (List.mem_range.mpr (by omega)))
    · rintro ⟨-, h, rfl⟩
      refine ⟨(), forM_eq_ok_iff.mpr fun k hk => ?_, rfl⟩
      rw [List.mem_range] at hk
      exact (successor_eq_ok_iff (by omega)).mpr (h k (by omega))
  · rw [ValuesWithBranches.new, subBits, if_neg hlen]
    exact iff_of_false (by rintro ⟨⟩) fun h => hlen h.1

/-- **The indices of the values are not bound.** What is accepted as consecutive values with
branches is accepted as well with all indices moved by one distance, and the root has the same
height and the same hash. -/
theorem reconstruct_shift (h : reconstruct H values branches = .ok root) {c : ℕ}
    (hc : ∀ x ∈ values, x.i + c < 2 ^ 64) :
    reconstruct H (values.map (Value.renumber (· + c))) (branches.map (Node.renumber (· + c))) =
      .ok (root.renumber (· + c)) := by
  rw [reconstruct, bind_eq_ok] at h
  obtain ⟨self, hnew, hroot⟩ := h
  obtain ⟨hlen, hfollows, rfl⟩ := ValuesWithBranches.new_eq_ok_iff.mp hnew
  have hmono : StrictMono (· + c : Index → Index) := fun a b hab => Nat.add_lt_add_right hab c
  have hshift : ValuesWithBranches.new (values.map (Value.renumber (· + c)))
      (branches.map (Node.renumber (· + c))) = .ok
        { values := values.map (Value.renumber (· + c)),
          branches := branches.map (Node.renumber (· + c)) } := by
    refine ValuesWithBranches.new_eq_ok_iff.mpr ⟨by rwa [List.length_map], fun k hk => ?_, rfl⟩
    rw [List.length_map] at hk
    obtain ⟨-, h2⟩ := hfollows k hk
    have h3 := hc values[k + 1] (List.getElem_mem hk)
    rw [List.getElem_map, List.getElem_map]
    have h4 : values[k].i + c + 1 = values[k + 1].i + c := by
      rw [← h2, Nat.add_right_comm]
    exact ⟨h4 ▸ h3, h4⟩
  rw [reconstruct, hshift, ok_bind]
  exact ValuesWithBranches.root_renumber hmono hroot

end Renumber

/-- The values of a slate, seven places further. -/
theorem reconstruct_shift_seven :
    reconstruct byteSum [⟨8, [1]⟩, ⟨9, [2]⟩] [⟨10, 0, byteSum 0 [3]⟩] =
      .ok (Node.renumber (· + 7) ⟨3, 2, byteSum 2 [4, 3]⟩) := by
  have hthree : reconstruct byteSum [⟨1, [1]⟩, ⟨2, [2]⟩] [⟨3, 0, byteSum 0 [3]⟩] =
      .ok ⟨3, 2, byteSum 2 [4, 3]⟩ := by decide
  exact reconstruct_shift hthree (c := 7) (by decide)

end StratifiedHashTree
