import StratifiedHashTree.Backend
import StratifiedHashTree.Unfold

/-!
# What is hashed

Nothing can be said about hashes without allowing for collisions, and it makes a difference
*which* ones: that a function with a fixed output size has collisions somewhere is no news.
So the inputs that the code hands to the hash function are written down, along the code
that does it: those of an append (`StratifiedHashTree.Slate.appendInputs`), hence of
building a slate (`StratifiedHashTree.buildInputs`), and those of computing the root of a
sample (`StratifiedHashTree.StratumSample.hashInputs`). A collision is one between members
of such sets (`StratifiedHashTree.HashCollision`).

In terms of the tree these are the inputs of its nodes
(`StratifiedHashTree.inputs_subset_buildInputs`), and those of a climb along it
(`StratifiedHashTree.climbInputs_subset`).
-/

namespace StratifiedHashTree

open Outcome Formula FormulaTree

variable {w : ℕ}

/-- What is hashed: the level byte, and the bytes. -/
abbrev HashInput := UInt8 × Bytes

/-- **A collision** between two sets of inputs. -/
def HashCollision (H : HashFn w) (A B : Set HashInput) : Prop :=
  ∃ x ∈ A, ∃ y ∈ B, x ≠ y ∧ H x.1 x.2 = H y.1 y.2

/-- The input of `StratifiedHashTree.Hash.combine`. -/
def combineInput (j : ℕ) (left right : Hash w) : HashInput :=
  (UInt8.ofNat j, left.value ++ right.value)

/-- The input of the hash of a value. -/
def valueInput (value : Bytes) : HashInput := (UInt8.ofNat 0, value)

/-! ### Building -/

namespace Slate

variable {S : Storage (Entry w)} (H : HashFn w)

/-- What `StratifiedHashTree.Slate.buildInodes` hashes. -/
def buildInodesInputs (cache : Cache w) : Hash w → List Formula.INode → List HashInput
  | _, [] => []
  | rightHash, n :: ns =>
    match cache.getPbstRoot n.left.i n.left.j with
    | .ok left => combineInput n.node.j left.hash rightHash ::
        buildInodesInputs cache (left.hash.combine H n.node.j rightHash) ns
    | .error _ => []

/-- What `StratifiedHashTree.Slate.append` hashes. -/
def appendInputs (self : Slate S) (value : Bytes) : List HashInput :=
  valueInput value ::
    match (do (← Model.new (← nextIndex self.cache)).inodes : Result (List Formula.INode)) with
    | .ok nodes => buildInodesInputs H self.cache (Hash.fromBytes H 0 value) nodes
    | .error _ => []

end Slate

/-- **What is hashed while a slate is built**, by one append or another. -/
def buildInputs (B : Backend w) (H : HashFn w) (L : ℕ) (vs : List Bytes) : Set HashInput :=
  {x | ∃ k s puts, 1 ≤ k ∧ k ≤ vs.length ∧ build B H L (vs.take (k - 1)) = .ok (s, puts) ∧
    x ∈ Slate.appendInputs H s (payload vs k)}

/-! ### Samples -/

namespace StratumSample

variable (H : HashFn w)

/-- What combining two hashes hashes, when both are there. -/
def combinedInput (j : ℕ) : Option (Hash w) → Option (Hash w) → List HashInput
  | some left, some right => [combineInput j left right]
  | _, _ => []

/-- What `StratifiedHashTree.StratumSample.computeHash` hashes. -/
def computeHashInputs (self : StratumSample w) : ℕ → Index → ℕ → List HashInput
  | 0, _, _ => []
  | fuel + 1, i, j =>
    if j = 0 then
      if self.leaf.i = i then [valueInput self.leaf.value] else []
    else
      match subnodesOf i j with
      | .error _ => []
      | .ok (l, r) =>
        match contains l.1 l.2 self.leaf.i, contains r.1 r.2 self.leaf.i with
        | .ok true, _ => computeHashInputs self fuel l.1 l.2 ++
            combinedInput j (computeHash H self fuel l.1 l.2).toOption (self.witnesses.lookup r)
        | .ok false, .ok true =>
          match self.witnesses.lookup l with
          | none => []
          | some left => computeHashInputs self fuel r.1 r.2 ++
              combinedInput j (some left) (computeHash H self fuel r.1 r.2).toOption
        | _, _ => []

/-- **What is hashed while the root of a sample is computed.** -/
def hashInputs (self : StratumSample w) : Set HashInput :=
  match rootOf self.revision with
  | .ok (i, j) => {x | x ∈ computeHashInputs H self (j + 1) i j}
  | .error _ => ∅

end StratumSample

/-! ### The inputs of a tree -/

section Tree

variable {H : HashFn w} {v : ℕ → Bytes} {pos : ℕ → Position} {c : Cache w}

/-- The nodes that are built on remembered subtrees are hashed from their inputs. -/
theorem buildInodesInputs_spine {t : Tree} (ht : t.LeftPerfect)
    (hget : ∀ p ∈ t.spine, c.getPbstRoot p.1.hi p.1.height = .ok (nodeInfo H v pos p.1)) :
    ∀ ns, Slate.buildInodesInputs H c (treeHash H v (.leaf t.hi))
      ((t.spine.map spineNode).reverse ++ ns) =
        (t.spine.map fun p => (scheme H).input v (.node p.1 p.2)).reverse ++
          Slate.buildInodesInputs H c (treeHash H v t) ns := by
  induction ht with
  | leaf => exact fun ns => rfl
  | @node l r hl hr hp hle ha hd _ ihr =>
    intro ns
    have ih := ihr (fun p hp => hget p (List.mem_cons_of_mem _ hp)) (spineNode (l, r) :: ns)
    have hstep : Slate.buildInodesInputs H c (treeHash H v r) (spineNode (l, r) :: ns) =
        (scheme H).input v (.node l r) ::
          Slate.buildInodesInputs H c (treeHash H v (.node l r)) ns := by
      have h1 : c.getPbstRoot (spineNode (l, r)).left.i (spineNode (l, r)).left.j =
          .ok (nodeInfo H v pos l) := hget (l, r) List.mem_cons_self
      rw [Slate.buildInodesInputs, h1]
      rfl
    rw [Tree.spine_node, List.map_cons, List.map_cons, List.reverse_cons, List.reverse_cons,
      List.append_assoc, List.singleton_append, Tree.hi_node, ih, hstep, List.append_assoc]
    rfl

/-- **An append hashes the inputs of the nodes it adds.** -/
theorem SlateOf.appendInputs_eq {S : LogStorage (Entry w) Entry.Placed} {L n : ℕ}
    {s : Slate S.toStorage} (h : SlateOf S H L v n s) :
    Slate.appendInputs H s (v (n + 1)) = (scheme H).input v (.leaf (n + 1)) ::
      ((Tree.upTo (n + 1)).spine.map fun p => (scheme H).input v (.node p.1 p.2)).reverse := by
  have hn : 1 ≤ n + 1 := Nat.le_add_left 1 n
  have hb := h.fits.lt
  have hspine := buildInodesInputs_spine (Tree.leftPerfect_upTo hn)
    (fun p hp => getPbstRoot_of_spine h.represents hp) []
  rw [Tree.hi_upTo hn, List.append_nil] at hspine
  rw [Slate.appendInputs, nextIndex_eq h.represents hb, ok_bind, new_eq hn hb, ok_bind]
  have hinodes := inodes_new hn hb
  change valueInput (v (n + 1)) :: (match (modelOf (n + 1)).inodes with
    | .ok nodes => Slate.buildInodesInputs H s.cache (treeHash H v (.leaf (n + 1))) nodes
    | .error _ => []) = _
  rw [show (modelOf (n + 1)).inodes = _ from hinodes]
  simp only [hspine, Slate.buildInodesInputs, List.append_nil]
  rfl

/-- **What is hashed in the tree of some payloads is hashed while a slate is built.** -/
theorem inputs_subset_buildInputs {B : Backend w} {vs : List Bytes} (L : ℕ) (h : B.Holds H vs)
    (hn : 1 ≤ vs.length) :
    (scheme H).inputs (payload vs) (Tree.upTo vs.length) ⊆ buildInputs B H L vs := by
  rintro x ⟨t, ht, rfl⟩
  have hu := Tree.leftPerfect_upTo hn
  have htp := ht.leftPerfect hu
  have hhi := ht.hi_le hu
  rw [Tree.hi_upTo hn] at hhi
  have hpos := htp.hi_pos
  obtain ⟨s, hs, -⟩ := build_ok L (Backend.Holds.take h (t.hi - 1))
  have hslate := (reaches_of_build hs).slateOf
  rw [List.length_take, Nat.min_eq_left (by omega)] at hslate
  have hslate' : SlateOf B.log H L (payload vs) (t.hi - 1) s :=
    hslate.congr fun k h1 h2 => payload_take h1 h2
  have hinputs := hslate'.appendInputs_eq
  rw [Nat.sub_add_cancel hpos] at hinputs
  refine ⟨t.hi, s, _, hpos, hhi, hs, ?_⟩
  rw [hinputs]
  cases t with
  | leaf k => exact List.mem_cons_self
  | node l r =>
    have hmem : (l, r) ∈ (Tree.upTo (Tree.node l r).hi).spine :=
      htp.spine_suffix_upTo.subset (by rw [Tree.spine_node]; exact List.mem_cons_self)
    exact List.mem_cons_of_mem _ (List.mem_reverse.mpr (List.mem_map_of_mem hmem))

end Tree

/-! ### The inputs of a climb -/

section Climb

variable {H : HashFn w} {sample : StratumSample w}

theorem toOption_bind {ε α β : Type} (x : Outcome ε α) (f : α → Outcome ε β) :
    (x >>= f).toOption = x.toOption.bind fun a => (f a).toOption := by
  cases x with
  | ok a => rfl
  | error e => rfl

theorem toOption_unwrap {ε α : Type} (x : Option α) :
    (unwrap x : Outcome ε α).toOption = x := by
  cases x with
  | none => rfl
  | some a => rfl

theorem eq_ok_of_toOption {ε α : Type} {x : Outcome ε α} {a : α} (h : x.toOption = some a) :
    x = .ok a := by
  cases x with
  | ok b => exact congrArg _ (Option.some.inj h)
  | error e => exact absurd h (Option.some_ne_none a).symm

/-- **Computing the hash of a sample is climbing** along the tree of its revision. -/
theorem computeHash_toOption {t : Tree} (ht : t.LeftPerfect) : ∀ {fuel : ℕ}, t.hi < 2 ^ 64 →
    t.height < fuel → (StratumSample.computeHash H sample fuel t.hi t.height).toOption =
      (scheme H).climb sample.leaf.i sample.leaf.value sample.witnesses.lookup t := by
  induction ht with
  | @leaf k hk =>
    intro fuel hb hf
    obtain ⟨fuel, rfl⟩ := Nat.exists_eq_succ_of_ne_zero (Nat.ne_zero_of_lt hf)
    rw [StratumSample.computeHash, if_pos (show (Tree.leaf k).height = 0 from rfl),
      MerkleScheme.climb, Tree.hi_leaf]
    by_cases h : sample.leaf.i = k
    · rw [if_pos h, if_pos h]
      rfl
    · rw [if_neg h, if_neg h]
      rfl
  | @node l r hl hr hp hle ha hd ihl ihr =>
    have hlr : (Tree.node l r).LeftPerfect := .node hl hr hp hle ha hd
    intro fuel hb hf
    obtain ⟨fuel, rfl⟩ := Nat.exists_eq_succ_of_ne_zero (Nat.ne_zero_of_lt hf)
    have h1 := hlr.hi_left_lt
    have h2 := Tree.height_left_lt l r
    have h3 := Tree.height_right_lt l r
    rw [Tree.hi_node] at hb
    have hcl : contains l.label.1 l.label.2 sample.leaf.i = _ :=
      contains_label hl (h1.trans hb) sample.leaf.i
    have hcr : contains r.label.1 r.label.2 sample.leaf.i = _ := contains_label hr hb sample.leaf.i
    rw [StratumSample.computeHash, if_neg label_node_ne, subnodesOf_label hlr hb, ok_bind,
      MerkleScheme.climb]
    simp only [hcl, hcr, ok_bind]
    by_cases hkl : l.lo ≤ sample.leaf.i ∧ sample.leaf.i ≤ l.hi
    · rw [if_pos (decide_eq_true hkl), if_pos hkl, toOption_bind, ← ihl (h1.trans hb)
        (show l.height < fuel by omega)]
      refine congrArg (Option.bind _) (funext fun a => ?_)
      rw [toOption_bind, toOption_unwrap]
      rfl
    · rw [if_neg (by simpa using hkl), if_neg hkl]
      by_cases hkr : r.lo ≤ sample.leaf.i ∧ sample.leaf.i ≤ r.hi
      · rw [if_pos (decide_eq_true hkr), if_pos hkr, toOption_bind, toOption_unwrap]
        refine congrArg (Option.bind _) (funext fun a => ?_)
        rw [toOption_bind, ← ihr hb (show r.height < fuel by omega)]
        rfl
      · rw [if_neg (by simpa using hkr), if_neg hkr]
        rfl

/-- What is hashed at a node, on the way up from its left child. -/
theorem computeHashInputs_left {l r : Tree} (h : (Tree.node l r).LeftPerfect) (hb : r.hi < 2 ^ 64)
    (hk : l.lo ≤ sample.leaf.i ∧ sample.leaf.i ≤ l.hi) (fuel : ℕ) :
    StratumSample.computeHashInputs H sample (fuel + 1) (Tree.node l r).hi (Tree.node l r).height =
      StratumSample.computeHashInputs H sample fuel l.hi l.height ++
        StratumSample.combinedInput (Tree.node l r).height
          (StratumSample.computeHash H sample fuel l.hi l.height).toOption
          (sample.witnesses.lookup r.label) := by
  have hc := (contains_iff (k := sample.leaf.i) h.left (h.hi_left_lt.trans hb)).mpr hk
  rw [StratumSample.computeHashInputs, if_neg label_node_ne, subnodesOf_label h hb]
  simp only [hc]
  rfl

/-- What is hashed at a node, on the way up from its right child. -/
theorem computeHashInputs_right {l r : Tree} (h : (Tree.node l r).LeftPerfect) (hb : r.hi < 2 ^ 64)
    (hk : ¬(l.lo ≤ sample.leaf.i ∧ sample.leaf.i ≤ l.hi))
    (hk' : r.lo ≤ sample.leaf.i ∧ sample.leaf.i ≤ r.hi) {a : Hash w}
    (hwit : sample.witnesses.lookup l.label = some a) (fuel : ℕ) :
    StratumSample.computeHashInputs H sample (fuel + 1) (Tree.node l r).hi (Tree.node l r).height =
      StratumSample.computeHashInputs H sample fuel r.hi r.height ++
        StratumSample.combinedInput (Tree.node l r).height (some a)
          (StratumSample.computeHash H sample fuel r.hi r.height).toOption := by
  have hcl : contains l.label.1 l.label.2 sample.leaf.i = .ok false :=
    (contains_label h.left (h.hi_left_lt.trans hb) _).trans (by rw [decide_eq_false hk])
  have hcr := (contains_iff (k := sample.leaf.i) h.right hb).mpr hk'
  rw [StratumSample.computeHashInputs, if_neg label_node_ne, subnodesOf_label h hb]
  simp only [hcl, hcr, hwit]
  rfl

/-- **What is hashed on a climb is hashed by the code.** -/
theorem climbed_mem {x : HashInput} {t : Tree}
    (h : (scheme H).Climbed sample.leaf.i sample.leaf.value sample.witnesses.lookup x t) :
    ∀ {fuel : ℕ}, t.LeftPerfect → t.hi < 2 ^ 64 → t.height < fuel →
      x ∈ StratumSample.computeHashInputs H sample fuel t.hi t.height := by
  induction h with
  | @leaf i hi hx =>
    intro fuel ht hb hf
    obtain ⟨fuel, rfl⟩ := Nat.exists_eq_succ_of_ne_zero (Nat.ne_zero_of_lt hf)
    rw [StratumSample.computeHashInputs, if_pos (show (Tree.leaf i).height = 0 from rfl),
      if_pos (show sample.leaf.i = (Tree.leaf i).hi from hi), hx]
    exact List.mem_singleton_self _
  | @atLeft l r a b hk hcl hwit hx =>
    intro fuel ht hb hf
    obtain ⟨fuel, rfl⟩ := Nat.exists_eq_succ_of_ne_zero (Nat.ne_zero_of_lt hf)
    have h1 := Tree.height_left_lt l r
    rw [computeHashInputs_left ht hb hk, computeHash_toOption ht.left (ht.hi_left_lt.trans hb)
      (show l.height < fuel by omega), hcl, hwit, hx]
    exact List.mem_append_right _ (List.mem_singleton_self _)
  | @atRight l r a b hk hk' hwit hcr hx =>
    intro fuel ht hb hf
    obtain ⟨fuel, rfl⟩ := Nat.exists_eq_succ_of_ne_zero (Nat.ne_zero_of_lt hf)
    have h1 := Tree.height_right_lt l r
    rw [computeHashInputs_right ht hb hk hk' hwit, computeHash_toOption ht.right hb
      (show r.height < fuel by omega), hcr, hx]
    exact List.mem_append_right _ (List.mem_singleton_self _)
  | @left l r hk _ ih =>
    intro fuel ht hb hf
    obtain ⟨fuel, rfl⟩ := Nat.exists_eq_succ_of_ne_zero (Nat.ne_zero_of_lt hf)
    have h1 := Tree.height_left_lt l r
    rw [computeHashInputs_left ht hb hk]
    exact List.mem_append_left _
      (ih ht.left (ht.hi_left_lt.trans hb) (show l.height < fuel by omega))
  | @right l r a hk hk' hwit _ ih =>
    intro fuel ht hb hf
    obtain ⟨fuel, rfl⟩ := Nat.exists_eq_succ_of_ne_zero (Nat.ne_zero_of_lt hf)
    have h1 := Tree.height_right_lt l r
    rw [computeHashInputs_right ht hb hk hk' hwit]
    exact List.mem_append_left _ (ih ht.right hb (show r.height < fuel by omega))

/-- The root hash of a sample is a climb along the tree of its revision. -/
theorem rootHash_toOption (hn : 1 ≤ sample.revision) (hb : sample.revision < 2 ^ 64) :
    (StratumSample.rootHash H sample).toOption =
      (scheme H).climb sample.leaf.i sample.leaf.value sample.witnesses.lookup
        (Tree.upTo sample.revision) := by
  have h1 : (StratumSample.computeHash H sample _ _ _).toOption = _ :=
    computeHash_toOption (Tree.leftPerfect_upTo hn) (by rwa [Tree.hi_upTo hn]) (Nat.lt_succ_self _)
  rw [Tree.hi_upTo hn] at h1
  rw [StratumSample.rootHash, rootOf_eq hn hb, ok_bind]
  exact h1

/-- **The inputs of the climb are hashed while the root of the sample is computed.** -/
theorem climbInputs_subset (hn : 1 ≤ sample.revision) (hb : sample.revision < 2 ^ 64) :
    (scheme H).climbInputs sample.leaf.i sample.leaf.value sample.witnesses.lookup
      (Tree.upTo sample.revision) ⊆ sample.hashInputs H := by
  intro x hx
  have h1 : x ∈ StratumSample.computeHashInputs H sample _ _ _ :=
    climbed_mem hx (Tree.leftPerfect_upTo hn) (by rwa [Tree.hi_upTo hn]) (Nat.lt_succ_self _)
  rw [Tree.hi_upTo hn] at h1
  rw [StratumSample.hashInputs, rootOf_eq hn hb]
  exact h1

end Climb

end StratifiedHashTree
