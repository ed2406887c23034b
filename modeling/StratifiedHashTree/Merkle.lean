import Mathlib.Data.Set.Basic
import StratifiedHashTree.Paths

/-!
# Merkle hashing of left-perfect trees

A *scheme* (`StratifiedHashTree.MerkleScheme`) says what is hashed at a leaf and at an
inner node. The only thing asked of it is that the inputs say where they come from: the
input of a node determines its height and the two digests below it, and no input of a
leaf is one of a node. Nothing is asked of the hash function itself, so every statement
about two trees ends in an alternative: the leaves agree, or there is a *collision*
(`StratifiedHashTree.MerkleScheme.Collision`) – two different inputs, one from each
computation, with one hash.

* On one tree, equal digests mean equal leaves
  (`StratifiedHashTree.MerkleScheme.leaf_eq_or_collision`).
* A path recomputed from a leaf and some digests that an adversary chose, along a tree
  that the adversary chose as well, ends in the digest of an honest tree only when the
  leaf is the honest one (`StratifiedHashTree.MerkleScheme.climb_binding`). Both trees
  start at the same index; equal digests force equal heights, hence equal left subtrees,
  and so the two descend in step.
* Between two honest trees of one shape, the parts around any leaf show where the last
  difference is (`StratifiedHashTree.MerkleScheme.last_differing`).
-/

namespace StratifiedHashTree

/-- **A Merkle scheme**: what is hashed at a leaf and at an inner node, up to a greatest
height. -/
structure MerkleScheme (Value Input Digest : Type) where
  /-- The hash function. -/
  hash : Input → Digest
  /-- What is hashed at a leaf. -/
  leafInput : Value → Input
  /-- What is hashed at an inner node of a height, from the digests of its children. -/
  nodeInput : ℕ → Digest → Digest → Input
  /-- The greatest height that the inputs can tell apart. -/
  maxHeight : ℕ
  leafInput_injective : Function.Injective leafInput
  nodeInput_injective : ∀ {h h' : ℕ} {a a' b b' : Digest}, h ≤ maxHeight → h' ≤ maxHeight →
    nodeInput h a b = nodeInput h' a' b' → h = h' ∧ a = a' ∧ b = b'
  leafInput_ne_nodeInput : ∀ {v : Value} {h : ℕ} {a b : Digest}, 1 ≤ h → h ≤ maxHeight →
    leafInput v ≠ nodeInput h a b

open StratifiedHashTree.Tree

namespace MerkleScheme

variable {Value Input Digest : Type} (M : MerkleScheme Value Input Digest)

/-- The digest of a tree whose leaves carry values. -/
def digest (v : ℕ → Value) : Tree → Digest
  | leaf k => M.hash (M.leafInput (v k))
  | node l r => M.hash (M.nodeInput (node l r).height (digest v l) (digest v r))

/-- What is hashed at the root of a tree. -/
def input (v : ℕ → Value) : Tree → Input
  | leaf k => M.leafInput (v k)
  | node l r => M.nodeInput (node l r).height (M.digest v l) (M.digest v r)

/-- The digest of a leaf. -/
def leafDigest (v : ℕ → Value) (k : ℕ) : Digest := M.hash (M.leafInput (v k))

theorem digest_eq_hash (v : ℕ → Value) (t : Tree) : M.digest v t = M.hash (M.input v t) := by
  cases t with
  | leaf k => rfl
  | node l r => rfl

/-- Everything that is hashed in a tree. -/
def inputs (v : ℕ → Value) (t : Tree) : Set Input := {x | ∃ s, Sub s t ∧ x = M.input v s}

theorem input_mem_inputs (v : ℕ → Value) {s t : Tree} (h : Sub s t) :
    M.input v s ∈ M.inputs v t := ⟨s, h, rfl⟩

theorem inputs_subset_of_sub (v : ℕ → Value) {s t : Tree} (h : Sub s t) :
    M.inputs v s ⊆ M.inputs v t := by
  rintro x ⟨u, hu, rfl⟩
  exact ⟨u, hu.trans h, rfl⟩

/-- Two different inputs with one hash. -/
def Collision (A B : Set Input) : Prop := ∃ x ∈ A, ∃ y ∈ B, x ≠ y ∧ M.hash x = M.hash y

variable {M}

theorem Collision.mono {A A' B B' : Set Input} (h : M.Collision A B) (hA : A ⊆ A') (hB : B ⊆ B') :
    M.Collision A' B' := by
  obtain ⟨x, hx, y, hy, hne, heq⟩ := h
  exact ⟨x, hA hx, y, hB hy, hne, heq⟩

/-- Equal hashes come from equal inputs, or they collide. -/
theorem eq_or_collision {A B : Set Input} {x y : Input} (hx : x ∈ A) (hy : y ∈ B)
    (h : M.hash x = M.hash y) : x = y ∨ M.Collision A B := by
  by_cases heq : x = y
  · exact Or.inl heq
  · exact Or.inr ⟨x, hx, y, hy, heq, h⟩

/-- The digest of a tree depends on the digests of its leaves only. -/
theorem digest_congr {v v' : ℕ → Value} : ∀ {t : Tree},
    (∀ k, Sub (leaf k) t → M.leafDigest v k = M.leafDigest v' k) → M.digest v t = M.digest v' t
  | leaf k, h => h k .refl
  | node l r, h => by
    have hl := digest_congr (t := l) fun k hk => h k (.left hk)
    have hr := digest_congr (t := r) fun k hk => h k (.right hk)
    rw [digest, digest, hl, hr]

/-- Trees with different digests have a leaf with different digests. -/
theorem exists_leafDigest_ne {v v' : ℕ → Value} {t : Tree} (h : M.digest v t ≠ M.digest v' t) :
    ∃ k, Sub (leaf k) t ∧ M.leafDigest v k ≠ M.leafDigest v' k := by
  by_contra hcon
  push Not at hcon
  exact h (digest_congr hcon)

/-- **Equal digests mean equal leaves**, or there is a collision. -/
theorem leaf_eq_or_collision {v v' : ℕ → Value} : ∀ {t : Tree}, t.height ≤ M.maxHeight →
    M.digest v t = M.digest v' t →
    (∀ k, Sub (leaf k) t → v k = v' k) ∨ M.Collision (M.inputs v t) (M.inputs v' t)
  | leaf i, _, h => by
    rcases eq_or_collision (M.input_mem_inputs v (.refl (s := leaf i)))
      (M.input_mem_inputs v' (.refl (s := leaf i))) h with heq | hc
    · refine Or.inl fun k hk => ?_
      cases hk
      exact M.leafInput_injective heq
    · exact Or.inr hc
  | node l r, hh, h => by
    have hlh := (height_left_lt l r).le.trans hh
    have hrh := (height_right_lt l r).le.trans hh
    rcases eq_or_collision (M.input_mem_inputs v (.refl (s := node l r)))
      (M.input_mem_inputs v' (.refl (s := node l r))) h with heq | hc
    · obtain ⟨-, hl, hr⟩ := M.nodeInput_injective hh hh heq
      have hsl : Sub l (node l r) := .left .refl
      have hsr : Sub r (node l r) := .right .refl
      rcases leaf_eq_or_collision hlh hl with hl' | hc
      · rcases leaf_eq_or_collision hrh hr with hr' | hc
        · refine Or.inl fun k hk => ?_
          cases hk with
          | left hk => exact hl' k hk
          | right hk => exact hr' k hk
        · exact Or.inr (hc.mono (M.inputs_subset_of_sub v hsr) (M.inputs_subset_of_sub v' hsr))
      · exact Or.inr (hc.mono (M.inputs_subset_of_sub v hsl) (M.inputs_subset_of_sub v' hsl))
    · exact Or.inr hc

/-! ### Paths -/

section Climb

variable (M) (k : ℕ) (x : Value) (wit : ℕ × ℕ → Option Digest)

/-- The digest recomputed from the leaf `k` with the value `x` and from the digests that
`wit` gives to the siblings. -/
def climb : Tree → Option Digest
  | leaf i => if k = i then some (M.hash (M.leafInput x)) else none
  | node l r =>
    if l.lo ≤ k ∧ k ≤ l.hi then do
      let a ← climb l
      let b ← wit r.label
      return M.hash (M.nodeInput (node l r).height a b)
    else if r.lo ≤ k ∧ k ≤ r.hi then do
      let a ← wit l.label
      let b ← climb r
      return M.hash (M.nodeInput (node l r).height a b)
    else
      none

/-- Everything that is hashed on the way. -/
inductive Climbed (y : Input) : Tree → Prop
  /-- At the leaf. -/
  | leaf {i : ℕ} : k = i → y = M.leafInput x → Climbed y (leaf i)
  /-- At a node, on the way up from its left child. -/
  | atLeft {l r : Tree} {a b : Digest} : l.lo ≤ k ∧ k ≤ l.hi → climb M k x wit l = some a →
      wit r.label = some b → y = M.nodeInput (node l r).height a b → Climbed y (node l r)
  /-- At a node, on the way up from its right child. -/
  | atRight {l r : Tree} {a b : Digest} : ¬(l.lo ≤ k ∧ k ≤ l.hi) → r.lo ≤ k ∧ k ≤ r.hi →
      wit l.label = some a → climb M k x wit r = some b →
      y = M.nodeInput (node l r).height a b → Climbed y (node l r)
  /-- Below the left child. -/
  | left {l r : Tree} : l.lo ≤ k ∧ k ≤ l.hi → Climbed y l → Climbed y (node l r)
  /-- Below the right child. -/
  | right {l r : Tree} {a : Digest} : ¬(l.lo ≤ k ∧ k ≤ l.hi) → r.lo ≤ k ∧ k ≤ r.hi →
      wit l.label = some a → Climbed y r → Climbed y (node l r)

/-- Everything that is hashed on the way, as a set. -/
def climbInputs (t : Tree) : Set Input := {y | M.Climbed k x wit y t}

variable {M k x wit}

/-- What a climb through a node returns. -/
theorem climb_node {l r : Tree} {d : Digest} (h : M.climb k x wit (node l r) = some d) :
    ∃ a b, d = M.hash (M.nodeInput (node l r).height a b) ∧
      ((l.lo ≤ k ∧ k ≤ l.hi) ∧ M.climb k x wit l = some a ∧ wit r.label = some b ∨
        ¬(l.lo ≤ k ∧ k ≤ l.hi) ∧ (r.lo ≤ k ∧ k ≤ r.hi) ∧ wit l.label = some a ∧
          M.climb k x wit r = some b) := by
  rw [climb] at h
  by_cases hl : l.lo ≤ k ∧ k ≤ l.hi
  · rw [if_pos hl] at h
    simp only [Option.bind_eq_bind, Option.bind_eq_some_iff, Option.pure_def,
      Option.some.injEq] at h
    obtain ⟨a, ha, b, hb, rfl⟩ := h
    exact ⟨a, b, rfl, Or.inl ⟨hl, ha, hb⟩⟩
  · rw [if_neg hl] at h
    by_cases hr : r.lo ≤ k ∧ k ≤ r.hi
    · rw [if_pos hr] at h
      simp only [Option.bind_eq_bind, Option.bind_eq_some_iff, Option.pure_def,
        Option.some.injEq] at h
      obtain ⟨a, ha, b, hb, rfl⟩ := h
      exact ⟨a, b, rfl, Or.inr ⟨hl, hr, ha, hb⟩⟩
    · rw [if_neg hr] at h
      exact absurd h (Option.some_ne_none d).symm

/-- **Binding.** A climb along a left-perfect tree `u` that ends in the digest of a
left-perfect tree `t` starting at the same index has started at a leaf of `t`, or there is
a collision. The induction is on `u`; equal inputs at the two roots make their left
subtrees alike, whatever the right ones are. -/
theorem climb_binding {v : ℕ → Value} {u : Tree} (hu : LeftPerfect u) : ∀ {t : Tree},
    LeftPerfect t → u.lo = t.lo → u.height ≤ M.maxHeight → t.height ≤ M.maxHeight →
    M.climb k x wit u = some (M.digest v t) →
    (t.lo ≤ k ∧ k ≤ t.hi ∧ x = v k) ∨ M.Collision (M.climbInputs k x wit u) (M.inputs v t) := by
  induction hu with
  | @leaf i hi =>
    intro t ht hlo _ hth h
    rw [climb] at h
    by_cases hk : k = i
    · rw [if_pos hk, Option.some.injEq, digest_eq_hash] at h
      -- the leaf of the climb is hashed as a leaf, so `t` has to be one
      rcases eq_or_collision (B := M.inputs v t)
        (show M.leafInput x ∈ M.climbInputs k x wit (.leaf i) from .leaf hk rfl)
        (M.input_mem_inputs v .refl) h with heq | hc
      · cases t with
        | leaf i' =>
          obtain rfl : i = i' := hlo
          subst hk
          exact Or.inl ⟨Nat.le_refl _, Nat.le_refl _, M.leafInput_injective heq⟩
        | node l r =>
          exact absurd heq (M.leafInput_ne_nodeInput (by rw [height_node]; omega) hth)
      · exact Or.inr hc
    · rw [if_neg hk] at h
      exact absurd h (Option.some_ne_none _).symm
  | @node l r hl hr hp hle ha hd ihl ihr =>
    have hlr : LeftPerfect (.node l r) := .node hl hr hp hle ha hd
    intro t ht hlo huh hth h
    obtain ⟨a, b, hab, hcase⟩ := climb_node h
    have hmem : M.nodeInput (Tree.node l r).height a b ∈ M.climbInputs k x wit (.node l r) := by
      rcases hcase with ⟨hk, ha, hb⟩ | ⟨hk, hk', ha, hb⟩
      · exact .atLeft hk ha hb rfl
      · exact .atRight hk hk' ha hb rfl
    rw [digest_eq_hash] at hab
    rcases eq_or_collision hmem (M.input_mem_inputs v (.refl (s := t))) hab.symm with heq | hc
    · cases t with
      | leaf i => exact absurd heq.symm (M.leafInput_ne_nodeInput (by rw [height_node]; omega) huh)
      | node l' r' =>
        obtain ⟨hh, rfl, rfl⟩ := M.nodeInput_injective huh hth heq
        -- the left subtrees are perfect, of one height, and start at one index
        have hlh : l.height = l'.height := by
          have h1 := hlr.height_eq
          have h2 := ht.height_eq
          omega
        have hls : l.size = l'.size := by
          rw [show l.size = 2 ^ l.height from hp, show l'.size = 2 ^ l'.height from ht.perfect_left,
            hlh]
        have hlo' : l.lo = l'.lo := hlo
        have h1 := hl.lo_add_size
        have h2 := ht.left.lo_add_size
        have h3 := ht.lo_right
        have h4 := ht.left.lo_le_hi
        have h5 := ht.hi_left_lt
        rcases hcase with ⟨hk, hcl, hcr⟩ | ⟨hk, hk', hcl, hcr⟩
        -- so the right ones start at one index as well, and the induction goes on in either
        · rcases ihl ht.left hlo' ((height_left_lt l r).le.trans huh)
            ((height_left_lt l' r').le.trans hth) hcl with ⟨h6, h7, h8⟩ | hc
          · exact Or.inl ⟨h6, h7.trans h5.le, h8⟩
          · exact Or.inr (hc.mono (fun y hy => .left hk hy)
              (M.inputs_subset_of_sub v (.left .refl)))
        · rcases ihr ht.right (by omega) ((height_right_lt l r).le.trans huh)
            ((height_right_lt l' r').le.trans hth) hcr with ⟨h6, h7, h8⟩ | hc
          · refine Or.inl ⟨?_, h7, h8⟩
            rw [lo_node]
            omega
          · exact Or.inr (hc.mono (fun y hy => .right hk hk' hcl hy)
              (M.inputs_subset_of_sub v (.right .refl)))
    · exact Or.inr hc

/-- **Completeness.** Climbing with the digests of the siblings gives the digest of the
tree. -/
theorem climb_complete {v : ℕ → Value} {t : Tree} (ht : LeftPerfect t) (hlo : t.lo ≤ k)
    (hhi : k ≤ t.hi) (hw : ∀ s ∈ siblings k t, wit s.label = some (M.digest v s)) :
    M.climb k (v k) wit t = some (M.digest v t) := by
  induction ht with
  | @leaf i hi =>
    obtain rfl : k = i := le_antisymm hhi hlo
    exact if_pos rfl
  | @node l r hl hr hp hle ha hd ihl ihr =>
    rw [climb]
    by_cases hk : k ≤ l.hi
    · rw [siblings_left hk] at hw
      rw [if_pos ⟨hlo, hk⟩, ihl hlo hk fun s hs => hw s (List.mem_cons_of_mem _ hs),
        hw r List.mem_cons_self]
      rfl
    · rw [siblings_right hk] at hw
      rw [if_neg fun h => hk h.2, if_pos ⟨by omega, hhi⟩,
        hw l (List.mem_append_right _ (List.mem_singleton_self l)),
        ihr (by omega) hhi fun s hs => hw s (List.mem_append_left _ hs)]
      rfl

end Climb

/-! ### Differences -/

section Differences

variable {v v' : ℕ → Value} {t : Tree}

/-- The digests of subtrees tell leaves apart. -/
def Separates (M : MerkleScheme Value Input Digest) (v v' : ℕ → Value) (t : Tree) : Prop :=
  ∀ s, Sub s t → M.digest v s = M.digest v' s →
    ∀ k, Sub (leaf k) s → M.leafDigest v k = M.leafDigest v' k

/-- Without a collision, the digests of subtrees tell leaves apart. -/
theorem separates_or_collision (M : MerkleScheme Value Input Digest) (v v' : ℕ → Value)
    (hh : t.height ≤ M.maxHeight) :
    Separates M v v' t ∨ M.Collision (M.inputs v t) (M.inputs v' t) := by
  by_cases hc : M.Collision (M.inputs v t) (M.inputs v' t)
  · exact Or.inr hc
  · refine Or.inl fun s hs heq k hk => ?_
    rcases leaf_eq_or_collision (hs.height_le.trans hh) heq with h | h
    · rw [leafDigest, leafDigest, h k hk]
    · exact absurd (h.mono (M.inputs_subset_of_sub v hs) (M.inputs_subset_of_sub v' hs)) hc

/-- The digest of a tree depends on the digests of its parts only. -/
theorem digest_congr_parts {k : ℕ} : ∀ {t : Tree},
    (∀ s ∈ parts k t, M.digest v s = M.digest v' s) → M.digest v t = M.digest v' t
  | leaf i, h => h _ (List.mem_singleton_self _)
  | node l r, h => by
    by_cases hk : k ≤ l.hi
    · rw [parts_left hk] at h
      rw [digest, digest, digest_congr_parts (t := l) fun s hs => h s (List.mem_append_left _ hs),
        h r (List.mem_append_right _ (List.mem_singleton_self r))]
    · rw [parts_right hk] at h
      rw [digest, digest, digest_congr_parts (t := r) fun s hs => h s (List.mem_cons_of_mem _ hs),
        h l List.mem_cons_self]

theorem sub_leaf_iff (ht : LeftPerfect t) {k : ℕ} : Sub (leaf k) t ↔ t.lo ≤ k ∧ k ≤ t.hi := by
  constructor
  · intro h
    exact ⟨h.lo_le ht, h.hi_le ht⟩
  · intro h
    exact sub_of_mem_parts (ht.leaf_mem_parts h.1 h.2)

/-- **The last part that differs holds the last leaf that differs.** -/
theorem last_differing [DecidableEq Digest] (ht : LeftPerfect t) (hsep : Separates M v v' t)
    {m : ℕ} (hlo : t.lo ≤ m) (hhi : m ≤ t.hi) (hm : M.leafDigest v m ≠ M.leafDigest v' m)
    (hmax : ∀ k, m < k → k ≤ t.hi → M.leafDigest v k = M.leafDigest v' k) (i : ℕ) :
    ∃ p, ((parts i t).filter fun s => M.digest v s ≠ M.digest v' s).getLast? = some p ∧
      p ∈ parts i t ∧ p.lo ≤ m ∧ m ≤ p.hi := by
  obtain ⟨p, hp, hpm⟩ := ht.exists_mem_parts i hlo hhi
  have hsub := sub_of_mem_parts hp
  have hpl := hsub.leftPerfect ht
  have hne : M.digest v p ≠ M.digest v' p := fun heq =>
    hm (hsep p hsub heq m ((sub_leaf_iff hpl).mpr hpm))
  have hmem : p ∈ (parts i t).filter fun s => M.digest v s ≠ M.digest v' s :=
    List.mem_filter.mpr ⟨hp, decide_eq_true hne⟩
  refine ⟨p, ?_, hp, hpm⟩
  obtain ⟨xs, ys, hsplit⟩ := List.append_of_mem hmem
  have hsorted := (ht.parts_sorted i).filter fun s => M.digest v s ≠ M.digest v' s
  cases ys with
  | nil => rw [hsplit, List.getLast?_concat]
  | cons q ys =>
    -- a later part would have a later difference
    rw [hsplit, List.pairwise_append] at hsorted
    have hlt := (List.pairwise_cons.mp hsorted.2.1).1 q List.mem_cons_self
    have hq : q ∈ (parts i t).filter fun s => M.digest v s ≠ M.digest v' s := by
      rw [hsplit]
      exact List.mem_append_right _ (List.mem_cons_of_mem _ List.mem_cons_self)
    obtain ⟨hq, hqne⟩ := List.mem_filter.mp hq
    have hqsub := sub_of_mem_parts hq
    obtain ⟨k, hk, hkne⟩ := exists_leafDigest_ne (of_decide_eq_true hqne)
    have hk' := (sub_leaf_iff (hqsub.leftPerfect ht)).mp hk
    have hqhi := hqsub.hi_le ht
    exact absurd (hmax k (by omega) (by omega)) hkne

end Differences

end MerkleScheme

end StratifiedHashTree
