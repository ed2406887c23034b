import StratifiedHashTree.Snapshots
import StratifiedHashTree.Unfold

/-!
# Walks and scans

The two ways to see many entries of a generation, in the words of the crate.

A *walk* is the recursion over the nodes of the tree: it starts at `rootOf m` and goes on with
the children that `subnodesOf` names, the right one first
(`StratifiedHashTree.visit`). Nothing of the storage is in it, and yet it makes the same calls
as the walk over the stored entries, whatever the callback answers and remembers
(`StratifiedHashTree.walkDown_simulates`). The calls of a walk that never turns back are the
nodes of the tree (`StratifiedHashTree.Tree.nodes`), each of them once.

A *scan* is a loop over consecutive records. It delivers the entries of the range that is left
of its bounds, up to the first one that the callback refuses
(`StratifiedHashTree.scan_exact`).
-/

namespace StratifiedHashTree

open Outcome Formula FormulaTree

variable {w : ℕ} {κ : Type}

namespace Snapshot

variable {S : Storage (Entry w)}

/-- Opens a query, and walks down from the root. -/
def walkDown (self : Snapshot S) (fuel : ℕ) (callback : WalkFn w κ) : Run (κ × S.State) Unit := do
  let query ← Prog.onSnd self.query
  query.walkDown fuel callback

end Snapshot

/-! ### The recursion over the nodes -/

/-- The recursion from the node `b_{i,j}`, within a step bound. -/
def visitFrom (H : HashFn w) (v : ℕ → Bytes) (revision : Index) (callback : WalkFn w κ) :
    ℕ → Index → ℕ → Run κ Unit
  | 0, _, _ => fun s => (.error .outOfFuel, s)
  | fuel + 1, i, j => do
    let hash ← (merkleHash H v i j : Result (Hash w))
    if j = 0 then do
      let _ ← callback revision i j hash (some (v i))
      return ()
    else do
      let dir ← callback revision i j hash none
      let (l, r) ← (subnodesOf i j : Result _)
      match dir with
      | .terminate => return ()
      | .right => visitFrom H v revision callback fuel r.1 r.2
      | .left => visitFrom H v revision callback fuel l.1 l.2
      | .both => do
        visitFrom H v revision callback fuel r.1 r.2
        visitFrom H v revision callback fuel l.1 l.2

/-- **The recursion over the nodes of a generation.** The generation 0 has none. -/
def visit (H : HashFn w) (v : ℕ → Bytes) (revision : Index) (callback : WalkFn w κ) : Run κ Unit :=
  if revision = 0 then
    return ()
  else do
    let (i, j) ← (rootOf revision : Result _)
    visitFrom H v revision callback (j + 1) i j

section Visit

variable {H : HashFn w} {v : ℕ → Bytes}

/-- **The formulas walk over the tree.** -/
theorem visitFrom_label (revision : Index) (callback : WalkFn w κ) {t : Tree}
    (ht : t.LeftPerfect) : t.hi < 2 ^ 64 → ∀ fuel, t.height < fuel →
      visitFrom H v revision callback fuel t.hi t.height = walkTree H v revision callback t := by
  induction ht with
  | @leaf k hk =>
    intro hb fuel hf
    obtain ⟨fuel, rfl⟩ := Nat.exists_eq_succ_of_ne_zero (Nat.ne_zero_of_lt hf)
    rw [visitFrom, merkleHash_label (.leaf hk) hb, Prog.liftM_eq, Prog.lift_ok_bind,
      if_pos (Tree.height_leaf k), walkTree]
    rfl
  | @node l r hl hr hp hle ha hd ihl ihr =>
    have hlr : (Tree.node l r).LeftPerfect := .node hl hr hp hle ha hd
    have hlt := hlr.hi_left_lt
    have hhl := Tree.height_left_lt l r
    have hhr := Tree.height_right_lt l r
    intro hb fuel hf
    obtain ⟨fuel, rfl⟩ := Nat.exists_eq_succ_of_ne_zero (Nat.ne_zero_of_lt hf)
    have hb' : r.hi < 2 ^ 64 := hb
    have hleft := ihl (hlt.trans hb') fuel (by omega)
    have hright := ihr hb' fuel (by omega)
    rw [visitFrom, merkleHash_label hlr hb, Prog.liftM_eq, Prog.lift_ok_bind, if_neg label_node_ne,
      walkTree]
    refine bind_congr fun dir => ?_
    rw [subnodesOf_label hlr hb', Prog.liftM_eq, Prog.lift_ok_bind]
    cases dir <;> simp only [Tree.label, hleft, hright]

theorem visit_eq {m : ℕ} (hm : 1 ≤ m) (hb : m < 2 ^ 64) (callback : WalkFn w κ) :
    visit H v m callback = walkTree H v m callback (Tree.upTo m) := by
  have hhi := Tree.hi_upTo hm
  have h1 := visitFrom_label (H := H) (v := v) m callback (Tree.leftPerfect_upTo hm)
    (by rwa [hhi]) _ (Nat.lt_succ_self _)
  rw [visit, if_neg (show ¬m = 0 by omega), rootOf_label hm hb, Prog.liftM_eq, Prog.lift_ok_bind]
  exact h1

theorem not_inTree_zero (x : Index × ℕ) : ¬InTree 0 x := by
  intro h
  induction h with
  | root hr => exact absurd hr (by simp [rootOf, debugAssert, Outcome.panic])
  | left _ _ _ ih => exact ih
  | right _ _ _ ih => exact ih

/-! ### Visiting every node -/

/-- A call of a callback: the node, its hash and, at a leaf, its value. -/
structure Visited (w : ℕ) where
  i : Index
  j : ℕ
  hash : Hash w
  value : Option Bytes

/-- A callback that always answers with both sides, and remembers what it likes. -/
def answerBoth (f : κ → Visited w → κ) : WalkFn w κ := fun _ i j hash value s =>
  (.ok .both, f s ⟨i, j, hash, value⟩)

/-- The call for a node of the tree. -/
def visitedOf (H : HashFn w) (v : ℕ → Bytes) (t : Tree) : Visited w :=
  { i := t.hi, j := t.height, hash := treeHash H v t
    value := if t.height = 0 then some (v t.hi) else none }

/-- **A walk that never turns back** visits one node after the other. -/
theorem walkTree_answerBoth (revision : Index) (f : κ → Visited w → κ) (t : Tree) (a : κ) :
    walkTree H v revision (answerBoth f) t a =
      (.ok (), (t.nodes.map (visitedOf H v)).foldl f a) := by
  induction t generalizing a with
  | leaf k => rfl
  | node l r ihl ihr =>
    have hcall : answerBoth f revision r.hi (Tree.node l r).height (treeHash H v (.node l r)) none a
        = (.ok .both, f a (visitedOf H v (.node l r))) := by
      rw [answerBoth, visitedOf, if_neg label_node_ne, Tree.hi_node]
    rw [walkTree, Prog.bind_ok hcall]
    simp only
    rw [Prog.bind_ok (ihr _), ihl, Tree.nodes, List.map_cons, List.foldl_cons, List.map_append,
      List.foldl_append]

end Visit

section Slates

variable {B : Backend w} {H : HashFn w} {L fuel m : ℕ} {vs : List Bytes} {s : SlateOn B}
  {snapshot : Snapshot B.log.toStorage}

/-- The walk of a view. -/
theorem View.walkDown_eq {S : LogStorage (Entry w) Entry.Placed} {v : ℕ → Bytes} {m n : ℕ}
    {snapshot : Snapshot S.toStorage} {st : S.State} (h : View S H L v m n snapshot st)
    (hf : INDEX_SIZE < fuel) (callback : WalkFn w κ) (a : κ) :
    snapshot.walkDown fuel callback (a, st) = Prog.onFst (visit H v m callback) (a, st) := by
  rw [Snapshot.walkDown, Prog.bind_ok (Prog.onSnd_run h.query_eq a)]
  rcases Nat.eq_zero_or_pos m with rfl | hm
  · have hc : snapshot.cache = Cache.empty L := h.represents
    rw [Query.walkDown, hc]
    rfl
  · rw [visit_eq hm h.lt]
    exact StratifiedHashTree.walkDown_eq (h.represents.loaded hm) hm h.readable callback
      (height_upTo_lt hm h.lt hf) a

/-- **The stored walk is the recursion over the nodes**, whatever the callback answers and
remembers; and when it always answers with both sides, it visits every node of the generation
once. -/
theorem walkDown_simulates (h : Reaches B H L vs s) (hf : INDEX_SIZE < fuel)
    (hsnap : (snapshot = s.snapshot ∧ m = vs.length) ∨
      Slate.snapshotAt fuel m s = (.ok snapshot, s)) :
    m ≤ vs.length ∧
    (∀ {κ : Type} (callback : WalkFn w κ) (a : κ),
      snapshot.walkDown fuel callback (a, s.storage) =
        Prog.onFst (visit H (payload vs) m callback) (a, s.storage)) ∧
    ∃ calls : List (Visited w),
      calls.length = totalNodes m ∧ (calls.map fun call => (call.i, call.j)).Nodup ∧
      (∀ x, x ∈ calls.map (fun call => (call.i, call.j)) ↔ InTree m x) ∧
      (∀ call ∈ calls, merkleHash H (payload vs) call.i call.j = .ok call.hash ∧
        call.value = if call.j = 0 then some (payload vs call.i) else none) ∧
      ∀ {κ : Type} (f : κ → Visited w → κ) (a : κ),
        snapshot.walkDown fuel (answerBoth f) (a, s.storage) =
          (.ok (), (calls.foldl f a, s.storage)) := by
  have hview := h.view hf hsnap
  refine ⟨hview.le, fun callback a => hview.walkDown_eq hf callback a, ?_⟩
  rcases Nat.eq_zero_or_pos m with rfl | hm
  · refine ⟨[], rfl, List.nodup_nil, fun x => ⟨fun hx => absurd hx List.not_mem_nil, fun hx => ?_⟩,
      fun call hcall => absurd hcall List.not_mem_nil, fun f a => hview.walkDown_eq hf _ a⟩
    exact absurd hx (not_inTree_zero x)
  · have hu := Tree.leftPerfect_upTo hm
    have hlabels : ((Tree.upTo m).nodes.map (visitedOf H (payload vs))).map
        (fun call => (call.i, call.j)) = (Tree.upTo m).nodes.map Tree.label := by
      rw [List.map_map]
      rfl
    refine ⟨(Tree.upTo m).nodes.map (visitedOf H (payload vs)), ?_, ?_, fun x => ?_, ?_, ?_⟩
    · have h1 := Tree.length_nodes (Tree.upTo m)
      rw [Tree.upTo, Tree.size_grow 0 m hm] at h1
      rw [List.length_map, totalNodes, if_neg (show ¬m = 0 by omega), Tree.upTo]
      omega
    · rw [hlabels]
      exact hu.nodup_nodes
    · rw [hlabels, List.mem_map, inTree_iff hm hview.lt]
      constructor
      · rintro ⟨t, ht, rfl⟩
        exact ⟨t, Tree.mem_nodes_iff.mp ht, rfl⟩
      · rintro ⟨t, ht, rfl⟩
        exact ⟨t, Tree.mem_nodes_iff.mpr ht, rfl⟩
    · intro call hcall
      obtain ⟨t, ht, rfl⟩ := List.mem_map.mp hcall
      obtain ⟨h1, h2⟩ := sub_upTo hm hview.lt (Tree.mem_nodes_iff.mp ht)
      exact ⟨merkleHash_label h1 h2, rfl⟩
    · intro κ f a
      rw [hview.walkDown_eq hf, visit_eq hm hview.lt]
      exact Prog.onFst_run (walkTree_answerBoth m f _ a) s.storage

/-- A slate with three payloads: the current snapshot, and one of the second generation. -/
theorem walkDown_simulates_three : ∃ s : SlateOn tinyBlock, Reaches tinyBlock byteSum 1
    [[1], [], [2, 3]] s ∧ ∃ snapshot, Slate.snapshotAt 65 2 s = (.ok snapshot, s) ∧
      ∃ calls : List (Visited 1), calls.length = 3 ∧
        snapshot.walkDown 65 (answerBoth fun n _ => n + 1) (0, s.storage) =
          (.ok (), (calls.foldl (fun n _ => n + 1) 0, s.storage)) := by
  obtain ⟨s, h⟩ := exists_reaches_of_length_lt tinyBlock byteSum 1 [[1], [], [2, 3]]
    (by decide) (by decide)
  obtain ⟨snapshot, hsnap, -⟩ := h.slateOf.viewAt (show INDEX_SIZE < 65 by decide)
    (show 1 ≤ 2 by decide) (show 2 ≤ 3 by decide)
  obtain ⟨-, -, calls, hlen, -, -, -, hcalls⟩ :=
    walkDown_simulates h (show INDEX_SIZE < 65 by decide) (Or.inr hsnap)
  exact ⟨s, h, snapshot, hsnap, calls, hlen, hcalls _ 0⟩

/-! ### Scans -/

/-- The first datum that a callback refuses, by its number, and the error. -/
def firstRefused {α : Type} (callback : ScanFn α κ) : List α → κ → Option (ℕ × String)
  | [], _ => none
  | x :: xs, a =>
    match callback x a with
    | (.ok (), a') => (firstRefused callback xs a').map fun r => (r.1 + 1, r.2)
    | (.error e, _) => some (1, e)

/-- A callback, with the data that were delivered to it. -/
def recording {α : Type} (callback : ScanFn α κ) : ScanFn α (κ × List α) := fun x s =>
  ((callback x s.1).1, ((callback x s.1).2, s.2 ++ [x]))

/-- **What passing a list delivers**: everything, or as much as the callback does not refuse and
one more. -/
theorem scanList_recording {α : Type} (callback : ScanFn α κ) (xs : List α) (a : κ)
    (delivered : List α) :
    ∃ a', scanList (recording callback) xs (a, delivered) =
      match firstRefused callback xs a with
      | none => (.ok xs.length, (a', delivered ++ xs))
      | some (k, e) => (.error (.err (.callback e)), (a', delivered ++ xs.take k)) := by
  induction xs generalizing a delivered with
  | nil => exact ⟨a, by rw [List.append_nil]; rfl⟩
  | cons x xs ih =>
    rcases hx : callback x a with ⟨e | _, a1⟩
    · refine ⟨a1, ?_⟩
      rw [scanList, recording, firstRefused]
      simp only [hx]
      rfl
    · obtain ⟨a', h⟩ := ih a1 (delivered ++ [x])
      refine ⟨a', ?_⟩
      have hrec : recording callback x (a, delivered) = (.ok (), (a1, delivered ++ [x])) := by
        rw [recording, hx]
      rw [scanList, firstRefused, hrec, hx]
      simp only [h]
      rcases firstRefused callback xs a1 with _ | ⟨k, e⟩
      · simp [Except.map]
      · simp [Except.map]

theorem firstRefused_bounds {α : Type} (callback : ScanFn α κ) (xs : List α) (a : κ) {k : ℕ}
    {e : String} (h : firstRefused callback xs a = some (k, e)) : 1 ≤ k ∧ k ≤ xs.length := by
  induction xs generalizing a k with
  | nil => exact absurd h (by simp [firstRefused])
  | cons x xs ih =>
    rw [firstRefused] at h
    rcases hx : callback x a with ⟨e' | _, a1⟩
    · simp only [hx, Option.some.injEq, Prod.mk.injEq] at h
      rw [List.length_cons]
      omega
    · simp only [hx, Option.map_eq_some_iff, Prod.mk.injEq] at h
      obtain ⟨⟨k', e'⟩, h1, rfl, rfl⟩ := h
      have h2 := ih a1 h1
      rw [List.length_cons]
      omega

/-- The entries of a range, one index after the other. -/
theorem entriesBetween_map (S : LogStorage (Entry w) Entry.Placed) (H : HashFn w) (v : ℕ → Bytes)
    {x : ℕ} (hx : 1 ≤ x) (y : ℕ) :
    entriesBetween S H v x y = (List.range' x (y + 1 - x)).map (entryOf S H v) := by
  refine List.ext_getElem ?_ fun k h1 h2 => ?_
  · rw [entriesBetween, List.length_drop, length_history, List.length_map, List.length_range']
    omega
  · rw [List.getElem_map, List.getElem_range', Nat.one_mul]
    simp only [entriesBetween, List.getElem_drop]
    rw [history_getElem, show x - 1 + k + 1 = x + k by omega]

/-- **A scan is exact**: it delivers the entries that were appended for the indices of the
range, in their order, and returns how many there are. A callback that refuses an entry has got
the ones up to it, and its error is returned. -/
theorem scan_exact (B : Backend w) (H : HashFn w) (vs : List Bytes) :
    ∃ entry : Index → Entry w, ∀ (L : ℕ) (s : SlateOn B), Reaches B H L vs s →
      (∀ i, 1 ≤ i → i ≤ vs.length → AppendedEntry B H L vs i (entry i)) ∧
      ∀ (fuel : ℕ), INDEX_SIZE < fuel → ∀ (snapshot : Snapshot B.log.toStorage) (m : ℕ),
        (snapshot = s.snapshot ∧ m = vs.length) ∨ Slate.snapshotAt fuel m s = (.ok snapshot, s) →
        ∀ (i0 i1 x y : Index), x = max 1 (min i0 i1) → y = min m (max i0 i1) →
        ∀ (entries : List (Entry w)), entries = (List.range' x (y + 1 - x)).map entry →
        ∀ {κ : Type} (callback : ScanFn (Entry w) κ) (a : κ), ∃ a',
          match firstRefused callback entries a with
          | none => snapshot.scan fuel i0 i1 (recording callback) ((a, []), s.storage) =
              (.ok entries.length, ((a', entries), s.storage))
          | some (k, e) => 1 ≤ k ∧ k ≤ entries.length ∧
              snapshot.scan fuel i0 i1 (recording callback) ((a, []), s.storage) =
                (.error (.err (.callback e)), ((a', entries.take k), s.storage)) := by
  refine ⟨entryOf B.log H (payload vs), fun L s h => ?_⟩
  refine ⟨fun i h1 h2 => appendedEntry_entryOf L h.slateOf.fits h1 h2, ?_⟩
  rintro fuel hf snapshot m hsnap i0 i1 x y rfl rfl entries hentries κ callback a
  have hview := h.view hf hsnap
  obtain ⟨a', hlist⟩ := scanList_recording callback entries a []
  have hscan := hview.scan_eq hf i0 i1 (recording callback) (a, [])
  rw [max_comm, min_comm (max i0 i1) m, entriesBetween_map _ _ _ (le_max_left _ _),
    ← hentries] at hscan
  refine ⟨a', ?_⟩
  rcases hrefused : firstRefused callback entries a with _ | ⟨k, e⟩
  · rw [hrefused] at hlist
    exact hscan.trans (Prog.onFst_run hlist s.storage)
  · rw [hrefused] at hlist
    obtain ⟨h1, h2⟩ := firstRefused_bounds callback entries a hrefused
    exact ⟨h1, h2, hscan.trans (Prog.onFst_run hlist s.storage)⟩

/-- The last two of three entries, from a callback that refuses nothing. -/
theorem scan_exact_three : ∃ (s : SlateOn tinyBlock) (entry : Index → Entry 1),
    Reaches tinyBlock byteSum 1 [[1], [], [2, 3]] s ∧ ∃ a',
      s.snapshot.scan 65 7 2 (recording fun _ n => (.ok (), n + 1)) ((0, []), s.storage) =
        (.ok 2, ((a', [entry 2, entry 3]), s.storage)) := by
  obtain ⟨entry, hentry⟩ := scan_exact tinyBlock byteSum [[1], [], [2, 3]]
  obtain ⟨s, h⟩ := exists_reaches_of_length_lt tinyBlock byteSum 1 [[1], [], [2, 3]]
    (by decide) (by decide)
  exact ⟨s, entry, h, (hentry 1 s h).2 65 (by decide) s.snapshot 3 (Or.inl ⟨rfl, rfl⟩) 7 2 2 3
    rfl rfl [entry 2, entry 3] rfl (fun _ n => (.ok (), n + 1)) 0⟩

end Slates

end StratifiedHashTree
