import StratifiedHashTree.Distance
import StratifiedHashTree.Isolation
import StratifiedHashTree.Readers

/-!
# Queries that outlive a truncation

A truncation takes away entries that an open query still links to, and the next appends reuse
their positions. The query finds out in two ways: there is nothing at the position, or there
is an entry of another index. What it does not find out is that the entry has the right index
and is not the one that was there (`StratifiedHashTree.not_outdated_honest`).

On its way to a leaf a query gets some distance through its cache, which no truncation touches.
Then it takes the first branch that leads out of the cache (`StratifiedHashTree.Tree.exit`), and
from there on it is in the storage for good: an entry that the slate has now links to entries
that the slate has now, and what is found in the end is the payload that the index has now. So
it is decided at a single branch whether the answer is honest
(`StratifiedHashTree.outdated_honest`).
-/

namespace StratifiedHashTree

open Formula FormulaTree
open Outcome hiding err panic

variable {w : ℕ}

/-! ### The way out of the cache -/

namespace Tree

/-- **The way out of a cache** with so many levels: the subtree behind the first branch to the
left, on the way to a leaf, that leads out of it. -/
def exit (i : ℕ) : ℕ → Tree → Option Tree
  | _, leaf _ => none
  | 0, node l r => if i ≤ l.hi then some l else exit i 0 r
  | L + 1, node l r => if i ≤ l.hi then exit i L l else exit i (L + 1) r

theorem exit_zero_left {i : ℕ} {l r : Tree} (h : i ≤ l.hi) : exit i 0 (node l r) = some l :=
  if_pos h

theorem exit_succ_left {i L : ℕ} {l r : Tree} (h : i ≤ l.hi) :
    exit i (L + 1) (node l r) = exit i L l := if_pos h

theorem exit_right {i : ℕ} (L : ℕ) {l r : Tree} (h : ¬i ≤ l.hi) :
    exit i L (node l r) = exit i L r := by
  cases L with
  | zero => exact if_neg h
  | succ L => exact if_neg h

end Tree

/-- **A branch that leads out of the cache** of a generation, from a node with these two
children, on the way to an index. -/
structure Exit (L m i : ℕ) (u r : Tree) : Prop where
  leftPerfect : (Tree.node u r).LeftPerfect
  hi_le : r.hi ≤ m
  lo_le : u.lo ≤ i
  le_hi : i ≤ u.hi
  leadsInto : LeadsInto m (L + 1) u

section Walk

variable {S : Storage (Entry w)} {st : S.State} {H : HashFn w} {v : ℕ → Bytes} {pos : ℕ → Position}
  {L m i : ℕ} {q : Query S}

/-- What is behind the branch is not cached. -/
theorem Exit.entry_eq_none {u r : Tree} (h : Exit L m i u r)
    (hc : Represents H v pos L m q.cache) : q.cache.entry u.hi = none := by
  refine hc.entry_far (h.leftPerfect.right.hi_pos.trans h.hi_le) ?_
  rw [h.leadsInto.leftSteps_hi h.leftPerfect.left]
  omega

/-- Nor is what the branches behind it lead to. -/
theorem Exit.entry_left_eq_none {u r : Tree} (h : Exit L m i u r)
    (hc : Represents H v pos L m q.cache) {l r' : Tree} (hsub : Tree.Sub (.node l r') u) :
    q.cache.entry l.hi = none := by
  have hu := h.leftPerfect.left
  have hlr := hsub.leftPerfect hu
  refine hc.entry_far (h.leftPerfect.right.hi_pos.trans h.hi_le) ?_
  rw [h.leadsInto l.hi ((hsub.lo_le hu).trans hlr.left.lo_le_hi)
    (hlr.hi_left_lt.le.trans (hsub.hi_le hu))]
  omega

/-- **The walk of a lookup through the cache** ends at the leaf, or comes to a branch that leads
out of it. -/
theorem walkDownFrom_exit (hc : Represents H v pos L m q.cache) (hb : m < 2 ^ 64) {t : Tree}
    (ht : t.LeftPerfect) : ∀ {d}, t.hi ≤ m → t.lo ≤ i → i ≤ t.hi → LeadsInto m d t → d ≤ L →
    ∀ fuel, t.height < fuel → ∀ a,
      Tree.exit i (L - d) t = none ∧
        q.walkDownFrom (Query.getStep i) fuel t.spine.length (entryAt H v pos t.hi) (a, st) =
          (.ok (), (.ok (some (v i)), st)) ∨
      ∃ u r fuel' b, Tree.exit i (L - d) t = some u ∧ Exit L m i u r ∧ u.height < fuel' ∧
        q.walkDownFrom (Query.getStep i) fuel t.spine.length (entryAt H v pos t.hi) (a, st) =
          (Prog.onSnd (q.descend r.hi (spineINode H v pos (u, r))) >>= fun left =>
            q.walkDownFrom (Query.getStep i) fuel' left.2 left.1) (b, st) := by
  induction ht with
  | @leaf k hk =>
    intro d _ hlo hhi _ _ fuel hf a
    obtain rfl : i = k := le_antisymm hhi hlo
    obtain ⟨fuel, rfl⟩ := Nat.exists_eq_succ_of_ne_zero (Nat.ne_zero_of_lt hf)
    have hstep := getStep_leaf (w := w) i q.revision (treeHash H v (.leaf i)) (v i) a
    refine Or.inl ⟨by rw [Tree.exit], ?_⟩
    rw [Tree.hi_leaf, walkDownFrom_leaf]
    exact Prog.bind_ok (Prog.onFst_run hstep st)
  | @node l r hl hr hp hle ha hd' ihl ihr =>
    have hlr : (Tree.node l r).LeftPerfect := .node hl hr hp hle ha hd'
    have hlt := hlr.hi_left_lt
    have hhl := Tree.height_left_lt l r
    have hhr := Tree.height_right_lt l r
    intro d hm hlo hhi hinto hd fuel hf a
    rw [Tree.hi_node] at hm hhi
    rw [Tree.lo_node] at hlo
    obtain ⟨fuel, rfl⟩ := Nat.exists_eq_succ_of_ne_zero (Nat.ne_zero_of_lt hf)
    have hstep := getStep_node hlr (hm.trans_lt hb) hhi q.revision (treeHash H v (.node l r)) a
    rw [Tree.hi_node, walkDownFrom_node q _ hlr, Prog.bind_ok (Prog.onFst_run hstep st)]
    -- to the right nothing is fetched: that side is in the entry at hand
    by_cases hk : r.lo ≤ i
    · rw [if_pos hk, Tree.exit_right _ (by omega)]
      exact ihr hm hk hhi (hinto.right hlr) hd fuel (by omega) a
    · have hk' : i ≤ l.hi := by omega
      have hnext := hinto.left hlr
      rw [if_neg hk]
      rcases hd.eq_or_lt with rfl | hdlt
      · -- the cache ends here
        rw [Nat.sub_self, Tree.exit_zero_left hk']
        exact Or.inr ⟨l, r, fuel, a, rfl, ⟨hlr, hm, hlo, hk', hnext⟩, by omega, rfl⟩
      · -- within the cache the walk goes on in the left subtree, one level deeper
        have hcached : q.cache.entry l.hi = some (entryAt H v pos l.hi) :=
          hc.entry_near hl.hi_pos (by omega) ((hnext.leftSteps_hi hl).trans_le hdlt)
        have hfetch : fetchLeft S q.cache (nodeAddress pos l) st =
            (.ok (entryAt H v pos l.hi), st) := by
          rw [fetchLeft, nodeAddress_i, hcached]
          rfl
        have hgo := ihl (by omega) hlo hk' hnext hdlt fuel (by omega) a
        rw [show L - d = L - (d + 1) + 1 by omega, Tree.exit_succ_left hk']
        simp only
        rw [Prog.bind_ok (Prog.onSnd_run (descend_of_fetchLeft hlr v hfetch) a)]
        exact hgo

/-- What a lookup returns, of what its walk has come to. -/
def Query.taken (outcome : Result Unit × (Result (Option Bytes) × S.State)) :
    Result (Option Bytes) :=
  match outcome with
  | (.ok (), (result, _)) => result
  | (.error e, _) => .error e

/-- A lookup within the revision is a walk. -/
theorem get_eq_taken (hc : Represents H v pos L m q.cache) (h1 : 1 ≤ i) (h2 : i ≤ m) (fuel : ℕ) :
    (q.get fuel i st).1 = Query.taken (q.walkDownFrom (Query.getStep i) fuel
      (Tree.upTo m).spine.length (entryAt H v pos m) (.ok none, st)) := by
  have hdown := walkDown_eq_walkDownFrom (hc.loaded (h1.trans h2)) (Query.getStep i) fuel
  have hrevision : q.revision = m := hc.revision_eq
  rw [Query.get, hrevision, if_neg (show ¬(i = 0 ∨ m < i) by omega), ← hdown, Prog.bind_run,
    Query.collect]
  rcases q.walkDown fuel (Query.getStep i) (.ok none, st) with ⟨e | ⟨⟩, result, s'⟩
  · rfl
  · rfl

/-- **A lookup** finds the payload in the cache, or comes to a branch that leads out of it. -/
theorem get_exit (hc : Represents H v pos L m q.cache) (hb : m < 2 ^ 64) {fuel : ℕ}
    (hf : INDEX_SIZE < fuel) (h1 : 1 ≤ i) (h2 : i ≤ m) :
    Tree.exit i L (Tree.upTo m) = none ∧ (q.get fuel i st).1 = .ok (some (v i)) ∨
    ∃ u r fuel' b, Tree.exit i L (Tree.upTo m) = some u ∧ Exit L m i u r ∧ u.height < fuel' ∧
      (q.get fuel i st).1 = Query.taken ((Prog.onSnd (q.descend r.hi (spineINode H v pos (u, r)))
        >>= fun left => q.walkDownFrom (Query.getStep i) fuel' left.2 left.1) (b, st)) := by
  have hm := h1.trans h2
  have hhi := Tree.hi_upTo hm
  have hwalk := @walkDownFrom_exit _ S st H v pos L m i q hc hb _ (Tree.leftPerfect_upTo hm) 0
    hhi.le (by rwa [Tree.lo_upTo hm]) (by rwa [hhi]) (leadsInto_upTo m) (Nat.zero_le L) fuel
    (height_upTo_lt hm hb hf) (.ok none)
  rw [hhi, Nat.sub_zero] at hwalk
  have hget := @get_eq_taken _ S st H v pos L m i q hc h1 h2 fuel
  rcases hwalk with ⟨hexit, hw⟩ | ⟨u, r, fuel', b, hexit, hu, hfuel, hw⟩
  · rw [hw] at hget
    exact Or.inl ⟨hexit, hget⟩
  · rw [hw] at hget
    exact Or.inr ⟨u, r, fuel', b, hexit, hu, hfuel, hget⟩

end Walk

/-! ### What is found in a storage in memory -/

namespace InMemory

/-- **The entries to be found in a storage** that keeps a log. They need not be those of the log:
in a block storage, the bytes of a payload may be just like a record. -/
def Stores : InMemory w → List (Entry w) → Position → Entry w → Prop
  | .memKVS, log, p, e => (MemKVS.render log).lookup p = some e
  | .block _ checksum, log, p, e => RecordAt checksum (BlockStorage.content checksum log) p e

variable {M : InMemory w} {log : List (Entry w)} {p : Position}

theorem Stores.unique {e e' : Entry w} (h : M.Stores log p e) (h' : M.Stores log p e') :
    e = e' := by
  cases M with
  | memKVS => exact Option.some.inj (Eq.trans (Eq.symm h) h')
  | block hw checksum => exact RecordAt.unique h h'

/-- There are no entries behind the end of the log. -/
theorem Stores.lt {e : Entry w} (h : M.Stores log p e) : p < M.backend.log.endPos log := by
  cases M with
  | memKVS =>
    refine Nat.lt_of_not_le fun hle => ?_
    have hlength : log.length + 1 ≤ p := hle
    have hlookup : (MemKVS.render log).lookup p = some e := h
    rw [MemKVS.lookup_render_none (by omega)] at hlookup
    exact Option.some_ne_none e hlookup.symm
  | block hw checksum => exact RecordAt.lt h

/-- **A read** gives the entry to be found at its position, or an error. -/
theorem read_cases (M : InMemory w) {log : List (Entry w)} (hroom : M.backend.log.Room log)
    (p : Position) :
    (∃ e, M.Stores log p e ∧
      (M.backend.log.read p (M.backend.log.render log)).1 = .ok e) ∨
    (∀ e, ¬M.Stores log p e) ∧
      ∃ e, (M.backend.log.read p (M.backend.log.render log)).1 = .error (.err e) := by
  cases M with
  | memKVS =>
    change (∃ e, (MemKVS.render log).lookup p = some e ∧
      (MemKVS.read p (MemKVS.render log)).1 = .ok e) ∨
      (∀ e, ¬(MemKVS.render log).lookup p = some e) ∧
        ∃ e, (MemKVS.read p (MemKVS.render log)).1 = .error (.err e)
    rw [MemKVS.read, Prog.bind_ok (Prog.get_run _)]
    cases (MemKVS.render log).lookup p with
    | some e => exact Or.inl ⟨e, rfl, rfl⟩
    | none => exact Or.inr ⟨fun e he => Option.some_ne_none e he.symm, _, rfl⟩
  | block hw checksum =>
    have hfound : Found checksum (BlockStorage.content checksum log) p
        (BlockStorage.readReader (w := w) memoryDevice checksum p
          (MemoryDevice.disk.state true (BlockStorage.content checksum log) 0)).1 :=
      BlockStorage.readReader_found MemoryDevice.readsAll hw (BlockStorage.Room.lt hroom) _ p _
    have hread : (BlockStorage.read (w := w) memoryDevice checksum p
        (BlockStorage.render MemoryDevice.disk checksum log)).1 =
          (BlockStorage.readReader (w := w) memoryDevice checksum p
            (MemoryDevice.disk.state true (BlockStorage.content checksum log) 0)).1 :=
      congrArg Prod.fst (BlockStorage.read_eq_readReader checksum
        (MemoryDevice.disk.clone_eq false _ _))
    change (∃ e, RecordAt checksum (BlockStorage.content checksum log) p e ∧
      (BlockStorage.read memoryDevice checksum p
        (BlockStorage.render MemoryDevice.disk checksum log)).1 = .ok e) ∨
      (∀ e, ¬RecordAt checksum (BlockStorage.content checksum log) p e) ∧
        ∃ e, (BlockStorage.read (w := w) memoryDevice checksum p
          (BlockStorage.render MemoryDevice.disk checksum log)).1 = .error (.err e)
    rw [hread]
    generalize (BlockStorage.readReader (w := w) memoryDevice checksum p
      (MemoryDevice.disk.state true (BlockStorage.content checksum log) 0)).1 = result at hfound
    cases hfound with
    | record hrecord => exact Or.inl ⟨_, hrecord, rfl⟩
    | nothing hnone => exact Or.inr ⟨hnone, _, rfl⟩

/-- The entries of a slate are to be found. -/
theorem stores_own {H : HashFn w} {v : ℕ → Bytes} {n : ℕ} (h : Fits M.backend.log H v n) {k : ℕ}
    (h1 : 1 ≤ k) (h2 : k ≤ n) : M.Stores (history M.backend.log H v n)
      (positionOf M.backend.log H v k) (entryOf M.backend.log H v k) := by
  have hread := h.read h1 h2
  rcases M.read_cases h.room (positionOf M.backend.log H v k) with ⟨e, he, h3⟩ | ⟨-, e, h3⟩
  · rw [hread, Except.ok.injEq] at h3
    rwa [h3]
  · rw [hread] at h3
    exact absurd h3 (by simp)

/-- **What starts where an entry of the slate starts** is that entry. -/
theorem Stores.eq_own {H : HashFn w} {v : ℕ → Bytes} {n : ℕ} (h : Fits M.backend.log H v n)
    {e : Entry w} (he : M.Stores (history M.backend.log H v n) p e)
    (hp : ¬AppendLog.Inside M.backend.log.endPos (history M.backend.log H v n) p) :
    ∃ k, 1 ≤ k ∧ k ≤ n ∧ positionOf M.backend.log H v k = p ∧
      e = entryOf M.backend.log H v k := by
  rcases hlocate : AppendLog.locate M.backend.log.endPos (history M.backend.log H v n) p with _ | k
  · exact absurd ⟨he.lt, hlocate⟩ hp
  · obtain ⟨hk, hpos⟩ := AppendLog.of_locate hlocate
    rw [length_history] at hk
    rw [take_history _ _ _ hk.le] at hpos
    have hpos' : positionOf M.backend.log H v (k + 1) = p := hpos
    refine ⟨k + 1, Nat.succ_pos k, hk, hpos', he.unique ?_⟩
    rw [← hpos']
    exact stores_own h (Nat.succ_pos k) hk

/-- In the key-value storage an entry starts at every position. -/
theorem not_inside_memKVS {log : List (Entry w)} {p : ℕ} (hp : 1 ≤ p) :
    ¬AppendLog.Inside (InMemory.memKVS (w := w)).backend.log.endPos log p := by
  rintro ⟨hlt, hnone⟩
  have hlength : p < log.length + 1 := hlt
  rw [AppendLog.locate, List.find?_eq_none] at hnone
  refine hnone (p - 1) (List.mem_range.mpr (by omega)) (decide_eq_true ?_)
  change (log.take (p - 1)).length + 1 = p
  rw [List.length_take]
  omega

end InMemory

/-! ### What becomes of a slate -/

/-- **What may become of a slate** with some payloads by appending and truncating: other payloads,
and another slate. An append that fails leaves its payload out; that a truncation cuts nothing
is no news. -/
inductive Later {B : Backend w} (H : HashFn w) (s : SlateOn B) (vs : List Bytes) :
    SlateOn B → List Bytes → Prop
  | start : Later H s vs s vs
  | append {s' s'' : SlateOn B} {us : List Bytes} {value : Bytes} {info : MetaInfo w} :
      Later H s vs s' us → Slate.append H value s' = (.ok info, s'') →
      Later H s vs s'' (us ++ [value])
  | refuse {s' s'' : SlateOn B} {us : List Bytes} {value : Bytes} {e : Error} :
      Later H s vs s' us → Slate.append H value s' = (.error (.err e), s'') → Later H s vs s'' us
  | truncate {s' s'' : SlateOn B} {us : List Bytes} {fuel i : ℕ} :
      Later H s vs s' us → INDEX_SIZE < fuel → Slate.truncate fuel i s' = (.ok true, s'') →
      Later H s vs s'' (us.take (i - 1))
  | keep {s' s'' : SlateOn B} {us : List Bytes} {fuel i : ℕ} {result : Result Bool} :
      Later H s vs s' us → INDEX_SIZE < fuel → Slate.truncate fuel i s' = (result, s'') →
      result ≠ .ok true → Later H s vs s'' us

section Outliving

variable {H : HashFn w} {L m : ℕ} {vs us : List Bytes}

/-- Whatever has become of a slate can be reached. -/
theorem Later.reaches {B : Backend w} {s s' : SlateOn B} (h : Reaches B H L vs s)
    (hrun : Later H s vs s' us) : Reaches B H L us s' := by
  induction hrun with
  | start => exact h
  | append _ ha ih => exact ih.append ha
  | @refuse s1 s2 us value e _ ha ih =>
    have hs := ih.slateOf.congr fun k h1 h2 => payload_append_left [value] h1 h2
    rw [hs.eq_of_append_err (payload_concat us value).symm ha]
    exact ih
  | truncate _ hf ht ih => exact ih.truncate hf ht
  | @keep s1 s2 us fuel i result _ hf ht hne ih =>
    by_cases hi : 1 ≤ i ∧ i ≤ us.length
    · obtain ⟨s3, h1, -⟩ := ih.slateOf.truncate_ok hf hi.1 hi.2
      rw [h1, Prod.mk.injEq] at ht
      exact absurd ht.1.symm hne
    · have h1 := ih.slateOf.truncate_no hf (show i = 0 ∨ us.length < i by omega)
      rw [h1, Prod.mk.injEq] at ht
      rw [← ht.2]
      exact ih

/-! ### Queries that outlive it -/

/-- **An honest answer**: an error, or the payload. -/
def Honest (result : Result (Option Bytes)) (value : Bytes) : Prop :=
  (∃ e, result = .error (.err e)) ∨ result = .ok (some value)

/-- **A lie**: another payload, and nothing tells that it is another. -/
def Lie (result : Result (Option Bytes)) (value : Bytes) : Prop :=
  ∃ other, result = .ok (some other) ∧ other ≠ value

/-- **An index is spared** in a slate whose payloads have changed, for the queries of an old
generation: at the branch that leads out of their cache, nothing that passes for the old entry
is to be found; or what is found is the entry that the slate has now, and the index has its
payload again. -/
def Spared (M : InMemory w) (H : HashFn w) (L : ℕ) (vs us : List Bytes) (m i : Index) : Prop :=
  ∀ t, Tree.exit i L (Tree.upTo m) = some t →
    (∀ e, M.Stores (history M.backend.log H (payload us) us.length)
      (positionOf M.backend.log H (payload vs) t.hi) e → e.index ≠ t.hi) ∨
    t.hi ≤ us.length ∧ positionOf M.backend.log H (payload us) t.hi =
      positionOf M.backend.log H (payload vs) t.hi ∧ payload us i = payload vs i

section Crossing

variable {M : InMemory w} {s : SlateOn M.backend} {q : Query M.backend.log.toStorage} {i : ℕ}
  {u r : Tree}

/-- An entry of the slate is read where a branch leads to its place. -/
theorem fetchLeft_own (hs : SlateOf M.backend.log H L (payload us) us.length s) {t : Tree}
    (hnone : q.cache.entry t.hi = none) (h1 : 1 ≤ t.hi) (h2 : t.hi ≤ us.length)
    {pos : ℕ → Position} (hpos : positionOf M.backend.log H (payload us) t.hi = pos t.hi) :
    fetchLeft M.backend.log.toStorage q.cache (nodeAddress pos t) s.storage =
      (.ok (entryOf M.backend.log H (payload us) t.hi), s.storage) := by
  have hread := hs.fits.read h1 h2
  rw [← hs.storage_eq, hpos] at hread
  rw [fetchLeft, nodeAddress_i, hnone]
  change readEntryWithIndexCheck _ (pos t.hi) t.hi _ = _
  rw [readEntryWithIndexCheck, Prog.bind_ok hread, if_neg (show
    ¬(entryOf M.backend.log H (payload us) t.hi).index ≠ t.hi from fun hne => hne rfl)]
  rfl

/-- **Nothing behind the branch**: the lookup is an error. -/
theorem get_lost (hs : SlateOf M.backend.log H L (payload us) us.length s)
    (hu : Exit L m i u r)
    (hc : Represents H (payload vs) (positionOf M.backend.log H (payload vs)) L m q.cache)
    (hlost : ∀ e, M.Stores (history M.backend.log H (payload us) us.length)
      (positionOf M.backend.log H (payload vs) u.hi) e → e.index ≠ u.hi) (fuel : ℕ)
    (b : Result (Option Bytes)) : ∃ e, Query.taken ((Prog.onSnd (q.descend r.hi
      (spineINode H (payload vs) (positionOf M.backend.log H (payload vs)) (u, r))) >>= fun left =>
        q.walkDownFrom (Query.getStep i) fuel left.2 left.1) (b, s.storage)) =
          .error (.err e) := by
  have hnone : q.cache.entry u.hi = none := hu.entry_eq_none hc
  have hfetch : ∃ e st', fetchLeft M.backend.log.toStorage q.cache
      (nodeAddress (positionOf M.backend.log H (payload vs)) u) s.storage =
        (.error (.err e), st') := by
    rw [fetchLeft, nodeAddress_i, hnone]
    change ∃ e st', readEntryWithIndexCheck _ (positionOf M.backend.log H (payload vs) u.hi) u.hi
      _ = (.error (.err e), st')
    rw [hs.storage_eq]
    have hcases := M.read_cases hs.fits.room (positionOf M.backend.log H (payload vs) u.hi)
    rcases hread : M.backend.log.read (positionOf M.backend.log H (payload vs) u.hi)
      (M.backend.log.render (history M.backend.log H (payload us) us.length)) with ⟨result, st'⟩
    rw [hread] at hcases
    -- an entry that is read there has another index, which the check notices
    rcases hcases with ⟨e, he, rfl⟩ | ⟨-, e, rfl⟩
    · rw [readEntryWithIndexCheck, Prog.bind_ok hread, if_pos (hlost e he)]
      exact ⟨_, _, rfl⟩
    · exact ⟨e, st', Prog.bind_error hread⟩
  obtain ⟨e, st', hfetch⟩ := hfetch
  refine ⟨e, ?_⟩
  have hdescend : q.descend r.hi (spineINode H (payload vs)
      (positionOf M.backend.log H (payload vs)) (u, r)) s.storage = (.error (.err e), st') := by
    rw [Query.descend, spineINode_left, Prog.bind_error hfetch]
  rw [Prog.bind_error (Prog.onSnd_run hdescend b)]
  rfl

/-- **The entry of the slate behind the branch**: the lookup gives the payload that the index
has now. -/
theorem get_own (hs : SlateOf M.backend.log H L (payload us) us.length s) (hu : Exit L m i u r)
    (hc : Represents H (payload vs) (positionOf M.backend.log H (payload vs)) L m q.cache)
    (hle : u.hi ≤ us.length) (hpos : positionOf M.backend.log H (payload us) u.hi =
      positionOf M.backend.log H (payload vs) u.hi) {fuel : ℕ} (hf : u.height < fuel)
    (b : Result (Option Bytes)) : Query.taken ((Prog.onSnd (q.descend r.hi
      (spineINode H (payload vs) (positionOf M.backend.log H (payload vs)) (u, r))) >>= fun left =>
        q.walkDownFrom (Query.getStep i) fuel left.2 left.1) (b, s.storage)) =
          .ok (some (payload us i)) := by
  have hup := hu.leftPerfect.left
  have hdescend := descend_of_fetchLeft hu.leftPerfect (payload vs)
    (fetchLeft_own hs (hu.entry_eq_none hc) hup.hi_pos hle hpos)
  have hleads : Leads M.backend.log.toStorage q.cache H (payload us)
      (positionOf M.backend.log H (payload us)) s.storage u := by
    intro l r' hsub
    have hlr := hsub.leftPerfect hup
    exact fetchLeft_own hs (hu.entry_left_eq_none hc hsub) hlr.left.hi_pos
      ((hlr.hi_left_lt.le.trans (hsub.hi_le hup)).trans hle) rfl
  rw [Prog.bind_ok (Prog.onSnd_run hdescend b)]
  simp only
  rw [walkDownFrom_of_leads (Query.getStep i) hup hleads fuel hf b, Prog.onFst,
    walkTree_get hup (hle.trans_lt (hs.lt)) hu.lo_le hu.le_hi b]
  rfl

end Crossing

/-- **Queries that outlive a truncation.** Whatever has become of the slate, a lookup of an old
query is honest if its index is spared. Otherwise it is a lie, unless the branch out of the cache
leads into the middle of a record, where no entry was put. The key-value storage has no such
positions. -/
theorem outdated_honest (M : InMemory w) {s s' s'' : SlateOn M.backend}
    {q : Query M.backend.log.toStorage} (h : Reaches M.backend H L vs s) (hq : Opens s m q s')
    (hrun : Later H s' vs s'' us) {fuel : ℕ} (hf : INDEX_SIZE < fuel) {i : ℕ} (h1 : 1 ≤ i)
    (h2 : i ≤ m) :
    (Spared M H L vs us m i → Honest (q.get fuel i s''.storage).1 (payload vs i)) ∧
    (¬Spared M H L vs us m i → Lie (q.get fuel i s''.storage).1 (payload vs i) ∨
      M ≠ .memKVS ∧ ∃ t, Tree.exit i L (Tree.upTo m) = some t ∧
        AppendLog.Inside M.backend.log.endPos (history M.backend.log H (payload us) us.length)
          (positionOf M.backend.log H (payload vs) t.hi)) := by
  obtain ⟨rfl, hm, hc⟩ := h.slateOf.of_opens hq
  have hs := (hrun.reaches h).slateOf
  have hb : m < 2 ^ 64 := lt_of_le_of_lt hm h.slateOf.lt
  rcases @get_exit _ _ s''.storage _ _ _ _ _ i _ hc hb _ hf h1 h2 with
    ⟨hexit, hget⟩ | ⟨u, r, fuel', b, hexit, hu, hfuel, hget⟩
  · -- the whole way is cached
    refine ⟨fun _ => Or.inr hget, fun hspared => absurd (fun t ht => ?_) hspared⟩
    rw [hexit] at ht
    exact absurd ht (by simp)
  · refine ⟨fun hspared => ?_, fun hspared => ?_⟩
    · rw [hget]
      rcases hspared u hexit with hlost | ⟨hle, hpos, heq⟩
      · exact Or.inl (get_lost hs hu hc hlost fuel' b)
      · exact Or.inr (heq ▸ get_own hs hu hc hle hpos hfuel b)
    · by_cases hin : AppendLog.Inside M.backend.log.endPos
        (history M.backend.log H (payload us) us.length)
        (positionOf M.backend.log H (payload vs) u.hi)
      · refine Or.inr ⟨?_, u, hexit, hin⟩
        rintro rfl
        exact InMemory.not_inside_memKVS (Nat.succ_pos _) hin
      · -- what is stored there was put by the slate, so it can only be the entry `u.hi` itself
        left
        by_contra hlie
        refine hspared fun t ht => ?_
        obtain rfl : u = t := Option.some.inj (hexit.symm.trans ht)
        refine or_iff_not_imp_left.mpr fun hfound => ?_
        simp only [not_forall, not_not] at hfound
        obtain ⟨e, he, hindex⟩ := hfound
        obtain ⟨k, -, hk, hpos, rfl⟩ := he.eq_own hs.fits hin
        obtain rfl : k = u.hi := hindex
        rw [get_own hs hu hc hk hpos hfuel b] at hget
        exact ⟨hk, hpos, by_contra fun hne => hlie ⟨_, hget, hne⟩⟩

/-- The second of three entries is cut, with the third one. It is appended again as it was, and
another third one behind it. -/
theorem outdated_honest_three :
    ∃ (s s' s'' : SlateOn tinyBlock) (q : Query tinyBlock.log.toStorage),
      Reaches tinyBlock byteSum 0 [[1], [2], [3]] s ∧ Opens s 3 q s' ∧
      Later byteSum s' [[1], [2], [3]] s'' [[1], [2], [7, 7]] ∧
      Honest (q.get 65 2 s''.storage).1 (payload [[1], [2], [3]] 2) := by
  obtain ⟨s, h⟩ := exists_reaches_of_length_lt tinyBlock byteSum 0 [[1], [2], [3]]
    (by decide) (by decide)
  have hs := h.slateOf
  have hn : s.n = 3 := hs.n_eq
  have hq : Opens s 3 ⟨s.cache⟩ s := by
    have hcurrent := Opens.current (s := s) hs.view.query_eq
    rwa [hn] at hcurrent
  obtain ⟨s1, ht, hs1⟩ := hs.truncate_ok (show INDEX_SIZE < 65 by decide) (show 1 ≤ 2 by decide)
    (by decide)
  have hfits : tinyBlock.Holds byteSum [[1], [2], [7, 7]] :=
    holds_of_length_lt tinyBlock (by decide) (by decide)
  have hone : ∀ k : ℕ, 1 ≤ k → k ≤ 1 →
      payload [[1], [2], [3]] k = payload [[1], [2], [7, 7]] k := fun k hk1 hk2 => by
    obtain rfl : k = 1 := by omega
    rfl
  obtain ⟨s2, ha2, hs2⟩ := (hs1.congr hone).append_ok (by decide) (hfits.mono (by decide)).room
  obtain ⟨s3, ha3, -⟩ := hs2.append_ok (by decide) hfits.room
  have hrun : Later byteSum s [[1], [2], [3]] s3 [[1], [2], [7, 7]] :=
    ((Later.start.truncate (by decide) ht).append ha2).append ha3
  have hspared : Spared (.block (by decide) fun _ => 7) byteSum 0 [[1], [2], [3]]
      [[1], [2], [7, 7]] 3 2 := by
    intro t hexit
    have htree : Tree.upTo 3 = .node (.node (.leaf 1) (.leaf 2)) (.leaf 3) := by decide +kernel
    rw [htree] at hexit
    obtain rfl : Tree.node (.leaf 1) (.leaf 2) = t := Option.some.inj hexit
    exact Or.inr ⟨by decide, (positionOf_congr hone (by decide)).symm, rfl⟩
  exact ⟨s, s, s3, ⟨s.cache⟩, h, hq, hrun,
    (outdated_honest (.block (by decide) fun _ => 7) h hq hrun (by decide) (by decide)
      (by decide)).1 hspared⟩

/-- Opens a query at the third of three entries, cuts the second and the third, appends another
second one, and asks the query for it. -/
def getReused (B : Backend 1) : Result (Option Bytes) := do
  let (s, _) ← build B byteSum 0 [[1], [2], [3]]
  let cut := Slate.truncate 65 2 s
  let (reused, s') := Slate.append byteSum [9] cut.2
  let _ ← reused
  (Query.get { cache := s.cache } 65 2 s'.storage).1

/-- The query is deceived: it gives the second entry that came later, without an error. -/
def Deceived (M : InMemory 1) : Prop :=
  ∃ (s s' s'' : SlateOn M.backend) (q : Query M.backend.log.toStorage),
    Reaches M.backend byteSum 0 [[1], [2], [3]] s ∧ Opens s 3 q s' ∧
    Later byteSum s' [[1], [2], [3]] s'' [[1], [9]] ∧
    (q.get 65 2 s''.storage).1 = .ok (some [9]) ∧
    Lie (q.get 65 2 s''.storage).1 (payload [[1], [2], [3]] 2)

theorem deceived_of_getReused {M : InMemory 1} (h : getReused M.backend = .ok (some [9])) :
    Deceived M := by
  rw [getReused, bind_eq_ok] at h
  obtain ⟨⟨s, puts⟩, hbuild, h⟩ := h
  have hs := (reaches_of_build hbuild).slateOf
  obtain ⟨s1, ht, -⟩ := hs.truncate_ok (show INDEX_SIZE < 65 by decide) (show 1 ≤ 2 by decide)
    (by decide)
  rcases ha : Slate.append byteSum [9] s1 with ⟨reused, s2⟩
  simp only [ht, ha] at h
  rw [bind_eq_ok] at h
  obtain ⟨info, rfl, hget⟩ := h
  have hn : s.n = 3 := hs.n_eq
  have hq := Opens.current hs.view.query_eq
  rw [hn] at hq
  refine ⟨s, s, s2, ⟨s.cache⟩, reaches_of_build hbuild, hq,
    (Later.start.truncate (by decide) ht).append ha, hget, [9], hget, by decide⟩

/-- **An index that is given again deceives a query**, whatever the storage. -/
theorem not_outdated_honest :
    Deceived .memKVS ∧ Deceived (.block (by decide) fun _ => 7) :=
  ⟨deceived_of_getReused (by decide +kernel), deceived_of_getReused (by decide +kernel)⟩

end Outliving

end StratifiedHashTree
