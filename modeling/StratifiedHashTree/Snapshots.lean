import StratifiedHashTree.Backend

/-!
# Snapshots

A snapshot of a generation answers from the cache of that generation and from the entries
of the storage, where later entries only come after the ones it needs
(`StratifiedHashTree.View`). So what it answers depends on the payloads of its generation
alone: a snapshot of an old generation cannot be told from one that was taken when it was
current (`StratifiedHashTree.snapshotAt_history`), and the ways to look something up agree
with each other and with what was appended, at every cache level
(`StratifiedHashTree.lookups_agree`).
-/

namespace StratifiedHashTree

open Outcome Formula

variable {w : ℕ}

namespace Snapshot

variable {S : Storage (Entry w)}

/-- Opens a query, and asks for a value. -/
def get (self : Snapshot S) (fuel : ℕ) (i : Index) : Run S.State (Option Bytes) := do
  let query ← self.query
  query.get fuel i

/-- Opens a query, and asks for a sample. -/
def getSample (self : Snapshot S) (fuel : ℕ) (i : Index) :
    Run S.State (Option (StratumSample w)) := do
  let query ← self.query
  query.getSample fuel i

/-- Opens a query, and asks for an entry. -/
def readEntry (self : Snapshot S) (fuel : ℕ) (i : Index) : Run S.State (Option (Entry w)) := do
  let query ← self.query
  query.readEntry fuel i

/-- Opens a query, and scans a range. -/
def scan {κ : Type} (self : Snapshot S) (fuel : ℕ) (i0 i1 : Index) (callback : ScanFn (Entry w) κ) :
    Run (κ × S.State) ℕ := do
  let query ← Prog.onSnd self.query
  query.scan fuel i0 i1 callback

end Snapshot

/-- **Two snapshots cannot be told apart**, each on its own storage. -/
structure SameAnswers {S T : Storage (Entry w)} (fuel : ℕ) (a : Snapshot S) (st : S.State)
    (b : Snapshot T) (st' : T.State) : Prop where
  root : a.root = b.root
  revision : a.revision = b.revision
  get : ∀ i, (a.get fuel i st).1 = (b.get fuel i st').1
  getSample : ∀ i, (a.getSample fuel i st).1 = (b.getSample fuel i st').1
  readEntry : ∀ i, (a.readEntry fuel i st).1 = (b.readEntry fuel i st').1
  scan : ∀ (i0 i1 : Index) {κ : Type} (callback : ScanFn (Entry w) κ) (c : κ),
    (a.scan fuel i0 i1 callback (c, st)).1 = (b.scan fuel i0 i1 callback (c, st')).1 ∧
      (a.scan fuel i0 i1 callback (c, st)).2.1 = (b.scan fuel i0 i1 callback (c, st')).2.1

/-- A snapshot of the generation `m` over a storage with the first `n` entries. -/
structure View (S : LogStorage (Entry w) Entry.Placed) (H : HashFn w) (L : ℕ) (v : ℕ → Bytes)
    (m n : ℕ) (snapshot : Snapshot S.toStorage) (st : S.State) : Prop where
  fits : Fits S H v n
  le : m ≤ n
  storage_eq : st = S.render (history S H v n)
  represents : Represents H v (positionOf S H v) L m snapshot.cache

namespace View

variable {S : LogStorage (Entry w) Entry.Placed} {H : HashFn w} {L m n fuel : ℕ} {v : ℕ → Bytes}
  {snapshot : Snapshot S.toStorage} {st : S.State}

theorem lt (h : View S H L v m n snapshot st) : m < 2 ^ 64 := by
  have h1 := h.fits.lt
  have h2 := h.le
  omega

theorem readable (h : View S H L v m n snapshot st) :
    Readable S.toStorage st H v (positionOf S H v) m := by
  rw [h.storage_eq]
  exact h.fits.readable.mono h.le

theorem query_eq (h : View S H L v m n snapshot st) :
    snapshot.query st = (.ok { cache := snapshot.cache }, st) := by
  rw [Snapshot.query, Prog.bind_ok h.readable.reader]
  rfl

theorem root_eq (h : View S H L v m n snapshot st) (hm : 1 ≤ m) :
    snapshot.root = .ok (nodeInfo H v (positionOf S H v) (Tree.upTo m)) := by
  have hl := h.represents.loaded hm
  rw [Snapshot.root, hl.revision_eq, hl.entry_self, unwrap_some, ok_bind, pure_eq_ok,
    entryAt_root hm]

theorem get_eq (h : View S H L v m n snapshot st) (hf : INDEX_SIZE < fuel) (i : ℕ) :
    snapshot.get fuel i st = (.ok (if 1 ≤ i ∧ i ≤ m then some (v i) else none), st) := by
  rw [Snapshot.get, Prog.bind_ok h.query_eq]
  exact StratifiedHashTree.get_eq h.represents h.lt h.readable hf i

theorem getSample_eq (h : View S H L v m n snapshot st) (hf : INDEX_SIZE < fuel) (i : ℕ) :
    snapshot.getSample fuel i st =
      (.ok (if 1 ≤ i ∧ i ≤ m then some (sampleOf H v m i) else none), st) := by
  rw [Snapshot.getSample, Prog.bind_ok h.query_eq]
  exact StratifiedHashTree.getSample_eq h.represents h.lt h.readable hf i

theorem readEntry_eq (h : View S H L v m n snapshot st) (hf : INDEX_SIZE < fuel) (i : ℕ) :
    snapshot.readEntry fuel i st =
      (.ok (if 1 ≤ i ∧ i ≤ m then some (entryOf S H v i) else none), st) := by
  rw [Snapshot.readEntry, Prog.bind_ok h.query_eq]
  exact StratifiedHashTree.readEntry_eq h.represents h.lt h.readable hf i

theorem scan_eq {κ : Type} (h : View S H L v m n snapshot st) (hf : INDEX_SIZE < fuel) (i0 i1 : ℕ)
    (callback : ScanFn (Entry w) κ) (c : κ) :
    snapshot.scan fuel i0 i1 callback (c, st) =
      Prog.onFst (scanList callback
        (entriesBetween S H v (max (min i0 i1) 1) (min (max i0 i1) m))) (c, st) := by
  rw [Snapshot.scan, Prog.bind_ok (Prog.onSnd_run h.query_eq c), h.storage_eq]
  exact StratifiedHashTree.scan_eq h.fits h.represents h.le hf i0 i1 callback c

/-- **What a snapshot answers depends on its generation only**: not on the cache level, nor
on what comes later in the storage. -/
theorem sameAnswers {L' n' : ℕ} {snapshot' : Snapshot S.toStorage} {st' : S.State}
    (h : View S H L v m n snapshot st) (h' : View S H L' v m n' snapshot' st') (hm : 1 ≤ m)
    (hf : INDEX_SIZE < fuel) : SameAnswers fuel snapshot st snapshot' st' where
  root := by rw [h.root_eq hm, h'.root_eq hm]
  revision := h.represents.revision_eq.trans h'.represents.revision_eq.symm
  get i := by rw [h.get_eq hf, h'.get_eq hf]
  getSample i := by rw [h.getSample_eq hf, h'.getSample_eq hf]
  readEntry i := by rw [h.readEntry_eq hf, h'.readEntry_eq hf]
  scan i0 i1 κ callback c := by
    rw [h.scan_eq hf, h'.scan_eq hf]
    exact ⟨rfl, rfl⟩

end View

/-! ### Views of slates -/

section Slates

variable {B : Backend w} {H : HashFn w} {L fuel : ℕ} {vs : List Bytes} {s : SlateOn B}

/-- The snapshot of the current generation. -/
theorem SlateOf.view {S : LogStorage (Entry w) Entry.Placed} {v : ℕ → Bytes} {n : ℕ}
    {s : Slate S.toStorage} (h : SlateOf S H L v n s) :
    View S H L v n n s.snapshot s.storage where
  fits := h.fits
  le := Nat.le_refl n
  storage_eq := h.storage_eq
  represents := h.represents

/-- The snapshot of an old generation. -/
theorem SlateOf.viewAt {S : LogStorage (Entry w) Entry.Placed} {v : ℕ → Bytes} {n : ℕ}
    {s : Slate S.toStorage} (h : SlateOf S H L v n s) (hf : INDEX_SIZE < fuel) {k : ℕ} (h1 : 1 ≤ k)
    (h2 : k ≤ n) : ∃ snapshot, Slate.snapshotAt fuel k s = (.ok snapshot, s) ∧
      View S H L v k n snapshot s.storage := by
  obtain ⟨c, hc, hl⟩ := h.snapshotAt_ok hf h1 h2
  exact ⟨_, hc, h.fits, h2, h.storage_eq, hl.represents h1⟩

/-- A slate of the first payloads of a list, as a slate of the list. -/
theorem Reaches.slateOf_take {k : ℕ} (hk : k ≤ vs.length) (h : Reaches B H L (vs.take k) s) :
    SlateOf B.log H L (payload vs) k s := by
  have h1 := h.slateOf
  rw [List.length_take, Nat.min_eq_left hk] at h1
  exact h1.congr fun i hi1 hi2 => payload_take hi1 hi2

/-- **Every snapshot is a view**: the one of the current generation, and those of older ones. -/
theorem Reaches.view (h : Reaches B H L vs s) (hf : INDEX_SIZE < fuel)
    {snapshot : Snapshot B.log.toStorage} {m : ℕ}
    (hsnap : (snapshot = s.snapshot ∧ m = vs.length) ∨
      Slate.snapshotAt fuel m s = (.ok snapshot, s)) :
    View B.log H L (payload vs) m vs.length snapshot s.storage := by
  have hs := h.slateOf
  rcases hsnap with ⟨rfl, rfl⟩ | hsnap
  · exact hs.view
  · by_cases hm : 1 ≤ m ∧ m ≤ vs.length
    · obtain ⟨snapshot', h1, h2⟩ := hs.viewAt hf hm.1 hm.2
      rw [hsnap, Prod.mk.injEq, Except.ok.injEq] at h1
      rw [h1.1]
      exact h2
    · obtain ⟨e, he⟩ := hs.snapshotAt_err hf (k := m) (by omega)
      rw [hsnap] at he
      exact absurd (Prod.mk.inj he).1 (by simp)

/-- **The complete history.** For every generation of a slate there is a snapshot, which
cannot be told from the current snapshot of any slate that received the payloads of that
generation only; there is none for generation 0, and none after the current one. -/
theorem snapshotAt_history (h : Reaches B H L vs s) (hf : INDEX_SIZE < fuel) (k : ℕ) :
    (1 ≤ k ∧ k ≤ vs.length →
      (∃ s' puts, build B H L (vs.take k) = .ok (s', puts)) ∧
      ∃ snapshot, Slate.snapshotAt fuel k s = (.ok snapshot, s) ∧
        ∀ (L' : ℕ) (s' : SlateOn B), Reaches B H L' (vs.take k) s' →
          SameAnswers fuel snapshot s.storage s'.snapshot s'.storage) ∧
    (k = 0 ∨ vs.length < k → ∃ e, Slate.snapshotAt fuel k s = (.error (.err e), s)) := by
  refine ⟨fun ⟨h1, h2⟩ => ⟨?_, ?_⟩, fun hk => h.slateOf.snapshotAt_err hf hk⟩
  · obtain ⟨s', hs', -⟩ := build_ok L (Backend.Holds.take h.slateOf.fits k)
    exact ⟨s', _, hs'⟩
  · obtain ⟨snapshot, hsnap, hview⟩ := h.slateOf.viewAt hf h1 h2
    exact ⟨snapshot, hsnap, fun L' s' h' => hview.sameAnswers (h'.slateOf_take h2).view h1 hf⟩

/-- The second of three generations, in a block storage; and one that is not there. -/
theorem snapshotAt_history_three :
    ∃ s : SlateOn tinyBlock, Reaches tinyBlock byteSum 1 [[1], [], [2, 3]] s ∧
      (∃ snapshot, Slate.snapshotAt 65 2 s = (.ok snapshot, s) ∧
        ∀ L' s', Reaches tinyBlock byteSum L' [[1], []] s' →
          SameAnswers 65 snapshot s.storage s'.snapshot s'.storage) ∧
      ∃ e, Slate.snapshotAt 65 4 s = (.error (.err e), s) := by
  obtain ⟨s, h⟩ := exists_reaches_of_length_lt tinyBlock byteSum 1 [[1], [], [2, 3]]
    (by decide) (by decide)
  exact ⟨s, h, ((snapshotAt_history h (show INDEX_SIZE < 65 by decide) 2).1 (by decide)).2,
    (snapshotAt_history h (show INDEX_SIZE < 65 by decide) 4).2 (by decide)⟩

/-- The entry that the append of an index hands to the storage. -/
def AppendedEntry (B : Backend w) (H : HashFn w) (L : ℕ) (vs : List Bytes) (i : Index)
    (e : Entry w) : Prop :=
  ∃ s puts model, build B H L (vs.take (i - 1)) = .ok (s, puts) ∧
    Slate.buildEntry H s (payload vs i) = .ok (e, model)

theorem appendedEntry_entryOf (L : ℕ) (h : B.Holds H vs) {i : ℕ} (h1 : 1 ≤ i) (h2 : i ≤ vs.length) :
    AppendedEntry B H L vs i (entryOf B.log H (payload vs) i) := by
  obtain ⟨s, hs, -⟩ := build_ok L (h.take (i - 1))
  have hslate := (reaches_of_build hs).slateOf_take (k := i - 1) (by omega)
  have hlt := hslate.fits.lt
  have hbuild := buildEntry_eq hslate.represents hslate.position_eq hlt
  rw [Nat.sub_add_cancel h1] at hbuild
  exact ⟨s, _, _, hs, hbuild⟩

/-- **The lookups agree, and the cache is transparent.** For some payloads there is one list
of entries – the ones that the appends handed to the storage – such that at every cache
level the slate finds just these, and every snapshot finds just those of its generation
and their payloads. -/
theorem lookups_agree (B : Backend w) (H : HashFn w) (vs : List Bytes) :
    ∃ entry : Index → Entry w, ∀ (L : ℕ) (s : SlateOn B), Reaches B H L vs s →
      (∀ i, 1 ≤ i → i ≤ vs.length → AppendedEntry B H L vs i (entry i)) ∧
      ∀ fuel, INDEX_SIZE < fuel →
        (∀ i, Slate.loadEntry fuel i s =
          (if 1 ≤ i ∧ i ≤ vs.length then .ok (entry i)
            else .error (.err (.invalidArgument
              s!"Entry {i} is not contained in the current revision {vs.length}")), s)) ∧
        (∀ m, 1 ≤ m → m ≤ vs.length → ∃ snapshot, Slate.snapshotAt fuel m s = (.ok snapshot, s)) ∧
        ∀ (snapshot : Snapshot B.log.toStorage) (m : ℕ),
          (snapshot = s.snapshot ∧ m = vs.length) ∨ Slate.snapshotAt fuel m s = (.ok snapshot, s) →
          m ≤ vs.length ∧ ∀ i,
            snapshot.get fuel i s.storage =
              (.ok (if 1 ≤ i ∧ i ≤ m then some (payload vs i) else none), s.storage) ∧
            snapshot.readEntry fuel i s.storage =
              (.ok (if 1 ≤ i ∧ i ≤ m then some (entry i) else none), s.storage) := by
  refine ⟨entryOf B.log H (payload vs), fun L s h => ?_⟩
  have hs := h.slateOf
  refine ⟨fun i h1 h2 => appendedEntry_entryOf L hs.fits h1 h2, fun fuel hf =>
    ⟨fun i => hs.loadEntry_eq hf i, fun m h1 h2 => ?_, fun snapshot m hsnap => ?_⟩⟩
  · obtain ⟨snapshot, hsnap, -⟩ := hs.viewAt hf h1 h2
    exact ⟨snapshot, hsnap⟩
  · have hview := h.view hf hsnap
    exact ⟨hview.le, fun i => ⟨hview.get_eq hf i, hview.readEntry_eq hf i⟩⟩

/-- Three payloads at two cache levels. -/
theorem lookups_agree_three : ∃ entry : Index → Entry 1, ∀ L ∈ [0, 2],
    ∃ s : SlateOn .memKVS, Reaches .memKVS byteSum L [[1], [], [2, 3]] s ∧
      Slate.loadEntry 65 2 s = (.ok (entry 2), s) ∧
      s.snapshot.get 65 3 s.storage = (.ok (some [2, 3]), s.storage) ∧
      s.snapshot.readEntry 65 4 s.storage = (.ok none, s.storage) := by
  obtain ⟨entry, hentry⟩ := lookups_agree .memKVS byteSum [[1], [], [2, 3]]
  refine ⟨entry, fun L _ => ?_⟩
  obtain ⟨s, h⟩ := exists_reaches_of_length_lt .memKVS byteSum L [[1], [], [2, 3]]
    (by decide) (by decide)
  obtain ⟨-, hlookup⟩ := hentry L s h
  obtain ⟨hload, -, hsnap⟩ := hlookup 65 (by decide)
  obtain ⟨-, hquery⟩ := hsnap s.snapshot 3 (Or.inl ⟨rfl, rfl⟩)
  exact ⟨s, h, hload 2, (hquery 3).1, (hquery 4).2⟩

end Slates

end StratifiedHashTree
