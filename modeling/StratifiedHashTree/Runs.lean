import StratifiedHashTree.Lookup
import StratifiedHashTree.Sample

/-!
# A slate and its log

`StratifiedHashTree.SlateOf` says that a slate is the one that holds the first `n`
payloads: its storage represents their log, its position is the end of it, and its cache
is the cache of the generation `n`. All three are determined, so there is only one such
slate (`StratifiedHashTree.SlateOf.unique`) – however it came about.

Each operation of the slate is one theorem here: opening
(`StratifiedHashTree.withCacheLevel_slateOf`), appending
(`StratifiedHashTree.SlateOf.append_ok`), truncating
(`StratifiedHashTree.SlateOf.truncate_ok`), looking up
(`StratifiedHashTree.SlateOf.loadEntry_eq`) and going back to an old generation
(`StratifiedHashTree.SlateOf.snapshotAt_ok`). They hold over every storage that represents
a log.
-/

namespace StratifiedHashTree

open Outcome Formula FormulaTree

variable {w : ℕ}

/-- The slate of the first `n` payloads. -/
structure SlateOf (S : LogStorage (Entry w) Entry.Placed) (H : HashFn w) (L : ℕ) (v : ℕ → Bytes)
    (n : ℕ) (s : Slate S.toStorage) : Prop where
  fits : Fits S H v n
  position_eq : s.position = positionOf S H v (n + 1)
  storage_eq : s.storage = S.render (history S H v n)
  represents : Represents H v (positionOf S H v) L n s.cache

variable {S : LogStorage (Entry w) Entry.Placed} {H : HashFn w} {L n : ℕ} {v : ℕ → Bytes}

/-- The entries of a log that fits can be read. -/
theorem Fits.readable (h : Fits S H v n) :
    Readable S.toStorage (S.render (history S H v n)) H v (positionOf S H v) n where
  reader := S.reader_render
  read _ h1 h2 := h.read h1 h2

/-- The cache and the position, from a storage whose last entry is the last one of a log. -/
theorem loadMetadata_eq (h : Fits S H v n) {st : S.State}
    (hlast : S.last st = (.ok ((history S H v n).getLast?, S.endPos (history S H v n)),
      S.render (history S H v n))) :
    ∃ c, Slate.loadMetadata S.toStorage L st =
        (.ok (c, S.endPos (history S H v n)), S.render (history S H v n)) ∧
      Represents H v (positionOf S H v) L n c := by
  rw [Slate.loadMetadata, Prog.bind_ok hlast]
  cases n with
  | zero => exact ⟨_, rfl, rfl⟩
  | succ n =>
    have h1 := h.lt
    obtain ⟨c, hc, hl⟩ := load_loaded (L := L) h.readable (Nat.le_add_left 1 n) (by omega)
    refine ⟨c, ?_, hl⟩
    simp only [getLast?_history]
    rw [Prog.bind_ok hc]
    rfl

/-- Opening a slate on such a storage. -/
theorem withCacheLevel_slateOf (h : Fits S H v n) {st : S.State}
    (hlast : S.last st = (.ok ((history S H v n).getLast?, S.endPos (history S H v n)),
      S.render (history S H v n))) :
    ∃ s : Slate S.toStorage, Slate.withCacheLevel st L = .ok s ∧ SlateOf S H L v n s := by
  obtain ⟨c, h1, h2⟩ := loadMetadata_eq (L := L) h hlast
  refine ⟨⟨S.endPos (history S H v n), S.render (history S H v n), c⟩, ?_, h, rfl, rfl, h2⟩
  rw [Slate.withCacheLevel, h1]

/-- Opening a slate on a storage without content. -/
theorem withCacheLevel_fresh (v : ℕ → Bytes) :
    ∃ s : Slate S.toStorage, Slate.withCacheLevel S.fresh L = .ok s ∧ SlateOf S H L v 0 s :=
  withCacheLevel_slateOf ⟨S.room_nil, fun k h1 h2 => absurd h1 (by omega)⟩ S.last_fresh

/-- The entries of a range of indices. -/
def entriesBetween (S : LogStorage (Entry w) Entry.Placed) (H : HashFn w) (v : ℕ → Bytes)
    (x y : ℕ) : List (Entry w) := (history S H v y).drop (x - 1)

/-- **A scan** passes the entries of the range to the callback, one after the other. -/
theorem scan_eq {κ : Type} {m : ℕ} {q : Query S.toStorage} (hf : Fits S H v n)
    (hc : Represents H v (positionOf S H v) L m q.cache) (hm : m ≤ n) {fuel : ℕ}
    (hfuel : INDEX_SIZE < fuel) (i0 i1 : ℕ) (callback : ScanFn (Entry w) κ) (a : κ) :
    q.scan fuel i0 i1 callback (a, S.render (history S H v n)) =
      Prog.onFst (scanList callback
        (entriesBetween S H v (max (min i0 i1) 1) (min (max i0 i1) m)))
        (a, S.render (history S H v n)) := by
  have hb := hf.lt
  have hy : min (max i0 i1) m ≤ m := Nat.min_le_right _ _
  have hx : 1 ≤ max (min i0 i1) 1 := Nat.le_max_right _ _
  rw [Query.scan, Query.revision, hc.revision_eq]
  revert hx hy
  generalize max (min i0 i1) 1 = x
  generalize min (max i0 i1) m = y
  intro hy hx
  by_cases hlt : y < x
  · rw [if_pos hlt, entriesBetween, List.drop_of_length_le (by rw [length_history]; omega)]
    rfl
  · have hread := readEntry_eq (q := q) hc (by omega) (hf.readable.mono hm) hfuel x
    rw [if_pos ⟨hx, by omega⟩] at hread
    have hscan := S.scan_render (k := x - 1) (y - x + 1) callback a (by rw [length_history]; omega)
      hf.room hf.laid
    have hlist : ((history S H v n).drop (x - 1)).take (y - x + 1) = entriesBetween S H v x y := by
      rw [entriesBetween, ← take_history S H v (show y ≤ n by omega), List.drop_take,
        show y - (x - 1) = y - x + 1 by omega]
    rw [take_history S H v (by omega), hlist] at hscan
    rw [if_neg hlt, Prog.liftM_eq,
      debugAssert_of (show 1 ≤ x ∧ x ≤ m ∧ 1 ≤ y ∧ y ≤ m ∧ x ≤ y by omega), Prog.lift_ok_bind,
      Prog.bind_ok (Prog.onSnd_run hread a)]
    simp only [Prog.liftM_eq]
    rw [subBits_of_le (by omega), Prog.lift_ok_bind, addBits_of_lt (by omega), Prog.lift_ok_bind]
    exact hscan

namespace SlateOf

variable {s s' : Slate S.toStorage}

/-- **There is only one slate of some payloads.** -/
theorem unique (h : SlateOf S H L v n s) (h' : SlateOf S H L v n s') : s = s' := by
  cases s
  cases s'
  obtain ⟨-, rfl, rfl, h1⟩ := h
  obtain ⟨-, h2, h3, h4⟩ := h'
  simp only at h1 h2 h3 h4
  rw [h1.unique h4, h2, h3]

/-- A slate depends on its own payloads only. -/
theorem congr {v' : ℕ → Bytes} (h : SlateOf S H L v n s) (heq : ∀ k, 1 ≤ k → k ≤ n → v k = v' k) :
    SlateOf S H L v' n s where
  fits := h.fits.congr heq
  position_eq := by rw [h.position_eq, positionOf_congr heq (Nat.le_refl _)]
  storage_eq := by rw [h.storage_eq, history_congr heq]
  represents := h.represents.congr heq fun _ _ hk => positionOf_congr heq (hk.trans (Nat.le_succ n))

theorem lt (h : SlateOf S H L v n s) : n < 2 ^ 64 := by
  have h1 := h.fits.lt
  omega

theorem readable (h : SlateOf S H L v n s) :
    Readable S.toStorage s.storage H v (positionOf S H v) n := by
  rw [h.storage_eq]
  exact h.fits.readable

theorem n_eq (h : SlateOf S H L v n s) : s.n = n := h.represents.revision_eq

/-- The root of a slate. -/
theorem root_eq (h : SlateOf S H L v n s) :
    s.root = if 1 ≤ n then some (nodeInfo H v (positionOf S H v) (Tree.upTo n)) else none := by
  by_cases hn : 1 ≤ n
  · rw [if_pos hn, Slate.root, (h.represents.loaded hn).root_eq hn]
  · obtain rfl : n = 0 := by omega
    rw [if_neg hn, Slate.root, h.represents.root_zero]

/-- **Reopening**: a slate opened on the content of a slate, at any cache level. -/
theorem reopen (h : SlateOf S H L v n s) (L' : ℕ) :
    ∃ s' : Slate S.toStorage, Slate.withCacheLevel (S.reopen s.storage) L' = .ok s' ∧
      SlateOf S H L' v n s' := by
  refine withCacheLevel_slateOf h.fits ?_
  rw [h.storage_eq]
  exact S.last_reopen h.fits.room h.fits.laid

/-! ### Appending -/

/-- A program on the storage of a slate. -/
theorem onStorage_run {S : Storage (Entry w)} {s : Slate S} {α : Type} {x : Run S.State α}
    {o : Result α} {st : S.State} (h : x s.storage = (o, st)) :
    Slate.onStorage x s = (o, { s with storage := st }) := by
  rw [Slate.onStorage, h]

theorem onStorage_keep {S : Storage (Entry w)} {s : Slate S} {α : Type} {x : Run S.State α}
    {o : Result α} (h : x s.storage = (o, s.storage)) : Slate.onStorage x s = (o, s) := by
  rw [Slate.onStorage, h]

/-- An append, as far as the storage; what the storage holds does not matter so far. -/
theorem append_step (hc : Represents H v (positionOf S H v) L n s.cache)
    (hpos : s.position = positionOf S H v (n + 1)) (hb : n + 1 < 2 ^ 64)
    (hv : (v (n + 1)).length ≤ MAX_PAYLOAD_SIZE) :
    Slate.append H (v (n + 1)) s =
      (Slate.onStorage (S.put (positionOf S H v (n + 1)) (entryOf S H v (n + 1))) >>=
        fun position => Prog.modify (fun s => { s with position := position }) >>= fun _ =>
        Prog.lift (s.cache.migrate (entryOf S H v (n + 1)) (modelOf (n + 1))) >>= fun cache =>
        Prog.modify (fun s => { s with cache := cache }) >>= fun _ =>
        (pure (nodeInfo H v (positionOf S H v) (Tree.upTo (n + 1))) : Run _ _)) s := by
  have hbuild := buildEntry_eq hc hpos hb
  have hn : 1 ≤ n + 1 := Nat.le_add_left 1 n
  rw [Slate.append, if_neg (by omega), Prog.bind_ok (Prog.get_run s)]
  simp only [Prog.liftM_eq, hbuild, Prog.lift_ok_bind, entryAt_index, rootOfNodes_entryAt hn, hpos]
  rw [nodeInfo, nodeAddress, Tree.hi_upTo hn]

/-- An append fails as its storage does; then nothing but the storage has changed. -/
theorem append_error (hc : Represents H v (positionOf S H v) L n s.cache)
    (hpos : s.position = positionOf S H v (n + 1)) (hb : n + 1 < 2 ^ 64)
    (hv : (v (n + 1)).length ≤ MAX_PAYLOAD_SIZE) {e : Failure Error} {st : S.State}
    (hput : S.put (positionOf S H v (n + 1)) (entryOf S H v (n + 1)) s.storage = (.error e, st)) :
    Slate.append H (v (n + 1)) s = (.error e, { s with storage := st }) := by
  rw [append_step hc hpos hb hv, Prog.bind_error (onStorage_run hput)]

/-- When an append returns, its storage has returned, and nothing else touches it. -/
theorem put_of_append (hc : Represents H v (positionOf S H v) L n s.cache)
    (hpos : s.position = positionOf S H v (n + 1)) (hb : n + 1 < 2 ^ 64)
    (hv : (v (n + 1)).length ≤ MAX_PAYLOAD_SIZE) {info : MetaInfo w}
    (ha : Slate.append H (v (n + 1)) s = (.ok info, s')) :
    ∃ position, S.put (positionOf S H v (n + 1)) (entryOf S H v (n + 1)) s.storage =
      (.ok position, s'.storage) := by
  rw [append_step hc hpos hb hv] at ha
  rcases hput : S.put (positionOf S H v (n + 1)) (entryOf S H v (n + 1)) s.storage with
    ⟨e | position, st⟩
  · rw [Prog.bind_error (onStorage_run hput)] at ha
    exact absurd (Prod.mk.inj ha).1 (by simp)
  · obtain ⟨c, hm, -⟩ := migrate_loaded hc
    rw [Prog.bind_ok (onStorage_run hput), Prog.bind_ok (Prog.modify_run _ _), hm,
      Prog.lift_ok_bind, Prog.bind_ok (Prog.modify_run _ _)] at ha
    exact ⟨position, by rw [← (Prod.mk.inj ha).2]⟩

/-- **Appending** leads to the slate with one payload more. -/
theorem append_ok (h : SlateOf S H L v n s) (hv : (v (n + 1)).length ≤ MAX_PAYLOAD_SIZE)
    (hroom : S.Room (history S H v (n + 1))) :
    ∃ s', Slate.append H (v (n + 1)) s =
        (.ok (nodeInfo H v (positionOf S H v) (Tree.upTo (n + 1))), s') ∧
      SlateOf S H L v (n + 1) s' := by
  have hplaced := h.fits.placed (Nat.le_add_left 1 n) (Nat.le_refl (n + 1)) hv
  have hput : S.put (positionOf S H v (n + 1)) (entryOf S H v (n + 1)) s.storage =
      (.ok (positionOf S H v (n + 2)), S.render (history S H v (n + 1))) := by
    have h1 := S.put_room (x := entryOf S H v (n + 1)) h.fits.room hplaced
      (by rwa [← history_succ])
    rw [← history_succ] at h1
    rw [h.storage_eq]
    exact h1
  obtain ⟨c', hc, hl⟩ := migrate_loaded h.represents
  refine ⟨⟨positionOf S H v (n + 2), S.render (history S H v (n + 1)), c'⟩, ?_, ⟨hroom, ?_⟩, rfl,
    rfl, hl⟩
  · rw [append_step h.represents h.position_eq h.fits.lt hv, Prog.bind_ok (onStorage_run hput),
      Prog.bind_ok (Prog.modify_run _ _), hc, Prog.lift_ok_bind, Prog.bind_ok (Prog.modify_run _ _)]
    rfl
  · intro k h1 h2
    rcases h2.eq_or_lt with rfl | h3
    · exact hv
    · exact h.fits.payload_le k h1 (by omega)

/-- Appending to a log that would not fit any more panics, or is an error and changes
nothing. -/
theorem append_full (h : SlateOf S H L v n s) (hv : (v (n + 1)).length ≤ MAX_PAYLOAD_SIZE)
    (hroom : ¬S.Room (history S H v (n + 1))) :
    (∃ p s', Slate.append H (v (n + 1)) s = (.error (.panic p), s')) ∨
    ∃ e, Slate.append H (v (n + 1)) s = (.error (.err e), s) := by
  have hplaced := h.fits.placed (Nat.le_add_left 1 n) (Nat.le_refl (n + 1)) hv
  obtain ⟨f, st, hput, hf⟩ := S.put_full (x := entryOf S H v (n + 1)) h.fits.room hplaced
    (by rwa [← history_succ])
  have hput' : S.put (positionOf S H v (n + 1)) (entryOf S H v (n + 1)) s.storage =
      (.error f, st) := by
    rw [h.storage_eq]
    exact hput
  have happend := append_error h.represents h.position_eq h.fits.lt hv hput'
  rcases hf with ⟨p, rfl⟩ | ⟨e, rfl, rfl⟩
  · exact Or.inl ⟨p, _, happend⟩
  · refine Or.inr ⟨e, ?_⟩
    rw [happend, ← h.storage_eq]

/-- Appending too large a payload is an error and changes nothing. -/
theorem append_tooLarge {value : Bytes} (hv : MAX_PAYLOAD_SIZE < value.length) :
    Slate.append H value s = (.error (.err (.tooLargePayload value.length)), s) := by
  rw [Slate.append, if_pos hv]
  rfl

/-- **What an append can do**: it leads to the slate with one payload more; or the log would not
fit, and it panics; or it is an error, and nothing has changed. -/
theorem append_cases {value : Bytes} (h : SlateOf S H L v n s) (hvalue : value = v (n + 1)) :
    (∃ s', Slate.append H value s =
        (.ok (nodeInfo H v (positionOf S H v) (Tree.upTo (n + 1))), s') ∧
      SlateOf S H L v (n + 1) s') ∨
    (∃ p s', Slate.append H value s = (.error (.panic p), s')) ∨
    ∃ e, Slate.append H value s = (.error (.err e), s) := by
  subst hvalue
  by_cases hv : (v (n + 1)).length ≤ MAX_PAYLOAD_SIZE
  · by_cases hroom : S.Room (history S H v (n + 1))
    · exact Or.inl (h.append_ok hv hroom)
    · exact Or.inr (h.append_full hv hroom)
  · exact Or.inr (Or.inr ⟨_, append_tooLarge (Nat.lt_of_not_le hv)⟩)

/-- **An append that returns** has led to the slate with one payload more. -/
theorem of_append {value : Bytes} {info : MetaInfo w} (h : SlateOf S H L v n s)
    (hvalue : value = v (n + 1)) (ha : Slate.append H value s = (.ok info, s')) :
    SlateOf S H L v (n + 1) s' ∧ info = nodeInfo H v (positionOf S H v) (Tree.upTo (n + 1)) := by
  rcases h.append_cases hvalue with ⟨s'', h1, h2⟩ | ⟨p, s'', h1⟩ | ⟨e, h1⟩
  · rw [h1] at ha
    obtain ⟨h3, rfl⟩ := Prod.mk.inj ha
    exact ⟨h2, (Except.ok.inj h3).symm⟩
  · rw [h1] at ha
    exact absurd (Prod.mk.inj ha).1 (by simp)
  · rw [h1] at ha
    exact absurd (Prod.mk.inj ha).1 (by simp)

/-- An append that ends with an error has changed nothing. -/
theorem eq_of_append_err {value : Bytes} {e : Error} (h : SlateOf S H L v n s)
    (hvalue : value = v (n + 1)) (ha : Slate.append H value s = (.error (.err e), s')) :
    s' = s := by
  rcases h.append_cases hvalue with ⟨s'', h1, -⟩ | ⟨p, s'', h1⟩ | ⟨e', h1⟩
  · rw [h1] at ha
    exact absurd (Prod.mk.inj ha).1 (by simp)
  · rw [h1] at ha
    exact absurd (Prod.mk.inj ha).1 (by simp)
  · rw [h1] at ha
    exact (Prod.mk.inj ha).2.symm

/-! ### Looking up -/

/-- **`loadEntry` returns the entry**, or the error that the index is not there. -/
theorem loadEntry_eq (h : SlateOf S H L v n s) {fuel : ℕ} (hf : INDEX_SIZE < fuel) (i : ℕ) :
    Slate.loadEntry fuel i s =
      (if 1 ≤ i ∧ i ≤ n then .ok (entryOf S H v i)
        else .error (.err (.invalidArgument
          s!"Entry {i} is not contained in the current revision {n}")), s) := by
  rw [Slate.loadEntry, Prog.bind_ok (Prog.get_run s)]
  by_cases hi : 1 ≤ i ∧ i ≤ n
  · have hn : 1 ≤ n := by omega
    have hl := h.represents.loaded hn
    have hu := Tree.leftPerfect_upTo hn
    have hhi := Tree.hi_upTo hn
    have hlo := Tree.lo_upTo hn
    have hread := readEntryFrom_eq (q := { cache := s.cache }) h.represents h.lt h.readable (i := i)
      fuel hu hhi.le (height_upTo_lt hn h.lt hf) (by rw [hlo]; exact hi.1) (by rw [hhi]; exact hi.2)
    rw [hhi] at hread
    have hload := loadEntryFrom_of_readEntryFrom fuel hread
    rw [h.n_eq, if_neg (show ¬(i = 0 ∨ n < i) by omega), if_pos hi]
    cases he : s.cache.entry i with
    | some e => rw [h.represents.of_entry he]; rfl
    | none =>
      simp only [hl.entry_self, unwrap_some, Prog.liftM_eq, Prog.lift_ok_bind]
      rw [Prog.bind_ok (onStorage_keep h.readable.reader), onStorage_keep hload]
  · rw [h.n_eq, if_pos (show i = 0 ∨ n < i by omega), if_neg hi]
    rfl

/-- **Going back to an old generation** gives its cache, and leaves the slate alone. -/
theorem snapshotAt_ok (h : SlateOf S H L v n s) {fuel : ℕ} (hf : INDEX_SIZE < fuel) {k : ℕ}
    (h1 : 1 ≤ k) (h2 : k ≤ n) :
    ∃ c, Slate.snapshotAt fuel k s = (.ok { cache := c }, s) ∧
      Loaded H v (positionOf S H v) L k c := by
  obtain ⟨c, hc, hl⟩ := load_loaded (L := L) (h.readable.mono h2) h1 (by have := h.lt; omega)
  refine ⟨c, ?_, hl⟩
  have he := h.loadEntry_eq hf k
  rw [if_pos ⟨h1, h2⟩] at he
  rw [Slate.snapshotAt, Prog.bind_ok he, Prog.bind_ok (Prog.get_run s), h.represents.level_eq,
    Prog.bind_ok (onStorage_keep hc)]
  rfl

/-- There is no generation 0, and none after the current one. -/
theorem snapshotAt_err (h : SlateOf S H L v n s) {fuel : ℕ} (hf : INDEX_SIZE < fuel) {k : ℕ}
    (hk : k = 0 ∨ n < k) : ∃ e, Slate.snapshotAt fuel k s = (.error (.err e), s) := by
  have he := h.loadEntry_eq hf k
  rw [if_neg (by omega)] at he
  exact ⟨_, by rw [Slate.snapshotAt, Prog.bind_error he]⟩

/-! ### Truncating -/

/-- **Truncating at an index of the slate** leads to the slate of the payloads before it. -/
theorem truncate_ok (h : SlateOf S H L v n s) {fuel : ℕ} (hf : INDEX_SIZE < fuel) {i : ℕ}
    (h1 : 1 ≤ i) (h2 : i ≤ n) :
    ∃ s', Slate.truncate fuel i s = (.ok true, s') ∧ SlateOf S H L v (i - 1) s' := by
  have hi : i - 1 < (history S H v n).length := by
    rw [length_history]
    omega
  have hread := readEntry_eq (q := { cache := s.cache }) h.represents h.lt h.readable hf i
  rw [if_pos ⟨h1, h2⟩] at hread
  obtain ⟨st, htrunc, hlast⟩ := S.truncate_render h.fits.room h.fits.laid hi
  rw [take_history S H v (by omega)] at htrunc hlast
  obtain ⟨c, hload, hrep⟩ := loadMetadata_eq (L := L) (h.fits.mono (by omega)) hlast
  refine ⟨⟨positionOf S H v i, S.render (history S H v (i - 1)), c⟩, ?_,
    h.fits.mono (by omega), ?_, rfl, hrep⟩
  · -- the entry is looked up, cut off, and the rest is loaded again
    have hquery : Slate.onStorage s.snapshot.query s = (.ok { cache := s.cache }, s) := by
      refine onStorage_keep ?_
      rw [Snapshot.query, Prog.bind_ok h.readable.reader]
      rfl
    have hcut : Slate.onStorage
        (S.truncate (entryOf S H v i).enode.metaInfo.address.position) s =
          (.ok true, { s with storage := st }) := by
      refine onStorage_run ?_
      rw [h.storage_eq]
      exact htrunc
    have hmeta : Slate.onStorage (Slate.loadMetadata S.toStorage L) { s with storage := st } =
        (.ok (c, positionOf S H v i), { s with storage := S.render (history S H v (i - 1)) }) :=
      onStorage_run (s := { s with storage := st }) hload
    rw [Slate.truncate, Prog.bind_ok (Prog.get_run s), Prog.bind_ok hquery,
      Prog.bind_ok (onStorage_keep hread)]
    simp only
    rw [Prog.bind_ok hcut, h.represents.level_eq, Prog.bind_ok hmeta, Prog.liftM_eq,
      debugAssert_of (show (entryOf S H v i).enode.metaInfo.address.position =
        (c, positionOf S H v i).2 from rfl), Prog.lift_ok_bind, Prog.bind_ok (Prog.modify_run _ _)]
    rfl
  · rw [Nat.sub_add_cancel h1]

/-- Truncating anywhere else changes nothing. -/
theorem truncate_no (h : SlateOf S H L v n s) {fuel : ℕ} (hf : INDEX_SIZE < fuel) {i : ℕ}
    (hi : i = 0 ∨ n < i) : Slate.truncate fuel i s = (.ok false, s) := by
  have hread := readEntry_eq (q := { cache := s.cache }) h.represents h.lt h.readable hf i
  rw [if_neg (by omega)] at hread
  have hquery : Slate.onStorage s.snapshot.query s = (.ok { cache := s.cache }, s) := by
    refine onStorage_keep ?_
    rw [Snapshot.query, Prog.bind_ok h.readable.reader]
    rfl
  rw [Slate.truncate, Prog.bind_ok (Prog.get_run s), Prog.bind_ok hquery,
    Prog.bind_ok (onStorage_keep hread)]
  rfl

end SlateOf

end StratifiedHashTree
