import StratifiedHashTree.Links

/-!
# Lookups that go in circles

What lies in a content decides whether a lookup ends. A slate that opens on it has read the last
record and those to which it links, and so it has an entry to start from; from there every lookup
does what `StratifiedHashTree.search_ends_iff` says
(`StratifiedHashTree.lookups_end_iff`). Two records are enough for one that does not end: the
second one has itself for its left branch, at a height where its subtree has both leaves, and
the first leaf is looked for in it again and again (`StratifiedHashTree.not_lookups_end`).
-/

namespace StratifiedHashTree

open Outcome Formula Relation
open Prog (Looks)

variable {w : ℕ}

/-! ### Contents -/

section Contents

variable {D : BlockDevice} {K : Disk D} {checksum : Checksum} {ro : Bool} {buffer : Bytes}

variable (K ro) in
/-- **A content stores its records.** -/
theorem storedIn_content (hall : K.ReadsAll) (hw : w ≤ 64) (hbuffer : buffer.length < 2 ^ 63)
    (p q : Position) : StoredIn (blockStorage (w := w) D checksum)
      (⟨K.state ro buffer p, q⟩ : BlockStorage D) (RecordAt checksum buffer) where
  reader := by
    change (do
      let _ ← BlockStorage.reader D
      return () : Run (BlockStorage D) Unit) ⟨K.state ro buffer p, q⟩ = _
    rw [Prog.bind_ok (BlockStorage.reader_eq (K.clone_eq ro buffer p))]
    rfl
  read position := by
    have hrun : (blockStorage (w := w) D checksum).read position
        (⟨K.state ro buffer p, q⟩ : BlockStorage D) =
          ((readData D checksum position (K.state true buffer position)).1,
            (⟨K.state ro buffer p, q⟩ : BlockStorage D)) := by
      change BlockStorage.read D checksum position ⟨K.state ro buffer p, q⟩ = _
      rw [BlockStorage.read, Prog.bind_ok (BlockStorage.reader_eq (K.clone_eq ro buffer p)),
        Prog.bind_ok (K.seek_start true buffer 0 position)]
      rfl
    rcases readData_cases (w := w) hall hw checksum hbuffer position true position with
      ⟨e, bytes, post, h1, h2, h3⟩ | ⟨⟨error, h1⟩, h2⟩
    · rw [h3] at hrun
      exact Or.inl ⟨e, ⟨bytes, post, h1, h2⟩, hrun⟩
    · rw [h1] at hrun
      refine Or.inr ⟨?_, error, hrun⟩
      rintro e ⟨bytes, post, h3, h4⟩
      exact h2 e bytes post h3 h4
  unique := RecordAt.unique
  finite := by
    refine Set.Finite.subset
      (s := ⋃ position ∈ Finset.range buffer.length, {e | RecordAt checksum buffer position e})
      ?_ ?_
    · refine Set.Finite.biUnion (Finset.finite_toSet _) fun position _ =>
        Set.Subsingleton.finite fun e he e' he' => he.unique he'
    · rintro e ⟨position, h⟩
      exact Set.mem_biUnion (Finset.mem_coe.mpr (Finset.mem_range.mpr h.lt)) h

/-- Opening a content does not change it. -/
theorem last_content_eq (hall : K.ReadsAll) (hw : w ≤ 64) (hbuffer : buffer.length < 2 ^ 63)
    (hne : buffer ≠ []) {p q : Position} {found : Option (Entry w) × Position}
    {self : BlockStorage D}
    (h : BlockStorage.last D checksum ⟨K.state ro buffer p, q⟩ = (.ok found, self)) :
    ∃ p' q', self = ⟨K.state ro buffer p', q'⟩ := by
  obtain ⟨firstLast, self', h1, h2⟩ := Prog.bind_eq_ok.mp h
  have hdevice : self' = ⟨K.state ro buffer buffer.length, q⟩ := by
    have hboot : (boot (w := w) D checksum (K.state ro buffer p)).1 = .ok firstLast :=
      congrArg Prod.fst h1
    have hself : self' = ⟨(boot (w := w) D checksum (K.state ro buffer p)).2, q⟩ :=
      (congrArg Prod.snd h1).symm
    rcases boot_cases (w := w) ro hall hw checksum hbuffer hne p with
      (⟨-, error, h3⟩ | ⟨-, -, h3⟩) | ⟨e, -, -, ⟨-, h3⟩ | ⟨k, e', -, h3⟩ | ⟨-, -, error, h3⟩⟩
    · exact absurd (hboot.symm.trans h3) (by simp [err])
    · rw [hself, h3]
    · exact absurd (hboot.symm.trans h3) (by simp [Outcome.panic])
    · rw [hself, h3]
    · exact absurd (hboot.symm.trans h3) (by simp [err])
  rw [hdevice] at h2
  exact ⟨buffer.length, _, (congrArg Prod.snd h2).symm⟩

end Contents

/-! ### Caches that are loaded from anywhere -/

/-- Entries under their own indices, and one with the index `n` among them. -/
def KeyedFor (n : Index) (m : IndexMap (Entry w)) : Prop :=
  (∀ k e, m.lookup k = some e → e.index = k) ∧ n ∈ m

theorem KeyedFor.insert {n : Index} {m : IndexMap (Entry w)} (h : KeyedFor n m) (e : Entry w) :
    KeyedFor n (m.insert e.index e) := by
  refine ⟨fun k e' hk => ?_, Finmap.mem_insert.mpr (Or.inr h.2)⟩
  by_cases hne : k = e.index
  · rw [hne, Finmap.lookup_insert, Option.some.injEq] at hk
    rw [hne, hk]
  · rw [Finmap.lookup_insert_of_ne _ hne] at hk
    exact h.1 k e' hk

theorem keyedFor_singleton (e : Entry w) :
    KeyedFor e.index ((∅ : IndexMap (Entry w)).insert e.index e) := by
  refine ⟨fun k e' hk => ?_, Finmap.mem_insert.mpr (Or.inl rfl)⟩
  by_cases hne : k = e.index
  · rw [hne, Finmap.lookup_insert, Option.some.injEq] at hk
    rw [hne, hk]
  · rw [Finmap.lookup_insert_of_ne _ hne, Finmap.lookup_empty] at hk
    exact absurd hk (Option.some_ne_none e').symm

/-- A model is one of its generation. -/
theorem new_n {n : Index} {model : Model} (h : Model.new n = .ok model) : model.n = n := by
  obtain ⟨-, -, h1⟩ := bind_eq_ok.mp h
  obtain ⟨pbsts, -, h2⟩ := bind_eq_ok.mp h1
  obtain ⟨-, -, h3⟩ := bind_eq_ok.mp h2
  obtain ⟨ephemerals, -, h4⟩ := bind_eq_ok.mp h3
  rw [← Except.ok.inj h4]

section Loading

variable {S : Storage (Entry w)} {st : S.State} {stored : Position → Entry w → Prop} {n : Index}
  (hst : StoredIn S st stored)

include hst

theorem looks_reader : Looks st (fun _ => True) S.reader := by
  intro a s' h
  rw [hst.reader] at h
  exact ⟨(Prod.mk.inj h).2.symm, trivial⟩

theorem looks_readEntry (position : Position) (expected : Index) :
    Looks st (fun _ => True) (readEntryWithIndexCheck S position expected) := by
  refine Looks.bind (P := fun _ => True) ?_ fun e _ => ?_
  · intro e s' h
    rcases hst.read position with ⟨e', -, h1⟩ | ⟨-, error, h1⟩
    · rw [h1] at h
      exact ⟨(Prod.mk.inj h).2.symm, trivial⟩
    · rw [h1] at h
      exact absurd (Prod.mk.inj h).1 (by simp [err])
  · by_cases he : e.index ≠ expected
    · rw [if_pos he]
      exact Looks.lift fun _ _ => trivial
    · rw [if_neg he]
      exact Looks.pure trivial

/-- Whatever is loaded is put under its own index. -/
theorem looks_loadWithLevel : ∀ (level : ℕ) (addrs : List Address) {m : IndexMap (Entry w)},
    KeyedFor n m → Looks st (KeyedFor n) (Cache.loadWithLevel S level addrs m)
  | level + 2, addrs, m, hm => by
    rw [Cache.loadWithLevel]
    refine Looks.foldlM addrs (fun addr _ m hm => ?_) hm
    exact (looks_readEntry hst addr.position addr.i).bind fun e _ =>
      looks_loadWithLevel (level + 1) _ (hm.insert e)
  | 1, addrs, m, hm | 0, addrs, m, hm => by
    refine Looks.foldlM addrs (fun addr _ m hm => ?_) hm
    exact (looks_readEntry hst addr.position addr.i).bind fun e _ => Looks.pure (hm.insert e)

/-- **A loaded cache** has its entries under their own indices, and one of its revision. -/
theorem looks_load (level : ℕ) (e : Entry w) :
    Looks st (fun c : Cache w => KeyedFor c.revision c.cache) (Cache.load S level e) := by
  have hm := keyedFor_singleton e
  rw [Cache.load]
  refine Looks.bind (P := fun model => model.n = e.index) (Looks.lift fun _ h => new_n h)
    fun model hmodel => ?_
  refine Looks.bind (P := fun _ => True) (Looks.lift fun _ _ => trivial) fun addrs _ => ?_
  refine Looks.bind (P := KeyedFor e.index) ?_ fun cache hcache => ?_
  · rw [Cache.loadCached]
    by_cases hlevel : 0 < level
    · rw [if_pos hlevel]
      exact (looks_reader hst).bind fun _ _ => looks_loadWithLevel hst level _ hm
    · rw [if_neg hlevel]
      exact Looks.pure hm
  refine Looks.bind (P := fun _ => True) ?_ fun entries _ => ?_
  · rw [Cache.loadNeighbours]
    by_cases hlevel : level = 0
    · rw [if_pos hlevel]
      exact (looks_reader hst).bind fun _ _ =>
        (looks_loadWithLevel hst 1 _ hm).mono fun _ _ => trivial
    · rw [if_neg hlevel]
      exact Looks.pure trivial
  refine Looks.bind (P := fun _ => True) (Looks.lift fun _ _ => trivial) fun roots _ => ?_
  refine Looks.pure ?_
  rw [← hmodel] at hcache
  exact hcache

end Loading

/-! ### Lookups in an opened slate -/

/-- An entry of the index, or an error. -/
def Finds (i : Index) (outcome : Result (Entry w)) : Prop :=
  (∃ e, outcome = .ok e ∧ e.index = i) ∨ ∃ error, outcome = err error

/-- An entry of the index, none, or an error. -/
def FindsOrNot (i : Index) (outcome : Result (Option (Entry w))) : Prop :=
  (∃ e, outcome = .ok (some e) ∧ e.index = i) ∨ outcome = .ok none ∨ ∃ error, outcome = err error

section Lookups

variable {S : Storage (Entry w)} {stored : Position → Entry w → Prop} {i : Index}

theorem loadEntryFrom_ends_iff {st : S.State} (hst : StoredIn S st stored) (cache : Cache w)
    (e : Entry w) : (∃ fuel, Finds i (Slate.loadEntryFrom S cache i fuel e st).1) ↔
      LeadsOut stored cache i e := by
  simp only [Slate.loadEntryFrom_eq_search]
  refine search_ends_iff hst (fun e he => Or.inl ⟨e, rfl, he⟩) (fun e => Or.inr ⟨_, rfl⟩)
    (fun error => Or.inr ⟨error, rfl⟩) ?_ ?_
  · rintro (⟨e, h, -⟩ | ⟨error, h⟩)
    · cases h
    · exact absurd (Except.error.inj h) (by simp)
  · rintro p (⟨e, h, -⟩ | ⟨error, h⟩)
    · cases h
    · exact absurd (Except.error.inj h) (by simp)

theorem readEntry_ends_iff {st : S.State} (hst : StoredIn S st stored) (query : Query S) :
    (∃ fuel, FindsOrNot i (query.readEntry fuel i st).1) ↔
      ∀ e, query.cache.entry query.revision = some e → LeadsOut stored query.cache i e := by
  cases hlast : query.cache.entry query.revision with
  | none =>
    refine iff_of_true ⟨0, Or.inr (Or.inl ?_)⟩ fun e he => absurd he (Option.some_ne_none e).symm
    rw [Query.readEntry, hlast]
    rfl
  | some e =>
    have hrun : ∀ fuel, query.readEntry fuel i st = searchFrom S query.cache i
        (fun entry => pure (some entry)) (fun _ => pure none) fuel e st := by
      intro fuel
      rw [Query.readEntry, hlast]
      exact congrFun (Query.readEntryFrom_eq_search query i fuel e) st
    simp only [hrun]
    refine (search_ends_iff (e := e) hst
      (fun e he => Or.inl ⟨e, rfl, he⟩) (fun e => Or.inr (Or.inl rfl))
      (fun error => Or.inr (Or.inr ⟨error, rfl⟩)) ?_ ?_).trans ?_
    · rintro (⟨e, h, -⟩ | h | ⟨error, h⟩)
      · cases h
      · cases h
      · exact absurd (Except.error.inj h) (by simp)
    · rintro p (⟨e, h, -⟩ | h | ⟨error, h⟩)
      · cases h
      · cases h
      · exact absurd (Except.error.inj h) (by simp)
    · constructor
      · rintro h e' he'
        rwa [← Option.some.inj he']
      · exact fun h => h e rfl

/-- **Looking an entry up in a slate** that has its last entry in the cache, and its cached
entries under their own indices. -/
theorem loadEntry_ends_iff {s : Slate S} (hst : StoredIn S s.storage stored)
    (hcache : s.n = 0 ∨ KeyedFor s.n s.cache.cache) :
    (∃ fuel, Finds i (Slate.loadEntry fuel i s).1) ↔
      i = 0 ∨ s.n < i ∨ (∃ e, s.cache.entry i = some e) ∨
        ∀ e, s.cache.entry s.n = some e → LeadsOut stored s.cache i e := by
  by_cases hi : i = 0 ∨ s.n < i
  · refine iff_of_true ⟨0, Or.inr ?_⟩ ?_
    · rw [Slate.loadEntry, Prog.bind_ok (Prog.get_run s), if_pos hi]
      exact ⟨_, rfl⟩
    · exact hi.imp_right Or.inl
  · rcases hcache with hn | hcache
    · exact absurd (Or.inr (hn ▸ Nat.pos_of_ne_zero fun h => hi (Or.inl h))) hi
    cases hentry : s.cache.entry i with
    | some e =>
      refine iff_of_true ⟨0, Or.inl ⟨e, ?_, hcache.1 i e hentry⟩⟩
        (Or.inr (Or.inr (Or.inl ⟨e, rfl⟩)))
      rw [Slate.loadEntry, Prog.bind_ok (Prog.get_run s), if_neg hi, hentry]
      rfl
    | none =>
      obtain ⟨e, he⟩ := Finmap.mem_iff.mp hcache.2
      have hlast : s.cache.entry s.n = some e := he
      have hrun : ∀ fuel, (Slate.loadEntry fuel i s).1 =
          (Slate.loadEntryFrom S s.cache i fuel e s.storage).1 := by
        intro fuel
        have hreader : Slate.onStorage S.reader s = (.ok (), s) := by
          rw [Slate.onStorage, hst.reader]
        rw [Slate.loadEntry, Prog.bind_ok (Prog.get_run s), if_neg hi, hentry]
        simp only [hlast, unwrap_some, Prog.liftM_eq, Prog.lift_ok_bind]
        rw [Prog.bind_ok hreader]
        rfl
      simp only [hrun]
      refine (loadEntryFrom_ends_iff hst s.cache e).trans ?_
      rw [hlast]
      constructor
      · intro h
        refine Or.inr (Or.inr (Or.inr fun e' he' => ?_))
        rwa [← Option.some.inj he']
      · rintro (h | h | ⟨e', h⟩ | h)
        · exact absurd (Or.inl h) hi
        · exact absurd (Or.inr h) hi
        · exact absurd h (Option.some_ne_none e').symm
        · exact h e rfl

/-- A slate opens with what is loaded. -/
theorem loadMetadata_of_withCacheLevel {st : S.State} {level : ℕ} {s : Slate S}
    (h : Slate.withCacheLevel st level = .ok s) :
    Slate.loadMetadata S level st = (.ok (s.cache, s.position), s.storage) := by
  rw [Slate.withCacheLevel] at h
  rcases hload : Slate.loadMetadata S level st with ⟨error | ⟨cache, position⟩, st'⟩
  · rw [hload] at h
    cases h
  · rw [hload, Except.ok.injEq] at h
    rw [← h]

end Lookups

section Opened

variable {D : BlockDevice} {K : Disk D} {checksum : Checksum} {ro : Bool} {buffer : Bytes}
  {p q : Position} {L : ℕ} {s : Slate (blockStorage (w := w) D checksum)}

/-- **A slate that opens on a content** has its cache from there, and leaves it as it is. -/
theorem opened (hall : K.ReadsAll) (hw : w ≤ 64) (hbuffer : buffer.length < 2 ^ 63)
    (hne : buffer ≠ [])
    (h : Slate.withCacheLevel (S := blockStorage (w := w) D checksum)
      (⟨K.state ro buffer p, q⟩ : BlockStorage D) L = .ok s) :
    StoredIn (blockStorage D checksum) s.storage (RecordAt checksum buffer) ∧
      (s.n = 0 ∨ KeyedFor s.n s.cache.cache) := by
  obtain ⟨⟨latest, next⟩, st, hlast, hrest⟩ :=
    Prog.bind_eq_ok.mp (loadMetadata_of_withCacheLevel h)
  obtain ⟨p', q', rfl⟩ := last_content_eq hall hw hbuffer hne hlast
  have hst : StoredIn (blockStorage (w := w) D checksum)
      (⟨K.state ro buffer p', q'⟩ : BlockStorage D) (RecordAt checksum buffer) :=
    storedIn_content K ro hall hw hbuffer p' q'
  cases latest with
  | none =>
    obtain ⟨h1, h2⟩ := Prod.mk.inj hrest
    obtain ⟨h3, -⟩ := Prod.mk.inj (Except.ok.inj h1)
    refine ⟨by rw [← h2]; exact hst, Or.inl ?_⟩
    rw [Slate.n, ← h3]
    rfl
  | some e =>
    obtain ⟨cache, st', hcache, hpure⟩ := Prog.bind_eq_ok.mp hrest
    obtain ⟨rfl, hkeyed⟩ := looks_load hst L e cache st' hcache
    obtain ⟨h1, h2⟩ := Prod.mk.inj hpure
    obtain ⟨h3, -⟩ := Prod.mk.inj (Except.ok.inj h1)
    refine ⟨by rw [← h2]; exact hst, Or.inr ?_⟩
    rw [Slate.n, ← h3]
    exact hkeyed

/-- **Lookups in a content that may hold anything.** In a slate that opens on it, a lookup ends
with an entry of the index, with none or with an error if and only if it is out of range, or
cached, or the last entry has a way out; and a query of any revision, if and only if the last
entry of the revision has one. -/
theorem lookups_end_iff (hall : K.ReadsAll) (hw : w ≤ 64) (hbuffer : buffer.length < 2 ^ 63)
    (hne : buffer ≠ [])
    (h : Slate.withCacheLevel (S := blockStorage (w := w) D checksum)
      (⟨K.state ro buffer p, q⟩ : BlockStorage D) L = .ok s) (i : Index) :
    ((∃ fuel, Finds i (Slate.loadEntry fuel i s).1) ↔
      i = 0 ∨ s.n < i ∨ (∃ e, s.cache.entry i = some e) ∨
        ∀ e, s.cache.entry s.n = some e → LeadsOut (RecordAt checksum buffer) s.cache i e) ∧
    ∀ query : Query (blockStorage (w := w) D checksum),
      (∃ fuel, FindsOrNot i (query.readEntry fuel i s.storage).1) ↔
        ∀ e, query.cache.entry query.revision = some e →
          LeadsOut (RecordAt checksum buffer) query.cache i e := by
  obtain ⟨hst, hcache⟩ := opened hall hw hbuffer hne h
  exact ⟨loadEntry_ends_iff hst hcache, fun query => readEntry_ends_iff hst query⟩

end Opened

/-! ### Two records that go in circles -/

open Handles (seven twoEntries)

/-- A second entry whose left branch leads to itself. -/
def circling : Entry 1 :=
  { enode := (twoEntries 2).enode
    inodes := (twoEntries 2).inodes.map fun inode => { inode with left := ⟨2, 1, 30⟩ } }

/-- The content of its storage. -/
def circle : Bytes := BlockStorage.content seven [twoEntries 1, circling]

/-- A slate opens on it. -/
theorem exists_circular : ∃ s : Slate (blockStorage (w := 1) memoryDevice seven),
    Slate.withCacheLevel (S := blockStorage (w := 1) memoryDevice seven)
      (⟨⟨false, circle, 0⟩, 0⟩ : BlockStorage memoryDevice) 0 = .ok s ∧
    s.n = 2 ∧ s.cache.entry 1 = none ∧ s.cache.entry 2 = some circling := by
  have h : (match Slate.withCacheLevel (S := blockStorage (w := 1) memoryDevice seven)
      (⟨⟨false, circle, 0⟩, 0⟩ : BlockStorage memoryDevice) 0 with
    | .ok s => decide (s.n = 2 ∧ s.cache.entry 1 = none ∧ s.cache.entry 2 = some circling)
    | .error _ => false) = true := by decide +kernel
  split at h
  · next s hs => exact ⟨s, hs, of_decide_eq_true h⟩
  · cases h

theorem lookups_end_iff_circular : ∃ s : Slate (blockStorage (w := 1) memoryDevice seven),
    Slate.withCacheLevel (S := blockStorage (w := 1) memoryDevice seven)
      (⟨⟨false, circle, 0⟩, 0⟩ : BlockStorage memoryDevice) 0 = .ok s ∧
    ((∃ fuel, Finds 1 (Slate.loadEntry fuel 1 s).1) ↔
      1 = 0 ∨ s.n < 1 ∨ (∃ e, s.cache.entry 1 = some e) ∨
        ∀ e, s.cache.entry s.n = some e → LeadsOut (RecordAt seven circle) s.cache 1 e) := by
  obtain ⟨s, hopen, -⟩ := exists_circular
  exact ⟨s, hopen, (lookups_end_iff (K := MemoryDevice.disk) MemoryDevice.readsAll (by decide)
    (by decide +kernel) (by decide +kernel) hopen 1).1⟩

/-- The second entry leads to itself. -/
theorem circling_leads {stored : Position → Entry 1 → Prop} {cache : Cache 1}
    (h : cache.entry 2 = some circling) : LeadsTo stored cache 1 circling circling := by
  have hfound : findLeft 1 circling.inodes = .ok circling.inodes.head? := by decide +kernel
  have hleft : circling.inodes.head?.map (fun inode => inode.left.i) = some 2 := by decide +kernel
  obtain ⟨inode, hinode, hi⟩ := Option.map_eq_some_iff.mp hleft
  refine ⟨by decide +kernel, inode, hfound.trans (congrArg _ hinode), Or.inl ?_⟩
  rw [hi]
  exact h

/-- **A lookup that does not end**: both records can be read and the slate opens on them, but its
first entry is looked for forever. -/
theorem not_lookups_end : ∃ s : Slate (blockStorage (w := 1) memoryDevice seven),
    (readData memoryDevice seven 4 ⟨false, circle, 4⟩).1 = .ok (twoEntries 1) ∧
    (readData memoryDevice seven 30 ⟨false, circle, 30⟩).1 = .ok circling ∧
    Slate.withCacheLevel (S := blockStorage (w := 1) memoryDevice seven)
      (⟨⟨false, circle, 0⟩, 0⟩ : BlockStorage memoryDevice) 0 = .ok s ∧ s.n = 2 ∧
    (¬∃ fuel, Finds 1 (Slate.loadEntry fuel 1 s).1) ∧
    ¬∃ fuel, FindsOrNot 1
      (Query.readEntry (S := blockStorage (w := 1) memoryDevice seven) ⟨s.cache⟩ fuel 1
        s.storage).1 := by
  obtain ⟨s, hopen, hn, hnone, hlast⟩ := exists_circular
  obtain ⟨hst, hcache⟩ := opened (K := MemoryDevice.disk) MemoryDevice.readsAll (by decide)
    (by decide +kernel) (by decide +kernel) hopen
  have hnot : ¬LeadsOut (RecordAt seven circle) s.cache 1 circling := fun h =>
    h.acyclic circling .refl (.single (circling_leads hlast))
  refine ⟨s, by decide +kernel, by decide +kernel, hopen, hn, fun h => ?_, fun h => ?_⟩
  · rcases (loadEntry_ends_iff hst hcache).mp h with h | h | ⟨e, h⟩ | h
    · exact absurd h (by decide)
    · rw [hn] at h
      exact absurd h (by decide)
    · exact absurd (hnone.symm.trans h) (Option.some_ne_none e).symm
    · rw [hn] at h
      exact hnot (h circling hlast)
  · refine hnot ((readEntry_ends_iff hst _).mp h circling ?_)
    have hrevision : s.cache.revision = 2 := hn
    rw [Query.revision, hrevision]
    exact hlast

end StratifiedHashTree
