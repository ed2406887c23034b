import StratifiedHashTree.Hosting

/-!
# Storages that fail now and then

A storage that does what another one does, or reports a fault. Reading can be given up at any
point, for nothing has changed: whatever is made of reads is what it would be over the other
storage, or the fault (`StratifiedHashTree.ReadsLike`). Putting an entry is another matter, since it
may have got somewhere before it fails; what is asked of a storage is that the log does not notice
(`StratifiedHashTree.LogStorage.Host.Unsteady`).

Then a slate does not notice either. A command that reports a fault might as well not have been
given, and the others are answered as on a slate that never fails
(`StratifiedHashTree.Weathers.execute`). Cutting is left out of this: it has to be done without a
fault.
-/

namespace StratifiedHashTree

open Outcome Formula
open Prog (Reports ReportsAt Beside Both Never)

variable {w : ℕ}

/-- **A storage that reads what another one reads, or reports a fault**, in all of some states; what
is read leaves these as they are. -/
structure ReadsLike (P : Failure Error → Prop) (T T' : Storage (Entry w)) (I : T.State → Prop)
    (J : T'.State → Prop) : Prop where
  last : Reports I (Both I J) P T.last T'.last
  reader : Reports I (Both I J) P T.reader T'.reader
  read : ∀ position, Reports I (Both I J) P (T.read position) (T'.read position)
  scan : ∀ position count {κ : Type} (callback : ScanFn (Entry w) κ),
    Reports (fun s => I s.2) (Beside κ (Both I J)) P (T.scan position count callback)
      (T'.scan position count callback)

variable {P : Failure Error → Prop} {T T' : Storage (Entry w)}

namespace ReadsLike

/-! ### What is made of reads -/

section Reading

variable {I : T.State → Prop} {J : T'.State → Prop} (h : ReadsLike P T T' I J)

include h

theorem reports_readEntry (position : Position) (expected : Index) :
    Reports I (Both I J) P (readEntryWithIndexCheck T position expected)
      (readEntryWithIndexCheck T' position expected) := by
  rw [readEntryWithIndexCheck, readEntryWithIndexCheck]
  refine (h.read position).bind fun e => ?_
  by_cases hi : e.index ≠ expected
  · rw [if_pos hi, if_pos hi]
    exact .lift _
  · rw [if_neg hi, if_neg hi]
    exact .pure e

/-- The recursion is on the levels that are left. -/
theorem reports_loadWithLevel : ∀ (level : ℕ) (addrs : List Address) (cache : IndexMap (Entry w)),
    Reports I (Both I J) P (Cache.loadWithLevel T level addrs cache)
      (Cache.loadWithLevel T' level addrs cache)
  | level + 2, addrs, cache => by
    rw [Cache.loadWithLevel, Cache.loadWithLevel]
    exact .foldlM (fun cache addr => (h.reports_readEntry addr.position addr.i).bind fun e =>
      reports_loadWithLevel (level + 1) _ _) addrs cache
  | 1, addrs, cache | 0, addrs, cache =>
    Reports.foldlM (fun (cache : IndexMap (Entry w)) (addr : Address) =>
      (h.reports_readEntry addr.position addr.i).bind fun e =>
        .pure (cache.insert e.index e : IndexMap (Entry w))) addrs cache

/-- **A cache is loaded.** -/
theorem reports_load (level : ℕ) (e : Entry w) :
    Reports I (Both I J) P (Cache.load T level e) (Cache.load T' level e) := by
  have hcached : ∀ addrs cache, Reports I (Both I J) P (Cache.loadCached T level addrs cache)
      (Cache.loadCached T' level addrs cache) := by
    intro addrs cache
    rw [Cache.loadCached, Cache.loadCached]
    by_cases hlevel : 0 < level
    · rw [if_pos hlevel, if_pos hlevel]
      exact h.reader.bind fun _ => h.reports_loadWithLevel level addrs cache
    · rw [if_neg hlevel, if_neg hlevel]
      exact .pure cache
  have hneighbours : ∀ addrs lastOnly cache, Reports I (Both I J) P
      (Cache.loadNeighbours T level addrs lastOnly cache)
      (Cache.loadNeighbours T' level addrs lastOnly cache) := by
    intro addrs lastOnly cache
    rw [Cache.loadNeighbours, Cache.loadNeighbours]
    by_cases hlevel : level = 0
    · rw [if_pos hlevel, if_pos hlevel]
      exact h.reader.bind fun _ => h.reports_loadWithLevel 1 addrs lastOnly
    · rw [if_neg hlevel, if_neg hlevel]
      exact .pure cache
  rw [Cache.load, Cache.load]
  exact (Reports.lift _).bind fun model => (Reports.lift _).bind fun roots =>
    (hcached _ _).bind fun cache => (hneighbours _ _ cache).bind fun entries =>
      (Reports.lift _).bind fun pbstRoots => .pure _

theorem reports_loadMetadata (level : ℕ) : Reports I (Both I J) P (Slate.loadMetadata T level)
    (Slate.loadMetadata T' level) := by
  rw [Slate.loadMetadata, Slate.loadMetadata]
  refine h.last.bind fun latest => ?_
  rcases latest with ⟨_ | e, position⟩
  · exact .pure _
  · exact (h.reports_load level e).bind fun cache => .pure _

/-- Following the links of entries. -/
theorem reports_loadEntryFrom (cache : Cache w) (i : Index) : ∀ (fuel : ℕ) (e : Entry w),
    Reports I (Both I J) P (Slate.loadEntryFrom T cache i fuel e)
      (Slate.loadEntryFrom T' cache i fuel e)
  | 0, e => .stop _
  | fuel + 1, e => by
    have hfetch : ∀ left : Address, Reports I (Both I J) P (fetchLeft T cache left)
        (fetchLeft T' cache left) := by
      intro left
      rw [fetchLeft, fetchLeft]
      cases cache.entry left.i with
      | some e => exact .pure e
      | none => exact h.reports_readEntry left.position left.i
    rw [Slate.loadEntryFrom, Slate.loadEntryFrom]
    by_cases hi : e.index = i
    · rw [if_pos hi, if_pos hi]
      exact .pure e
    · rw [if_neg hi, if_neg hi]
      refine (Reports.lift _).bind fun found => ?_
      cases found with
      | none => exact .lift _
      | some inode => exact (hfetch inode.left).bind fun e' => reports_loadEntryFrom cache i fuel e'

/-- **The entries of the other storage are served**, or a fault is reported. -/
theorem falters {H : HashFn w} {v : ℕ → Bytes} {pos : ℕ → Position} {m : ℕ}
    (hserves : Serves T' J H v pos m) {st : T'.State} (hst : J st) : Falters P T I H v pos m where
  read {s} hs k h1 h2 := by
    obtain ⟨st', hread, -⟩ := hserves.read hst k h1 h2
    have hreports := h.read (pos k) ⟨hs, hst⟩
    rw [ReportsAt, hread] at hreports
    rcases hreports with ⟨e, he, h3, h4⟩ | ⟨h3, h4⟩
    · exact Or.inl ⟨e, _, he, Prod.ext h3 rfl, h4⟩
    · exact Or.inr ⟨_, Prod.ext h3 rfl, h4.1⟩
  scan {s} hs k count h1 h2 h3 κ callback a := by
    obtain ⟨st', hscan, -⟩ := hserves.scan hst k count h1 h2 h3 callback a
    have hreports := h.scan (pos k) count callback (s := (a, s)) (t := (a, st)) ⟨rfl, hs, hst⟩
    rw [ReportsAt, hscan] at hreports
    rcases hreports with ⟨e, he, h4, h5⟩ | ⟨h4, h5, h6⟩
    · exact Or.inl ⟨e, _, _, he, Prod.ext h4 rfl, h5⟩
    · exact Or.inr ⟨_, Prod.ext h4 (Prod.ext h5 rfl), h6.1⟩

end Reading

end ReadsLike

/-! ### Slates over such a storage -/

/-- A response that hands a failure on. -/
def Response.Fails (e : Failure Error) : Response w → Prop
  | .appended result => result = .error e
  | .truncated result => result = .error e
  | .reopened result => result = .error e
  | .answered result => result = .error e ∨ ∃ a, result = .ok a ∧ a.Fails e

namespace Slate

section Views

variable {S : Storage (Entry w)}

/-- The cache of a query on the current generation. -/
def cacheNow : Run (Slate S) (Cache w) := do
  let self ← Prog.get
  onStorage S.reader
  return self.cache

/-- The cache of a query on an old generation. -/
def cacheAt (fuel : ℕ) (revision : Index) : Run (Slate S) (Cache w) := do
  let entry ← loadEntry fuel revision
  let self ← Prog.get
  let cache ← onStorage (Cache.load S self.cache.level entry)
  onStorage S.reader
  return cache

/-- A query is its cache. -/
def viewOf (x : Run (Slate S) (Cache w)) : Run (Slate S) (Query S) := do
  let cache ← x
  return { cache := cache }

theorem onStorage_query (snapshot : Snapshot S) : onStorage snapshot.query =
    (onStorage S.reader >>= fun _ =>
      (pure { cache := snapshot.cache } : Run (Slate S) (Query S))) := by
  funext s
  rw [onStorage, Snapshot.query, Prog.bind_run, Prog.bind_run, onStorage]
  rcases S.reader s.storage with ⟨e | u, st⟩
  · rfl
  · rfl

theorem queryNow_eq : queryNow (S := S) = viewOf cacheNow := by
  simp only [queryNow, viewOf, cacheNow, onStorage_query, bind_assoc, pure_bind]
  rfl

theorem queryAt_eq (fuel : ℕ) (revision : Index) :
    queryAt (S := S) fuel revision = viewOf (cacheAt fuel revision) := by
  simp only [queryAt, snapshotAt, viewOf, cacheAt, onStorage_query, bind_assoc, pure_bind]

end Views

/-- **Slates that are alike** but for what their storages are. -/
structure Alike (R : T.State → T'.State → Prop) (s : Slate T) (t : Slate T') : Prop where
  position_eq : s.position = t.position
  cache_eq : s.cache = t.cache
  storage : R s.storage t.storage

namespace Alike

variable {R : T.State → T'.State → Prop} {s : Slate T} {t : Slate T'}

theorem root_eq (h : Alike R s t) : s.root = t.root := congrArg Cache.root h.cache_eq

theorem n_eq (h : Alike R s t) : s.n = t.n := congrArg Cache.revision h.cache_eq

/-- With other storages. -/
theorem withStorage {R' : T.State → T'.State → Prop} (h : Alike R s t) {st : T.State}
    {st' : T'.State} (hst : R' st st') :
    Alike R' { s with storage := st } { t with storage := st' } :=
  ⟨h.position_eq, h.cache_eq, hst⟩

/-- A program on the storages. -/
theorem reportsAt_onStorage {α : Type} {x : Run T.State α} {y : Run T'.State α}
    {I : T.State → Prop} (h : Alike R s t) (hxy : ReportsAt I R P x y s.storage t.storage) :
    ReportsAt (fun _ => True) (Alike R) P (onStorage x) (onStorage y) s t :=
  hxy.imp (fun ⟨e, he, h1, _⟩ => ⟨e, he, h1, trivial⟩) fun ⟨h1, h2⟩ => ⟨h1, h.withStorage h2⟩

/-- A program that reads the storages. -/
theorem reports_onStorage {α : Type} {x : Run T.State α} {y : Run T'.State α}
    (hxy : Reports (R · t.storage) (Both (R · t.storage) (· = t.storage)) P x y) :
    Reports (Alike R · t) (Both (Alike R · t) (· = t)) P (onStorage x) (onStorage y) := by
  rintro s _ ⟨hs, rfl⟩
  rcases hxy ⟨hs.storage, rfl⟩ with ⟨e, he, h1, h2⟩ | ⟨h1, h2, h3⟩
  · exact Or.inl ⟨e, he, h1, hs.position_eq, hs.cache_eq, h2⟩
  · refine Or.inr ⟨h1, ⟨hs.position_eq, hs.cache_eq, h2⟩, ?_⟩
    rw [onStorage, h3]

section Reading

variable (hreads : ReadsLike P T T' (R · t.storage) (· = t.storage))

include hreads

theorem reports_loadEntry (fuel : ℕ) (i : Index) :
    Reports (Alike R · t) (Both (Alike R · t) (· = t)) P (loadEntry (S := T) fuel i)
      (loadEntry (S := T') fuel i) := by
  rintro s t' ⟨hs, ht⟩
  obtain rfl : t' = t := ht
  rw [loadEntry, loadEntry]
  refine .get ?_
  rw [hs.n_eq, hs.cache_eq]
  by_cases hi : i = 0 ∨ t'.n < i
  · rw [if_pos hi, if_pos hi]
    exact Reports.lift _ ⟨hs, rfl⟩
  · rw [if_neg hi, if_neg hi]
    rcases t'.cache.entry i with _ | e
    · exact .lift_bind ⟨hs, rfl⟩ _ fun e _ => (reports_onStorage hreads.reader).bind
        (fun _ => reports_onStorage (hreads.reports_loadEntryFrom _ i fuel e)) ⟨hs, rfl⟩
    · exact Reports.pure e ⟨hs, rfl⟩

theorem reports_cacheNow :
    Reports (Alike R · t) (Both (Alike R · t) (· = t)) P (cacheNow (S := T))
      (cacheNow (S := T')) := by
  rintro s t' ⟨hs, ht⟩
  obtain rfl : t' = t := ht
  rw [cacheNow, cacheNow]
  refine .get ?_
  rw [hs.cache_eq]
  exact (reports_onStorage hreads.reader).bind (fun _ => .pure _) ⟨hs, rfl⟩

theorem reports_cacheAt (fuel : ℕ) (revision : Index) :
    Reports (Alike R · t) (Both (Alike R · t) (· = t)) P (cacheAt (S := T) fuel revision)
      (cacheAt (S := T') fuel revision) := by
  refine (reports_loadEntry hreads fuel revision).bind fun e => ?_
  rintro s t' ⟨hs, ht⟩
  obtain rfl : t' = t := ht
  refine .get ?_
  rw [hs.cache_eq]
  exact (reports_onStorage (hreads.reports_load _ e)).bind
    (fun cache => (reports_onStorage hreads.reader).bind fun _ => .pure cache) ⟨hs, rfl⟩

/-- **A query is opened and called**, or a fault is reported. -/
theorem askOn_cases (fuel : ℕ) (call : Call w) {x : Run (Slate T) (Cache w)}
    {y : Run (Slate T') (Cache w)}
    (hxy : Reports (Alike R · t) (Both (Alike R · t) (· = t)) P x y) (h : Alike R s t)
    (hserves : ∀ c, (y t).1 = .ok c → ∃ (H : HashFn w) (v : ℕ → Bytes) (pos : ℕ → Position)
      (L m : ℕ), Serves T' (· = t.storage) H v pos m ∧ Represents H v pos L m c) :
    (∃ e, P e ∧ (askOn fuel call (viewOf x) s).1.Fails e ∧
      Alike R (askOn fuel call (viewOf x) s).2 t) ∨
    ((askOn fuel call (viewOf x) s).1 = (askOn fuel call (viewOf y) t).1 ∧
      Alike R (askOn fuel call (viewOf x) s).2 (askOn fuel call (viewOf y) t).2) := by
  rcases hxy ⟨h, rfl⟩ with ⟨e, he, h1, h2⟩ | ⟨h1, h2, h3⟩
  · refine Or.inl ⟨e, he, ?_⟩
    rw [askOn, viewOf, Prog.bind_error (Prod.ext h1 rfl)]
    exact ⟨Or.inl rfl, h2⟩
  · rcases hy : (y t).1 with e | c
    · refine Or.inr ?_
      have hyt : y t = (.error e, t) := Prod.ext hy h3
      have hxs : x s = (.error e, (x s).2) := Prod.ext (h1.trans hy) rfl
      rw [askOn, askOn, viewOf, viewOf, Prog.bind_error hxs, Prog.bind_error hyt]
      exact ⟨rfl, h2⟩
    · obtain ⟨H, v, pos, L, m, hserves, hc⟩ := hserves c hy
      have hyt : y t = (.ok c, t) := Prod.ext hy h3
      have hxs : x s = (.ok c, (x s).2) := Prod.ext (h1.trans hy) rfl
      rw [askOn, askOn, viewOf, viewOf, Prog.bind_ok hxs, Prog.bind_ok hyt]
      simp only [Prog.pure_run]
      have hquery : Represents H v pos L m ({ cache := c } : Query T).cache := hc
      rcases Query.reports_call (hreads.falters hserves rfl) hserves hquery fuel call
        ⟨h2.storage, rfl⟩ with ⟨e, he, h4, h5⟩ | ⟨h4, h5, h6⟩
      · exact Or.inl ⟨e, he, Or.inr ⟨_, rfl, h4⟩, h2.position_eq, h2.cache_eq, h5⟩
      · refine Or.inr ⟨congrArg (fun a => Response.answered (.ok a)) h4, h2.position_eq,
          h2.cache_eq, ?_⟩
        have h7 := h6
        simp only [Query.onto] at h7
        simp only [h7]
        exact h5

omit hreads in
/-- **A slate is opened**, or a fault is reported. -/
theorem withCacheLevel_cases {st : T.State} {st' : T'.State} {level : ℕ}
    (hreads : ReadsLike P T T' (R · st') (· = st')) (h : R st st') {t : Slate T'}
    (hopen : withCacheLevel st' level = .ok t) :
    (∃ e, P e ∧ withCacheLevel (S := T) st level = .error e) ∨
      ∃ s : Slate T, withCacheLevel st level = .ok s ∧ Alike R s t := by
  rw [withCacheLevel] at hopen
  rcases hmeta : loadMetadata T' level st' with ⟨e | ⟨cache, position⟩, st1'⟩
  · rw [hmeta] at hopen
    exact absurd hopen (by simp)
  · rw [hmeta, Except.ok.injEq] at hopen
    have hreports := hreads.reports_loadMetadata level ⟨h, rfl⟩
    rw [ReportsAt, hmeta] at hreports
    rcases hreports with ⟨e, he, h1, -⟩ | ⟨h1, h2, h3⟩
    · refine Or.inl ⟨e, he, ?_⟩
      rw [withCacheLevel, show loadMetadata T level st = (.error e, _) from Prod.ext h1 rfl]
    · have hs : loadMetadata T level st = (.ok (cache, position), (loadMetadata T level st).2) :=
        Prod.ext h1 rfl
      refine Or.inr ⟨⟨position, (loadMetadata T level st).2, cache⟩, ?_, ?_⟩
      · rw [withCacheLevel, hs]
      · rw [← hopen, show st1' = st' from h3]
        exact ⟨rfl, rfl, h2⟩

end Reading

end Alike

end Slate

/-! ### A host that may fail -/

variable {S : LogStorage (Entry w) Entry.Placed}

/-- **A storage that does what a host does, or reports a fault.** It takes after the host as long as
it looks like it; a `put` that fails leaves it looking like one that keeps the same log. When it is
calm, nothing fails. -/
structure LogStorage.Host.Unsteady (T' : S.Host) (P : Failure Error → Prop) extends
    Storage (Entry w) where
  reopen : State → State
  Like : State → T'.State → Prop
  Calm : State → Prop
  like_reopen : ∀ {st : State} {st' : T'.State}, Like st st' → Like (reopen st) (T'.reopen st')
  reads : ∀ st', ReadsLike P toStorage T'.toStorage (Like · st') (· = st')
  put_reports : ∀ {st : State} {st' : T'.State} {log : List (Entry w)} {x : Entry w}, Like st st' →
    T'.Keeps log st' → S.Room log → Entry.Placed (S.endPos log) x → S.Room (log ++ [x]) →
    ReportsAt (fun st => ∃ st', Like st st' ∧ T'.Keeps log st') Like P (put (S.endPos log) x)
      (T'.put (S.endPos log) x) st st'
  calm_reads : ∀ st', ReadsLike Never toStorage T'.toStorage (fun st => Like st st' ∧ Calm st)
    (· = st')
  calm_truncate : ∀ position, Reports (fun _ => True) (fun st st' => Like st st' ∧ Calm st) Never
    (truncate position) (T'.truncate position)

variable {T' : S.Host} {H : HashFn w} {L n fuel : ℕ} {v : ℕ → Bytes}

namespace LogStorage.Host.Unsteady

variable {U : T'.Unsteady P} {s : Slate U.toStorage} {t : Slate T'.toStorage}

/-- **An append** that fails leaves the slate as it is, and its storage with the same log. -/
theorem append_cases (h : Slate.Alike U.Like s t) (ht : Hosted T' H L v n t)
    (hv : (v (n + 1)).length ≤ MAX_PAYLOAD_SIZE) (hroom : S.Room (history S H v (n + 1))) :
    (∃ e, P e ∧ (Slate.append H (v (n + 1)) s).1 = .error e ∧
      ∃ t', Slate.Alike U.Like (Slate.append H (v (n + 1)) s).2 t' ∧ Hosted T' H L v n t') ∨
    ((Slate.append H (v (n + 1)) s).1 = (Slate.append H (v (n + 1)) t).1 ∧
      Slate.Alike U.Like (Slate.append H (v (n + 1)) s).2 (Slate.append H (v (n + 1)) t).2) := by
  have hplaced := ht.fits.placed (Nat.le_add_left 1 n) (Nat.le_refl (n + 1)) hv
  have hcs : Represents H v (positionOf S H v) L n s.cache := by
    rw [h.cache_eq]
    exact ht.represents
  obtain ⟨c, hc, hs⟩ := append_of_put hcs (h.position_eq.trans ht.position_eq) ht.fits.lt hv
  obtain ⟨c', hc', ht'⟩ := append_of_put ht.represents ht.position_eq ht.fits.lt hv
  obtain rfl : c = c' := hc.unique hc'
  have hput := U.put_reports h.storage ht.keeps ht.fits.room hplaced (by rwa [← history_succ])
  rcases hput with ⟨e, he, h1, st', h2, h3⟩ | ⟨h1, h2⟩
  · rw [hs.of_error (Prod.ext h1 rfl)]
    exact Or.inl ⟨e, he, rfl, { t with storage := st' }, h.withStorage h2, ht.fits,
      ht.position_eq, h3, ht.represents⟩
  · refine Or.inr ?_
    rcases ho : (T'.put (S.endPos (history S H v n)) (entryOf S H v (n + 1)) t.storage).1 with
      e | next
    · rw [hs.of_error (Prod.ext (h1.trans ho) rfl), ht'.of_error (Prod.ext ho rfl)]
      exact ⟨rfl, h.withStorage h2⟩
    · rw [hs.of_ok (Prod.ext (h1.trans ho) rfl), ht'.of_ok (Prod.ext ho rfl)]
      exact ⟨rfl, rfl, rfl, h2⟩

/-- **Cutting** is the same as long as the storage is calm. -/
theorem truncate_eq (h : Slate.Alike U.Like s t) (ht : Hosted T' H L v n t)
    (hcalm : U.Calm s.storage) (fuel : ℕ) (i : Index) :
    (Slate.truncate fuel i s).1 = (Slate.truncate fuel i t).1 ∧
      Slate.Alike U.Like (Slate.truncate fuel i s).2 (Slate.truncate fuel i t).2 := by
  have hcalm' : Slate.Alike (fun st st' => U.Like st st' ∧ U.Calm st) s t :=
    ⟨h.position_eq, h.cache_eq, h.storage, hcalm⟩
  have hreads := U.calm_reads t.storage
  -- the query is opened
  obtain ⟨hopen, hst, -⟩ := (hreads.reader ⟨hcalm'.storage, rfl⟩).outcome
  rw [show T'.reader t.storage = _ from T'.reader_keeps ht.keeps] at hopen
  have hquery : Slate.onStorage s.snapshot.query s =
      (.ok { cache := t.cache }, { s with storage := (U.reader s.storage).2 }) := by
    refine SlateOf.onStorage_run ?_
    rw [Snapshot.query, Prog.bind_ok (Prod.ext hopen rfl), ← h.cache_eq]
    rfl
  have hst' : Slate.Alike (fun st st' => U.Like st st' ∧ U.Calm st)
      { s with storage := (U.reader s.storage).2 } t := ⟨h.position_eq, h.cache_eq, hst⟩
  have hserves := Hosted.serves ht.fits ht.keeps
  have hc : Represents H v (positionOf S H v) L n
    ({ cache := t.cache } : Query U.toStorage).cache := ht.represents
  have hread := Slate.Alike.reports_onStorage (R := fun st st' => U.Like st st' ∧ U.Calm st)
    (t := t) (Query.reports_readEntry (hreads.falters hserves rfl) hserves hc fuel i)
  have key : ReportsAt (fun _ => True) (Slate.Alike fun st st' => U.Like st st' ∧ U.Calm st) Never
      (Slate.truncate fuel i) (Slate.truncate fuel i) s t := by
    rw [ReportsAt, Slate.truncate, Slate.truncate, Prog.bind_ok (Prog.get_run s),
      Prog.bind_ok (Prog.get_run t), Prog.bind_ok hquery,
      Prog.bind_ok (ht.shows.query_eq t.snapshot)]
    refine ReportsAt.bind ((hread ⟨hst', rfl⟩).mono (fun _ _ => trivial)
      fun s1 t1 h1 => h1.2 ▸ h1.1) fun found s1 t1 _ _ h1 => ?_
    cases found with
    | none => exact Reports.pure false h1
    | some e =>
      refine (h1.reportsAt_onStorage (U.calm_truncate _ h1.storage)).bind fun _ s2 t2 _ _ h2 => ?_
      have hmeta := Slate.Alike.reports_onStorage (R := fun st st' => U.Like st st' ∧ U.Calm st)
        (t := t2) ((U.calm_reads t2.storage).reports_loadMetadata s.cache.level)
      rw [← h.cache_eq]
      refine ((hmeta ⟨h2, rfl⟩).mono (fun _ _ => trivial) fun s3 t3 h3 => h3.2 ▸ h3.1).bind ?_
      rintro ⟨cache, position⟩ s3 t3 - - h3
      exact .lift_bind h3 _ fun _ _ => .of_eq rfl rfl ⟨rfl, rfl, h3.storage⟩
  obtain ⟨h1, h2⟩ := key.outcome
  exact ⟨h1, h2.position_eq, h2.cache_eq, h2.storage.1⟩

end LogStorage.Host.Unsteady

/-! ### Slates that weather faults -/

/-- **A slate over a storage that may fail**, and one over the storage that is hosted: over the host
that it takes after, they would be twins. -/
def Weathers (U : T'.Unsteady P) (H : HashFn w) (s : Slate S.toStorage) (t : Slate U.toStorage) :
    Prop := ∃ t', Slate.Alike U.Like t t' ∧ Twins T' H s t'

namespace Weathers

variable {U : T'.Unsteady P} {s : Slate S.toStorage} {t : Slate U.toStorage}

theorem root_eq (h : Weathers U H s t) : s.root = t.root := by
  obtain ⟨t', h1, h2⟩ := h
  exact h2.root_eq.trans h1.root_eq.symm

/-- Appending. -/
theorem append (h : Weathers U H s t) (value : Bytes)
    (hpanic : ∀ p, (Slate.append H value s).1 ≠ .error (.panic p)) :
    (∃ e, P e ∧ (Slate.append H value t).1 = .error e ∧
      Weathers U H s (Slate.append H value t).2) ∨
    ((Slate.append H value t).1 = (Slate.append H value s).1 ∧
      Weathers U H (Slate.append H value s).2 (Slate.append H value t).2) := by
  obtain ⟨t', halike, L, n, v, hs, ht⟩ := h
  by_cases hlarge : MAX_PAYLOAD_SIZE < value.length
  · refine Or.inr ?_
    have ht1 : Slate.append H value t = (.error (.err (.tooLargePayload value.length)), t) := by
      rw [Slate.append, if_pos hlarge]
      rfl
    rw [SlateOf.append_tooLarge hlarge, ht1]
    exact ⟨rfl, t', halike, L, n, v, hs, ht⟩
  · obtain ⟨h1, h2⟩ := Twins.append ⟨L, n, v, hs, ht⟩ value hpanic
    -- the value is the next one of a sequence that is the same up to here
    have hv : ∀ k, 1 ≤ k → k ≤ n → v k = Function.update v (n + 1) value k := fun k _ hk => by
      rw [Function.update_of_ne (by omega)]
    have hvalue : Function.update v (n + 1) value (n + 1) = value := Function.update_self ..
    replace hs := hs.congr hv
    replace ht := ht.congr hv
    revert hvalue hs ht
    generalize Function.update v (n + 1) value = v'
    rintro rfl hs ht
    have hle := Nat.le_of_not_lt hlarge
    have hroom : S.Room (history S H v' (n + 1)) := by
      by_contra hfull
      obtain ⟨p, s', hs1⟩ := T'.append_full hs hle hfull
      exact hpanic p (congrArg Prod.fst hs1)
    rcases U.append_cases halike ht hle hroom with ⟨e, he, h3, t1, h4, h5⟩ | ⟨h3, h4⟩
    · exact Or.inl ⟨e, he, h3, t1, h4, L, n, v', hs, h5⟩
    · exact Or.inr ⟨h3.trans h1.symm, _, h4, h2⟩

/-- Asking the current generation, or an old one. -/
theorem ask {view : Run (Slate S.toStorage) (Query S.toStorage)} (c : Call w)
    {x : Run (Slate U.toStorage) (Cache w)} {y : Run (Slate T'.toStorage) (Cache w)}
    {t' : Slate T'.toStorage}
    (hxy : Reports (Slate.Alike U.Like · t') (Both (Slate.Alike U.Like · t') (· = t')) P x y)
    (h : Slate.Alike U.Like t t') (htwins : Twins T' H s t')
    (hserves : ∀ c, (y t').1 = .ok c → ∃ (H : HashFn w) (v : ℕ → Bytes) (pos : ℕ → Position)
      (L m : ℕ), Serves T'.toStorage (· = t'.storage) H v pos m ∧ Represents H v pos L m c)
    (hask : (Slate.askOn fuel c view s).1 = (Slate.askOn fuel c (Slate.viewOf y) t').1 ∧
      Twins T' H (Slate.askOn fuel c view s).2 (Slate.askOn fuel c (Slate.viewOf y) t').2) :
    (∃ e, P e ∧ (Slate.askOn fuel c (Slate.viewOf x) t).1.Fails e ∧
      Weathers U H s (Slate.askOn fuel c (Slate.viewOf x) t).2) ∨
    ((Slate.askOn fuel c (Slate.viewOf x) t).1 = (Slate.askOn fuel c view s).1 ∧
      Weathers U H (Slate.askOn fuel c view s).2 (Slate.askOn fuel c (Slate.viewOf x) t).2) := by
  rcases Slate.Alike.askOn_cases (U.reads t'.storage) fuel c hxy h hserves with
    ⟨e, he, h1, h2⟩ | ⟨h1, h2⟩
  · exact Or.inl ⟨e, he, h1, t', h2, htwins⟩
  · exact Or.inr ⟨h1.trans hask.1.symm, _, h2, hask.2⟩

/-- **Each command reports a fault, and has changed nothing, or it is answered as on the twin.** -/
theorem execute (hf : INDEX_SIZE < fuel) (command : Command w) (h : Weathers U H s t)
    (hcalm : ∀ i, command = .truncate i → U.Calm t.storage)
    (hpanic : Slate.NoPanic S.reopen H fuel command s) :
    (∃ e, P e ∧ (Slate.execute U.reopen H fuel command t).1.Fails e ∧
      Weathers U H s (Slate.execute U.reopen H fuel command t).2) ∨
    ((Slate.execute U.reopen H fuel command t).1 = (Slate.execute S.reopen H fuel command s).1 ∧
      Weathers U H (Slate.execute S.reopen H fuel command s).2
        (Slate.execute U.reopen H fuel command t).2) := by
  cases command with
  | append value =>
    exact (h.append value fun p hp => hpanic p (congrArg Response.appended hp)).imp_right
      fun ⟨h1, h2⟩ => ⟨congrArg Response.appended h1, h2⟩
  | truncate i =>
    obtain ⟨t', halike, htwins⟩ := h
    obtain ⟨h1, h2⟩ := htwins.truncate hf i
    obtain ⟨L, n, v, -, ht⟩ := htwins
    obtain ⟨h3, h4⟩ := U.truncate_eq halike ht (hcalm i rfl) fuel i
    exact Or.inr ⟨congrArg Response.truncated (h3.trans h1.symm), _, h4, h2⟩
  | reopen level =>
    obtain ⟨t', halike, htwins⟩ := h
    obtain ⟨L, n, v, hs, ht⟩ := htwins
    obtain ⟨s1, hs1, hs2⟩ := hs.reopen level
    obtain ⟨t1, ht1, ht2⟩ := ht.reopen level
    simp only [Slate.execute, hs1]
    rcases Slate.Alike.withCacheLevel_cases (U.reads _) (U.like_reopen halike.storage) ht1 with
      ⟨e, he, hopen⟩ | ⟨t2, hopen, halike2⟩
    · rw [hopen]
      exact Or.inl ⟨e, he, rfl, t', halike, L, n, v, hs, ht⟩
    · rw [hopen]
      exact Or.inr ⟨rfl, t1, halike2, level, n, v, hs2, ht2⟩
  | ask c =>
    obtain ⟨t', halike, htwins⟩ := h
    have hask : (Slate.askOn fuel c Slate.queryNow s).1 =
        (Slate.askOn fuel c Slate.queryNow t').1 ∧ _ := htwins.askNow c
    simp only [Slate.execute]
    rw [Slate.queryNow_eq (S := T'.toStorage)] at hask
    rw [Slate.queryNow_eq (S := U.toStorage)]
    refine ask c (Slate.Alike.reports_cacheNow (U.reads t'.storage)) halike htwins ?_ hask
    intro cache hcache
    obtain ⟨L, n, v, -, ht⟩ := htwins
    rw [Slate.cacheNow, Prog.bind_ok (Prog.get_run t'),
      Prog.bind_ok (SlateOf.onStorage_keep ht.readable.reader), Prog.pure_run,
      Except.ok.injEq] at hcache
    exact ⟨H, v, positionOf S H v, L, n, Hosted.serves ht.fits ht.keeps, hcache ▸ ht.represents⟩
  | askAt revision c =>
    obtain ⟨t', halike, htwins⟩ := h
    have hask := htwins.askAt hf revision c
    simp only [Slate.execute]
    rw [Slate.queryAt_eq (S := T'.toStorage)] at hask
    rw [Slate.queryAt_eq (S := U.toStorage)]
    refine ask c (Slate.Alike.reports_cacheAt (U.reads t'.storage) fuel revision) halike htwins ?_
      hask
    intro cache hcache
    obtain ⟨L, n, v, -, ht⟩ := htwins
    have hquery : Slate.queryAt fuel revision t' =
        (.ok { cache := cache }, (Slate.cacheAt fuel revision t').2) := by
      rw [Slate.queryAt_eq, Slate.viewOf, Prog.bind_ok (Prod.ext hcache rfl)]
      rfl
    by_cases hm : 1 ≤ revision ∧ revision ≤ n
    · obtain ⟨c', hopen, hc'⟩ := ht.shows.queryAt_ok hf hm.1 hm.2
      rw [hopen, Prod.mk.injEq, Except.ok.injEq, Query.mk.injEq] at hquery
      exact ⟨H, v, positionOf S H v, L, revision, (Hosted.serves ht.fits ht.keeps).mono hm.2,
        hquery.1 ▸ hc'⟩
    · rw [ht.shows.queryAt_err hf hm] at hquery
      exact absurd (Prod.mk.inj hquery).1 (by simp)

end Weathers

end StratifiedHashTree
