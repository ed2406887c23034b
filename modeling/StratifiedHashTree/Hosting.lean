import StratifiedHashTree.Backend
import StratifiedHashTree.Serving

/-!
# Storages that host a log

A backend is proved correct as a `StratifiedHashTree.LogStorage`: its state is a function of
the log, and it stays so whatever is called. Not every storage of the crate is like that. A
file keeps its cursor where it is when the content is cut, and it has no largest allocation
to stop at. What a *slate* does over such a storage is the same all the same, because a slate
calls it in one order only: it looks for the last entry after it has cut, before it writes
again.

`StratifiedHashTree.LogStorage.Host` is the part of the contract that a slate relies on. Its
states need not be determined by the log, only *keep* it, and between cutting and looking for
the last entry they need not even do that. Every command to a slate is then answered as over
the storage that is hosted, positions included, as long as that one does not panic
(`StratifiedHashTree.Twins.runAll_eq`).
-/

namespace StratifiedHashTree

open Outcome Formula FormulaTree

variable {w : ℕ}

/-- **A storage that hosts the log of another one**: which of its states keep which log. -/
structure LogStorage.Host {α : Type} {Placed : Position → α → Prop} (S : LogStorage α Placed)
    extends Storage α where
  /-- A new storage over the content of another. -/
  reopen : State → State
  /-- The states that keep a log, and can be written to. -/
  Keeps : List α → State → Prop
  last_reopen : ∀ {log : List α} {st : State}, Keeps log st → S.Room log → S.Laid log →
    ∃ st', last (reopen st) = (.ok (log.getLast?, S.endPos log), st') ∧ Keeps log st'
  put_room : ∀ {log : List α} {st : State} {x : α}, Keeps log st → S.Room log →
    Placed (S.endPos log) x → S.Room (log ++ [x]) →
    ∃ st', put (S.endPos log) x st = (.ok (S.endPos (log ++ [x])), st') ∧ Keeps (log ++ [x]) st'
  truncate_last : ∀ {log : List α} {st : State} {k : ℕ}, Keeps log st → S.Room log →
    S.Laid log → k < log.length →
    ∃ st' st'', truncate (S.endPos (log.take k)) st = (.ok true, st') ∧
      last st' = (.ok ((log.take k).getLast?, S.endPos (log.take k)), st'') ∧
      Keeps (log.take k) st''
  reader_keeps : ∀ {log : List α} {st : State}, Keeps log st → reader st = (.ok (), st)
  read_keeps : ∀ {log : List α} {st : State} {k : ℕ} (h : k < log.length), Keeps log st →
    S.Room log → S.Laid log → read (S.endPos (log.take k)) st = (.ok log[k], st)
  scan_keeps : ∀ {log : List α} {st : State} {k : ℕ} (count : ℕ) {κ : Type}
    (callback : ScanFn α κ) (a : κ), k < log.length → k + count ≤ log.length → Keeps log st →
    S.Room log → S.Laid log →
    scan (S.endPos (log.take k)) count callback (a, st) =
      ((scanList callback ((log.drop k).take count) a).1,
        ((scanList callback ((log.drop k).take count) a).2, st))
  /-- The log that is hosted stops with a panic when it is full; the host need not. -/
  full_panics : S.PanicsWhenFull

variable {H : HashFn w} {L n : ℕ} {v : ℕ → Bytes}

/-! ### Slates that show their payloads -/

/-- **A slate that shows the first `n` payloads**: its cache is that of the generation, and its
storage serves the entries and stays as it is. -/
structure Slate.Shows {T : Storage (Entry w)} (H : HashFn w) (L : ℕ) (v : ℕ → Bytes)
    (pos : ℕ → Position) (n : ℕ) (t : Slate T) : Prop where
  lt : n < 2 ^ 64
  represents : Represents H v pos L n t.cache
  reader : T.reader t.storage = (.ok (), t.storage)
  serves : Serves T (· = t.storage) H v pos n

namespace Slate.Shows

variable {T : Storage (Entry w)} {t : Slate T} {pos : ℕ → Position} {fuel : ℕ}

theorem readable (h : Shows H L v pos n t) : Readable T t.storage H v pos n where
  reader := h.reader
  read k h1 h2 := by
    obtain ⟨st, hread, rfl⟩ := h.serves.read rfl k h1 h2
    exact hread

theorem n_eq (h : Shows H L v pos n t) : t.n = n := h.represents.revision_eq

theorem query_eq (h : Shows H L v pos n t) (snapshot : Snapshot T) :
    Slate.onStorage snapshot.query t = (.ok { cache := snapshot.cache }, t) := by
  refine SlateOf.onStorage_keep ?_
  rw [Snapshot.query, Prog.bind_ok h.reader]
  rfl

/-- **`loadEntry` returns the entry**, or the error that the index is not there. -/
theorem loadEntry_eq (h : Shows H L v pos n t) (hf : INDEX_SIZE < fuel) (i : ℕ) :
    Slate.loadEntry fuel i t =
      (if 1 ≤ i ∧ i ≤ n then .ok (entryAt H v pos i)
        else .error (.err (.invalidArgument
          s!"Entry {i} is not contained in the current revision {n}")), t) := by
  rw [Slate.loadEntry, Prog.bind_ok (Prog.get_run t), h.n_eq]
  by_cases hi : 1 ≤ i ∧ i ≤ n
  · have hn : 1 ≤ n := hi.1.trans hi.2
    have hhi := Tree.hi_upTo hn
    have hread := readEntryFrom_eq (q := { cache := t.cache }) h.represents h.lt h.readable
      (i := i) fuel (Tree.leftPerfect_upTo hn) hhi.le (height_upTo_lt hn h.lt hf)
      (by rw [Tree.lo_upTo hn]; exact hi.1) (by rw [hhi]; exact hi.2)
    rw [hhi] at hread
    rw [if_neg (show ¬(i = 0 ∨ n < i) by omega), if_pos hi]
    cases he : t.cache.entry i with
    | some e =>
      rw [h.represents.of_entry he]
      rfl
    | none =>
      simp only [(h.represents.loaded hn).entry_self, unwrap_some, Prog.liftM_eq,
        Prog.lift_ok_bind]
      rw [Prog.bind_ok (SlateOf.onStorage_keep h.reader),
        SlateOf.onStorage_keep (loadEntryFrom_of_readEntryFrom fuel hread)]
  · rw [if_pos (show i = 0 ∨ n < i by omega), if_neg hi]
    rfl

/-- **Going back to an old generation** gives its cache, and leaves the slate alone. -/
theorem snapshotAt_ok (h : Shows H L v pos n t) (hf : INDEX_SIZE < fuel) {m : ℕ} (h1 : 1 ≤ m)
    (h2 : m ≤ n) :
    ∃ c, Slate.snapshotAt fuel m t = (.ok { cache := c }, t) ∧ Loaded H v pos L m c := by
  obtain ⟨c, hc, hl⟩ := load_loaded (L := L) (h.readable.mono h2) h1 (h2.trans_lt h.lt)
  refine ⟨c, ?_, hl⟩
  have he := h.loadEntry_eq hf m
  rw [if_pos ⟨h1, h2⟩] at he
  rw [Slate.snapshotAt, Prog.bind_ok he, Prog.bind_ok (Prog.get_run t), h.represents.level_eq,
    Prog.bind_ok (SlateOf.onStorage_keep hc)]
  rfl

/-- **Cutting at an index of the slate** looks its entry up, and cuts the storage there. -/
theorem truncate_eq (h : Shows H L v pos n t) (hf : INDEX_SIZE < fuel) {i : ℕ} (h1 : 1 ≤ i)
    (h2 : i ≤ n) : Slate.truncate fuel i t =
      (Slate.onStorage (T.truncate (pos i)) >>= fun _ =>
        Slate.onStorage (Slate.loadMetadata T L) >>= fun loaded => do
          (debugAssert (pos i = loaded.2) : Result Unit)
          Prog.modify fun s => { s with position := loaded.2, cache := loaded.1 }
          return true : Run (Slate T) Bool) t := by
  have hread := readEntry_eq (q := { cache := t.snapshot.cache }) h.represents h.lt h.readable hf i
  rw [if_pos ⟨h1, h2⟩] at hread
  rw [Slate.truncate, Prog.bind_ok (Prog.get_run t), Prog.bind_ok (h.query_eq t.snapshot),
    Prog.bind_ok (SlateOf.onStorage_keep hread), h.represents.level_eq]
  rfl

/-- Cutting anywhere else changes nothing. -/
theorem truncate_no (h : Shows H L v pos n t) (hf : INDEX_SIZE < fuel) {i : ℕ}
    (hi : i = 0 ∨ n < i) : Slate.truncate fuel i t = (.ok false, t) := by
  have hread := readEntry_eq (q := { cache := t.snapshot.cache }) h.represents h.lt h.readable hf i
  rw [if_neg (by omega)] at hread
  rw [Slate.truncate, Prog.bind_ok (Prog.get_run t), Prog.bind_ok (h.query_eq t.snapshot),
    Prog.bind_ok (SlateOf.onStorage_keep hread)]
  rfl

end Slate.Shows

/-- **The slate of the first `n` payloads**, over a storage that hosts their log. -/
structure Hosted {S : LogStorage (Entry w) Entry.Placed} (T : S.Host) (H : HashFn w) (L : ℕ)
    (v : ℕ → Bytes) (n : ℕ) (t : Slate T.toStorage) : Prop where
  fits : Fits S H v n
  position_eq : t.position = positionOf S H v (n + 1)
  keeps : T.Keeps (history S H v n) t.storage
  represents : Represents H v (positionOf S H v) L n t.cache

variable {S : LogStorage (Entry w) Entry.Placed} {T : S.Host}

/-- **An append is a `put`**: when it returns, the slate has moved on, and when it fails nothing but
the storage has changed. -/
structure AppendOf {T : Storage (Entry w)} (x : Run (Slate T) (MetaInfo w)) (t : Slate T)
    (position : Position) (e : Entry w) (info : MetaInfo w) (c : Cache w) : Prop where
  of_ok : ∀ {next : Position} {st : T.State}, T.put position e t.storage = (.ok next, st) →
    x t = (.ok info, ⟨next, st, c⟩)
  of_error : ∀ {f : Failure Error} {st : T.State}, T.put position e t.storage = (.error f, st) →
    x t = (.error f, { t with storage := st })

/-- Whatever the storage is, an append puts the next entry. -/
theorem append_of_put {T : Storage (Entry w)} {t : Slate T} {pos : ℕ → Position}
    (hc : Represents H v pos L n t.cache) (hpos : t.position = pos (n + 1)) (hb : n + 1 < 2 ^ 64)
    (hv : (v (n + 1)).length ≤ MAX_PAYLOAD_SIZE) :
    ∃ c, Represents H v pos L (n + 1) c ∧ AppendOf (Slate.append H (v (n + 1))) t (pos (n + 1))
      (entryAt H v pos (n + 1)) (nodeInfo H v pos (Tree.upTo (n + 1))) c := by
  have hn : 1 ≤ n + 1 := Nat.le_add_left 1 n
  have hbuild := buildEntry_eq hc hpos hb
  obtain ⟨c, hm, hl⟩ := migrate_loaded hc
  have hstep : Slate.append H (v (n + 1)) t =
      (Slate.onStorage (T.put (pos (n + 1)) (entryAt H v pos (n + 1))) >>= fun position =>
        Prog.modify (fun s => { s with position := position }) >>= fun _ =>
        Prog.modify (fun s => { s with cache := c }) >>= fun _ =>
        (pure (nodeInfo H v pos (Tree.upTo (n + 1))) : Run _ _)) t := by
    rw [Slate.append, if_neg (Nat.not_lt.mpr hv), Prog.bind_ok (Prog.get_run t)]
    simp only [Prog.liftM_eq, hbuild, Prog.lift_ok_bind, entryAt_index, rootOfNodes_entryAt hn,
      hpos, hm]
    rw [nodeInfo, nodeAddress, Tree.hi_upTo hn]
  refine ⟨c, hl, ⟨fun {next st} hput => ?_, fun {f st} hput => ?_⟩⟩
  · rw [hstep, Prog.bind_ok (SlateOf.onStorage_run hput)]
    rfl
  · rw [hstep, Prog.bind_error (SlateOf.onStorage_run hput)]

/-- The cache and the position, from a storage whose last entry is the last one of a log. -/
theorem loadMetadata_of_readable {T : Storage (Entry w)} (hfits : Fits S H v n) {st st' : T.State}
    (hlast : T.last st = (.ok ((history S H v n).getLast?, S.endPos (history S H v n)), st'))
    (hread : Readable T st' H v (positionOf S H v) n) :
    ∃ c, Slate.loadMetadata T L st = (.ok (c, S.endPos (history S H v n)), st') ∧
      Represents H v (positionOf S H v) L n c := by
  rw [Slate.loadMetadata, Prog.bind_ok hlast]
  cases n with
  | zero => exact ⟨_, rfl, rfl⟩
  | succ n =>
    obtain ⟨c, hc, hl⟩ := load_loaded (L := L) hread (Nat.le_add_left 1 n)
      (Nat.lt_of_succ_lt hfits.lt)
    refine ⟨c, ?_, hl⟩
    simp only [getLast?_history]
    rw [Prog.bind_ok hc]
    rfl

namespace Hosted

/-! ### Reading -/

variable {t : Slate T.toStorage}

theorem congr {v' : ℕ → Bytes} (h : Hosted T H L v n t) (heq : ∀ k, 1 ≤ k → k ≤ n → v k = v' k) :
    Hosted T H L v' n t where
  fits := h.fits.congr heq
  position_eq := by rw [h.position_eq, positionOf_congr heq (Nat.le_refl _)]
  keeps := by
    rw [← history_congr heq]
    exact h.keeps
  represents := h.represents.congr heq fun _ _ hk => positionOf_congr heq (hk.trans (Nat.le_succ n))

theorem lt (h : Hosted T H L v n t) : n < 2 ^ 64 := Nat.lt_of_succ_lt h.fits.lt

/-- The entries of a log that is kept can be read. -/
theorem readable_of_keeps {st : T.State} (hfits : Fits S H v n)
    (hkeeps : T.Keeps (history S H v n) st) :
    Readable T.toStorage st H v (positionOf S H v) n where
  reader := T.reader_keeps hkeeps
  read k h1 h2 := by
    have hk : k - 1 < (history S H v n).length := by
      rw [length_history]
      omega
    have hread := T.read_keeps hk hkeeps hfits.room hfits.laid
    rwa [take_history S H v (by omega), history_getElem, Nat.sub_add_cancel h1] at hread

theorem readable (h : Hosted T H L v n t) :
    Readable T.toStorage t.storage H v (positionOf S H v) n := readable_of_keeps h.fits h.keeps

/-- **A storage serves the log it keeps.** -/
theorem serves {st : T.State} (hfits : Fits S H v n) (hkeeps : T.Keeps (history S H v n) st) :
    Serves T.toStorage (· = st) H v (positionOf S H v) n where
  read := by
    rintro _ rfl k h1 h2
    exact ⟨_, (readable_of_keeps hfits hkeeps).read k h1 h2, rfl⟩
  scan := by
    rintro _ rfl k count h1 h2 h3 κ callback a
    refine ⟨_, ?_, rfl⟩
    have hk : k - 1 < (history S H v n).length := by
      rw [length_history]
      omega
    have hscan := T.scan_keeps count callback a hk (by rw [length_history]; omega) hkeeps
      hfits.room hfits.laid
    rwa [take_history S H v (by omega), take_drop_history h1 h3] at hscan

theorem shows (h : Hosted T H L v n t) : Slate.Shows H L v (positionOf S H v) n t where
  lt := h.lt
  represents := h.represents
  reader := h.readable.reader
  serves := serves h.fits h.keeps

theorem n_eq (h : Hosted T H L v n t) : t.n = n := h.represents.revision_eq

/-! ### Opening -/

/-- The cache and the position, from a storage whose last entry is the last one of a log. -/
theorem loadMetadata_eq (hfits : Fits S H v n) {st st' : T.State}
    (hlast : T.last st = (.ok ((history S H v n).getLast?, S.endPos (history S H v n)), st'))
    (hkeeps : T.Keeps (history S H v n) st') :
    ∃ c, Slate.loadMetadata T.toStorage L st = (.ok (c, S.endPos (history S H v n)), st') ∧
      Represents H v (positionOf S H v) L n c :=
  loadMetadata_of_readable hfits hlast (readable_of_keeps hfits hkeeps)

/-- Opening a slate on such a storage. -/
theorem withCacheLevel_hosted (hfits : Fits S H v n) {st st' : T.State}
    (hlast : T.last st = (.ok ((history S H v n).getLast?, S.endPos (history S H v n)), st'))
    (hkeeps : T.Keeps (history S H v n) st') :
    ∃ t : Slate T.toStorage, Slate.withCacheLevel st L = .ok t ∧ t.storage = st' ∧
      Hosted T H L v n t := by
  obtain ⟨c, h1, h2⟩ := loadMetadata_eq (L := L) hfits hlast hkeeps
  refine ⟨⟨S.endPos (history S H v n), st', c⟩, ?_, rfl, hfits, rfl, hkeeps, h2⟩
  rw [Slate.withCacheLevel, h1]

/-- **Reopening**, at any cache level. -/
theorem reopen (h : Hosted T H L v n t) (L' : ℕ) :
    ∃ t' : Slate T.toStorage, Slate.withCacheLevel (T.reopen t.storage) L' = .ok t' ∧
      Hosted T H L' v n t' := by
  obtain ⟨st, h1, h2⟩ := T.last_reopen h.keeps h.fits.room h.fits.laid
  obtain ⟨t', h3, -, h4⟩ := withCacheLevel_hosted h.fits h1 h2
  exact ⟨t', h3, h4⟩

/-! ### Appending and cutting -/

/-- **Appending** leads to the slate with one payload more. -/
theorem append_ok (h : Hosted T H L v n t) (hv : (v (n + 1)).length ≤ MAX_PAYLOAD_SIZE)
    (hroom : S.Room (history S H v (n + 1))) :
    ∃ t', Slate.append H (v (n + 1)) t =
        (.ok (nodeInfo H v (positionOf S H v) (Tree.upTo (n + 1))), t') ∧
      Hosted T H L v (n + 1) t' := by
  have hn : 1 ≤ n + 1 := Nat.le_add_left 1 n
  have hfits : Fits S H v (n + 1) := by
    refine ⟨hroom, fun k h1 h2 => ?_⟩
    rcases h2.eq_or_lt with rfl | h3
    · exact hv
    · exact h.fits.payload_le k h1 (Nat.lt_succ_iff.mp h3)
  obtain ⟨c, hc, happend⟩ := append_of_put h.represents h.position_eq h.fits.lt hv
  obtain ⟨st, hput, hkeeps⟩ := T.put_room (x := entryOf S H v (n + 1)) h.keeps h.fits.room
    (h.fits.placed hn (Nat.le_refl (n + 1)) hv) (by rwa [← history_succ])
  rw [← history_succ] at hput hkeeps
  exact ⟨_, happend.of_ok hput, hfits, rfl, hkeeps, hc⟩

/-- **Cutting at an index of the slate** leads to the slate of the payloads before it. -/
theorem truncate_ok (h : Hosted T H L v n t) {fuel : ℕ} (hf : INDEX_SIZE < fuel) {i : ℕ}
    (h1 : 1 ≤ i) (h2 : i ≤ n) :
    ∃ t', Slate.truncate fuel i t = (.ok true, t') ∧ Hosted T H L v (i - 1) t' := by
  have hi : i - 1 < (history S H v n).length := by
    rw [length_history]
    omega
  have hfits : Fits S H v (i - 1) := h.fits.mono (by omega)
  obtain ⟨st, st', htrunc, hlast, hkeeps⟩ :=
    T.truncate_last h.keeps h.fits.room h.fits.laid hi
  rw [take_history S H v (by omega)] at htrunc hlast hkeeps
  obtain ⟨c, hload, hrep⟩ := loadMetadata_eq (L := L) hfits hlast hkeeps
  refine ⟨⟨positionOf S H v i, st', c⟩, ?_, hfits, by rw [Nat.sub_add_cancel h1], hkeeps, hrep⟩
  have hcut : Slate.onStorage (T.truncate (positionOf S H v i)) t =
      (.ok true, { t with storage := st }) := SlateOf.onStorage_run htrunc
  have hmeta : Slate.onStorage (Slate.loadMetadata T.toStorage L) { t with storage := st } =
      (.ok (c, positionOf S H v i), { t with storage := st' }) :=
    SlateOf.onStorage_run (s := { t with storage := st }) hload
  -- the last entry is looked for before anything is written again
  rw [h.shows.truncate_eq hf h1 h2, Prog.bind_ok hcut, Prog.bind_ok hmeta, Prog.liftM_eq,
    debugAssert_of (show positionOf S H v i = (c, positionOf S H v i).2 from rfl),
    Prog.lift_ok_bind, Prog.bind_ok (Prog.modify_run _ _)]
  rfl

end Hosted

/-! ### Commands -/

/-- **A command** to a slate: a write, a new start on the content at some cache level, or a
call of a query that is opened for it, on the current generation or on an old one. -/
inductive Command (w : ℕ) : Type 1 where
  | append (value : Bytes)
  | truncate (i : Index)
  | reopen (level : ℕ)
  | ask (c : Call w)
  | askAt (revision : Index) (c : Call w)

/-- What a command returns. -/
inductive Response (w : ℕ) : Type 1 where
  | appended (result : Result (MetaInfo w))
  | truncated (result : Result Bool)
  | reopened (result : Result Unit)
  | answered (result : Result (Answer w))

/-- **What can be seen** of a command: what it returns, and the root of the slate and its
content afterwards. -/
structure Sight (w : ℕ) (β : Type) : Type 1 where
  response : Response w
  root : Option (MetaInfo w)
  content : β

namespace Slate

section Execution

variable {S : Storage (Entry w)} {β : Type}

/-- A query on the current generation. -/
def queryNow : Run (Slate S) (Query S) := do
  let self ← Prog.get
  onStorage self.snapshot.query

/-- A query on an old generation. -/
def queryAt (fuel : ℕ) (revision : Index) : Run (Slate S) (Query S) := do
  let snapshot ← snapshotAt fuel revision
  onStorage snapshot.query

theorem queryAt_error {fuel : ℕ} {revision : Index} {s s' : Slate S} {e : Failure Error}
    (h : loadEntry fuel revision s = (.error e, s')) :
    queryAt fuel revision s = (.error e, s') := by
  have hsnapshot : snapshotAt fuel revision s = (.error e, s') := by
    rw [snapshotAt, Prog.bind_error h]
  rw [queryAt, Prog.bind_error hsnapshot]

/-- Opens a query, and makes a call. -/
def askOn (fuel : ℕ) (c : Call w) (view : Run (Slate S) (Query S)) (s : Slate S) :
    Response w × Slate S :=
  match view s with
  | (.ok query, s') =>
    let result := query.call fuel c s'.storage
    (.answered (.ok result.1), { s' with storage := result.2 })
  | (.error e, s') => (.answered (.error e), s')

/-- **Executes a command.** A slate that cannot be opened again stays as it is. -/
def execute (reopen : S.State → S.State) (H : HashFn w) (fuel : ℕ) :
    Command w → Slate S → Response w × Slate S
  | .append value, s => (.appended (append H value s).1, (append H value s).2)
  | .truncate i, s => (.truncated (truncate fuel i s).1, (truncate fuel i s).2)
  | .reopen level, s =>
    match withCacheLevel (reopen s.storage) level with
    | .ok s' => (.reopened (.ok ()), s')
    | .error e => (.reopened (.error e), s)
  | .ask c, s => askOn fuel c queryNow s
  | .askAt revision c, s => askOn fuel c (queryAt fuel revision) s

/-- Executes a command, and looks at the slate afterwards. -/
def watch (look : S.State → β) (reopen : S.State → S.State) (H : HashFn w) (fuel : ℕ)
    (command : Command w) (s : Slate S) : Sight w β × Slate S :=
  let result := execute reopen H fuel command s
  (⟨result.1, result.2.root, look result.2.storage⟩, result.2)

/-- A command does not end in a panic. -/
def NoPanic (reopen : S.State → S.State) (H : HashFn w) (fuel : ℕ) (command : Command w)
    (s : Slate S) : Prop :=
  ∀ p, (execute reopen H fuel command s).1 ≠ .appended (.error (.panic p))

end Execution

end Slate

/-! ### Asking a slate -/

namespace Slate.Shows

variable {T T' : Storage (Entry w)} {s : Slate T} {t : Slate T'} {pos : ℕ → Position} {fuel m : ℕ}

theorem queryNow_eq (h : Shows H L v pos n t) :
    Slate.queryNow t = (.ok { cache := t.cache }, t) := by
  rw [Slate.queryNow, Prog.bind_ok (Prog.get_run t)]
  exact h.query_eq t.snapshot

theorem queryAt_ok (h : Shows H L v pos n t) (hf : INDEX_SIZE < fuel) (h1 : 1 ≤ m) (h2 : m ≤ n) :
    ∃ c, Slate.queryAt fuel m t = (.ok { cache := c }, t) ∧ Represents H v pos L m c := by
  obtain ⟨c, hs, hc⟩ := h.snapshotAt_ok hf h1 h2
  refine ⟨c, ?_, hc.represents h1⟩
  rw [Slate.queryAt, Prog.bind_ok hs]
  exact h.query_eq _

theorem queryAt_err (h : Shows H L v pos n t) (hf : INDEX_SIZE < fuel) (hm : ¬(1 ≤ m ∧ m ≤ n)) :
    Slate.queryAt fuel m t = (.error (.err (.invalidArgument
      s!"Entry {m} is not contained in the current revision {n}")), t) := by
  have hload := h.loadEntry_eq hf m
  rw [if_neg hm] at hload
  exact Slate.queryAt_error hload

/-- **Slates that show the same payloads** answer the calls of a query of one generation alike, and
are left alone. -/
theorem askOn_eq (hs : Shows H L v pos n s) (ht : Shows H L v pos n t) (hm : m ≤ n) {c : Cache w}
    (hc : Represents H v pos L m c) (call : Call w) {view : Run (Slate T) (Query T)}
    {view' : Run (Slate T') (Query T')} (hview : view s = (.ok { cache := c }, s))
    (hview' : view' t = (.ok { cache := c }, t)) :
    (Slate.askOn fuel call view s).1 = (Slate.askOn fuel call view' t).1 ∧
      (Slate.askOn fuel call view s).2 = s ∧ (Slate.askOn fuel call view' t).2 = t := by
  have hquery : Represents H v pos L m ({ cache := c } : Query T).cache := hc
  obtain ⟨h1, h2, h3⟩ := Query.agree_call (hs.serves.mono hm) (ht.serves.mono hm) hquery fuel call
    (s := s.storage) (t := t.storage) ⟨rfl, rfl⟩
  have h1' : (({ cache := c } : Query T).call fuel call s.storage).1 =
    (({ cache := c } : Query T').call fuel call t.storage).1 := h1
  have h3' : (({ cache := c } : Query T').call fuel call t.storage).2 = t.storage := h3
  rw [Slate.askOn, Slate.askOn, hview, hview']
  simp only [h1', h2, h3']
  exact ⟨trivial, trivial, trivial⟩

/-- Asking the current generation. -/
theorem askNow_eq (hs : Shows H L v pos n s) (ht : Shows H L v pos n t) (fuel : ℕ)
    (call : Call w) :
    (Slate.askOn fuel call Slate.queryNow s).1 = (Slate.askOn fuel call Slate.queryNow t).1 ∧
      (Slate.askOn fuel call Slate.queryNow s).2 = s ∧
      (Slate.askOn fuel call Slate.queryNow t).2 = t := by
  refine askOn_eq hs ht (Nat.le_refl n) hs.represents call hs.queryNow_eq ?_
  rw [hs.represents.unique ht.represents]
  exact ht.queryNow_eq

/-- Asking an old generation, or one that is not there. -/
theorem askAt_eq (hs : Shows H L v pos n s) (ht : Shows H L v pos n t) (hf : INDEX_SIZE < fuel)
    (m : ℕ) (call : Call w) :
    (Slate.askOn fuel call (Slate.queryAt fuel m) s).1 =
        (Slate.askOn fuel call (Slate.queryAt fuel m) t).1 ∧
      (Slate.askOn fuel call (Slate.queryAt fuel m) s).2 = s ∧
      (Slate.askOn fuel call (Slate.queryAt fuel m) t).2 = t := by
  by_cases hm : 1 ≤ m ∧ m ≤ n
  · obtain ⟨c, hs1, hc⟩ := hs.queryAt_ok hf hm.1 hm.2
    obtain ⟨c', ht1, hc'⟩ := ht.queryAt_ok hf hm.1 hm.2
    obtain rfl : c = c' := hc.unique hc'
    exact askOn_eq hs ht hm.2 hc call hs1 ht1
  · rw [Slate.askOn, Slate.askOn, hs.queryAt_err hf hm, ht.queryAt_err hf hm]
    exact ⟨rfl, rfl, rfl⟩

end Slate.Shows

theorem SlateOf.shows {s : Slate S.toStorage} (h : SlateOf S H L v n s) :
    s.Shows H L v (positionOf S H v) n where
  lt := h.lt
  represents := h.represents
  reader := h.readable.reader
  serves := by
    rw [h.storage_eq]
    exact h.fits.serves

/-- **A command to a slate that can be reached**, and that has room for another payload: it does not
panic, and leads to such a slate with one payload more at most. -/
theorem Reaches.execute_of_room {B : Backend w} {vs : List Bytes} {s : SlateOn B} {fuel : ℕ}
    (hf : INDEX_SIZE < fuel) (h : Reaches B H L vs s)
    (hroom : ∀ value : Bytes, value.length ≤ MAX_PAYLOAD_SIZE → B.Holds H (vs ++ [value]))
    (command : Command w) : Slate.NoPanic B.log.reopen H fuel command s ∧
      ∃ L' vs', Reaches B H L' vs' (Slate.execute B.log.reopen H fuel command s).2 ∧
        vs'.length ≤ vs.length + 1 := by
  have hs := h.slateOf
  cases command with
  | append value =>
    by_cases hlarge : MAX_PAYLOAD_SIZE < value.length
    · have ha : Slate.append H value s = _ := SlateOf.append_tooLarge hlarge
      simp only [Slate.NoPanic, Slate.execute, ha]
      exact ⟨fun p => by simp, L, vs, h, Nat.le_succ _⟩
    · have hfits : B.Holds H (vs ++ [value]) := hroom value (Nat.le_of_not_lt hlarge)
      rw [Backend.Holds, List.length_append, List.length_singleton] at hfits
      have hs' := hs.congr fun k h1 h2 => payload_append_left [value] h1 h2
      have hvalue : payload (vs ++ [value]) (vs.length + 1) = value := payload_concat vs value
      obtain ⟨s', ha, -⟩ := hs'.append_ok (by rw [hvalue]; exact Nat.le_of_not_lt hlarge)
        hfits.room
      rw [hvalue] at ha
      simp only [Slate.NoPanic, Slate.execute, ha]
      exact ⟨fun p => by simp, L, vs ++ [value], h.append ha, by simp⟩
  | truncate i =>
    refine ⟨fun p => by simp [Slate.execute], ?_⟩
    by_cases hi : i = 0 ∨ vs.length < i
    · simp only [Slate.execute, hs.truncate_no hf hi]
      exact ⟨L, vs, h, Nat.le_succ _⟩
    · rw [not_or, Nat.not_lt] at hi
      obtain ⟨s', ht, -⟩ := hs.truncate_ok hf (Nat.pos_of_ne_zero hi.1) hi.2
      simp only [Slate.execute, ht]
      exact ⟨L, vs.take (i - 1), h.truncate hf ht,
        (List.length_take_le' _ _).trans (Nat.le_succ _)⟩
  | reopen level =>
    obtain ⟨s', hr, -⟩ := hs.reopen level
    simp only [Slate.NoPanic, Slate.execute, hr]
    exact ⟨fun p => by simp, level, vs, h.reopen hr, Nat.le_succ _⟩
  | ask c =>
    refine ⟨fun p => by simp only [Slate.execute, Slate.askOn, hs.shows.queryNow_eq]; simp, L, vs,
      ?_, Nat.le_succ _⟩
    rw [Slate.execute, (hs.shows.askNow_eq hs.shows fuel c).2.1]
    exact h
  | askAt revision c =>
    refine ⟨fun p => ?_, L, vs, ?_, Nat.le_succ _⟩
    · by_cases hm : 1 ≤ revision ∧ revision ≤ vs.length
      · obtain ⟨cache, hq, -⟩ := hs.shows.queryAt_ok hf hm.1 hm.2
        simp only [Slate.execute, Slate.askOn, hq]
        simp
      · simp only [Slate.execute, Slate.askOn, hs.shows.queryAt_err hf hm]
        simp
    · rw [Slate.execute, (hs.shows.askAt_eq hs.shows hf revision c).2.1]
      exact h

/-- A slate that holds less than a billion payloads has room for another one. -/
theorem Reaches.execute {B : Backend w} {vs : List Bytes} {s : SlateOn B} {fuel : ℕ}
    (hf : INDEX_SIZE < fuel) (h : Reaches B H L vs s) (hlen : vs.length + 1 < 2 ^ 30)
    (command : Command w) : Slate.NoPanic B.log.reopen H fuel command s ∧
      ∃ L' vs', Reaches B H L' vs' (Slate.execute B.log.reopen H fuel command s).2 ∧
        vs'.length ≤ vs.length + 1 :=
  h.execute_of_room hf (fun _ hvalue => holds_of_length_lt B (by simpa using hlen)
    (forall_mem_concat (Backend.Holds.length_le h.slateOf.fits) hvalue)) command

/-- **A billion commands never panic.** -/
theorem always_noPanic {B : Backend w} {β : Type} (look : B.log.State → β) {fuel : ℕ}
    (hf : INDEX_SIZE < fuel) : ∀ (commands : List (Command w)) {L : ℕ} {vs : List Bytes}
    {s : SlateOn B}, Reaches B H L vs s → vs.length + commands.length < 2 ^ 30 →
    Always (Slate.watch look B.log.reopen H fuel) (Slate.NoPanic B.log.reopen H fuel) commands s
  | [], _, _, _, _, _ => trivial
  | command :: commands, _, vs, _, h, hlen => by
    rw [List.length_cons] at hlen
    obtain ⟨h1, L', vs', h2, h3⟩ := h.execute hf (by omega) command
    exact ⟨h1, always_noPanic look hf commands h2 (by omega)⟩

/-! ### A slate and its twin -/

/-- A slate over the log that is hosted panics when the log is full. -/
theorem LogStorage.Host.append_full {S : LogStorage (Entry w) Entry.Placed} (T : S.Host)
    {s : Slate S.toStorage} (h : SlateOf S H L v n s)
    (hv : (v (n + 1)).length ≤ MAX_PAYLOAD_SIZE) (hroom : ¬S.Room (history S H v (n + 1))) :
    ∃ p s', Slate.append H (v (n + 1)) s = (.error (.panic p), s') := by
  have hplaced := h.fits.placed (Nat.le_add_left 1 n) (Nat.le_refl (n + 1)) hv
  obtain ⟨p, st, hput⟩ := T.full_panics (x := entryOf S H v (n + 1)) h.fits.room hplaced
    (by rwa [← history_succ])
  rw [← h.storage_eq] at hput
  exact ⟨p, _, SlateOf.append_error h.represents h.position_eq h.fits.lt hv hput⟩

/-- **Slates that hold the same payloads at the same cache level**, one over a storage and one
over a host of it. -/
def Twins (T : S.Host) (H : HashFn w) (s : Slate S.toStorage) (t : Slate T.toStorage) : Prop :=
  ∃ L n v, SlateOf S H L v n s ∧ Hosted T H L v n t

namespace Twins

variable {s : Slate S.toStorage} {t : Slate T.toStorage} {fuel : ℕ}

theorem root_eq (h : Twins T H s t) : s.root = t.root := by
  obtain ⟨L, n, v, hs, ht⟩ := h
  rw [Slate.root, Slate.root, hs.represents.unique ht.represents]

/-- Appending. -/
theorem append (h : Twins T H s t) (value : Bytes)
    (hpanic : ∀ p, (Slate.append H value s).1 ≠ .error (.panic p)) :
    (Slate.append H value s).1 = (Slate.append H value t).1 ∧
      Twins T H (Slate.append H value s).2 (Slate.append H value t).2 := by
  obtain ⟨L, n, v, hs, ht⟩ := h
  -- the value is the next one of a sequence that is the same up to here
  have hv : ∀ k, 1 ≤ k → k ≤ n → v k = Function.update v (n + 1) value k := fun k _ hk => by
    rw [Function.update_of_ne (by omega)]
  have hvalue : Function.update v (n + 1) value (n + 1) = value := Function.update_self ..
  replace hs := hs.congr hv
  replace ht := ht.congr hv
  revert hvalue hs ht
  generalize Function.update v (n + 1) value = v'
  rintro rfl hs ht
  by_cases hlarge : MAX_PAYLOAD_SIZE < (v' (n + 1)).length
  · have ht1 : Slate.append H (v' (n + 1)) t =
        (.error (.err (.tooLargePayload (v' (n + 1)).length)), t) := by
      rw [Slate.append, if_pos hlarge]
      rfl
    rw [SlateOf.append_tooLarge hlarge, ht1]
    exact ⟨rfl, L, n, v', hs, ht⟩
  · have hle := Nat.le_of_not_lt hlarge
    by_cases hroom : S.Room (history S H v' (n + 1))
    · obtain ⟨s', hs1, hs2⟩ := hs.append_ok hle hroom
      obtain ⟨t', ht1, ht2⟩ := ht.append_ok hle hroom
      rw [hs1, ht1]
      exact ⟨rfl, L, n + 1, v', hs2, ht2⟩
    · obtain ⟨p, s', hs1⟩ := T.append_full hs hle hroom
      exact absurd (congrArg Prod.fst hs1) (hpanic p)

/-- Cutting. -/
theorem truncate (h : Twins T H s t) (hf : INDEX_SIZE < fuel) (i : ℕ) :
    (Slate.truncate fuel i s).1 = (Slate.truncate fuel i t).1 ∧
      Twins T H (Slate.truncate fuel i s).2 (Slate.truncate fuel i t).2 := by
  obtain ⟨L, n, v, hs, ht⟩ := h
  by_cases hi : 1 ≤ i ∧ i ≤ n
  · obtain ⟨s', hs1, hs2⟩ := hs.truncate_ok hf hi.1 hi.2
    obtain ⟨t', ht1, ht2⟩ := ht.truncate_ok hf hi.1 hi.2
    rw [hs1, ht1]
    exact ⟨rfl, L, i - 1, v, hs2, ht2⟩
  · rw [hs.truncate_no hf (by omega), ht.shows.truncate_no hf (by omega)]
    exact ⟨rfl, L, n, v, hs, ht⟩

/-- Asking the current generation. -/
theorem askNow (h : Twins T H s t) (c : Call w) :
    (Slate.askOn fuel c Slate.queryNow s).1 = (Slate.askOn fuel c Slate.queryNow t).1 ∧
      Twins T H (Slate.askOn fuel c Slate.queryNow s).2
        (Slate.askOn fuel c Slate.queryNow t).2 := by
  obtain ⟨L, n, v, hs, ht⟩ := h
  obtain ⟨h1, h2, h3⟩ := hs.shows.askNow_eq ht.shows fuel c
  rw [h2, h3]
  exact ⟨h1, L, n, v, hs, ht⟩

/-- Asking an old generation. -/
theorem askAt (h : Twins T H s t) (hf : INDEX_SIZE < fuel) (m : ℕ) (c : Call w) :
    (Slate.askOn fuel c (Slate.queryAt fuel m) s).1 =
        (Slate.askOn fuel c (Slate.queryAt fuel m) t).1 ∧
      Twins T H (Slate.askOn fuel c (Slate.queryAt fuel m) s).2
        (Slate.askOn fuel c (Slate.queryAt fuel m) t).2 := by
  obtain ⟨L, n, v, hs, ht⟩ := h
  obtain ⟨h1, h2, h3⟩ := hs.shows.askAt_eq ht.shows hf m c
  rw [h2, h3]
  exact ⟨h1, L, n, v, hs, ht⟩

/-- **Each command is answered alike.** -/
theorem execute (hf : INDEX_SIZE < fuel) (command : Command w) (h : Twins T H s t)
    (hpanic : Slate.NoPanic S.reopen H fuel command s) :
    (Slate.execute S.reopen H fuel command s).1 = (Slate.execute T.reopen H fuel command t).1 ∧
      Twins T H (Slate.execute S.reopen H fuel command s).2
        (Slate.execute T.reopen H fuel command t).2 := by
  cases command with
  | append value =>
    obtain ⟨h1, h2⟩ := h.append value fun p hp => hpanic p (congrArg Response.appended hp)
    exact ⟨congrArg Response.appended h1, h2⟩
  | truncate i =>
    obtain ⟨h1, h2⟩ := h.truncate hf i
    exact ⟨congrArg Response.truncated h1, h2⟩
  | reopen level =>
    obtain ⟨L, n, v, hs, ht⟩ := h
    obtain ⟨s', hs1, hs2⟩ := hs.reopen level
    obtain ⟨t', ht1, ht2⟩ := ht.reopen level
    simp only [Slate.execute, hs1, ht1]
    exact ⟨trivial, level, n, v, hs2, ht2⟩
  | ask c => exact h.askNow c
  | askAt revision c => exact h.askAt hf revision c

/-- **A slate over a host is answered for as one over the storage it hosts**, command by
command, whatever can be seen of the two contents. -/
theorem runAll_eq {β : Type} {look : S.State → β} {look' : T.State → β}
    (hlook : ∀ {log : List (Entry w)} {st : T.State}, T.Keeps log st →
      look (S.render log) = look' st)
    (hf : INDEX_SIZE < fuel) (h : Twins T H s t) (commands : List (Command w))
    (hpanic : Always (Slate.watch look S.reopen H fuel) (Slate.NoPanic S.reopen H fuel) commands
      s) :
    (runAll (Slate.watch look S.reopen H fuel) commands s).1 =
      (runAll (Slate.watch look' T.reopen H fuel) commands t).1 := by
  refine (StratifiedHashTree.runAll_eq (R := fun t s => Twins T H s t) (fun command t s h hg => ?_)
    commands t s h hpanic).1.symm
  obtain ⟨h1, h2⟩ := h.execute hf command hg
  refine ⟨?_, h2⟩
  have hroot := h2.root_eq
  obtain ⟨L, n, v, hs, ht⟩ := h2
  simp only [Slate.watch, h1, hroot, hs.storage_eq, hlook ht.keeps]

end Twins

/-- **Slates on storages without content are twins.** -/
theorem twins_fresh (T : S.Host) (H : HashFn w) (L : ℕ) {st st' : T.State}
    (hlast : T.last st = (.ok (none, S.endPos []), st')) (hkeeps : T.Keeps [] st') :
    ∃ (s : Slate S.toStorage) (t : Slate T.toStorage), Slate.withCacheLevel S.fresh L = .ok s ∧
      Slate.withCacheLevel st L = .ok t ∧ t.storage = st' ∧ Twins T H s t := by
  have hfits : Fits S H (payload []) 0 := ⟨S.room_nil, fun k h1 h2 => absurd h1 (by omega)⟩
  obtain ⟨s, hs, hs'⟩ := withCacheLevel_fresh (S := S) (H := H) (L := L) (payload [])
  obtain ⟨t, ht, hst, ht'⟩ := Hosted.withCacheLevel_hosted (L := L) hfits hlast hkeeps
  exact ⟨s, t, hs, ht, hst, L, 0, payload [], hs', ht'⟩

end StratifiedHashTree
