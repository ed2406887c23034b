import StratifiedHashTree.Simulation
import StratifiedHashTree.Snapshots

/-!
# Queries over storages that serve the same entries

A query of a generation `m` follows links from the entries it has cached, and these lead to
entries up to `m` and nowhere else. So it asks a storage for nothing but these entries, and
all that matters about the storage is that it gives them, however it does so and whatever
becomes of its state meanwhile (`StratifiedHashTree.Serves`).

Every call of a query then ends the same way over any two such storages
(`StratifiedHashTree.Query.agree_call`). And over one that serves the entries or reports a
fault (`StratifiedHashTree.Falters`), it ends that way or with the fault
(`StratifiedHashTree.Query.reports_call`). The proofs follow the text of the calls; no step
bound plays a part in them, nor does what a callback does.
-/

namespace StratifiedHashTree

open Formula
open Outcome (debugAssert index)
open Prog (Beside Never Reports ReportsAt)

variable {w : ℕ}

/-- So many entries from an index on. -/
def entriesFrom (H : HashFn w) (v : ℕ → Bytes) (pos : ℕ → Position) (k count : ℕ) :
    List (Entry w) :=
  (List.range' k count).map (entryAt H v pos)

/-- **A storage that serves the first `m` entries**, in all of some states: a read at the
position of one of them gives it, a scan from there passes on as many of them as it is asked
to, and the state is one of these again. -/
structure Serves (S : Storage (Entry w)) (I : S.State → Prop) (H : HashFn w) (v : ℕ → Bytes)
    (pos : ℕ → Position) (m : ℕ) : Prop where
  read : ∀ {st : S.State}, I st → ∀ k, 1 ≤ k → k ≤ m →
    ∃ st', S.read (pos k) st = (.ok (entryAt H v pos k), st') ∧ I st'
  scan : ∀ {st : S.State}, I st → ∀ k count, 1 ≤ k → 1 ≤ count → k + count ≤ m + 1 →
    ∀ {κ : Type} (callback : ScanFn (Entry w) κ) (a : κ), ∃ st',
      S.scan (pos k) count callback (a, st) =
        ((scanList callback (entriesFrom H v pos k count) a).1,
          ((scanList callback (entriesFrom H v pos k count) a).2, st')) ∧ I st'

variable {S T : Storage (Entry w)} {I : S.State → Prop} {J : T.State → Prop} {H : HashFn w}
  {v : ℕ → Bytes} {pos : ℕ → Position} {L m : ℕ} {c : Cache w}

theorem Serves.mono {k : ℕ} (h : Serves S I H v pos m) (hk : k ≤ m) : Serves S I H v pos k where
  read hst i h1 h2 := h.read hst i h1 (h2.trans hk)
  scan hst i count h1 h2 h3 := h.scan hst i count h1 h2 (h3.trans (Nat.succ_le_succ hk))

/-- Following a left branch, cached or not. -/
theorem Serves.fetchLeft (h : Serves S I H v pos m) (hc : Represents H v pos L m c) {st : S.State}
    (hst : I st) {t : Tree} (h1 : 1 ≤ t.hi) (h2 : t.hi ≤ m) :
    ∃ st', fetchLeft S c (nodeAddress pos t) st = (.ok (entryAt H v pos t.hi), st') ∧ I st' := by
  rw [StratifiedHashTree.fetchLeft]
  cases he : c.entry (nodeAddress pos t).i with
  | none =>
    obtain ⟨st', hread, hst'⟩ := h.read hst t.hi h1 h2
    have hcheck : readEntryWithIndexCheck S (pos t.hi) t.hi st =
        (.ok (entryAt H v pos t.hi), st') := by
      rw [readEntryWithIndexCheck, Prog.bind_ok hread,
        if_neg (show ¬(entryAt H v pos t.hi).index ≠ t.hi from fun hne => hne rfl)]
      rfl
    exact ⟨st', hcheck, hst'⟩
  | some e =>
    rw [hc.of_entry he]
    exact ⟨st, rfl, hst⟩

/-- Only the payloads and positions up to the last entry matter. -/
theorem Serves.congr {v' : ℕ → Bytes} {pos' : ℕ → Position} (h : Serves S I H v pos m)
    (hv : ∀ k, 1 ≤ k → k ≤ m → v k = v' k) (hpos : ∀ k, 1 ≤ k → k ≤ m → pos k = pos' k) :
    Serves S I H v' pos' m := by
  have hentry : ∀ k, 1 ≤ k → k ≤ m → entryAt H v pos k = entryAt H v' pos' k := fun k h1 h2 =>
    entryAt_congr H v pos h1 (fun i h3 h4 => hv i h3 (h4.trans h2))
      fun i h3 h4 => hpos i h3 (h4.trans h2)
  refine ⟨fun {st} hst k h1 h2 => ?_, fun {st} hst k count h1 h2 h3 {κ} callback a => ?_⟩
  · rw [← hpos k h1 h2, ← hentry k h1 h2]
    exact h.read hst k h1 h2
  · have hlist : entriesFrom H v pos k count = entriesFrom H v' pos' k count := by
      refine List.map_congr_left fun i hi => ?_
      rw [List.mem_range'_1] at hi
      exact hentry i (h1.trans hi.1) (by omega)
    rw [← hpos k h1 (by omega), ← hlist]
    exact h.scan hst k count h1 h2 h3 callback a

/-- **A storage that serves the first `m` entries, or reports a fault**, in all of some states; and
it stays in these, whatever it does. -/
structure Falters (P : Failure Error → Prop) (S : Storage (Entry w)) (I : S.State → Prop)
    (H : HashFn w) (v : ℕ → Bytes) (pos : ℕ → Position) (m : ℕ) : Prop where
  read : ∀ {st : S.State}, I st → ∀ k, 1 ≤ k → k ≤ m →
    (∃ e st', P e ∧ S.read (pos k) st = (.error e, st') ∧ I st') ∨
    ∃ st', S.read (pos k) st = (.ok (entryAt H v pos k), st') ∧ I st'
  scan : ∀ {st : S.State}, I st → ∀ k count, 1 ≤ k → 1 ≤ count → k + count ≤ m + 1 →
    ∀ {κ : Type} (callback : ScanFn (Entry w) κ) (a : κ),
    (∃ e a' st', P e ∧ S.scan (pos k) count callback (a, st) = (.error e, (a', st')) ∧ I st') ∨
    ∃ st', S.scan (pos k) count callback (a, st) =
        ((scanList callback (entriesFrom H v pos k count) a).1,
          ((scanList callback (entriesFrom H v pos k count) a).2, st')) ∧ I st'

theorem Falters.mono {P : Failure Error → Prop} {k : ℕ} (h : Falters P S I H v pos m) (hk : k ≤ m) :
    Falters P S I H v pos k where
  read hst i h1 h2 := h.read hst i h1 (h2.trans hk)
  scan hst i count h1 h2 h3 := h.scan hst i count h1 h2 (h3.trans (Nat.succ_le_succ hk))

/-- A storage without faults. -/
theorem Serves.falters (P : Failure Error → Prop) (h : Serves S I H v pos m) :
    Falters P S I H v pos m where
  read hst k h1 h2 := Or.inr (h.read hst k h1 h2)
  scan hst k count h1 h2 h3 _ callback a := Or.inr (h.scan hst k count h1 h2 h3 callback a)

section Log

variable {S : LogStorage (Entry w) Entry.Placed} {n : ℕ}

/-- The entries of a log from an index on. -/
theorem take_drop_history {k count : ℕ} (h1 : 1 ≤ k) (h2 : k + count ≤ n + 1) :
    ((history S H v n).drop (k - 1)).take count = entriesFrom H v (positionOf S H v) k count := by
  rw [entriesFrom]
  refine List.ext_getElem ?_ fun i hi hi' => ?_
  · rw [List.length_take, List.length_drop, length_history, List.length_map, List.length_range']
    omega
  · rw [List.getElem_take, List.getElem_drop, history_getElem, List.getElem_map,
      List.getElem_range']
    exact congrArg (entryOf S H v) (by omega)

/-- **A storage serves the log it represents.** -/
theorem Fits.serves (h : Fits S H v n) : Serves S.toStorage (· = S.render (history S H v n)) H v
    (positionOf S H v) n where
  read := by
    rintro _ rfl k h1 h2
    exact ⟨_, h.read h1 h2, rfl⟩
  scan := by
    rintro _ rfl k count h1 h2 h3 κ callback a
    refine ⟨_, ?_, rfl⟩
    have hscan := S.scan_render (k := k - 1) count callback a
      (by rw [length_history]; omega) h.room h.laid
    rw [take_history S H v (by omega), take_drop_history h1 h3] at hscan
    exact hscan

end Log

/-- What is found at an index is in the sequence. -/
theorem mem_of_index {α : Type} {xs : List α} {k : ℕ} {x : α}
    (h : (index xs k : Result α) = .ok x) :
    x ∈ xs := by
  rw [index] at h
  rcases hget : xs[k]? with _ | y
  · rw [hget] at h
    exact absurd h (by simp [Outcome.panic])
  · rw [hget, Except.ok.injEq] at h
    exact h ▸ List.mem_of_getElem? hget

/-- The node that a search stops at is one of the nodes. -/
theorem mem_of_findLeft {i : Index} {inode : INode w} : ∀ {inodes : List (INode w)},
    findLeft i inodes = .ok (some inode) → inode ∈ inodes
  | [], h => absurd h (by simp [findLeft])
  | x :: xs, h => by
    rw [findLeft, Outcome.bind_eq_ok] at h
    obtain ⟨inside, -, h⟩ := h
    cases inside with
    | true =>
      rw [if_pos rfl, Outcome.pure_eq_ok, Except.ok.injEq, Option.some.injEq] at h
      exact h ▸ List.mem_cons_self
    | false =>
      rw [if_neg Bool.false_ne_true] at h
      exact List.mem_cons_of_mem _ (mem_of_findLeft h)

/-! ### The calls of a query -/

namespace Query

/-- States of two storages, each among the ones it serves from. -/
def Served (I : S.State → Prop) (J : T.State → Prop) (s : S.State) (t : T.State) : Prop := I s ∧ J t

/-- The cache of a query, as a query over another storage. -/
def onto (T : Storage (Entry w)) (self : Query S) : Query T := { cache := self.cache }

theorem revision_onto (self : Query S) : (self.onto T).revision = self.revision := rfl

section Reports

variable {self : Query S} {P : Failure Error → Prop}

/-- The entry that a search starts from. -/
theorem eq_entryAt_of_revision {e : Entry w} (hc : Represents H v pos L m self.cache)
    (h : self.cache.entry self.revision = some e) : 1 ≤ m ∧ e = entryAt H v pos m := by
  have hrevision : self.revision = m := hc.revision_eq
  rw [hrevision] at h
  refine ⟨Nat.pos_of_ne_zero fun h0 => ?_, hc.of_entry h⟩
  subst h0
  have hempty : self.cache = Cache.empty L := hc
  rw [hempty, Cache.entry, Cache.empty, Finmap.lookup_empty] at h
  exact absurd h.symm (Option.some_ne_none e)

theorem of_onSnd {κ α : Type} {x : Run S.State α} {a b : κ} {s s' : S.State} {o : Result α}
    (h : (Prog.onSnd x : Run (κ × S.State) α) (a, s) = (o, (b, s'))) : x s = (o, s') := by
  rw [Prog.onSnd, Prod.mk.injEq, Prod.mk.injEq] at h
  exact Prod.ext h.1 h.2.2

/-- Going to the left gives the entry behind the branch, if it returns. -/
theorem fst_descend {i : Index} {current : INode w} {s s' : S.State} {e e' : Entry w} {k : ℕ}
    {s1 : S.State} (hfetch : fetchLeft S self.cache current.left s = (.ok e, s1))
    (h : self.descend i current s = (.ok (e', k), s')) : e' = e := by
  rw [descend, Prog.bind_ok hfetch, Prog.liftM_eq, Prog.bind_eq_ok] at h
  obtain ⟨_, s2, -, h⟩ := h
  rw [Prog.liftM_eq, Prog.bind_eq_ok] at h
  obtain ⟨_, s3, -, h⟩ := h
  by_cases hj : current.left.j = 0
  · rw [if_pos hj, Prog.pure_run, Prod.mk.injEq, Except.ok.injEq, Prod.mk.injEq] at h
    exact h.1.1.symm
  · rw [if_neg hj] at h
    rcases hidx : e.inodes.findIdx? fun inode => inode.metaInfo.address.j = current.left.j with
      _ | k'
    · rw [hidx] at h
      exact absurd (Prod.mk.inj h).1 (by simp [Outcome.panic])
    · rw [hidx] at h
      simp only [Prog.pure_run, Prod.mk.injEq, Except.ok.injEq] at h
      exact h.1.1.symm

section Served

variable (hT : Serves T J H v pos m) (hc : Represents H v pos L m self.cache)

include hT hc

/-- What the search finds is the entry of the index. -/
theorem of_readEntryFrom {i : Index} : ∀ (fuel k : ℕ) {t t' : T.State} {e : Entry w}, J t → 1 ≤ k →
    k ≤ m → (self.onto T).readEntryFrom i fuel (entryAt H v pos k) t = (.ok (some e), t') →
    e = entryAt H v pos i ∧ i ≤ m
  | 0, _, _, _, _, _, _, _, h => absurd (Prod.mk.inj h).1 (by simp)
  | fuel + 1, k, t, t', e, hst, h1, h2, h => by
    rw [readEntryFrom] at h
    by_cases hi : (entryAt H v pos k).index = i
    · rw [if_pos hi, Prog.pure_run, Prod.mk.injEq, Except.ok.injEq, Option.some.injEq] at h
      obtain rfl : k = i := hi
      exact ⟨h.1.symm, h2⟩
    · rw [if_neg hi, Prog.bind_eq_ok] at h
      obtain ⟨found, t1, hfound, h⟩ := h
      obtain ⟨hleft, rfl⟩ := Prod.mk.inj hfound
      cases found with
      | none => exact absurd (Prod.mk.inj h).1 (by simp)
      | some inode =>
        obtain ⟨p, hp, rfl⟩ := mem_entryAt_inodes (mem_of_findLeft hleft)
        obtain ⟨-, h3, h4⟩ := left_range h1 hp
        obtain ⟨t2, ht, hJ⟩ := hT.fetchLeft hc hst h3 (h4.le.trans h2)
        simp only [spineINode_left, onto] at h
        rw [Prog.bind_ok ht] at h
        exact of_readEntryFrom fuel p.1.hi hJ h3 (h4.le.trans h2) h

theorem of_readEntry {i : Index} {fuel : ℕ} {t t' : T.State} {e : Entry w} (hst : J t)
    (h : (self.onto T).readEntry fuel i t = (.ok (some e), t')) :
    e = entryAt H v pos i ∧ i ≤ m := by
  rw [readEntry, revision_onto, onto] at h
  rcases he : self.cache.entry self.revision with _ | x
  · rw [he] at h
    exact absurd (Prod.mk.inj h).1 (by simp)
  · obtain ⟨hm, rfl⟩ := eq_entryAt_of_revision hc he
    rw [he] at h
    exact of_readEntryFrom hT hc fuel m hst hm (Nat.le_refl m) h

end Served

variable (hS : Falters P S I H v pos m) (hT : Serves T J H v pos m)
  (hc : Represents H v pos L m self.cache)

include hS hT hc

omit hc in
/-- Fetching an entry. -/
theorem reports_fetchLeft {s : S.State} {t : T.State} (hst : Served I J s t) {l : Tree}
    (h1 : 1 ≤ l.hi) (h2 : l.hi ≤ m) :
    ReportsAt I (Served I J) P (fetchLeft S self.cache (nodeAddress pos l))
      (fetchLeft T self.cache (nodeAddress pos l)) s t := by
  rw [StratifiedHashTree.fetchLeft, StratifiedHashTree.fetchLeft]
  cases self.cache.entry (nodeAddress pos l).i with
  | some e => exact Reports.pure e hst
  | none =>
    obtain ⟨t', ht, hJ⟩ := hT.read hst.2 l.hi h1 h2
    have hread : ReportsAt I (Served I J) P (S.read (pos l.hi)) (T.read (pos l.hi)) s t := by
      rcases hS.read hst.1 l.hi h1 h2 with ⟨e, s', he, hs, hI⟩ | ⟨s', hs, hI⟩
      · exact .of_fault hs he hI
      · exact .of_eq hs ht ⟨hI, hJ⟩
    refine hread.bind fun e s1 t1 _ _ hst1 => ?_
    by_cases hi : e.index ≠ l.hi
    · rw [nodeAddress_i, if_pos hi, if_pos hi]
      exact Reports.lift _ hst1
    · rw [nodeAddress_i, if_neg hi, if_neg hi]
      exact Reports.pure e hst1

omit hc in
theorem reports_descend {i : ℕ} (h1 : 1 ≤ i) (h2 : i ≤ m) {p : Tree × Tree}
    (hp : p ∈ (Tree.upTo i).spine) : Reports I (Served I J) P
      (self.descend i (spineINode H v pos p)) ((self.onto T).descend i (spineINode H v pos p)) := by
  obtain ⟨-, h3, h4⟩ := left_range h1 hp
  rintro s t hst
  rw [descend, descend, spineINode_left]
  refine (reports_fetchLeft hS hT hst h3 (h4.le.trans h2)).bind fun left s1 t1 _ _ hst1 => ?_
  refine .lift_bind hst1 _ fun _ _ => .lift_bind hst1 _ fun _ _ => ?_
  by_cases hj : (nodeAddress pos p.1).j = 0
  · rw [if_pos hj, if_pos hj]
    exact Reports.pure _ hst1
  · rw [if_neg hj, if_neg hj]
    cases left.inodes.findIdx? fun inode => inode.metaInfo.address.j = (nodeAddress pos p.1).j with
    | none => exact Reports.lift _ hst1
    | some k => exact Reports.pure _ hst1

/-- **The walk**, from any node of an entry. -/
theorem reports_walkDownFrom {κ : Type} (callback : WalkFn w κ) : ∀ (fuel k i : ℕ), 1 ≤ i → i ≤ m →
    Reports (fun s => I s.2) (Beside κ (Served I J)) P
      (self.walkDownFrom callback fuel k (entryAt H v pos i))
      ((self.onto T).walkDownFrom callback fuel k (entryAt H v pos i))
  | 0, k, i, _, _ => .stop _
  | fuel + 1, 0, i, _, _ => by
    rw [walkDownFrom, walkDownFrom]
    exact (Reports.onFst _).bind fun _ => .pure ()
  | fuel + 1, k + 1, i, h1, h2 => by
    have hright := reports_walkDownFrom callback fuel k i h1 h2
    rw [walkDownFrom, walkDownFrom]
    rintro s t hst
    refine .lift_bind hst _ fun current hcurrent => ?_
    -- a left branch of the entry leads to an earlier one
    obtain ⟨p, hp, rfl⟩ : ∃ p ∈ (Tree.upTo i).spine, spineINode H v pos p = current := by
      have hindex : (index (entryAt H v pos i).inodes k : Result (INode w)) = .ok current :=
        hcurrent
      exact mem_entryAt_inodes (mem_of_index hindex)
    obtain ⟨-, h3, h4⟩ := left_range h1 hp
    have hleft : Reports (fun s => I s.2) (Beside κ (Served I J)) P
        (Prog.onSnd (self.descend i (spineINode H v pos p)) >>= fun left =>
          self.walkDownFrom callback fuel left.2 left.1)
        (Prog.onSnd ((self.onto T).descend i (spineINode H v pos p)) >>= fun left =>
          (self.onto T).walkDownFrom callback fuel left.2 left.1) := by
      rintro ⟨a, s⟩ ⟨b, t⟩ ⟨hab, hst⟩
      obtain rfl : a = b := hab
      refine (ReportsAt.onSnd a (reports_descend hS hT h1 h2 hp hst)).bind ?_
      rintro ⟨left, k'⟩ s1 t1 - hdescend hst1
      obtain ⟨t', hfetch, -⟩ := hT.fetchLeft hc hst.2 h3 (h4.le.trans h2)
      have hleft : (self.onto T).descend i (spineINode H v pos p) t = (.ok (left, k'), t1.2) :=
        of_onSnd hdescend
      obtain rfl : left = entryAt H v pos p.1.hi := fst_descend hfetch hleft
      exact reports_walkDownFrom callback fuel k' p.1.hi h3 (h4.le.trans h2) hst1
    refine ((Reports.onFst _).bind fun dir => ?_) hst
    cases dir with
    | terminate => exact .pure ()
    | right => exact hright
    | left => exact hleft
    | both => exact hright.bind fun _ => hleft

theorem reports_walkDown {κ : Type} (fuel : ℕ) (callback : WalkFn w κ) :
    Reports (fun s => I s.2) (Beside κ (Served I J)) P (self.walkDown fuel callback)
      ((self.onto T).walkDown fuel callback) := by
  rw [walkDown, walkDown, onto]
  cases Nat.eq_zero_or_pos m with
  | inl h0 =>
    subst h0
    have hempty : self.cache = Cache.empty L := hc
    rw [hempty]
    exact .pure ()
  | inr hm =>
    rw [(hc.loaded hm).lastEntry_eq]
    exact reports_walkDownFrom hS hT hc callback fuel _ m hm (Nat.le_refl m)

/-- A walk with a local variable. -/
theorem reports_collect {κ : Type} (fuel : ℕ) (callback : WalkFn w κ) (init : κ) :
    Reports I (Served I J) P (self.collect fuel callback init)
      ((self.onto T).collect fuel callback init) := by
  rintro s t hst
  have h := reports_walkDown hS hT hc fuel callback (s := (init, s)) (t := (init, t)) ⟨rfl, hst⟩
  rw [ReportsAt, collect, collect]
  rcases hs : self.walkDown fuel callback (init, s) with ⟨o, a, s'⟩
  rcases ht : (self.onto T).walkDown fuel callback (init, t) with ⟨o', b, t'⟩
  rw [ReportsAt, hs, ht] at h
  rcases h with ⟨e, he, h1, h2⟩ | ⟨h1, h2, h3⟩
  · obtain rfl : o = .error e := h1
    exact Or.inl ⟨e, he, rfl, h2⟩
  · obtain rfl : o = o' := h1
    obtain rfl : a = b := h2
    cases o with
    | error e => exact Or.inr ⟨rfl, h3⟩
    | ok u => exact Or.inr ⟨rfl, h3⟩

theorem reports_get (fuel : ℕ) (i : Index) :
    Reports I (Served I J) P (self.get fuel i) ((self.onto T).get fuel i) := by
  rw [get, get, revision_onto]
  by_cases hi : i = 0 ∨ self.revision < i
  · rw [if_pos hi, if_pos hi]
    exact .pure none
  · rw [if_neg hi, if_neg hi]
    exact (reports_collect hS hT hc fuel _ _).bind fun result => .lift result

theorem reports_getSample (fuel : ℕ) (i : Index) :
    Reports I (Served I J) P (self.getSample fuel i) ((self.onto T).getSample fuel i) := by
  rw [getSample, getSample]
  exact (reports_collect hS hT hc fuel _ _).bind fun x => .pure _

/-- The search over entries. -/
theorem reports_readEntryFrom (i : Index) : ∀ (fuel k : ℕ), 1 ≤ k → k ≤ m →
    Reports I (Served I J) P (self.readEntryFrom i fuel (entryAt H v pos k))
      ((self.onto T).readEntryFrom i fuel (entryAt H v pos k))
  | 0, k, _, _ => .stop _
  | fuel + 1, k, h1, h2 => by
    rw [readEntryFrom, readEntryFrom]
    by_cases hi : (entryAt H v pos k).index = i
    · rw [if_pos hi, if_pos hi]
      exact .pure _
    · rw [if_neg hi, if_neg hi]
      rintro s t hst
      refine .lift_bind hst _ fun found hfound => ?_
      cases found with
      | none => exact Reports.pure _ hst
      | some inode =>
        have hleft : findLeft i (entryAt H v pos k).inodes = .ok (some inode) := hfound
        obtain ⟨p, hp, rfl⟩ := mem_entryAt_inodes (mem_of_findLeft hleft)
        obtain ⟨-, h3, h4⟩ := left_range h1 hp
        obtain ⟨t', ht, -⟩ := hT.fetchLeft hc hst.2 h3 (h4.le.trans h2)
        simp only [spineINode_left]
        refine (reports_fetchLeft hS hT hst h3 (h4.le.trans h2)).bind
          fun left s1 t1 _ ht1 hst1 => ?_
        obtain rfl : entryAt H v pos p.1.hi = left :=
          Except.ok.inj (Prod.mk.inj (ht.symm.trans ht1)).1
        exact reports_readEntryFrom i fuel p.1.hi h3 (h4.le.trans h2) hst1

theorem reports_readEntry (fuel : ℕ) (i : Index) :
    Reports I (Served I J) P (self.readEntry fuel i) ((self.onto T).readEntry fuel i) := by
  rw [readEntry, readEntry, revision_onto, onto]
  rcases he : self.cache.entry self.revision with _ | e
  · exact .pure none
  · obtain ⟨hm, rfl⟩ := eq_entryAt_of_revision hc he
    exact reports_readEntryFrom hS hT hc i fuel m hm (Nat.le_refl m)

/-- **The scan**: it starts at the entry it has looked up, and stops at the generation of the query
at the latest. -/
theorem reports_scan {κ : Type} (fuel i0 i1 : ℕ) (callback : ScanFn (Entry w) κ) :
    Reports (fun s => I s.2) (Beside κ (Served I J)) P (self.scan fuel i0 i1 callback)
      ((self.onto T).scan fuel i0 i1 callback) := by
  rw [scan, scan, revision_onto]
  have hrevision : self.revision = m := hc.revision_eq
  rw [hrevision]
  have hy : min (max i0 i1) m ≤ m := Nat.min_le_right _ _
  have hx : 1 ≤ max (min i0 i1) 1 := Nat.le_max_right _ _
  revert hx hy
  generalize max (min i0 i1) 1 = x
  generalize min (max i0 i1) m = y
  intro hy hx
  by_cases hlt : y < x
  · rw [if_pos hlt, if_pos hlt]
    exact .pure 0
  · rw [if_neg hlt, if_neg hlt]
    rintro ⟨a, s⟩ ⟨b, t⟩ ⟨hab, hst⟩
    obtain rfl : a = b := hab
    refine .lift_bind ⟨rfl, hst⟩ _ fun _ _ => ?_
    refine (ReportsAt.onSnd a (reports_readEntry hS hT hc fuel x hst)).bind ?_
    rintro (_ | e) ⟨a1, s1⟩ ⟨b1, t1⟩ - hread ⟨hab1, hst1⟩
    · exact Reports.pure 0 ⟨hab1, hst1⟩
    · obtain rfl : a1 = b1 := hab1
      obtain ⟨rfl, -⟩ := of_readEntry hT hc hst.2 (of_onSnd hread)
      refine .lift_bind ⟨rfl, hst1⟩ _ fun d hd => .lift_bind ⟨rfl, hst1⟩ _ fun count hcount => ?_
      -- as many entries as there are up to the end of the range
      obtain rfl : d = y - x := by
        have h1 : (subBits y x : Result ℕ) = .ok d := hd
        rw [subBits_of_le (by omega), Except.ok.injEq] at h1
        exact h1.symm
      obtain rfl : count = y - x + 1 := by
        have h1 : (addBits 64 (y - x) 1 : Result ℕ) = .ok count := hcount
        rw [addBits] at h1
        by_cases h64 : y - x + 1 < 2 ^ 64
        · rw [if_pos h64, Except.ok.injEq] at h1
          exact h1.symm
        · rw [if_neg h64] at h1
          exact absurd h1 (by simp [Outcome.panic])
      obtain ⟨t2, ht, hJ⟩ := hT.scan hst1.2 x (y - x + 1) hx (by omega) (by omega) callback a1
      rw [entryAt_position]
      rcases hS.scan hst1.1 x (y - x + 1) hx (by omega) (by omega) callback a1 with
        ⟨e, a2, s2, he, hs, hI⟩ | ⟨s2, hs, hI⟩
      · exact .of_fault hs he hI
      · exact .of_eq hs ht ⟨rfl, hI, hJ⟩

end Reports

end Query

/-! ### Opening a query -/

/-- **A query is opened** on a slate, of the current generation or of an old one; and what is
the slate afterwards. -/
inductive Opens (s : Slate S) : Index → Query S → Slate S → Prop
  | current {q : Query S} {st : S.State} :
      s.snapshot.query s.storage = (.ok q, st) → Opens s s.n q { s with storage := st }
  | historical {fuel : ℕ} {m : Index} {snapshot : Snapshot S} {s1 : Slate S} {q : Query S}
      {st : S.State} :
      INDEX_SIZE < fuel → Slate.snapshotAt fuel m s = (.ok snapshot, s1) →
      snapshot.query s1.storage = (.ok q, st) → Opens s m q { s1 with storage := st }

/-- Opening a query leaves the slate alone, and the query has the cache of its generation. -/
theorem SlateOf.of_opens {S : LogStorage (Entry w) Entry.Placed} {v : ℕ → Bytes} {n m : ℕ}
    {s s' : Slate S.toStorage} {q : Query S.toStorage} (h : SlateOf S H L v n s)
    (hq : Opens s m q s') :
    s' = s ∧ m ≤ n ∧ Represents H v (positionOf S H v) L m q.cache := by
  have hview : ∀ {snapshot : Snapshot S.toStorage} {k : ℕ} {st : S.State},
      View S H L v k n snapshot s.storage → snapshot.query s.storage = (.ok q, st) →
        { s with storage := st } = s ∧ k ≤ n ∧ Represents H v (positionOf S H v) L k q.cache := by
    intro snapshot k st hv hquery
    rw [hv.query_eq, Prod.mk.injEq, Except.ok.injEq] at hquery
    obtain ⟨rfl, rfl⟩ := hquery
    exact ⟨rfl, hv.le, hv.represents⟩
  cases hq with
  | current hquery =>
    have hn : s.n = n := h.n_eq
    rw [hn]
    exact hview h.view hquery
  | @historical fuel _ snapshot s1 _ st hfuel hsnapshot hquery =>
    by_cases hm : 1 ≤ m ∧ m ≤ n
    · obtain ⟨snapshot', h1, h2⟩ := h.viewAt hfuel hm.1 hm.2
      rw [h1, Prod.mk.injEq, Except.ok.injEq] at hsnapshot
      obtain ⟨rfl, rfl⟩ := hsnapshot
      exact hview h2 hquery
    · obtain ⟨e, h1⟩ := h.snapshotAt_err hfuel (show m = 0 ∨ n < m by omega)
      rw [h1] at hsnapshot
      exact absurd (Prod.mk.inj hsnapshot).1 (by simp)

/-! ### Calls one after the other -/

/-- **A call of a query.** -/
inductive Call (w : ℕ) : Type 1 where
  | get (i : Index)
  | getSample (i : Index)
  | walkDown {κ : Type} (callback : WalkFn w κ) (init : κ)
  | readEntry (i : Index)
  | scan {κ : Type} (i0 i1 : Index) (callback : ScanFn (Entry w) κ) (init : κ)

/-- What a call gives: its result, and what the callback has made of its own state. -/
inductive Answer (w : ℕ) : Type 1 where
  | value (result : Result (Option Bytes))
  | sample (result : Result (Option (StratumSample w)))
  | walked {κ : Type} (result : Result Unit) (final : κ)
  | entry (result : Result (Option (Entry w)))
  | scanned {κ : Type} (result : Result ℕ) (final : κ)

/-- A call that ends with an error. -/
def Answer.Fails (e : Failure Error) : Answer w → Prop
  | .value result => result = .error e
  | .sample result => result = .error e
  | .walked result _ => result = .error e
  | .entry result => result = .error e
  | .scanned result _ => result = .error e

namespace Query

/-- Makes a call. -/
def call (self : Query S) (fuel : ℕ) : Call w → S.State → Answer w × S.State
  | .get i, st => (.value (self.get fuel i st).1, (self.get fuel i st).2)
  | .getSample i, st => (.sample (self.getSample fuel i st).1, (self.getSample fuel i st).2)
  | .walkDown callback init, st =>
    let result := self.walkDown fuel callback (init, st)
    (.walked result.1 result.2.1, result.2.2)
  | .readEntry i, st => (.entry (self.readEntry fuel i st).1, (self.readEntry fuel i st).2)
  | .scan i0 i1 callback init, st =>
    let result := self.scan fuel i0 i1 callback (init, st)
    (.scanned result.1 result.2.1, result.2.2)

variable {self : Query S}

/-- **A call ends as over a storage that serves, or with a fault.** -/
theorem reports_call {P : Failure Error → Prop} (hS : Falters P S I H v pos m)
    (hT : Serves T J H v pos m) (hc : Represents H v pos L m self.cache) (fuel : ℕ) (c : Call w)
    {s : S.State} {t : T.State} (hst : Served I J s t) :
    (∃ e, P e ∧ (self.call fuel c s).1.Fails e ∧ I (self.call fuel c s).2) ∨
      ((self.call fuel c s).1 = ((self.onto T).call fuel c t).1 ∧
        Served I J (self.call fuel c s).2 ((self.onto T).call fuel c t).2) := by
  cases c with
  | get i =>
    exact (reports_get hS hT hc fuel i hst).imp_right fun h => ⟨congrArg Answer.value h.1, h.2⟩
  | getSample i =>
    exact (reports_getSample hS hT hc fuel i hst).imp_right fun h =>
      ⟨congrArg Answer.sample h.1, h.2⟩
  | @walkDown κ callback init =>
    have hbeside : Beside κ (Served I J) (init, s) (init, t) := ⟨rfl, hst⟩
    exact (reports_walkDown hS hT hc fuel callback hbeside).imp_right fun h =>
      ⟨congrArg₂ Answer.walked h.1 h.2.1, h.2.2⟩
  | readEntry i =>
    exact (reports_readEntry hS hT hc fuel i hst).imp_right fun h =>
      ⟨congrArg Answer.entry h.1, h.2⟩
  | @scan κ i0 i1 callback init =>
    have hbeside : Beside κ (Served I J) (init, s) (init, t) := ⟨rfl, hst⟩
    exact (reports_scan hS hT hc fuel i0 i1 callback hbeside).imp_right fun h =>
      ⟨congrArg₂ Answer.scanned h.1 h.2.1, h.2.2⟩

/-- **Every call agrees.** -/
theorem agree_call (hS : Serves S I H v pos m) (hT : Serves T J H v pos m)
    (hc : Represents H v pos L m self.cache) (fuel : ℕ) (c : Call w) {s : S.State} {t : T.State}
    (hst : Served I J s t) : (self.call fuel c s).1 = ((self.onto T).call fuel c t).1 ∧
      Served I J (self.call fuel c s).2 ((self.onto T).call fuel c t).2 :=
  (reports_call (hS.falters Never) hT hc fuel c hst).resolve_left fun ⟨_, he, _⟩ => he.elim

/-- **Calls one after the other agree.** -/
theorem runAll_call_eq (hS : Serves S I H v pos m) (hT : Serves T J H v pos m)
    (hc : Represents H v pos L m self.cache) (fuel : ℕ) (calls : List (Call w)) {s : S.State}
    {t : T.State} (hst : Served I J s t) :
    (runAll (self.call fuel) calls s).1 = (runAll ((self.onto T).call fuel) calls t).1 :=
  have halways : Always ((self.onto T).call fuel) (fun _ _ => True) calls t :=
    always_of_forall (fun _ _ => trivial) calls t
  (runAll_eq (fun c _ _ h _ => agree_call hS hT hc fuel c h) calls s t hst halways).1

end Query

end StratifiedHashTree
