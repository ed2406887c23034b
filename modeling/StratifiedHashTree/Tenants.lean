import StratifiedHashTree.Hosting
import StratifiedHashTree.Prefixes

/-!
# Slates that share a database

Several slates on one database, each behind a prefix of its own. Behind its prefix the
database looks to each of them like one of its own
(`StratifiedHashTree.RocksDBStorage.Rents`), and an operation of a slate leaves everything in
front of the other prefixes as it is. So a prefix hosts a log, and what the database holds
besides is part of what a host keeps.

Any number of slates can be used in turn, command by command. Each gives the answers of a
slate alone on the key-value storage in memory that is given its own commands only
(`StratifiedHashTree.tenants_apart`); the position of an entry is its index on both.
-/

namespace StratifiedHashTree

open Outcome AppendLog

variable {w : ℕ}

namespace RocksDBStorage

variable {α κ : Type} {P : Bytes} {hashing : Bool}

/-! ### Writing behind a prefix -/

section Writing

variable {s t : RocksDBStorage}

theorem Alike.insert (h : Alike P s t) (key value : Bytes) :
    Alike P { s with db := s.db.insert key value } { t with db := t.db.insert key value } := by
  refine ⟨⟨h.behind.prefix_eq, h.behind.metadata_mem⟩, h.keyPrefix, h.keyHashing,
    h.keyForMetadata, fun other hother => ?_⟩
  by_cases hkey : other = key
  · rw [hkey, Finmap.lookup_insert, Finmap.lookup_insert]
  · rw [Finmap.lookup_insert_of_ne _ hkey, Finmap.lookup_insert_of_ne _ hkey, h.lookup other hother]

theorem Alike.erase (h : Alike P s t) (key : Bytes) :
    Alike P { s with db := s.db.erase key } { t with db := t.db.erase key } := by
  refine ⟨⟨h.behind.prefix_eq, h.behind.metadata_mem⟩, h.keyPrefix, h.keyHashing,
    h.keyForMetadata, fun other hother => ?_⟩
  by_cases hkey : other = key
  · rw [hkey, Finmap.lookup_erase, Finmap.lookup_erase]
  · rw [Finmap.lookup_erase_ne hkey, Finmap.lookup_erase_ne hkey, h.lookup other hother]

theorem agreeAt_dbPut (h : Alike P s t) (key value : Bytes) :
    Prog.AgreeAt (Alike P) Prog.Never Prog.Never (dbPut key value) (dbPut key value) s t :=
  .of_eq rfl rfl (h.insert key value)

theorem agree_setMetadata (next : Position) :
    Prog.Agree (Alike P) Prog.Never Prog.Never (setMetadata next) (setMetadata next) := by
  intro s t h
  rw [setMetadata]
  refine .lift_bind h _ fun _ _ => Prog.AgreeAt.get ?_
  rw [← h.keyForMetadata]
  by_cases hnext : next = 1
  · rw [if_pos hnext]
    exact .of_eq rfl rfl (h.erase _)
  · rw [if_neg hnext]
    exact (agreeAt_get h h.behind.metadata_mem).bind fun value s' t' _ _ h' =>
      agreeAt_dbPut h' _ _

theorem agree_store (key value : Bytes) (position : Position) :
    Prog.Agree (Alike P) Prog.Never Prog.Never (DBCalls.plain.store key value position)
      (DBCalls.plain.store key value position) := by
  intro s t h
  exact (agreeAt_dbPut h key value).bind fun _ s' t' _ _ h' =>
    ((Prog.Agree.lift _).bind fun next => agree_setMetadata next) h'

/-- **A `put` agrees.** -/
theorem agree_put (S : Serializable α) (position : Position) (x : α) :
    Prog.Agree (Alike P) Prog.Never Prog.Never (put S position x) (put S position x) := by
  intro s t h
  rw [put]
  refine .lift_bind h _ fun _ _ => Prog.AgreeAt.get ?_
  rw [← h.key_eq]
  rcases S.write extend x [] with ⟨e | n, value⟩
  · exact Prog.Agree.lift _ h
  · exact ((agree_store (s.key position) value position).bind fun _ => .lift _) h

end Writing

/-! ### Cutting behind a prefix -/

section Cutting

variable {S : Serializable α} {db db' : DB} {log : List α}

/-- Deleting the same numbers leaves databases alike behind the prefix. -/
theorem Deletes.alike {p e : ℕ} {db1 db2 db1' db2' : DB} (h1 : Deletes P hashing p e db1 db1')
    (h2 : Deletes P hashing p e db2 db2')
    (h : ∀ key ∈ region P, db1.lookup key = db2.lookup key) :
    ∀ key ∈ region P, db1'.lookup key = db2'.lookup key := by
  intro key hkey
  by_cases hq : ∃ q : ℕ, p ≤ q ∧ q < e ∧ key = keyOf P hashing q
  · obtain ⟨q, hp, he, rfl⟩ := hq
    rw [h1.deleted q hp he, h2.deleted q hp he]
  · have hkept : ∀ q : ℕ, p ≤ q → q < e → key ≠ keyOf P hashing q :=
      fun q hp he heq => hq ⟨q, hp, he, heq⟩
    rw [h1.kept key hkept, h2.kept key hkept, h key hkey]

end Cutting

/-! ### A prefix hosts a log -/

section Renting

variable {S : Serializable α} {rest : DB} {log : List α} {st : RocksDBStorage}

/-- **A storage that has a log behind its prefix**, in a database that holds something else in
front of other prefixes. -/
structure Rents (S : Serializable α) (P : Bytes) (hashing : Bool) (rest : DB) (log : List α)
    (st : RocksDBStorage) : Prop where
  alike : Alike P st (new (dbOf S P hashing log) P hashing)
  outside : AgreeOutside (region P) rest st.db

theorem Rents.eq_new (h : Rents S P hashing rest log st) : st = new st.db P hashing := by
  obtain ⟨⟨-, h1, h2, h3, -⟩, -⟩ := h
  cases st
  simp only [new] at h1 h2 h3 ⊢
  rw [h1, h2, h3]

/-- What is seen behind the prefix. -/
theorem Rents.lookup_key (h : Rents S P hashing rest log st) (q : ℕ) :
    st.db.lookup (keyOf P hashing q) = (dbOf S P hashing log).lookup (keyOf P hashing q) :=
  h.alike.lookup _ (createKey_mem q hashing P)

theorem Rents.shows (h : Rents S P hashing rest log st) (hroom : nextOf log < 2 ^ 64) :
    Shows S P hashing st.db log where
  data k hk := by rw [h.lookup_key, ((stores_dbOf hroom).shows hroom).data k hk]
  metadata := by rw [h.lookup_key, ((stores_dbOf hroom).shows hroom).metadata]

variable {Placed : Position → α → Prop} (hS : S.RoundTrips Placed)
include hS

theorem Rents.last (h : Rents S P hashing rest log st) (hroom : nextOf log < 2 ^ 64)
    (hlaid : ∀ k (h : k < log.length), Placed (nextOf (log.take k)) log[k]) :
    last S st = (.ok (log.getLast?, nextOf log), st) := by
  rw [h.eq_new]
  exact last_eq (h.shows hroom) hroom (read_laid hS hlaid)

theorem Rents.put (h : Rents S P hashing rest log st) {x : α} (hx : Placed (nextOf log) x)
    (hroom : nextOf (log ++ [x]) < 2 ^ 64) :
    ∃ st', put S (nextOf log) x st = (.ok (nextOf (log ++ [x])), st') ∧
      Rents S P hashing rest (log ++ [x]) st' := by
  have hroom' : nextOf log < 2 ^ 64 := by
    rw [nextOf, List.length_append] at hroom
    exact Nat.lt_of_succ_lt hroom
  have hprivate := (logStorage hS P hashing).put_room (x := x) hroom' hx hroom
  obtain ⟨st', hput, halike⟩ := (agree_put S (nextOf log) x h.alike).ok hprivate
  refine ⟨st', hput, halike, ?_⟩
  have hmoves := (movesAt_put S h.alike.behind (nextOf log) x h.alike.behind).2
  rw [hput] at hmoves
  exact h.outside.trans hmoves

omit hS in
theorem Rents.truncate (h : Rents S P hashing rest log st) (hroom : nextOf log < 2 ^ 64) {k : ℕ}
    (hk : k < log.length) :
    ∃ st', truncate (k + 1) st = (.ok true, st') ∧ Rents S P hashing rest (log.take k) st' := by
  have hlt : log.length + 1 < 2 ^ 64 := hroom
  have hown : Stores S P hashing (dbOf S P hashing log) log := stores_dbOf hroom
  have hin : Filled P hashing (dbOf S P hashing log) (k + 1) (log.length + 1) := by
    intro q h1 h2
    rw [hown.data q (by omega) (by omega), List.getElem?_eq_getElem (by omega)]
    exact Option.some_ne_none _
  have hout := hown.lookup_none (Nat.le_add_left 1 _) hlt (by omega)
  have hke : k + 1 ≤ log.length + 1 := Nat.succ_le_succ hk.le
  obtain ⟨db1, -, h1⟩ := truncate_eq hown.metadata hroom hk hke hlt hin hout
  obtain ⟨db2, htrunc, h2⟩ := truncate_eq (h.shows hroom).metadata hroom hk hke hlt
    (fun q hq1 hq2 => by rw [h.lookup_key]; exact hin q hq1 hq2) (by rw [h.lookup_key]; exact hout)
  have hunique := (hown.take hroom hk h1).unique (stores_dbOf (nextOf_take_lt hroom k))
  have hmoves := (movesAt_truncate h.alike.behind (k + 1) h.alike.behind).2
  rw [h.eq_new, htrunc] at hmoves
  refine ⟨_, by rw [h.eq_new]; exact htrunc, ?_, h.outside.trans hmoves⟩
  rw [← hunique]
  have hsame : Alike P (new db2 P hashing) (new db1 P hashing) :=
    ⟨behind_new _ P hashing, rfl, rfl, rfl, h2.alike h1 h.alike.lookup⟩
  by_cases hzero : k + 1 = 1
  · rw [if_pos hzero, if_pos hzero]
    exact hsame.erase _
  · rw [if_neg hzero, if_neg hzero]
    exact hsame.insert _ _

omit hS in
/-- The loop of a scan of a database changes nothing. -/
theorem keeps_scanFrom (S : Serializable α) (callback : ScanFn α κ) :
    ∀ (count : ℕ) (position : Position), Prog.Keeps Prod.snd (scanFrom S callback count position)
  | 0, _ => .pure 0
  | count + 1, position => by
    rw [scanFrom, DBCalls.scanFrom]
    have hself : Prog.Keeps Prod.snd (Prog.onSnd DBCalls.plain.self : Run (κ × RocksDBStorage) _) :=
      fun _ => rfl
    have hget : ∀ key, Prog.Keeps Prod.snd
      (Prog.onSnd (DBCalls.plain.get key) : Run (κ × RocksDBStorage) _) := fun _ _ => rfl
    refine hself.bind fun self => (hget _).bind fun value => ?_
    cases value with
    | none => exact .pure 0
    | some value =>
      refine (Prog.Keeps.lift _).bind fun data => ?_
      rintro ⟨a, s⟩
      rw [Prog.bind_ok (Prog.get_run _)]
      simp only
      rcases callback data a with ⟨e | ⟨⟩, b⟩
      · rfl
      · exact (Prog.Keeps.bind (.lift _) fun next =>
          (keeps_scanFrom S callback count next).bind fun _ => .pure _) (b, s)

theorem Rents.scan (h : Rents S P hashing rest log st) (hroom : nextOf log < 2 ^ 64)
    (hlaid : ∀ k (h : k < log.length), Placed (nextOf (log.take k)) log[k]) {k : ℕ} (count : ℕ)
    (callback : ScanFn α κ) (a : κ) (hk : k < log.length) :
    scanFrom S callback count (k + 1) (a, st) =
      ((scanList callback ((log.drop k).take count) a).1,
        ((scanList callback ((log.drop k).take count) a).2, st)) := by
  have hown : Stores S P hashing (dbOf S P hashing log) log := stores_dbOf hroom
  have hprivate := scanFrom_eq hown hroom (read_laid hS hlaid) callback count k a hk.le
  obtain ⟨h1, h2⟩ := (agree_scanFrom S callback count (k + 1) (s := (a, st))
    (t := (a, new (dbOf S P hashing log) P hashing)) ⟨rfl, h.alike⟩).outcome
  rw [hprivate] at h1 h2
  exact Prod.ext h1 (Prod.ext h2.1 (keeps_scanFrom S callback count (k + 1) (a, st)))

end Renting

/-- **A prefix of a database hosts the log of the storage in memory.** -/
def tenant (hw : w ≤ 64) (P : Bytes) (hashing : Bool) (rest : DB) :
    (Backend.memKVS (w := w)).log.Host where
  toStorage := rocksDB Entry.serializable
  reopen self := new self.db self.keyPrefix self.keyHashing
  Keeps := Rents Entry.serializable P hashing rest
  last_reopen {log st} h hroom hlaid := by
    have hst : new st.db st.keyPrefix st.keyHashing = st := by
      rw [h.alike.keyPrefix, h.alike.keyHashing]
      exact h.eq_new.symm
    rw [hst]
    exact ⟨st, h.last (Entry.roundTrips hw) hroom hlaid, h⟩
  put_room h _ hx hroom := h.put (Entry.roundTrips hw) hx hroom
  truncate_last {log st k} h hroom hlaid hk := by
    obtain ⟨st', h1, h2⟩ := h.truncate hroom hk
    have hpos : nextOf (log.take k) = k + 1 := by
      rw [nextOf, List.length_take_of_le hk.le]
    refine ⟨st', st', ?_, h2.last (Entry.roundTrips hw) (nextOf_take_lt hroom k)
      (laid_take hlaid k), h2⟩
    change truncate (nextOf (log.take k)) st = _
    rw [hpos]
    exact h1
  reader_keeps _ := rfl
  read_keeps {log st k} hk h hroom hlaid := by
    have hpos : nextOf (log.take k) = k + 1 := by
      rw [nextOf, List.length_take_of_le hk.le]
    change read Entry.serializable (nextOf (log.take k)) st = _
    rw [hpos, h.eq_new]
    exact read_some (h.shows hroom) (read_laid (Entry.roundTrips hw) hlaid) hk
  scan_keeps {log st k} count {κ} callback a hk _ h hroom hlaid := by
    have hpos : nextOf (log.take k) = k + 1 := by
      rw [nextOf, List.length_take_of_le hk.le]
    change scanFrom Entry.serializable callback count (nextOf (log.take k)) (a, st) = _
    rw [hpos]
    exact h.scan (Entry.roundTrips hw) hroom hlaid count callback a hk
  full_panics := Backend.memKVS_panicsWhenFull

end RocksDBStorage

/-! ### Slates in turn -/

open RocksDBStorage

/-- **Slates on one database.** Each has a storage of its own, but the database in it is the
common one. -/
structure Tenants (ι : Type) (w : ℕ) where
  db : DB
  slates : ι → Slate (rocksDB (Entry.serializable (w := w)))

namespace Tenants

variable {ι : Type} [DecidableEq ι] {H : HashFn w} {L n fuel : ℕ} {v : ℕ → Bytes}

/-- A storage, with another database. -/
def attach (db : DB) (self : RocksDBStorage) : RocksDBStorage := { self with db := db }

/-- The slate of a party, as it finds the database. -/
def slate (self : Tenants ι w) (i : ι) : Slate (rocksDB (Entry.serializable (w := w))) :=
  { self.slates i with storage := attach self.db (self.slates i).storage }

/-- Opens the storage once more. -/
def reopen (self : RocksDBStorage) : RocksDBStorage := new self.db self.keyPrefix self.keyHashing

/-- The database of a slate. -/
def dbOf (s : Slate (rocksDB (Entry.serializable (w := w)))) : DB :=
  let storage : RocksDBStorage := s.storage
  storage.db

/-- **A party gives a command to its slate.** -/
def serve (H : HashFn w) (fuel : ℕ) (i : ι) (command : Command w) (self : Tenants ι w) :
    Sight w Unit × Tenants ι w :=
  let result := Slate.watch (fun _ => ()) reopen H fuel command (self.slate i)
  (result.1, ⟨dbOf result.2, Function.update self.slates i result.2⟩)

/-- A slate behind a prefix, with its twin on the key-value storage; the rest of the database is
what it is. -/
def Paired (hw : w ≤ 64) (H : HashFn w) (P : Bytes) (hashing : Bool)
    (s : SlateOn (w := w) .memKVS) (t : Slate (rocksDB (Entry.serializable (w := w)))) : Prop :=
  Twins (tenant hw P hashing (dbOf t)) H s t

section Pairs

variable {hw : w ≤ 64} {P : Bytes} {hashing : Bool} {s : SlateOn (w := w) .memKVS}
  {t : Slate (rocksDB (Entry.serializable (w := w)))}

/-- The same log, with something else around it. -/
theorem rents_attach {rest db : DB} {log : List (Entry w)} {st : RocksDBStorage}
    (h : Rents Entry.serializable P hashing rest log st)
    (hdb : ∀ key ∈ region P, db.lookup key = st.db.lookup key) :
    Rents Entry.serializable P hashing db log (attach db st) where
  alike :=
    { behind := ⟨h.alike.behind.prefix_eq, h.alike.behind.metadata_mem⟩
      keyPrefix := h.alike.keyPrefix
      keyHashing := h.alike.keyHashing
      keyForMetadata := h.alike.keyForMetadata
      lookup := fun key hkey => (hdb key hkey).trans (h.alike.lookup key hkey) }
  outside := .refl db

/-- A slate does not mind what happens to the rest of the database. -/
theorem Paired.attach {rest : DB} (h : Twins (tenant hw P hashing rest) H s t) {db : DB}
    (hdb : ∀ key ∈ region P, db.lookup key = (dbOf t).lookup key) :
    Paired hw H P hashing s { t with storage := Tenants.attach db t.storage } := by
  obtain ⟨L, n, v, hs, ht⟩ := h
  exact ⟨L, n, v, hs, ht.fits, ht.position_eq, rents_attach ht.keeps hdb, ht.represents⟩

/-- **A command behind a prefix** is answered as on the twin, and leaves the rest alone. -/
theorem Paired.watch (hf : INDEX_SIZE < fuel) (command : Command w) (h : Paired hw H P hashing s t)
    (hpanic : Slate.NoPanic (Backend.memKVS (w := w)).log.reopen H fuel command s) :
    (Slate.watch (fun _ => ()) reopen H fuel command t).1 =
        (Slate.watch (fun _ => ()) (Backend.memKVS (w := w)).log.reopen H fuel command s).1 ∧
      Paired hw H P hashing
        (Slate.watch (fun _ => ()) (Backend.memKVS (w := w)).log.reopen H fuel command s).2
        (Slate.watch (fun _ => ()) reopen H fuel command t).2 ∧
      AgreeOutside (region P) (dbOf t)
        (dbOf (Slate.watch (fun _ => ()) reopen H fuel command t).2) := by
  obtain ⟨h1, h2⟩ := Twins.execute hf command h hpanic
  have hroot := h2.root_eq
  refine ⟨?_, Paired.attach h2 fun _ _ => rfl, ?_⟩
  · rw [Slate.watch]
    exact congrArg₂ (fun response root => Sight.mk response root ()) h1.symm hroot.symm
  · obtain ⟨L, n, v, -, ht⟩ := h2
    exact ht.keeps.outside

end Pairs

/-- The keys of any of the parties. -/
def regions (P : ι → Bytes) : Set Bytes := {key | ∃ i, key ∈ region (P i)}

/-- **Slates on one database, and their twins**, which have nothing in common. -/
structure Related (hw : w ≤ 64) (H : HashFn w) (P : ι → Bytes) (hashing : ι → Bool) (db : DB)
    (s : ι → SlateOn (w := w) .memKVS) (t : Tenants ι w) : Prop where
  paired : ∀ i, Paired hw H (P i) (hashing i) (s i) (t.slate i)
  outside : AgreeOutside (regions P) db t.db

/-- **A command of one party** is answered as on its twin, and the others do not notice. -/
theorem Related.serve {hw : w ≤ 64} {P : ι → Bytes} (hP : Function.Injective P)
    {hashing : ι → Bool} {db : DB} (hf : INDEX_SIZE < fuel) (i : ι) (command : Command w)
    {s : ι → SlateOn (w := w) .memKVS} {t : Tenants ι w} (h : Related hw H P hashing db s t)
    (hpanic : Slate.NoPanic (Backend.memKVS (w := w)).log.reopen H fuel command (s i)) :
    (Tenants.serve H fuel i command t).1 =
        (Slate.watch (fun _ => ()) (Backend.memKVS (w := w)).log.reopen H fuel command (s i)).1 ∧
      Related hw H P hashing db (Function.update s i
          (Slate.watch (fun _ => ()) (Backend.memKVS (w := w)).log.reopen H fuel command (s i)).2)
        (Tenants.serve H fuel i command t).2 := by
  obtain ⟨h1, h2, h3⟩ := (h.paired i).watch hf command hpanic
  refine ⟨h1, ⟨fun j => ?_, h.outside.trans fun key hkey => ?_⟩⟩
  · by_cases hj : j = i
    · subst hj
      rw [Function.update_self, slate, Tenants.serve]
      simp only [Function.update_self]
      exact Paired.attach h2 fun _ _ => rfl
    · rw [Function.update_of_ne hj, slate, Tenants.serve]
      simp only [Function.update_of_ne hj]
      refine Paired.attach (h.paired j) fun key hkey => h3 key ?_
      exact region_disjoint (fun hcon => hj (hP hcon)) key hkey
  · exact h3 key fun hcon => hkey ⟨i, hcon⟩

omit [DecidableEq ι] in
/-- **Slates are opened** on a database that has nothing behind their prefixes. -/
theorem exists_related (hw : w ≤ 64) (H : HashFn w) (P : ι → Bytes) (hashing : ι → Bool)
    (L : ι → ℕ) {db : DB} (hdb : ∀ i, ∀ key ∈ region (P i), db.lookup key = none) :
    ∃ (s : ι → SlateOn (w := w) .memKVS)
      (t : ι → Slate (rocksDB (Entry.serializable (w := w)))),
      (∀ i, openNew .memKVS (L i) = .ok (s i)) ∧
      (∀ i, Slate.withCacheLevel (S := rocksDB Entry.serializable)
        (new db (P i) (hashing i)) (L i) = .ok (t i)) ∧
      Related hw H P hashing db s ⟨db, t⟩ := by
  have hopen : ∀ i, ∃ (s : SlateOn (w := w) .memKVS)
      (t : Slate (rocksDB (Entry.serializable (w := w)))),
      openNew .memKVS (L i) = .ok s ∧ Slate.withCacheLevel (S := rocksDB Entry.serializable)
        (new db (P i) (hashing i)) (L i) = .ok t ∧ t.storage = new db (P i) (hashing i) ∧
        Twins (tenant hw (P i) (hashing i) db) H s t := by
    intro i
    have hkeeps : Rents (Entry.serializable (w := w)) (P i) (hashing i) db []
        (new db (P i) (hashing i)) :=
      ⟨⟨behind_new db (P i) (hashing i), rfl, rfl, rfl, fun key hkey => hdb i key hkey⟩, .refl db⟩
    exact twins_fresh (tenant hw (P i) (hashing i) db) H (L i)
      (hkeeps.last (Entry.roundTrips hw) (show 0 + 1 < 2 ^ 64 by decide) fun k hk =>
        absurd hk (Nat.not_lt_zero k)) hkeeps
  choose s t hs ht hst htwins using hopen
  refine ⟨s, t, hs, ht, fun i => Paired.attach (htwins i) fun key hkey => ?_, .refl db⟩
  rw [dbOf, hst i, new]

end Tenants

/-- **Slates that share a database do not interfere.** Any number of slates is opened on one
database, each behind a prefix of its own, and they are given commands in any order. Each gives
the answers of a slate alone on the key-value storage in memory that is given its own commands,
as long as that one does not panic; and what there is in front of other prefixes stays as it
was. -/
theorem tenants_apart (hw : w ≤ 64) (H : HashFn w) {fuel : ℕ} (hf : INDEX_SIZE < fuel) {ι : Type}
    [DecidableEq ι] {P : ι → Bytes} (hP : Function.Injective P) (hashing : ι → Bool) (L : ι → ℕ)
    {db : DB} (hdb : ∀ i, ∀ key ∈ region (P i), db.lookup key = none) :
    ∃ (s : ι → SlateOn (w := w) .memKVS)
      (t : ι → Slate (rocksDB (Entry.serializable (w := w)))),
      (∀ i, openNew .memKVS (L i) = .ok (s i)) ∧
      (∀ i, Slate.withCacheLevel (S := rocksDB Entry.serializable)
        (new db (P i) (hashing i)) (L i) = .ok (t i)) ∧
      ∀ requests : List (ι × Command w),
        (∀ i, Always
          (Slate.watch (fun _ => ()) (Backend.memKVS (w := w)).log.reopen H fuel)
          (Slate.NoPanic (Backend.memKVS (w := w)).log.reopen H fuel) (ofParty i requests)
          (s i)) →
        (∀ i, ofParty i (runAll (serveParty (Tenants.serve H fuel)) requests ⟨db, t⟩).1 =
          (runAll (Slate.watch (fun _ => ()) (Backend.memKVS (w := w)).log.reopen H fuel)
            (ofParty i requests) (s i)).1) ∧
        AgreeOutside (Tenants.regions P) db
          (runAll (serveParty (Tenants.serve H fuel)) requests ⟨db, t⟩).2.db := by
  obtain ⟨s, t, hs, ht, h⟩ := Tenants.exists_related hw H P hashing L hdb
  refine ⟨s, t, hs, ht, fun requests hpanic => ?_⟩
  obtain ⟨h1, s', h2⟩ := runAll_apart
    (fun i command s t h hg => Tenants.Related.serve hP hf i command h hg) requests s ⟨db, t⟩ h
    hpanic
  exact ⟨h1, h2.outside⟩

/-- Two parties, one with an empty prefix. -/
def twoPrefixes (i : Bool) : Bytes := if i then [] else [0]

/-- Commands of the two, in turn. -/
def twoParties : List (Bool × Command 1) :=
  [(true, .append [1]), (false, .append [2]), (true, .append [3]), (false, .truncate 1),
    (true, .reopen 0), (false, .append [5, 5]), (true, .ask (.get 2)),
    (false, .askAt 1 (.getSample 1))]

/-- A database with a record that is none of theirs. -/
def otherRecord : DB := (∅ : DB).insert [1] [2]

theorem tenants_apart_two :
    ∃ (s : Bool → SlateOn (w := 1) .memKVS)
      (t : Bool → Slate (rocksDB (Entry.serializable (w := 1)))),
      (∀ i, ofParty i
          (runAll (serveParty (Tenants.serve byteSum 65)) twoParties ⟨otherRecord, t⟩).1 =
        (runAll (Slate.watch (fun _ => ()) (Backend.memKVS (w := 1)).log.reopen byteSum 65)
          (ofParty i twoParties) (s i)).1) ∧
      AgreeOutside (Tenants.regions twoPrefixes) otherRecord
        (runAll (serveParty (Tenants.serve byteSum 65)) twoParties ⟨otherRecord, t⟩).2.db := by
  have hf : INDEX_SIZE < 65 := by decide
  have hempty : ∀ i, ∀ key ∈ region (twoPrefixes i), otherRecord.lookup key = none := by
    rintro i key ⟨tail, hlen, rfl⟩
    rw [otherRecord, Finmap.lookup_insert_of_ne, Finmap.lookup_empty]
    intro heq
    have hlength := congrArg List.length heq
    rw [List.length_append, List.length_singleton] at hlength
    omega
  obtain ⟨s, t, hs, -, h⟩ := tenants_apart one_le_64 byteSum hf (P := twoPrefixes) (by decide)
    (fun i => i) (fun _ => 1) hempty
  exact ⟨s, t, h twoParties fun i => always_noPanic _ hf _ (Reaches.new (hs i))
    (by cases i <;> decide)⟩

end StratifiedHashTree
