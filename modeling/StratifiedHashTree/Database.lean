import StratifiedHashTree.Backend
import StratifiedHashTree.Numbered
import StratifiedHashTree.RocksDB

/-!
# The database of a log

What the database of the storage of `storage/rocksdb.rs` holds for a log of data
(`StratifiedHashTree.RocksDBStorage.Stores`), and that every operation of the storage is one
on the log. The length of the log is known from the record under the number `0`; the loop that
cuts the log does not look at it and goes on until there is no record under a number, which is
right because there are none behind the last one.

So the storage keeps a log (`StratifiedHashTree.RocksDBStorage.database_keeps_log`), and the
record of the next number is never taken for a datum.
-/

namespace StratifiedHashTree

open Outcome AppendLog

variable {α κ : Type} {w : ℕ}

namespace RocksDBStorage

/-! ### The database of a log -/

section Stores

variable (S : Serializable α) (keyPrefix : Bytes) (hashing : Bool)

/-- The key of a number. -/
abbrev keyOf (q : ℕ) : Bytes := createKey q hashing keyPrefix

/-- **The database of a log**: the data under their numbers, the next number under the number
`0` unless there are no data, and nothing else. -/
structure Stores (db : DB) (log : List α) : Prop where
  data : ∀ q : ℕ, 1 ≤ q → q < 2 ^ 64 →
    db.lookup (keyOf keyPrefix hashing q) = log[q - 1]?.map S.bytes
  metadata : db.lookup (keyOf keyPrefix hashing 0) =
    if log.length = 0 then none else some (leBytes 8 (nextOf log))
  nothingElse : ∀ key, (∀ q : ℕ, q < 2 ^ 64 → key ≠ keyOf keyPrefix hashing q) →
    db.lookup key = none

/-- **The database shows a log**: its data are under their numbers, and so is the next number.
What else there may be is not asked. -/
structure Shows (db : DB) (log : List α) : Prop where
  data : ∀ (k : ℕ) (hk : k < log.length),
    db.lookup (keyOf keyPrefix hashing (k + 1)) = some (S.bytes log[k])
  metadata : db.lookup (keyOf keyPrefix hashing 0) =
    if log.length = 0 then none else some (leBytes 8 (nextOf log))

/-- The data of a log from some number on. -/
def entriesFrom : ℕ → List α → DB
  | _, [] => ∅
  | p, x :: xs => (entriesFrom (p + 1) xs).insert (keyOf keyPrefix hashing p) (S.bytes x)

/-- The database of a log. -/
def dbOf (log : List α) : DB :=
  if log.length = 0 then ∅
  else (entriesFrom S keyPrefix hashing 1 log).insert (keyOf keyPrefix hashing 0)
    (leBytes 8 (nextOf log))

variable {S keyPrefix hashing}

/-- The database of a log shows it. -/
theorem Stores.shows {db : DB} {log : List α} (h : Stores S keyPrefix hashing db log)
    (hroom : nextOf log < 2 ^ 64) : Shows S keyPrefix hashing db log where
  data k hk := by
    have hlt : log.length + 1 < 2 ^ 64 := hroom
    rw [h.data (k + 1) (by omega) (by omega), Nat.add_sub_cancel, List.getElem?_eq_getElem hk]
    rfl
  metadata := h.metadata

/-- The keys of numbers that differ. -/
theorem keyOf_ne {p q : ℕ} (hp : p < 2 ^ 64) (hq : q < 2 ^ 64) (hne : p ≠ q) :
    keyOf keyPrefix hashing p ≠ keyOf keyPrefix hashing q := fun h => hne (createKey_inj hp hq h)

/-- A datum behind the log does not show. -/
theorem Shows.insert {db : DB} {log : List α} (h : Shows S keyPrefix hashing db log)
    (hroom : nextOf log < 2 ^ 64) (value : Bytes) :
    Shows S keyPrefix hashing (db.insert (keyOf keyPrefix hashing (nextOf log)) value) log where
  data k hk := by
    have hlt : log.length + 1 < 2 ^ 64 := hroom
    rw [Finmap.lookup_insert_of_ne _ (keyOf_ne (by omega) hlt (by omega)), h.data k hk]
  metadata := by
    rw [Finmap.lookup_insert_of_ne _ (keyOf_ne (by decide) hroom (Nat.succ_ne_zero _).symm),
      h.metadata]

/-- There is only one database of a log. -/
theorem Stores.unique {db db' : DB} {log : List α} (h : Stores S keyPrefix hashing db log)
    (h' : Stores S keyPrefix hashing db' log) : db = db' := by
  refine Finmap.ext_lookup fun key => ?_
  by_cases hkey : ∃ q : ℕ, q < 2 ^ 64 ∧ key = keyOf keyPrefix hashing q
  · obtain ⟨q, hq, rfl⟩ := hkey
    rcases Nat.eq_zero_or_pos q with rfl | hpos
    · rw [h.metadata, h'.metadata]
    · rw [h.data q hpos hq, h'.data q hpos hq]
  · have hnone : ∀ q : ℕ, q < 2 ^ 64 → key ≠ keyOf keyPrefix hashing q :=
      fun q hq heq => hkey ⟨q, hq, heq⟩
    rw [h.nothingElse key hnone, h'.nothingElse key hnone]

theorem lookup_entriesFrom {q : ℕ} (hq : q < 2 ^ 64) : ∀ (log : List α) (p : ℕ),
    p + log.length ≤ 2 ^ 64 → (entriesFrom S keyPrefix hashing p log).lookup
      (keyOf keyPrefix hashing q) = if q < p then none else log[q - p]?.map S.bytes
  | [], p, _ => by
    rw [entriesFrom, Finmap.lookup_empty]
    by_cases h : q < p
    · rw [if_pos h]
    · rw [if_neg h]
      rfl
  | x :: xs, p, hp => by
    rw [List.length_cons] at hp
    rw [entriesFrom]
    by_cases heq : q = p
    · subst heq
      rw [Finmap.lookup_insert, if_neg (Nat.lt_irrefl q), Nat.sub_self]
      rfl
    · have hkey : keyOf keyPrefix hashing q ≠ keyOf keyPrefix hashing p :=
        fun h => heq (createKey_inj hq (by omega) h)
      rw [Finmap.lookup_insert_of_ne _ hkey, lookup_entriesFrom hq xs (p + 1) (by omega)]
      by_cases h : q < p
      · rw [if_pos h, if_pos (by omega)]
      · rw [if_neg h, if_neg (by omega), show q - p = q - (p + 1) + 1 by omega,
          List.getElem?_cons_succ]

theorem lookup_entriesFrom_none {key : Bytes}
    (hkey : ∀ q : ℕ, q < 2 ^ 64 → key ≠ keyOf keyPrefix hashing q) : ∀ (log : List α) (p : ℕ),
    p + log.length ≤ 2 ^ 64 → (entriesFrom S keyPrefix hashing p log).lookup key = none
  | [], _, _ => Finmap.lookup_empty _
  | x :: xs, p, hp => by
    rw [List.length_cons] at hp
    rw [entriesFrom, Finmap.lookup_insert_of_ne _ (hkey p (by omega)),
      lookup_entriesFrom_none hkey xs (p + 1) (by omega)]

theorem stores_dbOf {log : List α} (hroom : nextOf log < 2 ^ 64) :
    Stores S keyPrefix hashing (dbOf S keyPrefix hashing log) log := by
  rw [dbOf]
  by_cases h : log.length = 0
  · obtain rfl := List.length_eq_zero_iff.mp h
    rw [if_pos h]
    exact ⟨fun q _ _ => Finmap.lookup_empty _, Finmap.lookup_empty _,
      fun key _ => Finmap.lookup_empty _⟩
  · have hlen : 1 + log.length ≤ 2 ^ 64 := by
      rw [Nat.add_comm]
      exact Nat.le_of_lt hroom
    rw [if_neg h]
    refine ⟨fun q h1 h2 => ?_, ?_, fun key hkey => ?_⟩
    · have hne : keyOf keyPrefix hashing q ≠ keyOf keyPrefix hashing 0 := fun heq => by
        have h3 := createKey_inj h2 (by decide) heq
        omega
      rw [Finmap.lookup_insert_of_ne _ hne, lookup_entriesFrom h2 log 1 hlen, if_neg (by omega)]
    · rw [Finmap.lookup_insert, if_neg h]
    · rw [Finmap.lookup_insert_of_ne _ (hkey 0 (by decide)),
        lookup_entriesFrom_none hkey log 1 hlen]

/-- Storing a datum more, and the next number. -/
theorem Stores.concat {db : DB} {log : List α} (h : Stores S keyPrefix hashing db log) {x : α}
    (hroom : nextOf (log ++ [x]) < 2 ^ 64) : Stores S keyPrefix hashing
      ((db.insert (keyOf keyPrefix hashing (nextOf log)) (S.bytes x)).insert
        (keyOf keyPrefix hashing 0) (leBytes 8 (nextOf (log ++ [x])))) (log ++ [x]) := by
  have hnext : nextOf (log ++ [x]) = nextOf log + 1 := by
    rw [nextOf, List.length_append, List.length_singleton]
  have hlt : log.length + 1 + 1 < 2 ^ 64 := by rwa [hnext] at hroom
  refine ⟨fun q h1 h2 => ?_, ?_, fun key hkey => ?_⟩
  · rw [Finmap.lookup_insert_of_ne _ (keyOf_ne h2 (by decide) (by omega))]
    by_cases hq : q = log.length + 1
    · subst hq
      rw [Finmap.lookup_insert, Nat.add_sub_cancel, List.getElem?_concat_length]
      rfl
    · rw [Finmap.lookup_insert_of_ne _ (keyOf_ne h2 (by omega) hq), h.data q h1 h2]
      rcases Nat.lt_or_ge (q - 1) log.length with h3 | h3
      · rw [List.getElem?_append_left h3]
      · rw [List.getElem?_eq_none h3,
          List.getElem?_eq_none (by rw [List.length_append, List.length_singleton]; omega)]
  · rw [Finmap.lookup_insert, if_neg (by rw [List.length_append, List.length_singleton]; omega)]
  · rw [Finmap.lookup_insert_of_ne _ (hkey 0 (by decide)),
      Finmap.lookup_insert_of_ne _ (hkey _ (Nat.lt_of_succ_lt hlt)), h.nothingElse key hkey]

/-- The data under the numbers from `p` on and before `e` are deleted, and nothing else is. -/
structure Deletes (keyPrefix : Bytes) (hashing : Bool) (p e : ℕ) (db db' : DB) : Prop where
  deleted : ∀ q : ℕ, p ≤ q → q < e → db'.lookup (keyOf keyPrefix hashing q) = none
  kept : ∀ key, (∀ q : ℕ, p ≤ q → q < e → key ≠ keyOf keyPrefix hashing q) →
    db'.lookup key = db.lookup key

/-- Nothing is deleted. -/
theorem Deletes.nil (p : ℕ) (db : DB) : Deletes keyPrefix hashing p p db db :=
  ⟨fun _ h1 h2 => absurd h1 (Nat.not_le_of_lt h2), fun _ _ => rfl⟩

/-- Deleting one datum, and those after it. -/
theorem Deletes.cons {p e : ℕ} {db db' : DB} (hpe : p < e) (he : e ≤ 2 ^ 64)
    (h : Deletes keyPrefix hashing (p + 1) e (db.erase (keyOf keyPrefix hashing p)) db') :
    Deletes keyPrefix hashing p e db db' := by
  refine ⟨fun q h1 h2 => ?_, fun key hkey => ?_⟩
  · by_cases hq : q = p
    · subst hq
      rw [h.kept _ fun q' h3 h4 => keyOf_ne (by omega) (by omega) (by omega), Finmap.lookup_erase]
    · exact h.deleted q (by omega) h2
  · rw [h.kept key fun q h3 h4 => hkey q (by omega) h4,
      Finmap.lookup_erase_ne (hkey p (Nat.le_refl p) hpe)]

/-- When nothing is deleted, nothing changes. -/
theorem Deletes.eq {p : ℕ} {db db' : DB} (h : Deletes keyPrefix hashing p p db db') : db' = db :=
  Finmap.ext_lookup fun key => h.kept key fun _ h1 h2 => absurd h1 (Nat.not_le_of_lt h2)

variable (keyPrefix hashing) in
/-- There are records under the numbers from `p` on and before `e`. -/
def Filled (db : DB) (p e : ℕ) : Prop :=
  ∀ q : ℕ, p ≤ q → q < e → db.lookup (keyOf keyPrefix hashing q) ≠ none

/-- Without the first of them, the others are still there. -/
theorem Filled.erase {db : DB} {p e : ℕ} (h : Filled keyPrefix hashing db p e) (he : e ≤ 2 ^ 64) :
    Filled keyPrefix hashing (db.erase (keyOf keyPrefix hashing p)) (p + 1) e := by
  intro q h1 h2
  rw [Finmap.lookup_erase_ne (keyOf_ne (by omega) (by omega) (by omega))]
  exact h q (by omega) h2

/-- Deleting the data from a number on. -/
theorem Stores.take {db db' : DB} {log : List α} (h : Stores S keyPrefix hashing db log) {k : ℕ}
    (hroom : nextOf log < 2 ^ 64) (hk : k < log.length)
    (hdb : Deletes keyPrefix hashing (k + 1) (log.length + 1) db db') :
    Stores S keyPrefix hashing (if k + 1 = 1 then db'.erase (keyOf keyPrefix hashing 0)
      else db'.insert (keyOf keyPrefix hashing 0) (leBytes 8 (k + 1))) (log.take k) := by
  have hlt : log.length + 1 < 2 ^ 64 := hroom
  have hlen : (log.take k).length = k := List.length_take_of_le (Nat.le_of_lt hk)
  have hdata : ∀ q : ℕ, 1 ≤ q → q < 2 ^ 64 →
      db'.lookup (keyOf keyPrefix hashing q) = (log.take k)[q - 1]?.map S.bytes := by
    intro q h1 h2
    rw [List.getElem?_take]
    by_cases hq : k + 1 ≤ q ∧ q < log.length + 1
    · rw [hdb.deleted q hq.1 hq.2, if_neg (by omega)]
      rfl
    · have hkept : ∀ q' : ℕ, k + 1 ≤ q' → q' < log.length + 1 →
          keyOf keyPrefix hashing q ≠ keyOf keyPrefix hashing q' := by
        intro q' h3 h4
        refine keyOf_ne h2 (by omega) ?_
        rintro rfl
        exact hq ⟨h3, h4⟩
      rw [hdb.kept _ hkept, h.data q h1 h2]
      by_cases h3 : q - 1 < k
      · rw [if_pos h3]
      · rw [if_neg h3, List.getElem?_eq_none (by omega)]
  have hrest : ∀ key, (∀ q : ℕ, q < 2 ^ 64 → key ≠ keyOf keyPrefix hashing q) →
      db'.lookup key = none := by
    intro key hkey
    rw [hdb.kept key fun q _ h2 => hkey q (by omega), h.nothingElse key hkey]
  by_cases hzero : k + 1 = 1
  · rw [if_pos hzero]
    refine ⟨fun q h1 h2 => ?_, ?_, fun key hkey => ?_⟩
    · rw [Finmap.lookup_erase_ne (keyOf_ne h2 (by decide) (by omega)), hdata q h1 h2]
    · rw [Finmap.lookup_erase, if_pos (by rw [hlen]; omega)]
    · rw [Finmap.lookup_erase_ne (hkey 0 (by decide)), hrest key hkey]
  · rw [if_neg hzero]
    refine ⟨fun q h1 h2 => ?_, ?_, fun key hkey => ?_⟩
    · rw [Finmap.lookup_insert_of_ne _ (keyOf_ne h2 (by decide) (by omega)), hdata q h1 h2]
    · rw [Finmap.lookup_insert, if_neg (by rw [hlen]; omega), nextOf, hlen]
    · rw [Finmap.lookup_insert_of_ne _ (hkey 0 (by decide)), hrest key hkey]

/-! ### The programs on the database of a log -/

section Programs

variable {db : DB} {log : List α}

theorem getMetadata_eq (h : db.lookup (keyOf keyPrefix hashing 0) =
      if log.length = 0 then none else some (leBytes 8 (nextOf log)))
    (hroom : nextOf log < 2 ^ 64) :
    getMetadata (new db keyPrefix hashing) =
      (.ok (if log.length = 0 then none else some (nextOf log)), new db keyPrefix hashing) := by
  have hget : DBCalls.plain.get (new db keyPrefix hashing).keyForMetadata
        (new db keyPrefix hashing) =
      (.ok (if log.length = 0 then none else some (leBytes 8 (nextOf log))),
        new db keyPrefix hashing) := by
    rw [← h]
    rfl
  rw [getMetadata, DBCalls.getMetadata, Prog.bind_ok (DBCalls.plain_self _), Prog.bind_ok hget]
  by_cases h0 : log.length = 0
  · rw [if_pos h0, if_pos h0]
    rfl
  · have hlen : (leBytes 8 (nextOf log)).length = 8 := length_leBytes _ _
    have htake : ofLeBytes ((leBytes 8 (nextOf log)).take 8) = nextOf log := by
      rw [List.take_of_length_le (by rw [hlen]), ofLeBytes_leBytes]
      exact lt_of_lt_of_eq hroom (by norm_num)
    rw [if_neg h0, if_neg h0]
    simp only
    rw [if_neg (by rw [hlen]; decide), htake, Prog.liftM_eq,
      debugAssert_of (show nextOf log ≠ 0 from Nat.succ_ne_zero _), Prog.lift_ok_bind]
    rfl

/-- Storing the next number in a database whose record of it, if there is one, is no longer
than it should be. -/
theorem setMetadata_eq {next : ℕ} (hnext : next ≠ 0)
    (hold : ∀ value ∈ db.lookup (keyOf keyPrefix hashing 0), value.length = 8) :
    setMetadata next (new db keyPrefix hashing) = (.ok (),
      new (if next = 1 then db.erase (keyOf keyPrefix hashing 0)
        else db.insert (keyOf keyPrefix hashing 0) (leBytes 8 next)) keyPrefix hashing) := by
  have hget : DBCalls.plain.get (new db keyPrefix hashing).keyForMetadata
      (new db keyPrefix hashing) =
    (.ok (db.lookup (keyOf keyPrefix hashing 0)), new db keyPrefix hashing) := rfl
  have hdrop : ((db.lookup (keyOf keyPrefix hashing 0)).getD (List.replicate 8 0)).drop 8 = [] := by
    rcases hvalue : db.lookup (keyOf keyPrefix hashing 0) with _ | value
    · rfl
    · exact List.drop_of_length_le (hold value hvalue).le
  rw [setMetadata, DBCalls.setMetadata, Prog.liftM_eq, debugAssert_of hnext, Prog.lift_ok_bind,
    Prog.bind_ok (DBCalls.plain_self _)]
  by_cases h1 : next = 1
  · rw [if_pos h1, if_pos h1]
    rfl
  · rw [if_neg h1, if_neg h1, Prog.bind_ok hget, hdrop, List.append_nil]
    rfl

/-- The record of the next number, if there is one. -/
theorem Shows.length_metadata (h : Shows S keyPrefix hashing db log) :
    ∀ value ∈ db.lookup (keyOf keyPrefix hashing 0), value.length = 8 := by
  intro value hvalue
  rw [h.metadata] at hvalue
  by_cases h0 : log.length = 0
  · rw [if_pos h0] at hvalue
    exact absurd hvalue (Option.not_mem_none value)
  · rw [if_neg h0, Option.mem_some_iff] at hvalue
    rw [← hvalue, length_leBytes]

/-- A `put` is what is done under the lock, and a number. -/
theorem put_step {p : Position} {x : α} {n : ℕ} (hp : p ≠ 0)
    (hwrite : (S.write extend x []).1 = .ok n) (s : RocksDBStorage) : put S p x s = (do
      DBCalls.plain.store (s.key p) (S.bytes x) p
      addBits 64 p 1 : Run RocksDBStorage Position) s := by
  have hvalue : S.write extend x [] = (.ok n, S.bytes x) := Prod.ext hwrite rfl
  rw [put, DBCalls.put, Prog.liftM_eq, debugAssert_of hp, Prog.lift_ok_bind,
    Prog.bind_ok (DBCalls.plain_self s)]
  simp only [hvalue]
  rfl

/-- **Storing a datum, and the next number**, in a database whose record of the number, if there
is one, is no longer than it should be. -/
theorem put_of_lt {p : ℕ} {x : α} {n : ℕ} (hp : p ≠ 0) (hwrite : (S.write extend x []).1 = .ok n)
    (hlt : p + 1 < 2 ^ 64)
    (hold : ∀ value ∈ (db.insert (keyOf keyPrefix hashing p) (S.bytes x)).lookup
      (keyOf keyPrefix hashing 0), value.length = 8) :
    put S p x (new db keyPrefix hashing) = (.ok (p + 1),
      new ((db.insert (keyOf keyPrefix hashing p) (S.bytes x)).insert (keyOf keyPrefix hashing 0)
        (leBytes 8 (p + 1))) keyPrefix hashing) := by
  have hput : DBCalls.plain.dbPut ((new db keyPrefix hashing).key p) (S.bytes x)
      (new db keyPrefix hashing) =
    (.ok (), new (db.insert (keyOf keyPrefix hashing p) (S.bytes x)) keyPrefix hashing) := rfl
  have hstore : DBCalls.plain.store ((new db keyPrefix hashing).key p) (S.bytes x) p
      (new db keyPrefix hashing) = (.ok (),
    new ((db.insert (keyOf keyPrefix hashing p) (S.bytes x)).insert (keyOf keyPrefix hashing 0)
      (leBytes 8 (p + 1))) keyPrefix hashing) := by
    rw [DBCalls.store, Prog.bind_ok hput, Prog.liftM_eq, addBits_of_lt hlt, Prog.lift_ok_bind]
    refine (setMetadata_eq (Nat.succ_ne_zero p) hold).trans ?_
    rw [if_neg (by omega)]
  rw [put_step hp hwrite, Prog.bind_ok hstore, Prog.liftM_eq, addBits_of_lt hlt]
  rfl

theorem put_eq (h : Stores S keyPrefix hashing db log) {x : α} {n : ℕ}
    (hwrite : (S.write extend x []).1 = .ok n) (hroom : nextOf (log ++ [x]) < 2 ^ 64) :
    ∃ db', put S (nextOf log) x (new db keyPrefix hashing) =
        (.ok (nextOf (log ++ [x])), new db' keyPrefix hashing) ∧
      Stores S keyPrefix hashing db' (log ++ [x]) := by
  have hnext : nextOf (log ++ [x]) = nextOf log + 1 := by
    rw [nextOf, List.length_append, List.length_singleton]
  have hlt : log.length + 1 + 1 < 2 ^ 64 := by rwa [hnext] at hroom
  refine ⟨_, ?_, h.concat hroom⟩
  have hold : ∀ value ∈ (db.insert (keyOf keyPrefix hashing (nextOf log)) (S.bytes x)).lookup
      (keyOf keyPrefix hashing 0), value.length = 8 := by
    rw [Finmap.lookup_insert_of_ne _ (keyOf_ne (by decide) (Nat.lt_of_succ_lt hlt) (by omega))]
    exact (h.shows (Nat.lt_of_succ_lt hlt)).length_metadata
  rw [hnext]
  exact put_of_lt (Nat.succ_ne_zero _) hwrite hlt hold

/-- There is no number after the last one. -/
theorem put_full {x : α} {n : ℕ} (hwrite : (S.write extend x []).1 = .ok n)
    (hroom : ¬nextOf (log ++ [x]) < 2 ^ 64) :
    ∃ s, put S (nextOf log) x (new db keyPrefix hashing) = (Outcome.panic .overflow, s) := by
  have hnext : ¬nextOf log + 1 < 2 ^ 64 := by
    rwa [nextOf, List.length_append, List.length_singleton] at hroom
  refine ⟨new (db.insert (keyOf keyPrefix hashing (nextOf log)) (S.bytes x)) keyPrefix hashing, ?_⟩
  rw [put_step (Nat.succ_ne_zero _) hwrite, DBCalls.store, addBits, if_neg hnext]
  rfl

/-- **The cut**: the data from a number on are deleted, up to the first one that is missing. -/
theorem truncateFrom_eq (fuel : ℕ) {p e : ℕ} {db : DB} (hpe : p ≤ e) (he : e < 2 ^ 64)
    (hf : e - p < fuel) (hin : Filled keyPrefix hashing db p e)
    (hout : db.lookup (keyOf keyPrefix hashing e) = none) :
    ∃ db', truncateFrom fuel p (new db keyPrefix hashing) = (.ok (), new db' keyPrefix hashing) ∧
      Deletes keyPrefix hashing p e db db' := by
  induction fuel generalizing p db with
  | zero => exact absurd hf (Nat.not_lt_zero _)
  | succ fuel ih =>
    have hget : DBCalls.plain.get ((new db keyPrefix hashing).key p) (new db keyPrefix hashing) =
      (.ok (db.lookup (keyOf keyPrefix hashing p)), new db keyPrefix hashing) := rfl
    rw [truncateFrom, DBCalls.truncateFrom, Prog.bind_ok (DBCalls.plain_self _), Prog.bind_ok hget]
    rcases hpe.eq_or_lt with rfl | hlt
    · rw [hout]
      exact ⟨db, rfl, .nil p db⟩
    · obtain ⟨value, hvalue⟩ := Option.ne_none_iff_exists'.mp (hin p (Nat.le_refl p) hlt)
      have hout' : (db.erase (keyOf keyPrefix hashing p)).lookup (keyOf keyPrefix hashing e) =
          none := by
        rw [Finmap.lookup_erase_ne (keyOf_ne he (by omega) (by omega))]
        exact hout
      obtain ⟨db', h1, h2⟩ := ih hlt (by omega) (hin.erase he.le) hout'
      have hdelete : DBCalls.plain.delete ((new db keyPrefix hashing).key p)
          (new db keyPrefix hashing) =
        (.ok (), new (db.erase (keyOf keyPrefix hashing p)) keyPrefix hashing) := rfl
      refine ⟨db', ?_, h2.cons hlt he.le⟩
      rw [hvalue]
      simp only [Prog.liftM_eq]
      rw [Prog.bind_ok hdelete, addBits_of_lt (by omega), Prog.lift_ok_bind]
      exact h1

/-- There are as many keys as there are data, at least. -/
theorem card_keys_ge {p e : ℕ} (he : e ≤ 2 ^ 64) (hin : Filled keyPrefix hashing db p e) :
    e - p ≤ db.keys.card := by
  have hinj : Set.InjOn (keyOf keyPrefix hashing) (Finset.Ico p e : Set ℕ) := by
    intro q hq q' hq' heq
    rw [Finset.coe_Ico, Set.mem_Ico] at hq hq'
    exact createKey_inj (by omega) (by omega) heq
  have hsub : (Finset.Ico p e).image (keyOf keyPrefix hashing) ⊆ db.keys := by
    intro key hkey
    obtain ⟨q, hq, rfl⟩ := Finset.mem_image.mp hkey
    rw [Finset.mem_Ico] at hq
    rw [Finmap.mem_keys]
    by_contra hcon
    exact hin q hq.1 hq.2 (Finmap.lookup_eq_none.mpr hcon)
  have hcard := Finset.card_le_card hsub
  rwa [Finset.card_image_of_injOn hinj, Nat.card_Ico] at hcard

/-- A `truncate`, as far as the loop, in a database that shows where the log ends. -/
theorem truncate_step (hmeta : db.lookup (keyOf keyPrefix hashing 0) =
      if log.length = 0 then none else some (leBytes 8 (nextOf log)))
    (hroom : nextOf log < 2 ^ 64) {p : ℕ} (hp : p ≠ 0) (hlog : p ≤ log.length) :
    truncate p (new db keyPrefix hashing) = (do
      truncateFrom (db.keys.card + 1) p
      setMetadata p
      return true : Run RocksDBStorage Bool) (new db keyPrefix hashing) := by
  have hnext : DBCalls.plain.getMetadata (new db keyPrefix hashing) =
      (.ok (some (nextOf log)), new db keyPrefix hashing) :=
    (getMetadata_eq hmeta hroom).trans (by rw [if_neg (by omega)])
  rw [truncate, DBCalls.truncate, Prog.liftM_eq, debugAssert_of hp, Prog.lift_ok_bind]
  change DBCalls.plain.cut p (new db keyPrefix hashing) = _
  rw [DBCalls.cut, Prog.bind_ok hnext]
  simp only [Prog.liftM_eq]
  rw [debugAssert_of (show nextOf log ≠ 0 from Nat.succ_ne_zero _), Prog.lift_ok_bind,
    if_pos (show p < nextOf log from Nat.lt_succ_of_le hlog),
    Prog.bind_ok (DBCalls.plain_self _)]
  rfl

/-- What is cut off, up to the first number without a datum, and what is noted afterwards. -/
theorem truncate_eq (hmeta : db.lookup (keyOf keyPrefix hashing 0) =
      if log.length = 0 then none else some (leBytes 8 (nextOf log)))
    (hroom : nextOf log < 2 ^ 64) {k e : ℕ} (hk : k < log.length) (hke : k + 1 ≤ e)
    (he : e < 2 ^ 64) (hin : Filled keyPrefix hashing db (k + 1) e)
    (hout : db.lookup (keyOf keyPrefix hashing e) = none) :
    ∃ db', truncate (k + 1) (new db keyPrefix hashing) = (.ok true,
        new (if k + 1 = 1 then db'.erase (keyOf keyPrefix hashing 0)
          else db'.insert (keyOf keyPrefix hashing 0) (leBytes 8 (k + 1))) keyPrefix hashing) ∧
      Deletes keyPrefix hashing (k + 1) e db db' := by
  obtain ⟨db', h1, h2⟩ := truncateFrom_eq (db.keys.card + 1) hke he
    (Nat.lt_succ_of_le (card_keys_ge he.le hin)) hin hout
  have hold : ∀ value ∈ db'.lookup (keyOf keyPrefix hashing 0), value.length = 8 := by
    rw [h2.kept _ fun q h3 h4 => keyOf_ne (by decide) (by omega) (by omega), hmeta,
      if_neg (by omega)]
    intro value hvalue
    rw [← Option.mem_some.mp hvalue, length_leBytes]
  refine ⟨db', ?_, h2⟩
  rw [truncate_step (p := k + 1) hmeta hroom (Nat.succ_ne_zero k) hk, Prog.bind_ok h1,
    Prog.bind_ok (setMetadata_eq (Nat.succ_ne_zero k) hold)]
  rfl

theorem truncate_take (h : Stores S keyPrefix hashing db log) (hroom : nextOf log < 2 ^ 64) {k : ℕ}
    (hk : k < log.length) : ∃ db', truncate (k + 1) (new db keyPrefix hashing) =
        (.ok true, new db' keyPrefix hashing) ∧ Stores S keyPrefix hashing db' (log.take k) := by
  have hlt : log.length + 1 < 2 ^ 64 := hroom
  have hin : Filled keyPrefix hashing db (k + 1) (log.length + 1) := by
    intro q h1 h2
    rw [h.data q (by omega) (by omega), List.getElem?_eq_getElem (by omega)]
    exact Option.some_ne_none _
  have hout : db.lookup (keyOf keyPrefix hashing (log.length + 1)) = none := by
    rw [h.data _ (by omega) hlt, List.getElem?_eq_none (by omega)]
    rfl
  obtain ⟨db', h1, h2⟩ := truncate_eq h.metadata hroom hk (by omega) hlt hin hout
  exact ⟨_, h1, h.take hroom hk h2⟩

theorem truncate_none (h : Stores S keyPrefix hashing db log) (hroom : nextOf log < 2 ^ 64) {p : ℕ}
    (hp : 1 ≤ p) (hlog : ¬p ≤ log.length) :
    truncate p (new db keyPrefix hashing) = (.ok false, new db keyPrefix hashing) := by
  have hnext : DBCalls.plain.getMetadata (new db keyPrefix hashing) =
      (.ok (if log.length = 0 then none else some (nextOf log)), new db keyPrefix hashing) :=
    getMetadata_eq h.metadata hroom
  rw [truncate, DBCalls.truncate, Prog.liftM_eq, debugAssert_of (show p ≠ 0 by omega),
    Prog.lift_ok_bind]
  change DBCalls.plain.cut p (new db keyPrefix hashing) = _
  rw [DBCalls.cut, Prog.bind_ok hnext]
  by_cases h0 : log.length = 0
  · rw [if_pos h0]
    rfl
  · rw [if_neg h0]
    simp only [Prog.liftM_eq]
    rw [debugAssert_of (show nextOf log ≠ 0 from Nat.succ_ne_zero _), Prog.lift_ok_bind,
      if_neg (show ¬p < nextOf log by rw [nextOf]; omega)]
    rfl

theorem Stores.lookup_none (h : Stores S keyPrefix hashing db log) {p : ℕ} (hp : 1 ≤ p)
    (hlt : p < 2 ^ 64) (hlog : ¬p ≤ log.length) : db.lookup (keyOf keyPrefix hashing p) = none := by
  rw [h.data p hp hlt, List.getElem?_eq_none (by omega)]
  rfl

theorem first_eq (h : Stores S keyPrefix hashing db log) (hroom : nextOf log < 2 ^ 64)
    (hread : ∀ (k : ℕ) (hk : k < log.length), fromValue S (S.bytes log[k]) (k + 1) = .ok log[k]) :
    first S (new db keyPrefix hashing) =
      (.ok (log.head?, 1), new db keyPrefix hashing) := by
  have hget : DBCalls.plain.get ((new db keyPrefix hashing).key 1) (new db keyPrefix hashing) =
    (.ok (db.lookup (keyOf keyPrefix hashing 1)), new db keyPrefix hashing) := rfl
  rw [first, DBCalls.first, Prog.bind_ok (DBCalls.plain_self _),
    Prog.bind_ok (DBCalls.plain_lockRead _), Prog.bind_ok hget, List.head?_eq_getElem?]
  by_cases h0 : 0 < log.length
  · rw [(h.shows hroom).data 0 h0, List.getElem?_eq_getElem h0]
    simp only [Prog.liftM_eq]
    rw [hread 0 h0, Prog.lift_ok_bind]
    rfl
  · rw [h.lookup_none (Nat.le_refl 1) (by decide) (by omega), List.getElem?_eq_none (by omega)]
    rfl

theorem last_eq (h : Shows S keyPrefix hashing db log) (hroom : nextOf log < 2 ^ 64)
    (hread : ∀ (k : ℕ) (hk : k < log.length), fromValue S (S.bytes log[k]) (k + 1) = .ok log[k]) :
    last S (new db keyPrefix hashing) =
      (.ok (log.getLast?, nextOf log), new db keyPrefix hashing) := by
  have hnext : DBCalls.plain.getMetadata (new db keyPrefix hashing) =
      (.ok (if log.length = 0 then none else some (nextOf log)), new db keyPrefix hashing) :=
    getMetadata_eq h.metadata hroom
  rw [last, DBCalls.last, Prog.bind_ok (DBCalls.plain_lockRead _), Prog.bind_ok hnext]
  rcases Nat.eq_zero_or_pos log.length with h0 | h0
  · rw [if_pos h0, List.length_eq_zero_iff.mp h0]
    rfl
  · obtain ⟨k, hk⟩ : ∃ k, log.length = k + 1 := Nat.exists_eq_succ_of_ne_zero h0.ne'
    have hk' : k < log.length := by omega
    have hlast : log.getLast? = some log[k] := by
      rw [List.getLast?_eq_getElem?, show log.length - 1 = k by omega, List.getElem?_eq_getElem hk']
    have hsub : subBits (nextOf log) 1 = (.ok (k + 1) : Result ℕ) := by
      rw [subBits_of_le (Nat.le_add_left 1 _)]
      exact congrArg _ (by omega)
    have hget : DBCalls.plain.get ((new db keyPrefix hashing).key (k + 1))
        (new db keyPrefix hashing) =
      (.ok (db.lookup (keyOf keyPrefix hashing (k + 1))), new db keyPrefix hashing) := rfl
    rw [if_neg h0.ne']
    simp only [Prog.liftM_eq, hsub]
    rw [Prog.lift_ok_bind, Prog.bind_ok (DBCalls.plain_self _), Prog.bind_ok hget,
      h.data k hk']
    simp only
    rw [Prog.lift_ok_bind, hread k hk', Prog.lift_ok_bind, hlast]
    rfl

/-- Reading a datum, as far as its value. -/
theorem read_step (p : Position) (s : RocksDBStorage) : read S p s =
    ((match s.db.lookup (s.key p) with
      | some value => Prog.lift (fromValue S value p)
      | none => Prog.err (keyNotFound (s.key p) p) : Run RocksDBStorage α) s) := rfl

theorem read_some (h : Shows S keyPrefix hashing db log)
    (hread : ∀ (k : ℕ) (hk : k < log.length), fromValue S (S.bytes log[k]) (k + 1) = .ok log[k])
    {k : ℕ} (hk : k < log.length) :
    read S (k + 1) (new db keyPrefix hashing) = (.ok log[k], new db keyPrefix hashing) := by
  have hlookup : (new db keyPrefix hashing).db.lookup ((new db keyPrefix hashing).key (k + 1)) =
    some (S.bytes log[k]) := h.data k hk
  rw [read_step, hlookup]
  simp only [hread k hk]
  rfl

theorem read_none {p : ℕ} (h : db.lookup (keyOf keyPrefix hashing p) = none) :
    read S p (new db keyPrefix hashing) =
      (.error (.err (keyNotFound (keyOf keyPrefix hashing p) p)), new db keyPrefix hashing) := by
  have hlookup : (new db keyPrefix hashing).db.lookup ((new db keyPrefix hashing).key p) = none := h
  rw [read_step, hlookup]
  rfl

/-- A scan ends where there is no datum. -/
theorem scanFrom_none {p : ℕ} (h : db.lookup (keyOf keyPrefix hashing p) = none) (count : ℕ)
    (callback : ScanFn α κ) (a : κ) :
    scanFrom S callback count p (a, new db keyPrefix hashing) =
      (.ok 0, (a, new db keyPrefix hashing)) := by
  cases count with
  | zero => rfl
  | succ count =>
    have hself : (Prog.onSnd DBCalls.plain.self : Run (κ × RocksDBStorage) _)
      (a, new db keyPrefix hashing) = (.ok (new db keyPrefix hashing), (a, _)) := rfl
    have hget : (Prog.onSnd (DBCalls.plain.get (keyOf keyPrefix hashing p)) :
        Run (κ × RocksDBStorage) _) (a, new db keyPrefix hashing) = (.ok none, (a, _)) :=
      congrArg (fun value => (Except.ok value, (a, new db keyPrefix hashing))) h
    rw [scanFrom, DBCalls.scanFrom, Prog.bind_ok hself]
    exact Prog.bind_ok hget

/-- **A scan passes a datum on**, and those behind it. -/
theorem scanFrom_cons {p count : ℕ} {value : Bytes} {data : α} {xs : List α}
    (hlookup : db.lookup (keyOf keyPrefix hashing p) = some value)
    (hdata : fromValue S value p = .ok data) (hp : p + 1 < 2 ^ 64) (callback : ScanFn α κ)
    (hrest : ∀ b, scanFrom S callback count (p + 1) (b, new db keyPrefix hashing) =
      Prog.onFst (scanList callback xs) (b, new db keyPrefix hashing)) (a : κ) :
    scanFrom S callback (count + 1) p (a, new db keyPrefix hashing) =
      Prog.onFst (scanList callback (data :: xs)) (a, new db keyPrefix hashing) := by
  have hself : (Prog.onSnd DBCalls.plain.self : Run (κ × RocksDBStorage) _)
    (a, new db keyPrefix hashing) = (.ok (new db keyPrefix hashing), (a, _)) := rfl
  have hget : (Prog.onSnd (DBCalls.plain.get (keyOf keyPrefix hashing p)) :
      Run (κ × RocksDBStorage) _) (a, new db keyPrefix hashing) = (.ok (some value), (a, _)) :=
    congrArg (fun value => (Except.ok value, (a, new db keyPrefix hashing))) hlookup
  rw [scanFrom, DBCalls.scanFrom, Prog.bind_ok hself]
  refine (Prog.bind_ok hget).trans ?_
  simp only [Prog.liftM_eq]
  rw [hdata, Prog.lift_ok_bind, Prog.bind_ok (Prog.get_run _)]
  rcases hcb : callback data a with ⟨e | _, b⟩
  · simp only [Prog.onFst, scanList, hcb]
    rfl
  · have hrest' : DBCalls.plain.scanFrom S callback count (p + 1) (b, new db keyPrefix hashing) =
      Prog.onFst (scanList callback xs) (b, new db keyPrefix hashing) := hrest b
    simp only
    rw [Prog.bind_ok (Prog.set_run _ _), addBits_of_lt hp, Prog.lift_ok_bind, Prog.bind_run,
      hrest']
    simp only [Prog.onFst, scanList, hcb]
    rcases (scanList callback xs b).1 with e | r
    · rfl
    · rfl

/-- A scan of the database passes the data of the log on. -/
theorem scanFrom_eq (h : Stores S keyPrefix hashing db log) (hroom : nextOf log < 2 ^ 64)
    (hread : ∀ (k : ℕ) (hk : k < log.length), fromValue S (S.bytes log[k]) (k + 1) = .ok log[k])
    (callback : ScanFn α κ) : ∀ (count k : ℕ) (a : κ), k ≤ log.length →
      scanFrom S callback count (k + 1) (a, new db keyPrefix hashing) =
        Prog.onFst (scanList callback ((log.drop k).take count)) (a, new db keyPrefix hashing)
  | 0, k, a, _ => by
    rw [List.take_zero]
    rfl
  | count + 1, k, a, hk => by
    have hlt : log.length + 1 < 2 ^ 64 := hroom
    rcases Nat.lt_or_ge k log.length with hk' | hk'
    · rw [List.drop_eq_getElem_cons hk', List.take_succ_cons]
      exact scanFrom_cons ((h.shows hroom).data k hk') (hread k hk') (by omega) callback
        (fun b => scanFrom_eq h hroom hread callback count (k + 1) b (by omega)) a
    · rw [List.drop_of_length_le hk', List.take_nil]
      exact scanFrom_none (h.lookup_none (Nat.le_add_left 1 k) (by omega) (by omega)) _ callback a

theorem scan_none (h : Stores S keyPrefix hashing db log) {p : ℕ} (hp : 1 ≤ p) (hlt : p < 2 ^ 64)
    (hlog : ¬p ≤ log.length) (count : ℕ) (callback : ScanFn α κ) (a : κ) :
    scanFrom S callback count p (a, new db keyPrefix hashing) =
      (.ok 0, (a, new db keyPrefix hashing)) :=
  scanFrom_none (h.lookup_none hp hlt hlog) count callback a

end Programs

end Stores

/-! ### The storage keeps a log -/

section Log

variable {S : Serializable α} {Placed : Position → α → Prop} {log : List α}

/-- Data that are placed can be read under their numbers. -/
theorem read_laid (hS : S.RoundTrips Placed)
    (hlaid : ∀ k (h : k < log.length), Placed (nextOf (log.take k)) log[k]) (k : ℕ)
    (hk : k < log.length) : fromValue S (S.bytes log[k]) (k + 1) = .ok log[k] := by
  have h1 := hlaid k hk
  rw [nextOf, List.length_take_of_le (Nat.le_of_lt hk)] at h1
  exact hS.read_ok h1

theorem nextOf_take_lt (hroom : nextOf log < 2 ^ 64) (k : ℕ) : nextOf (log.take k) < 2 ^ 64 := by
  have h1 : log.length + 1 < 2 ^ 64 := hroom
  show (log.take k).length + 1 < 2 ^ 64
  rw [List.length_take]
  omega

/-- Cutting the database of a log. -/
theorem truncate_dbOf (S : Serializable α) (keyPrefix : Bytes) (hashing : Bool)
    (hroom : nextOf log < 2 ^ 64) {k : ℕ} (hk : k < log.length) :
    truncate (k + 1) (new (dbOf S keyPrefix hashing log) keyPrefix hashing) =
      (.ok true, new (dbOf S keyPrefix hashing (log.take k)) keyPrefix hashing) := by
  have hstores : Stores S keyPrefix hashing (dbOf S keyPrefix hashing log) log := stores_dbOf hroom
  obtain ⟨db', h1, h2⟩ := truncate_take hstores hroom hk
  rw [h2.unique (stores_dbOf (nextOf_take_lt hroom k))] at h1
  exact h1

/-- **The storage on a database represents a log.** -/
def logStorage (hS : S.RoundTrips Placed) (keyPrefix : Bytes) (hashing : Bool) :
    LogStorage α Placed where
  toStorage := rocksDB S
  fresh := new ∅ keyPrefix hashing
  reopen self := new self.db keyPrefix hashing
  render log := new (dbOf S keyPrefix hashing log) keyPrefix hashing
  endPos := nextOf
  Room log := nextOf log < 2 ^ 64
  room_nil := show 0 + 1 < 2 ^ 64 by decide
  room_take k h := nextOf_take_lt h k
  room_length h := h
  endPos_lt h := h
  last_fresh := by
    have hroom : nextOf ([] : List α) < 2 ^ 64 := show 0 + 1 < 2 ^ 64 by decide
    exact last_eq ((stores_dbOf hroom).shows hroom) hroom fun k hk => absurd hk (Nat.not_lt_zero k)
  last_reopen hroom hlaid := last_eq ((stores_dbOf hroom).shows hroom) hroom (read_laid hS hlaid)
  put_room {log x} hroom hx hroom' := by
    obtain ⟨n, hwrite⟩ := hS.write_ok hx
    obtain ⟨db', h1, h2⟩ := put_eq (stores_dbOf (S := S) hroom) hwrite hroom'
    rw [← h2.unique (stores_dbOf hroom')]
    exact h1
  put_full {log x} _ hx hfull := by
    obtain ⟨n, hwrite⟩ := hS.write_ok hx
    have h1 : ∃ s, put S (nextOf log) x (new (dbOf S keyPrefix hashing log) keyPrefix hashing) =
      (Outcome.panic .overflow, s) := put_full hwrite hfull
    obtain ⟨s, h1⟩ := h1
    exact ⟨_, s, h1, Or.inl ⟨.overflow, rfl⟩⟩
  truncate_render {log k} hroom hlaid hk := by
    have hroom' := nextOf_take_lt hroom k
    refine ⟨_, ?_, last_eq ((stores_dbOf hroom').shows hroom') hroom'
      (read_laid hS (laid_take hlaid k))⟩
    rw [nextOf, List.length_take_of_le (Nat.le_of_lt hk)]
    exact truncate_dbOf S keyPrefix hashing hroom hk
  reader_render := rfl
  read_render {log k} hk hroom hlaid := by
    rw [nextOf, List.length_take_of_le (Nat.le_of_lt hk)]
    exact read_some ((stores_dbOf hroom).shows hroom) (read_laid hS hlaid) hk
  scan_render {log k} count {κ} callback a hk hroom hlaid := by
    rw [nextOf, List.length_take_of_le (Nat.le_of_lt hk)]
    exact scanFrom_eq (stores_dbOf hroom) hroom (read_laid hS hlaid) callback count k a
      (Nat.le_of_lt hk)

theorem numbered (hS : S.RoundTrips Placed) (keyPrefix : Bytes) (hashing : Bool) :
    (logStorage hS keyPrefix hashing).Numbered 1 where
  endPos_eq _ := rfl
  room_iff := Iff.rfl
  last_render hroom hlaid := last_eq ((stores_dbOf hroom).shows hroom) hroom (read_laid hS hlaid)
  truncate_take hroom _ hk := truncate_dbOf S keyPrefix hashing hroom hk
  truncate_none hroom _ hp _ h :=
    truncate_none (stores_dbOf hroom) hroom hp fun h1 => h ⟨hp, h1⟩
  read_none hroom _ hp hlt h :=
    ⟨_, read_none ((stores_dbOf hroom).lookup_none hp hlt fun h1 => h ⟨hp, h1⟩)⟩
  scan_none {_ _} count {_} callback a hroom _ hp hlt h :=
    scan_none (stores_dbOf hroom) hp hlt (fun h1 => h ⟨hp, h1⟩) count callback a

/-- The request for the first datum. -/
theorem ask_first (hS : S.RoundTrips Placed) {keyPrefix : Bytes} {hashing : Bool}
    {s : RocksDBStorage} (h : LogStorage.Numbered.Keeps (logStorage hS keyPrefix hashing) s log) :
    ((rocksDB S).ask (.first : Request α κ) s).1 = (serve nextOf (.first : Request α κ) log).1 ∧
      LogStorage.Numbered.Keeps (logStorage hS keyPrefix hashing)
        ((rocksDB S).ask (.first : Request α κ) s).2
        (serve nextOf (.first : Request α κ) log).2 := by
  obtain ⟨rfl, hroom, hlaid⟩ := h
  have h1 : first S (new (dbOf S keyPrefix hashing log) keyPrefix hashing) =
      (.ok (log.head?, 1), new (dbOf S keyPrefix hashing log) keyPrefix hashing) :=
    first_eq (stores_dbOf hroom) hroom (read_laid hS hlaid)
  have h2 : (rocksDB S).ask (.first : Request α κ) ((logStorage hS keyPrefix hashing).render log) =
      (.datum (.ok (log.head?, 1)), (logStorage hS keyPrefix hashing).render log) :=
    congrArg (fun x => (Reply.plain (.datum x.1), x.2)) h1
  rw [h2]
  exact ⟨rfl, rfl, hroom, hlaid⟩

/-- **The storage on a database keeps a log**: in every run on an empty database that puts data
under the next number and asks for numbers from one on, the replies are those of the log, and
afterwards the database is the one of the log. The key of the next number is no datum's. -/
theorem database_keeps_log (hS : S.RoundTrips Placed) (keyPrefix : Bytes) (hashing : Bool)
    {requests : List (Request α κ)} (h : Always (serve nextOf) (Numbers Placed 1) requests []) :
    (runAll (rocksDB S).ask requests (new ∅ keyPrefix hashing)).1 =
        (runAll (serve nextOf) requests []).1 ∧
      (∃ db, (runAll (rocksDB S).ask requests (new ∅ keyPrefix hashing)).2 =
          new db keyPrefix hashing ∧
        Stores S keyPrefix hashing db (runAll (serve nextOf) requests []).2) ∧
      ∀ q : ℕ, 1 ≤ q → q < 2 ^ 64 →
        createKey q hashing keyPrefix ≠ (new ∅ keyPrefix hashing).keyForMetadata := by
  have hnew : LogStorage.Numbered.Keeps (logStorage hS keyPrefix hashing)
      (new ∅ keyPrefix hashing) [] := ⟨rfl, LogStorage.room_nil _, fun k hk => absurd hk (by simp)⟩
  have hstep : ∀ (request : Request α κ) (s : RocksDBStorage) (log : List α),
      LogStorage.Numbered.Keeps (logStorage hS keyPrefix hashing) s log →
      Numbers Placed 1 request log →
        ((rocksDB S).ask request s).1 = (serve nextOf request log).1 ∧
          LogStorage.Numbered.Keeps (logStorage hS keyPrefix hashing)
            ((rocksDB S).ask request s).2 (serve nextOf request log).2 := by
    intro request s log hs hrequest
    by_cases hne : request = .first
    · subst hne
      exact ask_first hS hs
    · exact (numbered hS keyPrefix hashing).ask_of_ne_first hs hrequest hne
  obtain ⟨h1, h2⟩ := runAll_eq hstep requests _ _ hnew h
  exact ⟨h1, ⟨_, h2.state_eq, stores_dbOf h2.room⟩,
    fun q hq1 hq2 => keyOf_ne hq2 (by decide) (by omega)⟩

/-- The entries of a slate with two empty payloads, under their numbers. -/
def entryNumber (i : ℕ) : Entry 1 :=
  entryOf (Backend.memKVS (w := 1)).log byteSum (payload [[], []]) i

theorem placed_entryNumber {i : ℕ} (h1 : 1 ≤ i) (h2 : i ≤ 2) : (entryNumber i).Placed i := by
  have hfits : Backend.memKVS.Holds byteSum [[], []] :=
    holds_of_length_lt _ (by decide) (by decide)
  have hpos : positionOf (Backend.memKVS (w := 1)).log byteSum (payload [[], []]) i = i := by
    change (history _ _ _ (i - 1)).length + 1 = i
    rw [length_history, Nat.sub_add_cancel h1]
  have h3 := hfits.placed h1 (h2.trans (Nat.le_succ 2)) (hfits.payload_le i h1 h2)
  rwa [hpos] at h3

/-- Puts two entries under scrambled numbers, deletes the second one, and asks for the last. -/
def scrambledRun : List (Request (Entry 1) Unit) :=
  [.put 1 (entryNumber 1), .put 2 (entryNumber 2), .truncate 2, .last]

theorem database_keeps_log_scrambledRun :
    (runAll (rocksDB Entry.serializable).ask scrambledRun (new ∅ [] true)).1 =
        (runAll (serve nextOf) scrambledRun []).1 ∧
      (∃ db, (runAll (rocksDB Entry.serializable).ask scrambledRun (new ∅ [] true)).2 =
          new db [] true ∧
        Stores Entry.serializable [] true db (runAll (serve nextOf) scrambledRun []).2) ∧
      ∀ q : ℕ, 1 ≤ q → q < 2 ^ 64 → createKey q true [] ≠ (new ∅ [] true).keyForMetadata :=
  database_keeps_log (Entry.roundTrips (by decide)) [] true
    ⟨⟨rfl, placed_entryNumber (by decide) (by decide), by decide⟩,
      ⟨rfl, placed_entryNumber (by decide) (by decide), by decide⟩, ⟨by decide, by decide⟩,
      trivial, trivial⟩

end Log

end RocksDBStorage

end StratifiedHashTree
