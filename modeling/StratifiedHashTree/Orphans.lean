import StratifiedHashTree.FailingDB
import StratifiedHashTree.Tenants

/-!
# Databases with a datum behind the log

A `put` stores a datum and then the next number. When it gets no further than the datum, the
datum stays: there is something under the next number, and the storage does not count it. Nobody
will look for it there. The next `put` replaces it, and a `truncate`, which deletes data as long as
there are any, takes it along (`StratifiedHashTree.RocksDBStorage.Trails`).

There is never more than one of these, for as long as the number is not stored it is the same one
that is tried again. So such a database hosts a log like any other
(`StratifiedHashTree.RocksDBStorage.trailing`).
-/

namespace StratifiedHashTree

open Outcome AppendLog

variable {w : ℕ}

namespace RocksDBStorage

variable {α κ : Type} {S : Serializable α} {P : Bytes} {hashing : Bool} {db db' : DB}
  {log : List α} {st : RocksDBStorage}

/-! ### Changing what is shown -/

/-- Storing a datum more, and the next number. -/
theorem Shows.concat (h : Shows S P hashing db log) {x : α}
    (hroom : nextOf (log ++ [x]) < 2 ^ 64) : Shows S P hashing
      ((db.insert (keyOf P hashing (nextOf log)) (S.bytes x)).insert (keyOf P hashing 0)
        (leBytes 8 (nextOf (log ++ [x])))) (log ++ [x]) where
  data k hk := by
    have hroom' : log.length + 1 + 1 < 2 ^ 64 := by
      rwa [nextOf, List.length_append, List.length_singleton] at hroom
    have hk' : k < log.length + 1 := by rwa [List.length_append, List.length_singleton] at hk
    rw [Finmap.lookup_insert_of_ne _ (keyOf_ne (by omega) (by decide) (Nat.succ_ne_zero k))]
    by_cases hlast : k = log.length
    · subst hlast
      rw [nextOf, Finmap.lookup_insert, List.getElem_concat_length rfl]
    · rw [Finmap.lookup_insert_of_ne _ (keyOf_ne (by omega) (Nat.lt_of_succ_lt hroom') (by omega)),
        h.data k (by omega), List.getElem_append_left]
  metadata := by
    rw [Finmap.lookup_insert, if_neg (by rw [List.length_append, List.length_singleton]; omega)]

/-- Deleting the data from a number on. -/
theorem Shows.take (h : Shows S P hashing db log) (hroom : nextOf log < 2 ^ 64) {k e : ℕ}
    (hk : k < log.length) (he : e ≤ 2 ^ 64) (hdb : Deletes P hashing (k + 1) e db db') :
    Shows S P hashing (if k + 1 = 1 then db'.erase (keyOf P hashing 0)
      else db'.insert (keyOf P hashing 0) (leBytes 8 (k + 1))) (log.take k) where
  data i hi := by
    have hlt : log.length + 1 < 2 ^ 64 := hroom
    rw [List.length_take] at hi
    have hdata : db'.lookup (keyOf P hashing (i + 1)) = some (S.bytes (log.take k)[i]) := by
      rw [hdb.kept _ fun q h1 h2 => keyOf_ne (by omega) (by omega) (by omega), h.data i (by omega),
        List.getElem_take]
    have hne : keyOf P hashing (i + 1) ≠ keyOf P hashing 0 :=
      keyOf_ne (by omega) (by decide) (Nat.succ_ne_zero i)
    by_cases hzero : k + 1 = 1
    · rw [if_pos hzero, Finmap.lookup_erase_ne hne, hdata]
    · rw [if_neg hzero, Finmap.lookup_insert_of_ne _ hne, hdata]
  metadata := by
    rw [nextOf, List.length_take_of_le hk.le]
    by_cases hzero : k + 1 = 1
    · rw [if_pos hzero, if_pos (by omega), Finmap.lookup_erase]
    · rw [if_neg hzero, if_neg (by omega), Finmap.lookup_insert]

/-- A scan within the log passes its data on. -/
theorem Shows.scanFrom (h : Shows S P hashing db log) (hroom : nextOf log < 2 ^ 64)
    (hread : ∀ (k : ℕ) (hk : k < log.length), fromValue S (S.bytes log[k]) (k + 1) = .ok log[k])
    (callback : ScanFn α κ) : ∀ (count k : ℕ) (a : κ), k + count ≤ log.length →
      scanFrom S callback count (k + 1) (a, new db P hashing) =
        Prog.onFst (scanList callback ((log.drop k).take count)) (a, new db P hashing)
  | 0, k, a, _ => by
    rw [List.take_zero]
    rfl
  | count + 1, k, a, hk => by
    have hlt : log.length + 1 < 2 ^ 64 := hroom
    have hk' : k < log.length := by omega
    rw [List.drop_eq_getElem_cons hk', List.take_succ_cons]
    exact scanFrom_cons (h.data k hk') (hread k hk') (by omega) callback
      (fun b => Shows.scanFrom h hroom hread callback count (k + 1) b (by omega)) a

/-! ### A log and maybe a datum -/

/-- **A database that shows a log, and maybe one datum behind it** that is not counted. -/
structure Trails (S : Serializable α) (P : Bytes) (hashing : Bool) (db : DB) (log : List α) :
    Prop where
  shows : Shows S P hashing db log
  behind : ∀ q : ℕ, log.length < q → q < 2 ^ 64 → db.lookup (keyOf P hashing q) ≠ none →
    q = nextOf log ∧ q + 1 < 2 ^ 64

namespace Trails

/-- A database that has nothing behind the prefix. -/
theorem nil (hdb : ∀ key ∈ region P, db.lookup key = none) : Trails S P hashing db [] where
  shows := ⟨fun k hk => absurd hk (Nat.not_lt_zero k), hdb _ (createKey_mem 0 hashing P)⟩
  behind q _ _ hne := absurd (hdb _ (createKey_mem q hashing P)) hne

/-- **The datum that a `put` leaves** when it goes no further. -/
theorem insert (h : Trails S P hashing db log) (hroom : nextOf log + 1 < 2 ^ 64) (value : Bytes) :
    Trails S P hashing (db.insert (keyOf P hashing (nextOf log)) value) log where
  shows := h.shows.insert (Nat.lt_of_succ_lt hroom) value
  behind q h1 h2 hne := by
    by_cases hq : q = nextOf log
    · exact ⟨hq, by rwa [hq]⟩
    · rw [Finmap.lookup_insert_of_ne _ (keyOf_ne h2 (Nat.lt_of_succ_lt hroom) hq)] at hne
      exact h.behind q h1 h2 hne

/-- The datum, and the next number. -/
theorem concat (h : Trails S P hashing db log) {x : α} (hroom : nextOf (log ++ [x]) < 2 ^ 64) :
    Trails S P hashing ((db.insert (keyOf P hashing (nextOf log)) (S.bytes x)).insert
      (keyOf P hashing 0) (leBytes 8 (nextOf (log ++ [x])))) (log ++ [x]) where
  shows := h.shows.concat hroom
  behind q h1 h2 hne := by
    have hroom' : log.length + 1 + 1 < 2 ^ 64 := by
      rwa [nextOf, List.length_append, List.length_singleton] at hroom
    rw [List.length_append, List.length_singleton] at h1
    -- the number that could have been taken is the one that is taken now
    rw [Finmap.lookup_insert_of_ne _ (keyOf_ne h2 (by decide) (by omega)),
      Finmap.lookup_insert_of_ne _ (keyOf_ne h2 (Nat.lt_of_succ_lt hroom')
        (show q ≠ log.length + 1 by omega))] at hne
    have hq : q = log.length + 1 := (h.behind q (by omega) h2 hne).1
    omega

/-- Where the data end, counted or not. -/
theorem exists_end (h : Trails S P hashing db log) (hroom : nextOf log < 2 ^ 64) :
    ∃ e, log.length < e ∧ e < 2 ^ 64 ∧ Filled P hashing db 1 e ∧
      ∀ q : ℕ, e ≤ q → q < 2 ^ 64 → db.lookup (keyOf P hashing q) = none := by
  have hlt : log.length + 1 < 2 ^ 64 := hroom
  have hin : Filled P hashing db 1 (log.length + 1) := by
    intro q h1 h2
    have hdata := h.shows.data (q - 1) (by omega)
    rw [Nat.sub_add_cancel h1] at hdata
    rw [hdata]
    exact Option.some_ne_none _
  by_cases hnext : db.lookup (keyOf P hashing (log.length + 1)) = none
  · refine ⟨log.length + 1, Nat.lt_succ_self _, hlt, hin, fun q h1 h2 => ?_⟩
    by_contra hne
    have hq : q = log.length + 1 := (h.behind q h1 h2 hne).1
    rw [hq] at hne
    exact hne hnext
  · have hlt' : log.length + 1 + 1 < 2 ^ 64 := (h.behind _ (Nat.lt_succ_self _) hlt hnext).2
    refine ⟨log.length + 1 + 1, by omega, hlt', fun q h1 h2 => ?_, fun q h1 h2 => ?_⟩
    · rcases Nat.lt_succ_iff_lt_or_eq.mp h2 with h3 | rfl
      · exact hin q h1 h3
      · exact hnext
    · by_contra hne
      have hq : q = log.length + 1 := (h.behind q (by omega) h2 hne).1
      omega

/-- Deleting the data from a number on, counted or not. -/
theorem take (h : Trails S P hashing db log) (hroom : nextOf log < 2 ^ 64) {k e : ℕ}
    (hk : k < log.length) (he : e ≤ 2 ^ 64) (hdb : Deletes P hashing (k + 1) e db db')
    (hout : ∀ q : ℕ, e ≤ q → q < 2 ^ 64 → db.lookup (keyOf P hashing q) = none) :
    Trails S P hashing (if k + 1 = 1 then db'.erase (keyOf P hashing 0)
      else db'.insert (keyOf P hashing 0) (leBytes 8 (k + 1))) (log.take k) where
  shows := h.shows.take hroom hk he hdb
  behind q h1 h2 hne := by
    rw [List.length_take_of_le hk.le] at h1
    -- what is not deleted was not there
    have hnone : db'.lookup (keyOf P hashing q) = none := by
      by_cases hq : q < e
      · exact hdb.deleted q h1 hq
      · rw [hdb.kept _ fun q' h3 h4 => keyOf_ne h2 (by omega) (by omega)]
        exact hout q (Nat.le_of_not_lt hq) h2
    have hkey : keyOf P hashing q ≠ keyOf P hashing 0 := keyOf_ne h2 (by decide) (by omega)
    refine absurd ?_ hne
    by_cases hzero : k + 1 = 1
    · rw [if_pos hzero]
      exact (Finmap.lookup_erase_ne hkey).trans hnone
    · rw [if_neg hzero]
      exact (Finmap.lookup_insert_of_ne _ hkey).trans hnone

/-- **A `put` replaces the datum.** -/
theorem put_eq (h : Trails S P hashing db log) {x : α} {n : ℕ}
    (hwrite : (S.write extend x []).1 = .ok n) (hroom : nextOf (log ++ [x]) < 2 ^ 64) :
    ∃ db', put S (nextOf log) x (new db P hashing) =
        (.ok (nextOf (log ++ [x])), new db' P hashing) ∧ Trails S P hashing db' (log ++ [x]) := by
  have hnext : nextOf (log ++ [x]) = nextOf log + 1 := by
    rw [nextOf, List.length_append, List.length_singleton]
  have hlt : nextOf log + 1 < 2 ^ 64 := by rwa [hnext] at hroom
  have hold := (h.insert hlt (S.bytes x)).shows.length_metadata
  refine ⟨_, ?_, h.concat hroom⟩
  rw [hnext]
  exact put_of_lt (Nat.succ_ne_zero _) hwrite hlt hold

/-- **A `truncate` takes the datum along.** -/
theorem truncate_eq (h : Trails S P hashing db log) (hroom : nextOf log < 2 ^ 64) {k : ℕ}
    (hk : k < log.length) : ∃ db', truncate (k + 1) (new db P hashing) =
        (.ok true, new db' P hashing) ∧ Trails S P hashing db' (log.take k) := by
  obtain ⟨e, hlt, he, hin, hout⟩ := h.exists_end hroom
  obtain ⟨db', h1, h2⟩ := RocksDBStorage.truncate_eq h.shows.metadata hroom hk
    (show k + 1 ≤ e by omega) he (fun q hq1 hq2 => hin q (by omega) hq2) (hout e (Nat.le_refl e) he)
  exact ⟨_, h1, h.take hroom hk he.le h2 hout⟩

end Trails

/-- A storage on such a database. -/
def Trailing (S : Serializable α) (P : Bytes) (hashing : Bool) (log : List α)
    (st : RocksDBStorage) : Prop := ∃ db, st = new db P hashing ∧ Trails S P hashing db log

/-- **Such a storage hosts the log of the storage in memory.** -/
def trailing (hw : w ≤ 64) (P : Bytes) (hashing : Bool) : (Backend.memKVS (w := w)).log.Host where
  toStorage := rocksDB Entry.serializable
  reopen self := new self.db self.keyPrefix self.keyHashing
  Keeps := Trailing Entry.serializable P hashing
  last_reopen := by
    rintro log _ ⟨db, rfl, h⟩ hroom hlaid
    exact ⟨_, last_eq h.shows hroom (read_laid (Entry.roundTrips hw) hlaid), db, rfl, h⟩
  put_room := by
    rintro log _ x ⟨db, rfl, h⟩ - hx hroom
    obtain ⟨n, hwrite⟩ := (Entry.roundTrips hw).write_ok hx
    obtain ⟨db', h1, h2⟩ := h.put_eq hwrite hroom
    exact ⟨_, h1, db', rfl, h2⟩
  truncate_last := by
    rintro log _ k ⟨db, rfl, h⟩ hroom hlaid hk
    obtain ⟨db', h1, h2⟩ := h.truncate_eq hroom hk
    have hpos : nextOf (log.take k) = k + 1 := by rw [nextOf, List.length_take_of_le hk.le]
    refine ⟨_, _, ?_, last_eq h2.shows (nextOf_take_lt hroom k)
      (read_laid (Entry.roundTrips hw) (laid_take hlaid k)), db', rfl, h2⟩
    change truncate (nextOf (log.take k)) (new db P hashing) = _
    rw [hpos]
    exact h1
  reader_keeps _ := rfl
  read_keeps := by
    rintro log _ k hk ⟨db, rfl, h⟩ hroom hlaid
    have hpos : nextOf (log.take k) = k + 1 := by rw [nextOf, List.length_take_of_le hk.le]
    change read Entry.serializable (nextOf (log.take k)) (new db P hashing) = _
    rw [hpos]
    exact read_some h.shows (read_laid (Entry.roundTrips hw) hlaid) hk
  scan_keeps := by
    rintro log _ k count κ callback a hk hcount ⟨db, rfl, h⟩ hroom hlaid
    have hpos : nextOf (log.take k) = k + 1 := by rw [nextOf, List.length_take_of_le hk.le]
    change scanFrom Entry.serializable callback count (nextOf (log.take k))
      (a, new db P hashing) = _
    rw [hpos]
    exact h.shows.scanFrom hroom (read_laid (Entry.roundTrips hw) hlaid) callback count k a hcount
  full_panics := Backend.memKVS_panicsWhenFull

end RocksDBStorage

end StratifiedHashTree
