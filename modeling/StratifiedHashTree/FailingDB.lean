import StratifiedHashTree.Database

/-!
# Calls of the database that fail

`RocksDBStorage` on a database one call of which fails. A call that fails has no effect; the
storage hands the error on and leaves everything as the calls before it made it. A `put` and a
`truncate` are several calls, and none of them is taken back.

A `put` stores the datum first and the next number after it, and until the number is stored
nobody looks for the datum. A `truncate` does it in the same order, where it is the wrong one: as
soon as one datum is deleted and as long as the number is the old one, the storage shows a log
that it does not have. So a `truncate` that fails has to fail before the first datum is gone
(`StratifiedHashTree.FailingDB.survives_iff`).
-/

namespace StratifiedHashTree

open Outcome RocksDBStorage AppendLog

variable {α σ β : Type} {w : ℕ}

/-! ### A call that fails -/

/-- A storage whose database fails once: after so many more calls, if it is to fail at all. -/
structure FailingDB where
  storage : RocksDBStorage
  failsAfter : Option ℕ

namespace FailingDB

/-- The error of a call that fails. -/
def refused : Error := .rocksDB "IO error"

/-- A call: it has its effect, or it is the one that fails and has none. -/
def call (x : Run RocksDBStorage β) : Run FailingDB β := fun self =>
  match self.failsAfter with
  | none => ((x self.storage).1, ⟨(x self.storage).2, none⟩)
  | some 0 => (err refused, ⟨self.storage, none⟩)
  | some (f + 1) => ((x self.storage).1, ⟨(x self.storage).2, some f⟩)

/-- The calls of such a database. -/
def calls : DBCalls FailingDB where
  self := fun self => (.ok self.storage, self)
  get key := call (RocksDBStorage.get key)
  dbPut key value := call (RocksDBStorage.dbPut key value)
  delete key := call (RocksDBStorage.delete key)
  lockRead := return ()
  underWrite x := x

section Runs

variable {S : Serializable α} {keyPrefix : Bytes} {hashing : Bool} {db db' : DB} {log : List α}
  {p e : ℕ}

/-- The state in which the call after `f` others fails. -/
abbrev armed (db : DB) (keyPrefix : Bytes) (hashing : Bool) (f : ℕ) : FailingDB :=
  ⟨new db keyPrefix hashing, some f⟩

/-- The state in which it has failed. -/
abbrev failed (db : DB) (keyPrefix : Bytes) (hashing : Bool) : FailingDB :=
  ⟨new db keyPrefix hashing, none⟩

theorem self_eq (s : FailingDB) : calls.self s = (.ok s.storage, s) := rfl

theorem get_succ (db : DB) (key : Bytes) (f : ℕ) :
    calls.get key (armed db keyPrefix hashing (f + 1)) =
      (.ok (db.lookup key), armed db keyPrefix hashing f) := rfl

theorem get_found {key : Bytes} {found : Option Bytes} (hfound : db.lookup key = found) (f : ℕ) :
    calls.get key (armed db keyPrefix hashing (f + 1)) =
      (.ok found, armed db keyPrefix hashing f) := by
  rw [get_succ, hfound]

theorem get_fails (db : DB) (key : Bytes) : calls.get key (armed db keyPrefix hashing 0) =
    (err refused, failed db keyPrefix hashing) := rfl

theorem delete_succ (db : DB) (key : Bytes) (f : ℕ) :
    calls.delete key (armed db keyPrefix hashing (f + 1)) =
      (.ok (), armed (db.erase key) keyPrefix hashing f) := rfl

theorem delete_fails (db : DB) (key : Bytes) : calls.delete key (armed db keyPrefix hashing 0) =
    (err refused, failed db keyPrefix hashing) := rfl

/-! ### Storing the next number -/

/-- The calls that store the next number. -/
def metadataCalls (next : ℕ) : ℕ := if next = 1 then 1 else 2

/-- When one of them fails, nothing has changed. -/
theorem setMetadata_fails {next f : ℕ} (hnext : next ≠ 0) (hf : f < metadataCalls next) :
    calls.setMetadata next (armed db keyPrefix hashing f) =
      (err refused, failed db keyPrefix hashing) := by
  rw [metadataCalls] at hf
  rw [DBCalls.setMetadata, Prog.liftM_eq, debugAssert_of hnext, Prog.lift_ok_bind,
    Prog.bind_ok (self_eq _)]
  by_cases h1 : next = 1
  · rw [if_pos h1] at hf
    obtain rfl : f = 0 := by omega
    rw [if_pos h1]
    rfl
  · rw [if_neg h1] at hf
    rw [if_neg h1]
    rcases f with _ | f
    · rw [Prog.bind_error (get_fails db _)]
      rfl
    · obtain rfl : f = 0 := by omega
      rw [Prog.bind_ok (get_succ db _ 0)]
      rfl

/-- Otherwise they return. -/
theorem setMetadata_returns {next f : ℕ} (hnext : next ≠ 0) (hf : metadataCalls next ≤ f) :
    ∃ s, calls.setMetadata next (armed db keyPrefix hashing f) = (.ok (), s) := by
  rw [metadataCalls] at hf
  rw [DBCalls.setMetadata, Prog.liftM_eq, debugAssert_of hnext, Prog.lift_ok_bind,
    Prog.bind_ok (self_eq _)]
  by_cases h1 : next = 1
  · rw [if_pos h1] at hf
    obtain ⟨f, rfl⟩ : ∃ m, f = m + 1 := Nat.exists_eq_succ_of_ne_zero (by omega)
    rw [if_pos h1]
    exact ⟨_, delete_succ db _ f⟩
  · rw [if_neg h1] at hf
    obtain ⟨f, rfl⟩ : ∃ m, f = m + 1 + 1 := ⟨f - 2, by omega⟩
    rw [if_neg h1, Prog.bind_ok (get_succ db _ (f + 1))]
    exact ⟨_, rfl⟩

/-! ### Deleting -/

variable (keyPrefix hashing) in
/-- **Where the records end**: they go on before `e`, and then either there is none, or no
number is left. -/
structure Ends (db : DB) (p e : ℕ) : Prop where
  filled : Filled keyPrefix hashing db p e
  le : e ≤ 2 ^ 64
  none_of_lt : e < 2 ^ 64 → db.lookup (keyOf keyPrefix hashing e) = none

theorem Ends.erase (h : Ends keyPrefix hashing db p e) (hpe : p < e) :
    Ends keyPrefix hashing (db.erase (keyOf keyPrefix hashing p)) (p + 1) e where
  filled := h.filled.erase h.le
  le := h.le
  none_of_lt he := by
    rw [Finmap.lookup_erase_ne (keyOf_ne he (by omega) (by omega))]
    exact h.none_of_lt he

/-- The calls of the loop that deletes: two for each record, and one for the one that is not
there. -/
def loopCalls (p e : ℕ) : ℕ := 2 * (e - p) + if e = 2 ^ 64 then 0 else 1

/-- Where a second call is made, there is a record. -/
theorem lt_of_lt_loopCalls {f : ℕ} (hpe : p ≤ e) (h1 : 1 ≤ f) (hf : f < loopCalls p e) : p < e := by
  rcases hpe.eq_or_lt with rfl | hlt
  · rw [loopCalls] at hf
    split at hf <;> omega
  · exact hlt

/-- The loop finds a record. -/
theorem truncateFrom_found (h : Ends keyPrefix hashing db p e) (hpe : p < e) (fuel f : ℕ) :
    calls.truncateFrom (fuel + 1) p (armed db keyPrefix hashing (f + 1)) = (do
      calls.delete (keyOf keyPrefix hashing p)
      let p' ← addBits 64 p 1
      calls.truncateFrom fuel p' : Run FailingDB Unit) (armed db keyPrefix hashing f) := by
  obtain ⟨value, hvalue⟩ := Option.ne_none_iff_exists'.mp (h.filled p (Nat.le_refl p) hpe)
  rw [DBCalls.truncateFrom, Prog.bind_ok (self_eq _)]
  exact Prog.bind_ok (get_found hvalue f)

/-- A round of the loop. -/
theorem truncateFrom_round (h : Ends keyPrefix hashing db p e) (hpe : p < e) (fuel f : ℕ) :
    calls.truncateFrom (fuel + 1) p (armed db keyPrefix hashing (f + 2)) = (do
      let p' ← addBits 64 p 1
      calls.truncateFrom fuel p' : Run FailingDB Unit)
        (armed (db.erase (keyOf keyPrefix hashing p)) keyPrefix hashing f) := by
  rw [truncateFrom_found h hpe fuel (f + 1), Prog.bind_ok (delete_succ db _ f)]

/-- **A call of the loop fails**: every second call before it has deleted a record. -/
theorem truncateFrom_fails (fuel : ℕ) {f : ℕ} (h : Ends keyPrefix hashing db p e) (hpe : p ≤ e)
    (hfuel : e - p < fuel) (hf : f < loopCalls p e) :
    ∃ db', calls.truncateFrom fuel p (armed db keyPrefix hashing f) =
        (err refused, failed db' keyPrefix hashing) ∧
      Deletes keyPrefix hashing p (p + f / 2) db db' ∧ p + f / 2 ≤ e := by
  induction fuel generalizing p db f with
  | zero => exact absurd hfuel (Nat.not_lt_zero _)
  | succ fuel ih =>
    rcases f with _ | _ | f
    · refine ⟨db, ?_, .nil p db, hpe⟩
      rw [DBCalls.truncateFrom, Prog.bind_ok (self_eq _), Prog.bind_error (get_fails db _)]
      rfl
    · have hlt := lt_of_lt_loopCalls hpe (Nat.le_add_left 1 _) hf
      refine ⟨db, ?_, .nil p db, hpe⟩
      rw [truncateFrom_found h hlt fuel 0, Prog.bind_error (delete_fails db _)]
      rfl
    · have hlt := lt_of_lt_loopCalls hpe (Nat.le_add_left 1 _) hf
      have hf' : f < loopCalls (p + 1) e := by
        rw [loopCalls] at hf ⊢
        omega
      have hp : p + 1 < 2 ^ 64 := by
        by_contra hcon
        have h1 : e = 2 ^ 64 := le_antisymm h.le (by omega)
        rw [loopCalls, if_pos h1] at hf'
        omega
      obtain ⟨db', h1, h2, h3⟩ := ih (h.erase hlt) hlt (by omega) hf'
      rw [show p + 1 + f / 2 = p + (f + 1 + 1) / 2 by omega] at h2 h3
      refine ⟨db', ?_, h2.cons (by omega) (h3.trans h.le), h3⟩
      rw [truncateFrom_round h hlt fuel f, Prog.liftM_eq, addBits_of_lt hp, Prog.lift_ok_bind, h1]

/-- **No call of the loop fails**: every record is deleted, unless the numbers run out. -/
theorem truncateFrom_returns (fuel : ℕ) {f : ℕ} (h : Ends keyPrefix hashing db p e) (hpe : p ≤ e)
    (hfuel : e - p < fuel) (hf : loopCalls p e ≤ f) (hp : p < 2 ^ 64) :
    (e < 2 ^ 64 ∧ ∃ db', calls.truncateFrom fuel p (armed db keyPrefix hashing f) =
        (.ok (), armed db' keyPrefix hashing (f - loopCalls p e)) ∧
      Deletes keyPrefix hashing p e db db') ∨
    (e = 2 ^ 64 ∧ ∃ s, calls.truncateFrom fuel p (armed db keyPrefix hashing f) =
      (Outcome.panic .overflow, s)) := by
  induction fuel generalizing p db f with
  | zero => exact absurd hfuel (Nat.not_lt_zero _)
  | succ fuel ih =>
    rcases hpe.eq_or_lt with rfl | hlt
    · rw [loopCalls, if_neg hp.ne, Nat.sub_self] at hf ⊢
      -- no record is left: the call that finds none ends the loop
      obtain ⟨f, rfl⟩ : ∃ m, f = m + 1 := Nat.exists_eq_succ_of_ne_zero (by omega)
      refine Or.inl ⟨hp, db, ?_, .nil p db⟩
      rw [DBCalls.truncateFrom, Prog.bind_ok (self_eq _)]
      exact Prog.bind_ok (get_found (h.none_of_lt hp) f)
    · obtain ⟨f, rfl⟩ : ∃ m, f = m + 2 := ⟨f - 2, by rw [loopCalls] at hf; omega⟩
      have hcalls : loopCalls p e = loopCalls (p + 1) e + 2 := by
        rw [loopCalls, loopCalls]
        omega
      rw [truncateFrom_round h hlt fuel f]
      by_cases hlast : p + 1 < 2 ^ 64
      · rw [Prog.liftM_eq, addBits_of_lt hlast, Prog.lift_ok_bind, hcalls, Nat.add_sub_add_right]
        rcases ih (f := f) (h.erase hlt) hlt (by omega) (by omega) hlast with ⟨he, db', h1, h2⟩ | h1
        · exact Or.inl ⟨he, db', h1, h2.cons hlt he.le⟩
        · exact Or.inr h1
      · -- the last number has been deleted, and `p += 1` overflows
        have he := h.le
        refine Or.inr ⟨by omega,
          armed (db.erase (keyOf keyPrefix hashing p)) keyPrefix hashing f, ?_⟩
        rw [Prog.liftM_eq, addBits, if_neg hlast]
        rfl

/-! ### A truncate that fails -/

theorem getMetadata_fails (db : DB) : calls.getMetadata (armed db keyPrefix hashing 0) =
    (err refused, failed db keyPrefix hashing) := rfl

/-- Reading the next number is one call. -/
theorem getMetadata_succ (db : DB) (f : ℕ) :
    calls.getMetadata (armed db keyPrefix hashing (f + 1)) =
      ((RocksDBStorage.getMetadata (new db keyPrefix hashing)).1,
        armed db keyPrefix hashing f) := by
  rw [RocksDBStorage.getMetadata, DBCalls.getMetadata, DBCalls.getMetadata,
    Prog.bind_ok (self_eq _), Prog.bind_ok (DBCalls.plain_self _)]
  have hget : DBCalls.plain.get (new db keyPrefix hashing).keyForMetadata
      (new db keyPrefix hashing) =
    (.ok (db.lookup (new db keyPrefix hashing).keyForMetadata), new db keyPrefix hashing) := rfl
  rw [Prog.bind_ok (get_succ db _ f), Prog.bind_ok hget]
  rcases db.lookup (new db keyPrefix hashing).keyForMetadata with _ | value
  · rfl
  · by_cases hlen : value.length < 8
    · simp only [if_pos hlen]
      rfl
    · simp only [if_neg hlen]
      rcases (debugAssert (ofLeBytes (value.take 8) ≠ 0) : Result Unit) with e | _
      · rfl
      · rfl

/-- The calls of a `truncate`. -/
def truncateCalls (p e : ℕ) : ℕ :=
  1 + loopCalls p e + if e = 2 ^ 64 then 0 else metadataCalls p

/-- A `truncate` is what is done under the lock. -/
theorem truncate_run (hp : p ≠ 0) (s : FailingDB) : calls.truncate p s = calls.cut p s := by
  rw [DBCalls.truncate, Prog.liftM_eq, debugAssert_of hp, Prog.lift_ok_bind]
  rfl

/-- A `truncate`, behind its first call. -/
theorem truncate_step (hmeta : db.lookup (keyOf keyPrefix hashing 0) =
      if log.length = 0 then none else some (leBytes 8 (nextOf log)))
    (hroom : nextOf log < 2 ^ 64) (h1 : 1 ≤ p) (h2 : p ≤ log.length) (f : ℕ) :
    calls.truncate p (armed db keyPrefix hashing (f + 1)) = (do
      calls.truncateFrom (db.keys.card + 1) p
      calls.setMetadata p
      return true : Run FailingDB Bool) (armed db keyPrefix hashing f) := by
  have hget : calls.getMetadata (armed db keyPrefix hashing (f + 1)) =
      (.ok (some (nextOf log)), armed db keyPrefix hashing f) := by
    rw [getMetadata_succ, getMetadata_eq hmeta hroom, if_neg (by omega)]
  rw [truncate_run (show p ≠ 0 by omega), DBCalls.cut, Prog.bind_ok hget]
  simp only [Prog.liftM_eq]
  rw [debugAssert_of (show nextOf log ≠ 0 from Nat.succ_ne_zero _), Prog.lift_ok_bind,
    if_pos (show p < nextOf log from Nat.lt_succ_of_le h2), Prog.bind_ok (self_eq _)]
  rfl

/-- **A call of a `truncate` fails**: then no record is gone if it was one of the first three,
and otherwise the first one is. -/
theorem truncate_fails (hmeta : db.lookup (keyOf keyPrefix hashing 0) =
      if log.length = 0 then none else some (leBytes 8 (nextOf log)))
    (hroom : nextOf log < 2 ^ 64) (h1 : 1 ≤ p) (h2 : p ≤ log.length)
    (h : Ends keyPrefix hashing db p e) (hpe : p < e) {f : ℕ} (hf : f < truncateCalls p e) :
    ∃ db' q, calls.truncate p (armed db keyPrefix hashing f) =
        (err refused, failed db' keyPrefix hashing) ∧
      Deletes keyPrefix hashing p q db db' ∧ p ≤ q ∧ q ≤ 2 ^ 64 ∧ (q = p ↔ f ≤ 2) := by
  have hlt : log.length + 1 < 2 ^ 64 := hroom
  rcases f with _ | f
  · refine ⟨db, p, ?_, .nil p db, Nat.le_refl p, by omega, by omega⟩
    rw [truncate_run (show p ≠ 0 by omega), DBCalls.cut, Prog.bind_error (getMetadata_fails db)]
    rfl
  · have hfuel : e - p < db.keys.card + 1 := Nat.lt_succ_of_le (card_keys_ge h.le h.filled)
    rw [truncate_step hmeta hroom h1 h2 f]
    rcases Nat.lt_or_ge f (loopCalls p e) with hloop | hloop
    · obtain ⟨db', h3, h4, h5⟩ := truncateFrom_fails _ h hpe.le hfuel hloop
      exact ⟨db', p + f / 2, Prog.bind_error h3, h4, Nat.le_add_right _ _, h5.trans h.le, by omega⟩
    · have hcalls : 2 * (e - p) ≤ loopCalls p e := Nat.le_add_right _ _
      rcases truncateFrom_returns _ h hpe.le hfuel hloop (by omega) with
        ⟨he, db', h3, h4⟩ | ⟨he, s, h3⟩
      · rw [truncateCalls, if_neg he.ne] at hf
        refine ⟨db', e, ?_, h4, hpe.le, h.le, by omega⟩
        rw [Prog.bind_ok h3, Prog.bind_error (setMetadata_fails (by omega) (by omega))]
        rfl
      · rw [truncateCalls, if_pos he] at hf
        omega

/-- Otherwise no call of it is left to fail. -/
theorem truncate_returns (hmeta : db.lookup (keyOf keyPrefix hashing 0) =
      if log.length = 0 then none else some (leBytes 8 (nextOf log)))
    (hroom : nextOf log < 2 ^ 64) (h1 : 1 ≤ p) (h2 : p ≤ log.length)
    (h : Ends keyPrefix hashing db p e) (hpe : p < e) {f : ℕ} (hf : truncateCalls p e ≤ f)
    (error : Error) : (calls.truncate p (armed db keyPrefix hashing f)).1 ≠ err error := by
  have hlt : log.length + 1 < 2 ^ 64 := hroom
  obtain ⟨f, rfl⟩ : ∃ m, f = m + 1 := ⟨f - 1, by rw [truncateCalls] at hf; omega⟩
  have hfuel : e - p < db.keys.card + 1 := Nat.lt_succ_of_le (card_keys_ge h.le h.filled)
  rw [truncate_step hmeta hroom h1 h2 f]
  rw [truncateCalls] at hf
  rcases truncateFrom_returns _ h hpe.le hfuel (show loopCalls p e ≤ f by omega) (by omega) with
    ⟨he, db', h3, -⟩ | ⟨-, s, h3⟩
  · rw [if_neg he.ne] at hf
    have hset : ∃ s, calls.setMetadata p (armed db' keyPrefix hashing (f - loopCalls p e)) =
        (.ok (), s) := setMetadata_returns (by omega) (by omega)
    obtain ⟨s, h4⟩ := hset
    rw [Prog.bind_ok h3, Prog.bind_ok h4]
    simp [err]
  · rw [Prog.bind_error h3]
    simp [err]

/-! ### A put that fails -/

/-- A sum reports no error. -/
theorem addBits_ne_err (k a b : ℕ) (error : Error) : (addBits k a b : Result ℕ) ≠ err error := by
  rw [addBits]
  split
  · simp [err]
  · simp [err, Outcome.panic]

variable (keyPrefix hashing db) in
/-- **A call fails while a datum is stored**: the datum may be there, and the number is not. -/
theorem store_cases (key value : Bytes) (next f : ℕ) :
    (∃ db', calls.store key value next (armed db keyPrefix hashing f) =
        (err refused, failed db' keyPrefix hashing) ∧ (db' = db ∨ db' = db.insert key value)) ∨
    ∀ error, (calls.store key value next (armed db keyPrefix hashing f)).1 ≠ err error := by
  rcases f with _ | f
  · have hput : calls.dbPut key value (armed db keyPrefix hashing 0) =
      (err refused, failed db keyPrefix hashing) := rfl
    exact Or.inl ⟨db, Prog.bind_error hput, Or.inl rfl⟩
  · have hput : calls.dbPut key value (armed db keyPrefix hashing (f + 1)) =
      (.ok (), armed (db.insert key value) keyPrefix hashing f) := rfl
    rw [DBCalls.store, Prog.bind_ok hput]
    by_cases hlast : next + 1 < 2 ^ 64
    · rw [Prog.liftM_eq, addBits_of_lt hlast, Prog.lift_ok_bind]
      rcases Nat.lt_or_ge f (metadataCalls (next + 1)) with hf | hf
      · exact Or.inl ⟨_, setMetadata_fails (Nat.succ_ne_zero _) hf, Or.inr rfl⟩
      · have hset : ∃ s, calls.setMetadata (next + 1)
          (armed (db.insert key value) keyPrefix hashing f) = (.ok (), s) :=
            setMetadata_returns (Nat.succ_ne_zero _) hf
        obtain ⟨s, hs⟩ := hset
        rw [hs]
        exact Or.inr fun error => by simp [err]
    · rw [addBits, if_neg hlast]
      exact Or.inr fun error => by simp [Prog.bind_run, err, Outcome.panic]

/-- **A call of a `put` fails**: the datum may be there, behind the log. -/
theorem put_cases {x : α} {n : ℕ} (hwrite : (S.write extend x []).1 = .ok n) (f : ℕ) :
    (∃ db', calls.put S (nextOf log) x (armed db keyPrefix hashing f) =
        (err refused, failed db' keyPrefix hashing) ∧
      (db' = db ∨ db' = db.insert (keyOf keyPrefix hashing (nextOf log)) (S.bytes x))) ∨
    ∀ error, (calls.put S (nextOf log) x (armed db keyPrefix hashing f)).1 ≠ err error := by
  have hvalue : S.write extend x [] = (.ok n, S.bytes x) := Prod.ext hwrite rfl
  have hrun : calls.put S (nextOf log) x (armed db keyPrefix hashing f) =
      (calls.store (keyOf keyPrefix hashing (nextOf log)) (S.bytes x) (nextOf log) >>=
        fun _ => Prog.lift (addBits 64 (nextOf log) 1)) (armed db keyPrefix hashing f) := by
    rw [DBCalls.put, Prog.liftM_eq, debugAssert_of (show nextOf log ≠ 0 from Nat.succ_ne_zero _),
      Prog.lift_ok_bind, Prog.bind_ok (self_eq _)]
    simp only [hvalue]
    rfl
  rw [hrun]
  rcases store_cases keyPrefix hashing db (keyOf keyPrefix hashing (nextOf log)) (S.bytes x)
    (nextOf log) f with ⟨db', h1, h2⟩ | h1
  · exact Or.inl ⟨db', Prog.bind_error h1, h2⟩
  · refine Or.inr fun error => ?_
    rcases hstore : calls.store (keyOf keyPrefix hashing (nextOf log)) (S.bytes x) (nextOf log)
      (armed db keyPrefix hashing f) with ⟨e | _, s⟩
    · rw [Prog.bind_error hstore]
      have h2 := h1 error
      rw [hstore] at h2
      exact fun hcon => h2 (congrArg Except.error (Except.error.inj hcon))
    · rw [Prog.bind_ok hstore]
      exact addBits_ne_err _ _ _ error

/-! ### What is left of the log -/

variable (S log) in
/-- **What the storage shows is still a log**: the last datum is found, or there is none, and
under every number before the next one lies the datum that has lain there. -/
def StillLog (s : RocksDBStorage) : Prop :=
  ∃ latest next, RocksDBStorage.last S s = (.ok (latest, next), s) ∧
    ∀ q : ℕ, 1 ≤ q → q < next → ∃ x ∈ log[q - 1]?, RocksDBStorage.read S q s = (.ok x, s)

/-- A database that shows the log. -/
theorem stillLog_of_shows (h : Shows S keyPrefix hashing db log) (hroom : nextOf log < 2 ^ 64)
    (hread : ∀ (k : ℕ) (hk : k < log.length), fromValue S (S.bytes log[k]) (k + 1) = .ok log[k]) :
    StillLog S log (new db keyPrefix hashing) := by
  refine ⟨_, _, last_eq h hroom hread, fun q h1 h2 => ?_⟩
  have hk : q - 1 < log.length := by
    have h3 : q < log.length + 1 := h2
    omega
  have h3 := read_some h hread hk
  rw [Nat.sub_add_cancel h1] at h3
  exact ⟨_, List.getElem?_eq_getElem hk, h3⟩

/-- A database that has lost a record and still counts it. -/
theorem not_stillLog (hmeta : db.lookup (keyOf keyPrefix hashing 0) =
      if log.length = 0 then none else some (leBytes 8 (nextOf log)))
    (hroom : nextOf log < 2 ^ 64) (h1 : 1 ≤ p) (h2 : p ≤ log.length)
    (hgone : db.lookup (keyOf keyPrefix hashing p) = none) :
    ¬StillLog S log (new db keyPrefix hashing) := by
  rintro ⟨latest, next, hlast, hread⟩
  -- the number is the old one, whatever has become of the last datum
  have hnext : next = nextOf log := by
    have hget : DBCalls.plain.getMetadata (new db keyPrefix hashing) =
        (.ok (some (nextOf log)), new db keyPrefix hashing) :=
      (getMetadata_eq hmeta hroom).trans (by rw [if_neg (by omega)])
    rw [RocksDBStorage.last, DBCalls.last, Prog.bind_ok (DBCalls.plain_lockRead _),
      Prog.bind_ok hget] at hlast
    simp only [Prog.liftM_eq] at hlast
    rw [subBits_of_le (Nat.le_add_left 1 _), Prog.lift_ok_bind,
      Prog.bind_ok (DBCalls.plain_self _), Prog.bind_eq_ok] at hlast
    obtain ⟨value, s, -, hlast⟩ := hlast
    rcases value with _ | value
    · exact absurd (Prod.mk.inj hlast).1 (by simp [err])
    · simp only [Prog.lift_ok_bind] at hlast
      rw [Prog.bind_eq_ok] at hlast
      obtain ⟨data, s', -, hlast⟩ := hlast
      exact ((Prod.mk.inj (Except.ok.inj (Prod.mk.inj hlast).1)).2).symm
  obtain ⟨x, -, hx⟩ := hread p h1 (hnext ▸ Nat.lt_succ_of_le h2)
  rw [read_none hgone] at hx
  exact absurd (Prod.mk.inj hx).1 (by simp)

/-! ### Changes that fail -/

/-- A change of the log. -/
inductive Change (α : Type) where
  | put (x : α)
  | truncate (p : ℕ)

namespace Change

/-- The changes a storage is asked for: a datum is put behind the log, and the log is cut where
there is a datum. -/
def Asked (Placed : Position → α → Prop) (log : List α) : Change α → Prop
  | .put x => Placed (nextOf log) x
  | .truncate p => 1 ≤ p ∧ p ≤ log.length

/-- The change of a log, over a database. -/
def run (C : DBCalls σ) (S : Serializable α) (log : List α) : Change α → Run σ Unit
  | .put x => do
    let _ ← C.put S (nextOf log) x
    return ()
  | .truncate p => do
    let _ ← C.truncate p
    return ()

/-- The call after `f` others may fail: a `truncate` has not deleted anything by then, or it is
over. -/
def Harmless (e f : ℕ) : Change α → Prop
  | .put _ => True
  | .truncate p => f ≤ 2 ∨ truncateCalls p e ≤ f

end Change

theorem err_of_bind {x : Run FailingDB β} {s s' : FailingDB} {error : Error}
    (h : (x >>= fun _ => pure ()) s = (err error, s')) : x s = (err error, s') := by
  rcases hx : x s with ⟨e | b, t⟩
  · rw [Prog.bind_error hx] at h
    obtain ⟨h1, rfl⟩ := Prod.mk.inj h
    exact congrArg (fun e => (Except.error e, t)) (Except.error.inj h1)
  · rw [Prog.bind_ok hx] at h
    exact absurd (Prod.mk.inj h).1 (by simp [err])

/-- Behind a log, the records of a log go on. -/
theorem Ends.of_shows (h : Shows S keyPrefix hashing db log)
    (hends : Ends keyPrefix hashing db (nextOf log) e) (h1 : 1 ≤ p) :
    Ends keyPrefix hashing db p e := by
  refine ⟨fun q hq1 hq2 => ?_, hends.le, hends.none_of_lt⟩
  by_cases hq : q < nextOf log
  · have hq' : q < log.length + 1 := hq
    have h3 := h.data (q - 1) (by omega)
    rw [Nat.sub_add_cancel (by omega)] at h3
    rw [h3]
    exact Option.some_ne_none _
  · exact hends.filled q (by omega) hq2

/-- **A later call of a `truncate` breaks the log.** -/
theorem truncate_breaks (h : Shows S keyPrefix hashing db log) (hroom : nextOf log < 2 ^ 64)
    (hends : Ends keyPrefix hashing db (nextOf log) e) (he : nextOf log ≤ e) (h1 : 1 ≤ p)
    (h2 : p ≤ log.length) {f : ℕ} (hf : ¬(Change.truncate p : Change α).Harmless e f) :
    ∃ s', (Change.truncate p).run calls S log (armed db keyPrefix hashing f) = (err refused, s') ∧
      ¬StillLog S log s'.storage := by
  obtain ⟨hf1, hf2⟩ := not_or.mp hf
  have hpe : p < e := Nat.lt_of_lt_of_le (Nat.lt_succ_of_le h2) he
  have hlt : log.length + 1 < 2 ^ 64 := hroom
  obtain ⟨db', q, hrun, hdel, hpq, hq, hiff⟩ :=
    truncate_fails h.metadata hroom h1 h2 (.of_shows h hends h1) hpe (Nat.lt_of_not_le hf2)
  have hne : q ≠ p := fun hqp => hf1 (hiff.mp hqp)
  have hmeta : db'.lookup (keyOf keyPrefix hashing 0) = db.lookup (keyOf keyPrefix hashing 0) :=
    hdel.kept _ fun q' h3 h4 => keyOf_ne (by decide) (by omega) (by omega)
  exact ⟨failed db' keyPrefix hashing, Prog.bind_error hrun,
    not_stillLog (hmeta.trans h.metadata) hroom h1 h2
      (hdel.deleted p (Nat.le_refl p) (by omega))⟩

/-- **A failing call leaves a log exactly when nothing was deleted before it.** The storage shows a
log, and the records go on up to some number behind it; one call of a change fails. When the
change returns an error, the storage still shows a log of what was there – for a `put` always,
and for a `truncate` when the call was one of its first three. -/
theorem survives_iff {Placed : Position → α → Prop} (hS : S.RoundTrips Placed)
    (h : Shows S keyPrefix hashing db log) (hroom : nextOf log < 2 ^ 64)
    (hlaid : ∀ k (hk : k < log.length), Placed (nextOf (log.take k)) log[k])
    (hends : Ends keyPrefix hashing db (nextOf log) e) (he : nextOf log ≤ e) (change : Change α)
    (hasked : change.Asked Placed log) (f : ℕ) :
    (∀ error s', change.run calls S log (armed db keyPrefix hashing f) = (err error, s') →
      StillLog S log s'.storage) ↔ change.Harmless e f := by
  have hread := read_laid hS hlaid
  constructor
  · intro hsafe
    by_contra hharm
    cases change with
    | put x => exact hharm trivial
    | truncate p =>
      obtain ⟨s', h1, h2⟩ := truncate_breaks h hroom hends he hasked.1 hasked.2 hharm
      exact h2 (hsafe refused s' h1)
  · intro hharm error s' hrun
    cases change with
    | put x =>
      obtain ⟨n, hwrite⟩ := hS.write_ok hasked
      have hput := err_of_bind hrun
      -- a `put` that fails has stored its datum or not, and the next number never
      rcases put_cases hwrite f with ⟨db', h1, h2⟩ | h1
      · rw [h1] at hput
        obtain ⟨-, rfl⟩ := Prod.mk.inj hput
        rcases h2 with rfl | rfl
        · exact stillLog_of_shows h hroom hread
        · exact stillLog_of_shows (h.insert hroom _) hroom hread
      · exact absurd (congrArg Prod.fst hput) (h1 error)
    | truncate p =>
      obtain ⟨h1, h2⟩ := hasked
      have hpe : p < e := Nat.lt_of_lt_of_le (Nat.lt_succ_of_le h2) he
      have hends' := Ends.of_shows h hends h1
      have htrunc := err_of_bind hrun
      rcases Nat.lt_or_ge f (truncateCalls p e) with hf | hf
      · obtain ⟨db', q, h3, hdel, -, -, hiff⟩ :=
          truncate_fails h.metadata hroom h1 h2 hends' hpe hf
        -- a harmless call comes before the first record is deleted
        obtain rfl : q = p := hiff.mpr (hharm.resolve_right (Nat.not_le_of_lt hf))
        rw [h3] at htrunc
        obtain ⟨-, rfl⟩ := Prod.mk.inj htrunc
        rw [hdel.eq]
        exact stillLog_of_shows h hroom hread
      · exact absurd (congrArg Prod.fst htrunc)
          (truncate_returns h.metadata hroom h1 h2 hends' hpe hf error)

end Runs

/-! ### Two entries, and a cut that fails -/

/-- Two entries under their numbers. -/
def twoEntries : List (Entry 1) := [entryNumber 1, entryNumber 2]

/-- Their database. -/
def twoEntriesDB : DB := dbOf Entry.serializable [] true twoEntries

theorem ends_twoEntries : Ends [] true twoEntriesDB (nextOf twoEntries) 3 := by
  have hstores : Stores Entry.serializable [] true twoEntriesDB twoEntries :=
    stores_dbOf (by decide)
  refine ⟨fun q h1 h2 => absurd h1 (Nat.not_le_of_lt h2), by decide, fun _ => ?_⟩
  exact hstores.lookup_none (by decide) (by decide) (by decide)

theorem survives_iff_twoEntries :
    (∀ error s', (Change.truncate 1).run calls Entry.serializable twoEntries
      (armed twoEntriesDB [] true 2) = (err error, s') →
        StillLog Entry.serializable twoEntries s'.storage) ↔
      (Change.truncate 1 : Change (Entry 1)).Harmless 3 2 := by
  have hroom : nextOf twoEntries < 2 ^ 64 := by decide
  refine survives_iff (Entry.roundTrips (by decide)) ((stores_dbOf hroom).shows hroom) hroom
    (fun k hk => ?_) ends_twoEntries (Nat.le_refl 3) (.truncate 1)
    (show 1 ≤ 1 ∧ 1 ≤ twoEntries.length from ⟨by decide, by decide⟩) 2
  rcases k with _ | _ | k
  · exact placed_entryNumber (by decide) (by decide)
  · exact placed_entryNumber (by decide) (by decide)
  · exact absurd hk (by simp [twoEntries])

/-- **The fourth call is too late**: the first entry is deleted, the call that looks for the
second one fails, and the storage still counts two entries. -/
theorem not_survives : ¬∀ error s', (Change.truncate 1).run calls Entry.serializable twoEntries
    (armed twoEntriesDB [] true 3) = (err error, s') →
      StillLog Entry.serializable twoEntries s'.storage := by
  intro hsafe
  have hroom : nextOf twoEntries < 2 ^ 64 := by decide
  obtain ⟨s', h1, h2⟩ := truncate_breaks ((stores_dbOf hroom).shows hroom) hroom ends_twoEntries
    (Nat.le_refl 3) (by decide) (by decide)
    (show ¬(Change.truncate 1 : Change (Entry 1)).Harmless 3 3 from by
      rintro (h | h) <;> exact absurd h (by decide))
  exact h2 (hsafe refused s' h1)

end FailingDB

end StratifiedHashTree
