import StratifiedHashTree.Calls
import StratifiedHashTree.Orphans
import StratifiedHashTree.Unsteady

/-!
# Slates on a database that fails now and then

A database any call of which may fail, and any number of times. What becomes of a call is not up to
the slate; it may be anything, from one command to the next.

As long as nothing is cut while calls fail, none of this shows. A command that ends with the error
of the database has changed nothing: it can be given again, or not. All the others are answered as
on a slate in memory that has been given these only
(`StratifiedHashTree.attempts_answered`). So an append that has returned an error is not there,
however far it got, an append that has returned a root is there once, and a slate that is opened on
what the database holds finds the payloads that were acknowledged.
-/

namespace StratifiedHashTree

open Outcome RocksDBStorage AppendLog
open Prog (Reports ReportsAt Beside Both Never)

variable {α σ τ κ : Type} {w : ℕ}

/-! ### A database with fates -/

/-- A storage, and which of the next calls of its database will fail. Those behind the end of the
list succeed. -/
structure FatedDB where
  storage : RocksDBStorage
  fates : List Bool

namespace FatedDB

/-- A call: it has its effect, or it fails and has none. -/
def call {β : Type} (x : Run RocksDBStorage β) : Run FatedDB β := fun self =>
  match self.fates with
  | true :: fates => (err FailingDB.refused, { self with fates := fates })
  | fates => ((x self.storage).1, ⟨(x self.storage).2, fates.tail⟩)

/-- The calls of such a database. -/
def calls : DBCalls FatedDB where
  self := fun self => (.ok self.storage, self)
  get key := call (RocksDBStorage.get key)
  dbPut key value := call (RocksDBStorage.dbPut key value)
  delete key := call (RocksDBStorage.delete key)
  lockRead := return ()
  underWrite x := x

/-- The error of the database. -/
def Fault : Failure Error → Prop := fun e => e = .err FailingDB.refused

/-- No call will fail. -/
def Calm (self : FatedDB) : Prop := true ∉ self.fates

/-- The storage, whatever will become of the calls. -/
def Is (self : FatedDB) (st : RocksDBStorage) : Prop := self.storage = st

/-- The storage, and no call will fail. -/
def IsCalm (self : FatedDB) (st : RocksDBStorage) : Prop := self.Is st ∧ self.Calm

/-- What becomes of a call. -/
theorem call_cases {β : Type} (x : Run RocksDBStorage β) (self : FatedDB) :
    (¬self.Calm ∧ ∃ fates, call x self = (err FailingDB.refused, ⟨self.storage, fates⟩)) ∨
    ∃ fates, call x self = ((x self.storage).1, ⟨(x self.storage).2, fates⟩) ∧
      (self.Calm → true ∉ fates) := by
  obtain ⟨st, fates⟩ := self
  rcases fates with _ | ⟨_ | _, fates⟩
  · exact Or.inr ⟨[], rfl, id⟩
  · exact Or.inr ⟨fates, rfl, fun h hmem => h (List.mem_cons_of_mem _ hmem)⟩
  · exact Or.inl ⟨fun h => h List.mem_cons_self, fates, rfl⟩

variable {self : FatedDB} {st : RocksDBStorage}

theorem self_eq (h : self.Is st) : calls.self self = (.ok st, self) := by
  obtain rfl : self.storage = st := h
  rfl

/-- **A call fails without a trace**, or does what it should. -/
theorem reportsAt_call {β : Type} (x : Run RocksDBStorage β) (h : self.Is st) :
    ReportsAt (Is · st) Is Fault (call x) x self st := by
  obtain rfl : self.storage = st := h
  rcases call_cases x self with ⟨-, fates, h1⟩ | ⟨fates, h1, -⟩
  · exact .of_fault h1 rfl rfl
  · exact .of_eq h1 rfl rfl

/-- A call does what it should as long as no call fails. -/
theorem calm_call {β : Type} (x : Run RocksDBStorage β) {I : FatedDB → Prop} :
    Reports I IsCalm Never (call x) x := by
  rintro s t ⟨hst, hs⟩
  obtain rfl : s.storage = t := hst
  rcases call_cases x s with ⟨hnot, -⟩ | ⟨fates, h1, h2⟩
  · exact absurd hs hnot
  · exact .of_eq h1 rfl ⟨rfl, h2 hs⟩

/-- **Reading.** -/
theorem reading (st : RocksDBStorage) :
    calls.Reading (Is · st) (Both (Is · st) (· = st)) Fault where
  self := by
    rintro s t ⟨hs, rfl⟩
    exact .of_eq (self_eq hs) rfl ⟨hs, rfl⟩
  get key := by
    rintro s t ⟨hs, rfl⟩
    exact (reportsAt_call (RocksDBStorage.get key) hs).imp_right fun ⟨h1, h2⟩ => ⟨h1, h2, rfl⟩
  lockRead := .pure ()

/-- **Reading and writing when no call fails.** -/
theorem calm_writing {I : FatedDB → Prop} : calls.Writing I IsCalm Never where
  self := by
    rintro s t ⟨hst, hs⟩
    exact .of_eq (self_eq hst) rfl ⟨hst, hs⟩
  get key := calm_call _
  lockRead := .pure ()
  dbPut key value := calm_call _
  delete key := calm_call _

theorem calm_reading (st : RocksDBStorage) :
    calls.Reading (IsCalm · st) (Both (IsCalm · st) (· = st)) Never where
  self := by
    rintro s t ⟨hs, rfl⟩
    obtain ⟨h1, h2⟩ := (calm_writing.self (I := fun _ => True) hs).outcome
    exact Or.inr ⟨h1, h2, rfl⟩
  get key := by
    rintro s t ⟨hs, rfl⟩
    obtain ⟨h1, h2⟩ := (calm_writing.get (I := fun _ => True) key hs).outcome
    exact Or.inr ⟨h1, h2, rfl⟩
  lockRead := .pure ()

/-- Cutting when no call fails. -/
theorem calm_truncate {I : FatedDB → Prop} (position : Position) :
    Reports I IsCalm Never (calls.truncate position) (DBCalls.plain.truncate position) := by
  rw [DBCalls.truncate, DBCalls.truncate]
  exact (Reports.lift _).bind fun _ => calm_writing.cut position

/-! ### Putting -/

variable {S : Serializable α} {P : Bytes} {hashing : Bool} {log : List α}

/-- The next number is stored, or a fault is reported and nothing has changed. -/
theorem reportsAt_setMetadata (next : Position) (h : self.Is st) :
    ReportsAt (Is · st) Is Fault (calls.setMetadata next) (DBCalls.plain.setMetadata next) self
      st := by
  rw [DBCalls.setMetadata, DBCalls.setMetadata]
  refine .lift_bind h _ fun _ _ => ?_
  have hself : ReportsAt (Is · st) Is Fault calls.self DBCalls.plain.self self st :=
    .of_eq (self_eq h) rfl h
  refine hself.bind fun storage s t _ ht hs => ?_
  obtain rfl : st = t := congrArg Prod.snd ht
  by_cases hnext : next = 1
  · rw [if_pos hnext, if_pos hnext]
    exact reportsAt_call _ hs
  · rw [if_neg hnext, if_neg hnext]
    refine (reportsAt_call _ hs).bind fun value s' t' _ ht' hs' => ?_
    obtain rfl : st = t' := congrArg Prod.snd ht'
    exact reportsAt_call _ hs'

/-- **A `put` that fails leaves the log**, and maybe a datum behind it. -/
theorem reportsAt_put {Placed : Position → α → Prop} (hS : S.RoundTrips Placed) {x : α}
    (h : self.Is st) (hst : Trailing S P hashing log st) (hx : Placed (nextOf log) x)
    (hroom : nextOf (log ++ [x]) < 2 ^ 64) :
    ReportsAt (fun self => ∃ st', self.Is st' ∧ Trailing S P hashing log st') Is Fault
      (calls.put S (nextOf log) x) (RocksDBStorage.put S (nextOf log) x) self st := by
  obtain ⟨n, hwrite⟩ := hS.write_ok hx
  have hvalue : S.write extend x [] = (.ok n, S.bytes x) := Prod.ext hwrite rfl
  have hnext : nextOf log + 1 < 2 ^ 64 := by
    rwa [nextOf, List.length_append, List.length_singleton] at hroom
  obtain ⟨db, rfl, htrails⟩ := hst
  have hkept : ∀ s : FatedDB, s.Is (new db P hashing) →
      ∃ st', s.Is st' ∧ Trailing S P hashing log st' := fun s hs => ⟨_, hs, db, rfl, htrails⟩
  have hself : ReportsAt (fun self => ∃ st', self.Is st' ∧ Trailing S P hashing log st') Is Fault
      calls.self DBCalls.plain.self self (new db P hashing) :=
    .of_eq (self_eq h) rfl h
  have hstore : ∀ s : FatedDB, s.Is (new db P hashing) →
      ReportsAt (fun self => ∃ st', self.Is st' ∧ Trailing S P hashing log st') Is Fault
        (calls.store ((new db P hashing).key (nextOf log)) (S.bytes x) (nextOf log))
        (DBCalls.plain.store ((new db P hashing).key (nextOf log)) (S.bytes x) (nextOf log)) s
        (new db P hashing) := by
    intro s hs
    rw [DBCalls.store, DBCalls.store]
    refine ((reportsAt_call _ hs).mono hkept fun _ _ h => h).bind fun _ s1 t1 _ ht1 hs1 => ?_
    -- the datum is there, and the number is still the old one
    have hdatum : Trailing S P hashing log t1 := by
      rw [show t1 = _ from (congrArg Prod.snd ht1).symm]
      exact ⟨_, rfl, htrails.insert hnext (S.bytes x)⟩
    refine .lift_bind hs1 _ fun next _ => ?_
    exact (reportsAt_setMetadata next hs1).mono (fun s hs => ⟨t1, hs, hdatum⟩) fun _ _ h => h
  rw [RocksDBStorage.put, DBCalls.put, DBCalls.put]
  refine .lift_bind h _ fun _ _ => hself.bind fun storage s t _ ht hs => ?_
  obtain ⟨rfl, rfl⟩ : new db P hashing = storage ∧ new db P hashing = t :=
    ⟨Except.ok.inj (congrArg Prod.fst ht), congrArg Prod.snd ht⟩
  simp only [hvalue]
  exact ReportsAt.bind (hstore s hs) fun _ s2 t2 _ _ hs2 => Reports.lift _ hs2

/-! ### The host that may fail -/

/-- A new storage on the same database. -/
def reopen (self : FatedDB) : FatedDB :=
  ⟨new self.storage.db self.storage.keyPrefix self.storage.keyHashing, self.fates⟩

/-- What is read through calls is read through the plain ones, or a fault is reported. -/
theorem readsLike {I : FatedDB → Prop} {J : RocksDBStorage → Prop}
    {Q : Failure Error → Prop} (h : calls.Reading I (Both I J) Q) :
    ReadsLike Q (calls.storage Entry.serializable) (rocksDB (Entry.serializable (w := w))) I J where
  last := h.last _
  reader := .pure ()
  read position := h.read _ position
  scan position count {_} callback := h.scan _ position count callback

/-- **A database that fails now and then** does what one does that does not, or reports a fault. -/
def fated (hw : w ≤ 64) (P : Bytes) (hashing : Bool) : (trailing hw P hashing).Unsteady Fault where
  toStorage := calls.storage Entry.serializable
  reopen := reopen
  Like := Is
  Calm := Calm
  like_reopen := by
    rintro self _ rfl
    rfl
  reads st := readsLike (reading st)
  put_reports := by
    intro self st log x h hst _ hx hroom
    exact reportsAt_put (Entry.roundTrips hw) h hst hx hroom
  calm_reads st := readsLike (calm_reading st)
  calm_truncate position := calm_truncate (I := fun _ => True) position

end FatedDB

/-! ### Refusals -/

/-- A result that is the error of a database. -/
def refusal (result : Result κ) : Bool :=
  match result with
  | .error (.err (.rocksDB _)) => true
  | _ => false

theorem exists_of_refusal {result : Result κ} (h : refusal result = true) :
    ∃ message, result = .error (.err (.rocksDB message)) := by
  unfold refusal at h
  split at h
  · exact ⟨_, rfl⟩
  · exact absurd h Bool.false_ne_true

/-- A call of a query that ends with the error of a database. -/
def Answer.refused : Answer w → Bool
  | .value result => refusal result
  | .sample result => refusal result
  | .walked result _ => refusal result
  | .entry result => refusal result
  | .scanned result _ => refusal result

/-- **A response that is the error of a database.** -/
def Response.refused : Response w → Bool
  | .appended result => refusal result
  | .truncated result => refusal result
  | .reopened result => refusal result
  | .answered (.ok a) => a.refused
  | .answered (.error e) => refusal (Except.error e : Result Unit)

theorem Answer.refused_of_fails {a : Answer w} (h : a.Fails (.err FailingDB.refused)) :
    a.refused = true := by
  cases a with
  | value result | sample result | walked result final | entry result | scanned result final =>
    obtain rfl : result = _ := h
    rfl

/-- A fault is seen. -/
theorem Response.refused_of_fails {r : Response w} (h : r.Fails (.err FailingDB.refused)) :
    r.refused = true := by
  cases r with
  | appended result | truncated result | reopened result =>
    obtain rfl : result = _ := h
    rfl
  | answered result =>
    rcases h with rfl | ⟨a, rfl, ha⟩
    · rfl
    · exact Answer.refused_of_fails ha

/-- **A slate that refuses a command keeps what it is.** -/
theorem SlateOf.execute_of_refused {S : LogStorage (Entry w) Entry.Placed} {H : HashFn w}
    {L n fuel : ℕ} {v : ℕ → Bytes} {s : Slate S.toStorage} (h : SlateOf S H L v n s)
    (hf : INDEX_SIZE < fuel) (command : Command w)
    (hrefused : (Slate.execute S.reopen H fuel command s).1.refused = true) :
    (Slate.execute S.reopen H fuel command s).2 = s := by
  cases command with
  | append value =>
    obtain ⟨message, herr⟩ := exists_of_refusal hrefused
    have hv : ∀ k, 1 ≤ k → k ≤ n → v k = Function.update v (n + 1) value k := fun k _ hk => by
      rw [Function.update_of_ne (by omega)]
    have hvalue : Function.update v (n + 1) value (n + 1) = value := Function.update_self ..
    exact (h.congr hv).eq_of_append_err hvalue.symm (Prod.ext herr rfl)
  | truncate i =>
    by_cases hi : i = 0 ∨ n < i
    · rw [Slate.execute, h.truncate_no hf hi]
    · rw [not_or, Nat.not_lt] at hi
      obtain ⟨s', hcut, -⟩ := h.truncate_ok hf (Nat.pos_of_ne_zero hi.1) hi.2
      rw [Slate.execute, hcut] at hrefused
      exact absurd hrefused Bool.false_ne_true
  | reopen level =>
    obtain ⟨s', hopen, -⟩ := h.reopen level
    simp only [Slate.execute, hopen] at hrefused
    exact absurd hrefused Bool.false_ne_true
  | ask c => exact (h.shows.askNow_eq h.shows _ c).2.1
  | askAt revision c => exact (h.shows.askAt_eq h.shows hf revision c).2.1

/-! ### Attempts -/

/-- A slate on a database that fails now and then. -/
abbrev FatedSlate (w : ℕ) := Slate (FatedDB.calls.storage (Entry.serializable (w := w)))

/-- **An attempt** at a command, and what becomes of the calls that are made for it. -/
structure Attempt (w : ℕ) : Type 1 where
  fates : List Bool
  command : Command w

/-- Nothing is cut while calls fail. -/
def Attempt.Careful (a : Attempt w) : Prop := ∀ i, a.command = .truncate i → true ∉ a.fates

/-- What will become of the next calls. -/
def FatedSlate.arm (fates : List Bool) (t : FatedSlate w) : FatedSlate w :=
  { t with storage := (⟨FatedDB.storage t.storage, fates⟩ : FatedDB) }

/-- Makes an attempt. -/
def Attempt.make (H : HashFn w) (fuel : ℕ) (a : Attempt w) (t : FatedSlate w) :
    Sight w Unit × FatedSlate w :=
  Slate.watch (fun _ => ()) FatedDB.reopen H fuel a.command (t.arm a.fates)

section Runs

variable {hw : w ≤ 64} {H : HashFn w} {P : Bytes} {hashing : Bool} {fuel : ℕ}

/-- Calls that are still to come are no part of what a slate is like. -/
theorem Weathers.arm {s : SlateOn (w := w) .memKVS} {t : FatedSlate w}
    (h : Weathers (FatedDB.fated hw P hashing) H s t) (fates : List Bool) :
    Weathers (FatedDB.fated hw P hashing) H s (t.arm fates) := by
  obtain ⟨t', h1, h2⟩ := h
  exact ⟨t', ⟨h1.position_eq, h1.cache_eq, h1.storage⟩, h2⟩

/-- A slate that weathers faults, and one in memory that has room for some payloads more. -/
def Steady (hw : w ≤ 64) (H : HashFn w) (P : Bytes) (hashing : Bool) (k : ℕ) (t : FatedSlate w)
    (s : SlateOn (w := w) .memKVS) : Prop :=
  (∃ L vs, Reaches .memKVS H L vs s ∧ vs.length + k + 1 < 2 ^ 64) ∧
    Weathers (FatedDB.fated hw P hashing) H s t

/-- **An attempt is refused, or made on both sides.** -/
theorem Steady.make (hf : INDEX_SIZE < fuel) {k : ℕ} {a : Attempt w} (ha : a.Careful)
    {t : FatedSlate w} {s : SlateOn (w := w) .memKVS} (h : Steady hw H P hashing (k + 1) t s) :
    if (a.make H fuel t).1.response.refused then Steady hw H P hashing k (a.make H fuel t).2 s
    else (a.make H fuel t).1 =
        (Slate.watch (fun _ => ()) (Backend.memKVS (w := w)).log.reopen H fuel a.command s).1 ∧
      Steady hw H P hashing k (a.make H fuel t).2
        (Slate.watch (fun _ => ()) (Backend.memKVS (w := w)).log.reopen H fuel a.command s).2 := by
  obtain ⟨⟨L, vs, hs, hlen⟩, hweathers⟩ := h
  have hroom : ∀ value : Bytes, value.length ≤ MAX_PAYLOAD_SIZE →
      Backend.memKVS.Holds H (vs ++ [value]) := by
    intro value hvalue
    refine holds_memKVS.mpr ⟨?_, forall_mem_concat (Backend.Holds.length_le hs.slateOf.fits) hvalue⟩
    rw [List.length_append, List.length_singleton]
    omega
  -- in memory the command is answered, as there is room
  obtain ⟨hpanic, L', vs', hs', hlen'⟩ := hs.execute_of_room hf hroom a.command
  have hkept : ∃ L vs, Reaches .memKVS H L vs s ∧ vs.length + k + 1 < 2 ^ 64 :=
    ⟨L, vs, hs, by omega⟩
  have hcalm : ∀ i, a.command = .truncate i →
      (FatedDB.fated hw P hashing).Calm (t.arm a.fates).storage := ha
  rcases (hweathers.arm a.fates).execute hf a.command hcalm hpanic with ⟨e, rfl, h1, h2⟩ | ⟨h1, h2⟩
  · rw [if_pos (show (a.make H fuel t).1.response.refused = true from
      Response.refused_of_fails h1)]
    exact ⟨hkept, h2⟩
  · by_cases hrefused : (a.make H fuel t).1.response.refused = true
    · -- nothing is refused in memory, but if it were, nothing would have changed either
      rw [if_pos hrefused]
      refine ⟨hkept, ?_⟩
      have hsame := hs.slateOf.execute_of_refused hf a.command (h1 ▸ hrefused)
      rw [hsame] at h2
      exact h2
    · rw [if_neg hrefused]
      refine ⟨?_, ⟨L', vs', hs', by omega⟩, h2⟩
      exact congrArg₂ (fun response root => (⟨response, root, ()⟩ : Sight w Unit)) h1
        h2.root_eq.symm

/-- A slate on a database that has nothing behind the prefix. -/
theorem exists_steady (hw : w ≤ 64) (H : HashFn w) (P : Bytes) (hashing : Bool) (L : ℕ) {db : DB}
    (hdb : ∀ key ∈ region P, db.lookup key = none) {k : ℕ} (hk : k + 1 < 2 ^ 64) :
    ∃ (s : SlateOn (w := w) .memKVS) (t : FatedSlate w),
      openNew .memKVS L = .ok s ∧
      Slate.withCacheLevel (S := FatedDB.calls.storage Entry.serializable)
        (⟨new db P hashing, []⟩ : FatedDB) L = .ok t ∧ Steady hw H P hashing k t s := by
  have hempty : Trails (Entry.serializable (w := w)) P hashing db [] := .nil hdb
  have hroom : nextOf ([] : List (Entry w)) < 2 ^ 64 := Nat.one_lt_two_pow (by decide)
  have hlast := last_eq hempty.shows hroom fun k hk => absurd hk (Nat.not_lt_zero k)
  obtain ⟨s, t', hs, ht, -, htwins⟩ := twins_fresh (trailing hw P hashing) H L hlast
    ⟨db, rfl, hempty⟩
  -- nothing fails while the slate is opened
  let U := FatedDB.fated hw P hashing
  have hcalm : U.Like (⟨new db P hashing, []⟩ : FatedDB) (new db P hashing) ∧
    U.Calm (⟨new db P hashing, []⟩ : FatedDB) := ⟨rfl, List.not_mem_nil⟩
  rcases Slate.Alike.withCacheLevel_cases (R := fun st st' => U.Like st st' ∧ U.Calm st)
    (U.calm_reads (new db P hashing)) hcalm ht with ⟨e, he, -⟩ | ⟨t, hopen, halike⟩
  · exact he.elim
  · exact ⟨s, t, hs, hopen, ⟨L, [], .new hs, by simpa using hk⟩, t', ⟨halike.position_eq,
      halike.cache_eq, halike.storage.1⟩, htwins⟩

/-- **Attempts that fail might as well not have been made.** A slate on a database any call of which
may fail, whatever becomes of the calls that are made for each of the commands, as long as nothing
is cut while calls fail. Leaving out the commands that ended with the error of the database, it has
answered as a slate in memory that is given the others only, and it ends with the same root. There
are fewer attempts than the storage in memory can count entries. -/
theorem attempts_answered (hw : w ≤ 64) (H : HashFn w) (P : Bytes) (hashing : Bool) (L : ℕ)
    (hf : INDEX_SIZE < fuel) {db : DB} (hdb : ∀ key ∈ region P, db.lookup key = none)
    (attempts : List (Attempt w)) (hlen : attempts.length + 1 < 2 ^ 64)
    (hcareful : ∀ a ∈ attempts, a.Careful) :
    ∃ (s : SlateOn (w := w) .memKVS) (t : FatedSlate w),
      openNew .memKVS L = .ok s ∧
      Slate.withCacheLevel (S := FatedDB.calls.storage Entry.serializable)
        (⟨new db P hashing, []⟩ : FatedDB) L = .ok t ∧
      let given := runAll (Attempt.make H fuel) attempts t
      let right := runAll (Slate.watch (fun _ => ()) (Backend.memKVS (w := w)).log.reopen H fuel)
        ((accepted (Attempt.make H fuel) (fun seen => seen.response.refused) attempts t).map
          Attempt.command) s
      given.1.filter (fun seen => !seen.response.refused) = right.1 ∧
        given.2.root = right.2.root := by
  obtain ⟨s, t, hs, ht, h⟩ := exists_steady hw H P hashing L hdb hlen
  refine ⟨s, t, hs, ht, ?_⟩
  obtain ⟨h1, -, h2⟩ := runAll_accepted (fun seen : Sight w Unit => seen.response.refused)
    (R := Steady hw H P hashing) (fun k a t s ha h => Steady.make hf ha h) attempts t s hcareful h
  simp only [runAll_map]
  exact ⟨h1, h2.root_eq.symm⟩

/-- An append that leaves a datum behind, one that replaces it and another one, a look at the first
that fails, a slate that cannot be opened again, a cut, and an append that fails at the very end. -/
def sevenAttempts : List (Attempt 1) :=
  [⟨[false, true], .append [1]⟩, ⟨[], .append [2, 3]⟩, ⟨[], .append []⟩, ⟨[true], .ask (.get 1)⟩,
    ⟨[true], .reopen 0⟩, ⟨[false], .truncate 2⟩, ⟨[false, false, true], .append [5]⟩]

theorem attempts_answered_seven :
    ∃ (s : SlateOn (w := 1) .memKVS) (t : FatedSlate 1),
      openNew .memKVS 1 = .ok s ∧
      let given := runAll (Attempt.make byteSum 65) sevenAttempts t
      let right :=
        runAll (Slate.watch (fun _ => ()) (Backend.memKVS (w := 1)).log.reopen byteSum 65)
          ((accepted (Attempt.make byteSum 65) (fun seen => seen.response.refused) sevenAttempts
            t).map Attempt.command) s
      given.1.filter (fun seen => !seen.response.refused) = right.1 ∧
        given.2.root = right.2.root := by
  have hcareful : ∀ a ∈ sevenAttempts, a.Careful := by simp [sevenAttempts, Attempt.Careful]
  have hempty : ∀ key ∈ region [9], (∅ : DB).lookup key = none := fun _ _ => Finmap.lookup_empty _
  obtain ⟨s, t, hs, -, h⟩ := attempts_answered one_le_64 byteSum [9] true 1
    (show INDEX_SIZE < 65 by decide) hempty sevenAttempts (by decide) hcareful
  exact ⟨s, t, hs, h⟩

end Runs

end StratifiedHashTree
