import StratifiedHashTree.Calls
import StratifiedHashTree.Database

/-!
# Storages that share a database

Several `RocksDBStorage`s on one database, each behind a prefix of its own. A key is the prefix
and eight bytes behind it, and nothing marks where the prefix ends; but as the number of the
bytes behind it is fixed, a key has only one prefix, whatever the bytes are
(`StratifiedHashTree.RocksDBStorage.region_disjoint`).

So there are two things to show, and each follows the text of the operations. What changes a
storage touches no key of another prefix, however it ends
(`StratifiedHashTree.RocksDBStorage.movesAt_put`). What reads a storage looks at no key of
another prefix (`StratifiedHashTree.RocksDBStorage.agree_last`).

What the storages do share is the lock around the database. An operation that panics while it holds
the lock for writing poisons it, and from then on every storage is refused. So a storage gives the
answers it gave before as long as no change panics under the lock, and none at all afterwards
(`StratifiedHashTree.LockedDB.prefixes_apart`).
-/

namespace StratifiedHashTree

open Outcome

/-! ### Changes outside of which a map stays the same -/

section Maps

variable {γ δ : Type} [DecidableEq γ] {K : Set γ} {m m' : Finmap fun _ : γ => δ}

/-- **Two maps agree outside** of a set of keys. -/
def AgreeOutside (K : Set γ) (m m' : Finmap fun _ : γ => δ) : Prop :=
  ∀ key ∉ K, m'.lookup key = m.lookup key

theorem AgreeOutside.refl (m : Finmap fun _ : γ => δ) : AgreeOutside K m m := fun _ _ => rfl

theorem AgreeOutside.trans {m'' : Finmap fun _ : γ => δ} (h : AgreeOutside K m m')
    (h' : AgreeOutside K m' m'') : AgreeOutside K m m'' :=
  fun key hkey => (h' key hkey).trans (h key hkey)

theorem agreeOutside_insert {key : γ} (hkey : key ∈ K) (value : δ) (m : Finmap fun _ : γ => δ) :
    AgreeOutside K m (m.insert key value) := by
  intro other hother
  exact Finmap.lookup_insert_of_ne m fun hcon => hother (hcon ▸ hkey)

theorem agreeOutside_erase {key : γ} (hkey : key ∈ K) (m : Finmap fun _ : γ => δ) :
    AgreeOutside K m (m.erase key) := by
  intro other hother
  exact Finmap.lookup_erase_ne fun hcon => hother (hcon ▸ hkey)

end Maps

namespace RocksDBStorage

variable {α β κ : Type} {P Q : Bytes}

/-! ### The keys behind a prefix -/

/-- The keys behind a prefix. -/
def region (keyPrefix : Bytes) : Set Bytes :=
  {key | ∃ tail, tail.length = 8 ∧ key = keyPrefix ++ tail}

theorem createKey_mem (position : Position) (hashing : Bool) (keyPrefix : Bytes) :
    createKey position hashing keyPrefix ∈ region keyPrefix := by
  refine ⟨beBytes 8 (scrambled hashing position), ?_, createKey_eq position hashing keyPrefix⟩
  rw [beBytes, List.length_reverse, length_leBytes]

/-- **A key has only one prefix.** -/
theorem region_disjoint (hne : P ≠ Q) : ∀ key ∈ region P, key ∉ region Q := by
  rintro key ⟨tail, hlen, rfl⟩ ⟨tail', hlen', h⟩
  exact hne (List.append_inj' h (hlen.trans hlen'.symm)).1

/-! ### What an operation touches -/

/-- The storage is one behind a prefix. -/
structure Behind (P : Bytes) (s : RocksDBStorage) : Prop where
  prefix_eq : s.keyPrefix = P
  metadata_mem : s.keyForMetadata ∈ region P

theorem behind_new (db : DB) (keyPrefix : Bytes) (hashing : Bool) :
    Behind keyPrefix (new db keyPrefix hashing) := ⟨rfl, createKey_mem 0 hashing keyPrefix⟩

theorem Behind.key_mem {self : RocksDBStorage} (h : Behind P self) (i : Index) :
    self.key i ∈ region P := by
  rw [← h.prefix_eq]
  exact createKey_mem i self.keyHashing self.keyPrefix

/-- **A storage behind a prefix moves on**: it stays behind it, and only keys behind it change. -/
def Moves (keyPrefix : Bytes) (self self' : RocksDBStorage) : Prop :=
  Behind keyPrefix self →
    Behind keyPrefix self' ∧ AgreeOutside (region keyPrefix) self.db self'.db

instance : Std.Refl (Moves P) := ⟨fun _ h => ⟨h, .refl _⟩⟩

instance : IsTrans RocksDBStorage (Moves P) := ⟨fun _ _ _ h h' hs =>
  ⟨(h' (h hs).1).1, (h hs).2.trans (h' (h hs).1).2⟩⟩

section Writing

variable {s : RocksDBStorage}

theorem movesAt_get (key : Bytes) : Prog.MovesAt (Moves P) (get key) s :=
  fun h => ⟨h, .refl _⟩

theorem movesAt_dbPut {key : Bytes} (hkey : key ∈ region P) (value : Bytes) :
    Prog.MovesAt (Moves P) (dbPut key value) s :=
  fun h => ⟨⟨h.prefix_eq, h.metadata_mem⟩, agreeOutside_insert hkey value s.db⟩

theorem movesAt_delete {key : Bytes} (hkey : key ∈ region P) :
    Prog.MovesAt (Moves P) (delete key) s :=
  fun h => ⟨⟨h.prefix_eq, h.metadata_mem⟩, agreeOutside_erase hkey s.db⟩

theorem movesAt_getMetadata : Prog.MovesAt (Moves P) getMetadata s := by
  refine Prog.MovesAt.get_bind ((movesAt_get s.keyForMetadata).bind fun value t _ => ?_)
  rcases value with _ | value
  · exact .pure none t
  · simp only
    split
    · exact .lift _ t
    · exact (Prog.MovesAt.lift _ t).bind fun _ t' _ => .pure _ t'

theorem movesAt_setMetadata (hs : Behind P s) (next : Position) :
    Prog.MovesAt (Moves P) (setMetadata next) s := by
  refine (Prog.MovesAt.lift _ s).bind fun _ t h => Prog.MovesAt.get_bind ?_
  obtain rfl : s = t := (Prod.mk.inj h).2
  split
  · exact movesAt_delete hs.metadata_mem
  · refine (movesAt_get s.keyForMetadata).bind fun value t h => ?_
    obtain rfl : s = t := (Prod.mk.inj h).2
    exact movesAt_dbPut hs.metadata_mem _

theorem movesAt_store (hs : Behind P s) {key : Bytes} (hkey : key ∈ region P) (value : Bytes)
    (position : Position) : Prog.MovesAt (Moves P) (DBCalls.plain.store key value position) s := by
  have hput := movesAt_dbPut (s := s) hkey value
  refine hput.bind fun _ s1 h1 => ?_
  obtain rfl : _ = s1 := (Prod.mk.inj h1).2
  refine (Prog.MovesAt.lift _ _).bind fun next s2 h2 => ?_
  obtain rfl : _ = s2 := (Prod.mk.inj h2).2
  exact movesAt_setMetadata (hput hs).1 next

/-- **A `put` touches no key of another prefix.** -/
theorem movesAt_put (S : Serializable α) (hs : Behind P s) (position : Position) (x : α) :
    Prog.MovesAt (Moves P) (put S position x) s := by
  refine (Prog.MovesAt.lift _ s).bind fun _ t h => Prog.MovesAt.get_bind ?_
  obtain rfl : s = t := (Prod.mk.inj h).2
  rcases S.write extend x [] with ⟨e | n, value⟩
  · exact .lift _ s
  · exact (movesAt_store hs (hs.key_mem position) value position).bind fun _ t _ => .lift _ t

theorem movesAt_truncateFrom (fuel : ℕ) (hs : Behind P s) (p : Position) :
    Prog.MovesAt (Moves P) (truncateFrom fuel p) s := by
  induction fuel generalizing s p with
  | zero => exact Std.Refl.refl (r := Moves P) s
  | succ fuel ih =>
    refine Prog.MovesAt.get_bind ((movesAt_get (s.key p)).bind fun value t h => ?_)
    obtain rfl : s = t := (Prod.mk.inj h).2
    rcases value with _ | value
    · exact .pure () s
    · have hdel := movesAt_delete (s := s) (hs.key_mem p)
      refine hdel.bind fun _ s1 h1 => ?_
      obtain rfl : _ = s1 := (Prod.mk.inj h1).2
      refine (Prog.MovesAt.lift _ _).bind fun next s2 h2 => ?_
      obtain rfl : _ = s2 := (Prod.mk.inj h2).2
      exact ih (hdel hs).1 next

theorem movesAt_cut (hs : Behind P s) (position : Position) :
    Prog.MovesAt (Moves P) (DBCalls.plain.cut position) s := by
  refine movesAt_getMetadata.bind fun next t h => ?_
  have ht : Behind P t := by
    have h1 := (movesAt_getMetadata (P := P) (s := s) hs).1
    rwa [h] at h1
  rcases next with _ | next
  · exact .pure false t
  · refine (Prog.MovesAt.lift _ t).bind fun _ t' h => ?_
    obtain rfl : t = t' := (Prod.mk.inj h).2
    split
    · have hloop := movesAt_truncateFrom (t.db.keys.card + 1) ht position
      refine Prog.MovesAt.get_bind (hloop.bind fun _ t' h => ?_)
      have ht' : Behind P t' := by
        have h1 := (hloop ht).1
        rwa [h] at h1
      exact (movesAt_setMetadata ht' position).bind fun _ t _ => .pure true t
    · exact .pure false t

/-- **A `truncate` touches no key of another prefix.** -/
theorem movesAt_truncate (hs : Behind P s) (position : Position) :
    Prog.MovesAt (Moves P) (truncate position) s := by
  refine (Prog.MovesAt.lift _ s).bind fun _ t h => ?_
  obtain rfl : s = t := (Prod.mk.inj h).2
  exact movesAt_cut hs position

end Writing

/-! ### What an operation looks at -/

/-- **Two storages show the same behind a prefix.** -/
structure Alike (P : Bytes) (s t : RocksDBStorage) : Prop where
  behind : Behind P s
  keyPrefix : s.keyPrefix = t.keyPrefix
  keyHashing : s.keyHashing = t.keyHashing
  keyForMetadata : s.keyForMetadata = t.keyForMetadata
  lookup : ∀ key ∈ region P, s.db.lookup key = t.db.lookup key

section Reading

variable {s t : RocksDBStorage} (S : Serializable α)

theorem Alike.key_eq (h : Alike P s t) (i : Index) : s.key i = t.key i := by
  rw [key, key, h.keyPrefix, h.keyHashing]

theorem agreeAt_get (h : Alike P s t) {key : Bytes} (hkey : key ∈ region P) :
    Prog.AgreeAt (Alike P) Prog.Never Prog.Never (get key) (get key) s t :=
  .of_eq rfl (congrArg (fun value => (Except.ok value, t)) (h.lookup key hkey).symm) h

/-- Looking at a datum. -/
theorem agreeAt_get_key (h : Alike P s t) (i : Index) :
    Prog.AgreeAt (Alike P) Prog.Never Prog.Never (get (s.key i)) (get (t.key i)) s t := by
  rw [← h.key_eq]
  exact agreeAt_get h (h.behind.key_mem i)

theorem agree_getMetadata :
    Prog.Agree (Alike P) Prog.Never Prog.Never getMetadata getMetadata := by
  intro s t h
  refine Prog.AgreeAt.get ?_
  rw [← h.keyForMetadata]
  refine (agreeAt_get h h.behind.metadata_mem).bind fun value s' t' _ _ h' => ?_
  rcases value with _ | value
  · exact Prog.Agree.pure none h'
  · simp only
    split
    · exact Prog.Agree.lift _ h'
    · exact (Prog.Agree.lift _).bind (fun _ => .pure _) h'

theorem agree_first :
    Prog.Agree (Alike P) Prog.Never Prog.Never (first S) (first S) := by
  intro s t h
  refine Prog.AgreeAt.get ?_
  refine Prog.AgreeAt.ok_bind (DBCalls.plain_lockRead s) (DBCalls.plain_lockRead t) ?_
  refine (agreeAt_get_key h 1).bind fun value s' t' _ _ h' => ?_
  rcases value with _ | value
  · exact Prog.Agree.pure _ h'
  · exact (Prog.Agree.lift _).bind (fun _ => .pure _) h'

theorem agree_last :
    Prog.Agree (Alike P) Prog.Never Prog.Never (last S) (last S) := by
  refine (Prog.Agree.pure ()).bind fun _ => agree_getMetadata.bind fun next => ?_
  rcases next with _ | next
  · exact .pure _
  · refine (Prog.Agree.lift _).bind fun position => fun s t h => Prog.AgreeAt.get ?_
    refine (agreeAt_get_key h position).bind fun value s' t' _ _ h' => ?_
    rcases value with _ | value
    · simp only
      rw [h.key_eq]
      exact Prog.Agree.err _ h'
    · exact (Prog.Agree.lift _).bind (fun _ => (Prog.Agree.lift _).bind fun _ => .pure _) h'

theorem agree_read (position : Position) :
    Prog.Agree (Alike P) Prog.Never Prog.Never (read S position) (read S position) := by
  intro s t h
  refine Prog.AgreeAt.get ?_
  refine Prog.AgreeAt.ok_bind (DBCalls.plain_lockRead s) (DBCalls.plain_lockRead t) ?_
  refine (agreeAt_get_key h position).bind fun value s' t' _ _ h' => ?_
  rcases value with _ | value
  · simp only
    rw [h.keyPrefix, h.keyHashing]
    exact Prog.Agree.err _ h'
  · exact Prog.Agree.lift _ h'

theorem agree_scanFrom (callback : ScanFn α κ) (count : ℕ) (position : Position) :
    Prog.Agree (Prog.Beside κ (Alike P)) Prog.Never Prog.Never
      (scanFrom S callback count position) (scanFrom S callback count position) := by
  induction count generalizing position with
  | zero => exact .pure 0
  | succ count ih =>
    rintro ⟨a, s⟩ ⟨b, t⟩ ⟨hab, h⟩
    obtain rfl : a = b := hab
    rw [scanFrom, DBCalls.scanFrom]
    refine Prog.AgreeAt.ok_bind (Prog.onSnd_run (DBCalls.plain_self s) a)
      (Prog.onSnd_run (DBCalls.plain_self t) a) ?_
    refine (Prog.AgreeAt.onSnd a (agreeAt_get_key h position)).bind fun value s' t' _ _ h' => ?_
    obtain ⟨a', s'⟩ := s'
    obtain ⟨b', t'⟩ := t'
    obtain ⟨hab, h⟩ := h'
    obtain rfl : a' = b' := hab
    rcases value with _ | value
    · exact .of_eq rfl rfl ⟨rfl, h⟩
    · refine Prog.AgreeAt.lift_bind ⟨rfl, h⟩ _ fun data _ => Prog.AgreeAt.get ?_
      simp only
      rcases callback data a' with ⟨e | _, a'⟩
      · simp only
        exact .of_eq rfl rfl ⟨rfl, h⟩
      · simp only
        exact Prog.AgreeAt.bind (.of_eq rfl rfl ⟨rfl, h⟩) fun _ s' t' _ _ h' =>
          ((Prog.Agree.lift _).bind fun next => (ih next).bind fun read => .pure _) h'

end Reading

end RocksDBStorage

/-! ### The lock around the database -/

open RocksDBStorage

/-- A storage on a database behind a lock, and whether the lock is poisoned. -/
structure LockedDB where
  storage : RocksDBStorage
  poisoned : Bool

namespace LockedDB

variable {α β κ σ : Type} {P Q : Bytes}

/-- The error of a lock that is poisoned. -/
def poisonError : Error := .lockError "poisoned lock: another task failed inside"

/-- What is done to the storage under the lock. -/
def inside (x : Run RocksDBStorage β) : Run LockedDB β := fun self =>
  ((x self.storage).1, { self with storage := (x self.storage).2 })

/-- `RwLock::read`. -/
def lockRead : Run LockedDB Unit := fun self =>
  (if self.poisoned then err poisonError else .ok (), self)

/-- `RwLock::write`, and what is done while the lock is held. A panic poisons it. -/
def underWrite (x : Run LockedDB β) : Run LockedDB β := fun self =>
  if self.poisoned then (err poisonError, self)
  else match x self with
    | (.error (.panic p), self') => (Outcome.panic p, { self' with poisoned := true })
    | result => result

/-- **What becomes of an operation that takes the lock for writing**: it is refused, it panics, or
it is what is done under the lock. -/
theorem underWrite_cases (x : Run LockedDB β) (self : LockedDB) :
    (self.poisoned = true ∧ underWrite x self = (err poisonError, self)) ∨
    (self.poisoned = false ∧ ∃ p self', x self = (Outcome.panic p, self') ∧
      underWrite x self = (Outcome.panic p, { self' with poisoned := true })) ∨
    (self.poisoned = false ∧ (∀ p, (x self).1 ≠ Outcome.panic p) ∧ underWrite x self = x self) := by
  rcases hlock : self.poisoned with _ | _
  · refine Or.inr ?_
    rw [underWrite, hlock, if_neg Bool.false_ne_true]
    rcases x self with ⟨⟨e | p | _⟩ | b, self'⟩
    · exact Or.inr ⟨rfl, fun p hp => by simp [Outcome.panic] at hp, rfl⟩
    · exact Or.inl ⟨rfl, p, self', rfl, rfl⟩
    · exact Or.inr ⟨rfl, fun p hp => by simp [Outcome.panic] at hp, rfl⟩
    · exact Or.inr ⟨rfl, fun p hp => by simp [Outcome.panic] at hp, rfl⟩
  · exact Or.inl ⟨rfl, by rw [underWrite, hlock, if_pos rfl]⟩

/-- Whether the value is forgotten under the lock or afterwards makes no difference. -/
theorem underWrite_bind_pure (x : Run LockedDB β) (self : LockedDB) :
    (underWrite x >>= fun _ => pure ()) self = underWrite (x >>= fun _ => pure ()) self := by
  rcases hlock : self.poisoned with _ | _
  · rw [Prog.bind_run, underWrite, underWrite, hlock, if_neg Bool.false_ne_true,
      if_neg Bool.false_ne_true, Prog.bind_run]
    rcases x self with ⟨⟨e | p | _⟩ | b, self'⟩
    · rfl
    · rfl
    · rfl
    · rfl
  · rw [Prog.bind_run, underWrite, underWrite, hlock, if_pos rfl, if_pos rfl]
    rfl

/-- What returns has been done. -/
theorem underWrite_ok {x : Run LockedDB β} {self self' : LockedDB} {b : β}
    (h : underWrite x self = (.ok b, self')) : x self = (.ok b, self') := by
  rcases underWrite_cases x self with ⟨-, h1⟩ | ⟨-, p, s, -, h1⟩ | ⟨-, -, h1⟩
  · exact absurd (congrArg Prod.fst (h1.symm.trans h)) (by simp [err])
  · exact absurd (congrArg Prod.fst (h1.symm.trans h)) (by simp [Outcome.panic])
  · exact h1.symm.trans h

/-- The calls of such a database. -/
def calls : DBCalls LockedDB where
  self := inside Prog.get
  get key := inside (RocksDBStorage.get key)
  dbPut key value := inside (RocksDBStorage.dbPut key value)
  delete key := inside (RocksDBStorage.delete key)
  lockRead := lockRead
  underWrite := underWrite

/-- Another storage on the same database. -/
def behind (self : LockedDB) (keyPrefix : Bytes) (hashing : Bool) : LockedDB :=
  { self with storage := new self.storage.db keyPrefix hashing }

/-- The storage, and the lock is not poisoned. -/
def Free (self : LockedDB) (st : RocksDBStorage) : Prop :=
  self.storage = st ∧ self.poisoned = false

theorem reports_inside (x : Run RocksDBStorage β) {I : LockedDB → Prop} :
    Prog.Reports I Free Prog.Never (inside x) x := by
  rintro self _ ⟨rfl, hfree⟩
  exact .of_eq rfl rfl ⟨rfl, hfree⟩

/-- **As long as the lock is free**, the calls are the plain ones. -/
theorem writing : calls.Writing (fun _ => True) Free Prog.Never where
  self := reports_inside _
  get key := reports_inside _
  lockRead := by
    rintro self st ⟨hst, hfree⟩
    have hlock : lockRead self = (.ok (), self) := by
      change (if self.poisoned then err poisonError else .ok (), self) = _
      rw [hfree]
      rfl
    exact .of_eq hlock rfl ⟨hst, hfree⟩
  dbPut key value := reports_inside _
  delete key := reports_inside _

/-! ### Changing a storage -/

/-- An operation that changes a storage. -/
inductive Write (α : Type) where
  | put (position : Position) (entry : α)
  | truncate (position : Position)

namespace Write

variable (S : Serializable α)

/-- Runs the operation. -/
def run : Write α → Run LockedDB Unit
  | put position entry => do
    let _ ← calls.put S position entry
    return ()
  | truncate position => do
    let _ ← calls.truncate position
    return ()

/-- The operation gets as far as the lock. -/
def Reaches : Write α → Prop
  | put position entry => position ≠ 0 ∧ ∃ n, (S.write extend entry []).1 = .ok n
  | truncate position => position ≠ 0

/-- **The operation panics while it holds the lock.** -/
def Breaks (write : Write α) (self : LockedDB) : Prop :=
  write.Reaches S ∧ ∃ p, (write.run S self).1 = Outcome.panic p

/-- What the operation does under the lock. -/
def work (C : DBCalls σ) (self : RocksDBStorage) : Write α → Run σ Unit
  | put position entry => C.store (self.key position) (S.bytes entry) position
  | truncate position => do
    let _ ← C.cut position
    return ()

variable {S} {write : Write α} {self : LockedDB}

/-- What is done under a free lock is done as on the storage alone. -/
theorem reports_work (write : Write α) (st : RocksDBStorage) :
    Prog.Reports (fun _ => True) Free Prog.Never (write.work S calls st)
      (write.work S DBCalls.plain st) := by
  cases write with
  | put position entry => exact writing.store _ _ position
  | truncate position => exact (writing.cut position).bind fun _ => .pure ()

/-- A datum has only been stored if there is a number after its own. -/
theorem lt_of_store {key value : Bytes} {position : ℕ} {self' : LockedDB}
    (h : calls.store key value position self = (.ok (), self')) : position + 1 < 2 ^ 64 := by
  by_contra hlast
  have hput : calls.dbPut key value self = (.ok (), (calls.dbPut key value self).2) := rfl
  rw [DBCalls.store, Prog.bind_ok hput, addBits, if_neg hlast] at h
  exact absurd (congrArg Prod.fst h) (by simp [Prog.bind_run, Outcome.panic])

/-- An operation that does not get to the lock changes nothing. -/
theorem run_of_not_reaches (h : ¬write.Reaches S) : (write.run S self).2 = self := by
  cases write with
  | put position entry =>
    by_cases hp : position = 0
    · subst hp
      rfl
    · have hself : calls.self self = (.ok self.storage, self) := rfl
      rw [run, DBCalls.put, Prog.liftM_eq, debugAssert_of hp, Prog.lift_ok_bind, bind_assoc,
        Prog.bind_ok hself]
      rcases hwrite : S.write extend entry [] with ⟨e | n, value⟩
      · rfl
      · exact absurd ⟨hp, n, congrArg Prod.fst hwrite⟩ h
  | truncate position =>
    obtain rfl : position = 0 := not_not.mp h
    rfl

/-- **An operation that gets to the lock** is what is done under it. -/
theorem run_of_reaches (h : write.Reaches S) :
    write.run S self = underWrite (write.work S calls self.storage) self := by
  cases write with
  | put position entry =>
    obtain ⟨hp, n, hwrite⟩ := h
    have hvalue : S.write extend entry [] = (.ok n, S.bytes entry) := Prod.ext hwrite rfl
    have hself : calls.self self = (.ok self.storage, self) := rfl
    rw [run, DBCalls.put, Prog.liftM_eq, debugAssert_of hp, Prog.lift_ok_bind, bind_assoc,
      Prog.bind_ok hself]
    simp only [hvalue, bind_assoc]
    change (underWrite (work S calls self.storage (put position entry)) >>= fun _ => _) self = _
    rcases hwork : underWrite (work S calls self.storage (put position entry)) self with
      ⟨e | ⟨⟩, self'⟩
    · exact Prog.bind_error hwork
    · rw [Prog.bind_ok hwork, Prog.liftM_eq, addBits_of_lt (lt_of_store (underWrite_ok hwork))]
      rfl
  | truncate position =>
    have hp : position ≠ 0 := h
    rw [run, DBCalls.truncate, Prog.liftM_eq, debugAssert_of hp, Prog.lift_ok_bind]
    exact underWrite_bind_pure (calls.cut position) self

/-- An operation that returns does not break the lock. -/
theorem not_breaks_of_ok (h : (write.run S self).1 = .ok ()) : ¬write.Breaks S self := by
  rintro ⟨-, p, hp⟩
  rw [h] at hp
  simp [Outcome.panic] at hp

/-- **What becomes of an operation**: it changes nothing and does not break the lock, or it is done
under the lock, which is poisoned afterwards if the operation breaks it. -/
theorem run_cases (S : Serializable α) (write : Write α) (self : LockedDB) :
    ((write.run S self).2 = self ∧ ¬write.Breaks S self) ∨
    ∃ b, self.poisoned = false ∧ (b = true ↔ write.Breaks S self) ∧ (write.run S self).2 =
      ⟨(write.work S DBCalls.plain self.storage self.storage).2, b⟩ := by
  by_cases h : write.Reaches S
  · rw [Breaks, run_of_reaches h]
    have hwork : self.poisoned = false → (write.work S calls self.storage self).2 =
        ⟨(write.work S DBCalls.plain self.storage self.storage).2, false⟩ := by
      intro hfree
      obtain ⟨-, h1, h2⟩ := (reports_work (S := S) write self.storage ⟨rfl, hfree⟩).outcome
      rw [← h1, ← h2]
    rcases underWrite_cases (write.work S calls self.storage) self with
      ⟨-, h1⟩ | ⟨hfree, p, self', h1, h2⟩ | ⟨hfree, h1, h2⟩
    · refine Or.inl ⟨congrArg Prod.snd h1, ?_⟩
      rintro ⟨-, p, hp⟩
      rw [h1] at hp
      simp [err, Outcome.panic] at hp
    · refine Or.inr ⟨true, hfree, iff_of_true rfl ⟨h, p, congrArg Prod.fst h2⟩, ?_⟩
      have h3 : self' = ⟨(write.work S DBCalls.plain self.storage self.storage).2, false⟩ := by
        rw [← hwork hfree, h1]
      rw [h2, h3]
    · refine Or.inr ⟨false, hfree, iff_of_false Bool.false_ne_true ?_, ?_⟩
      · rintro ⟨-, p, hp⟩
        rw [h2] at hp
        exact h1 p hp
      · rw [h2, hwork hfree]
  · exact Or.inl ⟨run_of_not_reaches h, fun hcon => h hcon.1⟩

/-- The lock is poisoned when it was, or when the operation breaks it. -/
theorem poisoned_run (write : Write α) (self : LockedDB) :
    (write.run S self).2.poisoned = true ↔ self.poisoned = true ∨ write.Breaks S self := by
  rcases run_cases S write self with ⟨h1, h2⟩ | ⟨b, hfree, hb, h1⟩
  · rw [h1]
    exact (or_iff_left h2).symm
  · rw [h1, ← hb, hfree]
    simp

/-- **Every operation touches only keys of its own prefix.** -/
theorem moves_run (write : Write α) (self : LockedDB) :
    Moves P self.storage (write.run S self).2.storage := by
  intro hs
  rcases run_cases S write self with ⟨h1, -⟩ | ⟨b, -, -, h1⟩
  · rw [h1]
    exact ⟨hs, .refl _⟩
  · rw [h1]
    cases write with
    | put position entry => exact movesAt_store hs (hs.key_mem position) _ position hs
    | truncate position =>
      exact (movesAt_cut hs position).bind (fun _ t _ => Prog.MovesAt.pure () t) hs

end Write

/-- **The lock is poisoned by the operation that breaks it**, and stays poisoned. -/
theorem poisoned_runAll (S : Serializable α) (writes : List (Write α)) (self : LockedDB) :
    (runAll (Write.run S) writes self).2.poisoned = true ↔ self.poisoned = true ∨
      ¬Always (Write.run S) (fun write s => ¬write.Breaks S s) writes self := by
  induction writes generalizing self with
  | nil => exact (or_iff_left fun hcon => hcon trivial).symm
  | cons write writes ih =>
    refine (ih (write.run S self).2).trans ?_
    rw [Write.poisoned_run, or_assoc]
    exact or_congr_right (not_and_or.trans (or_congr_left not_not)).symm

/-- Any number of operations touch only keys of their own prefix. -/
theorem moves_runAll (S : Serializable α) (writes : List (Write α)) (self : LockedDB) :
    Moves P self.storage (runAll (Write.run S) writes self).2.storage := by
  induction writes generalizing self with
  | nil => exact Std.Refl.refl (r := Moves P) self.storage
  | cons write writes ih => exact IsTrans.trans _ _ _ (write.moves_run self) (ih _)

/-! ### Asking a storage -/

/-- **Two storages answer alike** whatever they are asked. -/
structure AnswersAlike (T : Serializable β) (s t : LockedDB) : Prop where
  first : (calls.first T s).1 = (calls.first T t).1
  last : (calls.last T s).1 = (calls.last T t).1
  read : ∀ position, (calls.read T position s).1 = (calls.read T position t).1
  scan : ∀ {κ : Type} (callback : ScanFn β κ) (position : Position) (count : ℕ) (a : κ),
    (calls.scan T position count callback (a, s)).1 =
      (calls.scan T position count callback (a, t)).1 ∧
    (calls.scan T position count callback (a, s)).2.1 =
      (calls.scan T position count callback (a, t)).2.1

/-- **A storage refuses** whatever it is asked. -/
structure Refuses (T : Serializable β) (self : LockedDB) : Prop where
  first : calls.first T self = (err poisonError, self)
  last : calls.last T self = (err poisonError, self)
  read : ∀ position, calls.read T position self = (err poisonError, self)
  scan : ∀ {κ : Type} (callback : ScanFn β κ) (position : Position) (count : ℕ) (a : κ),
    calls.scan T position count callback (a, self) = (err poisonError, (a, self))

/-- What shows the same behind a prefix answers alike. -/
theorem AnswersAlike.of_alike {s t : LockedDB} (h : Alike P s.storage t.storage)
    (hs : s.poisoned = false) (ht : t.poisoned = false) (T : Serializable β) :
    AnswersAlike T s t where
  first := by
    have h1 := (writing.first T (s := s) ⟨rfl, hs⟩).outcome.1
    have h2 := (writing.first T (s := t) ⟨rfl, ht⟩).outcome.1
    exact h1.trans ((agree_first T h).outcome.1.trans h2.symm)
  last := by
    have h1 := (writing.last T (s := s) ⟨rfl, hs⟩).outcome.1
    have h2 := (writing.last T (s := t) ⟨rfl, ht⟩).outcome.1
    exact h1.trans ((agree_last T h).outcome.1.trans h2.symm)
  read position := by
    have h1 := (writing.read T position (s := s) ⟨rfl, hs⟩).outcome.1
    have h2 := (writing.read T position (s := t) ⟨rfl, ht⟩).outcome.1
    exact h1.trans ((agree_read T position h).outcome.1.trans h2.symm)
  scan {κ} callback position count a := by
    obtain ⟨h1, h2, -⟩ := (writing.scan T position count callback (s := (a, s))
      (t := (a, s.storage)) ⟨rfl, rfl, hs⟩).outcome
    obtain ⟨h3, h4, -⟩ := (writing.scan T position count callback (s := (a, t))
      (t := (a, t.storage)) ⟨rfl, rfl, ht⟩).outcome
    obtain ⟨h5, h6, -⟩ := (agree_scanFrom T callback count position
      (s := (a, s.storage)) (t := (a, t.storage)) ⟨rfl, h⟩).outcome
    exact ⟨h1.trans (h5.trans h3.symm), h2.trans (h6.trans h4.symm)⟩

/-- A poisoned lock lets nobody in. -/
theorem refuses_of_poisoned {self : LockedDB} (h : self.poisoned = true) (T : Serializable β) :
    Refuses T self := by
  have hself : calls.self self = (.ok self.storage, self) := rfl
  have hlock : calls.lockRead self = (err poisonError, self) := by
    change (if self.poisoned then err poisonError else .ok (), self) = _
    rw [if_pos h]
  refine ⟨?_, ?_, fun position => ?_, fun callback position count a => ?_⟩
  · rw [DBCalls.first, Prog.bind_ok hself, Prog.bind_error hlock]
    rfl
  · rw [DBCalls.last, Prog.bind_error hlock]
    rfl
  · rw [DBCalls.read, Prog.bind_ok hself, Prog.bind_error hlock]
    rfl
  · rw [DBCalls.scan, Prog.bind_error (Prog.onSnd_run hlock a)]
    rfl

/-! ### Storages with different prefixes -/

/-- **Storages with different prefixes share nothing but the lock.** Whatever is put into the one
and cut off from it: as long as no operation panics while it holds the lock, the other one gives
the answers it gave before, and afterwards it gives none. -/
theorem prefixes_apart (hne : P ≠ Q) (S : Serializable α) (T : Serializable β)
    (hashing hashing' : Bool) (db : DB) (writes : List (Write α)) :
    let start : LockedDB := ⟨new db P hashing, false⟩
    let final := (runAll (Write.run S) writes start).2
    (Always (Write.run S) (fun write s => ¬write.Breaks S s) writes start →
      AnswersAlike T (final.behind Q hashing') (start.behind Q hashing')) ∧
    (¬Always (Write.run S) (fun write s => ¬write.Breaks S s) writes start →
      Refuses T (final.behind Q hashing')) := by
  intro start final
  have hlock := poisoned_runAll S writes start
  have hmoves : AgreeOutside (region P) db final.storage.db :=
    (moves_runAll S writes start (behind_new db P hashing)).2
  have halike : Alike Q (new final.storage.db Q hashing') (new db Q hashing') :=
    ⟨behind_new _ Q hashing', rfl, rfl, rfl, fun key hkey =>
      hmoves key (region_disjoint hne.symm key hkey)⟩
  refine ⟨fun h => ?_, fun h => ?_⟩
  · have hfree : final.poisoned = false := by
      rw [← Bool.not_eq_true, hlock]
      rintro (hcon | hcon)
      · exact absurd hcon Bool.false_ne_true
      · exact hcon h
    exact AnswersAlike.of_alike (s := final.behind Q hashing') (t := start.behind Q hashing') halike
      hfree rfl T
  · have hpoisoned : (final.behind Q hashing').poisoned = true := hlock.mpr (Or.inr h)
    exact refuses_of_poisoned hpoisoned T

/-- An entry of the first generation, with some hash. -/
def onlyEntry : Entry 1 where
  enode := { metaInfo := ⟨⟨1, 0, 1⟩, ⟨[9], rfl⟩⟩, payload := [1, 2, 3] }
  inodes := []

/-- An empty prefix, and one that goes on: an entry is put, and cut off again. -/
theorem prefixes_apart_nil : AnswersAlike (Entry.serializable (w := 1))
    ((runAll (Write.run Entry.serializable) [.put 1 onlyEntry, .truncate 1]
      ⟨new ∅ [] true, false⟩).2.behind [0] false)
    (LockedDB.behind ⟨new ∅ [] true, false⟩ [0] false) := by
  have hput : ((Write.put 1 onlyEntry).run Entry.serializable ⟨new ∅ [] true, false⟩).1 = .ok () :=
    rfl
  have hcut : ((Write.truncate 1).run (Entry.serializable (w := 1))
    ((Write.put 1 onlyEntry).run Entry.serializable ⟨new ∅ [] true, false⟩).2).1 = .ok () := rfl
  exact (prefixes_apart (P := []) (Q := [0]) (by decide) Entry.serializable Entry.serializable true
    false ∅ [.put 1 onlyEntry, .truncate 1]).1
      ⟨Write.not_breaks_of_ok hput, Write.not_breaks_of_ok hcut, trivial⟩

/-- A database with one record, which is too short to be the next number of a storage behind the
empty prefix. -/
def shortRecord : LockedDB := ⟨new (Finmap.singleton (createKey 0 true []) []) [] true, false⟩

/-- **A change that panics stops the other storage.** To cut the storage behind the empty prefix
panics; the one behind the other prefix was empty, and cannot be asked any more. -/
theorem not_prefixes_apart : ¬AnswersAlike (Entry.serializable (w := 1))
    ((runAll (Write.run (Entry.serializable (w := 1))) [.truncate 1] shortRecord).2.behind
      [0] false) (shortRecord.behind [0] false) := by
  intro h
  have hbefore : (calls.first (Entry.serializable (w := 1)) (shortRecord.behind [0] false)).1 =
    .ok (none, 1) := rfl
  have hafter : (calls.first (Entry.serializable (w := 1)) ((runAll
      (Write.run (Entry.serializable (w := 1))) [.truncate 1] shortRecord).2.behind [0] false)).1 =
    err poisonError := rfl
  exact absurd (hafter.symm.trans (h.first.trans hbefore)) (by simp [err])

end LockedDB

end StratifiedHashTree
