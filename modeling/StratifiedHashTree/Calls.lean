import StratifiedHashTree.RocksDB

/-!
# Two ways to use a database

The operations of `RocksDBStorage` do not ask how the database is called. So what is true of the
calls is true of the operations: where the calls do what the plain ones do, or report a fault, so
does an operation that reads (`StratifiedHashTree.DBCalls.Reading.last`), and what an operation that
writes does under the lock (`StratifiedHashTree.DBCalls.Writing.cut`).
-/

namespace StratifiedHashTree

open Outcome RocksDBStorage
open Prog (Reports ReportsAt Beside)

variable {α σ κ : Type}

namespace DBCalls

/-- **Calls that read what the plain ones read, or report a fault.** -/
structure Reading (C : DBCalls σ) (I : σ → Prop) (R : σ → RocksDBStorage → Prop)
    (P : Failure Error → Prop) : Prop where
  self : Reports I R P C.self plain.self
  get : ∀ key, Reports I R P (C.get key) (plain.get key)
  lockRead : Reports I R P C.lockRead plain.lockRead

/-- **Calls that do what the plain ones do, or report a fault.** -/
structure Writing (C : DBCalls σ) (I : σ → Prop) (R : σ → RocksDBStorage → Prop)
    (P : Failure Error → Prop) : Prop extends Reading C I R P where
  dbPut : ∀ key value, Reports I R P (C.dbPut key value) (plain.dbPut key value)
  delete : ∀ key, Reports I R P (C.delete key) (plain.delete key)

variable {C : DBCalls σ} {I : σ → Prop} {R : σ → RocksDBStorage → Prop} {P : Failure Error → Prop}

/-! ### Reading -/

theorem Reading.getMetadata (h : Reading C I R P) :
    Reports I R P C.getMetadata plain.getMetadata := by
  rw [DBCalls.getMetadata, DBCalls.getMetadata]
  refine h.self.bind fun self => (h.get _).bind fun value => ?_
  cases value with
  | none => exact .pure none
  | some value =>
    simp only
    by_cases hlen : value.length < 8
    · rw [if_pos hlen, if_pos hlen]
      exact .lift _
    · rw [if_neg hlen, if_neg hlen]
      exact (Reports.lift _).bind fun _ => .pure _

theorem Reading.first (h : Reading C I R P) (S : Serializable α) :
    Reports I R P (C.first S) (plain.first S) := by
  rw [DBCalls.first, DBCalls.first]
  refine h.self.bind fun self => h.lockRead.bind fun _ => (h.get _).bind fun value => ?_
  cases value with
  | none => exact .pure _
  | some value => exact (Reports.lift _).bind fun data => .pure _

theorem Reading.last (h : Reading C I R P) (S : Serializable α) :
    Reports I R P (C.last S) (plain.last S) := by
  rw [DBCalls.last, DBCalls.last]
  refine h.lockRead.bind fun _ => h.getMetadata.bind fun next => ?_
  cases next with
  | none => exact .pure _
  | some next =>
    refine (Reports.lift _).bind fun position => h.self.bind fun self =>
      (h.get _).bind fun value => ?_
    cases value with
    | none => exact .lift _
    | some value =>
      exact (Reports.lift _).bind fun position => (Reports.lift _).bind fun data => .pure _

theorem Reading.read (h : Reading C I R P) (S : Serializable α) (position : Position) :
    Reports I R P (C.read S position) (plain.read S position) := by
  rw [DBCalls.read, DBCalls.read]
  refine h.self.bind fun self => h.lockRead.bind fun _ => (h.get _).bind fun value => ?_
  cases value with
  | none => exact .lift _
  | some value => exact .lift _

/-- The induction is on the data that are still to come. -/
theorem Reading.scanFrom (h : Reading C I R P) (S : Serializable α) (callback : ScanFn α κ) :
    ∀ (count : ℕ) (position : Position), Reports (fun s => I s.2) (Beside κ R) P
      (C.scanFrom S callback count position) (plain.scanFrom S callback count position)
  | 0, _ => .pure 0
  | count + 1, position => by
    rw [DBCalls.scanFrom, DBCalls.scanFrom]
    refine h.self.onSnd.bind fun self => (h.get _).onSnd.bind fun value => ?_
    cases value with
    | none => exact .pure 0
    | some value =>
      refine (Reports.lift _).bind fun data => ?_
      rintro ⟨a, s⟩ ⟨b, t⟩ ⟨hab, hst⟩
      obtain rfl : a = b := hab
      refine .get ?_
      simp only
      rcases callback data a with ⟨e | ⟨⟩, a'⟩
      · exact .of_eq rfl rfl ⟨rfl, hst⟩
      · have hset : ReportsAt (fun s => I s.2) (Beside κ R) P (Prog.set (a', s)) (Prog.set (a', t))
            (a, s) (a, t) := .of_eq rfl rfl ⟨rfl, hst⟩
        exact hset.bind fun _ s' t' _ _ hst' => (Reports.lift _).bind (fun next =>
          (h.scanFrom S callback count next).bind fun _ => .pure _) hst'

theorem Reading.scan (h : Reading C I R P) (S : Serializable α) (position : Position) (count : ℕ)
    (callback : ScanFn α κ) : Reports (fun s => I s.2) (Beside κ R) P
      (C.scan S position count callback) (plain.scan S position count callback) := by
  rw [DBCalls.scan, DBCalls.scan]
  exact h.lockRead.onSnd.bind fun _ => h.scanFrom S callback count position

/-! ### Writing -/

theorem Writing.setMetadata (h : Writing C I R P) (next : Position) :
    Reports I R P (C.setMetadata next) (plain.setMetadata next) := by
  rw [DBCalls.setMetadata, DBCalls.setMetadata]
  refine (Reports.lift _).bind fun _ => h.self.bind fun self => ?_
  by_cases hnext : next = 1
  · rw [if_pos hnext, if_pos hnext]
    exact h.delete _
  · rw [if_neg hnext, if_neg hnext]
    exact (h.get _).bind fun value => h.dbPut _ _

theorem Writing.store (h : Writing C I R P) (key value : Bytes) (position : Position) :
    Reports I R P (C.store key value position) (plain.store key value position) := by
  rw [DBCalls.store, DBCalls.store]
  exact (h.dbPut key value).bind fun _ => (Reports.lift _).bind fun next => h.setMetadata next

theorem Writing.truncateFrom (h : Writing C I R P) : ∀ (fuel : ℕ) (p : Position),
    Reports I R P (C.truncateFrom fuel p) (plain.truncateFrom fuel p)
  | 0, _ => .stop _
  | fuel + 1, p => by
    rw [DBCalls.truncateFrom, DBCalls.truncateFrom]
    refine h.self.bind fun self => (h.get _).bind fun value => ?_
    cases value with
    | none => exact .pure ()
    | some value =>
      exact (h.delete _).bind fun _ => (Reports.lift _).bind fun p' => h.truncateFrom fuel p'

theorem Writing.cut (h : Writing C I R P) (position : Position) :
    Reports I R P (C.cut position) (plain.cut position) := by
  rw [DBCalls.cut, DBCalls.cut]
  refine h.getMetadata.bind fun next => ?_
  cases next with
  | none => exact .pure false
  | some next =>
    refine (Reports.lift _).bind fun _ => ?_
    by_cases hp : position < next
    · rw [if_pos hp, if_pos hp]
      exact h.self.bind fun self => (h.truncateFrom _ _).bind fun _ =>
        (h.setMetadata _).bind fun _ => .pure true
    · rw [if_neg hp, if_neg hp]
      exact .pure false

end DBCalls

end StratifiedHashTree
