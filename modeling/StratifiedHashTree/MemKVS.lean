import Mathlib.Data.Finmap
import Mathlib.Order.Interval.Finset.Nat
import StratifiedHashTree.Storage

/-!
# The key-value storage in memory

`MemKVS` of `storage/memory.rs`: a map from positions to data, in which the positions are
the numbers from one on. Nothing is serialized. The next position is never remembered, it
is the number of data plus one; a reader shares the map.

The map of a log (`StratifiedHashTree.MemKVS.render`) holds the data of the log at the
positions `1, 2, …`, and every operation of the storage is an operation on the log
(`StratifiedHashTree.MemKVS.logStorage`).
-/

namespace StratifiedHashTree

open Outcome

/-- The map of the storage. -/
abbrev MemKVS (α : Type) := Finmap fun _ : Position => α

namespace MemKVS

variable {α : Type}

/-- The number of data. -/
def len (kvs : MemKVS α) : ℕ := kvs.keys.card

/-- Called the first datum, but looks up the last one. -/
def first : Run (MemKVS α) (Option α × Position) := do
  let kvs ← Prog.get
  let n := kvs.len
  let next ← addBits 64 n 1
  return (kvs.lookup n, next)

/-- The last datum, and the next position. -/
def last : Run (MemKVS α) (Option α × Position) := do
  let kvs ← Prog.get
  let n := kvs.len
  if n = 0 then
    return (none, 1)
  else do
    let next ← addBits 64 n 1
    return (kvs.lookup n, next)

/-- Stores a datum. -/
def put (position : Position) (data : α) : Run (MemKVS α) Position := do
  Prog.modify fun kvs => kvs.insert position data
  -- the next position is counted, not computed from this one
  let kvs ← Prog.get
  addBits 64 kvs.len 1

/-- Removes data as long as there are any; every step removes one, so one step more than
there are data is enough. -/
def truncateFrom : ℕ → Position → Run (MemKVS α) Position
  | 0, _ => fun s => (.error .outOfFuel, s)
  | fuel + 1, p => do
    let kvs ← Prog.get
    match kvs.lookup p with
    | some _ => do
      Prog.set (kvs.erase p)
      let p' ← addBits 64 p 1
      truncateFrom fuel p'
    | none => return p

/-- Removes the data from a position on. -/
def truncate (position : Position) : Run (MemKVS α) Bool := do
  let kvs ← Prog.get
  let p ← truncateFrom (kvs.len + 1) position
  return p ≠ position

/-- The message of a read at a position without a datum. -/
def notFound (position : Position) : Error :=
  .io .notFound s!"There is no data stored corresponding to position {position}"

/-- Reads the datum at a position. -/
def read (position : Position) : Run (MemKVS α) α := do
  let kvs ← Prog.get
  match kvs.lookup position with
  | some data => return data
  | none => Prog.err (notFound position)

/-- The loop of a scan over the offsets from `i` on. -/
def scanFrom {κ : Type} (callback : ScanFn α κ) (position : Position) :
    ℕ → ℕ → Run (κ × MemKVS α) ℕ
  | 0, _ => return 0
  | count + 1, i => do
    let p ← addBits 64 position i
    let s ← Prog.get
    match s.2.lookup p with
    | some data =>
      match callback data s.1 with
      | (.ok (), a) => do
        Prog.set (a, s.2)
        let read ← scanFrom callback position count (i + 1)
        return read + 1
      | (.error e, a) => do
        Prog.set (a, s.2)
        Prog.err (.callback e)
    | none => return 0

end MemKVS

/-- The key-value storage in memory. -/
def memKVS (α : Type) : Storage α where
  State := MemKVS α
  first := MemKVS.first
  last := MemKVS.last
  put := MemKVS.put
  truncate := MemKVS.truncate
  reader := return ()
  read := MemKVS.read
  scan position count := fun callback => MemKVS.scanFrom callback position count 0

namespace MemKVS

variable {α : Type}

/-! ### The map of a log -/

/-- The map that holds some data at the positions from `p` on. -/
def renderFrom : Position → List α → MemKVS α
  | _, [] => ∅
  | p, x :: xs => (renderFrom (p + 1) xs).insert p x

/-- The map of a log. -/
def render (log : List α) : MemKVS α := renderFrom 1 log

theorem lookup_renderFrom : ∀ (log : List α) (p q : ℕ),
    (renderFrom p log).lookup q = if q < p then none else log[q - p]?
  | [], p, q => by
    rw [renderFrom, Finmap.lookup_empty]
    by_cases h : q < p
    · rw [if_pos h]
    · rw [if_neg h]
      rfl
  | x :: xs, p, q => by
    rw [renderFrom]
    by_cases hq : q = p
    · subst hq
      rw [Finmap.lookup_insert, if_neg (Nat.lt_irrefl q), Nat.sub_self]
      rfl
    · rw [Finmap.lookup_insert_of_ne _ hq, lookup_renderFrom xs (p + 1) q]
      by_cases h : q < p
      · rw [if_pos h, if_pos (by omega)]
      · rw [if_neg h, if_neg (by omega), show q - p = q - (p + 1) + 1 by omega,
          List.getElem?_cons_succ]

/-- The data of a log by their positions. -/
theorem lookup_render (log : List α) (q : ℕ) :
    (render log).lookup q = if q < 1 then none else log[q - 1]? := lookup_renderFrom log 1 q

theorem lookup_render_succ (log : List α) (k : ℕ) : (render log).lookup (k + 1) = log[k]? := by
  rw [lookup_render, if_neg (by omega), Nat.add_sub_cancel]

theorem lookup_render_none {log : List α} {p : ℕ} (h : ¬(1 ≤ p ∧ p ≤ log.length)) :
    (render log).lookup p = none := by
  rw [lookup_render]
  by_cases hp : p < 1
  · rw [if_pos hp]
  · rw [if_neg hp, List.getElem?_eq_none (by omega)]

theorem mem_keys_iff {m : MemKVS α} {q : ℕ} : q ∈ m.keys ↔ m.lookup q ≠ none := by
  rw [Finmap.mem_keys, ne_eq, Finmap.lookup_eq_none, not_not]

/-- The map of a log has as many data as the log. -/
theorem len_render (log : List α) : (render log).len = log.length := by
  have h : (render log).keys = (Finset.Ioc 0 log.length : Finset ℕ) := by
    refine Finset.ext fun (q : ℕ) => ?_
    rw [mem_keys_iff, lookup_render, show q ∈ Finset.Ioc 0 log.length ↔ 0 < q ∧ q ≤ log.length from
      Finset.mem_Ioc]
    by_cases hq : q < 1
    · rw [if_pos hq]
      exact ⟨fun h => absurd rfl h, fun h => by omega⟩
    · rw [if_neg hq, ne_eq, List.getElem?_eq_none_iff]
      omega
  rw [len, h, Nat.card_Ioc, Nat.sub_zero]

theorem render_concat (log : List α) (x : α) :
    render (log ++ [x]) = (render log).insert (log.length + 1) x := by
  refine Finmap.ext_lookup fun (q : ℕ) => ?_
  by_cases hq : q = log.length + 1
  · subst hq
    rw [Finmap.lookup_insert, lookup_render_succ, List.getElem?_concat_length]
  · rw [Finmap.lookup_insert_of_ne _ hq, lookup_render, lookup_render]
    by_cases h : q < 1
    · rw [if_pos h, if_pos h]
    · rw [if_neg h, if_neg h]
      rcases Nat.lt_or_ge (q - 1) log.length with h1 | h1
      · rw [List.getElem?_append_left h1]
      · rw [List.getElem?_eq_none (by rw [List.length_append, List.length_singleton]; omega),
          List.getElem?_eq_none h1]

/-- **The cut**: everything from a position on is removed, up to the first gap. -/
theorem truncateFrom_eq : ∀ (fuel p e : ℕ) (m : MemKVS α), p ≤ e → e < 2 ^ 64 → e - p < fuel →
    (∀ q : ℕ, p ≤ q → q < e → m.lookup q ≠ none) → m.lookup e = none →
    ∃ m', truncateFrom fuel p m = (.ok e, m') ∧
      ∀ q : ℕ, m'.lookup q = if p ≤ q ∧ q < e then none else m.lookup q
  | 0, p, e, m, _, _, hf, _, _ => absurd hf (Nat.not_lt_zero _)
  | fuel + 1, p, e, m, hpe, he, hf, hin, hout => by
    rw [truncateFrom, Prog.bind_ok (Prog.get_run m)]
    rcases hpe.eq_or_lt with rfl | hlt
    · rw [hout]
      exact ⟨m, rfl, fun q => by rw [if_neg (by omega)]⟩
    · obtain ⟨x, hx⟩ := Option.ne_none_iff_exists'.mp (hin p (Nat.le_refl p) hlt)
      obtain ⟨m', h1, h2⟩ := truncateFrom_eq fuel (p + 1) e (m.erase p) hlt he (by omega)
        (fun q hq1 hq2 => by
          rw [Finmap.lookup_erase_ne (by omega)]
          exact hin q (by omega) hq2)
        (by rw [Finmap.lookup_erase_ne (by omega)]; exact hout)
      refine ⟨m', ?_, fun q => ?_⟩
      · rw [hx]
        simp only [Prog.liftM_eq]
        rw [Prog.bind_ok (Prog.set_run m _), addBits_of_lt (by omega), Prog.lift_ok_bind]
        exact h1
      · rw [h2 q]
        by_cases hq : q = p
        · subst hq
          rw [if_neg (by omega), if_pos ⟨Nat.le_refl q, hlt⟩, Finmap.lookup_erase]
        · rw [Finmap.lookup_erase_ne hq]
          by_cases h : p ≤ q ∧ q < e
          · rw [if_pos h, if_pos (by omega)]
          · rw [if_neg h, if_neg (by omega)]

theorem truncate_render {log : List α} {k : ℕ} (hroom : log.length + 1 < 2 ^ 64)
    (hk : k < log.length) : truncate (k + 1) (render log) = (.ok true, render (log.take k)) := by
  obtain ⟨m', h1, h2⟩ := truncateFrom_eq ((render log).len + 1) (k + 1) (log.length + 1)
    (render log) (by omega) hroom (by rw [len_render]; omega)
    (fun q h3 h4 => by
      rw [lookup_render, if_neg (by omega), ne_eq, List.getElem?_eq_none_iff]
      omega)
    (by rw [lookup_render_succ, List.getElem?_eq_none (Nat.le_refl _)])
  have hm' : m' = render (log.take k) := by
    refine Finmap.ext_lookup fun (q : ℕ) => ?_
    rw [h2 q, lookup_render, lookup_render]
    by_cases hq : q < 1
    · rw [if_pos hq, if_pos hq, ite_self]
    · rw [if_neg hq, if_neg hq, List.getElem?_take]
      by_cases h : q - 1 < k
      · rw [if_pos h, if_neg (by omega)]
      · rw [if_neg h]
        by_cases h' : k + 1 ≤ q ∧ q < log.length + 1
        · rw [if_pos h']
        · rw [if_neg h', List.getElem?_eq_none (by omega)]
  rw [truncate, Prog.bind_ok (Prog.get_run _), Prog.bind_ok h1, hm', Prog.pure_run,
    decide_eq_true (show log.length + 1 ≠ k + 1 by omega)]

theorem last_render (log : List α) (hroom : log.length + 1 < 2 ^ 64) :
    last (render log) = (.ok (log.getLast?, log.length + 1), render log) := by
  rw [last, Prog.bind_ok (Prog.get_run _)]
  by_cases h : log.length = 0
  · rw [len_render, if_pos h, List.length_eq_zero_iff.mp h]
    rfl
  · obtain ⟨k, hk⟩ : ∃ k, log.length = k + 1 := Nat.exists_eq_succ_of_ne_zero h
    rw [len_render, if_neg h, Prog.liftM_eq, addBits_of_lt hroom, Prog.lift_ok_bind, hk,
      lookup_render_succ, List.getLast?_eq_getElem?, hk]
    rfl

theorem put_render (log : List α) (x : α) :
    put (log.length + 1) x (render log) = (addBits 64 (log.length + 1) 1, render (log ++ [x])) := by
  rw [put, Prog.bind_ok (Prog.modify_run _ _), Prog.bind_ok (Prog.get_run _), ← render_concat,
    len_render, List.length_append]
  rfl

/-- There is no position for the datum after the last one. -/
theorem put_full {log : List α} {x : α} (h : ¬(log ++ [x]).length + 1 < 2 ^ 64) :
    put (log.length + 1) x (render log) = (.error (.panic .overflow), render (log ++ [x])) := by
  rw [List.length_append, List.length_singleton] at h
  rw [put_render, addBits, if_neg h]
  rfl

theorem read_render {log : List α} {k : ℕ} (hk : k < log.length) :
    read (k + 1) (render log) = (.ok log[k], render log) := by
  rw [read, Prog.bind_ok (Prog.get_run _), lookup_render_succ, List.getElem?_eq_getElem hk]
  rfl

/-- A scan of the map passes the data of the log on. -/
theorem scanFrom_render {κ : Type} (callback : ScanFn α κ) {log : List α} {k : ℕ}
    (hroom : log.length + 1 < 2 ^ 64) : ∀ (count i : ℕ) (a : κ), k + i ≤ log.length →
    scanFrom callback (k + 1) count i (a, render log) =
      Prog.onFst (scanList callback ((log.drop (k + i)).take count)) (a, render log)
  | 0, i, a, _ => by
    rw [scanFrom, List.take_zero]
    rfl
  | count + 1, i, a, hi => by
    rw [scanFrom, Prog.liftM_eq, addBits_of_lt (by omega), Prog.lift_ok_bind,
      Prog.bind_ok (Prog.get_run _)]
    simp only
    rw [show k + 1 + i = k + i + 1 by omega, lookup_render_succ]
    rcases Nat.lt_or_ge (k + i) log.length with hlt | hge
    · rw [List.getElem?_eq_getElem hlt, List.drop_eq_getElem_cons hlt, List.take_succ_cons]
      simp only
      rcases hcb : callback log[k + i] a with ⟨e | _, b⟩
      · simp only [Prog.onFst, scanList, hcb]
        rfl
      · simp only
        rw [Prog.bind_ok (Prog.set_run _ _), Prog.bind_run,
          scanFrom_render callback hroom count (i + 1) b (by omega)]
        simp only [Prog.onFst, scanList, hcb, ← Nat.add_assoc]
        rcases (scanList callback ((log.drop (k + i + 1)).take count) b).1 with e | r
        · rfl
        · rfl
    · rw [List.getElem?_eq_none hge, List.drop_of_length_le hge, List.take_nil]
      rfl

/-- **The key-value storage represents a log.** -/
def logStorage (Placed : Position → α → Prop) : LogStorage α Placed where
  toStorage := memKVS α
  fresh := render []
  reopen := id
  render := render
  endPos log := log.length + 1
  Room log := log.length + 1 < 2 ^ 64
  room_nil := show 0 + 1 < 2 ^ 64 by decide
  room_take k h := by
    rw [List.length_take]
    omega
  room_length h := h
  endPos_lt h := h
  last_fresh := last_render [] (show 0 + 1 < 2 ^ 64 by decide)
  last_reopen h _ := last_render _ h
  put_room {log x} _ _ h := by
    rw [List.length_append, List.length_singleton] at h
    refine (put_render log x).trans ?_
    rw [addBits_of_lt h, List.length_append, List.length_singleton]
    rfl
  put_full {log x} _ _ h := ⟨_, _, put_full h, Or.inl ⟨.overflow, rfl⟩⟩
  truncate_render {log k} h _ hk := by
    refine ⟨render (log.take k), ?_, last_render _ ?_⟩
    · rw [List.length_take, Nat.min_eq_left hk.le]
      exact truncate_render h hk
    · rw [List.length_take]
      omega
  reader_render := rfl
  read_render {log k} hk _ _ := by
    rw [List.length_take, Nat.min_eq_left hk.le]
    exact read_render hk
  scan_render {log k} count {κ} callback a hk h _ := by
    rw [List.length_take, Nat.min_eq_left hk.le]
    exact scanFrom_render callback h count 0 a hk.le

theorem panicsWhenFull (Placed : Position → α → Prop) : (logStorage Placed).PanicsWhenFull :=
  fun _ _ h => ⟨_, _, put_full h⟩

end MemKVS

end StratifiedHashTree
