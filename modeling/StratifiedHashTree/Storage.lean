import StratifiedHashTree.Entry

/-!
# Storage

The trait `Storage` of `storage.rs` together with its `Reader`, as a record of
operations over a state. The state is all that the storage keeps, on the device as well
as in memory; the cursors that `reader` hands out share the device, so reading is an
operation on the same state. Each operation hands the state back whatever its outcome
is: what a failed `put` leaves behind is what the next one finds.

`StratifiedHashTree.LogStorage` is what the trait is *for*: a storage that represents an
append-only log. Everything a slate does is proved against this contract, and each
backend is proved to keep it.
-/

namespace StratifiedHashTree

/-- The callback of a scan: it sees one datum and its own state, and may fail. -/
abbrev ScanFn (α κ : Type) := α → κ → Except String Unit × κ

/-- A storage for data of a type `α`. -/
structure Storage (α : Type) where
  /-- What the storage keeps. -/
  State : Type
  /-- The first datum, and its position. -/
  first : Run State (Option α × Position)
  /-- The last datum, and the position after it. -/
  last : Run State (Option α × Position)
  /-- Stores a datum at a position; returns the next position. -/
  put : Position → α → Run State Position
  /-- Deletes the data from a position on; whether anything was deleted. -/
  truncate : Position → Run State Bool
  /-- Opens a cursor for reading. -/
  reader : Run State Unit
  /-- Reads the datum at a position. -/
  read : Position → Run State α
  /-- Passes at most so many consecutive data to a callback; returns how many. -/
  scan : Position → ℕ → {κ : Type} → ScanFn α κ → Run (κ × State) ℕ

/-- Passing a list of data to a callback, until it fails. -/
def scanList {α κ : Type} (callback : ScanFn α κ) : List α → κ → Result ℕ × κ
  | [], s => (.ok 0, s)
  | x :: xs, s =>
    match callback x s with
    | (.ok (), s') => ((scanList callback xs s').1.map (· + 1), (scanList callback xs s').2)
    | (.error e, s') => (.error (.err (.callback e)), s')

section Laid

variable {α : Type} {Placed : Position → α → Prop} {endPos : List α → Position} {log : List α}

/-- A part of a log in which each datum is where it says it is. -/
theorem laid_take (h : ∀ k (hk : k < log.length), Placed (endPos (log.take k)) log[k]) (m : ℕ) :
    ∀ k (hk : k < (log.take m).length), Placed (endPos ((log.take m).take k)) (log.take m)[k] := by
  intro i hi
  have hi' := hi
  rw [List.length_take] at hi'
  have h1 := h i (by omega)
  rwa [List.getElem_take, List.take_take, Nat.min_eq_left (by omega)]

/-- Such a log with a datum more. -/
theorem laid_concat (h : ∀ k (hk : k < log.length), Placed (endPos (log.take k)) log[k]) {x : α}
    (hx : Placed (endPos log) x) : ∀ k (hk : k < (log ++ [x]).length),
      Placed (endPos ((log ++ [x]).take k)) (log ++ [x])[k] := by
  intro k hk
  rw [List.length_append, List.length_singleton] at hk
  rcases Nat.lt_succ_iff_lt_or_eq.mp hk with hlt | rfl
  · have h1 := h k hlt
    rwa [List.getElem_append_left hlt, List.take_append_of_le_length (Nat.le_of_lt hlt)]
  · rwa [List.getElem_concat_length rfl, List.take_left]

end Laid

/-- **A storage that represents a log.** The state after storing a list of data is a
function of the list (`render`), and so is the next position (`endPos`). `Placed p x` says
that a datum can be stored at `p` and read back from there; `Room` that a list of data
stays within what the machine can hold. -/
structure LogStorage (α : Type) (Placed : Position → α → Prop) extends Storage α where
  /-- A storage over no content. -/
  fresh : State
  /-- A new storage over the content of another. -/
  reopen : State → State
  /-- The state that represents a log. -/
  render : List α → State
  /-- The position after a log. -/
  endPos : List α → Position
  /-- The logs that fit in the machine. -/
  Room : List α → Prop
  room_nil : Room []
  room_take : ∀ {log : List α} (k : ℕ), Room log → Room (log.take k)
  room_length : ∀ {log : List α}, Room log → log.length + 1 < 2 ^ 64
  endPos_lt : ∀ {log : List α}, Room log → endPos log < 2 ^ 64
  last_fresh : last fresh = (.ok (none, endPos []), render [])
  last_reopen : ∀ {log : List α}, Room log →
    (∀ k (h : k < log.length), Placed (endPos (log.take k)) log[k]) →
    last (reopen (render log)) = (.ok (log.getLast?, endPos log), render log)
  put_room : ∀ {log : List α} {x : α}, Room log → Placed (endPos log) x → Room (log ++ [x]) →
    put (endPos log) x (render log) = (.ok (endPos (log ++ [x])), render (log ++ [x]))
  put_full : ∀ {log : List α} {x : α}, Room log → Placed (endPos log) x → ¬Room (log ++ [x]) →
    ∃ f s, put (endPos log) x (render log) = (.error f, s) ∧
      ((∃ p, f = .panic p) ∨ ∃ e, f = .err e ∧ s = render log)
  truncate_render : ∀ {log : List α} {k : ℕ}, Room log →
    (∀ k (h : k < log.length), Placed (endPos (log.take k)) log[k]) → k < log.length →
    ∃ s, truncate (endPos (log.take k)) (render log) = (.ok true, s) ∧
      last s = (.ok ((log.take k).getLast?, endPos (log.take k)), render (log.take k))
  reader_render : ∀ {log : List α}, reader (render log) = (.ok (), render log)
  read_render : ∀ {log : List α} {k : ℕ} (h : k < log.length), Room log →
    (∀ k (h : k < log.length), Placed (endPos (log.take k)) log[k]) →
    read (endPos (log.take k)) (render log) = (.ok log[k], render log)
  scan_render : ∀ {log : List α} {k : ℕ} (count : ℕ) {κ : Type} (callback : ScanFn α κ) (a : κ),
    k < log.length → Room log →
    (∀ k (h : k < log.length), Placed (endPos (log.take k)) log[k]) →
    scan (endPos (log.take k)) count callback (a, render log) =
      ((scanList callback ((log.drop k).take count) a).1,
        ((scanList callback ((log.drop k).take count) a).2, render log))

namespace LogStorage

variable {α : Type} {Placed : Position → α → Prop} (S : LogStorage α Placed)

/-- A log each of whose data is where it says it is. -/
def Laid (log : List α) : Prop :=
  ∀ k (h : k < log.length), Placed (S.endPos (log.take k)) log[k]

/-- When a log gets too long for the storage, it panics. -/
def PanicsWhenFull : Prop :=
  ∀ {log : List α} {x : α}, S.Room log → Placed (S.endPos log) x → ¬S.Room (log ++ [x]) →
    ∃ p s, S.put (S.endPos log) x (S.render log) = (.error (.panic p), s)

end LogStorage

end StratifiedHashTree
