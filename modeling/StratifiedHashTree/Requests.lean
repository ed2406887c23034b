import Mathlib.Data.List.Basic
import StratifiedHashTree.Simulation
import StratifiedHashTree.Storage

/-!
# Requests to a storage

What the trait `Storage` of `storage.rs` promises is a statement about sequences of calls.
A call is a `StratifiedHashTree.Request` here, with the result of the call as its
`StratifiedHashTree.Reply`; `StratifiedHashTree.Storage.serve` makes the call.

The other side is what the trait is for: `StratifiedHashTree.AppendLog.serve` replies from
the list of the data alone, given where a log of data ends. A position is *located*
(`StratifiedHashTree.AppendLog.locate`) when a datum of the log starts there.
-/

namespace StratifiedHashTree

variable {α κ : Type}

/-- A call of a storage, or of one of the readers it has opened, by their number. -/
inductive Request (α κ : Type) where
  | first
  | last
  | put (position : Position) (data : α)
  | truncate (position : Position)
  | reader
  | read (reader : ℕ) (position : Position)
  | scan (reader : ℕ) (position : Position) (count : ℕ) (callback : ScanFn α κ) (init : κ)

/-- What a call returns; a scan also hands back the state of its callback. -/
inductive Reply (α κ : Type) where
  | datum (result : Result (Option α × Position))
  | next (result : Result Position)
  | truncated (result : Result Bool)
  | opened (result : Result Unit)
  | read (result : Result α)
  | scanned (result : Result ℕ) (state : κ)
  deriving DecidableEq

/-- The error of a read where nothing is stored; a storage may say more about it. -/
def nothingStored : Error := .io .notFound "nothing is stored here"

/-- A reply, without what the error of a read says. -/
def Reply.plain : Reply α κ → Reply α κ
  | .read (.error (.err _)) => .read (.error (.err nothingStored))
  | reply => reply

/-- Making a call. The readers of a storage have nothing of their own here, so it does not
matter which of them is asked. -/
def Storage.serve (S : Storage α) : Request α κ → S.State → Reply α κ × S.State
  | .first, s => (.datum (S.first s).1, (S.first s).2)
  | .last, s => (.datum (S.last s).1, (S.last s).2)
  | .put position data, s => (.next (S.put position data s).1, (S.put position data s).2)
  | .truncate position, s => (.truncated (S.truncate position s).1, (S.truncate position s).2)
  | .reader, s => (.opened (S.reader s).1, (S.reader s).2)
  | .read _ position, s => (.read (S.read position s).1, (S.read position s).2)
  | .scan _ position count callback init, s =>
    (.scanned (S.scan position count callback (init, s)).1
      (S.scan position count callback (init, s)).2.1,
      (S.scan position count callback (init, s)).2.2)

/-! ### The log behind a storage -/

namespace AppendLog

section Locate

variable (endPos : List α → Position)

/-- The number of data before the one that starts at a position. -/
def locate (log : List α) (p : Position) : Option ℕ :=
  (List.range log.length).find? fun k => endPos (log.take k) = p

/-- The reply of a log. -/
def serve : Request α κ → List α → Reply α κ × List α
  | .first, log => (.datum (.ok (log.head?, endPos [])), log)
  | .last, log => (.datum (.ok (log.getLast?, endPos log)), log)
  | .put _ data, log => (.next (.ok (endPos (log ++ [data]))), log ++ [data])
  | .truncate p, log =>
    match locate endPos log p with
    | some k => (.truncated (.ok true), log.take k)
    | none => (.truncated (.ok false), log)
  | .reader, log => (.opened (.ok ()), log)
  | .read _ p, log =>
    match (locate endPos log p).bind fun k => log[k]? with
    | some data => (.read (.ok data), log)
    | none => (.read (.error (.err nothingStored)), log)
  | .scan _ p count callback init, log =>
    match locate endPos log p with
    | some k => (.scanned (scanList callback ((log.drop k).take count) init).1
        (scanList callback ((log.drop k).take count) init).2, log)
    | none => (.scanned (.ok 0) init, log)

/-- A position within a log at which no datum starts. -/
def Inside (log : List α) (p : Position) : Prop := p < endPos log ∧ locate endPos log p = none

instance (log : List α) (p : Position) : Decidable (Inside endPos log p) :=
  inferInstanceAs (Decidable (_ ∧ (_ : Option ℕ) = none))

/-- What a log has to say to a request: it does not know what lies within a datum. -/
def answer (request : Request α κ) (log : List α) : Option (Reply α κ) :=
  match request with
  | .read _ p | .scan _ p _ _ _ =>
    if Inside endPos log p then none
    else some (serve endPos request log).1
  | _ => some (serve endPos request log).1

end Locate

/-- What a client of a storage knows: the log, how many readers it has opened, and whether
the storage was cut and not asked for its first or last datum since. -/
structure Client (α : Type) where
  log : List α
  readers : ℕ
  cut : Bool

/-- The client after a request. -/
def Client.after (endPos : List α → Position) (request : Request α κ) (self : Client α) :
    Client α where
  log := (serve endPos request self.log).2
  readers := match request with
    | .reader => self.readers + 1
    | _ => self.readers
  cut := match request with
    | .first | .last => false
    | .truncate p => self.cut || (locate endPos self.log p).isSome
    | _ => self.cut

/-- What a client expects of a request. -/
def Client.ask (endPos : List α → Position) (request : Request α κ) (self : Client α) :
    Option (Reply α κ) × Client α := (answer endPos request self.log, self.after endPos request)

variable {endPos : List α → Position} {log : List α} {p : Position}

/-- A datum starts at a located position. -/
theorem of_locate {k : ℕ} (h : locate endPos log p = some k) :
    k < log.length ∧ endPos (log.take k) = p := by
  rw [locate, List.find?_eq_some_iff_append] at h
  obtain ⟨h1, as, bs, h2, -⟩ := h
  refine ⟨?_, of_decide_eq_true h1⟩
  have h3 : k ∈ List.range log.length := by
    rw [h2]
    exact List.mem_append_right _ List.mem_cons_self
  exact List.mem_range.mp h3

/-- Where a datum starts, it is located, if no two start at the same position. -/
theorem locate_take (hinj : ∀ i < log.length, ∀ j < log.length,
      endPos (log.take i) = endPos (log.take j) → i = j) {k : ℕ} (hk : k < log.length) :
    locate endPos log (endPos (log.take k)) = some k := by
  rcases h : locate endPos log (endPos (log.take k)) with _ | j
  · rw [locate, List.find?_eq_none] at h
    exact absurd (decide_eq_true rfl) (h k (List.mem_range.mpr hk))
  · obtain ⟨h1, h2⟩ := of_locate h
    rw [hinj j h1 k hk h2]

/-- A position at which no datum starts is not located. -/
theorem locate_eq_none (h : ∀ k < log.length, endPos (log.take k) ≠ p) :
    locate endPos log p = none := by
  rcases hl : locate endPos log p with _ | k
  · rfl
  · obtain ⟨h1, h2⟩ := of_locate hl
    exact absurd h2 (h k h1)

/-! ### What a log answers -/

section Answer

variable {k r count : ℕ} {callback : ScanFn α κ} {init : κ}

theorem answer_read_inside (h : Inside endPos log p) :
    answer endPos (.read r p : Request α κ) log = none := if_pos h

theorem answer_scan_inside (h : Inside endPos log p) :
    answer endPos (.scan r p count callback init) log = none := if_pos h

theorem answer_read (hk : k < log.length) (h : locate endPos log p = some k) :
    answer endPos (.read r p : Request α κ) log = some (.read (.ok log[k])) := by
  rw [answer, if_neg (fun h1 => absurd (h.symm.trans h1.2) (by simp)), serve, h, Option.bind_some,
    List.getElem?_eq_getElem hk]

theorem answer_scan (h : locate endPos log p = some k) :
    answer endPos (.scan r p count callback init) log =
      some (.scanned (scanList callback ((log.drop k).take count) init).1
        (scanList callback ((log.drop k).take count) init).2) := by
  rw [answer, if_neg (fun h1 => absurd (h.symm.trans h1.2) (by simp)), serve, h]

/-- Behind the log there is nothing to read. -/
theorem answer_read_end (hp : ¬p < endPos log) (h : locate endPos log p = none) :
    answer endPos (.read r p : Request α κ) log =
      some (.read (.error (.err nothingStored))) := by
  rw [answer, if_neg (fun h1 => hp h1.1), serve, h, Option.bind_none]

theorem answer_scan_end (hp : ¬p < endPos log) (h : locate endPos log p = none) :
    answer endPos (.scan r p count callback init) log = some (.scanned (.ok 0) init) := by
  rw [answer, if_neg (fun h1 => hp h1.1), serve, h]

/-- Reading changes nothing. -/
theorem serve_read_snd : (serve endPos (.read r p : Request α κ) log).2 = log := by
  rw [serve]
  split <;> rfl

theorem serve_scan_snd : (serve endPos (.scan r p count callback init) log).2 = log := by
  rw [serve]
  split <;> rfl

theorem Client.after_read (self : Client α) : self.after endPos (.read r p : Request α κ) = self :=
  congrArg (fun log => Client.mk log self.readers self.cut) serve_read_snd

theorem Client.after_scan (self : Client α) :
    self.after endPos (.scan r p count callback init) = self :=
  congrArg (fun log => Client.mk log self.readers self.cut) serve_scan_snd

end Answer

end AppendLog

end StratifiedHashTree
