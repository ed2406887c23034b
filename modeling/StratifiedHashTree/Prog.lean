import Mathlib.Tactic.Common

/-!
# Programs that fail, panic or run on

A checked program has more ways to end than returning a value. It can return an
*error*, which its caller sees and may recover from; it can *panic*, which no
caller is meant to see; and a loop that nothing bounds can simply *not end*.
`StratifiedHashTree.Failure` keeps the three apart, so that “returns an error”,
“never panics” and “ends” are three different statements.

`StratifiedHashTree.Outcome` is the result of a program without state. A program
with state, `StratifiedHashTree.Prog`, hands its state back *whatever the outcome
is*: a write that fails half way has still moved the cursor, and what a caller
finds afterwards is part of what has to be proved.

Loops that follow stored links take a step bound; running out of it is
`StratifiedHashTree.Failure.outOfFuel`, and a theorem saying that such a loop
returns says so for every bound past an explicit one.
-/

namespace StratifiedHashTree

/-- Why a program panics. -/
inductive Panic where
  /-- An arithmetic operation left the range of its machine type. -/
  | overflow
  /-- A debug assertion failed. -/
  | assertion
  /-- A value that had to be there was unwrapped and was not. -/
  | unwrap
  /-- An index was out of the bounds of its sequence. -/
  | outOfBounds
  /-- A buffer was asked to grow past the largest allocation. -/
  | capacity
  /-- The program says so itself. -/
  | explicit
  deriving DecidableEq, Repr

/-- The ways a program ends without a value, over a type `ε` of errors. -/
inductive Failure (ε : Type) where
  /-- An error is returned to the caller. -/
  | err (e : ε)
  /-- The program panics. -/
  | panic (p : Panic)
  /-- The step bound of a loop was reached. -/
  | outOfFuel
  deriving DecidableEq, Repr

/-- The outcome of a program without state. -/
abbrev Outcome (ε : Type) := Except (Failure ε)

namespace Outcome

variable {ε α β : Type}

/-- Ending in an error. -/
def err (e : ε) : Outcome ε α := .error (.err e)

/-- Ending in a panic. -/
def panic (p : Panic) : Outcome ε α := .error (.panic p)

/-- A debug assertion. -/
def debugAssert (c : Prop) [Decidable c] : Outcome ε Unit :=
  if c then .ok () else panic .assertion

/-- Unwrapping an optional value. -/
def unwrap : Option α → Outcome ε α
  | some a => .ok a
  | none => panic .unwrap

/-- Indexing a sequence. -/
def index (xs : List α) (k : ℕ) : Outcome ε α :=
  match xs[k]? with
  | some a => .ok a
  | none => panic .outOfBounds

/-- Whether a value is returned. -/
def isOk : Outcome ε α → Bool
  | .ok _ => true
  | .error _ => false

@[simp] theorem ok_bind (a : α) (f : α → Outcome ε β) : (Except.ok a >>= f) = f a := rfl

@[simp] theorem error_bind (e : Failure ε) (f : α → Outcome ε β) :
    ((Except.error e : Outcome ε α) >>= f) = Except.error e := rfl

@[simp] theorem pure_eq_ok (a : α) : (pure a : Outcome ε α) = .ok a := rfl

@[simp] theorem debugAssert_of {c : Prop} [Decidable c] (h : c) :
    (debugAssert c : Outcome ε Unit) = .ok () := if_pos h

@[simp] theorem unwrap_some (a : α) : (unwrap (some a) : Outcome ε α) = .ok a := rfl

theorem index_of_getElem? {xs : List α} {k : ℕ} {a : α} (h : xs[k]? = some a) :
    (index xs k : Outcome ε α) = .ok a := by
  rw [index, h]

/-- A sequence of two programs returns a value when both do. -/
theorem bind_eq_ok {x : Outcome ε α} {f : α → Outcome ε β} {b : β} :
    (x >>= f) = .ok b ↔ ∃ a, x = .ok a ∧ f a = .ok b := by
  cases x with
  | ok a => simp
  | error e => simp

end Outcome

/-- A program over a state `σ`: whatever its outcome, it hands a state back. -/
def Prog (ε σ α : Type) : Type := σ → Outcome ε α × σ

namespace Prog

variable {ε σ κ α β γ : Type}

instance : Monad (Prog ε σ) where
  pure a := fun s => (.ok a, s)
  bind x f := fun s =>
    match x s with
    | (.ok a, s') => f a s'
    | (.error e, s') => (.error e, s')

/-- A program without state, run where there is one. -/
def lift (x : Outcome ε α) : Prog ε σ α := fun s => (x, s)

instance : MonadLift (Outcome ε) (Prog ε σ) := ⟨lift⟩

/-- Reading the state. -/
def get : Prog ε σ σ := fun s => (.ok s, s)

/-- Replacing the state. -/
def set (s : σ) : Prog ε σ Unit := fun _ => (.ok (), s)

/-- Changing the state. -/
def modify (f : σ → σ) : Prog ε σ Unit := fun s => (.ok (), f s)

/-- Ending in an error. -/
def err (e : ε) : Prog ε σ α := lift (Outcome.err e)

/-- A program on the first component of a state. -/
def onFst (x : Prog ε κ α) : Prog ε (κ × σ) α := fun s => ((x s.1).1, ((x s.1).2, s.2))

/-- A program on the second component of a state. -/
def onSnd (x : Prog ε σ α) : Prog ε (κ × σ) α := fun s => ((x s.2).1, (s.1, (x s.2).2))

@[simp] theorem pure_run (a : α) (s : σ) : (pure a : Prog ε σ α) s = (.ok a, s) := rfl

@[simp] theorem lift_run (x : Outcome ε α) (s : σ) : (lift x : Prog ε σ α) s = (x, s) := rfl

@[simp] theorem liftM_eq (x : Outcome ε α) : (liftM x : Prog ε σ α) = lift x := rfl

@[simp] theorem monadLift_eq (x : Outcome ε α) :
    (MonadLift.monadLift x : Prog ε σ α) = lift x := rfl

@[simp] theorem get_run (s : σ) : (get : Prog ε σ σ) s = (.ok s, s) := rfl

@[simp] theorem set_run (s t : σ) : (set t : Prog ε σ Unit) s = (.ok (), t) := rfl

@[simp] theorem modify_run (f : σ → σ) (s : σ) :
    (modify f : Prog ε σ Unit) s = (.ok (), f s) := rfl

@[simp] theorem err_run (e : ε) (s : σ) : (err e : Prog ε σ α) s = (.error (.err e), s) := rfl

theorem bind_run (x : Prog ε σ α) (f : α → Prog ε σ β) (s : σ) :
    (x >>= f) s = match x s with
      | (.ok a, s') => f a s'
      | (.error e, s') => (.error e, s') := rfl

/-- **The sequence rule**: when the first program returns, the second runs from
the state it left. -/
theorem bind_ok {x : Prog ε σ α} {f : α → Prog ε σ β} {s s' : σ} {a : α} (h : x s = (.ok a, s')) :
    (x >>= f) s = f a s' := by
  rw [bind_run, h]

/-- When the first program fails, the second does not run. -/
theorem bind_error {x : Prog ε σ α} {f : α → Prog ε σ β} {s s' : σ} {e : Failure ε}
    (h : x s = (.error e, s')) : (x >>= f) s = (.error e, s') := by
  rw [bind_run, h]

/-- A sequence returns a value exactly when both of its programs do. -/
theorem bind_eq_ok {x : Prog ε σ α} {f : α → Prog ε σ β} {s s' : σ} {b : β} :
    (x >>= f) s = (.ok b, s') ↔ ∃ a t, x s = (.ok a, t) ∧ f a t = (.ok b, s') := by
  rw [bind_run]
  rcases h : x s with ⟨a | a, t⟩
  · simp
  · simp

@[simp] theorem lift_ok_bind (a : α) (f : α → Prog ε σ β) : (lift (.ok a) >>= f) = f a := rfl

@[simp] theorem pure_bind' (a : α) (f : α → Prog ε σ β) : (pure a >>= f) = f a := rfl

instance : LawfulMonad (Prog ε σ) := by
  refine LawfulMonad.mk' _ (fun x => ?_) (fun _ _ => rfl) (fun x f g => ?_)
  · funext s
    change (match x s with
      | (.ok a, s') => (Except.ok a, s')
      | (.error e, s') => (.error e, s')) = x s
    rcases x s with ⟨_ | _, _⟩ <;> rfl
  · funext s
    simp only [bind_run]
    rcases x s with ⟨_ | _, _⟩ <;> rfl

/-- Running a program on the first component. -/
theorem onFst_run {x : Prog ε κ α} {a : κ} {o : Outcome ε α} {b : κ} (h : x a = (o, b)) (s : σ) :
    (onFst x : Prog ε (κ × σ) α) (a, s) = (o, (b, s)) := by
  simp [onFst, h]

/-- Running a program on the second component. -/
theorem onSnd_run {x : Prog ε σ α} {s t : σ} {o : Outcome ε α} (h : x s = (o, t)) (a : κ) :
    (onSnd x : Prog ε (κ × σ) α) (a, s) = (o, (a, t)) := by
  simp [onSnd, h]

@[simp] theorem onFst_pure (a : α) : (onFst (pure a) : Prog ε (κ × σ) α) = pure a := rfl

/-- A sequence of programs on the first component. -/
theorem onFst_bind (x : Prog ε κ α) (f : α → Prog ε κ β) :
    (onFst (x >>= f) : Prog ε (κ × σ) β) = onFst x >>= fun a => onFst (f a) := by
  funext s
  simp only [onFst, bind_run]
  rcases x s.1 with ⟨_ | _, _⟩ <;> rfl

/-- A program on the first component leaves the second one alone. -/
theorem onFst_bind_congr {x : Prog ε κ α} {f g : α → Prog ε (κ × σ) β} {s : σ}
    (h : ∀ a k, f a (k, s) = g a (k, s)) (k : κ) :
    (onFst x >>= f) (k, s) = (onFst x >>= g) (k, s) := by
  simp only [onFst, bind_run]
  rcases x k with ⟨_ | a, k'⟩
  · rfl
  · exact h a k'

/-- A fold step by step. -/
theorem foldlM_cons_ok {f : β → α → Prog ε σ β} {x : α} {xs : List α} {b b' : β} {s s' : σ}
    (h : f b x s = (.ok b', s')) : (x :: xs).foldlM f b s = xs.foldlM f b' s' := by
  rw [List.foldlM_cons, bind_ok h]

end Prog

end StratifiedHashTree
