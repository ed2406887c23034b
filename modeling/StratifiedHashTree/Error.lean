import Mathlib.Algebra.Group.Nat.Defs
import StratifiedHashTree.Prog

/-!
# Errors and machine words

The errors of the crate (`error.rs`), with the data each of them carries, and the
checked arithmetic of its integer types. Indices, positions and lengths are
natural numbers here; an operation that leaves the range of its machine type is a
panic, as it is in a build with overflow checks, so that “computes without
overflow” is the statement that the model returns a value.
-/

namespace StratifiedHashTree

/-- The kind of an I/O error. -/
inductive IoErrorKind where
  | notFound
  | permissionDenied
  | unexpectedEof
  | writeZero
  | other
  deriving DecidableEq, Repr

/-- The errors of the crate. -/
inductive Error where
  /-- The contents of a storage are not for Slate. -/
  | storageIsNotForSlate (message : String)
  /-- The version of a storage is incompatible. -/
  | incompatibleVersion (major minor : ℕ)
  /-- The payload of an append is too large. -/
  | tooLargePayload (size : ℕ)
  /-- A general message for damaged storage. -/
  | damagedStorage (message : String)
  /-- The offset to the head of an entry is wrong. -/
  | incorrectEntryHeadOffset (expected actual : ℕ)
  /-- The checksum of an entry is wrong. -/
  | checksumVerificationFailed (at_ length expected actual : ℕ)
  /-- The state in memory contradicts what is stored. -/
  | internalStateInconsistency (message : String)
  /-- A stratum sample is ill-formed, or two samples cannot be compared. -/
  | sampleVerificationFailed (message : String)
  /-- An argument is invalid. -/
  | invalidArgument (message : String)
  /-- A callback of the user returned an error. -/
  | callback (error : String)
  /-- An I/O error. -/
  | io (kind : IoErrorKind) (message : String)
  /-- An error of the database. -/
  | rocksDB (message : String)
  /-- An error of the lock around the database. -/
  | lockError (message : String)
  deriving DecidableEq, Repr

/-- The crate's `Result`, with the panics and the step bound of the model. -/
abbrev Result := Outcome Error

/-- A program of the crate over a state `σ`. -/
abbrev Run := Prog Error

/-! ### Checked arithmetic -/

/-- Addition at a machine type of `w` bits. -/
def addBits (w a b : ℕ) : Result ℕ :=
  if a + b < 2 ^ w then .ok (a + b) else .panic .overflow

/-- Subtraction at an unsigned machine type. -/
def subBits (a b : ℕ) : Result ℕ :=
  if b ≤ a then .ok (a - b) else .panic .overflow

/-- A left shift at a machine type of `w` bits: too large a distance is an
overflow, the bits shifted out are lost. -/
def shlBits (w a k : ℕ) : Result ℕ :=
  if k < w then .ok (a * 2 ^ k % 2 ^ w) else .panic .overflow

/-- A right shift at a machine type of `w` bits. -/
def shrBits (w a k : ℕ) : Result ℕ :=
  if k < w then .ok (a / 2 ^ k) else .panic .overflow

theorem addBits_of_lt {w a b : ℕ} (h : a + b < 2 ^ w) : addBits w a b = .ok (a + b) := if_pos h

theorem subBits_of_le {a b : ℕ} (h : b ≤ a) : subBits a b = .ok (a - b) := if_pos h

theorem shlBits_of_lt {w a k : ℕ} (hk : k < w) (h : a * 2 ^ k < 2 ^ w) :
    shlBits w a k = .ok (a * 2 ^ k) := by
  rw [shlBits, if_pos hk, Nat.mod_eq_of_lt h]

theorem shrBits_of_lt {w a k : ℕ} (hk : k < w) : shrBits w a k = .ok (a / 2 ^ k) := if_pos hk

end StratifiedHashTree
