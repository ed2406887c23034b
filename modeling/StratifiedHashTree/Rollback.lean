import StratifiedHashTree.Backend

/-!
# Reopening and truncating

A slate keeps three things – a position, a cache, and what its storage remembers – that are
carried along by every append and rebuilt from the last record by every opening. That the
two ways agree is what makes a slate safe to close at any time
(`StratifiedHashTree.reopen_eq_self`), and to cut back to any earlier state
(`StratifiedHashTree.truncate_rollback`).
-/

namespace StratifiedHashTree

open Outcome

variable {w : ℕ} {B : Backend w} {H : HashFn w} {L : ℕ} {vs : List Bytes} {s : SlateOn B}

/-- **Reopening loses nothing.** A slate opened on the content of another one, at the same
cache level, is that slate in every field; so whatever is appended to either gives the
same roots and the same content. -/
theorem reopen_eq_self (h : Reaches B H L vs s) :
    ∃ s' : SlateOn B, Slate.withCacheLevel (B.log.reopen s.storage) L = .ok s' ∧ s' = s ∧
      ∀ ws, Slate.appendAll H ws s' = Slate.appendAll H ws s := by
  obtain ⟨s', h1, h2⟩ := h.slateOf.reopen L
  have heq : s' = s := h2.unique h.slateOf
  exact ⟨s', h1, heq, fun ws => by rw [heq]⟩

/-- A slate in a block storage, reopened after two appends. -/
theorem reopen_eq_self_two :
    ∃ s : SlateOn tinyBlock, Reaches tinyBlock byteSum 1 [[1], [2, 3]] s ∧
      ∃ s' : SlateOn tinyBlock,
        Slate.withCacheLevel (tinyBlock.log.reopen s.storage) 1 = .ok s' ∧ s' = s ∧
          ∀ ws, Slate.appendAll byteSum ws s' = Slate.appendAll byteSum ws s := by
  obtain ⟨s, h⟩ := exists_reaches_of_length_lt tinyBlock byteSum 1 [[1], [2, 3]]
    (by decide) (by decide)
  exact ⟨s, h, reopen_eq_self h⟩

/-- **Truncation is exact rollback.** Cutting at an index of the slate leads to the slate
that is built from the payloads before it; cutting anywhere else changes nothing. -/
theorem truncate_rollback (h : Reaches B H L vs s) {fuel : ℕ} (hf : INDEX_SIZE < fuel) (i : ℕ) :
    (1 ≤ i ∧ i ≤ vs.length → ∃ s' puts, Slate.truncate fuel i s = (.ok true, s') ∧
      build B H L (vs.take (i - 1)) = .ok (s', puts)) ∧
    (¬(1 ≤ i ∧ i ≤ vs.length) → Slate.truncate fuel i s = (.ok false, s)) := by
  constructor
  · rintro ⟨h1, h2⟩
    obtain ⟨s', ht, -⟩ := h.slateOf.truncate_ok hf h1 h2
    obtain ⟨puts, hb⟩ := (h.truncate hf ht).built
    exact ⟨s', puts, ht, hb⟩
  · intro hi
    exact h.slateOf.truncate_no hf (by omega)

/-- A key-value storage cut down to its first entry, and a cut that is out of range. -/
theorem truncate_rollback_two :
    ∃ s : SlateOn .memKVS, Reaches .memKVS byteSum 1 [[1], [2, 3]] s ∧
      (∃ s' puts, Slate.truncate 65 2 s = (.ok true, s') ∧
        build .memKVS byteSum 1 [[1]] = .ok (s', puts)) ∧
      Slate.truncate 65 3 s = (.ok false, s) := by
  obtain ⟨s, h⟩ := exists_reaches_of_length_lt .memKVS byteSum 1 [[1], [2, 3]]
    (by decide) (by decide)
  exact ⟨s, h, (truncate_rollback h (by decide) 2).1 (by decide),
    (truncate_rollback h (by decide) 3).2 (by decide)⟩

end StratifiedHashTree
