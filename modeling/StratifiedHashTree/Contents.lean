import Mathlib.Algebra.BigOperators.Intervals
import Mathlib.Algebra.BigOperators.Ring.Finset
import StratifiedHashTree.Booting
import StratifiedHashTree.Decomposition
import StratifiedHashTree.Isolation

/-!
# What a block storage holds

The bytes of a block storage say what has been appended, and in which order. A record says where it
ends, so two contents can only differ where the records do; and a record is that of the same entry
only if the payload is the same. So one content begins another exactly if the payloads of the one
begin those of the other (`StratifiedHashTree.stored_prefix_iff`).

How many bytes there are is determined by the lengths of the payloads. Besides its payload, an entry
stores the nodes that it has completed, and those on the right edge of its generation: as many as
there are peaks in the generation before. On the average this is no more than half the height
(`StratifiedHashTree.length_storedBytes`).
-/

namespace StratifiedHashTree

open Formula FormulaTree

variable {w : ℕ} {hw : w ≤ 64} {checksum : Checksum} {H : HashFn w}

/-! ### The bytes of a slate -/

section Stored

variable {D : BlockDevice} {K : Disk D} {v : ℕ → Bytes} {n : ℕ}

/-- The bytes that the storage of a slate holds, on any device that keeps its content. -/
def Disk.stored (K : Disk D) (s : SlateOn (.block K hw checksum)) : Bytes :=
  K.content (s.storage : BlockStorage D).device

/-- The history on any device. -/
theorem history_block (K : Disk D) (v : ℕ → Bytes) (n : ℕ) :
    history (Backend.block K hw checksum).log H v n = history (memoryLog hw checksum) H v n :=
  history_eq_of_endPos (Backend.block K hw checksum).log (memoryLog hw checksum) (fun _ => rfl) n

/-- What fits on one device fits on the others. -/
theorem Fits.ofBlock (h : Fits (Backend.block K hw checksum).log H v n) :
    Fits (memoryLog hw checksum) H v n := by
  have hroom : BlockStorage.Room checksum (history (Backend.block K hw checksum).log H v n) :=
    h.room
  rw [history_block] at hroom
  exact ⟨hroom, h.payload_le⟩

/-- **What is stored for a slate** is said by its payloads, whatever the device is. -/
theorem Reaches.stored_eq {L : ℕ} {vs : List Bytes} {s : SlateOn (.block K hw checksum)}
    (h : Reaches (.block K hw checksum) H L vs s) : K.stored s = contentOf hw checksum H vs := by
  have hstate : (s.storage : BlockStorage D) = BlockStorage.render K checksum
    (history (Backend.block K hw checksum).log H (payload vs) vs.length) := h.slateOf.storage_eq
  rw [Disk.stored, hstate, BlockStorage.render, K.content_eq, history_block]

end Stored

/-! ### One content begins another -/

section Prefixes

variable {D : BlockDevice} (K : Disk D) {v v' : ℕ → Bytes} {n n' : ℕ}

/-- A log begins with the log of fewer payloads. -/
theorem content_prefix (h : n ≤ n') (heq : ∀ k, 1 ≤ k → k ≤ n → v k = v' k) :
    BlockStorage.content checksum (history (Backend.block K hw checksum).log H v n) <+:
      BlockStorage.content checksum (history (Backend.block K hw checksum).log H v' n') := by
  rw [history_congr heq, ← take_history _ _ _ h]
  refine ⟨((history (Backend.block K hw checksum).log H v' n').drop n).flatMap
    (record checksum), ?_⟩
  rw [← BlockStorage.content_append, List.take_append_drop]

/-- **The first records of a content are those of the content that it begins.** The induction is on
the payloads that are known to be the same: up to there the records are, so the next ones begin at
the same place. -/
theorem payloads_of_content_prefix (h : Fits (Backend.block K hw checksum).log H v n)
    (h' : Fits (Backend.block K hw checksum).log H v' n')
    (hpre : BlockStorage.content checksum (history (Backend.block K hw checksum).log H v n) <+:
      BlockStorage.content checksum (history (Backend.block K hw checksum).log H v' n')) :
    ∀ k, k ≤ n → k ≤ n' ∧ ∀ j, 1 ≤ j → j ≤ k → v j = v' j
  | 0, _ => ⟨Nat.zero_le _, fun j h1 h2 => absurd h1 (by omega)⟩
  | k + 1, hk => by
    obtain ⟨hk', heq⟩ := payloads_of_content_prefix h h' hpre k (Nat.le_of_succ_le hk)
    have hpos : positionOf (Backend.block K hw checksum).log H v (k + 1) =
        positionOf (Backend.block K hw checksum).log H v' (k + 1) :=
      positionOf_congr heq (Nat.le_refl _)
    have hin : positionOf (Backend.block K hw checksum).log H v (k + 1) <
        (BlockStorage.content checksum (history (Backend.block K hw checksum).log H v n)).length :=
      positionOf_block_lt K hw checksum (Nat.le_add_left 1 k) (show k + 1 < n + 1 by omega)
    -- there is another record, since the content goes on
    have hlt : k < n' := by
      refine lt_of_le_of_ne hk' fun hlast => ?_
      rw [hpos, hlast] at hin
      exact absurd hpre.length_le (Nat.not_le.mpr hin)
    refine ⟨hlt, fun j h1 h2 => ?_⟩
    rcases h2.eq_or_lt with rfl | hj
    · obtain ⟨rest, hrest⟩ := hpre
      obtain ⟨post, hdrop⟩ := drop_block_content (H := H) (v := v) K hw checksum h1 hk
      obtain ⟨post', hdrop'⟩ := drop_block_content (H := H) (v := v') K hw checksum h1 hlt
      have hrecord := isRecord_record hw checksum
        (h.placed h1 (Nat.le_succ_of_le hk) (h.payload_le _ h1 hk))
      have hrecord' := isRecord_record hw checksum
        (h'.placed h1 (Nat.le_succ_of_le hlt) (h'.payload_le _ h1 hlt))
      rw [← hpos] at hrecord' hdrop'
      rw [← hrest, List.drop_append_of_le_length hin.le, hdrop, List.append_assoc] at hdrop'
      obtain ⟨-, hentry⟩ := hrecord.unique hrecord' hdrop'
      exact congrArg (fun e : Entry w => e.enode.payload) hentry
    · exact heq j h1 (Nat.lt_succ_iff.mp hj)

end Prefixes

section Slates

variable {D D' : BlockDevice} {K : Disk D} {K' : Disk D'} {L L' : ℕ} {vs vs' : List Bytes}
  {s : SlateOn (.block K hw checksum)} {s' : SlateOn (.block K' hw checksum)}

/-- **The bytes begin those of another slate exactly if the payloads do**, whatever the two have
been through, whatever their caches are and wherever they are stored. -/
theorem stored_prefix_iff (h : Reaches (.block K hw checksum) H L vs s)
    (h' : Reaches (.block K' hw checksum) H L' vs' s') :
    K.stored s <+: K'.stored s' ↔ vs <+: vs' := by
  rw [h.stored_eq, h'.stored_eq]
  constructor
  · intro hpre
    obtain ⟨hle, heq⟩ := payloads_of_content_prefix MemoryDevice.disk h.slateOf.fits.ofBlock
      h'.slateOf.fits.ofBlock hpre vs.length (Nat.le_refl _)
    refine List.prefix_iff_getElem.mpr ⟨hle, fun k hk => ?_⟩
    rw [getElem_eq_payload hk, getElem_eq_payload (hk.trans_le hle)]
    exact heq _ (Nat.le_add_left 1 _) (by omega)
  · rintro ⟨ws, rfl⟩
    refine content_prefix MemoryDevice.disk ?_ fun k h1 h2 => payload_append_left ws h1 h2
    rw [List.length_append]
    exact Nat.le_add_right _ _

/-- A block storage on a file for hashes of one byte, with a constant checksum. -/
def tinyFile : Backend 1 := .block FileDevice.disk one_le_64 fun _ => 7

/-- One in memory, and one on a file. -/
theorem stored_prefix_iff_two :
    ∃ (s : SlateOn tinyBlock) (s' : SlateOn tinyFile), Reaches tinyBlock byteSum 0 [[1], []] s ∧
      Reaches tinyFile byteSum 2 [[1], [0]] s' ∧
      (MemoryDevice.disk.stored s <+: FileDevice.disk.stored s' ↔
        [[1], []] <+: ([[1], [0]] : List Bytes)) := by
  obtain ⟨s, h⟩ := exists_reaches_of_length_lt tinyBlock byteSum 0 [[1], []] (by decide) (by decide)
  obtain ⟨s', h'⟩ := exists_reaches_of_length_lt tinyFile byteSum 2 [[1], [0]] (by decide)
    (by decide)
  exact ⟨s, s', h, h', stored_prefix_iff h h'⟩

end Slates

/-! ### How much is stored -/

section Sizes

/-- Generations of up to `2 ^ m` leaves have `m / 2` peaks on the average at most. The induction is
on `m`: a highest bit more counts for the upper half only. -/
theorem sum_countOnes_le : ∀ (m : ℕ), m ≤ 64 → ∀ n, n ≤ 2 ^ m →
    2 * ∑ k ∈ Finset.range n, countOnes k ≤ n * m
  | 0, _, n, hn => by
    rcases Nat.le_one_iff_eq_zero_or_eq_one.mp hn with rfl | rfl
    · simp
    · simp [countOnes_zero]
  | m + 1, hm, n, hn => by
    by_cases hle : n ≤ 2 ^ m
    · exact (sum_countOnes_le m (Nat.le_of_succ_le hm) n hle).trans
        (Nat.mul_le_mul_left n (Nat.le_succ m))
    · obtain ⟨s, rfl⟩ : ∃ s, n = 2 ^ m + s := Nat.exists_eq_add_of_le (Nat.le_of_not_le hle)
      have hs : s ≤ 2 ^ m := by
        rw [pow_succ] at hn
        omega
      have hupper : ∑ y ∈ Finset.range s, countOnes (2 ^ m + y) =
          ∑ y ∈ Finset.range s, countOnes y + s := by
        have hone : ∀ y ∈ Finset.range s, countOnes (2 ^ m + y) = countOnes y + 1 := fun y hy =>
          countOnes_two_pow_add hm ((Finset.mem_range.mp hy).trans_le hs)
        rw [Finset.sum_congr rfl hone, Finset.sum_add_distrib]
        simp
      have h1 := sum_countOnes_le m (Nat.le_of_succ_le hm) (2 ^ m) (Nat.le_refl _)
      have h2 := sum_countOnes_le m (Nat.le_of_succ_le hm) s hs
      rw [Finset.sum_range_add, hupper]
      linarith [add_mul (2 ^ m) s (m + 1), mul_add_one (2 ^ m) m, mul_add_one s m]

/-- How many nodes an entry stores besides its own leaf: the peaks of the generation before. -/
theorem length_inodes_entryAt (v : ℕ → Bytes) (pos : ℕ → Position) {k : ℕ} (hk : k < 2 ^ 64) :
    (entryAt H v pos (k + 1)).inodes.length = countOnes k := by
  rw [entryAt, List.length_reverse, List.length_map]
  rcases Nat.eq_zero_or_pos k with rfl | hpos
  · rw [countOnes_zero, Tree.upTo, Tree.grow_one]
    rfl
  · rw [← Tree.length_peaks k 0 hpos hk, ← Tree.upTo, ← Tree.spine_upTo_succ hpos, List.length_map]

/-- The length of the content, entry by entry. -/
theorem length_content_history (v : ℕ → Bytes) : ∀ n, n < 2 ^ 64 →
    (BlockStorage.content checksum (history (memoryLog hw checksum) H v n)).length =
      4 + ∑ k ∈ Finset.range n, (25 + w + (v (k + 1)).length + countOnes k * (18 + w))
  | 0, _ => by rw [history, BlockStorage.content_nil, Finset.sum_range_zero]; rfl
  | n + 1, hn => by
    have hlen := length_inodes_entryAt (H := H) v
      (positionOf (memoryLog hw checksum) H v) (Nat.lt_of_succ_lt hn)
    rw [history_succ, BlockStorage.content_concat, List.length_append,
      length_content_history v n (Nat.lt_of_succ_lt hn), Finset.sum_range_succ, length_record,
      length_encodeEntry, hlen, entryAt_payload]
    omega

theorem sum_payload (f : Bytes → ℕ) : ∀ vs : List Bytes,
    ∑ k ∈ Finset.range vs.length, f (payload vs (k + 1)) = (vs.map f).sum
  | [] => rfl
  | v :: vs => by
    rw [List.length_cons, Finset.sum_range_succ', List.map_cons, List.sum_cons, ← sum_payload f vs,
      Nat.add_comm]
    rfl

/-- **How many bytes are stored**: for every payload its bytes, those of its leaf and of its record,
and those of the nodes that came with it, which are no more than half the height of the slate on
the average. -/
theorem length_storedBytes {D : BlockDevice} {K : Disk D} {L : ℕ} {vs : List Bytes}
    {s : SlateOn (.block K hw checksum)} (h : Reaches (.block K hw checksum) H L vs s) :
    (K.stored s).length = 4 + (vs.map fun v => 25 + w + v.length).sum +
        (∑ k ∈ Finset.range vs.length, countOnes k) * (18 + w) ∧
      2 * ∑ k ∈ Finset.range vs.length, countOnes k ≤ vs.length * Nat.clog 2 vs.length := by
  have hlt : vs.length < 2 ^ 64 := Nat.lt_of_succ_lt h.slateOf.fits.lt
  constructor
  · have hlen : (contentOf hw checksum H vs).length = _ :=
      length_content_history (payload vs) vs.length hlt
    rw [h.stored_eq, hlen, Finset.sum_add_distrib, ← Finset.sum_mul,
      sum_payload fun v => 25 + w + v.length, Nat.add_assoc]
  · exact sum_countOnes_le _ (Nat.clog_le_of_le_pow hlt.le) _ (Nat.le_pow_clog Nat.one_lt_two _)

/-- Four payloads: a record is 26 bytes and its payload, and there are four nodes of 19 bytes. -/
theorem length_storedBytes_four :
    ∃ s : SlateOn tinyFile, Reaches tinyFile byteSum 1 [[1], [], [2, 3], [4]] s ∧
      (FileDevice.disk.stored s).length = 4 + (27 + 26 + 28 + 27) + 4 * 19 := by
  obtain ⟨s, h⟩ := exists_reaches_of_length_lt tinyFile byteSum 1 [[1], [], [2, 3], [4]]
    (by decide) (by decide)
  refine ⟨s, h, (length_storedBytes h).1.trans ?_⟩
  decide

end Sizes

end StratifiedHashTree
