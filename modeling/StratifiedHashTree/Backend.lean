import Mathlib.Data.List.GetD
import StratifiedHashTree.BlockStorage
import StratifiedHashTree.MemKVS
import StratifiedHashTree.Runs

/-!
# Slates over the backends

The storages of the crate that a slate can be opened on
(`StratifiedHashTree.Backend`), and the ways to get a slate: from a list of payloads by one
append after the other (`StratifiedHashTree.build`), or by any sequence of appends,
truncates and reopenings (`StratifiedHashTree.Reaches`). Which payloads a slate holds is
tracked along the way, and it is all there is to know about it: a slate that holds some
payloads *is* the one that was built from them (`StratifiedHashTree.Reaches.built`).
-/

namespace StratifiedHashTree

open Outcome Formula

variable {w : ℕ}

/-- **A backend**: the key-value storage in memory, or the block storage over a device that
keeps its content. Hashes have at most 64 bytes; the length field of a record counts on
that. -/
inductive Backend (w : ℕ) : Type 1 where
  | memKVS
  | block {D : BlockDevice} (K : Disk D) (hw : w ≤ 64) (checksum : Checksum)

/-- The storage of a backend, with what it stands for. -/
def Backend.log : Backend w → LogStorage (Entry w) Entry.Placed
  | .memKVS => MemKVS.logStorage Entry.Placed
  | .block K hw checksum => BlockStorage.logStorage K hw checksum

theorem Backend.memKVS_panicsWhenFull : (Backend.memKVS (w := w)).log.PanicsWhenFull :=
  MemKVS.panicsWhenFull Entry.Placed

/-- The block storage in memory. -/
def Backend.blockMemory (hw : w ≤ 64) (checksum : Checksum) : Backend w :=
  .block MemoryDevice.disk hw checksum

/-- A slate over a backend. -/
abbrev SlateOn (B : Backend w) := Slate B.log.toStorage

/-! ### Building a slate -/

/-- The payload of an index. -/
def payload (vs : List Bytes) (k : Index) : Bytes := vs.getD (k - 1) []

/-- Appends one payload after the other; returns the position of each, at which the storage
was told to put its entry, and the root that was returned for it. -/
def Slate.appendAll {S : Storage (Entry w)} (H : HashFn w) :
    List Bytes → Run (Slate S) (List (Position × MetaInfo w))
  | [] => return []
  | v :: vs => do
    let self ← Prog.get
    let info ← Slate.append H v
    let puts ← Slate.appendAll H vs
    return (self.position, info) :: puts

/-- A slate on an empty store. -/
def openNew (B : Backend w) (L : ℕ) : Result (SlateOn B) := Slate.withCacheLevel B.log.fresh L

/-- **The slate built by appending payloads to an empty store.** -/
def build (B : Backend w) (H : HashFn w) (L : ℕ) (vs : List Bytes) :
    Result (SlateOn B × List (Position × MetaInfo w)) := do
  let s ← openNew B L
  let puts ← (Slate.appendAll H vs s).1
  return ((Slate.appendAll H vs s).2, puts)

/-- The payloads are not too large, and their entries stay within what the machine can
count and allocate. -/
def Backend.Holds (B : Backend w) (H : HashFn w) (vs : List Bytes) : Prop :=
  Fits B.log H (payload vs) vs.length

/-- **The slates that can be reached**, with their cache level and the payloads they hold:
opened on an empty store, and then appended to, truncated and reopened in any order, as
long as the operations return. -/
inductive Reaches (B : Backend w) (H : HashFn w) : ℕ → List Bytes → SlateOn B → Prop
  | new {L : ℕ} {s : SlateOn B} : openNew B L = .ok s → Reaches B H L [] s
  | append {L : ℕ} {vs : List Bytes} {s s' : SlateOn B} {v : Bytes} {info : MetaInfo w} :
      Reaches B H L vs s → Slate.append H v s = (.ok info, s') → Reaches B H L (vs ++ [v]) s'
  | truncate {L : ℕ} {vs : List Bytes} {s s' : SlateOn B} {fuel i : ℕ} :
      Reaches B H L vs s → INDEX_SIZE < fuel → Slate.truncate fuel i s = (.ok true, s') →
      Reaches B H L (vs.take (i - 1)) s'
  | keep {L : ℕ} {vs : List Bytes} {s s' : SlateOn B} {fuel i : ℕ} :
      Reaches B H L vs s → INDEX_SIZE < fuel → Slate.truncate fuel i s = (.ok false, s') →
      Reaches B H L vs s'
  | reopen {L L' : ℕ} {vs : List Bytes} {s s' : SlateOn B} :
      Reaches B H L vs s → Slate.withCacheLevel (B.log.reopen s.storage) L' = .ok s' →
      Reaches B H L' vs s'

/-! ### Payloads -/

section Payloads

variable {vs : List Bytes} {k : ℕ}

theorem payload_eq_getElem (h1 : 1 ≤ k) (h2 : k ≤ vs.length) :
    payload vs k = vs.get ⟨k - 1, by omega⟩ := by
  rw [payload, List.getD_eq_getElem _ _ (by omega)]
  rfl

theorem payload_append_left (vs' : List Bytes) (h1 : 1 ≤ k) (h2 : k ≤ vs.length) :
    payload vs k = payload (vs ++ vs') k := by
  rw [payload, payload, List.getD_append _ _ _ _ (by omega)]

theorem payload_concat (vs : List Bytes) (v : Bytes) : payload (vs ++ [v]) (vs.length + 1) = v := by
  rw [payload, Nat.add_sub_cancel, List.getD_append_right _ _ _ _ (Nat.le_refl _), Nat.sub_self]
  rfl

theorem payload_take {m : ℕ} (h1 : 1 ≤ k) (h2 : k ≤ m) : payload (vs.take m) k = payload vs k := by
  rw [payload, payload, List.getD_eq_getElem?_getD, List.getD_eq_getElem?_getD,
    List.getElem?_take_of_lt (by omega)]

theorem payload_mem (h1 : 1 ≤ k) (h2 : k ≤ vs.length) : payload vs k ∈ vs := by
  rw [payload_eq_getElem h1 h2]
  exact List.getElem_mem _

end Payloads

/-! ### Where entries lie -/

section Places

variable {H : HashFn w} {v : ℕ → Bytes} {j k n : ℕ}

/-- Later entries are further behind. -/
theorem positionOf_mono {B : Backend w} (h : j ≤ k) :
    positionOf B.log H v j ≤ positionOf B.log H v k := by
  cases B with
  | memKVS =>
    change (history _ H v (j - 1)).length + 1 ≤ (history _ H v (k - 1)).length + 1
    rw [length_history, length_history]
    omega
  | @block D K hw checksum =>
    have hle := BlockStorage.content_take_le checksum
      (history (Backend.block K hw checksum).log H v (k - 1)) (j - 1)
    rw [take_history _ _ _ (by omega)] at hle
    exact hle

variable {D : BlockDevice} (K : Disk D) (hw : w ≤ 64) (checksum : Checksum)

variable (H v) in
/-- The next position is behind the record. -/
theorem positionOf_block_succ (h1 : 1 ≤ k) :
    positionOf (Backend.block K hw checksum).log H v (k + 1) =
      positionOf (Backend.block K hw checksum).log H v k +
        (record checksum (entryOf (Backend.block K hw checksum).log H v k)).length := by
  obtain ⟨j, rfl⟩ : ∃ j, k = j + 1 := ⟨k - 1, by omega⟩
  change (BlockStorage.content checksum (history _ H v (j + 1))).length =
    (BlockStorage.content checksum (history _ H v j)).length + _
  rw [history_succ, BlockStorage.content_concat, List.length_append]

/-- So entries have places of their own. -/
theorem positionOf_block_lt (h1 : 1 ≤ j) (h : j < k) :
    positionOf (Backend.block K hw checksum).log H v j <
      positionOf (Backend.block K hw checksum).log H v k := by
  have hle : positionOf (Backend.block K hw checksum).log H v (j + 1) ≤
      positionOf (Backend.block K hw checksum).log H v k := positionOf_mono h
  have hrecord := BlockStorage.length_record_pos checksum
    (entryOf (Backend.block K hw checksum).log H v j)
  rw [positionOf_block_succ H v K hw checksum h1] at hle
  exact Nat.lt_of_lt_of_le (Nat.lt_add_of_pos_right (Nat.zero_lt_of_lt hrecord)) hle

/-- The record of an entry is where its position is. -/
theorem drop_block_content (h1 : 1 ≤ k) (h2 : k ≤ n) :
    ∃ post, (BlockStorage.content checksum
        (history (Backend.block K hw checksum).log H v n)).drop
          (positionOf (Backend.block K hw checksum).log H v k) =
      record checksum (entryOf (Backend.block K hw checksum).log H v k) ++ post := by
  have hk : k - 1 < (history (Backend.block K hw checksum).log H v n).length := by
    rw [length_history]
    omega
  have hdrop := BlockStorage.drop_content_of_lt checksum hk
  rw [take_history _ _ _ (by omega), history_getElem, Nat.sub_add_cancel h1] at hdrop
  exact ⟨_, hdrop⟩

end Places

/-! ### Appending many payloads -/

section AppendAll

variable {S : LogStorage (Entry w) Entry.Placed} {H : HashFn w} {L : ℕ} {v : ℕ → Bytes}

/-- What appending the payload of an index returns. -/
def putOf (S : LogStorage (Entry w) Entry.Placed) (H : HashFn w) (v : ℕ → Bytes) (i : ℕ) :
    Position × MetaInfo w :=
  (positionOf S H v i, nodeInfo H v (positionOf S H v) (Tree.upTo i))

/-- Appending payloads leads to the slate with these payloads more. -/
theorem SlateOf.appendAll_ok : ∀ (ws : List Bytes) {n : ℕ} {s : Slate S.toStorage},
    SlateOf S H L v n s → (∀ k (h : k < ws.length), ws[k] = v (n + k + 1)) →
    Fits S H v (n + ws.length) →
    ∃ s', Slate.appendAll H ws s =
        (.ok ((List.range ws.length).map fun k => putOf S H v (n + k + 1)), s') ∧
      SlateOf S H L v (n + ws.length) s'
  | [], n, s, h, _, _ => ⟨s, rfl, h⟩
  | value :: ws, n, s, h, hv, hfits => by
    rw [List.length_cons] at hfits ⊢
    have hvalue : value = v (n + 1) := hv 0 (Nat.succ_pos _)
    have hlen := hfits.payload_le (n + 1) (by omega) (by omega)
    obtain ⟨s1, h1, h2⟩ := h.append_ok hlen (hfits.mono (by omega)).room
    obtain ⟨s2, h3, h4⟩ := appendAll_ok ws h2
      (fun k hk => by
        have h5 := hv (k + 1) (by rw [List.length_cons]; omega)
        rwa [List.getElem_cons_succ, ← Nat.add_assoc, Nat.add_right_comm n k 1] at h5)
      (by rwa [Nat.add_assoc, Nat.add_comm 1])
    refine ⟨s2, ?_, by rwa [Nat.add_assoc, Nat.add_comm 1] at h4⟩
    rw [Slate.appendAll, Prog.bind_ok (Prog.get_run s), hvalue, Prog.bind_ok h1, Prog.bind_ok h3,
      List.range_succ_eq_map, List.map_cons, List.map_map, h.position_eq]
    simp only [Prog.pure_run, Function.comp_def, Nat.succ_eq_add_one, Nat.add_zero,
      Nat.add_right_comm n _ 1]
    rfl

/-- Appends that return have led to a log that fits. -/
theorem SlateOf.fits_of_appendAll : ∀ (ws : List Bytes) {n : ℕ} {s s' : Slate S.toStorage}
    {puts : List (Position × MetaInfo w)}, SlateOf S H L v n s →
    (∀ k (h : k < ws.length), ws[k] = v (n + k + 1)) →
    Slate.appendAll H ws s = (.ok puts, s') → Fits S H v (n + ws.length)
  | [], _, _, _, _, h, _, _ => h.fits
  | value :: ws, n, s, s', puts, h, hv, ha => by
    rw [Slate.appendAll, Prog.bind_ok (Prog.get_run s), Prog.bind_eq_ok] at ha
    obtain ⟨info, s1, h1, ha⟩ := ha
    obtain ⟨h2, -⟩ := h.of_append (hv 0 (Nat.succ_pos _)) h1
    rw [Prog.bind_eq_ok] at ha
    obtain ⟨puts', s2, h3, -⟩ := ha
    have h4 := fits_of_appendAll ws h2
      (fun k hk => by
        have h5 := hv (k + 1) (by rw [List.length_cons]; omega)
        rwa [List.getElem_cons_succ, ← Nat.add_assoc, Nat.add_right_comm n k 1] at h5) h3
    rwa [List.length_cons, Nat.add_comm ws.length, ← Nat.add_assoc]

end AppendAll

/-! ### Slates that hold payloads -/

section Reached

variable {B : Backend w} {H : HashFn w} {L : ℕ} {vs : List Bytes} {s : SlateOn B}

theorem openNew_eq (B : Backend w) (H : HashFn w) (L : ℕ) (v : ℕ → Bytes) :
    ∃ s, openNew B L = .ok s ∧ SlateOf B.log H L v 0 s := withCacheLevel_fresh v

theorem getElem_eq_payload {k : ℕ} (h : k < vs.length) : vs[k] = payload vs (0 + k + 1) := by
  rw [payload_eq_getElem (by omega) (by omega)]
  simp only [Nat.zero_add, Nat.add_sub_cancel, List.get_eq_getElem]

/-- **Building succeeds** when the payloads fit. -/
theorem build_ok (L : ℕ) (h : B.Holds H vs) :
    ∃ s, build B H L vs =
        .ok (s, (List.range vs.length).map fun k => putOf B.log H (payload vs) (k + 1)) ∧
      SlateOf B.log H L (payload vs) vs.length s := by
  obtain ⟨s0, h0, hs0⟩ := openNew_eq B H L (payload vs)
  obtain ⟨s, h1, h2⟩ := hs0.appendAll_ok vs (fun _ hk => getElem_eq_payload hk)
    (by rwa [Nat.zero_add])
  simp only [Nat.zero_add] at h1 h2
  refine ⟨s, ?_, h2⟩
  rw [build, h0, ok_bind, h1, ok_bind, pure_eq_ok]

/-- **Building succeeds only** when the payloads fit. -/
theorem holds_of_build {r : SlateOn B × List (Position × MetaInfo w)} (h : build B H L vs = .ok r) :
    B.Holds H vs := by
  obtain ⟨s0, h0, hs0⟩ := openNew_eq B H L (payload vs)
  rw [build, h0, ok_bind, bind_eq_ok] at h
  obtain ⟨puts, h1, -⟩ := h
  have h2 := hs0.fits_of_appendAll vs (fun _ hk => getElem_eq_payload hk)
    (show Slate.appendAll H vs s0 = (.ok puts, (Slate.appendAll H vs s0).2) from Prod.ext h1 rfl)
  rwa [Nat.zero_add] at h2

/-- What building returns. -/
theorem of_build {puts : List (Position × MetaInfo w)} (h : build B H L vs = .ok (s, puts)) :
    SlateOf B.log H L (payload vs) vs.length s ∧
      puts = (List.range vs.length).map fun k => putOf B.log H (payload vs) (k + 1) := by
  obtain ⟨s', h1, h2⟩ := build_ok L (holds_of_build h)
  rw [h1, Except.ok.injEq, Prod.mk.injEq] at h
  obtain ⟨rfl, rfl⟩ := h
  exact ⟨h2, rfl⟩

theorem Backend.Holds.take (h : B.Holds H vs) (k : ℕ) : B.Holds H (vs.take k) := by
  have h1 : (vs.take k).length ≤ vs.length := List.length_take_le' k vs
  refine (Fits.mono h h1).congr fun i hi1 hi2 => (payload_take hi1 ?_).symm
  rw [List.length_take] at hi2
  omega

/-- **A slate that is reached** is the slate of the payloads it holds. -/
theorem Reaches.slateOf (h : Reaches B H L vs s) :
    SlateOf B.log H L (payload vs) vs.length s := by
  induction h with
  | @new L s h =>
    obtain ⟨s', h1, h2⟩ := openNew_eq B H L (payload [])
    rw [h1, Except.ok.injEq] at h
    exact h ▸ h2
  | @append L vs s s' v info _ ha ih =>
    have h1 := ih.congr fun k h1 h2 => payload_append_left [v] h1 h2
    obtain ⟨h2, -⟩ := h1.of_append (payload_concat vs v).symm ha
    rwa [List.length_append, List.length_singleton]
  | @truncate L vs s s' fuel i _ hf ht ih =>
    -- it has returned `true`, so the index was there
    by_cases hi : 1 ≤ i ∧ i ≤ vs.length
    · obtain ⟨s'', h1, h2⟩ := ih.truncate_ok hf hi.1 hi.2
      rw [h1] at ht
      rw [(Prod.mk.inj ht).2, show i - 1 = (vs.take (i - 1)).length by
        rw [List.length_take]; omega] at h2
      refine h2.congr fun k hk1 hk2 => (payload_take hk1 ?_).symm
      rw [List.length_take] at hk2
      omega
    · rw [ih.truncate_no hf (by omega)] at ht
      exact absurd (Prod.mk.inj ht).1 (by simp)
  | @keep L vs s s' fuel i _ hf ht ih =>
    by_cases hi : 1 ≤ i ∧ i ≤ vs.length
    · obtain ⟨s'', h1, h2⟩ := ih.truncate_ok hf hi.1 hi.2
      rw [h1] at ht
      exact absurd (Prod.mk.inj ht).1 (by simp)
    · rw [ih.truncate_no hf (by omega)] at ht
      exact (Prod.mk.inj ht).2 ▸ ih
  | @reopen L L' vs s s' _ ho ih =>
    obtain ⟨s'', h1, h2⟩ := ih.reopen L'
    rw [h1, Except.ok.injEq] at ho
    exact ho ▸ h2

/-- **A slate that is reached** is the slate that is built. -/
theorem Reaches.built (h : Reaches B H L vs s) : ∃ puts, build B H L vs = .ok (s, puts) := by
  obtain ⟨s', h1, h2⟩ := build_ok L h.slateOf.fits
  rw [h2.unique h.slateOf] at h1
  exact ⟨_, h1⟩

/-- Appending to a slate that is reached. -/
theorem Reaches.appendAll : ∀ (ws : List Bytes) {vs : List Bytes} {s s' : SlateOn B}
    {puts : List (Position × MetaInfo w)}, Reaches B H L vs s →
    Slate.appendAll H ws s = (.ok puts, s') → Reaches B H L (vs ++ ws) s'
  | [], vs, s, s', _, h, ha => by
    rw [List.append_nil, ← (Prod.mk.inj ha).2]
    exact h
  | v :: ws, vs, s, s', puts, h, ha => by
    rw [Slate.appendAll, Prog.bind_ok (Prog.get_run s), Prog.bind_eq_ok] at ha
    obtain ⟨info, s1, h1, ha⟩ := ha
    rw [Prog.bind_eq_ok] at ha
    obtain ⟨puts', s2, h2, ha⟩ := ha
    have h3 := appendAll ws (h.append h1) h2
    rw [List.append_assoc, List.singleton_append] at h3
    rw [← (Prod.mk.inj ha).2]
    exact h3

/-- A slate that is built is reached. -/
theorem reaches_of_build {puts : List (Position × MetaInfo w)}
    (h : build B H L vs = .ok (s, puts)) : Reaches B H L vs s := by
  rw [build, bind_eq_ok] at h
  obtain ⟨s0, h0, h⟩ := h
  rw [bind_eq_ok] at h
  obtain ⟨puts', h1, h2⟩ := h
  rw [pure_eq_ok, Except.ok.injEq, Prod.mk.injEq] at h2
  rw [← h2.1]
  exact Reaches.appendAll vs (.new h0) (Prod.ext h1 rfl)

/-- **Every list of payloads that fit** is held by a slate. -/
theorem exists_reaches (L : ℕ) (h : B.Holds H vs) : ∃ s, Reaches B H L vs s := by
  obtain ⟨s, h1, -⟩ := build_ok L h
  exact ⟨s, reaches_of_build h1⟩

end Reached

/-! ### When payloads fit -/

/-- Payloads that are held are not too large. -/
theorem Backend.Holds.length_le {B : Backend w} {H : HashFn w} {vs : List Bytes}
    (h : B.Holds H vs) : ∀ v ∈ vs, v.length ≤ MAX_PAYLOAD_SIZE := by
  intro v hv
  obtain ⟨k, hk, rfl⟩ := List.getElem_of_mem hv
  rw [getElem_eq_payload hk]
  exact Fits.payload_le h _ (by omega) (by omega)

/-- Payloads that are not too large, and one more. -/
theorem forall_mem_concat {vs : List Bytes} {value : Bytes}
    (h : ∀ v ∈ vs, v.length ≤ MAX_PAYLOAD_SIZE) (hvalue : value.length ≤ MAX_PAYLOAD_SIZE) :
    ∀ v ∈ vs ++ [value], v.length ≤ MAX_PAYLOAD_SIZE := by
  intro v hv
  rcases List.mem_append.mp hv with hv | hv
  · exact h v hv
  · exact List.mem_singleton.mp hv ▸ hvalue

/-- The key-value storage holds as many payloads as it can count. -/
theorem holds_memKVS {H : HashFn w} {vs : List Bytes} :
    Backend.memKVS.Holds H vs ↔ vs.length + 1 < 2 ^ 64 ∧ ∀ v ∈ vs, v.length ≤ MAX_PAYLOAD_SIZE := by
  have hroom : (Backend.memKVS (w := w)).log.Room
      (history Backend.memKVS.log H (payload vs) vs.length) ↔ vs.length + 1 < 2 ^ 64 := by
    change (history _ _ _ _).length + 1 < 2 ^ 64 ↔ _
    rw [length_history]
  constructor
  · intro h
    exact ⟨hroom.mp h.room, h.length_le⟩
  · rintro ⟨h1, h2⟩
    exact ⟨hroom.mpr h1, fun k hk1 hk2 => h2 _ (payload_mem hk1 hk2)⟩

/-- **A billion payloads always fit**, whatever the backend: a record is shorter than four
gigabytes. -/
theorem holds_of_length_lt (B : Backend w) {H : HashFn w} {vs : List Bytes}
    (hlen : vs.length < 2 ^ 30) (hv : ∀ v ∈ vs, v.length ≤ MAX_PAYLOAD_SIZE) : B.Holds H vs := by
  cases B with
  | memKVS => exact holds_memKVS.mpr ⟨by omega, hv⟩
  | @block D K hw checksum =>
    have key : ∀ n ≤ vs.length, Fits (Backend.block K hw checksum).log H (payload vs) n ∧
        (BlockStorage.content checksum
          (history (Backend.block K hw checksum).log H (payload vs) n)).length ≤
            n * 2 ^ 32 + 4 := by
      intro n
      induction n with
      | zero =>
        intro _
        exact ⟨⟨LogStorage.room_nil _, fun k h1 h2 => absurd h1 (by omega)⟩, by
          rw [history, BlockStorage.content_nil]
          exact Nat.le_add_left _ _⟩
      | succ n ih =>
        intro hn
        obtain ⟨hfits, hle⟩ := ih (by omega)
        have hpayload := hv _ (payload_mem (Nat.le_add_left 1 n) hn)
        have hplaced := hfits.placed (Nat.le_add_left 1 n) (Nat.le_refl _) hpayload
        have hrecord := length_record_lt hw checksum hplaced
        have hlt : (BlockStorage.content checksum
            (history (Backend.block K hw checksum).log H (payload vs) (n + 1))).length ≤
              (n + 1) * 2 ^ 32 + 4 := by
          rw [history_succ, BlockStorage.content_concat, List.length_append]
          omega
        refine ⟨⟨?_, fun k h1 h2 => hv _ (payload_mem h1 (h2.trans hn))⟩, hlt⟩
        refine hlt.trans ?_
        have hmax : MemoryDevice.MAX_CAPACITY = 2 ^ 63 - 1 := rfl
        omega
    exact (key _ (Nat.le_refl _)).1

/-- So a slate can hold them. -/
theorem exists_reaches_of_length_lt (B : Backend w) (H : HashFn w) (L : ℕ) (vs : List Bytes)
    (hlen : vs.length < 2 ^ 30) (hv : ∀ v ∈ vs, v.length ≤ MAX_PAYLOAD_SIZE) :
    ∃ s, Reaches B H L vs s := exists_reaches L (holds_of_length_lt B hlen hv)

/-- A hash function that adds up bytes, to try things out. -/
def byteSum : HashFn 1 := fun b bytes => ⟨[bytes.foldl (· + ·) b], rfl⟩

/-- A hash of one byte is short enough. -/
theorem one_le_64 : 1 ≤ 64 := by decide

/-- A block storage in memory for hashes of one byte, with a constant checksum. -/
def tinyBlock : Backend 1 := .blockMemory (by decide) fun _ => 7

end StratifiedHashTree
