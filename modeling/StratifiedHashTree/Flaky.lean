import StratifiedHashTree.Erasure
import StratifiedHashTree.Isolation

/-!
# Devices that come short or fail

A read may give fewer bytes than it was asked for, and it may fail; so may a seek, and so may
opening a reader. `StratifiedHashTree.BlockDevice.Flaky` is all that is known of such a device: if a
call answers, it tells the truth. What it gives is not made up, and there is something of it as long
as there is something left.

The loops around single reads gather the pieces (`StratifiedHashTree.readExactFrom_pieces`), and the
reader of records counts and hashes them one by one as it would have all at once. So every answer of
a query over such a device is the one that it should be, or the fault of a call, whatever happened
before (`StratifiedHashTree.faults_reported`): there is no wrong answer, and nothing to be repaired
when the device is well again.
-/

namespace StratifiedHashTree

open Outcome
open Prog (Agree AgreeAt Yields)

variable {w : ℕ}

/-! ### Reading in pieces -/

section Pieces

variable {σ : Type} {P : Failure Error → Prop} {A : ℕ → σ → Prop} {read : ℕ → Run σ Bytes}
  {buffer : Bytes} {limit : ℕ}

/-- As many bytes as are asked for. -/
theorem length_take_drop {k p : ℕ} (h : p + k ≤ buffer.length) :
    ((buffer.drop p).take k).length = k := by
  rw [List.length_take, List.length_drop]
  omega

/-- **The loop gathers the pieces.** The induction is on the steps that are left; each of them reads
something. -/
theorem readExactFrom_pieces (hlimit : limit ≤ buffer.length)
    (hread : ∀ {p k : ℕ} {s : σ}, A p s → 1 ≤ k → p + k ≤ limit → ∃ count, 1 ≤ count ∧ count ≤ k ∧
      Yields P (A (p + count)) ((buffer.drop p).take count) (read k) s) :
    ∀ (fuel : ℕ) {k p : ℕ} {s : σ}, A p s → k ≤ fuel → p + k ≤ limit →
      Yields P (A (p + k)) ((buffer.drop p).take k) (readExactFrom read fuel k) s
  | fuel, 0, p, s, hs, _, _ => by
    rw [readExactFrom, List.take_zero]
    exact .of_eq rfl hs
  | 0, k + 1, _, _, _, hk, _ => absurd hk (Nat.not_succ_le_zero k)
  | fuel + 1, k + 1, p, s, hs, hk, hp => by
    obtain ⟨count, h1, h2, h3⟩ := hread hs (Nat.le_add_left 1 k) hp
    have hlen : ((buffer.drop p).take count).length = count := length_take_drop (by omega)
    rw [readExactFrom]
    refine h3.bind fun s1 hs1 => ?_
    rw [if_neg (by omega), hlen]
    -- the rest is read from behind the piece
    have hrest := readExactFrom_pieces hlimit hread fuel (k := k + 1 - count) hs1 (by omega)
      (by omega)
    refine hrest.bind fun s2 hs2 => .of_eq (congrArg₂ Prod.mk (congrArg Except.ok ?_) rfl) ?_
    · rw [← List.drop_drop, ← List.take_add, Nat.add_sub_cancel' h2]
    · rwa [Nat.add_assoc, Nat.add_sub_cancel' h2] at hs2

end Pieces

/-! ### Flaky devices -/

/-- **A device that tells the truth or reports a fault.** Its states have a content and a cursor. A
read within the content gives some of the bytes at the cursor, one at least; everything else that is
asked of a reader is done as it should be. Any call may end with a fault instead. -/
structure BlockDevice.Flaky (D : BlockDevice) (P : Failure Error → Prop) where
  At : Bytes → ℕ → D.State → Prop
  read : ∀ {buffer : Bytes} {p k : ℕ} {s : D.State}, At buffer p s → 1 ≤ k →
    p + k ≤ buffer.length → ∃ count, 1 ≤ count ∧ count ≤ k ∧
      Yields P (At buffer (p + count)) ((buffer.drop p).take count) (D.read k) s
  seek_start : ∀ {buffer : Bytes} {p : ℕ} {s : D.State} (q : ℕ), At buffer p s →
    Yields P (At buffer q) q (D.seek (.start q)) s
  seek_end : ∀ {buffer : Bytes} {p : ℕ} {s : D.State}, At buffer p s → buffer.length < 2 ^ 63 →
    Yields P (At buffer buffer.length) buffer.length (D.seek (.fromEnd 0)) s
  position : ∀ {buffer : Bytes} {p : ℕ} {s : D.State}, At buffer p s → p < 2 ^ 63 →
    Yields P (At buffer p) p D.streamPosition s
  clone : ∀ {buffer : Bytes} {p : ℕ} {s : D.State}, At buffer p s →
    (∃ q, At buffer q (D.cloneDevice s).2) ∧ ((∃ e, P e ∧ (D.cloneDevice s).1 = .error e) ∨
      ∃ q s', (D.cloneDevice s).1 = .ok s' ∧ At buffer q s')

namespace BlockDevice.Flaky

variable {D : BlockDevice} {P : Failure Error → Prop} (F : D.Flaky P)

/-- What nothing is promised of: to read past the end, and to read more than can be counted. -/
def Beyond : Failure Error → Prop := fun e => e = .outOfFuel ∨ e = .panic .overflow

/-- The device in memory with the same content and the same cursor. -/
def Shows (s : D.State) (t : MemoryDevice) : Prop := F.At t.buffer t.position s

theorem agree_stored (k : ℕ) : Agree F.Shows P Beyond (readExact D.read k)
    (readExact MemoryDevice.sealedDevice.read k) := by
  rintro s ⟨ro, buffer, p⟩ hst
  cases k with
  | zero => exact .of_eq rfl rfl hst
  | succ k =>
    by_cases hle : p + (k + 1) ≤ buffer.length
    · have hlen : ((buffer.drop p).take (k + 1)).length = k + 1 := length_take_drop hle
      have hsealed := MemoryDevice.sealedDisk.readExact_eq ro
        (List.take_append_drop (k + 1) (buffer.drop p)).symm
      rw [hlen] at hsealed
      rcases readExactFrom_pieces hle (A := F.At buffer)
        (fun hs h1 h2 => F.read hs h1 (h2.trans hle)) (k + 1) hst (Nat.le_refl _)
        (Nat.le_refl _) with
        ⟨e, s', he, h⟩ | ⟨s', h, hs'⟩
      · exact Or.inl ⟨e, he, congrArg Prod.fst h⟩
      · exact .of_eq h hsealed hs'
    · have hend : MemoryDevice.sealedRead (k + 1) ⟨ro, buffer, p⟩ =
          (.error .outOfFuel, ⟨ro, buffer, p⟩) := by
        rw [MemoryDevice.sealedRead, if_pos ⟨Nat.succ_pos k, Nat.lt_of_not_le hle⟩]
      exact Or.inr (Or.inl ⟨_, Or.inl rfl, congrArg Prod.fst (Prog.bind_error hend)⟩)

/-- A reader of records that has come to a position from an earlier one, with what was counted and
hashed there. -/
structure Reading (buffer : Bytes) (start : ℕ) (t : ChecksumRead MemoryDevice.sealedDevice) (p : ℕ)
    (s : ChecksumRead D) : Prop where
  at_ : F.At buffer p s.input
  le : start ≤ p
  hasher_eq : s.hasher = t.hasher ++ (buffer.drop start).take (p - start)
  offset_eq : s.offset = t.offset + (p - start)

/-- **A piece is counted and hashed** like the ones before. -/
theorem Reading.read {buffer : Bytes} {start : ℕ} {t : ChecksumRead MemoryDevice.sealedDevice}
    {p k : ℕ} {s : ChecksumRead D} (h : F.Reading buffer start t p s) (hk : 1 ≤ k)
    (hp : p + k ≤ buffer.length) (hoffset : t.offset + (p + k - start) < 2 ^ 32) :
    ∃ count, 1 ≤ count ∧ count ≤ k ∧ Yields P (F.Reading buffer start t (p + count))
      ((buffer.drop p).take count) (ChecksumRead.read D k) s := by
  obtain ⟨count, h1, h2, h3⟩ := F.read h.at_ hk hp
  have hstart := h.le
  have hlen : ((buffer.drop p).take count).length = count := length_take_drop (by omega)
  refine ⟨count, h1, h2, ?_⟩
  rcases h3 with ⟨e, s', he, h3⟩ | ⟨s', h3, hs'⟩
  · have hinput : ChecksumRead.onInput (D.read k) s = (.error e, { s with input := s' }) := by
      rw [ChecksumRead.onInput, h3]
    exact .of_fault (Prog.bind_error hinput) he
  · have hinput : ChecksumRead.onInput (D.read k) s =
        (.ok ((buffer.drop p).take count), { s with input := s' }) := by
      rw [ChecksumRead.onInput, h3]
    refine Yields.of_eq (t := { input := s'
                                hasher := s.hasher ++ (buffer.drop p).take count
                                offset := s.offset + count }) ?_ ⟨hs', by omega, ?_, ?_⟩
    · rw [ChecksumRead.read, Prog.bind_ok hinput, Prog.bind_ok (Prog.get_run _)]
      simp only [Prog.liftM_eq, hlen, h.offset_eq]
      rw [Nat.mod_eq_of_lt (by omega), addBits_of_lt (by omega), Prog.lift_ok_bind]
      rfl
    · rw [h.hasher_eq, List.append_assoc, show p + count - start = (p - start) + count by omega,
        List.take_add, List.drop_drop, Nat.add_sub_cancel' hstart]
    · have hoffset' := h.offset_eq
      change s.offset + count = t.offset + (p + count - start)
      omega

/-- Where something is promised, there are as many bytes, and they can be counted. -/
theorem sealed_cases (ro : Bool) (buffer : Bytes) (p : ℕ) (hasher : Bytes) (offset : ℕ) {k : ℕ}
    (hk : k + 1 ≤ MAX_PAYLOAD_SIZE) :
    (∃ e, Beyond e ∧ (readExact (ChecksumRead.read MemoryDevice.sealedDevice) (k + 1)
      ⟨⟨ro, buffer, p⟩, hasher, offset⟩).1 = .error e) ∨
    p + (k + 1) ≤ buffer.length ∧ offset + (k + 1) < 2 ^ 32 := by
  have hmax : MAX_PAYLOAD_SIZE = 2 ^ 31 - 1 := rfl
  by_cases hle : p + (k + 1) ≤ buffer.length
  · by_cases hlt : offset + (k + 1) < 2 ^ 32
    · exact Or.inr ⟨hle, hlt⟩
    · have hlen : ((buffer.drop p).take (k + 1)).length = k + 1 := length_take_drop hle
      have hinput : ChecksumRead.onInput (D := MemoryDevice.sealedDevice)
          (MemoryDevice.sealedDevice.read (k + 1)) ⟨⟨ro, buffer, p⟩, hasher, offset⟩ =
            (.ok ((buffer.drop p).take (k + 1)), ⟨⟨ro, buffer, p + (k + 1)⟩, hasher, offset⟩) := by
        have h1 := MemoryDevice.sealedDisk.read_eq ro
          (List.take_append_drop (k + 1) (buffer.drop p)).symm
        rw [hlen] at h1
        exact congrArg (fun r => (r.1, (⟨r.2, hasher, offset⟩ : ChecksumRead _))) h1
      have hread : ChecksumRead.read MemoryDevice.sealedDevice (k + 1)
          ⟨⟨ro, buffer, p⟩, hasher, offset⟩ =
            (.error (.panic .overflow), ⟨⟨ro, buffer, p + (k + 1)⟩, hasher, offset⟩) := by
        rw [ChecksumRead.read, Prog.bind_ok hinput, Prog.bind_ok (Prog.get_run _)]
        simp only [Prog.liftM_eq, hlen]
        rw [Nat.mod_eq_of_lt (by omega), addBits, if_neg hlt]
        rfl
      exact Or.inl ⟨_, Or.inr rfl, congrArg Prod.fst (Prog.bind_error hread)⟩
  · have hinput : ChecksumRead.onInput (D := MemoryDevice.sealedDevice)
        (MemoryDevice.sealedDevice.read (k + 1)) ⟨⟨ro, buffer, p⟩, hasher, offset⟩ =
          (.error .outOfFuel, ⟨⟨ro, buffer, p⟩, hasher, offset⟩) := by
      have h1 : MemoryDevice.sealedDevice.read (k + 1) ⟨ro, buffer, p⟩ =
          (.error .outOfFuel, ⟨ro, buffer, p⟩) :=
        if_pos ⟨Nat.succ_pos k, Nat.lt_of_not_le hle⟩
      exact congrArg (fun r => (r.1, (⟨r.2, hasher, offset⟩ : ChecksumRead _))) h1
    have hread : ChecksumRead.read MemoryDevice.sealedDevice (k + 1)
        ⟨⟨ro, buffer, p⟩, hasher, offset⟩ =
          (.error .outOfFuel, ⟨⟨ro, buffer, p⟩, hasher, offset⟩) := Prog.bind_error hinput
    exact Or.inl ⟨_, Or.inl rfl, congrArg Prod.fst (Prog.bind_error hread)⟩

/-- **The reader of records gathers the pieces**, too. -/
theorem agree_checked {k : ℕ} (hk : k ≤ MAX_PAYLOAD_SIZE) :
    Agree (ReadingAlike F.Shows) P Beyond (readExact (ChecksumRead.read D) k)
      (readExact (ChecksumRead.read MemoryDevice.sealedDevice) k) := by
  rintro s ⟨⟨ro, buffer, p⟩, hasher, offset⟩ ⟨hst, hhasher, hoffset⟩
  cases k with
  | zero => exact .of_eq rfl rfl ⟨hst, hhasher, hoffset⟩
  | succ k =>
    rcases sealed_cases ro buffer p hasher offset hk with h | ⟨hle, hlt⟩
    · exact Or.inr (Or.inl h)
    · have hlen : ((buffer.drop p).take (k + 1)).length = k + 1 := length_take_drop hle
      have hsealed := Consumes.read (K := MemoryDevice.sealedDisk) hlen ro buffer p _ hasher offset
        (List.take_append_drop (k + 1) (buffer.drop p)).symm (by rwa [hlen])
      rw [hlen] at hsealed
      have hstart : F.Reading buffer p ⟨⟨ro, buffer, p⟩, hasher, offset⟩ p s :=
        ⟨hst, Nat.le_refl p, by rw [Nat.sub_self, List.take_zero, List.append_nil, hhasher],
          by rw [Nat.sub_self, Nat.add_zero, hoffset]⟩
      rcases readExactFrom_pieces hle
        (fun hs h1 h2 => Reading.read F hs h1 (h2.trans hle) (by simp only; omega)) (k + 1) hstart
        (Nat.le_refl _) (Nat.le_refl _) with ⟨e, s', he, h⟩ | ⟨s', h, hs'⟩
      · exact Or.inl ⟨e, he, congrArg Prod.fst h⟩
      · have hhasher' := hs'.hasher_eq
        have hoffset' := hs'.offset_eq
        rw [Nat.add_sub_cancel_left] at hhasher' hoffset'
        exact .of_eq h hsealed ⟨hs'.at_, hhasher', hoffset'⟩

/-! ### Reading entries -/

section Entries

variable {hw : w ≤ 64} {checksum : Checksum} {H : HashFn w} {n : ℕ} {v : ℕ → Bytes}

/-- The content of a block storage with the first payloads. -/
abbrev stored (hw : w ≤ 64) (checksum : Checksum) (H : HashFn w) (v : ℕ → Bytes) (n : ℕ) : Bytes :=
  BlockStorage.content checksum (history (memoryLog hw checksum) H v n)

/-- **An entry is read**, or a fault is reported. -/
theorem readData_yields (hfits : Fits (memoryLog hw checksum) H v n) {k : ℕ} (h1 : 1 ≤ k)
    (h2 : k ≤ n) {s : D.State}
    (hs : F.At (stored hw checksum H v n) (positionOf (memoryLog hw checksum) H v k) s) :
    Yields P (F.At (stored hw checksum H v n) (positionOf (memoryLog hw checksum) H v (k + 1)))
      (entryOf (memoryLog hw checksum) H v k)
      (readData D checksum (positionOf (memoryLog hw checksum) H v k)) s := by
  have hplaced := hfits.placed h1 (h2.trans (Nat.le_succ _)) (hfits.payload_le k h1 h2)
  obtain ⟨post, hdrop⟩ := drop_block_content (H := H) (v := v) MemoryDevice.disk hw checksum h1 h2
  have hshows : F.Shows s (MemoryDevice.sealedDisk.state true (stored hw checksum H v n)
      (positionOf (memoryLog hw checksum) H v k)) := hs
  have hread := @readData_of_agree w D MemoryDevice.sealedDevice F.Shows P Beyond
    MemoryDevice.sealedDisk hw (fun k hk => F.agree_checked hk) (F.agree_stored 8) checksum _ _
    hplaced true _ _ _ hdrop _ hshows
  rw [memoryLog, Backend.blockMemory, positionOf_block_succ H v MemoryDevice.disk hw checksum h1]
  exact hread

theorem stored_lt (hfits : Fits (memoryLog hw checksum) H v n) :
    (stored hw checksum H v n).length < 2 ^ 63 := BlockStorage.Room.lt hfits.room

/-- **The loop of a scan** passes the entries on, or a fault is reported. -/
theorem scanFrom_yields {κ : Type} (callback : ScanFn (Entry w) κ)
    (hfits : Fits (memoryLog hw checksum) H v n) : ∀ (count k : ℕ) (a : κ) {s : D.State}, 1 ≤ k →
    k + count ≤ n + 1 →
    F.At (stored hw checksum H v n) (positionOf (memoryLog hw checksum) H v k) s →
    (∃ e t, P e ∧ BlockStorage.scanFrom D checksum callback (stored hw checksum H v n).length count
      (positionOf (memoryLog hw checksum) H v k) (a, s) = (.error e, t)) ∨
    ∃ s', BlockStorage.scanFrom D checksum callback (stored hw checksum H v n).length count
        (positionOf (memoryLog hw checksum) H v k) (a, s) =
      ((scanList callback (entriesFrom H v (positionOf (memoryLog hw checksum) H v) k count) a).1,
        ((scanList callback
          (entriesFrom H v (positionOf (memoryLog hw checksum) H v) k count) a).2, s'))
  | 0, k, a, s, _, _, _ => Or.inr ⟨s, rfl⟩
  | count + 1, k, a, s, h1, h2, hs => by
    have hlt : positionOf (memoryLog hw checksum) H v k < (stored hw checksum H v n).length :=
      positionOf_block_lt MemoryDevice.disk hw checksum h1 (show k < n + 1 by omega)
    have hle : positionOf (memoryLog hw checksum) H v (k + 1) ≤ (stored hw checksum H v n).length :=
      positionOf_mono (show k + 1 ≤ n + 1 by omega)
    rw [entriesFrom, List.range'_succ, List.map_cons]
    rcases F.readData_yields hfits h1 (by omega) hs with ⟨e, s1, he, hread⟩ | ⟨s1, hread, hs1⟩
    · refine Or.inl ⟨e, (a, s1), he, ?_⟩
      rw [BlockStorage.scanFrom, if_pos hlt]
      exact Prog.bind_error (Prog.onSnd_run hread a)
    · rcases hcb : callback (entryOf (memoryLog hw checksum) H v k) a with ⟨e | ⟨⟩, b⟩
      · refine Or.inr ⟨s1, ?_⟩
        rw [BlockStorage.scanFrom_err hlt hread hcb, scanList, hcb]
      · rcases F.position hs1 (hle.trans_lt (stored_lt hfits)) with
          ⟨e, s2, he, hposition⟩ | ⟨s2, hposition, hs2⟩
        · refine Or.inl ⟨e, (b, s2), he, ?_⟩
          rw [BlockStorage.scanFrom, if_pos hlt, Prog.bind_ok (Prog.onSnd_run hread a),
            Prog.bind_ok (Prog.get_run _)]
          simp only [hcb]
          rw [Prog.bind_ok (Prog.set_run _ _)]
          exact Prog.bind_error (Prog.onSnd_run hposition b)
        · rw [BlockStorage.scanFrom_ok hlt hread hcb hposition]
          rcases scanFrom_yields callback hfits count (k + 1) b (by omega) (by omega) hs2 with
            ⟨e, t, he, hscan⟩ | ⟨s3, hscan⟩
          · exact Or.inl ⟨e, t, he, by rw [hscan]; rfl⟩
          · refine Or.inr ⟨s3, ?_⟩
            rw [hscan, scanList, hcb]
            rfl

/-- Opening a reader. -/
theorem reader_yields {buffer : Bytes} {p : ℕ} {st : BlockStorage D}
    (hst : F.At buffer p st.device) :
    ∃ o st', BlockStorage.reader D st = (o, st') ∧ (∃ q, F.At buffer q st'.device) ∧
      ((∃ e, P e ∧ o = .error e) ∨ ∃ q s, o = .ok s ∧ F.At buffer q s) := by
  obtain ⟨hkept, hclone⟩ := F.clone hst
  exact ⟨_, _, rfl, hkept, hclone⟩

/-- An entry is read on a reader of its own. -/
theorem read_falters (hfits : Fits (memoryLog hw checksum) H v n) {p k : ℕ} {st : BlockStorage D}
    (hst : F.At (stored hw checksum H v n) p st.device) (h1 : 1 ≤ k) (h2 : k ≤ n) :
    (∃ e st', P e ∧ BlockStorage.read (w := w) D checksum
      (positionOf (memoryLog hw checksum) H v k) st = (.error e, st') ∧
        ∃ q, F.At (stored hw checksum H v n) q st'.device) ∨
    ∃ st', BlockStorage.read D checksum (positionOf (memoryLog hw checksum) H v k) st =
      (.ok (entryOf (memoryLog hw checksum) H v k), st') ∧
        ∃ q, F.At (stored hw checksum H v n) q st'.device := by
  obtain ⟨o, st', hreader, hkept, ⟨e, he, rfl⟩ | ⟨q, s, rfl, hs⟩⟩ := F.reader_yields hst
  · exact Or.inl ⟨e, st', he, Prog.bind_error hreader, hkept⟩
  · have hread := (F.seek_start (positionOf (memoryLog hw checksum) H v k) hs).bind
      (f := fun _ => readData D checksum (positionOf (memoryLog hw checksum) H v k))
      fun s1 hs1 => F.readData_yields hfits h1 h2 hs1
    rw [BlockStorage.read, Prog.bind_ok hreader]
    rcases hread with ⟨e, s1, he, hread⟩ | ⟨s1, hread, -⟩
    · exact Or.inl ⟨e, st', he, congrArg (fun r => (r.1, st')) hread, hkept⟩
    · exact Or.inr ⟨st', congrArg (fun r => (r.1, st')) hread, hkept⟩

/-- A scan on a reader. -/
theorem scanReader_yields (hfits : Fits (memoryLog hw checksum) H v n) {q k count : ℕ}
    (h1 : 1 ≤ k) (h2 : 1 ≤ count) (h3 : k + count ≤ n + 1) {s : D.State}
    (hs : F.At (stored hw checksum H v n) q s) {κ : Type} (callback : ScanFn (Entry w) κ) (a : κ) :
    (∃ e t, P e ∧ BlockStorage.scanReader D checksum (positionOf (memoryLog hw checksum) H v k)
      count callback (a, s) = (.error e, t)) ∨
    ∃ s', BlockStorage.scanReader D checksum (positionOf (memoryLog hw checksum) H v k) count
        callback (a, s) =
      ((scanList callback (entriesFrom H v (positionOf (memoryLog hw checksum) H v) k count) a).1,
        ((scanList callback
          (entriesFrom H v (positionOf (memoryLog hw checksum) H v) k count) a).2, s')) := by
  have hlt : positionOf (memoryLog hw checksum) H v k < (stored hw checksum H v n).length :=
    positionOf_block_lt MemoryDevice.disk hw checksum h1 (show k < n + 1 by omega)
  rcases F.seek_end hs (stored_lt hfits) with ⟨e, s1, he, hend⟩ | ⟨s1, hend, hs1⟩
  · exact Or.inl ⟨e, (a, s1), he, Prog.bind_error (Prog.onSnd_run hend a)⟩
  · rcases F.seek_start (positionOf (memoryLog hw checksum) H v k) hs1 with
      ⟨e, s2, he, hstart⟩ | ⟨s2, hstart, hs2⟩
    · refine Or.inl ⟨e, (a, s2), he, ?_⟩
      rw [BlockStorage.scanReader, Prog.bind_ok (Prog.onSnd_run hend a), if_pos hlt]
      exact Prog.bind_error (Prog.onSnd_run hstart a)
    · rw [BlockStorage.scanReader_of_lt hend hlt hstart]
      exact F.scanFrom_yields callback hfits count k a h1 h3 hs2

/-- The reader of a scan is forgotten with it. -/
theorem scan_falters (hfits : Fits (memoryLog hw checksum) H v n) {p k count : ℕ}
    {st : BlockStorage D} (hst : F.At (stored hw checksum H v n) p st.device) (h1 : 1 ≤ k)
    (h2 : 1 ≤ count) (h3 : k + count ≤ n + 1) {κ : Type} (callback : ScanFn (Entry w) κ) (a : κ) :
    (∃ e a' st', P e ∧ BlockStorage.scan D checksum (positionOf (memoryLog hw checksum) H v k) count
      callback (a, st) = (.error e, (a', st')) ∧
        ∃ q, F.At (stored hw checksum H v n) q st'.device) ∨
    ∃ st', BlockStorage.scan D checksum (positionOf (memoryLog hw checksum) H v k) count callback
        (a, st) =
      ((scanList callback (entriesFrom H v (positionOf (memoryLog hw checksum) H v) k count) a).1,
        ((scanList callback
          (entriesFrom H v (positionOf (memoryLog hw checksum) H v) k count) a).2, st')) ∧
        ∃ q, F.At (stored hw checksum H v n) q st'.device := by
  obtain ⟨o, st', hreader, hkept, ⟨e, he, rfl⟩ | ⟨q, s, rfl, hs⟩⟩ := F.reader_yields hst
  · exact Or.inl ⟨e, a, st', he, Prog.bind_error (Prog.onSnd_run hreader a), hkept⟩
  · rw [BlockStorage.scan, Prog.bind_ok (Prog.onSnd_run hreader a), Prog.bind_ok (Prog.get_run _)]
    rcases F.scanReader_yields hfits h1 h2 h3 hs callback a with ⟨e, t, he, hscan⟩ | ⟨s', hscan⟩
    · exact Or.inl ⟨e, t.1, st', he, congrArg (fun r => (r.1, (r.2.1, st'))) hscan, hkept⟩
    · exact Or.inr ⟨st', congrArg (fun r => (r.1, (r.2.1, st'))) hscan, hkept⟩

/-- **A block storage over a flaky device** serves its entries, or reports a fault. -/
theorem falters (hfits : Fits (memoryLog hw checksum) H v n) :
    Falters P (blockStorage D checksum)
      (fun st : BlockStorage D => ∃ p, F.At (stored hw checksum H v n) p st.device) H v
      (positionOf (memoryLog hw checksum) H v) n where
  read := fun ⟨_, hst⟩ _ h1 h2 => F.read_falters hfits hst h1 h2
  scan := fun ⟨_, hst⟩ _ _ h1 h2 h3 _ callback a => F.scan_falters hfits hst h1 h2 h3 callback a

end Entries

end BlockDevice.Flaky

/-! ### A device with fates -/

/-- What becomes of a call. -/
inductive Fate where
  | goes
  /-- A read gives so many bytes and one more at most. -/
  | partly (count : ℕ)
  | fails (e : Error)

/-- The device in memory, and what will become of the next calls: of its own ones, and of those that
open a reader and the ones on it. Behind the ends of the lists all goes well. -/
structure FatedDevice where
  device : MemoryDevice
  fates : List Fate
  clones : List (Option Error × List Fate)

namespace FatedDevice

/-- An error of a device. -/
def noAnswer : Error := .io .other "input/output error"

/-- A call. -/
def inner {α : Type} (x : Run MemoryDevice α) : Run FatedDevice α := fun self =>
  match self.fates with
  | .fails e :: fates => (.error (.err e), { self with fates := fates })
  | fates => ((x self.device).1, { self with device := (x self.device).2, fates := fates.tail })

def read (k : ℕ) : Run FatedDevice Bytes := fun self =>
  match self.fates with
  | .partly count :: _ => inner (MemoryDevice.read (min k (count + 1))) self
  | _ => inner (MemoryDevice.read k) self

/-- Opens a reader. -/
def cloneDevice : Run FatedDevice FatedDevice := fun self =>
  let device : MemoryDevice := { readOnly := true, buffer := self.device.buffer, position := 0 }
  match self.clones with
  | (some e, _) :: clones => (.error (.err e), { self with clones := clones })
  | (none, fates) :: clones => (.ok ⟨device, fates, []⟩, { self with clones := clones })
  | [] => (.ok ⟨device, [], []⟩, self)

/-- A fault: any error, but no panic. -/
def Fault : Failure Error → Prop := fun f => ∃ e, f = .err e

/-- A call gives what the device in memory gives. -/
theorem inner_yields {α : Type} {x : Run MemoryDevice α} {self : FatedDevice} {a : α}
    {d : MemoryDevice} {I : FatedDevice → Prop} (h : x self.device = (.ok a, d))
    (hI : ∀ fates, I { self with device := d, fates := fates }) :
    Yields Fault I a (inner x) self := by
  rcases hfates : self.fates with _ | ⟨fate, fates⟩
  · refine .of_eq (t := { self with device := d, fates := [] }) ?_ (hI [])
    simp only [inner, hfates, h, List.tail_nil]
  · cases fate with
    | fails e =>
      refine .of_fault (e := .err e) (t := { self with fates := fates }) ?_ ⟨e, rfl⟩
      simp only [inner, hfates]
    | goes =>
      refine .of_eq (t := { self with device := d, fates := fates }) ?_ (hI fates)
      simp only [inner, hfates, h, List.tail_cons]
    | partly count =>
      refine .of_eq (t := { self with device := d, fates := fates }) ?_ (hI fates)
      simp only [inner, hfates, h, List.tail_cons]

end FatedDevice

/-- A device with fates. -/
def fatedDevice : BlockDevice where
  State := FatedDevice
  read := FatedDevice.read
  write bytes := FatedDevice.inner (MemoryDevice.write bytes)
  seek pos := FatedDevice.inner (MemoryDevice.seek pos)
  truncate position := FatedDevice.inner (MemoryDevice.truncate position)
  cloneDevice := FatedDevice.cloneDevice

namespace FatedDevice

/-- The content and the cursor. -/
def At (buffer : Bytes) (p : ℕ) (self : FatedDevice) : Prop :=
  ∃ ro, self.device = ⟨ro, buffer, p⟩

theorem seek_yields {buffer : Bytes} {p q : ℕ} {self : FatedDevice} {pos : SeekFrom}
    (hseek : ∀ ro, MemoryDevice.seek pos ⟨ro, buffer, p⟩ = (.ok q, ⟨ro, buffer, q⟩))
    (h : At buffer p self) : Yields Fault (At buffer q) q (inner (MemoryDevice.seek pos)) self := by
  obtain ⟨ro, hdevice⟩ := h
  exact inner_yields (by rw [hdevice]; exact hseek ro) fun _ => ⟨ro, rfl⟩

/-- **Whatever its fates are, it is a flaky device.** -/
def flaky : fatedDevice.Flaky Fault where
  At := At
  read := fun {buffer p k self} ⟨ro, hdevice⟩ hk hp => by
    have hread : ∀ count, 1 ≤ count → count ≤ k → Yields Fault (At buffer (p + count))
        ((buffer.drop p).take count) (inner (MemoryDevice.read count)) self := by
      intro count h1 h2
      have hlen : ((buffer.drop p).take count).length = count := length_take_drop (by omega)
      refine inner_yields (d := ⟨ro, buffer, p + count⟩) ?_ fun _ => ⟨ro, rfl⟩
      rw [hdevice, MemoryDevice.read]
      simp only [hlen]
    obtain ⟨count, h1, h2, hself⟩ : ∃ count, 1 ≤ count ∧ count ≤ k ∧
        read k self = inner (MemoryDevice.read count) self := by
      rcases hfates : self.fates with _ | ⟨_ | count | e, fates⟩
      · exact ⟨k, hk, Nat.le_refl k, by simp only [read, hfates]⟩
      · exact ⟨k, hk, Nat.le_refl k, by simp only [read, hfates]⟩
      · exact ⟨min k (count + 1), by omega, Nat.min_le_left _ _, by simp only [read, hfates]⟩
      · exact ⟨k, hk, Nat.le_refl k, by simp only [read, hfates]⟩
    exact ⟨count, h1, h2, (hread count h1 h2).congr hself⟩
  seek_start q h := seek_yields (fun ro => MemoryDevice.disk.seek_start ro _ _ q) h
  seek_end h hb := seek_yields (fun ro => MemoryDevice.disk.seek_end ro _ hb) h
  position h hp := seek_yields (fun ro => MemoryDevice.disk.streamPosition_eq ro _ hp) h
  clone := by
    rintro buffer p ⟨device, fates, clones⟩ ⟨ro, rfl⟩
    rcases clones with _ | ⟨⟨_ | e, fates'⟩, clones⟩
    · exact ⟨⟨p, ro, rfl⟩, Or.inr ⟨0, _, rfl, true, rfl⟩⟩
    · exact ⟨⟨p, ro, rfl⟩, Or.inr ⟨0, _, rfl, true, rfl⟩⟩
    · exact ⟨⟨p, ro, rfl⟩, Or.inl ⟨_, ⟨e, rfl⟩, rfl⟩⟩

end FatedDevice

/-! ### Queries over flaky devices -/

section Queries

variable {hw : w ≤ 64} {checksum : Checksum} {H : HashFn w} {L fuel p : ℕ} {m : Index}
  {vs : List Bytes} {s s' : SlateOn (.blockMemory hw checksum)} {D : BlockDevice}
  {P : Failure Error → Prop}

/-- **Faults are reported, and nothing else is told.** A query of a slate that goes on over a device
with the same content, which may come short and fail at any call, answers any calls one after the
other: each of them rightly or with the fault, whatever has happened before. -/
theorem faults_reported {q : Query (Backend.blockMemory hw checksum).log.toStorage}
    (h : Reaches (.blockMemory hw checksum) H L vs s) (hq : Opens s m q s') (F : D.Flaky P)
    {st : BlockStorage D} (hst : F.At (BlockStorage.device s.storage).buffer p st.device)
    (calls : List (Call w)) :
    List.Forall₂ (fun given right => given = right ∨ ∃ e, P e ∧ Answer.Fails e given)
      (runAll ((q.onto (blockStorage D checksum)).call fuel) calls st).1
      (runAll (q.call fuel) calls s'.storage).1 := by
  have hs := h.slateOf
  obtain ⟨rfl, hm, hc⟩ := hs.of_opens hq
  have hserves := hs.fits.serves
  rw [← hs.storage_eq] at hserves
  have hbuffer : (BlockStorage.device s'.storage).buffer = contentOf hw checksum H vs := by
    rw [hs.storage_eq]
    rfl
  rw [hbuffer] at hst
  have hcache : Represents H (payload vs)
      (positionOf (Backend.blockMemory hw checksum).log H (payload vs)) L m
      (q.onto (blockStorage D checksum)).cache := hc
  have hstep : ∀ (c : Call w) (st : BlockStorage D)
      (t : (Backend.blockMemory hw checksum).log.State),
      (∃ p, F.At (contentOf hw checksum H vs) p st.device) ∧ t = s'.storage → True →
      (((q.onto (blockStorage D checksum)).call fuel c st).1 = (q.call fuel c t).1 ∨
        ∃ e, P e ∧ Answer.Fails e ((q.onto (blockStorage D checksum)).call fuel c st).1) ∧
      ((∃ p, F.At (contentOf hw checksum H vs) p (BlockStorage.device
        ((q.onto (blockStorage D checksum)).call fuel c st).2)) ∧
          (q.call fuel c t).2 = s'.storage) := by
    rintro c st _ ⟨hst, rfl⟩ -
    have hkept := Query.keeps_call (readsOnly_blockMemory hw checksum) q fuel c s'.storage
    rcases Query.reports_call ((F.falters hs.fits).mono hm) (hserves.mono hm) hcache fuel c
      ⟨hst, rfl⟩ with ⟨e, he, h1, h2⟩ | ⟨h1, h2, -⟩
    · exact ⟨Or.inr ⟨e, he, h1⟩, h2, hkept⟩
    · exact ⟨Or.inl h1, h2, hkept⟩
  have halways : Always (q.call fuel) (fun _ _ => True) calls s'.storage :=
    always_of_forall (fun _ _ => trivial) calls _
  exact (runAll_forall₂ hstep calls st s'.storage ⟨⟨p, hst⟩, rfl⟩ halways).1

/-- Four questions to an old generation, on a device that refuses the first reader, fails in the
middle of the second one, and gives the others a few bytes at a time. -/
theorem faults_reported_three :
    ∃ (s s' : SlateOn tinyBlock) (q : Query tinyBlock.log.toStorage),
      Reaches tinyBlock byteSum 0 [[1], [], [2, 3]] s ∧ Opens s 2 q s' ∧
      List.Forall₂ (fun given right => given = right ∨ ∃ e, FatedDevice.Fault e ∧
          Answer.Fails e given)
        (runAll ((q.onto (blockStorage fatedDevice fun _ => 7)).call 65)
          [.get 1, .get 1, .getSample 2, .readEntry 1]
          ⟨⟨BlockStorage.device s.storage, [], [(some FatedDevice.noAnswer, []),
            (none, [.goes, .partly 0, .fails FatedDevice.noAnswer]),
            (none, [.goes, .partly 3, .partly 0])]⟩, 0⟩).1
        (runAll (q.call 65) [.get 1, .get 1, .getSample 2, .readEntry 1] s'.storage).1 := by
  obtain ⟨s, h⟩ := exists_reaches_of_length_lt tinyBlock byteSum 0 [[1], [], [2, 3]]
    (by decide) (by decide)
  obtain ⟨snapshot, hsnapshot, hview⟩ :=
    h.slateOf.viewAt (show INDEX_SIZE < 65 by decide) (show 1 ≤ 2 by decide) (by decide)
  have hq : Opens s 2 _ s := .historical (by decide) hsnapshot hview.query_eq
  exact ⟨s, s, _, h, hq, faults_reported h hq FatedDevice.flaky ⟨_, rfl⟩ _⟩

end Queries

end StratifiedHashTree
