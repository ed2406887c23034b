import StratifiedHashTree.Files
import StratifiedHashTree.Mirror

/-!
# Reading bytes that may be anything

A device may hold bytes that were never written by a storage. What the storage makes of them
is said here by a reader of *lists of bytes* (`StratifiedHashTree.takeExact`): it takes some
bytes from the front, or fails when there are too few. Reading an entry with it is decoding;
what is decoded depends on the bytes that are consumed only (`StratifiedHashTree.Local`), so
the bytes of a *record* are well defined even when they are not the ones a storage would have
written: `StratifiedHashTree.IsRecord`.

On the device in memory, reading a record succeeds if and only if a record begins at the
cursor, and fails with an error otherwise – it does not panic, whatever the bytes are
(`StratifiedHashTree.readData_cases`).
-/

namespace StratifiedHashTree

open Outcome

variable {w : ℕ} {α β : Type}

/-! ### Readers of lists -/

/-- Takes so many bytes from the front. -/
def takeExact (k : ℕ) : Run Bytes Bytes := fun bytes =>
  if k ≤ bytes.length then (.ok (bytes.take k), bytes.drop k) else (err unexpectedEof, [])

/-- **A program that only sees what it consumes**, and fails for want of bytes only. -/
structure Local (x : Run Bytes α) : Prop where
  consumes : ∀ {bytes rest : Bytes} {a : α}, x bytes = (.ok a, rest) →
    ∃ body, bytes = body ++ rest ∧ ∀ rest', x (body ++ rest') = (.ok a, rest')
  fails : ∀ bytes, (x bytes).1 = err unexpectedEof ∨ ∃ a rest, x bytes = (.ok a, rest)

namespace Local

theorem pure (a : α) : Local (Pure.pure a : Run Bytes α) where
  consumes h := by
    obtain ⟨h1, rfl⟩ := Prod.mk.inj h
    exact ⟨[], rfl, fun rest' => Prod.ext h1 rfl⟩
  fails bytes := Or.inr ⟨a, bytes, rfl⟩

theorem takeExact (k : ℕ) : Local (takeExact k) where
  consumes {bytes rest a} h := by
    rw [StratifiedHashTree.takeExact] at h
    by_cases hk : k ≤ bytes.length
    · rw [if_pos hk] at h
      obtain ⟨h1, rfl⟩ := Prod.mk.inj h
      have hlen : (bytes.take k).length = k := List.length_take_of_le hk
      refine ⟨bytes.take k, (List.take_append_drop k bytes).symm, fun rest' => ?_⟩
      rw [StratifiedHashTree.takeExact,
        if_pos (by rw [List.length_append, hlen]; exact Nat.le_add_right _ _), ← h1,
        List.take_left' hlen, List.drop_left' hlen]
    · rw [if_neg hk] at h
      exact absurd (Prod.mk.inj h).1 (by simp [err])
  fails bytes := by
    rw [StratifiedHashTree.takeExact]
    by_cases hk : k ≤ bytes.length
    · rw [if_pos hk]
      exact Or.inr ⟨_, _, rfl⟩
    · rw [if_neg hk]
      exact Or.inl rfl

/-- **The sequence rule.** -/
theorem bind {x : Run Bytes α} {f : α → Run Bytes β} (hx : Local x) (hf : ∀ a, Local (f a)) :
    Local (x >>= f) where
  consumes {bytes rest b} h := by
    obtain ⟨a, mid, h1, h2⟩ := Prog.bind_eq_ok.mp h
    obtain ⟨body1, rfl, h3⟩ := hx.consumes h1
    obtain ⟨body2, rfl, h4⟩ := (hf a).consumes h2
    refine ⟨body1 ++ body2, (List.append_assoc _ _ _).symm, fun rest' => ?_⟩
    rw [List.append_assoc, Prog.bind_ok (h3 _), h4]
  fails bytes := by
    rcases hx.fails bytes with h1 | ⟨a, rest, h1⟩
    · exact Or.inl (by rw [Prog.bind_error (Prod.ext h1 rfl)]; rfl)
    · rw [Prog.bind_ok h1]
      exact (hf a).fails rest

end Local

theorem local_readInodes (i : Index) (position : Position) : ∀ count rightJ : ℕ,
    Local (readInodes (w := w) takeExact i position count rightJ)
  | 0, _ => .pure []
  | count + 1, rightJ => by
    rw [readInodes]
    exact (Local.takeExact 1).bind fun b => (Local.takeExact 8).bind fun leftPosition =>
      (Local.takeExact 8).bind fun leftI => (Local.takeExact 1).bind fun leftJ =>
        (Local.takeExact w).bind fun hash =>
          (local_readInodes i position count _).bind fun inodes => .pure _

/-- **Decoding an entry.** -/
def decodeEntry (position : Position) : Run Bytes (Entry w) := readEntryFrom takeExact position

theorem local_decodeEntry (position : Position) : Local (decodeEntry (w := w) position) := by
  have hinodes : Local (readInodesFrom (w := w) takeExact position) := by
    rw [readInodesFrom]
    exact (Local.takeExact 8).bind fun i => (Local.takeExact 1).bind fun count =>
      (local_readInodes _ position _ 0).bind fun inodes => .pure _
  rw [decodeEntry, readEntryFrom]
  exact hinodes.bind fun x => (Local.takeExact 4).bind fun size =>
    (Local.takeExact _).bind fun payload => (Local.takeExact w).bind fun hash => .pure _

/-! ### Records -/

/-- What follows the bytes of an entry: their number, and the checksum. -/
def delimiter (checksum : Checksum) (body : Bytes) : Bytes :=
  leBytes 4 body.length ++ leBytes 8 (checksum (body ++ leBytes 4 body.length)).toNat

/-- **The bytes of a record** for an entry that is read from a position: what the entry is
decoded from, followed by the delimiter. -/
def IsRecord (checksum : Checksum) (position : Position) (bytes : Bytes) (e : Entry w) : Prop :=
  ∃ body, decodeEntry position body = (.ok e, []) ∧ bytes = body ++ delimiter checksum body

@[simp] theorem length_delimiter (checksum : Checksum) (body : Bytes) :
    (delimiter checksum body).length = 12 := by
  rw [delimiter, List.length_append, length_leBytes, length_leBytes]

/-- A number is written as the bytes it was read from. -/
theorem leBytes_ofLeBytes : ∀ bytes : Bytes, leBytes bytes.length (ofLeBytes bytes) = bytes
  | [] => rfl
  | b :: bs => by
    have hb : b.toNat < 256 := b.toNat_lt
    rw [List.length_cons, ofLeBytes, leBytes, Nat.add_mul_div_left _ _ (by decide),
      Nat.div_eq_of_lt hb, Nat.zero_add, leBytes_ofLeBytes bs]
    congr 1
    rw [← UInt8.toNat_inj, UInt8.toNat_ofNat']
    omega

theorem ofLeBytes_lt : ∀ bytes : Bytes, ofLeBytes bytes < 256 ^ bytes.length
  | [] => by decide
  | b :: bs => by
    have hb : b.toNat < 256 := b.toNat_lt
    have h := ofLeBytes_lt bs
    rw [ofLeBytes, List.length_cons, pow_succ]
    omega

/-- At most one record begins some bytes. -/
theorem IsRecord.unique {checksum : Checksum} {position : Position}
    {bytes bytes' rest rest' : Bytes}
    {e e' : Entry w} (h : IsRecord checksum position bytes e)
    (h' : IsRecord checksum position bytes' e') (heq : bytes ++ rest = bytes' ++ rest') :
    bytes = bytes' ∧ e = e' := by
  obtain ⟨body, hd, rfl⟩ := h
  obtain ⟨body', hd', rfl⟩ := h'
  obtain ⟨c, hc, hrun⟩ := (local_decodeEntry position).consumes hd
  obtain ⟨c', hc', hrun'⟩ := (local_decodeEntry position).consumes hd'
  rw [List.append_nil] at hc hc'
  subst hc hc'
  have h1 := hrun (delimiter checksum body ++ rest)
  have h2 := hrun' (delimiter checksum body' ++ rest')
  rw [← List.append_assoc] at h1 h2
  rw [heq, h2, Prod.mk.injEq, Except.ok.injEq] at h1
  obtain ⟨rfl, h3⟩ := h1
  have h4 : body = body' := by
    rw [List.append_assoc, List.append_assoc, h3] at heq
    exact List.append_cancel_right heq
  subst h4
  exact ⟨rfl, rfl⟩

/-- The record at a position. -/
def RecordAt (checksum : Checksum) (buffer : Bytes) (position : Position) (e : Entry w) : Prop :=
  ∃ bytes post, buffer.drop position = bytes ++ post ∧ IsRecord checksum position bytes e

theorem RecordAt.unique {checksum : Checksum} {buffer : Bytes} {position : Position}
    {e e' : Entry w} (h : RecordAt checksum buffer position e)
    (h' : RecordAt checksum buffer position e') : e = e' := by
  obtain ⟨bytes, post, h1, h2⟩ := h
  obtain ⟨bytes', post', h3, h4⟩ := h'
  exact (h2.unique h4 (h1.symm.trans h3)).2

/-- There is no record behind the content. -/
theorem RecordAt.lt {checksum : Checksum} {buffer : Bytes} {position : Position} {e : Entry w}
    (h : RecordAt checksum buffer position e) : position < buffer.length := by
  obtain ⟨bytes, post, h1, body, -, rfl⟩ := h
  have h2 := congrArg List.length h1
  rw [List.length_drop, List.length_append, List.length_append, length_delimiter] at h2
  by_contra hcon
  rw [Nat.sub_eq_zero_of_le (Nat.le_of_not_lt hcon)] at h2
  omega

/-! ### Devices that read what there is -/

/-- A read that is answered in part, with nothing left. -/
theorem readExact_short {σ : Type} {read : ℕ → Run σ Bytes} {k : ℕ} {bytes : Bytes} {s s' : σ}
    (h : read (k + 1) s = (.ok bytes, s')) (hlt : bytes.length < k + 1)
    (hend : ∀ m, m + bytes.length ≤ k + 1 → ∃ s'', read m s' = (.ok [], s'')) :
    (readExact read (k + 1) s).1 = err unexpectedEof := by
  rw [readExact, readExactFrom, Prog.bind_ok h]
  by_cases h0 : bytes.length = 0
  · rw [if_pos h0]
    rfl
  · obtain ⟨fuel, rfl⟩ : ∃ m, k = m + 1 := Nat.exists_eq_succ_of_ne_zero (by omega)
    obtain ⟨m, hm⟩ : ∃ m, fuel + 1 + 1 - bytes.length = m + 1 :=
      Nat.exists_eq_succ_of_ne_zero (by omega)
    obtain ⟨s'', h1⟩ := hend (m + 1) (by omega)
    have h2 : (readExactFrom read (fuel + 1) (m + 1) s').1 = err unexpectedEof := by
      rw [readExactFrom, Prog.bind_ok h1]
      rfl
    rw [if_neg h0, hm, Prog.bind_error (Prod.ext h2 rfl)]
    rfl

/-- A device that reads as many bytes as there are. -/
def Disk.ReadsAll {D : BlockDevice} (K : Disk D) : Prop :=
  ∀ (ro : Bool) (buffer : Bytes) (p k : ℕ), D.read k (K.state ro buffer p) =
    (.ok ((buffer.drop p).take k), K.state ro buffer (p + ((buffer.drop p).take k).length))

theorem MemoryDevice.readsAll : MemoryDevice.disk.ReadsAll := fun _ _ _ _ => rfl

theorem FileDevice.readsAll : FileDevice.disk.ReadsAll := fun _ _ _ _ => rfl

section Follows

variable {D : BlockDevice} (K : Disk D)

/-- **A reader on a device** that has started at some position, and what lies before it. -/
structure Tracks (ro : Bool) (buffer : Bytes) (start : ℕ) (s : ChecksumRead D) (t : Bytes) :
    Prop where
  input_eq : s.input = K.state ro buffer (start + s.offset)
  append_eq : s.hasher ++ t = buffer.drop start
  length_eq : s.hasher.length = s.offset

/-- The program on the device does what the one on the list does, and reads so many bytes at
most. -/
def Follows (b : ℕ) (x : Run (ChecksumRead D) α) (y : Run Bytes α) : Prop :=
  ∀ ⦃ro : Bool⦄ ⦃buffer : Bytes⦄ ⦃start : ℕ⦄ ⦃s : ChecksumRead D⦄ ⦃t : Bytes⦄,
    Tracks K ro buffer start s t → s.offset + b < 2 ^ 32 → (x s).1 = (y t).1 ∧
      ∀ a, (y t).1 = .ok a → Tracks K ro buffer start (x s).2 (y t).2 ∧
        (x s).2.offset ≤ s.offset + b

variable {K} {ro : Bool} {buffer t : Bytes} {start : ℕ} {s : ChecksumRead D}

/-- What lies at the cursor. -/
theorem Tracks.drop_eq (h : Tracks K ro buffer start s t) :
    buffer.drop (start + s.offset) = t := by
  rw [← List.drop_drop, ← h.append_eq, ← h.length_eq, List.drop_left]

/-- A single read takes what there is. -/
theorem Tracks.read (hall : K.ReadsAll) (h : Tracks K ro buffer start s t) {k : ℕ}
    (hk : s.offset + k < 2 ^ 32) : ∃ s', ChecksumRead.read D k s = (.ok (t.take k), s') ∧
      Tracks K ro buffer start s' (t.drop k) ∧ s'.offset = s.offset + (t.take k).length := by
  have hlen := List.length_take_le k t
  have hinput : ChecksumRead.onInput (D.read k) s = (.ok (t.take k),
      { s with input := K.state ro buffer (start + s.offset + (t.take k).length) }) := by
    rw [ChecksumRead.onInput, h.input_eq, hall, h.drop_eq]
  refine ⟨{ input := K.state ro buffer (start + s.offset + (t.take k).length)
            hasher := s.hasher ++ t.take k
            offset := s.offset + (t.take k).length }, ?_, ⟨?_, ?_, ?_⟩, rfl⟩
  · rw [ChecksumRead.read, Prog.bind_ok hinput, Prog.bind_ok (Prog.get_run _)]
    simp only [Prog.liftM_eq]
    rw [Nat.mod_eq_of_lt (by omega), addBits_of_lt (by omega), Prog.lift_ok_bind]
    rfl
  · simp only [Nat.add_assoc]
  · rw [List.append_assoc, List.take_append_drop, h.append_eq]
  · rw [List.length_append, h.length_eq]

namespace Follows

theorem pure (b : ℕ) (a : α) :
    Follows K b (Pure.pure a : Run (ChecksumRead D) α) (Pure.pure a) :=
  fun _ _ _ _ _ h _ => ⟨rfl, fun _ _ => ⟨h, Nat.le_add_right _ _⟩⟩

theorem mono {b c : ℕ} {x : Run (ChecksumRead D) α} {y : Run Bytes α} (h : Follows K b x y)
    (hbc : b ≤ c) : Follows K c x y := by
  intro ro buffer start s t hst hc
  obtain ⟨h1, h2⟩ := h hst (by omega)
  refine ⟨h1, fun a ha => ⟨(h2 a ha).1, ?_⟩⟩
  have h3 := (h2 a ha).2
  omega

/-- **The sequence rule.** -/
theorem bind {b c : ℕ} {x : Run (ChecksumRead D) α} {y : Run Bytes α}
    {f : α → Run (ChecksumRead D) β} {g : α → Run Bytes β} (hx : Follows K b x y)
    (hf : ∀ a t, (y t).1 = .ok a → Follows K c (f a) (g a)) :
    Follows K (b + c) (x >>= f) (y >>= g) := by
  intro ro buffer start s t hst hb
  obtain ⟨h1, h2⟩ := hx hst (by omega)
  rcases hx' : x s with ⟨e | a, s'⟩
  · rcases hy' : y t with ⟨e' | a', t'⟩
    · rw [hx', hy'] at h1
      rw [Prog.bind_error hx', Prog.bind_error hy']
      exact ⟨congrArg Except.error (Except.error.inj h1), fun a ha => absurd ha (by simp)⟩
    · rw [hx', hy'] at h1
      exact absurd h1 (by simp)
  · rcases hy' : y t with ⟨e' | a', t'⟩
    · rw [hx', hy'] at h1
      exact absurd h1 (by simp)
    · rw [hx', hy'] at h1
      obtain rfl := Except.ok.inj h1
      obtain ⟨h3, h4⟩ : Tracks K ro buffer start s' t' ∧ s'.offset ≤ s.offset + b := by
        have h := h2 a (by rw [hy'])
        rwa [hx', hy'] at h
      obtain ⟨h5, h6⟩ := hf a t (by rw [hy']) h3 (by omega)
      rw [Prog.bind_ok hx', Prog.bind_ok hy']
      exact ⟨h5, fun d hd => ⟨(h6 d hd).1, (h6 d hd).2.trans (by omega)⟩⟩

/-- **Reading so many bytes.** -/
theorem readExact (hall : K.ReadsAll) (k : ℕ) :
    Follows K k (readExact (ChecksumRead.read D) k) (takeExact k) := by
  intro ro buffer start s t hst hk
  cases k with
  | zero => exact ⟨rfl, fun _ _ => ⟨hst, Nat.le_refl _⟩⟩
  | succ k =>
    obtain ⟨s', h1, h2, h3⟩ := hst.read hall hk
    rw [takeExact]
    by_cases hle : k + 1 ≤ t.length
    · have hlen : (t.take (k + 1)).length = k + 1 := List.length_take_of_le hle
      have hne : t.take (k + 1) ≠ [] := List.ne_nil_of_length_pos (by omega)
      have h4 := readExact_of_read hne (by rw [hlen]; exact h1)
      rw [hlen] at h4
      rw [if_pos hle, h4]
      exact ⟨rfl, fun _ _ => ⟨h2, by rw [h3, hlen]⟩⟩
    · rw [if_neg hle]
      refine ⟨?_, fun a ha => absurd ha (by simp [err])⟩
      rw [List.take_of_length_le (by omega)] at h1 h3
      rw [List.drop_of_length_le (by omega)] at h2
      refine readExact_short h1 (by omega) fun m hm => ?_
      obtain ⟨s'', h4, -⟩ := h2.read hall (k := m) (by omega)
      rw [List.take_nil] at h4
      exact ⟨s'', h4⟩

end Follows

theorem length_of_takeExact {k : ℕ} {t bytes : Bytes} (h : (takeExact k t).1 = .ok bytes) :
    bytes.length = k := by
  rw [takeExact] at h
  by_cases hk : k ≤ t.length
  · rw [if_pos hk] at h
    rw [← Except.ok.inj h]
    exact List.length_take_of_le hk
  · rw [if_neg hk] at h
    exact absurd h (by simp [err])

theorem follows_readInodes (hall : K.ReadsAll) (i : Index) (position : Position) :
    ∀ count rightJ : ℕ, Follows K (count * (18 + w))
      (readInodes (w := w) (readExact (ChecksumRead.read D)) i position count rightJ)
      (readInodes takeExact i position count rightJ)
  | 0, _ => Follows.pure _ []
  | count + 1, rightJ => by
    rw [readInodes, readInodes]
    refine Follows.mono ((Follows.readExact hall 1).bind fun b _ _ =>
      (Follows.readExact hall 8).bind fun leftPosition _ _ => (Follows.readExact hall 8).bind
        fun leftI _ _ => (Follows.readExact hall 1).bind fun leftJ _ _ =>
          (Follows.readExact hall w).bind fun hash _ _ =>
            (follows_readInodes hall i position count _).bind fun inodes _ _ => .pure 0 _) ?_
    rw [Nat.succ_mul]
    omega

/-- The largest entry there can be. -/
def maxEntryLength (w : ℕ) : ℕ := 9 + 255 * (18 + w) + (4 + MAX_PAYLOAD_SIZE + w)

theorem maxEntryLength_lt (hw : w ≤ 64) : maxEntryLength w + 12 < 2 ^ 32 := by
  have h : 255 * (18 + w) ≤ 255 * (18 + 64) := Nat.mul_le_mul_left _ (Nat.add_le_add_left hw 18)
  have h4 : MAX_PAYLOAD_SIZE = 2 ^ 31 - 1 := rfl
  rw [maxEntryLength]
  omega

/-- **Reading an entry on the device** decodes the bytes at the cursor. -/
theorem follows_readEntryFrom (hall : K.ReadsAll) (position : Position) :
    Follows K (maxEntryLength w) (readEntryFrom (w := w) (readExact (ChecksumRead.read D)) position)
      (decodeEntry position) := by
  have hinodes : Follows K (9 + 255 * (18 + w))
      (readInodesFrom (w := w) (readExact (ChecksumRead.read D)) position)
      (readInodesFrom takeExact position) := by
    rw [readInodesFrom, readInodesFrom]
    refine Follows.mono ((Follows.readExact hall 8).bind fun i _ _ =>
      (Follows.readExact hall 1).bind fun count _ hcount =>
        Follows.mono ((follows_readInodes hall _ position _ 0).bind fun inodes _ _ => .pure 0 _)
          (c := 255 * (18 + w)) ?_) ?_
    · -- the count is one byte
      have h1 := ofLeBytes_lt count
      rw [length_of_takeExact hcount, pow_one] at h1
      exact Nat.mul_le_mul_right _ (by omega)
    · omega
  rw [decodeEntry, readEntryFrom, readEntryFrom]
  refine Follows.mono (hinodes.bind fun x _ _ => (Follows.readExact hall 4).bind fun size _ _ =>
    (Follows.mono (Follows.readExact hall _) Nat.and_le_right).bind fun payload _ _ =>
      (Follows.readExact hall w).bind fun hash _ _ => .pure 0 _) ?_
  rw [maxEntryLength]
  omega

/-! ### The delimiter -/

/-- The bytes that are there can be read, and no others. -/
theorem Disk.readExact_cases (hall : K.ReadsAll) (ro : Bool) (buffer : Bytes) (p k : ℕ) :
    (k ≤ (buffer.drop p).length ∧ readExact D.read k (K.state ro buffer p) =
        (.ok ((buffer.drop p).take k), K.state ro buffer (p + k))) ∨
      ((buffer.drop p).length < k ∧
        (readExact D.read k (K.state ro buffer p)).1 = err unexpectedEof) := by
  rcases Nat.lt_or_ge (buffer.drop p).length k with hlt | hle
  · obtain ⟨k, rfl⟩ : ∃ m, k = m + 1 := Nat.exists_eq_succ_of_ne_zero (by omega)
    have h1 := hall ro buffer p (k + 1)
    rw [List.take_of_length_le (by omega)] at h1
    refine Or.inr ⟨hlt, readExact_short h1 hlt fun m _ => ?_⟩
    have h2 := hall ro buffer (p + (buffer.drop p).length) m
    rw [← List.drop_drop, List.drop_length, List.take_nil] at h2
    exact ⟨_, h2⟩
  · have h1 := K.readExact_eq ro (List.take_append_drop k (buffer.drop p)).symm
    rw [List.length_take_of_le hle] at h1
    exact Or.inl ⟨hle, h1⟩

/-- The entry is read once more without a failure. -/
theorem dumpEntry_ok (hbuffer : buffer.length < 2 ^ 63) {p : ℕ} (hp : p ≤ buffer.length)
    (hs : s.input = K.state ro buffer p) {k : ℕ} (hk : k ≤ p) :
    (ChecksumRead.dumpEntry k s).1 = .ok () := by
  have hinput : ∀ {α : Type} {x : Run D.State α} {a : α} {q : ℕ} {s : ChecksumRead D},
      x s.input = (.ok a, K.state ro buffer q) →
        ChecksumRead.unwrapped (ChecksumRead.onInput x) s =
          (.ok a, { s with input := K.state ro buffer q }) := by
    intro α x a q s h
    rw [ChecksumRead.unwrapped, ChecksumRead.onInput, h]
  have hlt : p < 2 ^ 63 := by omega
  have hseek : toU64 (max 0 (toI64 p - k)) = p - k := by
    rw [toI64_of_lt hlt, show max 0 ((p : ℤ) - k) = ((p - k : ℕ) : ℤ) by omega,
      toU64_natCast (by omega)]
  have h1 : D.streamPosition s.input = (.ok p, K.state ro buffer p) := by
    rw [hs]
    exact K.streamPosition_eq ro buffer hlt
  have hlen : (buffer.drop (p - k)).length = buffer.length - (p - k) := List.length_drop
  have h3 := K.readExact_eq ro (List.take_append_drop k (buffer.drop (p - k))).symm
  rw [List.length_take_of_le (by omega)] at h3
  rw [ChecksumRead.dumpEntry, Prog.bind_ok (hinput h1)]
  simp only [hseek]
  rw [Prog.bind_ok (hinput (K.seek_start ro buffer p _)), Prog.bind_ok (hinput h3)]
  rfl

/-- What is read of a delimiter. -/
theorem readDelimiter_cases (hall : K.ReadsAll) (checksum : Checksum)
    (h : Tracks K ro buffer start s t) (hlt : s.offset + 12 < 2 ^ 32) :
    (12 ≤ t.length ∧ ∃ s', ChecksumRead.readDelimiter checksum s =
        (.ok (12, (ofLeBytes (t.take 4), UInt64.ofNat (ofLeBytes ((t.drop 4).take 8))),
          (s.offset, checksum (s.hasher ++ t.take 4))), s') ∧
        s'.input = K.state ro buffer (start + s.offset + 12)) ∨
      (t.length < 12 ∧ (ChecksumRead.readDelimiter checksum s).1 = err unexpectedEof) := by
  obtain ⟨h1, h2⟩ := Follows.readExact hall 4 h (by omega)
  rw [ChecksumRead.readDelimiter, Prog.bind_ok (Prog.get_run _)]
  by_cases h4 : 4 ≤ t.length
  · rw [takeExact, if_pos h4] at h1 h2
    obtain ⟨h3, h5⟩ := h2 _ rfl
    rcases hread : StratifiedHashTree.readExact (ChecksumRead.read D) 4 s with ⟨o, s1⟩
    rw [hread] at h1 h3 h5
    simp only at h1 h3 h5
    subst h1
    have hlen : (t.take 4).length = 4 := List.length_take_of_le h4
    -- the four bytes are the ones that were hashed last
    have hhasher : s1.hasher = s.hasher ++ t.take 4 := by
      have h6 := h3.append_eq.trans h.append_eq.symm
      rw [← List.take_append_drop 4 t, ← List.append_assoc, List.take_append_drop] at h6
      exact List.append_cancel_right h6
    have hoffset : s1.offset = s.offset + 4 := by
      rw [← h3.length_eq, hhasher, List.length_append, hlen, h.length_eq]
    have hdrop := h3.drop_eq
    rw [Prog.bind_ok hread]
    rcases K.readExact_cases hall ro buffer (start + s1.offset) 8 with ⟨h6, h7⟩ | ⟨h6, h7⟩
    · rw [hdrop, List.length_drop] at h6
      have hstored : ChecksumRead.onInput (StratifiedHashTree.readExact D.read 8) s1 =
          (.ok ((t.drop 4).take 8),
            { s1 with input := K.state ro buffer (start + s1.offset + 8) }) := by
        rw [ChecksumRead.onInput, h3.input_eq, h7, hdrop]
      refine Or.inl ⟨by omega,
        { s1 with input := K.state ro buffer (start + s1.offset + 8) }, ?_, ?_⟩
      · rw [Prog.bind_ok hstored, Prog.bind_ok (Prog.get_run _), hhasher]
        rfl
      · simp only [hoffset, Nat.add_assoc]
    · rw [hdrop, List.length_drop] at h6
      refine Or.inr ⟨by omega, ?_⟩
      have hstored : (ChecksumRead.onInput (StratifiedHashTree.readExact D.read 8) s1).1 =
          err unexpectedEof := by
        rw [ChecksumRead.onInput, h3.input_eq]
        exact h7
      rw [Prog.bind_error (Prod.ext hstored rfl)]
      rfl
  · rw [takeExact, if_neg h4] at h1
    refine Or.inr ⟨by omega, ?_⟩
    rw [Prog.bind_error (Prod.ext h1 rfl)]
    rfl

/-- The right delimiter, byte by byte. -/
theorem eq_delimiter_iff (checksum : Checksum) {body : Bytes} (hbody : body.length < 2 ^ 32)
    (ht : 12 ≤ t.length) : (∃ post, t = delimiter checksum body ++ post) ↔
      body.length = ofLeBytes (t.take 4) ∧
        checksum (body ++ t.take 4) = UInt64.ofNat (ofLeBytes ((t.drop 4).take 8)) := by
  have h4 : (t.take 4).length = 4 := List.length_take_of_le (by omega)
  have h8 : ((t.drop 4).take 8).length = 8 :=
    List.length_take_of_le (by rw [List.length_drop]; omega)
  constructor
  · rintro ⟨post, rfl⟩
    have h1 : (delimiter checksum body ++ post).take 4 = leBytes 4 body.length := by
      rw [delimiter, List.append_assoc, List.take_left' (length_leBytes _ _)]
    have h2 : ((delimiter checksum body ++ post).drop 4).take 8 =
        leBytes 8 (checksum (body ++ leBytes 4 body.length)).toNat := by
      rw [delimiter, List.append_assoc, List.drop_left' (length_leBytes _ _),
        List.take_left' (length_leBytes _ _)]
    rw [h1, h2, ofLeBytes_leBytes (by omega), ofLeBytes_leBytes (UInt64.toNat_lt _),
      UInt64.ofNat_toNat]
    exact ⟨rfl, rfl⟩
  · rintro ⟨h1, h2⟩
    have h3 : leBytes 4 body.length = t.take 4 := by
      have h := leBytes_ofLeBytes (t.take 4)
      rwa [h4, ← h1] at h
    have h5 : leBytes 8 (checksum (body ++ leBytes 4 body.length)).toNat = (t.drop 4).take 8 := by
      have h := leBytes_ofLeBytes ((t.drop 4).take 8)
      have hlt := ofLeBytes_lt ((t.drop 4).take 8)
      rw [h8] at h hlt
      rw [h3, h2, UInt64.toNat_ofNat_of_lt' hlt, h]
    refine ⟨t.drop 12, ?_⟩
    rw [delimiter, h5, h3, List.append_assoc, ← List.drop_drop (i := 8), List.take_append_drop,
      List.take_append_drop]

/-- **The check of a delimiter**: it succeeds when the right one lies at the cursor, and fails
with an error otherwise. -/
theorem checkDelimiter_cases (hall : K.ReadsAll) (checksum : Checksum)
    (hbuffer : buffer.length < 2 ^ 63) (h : Tracks K ro buffer start s t)
    (hlt : s.offset + 12 < 2 ^ 32) :
    (∃ post s', t = delimiter checksum s.hasher ++ post ∧
      ChecksumRead.checkDelimiter checksum s = (.ok 12, s') ∧
        s'.input = K.state ro buffer (start + s.offset + 12)) ∨
    (∃ e, (ChecksumRead.checkDelimiter checksum s).1 = err e ∧
      ∀ post, t ≠ delimiter checksum s.hasher ++ post) := by
  have hlen := h.length_eq
  rw [ChecksumRead.checkDelimiter]
  rcases readDelimiter_cases hall checksum h hlt with ⟨h12, s', hread, hinput⟩ | ⟨h12, hread⟩
  · have hiff := eq_delimiter_iff checksum (show s.hasher.length < 2 ^ 32 by omega) h12
    have hend : start + s.offset + 12 ≤ buffer.length := by
      have h1 := congrArg List.length h.drop_eq
      rw [List.length_drop] at h1
      omega
    rw [Prog.bind_ok hread]
    simp only
    -- the head offset is compared first, then the checksum
    by_cases h1 : s.offset ≠ ofLeBytes (t.take 4)
    · have hdump := dumpEntry_ok hbuffer hend hinput
        (show s.offset ≤ start + s.offset + 12 by omega)
      refine Or.inr ⟨.incorrectEntryHeadOffset (ofLeBytes (t.take 4)) s.offset, ?_,
        fun post hpost => h1 (hlen ▸ (hiff.mp ⟨post, hpost⟩).1)⟩
      rw [if_pos h1, Prog.bind_ok (Prod.ext hdump rfl)]
      rfl
    · rw [ne_eq, not_not] at h1
      rw [if_neg (fun h2 => h2 h1)]
      by_cases h2 : checksum (s.hasher ++ t.take 4) ≠ UInt64.ofNat (ofLeBytes ((t.drop 4).take 8))
      · refine Or.inr ⟨.checksumVerificationFailed start (s.offset + 12)
          (UInt64.ofNat (ofLeBytes ((t.drop 4).take 8))).toNat
          (checksum (s.hasher ++ t.take 4)).toNat, ?_,
          fun post hpost => h2 (hiff.mp ⟨post, hpost⟩).2⟩
        have hposition : ChecksumRead.onInput D.streamPosition s' =
            (.ok (start + s.offset + 12), s') := by
          rw [ChecksumRead.onInput, hinput, K.streamPosition_eq ro buffer (by omega)]
          simp only [← hinput]
        rw [if_pos h2]
        simp only [Prog.liftM_eq]
        rw [← h1, addBits_of_lt hlt, Prog.lift_ok_bind, Prog.bind_ok hposition,
          subBits_of_le (by omega), Prog.lift_ok_bind,
          show start + s.offset + 12 - (s.offset + 12) = start by omega]
        rfl
      · rw [ne_eq, not_not] at h2
        obtain ⟨post, hpost⟩ := hiff.mpr ⟨hlen.trans h1, h2⟩
        refine Or.inl ⟨post, s', hpost, ?_, hinput⟩
        rw [if_neg (fun h3 => h3 h2)]
        rfl
  · -- the delimiter is cut off by the end of the device
    refine Or.inr ⟨unexpectedEof, ?_, fun post hpost => ?_⟩
    · rw [Prog.bind_error (Prod.ext hread rfl)]
      rfl
    · rw [hpost, List.length_append, length_delimiter] at h12
      omega

/-- A record that begins somewhere is decoded there. -/
theorem IsRecord.decodeEntry_eq {position : Position} {e : Entry w} {bytes : Bytes}
    {checksum : Checksum} (h : IsRecord checksum position bytes e) (post : Bytes) :
    ∃ body, bytes = body ++ delimiter checksum body ∧
      decodeEntry position (bytes ++ post) = (.ok e, delimiter checksum body ++ post) := by
  obtain ⟨body, hbody, rfl⟩ := h
  obtain ⟨body', h3, h4⟩ := (local_decodeEntry (w := w) position).consumes hbody
  rw [List.append_nil] at h3
  subst h3
  refine ⟨body, rfl, ?_⟩
  rw [List.append_assoc, h4]

/-- **Reading whatever lies at the cursor**: a record that begins there is read, and nothing
else is. -/
theorem readData_cases (hall : K.ReadsAll) (hw : w ≤ 64) (checksum : Checksum)
    (hbuffer : buffer.length < 2 ^ 63) (position : Position) (ro : Bool) (q : ℕ) :
    (∃ (e : Entry w) (bytes post : Bytes), buffer.drop q = bytes ++ post ∧
      IsRecord checksum position bytes e ∧ readData D checksum position (K.state ro buffer q) =
        (.ok e, K.state ro buffer (q + bytes.length))) ∨
    ((∃ error, (readData (w := w) D checksum position (K.state ro buffer q)).1 = err error) ∧
      ∀ (e : Entry w) (bytes post : Bytes), buffer.drop q = bytes ++ post →
        ¬IsRecord checksum position bytes e) := by
  have hmax := maxEntryLength_lt hw
  have hnew : Tracks K ro buffer q (ChecksumRead.new (K.state ro buffer q)) (buffer.drop q) :=
    ⟨rfl, rfl, rfl⟩
  obtain ⟨h1, h2⟩ := follows_readEntryFrom (w := w) hall position hnew
    (show 0 + maxEntryLength w < 2 ^ 32 by omega)
  have hlocal := local_decodeEntry (w := w) position
  rw [readData]
  rcases hlocal.fails (buffer.drop q) with hfail | ⟨e, rest, hok⟩
  · -- the entry itself ends too early
    refine Or.inr ⟨⟨unexpectedEof, ?_⟩, fun e bytes post heq hrecord => ?_⟩
    · rw [Prog.bind_error (Prod.ext (h1.trans hfail) rfl)]
      rfl
    · obtain ⟨body, -, h3⟩ := hrecord.decodeEntry_eq post
      rw [heq, h3] at hfail
      exact absurd hfail (by simp [err])
  · rw [hok] at h1 h2
    obtain ⟨h3, h4⟩ := h2 e rfl
    rcases hread : readEntryFrom (w := w) (readExact (ChecksumRead.read D)) position
      (ChecksumRead.new (K.state ro buffer q)) with ⟨o, s1⟩
    rw [hread] at h1 h3 h4
    simp only at h1 h3 h4
    subst h1
    obtain ⟨body, hbody, hrun⟩ := hlocal.consumes hok
    have hhasher : s1.hasher = body := by
      have h5 := h3.append_eq
      rw [hbody] at h5
      exact List.append_cancel_right h5
    have hoffset : s1.offset = body.length := by rw [← h3.length_eq, hhasher]
    have h4' : s1.offset ≤ maxEntryLength w := by
      rw [← Nat.zero_add (maxEntryLength w)]
      exact h4
    rw [Prog.bind_ok hread]
    rcases checkDelimiter_cases hall checksum hbuffer h3 (by omega) with
      ⟨post, s2, hpost, hcheck, hinput⟩ | ⟨error, hcheck, hnot⟩
    · refine Or.inl ⟨e, body ++ delimiter checksum body, post, ?_, ⟨body, ?_, rfl⟩, ?_⟩
      · rw [hbody, hpost, hhasher, List.append_assoc]
      · have h5 := hrun []
        rwa [List.append_nil] at h5
      · rw [Prog.bind_ok hcheck, List.length_append, length_delimiter, ← hoffset, ← Nat.add_assoc,
          ← hinput]
        rfl
    · -- an entry is decoded, but the delimiter behind it is not its own
      refine Or.inr ⟨⟨error, ?_⟩, fun e' bytes post heq hrecord => ?_⟩
      · rw [Prog.bind_error (Prod.ext hcheck rfl)]
        rfl
      · obtain ⟨body', rfl, h5⟩ := hrecord.decodeEntry_eq post
        rw [← heq, hok, Prod.mk.injEq] at h5
        have h6 : body = body' := by
          rw [hbody, h5.2, List.append_assoc] at heq
          exact List.append_cancel_right heq
        subst h6
        exact hnot post (by rw [hhasher]; exact h5.2)

/-- **The record of an entry** is one. -/
theorem isRecord_record (hw : w ≤ 64) (checksum : Checksum) {p : Position} {e : Entry w}
    (h : e.Placed p) : IsRecord checksum p (record checksum e) e := by
  have hlt := length_record_lt hw checksum h
  have hdata : readData memoryDevice checksum p
      (MemoryDevice.disk.state false (record checksum e) 0) = (.ok e, MemoryDevice.disk.state false
        (record checksum e) (0 + (record checksum e).length)) :=
    readData_eq MemoryDevice.disk hw checksum h false (List.append_nil (record checksum e)).symm
  rcases readData_cases (w := w) MemoryDevice.readsAll hw checksum
    (show (record checksum e).length < 2 ^ 63 by omega) p false 0 with
    ⟨e', bytes, post, h1, h2, h3⟩ | ⟨⟨error, h1⟩, -⟩
  · rw [hdata, Prod.mk.injEq, Except.ok.injEq] at h3
    obtain ⟨rfl, h4⟩ := h3
    have hlen : 0 + (record checksum e).length = 0 + bytes.length :=
      congrArg MemoryDevice.position h4
    have h5 := congrArg List.length h1
    rw [List.drop_zero, List.length_append] at h5
    rw [List.drop_zero, List.eq_nil_of_length_eq_zero (show post.length = 0 by omega),
      List.append_nil] at h1
    rw [h1]
    exact h2
  · rw [hdata] at h1
    cases h1

end Follows

end StratifiedHashTree
