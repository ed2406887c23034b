import StratifiedHashTree.BlockStorage
import StratifiedHashTree.Simulation

/-!
# Devices that mirror the device in memory

The block storage reaches its device through a handful of calls, so it cannot tell two
devices apart whose calls agree. `StratifiedHashTree.Mirror` asks this of a device, with
the device in memory on the other side; cutting the content is *not* among the calls, for
here the devices differ.

Each program of `StratifiedHashTree.BlockStorage` then agrees with itself on the two
devices, whatever the content is, well formed or not. The proofs follow the text of the
programs; the only thing to look at is where a program computes a position to seek to, as
the devices need not agree on positions that a file cannot have.

The device in memory is limited by the largest allocation, and another device may not be:
what a write does beyond (`StratifiedHashTree.Full`) is left open.
-/

namespace StratifiedHashTree

open Outcome Prog

variable {w : ℕ}

/-- A buffer would have to grow past the largest allocation. -/
def Full : Failure Error → Prop := fun e => e = .panic .capacity

/-- **A device that mirrors the device in memory.** Two states are the `same` when they have
the same content, and `rel`ated when they have the same cursor, too. Related states stay
related through every call but a cut, and a seek relates states that are the same. -/
structure Mirror (D : BlockDevice) where
  same : Bool → D.State → MemoryDevice → Prop
  rel : Bool → D.State → MemoryDevice → Prop
  same_of_rel : ∀ {ro : Bool} {s : D.State} {t : MemoryDevice}, rel ro s t → same ro s t
  length_lt : ∀ {ro : Bool} {s : D.State} {t : MemoryDevice}, same ro s t →
    t.buffer.length < 2 ^ 63
  position_lt : ∀ {ro : Bool} {s : D.State} {t : MemoryDevice}, rel ro s t → t.position < 2 ^ 63
  read : ∀ (ro : Bool) (k : ℕ),
    Agree (rel ro) Never Never (D.read k) (MemoryDevice.read k)
  write : ∀ bytes : Bytes, Agree (rel false) Never Full (D.write bytes) (MemoryDevice.write bytes)
  seek_start : ∀ {ro : Bool} {s : D.State} {t : MemoryDevice} {q : ℕ},
    same ro s t → q < 2 ^ 63 →
    AgreeAt (rel ro) Never Never (D.seek (.start q)) (MemoryDevice.seek (.start q)) s t
  seek_end : ∀ {ro : Bool} {s : D.State} {t : MemoryDevice},
    same ro s t →
    AgreeAt (rel ro) Never Never (D.seek (.fromEnd 0)) (MemoryDevice.seek (.fromEnd 0)) s t
  seek_back : ∀ {ro : Bool} {s : D.State} {t : MemoryDevice} {d : ℕ},
    rel ro s t → d ≤ t.position → AgreeAt (rel ro) Never Never (D.seek (.current (-(d : ℤ))))
      (MemoryDevice.seek (.current (-(d : ℤ)))) s t

/-! ### The device in memory, call by call -/

namespace MemoryDevice

theorem seek_start_eq (self : MemoryDevice) (q : ℕ) :
    seek (.start q) self = (.ok q, { self with position := q }) := rfl

theorem seek_back_eq {self : MemoryDevice} {d : ℕ} (hd : d ≤ self.position)
    (h : self.position < 2 ^ 63) : seek (.current (-(d : ℤ))) self =
      (.ok (self.position - d), { self with position := self.position - d }) :=
  disk.seek_back self.readOnly self.buffer hd h

theorem seek_end_eq {self : MemoryDevice} (h : self.buffer.length < 2 ^ 63) :
    seek (.fromEnd 0) self =
      (.ok self.buffer.length, { self with position := self.buffer.length }) :=
  disk.seek_end self.readOnly self.position h

theorem streamPosition_eq {self : MemoryDevice} (h : self.position < 2 ^ 63) :
    memoryDevice.streamPosition self = (.ok self.position, self) :=
  disk.streamPosition_eq self.readOnly self.buffer h

theorem write_room {self : MemoryDevice} {bytes : Bytes} (hro : self.readOnly = false)
    (h : self.position + bytes.length ≤ MAX_CAPACITY) : write bytes self =
      (.ok bytes.length, { self with
        buffer := overwrite self.buffer self.position bytes
        position := self.position + bytes.length }) := by
  rw [write, hro, if_neg (by simp), if_neg (Nat.not_lt.mpr h)]

/-- Reading leads nowhere but to the end. -/
theorem add_take_lt {buffer : Bytes} {p b : ℕ} (hp : p < b) (hb : buffer.length < b) (k : ℕ) :
    p + ((buffer.drop p).take k).length < b := by
  rw [List.length_take, List.length_drop]
  omega

/-- What is overwritten grows to the end of what is written at most. -/
theorem length_overwrite_le (content : Bytes) (p : ℕ) (bytes : Bytes) :
    (overwrite content p bytes).length ≤ max content.length (p + bytes.length) := by
  rw [overwrite, List.length_append, List.length_append, List.length_take, List.length_append,
    List.length_replicate, List.length_drop]
  omega

/-- The device in memory mirrors itself. -/
def mirror : Mirror memoryDevice where
  same := fun ro s t =>
    s.buffer = t.buffer ∧ s.readOnly = ro ∧ t.readOnly = ro ∧ t.buffer.length < 2 ^ 63
  rel := fun ro s t => s = t ∧ t.readOnly = ro ∧ t.position < 2 ^ 63 ∧ t.buffer.length < 2 ^ 63
  same_of_rel := by
    rintro ro s t ⟨rfl, hro, hp, hb⟩
    exact ⟨rfl, hro, hro, hb⟩
  length_lt := fun h => h.2.2.2
  position_lt := fun h => h.2.2.1
  read := fun ro k => by
    rintro s t ⟨rfl, hro, hp, hb⟩
    exact Or.inr (Or.inr ⟨rfl, rfl, hro, add_take_lt hp hb k, hb⟩)
  write := fun bytes => by
    rintro s t ⟨rfl, hro, hp, hb⟩
    by_cases hfull : MAX_CAPACITY < s.position + bytes.length
    · exact Or.inr (Or.inl ⟨_, rfl, congrArg Prod.fst (write_full hro hfull)⟩)
    · have hw := write_room hro (Nat.le_of_not_lt hfull)
      have hlt := Nat.lt_of_le_of_lt (Nat.le_of_not_lt hfull) (show MAX_CAPACITY < 2 ^ 63 by decide)
      exact AgreeAt.of_eq hw hw ⟨rfl, hro, hlt,
        lt_of_le_of_lt (length_overwrite_le s.buffer s.position bytes) (max_lt hb hlt)⟩
  seek_start := fun {ro s t q} h hq => by
    obtain ⟨heq, h1, h2, hb⟩ := h
    refine AgreeAt.of_eq (seek_start_eq s q) (seek_start_eq t q) ⟨?_, h2, hq, hb⟩
    rw [heq, h1, h2]
  seek_end := fun {ro s t} h => by
    obtain ⟨heq, h1, h2, hb⟩ := h
    have hs := @seek_end_eq s (by rw [heq]; exact hb)
    rw [heq, h1] at hs
    have ht := seek_end_eq hb
    rw [h2] at ht
    exact AgreeAt.of_eq hs ht ⟨rfl, rfl, hb, hb⟩
  seek_back := fun {ro s t d} h hd => by
    obtain ⟨rfl, hro, hp, hb⟩ := h
    exact AgreeAt.of_eq (seek_back_eq hd hp) (seek_back_eq hd hp)
      ⟨rfl, hro, lt_of_le_of_lt (Nat.sub_le _ d) hp, hb⟩

end MemoryDevice

/-- A position before another one. -/
theorem toU64_max_lt {p : ℕ} (hp : p < 2 ^ 63) (d : ℕ) : toU64 (max 0 ((p : ℤ) - d)) < 2 ^ 63 := by
  have h : max 0 ((p : ℤ) - d) = ((p - d : ℕ) : ℤ) := by omega
  rw [h, toU64_natCast (by omega)]
  omega

/-! ### Loops around single calls -/

section Loops

variable {σ τ : Type} {R : σ → τ → Prop} {P Q : Failure Error → Prop}

theorem agree_readExactFrom {read : ℕ → Run σ Bytes} {read' : ℕ → Run τ Bytes}
    (h : ∀ k, Agree R P Q (read k) (read' k)) :
    ∀ fuel k, Agree R P Q (readExactFrom read fuel k) (readExactFrom read' fuel k)
  | fuel, 0 => by
    rw [readExactFrom, readExactFrom]
    exact .pure []
  | 0, k + 1 => .stop _
  | fuel + 1, k + 1 => by
    rw [readExactFrom, readExactFrom]
    refine (h (k + 1)).bind fun bytes => ?_
    by_cases hlen : bytes.length = 0
    · rw [if_pos hlen, if_pos hlen]
      exact .err _
    · rw [if_neg hlen, if_neg hlen]
      exact (agree_readExactFrom h fuel _).bind fun rest => .pure _

theorem agree_readExact {read : ℕ → Run σ Bytes} {read' : ℕ → Run τ Bytes}
    (h : ∀ k, Agree R P Q (read k) (read' k)) (k : ℕ) :
    Agree R P Q (readExact read k) (readExact read' k) := agree_readExactFrom h k k

theorem agree_writeAllFrom {write : Bytes → Run σ ℕ} {write' : Bytes → Run τ ℕ}
    (h : ∀ bytes, Agree R P Q (write bytes) (write' bytes)) :
    ∀ fuel bytes, Agree R P Q (writeAllFrom write fuel bytes) (writeAllFrom write' fuel bytes)
  | fuel, [] => by
    rw [writeAllFrom, writeAllFrom]
    exact .pure ()
  | 0, b :: bs => .stop _
  | fuel + 1, b :: bs => by
    rw [writeAllFrom, writeAllFrom]
    refine (h (b :: bs)).bind fun n => ?_
    by_cases hn : n = 0
    · rw [if_pos hn, if_pos hn]
      exact .err _
    · rw [if_neg hn, if_neg hn]
      exact agree_writeAllFrom h fuel _

theorem agree_writeAll {write : Bytes → Run σ ℕ} {write' : Bytes → Run τ ℕ}
    (h : ∀ bytes, Agree R P Q (write bytes) (write' bytes)) (bytes : Bytes) :
    Agree R P Q (writeAll write bytes) (writeAll write' bytes) := agree_writeAllFrom h _ bytes

theorem agree_flushBufFrom {write : Bytes → Run σ ℕ} {write' : Bytes → Run τ ℕ}
    (h : ∀ bytes, Agree R P Q (write bytes) (write' bytes)) :
    ∀ fuel, Agree (Beside Bytes R) P Q (flushBufFrom write fuel) (flushBufFrom write' fuel)
  | 0 => by
    rintro ⟨bytes, s⟩ ⟨_, t⟩ ⟨rfl, hst⟩
    by_cases hb : bytes = []
    · exact .of_eq (if_pos hb) (if_pos hb) ⟨rfl, hst⟩
    · exact .of_eq (if_neg hb) (if_neg hb) ⟨rfl, hst⟩
  | fuel + 1 => by
    rw [flushBufFrom, flushBufFrom]
    rintro ⟨bytes, s⟩ ⟨_, t⟩ ⟨rfl, hst⟩
    refine .get ?_
    by_cases hb : bytes = []
    · rw [if_pos hb, if_pos hb]
      exact Agree.pure () ⟨rfl, hst⟩
    · rw [if_neg hb, if_neg hb]
      refine (Agree.onSnd (h bytes)).bind (fun n => ?_) ⟨rfl, hst⟩
      by_cases hn : n = 0
      · rw [if_pos hn, if_pos hn]
        exact .err _
      · rw [if_neg hn, if_neg hn]
        refine Agree.bind (fun s t hst => ?_) fun _ => agree_flushBufFrom h fuel
        exact .of_eq (Prog.modify_run _ s) (Prog.modify_run _ t)
          ⟨congrArg (List.drop n) hst.1, hst.2⟩

theorem agree_flushBuf {write : Bytes → Run σ ℕ} {write' : Bytes → Run τ ℕ}
    (h : ∀ bytes, Agree R P Q (write bytes) (write' bytes)) :
    Agree (Beside Bytes R) P Q (flushBuf write) (flushBuf write') := by
  rintro ⟨bytes, s⟩ ⟨_, t⟩ ⟨rfl, hst⟩
  exact agree_flushBufFrom h bytes.length ⟨rfl, hst⟩

/-- Dropping a buffer loses errors, so these must not be excused. -/
theorem agree_dropBuf {write : Bytes → Run σ ℕ} {write' : Bytes → Run τ ℕ}
    (h : ∀ bytes, Agree R P Q (write bytes) (write' bytes)) (hP : ∀ e, ¬P (.err e))
    (hQ : ∀ e, ¬Q (.err e)) : Agree (Beside Bytes R) P Q (dropBuf write) (dropBuf write') := by
  rintro s t hst
  rw [AgreeAt, dropBuf, dropBuf]
  rcases hs : flushBuf write s with ⟨a, s'⟩
  rcases ht : flushBuf write' t with ⟨b, t'⟩
  have hflush := agree_flushBuf h hst
  rw [AgreeAt, hs, ht] at hflush
  rcases hflush with ⟨f, hf, rfl⟩ | ⟨f, hf, rfl⟩ | ⟨rfl, h2⟩
  · rcases f with e | _ | _
    · exact absurd hf (hP e)
    · exact Or.inl ⟨_, hf, rfl⟩
    · exact Or.inl ⟨_, hf, rfl⟩
  · rcases f with e | _ | _
    · exact absurd hf (hQ e)
    · exact Or.inr (Or.inl ⟨_, hf, rfl⟩)
    · exact Or.inr (Or.inl ⟨_, hf, rfl⟩)
  · rcases a with (_ | _ | _) | ⟨⟩
    · exact Or.inr (Or.inr ⟨rfl, h2⟩)
    · exact Or.inr (Or.inr ⟨rfl, h2⟩)
    · exact Or.inr (Or.inr ⟨rfl, h2⟩)
    · exact Or.inr (Or.inr ⟨rfl, h2⟩)

/-- Flushing a buffer agrees, with what happens after a failure. -/
theorem agree_flushOrDrop {D D' : BlockDevice} {R : D.State → D'.State → Prop}
    (h : ∀ bytes, Agree R P Q (D.write bytes) (D'.write bytes)) (hP : ∀ e, ¬P (.err e))
    (hQ : ∀ e, ¬Q (.err e)) : Agree (Beside Bytes R) P Q (BlockStorage.flushOrDrop D)
      (BlockStorage.flushOrDrop D') := by
  rintro s t hst
  rw [AgreeAt, BlockStorage.flushOrDrop, BlockStorage.flushOrDrop]
  rcases hs : flushBuf D.write s with ⟨a, s'⟩
  rcases ht : flushBuf D'.write t with ⟨b, t'⟩
  have hflush := agree_flushBuf h hst
  rw [AgreeAt, hs, ht] at hflush
  rcases hflush with ⟨f, hf, rfl⟩ | ⟨f, hf, rfl⟩ | ⟨rfl, h2⟩
  · rcases f with e | _ | _
    · exact absurd hf (hP e)
    · exact Or.inl ⟨_, hf, rfl⟩
    · exact Or.inl ⟨_, hf, rfl⟩
  · rcases f with e | _ | _
    · exact absurd hf (hQ e)
    · exact Or.inr (Or.inl ⟨_, hf, rfl⟩)
    · exact Or.inr (Or.inl ⟨_, hf, rfl⟩)
  · rcases a with (e | _ | _) | ⟨⟩
    · exact (agree_dropBuf h hP hQ).bind (fun _ => .err e) h2
    · exact Or.inr (Or.inr ⟨rfl, h2⟩)
    · exact Or.inr (Or.inr ⟨rfl, h2⟩)
    · exact Or.inr (Or.inr ⟨rfl, h2⟩)

/-- What is buffered reaches both devices. -/
theorem agree_buffered {D D' : BlockDevice} {R : D.State → D'.State → Prop} {α : Type}
    (h : ∀ bytes, Agree R P Q (D.write bytes) (D'.write bytes)) (hP : ∀ e, ¬P (.err e))
    (hQ : ∀ e, ¬Q (.err e)) (x : Run ChecksumWrite α) :
    Agree R P Q (BlockStorage.buffered D x) (BlockStorage.buffered D' x) := by
  rintro s t hst
  rw [AgreeAt, BlockStorage.buffered, BlockStorage.buffered]
  rcases x ChecksumWrite.new with ⟨f | a, out⟩
  · have h := (agree_dropBuf h hP hQ).bind (fun _ => Agree.lift (.error f : Result α))
      (show Beside Bytes R (out.output, s) (out.output, t) from ⟨rfl, hst⟩)
    exact h.imp_right (Or.imp_right fun h => ⟨h.1, h.2.2⟩)
  · have h := (agree_flushOrDrop h hP hQ).bind (fun _ => Agree.pure a)
      (show Beside Bytes R (out.output, s) (out.output, t) from ⟨rfl, hst⟩)
    exact h.imp_right (Or.imp_right fun h => ⟨h.1, h.2.2⟩)

/-- Reading the nodes of an entry agrees when reading a number and a hash does. -/
theorem agree_readInodes {read : ℕ → Run σ Bytes} {read' : ℕ → Run τ Bytes}
    (h1 : Agree R P Q (read 1) (read' 1)) (h8 : Agree R P Q (read 8) (read' 8))
    (hw : Agree R P Q (read w) (read' w)) (i : Index) (position : Position) :
    ∀ count rightJ, Agree R P Q (readInodes (w := w) read i position count rightJ)
      (readInodes read' i position count rightJ)
  | 0, rightJ => .pure []
  | count + 1, rightJ => by
    rw [readInodes, readInodes]
    exact h1.bind fun b => h8.bind fun leftPosition => h8.bind fun leftI =>
      h1.bind fun leftJ => hw.bind fun hash =>
        (agree_readInodes h1 h8 hw i position count _).bind fun inodes => .pure _

/-- So does reading an entry, if reading a payload agrees, too. -/
theorem agree_readEntryFrom {read : ℕ → Run σ Bytes} {read' : ℕ → Run τ Bytes}
    (h : ∀ k, k ≤ max MAX_PAYLOAD_SIZE w → Agree R P Q (read k) (read' k)) (position : Position) :
    Agree R P Q (readEntryFrom (w := w) read position) (readEntryFrom read' position) := by
  have hsmall : ∀ k, k ≤ 8 → Agree R P Q (read k) (read' k) := fun k hk =>
    h k ((hk.trans (by decide)).trans (le_max_left _ _))
  have hhash := h w (le_max_right _ _)
  have hinodes : Agree R P Q (readInodesFrom (w := w) read position)
      (readInodesFrom read' position) := by
    rw [readInodesFrom, readInodesFrom]
    exact (hsmall 8 (by omega)).bind fun i => (hsmall 1 (by omega)).bind fun count =>
      (agree_readInodes (hsmall 1 (by omega)) (hsmall 8 (by omega)) hhash _ position _ 0).bind
        fun inodes => .pure _
  rw [readEntryFrom, readEntryFrom]
  exact hinodes.bind fun x => (hsmall 4 (by omega)).bind fun size =>
    (h _ (Nat.and_le_right.trans (le_max_left _ _))).bind fun payload =>
      hhash.bind fun hash => .pure _

end Loops

/-! ### Reading records -/

section Records

variable {D D' : BlockDevice} {R : D.State → D'.State → Prop} {P Q : Failure Error → Prop}

/-- Readers of records over related devices: the same bytes were read so far. -/
def ReadingAlike (R : D.State → D'.State → Prop) (s : ChecksumRead D) (t : ChecksumRead D') :
    Prop :=
  R s.input t.input ∧ s.hasher = t.hasher ∧ s.offset = t.offset

theorem agree_onInput {α : Type} {x : Run D.State α} {y : Run D'.State α} (h : Agree R P Q x y) :
    Agree (ReadingAlike R) P Q (ChecksumRead.onInput x) (ChecksumRead.onInput y) := by
  rintro ⟨s, hasher, offset⟩ ⟨t, hasher', offset'⟩ ⟨hst, rfl, rfl⟩
  rcases h hst with h1 | h1 | ⟨h1, h2⟩
  · exact Or.inl h1
  · exact Or.inr (Or.inl h1)
  · exact Or.inr (Or.inr ⟨h1, h2, rfl, rfl⟩)

theorem agree_checksumRead (hread : ∀ k, Agree R P Q (D.read k) (D'.read k)) (k : ℕ) :
    Agree (ReadingAlike R) P Q (ChecksumRead.read D k) (ChecksumRead.read D' k) := by
  rw [ChecksumRead.read, ChecksumRead.read]
  refine (agree_onInput (hread k)).bind fun bytes => ?_
  rintro ⟨s, hasher, offset⟩ ⟨t, hasher', offset'⟩ ⟨hst, rfl, rfl⟩
  refine .get (.lift_bind ⟨hst, rfl, rfl⟩ _ fun n _ => ?_)
  exact .of_eq rfl rfl ⟨hst, rfl, rfl⟩

/-- Reading a delimiter agrees when reading an offset and a checksum does. -/
theorem agree_readDelimiter (hoffset : Agree (ReadingAlike R) P Q
      (readExact (ChecksumRead.read D) 4) (readExact (ChecksumRead.read D') 4))
    (hstored : Agree R P Q (readExact D.read 8) (readExact D'.read 8)) (checksum : Checksum) :
    Agree (ReadingAlike R) P Q (ChecksumRead.readDelimiter (D := D) checksum)
      (ChecksumRead.readDelimiter (D := D') checksum) := by
  rw [ChecksumRead.readDelimiter, ChecksumRead.readDelimiter]
  rintro s t hst
  refine .get ((hoffset hst).bind fun offset s1 t1 _ _ h1 => ?_)
  refine (agree_onInput hstored h1).bind fun stored s2 t2 _ _ h2 => .get ?_
  rw [hst.2.2, h2.2.1]
  exact .of_eq rfl rfl h2

end Records

/-! ### The programs of the storage -/

namespace Mirror

variable {D : BlockDevice} (M : Mirror D) {ro : Bool}

theorem streamPosition :
    Agree (M.rel ro) Never Never D.streamPosition memoryDevice.streamPosition :=
  fun _ _ h => M.seek_back (d := 0) h (Nat.zero_le _)

/-- Seeks between related states. -/
theorem startAt {q : ℕ} (hq : q < 2 ^ 63) :
    Agree (M.rel ro) Never Never (D.seek (.start q)) (MemoryDevice.seek (.start q)) :=
  fun _ _ h => M.seek_start (M.same_of_rel h) hq

theorem toEnd :
    Agree (M.rel ro) Never Never (D.seek (.fromEnd 0)) (MemoryDevice.seek (.fromEnd 0)) :=
  fun _ _ h => M.seek_end (M.same_of_rel h)

/-- A related reader of records: the same bytes were read so far. -/
def Reading (ro : Bool) (s : ChecksumRead D) (t : ChecksumRead memoryDevice) : Prop :=
  M.rel ro s.input t.input ∧ s.hasher = t.hasher ∧ s.offset = t.offset

theorem onInput {α : Type} {x : Run D.State α} {y : Run MemoryDevice α}
    (h : Agree (M.rel ro) Never Never x y) : Agree (M.Reading ro) Never Never
      (ChecksumRead.onInput x) (ChecksumRead.onInput (D := memoryDevice) y) :=
  @agree_onInput D memoryDevice _ _ _ α x y h

theorem checksumRead (k : ℕ) : Agree (M.Reading ro) Never Never (ChecksumRead.read D k)
    (ChecksumRead.read memoryDevice k) := agree_checksumRead (M.read ro) k

theorem readDelimiter (checksum : Checksum) : Agree (M.Reading ro) Never Never
    (ChecksumRead.readDelimiter (D := D) checksum)
    (ChecksumRead.readDelimiter (D := memoryDevice) checksum) :=
  agree_readDelimiter (agree_readExact M.checksumRead 4) (agree_readExact (M.read ro) 8) checksum

/-- A program that is not allowed to fail. -/
theorem agree_unwrapped {σ τ α : Type} {R : σ → τ → Prop} {x : Run σ α} {y : Run τ α} {s : σ}
    {t : τ} (h : AgreeAt R Never Never x y s t) :
    AgreeAt R Never Never (ChecksumRead.unwrapped x) (ChecksumRead.unwrapped y) s t := by
  obtain ⟨h1, h2⟩ := h.outcome
  rcases hx : x s with ⟨o, s'⟩
  rcases hy : y t with ⟨o', t'⟩
  rw [hx, hy] at h1 h2
  obtain rfl : o = o' := h1
  refine Or.inr (Or.inr ?_)
  rw [ChecksumRead.unwrapped, ChecksumRead.unwrapped, hx, hy]
  rcases o with (e | p | _) | a
  · exact ⟨rfl, h2⟩
  · exact ⟨rfl, h2⟩
  · exact ⟨rfl, h2⟩
  · exact ⟨rfl, h2⟩

theorem dumpEntry (actualOffset : ℕ) : Agree (M.Reading ro) Never Never
    (ChecksumRead.dumpEntry (D := D) actualOffset)
    (ChecksumRead.dumpEntry (D := memoryDevice) actualOffset) := by
  rw [ChecksumRead.dumpEntry, ChecksumRead.dumpEntry]
  rintro s t hst
  have hp := M.position_lt hst.1
  have hpos : ChecksumRead.unwrapped
      (ChecksumRead.onInput (D := memoryDevice) memoryDevice.streamPosition) t =
        (.ok t.input.position, t) := by
    rw [ChecksumRead.unwrapped, ChecksumRead.onInput, MemoryDevice.streamPosition_eq hp]
  refine (agree_unwrapped (M.onInput M.streamPosition hst)).bind fun p s1 t1 _ h1 hst1 => ?_
  rw [hpos, Prod.mk.injEq, Except.ok.injEq] at h1
  -- the position is one of a file, and so is what comes before it
  have hseek : toU64 (max 0 (toI64 p - actualOffset)) < 2 ^ 63 := by
    rw [← h1.1, toI64_of_lt hp]
    exact toU64_max_lt hp actualOffset
  refine (agree_unwrapped (M.onInput (M.startAt hseek) hst1)).bind fun q s2 t2 _ _ hst2 => ?_
  refine (agree_unwrapped (M.onInput (agree_readExact (M.read ro) actualOffset) hst2)).bind
    fun bytes s3 t3 _ _ hst3 => ?_
  exact .of_eq rfl rfl hst3

theorem checkDelimiter (checksum : Checksum) : Agree (M.Reading ro) Never Never
    (ChecksumRead.checkDelimiter (D := D) checksum)
    (ChecksumRead.checkDelimiter (D := memoryDevice) checksum) := by
  rw [ChecksumRead.checkDelimiter, ChecksumRead.checkDelimiter]
  refine (M.readDelimiter checksum).bind fun x => ?_
  obtain ⟨length, ⟨offset, stored⟩, actualOffset, actual⟩ := x
  by_cases h1 : actualOffset ≠ offset
  · simp only [if_pos h1]
    exact (M.dumpEntry actualOffset).bind fun _ => .err _
  · by_cases h2 : actual ≠ stored
    · simp only [if_neg h1, if_pos h2]
      exact (Agree.lift _).bind fun n => (M.onInput M.streamPosition).bind fun p =>
        (Agree.lift _).bind fun start => .err _
    · simp only [if_neg h1, if_neg h2]
      exact .pure _

/-- **Reading a record agrees.** -/
theorem readData (checksum : Checksum) (position : Position) : Agree (M.rel ro) Never Never
    (StratifiedHashTree.readData (w := w) D checksum position)
    (StratifiedHashTree.readData memoryDevice checksum position) := by
  rintro s t hst
  have h := (agree_readEntryFrom (w := w)
    (fun k _ => agree_readExact M.checksumRead k) position).bind fun data =>
      (@checkDelimiter D M ro checksum).bind fun _ => .pure data
  rcases h (s := ChecksumRead.new s) (t := ChecksumRead.new t) ⟨hst, rfl, rfl⟩ with
    h1 | h1 | ⟨h1, h2, -, -⟩
  · exact Or.inl h1
  · exact Or.inr (Or.inl h1)
  · exact Or.inr (Or.inr ⟨h1, h2⟩)

/-! ### Opening a storage -/

theorem backToSafety (distance : ℕ) (ifErr : String) : Agree (M.rel ro) Never Never
    (StratifiedHashTree.backToSafety D distance ifErr)
    (StratifiedHashTree.backToSafety memoryDevice distance ifErr) := by
  rw [StratifiedHashTree.backToSafety, StratifiedHashTree.backToSafety]
  rintro s t hst
  refine (M.streamPosition hst).bind fun position s1 t1 _ h1 hst1 => ?_
  rw [MemoryDevice.streamPosition_eq (M.position_lt hst), Prod.mk.injEq, Except.ok.injEq] at h1
  obtain ⟨rfl, rfl⟩ := h1
  by_cases hlt : t.position < STORAGE_IDENTIFIER.length + 1 + distance
  · rw [if_pos hlt, if_pos hlt]
    exact Agree.err _ hst1
  · rw [if_neg hlt, if_neg hlt]
    exact M.seek_back hst1 ((Nat.le_add_left _ _).trans (Nat.le_of_not_lt hlt))

theorem checkHeader {s : D.State} {t : MemoryDevice} (hst : M.same false s t) :
    AgreeAt (M.rel false) Never Full (StratifiedHashTree.checkHeader D)
      (StratifiedHashTree.checkHeader memoryDevice) s t := by
  rw [StratifiedHashTree.checkHeader, StratifiedHashTree.checkHeader]
  refine (M.seek_end hst).weaken.bind fun size s1 t1 _ _ hst1 => ?_
  by_cases h0 : size = 0
  · rw [if_pos h0, if_pos h0]
    exact ((agree_writeAll M.write _).bind fun _ => agree_writeAll M.write _) hst1
  · rw [if_neg h0, if_neg h0]
    by_cases h3 : size ≤ 3
    · rw [if_pos h3, if_pos h3]
      exact Agree.err _ hst1
    · rw [if_neg h3, if_neg h3]
      refine ((M.startAt (by decide)).weaken.bind fun _ =>
        (agree_readExact (M.read false) 4).weaken.bind fun buffer => ?_) hst1
      simp only
      by_cases hmagic : buffer.take 3 ≠ STORAGE_IDENTIFIER
      · rw [if_pos hmagic, if_pos hmagic]
        exact .err _
      · rw [if_neg hmagic, if_neg hmagic]
        by_cases hversion : ¬isVersionCompatible (buffer.getD 3 0)
        · rw [if_pos hversion, if_pos hversion]
          exact .err _
        · rw [if_neg hversion, if_neg hversion]
          exact .pure _

theorem readLast (checksum : Checksum) (nextPosition : Position) : Agree (M.rel ro) Never Never
    (StratifiedHashTree.readLast (w := w) D checksum nextPosition)
    (StratifiedHashTree.readLast memoryDevice checksum nextPosition) := by
  rw [StratifiedHashTree.readLast, StratifiedHashTree.readLast]
  refine (M.backToSafety 12 _).bind fun _ => (agree_readExact (M.read ro) 4).bind fun offset =>
    (Agree.lift _).bind fun distance => (M.backToSafety distance _).bind fun _ =>
      M.streamPosition.bind fun position => (M.readData checksum position).bind fun data =>
        M.streamPosition.bind fun endPosition => ?_
  by_cases hend : endPosition ≠ nextPosition
  · rw [if_pos hend, if_pos hend]
    exact (Agree.lift _).bind fun _ => .err _
  · rw [if_neg hend, if_neg hend]
    exact .pure _

/-- **Opening a content agrees**, whatever the content is and wherever the cursors are. -/
theorem boot (checksum : Checksum) {s : D.State} {t : MemoryDevice} (hst : M.same false s t) :
    AgreeAt (M.rel false) Never Full (StratifiedHashTree.boot (w := w) D checksum)
      (StratifiedHashTree.boot memoryDevice checksum) s t := by
  rw [StratifiedHashTree.boot, StratifiedHashTree.boot]
  refine (M.checkHeader hst).bind fun _ s1 t1 _ _ hst1 => ?_
  refine (M.streamPosition hst1).weaken.bind fun firstPosition s2 t2 _ h2 hst2 => ?_
  rw [MemoryDevice.streamPosition_eq (M.position_lt hst1), Prod.mk.injEq, Except.ok.injEq] at h2
  obtain ⟨rfl, rfl⟩ := h2
  refine (M.toEnd hst2).weaken.bind fun nextPosition s3 t3 _ _ hst3 => ?_
  by_cases hnext : nextPosition = t1.position
  · rw [if_pos hnext, if_pos hnext]
    exact Agree.pure _ hst3
  · rw [if_neg hnext, if_neg hnext]
    refine Agree.weaken ?_ hst3
    exact (M.startAt (M.position_lt hst1)).bind fun _ =>
      (M.readData checksum t1.position).bind fun firstEntry => M.toEnd.bind fun _ =>
        (M.readLast checksum nextPosition).bind fun latestEntry => .pure _

/-! ### The operations -/

/-- Storages over the same content. -/
def SameStorage (s : BlockStorage D) (t : BlockStorage memoryDevice) : Prop :=
  M.same false s.device t.device ∧ s.position = t.position

/-- Storages with the same cursor, too. -/
def Storing (s : BlockStorage D) (t : BlockStorage memoryDevice) : Prop :=
  M.rel false s.device t.device ∧ s.position = t.position

theorem onDevice {α : Type} {x : Run D.State α} {y : Run MemoryDevice α} {s : BlockStorage D}
    {t : BlockStorage memoryDevice} (hst : s.position = t.position)
    (h : AgreeAt (M.rel false) Never Full x y s.device t.device) :
    AgreeAt M.Storing Never Full (BlockStorage.onDevice x)
      (BlockStorage.onDevice (D := memoryDevice) y) s t := by
  rcases h with h1 | h1 | ⟨h1, h2⟩
  · exact Or.inl h1
  · exact Or.inr (Or.inl h1)
  · exact Or.inr (Or.inr ⟨h1, h2, hst⟩)

theorem setPosition (position : Position) : Agree M.Storing Never Full
    (BlockStorage.setPosition (D := D) position)
    (BlockStorage.setPosition (D := memoryDevice) position) :=
  fun _ _ hst => .of_eq rfl rfl ⟨hst.1, rfl⟩

theorem first (checksum : Checksum) {s : BlockStorage D} {t : BlockStorage memoryDevice}
    (hst : M.SameStorage s t) : AgreeAt M.Storing Never Full
      (BlockStorage.first (w := w) D checksum) (BlockStorage.first memoryDevice checksum) s t :=
  (M.onDevice hst.2 (M.boot checksum hst.1)).bind fun x _ _ _ _ hst1 => Agree.pure x.1 hst1

theorem last (checksum : Checksum) {s : BlockStorage D} {t : BlockStorage memoryDevice}
    (hst : M.SameStorage s t) : AgreeAt M.Storing Never Full
      (BlockStorage.last (w := w) D checksum) (BlockStorage.last memoryDevice checksum) s t :=
  (M.onDevice hst.2 (M.boot checksum hst.1)).bind fun x _ _ _ _ hst1 =>
    (M.setPosition x.2.2).bind (fun _ => .pure x.2) hst1

/-- What is buffered reaches both devices. -/
theorem buffered {α : Type} (x : Run ChecksumWrite α) : Agree (M.rel false) Never Full
    (BlockStorage.buffered D x) (BlockStorage.buffered memoryDevice x) :=
  @agree_buffered Never Full D memoryDevice (M.rel false) α M.write (fun _ h => h)
    (fun _ h => nomatch h) x

/-- **Storing an entry agrees**, where a file can have it. -/
theorem put (hw : w ≤ 64) (checksum : Checksum) {position : ℕ} {e : Entry w}
    (he : e.Placed position)
    (hp : position < 2 ^ 63) : Agree M.Storing Never Full (BlockStorage.put D checksum position e)
      (BlockStorage.put memoryDevice checksum position e) := by
  have hmove : Agree M.Storing Never Full (BlockStorage.moveTo D position)
      (BlockStorage.moveTo memoryDevice position) := by
    rw [BlockStorage.moveTo, BlockStorage.moveTo]
    rintro s t hst
    refine .get ?_
    rw [hst.2]
    by_cases hmoved : t.position ≠ position
    · rw [if_pos hmoved, if_pos hmoved]
      exact (M.onDevice hst.2 (M.startAt hp hst.1).weaken).bind fun p _ _ _ _ hst1 =>
        M.setPosition p hst1
    · rw [if_neg hmoved, if_neg hmoved]
      exact Agree.pure _ hst
  obtain ⟨out, hdata, -⟩ := writeData_eq hw checksum he
  rw [BlockStorage.put, BlockStorage.put]
  refine hmove.bind fun _ => ?_
  rintro s t hst
  refine .get ?_
  rw [hst.2]
  refine .lift_bind hst _ fun _ _ => ?_
  have hwritten := M.buffered (writeData checksum e) hst.1
  refine (M.onDevice hst.2 hwritten).bind fun length s1 t1 _ _ hst1 => .get ?_
  rw [hst1.2]
  exact .lift_bind hst1 _ fun next _ => ((M.setPosition next).bind fun _ => .pure next) hst1

end Mirror

/-! ### Readers

`BlockStorage.read` and `BlockStorage.scan` open a reader of their own. A reader that is kept
is a device by itself, and what it does is said here; `BlockStorage.scanReader` is the scan. -/

namespace BlockStorage

section Readers

variable (D : BlockDevice) (checksum : Checksum)

/-- `Reader::read`, for a block device. -/
def readReader (position : Position) : Run D.State (Entry w) := do
  let _ ← D.seek (.start position)
  readData D checksum position

variable {D} in
/-- Reading on a reader that was just opened. -/
theorem read_eq_readReader {self : BlockStorage D} {device : D.State} {position : Position}
    (h : D.cloneDevice self.device = (.ok device, self.device)) :
    read (w := w) D checksum position self =
      ((readReader D checksum position device).1, self) := by
  rw [read, Prog.bind_ok (reader_eq h)]
  rfl

end Readers

end BlockStorage

namespace Mirror

variable {D : BlockDevice} (M : Mirror D) {ro : Bool}

theorem readReader (checksum : Checksum) {position : ℕ} (hp : position < 2 ^ 63) {s : D.State}
    {t : MemoryDevice} (hst : M.same ro s t) : AgreeAt (M.rel ro) Never Never
      (BlockStorage.readReader (w := w) D checksum position)
      (BlockStorage.readReader memoryDevice checksum position) s t :=
  (M.seek_start hst hp).bind fun _ _ _ _ _ hst1 => M.readData checksum position hst1

theorem scanFrom {κ : Type} (checksum : Checksum) (callback : ScanFn (Entry w) κ)
    (last : Position) : ∀ (count : ℕ) (position : Position),
    Agree (Beside κ (M.rel ro)) Never Never
      (BlockStorage.scanFrom D checksum callback last count position)
      (BlockStorage.scanFrom memoryDevice checksum callback last count position)
  | 0, position => .pure _
  | count + 1, position => by
    rw [BlockStorage.scanFrom, BlockStorage.scanFrom]
    by_cases hlast : position < last
    · rw [if_pos hlast, if_pos hlast]
      refine (Agree.onSnd (M.readData checksum position)).bind fun data => ?_
      rintro ⟨a, s⟩ ⟨b, t⟩ ⟨hab, hst⟩
      obtain rfl : a = b := hab
      refine .get ?_
      simp only
      rcases callback data a with ⟨e | ⟨⟩, a'⟩
      · exact AgreeAt.of_eq rfl rfl ⟨rfl, hst⟩
      · refine AgreeAt.bind (.of_eq (Prog.set_run _ _) (Prog.set_run _ _) ⟨rfl, hst⟩) ?_
        rintro _ s1 t1 - - hst1
        exact ((Agree.onSnd M.streamPosition).bind fun position' =>
          (scanFrom checksum callback last count position').bind fun read => .pure _) hst1
    · rw [if_neg hlast, if_neg hlast]
      exact .pure _

theorem scanReader {κ : Type} (checksum : Checksum) (position : Position) (count : ℕ)
    (callback : ScanFn (Entry w) κ) (a : κ) {s : D.State} {t : MemoryDevice}
    (hst : M.same ro s t) : AgreeAt (Beside κ (M.rel ro)) Never Never
      (BlockStorage.scanReader D checksum position count callback)
      (BlockStorage.scanReader memoryDevice checksum position count callback) (a, s) (a, t) := by
  rw [BlockStorage.scanReader, BlockStorage.scanReader]
  refine (AgreeAt.onSnd a (M.seek_end hst)).bind fun last s1 t1 _ h1 hst1 => ?_
  have hlast : last < 2 ^ 63 := by
    have h2 := Prog.onSnd_run (MemoryDevice.seek_end_eq (M.length_lt hst)) a
    rw [h2, Prod.mk.injEq, Except.ok.injEq] at h1
    rw [← h1.1]
    exact M.length_lt hst
  by_cases hp : position < last
  · rw [if_pos hp, if_pos hp]
    exact ((Agree.onSnd (M.startAt (hp.trans hlast))).bind fun _ =>
      M.scanFrom checksum callback last count position) hst1
  · rw [if_neg hp, if_neg hp]
    exact Agree.pure _ hst1

end Mirror

end StratifiedHashTree
