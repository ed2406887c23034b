import StratifiedHashTree.Backend
import StratifiedHashTree.Decoding
import StratifiedHashTree.FileDevice

/-!
# Opening bytes that may be anything

What `boot` makes of any content at all. Behind the header it needs two records: one that
begins right there, and one that ends where the content does. The second one is found through
the four bytes that lie twelve bytes before the end; if a record ends there these bytes are
the length of what it is decoded from, so `boot` finds it if there is one, and fails if there
is none (`StratifiedHashTree.boot_cases`).

Two things follow. `boot` is safe on every content but for one addition: when the four bytes
are close to the largest number, it panics (`StratifiedHashTree.boot_safe_iff`); on a file, too
(`StratifiedHashTree.FileDevice.boot_eq`). And a torn
record is detected exactly when it does not happen to end with a record of its own, and
neither with such four bytes (`StratifiedHashTree.torn_detected_iff`): the payload of an entry
may hold anything, and a write may be cut anywhere.
-/

namespace StratifiedHashTree

open Outcome
open Handles (seven twoEntries)

variable {w : ℕ}

/-! ### What a content has to be -/

/-- The content begins with an identifier and a version that can be read. -/
def HasHeader (buffer : Bytes) : Prop :=
  4 ≤ buffer.length ∧ buffer.take 3 = STORAGE_IDENTIFIER ∧
    isVersionCompatible (buffer.getD 3 0) = true

instance (buffer : Bytes) : Decidable (HasHeader buffer) :=
  inferInstanceAs (Decidable (_ ∧ (_ : Bytes) = _ ∧ (_ : Bool) = true))

/-- A record begins behind the header. -/
def FirstRecord (checksum : Checksum) (buffer : Bytes) (e : Entry w) : Prop :=
  ∃ bytes post, buffer.drop 4 = bytes ++ post ∧ IsRecord checksum 4 bytes e

/-- A record begins at a position behind the header and ends where the content does. -/
def LastRecord (checksum : Checksum) (buffer : Bytes) (k : ℕ) (e : Entry w) : Prop :=
  4 ≤ k ∧ k ≤ buffer.length ∧ IsRecord checksum k (buffer.drop k) e

/-- The number twelve bytes before the end. -/
def lastOffset (buffer : Bytes) : ℕ := ofLeBytes ((buffer.drop (buffer.length - 12)).take 4)

/-- An entry is not decoded from more than the largest one takes. -/
theorem length_of_decodeEntry {position : Position} {body : Bytes} {e : Entry w} (hw : w ≤ 64)
    (h : decodeEntry position body = (.ok e, [])) : body.length ≤ maxEntryLength w := by
  have hmax := maxEntryLength_lt hw
  have hnew : Tracks MemoryDevice.disk true body 0
      (ChecksumRead.new (MemoryDevice.disk.state true body 0)) body := ⟨rfl, rfl, rfl⟩
  obtain ⟨-, h1⟩ := follows_readEntryFrom (w := w) MemoryDevice.readsAll position hnew
    (show 0 + maxEntryLength w < 2 ^ 32 by omega)
  rw [h] at h1
  obtain ⟨h2, h3⟩ := h1 e rfl
  have h4 := congrArg List.length h2.append_eq
  rw [List.append_nil, h2.length_eq, List.drop_zero] at h4
  rw [← h4, ← Nat.zero_add (maxEntryLength w)]
  exact h3

/-- The last record is where the number says. -/
theorem LastRecord.lastOffset_eq {checksum : Checksum} {buffer : Bytes} {k : ℕ} {e : Entry w}
    (hw : w ≤ 64) (h : LastRecord checksum buffer k e) :
    lastOffset buffer + 12 + k = buffer.length ∧ lastOffset buffer + 12 < 2 ^ 32 := by
  obtain ⟨-, hk, body, hbody, heq⟩ := h
  have hmax := maxEntryLength_lt hw
  have hle := length_of_decodeEntry hw hbody
  have hlen := congrArg List.length heq
  rw [List.length_drop, List.length_append, length_delimiter] at hlen
  have hdrop : buffer.drop (buffer.length - 12) = delimiter checksum body := by
    rw [show buffer.length - 12 = k + body.length by omega, ← List.drop_drop, heq, List.drop_left]
  have hoffset : lastOffset buffer = body.length := by
    rw [lastOffset, hdrop, delimiter, List.take_left' (length_leBytes _ _),
      ofLeBytes_leBytes (by omega)]
  omega

/-- There is only one last record. -/
theorem LastRecord.unique {checksum : Checksum} {buffer : Bytes} {k k' : ℕ} {e e' : Entry w}
    (hw : w ≤ 64) (h : LastRecord checksum buffer k e) (h' : LastRecord checksum buffer k' e') :
    e = e' := by
  have h1 := (h.lastOffset_eq hw).1
  have h2 := (h'.lastOffset_eq hw).1
  obtain rfl : k = k' := by omega
  exact (h.2.2.unique h'.2.2 (congrArg (· ++ []) rfl)).2

/-! ### Opening -/

section Boot

variable {D : BlockDevice} {K : Disk D} {ro : Bool} {buffer : Bytes}

variable (K ro) in
/-- The header is checked. -/
theorem checkHeader_cases (hbuffer : buffer.length < 2 ^ 63) (hne : buffer ≠ []) (p : ℕ) :
    (HasHeader buffer ∧ checkHeader D (K.state ro buffer p) = (.ok (), K.state ro buffer 4)) ∨
      (¬HasHeader buffer ∧ ∃ e, (checkHeader D (K.state ro buffer p)).1 = err e) := by
  have hpos := List.length_pos_of_ne_nil hne
  rw [checkHeader, Prog.bind_ok (K.seek_end ro p hbuffer), if_neg hpos.ne']
  by_cases h3 : buffer.length ≤ 3
  · rw [if_pos h3]
    exact Or.inr ⟨fun h => absurd h.1 (by omega), _, rfl⟩
  · have h4 : (buffer.take 4).length = 4 := List.length_take_of_le (by omega)
    have hread := K.readExact_eq ro (p := 0)
      (show buffer.drop 0 = buffer.take 4 ++ buffer.drop 4 from
        (List.take_append_drop 4 buffer).symm)
    rw [h4] at hread
    have hmagic : (buffer.take 4).take 3 = buffer.take 3 := by
      rw [List.take_take]
      rfl
    have hversion : (buffer.take 4).getD 3 0 = buffer.getD 3 0 := by
      rw [List.getD_eq_getElem?_getD, List.getD_eq_getElem?_getD,
        List.getElem?_take_of_lt (by decide)]
    rw [if_neg h3, Prog.bind_ok (K.seek_start ro buffer _ 0), Prog.bind_ok hread]
    simp only [hmagic, hversion]
    by_cases h1 : buffer.take 3 ≠ STORAGE_IDENTIFIER
    · rw [if_pos h1]
      exact Or.inr ⟨fun h => h1 h.2.1, _, rfl⟩
    · rw [if_neg h1]
      by_cases h2 : ¬isVersionCompatible (buffer.getD 3 0) = true
      · rw [if_pos h2]
        exact Or.inr ⟨fun h => h2 h.2.2, _, rfl⟩
      · rw [if_neg h2]
        rw [ne_eq, not_not] at h1
        rw [not_not] at h2
        exact Or.inl ⟨⟨by omega, h1, h2⟩, rfl⟩

variable (K ro buffer) in
/-- Moving back too far. -/
theorem backToSafety_err {p distance : ℕ} (ifErr : String) (hp : p < 2 ^ 63)
    (h : p < 4 + distance) :
    ∃ error, (backToSafety D distance ifErr (K.state ro buffer p)).1 = err error := by
  have h4 : p < STORAGE_IDENTIFIER.length + 1 + distance := h
  rw [backToSafety, Prog.bind_ok (K.streamPosition_eq ro buffer hp), if_pos h4]
  exact ⟨_, rfl⟩

variable (ro) in
/-- Reading where the last record has to be: it is there; or it is not, and reading fails or ends
somewhere else. -/
theorem readData_last (hall : K.ReadsAll) (hw : w ≤ 64) (checksum : Checksum)
    (hbuffer : buffer.length < 2 ^ 63) {q : ℕ} (hq : 4 ≤ q) (hqle : q ≤ buffer.length) :
    (∃ e, LastRecord (w := w) checksum buffer q e ∧
      readData D checksum q (K.state ro buffer q) = (.ok e, K.state ro buffer buffer.length)) ∨
    ((∀ e, ¬LastRecord (w := w) checksum buffer q e) ∧
      ((∃ error, (readData (w := w) D checksum q (K.state ro buffer q)).1 = err error) ∨
        ∃ (e : Entry w) (p : ℕ), p < buffer.length ∧
          readData D checksum q (K.state ro buffer q) = (.ok e, K.state ro buffer p))) := by
  rcases readData_cases hall hw checksum hbuffer q ro q with
    ⟨e, bytes, post, heq, hrecord, hdata⟩ | ⟨hdata, hnot⟩
  · have hlen := congrArg List.length heq
    rw [List.length_drop, List.length_append] at hlen
    by_cases hend : q + bytes.length = buffer.length
    · rw [List.eq_nil_of_length_eq_zero (show post.length = 0 by omega), List.append_nil] at heq
      rw [hend] at hdata
      exact Or.inl ⟨e, ⟨hq, hqle, by rw [heq]; exact hrecord⟩, hdata⟩
    · refine Or.inr ⟨fun e' h => ?_, Or.inr ⟨e, q + bytes.length, by omega, hdata⟩⟩
      -- only one record begins here, and it ends before the end
      have h1 := (h.2.2.unique hrecord ((List.append_nil _).trans heq)).1
      have h2 := congrArg List.length h1
      rw [List.length_drop] at h2
      exact hend (by omega)
  · exact Or.inr ⟨fun e h => hnot e _ [] (List.append_nil _).symm h.2.2, Or.inl hdata⟩

variable (ro) in
/-- **The last record**: it is found if there is one. -/
theorem readLast_cases (hall : K.ReadsAll) (hw : w ≤ 64) (checksum : Checksum)
    (hbuffer : buffer.length < 2 ^ 63) (h16 : 16 ≤ buffer.length) :
    (2 ^ 32 ≤ lastOffset buffer + 4 ∧
      (readLast (w := w) D checksum buffer.length (K.state ro buffer buffer.length)).1 =
        panic .overflow) ∨
    (∃ k e, LastRecord (w := w) checksum buffer k e ∧
      readLast D checksum buffer.length (K.state ro buffer buffer.length) =
        (.ok e, K.state ro buffer buffer.length)) ∨
    (lastOffset buffer + 4 < 2 ^ 32 ∧ (∀ k e, ¬LastRecord (w := w) checksum buffer k e) ∧
      ∃ error, (readLast (w := w) D checksum buffer.length (K.state ro buffer buffer.length)).1 =
        err error) := by
  have h4 : ((buffer.drop (buffer.length - 12)).take 4).length = 4 :=
    List.length_take_of_le (by rw [List.length_drop]; omega)
  have hread := K.readExact_eq ro
    (List.take_append_drop 4 (buffer.drop (buffer.length - 12))).symm
  rw [h4] at hread
  rw [readLast, Prog.bind_ok (BlockStorage.backToSafety_eq K ro buffer _ hbuffer (by omega)),
    Prog.bind_ok hread, Prog.liftM_eq, ← lastOffset]
  rcases Nat.lt_or_ge (lastOffset buffer + 4) (2 ^ 32) with hlt | hge
  · rw [addBits_of_lt hlt, Prog.lift_ok_bind]
    -- a last record lies where the number says
    have hwhere : ∀ k e, LastRecord (w := w) checksum buffer k e →
        k = buffer.length - 12 - lastOffset buffer := by
      intro k e h
      have h1 := (h.lastOffset_eq hw).1
      omega
    by_cases hback : buffer.length - 12 + 4 < 4 + (lastOffset buffer + 4)
    · refine Or.inr (Or.inr ⟨hlt, fun k e h => ?_, ?_⟩)
      · have h1 := (h.lastOffset_eq hw).1
        have h2 := h.1
        omega
      · obtain ⟨error, herror⟩ := backToSafety_err K ro buffer
          "The last data is corrupted." (show buffer.length - 12 + 4 < 2 ^ 63 by omega) hback
        rw [Prog.bind_error (Prod.ext herror rfl)]
        exact ⟨error, rfl⟩
    · rw [Prog.bind_ok (BlockStorage.backToSafety_eq K ro buffer _ (by omega) (by omega)),
        show buffer.length - 12 + 4 - (lastOffset buffer + 4) =
          buffer.length - 12 - lastOffset buffer by omega,
        Prog.bind_ok (K.streamPosition_eq ro buffer (by omega))]
      have hq : 4 ≤ buffer.length - 12 - lastOffset buffer := by omega
      have hqle : buffer.length - 12 - lastOffset buffer ≤ buffer.length := by omega
      generalize buffer.length - 12 - lastOffset buffer = q at hwhere hq hqle ⊢
      rcases readData_last ro hall hw checksum hbuffer hq hqle with
        ⟨e, hlast, hdata⟩ | ⟨hnot, ⟨error, hdata⟩ | ⟨e, p, hp, hdata⟩⟩
      · refine Or.inr (Or.inl ⟨q, e, hlast, ?_⟩)
        rw [Prog.bind_ok hdata, Prog.bind_ok (K.streamPosition_eq ro buffer hbuffer),
          if_neg (not_not.mpr rfl)]
        rfl
      · refine Or.inr (Or.inr ⟨hlt, fun k e h => hnot e (hwhere k e h ▸ h), error, ?_⟩)
        rw [Prog.bind_error (Prod.ext hdata rfl)]
        rfl
      · refine Or.inr (Or.inr ⟨hlt, fun k e h => hnot e (hwhere k e h ▸ h), ?_⟩)
        rw [Prog.bind_ok hdata, Prog.bind_ok (K.streamPosition_eq ro buffer (by omega)),
          if_pos hp.ne]
        simp only [Prog.liftM_eq]
        rw [subBits_of_le (by omega), Prog.lift_ok_bind]
        exact ⟨_, rfl⟩
  · refine Or.inl ⟨hge, ?_⟩
    rw [addBits, if_neg (Nat.not_lt.mpr hge)]
    rfl

/-- A record that begins behind the header leaves room for one that ends the content. -/
theorem FirstRecord.length_le {checksum : Checksum} {e : Entry w}
    (h : FirstRecord checksum buffer e) : 16 ≤ buffer.length := by
  obtain ⟨bytes, post, heq, body, -, rfl⟩ := h
  have h1 := congrArg List.length heq
  rw [List.length_drop, List.length_append, List.length_append, length_delimiter] at h1
  omega

variable (ro) in
/-- **Opening any content** that is not empty. -/
theorem boot_cases (hall : K.ReadsAll) (hw : w ≤ 64) (checksum : Checksum)
    (hbuffer : buffer.length < 2 ^ 63) (hne : buffer ≠ []) (p : ℕ) :
    -- nothing that can be opened
    (((¬HasHeader buffer ∨ buffer.length ≠ 4 ∧ ∀ e, ¬FirstRecord (w := w) checksum buffer e) ∧
      ∃ error, (boot (w := w) D checksum (K.state ro buffer p)).1 = err error) ∨
    -- the header alone
    (HasHeader buffer ∧ buffer.length = 4 ∧
      boot (w := w) D checksum (K.state ro buffer p) =
        (.ok ((none, 4), (none, 4)), K.state ro buffer buffer.length))) ∨
    -- a first record
    ∃ e, HasHeader buffer ∧ FirstRecord (w := w) checksum buffer e ∧
      ((2 ^ 32 ≤ lastOffset buffer + 4 ∧
          (boot (w := w) D checksum (K.state ro buffer p)).1 = panic .overflow) ∨
        (∃ k e', LastRecord (w := w) checksum buffer k e' ∧
          boot D checksum (K.state ro buffer p) =
            (.ok ((some e, 4), (some e', buffer.length)), K.state ro buffer buffer.length)) ∨
        (lastOffset buffer + 4 < 2 ^ 32 ∧ (∀ k e', ¬LastRecord (w := w) checksum buffer k e') ∧
          ∃ error, (boot (w := w) D checksum (K.state ro buffer p)).1 = err error)) := by
  rw [boot]
  rcases checkHeader_cases K ro hbuffer hne p with
    ⟨hheader, hcheck⟩ | ⟨hnot, error, hcheck⟩
  · rw [Prog.bind_ok hcheck, Prog.bind_ok (K.streamPosition_eq ro buffer (by decide)),
      Prog.bind_ok (K.seek_end ro 4 hbuffer)]
    by_cases h4 : buffer.length = 4
    · rw [if_pos h4, h4]
      exact Or.inl (Or.inr ⟨hheader, rfl, rfl⟩)
    · rw [if_neg h4, Prog.bind_ok (K.seek_start ro buffer _ 4)]
      rcases readData_cases hall hw checksum hbuffer 4 ro 4 with
        ⟨e, bytes, post, heq, hrecord, hdata⟩ | ⟨⟨error, hdata⟩, hnot⟩
      · have hfirst : FirstRecord checksum buffer e := ⟨bytes, post, heq, hrecord⟩
        refine Or.inr ⟨e, hheader, hfirst, ?_⟩
        rw [Prog.bind_ok hdata, Prog.bind_ok (K.seek_end ro _ hbuffer)]
        rcases readLast_cases ro hall hw checksum hbuffer hfirst.length_le with
          ⟨h1, h2⟩ | ⟨k, e', h1, h2⟩ | ⟨h1, h2, error, h3⟩
        · rw [Prog.bind_error (Prod.ext h2 rfl)]
          exact Or.inl ⟨h1, rfl⟩
        · rw [Prog.bind_ok h2]
          exact Or.inr (Or.inl ⟨k, e', h1, rfl⟩)
        · rw [Prog.bind_error (Prod.ext h3 rfl)]
          exact Or.inr (Or.inr ⟨h1, h2, error, rfl⟩)
      · refine Or.inl (Or.inl ⟨Or.inr ⟨h4, ?_⟩, error, ?_⟩)
        · rintro e ⟨bytes, post, heq, hrecord⟩
          exact hnot e bytes post heq hrecord
        · rw [Prog.bind_error (Prod.ext hdata rfl)]
          rfl
  · refine Or.inl (Or.inl ⟨Or.inl hnot, error, ?_⟩)
    rw [Prog.bind_error (Prod.ext hcheck rfl)]
    rfl

end Boot

/-! ### Safety -/

section Safety

/-- **What opening a content may come to**: an error; nothing, if there is nothing behind the
header; or the record that begins there and the one that ends the content. -/
def SafelyOpened (checksum : Checksum) (buffer : Bytes) (outcome : Result (FirstLast w)) : Prop :=
  (∃ error, outcome = err error) ∨
    ((buffer = [] ∨ HasHeader buffer ∧ buffer.length = 4) ∧
      outcome = .ok ((none, 4), (none, 4))) ∨
    ∃ e k e', FirstRecord checksum buffer e ∧ LastRecord checksum buffer k e' ∧
      outcome = .ok ((some e, 4), (some e', buffer.length))

/-- **The four bytes that are read as a distance are too large** to add four to them; they are
only read when the content begins with a header and a record. -/
def TooFarBack (w : ℕ) (checksum : Checksum) (buffer : Bytes) : Prop :=
  HasHeader buffer ∧ (∃ e, FirstRecord (w := w) checksum buffer e) ∧
    2 ^ 32 ≤ lastOffset buffer + 4

/-- The device in memory, opened for writing or not, when there is nothing in it. -/
theorem boot_nil (checksum : Checksum) {device : MemoryDevice} (h : device.buffer = []) :
    SafelyOpened (w := w) checksum [] (boot memoryDevice checksum device).1 := by
  obtain ⟨ro, buffer, p⟩ := device
  obtain rfl : buffer = [] := h
  have hseek := MemoryDevice.disk.seek_end ro p (show ([] : Bytes).length < 2 ^ 63 by decide)
  rcases ro with _ | _
  · refine Or.inr (Or.inl ⟨Or.inl rfl, ?_⟩)
    have hheader := BlockStorage.checkHeader_nil MemoryDevice.disk p
    have h1 : boot (w := w) memoryDevice checksum (MemoryDevice.disk.state false [] p) =
        (.ok ((none, 4), (none, 4)), MemoryDevice.disk.state false BlockStorage.header 4) := by
      rw [boot, Prog.bind_ok hheader,
        Prog.bind_ok (MemoryDevice.disk.streamPosition_eq false _ (by decide)),
        Prog.bind_ok (MemoryDevice.disk.seek_end false _ (by decide))]
      rfl
    exact congrArg Prod.fst h1
  · refine Or.inl ⟨MemoryDevice.permissionDenied, ?_⟩
    have hwrite : writeAll memoryDevice.write STORAGE_IDENTIFIER
        (MemoryDevice.disk.state true [] ([] : Bytes).length) =
          (err MemoryDevice.permissionDenied, MemoryDevice.disk.state true [] 0) := rfl
    have hcheck : checkHeader memoryDevice (MemoryDevice.disk.state true [] p) =
        (err MemoryDevice.permissionDenied, MemoryDevice.disk.state true [] 0) := by
      rw [checkHeader, Prog.bind_ok hseek,
        if_pos (show (([] : Bytes).length : Position) = 0 from rfl),
        Prog.bind_error hwrite]
      rfl
    have h1 : boot (w := w) memoryDevice checksum (MemoryDevice.disk.state true [] p) =
        (err MemoryDevice.permissionDenied, MemoryDevice.disk.state true [] 0) := by
      rw [boot, Prog.bind_error hcheck]
      rfl
    exact congrArg Prod.fst h1

/-- An overflow is not safe. -/
theorem not_safelyOpened_overflow (checksum : Checksum) (buffer : Bytes) :
    ¬SafelyOpened (w := w) checksum buffer (Outcome.panic .overflow) := by
  rintro (⟨error, h⟩ | ⟨-, h⟩ | ⟨e, k, e', -, -, h⟩)
  · exact absurd (Except.error.inj h) (by simp)
  · cases h
  · cases h

/-- Opening is safe, or it overflows. -/
theorem boot_safe_or_overflow (hw : w ≤ 64) (checksum : Checksum) {device : MemoryDevice}
    (hlen : device.buffer.length < 2 ^ 63) :
    (¬TooFarBack w checksum device.buffer ∧
        SafelyOpened (w := w) checksum device.buffer (boot memoryDevice checksum device).1) ∨
      (TooFarBack w checksum device.buffer ∧
        (boot (w := w) memoryDevice checksum device).1 = Outcome.panic .overflow) := by
  obtain ⟨ro, buffer, p⟩ := device
  change buffer.length < 2 ^ 63 at hlen
  change (¬TooFarBack w checksum buffer ∧ SafelyOpened (w := w) checksum buffer
      (boot memoryDevice checksum (MemoryDevice.disk.state ro buffer p)).1) ∨
    (TooFarBack w checksum buffer ∧
      (boot (w := w) memoryDevice checksum (MemoryDevice.disk.state ro buffer p)).1 = _)
  by_cases hne : buffer = []
  · subst hne
    refine Or.inl ⟨?_, boot_nil checksum rfl⟩
    rintro ⟨h, -⟩
    exact absurd h.1 (by decide)
  · rcases boot_cases (w := w) ro MemoryDevice.readsAll hw checksum hlen hne p with
      (⟨h1, error, h2⟩ | ⟨h1, h2, h3⟩) | ⟨e, h1, h2, h3⟩
    · refine Or.inl ⟨?_, Or.inl ⟨error, h2⟩⟩
      rintro ⟨hheader, ⟨e, hfirst⟩, -⟩
      rcases h1 with h1 | ⟨-, h1⟩
      · exact h1 hheader
      · exact h1 e hfirst
    · refine Or.inl ⟨?_, Or.inr (Or.inl ⟨Or.inr ⟨h1, h2⟩, congrArg Prod.fst h3⟩)⟩
      rintro ⟨-, ⟨e, hfirst⟩, -⟩
      have h4 := hfirst.length_le
      omega
    · rcases h3 with ⟨h3, h4⟩ | ⟨k, e', h3, h4⟩ | ⟨h3, -, error, h4⟩
      · exact Or.inr ⟨⟨h1, ⟨e, h2⟩, h3⟩, h4⟩
      · refine Or.inl ⟨?_, Or.inr (Or.inr ⟨e, k, e', h2, h3, congrArg Prod.fst h4⟩)⟩
        rintro ⟨-, -, h5⟩
        have h6 := (h3.lastOffset_eq hw).2
        omega
      · refine Or.inl ⟨?_, Or.inl ⟨error, h4⟩⟩
        rintro ⟨-, -, h5⟩
        omega

/-- **Opening is safe on every content, but for one addition.** -/
theorem boot_safe_iff (hw : w ≤ 64) (checksum : Checksum) {device : MemoryDevice}
    (hlen : device.buffer.length < 2 ^ 63) :
    SafelyOpened (w := w) checksum device.buffer (boot memoryDevice checksum device).1 ↔
      ¬TooFarBack w checksum device.buffer := by
  rcases boot_safe_or_overflow hw checksum hlen with ⟨h1, h2⟩ | ⟨h1, h2⟩
  · exact iff_of_true h2 h1
  · rw [h2]
    exact iff_of_false (not_safelyOpened_overflow checksum _) (not_not.mpr h1)

/-- A header, a record, and twelve bytes that are as large as a byte can be. -/
def tooFarBack : Bytes :=
  BlockStorage.header ++ record seven (twoEntries 1) ++ List.replicate 12 255

theorem boot_safe_iff_tooFarBack :
    SafelyOpened (w := 1) seven tooFarBack (boot memoryDevice seven ⟨false, tooFarBack, 0⟩).1 ↔
      ¬TooFarBack 1 seven tooFarBack :=
  @boot_safe_iff 1 (by decide) seven ⟨false, tooFarBack, 0⟩ (by decide +kernel)

/-- **Opening may overflow.** -/
theorem not_boot_safe : (boot (w := 1) memoryDevice seven ⟨false, tooFarBack, 0⟩).1 =
      Outcome.panic .overflow ∧
    ¬SafelyOpened (w := 1) seven tooFarBack
      (boot memoryDevice seven ⟨false, tooFarBack, 0⟩).1 := by
  have h : (boot (w := 1) memoryDevice seven ⟨false, tooFarBack, 0⟩).1 =
      Outcome.panic .overflow := by decide +kernel
  exact ⟨h, by rw [h]; exact not_safelyOpened_overflow seven tooFarBack⟩

/-- The device on a file opens what the device in memory opens. -/
theorem FileDevice.boot_eq (hw : w ≤ 64) (checksum : Checksum) {device : FileDevice}
    (hwritable : device.file.writable = true) (hlen : device.file.content.length < 2 ^ 63) :
    (boot (w := w) fileDevice checksum device).1 =
      (boot memoryDevice checksum ⟨false, device.file.content, 0⟩).1 := by
  have hsame : FileDevice.mirror.same false device ⟨false, device.file.content, 0⟩ :=
    ⟨rfl, hlen, fun _ => ⟨hwritable, rfl⟩⟩
  rcases FileDevice.mirror.boot (w := w) checksum hsame with ⟨f, h, -⟩ | ⟨f, h, hout⟩ | ⟨h, -⟩
  · exact absurd h id
  · obtain rfl : f = .panic .capacity := h
    rcases @boot_safe_or_overflow w hw checksum ⟨false, device.file.content, 0⟩ hlen with
        ⟨-, h2⟩ | ⟨-, h2⟩
    · rw [hout] at h2
      rcases h2 with ⟨error, h3⟩ | ⟨-, h3⟩ | ⟨e, k, e', -, -, h3⟩
      · exact absurd (Except.error.inj h3) (by simp)
      · cases h3
      · cases h3
    · rw [hout] at h2
      exact absurd (Except.error.inj h2) (by simp)
  · exact h

end Safety

/-! ### Torn records -/

section Torn

/-- The bytes that the storage of a slate holds. -/
def storedBytes {hw : w ≤ 64} {checksum : Checksum} (s : SlateOn (.blockMemory hw checksum)) :
    Bytes := (s.storage : BlockStorage memoryDevice).device.buffer

/-- **A torn write**: a slate that holds some payloads appends another one, and of what this
adds to the content a proper part is there. -/
def Torn (hw : w ≤ 64) (checksum : Checksum) (H : HashFn w) (vs : List Bytes) (v : Bytes)
    (buffer : Bytes) : Prop :=
  ∃ (L : ℕ) (s s' : SlateOn (.blockMemory hw checksum)) (info : MetaInfo w),
    Reaches (.blockMemory hw checksum) H L vs s ∧ Slate.append H v s = (.ok info, s') ∧
      (storedBytes s).length < buffer.length ∧ buffer.length < (storedBytes s').length ∧
        buffer <+: storedBytes s'

/-- The storage, and with it the slate, reports an error when it is opened. -/
def Detected (hw : w ≤ 64) (checksum : Checksum) (buffer : Bytes) : Prop :=
  ∀ (ro : Bool) (p q : Position) (level : ℕ),
    (∃ error, (boot (w := w) memoryDevice checksum ⟨ro, buffer, p⟩).1 = err error) ∧
    (∃ error, (BlockStorage.last (w := w) memoryDevice checksum ⟨⟨ro, buffer, p⟩, q⟩).1 =
      err error) ∧
    ∃ error, Slate.withCacheLevel (S := (Backend.blockMemory hw checksum).log.toStorage)
      (⟨⟨ro, buffer, p⟩, q⟩ : BlockStorage memoryDevice) level = err error

/-- The content ends with a record all the same, or with bytes that are read as too large a
distance. -/
def Misleading (w : ℕ) (checksum : Checksum) (buffer : Bytes) : Prop :=
  2 ^ 32 ≤ lastOffset buffer + 4 ∨ ∃ k e, LastRecord (w := w) checksum buffer k e

/-- The content of a log begins with a record, whatever comes behind it. -/
theorem begins_content (hw : w ≤ 64) (checksum : Checksum) {log : List (Entry w)}
    (hlog : log ≠ []) (hlaid : BlockStorage.Laid checksum log) (bytes : Bytes) :
    HasHeader (BlockStorage.content checksum log ++ bytes) ∧
      ∃ e : Entry w, FirstRecord checksum (BlockStorage.content checksum log ++ bytes) e := by
  obtain ⟨e, rest, rfl⟩ := List.exists_cons_of_ne_nil hlog
  have hplaced : e.Placed 4 := hlaid 0 (Nat.succ_pos _)
  have heq : BlockStorage.content checksum (e :: rest) ++ bytes = BlockStorage.header ++
      (record checksum e ++ (rest.flatMap (record checksum) ++ bytes)) := by
    rw [BlockStorage.content, List.flatMap_cons, List.append_assoc, List.append_assoc]
  rw [heq]
  refine ⟨⟨?_, rfl, ?_⟩, e, ?_⟩
  · rw [List.length_append, BlockStorage.length_header]
    exact Nat.le_add_right _ _
  · exact show isVersionCompatible STORAGE_VERSION = true by decide
  · exact ⟨record checksum e, rest.flatMap (record checksum) ++ bytes,
      List.drop_left' BlockStorage.length_header, isRecord_record hw checksum hplaced⟩

/-- What begins with a record is opened when it ends with one, and fails to open otherwise. -/
theorem boot_err_iff (hw : w ≤ 64) (checksum : Checksum) {buffer : Bytes} {e : Entry w}
    (hlen : buffer.length < 2 ^ 63) (hheader : HasHeader buffer)
    (hfirst : FirstRecord checksum buffer e) (ro : Bool) (p : Position) :
    (∃ error, (boot (w := w) memoryDevice checksum ⟨ro, buffer, p⟩).1 = err error) ↔
      ¬Misleading w checksum buffer := by
  have h16 := hfirst.length_le
  have hne : buffer ≠ [] := List.ne_nil_of_length_pos (by omega)
  rcases boot_cases (w := w) ro MemoryDevice.readsAll hw checksum hlen hne p with
    (⟨h1, -⟩ | ⟨-, h1, -⟩) | ⟨e', -, -, h1⟩
  · rcases h1 with h1 | ⟨-, h1⟩
    · exact absurd hheader h1
    · exact absurd hfirst (h1 e)
  · omega
  · change (∃ error, (boot memoryDevice checksum (MemoryDevice.disk.state ro buffer p)).1 =
      err error) ↔ _
    rcases h1 with ⟨h1, h2⟩ | ⟨k, e'', h1, h2⟩ | ⟨h1, h2, error, h3⟩
    · rw [h2]
      refine iff_of_false ?_ (not_not.mpr (Or.inl h1))
      rintro ⟨error, h3⟩
      exact absurd (Except.error.inj h3) (by simp)
    · rw [h2]
      refine iff_of_false ?_ (not_not.mpr (Or.inr ⟨k, e'', h1⟩))
      rintro ⟨error, h3⟩
      cases h3
    · refine iff_of_true ⟨error, h3⟩ ?_
      rintro (h4 | ⟨k, e'', h4⟩)
      · omega
      · exact h2 k e'' h4

/-- A slate fails to open when its storage does. -/
theorem withCacheLevel_error {S : Storage (Entry w)} {level : ℕ} {st st' : S.State}
    {f : Failure Error} (h : Slate.loadMetadata S level st = (.error f, st')) :
    Slate.withCacheLevel st level = .error f := by
  rw [Slate.withCacheLevel, h]

/-- A storage fails to open when its device does, and so does a slate. -/
theorem detected_of_boot (hw : w ≤ 64) (checksum : Checksum) {buffer : Bytes}
    (h : ∀ ro p, ∃ error, (boot (w := w) memoryDevice checksum ⟨ro, buffer, p⟩).1 = err error) :
    Detected (w := w) hw checksum buffer := by
  intro ro p q level
  obtain ⟨error, hboot⟩ := h ro p
  have hdevice : BlockStorage.onDevice (boot (w := w) memoryDevice checksum) ⟨⟨ro, buffer, p⟩, q⟩ =
      (err error, ⟨(boot (w := w) memoryDevice checksum ⟨ro, buffer, p⟩).2, q⟩) := by
    rw [BlockStorage.onDevice, hboot]
  have hlast : BlockStorage.last (w := w) memoryDevice checksum ⟨⟨ro, buffer, p⟩, q⟩ =
      (err error, ⟨(boot (w := w) memoryDevice checksum ⟨ro, buffer, p⟩).2, q⟩) := by
    rw [BlockStorage.last, Prog.bind_error hdevice]
    rfl
  have hload : Slate.loadMetadata (Backend.blockMemory hw checksum).log.toStorage level
      (⟨⟨ro, buffer, p⟩, q⟩ : BlockStorage memoryDevice) =
        (err error, ⟨(boot (w := w) memoryDevice checksum ⟨ro, buffer, p⟩).2, q⟩) :=
    Prog.bind_error hlast
  exact ⟨⟨error, hboot⟩, ⟨error, congrArg Prod.fst hlast⟩, error, withCacheLevel_error hload⟩

/-- What is there of a torn write begins with the log that was there before. -/
theorem Torn.content_eq {hw : w ≤ 64} {checksum : Checksum} {H : HashFn w} {vs : List Bytes}
    {v buffer : Bytes} (hne : vs ≠ []) (h : Torn hw checksum H vs v buffer) :
    ∃ log : List (Entry w), log ≠ [] ∧ BlockStorage.Laid checksum log ∧
      ∃ bytes, buffer = BlockStorage.content checksum log ++ bytes ∧ buffer.length < 2 ^ 63 := by
  obtain ⟨L, s, s', info, hreach, happend, h1, h2, hprefix⟩ := h
  have hof := hreach.slateOf
  have hof' := (hreach.append happend).slateOf
  rw [List.length_append, List.length_singleton] at hof'
  refine ⟨history (Backend.blockMemory hw checksum).log H (payload vs) vs.length, ?_,
    hof.fits.laid, ?_⟩
  · rw [ne_eq, ← List.length_eq_zero_iff, length_history, List.length_eq_zero_iff]
    exact hne
  · have hs : storedBytes s = BlockStorage.content checksum
        (history (Backend.blockMemory hw checksum).log H (payload vs) vs.length) :=
      congrArg (fun st : BlockStorage memoryDevice => st.device.buffer) hof.storage_eq
    have hs' : storedBytes s' = BlockStorage.content checksum
        (history (Backend.blockMemory hw checksum).log H (payload (vs ++ [v])) (vs.length + 1)) :=
      congrArg (fun st : BlockStorage memoryDevice => st.device.buffer) hof'.storage_eq
    have hroom : (storedBytes s').length < 2 ^ 63 := by
      rw [hs']
      exact BlockStorage.Room.lt hof'.fits.room
    rw [history_succ, BlockStorage.content_concat,
      ← history_congr (fun k hk1 hk2 => payload_append_left [v] hk1 hk2), ← hs] at hs'
    obtain ⟨bytes, hbytes⟩ : storedBytes s <+: buffer :=
      List.prefix_of_prefix_length_le (by rw [hs']; exact List.prefix_append _ _) hprefix h1.le
    exact ⟨bytes, by rw [← hs, hbytes], by omega⟩

/-- **A torn write is detected exactly when what there is of it does not mislead.** -/
theorem torn_detected_iff {hw : w ≤ 64} {checksum : Checksum} {H : HashFn w} {vs : List Bytes}
    {v buffer : Bytes} (hne : vs ≠ []) (htorn : Torn hw checksum H vs v buffer) :
    Detected (w := w) hw checksum buffer ↔ ¬Misleading w checksum buffer := by
  obtain ⟨log, hlog, hlaid, bytes, rfl, hlen⟩ := htorn.content_eq hne
  obtain ⟨hheader, e, hfirst⟩ := begins_content hw checksum hlog hlaid bytes
  have hiff := boot_err_iff hw checksum hlen hheader hfirst
  constructor
  · intro h
    exact (hiff false 0).mp (h false 0 0 0).1
  · intro h
    exact detected_of_boot hw checksum fun ro p => (hiff ro p).mpr h

/-- Every cut within the last record of a log is a torn write. -/
theorem Torn.of_take {hw : w ≤ 64} {checksum : Checksum} {H : HashFn w} {vs : List Bytes}
    {v : Bytes} {k : ℕ} (h : (Backend.blockMemory hw checksum).Holds H (vs ++ [v]))
    (h1 : (BlockStorage.content checksum (history (Backend.blockMemory hw checksum).log H
      (payload (vs ++ [v])) vs.length)).length < k)
    (h2 : k < (BlockStorage.content checksum (history (Backend.blockMemory hw checksum).log H
      (payload (vs ++ [v])) (vs.length + 1))).length) :
    Torn hw checksum H vs v ((BlockStorage.content checksum
      (history (Backend.blockMemory hw checksum).log H (payload (vs ++ [v]))
        (vs.length + 1))).take k) := by
  have hvs := h.take vs.length
  rw [List.take_left] at hvs
  rw [Backend.Holds, List.length_append, List.length_singleton] at h
  obtain ⟨s, hreach⟩ := exists_reaches 0 hvs
  have hof := hreach.slateOf.congr fun k h1 h2 => payload_append_left [v] h1 h2
  obtain ⟨s', happend, hof'⟩ :=
    hof.append_ok (h.payload_le _ (Nat.le_add_left 1 _) (Nat.le_refl _)) h.room
  rw [payload_concat] at happend
  have hs : storedBytes s = BlockStorage.content checksum
      (history (Backend.blockMemory hw checksum).log H (payload (vs ++ [v])) vs.length) :=
    congrArg (fun st : BlockStorage memoryDevice => st.device.buffer) hof.storage_eq
  have hs' : storedBytes s' = BlockStorage.content checksum
      (history (Backend.blockMemory hw checksum).log H (payload (vs ++ [v])) (vs.length + 1)) :=
    congrArg (fun st : BlockStorage memoryDevice => st.device.buffer) hof'.storage_eq
  rw [← hs] at h1
  rw [← hs'] at h2 ⊢
  refine ⟨0, s, s', _, hreach, happend, ?_, ?_, List.take_prefix _ _⟩
  · rwa [List.length_take_of_le h2.le]
  · rwa [List.length_take_of_le h2.le]

/-- A payload in which the record of an entry of another slate is found. -/
def forging : Bytes := record seven (entryOf tinyBlock.log byteSum (payload [[42]]) 1) ++ [0]

/-- A slate with an empty payload appends this one; the write is cut behind the record. -/
def forged : Bytes :=
  (BlockStorage.content seven (history tinyBlock.log byteSum (payload [[], forging]) 2)).take 89

theorem torn_forged : Torn (w := 1) (by decide) seven byteSum [[]] forging forged :=
  @Torn.of_take 1 _ _ _ [[]] _ _ (holds_of_length_lt tinyBlock (by decide) (by decide +kernel))
    (by decide +kernel) (by decide +kernel)

theorem torn_detected_iff_forged :
    Detected (w := 1) (by decide) seven forged ↔ ¬Misleading 1 seven forged :=
  torn_detected_iff (List.cons_ne_nil _ _) torn_forged

/-- **An entry may be found that was never appended.** -/
theorem not_torn_detected : Torn (w := 1) (by decide) seven byteSum [[]] forging forged ∧
    (boot memoryDevice seven ⟨false, forged, 0⟩).1 = .ok ((some (twoEntries 1), 4),
      (some (entryAt byteSum (payload [[42]]) (fun _ => 62) 1), forged.length)) :=
  ⟨torn_forged, by decide +kernel⟩

end Torn

end StratifiedHashTree
