import StratifiedHashTree.Records

/-!
# Garbled records

One byte of a record is replaced by another one. Some bytes of an entry tell how long it is: the one
with the number of its nodes, and the four with the length of its payload. Every other byte leaves
the reader at the end of the entry, where it finds the length it expects, and the checksum of what
was written. So it reports an error, unless the checksum of what it has read is the same; and when
the length is garbled, it may also have found another record, of another length
(`StratifiedHashTree.garbled_noticed`).
-/

namespace StratifiedHashTree

open Outcome

variable {w : ℕ}

/-! ### Lengths -/

/-- How long an entry is, from the bytes that tell it. -/
def encodedLength (w : ℕ) (bytes : Bytes) : ℕ :=
  let nodes := ofLeBytes ((bytes.drop 8).take 1) * (18 + w)
  9 + nodes + (4 + ofLeBytes ((bytes.drop (9 + nodes)).take 4) % 2 ^ 31 + w)

/-- A field in the middle of some bytes. -/
theorem take_drop_field {head field rest : Bytes} {a k : ℕ} (ha : head.length = a)
    (hk : field.length = k) : ((head ++ (field ++ rest)).drop a).take k = field := by
  rw [List.drop_left' ha, List.take_left' hk]

/-- What the length is told by. -/
theorem encodedLength_append {index count nodes size rest : Bytes} (hindex : index.length = 8)
    (hcount : count.length = 1) (hnodes : nodes.length = ofLeBytes count * (18 + w))
    (hsize : size.length = 4) :
    encodedLength w (index ++ (count ++ (nodes ++ (size ++ rest)))) =
      9 + nodes.length + (4 + ofLeBytes size % 2 ^ 31 + w) := by
  have hhead : (index ++ (count ++ nodes)).length = 9 + ofLeBytes count * (18 + w) := by
    rw [List.length_append, List.length_append, hindex, hcount, hnodes]
    omega
  have h2 : ((index ++ (count ++ nodes) ++ (size ++ rest)).drop
      (9 + ofLeBytes count * (18 + w))).take 4 = size := take_drop_field hhead hsize
  rw [List.append_assoc, List.append_assoc] at h2
  rw [encodedLength]
  simp only [take_drop_field hindex hcount, h2, hnodes]

/-- **The bytes of an entry tell their length**, whatever comes behind them. -/
theorem IsEncoding.encodedLength_eq {body : Bytes} (h : IsEncoding w body) (rest : Bytes) :
    encodedLength w (body ++ rest) = body.length := by
  obtain @⟨index, count, size, payload, hash, inodes, hindex, hcount, hinodes, hnode, hsize,
    hpayload, hhash⟩ := h
  have hflat : inodes.flatten.length = ofLeBytes count * (18 + w) := by
    rw [← hinodes]
    clear hinodes
    induction inodes with
    | nil => simp
    | cons inode inodes ih =>
      have h1 := hnode inode List.mem_cons_self
      have h2 := ih fun x hx => hnode x (List.mem_cons_of_mem _ hx)
      rw [List.flatten_cons, List.length_append, h2, List.length_cons, Nat.succ_mul]
      omega
  simp only [List.append_assoc]
  rw [encodedLength_append hindex hcount hflat hsize]
  simp only [List.length_append, hindex, hcount, hsize, hpayload, hhash]
  omega

/-- Bytes are cut into pieces of one length. -/
theorem exists_pieces (d : ℕ) : ∀ (count : ℕ) (bytes : Bytes), bytes.length = count * d →
    ∃ pieces : List Bytes, pieces.length = count ∧ (∀ piece ∈ pieces, piece.length = d) ∧
      pieces.flatten = bytes
  | 0, bytes, h => by
    rw [Nat.zero_mul, List.length_eq_zero_iff] at h
    exact ⟨[], rfl, fun _ hmem => absurd hmem List.not_mem_nil, h.symm⟩
  | count + 1, bytes, h => by
    rw [Nat.succ_mul] at h
    have hrest : (bytes.drop d).length = count * d := by
      rw [List.length_drop]
      omega
    obtain ⟨pieces, h1, h2, h3⟩ := exists_pieces d count _ hrest
    refine ⟨bytes.take d :: pieces, by rw [List.length_cons, h1], fun piece hmem => ?_, ?_⟩
    · rcases List.mem_cons.mp hmem with rfl | hmem
      · exact List.length_take_of_le (by omega)
      · exact h2 piece hmem
    · rw [List.flatten_cons, h3, List.take_append_drop]

/-- The front of some bytes. -/
theorem exists_front {bytes : Bytes} {k : ℕ} (h : k ≤ bytes.length) :
    ∃ front rest, bytes = front ++ rest ∧ front.length = k :=
  ⟨_, _, (List.take_append_drop k bytes).symm, List.length_take_of_le h⟩

/-- Bytes that are as long as they tell are those of an entry. -/
theorem isEncoding_of_length {body : Bytes} (h : body.length = encodedLength w body) :
    IsEncoding w body := by
  have hle : 13 ≤ body.length := by
    rw [h, encodedLength]
    omega
  -- the fields, from the front
  obtain ⟨index, t1, rfl, hindex⟩ := exists_front (show 8 ≤ body.length by omega)
  rw [List.length_append] at hle
  obtain ⟨count, t2, rfl, hcount⟩ := exists_front (show 1 ≤ t1.length by omega)
  have h2 : ofLeBytes count * (18 + w) + 4 ≤ t2.length := by
    rw [encodedLength] at h
    simp only [take_drop_field hindex hcount, List.length_append] at h
    omega
  obtain ⟨nodes, t3, rfl, hnodes⟩ :=
    exists_front (show ofLeBytes count * (18 + w) ≤ t2.length by omega)
  rw [List.length_append] at h2
  obtain ⟨size, t4, rfl, hsize⟩ := exists_front (show 4 ≤ t3.length by omega)
  rw [encodedLength_append hindex hcount hnodes hsize] at h
  simp only [List.length_append] at h
  obtain ⟨payload, hash, rfl, hpayload⟩ :=
    exists_front (show ofLeBytes size % 2 ^ 31 ≤ t4.length by omega)
  rw [List.length_append] at h
  obtain ⟨inodes, h3, h4, rfl⟩ := exists_pieces _ _ _ hnodes
  have hencoding := IsEncoding.mk hindex hcount h3 (fun x hx => by rw [h4 x hx]) hsize hpayload
    (show hash.length = w by omega)
  simpa only [List.append_assoc] using hencoding

/-- **The bytes of an entry are those that are as long as they tell.** -/
theorem isEncoding_iff {body : Bytes} : IsEncoding w body ↔ body.length = encodedLength w body := by
  refine ⟨fun h => ?_, isEncoding_of_length⟩
  have h1 := h.encodedLength_eq []
  rw [List.append_nil] at h1
  exact h1.symm

/-! ### One byte -/

/-- Bytes outside a field are not seen by it. -/
theorem take_drop_set {bytes : Bytes} {a k i : ℕ} (b : UInt8) (h : i < a ∨ a + k ≤ i) :
    ((bytes.set i b).drop a).take k = (bytes.drop a).take k := by
  refine List.ext_getElem? fun m => ?_
  by_cases hm : m < k
  · rw [List.getElem?_take_of_lt hm, List.getElem?_take_of_lt hm, List.getElem?_drop,
      List.getElem?_drop, List.getElem?_set_ne (by omega)]
  · rw [List.getElem?_eq_none (by rw [List.length_take]; omega),
      List.getElem?_eq_none (by rw [List.length_take]; omega)]

/-- **The bytes that tell how long an entry is**: the number of its nodes, and the length of its
payload. -/
def TellsLength (w : ℕ) (e : Entry w) (i : ℕ) : Prop :=
  i = 8 ∨ (9 + e.inodes.length * (18 + w) ≤ i ∧ i < 9 + e.inodes.length * (18 + w) + 4)

/-- The bytes of an entry. -/
theorem isEncoding_encodeEntry {e : Entry w} {p : Position} (he : e.Placed p) :
    IsEncoding w (encodeEntry e) := by
  have hcount : ofLeBytes (leBytes 1 e.inodes.length) = e.inodes.length :=
    ofLeBytes_leBytes (lt_of_le_of_lt he.inodes_le (by decide))
  have hsize : ofLeBytes (leBytes 4 e.enode.payload.length) = e.enode.payload.length :=
    ofLeBytes_leBytes (lt_of_le_of_lt he.payload_le (by decide))
  rw [encodeEntry, List.flatMap_def]
  refine .mk (length_leBytes 8 _) (length_leBytes 1 _) ?_ ?_ (length_leBytes 4 _) ?_
    e.enode.metaInfo.hash.length_value
  · rw [hcount, List.length_map]
  · intro bytes hmem
    obtain ⟨inode, -, rfl⟩ := List.mem_map.mp hmem
    rw [length_encodeInode]
  · have hle := he.payload_le
    rw [hsize, Nat.mod_eq_of_lt (lt_of_le_of_lt hle (by decide))]

/-- A byte that does not tell the length of an entry leaves it as it is. -/
theorem encodedLength_set {e : Entry w} {p : Position} (he : e.Placed p) {i : ℕ}
    (hi : ¬TellsLength w e i) (b : UInt8) (rest : Bytes) :
    encodedLength w ((encodeEntry e ++ rest).set i b) = (encodeEntry e).length := by
  have hcount : ofLeBytes (leBytes 1 e.inodes.length) = e.inodes.length :=
    ofLeBytes_leBytes (lt_of_le_of_lt he.inodes_le (by decide))
  rw [TellsLength, not_or, not_and_or] at hi
  have h1 : ((encodeEntry e ++ rest).drop 8).take 1 = leBytes 1 e.inodes.length := by
    simp only [encodeEntry, List.append_assoc]
    exact take_drop_field (length_leBytes 8 _) (length_leBytes 1 _)
  have h2 : (((encodeEntry e ++ rest).set i b).drop 8).take 1 = leBytes 1 e.inodes.length := by
    rw [take_drop_set b (by omega), h1]
  rw [← (isEncoding_encodeEntry he).encodedLength_eq rest, encodedLength, encodedLength]
  simp only [h1, h2, hcount]
  rw [take_drop_set b (by omega)]

/-- **The checksum does not see that a byte of an entry was replaced.** -/
def Collides (checksum : Checksum) (e : Entry w) (i : ℕ) (b : UInt8) : Prop :=
  i < (encodeEntry e).length ∧ checksum ((checkedBytes e).set i b) = checksum (checkedBytes e)

/-! ### The record -/

section Record

variable {checksum : Checksum} {e : Entry w} {p : Position} {i : ℕ} {b : UInt8}

/-- The record of an entry is its bytes, and the delimiter. -/
theorem record_eq_delimited (checksum : Checksum) (e : Entry w) :
    record checksum e = encodeEntry e ++ delimiter checksum (encodeEntry e) := by
  rw [record, checkedBytes, delimiter, List.append_assoc]

/-- A byte of the entry is replaced. -/
theorem record_set (hi : i < (encodeEntry e).length) : (record checksum e).set i b =
    (encodeEntry e).set i b ++ delimiter checksum (encodeEntry e) := by
  rw [record_eq_delimited, List.set_append_left _ _ hi]

/-- The checksum is the only thing in a delimiter that sees more than a length. -/
theorem delimiter_eq_iff {body : Bytes} (hlen : body.length = (encodeEntry e).length) :
    delimiter checksum body = delimiter checksum (encodeEntry e) ↔
      checksum (body ++ leBytes 4 (encodeEntry e).length) = checksum (checkedBytes e) := by
  rw [delimiter, delimiter, hlen, List.append_cancel_left_eq, ← checkedBytes]
  constructor
  · intro h
    have h1 := congrArg ofLeBytes h
    rw [ofLeBytes_leBytes (UInt64.toNat_lt _), ofLeBytes_leBytes (UInt64.toNat_lt _)] at h1
    exact UInt64.toNat_inj.mp h1
  · intro h
    rw [h]

/-- A delimiter follows from what comes before it, so no byte of it is garbled. -/
theorem ne_set_delimiter (hi : i < (record checksum e).length) (hb : b ≠ (record checksum e)[i])
    (hout : (encodeEntry e).length ≤ i) {body : Bytes}
    (hlen : body.length = (encodeEntry e).length) :
    body ++ delimiter checksum body ≠ (record checksum e).set i b := by
  intro h
  have hset : (record checksum e).set i b = encodeEntry e ++
      (delimiter checksum (encodeEntry e)).set (i - (encodeEntry e).length) b := by
    rw [record_eq_delimited, List.set_append_right _ _ hout]
  have hbody : body = encodeEntry e := List.append_inj_left (h.trans hset) hlen
  have hself : record checksum e = (record checksum e).set i b := by
    rw [← h, hbody, record_eq_delimited]
  have hget : (record checksum e)[i]? = some b := by
    rw [hself, List.getElem?_set_self hi]
  exact hb ((List.getElem_eq_iff hi).mpr hget).symm

/-- **Records that begin with a garbled one.** Either the checksum does not see it, or the length is
another one. -/
theorem wellFormed_set_cases (he : e.Placed p) (hi : i < (record checksum e).length)
    (hb : b ≠ (record checksum e)[i]) {bytes post : Bytes}
    (hbytes : bytes <+: (record checksum e).set i b ++ post) (h : WellFormed w checksum bytes) :
    Collides checksum e i b ∨
      TellsLength w e i ∧ bytes.length ≠ (record checksum e).length := by
  have hrecord := record_eq_delimited checksum e
  obtain ⟨body, hbody, hdelimited⟩ := h
  replace hdelimited : bytes = body ++ delimiter checksum body := hdelimited
  have hlen : bytes.length = body.length + 12 := by
    rw [hdelimited, List.length_append, length_delimiter]
  have hlen' : (record checksum e).length = (encodeEntry e).length + 12 := length_record checksum e
  by_cases heq : bytes.length = (record checksum e).length
  · -- the record has the length that it had before
    have hsame : bytes = (record checksum e).set i b := by
      refine List.IsPrefix.eq_of_length ?_ (by rw [heq, List.length_set])
      exact List.prefix_of_prefix_length_le hbytes (List.prefix_append _ _)
        (by rw [heq, List.length_set])
    rw [hdelimited] at hsame
    have hin : i < (encodeEntry e).length := by
      by_contra hout
      exact ne_set_delimiter hi hb (Nat.le_of_not_lt hout) (by omega) hsame
    rw [record_set hin] at hsame
    obtain ⟨h1, h2⟩ := List.append_inj hsame (by rw [List.length_set]; omega)
    refine Or.inl ⟨hin, ?_⟩
    rw [checkedBytes, List.set_append_left _ _ hin, ← h1, ← checkedBytes]
    exact (delimiter_eq_iff (by omega)).mp h2
  · refine Or.inr ⟨?_, heq⟩
    by_contra htells
    obtain ⟨rest, hrest⟩ := hbytes
    have h1 := hbody.encodedLength_eq (delimiter checksum body ++ rest)
    have h2 := encodedLength_set he htells b (delimiter checksum (encodeEntry e) ++ post)
    rw [← List.append_assoc, ← hrecord, List.set_append_left _ _ hi, ← hrest, hdelimited,
      List.append_assoc, h1] at h2
    omega

/-- A record whose checksum does not see the garbled byte is one. -/
theorem wellFormed_set (he : e.Placed p) (htells : ¬TellsLength w e i)
    (h : Collides checksum e i b) : WellFormed w checksum ((record checksum e).set i b) := by
  obtain ⟨hi, hsum⟩ := h
  have hlen : ((encodeEntry e).set i b).length = (encodeEntry e).length := List.length_set
  refine ⟨(encodeEntry e).set i b, isEncoding_iff.mpr ?_, ?_⟩
  · have h1 := encodedLength_set he htells b []
    rw [List.append_nil] at h1
    rw [h1, hlen]
  · rw [checkedBytes, List.set_append_left _ _ hi, ← checkedBytes] at hsum
    rw [record_set hi, ← (delimiter_eq_iff hlen).mpr hsum]
    rfl

end Record

/-- **A garbled byte is noticed.** One byte of the record of an entry is replaced by another one,
whatever comes behind the record, on any device that keeps its content. Reading it reports an error,
unless the checksum does not see the change, or the byte tells how long the entry is and a record of
another length begins there; and where the byte does not tell the length, it is exactly so. -/
theorem garbled_noticed {D : BlockDevice} {K : Disk D} (hall : K.ReadsAll) (hw : w ≤ 64)
    {checksum : Checksum} {e : Entry w} {p : Position} (he : e.Placed p) {i : ℕ}
    (hi : i < (record checksum e).length) {b : UInt8} (hb : b ≠ (record checksum e)[i])
    {buffer post : Bytes} (hbuffer : buffer.length < 2 ^ 63) {q : ℕ}
    (hdrop : buffer.drop q = (record checksum e).set i b ++ post) (ro : Bool) :
    let outcome := (readData (w := w) D checksum p (K.state ro buffer q)).1
    ((∃ error, outcome = err error) ∨ Collides checksum e i b ∨
      TellsLength w e i ∧ ∃ bytes, bytes <+: buffer.drop q ∧ WellFormed w checksum bytes ∧
        bytes.length ≠ (record checksum e).length) ∧
    (¬TellsLength w e i → ((∃ error, outcome = err error) ↔ ¬Collides checksum e i b)) := by
  rcases readData_cases (w := w) hall hw checksum hbuffer p ro q with
    ⟨e', bytes, rest, h1, hrecord, hread⟩ | ⟨⟨error, hread⟩, hnone⟩
  · have hbytes : bytes <+: buffer.drop q := ⟨rest, h1.symm⟩
    have hwell := (wellFormed_iff checksum p bytes).mpr ⟨e', hrecord⟩
    have hcases := wellFormed_set_cases he hi hb (hdrop ▸ hbytes) hwell
    rw [hread]
    constructor
    · exact Or.inr (hcases.imp_right fun ⟨h2, h3⟩ => ⟨h2, bytes, hbytes, hwell, h3⟩)
    · intro htells
      refine iff_of_false ?_ (not_not.mpr (hcases.resolve_right fun h2 => htells h2.1))
      rintro ⟨error, herror⟩
      exact absurd herror (by simp [err])
  · rw [hread]
    constructor
    · exact Or.inl ⟨error, rfl⟩
    · intro htells
      refine iff_of_true ⟨error, rfl⟩ fun hcollides => ?_
      obtain ⟨e', he'⟩ := (wellFormed_iff checksum p _).mp (wellFormed_set he htells hcollides)
      exact hnone e' _ post hdrop he'

/-- A checksum for testing: the sum of the bytes. -/
def sumOfBytes : Checksum := fun bytes => UInt64.ofNat (bytes.map UInt8.toNat).sum

/-- The second byte of a payload becomes a `9`. -/
theorem garbled_noticed_second :
    ∃ error, (readData (w := 1) memoryDevice sumOfBytes 40 (MemoryDevice.disk.state true
      ((record sumOfBytes secondEntry).set 33 9) 0)).1 = err error := by
  have he : secondEntry.Placed 40 :=
    modelled_secondEntry.placed (by decide) (by decide) (by decide)
  have hi : 33 < (record sumOfBytes secondEntry).length := by decide
  have hget : (record sumOfBytes secondEntry)[33] = 2 :=
    (List.getElem_eq_iff hi).mpr (by decide)
  have hlen : ((record sumOfBytes secondEntry).set 33 9).length < 2 ^ 63 := by
    rw [List.length_set]
    exact lt_trans (length_record_lt (by decide) sumOfBytes he) (by decide)
  have hdrop : ((record sumOfBytes secondEntry).set 33 9).drop 0 =
      (record sumOfBytes secondEntry).set 33 9 ++ [] := by
    rw [List.drop_zero, List.append_nil]
  -- it tells no length, and the sum sees it
  have htells : ¬TellsLength 1 secondEntry 33 := by
    unfold TellsLength
    decide
  have hsees : ¬Collides sumOfBytes secondEntry 33 9 := by
    unfold Collides
    decide
  exact ((garbled_noticed MemoryDevice.readsAll (by decide) he hi (by rw [hget]; decide) hlen hdrop
    true).2 htells).mpr hsees

end StratifiedHashTree
