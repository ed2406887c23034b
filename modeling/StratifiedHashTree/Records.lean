import StratifiedHashTree.Decoding
import StratifiedHashTree.History

/-!
# What is written, and what is accepted

The codec from its two ends.

From the writer's: an entry that an append can build has the nodes that the model of its
generation names (`StratifiedHashTree.Entry.Modelled`); its hashes, the positions on the left,
its payload and its own position may be anything. Its record is as long as the writer says,
and the reader gets back every field, also those that are not in the record
(`StratifiedHashTree.entry_round_trip`).

From the reader's: bytes are accepted when they are cut into fields whose lengths fit each other
(`StratifiedHashTree.IsEncoding`), followed by their number and the right checksum. The contents
of the fields do not matter, the order of their bytes does: no two records begin the same bytes,
and nothing else is accepted (`StratifiedHashTree.accepts_exactly`).
-/

namespace StratifiedHashTree

open Outcome Formula FormulaTree

variable {w : ℕ}

/-! ### Entries that an append can build -/

/-- An intermediate node that the model names, at a position. The hash and the position on the left
may be anything. -/
structure INode.Modelled (position : Position) (node : Formula.INode) (inode : INode w) : Prop where
  address_eq : inode.metaInfo.address = ⟨node.node.i, node.node.j, position⟩
  left_i : inode.left.i = node.left.i
  left_j : inode.left.j = node.left.j
  left_position_lt : inode.left.position < 2 ^ 64
  right_eq : inode.right = ⟨node.right.i, node.right.j, position⟩

/-- **An entry that an append can build** for an index, at a position. -/
structure Entry.Modelled (i : Index) (position : Position) (e : Entry w) : Prop where
  address_eq : e.enode.metaInfo.address = ⟨i, 0, position⟩
  payload_le : e.enode.payload.length ≤ MAX_PAYLOAD_SIZE
  inodes : ∃ model nodes, Model.new i = .ok model ∧ model.inodes = .ok nodes ∧
    List.Forall₂ (INode.Modelled position) nodes e.inodes

/-- Nodes on a spine are chained, whatever their hashes are. -/
theorem chained_modelled {p : Position} {t : Tree} (ht : t.LeftPerfect) : t.hi < 2 ^ 64 →
    ∀ (inodes rest : List (INode w)),
      List.Forall₂ (INode.Modelled p) (t.spine.map spineNode) inodes →
      Chained t.hi p t.height rest → Chained t.hi p 0 (inodes.reverse ++ rest) := by
  induction ht with
  | leaf =>
    intro _ inodes rest h hrest
    cases h
    exact hrest
  | @node l r hl hr hp hle ha hd _ ihr =>
    have hlr : (Tree.node l r).LeftPerfect := .node hl hr hp hle ha hd
    intro hb inodes rest h hrest
    have h64 := height_le_64 hlr hb
    have hlt := hlr.hi_left_lt
    have hll := Tree.height_left_lt l r
    rw [Tree.hi_node] at hb hrest ⊢
    rw [Tree.spine_node, List.map_cons, List.forall₂_cons_left_iff] at h
    obtain ⟨inode, below, hnode, hbelow, rfl⟩ := h
    have hj : inode.metaInfo.address.j = (Tree.node l r).height := by
      rw [hnode.address_eq]
      rfl
    rw [List.reverse_cons, List.append_assoc, List.singleton_append]
    refine ihr hb below (inode :: rest) hbelow ⟨?_, ?_, ?_, hnode.left_position_lt, ?_, ?_,
      hnode.right_eq, ?_⟩
    · rw [hj]
      exact hnode.address_eq
    · rw [hj]
      omega
    · rw [hj]
      exact h64
    · rw [hnode.left_i]
      exact hlt.trans hb
    · rw [hnode.left_j]
      show l.height < 2 ^ 8
      omega
    · rw [hj]
      exact hrest

/-- **Such an entry is placed** at its position. -/
theorem Entry.Modelled.placed {i : Index} {p : Position} {e : Entry w} (h : e.Modelled i p)
    (h1 : 1 ≤ i) (hi : i < 2 ^ 64) (hp : p < 2 ^ 64) : e.Placed p := by
  obtain ⟨model, nodes, hmodel, hnodes, hall⟩ := h.inodes
  have hu := Tree.leftPerfect_upTo h1
  have hhi := Tree.hi_upTo h1
  have hindex : e.index = i := by rw [Entry.index, h.address_eq]
  rw [new_eq h1 hi, Except.ok.injEq] at hmodel
  subst hmodel
  rw [inodes_new h1 hi, Except.ok.injEq] at hnodes
  subst hnodes
  refine ⟨hindex ▸ hi, hp, by rw [hindex]; exact h.address_eq, h.payload_le, ?_, ?_⟩
  · have h2 := height_le_64 hu (by rwa [hhi])
    rw [← hall.length_eq, List.length_reverse, List.length_map]
    exact (length_spine_le _).trans h2
  · have hrev : List.Forall₂ (INode.Modelled p) ((Tree.upTo i).spine.map spineNode)
        e.inodes.reverse := List.forall₂_reverse_iff.mp (by rwa [List.reverse_reverse])
    have h2 := chained_modelled hu (by rwa [hhi]) _ [] hrev trivial
    rwa [List.append_nil, List.reverse_reverse, hhi, ← hindex] at h2

/-- **The entry codec round trip.** An entry that an append can build is written as so many bytes
as the writer returns and counts, and read back from them, whatever lies behind. -/
theorem entry_round_trip (hw : w ≤ 64) (checksum : Checksum) {i : Index} {p : Position} (h1 : 1 ≤ i)
    (hi : i < 2 ^ 64) (hp : p < 2 ^ 64) {e : Entry w} (h : e.Modelled i p) :
    ∃ (bytes : Bytes) (s : ChecksumWrite),
      writeData checksum e ChecksumWrite.new = (.ok bytes.length, s) ∧ s.output = bytes ∧
      s.offset = bytes.length ∧ bytes.length < 2 ^ 32 ∧
      ∀ {D : BlockDevice} (K : Disk D) (ro : Bool) (buffer : Bytes) (q : ℕ) (post : Bytes),
        buffer.drop q = bytes ++ post →
        readData D checksum p (K.state ro buffer q) =
          (.ok e, K.state ro buffer (q + bytes.length)) := by
  have hplaced := h.placed h1 hi hp
  refine ⟨record checksum e, _, writeData_run hw checksum hplaced, rfl, rfl,
    length_record_lt hw checksum hplaced, ?_⟩
  intro D K ro buffer q post hdrop
  exact readData_eq K hw checksum hplaced ro hdrop

/-- An entry of the second generation, with some hashes and some position on the left. -/
def secondEntry : Entry 1 where
  enode := { metaInfo := ⟨⟨2, 0, 40⟩, ⟨[5], rfl⟩⟩, payload := [1, 2, 3] }
  inodes := [{ metaInfo := ⟨⟨2, 1, 40⟩, ⟨[6], rfl⟩⟩, left := ⟨1, 0, 77⟩, right := ⟨2, 0, 40⟩ }]

theorem modelled_secondEntry : secondEntry.Modelled 2 40 where
  address_eq := rfl
  payload_le := by decide
  inodes := ⟨_, _, rfl, rfl, .cons ⟨rfl, rfl, rfl, by decide, rfl⟩ .nil⟩

theorem entry_round_trip_second : ∃ (bytes : Bytes) (s : ChecksumWrite),
    writeData (fun _ => 7) secondEntry ChecksumWrite.new = (.ok bytes.length, s) ∧
    s.output = bytes ∧ s.offset = bytes.length ∧ bytes.length < 2 ^ 32 ∧
    ∀ {D : BlockDevice} (K : Disk D) (ro : Bool) (buffer : Bytes) (q : ℕ) (post : Bytes),
      buffer.drop q = bytes ++ post →
      readData D (fun _ => 7) 40 (K.state ro buffer q) =
        (.ok secondEntry, K.state ro buffer (q + bytes.length)) :=
  entry_round_trip (by decide) (fun _ => 7) (by decide) (by decide) (by decide)
    modelled_secondEntry

/-! ### Bytes that are accepted -/

/-- **The bytes of an entry**: its index, the number of its nodes, so many nodes, the length of
its payload without the top bit, so many bytes, and the hash of the payload. -/
inductive IsEncoding (w : ℕ) : Bytes → Prop
  | mk {index count size payload hash : Bytes} {inodes : List Bytes} :
      index.length = 8 → count.length = 1 → inodes.length = ofLeBytes count →
      (∀ inode ∈ inodes, inode.length = 1 + 8 + 8 + 1 + w) → size.length = 4 →
      payload.length = ofLeBytes size % 2 ^ 31 → hash.length = w →
      IsEncoding w
        ((index ++ (count ++ inodes.flatten)) ++ (size ++ (payload ++ hash)))

/-- **The bytes of a record**: those of an entry, how many there are, and the checksum of all
this. -/
def WellFormed (w : ℕ) (checksum : Checksum) (bytes : Bytes) : Prop :=
  ∃ body, IsEncoding w body ∧ bytes = body ++ (leBytes 4 body.length ++
    leBytes 8 (checksum (body ++ leBytes 4 body.length)).toNat)

section Accepts

variable {α β : Type}

/-- A reader takes all of some bytes. -/
def Accepts (x : Run Bytes α) (bytes : Bytes) : Prop := ∃ a, x bytes = (.ok a, [])

/-- What two readers take, one after the other. -/
theorem accepts_bind {x : Run Bytes α} {f : α → Run Bytes β} (hx : Local x) {bytes : Bytes} :
    Accepts (x >>= f) bytes ↔
      ∃ head rest a, bytes = head ++ rest ∧ x head = (.ok a, []) ∧ Accepts (f a) rest := by
  constructor
  · rintro ⟨b, h⟩
    obtain ⟨a, rest, h1, h2⟩ := Prog.bind_eq_ok.mp h
    obtain ⟨head, rfl, h3⟩ := hx.consumes h1
    have h4 := h3 []
    rw [List.append_nil] at h4
    exact ⟨head, rest, a, rfl, h4, b, h2⟩
  · rintro ⟨head, rest, a, rfl, h1, b, h2⟩
    obtain ⟨head', h3, h4⟩ := hx.consumes h1
    rw [List.append_nil] at h3
    subst h3
    exact ⟨b, by rw [Prog.bind_ok (h4 rest), h2]⟩

theorem takeExact_eq_iff {k : ℕ} {bytes a : Bytes} :
    takeExact k bytes = (.ok a, []) ↔ bytes.length = k ∧ a = bytes := by
  rw [takeExact]
  by_cases hk : k ≤ bytes.length
  · rw [if_pos hk, Prod.mk.injEq, Except.ok.injEq, List.drop_eq_nil_iff]
    constructor
    · rintro ⟨rfl, h⟩
      exact ⟨le_antisymm h hk, List.take_of_length_le h⟩
    · rintro ⟨rfl, rfl⟩
      exact ⟨List.take_of_length_le (Nat.le_refl _), Nat.le_refl _⟩
  · rw [if_neg hk]
    constructor
    · intro h
      exact absurd (Prod.mk.inj h).1 (by simp [err])
    · rintro ⟨rfl, -⟩
      exact absurd (Nat.le_refl _) hk

/-- Taking so many bytes, and going on with them. -/
theorem accepts_take_bind {k : ℕ} {f : Bytes → Run Bytes β} {bytes : Bytes} :
    Accepts (takeExact k >>= f) bytes ↔
      ∃ head rest, bytes = head ++ rest ∧ head.length = k ∧ Accepts (f head) rest := by
  rw [accepts_bind (Local.takeExact k)]
  constructor
  · rintro ⟨head, rest, a, rfl, h1, h2⟩
    obtain ⟨h3, rfl⟩ := takeExact_eq_iff.mp h1
    exact ⟨_, rest, rfl, h3, h2⟩
  · rintro ⟨head, rest, rfl, h1, h2⟩
    exact ⟨head, rest, head, rfl, takeExact_eq_iff.mpr ⟨h1, rfl⟩, h2⟩

theorem accepts_pure (a : α) {bytes : Bytes} :
    Accepts (pure a : Run Bytes α) bytes ↔ bytes = [] := by
  constructor
  · rintro ⟨b, h⟩
    exact (Prod.mk.inj h).2
  · rintro rfl
    exact ⟨a, rfl⟩

/-- Going on with a value that takes nothing more. -/
theorem accepts_map {x : Run Bytes α} (hx : Local x) (f : α → β) {bytes : Bytes} :
    Accepts (x >>= fun a => pure (f a)) bytes ↔ Accepts x bytes := by
  rw [accepts_bind hx]
  constructor
  · rintro ⟨head, rest, a, rfl, h1, h2⟩
    rw [(accepts_pure _).mp h2, List.append_nil]
    exact ⟨a, h1⟩
  · rintro ⟨a, h⟩
    exact ⟨bytes, [], a, (List.append_nil _).symm, h, (accepts_pure _).mpr rfl⟩

/-- The first bytes of a field are taken. -/
theorem accepts_take_of_le {α : Type} {k : ℕ} {bytes rest : Bytes} {f : Bytes → Run Bytes α}
    (hk : k ≤ bytes.length) (h : Accepts (f (bytes.take k)) (bytes.drop k ++ rest)) :
    Accepts (takeExact k >>= f) (bytes ++ rest) := by
  refine accepts_take_bind.mpr ⟨bytes.take k, bytes.drop k ++ rest, ?_, ?_, h⟩
  · rw [← List.append_assoc, List.take_append_drop]
  · exact List.length_take_of_le hk

/-- So many nodes. -/
theorem accepts_readInodes (i : Index) (position : Position) (count rightJ : ℕ) (bytes : Bytes) :
    Accepts (readInodes (w := w) takeExact i position count rightJ) bytes ↔
      ∃ inodes : List Bytes, inodes.length = count ∧
        (∀ inode ∈ inodes, inode.length = 1 + 8 + 8 + 1 + w) ∧ bytes = inodes.flatten := by
  induction count generalizing rightJ bytes with
  | zero =>
    rw [readInodes, accepts_pure]
    constructor
    · rintro rfl
      exact ⟨[], rfl, fun _ h => absurd h List.not_mem_nil, rfl⟩
    · rintro ⟨inodes, h1, -, rfl⟩
      rw [List.length_eq_zero_iff.mp h1]
      rfl
  | succ count ih =>
    rw [readInodes]
    constructor
    · intro h
      obtain ⟨b, t1, rfl, hb, h⟩ := accepts_take_bind.mp h
      obtain ⟨leftPosition, t2, rfl, hp, h⟩ := accepts_take_bind.mp h
      obtain ⟨leftI, t3, rfl, hi, h⟩ := accepts_take_bind.mp h
      obtain ⟨leftJ, t4, rfl, hj, h⟩ := accepts_take_bind.mp h
      obtain ⟨hash, t5, rfl, hh, h⟩ := accepts_take_bind.mp h
      obtain ⟨inodes, h1, h2, rfl⟩ := (ih _ t5).mp
        ((accepts_map (local_readInodes i position count _) _).mp h)
      refine ⟨(b ++ (leftPosition ++ (leftI ++ (leftJ ++ hash)))) :: inodes, ?_, ?_, ?_⟩
      · rw [List.length_cons, h1]
      · rintro inode hmem
        rcases List.mem_cons.mp hmem with rfl | hmem
        · simp only [List.length_append, hb, hp, hi, hj, hh]
          omega
        · exact h2 inode hmem
      · simp only [List.flatten_cons, List.append_assoc]
    · rintro ⟨inodes, h1, h2, rfl⟩
      obtain ⟨inode, inodes, rfl⟩ := List.exists_cons_of_length_eq_add_one h1
      have hlen := h2 inode List.mem_cons_self
      have hrest := (ih ((ofLeBytes (inode.take 1) &&& (INDEX_SIZE - 1)) + 1) inodes.flatten).mpr
        ⟨inodes, Nat.succ.inj h1, fun x hx => h2 x (List.mem_cons_of_mem _ hx), rfl⟩
      rw [List.flatten_cons]
      refine accepts_take_of_le (k := 1) (by omega) (accepts_take_of_le (k := 8) ?_
        (accepts_take_of_le (k := 8) ?_ (accepts_take_of_le (k := 1) ?_ ?_)))
      · rw [List.length_drop]
        omega
      · rw [List.length_drop, List.length_drop]
        omega
      · rw [List.length_drop, List.length_drop, List.length_drop]
        omega
      · refine accepts_take_bind.mpr ⟨_, inodes.flatten, rfl, ?_, ?_⟩
        · rw [List.length_drop, List.length_drop, List.length_drop, List.length_drop]
          omega
        · exact (accepts_map (local_readInodes i position count _) _).mpr hrest

/-- **An entry is decoded from its bytes only**, and from all of them. -/
theorem accepts_decodeEntry (position : Position) (body : Bytes) :
    Accepts (decodeEntry (w := w) position) body ↔ IsEncoding w body := by
  have hinodes : Local (readInodesFrom (w := w) takeExact position) := by
    rw [readInodesFrom]
    exact (Local.takeExact 8).bind fun i => (Local.takeExact 1).bind fun count =>
      (local_readInodes _ position _ 0).bind fun inodes => .pure _
  rw [decodeEntry, readEntryFrom, accepts_bind hinodes]
  constructor
  · rintro ⟨head, rest, x, rfl, h1, h⟩
    obtain ⟨index, t1, rfl, hindex, h2⟩ := accepts_take_bind.mp ⟨x, h1⟩
    obtain ⟨count, t2, rfl, hcount, h3⟩ := accepts_take_bind.mp h2
    obtain ⟨inodes, h4, h5, rfl⟩ := (accepts_readInodes _ _ _ _ t2).mp
      ((accepts_map (local_readInodes _ position _ 0) _).mp h3)
    obtain ⟨size, t3, rfl, hsize, h6⟩ := accepts_take_bind.mp h
    obtain ⟨payload, t4, rfl, hpayload, h7⟩ := accepts_take_bind.mp h6
    obtain ⟨hash, t5, rfl, hhash, h8⟩ := accepts_take_bind.mp h7
    rw [(accepts_pure _).mp h8, List.append_nil]
    refine .mk hindex hcount h4 h5 hsize ?_ hhash
    rw [hpayload]
    exact Nat.and_two_pow_sub_one_eq_mod _ 31
  · rintro @⟨index, count, size, payload, hash, inodes, hindex, hcount, h4, h5, hsize, hpayload,
      hhash⟩
    have hnodes : Accepts (readInodesFrom (w := w) takeExact position)
        (index ++ (count ++ inodes.flatten)) := by
      refine accepts_take_bind.mpr ⟨index, _, rfl, hindex, ?_⟩
      refine accepts_take_bind.mpr ⟨count, _, rfl, hcount, ?_⟩
      exact (accepts_map (local_readInodes _ position _ 0) _).mpr
        ((accepts_readInodes _ _ _ _ _).mpr ⟨inodes, h4, h5, rfl⟩)
    obtain ⟨x, hx⟩ := hnodes
    refine ⟨_, _, x, rfl, hx, accepts_take_bind.mpr ⟨size, _, rfl, hsize, ?_⟩⟩
    refine accepts_take_bind.mpr ⟨payload, hash, rfl, ?_, ?_⟩
    · rw [hpayload]
      exact (Nat.and_two_pow_sub_one_eq_mod _ 31).symm
    · exact accepts_take_bind.mpr ⟨hash, [], (List.append_nil _).symm, hhash,
        (accepts_pure _).mpr rfl⟩

/-- **The records are the well-formed bytes.** -/
theorem wellFormed_iff (checksum : Checksum) (position : Position) (bytes : Bytes) :
    WellFormed w checksum bytes ↔ ∃ e : Entry w, IsRecord checksum position bytes e := by
  constructor
  · rintro ⟨body, hbody, rfl⟩
    obtain ⟨e, he⟩ := (accepts_decodeEntry position body).mpr hbody
    exact ⟨e, body, he, rfl⟩
  · rintro ⟨e, body, he, rfl⟩
    exact ⟨body, (accepts_decodeEntry position body).mp ⟨e, he⟩, rfl⟩

end Accepts

/-- What the checksum of a record is taken of: everything before it. -/
def checkedPart (bytes : Bytes) : Bytes := bytes.take (bytes.length - 8)

/-- A record carries the checksum of what lies before it. -/
theorem WellFormed.eq_checkedPart {checksum : Checksum} {bytes : Bytes}
    (h : WellFormed w checksum bytes) :
    bytes = checkedPart bytes ++ leBytes 8 (checksum (checkedPart bytes)).toNat := by
  obtain ⟨body, -, rfl⟩ := h
  have hpart : checkedPart (body ++ (leBytes 4 body.length ++
      leBytes 8 (checksum (body ++ leBytes 4 body.length)).toNat)) =
        body ++ leBytes 4 body.length := by
    rw [checkedPart, ← List.append_assoc]
    refine List.take_left' ?_
    simp only [List.length_append, length_leBytes]
    omega
  rw [hpart, List.append_assoc]

/-- Only one record begins the bytes. -/
theorem WellFormed.unique {checksum : Checksum} {bytes r r' : Bytes} (hr : r <+: bytes)
    (hr' : r' <+: bytes) (h : WellFormed w checksum r) (h' : WellFormed w checksum r') :
    r = r' := by
  obtain ⟨post, h1⟩ := hr
  obtain ⟨post', h2⟩ := hr'
  obtain ⟨e, he⟩ := (wellFormed_iff checksum 0 r).mp h
  obtain ⟨e', he'⟩ := (wellFormed_iff checksum 0 r').mp h'
  exact (he.unique he' (h1.trans h2.symm)).1

/-- The cursor shows how much was consumed. -/
theorem Disk.eq_of_state_eq {D : BlockDevice} (K : Disk D) {ro : Bool} {buffer r r' : Bytes} {q : ℕ}
    (hbuffer : buffer.length < 2 ^ 63) (hq : q ≤ buffer.length) (hr : r <+: buffer.drop q)
    (hr' : r' <+: buffer.drop q)
    (h : K.state ro buffer (q + r.length) = K.state ro buffer (q + r'.length)) : r = r' := by
  have hlt : ∀ t, t <+: buffer.drop q → q + t.length < 2 ^ 63 := by
    intro t ht
    have hle := ht.length_le
    rw [List.length_drop] at hle
    omega
  have hposition := K.streamPosition_eq ro buffer (hlt r hr)
  rw [h, K.streamPosition_eq ro buffer (hlt r' hr'), Prod.mk.injEq, Except.ok.injEq] at hposition
  have hlen : r.length = r'.length := (Nat.add_left_cancel hposition.1).symm
  exact (List.prefix_of_prefix_length_le hr hr' hlen.le).eq_of_length hlen

/-- What is read is a record. -/
theorem readData_iff_wellFormed {D : BlockDevice} {K : Disk D} (hall : K.ReadsAll) (hw : w ≤ 64)
    (checksum : Checksum) {buffer r : Bytes} (hbuffer : buffer.length < 2 ^ 63) {q : ℕ}
    (hq : q ≤ buffer.length) (position : Position) (ro : Bool) (hr : r <+: buffer.drop q) :
    (∃ e : Entry w, readData D checksum position (K.state ro buffer q) =
      (.ok e, K.state ro buffer (q + r.length))) ↔ WellFormed w checksum r := by
  rcases readData_cases hall hw checksum hbuffer position ro q with
    ⟨e, bytes, post, hdrop, hrecord, hread⟩ | ⟨⟨error, hread⟩, hno⟩
  · have hbytes : WellFormed w checksum bytes :=
      (wellFormed_iff checksum position bytes).mpr ⟨e, hrecord⟩
    constructor
    · rintro ⟨e', hread'⟩
      rw [hread] at hread'
      have heq := K.eq_of_state_eq hbuffer hq ⟨post, hdrop.symm⟩ hr (Prod.mk.inj hread').2
      rwa [← heq]
    · intro hr'
      rw [WellFormed.unique hr ⟨post, hdrop.symm⟩ hr' hbytes]
      exact ⟨e, hread⟩
  · constructor
    · rintro ⟨e', hread'⟩
      rw [hread'] at hread
      exact absurd hread (by simp [err])
    · intro hr'
      obtain ⟨e, he⟩ := (wellFormed_iff checksum position r).mp hr'
      obtain ⟨post, hpost⟩ := hr
      exact absurd he (hno e r post hpost.symm)

/-- **Exactly the well-formed bytes are accepted.** What is read from a cursor is a record that
begins there, and there is only one; where none does, reading fails with an error. Two records
that differ do so before their checksums. -/
theorem accepts_exactly {D : BlockDevice} {K : Disk D} (hall : K.ReadsAll) (hw : w ≤ 64)
    (checksum : Checksum) {buffer : Bytes} (hbuffer : buffer.length < 2 ^ 63) {q : ℕ}
    (hq : q ≤ buffer.length) (position : Position) (ro : Bool) :
    (∀ r, r <+: buffer.drop q →
      ((∃ e : Entry w, readData D checksum position (K.state ro buffer q) =
        (.ok e, K.state ro buffer (q + r.length))) ↔ WellFormed w checksum r)) ∧
    (∀ r r', r <+: buffer.drop q → r' <+: buffer.drop q → WellFormed w checksum r →
      WellFormed w checksum r' → r = r') ∧
    ((∀ r, r <+: buffer.drop q → ¬WellFormed w checksum r) →
      ∃ error, (readData (w := w) D checksum position (K.state ro buffer q)).1 = err error) ∧
    ∀ r r', WellFormed w checksum r → WellFormed w checksum r' → r ≠ r' →
      checkedPart r ≠ checkedPart r' ∧
      r = checkedPart r ++ leBytes 8 (checksum (checkedPart r)).toNat ∧
      r' = checkedPart r' ++ leBytes 8 (checksum (checkedPart r')).toNat := by
  refine ⟨fun r hr => readData_iff_wellFormed hall hw checksum hbuffer hq position ro hr,
    fun r r' hr hr' h1 h2 => WellFormed.unique hr hr' h1 h2, fun hnone => ?_,
    fun r r' h1 h2 hne => ?_⟩
  · rcases readData_cases hall hw checksum hbuffer position ro q with
      ⟨e, bytes, post, hdrop, hrecord, -⟩ | ⟨hread, -⟩
    · exact absurd ((wellFormed_iff checksum position bytes).mpr ⟨e, hrecord⟩)
        (hnone bytes ⟨post, hdrop.symm⟩)
    · exact hread
  · refine ⟨fun heq => hne ?_, h1.eq_checkedPart, h2.eq_checkedPart⟩
    rw [h1.eq_checkedPart, heq, ← h2.eq_checkedPart]

/-- A record of zeros, in memory. -/
theorem accepts_exactly_zeros : ∃ e : Entry 1,
    readData memoryDevice (fun _ => 7) 0 (MemoryDevice.disk.state true
      (List.replicate 14 0 ++ ([14, 0, 0, 0] ++ [7, 0, 0, 0, 0, 0, 0, 0])) 0) =
        (.ok e, MemoryDevice.disk.state true
          (List.replicate 14 0 ++ ([14, 0, 0, 0] ++ [7, 0, 0, 0, 0, 0, 0, 0])) (0 + 26)) := by
  have hbody : IsEncoding 1 (List.replicate 14 0) :=
    @IsEncoding.mk 1 (List.replicate 8 0) [0] [0, 0, 0, 0] [] [0] [] rfl rfl rfl
      (fun _ h => absurd h List.not_mem_nil) rfl rfl rfl
  exact ((accepts_exactly MemoryDevice.readsAll (by decide) (fun _ => 7) (by decide) (by decide) 0
    true).1 _ (List.prefix_refl _)).mpr ⟨_, hbody, rfl⟩

end StratifiedHashTree
