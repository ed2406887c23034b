import StratifiedHashTree.Circles
import StratifiedHashTree.Faults
import StratifiedHashTree.Fragile

/-!
# A truncation that fails too late

A truncation cuts the storage first, and replaces the position and the cache of the slate at the
end. If it fails in between, the slate goes on as if nothing had happened: the next append puts
its record where the old entries ended. On a device that has been cut this is behind the end, and
so there is a gap, which the device fills with zeros. The record is found when the storage is
opened again, but the one before it, to which it links, is in the gap; and a gap cannot be read
(`StratifiedHashTree.not_recordAt_zeros`).

A failed truncation leaves a slate that can be used if and only if it failed before the storage
was cut, or in cutting it (`StratifiedHashTree.consistent_iff`).
-/

namespace StratifiedHashTree

open Outcome Formula
open Prog (Looks)

variable {w : ℕ}

/-! ### Zeros -/

/-- Taking some of the zeros. -/
theorem takeExact_zeros {k m : ℕ} (h : k ≤ m) (post : Bytes) :
    takeExact k (List.replicate m 0 ++ post) =
      (.ok (List.replicate k 0), List.replicate (m - k) 0 ++ post) := by
  have hlen : (List.replicate m (0 : UInt8)).length = m := List.length_replicate
  rw [takeExact, if_pos (by rw [List.length_append, hlen]; omega),
    List.take_append_of_le_length (by rw [hlen]; exact h),
    List.drop_append_of_le_length (by rw [hlen]; exact h), List.take_replicate,
    List.drop_replicate, Nat.min_eq_left h]

theorem ofLeBytes_zeros (k : ℕ) : ofLeBytes (List.replicate k 0) = 0 := by
  induction k with
  | zero => rfl
  | succ k ih =>
    rw [List.replicate_succ, ofLeBytes, ih]
    rfl

/-- Zeros are decoded as an entry without nodes and without a payload. -/
theorem decodeEntry_zeros {m : ℕ} (hm : 13 + w ≤ m) (position : Position) (post : Bytes) :
    ∃ e : Entry w, decodeEntry position (List.replicate m 0 ++ post) =
      (.ok e, List.replicate (m - (13 + w)) 0 ++ post) := by
  have hinodes : readInodesFrom (w := w) takeExact position (List.replicate m 0 ++ post) =
      (.ok (0, []), List.replicate (m - 9) 0 ++ post) := by
    rw [readInodesFrom, Prog.bind_ok (takeExact_zeros (k := 8) (by omega) post),
      Prog.bind_ok (takeExact_zeros (k := 1) (by omega) post), ofLeBytes_zeros, ofLeBytes_zeros,
      Nat.sub_sub]
    rfl
  rw [decodeEntry, readEntryFrom, Prog.bind_ok hinodes]
  simp only
  rw [Prog.bind_ok (takeExact_zeros (k := 4) (by omega) post), ofLeBytes_zeros, Nat.zero_and,
    Prog.bind_ok (takeExact_zeros (Nat.zero_le _) post),
    Prog.bind_ok (takeExact_zeros (k := w) (by omega) post), Nat.sub_zero, Nat.sub_sub,
    Nat.sub_sub, ← Nat.add_assoc]
  exact ⟨_, rfl⟩

/-- **There is no record of zeros**: its length would be zero. -/
theorem not_isRecord_zeros {checksum : Checksum} {position : Position} {m : ℕ}
    (hm : 17 + w ≤ m) (hw : w ≤ 64) {bytes post post' : Bytes} {e : Entry w}
    (heq : List.replicate m 0 ++ post = bytes ++ post') :
    ¬IsRecord checksum position bytes e := by
  rintro ⟨body, hbody, rfl⟩
  obtain ⟨c, hc, hrun⟩ := (local_decodeEntry position).consumes hbody
  rw [List.append_nil] at hc
  subst hc
  have h1 := hrun (delimiter checksum body ++ post')
  obtain ⟨e', h2⟩ := decodeEntry_zeros (w := w) (show 13 + w ≤ m by omega) position post
  rw [← List.append_assoc, ← heq, h2, Prod.mk.injEq] at h1
  have h3 := congrArg List.length heq
  have h4 := congrArg List.length h1.2
  have h5 := congrArg (List.take 4) h1.2
  simp only [List.length_append, List.length_replicate, length_delimiter] at h3 h4
  rw [delimiter, List.append_assoc, List.take_left' (length_leBytes _ _),
    List.take_append_of_le_length (by rw [List.length_replicate]; omega), List.take_replicate]
    at h5
  have h6 := congrArg ofLeBytes h5
  rw [ofLeBytes_zeros, ofLeBytes_leBytes (by omega)] at h6
  omega

/-- There is no record in a gap. -/
theorem not_recordAt_zeros {checksum : Checksum} {buffer post : Bytes} {position : Position}
    {m : ℕ} (hw : w ≤ 64) (hm : 17 + w ≤ m)
    (h : buffer.drop position = List.replicate m 0 ++ post) (e : Entry w) :
    ¬RecordAt checksum buffer position e := by
  rintro ⟨bytes, post', h1, h2⟩
  exact not_isRecord_zeros hm hw (h.symm.trans h1) h2

/-! ### What opening reads -/

section Reading

variable {S : Storage (Entry w)} {st st' : S.State} {stored : Position → Entry w → Prop}
  (hst : StoredIn S st stored)

include hst

/-- What is read is stored. -/
theorem stored_of_readEntry {α : Type} {position : Position} {expected : Index}
    {f : Entry w → Run S.State α} {a : α}
    (h : (readEntryWithIndexCheck S position expected >>= f) st = (.ok a, st')) :
    ∃ e, stored position e := by
  obtain ⟨e, t, h1, -⟩ := Prog.bind_eq_ok.mp h
  obtain ⟨e', t', h2, -⟩ := Prog.bind_eq_ok.mp h1
  rcases hst.read position with ⟨e'', h3, -⟩ | ⟨-, error, h3⟩
  · exact ⟨e'', h3⟩
  · exact absurd (Prod.mk.inj (h2.symm.trans h3)).1 (by simp [err])

/-- The links that are loaded lead to entries that are stored. -/
theorem loadWithLevel_stored {n : Index} : ∀ (level : ℕ) (addrs : List Address)
    {m m' : IndexMap (Entry w)}, KeyedFor n m →
    Cache.loadWithLevel S level addrs m st = (.ok m', st') →
    ∀ addr ∈ addrs, ∃ e, stored addr.position e
  | level + 2, addrs, m, m', hm, h => by
    intro addr haddr
    rw [Cache.loadWithLevel] at h
    obtain ⟨c, c', hstep⟩ := Looks.of_foldlM addrs (fun addr _ m hm =>
      (looks_readEntry hst addr.position addr.i).bind fun e _ =>
        looks_loadWithLevel hst (level + 1) _ (hm.insert e)) hm h addr haddr
    exact stored_of_readEntry hst hstep
  | 1, addrs, m, m', hm, h | 0, addrs, m, m', hm, h => by
    intro addr haddr
    obtain ⟨c, c', hstep⟩ := Looks.of_foldlM addrs (fun addr _ m hm =>
      (looks_readEntry hst addr.position addr.i).bind fun e _ => Looks.pure (hm.insert e))
      hm h addr haddr
    exact stored_of_readEntry hst hstep

/-- **A cache that is loaded** has read all the entries to which its last one links. -/
theorem load_stored {level : ℕ} {e : Entry w} {c : Cache w}
    (h : Cache.load S level e st = (.ok c, st')) :
    ∀ inode ∈ e.inodes, ∃ e', stored inode.left.position e' := by
  have hm := keyedFor_singleton e
  have key : ∀ level {m : IndexMap (Entry w)} {t : S.State}, (S.reader >>= fun _ =>
      Cache.loadWithLevel S level (e.inodes.map fun inode => inode.left)
        ((∅ : IndexMap (Entry w)).insert e.index e)) st = (.ok m, t) →
      ∀ inode ∈ e.inodes, ∃ e', stored inode.left.position e' := by
    intro level m t hrun inode hinode
    rw [Prog.bind_ok hst.reader] at hrun
    exact loadWithLevel_stored hst level _ hm hrun _ (List.mem_map_of_mem hinode)
  rw [Cache.load] at h
  obtain ⟨model, t, h1, h⟩ := Prog.bind_eq_ok.mp h
  obtain rfl := (Prod.mk.inj h1).2
  obtain ⟨addrs, t', h2, h⟩ := Prog.bind_eq_ok.mp h
  obtain rfl := (Prod.mk.inj h2).2
  obtain ⟨cache, t1, h3, h⟩ := Prog.bind_eq_ok.mp h
  by_cases hlevel : 0 < level
  · rw [Cache.loadCached, if_pos hlevel] at h3
    exact key level h3
  · rw [Cache.loadCached, if_neg hlevel] at h3
    obtain rfl := (Prod.mk.inj h3).2
    obtain ⟨entries, t2, h4, -⟩ := Prog.bind_eq_ok.mp h
    rw [Cache.loadNeighbours, if_pos (show level = 0 by omega)] at h4
    exact key 1 h4

end Reading

/-! ### Gaps -/

theorem length_gap {content : Bytes} {p : ℕ} (h : content.length ≤ p) :
    (content ++ List.replicate (p - content.length) (0 : UInt8)).length = p := by
  rw [List.length_append, List.length_replicate]
  omega

/-- What is written behind the end of a content. -/
theorem overwrite_gap {content : Bytes} {p : ℕ} (bytes : Bytes) (h : content.length ≤ p) :
    overwrite content p bytes = content ++ List.replicate (p - content.length) 0 ++ bytes := by
  have hlen := length_gap h
  rw [overwrite, List.take_of_length_le hlen.le, List.drop_of_length_le (by omega),
    List.append_nil]

/-- **A device that fills gaps** with zeros: what is written behind the end of its content, where
a cursor may be moved, is either written or not. -/
def Disk.FillsGaps {D : BlockDevice} (K : Disk D) : Prop :=
  ∀ {buffer bytes : Bytes} {p : ℕ}, buffer.length < p →
    (p + bytes.length ≤ MemoryDevice.MAX_CAPACITY ∧ D.write bytes (K.state false buffer p) =
      (.ok bytes.length, K.state false (overwrite buffer p bytes) (p + bytes.length))) ∨
    ∃ f s, D.write bytes (K.state false buffer p) = (.error f, s)

theorem MemoryDevice.fillsGaps : MemoryDevice.disk.FillsGaps := by
  intro buffer bytes p _
  change (_ ∧ write bytes ⟨false, buffer, p⟩ = _) ∨ ∃ f s, write bytes ⟨false, buffer, p⟩ = _
  rw [write]
  simp only [Bool.false_eq_true, if_false]
  by_cases hroom : MAX_CAPACITY < p + bytes.length
  · rw [if_pos hroom]
    exact Or.inr ⟨_, _, rfl⟩
  · rw [if_neg hroom]
    exact Or.inl ⟨Nat.le_of_not_lt hroom, rfl⟩

theorem FileDevice.fillsGaps : FileDevice.disk.FillsGaps := by
  intro buffer bytes p _
  by_cases hroom : File.MAX_OFFSET < p + bytes.length
  · exact Or.inr ⟨_, _, @write_full ⟨⟨false⟩, ⟨buffer, p, true⟩⟩ rfl bytes hroom⟩
  · have h := Nat.le_of_not_lt hroom
    exact Or.inl ⟨h, @write_eq ⟨⟨false⟩, ⟨buffer, p, true⟩⟩ rfl bytes h⟩

/-- When everything is flushed, there is a gap. -/
theorem Disk.FillsGaps.flushOrDrop {D : BlockDevice} {K : Disk D} (hgap : K.FillsGaps)
    {buffer bytes : Bytes} {p : ℕ} (hp : buffer.length < p) (hne : bytes ≠ [])
    {rest : Bytes} {s : D.State}
    (h : BlockStorage.flushOrDrop D (bytes, K.state false buffer p) = (.ok (), (rest, s))) :
    p + bytes.length ≤ MemoryDevice.MAX_CAPACITY ∧
      s = K.state false (overwrite buffer p bytes) (p + bytes.length) := by
  have hflush := BlockStorage.flushBuf_of_flushOrDrop h
  rcases @hgap buffer bytes p hp with ⟨hroom, hwrite⟩ | ⟨f, t, hwrite⟩
  · rw [flushBuf_of_write hne hwrite] at hflush
    exact ⟨hroom, congrArg Prod.snd (Prod.mk.inj hflush).2.symm⟩
  · rw [flushBuf_of_error hne hwrite] at hflush
    exact absurd (Prod.mk.inj hflush).1 (by simp)

section Behind

variable {D : BlockDevice} {K : Disk D} {checksum : Checksum}

/-- A `put` somewhere else moves the cursor first. -/
theorem BlockStorage.put_seek {ro : Bool} {buffer : Bytes} {p q position : Position} {e : Entry w}
    (h : position ≠ p) : put D checksum p e ⟨K.state ro buffer q, position⟩ =
      put D checksum p e ⟨K.state ro buffer p, p⟩ := by
  have hseek : moveTo D p ⟨K.state ro buffer q, position⟩ = (.ok (), ⟨K.state ro buffer p, p⟩) := by
    rw [moveTo, Prog.bind_ok (Prog.get_run _), if_pos h,
      Prog.bind_ok (onDevice_eq (K.seek_start ro buffer q p) position)]
    rfl
  have hstay : moveTo D p ⟨K.state ro buffer p, p⟩ = (.ok (), ⟨K.state ro buffer p, p⟩) := by
    rw [moveTo, Prog.bind_ok (Prog.get_run _), if_neg (fun h => h rfl)]
    rfl
  rw [put, Prog.bind_ok hseek, Prog.bind_ok hstay]

/-- The content with a record behind a gap. -/
def withGap (checksum : Checksum) (content : Bytes) (p : ℕ) (e : Entry w) : Bytes :=
  content ++ List.replicate (p - content.length) 0 ++ record checksum e

variable {content : Bytes} {p : ℕ} {e : Entry w}

theorem length_withGap (hp : content.length ≤ p) :
    (withGap checksum content p e).length = p + (record checksum e).length := by
  rw [withGap, List.length_append, length_gap hp]

/-- It ends with the record. -/
theorem lastRecord_withGap (hw : w ≤ 64) (he : e.Placed p) (h4 : 4 ≤ content.length)
    (hp : content.length ≤ p) : LastRecord checksum (withGap checksum content p e) p e := by
  have hlen := length_gap hp
  refine ⟨h4.trans hp, ?_, ?_⟩
  · rw [length_withGap hp]
    exact Nat.le_add_right _ _
  · rw [withGap, List.drop_left' hlen]
    exact isRecord_record hw checksum he

/-- In the gap there is nothing to be read. -/
theorem not_recordAt_gap (hw : w ≤ 64) {q : ℕ} (hq : content.length ≤ q)
    (hqp : q + (17 + w) ≤ p) (e' : Entry w) :
    ¬RecordAt checksum (withGap checksum content p e) q e' := by
  have hdrop : (withGap checksum content p e).drop q =
      List.replicate (p - q) 0 ++ record checksum e := by
    rw [withGap, List.append_assoc, List.drop_append, List.drop_of_length_le hq, List.nil_append,
      List.drop_append_of_le_length (by rw [List.length_replicate]; omega), List.drop_replicate,
      show p - content.length - (q - content.length) = p - q by omega]
  exact not_recordAt_zeros hw (by omega) hdrop e'

/-- What is found when a content is opened that ends with a record. -/
theorem last_of_lastRecord {ro : Bool} {buffer : Bytes} {q k : ℕ} {position : Position}
    {found : Option (Entry w) × Position} {self : BlockStorage D} (hall : K.ReadsAll) (hw : w ≤ 64)
    (hlen : buffer.length < 2 ^ 63) (hlast : LastRecord checksum buffer k e)
    (h : BlockStorage.last D checksum ⟨K.state ro buffer q, position⟩ = (.ok found, self)) :
    found.1 = some e := by
  have hoffset := (hlast.lastOffset_eq hw).1
  have h4 := hlast.1
  have hne : buffer ≠ [] := List.ne_nil_of_length_pos (by omega)
  obtain ⟨firstLast, self', h1, h2⟩ := Prog.bind_eq_ok.mp h
  have hboot : (boot (w := w) D checksum (K.state ro buffer q)).1 = .ok firstLast :=
    congrArg Prod.fst h1
  have hfound : found = firstLast.2 := (Except.ok.inj (Prod.mk.inj h2).1).symm
  rw [hfound]
  rcases boot_cases (w := w) ro hall hw checksum hlen hne q with
    (⟨-, error, h3⟩ | ⟨-, h3, -⟩) | ⟨e', -, -, ⟨-, h3⟩ | ⟨k', e'', h3, h5⟩ | ⟨-, -, error, h3⟩⟩
  · exact absurd (hboot.symm.trans h3) (by simp [err])
  · omega
  · exact absurd (hboot.symm.trans h3) (by simp [Outcome.panic])
  · rw [h5, Except.ok.injEq] at hboot
    rw [← hboot, hlast.unique hw h3]
  · exact absurd (hboot.symm.trans h3) (by simp [err])

/-- **A record behind a gap that links into the gap**: no slate opens on it. -/
theorem not_opens_withGap (hall : K.ReadsAll) (hw : w ≤ 64) (he : e.Placed p)
    (h4 : 4 ≤ content.length) (hp : content.length ≤ p)
    (hlen : (withGap checksum content p e).length < 2 ^ 63) {inode : INode w}
    (hinode : inode ∈ e.inodes) (hleft : content.length ≤ inode.left.position)
    (hgap : inode.left.position + (17 + w) ≤ p) {ro : Bool} {q position : Position} {L : ℕ}
    {s : Slate (blockStorage (w := w) D checksum)} :
    Slate.withCacheLevel (S := blockStorage (w := w) D checksum)
      (⟨K.state ro (withGap checksum content p e) q, position⟩ : BlockStorage D) L ≠ .ok s := by
  intro ho
  have hlast : LastRecord checksum (withGap checksum content p e) p e :=
    lastRecord_withGap hw he h4 hp
  have hne : withGap checksum content p e ≠ [] :=
    List.ne_nil_of_length_pos (by rw [withGap, List.append_assoc, List.length_append]; omega)
  obtain ⟨⟨latest, next⟩, st, hopen, hrest⟩ :=
    Prog.bind_eq_ok.mp (loadMetadata_of_withCacheLevel ho)
  obtain ⟨p', q', rfl⟩ := last_content_eq hall hw hlen hne hopen
  obtain rfl : latest = some e := last_of_lastRecord hall hw hlen hlast hopen
  obtain ⟨cache, st', hload, -⟩ := Prog.bind_eq_ok.mp hrest
  obtain ⟨e', he'⟩ := load_stored (storedIn_content K ro hall hw hlen p' q') hload inode hinode
  exact not_recordAt_gap hw hleft hgap e' he'

end Behind

/-! ### Slates after a failed truncation -/

/-- **The call that fails is not after the cut**: it opens the reader, it reads one of the entries
on the way to the one at which the slate is truncated, or it cuts the storage. -/
def BeforeCut (L n i calls : ℕ) : Prop :=
  ∀ d, entryAccessDistance i n = .ok (some d) → calls ≤ 1 + (d - L)

theorem beforeCut_iff {L n i calls : ℕ} (hb : n < 2 ^ 64) :
    BeforeCut L n i calls ↔ (1 ≤ i → i ≤ n → calls ≤ 1 + callsOf L n i) := by
  rcases Nat.eq_zero_or_pos n with rfl | hn
  · refine iff_of_true (fun d hd => ?_) fun h1 h2 => absurd h1 (by omega)
    have hnone : entryAccessDistance i 0 = .ok none := rfl
    rw [hnone] at hd
    cases hd
  · rw [BeforeCut, FormulaTree.entryAccessDistance_eq hn hb]
    constructor
    · intro h h1 h2
      exact h _ (by rw [if_pos ⟨h1, h2⟩])
    · intro h d hd
      rw [Except.ok.injEq] at hd
      by_cases hi : 1 ≤ i ∧ i ≤ n
      · rw [if_pos hi, Option.some.injEq] at hd
        rw [← hd]
        exact h hi.1 hi.2
      · rw [if_neg hi] at hd
        cases hd

section Slates

variable {D : BlockDevice} {K : Disk D} {hw : w ≤ 64} {checksum : Checksum} {H : HashFn w}
  {L n fuel i calls : ℕ} {v : ℕ → Bytes} {vs : List Bytes} {value : Bytes}
  {s s1 s2 : SlateOn (.block K hw checksum)} {spoil : BlockStorage D → BlockStorage D}

/-- When a storage fails to open, its cursor may have moved. -/
def MovesCursor (K : Disk D) (spoil : BlockStorage D → BlockStorage D) : Prop :=
  ∀ (buffer : Bytes) (p position : ℕ), ∃ q,
    spoil ⟨K.state false buffer p, position⟩ = ⟨K.state false buffer q, position⟩

/-- A truncation that fails on a block storage. -/
abbrev FailsToTruncate (spoil : BlockStorage D → BlockStorage D) (fuel i calls : ℕ)
    (s s1 : SlateOn (.block K hw checksum)) : Prop :=
  FailedTruncate (S := (blockLog K hw checksum).toStorage) spoil fuel i calls s s1

/-- **The slates that can be reached when truncations may fail**, as long as they do not fail
after the cut. -/
inductive Endures (spoil : BlockStorage D → BlockStorage D) (H : HashFn w) :
    ℕ → List Bytes → SlateOn (.block K hw checksum) → Prop
  | new {L : ℕ} {s : SlateOn (.block K hw checksum)} :
      openNew (.block K hw checksum) L = .ok s → Endures spoil H L [] s
  | append {L : ℕ} {vs : List Bytes} {s s' : SlateOn (.block K hw checksum)} {v : Bytes}
      {info : MetaInfo w} :
      Endures spoil H L vs s → Slate.append H v s = (.ok info, s') →
      Endures spoil H L (vs ++ [v]) s'
  | truncate {L : ℕ} {vs : List Bytes} {s s' : SlateOn (.block K hw checksum)} {fuel i : ℕ} :
      Endures spoil H L vs s → INDEX_SIZE < fuel → Slate.truncate fuel i s = (.ok true, s') →
      Endures spoil H L (vs.take (i - 1)) s'
  | keep {L : ℕ} {vs : List Bytes} {s s' : SlateOn (.block K hw checksum)} {fuel i : ℕ} :
      Endures spoil H L vs s → INDEX_SIZE < fuel → Slate.truncate fuel i s = (.ok false, s') →
      Endures spoil H L vs s'
  | reopen {L L' : ℕ} {vs : List Bytes} {s s' : SlateOn (.block K hw checksum)} :
      Endures spoil H L vs s →
      Slate.withCacheLevel ((blockLog K hw checksum).reopen s.storage) L' = .ok s' →
      Endures spoil H L' vs s'
  | failed {L : ℕ} {vs : List Bytes} {s s1 : SlateOn (.block K hw checksum)} {fuel i calls : ℕ} :
      Endures spoil H L vs s → INDEX_SIZE < fuel → FailsToTruncate spoil fuel i calls s s1 →
      BeforeCut L vs.length i calls → Endures spoil H L vs s1

/-- **What is in memory describes what is stored**: every payload is found, and after an append
that succeeds the storage can be opened, and has the appended payload as its last one. -/
structure Consistent (H : HashFn w) (vs : List Bytes) (s1 : SlateOn (.block K hw checksum)) :
    Prop where
  n_eq : s1.n = vs.length
  get_eq : ∀ fuel, INDEX_SIZE < fuel → ∀ k, 1 ≤ k → k ≤ s1.n →
    (s1.snapshot.get fuel k s1.storage).1 = .ok (some (payload vs k))
  reopens : ∀ value info s2, Slate.append H value s1 = (.ok info, s2) → ∀ L',
    ∃ s3 : SlateOn (.block K hw checksum),
      Slate.withCacheLevel ((blockLog K hw checksum).reopen s2.storage) L' = .ok s3 ∧
      s3.n = s1.n + 1 ∧ ∀ fuel, INDEX_SIZE < fuel →
        (s3.snapshot.get fuel (s1.n + 1) s3.storage).1 = .ok (some value)

/-- Truncations that fail in time lead nowhere new. -/
theorem Endures.reaches (h : Endures spoil H L vs s) : Reaches (.block K hw checksum) H L vs s := by
  induction h with
  | new h => exact .new h
  | append _ ha ih => exact ih.append ha
  | truncate _ hf ht ih => exact ih.truncate hf ht
  | keep _ hf ht ih => exact ih.keep hf ht
  | reopen _ ho ih => exact ih.reopen ho
  | failed _ hf hfail hcalls ih =>
    have hs := ih.slateOf
    rw [hs.eq_of_truncate hf hfail ((beforeCut_iff hs.lt).mp hcalls)]
    exact ih

/-- **Every slate that is reached** is consistent. -/
theorem Reaches.consistent (h : Reaches (.block K hw checksum) H L vs s) : Consistent H vs s := by
  have hs := h.slateOf
  have hn : s.n = vs.length := hs.n_eq
  refine ⟨hn, fun fuel hf k h1 h2 => ?_, fun value info s2 ha L' => ?_⟩
  · rw [hs.view.get_eq hf, if_pos ⟨h1, hn ▸ h2⟩]
  · have hs2 := (h.append ha).slateOf
    rw [List.length_append, List.length_singleton] at hs2
    obtain ⟨s3, ho, hs3⟩ := hs2.reopen L'
    refine ⟨s3, ho, by rw [hs3.n_eq, hn], fun fuel hf => ?_⟩
    rw [hn, hs3.view.get_eq hf, if_pos ⟨Nat.le_add_left 1 _, Nat.le_refl _⟩, payload_concat]

variable (K hw checksum H v) in
/-- There is room for an entry without nodes and without a payload between two positions. -/
theorem positionOf_add_le {k : ℕ} (hk : 1 ≤ k) :
    positionOf (blockLog K hw checksum) H v k + (17 + w) ≤
      positionOf (blockLog K hw checksum) H v (k + 1) := by
  have hrecord : 17 + w ≤
      (record checksum (entryOf (blockLog K hw checksum) H v k)).length := by
    rw [length_record, length_encodeEntry]
    omega
  rw [positionOf_block_succ H v K hw checksum hk]
  exact Nat.add_le_add_left hrecord _

/-- **What a truncation leaves that fails after the cut**: the storage of the entries before the
index, with the cursor anywhere, and the position and the cache of before. -/
theorem SlateOf.storage_of_cut (h : SlateOf (blockLog K hw checksum) H L v n s) (hall : K.ReadsAll)
    (hspoil : MovesCursor K spoil) (hf : INDEX_SIZE < fuel)
    (hfail : FailsToTruncate spoil fuel i calls s s1) (h1 : 1 ≤ i) (h2 : i ≤ n)
    (hcalls : 1 + callsOf L n i < calls) :
    ∃ q, s1 = { s with storage := (⟨K.state false
      (BlockStorage.content checksum (history (blockLog K hw checksum) H v (i - 1))) q,
      positionOf (blockLog K hw checksum) H v i⟩ : BlockStorage D) } := by
  have hroom := BlockStorage.Room.lt (h.fits.mono (show i - 1 ≤ n by omega)).room
  have hread : ∀ p, ((blockLog K hw checksum).read p
      ((blockLog K hw checksum).render (history (blockLog K hw checksum) H v (i - 1)))).2 =
        (blockLog K hw checksum).render (history (blockLog K hw checksum) H v (i - 1)) := by
    intro p
    have hstored : StoredIn (blockStorage D checksum) ((blockLog K hw checksum).render
        (history (blockLog K hw checksum) H v (i - 1))) _ :=
      storedIn_content K false hall hw hroom _ _
    rcases hstored.read p with ⟨e, -, h3⟩ | ⟨-, error, h3⟩
    · exact congrArg Prod.snd h3
    · exact congrArg Prod.snd h3
  obtain ⟨st, htrunc, hs1⟩ := h.cut_of_truncate hf hfail h1 h2 hcalls hread
  have hk : i - 1 < (history (blockLog K hw checksum) H v n).length := by
    rw [length_history]
    omega
  obtain ⟨p, hcut⟩ := @BlockStorage.truncate_content w D K checksum _ _ hk
  rw [take_history _ H v (by omega)] at hcut
  have hst : st = (⟨K.state false (BlockStorage.content checksum
      (history (blockLog K hw checksum) H v (i - 1))) p,
      positionOf (blockLog K hw checksum) H v i⟩ : BlockStorage D) := by
    have htrunc' : BlockStorage.truncate D (positionOf (blockLog K hw checksum) H v i)
        (BlockStorage.render K checksum (history (blockLog K hw checksum) H v n)) =
          (.ok true, st) := by
      rw [h.storage_eq] at htrunc
      exact htrunc
    exact (Prod.mk.inj (htrunc'.symm.trans hcut)).2
  -- the call that fails after the cut may have moved the cursor, and nothing else
  rcases hs1 with hs1 | hs1
  · obtain ⟨q, hq⟩ := hspoil (BlockStorage.content checksum
      (history (blockLog K hw checksum) H v (i - 1))) p (positionOf (blockLog K hw checksum) H v i)
    rw [hs1, hst]
    exact ⟨q, congrArg (fun st : BlockStorage D =>
      ({ s with storage := st } : SlateOn (.block K hw checksum))) hq⟩
  · exact ⟨_, hs1⟩

variable (K hw checksum H v) in
/-- An entry links to the one before it. -/
theorem exists_link (hn : 1 ≤ n) :
    ∃ inode ∈ (entryOf (blockLog K hw checksum) H v (n + 1)).inodes,
      inode.left.position = positionOf (blockLog K hw checksum) H v n := by
  obtain ⟨p, hp, -, h⟩ := (Tree.leftPerfect_upTo (Nat.le_add_left 1 n)).exists_mem_spine (k := n)
    (by rw [Tree.lo_upTo (Nat.le_add_left 1 n)]; omega)
    (by rw [Tree.hi_upTo (Nat.le_add_left 1 n)]; exact Nat.lt_succ_self n)
  obtain ⟨-, -, hlt⟩ := left_range (Nat.le_add_left 1 n) hp
  have hpn : p.1.hi = n := Nat.le_antisymm (Nat.lt_succ_iff.mp hlt) h
  refine ⟨spineINode H v (positionOf (blockLog K hw checksum) H v) p,
    List.mem_reverse.mpr (List.mem_map_of_mem hp), ?_⟩
  rw [spineINode_left, nodeAddress_position, hpn]

/-- **After the cut, an append leaves a gap**: its record is where the old entries ended. -/
theorem SlateOf.append_withGap (h : SlateOf (blockLog K hw checksum) H L v n s)
    (hgap : K.FillsGaps) (h1 : 1 ≤ i) (h2 : i ≤ n) {q : ℕ}
    (hs1 : s1 = { s with storage := (⟨K.state false
      (BlockStorage.content checksum (history (blockLog K hw checksum) H v (i - 1))) q,
      positionOf (blockLog K hw checksum) H v i⟩ : BlockStorage D) })
    (hv : (v (n + 1)).length ≤ MAX_PAYLOAD_SIZE) {info : MetaInfo w}
    (ha : Slate.append H (v (n + 1)) s1 = (.ok info, s2)) :
    (withGap checksum (BlockStorage.content checksum
        (history (blockLog K hw checksum) H v (i - 1)))
        (positionOf (blockLog K hw checksum) H v (n + 1))
        (entryOf (blockLog K hw checksum) H v (n + 1))).length ≤ MemoryDevice.MAX_CAPACITY ∧
      (blockLog K hw checksum).reopen s2.storage = (⟨K.state false (withGap checksum
        (BlockStorage.content checksum (history (blockLog K hw checksum) H v (i - 1)))
        (positionOf (blockLog K hw checksum) H v (n + 1))
        (entryOf (blockLog K hw checksum) H v (n + 1))) 0, 0⟩ : BlockStorage D) := by
  have hplaced := h.fits.placed (Nat.le_add_left 1 n) (Nat.le_refl (n + 1)) hv
  have hlt : positionOf (blockLog K hw checksum) H v i <
      positionOf (blockLog K hw checksum) H v (n + 1) :=
    positionOf_block_lt K hw checksum h1 (Nat.lt_succ_of_le h2)
  have hcache : s1.cache = s.cache := by
    rw [hs1]
  have hposition : s1.position = s.position := by
    rw [hs1]
  obtain ⟨position, hput⟩ := SlateOf.put_of_append (hcache ▸ h.represents)
    (hposition.trans h.position_eq) h.fits.lt hv ha
  have hput' : BlockStorage.put D checksum (positionOf (blockLog K hw checksum) H v (n + 1))
      (entryOf (blockLog K hw checksum) H v (n + 1))
      ⟨K.state false (BlockStorage.content checksum
        (history (blockLog K hw checksum) H v (i - 1))) q,
        positionOf (blockLog K hw checksum) H v i⟩ = (.ok position, blocks s2) := by
    rw [hs1] at hput
    exact hput
  -- the put moves the cursor behind the end
  rw [BlockStorage.put_seek hlt.ne] at hput'
  obtain ⟨rest, hflush⟩ := BlockStorage.flush_of_put hw hplaced hput'
  obtain ⟨hroom, hdevice⟩ := hgap.flushOrDrop hlt (BlockStorage.record_ne_nil checksum _) hflush
  rw [overwrite_gap _ hlt.le, ← withGap] at hdevice
  refine ⟨by rwa [length_withGap hlt.le], ?_⟩
  change (⟨K.reopen (blocks s2).device, 0⟩ : BlockStorage D) = _
  rw [hdevice, K.reopen_eq]

/-- **After the cut it is too late**: no slate opens on what the next append leaves. -/
theorem SlateOf.not_reopens (h : SlateOf (blockLog K hw checksum) H L v n s) (hall : K.ReadsAll)
    (hgap : K.FillsGaps) (h1 : 1 ≤ i) (h2 : i ≤ n) {q : ℕ}
    (hs1 : s1 = { s with storage := (⟨K.state false
      (BlockStorage.content checksum (history (blockLog K hw checksum) H v (i - 1))) q,
      positionOf (blockLog K hw checksum) H v i⟩ : BlockStorage D) })
    (hvalue : value = v (n + 1)) {info : MetaInfo w}
    (ha : Slate.append H value s1 = (.ok info, s2)) (L' : ℕ)
    (s3 : SlateOn (.block K hw checksum)) :
    Slate.withCacheLevel ((blockLog K hw checksum).reopen s2.storage) L' ≠ .ok s3 := by
  subst hvalue
  by_cases hv : (v (n + 1)).length ≤ MAX_PAYLOAD_SIZE
  · have hplaced := h.fits.placed (Nat.le_add_left 1 n) (Nat.le_refl (n + 1)) hv
    obtain ⟨hroom, hreopen⟩ := h.append_withGap hgap h1 h2 hs1 hv ha
    obtain ⟨inode, hinode, hlink⟩ := exists_link K hw checksum H v (h1.trans h2)
    have hin : positionOf (blockLog K hw checksum) H v i ≤
        positionOf (blockLog K hw checksum) H v n := positionOf_mono h2
    have hnn := positionOf_add_le K hw checksum H v (h1.trans h2)
    have hle : positionOf (blockLog K hw checksum) H v i ≤
        positionOf (blockLog K hw checksum) H v (n + 1) := positionOf_mono (Nat.le_succ_of_le h2)
    have hlen := BlockStorage.length_le_content checksum
      (history (blockLog K hw checksum) H v (i - 1))
    rw [hreopen]
    exact not_opens_withGap hall hw hplaced (by omega) hle (hroom.trans_lt (by decide)) hinode
      (hlink ▸ hin) (hlink ▸ hnn)
  · rw [SlateOf.append_tooLarge (by omega)] at ha
    exact absurd (Prod.mk.inj ha).1 (by simp)

/-- **A failed truncation can be survived unless it failed after the cut.** If it did not, the
slate is consistent, and everything is as before. If it did, it is not: whatever append succeeds
next, no slate opens on what it leaves. -/
theorem consistent_iff (hall : K.ReadsAll) (hgap : K.FillsGaps) (hspoil : MovesCursor K spoil)
    (h : Endures spoil H L vs s) (hf : INDEX_SIZE < fuel)
    (hfail : FailsToTruncate spoil fuel i calls s s1) :
    (BeforeCut L vs.length i calls → Consistent H vs s1) ∧
    ∀ value info s2, Slate.append H value s1 = (.ok info, s2) →
      (Consistent H vs s1 ↔ BeforeCut L vs.length i calls) := by
  have hearly : BeforeCut L vs.length i calls → Consistent H vs s1 := fun hcalls =>
    (h.failed hf hfail hcalls).reaches.consistent
  refine ⟨hearly, fun value info s2 ha => ⟨fun hc => ?_, hearly⟩⟩
  have hs := h.reaches.slateOf.congr fun k h1 h2 => payload_append_left [value] h1 h2
  rw [beforeCut_iff hs.lt]
  by_contra hlate
  simp only [not_forall, not_le] at hlate
  obtain ⟨h1, h2, hcalls⟩ := hlate
  obtain ⟨q, hs1⟩ := hs.storage_of_cut hall hspoil hf hfail h1 h2 hcalls
  obtain ⟨s3, ho, -⟩ := hc.reopens value info s2 ha 0
  exact hs.not_reopens hall hgap h1 h2 hs1 (payload_concat vs value).symm ha 0 s3 ho

end Slates

/-! ### Two payloads, truncated at the first one -/

/-- A slate in memory, for hashes of one byte and with a constant checksum. -/
abbrev MemorySlate := SlateOn (.block MemoryDevice.disk one_le_64 fun _ => 7)

/-- The slate of no payloads. -/
def noPayloads : MemorySlate where
  position := 4
  storage := (⟨⟨false, BlockStorage.header, 4⟩, 4⟩ : BlockStorage memoryDevice)
  cache := Cache.empty 0

/-- The slate of one payload. -/
def onePayload : MemorySlate := (Slate.append byteSum [1] noPayloads).2

/-- The slate of two payloads. -/
def twoPayloads : MemorySlate := (Slate.append byteSum [2] onePayload).2

/-- What is left of it when a truncation fails after so many calls. -/
def cutSlate (calls : ℕ) : MemorySlate :=
  restore (Slate.truncate 65 1 (endanger id calls twoPayloads)).2

/-- The same, after another append. -/
def grownSlate (calls : ℕ) : MemorySlate := (Slate.append byteSum [3] (cutSlate calls)).2

theorem exists_of_isOk {σ α : Type} {x : Result α × σ} (h : isOk x.1 = true) :
    ∃ a, x = (.ok a, x.2) := by
  obtain ⟨e | a, s⟩ := x
  · cases h
  · exact ⟨a, rfl⟩

theorem endures_twoPayloads : Endures id byteSum 0 [[1], [2]] twoPayloads := by
  obtain ⟨info, h1⟩ := exists_of_isOk (show isOk (Slate.append byteSum [1] noPayloads).1 = true by
    decide +kernel)
  obtain ⟨info', h2⟩ := exists_of_isOk (show isOk (Slate.append byteSum [2] onePayload).1 = true by
    decide +kernel)
  have h0 : Endures id byteSum 0 [] noPayloads := .new rfl
  exact (h0.append h1).append h2

/-- The outcome of a truncation that fails. -/
theorem failsToTruncate_of_error {calls : ℕ}
    (h : (Slate.truncate 65 1 (endanger id calls twoPayloads)).1 = err interrupted) :
    FailsToTruncate id 65 1 calls twoPayloads (cutSlate calls) :=
  ⟨interrupted, _, Prod.ext h rfl, rfl⟩

/-- Cutting the storage is the third call; when it fails, the slate is consistent. -/
theorem consistent_iff_two : Consistent byteSum [[1], [2]] (cutSlate 2) ∧
    ∃ info, Slate.append byteSum [3] (cutSlate 2) = (.ok info, grownSlate 2) := by
  have hfail : FailsToTruncate id 65 1 2 twoPayloads (cutSlate 2) := by
    refine failsToTruncate_of_error ?_
    decide +kernel
  have hcut : BeforeCut 0 2 1 2 := by
    intro d hd
    have hone : entryAccessDistance 1 2 = .ok (some 1) := by decide
    rw [hone] at hd
    obtain rfl := Option.some.inj (Except.ok.inj hd)
    exact Nat.le_refl 2
  exact ⟨(consistent_iff MemoryDevice.readsAll MemoryDevice.fillsGaps (fun _ p _ => ⟨p, rfl⟩)
    endures_twoPayloads (by decide) hfail).1 hcut, exists_of_isOk (by decide +kernel)⟩

/-- **One call later it is too late**: the storage has been cut, but opening it fails. The first
payload is lost, though the slate still has two; and what is appended next cannot be opened. -/
theorem not_consistent_three : Reaches _ byteSum 0 [[1], [2]] twoPayloads ∧
    FailsToTruncate id 65 1 3 twoPayloads (cutSlate 3) ∧ (cutSlate 3).n = 2 ∧
    isOk ((cutSlate 3).snapshot.get 65 1 (cutSlate 3).storage).1 = false ∧
    (∃ info, Slate.append byteSum [3] (cutSlate 3) = (.ok info, grownSlate 3)) ∧
    isOk (Slate.withCacheLevel ((blockLog _ _ _).reopen (grownSlate 3).storage) 0) = false ∧
    ¬Consistent byteSum [[1], [2]] (cutSlate 3) := by
  have hget : isOk ((cutSlate 3).snapshot.get 65 1 (cutSlate 3).storage).1 = false := by
    decide +kernel
  have hn : (cutSlate 3).n = 2 := by decide +kernel
  refine ⟨endures_twoPayloads.reaches, failsToTruncate_of_error (by decide +kernel), hn, hget,
    exists_of_isOk (by decide +kernel), by decide +kernel, fun h => ?_⟩
  rw [h.get_eq 65 (by decide) 1 (Nat.le_refl 1) (by rw [hn]; decide)] at hget
  exact Bool.noConfusion hget

end StratifiedHashTree
