import StratifiedHashTree.Mirror
import StratifiedHashTree.Serving

/-!
# Answers without positions

Where an entry is stored is a matter of the backend: a block storage counts bytes, a key-value
storage counts entries. The positions are in the entries, as addresses, and in the roots; they
are in nothing else that a client is given. With the positions left out
(`StratifiedHashTree.Entry.erased`), what a query answers depends on nothing but the payloads of
its generation: not on the backend, not on the cache level, not on what came later
(`StratifiedHashTree.Query.call_erased`). `StratifiedHashTree.Call.answer` is the answer in
terms of the payloads.

A callback is part of the question. It is asked not to look at positions, either, so it is given
entries without them (`StratifiedHashTree.Call.blind`).

The second thing shown here is that a query only reads (`StratifiedHashTree.Query.keeps_call`).
That holds of any query, of one whose entries are gone as well.
-/

namespace StratifiedHashTree

open Formula FormulaTree
open Prog (Keeps)

variable {w : ℕ}

/-! ### Leaving out positions -/

/-- An address without the position. -/
def Address.erased (self : Address) : Address := { self with position := 0 }

/-- Attributes of a node, without positions. -/
def MetaInfo.erased (self : MetaInfo w) : MetaInfo w :=
  { self with address := self.address.erased }

/-- An intermediate node without positions. -/
def INode.erased (self : INode w) : INode w :=
  { metaInfo := self.metaInfo.erased, left := self.left.erased, right := self.right.erased }

/-- A leaf without positions. -/
def ENode.erased (self : ENode w) : ENode w := { self with metaInfo := self.metaInfo.erased }

/-- **An entry without positions.** -/
def Entry.erased (self : Entry w) : Entry w :=
  { enode := self.enode.erased, inodes := self.inodes.map INode.erased }

/-- No positions at all. -/
abbrev nowhere : ℕ → Position := fun _ => 0

section Entries

variable (H : HashFn w) (v : ℕ → Bytes) (pos : ℕ → Position)

theorem nodeInfo_erased (t : Tree) : (nodeInfo H v pos t).erased = nodeInfo H v nowhere t := rfl

theorem spineINode_erased (p : Tree × Tree) :
    (spineINode H v pos p).erased = spineINode H v nowhere p := rfl

/-- Without its positions, an entry is made of the payloads alone. -/
theorem entryAt_erased (i : ℕ) : (entryAt H v pos i).erased = entryAt H v nowhere i := by
  have hinodes : ((Tree.upTo i).spine.map (spineINode H v pos)).map INode.erased =
      (Tree.upTo i).spine.map (spineINode H v nowhere) := by
    rw [List.map_map]
    exact List.map_congr_left fun p _ => spineINode_erased H v pos p
  rw [entryAt, Entry.erased, List.map_reverse, hinodes]
  rfl

theorem map_erased_entriesFrom (k count : ℕ) :
    (entriesFrom H v pos k count).map Entry.erased = entriesFrom H v nowhere k count := by
  rw [entriesFrom, entriesFrom, List.map_map]
  exact List.map_congr_left fun i _ => entryAt_erased H v pos i

end Entries

/-- The entries of a range, as so many from its beginning. -/
theorem entriesBetween_eq (S : LogStorage (Entry w) Entry.Placed) (H : HashFn w) (v : ℕ → Bytes)
    {x : ℕ} (y : ℕ) (hx : 1 ≤ x) :
    entriesBetween S H v x y = entriesFrom H v (positionOf S H v) x (y + 1 - x) := by
  rcases Nat.lt_or_ge y x with hlt | hle
  · rw [entriesBetween, List.drop_of_length_le (by rw [length_history]; omega),
      show y + 1 - x = 0 by omega]
    rfl
  · rw [← take_drop_history (n := y) hx (by omega), entriesBetween,
      List.take_of_length_le (by rw [List.length_drop, length_history]; omega)]

/-- A callback that is given something made of the data. -/
theorem scanList_map {α β κ : Type} (f : α → β) (callback : ScanFn β κ) : ∀ (xs : List α) (a : κ),
    scanList (fun x => callback (f x)) xs a = scanList callback (xs.map f) a
  | [], _ => rfl
  | x :: xs, a => by
    rw [List.map_cons, scanList, scanList]
    rcases callback (f x) a with ⟨e | ⟨⟩, b⟩
    · rfl
    · simp only [scanList_map f callback xs b]

/-- A call whose callback is given entries without positions. -/
def Call.blind : Call w → Call w
  | .get i => .get i
  | .getSample i => .getSample i
  | .walkDown callback init => .walkDown callback init
  | .readEntry i => .readEntry i
  | .scan i0 i1 callback init => .scan i0 i1 (fun entry => callback entry.erased) init

/-- **An answer without positions.** Only entries have some. -/
def Answer.erased : Answer w → Answer w
  | .value result => .value result
  | .sample result => .sample result
  | .walked result final => .walked result final
  | .entry result => .entry (result.map (Option.map Entry.erased))
  | .scanned result final => .scanned result final

/-! ### Answers in terms of payloads -/

/-- **What is answered to a call**, in a generation of some payloads. -/
def Call.answer (H : HashFn w) (v : ℕ → Bytes) (m : Index) : Call w → Answer w
  | .get i => .value (.ok (if 1 ≤ i ∧ i ≤ m then some (v i) else none))
  | .getSample i => .sample (.ok (if 1 ≤ i ∧ i ≤ m then some (sampleOf H v m i) else none))
  | .walkDown callback init =>
    let result := if m = 0 then (.ok (), init) else walkTree H v m callback (Tree.upTo m) init
    .walked result.1 result.2
  | .readEntry i => .entry (.ok (if 1 ≤ i ∧ i ≤ m then some (entryAt H v nowhere i) else none))
  | .scan i0 i1 callback init =>
    let x := max (min i0 i1) 1
    let result := scanList callback (entriesFrom H v nowhere x (min (max i0 i1) m + 1 - x)) init
    .scanned result.1 result.2

namespace Query

section Answers

variable {S : LogStorage (Entry w) Entry.Placed} {H : HashFn w} {v : ℕ → Bytes} {L m n fuel : ℕ}
  {q : Query S.toStorage}

/-- **What a query answers** are the payloads of its generation, up to positions. -/
theorem call_erased (h : Fits S H v n) (hc : Represents H v (positionOf S H v) L m q.cache)
    (hm : m ≤ n) (hf : INDEX_SIZE < fuel) (c : Call w) :
    (q.call fuel c.blind (S.render (history S H v n))).1.erased = c.answer H v m := by
  have hb : m < 2 ^ 64 := by
    have h1 := h.lt
    omega
  have hr := h.readable.mono hm
  cases c with
  | get i =>
    rw [Call.blind, call, get_eq hc hb hr hf i]
    rfl
  | getSample i =>
    rw [Call.blind, call, getSample_eq hc hb hr hf i]
    rfl
  | walkDown callback init =>
    rw [Call.blind, call, Call.answer]
    rcases Nat.eq_zero_or_pos m with rfl | hpos
    · have hempty : q.cache = Cache.empty L := hc
      rw [walkDown, hempty]
      rfl
    · have hheight : (Tree.upTo m).height < fuel := by
        have hu := Tree.leftPerfect_upTo hpos
        exact (height_le_64 hu (by rwa [Tree.hi_upTo hpos])).trans_lt hf
      rw [walkDown_eq (hc.loaded hpos) hpos hr callback hheight init, if_neg hpos.ne']
      rfl
  | readEntry i =>
    rw [Call.blind, call, readEntry_eq hc hb hr hf i, Call.answer, Answer.erased]
    by_cases hi : 1 ≤ i ∧ i ≤ m
    · rw [if_pos hi, if_pos hi, ← entryAt_erased H v (positionOf S H v) i]
      rfl
    · rw [if_neg hi, if_neg hi]
      rfl
  | scan i0 i1 callback init =>
    rw [Call.blind, call, scan_eq h hc hm hf, Call.answer,
      entriesBetween_eq S H v _ (Nat.le_max_right _ _)]
    simp only [Prog.onFst, scanList_map, map_erased_entriesFrom]
    rfl

end Answers

end Query

/-! ### Queries only read -/

/-- A storage whose reads and scans leave it as it is. -/
structure Storage.ReadsOnly (S : Storage (Entry w)) : Prop where
  read : ∀ position, Keeps id (S.read position)
  scan : ∀ position count {κ : Type} (callback : ScanFn (Entry w) κ),
    Keeps Prod.snd (S.scan position count callback)

/-- The loop of a scan of the key-value storage. -/
theorem MemKVS.keeps_scanFrom {α κ : Type} (callback : ScanFn α κ) (position : Position) :
    ∀ count i, Keeps Prod.snd (MemKVS.scanFrom callback position count i)
  | 0, _ => .pure 0
  | count + 1, i => by
    rw [MemKVS.scanFrom]
    refine Keeps.bind (.lift _) fun p => ?_
    rintro ⟨a, kvs⟩
    rw [Prog.bind_ok (Prog.get_run _)]
    cases kvs.lookup p with
    | none => rfl
    | some data =>
      simp only
      rcases callback data a with ⟨e | ⟨⟩, b⟩
      · rfl
      · exact ((keeps_scanFrom callback position count (i + 1)).bind fun _ => .pure _) (b, kvs)

theorem MemKVS.keeps_read {α : Type} (position : Position) :
    Keeps id (MemKVS.read position : Run (MemKVS α) α) := by
  intro kvs
  rw [MemKVS.read, Prog.bind_ok (Prog.get_run kvs)]
  cases kvs.lookup position with
  | none => rfl
  | some data => rfl

/-- Reads and scans of the block storage are the business of a cursor. -/
theorem BlockStorage.keeps_read (checksum : Checksum) (position : Position) :
    Keeps id (BlockStorage.read (w := w) memoryDevice checksum position) := fun self =>
  congrArg Prod.snd (BlockStorage.read_eq_readReader checksum
    (show memoryDevice.cloneDevice self.device = (.ok _, self.device) from rfl))

theorem BlockStorage.keeps_scan (checksum : Checksum) (position : Position) (count : ℕ) {κ : Type}
    (callback : ScanFn (Entry w) κ) :
    Keeps Prod.snd (BlockStorage.scan memoryDevice checksum position count callback) := by
  rintro ⟨a, self⟩
  rw [BlockStorage.scan, Prog.bind_ok (Prog.onSnd_run (BlockStorage.reader_eq rfl) a)]
  rfl

/-- **The backends in memory only read.** -/
theorem readsOnly_memKVS : (Backend.memKVS (w := w)).log.ReadsOnly where
  read position := MemKVS.keeps_read position
  scan position count _ callback := MemKVS.keeps_scanFrom callback position count 0

theorem readsOnly_blockMemory (hw : w ≤ 64) (checksum : Checksum) :
    (Backend.blockMemory hw checksum).log.ReadsOnly where
  read position := BlockStorage.keeps_read checksum position
  scan position count _ callback := BlockStorage.keeps_scan checksum position count callback

namespace Query

section Keeping

variable {S : Storage (Entry w)} (hS : S.ReadsOnly) (q : Query S)

include hS

theorem keeps_fetchLeft (c : Cache w) (left : Address) : Keeps id (fetchLeft S c left) := by
  rw [fetchLeft]
  cases c.entry left.i with
  | some entry => exact .pure entry
  | none =>
    refine (hS.read left.position).bind fun entry => ?_
    by_cases hi : entry.index ≠ left.i
    · rw [if_pos hi]
      exact .lift _
    · rw [if_neg hi]
      exact .pure entry

theorem keeps_descend (i : Index) (current : INode w) : Keeps id (q.descend i current) := by
  rw [descend]
  refine (keeps_fetchLeft hS _ _).bind fun left => Keeps.bind (.lift _) fun _ =>
    Keeps.bind (.lift _) fun _ => ?_
  by_cases hj : current.left.j = 0
  · rw [if_pos hj]
    exact .pure _
  · rw [if_neg hj]
    cases left.inodes.findIdx? fun inode => inode.metaInfo.address.j = current.left.j with
    | some k => exact .pure _
    | none => exact .lift _

theorem keeps_walkDownFrom {κ : Type} (callback : WalkFn w κ) :
    ∀ fuel k entry, Keeps Prod.snd (q.walkDownFrom callback fuel k entry)
  | 0, _, _ => .stop _
  | fuel + 1, 0, entry => (Keeps.onFst _).bind fun _ => .pure ()
  | fuel + 1, k + 1, entry => by
    have hleft : ∀ current : INode w, Keeps Prod.snd
        (Prog.onSnd (q.descend entry.index current) >>= fun left =>
          q.walkDownFrom callback fuel left.2 left.1 : Run (κ × S.State) Unit) := fun current =>
      (Keeps.onSnd (keeps_descend hS q _ current)).bind fun left =>
        keeps_walkDownFrom callback fuel left.2 left.1
    rw [walkDownFrom]
    refine Keeps.bind (.lift _) fun current => (Keeps.onFst _).bind fun dir => ?_
    cases dir with
    | terminate => exact .pure ()
    | right => exact keeps_walkDownFrom callback fuel k entry
    | left => exact hleft current
    | both => exact (keeps_walkDownFrom callback fuel k entry).bind fun _ => hleft current

theorem keeps_walkDown {κ : Type} (fuel : ℕ) (callback : WalkFn w κ) :
    Keeps Prod.snd (q.walkDown fuel callback) := by
  rw [walkDown]
  cases q.cache.lastEntry with
  | none => exact .pure ()
  | some entry => exact keeps_walkDownFrom hS q callback fuel _ entry

theorem keeps_collect {κ : Type} (fuel : ℕ) (callback : WalkFn w κ) (init : κ) :
    Keeps id (q.collect fuel callback init) := by
  intro s
  have h := keeps_walkDown hS q fuel callback (init, s)
  rw [collect]
  rcases hwalk : q.walkDown fuel callback (init, s) with ⟨e | ⟨⟩, a, s'⟩
  · rw [hwalk] at h
    exact h
  · rw [hwalk] at h
    exact h

theorem keeps_readEntryFrom (i : Index) : ∀ fuel entry, Keeps id (q.readEntryFrom i fuel entry)
  | 0, _ => .stop _
  | fuel + 1, entry => by
    rw [readEntryFrom]
    by_cases hi : entry.index = i
    · rw [if_pos hi]
      exact .pure _
    · rw [if_neg hi]
      refine Keeps.bind (.lift _) fun found => ?_
      cases found with
      | none => exact .pure _
      | some inode =>
        exact (keeps_fetchLeft hS _ _).bind fun next => keeps_readEntryFrom i fuel next

theorem keeps_readEntry (fuel : ℕ) (i : Index) : Keeps id (q.readEntry fuel i) := by
  rw [readEntry]
  cases q.cache.entry q.revision with
  | none => exact .pure none
  | some entry => exact keeps_readEntryFrom hS q i fuel entry

theorem keeps_scan {κ : Type} (fuel i0 i1 : ℕ) (callback : ScanFn (Entry w) κ) :
    Keeps Prod.snd (q.scan fuel i0 i1 callback) := by
  rw [scan]
  by_cases hlt : min (max i0 i1) q.revision < max (min i0 i1) 1
  · rw [if_pos hlt]
    exact .pure 0
  · rw [if_neg hlt]
    refine Keeps.bind (.lift _) fun _ =>
      (Keeps.onSnd (keeps_readEntry hS q fuel _)).bind fun found => ?_
    cases found with
    | none => exact .pure 0
    | some entry =>
      exact Keeps.bind (.lift _) fun d => Keeps.bind (.lift _) fun count => hS.scan _ count callback

/-- **A call leaves the storage as it is**, whatever is in it. -/
theorem keeps_call (fuel : ℕ) (c : Call w) (st : S.State) : (q.call fuel c st).2 = st := by
  cases c with
  | get i =>
    have hget : Keeps id (q.get fuel i) := by
      rw [get]
      by_cases hi : i = 0 ∨ q.revision < i
      · rw [if_pos hi]
        exact .pure none
      · rw [if_neg hi]
        exact (keeps_collect hS q fuel _ _).bind fun result => .lift result
    exact hget st
  | getSample i =>
    exact ((keeps_collect hS q fuel _ _).bind fun x => .pure _) st
  | walkDown callback init => exact keeps_walkDown hS q fuel callback (init, st)
  | readEntry i => exact keeps_readEntry hS q fuel i st
  | scan i0 i1 callback init => exact keeps_scan hS q fuel i0 i1 callback (init, st)

end Keeping

end Query

end StratifiedHashTree
