import StratifiedHashTree.Backend

/-!
# The inspector

`report` of `inspect.rs` reads the content of a block storage from the first record to the last,
and prints beside every field whether it is what it should be. It has a parser of its own, and it
computes the hashes and the links once more, from tables of what it has seen before. Here its
output is the list of these checks with their results.

On the content of a slate it gets to the end, and finds every link and every payload right. But
it asks two questions wrongly. The offset is counted from the end of the entry, and the inspector
counts it from the end of the delimiter; and it combines the hashes of two children at the height
of the left one, where the slate combines them at the height of the node
(`StratifiedHashTree.report_eq`). So the first record already fails a check
(`StratifiedHashTree.report_agrees_iff`).
-/

namespace StratifiedHashTree

open Outcome Formula FormulaTree

variable {w : ℕ}

/-! ### Reading a record -/

/-- An intermediate node, as it is stored. -/
structure ReportedNode (w : ℕ) where
  j : ℕ
  leftPosition : Position
  leftI : Index
  leftJ : ℕ
  hash : Hash w

/-- An entry, as it is stored. -/
structure ReportedEntry (w : ℕ) where
  i : Index
  inodes : List (ReportedNode w)
  payloadLen : ℕ
  payload : Bytes
  hash : Hash w

section Reading

variable {σ : Type}

/-- Reads so many nodes. The height is not masked. -/
def readReportedNodes (read : ℕ → Run σ Bytes) : ℕ → Run σ (List (ReportedNode w))
  | 0 => return []
  | count + 1 => do
    let b ← read 1
    let j ← addBits 8 (ofLeBytes b) 1
    let leftPosition ← read 8
    let leftI ← read 8
    let leftJ ← read 1
    let hash ← read w
    let inodes ← readReportedNodes read count
    return { j := j, leftPosition := ofLeBytes leftPosition, leftI := ofLeBytes leftI
             leftJ := ofLeBytes leftJ, hash := Hash.fill hash } :: inodes

/-- Reads an entry. Neither is the length of the payload. -/
def readReported (read : ℕ → Run σ Bytes) : Run σ (ReportedEntry w) := do
  let i ← read 8
  let inodeSize ← read 1
  let inodes ← readReportedNodes read (ofLeBytes inodeSize)
  let payloadLen ← read 4
  let payload ← read (ofLeBytes payloadLen)
  let hash ← read w
  return { i := ofLeBytes i, inodes := inodes, payloadLen := ofLeBytes payloadLen
           payload := payload, hash := Hash.fill hash }

end Reading

/-! ### Checks -/

/-- What a check is about. -/
inductive Check where
  | identifier
  | version
  | left (i : Index) (j : ℕ)
  | right (i : Index) (j : ℕ)
  | hash (i : Index) (j : ℕ)
  | payload (i : Index)
  | payloadHash (i : Index)
  | offset (i : Index)
  | checksum (i : Index)
  deriving DecidableEq

/-- A check with its result. -/
abbrev Checked := Check × Bool

/-- **What the inspector has seen**: the positions of entries, the hashes of nodes, and what it has
printed. -/
structure Inspection (w : ℕ) (D : BlockDevice) where
  cursor : D.State
  location : Finmap fun _ : Index => Position
  hashes : Finmap fun _ : Index × ℕ => Hash w
  output : List Checked

namespace Inspection

variable {D : BlockDevice}

/-- Before the first byte. -/
def start (cursor : D.State) : Inspection w D :=
  { cursor := cursor, location := ∅, hashes := ∅, output := [] }

/-- A program on the cursor. -/
def onCursor {α : Type} (x : Run D.State α) : Run (Inspection w D) α := fun self =>
  ((x self.cursor).1, { self with cursor := (x self.cursor).2 })

/-- Prints results. -/
def eval (checks : List Checked) : Run (Inspection w D) Unit :=
  Prog.modify fun self => { self with output := self.output ++ checks }

/-- Remembers the position and the hashes of an entry. -/
def remember (position : Position) (entry : ReportedEntry w) : Run (Inspection w D) Unit :=
  Prog.modify fun self =>
    { self with
      location := self.location.insert entry.i position
      hashes := (insertAll (fun n : ReportedNode w => (entry.i, n.j)) (fun n => n.hash) self.hashes
        entry.inodes).insert (entry.i, 0) entry.hash }

section Checks

variable (H : HashFn w)

/-- The hash of a node, from those of its children. The height is that of the left child. -/
def combined (self : Inspection w D) (i : Index) (prevJ : ℕ) (n : ReportedNode w) :
    Option (Hash w) := do
  let hl ← self.hashes.lookup (n.leftI, n.leftJ)
  let hr ← self.hashes.lookup (i, prevJ)
  return hl.combine H n.leftJ hr

/-- The checks of the nodes of an entry, from the node above the height `prevJ` upwards. -/
def inodeChecks (self : Inspection w D) (position : Position) (i : Index) :
    ℕ → List (ReportedNode w) → List Checked
  | _, [] => []
  | prevJ, n :: rest =>
    (.left i n.j, decide (self.location.lookup n.leftI = some n.leftPosition)) ::
    (.right i n.j, decide (prevJ = 0 ∨ self.location.lookup i = some position)) ::
    (.hash i n.j, decide (self.combined H i prevJ n = some n.hash)) ::
      inodeChecks self position i n.j rest

end Checks

end Inspection

/-- A program on a reader that counts, from the start of a record. -/
def checksummed {D : BlockDevice} {α : Type} (x : Run (ChecksumRead D) α) : Run D.State α :=
  fun s => ((x (ChecksumRead.new s)).1, (x (ChecksumRead.new s)).2.input)

section Reports

variable (D : BlockDevice) (checksum : Checksum) (H : HashFn w)

open Inspection

/-- A record. -/
def reportEntry : Run (Inspection w D) Unit := do
  let position ← onCursor D.streamPosition
  let (entry, (_, (offset, stored), (_, actual))) ← onCursor (checksummed (do
    let entry ← readReported (readExact (ChecksumRead.read D))
    let delimiter ← ChecksumRead.readDelimiter checksum
    return (entry, delimiter)))
  remember position entry
  let trailerPosition ← onCursor D.streamPosition
  let self ← Prog.get
  eval (self.inodeChecks H position entry.i 0 entry.inodes)
  eval [(.payload entry.i, decide (entry.payloadLen = entry.payload.length % 2 ^ 32)),
    (.payloadHash entry.i, decide (Hash.fromBytes H 0 entry.payload = entry.hash))]
  -- the trailer is behind the delimiter, and the offset was counted before it
  let head ← subBits trailerPosition offset
  eval [(.offset entry.i, decide (head = position)),
    (.checksum entry.i, decide (stored = actual))]

/-- The records up to the end of the content; each of them takes a byte at least. -/
def reportFrom (eof : Position) : ℕ → Run (Inspection w D) Unit
  | 0 => fun s => (.error .outOfFuel, s)
  | fuel + 1 => do
    let position ← onCursor D.streamPosition
    if position < eof then do
      reportEntry D checksum H
      reportFrom eof fuel
    else
      return ()

def report : Run (Inspection w D) Unit := do
  let eof ← onCursor (D.seek (.fromEnd 0))
  let _ ← onCursor (D.seek (.start 0))
  let identifier ← onCursor (readExact D.read 4)
  eval [(.identifier, decide (identifier.take 3 = STORAGE_IDENTIFIER)),
    (.version, isVersionCompatible (identifier.getD 3 0))]
  reportFrom D checksum H eof (eof + 1)

end Reports

/-! ### Reading what was written -/

/-- What is read of a node. -/
def reportedNode (inode : INode w) : ReportedNode w where
  j := inode.metaInfo.address.j
  leftPosition := inode.left.position
  leftI := inode.left.i
  leftJ := inode.left.j
  hash := inode.metaInfo.hash

/-- What is read of an entry. -/
def reportedEntry (e : Entry w) : ReportedEntry w where
  i := e.index
  inodes := e.inodes.map reportedNode
  payloadLen := e.enode.payload.length
  payload := e.enode.payload
  hash := e.enode.metaInfo.hash

section Consumed

variable {D : BlockDevice} {K : Disk D}

theorem consumes_readReportedNodes {i : Index} {p : Position} : ∀ (inodes : List (INode w))
    (below : ℕ), Chained i p below inodes →
    Consumes K (readReportedNodes (readExact (ChecksumRead.read D)) inodes.length)
      (inodes.flatMap encodeInode) (inodes.map reportedNode)
  | [], _, _ => Consumes.pure []
  | inode :: rest, _, h => by
    obtain ⟨-, h1, h2, h3, h4, h5, -, hrest⟩ := h
    have hj : inode.metaInfo.address.j - 1 < INDEX_SIZE := by omega
    have hj' : (addBits 8 (ofLeBytes (leBytes 1 (inode.metaInfo.address.j - 1))) 1 : Result ℕ) =
        .ok inode.metaInfo.address.j := by
      have h64 : INDEX_SIZE = 64 := rfl
      rw [ofLeBytes_leBytes (hj.trans_le (by decide)), addBits_of_lt (by omega),
        Nat.sub_add_cancel h1]
    have ih := consumes_readReportedNodes rest _ hrest
    have hnode : (⟨inode.metaInfo.address.j, ofLeBytes (leBytes 8 inode.left.position),
        ofLeBytes (leBytes 8 inode.left.i), ofLeBytes (leBytes 1 inode.left.j),
          Hash.fill inode.metaInfo.hash.value⟩ : ReportedNode w) = reportedNode inode := by
      rw [Hash.fill_value, ofLeBytes_leBytes (h4.trans_le (by decide)),
        ofLeBytes_leBytes (h5.trans_le (by decide)), ofLeBytes_leBytes (h3.trans_le (by decide))]
      rfl
    rw [List.length_cons, readReportedNodes, List.flatMap_cons, encodeInode, List.append_assoc,
      List.append_assoc, List.append_assoc, List.append_assoc]
    refine (Consumes.read (length_leBytes 1 _)).bind ?_
    rw [hj', Prog.liftM_eq, Prog.lift_ok_bind]
    refine (Consumes.read (length_leBytes 8 _)).bind ((Consumes.read (length_leBytes 8 _)).bind
      ((Consumes.read (length_leBytes 1 _)).bind
        ((Consumes.read inode.metaInfo.hash.length_value).bind ?_)))
    rw [hnode]
    exact ih.map

/-- **The inspector reads an entry** as it was written. -/
theorem consumes_readReported {p : Position} {e : Entry w} (h : e.Placed p) :
    Consumes K (readReported (readExact (ChecksumRead.read D))) (encodeEntry e)
      (reportedEntry e) := by
  have hi : ofLeBytes (leBytes 8 e.index) = e.index :=
    ofLeBytes_leBytes (h.index_lt.trans_le (by decide))
  have hcount : ofLeBytes (leBytes 1 e.inodes.length) = e.inodes.length :=
    ofLeBytes_leBytes (lt_of_le_of_lt h.inodes_le (by decide))
  have hsize : ofLeBytes (leBytes 4 e.enode.payload.length) = e.enode.payload.length :=
    ofLeBytes_leBytes (lt_of_le_of_lt h.payload_le (by decide))
  have hentry : (⟨ofLeBytes (leBytes 8 e.index), e.inodes.map reportedNode,
      ofLeBytes (leBytes 4 e.enode.payload.length), e.enode.payload,
        Hash.fill e.enode.metaInfo.hash.value⟩ : ReportedEntry w) = reportedEntry e := by
    rw [hi, hsize, Hash.fill_value]
    rfl
  rw [readReported, encodeEntry, List.append_assoc, List.append_assoc]
  refine (Consumes.read (length_leBytes 8 _)).bind ((Consumes.read (length_leBytes 1 _)).bind ?_)
  rw [hcount]
  refine (consumes_readReportedNodes e.inodes 0 h.chained).bind
    ((Consumes.read (length_leBytes 4 _)).bind ?_)
  rw [hsize]
  refine (Consumes.read rfl).bind ?_
  have hhash := (Consumes.read (K := K) e.enode.metaInfo.hash.length_value).map (f := fun hash =>
    (⟨ofLeBytes (leBytes 8 e.index), e.inodes.map reportedNode, e.enode.payload.length,
      e.enode.payload, Hash.fill hash⟩ : ReportedEntry w))
  rw [← hsize, hentry] at hhash
  rw [← hsize]
  exact hhash

/-- So a record is read to its end. -/
theorem checksummed_record (hw : w ≤ 64) (checksum : Checksum) {p : Position} {e : Entry w}
    (h : e.Placed p) (ro : Bool) {buffer : Bytes} {q : ℕ} {post : Bytes}
    (hdrop : buffer.drop q = record checksum e ++ post) :
    checksummed (do
      let entry ← readReported (readExact (ChecksumRead.read D))
      let delimiter ← ChecksumRead.readDelimiter checksum
      return (entry, delimiter)) (K.state ro buffer q) =
      (.ok (reportedEntry e, (12, ((encodeEntry e).length, checksum (checkedBytes e)),
          ((encodeEntry e).length, checksum (checkedBytes e)))),
        K.state ro buffer (q + (record checksum e).length)) := by
  have hlt := length_record_lt hw checksum h
  have hlen := length_record checksum e
  rw [record, checkedBytes, List.append_assoc, List.append_assoc] at hdrop
  have hentry := consumes_readReported (K := K) h ro buffer q _ [] 0 hdrop (by omega)
  rw [List.nil_append, Nat.zero_add] at hentry
  have hdelimiter := readDelimiter_eq K hw checksum h ro (drop_add_length hdrop)
  rw [checksummed]
  simp only [ChecksumRead.new]
  rw [Prog.bind_ok hentry, Prog.bind_ok hdelimiter, hlen]
  rfl

theorem onCursor_run {α : Type} {x : Run D.State α} {o : Result α} {r : Inspection w D}
    {c : D.State} (h : x r.cursor = (o, c)) :
    Inspection.onCursor x r = (o, { r with cursor := c }) := by
  rw [Inspection.onCursor, h]

theorem eval_run (checks : List Checked) (r : Inspection w D) :
    Inspection.eval checks r = (.ok (), { r with output := r.output ++ checks }) := rfl

/-- **The report of a record**: the results for the nodes, and for what stands alone. The offset is
compared with a place twelve bytes further on. -/
theorem reportEntry_run (H : HashFn w) (hw : w ≤ 64) {checksum : Checksum} {p : ℕ} {e : Entry w}
    (he : e.Placed p) {ro : Bool} {buffer post : Bytes} (hlt : buffer.length < 2 ^ 63)
    (hdrop : buffer.drop p = record checksum e ++ post) {r r' : Inspection w D}
    (hcursor : r.cursor = K.state ro buffer p)
    (hremember : Inspection.remember p (reportedEntry e)
      { r with cursor := K.state ro buffer (p + (record checksum e).length) } = (.ok (), r'))
    (hcursor' : r'.cursor = K.state ro buffer (p + (record checksum e).length)) :
    reportEntry D checksum H r = (.ok (), { r' with
      output := r'.output ++ (r'.inodeChecks H p e.index 0 (reportedEntry e).inodes ++
        [(.payload e.index, decide (e.enode.payload.length = e.enode.payload.length % 2 ^ 32)),
          (.payloadHash e.index,
            decide (Hash.fromBytes H 0 e.enode.payload = e.enode.metaInfo.hash)),
          (.offset e.index, false), (.checksum e.index, true)]) }) := by
  have hrecord := length_record checksum e
  have hle : p + (record checksum e).length ≤ buffer.length := by
    have h1 := congrArg List.length hdrop
    rw [List.length_drop, List.length_append] at h1
    omega
  obtain ⟨cursor, location, hashes, output⟩ := r
  obtain ⟨cursor', location', hashes', output'⟩ := r'
  simp only at hcursor hcursor'
  subst hcursor hcursor'
  have hposition := onCursor_run (r := ⟨_, location, hashes, output⟩)
    (K.streamPosition_eq ro buffer (show p < 2 ^ 63 by omega))
  have hread := onCursor_run (r := ⟨_, location, hashes, output⟩)
    (checksummed_record (K := K) hw checksum he ro hdrop)
  have htrailer := onCursor_run (r := ⟨_, location', hashes', output'⟩)
    (K.streamPosition_eq ro buffer (hle.trans_lt hlt))
  have hhead : (subBits (p + (record checksum e).length) (encodeEntry e).length : Result ℕ) =
      .ok (p + 12) := by
    rw [hrecord, subBits_of_le (by omega), Nat.add_comm (encodeEntry e).length, ← Nat.add_assoc,
      Nat.add_sub_cancel]
  have hoffset : decide (p + 12 = p) = false :=
    decide_eq_false (Nat.lt_add_of_pos_right (Nat.succ_pos 11)).ne'
  rw [reportEntry, Prog.bind_ok hposition, Prog.bind_ok hread]
  simp only
  rw [Prog.bind_ok hremember, Prog.bind_ok htrailer, Prog.bind_ok (Prog.get_run _),
    Prog.bind_ok (eval_run _ _), Prog.bind_ok (eval_run _ _), Prog.liftM_eq, hhead,
    Prog.lift_ok_bind, hoffset, eval_run]
  simp only [decide_true, List.append_assoc, List.cons_append, List.nil_append]
  rfl

end Consumed

/-! ### What the inspector says of a slate -/

section Said

variable (H : HashFn w) (v : ℕ → Bytes)

/-- What it says of an intermediate node. -/
def nodeChecks (p : Tree × Tree) : List Checked :=
  [(.left p.2.hi (Tree.node p.1 p.2).height, true),
    (.right p.2.hi (Tree.node p.1 p.2).height, true),
    (.hash p.2.hi (Tree.node p.1 p.2).height,
      decide ((treeHash H v p.1).combine H p.1.height (treeHash H v p.2) =
        treeHash H v (.node p.1 p.2)))]

/-- **What it says of an entry**: the offset is wrong. -/
def entryChecks (i : Index) : List Checked :=
  (Tree.upTo i).spine.reverse.flatMap (nodeChecks H v) ++
    [(.payload i, true), (.payloadHash i, true), (.offset i, false), (.checksum i, true)]

/-- What it says of the first entries. -/
def saidOf (n : ℕ) : List Checked :=
  [(.identifier, true), (.version, true)] ++
    (List.range n).flatMap fun k => entryChecks H v (k + 1)

theorem saidOf_succ (n : ℕ) : saidOf H v (n + 1) = saidOf H v n ++ entryChecks H v (n + 1) := by
  rw [saidOf, saidOf, List.range_succ, List.flatMap_append, List.flatMap_singleton,
    List.append_assoc]

/-- It finds the offset of the first entry wrong. -/
theorem offset_mem_saidOf {n : ℕ} (hn : 0 < n) :
    ((.offset 1, false) : Checked) ∈ saidOf H v n := by
  refine List.mem_append_right _ (List.mem_flatMap.mpr ⟨0, List.mem_range.mpr hn, ?_⟩)
  exact List.mem_append_right _ (by simp)

variable {D : BlockDevice} (pos : ℕ → Position)

/-- **What the inspector has seen** after the first entries. -/
structure Inspection.Seen (k : ℕ) (r : Inspection w D) : Prop where
  location : ∀ i, 1 ≤ i → i ≤ k → r.location.lookup i = some (pos i)
  hashes : ∀ t : Tree, t.LeftPerfect → t.hi ≤ k →
    r.hashes.lookup t.label = some (treeHash H v t)

variable {H v pos}

theorem reportedEntry_inodes (i : ℕ) : (reportedEntry (entryAt H v pos i)).inodes =
    (Tree.upTo i).spine.reverse.map fun p => reportedNode (spineINode H v pos p) := by
  rw [reportedEntry, entryAt, ← List.map_reverse, List.map_map]
  rfl

/-- An entry has one node of each height. -/
theorem hash_eq_of_height_eq {i : ℕ} (hi : 1 ≤ i) {x y : ReportedNode w}
    (hx : x ∈ (reportedEntry (entryAt H v pos i)).inodes)
    (hy : y ∈ (reportedEntry (entryAt H v pos i)).inodes) (h : x.j = y.j) : x.hash = y.hash := by
  rw [reportedEntry_inodes] at hx hy
  obtain ⟨p, hp, rfl⟩ := List.mem_map.mp hx
  obtain ⟨q, hq, rfl⟩ := List.mem_map.mp hy
  obtain ⟨hp1, hp2, -, -⟩ := (Tree.leftPerfect_upTo hi).of_mem_spine (List.mem_reverse.mp hp)
  obtain ⟨hq1, hq2, -, -⟩ := (Tree.leftPerfect_upTo hi).of_mem_spine (List.mem_reverse.mp hq)
  have htree : Tree.node p.1 p.2 = .node q.1 q.2 := hp1.eq_of_label hq1 (hp2.trans hq2.symm) h
  exact congrArg (treeHash H v) htree

/-- Remembering one more entry. -/
theorem Inspection.Seen.remember {k : ℕ} {s : Inspection w D} (h : s.Seen H v pos k) :
    ∃ r', Inspection.remember (pos (k + 1)) (reportedEntry (entryAt H v pos (k + 1))) s =
        (.ok (), r') ∧ r'.Seen H v pos (k + 1) ∧ r'.cursor = s.cursor ∧
      r'.output = s.output := by
  refine ⟨_, rfl, ⟨fun i h1 h2 => ?_, fun t ht hhi => ?_⟩, rfl, rfl⟩
  · change (s.location.insert (k + 1) (pos (k + 1))).lookup i = _
    rcases h2.eq_or_lt with rfl | hlt
    · rw [Finmap.lookup_insert]
    · rw [Finmap.lookup_insert_of_ne _ (by omega)]
      exact h.location i h1 (by omega)
  · change (Finmap.insert (k + 1, 0) (treeHash H v (.leaf (k + 1))) (insertAll
      (fun n : ReportedNode w => (k + 1, n.j)) (fun n => n.hash) s.hashes
      (reportedEntry (entryAt H v pos (k + 1))).inodes)).lookup t.label = _
    rcases hhi.eq_or_lt with heq | hlt
    · cases t with
      | leaf i =>
        obtain rfl : i = k + 1 := heq
        exact Finmap.lookup_insert _
      | node l r =>
        have hmem : (l, r) ∈ (Tree.upTo (k + 1)).spine := by
          have hsuffix := ht.spine_suffix_upTo
          rw [heq] at hsuffix
          exact hsuffix.subset List.mem_cons_self
        have hnode : reportedNode (spineINode H v pos (l, r)) ∈
            (reportedEntry (entryAt H v pos (k + 1))).inodes := by
          rw [reportedEntry_inodes]
          exact List.mem_map_of_mem (List.mem_reverse.mpr hmem)
        have hlabel : (Tree.node l r).label = (k + 1, (Tree.node l r).height) := by
          rw [Tree.label, heq]
        rw [hlabel, Finmap.lookup_insert_of_ne _ (by
          intro hcon
          exact absurd (congrArg Prod.snd hcon) (by rw [Tree.height_node]; simp))]
        exact lookup_insertAll _ _ (fun x hx y hy hxy => hash_eq_of_height_eq (Nat.le_add_left 1 k)
          hx hy (congrArg Prod.snd hxy)) _ hnode
    · have hne : ∀ j, t.label ≠ (k + 1, j) := by
        intro j hcon
        have h1 : t.hi = k + 1 := congrArg Prod.fst hcon
        omega
      rw [Finmap.lookup_insert_of_ne _ (hne 0), lookup_insertAll_of_ne _ _ fun x _ => (hne _).symm]
      exact h.hashes t ht (by omega)

/-- **The checks of the nodes of an entry**, once everything below them is known. -/
theorem Inspection.Seen.inodeChecks_eq {k : ℕ} {s : Inspection w D} (h : s.Seen H v pos k)
    {t : Tree} (ht : t.LeftPerfect) : t.hi = k → ∀ rest,
      s.inodeChecks H (pos k) k 0
        ((t.spine.reverse.map fun p => reportedNode (spineINode H v pos p)) ++ rest) =
      t.spine.reverse.flatMap (nodeChecks H v) ++
        s.inodeChecks H (pos k) k t.height rest := by
  induction ht with
  | leaf => exact fun _ _ => rfl
  | @node l r hl hr hp hle ha hd _ ihr =>
    intro hhi rest
    have hlr : (Tree.node l r).LeftPerfect := .node hl hr hp hle ha hd
    have hlt := hlr.hi_left_lt
    have hrk : r.hi = k := hhi
    have hleft : s.location.lookup l.hi = some (pos l.hi) :=
      h.location l.hi hl.hi_pos (by omega)
    have hright : s.location.lookup k = some (pos k) := by
      have h1 := h.location r.hi hr.hi_pos (by omega)
      rwa [hrk] at h1
    have hl' : s.hashes.lookup (l.hi, l.height) = some (treeHash H v l) :=
      h.hashes l hl (by omega)
    have hr' : s.hashes.lookup (k, r.height) = some (treeHash H v r) := by
      have h1 := h.hashes r hr (by omega)
      rwa [Tree.label, hrk] at h1
    have hcombined : s.combined H k r.height (reportedNode (spineINode H v pos (l, r))) =
        some ((treeHash H v l).combine H l.height (treeHash H v r)) := by
      change (s.hashes.lookup (l.hi, l.height) >>= fun hl =>
        s.hashes.lookup (k, r.height) >>= fun hr => pure (hl.combine H l.height hr)) = _
      rw [hl', hr']
      rfl
    rw [Tree.spine_node, List.reverse_cons, List.map_append, List.append_assoc, ihr hrk,
      List.flatMap_append, List.append_assoc, List.map_singleton, List.singleton_append,
      inodeChecks, hcombined, List.flatMap_singleton, nodeChecks, hrk]
    simp only [reportedNode, spineINode_left, nodeAddress_i, nodeAddress_position, hleft, hright,
      spineINode_metaInfo, nodeInfo_address, nodeAddress_j, nodeInfo_hash, or_true, decide_true,
      Option.some.injEq, List.cons_append, List.nil_append]

end Said

/-! ### The report of a slate -/

section Reported

variable {D₀ D : BlockDevice} {K₀ : Disk D₀} (K : Disk D) {hw : w ≤ 64} {checksum : Checksum}
  {H : HashFn w} {v : ℕ → Bytes} {n k : ℕ} {ro : Bool}

/-- The content of a slate on a block storage. -/
abbrev slateContent (K₀ : Disk D₀) (hw : w ≤ 64) (checksum : Checksum) (H : HashFn w)
    (v : ℕ → Bytes) (n : ℕ) : Bytes :=
  BlockStorage.content checksum (history (Backend.block K₀ hw checksum).log H v n)

/-- Where an entry begins in it. -/
abbrev slatePosition (K₀ : Disk D₀) (hw : w ≤ 64) (checksum : Checksum) (H : HashFn w)
    (v : ℕ → Bytes) (i : ℕ) : Position := positionOf (Backend.block K₀ hw checksum).log H v i

/-- **The report of an entry.** -/
theorem reportEntry_eq (hf : Fits (Backend.block K₀ hw checksum).log H v n) (hk : k < n)
    {r : Inspection w D}
    (hcursor : r.cursor = K.state ro (slateContent K₀ hw checksum H v n)
      (slatePosition K₀ hw checksum H v (k + 1)))
    (hseen : r.Seen H v (slatePosition K₀ hw checksum H v) k) :
    ∃ r', reportEntry D checksum H r = (.ok (), r') ∧
      r'.cursor = K.state ro (slateContent K₀ hw checksum H v n)
        (slatePosition K₀ hw checksum H v (k + 2)) ∧
      r'.Seen H v (slatePosition K₀ hw checksum H v) (k + 1) ∧
      r'.output = r.output ++ entryChecks H v (k + 1) := by
  have hpayload := hf.payload_le (k + 1) (Nat.le_add_left 1 k) hk
  have hplaced := hf.placed (Nat.le_add_left 1 k) (Nat.succ_le_succ hk.le) hpayload
  obtain ⟨post, hdrop⟩ := drop_block_content (H := H) (v := v) K₀ hw checksum
    (Nat.le_add_left 1 k) (Nat.succ_le_of_lt hk)
  have hnext : slatePosition K₀ hw checksum H v (k + 2) =
      slatePosition K₀ hw checksum H v (k + 1) +
        (record checksum (entryOf (Backend.block K₀ hw checksum).log H v (k + 1))).length :=
    positionOf_block_succ H v K₀ hw checksum (Nat.le_add_left 1 k)
  obtain ⟨r', hremember, hseen', hcursor', houtput⟩ := Inspection.Seen.remember
    (s := ⟨K.state ro (slateContent K₀ hw checksum H v n)
      (slatePosition K₀ hw checksum H v (k + 1) +
        (record checksum (entryOf (Backend.block K₀ hw checksum).log H v (k + 1))).length),
      r.location, r.hashes, r.output⟩) ⟨hseen.location, hseen.hashes⟩
  have hchecks := hseen'.inodeChecks_eq (Tree.leftPerfect_upTo (Nat.le_add_left 1 k))
    (Tree.hi_upTo (Nat.le_add_left 1 k)) []
  rw [List.append_nil, ← reportedEntry_inodes, Inspection.inodeChecks, List.append_nil] at hchecks
  have hlength : (v (k + 1)).length = (v (k + 1)).length % 2 ^ 32 :=
    (Nat.mod_eq_of_lt (lt_of_le_of_lt hpayload (by decide))).symm
  have hhash : Hash.fromBytes H 0 (v (k + 1)) =
      (entryOf (Backend.block K₀ hw checksum).log H v (k + 1)).enode.metaInfo.hash := rfl
  refine ⟨_, reportEntry_run H hw hplaced (BlockStorage.Room.lt hf.room) hdrop hcursor hremember
    hcursor', ?_, ⟨hseen'.location, hseen'.hashes⟩, ?_⟩
  · rw [hnext]
    exact hcursor'
  · rw [houtput, entryChecks, ← hchecks, entryAt_index, entryAt_payload, decide_eq_true hlength,
      decide_eq_true hhash]

/-- The reports of the entries that are left. -/
theorem reportFrom_eq (hf : Fits (Backend.block K₀ hw checksum).log H v n) (fuel : ℕ)
    (hk : k ≤ n) (hfuel : n - k < fuel) {r : Inspection w D}
    (hcursor : r.cursor = K.state ro (slateContent K₀ hw checksum H v n)
      (slatePosition K₀ hw checksum H v (k + 1)))
    (hseen : r.Seen H v (slatePosition K₀ hw checksum H v) k)
    (houtput : r.output = saidOf H v k) :
    ∃ r', reportFrom D checksum H (slatePosition K₀ hw checksum H v (n + 1)) fuel r =
        (.ok (), r') ∧
      r'.cursor = K.state ro (slateContent K₀ hw checksum H v n)
        (slatePosition K₀ hw checksum H v (n + 1)) ∧
      r'.output = saidOf H v n := by
  have hlt : (slateContent K₀ hw checksum H v n).length < 2 ^ 63 := BlockStorage.Room.lt hf.room
  induction fuel generalizing k r with
  | zero => exact absurd hfuel (Nat.not_lt_zero _)
  | succ fuel ih =>
    have hposition : Inspection.onCursor D.streamPosition r =
        (.ok (slatePosition K₀ hw checksum H v (k + 1)), r) := by
      have hle : slatePosition K₀ hw checksum H v (k + 1) ≤
          (slateContent K₀ hw checksum H v n).length :=
        positionOf_mono (B := .block K₀ hw checksum) (Nat.succ_le_succ hk)
      have h1 := K.streamPosition_eq ro (slateContent K₀ hw checksum H v n)
        (lt_of_le_of_lt hle hlt)
      rw [← hcursor] at h1
      exact onCursor_run h1
    rw [reportFrom, Prog.bind_ok hposition]
    rcases hk.eq_or_lt with rfl | hlt'
    · rw [if_neg (lt_irrefl _)]
      exact ⟨r, rfl, hcursor, houtput⟩
    · have hnext : slatePosition K₀ hw checksum H v (k + 1) <
          slatePosition K₀ hw checksum H v (n + 1) := by
        have h1 := BlockStorage.content_take_lt checksum hlt'
          (length_history (Backend.block K₀ hw checksum).log H v n).ge
        rwa [take_history _ H v hk, take_history _ H v (Nat.le_refl n)] at h1
      obtain ⟨r', h1, h2, h3, h4⟩ := reportEntry_eq K hf hlt' hcursor hseen
      rw [if_pos hnext, Prog.bind_ok h1]
      refine ih hlt' (by omega) h2 h3 ?_
      rw [h4, houtput, saidOf_succ]

variable (ro) in
/-- **The report of a slate** gets to the end, and says this. -/
theorem report_eq (hf : Fits (Backend.block K₀ hw checksum).log H v n) (p : Position) :
    ∃ r', report D checksum H
        (Inspection.start (K.state ro (slateContent K₀ hw checksum H v n) p)) = (.ok (), r') ∧
      r'.cursor = K.state ro (slateContent K₀ hw checksum H v n)
        (slateContent K₀ hw checksum H v n).length ∧
      r'.output = saidOf H v n := by
  have hlt : (slateContent K₀ hw checksum H v n).length < 2 ^ 63 := BlockStorage.Room.lt hf.room
  have hlen : n + 4 ≤ (slateContent K₀ hw checksum H v n).length := by
    have h1 := BlockStorage.length_le_content checksum
      (history (Backend.block K₀ hw checksum).log H v n)
    rwa [length_history] at h1
  have hend := onCursor_run (r := (⟨_, ∅, ∅, []⟩ : Inspection w D)) (K.seek_end ro p hlt)
  have hstart := onCursor_run (r := (⟨_, ∅, ∅, []⟩ : Inspection w D))
    (K.seek_start ro (slateContent K₀ hw checksum H v n)
      (slateContent K₀ hw checksum H v n).length 0)
  have hheader : Inspection.onCursor (readExact D.read 4)
      (⟨K.state ro (slateContent K₀ hw checksum H v n) 0, ∅, ∅, []⟩ : Inspection w D) =
        (.ok BlockStorage.header, ⟨K.state ro (slateContent K₀ hw checksum H v n) 4, ∅, ∅, []⟩) :=
    onCursor_run (K.readExact_eq ro (show (slateContent K₀ hw checksum H v n).drop 0 =
      BlockStorage.header ++ _ from rfl))
  have hseen : (⟨K.state ro (slateContent K₀ hw checksum H v n) 4, ∅, ∅, saidOf H v 0⟩ :
      Inspection w D).Seen H v (slatePosition K₀ hw checksum H v) 0 :=
    ⟨fun i h1 h2 => absurd h1 (by omega), fun t ht hhi => absurd ht.hi_pos (by omega)⟩
  obtain ⟨r', h1, h2, h3⟩ := reportFrom_eq K hf ((slateContent K₀ hw checksum H v n).length + 1)
    (Nat.zero_le n) (by omega) rfl hseen rfl
  refine ⟨r', ?_, h2, h3⟩
  rw [report, Inspection.start, Prog.bind_ok hend, Prog.bind_ok hstart, Prog.bind_ok hheader]
  exact h1

end Reported

/-! ### When the report agrees -/

/-- **The inspector agrees with the writer** only where there is nothing to inspect: the report of
some appends gets to the end in any case, and all its checks come out true if and only if there
were no appends. -/
theorem report_agrees_iff {D₀ D : BlockDevice} {K₀ : Disk D₀} {hw : w ≤ 64} {checksum : Checksum}
    {H : HashFn w} {L : ℕ} {vs : List Bytes} {s : SlateOn (.block K₀ hw checksum)}
    {puts : List (Position × MetaInfo w)} (h : build (.block K₀ hw checksum) H L vs = .ok (s, puts))
    (K : Disk D) (ro : Bool) (p : Position) :
    (∃ r, report D checksum H (Inspection.start (K.state ro (K₀.content s.storage.device) p)) =
        (.ok (), r) ∧
      r.cursor = K.state ro (K₀.content s.storage.device) (K₀.content s.storage.device).length ∧
      ∀ check ∈ r.output, check.2 = true) ↔ vs = [] := by
  obtain ⟨hs, -⟩ := of_build h
  have hcontent : K₀.content s.storage.device = slateContent K₀ hw checksum H (payload vs)
      vs.length := by
    rw [hs.storage_eq]
    exact K₀.content_eq false _ _
  obtain ⟨r, h1, h2, h3⟩ := report_eq K ro hs.fits p
  rw [hcontent]
  constructor
  · rintro ⟨r', h1', -, hall⟩
    rw [h1] at h1'
    obtain rfl := (Prod.mk.inj h1').2
    rw [h3] at hall
    by_contra hne
    exact absurd (hall _ (offset_mem_saidOf H _ (List.length_pos_iff.mpr hne))) (by simp)
  · rintro rfl
    refine ⟨r, h1, h2, ?_⟩
    rw [h3]
    intro check hcheck
    simp only [saidOf, List.length_nil, List.range_zero, List.flatMap_nil, List.append_nil,
      List.mem_cons, List.not_mem_nil, or_false] at hcheck
    rcases hcheck with rfl | rfl <;> rfl

/-- A slate on memory, for examples. -/
abbrev memoryBlock : Backend 1 := .block MemoryDevice.disk one_le_64 fun _ => 7

theorem holds_empty : memoryBlock.Holds byteSum [[]] :=
  holds_of_length_lt memoryBlock (by decide) (by decide)

/-- An empty payload. -/
theorem report_agrees_iff_one : ∃ (s : SlateOn memoryBlock) (puts : List (Position × MetaInfo 1)),
    build memoryBlock byteSum 0 [[]] = .ok (s, puts) ∧
    ((∃ r, report memoryDevice (fun _ => 7) byteSum (Inspection.start (MemoryDevice.disk.state true
        (MemoryDevice.disk.content s.storage.device) 0)) = (.ok (), r) ∧
      r.cursor = MemoryDevice.disk.state true (MemoryDevice.disk.content s.storage.device)
        (MemoryDevice.disk.content s.storage.device).length ∧
      ∀ check ∈ r.output, check.2 = true) ↔ [([] : Bytes)] = []) := by
  obtain ⟨s, h, -⟩ := build_ok 0 holds_empty
  exact ⟨s, _, h, report_agrees_iff h MemoryDevice.disk true 0⟩

/-- **The first record fails a check.** -/
theorem not_report_agrees : ¬∀ (s : SlateOn memoryBlock) (puts : List (Position × MetaInfo 1)),
    build memoryBlock byteSum 0 [[]] = .ok (s, puts) →
    ∃ r, report memoryDevice (fun _ => 7) byteSum (Inspection.start (MemoryDevice.disk.state true
        (MemoryDevice.disk.content s.storage.device) 0)) = (.ok (), r) ∧
      r.cursor = MemoryDevice.disk.state true (MemoryDevice.disk.content s.storage.device)
        (MemoryDevice.disk.content s.storage.device).length ∧
      ∀ check ∈ r.output, check.2 = true := by
  intro hall
  obtain ⟨s, h, hs⟩ := build_ok 0 holds_empty
  obtain ⟨r, h1, -, h2⟩ := hall s _ h
  rw [hs.storage_eq] at h1
  obtain ⟨r', h3, -, h4⟩ := report_eq MemoryDevice.disk true hs.fits 0
  have h5 := h1.symm.trans h3
  obtain rfl := (Prod.mk.inj h5).2
  have hmem : ((.offset 1, false) : Checked) ∈ r.output := by
    rw [h4]
    exact offset_mem_saidOf byteSum _ (Nat.succ_pos 0)
  exact absurd (h2 _ hmem) (by simp)

end StratifiedHashTree
