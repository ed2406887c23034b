import StratifiedHashTree.Erasure
import StratifiedHashTree.Outdated

/-!
# A query on two backends

The same query may be put to two backends, when its slate has been through the same on either.
As long as its generation is there the answers are those of the generation, which is all there
is to say. A query that was cut into may find entries of another generation instead, or none.
But what it finds on one backend it finds on the other, if everything has stayed in its place:
the entries of the slate are where those of the query have been
(`StratifiedHashTree.InPlace`), and there is nothing behind the last of them. So the two queries
run in lockstep (`StratifiedHashTree.Abreast`): the entries they come across belong together
(`StratifiedHashTree.Counterpart`), and they come to nothing at the same branch, if they do.
The errors are different ones then, each of its own backend.
-/

namespace StratifiedHashTree

open Formula FormulaTree
open Outcome hiding err panic
open Prog (Beside Lockstep Matches Keeps)

variable {w : ℕ}

/-! ### Entries that belong together -/

/-- **Entries that belong together**: the same one, at its position in either backend. -/
def Counterpart (H : HashFn w) (pos pos' : ℕ → Position) (m : ℕ) (e e' : Entry w) : Prop :=
  ∃ (v : ℕ → Bytes) (k : ℕ), 1 ≤ k ∧ k ≤ m ∧ e = entryAt H v pos k ∧ e' = entryAt H v pos' k

theorem Counterpart.erased_eq {H : HashFn w} {pos pos' : ℕ → Position} {m : ℕ} {e e' : Entry w}
    (h : Counterpart H pos pos' m e e') : e.erased = e'.erased := by
  obtain ⟨v, k, -, -, rfl, rfl⟩ := h
  rw [entryAt_erased, entryAt_erased]

/-- The intermediate nodes of an entry, from the lowest one on. -/
theorem entryAt_inodes (H : HashFn w) (v : ℕ → Bytes) (pos : ℕ → Position) (k : ℕ) :
    (entryAt H v pos k).inodes = (Tree.upTo k).spine.reverse.map (spineINode H v pos) := by
  rw [List.map_reverse]
  rfl

/-- **Two queries that stand abreast**: they have the cache of the same generation, their branches
lead to entries that belong together, and their scans pass such entries. -/
structure Abreast {S T : Storage (Entry w)} (R : S.State → T.State → Prop) (H : HashFn w)
    (v : ℕ → Bytes) (pos pos' : ℕ → Position) (L m : ℕ) (q : Query S) (q' : Query T) : Prop where
  pos_m : 1 ≤ m
  left : Represents H v pos L m q.cache
  right : Represents H v pos' L m q'.cache
  fetch : ∀ {t : Tree}, 1 ≤ t.hi → t.hi ≤ m → Lockstep R (Counterpart H pos pos' m)
    (fetchLeft S q.cache (nodeAddress pos t)) (fetchLeft T q'.cache (nodeAddress pos' t))
  scan : ∀ {k : ℕ} (count : ℕ) {κ : Type} (callback : ScanFn (Entry w) κ), 1 ≤ k → k ≤ m →
    Lockstep (Beside κ R) Eq (S.scan (pos k) count fun entry => callback entry.erased)
      (T.scan (pos' k) count fun entry => callback entry.erased)

namespace Abreast

variable {S T : Storage (Entry w)} {R : S.State → T.State → Prop} {H : HashFn w} {v : ℕ → Bytes}
  {pos pos' : ℕ → Position} {L m : ℕ} {q : Query S} {q' : Query T}

theorem revision_eq (h : Abreast R H v pos pos' L m q q') : q.revision = m ∧ q'.revision = m :=
  ⟨h.left.revision_eq, h.right.revision_eq⟩

/-- The branches of an entry lead to entries before it. -/
theorem fetch_spine (h : Abreast R H v pos pos' L m q q') {k : ℕ} (h1 : 1 ≤ k) (h2 : k ≤ m)
    {p : Tree × Tree} (hp : p ∈ (Tree.upTo k).spine) :
    Lockstep R (Counterpart H pos pos' m) (fetchLeft S q.cache (nodeAddress pos p.1))
      (fetchLeft T q'.cache (nodeAddress pos' p.1)) := by
  obtain ⟨-, hp1, hpk⟩ := left_range h1 hp
  exact h.fetch hp1 (hpk.le.trans h2)

/-! ### Walks -/

/-- Going left. -/
theorem descend (h : Abreast R H v pos pos' L m q q') {k : ℕ} (h1 : 1 ≤ k) (h2 : k ≤ m)
    {p : Tree × Tree} (hp : p ∈ (Tree.upTo k).spine) (u : ℕ → Bytes) :
    Lockstep R (fun a b => Counterpart H pos pos' m a.1 b.1 ∧ a.2 = b.2)
      (q.descend k (spineINode H u pos p)) (q'.descend k (spineINode H u pos' p)) := by
  rw [Query.descend, Query.descend, spineINode_left, spineINode_left]
  refine (h.fetch_spine h1 h2 hp).bind ?_
  rintro _ _ ⟨u', j, hj1, hj2, rfl, rfl⟩
  have hfind : (entryAt H u' pos j).inodes.findIdx? (fun inode => inode.metaInfo.address.j =
      p.1.height) = (entryAt H u' pos' j).inodes.findIdx? fun inode =>
        inode.metaInfo.address.j = p.1.height := by
    rw [entryAt_inodes, entryAt_inodes, List.findIdx?_map, List.findIdx?_map]
    rfl
  refine Lockstep.lift_bind _ fun _ _ => Lockstep.lift_bind _ fun _ _ => ?_
  rw [nodeAddress_j, nodeAddress_j, hfind]
  by_cases hj : p.1.height = 0
  · rw [if_pos hj, if_pos hj]
    exact .pure ⟨⟨u', j, hj1, hj2, rfl, rfl⟩, rfl⟩
  · rw [if_neg hj, if_neg hj]
    cases (entryAt H u' pos' j).inodes.findIdx? fun inode =>
      inode.metaInfo.address.j = p.1.height with
    | some i => exact .pure ⟨⟨u', j, hj1, hj2, rfl, rfl⟩, rfl⟩
    | none => exact .lift (.same _)

/-- **The walk** from a node of entries that belong together. -/
theorem walkDownFrom (h : Abreast R H v pos pos' L m q q') {κ : Type} (callback : WalkFn w κ) :
    ∀ fuel i {e e' : Entry w}, Counterpart H pos pos' m e e' → Lockstep (Beside κ R) Eq
      (q.walkDownFrom callback fuel i e) (q'.walkDownFrom callback fuel i e')
  | 0, _, _, _, _ => .stop _
  | fuel + 1, 0, _, _, ⟨u, k, _, _, rfl, rfl⟩ => by
    rw [Query.walkDownFrom, Query.walkDownFrom, h.revision_eq.1, h.revision_eq.2]
    exact (Lockstep.onFst _).bind fun _ _ _ => .pure rfl
  | fuel + 1, i + 1, _, _, ⟨u, k, h1, h2, rfl, rfl⟩ => by
    rw [Query.walkDownFrom, Query.walkDownFrom, h.revision_eq.1, h.revision_eq.2, entryAt_inodes,
      entryAt_inodes, index, index, List.getElem?_map, List.getElem?_map]
    cases hp : (Tree.upTo k).spine.reverse[i]? with
    | none => exact Lockstep.lift_bind _ fun _ hidx => by cases hidx
    | some p =>
      have hmem : p ∈ (Tree.upTo k).spine := List.mem_reverse.mp (List.mem_of_getElem? hp)
      have hright : Lockstep (Beside κ R) Eq (q.walkDownFrom callback fuel i (entryAt H u pos k))
          (q'.walkDownFrom callback fuel i (entryAt H u pos' k)) :=
        h.walkDownFrom callback fuel i ⟨u, k, h1, h2, rfl, rfl⟩
      have hleft : Lockstep (Beside κ R) Eq
          (Prog.onSnd (q.descend k (spineINode H u pos p)) >>= fun left =>
            q.walkDownFrom callback fuel left.2 left.1)
          (Prog.onSnd (q'.descend k (spineINode H u pos' p)) >>= fun left =>
            q'.walkDownFrom callback fuel left.2 left.1) := by
        refine (h.descend h1 h2 hmem u).onSnd.bind ?_
        rintro ⟨e, j⟩ ⟨e', _⟩ ⟨hentry, rfl⟩
        exact h.walkDownFrom callback fuel j hentry
      simp only [Option.map_some, Prog.liftM_eq, Prog.lift_ok_bind]
      refine (Lockstep.onFst _).bind ?_
      rintro dir _ rfl
      cases dir with
      | terminate => exact .pure rfl
      | right => exact hright
      | left => exact hleft
      | both => exact hright.bind fun _ _ _ => hleft

theorem walkDown (h : Abreast R H v pos pos' L m q q') {κ : Type} (fuel : ℕ)
    (callback : WalkFn w κ) : Lockstep (Beside κ R) Eq (q.walkDown fuel callback)
      (q'.walkDown fuel callback) := by
  rw [walkDown_eq_walkDownFrom (h.left.loaded h.pos_m),
    walkDown_eq_walkDownFrom (h.right.loaded h.pos_m)]
  exact h.walkDownFrom callback fuel _ ⟨v, m, h.pos_m, Nat.le_refl m, rfl, rfl⟩

theorem collect (h : Abreast R H v pos pos' L m q q') {κ : Type} (fuel : ℕ)
    (callback : WalkFn w κ) (init : κ) : Lockstep R Eq (q.collect fuel callback init)
      (q'.collect fuel callback init) := by
  intro s t hst
  have hwalk := h.walkDown fuel callback (show Beside κ R (init, s) (init, t) from ⟨rfl, hst⟩)
  rw [Query.collect, Query.collect]
  revert hwalk
  rcases q.walkDown fuel callback (init, s) with ⟨o, a, s'⟩
  rcases q'.walkDown fuel callback (init, t) with ⟨o', a', t'⟩
  rintro ⟨hmatch, heq, hnext⟩
  obtain rfl : a = a' := heq
  cases hmatch with
  | ok _ => exact ⟨.ok rfl, hnext⟩
  | same e => exact ⟨.same e, hnext⟩
  | errors e e' => exact ⟨.errors e e', hnext⟩

theorem get (h : Abreast R H v pos pos' L m q q') (fuel i : ℕ) :
    Lockstep R Eq (q.get fuel i) (q'.get fuel i) := by
  rw [Query.get, Query.get, h.revision_eq.1, h.revision_eq.2]
  by_cases hi : i = 0 ∨ m < i
  · rw [if_pos hi, if_pos hi]
    exact .pure rfl
  · rw [if_neg hi, if_neg hi]
    refine (h.collect fuel _ _).bind ?_
    rintro result _ rfl
    exact .lift (.of_eq rfl)

theorem getSample (h : Abreast R H v pos pos' L m q q') (fuel i : ℕ) :
    Lockstep R Eq (q.getSample fuel i) (q'.getSample fuel i) := by
  rw [Query.getSample, Query.getSample, h.revision_eq.1, h.revision_eq.2]
  refine (h.collect fuel _ _).bind ?_
  rintro result _ rfl
  exact .pure rfl

/-! ### Searches -/

omit S T in
/-- The search among branches finds the same one on either side. -/
theorem findLeft_spine (i : Index) (u : ℕ → Bytes) : ∀ ps : List (Tree × Tree),
    ∃ found : Result (Option (Tree × Tree)), (∀ p, found = .ok (some p) → p ∈ ps) ∧
      ∀ pos : ℕ → Position, findLeft i (ps.map (spineINode H u pos)) =
        found.map (Option.map (spineINode H u pos))
  | [] => ⟨.ok none, fun p hp => by simp at hp, fun _ => rfl⟩
  | p :: ps => by
    obtain ⟨found, hmem, hfound⟩ := findLeft_spine i u ps
    rcases hc : contains p.1.hi p.1.height i with e | inside
    · refine ⟨.error e, fun p hp => by simp at hp, fun pos => ?_⟩
      rw [List.map_cons, findLeft, spineINode_left, nodeAddress_i, nodeAddress_j, hc]
      rfl
    · cases inside with
      | true =>
        refine ⟨.ok (some p), ?_, fun pos => ?_⟩
        · rintro _ ⟨⟩
          exact List.mem_cons_self
        · rw [List.map_cons, findLeft, spineINode_left, nodeAddress_i, nodeAddress_j, hc]
          rfl
      | false =>
        refine ⟨found, fun p hp => List.mem_cons_of_mem _ (hmem p hp), fun pos => ?_⟩
        rw [List.map_cons, findLeft, spineINode_left, nodeAddress_i, nodeAddress_j, hc]
        exact hfound pos

/-- **The search** from entries that belong together. -/
theorem readEntryFrom (h : Abreast R H v pos pos' L m q q') (i : Index) :
    ∀ fuel {e e' : Entry w}, Counterpart H pos pos' m e e' →
      Lockstep R (Option.Rel (Counterpart H pos pos' m)) (q.readEntryFrom i fuel e)
        (q'.readEntryFrom i fuel e')
  | 0, _, _, _ => .stop _
  | fuel + 1, _, _, ⟨u, k, h1, h2, rfl, rfl⟩ => by
    rw [Query.readEntryFrom, Query.readEntryFrom, entryAt_index, entryAt_index]
    by_cases hk : k = i
    · rw [if_pos hk, if_pos hk]
      exact .pure (.some ⟨u, k, h1, h2, rfl, rfl⟩)
    · obtain ⟨found, hmem, hfound⟩ := findLeft_spine (H := H) i u (Tree.upTo k).spine.reverse
      rw [if_neg hk, if_neg hk, entryAt_inodes, entryAt_inodes, hfound, hfound]
      rcases found with e | _ | p
      · exact Lockstep.lift_bind _ fun _ hx => by cases hx
      · exact .pure .none
      · have hp := List.mem_reverse.mp (hmem p rfl)
        refine (h.fetch_spine h1 h2 hp).bind fun e e' hentry => ?_
        exact h.readEntryFrom i fuel hentry

theorem readEntry (h : Abreast R H v pos pos' L m q q') (fuel : ℕ) (i : Index) :
    Lockstep R (Option.Rel (Counterpart H pos pos' m)) (q.readEntry fuel i)
      (q'.readEntry fuel i) := by
  rw [Query.readEntry, Query.readEntry, h.revision_eq.1, h.revision_eq.2,
    (h.left.loaded h.pos_m).entry_self, (h.right.loaded h.pos_m).entry_self]
  exact h.readEntryFrom i fuel ⟨v, m, h.pos_m, Nat.le_refl m, rfl, rfl⟩

/-- **A scan** for a callback that does not look at positions. -/
theorem scanBlind (h : Abreast R H v pos pos' L m q q') {κ : Type} (fuel i0 i1 : ℕ)
    (callback : ScanFn (Entry w) κ) :
    Lockstep (Beside κ R) Eq (q.scan fuel i0 i1 fun entry => callback entry.erased)
      (q'.scan fuel i0 i1 fun entry => callback entry.erased) := by
  rw [Query.scan, Query.scan, h.revision_eq.1, h.revision_eq.2]
  by_cases hlt : min (max i0 i1) m < max (min i0 i1) 1
  · rw [if_pos hlt, if_pos hlt]
    exact .pure rfl
  · rw [if_neg hlt, if_neg hlt]
    refine Lockstep.lift_bind _ fun _ _ => ((h.readEntry fuel _).onSnd).bind ?_
    rintro _ _ (⟨u, k, h1, h2, rfl, rfl⟩ | _)
    · exact Lockstep.lift_bind _ fun d _ => Lockstep.lift_bind _ fun count _ =>
        h.scan count callback h1 h2
    · exact .pure rfl

end Abreast

/-! ### Calls -/

/-- **Answers that match**: the same result, or an error on either side, and in any case the same
state of the callback. -/
inductive Answer.Like : Answer w → Answer w → Prop
  | value {a b : Result (Option Bytes)} : Matches Eq a b → Like (.value a) (.value b)
  | sample {a b : Result (Option (StratumSample w))} :
      Matches Eq a b → Like (.sample a) (.sample b)
  | walked {κ : Type} {a b : Result Unit} {x y : κ} :
      Matches Eq a b → x = y → Like (.walked a x) (.walked b y)
  | entry {a b : Result (Option (Entry w))} : Matches Eq a b → Like (.entry a) (.entry b)
  | scanned {κ : Type} {a b : Result ℕ} {x y : κ} :
      Matches Eq a b → x = y → Like (.scanned a x) (.scanned b y)

/-- **Queries that stand abreast give answers that match**, positions left out. -/
theorem Abreast.call {S T : Storage (Entry w)} {R : S.State → T.State → Prop} {H : HashFn w}
    {v : ℕ → Bytes} {pos pos' : ℕ → Position} {L m : ℕ} {q : Query S} {q' : Query T}
    (h : Abreast R H v pos pos' L m q q') (fuel : ℕ) (c : Call w) {s : S.State} {t : T.State}
    (hst : R s t) :
    (q.call fuel c.blind s).1.erased.Like (q'.call fuel c.blind t).1.erased := by
  cases c with
  | get i => exact .value (h.get fuel i hst).1
  | getSample i => exact .sample (h.getSample fuel i hst).1
  | @walkDown κ callback init =>
    obtain ⟨hmatch, hfinal, -⟩ :=
      h.walkDown fuel callback (show Beside κ R (init, s) (init, t) from ⟨rfl, hst⟩)
    exact .walked hmatch hfinal
  | readEntry i =>
    refine .entry ((h.readEntry fuel i hst).1.map ?_)
    rintro _ _ (hentry | _)
    · exact congrArg some hentry.erased_eq
    · rfl
  | @scan κ i0 i1 callback init =>
    obtain ⟨hmatch, hfinal, -⟩ :=
      h.scanBlind fuel i0 i1 callback (show Beside κ R (init, s) (init, t) from ⟨rfl, hst⟩)
    exact .scanned hmatch hfinal

/-! ### Everything in its place -/

/-- **Everything is in its place** for the queries of some payloads: what a slate has at their
indices is as long as what was there. -/
def InPlace (us vs : List Bytes) : Prop := ∀ p ∈ us.zip vs, p.1.length = p.2.length

instance (us vs : List Bytes) : Decidable (InPlace us vs) :=
  inferInstanceAs (Decidable (∀ p ∈ us.zip vs, p.1.length = p.2.length))

theorem InPlace.length_eq {us vs : List Bytes} (h : InPlace us vs) {k : ℕ} (h1 : 1 ≤ k)
    (h2 : k ≤ us.length) (h3 : k ≤ vs.length) : (payload us k).length = (payload vs k).length := by
  have hu : k - 1 < us.length := by omega
  have hv : k - 1 < vs.length := by omega
  have hmem : (us[k - 1], vs[k - 1]) ∈ us.zip vs := by
    have hzip : k - 1 < (us.zip vs).length := by
      rw [List.length_zip]
      omega
    rw [← List.getElem_zip (h := hzip)]
    exact List.getElem_mem hzip
  rw [payload, payload, List.getD_eq_getElem _ _ hu, List.getD_eq_getElem _ _ hv]
  exact h _ hmem

section Positions

variable {H : HashFn w} {u v : ℕ → Bytes} {n : ℕ}

/-- The record of an entry is as long as the number of its nodes and its payload say. -/
theorem length_record_entryAt (checksum : Checksum) {pos pos' : ℕ → Position} {k : ℕ}
    (h : (u k).length = (v k).length) : (record checksum (entryAt H u pos k)).length =
      (record checksum (entryAt H v pos' k)).length := by
  rw [length_record, length_record, length_encodeEntry, length_encodeEntry, entryAt_inodes,
    entryAt_inodes, List.length_map, List.length_map, entryAt_payload, entryAt_payload, h]

/-- **Entries stay in place** when their payloads are as long as before. -/
theorem positionOf_of_length {B : Backend w}
    (h : ∀ k, 1 ≤ k → k ≤ n → (u k).length = (v k).length) {k : ℕ} (hk : k ≤ n + 1) :
    positionOf B.log H u k = positionOf B.log H v k := by
  cases B with
  | memKVS =>
    change (history _ H u (k - 1)).length + 1 = (history _ H v (k - 1)).length + 1
    rw [length_history, length_history]
  | @block D K hw checksum =>
    have hlength : ∀ j, j ≤ n →
        (BlockStorage.content checksum (history (Backend.block K hw checksum).log H u j)).length =
          (BlockStorage.content checksum
            (history (Backend.block K hw checksum).log H v j)).length := by
      intro j
      induction j with
      | zero => exact fun _ => rfl
      | succ j ih =>
        intro hj
        rw [history_succ, history_succ, BlockStorage.content_concat, BlockStorage.content_concat,
          List.length_append, List.length_append, ih (by omega),
          length_record_entryAt checksum (h (j + 1) (by omega) hj)]
    exact hlength (k - 1) (by omega)

/-- Without positions, the entries are the same on every backend. -/
theorem history_erased (S T : LogStorage (Entry w) Entry.Placed) (n : ℕ) :
    (history S H v n).map Entry.erased = (history T H v n).map Entry.erased := by
  induction n with
  | zero => rfl
  | succ n ih =>
    rw [history_succ, history_succ, List.map_append, List.map_append, ih, List.map_singleton,
      List.map_singleton, entryAt_erased, entryAt_erased]

end Positions

/-- A scan from behind the end passes nothing. -/
theorem InMemory.scan_behind (M : InMemory w) {log : List (Entry w)}
    (hroom : M.backend.log.Room log) {p : ℕ} (hp : M.backend.log.endPos log ≤ p) (hlt : p < 2 ^ 64)
    (count : ℕ) {κ : Type} (callback : ScanFn (Entry w) κ) (a : κ) :
    M.backend.log.scan p count callback (a, M.backend.log.render log) =
      (.ok 0, (a, M.backend.log.render log)) := by
  cases M with
  | memKVS =>
    have hlength : log.length + 1 ≤ p := hp
    change MemKVS.scanFrom callback p count 0 (a, MemKVS.render log) = _
    cases count with
    | zero => rfl
    | succ count =>
      rw [MemKVS.scanFrom, Prog.liftM_eq, addBits_of_lt (show p + 0 < 2 ^ 64 from hlt),
        Prog.lift_ok_bind, Prog.bind_ok (Prog.get_run _)]
      simp only
      rw [Nat.add_zero, MemKVS.lookup_render_none (by omega)]
      rfl
  | block hw checksum =>
    -- the reader of the device starts anew, with its own cursor
    have hend : (MemoryDevice.disk.state true (BlockStorage.content checksum log) 0).buffer.length ≤
        p := hp
    have hscan := MemoryDevice.scanReader_end checksum hend (BlockStorage.Room.lt hroom) count
      callback a
    change BlockStorage.scan memoryDevice checksum p count callback
      (a, BlockStorage.render MemoryDevice.disk checksum log) = _
    rw [BlockStorage.scan,
      Prog.bind_ok (Prog.onSnd_run (BlockStorage.reader_render MemoryDevice.disk log) a),
      Prog.bind_ok (Prog.get_run _)]
    simp only [hscan]
    rw [Prog.bind_ok (Prog.set_run _ _)]
    rfl

/-! ### Queries abreast -/

section Outliving

variable {H : HashFn w} {L : ℕ} {us vs : List Bytes}

/-- **A query of some payloads**, which fit its backend: it has the cache of their generation. -/
structure QueryOf (B : Backend w) (H : HashFn w) (L : ℕ) (vs : List Bytes)
    (q : Query B.log.toStorage) : Prop where
  holds : B.Holds H vs
  pos_length : 1 ≤ vs.length
  represents : Represents H (payload vs) (positionOf B.log H (payload vs)) L vs.length q.cache

variable {M : InMemory w} {s : SlateOn M.backend} {q : Query M.backend.log.toStorage}

/-- As far as both generations go, their entries start at the same positions. -/
theorem InPlace.positionOf_eq (h : InPlace us vs) (B : Backend w) {k : ℕ} (hk : k ≤ us.length + 1)
    (hk' : k ≤ vs.length) :
    positionOf B.log H (payload us) k = positionOf B.log H (payload vs) k :=
  positionOf_of_length (n := k - 1)
    (fun _ hj1 hj2 => h.length_eq hj1 (by omega) (by omega)) (by omega)

/-- What the slate has no more of would be behind its end. -/
theorem InPlace.endPos_le (h : InPlace us vs) (B : Backend w) {k : ℕ} (hk : k ≤ vs.length)
    (hgone : ¬k ≤ us.length) : B.log.endPos (history B.log H (payload us) us.length) ≤
      positionOf B.log H (payload vs) k := by
  change positionOf B.log H (payload us) (us.length + 1) ≤ _
  rw [h.positionOf_eq B (Nat.le_refl _) (by omega)]
  exact positionOf_mono (by omega)

/-- **What a branch leads to**, by the payloads that go into the entry: a cached one, one that the
slate has now, or none. No backend has a part in that. -/
def leadsTo (L : ℕ) (us vs : List Bytes) (k : ℕ) : Option (ℕ → Bytes) :=
  if Tree.leftSteps k (Tree.upTo vs.length) ≤ L then some (payload vs)
  else if k ≤ us.length then some (payload us)
  else none

theorem QueryOf.fetchLeft_some (h : QueryOf M.backend H L vs q)
    (hs : SlateOf M.backend.log H L (payload us) us.length s) (hplace : InPlace us vs) {t : Tree}
    (h1 : 1 ≤ t.hi) (h2 : t.hi ≤ vs.length) {u : ℕ → Bytes} (hu : leadsTo L us vs t.hi = some u) :
    fetchLeft M.backend.log.toStorage q.cache
      (nodeAddress (positionOf M.backend.log H (payload vs)) t) s.storage =
        (.ok (entryAt H u (positionOf M.backend.log H (payload vs)) t.hi), s.storage) := by
  rw [leadsTo] at hu
  by_cases hnear : Tree.leftSteps t.hi (Tree.upTo vs.length) ≤ L
  · rw [if_pos hnear, Option.some.injEq] at hu
    rw [fetchLeft, nodeAddress_i, h.represents.entry_near h1 h2 hnear, hu]
    rfl
  · have hnone := h.represents.entry_far (h1.trans h2) hnear
    rw [if_neg hnear] at hu
    by_cases hle : t.hi ≤ us.length
    · have hpos : ∀ k : ℕ, k ≤ t.hi → positionOf M.backend.log H (payload us) k =
          positionOf M.backend.log H (payload vs) k :=
        fun k hk => hplace.positionOf_eq M.backend (by omega) (by omega)
      rw [if_pos hle, Option.some.injEq] at hu
      rw [fetchLeft_own hs hnone h1 hle (hpos t.hi (Nat.le_refl _)), ← hu]
      exact congrArg (fun entry => (Except.ok entry, s.storage))
        (entryAt_congr H _ _ h1 (fun _ _ _ => rfl) fun k _ hk => hpos k hk)
    · rw [if_neg hle] at hu
      exact absurd hu.symm (Option.some_ne_none u)

theorem QueryOf.fetchLeft_none (h : QueryOf M.backend H L vs q)
    (hs : SlateOf M.backend.log H L (payload us) us.length s) (hplace : InPlace us vs) {t : Tree}
    (h1 : 1 ≤ t.hi) (h2 : t.hi ≤ vs.length) (hu : leadsTo L us vs t.hi = none) :
    ∃ e st, fetchLeft M.backend.log.toStorage q.cache
      (nodeAddress (positionOf M.backend.log H (payload vs)) t) s.storage =
        (.error (.err e), st) := by
  rw [leadsTo] at hu
  have hfar : ¬Tree.leftSteps t.hi (Tree.upTo vs.length) ≤ L := fun hnear =>
    absurd ((if_pos hnear).symm.trans hu) (Option.some_ne_none _)
  rw [if_neg hfar] at hu
  have hgone : ¬t.hi ≤ us.length := fun hle =>
    absurd ((if_pos hle).symm.trans hu) (Option.some_ne_none _)
  have hbehind := hplace.endPos_le (H := H) M.backend h2 hgone
  rw [fetchLeft, nodeAddress_i, h.represents.entry_far (h1.trans h2) hfar, hs.storage_eq]
  rcases hread : M.backend.log.read (positionOf M.backend.log H (payload vs) t.hi)
    (M.backend.log.render (history M.backend.log H (payload us) us.length)) with ⟨result, st⟩
  have hcases := M.read_cases hs.fits.room (positionOf M.backend.log H (payload vs) t.hi)
  rw [hread] at hcases
  rcases hcases with ⟨e, he, -⟩ | ⟨-, e, rfl⟩
  · exact absurd he.lt (Nat.not_lt.mpr hbehind)
  · exact ⟨e, st, Prog.bind_error hread⟩

/-- A scan passes what the slate has from there on, or nothing if it is too short. -/
theorem QueryOf.scan_eq (h : QueryOf M.backend H L vs q)
    (hs : SlateOf M.backend.log H L (payload us) us.length s) (hplace : InPlace us vs) {k : ℕ}
    (h1 : 1 ≤ k) (h2 : k ≤ vs.length) (count : ℕ) {κ : Type} (callback : ScanFn (Entry w) κ)
    (a : κ) :
    M.backend.log.scan (positionOf M.backend.log H (payload vs) k) count
        (fun entry => callback entry.erased) (a, s.storage) =
      Prog.onFst (scanList callback ((((history M.backend.log H (payload us) us.length).map
        Entry.erased).drop (k - 1)).take count)) (a, s.storage) := by
  by_cases hle : k ≤ us.length
  · -- the slate has an entry of this index, and it is where the query looks
    have hk : k - 1 < (history M.backend.log H (payload us) us.length).length := by
      rw [length_history]
      omega
    have hscan := M.backend.log.scan_render count (fun entry => callback entry.erased) a hk
      hs.fits.room hs.fits.laid
    rw [take_history _ _ _ (show k - 1 ≤ us.length by omega), scanList_map, List.map_take,
      List.map_drop, ← hs.storage_eq] at hscan
    rw [← hplace.positionOf_eq M.backend (by omega) h2]
    exact hscan
  · -- the slate is too short, and the query looks behind its end
    have hbehind := hplace.endPos_le (H := H) M.backend h2 hle
    have hnothing : (((history M.backend.log H (payload us) us.length).map Entry.erased).drop
        (k - 1)).take count = [] := by
      rw [List.drop_of_length_le (by rw [List.length_map, length_history]; omega), List.take_nil]
    have hlt : positionOf M.backend.log H (payload vs) k < 2 ^ 64 :=
      (positionOf_mono (h2.trans (Nat.le_succ _))).trans_lt
        (M.backend.log.endPos_lt (Fits.room h.holds))
    rw [hnothing, hs.storage_eq, M.scan_behind hs.fits.room hbehind hlt]
    rfl

/-- **A query on two backends** whose slates have the same payloads, with everything in its
place. -/
theorem QueryOf.abreast {M' : InMemory w} {s' : SlateOn M'.backend}
    {q' : Query M'.backend.log.toStorage} (h : QueryOf M.backend H L vs q)
    (h' : QueryOf M'.backend H L vs q')
    (hs : SlateOf M.backend.log H L (payload us) us.length s)
    (hs' : SlateOf M'.backend.log H L (payload us) us.length s') (hM : M.backend.log.ReadsOnly)
    (hM' : M'.backend.log.ReadsOnly) (hplace : InPlace us vs) :
    Abreast (fun st st' => st = s.storage ∧ st' = s'.storage) H (payload vs)
      (positionOf M.backend.log H (payload vs)) (positionOf M'.backend.log H (payload vs)) L
      vs.length q q' where
  pos_m := h.pos_length
  left := h.represents
  right := h'.represents
  fetch := by
    rintro t h1 h2 _ _ ⟨rfl, rfl⟩
    have hkeep := Query.keeps_fetchLeft hM q.cache
      (nodeAddress (positionOf M.backend.log H (payload vs)) t) s.storage
    have hkeep' := Query.keeps_fetchLeft hM' q'.cache
      (nodeAddress (positionOf M'.backend.log H (payload vs)) t) s'.storage
    refine ⟨?_, hkeep, hkeep'⟩
    -- what a branch leads to is decided by the payloads, so alike on both backends
    cases hu : leadsTo L us vs t.hi with
    | some u =>
      rw [h.fetchLeft_some hs hplace h1 h2 hu, h'.fetchLeft_some hs' hplace h1 h2 hu]
      exact .ok ⟨u, t.hi, h1, h2, rfl, rfl⟩
    | none =>
      obtain ⟨e, st, hfetch⟩ := h.fetchLeft_none hs hplace h1 h2 hu
      obtain ⟨e', st', hfetch'⟩ := h'.fetchLeft_none hs' hplace h1 h2 hu
      rw [hfetch, hfetch']
      exact .errors e e'
  scan := by
    rintro k count κ callback h1 h2 ⟨a, _⟩ ⟨b, _⟩ ⟨hab, rfl, rfl⟩
    obtain rfl : a = b := hab
    rw [h.scan_eq hs hplace h1 h2, h'.scan_eq hs' hplace h1 h2,
      history_erased M.backend.log M'.backend.log]
    exact ⟨.of_eq rfl, rfl, rfl, rfl⟩

end Outliving

end StratifiedHashTree
