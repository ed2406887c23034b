import Mathlib.Algebra.BigOperators.Intervals
import Mathlib.Data.List.Sort
import Mathlib.Data.Nat.Choose.Basic
import StratifiedHashTree.Costs
import StratifiedHashTree.Samples
import StratifiedHashTree.Traversal

/-!
# What walks read, and what caches hold

A walk over the nodes of a generation stays in one entry as long as it goes to the right, and needs
another one for every step to the left. So an entry is read when the walk comes to the first of its
nodes, and it is not read again, whatever the callback does: the entries with a visited node are
read one by one from the latest on, less those in the cache
(`StratifiedHashTree.walkDown_reads`). A walk that visits everything reads every entry that is not
cached once.

A sample visits the way to its leaf and the nodes beside it. The nodes to the right of the way come
for free; those to the left have to be read, and so has the way itself
(`StratifiedHashTree.getSample_reads`). Without a cache, that is one read for every witness.

How much the cache saves is how much it holds. Below a perfect subtree of the height `j` there are
`j` over `d` leaves with `d` left edges above them, and one more edge leads to all the subtrees but
the last (`StratifiedHashTree.cache_len`).
-/

namespace StratifiedHashTree

open Outcome Formula FormulaTree
open Prog (Counts)

variable {w : ℕ} {κ : Type}

/-! ### Walks that are watched -/

/-- A callback, with the nodes that it was called for. -/
def watched (callback : WalkFn w κ) : WalkFn w (κ × List (Index × ℕ)) :=
  fun revision i j hash value s =>
    ((callback revision i j hash value s.1).1,
      ((callback revision i j hash value s.1).2, s.2 ++ [(i, j)]))

theorem watched_run {callback : WalkFn w κ} {revision i : Index} {j : ℕ} {hash : Hash w}
    {value : Option Bytes} {a a' : κ} {o : Result WalkDirection}
    (h : callback revision i j hash value a = (o, a')) (calls : List (Index × ℕ)) :
    watched callback revision i j hash value (a, calls) = (o, (a', calls ++ [(i, j)])) := by
  rw [watched, h]

/-! ### Records of two runs -/

section Records

variable {σ ι ν ρ : Type} {st : σ} {place : ν → ρ} {P P' Q : List ι → List ν → Prop}
  {x x' : Run (κ × List ι) Unit} {y y' : Run (κ × (σ × List ρ)) Unit}

/-- **Two runs that keep records end alike.** What they add to them is related, and nothing else of
the second state changes. -/
def Recorded (st : σ) (place : ν → ρ) (P : List ι → List ν → Prop) (x : Run (κ × List ι) Unit)
    (y : Run (κ × (σ × List ρ)) Unit) : Prop :=
  ∀ a calls reads, ∃ o a' new new', x (a, calls) = (o, (a', calls ++ new)) ∧
    y (a, (st, reads)) = (o, (a', (st, reads ++ new'.map place))) ∧ P new new'

namespace Recorded

theorem mono (h : Recorded st place P x y) (hP : ∀ new new', P new new' → Q new new') :
    Recorded st place Q x y := by
  intro a calls reads
  obtain ⟨o, a', new, new', h1, h2, h3⟩ := h a calls reads
  exact ⟨o, a', new, new', h1, h2, hP _ _ h3⟩

/-- Nothing is added. -/
theorem done (h : P [] []) :
    Recorded st place P (pure () : Run (κ × List ι) Unit) (pure ()) := by
  intro a calls reads
  refine ⟨.ok (), a, [], [], ?_, ?_, h⟩
  · rw [List.append_nil]
    rfl
  · rw [List.map_nil, List.append_nil]
    rfl

/-- **The sequence rule.** The first run may have failed. -/
theorem seq (hx : Recorded st place P x y) (hx' : Recorded st place P' x' y')
    (hfail : ∀ new new', P new new' → Q new new')
    (hboth : ∀ new new' more more', P new new' → P' more more' → Q (new ++ more) (new' ++ more')) :
    Recorded st place Q (x >>= fun _ => x') (y >>= fun _ => y') := by
  intro a calls reads
  obtain ⟨o, a', new, new', h1, h2, h3⟩ := hx a calls reads
  rcases o with e | _
  · exact ⟨.error e, a', new, new', Prog.bind_error h1, Prog.bind_error h2, hfail _ _ h3⟩
  · obtain ⟨o, a'', more, more', h4, h5, h6⟩ := hx' a' (calls ++ new) (reads ++ new'.map place)
    rw [List.append_assoc] at h4
    rw [List.append_assoc, ← List.map_append] at h5
    exact ⟨o, a'', new ++ more, new' ++ more', (Prog.bind_ok h1).trans h4,
      (Prog.bind_ok h2).trans h5, hboth _ _ _ _ h3 h6⟩

/-- **A call of the callback**, and what is done with its answer. -/
theorem call {callback : WalkFn w κ} {revision i : Index} {j : ℕ} {hash : Hash w}
    {value : Option Bytes} {P : List (Index × ℕ) → List ν → Prop}
    {f : WalkDirection → Run (κ × List (Index × ℕ)) Unit}
    {g : WalkDirection → Run (κ × (σ × List ρ)) Unit} (hfail : P [(i, j)] [])
    (h : ∀ dir, Recorded st place (fun new new' => P ((i, j) :: new) new') (f dir) (g dir)) :
    Recorded st place P (watched callback revision i j hash value >>= f)
      (Prog.onFst (callback revision i j hash value) >>= g) := by
  intro a calls reads
  rcases hcall : callback revision i j hash value a with ⟨e | dir, a1⟩
  · refine ⟨.error e, a1, [(i, j)], [], Prog.bind_error (watched_run hcall calls), ?_, hfail⟩
    rw [List.map_nil, List.append_nil]
    exact Prog.bind_error (Prog.onFst_run hcall _)
  · obtain ⟨o, a', new, new', h1, h2, h3⟩ := h dir a1 (calls ++ [(i, j)]) reads
    rw [List.append_assoc] at h1
    exact ⟨o, a', (i, j) :: new, new', (Prog.bind_ok (watched_run hcall calls)).trans h1,
      (Prog.bind_ok (Prog.onFst_run hcall _)).trans h2, h3⟩

end Recorded

end Records

/-! ### The entries of the nodes of a walk -/

/-- Some node of the entry `k` is there, and more left edges lead to the entry than the cache has
levels. -/
def Far (L n : ℕ) (nodes : List (Index × ℕ)) (k : ℕ) : Prop :=
  (∃ j, (k, j) ∈ nodes) ∧ L < Tree.leftSteps k (Tree.upTo n)

theorem far_append {L n k : ℕ} {xs ys : List (Index × ℕ)} :
    Far L n (xs ++ ys) k ↔ Far L n xs k ∨ Far L n ys k := by
  simp only [Far, List.mem_append, exists_or, or_and_right]

/-- **What a walk over a subtree reads**: the far entries of the nodes that it visits, the latest
first, and each of them once. -/
structure ReadsOf (L n : ℕ) (t : Tree) (nodes : List (Index × ℕ)) (reads : List ℕ) : Prop where
  inside : ∀ x ∈ nodes, t.lo ≤ x.1 ∧ x.1 ≤ t.hi
  sorted : reads.Pairwise (· > ·)
  mem_iff : ∀ k, k ∈ reads ↔ Far L n nodes k

/-- **What it reads when the entry of the subtree itself is there already.** -/
structure ReadsBelow (L n : ℕ) (t : Tree) (nodes : List (Index × ℕ)) (reads : List ℕ) : Prop where
  visited : ∃ j, (t.hi, j) ∈ nodes
  inside : ∀ x ∈ nodes, t.lo ≤ x.1 ∧ x.1 ≤ t.hi
  sorted : reads.Pairwise (· > ·)
  mem_iff : ∀ k, k ∈ reads ↔ k ≠ t.hi ∧ Far L n nodes k

section Reads

variable {L n m : ℕ} {t l r : Tree} {nodes nodes' : List (Index × ℕ)} {reads reads' : List ℕ}

theorem ReadsOf.inside_reads (h : ReadsOf L n t nodes reads) {k : ℕ} (hk : k ∈ reads) :
    t.lo ≤ k ∧ k ≤ t.hi := by
  obtain ⟨⟨j, hj⟩, -⟩ := (h.mem_iff k).mp hk
  exact h.inside _ hj

theorem ReadsBelow.inside_reads (h : ReadsBelow L n t nodes reads) {k : ℕ} (hk : k ∈ reads) :
    t.lo ≤ k ∧ k < t.hi := by
  obtain ⟨hne, ⟨j, hj⟩, -⟩ := (h.mem_iff k).mp hk
  have h1 := h.inside _ hj
  exact ⟨h1.1, lt_of_le_of_ne h1.2 hne⟩

/-- Only the node itself. -/
theorem ReadsBelow.self (ht : t.LeftPerfect) (j : ℕ) : ReadsBelow L n t [(t.hi, j)] [] where
  visited := ⟨j, List.mem_singleton_self _⟩
  inside x hx := by
    rw [List.mem_singleton.mp hx]
    exact ⟨ht.lo_le_hi, Nat.le_refl _⟩
  sorted := .nil
  mem_iff k := by
    refine iff_of_false List.not_mem_nil ?_
    rintro ⟨hne, ⟨j', hj⟩, -⟩
    exact hne (Prod.mk.inj (List.mem_singleton.mp hj)).1

/-- The node itself is visited besides. -/
theorem ReadsBelow.cons (ht : t.LeftPerfect) (j : ℕ)
    (hinside : ∀ x ∈ nodes, t.lo ≤ x.1 ∧ x.1 ≤ t.hi) (hsorted : reads.Pairwise (· > ·))
    (hmem : ∀ k, k ∈ reads ↔ k ≠ t.hi ∧ Far L n nodes k) :
    ReadsBelow L n t ((t.hi, j) :: nodes) reads where
  visited := ⟨j, List.mem_cons_self⟩
  inside := List.forall_mem_cons.mpr ⟨⟨ht.lo_le_hi, Nat.le_refl _⟩, hinside⟩
  sorted := hsorted
  mem_iff k := by
    rw [hmem]
    refine and_congr_right fun hne => and_congr_left fun _ => exists_congr fun j' => ?_
    rw [List.mem_cons, or_iff_right fun h => hne (Prod.mk.inj h).1]

/-- **The right side** has the entry of the node. -/
theorem ReadsBelow.right (h : (Tree.node l r).LeftPerfect) (j : ℕ)
    (hr : ReadsBelow L n r nodes reads) :
    ReadsBelow L n (.node l r) (((Tree.node l r).hi, j) :: nodes) reads := by
  have h1 := h.lo_right
  have h2 := h.left.lo_le_hi
  refine .cons h j (fun x hx => ?_) hr.sorted hr.mem_iff
  have h3 := hr.inside x hx
  exact ⟨(show l.lo ≤ r.lo by omega).trans h3.1, h3.2⟩

/-- **The left side** has entries of its own. -/
theorem ReadsBelow.left (h : (Tree.node l r).LeftPerfect) (j : ℕ)
    (hl : ReadsOf L n l nodes reads) :
    ReadsBelow L n (.node l r) (((Tree.node l r).hi, j) :: nodes) reads := by
  have h1 := h.hi_left_lt
  refine .cons h j (fun x hx => ?_) hl.sorted fun k => ?_
  · have h3 := hl.inside x hx
    exact ⟨h3.1, h3.2.trans h1.le⟩
  · rw [hl.mem_iff, and_iff_right_of_imp]
    intro hk
    have h3 := hl.inside_reads ((hl.mem_iff k).mpr hk)
    exact ((Nat.lt_of_le_of_lt h3.2 h1).ne)

/-- **The two sides have no entry in common**, and those of the right side are later. -/
theorem ReadsBelow.both (h : (Tree.node l r).LeftPerfect) (j : ℕ)
    (hr : ReadsBelow L n r nodes reads) (hl : ReadsOf L n l nodes' reads') :
    ReadsBelow L n (.node l r) (((Tree.node l r).hi, j) :: (nodes ++ nodes'))
      (reads ++ reads') := by
  have h1 := h.lo_right
  have h2 := h.hi_left_lt
  have h3 := h.left.lo_le_hi
  refine .cons h j (fun x hx => ?_) (List.pairwise_append.mpr ⟨hr.sorted, hl.sorted, ?_⟩)
    fun k => ?_
  · rcases List.mem_append.mp hx with hx | hx
    · have h4 := hr.inside x hx
      exact ⟨(show l.lo ≤ r.lo by omega).trans h4.1, h4.2⟩
    · have h4 := hl.inside x hx
      exact ⟨h4.1, h4.2.trans h2.le⟩
  · intro k hk k' hk'
    have h4 := hr.inside_reads hk
    have h5 := hl.inside_reads hk'
    omega
  · rw [List.mem_append, hr.mem_iff, hl.mem_iff, far_append, and_or_left]
    refine or_congr_right (and_iff_right_of_imp fun hk => ?_).symm
    have h4 := hl.inside_reads ((hl.mem_iff k).mpr hk)
    exact (Nat.lt_of_le_of_lt h4.2 h2).ne

/-- **A subtree whose entry had to be read first**, unless it is cached. -/
theorem ReadsBelow.fetched (ht : t.LeftPerfect) (hm : LeadsInto n m t)
    (h : ReadsBelow L n t nodes reads) :
    ReadsOf L n t nodes ((if m ≤ L then [] else [t.hi]) ++ reads) := by
  have hsteps := hm.leftSteps_hi ht
  refine ⟨h.inside, ?_, fun k => ?_⟩
  · split
    · exact h.sorted
    · exact List.pairwise_cons.mpr ⟨fun k hk => (h.inside_reads hk).2, h.sorted⟩
  · rw [List.mem_append, h.mem_iff]
    by_cases hk : k = t.hi
    · subst hk
      have hfar : Far L n nodes t.hi ↔ L < m := by
        rw [Far, hsteps, and_iff_right h.visited]
      rw [hfar, or_iff_left fun hcon => hcon.1 rfl]
      by_cases hnear : m ≤ L
      · rw [if_pos hnear]
        exact iff_of_false List.not_mem_nil (Nat.not_lt_of_le hnear)
      · rw [if_neg hnear]
        exact iff_of_true (List.mem_singleton_self _) (Nat.lt_of_not_le hnear)
    · have hnot : k ∉ (if m ≤ L then [] else [t.hi]) := by
        split
        · exact List.not_mem_nil
        · exact fun h => hk (List.mem_singleton.mp h)
      rw [or_iff_right hnot, and_iff_right hk]

end Reads

/-! ### A storage that keeps a record -/

/-- **A storage that notes the positions that are read.** -/
abbrev noted (S : Storage (Entry w)) : Storage (Entry w) where
  State := S.State × List Position
  first := Prog.onFst S.first
  last := Prog.onFst S.last
  put position entry := Prog.onFst (S.put position entry)
  truncate position := Prog.onFst (S.truncate position)
  reader := Prog.onFst S.reader
  read position := fun s => ((S.read position s.1).1, ((S.read position s.1).2, s.2 ++ [position]))
  scan position count _ callback := fun
    | (a, (st, reads)) =>
      let result := S.scan position count callback (a, st)
      (result.1, (result.2.1, (result.2.2, reads)))

section Noting

variable {S : Storage (Entry w)} {H : HashFn w} {v : ℕ → Bytes} {pos : ℕ → Position} {L n m : ℕ}
  {c : Cache w} {st : S.State}

/-- **Following a branch** reads the entry behind it when more left edges lead there than the cache
has levels. -/
theorem fetchLeft_notes (hc : Represents H v pos L n c) (hr : Readable S st H v pos n) {t : Tree}
    (ht : t.LeftPerfect) (hn : t.hi ≤ n) (hm : LeadsInto n m t) (reads : List Position) :
    fetchLeft (noted S) c (nodeAddress pos t) ((st, reads) : S.State × List Position) =
      (.ok (entryAt H v pos t.hi),
        (st, reads ++ (if m ≤ L then [] else [t.hi]).map pos)) := by
  have hsteps := hm.leftSteps_hi ht
  by_cases hnear : m ≤ L
  · have hcached : c.entry (nodeAddress pos t).i = some (entryAt H v pos t.hi) :=
      hc.entry_near ht.hi_pos hn (hsteps.trans_le hnear)
    rw [if_pos hnear, fetchLeft, hcached, List.map_nil, List.append_nil]
    rfl
  · have hcached : c.entry (nodeAddress pos t).i = none :=
      hc.entry_far (ht.hi_pos.trans hn) (fun hle => hnear (hsteps.symm.trans_le hle))
    have hread : (noted S).read (nodeAddress pos t).position
        ((st, reads) : S.State × List Position) =
        (.ok (entryAt H v pos t.hi), (st, reads ++ [pos t.hi])) := by
      change ((S.read (pos t.hi) st).1, ((S.read (pos t.hi) st).2, reads ++ [pos t.hi])) = _
      rw [hr.read _ ht.hi_pos hn]
    rw [if_neg hnear, fetchLeft, hcached]
    simp only
    rw [readEntryWithIndexCheck, Prog.bind_ok hread,
      if_neg (show ¬(entryAt H v pos t.hi).index ≠ (nodeAddress pos t).i from not_not.mpr rfl)]
    rfl

/-- The walk that goes left: the entry of the left child is fetched, and then it is walked from. -/
theorem Recorded.fetched {q : Query (noted S)} (hc : Represents H v pos L n q.cache)
    (hr : Readable S st H v pos n) {l r : Tree} (h : (Tree.node l r).LeftPerfect) (hn : l.hi ≤ n)
    (hm : LeadsInto n m l) {callback : WalkFn w κ} {fuel : ℕ}
    {x : Run (κ × List (Index × ℕ)) Unit} (hl : Recorded st pos (ReadsBelow L n l) x
      (q.walkDownFrom callback fuel l.spine.length (entryAt H v pos l.hi))) :
    Recorded st pos (ReadsOf L n l) x
      (Prog.onSnd (q.descend r.hi (spineINode H v pos (l, r))) >>= fun left =>
        q.walkDownFrom callback fuel left.2 left.1) := by
  intro a calls reads
  have hfetch := fetchLeft_notes hc hr h.left hn hm reads
  have hdescend := descend_of_fetchLeft (q := q) h v hfetch
  obtain ⟨o, a', nodes, below, h1, h2, h3⟩ :=
    hl a calls (reads ++ (if m ≤ L then [] else [l.hi]).map pos)
  rw [List.append_assoc, ← List.map_append] at h2
  exact ⟨o, a', nodes, _, h1, (Prog.bind_ok (Prog.onSnd_run hdescend a)).trans h2,
    h3.fetched h.left hm⟩

/-- **A walk reads the entries of the nodes that it visits**, each of them once, unless they are
cached. The induction is on the subtree; the two sides of a node have no entry in common. -/
theorem walkDownFrom_recorded {q : Query (noted S)} (hc : Represents H v pos L n q.cache)
    (hr : Readable S st H v pos n) (callback : WalkFn w κ) {t : Tree} (ht : t.LeftPerfect) :
    ∀ {m : ℕ}, t.hi ≤ n → LeadsInto n m t → ∀ fuel, t.height < fuel →
      Recorded st pos (ReadsBelow L n t) (walkTree H v n (watched callback) t)
        (q.walkDownFrom callback fuel t.spine.length (entryAt H v pos t.hi)) := by
  have hrevision : q.revision = n := hc.revision_eq
  induction ht with
  | @leaf k hk =>
    intro m hn hm fuel hf
    obtain ⟨fuel, rfl⟩ := Nat.exists_eq_succ_of_ne_zero (Nat.ne_zero_of_lt hf)
    have hself : ReadsBelow L n (.leaf k) [(k, 0)] [] := .self (.leaf hk) 0
    rw [Tree.hi_leaf, walkDownFrom_leaf, hrevision, walkTree]
    exact .call hself fun _ => .done hself
  | @node l r hl hr' hp hle ha hd ihl ihr =>
    have hlr : (Tree.node l r).LeftPerfect := .node hl hr' hp hle ha hd
    have hlt := hlr.hi_left_lt
    have hhl := Tree.height_left_lt l r
    have hhr := Tree.height_right_lt l r
    intro m hn hm fuel hf
    rw [Tree.hi_node] at hn
    obtain ⟨fuel, rfl⟩ := Nat.exists_eq_succ_of_ne_zero (Nat.ne_zero_of_lt hf)
    -- on the right only later entries are read, and on the left only earlier ones
    have hright := ihr hn (hm.right hlr) fuel (by omega)
    have hleft := Recorded.fetched hc hr hlr (hlt.le.trans hn) (hm.left hlr)
      (ihl (hlt.le.trans hn) (hm.left hlr) fuel (by omega))
    have hself : ReadsBelow L n (.node l r) [(r.hi, (Tree.node l r).height)] [] := .self hlr _
    rw [Tree.hi_node, walkDownFrom_node q _ hlr, hrevision, walkTree]
    refine .call hself fun dir => ?_
    cases dir with
    | terminate => exact .done hself
    | right => exact hright.mono fun _ _ => .right hlr _
    | left => exact hleft.mono fun _ _ => .left hlr _
    | both =>
      exact hright.seq hleft (fun _ _ => .right hlr _) fun _ _ _ _ => .both hlr _

/-- A walk from the root: the latest entry is there already. -/
theorem walkDown_recorded {q : Query (noted S)} (hc : Represents H v pos L n q.cache)
    (hr : Readable S st H v pos n) (callback : WalkFn w κ) (hn : 1 ≤ n) {fuel : ℕ}
    (hf : (Tree.upTo n).height < fuel) :
    Recorded st pos (ReadsOf L n (Tree.upTo n))
      (walkTree H v n (watched callback) (Tree.upTo n)) (q.walkDown fuel callback) := by
  have hu := Tree.leftPerfect_upTo hn
  have hhi := Tree.hi_upTo hn
  have h := walkDownFrom_recorded hc hr callback hu hhi.le (leadsInto_upTo n) fuel hf
  rw [hhi, ← walkDown_eq_walkDownFrom (hc.loaded hn)] at h
  refine h.mono fun nodes reads hreads => ?_
  have hfetched := hreads.fetched hu (leadsInto_upTo n)
  rwa [if_pos (Nat.zero_le L), List.nil_append] at hfetched

end Noting

/-! ### Walks over a slate -/

/-- A snapshot of a storage that notes what is read. -/
def Snapshot.noting {S : Storage (Entry w)} (self : Snapshot S) : Snapshot (noted S) where
  cache := self.cache

/-- A snapshot of a storage that counts what is read. -/
def Snapshot.meter {S : Storage (Entry w)} (self : Snapshot S) : Snapshot (metered S) where
  cache := self.cache

section Slates

variable {B : Backend w} {H : HashFn w} {L fuel m : ℕ} {vs : List Bytes} {s : SlateOn B}
  {snapshot : Snapshot B.log.toStorage}

/-- The indices that are further away than the levels of the cache, by the formula. -/
theorem far_iff (hm : 1 ≤ m) (hb : m < 2 ^ 64) {k : ℕ} (h1 : 1 ≤ k) (h2 : k ≤ m) :
    L < Tree.leftSteps k (Tree.upTo m) ↔ ∃ d, entryAccessDistance k m = .ok (some d) ∧ L < d := by
  rw [entryAccessDistance_eq hm hb, if_pos ⟨h1, h2⟩]
  constructor
  · exact fun h => ⟨_, rfl, h⟩
  · rintro ⟨d, hd, h⟩
    rwa [Option.some.inj (Except.ok.inj hd)]

/-- **What a walk reads.** Whatever the callback does and remembers, a walk reads the entries of the
nodes that it is called for, the latest first and each of them once, unless their distance is within
the levels of the cache. -/
theorem walkDown_reads (h : Reaches B H L vs s) (hf : INDEX_SIZE < fuel)
    (hsnap : (snapshot = s.snapshot ∧ m = vs.length) ∨
      Slate.snapshotAt fuel m s = (.ok snapshot, s)) (callback : WalkFn w κ) (a : κ) :
    ∃ (o : Result Unit) (a' : κ) (calls : List (Index × ℕ)) (reads : List ℕ),
      visit H (payload vs) m (watched callback) (a, []) = (o, (a', calls)) ∧
      snapshot.noting.walkDown fuel callback (a, (s.storage, [])) =
        (o, (a', (s.storage, reads.map (positionOf B.log H (payload vs))))) ∧
      reads.Pairwise (· > ·) ∧
      ∀ k, k ∈ reads ↔ (∃ j, (k, j) ∈ calls) ∧
        ∃ d, entryAccessDistance k m = .ok (some d) ∧ L < d := by
  have hview := h.view hf hsnap
  have hreader : (noted B.log.toStorage).reader ((s.storage, []) : B.log.State × List Position) =
      (.ok (), ((s.storage, []) : B.log.State × List Position)) :=
    Prog.onFst_run hview.readable.reader []
  have hquery : snapshot.noting.query ((s.storage, []) : B.log.State × List Position) =
      (.ok { cache := snapshot.cache }, ((s.storage, []) : B.log.State × List Position)) :=
    Prog.bind_ok hreader
  rcases Nat.eq_zero_or_pos m with rfl | hm
  · -- an empty slate has nothing to walk over
    have hc : snapshot.cache = Cache.empty L := hview.represents
    refine ⟨.ok (), a, [], [], rfl, ?_, .nil, fun k => by simp⟩
    rw [Snapshot.walkDown, Prog.bind_ok (Prog.onSnd_run hquery a), Query.walkDown, hc]
    rfl
  · obtain ⟨o, a', calls, reads, h1, h2, h3⟩ := walkDown_recorded (q := ⟨snapshot.cache⟩)
      hview.represents hview.readable callback hm (height_upTo_lt hm hview.lt hf) a [] []
    refine ⟨o, a', calls, reads, ?_, ?_, h3.sorted, fun k => ?_⟩
    · rw [visit_eq hm hview.lt]
      exact h1
    · rw [Snapshot.walkDown]
      exact (Prog.bind_ok (Prog.onSnd_run hquery a)).trans h2
    · rw [h3.mem_iff, Far]
      refine and_congr_right fun hk => ?_
      obtain ⟨j, hj⟩ := hk
      have h4 := h3.inside _ hj
      rw [Tree.lo_upTo hm, Tree.hi_upTo hm] at h4
      exact far_iff hm hview.lt h4.1 h4.2

end Slates

/-- A walk that visits all the nodes of three payloads reads two of the three entries, and that of
the last generation is there already. -/
theorem walkDown_reads_three : ∃ s : SlateOn tinyBlock, Reaches tinyBlock byteSum 0
    [[1], [], [2, 3]] s ∧
      s.snapshot.noting.walkDown 65 (answerBoth fun n _ => n + 1) (0, (s.storage, [])) =
        (.ok (), (5, (s.storage, [2, 1].map
          (positionOf tinyBlock.log byteSum (payload [[1], [], [2, 3]]))))) := by
  obtain ⟨s, h⟩ := exists_reaches_of_length_lt tinyBlock byteSum 0 [[1], [], [2, 3]]
    (by decide) (by decide)
  obtain ⟨o, a, calls, reads, hvisit, hwalk, hsorted, hreads⟩ := walkDown_reads h
    (show INDEX_SIZE < 65 by decide) (Or.inl ⟨rfl, rfl⟩) (answerBoth fun n _ => n + 1) 0
  have hall : visit byteSum (payload [[1], [], [2, 3]]) 3
      (watched (answerBoth fun n _ => n + 1)) (0, []) =
        (.ok (), (5, [(3, 2), (3, 0), (2, 1), (2, 0), (1, 0)])) := by rfl
  obtain ⟨ho, hs⟩ := Prod.mk.inj (hvisit.symm.trans hall)
  obtain ⟨ha, hcalls⟩ := Prod.mk.inj hs
  subst ho ha hcalls
  have hmem : ∀ k, k ∈ reads ↔ k ∈ [2, 1] := by
    intro k
    rw [hreads]
    simp only [List.mem_cons, Prod.mk.injEq, List.not_mem_nil, or_false]
    constructor
    · rintro ⟨⟨j, hj⟩, d, hd, hpos⟩
      have hthree : k ≠ 3 := by
        rintro rfl
        have hzero : entryAccessDistance 3 3 = .ok (some 0) := by decide
        obtain rfl := Option.some.inj (Except.ok.inj (hd.symm.trans hzero))
        exact Nat.lt_irrefl 0 hpos
      omega
    · rintro (rfl | rfl)
      · exact ⟨⟨0, by simp⟩, 1, by decide, Nat.one_pos⟩
      · exact ⟨⟨0, by simp⟩, 2, by decide, Nat.two_pos⟩
  have heq : reads = [2, 1] := hsorted.eq_of_mem_iff (by decide) hmem
  exact ⟨s, h, by rw [hwalk, heq]⟩

/-! ### Samples -/

section Samples

variable {S : Storage (Entry w)} {H : HashFn w} {v : ℕ → Bytes} {pos : ℕ → Position} {L n m i : ℕ}
  {st : S.State}

/-- The nodes to the left of the way to a leaf that are far away. -/
def leftwards (L n i : ℕ) (t : Tree) : List Tree :=
  (Tree.siblings i t).filter fun s => decide (s.hi < i ∧ L < Tree.leftSteps s.hi (Tree.upTo n))

/-- To the right of a node that the way leaves to the left, nothing has to be read. -/
theorem leftwards_left {l r : Tree} (h : (Tree.node l r).LeftPerfect) (hi : i ≤ l.hi) :
    leftwards L n i (.node l r) = leftwards L n i l := by
  have h1 := h.hi_left_lt
  rw [leftwards, Tree.siblings_left hi, List.filter_cons_of_neg]
  · rfl
  · rw [decide_eq_true_iff]
    omega

/-- The left side of a node that the way leaves to the right. -/
theorem length_leftwards_right {l r : Tree} (h : (Tree.node l r).LeftPerfect) (hi : ¬i ≤ l.hi)
    (hm : LeadsInto n m l) : (leftwards L n i (.node l r)).length =
      (leftwards L n i r).length + if m ≤ L then 0 else 1 := by
  have hsteps := hm.leftSteps_hi h.left
  rw [leftwards, Tree.siblings_right hi, List.filter_append, List.length_append, ← leftwards]
  refine congrArg _ ?_
  by_cases hfar : m ≤ L
  · rw [if_pos hfar, List.filter_cons_of_neg (by rw [decide_eq_true_iff]; omega)]
    rfl
  · rw [if_neg hfar, List.filter_cons_of_pos (by rw [decide_eq_true_iff]; omega)]
    rfl

/-- A sample goes on below a node that contains its index. -/
theorem sampleStep_inside {l r : Tree} (h : (Tree.node l r).LeftPerfect) (hb : r.hi < 2 ^ 64)
    (hlo : l.lo ≤ i) (hhi : i ≤ r.hi) (revision : Index) (hash : Hash w)
    (a : (Finmap fun _ : Index × ℕ => Hash w) × Option Bytes) :
    Query.sampleStep i revision r.hi (Tree.node l r).height hash none a = (.ok .both, a) := by
  have hc : contains r.hi (Tree.node l r).height i = .ok true :=
    (contains_label h hb i).trans (by rw [decide_eq_true ⟨hlo, hhi⟩])
  simp only [Query.sampleStep, hc, Prog.liftM_eq, Prog.lift_ok_bind, if_neg label_node_ne,
    Bool.true_eq_false, if_false]
  rfl

/-- It stops at a node that does not, and remembers it. -/
theorem sampleStep_outside {t : Tree} (ht : t.LeftPerfect) (hb : t.hi < 2 ^ 64)
    (hi : ¬(t.lo ≤ i ∧ i ≤ t.hi)) (revision : Index) (hash : Hash w) (value : Option Bytes)
    (witnesses : Finmap fun _ : Index × ℕ => Hash w) (leaf : Option Bytes) :
    Query.sampleStep i revision t.hi t.height hash value (witnesses, leaf) =
      (.ok .terminate, (witnesses.insert t.label hash, leaf)) := by
  have hc : contains t.hi t.height i = .ok false :=
    (contains_label ht hb i).trans (by rw [decide_eq_false hi])
  rw [Query.sampleStep, hc]
  rfl

/-- So nothing is read below such a node. -/
theorem walkDownFrom_outside (st : S.State) {q : Query (metered S)}
    (hc : Represents H v pos L n q.cache)
    {t : Tree} (ht : t.LeftPerfect) (hb : t.hi < 2 ^ 64) (hi : ¬(t.lo ≤ i ∧ i ≤ t.hi)) {fuel : ℕ}
    (hf : 0 < fuel) (witnesses : Finmap fun _ : Index × ℕ => Hash w) (leaf : Option Bytes)
    (reads : ℕ) :
    q.walkDownFrom (Query.sampleStep i) fuel t.spine.length (entryAt H v pos t.hi)
        ((witnesses, leaf), ((st, reads) : S.State × ℕ)) =
      (.ok (), ((witnesses.insert t.label (treeHash H v t), leaf),
        ((st, reads) : S.State × ℕ))) := by
  have hstep := sampleStep_outside ht hb hi n (treeHash H v t)
  have hrevision : q.revision = n := hc.revision_eq
  obtain ⟨fuel, rfl⟩ := Nat.exists_eq_succ_of_ne_zero hf.ne'
  cases t with
  | leaf k =>
    rw [Tree.hi_leaf, walkDownFrom_leaf, hrevision]
    exact Prog.bind_ok (Prog.onFst_run (hstep (some (v k)) witnesses leaf) _)
  | node l r =>
    rw [Tree.hi_node, walkDownFrom_node q _ ht, hrevision]
    exact Prog.bind_ok (Prog.onFst_run (hstep none witnesses leaf) _)

/-- **What a sample reads below a node** on its way: the entries on the rest of the way, and those
of the nodes to the left of it, as far as they are not cached. -/
theorem walkDownFrom_sample {q : Query (metered S)} (hc : Represents H v pos L n q.cache)
    (hb : n < 2 ^ 64) (hr : Readable S st H v pos n) {t : Tree} (ht : t.LeftPerfect) : ∀ {m : ℕ},
    t.hi ≤ n → t.lo ≤ i → i ≤ t.hi → LeadsInto n m t → ∀ fuel, t.height < fuel →
      ∀ witnesses leaf reads,
      q.walkDownFrom (Query.sampleStep i) fuel t.spine.length (entryAt H v pos t.hi)
          ((witnesses, leaf), ((st, reads) : S.State × ℕ)) =
        (.ok (), ((insertAll Tree.label (treeHash H v) witnesses (Tree.siblings i t), some (v i)),
          ((st, reads + ((m + Tree.leftSteps i t - L) - (m - L)) + (leftwards L n i t).length) :
            S.State × ℕ))) := by
  have hrevision : q.revision = n := hc.revision_eq
  induction ht with
  | @leaf k hk =>
    intro m hn hlo hhi hm fuel hf witnesses leaf reads
    obtain rfl : i = k := le_antisymm hhi hlo
    obtain ⟨fuel, rfl⟩ := Nat.exists_eq_succ_of_ne_zero (Nat.ne_zero_of_lt hf)
    have hin : contains i 0 i = .ok true :=
      (contains_label (.leaf hk) (hn.trans_lt hb) i).trans (by rw [decide_eq_true ⟨hlo, hhi⟩])
    have hleaf : Query.sampleStep i n i 0 (treeHash H v (.leaf i)) (some (v i)) (witnesses, leaf) =
        (.ok .terminate, (witnesses, some (v i))) := by
      rw [Query.sampleStep, hin]
      rfl
    have hzero : m + Tree.leftSteps i (.leaf i) - L - (m - L) = 0 := by
      rw [Tree.leftSteps]
      omega
    rw [Tree.hi_leaf, walkDownFrom_leaf, hrevision, hzero]
    exact Prog.bind_ok (Prog.onFst_run hleaf _)
  | @node l r hl hr' hp hle ha hd ihl ihr =>
    have hlr : (Tree.node l r).LeftPerfect := .node hl hr' hp hle ha hd
    have hlt := hlr.hi_left_lt
    have hhl := Tree.height_left_lt l r
    have hhr := Tree.height_right_lt l r
    intro m hn hlo hhi hm fuel hf witnesses leaf reads
    rw [Tree.hi_node] at hn hhi
    rw [Tree.lo_node] at hlo
    obtain ⟨fuel, rfl⟩ := Nat.exists_eq_succ_of_ne_zero (Nat.ne_zero_of_lt hf)
    have hstep := sampleStep_inside hlr (hn.trans_lt hb) hlo hhi n (treeHash H v (.node l r))
      (witnesses, leaf)
    have hdescend : ∀ reads,
        q.descend r.hi (spineINode H v pos (l, r)) ((st, reads) : S.State × ℕ) =
          (.ok (entryAt H v pos l.hi, l.spine.length),
            ((st, reads + if m + 1 ≤ L then 0 else 1) : S.State × ℕ)) := fun reads =>
      descend_of_fetchLeft (q := q) hlr v
        (fetchLeft_counts hc hr hl (hlt.le.trans hn) (hm.left hlr) reads)
    rw [Tree.hi_node, walkDownFrom_node q _ hlr, hrevision,
      Prog.bind_ok (Prog.onFst_run hstep _)]
    simp only
    by_cases hk : i ≤ l.hi
    · -- the way goes left: the right side is a witness, which the entry at hand holds
      have hout := walkDownFrom_outside st hc hr' (hn.trans_lt hb)
        (show ¬(r.lo ≤ i ∧ i ≤ r.hi) by omega) (show 0 < fuel by omega) witnesses leaf reads
      rw [Prog.bind_ok hout, Prog.bind_ok (Prog.onSnd_run (hdescend reads) _)]
      simp only
      rw [ihl (hlt.le.trans hn) hlo hk (hm.left hlr) fuel (by omega), Tree.siblings_left hk,
        insertAll_cons, leftwards_left hlr hk, Tree.leftSteps_left hk, reads_step, ← Nat.add_assoc]
    · -- the way goes right: the left side is a witness, and its entry has to be fetched
      have hin := ihr hn (by omega) hhi (hm.right hlr) fuel (by omega) witnesses leaf reads
      rw [Prog.bind_ok hin, Prog.bind_ok (Prog.onSnd_run (hdescend _) _)]
      simp only
      rw [walkDownFrom_outside st hc hl (hlt.trans_le hn |>.trans hb) (by omega) (by omega),
        Tree.siblings_right hk, insertAll_append, Tree.leftSteps_right hk,
        length_leftwards_right hlr hk (hm.left hlr), ← Nat.add_assoc]
      rfl

/-- Without a cache, the way and what is to the left of it are as many entries as there are nodes
beside the way. -/
theorem leftSteps_add_leftwards {t : Tree} (ht : t.LeftPerfect) : ∀ {m : ℕ}, LeadsInto n m t →
    Tree.leftSteps i t + (leftwards 0 n i t).length = (Tree.siblings i t).length := by
  induction ht with
  | leaf => exact fun _ => rfl
  | @node l r hl hr hp hle ha hd ihl ihr =>
    have hlr : (Tree.node l r).LeftPerfect := .node hl hr hp hle ha hd
    intro m hm
    by_cases hi : i ≤ l.hi
    · have ih := ihl (hm.left hlr)
      rw [leftwards_left hlr hi, Tree.leftSteps_left hi, Tree.siblings_left hi, List.length_cons]
      omega
    · have ih := ihr (hm.right hlr)
      rw [length_leftwards_right hlr hi (hm.left hlr), if_neg (Nat.not_succ_le_zero m),
        Tree.leftSteps_right hi, Tree.siblings_right hi, List.length_append, List.length_singleton]
      omega

/-- The witnesses of the sample of the tree. -/
theorem mem_witnesses_iff (hn : 1 ≤ n) (hb : n < 2 ^ 64) (h1 : 1 ≤ i) (h2 : i ≤ n)
    (x : Index × ℕ) : x ∈ (sampleOf H v n i).witnesses.keys ↔
      ∃ t ∈ Tree.siblings i (Tree.upTo n), x = t.label := by
  rw [Finmap.mem_keys, Finmap.mem_iff]
  simp only [lookup_witnessMap hn hb h1 h2, isSibling_iff hn hb h1 h2]
  refine ⟨?_, ?_⟩
  · rintro ⟨_, h, -⟩
    exact h
  · rintro ⟨t, ht, rfl⟩
    obtain ⟨h3, h4⟩ := sub_upTo hn hb (Tree.sub_of_mem_siblings ht)
    exact ⟨_, ⟨t, ht, rfl⟩, merkleHash_label h3 h4⟩

/-- What a sample reads. -/
theorem getSample_counts {q : Query (metered S)} (hc : Represents H v pos L n q.cache)
    (hb : n < 2 ^ 64) (hr : Readable S st H v pos n) {fuel : ℕ} (hf : INDEX_SIZE < fuel)
    (h1 : 1 ≤ i) (h2 : i ≤ n) :
    Counts st ((Tree.leftSteps i (Tree.upTo n) - L) + (leftwards L n i (Tree.upTo n)).length)
      (some (sampleOf H v n i)) (q.getSample fuel i) := by
  have hn := h1.trans h2
  have hu := Tree.leftPerfect_upTo hn
  have hhi := Tree.hi_upTo hn
  have hrevision : q.revision = n := hc.revision_eq
  intro reads
  have hwalk := walkDownFrom_sample (i := i) hc hb hr hu hhi.le (by rwa [Tree.lo_upTo hn])
    (by rwa [hhi]) (leadsInto_upTo n) fuel (height_upTo_lt hn hb hf) ∅ none reads
  rw [hhi, Nat.zero_add, Nat.zero_sub, Nat.sub_zero, Nat.add_assoc] at hwalk
  have hdown := walkDown_eq_walkDownFrom (hc.loaded hn)
    (Query.sampleStep i : WalkFn w ((Finmap fun _ : Index × ℕ => Hash w) × Option Bytes)) fuel
  have hcollect : q.collect fuel (Query.sampleStep i) (∅, none) ((st, reads) : S.State × ℕ) =
      (.ok (insertAll Tree.label (treeHash H v) ∅ (Tree.siblings i (Tree.upTo n)), some (v i)),
        (st, reads + ((Tree.leftSteps i (Tree.upTo n) - L) +
          (leftwards L n i (Tree.upTo n)).length))) := by
    rw [Query.collect, hdown, hwalk]
  rw [Query.getSample, hrevision, Prog.bind_ok hcollect]
  rfl

/-- The nodes to the left have different names. -/
theorem nodup_leftwards (hn : 1 ≤ n) :
    ((leftwards L n i (Tree.upTo n)).map Tree.label).Nodup := by
  have hu := Tree.leftPerfect_upTo hn
  refine List.pairwise_map.mpr (((hu.siblings_sorted i).imp_of_mem ?_).filter _)
  intro p q hp hq hlt heq
  have h1 := ((Tree.sub_of_mem_siblings hp).leftPerfect hu).lo_le_hi
  have h2 : p.hi = q.hi := congrArg Prod.fst heq
  omega

end Samples

section Slates

variable {B : Backend w} {H : HashFn w} {L fuel m i : ℕ} {vs : List Bytes} {s : SlateOn B}
  {snapshot : Snapshot B.log.toStorage}

/-- **What a sample costs**: as much as reading the entry of its leaf, and one more read for every
witness to the left of it whose entry is further away than the levels of the cache. Without a cache,
that is one read for every witness. -/
theorem getSample_reads (h : Reaches B H L vs s) (hf : INDEX_SIZE < fuel)
    (hsnap : (snapshot = s.snapshot ∧ m = vs.length) ∨
      Slate.snapshotAt fuel m s = (.ok snapshot, s)) (h1 : 1 ≤ i) (h2 : i ≤ m) :
    ∃ (sample : StratumSample w) (d : ℕ) (left : Finset (Index × ℕ)),
      snapshot.getSample fuel i s.storage = (.ok (some sample), s.storage) ∧
      snapshot.meter.getSample fuel i (s.storage, 0) =
        (.ok (some sample), (s.storage, (d - L) + left.card)) ∧
      entryAccessDistance i m = .ok (some d) ∧
      (∀ x, x ∈ left ↔ x ∈ sample.witnesses.keys ∧ x.1 < i ∧
        ∃ d', entryAccessDistance x.1 m = .ok (some d') ∧ L < d') ∧
      (L = 0 → stratumSampleSize m i = .ok ((d - L) + left.card)) := by
  have hview := h.view hf hsnap
  have hm := h1.trans h2
  have hb := hview.lt
  have hreader : (metered B.log.toStorage).reader ((s.storage, 0) : B.log.State × ℕ) =
      (.ok (), ((s.storage, 0) : B.log.State × ℕ)) := Prog.onFst_run hview.readable.reader 0
  have hquery : snapshot.meter.query ((s.storage, 0) : B.log.State × ℕ) =
      (.ok { cache := snapshot.cache }, ((s.storage, 0) : B.log.State × ℕ)) := Prog.bind_ok hreader
  have hsample := hview.getSample_eq hf i
  have hcounts := getSample_counts (q := ⟨snapshot.cache⟩) hview.represents hb hview.readable hf
    h1 h2 0
  have hcard : (((leftwards L m i (Tree.upTo m)).map Tree.label).toFinset).card =
      (leftwards L m i (Tree.upTo m)).length := by
    rw [List.toFinset_card_of_nodup (nodup_leftwards hm), List.length_map]
  rw [if_pos ⟨h1, h2⟩] at hsample
  refine ⟨_, Tree.leftSteps i (Tree.upTo m),
    ((leftwards L m i (Tree.upTo m)).map Tree.label).toFinset, hsample, ?_, ?_, ?_, ?_⟩
  · rw [Snapshot.getSample, Prog.bind_ok hquery, hcard]
    rw [Nat.zero_add] at hcounts
    exact hcounts
  · rw [entryAccessDistance_eq hm hb, if_pos ⟨h1, h2⟩]
  · intro x
    rw [List.mem_toFinset, List.mem_map, mem_witnesses_iff hm hb h1 h2]
    -- the siblings to the left are those whose latest index is less than that of the leaf
    constructor
    · rintro ⟨t, ht, rfl⟩
      obtain ⟨ht, hfar⟩ := List.mem_filter.mp ht
      obtain ⟨hlt, hfar⟩ := of_decide_eq_true hfar
      obtain ⟨h3, -⟩ := sub_upTo hm hb (Tree.sub_of_mem_siblings ht)
      exact ⟨⟨t, ht, rfl⟩, hlt, (far_iff hm hb h3.hi_pos (hlt.le.trans h2)).mp hfar⟩
    · rintro ⟨⟨t, ht, rfl⟩, hlt, hfar⟩
      obtain ⟨h3, -⟩ := sub_upTo hm hb (Tree.sub_of_mem_siblings ht)
      have hlt' : t.hi < i := hlt
      refine ⟨t, List.mem_filter.mpr ⟨ht, decide_eq_true ⟨hlt', ?_⟩⟩, rfl⟩
      exact (far_iff hm hb h3.hi_pos (hlt'.le.trans h2)).mpr hfar
  · rintro rfl
    rw [hcard, Nat.sub_zero, leftSteps_add_leftwards (Tree.leftPerfect_upTo hm) (leadsInto_upTo m)]
    exact stratumSampleSize_eq hm hb h1 h2

end Slates

/-- The sample of the second of three payloads, with nothing in the cache: its own entry is read,
and that of the first payload; the third is there already. -/
theorem getSample_reads_three : ∃ s : SlateOn tinyBlock, Reaches tinyBlock byteSum 0
    [[1], [], [2, 3]] s ∧ ∃ sample,
      s.snapshot.meter.getSample 65 2 (s.storage, 0) = (.ok (some sample), (s.storage, 2)) := by
  obtain ⟨s, h⟩ := exists_reaches_of_length_lt tinyBlock byteSum 0 [[1], [], [2, 3]]
    (by decide) (by decide)
  obtain ⟨sample, d, left, -, hreads, -, -, hsize⟩ := getSample_reads h
    (show INDEX_SIZE < 65 by decide) (Or.inl ⟨rfl, rfl⟩) (show 1 ≤ 2 by decide)
    (show 2 ≤ 3 by decide)
  have htwo : stratumSampleSize 3 2 = .ok 2 := by decide
  rw [Except.ok.inj ((hsize rfl).symm.trans htwo)] at hreads
  exact ⟨s, h, sample, hreads⟩

/-! ### The size of a cache -/

namespace Tree

/-- The leaves that fewer left edges lead to. -/
def nearLeaves (e : ℕ) (t : Tree) : List ℕ :=
  (List.range' t.lo t.size).filter fun k => decide (leftSteps k t < e)

/-- So many of the leaves of a perfect tree of a height are near. -/
def nearCount (e h : ℕ) : ℕ := ∑ d ∈ Finset.range e, h.choose d

/-- **Pascal's rule**, for a left side that is one step further away and a right side. -/
theorem nearCount_succ (h : ℕ) : ∀ e, nearCount e (h + 1) = nearCount (e - 1) h + nearCount e h
  | 0 => rfl
  | e + 1 => by
    rw [nearCount, Finset.sum_range_succ', Nat.add_sub_cancel, nearCount, nearCount,
      Finset.sum_range_succ' _ e]
    simp only [Nat.choose_succ_succ, Finset.sum_add_distrib, Nat.choose_zero_right]
    rw [Nat.add_assoc]

namespace LeftPerfect

variable {t l r : Tree}

/-- The leaves of the two sides. -/
theorem length_nearLeaves_node (h : LeftPerfect (.node l r)) (e : ℕ) :
    (nearLeaves e (.node l r)).length =
      (nearLeaves (e - 1) l).length + (nearLeaves e r).length := by
  have h1 := h.left.lo_add_size
  have h2 := h.lo_right
  have hleft : (List.range' l.lo l.size).filter (fun k => decide (leftSteps k (.node l r) < e)) =
      nearLeaves (e - 1) l := by
    refine List.filter_congr fun k hk => ?_
    rw [List.mem_range'_1] at hk
    rw [leftSteps_left (by omega)]
    exact decide_eq_decide.mpr (by omega)
  have hright : (List.range' r.lo r.size).filter (fun k => decide (leftSteps k (.node l r) < e)) =
      nearLeaves e r := by
    refine List.filter_congr fun k hk => ?_
    rw [List.mem_range'_1] at hk
    rw [leftSteps_right (by omega)]
  have hsplit : List.range' (Tree.node l r).lo (Tree.node l r).size =
      List.range' l.lo l.size ++ List.range' r.lo r.size := by
    rw [lo_node, size_node, h2, ← h1, List.range'_append_1]
  rw [nearLeaves, hsplit, List.filter_append, List.length_append, hleft, hright]

/-- **The near leaves of a perfect tree** are counted by binomial coefficients. -/
theorem length_nearLeaves_of_perfect (h : LeftPerfect t) : t.Perfect → ∀ e,
    (nearLeaves e t).length = nearCount e t.height := by
  induction h with
  | @leaf k hk =>
    intro _ e
    cases e with
    | zero => rfl
    | succ e =>
      rw [nearCount, Finset.sum_range_succ', height_leaf]
      simp [nearLeaves, leftSteps]
  | @node l r hl hr hp hle ha hd ihl ihr =>
    have hlr : LeftPerfect (.node l r) := .node hl hr hp hle ha hd
    intro hperf e
    rw [hlr.length_nearLeaves_node, ihl hp, ihr (hlr.perfect_right hperf),
      hlr.height_right_of_perfect hperf, hlr.height_eq, nearCount_succ]

/-- **The near leaves of any tree** are those of its perfect subtrees: one left edge leads to each
of them but the last. -/
theorem length_nearLeaves (h : LeftPerfect t) (e : ℕ) : (nearLeaves e t).length =
    (t.peaks.map fun p => nearCount (if p.hi = t.hi then e else e - 1) p.height).sum := by
  induction h with
  | @leaf k hk =>
    rw [(LeftPerfect.leaf hk).length_nearLeaves_of_perfect rfl, peaks, List.map_singleton,
      List.sum_singleton, if_pos rfl]
  | @node l r hl hr hp hle ha hd _ ihr =>
    have hlr : LeftPerfect (.node l r) := .node hl hr hp hle ha hd
    by_cases hperf : (Tree.node l r).Perfect
    · rw [hlr.length_nearLeaves_of_perfect hperf, peaks_of_perfect hperf, List.map_singleton,
        List.sum_singleton, if_pos rfl]
    · have hlt := hlr.hi_left_lt
      rw [hlr.length_nearLeaves_node, hl.length_nearLeaves_of_perfect hp, ihr,
        peaks_of_not_perfect hperf, List.map_cons, List.sum_cons, hi_node, if_neg hlt.ne]

end LeftPerfect

end Tree

section Caches

variable {B : Backend w} {H : HashFn w} {L fuel m : ℕ} {vs : List Bytes} {s : SlateOn B}
  {snapshot : Snapshot B.log.toStorage}

/-- The entries in a cache. -/
theorem Loaded.len_eq {v : ℕ → Bytes} {pos : ℕ → Position} {n : ℕ} {c : Cache w} (hn : 1 ≤ n)
    (h : Loaded H v pos L n c) : c.len = (Tree.nearLeaves (L + 1) (Tree.upTo n)).length := by
  have hsize := (Tree.leftPerfect_upTo hn).lo_add_size
  rw [Tree.lo_upTo hn, Tree.hi_upTo hn] at hsize
  have hkeys : c.cache.keys = (Tree.nearLeaves (L + 1) (Tree.upTo n)).toFinset := by
    ext k
    rw [Finmap.mem_keys, Finmap.mem_iff, List.mem_toFinset, Tree.nearLeaves, List.mem_filter,
      List.mem_range'_1, Tree.lo_upTo hn, decide_eq_true_iff]
    have hk : (∃ e, c.cache.lookup k = some e) ↔ Near L n k :=
      ⟨fun ⟨e, he⟩ => ((h.holds k e).mp he).1, fun hk => ⟨_, h.holds.lookup hk⟩⟩
    rw [hk, near_iff hn]
    omega
  have hnodup : (Tree.nearLeaves (L + 1) (Tree.upTo n)).Nodup :=
    List.Nodup.filter _ List.nodup_range'
  rw [Cache.len, hkeys, List.toFinset_card_of_nodup hnodup]

/-- **How much a cache holds**, for every level and every generation: below a perfect subtree of the
height `j` of the generation, the sum of the first binomial coefficients of `j`, as many as there
are levels, and one more when it is the last one. -/
theorem cache_len (h : Reaches B H L vs s) (hf : INDEX_SIZE < fuel)
    (hsnap : (snapshot = s.snapshot ∧ m = vs.length) ∨
      Slate.snapshotAt fuel m s = (.ok snapshot, s)) :
    (m = 0 → snapshot.cache.len = 0) ∧
    (1 ≤ m → ∃ roots, pbstRoots m = .ok roots ∧ snapshot.cache.len =
      (roots.map fun root =>
        ∑ d ∈ Finset.range (if root.i = m then L + 1 else L), root.j.choose d).sum) := by
  have hview := h.view hf hsnap
  constructor
  · rintro rfl
    have hc : snapshot.cache = Cache.empty L := hview.represents
    rw [hc]
    rfl
  · intro hm
    refine ⟨_, pbstRoots_eq hm hview.lt, ?_⟩
    rw [(hview.represents.loaded hm).len_eq hm, (Tree.leftPerfect_upTo hm).length_nearLeaves,
      List.map_map, Tree.hi_upTo hm]
    rfl

end Caches

/-- Seven payloads: the perfect subtrees have the heights two, one and zero. -/
theorem cache_len_seven : ∃ s : SlateOn tinyBlock, Reaches tinyBlock byteSum 2
    [[1], [], [2, 3], [4], [5], [], [6]] s ∧ s.snapshot.cache.len = 6 := by
  obtain ⟨s, h⟩ := exists_reaches_of_length_lt tinyBlock byteSum 2
    [[1], [], [2, 3], [4], [5], [], [6]] (by decide) (by decide)
  obtain ⟨-, hlen⟩ := cache_len h (show INDEX_SIZE < 65 by decide) (Or.inl ⟨rfl, rfl⟩)
  obtain ⟨roots, hroots, hlen⟩ := hlen (show 1 ≤ 7 by decide)
  have hseven : pbstRoots 7 = .ok [⟨4, 2⟩, ⟨6, 1⟩, ⟨7, 0⟩] := by decide
  obtain rfl := Except.ok.inj (hroots.symm.trans hseven)
  exact ⟨s, h, hlen⟩

end StratifiedHashTree
