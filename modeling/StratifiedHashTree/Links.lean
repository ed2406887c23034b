import Mathlib.Data.Set.Finite.Lattice
import StratifiedHashTree.Booting
import StratifiedHashTree.Malformed

/-!
# Following links that may lead anywhere

A search starts at the last entry. As long as it has not come to the index it looks for, it goes
on through the first left branch whose subtree contains this index, and it checks that the entry
it comes to has the index that the branch names. It does not check that this index is smaller
than the one it comes from, as the walk down a tree does (`StratifiedHashTree.Query.descend`). In
a content that may hold anything, then, a branch may lead back.

What a search does is said here without it: a relation between the entries of a content
(`StratifiedHashTree.LeadsTo`), and what keeps a search from coming to an end
(`StratifiedHashTree.LeadsOut`). Since a content has only so many records, a relation that never
leads back comes to an end (`StratifiedHashTree.acc_iff_acyclic`), and a search ends exactly then
(`StratifiedHashTree.search_ends_iff`).
-/

namespace StratifiedHashTree

open Outcome Formula Relation

variable {w : ℕ}

/-! ### Relations that come to an end -/

section Ends

variable {α : Type*} {R : α → α → Prop} {a : α}

/-- What comes to an end does not lead back. -/
theorem not_transGen_of_acc (h : Acc (flip R) a) : ∀ b, ReflTransGen R a b → ¬TransGen R b b := by
  intro b hab
  induction hab using ReflTransGen.head_induction_on with
  | refl =>
    induction h with
    | intro b _ ih =>
      intro hbb
      -- the first step is again on the way from itself to itself
      obtain ⟨c, hbc, hcb⟩ := TransGen.head'_iff.mp hbb
      exact ih c hbc (TransGen.tail' hcb hbc)
  | head hac _ ih => exact ih (h.inv hac)

/-- **Among finitely many, what never leads back comes to an end.** -/
theorem acc_iff_acyclic (hfin : {b | ReflTransGen R a b}.Finite) :
    Acc (flip R) a ↔ ∀ b, ReflTransGen R a b → ¬TransGen R b b := by
  refine ⟨not_transGen_of_acc, fun h => ?_⟩
  have hfinite : Finite {b // ReflTransGen R a b} := hfin
  let later : {b // ReflTransGen R a b} → {b // ReflTransGen R a b} → Prop :=
    fun x y => TransGen R y.1 x.1
  have htrans : IsTrans _ later := ⟨fun x y z hxy hyz => TransGen.trans hyz hxy⟩
  have hirrefl : Std.Irrefl later := ⟨fun x => h x.1 x.2⟩
  have hwf : WellFounded later := Finite.wellFounded_of_trans_of_irrefl later
  have key : ∀ x : {b // ReflTransGen R a b}, Acc (flip R) x.1 := by
    intro x
    induction x using hwf.induction with
    | _ x ih =>
      refine Acc.intro _ fun y hxy => ?_
      exact ih ⟨y, x.2.tail hxy⟩ (TransGen.single hxy)
  exact key ⟨a, .refl⟩

end Ends

/-! ### What a search follows -/

section Following

variable (stored : Position → Entry w → Prop) (cache : Cache w) (i : Index)

/-- The entry behind a left branch: the cached one of its index, or else the one that is stored at
its position, if that has its index. -/
def Behind (left : Address) (e : Entry w) : Prop :=
  cache.entry left.i = some e ∨
    cache.entry left.i = none ∧ stored left.position e ∧ e.index = left.i

/-- **A search goes from an entry to another one**: through the first left branch whose subtree
contains the index. -/
def LeadsTo (e e' : Entry w) : Prop :=
  e.index ≠ i ∧ ∃ inode, findLeft i e.inodes = .ok (some inode) ∧ Behind stored cache inode.left e'

/-- **A search has a way out of an entry**: no entry that it comes to leads back to itself, and
the branches that it looks at are ones that can be. -/
structure LeadsOut (e : Entry w) : Prop where
  acyclic : ∀ e', ReflTransGen (LeadsTo stored cache i) e e' →
    ¬TransGen (LeadsTo stored cache i) e' e'
  branches : ∀ e', ReflTransGen (LeadsTo stored cache i) e e' → e'.index ≠ i →
    ∃ found, findLeft i e'.inodes = .ok found

end Following

/-- **What is stored**: every read gives the entry at its position, or an error, and changes
nothing; and there are only so many entries. -/
structure StoredIn (S : Storage (Entry w)) (st : S.State) (stored : Position → Entry w → Prop) :
    Prop where
  reader : S.reader st = (.ok (), st)
  read : ∀ position, (∃ e, stored position e ∧ S.read position st = (.ok e, st)) ∨
    ((∀ e, ¬stored position e) ∧ ∃ error, S.read position st = (err error, st))
  unique : ∀ {position e e'}, stored position e → stored position e' → e = e'
  finite : {e | ∃ position, stored position e}.Finite

section Followed

variable {S : Storage (Entry w)} {st : S.State} {stored : Position → Entry w → Prop}
  {cache : Cache w} {i : Index} {e e' : Entry w} {left : Address}

theorem Behind.unique (hst : StoredIn S st stored) (h : Behind stored cache left e)
    (h' : Behind stored cache left e') : e = e' := by
  rcases h with h | ⟨h, h1, -⟩
  · rcases h' with h' | ⟨h', -⟩
    · exact Option.some.inj (h.symm.trans h')
    · exact absurd (h.symm.trans h') (Option.some_ne_none e)
  · rcases h' with h' | ⟨-, h2, -⟩
    · exact absurd (h'.symm.trans h) (Option.some_ne_none e')
    · exact hst.unique h1 h2

/-- A step is determined. -/
theorem LeadsTo.unique (hst : StoredIn S st stored) {e'' : Entry w}
    (h : LeadsTo stored cache i e e') (h' : LeadsTo stored cache i e e'') : e' = e'' := by
  obtain ⟨-, inode, h1, h2⟩ := h
  obtain ⟨-, inode', h3, h4⟩ := h'
  rw [h1, Except.ok.injEq, Option.some.injEq] at h3
  subst h3
  exact h2.unique hst h4

/-- **There are only so many entries** to come to. -/
theorem finite_reached (hst : StoredIn S st stored) :
    {e' | ReflTransGen (LeadsTo stored cache i) e e'}.Finite := by
  have hcached : {e : Entry w | ∃ k, cache.cache.lookup k = some e}.Finite := by
    refine Set.Finite.subset (s := ⋃ k ∈ cache.cache.keys, {e | cache.cache.lookup k = some e})
      ?_ ?_
    · refine Set.Finite.biUnion (Finset.finite_toSet _) fun k _ => Set.Subsingleton.finite ?_
      intro e he e' he'
      exact Option.some.inj (he.symm.trans he')
    · rintro e ⟨k, hk⟩
      exact Set.mem_biUnion (Finmap.mem_keys.mpr (Finmap.mem_of_lookup_eq_some hk)) hk
  refine ((hcached.union hst.finite).insert e).subset ?_
  intro e' h
  rcases ReflTransGen.cases_tail h with rfl | ⟨e'', -, -, inode, -, h1⟩
  · exact Set.mem_insert _ _
  · refine Set.mem_insert_of_mem _ ?_
    rcases h1 with h1 | ⟨-, h1, -⟩
    · exact Or.inl ⟨_, h1⟩
    · exact Or.inr ⟨_, h1⟩

/-- Following a branch: to the entry behind it, or to an error. -/
theorem fetchLeft_cases (hst : StoredIn S st stored) (cache : Cache w) (left : Address) :
    (∃ e, Behind stored cache left e ∧ fetchLeft S cache left st = (.ok e, st)) ∨
    ((∀ e, ¬Behind stored cache left e) ∧
      ∃ error, fetchLeft S cache left st = (err error, st)) := by
  cases hcached : cache.entry left.i with
  | some e => exact Or.inl ⟨e, Or.inl hcached, by rw [fetchLeft, hcached]; rfl⟩
  | none =>
    have hrun : fetchLeft S cache left st =
        readEntryWithIndexCheck S left.position left.i st := by
      rw [fetchLeft, hcached]
    rw [hrun, readEntryWithIndexCheck]
    rcases hst.read left.position with ⟨e, h1, h2⟩ | ⟨h1, error, h2⟩
    · by_cases hindex : e.index = left.i
      · refine Or.inl ⟨e, Or.inr ⟨hcached, h1, hindex⟩, ?_⟩
        rw [Prog.bind_ok h2, if_neg (not_not.mpr hindex)]
        rfl
      · refine Or.inr ⟨?_, _, by rw [Prog.bind_ok h2, if_pos hindex]; rfl⟩
        rintro e' (h3 | ⟨-, h3, h4⟩)
        · exact absurd (hcached.symm.trans h3) (Option.some_ne_none e').symm
        · rw [← hst.unique h1 h3] at h4
          exact hindex h4
    · refine Or.inr ⟨?_, error, by rw [Prog.bind_error h2]; rfl⟩
      rintro e' (h3 | ⟨-, h3, -⟩)
      · exact absurd (hcached.symm.trans h3) (Option.some_ne_none e').symm
      · exact h1 e' h3

end Followed

/-! ### Looking for a branch -/

/-- Whether a subtree contains an index can be said of a node with an index and a height. -/
theorem contains_cases (i : Index) (j : ℕ) (k : Index) :
    ((1 ≤ i ∧ j ≤ 64) ∧ ∃ b, contains i j k = .ok b) ∨
      (¬(1 ≤ i ∧ j ≤ 64) ∧ ∃ p, contains i j k = Outcome.panic p) := by
  by_cases hj : j ≤ 64
  · by_cases hi : 1 ≤ i
    · refine Or.inl ⟨⟨hi, hj⟩, ?_⟩
      have hmod : ∃ m, m ≤ i - 1 ∧ iMod2e (i - 1) j = .ok m := by
        rw [iMod2e, debugAssert_of hj, ok_bind]
        by_cases h64 : 64 ≤ j
        · rw [if_pos h64]
          exact ⟨i - 1, Nat.le_refl _, rfl⟩
        · have hpow : 1 ≤ 2 ^ j := Nat.one_le_two_pow
          have hlt : 2 ^ j < 2 ^ 64 := Nat.pow_lt_pow_right Nat.one_lt_two (Nat.lt_of_not_le h64)
          rw [if_neg h64, shlBits_of_lt (Nat.lt_of_not_le h64) (by rwa [Nat.one_mul]), ok_bind,
            Nat.one_mul, subBits_of_le hpow, ok_bind]
          exact ⟨_, Nat.and_le_left, rfl⟩
      obtain ⟨m, hm, heq⟩ := hmod
      rw [contains, debugAssert_of hj, ok_bind, range, debugAssert_of hj, ok_bind,
        subBits_of_le hi, ok_bind, heq, ok_bind, subBits_of_le (hm.trans (Nat.sub_le i 1)), ok_bind]
      exact ⟨_, rfl⟩
    · refine Or.inr ⟨fun h => hi h.1, .overflow, ?_⟩
      rw [contains, debugAssert_of hj, ok_bind, range, debugAssert_of hj, ok_bind, subBits,
        if_neg hi]
      rfl
  · refine Or.inr ⟨fun h => hj h.2, .assertion, ?_⟩
    rw [contains, debugAssert, if_neg hj]
    rfl

theorem findLeft_cases (i : Index) : ∀ inodes : List (INode w),
    (∃ found, findLeft i inodes = .ok found) ∨ ∃ p, findLeft i inodes = Outcome.panic p
  | [] => Or.inl ⟨none, rfl⟩
  | inode :: rest => by
    rw [findLeft]
    rcases contains_cases inode.left.i inode.left.j i with ⟨-, b, hb⟩ | ⟨-, p, hp⟩
    · rw [hb, ok_bind]
      cases b with
      | true => exact Or.inl ⟨some inode, rfl⟩
      | false => exact findLeft_cases i rest
    · rw [hp]
      exact Or.inr ⟨p, rfl⟩

/-! ### Searching -/

section Search

variable {S : Storage (Entry w)} {α : Type}

/-- The search of `StratifiedHashTree.Slate.loadEntry` and of
`StratifiedHashTree.Query.readEntry`, which differ in what they make of its end. -/
def searchFrom (S : Storage (Entry w)) (cache : Cache w) (i : Index)
    (found lost : Entry w → Run S.State α) : ℕ → Entry w → Run S.State α
  | 0, _ => fun s => (.error .outOfFuel, s)
  | fuel + 1, entry =>
    if entry.index = i then
      found entry
    else do
      match ← findLeft i entry.inodes with
      | some inode => do
        let next ← fetchLeft S cache inode.left
        searchFrom S cache i found lost fuel next
      | none => lost entry

section Steps

variable {cache : Cache w} {i : Index} {found lost : Entry w → Run S.State α} {e : Entry w}
  (fuel : ℕ)

theorem searchFrom_found (hi : e.index = i) :
    searchFrom S cache i found lost (fuel + 1) e = found e := by
  rw [searchFrom, if_pos hi]

theorem searchFrom_lost (hi : e.index ≠ i) (hleft : findLeft i e.inodes = .ok none) :
    searchFrom S cache i found lost (fuel + 1) e = lost e := by
  rw [searchFrom, if_neg hi, hleft]
  rfl

theorem searchFrom_left (hi : e.index ≠ i) {inode : INode w}
    (hleft : findLeft i e.inodes = .ok (some inode)) :
    searchFrom S cache i found lost (fuel + 1) e =
      fetchLeft S cache inode.left >>= searchFrom S cache i found lost fuel := by
  rw [searchFrom, if_neg hi, hleft]
  rfl

theorem searchFrom_panic (hi : e.index ≠ i) {p : Panic}
    (hleft : findLeft i e.inodes = Outcome.panic p) :
    searchFrom S cache i found lost (fuel + 1) e = Prog.lift (Outcome.panic p) := by
  rw [searchFrom, if_neg hi, hleft]
  rfl

end Steps

theorem Slate.loadEntryFrom_eq_search (cache : Cache w) (i : Index) : ∀ (fuel : ℕ) (e : Entry w),
    Slate.loadEntryFrom S cache i fuel e = searchFrom S cache i pure (fun entry =>
      Prog.err (.internalStateInconsistency
        s!"The entry doesn't have a path to {i}: {entry.debug}")) fuel e
  | 0, _ => rfl
  | fuel + 1, e => by
    rw [Slate.loadEntryFrom, searchFrom]
    refine if_congr Iff.rfl rfl (bind_congr fun found => ?_)
    cases found with
    | none => rfl
    | some inode => exact bind_congr fun next => loadEntryFrom_eq_search cache i fuel next

theorem Query.readEntryFrom_eq_search (q : Query S) (i : Index) : ∀ (fuel : ℕ) (e : Entry w),
    q.readEntryFrom i fuel e =
      searchFrom S q.cache i (fun entry => pure (some entry)) (fun _ => pure none) fuel e
  | 0, _ => rfl
  | fuel + 1, e => by
    rw [Query.readEntryFrom, searchFrom]
    refine if_congr Iff.rfl rfl (bind_congr fun found => ?_)
    cases found with
    | none => rfl
    | some inode => exact bind_congr fun next => readEntryFrom_eq_search q i fuel next

end Search

section Ending

variable {S : Storage (Entry w)} {st : S.State} {stored : Position → Entry w → Prop}
  {cache : Cache w} {i : Index} {α : Type} {found lost : Entry w → Run S.State α}
  {Good : Result α → Prop} {e : Entry w}

/-- **A search comes to an end** where the relation does. -/
theorem search_of_acc (hst : StoredIn S st stored)
    (hfound : ∀ e, e.index = i → Good (found e st).1) (hlost : ∀ e, Good (lost e st).1)
    (herr : ∀ error, Good (err error)) (h : Acc (flip (LeadsTo stored cache i)) e) :
    (∀ e', ReflTransGen (LeadsTo stored cache i) e e' → e'.index ≠ i →
      ∃ inode, findLeft i e'.inodes = .ok inode) →
    ∃ fuel, Good (searchFrom S cache i found lost fuel e st).1 := by
  induction h with
  | intro e _ ih =>
    intro hbranches
    by_cases hi : e.index = i
    · refine ⟨1, ?_⟩
      rw [searchFrom_found 0 hi]
      exact hfound e hi
    · obtain ⟨inode | inode, hleft⟩ := hbranches e .refl hi
      · refine ⟨1, ?_⟩
        rw [searchFrom_lost 0 hi hleft]
        exact hlost e
      · rcases fetchLeft_cases hst cache inode.left with ⟨e', h1, h2⟩ | ⟨-, error, h2⟩
        · have hleads : LeadsTo stored cache i e e' := ⟨hi, inode, hleft, h1⟩
          obtain ⟨fuel, h3⟩ := ih e' hleads fun e'' h => hbranches e'' (.head hleads h)
          refine ⟨fuel + 1, ?_⟩
          rw [searchFrom_left fuel hi hleft, Prog.bind_ok h2]
          exact h3
        · refine ⟨1, ?_⟩
          rw [searchFrom_left 0 hi hleft, Prog.bind_error h2]
          exact herr error

/-- **Where a search comes to an end**, the relation does. -/
theorem acc_of_search (hst : StoredIn S st stored) (hfuel : ¬Good (.error .outOfFuel))
    (hpanic : ∀ p, ¬Good (Outcome.panic p)) : ∀ (fuel : ℕ) (e : Entry w),
    Good (searchFrom S cache i found lost fuel e st).1 →
    Acc (flip (LeadsTo stored cache i)) e ∧
      ∀ e', ReflTransGen (LeadsTo stored cache i) e e' → e'.index ≠ i →
        ∃ inode, findLeft i e'.inodes = .ok inode
  | 0, _, h => absurd h hfuel
  | fuel + 1, e, h => by
    -- an entry that leads nowhere
    have hend : (∀ e', ¬LeadsTo stored cache i e e') →
        (e.index ≠ i → ∃ inode, findLeft i e.inodes = .ok inode) →
        Acc (flip (LeadsTo stored cache i)) e ∧
          ∀ e', ReflTransGen (LeadsTo stored cache i) e e' → e'.index ≠ i →
            ∃ inode, findLeft i e'.inodes = .ok inode := by
      intro hnot hbranches
      refine ⟨Acc.intro _ fun e' h => absurd h (hnot e'), fun e' h => ?_⟩
      rcases ReflTransGen.cases_head h with rfl | ⟨e'', h1, -⟩
      · exact hbranches
      · exact absurd h1 (hnot e'')
    by_cases hi : e.index = i
    · exact hend (fun e' h => h.1 hi) fun hne => absurd hi hne
    · rcases findLeft_cases i e.inodes with ⟨inode | inode, hleft⟩ | ⟨p, hleft⟩
      · refine hend ?_ fun _ => ⟨_, hleft⟩
        rintro e' ⟨-, inode, h1, -⟩
        rw [hleft, Except.ok.injEq] at h1
        exact absurd h1 (Option.some_ne_none inode).symm
      · rcases fetchLeft_cases hst cache inode.left with ⟨e', h1, h2⟩ | ⟨h1, error, h2⟩
        · have hleads : LeadsTo stored cache i e e' := ⟨hi, inode, hleft, h1⟩
          rw [searchFrom_left fuel hi hleft, Prog.bind_ok h2] at h
          obtain ⟨hacc, hbranches⟩ := acc_of_search hst hfuel hpanic fuel e' h
          refine ⟨Acc.intro _ fun e'' h3 => ?_, fun e'' h3 hne => ?_⟩
          · rw [hleads.unique hst h3] at hacc
            exact hacc
          · rcases ReflTransGen.cases_head h3 with rfl | ⟨e₁, h4, h5⟩
            · exact ⟨_, hleft⟩
            · rw [← hleads.unique hst h4] at h5
              exact hbranches e'' h5 hne
        · refine hend ?_ fun _ => ⟨_, hleft⟩
          rintro e' ⟨-, inode', h3, h4⟩
          rw [hleft, Except.ok.injEq, Option.some.injEq] at h3
          rw [← h3] at h4
          exact h1 e' h4
      · rw [searchFrom_panic fuel hi hleft] at h
        exact absurd h (hpanic p)

/-- **A search ends exactly where it has a way out.** -/
theorem search_ends_iff (hst : StoredIn S st stored)
    (hfound : ∀ e, e.index = i → Good (found e st).1) (hlost : ∀ e, Good (lost e st).1)
    (herr : ∀ error, Good (err error)) (hfuel : ¬Good (.error .outOfFuel))
    (hpanic : ∀ p, ¬Good (Outcome.panic p)) :
    (∃ fuel, Good (searchFrom S cache i found lost fuel e st).1) ↔
      LeadsOut stored cache i e := by
  constructor
  · rintro ⟨fuel, h⟩
    obtain ⟨h1, h2⟩ := acc_of_search hst hfuel hpanic fuel e h
    exact ⟨(acc_iff_acyclic (finite_reached hst)).mp h1, h2⟩
  · intro h
    exact search_of_acc hst hfound hlost herr
      ((acc_iff_acyclic (finite_reached hst)).mpr h.acyclic) h.branches

end Ending

end StratifiedHashTree
