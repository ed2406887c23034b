import StratifiedHashTree.Distance
import StratifiedHashTree.Simulation

/-!
# Truncations that are interrupted

To truncate a slate takes several calls of its storage: a reader is opened, entries are read on
it, the storage is cut, its last entry is read again, and those that it links to. Here only so
many of them succeed (`StratifiedHashTree.fragile`). How many a lookup needs is known from the
distance of the entry: one for every link on the way that leads out of the cache
(`StratifiedHashTree.readEntry_spends`).

So it is known, too, whether the storage has been cut when a truncation fails. As long as it has
not, nothing at all has changed (`StratifiedHashTree.SlateOf.eq_of_truncate`). But a slate whose
storage has been cut still has the position and the cache of before
(`StratifiedHashTree.SlateOf.cut_of_truncate`): these are replaced when everything else has
succeeded.
-/

namespace StratifiedHashTree

open Outcome Formula FormulaTree
open Prog (attempt attempt_succ Preserves Spends)

variable {w : ℕ}

/-! ### Storages that fail -/

/-- The error of a call that fails. -/
def interrupted : Error := .io .other "the device does not answer"

/-- **A storage of which only so many calls succeed.** A call that fails does nothing to the
storage, except that opening it may have moved something. -/
def fragile (S : Storage (Entry w)) (spoil : S.State → S.State) : Storage (Entry w) where
  State := S.State × ℕ
  first := attempt interrupted spoil S.first
  last := attempt interrupted spoil S.last
  put position entry := attempt interrupted id (S.put position entry)
  truncate position := attempt interrupted id (S.truncate position)
  reader := attempt interrupted id S.reader
  read position := attempt interrupted id (S.read position)
  scan position count _ callback := fun
    | (a, (st, 0)) => (.error (.err interrupted), (a, (st, 0)))
    | (a, (st, calls + 1)) =>
      let result := S.scan position count callback (a, st)
      (result.1, (result.2.1, (result.2.2, calls)))

variable {S : Storage (Entry w)} {spoil : S.State → S.State}

/-- A slate, when only so many calls of its storage will succeed. -/
def endanger (spoil : S.State → S.State) (calls : ℕ) (s : Slate S) : Slate (fragile S spoil) where
  position := s.position
  storage := ((s.storage, calls) : S.State × ℕ)
  cache := s.cache

/-- A slate, when its storage works again. -/
def restore (s : Slate (fragile S spoil)) : Slate S where
  position := s.position
  storage := (s.storage : S.State × ℕ).1
  cache := s.cache

/-- **A truncation that fails** after so many calls that succeed. -/
def FailedTruncate (spoil : S.State → S.State) (fuel i calls : ℕ) (s s1 : Slate S) : Prop :=
  ∃ (e : Error) (s' : Slate (fragile S spoil)),
    Slate.truncate fuel i (endanger spoil calls s) = (.error (.err e), s') ∧ s1 = restore s'

theorem restore_endanger (calls : ℕ) (s : Slate S) : restore (endanger spoil calls s) = s := rfl

/-! ### What a lookup spends -/

section Spending

variable {H : HashFn w} {v : ℕ → Bytes} {pos : ℕ → Position} {L n : ℕ} {c : Cache w} {st : S.State}

variable (spoil) in
/-- What follows a link needs a call when the link leads out of the cache. -/
theorem fetchLeft_spends (hc : Represents H v pos L n c) (hr : Readable S st H v pos n) {t : Tree}
    (h1 : 1 ≤ t.hi) (h2 : t.hi ≤ n) :
    Spends interrupted st (if Tree.leftSteps t.hi (Tree.upTo n) ≤ L then 0 else 1)
      (entryAt H v pos t.hi) (fetchLeft (fragile S spoil) c (nodeAddress pos t)) := by
  have hn : 1 ≤ n := h1.trans h2
  by_cases hnear : Tree.leftSteps t.hi (Tree.upTo n) ≤ L
  · have hcached : c.entry (nodeAddress pos t).i = some (entryAt H v pos t.hi) :=
      hc.entry_near h1 h2 hnear
    rw [if_pos hnear, fetchLeft, hcached]
    exact Spends.pure _
  · have hcached : c.entry (nodeAddress pos t).i = none := hc.entry_far hn hnear
    have hread : Spends interrupted st 1 (entryAt H v pos t.hi)
        ((fragile S spoil).read (nodeAddress pos t).position) := Spends.attempt (hr.read _ h1 h2)
    rw [if_neg hnear, fetchLeft, hcached]
    simp only
    rw [readEntryWithIndexCheck]
    refine hread.bind (m := 0) ?_
    rw [if_neg (show ¬(entryAt H v pos t.hi).index ≠ (nodeAddress pos t).i from not_not.mpr rfl)]
    exact Spends.pure _

/-- **The search** from a node that is so many links away. -/
theorem readEntryFrom_spends {q : Query (fragile S spoil)} (hc : Represents H v pos L n q.cache)
    (hb : n < 2 ^ 64) (hr : Readable S st H v pos n) {i : ℕ} :
    ∀ fuel {t : Tree} {m : ℕ}, t.LeftPerfect → t.hi ≤ n → t.height < fuel → t.lo ≤ i → i ≤ t.hi →
    LeadsInto n m t → Spends interrupted st ((m + Tree.leftSteps i t - L) - (m - L))
      (some (entryAt H v pos i)) (q.readEntryFrom i fuel (entryAt H v pos t.hi))
  | 0, _, _, _, _, hf, _, _, _ => absurd hf (Nat.not_lt_zero _)
  | fuel + 1, t, m, ht, hn, hf, hlo, hhi, hm => by
    rw [Query.readEntryFrom, entryAt_index]
    by_cases hi : t.hi = i
    · have h0 : (m + Tree.leftSteps i t - L) - (m - L) = 0 := by
        rw [← hi, ht.leftSteps_hi]
        omega
      rw [if_pos hi, hi, h0]
      exact Spends.pure _
    · obtain ⟨p, hp, h1, h2, h3, h4, h5⟩ := exists_step ht hlo (by omega)
      rw [if_neg hi]
      simp only [Prog.liftM_eq, findLeft_some ht (hn.trans_lt hb) hp h2 h3, Prog.lift_ok_bind]
      rw [spineINode_left]
      -- the link leads one step further away
      have hsteps : LeadsInto n (m + 1) p.1 := hm.spine ht hp
      have hfetch := fetchLeft_spends spoil hc hr h1.hi_pos (h4.le.trans hn)
      have hrest := readEntryFrom_spends hc hb hr fuel h1 (h4.le.trans hn) (by omega) h2 h3 hsteps
      have hsum : (m + Tree.leftSteps i t - L) - (m - L) =
          (if Tree.leftSteps p.1.hi (Tree.upTo n) ≤ L then 0 else 1) +
            ((m + 1 + Tree.leftSteps i p.1 - L) - (m + 1 - L)) := by
        rw [hsteps.leftSteps_hi h1, ht.leftSteps_of_mem_spine hp h2 h3]
        split <;> omega
      rw [hsum]
      exact hfetch.bind hrest

/-- The calls that a lookup needs. -/
def callsOf (L n i : ℕ) : ℕ := Tree.leftSteps i (Tree.upTo n) - L

/-- **A lookup** needs a call for every step that leads further than the cache. -/
theorem readEntry_spends {q : Query (fragile S spoil)} (hc : Represents H v pos L n q.cache)
    (hb : n < 2 ^ 64) (hr : Readable S st H v pos n) {fuel : ℕ} (hf : INDEX_SIZE < fuel) (i : ℕ) :
    Spends interrupted st (if 1 ≤ i ∧ i ≤ n then callsOf L n i else 0)
      (if 1 ≤ i ∧ i ≤ n then some (entryAt H v pos i) else none) (q.readEntry fuel i) := by
  rw [Query.readEntry, Query.revision, hc.revision_eq]
  cases Nat.eq_zero_or_pos n with
  | inl h0 =>
    subst h0
    have hc' : q.cache = Cache.empty L := hc
    rw [hc', if_neg (by omega), if_neg (by omega)]
    exact Spends.pure _
  | inr hn =>
    have hu := Tree.leftPerfect_upTo hn
    have hhi := Tree.hi_upTo hn
    have hlo := Tree.lo_upTo hn
    rw [(hc.loaded hn).entry_self]
    by_cases hi : 1 ≤ i ∧ i ≤ n
    · have h1 := readEntryFrom_spends hc hb hr fuel (m := 0) hu hhi.le (height_upTo_lt hn hb hf)
        (i := i) (by rw [hlo]; exact hi.1) (by rw [hhi]; exact hi.2) (leadsInto_upTo n)
      rw [hhi, Nat.zero_add, Nat.zero_sub, Nat.sub_zero] at h1
      rw [if_pos hi, if_pos hi]
      exact h1
    · obtain ⟨fuel, rfl⟩ : ∃ f, fuel = f + 1 := ⟨fuel - 1, by omega⟩
      rw [if_neg hi, if_neg hi]
      simp only
      rw [Query.readEntryFrom, entryAt_index, if_neg (show ¬n = i by omega)]
      simp only [Prog.liftM_eq, findLeft_none hn hb (show i = 0 ∨ n < i by omega),
        Prog.lift_ok_bind]
      exact Spends.pure _

end Spending

/-! ### Truncations that fail -/

variable (spoil) in
/-- What a program on the storage of a slate spends. -/
theorem onStorage_spends {α : Type} {x : Run (S.State × ℕ) α} {s : Slate S} {k : ℕ} {a : α}
    (h : Spends interrupted s.storage k a x) (calls : ℕ) :
    Slate.onStorage (S := fragile S spoil) x (endanger spoil calls s) =
      if k ≤ calls then (.ok a, endanger spoil (calls - k) s)
      else (.error (.err interrupted), endanger spoil 0 s) := by
  by_cases hk : k ≤ calls
  · rw [if_pos hk]
    exact SlateOf.onStorage_run (s := endanger spoil calls s) ((h calls).trans (if_pos hk))
  · rw [if_neg hk]
    exact SlateOf.onStorage_run (s := endanger spoil calls s) ((h calls).trans (if_neg hk))

section Loading

variable {st st1 : S.State} {e : Entry w}

section Kept

variable (spoil) (hread : ∀ p, (S.read p st).2 = st)

include hread

theorem readEntry_preserves (position : Position) (expected : Index) :
    Preserves (fun t : S.State × ℕ => t.1 = st)
      (readEntryWithIndexCheck (fragile S spoil) position expected) := by
  refine Preserves.bind (Preserves.attempt (hread position)) fun e => ?_
  by_cases he : e.index ≠ expected
  · rw [if_pos he]
    exact Preserves.lift _
  · rw [if_neg he]
    exact Preserves.pure _

theorem loadWithLevel_preserves : ∀ (level : ℕ) (addrs : List Address) (m : IndexMap (Entry w)),
    Preserves (fun t : S.State × ℕ => t.1 = st)
      (Cache.loadWithLevel (fragile S spoil) level addrs m)
  | level + 2, addrs, m => by
    rw [Cache.loadWithLevel]
    exact Preserves.foldlM (fun m addr => (readEntry_preserves spoil hread _ _).bind fun e =>
      loadWithLevel_preserves (level + 1) _ _) addrs m
  | 1, addrs, m | 0, addrs, m =>
    Preserves.foldlM (fun m addr => (readEntry_preserves spoil hread _ _).bind fun e =>
      Preserves.pure _) addrs m

/-- Loading a cache only reads, whether it succeeds or not. -/
theorem load_preserves (hreader : (S.reader st).2 = st) (level : ℕ) (e : Entry w) :
    Preserves (fun t : S.State × ℕ => t.1 = st) (Cache.load (fragile S spoil) level e) := by
  have hopen : Preserves (fun t : S.State × ℕ => t.1 = st) (fragile S spoil).reader :=
    Preserves.attempt hreader
  rw [Cache.load]
  refine Preserves.bind (Preserves.lift _) fun model => Preserves.bind (Preserves.lift _)
    fun addrs => ?_
  refine Preserves.bind ?_ fun cache => Preserves.bind ?_ fun entries =>
    Preserves.bind (Preserves.lift _) fun roots => Preserves.pure _
  · rw [Cache.loadCached]
    by_cases h : 0 < level
    · rw [if_pos h]
      exact hopen.bind fun _ => loadWithLevel_preserves spoil hread _ _ _
    · rw [if_neg h]
      exact Preserves.pure _
  · rw [Cache.loadNeighbours]
    by_cases h : level = 0
    · rw [if_pos h]
      exact hopen.bind fun _ => loadWithLevel_preserves spoil hread _ _ _
    · rw [if_neg h]
      exact Preserves.pure _

end Kept

/-- When the metadata cannot be loaded, the storage was opened or not. -/
theorem loadMetadata_fails {latest : Option (Entry w) × Position} {f : Failure Error}
    {calls : ℕ} {t : S.State × ℕ} {level : ℕ} (hlast : S.last st = (.ok latest, st1))
    (hreader : (S.reader st1).2 = st1) (hread : ∀ p, (S.read p st1).2 = st1)
    (h : Slate.loadMetadata (fragile S spoil) level ((st, calls) : S.State × ℕ) = (.error f, t)) :
    t.1 = spoil st ∨ t.1 = st1 := by
  cases calls with
  | zero =>
    have hfails : (fragile S spoil).last ((st, 0) : S.State × ℕ) =
        (.error (.err interrupted), ((spoil st, 0) : S.State × ℕ)) := rfl
    have hrun : Slate.loadMetadata (fragile S spoil) level ((st, 0) : S.State × ℕ) =
        (.error (.err interrupted), ((spoil st, 0) : S.State × ℕ)) := Prog.bind_error hfails
    exact Or.inl (congrArg Prod.fst (Prod.mk.inj (h.symm.trans hrun)).2)
  | succ calls =>
    have hopened : (fragile S spoil).last ((st, calls + 1) : S.State × ℕ) =
        (.ok latest, ((st1, calls) : S.State × ℕ)) := attempt_succ interrupted spoil hlast calls
    obtain ⟨latest, position⟩ := latest
    cases latest with
    | none =>
      have hrun : Slate.loadMetadata (fragile S spoil) level ((st, calls + 1) : S.State × ℕ) =
          (.ok (Cache.empty level, position), ((st1, calls) : S.State × ℕ)) := Prog.bind_ok hopened
      exact absurd (Prod.mk.inj (h.symm.trans hrun)).1 (by simp)
    | some e =>
      have hrun : Slate.loadMetadata (fragile S spoil) level ((st, calls + 1) : S.State × ℕ) =
          (Cache.load (fragile S spoil) level e >>= fun cache => pure (cache, position))
            ((st1, calls) : S.State × ℕ) := Prog.bind_ok hopened
      have hload := (load_preserves spoil hread hreader level e).bind
        (fun cache => Preserves.pure (cache, position)) (st1, calls) rfl
      have hstate := congrArg Prod.snd (h.symm.trans hrun)
      exact Or.inr ((congrArg Prod.fst hstate).trans hload)

end Loading

section Truncating

variable {S : LogStorage (Entry w) Entry.Placed} {spoil : S.State → S.State} {H : HashFn w}
  {L n fuel i calls : ℕ} {v : ℕ → Bytes} {s s1 : Slate S.toStorage}

/-- The end of a truncation, when the entry has been found. -/
def cutFrom (S : Storage (Entry w)) (level : ℕ) : Option (Entry w) → Run (Slate S) Bool
  | some entry => do
    let _ ← Slate.onStorage (S.truncate entry.enode.metaInfo.address.position)
    let (cache, position) ← Slate.onStorage (Slate.loadMetadata S level)
    (debugAssert (entry.enode.metaInfo.address.position = position) : Result Unit)
    Prog.modify fun s => { s with position := position, cache := cache }
    return true
  | none => return false

/-- **A truncation spends** a call for the reader, and those of the lookup; then it cuts. -/
theorem SlateOf.truncate_spends (h : SlateOf S H L v n s) (hf : INDEX_SIZE < fuel) {k : ℕ}
    (hk : k = 1 + if 1 ≤ i ∧ i ≤ n then callsOf L n i else 0) :
    Slate.truncate fuel i (endanger spoil calls s) =
      if k ≤ calls then cutFrom (fragile S.toStorage spoil) L
        (if 1 ≤ i ∧ i ≤ n then some (entryOf S H v i) else none) (endanger spoil (calls - k) s)
      else (.error (.err interrupted), endanger spoil 0 s) := by
  have hquery : Spends interrupted s.storage 1 { cache := s.cache }
      ((endanger spoil calls s).snapshot.query) :=
    (Spends.attempt h.readable.reader).bind (m := 0) (Spends.pure _)
  have hread := readEntry_spends (q := ({ cache := s.cache } : Query (fragile S.toStorage spoil)))
    h.represents h.lt h.readable hf i
  have hlevel : (endanger spoil calls s).cache.level = L := h.represents.level_eq
  rw [Slate.truncate, Prog.bind_ok (Prog.get_run _), hlevel]
  have hreader := onStorage_spends spoil hquery calls
  -- the calls are spent in the order of the source: the reader, then the lookup
  by_cases h1 : 1 ≤ calls
  · rw [if_pos h1] at hreader
    have hlookup := onStorage_spends spoil hread (calls - 1)
    rw [Prog.bind_ok hreader]
    by_cases h2 : (if 1 ≤ i ∧ i ≤ n then callsOf L n i else 0) ≤ calls - 1
    · rw [if_pos h2] at hlookup
      rw [if_pos (show k ≤ calls by omega), Prog.bind_ok hlookup, hk, Nat.sub_sub]
      by_cases hi : 1 ≤ i ∧ i ≤ n
      · rw [if_pos hi]
        rfl
      · rw [if_neg hi]
        rfl
    · rw [if_neg h2] at hlookup
      rw [if_neg (show ¬k ≤ calls by omega), Prog.bind_error hlookup]
  · rw [if_neg h1] at hreader
    rw [if_neg (show ¬k ≤ calls by omega), Prog.bind_error hreader]

/-- **A truncation that fails before the storage is cut** changes nothing. -/
theorem SlateOf.eq_of_truncate (h : SlateOf S H L v n s) (hf : INDEX_SIZE < fuel)
    (hfail : FailedTruncate spoil fuel i calls s s1)
    (hcalls : 1 ≤ i → i ≤ n → calls ≤ 1 + callsOf L n i) : s1 = s := by
  obtain ⟨e, s', hrun, rfl⟩ := hfail
  rw [h.truncate_spends hf rfl] at hrun
  by_cases hi : 1 ≤ i ∧ i ≤ n
  · have hle := hcalls hi.1 hi.2
    rw [if_pos hi, if_pos hi] at hrun
    by_cases hk : 1 + callsOf L n i ≤ calls
    · rw [if_pos hk, show calls - (1 + callsOf L n i) = 0 by omega] at hrun
      have hcut : Slate.onStorage ((fragile S.toStorage spoil).truncate
          (entryOf S H v i).enode.metaInfo.address.position) (endanger spoil 0 s) =
            (.error (.err interrupted), endanger spoil 0 s) := rfl
      rw [cutFrom, Prog.bind_error hcut] at hrun
      rw [← (Prod.mk.inj hrun).2, restore_endanger]
    · rw [if_neg hk] at hrun
      rw [← (Prod.mk.inj hrun).2, restore_endanger]
  · rw [if_neg hi, if_neg hi] at hrun
    by_cases hk : 1 + 0 ≤ calls
    · rw [if_pos hk] at hrun
      exact absurd (Prod.mk.inj hrun).1 (by simp)
    · rw [if_neg hk] at hrun
      rw [← (Prod.mk.inj hrun).2, restore_endanger]

/-- **A truncation that fails after the storage has been cut** leaves the position and the cache
of before, with the storage of the entries that are left. -/
theorem SlateOf.cut_of_truncate (h : SlateOf S H L v n s) (hf : INDEX_SIZE < fuel)
    (hfail : FailedTruncate spoil fuel i calls s s1) (h1 : 1 ≤ i) (h2 : i ≤ n)
    (hcalls : 1 + callsOf L n i < calls)
    (hread : ∀ p, (S.read p (S.render (history S H v (i - 1)))).2 =
      S.render (history S H v (i - 1))) :
    ∃ st, S.truncate (positionOf S H v i) s.storage = (.ok true, st) ∧
      (s1 = { s with storage := spoil st } ∨
        s1 = { s with storage := S.render (history S H v (i - 1)) }) := by
  have hi : i - 1 < (history S H v n).length := by
    rw [length_history]
    omega
  obtain ⟨st, htrunc, hlast⟩ := S.truncate_render h.fits.room h.fits.laid hi
  rw [take_history S H v (by omega)] at htrunc hlast
  rw [← h.storage_eq] at htrunc
  refine ⟨st, htrunc, ?_⟩
  obtain ⟨e, s', hrun, rfl⟩ := hfail
  obtain ⟨m, hm⟩ : ∃ m, calls - (1 + callsOf L n i) = m + 1 :=
    Nat.exists_eq_succ_of_ne_zero (by omega)
  have hspent : 1 + callsOf L n i = 1 + if 1 ≤ i ∧ i ≤ n then callsOf L n i else 0 := by
    rw [if_pos ⟨h1, h2⟩]
  rw [h.truncate_spends hf hspent, if_pos hcalls.le, hm, if_pos ⟨h1, h2⟩, cutFrom] at hrun
  have hcut : Slate.onStorage ((fragile S.toStorage spoil).truncate
      (entryOf S H v i).enode.metaInfo.address.position) (endanger spoil (m + 1) s) =
        (.ok true, endanger spoil m { s with storage := st }) :=
    SlateOf.onStorage_run (s := endanger spoil (m + 1) s) (attempt_succ interrupted id htrunc m)
  rw [Prog.bind_ok hcut] at hrun
  -- the cut has succeeded, so it is the metadata that cannot be loaded
  rcases hload : Slate.loadMetadata (fragile S.toStorage spoil) L ((st, m) : S.State × ℕ) with
    ⟨f | ⟨cache, position⟩, t⟩
  · have hmeta := SlateOf.onStorage_run (s := endanger spoil m { s with storage := st }) hload
    rw [Prog.bind_error hmeta] at hrun
    rw [← (Prod.mk.inj hrun).2]
    have hreader : (S.reader (S.render (history S H v (i - 1)))).2 =
        S.render (history S H v (i - 1)) := congrArg Prod.snd S.reader_render
    refine (loadMetadata_fails hlast hreader hread hload).imp (fun ht => ?_) fun ht => ?_
    · rw [← ht]
      rfl
    · rw [← ht]
      rfl
  · have hmeta := SlateOf.onStorage_run (s := endanger spoil m { s with storage := st }) hload
    rw [Prog.bind_ok hmeta] at hrun
    by_cases hposition : (entryOf S H v i).enode.metaInfo.address.position = position
    · simp only [Prog.liftM_eq, debugAssert_of hposition, Prog.lift_ok_bind] at hrun
      rw [Prog.bind_ok (Prog.modify_run _ _)] at hrun
      exact absurd (Prod.mk.inj hrun).1 (by simp)
    · simp only [Prog.liftM_eq, debugAssert, if_neg hposition] at hrun
      -- an assertion that fails is a panic, and not an error
      cases (Prod.mk.inj hrun).1

end Truncating

end StratifiedHashTree
