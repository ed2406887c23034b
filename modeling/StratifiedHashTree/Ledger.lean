import StratifiedHashTree.Lockstep

/-!
# Sessions on a backend

A *session* is what happens to one slate: values are appended and truncated, queries are opened
at old generations, and the queries are asked, at any time afterwards. A query that was opened
lives on by itself; nothing keeps the slate from being truncated under it.

Up to positions, a session is a *ledger* (`StratifiedHashTree.Ledger`): a list of payloads that
is extended and cut, where a query is the list of payloads that it was opened on. That is what a
slate is for, and no backend can be found in it. A query is *current* while the slate still has,
or has again, the payloads of the query; then all that can be observed is what the ledger says,
whatever the backend (`StratifiedHashTree.Session.follows_serve`). It is *outdated* when that is
not so. Then the slate may have other entries where the query looks for its own, or none. What
the query makes of it is not in the ledger; but two backends make the same of it, or errors of
their own, as long as everything has stayed in its place (`StratifiedHashTree.backends_agree`).
Only a query whose entries have been *displaced* by longer or shorter ones tells the backends
apart: positions of the one fit by their number, those of the other do not
(`StratifiedHashTree.not_backends_agree`).
-/

namespace StratifiedHashTree

open Formula
open Outcome hiding err panic

variable {w : ℕ}

/-! ### What can be done, and what can be observed -/

/-- **An operation** on a slate, or on one of the queries that were opened on it. -/
inductive Operation (w : ℕ) : Type 1 where
  | append (value : Bytes)
  | truncate (i : Index)
  | snapshotAt (revision : Index)
  | ask (k : ℕ) (c : Call w)

/-- What an operation returns, without positions. Opening a query gives its revision and its
root. -/
inductive Report (w : ℕ) : Type 1 where
  | appended (result : Result (MetaInfo w))
  | truncated (result : Result Bool)
  | opened (result : Result (Index × MetaInfo w))
  | answered (answer : Answer w)
  | absent

/-- Reports that are answers, the same or errors of either side. -/
inductive Report.Like : Report w → Report w → Prop
  | answered {a b : Answer w} : a.Like b → Like (.answered a) (.answered b)

/-- **What can be observed** of an operation: what it returns, and the generation and the root of
the slate afterwards. -/
structure Observation (w : ℕ) : Type 1 where
  report : Report w
  n : Index
  root : Option (MetaInfo w)

/-- Two observations of which the slates are the same, and the reports as much as is said. -/
structure Observation.Alike (P : Report w → Report w → Prop) (a b : Observation w) : Prop where
  n : a.n = b.n
  root : a.root = b.root
  report : P a.report b.report

/-- **How a query stands to its slate.** -/
inductive Standing where
  /-- The slate has the payloads of the query. -/
  | current
  /-- It has others, but none that takes another room than the one before it. -/
  | outdated
  /-- There is one of another length. -/
  | displaced
  deriving DecidableEq, Repr

/-- What two backends may be held to. -/
def Standing.Agree : Standing → Report w → Report w → Prop
  | .current => Eq
  | .outdated => Report.Like
  | .displaced => fun _ _ => True

/-! ### Sessions -/

/-- **A session**: a slate, and the queries that were opened on it. -/
structure Session (B : Backend w) where
  slate : SlateOn B
  queries : List (Query B.log.toStorage)

namespace Session

variable {B : Backend w}

/-- A session, after an operation. -/
def observe (report : Report w) (self : Session B) : Observation w × Session B :=
  (⟨report, self.slate.n, self.slate.root.map MetaInfo.erased⟩, self)

/-- Opens a query at an old generation; its revision and its root are looked at, too. -/
def openAt (fuel : ℕ) (revision : Index) :
    Run (SlateOn B) (Index × MetaInfo w × Query B.log.toStorage) := do
  let snapshot ← Slate.snapshotAt fuel revision
  let root ← (snapshot.root : Result (MetaInfo w))
  let query ← Slate.onStorage snapshot.query
  return (snapshot.revision, root, query)

/-- **Carries out an operation.** -/
def serve (H : HashFn w) (fuel : ℕ) : Operation w → Session B → Observation w × Session B
  | .append value, self =>
    let result := Slate.append H value self.slate
    observe (.appended (result.1.map MetaInfo.erased)) { self with slate := result.2 }
  | .truncate i, self =>
    let result := Slate.truncate fuel i self.slate
    observe (.truncated result.1) { self with slate := result.2 }
  | .snapshotAt revision, self =>
    match openAt fuel revision self.slate with
    | (.ok (revision, root, query), slate) =>
      observe (.opened (.ok (revision, root.erased))) ⟨slate, self.queries ++ [query]⟩
    | (.error e, slate) => observe (.opened (.error e)) { self with slate := slate }
  | .ask k c, self =>
    match self.queries[k]? with
    | some query =>
      let result := query.call fuel c.blind self.slate.storage
      observe (.answered result.1.erased)
        { self with slate := { self.slate with storage := result.2 } }
    | none => observe .absent self

end Session

/-! ### Ledgers -/

/-- **A ledger**: a list of payloads, and of each query that was opened, the payloads of its
revision. -/
structure Ledger where
  payloads : List Bytes
  queries : List (List Bytes)

namespace Ledger

/-- The root of a generation, without positions. -/
def rootAt (H : HashFn w) (vs : List Bytes) (m : Index) : MetaInfo w :=
  nodeInfo H (payload vs) nowhere (Tree.upTo m)

/-- A ledger, after an operation. -/
def observe (H : HashFn w) (report : Report w) (self : Ledger) : Observation w × Ledger :=
  (⟨report, self.payloads.length,
    if 1 ≤ self.payloads.length then some (rootAt H self.payloads self.payloads.length)
    else none⟩, self)

/-- **What an operation means** for a ledger. A query is answered as if it were current. -/
def serve (H : HashFn w) : Operation w → Ledger → Observation w × Ledger
  | .append value, self =>
    if MAX_PAYLOAD_SIZE < value.length then
      observe H (.appended (.error (.err (.tooLargePayload value.length)))) self
    else
      let vs := self.payloads ++ [value]
      observe H (.appended (.ok (rootAt H vs vs.length))) { self with payloads := vs }
  | .truncate i, self =>
    if 1 ≤ i ∧ i ≤ self.payloads.length then
      observe H (.truncated (.ok true)) { self with payloads := self.payloads.take (i - 1) }
    else observe H (.truncated (.ok false)) self
  | .snapshotAt m, self =>
    if 1 ≤ m ∧ m ≤ self.payloads.length then
      observe H (.opened (.ok (m, rootAt H self.payloads m)))
        { self with queries := self.queries ++ [self.payloads.take m] }
    else
      observe H (.opened (.error (.err (.invalidArgument
        s!"Entry {m} is not contained in the current revision {self.payloads.length}")))) self
  | .ask k c, self =>
    match self.queries[k]? with
    | some vs => observe H (.answered (c.answer H (payload self.payloads) vs.length)) self
    | none => observe H .absent self

/-- How a query of some payloads stands to a slate. -/
def standingOf (us vs : List Bytes) : Standing :=
  if us.take vs.length = vs then .current else if InPlace us vs then .outdated else .displaced

/-- How the query stands to which an operation is put, if it is put to one. -/
def standing (self : Ledger) : Operation w → Standing
  | .ask k _ =>
    match self.queries[k]? with
    | some vs => standingOf self.payloads vs
    | none => .current
  | _ => .current

/-- A backend has room for what an operation adds to a ledger. -/
def Admits (B : Backend w) (H : HashFn w) : Operation w → Ledger → Prop
  | .append value, self =>
    value.length ≤ MAX_PAYLOAD_SIZE → B.Holds H (self.payloads ++ [value])
  | _, _ => True

end Ledger

/-! ### Sessions follow their ledgers -/

section Follows

variable {B : Backend w} {H : HashFn w} {L fuel : ℕ} {vs : List Bytes}

/-- **A session follows a ledger.** -/
structure Session.Follows (H : HashFn w) (L : ℕ) (s : Session B) (l : Ledger) : Prop where
  slate : SlateOf B.log H L (payload l.payloads) l.payloads.length s.slate
  queries : List.Forall₂ (fun q vs => QueryOf B H L vs q) s.queries l.queries

/-- **A current query** is one of the slate. -/
theorem QueryOf.represents_current {us : List Bytes} {q : Query B.log.toStorage}
    (h : QueryOf B H L vs q) (hcurrent : us.take vs.length = vs) : vs.length ≤ us.length ∧
      Represents H (payload us) (positionOf B.log H (payload us)) L vs.length q.cache := by
  have hlength := congrArg List.length hcurrent
  rw [List.length_take] at hlength
  have hv : ∀ k, 1 ≤ k → k ≤ vs.length → payload vs k = payload us k :=
    fun k h1 h2 => (congrArg (payload · k) hcurrent).symm.trans (payload_take h1 h2)
  exact ⟨by omega, h.represents.congr hv fun k _ h2 =>
    positionOf_congr hv (h2.trans (Nat.le_succ _))⟩

namespace Session

variable {s : Session B} {l : Ledger}

/-- What is observed after an operation is what the ledger says, if what it returns is. -/
theorem Follows.observe (h : s.Follows H L l) {P : Report w → Report w → Prop}
    {report report' : Report w} (hreport : P report report') :
    (s.observe report).1.Alike P (l.observe H report').1 ∧
      (s.observe report).2.Follows H L (l.observe H report').2 := by
  refine ⟨⟨h.slate.n_eq, ?_, hreport⟩, h⟩
  change s.slate.root.map MetaInfo.erased = _
  rw [h.slate.root_eq]
  by_cases hn : 1 ≤ l.payloads.length
  · rw [if_pos hn, Ledger.observe, if_pos hn, Option.map_some, nodeInfo_erased, Ledger.rootAt]
  · rw [if_neg hn, Ledger.observe, if_neg hn]
    rfl

/-- Appending. -/
theorem Follows.append (h : s.Follows H L l) {value : Bytes}
    (hadmits : l.Admits B H (.append value)) :
    (s.serve H fuel (.append value)).1.Alike Eq (l.serve H (.append value)).1 ∧
      (s.serve H fuel (.append value)).2.Follows H L (l.serve H (.append value)).2 := by
  rw [serve, Ledger.serve]
  by_cases hlarge : MAX_PAYLOAD_SIZE < value.length
  · rw [SlateOf.append_tooLarge hlarge, if_pos hlarge]
    exact h.observe rfl
  · have hs := h.slate.congr fun k h1 h2 => payload_append_left [value] h1 h2
    have hroom := hadmits (Nat.le_of_not_lt hlarge)
    rw [Backend.Holds, List.length_append, List.length_singleton] at hroom
    have hvalue : payload (l.payloads ++ [value]) (l.payloads.length + 1) = value :=
      payload_concat l.payloads value
    obtain ⟨s', ha, hs'⟩ := hs.append_ok (by rw [hvalue]; exact Nat.le_of_not_lt hlarge) hroom.room
    rw [hvalue] at ha
    have hnext : (⟨s', s.queries⟩ : Session B).Follows H L
        ⟨l.payloads ++ [value], l.queries⟩ := by
      refine ⟨?_, h.queries⟩
      change SlateOf _ _ _ _ (l.payloads ++ [value]).length s'
      rwa [List.length_append]
    rw [ha, if_neg hlarge]
    refine hnext.observe ?_
    rw [Ledger.rootAt, List.length_append]
    rfl

/-- Truncating. -/
theorem Follows.truncate (h : s.Follows H L l) (hf : INDEX_SIZE < fuel) (i : ℕ) :
    (s.serve H fuel (.truncate i)).1.Alike Eq (l.serve H (.truncate i)).1 ∧
      (s.serve H fuel (.truncate i)).2.Follows H L (l.serve H (.truncate i)).2 := by
  rw [serve, Ledger.serve]
  by_cases hi : 1 ≤ i ∧ i ≤ l.payloads.length
  · obtain ⟨s', ht, hs'⟩ := h.slate.truncate_ok hf hi.1 hi.2
    have hlength : (l.payloads.take (i - 1)).length = i - 1 := by
      rw [List.length_take]
      omega
    have hnext : (⟨s', s.queries⟩ : Session B).Follows H L
        ⟨l.payloads.take (i - 1), l.queries⟩ := by
      refine ⟨?_, h.queries⟩
      change SlateOf _ _ _ _ (l.payloads.take (i - 1)).length s'
      rw [hlength]
      exact hs'.congr fun k h1 h2 => (payload_take h1 h2).symm
    rw [ht, if_pos hi]
    exact hnext.observe rfl
  · rw [h.slate.truncate_no hf (by omega), if_neg hi]
    exact h.observe rfl

/-- Opening a query. -/
theorem Follows.snapshotAt (h : s.Follows H L l) (hf : INDEX_SIZE < fuel) (m : ℕ) :
    (s.serve H fuel (.snapshotAt m)).1.Alike Eq (l.serve H (.snapshotAt m)).1 ∧
      (s.serve H fuel (.snapshotAt m)).2.Follows H L (l.serve H (.snapshotAt m)).2 := by
  rw [serve, Ledger.serve]
  by_cases hm : 1 ≤ m ∧ m ≤ l.payloads.length
  · obtain ⟨snapshot, hsnapshot, hview⟩ := h.slate.viewAt hf hm.1 hm.2
    have hrevision : snapshot.revision = m := hview.represents.revision_eq
    have hopen : openAt fuel m s.slate = (.ok (m, nodeInfo H (payload l.payloads)
        (positionOf B.log H (payload l.payloads)) (Tree.upTo m), { cache := snapshot.cache }),
          s.slate) := by
      rw [openAt, Prog.bind_ok hsnapshot, Prog.liftM_eq, hview.root_eq hm.1, Prog.lift_ok_bind,
        Prog.bind_ok (SlateOf.onStorage_keep hview.query_eq), hrevision]
      rfl
    have hlength : (l.payloads.take m).length = m := List.length_take_of_le hm.2
    -- the query keeps the payloads of its generation, whatever the slate does next
    have hv : ∀ k, 1 ≤ k → k ≤ m → payload l.payloads k = payload (l.payloads.take m) k :=
      fun k h1 h2 => (payload_take h1 h2).symm
    have hquery : QueryOf B H L (l.payloads.take m) { cache := snapshot.cache } := by
      refine ⟨?_, ?_, ?_⟩
      · rw [Backend.Holds, hlength]
        exact (h.slate.fits.mono hm.2).congr hv
      · rw [hlength]
        exact hm.1
      · rw [hlength]
        exact hview.represents.congr hv fun k _ h2 => positionOf_congr hv (h2.trans (Nat.le_succ _))
    have hnext : (⟨s.slate, s.queries ++ [{ cache := snapshot.cache }]⟩ :
        Session B).Follows H L ⟨l.payloads, l.queries ++ [l.payloads.take m]⟩ :=
      ⟨h.slate, List.rel_append h.queries (.cons hquery .nil)⟩
    rw [hopen, if_pos hm]
    exact hnext.observe rfl
  · have hload := h.slate.loadEntry_eq hf m
    rw [if_neg hm] at hload
    have hopen : openAt fuel m s.slate = (.error (.err (.invalidArgument
        s!"Entry {m} is not contained in the current revision {l.payloads.length}")),
          s.slate) := by
      rw [openAt, Prog.bind_error (by rw [Slate.snapshotAt, Prog.bind_error hload])]
    rw [hopen, if_neg hm]
    exact h.observe rfl

/-- Asking a query: it says what the ledger says if it is current. -/
theorem Follows.ask (hB : B.log.ReadsOnly) (h : s.Follows H L l) (hf : INDEX_SIZE < fuel) (k : ℕ)
    (c : Call w) : (s.serve H fuel (.ask k c)).1.Alike
        (fun r r' => l.standing (.ask k c) = .current → r = r') (l.serve H (.ask k c)).1 ∧
      (s.serve H fuel (.ask k c)).2.Follows H L (l.serve H (.ask k c)).2 := by
  rw [serve, Ledger.serve, Ledger.standing]
  by_cases hk : k < s.queries.length
  · have hk' : k < l.queries.length := h.queries.length_eq ▸ hk
    have hquery : QueryOf B H L l.queries[k] s.queries[k] := h.queries.get hk hk'
    have hkeep := Query.keeps_call hB s.queries[k] fuel c.blind s.slate.storage
    rw [List.getElem?_eq_getElem hk, List.getElem?_eq_getElem hk']
    simp only [hkeep]
    refine h.observe fun hstanding => congrArg Report.answered ?_
    rw [Ledger.standingOf] at hstanding
    have hcurrent : l.payloads.take l.queries[k].length = l.queries[k] := by
      by_contra hne
      rw [if_neg hne] at hstanding
      split at hstanding
      · exact absurd hstanding (by decide)
      · exact absurd hstanding (by decide)
    obtain ⟨hle, hc⟩ := hquery.represents_current hcurrent
    have hanswer := Query.call_erased h.slate.fits hc hle hf c
    rwa [← h.slate.storage_eq] at hanswer
  · have hk' : ¬k < l.queries.length := h.queries.length_eq ▸ hk
    rw [List.getElem?_eq_none (Nat.le_of_not_lt hk), List.getElem?_eq_none (Nat.le_of_not_lt hk')]
    exact h.observe fun _ => rfl

/-- **A session follows its ledger**, one operation after the other. -/
theorem follows_serve (hB : B.log.ReadsOnly) (hf : INDEX_SIZE < fuel) (op : Operation w)
    (h : s.Follows H L l) (hadmits : l.Admits B H op) :
    (s.serve H fuel op).1.Alike (fun r r' => l.standing op = .current → r = r')
        (l.serve H op).1 ∧
      (s.serve H fuel op).2.Follows H L (l.serve H op).2 := by
  have weaken : ∀ {a b : Observation w}, a.Alike Eq b →
      a.Alike (fun r r' => l.standing op = .current → r = r') b :=
    fun hab => ⟨hab.n, hab.root, fun _ => hab.report⟩
  cases op with
  | append value => exact (h.append hadmits).imp_left weaken
  | truncate i => exact (h.truncate hf i).imp_left weaken
  | snapshotAt m => exact (h.snapshotAt hf m).imp_left weaken
  | ask k c => exact h.ask hB hf k c

end Session

end Follows

/-! ### Backends cannot be told apart -/

section Backends

variable {H : HashFn w} {L fuel : ℕ}

/-- A ledger without anything. -/
def Ledger.empty : Ledger := ⟨[], []⟩

/-- **What two sessions observe** of the same operations, as much as the standing of the queries
allows it. -/
def Agreed (H : HashFn w) : List (Operation w) → Ledger → List (Observation w) →
    List (Observation w) → Prop
  | [], _, [], [] => True
  | op :: ops, l, a :: as, b :: bs =>
    a.Alike (l.standing op).Agree b ∧ Agreed H ops (l.serve H op).2 as bs
  | _, _, _, _ => False

/-- **An outdated query** is answered alike by two backends in memory. -/
theorem Session.ask_like {M M' : InMemory w} (hM : M.backend.log.ReadsOnly)
    (hM' : M'.backend.log.ReadsOnly) {s : Session M.backend} {t : Session M'.backend} {l : Ledger}
    (hs : s.Follows H L l) (ht : t.Follows H L l) (k : ℕ) (c : Call w)
    (hstanding : l.standing (.ask k c) = .outdated) :
    (s.serve H fuel (.ask k c)).1.report.Like (t.serve H fuel (.ask k c)).1.report := by
  rw [Ledger.standing] at hstanding
  by_cases hk : k < l.queries.length
  · have hsk : k < s.queries.length := hs.queries.length_eq.symm ▸ hk
    have htk : k < t.queries.length := ht.queries.length_eq.symm ▸ hk
    have hq : QueryOf M.backend H L l.queries[k] s.queries[k] := hs.queries.get hsk hk
    have hq' : QueryOf M'.backend H L l.queries[k] t.queries[k] := ht.queries.get htk hk
    rw [List.getElem?_eq_getElem hk] at hstanding
    simp only [Ledger.standingOf] at hstanding
    have hplace : InPlace l.payloads l.queries[k] := by
      by_contra hne
      rw [if_neg hne] at hstanding
      split at hstanding
      · exact absurd hstanding (by decide)
      · exact absurd hstanding (by decide)
    rw [serve, serve, List.getElem?_eq_getElem hsk, List.getElem?_eq_getElem htk]
    exact .answered ((hq.abreast hq' hs.slate ht.slate hM hM' hplace).call fuel c ⟨rfl, rfl⟩)
  · rw [List.getElem?_eq_none (Nat.le_of_not_lt hk)] at hstanding
    exact absurd hstanding (by simp)

/-- **One operation**: two backends in memory agree. -/
theorem Session.agree_serve {M M' : InMemory w} (hM : M.backend.log.ReadsOnly)
    (hM' : M'.backend.log.ReadsOnly) (hf : INDEX_SIZE < fuel) {s : Session M.backend}
    {t : Session M'.backend} {l : Ledger} (hs : s.Follows H L l) (ht : t.Follows H L l)
    (op : Operation w) (hadmits : l.Admits M.backend H op) (hadmits' : l.Admits M'.backend H op) :
    (s.serve H fuel op).1.Alike (l.standing op).Agree (t.serve H fuel op).1 := by
  have h1 := (follows_serve hM hf op hs hadmits).1
  have h2 := (follows_serve hM' hf op ht hadmits').1
  refine ⟨h1.n.trans h2.n.symm, h1.root.trans h2.root.symm, ?_⟩
  cases hstanding : l.standing op with
  | current => exact (h1.report hstanding).trans (h2.report hstanding).symm
  | displaced => trivial
  | outdated =>
    cases op with
    | ask k c => exact ask_like hM hM' hs ht k c hstanding
    | append value => exact absurd hstanding (by simp [Ledger.standing])
    | truncate i => exact absurd hstanding (by simp [Ledger.standing])
    | snapshotAt m => exact absurd hstanding (by simp [Ledger.standing])

/-- **All operations**, by induction on them. -/
theorem Session.agreed {M M' : InMemory w} (hM : M.backend.log.ReadsOnly)
    (hM' : M'.backend.log.ReadsOnly) (hf : INDEX_SIZE < fuel) :
    ∀ (ops : List (Operation w)) {s : Session M.backend} {t : Session M'.backend} {l : Ledger},
    s.Follows H L l → t.Follows H L l →
    Always (Ledger.serve H) (Ledger.Admits M.backend H) ops l →
    Always (Ledger.serve H) (Ledger.Admits M'.backend H) ops l →
    Agreed H ops l (runAll (Session.serve H fuel) ops s).1 (runAll (Session.serve H fuel) ops t).1
  | [], _, _, _, _, _, _, _ => trivial
  | op :: ops, _, _, _, hs, ht, ⟨hadmits, hrest⟩, ⟨hadmits', hrest'⟩ =>
    ⟨agree_serve hM hM' hf hs ht op hadmits hadmits',
      agreed hM hM' hf ops (follows_serve hM hf op hs hadmits).2
        (follows_serve hM' hf op ht hadmits').2 hrest hrest'⟩

/-- What any backend holds, the key-value storage holds. -/
theorem Backend.Holds.memKVS {B : Backend w} {vs : List Bytes} (h : B.Holds H vs) :
    Backend.memKVS.Holds H vs := by
  refine holds_memKVS.mpr ⟨h.lt, fun v hv => ?_⟩
  obtain ⟨k, hk, rfl⟩ := List.getElem_of_mem hv
  rw [getElem_eq_payload hk]
  exact h.payload_le _ (by omega) (by omega)

/-- **What an operation makes of the payloads** of a ledger: it leaves them, or puts one behind
them, or cuts them. -/
theorem Ledger.payloads_serve (H : HashFn w) (op : Operation w) (l : Ledger) :
    (l.serve H op).2.payloads = l.payloads ∨
      (∃ value, value.length ≤ MAX_PAYLOAD_SIZE ∧
        (l.serve H op).2.payloads = l.payloads ++ [value]) ∨
      ∃ k, (l.serve H op).2.payloads = l.payloads.take k := by
  cases op with
  | append value =>
    rw [serve]
    by_cases hlarge : MAX_PAYLOAD_SIZE < value.length
    · rw [if_pos hlarge]
      exact Or.inl rfl
    · rw [if_neg hlarge]
      exact Or.inr (Or.inl ⟨value, Nat.le_of_not_lt hlarge, rfl⟩)
  | truncate i =>
    rw [serve]
    by_cases hi : 1 ≤ i ∧ i ≤ l.payloads.length
    · rw [if_pos hi]
      exact Or.inr (Or.inr ⟨i - 1, rfl⟩)
    · rw [if_neg hi]
      exact Or.inl rfl
  | snapshotAt m =>
    rw [serve]
    by_cases hm : 1 ≤ m ∧ m ≤ l.payloads.length
    · rw [if_pos hm]
      exact Or.inl rfl
    · rw [if_neg hm]
      exact Or.inl rfl
  | ask k c =>
    rw [serve]
    cases l.queries[k]? with
    | none => exact Or.inl rfl
    | some q => exact Or.inl rfl

/-- **A billion operations always fit.** -/
theorem Ledger.always_admits (B : Backend w) (H : HashFn w) :
    ∀ (ops : List (Operation w)) (l : Ledger), l.payloads.length + ops.length < 2 ^ 30 →
    (∀ v ∈ l.payloads, v.length ≤ MAX_PAYLOAD_SIZE) →
    Always (Ledger.serve H) (Ledger.Admits B H) ops l
  | [], _, _, _ => trivial
  | op :: ops, l, hlength, hle => by
    rw [List.length_cons] at hlength
    refine ⟨?_, ?_⟩
    · cases op with
      | append value =>
        intro hvalue
        refine holds_of_length_lt B ?_ (forall_mem_concat hle hvalue)
        rw [List.length_append, List.length_singleton]
        omega
      | truncate i => trivial
      | snapshotAt m => trivial
      | ask k c => trivial
    · rcases l.payloads_serve H op with h | ⟨value, hvalue, h⟩ | ⟨k, h⟩
      · exact always_admits B H ops _ (by rw [h]; omega) (by rwa [h])
      · refine always_admits B H ops _ ?_ (by rw [h]; exact forall_mem_concat hle hvalue)
        rw [h, List.length_append, List.length_singleton]
        omega
      · have hcut := List.length_take_le' k l.payloads
        refine always_admits B H ops _ (by rw [h]; omega) ?_
        rw [h]
        exact fun v hv => hle v (List.mem_of_mem_take hv)

/-- **Backend independence.** Whatever is done to a slate and the queries opened on it, a slate
over the key-value storage returns the same as one over a block storage in memory, up to
positions. A query that was cut into may fail on both, with different errors; and it is left open
what it returns as long as the slate has a payload of another length at one of its indices. -/
theorem backends_agree (hw : w ≤ 64) (checksum : Checksum) (H : HashFn w) (L : ℕ) {fuel : ℕ}
    (hf : INDEX_SIZE < fuel) {s : SlateOn (w := w) .memKVS}
    {t : SlateOn (.blockMemory hw checksum)} (hs : openNew .memKVS L = .ok s)
    (ht : openNew (.blockMemory hw checksum) L = .ok t) (ops : List (Operation w))
    (hadmits : Always (Ledger.serve H) (Ledger.Admits (.blockMemory hw checksum) H) ops .empty) :
    Agreed H ops .empty (runAll (Session.serve H fuel) ops ⟨s, []⟩).1
      (runAll (Session.serve H fuel) ops ⟨t, []⟩).1 := by
  have hmem : Always (Ledger.serve H) (Ledger.Admits .memKVS H) ops .empty := by
    refine Always.mono (fun op l h => ?_) ops hadmits
    cases op with
    | append value => exact fun hvalue => (h hvalue).memKVS
    | truncate i => trivial
    | snapshotAt m => trivial
    | ask k c => trivial
  have hstart : (⟨s, []⟩ : Session .memKVS).Follows H L .empty := ⟨(Reaches.new hs).slateOf, .nil⟩
  have hstart' : (⟨t, []⟩ : Session (.blockMemory hw checksum)).Follows H L .empty :=
    ⟨(Reaches.new ht).slateOf, .nil⟩
  exact @Session.agreed _ H L fuel .memKVS (.block hw checksum) readsOnly_memKVS
    (readsOnly_blockMemory hw checksum) hf ops _ _ _ hstart hstart' hmem hadmits

/-- A query is opened, the slate is cut into it and extended with a payload as long as the one
before, and the query is asked, where it is and where it is gone. -/
theorem backends_agree_nine : ∃ (s : SlateOn (w := 1) .memKVS) (t : SlateOn tinyBlock),
    openNew .memKVS 1 = .ok s ∧ openNew tinyBlock 1 = .ok t ∧
    Agreed byteSum [.append [1], .append [], .append [2, 3], .snapshotAt 3, .truncate 1,
        .append [4], .ask 0 (.get 1), .ask 0 (.getSample 2), .ask 0 (.readEntry 1)] .empty
      (runAll (Session.serve byteSum 65) [.append [1], .append [], .append [2, 3], .snapshotAt 3,
        .truncate 1, .append [4], .ask 0 (.get 1), .ask 0 (.getSample 2),
        .ask 0 (.readEntry 1)] ⟨s, []⟩).1
      (runAll (Session.serve byteSum 65) [.append [1], .append [], .append [2, 3], .snapshotAt 3,
        .truncate 1, .append [4], .ask 0 (.get 1), .ask 0 (.getSample 2),
        .ask 0 (.readEntry 1)] ⟨t, []⟩).1 := by
  obtain ⟨s, hs, -⟩ := openNew_eq (.memKVS : Backend 1) byteSum 1 (payload [])
  obtain ⟨t, ht, -⟩ := openNew_eq tinyBlock byteSum 1 (payload [])
  exact ⟨s, t, hs, ht, backends_agree (by decide) (fun _ => 7) byteSum 1 (by decide) hs ht _
    (Ledger.always_admits tinyBlock byteSum _ .empty (by decide) fun _ hv =>
      absurd hv List.not_mem_nil)⟩

/-- The value that was asked for. -/
def Observation.value (self : Observation w) : Option (Result (Option Bytes)) :=
  match self.report with
  | .answered (.value result) => some result
  | _ => none

/-- A query is opened and cut into; what was behind the cut comes again, but one byte longer, so
that the next entry is not where it was. -/
def cuttingRun : List (Operation 1) :=
  [.append [1], .append [2], .append [3], .append [4], .snapshotAt 4, .truncate 2, .append [7, 7],
    .append [9], .ask 0 (.get 3)]

/-- What the query returns in the end. -/
def cuttingValue (B : Backend 1) : Result (Option (Result (Option Bytes))) := do
  let s ← openNew B 0
  return (runAll (Session.serve byteSum 65) cuttingRun ⟨s, []⟩).1.getLast?.bind Observation.value

/-- **A query that was cut into tells the backends apart**: one finds an entry, the other does
not. -/
theorem not_backends_agree : ∃ (s : SlateOn (w := 1) .memKVS) (t : SlateOn tinyBlock),
    openNew .memKVS 0 = .ok s ∧ openNew tinyBlock 0 = .ok t ∧
    Always (Ledger.serve byteSum) (Ledger.Admits tinyBlock byteSum) cuttingRun .empty ∧
    (runAll (Session.serve byteSum 65) cuttingRun ⟨s, []⟩).1.getLast?.bind Observation.value =
      some (.ok (some [9])) ∧
    (runAll (Session.serve byteSum 65) cuttingRun ⟨t, []⟩).1.getLast?.bind Observation.value =
      some (.error (.err unexpectedEof)) ∧
    (runAll (Session.serve byteSum 65) cuttingRun ⟨s, []⟩).1 ≠
      (runAll (Session.serve byteSum 65) cuttingRun ⟨t, []⟩).1 := by
  have hmem : cuttingValue .memKVS = .ok (some (.ok (some [9]))) := by decide +kernel
  have hblock : cuttingValue tinyBlock = .ok (some (.error (.err unexpectedEof))) := by
    decide +kernel
  rw [cuttingValue, bind_eq_ok] at hmem hblock
  obtain ⟨s, hs, hmem⟩ := hmem
  obtain ⟨t, ht, hblock⟩ := hblock
  rw [pure_eq_ok, Except.ok.injEq] at hmem hblock
  refine ⟨s, t, hs, ht, Ledger.always_admits tinyBlock byteSum _ .empty (by decide)
    fun _ hv => absurd hv List.not_mem_nil, hmem, hblock, fun heq => ?_⟩
  rw [heq, hblock] at hmem
  exact absurd hmem (by simp)

end Backends

end StratifiedHashTree
