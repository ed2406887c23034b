import StratifiedHashTree.MemKVS
import StratifiedHashTree.Requests

/-!
# Storages that number their data

Where nothing is serialized into one sequence of bytes, positions can simply be the numbers
`1, 2, …` of the data. `StratifiedHashTree.LogStorage.Numbered` is what such a storage adds to
`StratifiedHashTree.LogStorage`: at a number that is not taken it finds nothing. Every request
but one is then replied as the log replies to it
(`StratifiedHashTree.LogStorage.Numbered.ask_of_ne_first`).

The exception is `first`, which `MemKVS` answers with the *last* datum, and with the position
behind it. As long as it is asked on an empty store only, its replies are those of a log, and
not otherwise (`StratifiedHashTree.MemKVS.keeps_log_iff`).
-/

namespace StratifiedHashTree

open Outcome AppendLog

variable {α κ : Type}

/-! ### Numbers as positions -/

namespace AppendLog

/-- The number after a log. -/
abbrev nextOf (log : List α) : Position := log.length + 1

theorem locate_nextOf (log : List α) (p : ℕ) :
    locate nextOf log p = if 1 ≤ p ∧ p ≤ log.length then some (p - 1) else none := by
  by_cases h : 1 ≤ p ∧ p ≤ log.length
  · have hlen : ∀ i < log.length, nextOf (log.take i) = i + 1 := fun i hi => by
      rw [nextOf, List.length_take_of_le (Nat.le_of_lt hi)]
    have hk : p - 1 < log.length := by omega
    have h1 : locate nextOf log (nextOf (log.take (p - 1))) = some (p - 1) :=
      locate_take (fun i hi j hj heq => by
      rw [hlen i hi, hlen j hj] at heq
      exact Nat.succ.inj heq) hk
    rw [hlen _ hk, show p - 1 + 1 = p by omega] at h1
    rw [if_pos h, h1]
  · rw [if_neg h]
    refine locate_eq_none fun k hk heq => h ?_
    rw [nextOf, List.length_take_of_le (Nat.le_of_lt hk)] at heq
    have h1 : k + 1 = p := heq
    omega

/-- What may be asked of a storage that numbers its data: to put something at the next number,
and anything at a number that the machine has, from some number on. -/
def Numbers (Placed : Position → α → Prop) (lowest : ℕ) : Request α κ → List α → Prop
  | .put p x, log => p = nextOf log ∧ Placed p x ∧ log.length + 2 < 2 ^ 64
  | .truncate p, _ | .read _ p, _ | .scan _ p _ _ _, _ => lowest ≤ p ∧ p < 2 ^ 64
  | .first, _ | .last, _ | .reader, _ => True

end AppendLog

/-- The call of a storage; what an error of a read says is left out. -/
def Storage.ask (S : Storage α) (request : Request α κ) (s : S.State) : Reply α κ × S.State :=
  ((S.serve request s).1.plain, (S.serve request s).2)

/-- **A storage that numbers its data**, for the numbers from `lowest` on. -/
structure LogStorage.Numbered {Placed : Position → α → Prop} (S : LogStorage α Placed)
    (lowest : ℕ) : Prop where
  endPos_eq : ∀ log, S.endPos log = nextOf log
  room_iff : ∀ {log}, S.Room log ↔ nextOf log < 2 ^ 64
  last_render : ∀ {log}, S.Room log → S.Laid log →
    S.last (S.render log) = (.ok (log.getLast?, nextOf log), S.render log)
  truncate_take : ∀ {log} {k : ℕ}, S.Room log → S.Laid log → k < log.length →
    S.truncate (k + 1) (S.render log) = (.ok true, S.render (log.take k))
  truncate_none : ∀ {log} {p : ℕ}, S.Room log → S.Laid log → lowest ≤ p → p < 2 ^ 64 →
    ¬(1 ≤ p ∧ p ≤ log.length) → S.truncate p (S.render log) = (.ok false, S.render log)
  read_none : ∀ {log} {p : ℕ}, S.Room log → S.Laid log → lowest ≤ p → p < 2 ^ 64 →
    ¬(1 ≤ p ∧ p ≤ log.length) →
      ∃ e, S.read p (S.render log) = (.error (.err e), S.render log)
  scan_none : ∀ {log} {p : ℕ} (count : ℕ) {κ : Type} (callback : ScanFn α κ) (a : κ),
    S.Room log → S.Laid log → lowest ≤ p → p < 2 ^ 64 → ¬(1 ≤ p ∧ p ≤ log.length) →
      S.scan p count callback (a, S.render log) = (.ok 0, (a, S.render log))

namespace LogStorage.Numbered

variable {Placed : Position → α → Prop} {S : LogStorage α Placed} {lowest : ℕ}
  {log : List α} {p : ℕ}

section Serve

variable (hN : S.Numbered lowest) (hroom : S.Room log) (hlaid : S.Laid log)

include hN

/-- The number of a datum. -/
theorem endPos_take {k : ℕ} (hk : k < log.length) : S.endPos (log.take k) = k + 1 := by
  rw [hN.endPos_eq, nextOf, List.length_take_of_le (Nat.le_of_lt hk)]

include hroom hlaid

/-- The number of a datum is where it is read. -/
theorem read_some {k : ℕ} (hk : k < log.length) :
    S.read (k + 1) (S.render log) = (.ok log[k], S.render log) := by
  rw [← hN.endPos_take hk]
  exact S.read_render hk hroom hlaid

theorem scan_some {k : ℕ} (hk : k < log.length) (count : ℕ) (callback : ScanFn α κ) (a : κ) :
    S.scan (k + 1) count callback (a, S.render log) =
      ((scanList callback ((log.drop k).take count) a).1,
        ((scanList callback ((log.drop k).take count) a).2, S.render log)) := by
  rw [← hN.endPos_take hk]
  exact S.scan_render count callback a hk hroom hlaid

theorem ask_last : S.ask (.last : Request α κ) (S.render log) =
    ((serve nextOf (.last : Request α κ) log).1, S.render log) := by
  rw [Storage.ask, Storage.serve, hN.last_render hroom hlaid]
  rfl

omit hlaid in
theorem ask_put {x : α} (hx : Placed (nextOf log) x) (hnext : nextOf (log ++ [x]) < 2 ^ 64) :
    S.ask (.put (nextOf log) x : Request α κ) (S.render log) =
      (.next (.ok (nextOf (log ++ [x]))), S.render (log ++ [x])) := by
  have h1 := S.put_room hroom (by rwa [hN.endPos_eq]) (hN.room_iff.mpr hnext)
  rw [hN.endPos_eq, hN.endPos_eq] at h1
  rw [Storage.ask, Storage.serve, h1]
  rfl

theorem ask_truncate (hp : lowest ≤ p) (hlt : p < 2 ^ 64) :
    S.ask (.truncate p : Request α κ) (S.render log) =
      ((serve nextOf (.truncate p : Request α κ) log).1,
        S.render (serve nextOf (.truncate p : Request α κ) log).2) := by
  rw [serve, locate_nextOf, Storage.ask, Storage.serve]
  by_cases h : 1 ≤ p ∧ p ≤ log.length
  · have h1 := hN.truncate_take hroom hlaid (show p - 1 < log.length by omega)
    rw [show p - 1 + 1 = p by omega] at h1
    rw [if_pos h, h1]
    rfl
  · rw [if_neg h, hN.truncate_none hroom hlaid hp hlt h]
    rfl

theorem ask_read (r : ℕ) (hp : lowest ≤ p) (hlt : p < 2 ^ 64) :
    S.ask (.read r p : Request α κ) (S.render log) =
      ((serve nextOf (.read r p : Request α κ) log).1, S.render log) := by
  rw [serve, locate_nextOf, Storage.ask, Storage.serve]
  by_cases h : 1 ≤ p ∧ p ≤ log.length
  · have h1 := hN.read_some hroom hlaid (show p - 1 < log.length by omega)
    rw [show p - 1 + 1 = p by omega] at h1
    rw [if_pos h, h1, Option.bind_some, List.getElem?_eq_getElem (by omega)]
    rfl
  · obtain ⟨e, h1⟩ := hN.read_none hroom hlaid hp hlt h
    rw [if_neg h, h1]
    rfl

theorem ask_scan (r count : ℕ) (callback : ScanFn α κ) (init : κ) (hp : lowest ≤ p)
    (hlt : p < 2 ^ 64) : S.ask (.scan r p count callback init) (S.render log) =
      ((serve nextOf (.scan r p count callback init) log).1, S.render log) := by
  rw [serve, locate_nextOf, Storage.ask, Storage.serve]
  by_cases h : 1 ≤ p ∧ p ≤ log.length
  · have h1 := hN.scan_some hroom hlaid (show p - 1 < log.length by omega) count callback init
    rw [show p - 1 + 1 = p by omega] at h1
    rw [if_pos h, h1]
    rfl
  · rw [if_neg h, hN.scan_none count callback init hroom hlaid hp hlt h]
    rfl

end Serve

/-- The state is the one of a log. -/
structure Keeps (S : LogStorage α Placed) (s : S.State) (log : List α) : Prop where
  state_eq : s = S.render log
  room : S.Room log
  laid : S.Laid log

/-- **One request**, whatever it is but for the first datum. -/
theorem ask_of_ne_first (hN : S.Numbered lowest) {s : S.State} (h : Keeps S s log)
    {request : Request α κ} (hrequest : Numbers Placed lowest request log)
    (hne : request ≠ .first) : (S.ask request s).1 = (serve nextOf request log).1 ∧
      Keeps S (S.ask request s).2 (serve nextOf request log).2 := by
  obtain ⟨rfl, hroom, hlaid⟩ := h
  cases request with
  | first => exact absurd rfl hne
  | last =>
    rw [hN.ask_last hroom hlaid]
    exact ⟨rfl, rfl, hroom, hlaid⟩
  | put p x =>
    obtain ⟨rfl, hx, hlt⟩ := hrequest
    have hnext : nextOf (log ++ [x]) < 2 ^ 64 := by
      rw [nextOf, List.length_append, List.length_singleton]
      exact hlt
    rw [hN.ask_put hroom hx hnext]
    exact ⟨rfl, rfl, hN.room_iff.mpr hnext, laid_concat hlaid (by rwa [hN.endPos_eq])⟩
  | truncate p =>
    rw [hN.ask_truncate hroom hlaid hrequest.1 hrequest.2]
    rcases hl : locate nextOf log p with _ | k
    · have h1 : serve nextOf (.truncate p : Request α κ) log = (.truncated (.ok false), log) := by
        rw [serve, hl]
      rw [h1]
      exact ⟨rfl, rfl, hroom, hlaid⟩
    · have h1 : serve nextOf (.truncate p : Request α κ) log =
          (.truncated (.ok true), log.take k) := by rw [serve, hl]
      rw [h1]
      exact ⟨rfl, rfl, S.room_take k hroom, laid_take hlaid k⟩
  | reader =>
    rw [Storage.ask, Storage.serve, S.reader_render]
    exact ⟨rfl, rfl, hroom, hlaid⟩
  | read r p =>
    rw [hN.ask_read hroom hlaid r hrequest.1 hrequest.2, serve_read_snd]
    exact ⟨rfl, rfl, hroom, hlaid⟩
  | scan r p count callback init =>
    rw [hN.ask_scan hroom hlaid r count callback init hrequest.1 hrequest.2, serve_scan_snd]
    exact ⟨rfl, rfl, hroom, hlaid⟩

end LogStorage.Numbered

/-! ### The key-value storage in memory -/

namespace MemKVS

open LogStorage.Numbered

variable {Placed : Position → α → Prop}

theorem numbered : (MemKVS.logStorage Placed).Numbered 0 where
  endPos_eq _ := rfl
  room_iff := Iff.rfl
  last_render hroom _ := last_render _ hroom
  truncate_take hroom _ hk := truncate_render hroom hk
  truncate_none {log p} _ _ _ _ h := by
    have hlookup : (render log).lookup p = none := lookup_render_none h
    have h1 : truncateFrom ((render log).len + 1) p (render log) = (.ok p, render log) := by
      rw [truncateFrom, Prog.bind_ok (Prog.get_run _), hlookup]
      rfl
    have h2 : truncate p (render log) = (.ok false, render log) := by
      rw [truncate, Prog.bind_ok (Prog.get_run _), Prog.bind_ok h1, Prog.pure_run,
        decide_eq_false (not_not.mpr rfl)]
    exact h2
  read_none {log p} _ _ _ _ h := by
    have hlookup : (render log).lookup p = none := lookup_render_none h
    have h1 : read p (render log) = (.error (.err (notFound p)), render log) := by
      rw [read, Prog.bind_ok (Prog.get_run _), hlookup]
      rfl
    exact ⟨_, h1⟩
  scan_none {log p} count {κ} callback a _ _ _ hlt h := by
    have hlookup : (render log).lookup p = none := lookup_render_none h
    have h1 : scanFrom callback p count 0 (a, render log) = (.ok 0, (a, render log)) := by
      cases count with
      | zero => rfl
      | succ count =>
        rw [scanFrom, Prog.liftM_eq, addBits_of_lt hlt, Prog.lift_ok_bind,
          Prog.bind_ok (Prog.get_run _)]
        simp only [Nat.add_zero, hlookup]
        rfl
    exact h1

/-- The first datum is asked for on an empty store only. -/
def FirstWhenEmpty : Request α κ → List α → Prop
  | .first, log => log = []
  | _, _ => True

/-- The request for the first datum is replied to with the last one, and the next number. -/
theorem ask_first (log : List α) (hroom : nextOf log < 2 ^ 64) :
    (memKVS α).ask (.first : Request α κ) (render log) =
      (.datum (.ok (log.getLast?, nextOf log)), render log) := by
  have hlookup : (render log).lookup log.length = log.getLast? := by
    rw [lookup_render, List.getLast?_eq_getElem?]
    by_cases h : log.length < 1
    · rw [if_pos h, List.getElem?_eq_none (by omega)]
    · rw [if_neg h]
  have h1 : first (render log) = (.ok (log.getLast?, nextOf log), render log) := by
    rw [first, Prog.bind_ok (Prog.get_run _), len_render, Prog.liftM_eq, addBits_of_lt hroom,
      Prog.lift_ok_bind, hlookup]
    rfl
  exact congrArg (fun x => (Reply.plain (.datum x.1), x.2)) h1

/-- **One request to the key-value storage** is replied to as the log replies, unless it asks a
store that is not empty for its first datum. -/
theorem ask_iff {s : MemKVS α} {log : List α}
    (h : Keeps (logStorage Placed) s log) {request : Request α κ}
    (hrequest : Numbers Placed 0 request log) :
    (((memKVS α).ask request s).1 = (serve nextOf request log).1 ↔ FirstWhenEmpty request log) ∧
      Keeps (logStorage Placed) ((memKVS α).ask request s).2
        (serve nextOf request log).2 := by
  by_cases hne : request = .first
  · subst hne
    obtain ⟨rfl, hroom, hlaid⟩ := h
    have h1 : (memKVS α).ask (.first : Request α κ) ((logStorage Placed).render log) =
        (.datum (.ok (log.getLast?, nextOf log)), (logStorage Placed).render log) :=
      ask_first log hroom
    rw [h1]
    refine ⟨⟨fun heq => ?_, ?_⟩, rfl, hroom, hlaid⟩
    · have h2 : (Reply.datum (.ok (log.getLast?, nextOf log)) : Reply α κ) =
        .datum (.ok (log.head?, nextOf [])) := heq
      rw [Reply.datum.injEq, Except.ok.injEq, Prod.mk.injEq] at h2
      exact List.length_eq_zero_iff.mp (Nat.succ.inj h2.2)
    · rintro rfl
      rfl
  · obtain ⟨h1, h2⟩ := numbered.ask_of_ne_first h hrequest hne
    refine ⟨iff_of_true h1 ?_, h2⟩
    cases request with
    | first => exact absurd rfl hne
    | _ => trivial

/-- What may be asked of a new store. -/
abbrev Asks (requests : List (Request α κ)) : Prop :=
  Always (serve nextOf) (Numbers (fun _ _ => True) 0) requests []

/-- **The key-value storage keeps a log**, and its replies are those of the log exactly when it
is asked for its first datum while it is empty only. -/
theorem keeps_log_iff {requests : List (Request α κ)} (h : Asks requests) :
    ((runAll (memKVS α).ask requests (∅ : MemKVS α)).1 = (runAll (serve nextOf) requests []).1 ↔
        Always (serve nextOf) FirstWhenEmpty requests []) ∧
      (runAll (memKVS α).ask requests (∅ : MemKVS α)).2 =
        render (runAll (serve nextOf) requests []).2 := by
  have hnew : Keeps (logStorage fun _ (_ : α) => True) (∅ : MemKVS α) [] :=
    ⟨rfl, LogStorage.room_nil _, fun _ _ => trivial⟩
  constructor
  · refine runAll_answers_iff (R := fun s log log' =>
      Keeps (logStorage fun _ (_ : α) => True) s log ∧ log' = log) ?_ requests _ _ _ ⟨hnew, rfl⟩ h
    rintro request s log _ ⟨hs, rfl⟩ hrequest
    obtain ⟨h1, h2⟩ := ask_iff hs hrequest
    exact ⟨h1, fun _ => ⟨h2, rfl⟩⟩
  · obtain ⟨-, h1⟩ := runAll_forall₂ (A := fun _ _ => True)
      (R := Keeps (logStorage fun _ (_ : α) => True))
      (fun request s log hs hrequest => ⟨trivial, (ask_iff hs hrequest).2⟩) requests _ _ hnew h
    exact h1.state_eq

/-- Puts two data, and asks for the first one. -/
def firstOfTwo : List (Request ℕ Unit) := [.put 1 10, .put 2 20, .first]

theorem asks_firstOfTwo : Asks firstOfTwo :=
  ⟨⟨rfl, trivial, by decide⟩, ⟨rfl, trivial, by decide⟩, trivial, trivial⟩

theorem keeps_log_iff_firstOfTwo :
    ((runAll (memKVS ℕ).ask firstOfTwo (∅ : MemKVS ℕ)).1 =
        (runAll (serve nextOf) firstOfTwo []).1 ↔
          Always (serve nextOf) FirstWhenEmpty firstOfTwo []) ∧
      (runAll (memKVS ℕ).ask firstOfTwo (∅ : MemKVS ℕ)).2 =
        render (runAll (serve nextOf) firstOfTwo []).2 :=
  keeps_log_iff asks_firstOfTwo

/-- **The first datum is not the first one.** -/
theorem not_first : Asks firstOfTwo ∧
    (runAll (serve nextOf) firstOfTwo []).1.getLast? = some (.datum (.ok (some 10, 1))) ∧
    (runAll (memKVS ℕ).ask firstOfTwo (∅ : MemKVS ℕ)).1.getLast? =
      some (.datum (.ok (some 20, 3))) := by
  refine ⟨asks_firstOfTwo, ?_, ?_⟩
  all_goals decide +kernel

end MemKVS

end StratifiedHashTree
