import Mathlib.Data.Finmap
import StratifiedHashTree.Prog

/-!
# Finite maps, filled step by step

Two ways of saying what a finite map holds. `StratifiedHashTree.Holds` says it by a set of
keys and a function that gives their values – the shape in which two maps filled in
different orders can be compared. `StratifiedHashTree.mapOf` is the map of a list of
items, for the case that the order is known.
-/

namespace StratifiedHashTree

variable {κ α β ε σ : Type} [DecidableEq κ]

/-- The map holds the values of `E` at the keys of `D`, and nothing else. -/
def Holds (E : κ → β) (D : Set κ) (m : Finmap fun _ : κ => β) : Prop :=
  ∀ k b, m.lookup k = some b ↔ k ∈ D ∧ b = E k

namespace Holds

variable {E : κ → β} {D D' : Set κ} {m m' : Finmap fun _ : κ => β}

theorem empty : Holds E ∅ (∅ : Finmap fun _ : κ => β) := by
  intro k b
  rw [Finmap.lookup_empty]
  exact ⟨fun h => absurd h (Option.some_ne_none b).symm, fun h => absurd h.1 (Set.notMem_empty k)⟩

theorem lookup (h : Holds E D m) {k : κ} (hk : k ∈ D) : m.lookup k = some (E k) :=
  (h k _).mpr ⟨hk, rfl⟩

theorem lookup_eq_none (h : Holds E D m) {k : κ} (hk : k ∉ D) : m.lookup k = none := by
  cases hl : m.lookup k with
  | none => rfl
  | some b => exact absurd ((h k b).mp hl).1 hk

/-- Inserting the value of a key. -/
theorem insert (h : Holds E D m) (k : κ) : Holds E (D ∪ {k}) (m.insert k (E k)) := by
  intro i b
  by_cases hi : i = k
  · subst hi
    rw [Finmap.lookup_insert, Option.some.injEq]
    exact ⟨fun hb => ⟨Or.inr rfl, hb.symm⟩, fun hb => hb.2.symm⟩
  · rw [Finmap.lookup_insert_of_ne _ hi, h i b]
    refine and_congr_left' ⟨Or.inl, fun hd => hd.resolve_right hi⟩

theorem congr (h : Holds E D m) (hD : ∀ k, k ∈ D ↔ k ∈ D') : Holds E D' m := by
  intro k b
  rw [h k b, hD k]

/-- There is only one such map. -/
theorem unique (h : Holds E D m) (h' : Holds E D m') : m = m' := by
  refine Finmap.ext_lookup fun k => ?_
  by_cases hk : k ∈ D
  · rw [h.lookup hk, h'.lookup hk]
  · rw [h.lookup_eq_none hk, h'.lookup_eq_none hk]

/-- **The fold rule**: each step adds the values of a set of keys. -/
theorem foldlM {f : (Finmap fun _ : κ => β) → α → Outcome ε (Finmap fun _ : κ => β)}
    {A : α → Set κ} : ∀ (xs : List α),
    (∀ x ∈ xs, ∀ D m, Holds E D m → ∃ m', f m x = .ok m' ∧ Holds E (D ∪ A x) m') →
    ∀ D m, Holds E D m →
      ∃ m', xs.foldlM f m = .ok m' ∧ Holds E (D ∪ {k | ∃ x ∈ xs, k ∈ A x}) m'
  | [], _, D, m, hm => ⟨m, rfl, hm.congr fun k => by simp⟩
  | x :: xs, h, D, m, hm => by
    obtain ⟨m1, hf, hm1⟩ := h x List.mem_cons_self D m hm
    obtain ⟨m2, hfs, hm2⟩ := Holds.foldlM xs (fun y hy => h y (List.mem_cons_of_mem _ hy)) _ m1 hm1
    refine ⟨m2, ?_, hm2.congr fun k => ?_⟩
    · rw [List.foldlM_cons, hf, Outcome.ok_bind, hfs]
    · simp only [Set.mem_union, Set.mem_ofPred_eq, List.mem_cons, exists_eq_or_imp]
      tauto

/-- The fold rule for a program that leaves its state alone. -/
theorem foldlM_run {f : (Finmap fun _ : κ => β) → α → Prog ε σ (Finmap fun _ : κ => β)}
    {A : α → Set κ} {s : σ} (xs : List α)
    (h : ∀ x ∈ xs, ∀ D m, Holds E D m → ∃ m', f m x s = (.ok m', s) ∧ Holds E (D ∪ A x) m')
    (D : Set κ) (m : Finmap fun _ : κ => β) (hm : Holds E D m) :
    ∃ m', xs.foldlM f m s = (.ok m', s) ∧ Holds E (D ∪ {k | ∃ x ∈ xs, k ∈ A x}) m' := by
  induction xs generalizing D m with
  | nil => exact ⟨m, rfl, hm.congr fun k => by simp⟩
  | cons x xs ih =>
    obtain ⟨m1, hf, hm1⟩ := h x List.mem_cons_self D m hm
    obtain ⟨m2, hfs, hm2⟩ := ih (fun y hy => h y (List.mem_cons_of_mem _ hy)) _ m1 hm1
    refine ⟨m2, ?_, hm2.congr fun k => ?_⟩
    · rw [Prog.foldlM_cons_ok hf, hfs]
    · simp only [Set.mem_union, Set.mem_ofPred_eq, List.mem_cons, exists_eq_or_imp]
      tauto

end Holds

/-! ### The map of a list -/

variable (key : α → κ) (val : α → β)

/-- A map with the items of a list added, the later ones in front. -/
def insertAll (m : Finmap fun _ : κ => β) (xs : List α) : Finmap fun _ : κ => β :=
  xs.foldl (fun m x => m.insert (key x) (val x)) m

/-- The map of a list of items. -/
def mapOf (xs : List α) : Finmap fun _ : κ => β := insertAll key val ∅ xs

variable {key val}

@[simp] theorem insertAll_nil (m : Finmap fun _ : κ => β) : insertAll key val m [] = m := rfl

@[simp] theorem insertAll_cons (m : Finmap fun _ : κ => β) (x : α) (xs : List α) :
    insertAll key val m (x :: xs) = insertAll key val (m.insert (key x) (val x)) xs := rfl

theorem insertAll_append (m : Finmap fun _ : κ => β) (xs ys : List α) :
    insertAll key val m (xs ++ ys) = insertAll key val (insertAll key val m xs) ys :=
  List.foldl_append

theorem insertAll_congr {val' : α → β} : ∀ (xs : List α) (m : Finmap fun _ : κ => β),
    (∀ x ∈ xs, val x = val' x) → insertAll key val m xs = insertAll key val' m xs
  | [], _, _ => rfl
  | x :: xs, m, h => by
    rw [insertAll_cons, insertAll_cons, h x List.mem_cons_self]
    exact insertAll_congr xs _ fun y hy => h y (List.mem_cons_of_mem _ hy)

theorem mapOf_congr {val' : α → β} {xs : List α} (h : ∀ x ∈ xs, val x = val' x) :
    mapOf key val xs = mapOf key val' xs := insertAll_congr xs ∅ h

theorem lookup_insertAll_of_ne : ∀ (xs : List α) (m : Finmap fun _ : κ => β) {k : κ},
    (∀ x ∈ xs, key x ≠ k) → (insertAll key val m xs).lookup k = m.lookup k
  | [], _, _, _ => rfl
  | x :: xs, m, k, h => by
    rw [insertAll_cons, lookup_insertAll_of_ne xs _ fun y hy => h y (List.mem_cons_of_mem _ hy),
      Finmap.lookup_insert_of_ne _ (h x List.mem_cons_self).symm]

theorem lookup_insertAll : ∀ (xs : List α) (m : Finmap fun _ : κ => β),
    (∀ x ∈ xs, ∀ y ∈ xs, key x = key y → val x = val y) → ∀ x ∈ xs,
    (insertAll key val m xs).lookup (key x) = some (val x)
  | [], _, _, _, hx => absurd hx List.not_mem_nil
  | y :: ys, m, h, x, hx => by
    rw [insertAll_cons]
    by_cases hlater : ∃ z ∈ ys, key z = key x
    · obtain ⟨z, hz, hzx⟩ := hlater
      have hz' := List.mem_cons_of_mem y hz
      rw [← hzx, ← h z hz' x hx hzx]
      exact lookup_insertAll ys _ (fun a ha b hb => h a (List.mem_cons_of_mem _ ha) b
        (List.mem_cons_of_mem _ hb)) z hz
    · push Not at hlater
      rcases List.mem_cons.mp hx with rfl | hx
      · rw [lookup_insertAll_of_ne ys _ hlater, Finmap.lookup_insert]
      · exact absurd rfl (hlater x hx)

/-- Looking an item up by its key. -/
theorem lookup_mapOf {xs : List α} (h : ∀ x ∈ xs, ∀ y ∈ xs, key x = key y → val x = val y) {x : α}
    (hx : x ∈ xs) : (mapOf key val xs).lookup (key x) = some (val x) :=
  lookup_insertAll xs ∅ h x hx

theorem lookup_mapOf_eq_none {xs : List α} {k : κ} (h : ∀ x ∈ xs, key x ≠ k) :
    (mapOf key val xs).lookup k = none := by
  rw [mapOf, lookup_insertAll_of_ne xs ∅ h, Finmap.lookup_empty]

/-- What is found under a key is an item of the list. -/
theorem lookup_mapOf_eq_some {xs : List α}
    (h : ∀ x ∈ xs, ∀ y ∈ xs, key x = key y → val x = val y) {k : κ} {b : β} :
    (mapOf key val xs).lookup k = some b ↔ ∃ x ∈ xs, key x = k ∧ val x = b := by
  constructor
  · intro hl
    by_cases hx : ∃ x ∈ xs, key x = k
    · obtain ⟨x, hx, rfl⟩ := hx
      rw [lookup_mapOf h hx, Option.some.injEq] at hl
      exact ⟨x, hx, rfl, hl⟩
    · push Not at hx
      rw [lookup_mapOf_eq_none hx] at hl
      exact absurd hl (Option.some_ne_none b).symm
  · rintro ⟨x, hx, rfl, rfl⟩
    exact lookup_mapOf h hx

theorem mem_keys_mapOf {xs : List α}
    (h : ∀ x ∈ xs, ∀ y ∈ xs, key x = key y → val x = val y) {k : κ} :
    k ∈ (mapOf key val xs).keys ↔ ∃ x ∈ xs, key x = k := by
  rw [Finmap.mem_keys, Finmap.mem_iff]
  constructor
  · rintro ⟨b, hb⟩
    obtain ⟨x, hx, hk, -⟩ := (lookup_mapOf_eq_some h).mp hb
    exact ⟨x, hx, hk⟩
  · rintro ⟨x, hx, rfl⟩
    exact ⟨val x, lookup_mapOf h hx⟩

end StratifiedHashTree
