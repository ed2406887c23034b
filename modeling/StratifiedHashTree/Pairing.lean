import Mathlib.Data.List.Basic
import Mathlib.Data.List.Forall2
import StratifiedHashTree.Prog

/-!
# Folding a sequence in pairs, in place

A loop that halves a sequence until one value is left. In each round
(`StratifiedHashTree.Pairing.foldRound`) the value of the pair number `k` is written to the place
`k`, over values that are not needed any more; a value that has no partner is moved behind the
last pair, and the rest is cut off.

What a round is for is a relation (`StratifiedHashTree.Pairing.Pairs`): every two values are
replaced by one, and an odd one at the end stays. The round computes it
(`StratifiedHashTree.Pairing.foldRound_of_pairs`), although it reads and writes the same
sequence: the pair number `k` is read at `2k` and `2k + 1`, where nothing has been written yet.
The relation goes well with concatenation, as long as no pair reaches over the border
(`StratifiedHashTree.Pairing.Pairs.append`), so it can be followed through the two sides of a
tree.
-/

namespace StratifiedHashTree

namespace Pairing

open Outcome

variable {ε α : Type}

/-- Assigning to a place of a sequence. -/
def assign (xs : List α) (k : ℕ) (a : α) : Outcome ε (List α) :=
  if k < xs.length then .ok (xs.set k a) else panic .outOfBounds

/-- The last value of an odd number is moved behind the pairs: it is taken off the sequence before
it is put there. -/
def carry (xs : List α) : Outcome ε (List α) := do
  let last ← unwrap xs.getLast?
  let rest ← assign xs.dropLast (xs.length / 2) last
  return rest.take (rest.length / 2 + 1)

section Loop

variable (f : α → α → Outcome ε α)

/-- Folding the pair number `k`. -/
def foldPair (xs : List α) (k : ℕ) : Outcome ε (List α) := do
  let left ← index xs (k * 2)
  let right ← index xs (k * 2 + 1)
  let parent ← f left right
  assign xs k parent

/-- A round of the loop. -/
def foldRound (xs : List α) : Outcome ε (List α) := do
  let folded ← (List.range (xs.length / 2)).foldlM (foldPair f) xs
  if folded.length % 2 ≠ 0 then
    carry folded
  else
    return folded.take (folded.length / 2)

/-- The loop: rounds until there is one value. -/
def foldAll : ℕ → List α → Outcome ε (List α)
  | 0, _ => .error .outOfFuel
  | fuel + 1, xs =>
    if 1 < xs.length then do
      let folded ← foldRound f xs
      foldAll fuel folded
    else
      return xs

/-- **A sequence folded in pairs.** -/
inductive Pairs : List α → List α → Prop
  | nil : Pairs [] []
  | odd (a : α) : Pairs [a] [a]
  | pair {a b c : α} {xs ys : List α} : f a b = .ok c → Pairs xs ys → Pairs (a :: b :: xs) (c :: ys)

end Loop

variable {f : α → α → Outcome ε α} {xs ys : List α}

namespace Pairs

/-- Sequences are folded on their own when no pair reaches over the border. -/
theorem append {xs' ys' : List α} (h : Pairs f xs ys) (heven : xs.length % 2 = 0)
    (h' : Pairs f xs' ys') : Pairs f (xs ++ xs') (ys ++ ys') := by
  induction h with
  | nil => exact h'
  | odd a => exact absurd heven Nat.one_ne_zero
  | pair hf _ ih =>
    rw [List.length_cons, List.length_cons] at heven
    exact .pair hf (ih (by omega))

theorem length_eq (h : Pairs f xs ys) : ys.length = (xs.length + 1) / 2 := by
  induction h with
  | nil => simp
  | odd a => exact (Nat.div_self Nat.two_pos).symm
  | pair _ _ ih =>
    rw [List.length_cons, List.length_cons, List.length_cons, ih]
    omega

/-- The pair number `k` of a sequence. -/
theorem get (h : Pairs f xs ys) : ∀ k, k < xs.length / 2 → ∃ a b c, xs[k * 2]? = some a ∧
    xs[k * 2 + 1]? = some b ∧ ys[k]? = some c ∧ f a b = .ok c := by
  induction h with
  | nil =>
    intro k hk
    rw [List.length_nil] at hk
    omega
  | odd a =>
    intro k hk
    rw [List.length_singleton] at hk
    omega
  | @pair a b c xs ys hf _ ih =>
    rintro (- | k) hk
    · exact ⟨a, b, c, rfl, rfl, rfl, hf⟩
    · rw [List.length_cons, List.length_cons] at hk
      obtain ⟨a', b', c', h1, h2, h3, h4⟩ := ih k (by omega)
      refine ⟨a', b', c', ?_, ?_, h3, h4⟩
      · rw [Nat.succ_mul]
        exact h1
      · rw [Nat.succ_mul]
        exact h2

/-- What has no partner stays. -/
theorem getLast?_eq (h : Pairs f xs ys) (hodd : xs.length % 2 = 1) :
    ys.getLast? = xs.getLast? := by
  induction h with
  | nil => exact absurd hodd.symm Nat.one_ne_zero
  | odd a => rfl
  | @pair a b c xs ys _ h ih =>
    rw [List.length_cons, List.length_cons] at hodd
    have hlen := h.length_eq
    have hxs : xs ≠ [] := List.ne_nil_of_length_pos (by omega)
    have hys : ys ≠ [] := List.ne_nil_of_length_pos (by omega)
    rw [List.getLast?_cons_of_ne_nil hys, List.getLast?_cons_cons,
      List.getLast?_cons_of_ne_nil hxs]
    exact ih (by omega)

end Pairs

/-- One pair: the values at the places of the earlier pairs are replaced, the later ones are as
they were. -/
theorem foldPair_of_pairs (h : Pairs f xs ys) {k : ℕ} (hk : k < xs.length / 2) :
    foldPair f (ys.take k ++ xs.drop k) k = .ok (ys.take (k + 1) ++ xs.drop (k + 1)) := by
  obtain ⟨a, b, c, ha, hb, hc, hf⟩ := h.get k hk
  have hlen : (ys.take k).length = k := by
    rw [List.length_take, h.length_eq]
    omega
  have hget : ∀ d, (ys.take k ++ xs.drop k)[k + d]? = xs[k + d]? := by
    intro d
    rw [List.getElem?_append_right (by omega), hlen, List.getElem?_drop]
    congr 1
    omega
  have hleft : (index (ys.take k ++ xs.drop k) (k * 2) : Outcome ε α) = .ok a := by
    refine index_of_getElem? ?_
    rw [Nat.mul_two, hget, ← Nat.mul_two, ha]
  have hright : (index (ys.take k ++ xs.drop k) (k * 2 + 1) : Outcome ε α) = .ok b := by
    refine index_of_getElem? ?_
    rw [Nat.mul_two, Nat.add_assoc, hget, ← Nat.add_assoc, ← Nat.mul_two, hb]
  have hdrop : xs.drop k = xs[k] :: xs.drop (k + 1) := List.drop_eq_getElem_cons (by omega)
  have hset : (ys.take k ++ xs.drop k).set k c = ys.take (k + 1) ++ xs.drop (k + 1) := by
    rw [List.set_append_right _ _ (Nat.le_of_eq hlen), hlen, Nat.sub_self, hdrop,
      List.set_cons_zero, List.take_add_one, hc, Option.toList_some, List.append_assoc,
      List.singleton_append]
  rw [foldPair, hleft, ok_bind, hright, ok_bind, hf, ok_bind, assign, hset, if_pos]
  rw [List.length_append, List.length_drop]
  omega

/-- The first pairs. -/
theorem foldPairs_of_pairs (h : Pairs f xs ys) : ∀ k, k ≤ xs.length / 2 →
    (List.range k).foldlM (foldPair f) xs = .ok (ys.take k ++ xs.drop k)
  | 0, _ => rfl
  | k + 1, hk => by
    rw [List.range_succ, List.foldlM_append, foldPairs_of_pairs h k (by omega), ok_bind,
      List.foldlM_cons, foldPair_of_pairs h hk, ok_bind]
    rfl

/-- Behind as many values as there are pairs. -/
theorem carry_append {zs ws : List α} {last : α} (hlen : ws.length = zs.length + 1)
    (hpos : 1 ≤ zs.length) (hlast : ws.getLast? = some last) :
    (carry (zs ++ ws) : Outcome ε (List α)) = .ok (zs ++ [last]) := by
  have hne : ws ≠ [] := List.ne_nil_of_length_pos (by omega)
  have hdrop : ws.dropLast.length = zs.length := by
    rw [List.length_dropLast]
    omega
  obtain ⟨y, tail, htail⟩ := List.exists_cons_of_length_pos
    (show 0 < ws.dropLast.length by omega)
  rw [htail, List.length_cons] at hdrop
  have hassign : (assign (zs ++ y :: tail) zs.length last : Outcome ε (List α)) =
      .ok ((zs ++ [last]) ++ tail) := by
    rw [assign, if_pos (by rw [List.length_append, List.length_cons]; omega),
      List.set_append_right _ _ (Nat.le_refl _), Nat.sub_self, List.set_cons_zero,
      List.append_assoc, List.singleton_append]
  have hhalf : (zs ++ ws).length / 2 = zs.length := by
    rw [List.length_append]
    omega
  have hrest : ((zs ++ [last]) ++ tail).length / 2 + 1 = (zs ++ [last]).length := by
    rw [List.length_append, List.length_append, List.length_singleton]
    omega
  rw [carry, List.getLast?_append_of_ne_nil _ hne, hlast, unwrap_some, ok_bind, hhalf,
    List.dropLast_append_of_ne_nil hne, htail, hassign, ok_bind, hrest, List.take_left]
  rfl

/-- **A round folds a sequence in pairs.** -/
theorem foldRound_of_pairs (h : Pairs f xs ys) (hlen : 1 < xs.length) :
    foldRound f xs = .ok ys := by
  have hys := h.length_eq
  have htake : (ys.take (xs.length / 2)).length = xs.length / 2 := by
    rw [List.length_take]
    omega
  have hdrop : (xs.drop (xs.length / 2)).length = xs.length - xs.length / 2 := List.length_drop
  have hfolded : (ys.take (xs.length / 2) ++ xs.drop (xs.length / 2)).length = xs.length := by
    rw [List.length_append, htake, hdrop]
    omega
  rw [foldRound, foldPairs_of_pairs h _ (Nat.le_refl _), ok_bind, hfolded]
  by_cases hodd : xs.length % 2 = 1
  · obtain ⟨zs, last, rfl⟩ := ys.eq_nil_or_concat'.resolve_left
      (List.ne_nil_of_length_pos (by omega))
    rw [List.length_append, List.length_singleton] at hys
    rw [List.take_left' (by omega)] at htake ⊢
    have hlast : (xs.drop (xs.length / 2)).getLast? = some last := by
      rw [List.getLast?_drop, if_neg (by omega), ← h.getLast?_eq hodd, List.getLast?_concat]
    rw [if_pos (by omega), carry_append (by omega) (by omega) hlast]
  · rw [if_neg (by omega), List.take_append_of_le_length (Nat.le_of_eq htake.symm), List.take_take,
      Nat.min_self, List.take_of_length_le (by omega)]
    rfl

theorem foldAll_of_pairs (h : Pairs f xs ys) (hlen : 1 < xs.length) (fuel : ℕ) :
    foldAll f (fuel + 1) xs = foldAll f fuel ys := by
  rw [foldAll, if_pos hlen, foldRound_of_pairs h hlen, ok_bind]

/-! ### Folds that return

A fold that returns has folded every pair. So what every round keeps holds at the end
(`StratifiedHashTree.Pairing.foldAll_induct`), and a fold of related values returns as well
(`StratifiedHashTree.Pairing.foldAll_simulate`).
-/

/-- The first pairs, from the loop over them. -/
theorem pairs_of_foldPairs : ∀ {k : ℕ} {zs : List α}, k ≤ xs.length / 2 →
    (List.range k).foldlM (foldPair f) xs = .ok zs →
    ∃ ys, Pairs f (xs.take (k * 2)) ys ∧ zs = ys ++ xs.drop k
  | 0, zs, _, h => ⟨[], by rw [Nat.zero_mul, List.take_zero]; exact .nil, (Except.ok.inj h).symm⟩
  | k + 1, zs, hk, h => by
    rw [List.range_succ, List.foldlM_append, bind_eq_ok] at h
    obtain ⟨ws, hws, h⟩ := h
    rw [List.foldlM_cons, bind_eq_ok] at h
    obtain ⟨us, hus, h⟩ := h
    obtain rfl := Except.ok.inj h
    obtain ⟨ys, hys, rfl⟩ := pairs_of_foldPairs (Nat.le_of_succ_le hk) hws
    have hlen : ys.length = k := by
      rw [hys.length_eq, List.length_take]
      omega
    -- the pair that is read has not been written to yet
    have hget : ∀ (d : ℕ) (h : k + d < xs.length),
        (index (ys ++ xs.drop k) (k + d) : Outcome ε α) = .ok xs[k + d] := by
      intro d hd
      refine index_of_getElem? ?_
      rw [List.getElem?_append_right (by omega), hlen, Nat.add_sub_cancel_left, List.getElem?_drop,
        List.getElem?_eq_getElem hd]
    have h1 : k * 2 = k + k := Nat.mul_two k
    have h2 : k * 2 + 1 = k + (k + 1) := by omega
    rw [foldPair, h1, hget k (by omega), ok_bind, Nat.add_assoc, hget (k + 1) (by omega), ok_bind,
      bind_eq_ok] at hus
    obtain ⟨c, hc, hassign⟩ := hus
    rw [assign, if_pos (by rw [List.length_append, List.length_drop]; omega), Except.ok.injEq,
      List.set_append_right _ _ (Nat.le_of_eq hlen), hlen, Nat.sub_self,
      List.drop_eq_getElem_cons (by omega), List.set_cons_zero] at hassign
    refine ⟨ys ++ [c], ?_, ?_⟩
    · have htake : xs.take ((k + 1) * 2) = xs.take (k * 2) ++ [xs[k + k], xs[k + (k + 1)]] := by
        rw [Nat.succ_mul, List.take_add, List.drop_eq_getElem_cons (by omega),
          List.drop_eq_getElem_cons (by omega)]
        simp only [h1, List.take_succ_cons, List.take_zero, Nat.add_assoc]
      rw [htake]
      exact hys.append (by rw [List.length_take]; omega) (.pair hc .nil)
    · rw [← hassign, List.append_assoc, List.singleton_append]

/-- **A round that returns has folded the sequence in pairs.** -/
theorem pairs_of_foldRound (hlen : 1 < xs.length) (h : foldRound f xs = .ok ys) :
    Pairs f xs ys := by
  have h0 := h
  rw [foldRound, bind_eq_ok] at h
  obtain ⟨folded, hfolded, -⟩ := h
  obtain ⟨zs, hzs, -⟩ := pairs_of_foldPairs (Nat.le_refl _) hfolded
  have heven : (xs.take (xs.length / 2 * 2)).length % 2 = 0 := by
    rw [List.length_take]
    omega
  obtain ⟨us, hus⟩ : ∃ us, Pairs f (xs.drop (xs.length / 2 * 2)) us := by
    have hdrop : (xs.drop (xs.length / 2 * 2)).length = xs.length % 2 := by
      rw [List.length_drop]
      omega
    rcases Nat.mod_two_eq_zero_or_one xs.length with h | h
    · rw [h] at hdrop
      rw [List.eq_nil_of_length_eq_zero hdrop]
      exact ⟨[], .nil⟩
    · rw [h] at hdrop
      obtain ⟨a, ha⟩ := List.length_eq_one_iff.mp hdrop
      rw [ha]
      exact ⟨[a], .odd a⟩
  have hall := hzs.append heven hus
  rw [List.take_append_drop] at hall
  rw [foldRound_of_pairs hall hlen, Except.ok.injEq] at h0
  rwa [← h0]

/-- **What every round keeps holds at the end**, where at most one value is left. -/
theorem foldAll_induct {P : List α → Prop} (hP : ∀ {xs ys}, Pairs f xs ys → P xs → P ys) :
    ∀ {fuel : ℕ} {xs : List α}, foldAll f fuel xs = .ok ys → P xs → P ys ∧ ys.length ≤ 1
  | 0, _, h, _ => nomatch h
  | fuel + 1, xs, h, hxs => by
    rw [foldAll] at h
    by_cases hlen : 1 < xs.length
    · rw [if_pos hlen, bind_eq_ok] at h
      obtain ⟨zs, hzs, h⟩ := h
      exact foldAll_induct hP h (hP (pairs_of_foldRound hlen hzs) hxs)
    · rw [if_neg hlen] at h
      obtain rfl := Except.ok.inj h
      exact ⟨hxs, Nat.le_of_not_lt hlen⟩

section Simulation

variable {β : Type} {g : β → β → Outcome ε β} {R : α → β → Prop}

/-- Pairs of related values are folded to related values. -/
theorem Pairs.simulate
    (hg : ∀ {a b c a' b'}, R a a' → R b b' → f a b = .ok c → ∃ c', g a' b' = .ok c' ∧ R c c')
    (h : Pairs f xs ys) : ∀ {xs' : List β}, List.Forall₂ R xs xs' →
    ∃ ys', Pairs g xs' ys' ∧ List.Forall₂ R ys ys' := by
  induction h with
  | nil =>
    intro xs' h
    cases h
    exact ⟨[], .nil, .nil⟩
  | odd a =>
    rintro xs' (_ | ⟨ha, ⟨⟩⟩)
    exact ⟨_, .odd _, .cons ha .nil⟩
  | pair hf _ ih =>
    rintro xs' (_ | ⟨ha, _ | ⟨hb, hrest⟩⟩)
    obtain ⟨c', hc, hR⟩ := hg ha hb hf
    obtain ⟨ys', hys, hall⟩ := ih hrest
    exact ⟨c' :: ys', .pair hc hys, .cons hR hall⟩

/-- **Related sequences are folded to related ones**: the second fold returns when the first one
does. -/
theorem foldAll_simulate
    (hg : ∀ {a b c a' b'}, R a a' → R b b' → f a b = .ok c → ∃ c', g a' b' = .ok c' ∧ R c c') :
    ∀ {fuel : ℕ} {xs : List α} {xs' : List β}, List.Forall₂ R xs xs' → foldAll f fuel xs = .ok ys →
      ∃ ys', foldAll g fuel xs' = .ok ys' ∧ List.Forall₂ R ys ys'
  | 0, _, _, _, h => nomatch h
  | fuel + 1, xs, xs', hxs, h => by
    rw [foldAll] at h
    rw [foldAll, ← hxs.length_eq]
    by_cases hlen : 1 < xs.length
    · rw [if_pos hlen, bind_eq_ok] at h
      obtain ⟨us, hus, h⟩ := h
      obtain ⟨us', hus', hR⟩ := (pairs_of_foldRound hlen hus).simulate hg hxs
      rw [if_pos hlen, foldRound_of_pairs hus' (by rwa [← hxs.length_eq])]
      exact foldAll_simulate hg hR h
    · rw [if_neg hlen] at h
      obtain rfl := Except.ok.inj h
      rw [if_neg hlen]
      exact ⟨xs', rfl, hxs⟩

/-- Related sequences have related values at every place. -/
theorem index_simulate {xs' : List β} (h : List.Forall₂ R xs xs') {k : ℕ} {a : α}
    (hx : (index xs k : Outcome ε α) = .ok a) :
    ∃ b, (index xs' k : Outcome ε β) = .ok b ∧ R a b := by
  induction h generalizing k with
  | nil => exact nomatch hx
  | cons hR _ ih =>
    cases k with
    | zero =>
      obtain rfl := Except.ok.inj hx
      exact ⟨_, rfl, hR⟩
    | succ k => exact ih hx

/-- Related values, with related values folded into them. -/
theorem foldlM_simulate {γ γ' : Type} {f : α → γ → Outcome ε α} {g : β → γ' → Outcome ε β}
    {Q : γ → γ' → Prop}
    (hg : ∀ {a c a' x x'}, R a a' → Q x x' → f a x = .ok c → ∃ c', g a' x' = .ok c' ∧ R c c')
    {xs : List γ} {xs' : List γ'} (hxs : List.Forall₂ Q xs xs') : ∀ {a b : α} {a' : β},
    R a a' → xs.foldlM f a = .ok b → ∃ b', xs'.foldlM g a' = .ok b' ∧ R b b' := by
  induction hxs with
  | nil =>
    intro a b a' ha h
    obtain rfl := Except.ok.inj h
    exact ⟨a', rfl, ha⟩
  | cons hQ _ ih =>
    intro a b a' ha h
    rw [List.foldlM_cons, bind_eq_ok] at h
    obtain ⟨c, hc, h⟩ := h
    obtain ⟨c', hc', hR⟩ := hg ha hQ hc
    obtain ⟨b', hb, hR'⟩ := ih hR h
    exact ⟨b', by rw [List.foldlM_cons, hc', ok_bind, hb], hR'⟩

end Simulation

end Pairing

end StratifiedHashTree
