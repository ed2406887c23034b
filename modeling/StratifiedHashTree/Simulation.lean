import Mathlib.Data.List.Forall2
import StratifiedHashTree.Prog

/-!
# Programs that agree, and systems that answer alike

Two ways to compare what runs on different states.

*Programs.* `StratifiedHashTree.Prog.Agree R P Q x y` says that from states related by `R`
the programs `x` and `y` have the same outcome and leave related states behind. There are
two ways out. A failure of `x` in `P` is *excused*: it says where `x` may fail although `y`
does not. A failure of `y` in `Q` is *no promise*: it marks where `y` was not meant to be
asked, so that `x` need only agree with what `y` knows. The judgement is closed under
sequencing, so two programs with the same text agree as soon as the operations do that
they call. So is the simpler one that a program leaves something of its state alone
(`StratifiedHashTree.Prog.Keeps`), and the one that it only does what a relation allows
(`StratifiedHashTree.Prog.MovesAt`). Two programs that compute on different data, too, run in
lockstep when their results belong together (`StratifiedHashTree.Prog.Lockstep`); they may also
fail together, with different errors. What becomes of a program whose calls may fail is said by
the number of calls that it needs (`StratifiedHashTree.Prog.Spends`); and how many calls it makes
can be counted (`StratifiedHashTree.Prog.Counts`).

*Systems.* A system answers one request after the other. If each request is answered alike
from related states, so is every list of requests
(`StratifiedHashTree.runAll_forall₂`); and if it is answered alike exactly when some condition
holds before it, a run of requests is answered alike exactly when the condition holds all
along (`StratifiedHashTree.runAll_answers_iff`).
-/

namespace StratifiedHashTree

namespace Prog

variable {ε σ τ κ α β : Type}

/-- No failure at all. -/
def Never : Failure ε → Prop := fun _ => False

/-- Running out of steps, as a mark for what is not promised. -/
def Unknown : Failure ε → Prop := fun e => e = .outOfFuel

/-- **Two programs agree** at two states: they end alike, in related states. -/
def AgreeAt (R : σ → τ → Prop) (P Q : Failure ε → Prop) (x : Prog ε σ α) (y : Prog ε τ α) (s : σ)
    (t : τ) : Prop :=
  (∃ e, P e ∧ (x s).1 = .error e) ∨ (∃ e, Q e ∧ (y t).1 = .error e) ∨
    ((x s).1 = (y t).1 ∧ R (x s).2 (y t).2)

/-- Two programs agree at all related states. -/
def Agree (R : σ → τ → Prop) (P Q : Failure ε → Prop) (x : Prog ε σ α) (y : Prog ε τ α) : Prop :=
  ∀ ⦃s t⦄, R s t → AgreeAt R P Q x y s t

variable {R : σ → τ → Prop} {P Q : Failure ε → Prop}

theorem AgreeAt.of_eq {x : Prog ε σ α} {y : Prog ε τ α} {s s' : σ} {t t' : τ} {o : Outcome ε α}
    (hx : x s = (o, s')) (hy : y t = (o, t')) (h : R s' t') : AgreeAt R P Q x y s t := by
  refine Or.inr (Or.inr ?_)
  rw [hx, hy]
  exact ⟨rfl, h⟩

/-- Where `y` promises nothing, there is nothing to show. -/
theorem AgreeAt.of_unknown {x : Prog ε σ α} {y : Prog ε τ α} {s : σ} {t : τ}
    (h : (y t).1 = .error .outOfFuel) : AgreeAt R P Unknown x y s t := Or.inr (Or.inl ⟨_, rfl, h⟩)

/-- **The sequence rule.** -/
theorem AgreeAt.bind {x : Prog ε σ α} {y : Prog ε τ α} {f : α → Prog ε σ β} {g : α → Prog ε τ β}
    {s : σ} {t : τ} (hx : AgreeAt R P Q x y s t) (hf : ∀ a s' t', x s = (.ok a, s') →
      y t = (.ok a, t') → R s' t' → AgreeAt R P Q (f a) (g a) s' t') :
    AgreeAt R P Q (x >>= f) (y >>= g) s t := by
  rcases hxs : x s with ⟨e | a, s'⟩
  · rcases hx with ⟨e', he, h1⟩ | ⟨e', he, h1⟩ | ⟨h1, h2⟩
    · rw [hxs] at h1
      exact Or.inl ⟨e', he, by rw [bind_error hxs, Except.error.inj h1]⟩
    · exact Or.inr (Or.inl ⟨e', he, by rw [bind_error (Prod.ext h1 rfl)]⟩)
    · rw [hxs] at h1 h2
      have hyt : y t = (.error e, (y t).2) := Prod.ext h1.symm rfl
      exact .of_eq (bind_error hxs) (bind_error hyt) h2
  · rcases hx with ⟨e', he, h1⟩ | ⟨e', he, h1⟩ | ⟨h1, h2⟩
    · rw [hxs] at h1
      exact absurd h1 (by simp)
    · exact Or.inr (Or.inl ⟨e', he, by rw [bind_error (Prod.ext h1 rfl)]⟩)
    · rw [hxs] at h1 h2
      have hyt : y t = (.ok a, (y t).2) := Prod.ext h1.symm rfl
      have h3 := hf a s' _ hxs hyt h2
      rw [AgreeAt, bind_ok hxs, bind_ok hyt]
      exact h3

/-- Reading the states. -/
theorem AgreeAt.get {f : σ → Prog ε σ α} {g : τ → Prog ε τ α} {s : σ} {t : τ}
    (h : AgreeAt R P Q (f s) (g t) s t) : AgreeAt R P Q (Prog.get >>= f) (Prog.get >>= g) s t := h

/-- Values that are not the same, where each side goes on with its own. -/
theorem AgreeAt.ok_bind {γ : Type} {x : Prog ε σ α} {y : Prog ε τ β} {f : α → Prog ε σ γ}
    {g : β → Prog ε τ γ} {s s' : σ} {t t' : τ} {a : α} {b : β} (hx : x s = (.ok a, s'))
    (hy : y t = (.ok b, t')) (h : AgreeAt R P Q (f a) (g b) s' t') :
    AgreeAt R P Q (x >>= f) (y >>= g) s t := by
  rw [AgreeAt, bind_ok hx, bind_ok hy]
  exact h

/-- Going on with a value that both sides have. -/
theorem AgreeAt.lift_bind {f : α → Prog ε σ β} {g : α → Prog ε τ β} {s : σ} {t : τ} (hst : R s t)
    (o : Outcome ε α) (h : ∀ a, o = .ok a → AgreeAt R P Q (f a) (g a) s t) :
    AgreeAt R P Q (Prog.lift o >>= f) (Prog.lift o >>= g) s t := by
  cases o with
  | error e => exact .of_eq rfl rfl hst
  | ok a => exact h a rfl

namespace Agree

theorem pure (a : α) : Agree R P Q (Pure.pure a) (Pure.pure a) := fun _ _ h => .of_eq rfl rfl h

theorem lift (o : Outcome ε α) : Agree R P Q (Prog.lift o) (Prog.lift o) :=
  fun _ _ h => .of_eq rfl rfl h

theorem err (e : ε) : Agree R P Q (Prog.err e : Prog ε σ α) (Prog.err e) := lift _

/-- Running out of steps on both sides. -/
theorem stop (e : Failure ε) : Agree R P Q (fun s => (Except.error e, s) : Prog ε σ α)
    (fun t => (Except.error e, t)) := fun _ _ h => .of_eq rfl rfl h

theorem bind {x : Prog ε σ α} {y : Prog ε τ α} {f : α → Prog ε σ β} {g : α → Prog ε τ β}
    (hx : Agree R P Q x y) (hf : ∀ a, Agree R P Q (f a) (g a)) :
    Agree R P Q (x >>= f) (y >>= g) :=
  fun _ _ h => (hx h).bind fun a _ _ _ _ h' => hf a h'

end Agree

/-- Related states, each beside the same value. -/
def Beside (κ : Type) (R : σ → τ → Prop) : κ × σ → κ × τ → Prop := fun a b => a.1 = b.1 ∧ R a.2 b.2

/-- Programs that agree, each beside the same value. -/
theorem AgreeAt.onSnd {x : Prog ε σ α} {y : Prog ε τ α} {s : σ} {t : τ} (a : κ)
    (h : AgreeAt R P Q x y s t) :
    AgreeAt (Beside κ R) P Q (Prog.onSnd x) (Prog.onSnd y) (a, s) (a, t) := by
  rcases h with h1 | h1 | ⟨h1, h2⟩
  · exact Or.inl h1
  · exact Or.inr (Or.inl h1)
  · exact Or.inr (Or.inr ⟨h1, rfl, h2⟩)

theorem Agree.onSnd {x : Prog ε σ α} {y : Prog ε τ α} (h : Agree R P Q x y) :
    Agree (Beside κ R) P Q (Prog.onSnd x) (Prog.onSnd y) := by
  rintro ⟨a, s⟩ ⟨b, t⟩ ⟨hab, hst⟩
  obtain rfl : a = b := hab
  exact .onSnd a (h hst)

/-- Agreeing without a way out. -/
theorem AgreeAt.outcome {x : Prog ε σ α} {y : Prog ε τ α} {s : σ} {t : τ}
    (h : AgreeAt R Never Never x y s t) : (x s).1 = (y t).1 ∧ R (x s).2 (y t).2 := by
  rcases h with ⟨e, he, -⟩ | ⟨e, he, -⟩ | h
  · exact he.elim
  · exact he.elim
  · exact h

/-- Then any way out may be added. -/
theorem AgreeAt.weaken {x : Prog ε σ α} {y : Prog ε τ α} {s : σ} {t : τ}
    (h : AgreeAt R Never Never x y s t) : AgreeAt R P Q x y s t := Or.inr (Or.inr h.outcome)

theorem Agree.weaken {x : Prog ε σ α} {y : Prog ε τ α} (h : Agree R Never Never x y) :
    Agree R P Q x y := fun _ _ hst => (h hst).weaken

/-- When nothing is excused and `y` returns, so does `x`. -/
theorem AgreeAt.ok {x : Prog ε σ α} {y : Prog ε τ α} {s : σ} {t t' : τ} {a : α}
    (h : AgreeAt R Never Q x y s t) (hy : y t = (.ok a, t')) :
    ∃ s', x s = (.ok a, s') ∧ R s' t' := by
  rcases h with ⟨e, he, -⟩ | ⟨e, -, h1⟩ | ⟨h1, h2⟩
  · exact he.elim
  · rw [hy] at h1
    exact absurd h1 (by simp)
  · rw [hy] at h1 h2
    exact ⟨_, Prod.ext h1 rfl, h2⟩

/-! ### Reporting faults -/

/-- **A program does what another one does, or reports a fault.** What is known of its state then is
less than the relation between the two, but enough to go on from there. -/
def ReportsAt (I : σ → Prop) (R : σ → τ → Prop) (P : Failure ε → Prop) (x : Prog ε σ α)
    (y : Prog ε τ α) (s : σ) (t : τ) : Prop :=
  (∃ e, P e ∧ (x s).1 = .error e ∧ I (x s).2) ∨ ((x s).1 = (y t).1 ∧ R (x s).2 (y t).2)

/-- So it does from all related states. -/
def Reports (I : σ → Prop) (R : σ → τ → Prop) (P : Failure ε → Prop) (x : Prog ε σ α)
    (y : Prog ε τ α) : Prop := ∀ ⦃s t⦄, R s t → ReportsAt I R P x y s t

namespace ReportsAt

variable {I : σ → Prop} {x : Prog ε σ α} {y : Prog ε τ α} {s s' : σ} {t t' : τ}

theorem of_fault {e : Failure ε} (hx : x s = (.error e, s')) (he : P e) (h : I s') :
    ReportsAt I R P x y s t := by
  refine Or.inl ⟨e, he, ?_⟩
  rw [hx]
  exact ⟨rfl, h⟩

theorem of_eq {o : Outcome ε α} (hx : x s = (o, s')) (hy : y t = (o, t')) (h : R s' t') :
    ReportsAt I R P x y s t := by
  refine Or.inr ?_
  rw [hx, hy]
  exact ⟨rfl, h⟩

/-- **The sequence rule.** What follows need only be looked at where both have returned. -/
theorem bind {f : α → Prog ε σ β} {g : α → Prog ε τ β} (hx : ReportsAt I R P x y s t)
    (hf : ∀ a s' t', x s = (.ok a, s') → y t = (.ok a, t') → R s' t' →
      ReportsAt I R P (f a) (g a) s' t') : ReportsAt I R P (x >>= f) (y >>= g) s t := by
  rcases hx with ⟨e, he, h1, h2⟩ | ⟨h1, h2⟩
  · exact of_fault (bind_error (Prod.ext h1 rfl)) he h2
  · rcases hxs : x s with ⟨e | a, s'⟩
    · rw [hxs] at h1 h2
      exact of_eq (bind_error hxs) (bind_error (Prod.ext h1.symm rfl)) h2
    · rw [hxs] at h1 h2
      have hyt : y t = (.ok a, (y t).2) := Prod.ext h1.symm rfl
      have h3 := hf a s' _ hxs hyt h2
      rw [ReportsAt, bind_ok hxs, bind_ok hyt]
      exact h3

/-- Going on with a value that both sides have. -/
theorem lift_bind {f : α → Prog ε σ β} {g : α → Prog ε τ β} (hst : R s t) (o : Outcome ε α)
    (h : ∀ a, o = .ok a → ReportsAt I R P (f a) (g a) s t) :
    ReportsAt I R P (Prog.lift o >>= f) (Prog.lift o >>= g) s t := by
  cases o with
  | error e => exact of_eq rfl rfl hst
  | ok a => exact h a rfl

/-- Reading the states. -/
theorem get {f : σ → Prog ε σ α} {g : τ → Prog ε τ α} (h : ReportsAt I R P (f s) (g t) s t) :
    ReportsAt I R P (Prog.get >>= f) (Prog.get >>= g) s t := h

/-- Knowing less of the states. -/
theorem mono {I' : σ → Prop} {R' : σ → τ → Prop} (h : ReportsAt I R P x y s t)
    (hI : ∀ s, I s → I' s) (hR : ∀ s t, R s t → R' s t) : ReportsAt I' R' P x y s t :=
  h.imp (fun ⟨e, he, h1, h2⟩ => ⟨e, he, h1, hI _ h2⟩) fun ⟨h1, h2⟩ => ⟨h1, hR _ _ h2⟩

/-- Programs beside the same value. -/
theorem onSnd (a : κ) (h : ReportsAt I R P x y s t) :
    ReportsAt (fun s => I s.2) (Beside κ R) P (Prog.onSnd x) (Prog.onSnd y) (a, s) (a, t) :=
  h.imp_right fun h1 => ⟨h1.1, rfl, h1.2⟩

/-- Where there are no faults, programs agree. -/
theorem outcome (h : ReportsAt I R Never x y s t) : (x s).1 = (y t).1 ∧ R (x s).2 (y t).2 :=
  h.resolve_left fun ⟨_, he, _⟩ => he.elim

end ReportsAt

namespace Reports

variable {I : σ → Prop}

theorem pure (a : α) : Reports I R P (Pure.pure a) (Pure.pure a) := fun _ _ h => .of_eq rfl rfl h

theorem lift (o : Outcome ε α) : Reports I R P (Prog.lift o) (Prog.lift o) :=
  fun _ _ h => .of_eq rfl rfl h

/-- Running out of steps on both sides. -/
theorem stop (e : Failure ε) : Reports I R P (fun s => (Except.error e, s) : Prog ε σ α)
    (fun t => (Except.error e, t)) := fun _ _ h => .of_eq rfl rfl h

theorem bind {x : Prog ε σ α} {y : Prog ε τ α} {f : α → Prog ε σ β} {g : α → Prog ε τ β}
    (hx : Reports I R P x y) (hf : ∀ a, Reports I R P (f a) (g a)) :
    Reports I R P (x >>= f) (y >>= g) :=
  fun _ _ h => (hx h).bind fun a _ _ _ _ h' => hf a h'

/-- The fold rule. -/
theorem foldlM {f : β → α → Prog ε σ β} {g : β → α → Prog ε τ β}
    (hf : ∀ b a, Reports I R P (f b a) (g b a)) :
    ∀ (xs : List α) (b : β), Reports I R P (xs.foldlM f b) (xs.foldlM g b)
  | [], b => pure b
  | x :: xs, b => by
    rw [List.foldlM_cons, List.foldlM_cons]
    exact (hf b x).bind fun b' => foldlM hf xs b'

/-- Programs beside a value that neither of them sees. -/
theorem onSnd {x : Prog ε σ α} {y : Prog ε τ α} (h : Reports I R P x y) :
    Reports (fun s => I s.2) (Beside κ R) P (Prog.onSnd x) (Prog.onSnd y) := by
  rintro ⟨a, s⟩ ⟨b, t⟩ ⟨hab, hst⟩
  obtain rfl : a = b := hab
  exact .onSnd a (h hst)

/-- A program that sees nothing of the states. -/
theorem onFst (x : Prog ε κ α) :
    Reports (fun s => I s.2) (Beside κ R) P (Prog.onFst x) (Prog.onFst x) := by
  rintro ⟨a, s⟩ ⟨b, t⟩ ⟨hab, hst⟩
  obtain rfl : a = b := hab
  exact Or.inr ⟨rfl, rfl, hst⟩

end Reports

/-- States of two systems, each among some of its own. -/
def Both (I : σ → Prop) (J : τ → Prop) : σ → τ → Prop := fun s t => I s ∧ J t

/-- **A program returns a value, or reports a fault.** -/
def Yields (P : Failure ε → Prop) (I : σ → Prop) (a : α) (x : Prog ε σ α) (s : σ) : Prop :=
  (∃ e s', P e ∧ x s = (.error e, s')) ∨ ∃ s', x s = (.ok a, s') ∧ I s'

namespace Yields

variable {I : σ → Prop} {a : α} {b : β} {x : Prog ε σ α} {s t : σ}

theorem of_fault {e : Failure ε} (hx : x s = (.error e, t)) (he : P e) : Yields P I a x s :=
  Or.inl ⟨e, t, he, hx⟩

theorem of_eq (hx : x s = (.ok a, t)) (h : I t) : Yields P I a x s := Or.inr ⟨t, hx, h⟩

/-- What it returns is that of the run. -/
theorem congr {y : Prog ε σ α} (h : Yields P I a y s) (hx : x s = y s) : Yields P I a x s := by
  rwa [Yields, hx]

/-- **The sequence rule.** -/
theorem bind {K : σ → Prop} {f : α → Prog ε σ β} (hx : Yields P I a x s)
    (hf : ∀ s', I s' → Yields P K b (f a) s') : Yields P K b (x >>= f) s := by
  rcases hx with ⟨e, s', he, h⟩ | ⟨s', h, hs'⟩
  · exact of_fault (bind_error h) he
  · rw [Yields, bind_ok h]
    exact hf s' hs'

/-- When nothing counts as a fault, the program returns. -/
theorem ok (h : Yields Never I a x s) : ∃ s', x s = (.ok a, s') ∧ I s' :=
  h.resolve_left fun ⟨_, _, he, _⟩ => he.elim

end Yields

/-- When `y` returns, `x` does, or its failure is excused. -/
theorem AgreeAt.yields {x : Prog ε σ α} {y : Prog ε τ α} {s : σ} {t t' : τ} {a : α}
    (h : AgreeAt R P Q x y s t) (hy : y t = (.ok a, t')) : Yields P (fun s' => R s' t') a x s := by
  rcases h with ⟨e, he, h1⟩ | ⟨e, -, h1⟩ | ⟨h1, h2⟩
  · exact .of_fault (Prod.ext h1 rfl) he
  · rw [hy] at h1
    exact absurd h1 (by simp)
  · rw [hy] at h1 h2
    exact .of_eq (Prod.ext h1 rfl) h2

/-! ### In lockstep -/

/-- **Outcomes that match**: two results that belong together, the same failure, or two errors. -/
inductive Matches (A : α → β → Prop) : Outcome ε α → Outcome ε β → Prop
  | ok {a : α} {b : β} : A a b → Matches A (.ok a) (.ok b)
  | same (e : Failure ε) : Matches A (.error e) (.error e)
  | errors (e e' : ε) : Matches A (.error (.err e)) (.error (.err e'))

theorem Matches.of_eq {A : α → α → Prop} [Std.Refl A] {o o' : Outcome ε α} (h : o = o') :
    Matches A o o' := by
  subst h
  cases o with
  | ok a => exact .ok (Std.Refl.refl a)
  | error e => exact .same e

theorem Matches.map {γ δ : Type} {A : α → β → Prop} {B : γ → δ → Prop} {f : α → γ} {g : β → δ}
    (h : ∀ a b, A a b → B (f a) (g b)) {o : Outcome ε α} {o' : Outcome ε β} (ho : Matches A o o') :
    Matches B (o.map f) (o'.map g) := by
  cases ho with
  | ok hab => exact .ok (h _ _ hab)
  | same e => exact .same e
  | errors e e' => exact .errors e e'

/-- **Two programs run in lockstep** on two kinds of states: their outcomes match, and related
states stay related. What they compute may differ, as long as it belongs together. -/
def Lockstep (R : σ → τ → Prop) (A : α → β → Prop) (x : Prog ε σ α) (y : Prog ε τ β) : Prop :=
  ∀ ⦃s t⦄, R s t → Matches A (x s).1 (y t).1 ∧ R (x s).2 (y t).2

namespace Lockstep

variable {γ δ : Type} {A : α → β → Prop} {B : γ → δ → Prop}

theorem lift {o : Outcome ε α} {o' : Outcome ε β} (h : Matches A o o') :
    Lockstep R A (Prog.lift o) (Prog.lift o') := fun _ _ hst => ⟨h, hst⟩

theorem pure {a : α} {b : β} (h : A a b) :
    Lockstep R A (Pure.pure a : Prog ε σ α) (Pure.pure b : Prog ε τ β) := lift (.ok h)

/-- What runs out of steps does so on either side. -/
theorem stop (e : Failure ε) : Lockstep R A (fun s => (Except.error e, s) : Prog ε σ α)
    (fun t => (Except.error e, t) : Prog ε τ β) := fun _ _ hst => ⟨.same e, hst⟩

theorem bind {x : Prog ε σ α} {y : Prog ε τ β} {f : α → Prog ε σ γ} {g : β → Prog ε τ δ}
    (hx : Lockstep R A x y) (hf : ∀ a b, A a b → Lockstep R B (f a) (g b)) :
    Lockstep R B (x >>= f) (y >>= g) := by
  intro s t hst
  obtain ⟨hmatch, hnext⟩ := hx hst
  rw [Prog.bind_run, Prog.bind_run]
  rcases hxs : x s with ⟨o, s'⟩
  rcases hyt : y t with ⟨o', t'⟩
  rw [hxs, hyt] at hmatch hnext
  cases hmatch with
  | ok hab => exact hf _ _ hab hnext
  | same e => exact ⟨.same e, hnext⟩
  | errors e e' => exact ⟨.errors e e', hnext⟩

/-- The same step without a state on either side. -/
theorem lift_bind (o : Outcome ε γ) {f : γ → Prog ε σ α} {g : γ → Prog ε τ β}
    (hf : ∀ c, o = .ok c → Lockstep R A (f c) (g c)) :
    Lockstep R A (Prog.lift o >>= f) (Prog.lift o >>= g) := by
  cases o with
  | ok c => exact hf c rfl
  | error e => exact fun _ _ hst => ⟨.same e, hst⟩

theorem onSnd {x : Prog ε σ α} {y : Prog ε τ β} (h : Lockstep R A x y) :
    Lockstep (Beside κ R) A (Prog.onSnd x) (Prog.onSnd y) := by
  rintro ⟨a, s⟩ ⟨b, t⟩ ⟨hab, hst⟩
  obtain ⟨hmatch, hnext⟩ := h hst
  exact ⟨hmatch, hab, hnext⟩

theorem onFst (x : Prog ε κ α) : Lockstep (Beside κ R) Eq (Prog.onFst x) (Prog.onFst x) := by
  rintro ⟨a, s⟩ ⟨b, t⟩ ⟨hab, hst⟩
  obtain rfl : a = b := hab
  exact ⟨.of_eq rfl, rfl, hst⟩

end Lockstep

/-! ### Leaving something alone -/

/-- **A program leaves something alone** that can be seen in its state. -/
def Keeps (f : σ → κ) (x : Prog ε σ α) : Prop := ∀ s, f (x s).2 = f s

namespace Keeps

variable {f : σ → κ}

theorem pure (a : α) : Keeps f (Pure.pure a : Prog ε σ α) := fun _ => rfl

theorem lift (o : Outcome ε α) : Keeps f (Prog.lift o : Prog ε σ α) := fun _ => rfl

theorem stop (e : Failure ε) : Keeps f (fun s => (Except.error e, s) : Prog ε σ α) := fun _ => rfl

theorem bind {x : Prog ε σ α} {g : α → Prog ε σ β} (hx : Keeps f x) (hg : ∀ a, Keeps f (g a)) :
    Keeps f (x >>= g) := by
  intro s
  have h := hx s
  rcases hxs : x s with ⟨e | a, s'⟩
  · rw [hxs] at h
    rw [bind_error hxs]
    exact h
  · rw [hxs] at h
    rw [bind_ok hxs]
    exact (hg a s').trans h

/-- A program on the other part of the state. -/
theorem onFst (x : Prog ε κ α) : Keeps Prod.snd (Prog.onFst x : Prog ε (κ × σ) α) := fun _ => rfl

theorem onSnd {x : Prog ε σ α} (h : Keeps id x) :
    Keeps Prod.snd (Prog.onSnd x : Prog ε (κ × σ) α) := fun s => h s.2

end Keeps

/-! ### Moving along a relation -/

/-- **A program moves along a relation** from a state, whatever its outcome is. -/
def MovesAt (M : σ → σ → Prop) (x : Prog ε σ α) (s : σ) : Prop := M s (x s).2

namespace MovesAt

variable {M : σ → σ → Prop}

theorem lift [Std.Refl M] (o : Outcome ε α) (s : σ) : MovesAt M (Prog.lift o) s :=
  Std.Refl.refl s

theorem pure [Std.Refl M] (a : α) (s : σ) : MovesAt M (Pure.pure a : Prog ε σ α) s :=
  Std.Refl.refl s

/-- Reading the state. -/
theorem get_bind {f : σ → Prog ε σ α} {s : σ} (h : MovesAt M (f s) s) :
    MovesAt M (Prog.get >>= f) s := h

theorem bind [IsTrans σ M] {x : Prog ε σ α} {f : α → Prog ε σ β} {s : σ} (hx : MovesAt M x s)
    (hf : ∀ a s', x s = (.ok a, s') → MovesAt M (f a) s') : MovesAt M (x >>= f) s := by
  rcases hxs : x s with ⟨e | a, s'⟩
  · rw [MovesAt, bind_error hxs]
    rwa [MovesAt, hxs] at hx
  · rw [MovesAt, hxs] at hx
    rw [MovesAt, bind_ok hxs]
    exact IsTrans.trans _ _ _ hx (hf a s' hxs)

end MovesAt

/-! ### Only looking -/

/-- **A program that returns has only looked**: the state is what it was, and something holds of
what is returned. -/
def Looks (s : σ) (P : α → Prop) (x : Prog ε σ α) : Prop :=
  ∀ a s', x s = (.ok a, s') → s' = s ∧ P a

namespace Looks

variable {s : σ} {P : α → Prop} {Q : β → Prop}

theorem lift {o : Outcome ε α} (h : ∀ a, o = .ok a → P a) : Looks s P (Prog.lift o) := by
  intro a s' hx
  obtain ⟨h1, h2⟩ := Prod.mk.inj hx
  exact ⟨h2.symm, h a h1⟩

theorem pure {a : α} (h : P a) : Looks s P (Pure.pure a : Prog ε σ α) :=
  lift fun _ ha => Except.ok.inj ha ▸ h

theorem bind {x : Prog ε σ α} {f : α → Prog ε σ β} (hx : Looks s P x)
    (hf : ∀ a, P a → Looks s Q (f a)) : Looks s Q (x >>= f) := by
  intro b s'' hb
  obtain ⟨a, s', h1, h2⟩ := bind_eq_ok.mp hb
  obtain ⟨rfl, h3⟩ := hx a s' h1
  exact hf a h3 b s'' h2

theorem mono {P' : α → Prop} {x : Prog ε σ α} (hx : Looks s P x) (h : ∀ a, P a → P' a) :
    Looks s P' x := fun a s' ha => ⟨(hx a s' ha).1, h a (hx a s' ha).2⟩

/-- The fold rule. -/
theorem foldlM {f : β → α → Prog ε σ β} : ∀ (xs : List α) {b : β},
    (∀ x ∈ xs, ∀ b, Q b → Looks s Q (f b x)) → Q b → Looks s Q (xs.foldlM f b)
  | [], _, _, hb => pure hb
  | x :: xs, b, h, hb => by
    rw [List.foldlM_cons]
    exact (h x List.mem_cons_self b hb).bind fun b' hb' =>
      foldlM xs (fun y hy => h y (List.mem_cons_of_mem _ hy)) hb'

/-- A fold that returns has returned at each of its steps. -/
theorem of_foldlM {f : β → α → Prog ε σ β} : ∀ (xs : List α) {b b' : β} {s' : σ},
    (∀ x ∈ xs, ∀ b, Q b → Looks s Q (f b x)) → Q b → xs.foldlM f b s = (.ok b', s') →
    ∀ x ∈ xs, ∃ c c', f c x s = (.ok c', s)
  | [], _, _, _, _, _, _ => fun x hx => absurd hx List.not_mem_nil
  | x :: xs, b, b', s', h, hb, hrun => by
    rw [List.foldlM_cons] at hrun
    obtain ⟨c, s1, h1, h2⟩ := bind_eq_ok.mp hrun
    obtain ⟨hs, hc⟩ := h x List.mem_cons_self b hb c s1 h1
    rw [hs] at h1 h2
    intro y hy
    rcases List.mem_cons.mp hy with rfl | hy
    · exact ⟨b, c, h1⟩
    · exact of_foldlM xs (fun z hz => h z (List.mem_cons_of_mem _ hz)) hc h2 y hy

end Looks

/-! ### Keeping an invariant -/

/-- **A program keeps an invariant**, whatever its outcome is. -/
def Preserves (I : σ → Prop) (x : Prog ε σ α) : Prop := ∀ s, I s → I (x s).2

namespace Preserves

variable {I : σ → Prop}

theorem lift (o : Outcome ε α) : Preserves I (Prog.lift o : Prog ε σ α) := fun _ hs => hs

theorem pure (a : α) : Preserves I (Pure.pure a : Prog ε σ α) := fun _ hs => hs

theorem bind {x : Prog ε σ α} {f : α → Prog ε σ β} (hx : Preserves I x)
    (hf : ∀ a, Preserves I (f a)) : Preserves I (x >>= f) := by
  intro s hs
  have h := hx s hs
  rcases hxs : x s with ⟨e | a, s'⟩
  · rw [hxs] at h
    rwa [bind_error hxs]
  · rw [hxs] at h
    rw [bind_ok hxs]
    exact hf a s' h

/-- The fold rule. -/
theorem foldlM {f : β → α → Prog ε σ β} (hf : ∀ b a, Preserves I (f b a)) :
    ∀ (xs : List α) (b : β), Preserves I (xs.foldlM f b)
  | [], b => pure b
  | x :: xs, b => by
    rw [List.foldlM_cons]
    exact (hf b x).bind fun b' => foldlM hf xs b'

end Preserves

/-! ### A limited number of calls -/

/-- **One of a limited number of calls.** The state counts those that will still succeed; when
there is none left, the call fails, and something may have happened all the same. -/
def attempt (e : ε) (spoil : σ → σ) (x : Prog ε σ α) : Prog ε (σ × ℕ) α
  | (s, 0) => (.error (.err e), (spoil s, 0))
  | (s, calls + 1) => ((x s).1, ((x s).2, calls))

/-- **A program spends calls**: it takes so many of them to return a value, and leaves the rest of
the state as it is; with fewer of them it fails. -/
def Spends (e : ε) (s : σ) (k : ℕ) (a : α) (x : Prog ε (σ × ℕ) α) : Prop :=
  ∀ calls, x (s, calls) =
    if k ≤ calls then (.ok a, (s, calls - k)) else (.error (.err e), (s, 0))

theorem attempt_succ (e : ε) (spoil : σ → σ) {x : Prog ε σ α} {s s' : σ} {o : Outcome ε α}
    (h : x s = (o, s')) (calls : ℕ) : attempt e spoil x (s, calls + 1) = (o, (s', calls)) := by
  rw [attempt, h]

/-- A call leaves alone what the program does, if the failing ones do nothing. -/
theorem Preserves.attempt {e : ε} {x : Prog ε σ α} {s : σ} (h : (x s).2 = s) :
    Preserves (fun t : σ × ℕ => t.1 = s) (attempt e id x)
  | (_, 0), hs => hs
  | (_, calls + 1), hs => by
    obtain rfl := hs
    exact h

namespace Spends

variable {e : ε} {s : σ} {k m : ℕ} {a : α} {b : β}

theorem pure (a : α) : Spends e s 0 a (Pure.pure a) := fun calls => by
  rw [if_pos (Nat.zero_le calls)]
  rfl

theorem attempt {x : Prog ε σ α} (h : x s = (.ok a, s)) :
    Spends e s 1 a (attempt e id x) := by
  intro calls
  cases calls with
  | zero => rfl
  | succ calls =>
    rw [attempt_succ e id h, if_pos (Nat.le_add_left 1 calls)]
    rfl

/-- **The sequence rule.** -/
theorem bind {x : Prog ε (σ × ℕ) α} {f : α → Prog ε (σ × ℕ) β} (hx : Spends e s k a x)
    (hf : Spends e s m b (f a)) : Spends e s (k + m) b (x >>= f) := by
  intro calls
  have h1 := hx calls
  by_cases hk : k ≤ calls
  · rw [if_pos hk] at h1
    rw [bind_ok h1, hf (calls - k), Nat.sub_sub]
    by_cases hm : m ≤ calls - k
    · rw [if_pos hm, if_pos (by omega)]
    · rw [if_neg hm, if_neg (by omega)]
  · rw [if_neg hk] at h1
    rw [bind_error h1, if_neg (by omega)]

end Spends

/-! ### Counted calls -/

/-- **A call that is counted.** -/
def counted (x : Prog ε σ α) : Prog ε (σ × ℕ) α := fun s => ((x s.1).1, ((x s.1).2, s.2 + 1))

/-- **A program makes so many counted calls**: it returns a value, and leaves the rest of the state
as it is. -/
def Counts (s : σ) (k : ℕ) (a : α) (x : Prog ε (σ × ℕ) α) : Prop :=
  ∀ m, x (s, m) = (.ok a, (s, m + k))

namespace Counts

variable {s : σ} {k m : ℕ} {a : α} {b : β}

theorem pure (a : α) : Counts s 0 a (Pure.pure a : Prog ε (σ × ℕ) α) := fun _ => rfl

theorem counted {x : Prog ε σ α} (h : x s = (.ok a, s)) : Counts s 1 a (counted x) := by
  intro m
  rw [Prog.counted, h]

/-- **The sequence rule.** -/
theorem bind {x : Prog ε (σ × ℕ) α} {f : α → Prog ε (σ × ℕ) β} (hx : Counts s k a x)
    (hf : Counts s m b (f a)) : Counts s (k + m) b (x >>= f) := by
  intro calls
  rw [bind_ok (hx calls), hf (calls + k), Nat.add_assoc]

end Counts

end Prog

/-! ### Systems -/

section Systems

variable {Op Ans σ τ : Type*}

/-- Answering a list of requests. -/
def runAll (step : Op → σ → Ans × σ) : List Op → σ → List Ans × σ
  | [], s => ([], s)
  | op :: ops, s =>
    ((step op s).1 :: (runAll step ops (step op s).2).1, (runAll step ops (step op s).2).2)

theorem runAll_map {Op' : Type*} (step : Op → σ → Ans × σ) (f : Op' → Op) :
    ∀ (ops : List Op') (s : σ), runAll step (ops.map f) s = runAll (fun op => step (f op)) ops s
  | [], _ => rfl
  | op :: ops, s => by rw [List.map_cons, runAll, runAll, runAll_map step f ops]

/-- A condition holds before each of the requests. -/
def Always (step : Op → τ → Ans × τ) (guard : Op → τ → Prop) : List Op → τ → Prop
  | [], _ => True
  | op :: ops, t => guard op t ∧ Always step guard ops (step op t).2

variable {step : Op → σ → Ans × σ} {step' : Op → τ → Ans × τ} {R : σ → τ → Prop}
  {guard : Op → τ → Prop}

/-- A condition that always holds holds all along. -/
theorem always_of_forall (h : ∀ op t, guard op t) :
    ∀ (ops : List Op) (t : τ), Always step' guard ops t
  | [], _ => trivial
  | op :: ops, t => ⟨h op t, always_of_forall h ops _⟩

/-- A weaker condition holds all along, too. -/
theorem Always.mono {guard' : Op → τ → Prop} (h : ∀ op t, guard op t → guard' op t) :
    ∀ (ops : List Op) {t : τ}, Always step' guard ops t → Always step' guard' ops t
  | [], _, _ => trivial
  | op :: ops, t, hg => ⟨h op t hg.1, Always.mono h ops hg.2⟩

/-- What holds all along does not depend on the answers. -/
theorem Always.of_state {Ans' : Type*} {other : Op → τ → Ans' × τ} {ops : List Op} {t : τ}
    (hg : Always step' guard ops t) (h : ∀ op t, (other op t).2 = (step' op t).2) :
    Always other guard ops t := by
  induction ops generalizing t with
  | nil => trivial
  | cons op ops ih =>
    refine ⟨hg.1, ?_⟩
    rw [h]
    exact ih hg.2

/-- **Runs are answered alike exactly when each of their requests is.** Whether it is may
depend on something else that changes along the run. What relates the states need only be
kept where the answers are alike. -/
theorem runAll_answers_iff {γ Ans' : Type*} {after : Op → γ → Ans' × γ} {guard good : Op → γ → Prop}
    {R : σ → τ → γ → Prop} (hstep : ∀ op s t c, R s t c → guard op c →
      ((step op s).1 = (step' op t).1 ↔ good op c) ∧
        (good op c → R (step op s).2 (step' op t).2 (after op c).2)) :
    ∀ (ops : List Op) (s : σ) (t : τ) (c : γ), R s t c → Always after guard ops c →
      ((runAll step ops s).1 = (runAll step' ops t).1 ↔ Always after good ops c)
  | [], _, _, _, _, _ => ⟨fun _ => trivial, fun _ => rfl⟩
  | op :: ops, s, t, c, h, hg => by
    obtain ⟨h1, h2⟩ := hstep op s t c h hg.1
    rw [runAll, runAll, Always, List.cons.injEq, h1]
    exact and_congr_right fun h3 => runAll_answers_iff hstep ops _ _ _ (h2 h3) hg.2

/-- **Runs are answered alike when each of their requests is**, whatever it means for two
answers to be alike. -/
theorem runAll_forall₂ {Ans' : Type*} {step' : Op → τ → Ans' × τ} {A : Ans → Ans' → Prop}
    {guard : Op → τ → Prop} (hstep : ∀ op s t, R s t → guard op t →
      A (step op s).1 (step' op t).1 ∧ R (step op s).2 (step' op t).2) :
    ∀ (ops : List Op) (s : σ) (t : τ), R s t → Always step' guard ops t →
      List.Forall₂ A (runAll step ops s).1 (runAll step' ops t).1 ∧
        R (runAll step ops s).2 (runAll step' ops t).2
  | [], _, _, h, _ => ⟨.nil, h⟩
  | op :: ops, s, t, h, hg => by
    obtain ⟨h1, h2⟩ := hstep op s t h hg.1
    obtain ⟨h3, h4⟩ := runAll_forall₂ hstep ops _ _ h2 hg.2
    exact ⟨.cons h1 h3, h4⟩

/-- **Runs are answered equally when each of their requests is.** -/
theorem runAll_eq (hstep : ∀ op s t, R s t → guard op t →
      (step op s).1 = (step' op t).1 ∧ R (step op s).2 (step' op t).2) (ops : List Op) (s : σ)
    (t : τ) (h : R s t) (hg : Always step' guard ops t) :
    (runAll step ops s).1 = (runAll step' ops t).1 ∧
      R (runAll step ops s).2 (runAll step' ops t).2 := by
  obtain ⟨h1, h2⟩ := runAll_forall₂ (A := Eq) hstep ops s t h hg
  rw [List.forall₂_eq_eq_eq] at h1
  exact ⟨h1, h2⟩

end Systems

/-! ### Requests that are refused -/

section Refusals

variable {Op Ans σ τ : Type*}

/-- The requests of a run that are not refused. -/
def accepted (step : Op → σ → Ans × σ) (refused : Ans → Bool) : List Op → σ → List Op
  | [], _ => []
  | op :: ops, s =>
    if refused (step op s).1 then accepted step refused ops (step op s).2
    else op :: accepted step refused ops (step op s).2

/-- **Requests that are refused might as well not have been made**, if each of them leaves the
states related, and each of the others is answered alike. What relates the states may depend on how
many requests are still to come. -/
theorem runAll_accepted (refused : Ans → Bool) {step : Op → σ → Ans × σ} {step' : Op → τ → Ans × τ}
    {permitted : Op → Prop} {R : ℕ → σ → τ → Prop}
    (hstep : ∀ k op s t, permitted op → R (k + 1) s t →
      if refused (step op s).1 then R k (step op s).2 t
      else (step op s).1 = (step' op t).1 ∧ R k (step op s).2 (step' op t).2) :
    ∀ (ops : List Op) (s : σ) (t : τ), (∀ op ∈ ops, permitted op) → R ops.length s t →
      (runAll step ops s).1.filter (fun a => !refused a) =
          (runAll step' (accepted step refused ops s) t).1 ∧
        R 0 (runAll step ops s).2 (runAll step' (accepted step refused ops s) t).2
  | [], _, _, _, h => ⟨rfl, h⟩
  | op :: ops, s, t, hops, h => by
    obtain ⟨hop, hops⟩ := List.forall_mem_cons.mp hops
    have h1 := hstep ops.length op s t hop h
    rw [runAll, accepted]
    cases hrefused : refused (step op s).1 with
    | true =>
      rw [hrefused, if_pos rfl] at h1
      rw [if_pos rfl, List.filter_cons_of_neg (by rw [hrefused]; decide)]
      exact runAll_accepted refused hstep ops _ _ hops h1
    | false =>
      rw [hrefused, if_neg Bool.false_ne_true] at h1
      obtain ⟨h2, h3⟩ := runAll_accepted refused hstep ops _ _ hops h1.2
      rw [if_neg Bool.false_ne_true, List.filter_cons_of_pos (by rw [hrefused]; decide), runAll]
      exact ⟨List.cons_eq_cons.mpr ⟨h1.1, h2⟩, h3⟩

end Refusals

/-! ### Parties that share a system -/

section Parties

variable {ι Op Ans α σ τ : Type*} [DecidableEq ι]

/-- What belongs to one of several parties. -/
def ofParty (i : ι) (xs : List (ι × α)) : List α :=
  xs.filterMap fun x => if x.1 = i then some x.2 else none

theorem ofParty_cons_self (i : ι) (x : α) (xs : List (ι × α)) :
    ofParty i ((i, x) :: xs) = x :: ofParty i xs := by simp [ofParty]

theorem ofParty_cons_ne {i j : ι} (hne : j ≠ i) (x : α) (xs : List (ι × α)) :
    ofParty i ((j, x) :: xs) = ofParty i xs := by simp [ofParty, hne]

/-- A request of a party; the answer is for the same one. -/
def serveParty (step : ι → Op → τ → Ans × τ) (request : ι × Op) (t : τ) : (ι × Ans) × τ :=
  ((request.1, (step request.1 request.2 t).1), (step request.1 request.2 t).2)

/-- **Each party gets the answers of a system of its own** that is given its own requests only, if
each single request is answered so, and whatever relates the states to those of the others is
kept. -/
theorem runAll_apart {step : ι → Op → τ → Ans × τ} {alone : Op → σ → Ans × σ}
    {guard : Op → σ → Prop} {R : (ι → σ) → τ → Prop}
    (hstep : ∀ i op s t, R s t → guard op (s i) → (step i op t).1 = (alone op (s i)).1 ∧
      R (Function.update s i (alone op (s i)).2) (step i op t).2) :
    ∀ (requests : List (ι × Op)) (s : ι → σ) (t : τ), R s t →
      (∀ i, Always alone guard (ofParty i requests) (s i)) →
      (∀ i, ofParty i (runAll (serveParty step) requests t).1 =
        (runAll alone (ofParty i requests) (s i)).1) ∧
      ∃ s', R s' (runAll (serveParty step) requests t).2
  | [], s, t, h, _ => ⟨fun _ => rfl, s, h⟩
  | (j, op) :: requests, s, t, h, hg => by
    have hj := hg j
    rw [ofParty_cons_self] at hj
    obtain ⟨h1, h2⟩ := hstep j op s t h hj.1
    obtain ⟨h3, h4⟩ := runAll_apart hstep requests _ _ h2 fun i => by
      by_cases hi : j = i
      · subst hi
        rw [Function.update_self]
        exact hj.2
      · rw [Function.update_of_ne (Ne.symm hi)]
        have hi' := hg i
        rwa [ofParty_cons_ne hi] at hi'
    refine ⟨fun i => ?_, h4⟩
    rw [runAll]
    by_cases hi : j = i
    · subst hi
      rw [ofParty_cons_self, runAll, serveParty, ofParty_cons_self]
      have h5 := h3 j
      rw [Function.update_self] at h5
      exact List.cons_eq_cons.mpr ⟨h1, h5⟩
    · rw [ofParty_cons_ne hi, serveParty, ofParty_cons_ne hi]
      have h5 := h3 i
      rwa [Function.update_of_ne (Ne.symm hi)] at h5

end Parties

end StratifiedHashTree
