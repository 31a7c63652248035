import Mathlib.Order.Defs.Unbundled
import Mathlib.Tactic.Common

/-!
# Weakest preconditions for stateful programs that can fail

A program is a `StateT σ (Except ε) α`. `wp allowed m Q s` says what `m` does from `s`:
it either ends in a result satisfying `Q`, or fails with an error in `allowed`. A proof of
`wp` therefore bounds the failures as well as the results.
-/

namespace Wp

variable {σ ε α β : Type}

/-- From `s`, `m` returns a result in `Q` or fails with an error in `allowed`. -/
def wp (allowed : ε → Prop) (m : StateT σ (Except ε) α) (Q : α → σ → Prop) (s : σ) : Prop :=
  match m.run s with
  | .ok (a, t) => Q a t
  | .error e => allowed e

variable {allowed : ε → Prop} {Q R : α → σ → Prop} {s : σ}

@[simp] theorem wp_pure (a : α) : wp allowed (pure a) Q s ↔ Q a s := Iff.rfl

@[simp] theorem wp_bind (m : StateT σ (Except ε) α) (f : α → StateT σ (Except ε) β)
    (Q : β → σ → Prop) :
    wp allowed (m >>= f) Q s ↔ wp allowed m (fun a t => wp allowed (f a) Q t) s := by
  simp only [wp, StateT.run_bind]
  cases h : m.run s with
  | error e => rfl
  | ok p => rfl

@[simp] theorem wp_map (m : StateT σ (Except ε) α) (f : α → β) (Q : β → σ → Prop) :
    wp allowed (f <$> m) Q s ↔ wp allowed m (fun a t => Q (f a) t) s := by
  rw [map_eq_pure_bind, wp_bind]
  rfl

@[simp] theorem wp_get (Q : σ → σ → Prop) :
    wp allowed (get : StateT σ (Except ε) σ) Q s ↔ Q s s := Iff.rfl

@[simp] theorem wp_set (t : σ) (Q : PUnit → σ → Prop) :
    wp allowed (set t : StateT σ (Except ε) PUnit) Q s ↔ Q ⟨⟩ t := Iff.rfl

@[simp] theorem wp_modify (f : σ → σ) (Q : PUnit → σ → Prop) :
    wp allowed (modify f : StateT σ (Except ε) PUnit) Q s ↔ Q ⟨⟩ (f s) := Iff.rfl

@[simp] theorem wp_throw (e : ε) :
    wp allowed (throw e : StateT σ (Except ε) α) Q s ↔ allowed e := Iff.rfl

@[simp] theorem wp_lift_ok (a : α) :
    wp allowed (liftM (.ok a : Except ε α) : StateT σ (Except ε) α) Q s ↔ Q a s := Iff.rfl

@[simp] theorem wp_lift_error (e : ε) :
    wp allowed (liftM (.error e : Except ε α) : StateT σ (Except ε) α) Q s ↔ allowed e := Iff.rfl

theorem wp_ite {c : Prop} [Decidable c] {m n : StateT σ (Except ε) α}
    (hm : c → wp allowed m Q s) (hn : ¬c → wp allowed n Q s) :
    wp allowed (if c then m else n) Q s := by
  split
  · exact hm ‹_›
  · exact hn ‹_›

/-- Consequence: a weaker result is still a result. -/
theorem wp_mono {m : StateT σ (Except ε) α} (h : wp allowed m R s)
    (hRQ : ∀ a t, R a t → Q a t) : wp allowed m Q s := by
  unfold wp at *
  split
  · rename_i a t heq
    rw [heq] at h
    exact hRQ a t h
  · rename_i e heq
    rw [heq] at h
    exact h

/-- More failures may be allowed. -/
theorem wp_allowed {allowed' : ε → Prop} {m : StateT σ (Except ε) α} (h : wp allowed m Q s)
    (he : ∀ e, allowed e → allowed' e) : wp allowed' m Q s := by
  unfold wp at *
  split
  · rename_i a t heq
    rw [heq] at h
    exact h
  · rename_i e heq
    rw [heq] at h
    exact he e h

/-- A program that cannot fail. -/
theorem wp_never {m : StateT σ (Except ε) α} (h : wp (fun _ => False) m Q s) : wp allowed m Q s :=
  wp_allowed h fun _ he => he.elim

theorem wp_true {m : StateT σ (Except ε) α} : wp (fun _ => True) m (fun _ _ => True) s := by
  unfold wp
  split
  · trivial
  · trivial

/-- A run that returns is the run that it is. -/
theorem wp_run {m : StateT σ (Except ε) α} : wp (fun _ => True) m (fun a t => m.run s = .ok (a, t)) s := by
  unfold wp
  split
  · assumption
  · trivial

/-- Sequencing through a known specification of the first part. -/
theorem wp_seq {m : StateT σ (Except ε) α} {f : α → StateT σ (Except ε) β}
    {Q : β → σ → Prop} (h : wp allowed m R s)
    (hf : ∀ a t, R a t → wp allowed (f a) Q t) : wp allowed (m >>= f) Q s :=
  (wp_bind m f Q).mpr (wp_mono h hf)

/-- Nothing needs to be known about the first part. -/
theorem wp_skip {m : StateT σ (Except ε) α} {f : α → StateT σ (Except ε) β} {Q : β → σ → Prop}
    (hf : ∀ a t, wp (fun _ => True) (f a) Q t) : wp (fun _ => True) (m >>= f) Q s :=
  wp_seq wp_true fun a t _ => hf a t

theorem wp_skip_ite {c : Prop} [Decidable c] {m n : StateT σ (Except ε) α}
    {f : α → StateT σ (Except ε) β} {Q : β → σ → Prop}
    (hf : ∀ a t, wp (fun _ => True) (f a) Q t) :
    wp (fun _ => True) (if c then m >>= f else n >>= f) Q s :=
  wp_ite (fun _ => wp_skip hf) fun _ => wp_skip hf

/-- A program that is run or not, in front of the rest. -/
theorem wp_seq_ite {c : Prop} [Decidable c] {m : StateT σ (Except ε) α} {a : α}
    {f : α → StateT σ (Except ε) β} {Q : β → σ → Prop} (h : wp allowed (if c then m else pure a) R s)
    (hf : ∀ a t, R a t → wp allowed (f a) Q t) : wp allowed (if c then m >>= f else f a) Q s := by
  by_cases hc : c
  · rw [if_pos hc] at h ⊢
    exact wp_seq h hf
  · rw [if_neg hc, wp_pure] at h
    rw [if_neg hc]
    exact hf a s h

theorem wp_seq_ite_bind {γ : Type} {c : Prop} [Decidable c] {m : StateT σ (Except ε) γ}
    {n : γ → StateT σ (Except ε) α} {a : α} {f : α → StateT σ (Except ε) β} {Q : β → σ → Prop}
    (h : wp allowed (if c then m >>= n else pure a) R s) (hf : ∀ a t, R a t → wp allowed (f a) Q t) :
    wp allowed (if c then m >>= fun x => n x >>= f else f a) Q s := by
  have hbind := wp_seq_ite h hf
  rw [bind_assoc] at hbind
  exact hbind

theorem run_bind_ok {m : StateT σ (Except ε) α} {f : α → StateT σ (Except ε) β} {a : α} {t : σ}
    (h : m.run s = .ok (a, t)) : (m >>= f).run s = (f a).run t := by
  rw [StateT.run_bind, h]
  rfl

/-- What a specification says about a run that succeeded. -/
theorem of_wp {m : StateT σ (Except ε) α} {a : α} {t : σ} (h : wp allowed m Q s)
    (hr : m.run s = .ok (a, t)) : Q a t := by
  unfold wp at h
  rw [hr] at h
  exact h

/-- What a specification says about a run that failed. -/
theorem error_of_wp {m : StateT σ (Except ε) α} {e : ε} (h : wp allowed m Q s)
    (hr : m.run s = .error e) : allowed e := by
  unfold wp at h
  rw [hr] at h
  exact h

/-- A program that cannot fail returns. -/
theorem returns_of_wp {m : StateT σ (Except ε) α} (h : wp (fun _ => False) m Q s) :
    ∃ a t, m.run s = .ok (a, t) ∧ Q a t := by
  cases hr : m.run s with
  | error e => exact (error_of_wp h hr).elim
  | ok p => exact ⟨p.1, p.2, rfl, of_wp h hr⟩

-- a goal about a program with a literal bound must not be evaluated
attribute [irreducible] wp

/-! ### What every run of a program keeps -/

/-- A run of `m` that returns has gone from a state to one that `R` relates to it. -/
def Stays (R : σ → σ → Prop) (m : StateT σ (Except ε) α) : Prop :=
  ∀ s, wp (fun _ => True) m (fun _ t => R s t) s

section Stays

variable {R : σ → σ → Prop} [IsPreorder σ R] {m n : StateT σ (Except ε) α}

theorem stays_pure (a : α) : Stays R (pure a : StateT σ (Except ε) α) :=
  fun s => (wp_pure a).mpr (refl_of R s)

omit [IsPreorder σ R] in
theorem stays_throw (e : ε) : Stays R (throw e : StateT σ (Except ε) α) :=
  fun _ => (wp_throw e).mpr trivial

theorem stays_bind {f : α → StateT σ (Except ε) β} (hm : Stays R m) (hf : ∀ a, Stays R (f a)) :
    Stays R (m >>= f) := by
  intro s
  refine wp_seq (hm s) fun a t hst => ?_
  exact wp_mono (hf a t) fun _ _ htu => trans_of R hst htu

omit [IsPreorder σ R] in
theorem stays_ite {c : Prop} [Decidable c] (hm : c → Stays R m) (hn : ¬c → Stays R n) :
    Stays R (if c then m else n) :=
  fun s => wp_ite (fun h => hm h s) fun h => hn h s

end Stays

/-! ### Counted loops -/

/-- `for (i = 0; i < n; ++i) body(i)`. -/
def forUpTo : ℕ → (ℕ → StateT σ (Except ε) PUnit) → StateT σ (Except ε) PUnit
  | 0, _ => pure ⟨⟩
  | n + 1, body => do
    forUpTo n body
    body n

/-- The loop rule: `I i` holds before pass `i`, so `I n` holds after the loop. -/
theorem wp_forUpTo {n : ℕ} {body : ℕ → StateT σ (Except ε) PUnit} {I : ℕ → σ → Prop}
    (h0 : I 0 s) (hstep : ∀ i t, i < n → I i t → wp allowed (body i) (fun _ => I (i + 1)) t) :
    wp allowed (forUpTo n body) (fun _ => I n) s := by
  induction n with
  | zero => exact (wp_pure _).mpr h0
  | succ n ih =>
    rw [forUpTo]
    refine wp_seq (ih fun i t hi => hstep i t (by omega)) ?_
    intro _ t ht
    exact hstep n t (by omega) ht

end Wp
