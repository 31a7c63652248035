import Mathlib.Tactic.Common

/-!
# Computations that fail exactly where a partial function has no value

`Simulates e x o Q`: `x` fails with `e` if `o` has no value, and otherwise returns what `Q` relates to it.
-/

namespace Fallible

def Simulates {ε α ι : Type} (e : ε) (x : Except ε α) (o : Option ι) (Q : ι → α → Prop) : Prop :=
  match o with
  | none => x = .error e
  | some i => ∃ a, x = .ok a ∧ Q i a

variable {ε α β ι κ : Type} {e : ε} {x : Except ε α} {o : Option ι} {Q Q' : ι → α → Prop} {R : κ → β → Prop}

theorem simulates_ok {i : ι} {a : α} (h : Q i a) : Simulates e (.ok a) (some i) Q := ⟨a, rfl, h⟩

theorem simulates_error : Simulates e (.error e : Except ε α) none Q := rfl

/-- Both sides go on with what they have. -/
theorem Simulates.bind {f : α → Except ε β} {g : ι → Option κ} (h : Simulates e x o Q)
    (hf : ∀ i a, o = some i → Q i a → Simulates e (f a) (g i) R) : Simulates e (x >>= f) (o >>= g) R := by
  cases o with
  | none =>
    have hx : x = .error e := h
    rw [hx]
    rfl
  | some i =>
    obtain ⟨a, rfl, ha⟩ := h
    exact hf i a rfl ha

/-- Steps of the computation alone, which do not fail. -/
theorem simulates_step {f : α → Except ε β} {g : Option κ} {P : α → Prop} (h : ∃ a, x = .ok a ∧ P a)
    (hf : ∀ a, P a → Simulates e (f a) g R) : Simulates e (x >>= f) g R := by
  obtain ⟨a, rfl, ha⟩ := h
  exact hf a ha

theorem Simulates.andThen {f : α → Except ε β} {R : ι → β → Prop} (h : Simulates e x o Q)
    (hf : ∀ i a, Q i a → ∃ b, f a = .ok b ∧ R i b) : Simulates e (x >>= f) o R := by
  cases o with
  | none =>
    have hx : x = .error e := h
    rw [hx]
    rfl
  | some i =>
    obtain ⟨a, rfl, ha⟩ := h
    exact hf i a ha

theorem simulates_ite {c : Prop} [Decidable c] {x' : Except ε α} {o' : Option ι} (h : c → Simulates e x o Q)
    (h' : ¬c → Simulates e x' o' Q) : Simulates e (if c then x else x') (if c then o else o') Q := by
  split
  next hc => exact h hc
  next hc => exact h' hc

theorem Simulates.mono (h : Simulates e x o Q) (hQ : ∀ i a, Q i a → Q' i a) : Simulates e x o Q' := by
  cases o with
  | none => exact h
  | some i =>
    obtain ⟨a, hx, ha⟩ := h
    exact ⟨a, hx, hQ i a ha⟩

theorem Simulates.isSome_iff (h : Simulates e x o Q) : (∃ a, x = .ok a) ↔ o.isSome := by
  cases o with
  | none =>
    have hx : x = .error e := h
    simp [hx]
  | some i =>
    obtain ⟨a, rfl, -⟩ := h
    simp

end Fallible
