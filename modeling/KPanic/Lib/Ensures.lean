import Mathlib.Tactic.Common

/-!
# Postconditions of computations that can fail

`Ensures allowed r Q`: `r` is a value that satisfies `Q`, or an error in `allowed`.
-/

namespace Fallible

variable {ε α β : Type}

def Ensures (allowed : ε → Prop) (r : Except ε α) (Q : α → Prop) : Prop :=
  match r with
  | .ok a => Q a
  | .error e => allowed e

variable {allowed : ε → Prop} {Q R : α → Prop} {r : Except ε α}

@[simp] theorem ensures_ok (a : α) : Ensures allowed (.ok a) Q ↔ Q a := Iff.rfl

@[simp] theorem ensures_pure (a : α) : Ensures allowed (pure a) Q ↔ Q a := Iff.rfl

@[simp] theorem ensures_error (e : ε) :
    Ensures allowed (.error e : Except ε α) Q ↔ allowed e := Iff.rfl

@[simp] theorem ensures_throw (e : ε) :
    Ensures allowed (throw e : Except ε α) Q ↔ allowed e := Iff.rfl

@[simp] theorem ensures_bind (f : α → Except ε β) (Q : β → Prop) :
    Ensures allowed (r >>= f) Q ↔ Ensures allowed r fun a => Ensures allowed (f a) Q := by
  cases r with
  | error e => rfl
  | ok a => rfl

theorem bind_eq_ok {f : α → Except ε β} {b : β} : (r >>= f) = .ok b ↔ ∃ a, r = .ok a ∧ f a = .ok b := by
  cases r with
  | error e => exact ⟨fun h => (by cases h), fun ⟨_, h, _⟩ => (by cases h)⟩
  | ok a => exact ⟨fun h => ⟨a, rfl, h⟩, fun ⟨_, ha, h⟩ => Except.ok.inj ha ▸ h⟩

@[simp] theorem ensures_map (f : α → β) (Q : β → Prop) :
    Ensures allowed (f <$> r) Q ↔ Ensures allowed r fun a => Q (f a) := by
  cases r with
  | error e => rfl
  | ok a => rfl

theorem ensures_ite {p : Prop} [Decidable p] {r' : Except ε α} (h : p → Ensures allowed r Q)
    (h' : ¬p → Ensures allowed r' Q) : Ensures allowed (if p then r else r') Q := by
  split
  next hp => exact h hp
  next hp => exact h' hp

theorem Ensures.mono (h : Ensures allowed r R) (hRQ : ∀ a, R a → Q a) : Ensures allowed r Q := by
  cases r with
  | error e => exact h
  | ok a => exact hRQ a h

theorem Ensures.allow {allowed' : ε → Prop} (h : Ensures allowed r Q) (hε : ∀ e, allowed e → allowed' e) :
    Ensures allowed' r Q := by
  cases r with
  | error e => exact hε e h
  | ok a => exact h

theorem ensures_true : Ensures (fun _ => True) r fun _ => True := by
  cases r with
  | error e => trivial
  | ok a => trivial

/-- Sequencing through a known specification of the first part. -/
theorem Ensures.seq {f : α → Except ε β} {Q : β → Prop} (h : Ensures allowed r R)
    (hf : ∀ a, R a → Ensures allowed (f a) Q) : Ensures allowed (r >>= f) Q :=
  (ensures_bind f Q).mpr (h.mono hf)

theorem Ensures.ok {a : α} (h : Ensures allowed r Q) (hr : r = .ok a) : Q a := by
  rw [hr] at h
  exact h

theorem Ensures.error {e : ε} (h : Ensures allowed r Q) (hr : r = .error e) : allowed e := by
  rw [hr] at h
  exact h

end Fallible
