import Mathlib.Tactic.Common

/-!
# Labelled machines

A machine takes labelled steps. A step yields the next state and the events it emits, or it
fails an assertion. `Runs step ok s₀ tr s` says that `s` is reached from `s₀` by steps that all
meet `ok`, and that `tr` lists the events on the way; `exec` computes a run.
-/

namespace Machine

variable {σ lab ε ev : Type}

/-- The states reached from `s₀` by steps that meet `ok`, with the events so far. -/
inductive Runs (step : σ → lab → Except ε (σ × List ev)) (ok : σ → lab → Prop) (s₀ : σ) :
    List ev → σ → Prop
  | start : Runs step ok s₀ [] s₀
  | next {tr s l t evs} : Runs step ok s₀ tr s → ok s l → step s l = .ok (t, evs) →
      Runs step ok s₀ (tr ++ evs) t

variable {step : σ → lab → Except ε (σ × List ev)} {ok ok' : σ → lab → Prop} {s₀ s t : σ}
  {tr tr' : List ev}

/-- What holds at the start and is kept by every step holds in every reached state. -/
theorem Runs.invariant {I : List ev → σ → Prop} (h : Runs step ok s₀ tr s) (h0 : I [] s₀)
    (hstep : ∀ {tr s l t evs}, I tr s → ok s l → step s l = .ok (t, evs) → I (tr ++ evs) t) :
    I tr s := by
  induction h with
  | start => exact h0
  | next _ hok hs ih => exact hstep ih hok hs

/-- A run under one condition is a run under any weaker one. -/
theorem Runs.mono (h : Runs step ok s₀ tr s) (hok : ∀ s l, ok s l → ok' s l) :
    Runs step ok' s₀ tr s := by
  induction h with
  | start => exact .start
  | next _ hl hs ih => exact .next ih (hok _ _ hl) hs

theorem Runs.append (h : Runs step ok s₀ tr s) (h' : Runs step ok s tr' t) :
    Runs step ok s₀ (tr ++ tr') t := by
  induction h' with
  | start => simpa using h
  | next _ hl hs ih =>
    rw [← List.append_assoc]
    exact .next ih hl hs

/-- Perform the labels in order. -/
def exec (step : σ → lab → Except ε (σ × List ev)) : σ → List lab → Except ε (σ × List ev)
  | s, [] => .ok (s, [])
  | s, l :: ls =>
    match step s l with
    | .error e => .error e
    | .ok (t, evs) =>
      match exec step t ls with
      | .error e => .error e
      | .ok (u, evs') => .ok (u, evs ++ evs')

theorem runs_of_exec (step : σ → lab → Except ε (σ × List ev)) (s : σ) (ls : List lab)
    (h : exec step s ls = .ok (t, tr)) : Runs step (fun _ _ => True) s tr t := by
  induction ls generalizing s tr with
  | nil =>
    cases h
    exact .start
  | cons l ls ih =>
    rw [exec] at h
    split at h
    · cases h
    · rename_i u evs hstep
      split at h
      · cases h
      · rename_i v evs' hrest
        cases h
        have hfirst : Runs step (fun _ _ => True) s ([] ++ evs) u := .next .start trivial hstep
        exact hfirst.append (ih u hrest)

/-- Perform the labels in order, as long as the steps meet `ok`. -/
def execOk (step : σ → lab → Except ε (σ × List ev)) (ok : σ → lab → Prop)
    [∀ s l, Decidable (ok s l)] : σ → List lab → Option (σ × List ev)
  | s, [] => some (s, [])
  | s, l :: ls =>
    match step s l with
    | .error _ => none
    | .ok (t, evs) =>
      if ok s l then (execOk step ok t ls).map fun r => (r.1, evs ++ r.2) else none

theorem runs_of_execOk [∀ s l, Decidable (ok s l)] (s : σ) (ls : List lab)
    (h : execOk step ok s ls = some (t, tr)) : Runs step ok s tr t := by
  induction ls generalizing s tr with
  | nil =>
    cases h
    exact .start
  | cons l ls ih =>
    rw [execOk] at h
    split at h
    · cases h
    · rename_i u evs hstep
      split at h
      · rename_i hok
        obtain ⟨r, hrest, heq⟩ := Option.map_eq_some_iff.mp h
        cases heq
        have hfirst : Runs step ok s ([] ++ evs) u := .next .start hok hstep
        exact hfirst.append (ih u hrest)
      · cases h

end Machine
