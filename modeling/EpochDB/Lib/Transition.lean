import Mathlib

/-!
Systems that take a step for every event: runs, the states reached by steps that meet a guard, and
induction over them.
-/

namespace Transition

variable {σ ε : Type}

def run (step : σ → ε → Option σ) (s : σ) : List ε → Option σ
  | [] => some s
  | e :: es =>
    match step s e with
    | none => none
    | some s' => run step s' es

inductive Reachable (step : σ → ε → Option σ) (guard : σ → ε → Prop) (init : σ) : σ → Prop where
  | init : Reachable step guard init init
  | step {s s' : σ} {e : ε} (hs : Reachable step guard init s) (hg : guard s e)
      (h : step s e = some s') : Reachable step guard init s'

variable {step : σ → ε → Option σ} {guard : σ → ε → Prop} {init s : σ}

theorem Reachable.invariant {I : σ → Prop} (hinit : I init) (hstep : ∀ s e s', I s → guard s e → step s e = some s' → I s')
    (h : Reachable step guard init s) : I s := by
  induction h with
  | init => exact hinit
  | step _ hg hs ih => exact hstep _ _ _ ih hg hs

theorem Reachable.mono {guard' : σ → ε → Prop} (hg : ∀ s e, guard s e → guard' s e)
    (h : Reachable step guard init s) : Reachable step guard' init s := by
  induction h with
  | init => exact .init
  | step _ hs h ih => exact .step ih (hg _ _ hs) h

variable {s' : σ} {es : List ε}

theorem Reachable.run (hs : Reachable step guard init s)
    (hg : ∀ e ∈ es, ∀ s, guard s e) (h : run step s es = some s') : Reachable step guard init s' := by
  induction es generalizing s with
  | nil =>
    cases h
    exact hs
  | cons e es ih =>
    simp only [Transition.run] at h
    split at h
    . contradiction
    . next s1 hs1 =>
      refine ih (.step hs ?_ hs1) ?_ h
      . exact hg e List.mem_cons_self s
      . intro e' he'
        exact hg e' (List.mem_cons_of_mem e he')

theorem Reachable.run_checked {ok : σ → ε → Bool} (hok : ∀ s e, ok s e = true → guard s e) (hs : Reachable step guard init s)
    (h : Transition.run (fun s e => if ok s e then step s e else none) s es = some s')
    : Reachable step guard init s' := by
  induction es generalizing s with
  | nil =>
    cases h
    exact hs
  | cons e es ih =>
    simp only [Transition.run] at h
    split at h
    . contradiction
    . next s1 hs1 =>
      split at hs1
      . next hc => exact ih (.step hs (hok s e hc) hs1) h
      . contradiction

theorem run_of_run_checked {ok : σ → ε → Bool}
    (h : run (fun s e => if ok s e then step s e else none) s es = some s') : run step s es = some s' := by
  induction es generalizing s with
  | nil => exact h
  | cons e es ih =>
    simp only [run] at h ⊢
    split at h
    . contradiction
    . next s1 hs1 =>
      split at hs1
      . rw [hs1]
        exact ih h
      . contradiction

theorem run_remaining {I : σ → List ε → Prop} (hstep : ∀ s e es s', I s (e :: es) → step s e = some s' → I s' es)
    {s s' : σ} (hs : I s es) (h : run step s es = some s') : I s' [] := by
  induction es generalizing s with
  | nil =>
    cases h
    exact hs
  | cons e es ih =>
    simp only [run] at h
    split at h
    . contradiction
    . next s1 hs1 => exact ih (hstep s e es s1 hs hs1) h

theorem run_total {I : σ → Prop} (hstep : ∀ s e, I s → ∃ s', step s e = some s' ∧ I s') (es : List ε) {s : σ}
    (hs : I s) : ∃ s', run step s es = some s' ∧ I s' := by
  induction es generalizing s with
  | nil => exact ⟨s, rfl, hs⟩
  | cons e es ih =>
    obtain ⟨s1, hs1, h1⟩ := hstep s e hs
    simp only [run, hs1]
    exact ih h1

end Transition
