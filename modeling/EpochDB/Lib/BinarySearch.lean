import Mathlib

/-!
The search for the end of the indices that meet a condition, when they come first.
-/

def bsearch (p : Nat → Bool) (lo hi : Nat) : Nat :=
  if lo < hi then
    let m := (lo + hi) / 2
    if p m then bsearch p (m + 1) hi else bsearch p lo m
  else
    lo
  termination_by hi - lo

variable {p : Nat → Bool} {lo hi : Nat}

theorem bsearch_spec (hle : lo ≤ hi) (hmono : ∀ i j, lo ≤ i → i ≤ j → j < hi → p j = true → p i = true)
    : lo ≤ bsearch p lo hi ∧ bsearch p lo hi ≤ hi ∧
      (∀ i, lo ≤ i → i < bsearch p lo hi → p i = true) ∧
      (∀ i, bsearch p lo hi ≤ i → i < hi → p i = false) := by
  fun_induction bsearch p lo hi with
  | case1 lo hi hlt m hp ih =>
    rcases ih (by omega) (fun i j hi' hij hj => hmono i j (by omega) hij hj) with ⟨h1, h2, h3, h4⟩
    refine ⟨by omega, h2, ?_, h4⟩
    intro i hlo hi'
    by_cases him : i ≤ m
    . exact hmono i m hlo him (by omega) hp
    . exact h3 i (by omega) hi'
  | case2 lo hi hlt m hp ih =>
    rcases ih (by omega) (fun i j hi' hij hj => hmono i j hi' hij (by omega)) with ⟨h1, h2, h3, h4⟩
    refine ⟨h1, by omega, h3, ?_⟩
    intro i hi' hlt'
    by_cases him : i < m
    . exact h4 i hi' him
    . rw [Bool.eq_false_iff]
      intro hpi
      exact hp (hmono m i (by omega) (by omega) hlt' hpi)
  | case3 lo hi hlt => exact ⟨le_rfl, hle, fun i h1 h2 => by omega, fun i h1 h2 => by omega⟩

theorem le_bsearch : lo ≤ bsearch p lo hi := by
  fun_induction bsearch p lo hi with
  | case1 lo hi hlt m hp ih => omega
  | case2 lo hi hlt m hp ih => exact ih
  | case3 lo hi hlt => exact le_rfl

theorem bsearch_le (hle : lo ≤ hi) : bsearch p lo hi ≤ hi := by
  fun_induction bsearch p lo hi with
  | case1 lo hi hlt m hp ih => exact ih (by omega)
  | case2 lo hi hlt m hp ih => exact Nat.le_trans (ih (by omega)) (by omega)
  | case3 lo hi hlt => exact hle

theorem bsearch_pred (h : lo < bsearch p lo hi) : p (bsearch p lo hi - 1) = true := by
  fun_induction bsearch p lo hi with
  | case1 lo hi hlt m hp ih =>
    by_cases hm : m + 1 < bsearch p (m + 1) hi
    . exact ih hm
    . have hge : m + 1 ≤ bsearch p (m + 1) hi := le_bsearch
      have heq : bsearch p (m + 1) hi - 1 = m := by omega
      rw [heq]
      exact hp
  | case2 lo hi hlt m hp ih => exact ih h
  | case3 lo hi hlt => omega

theorem bsearch_congr {p q : Nat → Bool} (h : ∀ i, lo ≤ i → i < hi → p i = q i) : bsearch p lo hi = bsearch q lo hi := by
  fun_induction bsearch p lo hi with
  | case1 lo hi hlt m hp ih =>
    rw [ih (fun i hlo hhi => h i (by omega) hhi)]
    conv => rhs; unfold bsearch
    have hq : q m = true := by
      rw [← h m (by omega) (by omega)]
      exact hp
    rw [if_pos hlt]
    dsimp only
    rw [if_pos hq]
  | case2 lo hi hlt m hp ih =>
    rw [ih (fun i hlo hhi => h i hlo (by omega))]
    conv => rhs; unfold bsearch
    have hq : ¬ q m = true := by
      rw [← h m (by omega) (by omega)]
      exact hp
    rw [if_pos hlt]
    dsimp only
    rw [if_neg hq]
  | case3 lo hi hlt =>
    unfold bsearch
    rw [if_neg hlt]
