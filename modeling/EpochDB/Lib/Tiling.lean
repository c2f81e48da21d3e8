import Mathlib

/-!
Closed intervals of numbers, and lists of disjoint intervals that cover everything between two
bounds.
-/

structure Span where
  lo : Nat
  hi : Nat
  deriving DecidableEq, Repr

namespace Span

def Covers (s : Span) (n : Nat) : Prop := s.lo ≤ n ∧ n ≤ s.hi

instance (s : Span) (n : Nat) : Decidable (s.Covers n) := inferInstanceAs (Decidable (_ ∧ _))

def Apart (s t : Span) : Prop := s.hi < t.lo ∨ t.hi < s.lo

theorem Apart.symm {s t : Span} (h : s.Apart t) : t.Apart s := Or.symm h

theorem Apart.lo_ne {s t : Span} (h : s.Apart t) (hs : s.lo ≤ s.hi) (ht : t.lo ≤ t.hi) : s.lo ≠ t.lo := by
  unfold Apart at h
  omega

theorem perm_eraseP {α : Type} {g : α → Span} {xs : List α} (hle : ∀ x ∈ xs, (g x).lo ≤ (g x).hi)
    (hapart : (xs.map g).Pairwise Apart) {x : α} (hx : x ∈ xs)
    : xs.Perm (x :: xs.eraseP (fun y => (g y).lo = (g x).lo)) := by
  have hsymm : Std.Symm (fun x y => (g x).Apart (g y)) := ⟨fun _ _ => Apart.symm⟩
  rcases List.exists_of_eraseP (p := fun y => (g y).lo = (g x).lo) hx (by simp) with
    ⟨y, ys, zs, _, hlo, hxs, herase⟩
  have hy : y ∈ xs := by
    rw [hxs]
    simp
  have heq : y = x := by
    by_contra hne
    have hyx := (List.pairwise_map.mp hapart).forall hy hx hne
    exact hyx.lo_ne (hle y hy) (hle x hx) (by simpa using hlo)
  rw [herase, hxs, heq]
  exact List.perm_middle

end Span

structure Tiling (low high : Nat) (ss : List Span) : Prop where
  le : ∀ s ∈ ss, s.lo ≤ s.hi
  lt : ∀ s ∈ ss, s.hi < high
  apart : ss.Pairwise Span.Apart
  cover : ∀ n, low < n → n < high → ∃ s ∈ ss, s.Covers n

namespace Tiling

variable {low high : Nat} {s : Span} {ss ts : List Span}

theorem nil (h : high ≤ low + 1) : Tiling low high [] := by
  constructor
  . simp
  . simp
  . simp
  . intro n hlow hhigh
    omega

theorem perm (h : Tiling low high ss) (hperm : ss.Perm ts) : Tiling low high ts := by
  constructor
  . intro t ht
    exact h.le t (hperm.mem_iff.mpr ht)
  . intro t ht
    exact h.lt t (hperm.mem_iff.mpr ht)
  . exact hperm.pairwise h.apart Span.Apart.symm
  . intro n hlow hhigh
    rcases h.cover n hlow hhigh with ⟨t, ht, hcovers⟩
    exact ⟨t, hperm.mem_iff.mp ht, hcovers⟩

theorem sublist (h : Tiling low high ss) (hsub : ts.Sublist ss)
    (hcover : ∀ s ∈ ss, s ∉ ts → s.hi ≤ low) : Tiling low high ts := by
  constructor
  . intro t ht
    exact h.le t (hsub.subset ht)
  . intro t ht
    exact h.lt t (hsub.subset ht)
  . exact h.apart.sublist hsub
  . intro n hlow hhigh
    rcases h.cover n hlow hhigh with ⟨t, ht, hcovers⟩
    refine ⟨t, ?_, hcovers⟩
    by_contra hnot
    have := hcover t ht hnot
    unfold Span.Covers at hcovers
    omega

theorem countP_covers (h : Tiling low high ss) {n : Nat} (hlow : low < n) (hhigh : n < high)
    : ss.countP (fun s => s.Covers n) = 1 := by
  rcases h.cover n hlow hhigh with ⟨s, hs, hcovers⟩
  have hperm := List.perm_cons_erase hs
  have hrest := hperm.pairwise h.apart Span.Apart.symm
  rw [hperm.countP_eq]
  rw [List.countP_cons_of_pos (by simpa using hcovers)]
  rw [List.countP_eq_zero.mpr]
  intro t ht
  have hapart := List.rel_of_pairwise_cons hrest ht
  unfold Span.Apart at hapart
  unfold Span.Covers at hcovers
  rw [decide_eq_true_eq]
  unfold Span.Covers
  omega

theorem raise (h : Tiling low high ss) {low' : Nat} (hlow : low ≤ low') : Tiling low' high ss :=
  { h with cover := fun n hn hhigh => h.cover n (by omega) hhigh }

theorem lift (h : Tiling low high ss) {high' : Nat} (hle : high ≤ high') (hlow : high' ≤ low + 1) : Tiling low high' ss := by
  constructor
  . exact h.le
  . intro s hs
    have := h.lt s hs
    omega
  . exact h.apart
  . intro n hn hhigh
    omega

theorem extend (h : Tiling low high ss) {hi : Nat} (hhi : high ≤ hi) : Tiling low (hi + 1) (⟨high, hi⟩ :: ss) := by
  constructor
  . intro s hs
    rcases List.mem_cons.mp hs with rfl | hs
    . exact hhi
    . exact h.le s hs
  . intro s hs
    rcases List.mem_cons.mp hs with rfl | hs
    . simp
    . have := h.lt s hs
      omega
  . rw [List.pairwise_cons]
    constructor
    . intro s hs
      exact .inr (h.lt s hs)
    . exact h.apart
  . intro n hlow hn
    by_cases hhigh : n < high
    . rcases h.cover n hlow hhigh with ⟨s, hs, hcovers⟩
      exact ⟨s, List.mem_cons_of_mem _ hs, hcovers⟩
    . refine ⟨⟨high, hi⟩, List.mem_cons_self, ?_⟩
      unfold Span.Covers
      dsimp only
      omega

theorem drop (h : Tiling low high (s :: ss)) (hs : s.hi ≤ low) : Tiling low high ss := by
  apply h.sublist (List.sublist_cons_self s ss)
  intro t ht hnot
  rcases List.mem_cons.mp ht with rfl | ht
  . exact hs
  . contradiction

theorem cut (h : Tiling low high (s :: ss)) {lo : Nat} (hlo : s.lo ≤ lo) (hlow : lo ≤ low + 1)
    (hhi : lo ≤ s.hi) : Tiling low high (⟨lo, s.hi⟩ :: ss) := by
  constructor
  . intro t ht
    rcases List.mem_cons.mp ht with rfl | ht
    . exact hhi
    . exact h.le t (List.mem_cons_of_mem _ ht)
  . intro t ht
    rcases List.mem_cons.mp ht with rfl | ht
    . exact h.lt s List.mem_cons_self
    . exact h.lt t (List.mem_cons_of_mem _ ht)
  . rw [List.pairwise_cons]
    constructor
    . intro t ht
      have := List.rel_of_pairwise_cons h.apart ht
      unfold Span.Apart at this ⊢
      dsimp only
      omega
    . exact h.apart.of_cons
  . intro n hn hhigh
    rcases h.cover n hn hhigh with ⟨t, ht, hcovers⟩
    rcases List.mem_cons.mp ht with rfl | ht
    . refine ⟨_, List.mem_cons_self, ?_⟩
      unfold Span.Covers at hcovers ⊢
      dsimp only
      omega
    . exact ⟨t, List.mem_cons_of_mem _ ht, hcovers⟩

theorem filter (h : Tiling low high (ts ++ ss)) {p : Span → Bool}
    (hp : ∀ s ∈ ss, p s = false → s.hi ≤ low) : Tiling low high (ts ++ ss.filter p) := by
  apply h.sublist
  . apply List.Sublist.append_left
    exact List.filter_sublist
  . intro t ht hnot
    simp only [List.mem_append, List.mem_filter, not_or, not_and] at ht hnot
    rcases ht with ht | ht
    . exact absurd ht hnot.1
    . exact hp t ht (by simpa using hnot.2 ht)

end Tiling
