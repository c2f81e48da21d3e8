import EpochDB.Lib.Bytes
import EpochDB.Lib.SortedMap

/-!
Seeks in a sorted map: the first row at or above a key, the last row below one, and the walk over the
rows that go on from a byte string.
-/

namespace SortedMap

open List

section

variable {κ β : Type} [LinearOrder κ]

def seekGE (m : SortedMap κ β) (k : κ) : Option (κ × β) := m.rows.find? (fun r => k ≤ r.1)

def seekLT (m : SortedMap κ β) (k : κ) : Option (κ × β) := (m.rows.filter (fun r => r.1 < k)).getLast?

theorem get_eq_seekGE (m : SortedMap κ β) (k : κ)
    : m.get k = (m.seekGE k).bind (fun r => if r.1 = k then some r.2 else none) := by
  rcases m with ⟨rows, sorted⟩
  induction rows with
  | nil => rfl
  | cons r rows ih =>
    rw [pairwise_cons] at sorted
    rcases sorted with ⟨hr, hrows⟩
    have ih := ih hrows
    unfold get seekGE at ih ⊢
    dsimp only at ih ⊢
    rw [find_cons, find?_cons]
    rcases lt_trichotomy r.1 k with hlt | heq | hgt
    . rw [if_neg (ne_of_lt hlt), ih]
      simp [not_le.mpr hlt]
    . rw [if_pos heq]
      simp [heq]
    . rw [if_neg (ne_of_gt hgt)]
      have hnone : find rows k = none := find_eq_none_of_lt (fun s hs => lt_trans hgt (hr s hs))
      rw [hnone]
      simp [le_of_lt hgt, ne_of_gt hgt]

theorem seekLT_eq_some {m : SortedMap κ β} {k : κ} {r : κ × β} (h : m.seekLT k = some r)
    : r ∈ m.rows ∧ r.1 < k ∧ ∀ s ∈ m.rows, s.1 < k → s.1 ≤ r.1 := by
  unfold seekLT at h
  rw [getLast?_eq_some_iff] at h
  rcases h with ⟨front, hfront⟩
  have hmem : r ∈ m.rows.filter (fun r => r.1 < k) := by
    rw [hfront]
    simp
  rw [mem_filter, decide_eq_true_eq] at hmem
  refine ⟨hmem.1, hmem.2, ?_⟩
  intro s hs hlt
  have hs' : s ∈ m.rows.filter (fun r => r.1 < k) := by
    rw [mem_filter, decide_eq_true_eq]
    exact ⟨hs, hlt⟩
  have hsorted := m.sorted.filter (fun r => r.1 < k)
  rw [hfront] at hs' hsorted
  rw [mem_append, mem_singleton] at hs'
  cases hs' with
  | inl hs' => exact le_of_lt ((pairwise_append.mp hsorted).2.2 s hs' r (by simp))
  | inr hs' => rw [hs']

theorem seekLT_eq_none {m : SortedMap κ β} {k : κ} (h : m.seekLT k = none) : ∀ s ∈ m.rows, k ≤ s.1 := by
  unfold seekLT at h
  rw [getLast?_eq_none_iff, filter_eq_nil_iff] at h
  intro s hs
  simpa using h s hs

end

def walk (m : SortedMap Bytes β) (p : Bytes) : List (Bytes × β) :=
  (m.rows.dropWhile (fun r => r.1 < p)).takeWhile (fun r => p.isPrefixOf r.1)

theorem takeWhile_isPrefixOf {rows : List (Bytes × β)} (hs : Ordered rows) {p : Bytes} (hp : ∀ r ∈ rows, p ≤ r.1)
    : rows.takeWhile (fun r => p.isPrefixOf r.1) = rows.filter (fun r => p.isPrefixOf r.1) := by
  induction rows with
  | nil => rfl
  | cons r rows ih =>
    have hs := pairwise_cons.mp hs
    rw [takeWhile_cons, filter_cons]
    split
    . rw [ih hs.2 (fun s h => hp s (by simp [h]))]
    . next hr =>
      -- a key past the ones that go on from `p` is followed by none that do
      symm
      rw [filter_eq_nil_iff]
      intro s h hpre
      rw [List.isPrefixOf_iff_prefix] at hr hpre
      rcases hpre with ⟨y, hy⟩
      apply hr
      apply Bytes.isPrefix_of_between (x := []) (y := y)
      . rw [append_nil]
        exact hp r (by simp)
      . rw [hy]
        exact hs.1 s h

theorem le_of_mem_dropWhile {rows : List (Bytes × β)} (hs : Ordered rows) {p : Bytes}
    : ∀ r ∈ rows.dropWhile (fun r => r.1 < p), p ≤ r.1 := by
  induction rows with
  | nil => simp
  | cons s rows ih =>
    have hs := pairwise_cons.mp hs
    rw [dropWhile_cons]
    split
    . exact ih hs.2
    . next hge =>
      have hge : p ≤ s.1 := by simpa using hge
      intro r hr
      rw [mem_cons] at hr
      cases hr with
      | inl hr =>
        rw [hr]
        exact hge
      | inr hr => exact le_of_lt (lt_of_le_of_lt hge (hs.1 r hr))

theorem walk_eq (m : SortedMap Bytes β) (p : Bytes) : m.walk p = m.rows.filter (fun r => p.isPrefixOf r.1) := by
  have hsplit := takeWhile_append_dropWhile (p := fun r : Bytes × β => decide (r.1 < p)) (l := m.rows)
  have hsorted : Ordered (m.rows.dropWhile (fun r => r.1 < p)) := m.sorted.sublist (dropWhile_sublist _)
  have hbelow : (m.rows.takeWhile (fun r => r.1 < p)).filter (fun r => p.isPrefixOf r.1) = [] := by
    rw [filter_eq_nil_iff]
    intro r hr hpre
    have hlt := mem_takeWhile_imp hr
    rw [decide_eq_true_eq] at hlt
    rw [List.isPrefixOf_iff_prefix] at hpre
    rcases hpre with ⟨x, hx⟩
    rw [← hx] at hlt
    exact absurd hlt (not_lt.mpr (Bytes.le_append p x))
  unfold walk
  rw [takeWhile_isPrefixOf hsorted (le_of_mem_dropWhile m.sorted)]
  conv => rhs; rw [← hsplit, filter_append, hbelow, nil_append]

end SortedMap
