import Mathlib

/-!
Finite maps as lists of rows in the order of their keys, and the merge of a stack of such maps in
which the rows of an earlier map shadow those of the later ones.
-/

structure SortedMap (κ β : Type) [LinearOrder κ] where
  rows : List (κ × β)
  sorted : rows.Pairwise (fun r s => r.1 < s.1)
  deriving DecidableEq, Repr

namespace SortedMap

open List Option

variable {κ β : Type} [LinearOrder κ]

abbrev Ordered (l : List (κ × β)) : Prop := l.Pairwise (fun r s => r.1 < s.1)

def find (l : List (κ × β)) (k : κ) : Option β := (l.find? (fun r => r.1 = k)).map (·.2)

theorem find_cons (r : κ × β) (l : List (κ × β)) (k : κ) : find (r :: l) k = if r.1 = k then some r.2 else find l k := by
  unfold find
  rw [find?_cons]
  by_cases h : r.1 = k <;> simp [h]

variable {k : κ} {r : κ × β} {ls : List (List (κ × β))}

theorem find_eq_none_of_lt {l : List (κ × β)} (h : ∀ r ∈ l, k < r.1) : find l k = none := by
  unfold find
  rw [map_eq_none_iff, find?_eq_none]
  intro r hr
  simp only [decide_eq_true_eq]
  exact ne_of_gt (h r hr)

section

variable {rows : List (κ × β)} (hrows : Ordered rows) {p : κ → Bool} (hp : ∀ a b, a < b → p b = true → p a = true)

include hrows hp

theorem takeWhile_eq_filter : rows.takeWhile (fun row => p row.1) = rows.filter (fun row => p row.1) := by
  induction rows with
  | nil => rfl
  | cons row rows ih =>
    rw [Ordered, pairwise_cons] at hrows
    rw [takeWhile_cons, filter_cons]
    split
    . rw [ih hrows.2]
    . next hfalse =>
      symm
      rw [filter_eq_nil_iff]
      intro s hs htrue
      exact hfalse (hp _ _ (hrows.1 s hs) htrue)

theorem dropWhile_eq_filter : rows.dropWhile (fun row => p row.1) = rows.filter (fun row => !p row.1) := by
  induction rows with
  | nil => rfl
  | cons row rows ih =>
    rw [Ordered, pairwise_cons] at hrows
    rw [dropWhile_cons, filter_cons]
    cases hrow : p row.1 with
    | true => simpa using ih hrows.2
    | false =>
      have hall : rows.filter (fun row => !p row.1) = rows := by
        rw [filter_eq_self]
        intro s hs
        rw [Bool.not_eq_true']
        by_contra htrue
        rw [Bool.not_eq_false] at htrue
        rw [hp _ _ (hrows.1 s hs) htrue] at hrow
        cases hrow
      simp [hall]

end

def empty : SortedMap κ β := ⟨[], List.Pairwise.nil⟩

def get (m : SortedMap κ β) (k : κ) : Option β := find m.rows k

@[simp]
theorem get_empty (k : κ) : (empty : SortedMap κ β).get k = none := rfl

theorem get_eq_some {m : SortedMap κ β} {v : β} : m.get k = some v ↔ (k, v) ∈ m.rows := by
  rcases m with ⟨rows, sorted⟩
  induction rows with
  | nil => simp [get, find]
  | cons r rows ih =>
    rw [pairwise_cons] at sorted
    have ih := ih sorted.2
    simp only [get] at ih ⊢
    rw [find_cons]
    by_cases hk : r.1 = k
    . have hnot : (k, v) ∉ rows := fun h => absurd (sorted.1 _ h) (by simp [hk])
      rw [if_pos hk, Option.some.injEq, mem_cons]
      simp only [hnot, or_false]
      rw [← hk]
      constructor
      . rintro rfl
        rfl
      . intro h
        rw [← h]
    . rw [if_neg hk, ih, mem_cons]
      constructor
      . exact .inr
      . rintro (h | h)
        . rw [← h] at hk
          simp at hk
        . exact h

theorem get_eq_none {m : SortedMap κ β} : m.get k = none ↔ ∀ v, (k, v) ∉ m.rows := by
  rw [eq_none_iff_forall_not_mem]
  constructor
  . intro h v hv
    exact h v (get_eq_some.mpr hv)
  . intro h v hv
    exact h v (get_eq_some.mp hv)

theorem ext_get {m m' : SortedMap κ β} (h : ∀ k, m.get k = m'.get k) : m = m' := by
  have hmem : ∀ r, r ∈ m.rows ↔ r ∈ m'.rows := by
    rintro ⟨k, v⟩
    rw [← get_eq_some, ← get_eq_some, h]
  have hperm : m.rows.Perm m'.rows := by
    rw [perm_ext_iff_of_nodup]
    . exact hmem
    . exact m.sorted.imp (fun h heq => absurd h (by simp [heq]))
    . exact m'.sorted.imp (fun h heq => absurd h (by simp [heq]))
  have hrows : m.rows = m'.rows := by
    refine List.Perm.eq_of_pairwise ?_ m.sorted m'.sorted hperm
    intro a b _ _ hab hba
    exact absurd hab (not_lt_of_gt hba)
  cases m
  cases m'
  simp only at hrows
  subst hrows
  rfl

def putRow (k : κ) (v : β) (rows : List (κ × β)) : List (κ × β) :=
  match rows with
  | [] => [(k, v)]
  | r :: rows =>
    if k < r.1 then
      (k, v) :: r :: rows
    else if k = r.1 then
      (k, v) :: rows
    else
      r :: putRow k v rows

theorem mem_putRow {v : β} {rows : List (κ × β)} (h : r ∈ putRow k v rows) : r = (k, v) ∨ r ∈ rows := by
  induction rows with
  | nil => simpa [putRow] using h
  | cons s rows ih =>
    unfold putRow at h
    split at h
    . simpa using h
    . split at h
      . rw [mem_cons] at h ⊢
        exact h.imp id .inr
      . rw [mem_cons] at h ⊢
        rcases h with h | h
        . exact .inr (.inl h)
        . exact (ih h).imp id .inr

theorem sorted_putRow (k : κ) (v : β) {rows : List (κ × β)} (h : rows.Pairwise (fun r s => r.1 < s.1))
    : (putRow k v rows).Pairwise (fun r s => r.1 < s.1) := by
  induction rows with
  | nil => simp [putRow]
  | cons s rows ih =>
    rw [pairwise_cons] at h
    unfold putRow
    split
    . next hlt =>
      rw [pairwise_cons, pairwise_cons]
      refine ⟨?_, h⟩
      intro r hr
      rw [mem_cons] at hr
      rcases hr with rfl | hr
      . exact hlt
      . exact lt_trans hlt (h.1 r hr)
    . next hge =>
      split
      . next heq =>
        rw [pairwise_cons]
        exact ⟨fun r hr => by rw [heq]; exact h.1 r hr, h.2⟩
      . next hne =>
        rw [pairwise_cons]
        refine ⟨?_, ih h.2⟩
        intro r hr
        rcases mem_putRow hr with rfl | hr
        . exact lt_of_le_of_ne (not_lt.mp hge) (Ne.symm hne)
        . exact h.1 r hr

def put (m : SortedMap κ β) (k : κ) (v : β) : SortedMap κ β := ⟨putRow k v m.rows, sorted_putRow k v m.sorted⟩

theorem get_put (m : SortedMap κ β) (k : κ) (v : β) (k' : κ) : (m.put k v).get k' = if k' = k then some v else m.get k' := by
  rcases m with ⟨rows, sorted⟩
  unfold put get
  dsimp only
  induction rows with
  | nil =>
    by_cases hk : k' = k
    . simp [putRow, find, hk]
    . simp [putRow, find, hk, Ne.symm hk]
  | cons r rows ih =>
    rw [pairwise_cons] at sorted
    unfold putRow
    split
    . rw [find_cons]
      by_cases hk : k' = k
      . simp [hk]
      . simp [hk, Ne.symm hk]
    . split
      . next heq =>
        rw [find_cons, find_cons, ← heq]
        by_cases hk : k' = k
        . simp [hk]
        . simp [hk, Ne.symm hk]
      . next heq =>
        rw [find_cons, find_cons, ih sorted.2]
        by_cases hr : r.1 = k'
        . have hk : ¬ k' = k := fun h => heq (h.symm.trans hr.symm)
          simp [hr, hk]
        . simp [hr]

theorem sum_put (m : SortedMap κ β) (f : κ × β → Nat) (k : κ) (v : β)
    : ((m.put k v).rows.map f).sum + ((m.get k).map (fun old => f (k, old))).getD 0 = (m.rows.map f).sum + f (k, v) := by
  rcases m with ⟨rows, sorted⟩
  unfold put get
  dsimp only
  induction rows with
  | nil => simp [putRow, find]
  | cons r rows ih =>
    rw [pairwise_cons] at sorted
    unfold putRow
    split
    . next hlt =>
      have hnone : find (r :: rows) k = none := by
        apply find_eq_none_of_lt
        intro s hs
        rcases mem_cons.mp hs with rfl | hs
        . exact hlt
        . exact lt_trans hlt (sorted.1 s hs)
      simp only [hnone, map_cons, sum_cons, map_none, getD_none]
      omega
    . split
      . next heq =>
        have hr : (k, r.2) = r := by rw [heq]
        simp only [find_cons, ← heq, if_true, map_cons, sum_cons, map_some, getD_some, hr]
        omega
      . next hne =>
        have hfind := find_cons r rows k
        rw [if_neg (Ne.symm hne)] at hfind
        have hrest := ih sorted.2
        rw [hfind, map_cons, sum_cons, map_cons, sum_cons]
        omega

def restrict (m : SortedMap κ β) (p : κ → β → Bool) : SortedMap κ β :=
  ⟨m.rows.filter (fun r => p r.1 r.2), m.sorted.filter _⟩

theorem get_restrict (m : SortedMap κ β) (p : κ → β → Bool) (k : κ) : (m.restrict p).get k = (m.get k).filter (p k) := by
  cases hk : m.get k with
  | none =>
    rw [get_eq_none] at hk
    rw [filter_none, get_eq_none]
    intro v hv
    exact hk v (mem_filter.mp hv).1
  | some v =>
    rw [get_eq_some] at hk
    by_cases hp : p k v = true
    . simp only [filter_some, hp, if_true]
      rw [get_eq_some]
      exact mem_filter.mpr ⟨hk, hp⟩
    . simp only [filter_some, hp, Bool.false_eq_true, if_false]
      rw [get_eq_none]
      intro v' hv'
      rcases mem_filter.mp hv' with ⟨hmem, hp'⟩
      have : some v' = some v := by
        rw [← get_eq_some.mpr hmem, ← get_eq_some.mpr hk]
      cases this
      exact hp hp'

def best (ls : List (List (κ × β))) : Option (κ × β) :=
  match ls with
  | [] => none
  | [] :: ls => best ls
  | (r :: _) :: ls =>
    match best ls with
    | none => some r
    | some s => if s.1 < r.1 then some s else some r

def advance (k : κ) (ls : List (List (κ × β))) : List (List (κ × β)) :=
  ls.map (fun
    | [] => []
    | r :: l => if r.1 = k then l else r :: l)

def mergeRows (n : Nat) (ls : List (List (κ × β))) : List (κ × β) :=
  match n with
  | 0 => []
  | n + 1 =>
    match best ls with
    | none => []
    | some r => r :: mergeRows n (advance r.1 ls)

theorem best_eq_none (h : best ls = none) : ∀ l ∈ ls, l = [] := by
  induction ls with
  | nil => simp
  | cons l ls ih =>
    cases l with
    | nil =>
      intro l' hl'
      rw [mem_cons] at hl'
      rcases hl' with rfl | hl'
      . rfl
      . exact ih h l' hl'
    | cons r l =>
      unfold best at h
      split at h
      . contradiction
      . split at h <;> contradiction

theorem best_eq_some (hs : ∀ l ∈ ls, Ordered l) (h : best ls = some r)
    : (∀ l ∈ ls, ∀ s ∈ l, r.1 ≤ s.1) ∧ ls.findSome? (find · r.1) = some r.2 ∧ ∃ l ∈ ls, r ∈ l := by
  induction ls generalizing r with
  | nil => simp [best] at h
  | cons l ls ih =>
    have hs' : ∀ l ∈ ls, Ordered l := fun l hl => hs l (by simp [hl])
    cases l with
    | nil =>
      rcases ih hs' h with ⟨hle, hfind, l, hl, hr⟩
      refine ⟨?_, hfind, l, by simp [hl], hr⟩
      intro l hl
      rw [mem_cons] at hl
      rcases hl with rfl | hl
      . simp
      . exact hle l hl
    | cons t l =>
      have htl : ∀ s ∈ t :: l, t.1 ≤ s.1 := by
        have := hs (t :: l) (by simp)
        rw [Ordered, pairwise_cons] at this
        intro s hs
        rw [mem_cons] at hs
        rcases hs with rfl | hs
        . exact le_rfl
        . exact le_of_lt (this.1 s hs)
      have hhead : ∀ (hle : ∀ l' ∈ ls, ∀ s ∈ l', t.1 ≤ s.1), (∀ l' ∈ (t :: l) :: ls, ∀ s ∈ l', t.1 ≤ s.1) ∧
            ((t :: l) :: ls).findSome? (find · t.1) = some t.2 ∧ ∃ l' ∈ (t :: l) :: ls, t ∈ l' := by
        intro hle
        refine ⟨?_, ?_, t :: l, by simp, by simp⟩
        . intro l' hl'
          rw [mem_cons] at hl'
          rcases hl' with rfl | hl'
          . exact htl
          . exact hle l' hl'
        . simp [find_cons]
      unfold best at h
      split at h
      . next hnone =>
        cases h
        apply hhead
        intro l' hl'
        simp [best_eq_none hnone l' hl']
      . next s hsome =>
        rcases ih hs' hsome with ⟨hle, hfind, l', hl', hmem⟩
        split at h
        . next hlt =>
          cases h
          refine ⟨?_, ?_, l', by simp [hl'], hmem⟩
          . intro l' hl'
            rw [mem_cons] at hl'
            rcases hl' with rfl | hl'
            . intro x hx
              exact le_trans (le_of_lt hlt) (htl x hx)
            . exact hle l' hl'
          . rw [findSome?_cons, find_eq_none_of_lt]
            . exact hfind
            . intro x hx
              exact lt_of_lt_of_le hlt (htl x hx)
        . next hge =>
          cases h
          apply hhead
          intro l' hl' x hx
          exact le_trans (not_lt.mp hge) (hle l' hl' x hx)

theorem find_advance (hs : ∀ l ∈ ls, Ordered l) (hle : ∀ l ∈ ls, ∀ s ∈ l, k ≤ s.1) (k' : κ)
    : (advance k ls).findSome? (find · k') = if k' = k then none else ls.findSome? (find · k') := by
  induction ls with
  | nil => simp [advance]
  | cons l ls ih =>
    have ih := ih (fun l hl => hs l (by simp [hl])) (fun l hl => hle l (by simp [hl]))
    have hl := hs l (by simp)
    have hkl := hle l (by simp)
    rw [advance, map_cons, findSome?_cons, findSome?_cons]
    rw [advance] at ih
    rw [ih]
    cases l with
    | nil => simp [find]
    | cons r l =>
      rw [Ordered, pairwise_cons] at hl
      dsimp only
      by_cases hr : r.1 = k
      . rw [if_pos hr]
        by_cases hk : k' = k
        . rw [hk, find_eq_none_of_lt (fun s hs => by rw [← hr]; exact hl.1 s hs)]
          simp
        . have hrk : ¬ r.1 = k' := fun h => hk (h.symm.trans hr)
          rw [find_cons r l k', if_neg hrk]
          simp only [if_neg hk]
      . rw [if_neg hr]
        have hlt : k < r.1 := lt_of_le_of_ne (hkl r (by simp)) (Ne.symm hr)
        by_cases hk : k' = k
        . subst hk
          have hnone : find (r :: l) k' = none := by
            apply find_eq_none_of_lt
            intro s hs
            rw [mem_cons] at hs
            rcases hs with rfl | hs
            . exact hlt
            . exact lt_trans hlt (hl.1 s hs)
          simp [hnone]
        . simp [hk]

theorem mem_advance (hs : ∀ l ∈ ls, Ordered l) (hle : ∀ l ∈ ls, ∀ s ∈ l, k ≤ s.1) {l : List (κ × β)} (hl : l ∈ advance k ls)
    : Ordered l ∧ (∀ s ∈ l, k < s.1) ∧ ∃ l' ∈ ls, ∀ s ∈ l, s ∈ l' := by
  rw [advance, List.mem_map] at hl
  rcases hl with ⟨l', hl', rfl⟩
  have ho := hs l' hl'
  have hk := hle l' hl'
  cases l' with
  | nil => exact ⟨ho, by simp, [], hl', by simp⟩
  | cons r l' =>
    dsimp only
    rw [Ordered, pairwise_cons] at ho
    by_cases hr : r.1 = k
    . rw [if_pos hr]
      refine ⟨ho.2, ?_, _, hl', fun s hs => by simp [hs]⟩
      intro s hs
      rw [← hr]
      exact ho.1 s hs
    . rw [if_neg hr]
      have hlt : k < r.1 := lt_of_le_of_ne (hk r (by simp)) (Ne.symm hr)
      refine ⟨pairwise_cons.mpr ho, ?_, _, hl', fun s hs => hs⟩
      intro s hs
      rw [mem_cons] at hs
      rcases hs with rfl | hs
      . exact hlt
      . exact lt_trans hlt (ho.1 s hs)

theorem length_advance_lt (h : best ls = some r) : ((advance r.1 ls).map List.length).sum < (ls.map List.length).sum := by
  have hle : ∀ ls : List (List (κ × β)), ((advance r.1 ls).map List.length).sum ≤ (ls.map List.length).sum := by
    intro ls
    induction ls with
    | nil => simp [advance]
    | cons l ls ih =>
      rw [advance, map_cons, map_cons, sum_cons, map_cons, sum_cons]
      rw [advance] at ih
      have : (match l with
          | [] => []
          | s :: l => if s.1 = r.1 then l else s :: l).length ≤ l.length := by
        cases l with
        | nil => simp
        | cons s l =>
          dsimp only
          split <;> simp
      omega
  induction ls with
  | nil => simp [best] at h
  | cons l ls ih =>
    rw [advance, map_cons, map_cons, sum_cons, map_cons, sum_cons]
    have hle := hle ls
    rw [advance] at hle ih
    cases l with
    | nil =>
      have := ih h
      simp only [length_nil]
      omega
    | cons t l =>
      unfold best at h
      dsimp only
      split at h
      . cases h
        rw [if_pos rfl, length_cons]
        omega
      . next s hs =>
        split at h
        . next hlt =>
          cases h
          have := ih hs
          rw [if_neg (ne_of_gt hlt), length_cons]
          omega
        . cases h
          rw [if_pos rfl, length_cons]
          omega

theorem mergeRows_spec (n : Nat) (hs : ∀ l ∈ ls, Ordered l) (hn : (ls.map List.length).sum ≤ n)
    : Ordered (mergeRows n ls) ∧
      (∀ r ∈ mergeRows n ls, ∃ l ∈ ls, r ∈ l) ∧
      ∀ k, find (mergeRows n ls) k = ls.findSome? (find · k) := by
  induction n generalizing ls with
  | zero =>
    have hnil : ∀ l ∈ ls, l = [] := by
      intro l hl
      rw [Nat.le_zero, List.sum_eq_zero_iff_forall_eq_nat] at hn
      exact length_eq_zero_iff.mp (hn _ (mem_map_of_mem hl))
    refine ⟨List.Pairwise.nil, by simp [mergeRows], ?_⟩
    intro k
    symm
    rw [mergeRows, find, find?_nil, map_none, findSome?_eq_none_iff]
    intro l hl
    simp [hnil l hl, find]
  | succ n ih =>
    unfold mergeRows
    split
    . next hnone =>
      refine ⟨List.Pairwise.nil, by simp, ?_⟩
      intro k
      symm
      rw [find, find?_nil, map_none, findSome?_eq_none_iff]
      intro l hl
      simp [best_eq_none hnone l hl, find]
    . next r hbest =>
      rcases best_eq_some hs hbest with ⟨hle, hfind, l, hl, hr⟩
      have hlen := length_advance_lt hbest
      have hadv := fun l hl => mem_advance hs hle (l := l) hl
      rcases ih (fun l hl => (hadv l hl).1) (by omega) with ⟨ihs, ihm, ihf⟩
      refine ⟨?_, ?_, ?_⟩
      . rw [Ordered, pairwise_cons]
        refine ⟨?_, ihs⟩
        intro s hs
        rcases ihm s hs with ⟨l', hl', hmem⟩
        exact (hadv l' hl').2.1 s hmem
      . intro s hs
        rw [mem_cons] at hs
        rcases hs with rfl | hs
        . exact ⟨l, hl, hr⟩
        . rcases ihm s hs with ⟨l', hl', hmem⟩
          rcases (hadv l' hl').2.2 with ⟨l'', hl'', hsub⟩
          exact ⟨l'', hl'', hsub s hmem⟩
      . intro k
        rw [find_cons, ihf, find_advance hs hle]
        by_cases hk : r.1 = k
        . rw [if_pos hk, ← hk, hfind]
        . rw [if_neg hk, if_neg (Ne.symm hk)]

def mergeAll (ms : List (SortedMap κ β)) : SortedMap κ β where
  rows := mergeRows ((ms.map (·.rows.length)).sum) (ms.map (·.rows))
  sorted := by
    refine (mergeRows_spec _ ?_ ?_).1
    . intro l hl
      rw [List.mem_map] at hl
      rcases hl with ⟨m, -, rfl⟩
      exact m.sorted
    . simp [Function.comp_def]

theorem get_mergeAll (ms : List (SortedMap κ β)) (k : κ) : (mergeAll ms).get k = ms.findSome? (·.get k) := by
  have hs : ∀ l ∈ ms.map (·.rows), Ordered l := by
    intro l hl
    rw [List.mem_map] at hl
    rcases hl with ⟨m, -, rfl⟩
    exact m.sorted
  have := (mergeRows_spec ((ms.map (·.rows.length)).sum) hs (by simp [Function.comp_def])).2.2 k
  rw [findSome?_map] at this
  exact this

end SortedMap
