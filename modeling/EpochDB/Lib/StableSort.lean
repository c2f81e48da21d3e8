import Mathlib.Data.List.Sort

/-!
A stable sort: elements that the order does not tell apart keep the order they came in.
-/

namespace EpochDB.StableSort

variable {α : Type} {r : α → α → Prop} [DecidableRel r] [Std.Total r] [IsTrans α r] {t : α → α → Prop}

def Ordered (r t : α → α → Prop) (a b : α) : Prop := r a b ∧ (r b a → t a b)

theorem pairwise_orderedInsert {a : α} {l : List α} (ha : ∀ b ∈ l, r a b → r b a → t a b) (hl : l.Pairwise (Ordered r t))
    : (l.orderedInsert r a).Pairwise (Ordered r t) := by
  induction l with
  | nil => exact List.pairwise_singleton _ a
  | cons b l ih =>
    rw [List.orderedInsert_cons]
    have hcons := List.pairwise_cons.mp hl
    split
    . next hab =>
      apply List.Pairwise.cons _ hl
      intro c hc
      have hac : r a c := by
        rcases List.mem_cons.mp hc with rfl | hc
        . exact hab
        . exact IsTrans.trans a b c hab (hcons.1 c hc).1
      exact ⟨hac, ha c hc hac⟩
    . next hab =>
      apply List.Pairwise.cons
      . intro c hc
        rcases (List.mem_orderedInsert r).mp hc with rfl | hc
        . exact ⟨(Std.Total.total b c).resolve_right hab, fun h => absurd h hab⟩
        . exact hcons.1 c hc
      . exact ih (fun c hc => ha c (List.mem_cons_of_mem b hc)) hcons.2

theorem pairwise_insertionSort {l : List α} (h : l.Pairwise (fun a b => r a b → r b a → t a b))
    : (l.insertionSort r).Pairwise (Ordered r t) := by
  induction l with
  | nil => exact List.Pairwise.nil
  | cons a l ih =>
    rcases List.pairwise_cons.mp h with ⟨ha, hl⟩
    apply pairwise_orderedInsert _ (ih hl)
    intro b hb
    exact ha b ((List.mem_insertionSort r).mp hb)

theorem insertionSort_eq {l l' : List α} (h : l.Pairwise (fun a b => r a b → r b a → t a b)) (hl' : l'.Pairwise (Ordered r t))
    (hasymm : ∀ a b, t a b → ¬ t b a) (hperm : l.Perm l') : l.insertionSort r = l' := by
  apply List.Perm.eq_of_pairwise _ (pairwise_insertionSort h) hl' ((List.perm_insertionSort r l).trans hperm)
  intro a b _ _ hab hba
  exact absurd (hba.2 hab.1) (hasymm a b (hab.2 hba.1))

end EpochDB.StableSort
