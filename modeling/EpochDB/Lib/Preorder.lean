import Mathlib

/-!
Trees of any width, the order a walk enters their nodes in with the level of each, and that a forest is
given back by that list.
-/

inductive RoseTree (α : Type) where
  | node (val : α) (children : List (RoseTree α))

namespace RoseTree

variable {α : Type}

mutual

def preorderTree (level : Nat) : RoseTree α → List (Nat × α)
  | node a cs => (level, a) :: preorder (level + 1) cs

def preorder (level : Nat) : List (RoseTree α) → List (Nat × α)
  | [] => []
  | t :: ts => preorderTree level t ++ preorder level ts

end

mutual

def heightTree : RoseTree α → Nat
  | node _ cs => height cs + 1

def height : List (RoseTree α) → Nat
  | [] => 0
  | t :: ts => max (heightTree t) (height ts)

end

mutual

def mapTree {β : Type} (f : α → β) : RoseTree α → RoseTree β
  | node a cs => node (f a) (map f cs)

def map {β : Type} (f : α → β) : List (RoseTree α) → List (RoseTree β)
  | [] => []
  | t :: ts => mapTree f t :: map f ts

end

theorem preorder_cons (level : Nat) (a : α) (cs ts : List (RoseTree α))
    : preorder level (node a cs :: ts) = (level, a) :: (preorder (level + 1) cs ++ preorder level ts) := rfl

theorem height_cons (a : α) (cs ts : List (RoseTree α)) : height (node a cs :: ts) = max (height cs + 1) (height ts) := rfl

theorem preorder_map {β : Type} (f : α → β) (level : Nat) (ts : List (RoseTree α))
    : preorder level (map f ts) = (preorder level ts).map (fun e => (e.1, f e.2)) := by
  match ts with
  | [] => rfl
  | node a cs :: ts =>
    rw [preorder_cons, List.map_cons, List.map_append, ← preorder_map f (level + 1) cs, ← preorder_map f level ts]
    rfl

def enter (e : Nat × α) (acc : List (Nat × RoseTree α)) : List (Nat × RoseTree α) :=
  (e.1, node e.2 ((acc.takeWhile (fun t => e.1 < t.1)).map (·.2))) :: acc.dropWhile (fun t => e.1 < t.1)

def rebuild (entries : List (Nat × α)) : List (RoseTree α) := (entries.foldr enter []).map (·.2)

theorem enter_append (level : Nat) (a : α) (cs : List (RoseTree α)) {rest : List (Nat × RoseTree α)}
    (hrest : ∀ t ∈ rest.head?, t.1 ≤ level)
    : enter (level, a) (cs.map (fun t => (level + 1, t)) ++ rest) = (level, node a cs) :: rest := by
  have hcs : ∀ t ∈ cs.map (fun t => (level + 1, t)), decide (level < t.1) = true := by simp
  unfold enter
  rw [List.takeWhile_append_of_pos hcs, List.dropWhile_append_of_pos hcs]
  cases rest with
  | nil => simp
  | cons t rest =>
    have ht : ¬ level < t.1 := Nat.not_lt.mpr (hrest t rfl)
    simp [ht]

theorem foldr_preorder (level : Nat) (ts : List (RoseTree α)) (acc : List (Nat × RoseTree α))
    (hacc : ∀ t ∈ acc.head?, t.1 ≤ level)
    : (preorder level ts).foldr enter acc = ts.map (fun t => (level, t)) ++ acc := by
  match ts with
  | [] => rfl
  | node a cs :: ts =>
    have hhead : ∀ t ∈ (ts.map (fun t => (level, t)) ++ acc).head?, t.1 ≤ level := by
      cases ts with
      | nil => exact hacc
      | cons t ts => simp
    have hcs : ∀ t ∈ (ts.map (fun t => (level, t)) ++ acc).head?, t.1 ≤ level + 1 :=
      fun t ht => Nat.le_succ_of_le (hhead t ht)
    rw [preorder_cons, List.foldr_cons, List.foldr_append, foldr_preorder level ts acc hacc,
      foldr_preorder (level + 1) cs _ hcs, enter_append level a cs hhead]
    rfl

theorem rebuild_preorder (level : Nat) (ts : List (RoseTree α)) : rebuild (preorder level ts) = ts := by
  unfold rebuild
  rw [foldr_preorder level ts [] (by simp)]
  simp

theorem level_lt {level : Nat} {ts : List (RoseTree α)} {e : Nat × α} (he : e ∈ preorder level ts)
    : e.1 < level + height ts := by
  match ts with
  | [] => cases he
  | node a cs :: ts =>
    rw [preorder_cons, List.mem_cons, List.mem_append] at he
    rw [height_cons]
    rcases he with rfl | he | he
    . dsimp only
      omega
    . have := level_lt he
      omega
    . have := level_lt he
      omega

theorem exists_level {ts : List (RoseTree α)} (level : Nat) (h : ts ≠ [])
    : ∃ e ∈ preorder level ts, e.1 + 1 = level + height ts := by
  match ts with
  | [] => exact absurd rfl h
  | node a cs :: ts =>
    simp only [preorder_cons, height_cons, List.mem_cons, List.mem_append]
    by_cases hle : height cs + 1 ≤ height ts
    . have hts : ts ≠ [] := by
        rintro rfl
        simp [height] at hle
      rcases exists_level level hts with ⟨e, he, hlast⟩
      exact ⟨e, .inr (.inr he), by omega⟩
    . cases cs with
      | nil =>
        refine ⟨(level, a), .inl rfl, ?_⟩
        rw [height] at hle ⊢
        dsimp only
        omega
      | cons c cs =>
        rcases exists_level (level + 1) (List.cons_ne_nil c cs) with ⟨e, he, hlast⟩
        exact ⟨e, .inr (.inl he), by omega⟩

end RoseTree
