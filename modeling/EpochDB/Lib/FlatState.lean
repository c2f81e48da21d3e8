import Mathlib

/-!
A flat state of accounts and their slots, where deleting an account takes its slots with it, and what
a replay of writes leaves under each key.
-/

inductive FlatWrite (α κ β : Type) where
  | account (a : α) (v : Option β)
  | slot (a : α) (k : κ) (v : Option β)
  deriving DecidableEq, Repr

@[ext]
structure FlatState (α κ β : Type) where
  account : α → Option β
  slot : α → κ → Option β

section

variable {α κ β : Type} [DecidableEq α] [DecidableEq κ]

namespace FlatState

open Function

def apply (s : FlatState α κ β) : FlatWrite α κ β → FlatState α κ β
  | .account a (some v) => { s with account := update s.account a (some v) }
  | .account a none =>
    ⟨update s.account a none, update s.slot a (fun _ => none)⟩
  | .slot a k v => { s with slot := update s.slot a (update (s.slot a) k v) }

def replay (s : FlatState α κ β) (ws : List (FlatWrite α κ β)) : FlatState α κ β := ws.foldl apply s

@[simp]
theorem replay_nil (s : FlatState α κ β) : s.replay [] = s := rfl

@[simp]
theorem replay_append (s : FlatState α κ β) (ws ws' : List (FlatWrite α κ β))
    : s.replay (ws ++ ws') = (s.replay ws).replay ws' := by
  simp [replay]

@[simp]
theorem replay_cons (s : FlatState α κ β) (w : FlatWrite α κ β) (ws : List (FlatWrite α κ β))
    : s.replay (w :: ws) = (s.apply w).replay ws := rfl

theorem account_apply_account (s : FlatState α κ β) (a a' : α) (v : Option β)
    : (s.apply (.account a v)).account a' = if a' = a then v else s.account a' := by
  cases v <;> simp [apply, update_apply]

theorem slot_apply_delete (s : FlatState α κ β) (a a' : α) (k : κ)
    : (s.apply (.account a none)).slot a' k = if a' = a then none else s.slot a' k := by
  simp only [apply, update_apply]
  split <;> rfl

theorem slot_apply_slot (s : FlatState α κ β) (a a' : α) (k k' : κ) (v : Option β)
    : (s.apply (.slot a k v)).slot a' k' = if a' = a ∧ k' = k then v else s.slot a' k' := by
  by_cases ha : a' = a
  . subst ha
    simp [apply, update_apply]
  . simp [apply, ha]

end FlatState

namespace FlatWrite

def accountValue (a : α) : FlatWrite α κ β → Option (Option β)
  | .account a' v => if a' = a then some v else none
  | .slot .. => none

def slotValue (a : α) (k : κ) : FlatWrite α κ β → Option (Option β)
  | .account .. => none
  | .slot a' k' v => if a' = a ∧ k' = k then some v else none

def lastAccount (a : α) (ws : List (FlatWrite α κ β)) : Option (Option β) :=
  (ws.filterMap (accountValue a)).getLast?

def lastSlot (a : α) (k : κ) (ws : List (FlatWrite α κ β)) : Option (Option β) :=
  (ws.filterMap (slotValue a k)).getLast?

def clears (a : α) (k : κ) (cleared : Bool) : FlatWrite α κ β → Bool
  | .account a' none => cleared || a' = a
  | .account _ (some _) => cleared
  | .slot a' k' _ => cleared && !(a' = a ∧ k' = k)

def cleared (a : α) (k : κ) (ws : List (FlatWrite α κ β)) : Bool := ws.foldl (clears a k) false

theorem cleared_append (a : α) (k : κ) (ws : List (FlatWrite α κ β)) (w : FlatWrite α κ β)
    : cleared a k (ws ++ [w]) = clears a k (cleared a k ws) w := by
  simp [cleared]

omit [DecidableEq κ] in
theorem lastAccount_append (a : α) (ws : List (FlatWrite α κ β)) (w : FlatWrite α κ β)
    : lastAccount a (ws ++ [w]) = (accountValue a w).or (lastAccount a ws) := by
  unfold lastAccount
  cases h : accountValue a w <;> simp [h]

theorem lastSlot_append (a : α) (k : κ) (ws : List (FlatWrite α κ β)) (w : FlatWrite α κ β)
    : lastSlot a k (ws ++ [w]) = (slotValue a k w).or (lastSlot a k ws) := by
  unfold lastSlot
  cases h : slotValue a k w <;> simp [h]

theorem lastSlot_append_list (a : α) (k : κ) (ws ws' : List (FlatWrite α κ β))
    : lastSlot a k (ws ++ ws') = (lastSlot a k ws').or (lastSlot a k ws) := by
  simp [lastSlot, List.getLast?_append]

theorem foldl_clears (a : α) (k : κ) {ws : List (FlatWrite α κ β)} (hws : .account a none ∉ ws) (c : Bool)
    : ws.foldl (clears a k) c = (c && (lastSlot a k ws).isNone) := by
  induction ws using List.reverseRecOn with
  | nil => simp [lastSlot]
  | append_singleton ws w ih =>
    rw [List.mem_append, not_or] at hws
    rw [List.foldl_append, ih hws.1, lastSlot_append]
    cases w with
    | account a' v =>
      cases v with
      | none =>
        have ha : a' ≠ a := by
          rintro rfl
          simp at hws
        simp [clears, slotValue, ha]
      | some v => simp [clears, slotValue]
    | slot a' k' v =>
      by_cases hk : a' = a ∧ k' = k
      . simp [clears, slotValue, hk]
      . simp [clears, slotValue, hk]

theorem cleared_append_of_not_mem (a : α) (k : κ) (ws : List (FlatWrite α κ β))
    {ws' : List (FlatWrite α κ β)} (hws : .account a none ∉ ws')
    : cleared a k (ws ++ ws') = (cleared a k ws && (lastSlot a k ws').isNone) := by
  rw [cleared, List.foldl_append]
  exact foldl_clears a k hws _

theorem cleared_of_not_mem (a : α) (k : κ) {ws : List (FlatWrite α κ β)} (hws : .account a none ∉ ws)
    : cleared a k ws = false := by
  rw [cleared, foldl_clears a k hws]
  rfl

theorem cleared_append_delete (a : α) (k : κ) (ws : List (FlatWrite α κ β))
    : cleared a k (ws ++ [.account a none]) = true := by
  simp [cleared_append, clears]

end FlatWrite

namespace FlatState

open FlatWrite

theorem account_replay (s : FlatState α κ β) (ws : List (FlatWrite α κ β)) (a : α)
    : (s.replay ws).account a = (lastAccount a ws).getD (s.account a) := by
  induction ws using List.reverseRecOn with
  | nil => rfl
  | append_singleton ws w ih =>
    rw [replay_append, replay_cons, replay_nil, lastAccount_append]
    cases w with
    | account a' v =>
      rw [account_apply_account, ih]
      by_cases ha : a' = a
      . simp [accountValue, ha]
      . simp [accountValue, ha, Ne.symm ha]
    | slot a' k' v => simpa [accountValue, apply] using ih

theorem slot_replay (s : FlatState α κ β) (ws : List (FlatWrite α κ β)) (a : α) (k : κ)
    : (s.replay ws).slot a k =
        if cleared a k ws then none else (lastSlot a k ws).getD (s.slot a k) := by
  induction ws using List.reverseRecOn with
  | nil => rfl
  | append_singleton ws w ih =>
    rw [replay_append, replay_cons, replay_nil, lastSlot_append, cleared_append]
    cases w with
    | account a' v =>
      cases v with
      | none =>
        rw [slot_apply_delete, ih]
        by_cases ha : a' = a
        . simp [clears, ha]
        . simp [clears, slotValue, ha, Ne.symm ha]
      | some v => exact ih
    | slot a' k' v =>
      rw [slot_apply_slot, ih]
      by_cases hk : a' = a ∧ k' = k
      . rcases hk with ⟨rfl, rfl⟩
        simp [clears, slotValue]
      . have hk' : ¬ (a = a' ∧ k = k') := fun h => hk ⟨h.1.symm, h.2.symm⟩
        simp [clears, slotValue, hk, hk']

end FlatState

end
