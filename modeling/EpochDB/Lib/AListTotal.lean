import Mathlib

/-!
The sum of a weight over the entries of an association list, as entries come and go.
-/

namespace AList

variable {α : Type} {β : α → Type}

def total (f : Sigma β → Nat) (s : AList β) : Nat := (s.entries.map f).sum

variable [DecidableEq α] (f : Sigma β → Nat) {s : AList β} {a : α} {b : β a}

theorem total_insert (s : AList β) (a : α) (b : β a) : total f (s.insert a b) = f ⟨a, b⟩ + total f (s.erase a) := by
  unfold total
  rw [entries_insert, List.map_cons, List.sum_cons]
  rfl

theorem total_erase (h : s.lookup a = some b) : total f s = f ⟨a, b⟩ + total f (s.erase a) := by
  have hmem : a ∈ s := by
    rw [← lookup_isSome, h]
    rfl
  rcases List.exists_of_kerase (mem_keys.mp hmem) with ⟨b', l, l', hl, hs, hkerase⟩
  have hb : b' = b := by
    have hlookup : ⟨a, b'⟩ ∈ s.entries := by
      rw [hs]
      simp
    have hb' : s.lookup a = some b' := mem_lookup_iff.mpr hlookup
    rw [h] at hb'
    exact (Option.some.inj hb').symm
  have herase : (s.erase a).entries = l ++ l' := hkerase
  unfold total
  rw [herase, hs, hb, List.map_append, List.map_cons, List.sum_append, List.sum_cons, List.map_append, List.sum_append]
  omega

theorem erase_of_lookup_eq_none (h : s.lookup a = none) : s.erase a = s := by
  apply ext
  exact List.kerase_of_notMem_keys (lookup_eq_none.mp h)

end AList
