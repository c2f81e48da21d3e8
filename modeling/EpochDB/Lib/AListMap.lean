import Mathlib

/-!
Association lists that differ in their values by a function.
-/

namespace AListMap

variable {κ β γ : Type} [DecidableEq κ]

def Maps (f : β → γ) (s : AList (fun _ : κ => β)) (t : AList (fun _ : κ => γ)) : Prop :=
  t.entries = s.entries.map (fun e => ⟨e.1, f e.2⟩)

variable {f : β → γ} {s : AList (fun _ : κ => β)} {t : AList (fun _ : κ => γ)}

theorem Maps.lookup (h : Maps f s t) (k : κ) : t.lookup k = (s.lookup k).map f := by
  have hlookup : ∀ l : List (Sigma (fun _ : κ => β)),
      List.dlookup k (l.map (fun e => (⟨e.1, f e.2⟩ : Sigma (fun _ : κ => γ)))) = (List.dlookup k l).map f := by
    intro l
    induction l with
    | nil => rfl
    | cons e l ih =>
      by_cases hk : k = e.1
      . subst hk
        rw [List.map_cons, List.dlookup_cons_eq, List.dlookup_cons_eq]
        rfl
      . rw [List.map_cons, List.dlookup_cons_ne l e hk, ← ih]
        exact List.dlookup_cons_ne _ _ hk
  unfold AList.lookup
  rw [h, hlookup]

theorem Maps.insert (h : Maps f s t) (k : κ) (b : β) : Maps f (s.insert k b) (t.insert k (f b)) := by
  unfold Maps at h ⊢
  rw [AList.entries_insert, AList.entries_insert, h, List.map_cons, List.kerase, List.kerase, List.eraseP_map]
  rfl

theorem Maps.congr {g : β → γ} (h : Maps f s t) (hfg : ∀ k b, s.lookup k = some b → f b = g b) : Maps g s t := by
  unfold Maps at h ⊢
  rw [h]
  apply List.map_congr_left
  intro e he
  rw [hfg e.1 e.2 (AList.mem_lookup_iff.mpr he)]

theorem lookup_insert (s : AList (fun _ : κ => β)) (k k' : κ) (b : β)
    : (s.insert k b).lookup k' = if k' = k then some b else s.lookup k' := by
  by_cases hk : k' = k
  . subst hk
    rw [AList.lookup_insert, if_pos rfl]
  . rw [AList.lookup_insert_ne hk, if_neg hk]

theorem lookup_erase (s : AList (fun _ : κ => β)) (k k' : κ)
    : (s.erase k).lookup k' = if k' = k then none else s.lookup k' := by
  by_cases hk : k' = k
  . subst hk
    rw [AList.lookup_erase, if_pos rfl]
  . rw [AList.lookup_erase_ne hk, if_neg hk]

def keep (p : κ → β → Bool) (s : AList (fun _ : κ => β)) : AList (fun _ : κ => β) :=
  ⟨s.entries.filter (fun e => p e.1 e.2), s.nodupKeys.sublist List.filter_sublist⟩

theorem lookup_keep (p : κ → β → Bool) (s : AList (fun _ : κ => β)) (k : κ)
    : (keep p s).lookup k = (s.lookup k).filter (p k) := by
  apply Option.ext
  intro b
  have hkeep : (keep p s).lookup k = some b ↔ (⟨k, b⟩ : Sigma (fun _ : κ => β)) ∈ s.entries ∧ p k b = true := by
    refine Iff.trans AList.mem_lookup_iff ?_
    simp [keep]
  rw [hkeep, Option.filter_eq_some_iff]
  exact and_congr_left' AList.mem_lookup_iff.symm

end AListMap
