import Mathlib

/-!
Running a computation with state and errors (`EStateM`, which keeps the state on an error), one
equation for each primitive, and how a run composes.
-/

namespace EStateM

variable {ε ε' σ α β ι : Type}

variable {f : EStateM ε σ α} {g : α → EStateM ε σ β} {s s' : σ}

theorem run_bind_eq_ok {b : β} : (f >>= g).run s = .ok b s' ↔ ∃ a s'', f.run s = .ok a s'' ∧ (g a).run s'' = .ok b s' := by
  rw [run_bind]
  constructor
  . intro h
    split at h
    . next a s'' hf => exact ⟨a, s'', hf, h⟩
    . contradiction
  . rintro ⟨a, s'', hf, hg⟩
    rw [hf]
    exact hg

def Result.isOk : Result ε σ α → Bool
  | .ok .. => true
  | .error .. => false

def Result.okAnd (p : σ → Bool) : Result ε σ α → Bool
  | .ok _ s => p s
  | .error .. => false

theorem exists_of_okAnd {r : Result ε σ α} {p : σ → Bool} (h : r.okAnd p) : ∃ a s, r = .ok a s ∧ p s := by
  cases r with
  | ok a s => exact ⟨a, s, rfl, h⟩
  | error e s => contradiction

theorem run_bind_of_ok {a : α} (h : f.run s = .ok a s') : (f >>= g).run s = (g a).run s' := by
  rw [run_bind]
  rw [h]

theorem run_bind_of_error {e : ε} (h : f.run s = .error e s') : (f >>= g).run s = .error e s' := by
  rw [run_bind]
  rw [h]

theorem run_adaptExcept_eq_ok {g : ε → ε'} {a : α} : (f.adaptExcept g).run s = .ok a s' ↔ f.run s = .ok a s' := by
  simp only [adaptExcept, run]
  cases f s with
  | ok a s => simp
  | error e s => simp

@[simp]
theorem run_forM_nil (f : ι → EStateM ε σ PUnit) (s : σ) : (([] : List ι).forM f).run s = .ok ⟨⟩ s := rfl

theorem run_forM_cons (f : ι → EStateM ε σ PUnit) (i : ι) (is : List ι) : (i :: is).forM f = (do f i; is.forM f) := rfl

theorem run_forM_append {f : ι → EStateM ε σ PUnit} {is js : List ι}
    : ((is ++ js).forM f).run s = .ok ⟨⟩ s' ↔
        ∃ s'', (is.forM f).run s = .ok ⟨⟩ s'' ∧ (js.forM f).run s'' = .ok ⟨⟩ s' := by
  induction is generalizing s with
  | nil => simp
  | cons i is ih =>
    simp only [List.cons_append, run_forM_cons, run_bind_eq_ok]
    constructor
    . rintro ⟨a, s1, hi, hrest⟩
      rw [ih] at hrest
      rcases hrest with ⟨s2, h1, h2⟩
      exact ⟨s2, ⟨a, s1, hi, h1⟩, h2⟩
    . rintro ⟨s2, ⟨a, s1, hi, h1⟩, h2⟩
      exact ⟨a, s1, hi, ih.mpr ⟨s2, h1, h2⟩⟩

def Result.state : Result ε σ α → σ
  | .ok _ s => s
  | .error _ s => s

theorem run_bind_eq_error {e : ε}
    : (f >>= g).run s = .error e s' ↔
        f.run s = .error e s' ∨ ∃ a s'', f.run s = .ok a s'' ∧ (g a).run s'' = .error e s' := by
  rw [run_bind]
  constructor
  . intro h
    split at h
    . next a s'' hf => exact .inr ⟨a, s'', hf, h⟩
    . next e' s'' hf =>
      cases h
      exact .inl hf
  . rintro (hf | ⟨a, s'', hf, hg⟩)
    . rw [hf]
    . rw [hf]
      exact hg

section Triple

def Triple (P : σ → Prop) (f : EStateM ε σ α) (Q : α → σ → Prop) (E : σ → Prop) : Prop :=
  ∀ s, P s → (∀ a s', f.run s = .ok a s' → Q a s') ∧ ∀ e s', f.run s = .error e s' → E s'

variable {P : σ → Prop} {E : σ → Prop}

theorem Triple.state {f : EStateM ε σ α} (h : Triple P f (fun _ => E) E) {s : σ} (hs : P s) : E (f.run s).state := by
  cases hrun : f.run s with
  | ok a s' => exact (h s hs).1 a s' hrun
  | error e s' => exact (h s hs).2 e s' hrun

theorem Triple.pure {Q : α → σ → Prop} {a : α} (h : ∀ s, P s → Q a s) : Triple P (pure a : EStateM ε σ α) Q E := by
  intro s hs
  constructor
  . intro a s' hrun
    cases hrun
    exact h s hs
  . intro e s' hrun
    cases hrun

theorem Triple.throw {Q : α → σ → Prop} {e : ε} (h : ∀ s, P s → E s) : Triple P (throw e : EStateM ε σ α) Q E := by
  intro s hs
  constructor
  . intro a s' hrun
    cases hrun
  . intro e s' hrun
    cases hrun
    exact h s hs

theorem Triple.modify {Q : PUnit → σ → Prop} {f : σ → σ} (h : ∀ s, P s → Q ⟨⟩ (f s))
    : Triple P (modify f : EStateM ε σ PUnit) Q E := by
  intro s hs
  constructor
  . intro a s' hrun
    cases hrun
    exact h s hs
  . intro e s' hrun
    cases hrun

theorem Triple.bind {Q : α → σ → Prop} {R : β → σ → Prop} {f : EStateM ε σ α} {g : α → EStateM ε σ β}
    (hf : Triple P f Q E) (hg : ∀ a, Triple (Q a) (g a) R E) : Triple P (f >>= g) R E := by
  intro s hs
  constructor
  . intro b s' hrun
    rw [run_bind_eq_ok] at hrun
    rcases hrun with ⟨a, s'', h1, h2⟩
    exact (hg a s'' ((hf s hs).1 a s'' h1)).1 b s' h2
  . intro e s' hrun
    rw [run_bind_eq_error] at hrun
    rcases hrun with h1 | ⟨a, s'', h1, h2⟩
    . exact (hf s hs).2 e s' h1
    . exact (hg a s'' ((hf s hs).1 a s'' h1)).2 e s' h2

theorem Triple.get {R : β → σ → Prop} {g : σ → EStateM ε σ β}
    (hg : ∀ s, Triple (fun s' => s' = s ∧ P s) (g s) R E) : Triple P (get >>= g) R E := by
  intro s hs
  have := hg s s ⟨rfl, hs⟩
  rw [run_bind_of_ok (run_get s)]
  exact this

theorem Triple.imp {P' : σ → Prop} {Q Q' : α → σ → Prop} {E' : σ → Prop} {f : EStateM ε σ α}
    (h : Triple P f Q E) (hP : ∀ s, P' s → P s) (hQ : ∀ a s, Q a s → Q' a s) (hE : ∀ s, E s → E' s)
    : Triple P' f Q' E' := by
  intro s hs
  rcases h s (hP s hs) with ⟨hok, herr⟩
  exact ⟨fun a s' hrun => hQ a s' (hok a s' hrun), fun e s' hrun => hE s' (herr e s' hrun)⟩

theorem Triple.forM {I : Nat → σ → Prop} {f : ι → EStateM ε σ PUnit} {is : List ι}
    (h : ∀ k i, is[k]? = some i → Triple (I k) (f i) (fun _ => I (k + 1)) E)
    : Triple (I 0) (is.forM f) (fun _ => I is.length) E := by
  induction is generalizing I with
  | nil => exact Triple.pure (fun _ hs => hs)
  | cons i is ih =>
    rw [run_forM_cons]
    apply Triple.bind (h 0 i rfl)
    intro _
    exact ih (fun k j hj => h (k + 1) j hj)

end Triple

section Trace

variable {τ : Type} (Q : τ → Prop) (T B : σ → List τ → σ → Prop)

def Traces (f : EStateM ε σ α) : Prop :=
  ∀ s,
    (∀ a s', f.run s = .ok a s' → ∃ l, (∀ t ∈ l, Q t) ∧ T s l s') ∧
    (∀ e s', f.run s = .error e s' → ∃ l, (∀ t ∈ l, Q t) ∧ B s l s')

variable {Q T B}

theorem Traces.mono {Q' : τ → Prop} {f : EStateM ε σ α} (h : Traces Q T B f) (hQ : ∀ t, Q t → Q' t) : Traces Q' T B f := by
  intro s
  constructor
  . intro a s' hf
    rcases (h s).1 a s' hf with ⟨l, hl, ht⟩
    exact ⟨l, fun t htl => hQ t (hl t htl), ht⟩
  . intro e s' hf
    rcases (h s).2 e s' hf with ⟨l, hl, ht⟩
    exact ⟨l, fun t htl => hQ t (hl t htl), ht⟩

section

variable (happ : ∀ {s s' s'' l l'}, T s l s' → T s' l' s'' → T s (l ++ l') s'')
variable (hbreak : ∀ {s s' s'' l l'}, T s l s' → B s' l' s'' → B s (l ++ l') s'')

include happ hbreak

theorem Traces.bind {f : EStateM ε σ α} {g : α → EStateM ε σ β} (hf : Traces Q T B f)
    (hg : ∀ a, Traces Q T B (g a)) : Traces Q T B (f >>= g) := by
  have happend : ∀ {l l' : List τ}, (∀ t ∈ l, Q t) → (∀ t ∈ l', Q t) → ∀ t ∈ l ++ l', Q t := by
    intro l l' hl hl' t ht
    rw [List.mem_append] at ht
    exact ht.elim (hl t) (hl' t)
  intro s
  constructor
  . intro b s' h
    rw [run_bind_eq_ok] at h
    rcases h with ⟨a, s'', h1, h2⟩
    rcases (hf s).1 _ _ h1 with ⟨l, hl, ht⟩
    rcases (hg a s'').1 _ _ h2 with ⟨l', hl', ht'⟩
    exact ⟨l ++ l', happend hl hl', happ ht ht'⟩
  . intro e s' h
    rw [run_bind_eq_error] at h
    rcases h with h1 | ⟨a, s'', h1, h2⟩
    . exact (hf s).2 _ _ h1
    . rcases (hf s).1 _ _ h1 with ⟨l, hl, ht⟩
      rcases (hg a s'').2 _ _ h2 with ⟨l', hl', ht'⟩
      exact ⟨l ++ l', happend hl hl', hbreak ht ht'⟩

theorem Traces.forM (hnil : ∀ s, T s [] s) {f : ι → EStateM ε σ PUnit} {is : List ι}
    (hf : ∀ i ∈ is, Traces Q T B (f i)) : Traces Q T B (is.forM f) := by
  induction is with
  | nil =>
    intro s
    constructor
    . intro a s' h
      cases h
      exact ⟨[], by simp, hnil s⟩
    . intro e s' h
      cases h
  | cons i is ih =>
    rw [run_forM_cons]
    apply Traces.bind happ hbreak
    . apply hf
      simp
    . intro _
      apply ih
      intro j hj
      apply hf
      simp [hj]

end

end Trace

section Emits

variable {τ : Type} (T : σ → List τ → σ → Prop)

def Emits (l : List τ) (f : EStateM ε σ α) : Prop := ∀ s a s', f.run s = .ok a s' → T s l s'

variable {T} (happ : ∀ {s s' s'' l l'}, T s l s' → T s' l' s'' → T s (l ++ l') s'')

include happ

theorem Emits.bind {l l' : List τ} {f : EStateM ε σ α} {g : α → EStateM ε σ β} (hf : Emits T l f)
    (hg : ∀ a, Emits T l' (g a)) : Emits T (l ++ l') (f >>= g) := by
  intro s b s' h
  rw [run_bind_eq_ok] at h
  rcases h with ⟨a, s'', h1, h2⟩
  exact happ (hf _ _ _ h1) (hg a _ _ _ h2)

theorem Emits.forM (hnil : ∀ s, T s [] s) {l : ι → List τ} {f : ι → EStateM ε σ PUnit} {is : List ι}
    (hf : ∀ i ∈ is, Emits T (l i) (f i)) : Emits T (is.flatMap l) (is.forM f) := by
  induction is with
  | nil =>
    intro s a s' h
    cases h
    exact hnil s
  | cons i is ih =>
    rw [run_forM_cons, List.flatMap_cons]
    exact Emits.bind happ (hf i (by simp)) (fun _ => ih (fun j hj => hf j (by simp [hj])))

end Emits

end EStateM
