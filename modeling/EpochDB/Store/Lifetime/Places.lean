import EpochDB.Store.Lifetime.Impl

/-!
Where an open handle is: every one is in exactly one of four places, new, referred to, about to be closed,
or closed. What the operations on the counters change of that.
-/

namespace EpochDB.Store.Lifetime

open List Function

theorem sum_range_update {α : Type} (f : α → Nat) (g : Nat → α) (a : α) {i n : Nat} (hi : i < n)
    : (∑ v ∈ Finset.range n, f (update g i a v)) + f (g i) = (∑ v ∈ Finset.range n, f (g v)) + f a := by
  have hmem : i ∈ Finset.range n := Finset.mem_range.mpr hi
  rw [← Finset.add_sum_erase _ _ hmem, ← Finset.add_sum_erase _ (fun v => f (g v)) hmem, update_self]
  have hrest : ∀ v ∈ (Finset.range n).erase i, f (update g i a v) = f (g v) := by
    intro v hv
    rw [update_of_ne (Finset.ne_of_mem_erase hv)]
  rw [Finset.sum_congr rfl hrest]
  omega

theorem count_flatMap_set {α β : Type} [BEq β] {l : List α} {i : Nat} {a : α} (hi : l[i]? = some a) (a' : α)
    (f : α → List β) (b : β) : ((l.set i a').flatMap f).count b + (f a).count b = (l.flatMap f).count b + (f a').count b := by
  induction l generalizing i with
  | nil => cases hi
  | cons x l ih =>
    cases i with
    | zero =>
      cases hi
      simp only [set_cons_zero, flatMap_cons, count_append]
      omega
    | succ i =>
      have := ih (i := i) hi
      simp only [set_cons_succ, flatMap_cons, count_append]
      omega

theorem count_flatMap_eraseIdx {α β : Type} [BEq β] {l : List α} {i : Nat} {a : α} (hi : l[i]? = some a)
    (f : α → List β) (b : β) : ((l.eraseIdx i).flatMap f).count b + (f a).count b = (l.flatMap f).count b := by
  induction l generalizing i with
  | nil => cases hi
  | cons x l ih =>
    cases i with
    | zero =>
      cases hi
      simp only [eraseIdx_cons_zero, flatMap_cons, count_append]
      omega
    | succ i =>
      have := ih (i := i) hi
      simp only [eraseIdx_cons_succ, flatMap_cons, count_append]
      omega

def Version.holds (v : Version) (h : Handle) : Nat := if v.refs = 0 then 0 else v.runs.count h

namespace Writer

def ops : Writer → List Op
  | dropping ops => ops
  | closing ops => ops
  | _ => []

def todo : Writer → List Handle
  | holding todo _ => todo
  | _ => []

def done : Writer → List Handle
  | holding _ done => done
  | _ => []

end Writer

namespace State

variable (s : State)

def ops : List Op := s.calls.flatten ++ (s.mu.map Writer.ops).getD []
def todo : List Handle := (s.mu.map Writer.todo).getD []
def done : List Handle := (s.mu.map Writer.done).getD []

def alive (h : Handle) : Nat := ∑ v ∈ Finset.range s.made, (s.version v).holds h

def total (h : Handle) : Nat := s.alive h + s.ops.count (.drop h) + s.done.count h

def unheld (runs : List Handle) : List Handle := runs.filter (fun k => !s.current.contains k)

def unborn (h : Handle) : Nat :=
  s.fresh.count h + (s.reopens.flatMap Reopen.fresh).count h + (s.unheld s.todo).count h

def owned (v : Nat) : Nat :=
  (if s.held = true ∧ v = s.ver then 1 else 0) + (if s.mu = some (.releasing v) then 1 else 0)

def names (l : List Handle) : List RunName := l.map (fun h => (s.run h).name)

end State

theorem unborn_eq {s s' : State} (htodo : s'.todo = s.todo) (hcurrent : s'.current = s.current) (k : Handle)
    : s'.unborn k = s'.fresh.count k + (s'.reopens.flatMap Reopen.fresh).count k + (s.unheld s.todo).count k := by
  unfold State.unborn State.unheld
  rw [htodo, hcurrent]

structure Placed (s : State) : Prop where
  refs : ∀ h, (s.run h).refs = s.total h
  once : ∀ h, (s.run h).closes + s.ops.count (.close h) + min 1 (s.total h) + s.unborn h = if h < s.opened then 1 else 0

structure Versioned (s : State) : Prop where
  vrefs : ∀ v, (s.version v).refs = (s.readers.count v + s.owned v : Nat)
  made : ∀ v, (s.version v).refs ≠ 0 → v < s.made
  ver : s.ver < s.made
  held : s.held = false → ∃ ops, s.mu = some (.closing ops)
  closing : ∀ ops, s.mu = some (.closing ops) → s.held = false

structure Distinct (s : State) : Prop where
  version : ∀ v, (s.version v).refs ≠ 0 → (s.names (s.version v).runs).Nodup
  swap : (s.names (s.done ++ s.todo)).Nodup
  reopen : ∀ t ∈ s.reopens, (s.names t.fresh ++ t.rest).Nodup

structure Inv (s : State) : Prop extends Placed s, Versioned s where
  names : Distinct s

namespace Inv

variable {s : State} (h : Inv s)

include h

variable {k : Handle} {v : Nat}

theorem lt_opened (hk : 0 < s.total k ∨ 0 < s.unborn k) : k < s.opened := by
  have hone := h.once k
  split at hone
  . assumption
  . omega

theorem total_eq_zero (hk : 0 < s.unborn k) : s.total k = 0 := by
  have hone := h.once k
  split at hone <;> omega

theorem total_pos (hv : (s.version v).refs ≠ 0) (hk : k ∈ (s.version v).runs) : 0 < s.total k := by
  have hle : (s.version v).holds k ≤ s.alive k :=
    Finset.single_le_sum (f := fun v => (s.version v).holds k) (fun _ _ => Nat.zero_le _)
      (Finset.mem_range.mpr (h.made v hv))
  have hpos : 0 < (s.version v).holds k := by
    unfold Version.holds
    rw [if_neg hv]
    exact count_pos_iff.mpr hk
  unfold State.total
  omega

theorem current_refs (hheld : s.held = true) : (s.version s.ver).refs ≠ 0 := by
  have hrefs := h.vrefs s.ver
  unfold State.owned at hrefs
  rw [if_pos ⟨hheld, rfl⟩] at hrefs
  omega

theorem held_of_none (hmu : s.mu = none) : s.held = true := by
  cases hheld : s.held with
  | true => rfl
  | false =>
    rcases h.held hheld with ⟨ops, hops⟩
    rw [hmu] at hops
    cases hops

theorem lt_of_mem_version (hv : (s.version v).refs ≠ 0) (hk : k ∈ (s.version v).runs) : k < s.opened :=
  h.lt_opened (.inl (h.total_pos hv hk))

theorem lt_of_mem_todo (hheld : s.held = true) (hk : k ∈ s.todo) : k < s.opened := by
  by_cases hcur : k ∈ s.current
  . exact h.lt_of_mem_version (h.current_refs hheld) hcur
  . have hpos : 0 < (s.unheld s.todo).count k :=
      count_pos_iff.mpr (mem_filter.mpr ⟨hk, by simpa using hcur⟩)
    apply h.lt_opened
    unfold State.unborn
    omega

theorem lt_of_mem_done (hk : k ∈ s.done) : k < s.opened := by
  have hpos := count_pos_iff.mpr hk
  apply h.lt_opened
  unfold State.total
  omega

theorem lt_of_mem_reopens {t : Reopen} (ht : t ∈ s.reopens) (hk : k ∈ t.fresh) : k < s.opened := by
  have hpos := count_pos_iff.mpr (mem_flatMap_of_mem ht hk)
  apply h.lt_opened
  unfold State.unborn
  omega

theorem held_of_mem_todo (hk : k ∈ s.todo) : s.held = true := by
  cases hheld : s.held with
  | true => rfl
  | false =>
    rcases h.held hheld with ⟨ops, hops⟩
    simp [State.todo, hops, Writer.todo] at hk

theorem mem_readers (hv : v ∈ s.readers) : (s.version v).refs ≠ 0 := by
  have hrefs := h.vrefs v
  have hcount := count_pos_iff.mpr hv
  omega

end Inv

theorem exec_spec {s : State} {ops : List Op} {base : Handle → Nat}
    (hrefs : ∀ k, (s.run k).refs = (base k + ops.count (.drop k) : Nat)) (k : Handle)
    : ((s.exec ops).1.run k).refs = (base k + (s.exec ops).2.count (.drop k) : Nat) ∧
      ((s.exec ops).1.run k).closes + (s.exec ops).2.count (.close k) +
          min 1 (base k + (s.exec ops).2.count (.drop k)) =
        (s.run k).closes + ops.count (.close k) + min 1 (base k + ops.count (.drop k)) := by
  have hk := hrefs k
  cases ops with
  | nil => exact ⟨hk, rfl⟩
  | cons op rest =>
    cases op with
    | drop h =>
      simp only [State.exec, State.drop]
      by_cases hh : k = h
      . subst hh
        rw [count_cons_self] at hk
        split
        . next hzero =>
          simp only [update_self, count_cons_self, count_cons, reduceCtorEq, beq_iff_eq, if_false]
          omega
        . next hzero =>
          simp only [update_self, count_cons_self, count_cons, reduceCtorEq, beq_iff_eq, if_false]
          omega
      . have hne : h ≠ k := fun heq => hh heq.symm
        rw [count_cons_of_ne (by simpa using hne)] at hk
        split
        . simp [update_of_ne hh, hne, hk]
        . simp [update_of_ne hh, hne, hk]
    | close h =>
      simp only [State.exec, State.close]
      by_cases hh : k = h
      . subst hh
        simp at hk ⊢
        omega
      . have hne : h ≠ k := fun heq => hh heq.symm
        simp [update_of_ne hh, hne] at hk ⊢
        exact hk

theorem exec_frame (s : State) (ops : List Op) : (s.exec ops).1 = { s with run := (s.exec ops).1.run } := by
  unfold State.exec State.drop
  split
  . rfl
  . dsimp only
    split <;> rfl
  . rfl

theorem exec_name (s : State) (ops : List Op) (k : Handle) : ((s.exec ops).1.run k).name = (s.run k).name := by
  have hupdate : ∀ (h : Handle) (r : Run), r.name = (s.run h).name →
      (update s.run h r k).name = (s.run k).name := by
    intro h r hr
    by_cases hk : k = h
    . rw [hk, update_self, hr]
    . rw [update_of_ne hk]
  unfold State.exec State.drop
  split
  . rfl
  . dsimp only
    split <;> exact hupdate _ _ rfl
  . exact hupdate _ _ rfl

theorem release_alive {s : State} {v : Nat} (hrefs : (s.version v).refs ≠ 0) (hv : v < s.made) (k : Handle)
    : (s.release v).1.alive k + (s.release v).2.count (.drop k) = s.alive k := by
  have hsum := sum_range_update (Version.holds · k) s.version
    ⟨(s.version v).runs, (s.version v).refs - 1⟩ hv
  beta_reduce at hsum
  have hold : (s.version v).holds k = (s.version v).runs.count k := if_neg hrefs
  unfold State.release
  dsimp only
  split
  . next hzero =>
    have hnew : Version.holds ⟨(s.version v).runs, (s.version v).refs - 1⟩ k = 0 := if_pos hzero
    have hcount : ((s.version v).runs.map Op.drop).count (.drop k) = (s.version v).runs.count k :=
      count_map_of_injective _ _ (fun _ _ heq => by cases heq; rfl) _
    rw [hcount]
    simp only [State.alive]
    omega
  . next hzero =>
    have hnew : Version.holds ⟨(s.version v).runs, (s.version v).refs - 1⟩ k = (s.version v).runs.count k :=
      if_neg hzero
    simp only [State.alive, count_nil]
    omega

theorem release_close (s : State) (v : Nat) (k : Handle) : (s.release v).2.count (.close k) = 0 := by
  unfold State.release
  dsimp only
  split
  . rw [count_eq_zero]
    simp
  . rfl

theorem release_frame (s : State) (v : Nat) : (s.release v).1 =
    { s with version := update s.version v { s.version v with refs := (s.version v).refs - 1 } } := by
  unfold State.release
  dsimp only
  split <;> rfl

theorem alive_takeSnapshot {s : State} (h : Inv s) (hmu : s.mu = none) (k : Handle) : s.takeSnapshot.alive k = s.alive k := by
  have hrefs := h.current_refs (h.held_of_none hmu)
  have hpos : 0 < (s.version s.ver).refs := by
    have := h.vrefs s.ver
    omega
  have hsum := sum_range_update (Version.holds · k) s.version
    ⟨(s.version s.ver).runs, (s.version s.ver).refs + 1⟩ h.ver
  beta_reduce at hsum
  have hold : (s.version s.ver).holds k = (s.version s.ver).runs.count k := if_neg hrefs
  have hnew : Version.holds ⟨(s.version s.ver).runs, (s.version s.ver).refs + 1⟩ k =
      (s.version s.ver).runs.count k := if_neg (by dsimp only; omega)
  simp only [State.takeSnapshot, State.alive]
  omega

theorem alive_install {s : State} (runs : List Handle) (k : Handle)
    : (s.install runs).alive k = s.alive k + runs.count k := by
  simp only [State.install, State.alive]
  rw [Finset.sum_range_succ, update_self]
  have hnew : Version.holds ⟨runs, 1⟩ k = runs.count k := if_neg one_ne_zero
  have hrest : ∀ v ∈ Finset.range s.made, (update s.version s.made ⟨runs, 1⟩ v).holds k = (s.version v).holds k := by
    intro v hv
    rw [update_of_ne (by have := Finset.mem_range.mp hv; omega)]
  rw [Finset.sum_congr rfl hrest, hnew]

theorem release_runs (s : State) (v w : Nat) : ((s.release v).1.version w).runs = (s.version w).runs := by
  rw [release_frame]
  by_cases hw : w = v
  . simp [hw]
  . simp [update_of_ne hw]

theorem release_refs (s : State) (v w : Nat)
    : ((s.release v).1.version w).refs = (s.version w).refs - if w = v then 1 else 0 := by
  rw [release_frame]
  by_cases hw : w = v
  . simp [hw]
  . simp [hw]

end EpochDB.Store.Lifetime
