import EpochDB.Store.Builder.Impl

/-!
The terminal spans: merging the first span that is due, at any time, leaves what adding the L0 runs one
by one leaves.
-/

namespace EpochDB.Store.Builder

open List

variable {cfg : Config}

variable {runs ls ts cuts refs : List RunRef} {r : RunRef}

theorem crossing_eq_none
    : crossing cfg runs = none ↔
        ∀ first, runs.head? = some first → ∀ r ∈ runs, ¬ cfg.terminalTxs ≤ r.toTx - first.fromTx := by
  cases runs with
  | nil => simp [crossing]
  | cons first runs =>
    rw [crossing, findIdx?_eq_none_iff]
    simp

theorem crossing_append_of_some {i : Nat} (h : crossing cfg runs = some i)
    (more : List RunRef) : crossing cfg (runs ++ more) = some i := by
  cases runs with
  | nil => contradiction
  | cons first runs =>
    rw [crossing] at h
    rw [cons_append, crossing, ← cons_append, findIdx?_append, h]
    rfl

theorem crossing_of_append {runs more : List RunRef} (h : crossing cfg (runs ++ more) = none) : crossing cfg runs = none := by
  cases hc : crossing cfg runs with
  | none => rfl
  | some i =>
    rw [crossing_append_of_some hc] at h
    contradiction

theorem crossing_split {i : Nat} (h : crossing cfg runs = some i)
    : ∃ before r after, runs = before ++ r :: after ∧ before.length = i ∧ crossing cfg before = none ∧
        (crossing cfg (before ++ [r])).isSome = true := by
  cases runs with
  | nil => contradiction
  | cons first runs =>
    rw [crossing, findIdx?_eq_some_iff_getElem] at h
    rcases h with ⟨hi, hcross, hbefore⟩
    refine ⟨(first :: runs).take i, (first :: runs)[i], (first :: runs).drop (i + 1), ?_, ?_, ?_, ?_⟩
    . rw [← drop_eq_getElem_cons hi, take_append_drop]
    . rw [length_take]
      omega
    . rw [crossing_eq_none]
      intro first' hfirst r hr
      cases i with
      | zero => simp at hr
      | succ i =>
        rw [take_succ_cons, head?_cons] at hfirst
        cases hfirst
        rw [mem_take_iff_getElem] at hr
        rcases hr with ⟨j, hj, rfl⟩
        simpa using hbefore j (by omega)
    . rw [Option.isSome_iff_ne_none, Ne, crossing_eq_none]
      intro hnone
      have hhead : ((first :: runs).take i ++ [(first :: runs)[i]]).head? = some first := by
        cases i with
        | zero => simp
        | succ i => simp
      exact hnone first hhead (first :: runs)[i] (mem_append_right _ (by simp)) (by simpa using hcross)

theorem foldl_addRun_of_none (ts : List RunRef) {acc ls : List RunRef}
    (h : crossing cfg (acc ++ ls) = none) : ls.foldl (addRun cfg) (ts, acc) = (ts, acc ++ ls) := by
  induction ls generalizing acc with
  | nil => simp
  | cons r ls ih =>
    have happend : acc ++ r :: ls = acc ++ [r] ++ ls := by simp
    rw [happend] at h ⊢
    rw [foldl_cons, addRun, crossing_of_append h]
    exact ih h

structure Grouped (ts ls : List RunRef) : Prop where
  terminals : ∀ r ∈ ts, r.level ≠ 0
  flushes : ∀ r ∈ ls, r.level = 0

theorem Grouped.spanStart (h : Grouped ts ls) : spanStart (ts ++ ls) = ts.length := by
  have hls : ls.reverse.takeWhile (fun r => decide (r.level = 0)) = ls.reverse := by
    rw [takeWhile_eq_self_iff]
    intro r hr
    simpa using h.flushes r (mem_reverse.mp hr)
  have hts : ts.reverse.takeWhile (fun r => decide (r.level = 0)) = [] := by
    cases hrev : ts.reverse with
    | nil => rfl
    | cons r rs =>
      have := h.terminals r (by rw [← mem_reverse, hrev]; simp)
      simp [this]
  rw [Builder.spanStart, reverse_append, takeWhile_append, hls, if_pos rfl, hts]
  simp

theorem Grouped.mergeSpanLocked (h : Grouped ts ls)
    : mergeSpanLocked cfg (ts ++ ls) =
        (crossing cfg ls).map (fun i => (ts.length, ts.length + i + 1)) := by
  rw [Builder.mergeSpanLocked, h.spanStart, drop_left]

def Comes (cfg : Config) (cuts refs : List RunRef) : Prop :=
  ∃ ts ls, refs = ts ++ ls ∧ Grouped ts ls ∧
    ls.foldl (addRun cfg) (ts, []) = cuts.foldl (addRun cfg) ([], [])

theorem Grouped.append (h : Grouped ts ls) (hr : r.level = 0)
    : Grouped ts (ls ++ [r]) where
  terminals := h.terminals
  flushes := by
    intro r' hr'
    rw [mem_append, mem_singleton] at hr'
    rcases hr' with hr' | rfl
    . exact h.flushes r' hr'
    . exact hr

theorem Comes.init : Comes cfg [] [] := ⟨[], [], rfl, ⟨by simp, by simp⟩, rfl⟩

theorem Comes.publish (h : Comes cfg cuts refs) (hr : r.level = 0) : Comes cfg (cuts ++ [r]) (refs ++ [r]) := by
  rcases h with ⟨ts, ls, rfl, hgrouped, hfold⟩
  exact ⟨ts, ls ++ [r], by simp, hgrouped.append hr, by simp [hfold]⟩

theorem Comes.eq (h : Comes cfg cuts refs) (hdue : Builder.mergeSpanLocked cfg refs = none) : refs = terminals cfg cuts := by
  rcases h with ⟨ts, ls, rfl, hgrouped, hfold⟩
  rw [hgrouped.mergeSpanLocked, Option.map_eq_none_iff] at hdue
  have := @foldl_addRun_of_none cfg ts [] ls hdue
  rw [terminals, ← hfold, this]
  rfl

theorem Comes.mergeSpanLocked_append (h : Comes cfg cuts refs) {span : Nat × Nat}
    (hspan : Builder.mergeSpanLocked cfg refs = some span) (hr : r.level = 0)
    : Builder.mergeSpanLocked cfg (refs ++ [r]) = some span := by
  rcases h with ⟨ts, ls, rfl, hgrouped, -⟩
  rw [hgrouped.mergeSpanLocked] at hspan
  rw [append_assoc, (hgrouped.append hr).mergeSpanLocked]
  rcases Option.map_eq_some_iff.mp hspan with ⟨i, hi, hspan⟩
  rw [crossing_append_of_some hi, Option.map_some, hspan]

theorem Comes.merge (h : Comes cfg cuts refs) {start stop : Nat}
    (hspan : Builder.mergeSpanLocked cfg refs = some (start, stop))
    : ∃ run last, terminal ((refs.take stop).drop start) = some run ∧
        ((refs.take stop).drop start).getLast? = some last ∧
        run.toTx = last.toTx ∧ run.toHeight = last.toHeight ∧ start < stop ∧ stop ≤ refs.length ∧
        Comes cfg cuts (refs.take start ++ [run] ++ refs.drop stop) := by
  rcases h with ⟨ts, ls, rfl, hgrouped, hfold⟩
  rw [hgrouped.mergeSpanLocked, Option.map_eq_some_iff] at hspan
  rcases hspan with ⟨i, hi, hspan⟩
  cases hspan
  rcases crossing_split hi with ⟨before, r, after, rfl, rfl, hnone, hcross⟩
  have htake : ((ts ++ (before ++ r :: after)).take (ts.length + before.length + 1)).drop ts.length =
      before ++ [r] := by
    have hsplit : ts ++ (before ++ r :: after) = (ts ++ before ++ [r]) ++ after := by simp
    have hlen : ts.length + before.length + 1 = (ts ++ before ++ [r]).length := by simp; omega
    rw [hsplit, hlen, take_left, append_assoc, drop_left]
  have hdrop : (ts ++ (before ++ r :: after)).drop (ts.length + before.length + 1) = after := by
    have hsplit : ts ++ (before ++ r :: after) = (ts ++ before ++ [r]) ++ after := by simp
    have hlen : ts.length + before.length + 1 = (ts ++ before ++ [r]).length := by simp; omega
    rw [hsplit, hlen, drop_left]
  rw [htake, hdrop, take_left]
  have hhead : ∃ first, (before ++ [r]).head? = some first := by
    cases before with
    | nil => exact ⟨r, rfl⟩
    | cons first before => exact ⟨first, rfl⟩
  rcases hhead with ⟨first, hfirst⟩
  have hrun : terminal (before ++ [r]) =
      some ⟨first.fromTx, r.toTx, first.fromHeight, r.toHeight, terminalLevel⟩ := by
    simp only [terminal, hfirst, getLast?_concat]
  refine ⟨_, r, hrun, getLast?_concat, rfl, rfl, by omega, ?_, ?_⟩
  . simp
  . refine ⟨ts ++ [⟨first.fromTx, r.toTx, first.fromHeight, r.toHeight, terminalLevel⟩], after, rfl, ⟨?_, ?_⟩, ?_⟩
    . intro r' hr'
      rw [mem_append, mem_singleton] at hr'
      rcases hr' with hr' | rfl
      . exact hgrouped.terminals r' hr'
      . simp [terminalLevel]
    . intro r' hr'
      exact hgrouped.flushes r' (by simp [hr'])
    . rw [← hfold, foldl_append, @foldl_addRun_of_none cfg ts [] before hnone]
      rw [foldl_cons, addRun, nil_append, if_pos hcross, hrun]
      rfl

end EpochDB.Store.Builder
