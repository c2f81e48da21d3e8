import EpochDB.Lib.SortedMap
import Mathlib

/-!
The merge of sorted inputs through a heap of cursors, one row at a time. The input with the higher
index is the newer one: on a key that several inputs have it comes first, and the rows of the older
ones are passed over.
-/

namespace KMerge

open List

variable {κ β : Type} [LinearOrder κ]

structure Cursor (κ β : Type) where
  idx : Nat
  row : κ × β
  rest : List (κ × β)

namespace Cursor

def first (idx : Nat) : List (κ × β) → Option (Cursor κ β)
  | [] => none
  | r :: rest => some ⟨idx, r, rest⟩

def next (c : Cursor κ β) : Option (Cursor κ β) := first c.idx c.rest

def rows (c : Cursor κ β) : List (κ × β) := c.row :: c.rest

def less (a b : Cursor κ β) : Bool := if a.row.1 = b.row.1 then b.idx < a.idx else a.row.1 < b.row.1

end Cursor

def root : List (Cursor κ β) → Option (Cursor κ β)
  | [] => none
  | c :: h =>
    match root h with
    | none => some c
    | some d => if d.less c then some d else some c

def advance (c : Cursor κ β) (h : List (Cursor κ β)) : List (Cursor κ β) :=
  h.filterMap (fun d => if d.idx = c.idx then d.next else some d)

def loop (fuel : Nat) (h : List (Cursor κ β)) (last : Option κ) (n : Nat) (out : List (κ × β)) : Nat × List (κ × β) :=
  match fuel with
  | 0 => (n, out)
  | fuel + 1 =>
    match root h with
    | none => (n, out)
    | some c =>
      if last = some c.row.1 then
        loop fuel (advance c h) last n out
      else
        loop fuel (advance c h) (some c.row.1) (n + 1) (out ++ [c.row])

def start (inputs : List (List (κ × β))) : List (Cursor κ β) :=
  inputs.zipIdx.filterMap (fun (rows, i) => Cursor.first i rows)

def merge (inputs : List (List (κ × β))) : Nat × List (κ × β) :=
  loop (inputs.map List.length).sum (start inputs) none 0 []

def written (fuel : Nat) (h : List (Cursor κ β)) (last : Option κ) : List (κ × β) :=
  match fuel with
  | 0 => []
  | fuel + 1 =>
    match root h with
    | none => []
    | some c =>
      if last = some c.row.1 then
        written fuel (advance c h) last
      else
        c.row :: written fuel (advance c h) (some c.row.1)

theorem loop_eq (fuel : Nat) (h : List (Cursor κ β)) (last : Option κ) (n : Nat) (out : List (κ × β))
    : loop fuel h last n out = (n + (written fuel h last).length, out ++ written fuel h last) := by
  induction fuel generalizing h last n out with
  | zero => simp [loop, written]
  | succ fuel ih =>
    unfold loop written
    split
    . simp
    . split
      . rw [ih]
      . rw [ih]
        simp [Nat.add_assoc, Nat.add_comm]

structure Heap (h : List (Cursor κ β)) : Prop where
  ordered : ∀ c ∈ h, SortedMap.Ordered c.rows
  ranked : h.Pairwise (fun c d => c.idx < d.idx)

def newest (h : List (Cursor κ β)) (k : κ) : Option β := h.reverse.findSome? (fun c => SortedMap.find c.rows k)

variable {h : List (Cursor κ β)} {c d : Cursor κ β} {k : κ}

theorem root_eq_none (hroot : root h = none) : h = [] := by
  cases h with
  | nil => rfl
  | cons c h =>
    unfold root at hroot
    split at hroot
    . contradiction
    . split at hroot <;> contradiction

theorem root_eq_some (hr : h.Pairwise (fun c d => c.idx < d.idx)) (hroot : root h = some c)
    : c ∈ h ∧ ∀ d ∈ h, c.row.1 ≤ d.row.1 ∧ (c.row.1 = d.row.1 → d.idx ≤ c.idx) := by
  induction h generalizing c with
  | nil => cases hroot
  | cons e h ih =>
    rw [pairwise_cons] at hr
    unfold root at hroot
    split at hroot
    . next hnone =>
      cases hroot
      rw [root_eq_none hnone]
      simp
    . next d hd =>
      rcases ih hr.2 hd with ⟨hmem, hleast⟩
      have hrank := hr.1 d hmem
      have hless : d.less e = true ↔ d.row.1 ≤ e.row.1 := by
        unfold Cursor.less
        split
        . next heq => simp [heq, hrank]
        . next hne => simp [le_iff_lt_or_eq, hne]
      split at hroot
      . next hlt =>
        cases hroot
        rw [hless] at hlt
        refine ⟨by simp [hmem], ?_⟩
        intro f hf
        rw [mem_cons] at hf
        cases hf with
        | inl hf =>
          rw [hf]
          exact ⟨hlt, fun _ => Nat.le_of_lt hrank⟩
        | inr hf => exact hleast f hf
      . next hge =>
        cases hroot
        rw [hless, not_le] at hge
        refine ⟨by simp, ?_⟩
        intro f hf
        rw [mem_cons] at hf
        cases hf with
        | inl hf =>
          rw [hf]
          exact ⟨le_refl _, fun _ => Nat.le_refl _⟩
        | inr hf =>
          have hlt := lt_of_lt_of_le hge (hleast f hf).1
          exact ⟨le_of_lt hlt, fun heq => absurd heq (ne_of_lt hlt)⟩

theorem find_rows (k : κ) : SortedMap.find c.rows k = if c.row.1 = k then some c.row.2 else SortedMap.find c.rest k := by
  unfold Cursor.rows
  rw [SortedMap.find_cons]

theorem find_next (c : Cursor κ β) (k : κ) : c.next.bind (fun d => SortedMap.find d.rows k) = SortedMap.find c.rest k := by
  unfold Cursor.next
  cases hrest : c.rest with
  | nil => rfl
  | cons r rest => rfl

theorem findSome?_filterMap_congr {α δ γ : Type} {f : δ → Option γ} {g : α → Option δ} {f' : α → Option γ}
    {l : List α} (h : ∀ a ∈ l, (g a).bind f = f' a) : (l.filterMap g).findSome? f = l.findSome? f' := by
  induction l with
  | nil => rfl
  | cons a l ih =>
    have ih := ih (fun b hb => h b (by simp [hb]))
    have ha := h a (by simp)
    rw [filterMap_cons, findSome?_cons, ← ha]
    cases g a with
    | none => exact ih
    | some b =>
      rw [findSome?_cons, ih]
      rfl

theorem Heap.eq_of_idx (hh : Heap h) (hc : c ∈ h) (hd : d ∈ h) (hidx : d.idx = c.idx) : d = c := by
  have hnodup : (h.map (·.idx)).Nodup := by
    rw [List.Nodup, pairwise_map]
    exact hh.ranked.imp (fun hlt => Nat.ne_of_lt hlt)
  exact inj_on_of_nodup_map hnodup hd hc hidx

theorem mem_advance (hh : Heap h) (hc : c ∈ h) (hd : d ∈ advance c h) : d ∈ h ∨ c.next = some d := by
  unfold advance at hd
  rw [mem_filterMap] at hd
  rcases hd with ⟨e, he, hd⟩
  split at hd
  . next hidx =>
    rw [hh.eq_of_idx hc he hidx] at hd
    exact .inr hd
  . cases hd
    exact .inl he

omit [LinearOrder κ] in
theorem next_eq_some (h : c.next = some d) : d.idx = c.idx ∧ c.rest = d.rows := by
  unfold Cursor.next Cursor.first at h
  split at h
  . cases h
  . next r rest hrest =>
    cases h
    exact ⟨rfl, hrest⟩

theorem Heap.advance (hh : Heap h) (hc : c ∈ h) : Heap (advance c h) := by
  constructor
  . intro d hd
    cases mem_advance hh hc hd with
    | inl hd => exact hh.ordered d hd
    | inr hd =>
      rw [← (next_eq_some hd).2]
      exact (pairwise_cons.mp (hh.ordered c hc)).2
  . unfold KMerge.advance
    rw [pairwise_filterMap]
    apply hh.ranked.imp
    intro d e hlt d' hd' e' he'
    have hidx : ∀ {f f' : Cursor κ β}, (if f.idx = c.idx then f.next else some f) = some f' → f'.idx = f.idx := by
      intro f f' hf
      split at hf
      . exact (next_eq_some hf).1
      . cases hf
        rfl
    rw [hidx hd', hidx he']
    exact hlt

omit [LinearOrder κ] in
theorem sum_advance_lt (hc : c ∈ h) : ((advance c h).map (·.rows.length)).sum < (h.map (·.rows.length)).sum := by
  have hsum : ((advance c h).map (·.rows.length)).sum =
      (h.map (fun d => if d.idx = c.idx then d.rest.length else d.rows.length)).sum := by
    clear hc
    induction h with
    | nil => rfl
    | cons d h ih =>
      unfold advance at ih ⊢
      rw [filterMap_cons, map_cons, sum_cons, ← ih]
      by_cases hidx : d.idx = c.idx
      . simp only [hidx, if_true]
        cases hnext : d.next with
        | none =>
          unfold Cursor.next Cursor.first at hnext
          split at hnext
          . next hrest => simp [hrest]
          . cases hnext
        | some e =>
          rw [(next_eq_some hnext).2]
          simp
      . simp [hidx]
  rw [hsum]
  apply sum_lt_sum
  . intro d _
    split
    . simp [Cursor.rows]
    . exact Nat.le_refl _
  . exact ⟨c, hc, by simp [Cursor.rows]⟩

theorem newest_advance (hh : Heap h) (hc : c ∈ h) (hk : c.row.1 ≠ k) : newest (advance c h) k = newest h k := by
  unfold newest advance
  rw [← filterMap_reverse]
  apply findSome?_filterMap_congr
  intro d hd
  rw [mem_reverse] at hd
  split
  . next hidx =>
    rw [hh.eq_of_idx hc hd hidx, find_next, find_rows, if_neg hk]
  . rfl

theorem Cursor.find_eq_none (hord : SortedMap.Ordered c.rows) (hlt : k < c.row.1) : SortedMap.find c.rows k = none := by
  have hord := pairwise_cons.mp hord
  apply SortedMap.find_eq_none_of_lt
  intro r hr
  rw [Cursor.rows, mem_cons] at hr
  cases hr with
  | inl hr => rwa [hr]
  | inr hr => exact lt_trans hlt (hord.1 r hr)

theorem newest_eq_none (hh : Heap h) (hlt : ∀ c ∈ h, k < c.row.1) : newest h k = none := by
  unfold newest
  rw [findSome?_eq_none_iff]
  intro c hc
  rw [mem_reverse] at hc
  exact Cursor.find_eq_none (hh.ordered c hc) (hlt c hc)

theorem newest_root (hh : Heap h) (hroot : root h = some c) : newest h c.row.1 = some c.row.2 := by
  rcases root_eq_some hh.ranked hroot with ⟨hc, hleast⟩
  rcases append_of_mem hc with ⟨older, newer, rfl⟩
  have hnewer : newer.reverse.findSome? (fun d => SortedMap.find d.rows c.row.1) = none := by
    rw [findSome?_eq_none_iff]
    intro d hd
    rw [mem_reverse] at hd
    have hmem : d ∈ older ++ c :: newer := by simp [hd]
    have hrank : c.idx < d.idx := (pairwise_cons.mp (pairwise_append.mp hh.ranked).2.1).1 d hd
    have hlt : c.row.1 < d.row.1 := by
      rcases hleast d hmem with ⟨hle, htie⟩
      apply lt_of_le_of_ne hle
      intro heq
      have := htie heq
      omega
    exact Cursor.find_eq_none (hh.ordered d hmem) hlt
  unfold newest
  rw [reverse_append, reverse_cons, append_assoc, findSome?_append, hnewer]
  simp [find_rows]

theorem written_spec (fuel : Nat) (hh : Heap h) (hfuel : (h.map (·.rows.length)).sum ≤ fuel) (last : Option κ)
    (hlast : ∀ k, last = some k → ∀ c ∈ h, k ≤ c.row.1)
    : SortedMap.Ordered (written fuel h last) ∧
      (∀ k, last = some k → ∀ r ∈ written fuel h last, k < r.1) ∧
      ∀ k, SortedMap.find (written fuel h last) k = if last = some k then none else newest h k := by
  induction fuel generalizing h last with
  | zero =>
    have hnil : h = [] := by
      cases h with
      | nil => rfl
      | cons c h => simp [Cursor.rows] at hfuel
    subst hnil
    simp [written, newest, SortedMap.find]
  | succ fuel ih =>
    unfold written
    split
    . next hroot =>
      rw [root_eq_none hroot]
      simp [newest, SortedMap.find]
    . next c hroot =>
      rcases root_eq_some hh.ranked hroot with ⟨hc, hleast⟩
      have hadv := hh.advance hc
      have hsum := sum_advance_lt hc
      have hge : ∀ d ∈ advance c h, c.row.1 ≤ d.row.1 := by
        intro d hd
        cases mem_advance hh hc hd with
        | inl hd => exact (hleast d hd).1
        | inr hd =>
          have hord := pairwise_cons.mp (hh.ordered c hc)
          apply le_of_lt
          apply hord.1
          rw [(next_eq_some hd).2]
          simp [Cursor.rows]
      split
      . next hskip =>
        rcases ih hadv (by omega) last (fun k hk d hd => by
          rw [hskip, Option.some.injEq] at hk
          rw [← hk]
          exact hge d hd) with ⟨hord, habove, hfind⟩
        refine ⟨hord, habove, ?_⟩
        intro k
        rw [hfind k]
        split
        . rfl
        . next hk =>
          rw [hskip, Option.some.injEq] at hk
          exact newest_advance hh hc hk
      . next hwrite =>
        rcases ih hadv (by omega) (some c.row.1) (fun k hk d hd => by
          rw [Option.some.injEq] at hk
          rw [← hk]
          exact hge d hd) with ⟨hord, habove, hfind⟩
        have habove := habove c.row.1 rfl
        refine ⟨pairwise_cons.mpr ⟨habove, hord⟩, ?_, ?_⟩
        . intro k hk r hr
          have hlt : k < c.row.1 := by
            apply lt_of_le_of_ne (hlast k hk c hc)
            intro heq
            rw [hk, heq] at hwrite
            exact hwrite rfl
          rw [mem_cons] at hr
          cases hr with
          | inl hr => rwa [hr]
          | inr hr => exact lt_trans hlt (habove r hr)
        . intro k
          rw [SortedMap.find_cons, hfind k]
          by_cases hk : c.row.1 = k
          . subst hk
            rw [if_pos rfl, if_neg hwrite]
            exact (newest_root hh hroot).symm
          . rw [if_neg hk, if_neg (by simpa using hk), newest_advance hh hc hk]
            split
            . next hkl =>
              -- the inputs are past the last key written
              apply newest_eq_none hh
              intro d hd
              apply lt_of_lt_of_le (lt_of_le_of_ne (hlast k hkl c hc) (Ne.symm hk)) (hleast d hd).1
            . rfl

omit [LinearOrder κ] in
theorem first_eq_some {i : Nat} {rows : List (κ × β)} (h : Cursor.first i rows = some c) : c.idx = i ∧ c.rows = rows := by
  unfold Cursor.first at h
  split at h
  . cases h
  . cases h
    exact ⟨rfl, rfl⟩

theorem heap_start {inputs : List (List (κ × β))} (hs : ∀ rows ∈ inputs, SortedMap.Ordered rows) : Heap (start inputs) := by
  constructor
  . intro c hc
    unfold start at hc
    rw [mem_filterMap] at hc
    rcases hc with ⟨⟨rows, i⟩, hmem, hc⟩
    rw [(first_eq_some hc).2, (mem_zipIdx hmem).2.2]
    exact hs _ (getElem_mem _)
  . unfold start
    have hrange := @List.pairwise_lt_range' 0 inputs.length 1 (by omega)
    rw [← zipIdx_map_snd 0 inputs, pairwise_map] at hrange
    rw [pairwise_filterMap]
    apply hrange.imp
    intro a b hlt c hc d hd
    rw [(first_eq_some hc).1, (first_eq_some hd).1]
    exact hlt

theorem newest_start (inputs : List (List (κ × β))) (k : κ)
    : newest (start inputs) k = inputs.reverse.findSome? (fun rows => SortedMap.find rows k) := by
  have hfirst : ∀ a ∈ inputs.zipIdx.reverse,
      (Cursor.first a.2 a.1).bind (fun c => SortedMap.find c.rows k) = SortedMap.find a.1 k := by
    rintro ⟨rows, i⟩ -
    cases rows with
    | nil => rfl
    | cons r rows => rfl
  unfold newest start
  rw [← filterMap_reverse, findSome?_filterMap_congr hfirst]
  conv => rhs; rw [← zipIdx_map_fst 0 inputs, ← map_reverse, findSome?_map]
  rfl

omit [LinearOrder κ] in
theorem sum_start (inputs : List (List (κ × β)))
    : ((start inputs).map (·.rows.length)).sum = (inputs.map List.length).sum := by
  have hfrom : ∀ (j : Nat), (((inputs.zipIdx j).filterMap (fun (rows, i) => Cursor.first i rows)).map
      (·.rows.length)).sum = (inputs.map List.length).sum := by
    induction inputs with
    | nil => simp
    | cons rows inputs ih =>
      intro j
      rw [zipIdx_cons, filterMap_cons]
      cases rows with
      | nil => simpa [Cursor.first] using ih (j + 1)
      | cons r rows =>
        have hfirst : Cursor.first j (r :: rows) = some ⟨j, r, rows⟩ := rfl
        dsimp only
        rw [hfirst, map_cons, sum_cons, ih (j + 1)]
        rfl
  exact hfrom 0

def drain {σ : Type} (step : σ → κ × β → σ) (fuel : Nat) (h : List (Cursor κ β)) (s : σ) : σ :=
  match fuel with
  | 0 => s
  | fuel + 1 =>
    match root h with
    | none => s
    | some c => drain step fuel (advance c h) (step s c.row)

theorem mem_rows_advance (hh : Heap h) (hc : c ∈ h) (r : κ × β)
    : (∃ d ∈ h, r ∈ d.rows) ↔ r = c.row ∨ ∃ d ∈ advance c h, r ∈ d.rows := by
  constructor
  . rintro ⟨d, hd, hr⟩
    by_cases hidx : d.idx = c.idx
    . rw [hh.eq_of_idx hc hd hidx, Cursor.rows, mem_cons] at hr
      apply hr.imp_right
      intro hr
      cases hnext : c.next with
      | none =>
        unfold Cursor.next Cursor.first at hnext
        split at hnext
        . next hrest =>
          rw [hrest] at hr
          cases hr
        . cases hnext
      | some e =>
        refine ⟨e, mem_filterMap.mpr ⟨c, hc, by rw [if_pos rfl, hnext]⟩, ?_⟩
        rwa [← (next_eq_some hnext).2]
    . exact .inr ⟨d, mem_filterMap.mpr ⟨d, hd, by rw [if_neg hidx]⟩, hr⟩
  . rintro (rfl | ⟨d, hd, hr⟩)
    . exact ⟨c, hc, mem_cons_self⟩
    . rcases mem_advance hh hc hd with hd | hnext
      . exact ⟨d, hd, hr⟩
      . rw [← (next_eq_some hnext).2] at hr
        exact ⟨c, hc, mem_cons_of_mem _ hr⟩

theorem drain_eq_foldl {σ : Type} (step : σ → κ × β → σ) (fuel : Nat) (hh : Heap h)
    (hfuel : (h.map (·.rows.length)).sum ≤ fuel) (s : σ)
    : ∃ rows : List (κ × β), drain step fuel h s = rows.foldl step s ∧ rows.Pairwise (fun r r' => r.1 ≤ r'.1) ∧
        ∀ r, r ∈ rows ↔ ∃ c ∈ h, r ∈ c.rows := by
  induction fuel generalizing h s with
  | zero =>
    have hnil : h = [] := by
      cases h with
      | nil => rfl
      | cons c h => simp [Cursor.rows] at hfuel
    rw [hnil]
    exact ⟨[], rfl, .nil, by simp⟩
  | succ fuel ih =>
    unfold drain
    split
    . next hroot =>
      rw [root_eq_none hroot]
      exact ⟨[], rfl, .nil, by simp⟩
    . next c hroot =>
      rcases root_eq_some hh.ranked hroot with ⟨hc, hleast⟩
      have hsum := sum_advance_lt hc
      rcases ih (hh.advance hc) (by omega) (step s c.row) with ⟨rows, heq, hsorted, hmem⟩
      refine ⟨c.row :: rows, heq, pairwise_cons.mpr ⟨?_, hsorted⟩, ?_⟩
      . intro r hr
        rcases (mem_rows_advance hh hc r).mpr (.inr ((hmem r).mp hr)) with ⟨d, hd, hr⟩
        apply le_trans (hleast d hd).1
        rcases mem_cons.mp hr with rfl | hr
        . exact le_refl _
        . exact le_of_lt ((pairwise_cons.mp (hh.ordered d hd)).1 r hr)
      . intro r
        rw [mem_rows_advance hh hc, mem_cons, hmem]

omit [LinearOrder κ] in
theorem mem_rows_start (inputs : List (List (κ × β))) (r : κ × β)
    : (∃ c ∈ start inputs, r ∈ c.rows) ↔ ∃ rows ∈ inputs, r ∈ rows := by
  constructor
  . rintro ⟨c, hc, hr⟩
    rcases mem_filterMap.mp hc with ⟨⟨rows, i⟩, hmem, hc⟩
    rw [(first_eq_some hc).2] at hr
    exact ⟨rows, fst_mem_of_mem_zipIdx hmem, hr⟩
  . rintro ⟨rows, hrows, hr⟩
    rw [← zipIdx_map_fst 0 inputs] at hrows
    rcases mem_map.mp hrows with ⟨⟨rows', i⟩, hmem, rfl⟩
    cases rows' with
    | nil => cases hr
    | cons r' rows => exact ⟨⟨i, r', rows⟩, mem_filterMap.mpr ⟨_, hmem, rfl⟩, hr⟩

theorem merge_eq (ms : List (SortedMap κ β))
    : merge (ms.map (·.rows)) =
        ((SortedMap.mergeAll ms.reverse).rows.length, (SortedMap.mergeAll ms.reverse).rows) := by
  have hs : ∀ rows ∈ ms.map (·.rows), SortedMap.Ordered rows := by
    intro rows hrows
    rw [mem_map] at hrows
    rcases hrows with ⟨m, -, rfl⟩
    exact m.sorted
  rcases written_spec _ (heap_start hs) (Nat.le_refl _) none (by simp) with ⟨hord, -, hfind⟩
  have hmap : (⟨_, hord⟩ : SortedMap κ β) = SortedMap.mergeAll ms.reverse := by
    apply SortedMap.ext_get
    intro k
    rw [SortedMap.get_mergeAll]
    unfold SortedMap.get
    dsimp only
    rw [hfind k, if_neg (by simp), newest_start, ← map_reverse, findSome?_map]
    rfl
  unfold merge
  rw [loop_eq, ← sum_start, ← hmap]
  simp

end KMerge
