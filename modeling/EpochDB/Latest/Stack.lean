import EpochDB.Latest.Slab

/-!
Overlays in memory over run files (`latest/view.go`): point reads, the k-way merge and the run a merge
writes, and that they agree.
-/

namespace EpochDB.Latest

open List SortedMap
open Disk (Row Valid)

structure MergeIter where
  its : List (List Row)
  key : Option Bytes

namespace MergeIter

def pending (m : MergeIter) : List (List Row) :=
  match m.key with
  | some k => SortedMap.advance k m.its
  | none => m.its

def next (m : MergeIter) : Option (Row × MergeIter) :=
  match h : SortedMap.best m.pending with
  | none => none
  | some r =>
    let m' := ⟨m.pending, some r.1⟩
    if r.2.length > 0 then some (r, m') else m'.next
  termination_by (m.pending.map List.length).sum
  decreasing_by exact length_advance_lt h

theorem next_of_none {m : MergeIter} (h : SortedMap.best m.pending = none) : m.next = none := by
  unfold next
  split
  . rfl
  . next r hr =>
    rw [h] at hr
    cases hr

theorem next_of_some {m : MergeIter} {r : Row} (h : SortedMap.best m.pending = some r)
    : m.next = if r.2.length > 0 then some (r, ⟨m.pending, some r.1⟩) else next ⟨m.pending, some r.1⟩ := by
  rw [next]
  split
  . next hnone =>
    rw [h] at hnone
    cases hnone
  . next r' hr' =>
    rw [h] at hr'
    cases hr'
    rfl

theorem next_lt {m m' : MergeIter} {r : Row} (h : m.next = some (r, m'))
    : (m'.pending.map List.length).sum < (m.pending.map List.length).sum := by
  fun_induction next m with
  | case1 => cases h
  | case2 m r hbest m1 hlen =>
    rw [Option.some.injEq, Prod.mk.injEq] at h
    rw [← h.2]
    exact length_advance_lt hbest
  | case3 m r hbest m1 hlen ih =>
    exact Nat.lt_trans (ih h) (length_advance_lt hbest)

def collect (m : MergeIter) : List Row :=
  match h : m.next with
  | none => []
  | some (r, m') => r :: m'.collect
  termination_by (m.pending.map List.length).sum
  decreasing_by exact next_lt h

theorem next_spec (m : MergeIter) {n : Nat} (hn : (m.pending.map List.length).sum ≤ n)
    : match m.next with
      | none => (SortedMap.mergeRows n m.pending).filter (fun r => !r.2.isEmpty) = []
      | some (r, m') => ∃ n' < n, (m'.pending.map List.length).sum ≤ n' ∧
          (SortedMap.mergeRows n m.pending).filter (fun r => !r.2.isEmpty) =
            r :: (SortedMap.mergeRows n' m'.pending).filter (fun r => !r.2.isEmpty) := by
  induction n generalizing m with
  | zero =>
    cases hbest : SortedMap.best m.pending with
    | none =>
      rw [next_of_none hbest]
      rfl
    | some r =>
      have := length_advance_lt hbest
      omega
  | succ n ih =>
    cases hbest : SortedMap.best m.pending with
    | none =>
      rw [next_of_none hbest]
      dsimp only
      unfold SortedMap.mergeRows
      rw [hbest]
      rfl
    | some r =>
      have hlt := length_advance_lt hbest
      have hle : ((MergeIter.mk m.pending (some r.1)).pending.map List.length).sum ≤ n := by
        change ((SortedMap.advance r.1 m.pending).map List.length).sum ≤ n
        omega
      have hmerge : SortedMap.mergeRows (n + 1) m.pending =
          r :: SortedMap.mergeRows n (MergeIter.mk m.pending (some r.1)).pending := by
        rw [SortedMap.mergeRows, hbest]
        rfl
      rw [next_of_some hbest, hmerge]
      by_cases hlen : r.2.length > 0
      . have hlive : (!r.2.isEmpty) = true := by
          rw [Bool.not_eq_true', isEmpty_eq_false_iff]
          exact length_pos_iff.mp hlen
        rw [if_pos hlen]
        exact ⟨n, Nat.lt_succ_self n, hle, filter_cons_of_pos hlive⟩
      . have hdead : ¬ (!r.2.isEmpty) = true := by
          rw [Bool.not_eq_true', isEmpty_eq_false_iff, not_not]
          exact length_eq_zero_iff.mp (by omega)
        rw [if_neg hlen, filter_cons_of_neg (p := fun r : Row => !r.2.isEmpty) hdead]
        have hrest := ih ⟨m.pending, some r.1⟩ hle
        cases hnext : next ⟨m.pending, some r.1⟩ with
        | none =>
          rw [hnext] at hrest
          exact hrest
        | some p =>
          rw [hnext] at hrest
          rcases hrest with ⟨n', hn', hle, heq⟩
          exact ⟨n', Nat.lt_succ_of_lt hn', hle, heq⟩

theorem collect_eq (m : MergeIter) {n : Nat} (hn : (m.pending.map List.length).sum ≤ n)
    : m.collect = (SortedMap.mergeRows n m.pending).filter (fun r => !r.2.isEmpty) := by
  induction n using Nat.strong_induction_on generalizing m with
  | _ n ih =>
    have hspec := next_spec m hn
    unfold collect
    split
    . next hnext =>
      rw [hnext] at hspec
      exact hspec.symm
    . next r m' hnext =>
      rw [hnext] at hspec
      rcases hspec with ⟨n', hn', hle, heq⟩
      rw [heq, ih n' hn' m' hle]

end MergeIter

structure Stack where
  overlays : List Slab.Overlay
  runs : List Disk.Run

namespace Stack

variable (v : Stack)

def get (key : Bytes) : Option Bytes :=
  match v.overlays.findSome? (·.get key) with
  | some val => View.live (some val)
  | none => View.live (v.runs.findSome? (·.get key))

def iter (lo hi : Option Bytes) : List Row :=
  (MergeIter.mk (v.overlays.map (·.iter lo hi) ++ v.runs.map (·.iter lo hi)) none).collect

def merge : Except String Disk.Run := Disk.write (v.iter none none)

def build (puts : List (List Row)) (files : List (SortedMap Bytes Bytes)) : Except String Stack := do
  let overlays ← puts.mapM Slab.Overlay.ofPuts
  let runs ← files.mapM (fun m => Disk.write m.rows)
  return ⟨overlays, runs⟩

end Stack

def lastPut (puts : List Row) (key : Bytes) : Option Bytes := ((puts.filter (·.1 = key)).getLast?).map (·.2)

theorem get_mapOf (puts : List Row) (key : Bytes) : (Slab.mapOf puts).get key = lastPut puts key := by
  induction puts using List.reverseRecOn with
  | nil => rfl
  | append_singleton puts row ih =>
    unfold Slab.mapOf at ih ⊢
    rw [foldl_append, foldl_cons, foldl_nil, get_put, ih]
    unfold lastPut
    by_cases hkey : row.1 = key
    . simp [filter_append, hkey]
    . simp [filter_append, hkey, Ne.symm hkey]

structure Stack.Of (v : Stack) (view : View) : Prop where
  overlays : List.Forall₂ Slab.Overlay.Of v.overlays view.overlays
  runs : List.Forall₂ (fun (r : Disk.Run) (m : SortedMap Bytes Bytes) => ∃ chunks, r.Of chunks ∧ chunks.flatten = m.rows)
    v.runs view.runs

theorem findSome?_of_forall₂ {α β γ : Type} {R : α → β → Prop} {f : α → Option γ} {g : β → Option γ}
    (hfg : ∀ a b, R a b → f a = g b) {as : List α} {bs : List β} (h : List.Forall₂ R as bs)
    : as.findSome? f = bs.findSome? g := by
  induction h with
  | nil => rfl
  | cons hab _ ih => rw [findSome?_cons, findSome?_cons, hfg _ _ hab, ih]

theorem map_of_forall₂ {α β γ : Type} {R : α → β → Prop} {f : α → γ} {g : β → γ} (hfg : ∀ a b, R a b → f a = g b)
    {as : List α} {bs : List β} (h : List.Forall₂ R as bs) : as.map f = bs.map g := by
  induction h with
  | nil => rfl
  | cons hab _ ih => rw [map_cons, map_cons, hfg _ _ hab, ih]

namespace Stack.Of

variable {v : Stack} {view : View} (h : v.Of view)

include h

theorem get_eq (key : Bytes) : v.get key = view.get key := by
  have hoverlays : v.overlays.findSome? (·.get key) = view.overlays.findSome? (·.get key) :=
    findSome?_of_forall₂ (fun _ _ hom => hom.get key) h.overlays
  have hruns : v.runs.findSome? (·.get key) = view.runs.findSome? (·.get key) := by
    refine findSome?_of_forall₂ ?_ h.runs
    rintro r m ⟨chunks, hr, hrows⟩
    rw [hr.get_eq, hrows]
    rfl
  unfold Stack.get View.get
  rw [hoverlays]
  cases view.overlays.findSome? (·.get key) with
  | some _ => rfl
  | none => exact congrArg View.live hruns

theorem iter_eq (lo hi : Option Bytes) : v.iter lo hi = (view.iter lo hi).rows := by
  have hoverlays : v.overlays.map (·.iter lo hi) =
      view.overlays.map (fun m => (m.restrict (fun k _ => inBounds lo hi k)).rows) :=
    map_of_forall₂ (fun _ _ hom => hom.iter_eq lo hi) h.overlays
  have hruns : v.runs.map (·.iter lo hi) = view.runs.map (fun m => (m.restrict (fun k _ => inBounds lo hi k)).rows) := by
    refine map_of_forall₂ ?_ h.runs
    rintro r m ⟨chunks, hr, hrows⟩
    rw [hr.iter_eq, hrows]
    rfl
  unfold Stack.iter
  rw [hoverlays, hruns, ← map_append]
  have hlevels : (view.overlays ++ view.runs).map (fun m => (m.restrict (fun k _ => inBounds lo hi k)).rows) =
      (view.levels lo hi).map (·.rows) := by
    unfold View.levels
    rw [map_map]
    rfl
  rw [hlevels, MergeIter.collect_eq (n := ((view.levels lo hi).map (·.rows.length)).sum) _ (by
    simp [MergeIter.pending, Function.comp_def])]
  rfl

end Stack.Of

theorem View.valid_iter {view : View} (hview : ∀ m ∈ view.overlays ++ view.runs, ∀ row ∈ m.rows, Valid row)
    (lo hi : Option Bytes) : ∀ row ∈ (view.iter lo hi).rows, Valid row := by
  rintro ⟨key, val⟩ hrow
  have hget := get_eq_some.mpr hrow
  rw [View.get_iter] at hget
  split at hget
  . rw [View.get_eq, View.live, Option.filter_eq_some_iff, findSome?_eq_some_iff] at hget
    rcases hget with ⟨⟨before, m, after, hsplit, hm, -⟩, -⟩
    exact hview m (by simp [hsplit]) _ (get_eq_some.mp hm)
  . cases hget

theorem mapM_ok {α β : Type} {f : α → Except String β} {R : β → α → Prop} {as : List α}
    (h : ∀ a ∈ as, ∃ b, f a = .ok b ∧ R b a) : ∃ bs, as.mapM f = .ok bs ∧ List.Forall₂ R bs as := by
  induction as with
  | nil => exact ⟨[], rfl, .nil⟩
  | cons a as ih =>
    rcases h a (by simp) with ⟨b, hb, hR⟩
    rcases ih (fun a ha => h a (by simp [ha])) with ⟨bs, hbs, hRs⟩
    refine ⟨b :: bs, ?_, .cons hR hRs⟩
    rw [mapM_cons, hb, hbs]
    rfl

theorem forall₂_map_right {α β γ : Type} {R : α → γ → Prop} {f : β → γ} {as : List α} {bs : List β}
    (h : List.Forall₂ (fun a b => R a (f b)) as bs) : List.Forall₂ R as (bs.map f) := by
  induction h with
  | nil => exact .nil
  | cons hab _ ih => exact .cons hab ih

theorem Stack.build_of {puts : List (List Row)} {files : List (SortedMap Bytes Bytes)}
    (hputs : ∀ rows ∈ puts, ∀ row ∈ rows, Valid row) (hfiles : ∀ m ∈ files, ∀ row ∈ m.rows, Valid row)
    : ∃ v, Stack.build puts files = .ok v ∧ v.Of ⟨puts.map Slab.mapOf, files⟩ := by
  rcases mapM_ok (R := fun (o : Slab.Overlay) rows => o.Of (Slab.mapOf rows)) (fun rows hrows => Slab.ofPuts_of (hputs rows hrows)) with
    ⟨overlays, hoverlays, hof⟩
  rcases mapM_ok (f := fun m : SortedMap Bytes Bytes => Disk.write m.rows)
    (R := fun (r : Disk.Run) (m : SortedMap Bytes Bytes) => ∃ chunks, r.Of chunks ∧ chunks.flatten = m.rows)
    (fun m hm => by
      rcases Disk.write_of m.sorted (hfiles m hm) with ⟨r, chunks, hw, hr, hrows⟩
      exact ⟨r, hw, chunks, hr, hrows⟩) with ⟨runs, hruns, hrof⟩
  refine ⟨⟨overlays, runs⟩, ?_, forall₂_map_right hof, hrof⟩
  unfold Stack.build
  rw [hoverlays, hruns]
  rfl

/--
A stack answers with the topmost entry of its levels and not found for a tombstone; a walk gives, in
order, exactly the live keys in its bounds with the values point reads give; and the run a merge writes
answers and walks as the stack did.
-/
theorem stack_iter_agrees_with_get {puts : List (List Row)} {files : List (SortedMap Bytes Bytes)}
    (hputs : ∀ rows ∈ puts, ∀ row ∈ rows, Valid row) (hfiles : ∀ m ∈ files, ∀ row ∈ m.rows, Valid row)
    : ∃ v, Stack.build puts files = .ok v ∧
        (∀ key, v.get key = ((puts.map lastPut ++ files.map SortedMap.get).findSome? (· key)).filter (· ≠ [])) ∧
        (∀ lo hi, (v.iter lo hi).Pairwise (fun r s => r.1 < s.1) ∧
          ∀ key val, (key, val) ∈ v.iter lo hi ↔ inBounds lo hi key = true ∧ v.get key = some val) ∧
        ∃ r, v.merge = .ok r ∧ (∀ key, r.get key = v.get key) ∧ ∀ lo hi, r.iter lo hi = v.iter lo hi := by
  rcases Stack.build_of hputs hfiles with ⟨v, hbuild, hv⟩
  have hmaps : ∀ m ∈ puts.map Slab.mapOf ++ files, ∀ row ∈ m.rows, Valid row := by
    intro m hm
    rcases mem_append.mp hm with hm | hm
    . rcases mem_map.mp hm with ⟨rows, hrows, rfl⟩
      rcases Slab.ofPuts_of (hputs rows hrows) with ⟨o, -, ho⟩
      exact ho.valid
    . exact hfiles m hm
  have hget : ∀ key, v.get key = View.get ⟨puts.map Slab.mapOf, files⟩ key := hv.get_eq
  have hmem : ∀ lo hi key val, (key, val) ∈ v.iter lo hi ↔ inBounds lo hi key = true ∧ v.get key = some val := by
    intro lo hi key val
    rw [hv.iter_eq, ← get_eq_some, View.get_iter, hget]
    split
    . next hin => simp [hin]
    . next hout => simp [hout]
  have hsorted : ∀ lo hi, (v.iter lo hi).Pairwise (fun r s => r.1 < s.1) := by
    intro lo hi
    rw [hv.iter_eq]
    exact SortedMap.sorted _
  refine ⟨v, hbuild, ?_, fun lo hi => ⟨hsorted lo hi, hmem lo hi⟩, ?_⟩
  . intro key
    have hlast : (fun rows => (Slab.mapOf rows).get key) = fun rows => lastPut rows key := by
      funext rows
      exact get_mapOf rows key
    rw [hget, View.get_eq, findSome?_append, findSome?_append, findSome?_map, findSome?_map, findSome?_map]
    simp only [Function.comp_def, hlast]
    unfold View.live
    congr 1
    funext val
    cases val <;> rfl
  . have hvalid : ∀ row ∈ v.iter none none, Valid row := by
      rw [hv.iter_eq]
      exact View.valid_iter hmaps none none
    rcases Disk.write_of (hsorted none none) hvalid with ⟨r, chunks, hwrite, hr, hrows⟩
    have hall : ∀ key val, (key, val) ∈ v.iter none none ↔ v.get key = some val := by
      intro key val
      rw [hmem]
      exact and_iff_right rfl
    refine ⟨r, hwrite, ?_, ?_⟩
    . intro key
      rw [hr.get_eq, hrows]
      apply Option.ext
      intro val
      rw [← hall]
      exact get_eq_some (m := ⟨v.iter none none, hsorted none none⟩)
    . intro lo hi
      have hext : SortedMap.mk ((v.iter none none).filter (fun row => inBounds lo hi row.1)) ((hsorted none none).filter _) =
          SortedMap.mk (v.iter lo hi) (hsorted lo hi) := by
        apply SortedMap.ext_get
        intro key
        apply Option.ext
        intro val
        rw [get_eq_some, get_eq_some]
        dsimp only
        rw [mem_filter, hall, hmem]
        exact and_comm
      rw [hr.iter_eq, hrows]
      exact congrArg SortedMap.rows hext

theorem stack_iter_agrees_over_run
    : ∃ v, Stack.build [[([97], [1]), ([98], []), ([97], [2])]]
          [⟨[([97], [7]), ([98], [8]), ([99], [9])], by decide⟩] = .ok v ∧
        (∀ key, v.get key = (([[([97], [1]), ([98], []), ([97], [2])]].map lastPut ++
          [(⟨[([97], [7]), ([98], [8]), ([99], [9])], by decide⟩ : SortedMap Bytes Bytes)].map SortedMap.get).findSome?
            (· key)).filter (· ≠ [])) ∧
        (∀ lo hi, (v.iter lo hi).Pairwise (fun r s => r.1 < s.1) ∧
          ∀ key val, (key, val) ∈ v.iter lo hi ↔ inBounds lo hi key = true ∧ v.get key = some val) ∧
        ∃ r, v.merge = .ok r ∧ (∀ key, r.get key = v.get key) ∧ ∀ lo hi, r.iter lo hi = v.iter lo hi :=
  stack_iter_agrees_with_get (by decide) (by decide)

end EpochDB.Latest
