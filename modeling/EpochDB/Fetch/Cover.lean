import EpochDB.Fetch.Forward

/-!
The forward fetch loses no height: what the queue does not hold yet and the loop has scheduled is in
exactly one span, as long as the numbers in every answer leave no gap. An answer that leaves one makes
the loop forget heights for good.
-/

namespace EpochDB.Fetch

open List Option

def gapFree (hi : Nat) : Nat → List RawBlock → Bool
  | reach, [] => hi ≤ reach
  | reach, b :: blocks =>
    b.p.blockNumber ≤ reach + 1 && b.p.blockNumber ≤ hi && gapFree hi (max reach b.p.blockNumber) blocks

theorem gapFree_cons {hi reach : Nat} {b : RawBlock} {blocks : List RawBlock}
    : gapFree hi reach (b :: blocks) ↔
        b.p.blockNumber ≤ reach + 1 ∧ b.p.blockNumber ≤ hi ∧
          gapFree hi (max reach b.p.blockNumber) blocks := by
  simp [gapFree, and_assoc]

namespace Forward

def joining (f : Forward) : List Span :=
  match f.pc with
  | .compare r _ => [r.toSpan]
  | .append r _ _ => [r.toSpan]
  | _ => []

def spans (f : Forward) : List Span :=
  f.redo ++ f.out.toList ++ f.inflight ++ f.pending.map (·.toSpan) ++ f.joining

def Covered (f : Forward) : Prop :=
  (∀ n, f.q.head < n → n < f.next → f.spans.countP (fun s => s.Covers n) = 1) ∧
  ∀ s ∈ f.redo ++ f.out.toList ++ f.inflight, s.lo ≤ s.hi

def Event.gapFree : Event → Bool
  | .receive s peers => (fetchSpan s peers).all (fun r => Fetch.gapFree s.hi (s.lo - 1) r.blocks)
  | _ => true

def Joins (head : Nat) : Pc → Prop
  | .compare r blocks => blocks ⊆ r.blocks ∧ ∃ reach ≤ head, gapFree r.hi reach blocks
  | .append r b blocks => b :: blocks ⊆ r.blocks ∧ ∃ reach ≤ head, gapFree r.hi reach (b :: blocks)
  | .refill head' => head' ≤ head
  | _ => True

theorem Joins.mono {head head' : Nat} {pc : Pc} (h : Joins head pc) (hle : head ≤ head') : Joins head' pc := by
  cases pc with
  | compare r blocks =>
    rcases h with ⟨hsub, reach, hreach, hgap⟩
    exact ⟨hsub, reach, by omega, hgap⟩
  | append r b blocks =>
    rcases h with ⟨hsub, reach, hreach, hgap⟩
    exact ⟨hsub, reach, by omega, hgap⟩
  | refill stale =>
    unfold Joins at h ⊢
    omega
  | join => trivial
  | window => trivial
  | schedule consumed => trivial
  | select => trivial

structure Inv (f : Forward) : Prop where
  tiling : Tiling f.q.head f.next f.spans
  pending : ∀ r ∈ f.pending, gapFree r.hi (r.lo - 1) r.blocks
  joins : Joins f.q.head f.pc

variable {f f' : Forward}

theorem Inv.covered (h : f.Inv) : f.Covered := by
  constructor
  . intro n hlow hhigh
    exact h.tiling.countP_covers hlow hhigh
  . intro s hs
    apply h.tiling.le
    unfold spans
    simp only [mem_append] at hs ⊢
    tauto

theorem inv_startForward (start : Nat) (anchorHash : ID) (tip ceiling : Nat)
    : (startForward start anchorHash tip ceiling).Inv := by
  constructor
  . apply Tiling.nil
    simp [startForward]
  . simp [startForward]
  . trivial

theorem Inv.setQueue (h : f.Inv) {q : Queue} (hq : f.q.head ≤ q.head) : { f with q }.Inv := by
  constructor
  . exact h.tiling.raise hq
  . exact h.pending
  . exact h.joins.mono hq

theorem Inv.pending_le (h : f.Inv) : ∀ r ∈ f.pending, r.lo ≤ r.hi := by
  intro r hr
  apply h.tiling.le r.toSpan
  unfold spans
  simp only [List.mem_append, List.mem_map]
  exact .inl (.inr ⟨r, hr, rfl⟩)

theorem Inv.pending_apart (h : f.Inv) : (f.pending.map (·.toSpan)).Pairwise Span.Apart := by
  refine List.Pairwise.sublist ?_ h.tiling.apart
  unfold spans
  exact (sublist_append_right _ _).trans (sublist_append_left _ _)

theorem Inv.forget (h : f.Inv) (hpc : f.joining = []) : { f with pending := f.pending.filter (f.q.head + 1 ≤ ·.hi) }.Inv := by
  constructor
  . have htiling := h.tiling
    unfold spans at htiling ⊢
    rw [hpc, append_nil] at htiling
    have hfilter := htiling.filter (p := fun s => f.q.head + 1 ≤ s.hi) (by
      intro s _ hs
      simp only [decide_eq_false_iff_not] at hs
      omega)
    rw [List.filter_map] at hfilter
    have hjoining : joining { f with pending := f.pending.filter (f.q.head + 1 ≤ ·.hi) } = [] := hpc
    rw [hjoining, append_nil]
    exact hfilter
  . intro r hr
    exact h.pending r (mem_of_mem_filter hr)
  . exact h.joins

theorem Inv.join (h : f.Inv) (hpc : f.pc = .join) : f.join.Inv := by
  have hjoining : f.joining = [] := by
    unfold joining
    rw [hpc]
  have hforget := h.forget hjoining
  unfold Forward.join spanned
  dsimp only
  generalize f.pending.filter (f.q.head + 1 ≤ ·.hi) = pending at hforget
  split
  . next r _ hspan =>
    simp only [Prod.mk.injEq] at hspan
    rcases hspan with ⟨hfind, rfl⟩
    have hmem := mem_of_find?_eq_some hfind
    have hlo := find?_some hfind
    have hperm := Span.perm_eraseP hforget.pending_le hforget.pending_apart hmem
    constructor
    . apply hforget.tiling.perm
      have hmap := hperm.map (·.toSpan)
      rw [perm_iff_count] at hmap ⊢
      intro s
      have := hmap s
      simp only [spans, joining, hpc, count_append, map_cons, count_cons, count_nil] at this ⊢
      omega
    . intro r' hr'
      exact hforget.pending r' (mem_of_mem_eraseP hr')
    . refine ⟨List.Subset.refl _, r.lo - 1, ?_, hforget.pending r hmem⟩
      simp only [decide_eq_true_eq] at hlo
      dsimp only
      omega
  . next _ hspan =>
    simp only [Prod.mk.injEq] at hspan
    rcases hspan with ⟨_, rfl⟩
    constructor
    . have htiling := hforget.tiling
      simp only [spans, joining, hpc] at htiling ⊢
      exact htiling
    . exact hforget.pending
    . trivial

variable {r : SpanResult} {s : Span}

theorem Inv.compare (h : f.Inv) {blocks : List RawBlock} (hpc : f.pc = .compare r blocks) : (f.compare r blocks).Inv := by
  have htiling := h.tiling
  have hjoins := h.joins
  simp only [spans, joining, hpc] at htiling
  rw [hpc] at hjoins
  rcases hjoins with ⟨hsub, reach, hreach, hgap⟩
  cases blocks with
  | nil =>
    -- the answer reaches `hi`, so the span is delivered
    simp only [gapFree, decide_eq_true_eq] at hgap
    constructor
    . have hdrop := (htiling.perm (perm_append_singleton _ _)).drop (by omega)
      simpa only [spans, joining, Forward.compare, append_nil] using hdrop
    . exact h.pending
    . trivial
  | cons b blocks =>
    unfold Forward.compare
    dsimp only
    split
    . next hle =>
      constructor
      . exact htiling
      . exact h.pending
      . rw [gapFree_cons] at hgap
        exact ⟨subset_of_cons_subset hsub, max reach b.p.blockNumber, by dsimp only; omega, hgap.2.2⟩
    . constructor
      . exact htiling
      . exact h.pending
      . exact ⟨hsub, reach, hreach, hgap⟩

theorem Inv.append (h : f.Inv) {b : RawBlock} {blocks : List RawBlock}
    (hpc : f.pc = .append r b blocks) : (f.append r b blocks).Inv := by
  have htiling := h.tiling
  have hjoins := h.joins
  simp only [spans, joining, hpc] at htiling
  rw [hpc] at hjoins
  rcases hjoins with ⟨hsub, reach, hreach, hgap⟩
  rw [gapFree_cons] at hgap
  rcases hgap with ⟨hnext, hhi, hgap⟩
  unfold Forward.append
  split
  . next q happend =>
    have hhead := Queue.append_eq_true happend
    constructor
    . exact htiling.raise (by dsimp only; omega)
    . exact h.pending
    . exact ⟨subset_of_cons_subset hsub, max reach b.p.blockNumber, by dsimp only; omega, hgap⟩
  . next q happend =>
    rw [Queue.append_eq_false happend]
    constructor
    . have hlo : r.lo ≤ b.p.blockNumber := r.lo_le b (hsub mem_cons_self)
      have hcut := (htiling.perm (perm_append_singleton _ _)).cut hlo (by omega) hhi
      apply hcut.perm
      simp only [spans, joining, append_nil, append_assoc, singleton_append]
      exact perm_middle.symm
    . exact h.pending
    . trivial

theorem Inv.refill (h : f.Inv) {head : Nat} (hpc : f.pc = .refill head) : (f.refill head).Inv := by
  have htiling := h.tiling
  have hjoins := h.joins
  simp only [spans, joining, hpc] at htiling
  rw [hpc] at hjoins
  unfold Joins at hjoins
  constructor
  . simp only [spans, joining, Forward.refill]
    split
    . exact htiling.lift (by omega) (by omega)
    . exact htiling
  . exact h.pending
  . trivial

theorem Inv.schedule (h : f.Inv) {consumed : Nat} (hpc : f.pc = .schedule consumed) : (f.schedule consumed).Inv := by
  have htiling := h.tiling
  simp only [spans, joining, hpc, append_nil] at htiling
  unfold Forward.schedule
  dsimp only
  split
  . next hfree =>
    rw [hfree.1] at htiling
    split
    . next job redo hredo =>
      constructor
      . apply htiling.perm
        rw [hredo, perm_iff_count]
        intro s
        simp only [spans, joining, count_append, count_cons, toList_none, toList_some, count_nil]
        omega
      . exact h.pending
      . trivial
    . next hredo =>
      split
      . next hle =>
        constructor
        . have hhi : f.next ≤ min (f.next + spanBlocks - 1) (min f.tipTarget (consumed + windowBlocks)) := by
            unfold spanBlocks
            omega
          apply (htiling.extend hhi).perm
          rw [hredo, perm_iff_count]
          intro s
          simp only [spans, joining, count_append, count_cons, toList_none, toList_some, count_nil]
          omega
        . exact h.pending
        . trivial
      . constructor
        . simpa only [spans, joining, hfree.1, append_nil] using htiling
        . exact h.pending
        . trivial
  . constructor
    . simpa only [spans, joining, append_nil] using htiling
    . exact h.pending
    . trivial

theorem Inv.window (h : f.Inv) (hpc : f.pc = .window) : { f with pc := .refill f.q.head }.Inv := by
  constructor
  . simpa only [spans, joining, hpc] using h.tiling
  . exact h.pending
  . exact Nat.le_refl f.q.head

theorem Inv.advance (h : f.Inv) (hstep : f.advance = some f') : f'.Inv := by
  unfold Forward.advance at hstep
  split at hstep
  . next hpc =>
    cases hstep
    exact h.join hpc
  . next hpc =>
    cases hstep
    exact h.compare hpc
  . next hpc =>
    cases hstep
    exact h.append hpc
  . next hpc =>
    cases hstep
    exact h.window hpc
  . next hpc =>
    cases hstep
    exact h.refill hpc
  . next hpc =>
    cases hstep
    exact h.schedule hpc
  . contradiction

theorem Inv.handOut (h : f.Inv) (hstep : f.handOut = some f') : f'.Inv := by
  unfold Forward.handOut at hstep
  split at hstep
  . next job hpc hout =>
    cases hstep
    constructor
    . apply h.tiling.perm
      rw [perm_iff_count]
      intro s
      simp only [spans, joining, hpc, hout, count_append, count_cons, toList_none, toList_some, count_nil]
      omega
    . exact h.pending
    . trivial
  . contradiction

theorem Inv.tick (h : f.Inv) (hstep : f.tick = some f') : f'.Inv := by
  unfold Forward.tick at hstep
  split at hstep
  . next hpc =>
    cases hstep
    constructor
    . simpa only [spans, joining, hpc] using h.tiling
    . exact h.pending
    . trivial
  . contradiction

theorem toSpan_of_fetchSpan {peers : Peers} (h : fetchSpan s peers = some r) : r.toSpan = s := by
  unfold fetchSpan at h
  split at h
  . contradiction
  . simp only [bind_eq_bind, bind_eq_some_iff] at h
    rcases h with ⟨_, _, _, _, h⟩
    cases h
    rfl

theorem Inv.lo_ne (h : f.Inv) (hs : s ∈ f.inflight) (hr : r ∈ f.pending) : r.lo ≠ s.lo := by
  have hsmem : s ∈ f.redo ++ f.out.toList ++ f.inflight := by simp [hs]
  have hrmem : r.toSpan ∈ f.pending.map (·.toSpan) := mem_map_of_mem hr
  have hapart := h.tiling.apart
  unfold spans at hapart
  rw [pairwise_append, pairwise_append] at hapart
  have hsle : s.lo ≤ s.hi := h.covered.2 s hsmem
  have hrs : r.toSpan.Apart s := (hapart.1.2.2 s hsmem r.toSpan hrmem).symm
  exact hrs.lo_ne (h.pending_le r hr) hsle

theorem Inv.receive (h : f.Inv) {peers : Peers} (hgap : Event.gapFree (.receive s peers))
    (hstep : f.receive s peers = some f') : f'.Inv := by
  unfold Forward.receive at hstep
  split at hstep
  . next hpc =>
    split at hstep
    . next hs =>
      rw [map_eq_some_iff] at hstep
      rcases hstep with ⟨r, hr, hstep⟩
      simp only [Event.gapFree, hr, all_some] at hgap
      obtain rfl := toSpan_of_fetchSpan hr
      have herase : f.pending.eraseP (·.lo = r.lo) = f.pending := by
        apply eraseP_of_forall_not
        intro r' hr'
        rw [decide_eq_true_eq]
        exact h.lo_ne hs hr'
      rw [herase] at hstep
      cases hstep
      constructor
      . apply h.tiling.perm
        have hperm := perm_cons_erase hs
        rw [perm_iff_count] at hperm ⊢
        intro t
        have := hperm t
        simp only [spans, joining, hpc, count_append, count_cons, map_cons, count_nil] at this ⊢
        omega
      . intro r' hr'
        rcases mem_cons.mp hr' with rfl | hr'
        . exact hgap
        . exact h.pending r' hr'
      . trivial
    . contradiction
  . contradiction

theorem inv_step {e : Event} (h : f.Inv) (hgap : e.gapFree) (hstep : f.step e = some f') : f'.Inv := by
  cases e with
  | advance => exact h.advance hstep
  | handOut => exact h.handOut hstep
  | receive s peers => exact h.receive hgap hstep
  | tick => exact h.tick hstep
  | offer b =>
    cases hstep
    exact h.setQueue (f.q.head_le_append b)
  | getByHeight n =>
    simp only [Forward.step, map_eq_some_iff] at hstep
    rcases hstep with ⟨⟨res, q⟩, hget, rfl⟩
    exact h.setQueue (Queue.head_getByHeight hget).ge
  | noteTip n =>
    cases hstep
    exact ⟨h.tiling, h.pending, h.joins⟩
  | setCeiling n =>
    cases hstep
    exact ⟨h.tiling, h.pending, h.joins⟩
  | close =>
    cases hstep
    exact h.setQueue (Nat.le_refl f.q.head)

theorem covered_of_gapFree {start tip ceiling : Nat} {anchorHash : ID}
    (h : Transition.Reachable step (fun _ e => e.gapFree) (startForward start anchorHash tip ceiling) f)
    : f.Covered := by
  have hinv : f.Inv :=
    h.invariant (inv_startForward start anchorHash tip ceiling) (fun _ _ _ => inv_step)
  exact hinv.covered

end Forward

def idOf (k : UInt8) : ID := .fill 32 k

def container (n : Nat) (k parent : UInt8) : RawBlock :=
  ⟨⟨idOf k, n, idOf k, idOf parent, idOf parent⟩, [k]⟩

namespace Forward

def handOutThree : List Event :=
  List.replicate 4 .advance ++ [.handOut] ++ List.replicate 4 .advance

def joinTwo : List Event :=
  handOutThree ++
    [.receive ⟨1, 3⟩ ⟨[(idOf 3, [some (container 3 3 2), some (container 2 2 1), some (container 1 1 0)])], []⟩] ++
    List.replicate 5 .advance

theorem covered_of_gapFree_joinTwo
    : ∃ f,
        Transition.Reachable step (fun _ e => e.gapFree) (startForward 1 (idOf 0) 3 0) f ∧
        f.q.head = 2 ∧ f.next = 4 ∧ f.Covered := by
  have hrun : ((Transition.run step (startForward 1 (idOf 0) 3 0) joinTwo).map
      (fun f => (f.q.head, f.next))) = some (2, 4) := by decide +kernel
  rw [map_eq_some_iff] at hrun
  rcases hrun with ⟨f, hrun, hf⟩
  simp only [Prod.mk.injEq] at hf
  have hgap : ∀ e ∈ joinTwo, e.gapFree := by decide +kernel
  have hreach := Transition.Reachable.init.run (fun e he _ => hgap e he) hrun
  exact ⟨f, hreach, hf.1, hf.2, covered_of_gapFree hreach⟩

def joinGap : List Event :=
  handOutThree ++
    [.receive ⟨1, 3⟩ ⟨[(idOf 9, [some (container 3 9 8), some (container 0 8 7)])], []⟩] ++
    List.replicate 7 .advance

theorem gap_loses_heights
    : ∃ f,
        Transition.Reachable step (fun _ _ => True) (startForward 1 (idOf 0) 3 0) f ∧ ¬ f.Covered := by
  have hrun : ((Transition.run step (startForward 1 (idOf 0) 3 0) joinGap).map
      (fun f => (f.q.head, f.next, f.spans))) = some (0, 4, [⟨3, 3⟩]) := by decide +kernel
  rw [map_eq_some_iff] at hrun
  rcases hrun with ⟨f, hrun, hf⟩
  simp only [Prod.mk.injEq] at hf
  refine ⟨f, Transition.Reachable.init.run (fun _ _ _ => trivial) hrun, ?_⟩
  intro hcovered
  have hone := hcovered.1 1 (by omega) (by omega)
  rw [hf.2.2] at hone
  exact absurd hone (by decide)

end Forward

end EpochDB.Fetch
