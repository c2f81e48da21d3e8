import EpochDB.Fetch.Cover

/-!
When the loop of the forward fetch hands out a span that a broken link sent back. It does not once the
whole window is scheduled: with nothing in flight and the executor waiting for the span, the loop parks.
-/

namespace EpochDB.Fetch

namespace Forward

variable {f : Forward}

def Iterates (f f' : Forward) : Prop :=
  f'.pc = .select ∧ ∃ k, Transition.run step f (List.replicate k .advance) = some f'

theorem step_advance_of_select (hpc : f.pc = .select) : f.step .advance = none := by
  simp [step, advance, hpc]

theorem Iterates.unique {f1 f2 : Forward} (h1 : f.Iterates f1) (h2 : f.Iterates f2) : f1 = f2 := by
  rcases h1 with ⟨hpc1, k, hk⟩
  rcases h2 with ⟨hpc2, l, hl⟩
  induction k generalizing f l with
  | zero =>
    cases hk
    cases l with
    | zero =>
      cases hl
      rfl
    | succ l =>
      simp [List.replicate_succ, Transition.run, step_advance_of_select hpc1] at hl
  | succ k ih =>
    cases l with
    | zero =>
      cases hl
      simp [List.replicate_succ, Transition.run, step_advance_of_select hpc2] at hk
    | succ l =>
      simp only [List.replicate_succ, Transition.run] at hk hl
      split at hk
      . contradiction
      . next hstep =>
        rw [hstep] at hl
        exact ih hk l hl

def HandsOut (f : Forward) (s : Span) : Prop := ∃ f', f.Iterates f' ∧ f'.out = some s

structure Idle (f : Forward) : Prop where
  pc : f.pc = .join
  inflight : f.inflight = []
  out : f.out = none
  pending : ∀ r ∈ f.pending, ¬ r.Covers (f.q.head + 1)
  consumed : f.q.consumed = f.q.head
  bytes : f.q.bytes < queueMaxBytes

theorem idle_iff
    : f.Idle ↔
        f.pc = .join ∧ f.inflight = [] ∧ f.out = none ∧ (∀ r ∈ f.pending, ¬ r.Covers (f.q.head + 1)) ∧
          f.q.consumed = f.q.head ∧ f.q.bytes < queueMaxBytes := by
  constructor
  . intro h
    exact ⟨h.pc, h.inflight, h.out, h.pending, h.consumed, h.bytes⟩
  . rintro ⟨hpc, hinflight, hout, hpending, hconsumed, hbytes⟩
    exact ⟨hpc, hinflight, hout, hpending, hconsumed, hbytes⟩

instance (f : Forward) : Decidable f.Idle := decidable_of_iff _ idle_iff.symm

theorem spanned_eq_none {pending : List SpanResult} {want : Nat}
    (h : ∀ r ∈ pending, ¬ r.Covers want) : (spanned pending want).1 = none := by
  unfold spanned
  rw [List.find?_eq_none]
  intro r hr
  rw [List.mem_filter] at hr
  have := h r hr.1
  unfold Span.Covers at this
  simp only [decide_eq_true_eq] at hr ⊢
  omega

theorem Idle.join (h : f.Idle) : f.join = { f with pending := (spanned f.pending (f.q.head + 1)).2, pc := .window } := by
  have hnone := spanned_eq_none h.pending
  unfold Forward.join
  split
  . next hspan =>
    rw [hspan] at hnone
    contradiction
  . next hspan => rw [hspan]

theorem filling_refill (hconsumed : f.q.consumed = f.q.head)
    : (f.refill f.q.head).filling = decide (f.next ≤ f.q.head + windowBlocks) := by
  have hsub : sub64 f.q.head f.q.head < refillBelow := by
    simp [sub64, refillBelow]
  simp only [refill, hconsumed, hsub, ite_true]
  unfold windowBlocks
  split
  . next hbehind =>
    have : f.next ≤ f.q.head + 100000 := by omega
    simp [this]
  . by_cases hle : f.next ≤ f.q.head + 100000
    . have : ¬ f.next > f.q.head + 100000 := by omega
      simp [hle, this]
    . have : f.next > f.q.head + 100000 := by omega
      simp [hle, this]

theorem pc_schedule (f : Forward) (consumed : Nat) : (f.schedule consumed).pc = .select := by
  unfold schedule
  dsimp only
  split
  . split
    . rfl
    . split <;> rfl
  . rfl

theorem out_schedule {consumed : Nat} (hout : f.out = none) (hinflight : f.inflight = [])
    (hbytes : f.q.bytes < queueMaxBytes) (hredo : f.redo ≠ [])
    : (f.schedule consumed).out = if f.filling then f.redo.head? else none := by
  have hworkers : f.inflight.length < fetchSpans := by
    simp [hinflight, fetchSpans]
  unfold schedule
  cases hfilling : f.filling with
  | true =>
    cases hjobs : f.redo with
    | nil => contradiction
    | cons job redo => simp [hout, hbytes, hworkers]
  | false => simp [hout]

theorem Idle.iterates (h : f.Idle) (hredo : f.redo ≠ [])
    : ∃ f', f.Iterates f' ∧
        f'.out = if f.next ≤ f.q.head + windowBlocks then f.redo.head? else none := by
  let f2 : Forward :=
    { f with pending := (spanned f.pending (f.q.head + 1)).2, pc := .refill f.q.head }
  have hrun : Transition.run step f (List.replicate 4 .advance) =
      some ((f2.refill f.q.head).schedule f.q.consumed) := by
    simp only [List.replicate, Transition.run, step, advance, h.pc, h.join]
    rfl
  have hout : ((f2.refill f.q.head).schedule f.q.consumed).out =
      if f.next ≤ f.q.head + windowBlocks then f.redo.head? else none := by
    rw [out_schedule (f := f2.refill f.q.head) h.out h.inflight h.bytes hredo]
    rw [filling_refill (f := f2) h.consumed]
    simp only [decide_eq_true_eq]
    rfl
  exact ⟨_, ⟨pc_schedule _ _, 4, hrun⟩, hout⟩

theorem Idle.handsOut {s : Span} (h : f.Idle) (hs : s ∈ f.redo)
    : f.HandsOut s ↔
        (if f.next ≤ f.q.head + windowBlocks then f.redo.head? else none) = some s := by
  rcases h.iterates (List.ne_nil_of_mem hs) with ⟨f', hf', hout⟩
  rw [← hout]
  constructor
  . rintro ⟨f'', hf'', hs⟩
    rw [hf'.unique hf'']
    exact hs
  . intro hs
    exact ⟨f', hf', hs⟩

/--
An idle loop hands out a span sent back exactly if it is the first one and the window reaches past
what is scheduled.
-/
theorem handsOut_iff {s : Span} (h : f.Idle) (hs : s ∈ f.redo)
    : f.HandsOut s ↔ f.next ≤ f.q.head + windowBlocks ∧ f.redo.head? = some s := by
  rw [h.handsOut hs]
  split
  . next hle => simp [hle]
  . next hle => simp [hle]

def awaits (f : Forward) (s : Span) : Bool := f.Idle ∧ f.redo = [s] ∧ s.Covers (f.q.head + 1)

def resendThree : List Event :=
  handOutThree ++
    [.receive ⟨1, 3⟩ ⟨[(idOf 3, [some (container 3 3 2), some (container 2 2 1), some (container 1 1 9)])], []⟩] ++
    List.replicate 3 .advance

theorem handsOut_iff_resendThree
    : ∃ f,
        Transition.Reachable step (fun _ _ => True) (startForward 1 (idOf 0) 3 0) f ∧ f.Idle ∧
        ⟨1, 3⟩ ∈ f.redo ∧ f.HandsOut ⟨1, 3⟩ := by
  have hrun : ((Transition.run step (startForward 1 (idOf 0) 3 0) resendThree).map
      (fun f => (f.awaits ⟨1, 3⟩, f.next))) = some (true, 4) := by decide +kernel
  rw [Option.map_eq_some_iff] at hrun
  rcases hrun with ⟨f, hrun, hf⟩
  simp only [Prod.mk.injEq, awaits, decide_eq_true_eq] at hf
  rcases hf with ⟨⟨hidle, hredo, _⟩, hnext⟩
  have hs : ⟨1, 3⟩ ∈ f.redo := by simp [hredo]
  refine ⟨f, Transition.Reachable.init.run (fun _ _ _ => trivial) hrun, hidle, hs, ?_⟩
  rw [handsOut_iff hidle hs, hnext, hredo]
  simp [windowBlocks]

def windowSpan (i : Nat) : Span := ⟨spanBlocks * i + 1, min (spanBlocks * (i + 1)) windowBlocks⟩

def answer (i bottom : Nat) : Event :=
  .receive (windowSpan i)
    ⟨[(idOf 9, [some (container (windowSpan i).hi 9 8), some (container bottom 8 7)])], []⟩

def turn : List Event := List.replicate 4 .advance

def resendLast : List Event :=
  List.flatten [
    (List.range 16).flatMap (fun _ => turn ++ [.handOut]),
    (List.range 9).flatMap (fun i => turn ++ answer (i + 1) 0 :: turn ++ [.handOut]),
    (List.range 15).flatMap (fun i => turn ++ [answer (i + 10) 0]),
    turn ++ [answer 0 1],
    List.replicate 7 .advance,
    [.tick]]

theorem parks_after_whole_window
    : ∃ f,
        Transition.Reachable step (fun _ _ => True) (startForward 1 (idOf 0) windowBlocks 0) f ∧
        f.Idle ∧ windowSpan 0 ∈ f.redo ∧ (windowSpan 0).Covers (f.q.head + 1) ∧
        ¬ f.HandsOut (windowSpan 0) := by
  have hrun : ((Transition.run step (startForward 1 (idOf 0) windowBlocks 0) resendLast).map
      (fun f => (f.awaits (windowSpan 0), decide (f.next ≤ f.q.head + windowBlocks)))) =
        some (true, false) := by decide +kernel
  rw [Option.map_eq_some_iff] at hrun
  rcases hrun with ⟨f, hrun, hf⟩
  simp only [Prod.mk.injEq, awaits, decide_eq_true_eq, decide_eq_false_iff_not] at hf
  rcases hf with ⟨⟨hidle, hredo, hcovers⟩, hnext⟩
  have hs : windowSpan 0 ∈ f.redo := by simp [hredo]
  refine ⟨f, Transition.Reachable.init.run (fun _ _ _ => trivial) hrun, hidle, hs, hcovers, ?_⟩
  rw [hidle.handsOut hs]
  simp [hnext]

end Forward

end EpochDB.Fetch
