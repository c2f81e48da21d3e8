import EpochDB.Store.ScanRuns.Moves

/-!
Every schedule of the parallel scan does what the loop over the runs does, and returns.
-/

namespace EpochDB.Store.ScanRuns

open List

variable {ε α : Type} {n : Nat} {work : Nat → Except ε α} {emit : List α → Bool}

variable {s : State ε α}

theorem isSome_stepProducer (hgone : s.producer ≠ .gone)
    (hselect : s.producer = .select → s.quit = true ∨ s.slots.length < scanFanout) : ∃ b, (stepProducer n s b).isSome := by
  cases hproducer : s.producer with
  | select =>
    rcases hselect hproducer with hquit | hroom
    . refine ⟨true, ?_⟩
      by_cases hn : s.next < n <;> simp [stepProducer, hproducer, hn, hquit]
    . refine ⟨false, ?_⟩
      by_cases hn : s.next < n <;> simp [stepProducer, hproducer, hn, hroom]
  | spawn => exact ⟨false, by simp [stepProducer, hproducer]⟩
  | exit => exact ⟨false, by simp [stepProducer, hproducer]⟩
  | closed => exact ⟨false, by simp [stepProducer, hproducer]⟩
  | gone => exact absurd hproducer hgone

theorem isSome_stepWorker {i : Nat} {w : Worker ε α} (hw : s.workers[i]? = some w) (hactive : w.active = true)
    (hwaiting : w = .waiting → s.quit = true ∨ s.used < scanSlots) : ∃ b, (stepWorker work s i b).isSome := by
  cases w with
  | waiting =>
    rcases hwaiting rfl with hquit | hroom
    . exact ⟨true, by simp [stepWorker, hw, hquit]⟩
    . exact ⟨false, by simp [stepWorker, hw, hroom]⟩
  | working => exact ⟨false, by simp [stepWorker, hw]⟩
  | holding r => exact ⟨false, by simp [stepWorker, hw]⟩
  | sending r => exact ⟨false, by simp [stepWorker, hw]⟩
  | leaving => exact ⟨false, by simp [stepWorker, hw]⟩
  | gone => cases hactive

theorem exists_worker_of_full (hothers : s.others < scanSlots) (hfull : ¬ s.used < scanSlots)
    : ∃ i b, (stepWorker work s i b).isSome := by
  have hpos : 0 < s.workers.countP Worker.holds := by
    unfold State.used at hfull
    omega
  rcases countP_pos_iff.mp hpos with ⟨w, hmem, hholds⟩
  rcases mem_iff_getElem?.mp hmem with ⟨i, hw⟩
  refine ⟨i, isSome_stepWorker hw ?_ ?_⟩
  . cases w <;> first | rfl | cases hholds
  . intro hwaiting
    rw [hwaiting] at hholds
    cases hholds

theorem Inv.progress (h : Inv n work emit s) (hreturned : s.caller ≠ .returned) (hothers : s.others < scanSlots)
    : ∃ e : Event, e.own = true ∧ (ScanRuns.step n work emit s e).isSome := by
  have hproducer : (∃ b, (stepProducer n s b).isSome) → ∃ e : Event, e.own = true ∧ (ScanRuns.step n work emit s e).isSome := by
    rintro ⟨b, hb⟩
    exact ⟨.producer b, rfl, hb⟩
  have hworker : (∃ i b, (stepWorker work s i b).isSome) → ∃ e : Event, e.own = true ∧ (ScanRuns.step n work emit s e).isSome := by
    rintro ⟨i, b, hb⟩
    exact ⟨.worker i b, rfl, hb⟩
  cases hcaller : s.caller with
  | next =>
    cases hslots : s.slots with
    | cons i slots => exact ⟨.caller, rfl, by simp [ScanRuns.step, stepCaller, hcaller, hslots]⟩
    | nil =>
      cases hclosed : s.closed with
      | true => exact ⟨.caller, rfl, by simp [ScanRuns.step, stepCaller, hcaller, hslots, hclosed]⟩
      | false =>
        refine hproducer (isSome_stepProducer (h.open_ hclosed).2 (fun _ => .inr ?_))
        rw [hslots]
        decide
  | await i =>
    cases hchan : s.chans[i]? with
    | some r =>
      cases r with
      | some r => exact ⟨.caller, rfl, by cases r <;> simp [ScanRuns.step, stepCaller, hcaller, hchan]⟩
      | none =>
        -- the result is still to come: the worker of the run is under way or about to be started
        have hi := h.awaits i hcaller
        have hlt := (List.getElem?_eq_some_iff.mp hchan).1
        have htakes : s.caller.takes = true := by
          rw [hcaller]
          rfl
        have hsent := h.sent
        by_cases hstarted : i < s.workers.length
        . have hw := getElem?_eq_getElem hstarted
          have hpast : s.workers[i].past = false := by
            rw [Bool.eq_false_iff]
            intro hpast
            rcases h.delivered htakes i _ (Nat.le_of_eq hi.symm) hw hpast with ⟨r, hr⟩
            rw [hchan] at hr
            cases hr
          have hactive : s.workers[i].active = true := by
            generalize s.workers[i] = w at hpast
            cases w <;> first | rfl | cases hpast
          by_cases hroom : s.used < scanSlots
          . exact hworker ⟨i, isSome_stepWorker hw hactive (fun _ => .inr hroom)⟩
          . exact hworker (exists_worker_of_full hothers hroom)
        . rw [h.spawned] at hstarted
          have hspawn : s.producer = .spawn := by
            by_contra hno
            rw [if_neg hno] at hsent
            omega
          exact hproducer (isSome_stepProducer (by simp [hspawn]) (by simp [hspawn]))
    | none =>
      have htakes : s.caller.takes = true := by
        rw [hcaller]
        rfl
      have hlen := (h.slots htakes).2
      have hlt := getElem?_eq_none_iff.mp hchan
      unfold State.head at hlen
      rw [hcaller] at hlen
      dsimp only at hlen
      omega
  | quitting => exact ⟨.caller, rfl, by simp [ScanRuns.step, stepCaller, hcaller]⟩
  | waiting =>
    have hquit : s.quit = true := h.quit.mpr (.inl hcaller)
    by_cases hwg : s.wg = 0
    . exact ⟨.caller, rfl, by simp [ScanRuns.step, stepCaller, hcaller, hwg]⟩
    . by_cases hgone : s.producer = .gone
      . have hcount := h.wg
        rw [if_pos hgone, Nat.zero_add] at hcount
        have hpos : 0 < s.workers.countP Worker.active := by omega
        rcases countP_pos_iff.mp hpos with ⟨w, hmem, hactive⟩
        rcases mem_iff_getElem?.mp hmem with ⟨i, hw⟩
        exact hworker ⟨i, isSome_stepWorker hw hactive (fun _ => .inl hquit)⟩
      . exact hproducer (isSome_stepProducer hgone (fun _ => .inl hquit))
  | returned => exact absurd hcaller hreturned

theorem Inv.quiet (h : Inv n work emit s) (hreturned : s.caller = .returned) {e : Event} (he : e.own = true)
    : ScanRuns.step n work emit s e = none := by
  have hwg := h.wg
  rw [h.waited hreturned] at hwg
  have hgone : s.producer = .gone := by
    by_contra hno
    rw [if_neg hno] at hwg
    omega
  have hidle : s.workers.countP Worker.active = 0 := by omega
  cases e with
  | producer b => simp [ScanRuns.step, stepProducer, hgone]
  | worker i b =>
    have hworkers : s.workers[i]? = none ∨ s.workers[i]? = some .gone := by
      cases hw : s.workers[i]? with
      | none => exact .inl rfl
      | some w =>
        have hactive := countP_eq_zero.mp hidle w (mem_of_getElem? hw)
        cases w <;> first | exact .inr rfl | exact absurd rfl hactive
    rcases hworkers with hw | hw <;> simp [ScanRuns.step, stepWorker, hw]
  | caller => simp [ScanRuns.step, stepCaller, hreturned]
  | others k => cases he

def Producer.rank (left : Nat) : Producer → Nat
  | .select => 8 * left + 4
  | .spawn => 8 * left + 3
  | .exit => 2
  | .closed => 1
  | .gone => 0

def Worker.rank : Worker ε α → Nat
  | .waiting => 5
  | .working => 4
  | .holding _ => 3
  | .sending _ => 2
  | .leaving => 1
  | .gone => 0

def Caller.rank (left : Nat) : Caller → Nat
  | .next => 2 * left + 3
  | .await _ => 2 * left + 2
  | .quitting => 2
  | .waiting => 1
  | .returned => 0

def State.rank (n : Nat) (s : State ε α) : Nat :=
  s.producer.rank (n - s.next) + (s.workers.map Worker.rank).sum + s.caller.rank (n - s.got.length)

theorem sum_rank_set {workers : List (Worker ε α)} {i : Nat} {w : Worker ε α} (hw : workers[i]? = some w) (w' : Worker ε α)
    : ((workers.set i w').map Worker.rank).sum + w.rank = (workers.map Worker.rank).sum + w'.rank := by
  induction workers generalizing i with
  | nil => cases hw
  | cons x workers ih =>
    cases i with
    | zero =>
      cases hw
      simp only [set_cons_zero, map_cons, sum_cons]
      omega
    | succ i =>
      have hrest := ih hw
      simp only [set_cons_succ, map_cons, sum_cons]
      omega

theorem Inv.rank_lt {s s' : State ε α} (h : Inv n work emit s) (hmove : Move n work emit s s') : s'.rank n < s.rank n := by
  have hsent := h.sent
  have hbound := h.bound
  cases hmove with
  | send hproducer hn =>
    simp only [State.rank, hproducer, Producer.rank]
    omega
  | stop hproducer hend =>
    simp only [State.rank, hproducer, Producer.rank]
    omega
  | spawn hproducer =>
    rw [if_pos hproducer] at hsent
    simp only [State.rank, hproducer, Producer.rank, map_append, sum_append, map_cons, map_nil, sum_cons,
      sum_nil, Worker.rank]
    omega
  | close hproducer =>
    simp only [State.rank, hproducer, Producer.rank]
    omega
  | leave hproducer =>
    simp only [State.rank, hproducer, Producer.rank]
    omega
  | worker i w w' hw hmove =>
    have hsum := sum_rank_set hw w'
    have hlt : w'.rank < w.rank := by
      cases hmove <;> simp [Worker.rank]
    simp only [State.rank]
    omega
  | deliver i r hw =>
    have hsum := sum_rank_set hw .leaving
    simp only [Worker.rank] at hsum
    simp only [State.rank]
    omega
  | retire i hw =>
    have hsum := sum_rank_set hw .gone
    simp only [Worker.rank] at hsum
    simp only [State.rank]
    omega
  | receive i slots hcaller hslots =>
    simp only [State.rank, hcaller, Caller.rank]
    omega
  | drained hcaller hslots hclosed =>
    simp only [State.rank, hcaller, Caller.rank]
    omega
  | failed i e hcaller hchan =>
    have hi := h.awaits i hcaller
    have hlt := (List.getElem?_eq_some_iff.mp hchan).1
    simp only [State.rank, hcaller, Caller.rank]
    omega
  | took i v hcaller hchan =>
    have hi := h.awaits i hcaller
    have hlt := (List.getElem?_eq_some_iff.mp hchan).1
    cases hemit : emit (s.got ++ [v]) with
    | true =>
      simp only [State.rank, hcaller, Caller.rank, if_true, length_append, length_singleton]
      omega
    | false =>
      simp only [State.rank, hcaller, Caller.rank, Bool.false_eq_true, if_false]
      omega
  | quit hcaller =>
    simp only [State.rank, hcaller, Caller.rank]
    omega
  | done hcaller hwg =>
    simp only [State.rank, hcaller, Caller.rank]
    omega

theorem Inv.run {s s' : State ε α} (h : Inv n work emit s) {es : List Event} (hrun : Transition.run (ScanRuns.step n work emit) s es = some s')
    : Inv n work emit s' ∧ es.countP Event.own + s'.rank n ≤ s.rank n := by
  induction es generalizing s with
  | nil =>
    cases hrun
    exact ⟨h, by simp⟩
  | cons e es ih =>
    rw [Transition.run] at hrun
    split at hrun
    . cases hrun
    . next s1 hs1 =>
      rcases ih (h.step hs1) hrun with ⟨hinv, hcount⟩
      refine ⟨hinv, ?_⟩
      rw [countP_cons]
      rcases move_of_step hs1 with ⟨hown, hmove⟩ | ⟨hown, k, rfl⟩
      . have hlt := h.rank_lt hmove
        rw [if_pos hown]
        omega
      . rw [if_neg (by simp [hown])]
        exact hcount

theorem isPrefix_scanFrom (left i : Nat) (got : List α) : got <+: (scanFrom work emit left i got).1 := by
  induction left generalizing i got with
  | zero => exact prefix_refl got
  | succ left ih =>
    unfold scanFrom
    split
    . exact prefix_refl got
    . next v _ =>
      split
      . exact (prefix_append got [v]).trans (ih (i + 1) (got ++ [v]))
      . exact prefix_append got [v]

/--
Under every schedule the caller is handed what the loop over the runs hands out, in its order; when the call
returns it was all of it, the error is that of the loop and nobody of the call moves any more; until then
somebody can move, as long as other scans leave a slot, and there are at most `10 * n + 7` moves.
-/
theorem scanRuns_eq_scan {es : List Event} {s : State ε α} (hrun : Transition.run (step n work emit) init es = some s)
    : s.got <+: (scan work emit n).1 ∧
      (s.caller = .returned → (s.got, s.err) = scan work emit n ∧ ∀ e : Event, e.own = true → step n work emit s e = none) ∧
      (s.caller ≠ .returned → s.others < scanSlots → ∃ e : Event, e.own = true ∧ (step n work emit s e).isSome) ∧
      es.countP Event.own ≤ 10 * n + 7 := by
  rcases inv_init.run hrun with ⟨hinv, hcount⟩
  have horder := hinv.order
  refine ⟨?_, ?_, ?_, ?_⟩
  . split at horder
    . rw [← horder.2]
      exact isPrefix_scanFrom _ _ _
    . rw [← horder]
  . intro hreturned
    rw [hreturned] at horder
    exact ⟨horder, fun e he => hinv.quiet hreturned he⟩
  . exact hinv.progress
  . have hinit : (init : State ε α).rank n = 10 * n + 7 := by
      simp only [State.rank, init, Producer.rank, Caller.rank, map_nil, sum_nil, length_nil, Nat.sub_zero]
      omega
    omega

def threeRuns : Nat → Except String Nat
  | 0 => .ok 10
  | 1 => .error "torn"
  | _ => .ok 30

def reversed : List Event :=
  List.replicate 9 (.producer false) ++ ([2, 1, 0].flatMap (fun i => List.replicate 5 (.worker i false))) ++ List.replicate 6 .caller

theorem scanRuns_reversed
    : ∃ s, Transition.run (step 3 threeRuns (fun _ => true)) init reversed = some s ∧ s.caller = .returned ∧
        (s.got, s.err) = scan threeRuns (fun _ => true) 3 ∧ (s.got, s.err) = ([10], some "torn") := by
  have hrun : (Transition.run (step 3 threeRuns (fun _ => true)) init reversed).map (fun s => (s.caller, s.got, s.err)) =
      some (.returned, [10], some "torn") := by
    decide +kernel
  rcases Option.map_eq_some_iff.mp hrun with ⟨s, hs, hstate⟩
  rw [Prod.mk.injEq] at hstate
  exact ⟨s, hs, hstate.1, ((scanRuns_eq_scan hs).2.1 hstate.1).1, hstate.2⟩

end EpochDB.Store.ScanRuns
