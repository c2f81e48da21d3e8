import EpochDB.Store.ScanRuns.Impl

/-!
The moves of the parallel scan and what holds in every state they lead to.
-/

namespace EpochDB.Store.ScanRuns

open List

variable {ε α : Type} {n : Nat} {work : Nat → Except ε α} {emit : List α → Bool}

inductive WorkerMove (result : Except ε α) (quit : Bool) : Worker ε α → Worker ε α → Prop where
  | acquire : WorkerMove result quit .waiting .working
  | skip (hquit : quit = true) : WorkerMove result quit .waiting .leaving
  | scan : WorkerMove result quit .working (.holding result)
  | release (r : Except ε α) : WorkerMove result quit (.holding r) (.sending r)

inductive Move (n : Nat) (work : Nat → Except ε α) (emit : List α → Bool) (s : State ε α) : State ε α → Prop where
  | send (hproducer : s.producer = .select) (hn : s.next < n)
    : Move n work emit s { s with slots := s.slots ++ [s.next], chans := s.chans ++ [none], producer := .spawn }
  | stop (hproducer : s.producer = .select) (hend : s.quit = true ∨ n ≤ s.next) : Move n work emit s { s with producer := .exit }
  | spawn (hproducer : s.producer = .spawn)
    : Move n work emit s { s with next := s.next + 1, workers := s.workers ++ [.waiting], wg := s.wg + 1, producer := .select }
  | close (hproducer : s.producer = .exit) : Move n work emit s { s with closed := true, producer := .closed }
  | leave (hproducer : s.producer = .closed) : Move n work emit s { s with wg := s.wg - 1, producer := .gone }
  | worker (i : Nat) (w w' : Worker ε α) (hw : s.workers[i]? = some w) (hmove : WorkerMove (work i) s.quit w w')
    : Move n work emit s { s with workers := s.workers.set i w' }
  | deliver (i : Nat) (r : Except ε α) (hw : s.workers[i]? = some (.sending r))
    : Move n work emit s { s with workers := s.workers.set i .leaving, chans := s.chans.set i (some r) }
  | retire (i : Nat) (hw : s.workers[i]? = some .leaving)
    : Move n work emit s { s with workers := s.workers.set i .gone, wg := s.wg - 1 }
  | receive (i : Nat) (slots : List Nat) (hcaller : s.caller = .next) (hslots : s.slots = i :: slots)
    : Move n work emit s { s with slots := slots, caller := .await i }
  | drained (hcaller : s.caller = .next) (hslots : s.slots = []) (hclosed : s.closed = true)
    : Move n work emit s { s with caller := .quitting }
  | failed (i : Nat) (e : ε) (hcaller : s.caller = .await i) (hchan : s.chans[i]? = some (some (.error e)))
    : Move n work emit s { s with chans := s.chans.set i none, err := some e, caller := .quitting }
  | took (i : Nat) (v : α) (hcaller : s.caller = .await i) (hchan : s.chans[i]? = some (some (.ok v)))
    : Move n work emit s
        { s with chans := s.chans.set i none, got := s.got ++ [v], caller := if emit (s.got ++ [v]) then .next else .quitting }
  | quit (hcaller : s.caller = .quitting) : Move n work emit s { s with quit := true, caller := .waiting }
  | done (hcaller : s.caller = .waiting) (hwg : s.wg = 0) : Move n work emit s { s with caller := .returned }

variable {s s' : State ε α} {i : Nat}

theorem move_of_stepProducer {b : Bool} (h : stepProducer n s b = some s') : Move n work emit s s' := by
  unfold stepProducer at h
  split at h
  . next hproducer =>
    split at h
    . next hn =>
      split at h
      . split at h
        . next hquit =>
          cases h
          exact .stop hproducer (.inl hquit)
        . cases h
      . split at h
        . cases h
          exact .send hproducer hn
        . cases h
    . next hn =>
      cases h
      exact .stop hproducer (.inr (Nat.not_lt.mp hn))
  . next hproducer =>
    cases h
    exact .spawn hproducer
  . next hproducer =>
    cases h
    exact .close hproducer
  . next hproducer =>
    cases h
    exact .leave hproducer
  . cases h

theorem move_of_stepWorker {b : Bool} (h : stepWorker work s i b = some s') : Move n work emit s s' := by
  unfold stepWorker at h
  split at h
  . cases h
  . next hw =>
    split at h
    . split at h
      . next hquit =>
        cases h
        exact .worker i _ _ hw (.skip hquit)
      . cases h
    . split at h
      . cases h
        exact .worker i _ _ hw .acquire
      . cases h
  . next hw =>
    cases h
    exact .worker i _ _ hw .scan
  . next r hw =>
    cases h
    exact .worker i _ _ hw (.release r)
  . next r hw =>
    cases h
    exact .deliver i r hw
  . next hw =>
    cases h
    exact .retire i hw
  . cases h

theorem move_of_stepCaller (h : stepCaller emit s = some s') : Move n work emit s s' := by
  unfold stepCaller at h
  split at h
  . next hcaller =>
    split at h
    . next i slots hslots =>
      cases h
      exact .receive i slots hcaller hslots
    . next hslots =>
      split at h
      . next hclosed =>
        cases h
        exact .drained hcaller hslots hclosed
      . cases h
  . next i hcaller =>
    split at h
    . next e hchan =>
      cases h
      exact .failed i e hcaller hchan
    . next v hchan =>
      cases h
      exact .took i v hcaller hchan
    . cases h
  . next hcaller =>
    cases h
    exact .quit hcaller
  . next hcaller =>
    split at h
    . next hwg =>
      cases h
      exact .done hcaller hwg
    . cases h
  . cases h

theorem move_of_step {e : Event} (h : step n work emit s e = some s')
    : e.own = true ∧ Move n work emit s s' ∨ e.own = false ∧ ∃ k, s' = { s with others := k } := by
  cases e with
  | producer b => exact .inl ⟨rfl, move_of_stepProducer h⟩
  | worker i b => exact .inl ⟨rfl, move_of_stepWorker h⟩
  | caller => exact .inl ⟨rfl, move_of_stepCaller h⟩
  | others k =>
    unfold step at h
    dsimp only at h
    split at h
    . cases h
      exact .inr ⟨rfl, k, rfl⟩
    . cases h

def Worker.Ok (result : Except ε α) : Worker ε α → Prop
  | .holding r => r = result
  | .sending r => r = result
  | _ => True

def Worker.past : Worker ε α → Bool
  | .leaving => true
  | .gone => true
  | _ => false

def Caller.takes : Caller → Bool
  | .next => true
  | .await _ => true
  | _ => false

def State.head (s : State ε α) : Nat :=
  match s.caller with
  | .await i => i + 1
  | _ => s.got.length

structure Inv (n : Nat) (work : Nat → Except ε α) (emit : List α → Bool) (s : State ε α) : Prop where
  sent : s.chans.length = s.next + if s.producer = .spawn then 1 else 0
  spawned : s.workers.length = s.next
  bound : s.chans.length ≤ n
  closed : s.closed = true → s.producer ≠ .select ∧ s.producer ≠ .spawn
  open_ : s.closed = false → s.producer ≠ .closed ∧ s.producer ≠ .gone
  quit : s.quit = true ↔ s.caller = .waiting ∨ s.caller = .returned
  all : s.quit = false → s.producer ≠ .select → s.producer ≠ .spawn → s.next = n
  wg : s.wg = (if s.producer = .gone then 0 else 1) + s.workers.countP Worker.active
  worked : ∀ (i : Nat) (w : Worker ε α), s.workers[i]? = some w → w.Ok (work i)
  chan : ∀ (i : Nat) (r : Except ε α), s.chans[i]? = some (some r) → r = work i
  delivered : s.caller.takes = true → ∀ (i : Nat) (w : Worker ε α), s.got.length ≤ i → s.workers[i]? = some w → w.past = true →
    ∃ r, s.chans[i]? = some (some r)
  slots : s.caller.takes = true → s.slots = List.range' s.head s.slots.length ∧ s.head + s.slots.length = s.chans.length
  awaits : ∀ i, s.caller = .await i → i = s.got.length
  waited : s.caller = .returned → s.wg = 0
  order : if s.caller.takes then s.err = none ∧ scanFrom work emit (n - s.got.length) s.got.length s.got = scan work emit n
    else (s.got, s.err) = scan work emit n

theorem inv_init : Inv n work emit init := by
  constructor <;> simp [init, Caller.takes, State.head, scan]

theorem getElem?_append_none {chans : List (Option (Except ε α))} {r : Except ε α} (h : (chans ++ [none])[i]? = some (some r))
    : chans[i]? = some (some r) := by
  rw [getElem?_append] at h
  split at h
  . exact h
  . rw [getElem?_singleton] at h
    split at h
    . cases h
    . cases h

theorem getElem?_append_of_some {β : Type} {l : List β} {x : β} (h : l[i]? = some x) (y : β) : (l ++ [y])[i]? = some x := by
  rw [List.getElem?_append_left (List.getElem?_eq_some_iff.mp h).1]
  exact h

section Producer

variable {s : State ε α} (h : Inv n work emit s)

include h

theorem Inv.send (hproducer : s.producer = .select) (hn : s.next < n)
    : Inv n work emit { s with slots := s.slots ++ [s.next], chans := s.chans ++ [none], producer := .spawn } := by
  have hsent := h.sent
  rw [hproducer, if_neg (by decide)] at hsent
  refine { h with sent := ?_, bound := ?_, closed := ?_, open_ := ?_, all := ?_, wg := ?_, chan := ?_, delivered := ?_, slots := ?_ }
  . rw [length_append, hsent]
    rfl
  . rw [length_append, length_singleton]
    omega
  . intro hclosed
    exact absurd hproducer (h.closed hclosed).1
  . simp
  . intro _ _ hspawn
    exact absurd rfl hspawn
  . have hwg := h.wg
    rw [hproducer] at hwg
    exact hwg
  . intro i r hr
    exact h.chan i r (getElem?_append_none hr)
  . intro htakes i w hi hw hpast
    rcases h.delivered htakes i w hi hw hpast with ⟨r, hr⟩
    exact ⟨r, getElem?_append_of_some hr none⟩
  . intro htakes
    rcases h.slots htakes with ⟨hslots, hlen⟩
    have hnext : s.next = s.head + s.slots.length := by omega
    refine ⟨?_, ?_⟩
    . change s.slots ++ [s.next] = List.range' s.head (s.slots ++ [s.next]).length
      rw [length_append, length_singleton, range'_1_concat, ← hslots, hnext]
    . change s.head + (s.slots ++ [s.next]).length = (s.chans ++ [none]).length
      simp only [length_append, length_singleton]
      omega

theorem Inv.stop (hproducer : s.producer = .select) (hend : s.quit = true ∨ n ≤ s.next) : Inv n work emit { s with producer := .exit } := by
  have hsent := h.sent
  rw [hproducer, if_neg (by decide)] at hsent
  refine { h with sent := hsent, closed := ?_, open_ := ?_, all := ?_, wg := ?_ }
  . simp
  . simp
  . intro hquit _ _
    have hbound := h.bound
    rcases hend with hend | hend
    . rw [hquit] at hend
      cases hend
    . change s.next = n
      omega
  . have hwg := h.wg
    rw [hproducer] at hwg
    exact hwg

theorem Inv.spawn (hproducer : s.producer = .spawn)
    : Inv n work emit { s with next := s.next + 1, workers := s.workers ++ [.waiting], wg := s.wg + 1, producer := .select } := by
  have hsent := h.sent
  rw [hproducer, if_pos rfl] at hsent
  have hcases : ∀ {i : Nat} {w : Worker ε α}, (s.workers ++ [.waiting])[i]? = some w → s.workers[i]? = some w ∨ w = .waiting := by
    intro i w hw
    rw [getElem?_append] at hw
    split at hw
    . exact .inl hw
    . rw [getElem?_singleton] at hw
      split at hw
      . cases hw
        exact .inr rfl
      . cases hw
  have hwg := h.wg
  rw [hproducer, if_neg (by decide)] at hwg
  refine { h with
    sent := hsent, spawned := ?_, closed := ?_, open_ := ?_, all := ?_, wg := ?_, worked := ?_, delivered := ?_, waited := ?_ }
  . rw [length_append, h.spawned]
    rfl
  . intro hclosed
    exact absurd hproducer (h.closed hclosed).2
  . simp
  . intro _ hselect
    exact absurd rfl hselect
  . simp [hwg, Worker.active]
    omega
  . intro i w hw
    rcases hcases hw with hw | rfl
    . exact h.worked i w hw
    . trivial
  . intro htakes i w hi hw hpast
    rcases hcases hw with hw | rfl
    . exact h.delivered htakes i w hi hw hpast
    . cases hpast
  . intro hcaller
    have hwaited := h.waited hcaller
    omega

theorem Inv.close (hproducer : s.producer = .exit) : Inv n work emit { s with closed := true, producer := .closed } := by
  have hsent := h.sent
  rw [hproducer, if_neg (by decide)] at hsent
  refine { h with sent := hsent, closed := ?_, open_ := ?_, all := ?_, wg := ?_ }
  . simp
  . simp
  . intro hquit _ _
    exact h.all hquit (by simp [hproducer]) (by simp [hproducer])
  . have hwg := h.wg
    rw [hproducer] at hwg
    exact hwg

theorem Inv.leave (hproducer : s.producer = .closed) : Inv n work emit { s with wg := s.wg - 1, producer := .gone } := by
  have hsent := h.sent
  rw [hproducer, if_neg (by decide)] at hsent
  refine { h with sent := hsent, closed := ?_, open_ := ?_, all := ?_, wg := ?_, waited := ?_ }
  . simp
  . intro hopen
    exact absurd hproducer (h.open_ hopen).1
  . intro hquit _ _
    exact h.all hquit (by simp [hproducer]) (by simp [hproducer])
  . have hwg := h.wg
    rw [hproducer, if_neg (by decide)] at hwg
    change s.wg - 1 = (if Producer.gone = .gone then 0 else 1) + s.workers.countP Worker.active
    rw [if_pos rfl]
    omega
  . intro hcaller
    have hwaited := h.waited hcaller
    dsimp only
    omega

end Producer

theorem eq_or_of_getElem?_set {β : Type} {l : List β} {i j : Nat} {x y : β} (h : (l.set i x)[j]? = some y)
    : j = i ∧ y = x ∨ l[j]? = some y := by
  rw [getElem?_set] at h
  split at h
  . next hij =>
    split at h
    . cases h
      exact .inl ⟨hij.symm, rfl⟩
    . cases h
  . exact .inr h

theorem countP_active_set {workers : List (Worker ε α)} {w : Worker ε α} (hw : workers[i]? = some w) (hactive : w.active = true)
    (w' : Worker ε α)
    : (workers.set i w').countP Worker.active + 1 = workers.countP Worker.active + if w'.active then 1 else 0 := by
  rcases List.getElem?_eq_some_iff.mp hw with ⟨hlt, hget⟩
  have hpos : 0 < workers.countP Worker.active := countP_pos_iff.mpr ⟨w, mem_of_getElem? hw, hactive⟩
  rw [countP_set hlt, hget, if_pos hactive]
  omega

section Workers

variable {s : State ε α} (h : Inv n work emit s)

include h

theorem Inv.worker {i : Nat} {w w' : Worker ε α} (hw : s.workers[i]? = some w) (hmove : WorkerMove (work i) s.quit w w')
    : Inv n work emit { s with workers := s.workers.set i w' } := by
  have hactive : w.active = true ∧ w'.active = true := by
    cases hmove <;> exact ⟨rfl, rfl⟩
  have hok : w'.Ok (work i) := by
    have hok := h.worked i w hw
    cases hmove with
    | acquire => trivial
    | skip => trivial
    | scan => rfl
    | release r => exact hok
  refine { h with spawned := ?_, wg := ?_, worked := ?_, delivered := ?_ }
  . rw [length_set]
    exact h.spawned
  . have hset := countP_active_set hw hactive.1 w'
    have hwg := h.wg
    rw [if_pos hactive.2] at hset
    dsimp only
    omega
  . intro j w'' hw''
    rcases eq_or_of_getElem?_set hw'' with ⟨rfl, rfl⟩ | hw''
    . exact hok
    . exact h.worked j w'' hw''
  . intro htakes j w'' hj hw'' hpast
    rcases eq_or_of_getElem?_set hw'' with ⟨rfl, rfl⟩ | hw''
    . -- a worker skips its scan only after the caller is through
      cases hmove with
      | acquire => cases hpast
      | skip hquit =>
        have htakes : s.caller.takes = true := htakes
        rcases h.quit.mp hquit with hcaller | hcaller
        . rw [hcaller] at htakes
          cases htakes
        . rw [hcaller] at htakes
          cases htakes
      | scan => cases hpast
      | release r => cases hpast
    . exact h.delivered htakes j w'' hj hw'' hpast

theorem Inv.deliver {i : Nat} {r : Except ε α} (hw : s.workers[i]? = some (.sending r))
    : Inv n work emit { s with workers := s.workers.set i .leaving, chans := s.chans.set i (some r) } := by
  have hr : r = work i := h.worked i _ hw
  have hi : i < s.chans.length := by
    have hlt := (List.getElem?_eq_some_iff.mp hw).1
    rw [h.spawned] at hlt
    have hsent := h.sent
    omega
  refine { h with sent := ?_, spawned := ?_, bound := ?_, wg := ?_, worked := ?_, chan := ?_, delivered := ?_, slots := ?_ }
  . rw [length_set]
    exact h.sent
  . rw [length_set]
    exact h.spawned
  . rw [length_set]
    exact h.bound
  . have hset := countP_active_set hw rfl .leaving
    have hwg := h.wg
    simp only [Worker.active, if_true] at hset
    dsimp only
    omega
  . intro j w hw'
    rcases eq_or_of_getElem?_set hw' with ⟨rfl, rfl⟩ | hw'
    . trivial
    . exact h.worked j w hw'
  . intro j r' hr'
    rcases eq_or_of_getElem?_set hr' with ⟨hj, heq⟩ | hr'
    . cases heq
      rw [hj]
      exact hr
    . exact h.chan j r' hr'
  . intro htakes j w hj hw' hpast
    by_cases hij : i = j
    . refine ⟨r, ?_⟩
      rw [← hij]
      exact getElem?_set_self hi
    . rcases eq_or_of_getElem?_set hw' with ⟨rfl, rfl⟩ | hw'
      . exact absurd rfl hij
      . rcases h.delivered htakes j w hj hw' hpast with ⟨r', hr'⟩
        refine ⟨r', ?_⟩
        dsimp only
        rw [getElem?_set_ne hij]
        exact hr'
  . intro htakes
    rw [length_set]
    exact h.slots htakes

theorem Inv.retire {i : Nat} (hw : s.workers[i]? = some .leaving)
    : Inv n work emit { s with workers := s.workers.set i .gone, wg := s.wg - 1 } := by
  refine { h with spawned := ?_, wg := ?_, worked := ?_, delivered := ?_, waited := ?_ }
  . rw [length_set]
    exact h.spawned
  . have hset := countP_active_set hw rfl .gone
    have hwg := h.wg
    rw [if_neg (by simp [Worker.active])] at hset
    dsimp only
    omega
  . intro j w hw'
    rcases eq_or_of_getElem?_set hw' with ⟨rfl, rfl⟩ | hw'
    . trivial
    . exact h.worked j w hw'
  . intro htakes j w hj hw' hpast
    rcases eq_or_of_getElem?_set hw' with ⟨rfl, rfl⟩ | hw'
    . exact h.delivered htakes j .leaving hj hw rfl
    . exact h.delivered htakes j w hj hw' hpast
  . intro hcaller
    have hwaited := h.waited hcaller
    dsimp only
    omega

end Workers

section Caller

variable {s : State ε α} (h : Inv n work emit s)

include h

theorem Inv.quit_eq_false (hcaller : s.caller ≠ .waiting ∧ s.caller ≠ .returned) : s.quit = false := by
  rw [Bool.eq_false_iff]
  intro hquit
  rcases h.quit.mp hquit with hc | hc
  . exact hcaller.1 hc
  . exact hcaller.2 hc

theorem Inv.receive {i : Nat} {slots : List Nat} (hcaller : s.caller = .next) (hslots : s.slots = i :: slots)
    : Inv n work emit { s with slots := slots, caller := .await i } := by
  have htakes : s.caller.takes = true := by
    rw [hcaller]
    rfl
  have hhead : s.head = s.got.length := by
    unfold State.head
    rw [hcaller]
  have hquit := h.quit_eq_false (by simp [hcaller])
  rcases h.slots htakes with ⟨hrange, hlen⟩
  rw [hslots, length_cons] at hlen
  rw [hslots, length_cons, range'_succ, List.cons.injEq] at hrange
  have horder := h.order
  rw [if_pos htakes] at horder
  refine { h with quit := ?_, delivered := ?_, slots := ?_, awaits := ?_, waited := ?_, order := ?_ }
  . simp [hquit]
  . intro _
    exact h.delivered htakes
  . intro _
    change slots = List.range' (i + 1) slots.length ∧ i + 1 + slots.length = s.chans.length
    rw [hrange.1]
    exact ⟨hrange.2, by omega⟩
  . intro j hj
    cases hj
    rw [hrange.1, hhead]
  . intro hno
    cases hno
  . exact horder

theorem Inv.drained (hcaller : s.caller = .next) (hslots : s.slots = []) (hclosed : s.closed = true)
    : Inv n work emit { s with caller := .quitting } := by
  have htakes : s.caller.takes = true := by
    rw [hcaller]
    rfl
  have hhead : s.head = s.got.length := by
    unfold State.head
    rw [hcaller]
  have hquit := h.quit_eq_false (by simp [hcaller])
  rcases h.closed hclosed with ⟨hselect, hspawn⟩
  have hall := h.all hquit hselect hspawn
  have hsent := h.sent
  rw [if_neg hspawn] at hsent
  have hlen := (h.slots htakes).2
  rw [hslots, length_nil] at hlen
  have horder := h.order
  rw [if_pos htakes] at horder
  refine { h with quit := ?_, delivered := ?_, slots := ?_, awaits := ?_, waited := ?_, order := ?_ }
  . simp [hquit]
  . intro hno
    cases hno
  . intro hno
    cases hno
  . intro j hj
    cases hj
  . intro hno
    cases hno
  . have hleft : n - s.got.length = 0 := by omega
    rw [hleft, scanFrom, ← horder.1] at horder
    exact horder.2

theorem Inv.scanFrom_of_await {i : Nat} {r : Except ε α} (hcaller : s.caller = .await i) (hchan : s.chans[i]? = some (some r))
    : i = s.got.length ∧ r = work i ∧ s.err = none ∧ ∃ left, n - s.got.length = left + 1 ∧ n - (s.got.length + 1) = left ∧
        scanFrom work emit (left + 1) s.got.length s.got = scan work emit n := by
  have hi := h.awaits i hcaller
  have hlt := (List.getElem?_eq_some_iff.mp hchan).1
  have hbound := h.bound
  have horder := h.order
  rw [if_pos (by rw [hcaller]; rfl)] at horder
  have hleft : n - s.got.length = n - (s.got.length + 1) + 1 := by omega
  rw [hleft] at horder
  exact ⟨hi, h.chan i r hchan, horder.1, n - (s.got.length + 1), hleft, rfl, horder.2⟩

theorem Inv.failed {i : Nat} {e : ε} (hcaller : s.caller = .await i) (hchan : s.chans[i]? = some (some (.error e)))
    : Inv n work emit { s with chans := s.chans.set i none, err := some e, caller := .quitting } := by
  have hquit := h.quit_eq_false (by simp [hcaller])
  rcases h.scanFrom_of_await hcaller hchan with ⟨hi, hr, -, left, -, -, horder⟩
  refine { h with sent := ?_, bound := ?_, quit := ?_, chan := ?_, delivered := ?_, slots := ?_, awaits := ?_, waited := ?_, order := ?_ }
  . rw [length_set]
    exact h.sent
  . rw [length_set]
    exact h.bound
  . simp [hquit]
  . intro j r hr
    rcases eq_or_of_getElem?_set hr with ⟨-, hr⟩ | hr
    . cases hr
    . exact h.chan j r hr
  . intro hno
    cases hno
  . intro hno
    cases hno
  . intro j hj
    cases hj
  . intro hno
    cases hno
  . rw [scanFrom, ← hi, ← hr] at horder
    exact horder

theorem Inv.took {i : Nat} {v : α} (hcaller : s.caller = .await i) (hchan : s.chans[i]? = some (some (.ok v)))
    : Inv n work emit
        { s with chans := s.chans.set i none, got := s.got ++ [v], caller := if emit (s.got ++ [v]) then .next else .quitting } := by
  have htakes : s.caller.takes = true := by
    rw [hcaller]
    rfl
  have hhead : s.head = s.got.length + 1 := by
    unfold State.head
    rw [hcaller]
    dsimp only
    rw [h.awaits i hcaller]
  have hquit := h.quit_eq_false (by simp [hcaller])
  rcases h.scanFrom_of_await hcaller hchan with ⟨hi, hr, herr, left, -, hleft, horder⟩
  rw [scanFrom, ← hi, ← hr] at horder
  dsimp only at horder
  refine { h with sent := ?_, bound := ?_, quit := ?_, chan := ?_, delivered := ?_, slots := ?_, awaits := ?_, waited := ?_, order := ?_ }
  . rw [length_set]
    exact h.sent
  . rw [length_set]
    exact h.bound
  . cases emit (s.got ++ [v]) <;> simp [hquit]
  . intro j r hr
    rcases eq_or_of_getElem?_set hr with ⟨-, hr⟩ | hr
    . cases hr
    . exact h.chan j r hr
  . intro _ j w hj hw hpast
    rw [length_append, length_singleton] at hj
    rcases h.delivered htakes j w (by omega) hw hpast with ⟨r, hr⟩
    refine ⟨r, ?_⟩
    dsimp only
    rw [getElem?_set_ne (by omega)]
    exact hr
  . intro htakes'
    rw [length_set]
    rcases h.slots htakes with ⟨hrange, hlen⟩
    rw [hhead] at hrange hlen
    unfold State.head
    cases emit (s.got ++ [v]) <;> simpa using ⟨hrange, hlen⟩
  . intro j hj
    cases hemit : emit (s.got ++ [v]) <;> rw [hemit] at hj <;> cases hj
  . intro hno
    cases hemit : emit (s.got ++ [v]) <;> rw [hemit] at hno <;> cases hno
  . cases hemit : emit (s.got ++ [v]) with
    | true =>
      rw [hemit, if_pos rfl, hi] at horder
      simp only [if_true, Caller.takes, length_append, length_singleton]
      rw [hleft]
      exact ⟨herr, horder⟩
    | false =>
      rw [hemit, if_neg (by simp), ← herr] at horder
      simp only [Bool.false_eq_true, if_false, Caller.takes]
      exact horder

theorem Inv.quits (hcaller : s.caller = .quitting) : Inv n work emit { s with quit := true, caller := .waiting } := by
  have horder := h.order
  rw [hcaller] at horder
  refine { h with quit := ?_, all := ?_, delivered := ?_, slots := ?_, awaits := ?_, waited := ?_, order := horder }
  . simp
  . intro hno
    cases hno
  . intro hno
    cases hno
  . intro hno
    cases hno
  . intro j hj
    cases hj
  . intro hno
    cases hno

theorem Inv.done (hcaller : s.caller = .waiting) (hwg : s.wg = 0) : Inv n work emit { s with caller := .returned } := by
  have hquit : s.quit = true := h.quit.mpr (.inl hcaller)
  have horder := h.order
  rw [hcaller] at horder
  refine { h with quit := ?_, delivered := ?_, slots := ?_, awaits := ?_, waited := ?_, order := horder }
  . simp [hquit]
  . intro hno
    cases hno
  . intro hno
    cases hno
  . intro j hj
    cases hj
  . intro _
    exact hwg

end Caller

theorem Inv.move (h : Inv n work emit s) (hmove : Move n work emit s s') : Inv n work emit s' := by
  cases hmove with
  | send hproducer hn => exact h.send hproducer hn
  | stop hproducer hend => exact h.stop hproducer hend
  | spawn hproducer => exact h.spawn hproducer
  | close hproducer => exact h.close hproducer
  | leave hproducer => exact h.leave hproducer
  | worker i w w' hw hmove => exact h.worker hw hmove
  | deliver i r hw => exact h.deliver hw
  | retire i hw => exact h.retire hw
  | receive i slots hcaller hslots => exact h.receive hcaller hslots
  | drained hcaller hslots hclosed => exact h.drained hcaller hslots hclosed
  | failed i e hcaller hchan => exact h.failed hcaller hchan
  | took i v hcaller hchan => exact h.took hcaller hchan
  | quit hcaller => exact h.quits hcaller
  | done hcaller hwg => exact h.done hcaller hwg

theorem Inv.step {e : Event} (h : Inv n work emit s) (hs : ScanRuns.step n work emit s e = some s') : Inv n work emit s' := by
  rcases move_of_step hs with ⟨-, hmove⟩ | ⟨-, k, rfl⟩
  . exact h.move hmove
  . exact { h with }

end EpochDB.Store.ScanRuns
