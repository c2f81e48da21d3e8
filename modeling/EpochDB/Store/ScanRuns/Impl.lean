import EpochDB.Lib.Transition

/-!
The parallel scan of the runs (`scanRuns` of `store/db.go`): a producer that puts a channel for every run
into a pipeline and starts a worker for it, workers that take one of the process wide slots for their scan,
and the caller, who takes the results in the order of the runs. A schedule is a list of events that say
which of them moves.
-/

namespace EpochDB.Store.ScanRuns

def scanFanout : Nat := 32

def scanSlots : Nat := 64

/--
Where the producer stands: at the `select` of its loop, behind a channel that was put into the pipeline,
behind the loop, behind the closing of the pipeline, or it has returned.
-/
inductive Producer where
  | select
  | spawn
  | exit
  | closed
  | gone
  deriving DecidableEq, Repr

/--
Where a worker stands: at its `select`, in the scan, behind it with the slot still taken, before it sends its
result, before it leaves the wait group, or it has returned.
-/
inductive Worker (ε α : Type) where
  | waiting
  | working
  | holding (r : Except ε α)
  | sending (r : Except ε α)
  | leaving
  | gone

namespace Worker

variable {ε α : Type}

def active : Worker ε α → Bool
  | .gone => false
  | _ => true

def holds : Worker ε α → Bool
  | .working => true
  | .holding _ => true
  | _ => false

end Worker

inductive Caller where
  | next
  | await (i : Nat)
  | quitting
  | waiting
  | returned
  deriving DecidableEq, Repr

structure State (ε α : Type) where
  next : Nat
  producer : Producer
  slots : List Nat
  closed : Bool
  quit : Bool
  workers : List (Worker ε α)
  chans : List (Option (Except ε α))
  wg : Nat
  others : Nat
  caller : Caller
  got : List α
  err : Option ε

variable {ε α : Type}

def init : State ε α := ⟨0, .select, [], false, false, [], [], 1, 0, .next, [], none⟩

def State.used (s : State ε α) : Nat := s.others + s.workers.countP Worker.holds

inductive Event where
  | producer (quit : Bool)
  | worker (i : Nat) (quit : Bool)
  | caller
  | others (k : Nat)
  deriving DecidableEq, Repr

def Event.own : Event → Bool
  | .others _ => false
  | _ => true

section Step

variable (n : Nat) (work : Nat → Except ε α) (emit : List α → Bool)

def stepProducer (s : State ε α) (quit : Bool) : Option (State ε α) :=
  match s.producer with
  | .select =>
    if s.next < n then
      if quit then
        if s.quit then some { s with producer := .exit } else none
      else if s.slots.length < scanFanout then
        some { s with slots := s.slots ++ [s.next], chans := s.chans ++ [none], producer := .spawn }
      else
        none
    else
      some { s with producer := .exit }
  | .spawn => some { s with next := s.next + 1, workers := s.workers ++ [.waiting], wg := s.wg + 1, producer := .select }
  | .exit => some { s with closed := true, producer := .closed }
  | .closed => some { s with wg := s.wg - 1, producer := .gone }
  | .gone => none

def stepWorker (s : State ε α) (i : Nat) (quit : Bool) : Option (State ε α) :=
  match s.workers[i]? with
  | none => none
  | some .waiting =>
    if quit then
      if s.quit then some { s with workers := s.workers.set i .leaving } else none
    else if s.used < scanSlots then
      some { s with workers := s.workers.set i .working }
    else
      none
  | some .working => some { s with workers := s.workers.set i (.holding (work i)) }
  | some (.holding r) => some { s with workers := s.workers.set i (.sending r) }
  | some (.sending r) => some { s with workers := s.workers.set i .leaving, chans := s.chans.set i (some r) }
  | some .leaving => some { s with workers := s.workers.set i .gone, wg := s.wg - 1 }
  | some .gone => none

def stepCaller (s : State ε α) : Option (State ε α) :=
  match s.caller with
  | .next =>
    match s.slots with
    | i :: slots => some { s with slots := slots, caller := .await i }
    | [] => if s.closed then some { s with caller := .quitting } else none
  | .await i =>
    match s.chans[i]? with
    | some (some (.error e)) => some { s with chans := s.chans.set i none, err := some e, caller := .quitting }
    | some (some (.ok v)) =>
      some { s with chans := s.chans.set i none, got := s.got ++ [v], caller := if emit (s.got ++ [v]) then .next else .quitting }
    | _ => none
  | .quitting => some { s with quit := true, caller := .waiting }
  | .waiting => if s.wg = 0 then some { s with caller := .returned } else none
  | .returned => none

def step (s : State ε α) (e : Event) : Option (State ε α) :=
  match e with
  | .producer quit => stepProducer n s quit
  | .worker i quit => stepWorker work s i quit
  | .caller => stepCaller emit s
  | .others k => if k + s.workers.countP Worker.holds ≤ scanSlots then some { s with others := k } else none

end Step

section Scan

variable (work : Nat → Except ε α) (emit : List α → Bool)

def scanFrom (left i : Nat) (got : List α) : List α × Option ε :=
  match left with
  | 0 => (got, none)
  | left + 1 =>
    match work i with
    | .error e => (got, some e)
    | .ok v => if emit (got ++ [v]) then scanFrom left (i + 1) (got ++ [v]) else (got ++ [v], none)

def scan (n : Nat) : List α × Option ε := scanFrom work emit n 0 []

end Scan

end EpochDB.Store.ScanRuns
