import EpochDB.Lib.Transition

/-!
The lifetime of an open run (`store/db.go`, `store/run.go`): a version of the run list holds its runs, a
reader holds a version, and the last reference closes. Every atomic operation is a step of its own; what
is done under `d.mu` is done by the one writer that has it, and a snapshot waits for that writer.
-/

namespace EpochDB.Store.Lifetime

open Function

abbrev Handle := Nat
abbrev RunName := String

structure Run where
  name : RunName
  refs : Int
  closes : Nat
  deriving DecidableEq, Repr

structure Version where
  runs : List Handle
  refs : Int
  deriving DecidableEq, Repr

inductive Op where
  | drop (h : Handle)
  | close (h : Handle)
  deriving DecidableEq, Repr

/--
The call that has `d.mu`: `newVersion` over its holds, the old version that is to be released, the drops
of that release, and `DB.Close`, which releases before it installs the empty version.
-/
inductive Writer where
  | holding (todo done : List Handle)
  | releasing (old : Nat)
  | dropping (ops : List Op)
  | closing (ops : List Op)
  deriving DecidableEq, Repr

structure Reopen where
  gone : List RunName
  rest : List RunName
  fresh : List Handle

structure State where
  run : Handle → Run
  opened : Nat
  version : Nat → Version
  made : Nat
  ver : Nat
  held : Bool
  readers : List Nat
  fresh : List Handle
  reopens : List Reopen
  calls : List (List Op)
  mu : Option Writer

namespace State

def current (s : State) : List Handle := (s.version s.ver).runs

def hold (s : State) (h : Handle) : State :=
  { s with run := update s.run h { s.run h with refs := (s.run h).refs + 1 } }

def drop (s : State) (h : Handle) (rest : List Op) : State × List Op :=
  let refs := (s.run h).refs - 1
  let s := { s with run := update s.run h { s.run h with refs := refs } }
  if refs = 0 then (s, .close h :: rest) else (s, rest)

def close (s : State) (h : Handle) : State :=
  { s with run := update s.run h { s.run h with closes := (s.run h).closes + 1 } }

def exec (s : State) : List Op → State × List Op
  | [] => (s, [])
  | .drop h :: rest => s.drop h rest
  | .close h :: rest => (s.close h, rest)

def release (s : State) (v : Nat) : State × List Op :=
  let refs := (s.version v).refs - 1
  let s' := { s with version := update s.version v { s.version v with refs := refs } }
  if refs = 0 then (s', (s.version v).runs.map .drop) else (s', [])

def openRun (s : State) (name : RunName) : State :=
  { s with run := update s.run s.opened ⟨name, 0, 0⟩, opened := s.opened + 1 }

def takeSnapshot (s : State) : State :=
  { s with
    version := update s.version s.ver { s.version s.ver with refs := (s.version s.ver).refs + 1 }
    readers := s.ver :: s.readers }

def install (s : State) (runs : List Handle) : State :=
  { s with
    version := update s.version s.made ⟨runs, 1⟩
    made := s.made + 1
    ver := s.made
    held := true }

end State

def replaceByName (name : Handle → RunName) (runs : List Handle) : List Handle → List Handle × List Handle
  | [] => (runs, [])
  | nr :: fresh =>
    match runs.findIdx? (fun r => name r == name nr) with
    | some i => replaceByName name (runs.set i nr) fresh
    | none =>
      let (swapped, left) := replaceByName name runs fresh
      (swapped, nr :: left)

inductive Event where
  | snapshot
  | release (v : Nat)
  | call (i : Nat)
  | openRun (name : RunName)
  | discard (h : Handle)
  | sealSwap (h : Handle)
  | mergeSwap (h : Handle) (start stop : Nat)
  | reopen (gone : List RunName)
  | reopenNext (i : Nat) (ok : Bool)
  | reopenSwap (i : Nat)
  | close
  | writer

def State.swap (s : State) (runs : List Handle) : State := { s with mu := some (.holding runs []) }

def writerStep (s : State) : Writer → State
  | .holding (h :: todo) done => { s.hold h with mu := some (.holding todo (done ++ [h])) }
  | .holding [] done => { s.install done with mu := some (.releasing s.ver) }
  | .releasing old =>
    let (s, ops) := s.release old
    { s with mu := some (.dropping ops) }
  | .dropping [] => { s with mu := none }
  | .dropping ops =>
    let (s, ops) := s.exec ops
    { s with mu := some (.dropping ops) }
  | .closing [] => { s.install [] with mu := none }
  | .closing ops =>
    let (s, ops) := s.exec ops
    { s with mu := some (.closing ops) }

def reopenNext (s : State) (i : Nat) (t : Reopen) (ok : Bool) : Option State :=
  match t.rest with
  | [] => none
  | name :: rest =>
    if name ∉ t.gone then
      some { s with reopens := s.reopens.set i { t with rest := rest } }
    else if ok then
      some { s.openRun name with reopens := s.reopens.set i { t with rest := rest, fresh := t.fresh ++ [s.opened] } }
    else
      some { s with reopens := s.reopens.eraseIdx i, calls := t.fresh.map .close :: s.calls }

def reopenSwap (s : State) (i : Nat) (t : Reopen) : Option State :=
  if t.rest ≠ [] || s.mu.isSome then
    none
  else
    let (swapped, left) := replaceByName (fun h => (s.run h).name) s.current t.fresh
    let s := { s with reopens := s.reopens.eraseIdx i, calls := left.map .close :: s.calls }
    if left.length < t.fresh.length then some (s.swap swapped) else some s

def step (s : State) : Event → Option State
  | .snapshot => if s.mu.isSome then none else some s.takeSnapshot
  | .release v =>
    if v ∈ s.readers then
      let (s', ops) := s.release v
      some { s' with readers := s.readers.erase v, calls := ops :: s.calls }
    else
      none
  | .call i =>
    match s.calls[i]? with
    | none => none
    | some ops =>
      let (s', ops) := s.exec ops
      some { s' with calls := s.calls.set i ops }
  | .openRun name => some { s.openRun name with fresh := s.opened :: s.fresh }
  | .discard h =>
    if h ∈ s.fresh then some { s.close h with fresh := s.fresh.erase h } else none
  | .sealSwap h =>
    if h ∈ s.fresh && s.mu.isNone then
      some ({ s with fresh := s.fresh.erase h }.swap (s.current ++ [h]))
    else
      none
  | .mergeSwap h start stop =>
    -- a slice past the end of the list panics
    if h ∈ s.fresh && s.mu.isNone && start ≤ stop && stop ≤ s.current.length then
      some ({ s with fresh := s.fresh.erase h }.swap (s.current.take start ++ [h] ++ s.current.drop stop))
    else
      none
  | .reopen gone =>
    if s.mu.isSome then
      none
    else
      some { s.takeSnapshot with reopens := ⟨gone, s.current.map (fun h => (s.run h).name), []⟩ :: s.reopens }
  | .reopenNext i ok =>
    match s.reopens[i]? with
    | none => none
    | some t => reopenNext s i t ok
  | .reopenSwap i =>
    match s.reopens[i]? with
    | none => none
    | some t => reopenSwap s i t
  | .close =>
    if s.mu.isSome then
      none
    else
      let (s, ops) := s.release s.ver
      some { s with held := false, mu := some (.closing ops) }
  | .writer =>
    match s.mu with
    | none => none
    | some w => some (writerStep s w)

def init (names : List RunName) : State where
  run h := ⟨names.getD h "", if h < names.length then 1 else 0, 0⟩
  opened := names.length
  version v := if v = 0 then ⟨List.range names.length, 1⟩ else ⟨[], 0⟩
  made := 1
  ver := 0
  held := true
  readers := []
  fresh := []
  reopens := []
  calls := []
  mu := none

def Named (s : State) : Event → Prop
  | .sealSwap h => (s.run h).name ∉ s.current.map (fun r => (s.run r).name)
  | .mergeSwap h start stop =>
    (s.run h).name ∉ (s.current.take start ++ s.current.drop stop).map (fun r => (s.run r).name)
  | _ => True

def named (s : State) : Event → Bool
  | .sealSwap h => (s.run h).name ∉ s.current.map (fun r => (s.run r).name)
  | .mergeSwap h start stop =>
    (s.run h).name ∉ (s.current.take start ++ s.current.drop stop).map (fun r => (s.run r).name)
  | _ => true

theorem named_iff (s : State) (e : Event) : named s e = true ↔ Named s e := by
  cases e <;> simp [named, Named]

end EpochDB.Store.Lifetime
