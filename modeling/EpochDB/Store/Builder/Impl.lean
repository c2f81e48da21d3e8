import EpochDB.Lib.Transition

/-!
Where runs are cut (`store/db.go`, `store/merge.go`): the triggers of `WriteBlock`, the cut with its
seal, the terminal merge and the open after a kill, in the steps a kill can come between. Rows are left
out: a block is its height and its number of transactions, and a log is the end records of its blocks.
No call of the file system fails here.
-/

namespace EpochDB.Store.Builder

structure Blk where
  height : Nat
  txs : Nat
  deriving DecidableEq, Repr

structure EndRec where
  height : Nat
  nextTx : Nat
  deriving DecidableEq, Repr

structure RunRef where
  fromTx : Nat
  toTx : Nat
  fromHeight : Nat
  toHeight : Nat
  level : Nat
  deriving DecidableEq, Repr

def terminalLevel : Nat := 1

structure Config where
  flushTxs : Nat
  flushBlocks : Nat
  terminalTxs : Nat

def mainnet : Config := ⟨500000, 50000, 8000000⟩

structure Window where
  baseTx : Nat
  nextTx : Nat
  baseHeight : Nat
  nextHeight : Nat
  started : Bool
  log : List EndRec
  deriving DecidableEq, Repr

namespace Window

def fresh (baseTx baseHeight : Nat) : Window := ⟨baseTx, baseTx, baseHeight, baseHeight, false, []⟩

def push (w : Window) (b : Blk) : Window :=
  { w with
    nextTx := w.nextTx + b.txs + 1
    baseHeight := if w.started then w.baseHeight else b.height
    nextHeight := b.height + 1
    started := true
    log := w.log ++ [⟨b.height, w.nextTx + b.txs + 1⟩] }

def add (w : Window) (b : Blk) : Except String (Option Window) :=
  if b.height < w.nextHeight then
    .ok none
  else if !w.started && w.nextHeight ≠ 0 && b.height ≠ w.nextHeight then
    .error s!"store: block {b.height} would start a fresh window over sealed runs ending at {w.nextHeight - 1}, so blocks {w.nextHeight}..{b.height - 1} would be missing from the chain"
  else if w.started && b.height ≠ w.nextHeight then
    .error s!"store: block {b.height} out of order, window expects {w.nextHeight}"
  else
    .ok (some (w.push b))

def replay (w : Window) (r : EndRec) : Window :=
  if r.height < w.baseHeight then
    { w with log := w.log ++ [r] }
  else
    { w with
      nextTx := r.nextTx
      baseHeight := if w.started then w.baseHeight else r.height
      nextHeight := r.height + 1
      started := true
      log := w.log ++ [r] }

def recover (baseTx baseHeight : Nat) (log : List EndRec) : Window :=
  log.foldl replay (fresh baseTx baseHeight)

def due (cfg : Config) (w : Window) : Bool :=
  w.started && !(w.nextTx - w.baseTx < cfg.flushTxs && w.nextHeight - w.baseHeight < cfg.flushBlocks)

def ref (w : Window) : RunRef := ⟨w.baseTx, w.nextTx, w.baseHeight, w.nextHeight - 1, 0⟩

end Window

def flushedTx (refs : List RunRef) : Nat :=
  match refs.getLast? with
  | none => 0
  | some r => r.toTx

def flushedHeight (refs : List RunRef) : Nat :=
  match refs.getLast? with
  | none => 0
  | some r => r.toHeight + 1

def spanStart (refs : List RunRef) : Nat :=
  refs.length - (refs.reverse.takeWhile (fun r => r.level = 0)).length

def crossing (cfg : Config) (runs : List RunRef) : Option Nat :=
  match runs with
  | [] => none
  | first :: _ => runs.findIdx? (fun r => cfg.terminalTxs ≤ r.toTx - first.fromTx)

def mergeSpanLocked (cfg : Config) (refs : List RunRef) : Option (Nat × Nat) :=
  (crossing cfg (refs.drop (spanStart refs))).map (fun i => (spanStart refs, spanStart refs + i + 1))

def terminal (span : List RunRef) : Option RunRef :=
  match span.head?, span.getLast? with
  | some first, some last =>
    some ⟨first.fromTx, last.toTx, first.fromHeight, last.toHeight, terminalLevel⟩
  | _, _ => none

structure Disk where
  refs : List RunRef
  window : List EndRec
  frozen : Option (List EndRec)

/--
Where the writer is: between two calls, in `WriteBlock` before `MaybeFlush`, in `cutWindow` after the
rename, or in `open` with the position the window starts at.
-/
inductive Writer where
  | idle
  | flush
  | renamed
  | opening (baseTx baseHeight : Nat)

inductive Stage where
  | publish
  | remove
  | merge

structure Proc where
  refs : List RunRef
  mem : Window
  frozen : Option Window
  writer : Writer
  cut : Option (Stage × Window)
  merging : Option (Nat × List RunRef)

structure Sys where
  disk : Disk
  proc : Option Proc
  stored : List Blk
  cuts : List RunRef

inductive Event where
  | add (b : Blk)
  | maybeFlush
  | swap
  | sealStep
  | mergeSwap
  | kill
  | reopen
  | opened

namespace Sys

def init : Sys := ⟨⟨[], [], none⟩, none, [], []⟩

def add (s : Sys) (p : Proc) (b : Blk) : Option Sys :=
  match p.writer with
  | .idle =>
    match p.mem.add b with
    | .error _ => some s
    | .ok none => some { s with proc := some { p with writer := .flush } }
    | .ok (some w) =>
      some { s with
        proc := some { p with mem := w, writer := .flush }
        disk := { s.disk with window := w.log }
        stored := s.stored ++ [b] }
  | _ => none

variable (cfg : Config)

def maybeFlush (s : Sys) (p : Proc) : Option Sys :=
  match p.writer with
  | .flush =>
    if !p.mem.due cfg then
      some { s with proc := some { p with writer := .idle } }
    else if p.cut.isSome then
      none
    else if p.mem.nextHeight = p.mem.baseHeight then
      some { s with proc := some { p with writer := .idle } }
    else
      some { s with
        proc := some { p with writer := .renamed }
        disk := { s.disk with frozen := some p.mem.log, window := [] } }
  | _ => none

def swap (s : Sys) (p : Proc) : Option Sys :=
  match p.writer with
  | .renamed =>
    some { s with
      proc := some { p with
        mem := .fresh p.mem.nextTx p.mem.nextHeight
        frozen := some p.mem
        writer := .idle
        cut := some (.publish, p.mem) } }
  | _ => none

def maybeMerge (p : Proc) : Proc :=
  match p.merging, mergeSpanLocked cfg p.refs with
  | none, some (start, stop) => { p with merging := some (start, (p.refs.take stop).drop start) }
  | _, _ => p

def sealNext (s : Sys) (p : Proc) : Option Sys :=
  match p.cut with
  | none => none
  | some (.publish, m) =>
    let refs := p.refs ++ [m.ref]
    some { s with
      proc := some { p with refs := refs, frozen := none, cut := some (.remove, m) }
      disk := { s.disk with refs := refs }
      cuts := s.cuts ++ [m.ref] }
  | some (.remove, m) =>
    some { s with
      proc := some { p with cut := some (.merge, m) }
      disk := { s.disk with frozen := none } }
  | some (.merge, _) => some { s with proc := some (maybeMerge cfg { p with cut := none }) }

def mergeSwap (s : Sys) (p : Proc) : Option Sys :=
  match p.merging with
  | none => none
  | some (start, span) =>
    match terminal span with
    | none => some { s with proc := some { p with merging := none } }
    | some run =>
      if (p.refs.drop start).take span.length = span then
        let refs := p.refs.take start ++ [run] ++ p.refs.drop (start + span.length)
        some { s with
          proc := some { p with refs := refs, merging := none }
          disk := { s.disk with refs := refs } }
      else
        some { s with proc := some { p with merging := none } }

def reopen (s : Sys) : Sys :=
  let baseTx := flushedTx s.disk.refs
  let baseHeight := flushedHeight s.disk.refs
  let p : Proc := ⟨s.disk.refs, .fresh 0 0, none, .opening baseTx baseHeight, none, none⟩
  match s.disk.frozen with
  | none => { s with proc := some p }
  | some log =>
    let fm := Window.recover baseTx baseHeight log
    if fm.started then
      { s with
        proc := some { p with
          frozen := some fm, writer := .opening fm.nextTx fm.nextHeight, cut := some (.publish, fm) } }
    else
      { s with proc := some p, disk := { s.disk with frozen := none } }

def opened (s : Sys) (p : Proc) : Option Sys :=
  match p.writer, p.cut with
  | .opening baseTx baseHeight, none =>
    some { s with
      proc := some { p with mem := .recover baseTx baseHeight s.disk.window, writer := .idle } }
  | _, _ => none

def step (s : Sys) (e : Event) : Option Sys :=
  match s.proc, e with
  | none, .reopen => some s.reopen
  | some p, .add b => s.add p b
  | some p, .maybeFlush => s.maybeFlush cfg p
  | some p, .swap => s.swap p
  | some p, .sealStep => s.sealNext cfg p
  | some p, .mergeSwap => s.mergeSwap p
  | some _, .kill => some { s with proc := none }
  | some p, .opened => s.opened p
  | _, _ => none

end Sys

def close (cfg : Config) (p : List RunRef × Window) : List RunRef × Window :=
  if p.2.due cfg then (p.1 ++ [p.2.ref], .fresh p.2.nextTx p.2.nextHeight) else p

def plan (cfg : Config) (bs : List Blk) : List RunRef × Window :=
  bs.foldl (fun p b => close cfg (p.1, p.2.push b)) ([], .fresh 0 0)

def addRun (cfg : Config) (p : List RunRef × List RunRef) (r : RunRef) : List RunRef × List RunRef :=
  let runs := p.2 ++ [r]
  if (crossing cfg runs).isSome then (p.1 ++ (terminal runs).toList, []) else (p.1, runs)

def terminals (cfg : Config) (cuts : List RunRef) : List RunRef :=
  let p := cuts.foldl (addRun cfg) ([], [])
  p.1 ++ p.2

end EpochDB.Store.Builder
