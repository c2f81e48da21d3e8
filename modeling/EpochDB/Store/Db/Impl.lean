import EpochDB.Lib.EState
import EpochDB.Store.Mem.Blocks

/-!
The run cut (`store/db.go`). A full window log is renamed to the frozen one and sealed into a run on a
goroutine while the executor writes into a fresh window. Every call of the file system may fail, and
the process may be killed between any two of them.
-/

namespace EpochDB.Store

structure Run where
  fromTx : UInt64
  toTx : UInt64
  fromHeight : UInt64
  toHeight : UInt64
  name : String
  parts : List Memtable

namespace Manifest

def checkTiling : List Run → Except String Unit
  | a :: b :: runs =>
    if b.fromTx ≠ a.toTx ∨ b.fromHeight ≠ a.toHeight + 1 then
      .error s!"store: runs do not tile: {a.name} covers tx [{a.fromTx},{a.toTx}) blocks [{a.fromHeight},{a.toHeight}] and {b.name} starts at tx {b.fromTx} block {b.fromHeight}"
    else
      checkTiling (b :: runs)
  | _ => .ok ()

def flushedTx (runs : List Run) : UInt64 :=
  match runs.getLast? with
  | none => 0
  | some run => run.toTx

def flushedHeight (runs : List Run) : UInt64 :=
  match runs.getLast? with
  | none => 0
  | some run => run.toHeight + 1

end Manifest

inductive Outcome where
  | ok
  | failed (done : Bool)
  deriving DecidableEq, Repr

def Outcome.done : Outcome → Bool
  | .ok => true
  | .failed done => done

structure Disk where
  manifest : List Run
  files : LogName → Option Bytes

namespace Disk

def empty : Disk := ⟨[], fun _ => none⟩

def setFile (d : Disk) (name : LogName) (bytes : Option Bytes) : Disk :=
  { d with files := Function.update d.files name bytes }

@[simp]
theorem manifest_setFile (d : Disk) (name : LogName) (bytes : Option Bytes)
    : (d.setFile name bytes).manifest = d.manifest := rfl

@[simp]
theorem files_setFile (d : Disk) (name : LogName) (bytes : Option Bytes) : (d.setFile name bytes).files name = bytes := by
  simp [setFile]

theorem files_setFile_of_ne (d : Disk) {name name' : LogName} (h : name' ≠ name) (bytes : Option Bytes)
    : (d.setFile name bytes).files name' = d.files name' := by
  simp [setFile, h]

def rename (d : Disk) (src dst : LogName) : Disk :=
  if src = dst then d else (d.setFile dst (d.files src)).setFile src none

end Disk

inductive SealStage where
  | build
  | publish (name : String)
  | remove
  | finish
  deriving DecidableEq, Repr

inductive Cut where
  | none
  | sealing (stage : SealStage) (m : Memtable)
  | sent (err : Option String)

structure DB where
  disk : Disk
  man : List Run
  mem : Memtable
  frozen : Option Memtable
  cut : Cut
  flushTxs : UInt64
  flushBlocks : UInt64

abbrev DbM := EStateM String DB

namespace DB

def ioError : String := "input/output error"

def io (out : Outcome) (effect : DB → DB) : DbM Unit := do
  if out.done then
    modify effect
  if out ≠ .ok then
    throw ioError

def check (ok : Bool) : DbM Unit := if ok then return else throw ioError

@[simp]
theorem run_io_ok (effect : DB → DB) (d : DB) : (io .ok effect).run d = .ok () (effect d) := rfl

@[simp]
theorem run_io_failed (done : Bool) (effect : DB → DB) (d : DB)
    : (io (.failed done) effect).run d = .error ioError (if done then effect d else d) := by
  cases done <;> rfl

def setFile (name : LogName) (bytes : Option Bytes) (d : DB) : DB :=
  { d with disk := d.disk.setFile name bytes }

def setMem (m : Memtable) (spill : Nat) (d : DB) : DB :=
  { d with mem := m, disk := d.disk.setFile m.path (some (m.log.take (m.flushed + spill))) }

def onMem (spill : Nat) (f : MemM α) : DbM α := fun d =>
  match f.run d.mem with
  | .ok a m => .ok a (d.setMem m spill)
  | .error e m => .error e (d.setMem m spill)

structure SealIO where
  build : Option String
  save : Outcome
  remove : Outcome
  finish : Bool

def sealedRun (m : Memtable) (name : String) : Run where
  fromTx := m.baseTx
  toTx := m.nextTx
  fromHeight := m.baseHeight
  toHeight := m.nextHeight - 1
  name := name
  parts := [m]

def sealBuild (io : SealIO) : DbM String :=
  match io.build with
  | none => throw ioError
  | some name => return name

def sealPublish (save : Outcome) (m : Memtable) (name : String) : DbM Unit := do
  let runs := (← get).man ++ [sealedRun m name]
  io save (fun d => { d with disk := { d.disk with manifest := runs } })
  modify (fun d => { d with man := runs, frozen := none })

def sealRemove (remove : Outcome) (m : Memtable) : DbM Unit :=
  io remove (setFile m.path none)

def sealFinish (io : SealIO) : DbM Unit := check io.finish

def sealWindow (io : SealIO) (m : Memtable) : DbM Unit := do
  let name ← sealBuild io
  sealPublish io.save m name
  sealRemove io.remove m
  sealFinish io

def sealNext (io : SealIO) (m : Memtable) : SealStage → DbM (Option SealStage)
  | .build => do
    let name ← sealBuild io
    return some (.publish name)
  | .publish name => do
    sealPublish io.save m name
    return some .remove
  | .remove => do
    sealRemove io.remove m
    return some .finish
  | .finish => do
    sealFinish io
    return none

def waitCut : DbM Unit := do
  match (← get).cut with
  | .sent err =>
    modify (fun d => { d with cut := .none })
    match err with
    | some e => throw e
    | none => return
  | _ => return

structure CutIO where
  file : LogFile
  spill : Nat
  sync : Outcome
  rename : Bool
  syncDir : Outcome
  newMemtable : Bool
  reset : Outcome

def cutWindow (io : CutIO) : DbM Unit := do
  waitCut
  let m := (← get).mem
  if !m.started || m.nextHeight = m.baseHeight then
    return
  onMem io.spill (Memtable.flushLocked io.file)
  DB.io io.sync id
  check io.rename
  modify (fun d =>
    { d with disk := d.disk.rename d.mem.path .frozen, mem := { d.mem with path := .frozen } })
  DB.io io.syncDir id
  check io.newMemtable
  modify (fun d => d.setFile .window (some ((d.disk.files .window).getD [])))
  DB.io io.reset (setFile .window (some []))
  modify (fun d =>
    { d with
      frozen := some d.mem
      mem := Memtable.fresh .window m.nextTx m.nextHeight
      cut := .sealing .build d.mem })

def due (d : DB) : Bool :=
  let m := d.mem
  m.started && !(m.nextTx - m.baseTx < d.flushTxs && m.nextHeight - m.baseHeight < d.flushBlocks)

def maybeFlush (io : CutIO) : DbM Unit := do
  if (← get).due then
    cutWindow io

def merge (start stop : Nat) (name : String) (save : Outcome) : DbM Unit := do
  let old := (← get).man
  let refs := (old.take stop).drop start
  match Manifest.checkTiling refs, refs.head?, refs.getLast? with
  | .ok _, some first, some last =>
    let run : Run :=
      { fromTx := first.fromTx, toTx := last.toTx, fromHeight := first.fromHeight
        toHeight := last.toHeight, name := name, parts := refs.flatMap (·.parts) }
    let swapped := old.take start ++ [run] ++ old.drop stop
    io save (fun d => { d with disk := { d.disk with manifest := swapped } })
    modify (fun d => { d with man := swapped })
  | _, _, _ => throw "store: merge inputs are not contiguous"

structure OpenIO where
  newMemtable : Bool
  openRuns : Bool
  newFrozen : Bool
  recoverFrozen : Outcome
  sealIO : SealIO
  removeFrozen : Outcome
  recoverWindow : Outcome

def recoverLog (name : LogName) (out : Outcome) (baseTx baseHeight : UInt64) : DbM Memtable := do
  let log := ((← get).disk.files name).getD []
  match (Memtable.recover baseTx baseHeight).run (Memtable.empty name false log) with
  | .error e _ => throw e
  | .ok _ m =>
    io out (setFile name (some m.log))
    return m

def openFrozen (io : OpenIO) : DbM (UInt64 × UInt64) := do
  let d ← get
  let baseTx := Manifest.flushedTx d.man
  let baseHeight := Manifest.flushedHeight d.man
  if (d.disk.files .frozen).isNone then
    return (baseTx, baseHeight)
  check io.newFrozen
  let fm ← recoverLog .frozen io.recoverFrozen baseTx baseHeight
  if fm.started then
    modify (fun d => { d with frozen := some fm })
    sealWindow io.sealIO fm
    return (fm.nextTx, fm.nextHeight)
  else
    sealRemove io.removeFrozen fm
    return (baseTx, baseHeight)

def openDB (io : OpenIO) : DbM Unit := do
  match Manifest.checkTiling (← get).man with
  | .error e => throw e
  | .ok _ =>
    check io.newMemtable
    modify (fun d => d.setFile .window (some ((d.disk.files .window).getD [])))
    check io.openRuns
    let (baseTx, baseHeight) ← openFrozen io
    let mem ← recoverLog .window io.recoverWindow baseTx baseHeight
    modify (fun d => { d with mem := mem })

def opening (disk : Disk) (flushTxs flushBlocks : UInt64) : DB where
  disk := disk
  man := disk.manifest
  mem := Memtable.empty .window false []
  frozen := none
  cut := .none
  flushTxs := flushTxs
  flushBlocks := flushBlocks

end DB

end EpochDB.Store
