import EpochDB.Lib.Transition
import EpochDB.Store.Db.Impl
import EpochDB.Store.Mem.Recover

/-!
The store as a system: the writer's calls, the sealing goroutine, the merge, kills and reopens, in any
order, with every failure each of them can have. `WriteBlock` is `add` and then `maybeFlush`; `Flush`
is `flush` and then `waitCut`.
-/

namespace EpochDB.Store

open Memtable (logBlocks)

inductive Event where
  | add (b : BlockWrite) (file : LogFile) (spill : Nat)
  | maybeFlush (io : DB.CutIO)
  | flush (io : DB.CutIO)
  | waitCut
  | sealStep (io : DB.SealIO)
  | merge (start stop : Nat) (name : String) (save : Outcome)
  | kill (writing : Option (BlockWrite × LogFile)) (spill : Nat)
  | reopen (io : DB.OpenIO)

inductive Node where
  | down (disk : Disk)
  | up (db : DB)

def Node.disk : Node → Disk
  | .down disk => disk
  | .up db => db.disk

structure Sys where
  node : Node
  stored : List LogBlock

namespace Sys

def init : Sys := ⟨.down Disk.empty, []⟩

def disk (s : Sys) : Disk := s.node.disk

end Sys

def DB.waiting (d : DB) : Bool :=
  match d.cut with
  | .sealing .. => true
  | _ => false

def DB.sealStep (io : DB.SealIO) (d : DB) : Option DB :=
  match d.cut with
  | .sealing stage m =>
    match (DB.sealNext io m stage).run d with
    | .ok (some next) d => some { d with cut := .sealing next m }
    | .ok none d => some { d with cut := .sent none }
    | .error e d => some { d with cut := .sent (some e) }
  | _ => none

section

variable (crypto : Crypto) (flushTxs flushBlocks : UInt64)

def DB.killed (d : DB) (writing : Option (BlockWrite × LogFile)) (spill : Nat) : Disk :=
  let m :=
    match writing with
    | none => d.mem
    | some (b, file) => ((Memtable.add crypto file b).run d.mem).state
  d.disk.setFile d.mem.path (some (m.log.take (d.mem.flushed + spill)))

def step (s : Sys) (e : Event) : Option Sys :=
  match s.node, e with
  | .up d, .add b file spill =>
    match (Memtable.add crypto file b).run d.mem with
    | .ok _ m =>
      some ⟨.up (d.setMem m spill), s.stored ++ (logBlocks m.log).drop (logBlocks d.mem.log).length⟩
    | .error _ m => some ⟨.up (d.setMem m spill), s.stored⟩
  | .up d, .maybeFlush io =>
    if d.waiting then none else some ⟨.up ((DB.maybeFlush io).run d).state, s.stored⟩
  | .up d, .flush io =>
    if d.waiting then none else some ⟨.up ((DB.cutWindow io).run d).state, s.stored⟩
  | .up d, .waitCut =>
    if d.waiting then none else some ⟨.up (DB.waitCut.run d).state, s.stored⟩
  | .up d, .sealStep io => (d.sealStep io).map (fun d => ⟨.up d, s.stored⟩)
  | .up d, .merge start stop name save =>
    some ⟨.up ((DB.merge start stop name save).run d).state, s.stored⟩
  | .up d, .kill writing spill => some ⟨.down (d.killed crypto writing spill), s.stored⟩
  | .down disk, .reopen io =>
    match (DB.openDB io).run (DB.opening disk flushTxs flushBlocks) with
    | .ok _ d => some ⟨.up d, s.stored⟩
    | .error _ d => some ⟨.down d.disk, s.stored⟩
  | _, _ => none

end

def Run.Holds (run : Run) (g : LogBlock) : Prop :=
  ∃ m ∈ run.parts, g ∈ logBlocks m.log ∧ Made m.toRows g

def Disk.Recoverable (d : Disk) (g : LogBlock) : Prop :=
  (∃ run ∈ d.manifest, run.Holds g) ∨ ∃ name bytes, d.files name = some bytes ∧ g ∈ logBlocks bytes

def goodCut : DB.CutIO := ⟨goodLog, 0, .ok, true, .ok, true, .ok⟩

def goodSeal : DB.SealIO := ⟨some "0", .ok, .ok, true⟩

def goodOpen : DB.OpenIO := ⟨true, true, true, .ok, goodSeal, .ok, .ok⟩

def failedSealThenCut : List Event :=
  [.reopen goodOpen,
    .add (Memtable.emptyBlock 1) goodLog 0, .flush goodCut,
    .sealStep { goodSeal with build := none }, .waitCut,
    .add (Memtable.emptyBlock 2) goodLog 0, .flush goodCut]

def Sys.lost (s : Sys) : Bool :=
  s.disk.manifest.isEmpty &&
    s.stored.any (fun g =>
      [LogName.window, .frozen].all (fun name => g ∉ logBlocks ((s.disk.files name).getD [])))

theorem not_recoverable_of_lost {s : Sys} (h : s.lost) : ∃ g ∈ s.stored, ¬ s.disk.Recoverable g := by
  simp only [Sys.lost, Bool.and_eq_true, List.any_eq_true, List.all_eq_true] at h
  rcases h with ⟨hman, g, hg, hfiles⟩
  refine ⟨g, hg, ?_⟩
  rintro (⟨run, hrun, -⟩ | ⟨name, bytes, hbytes, hmem⟩)
  . rw [List.isEmpty_iff.mp hman] at hrun
    simp at hrun
  . have := hfiles name (by cases name <;> simp)
    rw [hbytes] at this
    simp at this
    exact this hmem

theorem cut_after_failed_seal_loses_block
    : ∃ s,
        Transition.Reachable (step Memtable.emptyBlockCrypto 1 1) (fun _ _ => True) Sys.init s ∧
        ∃ g ∈ s.stored, ¬ s.disk.Recoverable g := by
  have hrun : ((Transition.run (step Memtable.emptyBlockCrypto 1 1) Sys.init failedSealThenCut).map
      Sys.lost) = some true := by decide +kernel
  rw [Option.map_eq_some_iff] at hrun
  rcases hrun with ⟨s, hrun, hlost⟩
  exact ⟨s, Transition.Reachable.init.run (fun _ _ _ => trivial) hrun, not_recoverable_of_lost hlost⟩

end EpochDB.Store
