import EpochDB.Store.Db.System

/-!
No stored block is lost as long as no cut is made over a frozen window whose seal has failed.
-/

namespace EpochDB.Store

open EStateM
open Memtable (logBlocks Live Keeps Extends)

/--
The steps that keep every stored block: rows no larger than the replay reads, no block at the last height, and no cut while a
frozen window is left behind by a seal whose error was already collected.
-/
def Careful (s : Sys) : Event → Prop
  | .add b _ _ => b.Replayable
  | .kill (some (b, _)) _ => b.Replayable
  | .maybeFlush _ => ∀ d, s.node = .up d → d.due = true → d.cut = .none → d.frozen = none
  | .flush _ => ∀ d, s.node = .up d → d.cut = .none → d.frozen = none
  | _ => True

def Held (runs : List Run) (g : LogBlock) : Prop := ∃ run ∈ runs, run.Holds g

variable {runs : List Run} {g : LogBlock} {m : Memtable} {disk : Disk} {stored : List LogBlock} {d : DB}

theorem Held.append (h : Held runs g) (runs' : List Run) : Held (runs ++ runs') g := by
  rcases h with ⟨run, hmem, hrun⟩
  exact ⟨run, by simp [hmem], hrun⟩

structure Covers (saved man : List Run) : Prop where
  held : ∀ g, Held man g → Held saved g
  stop : Manifest.flushedHeight saved = Manifest.flushedHeight man

theorem Covers.refl (runs : List Run) : Covers runs runs := ⟨fun _ h => h, rfl⟩

def InFile (files : LogName → Option Bytes) (m : Memtable) : Prop :=
  ∃ n, m.flushed ≤ n ∧ files m.path = some (m.log.take n)

structure Frozen (files : LogName → Option Bytes) (man : List Run) (mem m : Memtable) : Prop where
  live : Live m
  path : m.path = .frozen
  file : InFile files m
  window : mem.path = .window
  base : Manifest.flushedHeight man ≤ m.baseHeight
  next : m.nextHeight ≤ mem.baseHeight

structure LogBelow (height : UInt64) (bytes : Bytes) : Prop where
  ascending : Ascending (logBlocks bytes)
  below : ∀ g ∈ logBlocks bytes, g.height < height

def SealStage.published : SealStage → Bool
  | .build | .publish _ => false
  | .remove | .finish => true

structure Up (stored : List LogBlock) (d : DB) : Prop where
  mem : Live d.mem
  file : InFile d.disk.files d.mem
  floor : ∀ g ∈ logBlocks d.mem.log, d.mem.baseHeight ≤ g.height
  base : Manifest.flushedHeight d.man ≤ d.mem.baseHeight
  frozen : ∀ m, d.frozen = some m → Frozen d.disk.files d.man d.mem m
  leftover : d.frozen = none → d.mem.path = .window → ∀ bytes, d.disk.files .frozen = some bytes →
    LogBelow (Manifest.flushedHeight d.man) bytes
  stray : d.mem.path = .frozen → ∀ bytes, d.disk.files .window = some bytes → logBlocks bytes = []
  sealing : ∀ stage m, d.cut = .sealing stage m →
    m.path = .frozen ∧ d.mem.path = .window ∧ d.frozen = if stage.published then none else some m
  sent : d.cut = .sent none → d.frozen = none
  saved : Covers d.disk.manifest d.man ∨
    ∃ m, d.frozen = some m ∧ (∀ g, Held d.man g ∨ Keeps m g → Held d.disk.manifest g) ∧
      Manifest.flushedHeight d.disk.manifest = m.nextHeight
  stored : ∀ g ∈ stored, Held d.man g ∨ (∃ m, d.frozen = some m ∧ Keeps m g) ∨ Keeps d.mem g

def Disk.blocks (disk : Disk) (name : LogName) : List LogBlock :=
  logBlocks ((disk.files name).getD [])

structure Down (stored : List LogBlock) (disk : Disk) : Prop where
  ascending : ∀ name, Ascending (disk.blocks name)
  base : ∀ g ∈ disk.blocks .window, Manifest.flushedHeight disk.manifest ≤ g.height
  above : ∀ g ∈ disk.blocks .frozen, ∀ g' ∈ disk.blocks .window, g.height < g'.height
  stored : ∀ g ∈ stored,
    Held disk.manifest g ∨
    (g ∈ disk.blocks .frozen ∧ Manifest.flushedHeight disk.manifest ≤ g.height) ∨
    g ∈ disk.blocks .window

def Inv (s : Sys) : Prop :=
  match s.node with
  | .down disk => Down s.stored disk
  | .up d => Up s.stored d

theorem mem_logBlocks_file (h : Live m) {n : Nat} (hn : m.flushed ≤ n) (hg : Keeps m g) : g ∈ logBlocks (m.log.take n) :=
  h.whole.mem_logBlocks_take hg.mem (Nat.le_trans hg.stop hn)

theorem exists_file_of_mem_blocks {name : LogName} (h : g ∈ disk.blocks name)
    : ∃ name bytes, disk.files name = some bytes ∧ g ∈ logBlocks bytes := by
  cases hfile : disk.files name with
  | none => simp [Disk.blocks, hfile, logBlocks, Memtable.blocks] at h
  | some bytes => exact ⟨name, bytes, hfile, by simpa [Disk.blocks, hfile] using h⟩

theorem Inv.recoverable {s : Sys} (h : Inv s) (hg : g ∈ s.stored) : s.disk.Recoverable g := by
  rcases s with ⟨node, stored⟩
  cases node with
  | down disk =>
    rcases Down.stored h g hg with hheld | ⟨hmem, -⟩ | hmem
    . exact .inl hheld
    . exact .inr (exists_file_of_mem_blocks hmem)
    . exact .inr (exists_file_of_mem_blocks hmem)
  | up d =>
    have h : Up stored d := h
    rcases h.stored g hg with hheld | ⟨m, hm, hkeeps⟩ | hkeeps
    . left
      rcases h.saved with hcov | ⟨m, -, hsaved, -⟩
      . exact hcov.held g hheld
      . exact hsaved g (.inl hheld)
    . rcases (h.frozen m hm).file with ⟨n, hn, hfile⟩
      exact .inr ⟨_, _, hfile, mem_logBlocks_file (h.frozen m hm).live hn hkeeps⟩
    . rcases h.file with ⟨n, hn, hfile⟩
      exact .inr ⟨_, _, hfile, mem_logBlocks_file h.mem hn hkeeps⟩

theorem InFile.setFile (h : InFile disk.files m) {name : LogName}
    (hne : m.path ≠ name) (bytes : Option Bytes) : InFile (disk.setFile name bytes).files m := by
  rcases h with ⟨n, hn, hfile⟩
  exact ⟨n, hn, by rw [Disk.files_setFile_of_ne _ hne, hfile]⟩

theorem Up.setMem (h : Up stored d)
    (hext : Extends d.mem m) (spill : Nat) : Up stored (d.setMem m spill) where
  mem := hext.live
  file := ⟨m.flushed + spill, Nat.le_add_right _ _, Disk.files_setFile _ _ _⟩
  floor := hext.floor h.floor
  base := UInt64.le_trans h.base hext.base
  frozen mf hmf := by
    have hf := h.frozen mf hmf
    refine ⟨hf.live, hf.path, ?_, hext.path.trans hf.window, hf.base, UInt64.le_trans hf.next hext.base⟩
    apply hf.file.setFile
    rw [hf.path, hext.path, hf.window]
    simp
  leftover hnone hpath bytes hbytes := by
    have hpath : m.path = .window := hpath
    simp only [DB.setMem] at hbytes
    rw [Disk.files_setFile_of_ne _ (by simp [hpath])] at hbytes
    exact h.leftover hnone (hext.path.symm.trans hpath) bytes hbytes
  stray hpath bytes hbytes := by
    have hpath : m.path = .frozen := hpath
    simp only [DB.setMem] at hbytes
    rw [Disk.files_setFile_of_ne _ (by simp [hpath])] at hbytes
    exact h.stray (hext.path.symm.trans hpath) bytes hbytes
  sealing stage mf hcut := by
    rcases h.sealing stage mf hcut with ⟨hpath, hwindow, hfrozen⟩
    exact ⟨hpath, hext.path.trans hwindow, hfrozen⟩
  sent := h.sent
  saved := h.saved
  stored g hg := by
    rcases h.stored g hg with hheld | hfrozen | hkeeps
    . exact .inl hheld
    . exact .inr (.inl hfrozen)
    . exact .inr (.inr (hext.keeps g hkeeps))

theorem Up.append {stored new : List LogBlock} (h : Up stored d) (hnew : ∀ g ∈ new, Keeps d.mem g) : Up (stored ++ new) d :=
  { h with
    stored := by
      intro g hg
      rw [List.mem_append] at hg
      cases hg with
      | inl hg => exact h.stored g hg
      | inr hg => exact .inr (.inr (hnew g hg)) }

theorem flushedHeight_sealedRun (runs : List Run) (m : Memtable) (name : String)
    : Manifest.flushedHeight (runs ++ [DB.sealedRun m name]) = m.nextHeight := by
  simp [Manifest.flushedHeight, DB.sealedRun]

theorem held_sealedRun (h : Live m) (hg : Keeps m g) (runs : List Run)
    (name : String) : Held (runs ++ [DB.sealedRun m name]) g := by
  refine ⟨DB.sealedRun m name, by simp, m, by simp [DB.sealedRun], hg.mem, ?_⟩
  exact h.made g hg.mem hg.base

theorem Up.setManifest (h : Up stored d) (hsaved : Covers runs d.man ∨
      ∃ m, d.frozen = some m ∧ (∀ g, Held d.man g ∨ Keeps m g → Held runs g) ∧
        Manifest.flushedHeight runs = m.nextHeight)
    : Up stored { d with disk := { d.disk with manifest := runs } } :=
  { h with saved := hsaved }

theorem Up.setCut (h : Up stored d) {cut : Cut} (hsealing : ∀ stage m, cut = .sealing stage m →
      m.path = .frozen ∧ d.mem.path = .window ∧ d.frozen = if stage.published then none else some m)
    (hsent : cut = .sent none → d.frozen = none) : Up stored { d with cut := cut } :=
  { h with sealing := hsealing, sent := hsent }

theorem Up.published (h : Up stored d) {name : String} (hfrozen : d.frozen = some m)
    (hdisk : disk = { d.disk with manifest := d.man ++ [DB.sealedRun m name] })
    : Up stored { d with
        disk := disk, man := d.man ++ [DB.sealedRun m name], frozen := none
        cut := .sealing .remove m } := by
  subst hdisk
  have hf := h.frozen m hfrozen
  refine ⟨h.mem, h.file, h.floor, ?_, by simp, ?_, h.stray, ?_, by simp, .inl (.refl _), ?_⟩
  . simp only [flushedHeight_sealedRun]
    exact hf.next
  . intro _ _ bytes hbytes
    simp only [flushedHeight_sealedRun]
    rcases hf.file with ⟨n, -, hfile⟩
    rw [hf.path] at hfile
    have hpre := hf.live.whole.logBlocks_take_isPrefix n
    have heq : some (m.log.take n) = some bytes := hfile.symm.trans hbytes
    cases heq
    exact ⟨hf.live.ascending.of_isPrefix hpre, fun g hg => hf.live.below g (hpre.subset hg)⟩
  . intro stage m' hcut
    cases hcut
    exact ⟨hf.path, hf.window, rfl⟩
  . intro g hg
    rcases h.stored g hg with hheld | ⟨m', hm', hkeeps⟩ | hkeeps
    . exact .inl (hheld.append _)
    . rw [hfrozen] at hm'
      cases hm'
      exact .inl (held_sealedRun hf.live hkeeps _ _)
    . exact .inr (.inr hkeeps)

theorem Up.removeFrozen (h : Up stored d) (hfrozen : d.frozen = none)
    (hwindow : d.mem.path = .window) : Up stored (d.setFile .frozen none) := by
  refine ⟨h.mem, h.file.setFile (by simp [hwindow]) none, h.floor, h.base, ?_, ?_, ?_, h.sealing, h.sent,
    h.saved, h.stored⟩
  . intro m hm
    have hm : d.frozen = some m := hm
    rw [hfrozen] at hm
    contradiction
  . intro _ _ bytes hbytes
    simp [DB.setFile] at hbytes
  . intro hpath
    have hpath : d.mem.path = .frozen := hpath
    rw [hwindow] at hpath
    contradiction

theorem Up.sealStep {d d' : DB} (h : Up stored d) {io : DB.SealIO} (hstep : d.sealStep io = some d') : Up stored d' := by
  unfold DB.sealStep at hstep
  split at hstep
  . next stage m hcut =>
    rcases h.sealing stage m hcut with ⟨hpath, hwindow, hfrozen⟩
    have hsent : ∀ e, Up stored { d with cut := .sent (some e) } :=
      fun e => h.setCut (by simp) (by simp)
    cases stage with
    | build =>
      have hfrozen : d.frozen = some m := hfrozen
      cases hbuild : io.build with
      | none =>
        simp only [DB.sealNext, DB.sealBuild, hbuild] at hstep
        cases hstep
        exact hsent _
      | some name =>
        simp only [DB.sealNext, DB.sealBuild, hbuild] at hstep
        cases hstep
        apply h.setCut
        . intro stage m' heq
          cases heq
          exact ⟨hpath, hwindow, hfrozen⟩
        . simp
    | publish name =>
      have hfrozen : d.frozen = some m := hfrozen
      have hf := h.frozen m hfrozen
      have hextra : Up stored
          { d with disk := { d.disk with manifest := d.man ++ [DB.sealedRun m name] } } := by
        apply h.setManifest
        refine .inr ⟨m, hfrozen, ?_, flushedHeight_sealedRun _ _ _⟩
        rintro g (hg | hg)
        . exact hg.append _
        . exact held_sealedRun hf.live hg _ _
      cases hsave : io.save with
      | ok =>
        simp only [DB.sealNext, DB.sealPublish, hsave] at hstep
        cases hstep
        exact h.published hfrozen rfl
      | failed done =>
        cases done with
        | true =>
          simp only [DB.sealNext, DB.sealPublish, hsave] at hstep
          cases hstep
          exact hextra.setCut (by simp) (by simp)
        | false =>
          simp only [DB.sealNext, DB.sealPublish, hsave] at hstep
          cases hstep
          exact hsent _
    | remove =>
      have hfrozen : d.frozen = none := hfrozen
      have hremoved := h.removeFrozen hfrozen hwindow
      rw [← hpath] at hremoved
      cases hremove : io.remove with
      | ok =>
        simp only [DB.sealNext, DB.sealRemove, hremove] at hstep
        cases hstep
        apply hremoved.setCut
        . intro stage m' heq
          cases heq
          exact ⟨hpath, hwindow, hfrozen⟩
        . simp
      | failed done =>
        cases done with
        | true =>
          simp only [DB.sealNext, DB.sealRemove, hremove] at hstep
          cases hstep
          exact hremoved.setCut (by simp) (by simp)
        | false =>
          simp only [DB.sealNext, DB.sealRemove, hremove] at hstep
          cases hstep
          exact hsent _
    | finish =>
      have hfrozen : d.frozen = none := hfrozen
      cases hfinish : io.finish with
      | true =>
        simp only [DB.sealNext, DB.sealFinish, hfinish] at hstep
        cases hstep
        exact h.setCut (by simp) (fun _ => hfrozen)
      | false =>
        simp only [DB.sealNext, DB.sealFinish, hfinish] at hstep
        cases hstep
        exact hsent _
  . contradiction

structure Cuttable (stored : List LogBlock) (d : DB) : Prop where
  up : Up stored d
  frozen : d.frozen = none
  cut : d.cut = .none

theorem Cuttable.setMem (h : Cuttable stored d) (hext : Extends d.mem m) (spill : Nat) : Cuttable stored (d.setMem m spill) :=
  ⟨h.up.setMem hext spill, h.frozen, h.cut⟩

theorem Cuttable.rename (h : Cuttable stored d)
    : Cuttable stored
        { d with disk := d.disk.rename d.mem.path .frozen, mem := { d.mem with path := .frozen } } := by
  rcases h with ⟨h, hfrozen, hcut⟩
  refine ⟨⟨h.mem.setPath _, ?_, h.floor, h.base, ?_, ?_, ?_, ?_, ?_, ?_, ?_⟩, hfrozen, hcut⟩
  . rcases h.file with ⟨n, hn, hfile⟩
    refine ⟨n, hn, ?_⟩
    cases hpath : d.mem.path with
    | frozen =>
      rw [hpath] at hfile
      simpa [Disk.rename] using hfile
    | window =>
      rw [hpath] at hfile
      simp only [Disk.rename, reduceCtorEq, if_false]
      rw [Disk.files_setFile_of_ne _ (by simp), Disk.files_setFile]
      exact hfile
  . intro m hm
    simp only [hfrozen] at hm
    contradiction
  . intro _ hpath
    contradiction
  . intro _ bytes hbytes
    cases hpath : d.mem.path with
    | frozen =>
      apply h.stray hpath
      simpa [hpath, Disk.rename] using hbytes
    | window => simp [hpath, Disk.rename] at hbytes
  . intro stage m heq
    simp only [hcut] at heq
    contradiction
  . intro heq
    simp only [hcut] at heq
    contradiction
  . have hman : (d.disk.rename d.mem.path .frozen).manifest = d.disk.manifest := by
      unfold Disk.rename
      split <;> rfl
    simp only [hman]
    exact h.saved
  . intro g hg
    rcases h.stored g hg with hheld | hf | hkeeps
    . exact .inl hheld
    . exact .inr (.inl hf)
    . exact .inr (.inr ⟨hkeeps.mem, hkeeps.stop, hkeeps.base⟩)

theorem Cuttable.setWindow (h : Cuttable stored d)
    (hpath : d.mem.path = .frozen) {bytes : Bytes} (hbytes : logBlocks bytes = [])
    : Cuttable stored (d.setFile .window (some bytes)) := by
  rcases h with ⟨h, hfrozen, hcut⟩
  refine ⟨⟨h.mem, h.file.setFile (by simp [hpath]) _, h.floor, h.base, ?_, ?_, ?_, h.sealing, h.sent, h.saved,
    h.stored⟩, hfrozen, hcut⟩
  . intro m hm
    have hm : d.frozen = some m := hm
    rw [hfrozen] at hm
    contradiction
  . intro _ hwindow
    have hwindow : d.mem.path = .window := hwindow
    rw [hpath] at hwindow
    contradiction
  . intro _ bytes' hbytes'
    simp only [DB.setFile, Disk.files_setFile] at hbytes'
    cases hbytes'
    exact hbytes

theorem Cuttable.swap (h : Cuttable stored d)
    (hpath : d.mem.path = .frozen) (hwindow : d.disk.files .window = some []) (baseTx : UInt64)
    : Up stored
        { d with
          frozen := some d.mem, mem := Memtable.fresh .window baseTx d.mem.nextHeight
          cut := .sealing .build d.mem } := by
  rcases h with ⟨h, hfrozen, hcut⟩
  refine ⟨Memtable.live_fresh _ _ _, ⟨0, Nat.le_refl _, hwindow⟩, by simp [Memtable.fresh, Memtable.reset,
    logBlocks, Memtable.blocks], UInt64.le_trans h.base h.mem.base, ?_, by simp, ?_, ?_, by simp, ?_, ?_⟩
  . intro m hm
    cases hm
    exact ⟨h.mem, hpath, h.file, rfl, h.base, UInt64.le_refl _⟩
  . intro hp
    contradiction
  . intro stage m heq
    cases heq
    exact ⟨hpath, rfl, rfl⟩
  . rcases h.saved with hcov | ⟨m, hm, -⟩
    . exact .inl hcov
    . rw [hfrozen] at hm
      contradiction
  . intro g hg
    rcases h.stored g hg with hheld | ⟨m, hm, -⟩ | hkeeps
    . exact .inl hheld
    . rw [hfrozen] at hm
      contradiction
    . exact .inr (.inl ⟨d.mem, rfl, hkeeps⟩)

theorem Up.waitCut
    : EStateM.Triple
        (fun d => Up stored d ∧ d.waiting = false ∧ (d.cut = .none → d.frozen = none))
        DB.waitCut (fun _ => Cuttable stored) (Up stored) := by
  rintro d ⟨h, hwait, hnone⟩
  have hclear : Up stored { d with cut := .none } := h.setCut (by simp) (by simp)
  cases hcut : d.cut with
  | none =>
    have hrun : DB.waitCut.run d = .ok () d := by
      unfold DB.waitCut
      rw [run_bind_of_ok (run_get d), hcut]
      rfl
    rw [hrun]
    constructor
    . rintro _ _ ⟨⟩
      exact ⟨h, hnone hcut, hcut⟩
    . rintro _ _ ⟨⟩
  | sealing stage m => simp [DB.waiting, hcut] at hwait
  | sent err =>
    cases err with
    | none =>
      have hrun : DB.waitCut.run d = .ok () { d with cut := .none } := by
        unfold DB.waitCut
        rw [run_bind_of_ok (run_get d), hcut]
        rfl
      rw [hrun]
      constructor
      . rintro _ _ ⟨⟩
        exact ⟨hclear, h.sent hcut, rfl⟩
      . rintro _ _ ⟨⟩
    | some e =>
      have hrun : DB.waitCut.run d = .error e { d with cut := .none } := by
        unfold DB.waitCut
        rw [run_bind_of_ok (run_get d), hcut]
        rfl
      rw [hrun]
      constructor
      . rintro _ _ ⟨⟩
      . rintro _ _ ⟨⟩
        exact hclear

theorem Up.collect (h : Up stored d) : Up stored (DB.waitCut.run d).state := by
  have hclear : Up stored { d with cut := .none } := h.setCut (by simp) (by simp)
  unfold DB.waitCut
  rw [run_bind_of_ok (run_get d)]
  split
  . next err _ =>
    cases err with
    | none => exact hclear
    | some e => exact hclear
  . exact h

theorem triple_io {P : DB → Prop} {E : DB → Prop} {effect : DB → DB} {Q : DB → Prop}
    (hok : ∀ d, P d → Q (effect d)) (hE : ∀ d, P d → E d ∧ E (effect d)) (out : Outcome)
    : EStateM.Triple P (DB.io out effect) (fun _ => Q) E := by
  intro d hd
  cases out with
  | ok =>
    rw [DB.run_io_ok]
    constructor
    . rintro _ _ ⟨⟩
      exact hok d hd
    . rintro _ _ ⟨⟩
  | failed done =>
    rw [DB.run_io_failed]
    constructor
    . rintro _ _ ⟨⟩
    . rintro _ _ ⟨⟩
      cases done with
      | true => exact (hE d hd).2
      | false => exact (hE d hd).1

theorem triple_check {P : DB → Prop} {E : DB → Prop} (hE : ∀ d, P d → E d) (ok : Bool)
    : EStateM.Triple P (DB.check ok) (fun _ => P) E := by
  cases ok with
  | true => exact EStateM.Triple.pure (fun d hd => hd)
  | false => exact EStateM.Triple.throw hE

theorem Up.cutWindow (io : DB.CutIO)
    : EStateM.Triple
        (fun d => Up stored d ∧ d.waiting = false ∧ (d.cut = .none → d.frozen = none))
        (DB.cutWindow io) (fun _ => Up stored) (Up stored) := by
  unfold DB.cutWindow
  apply EStateM.Triple.bind Up.waitCut
  intro _
  apply EStateM.Triple.get
  intro d0
  dsimp only
  split
  . apply EStateM.Triple.pure
    rintro d ⟨rfl, h⟩
    exact h.up
  . next hwin =>
    have hstart : d0.mem.started = true := by
      by_contra hs
      simp [hs] at hwin
    -- the flush keeps the height the fresh window starts at
    apply EStateM.Triple.bind (Q := fun _ d => Cuttable stored d ∧ d.mem.nextHeight = d0.mem.nextHeight)
    . rintro d ⟨rfl, h⟩
      have hflush := h.up.mem.flushLocked io.file hstart
      unfold DB.onMem
      simp only [EStateM.run] at hflush ⊢
      constructor
      . intro _ d' hrun
        split at hrun
        . next hm =>
          cases hrun
          rw [hm] at hflush
          exact ⟨h.setMem hflush.1 _, hflush.2⟩
        . contradiction
      . intro e d' hrun
        split at hrun
        . contradiction
        . next hm =>
          cases hrun
          rw [hm] at hflush
          exact h.up.setMem hflush.1 _
    intro _
    apply EStateM.Triple.bind
      (triple_io (Q := fun d => Cuttable stored d ∧ d.mem.nextHeight = d0.mem.nextHeight)
        (fun d hd => hd) (fun d hd => ⟨hd.1.up, hd.1.up⟩) _)
    intro _
    apply EStateM.Triple.bind (triple_check (fun d hd => hd.1.up) _)
    intro _
    apply EStateM.Triple.bind (Q := fun _ d =>
      Cuttable stored d ∧ d.mem.nextHeight = d0.mem.nextHeight ∧ d.mem.path = .frozen)
    . apply EStateM.Triple.modify
      rintro d ⟨h, hnext⟩
      exact ⟨h.rename, hnext, rfl⟩
    intro _
    apply EStateM.Triple.bind (triple_io (Q := fun d =>
      Cuttable stored d ∧ d.mem.nextHeight = d0.mem.nextHeight ∧ d.mem.path = .frozen)
        (fun d hd => hd) (fun d hd => ⟨hd.1.up, hd.1.up⟩) _)
    intro _
    apply EStateM.Triple.bind (triple_check (fun d hd => hd.1.up) _)
    intro _
    apply EStateM.Triple.bind (Q := fun _ d =>
      Cuttable stored d ∧ d.mem.nextHeight = d0.mem.nextHeight ∧ d.mem.path = .frozen)
    . apply EStateM.Triple.modify
      rintro d ⟨h, hnext, hpath⟩
      refine ⟨h.setWindow hpath ?_, hnext, hpath⟩
      cases hfile : d.disk.files .window with
      | none => rfl
      | some bytes => exact h.up.stray hpath bytes hfile
    intro _
    apply EStateM.Triple.bind (triple_io (Q := fun d =>
      Cuttable stored d ∧ d.mem.nextHeight = d0.mem.nextHeight ∧ d.mem.path = .frozen ∧
        d.disk.files .window = some []) ?_ ?_ _)
    rotate_left
    . rintro d ⟨h, hnext, hpath⟩
      exact ⟨h.setWindow hpath rfl, hnext, hpath, Disk.files_setFile _ _ _⟩
    . rintro d ⟨h, hnext, hpath⟩
      exact ⟨h.up, (h.setWindow hpath rfl).up⟩
    intro _
    apply EStateM.Triple.modify
    rintro d ⟨h, hnext, hpath, hwindow⟩
    rw [← hnext]
    exact h.swap hpath hwindow _

theorem flushedHeight_append (runs : List Run) {runs' : List Run} (h : runs' ≠ [])
    : Manifest.flushedHeight (runs ++ runs') = Manifest.flushedHeight runs' := by
  unfold Manifest.flushedHeight
  rw [List.getLast?_append_of_ne_nil _ h]

theorem covers_merge {pre refs post : List Run} {last run : Run} (hlast : refs.getLast? = some last)
    (hparts : run.parts = refs.flatMap (·.parts)) (hheight : run.toHeight = last.toHeight)
    : Covers (pre ++ [run] ++ post) (pre ++ refs ++ post) where
  held g hg := by
    rcases hg with ⟨r, hmem, m, hm, hholds⟩
    rw [List.mem_append, List.mem_append] at hmem
    rcases hmem with (hpre | href) | hpost
    . exact ⟨r, by simp [hpre], m, hm, hholds⟩
    . refine ⟨run, by simp, m, ?_, hholds⟩
      rw [hparts, List.mem_flatMap]
      exact ⟨r, href, hm⟩
    . exact ⟨r, by simp [hpost], m, hm, hholds⟩
  stop := by
    by_cases hpost : post = []
    . subst hpost
      have hne : refs ≠ [] := by
        rintro rfl
        simp at hlast
      rw [List.append_nil, List.append_nil, flushedHeight_append _ (by simp), flushedHeight_append _ hne]
      simp [Manifest.flushedHeight, hlast, hheight]
    . rw [flushedHeight_append _ hpost, flushedHeight_append _ hpost]

theorem take_append_refs {start stop : Nat} (h : (runs.take stop).drop start ≠ [])
    : runs.take start ++ (runs.take stop).drop start ++ runs.drop stop = runs := by
  have hlt : start < stop := by
    by_contra hge
    apply h
    rw [List.drop_eq_nil_iff, List.length_take]
    omega
  have htake : runs.take start = (runs.take stop).take start := by
    rw [List.take_take, Nat.min_eq_left (Nat.le_of_lt hlt)]
  rw [htake, List.take_append_drop, List.take_append_drop]

theorem Up.setMan (h : Up stored d) (hcov : Covers runs d.man)
    : Up stored { d with disk := { d.disk with manifest := runs }, man := runs } where
  mem := h.mem
  file := h.file
  floor := h.floor
  base := by
    simp only [hcov.stop]
    exact h.base
  frozen m hm := by
    have hf := h.frozen m hm
    refine ⟨hf.live, hf.path, hf.file, hf.window, ?_, hf.next⟩
    simp only [hcov.stop]
    exact hf.base
  leftover hnone hwindow bytes hbytes := by
    simp only [hcov.stop]
    exact h.leftover hnone hwindow bytes hbytes
  stray := h.stray
  sealing := h.sealing
  sent := h.sent
  saved := .inl (.refl _)
  stored g hg := by
    rcases h.stored g hg with hheld | hrest
    . exact .inl (hcov.held g hheld)
    . exact .inr hrest

theorem Up.merge (start stop : Nat) (name : String) (save : Outcome)
    : EStateM.Triple (Up stored) (DB.merge start stop name save) (fun _ => Up stored) (Up stored) := by
  unfold DB.merge
  apply EStateM.Triple.get
  intro d0
  dsimp only
  split
  . next first last _ _ hlast =>
    have hne : (d0.man.take stop).drop start ≠ [] := by
      intro hnil
      simp [hnil] at hlast
    have hsplit := take_append_refs hne
    generalize (d0.man.take stop).drop start = refs at hlast hsplit
    generalize d0.man.take start = pre at hsplit
    generalize d0.man.drop stop = post at hsplit
    generalize hrun : (⟨first.fromTx, last.toTx, first.fromHeight, last.toHeight, name,
      refs.flatMap (·.parts)⟩ : Run) = run
    have hcov : Covers (pre ++ [run] ++ post) d0.man := by
      rw [← hsplit]
      exact covers_merge hlast (by rw [← hrun]) (by rw [← hrun])
    apply EStateM.Triple.bind
      (triple_io (Q := fun d =>
        Up stored { d with man := pre ++ [run] ++ post }) ?_ ?_ _)
    rotate_left
    . rintro d ⟨rfl, h⟩
      exact h.setMan hcov
    . rintro d ⟨rfl, h⟩
      exact ⟨h, h.setManifest (.inl hcov)⟩
    intro _
    apply EStateM.Triple.modify
    intro d hd
    exact hd
  . apply EStateM.Triple.throw
    rintro d ⟨rfl, h⟩
    exact h

end EpochDB.Store
