import EpochDB.Store.Db.Cut

/-!
Kills and reopens, and with them the whole system: stored blocks stay recoverable.
-/

namespace EpochDB.Store

open Memtable
open Memtable (logBlocks Live Keeps Extends Recovered)

@[simp]
theorem Disk.blocks_setFile (disk : Disk) (name : LogName) (bytes : Option Bytes)
    : (disk.setFile name bytes).blocks name = logBlocks (bytes.getD []) := by
  simp [Disk.blocks]

theorem Disk.blocks_setFile_of_ne (disk : Disk) {name name' : LogName} (h : name' ≠ name)
    (bytes : Option Bytes) : (disk.setFile name bytes).blocks name' = disk.blocks name' := by
  simp [Disk.blocks, Disk.files_setFile_of_ne _ h]

variable {name : LogName} {disk : Disk} {bytes : Bytes} {stored : List LogBlock} {d : DB}

theorem Disk.blocks_of_file (h : disk.files name = some bytes) : disk.blocks name = logBlocks bytes := by
  simp [Disk.blocks, h]

theorem logBlocks_nil : logBlocks [] = [] := rfl

theorem ascending_nil : Ascending [] := ⟨List.Pairwise.nil, by simp⟩

theorem Up.frozen_blocks (h : Up stored d) (hwindow : d.mem.path = .window)
    : Ascending (d.disk.blocks .frozen) ∧ ∀ g ∈ d.disk.blocks .frozen, g.height < d.mem.baseHeight := by
  cases hfrozen : d.frozen with
  | some m =>
    have hf := h.frozen m hfrozen
    rcases hf.file with ⟨n, -, hfile⟩
    rw [hf.path] at hfile
    rw [Disk.blocks_of_file hfile]
    have hpre := hf.live.whole.logBlocks_take_isPrefix n
    refine ⟨hf.live.ascending.of_isPrefix hpre, ?_⟩
    intro g hg
    exact UInt64.lt_of_lt_of_le (hf.live.below g (hpre.subset hg)) hf.next
  | none =>
    cases hfile : d.disk.files .frozen with
    | none =>
      simp only [Disk.blocks, hfile, Option.getD_none, logBlocks_nil]
      exact ⟨ascending_nil, by simp⟩
    | some bytes =>
      rw [Disk.blocks_of_file hfile]
      have hleft := h.leftover hfrozen hwindow bytes hfile
      exact ⟨hleft.ascending, fun g hg => UInt64.lt_of_lt_of_le (hleft.below g hg) h.base⟩

theorem Up.flushedHeight_le (h : Up stored d) : Manifest.flushedHeight d.disk.manifest ≤ d.mem.baseHeight := by
  rcases h.saved with hcov | ⟨m, hm, -, hstop⟩
  . rw [hcov.stop]
    exact h.base
  . rw [hstop]
    exact (h.frozen m hm).next

theorem Up.kill (h : Up stored d) {m : Memtable} (hext : Extends d.mem m) (spill : Nat)
    : Down stored (d.disk.setFile d.mem.path (some (m.log.take (d.mem.flushed + spill)))) := by
  have hpre := hext.live.whole.logBlocks_take_isPrefix (d.mem.flushed + spill)
  have hasc := hext.live.ascending.of_isPrefix hpre
  have hbase : ∀ g ∈ logBlocks (m.log.take (d.mem.flushed + spill)), d.mem.baseHeight ≤ g.height :=
    fun g hg => UInt64.le_trans hext.base (hext.floor h.floor g (hpre.subset hg))
  have hmem : ∀ g, Keeps d.mem g → g ∈ logBlocks (m.log.take (d.mem.flushed + spill)) := by
    intro g hg
    apply hext.live.whole.mem_logBlocks_take (hext.keeps g hg).mem
    exact Nat.le_trans hg.stop (Nat.le_add_right _ _)
  have hflushed := h.flushedHeight_le
  have hheld : ∀ g, Held d.man g → Held d.disk.manifest g := by
    intro g hg
    rcases h.saved with hcov | ⟨m, -, hsaved, -⟩
    . exact hcov.held g hg
    . exact hsaved g (.inl hg)
  generalize m.log.take (d.mem.flushed + spill) = bytes at hasc hbase hmem
  cases hpath : d.mem.path with
  | window =>
    rcases h.frozen_blocks hpath with ⟨hfasc, hfbelow⟩
    have hfrozen : (d.disk.setFile .window (some bytes)).blocks .frozen = d.disk.blocks .frozen :=
      Disk.blocks_setFile_of_ne _ (by simp) _
    refine ⟨?_, ?_, ?_, ?_⟩
    . intro name
      cases name with
      | window => simpa using hasc
      | frozen => rwa [hfrozen]
    . intro g hg
      rw [Disk.blocks_setFile] at hg
      exact UInt64.le_trans hflushed (hbase g hg)
    . intro g hg g' hg'
      rw [hfrozen] at hg
      rw [Disk.blocks_setFile] at hg'
      exact UInt64.lt_of_lt_of_le (hfbelow g hg) (hbase g' hg')
    . intro g hg
      rw [hfrozen, Disk.blocks_setFile]
      rcases h.stored g hg with hg | ⟨mf, hmf, hkeeps⟩ | hkeeps
      . exact .inl (hheld g hg)
      . rcases h.saved with hcov | ⟨m', hm', hsaved, -⟩
        . have hf := h.frozen mf hmf
          rcases hf.file with ⟨n, hn, hfile⟩
          rw [hf.path] at hfile
          refine .inr (.inl ⟨?_, ?_⟩)
          . rw [Disk.blocks_of_file hfile]
            exact mem_logBlocks_file hf.live hn hkeeps
          . simp only [Disk.manifest_setFile, hcov.stop]
            exact UInt64.le_trans hf.base hkeeps.base
        . rw [hmf] at hm'
          cases hm'
          exact .inl (hsaved g (.inr hkeeps))
      . exact .inr (.inr (hmem g hkeeps))
  | frozen =>
    have hnone : d.frozen = none := by
      cases hfrozen : d.frozen with
      | none => rfl
      | some mf =>
        have := (h.frozen mf hfrozen).window
        rw [hpath] at this
        contradiction
    have hwindow : (d.disk.setFile .frozen (some bytes)).blocks .window = [] := by
      rw [Disk.blocks_setFile_of_ne _ (by simp)]
      cases hfile : d.disk.files .window with
      | none => simp [Disk.blocks, hfile, logBlocks_nil]
      | some bytes' =>
        rw [Disk.blocks_of_file hfile]
        exact h.stray hpath bytes' hfile
    refine ⟨?_, ?_, ?_, ?_⟩
    . intro name
      cases name with
      | window =>
        rw [hwindow]
        exact ascending_nil
      | frozen => simpa using hasc
    . rw [hwindow]
      simp
    . rw [hwindow]
      simp
    . intro g hg
      rw [Disk.blocks_setFile]
      rcases h.stored g hg with hg | ⟨mf, hmf, -⟩ | hkeeps
      . exact .inl (hheld g hg)
      . rw [hnone] at hmf
        contradiction
      . refine .inr (.inl ⟨hmem g hkeeps, ?_⟩)
        exact UInt64.le_trans hflushed hkeeps.base

theorem Down.setFile (h : Down stored disk) (hbytes : logBlocks bytes = disk.blocks name)
    : Down stored (disk.setFile name (some bytes)) := by
  have hblocks : ∀ name', (disk.setFile name (some bytes)).blocks name' = disk.blocks name' := by
    intro name'
    by_cases hname : name' = name
    . rw [hname, Disk.blocks_setFile]
      exact hbytes
    . exact Disk.blocks_setFile_of_ne disk hname _
  refine ⟨?_, ?_, ?_, ?_⟩
  . simp only [hblocks]
    exact h.ascending
  . simp only [hblocks]
    exact h.base
  . simp only [hblocks]
    exact h.above
  . simp only [hblocks]
    exact h.stored

theorem Down.removeFrozen (h : Down stored disk)
    (hbelow : ∀ g ∈ disk.blocks .frozen, g.height < Manifest.flushedHeight disk.manifest)
    : Down stored (disk.setFile .frozen none) := by
  have hfrozen : (disk.setFile .frozen none).blocks .frozen = [] := by simp [logBlocks_nil]
  have hwindow : (disk.setFile .frozen none).blocks .window = disk.blocks .window :=
    Disk.blocks_setFile_of_ne _ (by simp) _
  refine ⟨?_, ?_, ?_, ?_⟩
  . intro name
    cases name with
    | window =>
      rw [hwindow]
      exact h.ascending _
    | frozen =>
      rw [hfrozen]
      exact ascending_nil
  . rw [hwindow]
    exact h.base
  . rw [hfrozen]
    simp
  . intro g hg
    rw [hwindow]
    rcases h.stored g hg with hg | ⟨hg, hle⟩ | hg
    . exact .inl hg
    . exact absurd (hbelow g hg) (UInt64.not_lt.mpr hle)
    . exact .inr (.inr hg)

theorem Down.publish (h : Down stored disk) {fm : Memtable} {log : Bytes} (hlog : logBlocks log = disk.blocks .frozen)
    (hrec : Recovered (Manifest.flushedHeight disk.manifest) log fm) (hstart : fm.started = true)
    (name : String)
    : Down stored { disk with manifest := disk.manifest ++ [DB.sealedRun fm name] } := by
  refine ⟨h.ascending, ?_, h.above, ?_⟩
  . intro g hg
    simp only [flushedHeight_sealedRun]
    rcases hrec.started hstart with ⟨g', hg', hnext⟩
    rw [hlog] at hg'
    have hlt := h.above g' hg' g hg
    have hheight := (h.ascending .frozen).height_lt g' hg'
    rw [hnext, UInt64.le_iff_toNat_le, toNat_add_one hheight]
    rw [UInt64.lt_iff_toNat_lt] at hlt
    omega
  . intro g hg
    rcases h.stored g hg with hg | ⟨hg, hle⟩ | hg
    . exact .inl (hg.append _)
    . rw [← hlog] at hg
      exact .inl (held_sealedRun hrec.live (hrec.keeps g hg hle) _ _)
    . exact .inr (.inr hg)

structure Opening (stored : List LogBlock) (d : DB) : Prop where
  down : Down stored d.disk
  man : d.man = d.disk.manifest
  cut : d.cut = .none

theorem Opening.setFile (h : Opening stored d) (hbytes : logBlocks bytes = d.disk.blocks name)
    : Opening stored (d.setFile name (some bytes)) :=
  ⟨h.down.setFile hbytes, h.man, h.cut⟩

theorem triple_recoverLog (stored : List LogBlock) (d0 : DB) (name : LogName) (out : Outcome) (baseTx baseHeight : UInt64)
    : EStateM.Triple
        (fun d => d = d0 ∧ Opening stored d)
        (DB.recoverLog name out baseTx baseHeight)
        (fun m d => Opening stored d ∧ d = d0.setFile name (some m.log) ∧ m.path = name ∧
          ∃ log, logBlocks log = d0.disk.blocks name ∧ Recovered baseHeight log m)
        (fun d => Down stored d.disk) := by
  unfold DB.recoverLog
  apply EStateM.Triple.get
  rintro d1
  dsimp only
  split
  . apply EStateM.Triple.throw
    rintro d ⟨rfl, rfl, h⟩
    exact h.down
  . next m hrun =>
    by_cases hd1 : d1 = d0 ∧ Opening stored d1
    . rcases hd1 with ⟨rfl, h⟩
      have hasc : Ascending (logBlocks ((d1.disk.files name).getD [])) := h.down.ascending name
      rcases recovered hasc hrun with ⟨hrec, hpath⟩
      have hfile : Opening stored (d1.setFile name (some m.log)) := h.setFile hrec.blocks
      apply EStateM.Triple.bind (triple_io (Q := fun d => d = d1.setFile name (some m.log)) ?_ ?_ _)
      rotate_left
      . rintro d ⟨rfl, -⟩
        rfl
      . rintro d ⟨rfl, -⟩
        exact ⟨h.down, hfile.down⟩
      intro _
      apply EStateM.Triple.pure
      rintro d rfl
      exact ⟨hfile, rfl, hpath, _, rfl, hrec⟩
    . intro d hd
      exact absurd hd.2 hd1

structure Sealed (stored : List LogBlock) (d : DB) : Prop where
  opening : Opening stored d
  frozen : d.frozen = none
  below : ∀ g ∈ d.disk.blocks .frozen, g.height < Manifest.flushedHeight d.man

theorem Sealed.removeFrozen (h : Sealed stored d)
    : Sealed stored (d.setFile .frozen none) where
  opening := by
    refine ⟨?_, h.opening.man, h.opening.cut⟩
    apply h.opening.down.removeFrozen
    rw [← h.opening.man]
    exact h.below
  frozen := h.frozen
  below := by simp [DB.setFile, logBlocks_nil]

theorem triple_sealWindow {fm : Memtable} (hpath : fm.path = .frozen) (hstart : fm.started = true) (io : DB.SealIO)
    : EStateM.Triple
        (fun d => Opening stored d ∧
          ∃ log, logBlocks log = d.disk.blocks .frozen ∧
            Recovered (Manifest.flushedHeight d.man) log fm)
        (DB.sealWindow io fm)
        (fun _ d => Sealed stored d ∧ Manifest.flushedHeight d.man = fm.nextHeight)
        (fun d => Down stored d.disk) := by
  unfold DB.sealWindow
  apply EStateM.Triple.bind (Q := fun _ d => Opening stored d ∧
    ∃ log, logBlocks log = d.disk.blocks .frozen ∧ Recovered (Manifest.flushedHeight d.man) log fm)
  . unfold DB.sealBuild
    split
    . exact EStateM.Triple.throw (fun d hd => hd.1.down)
    . exact EStateM.Triple.pure (fun d hd => hd)
  intro name
  apply EStateM.Triple.bind (Q := fun _ d =>
    Sealed stored d ∧ Manifest.flushedHeight d.man = fm.nextHeight)
  . unfold DB.sealPublish
    apply EStateM.Triple.get
    intro d0
    apply EStateM.Triple.bind (triple_io (Q := fun d =>
      Opening stored { d with man := d0.man ++ [DB.sealedRun fm name] } ∧
      ∀ g ∈ d.disk.blocks .frozen, g.height < fm.nextHeight) ?_ ?_ _)
    rotate_left
    . rintro d ⟨rfl, h, log, hlog, hrec⟩
      rw [h.man] at hrec ⊢
      refine ⟨⟨h.down.publish hlog hrec hstart name, rfl, h.cut⟩, ?_⟩
      intro g hg
      apply hrec.live.below
      rwa [hrec.blocks, hlog]
    . rintro d ⟨rfl, h, log, hlog, hrec⟩
      rw [h.man] at hrec ⊢
      exact ⟨h.down, h.down.publish hlog hrec hstart name⟩
    intro _
    apply EStateM.Triple.modify
    rintro d ⟨h, hbelow⟩
    have hstop : Manifest.flushedHeight (d0.man ++ [DB.sealedRun fm name]) = fm.nextHeight :=
      flushedHeight_sealedRun _ _ _
    refine ⟨⟨⟨h.down, h.man, h.cut⟩, rfl, ?_⟩, hstop⟩
    simp only [hstop]
    exact hbelow
  intro _
  apply EStateM.Triple.bind (triple_io (Q := fun d =>
    Sealed stored d ∧ Manifest.flushedHeight d.man = fm.nextHeight) ?_ ?_ _)
  rotate_left
  . rintro d ⟨h, hstop⟩
    rw [hpath]
    exact ⟨h.removeFrozen, hstop⟩
  . rintro d ⟨h, -⟩
    rw [hpath]
    exact ⟨h.opening.down, h.removeFrozen.opening.down⟩
  intro _
  exact triple_check (fun d hd => hd.1.opening.down) _

theorem triple_openFrozen (io : DB.OpenIO)
    : EStateM.Triple
        (fun d => Opening stored d ∧ d.frozen = none)
        (DB.openFrozen io)
        (fun base d => Sealed stored d ∧ base.2 = Manifest.flushedHeight d.man)
        (fun d => Down stored d.disk) := by
  unfold DB.openFrozen
  apply EStateM.Triple.get
  intro d0
  dsimp only
  split
  . next hnone =>
    apply EStateM.Triple.pure
    rintro d ⟨rfl, h, hfrozen⟩
    refine ⟨⟨h, hfrozen, ?_⟩, rfl⟩
    rw [Option.isNone_iff_eq_none] at hnone
    simp [Disk.blocks, hnone, logBlocks_nil]
  . apply EStateM.Triple.bind (triple_check (fun d hd => ?_) _)
    rotate_left
    . rcases hd with ⟨rfl, h, -⟩
      exact h.down
    intro _
    by_cases h0 : Opening stored d0 ∧ d0.frozen = none
    rotate_left
    . intro d hd
      exact absurd hd.2 h0
    rcases h0 with ⟨h0, hfrozen⟩
    have hstart : ∀ d, d = d0 ∧ Opening stored d0 ∧ d0.frozen = none → d = d0 ∧ Opening stored d := by
      rintro d ⟨rfl, h, -⟩
      exact ⟨rfl, h⟩
    apply EStateM.Triple.bind
      ((triple_recoverLog stored d0 .frozen io.recoverFrozen _ _).imp hstart (fun _ _ h => h)
        (fun _ h => h))
    intro fm
    split
    . next hstart =>
      apply EStateM.Triple.bind (Q := fun _ d => Opening stored d ∧ fm.path = .frozen ∧
        ∃ log, logBlocks log = d.disk.blocks .frozen ∧
          Recovered (Manifest.flushedHeight d.man) log fm)
      . apply EStateM.Triple.modify
        rintro d ⟨h, rfl, hpath, log, hlog, hrec⟩
        refine ⟨⟨h.down, h.man, h.cut⟩, hpath, log, ?_, hrec⟩
        simp only [DB.setFile, Disk.blocks_setFile, Option.getD_some]
        rw [hrec.blocks]
      intro _
      by_cases hpath : fm.path = .frozen
      rotate_left
      . intro d hd
        exact absurd hd.2.1 hpath
      apply EStateM.Triple.bind
        ((triple_sealWindow hpath hstart io.sealIO).imp (fun d hd => ⟨hd.1, hd.2.2⟩)
          (fun _ d h => h) (fun d h => h))
      intro _
      apply EStateM.Triple.pure
      rintro d ⟨h, hstop⟩
      exact ⟨h, hstop.symm⟩
    . next hstart =>
      have hstart : fm.started = false := by simpa using hstart
      apply EStateM.Triple.bind (triple_io (Q := fun d =>
        Sealed stored d ∧ Manifest.flushedHeight d0.man = Manifest.flushedHeight d.man) ?_ ?_ _)
      rotate_left
      . rintro d ⟨h, hd, hpath, log, hlog, hrec⟩
        rw [hpath]
        have hman : d.man = d0.man := by rw [hd]; rfl
        have hsealed : Sealed stored d := by
          refine ⟨h, by rw [hd]; exact hfrozen, ?_⟩
          rw [hman]
          intro g hg
          apply (hrec.idle hstart).2
          rw [hd] at hg
          simp only [DB.setFile, Disk.blocks_setFile, Option.getD_some] at hg
          rwa [hrec.blocks] at hg
        exact ⟨hsealed.removeFrozen, by rw [← hman]; rfl⟩
      . rintro d ⟨h, hd, hpath, log, hlog, hrec⟩
        rw [hpath]
        refine ⟨h.down, ?_⟩
        have hman : d.man = d0.man := by rw [hd]; rfl
        apply h.down.removeFrozen
        rw [← h.man, hman]
        intro g hg
        apply (hrec.idle hstart).2
        rw [hd] at hg
        simp only [DB.setFile, Disk.blocks_setFile, Option.getD_some] at hg
        rwa [hrec.blocks] at hg
      intro _
      exact EStateM.Triple.pure (fun d hd => hd)

theorem Sealed.up (h : Sealed stored d) {mem : Memtable} {log : Bytes}
    (hpath : mem.path = .window) (hlog : logBlocks log = d.disk.blocks .window)
    (hrec : Recovered (Manifest.flushedHeight d.man) log mem)
    : Up stored { d.setFile .window (some mem.log) with mem := mem } := by
  have hdown := h.opening.down
  have hman := h.opening.man
  have hfrozen : (d.disk.setFile .window (some mem.log)).files .frozen = d.disk.files .frozen :=
    Disk.files_setFile_of_ne _ (by simp) _
  have hkeeps : ∀ g ∈ d.disk.blocks .window, Keeps mem g := by
    intro g hg
    apply hrec.keeps g (by rwa [hlog])
    rw [hman]
    exact hdown.base g hg
  refine ⟨hrec.live, ⟨max mem.flushed mem.log.length, Nat.le_max_left _ _, ?_⟩, ?_, hrec.base, ?_, ?_, ?_, ?_,
    ?_, .inl ?_, ?_⟩
  . rw [List.take_of_length_le (Nat.le_max_right _ _), hpath]
    exact Disk.files_setFile _ _ _
  . intro g hg
    rw [hrec.blocks, hlog] at hg
    exact (hkeeps g hg).base
  . intro m hm
    have hm : d.frozen = some m := hm
    rw [h.frozen] at hm
    contradiction
  . intro _ _ bytes hbytes
    have hbytes : d.disk.files .frozen = some bytes := hfrozen.symm.trans hbytes
    refine ⟨?_, ?_⟩
    . rw [← Disk.blocks_of_file hbytes]
      exact hdown.ascending _
    . intro g hg
      apply h.below
      rwa [Disk.blocks_of_file hbytes]
  . intro hp
    have hp : mem.path = .frozen := hp
    rw [hpath] at hp
    contradiction
  . intro stage m hcut
    have hcut : d.cut = .sealing stage m := hcut
    rw [h.opening.cut] at hcut
    contradiction
  . intro hcut
    have hcut : d.cut = .sent none := hcut
    rw [h.opening.cut] at hcut
    contradiction
  . simp only [DB.setFile, Disk.manifest_setFile, ← hman]
    exact .refl _
  . intro g hg
    rcases hdown.stored g hg with hheld | ⟨hg, hle⟩ | hg
    . left
      simp only [DB.setFile]
      rwa [hman]
    . rw [← hman] at hle
      exact absurd (h.below g hg) (UInt64.not_lt.mpr hle)
    . exact .inr (.inr (hkeeps g hg))

theorem triple_openDB (stored : List LogBlock) (io : DB.OpenIO)
    : EStateM.Triple
        (fun d => Opening stored d ∧ d.frozen = none)
        (DB.openDB io) (fun _ => Up stored) (fun d => Down stored d.disk) := by
  unfold DB.openDB
  apply EStateM.Triple.get
  intro d0
  split
  . apply EStateM.Triple.throw
    rintro d ⟨rfl, h, -⟩
    exact h.down
  . apply EStateM.Triple.bind (Q := fun _ d => Opening stored d ∧ d.frozen = none)
    . refine (triple_check (P := fun d => Opening stored d ∧ d.frozen = none)
        (fun d hd => hd.1.down) _).imp ?_ (fun _ _ h => h) (fun _ h => h)
      rintro d ⟨rfl, h⟩
      exact h
    intro _
    apply EStateM.Triple.bind (Q := fun _ d => Opening stored d ∧ d.frozen = none)
    . apply EStateM.Triple.modify
      rintro d ⟨h, hfrozen⟩
      exact ⟨h.setFile rfl, hfrozen⟩
    intro _
    apply EStateM.Triple.bind (triple_check (fun d hd => hd.1.down) _)
    intro _
    apply EStateM.Triple.bind (triple_openFrozen io)
    rintro ⟨baseTx, baseHeight⟩
    rintro d1 ⟨hsealed, hbase⟩
    have hbase : baseHeight = Manifest.flushedHeight d1.man := hbase
    have hwindow := (triple_recoverLog stored d1 .window io.recoverWindow baseTx baseHeight).bind
      (R := fun _ => Up stored) (g := fun mem => modify (fun d : DB => { d with mem := mem })) (by
        intro mem
        apply EStateM.Triple.modify
        rintro d ⟨-, rfl, hpath, log, hlog, hrec⟩
        rw [hbase] at hrec
        exact hsealed.up hpath hlog hrec)
    exact hwindow d1 ⟨rfl, hsealed.opening⟩

section

variable {crypto : Crypto} {flushTxs flushBlocks : UInt64}

theorem inv_init : Inv Sys.init := by
  refine ⟨?_, ?_, ?_, ?_⟩
  . intro name
    exact ascending_nil
  . simp [Disk.blocks, Disk.empty, logBlocks_nil]
  . simp [Disk.blocks, Disk.empty, logBlocks_nil]
  . simp [Sys.init]

theorem inv_add {stored : List LogBlock} {d : DB} (h : Up stored d) {b : BlockWrite} (hfit : b.Replayable)
    {file : LogFile} {spill : Nat} {s' : Sys}
    (hstep : step crypto flushTxs flushBlocks ⟨.up d, stored⟩ (.add b file spill) = some s') : Inv s' := by
  have hext := h.mem.add crypto file hfit
  simp only [step] at hstep
  split at hstep
  . next m hrun =>
    cases hstep
    rw [hrun] at hext
    apply Up.append (h.setMem hext spill)
    exact h.mem.keeps_of_add hfit hrun
  . next e m hrun =>
    cases hstep
    rw [hrun] at hext
    exact h.setMem hext spill

theorem inv_kill {stored : List LogBlock} {d : DB} (h : Up stored d)
    {writing : Option (BlockWrite × LogFile)} (hfit : ∀ b file, writing = some (b, file) → b.Replayable)
    (spill : Nat) : Down stored (d.killed crypto writing spill) := by
  cases writing with
  | none => exact h.kill (.refl h.mem) spill
  | some writing => exact h.kill (h.mem.add crypto _ (hfit _ _ rfl)) spill

theorem inv_step {s s' : Sys} {e : Event} (h : Inv s) (hcareful : Careful s e)
    (hstep : step crypto flushTxs flushBlocks s e = some s') : Inv s' := by
  rcases s with ⟨node, stored⟩
  cases node with
  | down disk =>
    have h : Down stored disk := h
    cases e with
    | reopen io =>
      have hopen := triple_openDB stored io (DB.opening disk flushTxs flushBlocks)
        ⟨⟨h, rfl, rfl⟩, rfl⟩
      simp only [step] at hstep
      split at hstep
      . next hrun =>
        cases hstep
        exact hopen.1 _ _ hrun
      . next hrun =>
        cases hstep
        exact hopen.2 _ _ hrun
    | _ => simp [step] at hstep
  | up d =>
    have h : Up stored d := h
    cases e with
    | add b file spill => exact inv_add h hcareful hstep
    | maybeFlush io =>
      simp only [step] at hstep
      split at hstep
      . contradiction
      . next hwait =>
        cases hstep
        have hwait : d.waiting = false := by simpa using hwait
        simp only [DB.maybeFlush]
        rw [EStateM.run_bind_of_ok (EStateM.run_get d)]
        cases hdue : d.due with
        | true => exact (Up.cutWindow io).state ⟨h, hwait, hcareful d rfl hdue⟩
        | false => exact h
    | flush io =>
      simp only [step] at hstep
      split at hstep
      . contradiction
      . next hwait =>
        cases hstep
        exact (Up.cutWindow io).state ⟨h, by simpa using hwait, hcareful d rfl⟩
    | waitCut =>
      simp only [step] at hstep
      split at hstep
      . contradiction
      . cases hstep
        exact Up.collect h
    | sealStep io =>
      simp only [step, Option.map_eq_some_iff] at hstep
      rcases hstep with ⟨d', hseal, rfl⟩
      exact h.sealStep hseal
    | merge start stop name save =>
      cases hstep
      exact (Up.merge start stop name save).state h
    | kill writing spill =>
      cases hstep
      apply inv_kill h
      rintro b file rfl
      exact hcareful
    | reopen io => simp [step] at hstep

/--
No stored block is lost in a run whose steps are all careful: after any writes, cuts, seals, merges,
kills and reopens, and any failures among them, its rows are in a run of the saved manifest or it is a
complete block of one of the logs.
-/
theorem recoverable_of_careful {s : Sys} (h : Transition.Reachable (step crypto flushTxs flushBlocks) Careful Sys.init s)
    : ∀ g ∈ s.stored, s.disk.Recoverable g := by
  have hinv : Inv s := h.invariant inv_init (fun _ _ _ => inv_step)
  exact fun g hg => hinv.recoverable hg

end

def carefulRun : List Event :=
  [.reopen goodOpen,
    .add (emptyBlock 1) goodLog 0, .flush goodCut, .sealStep { goodSeal with build := none }, .waitCut,
    .add (emptyBlock 2) goodLog 0, .kill none 0, .reopen goodOpen,
    .add (emptyBlock 3) goodLog 0, .flush goodCut, .sealStep goodSeal,
    .kill (some (emptyBlock 4, goodLog)) 100]

def DB.mayCut (d : DB) : Bool :=
  match d.cut with
  | .none => d.frozen.isNone
  | _ => true

def careful (s : Sys) : Event → Bool
  | .add b _ _ => decide b.Replayable
  | .kill (some (b, _)) _ => decide b.Replayable
  | .maybeFlush _ | .flush _ =>
    match s.node with
    | .up d => d.mayCut
    | .down _ => true
  | _ => true

theorem frozen_of_mayCut {s : Sys} (hnode : s.node = .up d) (hcut : d.cut = .none)
    (h : (match s.node with | .up d => d.mayCut | .down _ => true) = true) : d.frozen = none := by
  rw [hnode] at h
  simpa [DB.mayCut, hcut] using h

theorem careful_of_check {s : Sys} {e : Event} (h : careful s e = true) : Careful s e := by
  cases e with
  | add b file spill => exact of_decide_eq_true (p := b.Replayable) h
  | maybeFlush io => exact fun d hnode _ hcut => frozen_of_mayCut hnode hcut h
  | flush io => exact fun d hnode hcut => frozen_of_mayCut hnode hcut h
  | kill writing spill =>
    cases writing with
    | none => trivial
    | some bf => exact of_decide_eq_true (p := bf.1.Replayable) h
  | _ => trivial

theorem recoverable_of_careful_carefulRun
    : ∃ s,
        Transition.Reachable (step emptyBlockCrypto 1 1) Careful Sys.init s ∧
        Transition.run (step emptyBlockCrypto 1 1) Sys.init carefulRun = some s ∧
        s.stored.length = 3 ∧ s.disk.manifest.length = 1 ∧ ∀ g ∈ s.stored, s.disk.Recoverable g := by
  have hrun : (Transition.run (fun s e => if careful s e then step emptyBlockCrypto 1 1 s e else none) Sys.init
      carefulRun).map (fun s => (s.stored.length, s.disk.manifest.length)) = some (3, 1) := by
    decide +kernel
  rcases Option.map_eq_some_iff.mp hrun with ⟨s, hs, hobs⟩
  rw [Prod.mk.injEq] at hobs
  have hreach : Transition.Reachable (step emptyBlockCrypto 1 1) Careful Sys.init s :=
    Transition.Reachable.run_checked (fun _ _ => careful_of_check) .init hs
  exact ⟨s, hreach, Transition.run_of_run_checked hs, hobs.1, hobs.2, recoverable_of_careful hreach⟩

end EpochDB.Store
