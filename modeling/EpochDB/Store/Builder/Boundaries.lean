import EpochDB.Store.Builder.Spans

/-!
Run boundaries as a function of the blocks: kills and reopens do not move them as long as no block is
added to a window that is past its trigger.
-/

namespace EpochDB.Store.Builder

open List Transition

variable {cfg : Config}

namespace Window

theorem due_fresh (baseTx baseHeight : Nat) : (fresh baseTx baseHeight).due cfg = false := rfl

structure Ok (w : Window) (baseTx baseHeight : Nat) : Prop where
  recover : recover baseTx baseHeight w.log = w
  fresh : w.started = false → w.baseTx = baseTx ∧ w.nextTx = baseTx ∧ w.nextHeight = baseHeight
  base : w.baseHeight ≤ w.nextHeight
  started : w.started = true → w.baseHeight < w.nextHeight
  log : ∀ r ∈ w.log, r.height < w.nextHeight

theorem ok_fresh (baseTx baseHeight : Nat) : (Window.fresh baseTx baseHeight).Ok baseTx baseHeight where
  recover := rfl
  fresh _ := ⟨rfl, rfl, rfl⟩
  base := Nat.le_refl _
  started h := by contradiction
  log := by simp [Window.fresh]

theorem Ok.push {w : Window} {baseTx baseHeight : Nat} (h : w.Ok baseTx baseHeight) {b : Blk}
    (hb : w.nextHeight ≤ b.height) : (w.push b).Ok baseTx baseHeight where
  recover := by
    have hge : ¬ b.height < w.baseHeight := by
      have := h.base
      omega
    have hlog : (w.push b).log = w.log ++ [⟨b.height, w.nextTx + b.txs + 1⟩] := rfl
    rw [hlog, Window.recover, foldl_append, foldl_cons, foldl_nil]
    have := h.recover
    rw [Window.recover] at this
    rw [this, replay, if_neg hge]
    rfl
  fresh hs := by contradiction
  base := by
    have := h.base
    simp only [Window.push]
    split <;> omega
  started _ := by
    have := h.base
    simp only [Window.push]
    split <;> omega
  log := by
    intro r hr
    simp only [Window.push, mem_append, mem_singleton] at hr ⊢
    rcases hr with hr | rfl
    . have := h.log r hr
      omega
    . simp

theorem add_eq_ok {w w' : Window} {b : Blk} (h : w.add b = .ok (some w')) : w.nextHeight ≤ b.height ∧ w' = w.push b := by
  unfold add at h
  split at h
  . cases h
  . next hlt =>
    split at h
    . cases h
    . split at h
      . cases h
      . cases h
        exact ⟨by omega, rfl⟩

theorem recover_of_below {baseTx baseHeight : Nat} {log : List EndRec}
    (h : ∀ r ∈ log, r.height < baseHeight) : (recover baseTx baseHeight log).started = false := by
  have hgo : ∀ (log : List EndRec) (w : Window), w.started = false →
      (∀ r ∈ log, r.height < w.baseHeight) → (log.foldl replay w).started = false := by
    intro log
    induction log with
    | nil => exact fun w hw _ => hw
    | cons r log ih =>
      intro w hw hlog
      rw [foldl_cons, replay, if_pos (hlog r (by simp))]
      exact ih _ hw (fun r' hr' => hlog r' (by simp [hr']))
  exact hgo log _ rfl h

theorem ref_level (w : Window) : w.ref.level = 0 := rfl

end Window

theorem close_fresh (cuts : List RunRef) (baseTx baseHeight : Nat)
    : close cfg (cuts, .fresh baseTx baseHeight) = (cuts, .fresh baseTx baseHeight) := by
  rw [close, if_neg]
  exact fun h => by contradiction

variable {cuts refs : List RunRef} {s s' : Sys} {p : Proc}

theorem close_of_due {w : Window} (h : w.due cfg = true)
    : close cfg (cuts, w) = (cuts ++ [w.ref], .fresh w.nextTx w.nextHeight) := by
  rw [close, if_pos h]

theorem close_of_not_due {w : Window} (h : w.due cfg = false) : close cfg (cuts, w) = (cuts, w) := by
  rw [close, if_neg (by simp [h])]

def basePos (refs : List RunRef) (pend : Option Window) : Nat × Nat :=
  match pend with
  | none => (flushedTx refs, flushedHeight refs)
  | some f => (f.nextTx, f.nextHeight)

structure Holds (cfg : Config) (s : Sys) (pend : Option Window) (w : Window) : Prop where
  plan : plan cfg s.stored = close cfg (s.cuts ++ (pend.map Window.ref).toList, w)
  comes : Comes cfg s.cuts s.disk.refs
  frozen : ∀ f, pend = some f → f.Ok (flushedTx s.disk.refs) (flushedHeight s.disk.refs) ∧
    f.started = true ∧ s.disk.frozen = some f.log
  sealed : pend = none → ∀ log, s.disk.frozen = some log → ∀ r ∈ log, r.height < flushedHeight s.disk.refs
  active : w.Ok (basePos s.disk.refs pend).1 (basePos s.disk.refs pend).2
  window : s.disk.window = w.log

def CutOk (cut : Option (Stage × Window)) (pend : Option Window) : Prop :=
  match cut with
  | some (.publish, m) => pend = some m
  | _ => pend = none

def WriterOk (refs : List RunRef) (mem : Window) (cut : Option (Stage × Window)) (pend : Option Window)
    (w : Window) : Writer → Prop
  | .idle => mem = w ∧ CutOk cut pend
  | .flush => mem = w ∧ CutOk cut pend
  | .renamed => pend = some mem ∧ w = .fresh mem.nextTx mem.nextHeight ∧ cut = none
  | .opening baseTx baseHeight => (baseTx, baseHeight) = basePos refs pend ∧ CutOk cut pend

structure ProcOk (cfg : Config) (disk : Disk) (p : Proc) (pend : Option Window) (w : Window) : Prop where
  refs : p.refs = disk.refs
  writer : WriterOk disk.refs p.mem p.cut pend w p.writer
  merging : ∀ start span, p.merging = some (start, span) →
    ∃ stop, mergeSpanLocked cfg disk.refs = some (start, stop) ∧ span = (disk.refs.take stop).drop start

def Inv (cfg : Config) (s : Sys) : Prop :=
  ∃ pend w, Holds cfg s pend w ∧ ∀ p, s.proc = some p → ProcOk cfg s.disk p pend w

def Careful (cfg : Config) (s : Sys) : Event → Prop
  | .add b => ∀ p, s.proc = some p → p.mem.due cfg = true → b.height < p.mem.nextHeight
  | _ => True

theorem Holds.inv {pend : Option Window} {w : Window} (h : Holds cfg s pend w) (hp : ProcOk cfg s.disk p pend w)
    : Inv cfg { s with proc := some p } := by
  refine ⟨pend, w, ⟨h.plan, h.comes, h.frozen, h.sealed, h.active, h.window⟩, ?_⟩
  intro p' hp'
  cases hp'
  exact hp

theorem inv_init : Inv cfg Sys.init := by
  refine ⟨none, .fresh 0 0, ⟨?_, Comes.init, by simp, ?_, Window.ok_fresh 0 0, rfl⟩, ?_⟩
  . exact (close_fresh [] 0 0).symm
  . intro _ log hlog
    contradiction
  . intro p hp
    contradiction

theorem Inv.add (h : Inv cfg s) (hp : s.proc = some p) {b : Blk}
    (hcareful : p.mem.due cfg = true → b.height < p.mem.nextHeight) (hstep : s.add p b = some s')
    : Inv cfg s' := by
  rcases h with ⟨pend, w, hholds, hproc⟩
  have hp' := hproc p hp
  unfold Sys.add at hstep
  split at hstep
  . next hw =>
    have hwriter := hp'.writer
    rw [hw] at hwriter
    rcases hwriter with ⟨hmem, hcut⟩
    split at hstep
    . cases hstep
      exact ⟨pend, w, hholds, hproc⟩
    . cases hstep
      exact hholds.inv ⟨hp'.refs, ⟨hmem, hcut⟩, hp'.merging⟩
    . next w' hadd =>
      cases hstep
      rcases Window.add_eq_ok hadd with ⟨hge, rfl⟩
      have hdue : p.mem.due cfg = false := by
        cases hd : p.mem.due cfg with
        | false => rfl
        | true =>
          have := hcareful hd
          omega
      rw [hmem] at hdue hge hadd
      refine ⟨pend, w.push b, ⟨?_, hholds.comes, hholds.frozen, hholds.sealed, hholds.active.push hge, ?_⟩, ?_⟩
      . show Builder.plan cfg (s.stored ++ [b]) = _
        have hplan := hholds.plan
        rw [close_of_not_due hdue, Builder.plan] at hplan
        rw [Builder.plan, foldl_append, hplan]
        rfl
      . show (p.mem.push b).log = _
        rw [hmem]
      . intro p' hp''
        cases hp''
        exact ⟨hp'.refs, ⟨by rw [hmem], hcut⟩, hp'.merging⟩
  . contradiction

theorem Inv.maybeFlush (h : Inv cfg s) (hp : s.proc = some p) (hstep : s.maybeFlush cfg p = some s') : Inv cfg s' := by
  rcases h with ⟨pend, w, hholds, hproc⟩
  have hp' := hproc p hp
  have hidle : p.mem = w → CutOk p.cut pend → Inv cfg { s with proc := some { p with writer := .idle } } := by
    intro hmem hcut
    exact hholds.inv ⟨hp'.refs, ⟨hmem, hcut⟩, hp'.merging⟩
  unfold Sys.maybeFlush at hstep
  split at hstep
  . next hw =>
    have hwriter := hp'.writer
    rw [hw] at hwriter
    rcases hwriter with ⟨hmem, hcut⟩
    split at hstep
    . cases hstep
      exact hidle hmem hcut
    . next hdue =>
      split at hstep
      . contradiction
      . next hnocut =>
        split at hstep
        . cases hstep
          exact hidle hmem hcut
        . next hne =>
          cases hstep
          have hcutnone : p.cut = none := by simpa using hnocut
          have hpend : pend = none := by
            rw [hcutnone] at hcut
            exact hcut
          have hdue : w.due cfg = true := by
            rw [← hmem]
            simpa using hdue
          have hstarted : w.started = true := by
            simp only [Window.due, Bool.and_eq_true] at hdue
            exact hdue.1
          subst hpend
          refine ⟨some w, .fresh w.nextTx w.nextHeight, ⟨?_, hholds.comes, ?_, by simp, Window.ok_fresh _ _, rfl⟩, ?_⟩
          . have hplan := hholds.plan
            rw [close_of_due hdue] at hplan
            rw [close_fresh]
            simpa using hplan
          . intro f hf
            cases hf
            exact ⟨hholds.active, hstarted, by rw [hmem]⟩
          . intro p' hp''
            cases hp''
            exact ⟨hp'.refs, ⟨by rw [hmem], by rw [hmem], hcutnone⟩, hp'.merging⟩
  . contradiction

theorem Inv.swap (h : Inv cfg s) (hp : s.proc = some p) (hstep : s.swap p = some s') : Inv cfg s' := by
  rcases h with ⟨pend, w, hholds, hproc⟩
  have hp' := hproc p hp
  unfold Sys.swap at hstep
  split at hstep
  . next hw =>
    have hwriter := hp'.writer
    rw [hw] at hwriter
    rcases hwriter with ⟨hpend, hwin, hcut⟩
    cases hstep
    exact hholds.inv ⟨hp'.refs, ⟨hwin.symm, hpend⟩, hp'.merging⟩
  . contradiction

theorem flushed_publish (refs : List RunRef) {f : Window} {baseTx baseHeight : Nat} (h : f.Ok baseTx baseHeight)
    (hstarted : f.started = true)
    : (flushedTx (refs ++ [f.ref]), flushedHeight (refs ++ [f.ref])) = (f.nextTx, f.nextHeight) := by
  have := h.started hstarted
  simp only [flushedTx, flushedHeight, getLast?_concat, Window.ref, Prod.mk.injEq, true_and]
  omega

theorem WriterOk.sealNext {refs refs' : List RunRef} {mem w : Window} {cut cut' : Option (Stage × Window)}
    {pend pend' : Option Window} {wr : Writer} (h : WriterOk refs mem cut pend w wr) (hcut : cut ≠ none)
    (hcut' : CutOk cut' pend') (hbase : basePos refs' pend' = basePos refs pend)
    : WriterOk refs' mem cut' pend' w wr := by
  cases wr with
  | idle => exact ⟨h.1, hcut'⟩
  | flush => exact ⟨h.1, hcut'⟩
  | renamed => exact absurd h.2.2 hcut
  | opening baseTx baseHeight => exact ⟨h.1.trans hbase.symm, hcut'⟩

theorem WriterOk.cutOk {mem w : Window} {cut : Option (Stage × Window)}
    {pend : Option Window} {wr : Writer} (h : WriterOk refs mem cut pend w wr) (hcut : cut ≠ none)
    : CutOk cut pend := by
  cases wr with
  | idle => exact h.2
  | flush => exact h.2
  | renamed => exact absurd h.2.2 hcut
  | opening baseTx baseHeight => exact h.2

theorem Inv.publish (h : Inv cfg s) (hp : s.proc = some p) {m : Window} (hcut : p.cut = some (.publish, m))
    : Inv cfg { s with
        proc := some { p with refs := p.refs ++ [m.ref], frozen := none, cut := some (.remove, m) }
        disk := { s.disk with refs := p.refs ++ [m.ref] }
        cuts := s.cuts ++ [m.ref] } := by
  rcases h with ⟨pend, w, hholds, hproc⟩
  have hp' := hproc p hp
  have hpend : pend = some m := by
    have := hp'.writer.cutOk (by simp [hcut])
    rw [hcut] at this
    exact this
  subst hpend
  rcases hholds.frozen m rfl with ⟨hok, hstarted, hfrozen⟩
  have hbase : basePos (p.refs ++ [m.ref]) none = basePos s.disk.refs (some m) :=
    flushed_publish p.refs hok hstarted
  refine ⟨none, w, ⟨?_, ?_, by simp, ?_, ?_, hholds.window⟩, ?_⟩
  . have hplan := hholds.plan
    simpa using hplan
  . rw [hp'.refs]
    exact hholds.comes.publish m.ref_level
  . intro _ log hlog r hr
    have heq : some m.log = some log := hfrozen.symm.trans hlog
    cases heq
    have hheight := congrArg Prod.snd hbase
    simp only [basePos] at hheight
    rw [hheight]
    exact hok.log r hr
  . rw [hbase]
    exact hholds.active
  . intro p' hp''
    cases hp''
    refine ⟨rfl, hp'.writer.sealNext (by simp [hcut]) rfl hbase, ?_⟩
    intro start span hspan
    rcases hp'.merging start span hspan with ⟨stop, hdue, hslice⟩
    rcases hholds.comes.merge hdue with ⟨-, -, -, -, -, -, -, hstop, -⟩
    refine ⟨stop, ?_, ?_⟩
    . rw [hp'.refs]
      exact hholds.comes.mergeSpanLocked_append hdue m.ref_level
    . rw [hp'.refs, take_append_of_le_length hstop]
      exact hslice

theorem Inv.sealNext (h : Inv cfg s) (hp : s.proc = some p) (hstep : s.sealNext cfg p = some s') : Inv cfg s' := by
  unfold Sys.sealNext at hstep
  split at hstep
  . contradiction
  . next m hcut =>
    cases hstep
    exact h.publish hp hcut
  . next m hcut =>
    cases hstep
    rcases h with ⟨pend, w, hholds, hproc⟩
    have hp' := hproc p hp
    have hpend : pend = none := by
      have := hp'.writer.cutOk (by simp [hcut])
      rw [hcut] at this
      exact this
    subst hpend
    refine ⟨none, w, ⟨hholds.plan, hholds.comes, by simp, by simp, hholds.active, hholds.window⟩, ?_⟩
    intro p' hp''
    cases hp''
    exact ⟨hp'.refs, hp'.writer.sealNext (by simp [hcut]) rfl rfl, hp'.merging⟩
  . next m hcut =>
    cases hstep
    rcases h with ⟨pend, w, hholds, hproc⟩
    have hp' := hproc p hp
    have hpend : pend = none := by
      have := hp'.writer.cutOk (by simp [hcut])
      rw [hcut] at this
      exact this
    subst hpend
    refine ⟨none, w, ⟨hholds.plan, hholds.comes, by simp, hholds.sealed, hholds.active, hholds.window⟩, ?_⟩
    intro p' hp''
    cases hp''
    have hwriter : WriterOk s.disk.refs p.mem none none w p.writer := hp'.writer.sealNext (by simp [hcut]) rfl rfl
    unfold Sys.maybeMerge
    split
    . next start stop hmerging hspan =>
      refine ⟨hp'.refs, hwriter, ?_⟩
      intro start' span hsome
      cases hsome
      rw [← hp'.refs]
      exact ⟨stop, hspan, rfl⟩
    . exact ⟨hp'.refs, hwriter, hp'.merging⟩

theorem flushed_merge {start stop : Nat} {run last : RunRef} (hlt : start < stop)
    (hlast : ((refs.take stop).drop start).getLast? = some last)
    (htx : run.toTx = last.toTx) (hheight : run.toHeight = last.toHeight)
    : flushedTx (refs.take start ++ [run] ++ refs.drop stop) = flushedTx refs ∧
        flushedHeight (refs.take start ++ [run] ++ refs.drop stop) = flushedHeight refs := by
  have hrefs : refs.take start ++ (refs.take stop).drop start ++ refs.drop stop = refs := by
    have htake : refs.take start = (refs.take stop).take start := by
      rw [take_take, Nat.min_eq_left (by omega)]
    rw [htake, take_append_drop, take_append_drop]
  have hget : refs.getLast? = ((refs.drop stop).getLast?).or (some last) := by
    rw [← hrefs, getLast?_append, getLast?_append, hlast]
    simp [hrefs]
  unfold flushedTx flushedHeight
  rw [hget, getLast?_append, getLast?_append, getLast?_singleton]
  cases (refs.drop stop).getLast? with
  | none => simp [htx, hheight]
  | some r => simp

theorem Inv.mergeSwap (h : Inv cfg s) (hp : s.proc = some p) (hstep : s.mergeSwap p = some s') : Inv cfg s' := by
  rcases h with ⟨pend, w, hholds, hproc⟩
  have hp' := hproc p hp
  unfold Sys.mergeSwap at hstep
  split at hstep
  . contradiction
  . next start span hmerging =>
    rcases hp'.merging start span hmerging with ⟨stop, hdue, rfl⟩
    rcases hholds.comes.merge hdue with ⟨run, last, hrun, hlast, htx, hheight, hlt, hle, hcomes⟩
    have hlen : start + ((s.disk.refs.take stop).drop start).length = stop := by
      rw [length_drop, length_take]
      omega
    have hslice : (s.disk.refs.drop start).take ((s.disk.refs.take stop).drop start).length =
        (s.disk.refs.take stop).drop start := by
      rw [drop_take]
      congr 1
      rw [length_take, length_drop]
      omega
    rw [hrun] at hstep
    dsimp only at hstep
    rw [hp'.refs, if_pos hslice, hlen] at hstep
    cases hstep
    rcases flushed_merge hlt hlast htx hheight with ⟨hftx, hfheight⟩
    have hbase : basePos (s.disk.refs.take start ++ [run] ++ s.disk.refs.drop stop) pend =
        basePos s.disk.refs pend := by
      cases pend with
      | none => simp only [basePos, hftx, hfheight]
      | some f => rfl
    refine ⟨pend, w, ⟨hholds.plan, hcomes, ?_, ?_, ?_, hholds.window⟩, ?_⟩
    . rw [hftx, hfheight]
      exact hholds.frozen
    . rw [hfheight]
      exact hholds.sealed
    . rw [hbase]
      exact hholds.active
    . intro p' hp''
      cases hp''
      refine ⟨rfl, ?_, by simp⟩
      have hwriter := hp'.writer
      cases hwr : p.writer with
      | idle =>
        rw [hwr] at hwriter
        exact hwriter
      | flush =>
        rw [hwr] at hwriter
        exact hwriter
      | renamed =>
        rw [hwr] at hwriter
        exact hwriter
      | opening baseTx baseHeight =>
        rw [hwr] at hwriter
        exact ⟨hwriter.1.trans hbase.symm, hwriter.2⟩

theorem Inv.reopen (h : Inv cfg s) : Inv cfg s.reopen := by
  rcases h with ⟨pend, w, hholds, -⟩
  unfold Sys.reopen
  dsimp only
  cases pend with
  | some f =>
    rcases hholds.frozen f rfl with ⟨hok, hstarted, hfrozen⟩
    rw [hfrozen]
    dsimp only
    rw [hok.recover, if_pos hstarted]
    refine ⟨some f, w, ⟨hholds.plan, hholds.comes, ?_, by simp, hholds.active, hholds.window⟩, ?_⟩
    . exact hholds.frozen
    . intro p hp'
      cases hp'
      exact ⟨rfl, ⟨rfl, rfl⟩, by simp⟩
  | none =>
    cases hfrozen : s.disk.frozen with
    | none =>
      refine ⟨none, w, ⟨hholds.plan, hholds.comes, by simp, hholds.sealed, hholds.active, hholds.window⟩, ?_⟩
      intro p hp'
      cases hp'
      exact ⟨rfl, ⟨rfl, rfl⟩, by simp⟩
    | some log =>
      dsimp only
      rw [Window.recover_of_below (hholds.sealed rfl log hfrozen)]
      refine ⟨none, w, ⟨hholds.plan, hholds.comes, by simp, by simp, hholds.active, hholds.window⟩, ?_⟩
      intro p hp'
      cases hp'
      exact ⟨rfl, ⟨rfl, rfl⟩, by simp⟩

theorem Inv.opened (h : Inv cfg s) (hp : s.proc = some p) (hstep : s.opened p = some s') : Inv cfg s' := by
  rcases h with ⟨pend, w, hholds, hproc⟩
  have hp' := hproc p hp
  unfold Sys.opened at hstep
  split at hstep
  . next baseTx baseHeight hw hcut =>
    cases hstep
    have hwriter := hp'.writer
    rw [hw] at hwriter
    rcases hwriter with ⟨hbase, hcutok⟩
    refine hholds.inv ⟨hp'.refs, ⟨?_, hcutok⟩, hp'.merging⟩
    have hactive := hholds.active.recover
    rw [← hbase] at hactive
    rw [hholds.window]
    exact hactive
  . contradiction

theorem inv_step (s : Sys) (e : Event) (s' : Sys) (h : Inv cfg s) (hcareful : Careful cfg s e)
    (hstep : s.step cfg e = some s') : Inv cfg s' := by
  unfold Sys.step at hstep
  split at hstep
  . cases hstep
    exact h.reopen
  . next p b hp => exact h.add hp (hcareful p hp) hstep
  . next p hp => exact h.maybeFlush hp hstep
  . next p hp => exact h.swap hp hstep
  . next p hp => exact h.sealNext hp hstep
  . next p hp => exact h.mergeSwap hp hstep
  . cases hstep
    rcases h with ⟨pend, w, hholds, -⟩
    refine ⟨pend, w, ⟨hholds.plan, hholds.comes, hholds.frozen, hholds.sealed, hholds.active, hholds.window⟩, ?_⟩
    intro p hp
    contradiction
  . next p hp => exact h.opened hp hstep
  . contradiction

def NeverKilled (_ : Sys) (e : Event) : Prop := e ≠ .kill

def Sys.Done (s : Sys) : Prop :=
  ∃ p, s.proc = some p ∧ p.writer = .idle ∧ p.cut = none ∧ p.merging = none

structure Sys.Settled (cfg : Config) (s : Sys) : Prop where
  window : ∀ p, s.proc = some p → p.mem.due cfg = false
  span : mergeSpanLocked cfg s.disk.refs = none

structure Prompt (cfg : Config) (s : Sys) : Prop where
  down : s.proc = none → s.disk.window = []
  opening : ∀ p baseTx baseHeight, s.proc = some p → p.writer = .opening baseTx baseHeight → s.disk.window = []
  idle : ∀ p, s.proc = some p → p.writer = .idle → p.mem.due cfg = false

theorem Prompt.congr (h : Prompt cfg s) {p p' : Proc} (hp : s.proc = some p)
    (hp' : s'.proc = some p') (hwriter : p'.writer = p.writer) (hmem : p'.mem = p.mem)
    (hwindow : s'.disk.window = s.disk.window) : Prompt cfg s' where
  down hnone := by
    rw [hp'] at hnone
    contradiction
  opening q baseTx baseHeight hq hw := by
    rw [hp'] at hq
    cases hq
    rw [hwindow]
    exact h.opening p baseTx baseHeight hp (by rw [← hwriter, hw])
  idle q hq hw := by
    rw [hp'] at hq
    cases hq
    rw [hmem]
    exact h.idle p hp (by rw [← hwriter, hw])

theorem prompt_of_idle (hp : s.proc = some p) (hw : p.writer = .idle)
    (hdue : p.mem.due cfg = false) : Prompt cfg s where
  down hnone := by
    rw [hp] at hnone
    contradiction
  opening q baseTx baseHeight hq hw' := by
    rw [hp] at hq
    cases hq
    rw [hw] at hw'
    contradiction
  idle q hq _ := by
    rw [hp] at hq
    cases hq
    exact hdue

theorem prompt_of_busy (hp : s.proc = some p)
    (hw : p.writer = .flush ∨ p.writer = .renamed) : Prompt cfg s where
  down hnone := by
    rw [hp] at hnone
    contradiction
  opening q baseTx baseHeight hq hw' := by
    rw [hp] at hq
    cases hq
    rw [hw'] at hw
    rcases hw with hw | hw <;> contradiction
  idle q hq hw' := by
    rw [hp] at hq
    cases hq
    rw [hw'] at hw
    rcases hw with hw | hw <;> contradiction

theorem Prompt.maybeFlush (hp : s.proc = some p) (hinv : Inv cfg s)
    (hstep : s.maybeFlush cfg p = some s') : Prompt cfg s' := by
  unfold Sys.maybeFlush at hstep
  split at hstep
  . next hw =>
    split at hstep
    . next hdue =>
      cases hstep
      exact prompt_of_idle rfl rfl (by simpa using hdue)
    . next hdue =>
      split at hstep
      . contradiction
      . split at hstep
        . next heq =>
          -- a window that has started holds a block
          rcases hinv with ⟨pend, w, hholds, hproc⟩
          have hwriter := (hproc p hp).writer
          rw [hw] at hwriter
          have hstarted : p.mem.started = true := by
            simp only [Window.due, Bool.not_eq_eq_eq_not, Bool.not_true, Bool.not_eq_false, Bool.and_eq_true] at hdue
            exact hdue.1
          have hok := hholds.active
          rw [← hwriter.1] at hok
          have := hok.started hstarted
          omega
        . cases hstep
          exact prompt_of_busy rfl (.inr rfl)
  . contradiction

theorem Prompt.step {e : Event} (h : Prompt cfg s) (hinv : Inv cfg s) (he : e ≠ .kill)
    (hstep : s.step cfg e = some s') : Prompt cfg s' := by
  unfold Sys.step at hstep
  split at hstep
  . next hp =>
    cases hstep
    have hwindow := h.down hp
    unfold Sys.reopen
    dsimp only
    split
    . exact ⟨by simp, fun _ _ _ _ _ => hwindow, by simp⟩
    . split
      . exact ⟨by simp, fun _ _ _ _ _ => hwindow, by simp⟩
      . exact ⟨by simp, fun _ _ _ _ _ => hwindow, by simp⟩
  . next p b hp =>
    unfold Sys.add at hstep
    split at hstep
    . split at hstep
      . cases hstep
        exact h
      . cases hstep
        exact prompt_of_busy rfl (.inl rfl)
      . cases hstep
        exact prompt_of_busy rfl (.inl rfl)
    . contradiction
  . next p hp => exact Prompt.maybeFlush hp hinv hstep
  . next p hp =>
    unfold Sys.swap at hstep
    split at hstep
    . cases hstep
      exact prompt_of_idle rfl rfl (Window.due_fresh _ _)
    . contradiction
  . next p hp =>
    unfold Sys.sealNext at hstep
    split at hstep
    . contradiction
    . cases hstep
      exact h.congr hp rfl rfl rfl rfl
    . cases hstep
      exact h.congr hp rfl rfl rfl rfl
    . cases hstep
      refine h.congr hp rfl ?_ ?_ rfl
      . unfold Sys.maybeMerge
        split <;> rfl
      . unfold Sys.maybeMerge
        split <;> rfl
  . next p hp =>
    unfold Sys.mergeSwap at hstep
    split at hstep
    . contradiction
    . split at hstep
      . cases hstep
        exact h.congr hp rfl rfl rfl rfl
      . split at hstep
        . cases hstep
          exact h.congr hp rfl rfl rfl rfl
        . cases hstep
          exact h.congr hp rfl rfl rfl rfl
  . contradiction
  . next p hp =>
    unfold Sys.opened at hstep
    split at hstep
    . next baseTx baseHeight hw hcut =>
      cases hstep
      refine prompt_of_idle rfl rfl ?_
      rw [h.opening p baseTx baseHeight hp hw]
      rfl
    . contradiction
  . contradiction

theorem careful_of_neverKilled (h : Reachable (Sys.step cfg) NeverKilled Sys.init s)
    : Reachable (Sys.step cfg) (Careful cfg) Sys.init s ∧ Prompt cfg s := by
  induction h with
  | init => exact ⟨.init, ⟨fun _ => rfl, by simp [Sys.init], by simp [Sys.init]⟩⟩
  | step _ he hstep ih =>
    rename_i s s' e _
    rcases ih with ⟨hreach, hprompt⟩
    have hinv := hreach.invariant inv_init inv_step
    refine ⟨.step hreach ?_ hstep, hprompt.step hinv he hstep⟩
    cases e with
    | add b =>
      intro p hp hdue
      have hw : p.writer = .idle := by
        unfold Sys.step at hstep
        simp only [hp] at hstep
        unfold Sys.add at hstep
        split at hstep
        . assumption
        . contradiction
      rw [hprompt.idle p hp hw] at hdue
      contradiction
    | maybeFlush => trivial
    | swap => trivial
    | sealStep => trivial
    | mergeSwap => trivial
    | kill => trivial
    | reopen => trivial
    | opened => trivial

theorem Inv.eq_plan (h : Inv cfg s) (hdone : s.Done) (hsettled : s.Settled cfg)
    : s.cuts = (plan cfg s.stored).1 ∧ s.disk.refs = terminals cfg (plan cfg s.stored).1 := by
  rcases h with ⟨pend, w, hholds, hproc⟩
  rcases hdone with ⟨p, hp, hw, hcut, -⟩
  have hwriter := (hproc p hp).writer
  rw [hw, hcut] at hwriter
  rcases hwriter with ⟨hmem, hpend⟩
  have hnone : pend = none := hpend
  subst hnone
  have hdue := hsettled.window p hp
  rw [hmem] at hdue
  have hplan := hholds.plan
  rw [close_of_not_due hdue] at hplan
  have hcuts : (plan cfg s.stored).1 = s.cuts := by
    rw [hplan]
    simp
  rw [hcuts]
  exact ⟨rfl, hholds.comes.eq hsettled.span⟩

/--
A builder that adds no block to a window past its trigger ends with the boundaries of one that is never
interrupted, wherever it was killed.
-/
theorem boundaries_eq_uninterrupted {s u : Sys} (hs : Reachable (Sys.step cfg) (Careful cfg) Sys.init s)
    (hu : Reachable (Sys.step cfg) NeverKilled Sys.init u) (hstored : s.stored = u.stored)
    (hdone : s.Done) (hdone' : u.Done) (hsettled : s.Settled cfg) (hspan : mergeSpanLocked cfg u.disk.refs = none)
    : s.cuts = u.cuts ∧ s.disk.refs = u.disk.refs := by
  rcases careful_of_neverKilled hu with ⟨hu, hprompt⟩
  have hsettled' : u.Settled cfg := by
    rcases hdone' with ⟨p, hp, hw, -, -⟩
    refine ⟨?_, hspan⟩
    intro q hq
    rw [hp] at hq
    cases hq
    exact hprompt.idle p hp hw
  have hplan := (hs.invariant inv_init inv_step).eq_plan hdone hsettled
  have hplan' := (hu.invariant inv_init inv_step).eq_plan hdone' hsettled'
  rw [hstored] at hplan
  exact ⟨hplan.1.trans hplan'.1.symm, hplan.2.trans hplan'.2.symm⟩

def cutting (b : Blk) : List Event := [.add b, .maybeFlush, .swap, .sealStep, .sealStep, .sealStep]

def uninterrupted : List Event :=
  [.reopen, .opened] ++ cutting ⟨1, 500000⟩ ++ [.add ⟨2, 7⟩, .maybeFlush]

theorem neverKilled_uninterrupted (e : Event) (he : e ∈ uninterrupted) (s : Sys) : NeverKilled s e := by
  rintro rfl
  simp [uninterrupted, cutting] at he

def Sys.boundaries (cfg : Config) (s : Sys) : List Blk × List RunRef × List RunRef × Bool :=
  (s.stored, s.cuts, s.disk.refs,
    match s.proc with
    | some ⟨_, mem, _, .idle, none, none⟩ =>
      !mem.due cfg && (mergeSpanLocked cfg s.disk.refs).isNone
    | _ => false)

theorem Sys.done_of_boundaries {bs : List Blk} (h : s.boundaries cfg = (bs, cuts, refs, true))
    : s.stored = bs ∧ s.cuts = cuts ∧ s.disk.refs = refs ∧ s.Done ∧ s.Settled cfg := by
  simp only [Sys.boundaries, Prod.mk.injEq] at h
  rcases h with ⟨hbs, hcuts, hrefs, hdone⟩
  split at hdone
  . next mem _ hp =>
    rw [Bool.and_eq_true, Option.isNone_iff_eq_none] at hdone
    refine ⟨hbs, hcuts, hrefs, ⟨_, hp, rfl, rfl, rfl⟩, ?_, hdone.2⟩
    intro p hp'
    rw [hp] at hp'
    cases hp'
    simpa using hdone.1
  . contradiction

def killedBeforeCut : List Event :=
  [.reopen, .opened, .add ⟨1, 500000⟩, .kill, .reopen, .opened] ++ cutting ⟨2, 7⟩

theorem boundaries_moved_by_kill
    : ∃ s u, Reachable (Sys.step mainnet) (fun _ _ => True) Sys.init s ∧
        Reachable (Sys.step mainnet) NeverKilled Sys.init u ∧
        (s.Done ∧ s.Settled mainnet) ∧ (u.Done ∧ u.Settled mainnet) ∧
        s.stored = [⟨1, 500000⟩, ⟨2, 7⟩] ∧ u.stored = [⟨1, 500000⟩, ⟨2, 7⟩] ∧
        s.cuts = [⟨0, 500009, 1, 2, 0⟩] ∧ u.cuts = [⟨0, 500001, 1, 1, 0⟩] := by
  have hkilled : (Transition.run (Sys.step mainnet) Sys.init killedBeforeCut).map (Sys.boundaries mainnet) =
      some ([⟨1, 500000⟩, ⟨2, 7⟩], [⟨0, 500009, 1, 2, 0⟩], [⟨0, 500009, 1, 2, 0⟩], true) := by decide +kernel
  have hnever : (Transition.run (Sys.step mainnet) Sys.init uninterrupted).map (Sys.boundaries mainnet) =
      some ([⟨1, 500000⟩, ⟨2, 7⟩], [⟨0, 500001, 1, 1, 0⟩], [⟨0, 500001, 1, 1, 0⟩], true) := by decide +kernel
  rw [Option.map_eq_some_iff] at hkilled hnever
  rcases hkilled with ⟨s, hs, hsb⟩
  rcases hnever with ⟨u, hu, hub⟩
  rcases Sys.done_of_boundaries hsb with ⟨hstored, hcuts, -, hdone, hsettled⟩
  rcases Sys.done_of_boundaries hub with ⟨hstored', hcuts', -, hdone', hsettled'⟩
  refine ⟨s, u, ?_, ?_, ⟨hdone, hsettled⟩, ⟨hdone', hsettled'⟩, hstored, hstored', hcuts, hcuts'⟩
  . exact Reachable.init.run (fun _ _ _ => trivial) hs
  . exact Reachable.init.run neverKilled_uninterrupted hu

def killedAndResubmitted : List Event :=
  [.reopen, .opened, .add ⟨1, 500000⟩, .kill, .reopen, .opened] ++ cutting ⟨1, 500000⟩ ++
    [.add ⟨2, 7⟩, .maybeFlush]

def careful (cfg : Config) (s : Sys) : Event → Bool
  | .add b => s.proc.all (fun p => !p.mem.due cfg || b.height < p.mem.nextHeight)
  | _ => true

theorem careful_iff (s : Sys) (e : Event) (h : careful cfg s e = true) : Careful cfg s e := by
  cases e with
  | add b =>
    intro p hp hdue
    rw [careful, hp] at h
    simpa [hdue] using h
  | _ => trivial

theorem boundaries_eq_resubmitted
    : ∃ s u, Reachable (Sys.step mainnet) (Careful mainnet) Sys.init s ∧
        Reachable (Sys.step mainnet) NeverKilled Sys.init u ∧
        s.stored = [⟨1, 500000⟩, ⟨2, 7⟩] ∧ s.cuts = u.cuts ∧ s.disk.refs = u.disk.refs ∧
        u.cuts = [⟨0, 500001, 1, 1, 0⟩] := by
  have hkilled : (Transition.run (fun s e => if careful mainnet s e then Sys.step mainnet s e else none)
      Sys.init killedAndResubmitted).map (Sys.boundaries mainnet) =
      some ([⟨1, 500000⟩, ⟨2, 7⟩], [⟨0, 500001, 1, 1, 0⟩], [⟨0, 500001, 1, 1, 0⟩], true) := by decide +kernel
  have hnever : (Transition.run (Sys.step mainnet) Sys.init uninterrupted).map (Sys.boundaries mainnet) =
      some ([⟨1, 500000⟩, ⟨2, 7⟩], [⟨0, 500001, 1, 1, 0⟩], [⟨0, 500001, 1, 1, 0⟩], true) := by decide +kernel
  rw [Option.map_eq_some_iff] at hkilled hnever
  rcases hkilled with ⟨s, hs, hsb⟩
  rcases hnever with ⟨u, hu, hub⟩
  rcases Sys.done_of_boundaries hsb with ⟨hstored, -, -, hdone, hsettled⟩
  rcases Sys.done_of_boundaries hub with ⟨hstored', hcuts', -, hdone', hsettled'⟩
  have hreach := Reachable.run_checked careful_iff .init hs
  have hreach' := Reachable.init.run neverKilled_uninterrupted hu
  have heq := boundaries_eq_uninterrupted hreach hreach' (hstored.trans hstored'.symm) hdone hdone' hsettled
    hsettled'.span
  exact ⟨s, u, hreach, hreach', hstored, heq.1, heq.2, hcuts'⟩

end EpochDB.Store.Builder
