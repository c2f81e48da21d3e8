import EpochDB.Store.Mem.Replay

/-!
What a window keeps while blocks are added to it and writes fail: its log holds its complete blocks,
its rows were made by them, and a window whose write broke off takes no further block.
-/

namespace EpochDB.Store

open List EStateM

def Made (r : Rows) (g : LogBlock) : Prop :=
  ∃ pre post, (Pend.commit (pre ++ g.muts ++ post)).run Rows.empty = .ok () r

theorem Made.commit {r r' : Rows} {g : LogBlock} (h : Made r g) {ps : List Pend}
    (hrun : (Pend.commit ps).run r = .ok () r') : Made r' g := by
  rcases h with ⟨pre, post, hmade⟩
  refine ⟨pre, post ++ ps, ?_⟩
  rw [← append_assoc]
  exact commit_append hmade hrun

structure Ascending (bl : List LogBlock) : Prop where
  sorted : bl.Pairwise (fun g g' => g.height < g'.height)
  height_lt : ∀ g ∈ bl, g.height.toNat + 1 < 2 ^ 64

theorem Ascending.of_isPrefix {bl bl' : List LogBlock} (h : Ascending bl') (hp : bl <+: bl')
    : Ascending bl where
  sorted := h.sorted.sublist hp.sublist
  height_lt g hg := h.height_lt g (hp.subset hg)

theorem Ascending.append_singleton {bl : List LogBlock} (h : Ascending bl) {g : LogBlock}
    (hlt : ∀ g' ∈ bl, g'.height < g.height) (hg : g.height.toNat + 1 < 2 ^ 64)
    : Ascending (bl ++ [g]) where
  sorted := by
    rw [pairwise_append]
    exact ⟨h.sorted, pairwise_singleton _ _, by simpa using hlt⟩
  height_lt g' hg' := by
    rw [mem_append, mem_singleton] at hg'
    cases hg' with
    | inl hg' => exact h.height_lt g' hg'
    | inr hg' => rwa [hg']

theorem add_one_ne (n : UInt64) : n + 1 ≠ n := by
  intro h
  rw [UInt64.add_eq_left] at h
  cases h

theorem toNat_add_one {n : UInt64} (h : n.toNat + 1 < 2 ^ 64) : (n + 1).toNat = n.toNat + 1 := by
  rw [UInt64.toNat_add]
  exact Nat.mod_eq_of_lt h

namespace Memtable

structure Ready (m : Memtable) : Prop where
  bwErr : m.bwErr = false
  pos : m.pos = m.log.length
  flushed : m.flushed = m.pos
  closed : Closed m.log

structure Jammed (m : Memtable) : Prop where
  bwErr : m.bwErr = false
  pos : m.pos = m.log.length
  started : m.started = true
  set : (m.chain .blk).set = true
  next : (m.chain .blk).next ≠ m.nextHeight
  rest : ∃ log fs ps, m.log = log ++ Frame.encodeAll fs ∧ Closed log ∧ Defers fs log.length ps

structure Stuck (m : Memtable) : Prop where
  bwErr : m.bwErr = true
  started : m.started = true

structure Live (m : Memtable) : Prop where
  readOnly : m.readOnly = false
  grown : ∃ ps, (Pend.commit ps).run Rows.empty = .ok () m.toRows
  whole : Whole m.log
  ascending : Ascending (logBlocks m.log)
  below : ∀ g ∈ logBlocks m.log, g.height < m.nextHeight
  made : ∀ g ∈ logBlocks m.log, m.baseHeight ≤ g.height → Made m.toRows g
  base : m.baseHeight ≤ m.nextHeight
  idle : m.started = false → m.baseHeight = m.nextHeight
  flushed_le : m.flushed ≤ m.pos
  write : Ready m ∨ Jammed m ∨ Stuck m

structure Keeps (m : Memtable) (g : LogBlock) : Prop where
  mem : g ∈ logBlocks m.log
  stop : g.stop ≤ m.flushed
  base : m.baseHeight ≤ g.height

structure Extends (m m' : Memtable) : Prop where
  live : Live m'
  path : m'.path = m.path
  base : m.baseHeight ≤ m'.baseHeight
  flushed : m.flushed ≤ m'.flushed
  blocks : logBlocks m.log <+: logBlocks m'.log
  floor : (∀ g ∈ logBlocks m.log, m.baseHeight ≤ g.height) →
    ∀ g ∈ logBlocks m'.log, m'.baseHeight ≤ g.height
  keeps : ∀ g, Keeps m g → Keeps m' g

theorem Extends.refl {m : Memtable} (h : Live m) : Extends m m where
  live := h
  path := rfl
  base := UInt64.le_refl _
  flushed := Nat.le_refl _
  blocks := prefix_rfl
  floor h := h
  keeps _ hg := hg

section

variable {crypto : Crypto} {file : LogFile}

variable {fam : Fam} {num : UInt64} {off n : Nat} {r r' : Rows} {e : String} {ps : List Pend} {fs : List Frame}
  {b : BlockWrite} {m m' : Memtable}

theorem addChain_run (h : (Rows.addChain fam num off n).run r = .ok () r')
    : ((r.chain fam).start num).next = num ∧
      r' = r.setChain fam (((r.chain fam).start num).push off (UInt32.ofNat n)) := by
  simp only [Rows.addChain, run_bind, run_get, run_modify] at h
  split at h
  . contradiction
  . next hnext =>
    simp only [ne_eq, Decidable.not_not] at hnext
    cases h
    refine ⟨hnext.symm, ?_⟩
    simp [Rows.setChain]

theorem addChain_eq_ok (h : (Rows.addChain fam num off n).run r = .ok () r')
    : ((r.chain fam).set = true → (r.chain fam).next = num) ∧
      (r'.chain fam).set = true ∧ (r'.chain fam).next = num + 1 := by
  rcases addChain_run h with ⟨hnext, rfl⟩
  refine ⟨?_, ?_, ?_⟩
  . intro hset
    rw [ChainIndex.start_of_set hset] at hnext
    exact hnext
  . simp [Rows.setChain, ChainIndex.push]
  . simp only [Rows.setChain, Function.update_self, ChainIndex.push, ChainIndex.next,
      length_append, length_singleton] at hnext ⊢
    conv => rhs; rw [← hnext]
    rw [UInt64.ofNat_add, UInt64.add_assoc]
    rfl

theorem addChain_eq_error (h : (Rows.addChain fam num off n).run r = .error e r')
    : (r'.chain fam).set = true ∧ (r'.chain fam).next ≠ num := by
  have hr : r' = r := Pend.run_eq_error (p := .chain fam num off n) h
  subst hr
  simp only [Rows.addChain, run_bind, run_get, run_modify] at h
  split at h
  . next hnext =>
    have hset : (r'.chain fam).set = true := by
      by_contra hset
      exact hnext (ChainIndex.next_start_of_unset (by simpa using hset) num).symm
    rw [ChainIndex.start_of_set hset] at hnext
    exact ⟨hset, Ne.symm hnext⟩
  . contradiction

theorem chain_blk_of_run {p : Pend} (h : p.run.run r = .ok () r')
    (hp : ∀ num off n, p ≠ .chain .blk num off n) : r'.chain .blk = r.chain .blk := by
  cases p with
  | chain fam num off n =>
    have hfam : Fam.blk ≠ fam := by
      rintro rfl
      exact hp num off n rfl
    simp only [Pend.run, Rows.addChain, run_bind, run_get, run_modify] at h
    split at h
    . contradiction
    . cases h
      simp [Rows.setChain, hfam]
  | state key num val =>
    cases h
    simp only [Rows.putState]
    split <;> [split; skip] <;> rfl
  | pad next =>
    cases h
    rfl
  | _ =>
    cases h
    rfl

theorem chain_blk_of_commit (h : (Pend.commit ps).run r = .ok () r')
    (hp : ∀ p ∈ ps, ∀ num off n, p ≠ .chain .blk num off n) : r'.chain .blk = r.chain .blk := by
  induction ps generalizing r with
  | nil =>
    cases h
    rfl
  | cons p ps ih =>
    unfold Pend.commit at h ih
    rw [run_forM_cons, run_bind_eq_ok] at h
    rcases h with ⟨_, r1, h1, h2⟩
    rw [ih h2 (fun q hq => hp q (by simp [hq]))]
    exact chain_blk_of_run h1 (hp p (by simp))

theorem ne_blk_of_defers (h : Defers fs off ps)
    (hfs : ∀ f ∈ fs, IsRest f) : ∀ p ∈ ps, ∀ num off n, p ≠ .chain .blk num off n := by
  induction fs generalizing off ps with
  | nil =>
    cases h
    simp
  | cons f fs ih =>
    rcases h with ⟨-, p, ps', hp, hrest, rfl⟩
    intro q hq num body n
    rw [mem_cons] at hq
    cases hq with
    | inr hq => exact ih hrest (fun g hg => hfs g (by simp [hg])) q hq num body n
    | inl hq =>
      rintro rfl
      subst hq
      exact hfs f (by simp) (Pend.kind_of_ofFrame_chain hp)

theorem addRows_eq_ok {first : UInt64} (h : (addRows crypto file b first).run m = .ok () m')
    : m.bwErr = false ∧ ((m.chain .blk).set = true → (m.chain .blk).next = b.height) := by
  unfold addRows at h
  rw [run_bind_eq_ok] at h
  rcases h with ⟨_, m1, hblk, -⟩
  unfold chainRow at hblk
  rw [run_bind_eq_ok] at hblk
  rcases hblk with ⟨res, m2, hwrite, hlift⟩
  rcases write_eq_ok hwrite with ⟨hbw, rfl, rfl⟩
  rw [liftRows_eq_ok] at hlift
  rcases hlift with ⟨r, hrun, -⟩
  exact ⟨hbw, (addChain_eq_ok hrun).1⟩

theorem addRows_eq_error (hfit : b.RowsFit) {first : UInt64} (h : (addRows crypto file b first).run m = .error e m')
    : m'.bwErr = true ∨ (m'.chain .blk).set = true ∧ (m'.chain .blk).next ≠ b.height := by
  unfold addRows at h
  rw [run_bind_eq_error] at h
  rcases h with hblk | ⟨_, m1, hblk, hrest⟩
  . unfold chainRow at hblk
    rw [run_bind_eq_error] at hblk
    rcases hblk with hwrite | ⟨res, m2, hwrite, hlift⟩
    . rcases write_eq_error hwrite with ⟨hbw, rfl⟩ | ⟨-, -, rfl⟩
      . exact .inl hbw
      . exact .inl rfl
    . right
      unfold liftRows at hlift
      simp only [EStateM.run] at hlift
      split at hlift
      . contradiction
      . next hrun =>
        cases hlift
        exact addChain_eq_error hrun
  . unfold chainRow at hblk
    rw [run_bind_eq_ok] at hblk
    rcases hblk with ⟨res, m2, hwrite, hlift⟩
    rw [liftRows_eq_ok] at hlift
    rcases hlift with ⟨r, hrun, rfl⟩
    rcases addChain_eq_ok hrun with ⟨-, hset, hnext⟩
    rcases (writesRows_addRest hfit _).2 _ _ hrest
      with ⟨fs, hfs, ps, qs, r', pos, bwErr, hdef, hqs, hcommit, -, -, rfl⟩
    right
    have hne := ne_blk_of_defers hdef hfs
    have hblk : r'.chain .blk = r.chain .blk :=
      chain_blk_of_commit hcommit (fun p hp => hne p (hqs.subset hp))
    simp only [hblk, hset, hnext, true_and]
    exact add_one_ne _

theorem appendBlock_eq_error (hfit : b.RowsFit) (h : (appendBlock crypto file b).run m = .error e m')
    : (∃ fs, Broke m fs m' ∧
        (m'.bwErr = true ∨ (m'.chain .blk).set = true ∧ (m'.chain .blk).next ≠ b.height)) ∨
      (m.bwErr = false ∧ ((m.chain .blk).set = true → (m.chain .blk).next = b.height) ∧
        ∃ fs ps r nextTx pos,
          Defers fs m.pos ps ∧
          (Pend.commit (ps ++ [.pad nextTx])).run m.toRows = .ok () r ∧
          m.pos ≤ pos ∧
          m' = { m with
            toRows := r, nextTx := nextTx, nextHeight := b.height + 1, pos := pos, bwErr := true
            log := m.log ++ blockBytes fs b.height nextTx }) := by
  unfold appendBlock at h
  rw [run_bind_of_ok (run_get m)] at h
  rw [run_bind_eq_error] at h
  rcases h with hrows | ⟨_, m1, hrows, h⟩
  . left
    rcases (traces_addRows hfit _).2 _ _ hrows with ⟨fs, -, hbroke⟩
    exact ⟨fs, hbroke, addRows_eq_error hfit hrows⟩
  . right
    rcases addRows_eq_ok hrows with ⟨hbw, hchain⟩
    refine ⟨hbw, hchain, ?_⟩
    rcases (traces_addRows hfit _).1 _ _ hrows with ⟨fs, -, ps, r, hdef, hrun, rfl⟩
    generalize m.nextTx + UInt64.ofNat b.txs.length + 1 = nextTx at h
    have hcommit : (Pend.commit (ps ++ [.pad nextTx])).run m.toRows = .ok () (r.padTo nextTx) :=
      commit_append hrun rfl
    rw [run_bind_of_ok (liftRows_eq_ok.mpr ⟨r.padTo nextTx, rfl, rfl⟩)] at h
    rw [run_bind_of_ok (run_modify _ _)] at h
    rw [run_bind_eq_error] at h
    rcases h with hend | ⟨res, m2, hend, hflush⟩
    . rcases write_eq_error hend with ⟨hbw', -⟩ | ⟨-, -, rfl⟩
      . simp [hbw] at hbw'
      . refine ⟨fs, ps, _, nextTx, m.pos + (Frame.encodeAll fs).length, hdef, hcommit, by omega, ?_⟩
        simp [endFrame]
    . rcases write_eq_ok hend with ⟨-, -, rfl⟩
      rw [(flushLocked_eq_error hflush).1]
      refine ⟨fs, ps, _, nextTx, m.pos + (Frame.encodeAll fs).length + Frame.headerSize +
        (Bytes.putUint64 nextTx).length, hdef, hcommit, by omega, ?_⟩
      simp [endFrame]

theorem appendBlock_of_bwErr (crypto : Crypto) (file : LogFile) (b : BlockWrite) (h : m.bwErr = true)
    : ∃ e, (appendBlock crypto file b).run m = .error e m := by
  have hwrite : ∀ kind num payload, ∃ e, (Memtable.write file kind num payload).run m = .error e m := by
    intro kind num payload
    unfold Memtable.write
    rw [run_bind_of_ok (run_get m), if_pos h]
    exact ⟨_, rfl⟩
  rcases hwrite (.chain .blk) b.height
    (Bytes.putUint64 m.nextTx ++ Bytes.putUint32 (UInt32.ofNat b.txs.length)) with ⟨e, hwrite⟩
  refine ⟨e, ?_⟩
  unfold appendBlock
  rw [run_bind_of_ok (run_get m)]
  apply run_bind_of_error
  unfold addRows
  apply run_bind_of_error
  unfold chainRow
  apply run_bind_of_error
  exact hwrite

theorem Extends.trans {m m' m'' : Memtable} (h : Extends m m') (h' : Extends m' m'')
    : Extends m m'' where
  live := h'.live
  path := h'.path.trans h.path
  base := UInt64.le_trans h.base h'.base
  flushed := Nat.le_trans h.flushed h'.flushed
  blocks := h.blocks.trans h'.blocks
  floor hm := h'.floor (h.floor hm)
  keeps g hg := h'.keeps g (h.keeps g hg)

theorem Live.begun (h : Live m) {height : UInt64} (hge : m.nextHeight ≤ height)
    (hstart : m.started = true → height = m.nextHeight) : Extends m (m.begun height) := by
  have hbelow : ∀ g ∈ logBlocks m.log, g.height < height :=
    fun g hg => UInt64.lt_of_lt_of_le (h.below g hg) hge
  cases hs : m.started with
  | true =>
    rw [hstart hs, begun_of_started hs]
    exact .refl h
  | false =>
    have hbase : (m.begun height).baseHeight = height := by simp [Memtable.begun, hs]
    have hlt : ∀ g ∈ logBlocks m.log, ¬ height ≤ g.height := by
      intro g hg hle
      have := hbelow g hg
      rw [UInt64.lt_iff_toNat_lt] at this
      rw [UInt64.le_iff_toNat_le] at hle
      omega
    refine ⟨⟨h.readOnly, h.grown, h.whole, h.ascending, hbelow, ?_, ?_, ?_, h.flushed_le, ?_⟩, rfl, ?_,
      Nat.le_refl _, prefix_rfl, ?_, ?_⟩
    . intro g hg hle
      rw [hbase] at hle
      exact absurd hle (hlt g hg)
    . rw [hbase]
      exact UInt64.le_refl _
    . intro hidle
      simp [Memtable.begun] at hidle
    . rcases h.write with hready | hjam | hstuck
      . exact .inl ⟨hready.bwErr, hready.pos, hready.flushed, hready.closed⟩
      . exact absurd hjam.started (by simp [hs])
      . exact absurd hstuck.started (by simp [hs])
    . rw [hbase, h.idle hs]
      exact hge
    . intro hfloor g hg
      have hle := hfloor g hg
      rw [h.idle hs] at hle
      exact absurd (h.below g hg) (UInt64.not_lt.mpr hle)
    . intro g hg
      have hle := hg.base
      rw [h.idle hs] at hle
      exact absurd (h.below g hg.mem) (UInt64.not_lt.mpr hle)

theorem Live.land_block (h : Live m) (hready : Ready m) (hb : b.HasNext) (hheight : b.height = m.nextHeight)
    {nextTx : UInt64} (hdef : Defers fs m.pos ps)
    (hcommit : (Pend.commit (ps ++ [.pad nextTx])).run m.toRows = .ok () r)
    {pos flushed : Nat} {bwErr : Bool}
    (hm' : m' = { m with
      toRows := r, nextTx := nextTx, nextHeight := b.height + 1, started := true
      log := m.log ++ blockBytes fs b.height nextTx
      pos := pos, flushed := flushed, bwErr := bwErr })
    (hflushed : flushed ≤ pos) (hle : m.flushed ≤ flushed)
    (hwrite : Ready m' ∨ Stuck m')
    : Extends m m' ∧
      logBlocks m'.log = logBlocks m.log ++
        [⟨b.height, nextTx, ps,
          m.log.length + (blockBytes fs b.height nextTx).length⟩] := by
  rw [hready.pos] at hdef
  rcases hready.closed.append_block hdef b.height nextTx with ⟨hclosed, hblocks⟩
  generalize hg : (⟨b.height, nextTx, ps,
    m.log.length + (blockBytes fs b.height nextTx).length⟩ : LogBlock) = g
    at hblocks ⊢
  have hgh : g.height = b.height := by rw [← hg]
  have hgm : g.muts = ps ++ [.pad nextTx] := by rw [← hg]; rfl
  have hlog : logBlocks m'.log = logBlocks m.log ++ [g] := by rw [hm']; exact hblocks
  have hnext : (b.height + 1).toNat = b.height.toNat + 1 := toNat_add_one hb
  have hlt : b.height < b.height + 1 := by
    rw [UInt64.lt_iff_toNat_lt, hnext]
    omega
  have hbelow : ∀ g' ∈ logBlocks m.log, g'.height < g.height := by
    intro g' hg'
    rw [hgh, hheight]
    exact h.below g' hg'
  refine ⟨⟨⟨?_, ?_, ?_, ?_, ?_, ?_, ?_, ?_, ?_, ?_⟩, ?_, ?_, ?_, ?_, ?_, ?_⟩, hlog⟩
  . rw [hm']
    exact h.readOnly
  . rcases h.grown with ⟨qs, hqs⟩
    rw [hm']
    exact ⟨_, commit_append hqs hcommit⟩
  . rw [hm']
    exact h.whole.append (fit_block hdef)
  . rw [hlog]
    exact h.ascending.append_singleton hbelow (by rw [hgh]; exact hb)
  . intro g' hg'
    have hnx : m'.nextHeight = b.height + 1 := by rw [hm']
    rw [hlog, mem_append, mem_singleton] at hg'
    rw [hnx]
    cases hg' with
    | inl hg' =>
      have := hbelow g' hg'
      rw [hgh] at this
      exact UInt64.lt_trans this hlt
    | inr hg' =>
      rw [hg', hgh]
      exact hlt
  . intro g' hg' hbase
    rw [hlog, mem_append, mem_singleton] at hg'
    have hrows : m'.toRows = r := by rw [hm']
    have hb : m'.baseHeight = m.baseHeight := by rw [hm']
    rw [hb] at hbase
    rw [hrows]
    cases hg' with
    | inl hg' => exact (h.made g' hg' hbase).commit hcommit
    | inr hg' =>
      rcases h.grown with ⟨qs, hqs⟩
      refine ⟨qs, [], ?_⟩
      rw [hg', hgm, append_nil]
      exact commit_append hqs hcommit
  . rw [hm']
    have := h.base
    rw [← hheight] at this
    exact UInt64.le_of_lt (UInt64.lt_of_le_of_lt this hlt)
  . intro hidle
    rw [hm'] at hidle
    contradiction
  . rw [hm']
    exact hflushed
  . rcases hwrite with hw | hw
    . exact .inl hw
    . exact .inr (.inr hw)
  . rw [hm']
  . rw [hm']
    exact UInt64.le_refl _
  . rw [hm']
    exact hle
  . rw [hlog]
    exact prefix_append _ _
  . intro hfloor g' hg'
    have hb : m'.baseHeight = m.baseHeight := by rw [hm']
    rw [hlog, mem_append, mem_singleton] at hg'
    rw [hb]
    cases hg' with
    | inl hg' => exact hfloor g' hg'
    | inr hg' =>
      rw [hg', hgh, hheight]
      exact h.base
  . intro g' hg'
    refine ⟨?_, ?_, ?_⟩
    . rw [hlog, mem_append]
      exact .inl hg'.mem
    . have : m'.flushed = flushed := by rw [hm']
      rw [this]
      exact Nat.le_trans hg'.stop hle
    . rw [hm']
      exact hg'.base

theorem Live.broke (h : Live m) (hstart : m.started = true) (hbroke : Broke m fs m') (hbw : m.bwErr = false)
    (hjam : m'.bwErr = true ∨ (m'.chain .blk).set = true ∧ (m'.chain .blk).next ≠ m.nextHeight)
    : Extends m m' := by
  rcases hbroke with ⟨ps, qs, r, pos, bwErr, hdef, -, hcommit, hpos, herr, rfl⟩
  -- the log is a closed one and rows behind it, before and after
  have hrest : ∃ log gs ps', m.log ++ Frame.encodeAll fs = log ++ Frame.encodeAll gs ∧ Closed log ∧
      Defers gs log.length ps' ∧ logBlocks (m.log ++ Frame.encodeAll fs) = logBlocks m.log := by
    rcases h.write with hready | hjam | hstuck
    . rw [hready.pos] at hdef
      exact ⟨m.log, fs, ps, rfl, hready.closed, hdef, hready.closed.logBlocks_append_defers hdef⟩
    . rcases hjam.rest with ⟨log, js, ps', hlog, hclosed, hjs⟩
      have hoff : m.pos = log.length + (Frame.encodeAll js).length := by
        rw [hjam.pos, hlog, length_append]
      rw [hoff] at hdef
      have happ := hjs.append hdef
      refine ⟨log, js ++ fs, ps' ++ ps, ?_, hclosed, happ, ?_⟩
      . rw [hlog, Frame.encodeAll_append, append_assoc]
      . rw [hlog, append_assoc, ← Frame.encodeAll_append]
        rw [hclosed.logBlocks_append_defers happ, hclosed.logBlocks_append_defers hjs]
    . rw [hstuck.bwErr] at hbw
      contradiction
  rcases hrest with ⟨log, gs, ps', hlog, hclosed, hgs, hblocks⟩
  have hlen : bwErr = false → pos = (m.log ++ Frame.encodeAll fs).length := by
    intro hfalse
    rw [hfalse] at herr
    rcases herr with herr | ⟨-, herr⟩
    . contradiction
    . rw [herr, length_append]
      rcases h.write with hready | hjam | hstuck
      . rw [hready.pos]
      . rw [hjam.pos]
      . rw [hstuck.bwErr] at hbw
        contradiction
  refine ⟨⟨h.readOnly, ?_, h.whole.append (fit_of_defers hdef), ?_, ?_, ?_, h.base, h.idle, ?_, ?_⟩, rfl,
    UInt64.le_refl _, Nat.le_refl _, ?_, ?_, ?_⟩
  . rcases h.grown with ⟨ps0, hps0⟩
    exact ⟨_, commit_append hps0 hcommit⟩
  . simp only [hblocks]
    exact h.ascending
  . simp only [hblocks]
    exact h.below
  . simp only [hblocks]
    intro g hg hbase
    exact (h.made g hg hbase).commit hcommit
  . exact Nat.le_trans h.flushed_le hpos
  . cases hb : bwErr with
    | true => exact .inr (.inr ⟨rfl, hstart⟩)
    | false =>
      rw [hb] at hjam
      rcases hjam with hjam | ⟨hset, hnext⟩
      . contradiction
      . exact .inr (.inl ⟨rfl, hlen hb, hstart, hset, hnext, log, gs, ps', hlog, hclosed, hgs⟩)
  . simp only [hblocks]
    exact prefix_rfl
  . simp only [hblocks]
    exact id
  . intro g hg
    refine ⟨?_, hg.stop, hg.base⟩
    simp only [hblocks]
    exact hg.mem

theorem Live.ready_of_chain (h : Live m) (hbw : m.bwErr = false)
    (hchain : (m.chain .blk).set = true → (m.chain .blk).next = m.nextHeight) : Ready m := by
  rcases h.write with hready | hjam | hstuck
  . exact hready
  . exact absurd (hchain hjam.set) hjam.next
  . rw [hstuck.bwErr] at hbw
    contradiction

theorem Live.appendBlock_ok (hfit : b.Replayable) (h : Live m) (hstart : m.started = true) (hheight : b.height = m.nextHeight)
    (hrun : (appendBlock crypto file b).run m = .ok () m')
    : Extends m m' ∧ ∃ g, logBlocks m'.log = logBlocks m.log ++ [g] ∧ Keeps m' g := by
  have hrows := hrun
  unfold appendBlock at hrows
  rw [run_bind_of_ok (run_get m), run_bind_eq_ok] at hrows
  rcases hrows with ⟨_, m1, hrows, -⟩
  rcases addRows_eq_ok hrows with ⟨hbw, hchain⟩
  rw [hheight] at hchain
  have hready := h.ready_of_chain hbw hchain
  rcases appendBlock_eq_ok hfit.rows hrun with ⟨fs, ps, r, nextTx, -, hdef, hcommit, hm'⟩
  have hlen : m.pos + (blockBytes fs b.height nextTx).length =
      (m.log ++ blockBytes fs b.height nextTx).length := by
    rw [hready.pos, length_append]
  have hdef' := hdef
  rw [hready.pos] at hdef'
  have hwrite : Ready m' := by
    rw [hm']
    exact ⟨hbw, hlen, rfl, (hready.closed.append_block hdef' b.height nextTx).1⟩
  have hfull : m' = { m with
      toRows := r, nextTx := nextTx, nextHeight := b.height + 1, started := true
      log := m.log ++ blockBytes fs b.height nextTx
      pos := m.pos + (blockBytes fs b.height nextTx).length
      flushed := m.pos + (blockBytes fs b.height nextTx).length
      bwErr := m.bwErr } := by
    rw [hm', ← hstart]
  have hland := h.land_block hready hfit.height hheight hdef hcommit hfull (Nat.le_refl _)
    (by rw [hready.flushed]; omega) (.inl hwrite)
  refine ⟨hland.1, _, hland.2, ?_, ?_, ?_⟩
  . rw [hland.2]
    simp
  . rw [hm', ← hready.pos]
  . rw [hm']
    have := h.base
    rw [← hheight] at this
    exact this

theorem Live.appendBlock_error (hfit : b.Replayable)
    (h : Live m) (hstart : m.started = true) (hheight : b.height = m.nextHeight)
    (hrun : (appendBlock crypto file b).run m = .error e m') : Extends m m' := by
  cases hbw : m.bwErr with
  | true =>
    rcases appendBlock_of_bwErr crypto file b hbw with ⟨e', hrun'⟩
    rw [hrun'] at hrun
    cases hrun
    exact .refl h
  | false =>
    rcases appendBlock_eq_error hfit.rows hrun with
      ⟨fs, hbroke, hjam⟩ | ⟨-, hchain, fs, ps, r, nextTx, pos, hdef, hcommit, hpos, hm'⟩
    . rw [hheight] at hjam
      exact h.broke hstart hbroke hbw hjam
    . rw [hheight] at hchain
      have hready := h.ready_of_chain hbw hchain
      have hfull : m' = { m with
          toRows := r, nextTx := nextTx, nextHeight := b.height + 1, started := true
          log := m.log ++ blockBytes fs b.height nextTx
          pos := pos, flushed := m.flushed, bwErr := true } := by
        rw [hm', ← hstart]
      refine (h.land_block hready hfit.height hheight hdef hcommit hfull ?_ (Nat.le_refl _) (.inr ?_)).1
      . exact Nat.le_trans h.flushed_le hpos
      . rw [hm']
        exact ⟨rfl, hstart⟩

theorem Live.add (crypto : Crypto) (file : LogFile) (hfit : b.Replayable) (h : Live m)
    : Extends m ((Memtable.add crypto file b).run m).state := by
  rcases add_cases crypto file b m with
    ⟨-, hrun⟩ | ⟨-, -, e, hrun⟩ | ⟨hge, hwaits, hrun⟩
  . rw [hrun]
    exact .refl h
  . rw [hrun]
    exact .refl h
  . rw [hrun]
    have hbegun := h.begun hge hwaits.eq_of_started
    apply hbegun.trans
    cases hres : (appendBlock crypto file b).run (m.begun b.height) with
    | ok _ m' => exact (hbegun.live.appendBlock_ok hfit rfl rfl hres).1
    | error e m' => exact hbegun.live.appendBlock_error hfit rfl rfl hres

theorem Live.keeps_of_add (hfit : b.Replayable) (h : Live m) (hrun : (Memtable.add crypto file b).run m = .ok () m')
    : ∀ g ∈ (logBlocks m'.log).drop (logBlocks m.log).length, Keeps m' g := by
  rcases add_cases crypto file b m with
    ⟨-, hadd⟩ | ⟨-, -, e, hadd⟩ | ⟨hge, hwaits, hadd⟩
  . rw [hadd] at hrun
    cases hrun
    simp
  . rw [hadd] at hrun
    contradiction
  . rw [hadd] at hrun
    rcases ((h.begun hge hwaits.eq_of_started).live.appendBlock_ok hfit rfl rfl hrun).2 with ⟨g, hblocks, hkeeps⟩
    have hlog : (m.begun b.height).log = m.log := rfl
    rw [hblocks, hlog, drop_left' rfl]
    simpa using hkeeps

theorem Live.flushLocked (file : LogFile) (h : Live m) (hstart : m.started = true)
    : Extends m ((Memtable.flushLocked file).run m).state ∧
      ((Memtable.flushLocked file).run m).state.nextHeight = m.nextHeight := by
  cases hrun : (Memtable.flushLocked file).run m with
  | ok _ m' =>
    rw [flushLocked_eq_ok hrun]
    refine ⟨⟨⟨h.readOnly, h.grown, h.whole, h.ascending, h.below, h.made, h.base, h.idle, Nat.le_refl _,
      ?_⟩, rfl, UInt64.le_refl _, h.flushed_le, prefix_rfl, id, ?_⟩, rfl⟩
    . rcases h.write with hready | hjam | hstuck
      . exact .inl ⟨hready.bwErr, hready.pos, rfl, hready.closed⟩
      . exact .inr (.inl ⟨hjam.bwErr, hjam.pos, hjam.started, hjam.set, hjam.next, hjam.rest⟩)
      . exact .inr (.inr ⟨hstuck.bwErr, hstuck.started⟩)
    . intro g hg
      exact ⟨hg.mem, Nat.le_trans hg.stop h.flushed_le, hg.base⟩
  | error e m' =>
    rw [(flushLocked_eq_error hrun).1]
    exact ⟨⟨⟨h.readOnly, h.grown, h.whole, h.ascending, h.below, h.made, h.base, h.idle, h.flushed_le,
      .inr (.inr ⟨rfl, hstart⟩)⟩, rfl, UInt64.le_refl _, Nat.le_refl _, prefix_rfl, id,
      fun g hg => ⟨hg.mem, hg.stop, hg.base⟩⟩, rfl⟩

theorem Live.setPath (h : Live m) (path : LogName) : Live { m with path := path } where
  readOnly := h.readOnly
  grown := h.grown
  whole := h.whole
  ascending := h.ascending
  below := h.below
  made := h.made
  base := h.base
  idle := h.idle
  flushed_le := h.flushed_le
  write := by
    rcases h.write with hw | hw | hw
    . exact .inl ⟨hw.bwErr, hw.pos, hw.flushed, hw.closed⟩
    . exact .inr (.inl ⟨hw.bwErr, hw.pos, hw.started, hw.set, hw.next, hw.rest⟩)
    . exact .inr (.inr ⟨hw.bwErr, hw.started⟩)

theorem live_fresh (path : LogName) (baseTx baseHeight : UInt64)
    : Live (fresh path baseTx baseHeight) where
  readOnly := rfl
  grown := ⟨[], rfl⟩
  whole := ⟨[], by simp [Frame.Fit], rfl⟩
  ascending := ⟨by simp [fresh, reset, logBlocks, blocks], by simp [fresh, reset, logBlocks, blocks]⟩
  below := by simp [fresh, reset, logBlocks, blocks]
  made := by simp [fresh, reset, logBlocks, blocks]
  base := UInt64.le_refl _
  idle _ := rfl
  flushed_le := Nat.le_refl _
  write := .inl ⟨rfl, rfl, rfl, closed_nil⟩

end

end Memtable
end EpochDB.Store
