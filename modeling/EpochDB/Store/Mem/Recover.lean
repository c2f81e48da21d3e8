import EpochDB.Store.Mem.Live

/-!
The window `recover` rebuilds from a log with ascending blocks: it answers for every block of the log
that no run holds.
-/

namespace EpochDB.Store

open List EStateM
namespace Memtable

variable {b : LogBlock} {m m' : Memtable} {floor : UInt64} {bl : List LogBlock}

theorem land_eq_ok (h : (land b).run m = .ok () m')
    : b.height < m.baseHeight ∧ m' = m ∨
      m.baseHeight ≤ b.height ∧
        ∃ r, (Pend.commit b.muts).run m.toRows = .ok () r ∧ m' = m.landed r b.height b.nextTx := by
  unfold land at h
  rw [run_bind_of_ok (run_get m)] at h
  split at h
  . next hfloor =>
    cases h
    exact .inl ⟨hfloor, rfl⟩
  . next hfloor =>
    right
    refine ⟨UInt64.not_lt.mp hfloor, ?_⟩
    have hlift : ∀ m1 : Memtable, m1.toRows = m.toRows →
        (do
          (liftRows (Pend.commit b.muts)).adaptExcept (fun e => s!"store: window log replay: {e}")
          modify (fun m => { m with nextHeight := b.height + 1, nextTx := b.nextTx }) : MemM Unit).run m1 =
            .ok () m' →
        ∃ r, (Pend.commit b.muts).run m.toRows = .ok () r ∧
          m' = { m1 with toRows := r, nextHeight := b.height + 1, nextTx := b.nextTx } := by
      intro m1 hm1 h
      rw [run_bind_eq_ok] at h
      rcases h with ⟨_, m2, hlift, hmod⟩
      rw [run_adaptExcept_eq_ok, liftRows_eq_ok] at hlift
      rcases hlift with ⟨r, hrun, rfl⟩
      rw [hm1] at hrun
      cases hmod
      exact ⟨r, hrun, rfl⟩
    cases hs : m.started with
    | true =>
      simp only [hs, Bool.not_true, Bool.false_eq_true, if_false] at h
      rcases hlift m rfl h with ⟨r, hrun, rfl⟩
      exact ⟨r, hrun, by simp [landed, hs]⟩
    | false =>
      simp only [hs, Bool.not_false, if_true] at h
      rw [run_bind_of_ok (run_set _ _)] at h
      rcases hlift { m with baseHeight := b.height, started := true } rfl h with ⟨r, hrun, rfl⟩
      exact ⟨r, hrun, by simp [landed, hs]⟩

/-- The blocks of a log that no run holds. -/
def kept (floor : UInt64) (bl : List LogBlock) : List LogBlock := bl.filter (fun g => floor ≤ g.height)

theorem mem_kept {g : LogBlock} : g ∈ kept floor bl ↔ g ∈ bl ∧ floor ≤ g.height := by
  rw [kept, mem_filter, decide_eq_true_eq]

theorem kept_eq_nil : kept floor bl = [] ↔ ∀ g ∈ bl, g.height < floor := by
  simp [kept, filter_eq_nil_iff, UInt64.not_le]

theorem kept_isSuffix (h : bl.Pairwise (fun g g' => g.height < g'.height)) (floor : UInt64) : kept floor bl <:+ bl := by
  induction bl with
  | nil => exact suffix_refl _
  | cons g bl ih =>
    rw [pairwise_cons] at h
    by_cases hg : floor ≤ g.height
    . have hall : kept floor (g :: bl) = g :: bl := by
        rw [kept, filter_eq_self]
        intro g' hg'
        rcases mem_cons.mp hg' with rfl | hg'
        . exact decide_eq_true hg
        . exact decide_eq_true (UInt64.le_of_lt (UInt64.lt_of_le_of_lt hg (h.1 g' hg')))
      rw [hall]
    . rw [kept, filter_cons_of_neg (by simpa using hg)]
      exact (ih h.2).trans (suffix_cons _ _)

theorem kept_concat (h : floor ≤ b.height) (bl : List LogBlock) : kept floor (bl ++ [b]) = kept floor bl ++ [b] := by
  rw [kept, filter_append, filter_cons_of_pos (by simpa using h)]
  rfl

structure Landing (floor : UInt64) (done : List LogBlock) (m : Memtable) : Prop where
  rows : (Pend.commit ((kept floor done).flatMap LogBlock.muts)).run Rows.empty = .ok () m.toRows
  base : floor ≤ m.baseHeight
  base_le : m.baseHeight ≤ m.nextHeight
  made : ∀ g ∈ done, floor ≤ g.height → m.baseHeight ≤ g.height ∧ Made m.toRows g
  below : ∀ g ∈ done, g.height < m.nextHeight
  idle : m.started = false → m.baseHeight = floor ∧ m.nextHeight = floor ∧ kept floor done = []
  started : m.started = true → (kept floor done).head?.map (·.height) = some m.baseHeight ∧
    (kept floor done).getLast?.map (fun g => (g.height + 1, g.nextTx)) = some (m.nextHeight, m.nextTx)

theorem landing_clear (m : Memtable) (baseTx baseHeight : UInt64)
    : Landing baseHeight [] (m.clear baseTx baseHeight) where
  rows := rfl
  base := UInt64.le_refl _
  base_le := UInt64.le_refl _
  made := by simp
  below := by simp
  idle _ := ⟨rfl, rfl, rfl⟩
  started h := by simp [clear] at h

theorem Landing.land {done : List LogBlock} (h : Landing floor done m) (hasc : Ascending (done ++ [b]))
    (hrun : (Memtable.land b).run m = .ok () m') : Landing floor (done ++ [b]) m' := by
  have hlater : ∀ g ∈ done, g.height < b.height := by
    intro g hg
    have := hasc.sorted
    rw [pairwise_append] at this
    exact this.2.2 g hg b (by simp)
  rcases land_eq_ok hrun with ⟨hlt, rfl⟩ | ⟨hle, r, hcommit, rfl⟩
  . -- only a window that has not started drops a block, since the blocks ascend
    cases hs : m'.started with
    | true =>
      rcases Option.map_eq_some_iff.mp (h.started hs).1 with ⟨g, hg, hbase⟩
      have := hlater g (mem_kept.mp (mem_of_head? hg)).1
      rw [hbase] at this
      exact absurd (UInt64.lt_trans hlt this) (UInt64.lt_irrefl _)
    | false =>
      rcases h.idle hs with ⟨hbase, hnext, hdone⟩
      rw [hbase] at hlt
      have hsame : kept floor (done ++ [b]) = kept floor done := by
        simp [kept, filter_append, UInt64.not_le.mpr hlt]
      refine ⟨hsame ▸ h.rows, h.base, h.base_le, ?_, ?_, ?_, ?_⟩
      . intro g hg hle
        rw [mem_append, mem_singleton] at hg
        cases hg with
        | inl hg => exact h.made g hg hle
        | inr hg =>
          rw [hg] at hle
          exact absurd hlt (UInt64.not_lt.mpr hle)
      . intro g hg
        rw [mem_append, mem_singleton] at hg
        cases hg with
        | inl hg => exact h.below g hg
        | inr hg => rwa [hg, hnext]
      . intro _
        exact ⟨hbase, hnext, hsame.trans hdone⟩
      . intro hs'
        rw [hs] at hs'
        contradiction
  . have hnext : b.height < b.height + 1 := by
      rw [UInt64.lt_iff_toNat_lt, toNat_add_one (hasc.height_lt b (by simp))]
      omega
    have hbase : (m.landed r b.height b.nextTx).baseHeight ≤ b.height ∧
        floor ≤ (m.landed r b.height b.nextTx).baseHeight := by
      cases hs : m.started with
      | true => simpa [landed, hs] using ⟨hle, h.base⟩
      | false => simpa [landed, hs] using UInt64.le_trans h.base hle
    have hkept := kept_concat (UInt64.le_trans hbase.2 hbase.1) done
    refine ⟨?_, hbase.2, UInt64.le_of_lt (UInt64.lt_of_le_of_lt hbase.1 hnext), ?_, ?_, ?_, ?_⟩
    . rw [hkept, flatMap_append, flatMap_singleton]
      exact commit_append h.rows hcommit
    . intro g hg hfloor
      rw [mem_append, mem_singleton] at hg
      cases hg with
      | inl hg =>
        rcases h.made g hg hfloor with ⟨hbaseg, hmade⟩
        refine ⟨?_, hmade.commit hcommit⟩
        cases hs : m.started with
        | true => simpa [landed, hs] using hbaseg
        | false => exact absurd (kept_eq_nil.mp (h.idle hs).2.2 g hg) (UInt64.not_lt.mpr hfloor)
      | inr hg =>
        rw [hg]
        refine ⟨hbase.1, (kept floor done).flatMap LogBlock.muts, [], ?_⟩
        rw [append_nil]
        exact commit_append h.rows hcommit
    . intro g hg
      rw [mem_append, mem_singleton] at hg
      cases hg with
      | inl hg => exact UInt64.lt_trans (hlater g hg) hnext
      | inr hg => rwa [hg]
    . intro hs
      simp [landed] at hs
    . intro _
      rw [hkept, getLast?_concat]
      refine ⟨?_, rfl⟩
      cases hs : m.started with
      | true =>
        have hfirst := (h.started hs).1
        rw [head?_append, Option.map_or, hfirst]
        simp [landed, hs]
      | false =>
        rw [(h.idle hs).2.2]
        simp [landed, hs]

structure SameFile (m m' : Memtable) : Prop where
  path : m'.path = m.path
  readOnly : m'.readOnly = m.readOnly
  log : m'.log = m.log

theorem sameFile_land (h : (Memtable.land b).run m = .ok () m') : SameFile m m' := by
  rcases land_eq_ok h with ⟨-, rfl⟩ | ⟨-, r, -, rfl⟩
  . exact ⟨rfl, rfl, rfl⟩
  . exact ⟨rfl, rfl, rfl⟩

theorem Landing.landAll {done bl : List LogBlock} (h : Landing floor done m) (hasc : Ascending (done ++ bl))
    (hrun : (bl.forM Memtable.land).run m = .ok () m')
    : Landing floor (done ++ bl) m' ∧ SameFile m m' := by
  induction bl generalizing done m with
  | nil =>
    cases hrun
    rw [append_nil]
    exact ⟨h, rfl, rfl, rfl⟩
  | cons b bl ih =>
    rw [run_forM_cons, run_bind_eq_ok] at hrun
    rcases hrun with ⟨_, m1, hb, hbl⟩
    have hsplit : done ++ b :: bl = (done ++ [b]) ++ bl := by simp
    rw [hsplit] at hasc ⊢
    have hfile := sameFile_land hb
    rcases ih (h.land (hasc.of_isPrefix (prefix_append _ _)) hb) hasc hbl with ⟨hland, hsame⟩
    exact ⟨hland, hsame.path.trans hfile.path, hsame.readOnly.trans hfile.readOnly, hsame.log.trans hfile.log⟩

theorem recover_eq_ok {baseTx baseHeight : UInt64} (hro : m.readOnly = false)
    (hasc : Ascending (logBlocks m.log)) (h : (recover baseTx baseHeight).run m = .ok () m')
    : ∃ m1,
        Landing baseHeight (logBlocks m.log) m1 ∧
        m1.path = m.path ∧
        m' = { m1 with
          readOnly := false, log := m.log.take (lastStop 0 (logBlocks m.log)), bwErr := false
          pos := lastStop 0 (logBlocks m.log), flushed := lastStop 0 (logBlocks m.log) } := by
  unfold recover at h
  rw [run_bind_of_ok (run_modify _ _)] at h
  rw [run_bind_of_ok (run_get _)] at h
  rw [log_clear, replay_eq_land, bind_assoc, run_bind_eq_ok] at h
  rcases h with ⟨_, m1, hland, h⟩
  rw [run_bind_of_ok (run_pure _ _)] at h
  rw [run_bind_of_ok (run_modify _ _), run_modify] at h
  rcases (landing_clear m baseTx baseHeight).landAll hasc hland with ⟨hlanding, hfile⟩
  have hro1 : m1.readOnly = false := by
    rw [hfile.readOnly]
    exact hro
  have hlog1 : m1.log = m.log := hfile.log
  simp only [hro1, Bool.false_eq_true, if_false, hlog1] at h
  cases h
  exact ⟨m1, hlanding, hfile.path, rfl⟩

structure Recovered (baseHeight : UInt64) (log : Bytes) (m : Memtable) : Prop where
  live : Live m
  blocks : logBlocks m.log = logBlocks log
  base : baseHeight ≤ m.baseHeight
  keeps : ∀ g ∈ logBlocks log, baseHeight ≤ g.height → Keeps m g
  idle : m.started = false →
    m.nextHeight = baseHeight ∧ ∀ g ∈ logBlocks log, g.height < baseHeight
  started : m.started = true → ∃ g ∈ logBlocks log, m.nextHeight = g.height + 1

theorem recovered {path : LogName} {baseTx baseHeight : UInt64} {log : Bytes} (hasc : Ascending (logBlocks log))
    (h : (recover baseTx baseHeight).run (Memtable.empty path false log) = .ok () m)
    : Recovered baseHeight log m ∧ m.path = path := by
  rcases recover_eq_ok (m := Memtable.empty path false log) rfl hasc h with ⟨m1, hland, hpath, rfl⟩
  rcases closed_cut log with ⟨hwhole, hclosed, hblocks, hlen⟩
  have hlog : (Memtable.empty path false log).log = log := rfl
  rw [hlog] at hland ⊢
  refine ⟨⟨⟨rfl, ⟨_, hland.rows⟩, hwhole, ?_, ?_, ?_, hland.base_le, ?_, Nat.le_refl _, .inl ?_⟩, hblocks,
    hland.base, ?_, ?_, ?_⟩, hpath⟩
  . simp only [hblocks]
    exact hasc
  . simp only [hblocks]
    exact hland.below
  . simp only [hblocks]
    intro g hg hbase
    exact (hland.made g hg (UInt64.le_trans hland.base hbase)).2
  . intro hs
    rcases hland.idle hs with ⟨hbase, hnext, -⟩
    exact hbase.trans hnext.symm
  . exact ⟨rfl, hlen.symm, rfl, hclosed⟩
  . intro g hg hbase
    rw [← hblocks] at hg
    refine ⟨hg, ?_, (hland.made g (by rwa [← hblocks]) hbase).1⟩
    have := stop_le_of_mem hg
    rwa [hlen] at this
  . intro hs
    rcases hland.idle hs with ⟨-, hnext, hnone⟩
    exact ⟨hnext, kept_eq_nil.mp hnone⟩
  . intro hs
    rcases Option.map_eq_some_iff.mp (hland.started hs).2 with ⟨g, hg, hnext⟩
    exact ⟨g, (mem_kept.mp (mem_of_getLast? hg)).1, (congrArg Prod.fst hnext).symm⟩

end Memtable

/-- The block's own record of its first TxNum. -/
def LogBlock.firstTx (log : Bytes) (g : LogBlock) : Option UInt64 :=
  g.pend.findSome? (fun
    | .chain .blk _ off _ => some (Bytes.uint64 ((log.drop off).take 8))
    | _ => none)

def LogBlock.StartsAt (log : Bytes) (g : LogBlock) (first : UInt64) : Prop :=
  ∃ off n rest, g.pend = .chain .blk g.height off n :: rest ∧ off + 8 ≤ g.stop ∧ g.stop ≤ log.length ∧
    Bytes.uint64 ((log.drop off).take 8) = first

def LogBlock.Follows (log : Bytes) (g g' : LogBlock) : Prop :=
  g'.height = g.height + 1 ∧ g'.StartsAt log g.nextTx

namespace LogBlock.StartsAt

variable {log : Bytes} {g : LogBlock} {first : UInt64}

theorem firstTx (h : g.StartsAt log first) : g.firstTx log = some first := by
  rcases h with ⟨off, n, rest, hpend, -, -, hread⟩
  rw [LogBlock.firstTx, hpend, findSome?_cons_of_isSome (by rfl)]
  exact congrArg some hread

theorem append (h : g.StartsAt log first) (tail : Bytes) : g.StartsAt (log ++ tail) first := by
  rcases h with ⟨off, n, rest, hpend, hstop, hlen, hread⟩
  refine ⟨off, n, rest, hpend, hstop, by rw [length_append]; omega, ?_⟩
  rw [drop_append_of_le_length (by omega), take_append_of_le_length (by rw [length_drop]; omega), hread]

theorem take (h : g.StartsAt log first) {n : Nat} (hn : g.stop ≤ n) : g.StartsAt (log.take n) first := by
  rcases h with ⟨off, n', rest, hpend, hstop, hlen, hread⟩
  refine ⟨off, n', rest, hpend, hstop, by rw [length_take]; omega, ?_⟩
  rw [drop_take, take_take, Nat.min_eq_left (by omega), hread]

end LogBlock.StartsAt

namespace Memtable

/-- The log's blocks follow each other up to where the window is. -/
structure Laid (m : Memtable) : Prop where
  closed : Closed m.log
  chain : (logBlocks m.log).IsChain (LogBlock.Follows m.log)
  last : ∀ g ∈ (logBlocks m.log).getLast?, m.started = true ∧ m.nextHeight = g.height + 1 ∧ m.nextTx = g.nextTx

theorem startsAt_block {log : Bytes} {fs : List Frame} {ps : List Pend} {height first nextTx : UInt64} {n : UInt32}
    (hhead : fs.head? = some (blkFrame height first n)) (hdef : Defers fs log.length ps)
    : LogBlock.StartsAt (log ++ blockBytes fs height nextTx)
        ⟨height, nextTx, ps, log.length + (blockBytes fs height nextTx).length⟩ first := by
  rcases head?_eq_some_iff.mp hhead with ⟨fs', rfl⟩
  rcases hdef with ⟨-, p, ps', hp, -, rfl⟩
  have hpend : p = .chain .blk height (log.length + Frame.headerSize) 12 := by
    simp only [blkFrame, Pend.ofFrame, RecKind.ofByte?_byte, Pend.Action.defer.injEq] at hp
    simpa using hp.symm
  refine ⟨_, _, ps', by rw [hpend], ?_, by rw [length_append], ?_⟩
  . simp [Frame.length_encode, blkFrame]
    omega
  . rw [← drop_drop, drop_left, blockBytes, cons_append, Frame.encodeAll_cons,
      drop_append_of_le_length (by rw [Frame.length_encode]; omega), Frame.drop_encode, blkFrame,
      append_assoc, take_left' (by simp), Bytes.uint64_putUint64]

theorem Laid.add {crypto : Crypto} {file : LogFile} {b : BlockWrite} (hfit : b.RowsFit) {m m' : Memtable} (h : Laid m)
    (hpos : m.pos = m.log.length) (hrun : (Memtable.add crypto file b).run m = .ok () m') : Laid m' := by
  rcases add_cases crypto file b m with ⟨-, hskip⟩ | ⟨-, -, e, herr⟩ | ⟨-, hwaits, happ⟩
  . rw [hskip] at hrun
    cases hrun
    exact h
  . rw [herr] at hrun
    cases hrun
  . rw [happ] at hrun
    rcases appendBlock_eq_ok hfit hrun with ⟨fs, ps, r, nextTx, hhead, hdef, -, rfl⟩
    have hdef : Defers fs m.log.length ps := hpos ▸ hdef
    rcases h.closed.append_block hdef b.height nextTx with ⟨hclosed, hblocks⟩
    refine ⟨hclosed, ?_, ?_⟩
    . dsimp only [begun]
      rw [hblocks, isChain_append]
      refine ⟨h.chain.imp fun g g' hg => ⟨hg.1, hg.2.append _⟩, List.IsChain.singleton _, ?_⟩
      intro g hg g' hg'
      cases hg'
      rcases h.last g hg with ⟨hstarted, hheight, htx⟩
      exact ⟨(hwaits.eq_of_started hstarted).trans hheight, htx ▸ startsAt_block hhead hdef⟩
    . dsimp only [begun]
      rw [hblocks, getLast?_concat]
      rintro g ⟨⟩
      exact ⟨rfl, rfl, rfl⟩

theorem Laid.addAll {crypto : Crypto} {file : LogFile} {bs : List BlockWrite} (hfit : ∀ b ∈ bs, b.Replayable) {m m' : Memtable}
    (h : Laid m) (hs : Settled m) (hrun : (Memtable.addAll crypto file bs).run m = .ok () m') : Laid m' := by
  induction bs generalizing m with
  | nil => rwa [addAll_nil.mp hrun]
  | cons b bs ih =>
    rw [forall_mem_cons] at hfit
    rcases addAll_cons.mp hrun with ⟨m1, hb, hbs⟩
    exact ih hfit.2 (h.add hfit.1.rows hs.pos hb) (hs.add hfit.1 hb) hbs

theorem laid_fresh (path : LogName) (baseTx baseHeight : UInt64) : Laid (fresh path baseTx baseHeight) :=
  ⟨closed_nil, List.IsChain.nil, by simp [fresh, reset, clear, logBlocks, Frame.readAll_nil, blocks]⟩

end Memtable
end EpochDB.Store
