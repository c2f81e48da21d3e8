import EpochDB.Store.Mem.Blocks

/-!
Replaying the window log rebuilds the memtable that wrote it, for every cut of the log.
-/

namespace EpochDB.Store

open List EStateM

def goodLog : LogFile := ⟨fun _ => true, fun _ => true⟩

namespace Memtable

def landed (m : Memtable) (r : Rows) (height nextTx : UInt64) : Memtable :=
  { m with
    toRows := r, baseHeight := if m.started then m.baseHeight else height, started := true,
    nextTx := nextTx, nextHeight := height + 1 }

structure Settled (m : Memtable) : Prop where
  pos : m.pos = m.log.length
  flushed : m.flushed = m.pos
  bwErr : m.bwErr = false
  readOnly : m.readOnly = false
  base : m.baseHeight.toNat ≤ m.nextHeight.toNat

theorem settled_reset {m : Memtable} (h : m.readOnly = false) (baseTx baseHeight : UInt64)
    : Settled (m.reset baseTx baseHeight) := by
  constructor <;> simp [reset, clear, h]

section

variable {crypto : Crypto} {file : LogFile}

variable {m m' : Memtable} {b : BlockWrite}

theorem flushLocked_eq_ok (h : (flushLocked file).run m = .ok () m') : m' = { m with flushed := m.pos } := by
  unfold flushLocked at h
  simp only [run_bind, run_get] at h
  split at h
  . split at h
    . simp at h
    . simp only [run_set] at h
      cases h
      rfl
  . next heq =>
    simp only [run_pure] at h
    cases h
    simp only [ne_eq, Decidable.not_not] at heq
    cases m
    simp only at heq
    simp [heq]

theorem flushLocked_eq_error {e : String} (h : (flushLocked file).run m = .error e m')
    : m' = { m with bwErr := true } ∧ (m.bwErr = true ∨ file.flush m.pos = false) := by
  unfold flushLocked at h
  simp only [run_bind, run_get] at h
  split at h
  . split at h
    . next hcause =>
      cases h
      exact ⟨rfl, by simpa using hcause⟩
    . simp at h
  . simp at h

theorem appendBlock_eq_ok (hfit : b.RowsFit) (h : (appendBlock crypto file b).run m = .ok () m')
    : ∃ fs ps r nextTx,
        fs.head? = some (blkFrame b.height m.nextTx (UInt32.ofNat b.txs.length)) ∧
        Defers fs m.pos ps ∧
        (Pend.commit (ps ++ [.pad nextTx])).run m.toRows = .ok () r ∧
        m' = { m with
          toRows := r, nextTx := nextTx, nextHeight := b.height + 1
          log := m.log ++ blockBytes fs b.height nextTx
          pos := m.pos + (blockBytes fs b.height nextTx).length
          flushed := m.pos + (blockBytes fs b.height nextTx).length } := by
  unfold appendBlock at h
  rw [run_bind_of_ok (run_get m)] at h
  simp only [run_bind_eq_ok] at h
  rcases h with ⟨_, m1, hrows, _, m2, hpad, _, m3, hmod, res, m4, hend, hflush⟩
  rcases wrote_addRows hfit hrows with ⟨fs, ps, r, hdef, hrun, rfl⟩
  rw [liftRows_eq_ok] at hpad
  rcases hpad with ⟨r', hpad, rfl⟩
  simp only [run_modify] at hmod
  cases hmod
  rcases write_eq_ok hend with ⟨-, -, rfl⟩
  rw [flushLocked_eq_ok hflush]
  refine ⟨_ :: fs, ps, r', m.nextTx + UInt64.ofNat b.txs.length + 1, rfl, hdef, ?_, ?_⟩
  . apply commit_append hrun
    simp only [Pend.commit, run_forM_cons]
    rw [run_bind_of_ok hpad]
    rfl
  . simp [endFrame, Frame.length_encode, Nat.add_assoc]

def begun (m : Memtable) (height : UInt64) : Memtable :=
  { m with
    baseHeight := if m.started then m.baseHeight else height, nextHeight := height, started := true }

theorem begun_of_started (h : m.started = true) : m.begun m.nextHeight = m := by
  cases m
  simp only at h
  simp [begun, h]

def Waits (m : Memtable) (height : UInt64) : Prop := height = m.nextHeight ∨ m.started = false ∧ m.nextHeight = 0

theorem Waits.eq_of_started {height : UInt64} (h : m.Waits height) (hstart : m.started = true) : height = m.nextHeight := by
  rcases h with h | ⟨hidle, -⟩
  . exact h
  . rw [hstart] at hidle
    cases hidle

theorem Waits.eq_of_ne {height : UInt64} (h : m.Waits height) (hne : m.nextHeight ≠ 0) : height = m.nextHeight :=
  h.resolve_right (fun hzero => hne hzero.2)

theorem add_cases (crypto : Crypto) (file : LogFile) (b : BlockWrite) (m : Memtable)
    : b.height < m.nextHeight ∧ (add crypto file b).run m = .ok () m ∨
      m.nextHeight ≤ b.height ∧ ¬ m.Waits b.height ∧ (∃ e, (add crypto file b).run m = .error e m) ∨
      m.nextHeight ≤ b.height ∧ m.Waits b.height ∧
        (add crypto file b).run m = (appendBlock crypto file b).run (m.begun b.height) := by
  unfold add
  rw [run_bind_of_ok (run_get m)]
  split
  . next hlt => exact .inl ⟨hlt, rfl⟩
  . next hge =>
    have hge := UInt64.not_lt.mp hge
    right
    cases hstart : m.started with
    | false =>
      simp only [Bool.not_false, if_true]
      split
      . next hhole =>
        simp only [ne_eq, Bool.and_eq_true, decide_not, Bool.not_eq_true', decide_eq_false_iff_not] at hhole
        exact .inl ⟨hge, fun hw => hhole.2 (hw.eq_of_ne hhole.1), _, rfl⟩
      . next hfits =>
        right
        refine ⟨hge, ?_, ?_⟩
        . by_cases hzero : m.nextHeight = 0
          . exact .inr ⟨hstart, hzero⟩
          . exact .inl (by simpa [hzero] using hfits)
        . rw [run_bind_of_ok (run_set _ _)]
          rw [run_bind_of_ok (run_get _)]
          rw [if_neg (by simp)]
          simp [begun, hstart]
    | true =>
      simp only [Bool.not_true, Bool.false_eq_true, if_false]
      rw [run_bind_of_ok (run_get m)]
      split
      . next hne => exact .inl ⟨hge, fun hw => hne (hw.eq_of_started hstart), _, rfl⟩
      . next heq =>
        right
        simp only [ne_eq, Decidable.not_not] at heq
        refine ⟨hge, .inl heq, ?_⟩
        rw [heq, begun_of_started hstart]

theorem add_eq_ok (hfit : b.RowsFit) (h : (add crypto file b).run m = .ok () m')
    : m' = m ∨
      m.nextHeight ≤ b.height ∧
      ∃ fs ps r nextTx,
        Defers fs m.pos ps ∧
        (Pend.commit (ps ++ [.pad nextTx])).run m.toRows = .ok () r ∧
        m' = { m.landed r b.height nextTx with
          log := m.log ++ blockBytes fs b.height nextTx
          pos := m.pos + (blockBytes fs b.height nextTx).length
          flushed := m.pos + (blockBytes fs b.height nextTx).length } := by
  rcases add_cases crypto file b m with
    ⟨-, hrun⟩ | ⟨-, -, e, hrun⟩ | ⟨hge, -, hrun⟩
  . rw [hrun] at h
    cases h
    exact .inl rfl
  . rw [hrun] at h
    contradiction
  . rw [hrun] at h
    rcases appendBlock_eq_ok hfit h with ⟨fs, ps, r, nextTx, -, hdef, hcommit, rfl⟩
    exact .inr ⟨hge, fs, ps, r, nextTx, hdef, hcommit, rfl⟩

theorem Settled.add (hfit : b.Replayable) (hs : Settled m)
    (h : (Memtable.add crypto file b).run m = .ok () m') : Settled m' := by
  rcases add_eq_ok hfit.rows h with rfl | ⟨hle, fs, ps, r, nextTx, -, -, rfl⟩
  . exact hs
  . constructor
    . simp [hs.pos]
    . rfl
    . exact hs.bwErr
    . exact hs.readOnly
    . have hnext : (b.height + 1).toNat = b.height.toNat + 1 := by
        rw [UInt64.toNat_add]
        exact Nat.mod_eq_of_lt hfit.height
      have hle := UInt64.le_iff_toNat_le.mp hle
      have hbase := hs.base
      simp only [landed, hnext]
      split <;> omega

theorem addAll_nil : (addAll crypto file []).run m = .ok () m' ↔ m' = m := by
  constructor
  . intro h
    cases h
    rfl
  . rintro rfl
    rfl

theorem addAll_cons {bs : List BlockWrite}
    : (addAll crypto file (b :: bs)).run m = .ok () m' ↔
        ∃ m1, (Memtable.add crypto file b).run m = .ok () m1 ∧ (addAll crypto file bs).run m1 = .ok () m' := by
  unfold addAll
  rw [run_forM_cons]
  rw [run_bind_eq_ok]
  constructor
  . rintro ⟨_, m1, hb, hbs⟩
    exact ⟨m1, hb, hbs⟩
  . rintro ⟨m1, hb, hbs⟩
    exact ⟨(), m1, hb, hbs⟩

theorem length_log_le_of_addAll {bs : List BlockWrite} (hfit : ∀ b ∈ bs, b.Replayable)
    (h : (addAll crypto file bs).run m = .ok () m') : ∃ tail, m'.log = m.log ++ tail := by
  induction bs generalizing m with
  | nil =>
    rw [addAll_nil] at h
    exact ⟨[], by simp [h]⟩
  | cons b bs ih =>
    rw [addAll_cons] at h
    rcases h with ⟨m1, hb, hbs⟩
    rcases ih (fun b hb => hfit b (by simp [hb])) hbs with ⟨tail, htail⟩
    rcases add_eq_ok (hfit b (by simp)).rows hb with rfl | ⟨-, fs, ps, r, nextTx, -, -, rfl⟩
    . exact ⟨tail, htail⟩
    . exact ⟨_, by rw [htail]; exact append_assoc _ _ _⟩

end

theorem land_of_le {b : LogBlock} {m : Memtable} {r : Rows} (hfloor : m.baseHeight ≤ b.height)
    (hrun : (Pend.commit b.muts).run m.toRows = .ok () r)
    : (land b).run m = .ok () (m.landed r b.height b.nextTx) := by
  have hlift : ∀ m1 : Memtable, m1.toRows = m.toRows →
      ((liftRows (Pend.commit b.muts)).adaptExcept
        (fun e => s!"store: window log replay: {e}")).run m1 = .ok () { m1 with toRows := r } := by
    intro m1 hm1
    rw [run_adaptExcept_eq_ok]
    exact liftRows_eq_ok.mpr ⟨r, by rw [hm1, hrun], rfl⟩
  unfold land
  rw [run_bind_of_ok (run_get m)]
  rw [if_neg (UInt64.not_lt.mpr hfloor)]
  cases hstart : m.started with
  | false =>
    simp only [Bool.not_false, if_true]
    rw [run_bind_of_ok (run_set _ _)]
    rw [run_bind_of_ok (hlift { m with baseHeight := b.height, started := true } rfl)]
    rw [run_modify]
    simp [landed, hstart]
  | true =>
    simp only [Bool.not_true, Bool.false_eq_true, if_false]
    rw [run_bind_of_ok (hlift m rfl)]
    rw [run_modify]
    simp [landed, hstart]

theorem land_of_lt {b : LogBlock} {m : Memtable} (hfloor : b.height < m.baseHeight) : (land b).run m = .ok () m := by
  unfold land
  rw [run_bind_of_ok (run_get m)]
  rw [if_pos hfloor]
  rfl

theorem log_clear (m : Memtable) (baseTx baseHeight : UInt64) : (m.clear baseTx baseHeight).log = m.log := rfl

theorem recover_of_land {baseTx baseHeight : UInt64} {m m1 : Memtable}
    (h : ((logBlocks m.log).forM land).run (m.clear baseTx baseHeight) = .ok () m1)
    (hro : m1.readOnly = false)
    : (recover baseTx baseHeight).run m =
        .ok () { m1 with
          log := m1.log.take (lastStop 0 (logBlocks m.log)), bwErr := false
          pos := lastStop 0 (logBlocks m.log), flushed := lastStop 0 (logBlocks m.log) } := by
  unfold recover
  rw [run_bind_of_ok (run_modify _ _)]
  rw [run_bind_of_ok (run_get _)]
  rw [log_clear, replay_eq_land, bind_assoc]
  unfold logBlocks at h
  rw [run_bind_of_ok h]
  rw [run_bind_of_ok (run_pure _ _)]
  rw [run_bind_of_ok (run_modify _ _)]
  rw [run_modify]
  simp [hro, logBlocks]

section

variable {crypto : Crypto} {file : LogFile}

def replaying (m : Memtable) (log : Bytes) : Memtable := { m with log := log, pos := 0, flushed := 0 }

theorem replay_take {bs : List BlockWrite} (hfit : ∀ b ∈ bs, b.Replayable) {m m' : Memtable}
    (hs : Settled m) (h : (addAll crypto file bs).run m = .ok () m') {tail : Bytes}
    (htail : m'.log = m.log ++ tail) (log : Bytes) (n : Nat)
    : ∃ k mk,
        k ≤ bs.length ∧
        (addAll crypto file (bs.take k)).run m = .ok () mk ∧
        Settled mk ∧
        mk.log.length ≤ m.log.length + n ∧
        (∀ j mj, k < j → j ≤ bs.length → (addAll crypto file (bs.take j)).run m = .ok () mj →
          m.log.length + n < mj.log.length) ∧
        ((blocks (Frame.readAll maxRow (tail.take n)) m.pos []).forM land).run (m.replaying log) =
          .ok () (mk.replaying log) ∧
        lastStop m.pos (blocks (Frame.readAll maxRow (tail.take n)) m.pos []) = mk.pos := by
  induction bs generalizing m tail n with
  | nil =>
    rw [addAll_nil] at h
    subst h
    have : tail = [] := by simpa using htail
    subst this
    refine ⟨0, m', Nat.le_refl _, addAll_nil.mpr rfl, hs, by omega, ?_, ?_, ?_⟩
    . intro j mj hlt hle
      simp at hle
      omega
    . simp [blocks]
    . simp [blocks, lastStop]
  | cons b bs ih =>
    rw [addAll_cons] at h
    rcases h with ⟨m1, hb, hbs⟩
    have hfitb := hfit b (by simp)
    have hfits : ∀ b ∈ bs, b.Replayable := fun b hb => hfit b (by simp [hb])
    rcases add_eq_ok hfitb.rows hb with rfl | ⟨hle, fs, ps, r, nextTx, hdef, hrun, hm1⟩
    . -- the block was skipped, so the log says nothing about it
      rcases ih hfits hs hbs htail n with ⟨k, mk, hk, hadd, hsk, hlen, hmax, hreplay⟩
      refine ⟨k + 1, mk, by simpa using hk, ?_, hsk, hlen, ?_, hreplay⟩
      . rw [take_succ_cons, addAll_cons]
        exact ⟨m1, hb, hadd⟩
      . intro j mj hlt hj hmj
        cases j with
        | zero => omega
        | succ j =>
          rw [take_succ_cons, addAll_cons] at hmj
          rcases hmj with ⟨m2, hb2, hmj⟩
          rw [hb] at hb2
          cases hb2
          exact hmax j mj (by omega) (by simpa using hj) hmj
    . have hs1 : Settled m1 := hs.add hfitb hb
      generalize hblock : blockBytes fs b.height nextTx = block at hm1
      have hlog1 : m1.log = m.log ++ block := by rw [hm1]
      rcases length_log_le_of_addAll hfits hbs with ⟨tail1, htail1⟩
      have hsplit : tail = block ++ tail1 := by
        rw [htail1, hlog1, append_assoc] at htail
        exact (append_cancel_left htail).symm
      by_cases hcut : n < block.length
      . -- the cut is inside this block
        have htorn : blocks (Frame.readAll maxRow (tail.take n)) m.pos [] = [] := by
          rw [hsplit, take_append_of_le_length (Nat.le_of_lt hcut), ← hblock]
          exact blocks_torn hdef (by rwa [hblock])
        refine ⟨0, m, by simp, addAll_nil.mpr rfl, hs, by omega, ?_, ?_⟩
        . intro j mj hlt hj hmj
          cases j with
          | zero => omega
          | succ j =>
            rw [take_succ_cons, addAll_cons] at hmj
            rcases hmj with ⟨m2, hb2, hmj⟩
            rw [hb] at hb2
            cases hb2
            rcases length_log_le_of_addAll
              (fun b hb => hfits b (mem_of_mem_take hb)) hmj with ⟨tail2, htail2⟩
            rw [htail2, hlog1]
            simp only [length_append]
            omega
        . rw [htorn]
          exact ⟨rfl, rfl⟩
      . rcases ih hfits hs1 hbs htail1 (n - block.length)
          with ⟨k, mk, hk, hadd, hsk, hlen, hmax, hreplay⟩
        have hlen1 : m1.log.length = m.log.length + block.length := by
          rw [hlog1, length_append]
        refine ⟨k + 1, mk, by simpa using hk, ?_, hsk, by omega, ?_, ?_⟩
        . rw [take_succ_cons, addAll_cons]
          exact ⟨m1, hb, hadd⟩
        . intro j mj hlt hj hmj
          cases j with
          | zero => omega
          | succ j =>
            rw [take_succ_cons, addAll_cons] at hmj
            rcases hmj with ⟨m2, hb2, hmj⟩
            rw [hb] at hb2
            cases hb2
            have := hmax j mj (by omega) (by simpa using hj) hmj
            omega
        . have hfloor : (m.replaying log).baseHeight ≤ b.height := by
            rw [UInt64.le_iff_toNat_le] at hle ⊢
            exact Nat.le_trans hs.base hle
          have hland : (m.replaying log).landed r b.height nextTx = m1.replaying log := by
            rw [hm1]
            rfl
          have hpos : m.pos + block.length = m1.pos := by rw [hm1]
          have hblocks : blocks (Frame.readAll maxRow (tail.take n)) m.pos [] =
              ⟨b.height, nextTx, ps, m1.pos⟩ ::
                blocks (Frame.readAll maxRow (tail1.take (n - block.length))) m1.pos [] := by
            rw [hsplit, take_append]
            rw [take_of_length_le (by omega), ← hblock]
            rw [Frame.readAll_encodeAll_append maxRow_lt (fit_block hdef)]
            rw [blocks_block hdef, hblock, hpos]
          rw [hblocks, run_forM_cons]
          rw [run_bind_of_ok
            (land_of_le (b := ⟨b.height, nextTx, ps, m1.pos⟩) (m := m.replaying log) hfloor hrun)]
          rw [hland]
          exact hreplay

theorem recover_of_replaying {path : LogName} {baseTx baseHeight : UInt64} {log : Bytes} {mk : Memtable} (hs : Settled mk)
    (hland : ((logBlocks log).forM land).run ((Memtable.empty path false log).clear baseTx baseHeight) = .ok () (mk.replaying log))
    (hlast : lastStop 0 (logBlocks log) = mk.pos) (hfront : mk.log = log.take mk.pos)
    : (recover baseTx baseHeight).run (Memtable.empty path false log) = .ok () mk := by
  have hlog : (Memtable.empty path false log).log = log := rfl
  rw [recover_of_land (m := Memtable.empty path false log) hland hs.readOnly, hlog, hlast]
  simp only [replaying, ← hfront, EStateM.Result.ok.injEq, true_and]
  have hflushed := hs.flushed
  have hbwErr := hs.bwErr
  cases mk
  simp_all

theorem replay_fresh (path : LogName) (baseTx baseHeight : UInt64) {bs : List BlockWrite} (hfit : ∀ b ∈ bs, b.Replayable)
    {m : Memtable} (h : (addAll crypto file bs).run (fresh path baseTx baseHeight) = .ok () m) (n : Nat)
    : ∃ k mk,
        k ≤ bs.length ∧
        (addAll crypto file (bs.take k)).run (fresh path baseTx baseHeight) = .ok () mk ∧
        mk.log.length ≤ n ∧
        (∀ j mj, k < j → j ≤ bs.length →
          (addAll crypto file (bs.take j)).run (fresh path baseTx baseHeight) = .ok () mj →
          n < mj.log.length) ∧
        Settled mk ∧
        ((logBlocks (m.log.take n)).forM land).run ((Memtable.empty path false (m.log.take n)).clear baseTx baseHeight) =
          .ok () (mk.replaying (m.log.take n)) ∧
        lastStop 0 (logBlocks (m.log.take n)) = mk.pos ∧ mk.log = (m.log.take n).take mk.pos := by
  have hs : Settled (fresh path baseTx baseHeight) := settled_reset rfl _ _
  have htail : m.log = (fresh path baseTx baseHeight).log ++ m.log := rfl
  rcases replay_take hfit hs h htail (m.log.take n) n
    with ⟨k, mk, hk, hadd, hsk, hlen, hmax, hreplay, hstop⟩
  have hempty : (fresh path baseTx baseHeight).log.length = 0 := rfl
  rw [hempty, Nat.zero_add] at hlen
  simp only [hempty, Nat.zero_add] at hmax
  refine ⟨k, mk, hk, hadd, hlen, hmax, hsk, hreplay, hstop, ?_⟩
  -- the log of the block boundary starts the whole log
  have hall := h
  rw [← take_append_drop k bs] at hall
  unfold addAll at hall hadd
  rw [run_forM_append] at hall
  rcases hall with ⟨m2, h1, h2⟩
  rw [hadd] at h1
  cases h1
  rcases length_log_le_of_addAll (fun b hb => hfit b (mem_of_mem_drop hb)) h2 with ⟨tail, htail⟩
  rw [take_take, htail, hsk.pos, Nat.min_eq_left hlen]
  simp

/--
Window log replay reproduces the live memtable: whatever length of the log survives, `recover`
rebuilds the memtable as it was after the longest run of blocks that lie wholly inside, and cuts the
log at the end of the last of them.
-/
theorem recover_take_log (path : LogName) (baseTx baseHeight : UInt64) (bs : List BlockWrite)
    (hfit : ∀ b ∈ bs, b.Replayable) (m : Memtable)
    (h : (addAll crypto file bs).run (fresh path baseTx baseHeight) = .ok () m) (n : Nat)
    : ∃ k mk,
        k ≤ bs.length ∧
        (addAll crypto file (bs.take k)).run (fresh path baseTx baseHeight) = .ok () mk ∧
        mk.log.length ≤ n ∧
        (∀ j mj, k < j → j ≤ bs.length →
          (addAll crypto file (bs.take j)).run (fresh path baseTx baseHeight) = .ok () mj →
          n < mj.log.length) ∧
        (recover baseTx baseHeight).run (Memtable.empty path false (m.log.take n)) = .ok () mk := by
  rcases replay_fresh path baseTx baseHeight hfit h n with ⟨k, mk, hk, hadd, hlen, hmax, hsk, hland, hlast, hfront⟩
  exact ⟨k, mk, hk, hadd, hlen, hmax, recover_of_replaying hsk hland hlast hfront⟩

end

def emptyBlockCrypto : Crypto where
  keccak256 _ := ⟨[0x1d, 0xcc, 0x4d, 0xe8, 0xde, 0xc7, 0x5d, 0x7a, 0xab, 0x85, 0xb5, 0x67, 0xb6, 0xcc, 0xd4, 0x1a,
    0xd3, 0x12, 0x45, 0x1b, 0x94, 0x8a, 0x74, 0x13, 0xf0, 0xa1, 0x42, 0xfd, 0x40, 0xd4, 0x93, 0x47], rfl⟩
  sha256 _ := ⟨[0x23, 0x66, 0xf6, 0x6a, 0x73, 0x5e, 0x7b, 0x55, 0xb3, 0x36, 0x00, 0x7e, 0x29, 0x61, 0x02, 0x3a,
    0x9a, 0xaf, 0x3a, 0x94, 0x50, 0x2b, 0xc0, 0x0b, 0x62, 0xe1, 0xed, 0x6f, 0x00, 0xdb, 0x0e, 0x39], rfl⟩
  encodeList payload := UInt8.ofNat (0xc0 + payload.length) :: payload

def emptyBlock (height : UInt64) : BlockWrite where
  height := height
  headerRLP := [0xc0]
  pvm := []
  txs := []
  code := []
  tail := [⟨.account, ⟨List.replicate 20 0, rfl⟩, zeroHash, [1]⟩]

def emitterOne : Addr := ⟨List.replicate 20 1, by simp⟩

/-- A block with rows of every kind. -/
def logBlock (height : UInt64) : BlockWrite where
  height := height
  headerRLP := [0xc0]
  pvm := []
  txs := [⟨zeroHash, [0xc0], [], [], [], [⟨.slot, emitterOne, zeroHash, [1]⟩], some emitterOne, none, none,
    [⟨emitterOne, [zeroHash, zeroHash]⟩]⟩]
  code := [(zeroHash, [0])]
  tail := [⟨.account, ⟨List.replicate 20 0, rfl⟩, zeroHash, [1]⟩]

theorem emptyBlock_replayable {height : UInt64} (h : height.toNat + 1 < 2 ^ 64) : (emptyBlock height).Replayable where
  rows := by
    have hrows : ∀ row ∈ (emptyBlock height).rows, row.length ≤ 60 := by
      simp [BlockWrite.rows, emptyBlock, statePayload, stateKeyPrefix, accountPrefix, prefixState]
    intro row hrow
    exact Nat.le_trans (hrows row hrow) (by decide)
  height := h

/-- Two blocks of 217 bytes, and a log torn 83 bytes into the second. -/
theorem recover_take_log_torn
    : ∃ m m1,
        (addAll emptyBlockCrypto goodLog [emptyBlock 1, emptyBlock 2]).run (fresh .window 0 0) = .ok () m ∧
        (addAll emptyBlockCrypto goodLog [emptyBlock 1]).run (fresh .window 0 0) = .ok () m1 ∧
        m1.log.length = 217 ∧ m.log.length = 434 ∧
        (recover 0 0).run (Memtable.empty .window false (m.log.take 300)) = .ok () m1 := by
  have hone : ((addAll emptyBlockCrypto goodLog [emptyBlock 1]).run (fresh .window 0 0)).okAnd
      fun m => m.log.length == 217 := by decide +kernel
  have htwo : ((addAll emptyBlockCrypto goodLog [emptyBlock 1, emptyBlock 2]).run (fresh .window 0 0)).okAnd
      fun m => m.log.length == 434 := by decide +kernel
  rcases exists_of_okAnd hone with ⟨⟨⟩, m1, hm1, hlen1⟩
  rcases exists_of_okAnd htwo with ⟨⟨⟩, m, hm, hlen⟩
  rw [beq_iff_eq] at hlen1 hlen
  refine ⟨m, m1, hm, hm1, hlen1, hlen, ?_⟩
  have hfit : ∀ b ∈ [emptyBlock 1, emptyBlock 2], b.Replayable := by
    rintro b (_ | ⟨_, _ | ⟨_, ⟨⟩⟩⟩)
    . exact emptyBlock_replayable (by decide)
    . exact emptyBlock_replayable (by decide)
  rcases recover_take_log .window 0 0 _ hfit m hm 300 with ⟨k, mk, hk, hadd, hle, hmax, hrec⟩
  have htake1 : [emptyBlock 1, emptyBlock 2].take 1 = [emptyBlock 1] := rfl
  have htake2 : [emptyBlock 1, emptyBlock 2].take 2 = [emptyBlock 1, emptyBlock 2] := rfl
  have hcases : k = 0 ∨ k = 1 ∨ k = 2 := by
    rw [length_cons, length_singleton] at hk
    omega
  rcases hcases with rfl | rfl | rfl
  . have := hmax 1 m1 (by omega) (by decide) (htake1 ▸ hm1)
    omega
  . rw [htake1, hm1] at hadd
    cases hadd
    exact hrec
  . rw [htake2, hm] at hadd
    cases hadd
    omega

/--
Behind the block at height 2 ^ 64 - 1 the next height is 0, which `recover` takes for a block below the
base: the whole log is there, and only the first of its two blocks comes back.
-/
theorem recover_drops_block_zero
    : ∃ m m',
        (addAll emptyBlockCrypto goodLog [emptyBlock 0xffffffffffffffff, emptyBlock 0]).run (fresh .window 5 0xffffffffffffffff) =
          .ok () m ∧
        (recover 5 0xffffffffffffffff).run (Memtable.empty .window false m.log) = .ok () m' ∧
        m.nextTx = 7 ∧ m'.nextTx = 6 := by
  have h : ((addAll emptyBlockCrypto goodLog [emptyBlock 0xffffffffffffffff, emptyBlock 0]).run
      (fresh .window 5 0xffffffffffffffff)).okAnd
        fun m => m.nextTx == 7 &&
          ((recover 5 0xffffffffffffffff).run (Memtable.empty .window false m.log)).okAnd fun m' => m'.nextTx == 6 := by
    decide +kernel
  rcases exists_of_okAnd h with ⟨⟨⟩, m, hm, hp⟩
  rw [Bool.and_eq_true, beq_iff_eq] at hp
  rcases exists_of_okAnd hp.2 with ⟨⟨⟩, m', hm', hn⟩
  exact ⟨m, m', hm, hm', hp.1, by simpa using hn⟩

end Memtable
end EpochDB.Store
