import EpochDB.Store.Mem.Lemmas

/-!
The complete blocks of a window log. The replay of a log lands them one after the other, so what a log
holds for a reopening process is the list `logBlocks`.
-/

namespace EpochDB.Store

open List

structure LogBlock where
  height : UInt64
  nextTx : UInt64
  pend : List Pend
  stop : Nat
  deriving DecidableEq, Repr

namespace LogBlock

def muts (b : LogBlock) : List Pend := b.pend ++ [.pad b.nextTx]

end LogBlock

theorem Defers.take {fs : List Frame} {off : Nat} {ps : List Pend} (h : Defers fs off ps) (k : Nat)
    : ∃ ps', Defers (fs.take k) off ps' := by
  induction fs generalizing off ps k with
  | nil => exact ⟨[], by simp [Defers]⟩
  | cons f fs ih =>
    cases k with
    | zero => exact ⟨[], rfl⟩
    | succ k =>
      rcases h with ⟨hlen, p, ps', hp, hrest, rfl⟩
      rcases ih hrest k with ⟨ps'', htake⟩
      exact ⟨p :: ps'', hlen, p, ps'', hp, htake, rfl⟩

namespace Memtable

def blocks : List Frame → Nat → List Pend → List LogBlock
  | [], _, _ => []
  | f :: fs, off, pend =>
    match Pend.ofFrame f (off + Frame.headerSize) with
    | .stop => []
    | .defer p => blocks fs (off + f.encode.length) (pend ++ [p])
    | .endBlock height nextTx =>
      ⟨height, nextTx, pend, off + f.encode.length⟩ :: blocks fs (off + f.encode.length) []

def logBlocks (log : Bytes) : List LogBlock := blocks (Frame.readAll maxRow log) 0 []

def lastStop (good : Nat) (bl : List LogBlock) : Nat := bl.foldl (fun _ b => b.stop) good

def land (b : LogBlock) : MemM Unit := do
  let m ← get
  if b.height < m.baseHeight then
    return
  if !m.started then
    set { m with baseHeight := b.height, started := true }
  (liftRows (Pend.commit b.muts)).adaptExcept (fun e => s!"store: window log replay: {e}")
  modify (fun m => { m with nextHeight := b.height + 1, nextTx := b.nextTx })

theorem replay_eq_land (fs : List Frame) (r : Replay)
    : replay fs r = (do
        (blocks fs r.off r.pend).forM land
        return lastStop r.good (blocks fs r.off r.pend)) := by
  induction fs generalizing r with
  | nil => rfl
  | cons f fs ih =>
    have hoff : r.off + Frame.headerSize + f.payload.length = r.off + f.encode.length := by
      rw [Frame.length_encode, Nat.add_assoc]
    simp only [replay, blocks, hoff]
    cases Pend.ofFrame f (r.off + Frame.headerSize) with
    | stop => rfl
    | defer p => exact ih _
    | endBlock height nextTx =>
      simp only [ih, EStateM.run_forM_cons, lastStop, foldl_cons]
      unfold land
      simp only [bind_assoc]
      congr 1
      funext m
      split
      . simp
      . split
        . simp [LogBlock.muts]
        . simp [LogBlock.muts]

def endFrame (height nextTx : UInt64) : Frame :=
  ⟨RecKind.endBlock.byte, height, Bytes.putUint64 nextTx⟩

abbrev blockBytes (fs : List Frame) (height nextTx : UInt64) : Bytes := Frame.encodeAll (fs ++ [endFrame height nextTx])

theorem ofFrame_endFrame (height nextTx : UInt64) (body : Nat)
    : Pend.ofFrame (endFrame height nextTx) body = .endBlock height nextTx := by
  simp [Pend.ofFrame, endFrame]

theorem length_endFrame_le (height nextTx : UInt64) : (endFrame height nextTx).payload.length ≤ maxRow := by
  simp [endFrame, maxRow]

variable {fs : List Frame} {off : Nat} {ps pend : List Pend} {g : LogBlock} {log : Bytes}

theorem blocks_defers (h : Defers fs off ps) (rest : List Frame) (pend : List Pend)
    : blocks (fs ++ rest) off pend = blocks rest (off + (Frame.encodeAll fs).length) (pend ++ ps) := by
  induction fs generalizing off ps pend with
  | nil =>
    cases h
    simp
  | cons f fs ih =>
    rcases h with ⟨-, p, ps', hp, hrest, rfl⟩
    simp only [cons_append, blocks, hp]
    rw [ih hrest]
    simp [Nat.add_assoc]

theorem blocks_block (h : Defers fs off ps) (height nextTx : UInt64) (rest : List Frame)
    : blocks (fs ++ [endFrame height nextTx] ++ rest) off [] =
        ⟨height, nextTx, ps, off + (blockBytes fs height nextTx).length⟩ ::
          blocks rest (off + (blockBytes fs height nextTx).length) [] := by
  rw [append_assoc, blocks_defers h]
  simp only [singleton_append, blocks, ofFrame_endFrame]
  simp [Nat.add_assoc]

theorem blocks_of_defers (h : Defers fs off ps) : blocks fs off pend = [] := by
  have := blocks_defers h [] pend
  rwa [append_nil] at this

theorem fit_of_defers (h : Defers fs off ps) : Frame.Fit maxRow fs := by
  induction fs generalizing off ps with
  | nil => simp [Frame.Fit]
  | cons f fs ih =>
    rcases h with ⟨hlen, p, ps', hp, hrest, rfl⟩
    intro g hg
    rw [mem_cons] at hg
    cases hg with
    | inl hg => rwa [hg]
    | inr hg => exact ih hrest g hg

theorem fit_block {height nextTx : UInt64} (h : Defers fs off ps) : Frame.Fit maxRow (fs ++ [endFrame height nextTx]) := by
  apply (fit_of_defers h).append
  intro f hf
  rw [mem_singleton] at hf
  rw [hf]
  exact length_endFrame_le height nextTx

theorem blocks_torn {off n : Nat} {height nextTx : UInt64}
    (h : Defers fs off ps) (hn : n < (blockBytes fs height nextTx).length)
    : blocks (Frame.readAll maxRow ((blockBytes fs height nextTx).take n))
        off pend = [] := by
  rcases Frame.readAll_take_encodeAll maxRow_lt (fit_block h) n with ⟨k, hread, hle, -⟩
  rw [hread]
  -- the end record is not among the records before the cut
  have hk : k ≤ fs.length := by
    by_contra hk
    rw [take_of_length_le (by simp; omega)] at hle
    exact Nat.not_lt.mpr hle hn
  rw [take_append_of_le_length hk]
  rcases h.take k with ⟨ps', htake⟩
  exact blocks_of_defers htake

theorem blocks_take_isPrefix (fs : List Frame) (off k : Nat) (pend : List Pend)
    : blocks (fs.take k) off pend <+: blocks fs off pend := by
  induction fs generalizing off k pend with
  | nil => simp
  | cons f fs ih =>
    cases k with
    | zero => exact nil_prefix
    | succ k =>
      simp only [take_succ_cons, blocks]
      cases Pend.ofFrame f (off + Frame.headerSize) with
      | stop => exact prefix_rfl
      | defer p => exact ih _ _ _
      | endBlock height nextTx =>
        rw [prefix_cons_inj]
        exact ih _ _ _

theorem le_stop_of_mem_blocks {f : Frame} (h : g ∈ blocks (f :: fs) off pend) : off + f.encode.length ≤ g.stop := by
  induction fs generalizing f off pend with
  | nil =>
    simp only [blocks] at h
    split at h
    . simp at h
    . simp at h
    . simp only [mem_singleton] at h
      simp [h]
  | cons f' fs ih =>
    rw [blocks] at h
    split at h
    . simp at h
    . have := ih h
      omega
    . rw [mem_cons] at h
      cases h with
      | inl h => simp [h]
      | inr h =>
        have := ih h
        omega

theorem mem_blocks_take {off n k : Nat} (h : g ∈ blocks fs off pend) (hstop : g.stop ≤ off + n)
    (hk : k < fs.length → n < (Frame.encodeAll (fs.take (k + 1))).length)
    : g ∈ blocks (fs.take k) off pend := by
  induction fs generalizing off n k pend with
  | nil => simpa using h
  | cons f fs ih =>
    have hle := le_stop_of_mem_blocks h
    cases k with
    | zero =>
      have := hk (by simp)
      simp at this
      omega
    | succ k =>
      have hk' : k < fs.length → n - f.encode.length < (Frame.encodeAll (fs.take (k + 1))).length := by
        intro hlt
        have := hk (by simpa using hlt)
        simp only [take_succ_cons, Frame.encodeAll_cons, length_append] at this ⊢
        omega
      simp only [take_succ_cons, blocks] at h ⊢
      cases hact : Pend.ofFrame f (off + Frame.headerSize) with
      | stop => simp [hact] at h
      | defer p =>
        simp only [hact] at h ⊢
        exact ih h (by omega) hk'
      | endBlock height nextTx =>
        simp only [hact, mem_cons] at h ⊢
        cases h with
        | inl h => exact .inl h
        | inr h => exact .inr (ih h (by omega) hk')

theorem blocks_cut (fs : List Frame) (off good : Nat) (pend : List Pend)
    : blocks fs off pend = [] ∨
      ∃ k,
        off + (Frame.encodeAll (fs.take k)).length = lastStop good (blocks fs off pend) ∧
        ∀ gs, blocks (fs.take k ++ gs) off pend =
          blocks fs off pend ++ blocks gs (off + (Frame.encodeAll (fs.take k)).length) [] := by
  induction fs generalizing off good pend with
  | nil => exact .inl rfl
  | cons f fs ih =>
    cases hact : Pend.ofFrame f (off + Frame.headerSize) with
    | stop => exact .inl (by simp [blocks, hact])
    | defer p =>
      rcases ih (off + f.encode.length) good (pend ++ [p]) with h | ⟨k, hlen, happ⟩
      . exact .inl (by simpa [blocks, hact] using h)
      . refine .inr ⟨k + 1, ?_, ?_⟩
        . simpa [blocks, hact, Nat.add_assoc] using hlen
        . intro gs
          simpa [blocks, hact, Nat.add_assoc] using happ gs
    | endBlock height nextTx =>
      right
      rcases ih (off + f.encode.length) (off + f.encode.length) [] with h | ⟨k, hlen, happ⟩
      . refine ⟨1, ?_, ?_⟩
        . simp [blocks, hact, h, lastStop]
        . intro gs
          simp [blocks, hact, h]
      . refine ⟨k + 1, ?_, ?_⟩
        . simp only [blocks, hact, lastStop, foldl_cons]
          simpa [lastStop, Nat.add_assoc] using hlen
        . intro gs
          simpa [blocks, hact, Nat.add_assoc] using happ gs

def Whole (log : Bytes) : Prop := ∃ fs, Frame.Fit maxRow fs ∧ log = Frame.encodeAll fs

theorem logBlocks_encodeAll (h : Frame.Fit maxRow fs) : logBlocks (Frame.encodeAll fs) = blocks fs 0 [] := by
  rw [logBlocks, Frame.readAll_encodeAll maxRow_lt h]

theorem Whole.append (h : Whole log) (hfs : Frame.Fit maxRow fs) : Whole (log ++ Frame.encodeAll fs) := by
  rcases h with ⟨gs, hgs, rfl⟩
  exact ⟨gs ++ fs, hgs.append hfs, by simp⟩

theorem Whole.logBlocks_take_isPrefix (h : Whole log) (n : Nat) : logBlocks (log.take n) <+: logBlocks log := by
  rcases h with ⟨fs, hfs, rfl⟩
  rcases Frame.readAll_take_encodeAll maxRow_lt hfs n with ⟨k, hread, -, -⟩
  rw [logBlocks_encodeAll hfs, logBlocks, hread]
  exact blocks_take_isPrefix fs 0 k []

theorem Whole.mem_logBlocks_take (h : Whole log)
    (hg : g ∈ logBlocks log) {n : Nat} (hstop : g.stop ≤ n) : g ∈ logBlocks (log.take n) := by
  rcases h with ⟨fs, hfs, rfl⟩
  rcases Frame.readAll_take_encodeAll maxRow_lt hfs n with ⟨k, hread, -, hk⟩
  rw [logBlocks_encodeAll hfs] at hg
  rw [logBlocks, hread]
  exact mem_blocks_take hg (by omega) hk

theorem stop_le_of_mem_blocks (h : g ∈ blocks fs off pend) : g.stop ≤ off + (Frame.encodeAll fs).length := by
  induction fs generalizing off pend with
  | nil => simp [blocks] at h
  | cons f fs ih =>
    rw [Frame.encodeAll_cons, length_append]
    simp only [blocks] at h
    split at h
    . simp at h
    . have := ih h
      omega
    . rw [mem_cons] at h
      cases h with
      | inl h =>
        rw [h]
        simp only
        omega
      | inr h =>
        have := ih h
        omega

theorem stop_le_of_mem (hg : g ∈ logBlocks log) : g.stop ≤ log.length := by
  rcases Frame.exists_append_readAll maxRow log with ⟨tail, htail⟩
  have := stop_le_of_mem_blocks hg
  rw [htail, length_append]
  omega

def Closed (log : Bytes) : Prop :=
  ∀ fs, Frame.Fit maxRow fs →
    logBlocks (log ++ Frame.encodeAll fs) = logBlocks log ++ blocks fs log.length []

theorem closed_nil : Closed [] := by
  intro fs hfs
  exact logBlocks_encodeAll hfs

theorem Closed.logBlocks_append_defers (h : Closed log) (hdef : Defers fs log.length ps)
    : logBlocks (log ++ Frame.encodeAll fs) = logBlocks log := by
  rw [h fs (fit_of_defers hdef), blocks_of_defers hdef, append_nil]

theorem Closed.append_block (h : Closed log) (hdef : Defers fs log.length ps) (height nextTx : UInt64)
    : Closed (log ++ blockBytes fs height nextTx) ∧
      logBlocks (log ++ blockBytes fs height nextTx) =
        logBlocks log ++
          [⟨height, nextTx, ps,
            log.length + (blockBytes fs height nextTx).length⟩] := by
  have hone : logBlocks (log ++ blockBytes fs height nextTx) =
      logBlocks log ++
        [⟨height, nextTx, ps,
          log.length + (blockBytes fs height nextTx).length⟩] := by
    rw [h _ (fit_block hdef)]
    have := blocks_block hdef height nextTx []
    rw [append_nil] at this
    rw [this]
    rfl
  refine ⟨?_, hone⟩
  intro gs hgs
  rw [hone, append_assoc, ← Frame.encodeAll_append]
  rw [h _ ((fit_block hdef).append hgs), blocks_block hdef]
  simp

theorem closed_cut (log : Bytes)
    : Whole (log.take (lastStop 0 (logBlocks log))) ∧
      Closed (log.take (lastStop 0 (logBlocks log))) ∧
      logBlocks (log.take (lastStop 0 (logBlocks log))) = logBlocks log ∧
      (log.take (lastStop 0 (logBlocks log))).length = lastStop 0 (logBlocks log) := by
  have hfit := Frame.fit_readAll maxRow log
  rcases Frame.exists_append_readAll maxRow log with ⟨tail, htail⟩
  generalize hfs : Frame.readAll maxRow log = fs at hfit htail
  have hlog : logBlocks log = blocks fs 0 [] := by rw [logBlocks, hfs]
  rcases blocks_cut fs 0 0 [] with hnil | ⟨k, hlen, happ⟩
  . rw [hlog, hnil]
    refine ⟨⟨[], by simp [Frame.Fit], by simp [lastStop]⟩, ?_, rfl, rfl⟩
    simpa [lastStop] using closed_nil
  . rw [Nat.zero_add, ← hlog] at hlen
    have hcut : log.take (lastStop 0 (logBlocks log)) = Frame.encodeAll (fs.take k) := by
      rw [← hlen]
      have : log = Frame.encodeAll (fs.take k) ++ (Frame.encodeAll (fs.drop k) ++ tail) := by
        rw [← append_assoc, ← Frame.encodeAll_append, take_append_drop]
        exact htail
      conv => lhs; rw [this]
      rw [take_left' rfl]
    have hsame : logBlocks (Frame.encodeAll (fs.take k)) = logBlocks log := by
      rw [logBlocks_encodeAll (hfit.take k), hlog]
      have := happ []
      simpa [blocks] using this
    rw [hcut]
    refine ⟨⟨_, hfit.take k, rfl⟩, ?_, hsame, hlen⟩
    intro gs hgs
    rw [hsame, ← Frame.encodeAll_append, logBlocks_encodeAll ((hfit.take k).append hgs)]
    rw [happ gs, hlog]
    simp

end Memtable
end EpochDB.Store
