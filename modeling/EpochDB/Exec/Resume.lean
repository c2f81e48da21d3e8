import EpochDB.Exec.Impl

/-!
Executing the blocks of a valid chain: the rows come before the commits in every order of writes the
executor asks for, and the walk back finds Firewood's root where there is a block with it.
-/

namespace EpochDB.Exec

open List
open Store (Hash)

def held (chain : Nat → Block) (h : Nat) : ChainStore :=
  if h = 0 then .empty else ⟨1, (List.range' 1 h).map chain⟩

section Held

variable {chain : Nat → Block} {h n : Nat}

theorem blocks_held (chain : Nat → Block) (h : Nat) : (held chain h).blocks = (List.range' 1 h).map chain := by
  unfold held
  split
  . next hh => simp [hh, ChainStore.empty]
  . rfl

theorem blocks_held_ne_nil (hh : h ≠ 0) : (held chain h).blocks ≠ [] := by
  simp [blocks_held, hh]

theorem nextHeight_held (hh : h ≠ 0) : (held chain h).nextHeight = h + 1 := by
  unfold ChainStore.nextHeight
  rw [if_neg (blocks_held_ne_nil hh)]
  simp [held, hh, Nat.add_comm]

theorem head_held (hh : h ≠ 0) : (held chain h).head = some h := by
  unfold ChainStore.head
  rw [nextHeight_held hh]
  simp

theorem header_held (hn : 1 ≤ n) (hle : n ≤ h) : (held chain h).header n = some (chain n) := by
  have hh : h ≠ 0 := by omega
  have hlt : ¬ n < 1 := by omega
  simp only [ChainStore.header, held, hh, if_false, hlt]
  rw [getElem?_map, getElem?_range' (by omega)]
  simp
  congr 1
  omega

theorem writeBlock_held (hn : 1 ≤ n) (hle : n ≤ h + 1)
    : (held chain h).writeBlock n (chain n) = .ok (held chain (max h n)) := by
  unfold ChainStore.writeBlock
  cases h with
  | zero =>
    have : n = 1 := by omega
    subst this
    rfl
  | succ h =>
    rw [nextHeight_held (by omega), if_neg (blocks_held_ne_nil (by omega))]
    split
    . congr 2
      omega
    . have : n = h + 2 := by omega
      subst this
      rw [if_neg (by omega)]
      have hmax : max (h + 1) (h + 2) = h + 2 := by omega
      rw [hmax]
      simp only [held, Nat.add_eq_zero_iff, OfNat.ofNat_ne_zero, and_false, if_false]
      rw [range'_concat (n := h + 1)]
      have hnext : 1 + (h + 1) = h + 2 := by omega
      simp [hnext]

end Held

def Sound (chain : Nat → Block) : Nat → List Op → Prop
  | _, [] => True
  | h, .write n b :: ops => 1 ≤ n ∧ n ≤ h + 1 ∧ b = chain n ∧ Sound chain (max h n) ops
  | h, .commit c :: ops => c.block ≤ h ∧ c.root = (chain c.block).root ∧ Sound chain h ops

def headAfter : Nat → List Op → Nat
  | h, [] => h
  | h, .write n _ :: ops => headAfter (max h n) ops
  | h, .commit _ :: ops => headAfter h ops

def writes : List Op → List Nat
  | [] => []
  | .write n _ :: ops => n :: writes ops
  | .commit _ :: ops => writes ops

section Ops

variable {chain : Nat → Block} {h : Nat} {ops ops' : List Op}

theorem writes_append (ops ops' : List Op) : writes (ops ++ ops') = writes ops ++ writes ops' := by
  induction ops with
  | nil => rfl
  | cons op ops ih =>
    cases op with
    | write n b => simp [writes, ih]
    | commit c => simp [writes, ih]

theorem headAfter_append (h : Nat) (ops ops' : List Op) : headAfter h (ops ++ ops') = headAfter (headAfter h ops) ops' := by
  induction ops generalizing h with
  | nil => rfl
  | cons op ops ih =>
    cases op with
    | write n b => exact ih (max h n)
    | commit c => exact ih h

theorem Sound.append (hops : Sound chain h ops) (hops' : Sound chain (headAfter h ops) ops')
    : Sound chain h (ops ++ ops') := by
  induction ops generalizing h with
  | nil => exact hops'
  | cons op ops ih =>
    cases op with
    | write n b =>
      rcases hops with ⟨hn, hle, hb, hops⟩
      exact ⟨hn, hle, hb, ih hops hops'⟩
    | commit c =>
      rcases hops with ⟨hle, hroot, hops⟩
      exact ⟨hle, hroot, ih hops hops'⟩

theorem headAfter_of_writes_le (hle : ∀ n ∈ writes ops, n ≤ h) : headAfter h ops = h := by
  induction ops with
  | nil => rfl
  | cons op ops ih =>
    cases op with
    | write n b =>
      have hmax : max h n = h := by
        have := hle n (by simp [writes])
        omega
      rw [headAfter, hmax]
      apply ih
      intro m hm
      apply hle
      simp [writes, hm]
    | commit c =>
      apply ih
      exact hle

theorem le_headAfter (h : Nat) (ops : List Op) : h ≤ headAfter h ops := by
  induction ops generalizing h with
  | nil => exact Nat.le_refl h
  | cons op ops ih =>
    cases op with
    | write n b => exact Nat.le_trans (by omega) (ih (max h n))
    | commit c => exact ih h

def Committed (chain : Nat → Block) (h : Nat) (commits : List Commit) : Prop :=
  ∀ c ∈ commits, c.block ≤ h ∧ c.root = (chain c.block).root

theorem Committed.mono {h' : Nat} {commits : List Commit} (hc : Committed chain h commits) (hle : h ≤ h')
    : Committed chain h' commits := by
  intro c hmem
  have := hc c hmem
  exact ⟨by omega, this.2⟩

theorem apply_of_sound {op : Op} {commits : List Commit} (hops : Sound chain h (op :: ops)) (hc : Committed chain h commits)
    : ∃ h' commits',
        op.apply ⟨held chain h, commits⟩ = .ok ⟨held chain h', commits'⟩ ∧ h ≤ h' ∧
          Committed chain h' commits' ∧ Sound chain h' ops ∧ headAfter h' ops = headAfter h (op :: ops) := by
  cases op with
  | write n b =>
    rcases hops with ⟨hn, hle, rfl, hops⟩
    refine ⟨max h n, commits, ?_, by omega, hc.mono (by omega), hops, rfl⟩
    simp only [Op.apply]
    rw [writeBlock_held hn hle]
    rfl
  | commit c =>
    rcases hops with ⟨hle, hroot, hops⟩
    refine ⟨h, c :: commits, rfl, by omega, ?_, hops, rfl⟩
    intro c' hc'
    rcases mem_cons.mp hc' with rfl | hc'
    . exact ⟨hle, hroot⟩
    . exact hc c' hc'

theorem applyAll_of_sound {commits : List Commit} (hops : Sound chain h ops) (hc : Committed chain h commits)
    : ∃ commits', Op.applyAll ⟨held chain h, commits⟩ ops = .ok ⟨held chain (headAfter h ops), commits'⟩ := by
  induction ops generalizing h commits with
  | nil => exact ⟨commits, rfl⟩
  | cons op ops ih =>
    rcases apply_of_sound hops hc with ⟨h', commits', happly, _, hc', hops', hhead⟩
    rcases ih hops' hc' with ⟨commits'', hall⟩
    refine ⟨commits'', ?_⟩
    rw [← hhead, ← hall]
    simp only [Op.applyAll, happly]
    rfl

end Ops

def Valid (evm : Hash → Block → Hash) (chain : Nat → Block) : Prop :=
  ∀ n, evm (chain n).root (chain (n + 1)) = (chain (n + 1)).root

namespace Executor

def flushed (e : Executor) : Nat := if e.batchOpen then e.batchStartNum else e.headNum

structure Good (chain : Nat → Block) (commitEvery : Nat) (e : Executor) : Prop where
  headRoot : e.headRoot = (chain e.headNum).root
  le : e.flushed ≤ e.headNum
  buf : e.batchBuf = (List.range' (e.flushed + 1) (e.headNum - e.flushed)).map (fun n => (n, chain n))
  batchRoot : e.batchOpen = true → e.batchRoot = e.headRoot
  clean : e.batchOpen = true → e.batchDirty = false → e.batchStartRoot = e.headRoot
  perBlock : ¬ commitEvery > 1 → e.batchOpen = false

structure Leads (chain : Nat → Block) (commitEvery h : Nat) (e : Executor) (ops : List Op) : Prop where
  good : e.Good chain commitEvery
  sound : Sound chain h ops
  flushed : e.flushed ≤ headAfter h ops
  writes : ∀ n ∈ writes ops, n ≤ e.headNum

variable {chain : Nat → Block} {evm : Hash → Block → Hash} {commitEvery h : Nat} {e : Executor}

theorem good_resting (n : Nat) : (resting n (chain n).root).Good chain commitEvery := by
  constructor
  . rfl
  . exact Nat.le_refl n
  . simp [resting, flushed]
  . simp [resting]
  . simp [resting]
  . simp [resting]

theorem sound_writes {a k : Nat} (hle : a ≤ h) : let ops := (List.range' (a + 1) k).map (fun n => Op.write n (chain n))
      Sound chain h ops ∧ headAfter h ops = max h (a + k) ∧ Exec.writes ops = List.range' (a + 1) k := by
  induction k generalizing a h with
  | zero =>
    have hmax : max h a = h := by omega
    simp [Sound, headAfter, Exec.writes, hmax]
  | succ k ih =>
    have hmax : max (max h (a + 1)) (a + 1 + k) = max h (a + (k + 1)) := by omega
    rcases ih (a := a + 1) (h := max h (a + 1)) (by omega) with ⟨hsound, hhead, hwrites⟩
    rw [hmax] at hhead
    refine ⟨⟨by omega, by omega, rfl, hsound⟩, hhead, ?_⟩
    simp only [range'_succ, map_cons, Exec.writes]
    rw [hwrites]

theorem Good.writes (hgood : e.Good chain commitEvery)
    : e.batchBuf.map (fun (n, b) => Op.write n b) =
        (List.range' (e.flushed + 1) (e.headNum - e.flushed)).map (fun n => Op.write n (chain n)) := by
  rw [hgood.buf]
  simp

theorem flushBatch_of_good (hgood : e.Good chain commitEvery) (hopen : e.batchOpen = true) (hle : e.flushed ≤ h)
    : ∃ e' ops, e.flushBatch = .ok (e', ops) ∧ e'.headNum = e.headNum ∧ Leads chain commitEvery h e' ops := by
  have hcomputed : (if e.batchDirty then e.batchRoot else e.batchStartRoot) = e.headRoot := by
    split
    . exact hgood.batchRoot hopen
    . next hclean =>
      apply hgood.clean hopen
      simpa using hclean
  have hhead : e.flushed + (e.headNum - e.flushed) = e.headNum := by
    have := hgood.le
    omega
  rcases @sound_writes chain h _ (e.headNum - e.flushed) hle with ⟨hsound, hafter, hwrites⟩
  rw [hhead] at hafter
  unfold flushBatch
  dsimp only
  rw [hcomputed, if_neg (by simp), hgood.writes]
  refine ⟨_, _, rfl, rfl, ?_⟩
  have hcommit : Sound chain (max h e.headNum) (if e.batchDirty then [.commit ⟨e.headNum, e.headRoot⟩] else []) := by
    split
    . refine ⟨?_, hgood.headRoot, trivial⟩
      dsimp only
      omega
    . trivial
  constructor
  . constructor
    . exact hgood.headRoot
    . simp [flushed]
    . simp [flushed]
    . simp
    . simp
    . simp
  . apply hsound.append
    rw [hafter]
    exact hcommit
  . rw [headAfter_append, hafter]
    have := le_headAfter (max h e.headNum)
      (if e.batchDirty then [.commit ⟨e.headNum, e.headRoot⟩] else [])
    show e.headNum ≤ _
    omega
  . intro n hn
    rw [writes_append, hwrites, mem_append, mem_range'_1] at hn
    rcases hn with hn | hn
    . dsimp only
      omega
    . split at hn
      . simp [Exec.writes] at hn
      . simp [Exec.writes] at hn

theorem good_openBatch (hgood : e.Good chain commitEvery) (hmode : commitEvery > 1)
    : e.openBatch.Good chain commitEvery ∧ e.openBatch.batchOpen = true ∧
        e.openBatch.flushed = e.flushed ∧ e.openBatch.headNum = e.headNum := by
  unfold openBatch
  split
  . next hopen => exact ⟨hgood, hopen, rfl, rfl⟩
  . next hopen =>
    have hflushed : e.flushed = e.headNum := by
      unfold flushed
      rw [if_neg hopen]
    have hbuf := hgood.buf
    rw [hflushed] at hbuf
    refine ⟨?_, rfl, ?_, rfl⟩
    . constructor
      . exact hgood.headRoot
      . simp [flushed]
      . simpa [flushed] using hbuf
      . simp
      . simp
      . intro hnot
        omega
    . rw [hflushed]
      simp [flushed]

theorem good_drain (hvalid : Valid evm chain) (hgood : e.Good chain commitEvery) (hopen : e.batchOpen = true)
    : (e.drain evm (e.headNum + 1) (chain (e.headNum + 1))).Good chain commitEvery ∧
        (e.drain evm (e.headNum + 1) (chain (e.headNum + 1))).flushed = e.flushed := by
  have hflushed : (e.drain evm (e.headNum + 1) (chain (e.headNum + 1))).flushed = e.flushed := by
    unfold drain flushed
    split <;> rfl
  refine ⟨?_, hflushed⟩
  constructor
  . rfl
  . rw [hflushed]
    exact Nat.le_trans hgood.le (Nat.le_succ e.headNum)
  . rw [hflushed]
    have hlen : e.headNum + 1 - e.flushed = e.headNum - e.flushed + 1 := by
      have := hgood.le
      omega
    have hlast : e.flushed + 1 + (e.headNum - e.flushed) = e.headNum + 1 := by
      have := hgood.le
      omega
    have hbuf : (e.drain evm (e.headNum + 1) (chain (e.headNum + 1))).batchBuf =
        e.batchBuf ++ [(e.headNum + 1, chain (e.headNum + 1))] := by
      unfold drain
      split <;> rfl
    rw [hbuf, hgood.buf]
    show _ = (List.range' (e.flushed + 1) (e.headNum + 1 - e.flushed)).map _
    rw [hlen, range'_concat, Nat.one_mul, hlast]
    simp
  . intro _
    unfold drain
    dsimp only
    split
    . next hempty =>
      rw [hempty.1]
      exact hgood.batchRoot hopen
    . dsimp only
      rw [hgood.batchRoot hopen, hgood.headRoot]
      exact hvalid e.headNum
  . intro _ hclean
    unfold drain at hclean ⊢
    dsimp only at hclean ⊢
    split
    . next hempty =>
      rw [if_pos hempty] at hclean
      rw [hempty.1]
      exact hgood.clean hopen hclean
    . next hempty =>
      rw [if_neg hempty] at hclean
      contradiction
  . intro hmode
    have := hgood.perBlock hmode
    rw [hopen] at this
    contradiction

theorem executeBatched_of_good (hvalid : Valid evm chain) (hgood : e.Good chain commitEvery)
    (hmode : commitEvery > 1) (hle : e.flushed ≤ h)
    : ∃ e' ops,
        e.executeBatched evm commitEvery (e.headNum + 1) (chain (e.headNum + 1)) = .ok (e', ops) ∧
          e'.headNum = e.headNum + 1 ∧ Leads chain commitEvery h e' ops := by
  rcases good_openBatch hgood hmode with ⟨hgood1, hopen1, hflushed1, hhead1⟩
  rcases good_drain hvalid hgood1 hopen1 with ⟨hgood2, hflushed2⟩
  rw [hhead1] at hgood2 hflushed2
  rw [hflushed1] at hflushed2
  generalize he : e.openBatch.drain evm (e.headNum + 1) (chain (e.headNum + 1)) = e2 at hgood2 hflushed2
  have hhead2 : e2.headNum = e.headNum + 1 := by
    rw [← he]
    rfl
  have hopen2 : e2.batchOpen = true := by
    rw [← he]
    unfold drain
    split <;> exact hopen1
  unfold executeBatched
  rw [he]
  dsimp only
  split
  . rcases flushBatch_of_good (h := h) hgood2 hopen2 (by omega) with ⟨e', ops, hflush, hhead, hleads⟩
    exact ⟨e', ops, hflush, by omega, hleads⟩
  . refine ⟨e2, [], rfl, hhead2, ?_⟩
    constructor
    . exact hgood2
    . trivial
    . rw [hflushed2]
      exact hle
    . simp [Exec.writes]

theorem executeBlock_of_good (hvalid : Valid evm chain) (hgood : e.Good chain commitEvery)
    : ∃ ops,
        e.executeBlock evm (e.headNum + 1) (chain (e.headNum + 1)) = .ok ((chain (e.headNum + 1)).root, ops) ∧
          (ops = [.write (e.headNum + 1) (chain (e.headNum + 1))] ∨
            ops = [.write (e.headNum + 1) (chain (e.headNum + 1)),
              .commit ⟨e.headNum + 1, (chain (e.headNum + 1)).root⟩]) := by
  have hroot : evm e.headRoot (chain (e.headNum + 1)) = (chain (e.headNum + 1)).root := by
    rw [hgood.headRoot]
    exact hvalid e.headNum
  unfold executeBlock
  split
  . next hempty =>
    rw [hempty.1]
    exact ⟨_, rfl, .inl rfl⟩
  . dsimp only
    rw [hroot, if_neg (by simp)]
    exact ⟨_, rfl, .inr rfl⟩

theorem executeDecoded_of_good (hvalid : Valid evm chain) (hgood : e.Good chain commitEvery) (hle : e.flushed ≤ h)
    : ∃ e' ops,
        e.executeDecoded evm commitEvery (e.headNum + 1) (chain (e.headNum + 1)) = .ok (e', ops) ∧
          e'.headNum = e.headNum + 1 ∧ Leads chain commitEvery h e' ops := by
  unfold executeDecoded
  split
  . next hmode =>
    rcases executeBatched_of_good hvalid hgood hmode hle with ⟨e', ops, hexec, hhead, hleads⟩
    rw [hexec]
    exact ⟨e', ops, rfl, hhead, hleads⟩
  . next hmode =>
    have hclosed := hgood.perBlock hmode
    have hflushed : e.flushed = e.headNum := by
      simp [flushed, hclosed]
    have hbuf := hgood.buf
    rw [hflushed] at hbuf hle
    rcases executeBlock_of_good hvalid hgood with ⟨ops, hexec, hops⟩
    rw [hexec]
    refine ⟨_, ops, rfl, rfl, ?_⟩
    have hafter : headAfter h ops = max h (e.headNum + 1) := by
      rcases hops with rfl | rfl <;> rfl
    constructor
    . constructor
      . rfl
      . simp [flushed, hclosed]
      . simpa [flushed, hclosed] using hbuf
      . simp [hclosed]
      . simp [hclosed]
      . simp [hclosed]
    . rcases hops with rfl | rfl
      . exact ⟨by omega, by omega, rfl, trivial⟩
      . exact ⟨by omega, by omega, rfl, by dsimp only; omega, rfl, trivial⟩
    . rw [hafter]
      simp [flushed, hclosed]
    . intro n hn
      rcases hops with rfl | rfl
      all_goals
        simp only [Exec.writes, mem_singleton] at hn
        simp [hn]

theorem Leads.append {e' : Executor} {ops ops' : List Op} (h1 : Leads chain commitEvery h e ops)
    (h2 : Leads chain commitEvery (headAfter h ops) e' ops') (hhead : e.headNum ≤ e'.headNum)
    : Leads chain commitEvery h e' (ops ++ ops') := by
  constructor
  . exact h2.good
  . exact h1.sound.append h2.sound
  . rw [headAfter_append]
    exact h2.flushed
  . intro n hn
    rw [writes_append, mem_append] at hn
    rcases hn with hn | hn
    . exact Nat.le_trans (h1.writes n hn) hhead
    . exact h2.writes n hn

theorem reexecute_of_good (hvalid : Valid evm chain) {blocks : Nat → Except String Block} {k : Nat}
    (hblocks : ∀ n, e.headNum < n → n ≤ e.headNum + k → blocks n = .ok (chain n))
    (hgood : e.Good chain commitEvery) (hle : e.flushed ≤ h)
    : ∃ e' ops,
        e.reexecute evm commitEvery blocks (List.range' (e.headNum + 1) k) = .ok (e', ops) ∧
          e'.headNum = e.headNum + k ∧ Leads chain commitEvery h e' ops := by
  induction k generalizing e h with
  | zero =>
    simp only [range'_zero, reexecute]
    split
    . next hopen =>
      rcases flushBatch_of_good hgood hopen.1 hle with ⟨e', ops, hflush, hhead, hleads⟩
      rw [hflush]
      exact ⟨e', ops, rfl, hhead, hleads⟩
    . exact ⟨e, [], rfl, rfl, hgood, trivial, hle, by simp [Exec.writes]⟩
  | succ k ih =>
    rcases executeDecoded_of_good hvalid hgood hle with ⟨e1, ops1, hexec, hhead1, hleads1⟩
    have hblocks1 : ∀ n, e1.headNum < n → n ≤ e1.headNum + k → blocks n = .ok (chain n) := by
      intro n hlt hle
      apply hblocks
      . omega
      . omega
    rcases ih hblocks1 hleads1.good hleads1.flushed with ⟨e2, ops2, hrest, hhead2, hleads2⟩
    refine ⟨e2, ops1 ++ ops2, ?_, by omega, hleads1.append hleads2 (by omega)⟩
    rw [hhead1] at hrest
    simp only [range'_succ, reexecute]
    rw [hblocks (e.headNum + 1) (by omega) (by omega)]
    dsimp only
    rw [hexec]
    dsimp only
    rw [hrest]

end Executor

theorem walkBack_held {chain : Nat → Block} {h lo i j : Nat} {rootFW : Hash} (hlo : lo ≤ j) (hj : 1 ≤ j)
    (hji : j ≤ i) (hi : i ≤ h) (hroot : (chain j).root = rootFW)
    : ∃ fwN, walkBack (held chain h) rootFW lo i = .ok (some fwN) ∧ j ≤ fwN ∧ fwN ≤ i ∧
        (chain fwN).root = rootFW := by
  induction i with
  | zero => omega
  | succ i ih =>
    unfold walkBack
    rw [header_held (by omega) hi]
    dsimp only
    split
    . next hfound => exact ⟨i + 1, rfl, hji, Nat.le_refl _, hfound⟩
    . next hnot =>
      have hne : j ≠ i + 1 := by
        rintro rfl
        contradiction
      rw [if_neg (by omega)]
      rcases ih (by omega) (by omega) with ⟨fwN, hwalk, hle, hle', hroot'⟩
      exact ⟨fwN, hwalk, hle, by omega, hroot'⟩

end EpochDB.Exec
