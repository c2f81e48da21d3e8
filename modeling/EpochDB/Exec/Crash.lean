import EpochDB.Exec.Resume

/-!
The executor as a system: blocks, batches, kills between any two writes, and reopens. A killed executor
finds its place again, as long as the kill does not leave Firewood further back than the blocks the
reopened executor looks at.
-/

namespace EpochDB.Exec

open Transition
open Store (Hash)

inductive Node where
  | down (d : Disk)
  | up (d : Disk) (ops : List Op) (e : Executor)
  deriving DecidableEq

def Node.disk : Node → Disk
  | .down d => d
  | .up d _ _ => d

inductive Event where
  | reopen
  | execute
  | stall
  | write
  | kill (lag : Nat)
  deriving DecidableEq

def fetched (chain : Nat → Block) (start n : Nat) : Except String Block :=
  if n < start then
    .error s!"fetch: container {n} was already released from the RAM queue"
  else
    .ok (chain n)

section

variable (evm : Hash → Block → Hash) (commitEvery : Nat) (chain : Nat → Block)

def reopen (d : Disk) : Except String (Nat × Reconciled) :=
  match fetchStart d.store (chain 0).hash commitEvery with
  | .error err => .error err
  | .ok (start, _) =>
    match reconcile evm commitEvery (fetched chain start) (chain 0).root d with
    | .error err => .error err
    | .ok r => .ok (start, r)

def step : Node → Event → Option Node
  | .down d, .reopen =>
    match reopen evm commitEvery chain d with
    | .error _ => none
    | .ok (_, r) => some (.up d r.ops r.executor)
  | .up d [] e, .execute =>
    match e.executeDecoded evm commitEvery (e.headNum + 1) (chain (e.headNum + 1)) with
    | .error _ => some (.down d)
    | .ok (e, ops) => some (.up d ops e)
  | .up d [] e, .stall =>
    if e.batchOpen ∧ e.batchCount > 0 then
      match e.flushBatch with
      | .error _ => some (.down d)
      | .ok (e, ops) => some (.up d ops e)
    else
      none
  | .up d (op :: ops) e, .write =>
    match op.apply d with
    | .error _ => some (.down d)
    | .ok d => some (.up d ops e)
  | .up d _ _, .kill lag =>
    if lag ≤ deferredCommitInterval commitEvery then
      some (.down { d with commits := d.commits.drop lag })
    else
      none
  | _, _ => none

structure Resumes (d : Disk) (h start : Nat) (r : Reconciled) : Prop where
  store : d.store = held chain h
  reopen : reopen evm commitEvery chain d = .ok (start, r)
  root : (chain r.fwN).root = d.root (chain 0).root
  fwN_le : r.fwN ≤ h
  budget : h ≤ r.fwN + walkBackBudgetFor commitEvery
  start_le : start ≤ r.fwN + 1
  executed : r.executor.headNum = h
  rows : ∃ commits, Op.applyAll d r.ops = .ok ⟨held chain h, commits⟩

def durable : List Commit → Nat
  | [] => 0
  | c :: _ => c.block

def Near (d : Disk) : Prop :=
  ∀ top, d.store.head = some top →
    ∀ n, durable d.commits < n → n ≤ max 1 (top - walkBackBudgetFor commitEvery) →
      (chain n).root = (chain (n - 1)).root

def NearKills : Node → Event → Prop
  | .up d _ _, .kill lag => Near commitEvery chain { d with commits := d.commits.drop lag }
  | _, _ => True

structure Left (d : Disk) (h : Nat) : Prop where
  store : d.store = held chain h
  committed : Committed chain h d.commits
  near : Near commitEvery chain d

end

section

variable {evm : Hash → Block → Hash} {commitEvery : Nat} {chain : Nat → Block}

theorem root_of_unchanged {a b : Nat} (hle : a ≤ b)
    (h : ∀ n, a < n → n ≤ b → (chain n).root = (chain (n - 1)).root) : (chain b).root = (chain a).root := by
  induction b with
  | zero =>
    have : a = 0 := by omega
    rw [this]
  | succ b ih =>
    by_cases hab : a = b + 1
    . rw [hab]
    . rw [h (b + 1) (by omega) (by omega)]
      apply ih
      . omega
      . intro n hlt hle
        apply h
        . exact hlt
        . omega

variable {d : Disk} {h : Nat}

theorem root_disk (hc : Committed chain h d.commits)
    : d.root (chain 0).root = (chain (durable d.commits)).root ∧ durable d.commits ≤ h := by
  unfold Disk.root
  cases hcommits : d.commits with
  | nil => exact ⟨rfl, Nat.zero_le h⟩
  | cons c cs =>
    have := hc c (by simp [hcommits])
    exact ⟨this.2, this.1⟩

theorem Left.exists_root (hleft : Left commitEvery chain d h) (hh : h ≠ 0)
    : ∃ j, 1 ≤ j ∧ h - walkBackBudgetFor commitEvery ≤ j ∧ j ≤ h ∧
        (chain j).root = d.root (chain 0).root := by
  rcases root_disk hleft.committed with ⟨hroot, hle⟩
  have hhead : d.store.head = some h := by
    rw [hleft.store]
    exact head_held hh
  refine ⟨max (durable d.commits) (max 1 (h - walkBackBudgetFor commitEvery)), by omega, by omega, by omega, ?_⟩
  rw [hroot]
  apply root_of_unchanged
  . omega
  . intro n hlt hle'
    apply hleft.near h hhead n hlt
    omega

theorem Left.locate (hleft : Left commitEvery chain d h) (hh : h ≠ 0)
    : ∃ fwN, locate d (chain 0).root commitEvery h = .ok fwN ∧ 1 ≤ fwN ∧ fwN ≤ h ∧
        h ≤ fwN + walkBackBudgetFor commitEvery ∧ (chain fwN).root = d.root (chain 0).root := by
  rcases hleft.exists_root hh with ⟨j, hj, hlo, hjh, hroot⟩
  rcases walkBack_held hlo hj hjh (Nat.le_refl h) hroot with ⟨fwN, hwalk, hle, hle', hfound⟩
  refine ⟨fwN, ?_, by omega, by omega, by omega, hfound⟩
  unfold Exec.locate
  rw [hleft.store]
  dsimp only
  rw [hwalk]

theorem fetchStart_held (commitEvery : Nat) (chain : Nat → Block) (hh : h ≠ 0)
    : ∃ anchor, fetchStart (held chain h) (chain 0).hash commitEvery =
        .ok (h - walkBackBudgetFor commitEvery + 1, anchor) := by
  unfold fetchStart
  rw [head_held hh]
  dsimp only
  rw [if_neg hh]
  split
  . next hgt =>
    rw [if_neg (by omega), header_held (by omega) (by omega)]
    exact ⟨_, rfl⟩
  . next hgt =>
    have : h - walkBackBudgetFor commitEvery = 0 := by omega
    rw [if_pos rfl, this]
    exact ⟨_, rfl⟩

theorem reconcile_of_locate (hvalid : Valid evm chain) {h start fwN : Nat} (hstore : d.store = held chain h) (hh : h ≠ 0)
    (hlocate : locate d (chain 0).root commitEvery h = .ok fwN) (hpos : 1 ≤ fwN) (hle : fwN ≤ h)
    (hroot : (chain fwN).root = d.root (chain 0).root) (hstart : start ≤ fwN + 1)
    : ∃ e ops,
        reconcile evm commitEvery (fetched chain start) (chain 0).root d = .ok ⟨fwN, e, ops⟩ ∧
          e.headNum = h ∧ e.Leads chain commitEvery h ops := by
  have hgood : (Executor.resting fwN (chain fwN).root).Good chain commitEvery := Executor.good_resting fwN
  have hblocks : ∀ n, fwN < n → n ≤ fwN + (h - fwN) → fetched chain start n = .ok (chain n) := by
    intro n hlt _
    unfold fetched
    rw [if_neg (by omega)]
  unfold reconcile
  rw [hstore, head_held hh]
  dsimp only
  rw [if_neg hh, hlocate]
  dsimp only
  have hheadRoot : (if fwN > 0 then d.root (chain 0).root else (chain 0).root) = (chain fwN).root := by
    rw [if_pos (by omega), hroot]
  rw [hheadRoot]
  split
  . next heq =>
    refine ⟨_, [], rfl, heq, hgood, trivial, hle, ?_⟩
    simp [writes]
  . rcases Executor.reexecute_of_good hvalid hblocks hgood hle with ⟨e, ops, hexec, hhead, hleads⟩
    have hrange : e.headNum = h := by
      rw [hhead]
      show fwN + (h - fwN) = h
      omega
    have hgap : (Executor.resting fwN (chain fwN).root).headNum = fwN := rfl
    rw [hgap] at hexec
    rw [hexec]
    exact ⟨e, ops, rfl, hrange, hleads⟩

theorem Left.resumes (hvalid : Valid evm chain) (hleft : Left commitEvery chain d h)
    : ∃ start r, Resumes evm commitEvery chain d h start r ∧ r.executor.Leads chain commitEvery h r.ops := by
  rcases d with ⟨store, commits⟩
  have hstore : store = held chain h := hleft.store
  by_cases hh : h = 0
  . subst hh hstore
    rcases root_disk hleft.committed with ⟨hroot, hdurable⟩
    have hgenesis : durable commits = 0 := by
      dsimp only at hdurable
      omega
    refine ⟨1, ⟨0, .resting 0 (chain 0).root, []⟩, ?_, ?_⟩
    . constructor
      . rfl
      . rfl
      . rw [hroot]
        dsimp only
        rw [hgenesis]
      . exact Nat.le_refl 0
      . exact Nat.zero_le _
      . exact Nat.le_refl 1
      . rfl
      . exact ⟨commits, rfl⟩
    . exact ⟨Executor.good_resting 0, trivial, Nat.le_refl 0, by simp [writes]⟩
  . rcases hleft.locate hh with ⟨fwN, hlocate, hpos, hle, hbudget, hroot⟩
    rcases fetchStart_held commitEvery chain hh with ⟨anchor, hstart⟩
    have hfetch : h - walkBackBudgetFor commitEvery + 1 ≤ fwN + 1 := by omega
    rcases reconcile_of_locate hvalid hleft.store hh hlocate hpos hle hroot hfetch with
      ⟨e, ops, hrec, hhead, hleads⟩
    refine ⟨h - walkBackBudgetFor commitEvery + 1, ⟨fwN, e, ops⟩, ?_, hleads⟩
    subst hstore
    have hafter : headAfter h ops = h := by
      apply headAfter_of_writes_le
      intro n hn
      have := hleads.writes n hn
      omega
    constructor
    . rfl
    . unfold Exec.reopen
      rw [hstart]
      dsimp only
      rw [hrec]
    . exact hroot
    . exact hle
    . exact hbudget
    . dsimp only
      omega
    . exact hhead
    . have := applyAll_of_sound hleads.sound hleft.committed
      rw [hafter] at this
      exact this

def Inv (commitEvery : Nat) (chain : Nat → Block) : Node → Prop
  | .down d => ∃ h, Left commitEvery chain d h
  | .up d ops e =>
    ∃ h, d.store = held chain h ∧ Committed chain h d.commits ∧ e.Leads chain commitEvery h ops

theorem inv_empty : Inv commitEvery chain (.down .empty) := by
  refine ⟨0, ?_⟩
  constructor
  . rfl
  . intro c hc
    contradiction
  . intro top htop
    contradiction

theorem inv_write {op : Op} {ops : List Op} {e : Executor} (h : Inv commitEvery chain (.up d (op :: ops) e))
    : ∃ d', op.apply d = .ok d' ∧ Inv commitEvery chain (.up d' ops e) := by
  rcases h with ⟨h, hstore, hc, hleads⟩
  rcases d with ⟨store, commits⟩
  subst hstore
  rcases apply_of_sound hleads.sound hc with ⟨h', commits', happly, _, hc', hops, hhead⟩
  refine ⟨_, happly, h', rfl, hc', hleads.good, hops, ?_, ?_⟩
  . rw [hhead]
    exact hleads.flushed
  . intro n hn
    apply hleads.writes
    cases op with
    | write m b => exact List.mem_cons_of_mem m hn
    | commit c => exact hn

theorem inv_step (hvalid : Valid evm chain) {s s' : Node} {ev : Event} (h : Inv commitEvery chain s)
    (hg : NearKills commitEvery chain s ev) (hstep : step evm commitEvery chain s ev = some s')
    : Inv commitEvery chain s' := by
  unfold step at hstep
  split at hstep
  . next d =>
    rcases h with ⟨h, hleft⟩
    rcases hleft.resumes hvalid with ⟨start, r, hresumes, hleads⟩
    rw [hresumes.reopen] at hstep
    cases hstep
    exact ⟨h, hleft.store, hleft.committed, hleads⟩
  . next d e =>
    rcases h with ⟨h, hstore, hc, hleads⟩
    rcases Executor.executeDecoded_of_good hvalid hleads.good hleads.flushed with
      ⟨e', ops, hexec, _, hleads'⟩
    rw [hexec] at hstep
    cases hstep
    exact ⟨h, hstore, hc, hleads'⟩
  . next d e =>
    split at hstep
    . next hopen =>
      rcases h with ⟨h, hstore, hc, hleads⟩
      rcases Executor.flushBatch_of_good hleads.good hopen.1 hleads.flushed with
        ⟨e', ops, hflush, _, hleads'⟩
      rw [hflush] at hstep
      cases hstep
      exact ⟨h, hstore, hc, hleads'⟩
    . contradiction
  . next d op ops e =>
    rcases inv_write h with ⟨d', happly, hinv⟩
    rw [happly] at hstep
    cases hstep
    exact hinv
  . next d ops e lag =>
    split at hstep
    . rcases h with ⟨h, hstore, hc, hleads⟩
      cases hstep
      refine ⟨h, hstore, ?_, hg⟩
      intro c hmem
      exact hc c (List.mem_of_mem_drop hmem)
    . contradiction
  . contradiction

/--
In every run whose kills leave Firewood near the head, the store has every block once in every state,
and a down node can be reopened.
-/
theorem resumes_of_nearKills (hvalid : Valid evm chain) {s : Node}
    (hreach : Reachable (step evm commitEvery chain) (NearKills commitEvery chain) (.down .empty) s)
    : ∃ h, s.disk.store = held chain h ∧
        ∀ d, s = .down d → ∃ start r, Resumes evm commitEvery chain d h start r := by
  have hinv : Inv commitEvery chain s :=
    hreach.invariant inv_empty (fun _ _ _ => inv_step hvalid)
  cases s with
  | down d =>
    rcases hinv with ⟨h, hleft⟩
    refine ⟨h, hleft.store, ?_⟩
    intro d' hd'
    cases hd'
    rcases hleft.resumes hvalid with ⟨start, r, hresumes, _⟩
    exact ⟨start, r, hresumes⟩
  | up d ops e =>
    rcases hinv with ⟨h, hstore, _⟩
    refine ⟨h, hstore, ?_⟩
    intro d' hd'
    contradiction

end

def oneChange (n : Nat) : Block :=
  ⟨.fill 32 (UInt8.ofNat n), .fill 32 (if n = 0 then 0 else 1), if n = 1 then 1 else 0⟩

def headerRoot (_ : Hash) (b : Block) : Hash := b.root

theorem resumes_of_nearKills_oneChange
    : ∃ d,
        Reachable (step headerRoot 1 oneChange) (NearKills 1 oneChange) (.down .empty) (.down d) ∧
        d.commits.length = 1 ∧
        ∃ h, d.store = held oneChange h ∧ ∃ start r, Resumes headerRoot 1 oneChange d h start r := by
  have hrun : Transition.run (step headerRoot 1 oneChange) (.down .empty)
      [.reopen, .execute, .write, .write, .execute, .write] =
        some (.up ⟨held oneChange 2, [⟨1, .fill 32 1⟩]⟩ [] { Executor.resting 2 (.fill 32 1) with
          batchStartRoot := .fill 32 0, batchRoot := .fill 32 0 }) := by decide +kernel
  have hnear : Near 1 oneChange ⟨held oneChange 2, [⟨1, .fill 32 1⟩]⟩ := by
    intro top htop n hlt hle
    rw [head_held (by simp)] at htop
    cases htop
    have hbudget : walkBackBudgetFor 1 = 4096 := rfl
    simp only [durable] at hlt
    omega
  have hreach : Reachable (step headerRoot 1 oneChange) (NearKills 1 oneChange) (.down .empty)
      (.down ⟨held oneChange 2, [⟨1, .fill 32 1⟩]⟩) := by
    refine .step (e := .kill 0) (Reachable.init.run ?_ hrun) hnear rfl
    intro e he s
    cases e with
    | kill lag => simp at he
    | _ => cases s <;> trivial
  rcases resumes_of_nearKills (fun _ => rfl) hreach with ⟨h, hstore, hresumes⟩
  exact ⟨_, hreach, rfl, h, hstore, hresumes _ rfl⟩

theorem kill_after_first_block_cannot_resume
    : ∃ d,
        Reachable (step headerRoot 1 oneChange) (fun _ _ => True) (.down .empty) (.down d) ∧
        Valid headerRoot oneChange ∧ ¬ ∃ h start r, Resumes headerRoot 1 oneChange d h start r := by
  have hrun : Transition.run (step headerRoot 1 oneChange) (.down .empty)
      [.reopen, .execute, .write, .write, .kill 1] = some (.down ⟨held oneChange 1, []⟩) := by
    decide +kernel
  have hfails : (reopen headerRoot 1 oneChange ⟨held oneChange 1, []⟩).isOk = false := by
    decide +kernel
  refine ⟨_, Reachable.init.run (fun _ _ _ => trivial) hrun, fun _ => rfl, ?_⟩
  rintro ⟨h, start, r, hresumes⟩
  rw [hresumes.reopen] at hfails
  contradiction

end EpochDB.Exec
