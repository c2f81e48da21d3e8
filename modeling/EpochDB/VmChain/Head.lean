import EpochDB.VmChain.Vm

/-!
Between two calls the VM's head id is the hash of the block at the executor's head, if the executor
started with no blocks. Over a data dir with blocks it is the genesis hash, and the VM refuses the block
it should take.
-/

namespace EpochDB.VmChain

def hashAt (env : Env) (headers : List Header) : Nat → Option ID
  | 0 => some env.genesisHash
  | n + 1 => (headers[n]?).map Header.hash

structure Tracks (env : Env) (vm : VM) : Prop where
  head : hashAt env vm.headers vm.live = some vm.headID
  lastAccepted : vm.lastAccepted env = .ok vm.headID
  handed : ∀ b, b.genesis = false → b.height = vm.live + 1 → vm.runErr = none → b.parent = vm.headID →
    (vm.verify env b).1 = .handed
  refused : ∀ b, b.genesis = false → b.height = vm.live + 1 → b.parent ≠ vm.headID →
    ∃ err, vm.verify env b = (.refused err, vm)

variable {env : Env} {vm vm' : VM}

theorem lastAccepted_of_hashAt {id : ID} (h : hashAt env vm.headers vm.live = some id) : vm.lastAccepted env = .ok id := by
  unfold VM.lastAccepted VM.getBlockIDAtHeight
  cases hlive : vm.live with
  | zero =>
    rw [hlive] at h
    cases h
    rfl
  | succ n =>
    rw [hlive] at h
    simp only [hashAt, Option.map_eq_some_iff] at h
    rcases h with ⟨hdr, hget, rfl⟩
    rw [if_neg (by omega), if_neg (by omega)]
    simp [header, hget]

theorem tracks_of_hashAt (h : hashAt env vm.headers vm.live = some vm.headID) : Tracks env vm := by
  constructor
  . exact h
  . exact lastAccepted_of_hashAt h
  . intro b hbody hheight hrun hparent
    have hgt : ¬ b.height ≤ vm.live := by omega
    simp [VM.verify, hbody, hheight, hrun, hparent]
  . intro b hbody hheight hparent
    simp only [VM.verify, hbody, hheight, Bool.false_eq_true, if_false]
    rw [if_neg (by omega)]
    split
    . next err _ => exact ⟨err, rfl⟩
    . rw [if_neg (by simp), if_pos hparent]
      exact ⟨_, rfl⟩

inductive Pending (env : Env) (vm : VM) (b : Block) : Prop where
  | handed (hheight : b.height = vm.live + 1) (hhead : hashAt env vm.headers vm.live = some vm.headID)
      (hlen : vm.headers.length = vm.live) (hsrc : vm.src = Function.update (fun _ => none) b.height (some b))
  | written (hheight : b.height = vm.live + 1) (hhead : hashAt env vm.headers vm.live = some vm.headID)
      (hlen : vm.headers.length = vm.live + 1) (hhash : hashAt env vm.headers b.height = some b.id)
      (hsrc : vm.src = fun _ => none)
  | published (hheight : b.height = vm.live) (hhash : hashAt env vm.headers vm.live = some b.id)
      (hlen : vm.headers.length = vm.live) (hsrc : vm.src = fun _ => none)

structure Quiet (env : Env) (vm : VM) : Prop where
  head : hashAt env vm.headers vm.live = some vm.headID
  idle : vm.runErr = none → vm.headers.length = vm.live ∧ vm.src = fun _ => none

def VM.Inv (env : Env) (vm : VM) : Prop :=
  match vm.waiting with
  | none => Quiet env vm
  | some b => Pending env vm b

def Node.Inv (env : Env) : Node → Prop
  | .down _ => True
  | .up vm => vm.Inv env

theorem hashAt_append {headers : List Header} {h : Header} {n : Nat} (hle : n ≤ headers.length)
    : hashAt env (headers ++ [h]) n = hashAt env headers n := by
  cases n with
  | zero => rfl
  | succ n =>
    simp only [hashAt]
    rw [List.getElem?_append_left (by omega)]

theorem inv_verify {b : Block} (hwait : vm.waiting = none) (h : Quiet env vm) : (vm.verify env b).2.Inv env := by
  have hsame : vm.Inv env := by
    simp only [VM.Inv, hwait]
    exact h
  unfold VM.verify
  split
  . exact hsame
  . split
    . split
      . exact hsame
      . exact hsame
    . split
      . exact hsame
      . next hrun =>
        split
        . exact hsame
        . next hheight =>
          split
          . exact hsame
          . have hheight : b.height = vm.live + 1 := by omega
            rcases h.idle hrun with ⟨hlen, hsrc⟩
            show Pending env _ b
            refine .handed hheight h.head hlen ?_
            dsimp only
            rw [hsrc]

theorem inv_wake {b : Block} (hwait : vm.waiting = some b) (h : Pending env vm b)
    (hstep : vm.wake = some vm') : vm'.Inv env := by
  unfold VM.wake at hstep
  rw [hwait] at hstep
  dsimp only at hstep
  split at hstep
  . next hle =>
    cases hstep
    cases h with
    | handed hheight => omega
    | written hheight => omega
    | published hheight hhash hlen hsrc => exact ⟨hhash, fun _ => ⟨hlen, hsrc⟩⟩
  . next hle =>
    split at hstep
    . next err hrun =>
      cases hstep
      cases h with
      | handed hheight hhead =>
        refine ⟨hhead, ?_⟩
        dsimp only
        rw [hrun]
        simp
      | written hheight hhead =>
        refine ⟨hhead, ?_⟩
        dsimp only
        rw [hrun]
        simp
      | published hheight => omega
    . contradiction

theorem inv_write (h : vm.Inv env) (hstep : vm.write = some vm') : vm'.Inv env := by
  unfold VM.write at hstep
  split at hstep
  . next b' hrun hsrc' =>
    cases hstep
    unfold VM.Inv at h ⊢
    dsimp only at h ⊢
    split at h
    . next hwait =>
      rw [(h.idle hrun).2] at hsrc'
      contradiction
    . next b hwait =>
      cases h with
      | handed hheight hhead hlen hsrc =>
        have hnext : vm.headers.length + 1 = b.height := by omega
        rw [hsrc, hnext, Function.update_self] at hsrc'
        cases hsrc'
        refine .written hheight ?_ ?_ ?_ ?_
        . dsimp only
          rw [hashAt_append (by omega)]
          exact hhead
        . simp [hlen]
        . rw [hheight]
          simp [hashAt, hlen]
        . dsimp only
          rw [hsrc, hnext]
          simp
      | written hheight hhead hlen hhash hsrc =>
        rw [hsrc] at hsrc'
        contradiction
      | published hheight hhash hlen hsrc =>
        rw [hsrc] at hsrc'
        contradiction
  . contradiction

theorem inv_publish (h : vm.Inv env) (hstep : vm.publish = some vm') : vm'.Inv env := by
  unfold VM.publish at hstep
  split at hstep
  . next hrun =>
    split at hstep
    . next hlt =>
      cases hstep
      unfold VM.Inv at h ⊢
      dsimp only at h ⊢
      split at h
      . have := (h.idle hrun).1
        omega
      . next b hwait =>
        cases h with
        | handed hheight hhead hlen => omega
        | written hheight hhead hlen hhash hsrc =>
          rw [hheight] at hhash
          exact Pending.published hheight hhash hlen hsrc
        | published hheight hhash hlen => omega
    . contradiction
  . contradiction

theorem inv_exit {err : String} (h : vm.Inv env) : { vm with runErr := some err }.Inv env := by
  unfold VM.Inv at h ⊢
  dsimp only
  split at h
  . next hwait =>
    rw [hwait]
    exact ⟨h.head, by simp⟩
  . next b hwait =>
    rw [hwait]
    cases h with
    | handed hheight hhead hlen hsrc => exact .handed hheight hhead hlen hsrc
    | written hheight hhead hlen hhash hsrc => exact .written hheight hhead hlen hhash hsrc
    | published hheight hhash hlen hsrc => exact .published hheight hhash hlen hsrc

def Fresh (env : Env) : Node → Event → Prop
  | .down d, .init => ∀ live m, newExecutor env d = .ok (live, m) → live = 0
  | _, _ => True

theorem live_newExecutor {d : Dir} {live : Nat} {m : Manifest} (h : newExecutor env d = .ok (live, m))
    : live = d.headers.length := by
  unfold newExecutor at h
  split at h
  . split at h
    . contradiction
    . cases h
      omega
  . split at h
    . contradiction
    . next head hrecover =>
      cases h
      unfold recover at hrecover
      split at hrecover
      . contradiction
      . split at hrecover
        . contradiction
        . split at hrecover
          . contradiction
          . cases hrecover
            rfl

theorem inv_init {d : Dir} (hg : Fresh env (.down d) .init) (hstep : initializeVM env d = .ok vm) : vm.Inv env := by
  unfold initializeVM at hstep
  split at hstep
  . contradiction
  . next live m hnew =>
    cases hstep
    have hlive : live = 0 := hg live m hnew
    subst hlive
    have hempty := live_newExecutor hnew
    exact ⟨rfl, fun _ => ⟨hempty.symm, rfl⟩⟩

theorem inv_step {s s' : Node} {e : Event} (h : s.Inv env) (hg : Fresh env s e)
    (hstep : step env s e = some s') : s'.Inv env := by
  unfold step at hstep
  split at hstep
  . split at hstep
    . contradiction
    . next hinit =>
      cases hstep
      exact inv_init hg hinit
  . next vm b =>
    split at hstep
    . next hwait =>
      cases hstep
      simp only [Node.Inv, VM.Inv, hwait] at h
      exact inv_verify hwait h
    . contradiction
  . next vm =>
    rw [Option.map_eq_some_iff] at hstep
    rcases hstep with ⟨vm', hwake, rfl⟩
    cases hwait : vm.waiting with
    | none =>
      simp [VM.wake, hwait] at hwake
    | some b =>
      simp only [Node.Inv, VM.Inv, hwait] at h
      exact inv_wake hwait h hwake
  . rw [Option.map_eq_some_iff] at hstep
    rcases hstep with ⟨vm', hwrite, rfl⟩
    exact inv_write h hwrite
  . rw [Option.map_eq_some_iff] at hstep
    rcases hstep with ⟨vm', hpublish, rfl⟩
    exact inv_publish h hpublish
  . split at hstep
    . cases hstep
      exact inv_exit h
    . contradiction
  . cases hstep
    trivial
  . contradiction

/--
In every run whose data dirs hold no blocks when the VM opens them, the VM tracks the executed head
between any two calls.
-/
theorem tracks_of_fresh {d : Dir} {vm : VM}
    (h : Transition.Reachable (step env) (Fresh env) (.down d) (.up vm)) (hwait : vm.waiting = none)
    : Tracks env vm := by
  have hdown : (Node.down d).Inv env := trivial
  have hinv : (Node.up vm).Inv env := h.invariant hdown (fun _ _ _ => inv_step)
  simp only [Node.Inv, VM.Inv, hwait] at hinv
  exact tracks_of_hashAt hinv.head

def Node.vm? : Node → Option VM
  | .down _ => none
  | .up vm => some vm

theorem eq_up_of_vm? {s : Node} {vm : VM} (h : s.vm? = some vm) : s = .up vm := by
  cases s with
  | down d => contradiction
  | up vm' =>
    cases h
    rfl

def zeroGenesis : Env := ⟨.fill 32 0, .fill 32 0, fun id => id.val.hex⟩

def child (n : UInt8) : Block := ⟨.fill 32 n, .fill 32 (n - 1), .fill 32 0, n.toNat, false⟩

def freshVM : VM :=
  { headers := [], manifest := some ⟨0, .fill 32 0⟩, live := 0, headID := .fill 32 0, runErr := none,
    src := fun _ => none, waiting := none }

theorem tracks_of_fresh_one_block
    : ∃ vm,
        Transition.Reachable (step zeroGenesis) (Fresh zeroGenesis) (.down ⟨[], none⟩) (.up vm) ∧
        vm.waiting = none ∧ vm.live = 1 ∧ Tracks zeroGenesis vm := by
  have hrun : ((Transition.run (step zeroGenesis) (.up freshVM)
      [.verify (child 1), .write, .publish, .wake]).bind Node.vm?).map
        (fun vm => (vm.waiting, vm.live)) = some (none, 1) := by decide +kernel
  rw [Option.map_eq_some_iff] at hrun
  rcases hrun with ⟨vm, hrun, hvm⟩
  rw [Option.bind_eq_some_iff] at hrun
  rcases hrun with ⟨s, hrun, hs⟩
  simp only [Prod.mk.injEq] at hvm
  rw [eq_up_of_vm? hs] at hrun
  have hinit : Transition.Reachable (step zeroGenesis) (Fresh zeroGenesis) (.down ⟨[], none⟩)
      (.up freshVM) := by
    refine .step (e := .init) .init ?_ rfl
    intro live m hnew
    exact live_newExecutor hnew
  have hreach := hinit.run (fun e he s => by cases s <;> cases e <;> trivial) hrun
  exact ⟨vm, hreach, hvm.1, hvm.2, tracks_of_fresh hreach hvm.1⟩

theorem restart_loses_head
    : ∃ vm,
        Transition.Reachable (step zeroGenesis) (fun _ _ => True) (.down ⟨[], none⟩) (.up vm) ∧
        vm.waiting = none ∧ vm.lastAccepted zeroGenesis = .ok (child 1).id ∧
        (vm.verify zeroGenesis (child 2)).1 ≠ .handed ∧ ¬ Tracks zeroGenesis vm := by
  have hrun : ((Transition.run (step zeroGenesis) (.down ⟨[], none⟩)
      [.init, .verify (child 1), .write, .publish, .wake, .kill, .init]).bind Node.vm?).map
        (fun vm => (vm.waiting, vm.headID, hashAt zeroGenesis vm.headers vm.live,
          decide ((vm.verify zeroGenesis (child 2)).1 = .handed))) =
        some (none, .fill 32 0, some (.fill 32 1), false) := by decide +kernel
  rw [Option.map_eq_some_iff] at hrun
  rcases hrun with ⟨vm, hrun, hvm⟩
  rw [Option.bind_eq_some_iff] at hrun
  rcases hrun with ⟨s, hrun, hs⟩
  simp only [Prod.mk.injEq, decide_eq_false_iff_not] at hvm
  rw [eq_up_of_vm? hs] at hrun
  refine ⟨vm, Transition.Reachable.init.run (fun _ _ _ => trivial) hrun, hvm.1,
    lastAccepted_of_hashAt hvm.2.2.1, hvm.2.2.2, ?_⟩
  intro htracks
  have hhead := htracks.head
  rw [hvm.2.1, hvm.2.2.1] at hhead
  exact absurd hhead (by decide)

end EpochDB.VmChain
