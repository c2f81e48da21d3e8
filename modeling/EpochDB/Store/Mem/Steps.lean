import EpochDB.Store.Mem.Live
import EpochDB.Store.Table.Impl

/-!
What one row of a block does to a window, and with it what the block does: rules for an invariant that
looks at the rows through the chain indexes only. With a file that takes every write and a window whose
indexes wait for the block, every row of the block is taken.
-/

namespace EpochDB.Store

open EStateM Function

namespace Memtable

def logged (m : Memtable) (f : Frame) : Memtable :=
  { m with log := m.log ++ f.encode, pos := m.pos + Frame.headerSize + f.payload.length }

def torn (m : Memtable) (f : Frame) : Memtable := { m with log := m.log ++ f.encode, bwErr := true }

variable {file : LogFile} {crypto : Crypto} {b : BlockWrite} {off n : Nat} {next : Fam → UInt64} {m : Memtable}

theorem triple_record {P Q E : Memtable → Prop} {kind : RecKind} {num : UInt64} {payload : Bytes} {p : Nat → Nat → Pend}
    (hok : ∀ m r, P m → m.bwErr = false → (p (m.pos + Frame.headerSize) payload.length).run.run m.toRows = .ok () r →
      Q { m.logged ⟨kind.byte, num, payload⟩ with toRows := r })
    (hstuck : ∀ m, P m → m.bwErr = true → E m)
    (hfail : ∀ m, P m → m.bwErr = false → file.write (m.pos + Frame.headerSize + payload.length) = false →
      E (m.torn ⟨kind.byte, num, payload⟩))
    (hrefuse : ∀ m e r, P m → m.bwErr = false → (p (m.pos + Frame.headerSize) payload.length).run.run m.toRows = .error e r →
      E (m.logged ⟨kind.byte, num, payload⟩))
    : EStateM.Triple P (do
        let res ← write file kind num payload
        liftRows (p res.1 res.2).run) (fun _ => Q) E := by
  intro m hm
  constructor
  . intro a m' hrun
    rcases run_bind_eq_ok.mp hrun with ⟨res, m1, hwrite, hlift⟩
    rcases write_eq_ok hwrite with ⟨hbw, rfl, rfl⟩
    rcases liftRows_eq_ok.mp hlift with ⟨r, hp, rfl⟩
    exact hok m r hm hbw hp
  . intro e m' hrun
    rcases run_bind_eq_error.mp hrun with hwrite | ⟨res, m1, hwrite, hlift⟩
    . rcases write_eq_error hwrite with ⟨hbw, rfl⟩ | ⟨hbw, hfile, rfl⟩
      . exact hstuck m' hm hbw
      . exact hfail m hm hbw hfile
    . rcases write_eq_ok hwrite with ⟨hbw, rfl, rfl⟩
      rcases liftRows_eq_error hlift with ⟨r, hp⟩
      rw [liftRows_run_eq_error hlift]
      exact hrefuse m e r hm hbw hp

structure RowRule (file : LogFile) (I : (Fam → UInt64) → Memtable → Prop) (E : Memtable → Prop) : Prop where
  chain : ∀ next fam val, fam ≠ .blk →
    EStateM.Triple (I next) (chainRow file fam (next fam) val) (fun _ => I (update next fam (next fam + 1))) E
  grow : ∀ next m f r, I next m → m.bwErr = false → r.chain = m.chain → I next { m.logged f with toRows := r }
  stuck : ∀ next m, I next m → m.bwErr = true → E m
  fail : ∀ next m f, I next m → m.bwErr = false →
    file.write (m.pos + Frame.headerSize + f.payload.length) = false → E (m.torn f)

def waits (blk height n : UInt64) : Fam → UInt64
  | .blk => blk
  | .hdr | .pvm => height
  | .itx | .rcpt | .tx => n

namespace RowRule

variable {file : LogFile} {I : (Fam → UInt64) → Memtable → Prop} {E : Memtable → Prop} (h : RowRule file I E)
  (next : Fam → UInt64)

include h

theorem record {kind : RecKind} {num : UInt64} {payload : Bytes} {p : Pend} (hp : ∀ r, ∃ r', p.run.run r = .ok () r' ∧ r'.chain = r.chain)
    : EStateM.Triple (I next) (do
        let res ← write file kind num payload
        liftRows ((fun _ _ => p) res.1 res.2).run) (fun _ => I next) E := by
  apply triple_record (p := fun _ _ => p)
  . intro m r hm hbw hrun
    rcases hp m.toRows with ⟨r', hrun', hchain⟩
    rw [hrun'] at hrun
    cases hrun
    exact h.grow next m _ _ hm hbw hchain
  . exact h.stuck next
  . intro m hm hbw hfile
    exact h.fail next m _ hm hbw hfile
  . intro m e r hm hbw hrun
    rcases hp m.toRows with ⟨r', hrun', -⟩
    rw [hrun'] at hrun
    cases hrun

theorem numRow (key : Bytes) (num : UInt64) : EStateM.Triple (I next) (numRow file key num) (fun _ => I next) E :=
  h.record next (fun r => ⟨r.putNum key num, rfl, rfl⟩)

theorem postRow (group : Bytes) (txnum : UInt64) (payload : UInt8)
    : EStateM.Triple (I next) (postRow file group txnum payload) (fun _ => I next) E :=
  h.record next (fun r => ⟨r.addPost ⟨group, txnum, payload⟩, rfl, rfl⟩)

theorem stateRow (row : StateRow) (txnum : UInt64)
    : EStateM.Triple (I next) (stateRow file row txnum) (fun _ => I next) E := by
  apply h.record next
  intro r
  refine ⟨r.putState (stateKeyPrefix row) txnum row.val, rfl, ?_⟩
  unfold Rows.putState
  dsimp only
  split
  . split
    . rfl
    . rfl
  . rfl

omit h in
theorem once {seen : Memtable → Prop} [DecidablePred seen] {f : MemM Unit} (hf : EStateM.Triple (I next) f (fun _ => I next) E)
    : EStateM.Triple (I next) (do if seen (← get) then pure () else f) (fun _ => I next) E := by
  apply EStateM.Triple.get
  intro m
  split
  . apply EStateM.Triple.pure
    rintro m' ⟨rfl, hm⟩
    exact hm
  . apply hf.imp
    . rintro m' ⟨rfl, hm⟩
      exact hm
    . exact fun _ _ hm => hm
    . exact fun _ hm => hm

theorem codeRow (hash : Hash) (blob : Bytes) : EStateM.Triple (I next) (codeRow file hash blob) (fun _ => I next) E :=
  once next (h.record next (fun r => ⟨r.putCode hash.val blob, rfl, rfl⟩))

theorem setRow (key : Bytes) (txnum : UInt64) : EStateM.Triple (I next) (setRow file key txnum) (fun _ => I next) E :=
  once next (h.record next (fun r => ⟨r.putSet key, rfl, rfl⟩))

omit h in
theorem forM {ι : Type} {f : ι → MemM PUnit} {is : List ι} (hf : ∀ i, EStateM.Triple (I next) (f i) (fun _ => I next) E)
    : EStateM.Triple (I next) (is.forM f) (fun _ => I next) E :=
  EStateM.Triple.forM (I := fun _ => I next) (fun _ i _ => hf i)

theorem addTx (blk height n : UInt64) (t : TxWrite)
    : EStateM.Triple (I (waits blk height n)) (addTx file n t) (fun _ => I (waits blk height (n + 1))) E := by
  have hnext : update (update (update (waits blk height n) .itx (n + 1)) .rcpt (n + 1)) .tx (n + 1) =
      waits blk height (n + 1) := by
    funext fam
    cases fam <;> simp [waits, update]
  unfold Memtable.addTx
  apply EStateM.Triple.bind (h.chain (waits blk height n) .itx t.frames (by simp))
  intro _
  apply EStateM.Triple.bind (h.chain (update (waits blk height n) .itx (n + 1)) .rcpt t.receipt (by simp))
  intro _
  apply EStateM.Triple.bind
    (h.chain (update (update (waits blk height n) .itx (n + 1)) .rcpt (n + 1)) .tx t.rlp (by simp))
  intro _
  have hall : update (update (update (waits blk height n) .itx (n + 1)) .rcpt (n + 1)) .tx
      (update (update (waits blk height n) .itx (n + 1)) .rcpt (n + 1) .tx + 1) = waits blk height (n + 1) := hnext
  rw [hall]
  apply EStateM.Triple.bind (h.numRow _ _ _)
  intro _
  apply EStateM.Triple.bind (forM _ (fun g => h.postRow _ _ _ _))
  intro _
  apply EStateM.Triple.bind (forM _ (fun l => forM _ (fun k => h.setRow _ _ _)))
  intro _
  exact forM _ (fun r => h.stateRow _ _ _)

theorem addTxs (txs : List TxWrite) (blk height first : UInt64)
    : EStateM.Triple (I (waits blk height first)) (txs.zipIdx.forM (fun (t, i) => Memtable.addTx file (first + UInt64.ofNat i) t))
        (fun _ => I (waits blk height (first + UInt64.ofNat txs.length))) E := by
  have hfirst : waits blk height first = waits blk height (first + UInt64.ofNat 0) := by simp
  rw [hfirst, ← List.length_zipIdx (l := txs) (i := 0)]
  apply EStateM.Triple.forM (I := fun k => I (waits blk height (first + UInt64.ofNat k)))
  rintro k ⟨t, i⟩ hp
  have hk : i = k := by
    rw [List.getElem?_zipIdx] at hp
    rcases Option.map_eq_some_iff.mp hp with ⟨t', -, heq⟩
    cases heq
    simp
  subst hk
  have htx := h.addTx blk height (first + UInt64.ofNat i) t
  rwa [UInt64.add_assoc, show UInt64.ofNat i + 1 = UInt64.ofNat (i + 1) from (UInt64.ofNat_add i 1).symm] at htx

theorem addRest (crypto : Crypto) (b : BlockWrite) (blk first : UInt64)
    (hcont : ∀ e next m, b.container crypto = .error e → I next m → E m)
    : EStateM.Triple (I (waits blk b.height first)) (addRest crypto file b first)
        (fun _ => I (waits blk (b.height + 1) (first + UInt64.ofNat b.txs.length))) E := by
  unfold Memtable.addRest
  apply EStateM.Triple.bind (h.chain (waits blk b.height first) .hdr b.headerRLP (by simp))
  intro _
  apply EStateM.Triple.bind (h.chain (update (waits blk b.height first) .hdr (b.height + 1)) .pvm b.pvm (by simp))
  intro _
  have hall : update (update (waits blk b.height first) .hdr (b.height + 1)) .pvm
      (update (waits blk b.height first) .hdr (b.height + 1) .pvm + 1) = waits blk (b.height + 1) first := by
    funext fam
    cases fam <;> simp [waits, update]
  rw [hall]
  apply EStateM.Triple.bind (h.numRow _ _ _)
  intro _
  cases hreassemble : reassemble crypto.encodeList b.pvm b.headerRLP (b.txs.map (·.rlp)) with
  | error e => exact EStateM.Triple.throw (fun m hm => hcont e _ m hreassemble hm)
  | ok container =>
    dsimp only
    apply EStateM.Triple.bind (h.numRow _ _ _)
    intro _
    apply EStateM.Triple.bind (forM _ (fun c => h.codeRow _ _ _))
    intro _
    apply EStateM.Triple.bind (h.addTxs b.txs blk (b.height + 1) first)
    intro _
    exact forM _ (fun r => h.stateRow _ _ _)

end RowRule

theorem triple_endBlock {S Q E : Memtable → Prop} (height : UInt64) (payload : Bytes)
    (hok : ∀ m f, S m → m.bwErr = false → Q { m.logged f with flushed := (m.logged f).pos })
    (hstuck : ∀ m, S m → m.bwErr = true → E m)
    (hfail : ∀ m f, S m → m.bwErr = false → file.write (m.pos + Frame.headerSize + f.payload.length) = false → E (m.torn f))
    (hflush : ∀ m f, S m → m.bwErr = false → file.flush (m.logged f).pos = false → E { m.logged f with bwErr := true })
    : EStateM.Triple S (do
        let _ ← write file .endBlock height payload
        flushLocked file) (fun _ => Q) E := by
  intro m hm
  constructor
  . intro _ m' hrun
    rcases run_bind_eq_ok.mp hrun with ⟨res, m1, hwrite, hflushed⟩
    rcases write_eq_ok hwrite with ⟨hbw, -, rfl⟩
    rw [flushLocked_eq_ok hflushed]
    exact hok m _ hm hbw
  . intro e m' hrun
    rcases run_bind_eq_error.mp hrun with hwrite | ⟨res, m1, hwrite, hflushed⟩
    . rcases write_eq_error hwrite with ⟨hbw, rfl⟩ | ⟨hbw, hfile, rfl⟩
      . exact hstuck m' hm hbw
      . exact hfail m _ hm hbw hfile
    . rcases write_eq_ok hwrite with ⟨hbw, -, rfl⟩
      rcases flushLocked_eq_error hflushed with ⟨rfl, hbw' | hfile⟩
      . have hbw' : m.bwErr = true := hbw'
        rw [hbw] at hbw'
        cases hbw'
      . exact hflush m ⟨RecKind.endBlock.byte, height, payload⟩ hm hbw hfile

theorem triple_appendBlock {first : UInt64} {P R S Q E : Memtable → Prop}
    (hrows : EStateM.Triple P (addRows crypto file b first) (fun _ => R) E)
    (hpad : ∀ m, R m → S { m with
      toRows := m.toRows.padTo (first + UInt64.ofNat b.txs.length + 1), nextTx := first + UInt64.ofNat b.txs.length + 1,
      nextHeight := b.height + 1 })
    (hend : ∀ payload, EStateM.Triple S (do
      let _ ← write file .endBlock b.height payload
      flushLocked file) (fun _ => Q) E)
    : EStateM.Triple (fun m => P m ∧ m.nextTx = first) (appendBlock crypto file b) (fun _ => Q) E := by
  rintro m ⟨hP, rfl⟩
  unfold appendBlock
  rw [run_bind_of_ok (run_get m)]
  have hrest : ∀ payload, EStateM.Triple R (do
      liftRows (Pend.pad (m.nextTx + UInt64.ofNat b.txs.length + 1)).run
      modify (fun m' => { m' with nextTx := m.nextTx + UInt64.ofNat b.txs.length + 1, nextHeight := b.height + 1 })
      let _ ← write file .endBlock b.height payload
      flushLocked file) (fun _ => Q) E := by
    intro payload m1 hR
    have hpark : (liftRows (Pend.pad (m.nextTx + UInt64.ofNat b.txs.length + 1)).run).run m1 =
        .ok () { m1 with toRows := m1.toRows.padTo (m.nextTx + UInt64.ofNat b.txs.length + 1) } := rfl
    rw [run_bind_of_ok hpark, run_bind_of_ok (run_modify _ _)]
    exact hend payload _ (hpad m1 hR)
  exact EStateM.Triple.bind hrows (fun _ => hrest _) m hP

structure InStep (next : Fam → UInt64) (m : Memtable) : Prop where
  bwErr : m.bwErr = false
  next : ∀ fam, (m.chain fam).set = true → (m.chain fam).next = next fam

structure Writing (height : UInt64) (next : Fam → UInt64) (m : Memtable) : Prop where
  inStep : InStep next m
  started : m.started = true
  nextHeight : m.nextHeight = height
  set : (m.chain .blk).set = true
  blk : next .blk = height + 1

structure Faults (crypto : Crypto) (file : LogFile) (b : BlockWrite) (E : Memtable → Prop) : Prop where
  torn : ∀ (m : Memtable) (f : Frame), m.started = true → m.nextHeight = b.height ∨ m.nextHeight = b.height + 1 →
    file.write (m.pos + Frame.headerSize + f.payload.length) = false → E (m.torn f)
  flush : ∀ m : Memtable, m.started = true → m.nextHeight = b.height + 1 → file.flush m.pos = false → E { m with bwErr := true }
  container : ∀ e next m, b.container crypto = .error e → Writing b.height next m → E m

theorem chain_of_addChain {fam fam' : Fam} {num : UInt64} {r r' : Rows}
    (h : (Rows.addChain fam num off n).run r = .ok () r') (hne : fam' ≠ fam) : r'.chain fam' = r.chain fam' := by
  rcases addChain_run h with ⟨-, rfl⟩
  simp [Rows.setChain, hne]

theorem InStep.addChain (h : InStep next m) (fam : Fam) {r : Rows}
    (hrun : (Rows.addChain fam (next fam) off n).run m.toRows = .ok () r) (f : Frame)
    : InStep (update next fam (next fam + 1)) { m.logged f with toRows := r } := by
  refine ⟨h.bwErr, ?_⟩
  intro fam'
  by_cases hfam : fam' = fam
  . subst hfam
    intro _
    rw [update_self]
    exact (addChain_eq_ok hrun).2.2
  . rw [update_of_ne hfam]
    dsimp only
    rw [chain_of_addChain hrun hfam]
    exact h.next fam'

theorem InStep.not_refused (h : InStep next m) (fam : Fam) {e : String} {r : Rows}
    : (Rows.addChain fam (next fam) off n).run m.toRows ≠ .error e r := by
  intro hrun
  have hr : r = m.toRows := Pend.run_eq_error (p := .chain fam (next fam) off n) hrun
  rcases addChain_eq_error hrun with ⟨hset, hne⟩
  rw [hr] at hset hne
  exact hne (h.next fam hset)

theorem InStep.not_bwErr (h : InStep next m) : m.bwErr ≠ true := by
  rw [h.bwErr]
  simp

theorem chain_padTo (r : Rows) (next : UInt64) (fam : Fam)
    : (r.padTo next).chain fam = if fam ∈ txKeyedFams then (r.chain fam).padTo next else r.chain fam := by
  cases fam <;> simp [Rows.padTo, txKeyedFams, Rows.setChain, update]

theorem next_padTo {c : ChainIndex} {n : UInt64} (h : c.set = true → c.next = n) (hn : n.toNat + 1 < 2 ^ 64)
    : (c.padTo (n + 1)).next = n + 1 := by
  have hstart : (c.start (n + 1 - 1)).next = n := by
    rw [UInt64.add_sub_cancel]
    cases hset : c.set with
    | true => rw [ChainIndex.start_of_set hset, h hset]
    | false => exact ChainIndex.next_start_of_unset hset n
  have hlt : n < n + 1 := by
    rw [UInt64.lt_iff_toNat_lt, toNat_add_one hn]
    omega
  have hone : (n + 1 - n).toNat = 1 := by
    rw [UInt64.add_comm, UInt64.add_sub_cancel]
    rfl
  have hnext : (c.padTo (n + 1)).next = (c.start (n + 1 - 1)).base + UInt64.ofNat ((c.start (n + 1 - 1)).off ++ List.replicate
      (if (c.start (n + 1 - 1)).next < n + 1 then (n + 1 - (c.start (n + 1 - 1)).next).toNat else 0) 0).length := rfl
  rw [hnext, List.length_append, List.length_replicate, UInt64.ofNat_add, ← UInt64.add_assoc]
  rw [ChainIndex.next] at hstart hnext
  rw [ChainIndex.next, hstart, if_pos hlt, hone]
  rfl

theorem InStep.padTo {blk height n : UInt64} (h : InStep (waits blk height n) m) (hn : n.toNat + 1 < 2 ^ 64)
    : InStep (waits blk height (n + 1)) { m with toRows := m.toRows.padTo (n + 1) } := by
  refine ⟨h.bwErr, ?_⟩
  intro fam
  dsimp only
  rw [chain_padTo]
  split
  . next hfam =>
    have hwaits : ∀ n, waits blk height n fam = n := by
      intro n
      cases fam <;> simp [txKeyedFams] at hfam <;> rfl
    intro _
    rw [hwaits]
    exact next_padTo (fun hset => (h.next fam hset).trans (hwaits n)) hn
  . next hfam =>
    have hwaits : waits blk height (n + 1) fam = waits blk height n fam := by
      cases fam <;> simp [txKeyedFams] at hfam <;> rfl
    rw [hwaits]
    exact h.next fam

section Faults

variable {crypto : Crypto} {file : LogFile} {b : BlockWrite} {E : Memtable → Prop} (hE : Faults crypto file b E)

include hE

theorem rowRule_writing : RowRule file (Writing b.height) E where
  chain next fam val hfam := by
    apply triple_record (p := fun body n => .chain fam (next fam) body n)
    . intro m r hm _ hrun
      refine ⟨hm.inStep.addChain fam hrun _, hm.started, hm.nextHeight, ?_, ?_⟩
      . dsimp only
        rw [chain_of_addChain hrun (Ne.symm hfam)]
        exact hm.set
      . rw [update_of_ne (Ne.symm hfam)]
        exact hm.blk
    . intro m hm hbw
      exact absurd hbw hm.inStep.not_bwErr
    . intro m hm _ hfile
      exact hE.torn m _ hm.started (.inl hm.nextHeight) hfile
    . intro m e r hm _ hrun
      exact absurd hrun (hm.inStep.not_refused fam)
  grow next m f r hm hbw hchain := by
    refine ⟨⟨hbw, ?_⟩, hm.started, hm.nextHeight, ?_, hm.blk⟩
    . dsimp only
      rw [hchain]
      exact hm.inStep.next
    . dsimp only
      rw [hchain]
      exact hm.set
  stuck next m hm hbw := absurd hbw hm.inStep.not_bwErr
  fail next m f hm _ hfile := hE.torn m f hm.started (.inl hm.nextHeight) hfile

theorem triple_addRows (first : UInt64)
    : EStateM.Triple (fun m => InStep (waits b.height b.height first) m ∧ m.started = true ∧ m.nextHeight = b.height)
        (addRows crypto file b first)
        (fun _ => Writing b.height (waits (b.height + 1) (b.height + 1) (first + UInt64.ofNat b.txs.length))) E := by
  unfold addRows
  apply EStateM.Triple.bind (Q := fun _ => Writing b.height (waits (b.height + 1) b.height first))
  . have hblk : update (waits b.height b.height first) .blk (b.height + 1) = waits (b.height + 1) b.height first := by
      funext fam
      cases fam <;> simp [waits, update]
    apply triple_record (p := fun body n => .chain .blk b.height body n)
    . rintro m r ⟨hin, hstarted, hheight⟩ _ hrun
      have hstep := hin.addChain .blk hrun ⟨(RecKind.chain .blk).byte, b.height, b.blkVal first⟩
      have hupdate : update (waits b.height b.height first) .blk (waits b.height b.height first .blk + 1) =
          waits (b.height + 1) b.height first := hblk
      rw [hupdate] at hstep
      exact ⟨hstep, hstarted, hheight, (addChain_eq_ok hrun).2.1, rfl⟩
    . rintro m ⟨hin, -⟩ hbw
      exact absurd hbw hin.not_bwErr
    . rintro m ⟨-, hstarted, hheight⟩ _ hfile
      exact hE.torn m _ hstarted (.inl hheight) hfile
    . rintro m e r ⟨hin, -⟩ _ hrun
      exact absurd hrun (hin.not_refused .blk)
  . intro _
    exact (rowRule_writing hE).addRest crypto b _ _ hE.container

theorem triple_appendBlock_inStep {first : UInt64} (hroom : first.toNat + b.slots < 2 ^ 64)
    : EStateM.Triple
        (fun m => (InStep (waits b.height b.height first) m ∧ m.started = true ∧ m.nextHeight = b.height) ∧ m.nextTx = first)
        (appendBlock crypto file b)
        (fun _ m => InStep (waits (b.height + 1) (b.height + 1) m.nextTx) m ∧ m.started = true ∧ m.nextHeight = b.height + 1) E := by
  have hlast : (first + UInt64.ofNat b.txs.length).toNat + 1 < 2 ^ 64 := by
    unfold BlockWrite.slots at hroom
    rw [UInt64.toNat_add, UInt64.toNat_ofNat_of_lt' (show b.txs.length < 2 ^ 64 by omega), Nat.mod_eq_of_lt (by omega)]
    omega
  apply triple_appendBlock (S := fun m => InStep (waits (b.height + 1) (b.height + 1) m.nextTx) m ∧ m.started = true ∧
    m.nextHeight = b.height + 1) (triple_addRows hE first)
  . intro m hm
    have hpad := hm.inStep.padTo hlast
    exact ⟨⟨hpad.bwErr, hpad.next⟩, hm.started, rfl⟩
  . intro payload
    apply triple_endBlock
    . rintro m f ⟨hin, hstarted, hheight⟩ _
      exact ⟨⟨hin.bwErr, hin.next⟩, hstarted, hheight⟩
    . rintro m ⟨hin, -⟩ hbw
      exact absurd hbw hin.not_bwErr
    . rintro m f ⟨-, hstarted, hheight⟩ _ hfile
      exact hE.torn m f hstarted (.inr hheight) hfile
    . rintro m f ⟨-, hstarted, hheight⟩ _ hfile
      exact hE.flush (m.logged f) hstarted hheight hfile

end Faults

structure InOrder (m : Memtable) : Prop where
  inStep : InStep (waits m.nextHeight m.nextHeight m.nextTx) m
  idle : m.started = false → ∀ fam, (m.chain fam).set = false

theorem inOrder_fresh (path : LogName) (baseTx baseHeight : UInt64) : InOrder (fresh path baseTx baseHeight) where
  inStep := ⟨rfl, fun _ hset => absurd hset (by simp [fresh, reset, clear, Rows.empty, ChainIndex.empty])⟩
  idle _ _ := rfl

theorem InOrder.begun (h : InOrder m) {height : UInt64} (hwaits : m.Waits height)
    : InStep (waits height height (m.begun height).nextTx) (m.begun height) := by
  refine ⟨h.inStep.bwErr, ?_⟩
  intro fam hset
  cases hstart : m.started with
  | true =>
    rw [hwaits.eq_of_started hstart]
    exact h.inStep.next fam hset
  | false =>
    have hunset := h.idle hstart fam
    have hset : (m.chain fam).set = true := hset
    rw [hunset] at hset
    cases hset

theorem InOrder.appendBlock (h : InOrder m)
    (hwaits : m.Waits b.height) (hroom : m.nextTx.toNat + b.slots < 2 ^ 64) {E : Memtable → Prop} (hE : Faults crypto file b E)
    : (∀ m', (appendBlock crypto file b).run (m.begun b.height) = .ok () m' → InOrder m') ∧
      ∀ e m', (appendBlock crypto file b).run (m.begun b.height) = .error e m' → E m' := by
  have hstart : (InStep (waits b.height b.height m.nextTx) (m.begun b.height) ∧ (m.begun b.height).started = true ∧
      (m.begun b.height).nextHeight = b.height) ∧ (m.begun b.height).nextTx = m.nextTx := ⟨⟨h.begun hwaits, rfl, rfl⟩, rfl⟩
  rcases triple_appendBlock_inStep hE hroom _ hstart with ⟨hok, herr⟩
  refine ⟨?_, herr⟩
  intro m' hrun
  rcases hok _ m' hrun with ⟨hin, hstarted, hheight⟩
  refine ⟨by rw [hheight]; exact hin, ?_⟩
  intro hidle
  rw [hstarted] at hidle
  cases hidle

structure Good (file : LogFile) : Prop where
  write : ∀ pos, file.write pos = true
  flush : ∀ pos, file.flush pos = true

theorem faults_of_good (hfile : Good file) (hcont : b.Rebuilds crypto)
    : Faults crypto file b (fun _ => False) where
  torn m f _ _ hwrite := by
    rw [hfile.write] at hwrite
    cases hwrite
  flush m _ _ hflush := by
    rw [hfile.flush] at hflush
    cases hflush
  container e next m herr _ := by
    rcases hcont with ⟨container, hok⟩
    rw [hok] at herr
    cases herr

theorem InOrder.add (hfile : Good file) (h : InOrder m)
    (hge : m.nextHeight ≤ b.height) (hwaits : m.Waits b.height) (hcont : b.Rebuilds crypto)
    (hroom : m.nextTx.toNat + b.slots < 2 ^ 64) : ∃ m', (add crypto file b).run m = .ok () m' := by
  rcases add_cases crypto file b m with ⟨hlt, -⟩ | ⟨-, hnot, -⟩ | ⟨-, -, hrun⟩
  . exact absurd hlt (UInt64.not_lt.mpr hge)
  . exact absurd hwaits hnot
  . rw [hrun]
    cases happ : (Memtable.appendBlock crypto file b).run (m.begun b.height) with
    | ok _ m' => exact ⟨m', rfl⟩
    | error e m' => exact ((h.appendBlock hwaits hroom (faults_of_good hfile hcont)).2 e m' happ).elim

end Memtable

end EpochDB.Store

