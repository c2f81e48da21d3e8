import EpochDB.Lib.EState
import EpochDB.Store.Mem.Impl

/-!
What `add` writes: the records it appends to the log are the ones whose replay repeats the mutations
it made in RAM, and a call that breaks off has written rows without their end record.
-/

namespace EpochDB.Store

open List EStateM

def TxWrite.rows (t : TxWrite) : List Bytes :=
  [t.frames, t.receipt, t.rlp] ++ t.state.map statePayload

def BlockWrite.rows (b : BlockWrite) : List Bytes :=
  [b.headerRLP, b.pvm] ++ b.code.map (fun (h, blob) => h.val ++ blob) ++ b.txs.flatMap TxWrite.rows ++
    b.tail.map statePayload

def BlockWrite.RowsFit (b : BlockWrite) : Prop := ∀ row ∈ b.rows, row.length ≤ maxRow

/-- The block is not the one at height `2 ^ 64 - 1`, behind which the next height is 0. -/
def BlockWrite.HasNext (b : BlockWrite) : Prop := b.height.toNat + 1 < 2 ^ 64

instance (b : BlockWrite) : Decidable b.HasNext := inferInstanceAs (Decidable (_ < _))

structure BlockWrite.Replayable (b : BlockWrite) : Prop where
  rows : b.RowsFit
  height : b.HasNext

instance (b : BlockWrite) : Decidable b.Replayable :=
  decidable_of_iff ((∀ row ∈ b.rows, row.length ≤ maxRow) ∧ b.HasNext) ⟨fun h => ⟨h.1, h.2⟩, fun h => ⟨h.rows, h.height⟩⟩

theorem maxRow_lt : maxRow < 2 ^ 32 := by decide

def Defers : List Frame → Nat → List Pend → Prop
  | [], _, ps => ps = []
  | f :: fs, off, ps =>
    f.payload.length ≤ maxRow ∧
    ∃ p ps',
      Pend.ofFrame f (off + Frame.headerSize) = .defer p ∧
      Defers fs (off + f.encode.length) ps' ∧
      ps = p :: ps'

theorem Defers.append {fs gs : List Frame} {off : Nat} {ps qs : List Pend} (hf : Defers fs off ps)
    (hg : Defers gs (off + (Frame.encodeAll fs).length) qs) : Defers (fs ++ gs) off (ps ++ qs) := by
  induction fs generalizing off ps with
  | nil =>
    cases hf
    simpa using hg
  | cons f fs ih =>
    rcases hf with ⟨hlen, p, ps', hp, hrest, rfl⟩
    refine ⟨hlen, p, ps' ++ qs, hp, ?_, by simp⟩
    apply ih hrest
    rw [Frame.encodeAll_cons] at hg
    simpa [Nat.add_assoc] using hg

theorem commit_append {ps qs : List Pend} {r r' r'' : Rows}
    (hp : (Pend.commit ps).run r = .ok () r') (hq : (Pend.commit qs).run r' = .ok () r'')
    : (Pend.commit (ps ++ qs)).run r = .ok () r'' := by
  unfold Pend.commit at *
  rw [run_forM_append]
  exact ⟨r', hp, hq⟩

theorem Pend.run_eq_error {p : Pend} {r r' : Rows} {e : String} (h : p.run.run r = .error e r') : r' = r := by
  cases p with
  | chain fam no off n =>
    simp only [Pend.run, Rows.addChain, run_bind, run_get, run_modify] at h
    split at h
    . next hnext =>
      cases h
      -- an index without rows takes any number, so this one had rows and kept its base
      have hset : (r.chain fam).set = true := by
        by_contra hset
        exact hnext (ChainIndex.next_start_of_unset (by simpa using hset) no).symm
      simp [Rows.setChain, ChainIndex.start_of_set hset]
    . simp at h
  | _ => simp [Pend.run] at h

namespace Memtable

def Wrote (m : Memtable) (fs : List Frame) (m' : Memtable) : Prop :=
  ∃ ps r,
    Defers fs m.pos ps ∧
    (Pend.commit ps).run m.toRows = .ok () r ∧
    m' = { m with
      toRows := r, log := m.log ++ Frame.encodeAll fs, pos := m.pos + (Frame.encodeAll fs).length }

def Broke (m : Memtable) (fs : List Frame) (m' : Memtable) : Prop :=
  ∃ ps qs r pos bwErr,
    Defers fs m.pos ps ∧
    qs <+: ps ∧
    (Pend.commit qs).run m.toRows = .ok () r ∧
    m.pos ≤ pos ∧
    (bwErr = true ∨ m.bwErr = false ∧ pos = m.pos + (Frame.encodeAll fs).length) ∧
    m' = { m with toRows := r, log := m.log ++ Frame.encodeAll fs, pos := pos, bwErr := bwErr }

theorem Wrote.nil (m : Memtable) : Wrote m [] m := by
  refine ⟨[], m.toRows, rfl, rfl, ?_⟩
  simp

theorem Wrote.append {m m' m'' : Memtable} {fs gs : List Frame} (hf : Wrote m fs m')
    (hg : Wrote m' gs m'') : Wrote m (fs ++ gs) m'' := by
  rcases hf with ⟨ps, r, hdef, hrun, rfl⟩
  rcases hg with ⟨qs, r', hdef', hrun', rfl⟩
  refine ⟨ps ++ qs, r', hdef.append hdef', commit_append hrun hrun', ?_⟩
  simp [Nat.add_assoc]

theorem Wrote.append_broke {m m' m'' : Memtable} {fs gs : List Frame} (hf : Wrote m fs m')
    (hg : Broke m' gs m'') : Broke m (fs ++ gs) m'' := by
  rcases hf with ⟨ps, r, hdef, hrun, rfl⟩
  rcases hg with ⟨ps', qs, r', pos, bwErr, hdef', hqs, hrun', hpos, hbw, rfl⟩
  refine ⟨ps ++ ps', ps ++ qs, r', pos, bwErr, hdef.append hdef', ?_, commit_append hrun hrun', ?_, ?_, ?_⟩
  . rwa [prefix_append_right_inj]
  . exact Nat.le_trans (Nat.le_add_right _ _) hpos
  . rcases hbw with hbw | ⟨hbw, hlen⟩
    . exact .inl hbw
    . right
      simp only [Frame.encodeAll_append, length_append]
      exact ⟨hbw, by simp only at hlen; omega⟩
  . simp

def IsRest (f : Frame) : Prop := f.kind ≠ (RecKind.chain .blk).byte

theorem isRest_byte {kind : RecKind} (h : kind ≠ .chain .blk) {num : UInt64} {payload : Bytes}
    : IsRest ⟨kind.byte, num, payload⟩ := by
  intro heq
  apply h
  have := congrArg RecKind.ofByte? heq
  simpa using this

abbrev WritesRows (f : MemM α) : Prop := EStateM.Traces IsRest Wrote Broke f

theorem WritesRows.bind {f : MemM α} {g : α → MemM β} (hf : WritesRows f)
    (hg : ∀ a, WritesRows (g a)) : WritesRows (f >>= g) :=
  EStateM.Traces.bind Wrote.append Wrote.append_broke hf hg

theorem WritesRows.forM {ι : Type} {f : ι → MemM PUnit} {is : List ι}
    (hf : ∀ i ∈ is, WritesRows (f i)) : WritesRows (is.forM f) :=
  EStateM.Traces.forM Wrote.append Wrote.append_broke Wrote.nil hf

theorem writesRows_pure (a : α) : WritesRows (pure a) := by
  intro m
  constructor
  . intro a m' h
    cases h
    exact ⟨[], by simp, .nil m⟩
  . intro e m' h
    cases h

theorem writesRows_throw (e : String) : WritesRows (throw e : MemM α) := by
  intro m
  constructor
  . intro a m' h
    cases h
  . intro e m' h
    cases h
    exact ⟨[], by simp, [], [], m.toRows, m.pos, m.bwErr, rfl, by simp, rfl, by simp, by simp, by simp⟩

theorem liftRows_eq_ok {f : RowsM α} {m m' : Memtable} {a : α}
    : (liftRows f).run m = .ok a m' ↔
        ∃ r, f.run m.toRows = .ok a r ∧ m' = { m with toRows := r } := by
  unfold liftRows
  simp only [EStateM.run]
  constructor
  . intro h
    split at h
    . next a' r hf =>
      cases h
      exact ⟨r, hf, rfl⟩
    . contradiction
  . rintro ⟨r, hf, rfl⟩
    rw [hf]

theorem liftRows_eq_error {f : RowsM α} {m m' : Memtable} {e : String} (h : (liftRows f).run m = .error e m')
    : ∃ r, f.run m.toRows = .error e r := by
  unfold liftRows at h
  simp only [EStateM.run] at h
  split at h
  . contradiction
  . next e' r hf =>
    cases h
    exact ⟨r, hf⟩

theorem liftRows_run_eq_error {p : Pend} {m m' : Memtable} {e : String}
    (h : (liftRows p.run).run m = .error e m') : m' = m := by
  unfold liftRows at h
  simp only [EStateM.run] at h
  split at h
  . contradiction
  . next e' r hp =>
    cases h
    rw [Pend.run_eq_error hp]

section

variable {file : LogFile}

variable {kind : RecKind} {num txnum first : UInt64} {payload : Bytes} {m m' : Memtable} {post : PostMap} {crypto : Crypto} {b : BlockWrite}

theorem write_eq_ok {res : Nat × Nat} (h : (write file kind num payload).run m = .ok res m')
    : m.bwErr = false ∧
      res = (m.pos + Frame.headerSize, payload.length) ∧
      m' = { m with
        log := m.log ++ Frame.encode ⟨kind.byte, num, payload⟩
        pos := m.pos + Frame.headerSize + payload.length } := by
  unfold write at h
  simp only [run_bind, run_get] at h
  split at h
  . simp at h
  . split at h
    . simp at h
    . next hbw _ =>
      simp only [run_bind, run_set, run_pure] at h
      cases h
      exact ⟨by simpa using hbw, rfl, rfl⟩

theorem write_eq_error {e : String} (h : (write file kind num payload).run m = .error e m')
    : m.bwErr = true ∧ m' = m ∨
      m.bwErr = false ∧ file.write (m.pos + Frame.headerSize + payload.length) = false ∧
        m' = { m with log := m.log ++ Frame.encode ⟨kind.byte, num, payload⟩, bwErr := true } := by
  unfold write at h
  simp only [run_bind, run_get] at h
  split at h
  . next hbw =>
    cases h
    exact .inl ⟨hbw, rfl⟩
  . next hbw =>
    split at h
    . next hfile =>
      cases h
      exact .inr ⟨by simpa using hbw, by simpa using hfile, rfl⟩
    . simp [run_set] at h

theorem wrote_write {p : Nat → Nat → Pend}
    (hdef : ∀ body, Pend.ofFrame ⟨kind.byte, num, payload⟩ body = .defer (p body payload.length))
    (hlen : payload.length ≤ maxRow) {a : Unit}
    (h : (do
        let res ← write file kind num payload
        liftRows (p res.1 res.2).run).run m = .ok a m') : Wrote m [⟨kind.byte, num, payload⟩] m' := by
  rw [run_bind_eq_ok] at h
  rcases h with ⟨res, m1, hwrite, hlift⟩
  rcases write_eq_ok hwrite with ⟨-, rfl, rfl⟩
  rw [liftRows_eq_ok] at hlift
  rcases hlift with ⟨r, hrun, rfl⟩
  refine ⟨_, r, ⟨hlen, _, [], hdef _, rfl, rfl⟩, ?_, ?_⟩
  . simp only [Pend.commit, run_forM_cons]
    rw [run_bind_of_ok hrun]
    rfl
  . simp [Frame.length_encode, Nat.add_assoc]

theorem traces_write {Q : Frame → Prop} {p : Nat → Nat → Pend} (hdef : ∀ body,
      Pend.ofFrame ⟨kind.byte, num, payload⟩ body = .defer (p body payload.length))
    (hlen : payload.length ≤ maxRow) (hQ : Q ⟨kind.byte, num, payload⟩)
    : EStateM.Traces Q Wrote Broke (do
        let res ← write file kind num payload
        liftRows (p res.1 res.2).run) := by
  have hone : ∀ off, Defers [⟨kind.byte, num, payload⟩] off
      [p (off + Frame.headerSize) payload.length] :=
    fun off => ⟨hlen, _, [], hdef _, rfl, rfl⟩
  have hQs : ∀ f ∈ [(⟨kind.byte, num, payload⟩ : Frame)], Q f := by simpa using hQ
  intro m
  constructor
  . intro a m' h
    exact ⟨_, hQs, wrote_write hdef hlen h⟩
  . intro e m' h
    rw [run_bind_eq_error] at h
    rcases h with hwrite | ⟨res, m1, hwrite, hlift⟩
    . rcases write_eq_error hwrite with ⟨hbw, rfl⟩ | ⟨-, -, rfl⟩
      . exact ⟨[], by simp, [], [], m'.toRows, m'.pos, m'.bwErr, rfl, by simp, rfl, by simp, .inl hbw, by simp⟩
      . exact ⟨_, hQs, _, [], m.toRows, m.pos, true, hone m.pos, by simp, rfl, by simp, by simp, by simp⟩
    . rcases write_eq_ok hwrite with ⟨hbw, rfl, rfl⟩
      rw [liftRows_run_eq_error hlift]
      refine ⟨_, hQs, _, [], m.toRows, m.pos + Frame.headerSize + payload.length, m.bwErr, hone m.pos,
        by simp, rfl, ?_, ?_, ?_⟩
      . omega
      . right
        simp [hbw, Frame.length_encode, Nat.add_assoc]
      . simp

theorem traces_chainRow {Q : Frame → Prop} {fam : Fam} {val : Bytes}
    (hlen : val.length ≤ maxRow) (hQ : Q ⟨(RecKind.chain fam).byte, num, val⟩)
    : EStateM.Traces Q Wrote Broke (chainRow file fam num val) := by
  apply traces_write (p := fun body n => .chain fam num body n)
  . intro body
    simp [Pend.ofFrame]
  . exact hlen
  . exact hQ

theorem writesRows_chainRow {fam : Fam} {val : Bytes} (hfam : fam ≠ .blk)
    (hlen : val.length ≤ maxRow) : WritesRows (chainRow file fam num val) := by
  apply traces_chainRow hlen
  exact isRest_byte (by simpa using hfam)

theorem writesRows_numRow {key : Bytes} (hlen : key.length ≤ maxRow) : WritesRows (numRow file key num) := by
  apply traces_write (p := fun _ _ => .num key num)
  . intro body
    simp [Pend.ofFrame]
  . exact hlen
  . exact isRest_byte (by simp)

theorem writesRows_postRow {group : Bytes} {payload : UInt8}
    (hlen : group.length < maxRow) : WritesRows (postRow file group txnum payload) := by
  apply traces_write (p := fun _ _ => .post ⟨group, txnum, payload⟩)
  . intro body
    simp [Pend.ofFrame]
  . simp
    omega
  . exact isRest_byte (by simp)

theorem writesRows_once (seen : Memtable → Prop) [DecidablePred seen] {f : MemM Unit}
    (hf : WritesRows f) : WritesRows (do if seen (← get) then pure () else f) := by
  intro m
  simp only [run_bind, run_get]
  split
  . exact writesRows_pure () m
  . exact hf m

theorem writesRows_codeRow {hash : Hash} {blob : Bytes} (hlen : (hash.val ++ blob).length ≤ maxRow)
    : WritesRows (codeRow file hash blob) := by
  apply writesRows_once (fun m => (m.code.lookup hash.val).isSome)
  apply traces_write (p := fun _ _ => .code hash.val blob)
  . intro body
    have := hash.property
    simp [Pend.ofFrame, this]
  . exact hlen
  . exact isRest_byte (by simp)

theorem writesRows_setRow {key : Bytes} (hlen : key.length ≤ maxRow) : WritesRows (setRow file key txnum) := by
  apply writesRows_once (fun m => key ∈ m.sets)
  apply traces_write (p := fun _ _ => .set key)
  . intro body
    simp [Pend.ofFrame]
  . exact hlen
  . exact isRest_byte (by simp)

theorem length_stateKeyPrefix_lt (r : StateRow) : (stateKeyPrefix r).length < 2 ^ 16 := by
  unfold stateKeyPrefix
  split <;> simp

theorem ofFrame_statePayload (r : StateRow) (txnum : UInt64) (body : Nat)
    : Pend.ofFrame ⟨RecKind.state.byte, txnum, statePayload r⟩ body =
        .defer (.state (stateKeyPrefix r) txnum r.val) := by
  have hkl := length_stateKeyPrefix_lt r
  have hlen : (UInt16.ofNat (stateKeyPrefix r).length).toNat = (stateKeyPrefix r).length := by
    simp
    omega
  have hput : (Bytes.putUint16 (UInt16.ofNat (stateKeyPrefix r).length)).length = 2 :=
    Bytes.length_putUint16 _
  simp only [Pend.ofFrame, RecKind.ofByte?_byte, statePayload, append_assoc]
  rw [take_left' hput, drop_left' hput]
  simp only [Bytes.uint16_putUint16, hlen]
  rw [if_neg (by simp; omega)]
  rw [if_neg (by simp)]
  rw [take_left' rfl]
  rw [← append_assoc, drop_left' (by simp)]

theorem writesRows_stateRow {r : StateRow}
    (hlen : (statePayload r).length ≤ maxRow) : WritesRows (stateRow file r txnum) := by
  apply traces_write (p := fun _ _ => .state (stateKeyPrefix r) txnum r.val)
  . intro body
    exact ofFrame_statePayload r txnum body
  . exact hlen
  . exact isRest_byte (by simp)

theorem le_maxRow_of_lt {n : Nat} (h : n < 100) : n ≤ maxRow := by
  simp only [maxRow]
  omega

def ShortGroups (post : PostMap) : Prop := ∀ g ∈ post.keys, g.length < 99

theorem ShortGroups.orInto (h : ShortGroups post) {group : Bytes} {r : UInt8}
    (hg : group.length < 99) : ShortGroups (orInto post group r) := by
  intro g hmem
  rw [Memtable.orInto, ← AList.mem_keys, AList.mem_insert] at hmem
  cases hmem with
  | inl heq => rwa [heq]
  | inr hmem => exact h g (AList.mem_keys.mp hmem)

theorem ShortGroups.role (h : ShortGroups post) (a : Option Addr) (r : UInt8) : ShortGroups (role post a r) := by
  cases a with
  | none => exact h
  | some a =>
    apply h.orInto
    simp

theorem ShortGroups.foldl (h : ShortGroups post) {f : PostMap → ι → PostMap}
    {is : List ι} (hf : ∀ post i, ShortGroups post → ShortGroups (f post i))
    : ShortGroups (is.foldl f post) := by
  induction is generalizing post with
  | nil => exact h
  | cons i is ih =>
    apply ih
    apply hf
    exact h

theorem ShortGroups.logPostings (h : ShortGroups post) (emitter : Addr)
    (topics : List Hash) : ShortGroups (logPostings post emitter topics) := by
  cases topics with
  | nil =>
    apply h.orInto
    simp
  | cons topic0 topics =>
    apply ShortGroups.foldl
    . apply ShortGroups.orInto
      . apply h.orInto
        simp
      . simp
    . intro post i hpost
      apply hpost.orInto
      simp

theorem shortGroups_txPostings (t : TxWrite) : ShortGroups (txPostings t) := by
  have hempty : ShortGroups ∅ := by
    intro g hg
    simp at hg
  apply ShortGroups.foldl
  . apply ShortGroups.foldl
    . exact ((hempty.role _ _).role _ _).role _ _
    . intro post a hpost
      exact hpost.role _ _
  . intro post l hpost
    exact (hpost.role _ _).logPostings _ _

theorem writesRows_addTx {n : UInt64} {t : TxWrite} (hfit : ∀ row ∈ t.rows, row.length ≤ maxRow)
    : WritesRows (addTx file n t) := by
  unfold addTx
  apply WritesRows.bind (writesRows_chainRow (by decide) (hfit _ (by simp [TxWrite.rows])))
  intro _
  apply WritesRows.bind (writesRows_chainRow (by decide) (hfit _ (by simp [TxWrite.rows])))
  intro _
  apply WritesRows.bind (writesRows_chainRow (by decide) (hfit _ (by simp [TxWrite.rows])))
  intro _
  apply WritesRows.bind
  . apply writesRows_numRow
    apply le_maxRow_of_lt
    simp [t.hash.property]
  intro _
  apply WritesRows.bind
  . apply WritesRows.forM
    intro g hg
    apply writesRows_postRow
    have hshort := shortGroups_txPostings t g (by simpa [sortedKeys] using hg)
    simp only [maxRow]
    omega
  intro _
  apply WritesRows.bind
  . apply WritesRows.forM
    intro l _
    apply WritesRows.forM
    intro k hk
    apply writesRows_setRow
    apply le_maxRow_of_lt
    unfold logSets at hk
    split at hk
    . simp at hk
    . rw [mem_map] at hk
      rcases hk with ⟨⟨topic, i⟩, _, rfl⟩
      simp
  intro _
  apply WritesRows.forM
  intro r hr
  apply writesRows_stateRow
  apply hfit
  simp only [TxWrite.rows, mem_append, mem_map]
  exact .inr ⟨r, hr, rfl⟩

theorem writesRows_addRest (hfit : b.RowsFit) : WritesRows (addRest crypto file b first) := by
  unfold addRest
  apply WritesRows.bind (writesRows_chainRow (by decide) (hfit _ (by simp [BlockWrite.rows])))
  intro _
  apply WritesRows.bind (writesRows_chainRow (by decide) (hfit _ (by simp [BlockWrite.rows])))
  intro _
  apply WritesRows.bind
  . apply writesRows_numRow
    apply le_maxRow_of_lt
    simp [(crypto.keccak256 b.headerRLP).property]
  intro _
  split
  . exact writesRows_throw _
  . next container _ =>
    apply WritesRows.bind
    . apply writesRows_numRow
      apply le_maxRow_of_lt
      simp [(crypto.sha256 container).property]
    intro _
    apply WritesRows.bind
    . apply WritesRows.forM
      rintro ⟨h, blob⟩ hmem
      apply writesRows_codeRow
      apply hfit
      simp only [BlockWrite.rows, mem_append, mem_map]
      exact .inl (.inl (.inr ⟨(h, blob), hmem, rfl⟩))
    intro _
    apply WritesRows.bind
    . apply WritesRows.forM
      rintro ⟨t, i⟩ hmem
      apply writesRows_addTx
      intro row hrow
      apply hfit
      simp only [BlockWrite.rows, mem_append, mem_flatMap]
      exact .inl (.inr ⟨t, fst_mem_of_mem_zipIdx hmem, hrow⟩)
    intro _
    apply WritesRows.forM
    intro r hr
    apply writesRows_stateRow
    apply hfit
    simp only [BlockWrite.rows, mem_append, mem_map]
    exact .inr ⟨r, hr, rfl⟩

theorem traces_blkRow {height first : UInt64} {n : UInt32}
    : EStateM.Traces (fun _ => True) Wrote Broke
        (chainRow file .blk height (Bytes.putUint64 first ++ Bytes.putUint32 n)) := by
  apply traces_chainRow
  . apply le_maxRow_of_lt
    simp
  . trivial

def blkFrame (height first : UInt64) (n : UInt32) : Frame :=
  ⟨(RecKind.chain .blk).byte, height, Bytes.putUint64 first ++ Bytes.putUint32 n⟩

theorem wrote_addRows (hfit : b.RowsFit) (h : (addRows crypto file b first).run m = .ok () m')
    : ∃ fs, Wrote m (blkFrame b.height first (UInt32.ofNat b.txs.length) :: fs) m' := by
  unfold addRows at h
  rw [run_bind_eq_ok] at h
  rcases h with ⟨_, m1, hblk, hrest⟩
  have hone := wrote_write (p := fun body n => .chain .blk b.height body n) (by simp [Pend.ofFrame])
    (le_maxRow_of_lt (by simp)) hblk
  rcases (writesRows_addRest hfit _).1 _ _ hrest with ⟨fs, -, hrest⟩
  exact ⟨fs, hone.append hrest⟩

theorem traces_addRows (hfit : b.RowsFit) : EStateM.Traces (fun _ => True) Wrote Broke (addRows crypto file b first) := by
  apply EStateM.Traces.bind Wrote.append Wrote.append_broke traces_blkRow
  intro _
  exact (writesRows_addRest hfit).mono (fun _ _ => trivial)

end

end Memtable

end EpochDB.Store
