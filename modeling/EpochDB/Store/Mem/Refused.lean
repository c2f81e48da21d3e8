import EpochDB.Lib.Transition
import EpochDB.Store.Mem.Steps

/-!
What a block leaves behind that `add` refuses. A block that is refused for its height leaves the window
as it was. A block that breaks off later leaves its first rows, and the window takes no block any more.
-/

namespace EpochDB.Store

open List

namespace Memtable

structure SameReads (m m' : Memtable) : Prop where
  chain : ∀ fam n, m'.chainGet fam n = m.chainGet fam n
  state : ∀ key n, m'.latestState key n = m.latestState key n
  nums : ∀ key, m'.lookupNum key = m.lookupNum key
  post : m'.post = m.post
  sets : m'.sets = m.sets
  code : ∀ hash, m'.codeBlob hash = m.codeBlob hash
  bounds : m'.baseTx = m.baseTx ∧ m'.nextTx = m.nextTx ∧ m'.baseHeight = m.baseHeight ∧ m'.nextHeight = m.nextHeight ∧
    m'.started = m.started

def NoTrace (crypto : Crypto) (m : Memtable) (b : BlockWrite) (m' : Memtable) : Prop :=
  SameReads m m' ∧ ∀ file b' m1, b'.height = b.height → (add crypto file b').run m = .ok () m1 →
    ∃ m1', (add crypto file b').run m' = .ok () m1' ∧ SameReads m1 m1'

structure Broken (m : Memtable) : Prop where
  started : m.started = true
  broken : m.bwErr = true ∨ (m.chain .blk).set = true ∧ (m.chain .blk).next ≠ m.nextHeight

theorem SameReads.refl (m : Memtable) : SameReads m m :=
  ⟨fun _ _ => rfl, fun _ _ => rfl, fun _ => rfl, rfl, rfl, fun _ => rfl, rfl, rfl, rfl, rfl, rfl⟩

def Inside (c : ChainIndex) (len : Nat) : Prop :=
  c.n.length = c.off.length ∧ ∀ p ∈ c.off.zip c.n, p.1 + p.2.toNat ≤ len

variable {c : ChainIndex} {len : Nat} {m : Memtable} {b : BlockWrite} {crypto : Crypto}

theorem Inside.mono {len len' : Nat} (h : Inside c len) (hle : len ≤ len') : Inside c len' :=
  ⟨h.1, fun p hp => Nat.le_trans (h.2 p hp) hle⟩

theorem Inside.push (h : Inside c len) {off : Nat} {n : UInt32} (hn : off + n.toNat ≤ len) : Inside (c.push off n) len := by
  refine ⟨by simp [ChainIndex.push, h.1], ?_⟩
  intro p hp
  simp only [ChainIndex.push] at hp
  rw [zip_append h.1.symm, mem_append] at hp
  rcases hp with hp | hp
  . exact h.2 p hp
  . simp only [zip_cons_cons, zip_nil_right, mem_singleton] at hp
    rw [hp]
    exact hn

theorem Inside.start (h : Inside c len) (num : UInt64) : Inside (c.start num) len := by
  unfold ChainIndex.start
  split
  . exact h
  . exact h

theorem Inside.padTo (h : Inside c len) (next : UInt64) : Inside (c.padTo next) len := by
  rcases h.start (next - 1) with ⟨hlen, hbound⟩
  refine ⟨by simp [ChainIndex.padTo, hlen], ?_⟩
  intro p hp
  simp only [ChainIndex.padTo] at hp
  rw [zip_append hlen.symm, mem_append] at hp
  rcases hp with hp | hp
  . exact hbound p hp
  . rw [zip_replicate', mem_replicate] at hp
    rw [hp.2]
    exact Nat.zero_le len

theorem Inside.bound (h : Inside c len) {num : UInt64} {off : Nat} {n : UInt32}
    (hfind : c.find num = some (off, n)) : off + n.toNat ≤ len := by
  unfold ChainIndex.find at hfind
  split at hfind
  . cases hfind
  . dsimp only at hfind
    split at hfind
    . next off' n' hoff hn =>
      split at hfind
      . cases hfind
      . cases hfind
        exact h.2 (off, n) (mem_of_getElem? (getElem?_zip_eq_some.mpr ⟨hoff, hn⟩))
    . cases hfind

structure Grew (m m' : Memtable) : Prop where
  rows : m'.toRows = m.toRows
  log : m.log <+: m'.log
  bounds : m'.baseTx = m.baseTx ∧ m'.nextTx = m.nextTx ∧ m'.baseHeight = m.baseHeight ∧ m'.nextHeight = m.nextHeight ∧
    m'.started = m.started

theorem Grew.sameReads {m m' : Memtable} (h : Grew m m') (hin : ∀ fam, Inside (m.chain fam) m.log.length)
    : SameReads m m' := by
  have hrows := h.rows
  refine ⟨?_, ?_, ?_, by rw [hrows], by rw [hrows], ?_, h.bounds⟩
  . intro fam n
    unfold chainGet
    rw [hrows]
    cases hfind : (m.chain fam).find n with
    | none => rfl
    | some p =>
      rcases p with ⟨off, len⟩
      rcases h.log with ⟨more, hmore⟩
      have hbound := (hin fam).bound hfind
      simp only [Option.map_some, Option.some.injEq]
      rw [← hmore, drop_append_of_le_length (by omega), take_append_of_le_length (by rw [length_drop]; omega)]
  . intro key n
    unfold latestState
    rw [hrows]
  . intro key
    rw [hrows]
  . intro hash
    rw [hrows]

structure LogInside (m : Memtable) : Prop where
  pos : m.bwErr = false → m.pos = m.log.length
  inside : ∀ fam, Inside (m.chain fam) m.log.length

theorem length_logged (m : Memtable) (f : Frame) : (m.logged f).log.length = m.log.length + (Frame.headerSize + f.payload.length) := by
  rw [logged, length_append, Frame.length_encode]

theorem LogInside.logged (h : LogInside m) (hbw : m.bwErr = false) (f : Frame) {r : Rows}
    (hr : ∀ fam, Inside (r.chain fam) (m.log.length + (Frame.headerSize + f.payload.length)))
    : LogInside { m.logged f with toRows := r } := by
  have hlen := length_logged m f
  refine ⟨?_, ?_⟩
  . intro _
    dsimp only
    rw [hlen]
    simp only [Memtable.logged]
    rw [h.pos hbw, Nat.add_assoc]
  . intro fam
    dsimp only
    rw [hlen]
    exact hr fam

theorem LogInside.mono (h : LogInside m) (f : Frame) (fam : Fam)
    : Inside (m.chain fam) (m.log.length + (Frame.headerSize + f.payload.length)) :=
  (h.inside fam).mono (Nat.le_add_right _ _)

theorem LogInside.torn (h : LogInside m) (f : Frame) : LogInside (m.torn f) := by
  refine ⟨by simp [Memtable.torn], ?_⟩
  intro fam
  apply (h.inside fam).mono
  rw [Memtable.torn, length_append]
  exact Nat.le_add_right _ _

section Inside

variable (crypto : Crypto) (file : LogFile)

theorem triple_chainRow_inside (fam : Fam) (num : UInt64) (val : Bytes)
    : EStateM.Triple LogInside (chainRow file fam num val) (fun _ => LogInside) LogInside := by
  apply triple_record (p := fun body n => .chain fam num body n)
  . intro m r hm hbw hrun
    apply hm.logged hbw
    intro fam'
    by_cases hfam : fam' = fam
    . subst hfam
      rcases addChain_run hrun with ⟨-, rfl⟩
      dsimp only [Rows.setChain]
      rw [Function.update_self]
      apply ((hm.mono ⟨(RecKind.chain fam').byte, num, val⟩ fam').start num).push
      rw [hm.pos hbw]
      have hle : (UInt32.ofNat val.length).toNat ≤ val.length := by
        rw [UInt32.toNat_ofNat']
        exact Nat.mod_le _ _
      dsimp only
      omega
    . rw [chain_of_addChain hrun hfam]
      exact hm.mono _ fam'
  . exact fun m hm _ => hm
  . exact fun m hm _ _ => hm.torn _
  . intro m e r hm hbw _
    exact hm.logged hbw _ (hm.mono _)

theorem rowRule_inside : RowRule file (fun _ => LogInside) LogInside where
  chain next fam val _ := triple_chainRow_inside file fam (next fam) val
  grow next m f r hm hbw hchain := by
    apply hm.logged hbw
    rw [hchain]
    exact hm.mono f
  stuck next m hm _ := hm
  fail next m f hm _ _ := hm.torn f

theorem triple_appendBlock_inside (b : BlockWrite) : EStateM.Triple LogInside (appendBlock crypto file b) (fun _ => LogInside) LogInside := by
  intro m hm
  refine triple_appendBlock (S := LogInside) (R := LogInside) (P := LogInside) (E := LogInside) ?_ ?_ ?_ m ⟨hm, rfl⟩
  . apply EStateM.Triple.bind (triple_chainRow_inside file .blk b.height _)
    intro _
    have hrest := (rowRule_inside file).addRest crypto b 0 m.nextTx (fun _ _ m _ hm => hm)
    exact hrest
  . intro m hm
    refine ⟨hm.pos, ?_⟩
    intro fam
    dsimp only
    rw [chain_padTo]
    split
    . exact (hm.inside fam).padTo _
    . exact hm.inside fam
  . intro payload
    apply triple_endBlock
    . intro m f hm hbw
      have hlog := hm.logged hbw f (hm.mono f)
      exact ⟨hlog.pos, hlog.inside⟩
    . exact fun m hm _ => hm
    . exact fun m f hm _ _ => hm.torn f
    . intro m f hm hbw _
      exact ⟨by simp, (hm.logged hbw f (hm.mono f)).inside⟩

end Inside

theorem faults_broken (crypto : Crypto) (file : LogFile) (b : BlockWrite)
    : Faults crypto file b (fun m => Broken m ∧ (m.nextHeight = b.height ∨ m.nextHeight = b.height + 1)) where
  torn _ _ hstarted hheight _ := ⟨⟨hstarted, .inl rfl⟩, hheight⟩
  flush _ hstarted hheight _ := ⟨⟨hstarted, .inl rfl⟩, .inr hheight⟩
  container e next m _ hm := by
    refine ⟨⟨hm.started, .inr ⟨hm.set, ?_⟩⟩, .inl hm.nextHeight⟩
    rw [hm.inStep.next .blk hm.set, hm.blk, hm.nextHeight]
    exact add_one_ne _

theorem Broken.refuses (h : Broken m) (crypto : Crypto) (file : LogFile) (hheight : b.height = m.nextHeight)
    : EStateM.Triple (fun m1 => m1 = m) (appendBlock crypto file b) (fun _ _ => False) (fun m' => Grew m m' ∧ Broken m') := by
  have hrow : EStateM.Triple (fun m1 => m1 = m) (chainRow file .blk b.height (b.blkVal m.nextTx)) (fun _ _ => False)
      (fun m' => Grew m m' ∧ Broken m') := by
    apply triple_record (p := fun body n => .chain .blk b.height body n)
    . rintro _ r rfl hbw hrun
      rcases h.broken with hbroken | ⟨hset, hne⟩
      . rw [hbw] at hbroken
        cases hbroken
      . rw [← hheight] at hne
        exact hne ((addChain_eq_ok hrun).1 hset)
    . rintro _ rfl _
      exact ⟨⟨rfl, prefix_refl _, rfl, rfl, rfl, rfl, rfl⟩, h⟩
    . rintro _ rfl _ _
      exact ⟨⟨rfl, prefix_append _ _, rfl, rfl, rfl, rfl, rfl⟩, h.started, .inl rfl⟩
    . rintro _ e r rfl _ _
      exact ⟨⟨rfl, prefix_append _ _, rfl, rfl, rfl, rfl, rfl⟩, h.started, h.broken⟩
  have hblock : EStateM.Triple (fun m1 => m1 = m ∧ m1.nextTx = m.nextTx) (appendBlock crypto file b) (fun _ _ => False)
      (fun m' => Grew m m' ∧ Broken m') := by
    apply triple_appendBlock (R := fun _ => False) (S := fun _ => False)
    . unfold addRows
      exact EStateM.Triple.bind hrow (fun _ _ hm => hm.elim)
    . exact fun _ hm => hm.elim
    . exact fun _ _ hm => hm.elim
  intro m1 hm1
  exact hblock m1 ⟨hm1, by rw [hm1]⟩

theorem Broken.add (h : Broken m) (crypto : Crypto) (file : LogFile) (hheight : b.height = m.nextHeight)
    : ∃ e m', (Memtable.add crypto file b).run m = .error e m' ∧ Grew m m' ∧ Broken m' := by
  have hrun : (Memtable.add crypto file b).run m = (Memtable.appendBlock crypto file b).run m := by
    rcases add_cases crypto file b m with ⟨hlt, -⟩ | ⟨-, hnot, -⟩ | ⟨-, -, hrun⟩
    . rw [hheight] at hlt
      exact absurd hlt (UInt64.lt_irrefl _)
    . exact absurd (.inl hheight) hnot
    . rw [hrun, hheight, begun_of_started h.started]
  rw [hrun]
  rcases h.refuses crypto file hheight m rfl with ⟨hok, herr⟩
  cases hres : (Memtable.appendBlock crypto file b).run m with
  | ok _ m' => exact (hok _ m' hres).elim
  | error e m' => exact ⟨e, m', rfl, herr e m' hres⟩

inductive Call where
  | add (file : LogFile) (b : BlockWrite)
  | reset (baseTx baseHeight : UInt64)

def call (crypto : Crypto) (m : Memtable) : Call → Option Memtable
  | .add file b => some ((Memtable.add crypto file b).run m).state
  | .reset baseTx baseHeight => some (m.reset baseTx baseHeight)

def HasRoom (m : Memtable) : Call → Prop
  | .add _ b => m.nextTx.toNat + b.slots < 2 ^ 64
  | .reset _ _ => True

structure Sound (m : Memtable) : Prop where
  order : InOrder m ∨ Broken m
  logInside : LogInside m

theorem sound_reset (m : Memtable) (baseTx baseHeight : UInt64) : Sound (m.reset baseTx baseHeight) where
  order := .inl ⟨⟨rfl, fun _ hset => absurd hset (by simp [reset, clear, Rows.empty, ChainIndex.empty])⟩, fun _ _ => rfl⟩
  logInside := ⟨fun _ => rfl, fun _ => ⟨rfl, fun p hp => absurd hp (by simp [reset, clear, Rows.empty, ChainIndex.empty])⟩⟩

theorem LogInside.begun (h : LogInside m) (height : UInt64) : LogInside (m.begun height) := ⟨h.pos, h.inside⟩

theorem Sound.add {file : LogFile} (h : Sound m)
    (hroom : m.nextTx.toNat + b.slots < 2 ^ 64) : Sound ((add crypto file b).run m).state := by
  rcases add_cases crypto file b m with ⟨-, hrun⟩ | ⟨-, -, e, hrun⟩ | ⟨-, hwaits, hrun⟩
  . rw [hrun]
    exact h
  . rw [hrun]
    exact h
  . rw [hrun]
    refine ⟨?_, (triple_appendBlock_inside crypto file b).state (h.logInside.begun b.height)⟩
    rcases h.order with horder | hbroken
    . rcases horder.appendBlock hwaits hroom (faults_broken _ file b) with ⟨hok, herr⟩
      cases hres : (appendBlock crypto file b).run (m.begun b.height) with
      | ok _ m' => exact .inl (hok m' hres)
      | error e m' => exact .inr (herr e m' hres).1
    . have hheight := hwaits.eq_of_started hbroken.started
      rcases hbroken.add crypto file hheight with ⟨e, m', hadd, -, hbroken'⟩
      rw [← hrun, hadd]
      exact .inr hbroken'

theorem sound_of_reachable {path : LogName} {baseTx baseHeight : UInt64}
    (h : Transition.Reachable (call crypto) HasRoom (fresh path baseTx baseHeight) m) : Sound m := by
  apply h.invariant (sound_reset _ baseTx baseHeight)
  intro m c m' hm hroom hcall
  cases c with
  | add file b =>
    cases hcall
    exact hm.add hroom
  | reset baseTx baseHeight =>
    cases hcall
    exact sound_reset m baseTx baseHeight

theorem exists_emptyBlock (crypto : Crypto) (height : UInt64) : ∃ b : BlockWrite, b.height = height ∧ b.Rebuilds crypto ∧ b.slots = 1 :=
  ⟨emptyBlock height, rfl, ⟨_, rfl⟩, rfl⟩

theorem InOrder.not_noTrace {file : LogFile} {m m' : Memtable} (h : InOrder m)
    (hge : m.nextHeight ≤ b.height) (hwaits : m.Waits b.height) (hroom : m.nextTx.toNat + b.slots < 2 ^ 64) {e : String}
    (hrun : (Memtable.appendBlock crypto file b).run (m.begun b.height) = .error e m') : ¬ NoTrace crypto m b m' := by
  rintro ⟨hsame, hretry⟩
  rcases (h.appendBlock hwaits hroom (faults_broken _ file b)).2 e m' hrun with ⟨hbroken, -⟩
  rcases hsame.bounds with ⟨-, -, -, hnext, hstarted⟩
  have hheight : b.height = m'.nextHeight := by
    rw [hnext]
    apply hwaits.eq_of_started
    rw [← hstarted, hbroken.started]
  rcases exists_emptyBlock crypto b.height with ⟨b', hb', hcont, hslots⟩
  have hroom' : m.nextTx.toNat + b'.slots < 2 ^ 64 := by
    unfold BlockWrite.slots at hroom hslots ⊢
    omega
  have hfile : Good ⟨fun _ => true, fun _ => true⟩ := ⟨fun _ => rfl, fun _ => rfl⟩
  rw [← hb'] at hge hwaits hheight
  have htaken : ∃ m1, (Memtable.add crypto ⟨fun _ => true, fun _ => true⟩ b').run m = .ok () m1 :=
    InOrder.add hfile h hge hwaits hcont hroom'
  rcases htaken with ⟨m1, hm1⟩
  rcases hretry _ b' m1 hb' hm1 with ⟨m1', hm1', -⟩
  rcases hbroken.add crypto ⟨fun _ => true, fun _ => true⟩ hheight with ⟨e', m2, hm2, -⟩
  rw [hm1'] at hm2
  cases hm2

/--
A refused block leaves no trace where it is refused for its height, and where the window had broken on
an earlier block. Everywhere else it leaves one.
-/
theorem noTrace_iff {crypto : Crypto} {path : LogName} {baseTx baseHeight : UInt64} {m : Memtable}
    (hm : Transition.Reachable (call crypto) HasRoom (fresh path baseTx baseHeight) m) {file : LogFile} {b : BlockWrite}
    (hroom : HasRoom m (.add file b)) {e : String} {m' : Memtable} (hrun : (add crypto file b).run m = .error e m')
    : NoTrace crypto m b m' ↔ ¬ m.Waits b.height ∨ Broken m := by
  have hsound := sound_of_reachable hm
  rcases add_cases crypto file b m with ⟨-, hok⟩ | ⟨-, hnot, e', herr⟩ | ⟨hge, hwaits, happ⟩
  . rw [hok] at hrun
    cases hrun
  . rw [herr] at hrun
    cases hrun
    exact ⟨fun _ => .inl hnot, fun _ => ⟨.refl m, fun _ _ m1 _ hadd => ⟨m1, hadd, .refl m1⟩⟩⟩
  . constructor
    . intro htrace
      rcases hsound.order with horder | hbroken
      . rw [happ] at hrun
        exact absurd htrace (horder.not_noTrace hge hwaits hroom hrun)
      . exact .inr hbroken
    . rintro (hnot | hbroken)
      . exact absurd hwaits hnot
      . have hheight := hwaits.eq_of_started hbroken.started
        rcases hbroken.add crypto file hheight with ⟨e', m2, hm2, hgrew, -⟩
        rw [hrun] at hm2
        cases hm2
        refine ⟨hgrew.sameReads hsound.logInside.inside, ?_⟩
        -- the window takes no block of this height, so there is none to take again
        intro file' b' m1 hb' hadd
        rcases hbroken.add crypto file' (hb'.trans hheight) with ⟨e'', m3, hm3, -⟩
        rw [hadd] at hm3
        cases hm3

theorem noTrace_hole
    : ∃ e m', (add emptyBlockCrypto ⟨fun _ => true, fun _ => true⟩ (emptyBlock 7)).run (fresh .window 0 5) = .error e m' ∧
        NoTrace emptyBlockCrypto (fresh .window 0 5) (emptyBlock 7) m' := by
  have hnot : ¬ (fresh .window 0 5).Waits (emptyBlock 7).height := by
    unfold Waits
    decide
  rcases add_cases emptyBlockCrypto ⟨fun _ => true, fun _ => true⟩ (emptyBlock 7) (fresh .window 0 5)
    with ⟨hlt, -⟩ | ⟨-, -, e, hrun⟩ | ⟨-, hwaits, -⟩
  . exact absurd hlt (by decide)
  . refine ⟨e, _, hrun, ?_⟩
    exact (noTrace_iff .init (show _ < _ by decide) hrun).mpr (.inl hnot)
  . exact absurd hwaits hnot

def wrongPvm : BlockWrite := { emptyBlock 5 with pvm := [1] }

theorem wrongPvm_leaves_blk
    : ((add emptyBlockCrypto ⟨fun _ => true, fun _ => true⟩ wrongPvm).run (fresh .window 0 5)).isOk = false ∧
      ((add emptyBlockCrypto ⟨fun _ => true, fun _ => true⟩ (emptyBlock 5)).run (fresh .window 0 5)).isOk = true ∧
      (fresh .window 0 5).chainGet .blk 5 = none ∧
      let m' := ((add emptyBlockCrypto ⟨fun _ => true, fun _ => true⟩ wrongPvm).run (fresh .window 0 5)).state
      m'.started = true ∧ m'.chainGet .blk 5 = some [0, 0, 0, 0, 0, 0, 0, 0, 0, 0, 0, 0] ∧
        ((add emptyBlockCrypto ⟨fun _ => true, fun _ => true⟩ (emptyBlock 5)).run m').isOk = false := by
  refine ⟨?_, ?_, ?_, ?_, ?_, ?_⟩ <;> decide +kernel

end Memtable

end EpochDB.Store
