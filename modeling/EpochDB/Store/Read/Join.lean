import EpochDB.Store.Read.Reopen

/-!
The store opened over runs that already hold the first blocks of its window log, as they do once a join
has brought them: `recover` drops those blocks and keeps the ones behind them. A set row is in the log
only of the block that brought it first, which may be one of those dropped.
-/

namespace EpochDB.Store

open List

theorem sets_run {p : Pend} {r r' : Rows} (h : p.run.run r = .ok () r') (key : Bytes)
    : key ∈ r'.sets ↔ key ∈ r.sets ∨ p = .set key := by
  cases p with
  | chain fam num off n =>
    rw [(Memtable.addChain_run h).2]
    simp [Rows.setChain]
  | state key' num val =>
    cases h
    have hsets : (r.putState key' num val).sets = r.sets := by
      simp only [Rows.putState]
      split
      . split <;> rfl
      . rfl
    simp [hsets]
  | set key' =>
    cases h
    simp [Rows.putSet, or_comm, eq_comm]
  | _ =>
    cases h
    simp [Rows.putNum, Rows.addPost, Rows.putCode, Rows.padTo, txKeyedFams, Rows.setChain]

theorem sets_commit {ps : List Pend} {r r' : Rows} (h : (Pend.commit ps).run r = .ok () r') (key : Bytes)
    : key ∈ r'.sets ↔ key ∈ r.sets ∨ .set key ∈ ps := by
  induction ps generalizing r with
  | nil =>
    cases h
    simp
  | cons p ps ih =>
    unfold Pend.commit at h ih
    rw [EStateM.run_forM_cons, EStateM.run_bind_eq_ok] at h
    rcases h with ⟨_, r1, hp, hps⟩
    rw [ih hps, sets_run hp, or_assoc, mem_cons, eq_comm (a := p)]

namespace Memtable

variable {floor : UInt64} {bl rest : List LogBlock} {m m' w : Memtable}

theorem Landing.sets (h : Landing floor bl m) (key : Bytes)
    : key ∈ m.sets ↔ .set key ∈ (kept floor bl).flatMap LogBlock.muts := by
  rw [sets_commit h.rows]
  simp [Rows.empty]

theorem Landing.idle_of_kept (h : Landing floor bl m) (hnone : kept floor bl = []) : m.nextHeight = floor := by
  cases hs : m.started with
  | false => exact (h.idle hs).2.1
  | true =>
    have hfirst := (h.started hs).1
    rw [hnone] at hfirst
    cases hfirst

/-- The log has no more blocks than the runs hold. -/
theorem Landing.join_short (h : Landing floor bl m) (hshort : rest <+: bl) (hw : Landing m.nextHeight rest w)
    : w.nextHeight = m.nextHeight ∧ ∀ key, key ∈ m.sets ↔ key ∈ m.sets ∨ key ∈ w.sets := by
  have hnone : kept m.nextHeight rest = [] := kept_eq_nil.mpr fun g hg => h.below g (hshort.subset hg)
  refine ⟨hw.idle_of_kept hnone, fun key => ?_⟩
  rw [hw.sets, hnone]
  simp

/-- The blocks behind those the runs hold are the ones that are replayed over them. -/
theorem Landing.join_tail (hasc : Ascending (bl ++ rest)) (h : Landing floor bl m) (hs : m.started = true)
    (h' : Landing floor (bl ++ rest) m') (hw : Landing m.nextHeight (bl ++ rest) w)
    : w.nextHeight = m'.nextHeight ∧ ∀ key, key ∈ m'.sets ↔ key ∈ m.sets ∨ key ∈ w.sets := by
  rcases Option.map_eq_some_iff.mp (h.started hs).2 with ⟨last, hlast, hnext⟩
  have hnext : m.nextHeight = last.height + 1 := (congrArg Prod.fst hnext).symm
  have hmem := (mem_kept.mp (mem_of_getLast? hlast)).1
  have hbehind : ∀ g ∈ rest, m.nextHeight ≤ g.height := by
    intro g hg
    have hlt := (pairwise_append.mp hasc.sorted).2.2 last hmem g hg
    rw [hnext, UInt64.le_iff_toNat_le, toNat_add_one (hasc.height_lt last (mem_append_left _ hmem))]
    exact UInt64.lt_iff_toNat_lt.mp hlt
  have hfloor : floor ≤ m.nextHeight := UInt64.le_trans h.base h.base_le
  have hrest : ∀ floor', floor' ≤ m.nextHeight → kept floor' rest = rest := by
    intro floor' hle
    exact filter_eq_self.mpr fun g hg => decide_eq_true (UInt64.le_trans hle (hbehind g hg))
  have hall : kept floor (bl ++ rest) = kept floor bl ++ rest := by
    rw [kept, filter_append]
    exact congrArg _ (hrest floor hfloor)
  have htail : kept m.nextHeight (bl ++ rest) = rest := by
    rw [kept, filter_append]
    exact (congrArg₂ _ (kept_eq_nil.mpr h.below) (hrest _ (UInt64.le_refl _))).trans (nil_append _)
  constructor
  . cases hs' : m'.started with
    | false =>
      have hnone := (h'.idle hs').2.2
      rw [hall] at hnone
      rw [(append_eq_nil_iff.mp hnone).1] at hlast
      cases hlast
    | true =>
      have hlast' := (h'.started hs').2
      rw [hall] at hlast'
      by_cases hnil : rest = []
      . rw [hnil, append_nil, hlast] at hlast'
        rw [hw.idle_of_kept (htail.trans hnil), hnext]
        exact congrArg Prod.fst (Option.some.inj hlast')
      . cases hsw : w.started with
        | false => exact absurd (htail.symm.trans (hw.idle hsw).2.2) hnil
        | true =>
          have hlastw := (hw.started hsw).2
          rw [htail] at hlastw
          rw [getLast?_append_of_ne_nil _ hnil, hlastw] at hlast'
          exact congrArg Prod.fst (Option.some.inj hlast')
  . intro key
    rw [h'.sets, h.sets, hw.sets, hall, htail, flatMap_append, mem_append]

end Memtable

namespace Read

/--
The store opened behind runs of which the last holds the blocks of the first `k` bytes of the log, with `n`
bytes of the log left.
-/
def Life.join (s : Life) (k n : Nat) : Option View := do
  let v ← (s.reopen k).toOption
  if v.mem.started then
    let r ← (Sealed.sealWindow v.mem).toOption
    (openWindow (v.runs ++ [r]) v.mem.nextTx v.mem.nextHeight (s.sys.view.mem.log.take n)).toOption
  else
    none

theorem openWindow_eq_ok {runs : List Sealed.Run} {tx height : UInt64} {log : Bytes} {v : View}
    (h : openWindow runs tx height log = .ok v)
    : (Memtable.recover tx height).run (Memtable.empty .window false log) = .ok () v.mem ∧ v = ⟨v.mem, none, runs⟩ := by
  unfold openWindow at h
  split at h
  . cases h
  . next hrec =>
    cases h
    exact ⟨hrec, rfl⟩

theorem reopen_eq_ok {s : Life} {n : Nat} {v : View} (h : s.reopen n = .ok v)
    : ∃ runs tx height, openFrozen s.sys.view.runs s.frozenLog = .ok (runs, tx, height) ∧
        openWindow runs tx height (s.sys.view.mem.log.take n) = .ok v := by
  unfold Life.reopen at h
  split at h
  . cases h
  . next runs tx height hopen => exact ⟨runs, tx, height, hopen, h⟩

theorem toOption_eq_some {ε α : Type} {x : Except ε α} {a : α} (h : x.toOption = some a) : x = .ok a := by
  cases x with
  | ok b => exact congrArg Except.ok (Option.some.inj h)
  | error e => cases h

theorem join_eq_some {s : Life} {k n : Nat} {v : View} (h : s.join k n = some v)
    : ∃ v1 r, s.reopen k = .ok v1 ∧ v1.mem.started = true ∧ Sealed.sealWindow v1.mem = .ok r ∧
        openWindow (v1.runs ++ [r]) v1.mem.nextTx v1.mem.nextHeight (s.sys.view.mem.log.take n) = .ok v := by
  unfold Life.join at h
  rcases Option.bind_eq_some_iff.mp h with ⟨v1, hv1, h⟩
  split at h
  . next hs =>
    rcases Option.bind_eq_some_iff.mp h with ⟨r, hr, h⟩
    exact ⟨v1, r, toOption_eq_some hv1, hs, toOption_eq_some hr, toOption_eq_some h⟩
  . cases h

theorem mem_setScan_none {policy : Sealed.FilterPolicy} {m : Memtable} {runs : List Sealed.Run} {pfx key : Bytes}
    : key ∈ setScan policy ⟨m, none, runs⟩ pfx ↔ (∃ r ∈ runs, key ∈ r.scanSet policy pfx) ∨ key ∈ m.sets ∧ pfx <+: key := by
  unfold setScan
  rw [mem_visited, and_iff_left not_mem_nil, mem_append, mem_windowSets, mem_flatMap]
  simp

/-- The blocks of the store a join leads to, with the set rows of all of them found. -/
theorem LifeInv.join {crypto : Crypto} {s : Life} {l : RunBlocks} {fbs mbs : List BlockWrite}
    (h : LifeInv crypto s l fbs mbs) {k n : Nat} {v : View} (hv : s.join k n = some v)
    : (∀ b ∈ s.sys.blocks, b.Rebuilds crypto) ∧
      ∀ (policy : Sealed.FilterPolicy) {pfx : Bytes}, prefixSet <+: pfx → ∀ key, key ∈ setScan policy v pfx ↔
        key ∈ (table crypto 0 (s.sys.blocks.filter (fun b => b.height < v.mem.nextHeight))).sets ∧ pfx <+: key := by
  refine ⟨h.parts.container, fun policy pfx hpfx key => ?_⟩
  rcases join_eq_some hv with ⟨v1, r, hopen1, hs, hseal, hopen⟩
  rcases h.reopen k with ⟨v1', l1, mbs1, hv1, -, h1⟩
  cases hopen1.symm.trans hv1
  rcases h.reopen n with ⟨v2, l2, mbs2, hopen2, -, h2⟩
  rcases reopen_eq_ok hopen1 with ⟨runs, tx, height, hfrozen, hwin1⟩
  rcases reopen_eq_ok hopen2 with ⟨runs', tx', height', hfrozen', hwin2⟩
  cases hfrozen.symm.trans hfrozen'
  rcases openWindow_eq_ok hwin1 with ⟨hrec1, hview1⟩
  rcases openWindow_eq_ok hwin2 with ⟨hrec2, hview2⟩
  rcases openWindow_eq_ok hopen with ⟨hrec, hview⟩
  rcases h.mem with ⟨tx0, height0, hlogged, -⟩
  have hlive := hlogged.live.1
  have hasc := fun n => hlive.ascending.of_isPrefix (hlive.whole.logBlocks_take_isPrefix n)
  rcases Memtable.recover_eq_ok rfl (hasc k) hrec1 with ⟨m1, hland1, -, hm1⟩
  rcases Memtable.recover_eq_ok rfl (hasc n) hrec2 with ⟨m2, hland2, -, hm2⟩
  rcases Memtable.recover_eq_ok rfl (hasc n) hrec with ⟨w, hland, -, hw⟩
  -- the window that was sealed and the one behind it hold what one window would
  have hsplit : ∃ v' l' mbs', LifeInv crypto ⟨⟨v', s.sys.blocks.filter (fun b => b.height < v'.mem.nextHeight)⟩, none⟩ l' [] mbs' ∧
      v' = ⟨v'.mem, none, runs⟩ ∧ v.mem.nextHeight = v'.mem.nextHeight ∧
      ∀ key, key ∈ v'.mem.sets ↔ key ∈ v1.mem.sets ∨ key ∈ v.mem.sets := by
    rw [hm1] at hland hs
    rcases prefix_or_prefix_of_prefix (hlive.whole.logBlocks_take_isPrefix k) (hlive.whole.logBlocks_take_isPrefix n)
      with ⟨rest, hrest⟩ | hshort
    . rw [show (Memtable.empty LogName.window false (s.sys.view.mem.log.take n)).log = s.sys.view.mem.log.take n from rfl,
        ← hrest] at hland2 hland
      have hjoin := hland1.join_tail (hrest ▸ hasc n) hs hland2 hland
      exact ⟨v2, l2, mbs2, h2, hview2, by rw [hw, hm2]; exact hjoin.1, by rw [hw, hm2, hm1]; exact hjoin.2⟩
    . have hjoin := hland1.join_short hshort hland
      exact ⟨v1, l1, mbs1, h1, hview1, by rw [hw, hm1]; exact hjoin.1, by rw [hw, hm1]; exact hjoin.2⟩
  rcases hsplit with ⟨v', l', mbs', h', hview', hnext, hsets⟩
  have hruns : ∀ key, (∃ r' ∈ v1.runs ++ [r], key ∈ r'.scanSet policy pfx) ↔ key ∈ setScan policy v1 pfx := by
    intro key
    rw [hview1] at h1
    have hcut := h1.parts.stored.cut rfl hs
    rcases hcut.publish rfl with ⟨r', hseal', hpub⟩
    cases hseal.symm.trans hseal'
    have hparts : Sys.Parts crypto ⟨⟨Memtable.fresh .window v1.mem.nextTx v1.mem.nextHeight, none, runs ++ [r]⟩, _⟩ _ [] [] :=
      ⟨hpub, by rw [h1.parts.blocks]; simp, h1.parts.container⟩
    have hscan := mem_setScan policy hparts hpfx (k := key)
    rw [mem_setScan_none] at hscan
    rw [hview1, mem_setScan policy h1.parts hpfx, ← hscan]
    simp [Memtable.fresh, Memtable.reset, Memtable.clear, Rows.empty]
  rw [hnext, ← mem_setScan policy h'.parts hpfx]
  dsimp only
  rw [hview, hview', mem_setScan_none, mem_setScan_none, hruns, hview1, mem_setScan_none, hsets, or_and_right, or_assoc]

end Read

end EpochDB.Store
