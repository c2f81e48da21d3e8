import EpochDB.Store.Mem.Recover
import EpochDB.Store.Read.Postings

/-!
The store over its lives: the process may end between any two steps and the store is opened again from
its runs and what is left of the window logs (`Open` of `store/db.go`). Whatever is reached holds a
chain as if the lost blocks had never been written.
-/

namespace EpochDB.Store.Read

open List Option Memtable

structure Life where
  sys : Sys
  stale : Option Memtable

def Life.init : Life := ⟨Sys.init, none⟩

inductive LifeEvent where
  | write (b : BlockWrite)
  | cut
  | publish
  | remove
  | merge (start stop : Nat)
  | reopen (n : Nat)

def openFrozen (runs : List Sealed.Run) (log : Option Bytes) : Except String (List Sealed.Run × UInt64 × UInt64) :=
  match log with
  | none => .ok (runs, flushedTx runs, flushedHeight runs)
  | some log =>
    match (Memtable.recover (flushedTx runs) (flushedHeight runs)).run (Memtable.empty .frozen false log) with
    | .error e _ => .error e
    | .ok _ fm =>
      if fm.started then
        match Sealed.sealWindow fm with
        | .error e => .error e
        | .ok r => .ok (runs ++ [r], fm.nextTx, fm.nextHeight)
      else
        .ok (runs, flushedTx runs, flushedHeight runs)

def openWindow (runs : List Sealed.Run) (tx height : UInt64) (log : Bytes) : Except String View :=
  match (Memtable.recover tx height).run (Memtable.empty .window false log) with
  | .error e _ => .error e
  | .ok _ m => .ok ⟨m, none, runs⟩

def Life.frozenLog (s : Life) : Option Bytes := (s.sys.view.frozen.or s.stale).map (·.log)

def Life.reopen (s : Life) (n : Nat) : Except String View :=
  match openFrozen s.sys.view.runs s.frozenLog with
  | .error e => .error e
  | .ok (runs, tx, height) => openWindow runs tx height (s.sys.view.mem.log.take n)

def lifeStep (crypto : Crypto) (s : Life) : LifeEvent → Option Life
  | .write b => (step crypto s.sys (.write goodLog b)).map (⟨·, s.stale⟩)
  -- a cut waits for the one before it
  | .cut => if s.stale.isSome then none else (step crypto s.sys .cut).map (⟨·, none⟩)
  | .publish => (step crypto s.sys .publish).map (⟨·, s.sys.view.frozen⟩)
  | .remove => some ⟨s.sys, none⟩
  | .merge start stop => (step crypto s.sys (.merge start stop)).map (⟨·, s.stale⟩)
  | .reopen n =>
    match s.reopen n with
    | .error _ => none
    | .ok v => some ⟨⟨v, s.sys.blocks.filter (fun b => b.height < v.mem.nextHeight)⟩, none⟩

def LifeRoom (s : Life) : LifeEvent → Prop
  | .write b => slots s.sys.blocks + b.slots < 2 ^ 64 ∧ b.Replayable
  | _ => True

structure Logged (crypto : Crypto) (tx height : UInt64) (bs : List BlockWrite) (m : Memtable) : Prop where
  fit : ∀ b ∈ bs, b.Replayable
  run : (Memtable.addAll crypto goodLog bs).run (Memtable.fresh .window tx height) = .ok () m

theorem logged_fresh (crypto : Crypto) (tx height : UInt64) : Logged crypto tx height [] (Memtable.fresh .window tx height) :=
  ⟨by simp, rfl⟩

section Logged

variable {crypto : Crypto} {tx height : UInt64} {bs : List BlockWrite} {m : Memtable}

theorem Logged.add (h : Logged crypto tx height bs m) {b : BlockWrite} (hfit : b.Replayable) {m' : Memtable}
    (hrun : (Memtable.add crypto goodLog b).run m = .ok () m') : Logged crypto tx height (bs ++ [b]) m' := by
  constructor
  . intro b' hb'
    rcases mem_append.mp hb' with hb' | hb'
    . exact h.fit b' hb'
    . rw [mem_singleton.mp hb']
      exact hfit
  . have hone : (Memtable.addAll crypto goodLog [b]).run m = .ok () m' :=
      addAll_cons.mpr ⟨m', hrun, addAll_nil.mpr rfl⟩
    have hrun := h.run
    unfold Memtable.addAll at hrun hone ⊢
    exact EStateM.run_forM_append.mpr ⟨m, hrun, hone⟩

theorem Logged.live (h : Logged crypto tx height bs m) : Memtable.Live m ∧ m.path = .window := by
  have hfresh : Memtable.Live (Memtable.fresh .window tx height) ∧ (Memtable.fresh .window tx height).path = .window :=
    ⟨live_fresh .., rfl⟩
  have hrun := h.run
  have hfit := h.fit
  clear h
  generalize Memtable.fresh .window tx height = m0 at hfresh hrun
  induction bs generalizing m0 with
  | nil =>
    rw [addAll_nil.mp hrun]
    exact hfresh
  | cons b bs ih =>
    rcases addAll_cons.mp hrun with ⟨m1, hb, hbs⟩
    have hext := hfresh.1.add crypto goodLog (hfit b mem_cons_self)
    rw [hb] at hext
    exact ih (fun b hb => hfit b (mem_cons_of_mem _ hb)) m1 ⟨hext.live, hext.path.trans hfresh.2⟩ hbs

theorem land_setPath {b : LogBlock} {m m' : Memtable} (path : LogName) (h : (Memtable.land b).run m = .ok () m')
    : (Memtable.land b).run { m with path := path } = .ok () { m' with path := path } := by
  rcases land_eq_ok h with ⟨hlt, rfl⟩ | ⟨hge, r, hrun, rfl⟩
  . exact land_of_lt hlt
  . exact land_of_le (m := { m with path := path }) hge hrun

theorem landAll_setPath {bl : List LogBlock} {m m' : Memtable} (path : LogName) (h : (bl.forM Memtable.land).run m = .ok () m')
    : (bl.forM Memtable.land).run { m with path := path } = .ok () { m' with path := path } := by
  induction bl generalizing m with
  | nil =>
    cases h
    rfl
  | cons b bl ih =>
    rw [EStateM.run_forM_cons, EStateM.run_bind_eq_ok] at h
    rcases h with ⟨_, m1, hb, hbl⟩
    rw [EStateM.run_forM_cons, EStateM.run_bind_of_ok (land_setPath path hb)]
    exact ih hbl

theorem Logged.recover (h : Logged crypto tx height bs m) (path : LogName) (n : Nat)
    : ∃ k mk, Logged crypto tx height (bs.take k) mk ∧ (m.log.length ≤ n → mk = m ∧ bs.take k = bs) ∧
        (Memtable.recover tx height).run (Memtable.empty path false (m.log.take n)) = .ok () { mk with path := path } := by
  rcases replay_fresh .window tx height h.fit h.run n with ⟨k, mk, hk, hadd, hlen, hmax, hsk, hland, hlast, hfront⟩
  refine ⟨k, mk, ⟨fun b hb => h.fit b (mem_of_mem_take hb), hadd⟩, ?_, ?_⟩
  . intro hn
    have hall : k = bs.length := by
      by_contra hne
      have hlt := hmax bs.length m (by omega) (Nat.le_refl _) (by rw [take_length]; exact h.run)
      omega
    rw [hall, take_length] at hadd ⊢
    have hrun := h.run
    rw [hadd] at hrun
    cases hrun
    exact ⟨rfl, rfl⟩
  . have hset : Memtable.Settled { mk with path := path } := ⟨hsk.pos, hsk.flushed, hsk.bwErr, hsk.readOnly, hsk.base⟩
    exact recover_of_replaying hset (landAll_setPath path hland) hlast hfront

theorem Logged.recover_below (h : Logged crypto tx height bs m) (path : LogName) (floorTx floor : UInt64) (hle : m.nextHeight ≤ floor)
    : ∃ fm, (Memtable.recover floorTx floor).run (Memtable.empty path false m.log) = .ok () fm ∧ fm.started = false := by
  have hbelow : ∀ g ∈ logBlocks m.log, g.height < floor :=
    fun g hg => UInt64.lt_of_lt_of_le (h.live.1.below g hg) hle
  have hland : ∀ bl : List LogBlock, (∀ g ∈ bl, g.height < floor) →
      (bl.forM Memtable.land).run ((Memtable.empty path false m.log).clear floorTx floor) =
        .ok () ((Memtable.empty path false m.log).clear floorTx floor) := by
    intro bl hbl
    induction bl with
    | nil => rfl
    | cons g bl ih =>
      rw [EStateM.run_forM_cons, EStateM.run_bind_of_ok (land_of_lt (hbl g mem_cons_self))]
      exact ih (fun g hg => hbl g (mem_cons_of_mem _ hg))
  exact ⟨_, recover_of_land (m := Memtable.empty path false m.log) (hland _ hbelow) rfl, rfl⟩

end Logged

section Open

variable {crypto : Crypto} {v : View} {l : RunBlocks} {fbs mbs : List BlockWrite}

theorem Stored.addAll (h : Stored crypto v l fbs mbs) {bs : List BlockWrite} {next : Nat} (hcons : Consecutive next bs)
    (hnext : v.mem.nextHeight.toNat ≤ next) (hslots : v.mem.nextTx.toNat + slots bs < 2 ^ 64)
    (hfit : ∀ b ∈ bs, b.Replayable) {m : Memtable}
    (hrun : (Memtable.addAll crypto goodLog bs).run v.mem = .ok () m)
    : Stored crypto { v with mem := m } l fbs (mbs ++ bs) := by
  induction bs generalizing v mbs next with
  | nil =>
    rw [addAll_nil.mp hrun, append_nil]
    exact h
  | cons b bs ih =>
    rcases hcons with ⟨hb, hcons⟩
    rcases addAll_cons.mp hrun with ⟨m1, hadd, hbs⟩
    rw [slots_cons] at hslots
    rw [forall_mem_cons] at hfit
    rcases h.write hfit.1.height (by omega) hadd with ⟨hlt, -⟩ | ⟨-, hst⟩
    . rw [UInt64.lt_iff_toNat_lt] at hlt
      omega
    . have hlast : b.height.toNat + 1 = m1.nextHeight.toNat := hst.last_height (by simp)
      have htx : m1.nextTx.toNat = v.mem.nextTx.toNat + b.slots := by
        rcases h.whole with ⟨height, hof⟩
        rcases hst.whole with ⟨height', hof'⟩
        have hnextTx := hof.nextTx
        have hnextTx' := hof'.nextTx
        dsimp only at hnextTx hnextTx'
        rw [← append_assoc, slots_append _ [b], slots_cons, slots_nil] at hnextTx'
        omega
      have hall := ih (v := { v with mem := m1 }) hst hcons (by dsimp only; omega) (by dsimp only; omega) hfit.2 hbs
      rwa [append_assoc, singleton_append] at hall

theorem View.older_eq (hfrozen : v.frozen = none) : v.older = v.runs.map runSpan := by
  unfold View.older
  rw [hfrozen]
  exact append_nil _

theorem Stored.flushed_of_follows (h : Stored crypto v l fbs mbs) {r : Sealed.Run} (hr : v.runs.getLast? = some r) {p : Span}
    (hp : (runSpan r).Follows p) : flushedTx v.runs = p.baseTx ∧ (flushedHeight v.runs).toNat = p.baseHeight := by
  have hmem := mem_of_getLast? hr
  rw [h.runs] at hmem
  rcases mem_map.mp hmem with ⟨q, hq, rfl⟩
  constructor
  . rw [flushedTx, hr]
    exact hp.1.symm
  . rw [flushedHeight, hr, map_some, getD_some, toNat_add_one (h.holds q hq).toHeight_lt]
    exact hp.2.symm

section Thawed

variable (hfrozen : v.frozen = none) (h : Stored crypto v l fbs mbs)

include hfrozen h

theorem Stored.flushed_eq {r : Sealed.Run} (hr : v.runs.getLast? = some r)
    : flushedTx v.runs = v.mem.baseTx ∧ flushedHeight v.runs = v.mem.baseHeight := by
  have hfollows := h.follows (s := runSpan r) (by rw [View.older_eq hfrozen, getLast?_map, hr]; rfl)
  rcases h.flushed_of_follows hr hfollows with ⟨htx, hheight⟩
  exact ⟨htx, UInt64.toNat_inj.mp hheight⟩

theorem Stored.emptied
    : Stored crypto ⟨Memtable.fresh .window (flushedTx v.runs) (flushedHeight v.runs), none, v.runs⟩ l [] [] := by
  have hold : View.older ⟨Memtable.fresh .window (flushedTx v.runs) (flushedHeight v.runs), none, v.runs⟩ = v.older := by
    rw [View.older_eq hfrozen]
    exact append_nil _
  refine ⟨h.runs, h.holds, by simp, fun _ => rfl, took_fresh crypto _ _ _, ?_, ?_, ?_⟩
  . rw [hold, isChain_append]
    refine ⟨(isChain_append.mp h.chain).1, List.IsChain.singleton _, ?_⟩
    intro s hs t ht
    cases ht
    rw [View.older_eq hfrozen, getLast?_map] at hs
    rcases map_eq_some_iff.mp hs with ⟨r, hr, rfl⟩
    rcases h.flushed_eq hfrozen hr with ⟨htx, hheight⟩
    have hfollows : (runSpan r).Follows (memSpan v.mem) := h.follows (by rw [View.older_eq hfrozen, getLast?_map, hr]; rfl)
    refine ⟨htx.trans hfollows.1, ?_⟩
    have hbase : (memSpan v.mem).baseHeight = (flushedHeight v.runs).toNat := by
      rw [hheight]
      rfl
    exact hbase.symm.trans hfollows.2
  . rw [hold]
    cases hcase : v.older with
    | nil =>
      intro s hs
      cases hs
      have hruns : v.runs = [] := by simpa [View.older_eq hfrozen] using hcase
      rw [hruns]
      rfl
    | cons t older =>
      have hzero := h.zero
      rw [hcase] at hzero
      exact hzero
  . intro hnil _
    rw [hold, View.older_eq hfrozen, map_eq_nil_iff] at hnil
    rw [hnil]
    rfl

end Thawed

end Open

def Kept (crypto : Crypto) (before : List Span) (bs : List BlockWrite) (m : Memtable) : Prop :=
  ∃ tx height, Logged crypto tx height bs m ∧ (before = [] → tx = 0 ∧ height = 0) ∧
    (before ≠ [] → tx = m.baseTx ∧ height = m.baseHeight)

structure LifeInv (crypto : Crypto) (s : Life) (l : RunBlocks) (fbs mbs : List BlockWrite) : Prop where
  parts : s.sys.Parts crypto l fbs mbs
  mem : Kept crypto s.sys.view.older mbs s.sys.view.mem
  frozen : ∀ f, s.sys.view.frozen = some f →
    s.stale = none ∧ ∃ m, f = { m with path := .frozen } ∧ Kept crypto (s.sys.view.runs.map runSpan) fbs m
  stale : ∀ f, s.stale = some f →
    s.sys.view.runs ≠ [] ∧ ∃ m bs tx height, f = { m with path := .frozen } ∧ Logged crypto tx height bs m ∧
      m.nextHeight ≤ s.sys.view.mem.baseHeight

theorem lifeInv_init (crypto : Crypto) : LifeInv crypto Life.init [] [] [] where
  parts := ⟨stored_init crypto, rfl, by simp [Life.init, Sys.init]⟩
  mem := ⟨0, 0, logged_fresh crypto 0 0, fun _ => ⟨rfl, rfl⟩, fun h => absurd rfl h⟩
  frozen := by simp [Life.init, Sys.init]
  stale := by simp [Life.init]

section Steps

variable {crypto : Crypto} {s : Life} {l : RunBlocks} {fbs mbs : List BlockWrite}
  (h : LifeInv crypto s l fbs mbs)

include h

theorem LifeInv.write {b : BlockWrite} (hroom : slots s.sys.blocks + b.slots < 2 ^ 64) (hfit : b.Replayable) {m : Memtable}
    (hrun : (Memtable.add crypto goodLog b).run s.sys.view.mem = .ok () m)
    : ∃ mbs', LifeInv crypto ⟨⟨⟨m, s.sys.view.frozen, s.sys.view.runs⟩, accept s.sys.blocks b⟩, s.stale⟩ l fbs mbs' := by
  have hnextTx := toNat_nextTx h.parts
  rw [nextTx_eq h.parts] at hnextTx
  rw [accept_eq h.parts.stored h.parts.blocks]
  rcases h.parts.stored.write hfit.height (by omega) hrun with ⟨hskip, rfl⟩ | ⟨hge, hst⟩
  . rw [if_pos hskip]
    exact ⟨mbs, h⟩
  rw [if_neg (UInt64.not_lt.mpr hge)]
  rcases h.parts.stored.mem.add hfit.height (by omega) hrun with ⟨hlt, -⟩ | ⟨-, hheight, -, hbaseTx, hbaseHeight⟩
  . exact absurd hlt (UInt64.not_lt.mpr hge)
  have hbase : s.sys.view.older ≠ [] → m.baseHeight = s.sys.view.mem.baseHeight := by
    intro hold
    rw [hbaseHeight, h.parts.stored.base_of_write hheight hold]
  refine ⟨mbs ++ [b], ⟨hst, ?_, ?_⟩, ?_, h.frozen, ?_⟩
  . dsimp only
    rw [h.parts.blocks, append_assoc]
  . intro b' hb'
    rcases mem_append.mp hb' with hb' | hb'
    . exact h.parts.container b' hb'
    . exact hst.mem.container b' (by rw [mem_append]; exact .inr hb')
  . rcases h.mem with ⟨tx, height, hlogged, hnil, hcons⟩
    refine ⟨tx, height, hlogged.add hfit hrun, hnil, ?_⟩
    intro hold
    rcases hcons hold with ⟨htx, hh⟩
    exact ⟨htx.trans hbaseTx.symm, hh.trans (hbase hold).symm⟩
  . intro f hf
    rcases h.stale f hf with ⟨hruns, m', bs, tx, height, hfm, hlogged, hle⟩
    refine ⟨hruns, m', bs, tx, height, hfm, hlogged, ?_⟩
    have hold : s.sys.view.older ≠ [] := by simp [View.older, hruns]
    rw [hbase hold]
    exact hle

theorem LifeInv.cut (hfrozen : s.sys.view.frozen = none) (hstarted : s.sys.view.mem.started = true)
    : LifeInv crypto ⟨⟨⟨Memtable.fresh .window s.sys.view.mem.nextTx s.sys.view.mem.nextHeight,
        some { s.sys.view.mem with path := .frozen }, s.sys.view.runs⟩, s.sys.blocks⟩, none⟩ l mbs [] := by
  refine ⟨⟨h.parts.stored.cut hfrozen hstarted, ?_, h.parts.container⟩, ?_, ?_, by simp⟩
  . dsimp only
    rw [h.parts.blocks, h.parts.stored.thawed hfrozen]
    simp
  . exact ⟨_, _, logged_fresh crypto _ _, fun hnil => by simp [View.older] at hnil, fun _ => ⟨rfl, rfl⟩⟩
  . intro f hf
    cases hf
    refine ⟨rfl, s.sys.view.mem, rfl, ?_⟩
    have hmem := h.mem
    rw [View.older_eq hfrozen] at hmem
    exact hmem

theorem LifeInv.publish {f : Memtable} (hf : s.sys.view.frozen = some f) {r : Sealed.Run} (hseal : Sealed.sealWindow f = .ok r)
    : LifeInv crypto ⟨⟨⟨s.sys.view.mem, none, s.sys.view.runs ++ [r]⟩, s.sys.blocks⟩, some f⟩ (l ++ [(r, fbs)]) [] mbs := by
  rcases h.parts.stored.publish hf with ⟨r', hseal', hst⟩
  rw [hseal, Except.ok.injEq] at hseal'
  subst hseal'
  rcases h.frozen f hf with ⟨-, m, hfm, tx, height, hlogged, -⟩
  have hold : s.sys.view.older ≠ [] := by simp [View.older, hf]
  have hfollows : (memSpan f).Follows (memSpan s.sys.view.mem) := h.parts.stored.follows (by simp [View.older, hf])
  refine ⟨⟨hst, ?_, h.parts.container⟩, ?_, by simp, ?_⟩
  . dsimp only
    rw [h.parts.blocks]
    simp
  . rcases h.mem with ⟨tx', height', hlogged', -, hcons⟩
    exact ⟨tx', height', hlogged', fun hnil => by simp [View.older] at hnil, fun _ => hcons hold⟩
  . intro f' hf'
    cases hf'
    refine ⟨by simp, m, fbs, tx, height, hfm, hlogged, ?_⟩
    rw [UInt64.le_iff_toNat_le]
    have hheight : s.sys.view.mem.baseHeight.toNat = f.nextHeight.toNat := hfollows.2
    rw [hheight, hfm]

theorem LifeInv.remove : LifeInv crypto ⟨s.sys, none⟩ l fbs mbs :=
  ⟨h.parts, h.mem, fun f hf => ⟨rfl, (h.frozen f hf).2⟩, by simp⟩

theorem LifeInv.merge {start stop : Nat} {r : Sealed.Run}
    (hmerge : Sealed.merge ((s.sys.view.runs.take stop).drop start) = .ok r)
    : ∃ l', LifeInv crypto ⟨⟨⟨s.sys.view.mem, s.sys.view.frozen, s.sys.view.runs.take start ++ [r] ++ s.sys.view.runs.drop stop⟩,
        s.sys.blocks⟩, s.stale⟩ l' fbs mbs := by
  rcases h.parts.stored.merge hmerge with ⟨bs, hbs, hst⟩
  have hruns : s.sys.view.runs ≠ [] := by
    intro hnil
    rw [hnil] at hmerge
    simp only [take_nil, drop_nil] at hmerge
    cases hmerge
  have hold : s.sys.view.older ≠ [] := by simp [View.older, hruns]
  refine ⟨_, ⟨hst, ?_, h.parts.container⟩, ?_, ?_, ?_⟩
  . rw [hbs]
    exact h.parts.blocks
  . rcases h.mem with ⟨tx, height, hlogged, -, hcons⟩
    exact ⟨tx, height, hlogged, fun hnil => by simp [View.older] at hnil, fun _ => hcons hold⟩
  . intro f hf
    rcases h.frozen f hf with ⟨hstale, m, hfm, tx, height, hlogged, -, hcons⟩
    refine ⟨hstale, m, hfm, tx, height, hlogged, fun hnil => by simp at hnil, fun _ => hcons (by simp [hruns])⟩
  . intro f hf
    rcases h.stale f hf with ⟨-, hrest⟩
    exact ⟨by simp, hrest⟩

theorem LifeInv.openFrozen
    : ∃ runs l', openFrozen s.sys.view.runs s.frozenLog = .ok (runs, flushedTx runs, flushedHeight runs) ∧
        Stored crypto ⟨s.sys.view.mem, none, runs⟩ l' [] mbs ∧ l'.flatMap (·.2) = l.flatMap (·.2) ++ fbs ∧
        Kept crypto (View.older ⟨s.sys.view.mem, none, runs⟩) mbs s.sys.view.mem := by
  unfold Read.openFrozen Life.frozenLog
  cases hf : s.sys.view.frozen with
  | some f =>
    rcases h.frozen f hf with ⟨-, m, hfm, tx, height, hlogged, hnil, hcons⟩
    rcases h.parts.stored.publish hf with ⟨r, hseal, -⟩
    have hpub := h.publish hf hseal
    rcases h.parts.stored.frozen f hf with ⟨htook, hne⟩
    -- the frozen window's log starts where the last run ends
    have hbase : flushedTx s.sys.view.runs = tx ∧ flushedHeight s.sys.view.runs = height := by
      cases hr : s.sys.view.runs.getLast? with
      | none =>
        rw [getLast?_eq_none_iff] at hr
        rcases hnil (by rw [hr]; rfl) with ⟨rfl, rfl⟩
        rw [hr]
        exact ⟨rfl, rfl⟩
      | some q =>
        have hne : s.sys.view.runs ≠ [] := ne_nil_of_mem (mem_of_getLast? hr)
        rcases hcons (by simpa using hne) with ⟨rfl, rfl⟩
        have hchain := (isChain_append.mp h.parts.stored.chain).1
        unfold View.older at hchain
        rw [hf] at hchain
        have hfollows : (runSpan q).Follows (memSpan f) :=
          (isChain_append.mp hchain).2.2 (runSpan q) (by rw [getLast?_map, hr]; rfl) (memSpan f) rfl
        rcases h.parts.stored.flushed_of_follows hr hfollows with ⟨htx, hheight⟩
        rw [hfm] at htx hheight
        exact ⟨htx, UInt64.toNat_inj.mp hheight⟩
    rcases hlogged.recover .frozen m.log.length with ⟨k, mk, -, hwhole, hrec⟩
    rcases hwhole (Nat.le_refl _) with ⟨rfl, -⟩
    have hlog : f.log = mk.log := by rw [hfm]
    have hflushed := hpub.parts.stored.flushed_eq rfl (r := r) getLast?_concat
    have hfollows : (memSpan f).Follows (memSpan s.sys.view.mem) := h.parts.stored.follows (by simp [View.older, hf])
    have hnextTx : f.nextTx = flushedTx (s.sys.view.runs ++ [r]) := by
      rw [hflushed.1]
      exact hfollows.1.symm
    have hnextHeight : f.nextHeight = flushedHeight (s.sys.view.runs ++ [r]) := by
      rw [hflushed.2]
      exact UInt64.toNat_inj.mp hfollows.2.symm
    refine ⟨s.sys.view.runs ++ [r], l ++ [(r, fbs)], ?_, hpub.parts.stored, by simp, hpub.mem⟩
    rw [some_or, map_some, hlog, hbase.1, hbase.2, ← take_length (l := mk.log)]
    dsimp only
    rw [hrec, ← hfm]
    dsimp only
    rw [if_pos (htook.started.mpr hne), hseal, hnextTx, hnextHeight]
  | none =>
    have hst := h.parts.stored
    have hthawed := hst.thawed hf
    have hview : s.sys.view = ⟨s.sys.view.mem, none, s.sys.view.runs⟩ := by rw [← hf]
    rw [hthawed] at hst
    refine ⟨s.sys.view.runs, l, ?_, hview ▸ hst, by rw [hthawed, append_nil], hview ▸ h.mem⟩
    cases hstale : s.stale with
    | none => rfl
    | some f =>
      rcases h.stale f hstale with ⟨hruns, m, bs, tx, height, hfm, hlogged, hle⟩
      rcases ne_none_iff_exists'.mp (mt getLast?_eq_none_iff.mp hruns) with ⟨r, hr⟩
      rw [← (hst.flushed_eq hf hr).2] at hle
      rcases hlogged.recover_below .frozen (flushedTx s.sys.view.runs) _ hle with ⟨fm, hrec, hidle⟩
      have hlog : f.log = m.log := by rw [hfm]
      rw [none_or, map_some, hlog]
      dsimp only
      rw [hrec]
      dsimp only
      rw [hidle]
      rfl

end Steps

theorem consecutive_take {height : Nat} {bs : List BlockWrite} (h : Consecutive height bs) (k : Nat) : Consecutive height (bs.take k) := by
  rw [← take_append_drop k bs, consecutive_append] at h
  exact h.1

theorem filter_height {height : Nat} {bs bs' : List BlockWrite} (h : Consecutive height (bs ++ bs')) {next : UInt64}
    (hnext : bs ≠ [] → next.toNat = height + bs.length) (hnil : bs = [] → next = 0)
    : (bs ++ bs').filter (fun b => b.height < next) = bs := by
  by_cases hbs : bs = []
  . rw [hnil hbs, hbs, nil_append, filter_eq_nil_iff]
    intro b _ hlt
    exact absurd (of_decide_eq_true hlt) (UInt64.not_lt.mpr UInt64.zero_le)
  . have hnext := hnext hbs
    rw [filter_append, filter_eq_self.mpr, filter_eq_nil_iff.mpr, append_nil]
    . intro b hb hlt
      rcases mem_iff_getElem?.mp hb with ⟨i, hi⟩
      have hheight := height_of_getElem? (consecutive_append.mp h).2 hi
      have hlt := UInt64.lt_iff_toNat_lt.mp (of_decide_eq_true hlt)
      omega
    . intro b hb
      rcases mem_iff_getElem?.mp hb with ⟨i, hi⟩
      have hheight := height_of_getElem? (consecutive_append.mp h).1 hi
      have hlen := (List.getElem?_eq_some_iff.mp hi).1
      apply decide_eq_true
      rw [UInt64.lt_iff_toNat_lt]
      omega

theorem first_unique {height height' : Nat} {bs : List BlockWrite} (h : Consecutive height bs) (h' : Consecutive height' bs)
    (hne : bs ≠ []) : height = height' := by
  cases bs with
  | nil => exact absurd rfl hne
  | cons b bs => exact h.1.symm.trans h'.1

variable {crypto : Crypto} {s : Life}

theorem LifeInv.reopen {l : RunBlocks} {fbs mbs : List BlockWrite} (h : LifeInv crypto s l fbs mbs) (n : Nat)
    : ∃ v l' mbs', s.reopen n = .ok v ∧ (s.sys.view.mem.log.length ≤ n → v.mem = s.sys.view.mem) ∧
        LifeInv crypto ⟨⟨v, s.sys.blocks.filter (fun b => b.height < v.mem.nextHeight)⟩, none⟩ l' [] mbs' := by
  rcases h.openFrozen with ⟨runs, l', hopen, hst, hblocks, tx, height, hlogged, hnil, hcons⟩
  have hempty := hst.emptied rfl
  dsimp only at hempty
  have hbase : tx = flushedTx runs ∧ height = flushedHeight runs := by
    cases hr : runs.getLast? with
    | none =>
      rw [getLast?_eq_none_iff] at hr
      rw [hr] at hnil ⊢
      exact hnil rfl
    | some r =>
      have hne : runs ≠ [] := ne_nil_of_mem (mem_of_getLast? hr)
      rcases hcons (by simp [View.older, hne]) with ⟨rfl, rfl⟩
      rcases hst.flushed_eq rfl hr with ⟨htx, hheight⟩
      exact ⟨htx.symm, hheight.symm⟩
  rcases hbase with ⟨rfl, rfl⟩
  rcases hlogged.recover .window n with ⟨k, mk, hkept, hwhole, hrec⟩
  have hpath : ({ mk with path := .window } : Memtable) = mk := by rw [← hkept.live.2]
  rw [hpath] at hrec
  have hstart : flushedTx runs = s.sys.view.mem.baseTx ∧ flushedHeight runs ≤ s.sys.view.mem.baseHeight := by
    cases hr : runs.getLast? with
    | none =>
      rw [getLast?_eq_none_iff] at hr
      rw [hr] at hst ⊢
      exact ⟨(hst.zero (memSpan s.sys.view.mem) rfl).symm, UInt64.zero_le⟩
    | some r =>
      rcases hst.flushed_eq rfl hr with ⟨htx, hheight⟩
      exact ⟨htx, UInt64.le_of_eq hheight⟩
  have hslots : (flushedTx runs).toNat + slots (mbs.take k) < 2 ^ 64 := by
    have hnextTx := hst.mem.nextTx
    have hlt := s.sys.view.mem.nextTx.toNat_lt
    have hle := slots_le_of_isPrefix (List.take_prefix k mbs)
    dsimp only at hnextTx
    rw [hstart.1]
    omega
  have hst' : Stored crypto ⟨mk, none, runs⟩ l' [] (mbs.take k) :=
    hempty.addAll (consecutive_take hst.mem.consecutive k) (UInt64.le_iff_toNat_le.mp hstart.2) hslots hkept.fit hkept.run
  have hsplit : s.sys.blocks = (l'.flatMap (·.2) ++ [] ++ mbs.take k) ++ mbs.drop k := by
    rw [h.parts.blocks, ← hblocks, append_nil, append_assoc, take_append_drop]
  have hfilter : s.sys.blocks.filter (fun b => b.height < mk.nextHeight) = l'.flatMap (·.2) ++ [] ++ mbs.take k := by
    rcases h.parts.stored.whole with ⟨first, hof⟩
    rcases hst'.whole with ⟨first', hof'⟩
    have hcons := hof.consecutive
    rw [← h.parts.blocks, hsplit] at hcons
    rw [hsplit]
    apply filter_height hcons
    . intro hne
      have hnextHeight := hof'.nextHeight
      dsimp only at hnextHeight hcons
      rw [hnextHeight, first_unique (consecutive_append.mp hcons).1 hof'.consecutive hne]
    . exact hst'.nextHeight_eq_zero
  refine ⟨⟨mk, none, runs⟩, l', mbs.take k, ?_, fun hn => (hwhole hn).1, ⟨hst', hfilter, ?_⟩, ?_, by simp, by simp⟩
  . unfold Life.reopen
    rw [hopen]
    dsimp only
    unfold openWindow
    rw [hrec]
  . intro b hb
    exact h.parts.container b (mem_of_mem_filter hb)
  . refine ⟨flushedTx runs, flushedHeight runs, hkept, ?_, ?_⟩
    . intro hnil
      have hruns : runs = [] := by simpa [View.older] using hnil
      rw [hruns]
      exact ⟨rfl, rfl⟩
    . intro hold
      have hruns : runs ≠ [] := by simpa [View.older] using hold
      exact hst'.flushed_eq rfl (getLast?_eq_some_getLast hruns)

theorem lifeInv_step {s s' : Life} {e : LifeEvent} {l : RunBlocks}
    {fbs mbs : List BlockWrite} (h : LifeInv crypto s l fbs mbs) (hroom : LifeRoom s e) (hstep : lifeStep crypto s e = some s')
    : ∃ l' fbs' mbs', LifeInv crypto s' l' fbs' mbs' := by
  cases e with
  | write b =>
    rcases map_eq_some_iff.mp hstep with ⟨sys, hsys, rfl⟩
    rcases step_cases hsys with ⟨file, b', m, heq, hrun, rfl⟩ | ⟨heq, -⟩ | ⟨f, r, heq, -⟩ | ⟨start, stop, r, heq, -⟩
    . cases heq
      rcases h.write hroom.1 hroom.2 hrun with ⟨mbs', h'⟩
      exact ⟨l, fbs, mbs', h'⟩
    all_goals cases heq
  | cut =>
    simp only [lifeStep] at hstep
    split at hstep
    . cases hstep
    . rcases map_eq_some_iff.mp hstep with ⟨sys, hsys, rfl⟩
      rcases step_cases hsys with ⟨file, b, m, heq, -⟩ | ⟨-, hfrozen, hstarted, rfl⟩ | ⟨f, r, heq, -⟩ | ⟨start, stop, r, heq, -⟩
      . cases heq
      . exact ⟨l, mbs, [], h.cut hfrozen hstarted⟩
      all_goals cases heq
  | publish =>
    rcases map_eq_some_iff.mp hstep with ⟨sys, hsys, rfl⟩
    rcases step_cases hsys with ⟨file, b, m, heq, -⟩ | ⟨heq, -⟩ | ⟨f, r, -, hf, hseal, rfl⟩ | ⟨start, stop, r, heq, -⟩
    . cases heq
    . cases heq
    . rw [hf]
      exact ⟨_, [], mbs, h.publish hf hseal⟩
    . cases heq
  | remove =>
    cases hstep
    exact ⟨l, fbs, mbs, h.remove⟩
  | merge start stop =>
    rcases map_eq_some_iff.mp hstep with ⟨sys, hsys, rfl⟩
    rcases step_cases hsys with ⟨file, b, m, heq, -⟩ | ⟨heq, -⟩ | ⟨f, r, heq, -⟩ | ⟨start', stop', r, heq, hmerge, rfl⟩
    . cases heq
    . cases heq
    . cases heq
    . cases heq
      rcases h.merge hmerge with ⟨l', h'⟩
      exact ⟨l', fbs, mbs, h'⟩
  | reopen n =>
    rcases h.reopen n with ⟨v, l', mbs', hopen, -, h'⟩
    simp only [lifeStep, hopen, Option.some.injEq] at hstep
    rw [← hstep]
    exact ⟨l', [], mbs', h'⟩

theorem lifeInv_of_reachable (h : Transition.Reachable (lifeStep crypto) LifeRoom Life.init s)
    : ∃ l fbs mbs, LifeInv crypto s l fbs mbs := by
  refine h.invariant (I := fun s => ∃ l fbs mbs, LifeInv crypto s l fbs mbs) ⟨[], [], [], lifeInv_init crypto⟩ ?_
  rintro s e s' ⟨l, fbs, mbs, hinv⟩ hroom hstep
  exact lifeInv_step hinv hroom hstep

abbrev Lives (crypto : Crypto) (s : Life) : Prop := Transition.Reachable (lifeStep crypto) LifeRoom Life.init s

instance (s : Life) (e : LifeEvent) : Decidable (LifeRoom s e) :=
  match e with
  | .write _ => inferInstanceAs (Decidable (_ ∧ _))
  | .cut | .publish | .remove | .merge _ _ | .reopen _ => .isTrue trivial

def lives (crypto : Crypto) (es : List LifeEvent) : Option Life :=
  Transition.run (fun s e => if decide (LifeRoom s e) then lifeStep crypto s e else none) Life.init es

theorem lives_of_run {es : List LifeEvent} (h : lives crypto es = some s) : Lives crypto s :=
  Transition.Reachable.run_checked (fun _ _ => of_decide_eq_true) .init h

end EpochDB.Store.Read
