import EpochDB.Store.Read.Merge
import EpochDB.Store.Read.Reopen

/-!
What the windows of a store are sealed into, in every life of the store: the keys the seal writes, the
filters its sections are asked through, and the state lookups of the run.
-/

namespace EpochDB.Store.Read

open List Memtable Sealed

def View.windows (v : View) : List Memtable := v.mem :: v.frozen.toList

variable {crypto : Crypto} {m : Memtable} {bs : List BlockWrite}

theorem took_of_lives {s : Life} (h : Lives crypto s) (hm : m ∈ s.sys.view.windows) : ∃ bs, Took crypto m bs := by
  rcases lifeInv_of_reachable h with ⟨l, fbs, mbs, hinv⟩
  unfold View.windows at hm
  rw [mem_cons, Option.mem_toList] at hm
  rcases hm with rfl | hf
  . exact ⟨mbs, hinv.parts.stored.mem⟩
  . exact ⟨fbs, (hinv.parts.stored.frozen m hf).1⟩

theorem tabled_of_took (h : Took crypto m bs)
    : Tabled (table crypto m.baseTx bs) m.baseTx.toNat (m.baseTx.toNat + slots bs) m.baseHeight.toNat
        (m.baseHeight.toNat + bs.length) := by
  have htx := m.nextTx.toNat_lt
  rw [h.nextTx] at htx
  exact tabled_table h.consecutive htx

structure WritesRows (m : Memtable) : Prop where
  accepted : ∃ sec, writeSections m = .ok sec ∧ (sec .chain).rows = Sealed.chainRows m ∧
    (sec .state).rows = stateRows m ∧ (sec .lookup).rows = lookupRows m
  chainAscends : (Sealed.chainRows m).Pairwise (fun r s => r.1 < s.1)
  stateAscends : (stateRows m).Pairwise (fun r s => r.1 < s.1)
  lookupAscends : (lookupRows m).Pairwise (fun r s => r.1 < s.1)
  chain : ∀ fam n val, (numKey (famPrefix fam) n, val) ∈ Sealed.chainRows m ↔ m.chainGet fam n = some val
  state : ∀ p, StateKey p → ∀ v : MemVal, (suffixed p v.txnum, v.val) ∈ stateRows m ↔ v ∈ m.history p
  code : ∀ hash blob, (codeKey hash, blob) ∈ stateRows m ↔ m.codeBlob hash = some blob
  nums : ∀ key, NumKey key → ∀ val, (key, val) ∈ lookupRows m ↔ (m.lookupNum key).map Bytes.putUint64 = some val
  sets : ∀ key, SetKey key → ∀ val, (key, val) ∈ lookupRows m ↔ key ∈ m.sets ∧ val = []
  posts : (((lookupRows m).filter (fun row => isPostingKey row.1)).flatMap entsOf).Perm m.post
  others : ∀ row ∈ lookupRows m, isPostingKey row.1 = true ∨ NumKey row.1 ∨ SetKey row.1

theorem mem_history_iff {t : Table} {tx tx' height height' : Nat} (ht : Tabled t tx tx' height height')
    (hm : m.Shows t) {p : Bytes} {v : MemVal} : v ∈ m.history p ↔ t.valueAt p v.txnum = some v.val := by
  have hrecord : m.history p = History.record MemVal.num (t.history p) := hm.history p
  rw [Table.valueAt_eq_some ht.before, ← hrecord]

theorem writeSections_ascending {crypto : Crypto} {s : Life} (h : Lives crypto s) {m : Memtable}
    (hm : m ∈ s.sys.view.windows) : WritesRows m := by
  rcases took_of_lives h hm with ⟨bs, htook⟩
  have ht := tabled_of_took htook
  have hshows := htook.shows
  have hchain := chainRows_pairwise hshows.readable
  have hstate := stateRows_pairwise ht hshows
  have hlookup := lookupRows_pairwise ht hshows
  have hchunks := chunks_post ht hshows
  refine ⟨⟨_, by rw [writeSections, sst_eq_ok hchain, sst_eq_ok hstate, sst_eq_ok hlookup]; rfl, rfl, rfl, rfl⟩, hchain,
    hstate, hlookup, ?_, ?_, ?_, ?_, ?_, ?_, ?_⟩
  . intro fam n val
    exact mem_chainRows hshows.readable
  . intro p hp v
    rw [mem_stateRows_suffixed ht hshows hp, mem_history_iff ht hshows]
  . intro hash blob
    exact mem_stateRows_code ht hshows
  . intro key hkey val
    rw [mem_lookupRows_num ht hshows hkey, ← hshows.nums]
  . intro key hkey val
    rw [mem_lookupRows_set ht hshows hkey, ← hshows.sets]
  . rw [filter_lookupRows ht hshows, hchunks.2]
    exact perm_insertionSort _ _
  . intro row hrow
    rw [mem_lookupRows] at hrow
    rcases hrow with hrow | ⟨hrow, -⟩ | ⟨hrow, -⟩
    . exact .inl (isPostingKey_of_chunkRow (hchunks.1 row hrow))
    . exact .inr (.inl (numKey_of_mem ht hshows hrow))
    . exact .inr (.inr (setKey_of_mem ht hshows hrow))

def reopenedLife : List LifeEvent :=
  [.write (logBlock 1), .cut, .publish, .write (logBlock 2), .reopen 1000]

def zeroAccount : Bytes := accountPrefix (FixedBytes.fill 20 0)

theorem stateKey_zeroAccount : StateKey zeroAccount := ⟨⟨.account, ⟨List.replicate 20 0, rfl⟩, zeroHash, []⟩, rfl⟩

structure Filled (m : Memtable) : Prop where
  started : m.started = true
  post : m.post.length = 4
  sets : m.sets.length = 1
  code : m.codeBlob zeroHash.val = some [0]
  state : m.latestState zeroAccount 7 = some ⟨3, [1]⟩

instance (m : Memtable) : Decidable (Filled m) :=
  decidable_of_iff (m.started = true ∧ m.post.length = 4 ∧ m.sets.length = 1 ∧
    m.codeBlob zeroHash.val = some [0] ∧ m.latestState zeroAccount 7 = some ⟨3, [1]⟩)
    ⟨fun ⟨h1, h2, h3, h4, h5⟩ => ⟨h1, h2, h3, h4, h5⟩, fun h => ⟨h.started, h.post, h.sets, h.code, h.state⟩⟩

theorem exists_reopenedLife : ∃ s, Lives emptyBlockCrypto s ∧ Filled s.sys.view.mem ∧ s.sys.view.runs.length = 1 := by
  have hrun : (lives emptyBlockCrypto reopenedLife).map (fun s => (decide (Filled s.sys.view.mem), s.sys.view.runs.length)) = some (true, 1) := by
    decide +kernel
  rcases Option.map_eq_some_iff.mp hrun with ⟨s, hs, hobs⟩
  rw [Prod.mk.injEq, decide_eq_true_eq] at hobs
  exact ⟨s, lives_of_run hs, hobs.1, hobs.2⟩

theorem writeSections_ascending_reopened
    : ∃ s, Lives emptyBlockCrypto s ∧ Filled s.sys.view.mem ∧ WritesRows s.sys.view.mem := by
  rcases exists_reopenedLife with ⟨s, hs, hfilled, -⟩
  exact ⟨s, hs, hfilled, writeSections_ascending hs (by simp [View.windows])⟩

/-- The window takes block 0 behind the block at the last height, and its seal fails on their chain keys. -/
theorem seal_fails_behind_last_height
    : ∃ s e, Transition.run (lifeStep emptyBlockCrypto) Life.init
        [.write (emptyBlock 0xffffffffffffffff), .write (emptyBlock 0)] = some s ∧
        s.sys.view.mem.nextTx = 2 ∧ writeSections s.sys.view.mem = .error e ∧ ¬WritesRows s.sys.view.mem := by
  have hrun : (Transition.run (lifeStep emptyBlockCrypto) Life.init
      [.write (emptyBlock 0xffffffffffffffff), .write (emptyBlock 0)]).map
        (fun s => (s.sys.view.mem.nextTx, (writeSections s.sys.view.mem).toOption.isNone)) = some (2, true) := by
    decide +kernel
  rcases Option.map_eq_some_iff.mp hrun with ⟨s, hs, hobs⟩
  rw [Prod.mk.injEq] at hobs
  cases hsec : writeSections s.sys.view.mem with
  | ok sec =>
    rw [hsec] at hobs
    cases hobs.2
  | error e =>
    refine ⟨s, e, hs, hobs.1, hsec, fun hrows => ?_⟩
    rcases hrows.accepted with ⟨sec, hok, -⟩
    rw [hsec] at hok
    cases hok

theorem filter_height_isPrefix {height : Nat} (h : Consecutive height bs) (next : UInt64)
    : bs.filter (fun b => b.height < next) <+: bs := by
  induction bs generalizing height with
  | nil => exact prefix_rfl
  | cons b bs ih =>
    rw [filter_cons]
    split
    . exact prefix_cons_inj b |>.mpr (ih h.2)
    . next hge =>
      have hnil : bs.filter (fun b => b.height < next) = [] := by
        rw [filter_eq_nil_iff]
        intro b' hb' hlt
        rcases mem_iff_getElem?.mp hb' with ⟨i, hi⟩
        have habove := height_of_getElem? h.2 hi
        rw [decide_eq_true_eq, UInt64.lt_iff_toNat_lt] at hge hlt
        have hb := h.1
        omega
      rw [hnil]
      exact nil_prefix

/--
A store that is killed and opened again over its log, cut at any byte, comes back with a prefix of its blocks,
with all of them if the log is whole, and answers from them.
-/
theorem reopen_keeps_prefix {crypto : Crypto} {s : Life} (h : Lives crypto s) (n : Nat) (policy : FilterPolicy)
    : ∃ s', lifeStep crypto s (.reopen n) = some s' ∧ s'.sys.blocks <+: s.sys.blocks ∧
        (s.sys.view.mem.log.length ≤ n → s'.sys.blocks = s.sys.blocks) ∧
        (∀ fam no, chainRow policy s'.sys.view fam no (byHeight fam) = (table crypto 0 s'.sys.blocks).chainGet fam no) ∧
        ∀ p no, StateKey p → no ≠ 18446744073709551615 →
          latest policy s'.sys.view p no = ((table crypto 0 s'.sys.blocks).latest p no).map (·.val) := by
  rcases lifeInv_of_reachable h with ⟨l, fbs, mbs, hinv⟩
  rcases hinv.reopen n with ⟨v, l', mbs', hopen, hwhole, hinv'⟩
  rcases hinv.parts.stored.whole with ⟨height, hof⟩
  rw [← hinv.parts.blocks] at hof
  have hblocks := hinv'.parts.blocks
  refine ⟨⟨⟨v, s.sys.blocks.filter (fun b => b.height < v.mem.nextHeight)⟩, none⟩, by simp [lifeStep, hopen],
    filter_height_isPrefix hof.consecutive _, ?_, ?_, ?_⟩
  . intro hn
    rw [hwhole hn, filter_eq_self]
    intro b hb
    rcases mem_iff_getElem?.mp hb with ⟨i, hi⟩
    have hheight := height_of_getElem? hof.consecutive hi
    have hlen := (List.getElem?_eq_some_iff.mp hi).1
    have hnext := hof.nextHeight
    dsimp only at hheight hnext
    rw [decide_eq_true_eq, UInt64.lt_iff_toNat_lt]
    omega
  . intro fam no
    rw [hblocks]
    exact hinv'.parts.stored.chainRow_eq policy fam no
  . intro p no hp hno
    rw [hblocks]
    exact hinv'.parts.stored.latest_eq policy hp hno

theorem reopen_keeps_prefix_reopened
    : ∃ s s', Lives emptyBlockCrypto s ∧ Filled s.sys.view.mem ∧
        lifeStep emptyBlockCrypto s (.reopen 3) = some s' ∧ s'.sys.blocks <+: s.sys.blocks := by
  rcases exists_reopenedLife with ⟨s, hs, hstarted, -⟩
  rcases reopen_keeps_prefix hs 3 exactPolicy with ⟨s', hstep, hpre, -⟩
  exact ⟨s, s', hs, hstarted, hstep, hpre⟩

theorem exists_shows (h : Took crypto m bs) {r : Sealed.Run}
    (hr : sealWindow m = .ok r) : r.Shows (table crypto m.baseTx bs) := by
  rcases sealWindow_shows (tabled_of_took h) h.shows with ⟨r', hr', hshows, -⟩
  rw [hr, Except.ok.injEq] at hr'
  rw [hr']
  exact hshows

/--
The run that a window is sealed into and the window agree on a state key at every TxNum, but for the
largest one where the key has a row.
-/
theorem latest_sealed_iff {crypto : Crypto} {s : Life} (h : Lives crypto s) {m : Memtable} (hm : m ∈ s.sys.view.windows)
    {r : Sealed.Run} (hr : sealWindow m = .ok r) (policy : FilterPolicy) {p : Bytes} (hp : StateKey p) (n : UInt64)
    : r.latest policy .state p n = m.latestState p n ↔ n ≠ 18446744073709551615 ∨ m.history p = [] := by
  rcases took_of_lives h hm with ⟨bs, htook⟩
  by_cases hn : n = 18446744073709551615
  . subst hn
    have hall : m.latestState p 18446744073709551615 = (m.history p).getLast? :=
      History.latest_of_forall_le _ fun v _ => Nat.le_pred_of_lt v.txnum.toNat_lt
    rw [latest_last, hall, eq_comm, getLast?_eq_none_iff]
    exact ⟨.inr, fun hcase => hcase.resolve_left fun hne => hne rfl⟩
  . rw [latest_eq policy (exists_shows htook hr) htook.before hp hn, latestState_eq htook.shows htook.before]
    simp [hn]

theorem exists_sealed {s : Life} (h : Lives crypto s) : ∃ r, sealWindow s.sys.view.mem = .ok r := by
  rcases took_of_lives h (m := s.sys.view.mem) (by simp [View.windows]) with ⟨bs, htook⟩
  rcases sealWindow_shows (tabled_of_took htook) htook.shows with ⟨r, hr, -⟩
  exact ⟨r, hr⟩

theorem latest_sealed_iff_reopened
    : ∃ s r, Lives emptyBlockCrypto s ∧ Filled s.sys.view.mem ∧ sealWindow s.sys.view.mem = .ok r ∧
        r.latest exactPolicy .state zeroAccount 7 = some ⟨3, [1]⟩ := by
  rcases exists_reopenedLife with ⟨s, hs, hfilled, -⟩
  rcases exists_sealed hs with ⟨r, hr⟩
  refine ⟨s, r, hs, hfilled, hr, ?_⟩
  rw [← hfilled.state]
  exact (latest_sealed_iff hs (by simp [View.windows]) hr exactPolicy stateKey_zeroAccount 7).mpr (.inl (by decide))

theorem latest_at_last_txnum
    : ∃ s r v, Lives emptyBlockCrypto s ∧ sealWindow s.sys.view.mem = .ok r ∧
        s.sys.view.mem.latestState zeroAccount 18446744073709551615 = some v ∧
        r.latest exactPolicy .state zeroAccount 18446744073709551615 = none := by
  have hrun : (lives emptyBlockCrypto [.write (emptyBlock 1)]).map
        (fun s => s.sys.view.mem.latestState zeroAccount 18446744073709551615) = some (some ⟨0, [1]⟩) := by
    decide +kernel
  rcases Option.map_eq_some_iff.mp hrun with ⟨s, hs, hv⟩
  have hlives := lives_of_run hs
  rcases exists_sealed hlives with ⟨r, hr⟩
  exact ⟨s, r, _, hlives, hr, hv, latest_last exactPolicy r .state zeroAccount⟩

def Alike (key probe : Bytes) : Prop := probe.take (split probe) = key.take (split key)

theorem split_of_short {key : Bytes} (h : key.length < 34) : split key = key.length := by
  unfold split setSplit
  split
  . split
    . rw [if_neg (by omega)]
    . rw [if_neg (by omega)]
  . rw [if_neg (by omega), if_neg (by omega), if_neg (by omega), if_neg (by omega), if_neg (by omega)]

theorem bloomGated_iff {fam : Bytes} {c : Nat} (h : (fam, c) ∈ components) {pfx : Bytes} (hpfx : fam <+: pfx)
    : Run.bloomGated pfx = true ↔ c ≤ pfx.length := by
  rcases hpfx with ⟨x, rfl⟩
  unfold Run.bloomGated
  have hsplit : split (suffixed (fam ++ x) 0) =
      if (suffixed (fam ++ x) 0).length ≥ c + 8 then c else (suffixed (fam ++ x) 0).length := by
    unfold suffixed
    rw [append_assoc]
    exact split_component h _
  rw [decide_eq_true_eq, hsplit, length_suffixed]
  split <;> omega

theorem isPostingKey_of_bloomGated {pfx g : Bytes} (hg : IsGroup g) (hpre : pfx <+: g) (hgated : Run.bloomGated pfx = true)
    : isPostingKey pfx = true := by
  rcases exists_component hg with ⟨fam, c, hmem, hfam, -⟩
  have hfams : ∀ c ∈ components, c.1 ∈ postingFams ∧ c.1.length ≤ 5 := by decide
  rcases hfams _ hmem with ⟨hfams, hlen⟩
  dsimp only at hfams hlen
  rcases Nat.lt_or_ge pfx.length fam.length with hlt | hge
  . -- the padded prefix is too short for any component
    unfold Run.bloomGated at hgated
    rw [decide_eq_true_eq, split_of_short, length_suffixed] at hgated
    . omega
    . rw [length_suffixed]
      omega
  . exact isPostingKey_iff.mpr ⟨fam, hfams, prefix_of_prefix_length_le hfam hpre hge⟩

theorem isPrefix_of_suffixed {pfx g : Bytes} {n : UInt64} (hpre : pfx <+: suffixed g n)
    (hlen : pfx.length + 8 ≤ (suffixed g n).length) : pfx <+: g := by
  rw [length_suffixed] at hlen
  exact prefix_of_prefix_length_le hpre (prefix_append _ _) (by omega)

/--
The filter of a section never hides a row: what a probe asks it for is what the row it is after was put
in as. A prefix that does not reach the component of its family is not asked for.
-/
theorem filter_never_hides {crypto : Crypto} {s : Life} (h : Lives crypto s) {m : Memtable} (hm : m ∈ s.sys.view.windows)
    {r : Sealed.Run} (hr : sealWindow m = .ok r) (policy : FilterPolicy)
    : (∀ sec, ∀ row ∈ (r.sec sec).rows, ∀ probe, Alike row.1 probe → r.mayHave policy sec probe = true) ∧
      (∀ p, StateKey p → ∀ n, Alike (suffixed p n) (suffixed p 0)) ∧
      (∀ row ∈ (r.sec .state).rows, (∃ h : Hash, row.1 = codeKey h.val) ∨ ∃ p n, StateKey p ∧ row.1 = suffixed p n) ∧
      (∀ row ∈ (r.sec .lookup).rows, isPostingKey row.1 = true → ∀ pfx, pfx <+: row.1 → pfx.length + 8 ≤ row.1.length →
        Run.bloomGated pfx = true → Alike row.1 (suffixed pfx 0)) ∧
      (∀ row ∈ (r.sec .lookup).rows, ∀ pfx, prefixSet <+: pfx → pfx <+: row.1 → setSplit ≤ pfx.length →
        Alike row.1 (pfx.take setSplit)) ∧
      ∀ fam c, (fam, c) ∈ components → ∀ pfx, (fam <+: pfx ∨ pfx <+: fam) → pfx.length < c → Run.bloomGated pfx = false := by
  rcases took_of_lives h hm with ⟨bs, htook⟩
  have hshows := exists_shows htook hr
  refine ⟨?_, ?_, hshows.stateSection, ?_, ?_, ?_⟩
  . intro sec row hrow probe halike
    exact mayHave_of_mem policy hrow halike
  . intro p hp n
    unfold Alike
    rw [take_split_state hp, take_split_state hp]
  . intro row hrow hkey pfx hpre hlen hgated
    rcases (chunkRow_of_isPostingKey hshows.lookupSection hrow hkey).key with ⟨g, n, hg, hkey⟩
    rw [hkey] at hpre hlen ⊢
    have hpre := isPrefix_of_suffixed hpre hlen
    exact take_split_of_bloomGated (isPostingKey_of_bloomGated hg hpre hgated) hgated hg hpre n
  . intro row hrow pfx hpfx hpre hlen
    exact take_split_set hpfx hlen (setKey_of_isPrefix hshows hpfx hrow hpre) hpre
  . intro fam c hmem pfx hfam hlt
    have hlong : ∀ c ∈ components, c.1.length ≤ 5 := by decide
    rw [← Bool.not_eq_true]
    rcases hfam with hfam | hfam
    . rw [bloomGated_iff hmem hfam]
      omega
    . have hle := hfam.length_le
      have hlong : fam.length ≤ 5 := hlong _ hmem
      unfold Run.bloomGated
      rw [decide_eq_true_eq, split_of_short, length_suffixed]
      . omega
      . rw [length_suffixed]
        omega

theorem filter_never_hides_reopened
    : ∃ s r, Lives emptyBlockCrypto s ∧ Filled s.sys.view.mem ∧ sealWindow s.sys.view.mem = .ok r ∧
        ∀ row ∈ (r.sec .lookup).rows, r.mayHave exactPolicy .lookup row.1 = true := by
  rcases exists_reopenedLife with ⟨s, hs, hfilled, -⟩
  rcases exists_sealed hs with ⟨r, hr⟩
  refine ⟨s, r, hs, hfilled, hr, ?_⟩
  intro row hrow
  exact (filter_never_hides hs (by simp [View.windows]) hr exactPolicy).1 .lookup row hrow row.1 rfl

theorem Logged.laid {tx height : UInt64} (h : Logged crypto tx height bs m) : Memtable.Laid m :=
  (laid_fresh .window tx height).addAll h.fit (settled_reset rfl _ _) h.run

theorem Logged.follows_take {tx height : UInt64} (h : Logged crypto tx height bs m) (n : Nat)
    : (logBlocks (m.log.take n)).IsChain (LogBlock.Follows (m.log.take n)) := by
  rcases h.live.1.whole.logBlocks_take_isPrefix n with ⟨rest, hrest⟩
  have hchain := h.laid.chain
  rw [← hrest] at hchain
  refine hchain.left_of_append.imp_of_mem_imp fun g g' _ hg' hfollows => ⟨hfollows.1, hfollows.2.take ?_⟩
  have := stop_le_of_mem hg'
  rw [length_take] at this
  omega

def unheld (log : Bytes) (baseHeight : UInt64) : List LogBlock := Memtable.kept baseHeight (logBlocks log)

/--
The window follows the runs that end at `baseTx` and `baseHeight`: it waits there, or it holds the blocks of
the log that no run holds, the first written there and each of the others where the one before it ends.
-/
structure Continues (log : Bytes) (baseTx baseHeight : UInt64) (w : Memtable) : Prop where
  base : w.baseTx = baseTx ∧ w.baseHeight = baseHeight
  rows : (Pend.commit ((unheld log baseHeight).flatMap LogBlock.muts)).run Rows.empty = .ok () w.toRows
  idle : w.started = false → unheld log baseHeight = [] ∧ w.nextTx = baseTx ∧ w.nextHeight = baseHeight
  first : w.started = true → ∃ g, (unheld log baseHeight).head? = some g ∧ g.height = baseHeight ∧ g.firstTx log = some baseTx
  next : (unheld log baseHeight).IsChain (fun g g' => g'.height = g.height + 1 ∧ g'.firstTx log = some g.nextTx)
  last : w.started = true → ∃ g, (unheld log baseHeight).getLast? = some g ∧ w.nextHeight = g.height + 1 ∧ w.nextTx = g.nextTx

theorem landAll_baseTx {bl : List LogBlock} {m m' : Memtable} (h : (bl.forM Memtable.land).run m = .ok () m')
    : m'.baseTx = m.baseTx ∧ (m'.started = false → m.started = false ∧ m'.nextTx = m.nextTx) := by
  induction bl generalizing m with
  | nil =>
    cases h
    exact ⟨rfl, fun hidle => ⟨hidle, rfl⟩⟩
  | cons b bl ih =>
    rw [EStateM.run_forM_cons, EStateM.run_bind_eq_ok] at h
    rcases h with ⟨_, m1, hb, hbl⟩
    rcases ih hbl with ⟨hbase, hidle⟩
    rcases land_eq_ok hb with ⟨-, rfl⟩ | ⟨-, r, -, rfl⟩
    . exact ⟨hbase, hidle⟩
    . refine ⟨hbase, fun hs => ?_⟩
      cases (hidle hs).1

theorem recover_baseTx {baseTx baseHeight : UInt64} {m w : Memtable} (h : (Memtable.recover baseTx baseHeight).run m = .ok () w)
    : w.baseTx = baseTx ∧ (w.started = false → w.nextTx = baseTx) := by
  unfold Memtable.recover at h
  rw [EStateM.run_bind_of_ok (EStateM.run_modify _ _), EStateM.run_bind_of_ok (EStateM.run_get _), Memtable.replay_eq_land,
    bind_assoc, EStateM.run_bind_eq_ok] at h
  rcases h with ⟨_, m1, hland, h⟩
  rw [EStateM.run_bind_of_ok (EStateM.run_pure _ _), EStateM.run_bind_of_ok (EStateM.run_modify _ _), EStateM.run_modify] at h
  rcases landAll_baseTx hland with ⟨hbase, hidle⟩
  cases h
  split
  . exact ⟨hbase, fun hs => (hidle hs).2⟩
  . exact ⟨hbase, fun hs => (hidle hs).2⟩

/--
A log that was written behind other runs, perhaps torn, is replayed without a hole exactly if the first
block that is left of it was written where the runs end.
-/
theorem recover_continues_iff {crypto : Crypto} {tx height : UInt64} {bs : List BlockWrite} {m : Memtable}
    (h : Logged crypto tx height bs m) (path : LogName) (n : Nat) (baseTx baseHeight : UInt64) {w : Memtable}
    (hw : (Memtable.recover baseTx baseHeight).run (Memtable.empty path false (m.log.take n)) = .ok () w)
    : Continues (m.log.take n) baseTx baseHeight w ↔
        ∀ g, (unheld (m.log.take n) baseHeight).head? = some g →
          g.height = baseHeight ∧ g.firstTx (m.log.take n) = some baseTx := by
  have hlive := h.live.1
  have hasc := hlive.ascending.of_isPrefix (hlive.whole.logBlocks_take_isPrefix n)
  have hfollows := h.follows_take n
  generalize m.log.take n = log at hw hasc hfollows
  rcases recover_baseTx hw with ⟨hbase, hidle⟩
  rcases recover_eq_ok (m := Memtable.empty path false log) rfl hasc hw with ⟨m1, hland, -, rfl⟩
  constructor
  . intro hcont g hg
    cases hs : m1.started with
    | false =>
      rw [(hcont.idle hs).1] at hg
      cases hg
    | true =>
      rcases hcont.first hs with ⟨g', hg', hat⟩
      cases hg.symm.trans hg'
      exact hat
  . intro hfirst
    have hnext := hfollows.suffix (kept_isSuffix hasc.sorted baseHeight)
    refine ⟨⟨hbase, ?_⟩, hland.rows, ?_, ?_, hnext.imp fun g g' hg => ⟨hg.1, hg.2.firstTx⟩, ?_⟩
    . cases hs : m1.started with
      | false => exact (hland.idle hs).1
      | true =>
        rcases Option.map_eq_some_iff.mp (hland.started hs).1 with ⟨g, hg, hheight⟩
        exact hheight.symm.trans (hfirst g hg).1
    . intro hs
      rcases hland.idle hs with ⟨-, hfloor, hnone⟩
      exact ⟨hnone, hidle hs, hfloor⟩
    . intro hs
      rcases Option.map_eq_some_iff.mp (hland.started hs).1 with ⟨g, hg, -⟩
      exact ⟨g, hg, hfirst g hg⟩
    . intro hs
      rcases Option.map_eq_some_iff.mp (hland.started hs).2 with ⟨g, hg, hlast⟩
      rw [Prod.mk.injEq] at hlast
      exact ⟨g, hg, hlast.1.symm, hlast.2.symm⟩

def ended : EStateM.Result String Memtable Unit → Option Memtable
  | .ok _ m => some m
  | .error _ _ => none

theorem eq_ok_of_ended {r : EStateM.Result String Memtable Unit} (h : ended r = some m) : r = .ok () m := by
  cases r with
  | ok a m' =>
    cases h
    rfl
  | error e m' => cases h

theorem exists_leftBehind
    : ∃ m w w', Logged emptyBlockCrypto 7 3 [emptyBlock 3, emptyBlock 4] m ∧
        (Memtable.recover 8 4).run (Memtable.empty .window false (m.log.take 1000)) = .ok () w ∧
        (Memtable.recover 3 2).run (Memtable.empty .window false (m.log.take 1000)) = .ok () w' ∧
        w'.started = true ∧ w'.baseHeight = 3 ∧
        ((unheld (m.log.take 1000) 4).head?).map (fun g => (g.height, g.firstTx (m.log.take 1000))) = some (4, some 8) := by
  have hrun : ((ended ((Memtable.addAll emptyBlockCrypto goodLog [emptyBlock 3, emptyBlock 4]).run
      (Memtable.fresh .window 7 3))).bind fun m =>
        (ended ((Memtable.recover 8 4).run (Memtable.empty .window false (m.log.take 1000)))).bind fun w =>
          (ended ((Memtable.recover 3 2).run (Memtable.empty .window false (m.log.take 1000)))).map fun w' => (m, w, w')).map
            (fun (m, _, w') => (w'.started, w'.baseHeight,
              ((unheld (m.log.take 1000) 4).head?).map (fun g => (g.height, g.firstTx (m.log.take 1000))))) =
      some (true, 3, some (4, some 8)) := by
    decide +kernel
  simp only [Option.map_eq_some_iff, Option.bind_eq_some_iff] at hrun
  rcases hrun with ⟨_, ⟨m, hm, w, hw, w', hw', rfl⟩, hobs⟩
  simp only [Prod.mk.injEq] at hobs
  have hfit : ∀ b ∈ [emptyBlock 3, emptyBlock 4], b.Replayable := by
    simp only [forall_mem_cons, not_mem_nil, false_imp_iff, implies_true, and_true]
    exact ⟨emptyBlock_replayable (by decide), emptyBlock_replayable (by decide)⟩
  exact ⟨m, w, w', ⟨hfit, eq_ok_of_ended hm⟩, eq_ok_of_ended hw, eq_ok_of_ended hw', hobs.1, hobs.2.1, hobs.2.2⟩

theorem recover_continues_iff_leftBehind
    : ∃ m w, Logged emptyBlockCrypto 7 3 [emptyBlock 3, emptyBlock 4] m ∧
        (Memtable.recover 8 4).run (Memtable.empty .window false (m.log.take 1000)) = .ok () w ∧
        Continues (m.log.take 1000) 8 4 w := by
  rcases exists_leftBehind with ⟨m, w, -, hlogged, hw, -, -, -, hkept⟩
  refine ⟨m, w, hlogged, hw, (recover_continues_iff hlogged .window 1000 8 4 hw).mpr ?_⟩
  intro g hg
  rw [hg, Option.map_some, Option.some.injEq, Prod.mk.injEq] at hkept
  exact hkept

theorem recover_leaves_hole
    : ∃ m w, Logged emptyBlockCrypto 7 3 [emptyBlock 3, emptyBlock 4] m ∧
        (Memtable.recover 3 2).run (Memtable.empty .window false (m.log.take 1000)) = .ok () w ∧ w.started = true ∧
        w.baseHeight = 3 ∧ ¬ Continues (m.log.take 1000) 3 2 w := by
  rcases exists_leftBehind with ⟨m, -, w, hlogged, -, hw, hstarted, hheight, -⟩
  refine ⟨m, w, hlogged, hw, hstarted, hheight, ?_⟩
  intro hcont
  have hbase := hcont.base.2
  rw [hheight] at hbase
  cases hbase

end EpochDB.Store.Read
