import EpochDB.Store.Read.Join
import EpochDB.Store.Read.Merge

/-!
The groups a topic value stood in (`TopicGroups` of `rpc/tokens.go`), from the set rows.
-/

namespace EpochDB.Rpc

open Store

def bytesToAddress (b : Bytes) : Addr :=
  ⟨List.replicate (20 - b.length) 0 ++ b.drop (b.length - 20), by simp; omega⟩

structure TopicGroup where
  position : UInt8
  emitter : Addr
  deriving DecidableEq, Repr

section

variable (policy : Sealed.FilterPolicy) (v : Read.View)

def setEmitters (topic0 : Hash) (pos : UInt8) (value : Hash) : List Addr :=
  (Read.setScan policy v (setPrefix topic0 pos value)).map
    (fun k => bytesToAddress (k.drop (setPrefix topic0 pos value).length))

def topicGroups (value topic0 : Hash) : List TopicGroup :=
  [1, 2, 3].flatMap (fun pos => (setEmitters policy v topic0 pos value).map (⟨pos, ·⟩))

end

def Emitted (bs : List BlockWrite) (value topic0 : Hash) (g : TopicGroup) : Prop :=
  ∃ p ∈ numbered 0 bs, ∃ l ∈ p.2.logs, l.emitter = g.emitter ∧ l.topics[0]? = some topic0 ∧
    l.topics[g.position.toNat]? = some value ∧ 1 ≤ g.position.toNat ∧ g.position.toNat ≤ 3

theorem length_setPrefix (topic0 : Hash) (pos : UInt8) (value : Hash) : (setPrefix topic0 pos value).length = 72 := by
  simp [setPrefix, length_join, prefixSet, topic0.property, value.property]

theorem bytesToAddress_val (a : Addr) : bytesToAddress a.val = a := by
  apply Subtype.ext
  simp [bytesToAddress, a.property]

theorem setPrefix_inj {topic0 topic0' value value' : Hash} {pos pos' : UInt8} (h : setPrefix topic0 pos value = setPrefix topic0' pos' value')
    : topic0 = topic0' ∧ pos = pos' ∧ value = value' := by
  simp only [setPrefix, join, List.append_assoc, List.append_cancel_left_eq] at h
  rcases List.append_inj h (topic0.property.trans topic0'.property.symm) with ⟨htopic0, h⟩
  rcases List.append_inj h rfl with ⟨-, h⟩
  rcases List.append_inj h rfl with ⟨hpos, h⟩
  rcases List.append_inj h rfl with ⟨-, h⟩
  rcases List.append_inj h (value.property.trans value'.property.symm) with ⟨hvalue, -⟩
  exact ⟨Subtype.ext htopic0, List.singleton_inj.mp hpos, Subtype.ext hvalue⟩

theorem isPrefix_setKey_iff {topic0 topic0' value value' : Hash} {pos pos' : UInt8} {emitter : Addr}
    : setPrefix topic0 pos value <+: setKey topic0' pos' value' emitter ↔ topic0' = topic0 ∧ pos' = pos ∧ value' = value := by
  unfold setKey
  constructor
  . rintro ⟨rest, hrest⟩
    rcases List.append_inj hrest ((length_setPrefix ..).trans (length_setPrefix ..).symm) with ⟨hpfx, -⟩
    rcases setPrefix_inj hpfx with ⟨rfl, rfl, rfl⟩
    exact ⟨rfl, rfl, rfl⟩
  . rintro ⟨rfl, rfl, rfl⟩
    exact List.prefix_append _ _

theorem mem_logSets {emitter : Addr} {topics : List Hash} {key : Bytes}
    : key ∈ Memtable.logSets emitter topics ↔ ∃ topic0 value i, i < 3 ∧ topics[0]? = some topic0 ∧ topics[i + 1]? = some value ∧
        key = setKey topic0 (UInt8.ofNat (i + 1)) value emitter := by
  cases topics with
  | nil => simp [Memtable.logSets]
  | cons topic0 topics =>
    simp only [Memtable.logSets, List.mem_map, Prod.exists, List.mem_zipIdx_iff_getElem?, List.getElem?_cons_zero,
      List.getElem?_cons_succ, Option.some.injEq]
    constructor
    . rintro ⟨value, i, hi, rfl⟩
      rw [List.getElem?_take] at hi
      split at hi
      . next hlt => exact ⟨topic0, value, i, hlt, rfl, hi, rfl⟩
      . cases hi
    . rintro ⟨_, value, i, hlt, rfl, hi, rfl⟩
      refine ⟨value, i, ?_, rfl⟩
      rw [List.getElem?_take, if_pos hlt]
      exact hi

section Exact

variable (policy : Sealed.FilterPolicy) {crypto : Crypto} {v : Read.View} {bs : List BlockWrite}
  (hcont : ∀ b ∈ bs, b.Rebuilds crypto)
  (hscan : ∀ {pfx}, prefixSet <+: pfx → ∀ key, key ∈ Read.setScan policy v pfx ↔ key ∈ (table crypto 0 bs).sets ∧ pfx <+: key)
  (topic0 value : Hash)

include hcont hscan

theorem mem_setScan_iff (pos : UInt8) {key : Bytes}
    : key ∈ Read.setScan policy v (setPrefix topic0 pos value) ↔
        ∃ emitter, key = setKey topic0 pos value emitter ∧ Emitted bs value topic0 ⟨pos, emitter⟩ := by
  have hset : prefixSet <+: setPrefix topic0 pos value := by
    simp only [setPrefix, join, List.append_assoc]
    exact List.prefix_append _ _
  rw [hscan hset, sets_table hcont, List.mem_flatMap]
  constructor
  . rintro ⟨⟨p, hp, hkey⟩, hpre⟩
    rcases List.mem_flatMap.mp hkey with ⟨log, hlog, hkey⟩
    rcases mem_logSets.mp hkey with ⟨topic0', value', i, hi, hzero, hvalue, rfl⟩
    rcases isPrefix_setKey_iff.mp hpre with ⟨rfl, rfl, rfl⟩
    have hpos : (UInt8.ofNat (i + 1)).toNat = i + 1 := UInt8.toNat_ofNat_of_lt' (show i + 1 < 2 ^ 8 by omega)
    refine ⟨log.emitter, rfl, p, hp, log, hlog, rfl, hzero, ?_, ?_⟩
    . dsimp only
      rw [hpos]
      exact hvalue
    . dsimp only
      omega
  . rintro ⟨emitter, rfl, p, hp, log, hlog, rfl, hzero, hvalue, hge, hle⟩
    dsimp only at hvalue hge hle
    refine ⟨⟨p, hp, List.mem_flatMap.mpr ⟨log, hlog, mem_logSets.mpr ⟨topic0, value, pos.toNat - 1, by omega, hzero, ?_, ?_⟩⟩⟩, ?_⟩
    . rwa [Nat.sub_add_cancel hge]
    . rw [Nat.sub_add_cancel hge, UInt8.ofNat_toNat]
    . exact isPrefix_setKey_iff.mpr ⟨rfl, rfl, rfl⟩

theorem mem_setEmitters (pos : UInt8) {emitter : Addr}
    : emitter ∈ setEmitters policy v topic0 pos value ↔ Emitted bs value topic0 ⟨pos, emitter⟩ := by
  have hdrop : ∀ emitter : Addr, bytesToAddress ((setKey topic0 pos value emitter).drop (setPrefix topic0 pos value).length) = emitter := by
    intro emitter
    rw [setKey, List.drop_left, bytesToAddress_val]
  unfold setEmitters
  rw [List.mem_map]
  constructor
  . rintro ⟨key, hkey, rfl⟩
    rcases (mem_setScan_iff policy hcont hscan topic0 value pos).mp hkey with ⟨emitter, rfl, hem⟩
    rw [hdrop]
    exact hem
  . intro hem
    exact ⟨_, (mem_setScan_iff policy hcont hscan topic0 value pos).mpr ⟨emitter, rfl, hem⟩, hdrop emitter⟩

theorem setEmitters_nodup (pos : UInt8) : (setEmitters policy v topic0 pos value).Nodup := by
  unfold setEmitters
  apply List.Nodup.map_on _ (Read.visited_nodup _ _)
  intro key hkey key' hkey' heq
  rcases (mem_setScan_iff policy hcont hscan topic0 value pos).mp hkey with ⟨emitter, rfl, -⟩
  rcases (mem_setScan_iff policy hcont hscan topic0 value pos).mp hkey' with ⟨emitter', rfl, -⟩
  rw [setKey, setKey, List.drop_left, List.drop_left, bytesToAddress_val, bytesToAddress_val] at heq
  rw [heq]

theorem topicGroups_of_scan
    : (topicGroups policy v value topic0).Nodup ∧
        ∀ g, g ∈ topicGroups policy v value topic0 ↔ Emitted bs value topic0 g := by
  have hmem : ∀ pos g, g ∈ (setEmitters policy v topic0 pos value).map (TopicGroup.mk pos) ↔
      g.position = pos ∧ Emitted bs value topic0 g := by
    rintro pos ⟨pos', emitter⟩
    rw [List.mem_map]
    constructor
    . rintro ⟨emitter', hem, heq⟩
      cases heq
      exact ⟨rfl, (mem_setEmitters policy hcont hscan topic0 value pos).mp hem⟩
    . rintro ⟨rfl, hem⟩
      exact ⟨emitter, (mem_setEmitters policy hcont hscan topic0 value _).mpr hem, rfl⟩
  constructor
  . unfold topicGroups
    rw [List.nodup_flatMap]
    constructor
    . intro pos _
      apply (setEmitters_nodup policy hcont hscan topic0 value pos).map
      intro emitter emitter' heq
      exact congrArg TopicGroup.emitter heq
    . have hne : ([1, 2, 3] : List UInt8).Pairwise (fun pos pos' => pos ≠ pos') := by decide
      apply hne.imp
      intro pos pos' hpos g hg hg'
      exact hpos (((hmem pos g).mp hg).1.symm.trans ((hmem pos' g).mp hg').1)
  . intro g
    unfold topicGroups
    rw [List.mem_flatMap]
    constructor
    . rintro ⟨pos, -, hg⟩
      exact ((hmem pos g).mp hg).2
    . intro hem
      refine ⟨g.position, ?_, (hmem _ g).mpr ⟨rfl, hem⟩⟩
      rcases hem with ⟨p, -, log, -, -, -, -, hge, hle⟩
      have hcase : ∀ pos : UInt8, 1 ≤ pos.toNat → pos.toNat ≤ 3 → pos ∈ ([1, 2, 3] : List UInt8) := by decide +kernel
      exact hcase g.position hge hle

end Exact

/--
In every life of a store the groups are those of the logs it holds, each once, although the set rows are
in every run that saw them and the logs of windows may be gone. They are when it is opened over runs that
hold the first blocks of its log, whose set rows the blocks behind them do not write again.
-/
theorem topicGroups_exact (policy : Sealed.FilterPolicy) {crypto : Crypto} {s : Read.Life}
    (h : Transition.Reachable (Read.lifeStep crypto) Read.LifeRoom Read.Life.init s) (value topic0 : Hash)
    : ((topicGroups policy s.sys.view value topic0).Nodup ∧
        ∀ g, g ∈ topicGroups policy s.sys.view value topic0 ↔ Emitted s.sys.blocks value topic0 g) ∧
      ∀ k n v, s.join k n = some v → (topicGroups policy v value topic0).Nodup ∧
        ∀ g, g ∈ topicGroups policy v value topic0 ↔
          Emitted (s.sys.blocks.filter (fun b => b.height < v.mem.nextHeight)) value topic0 g := by
  rcases Read.lifeInv_of_reachable h with ⟨l, fbs, mbs, hinv⟩
  constructor
  . exact topicGroups_of_scan policy hinv.parts.container (fun hpfx _ => Read.mem_setScan policy hinv.parts hpfx) topic0 value
  . intro k n v hv
    rcases hinv.join hv with ⟨hcont, hscan⟩
    exact topicGroups_of_scan policy (fun b hb => hcont b (List.mem_of_mem_filter hb)) (hscan policy) topic0 value

/--
Blocks 1 and 2 write the same set row. The log holds both, and the run they are opened over holds the first,
the only one whose part of the log has the row.
-/
theorem topicGroups_exact_joined
    : ∃ s v, Transition.Reachable (Read.lifeStep Memtable.emptyBlockCrypto) Read.LifeRoom Read.Life.init s ∧
        s.join 800 2000 = some v ∧ v.mem.baseHeight = 2 ∧ v.mem.nextHeight = 3 ∧ v.mem.sets = [] ∧
        (topicGroups exactPolicy s.sys.view Memtable.zeroHash Memtable.zeroHash).Nodup ∧
        ⟨1, Memtable.emitterOne⟩ ∈ topicGroups exactPolicy v Memtable.zeroHash Memtable.zeroHash := by
  have hrun : ((Read.lives Memtable.emptyBlockCrypto [.write (Memtable.logBlock 1), .write (Memtable.logBlock 2)]).bind
      fun s => (s.join 800 2000).map fun v => (s, v)).map
        (fun (s, v) => (s.sys.blocks, v.mem.baseHeight, v.mem.nextHeight, v.mem.sets)) =
      some ([Memtable.logBlock 1, Memtable.logBlock 2], 2, 3, []) := by
    decide +kernel
  simp only [Option.map_eq_some_iff, Option.bind_eq_some_iff] at hrun
  rcases hrun with ⟨_, ⟨s, hs, v, hv, rfl⟩, hobs⟩
  simp only [Prod.mk.injEq] at hobs
  rcases hobs with ⟨hblocks, hbase, hnext, hsets⟩
  have hreach := Read.lives_of_run hs
  have hexact := topicGroups_exact exactPolicy hreach Memtable.zeroHash Memtable.zeroHash
  refine ⟨s, v, hreach, hv, hbase, hnext, hsets, hexact.1.1, ((hexact.2 800 2000 v hv).2 _).mpr ?_⟩
  have hkept : [Memtable.logBlock 1, Memtable.logBlock 2].filter (fun b => b.height < 3) =
      [Memtable.logBlock 1, Memtable.logBlock 2] := by decide +kernel
  have hfirst : (numbered 0 [Memtable.logBlock 1, Memtable.logBlock 2])[0]?.map (·.2.logs) =
      some [⟨Memtable.emitterOne, [Memtable.zeroHash, Memtable.zeroHash]⟩] := by decide +kernel
  rw [hblocks, hnext, hkept]
  rcases Option.map_eq_some_iff.mp hfirst with ⟨p, hp, hlogs⟩
  refine ⟨p, List.mem_of_getElem? hp, _, by rw [hlogs]; exact List.mem_singleton_self _, rfl, rfl, rfl, by decide, by decide⟩

end EpochDB.Rpc
