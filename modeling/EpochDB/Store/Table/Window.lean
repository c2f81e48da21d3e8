import EpochDB.Store.Mem.Live
import EpochDB.Store.Table.Impl

/-!
A window answers every read as the naive model of the blocks it took does.
-/

namespace EpochDB.Store

open List EStateM

namespace Table

theorem chainGet_append (t t' : Table) (fam : Fam) (no : UInt64)
    : (t ++ t').chainGet fam no = (t'.chainGet fam no).or (t.chainGet fam no) := by
  simp [chainGet, getLast?_append]

theorem lookupNum_append (t t' : Table) (key : Bytes)
    : (t ++ t').lookupNum key = (t'.lookupNum key).or (t.lookupNum key) := by
  simp [lookupNum, getLast?_append]

theorem codes_append (t t' : Table) (hash : Bytes) : (t ++ t').codes hash = t.codes hash ++ t'.codes hash := by
  simp [codes]

theorem history_append (t t' : Table) (key : Bytes) : (t ++ t').history key = t.history key ++ t'.history key := by
  simp [history]

theorem posts_append (t t' : Table) : (t ++ t').posts = t.posts ++ t'.posts := by
  simp [posts]

theorem sets_append (t t' : Table) : (t ++ t').sets = t.sets ++ t'.sets := by
  simp [sets]

section Concat

variable {t : Table} {row : Row}

theorem chainGet_concat {fam : Fam} {no : UInt64} (h : row.chainVal fam no = none)
    : (t ++ [row]).chainGet fam no = t.chainGet fam no := by
  rw [chainGet_append]
  simp [chainGet, h]

theorem lookupNum_concat {key : Bytes} (h : row.numVal key = none) : (t ++ [row]).lookupNum key = t.lookupNum key := by
  rw [lookupNum_append]
  simp [lookupNum, h]

theorem codes_concat {hash : Bytes} (h : row.codeVal hash = none) : (t ++ [row]).codes hash = t.codes hash := by
  rw [codes_append]
  simp [codes, h]

theorem history_concat {key : Bytes} (h : row.stateVal key = none) : (t ++ [row]).history key = t.history key := by
  rw [history_append]
  simp [history, h]

theorem posts_concat (h : row.posting = none) : (t ++ [row]).posts = t.posts := by
  rw [posts_append]
  simp [posts, h]

theorem sets_concat (h : row.setKey = none) : (t ++ [row]).sets = t.sets := by
  rw [sets_append]
  simp [sets, h]

end Concat

end Table

namespace ChainIndex

def row (c : ChainIndex) (i : Nat) : Option (Nat × UInt32) :=
  match c.off[i]?, c.n[i]? with
  | some off, some n => if off = 0 then none else some (off, n)
  | _, _ => none

variable {c : ChainIndex} {off : Nat} {log : Bytes}

theorem toNat_next (hwrap : c.base.toNat + c.off.length < 2 ^ 64) : c.next.toNat = c.base.toNat + c.off.length := by
  have hlen : c.off.length < UInt64.size := by
    simp only [UInt64.size]
    omega
  rw [next, UInt64.toNat_add, UInt64.toNat_ofNat_of_lt' hlen]
  exact Nat.mod_eq_of_lt hwrap

theorem find_eq (hwrap : c.base.toNat + c.off.length < 2 ^ 64) (num : UInt64)
    : c.find num =
        if c.set ∧ c.base.toNat ≤ num.toNat ∧ num.toNat < c.base.toNat + c.off.length then
          c.row (num.toNat - c.base.toNat)
        else
          none := by
  unfold find
  simp only [Bool.or_eq_true, decide_eq_true_eq, ge_iff_le, UInt64.le_iff_toNat_le,
    UInt64.lt_iff_toNat_lt, toNat_next hwrap, Bool.not_eq_true']
  by_cases hin : c.set = true ∧ c.base.toNat ≤ num.toNat ∧ num.toNat < c.base.toNat + c.off.length
  . rcases hin with ⟨hset, hlo, hhi⟩
    rw [if_neg (by simp only [hset, Bool.true_eq_false, false_or]; omega), if_pos ⟨hset, hlo, hhi⟩]
    rw [UInt64.toNat_sub_of_le _ _ (UInt64.le_iff_toNat_le.mpr hlo)]
    rfl
  . rw [if_neg hin, if_pos]
    by_cases hset : c.set = true
    . simp only [hset, true_and] at hin
      simp only [hset, Bool.true_eq_false, false_or]
      omega
    . simp [hset]

theorem row_push (c : ChainIndex) (hlen : c.n.length = c.off.length) (hoff : off ≠ 0) (n : UInt32) (i : Nat)
    : (c.push off n).row i = if i = c.off.length then some (off, n) else c.row i := by
  unfold row push
  dsimp only
  rcases Nat.lt_trichotomy i c.off.length with hi | rfl | hi
  . rw [getElem?_append_left hi, getElem?_append_left (by omega), if_neg (by omega)]
  . rw [← hlen]
    simp [hlen, hoff]
  . rw [if_neg (by omega)]
    rw [getElem?_eq_none (by simp; omega), getElem?_eq_none (by simp; omega)]
    rw [getElem?_eq_none (by omega), getElem?_eq_none (by omega)]

structure Readable (c : ChainIndex) (log : Bytes) : Prop where
  length_n : c.n.length = c.off.length
  wrap : c.base.toNat + c.off.length < 2 ^ 64
  bound : ∀ num off n, c.find num = some (off, n) → off + n.toNat ≤ log.length

theorem readable_empty (log : Bytes) : Readable empty log where
  length_n := rfl
  wrap := by decide
  bound num off n h := by
    simp [find, empty] at h

theorem Readable.mono {log log' : Bytes} (h : Readable c log) (hlog : log <+: log')
    : Readable c log' where
  length_n := h.length_n
  wrap := h.wrap
  bound num off n hfind := Nat.le_trans (h.bound num off n hfind) hlog.length_le

theorem Readable.start (h : Readable c log) (num : UInt64)
    : Readable (c.start num) log ∧ (c.start num).set = true ∧ ∀ k, (c.start num).find k = c.find k := by
  cases hset : c.set with
  | true =>
    rw [start_of_set hset]
    exact ⟨h, hset, fun _ => rfl⟩
  | false =>
    have hoff := c.off_nil hset
    have hwrap : (c.start num).base.toNat + (c.start num).off.length < 2 ^ 64 := by
      simp [ChainIndex.start, hset, hoff, num.toNat_lt]
    have hfind : ∀ k, (c.start num).find k = none := by
      intro k
      rw [find_eq hwrap, if_neg]
      simp [ChainIndex.start, hset, hoff]
    refine ⟨⟨?_, hwrap, ?_⟩, ?_, ?_⟩
    . simp [ChainIndex.start, hset, h.length_n]
    . intro k off n hk
      rw [hfind k] at hk
      contradiction
    . simp [ChainIndex.start, hset]
    . intro k
      rw [hfind k, find_eq h.wrap, if_neg (by simp [hset])]

theorem Readable.find_push (h : Readable c log) (hset : c.set = true)
    {num : UInt64} (hnext : c.next = num) (hnum : num.toNat + 1 < 2 ^ 64) (hoff : off ≠ 0)
    (n : UInt32) (k : UInt64)
    : (c.push off n).find k = if k = num then some (off, n) else c.find k := by
  have hto : num.toNat = c.base.toNat + c.off.length := by
    rw [← hnext]
    exact toNat_next h.wrap
  have hwrap : (c.push off n).base.toNat + (c.push off n).off.length < 2 ^ 64 := by
    simp only [ChainIndex.push, length_append, length_singleton]
    omega
  have hbase : (c.push off n).base = c.base := rfl
  have hlen : (c.push off n).off.length = c.off.length + 1 := by simp [ChainIndex.push]
  have hpush : (c.push off n).set = true := rfl
  rw [find_eq hwrap, find_eq h.wrap, row_push c h.length_n hoff, hbase, hlen]
  by_cases hk : k = num
  . subst hk
    rw [if_pos rfl, if_pos ⟨hpush, by omega, by omega⟩, if_pos (by omega)]
  . have hne : k.toNat ≠ num.toNat := fun h => hk (UInt64.toNat_inj.mp h)
    rw [if_neg hk]
    by_cases hin : c.base.toNat ≤ k.toNat ∧ k.toNat < c.base.toNat + c.off.length
    . rw [if_pos ⟨hpush, by omega, by omega⟩, if_neg (by omega), if_pos ⟨hset, hin⟩]
    . rw [if_neg (by omega), if_neg (fun h => hin h.2)]

theorem Readable.push (h : Readable c log) (hset : c.set = true)
    {num : UInt64} (hnext : c.next = num) (hnum : num.toNat + 1 < 2 ^ 64) (hoff : off ≠ 0)
    {n : UInt32} (hbound : off + n.toNat ≤ log.length) : Readable (c.push off n) log where
  length_n := by simp [ChainIndex.push, h.length_n]
  wrap := by
    have hto := toNat_next h.wrap
    rw [hnext] at hto
    simp only [ChainIndex.push, length_append, length_singleton]
    omega
  bound k off' n' hk := by
    rw [h.find_push hset hnext hnum hoff] at hk
    split at hk
    . cases hk
      exact hbound
    . exact h.bound k off' n' hk

def holes (c : ChainIndex) (k : Nat) : ChainIndex :=
  { c with set := true, off := c.off ++ List.replicate k 0, n := c.n ++ List.replicate k 0, off_nil := by simp }

theorem row_holes (hlen : c.n.length = c.off.length) (k i : Nat) : (c.holes k).row i = c.row i := by
  unfold row holes
  dsimp only
  rcases Nat.lt_or_ge i c.off.length with hi | hi
  . rw [getElem?_append_left hi, getElem?_append_left (by omega)]
  . rw [getElem?_append_right hi, getElem?_append_right (by omega), getElem?_eq_none hi]
    rcases Nat.lt_or_ge (i - c.off.length) k with hk | hk
    . rw [getElem?_replicate_of_lt hk, hlen, getElem?_replicate_of_lt hk]
      rfl
    . rw [getElem?_eq_none (by simpa using hk)]

theorem Readable.holes (h : c.Readable log) (hset : c.set = true) {k : Nat}
    (hwrap : c.base.toNat + (c.off.length + k) < 2 ^ 64)
    : (c.holes k).Readable log ∧ ∀ no, (c.holes k).find no = c.find no := by
  have hwrap' : (c.holes k).base.toNat + (c.holes k).off.length < 2 ^ 64 := by
    simpa [ChainIndex.holes] using hwrap
  have hfind : ∀ no, (c.holes k).find no = c.find no := by
    intro no
    rw [find_eq h.wrap, find_eq hwrap', row_holes h.length_n]
    have hbase : (c.holes k).base = c.base := rfl
    have hlen : (c.holes k).off.length = c.off.length + k := by simp [ChainIndex.holes]
    have hset' : (c.holes k).set = true := rfl
    rw [hbase, hlen]
    simp only [hset, hset', true_and]
    by_cases hin : c.base.toNat ≤ no.toNat ∧ no.toNat < c.base.toNat + c.off.length
    . rw [if_pos hin, if_pos (by omega)]
    . rw [if_neg hin]
      split
      . unfold row
        rw [getElem?_eq_none (by omega)]
      . rfl
  refine ⟨⟨by simp [ChainIndex.holes, h.length_n], hwrap', ?_⟩, hfind⟩
  intro no off n hn
  rw [hfind] at hn
  exact h.bound no off n hn

theorem Readable.padTo (h : c.Readable log) (next : UInt64)
    : (c.padTo next).Readable log ∧ ∀ no, (c.padTo next).find no = c.find no := by
  rcases h.start (next - 1) with ⟨hstart, hset, hfind⟩
  have hto := toNat_next hstart.wrap
  have hpad : c.padTo next = (c.start (next - 1)).holes
      (if (c.start (next - 1)).next < next then (next - (c.start (next - 1)).next).toNat else 0) := rfl
  rw [hpad]
  generalize c.start (next - 1) = c' at hstart hset hfind hto
  have hwrap : c'.base.toNat + (c'.off.length +
      (if c'.next < next then (next - c'.next).toNat else 0)) < 2 ^ 64 := by
    split
    . next hlt =>
      rw [UInt64.lt_iff_toNat_lt] at hlt
      rw [UInt64.toNat_sub_of_le _ _ (UInt64.le_iff_toNat_le.mpr (by omega))]
      have := next.toNat_lt
      omega
    . exact hstart.wrap
  rcases hstart.holes hset hwrap with ⟨hread, hfind'⟩
  exact ⟨hread, fun no => (hfind' no).trans (hfind no)⟩

end ChainIndex

theorem Rows.history_putState (r : Rows) (key : Bytes) (n : UInt64) (val key' : Bytes)
    : (r.putState key n val).history key' =
        if key = key' then
          History.put MemVal.num (r.history key') ⟨n, val⟩
        else
          r.history key' := by
  have hnum : ∀ last : MemVal, last.txnum = n ↔ last.num = MemVal.num ⟨n, val⟩ :=
    fun last => UInt64.toNat_inj.symm
  unfold Rows.putState Rows.history History.put
  by_cases hkey : key = key'
  . subst hkey
    dsimp only
    rw [if_pos rfl]
    split
    . next last hlast =>
      rw [hlast]
      dsimp only
      by_cases heq : last.txnum = n
      . rw [if_pos heq, if_pos ((hnum last).mp heq)]
        simp
      . rw [if_neg heq, if_neg (fun h => heq ((hnum last).mpr h))]
        simp
    . next hlast =>
      rw [hlast]
      simp
  . dsimp only
    rw [if_neg hkey]
    split <;> [split; skip] <;> simp [AList.lookup_insert_ne (Ne.symm hkey)]

theorem take_drop_of_isPrefix {log log' : Bytes} (h : log <+: log') {off n : Nat}
    (hn : off + n ≤ log.length) : (log'.drop off).take n = (log.drop off).take n := by
  rcases h with ⟨tail, rfl⟩
  rw [drop_append_of_le_length (by omega), take_append_of_le_length (by simp; omega)]

namespace Memtable

structure Shows (m : Memtable) (t : Table) : Prop where
  pos : m.pos = m.log.length
  readable : ∀ fam, (m.chain fam).Readable m.log
  chain : ∀ fam no, m.chainGet fam no = t.chainGet fam no
  nums : ∀ key, m.lookupNum key = t.lookupNum key
  code : ∀ hash, OneOf (m.codeBlob hash) (t.codes hash)
  post : m.post = t.posts
  sets : ∀ key, key ∈ m.sets ↔ key ∈ t.sets
  nodup : m.sets.Nodup
  history : ∀ key, m.history key = History.record MemVal.num (t.history key)

theorem shows_fresh (path : LogName) (baseTx baseHeight : UInt64) : Shows (fresh path baseTx baseHeight) [] where
  pos := rfl
  readable _ := ChainIndex.readable_empty _
  chain _ _ := rfl
  nums _ := rfl
  code _ := rfl
  post := rfl
  sets _ := Iff.rfl
  nodup := nodup_nil
  history _ := rfl

def Gains (m : Memtable) (rows : Table) (m' : Memtable) : Prop :=
  (∀ t, Shows m t → Shows m' (t ++ rows)) ∧
    ∃ r log pos, m' = { m with toRows := r, log := log, pos := pos }

theorem Gains.nil (m : Memtable) : Gains m [] m := by
  refine ⟨?_, m.toRows, m.log, m.pos, rfl⟩
  intro t ht
  rwa [append_nil]

theorem Gains.append {m m' m'' : Memtable} {rows rows' : Table} (h : Gains m rows m')
    (h' : Gains m' rows' m'') : Gains m (rows ++ rows') m'' := by
  rcases h with ⟨hshows, _, _, _, rfl⟩
  rcases h' with ⟨hshows', r, log, pos, rfl⟩
  refine ⟨?_, r, log, pos, rfl⟩
  intro t ht
  rw [← append_assoc]
  exact hshows' _ (hshows t ht)

abbrev AddsRows (rows : Table) (f : MemM α) : Prop := EStateM.Emits Gains rows f

section

variable {file : LogFile}

variable {m : Memtable} {t : Table} {num : UInt64}

theorem Shows.logged (h : Shows m t) (bytes : Bytes)
    : Shows { m with log := m.log ++ bytes, pos := m.pos + bytes.length } t where
  pos := by simp [h.pos]
  readable fam := (h.readable fam).mono (prefix_append _ _)
  chain fam no := by
    rw [← h.chain fam no]
    unfold chainGet
    dsimp only
    cases hfind : (m.chain fam).find no with
    | none => rfl
    | some row =>
      rcases row with ⟨off, n⟩
      have hbound := (h.readable fam).bound no off n hfind
      simp only [Option.map_some]
      rw [take_drop_of_isPrefix (prefix_append _ _) hbound]
  nums := h.nums
  code := h.code
  post := h.post
  sets := h.sets
  nodup := h.nodup
  history := h.history

theorem Shows.putNum (h : Shows m t) (key : Bytes) (no : UInt64)
    : Shows { m with toRows := m.toRows.putNum key no } (t ++ [.num key no]) where
  pos := h.pos
  readable := h.readable
  chain fam no := (h.chain fam no).trans (Table.chainGet_concat rfl).symm
  nums key' := by
    rw [Table.lookupNum_append, ← h.nums]
    by_cases hkey : key = key'
    . subst hkey
      simp [Rows.lookupNum, Rows.putNum, Table.lookupNum, Row.numVal]
    . simp [Rows.lookupNum, Rows.putNum, Table.lookupNum, Row.numVal, hkey, AList.lookup_insert_ne (Ne.symm hkey)]
  code hash := by
    rw [Table.codes_concat rfl]
    exact h.code hash
  post := h.post.trans (Table.posts_concat rfl).symm
  sets key := by
    rw [Table.sets_concat rfl]
    exact h.sets key
  nodup := h.nodup
  history key := by
    rw [Table.history_concat rfl]
    exact h.history key

theorem Shows.addPost (h : Shows m t) (p : Posting) : Shows { m with toRows := m.toRows.addPost p } (t ++ [.post p]) where
  pos := h.pos
  readable := h.readable
  chain fam no := (h.chain fam no).trans (Table.chainGet_concat rfl).symm
  nums key := (h.nums key).trans (Table.lookupNum_concat rfl).symm
  code hash := by
    rw [Table.codes_concat rfl]
    exact h.code hash
  post := by
    rw [Table.posts_append, ← h.post]
    rfl
  sets key := by
    rw [Table.sets_concat rfl]
    exact h.sets key
  nodup := h.nodup
  history key := by
    rw [Table.history_concat rfl]
    exact h.history key

theorem Shows.putSet (h : Shows m t) (key : Bytes) : Shows { m with toRows := m.toRows.putSet key } (t ++ [.set key]) where
  pos := h.pos
  readable := h.readable
  chain fam no := (h.chain fam no).trans (Table.chainGet_concat rfl).symm
  nums key := (h.nums key).trans (Table.lookupNum_concat rfl).symm
  code hash := by
    rw [Table.codes_concat rfl]
    exact h.code hash
  post := h.post.trans (Table.posts_concat rfl).symm
  sets key' := by
    rw [Table.sets_append, mem_append, ← h.sets]
    simp [Rows.putSet, Table.sets, Row.setKey, or_comm]
  nodup := h.nodup.insert
  history key := by
    rw [Table.history_concat rfl]
    exact h.history key

theorem Shows.putState (h : Shows m t) (key : Bytes) (no : UInt64) (val : Bytes)
    : Shows { m with toRows := m.toRows.putState key no val } (t ++ [.state key no val]) := by
  have hrest : ∀ r : Rows, (r.putState key no val).chain = r.chain ∧ (r.putState key no val).nums = r.nums ∧
      (r.putState key no val).code = r.code ∧ (r.putState key no val).post = r.post ∧
      (r.putState key no val).sets = r.sets := by
    intro r
    unfold Rows.putState
    dsimp only
    split
    . split <;> exact ⟨rfl, rfl, rfl, rfl, rfl⟩
    . exact ⟨rfl, rfl, rfl, rfl, rfl⟩
  rcases hrest m.toRows with ⟨hchain, hnums, hcode, hpost, hsets⟩
  refine ⟨h.pos, ?_, ?_, ?_, ?_, ?_, ?_, ?_, ?_⟩
  . rw [hchain]
    exact h.readable
  . intro fam no
    rw [Table.chainGet_concat rfl, ← h.chain]
    unfold chainGet
    dsimp only
    rw [hchain]
  . intro key
    rw [Table.lookupNum_concat rfl, ← h.nums]
    unfold Rows.lookupNum
    rw [hnums]
  . intro hash
    rw [Table.codes_concat rfl]
    unfold Rows.codeBlob
    rw [hcode]
    exact h.code hash
  . rw [Table.posts_concat rfl, hpost]
    exact h.post
  . intro key
    rw [Table.sets_concat rfl, hsets]
    exact h.sets key
  . rw [hsets]
    exact h.nodup
  . intro key'
    rw [Rows.history_putState, Table.history_append, h.history key']
    by_cases hkey : key = key'
    . subst hkey
      rw [if_pos rfl]
      simp [Table.history, Row.stateVal, History.record_append]
    . simp [Table.history, Row.stateVal, hkey]

theorem Shows.putCode (h : Shows m t) (hash blob : Bytes)
    : Shows { m with toRows := m.toRows.putCode hash blob } (t ++ [.code hash blob]) where
  pos := h.pos
  readable := h.readable
  chain fam no := (h.chain fam no).trans (Table.chainGet_concat rfl).symm
  nums key := (h.nums key).trans (Table.lookupNum_concat rfl).symm
  code hash' := by
    rw [Table.codes_append]
    by_cases hhash : hash = hash'
    . subst hhash
      simp [Rows.codeBlob, Rows.putCode, Table.codes, Row.codeVal, OneOf]
    . have hold := h.code hash'
      simpa [Rows.codeBlob, Rows.putCode, Table.codes, Row.codeVal, hhash,
        AList.lookup_insert_ne (Ne.symm hhash)] using hold
  post := h.post.trans (Table.posts_concat rfl).symm
  sets key := by
    rw [Table.sets_concat rfl]
    exact h.sets key
  nodup := h.nodup
  history key := by
    rw [Table.history_concat rfl]
    exact h.history key

theorem Shows.codeAgain (h : Shows m t) {hash : Bytes} (blob : Bytes)
    (hold : (m.codeBlob hash).isSome) : Shows m (t ++ [.code hash blob]) where
  pos := h.pos
  readable := h.readable
  chain fam no := (h.chain fam no).trans (Table.chainGet_concat rfl).symm
  nums key := (h.nums key).trans (Table.lookupNum_concat rfl).symm
  code hash' := by
    rw [Table.codes_append]
    by_cases hhash : hash = hash'
    . subst hhash
      have hcode := h.code hash
      rcases Option.isSome_iff_exists.mp hold with ⟨b, hb⟩
      rw [hb] at hcode ⊢
      exact mem_append_left _ hcode
    . have hcode := h.code hash'
      simpa [Table.codes, Row.codeVal, hhash] using hcode
  post := h.post.trans (Table.posts_concat rfl).symm
  sets key := by
    rw [Table.sets_concat rfl]
    exact h.sets key
  nodup := h.nodup
  history key := by
    rw [Table.history_concat rfl]
    exact h.history key

theorem Shows.addChain (h : Shows m t) {fam : Fam} {off n : Nat}
    {val : Bytes} (hnum : num.toNat + 1 < 2 ^ 64) (hoff : off ≠ 0)
    (hval : (m.log.drop off).take (UInt32.ofNat n).toNat = val) (hbound : off + n ≤ m.log.length) {r : Rows}
    (hrun : (Rows.addChain fam num off n).run m.toRows = .ok () r)
    : Shows { m with toRows := r } (t ++ [.chain fam num val]) := by
  rcases addChain_run hrun with ⟨hnext, rfl⟩
  rcases (h.readable fam).start num with ⟨hread, hset, hfind⟩
  have hn : (UInt32.ofNat n).toNat ≤ n := by
    rw [UInt32.toNat_ofNat']
    exact Nat.mod_le _ _
  have hpush : (((m.chain fam).start num).push off (UInt32.ofNat n)).Readable m.log := by
    apply hread.push hset hnext hnum hoff
    omega
  refine ⟨h.pos, ?_, ?_, ?_, ?_, ?_, ?_, h.nodup, ?_⟩
  . intro fam'
    by_cases hfam : fam' = fam
    . subst hfam
      simpa [Rows.setChain] using hpush
    . simpa [Rows.setChain, hfam] using h.readable fam'
  . intro fam' no
    have hold := h.chain fam' no
    rw [Table.chainGet_append, ← hold]
    unfold chainGet
    by_cases hfam : fam' = fam
    . subst hfam
      simp only [Rows.setChain, Function.update_self]
      rw [hread.find_push hset hnext hnum hoff, hfind]
      by_cases hno : no = num
      . subst hno
        simp only [if_true, Option.map_some]
        rw [hval]
        simp [Table.chainGet, Row.chainVal]
      . simp [Table.chainGet, Row.chainVal, hno, Ne.symm hno]
    . simp [Rows.setChain, hfam, Table.chainGet, Row.chainVal, Ne.symm hfam]
  . intro key
    rw [Table.lookupNum_concat rfl]
    exact h.nums key
  . intro hash
    rw [Table.codes_concat rfl]
    exact h.code hash
  . rw [Table.posts_concat rfl]
    exact h.post
  . intro key
    rw [Table.sets_concat rfl]
    exact h.sets key
  . intro key
    rw [Table.history_concat rfl]
    exact h.history key

theorem addsRows_write {kind : RecKind} {payload : Bytes} {p : Nat → Nat → Pend} {row : Row}
    (hput : ∀ (m : Memtable) (t : Table) (body : Nat) (r : Rows), Shows m t → body ≠ 0 →
      (m.log.drop body).take payload.length = payload → body + payload.length ≤ m.log.length →
      (p body payload.length).run.run m.toRows = .ok () r → Shows { m with toRows := r } (t ++ [row]))
    : AddsRows [row] (do
        let res ← write file kind num payload
        liftRows (p res.1 res.2).run) := by
  intro m a m' h
  rw [run_bind_eq_ok] at h
  rcases h with ⟨res, m1, hwrite, hlift⟩
  rcases write_eq_ok hwrite with ⟨-, rfl, rfl⟩
  rw [liftRows_eq_ok] at hlift
  rcases hlift with ⟨r, hrun, rfl⟩
  refine ⟨?_, r, _, _, rfl⟩
  intro t ht
  have hlen := Frame.length_encode ⟨kind.byte, num, payload⟩
  have hlog := ht.logged (Frame.encode ⟨kind.byte, num, payload⟩)
  rw [hlen, ← Nat.add_assoc] at hlog
  refine hput _ t (m.pos + Frame.headerSize) r hlog (by simp [Frame.headerSize]) ?_ ?_ hrun
  . dsimp only
    rw [ht.pos, ← drop_drop, drop_left, Frame.drop_encode, take_length]
  . rw [← hlog.pos]

theorem addsRows_chainRow (fam : Fam) (val : Bytes) (hnum : num.toNat + 1 < 2 ^ 64)
    : AddsRows [.chain fam num (fit val)] (chainRow file fam num val) := by
  apply addsRows_write (p := fun body n => .chain fam num body n)
  intro m t body r ht hbody hval hbound hrun
  refine ht.addChain hnum hbody ?_ hbound hrun
  have hle : (UInt32.ofNat val.length).toNat ≤ val.length := by
    rw [UInt32.toNat_ofNat']
    exact Nat.mod_le _ _
  have htake : (m.log.drop body).take (UInt32.ofNat val.length).toNat =
      ((m.log.drop body).take val.length).take (UInt32.ofNat val.length).toNat := by
    rw [take_take, Nat.min_eq_left hle]
  rw [htake, hval]
  rfl

theorem addsRows_numRow (key : Bytes) (num : UInt64) : AddsRows [.num key num] (numRow file key num) := by
  apply addsRows_write (p := fun _ _ => .num key num)
  intro m t body r ht _ _ _ hrun
  cases hrun
  exact ht.putNum key num

theorem addsRows_postRow (group : Bytes) (txnum : UInt64) (payload : UInt8)
    : AddsRows [.post ⟨group, txnum, payload⟩] (postRow file group txnum payload) := by
  apply addsRows_write (p := fun _ _ => .post ⟨group, txnum, payload⟩)
  intro m t body r ht _ _ _ hrun
  cases hrun
  exact ht.addPost _

theorem addsRows_stateRow (r : StateRow) (txnum : UInt64) : AddsRows [r.row txnum] (stateRow file r txnum) := by
  apply addsRows_write (p := fun _ _ => .state (stateKeyPrefix r) txnum r.val)
  intro m t body r' ht _ _ _ hrun
  cases hrun
  exact ht.putState _ _ _

theorem addsRows_setRow (key : Bytes) (txnum : UInt64) : AddsRows [.set key] (setRow file key txnum) := by
  intro m a m' h
  unfold setRow at h
  rw [run_bind_of_ok (run_get m)] at h
  split at h
  . next hold =>
    cases h
    refine ⟨?_, m.toRows, m.log, m.pos, rfl⟩
    intro t ht
    have hput := ht.putSet key
    have hsame : m.toRows.putSet key = m.toRows := by
      simp [Rows.putSet, insert_of_mem hold]
    rwa [hsame] at hput
  . have hwrite : AddsRows [.set key] (do
        let res ← write file .set txnum key
        liftRows ((fun _ _ => Pend.set key) res.1 res.2).run) := by
      apply addsRows_write (p := fun _ _ => .set key)
      intro m t body r ht _ _ _ hrun
      cases hrun
      exact ht.putSet key
    exact hwrite m a m' h

theorem addsRows_codeRow (hash : Hash) (blob : Bytes) : AddsRows [.code hash.val blob] (codeRow file hash blob) := by
  intro m a m' h
  unfold codeRow at h
  rw [run_bind_of_ok (run_get m)] at h
  split at h
  . next hold =>
    cases h
    exact ⟨fun t ht => ht.codeAgain blob hold, m.toRows, m.log, m.pos, rfl⟩
  . have hwrite : AddsRows [.code hash.val blob] (do
        let res ← write file .code 0 (hash.val ++ blob)
        liftRows ((fun _ _ => Pend.code hash.val blob) res.1 res.2).run) := by
      apply addsRows_write (p := fun _ _ => .code hash.val blob)
      intro m t body r ht _ _ _ hrun
      cases hrun
      exact ht.putCode hash.val blob
    exact hwrite m a m' h

theorem AddsRows.bind {rows rows' : Table} {f : MemM α} {g : α → MemM β} (hf : AddsRows rows f)
    (hg : ∀ a, AddsRows rows' (g a)) : AddsRows (rows ++ rows') (f >>= g) :=
  EStateM.Emits.bind Gains.append hf hg

theorem AddsRows.forM {ι : Type} {rows : ι → Table} {f : ι → MemM PUnit} {is : List ι}
    (hf : ∀ i ∈ is, AddsRows (rows i) (f i)) : AddsRows (is.flatMap rows) (is.forM f) :=
  EStateM.Emits.forM Gains.append Gains.nil hf

theorem AddsRows.forM_map {ι : Type} {row : ι → Row} {f : ι → MemM PUnit} {is : List ι}
    (hf : ∀ i ∈ is, AddsRows [row i] (f i)) : AddsRows (is.map row) (is.forM f) := by
  rw [map_eq_flatMap]
  exact AddsRows.forM hf

theorem addsRows_addTx {n : UInt64} (hn : n.toNat + 1 < 2 ^ 64) (t : TxWrite) : AddsRows (t.table n) (addTx file n t) := by
  have htable : t.table n =
      [.chain .itx n (fit t.frames)] ++ ([.chain .rcpt n (fit t.receipt)] ++ ([.chain .tx n (fit t.rlp)] ++
        ([.num (txHashKey t.hash.val) n] ++
          ((sortedKeys (txPostings t)).map (fun g => .post ⟨g, n, ((txPostings t).lookup g).getD 0⟩) ++
            (t.logs.flatMap (fun l => (logSets l.emitter l.topics).map .set) ++ t.state.map (·.row n)))))) := by
    simp [TxWrite.table]
  rw [htable]
  apply AddsRows.bind (addsRows_chainRow .itx t.frames hn)
  intro _
  apply AddsRows.bind (addsRows_chainRow .rcpt t.receipt hn)
  intro _
  apply AddsRows.bind (addsRows_chainRow .tx t.rlp hn)
  intro _
  apply AddsRows.bind (addsRows_numRow _ n)
  intro _
  apply AddsRows.bind (AddsRows.forM_map (fun g _ => addsRows_postRow g n _))
  intro _
  apply AddsRows.bind
  . apply AddsRows.forM
    intro l _
    exact AddsRows.forM_map (fun k _ => addsRows_setRow k n)
  . intro _
    exact AddsRows.forM_map (fun r _ => addsRows_stateRow r n)

variable {crypto : Crypto}

theorem toNat_add_ofNat {first : UInt64} {i : Nat} (h : first.toNat + i < 2 ^ 64)
    : (first + UInt64.ofNat i).toNat = first.toNat + i := by
  have hi : i < UInt64.size := by
    simp only [UInt64.size]
    omega
  rw [UInt64.toNat_add, UInt64.toNat_ofNat_of_lt' hi]
  exact Nat.mod_eq_of_lt h

theorem tableOf_eq_writes (b : BlockWrite) (first : UInt64) (container : Bytes)
    : b.tableOf crypto first container =
        [.chain .blk b.height (fit (b.blkVal first))] ++ ([.chain .hdr b.height (fit b.headerRLP)] ++
          ([.chain .pvm b.height (fit b.pvm)] ++ ([.num (blkHashKey (crypto.keccak256 b.headerRLP).val) b.height] ++
            ([.num (cidKey (crypto.sha256 container).val) b.height] ++
              (b.code.map (fun (h, blob) => .code h.val blob) ++
                (b.txs.zipIdx.flatMap (fun (t, i) => t.table (first + UInt64.ofNat i)) ++
                  b.tail.map (·.row (first + UInt64.ofNat b.txs.length)))))))) := by
  rw [fit_eq (by simp [BlockWrite.blkVal])]
  simp [BlockWrite.tableOf]

theorem addsRows_addRows {b : BlockWrite} (hb : b.HasNext) {first : UInt64}
    (hfirst : first.toNat + b.slots < 2 ^ 64) : AddsRows (b.table crypto first) (addRows crypto file b first) := by
  unfold addRows addRest BlockWrite.table
  cases hcont : b.container crypto with
  | error e =>
    intro m a m' h
    rw [BlockWrite.container] at hcont
    rw [hcont] at h
    simp only [run_bind_eq_ok] at h
    rcases h with ⟨_, _, -, _, _, -, _, _, -, _, _, -, h⟩
    cases h
  | ok container =>
    rw [BlockWrite.container] at hcont
    rw [hcont]
    dsimp only
    rw [tableOf_eq_writes]
    apply AddsRows.bind (addsRows_chainRow .blk (b.blkVal first) hb)
    intro _
    apply AddsRows.bind (addsRows_chainRow .hdr b.headerRLP hb)
    intro _
    apply AddsRows.bind (addsRows_chainRow .pvm b.pvm hb)
    intro _
    apply AddsRows.bind (addsRows_numRow _ _)
    intro _
    apply AddsRows.bind (addsRows_numRow _ _)
    intro _
    apply AddsRows.bind (AddsRows.forM_map (fun c _ => addsRows_codeRow c.1 c.2))
    intro _
    apply AddsRows.bind
    . apply AddsRows.forM
      rintro ⟨t, i⟩ hi
      have hmem := mem_zipIdx hi
      have hi' : first.toNat + i < 2 ^ 64 := by
        unfold BlockWrite.slots at hfirst
        omega
      apply addsRows_addTx
      rw [toNat_add_ofNat hi']
      unfold BlockWrite.slots at hfirst
      omega
    . intro _
      exact AddsRows.forM_map (fun r _ => addsRows_stateRow r _)

theorem Shows.padTo (h : Shows m t) (next : UInt64) : Shows { m with toRows := m.toRows.padTo next } t := by
  have hstep : ∀ (r : Rows) (fam : Fam), Shows { m with toRows := r } t →
      Shows { m with toRows := r.setChain fam ((r.chain fam).padTo next) } t := by
    intro r fam hr
    rcases (hr.readable fam).padTo next with ⟨hread, hfind⟩
    refine ⟨hr.pos, ?_, ?_, hr.nums, hr.code, hr.post, hr.sets, hr.nodup, hr.history⟩
    . intro fam'
      by_cases hfam : fam' = fam
      . subst hfam
        simpa [Rows.setChain] using hread
      . simpa [Rows.setChain, hfam] using hr.readable fam'
    . intro fam' no
      rw [← hr.chain fam' no]
      unfold chainGet
      by_cases hfam : fam' = fam
      . subst hfam
        simp only [Rows.setChain, Function.update_self]
        rw [hfind]
      . simp [Rows.setChain, hfam]
  unfold Rows.padTo txKeyedFams
  simp only [foldl_cons, foldl_nil]
  exact hstep _ .tx (hstep _ .rcpt (hstep _ .itx h))

theorem Shows.appendBlock {b : BlockWrite} (hb : b.HasNext) {m m' : Memtable}
    (hfirst : m.nextTx.toNat + b.slots < 2 ^ 64) (hrun : (Memtable.appendBlock crypto file b).run m = .ok () m')
    : (∀ t, Shows m t → Shows m' (t ++ b.table crypto m.nextTx)) ∧
      ∃ r log pos flushed, m' = { m with
        toRows := r, log := log, pos := pos, flushed := flushed
        nextTx := m.nextTx + UInt64.ofNat b.slots, nextHeight := b.height + 1 } := by
  unfold Memtable.appendBlock at hrun
  rw [run_bind_of_ok (run_get m)] at hrun
  simp only [run_bind_eq_ok] at hrun
  rcases hrun with ⟨_, m1, hrows, _, m2, hpad, _, m3, hmod, res, m4, hend, hflush⟩
  rcases addsRows_addRows hb hfirst m _ m1 hrows with ⟨hshows, r, log, pos, rfl⟩
  rw [liftRows_eq_ok] at hpad
  rcases hpad with ⟨r', hpad, rfl⟩
  cases hpad
  simp only [run_modify] at hmod
  cases hmod
  rcases write_eq_ok hend with ⟨-, -, rfl⟩
  rw [flushLocked_eq_ok hflush]
  have hnext : m.nextTx + UInt64.ofNat b.txs.length + 1 = m.nextTx + UInt64.ofNat b.slots := by
    rw [BlockWrite.slots, UInt64.ofNat_add, UInt64.add_assoc]
    rfl
  constructor
  . intro t ht
    have hpadded := (hshows t ht).padTo (m.nextTx + UInt64.ofNat b.txs.length + 1)
    have hlog := hpadded.logged
      (Frame.encode ⟨RecKind.endBlock.byte, b.height, Bytes.putUint64 (m.nextTx + UInt64.ofNat b.txs.length + 1)⟩)
    rw [Frame.length_encode, ← Nat.add_assoc] at hlog
    exact ⟨hlog.pos, hlog.readable, hlog.chain, hlog.nums, hlog.code, hlog.post, hlog.sets, hlog.nodup, hlog.history⟩
  . rw [← hnext]
    exact ⟨_, _, _, _, rfl⟩

end

end Memtable

end EpochDB.Store
