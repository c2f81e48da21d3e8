import EpochDB.Store.Read.HeightOfTx

/-!
TxNums are one dimension: the slots the `blk` rows give to the blocks follow each other without a gap,
the rows of transactions stand at all slots but the last of each block, and `Head` of `rpc/direct.go`
counts the transactions by the slots of the last block.
-/

namespace EpochDB.Store.Read

open List Option Memtable
open Sealed (FilterPolicy)

def head (v : View) : Option UInt64 := if nextHeight v = 0 then none else some (nextHeight v - 1)

def headTxs (policy : FilterPolicy) (v : View) : Except String UInt64 :=
  let n := (head v).getD 0
  match blockTxRange policy v n with
  | .error e => .error e
  | .ok (some (first, count)) => .ok (if n > 0 then first + count.toUInt64 - (n - 1) else 0)
  | .ok none => .ok 0

def storedPosts (v : View) : List Posting :=
  v.runs.flatMap (fun r => Sealed.entries (r.sec .lookup)) ++ windowPostings v.mem v.frozen

def storedNums (v : View) (key : Bytes) : List UInt64 :=
  v.runs.filterMap (fun r => ((r.sec .lookup).get key).map Bytes.uint64) ++
    ((v.frozen.bind (·.lookupNum key)).toList ++ (v.mem.lookupNum key).toList)

def InSlots (policy : FilterPolicy) (v : View) (height n : UInt64) : Prop :=
  ∃ first count, blockTxRange policy v height = .ok (some (first, count)) ∧
    first.toNat ≤ n.toNat ∧ n.toNat ≤ first.toNat + count.toNat

def TxSlot (policy : FilterPolicy) (v : View) (n : UInt64) : Prop :=
  ∃ height first count, blockTxRange policy v height = .ok (some (first, count)) ∧
    first.toNat ≤ n.toNat ∧ n.toNat < first.toNat + count.toNat

structure GapFree (policy : FilterPolicy) (v : View) (bs : List BlockWrite) : Prop where
  covered : ∀ n, n < nextTx v ↔ ∃ height, InSlots policy v height n
  apart : ∀ height height' n, InSlots policy v height n → InSlots policy v height' n → height = height'
  rows : ∀ fam ∈ txKeyedFams, ∀ n, (chainRow policy v fam n false).isSome = true ↔ TxSlot policy v n
  posts : ∀ p ∈ storedPosts v, TxSlot policy v p.txnum
  hashes : ∀ (hash : Hash), ∀ n ∈ storedNums v (txHashKey hash.val), TxSlot policy v n
  headTxs : headTxs policy v = .ok (UInt64.ofNat (bs.map (·.txs.length)).sum)

def FromOne (s : Sys) : Event → Prop
  | .write _ b => slots s.blocks + b.slots < 2 ^ 64 ∧ b.txs.length < 2 ^ 32 ∧ (s.blocks = [] → b.height = 1) ∧ b.HasNext
  | _ => True

theorem room_of_fromOne {s : Sys} {e : Event} (h : FromOne s e) : Room s e := by
  cases e with
  | write file b => exact ⟨h.1, h.2.2.2⟩
  | _ => trivial

variable {bs : List BlockWrite} {n : Nat} {crypto : Crypto}

theorem exists_of_lt_slots (h : n < slots bs)
    : ∃ i b, bs[i]? = some b ∧ slots (bs.take i) ≤ n ∧ n < slots (bs.take i) + b.slots := by
  induction bs generalizing n with
  | nil => cases h
  | cons b bs ih =>
    rw [slots_cons] at h
    by_cases hlt : n < b.slots
    . exact ⟨0, b, rfl, Nat.zero_le n, by simpa using hlt⟩
    . rcases ih (show n - b.slots < slots bs by omega) with ⟨i, b', hb', hlo, hhi⟩
      refine ⟨i + 1, b', hb', ?_⟩
      rw [take_succ_cons, slots_cons]
      omega

theorem mem_table {first : UInt64} {row : Row} (h : row ∈ table crypto first bs)
    : ∃ (i : Nat) (b : BlockWrite), bs[i]? = some b ∧ row ∈ b.table crypto (first + UInt64.ofNat (slots (bs.take i))) := by
  induction bs generalizing first with
  | nil => simp [table] at h
  | cons b bs ih =>
    rw [table, mem_append] at h
    rcases h with h | h
    . exact ⟨0, b, rfl, by simpa using h⟩
    . rcases ih h with ⟨i, b', hb', hrow⟩
      refine ⟨i + 1, b', hb', ?_⟩
      rw [take_succ_cons, slots_cons, UInt64.ofNat_add, ← UInt64.add_assoc]
      exact hrow

theorem eq_of_num_mem {t : TxWrite} {k n : UInt64} {key : Bytes} (h : Row.num key n ∈ t.table k) : n = k := by
  simp only [TxWrite.table, List.mem_append, List.mem_map, List.mem_flatMap, List.mem_cons, List.not_mem_nil, or_false,
    reduceCtorEq, false_or, and_false, exists_false, Row.num.injEq, StateRow.row] at h
  exact h.2

theorem lt_of_txHash_mem {b : BlockWrite} {first : UInt64} (hfirst : first.toNat + b.slots < 2 ^ 64) {hash : Hash}
    {n : UInt64} (h : Row.num (txHashKey hash.val) n ∈ b.table crypto first)
    : first.toNat ≤ n.toNat ∧ n.toNat < first.toNat + b.txs.length := by
  unfold BlockWrite.table at h
  split at h
  . simp only [BlockWrite.tableOf, List.mem_append, List.mem_map, List.mem_flatMap, List.mem_cons, List.not_mem_nil,
      or_false, reduceCtorEq, false_or, and_false, exists_false, StateRow.row, Row.num.injEq] at h
    rcases h with (h | h) | ⟨⟨t, i⟩, hi, hrow⟩
    . have hhead : some 't'.toUInt8 = some 'b'.toUInt8 := congrArg List.head? h.1
      exact absurd hhead (by decide)
    . have hhead : some 't'.toUInt8 = some 'c'.toUInt8 := congrArg List.head? h.1
      exact absurd hhead (by decide)
    . have hlt := (mem_zipIdx hi).2.1
      unfold BlockWrite.slots at hfirst
      rw [eq_of_num_mem hrow, toNat_add_ofNat (by omega)]
      omega
  . simp at h

def TxOwned (first : Nat) (bs : List BlockWrite) (n : Nat) : Prop :=
  ∃ i b, bs[i]? = some b ∧ first + slots (bs.take i) ≤ n ∧ n < first + slots (bs.take i) + b.txs.length

theorem txOwned_cons {first : Nat} {b : BlockWrite}
    : TxOwned first (b :: bs) n ↔ first ≤ n ∧ n < first + b.txs.length ∨ TxOwned (first + b.slots) bs n := by
  constructor
  . rintro ⟨i, b', hb', hlo, hhi⟩
    cases i with
    | zero =>
      cases hb'
      exact .inl ⟨by simpa using hlo, by simpa using hhi⟩
    | succ i =>
      rw [take_succ_cons, slots_cons] at hlo hhi
      exact .inr ⟨i, b', hb', by omega, by omega⟩
  . rintro (⟨hlo, hhi⟩ | ⟨i, b', hb', hlo, hhi⟩)
    . exact ⟨0, b, rfl, by simpa using hlo, by simpa using hhi⟩
    . refine ⟨i + 1, b', hb', ?_, ?_⟩
      . rw [take_succ_cons, slots_cons]
        omega
      . rw [take_succ_cons, slots_cons]
        omega

theorem rowAt_isSome {fam : Fam} (hfam : fam ∈ txKeyedFams) {first : Nat} {n : UInt64}
    : (rowAt first bs fam n).isSome = true ↔ TxOwned first bs n.toNat := by
  have hheight : byHeight fam = false := by simpa [byHeight] using hfam
  have hrow : ∀ t, ∃ val, txRow t fam = some val := by
    intro t
    cases fam <;> simp [txKeyedFams] at hfam <;> exact ⟨_, rfl⟩
  induction bs generalizing first with
  | nil => simp [rowAt, TxOwned]
  | cons b bs ih =>
    have hrest := @ih (first + b.slots)
    rw [rowAt, isSome_or, Bool.or_eq_true, propext hrest, txOwned_cons, or_comm]
    apply or_congr_left
    unfold BlockWrite.rowAt
    rw [hheight, if_neg (by simp)]
    split
    . next hle =>
      cases ht : b.txs[n.toNat - first]? with
      | none =>
        rw [getElem?_eq_none_iff] at ht
        simp only [bind_none, isSome_none, Bool.false_eq_true, false_iff, not_and, Nat.not_lt]
        omega
      | some t =>
        rcases hrow t with ⟨val, hval⟩
        have hlt := (List.getElem?_eq_some_iff.mp ht).1
        simp only [bind_some, hval, isSome_some, true_iff]
        omega
    . next hle =>
      simp only [isSome_none, Bool.false_eq_true, false_iff, not_and, Nat.not_lt]
      omega

theorem txs_of_slots {first n : UInt64} {count : UInt32} {before last total len : Nat} (hfirst : first.toNat = before)
    (hcount : count.toNat = last) (hsum : before + last = total + (len - 1)) (hn : n.toNat = 1 + (len - 1)) (hlt : total + len < 2 ^ 64)
    : first + count.toUInt64 - (n - 1) = UInt64.ofNat total := by
  have hone : (1 : UInt64).toNat = 1 := rfl
  have hpred : (n - 1).toNat = len - 1 := by
    rw [UInt64.toNat_sub_of_le _ _ (by rw [UInt64.le_iff_toNat_le]; omega)]
    omega
  have hend : (first + count.toUInt64).toNat = before + last := by
    rw [UInt64.toNat_add, UInt32.toNat_toUInt64, hfirst, hcount]
    omega
  apply UInt64.toNat_inj.mp
  rw [UInt64.toNat_sub_of_le _ _ (by rw [UInt64.le_iff_toNat_le]; omega), UInt64.toNat_ofNat_of_lt' (show total < 2 ^ 64 by omega)]
  omega

section Parts

variable (policy : FilterPolicy) {crypto : Crypto} {s : Sys} {l : RunBlocks} {fbs mbs : List BlockWrite}
  (h : s.Parts crypto l fbs mbs)

include h

theorem blockTxRange_eq {i : Nat} {b : BlockWrite} (hb : s.blocks[i]? = some b)
    : blockTxRange policy s.view b.height =
        .ok (some (UInt64.ofNat (slots (s.blocks.take i)), UInt32.ofNat b.txs.length)) :=
  blockTxRange_since policy h h (prefix_refl _) hb

theorem chainRow_eq (fam : Fam) (n : UInt64)
    : chainRow policy s.view fam n (byHeight fam) = (rowAt 0 s.blocks fam n).map fit := by
  rw [h.stored.chainRow_eq policy, ← h.blocks,
    chainGet_table h.container (by rw [UInt64.toNat_zero, Nat.zero_add]; exact h.slots_lt)]
  rfl

theorem exists_of_blockTxRange {height first : UInt64} {count : UInt32}
    (hrow : blockTxRange policy s.view height = .ok (some (first, count)))
    : ∃ i b, s.blocks[i]? = some b ∧ b.height = height ∧ first = UInt64.ofNat (slots (s.blocks.take i)) ∧
        count = UInt32.ofNat b.txs.length := by
  have hblk : ∃ b ∈ s.blocks, b.height = height := by
    by_contra hnone
    push Not at hnone
    have hchain := chainRow_eq policy h .blk height
    rw [rowAt_eq_none rfl hnone] at hchain
    unfold blockTxRange at hrow
    rw [show chainRow policy s.view .blk height true = none from hchain] at hrow
    cases hrow
  rcases hblk with ⟨b, hb, rfl⟩
  rcases mem_iff_getElem?.mp hb with ⟨i, hi⟩
  rw [blockTxRange_eq policy h hi] at hrow
  cases hrow
  exact ⟨i, b, hi, rfl, rfl, rfl⟩

variable (hcount : ∀ b ∈ s.blocks, b.txs.length < 2 ^ 32)

include hcount

theorem toNat_count {i : Nat} {b : BlockWrite} (hb : s.blocks[i]? = some b)
    : (UInt64.ofNat (slots (s.blocks.take i))).toNat = slots (s.blocks.take i) ∧ (UInt32.ofNat b.txs.length).toNat = b.txs.length := by
  have hle := slots_le_of_isPrefix (List.take_prefix i s.blocks)
  have hlt := h.slots_lt
  exact ⟨UInt64.toNat_ofNat_of_lt' (show _ < 2 ^ 64 by omega),
    UInt32.toNat_ofNat_of_lt' (hcount b (mem_of_getElem? hb))⟩

theorem inSlots_iff {height n : UInt64} : InSlots policy s.view height n ↔ Owns s.blocks height n := by
  constructor
  . rintro ⟨first, count, hrow, hlo, hhi⟩
    rcases exists_of_blockTxRange policy h hrow with ⟨i, b, hb, hheight, rfl, rfl⟩
    rcases toNat_count h hcount hb with ⟨hfirst, hcount⟩
    rw [hfirst] at hlo hhi
    rw [hcount] at hhi
    exact ⟨i, b, hb, hheight, hlo, hhi⟩
  . rintro ⟨i, b, hb, rfl, hlo, hhi⟩
    rcases toNat_count h hcount hb with ⟨hfirst, hcount⟩
    refine ⟨_, _, blockTxRange_eq policy h hb, ?_⟩
    rw [hfirst, hcount]
    exact ⟨hlo, hhi⟩

theorem txSlot_iff {n : UInt64} : TxSlot policy s.view n ↔ TxOwned 0 s.blocks n.toNat := by
  constructor
  . rintro ⟨height, first, count, hrow, hlo, hhi⟩
    rcases exists_of_blockTxRange policy h hrow with ⟨i, b, hb, -, rfl, rfl⟩
    rcases toNat_count h hcount hb with ⟨hfirst, hcount⟩
    rw [hfirst] at hlo hhi
    rw [hcount] at hhi
    exact ⟨i, b, hb, by omega, by omega⟩
  . rintro ⟨i, b, hb, hlo, hhi⟩
    rcases toNat_count h hcount hb with ⟨hfirst, hcount⟩
    refine ⟨b.height, _, _, blockTxRange_eq policy h hb, ?_⟩
    rw [hfirst, hcount]
    omega

theorem covered_iff (n : UInt64) : n < nextTx s.view ↔ ∃ height, InSlots policy s.view height n := by
  rw [UInt64.lt_iff_toNat_lt, toNat_nextTx h]
  constructor
  . intro hlt
    rcases exists_of_lt_slots hlt with ⟨i, b, hb, hlo, hhi⟩
    unfold BlockWrite.slots at hhi
    exact ⟨b.height, (inSlots_iff policy h hcount).mpr ⟨i, b, hb, rfl, hlo, by omega⟩⟩
  . rintro ⟨height, hin⟩
    rcases (inSlots_iff policy h hcount).mp hin with ⟨i, b, hb, -, -, hhi⟩
    have hsucc := slots_take_succ hb
    have hle := slots_le_of_isPrefix (List.take_prefix (i + 1) s.blocks)
    unfold BlockWrite.slots at hsucc
    omega

omit hcount in
theorem row_mem_of_posts {p : Posting} (hp : p ∈ storedPosts s.view) : Row.post p ∈ table crypto 0 s.blocks := by
  rw [h.blocks, h.stored.table_eq, mem_append, mem_append]
  unfold storedPosts windowPostings at hp
  rw [mem_append, mem_append] at hp
  rcases hp with hp | hp | hp
  . rcases mem_flatMap.mp hp with ⟨r, hr, hp⟩
    rw [h.stored.runs] at hr
    rcases mem_map.mp hr with ⟨q, hq, rfl⟩
    rw [(h.stored.holds q hq).shows.posts.mem_iff, Table.mem_posts] at hp
    exact .inl (.inl (mem_flatMap.mpr ⟨q, hq, hp⟩))
  . cases hf : s.view.frozen with
    | none =>
      rw [hf] at hp
      cases hp
    | some f =>
      rw [hf] at hp
      have hp : p ∈ f.post := hp
      rw [(h.stored.frozen f hf).1.shows.post, Table.mem_posts] at hp
      exact .inl (.inr hp)
  . rw [h.stored.mem.shows.post, Table.mem_posts] at hp
    exact .inr hp

omit hcount in
theorem row_mem_of_nums {key : Bytes} (hkey : NumKey key) {n : UInt64} (hn : n ∈ storedNums s.view key)
    : Row.num key n ∈ table crypto 0 s.blocks := by
  rw [h.blocks, h.stored.table_eq, mem_append, mem_append]
  unfold storedNums at hn
  rw [mem_append, mem_append, mem_toList, mem_toList] at hn
  rcases hn with hn | hn | hn
  . rcases mem_filterMap.mp hn with ⟨r, hr, hn⟩
    rw [h.stored.runs] at hr
    rcases mem_map.mp hr with ⟨q, hq, rfl⟩
    rw [(h.stored.holds q hq).shows.nums key hkey, Option.map_map] at hn
    rcases map_eq_some_iff.mp hn with ⟨n', hn', heq⟩
    have heq : n' = n := by rw [← heq, Function.comp_apply, Bytes.uint64_putUint64]
    subst heq
    exact .inl (.inl (mem_flatMap.mpr ⟨q, hq, Table.mem_of_lookupNum hn'⟩))
  . rcases bind_eq_some_iff.mp hn with ⟨f, hf, hn⟩
    rw [(h.stored.frozen f hf).1.shows.nums] at hn
    rw [hf]
    exact .inl (.inr (Table.mem_of_lookupNum hn))
  . rw [h.stored.mem.shows.nums] at hn
    exact .inr (Table.mem_of_lookupNum hn)

theorem block_of_row {row : Row} (hrow : row ∈ table crypto 0 s.blocks)
    : ∃ i b first, s.blocks[i]? = some b ∧ row ∈ BlockWrite.table crypto b first ∧ first.toNat = slots (s.blocks.take i) ∧
        first.toNat + b.slots < 2 ^ 64 := by
  rcases mem_table hrow with ⟨i, b, hb, hrow⟩
  have hfirst := (toNat_count h hcount hb).1
  have hlt := h.slots_lt
  have hsucc := slots_take_succ hb
  have hle := slots_le_of_isPrefix (List.take_prefix (i + 1) s.blocks)
  rw [UInt64.zero_add] at hrow
  exact ⟨i, b, _, hb, hrow, hfirst, by omega⟩

theorem txOwned_of_post {p : Posting} (hp : p ∈ storedPosts s.view) : TxOwned 0 s.blocks p.txnum.toNat := by
  rcases block_of_row h hcount (row_mem_of_posts h hp) with ⟨i, b, first, hb, hrow, hfirst, hlt⟩
  rcases BlockWrite.within_of_mem_table hlt hrow with ⟨-, hlo, hhi⟩
  unfold BlockWrite.slots at hhi
  exact ⟨i, b, hb, by omega, by omega⟩

theorem txOwned_of_txHash {hash : Hash} {n : UInt64} (hn : n ∈ storedNums s.view (txHashKey hash.val))
    : TxOwned 0 s.blocks n.toNat := by
  rcases block_of_row h hcount (row_mem_of_nums h (.txHash hash) hn) with ⟨i, b, first, hb, hrow, hfirst, hlt⟩
  rcases lt_of_txHash_mem hlt hrow with ⟨hlo, hhi⟩
  exact ⟨i, b, hb, by omega, by omega⟩

omit h hcount in
theorem slots_eq (bs : List BlockWrite) : slots bs = (bs.map (·.txs.length)).sum + bs.length := by
  induction bs with
  | nil => rfl
  | cons b bs ih =>
    rw [slots_cons, ih, map_cons, sum_cons, length_cons, BlockWrite.slots]
    omega

omit hcount in
theorem headTxs_of_nil (hnil : s.blocks = []) : headTxs policy s.view = .ok 0 := by
  have hheight : nextHeight s.view = 0 := by
    rw [nextHeight_eq h]
    exact h.stored.nextHeight_eq_zero (h.blocks ▸ hnil)
  have hrow := chainRow_eq policy h .blk 0
  rw [hnil] at hrow
  unfold headTxs head blockTxRange
  rw [if_pos hheight]
  dsimp only [getD_none]
  rw [show chainRow policy s.view .blk 0 true = none from hrow]

theorem headTxs_eq (hone : Consecutive 1 s.blocks)
    : headTxs policy s.view = .ok (UInt64.ofNat (s.blocks.map (·.txs.length)).sum) := by
  cases hlast : s.blocks.getLast? with
  | none =>
    rw [getLast?_eq_none_iff] at hlast
    rw [headTxs_of_nil policy h hlast, hlast]
    rfl
  | some b =>
    have hpos : 0 < s.blocks.length := length_pos_iff.mpr (ne_nil_of_mem (mem_of_getLast? hlast))
    have hb : s.blocks[s.blocks.length - 1]? = some b := by rw [← getLast?_eq_getElem?, hlast]
    have hheight := height_of_getElem? hone hb
    have hnext : b.height.toNat + 1 = (nextHeight s.view).toNat := by
      rw [nextHeight_eq h]
      exact h.stored.last_height (h.blocks ▸ hlast)
    have hhead : head s.view = some b.height := by
      have hone : (1 : UInt64).toNat = 1 := rfl
      have hne : nextHeight s.view ≠ 0 := by
        intro hzero
        rw [hzero, UInt64.toNat_zero] at hnext
        omega
      unfold head
      rw [if_neg hne, Option.some.injEq]
      apply UInt64.toNat_inj.mp
      rw [UInt64.toNat_sub_of_le _ _ (by rw [UInt64.le_iff_toNat_le]; omega)]
      omega
    have hsum : slots (s.blocks.take (s.blocks.length - 1)) + b.txs.length = (s.blocks.map (·.txs.length)).sum + (s.blocks.length - 1) := by
      have hsucc := slots_take_succ hb
      rw [Nat.sub_add_cancel hpos, take_length, slots_eq, BlockWrite.slots] at hsucc
      omega
    rcases toNat_count h hcount hb with ⟨hfirst, hcount⟩
    have hlt := h.slots_lt
    rw [slots_eq] at hlt
    have hgt : b.height > 0 := by
      rw [gt_iff_lt, UInt64.lt_iff_toNat_lt, UInt64.toNat_zero]
      omega
    unfold headTxs
    rw [hhead]
    dsimp only [getD_some]
    rw [blockTxRange_eq policy h hb]
    dsimp only
    rw [if_pos hgt, Except.ok.injEq]
    exact txs_of_slots hfirst hcount (by omega) (by omega) (by omega)

end Parts

theorem height_of_fromOne {s : Sys} (h : Transition.Reachable (step crypto) FromOne Sys.init s)
    : ∀ b, s.blocks.head? = some b → b.height = 1 := by
  refine h.invariant (I := fun s => ∀ b, s.blocks.head? = some b → b.height = 1) (by simp [Sys.init]) ?_
  intro s e s' hs hg hstep
  rcases step_cases hstep with ⟨file, b, m, rfl, -, rfl⟩ | ⟨-, -, -, rfl⟩ | ⟨f, r, -, -, -, rfl⟩ | ⟨start, stop, r, -, -, rfl⟩
  . intro b' hb'
    dsimp only at hb'
    unfold accept at hb'
    split at hb'
    . split at hb'
      . exact hs b' hb'
      . next hlast _ =>
        rw [head?_append_of_ne_nil _ (ne_nil_of_mem (mem_of_getLast? hlast))] at hb'
        exact hs b' hb'
    . next hlast =>
      rw [getLast?_eq_none_iff] at hlast
      rw [hlast] at hb'
      cases hb'
      exact hg.2.2.1 hlast
  . exact hs
  . exact hs
  . exact hs

theorem gapFree_of_fromOne (policy : FilterPolicy) {crypto : Crypto} {s : Sys}
    (h : Transition.Reachable (step crypto) FromOne Sys.init s) : GapFree policy s.view s.blocks := by
  rcases (inv_of_reachable (h.mono fun _ _ => room_of_fromOne)).parts with ⟨l, fbs, mbs, hparts⟩
  have hcount : ∀ b ∈ s.blocks, b.txs.length < 2 ^ 32 :=
    forall_blocks (by simp [Sys.init]) (fun _ _ _ hg => hg.2.1) h
  have hone : Consecutive 1 s.blocks := by
    rcases hparts.stored.whole with ⟨height, hof⟩
    have hcons := hof.consecutive
    rw [← hparts.blocks] at hcons
    have hfirst := height_of_fromOne h
    cases hbs : s.blocks with
    | nil => trivial
    | cons b bs =>
      rw [hbs] at hcons hfirst
      have hheight : b.height.toNat = 1 := congrArg UInt64.toNat (hfirst b rfl)
      rw [← hheight, hcons.1]
      exact hcons
  refine ⟨covered_iff policy hparts hcount, ?_, ?_, ?_, ?_, headTxs_eq policy hparts hcount hone⟩
  . intro height height' n hin hin'
    exact owns_unique ((inSlots_iff policy hparts hcount).mp hin) ((inSlots_iff policy hparts hcount).mp hin')
  . intro fam hfam n
    have hrow := chainRow_eq policy hparts fam n
    rw [show byHeight fam = false by simpa [byHeight] using hfam] at hrow
    rw [hrow, isSome_map, txSlot_iff policy hparts hcount]
    exact rowAt_isSome hfam
  . intro p hp
    exact (txSlot_iff policy hparts hcount).mpr (txOwned_of_post hparts hcount hp)
  . intro hash n hn
    exact (txSlot_iff policy hparts hcount).mpr (txOwned_of_txHash hparts hcount hn)

instance (s : Sys) (e : Event) : Decidable (FromOne s e) :=
  match e with
  | .write _ _ => inferInstanceAs (Decidable (_ ∧ _ ∧ (_ → _) ∧ _))
  | .cut | .publish | .merge _ _ => .isTrue trivial

def mergedSlots : List Event :=
  [.write goodLog (receiptBlock []), .cut, .publish, .write goodLog (emptyBlock 2), .cut, .publish,
    .merge 0 2, .write goodLog (emptyBlock 3)]

theorem gapFree_mergedSlots
    : ∃ s, Transition.run (step emptyBlockCrypto) Sys.init mergedSlots = some s ∧ s.view.runs.length = 1 ∧
        nextTx s.view = 4 ∧ GapFree exactPolicy s.view s.blocks := by
  have hrun : (Transition.run (fun s e => if decide (FromOne s e) then step emptyBlockCrypto s e else none) Sys.init
      mergedSlots).map (fun s => (s.view.runs.length, nextTx s.view)) = some (1, 4) := by
    decide +kernel
  rw [map_eq_some_iff] at hrun
  rcases hrun with ⟨s, hrun, hobs⟩
  rw [Prod.mk.injEq] at hobs
  exact ⟨s, Transition.run_of_run_checked hrun, hobs.1, hobs.2,
    gapFree_of_fromOne exactPolicy (Transition.Reachable.run_checked (fun _ _ => of_decide_eq_true) .init hrun)⟩

def crowdedBlock (n : Nat) : BlockWrite where
  height := 1
  headerRLP := [0xc0]
  pvm := []
  txs := List.replicate n ⟨zeroHash, [0xc0], [], [], [], [], none, none, none, []⟩
  code := []
  tail := []

theorem slots_crowdedBlock (n : Nat) : (crowdedBlock n).slots = n + 1 := by
  rw [BlockWrite.slots, crowdedBlock, length_replicate]

theorem step_crowdedBlock (hn : n + 1 < 2 ^ 64)
    : ∃ m, step emptyBlockCrypto Sys.init (.write goodLog (crowdedBlock n)) =
        some ⟨⟨m, none, []⟩, [crowdedBlock n]⟩ := by
  have hroom : (Memtable.fresh .window 0 0).nextTx.toNat + (crowdedBlock n).slots < 2 ^ 64 := by
    rw [slots_crowdedBlock]
    exact Nat.lt_of_le_of_lt (Nat.le_of_eq (Nat.zero_add _)) hn
  have hadd : ∃ m, (Memtable.add emptyBlockCrypto goodLog (crowdedBlock n)).run (Memtable.fresh .window 0 0) = .ok () m :=
    (inOrder_fresh .window 0 0).add good_goodLog (by simp [Memtable.fresh, Memtable.reset, Memtable.clear])
      (.inr ⟨rfl, rfl⟩) ⟨_, rfl⟩ hroom
  rcases hadd with ⟨m, hm⟩
  refine ⟨m, ?_⟩
  simp only [step, Sys.init]
  rw [hm]
  rfl

theorem count_crowdedBlock (hn : n + 1 < 2 ^ 64)
    : ∃ s, Transition.run (step emptyBlockCrypto) Sys.init [.write goodLog (crowdedBlock n)] = some s ∧
        nextTx s.view = UInt64.ofNat (n + 1) ∧ blockTxRange exactPolicy s.view 1 = .ok (some (0, UInt32.ofNat n)) ∧
        headTxs exactPolicy s.view = .ok (UInt32.ofNat n).toUInt64 := by
  rcases step_crowdedBlock hn with ⟨m, hstep⟩
  have hroom : Room Sys.init (.write goodLog (crowdedBlock n)) := by
    rw [Room, slots_crowdedBlock]
    exact ⟨Nat.lt_of_le_of_lt (Nat.le_of_eq (Nat.zero_add _)) hn, show (1 : UInt64).toNat + 1 < 2 ^ 64 by decide⟩
  rcases (inv_step (inv_init _) hroom hstep).parts with ⟨l, fbs, mbs, hparts⟩
  have hrow : blockTxRange exactPolicy ⟨m, none, []⟩ 1 = .ok (some (0, UInt32.ofNat n)) := by
    have hrange := blockTxRange_eq exactPolicy hparts (i := 0) rfl
    rw [crowdedBlock, length_replicate] at hrange
    exact hrange
  have hheight : nextHeight ⟨m, none, []⟩ = 2 := by
    have hlast : (l.flatMap (·.2) ++ fbs ++ mbs).getLast? = some (crowdedBlock n) := by
      rw [← hparts.blocks]
      rfl
    have hnext := hparts.stored.last_height hlast
    rw [← nextHeight_eq hparts] at hnext
    exact UInt64.toNat_inj.mp hnext.symm
  have hrun : Transition.run (step emptyBlockCrypto) Sys.init [.write goodLog (crowdedBlock n)] =
      some ⟨⟨m, none, []⟩, [crowdedBlock n]⟩ := by
    simp only [Transition.run, hstep]
  refine ⟨_, hrun, ?_, hrow, ?_⟩
  . apply UInt64.toNat_inj.mp
    rw [toNat_nextTx hparts, UInt64.toNat_ofNat_of_lt' hn]
    rw [slots_cons, slots_crowdedBlock]
    rfl
  . unfold headTxs head
    rw [hheight, if_neg (by decide)]
    dsimp only [getD_some]
    rw [show (2 : UInt64) - 1 = 1 from rfl, hrow]
    dsimp only
    rw [if_pos (by decide)]
    simp

theorem crowdedBlock_counts_nothing
    : ∃ s, Transition.run (step emptyBlockCrypto) Sys.init [.write goodLog (crowdedBlock 4294967296)] = some s ∧
        nextTx s.view = 4294967297 ∧ blockTxRange exactPolicy s.view 1 = .ok (some (0, 0)) ∧
        headTxs exactPolicy s.view = .ok 0 :=
  count_crowdedBlock (by decide)

end EpochDB.Store.Read
