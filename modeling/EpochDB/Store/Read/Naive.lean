import EpochDB.Store.Mem.Steps
import EpochDB.Store.Read.Answers

/-!
The naive model's chain rows, and the theorem that a store answers as the naive model does.
-/

namespace EpochDB.Store

open List Transition Memtable
open Sealed (FilterPolicy)

def heightRow (b : BlockWrite) (first : UInt64) : Fam → Option Bytes
  | .blk => some (b.blkVal first)
  | .hdr => some b.headerRLP
  | .pvm => some b.pvm
  | _ => none

def txRow (t : TxWrite) : Fam → Option Bytes
  | .itx => some t.frames
  | .rcpt => some t.receipt
  | .tx => some t.rlp
  | _ => none

def BlockWrite.rowAt (b : BlockWrite) (first : Nat) (fam : Fam) (n : UInt64) : Option Bytes :=
  if byHeight fam then
    if b.height = n then heightRow b (UInt64.ofNat first) fam else none
  else
    if first ≤ n.toNat then (b.txs[n.toNat - first]?).bind (txRow · fam) else none

def rowAt (first : Nat) (bs : List BlockWrite) (fam : Fam) (n : UInt64) : Option Bytes :=
  match bs with
  | [] => none
  | b :: bs => (rowAt (first + b.slots) bs fam n).or (b.rowAt first fam n)

def BlockWrite.Fits (b : BlockWrite) : Prop := ∀ val ∈ b.chainVals, val.length < 2 ^ 32

theorem filterMap_map_none {α β γ : Type} {f : α → β} {g : β → Option γ} (h : ∀ a, g (f a) = none) (l : List α)
    : (l.map f).filterMap g = [] := by
  rw [filterMap_map, filterMap_eq_nil_iff]
  intro a _
  exact h a

theorem TxWrite.chainVals_table (t : TxWrite) (m : UInt64) (fam : Fam) (n : UInt64)
    : (t.table m).filterMap (Row.chainVal fam n) = if m = n then ((txRow t fam).map fit).toList else [] := by
  unfold TxWrite.table
  dsimp only
  rw [filterMap_append, filterMap_append, filterMap_append, filterMap_map_none (fun _ => rfl),
    filterMap_map_none (fun _ => rfl), filterMap_flatMap]
  have hsets : t.logs.flatMap (fun l =>
      ((Memtable.logSets l.emitter l.topics).map Row.set).filterMap (Row.chainVal fam n)) = [] := by
    rw [flatMap_eq_nil_iff]
    intro l _
    exact filterMap_map_none (fun _ => rfl) _
  rw [hsets]
  by_cases hm : m = n
  . cases fam <;> simp [Row.chainVal, txRow, hm]
  . cases fam <;> simp [Row.chainVal, hm]

theorem flatMap_zipIdx_getLast? {α β : Type} (l : List α) (f : α → Option β) (first k n : Nat)
    : ((l.zipIdx k).flatMap (fun p => if first + p.2 = n then (f p.1).toList else [])).getLast? =
        if first + k ≤ n then (l[n - (first + k)]?).bind f else none := by
  induction l generalizing k with
  | nil => simp
  | cons a l ih =>
    rw [zipIdx_cons, flatMap_cons, getLast?_append, ih]
    by_cases heq : first + k = n
    . have hgt : ¬ first + (k + 1) ≤ n := by omega
      rw [if_neg hgt, if_pos (by omega), heq, Nat.sub_self]
      cases hfa : f a <;> simp [hfa]
    . by_cases hlt : first + k ≤ n
      . have hsub : n - (first + k) = n - (first + (k + 1)) + 1 := by omega
        rw [if_pos (by omega), if_pos hlt, hsub, getElem?_cons_succ]
        simp [heq]
      . rw [if_neg (by omega), if_neg hlt]
        simp [heq]

theorem fit_blkVal (b : BlockWrite) (first : UInt64) : fit (b.blkVal first) = b.blkVal first :=
  fit_eq (by simp [BlockWrite.blkVal])

variable {b : BlockWrite} {first : UInt64} {crypto : Crypto} {bs : List BlockWrite} {s : Read.Sys}

theorem BlockWrite.chainVals_txs (hfirst : first.toNat + b.slots < 2 ^ 64) (fam : Fam) (n : UInt64)
    : (b.txs.zipIdx.flatMap (fun (t, i) => t.table (first + UInt64.ofNat i))).filterMap (Row.chainVal fam n) =
        b.txs.zipIdx.flatMap (fun p => if first.toNat + p.2 = n.toNat then ((txRow p.1 fam).map fit).toList else []) := by
  rw [filterMap_flatMap]
  apply flatMap_congr
  rintro ⟨t, i⟩ hi
  have hmem := mem_zipIdx hi
  have hlt : first.toNat + i < 2 ^ 64 := by
    unfold BlockWrite.slots at hfirst
    omega
  dsimp only
  rw [TxWrite.chainVals_table]
  have hiff : first + UInt64.ofNat i = n ↔ first.toNat + i = n.toNat := by
    rw [← UInt64.toNat_inj, toNat_add_ofNat hlt]
  simp only [hiff]

theorem BlockWrite.chainVals_headRows (crypto : Crypto) (b : BlockWrite) (first : UInt64) (container : Bytes) (fam : Fam)
    (n : UInt64)
    : (b.headRows crypto first container).filterMap (Row.chainVal fam n) =
        if b.height = n then ((heightRow b first fam).map fit).toList else [] := by
  unfold BlockWrite.headRows
  rw [filterMap_append, filterMap_map_none (fun _ => rfl), append_nil]
  by_cases hn : b.height = n
  . cases fam <;> simp [filterMap_cons, Row.chainVal, heightRow, fit_blkVal, hn]
  . cases fam <;> simp [filterMap_cons, Row.chainVal, hn]

theorem BlockWrite.chainGet_table {container : Bytes}
    (hcont : b.container crypto = .ok container) (hfirst : first.toNat + b.slots < 2 ^ 64) (fam : Fam) (n : UInt64)
    : (b.table crypto first).chainGet fam n = (b.rowAt first.toNat fam n).map fit := by
  have htail : (b.tail.map (·.row (first + UInt64.ofNat b.txs.length))).filterMap (Row.chainVal fam n) = [] :=
    filterMap_map_none (fun _ => rfl) _
  unfold BlockWrite.table Table.chainGet
  rw [hcont]
  dsimp only
  rw [tableOf_eq, filterMap_append, filterMap_append, chainVals_txs hfirst, htail, chainVals_headRows,
    append_nil, getLast?_append, flatMap_zipIdx_getLast? b.txs (fun t => (txRow t fam).map fit)]
  unfold BlockWrite.rowAt byHeight
  by_cases hn : b.height = n
  . cases fam <;> simp [heightRow, txRow, txKeyedFams, hn, apply_ite (Option.map fit), Option.map_bind]
  . cases fam <;> simp [txRow, txKeyedFams, hn, apply_ite (Option.map fit), Option.map_bind]

theorem chainGet_table (hcont : ∀ b ∈ bs, b.Rebuilds crypto) (hfirst : first.toNat + slots bs < 2 ^ 64) (fam : Fam)
    (n : UInt64) : (table crypto first bs).chainGet fam n = (rowAt first.toNat bs fam n).map fit := by
  induction bs generalizing first with
  | nil => rfl
  | cons b bs ih =>
    rw [slots_cons] at hfirst
    rcases hcont b (by simp) with ⟨container, hb⟩
    have hnext : (first + UInt64.ofNat b.slots).toNat = first.toNat + b.slots := toNat_add_ofNat (by omega)
    rw [table, rowAt, Table.chainGet_append, BlockWrite.chainGet_table hb (by omega),
      ih (fun b hb => hcont b (by simp [hb])) (by omega), hnext, Option.map_or]

theorem BlockWrite.fit_of_rowAt (hfit : b.Fits) {first : Nat} {fam : Fam} {n : UInt64} {val : Bytes}
    (h : b.rowAt first fam n = some val) : fit val = val := by
  unfold BlockWrite.rowAt at h
  split at h
  . split at h
    . cases fam <;> simp only [heightRow, Option.some.injEq, reduceCtorEq] at h
      . rw [← h, fit_blkVal]
      . exact fit_eq (hfit _ (by simp [chainVals, h]))
      . exact fit_eq (hfit _ (by simp [chainVals, h]))
    . cases h
  . split at h
    . rcases Option.bind_eq_some_iff.mp h with ⟨t, ht, hval⟩
      apply fit_eq
      apply hfit
      simp only [chainVals, mem_append, mem_flatMap]
      refine .inr ⟨t, mem_of_getElem? ht, ?_⟩
      cases fam <;> simp_all [txRow, TxWrite.chainVals]
    . cases h

theorem fit_of_rowAt (hfit : ∀ b ∈ bs, b.Fits) {first : Nat} {fam : Fam} {n : UInt64}
    {val : Bytes} (h : rowAt first bs fam n = some val) : fit val = val := by
  induction bs generalizing first with
  | nil => cases h
  | cons b bs ih =>
    rw [rowAt, Option.or_eq_some_iff] at h
    rcases h with h | ⟨-, h⟩
    . exact ih (fun b hb => hfit b (by simp [hb])) h
    . exact BlockWrite.fit_of_rowAt (hfit b (by simp)) h

theorem map_fit_rowAt (hfit : ∀ b ∈ bs, b.Fits) (first : Nat) (fam : Fam) (n : UInt64)
    : (rowAt first bs fam n).map fit = rowAt first bs fam n := by
  cases h : rowAt first bs fam n with
  | none => rfl
  | some val => rw [Option.map_some, fit_of_rowAt hfit h]

structure AnswersNaive (policy : FilterPolicy) (crypto : Crypto) (v : Read.View) (bs : List BlockWrite) : Prop where
  chainRow : ∀ fam n, Read.chainRow policy v fam n (byHeight fam) = rowAt 0 bs fam n
  latest : ∀ key n, StateKey key → n ≠ 18446744073709551615 →
    Read.latest policy v key n = ((table crypto 0 bs).latest key n).map (·.val)
  txNumByHash : ∀ hash : Hash,
    Read.txNumByHash policy v hash.val = .ok ((table crypto 0 bs).lookupNum (txHashKey hash.val))
  heightByHash : ∀ hash : Hash,
    Read.heightByHash policy v hash.val = .ok ((table crypto 0 bs).lookupNum (blkHashKey hash.val))
  code : ∀ (hash : Hash) (blob : Bytes), (∃ b ∈ bs, (hash, blob) ∈ b.code) →
    (∀ b ∈ bs, ∀ blob', (hash, blob') ∈ b.code → blob' = blob) → Read.code policy v hash.val = some blob

def Read.Roomy (s : Read.Sys) : Read.Event → Prop
  | .write _ b => slots s.blocks + b.slots < 2 ^ 64 ∧ b.Fits ∧ b.HasNext
  | _ => True

theorem Table.mem_codes {t : Table} {hash blob : Bytes} : blob ∈ t.codes hash ↔ Row.code hash blob ∈ t := by
  unfold codes
  rw [mem_filterMap]
  constructor
  . rintro ⟨row, hrow, hval⟩
    cases row with
    | code hash' blob' =>
      simp only [Row.codeVal] at hval
      split at hval
      . next hsame =>
        cases hval
        rwa [hsame] at hrow
      . cases hval
    | _ => cases hval
  . intro hrow
    exact ⟨_, hrow, by simp [Row.codeVal]⟩

theorem mem_code_table (hcont : ∀ b ∈ bs, b.Rebuilds crypto) {hash blob : Bytes}
    : Row.code hash blob ∈ table crypto first bs ↔ ∃ b ∈ bs, ∃ h : Hash, (h, blob) ∈ b.code ∧ h.val = hash := by
  induction bs generalizing first with
  | nil => simp [table]
  | cons b bs ih =>
    rcases hcont b (by simp) with ⟨container, hb⟩
    have hblock : Row.code hash blob ∈ b.table crypto first ↔ ∃ h : Hash, (h, blob) ∈ b.code ∧ h.val = hash := by
      unfold BlockWrite.table
      rw [hb]
      dsimp only
      simp only [BlockWrite.tableOf, TxWrite.table, StateRow.row, mem_append, mem_map, mem_flatMap,
        mem_cons, not_mem_nil, or_false, false_or, Prod.exists, reduceCtorEq, and_false, exists_false,
        Row.code.injEq]
      constructor
      . rintro ⟨h, blob', hmem, hval, rfl⟩
        exact ⟨h, hmem, hval⟩
      . rintro ⟨h, hmem, hval⟩
        exact ⟨h, blob, hmem, hval, rfl⟩
    rw [table, mem_append, hblock, ih (fun b hb => hcont b (by simp [hb]))]
    simp

theorem Read.room_of_roomy {e : Read.Event} (h : Read.Roomy s e) : Read.Room s e := by
  cases e with
  | write file b => exact ⟨h.1, h.2.2⟩
  | _ => trivial

theorem fits_of_roomy (h : Reachable (Read.step crypto) Read.Roomy Read.Sys.init s) : ∀ b ∈ s.blocks, b.Fits :=
  Read.forall_blocks (by simp [Read.Sys.init]) (fun _ _ _ hg => hg.2.1) h

theorem answersNaive_of_inv (policy : FilterPolicy) (h : s.Inv crypto)
    (hfit : ∀ b ∈ s.blocks, b.Fits) : AnswersNaive policy crypto s.view s.blocks := by
  rcases h with ⟨⟨l, fbs, mbs, hst, hblocks⟩, hcont⟩
  have hslots : (0 : UInt64).toNat + slots s.blocks < 2 ^ 64 := by
    rcases hst.whole with ⟨height, hof⟩
    have hnext := hof.nextTx
    have hlt := s.view.mem.nextTx.toNat_lt
    dsimp only at hnext
    rw [hblocks]
    omega
  constructor
  . intro fam n
    rw [hst.chainRow_eq, ← hblocks, chainGet_table hcont hslots, map_fit_rowAt hfit]
    rfl
  . intro key n hkey hn
    rw [hst.latest_eq policy hkey hn, ← hblocks]
  . intro hash
    rw [Read.txNumByHash, hst.lookupNum_eq policy (.txHash hash), ← hblocks]
  . intro hash
    rw [Read.heightByHash, hst.lookupNum_eq policy (.blkHash hash), ← hblocks]
  . rintro hash blob ⟨b, hb, hmem⟩ hsame
    have hone := hst.code_oneOf policy hash.val
    rw [← hblocks] at hone
    have hcodes : ∀ blob', blob' ∈ (table crypto 0 s.blocks).codes hash.val ↔
        ∃ b ∈ s.blocks, ∃ h : Hash, (h, blob') ∈ b.code ∧ h.val = hash.val := by
      intro blob'
      rw [Table.mem_codes, mem_code_table hcont]
    cases hcode : Read.code policy s.view hash.val with
    | none =>
      rw [hcode] at hone
      have hnil : (table crypto 0 s.blocks).codes hash.val = [] := hone
      have hin := (hcodes blob).mpr ⟨b, hb, hash, hmem, rfl⟩
      rw [hnil] at hin
      cases hin
    | some blob' =>
      rw [hcode] at hone
      rcases (hcodes blob').mp hone with ⟨b', hb', h', hmem', hval⟩
      have hh : h' = hash := Subtype.ext hval
      rw [hh] at hmem'
      rw [hsame b' hb' blob' hmem']

/--
After every run of writes, cuts, seals and merges the store answers as the naive model.
-/
theorem answersNaive_of_roomy (policy : FilterPolicy) {crypto : Crypto} {s : Read.Sys}
    (h : Reachable (Read.step crypto) Read.Roomy Read.Sys.init s)
    : AnswersNaive policy crypto s.view s.blocks := by
  exact answersNaive_of_inv policy (Read.inv_of_reachable (h.mono fun _ _ => Read.room_of_roomy)) (fits_of_roomy h)

theorem good_goodLog : Memtable.Good goodLog := ⟨fun _ => rfl, fun _ => rfl⟩

def mergedAndWindow : List Read.Event :=
  [.write goodLog (logBlock 1), .cut, .publish,
    .write goodLog (logBlock 2), .cut, .publish, .merge 0 2,
    .write goodLog (logBlock 3)]

instance (b : BlockWrite) : Decidable b.Fits := inferInstanceAs (Decidable (∀ val ∈ b.chainVals, val.length < 2 ^ 32))

instance (s : Read.Sys) (e : Read.Event) : Decidable (Read.Roomy s e) :=
  match e with
  | .write _ _ => inferInstanceAs (Decidable (_ ∧ _ ∧ _))
  | .cut | .publish | .merge _ _ => .isTrue trivial

def Read.runs (crypto : Crypto) (es : List Read.Event) : Option Read.Sys :=
  Transition.run (fun s e => if decide (Read.Roomy s e) then Read.step crypto s e else none) Read.Sys.init es

theorem Read.reachable_of_roomy {es : List Read.Event} (hrun : Read.runs crypto es = some s)
    : Reachable (Read.step crypto) Read.Roomy Read.Sys.init s :=
  Reachable.run_checked (fun _ _ => of_decide_eq_true) .init hrun

theorem answersNaive_mergedAndWindow
    : ∃ s, Transition.run (Read.step emptyBlockCrypto) Read.Sys.init mergedAndWindow = some s ∧
        s.view.runs.length = 1 ∧ s.blocks.length = 3 ∧
        AnswersNaive exactPolicy emptyBlockCrypto s.view s.blocks := by
  have hrun : (Read.runs emptyBlockCrypto mergedAndWindow).map (fun s => (s.view.runs.length, s.blocks.length)) = some (1, 3) := by
    decide +kernel
  rw [Option.map_eq_some_iff] at hrun
  rcases hrun with ⟨s, hrun, hlen⟩
  rw [Prod.mk.injEq] at hlen
  exact ⟨s, run_of_run_checked hrun, hlen.1, hlen.2, answersNaive_of_roomy exactPolicy (Read.reachable_of_roomy hrun)⟩

def receiptBlock (receipt : Bytes) : BlockWrite where
  height := 1
  headerRLP := [0xc0]
  pvm := []
  txs := [⟨zeroHash, [0xc0], receipt, [], [], [], none, none, none, []⟩]
  code := []
  tail := []

theorem Memtable.add_receiptBlock (receipt : Bytes)
    : ∃ m, (Memtable.add emptyBlockCrypto goodLog (receiptBlock receipt)).run
        (Memtable.fresh .window 0 0) = .ok () m :=
  (inOrder_fresh .window 0 0).add good_goodLog (by simp [fresh, reset, clear]) (.inr ⟨rfl, rfl⟩) ⟨_, rfl⟩
    (show 0 + 2 < 2 ^ 64 by decide)

theorem chainRow_receiptBlock (receipt : Bytes)
    : ∃ s, Reachable (Read.step emptyBlockCrypto) (fun _ _ => True) Read.Sys.init s ∧
        s.view.frozen = none ∧ Read.chainRow exactPolicy s.view .rcpt 0 false = some (fit receipt) ∧
        rowAt 0 s.blocks .rcpt 0 = some receipt := by
  rcases add_receiptBlock receipt with ⟨m, hm⟩
  have hstep : Read.step emptyBlockCrypto Read.Sys.init (.write goodLog (receiptBlock receipt)) =
      some ⟨⟨m, none, []⟩, [receiptBlock receipt]⟩ := by
    simp only [Read.step, Read.Sys.init]
    rw [hm]
    rfl
  refine ⟨_, .step .init trivial hstep, rfl, ?_, rfl⟩
  have hroom : Read.Room Read.Sys.init (.write goodLog (receiptBlock receipt)) := by
    simp [Read.Room, Read.Sys.init, slots, BlockWrite.slots, BlockWrite.HasNext, receiptBlock]
  rcases Read.inv_step (Read.inv_init emptyBlockCrypto) hroom hstep with ⟨⟨l, fbs, mbs, hst, hblocks⟩, hcont⟩
  have hrow := hst.chainRow_eq exactPolicy .rcpt 0
  rw [← hblocks, chainGet_table hcont (by simpa [Read.Room, Read.Sys.init, slots] using hroom.1)] at hrow
  exact hrow

theorem long_receipt_is_cut
    : ∃ s, Reachable (Read.step emptyBlockCrypto) (fun _ _ => True) Read.Sys.init s ∧
        s.view.frozen = none ∧ Read.chainRow exactPolicy s.view .rcpt 0 false = some [] ∧
        rowAt 0 s.blocks .rcpt 0 = some (List.replicate (2 ^ 32) 0) := by
  have hfit : fit (List.replicate (2 ^ 32) 0) = [] := by
    unfold fit
    rw [length_replicate]
    exact take_zero
  rw [← hfit]
  exact chainRow_receiptBlock _

end EpochDB.Store
