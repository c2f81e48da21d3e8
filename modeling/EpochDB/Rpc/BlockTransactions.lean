import EpochDB.Rpc.Params
import EpochDB.Lib.Words

/-!
The pages of a block's transactions (`ots_getBlockTransactions` of `rpc/otterscan.go`).
-/

namespace EpochDB.Rpc

open List

structure Block (τ : Type) where
  number : UInt64
  txs : List τ
  small : txs.length < 2 ^ 63

structure Calls (τ ρ φ γ α β : Type) where
  blockParam : List Bytes → Except RpcError (Block τ)
  marshalBlock : Block τ → Except RpcError φ
  headerBaseFee : Block τ → Except RpcError γ
  blockTxRange : UInt64 → Except String (Option (UInt64 × UInt32))
  receiptOf : Block τ → γ → Nat → τ → UInt64 → Nat → Except RpcError (ρ × Nat)
  newRPCTransaction : Block τ → γ → τ → Nat → Option α
  marshalReceipt : Block τ → ρ → τ → Nat → Option β
  hash : τ → String

structure TransactionsPage (φ α β : Type) where
  fullblock : φ
  transactionCount : Nat
  transactions : List α
  receipts : List β

section

variable {τ ρ φ γ α β : Type} (sv : Calls τ ρ φ γ α β)

def errBadSender (tx : τ) (n : UInt64) : RpcError :=
  let hash := sv.hash tx
  errRead (s!"sender of tx {hash} in block {n} does not recover (corrupt container, " ++
    "or this node's chain id is not the one it was signed for)")

def receiptsFrom (blk : Block τ) (base : γ) (first : UInt64) (i logIndex : Nat) : List τ → Except RpcError (List ρ)
  | [] => .ok []
  | tx :: txs =>
    match sv.receiptOf blk base i tx (first + UInt64.ofNat i) logIndex with
    | .error e => .error e
    | .ok (r, logIndex) => (receiptsFrom blk base first (i + 1) logIndex txs).map (r :: ·)

def storedBlockReceipts (blk : Block τ) : Except RpcError (List ρ) :=
  match sv.blockTxRange blk.number with
  | .error e => .error (errRead e)
  | .ok range =>
    let (first, count) := range.getD (0, 0)
    if range.isNone || count.toNat ≠ blk.txs.length then
      .error (errRead (s!"block {blk.number} holds {blk.txs.length} transactions but its tx range covers {count} " ++
        s!"(stored={range.isSome})"))
    else
      match sv.headerBaseFee blk with
      | .error e => .error e
      | .ok base => receiptsFrom sv blk base first 0 0 blk.txs

def pageRows (blk : Block τ) (base : γ) : List ((τ × ρ) × Nat) → Except RpcError (List α × List β)
  | [] => .ok ([], [])
  | ((tx, r), i) :: rows =>
    match sv.newRPCTransaction blk base tx i with
    | none => .error (errBadSender sv tx blk.number)
    | some rt =>
      match sv.marshalReceipt blk r tx i with
      | none => .error (errBadSender sv tx blk.number)
      | some m => (pageRows blk base rows).map (fun p => (rt :: p.1, m :: p.2))

def otsBlockTransactions (js : Json) (params : List Bytes) : Except RpcError (TransactionsPage φ α β) := do
  let blk ← sv.blockParam params
  let pageNumber ← otsUintParam js params 1 "pageNumber"
  let pageSize ← otsPageSize js params 2
  let lo := min (pageNumber * pageSize) (UInt64.ofNat blk.txs.length)
  let hi := min (lo + pageSize) (UInt64.ofNat blk.txs.length)
  let fields ← sv.marshalBlock blk
  let base ← sv.headerBaseFee blk
  if hi > lo then
    let receipts ← storedBlockReceipts sv blk
    let (page, out) ← pageRows sv blk base (((blk.txs.zip receipts).zipIdx.drop lo.toNat).take (hi.toNat - lo.toNat))
    pure ⟨fields, blk.txs.length, page, out⟩
  else
    pure ⟨fields, blk.txs.length, [], []⟩

def pageOf (p size : Nat) (rows : List (τ × Nat)) : List (τ × Nat) :=
  rows.filter (fun row => p * size ≤ row.2 && row.2 < (p + 1) * size)

theorem filter_zipIdx {δ : Type} (l : List δ) (k a b : Nat)
    : (l.zipIdx k).filter (fun row => a ≤ row.2 && row.2 < b) = ((l.zipIdx k).take (b - k)).drop (a - k) := by
  induction l generalizing k with
  | nil => simp
  | cons x l ih =>
    rw [zipIdx_cons, filter_cons, ih (k + 1)]
    by_cases hb : k < b
    . have htake : b - k = b - (k + 1) + 1 := by omega
      by_cases ha : a ≤ k
      . have hdrop : a - k = 0 := by omega
        have hdrop' : a - (k + 1) = 0 := by omega
        simp [ha, hb, htake, hdrop, hdrop']
      . have hdrop : a - k = a - (k + 1) + 1 := by omega
        simp [ha, htake, hdrop]
    . have htake : b - k = 0 := by omega
      have htake' : b - (k + 1) = 0 := by omega
      simp [hb, htake, htake']

/--
The receipts of a block: the one of transaction `i` is read at its own TxNum, and its logs are numbered from where
those of the transactions before it end.
-/
structure OwnReceipts (blk : Block τ) (base : γ) (first : UInt64) (receipt : Nat → ρ) (logIndex : Nat → Nat) : Prop where
  range : ∃ count, sv.blockTxRange blk.number = .ok (some (first, count)) ∧ count.toNat = blk.txs.length
  start : logIndex 0 = 0
  read : ∀ row ∈ blk.txs.zipIdx,
    sv.receiptOf blk base row.2 row.1 (first + UInt64.ofNat row.2) (logIndex row.2) = .ok (receipt row.2, logIndex (row.2 + 1))

section

variable {sv : Calls τ ρ φ γ α β} {blk : Block τ} {base : γ} {first : UInt64} {receipt : Nat → ρ} {logIndex : Nat → Nat}

theorem receiptsFrom_eq {txs : List τ} {i : Nat} (h : ∀ row ∈ txs.zipIdx i,
      sv.receiptOf blk base row.2 row.1 (first + UInt64.ofNat row.2) (logIndex row.2) = .ok (receipt row.2, logIndex (row.2 + 1)))
    : receiptsFrom sv blk base first i (logIndex i) txs = .ok ((txs.zipIdx i).map (fun row => receipt row.2)) := by
  induction txs generalizing i with
  | nil => rfl
  | cons tx txs ih =>
    rw [zipIdx_cons, forall_mem_cons] at h
    rw [receiptsFrom, h.1, zipIdx_cons, map_cons]
    dsimp only
    rw [ih h.2]
    rfl

theorem OwnReceipts.storedBlockReceipts_eq (h : OwnReceipts sv blk base first receipt logIndex) (hbase : sv.headerBaseFee blk = .ok base)
    : storedBlockReceipts sv blk = .ok (blk.txs.zipIdx.map (fun row => receipt row.2)) := by
  rcases h.range with ⟨count, hrange, hcount⟩
  have hfrom := receiptsFrom_eq h.read
  rw [h.start] at hfrom
  unfold storedBlockReceipts
  rw [hrange]
  dsimp only [Option.getD_some, Option.isNone_some]
  rw [if_neg (by simp [hcount]), hbase]
  exact hfrom

theorem zip_receipts (txs : List τ) (receipt : Nat → ρ)
    : (txs.zip (txs.zipIdx.map (fun row => receipt row.2))).zipIdx = txs.zipIdx.map (fun row => ((row.1, receipt row.2), row.2)) := by
  apply ext_getElem <;> simp

theorem pageRows_eq {rows : List (τ × Nat)} (h : ∀ row ∈ rows,
      (sv.newRPCTransaction blk base row.1 row.2).isSome ∧ (sv.marshalReceipt blk (receipt row.2) row.1 row.2).isSome)
    : ∃ page out, pageRows sv blk base (rows.map (fun row => ((row.1, receipt row.2), row.2))) = .ok (page, out) ∧
        page.map some = rows.map (fun row => sv.newRPCTransaction blk base row.1 row.2) ∧
        out.map some = rows.map (fun row => sv.marshalReceipt blk (receipt row.2) row.1 row.2) := by
  induction rows with
  | nil => exact ⟨[], [], rfl, rfl, rfl⟩
  | cons row rows ih =>
    rw [forall_mem_cons] at h
    rcases ih h.2 with ⟨page, out, hrows, hpage, hout⟩
    rcases Option.isSome_iff_exists.mp h.1.1 with ⟨rt, hrt⟩
    rcases Option.isSome_iff_exists.mp h.1.2 with ⟨m, hm⟩
    refine ⟨rt :: page, m :: out, ?_, ?_, ?_⟩
    . rw [map_cons, pageRows, hrt]
      dsimp only
      rw [hm, hrows]
      rfl
    . simp [hpage, hrt]
    . simp [hout, hm]

end

def pageBounds (blk : Block τ) (p size : UInt64) : UInt64 × UInt64 :=
  let lo := min (p * size) (UInt64.ofNat blk.txs.length)
  (lo, min (lo + size) (UInt64.ofNat blk.txs.length))

theorem toNat_pageBounds (blk : Block τ) {p size : UInt64} (hsize : size.toNat ≤ 100)
    : (pageBounds blk p size).1.toNat = min (p.toNat * size.toNat % 2 ^ 64) blk.txs.length ∧
      (pageBounds blk p size).2.toNat = min ((pageBounds blk p size).1.toNat + size.toNat) blk.txs.length := by
  have hlen : (UInt64.ofNat blk.txs.length).toNat = blk.txs.length := by
    rw [UInt64.toNat_ofNat']
    exact Nat.mod_eq_of_lt (Nat.lt_trans blk.small (by decide))
  have hlo : (pageBounds blk p size).1.toNat = min (p.toNat * size.toNat % 2 ^ 64) blk.txs.length := by
    unfold pageBounds
    dsimp only
    rw [Words.toNat_min, UInt64.toNat_mul, hlen]
  refine ⟨hlo, ?_⟩
  have hsmall := blk.small
  change (min ((pageBounds blk p size).1 + size) (UInt64.ofNat blk.txs.length)).toNat = _
  rw [Words.toNat_min, UInt64.toNat_add, hlen, Nat.mod_eq_of_lt]
  omega

section

variable (blk : Block τ) {p size : UInt64}

/-- The transactions of a page, as the bounds of the page are computed. -/
def sliceOf (p size : UInt64) : List (τ × Nat) :=
  let (lo, hi) := pageBounds blk p size
  (blk.txs.zipIdx.drop lo.toNat).take (hi.toNat - lo.toNat)

theorem pageOf_eq_nil (hpast : blk.txs.length ≤ p.toNat * size.toNat) : pageOf p.toNat size.toNat blk.txs.zipIdx = [] := by
  unfold pageOf
  rw [filter_zipIdx, drop_eq_nil_iff, length_take, length_zipIdx]
  omega

theorem sliceOf_eq_pageOf (hsize : size.toNat ≤ 100)
    (h : p.toNat * size.toNat < 2 ^ 64 ∨ blk.txs.length ≤ p.toNat * size.toNat % 2 ^ 64)
    : sliceOf blk p size = pageOf p.toNat size.toNat blk.txs.zipIdx := by
  rcases toNat_pageBounds blk (p := p) hsize with ⟨hlo, hhi⟩
  unfold sliceOf
  dsimp only
  by_cases hpast : blk.txs.length ≤ p.toNat * size.toNat
  . have hempty : (pageBounds blk p size).1.toNat = blk.txs.length := by
      rw [hlo]
      rcases h with h | h
      . rw [Nat.mod_eq_of_lt h]
        omega
      . omega
    rw [pageOf_eq_nil blk hpast, hempty, drop_eq_nil_of_le (by simp), take_nil]
  . have hsmall := blk.small
    have hlo : (pageBounds blk p size).1.toNat = p.toNat * size.toNat := by
      rw [hlo, Nat.mod_eq_of_lt (by omega)]
      omega
    unfold pageOf
    rw [filter_zipIdx, ← drop_take, hhi, hlo, Nat.succ_mul, Nat.sub_zero, Nat.sub_zero]
    congr 1
    by_cases hfull : p.toNat * size.toNat + size.toNat ≤ blk.txs.length
    . rw [Nat.min_eq_left hfull]
    . rw [Nat.min_eq_right (by omega), take_of_length_le (by simp), take_of_length_le (by simp; omega)]

theorem sliceOf_ne_nil (hpos : 0 < size.toNat) (hsize : size.toNat ≤ 100) (h : p.toNat * size.toNat % 2 ^ 64 < blk.txs.length)
    : sliceOf blk p size ≠ [] := by
  rcases toNat_pageBounds blk (p := p) hsize with ⟨hlo, hhi⟩
  rw [← length_pos_iff]
  unfold sliceOf
  dsimp only
  rw [length_take, length_drop, length_zipIdx, hhi, hlo]
  omega

end

/--
A request that is answered: its parameters and the block are read and, for a page with rows, the receipts of the
block; the senders of the page's transactions recover.
-/
structure Answered (js : Json) (params : List Bytes) (blk : Block τ) (p size : UInt64) (fields : φ) (base : γ)
    (receipt : Nat → ρ) : Prop where
  blockParam : sv.blockParam params = .ok blk
  pageNumber : otsUintParam js params 1 "pageNumber" = .ok p
  pageSize : otsPageSize js params 2 = .ok size
  marshalBlock : sv.marshalBlock blk = .ok fields
  headerBaseFee : sv.headerBaseFee blk = .ok base
  receipts : sliceOf blk p size ≠ [] → ∃ first logIndex, OwnReceipts sv blk base first receipt logIndex
  senders : ∀ row ∈ sliceOf blk p size,
    (sv.newRPCTransaction blk base row.1 row.2).isSome ∧ (sv.marshalReceipt blk (receipt row.2) row.1 row.2).isSome

theorem otsBlockTransactions_eq {js : Json} {params : List Bytes} {blk : Block τ} {p size : UInt64} {fields : φ} {base : γ}
    {receipt : Nat → ρ} (h : Answered sv js params blk p size fields base receipt)
    : ∃ ans, otsBlockTransactions sv js params = .ok ans ∧ ans.transactionCount = blk.txs.length ∧
        ans.transactions.map some = (sliceOf blk p size).map (fun row => sv.newRPCTransaction blk base row.1 row.2) ∧
        ans.receipts.map some = (sliceOf blk p size).map (fun row => sv.marshalReceipt blk (receipt row.2) row.1 row.2) := by
  rcases pageRows_eq h.senders with ⟨page, out, hrows, hpage, hout⟩
  simp only [otsBlockTransactions, h.blockParam, h.pageNumber, h.pageSize, h.marshalBlock, h.headerBaseFee, bind, Except.bind]
  by_cases hnil : sliceOf blk p size = []
  . have hle : ¬ (pageBounds blk p size).2 > (pageBounds blk p size).1 := by
      unfold sliceOf at hnil
      dsimp only at hnil
      have hlen := congrArg List.length hnil
      have hhi : (pageBounds blk p size).2.toNat ≤ blk.txs.length := by
        unfold pageBounds
        dsimp only
        rw [Words.toNat_min, UInt64.toNat_ofNat_of_lt' (Nat.lt_trans blk.small (by decide))]
        omega
      rw [length_take, length_drop, length_zipIdx, length_nil] at hlen
      rw [gt_iff_lt, UInt64.lt_iff_toNat_lt]
      omega
    unfold pageBounds at hle
    rw [if_neg hle, hnil]
    exact ⟨_, rfl, rfl, rfl, rfl⟩
  . have hlt : (pageBounds blk p size).2 > (pageBounds blk p size).1 := by
      by_contra hle
      apply hnil
      rw [gt_iff_lt, UInt64.lt_iff_toNat_lt] at hle
      unfold sliceOf
      dsimp only
      rw [Nat.sub_eq_zero_of_le (by omega), take_zero]
    rcases h.receipts hnil with ⟨first, logIndex, hown⟩
    unfold sliceOf at hrows
    unfold pageBounds at hlt hrows
    dsimp only at hrows
    rw [if_pos hlt, hown.storedBlockReceipts_eq h.headerBaseFee]
    dsimp only
    rw [zip_receipts, ← map_drop, ← map_take, hrows]
    exact ⟨_, rfl, rfl, hpage, hout⟩

/--
A page has exactly the transactions with an index from `p * size` on and below `(p + 1) * size`, each with its own
receipt, exactly when the start of the page is below 2 ^ 64 or wraps past the end of the block.
-/
theorem otsBlockTransactions_iff (js : Json) {params : List Bytes} {blk : Block τ} {p size : UInt64} {fields : φ} {base : γ}
    {receipt : Nat → ρ} (h : Answered sv js params blk p size fields base receipt)
    : ∃ ans, otsBlockTransactions sv js params = .ok ans ∧ ans.transactionCount = blk.txs.length ∧
        ((ans.transactions.map some =
            (pageOf p.toNat size.toNat blk.txs.zipIdx).map (fun row => sv.newRPCTransaction blk base row.1 row.2) ∧
          ans.receipts.map some =
            (pageOf p.toNat size.toNat blk.txs.zipIdx).map (fun row => sv.marshalReceipt blk (receipt row.2) row.1 row.2)) ↔
          p.toNat * size.toNat < 2 ^ 64 ∨ blk.txs.length ≤ p.toNat * size.toNat % 2 ^ 64) := by
  rcases otsPageSize_eq_ok js params h.pageSize with ⟨hpos, hsize⟩
  rcases otsBlockTransactions_eq sv h with ⟨ans, hans, hcount, htxs, hreceipts⟩
  refine ⟨ans, hans, hcount, ?_⟩
  rw [htxs, hreceipts]
  constructor
  . rintro ⟨hsame, -⟩
    -- A page that wraps into the block has rows, the page it stands for has none.
    by_contra hwraps
    rw [not_or, Nat.not_lt, Nat.not_le] at hwraps
    have hsmall := blk.small
    rw [pageOf_eq_nil blk (by omega), map_nil, map_eq_nil_iff] at hsame
    exact sliceOf_ne_nil blk hpos hsize hwraps.2 hsame
  . intro hstart
    rw [sliceOf_eq_pageOf blk hsize hstart]
    exact ⟨rfl, rfl⟩

end

def decimal (raw : Bytes) : Option UInt64 :=
  (raw.foldlM (fun n c => if 48 ≤ c.toNat ∧ c.toNat < 58 then some (n * 10 + (c.toNat - 48)) else none) 0).bind
    (fun n => if n < 2 ^ 64 then some (UInt64.ofNat n) else none)

def numbers : Json := ⟨decimal, fun _ => .error "not a string", fun _ => .error "not in hex"⟩

theorem two_lt : ["a", "b"].length < 2 ^ 63 := by decide

def twoTransactions : Calls String (UInt64 × Nat) UInt64 Nat (String × Nat) (UInt64 × Nat) where
  blockParam := fun _ => .ok ⟨3, ["a", "b"], two_lt⟩
  marshalBlock := fun blk => .ok blk.number
  headerBaseFee := fun _ => .ok 25
  blockTxRange := fun _ => .ok (some (7, 2))
  receiptOf := fun _ _ _ _ txnum logIndex => .ok ((txnum, logIndex), logIndex + 1)
  newRPCTransaction := fun _ _ tx i => some (tx, i)
  marshalReceipt := fun _ r _ _ => some r
  hash := id

def pageParams (page size : List Char) : List Bytes := [.ofChars ['3'], .ofChars page, .ofChars size]

theorem answered_second
    : Answered twoTransactions numbers (pageParams ['1'] ['1']) ⟨3, ["a", "b"], two_lt⟩ 1 1 3 25 (fun i => (7 + UInt64.ofNat i, i)) :=
  ⟨rfl, rfl, rfl, rfl, rfl, fun _ => ⟨7, id, ⟨2, rfl, rfl⟩, rfl, by decide⟩, by decide⟩

theorem otsBlockTransactions_iff_second
    : ∃ ans, otsBlockTransactions twoTransactions numbers (pageParams ['1'] ['1']) = .ok ans ∧ ans.transactionCount = 2 ∧
        ((ans.transactions.map some = [some ("b", 1)] ∧ ans.receipts.map some = [some (8, 1)]) ↔
          (1 : UInt64).toNat * (1 : UInt64).toNat < 2 ^ 64 ∨ 2 ≤ (1 : UInt64).toNat * (1 : UInt64).toNat % 2 ^ 64) :=
  otsBlockTransactions_iff twoTransactions numbers answered_second

theorem otsBlockTransactions_wraps
    : ∃ ans, otsBlockTransactions twoTransactions numbers (pageParams (Nat.toDigits 10 (2 ^ 60)) ['1', '6']) = .ok ans ∧
        ans.transactions = [("a", 0), ("b", 1)] ∧ pageOf (2 ^ 60) 16 ["a", "b"].zipIdx = [] := by
  refine ⟨⟨3, 2, [("a", 0), ("b", 1)], [(7, 0), (8, 1)]⟩, rfl, rfl, rfl⟩

end EpochDB.Rpc
