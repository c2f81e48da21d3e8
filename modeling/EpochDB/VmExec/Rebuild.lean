import EpochDB.VmExec.Expand
import EpochDB.VmExec.Refine

/-!
What recovery from the rows leaves under every key, and when that is what execution left.
-/

theorem List.getLast?_filterMap_flatMap {κ β γ : Type} [DecidableEq κ] {f : β → Option γ} {g : κ → List β}
    (k : κ) (keys : List κ) (h : ∀ k', k' ≠ k → (g k').filterMap f = [])
    : ((keys.flatMap g).filterMap f).getLast? =
        if k ∈ keys then ((g k).filterMap f).getLast? else none := by
  induction keys with
  | nil => rfl
  | cons k' keys ih =>
    rw [flatMap_cons, filterMap_append, getLast?_append, ih]
    by_cases hk : k' = k
    . subst hk
      rw [if_pos mem_cons_self]
      split
      . exact Option.or_self
      . rfl
    . have hk' : k ≠ k' := Ne.symm hk
      simp [h k' hk, hk']

theorem List.getLast?_filterMap_eq {β γ : Type} {f : β → Option γ} {p : β → Bool} {g : β → γ}
    (h : ∀ b, f b = if p b then some (g b) else none) (l : List β)
    : (l.filterMap f).getLast? = (l.filter p).getLast?.map g := by
  have hf : f = fun b => if p b then some (g b) else none := funext h
  rw [hf, ← getLast?_map]
  congr 1
  induction l with
  | nil => rfl
  | cons b l ih =>
    rw [filterMap_cons, ih]
    cases hp : p b <;> simp [hp]

namespace EpochDB.VmExec

open List Option
open Store (Addr Hash Crypto)
open Latest FlatWrite

section

variable {Account : Type} (codec : Codec Account) (crypto : Crypto)

def writes (ws : List (Nat × Write Account)) : List (FlatWrite Hash Hash Bytes) :=
  (ws.filterMap (fun w => w.2.op codec crypto)).map Op.write

def RowsClear (ws : List (Nat × Write Account)) (ah sh : Hash) : Prop :=
  lastAccount ah (writes codec crypto ws) = some none ∨
    ∃ n, 0 < n ∧ lastAccount ah (writes codec crypto (ws.filter (fun w => w.1 = n))) = some none ∧
      ∀ w ∈ ws, ∀ val, w.2.op codec crypto = some ⟨.slot ah sh, val⟩ → w.1 < n

variable {codec crypto}

theorem zipIdx_numbered_spec (txs : List (List (Write Account))) (first : Nat)
    : ((txs.zipIdx first).flatMap (fun (ws, n) => ws.map (fun w => (n, w)))).Pairwise (fun w w' => w.1 ≤ w'.1) ∧
        ∀ w ∈ (txs.zipIdx first).flatMap (fun (ws, n) => ws.map (fun w => (n, w))),
          first ≤ w.1 ∧ w.1 < first + txs.length := by
  induction txs generalizing first with
  | nil => simp
  | cons ws txs ih =>
    rcases ih (first + 1) with ⟨hs, hbound⟩
    rw [zipIdx_cons, flatMap_cons]
    constructor
    . rw [pairwise_append]
      refine ⟨pairwise_map.mpr (pairwise_of_forall (fun _ _ => Nat.le_refl _)), hs, ?_⟩
      intro w hw w' hw'
      rw [List.mem_map] at hw
      rcases hw with ⟨w, -, rfl⟩
      have := hbound w' hw'
      dsimp only
      omega
    . intro w hw
      rw [List.mem_append, List.mem_map] at hw
      rw [length_cons]
      rcases hw with ⟨w, -, rfl⟩ | hw
      . dsimp only
        omega
      . have := hbound w hw
        omega

theorem Block.numbered_spec (b : Block Account) (first : Nat)
    : (b.numbered first).Pairwise (fun w w' => w.1 ≤ w'.1) ∧
        ∀ w ∈ b.numbered first, first ≤ w.1 ∧ w.1 < first + b.slots := by
  have := zipIdx_numbered_spec (b.txs ++ [b.tail]) first
  rw [length_append, length_singleton] at this
  exact this

theorem numbered_spec (bs : List (Block Account)) (first : Nat)
    : (numbered first bs).Pairwise (fun w w' => w.1 ≤ w'.1) ∧
        ∀ w ∈ numbered first bs, first ≤ w.1 ∧ w.1 < first + (bs.map Block.slots).sum := by
  induction bs generalizing first with
  | nil => simp [numbered]
  | cons b bs ih =>
    rcases ih (first + b.slots) with ⟨hs, hbound⟩
    have hb := b.numbered_spec first
    rw [numbered, map_cons, sum_cons]
    constructor
    . rw [pairwise_append]
      refine ⟨hb.1, hs, ?_⟩
      intro w hw w' hw'
      have := hb.2 w hw
      have := hbound w' hw'
      omega
    . intro w hw
      rw [mem_append] at hw
      rcases hw with hw | hw
      . have := hb.2 w hw
        omega
      . have := hbound w hw
        omega

theorem zipIdx_numbered_map_snd (txs : List (List (Write Account))) (first : Nat)
    : ((txs.zipIdx first).flatMap (fun (ws, n) => ws.map (fun w => (n, w)))).map (·.2) = txs.flatten := by
  induction txs generalizing first with
  | nil => simp
  | cons ws txs ih =>
    rw [zipIdx_cons, flatMap_cons, map_append, ih]
    simp

theorem numbered_map_snd (b : Block Account) (first : Nat) : (b.numbered first).map (·.2) = b.txs.flatten ++ b.tail := by
  rw [Block.numbered, zipIdx_numbered_map_snd]
  simp

theorem flatMap_ops (bs : List (Block Account)) (first : Nat)
    : bs.flatMap (Block.ops codec crypto) =
        (numbered first bs).filterMap (fun w => w.2.op codec crypto) := by
  induction bs generalizing first with
  | nil => rfl
  | cons b bs ih =>
    rw [flatMap_cons, numbered, filterMap_append, ih (first + b.slots)]
    rw [Block.ops, ← numbered_map_snd b first, filterMap_map]
    rfl

theorem execute_eq (e : Engine) (bs : List (Block Account))
    : e.execute codec crypto bs = e.applyOverlay (bs.flatMap (Block.ops codec crypto)) := by
  induction bs generalizing e with
  | nil => rfl
  | cons b bs ih =>
    have := ih (e.applyOverlay (b.ops codec crypto))
    rw [flatMap_cons, Engine.applyOverlay, foldl_append]
    exact this

def Write.value (codec : Codec Account) : Write Account → Option Bytes
  | account _ acc => acc.map codec.accountRow
  | code .. => none
  | slot _ _ val => View.live (some val)

variable {w : Write Account} {addr : Addr} {ws : List (Nat × Write Account)} {k : RowKey} {s : Scan} {ah sh : Hash} {keys : List RowKey}

theorem Write.value_account_eq_none (h : w.key = .account addr) : w.value codec = none ↔ w.val codec = [] := by
  cases w with
  | account addr acc =>
    cases acc with
    | none => simp [value, val]
    | some acc => simp [value, val, codec.encode_ne]
  | code addr hash => cases h
  | slot addr k val => cases h

theorem live_accountRow (acc : Account) : View.live (some (codec.accountRow acc)) = some (codec.accountRow acc) :=
  View.live_eq_self (by simpa using codec.accountRow_ne acc)

structure Distinct (crypto : Crypto) : Prop where
  addr : Function.Injective (addrHash crypto)
  slot : Function.Injective (slotHash crypto)

theorem Distinct.accountValue_op (h : Distinct crypto) (addr : Addr) (w : Write Account)
    : ((w.op codec crypto).map Op.write).bind (accountValue (addrHash crypto addr)) =
        if w.key = .account addr then some (w.value codec) else none := by
  cases w with
  | account a acc =>
    have hinj : addrHash crypto a = addrHash crypto addr ↔ a = addr := h.addr.eq_iff
    cases acc with
    | none =>
      have hlive : View.live (some []) = none := rfl
      simp [Write.op, Op.write, accountValue, Write.key, Write.value, hinj, hlive]
    | some acc => simp [Write.op, Op.write, accountValue, Write.key, Write.value, hinj, live_accountRow]
  | code a hash => simp [Write.op, Write.key]
  | slot a k val => simp [Write.op, Op.write, accountValue, Write.key]

theorem Distinct.slotValue_op (h : Distinct crypto) (addr : Addr) (k : Hash) (w : Write Account)
    : ((w.op codec crypto).map Op.write).bind (slotValue (addrHash crypto addr) (slotHash crypto k)) =
        if w.key = .slot addr k then some (w.value codec) else none := by
  cases w with
  | account a acc => cases acc <;> simp [Write.op, Op.write, slotValue, Write.key]
  | code a hash => simp [Write.op, Write.key]
  | slot a k' val =>
    have hinj : addrHash crypto a = addrHash crypto addr ↔ a = addr := h.addr.eq_iff
    have hinj' : slotHash crypto k' = slotHash crypto k ↔ k' = k := h.slot.eq_iff
    simp [Write.op, Op.write, slotValue, Write.key, Write.value, hinj, hinj']

theorem writes_filterMap {γ : Type} (f : FlatWrite Hash Hash Bytes → Option γ) (ws : List (Nat × Write Account))
    : (writes codec crypto ws).filterMap f =
        ws.filterMap (fun w => ((w.2.op codec crypto).map Op.write).bind f) := by
  unfold writes
  rw [map_filterMap, filterMap_filterMap]

theorem Distinct.lastAccount_writes (h : Distinct crypto) (addr : Addr) (ws : List (Nat × Write Account))
    : lastAccount (addrHash crypto addr) (writes codec crypto ws) =
        (lastWrite (.account addr) ws).map (fun w => w.2.value codec) := by
  rw [lastAccount, writes_filterMap, lastWrite]
  apply getLast?_filterMap_eq
  intro w
  rw [h.accountValue_op]
  simp

theorem Distinct.lastSlot_writes (h : Distinct crypto) (addr : Addr) (k : Hash) (ws : List (Nat × Write Account))
    : lastSlot (addrHash crypto addr) (slotHash crypto k) (writes codec crypto ws) =
        (lastWrite (.slot addr k) ws).map (fun w => w.2.value codec) := by
  rw [lastSlot, writes_filterMap, lastWrite]
  apply getLast?_filterMap_eq
  intro w
  rw [h.slotValue_op]
  simp

theorem lastWrite_isSome {w : Nat × Write Account} (hw : w ∈ ws) (hkey : w.2.key = k) : (lastWrite k ws).isSome = true := by
  rw [isSome_iff_ne_none, lastWrite, Ne, getLast?_eq_none_iff]
  apply ne_nil_of_mem (a := w)
  simp [hw, hkey]

theorem Scan.Newest.finds (h : s.Newest (recorded (ws.map (row codec)))) (hs : ws.Pairwise (fun w w' => w.1 ≤ w'.1))
    : s.Finds codec ws := by
  intro k
  rw [h.lookup (List.pairwise_map.mpr hs), List.filter_map, List.getLast?_map, Option.map_map]
  rfl

theorem Distinct.mem_recorded_delete (h : Distinct crypto) (ws : List (Nat × Write Account)) (addr : Addr) (n : Nat)
    : ⟨.account addr, n, []⟩ ∈ recorded (ws.map (row codec)) ↔
        lastAccount (addrHash crypto addr) (writes codec crypto (ws.filter (fun w => w.1 = n))) = some none := by
  rw [mem_recorded, h.lastAccount_writes, lastWrite, List.filter_map, List.getLast?_map, List.filter_filter]
  have hp : (fun w : Nat × Write Account => decide (w.2.key = .account addr) && decide (w.1 = n)) =
      (fun r : Row => decide (r.key = .account addr ∧ r.tx = n)) ∘ row codec := by
    funext w
    rw [Bool.eq_iff_iff, Bool.and_eq_true, decide_eq_true_eq, decide_eq_true_eq]
    exact (decide_eq_true_iff).symm
  rw [hp]
  cases hlast : (ws.filter ((fun r : Row => decide (r.key = .account addr ∧ r.tx = n)) ∘ row codec)).getLast? with
  | none => simp
  | some w =>
    have hw : w.2.key = .account addr ∧ w.1 = n :=
      of_decide_eq_true (mem_filter.mp (mem_of_getLast? hlast)).2
    simp only [map_some, Option.some.injEq, Write.value_account_eq_none hw.1, row, Row.mk.injEq]
    tauto

theorem mem_rowOps {op : Op} (h : op ∈ rowOps codec crypto s ws k)
    : (∃ addr, k = .account addr ∧ op.k = .account (addrHash crypto addr)) ∨
        (∃ addr slot, k = .slot addr slot ∧ op.k = .slot (addrHash crypto addr) (slotHash crypto slot)) ∧
          ∃ w ∈ ws, w.2.op codec crypto = some op := by
  unfold rowOps at h
  split at h
  . next addr hw =>
    rw [mem_singleton] at h
    exact .inl ⟨addr, (key_of_lastWrite hw).2.symm, by rw [h]⟩
  . next addr acc hw =>
    refine .inl ⟨addr, (key_of_lastWrite hw).2.symm, ?_⟩
    rw [mem_append, mem_singleton] at h
    rcases h with h | rfl
    . split at h
      . rw [mem_singleton] at h
        rw [h]
      . contradiction
    . rfl
  . next addr slot val hw =>
    split at h
    . contradiction
    . rw [mem_singleton] at h
      rcases key_of_lastWrite hw with ⟨hmem, hkey⟩
      exact .inr ⟨⟨addr, slot, hkey.symm, by rw [h]⟩, _, hmem, by rw [h]; rfl⟩
  . contradiction

structure Keys (ws : List (Nat × Write Account)) (keys : List RowKey) : Prop where
  sorted : keys.Pairwise (fun k k' => k.bytes ≤ k'.bytes)
  nodup : keys.Nodup
  mem : ∀ k, k ∈ keys ↔ lastWrite k ws ≠ none

def rowWrites (codec : Codec Account) (crypto : Crypto) (s : Scan) (ws : List (Nat × Write Account))
    (k : RowKey) : List (FlatWrite Hash Hash Bytes) :=
  (rowOps codec crypto s ws k).map Op.write

theorem accountValue_rowWrites (h : Distinct crypto) (s : Scan) (ws : List (Nat × Write Account)) (hk : k ≠ .account addr)
    : (rowWrites codec crypto s ws k).filterMap (accountValue (addrHash crypto addr)) = [] := by
  rw [rowWrites, filterMap_map, filterMap_eq_nil_iff]
  intro op hop
  rcases mem_rowOps hop with ⟨a, rfl, hopk⟩ | ⟨⟨a, k', rfl, hopk⟩, -⟩
  . have ha : addrHash crypto a ≠ addrHash crypto addr := by
      intro heq
      exact hk (by rw [h.addr heq])
    simp [Function.comp, Op.write, hopk, accountValue, ha]
  . simp [Function.comp, Op.write, hopk, accountValue]

theorem slotValue_rowWrites (s : Scan) (ws : List (Nat × Write Account))
    (hk : ∀ addr slot, k = .slot addr slot → ¬ (addrHash crypto addr = ah ∧ slotHash crypto slot = sh))
    : (rowWrites codec crypto s ws k).filterMap (slotValue ah sh) = [] := by
  rw [rowWrites, filterMap_map, filterMap_eq_nil_iff]
  intro op hop
  rcases mem_rowOps hop with ⟨a, rfl, hopk⟩ | ⟨⟨a, k', rfl, hopk⟩, -⟩
  . simp [Function.comp, Op.write, hopk, slotValue]
  . have := hk a k' rfl
    simp [Function.comp, Op.write, hopk, slotValue, this]

theorem delete_not_mem_rowWrites (h : Distinct crypto) (s : Scan) (ws : List (Nat × Write Account)) (hk : .account addr ∉ keys)
    : .account (addrHash crypto addr) none ∉ keys.flatMap (rowWrites codec crypto s ws) := by
  intro hmem
  rw [mem_flatMap] at hmem
  rcases hmem with ⟨k, hkmem, hmem⟩
  have hne : k ≠ .account addr := by
    rintro rfl
    exact hk hkmem
  have hnil : (rowWrites codec crypto s ws k).filterMap (accountValue (addrHash crypto addr)) = [] :=
    accountValue_rowWrites h s ws hne
  rw [filterMap_eq_nil_iff] at hnil
  have := hnil _ hmem
  simp [accountValue] at this

theorem Keys.lastAccount (hkeys : Keys ws keys) (h : Distinct crypto) (s : Scan) (addr : Addr)
    : FlatWrite.lastAccount (addrHash crypto addr) (keys.flatMap (rowWrites codec crypto s ws)) =
        (lastWrite (.account addr) ws).map (fun w => w.2.value codec) := by
  rw [FlatWrite.lastAccount, getLast?_filterMap_flatMap (.account addr) keys
    (fun k hk => accountValue_rowWrites h s ws hk)]
  cases hw : lastWrite (.account addr) ws with
  | none => rw [if_neg (fun hmem => (hkeys.mem _).mp hmem hw), map_none]
  | some w =>
    rw [if_pos ((hkeys.mem _).mpr (by simp [hw]))]
    rcases w with ⟨tx, w⟩
    have hkey := (key_of_lastWrite hw).2
    cases w with
    | account a acc =>
      cases hkey
      have hlive : View.live (some []) = none := rfl
      cases acc with
      | none => simp [rowWrites, rowOps, hw, Op.write, accountValue, Write.value, hlive]
      | some acc =>
        simp only [rowWrites, rowOps, hw]
        split
        . simp [Op.write, accountValue, Write.value, live_accountRow, hlive]
        . simp [Op.write, accountValue, Write.value, live_accountRow]
    | code a hash => cases hkey
    | slot a k val => cases hkey

def skipped (codec : Codec Account) (s : Scan) (ws : List (Nat × Write Account)) (addr : Addr) (tx : Nat)
    : Bool :=
  deletedLast codec addr ws || (s.dels.lookup addr).any (fun delTx => tx < delTx)

theorem Keys.lastSlot (hkeys : Keys ws keys) (h : Distinct crypto) (s : Scan) (addr : Addr) (k : Hash)
    : FlatWrite.lastSlot (addrHash crypto addr) (slotHash crypto k)
          (keys.flatMap (rowWrites codec crypto s ws)) =
        ((lastWrite (.slot addr k) ws).filter (fun w => !skipped codec s ws addr w.1)).map
          (fun w => w.2.value codec) := by
  rw [FlatWrite.lastSlot, getLast?_filterMap_flatMap (.slot addr k) keys]
  . cases hw : lastWrite (.slot addr k) ws with
    | none =>
      rw [if_neg (fun hmem => (hkeys.mem _).mp hmem hw)]
      rfl
    | some w =>
      rw [if_pos ((hkeys.mem _).mpr (by simp [hw]))]
      rcases w with ⟨tx, w⟩
      have hkey := (key_of_lastWrite hw).2
      cases w with
      | account a acc => cases hkey
      | code a hash => cases hkey
      | slot a k' val =>
        cases hkey
        simp only [rowWrites, rowOps, hw]
        by_cases hskip : skipped codec s ws addr tx = true
        . have hor := hskip
          simp only [skipped, Bool.or_eq_true] at hor
          rw [if_pos hor]
          simp [Option.filter, hskip]
        . have hor := hskip
          simp only [skipped, Bool.or_eq_true] at hor
          rw [if_neg hor]
          simp [Option.filter, hskip, Op.write, slotValue, Write.value]
  . intro k' hk'
    apply slotValue_rowWrites
    rintro a slot rfl ⟨ha, hslot⟩
    exact hk' (by rw [h.addr ha, h.slot hslot])

theorem lastSlot_writes_eq_none (hno : ∀ w ∈ ws, ∀ val, w.2.op codec crypto ≠ some ⟨.slot ah sh, val⟩)
    : FlatWrite.lastSlot ah sh (writes codec crypto ws) = none := by
  have hnil : (writes codec crypto ws).filterMap (slotValue ah sh) = [] := by
    rw [writes_filterMap, filterMap_eq_nil_iff]
    intro w hw
    cases hop : w.2.op codec crypto with
    | none => rfl
    | some op =>
      rcases op with ⟨k, v⟩
      cases k with
      | account a => rfl
      | slot a k =>
        have hne : ¬ (a = ah ∧ k = sh) := by
          rintro ⟨rfl, rfl⟩
          exact hno w hw v hop
        simp [Op.write, slotValue, hne]
  rw [FlatWrite.lastSlot, hnil]
  rfl

theorem lastSlot_rowWrites_eq_none
    (hno : ∀ w ∈ ws, ∀ val, w.2.op codec crypto ≠ some ⟨.slot ah sh, val⟩) (s : Scan) (keys : List RowKey)
    : FlatWrite.lastSlot ah sh (keys.flatMap (rowWrites codec crypto s ws)) = none := by
  have hnil : (keys.flatMap (rowWrites codec crypto s ws)).filterMap (slotValue ah sh) = [] := by
    rw [filterMap_eq_nil_iff]
    intro w hw
    rw [mem_flatMap] at hw
    rcases hw with ⟨k, -, hw⟩
    rw [rowWrites, List.mem_map] at hw
    rcases hw with ⟨⟨opk, v⟩, hop, rfl⟩
    rcases mem_rowOps hop with ⟨a, -, hk⟩ | ⟨⟨a, k', -, hk⟩, w, hw, hwop⟩
    . cases hk
      rfl
    . cases hk
      have hne : ¬ (addrHash crypto a = ah ∧ slotHash crypto k' = sh) := by
        rintro ⟨rfl, rfl⟩
        exact hno w hw v hwop
      simp [Op.write, slotValue, hne]
  rw [FlatWrite.lastSlot, hnil]
  rfl

theorem Keys.lastSlot_before {keys rest : List RowKey}
    (hkeys : Keys ws (keys ++ .account addr :: rest)) (h : Distinct crypto) (s : Scan) (sh : Hash)
    : FlatWrite.lastSlot (addrHash crypto addr) sh (keys.flatMap (rowWrites codec crypto s ws)) = none := by
  have hnil : (keys.flatMap (rowWrites codec crypto s ws)).filterMap (slotValue (addrHash crypto addr) sh) = [] := by
    rw [filterMap_eq_nil_iff]
    intro w hw
    rw [mem_flatMap] at hw
    rcases hw with ⟨k, hk, hw⟩
    have : (rowWrites codec crypto s ws k).filterMap (slotValue (addrHash crypto addr) sh) = [] := by
      apply slotValue_rowWrites
      rintro a slot rfl ⟨ha, -⟩
      rw [h.addr ha] at hk
      have hle := (pairwise_append.mp hkeys.sorted).2.2 _ hk (.account addr) (by simp)
      exact absurd hle (not_le.mpr (RowKey.account_lt_slot addr slot))
    rw [filterMap_eq_nil_iff] at this
    exact this w hw
  rw [FlatWrite.lastSlot, hnil]
  rfl

def deletes (codec : Codec Account) (s : Scan) (ws : List (Nat × Write Account)) (addr : Addr) : Bool :=
  deletedLast codec addr ws || (lastWrite (.account addr) ws).isSome && (s.dels.lookup addr).isSome

theorem Keys.cleared (hkeys : Keys ws keys) (h : Distinct crypto) (s : Scan) (addr : Addr) (sh : Hash)
    : FlatWrite.cleared (addrHash crypto addr) sh (keys.flatMap (rowWrites codec crypto s ws)) =
        (deletes codec s ws addr &&
          (FlatWrite.lastSlot (addrHash crypto addr) sh (keys.flatMap (rowWrites codec crypto s ws))).isNone) := by
  cases hw : lastWrite (.account addr) ws with
  | none =>
    rw [cleared_of_not_mem]
    . simp [deletes, deletedLast, hw]
    . exact delete_not_mem_rowWrites h s ws (fun hmem => (hkeys.mem _).mp hmem hw)
  | some w =>
    rcases mem_iff_append.mp ((hkeys.mem (.account addr)).mpr (by simp [hw])) with ⟨before, after, rfl⟩
    rcases w with ⟨tx, w⟩
    have hkey := (key_of_lastWrite hw).2
    have hnodup := nodup_append.mp hkeys.nodup
    have hafter : .account (addrHash crypto addr) none ∉ after.flatMap (rowWrites codec crypto s ws) :=
      delete_not_mem_rowWrites h s ws (nodup_cons.mp hnodup.2.1).1
    have hbefore : .account (addrHash crypto addr) none ∉ before.flatMap (rowWrites codec crypto s ws) :=
      delete_not_mem_rowWrites h s ws (fun hmem => hnodup.2.2 _ hmem _ (by simp) rfl)
    have hslots : FlatWrite.lastSlot (addrHash crypto addr) sh (rowWrites codec crypto s ws (.account addr)) = none := by
      rw [FlatWrite.lastSlot, slotValue_rowWrites s ws (by simp)]
      rfl
    rw [flatMap_append, flatMap_cons]
    rw [lastSlot_append_list, lastSlot_append_list, hkeys.lastSlot_before h, hslots]
    rw [← append_assoc, cleared_append_of_not_mem _ _ _ hafter]
    rw [or_none, or_none]
    congr 1
    cases w with
    | account a acc =>
      cases hkey
      cases acc with
      | none =>
        have hwrites : rowWrites codec crypto s ws (.account addr) = [.account (addrHash crypto addr) none] := by
          simp only [rowWrites, rowOps, hw]
          rfl
        rw [hwrites, cleared_append_delete]
        simp [deletes, deletedLast, hw, Write.val]
      | some acc =>
        have hput : ¬ FlatWrite.account (addrHash crypto addr) none ∈
            [Op.write ⟨.account (addrHash crypto addr), codec.accountRow acc⟩] := by
          simp [Op.write, live_accountRow]
        have hnone : FlatWrite.lastSlot (addrHash crypto addr) sh
            [Op.write ⟨.account (addrHash crypto addr), codec.accountRow acc⟩] = none := rfl
        have hlast : deletedLast codec addr ws = false := by
          simp [deletedLast, hw, Write.val, codec.encode_ne]
        rw [deletes, hlast, hw]
        cases hdel : s.dels.lookup addr with
        | none =>
          have hwrites : rowWrites codec crypto s ws (.account addr) =
              [Op.write ⟨.account (addrHash crypto addr), codec.accountRow acc⟩] := by
            simp [rowWrites, rowOps, hw, hdel]
          rw [hwrites, cleared_append_of_not_mem _ _ _ hput, cleared_of_not_mem _ _ hbefore]
          rfl
        | some delTx =>
          have hwrites : rowWrites codec crypto s ws (.account addr) =
              [.account (addrHash crypto addr) none] ++
                [Op.write ⟨.account (addrHash crypto addr), codec.accountRow acc⟩] := by
            simp only [rowWrites, rowOps, hw, hdel]
            rfl
          rw [hwrites, ← append_assoc, cleared_append_of_not_mem _ _ _ hput]
          rw [cleared_append_delete, hnone]
          rfl
    | code a hash => cases hkey
    | slot a k val => cases hkey

theorem Distinct.lastAccount_eq_some_none (h : Distinct crypto) (addr : Addr) (ws : List (Nat × Write Account))
    : lastAccount (addrHash crypto addr) (writes codec crypto ws) = some none ↔
        deletedLast codec addr ws = true := by
  rw [h.lastAccount_writes, deletedLast]
  cases hw : lastWrite (.account addr) ws with
  | none => simp
  | some w => simp [Write.value_account_eq_none (key_of_lastWrite hw).2]

theorem rowsClear_iff (h : Distinct crypto) (hdel : s.NewestDelete (recorded (ws.map (row codec)))) (addr : Addr) (sh : Hash)
    : RowsClear codec crypto ws (addrHash crypto addr) sh ↔
        deletedLast codec addr ws = true ∨
          ∃ n, s.dels.lookup addr = some n ∧
            ∀ w ∈ ws, ∀ val, w.2.op codec crypto = some ⟨.slot (addrHash crypto addr) sh, val⟩ → w.1 < n := by
  unfold RowsClear
  rw [h.lastAccount_eq_some_none]
  refine or_congr_right ?_
  constructor
  . rintro ⟨n, hpos, hat, hlt⟩
    have hmem := (h.mem_recorded_delete ws addr n).mpr hat
    have hle := hdel.bound addr n hmem
    cases hn : s.dels.lookup addr with
    | none =>
      rw [hn, getD_none] at hle
      omega
    | some m =>
      rw [hn, getD_some] at hle
      exact ⟨m, rfl, fun w hw val hop => Nat.lt_of_lt_of_le (hlt w hw val hop) hle⟩
  . rintro ⟨n, hn, hlt⟩
    rcases hdel.found addr n hn with ⟨hpos, hmem⟩
    exact ⟨n, hpos, (h.mem_recorded_delete ws addr n).mp hmem, hlt⟩

theorem Distinct.op_eq_slot (h : Distinct crypto) {k : Hash} {val : Bytes}
    (hop : w.op codec crypto = some ⟨.slot (addrHash crypto addr) (slotHash crypto k), val⟩)
    : w.key = .slot addr k := by
  cases w with
  | account a acc => cases acc <;> simp [Write.op] at hop
  | code a hash => simp [Write.op] at hop
  | slot a k' v =>
    simp only [Write.op, Option.some.injEq, Op.mk.injEq, Key.slot.injEq] at hop
    rw [Write.key, h.addr hop.1.1, h.slot hop.1.2]

theorem op_slot_image {val : Bytes} (hop : w.op codec crypto = some ⟨.slot ah sh, val⟩)
    : ∃ addr k, addrHash crypto addr = ah ∧ slotHash crypto k = sh := by
  cases w with
  | account a acc => cases acc <;> simp [Write.op] at hop
  | code a hash => simp [Write.op] at hop
  | slot a k' v =>
    simp only [Write.op, Option.some.injEq, Op.mk.injEq, Key.slot.injEq] at hop
    exact ⟨a, k', hop.1⟩

theorem le_of_lastWrite (hs : ws.Pairwise (fun w w' => w.1 ≤ w'.1)) {w w' : Nat × Write Account} (hlast : lastWrite k ws = some w) (hw' : w' ∈ ws)
    (hkey : w'.2.key = k) : w'.1 ≤ w.1 := by
  rcases getLast?_eq_some_iff.mp hlast with ⟨init, hinit⟩
  have hmem : w' ∈ init ++ [w] := by
    rw [← hinit, mem_filter]
    simp [hw', hkey]
  have hs' := hs.filter (fun w => decide (w.2.key = k))
  rw [hinit, pairwise_append] at hs'
  rw [mem_append, mem_singleton] at hmem
  rcases hmem with hmem | rfl
  . exact hs'.2.2 w' hmem w (by simp)
  . exact Nat.le_refl _

theorem Scan.NewestDelete.lastWrite_isSome (hdel : s.NewestDelete (recorded (ws.map (row codec)))) {n : Nat}
    (hn : s.dels.lookup addr = some n) : (lastWrite (.account addr) ws).isSome = true := by
  have hmem := mem_of_mem_recorded (hdel.found addr n hn).2
  rw [List.mem_map] at hmem
  rcases hmem with ⟨w, hw, hrow⟩
  exact VmExec.lastWrite_isSome hw (congrArg Row.key hrow)

theorem rowsClear_iff_skipped (h : Distinct crypto)
    (hdel : s.NewestDelete (recorded (ws.map (row codec)))) (hs : ws.Pairwise (fun w w' => w.1 ≤ w'.1))
    {k : Hash} {w : Nat × Write Account} (hw : lastWrite (.slot addr k) ws = some w)
    : RowsClear codec crypto ws (addrHash crypto addr) (slotHash crypto k) ↔
        skipped codec s ws addr w.1 = true := by
  rw [rowsClear_iff h hdel, skipped, Bool.or_eq_true, Option.any_eq_true]
  refine or_congr_right (exists_congr (fun n => and_congr_right (fun _ => ?_)))
  rw [decide_eq_true_eq]
  rcases key_of_lastWrite hw with ⟨hmem, hkey⟩
  constructor
  . intro hlt
    rcases w with ⟨tx, w⟩
    cases w with
    | account a acc => cases hkey
    | code a hash => cases hkey
    | slot a k' val =>
      cases hkey
      exact hlt _ hmem val rfl
  . intro hlt w' hw' val hop
    exact Nat.lt_of_le_of_lt (le_of_lastWrite hs hw hw' (h.op_eq_slot hop)) hlt

theorem rowsClear_iff_deletes (h : Distinct crypto) (hdel : s.NewestDelete (recorded (ws.map (row codec))))
    (hno : ∀ w ∈ ws, ∀ val, w.2.op codec crypto ≠ some ⟨.slot (addrHash crypto addr) sh, val⟩)
    : RowsClear codec crypto ws (addrHash crypto addr) sh ↔ deletes codec s ws addr = true := by
  rw [rowsClear_iff h hdel, deletes, Bool.or_eq_true, Bool.and_eq_true]
  refine or_congr_right ?_
  constructor
  . rintro ⟨n, hn, -⟩
    exact ⟨hdel.lastWrite_isSome hn, by rw [hn]; rfl⟩
  . rintro ⟨-, hsome⟩
    rcases isSome_iff_exists.mp hsome with ⟨n, hn⟩
    exact ⟨n, hn, fun w hw val hop => absurd hop (hno w hw val)⟩

theorem deletes_of_skipped (hdel : s.NewestDelete (recorded (ws.map (row codec)))) {tx : Nat}
    (hskip : skipped codec s ws addr tx = true) : deletes codec s ws addr = true := by
  rw [skipped, Bool.or_eq_true, Option.any_eq_true] at hskip
  rw [deletes, Bool.or_eq_true, Bool.and_eq_true]
  refine hskip.imp_right ?_
  rintro ⟨n, hn, -⟩
  exact ⟨hdel.lastWrite_isSome hn, by rw [hn]; rfl⟩

theorem op_of_not_addr (hah : ∀ addr, addrHash crypto addr ≠ ah) (w : Write Account) {op : Op}
    (hop : w.op codec crypto = some op) : op.k ≠ .account ah ∧ ∀ sh, op.k ≠ .slot ah sh := by
  cases w with
  | account a acc => cases acc <;> (cases hop; simp [hah a])
  | code a hash => cases hop
  | slot a k val =>
    cases hop
    simp [hah a]

theorem lastAccount_writes_of_not_addr (hah : ∀ addr, addrHash crypto addr ≠ ah)
    (ws : List (Nat × Write Account)) : lastAccount ah (writes codec crypto ws) = none := by
  have hacc : (writes codec crypto ws).filterMap (accountValue ah) = [] := by
    rw [writes_filterMap, filterMap_eq_nil_iff]
    intro w _
    cases hop : w.2.op codec crypto with
    | none => rfl
    | some op =>
      have hne := (op_of_not_addr hah w.2 hop).1
      rcases op with ⟨k, v⟩
      cases k with
      | account a =>
        have ha : a ≠ ah := fun heq => hne (by rw [heq])
        simp [Op.write, accountValue, ha]
      | slot a k => rfl
  rw [lastAccount, hacc]
  rfl

theorem lastAccount_rowWrites_of_not_addr (hah : ∀ addr, addrHash crypto addr ≠ ah) (s : Scan)
    (ws : List (Nat × Write Account)) (keys : List RowKey)
    : lastAccount ah (keys.flatMap (rowWrites codec crypto s ws)) = none := by
  have hacc : (keys.flatMap (rowWrites codec crypto s ws)).filterMap (accountValue ah) = [] := by
    rw [filterMap_eq_nil_iff]
    intro w hw
    rw [mem_flatMap] at hw
    rcases hw with ⟨k, -, hw⟩
    rw [rowWrites, List.mem_map] at hw
    rcases hw with ⟨op, hop, rfl⟩
    rcases mem_rowOps hop with ⟨a, -, hk⟩ | ⟨⟨a, k', -, hk⟩, -⟩
    . simp [Op.write, hk, accountValue, hah a]
    . simp [Op.write, hk, accountValue]
  rw [lastAccount, hacc]
  rfl

theorem Keys.slot_rebuilt (hkeys : Keys ws keys) (h : Distinct crypto) (hdel : s.NewestDelete (recorded (ws.map (row codec))))
    (hs : ws.Pairwise (fun w w' => w.1 ≤ w'.1)) (S : State) (ah sh : Hash)
    : (RowsClear codec crypto ws ah sh →
          (S.replay (keys.flatMap (rowWrites codec crypto s ws))).slot ah sh = none) ∧
        (¬ RowsClear codec crypto ws ah sh →
          (S.replay (keys.flatMap (rowWrites codec crypto s ws))).slot ah sh =
            (FlatWrite.lastSlot ah sh (writes codec crypto ws)).getD (S.slot ah sh)) := by
  rw [FlatState.slot_replay]
  by_cases hah : ∃ addr, addrHash crypto addr = ah
  . rcases hah with ⟨addr, rfl⟩
    rw [hkeys.cleared h]
    by_cases hsh : ∃ w ∈ ws, ∃ val, w.2.op codec crypto = some ⟨.slot (addrHash crypto addr) sh, val⟩
    . rcases hsh with ⟨w, hw, val, hop⟩
      rcases op_slot_image hop with ⟨-, k, -, rfl⟩
      cases hlast : lastWrite (.slot addr k) ws with
      | none =>
        have := lastWrite_isSome hw (h.op_eq_slot hop)
        rw [hlast] at this
        contradiction
      | some w' =>
        rw [rowsClear_iff_skipped h hdel hs hlast, hkeys.lastSlot h, h.lastSlot_writes, hlast]
        cases hskip : skipped codec s ws addr w'.1 with
        | true => simp [Option.filter, hskip, deletes_of_skipped hdel hskip]
        | false => simp [Option.filter, hskip]
    . have hno : ∀ w ∈ ws, ∀ val, w.2.op codec crypto ≠ some ⟨.slot (addrHash crypto addr) sh, val⟩ :=
        fun w hw val hop => hsh ⟨w, hw, val, hop⟩
      rw [rowsClear_iff_deletes h hdel hno, lastSlot_rowWrites_eq_none hno, lastSlot_writes_eq_none hno]
      cases deletes codec s ws addr <;> simp
  . have hah : ∀ addr, addrHash crypto addr ≠ ah := fun addr heq => hah ⟨addr, heq⟩
    have hno : ∀ w ∈ ws, ∀ val, w.2.op codec crypto ≠ some ⟨.slot ah sh, val⟩ :=
      fun w _ val hop => (op_of_not_addr hah w.2 hop).2 sh rfl
    rw [lastSlot_rowWrites_eq_none hno, lastSlot_writes_eq_none hno, cleared_of_not_mem]
    . refine ⟨?_, fun _ => by simp⟩
      rintro (hlast | ⟨n, -, hlast, -⟩)
      . rw [lastAccount_writes_of_not_addr hah] at hlast
        contradiction
      . rw [lastAccount_writes_of_not_addr hah] at hlast
        contradiction
    . intro hmem
      have := @lastAccount_rowWrites_of_not_addr _ codec _ _ hah s ws keys
      rw [FlatWrite.lastAccount, getLast?_eq_none_iff, filterMap_eq_nil_iff] at this
      simpa [accountValue] using this _ hmem

theorem Keys.account_rebuilt (hkeys : Keys ws keys) (h : Distinct crypto) (s : Scan) (S : State) (ah : Hash)
    : (S.replay (keys.flatMap (rowWrites codec crypto s ws))).account ah =
        (S.replay (writes codec crypto ws)).account ah := by
  rw [FlatState.account_replay, FlatState.account_replay]
  by_cases hah : ∃ addr, addrHash crypto addr = ah
  . rcases hah with ⟨addr, rfl⟩
    rw [hkeys.lastAccount h, h.lastAccount_writes]
  . have hah : ∀ addr, addrHash crypto addr ≠ ah := fun addr heq => hah ⟨addr, heq⟩
    rw [lastAccount_rowWrites_of_not_addr hah, lastAccount_writes_of_not_addr hah]

theorem Scan.keys_sorted (h : s.Finds codec ws)
    : Keys ws s.sorted where
  sorted := by
    have : Std.Total (fun k k' : RowKey => k.bytes ≤ k'.bytes) := ⟨fun k k' => le_total k.bytes k'.bytes⟩
    have : IsTrans RowKey (fun k k' => k.bytes ≤ k'.bytes) := ⟨fun _ _ _ => le_trans⟩
    exact pairwise_insertionSort _ _
  nodup := (perm_insertionSort _ _).nodup_iff.mpr s.latest.keys_nodup
  mem k := by
    rw [sorted, mem_insertionSort, ← AList.mem_keys, ← AList.lookup_isSome, h, isSome_map, isSome_iff_ne_none]

theorem Db.Holds.window {db : Db} {rolledAt first : Nat} {bs : List (Block Account)} (h : db.Holds codec rolledAt first bs)
    : ∃ lo hi, Engine.window db rolledAt (rolledAt + bs.length) = .ok (lo, hi) ∧
        (db.rows.filter (fun r => lo ≤ r.tx ∧ r.tx ≤ hi)).Perm
          (recorded ((numbered first bs).map (row codec))) := by
  rcases h.head with ⟨hi, hhead, hhi⟩
  refine ⟨if rolledAt = 0 then 0 else first, hi, ?_, ?_⟩
  . unfold Engine.window
    by_cases hr : rolledAt = 0
    . simp [hr] at hhead ⊢
      rw [hhead]
    . rcases h.rolled with h0 | ⟨end_, hend, hfirst⟩
      . contradiction
      . simp [hr, hend, Except.map, hhead, hfirst]
  . refine List.Perm.trans (List.Perm.of_eq ?_) h.rows
    congr 1
    funext r
    rw [Bool.eq_iff_iff, decide_eq_true_eq, decide_eq_true_eq]
    split <;> omega

theorem Db.Holds.rebuild {db : Db} {rolledAt first : Nat} {bs : List (Block Account)}
    (h : db.Holds codec rolledAt first bs) (e : Engine)
    : ∃ s keys, e.rebuild codec crypto db rolledAt (rolledAt + bs.length) =
          .ok (e.applyOverlay (keys.flatMap (rowOps codec crypto s (numbered first bs))),
            keys.flatMap (rowOps codec crypto s (numbered first bs))) ∧
        s.NewestDelete (recorded ((numbered first bs).map (row codec))) ∧ Keys (numbered first bs) keys := by
  rcases h.window with ⟨lo, hi, hwindow, hrows⟩
  rcases Scan.ofRows_spec lo hi db.rows with ⟨hnewest, hdel⟩
  have hfinds := (hnewest.perm hrows).finds (numbered_spec bs first).1
  have hkeys := Scan.keys_sorted hfinds
  refine ⟨Scan.ofRows lo hi db.rows, _, ?_, hdel.perm hrows, hkeys⟩
  have hstart : Cursor.Follows (Scan.ofRows lo hi db.rows) [] .start := rfl
  have hexpand : expand codec crypto (Scan.ofRows lo hi db.rows) (Scan.ofRows lo hi db.rows).sorted .start = _ :=
    expand_eq hfinds hstart hkeys.sorted (fun k => (hkeys.mem k).mp) (fun k => (hkeys.mem k).mpr)
  unfold Engine.rebuild
  rw [hwindow]
  dsimp only
  rw [hexpand]

/--
Recovery from the rows is execution exactly when, for every slot with a value, the account was deleted
after the slot's last write if and only if the rows have it cleared. The value is that of the slot's
last write after the roll, or else the rolled one.
-/
theorem rebuild_eq_execute_iff (h : Distinct crypto) {db : Db} {rolledAt first : Nat}
    {bs : List (Block Account)} (hdb : db.Holds codec rolledAt first bs) {run : Run} {S : State}
    (hrun : Shows (Engine.openEngine run).view S) {e : Engine} (he : Refines e S)
    : ∃ eng ws, (Engine.openEngine run).rebuild codec crypto db rolledAt (rolledAt + bs.length) = .ok (eng, ws) ∧
        ((∀ key : Key, eng.get key.bytes = (e.execute codec crypto bs).get key.bytes) ∧
            S.apply ws = S.apply (bs.flatMap (Block.ops codec crypto)) ↔
          ∀ ah sh, (lastSlot ah sh (writes codec crypto (numbered first bs))).getD (S.slot ah sh) = none ∨
            (cleared ah sh (writes codec crypto (numbered first bs)) = true ↔
              RowsClear codec crypto (numbered first bs) ah sh)) := by
  rcases hdb.rebuild (Engine.openEngine run) with ⟨s, keys, hrebuild, hdel, hkeys⟩
  have hopen : Refines (Engine.openEngine run) S := by
    refine ⟨hrun, ?_, ?_⟩
    . intro ah slotHash val hval
      contradiction
    . intro o ho
      contradiction
  refine ⟨_, _, hrebuild, ?_⟩
  have hrebuilt := hopen.applyOverlay (keys.flatMap (rowOps codec crypto s (numbered first bs)))
  have hexecuted := he.applyOverlay (bs.flatMap (Block.ops codec crypto))
  rw [← execute_eq] at hexecuted
  have hin : S.apply (bs.flatMap (Block.ops codec crypto)) =
      S.replay (writes codec crypto (numbered first bs)) := by
    rw [flatMap_ops bs first]
    rfl
  have hout : S.apply (keys.flatMap (rowOps codec crypto s (numbered first bs))) =
      S.replay (keys.flatMap (rowWrites codec crypto s (numbered first bs))) := by
    rw [State.apply, map_flatMap]
    rfl
  have hread : (∀ key : Key, (Engine.get ((Engine.openEngine run).applyOverlay
        (keys.flatMap (rowOps codec crypto s (numbered first bs)))) key.bytes) =
      (e.execute codec crypto bs).get key.bytes) ↔
      ∀ ah sh, (S.replay (keys.flatMap (rowWrites codec crypto s (numbered first bs)))).slot ah sh =
        (S.replay (writes codec crypto (numbered first bs))).slot ah sh := by
    simp only [Engine.get, hrebuilt.shows.get, hexecuted.shows.get, hin, hout]
    constructor
    . intro hall ah sh
      exact hall (.slot ah sh)
    . intro hall key
      cases key with
      | account ah => exact hkeys.account_rebuilt h s S ah
      | slot ah sh => exact hall ah sh
  have hstate : S.apply (keys.flatMap (rowOps codec crypto s (numbered first bs))) =
        S.apply (bs.flatMap (Block.ops codec crypto)) ↔
      ∀ ah sh, (S.replay (keys.flatMap (rowWrites codec crypto s (numbered first bs)))).slot ah sh =
        (S.replay (writes codec crypto (numbered first bs))).slot ah sh := by
    rw [hin, hout]
    constructor
    . intro heq ah sh
      rw [heq]
    . intro hall
      apply FlatState.ext
      . funext ah
        exact hkeys.account_rebuilt h s S ah
      . funext ah sh
        exact hall ah sh
  rw [hread, hstate, and_self]
  refine forall_congr' (fun ah => forall_congr' (fun sh => ?_))
  have hslot := hkeys.slot_rebuilt h hdel (numbered_spec bs first).1 S ah sh
  rw [FlatState.slot_replay S (writes codec crypto (numbered first bs))]
  by_cases hclear : RowsClear codec crypto (numbered first bs) ah sh
  . rw [hslot.1 hclear]
    cases cleared ah sh (writes codec crypto (numbered first bs)) <;> simp [hclear, eq_comm]
  . rw [hslot.2 hclear]
    cases cleared ah sh (writes codec crypto (numbered first bs)) <;> simp [hclear]

end

def padded : Crypto where
  keccak256 bs := ⟨(bs ++ List.replicate 32 0).take 32, by simp⟩
  sha256 bs := ⟨(bs ++ List.replicate 32 0).take 32, by simp⟩
  encodeList bs := 0xc0 :: bs

theorem distinct_padded : Distinct padded where
  addr a a' h := by
    have := congrArg (fun h => h.val.take 20) h
    have hmin : min 20 32 = 20 := rfl
    simp only [addrHash, padded, take_take, hmin] at this
    rw [take_left' a.property, take_left' a'.property] at this
    exact Subtype.ext this
  slot k k' h := by
    have := congrArg Subtype.val h
    simp only [slotHash, padded] at this
    rw [take_left' k.property, take_left' k'.property] at this
    exact Subtype.ext this

def nonceRoot : Codec (UInt8 × UInt8) where
  encode acc := [acc.1, acc.2]
  decode bs :=
    match bs with
    | [nonce, root] => .ok (nonce, root)
    | _ => .error "rlp: too few elements"
  accountRow acc := [acc.1]
  decode_encode _ := rfl
  encode_ne _ := by simp
  accountRow_ne _ := by simp

def holder : Addr := .fill 20 7

def held : Key := .slot (addrHash padded holder) (slotHash padded (.fill 32 9))

def holderAlloc : List Engine.GenesisAccount :=
  [⟨addrHash padded holder, [3], by simp, [(slotHash padded (.fill 32 9), .fill 32 5)]⟩]

def rolledRun : Run := View.merge ⟨[Engine.seed holderAlloc], []⟩

def rolledState : State := State.empty.apply (holderAlloc.flatMap Engine.GenesisAccount.ops)

def recreateBlock (n : Nat) : Block (UInt8 × UInt8) :=
  ⟨List.replicate n [] ++ [[.account holder none]], [.account holder (some (1, 0))]⟩

def recreateDb (n : Nat) : Db where
  rows := [⟨.account holder, n, []⟩, ⟨.account holder, n + 1, [1, 0]⟩]
  txNumAtEndOf height := if height = 1 then .ok (some (n + 1)) else .ok none

theorem rebuild_delete_at_zero
    : (recreateDb 0).Holds nonceRoot 0 0 [recreateBlock 0] ∧
        Shows (Engine.openEngine rolledRun).view rolledState ∧
        (((Engine.openEngine rolledRun).rebuild nonceRoot padded (recreateDb 0) 0 1).toOption.map
          (fun r => r.1.get held.bytes)) = some (some (List.replicate 32 5)) ∧
        ((Engine.openEngine rolledRun).execute nonceRoot padded [recreateBlock 0]).get held.bytes = none := by
  refine ⟨⟨.inl rfl, ⟨1, rfl, rfl⟩, .of_eq rfl⟩, (inv_init holderAlloc).refines.shows, ?_, ?_⟩
  . decide +kernel
  . decide +kernel

theorem rebuild_eq_execute_recreate
    : ∃ eng ws, (Engine.openEngine rolledRun).rebuild nonceRoot padded (recreateDb 1) 0 1 = .ok (eng, ws) ∧
        (∀ key : Key, eng.get key.bytes =
          ((Engine.openEngine rolledRun).execute nonceRoot padded [recreateBlock 1]).get key.bytes) ∧
        rolledState.apply ws = rolledState.apply ([recreateBlock 1].flatMap (Block.ops nonceRoot padded)) := by
  have hdb : (recreateDb 1).Holds nonceRoot 0 0 [recreateBlock 1] := ⟨.inl rfl, ⟨2, rfl, rfl⟩, .of_eq rfl⟩
  have hrefines := (inv_init holderAlloc).refines
  rcases rebuild_eq_execute_iff distinct_padded hdb hrefines.shows hrefines with ⟨eng, ws, hok, hiff⟩
  refine ⟨eng, ws, hok, hiff.mpr ?_⟩
  intro ah sh
  right
  have hwrites : writes nonceRoot padded (numbered 0 [recreateBlock 1]) =
      [.account (addrHash padded holder) none, .account (addrHash padded holder) (some [1])] := rfl
  have hone : writes nonceRoot padded ((numbered 0 [recreateBlock 1]).filter (fun w => w.1 = 1)) =
      [.account (addrHash padded holder) none] := rfl
  by_cases hah : addrHash padded holder = ah
  . subst hah
    refine iff_of_true (by simp [hwrites, cleared, clears]) (.inr ⟨1, by omega, ?_, ?_⟩)
    . rw [hone]
      simp [lastAccount, accountValue]
    . intro w hw val hop
      have hmem : w ∈ [(1, Write.account holder none), (2, Write.account holder (some ((1 : UInt8), (0 : UInt8))))] := hw
      simp only [mem_cons, not_mem_nil, or_false] at hmem
      rcases hmem with rfl | rfl <;> simp [Write.op] at hop
  . refine iff_of_false (by simp [hwrites, cleared, clears, hah]) ?_
    rintro (hlast | ⟨n, -, hlast, -⟩)
    . simp [hwrites, lastAccount, accountValue, hah] at hlast
    . have hmem := mem_of_getLast? hlast
      rw [writes_filterMap, mem_filterMap] at hmem
      rcases hmem with ⟨w, hw, hval⟩
      have hmem : w ∈ [(1, Write.account holder none), (2, Write.account holder (some ((1 : UInt8), (0 : UInt8))))] :=
        (mem_filter.mp hw).1
      simp only [mem_cons, not_mem_nil, or_false] at hmem
      rcases hmem with rfl | rfl <;> simp [Write.op, Op.write, accountValue, hah] at hval

end EpochDB.VmExec
