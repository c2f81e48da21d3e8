import EpochDB.VmExec.Scan

/-!
The expansion of the scanned rows: a key's writes depend on what was scanned for its address alone.
-/

namespace EpochDB.VmExec

open List
open Store (Addr Hash Crypto)
open Latest

namespace RowKey

def kind : RowKey → Bytes
  | account _ => .ofChars ['/', 'a', '/']
  | code _ => .ofChars ['/', 'c', '/']
  | slot _ k => .ofChars ['/', 's', '/'] ++ k.val ++ .ofChars ['/']

theorem bytes_eq (k : RowKey) : k.bytes = Store.prefixState ++ (k.addr.val ++ k.kind) := by
  cases k <;> simp [bytes, addr, kind, Store.accountPrefix, Store.codeRefPrefix, Store.slotPrefix]

theorem bytes_lt_iff (k k' : RowKey)
    : k.bytes < k'.bytes ↔
        k.addr.val < k'.addr.val ∨ k.addr.val = k'.addr.val ∧ k.kind < k'.kind := by
  rw [bytes_eq, bytes_eq, Bytes.append_lt_append_iff rfl]
  rw [Bytes.append_lt_append_iff (by rw [k.addr.property, k'.addr.property])]
  simp

theorem addr_le_of_bytes_le {k k' : RowKey} (h : k.bytes ≤ k'.bytes) : k.addr.val ≤ k'.addr.val := by
  rw [← not_lt, bytes_lt_iff, not_or] at h
  exact not_lt.mp h.1

theorem account_lt_slot (a : Addr) (k : Hash) : (account a).bytes < (slot a k).bytes := by
  rw [bytes_lt_iff]
  right
  refine ⟨rfl, ?_⟩
  simp only [kind, Bytes.ofChars, map_cons, map_nil, cons_append, cons_lt_cons_iff]
  exact .inr ⟨trivial, .inl (by decide)⟩

end RowKey

section

variable {Account : Type} (codec : Codec Account) (crypto : Crypto)

def lastWrite (k : RowKey) (ws : List (Nat × Write Account)) : Option (Nat × Write Account) :=
  (ws.filter (fun w => w.2.key = k)).getLast?

variable {k : RowKey} {ws : List (Nat × Write Account)} {s : Scan} {done : List RowKey} {c : Cursor}

theorem key_of_lastWrite {w : Nat × Write Account} (h : lastWrite k ws = some w) : w ∈ ws ∧ w.2.key = k := by
  have := mem_filter.mp (mem_of_getLast? h)
  simpa using this

def Scan.Finds (s : Scan) (ws : List (Nat × Write Account)) : Prop :=
  ∀ k, s.latest.lookup k = (lastWrite k ws).map (fun w => (w.1, w.2.val codec))

def deletedLast (addr : Addr) (ws : List (Nat × Write Account)) : Bool :=
  (lastWrite (.account addr) ws).any (fun w => w.2.val codec = [])

def rowOps (s : Scan) (ws : List (Nat × Write Account)) (k : RowKey) : List Op :=
  match lastWrite k ws with
  | some (_, .account addr none) => [⟨.account (addrHash crypto addr), []⟩]
  | some (_, .account addr (some acc)) =>
    (if (s.dels.lookup addr).isSome then [⟨.account (addrHash crypto addr), []⟩] else []) ++
      [⟨.account (addrHash crypto addr), codec.accountRow acc⟩]
  | some (tx, .slot addr k val) =>
    if deletedLast codec addr ws ∨ (s.dels.lookup addr).any (fun delTx => tx < delTx) then
      []
    else
      [⟨.slot (addrHash crypto addr) (slotHash crypto k), val⟩]
  | _ => []

variable {codec crypto}

structure Cursor.At (s : Scan) (done : List RowKey) (addr : Addr) (c : Cursor) : Prop where
  cur : c.cur = some addr
  del : c.del = s.dels.lookup addr
  deleted : c.deleted = true ↔
    RowKey.account addr ∈ done ∧ ∃ tx, s.latest.lookup (.account addr) = some (tx, [])

def Cursor.Follows (s : Scan) (done : List RowKey) (c : Cursor) : Prop :=
  match done.getLast? with
  | none => c = .start
  | some k => c.At s done k.addr

theorem Cursor.Follows.visit (h : c.Follows s done) (hs : (done ++ [k]).Pairwise (fun k k' => k.bytes ≤ k'.bytes))
    : (c.visit s k.addr).At s done k.addr := by
  unfold Follows at h
  rcases eq_nil_or_concat done with rfl | ⟨init, last, rfl⟩
  . rw [getLast?_nil] at h
    subst h
    exact ⟨rfl, rfl, by simp [Cursor.visit, Cursor.start]⟩
  . rw [concat_eq_append] at *
    rw [getLast?_concat] at h
    dsimp only at h
    unfold Cursor.visit
    split
    . next hcur =>
      rw [h.cur] at hcur
      rw [← Option.some.inj hcur]
      exact h
    . next hcur =>
      rw [h.cur] at hcur
      refine ⟨rfl, rfl, ?_⟩
      simp only [Bool.false_eq_true, false_iff, not_and]
      -- the keys of an address stand together
      intro hmem
      exfalso
      rw [pairwise_append] at hs
      have hle := RowKey.addr_le_of_bytes_le (hs.2.2 last (by simp) k (by simp))
      rw [mem_append, mem_singleton] at hmem
      rcases hmem with hmem | hmem
      . have hinit := (pairwise_append.mp hs.1).2.2 _ hmem last (by simp)
        have hge := RowKey.addr_le_of_bytes_le hinit
        exact hcur (congrArg some (Subtype.ext (le_antisymm hle hge)))
      . rw [← hmem] at hcur
        exact hcur rfl

theorem Cursor.At.follows (h : c.At s done k.addr) (hk : ∀ addr tx, k = .account addr → s.latest.lookup k ≠ some (tx, []))
    : c.Follows s (done ++ [k]) := by
  unfold Follows
  rw [getLast?_concat]
  refine ⟨h.cur, h.del, ?_⟩
  rw [h.deleted, mem_append, mem_singleton]
  constructor
  . rintro ⟨hmem, hrow⟩
    exact ⟨.inl hmem, hrow⟩
  . rintro ⟨hmem | hmem, tx, hrow⟩
    . exact ⟨hmem, tx, hrow⟩
    . rw [hmem] at hrow
      exact absurd hrow (hk _ tx hmem.symm)

theorem Cursor.At.follows_delete {addr : Addr}
    (h : c.At s done addr) {tx : Nat} (hk : s.latest.lookup (.account addr) = some (tx, []))
    : Cursor.Follows s (done ++ [.account addr]) { c with deleted := true } := by
  unfold Follows
  rw [getLast?_concat]
  exact ⟨h.cur, h.del, by simpa [RowKey.addr] using ⟨tx, hk⟩⟩

theorem Scan.Finds.deletedLast_iff (h : s.Finds codec ws) (addr : Addr)
    : deletedLast codec addr ws = true ↔ ∃ tx, s.latest.lookup (.account addr) = some (tx, []) := by
  unfold deletedLast
  rw [h]
  cases lastWrite (.account addr) ws with
  | none => simp
  | some w => simp

theorem expand_eq (hfinds : s.Finds codec ws) {done keys : List RowKey} (hc : c.Follows s done)
    (hs : (done ++ keys).Pairwise (fun k k' => k.bytes ≤ k'.bytes))
    (hkeys : ∀ k ∈ keys, lastWrite k ws ≠ none)
    (hall : ∀ k, lastWrite k ws ≠ none → k ∈ done ++ keys)
    : expand codec crypto s keys c = .ok (keys.flatMap (rowOps codec crypto s ws)) := by
  induction keys generalizing done c with
  | nil => rfl
  | cons k keys ih =>
    have happend : done ++ k :: keys = done ++ [k] ++ keys := by simp
    rw [happend] at hs hall
    have hat := hc.visit (pairwise_append.mp hs).1
    have hkeys' : ∀ k' ∈ keys, lastWrite k' ws ≠ none := fun k' hk' => hkeys k' (by simp [hk'])
    cases hw : lastWrite k ws with
    | none => exact absurd hw (hkeys k (by simp))
    | some w =>
      rcases w with ⟨tx, w⟩
      have hrow : s.latest.lookup k = some (tx, w.val codec) := by
        rw [hfinds, hw]
        rfl
      have hkey : w.key = k := (key_of_lastWrite hw).2
      subst hkey
      rw [flatMap_cons]
      unfold expand
      rw [hrow]
      generalize c.visit s w.key.addr = c at hat ⊢
      cases w with
      | account addr acc =>
        cases acc with
        | none =>
          have := ih (hat.follows_delete hrow) hs hkeys' hall
          simp only [Write.key] at hw
          simp [Write.key, Write.val, this, rowOps, hw, Except.map]
        | some acc =>
          have hne := codec.encode_ne acc
          have := ih (hat.follows (fun _ tx' _ h => by rw [hrow] at h; simp [Write.val, hne] at h)) hs
            hkeys' hall
          simp only [Write.key] at hw
          simp [Write.key, Write.val, hne, codec.decode_encode, this, hat.del, rowOps, hw, Except.map, RowKey.addr]
      | code addr hash =>
        have := ih (hat.follows (by simp [Write.key])) hs hkeys' hall
        simp only [Write.key] at hw
        simp [Write.key, this, rowOps, hw]
      | slot addr k val =>
        have := ih (hat.follows (by simp [Write.key])) hs hkeys' hall
        have hdel : c.deleted = true ↔ deletedLast codec addr ws = true := by
          rw [hat.deleted, hfinds.deletedLast_iff]
          constructor
          . exact fun h => h.2
          . rintro ⟨tx', hacc⟩
            refine ⟨?_, tx', hacc⟩
            -- the account row precedes its slot rows
            have hmem := hall (.account addr) (by
              intro hnone
              rw [hfinds, hnone] at hacc
              contradiction)
            rw [append_assoc, mem_append] at hmem
            rcases hmem with hmem | hmem
            . exact hmem
            . rw [singleton_append, mem_cons] at hmem
              rcases hmem with hmem | hmem
              . cases hmem
              . have hle := (pairwise_append.mp hs).2.2 (.slot addr k) (by simp [Write.key]) _ hmem
                exact absurd hle (not_le.mpr (RowKey.account_lt_slot addr k))
        simp only [Write.key] at hw
        simp only [Write.key, Write.val, Option.getD_some, this, hdel, hat.del, rowOps, hw, RowKey.addr]
        split
        . rfl
        . rfl

end

end EpochDB.VmExec
