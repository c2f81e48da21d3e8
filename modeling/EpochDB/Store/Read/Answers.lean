import EpochDB.Store.Read.System

/-!
The reads of the store answer as the naive model over the blocks it took.
-/

namespace EpochDB.Store

open Sealed (FilterPolicy)

theorem Memtable.latestState_eq {m : Memtable} {t : Table} (hm : m.Shows t) (hb : t.Pairwise Row.Before) (key : Bytes)
    (n : UInt64) : m.latestState key n = t.latest key n := by
  have hrecord : m.history key = History.record MemVal.num (t.history key) := hm.history key
  unfold Memtable.latestState Table.latest
  rw [hrecord, History.latest_record MemVal.num (Table.history_pairwise hb key)]
  rfl

theorem Took.before {crypto : Crypto} {m : Memtable} {bs : List BlockWrite} (h : Took crypto m bs)
    : (table crypto m.baseTx bs).Pairwise Row.Before := by
  have htx := m.nextTx.toNat_lt
  rw [h.nextTx] at htx
  exact before_table h.consecutive htx

namespace Read

section Stored

variable {crypto : Crypto} {v : View} {l : RunBlocks} {fbs mbs : List BlockWrite}
  (policy : FilterPolicy) (h : Stored crypto v l fbs mbs)

include h

theorem Stored.or_eq {α : Type} (answer : Table → Option α) (hnil : answer [] = none)
    (happend : ∀ t t', answer (t ++ t') = (answer t').or (answer t)) {mem : Option α} {frozen : Memtable → Option α}
    {runs : Option α} (hmem : mem = answer (table crypto v.mem.baseTx mbs))
    (hfrozen : ∀ f, v.frozen = some f → frozen f = answer (table crypto f.baseTx fbs))
    (hruns : runs = answer (runTable crypto l))
    : mem.or ((v.frozen.bind frozen).or runs) = answer (table crypto 0 (l.flatMap (·.2) ++ fbs ++ mbs)) := by
  rw [h.table_eq, happend, happend, hmem, hruns]
  cases hf : v.frozen with
  | none => simp [hnil]
  | some f => simp [hfrozen f hf]

theorem Stored.contiguous : Sealed.contiguous (l.map (·.1)) = true := by
  have hchain := (List.isChain_append.mp h.chain).1
  unfold View.older at hchain
  rw [h.runs] at hchain
  exact contiguous_of_chain h.holds (List.isChain_append.mp hchain).1

theorem Stored.chainRow_eq (fam : Fam) (n : UInt64)
    : chainRow policy v fam n (byHeight fam) = (table crypto 0 (l.flatMap (·.2) ++ fbs ++ mbs)).chainGet fam n := by
  unfold chainRow
  refine h.or_eq (fun t => t.chainGet fam n) rfl (fun t t' => Table.chainGet_append t t' fam n) (h.mem.shows.chain fam n) ?_ ?_
  . intro f hf
    exact (h.frozen f hf).1.shows.chain fam n
  . rw [h.runs]
    exact runChainRow_eq policy h.holds h.contiguous fam n

theorem Stored.lookupNum_eq {key : Bytes} (hkey : NumKey key)
    : lookupNum policy v key = .ok ((table crypto 0 (l.flatMap (·.2) ++ fbs ++ mbs)).lookupNum key) := by
  have hor : (v.mem.lookupNum key).or ((v.frozen.bind (·.lookupNum key)).or ((runTable crypto l).lookupNum key)) =
      (table crypto 0 (l.flatMap (·.2) ++ fbs ++ mbs)).lookupNum key :=
    h.or_eq (fun t => t.lookupNum key) rfl (fun t t' => Table.lookupNum_append t t' key) (h.mem.shows.nums key)
      (fun f hf => (h.frozen f hf).1.shows.nums key) rfl
  unfold lookupNum
  rw [← hor, h.runs, runLookupNum_eq policy h.holds hkey]
  cases v.mem.lookupNum key with
  | some n => rfl
  | none =>
    cases v.frozen.bind (fun f => f.lookupNum key) with
    | some n => rfl
    | none => rfl

theorem Stored.latest_eq {key : Bytes} (hkey : StateKey key) {n : UInt64} (hn : n ≠ 18446744073709551615)
    : latest policy v key n = ((table crypto 0 (l.flatMap (·.2) ++ fbs ++ mbs)).latest key n).map (·.val) := by
  unfold latest
  congr 1
  refine h.or_eq (fun t => t.latest key n) rfl (fun t t' => Table.latest_append t t' key n) ?_ ?_ ?_
  . exact Memtable.latestState_eq h.mem.shows h.mem.before key n
  . intro f hf
    have htook := (h.frozen f hf).1
    exact Memtable.latestState_eq htook.shows htook.before key n
  . rw [h.runs]
    exact runLatest_eq policy h.holds hkey hn

theorem Stored.code_oneOf (hash : Bytes)
    : OneOf (code policy v hash) ((table crypto 0 (l.flatMap (·.2) ++ fbs ++ mbs)).codes hash) := by
  have hor : ∀ {a b : Option Bytes} {xs ys : List Bytes}, OneOf a xs → OneOf b ys → OneOf (a.or b) (ys ++ xs) := by
    intro a b xs ys ha hb
    cases a with
    | some a => exact List.mem_append_right _ ha
    | none =>
      have ha : xs = [] := ha
      rw [ha, List.append_nil]
      exact hb
  rw [h.table_eq, Table.codes_append, Table.codes_append]
  unfold code
  apply hor (h.mem.shows.code hash)
  apply hor
  . cases hf : v.frozen with
    | none => rfl
    | some f => exact (h.frozen f hf).1.shows.code hash
  . rw [h.runs]
    exact runCode_oneOf policy h.holds hash

end Stored

end Read

end EpochDB.Store
