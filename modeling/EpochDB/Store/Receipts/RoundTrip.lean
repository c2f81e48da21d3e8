import EpochDB.Store.Receipts.Impl

/-!
A receipt row is read back as it was written, and no part of it is taken for a row.
-/

namespace EpochDB.Store.Receipts

open Reader

structure Receipt.Fits (mem : Nat) (r : Receipt) (cumulativeGasUsed : UInt64) : Prop where
  row : (encodeTxReceipt r cumulativeGasUsed).length ≤ mem
  logs : storedLogSize * r.logs.length ≤ mem

theorem reads_next {x : Nat} (hx : x < 2 ^ 64) (what : String) : Reads (next what) (appendUvarint x) x := Reads.number hx _

theorem reads_decodeAddr (a : Addr) : Reads decodeAddr a.val a := by
  apply Reads.ensure
  . rw [a.property]
  . exact Reads.fixed a

section Memory

variable {mem : Nat} (hmem : mem ≤ maxAlloc)

include hmem

theorem reads_decodeLog {l : StoredLog} (h : (appendLog l).length ≤ mem) : Reads (decodeLog mem) (appendLog l) l := by
  have htopics : (l.topics.flatMap (·.val)).length = 32 * l.topics.length := length_flatMap_val l.topics
  unfold appendLog at h
  simp only [List.length_append] at h
  have hmax : maxAlloc < 2 ^ 64 := by decide
  unfold decodeLog appendLog
  apply (reads_decodeAddr l.address).bind
  apply (reads_next (by omega) _).bind
  apply (Reads.items hmem (by omega) _).bind
  apply (reads_next (by omega) _).bind
  have hsize : wrap64 l.data.length = l.data.length := by
    unfold maxAlloc at hmem
    exact wrap64_of_lt (by omega) (by omega)
  have hlast := (Reads.span l.data "tx receipt: truncated data").bind_pure (fun data => (⟨l.address, l.topics, data⟩ : StoredLog))
  rw [← hsize] at hlast
  exact hlast

omit hmem in
theorem reads_decodeHead (r : Receipt) (cum : UInt64) (hlogs : r.logs.length < 2 ^ 64)
    : Reads decodeHead (appendUvarint r.status.toNat ++ (appendUvarint r.gasUsed.toNat ++ (appendUvarint cum.toNat ++
        appendUvarint r.logs.length))) ⟨r.status, r.gasUsed, cum, r.logs.length⟩ := by
  unfold decodeHead
  apply (reads_next r.status.toNat_lt _).bind
  apply (reads_next r.gasUsed.toNat_lt _).bind
  apply (reads_next cum.toNat_lt _).bind
  have hlast := (reads_next hlogs "log count").bind_pure
    (fun n => (⟨UInt64.ofNat r.status.toNat, UInt64.ofNat r.gasUsed.toNat, UInt64.ofNat cum.toNat, n⟩ : Head))
  simp only [UInt64.ofNat_toNat] at hlast ⊢
  exact hlast

omit hmem in
theorem length_appendLog_le {r : Receipt} {cum : UInt64} {l : StoredLog} (hl : l ∈ r.logs)
    : (appendLog l).length ≤ (encodeTxReceipt r cum).length := by
  have hsub : (appendLog l).length ≤ (r.logs.flatMap appendLog).length := (List.sublist_flatten_of_mem (List.mem_map_of_mem hl)).length_le
  unfold encodeTxReceipt
  simp only [List.length_append]
  omega

theorem reads_readTxReceipt {r : Receipt} {cum : UInt64} (h : r.Fits mem cum)
    : Reads (readTxReceipt mem) (encodeTxReceipt r cum) ⟨r.status, r.gasUsed, cum, r.logs⟩ := by
  have hcount : r.logs.length < 2 ^ 64 := by
    have hlogs := h.logs
    unfold storedLogSize at hlogs
    unfold maxAlloc at hmem
    omega
  have hlog : ∀ l ∈ r.logs, Reads (decodeLog mem) (appendLog l) l :=
    fun l hl => reads_decodeLog hmem (Nat.le_trans (length_appendLog_le hl) h.row)
  have hlogs := (Reads.times hlog).bind_pure (fun logs => (⟨r.status, r.gasUsed, cum, logs⟩ : TxReceipt))
  have hhead := reads_decodeHead r cum hcount
  have hrow : encodeTxReceipt r cum = (appendUvarint r.status.toNat ++ (appendUvarint r.gasUsed.toNat ++
      (appendUvarint cum.toNat ++ appendUvarint r.logs.length))) ++ ([] ++ r.logs.flatMap appendLog) := by
    simp only [encodeTxReceipt, List.append_assoc, List.nil_append]
  rw [hrow]
  apply hhead.bind
  apply (Reads.alloc h.logs).bind
  exact hlogs

omit hmem in
theorem steady_decodeAddr : Steady decodeAddr := by
  intro bytes pos hpos hlen
  apply (Steady.ensure 20 _ bytes pos hpos hlen).bind
  intro _ mid hens
  rw [run_ensure] at hens
  split at hens
  . cases hens
  . next hle =>
    cases hens
    unfold maxAlloc at hlen
    rw [wrap64_of_lt (by omega) (by omega)] at hle
    exact steadyAt_fixed (by omega)

theorem steady_decodeLog : Steady (decodeLog mem) := by
  unfold decodeLog
  apply steady_decodeAddr.bind
  intro address
  apply (Steady.number _).bind
  intro nt
  apply (Steady.items hmem 32 nt _).bind
  intro topics
  apply (Steady.number _).bind
  intro dl
  apply (Steady.span (wrap64 dl) _).bind
  intro data
  exact Steady.pure _

omit hmem in
theorem steady_decodeHead : Steady decodeHead := by
  unfold decodeHead
  apply (Steady.number _).bind
  intro status
  apply (Steady.number _).bind
  intro gasUsed
  apply (Steady.number _).bind
  intro cum
  apply (Steady.number _).bind
  intro n
  exact Steady.pure _

theorem steady_readTxReceipt : Steady (readTxReceipt mem) := by
  unfold readTxReceipt
  apply steady_decodeHead.bind
  intro head
  apply (Steady.alloc _ _ _).bind
  intro _
  apply ((steady_decodeLog hmem).times _).bind
  intro logs
  exact Steady.pure _

end Memory

/--
Receipt rows round trip: a row is decoded into the fields it was encoded from, and a strict prefix of
it is refused.
-/
theorem decodeTxReceipt_encodeTxReceipt (mem : Nat) (hmem : mem ≤ maxAlloc) (r : Receipt) (cumulativeGasUsed : UInt64)
    (h : r.Fits mem cumulativeGasUsed)
    : decodeTxReceipt mem (encodeTxReceipt r cumulativeGasUsed) = .ok ⟨r.status, r.gasUsed, cumulativeGasUsed, r.logs⟩ ∧
      ∀ cut, cut <+: encodeTxReceipt r cumulativeGasUsed → cut ≠ encodeTxReceipt r cumulativeGasUsed →
        ∃ e, decodeTxReceipt mem cut = .error e := by
  have hreads := reads_readTxReceipt hmem h
  have hrow := h.row.trans hmem
  constructor
  . have hrun := hreads [] [] (by simpa using hrow)
    rw [List.nil_append, List.append_nil, List.length_nil] at hrun
    unfold decodeTxReceipt
    rw [hrun]
  . intro cut hcut hne
    rcases (steady_readTxReceipt hmem).refuses hreads hrow hcut hne with ⟨e, he⟩
    refine ⟨e, ?_⟩
    unfold decodeTxReceipt
    rw [he]

def transferReceipt : Receipt :=
  ⟨1, 21000, [⟨FixedBytes.fill 20 7, [FixedBytes.fill 32 1, FixedBytes.fill 32 2], [0xaa, 0xbb]⟩]⟩

theorem length_transferReceipt : (encodeTxReceipt transferReceipt 63000).length = 96 := by
  simp [encodeTxReceipt, transferReceipt, appendLog, appendUvarint, FixedBytes.fill]

theorem transferReceipt_fits : transferReceipt.Fits 1024 63000 where
  row := by
    rw [length_transferReceipt]
    decide
  logs := by decide

theorem decodeTxReceipt_transferReceipt
    : transferReceipt.Fits 1024 63000 ∧
      decodeTxReceipt 1024 (encodeTxReceipt transferReceipt 63000) =
        .ok ⟨transferReceipt.status, transferReceipt.gasUsed, 63000, transferReceipt.logs⟩ ∧
      ∃ e, decodeTxReceipt 1024 [] = .error e := by
  have hne : [] ≠ encodeTxReceipt transferReceipt 63000 := by
    intro hnil
    have hlen := length_transferReceipt
    rw [← hnil] at hlen
    cases hlen
  rcases decodeTxReceipt_encodeTxReceipt 1024 (by decide) transferReceipt 63000 transferReceipt_fits with ⟨hall, hcut⟩
  exact ⟨transferReceipt_fits, hall, hcut [] List.nil_prefix hne⟩

end EpochDB.Store.Receipts
