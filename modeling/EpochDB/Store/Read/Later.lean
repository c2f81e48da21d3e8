import EpochDB.Store.Read.Naive

/-!
A read takes the windows at one moment and the runs at a later one. The blocks that were stored at the
first moment answer as they would have then.
-/

namespace EpochDB.Store.Read

open List
open Sealed (FilterPolicy)

def View.since (v later : View) : View := ⟨v.mem, v.frozen, later.runs⟩

section Chain

variable {ps : List (Span × List BlockWrite)} (hps : ∀ p ∈ ps, p.1.Of p.2) (hchain : (ps.map (·.1)).IsChain Span.Follows)

include hps hchain

theorem base_of_chain {first p : Span × List BlockWrite} (hfirst : ps.head? = some first) (hp : p ∈ ps)
    : ∃ before after, ps.flatMap (·.2) = before ++ p.2 ++ after ∧ p.1.baseTx.toNat = first.1.baseTx.toNat + slots before := by
  induction ps generalizing first with
  | nil => cases hp
  | cons q ps ih =>
    cases hfirst
    rcases mem_cons.mp hp with rfl | hp
    . exact ⟨[], ps.flatMap (·.2), by simp, rfl⟩
    . cases ps with
      | nil => cases hp
      | cons q' ps =>
        simp only [map_cons, isChain_cons_cons] at hchain
        rcases hchain with ⟨⟨htx, -⟩, hchain⟩
        rcases ih (fun x hx => hps x (by simp [hx])) hchain rfl hp with ⟨before, after, hsplit, hbase⟩
        refine ⟨q.2 ++ before, after, ?_, ?_⟩
        . rw [flatMap_cons, hsplit]
          simp
        . have hnext := (hps q (by simp)).nextTx
          rw [hbase, htx, hnext, slots_append, Nat.add_assoc]

theorem covered_of_chain {first : Span × List BlockWrite} (hfirst : ps.head? = some first) {n : Nat}
    (hlo : first.1.baseTx.toNat ≤ n) (hhi : n < first.1.baseTx.toNat + slots (ps.flatMap (·.2)))
    : ∃ p ∈ ps, p.1.baseTx.toNat ≤ n ∧ n < p.1.nextTx.toNat := by
  induction ps generalizing first with
  | nil => cases hfirst
  | cons q ps ih =>
    cases hfirst
    have hnext := (hps q (by simp)).nextTx
    rw [flatMap_cons, slots_append] at hhi
    by_cases hin : n < q.1.nextTx.toNat
    . exact ⟨q, by simp, hlo, hin⟩
    . cases ps with
      | nil =>
        rw [flatMap_nil, slots_nil] at hhi
        omega
      | cons q' ps =>
        simp only [map_cons, isChain_cons_cons] at hchain
        rcases hchain with ⟨⟨htx, -⟩, hchain⟩
        rw [← htx] at hnext hin
        rcases ih (fun x hx => hps x (by simp [hx])) hchain rfl (by omega) (by omega) with ⟨p, hp, hin⟩
        exact ⟨p, by simp [hp], hin⟩

end Chain

section Stored

variable {crypto : Crypto} {v : View} {l : RunBlocks} {fbs mbs : List BlockWrite}
  (h : Stored crypto v l fbs mbs)

include h

theorem Stored.chain_pieces : ((v.pieces l fbs mbs).map (·.1)).IsChain Span.Follows := by
  rw [h.pieces.1]
  exact h.chain

theorem Stored.head_pieces : ∃ first, (v.pieces l fbs mbs).head? = some first ∧ first.1.baseTx = 0 := by
  cases hfirst : (v.pieces l fbs mbs).head? with
  | none =>
    rw [head?_eq_none_iff] at hfirst
    simp [View.pieces] at hfirst
  | some first =>
    refine ⟨first, rfl, h.zero first.1 ?_⟩
    rw [← h.pieces.1, head?_map, hfirst]
    rfl

theorem Stored.base_of_piece {p : Span × List BlockWrite} (hp : p ∈ v.pieces l fbs mbs)
    : ∃ before after, l.flatMap (·.2) ++ fbs ++ mbs = before ++ p.2 ++ after ∧ p.1.baseTx.toNat = slots before := by
  rcases h.head_pieces with ⟨first, hfirst, hzero⟩
  rcases base_of_chain h.pieces.2.2 h.chain_pieces hfirst hp with ⟨before, after, hsplit, hbase⟩
  rw [h.pieces.2.1] at hsplit
  rw [hzero, UInt64.toNat_zero, Nat.zero_add] at hbase
  exact ⟨before, after, hsplit, hbase⟩

theorem Stored.covered {n : Nat} (hn : n < slots (l.flatMap (·.2) ++ fbs ++ mbs))
    : ∃ p ∈ v.pieces l fbs mbs, p.1.baseTx.toNat ≤ n ∧ n < p.1.nextTx.toNat := by
  rcases h.head_pieces with ⟨first, hfirst, hzero⟩
  have hbase : first.1.baseTx.toNat = 0 := by
    rw [hzero]
    rfl
  rw [← h.pieces.2.1] at hn
  exact covered_of_chain h.pieces.2.2 h.chain_pieces hfirst (by omega) (by omega)

theorem Stored.fromTx_head {p : Sealed.Run × List BlockWrite} (hp : l.head? = some p) : p.1.footer.fromTx = 0 := by
  apply h.zero (runSpan p.1)
  unfold View.older
  rw [h.runs, head?_append, head?_append, map_map, head?_map, hp]
  rfl

theorem Stored.runTable_eq : runTable crypto l = table crypto 0 (l.flatMap (·.2)) := by
  cases l with
  | nil => rfl
  | cons p l =>
    rw [← h.fromTx_head rfl]
    exact (table_of_contiguous (fun q hq => h.holds q (by simp [hq])) (h.holds p (by simp)) h.contiguous).symm

theorem Stored.of_runs : ∀ p ∈ l.map (fun p => (runSpan p.1, p.2)), p.1.Of p.2 := by
  intro p hp
  apply h.pieces.2.2
  unfold View.pieces
  rw [append_assoc]
  exact mem_append_left _ hp

theorem Stored.chain_runs : ((l.map (fun p => (runSpan p.1, p.2))).map (·.1)).IsChain Span.Follows := by
  have hchain := h.chain_pieces
  unfold View.pieces at hchain
  rw [append_assoc, map_append] at hchain
  exact (isChain_append.mp hchain).1

theorem Stored.head_runs (hl : l ≠ [])
    : ∃ first, (l.map (fun p => (runSpan p.1, p.2))).head? = some first ∧ first.1.baseTx.toNat = 0 := by
  cases l with
  | nil => exact absurd rfl hl
  | cons p l =>
    refine ⟨(runSpan p.1, p.2), rfl, ?_⟩
    have hzero := h.fromTx_head rfl
    exact congrArg UInt64.toNat hzero

theorem Stored.covered_runs {n : Nat} (hn : n < slots (l.flatMap (·.2)))
    : ∃ p ∈ l, p.1.footer.fromTx.toNat ≤ n ∧ n < p.1.footer.toTx.toNat := by
  have hl : l ≠ [] := by
    rintro rfl
    cases hn
  rcases h.head_runs hl with ⟨first, hfirst, hzero⟩
  have hhi : n < first.1.baseTx.toNat + slots ((l.map (fun p => (runSpan p.1, p.2))).flatMap (·.2)) := by
    rw [flatMap_map]
    exact Nat.lt_add_left _ hn
  rcases covered_of_chain h.of_runs h.chain_runs hfirst (by omega) hhi with ⟨p, hp, hin⟩
  rcases mem_map.mp hp with ⟨q, hq, rfl⟩
  exact ⟨q, hq, hin⟩

theorem Stored.toTx_le {p : Sealed.Run × List BlockWrite} (hp : p ∈ l) : p.1.footer.toTx.toNat ≤ slots (l.flatMap (·.2)) := by
  rcases h.head_runs (ne_nil_of_mem hp) with ⟨first, hfirst, hzero⟩
  rcases base_of_chain h.of_runs h.chain_runs hfirst (mem_map_of_mem hp) with ⟨before, after, hsplit, hbase⟩
  have hnext := (h.holds p hp).toTx
  have hfrom : p.1.footer.fromTx.toNat = first.1.baseTx.toNat + slots before := hbase
  rw [flatMap_map] at hsplit
  dsimp only at hsplit
  rw [hsplit, slots_append, slots_append]
  omega

end Stored

theorem chainGet_of_isPrefix {crypto : Crypto} {bs bs' : List BlockWrite} {height : Nat} (hpre : bs <+: bs')
    (hcons : Consecutive height bs') (htx : slots bs' < 2 ^ 64) {fam : Fam} {n : UInt64} {val : Bytes}
    (h : (table crypto 0 bs).chainGet fam n = some val) : (table crypto 0 bs').chainGet fam n = some val := by
  rcases hpre with ⟨more, rfl⟩
  rw [slots_append] at htx
  rw [consecutive_append] at hcons
  have hbase : (0 + UInt64.ofNat (slots bs) : UInt64).toNat = slots bs := by
    rw [Memtable.toNat_add_ofNat (by rw [UInt64.toNat_zero]; omega), UInt64.toNat_zero, Nat.zero_add]
  rw [table_append, Table.chainGet_append]
  cases hmore : (table crypto (0 + UInt64.ofNat (slots bs)) more).chainGet fam n with
  | none => rw [Option.none_or, h]
  | some val' =>
    -- a row of the later blocks has a number of its own
    have hold := (Sealed.tabled_table hcons.1 (by rw [UInt64.toNat_zero]; omega)).within _ (Table.mem_of_chainGet h)
    have hnew := (Sealed.tabled_table hcons.2 (by omega)).within _ (Table.mem_of_chainGet hmore)
    rw [hbase] at hnew
    rw [UInt64.toNat_zero] at hold
    simp only [Row.Within] at hold hnew
    split at hold
    . next hfam =>
      rw [if_pos hfam] at hnew
      omega
    . next hfam =>
      rw [if_neg hfam] at hnew
      omega

theorem Sys.Parts.slots_lt {crypto : Crypto} {s : Sys} {l : RunBlocks} {fbs mbs : List BlockWrite}
    (h : s.Parts crypto l fbs mbs) : slots s.blocks < 2 ^ 64 := by
  rcases h.stored.whole with ⟨height, hof⟩
  have hnext := hof.nextTx
  have hlt := s.view.mem.nextTx.toNat_lt
  simp only [UInt64.toNat_zero, Nat.zero_add] at hnext
  rw [h.blocks]
  omega

section Since

variable {crypto : Crypto} {s t : Sys} {l l' : RunBlocks} {fbs mbs fbs' mbs' : List BlockWrite}
  (policy : FilterPolicy) (hs : s.Parts crypto l fbs mbs) (ht : t.Parts crypto l' fbs' mbs')
  (hruns : l.flatMap (·.2) <+: l'.flatMap (·.2))

include hs ht hruns

theorem chainRow_since {fam : Fam} {n : UInt64} {val : Bytes} (h : (table crypto 0 s.blocks).chainGet fam n = some val)
    : chainRow policy (s.view.since t.view) fam n (byHeight fam) = some val := by
  rw [hs.blocks, ← hs.stored.chainRow_eq policy] at h
  unfold chainRow at h ⊢
  unfold View.since
  dsimp only
  rw [Option.or_eq_some_iff] at h ⊢
  rcases h with h | ⟨hmem, h⟩
  . exact .inl h
  . refine .inr ⟨hmem, ?_⟩
    rw [Option.or_eq_some_iff] at h ⊢
    rcases h with h | ⟨hfrozen, h⟩
    . exact .inl h
    . refine .inr ⟨hfrozen, ?_⟩
      rw [hs.stored.runs, runChainRow_eq policy hs.stored.holds hs.stored.contiguous, hs.stored.runTable_eq] at h
      rw [ht.stored.runs, runChainRow_eq policy ht.stored.holds ht.stored.contiguous, ht.stored.runTable_eq]
      rcases ht.stored.whole with ⟨height, hof⟩
      have hcons := hof.consecutive
      have hslots := ht.slots_lt
      rw [append_assoc, consecutive_append] at hcons
      rw [ht.blocks, append_assoc, slots_append] at hslots
      exact chainGet_of_isPrefix hruns hcons.1 (by omega) h

end Since

end EpochDB.Store.Read
