import EpochDB.Store.Sealed.Postings

/-!
The lookup section a window is sealed into: posting chunks, hash rows and set rows in one strictly
ascending sequence.
-/

namespace EpochDB.Store.Sealed

open List

instance : IsTrans (Bytes × Bytes) keyLe where
  trans _ _ _ h h' := le_trans h h'

instance : Std.Total keyLe where
  total r s := le_total r.1 s.1

section

variable {m : Memtable} {t : Table} {tx tx' height height' : Nat} (ht : Tabled t tx tx' height height') (hm : m.Shows t)

include ht hm

theorem post_sorted : (m.post.insertionSort Posting.le).Pairwise Posting.lt := by
  have hsorted := pairwise_insertionSort Posting.le m.post
  have hapart := Table.posts_pairwise ht.apart
  rw [← hm.post] at hapart
  have hapart' : (m.post.insertionSort Posting.le).Pairwise (fun p q => p.txnum = q.txnum → p.group ≠ q.group) := by
    rw [(perm_insertionSort Posting.le m.post).pairwise_iff]
    . exact hapart
    . intro p q h hnum hgroup
      exact h hnum.symm hgroup.symm
  apply hsorted.imp₂ _ hapart'
  rintro p q (hlt | ⟨hgroup, hle⟩) hne
  . exact .inl hlt
  . refine .inr ⟨hgroup, ?_⟩
    rw [UInt64.le_iff_toNat_le] at hle
    rw [UInt64.lt_iff_toNat_lt]
    apply Nat.lt_of_le_of_ne hle
    intro heq
    exact hne (UInt64.toNat_inj.mp heq) hgroup

theorem post_fits {e : Posting} (he : e ∈ m.post) : Fits e.group e.payload := by
  rw [hm.post, Table.mem_posts] at he
  exact (ht.within _ he).1

theorem chunks_post
    : (∀ row ∈ chunks m.post, ChunkRow row) ∧ (chunks m.post).flatMap entsOf = m.post.insertionSort Posting.le :=
  chunks_spec (post_sorted ht hm) (fun _ he => post_fits ht hm he)

theorem numKey_of_mem {key : Bytes} (hkey : key ∈ m.nums.keys) : NumKey key := by
  rw [← AList.mem_keys, ← AList.lookup_isSome, Option.isSome_iff_exists] at hkey
  rcases hkey with ⟨no, hno⟩
  have hlookup := hm.nums key
  unfold Rows.lookupNum at hlookup
  rw [hno] at hlookup
  exact ht.within _ (Table.mem_of_lookupNum hlookup.symm)

theorem setKey_of_mem {key : Bytes} (hkey : key ∈ m.sets) : SetKey key := by
  rw [hm.sets, Table.mem_sets] at hkey
  exact ht.within _ hkey

omit ht hm in
theorem isPostingKey_of_chunkRow {row : Bytes × Bytes} (h : ChunkRow row) : isPostingKey row.1 = true := by
  rcases h.key with ⟨g, first, hg, hkey⟩
  rw [hkey]
  exact isPostingKey_append hg _

theorem lookupRows_pairwise : (lookupRows m).Pairwise (fun r s => r.1 < s.1) := by
  rcases chunks_post ht hm with ⟨hchunks, hents⟩
  have hsorted := pairwise_insertionSort keyLe
    (chunks m.post ++ m.nums.keys.map (fun k => (k, Bytes.putUint64 ((m.nums.lookup k).getD 0))) ++
      m.sets.map (fun k => (k, [])))
  have hne : (lookupRows m).Pairwise (fun r s => r.1 ≠ s.1) := by
    unfold lookupRows
    rw [(perm_insertionSort keyLe _).pairwise_iff (fun h => Ne.symm h)]
    rw [pairwise_append, pairwise_append, pairwise_map, pairwise_map]
    refine ⟨⟨?_, m.nums.keys_nodup, ?_⟩, hm.nodup, ?_⟩
    . apply (chunkRows_pairwise hchunks (by rw [hents]; exact post_sorted ht hm)).imp
      intro r s hlt
      exact ne_of_lt hlt
    . intro r hr s hs heq
      rw [mem_map] at hs
      rcases hs with ⟨k, hk, rfl⟩
      have hpost := isPostingKey_of_chunkRow (hchunks r hr)
      rw [heq, isPostingKey_of_numKey (numKey_of_mem ht hm hk)] at hpost
      cases hpost
    . intro r hr s hs heq
      rw [mem_map] at hs
      rcases hs with ⟨k, hk, rfl⟩
      have hset := setKey_of_mem ht hm hk
      rw [mem_append] at hr
      cases hr with
      | inl hr =>
        have hpost := isPostingKey_of_chunkRow (hchunks r hr)
        rw [heq, isPostingKey_of_setKey hset] at hpost
        cases hpost
      | inr hr =>
        rw [mem_map] at hr
        rcases hr with ⟨k', hk', rfl⟩
        have hnum := isPrefixOf_set_of_numKey (numKey_of_mem ht hm hk')
        dsimp only at heq
        rw [heq, isPrefixOf_set_of_setKey hset] at hnum
        cases hnum
  exact hsorted.imp₂ (fun _ _ hle hne => lt_of_le_of_ne hle hne) hne

omit ht hm in
theorem mem_lookupRows {row : Bytes × Bytes}
    : row ∈ lookupRows m ↔ row ∈ chunks m.post ∨
        (row.1 ∈ m.nums.keys ∧ row.2 = Bytes.putUint64 ((m.nums.lookup row.1).getD 0)) ∨
        row.1 ∈ m.sets ∧ row.2 = [] := by
  unfold lookupRows
  rw [mem_insertionSort, mem_append, mem_append, mem_map, mem_map, or_assoc]
  apply or_congr_right
  apply or_congr
  . constructor
    . rintro ⟨k, hk, rfl⟩
      exact ⟨hk, rfl⟩
    . rintro ⟨hk, hval⟩
      exact ⟨row.1, hk, by rw [← hval]⟩
  . constructor
    . rintro ⟨k, hk, rfl⟩
      exact ⟨hk, rfl⟩
    . rintro ⟨hk, hval⟩
      exact ⟨row.1, hk, by rw [← hval]⟩

theorem mem_lookupRows_num {key : Bytes} (hkey : NumKey key) {val : Bytes}
    : (key, val) ∈ lookupRows m ↔ (t.lookupNum key).map Bytes.putUint64 = some val := by
  rw [mem_lookupRows, ← hm.nums]
  unfold Rows.lookupNum
  constructor
  . rintro (hrow | ⟨hk, hval⟩ | ⟨hk, -⟩)
    . have hpost := isPostingKey_of_chunkRow ((chunks_post ht hm).1 _ hrow)
      rw [isPostingKey_of_numKey hkey] at hpost
      cases hpost
    . dsimp only at hk hval
      rw [← AList.mem_keys, ← AList.lookup_isSome, Option.isSome_iff_exists] at hk
      rcases hk with ⟨no, hno⟩
      rw [hno] at hval ⊢
      rw [hval]
      rfl
    . have hnum := isPrefixOf_set_of_numKey hkey
      rw [isPrefixOf_set_of_setKey (setKey_of_mem ht hm hk)] at hnum
      cases hnum
  . intro hval
    rw [Option.map_eq_some_iff] at hval
    rcases hval with ⟨no, hno, rfl⟩
    refine .inr (.inl ⟨?_, ?_⟩)
    . rw [← AList.mem_keys, ← AList.lookup_isSome, hno]
      rfl
    . dsimp only
      rw [hno]
      rfl

theorem mem_lookupRows_set {key : Bytes} (hkey : SetKey key) {val : Bytes}
    : (key, val) ∈ lookupRows m ↔ key ∈ t.sets ∧ val = [] := by
  rw [mem_lookupRows, ← hm.sets]
  constructor
  . rintro (hrow | ⟨hk, -⟩ | hset)
    . have hpost := isPostingKey_of_chunkRow ((chunks_post ht hm).1 _ hrow)
      rw [isPostingKey_of_setKey hkey] at hpost
      cases hpost
    . have hnum := isPrefixOf_set_of_numKey (numKey_of_mem ht hm hk)
      rw [isPrefixOf_set_of_setKey hkey] at hnum
      cases hnum
    . exact hset
  . exact fun hset => .inr (.inr hset)

theorem filter_lookupRows : (lookupRows m).filter (fun row => isPostingKey row.1) = chunks m.post := by
  rcases chunks_post ht hm with ⟨hchunks, hents⟩
  have hkeys := chunkRows_pairwise hchunks (by rw [hents]; exact post_sorted ht hm)
  have hperm : ((lookupRows m).filter (fun row => isPostingKey row.1)).Perm (chunks m.post) := by
    unfold lookupRows
    apply ((perm_insertionSort keyLe _).filter _).trans
    rw [filter_append, filter_append]
    have hall : (chunks m.post).filter (fun row => isPostingKey row.1) = chunks m.post := by
      rw [filter_eq_self]
      intro row hrow
      exact isPostingKey_of_chunkRow (hchunks row hrow)
    have hnums : (m.nums.keys.map (fun k => (k, Bytes.putUint64 ((m.nums.lookup k).getD 0)))).filter
        (fun row => isPostingKey row.1) = [] := by
      rw [filter_eq_nil_iff]
      intro row hrow
      rw [mem_map] at hrow
      rcases hrow with ⟨k, hk, rfl⟩
      rw [isPostingKey_of_numKey (numKey_of_mem ht hm hk)]
      simp
    have hsets : (m.sets.map (fun k => (k, ([] : Bytes)))).filter (fun row => isPostingKey row.1) = [] := by
      rw [filter_eq_nil_iff]
      intro row hrow
      rw [mem_map] at hrow
      rcases hrow with ⟨k, hk, rfl⟩
      rw [isPostingKey_of_setKey (setKey_of_mem ht hm hk)]
      simp
    rw [hall, hnums, hsets]
    simp
  apply hperm.eq_of_pairwise _ ((lookupRows_pairwise ht hm).filter _) hkeys
  intro r s _ _ hlt hgt
  exact absurd hlt (lt_asymm hgt)

end

end EpochDB.Store.Sealed
