import EpochDB.Store.Sealed.Keys

/-!
The chain and the state section a window is sealed into: their rows come in strictly ascending order
and a point read answers as the window does.
-/

namespace EpochDB.Store.Sealed

open List

theorem sst_eq_ok {rows : List (Bytes × Bytes)} (h : rows.Pairwise (fun r s => r.1 < s.1)) : sst rows = .ok ⟨rows, h⟩ := by
  simp [sst, h]

theorem eq_of_sst {rows : List (Bytes × Bytes)} {sec : Sst} (h : sst rows = .ok sec) : sec.rows = rows := by
  unfold sst at h
  split at h
  . cases h
    rfl
  . cases h

section Chain

variable {m : Memtable} {fam : Fam} (h : (m.chain fam).Readable m.log)

include h

theorem mem_eachChain {no : UInt64} {val : Bytes} : (no, val) ∈ eachChain m fam ↔ m.chainGet fam no = some val := by
  have hwrap := h.wrap
  unfold eachChain Memtable.chainGet
  dsimp only
  rw [ChainIndex.find_eq hwrap, mem_filterMap, Option.map_eq_some_iff]
  constructor
  . rintro ⟨⟨⟨off, n⟩, i⟩, hi, hrow⟩
    split at hrow
    . cases hrow
    . next hoff =>
      cases hrow
      have hzip := mem_zipIdx hi
      simp only [length_zip, h.length_n, Nat.min_self, Nat.zero_add, Nat.sub_zero] at hzip
      rcases hzip with ⟨-, hlt, hget⟩
      rw [getElem_zip, Prod.mk.injEq] at hget
      have hto := @Memtable.toNat_add_ofNat (m.chain fam).base i (by omega)
      have hset : (m.chain fam).set = true := by
        by_contra hset
        rw [(m.chain fam).off_nil (by simpa using hset)] at hlt
        simp at hlt
      refine ⟨(off, n), ?_, rfl⟩
      rw [hto, if_pos ⟨hset, by omega, by omega⟩, Nat.add_sub_cancel_left]
      unfold ChainIndex.row
      rw [getElem?_eq_getElem hlt, getElem?_eq_getElem (by rw [h.length_n]; exact hlt), ← hget.1, ← hget.2]
      simp [hoff]
  . rintro ⟨⟨off, n⟩, hfind, rfl⟩
    split at hfind
    . next hin =>
      rcases hin with ⟨-, hlo, hhi⟩
      have hi : no.toNat - (m.chain fam).base.toNat < (m.chain fam).off.length := by omega
      have hi' : no.toNat - (m.chain fam).base.toNat < (m.chain fam).n.length := by rw [h.length_n]; exact hi
      unfold ChainIndex.row at hfind
      rw [getElem?_eq_getElem hi, getElem?_eq_getElem hi'] at hfind
      dsimp only at hfind
      split at hfind
      . cases hfind
      . next hoff =>
        cases hfind
        refine ⟨(((m.chain fam).off[no.toNat - (m.chain fam).base.toNat],
          (m.chain fam).n[no.toNat - (m.chain fam).base.toNat]), no.toNat - (m.chain fam).base.toNat), ?_, ?_⟩
        . rw [mem_zipIdx_iff_getElem?, getElem?_zip_eq_some]
          exact ⟨getElem?_eq_getElem hi, getElem?_eq_getElem hi'⟩
        . rw [if_neg hoff, Option.some.injEq, Prod.mk.injEq]
          refine ⟨?_, rfl⟩
          apply UInt64.toNat_inj.mp
          rw [Memtable.toNat_add_ofNat (by have := no.toNat_lt; omega)]
          omega
    . cases hfind

theorem eachChain_pairwise : (eachChain m fam).Pairwise (fun r s => r.1 < s.1) := by
  have hwrap := h.wrap
  unfold eachChain
  dsimp only
  rw [pairwise_filterMap]
  apply (zipIdx_pairwise_lt _).imp_of_mem
  rintro ⟨⟨off, n⟩, i⟩ ⟨⟨off', n'⟩, i'⟩ hi hi' hlt r hr s hs
  have hbound : ∀ {x : (Nat × UInt32) × Nat}, x ∈ ((m.chain fam).off.zip (m.chain fam).n).zipIdx →
      x.2 < (m.chain fam).off.length := by
    intro x hx
    have := (mem_zipIdx hx).2.1
    simpa [h.length_n] using this
  have hib := hbound hi
  have hib' := hbound hi'
  dsimp only at hlt hr hs hib hib'
  split at hr
  . cases hr
  . split at hs
    . cases hs
    . cases hr
      cases hs
      rw [UInt64.lt_iff_toNat_lt, Memtable.toNat_add_ofNat (by omega), Memtable.toNat_add_ofNat (by omega)]
      omega

end Chain

theorem famPrefix_inj {fam fam' : Fam} (h : famPrefix fam = famPrefix fam') : fam = fam' := by
  cases fam <;> cases fam' <;> first | rfl | exact absurd h (by decide)

theorem numKey_inj {fam fam' : Fam} {n n' : UInt64}
    : numKey (famPrefix fam) n = numKey (famPrefix fam') n' ↔ fam = fam' ∧ n = n' := by
  have hiff := @suffixed_inj (famPrefix fam) (famPrefix fam') n n'
  unfold suffixed at hiff
  unfold numKey
  rw [hiff]
  constructor
  . rintro ⟨hfam, hn⟩
    exact ⟨famPrefix_inj hfam, hn⟩
  . rintro ⟨rfl, rfl⟩
    exact ⟨rfl, rfl⟩

theorem fams_pairwise : fams.Pairwise (fun fam fam' => ∀ x y, famPrefix fam ++ x < famPrefix fam' ++ y) := by
  have hdec : fams.Pairwise (fun fam fam' => famPrefix fam < famPrefix fam' ∧ ¬ famPrefix fam <+: famPrefix fam') := by
    decide
  apply hdec.imp
  rintro fam fam' ⟨hlt, hpre⟩ x y
  exact Bytes.append_lt_append_of_lt hlt hpre x y

theorem chainRows_pairwise {m : Memtable} (h : ∀ fam, (m.chain fam).Readable m.log)
    : (chainRows m).Pairwise (fun r s => r.1 < s.1) := by
  unfold chainRows
  rw [pairwise_flatMap]
  constructor
  . intro fam _
    rw [pairwise_map]
    apply (eachChain_pairwise (h fam)).imp
    intro r s hlt
    dsimp only
    unfold numKey
    rw [Bytes.append_lt_append_iff rfl, Bytes.putUint64_lt_iff]
    exact .inr ⟨rfl, hlt⟩
  . apply fams_pairwise.imp
    intro fam fam' hlt r hr s hs
    rw [mem_map] at hr hs
    rcases hr with ⟨r, -, rfl⟩
    rcases hs with ⟨s, -, rfl⟩
    exact hlt _ _

theorem mem_chainRows {m : Memtable} (h : ∀ fam, (m.chain fam).Readable m.log) {fam : Fam} {no : UInt64} {val : Bytes}
    : (numKey (famPrefix fam) no, val) ∈ chainRows m ↔ m.chainGet fam no = some val := by
  unfold chainRows
  rw [mem_flatMap]
  constructor
  . rintro ⟨fam', -, hrow⟩
    rw [mem_map] at hrow
    rcases hrow with ⟨⟨n, v⟩, hmem, heq⟩
    rw [Prod.mk.injEq, numKey_inj] at heq
    rcases heq with ⟨⟨rfl, rfl⟩, rfl⟩
    exact (mem_eachChain (h fam')).mp hmem
  . intro hget
    refine ⟨fam, by cases fam <;> decide, ?_⟩
    rw [mem_map]
    exact ⟨(no, val), (mem_eachChain (h fam)).mpr hget, rfl⟩

theorem sortBytes_pairwise {keys : List Bytes} (h : keys.Nodup) : (sortBytes keys).Pairwise (· < ·) := by
  have hsorted := pairwise_insertionSort (· ≤ ·) keys
  have hnodup : (sortBytes keys).Nodup := (perm_insertionSort (· ≤ ·) keys).nodup_iff.mpr h
  exact hsorted.imp₂ (fun _ _ hle hne => lt_of_le_of_ne hle hne) hnodup

theorem mem_sortBytes {keys : List Bytes} {k : Bytes} : k ∈ sortBytes keys ↔ k ∈ keys :=
  mem_insertionSort (· ≤ ·)

structure Tabled (t : Table) (tx tx' height height' : Nat) : Prop where
  within : ∀ row ∈ t, row.Within tx tx' height height'
  before : t.Pairwise Row.Before
  apart : t.Pairwise Row.Apart

theorem tabled_table {crypto : Crypto} {tx : UInt64} {bs : List BlockWrite} {height : Nat}
    (hbs : Consecutive height bs) (htx : tx.toNat + slots bs < 2 ^ 64)
    : Tabled (table crypto tx bs) tx.toNat (tx.toNat + slots bs) height (height + bs.length) where
  within _ hrow := within_of_mem_table hbs htx hrow
  before := before_table hbs htx
  apart := apart_table hbs htx

section State

variable {m : Memtable} {t : Table} {tx tx' height height' : Nat}

theorem Tabled.stateKey (ht : Tabled t tx tx' height height') {key : Bytes} {v : MemVal} (hv : v ∈ t.history key)
    : StateKey key := by
  have hin := ht.within _ (Table.mem_history.mp hv)
  exact hin.1

theorem stateKey_of_mem_history (ht : Tabled t tx tx' height height') (hm : m.Shows t) {key : Bytes} {v : MemVal}
    (hv : v ∈ m.history key) : StateKey key := by
  rw [hm.history key] at hv
  exact ht.stateKey (History.mem_of_mem_record _ hv)

theorem codeKey_lt_suffixed (h : Bytes) {p : Bytes} (hp : StateKey p) (n : UInt64) : codeKey h < suffixed p n := by
  rcases isPrefix_state hp with ⟨x, rfl⟩
  unfold codeKey suffixed
  rw [append_assoc]
  exact Bytes.append_lt_append_of_lt (by decide) (by decide) _ _

theorem stateRows_pairwise (ht : Tabled t tx tx' height height') (hm : m.Shows t)
    : (stateRows m).Pairwise (fun r s => r.1 < s.1) := by
  unfold stateRows
  rw [pairwise_append, pairwise_map, pairwise_flatMap]
  refine ⟨?_, ⟨?_, ?_⟩, ?_⟩
  . apply (sortBytes_pairwise m.code.keys_nodup).imp
    intro h h' hlt
    unfold codeKey
    rw [Bytes.append_lt_append_iff rfl]
    exact .inr ⟨rfl, hlt⟩
  . intro p _
    have hp : (m.state.lookup p).getD [] = History.record MemVal.num (t.history p) := hm.history p
    rw [hp, pairwise_map]
    apply (History.record_pairwise_lt MemVal.num (Table.history_pairwise ht.before p)).imp
    intro e e' hlt
    dsimp only
    unfold suffixed
    rw [Bytes.append_lt_append_iff rfl, Bytes.putUint64_lt_iff]
    exact .inr ⟨rfl, UInt64.lt_iff_toNat_lt.mpr hlt⟩
  . apply (sortBytes_pairwise m.state.keys_nodup).imp
    intro p q hlt r hr s hs
    rw [mem_map] at hr hs
    rcases hr with ⟨e, he, rfl⟩
    rcases hs with ⟨e', he', rfl⟩
    rw [prefixFree_stateKey.suffixed_lt_iff (stateKey_of_mem_history ht hm he) (stateKey_of_mem_history ht hm he')]
    exact .inl hlt
  . intro r hr s hs
    rw [mem_map] at hr
    rw [mem_flatMap] at hs
    rcases hr with ⟨h, -, rfl⟩
    rcases hs with ⟨p, -, hs⟩
    rw [mem_map] at hs
    rcases hs with ⟨e, he, rfl⟩
    exact codeKey_lt_suffixed h (stateKey_of_mem_history ht hm he) e.txnum

theorem mem_stateRows_suffixed (ht : Tabled t tx tx' height height') (hm : m.Shows t) {p : Bytes} (hp : StateKey p)
    {n : UInt64} {val : Bytes} : (suffixed p n, val) ∈ stateRows m ↔ t.valueAt p n = some val := by
  have hrecord : (m.state.lookup p).getD [] = History.record MemVal.num (t.history p) := hm.history p
  rw [Table.valueAt_eq_some ht.before, ← hrecord]
  unfold stateRows
  rw [mem_append, mem_map, mem_flatMap]
  constructor
  . rintro (⟨h, -, heq⟩ | ⟨q, -, hq⟩)
    . rw [Prod.mk.injEq] at heq
      exact absurd heq.1 (ne_of_lt (codeKey_lt_suffixed h hp n))
    . rw [mem_map] at hq
      rcases hq with ⟨e, he, heq⟩
      rw [Prod.mk.injEq, suffixed_inj] at heq
      rcases heq with ⟨⟨rfl, rfl⟩, rfl⟩
      exact he
  . intro hmem
    refine .inr ⟨p, ?_, ?_⟩
    . rw [mem_sortBytes, ← AList.mem_keys, ← AList.lookup_isSome]
      cases hlookup : m.state.lookup p with
      | none =>
        rw [hlookup] at hmem
        cases hmem
      | some _ => rfl
    . rw [mem_map]
      exact ⟨_, hmem, rfl⟩

theorem mem_stateRows_code (ht : Tabled t tx tx' height height') (hm : m.Shows t) {hash blob : Bytes}
    : (codeKey hash, blob) ∈ stateRows m ↔ m.codeBlob hash = some blob := by
  unfold stateRows Rows.codeBlob
  rw [mem_append, mem_map, mem_flatMap]
  constructor
  . rintro (⟨h, hkey, heq⟩ | ⟨q, -, hq⟩)
    . rw [Prod.mk.injEq] at heq
      rcases heq with ⟨hkeys, rfl⟩
      have hsame : h = hash := append_cancel_left hkeys
      subst hsame
      rw [mem_sortBytes, ← AList.mem_keys, ← AList.lookup_isSome, Option.isSome_iff_exists] at hkey
      rcases hkey with ⟨blob, hblob⟩
      rw [hblob]
      rfl
    . rw [mem_map] at hq
      rcases hq with ⟨e, he, heq⟩
      rw [Prod.mk.injEq] at heq
      exact absurd heq.1 (ne_of_gt (codeKey_lt_suffixed hash (stateKey_of_mem_history ht hm he) e.txnum))
  . intro hblob
    refine .inl ⟨hash, ?_, by rw [hblob]; rfl⟩
    rw [mem_sortBytes, ← AList.mem_keys, ← AList.lookup_isSome, hblob]
    rfl

def StateSection (sec : Sst) : Prop :=
  ∀ row ∈ sec.rows, (∃ h : Hash, row.1 = codeKey h.val) ∨ ∃ p n, StateKey p ∧ row.1 = suffixed p n

theorem stateSection_stateRows (ht : Tabled t tx tx' height height') (hm : m.Shows t) {row : Bytes × Bytes}
    (hrow : row ∈ stateRows m) : (∃ h : Hash, row.1 = codeKey h.val) ∨ ∃ p n, StateKey p ∧ row.1 = suffixed p n := by
  unfold stateRows at hrow
  rw [mem_append, mem_map, mem_flatMap] at hrow
  rcases hrow with ⟨h, hkey, rfl⟩ | ⟨p, -, hp⟩
  . left
    rw [mem_sortBytes, ← AList.mem_keys, ← AList.lookup_isSome, Option.isSome_iff_exists] at hkey
    rcases hkey with ⟨blob, hblob⟩
    have hcode := hm.code h
    unfold Rows.codeBlob at hcode
    rw [hblob] at hcode
    unfold OneOf Table.codes at hcode
    dsimp only at hcode
    rw [mem_filterMap] at hcode
    rcases hcode with ⟨row, hrow, hval⟩
    have hin := ht.within row hrow
    cases row with
    | code hash blob' =>
      simp only [Row.codeVal] at hval
      split at hval
      . next hsame =>
        rw [hsame] at hin
        exact ⟨⟨h, hin⟩, rfl⟩
      . cases hval
    | _ => cases hval
  . right
    rw [mem_map] at hp
    rcases hp with ⟨e, he, rfl⟩
    exact ⟨p, e.txnum, stateKey_of_mem_history ht hm he, rfl⟩

end State

end EpochDB.Store.Sealed
