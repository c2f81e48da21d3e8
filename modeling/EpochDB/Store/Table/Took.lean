import EpochDB.Store.Table.Window

/-!
The blocks a window took, and the rows they can contribute: where the numbers of a row lie and how its
key is made.
-/

namespace EpochDB.Store

open List Memtable

def Consecutive (height : Nat) (bs : List BlockWrite) : Prop :=
  match bs with
  | [] => True
  | b :: bs => b.height.toNat = height ∧ Consecutive (height + 1) bs

variable {height : Nat} {bs : List BlockWrite} {tx n first : UInt64} {row : Row} {post : Memtable.PostMap}
  {crypto : Crypto} {b : BlockWrite} {file : LogFile} {m m' : Memtable}

theorem consecutive_append {bs bs' : List BlockWrite}
    : Consecutive height (bs ++ bs') ↔ Consecutive height bs ∧ Consecutive (height + bs.length) bs' := by
  induction bs generalizing height with
  | nil => simp [Consecutive]
  | cons b bs ih =>
    simp only [cons_append, Consecutive, ih, length_cons]
    rw [and_assoc, Nat.add_assoc, Nat.add_comm 1]

@[simp]
theorem slots_nil : slots [] = 0 := rfl

@[simp]
theorem slots_cons (b : BlockWrite) (bs : List BlockWrite) : slots (b :: bs) = b.slots + slots bs := by
  simp [slots]

@[simp]
theorem slots_append (bs bs' : List BlockWrite) : slots (bs ++ bs') = slots bs + slots bs' := by
  simp [slots]

theorem table_append (crypto : Crypto) (tx : UInt64) (bs bs' : List BlockWrite)
    : table crypto tx (bs ++ bs') = table crypto tx bs ++ table crypto (tx + UInt64.ofNat (slots bs)) bs' := by
  induction bs generalizing tx with
  | nil => simp [table]
  | cons b bs ih =>
    rw [cons_append, table, table, ih, append_assoc, slots_cons, UInt64.ofNat_add, UInt64.add_assoc]

inductive NumKey : Bytes → Prop
  | txHash (h : Hash) : NumKey (txHashKey h.val)
  | blkHash (h : Hash) : NumKey (blkHashKey h.val)
  | cid (h : Hash) : NumKey (cidKey h.val)

inductive SetKey : Bytes → Prop
  | mk (topic0 : Hash) (pos : UInt8) (value : Hash) (emitter : Addr) : SetKey (setKey topic0 pos value emitter)

inductive IsGroup : Bytes → Prop
  | addr (a : Addr) : IsGroup (addrPrefix a)
  | eLog (emitter : Addr) (topic0 : Hash) : IsGroup (eLogGroup emitter topic0)
  | tVal (value topic0 : Hash) : IsGroup (tValGroup value topic0)
  | sig (topic0 : Hash) : IsGroup (sigGroup topic0)

structure Fits (group : Bytes) (payload : UInt8) : Prop where
  isGroup : IsGroup group
  bits : payload.toNat < 2 ^ payloadBits group

def Row.Within (tx tx' height height' : Nat) : Row → Prop
  | .chain fam no _ =>
    if fam ∈ txKeyedFams then
      tx ≤ no.toNat ∧ no.toNat + 1 < tx'
    else
      height ≤ no.toNat ∧ no.toNat < height'
  | .state key no _ => (∃ r : StateRow, key = stateKeyPrefix r) ∧ tx ≤ no.toNat ∧ no.toNat < tx'
  | .post p => Fits p.group p.payload ∧ tx ≤ p.txnum.toNat ∧ p.txnum.toNat + 1 < tx'
  | .num key _ => NumKey key
  | .set key => SetKey key
  | .code hash _ => hash.length = 32

theorem Row.Within.mono {tx tx' height height' : Nat} (h : row.Within tx tx' height height')
    {lo lo' low low' : Nat} (hlo : lo ≤ tx) (hlo' : tx' ≤ lo') (hlow : low ≤ height) (hlow' : height' ≤ low')
    : row.Within lo lo' low low' := by
  cases row with
  | chain fam no val =>
    simp only [Row.Within] at h ⊢
    split at h
    . next hfam =>
      rw [if_pos hfam]
      omega
    . next hfam =>
      rw [if_neg hfam]
      omega
  | state key no val =>
    rcases h with ⟨hkey, hge, hlt⟩
    exact ⟨hkey, by omega, by omega⟩
  | post p =>
    rcases h with ⟨hfits, hge, hlt⟩
    exact ⟨hfits, by omega, by omega⟩
  | num key no => exact h
  | set key => exact h
  | code hash blob => exact h

def AllFit (post : Memtable.PostMap) : Prop := ∀ g v, post.lookup g = some v → Fits g v

theorem AllFit.orInto (h : AllFit post) {group : Bytes} {r : UInt8}
    (hnew : Fits group r) : AllFit (Memtable.orInto post group r) := by
  intro g v hv
  unfold Memtable.orInto at hv
  by_cases hg : g = group
  . subst hg
    rw [AList.lookup_insert, Option.some.injEq] at hv
    subst hv
    refine ⟨hnew.isGroup, ?_⟩
    rw [UInt8.toNat_or]
    apply Nat.or_lt_two_pow
    . cases hold : post.lookup g with
      | none => simp
      | some v => exact (h g v hold).bits
    . exact hnew.bits
  . rw [AList.lookup_insert_ne hg] at hv
    exact h g v hv

theorem AllFit.role (h : AllFit post) (a : Option Addr) {r : UInt8}
    (hr : r.toNat < 2 ^ 5) : AllFit (Memtable.role post a r) := by
  cases a with
  | none => exact h
  | some a => exact h.orInto ⟨.addr a, hr⟩

theorem AllFit.foldl (h : AllFit post) {f : Memtable.PostMap → ι → Memtable.PostMap}
    {is : List ι} (hf : ∀ post, AllFit post → ∀ i ∈ is, AllFit (f post i)) : AllFit (is.foldl f post) := by
  induction is generalizing post with
  | nil => exact h
  | cons i is ih =>
    rw [foldl_cons]
    exact ih (hf post h i (by simp)) (fun post hpost j hj => hf post hpost j (by simp [hj]))

theorem AllFit.logPostings (h : AllFit post) (emitter : Addr) (topics : List Hash)
    : AllFit (logPostings post emitter topics) := by
  cases topics with
  | nil => exact h.orInto ⟨.eLog emitter zeroHash, by simp⟩
  | cons topic0 topics =>
    have hsig := h.orInto (r := 0) ⟨.sig topic0, by simp⟩
    have helog := hsig.orInto (r := 0) ⟨.eLog emitter topic0, by simp⟩
    apply helog.foldl
    rintro post hpost ⟨topic, i⟩ hi
    have hlt : i < 3 := by
      have := (mem_zipIdx hi).2.1
      simp only [length_take] at this
      omega
    apply hpost.orInto
    refine ⟨.tVal topic topic0, ?_⟩
    rw [payloadBits_tValGroup]
    interval_cases i <;> decide

theorem allFit_txPostings (t : TxWrite) : AllFit (txPostings t) := by
  have hempty : AllFit (∅ : Memtable.PostMap) := by
    intro g v hv
    simp at hv
  have hsender := hempty.role t.sender (r := roleSender) (by decide)
  have hrecipient := hsender.role t.recipient (r := roleRecipient) (by decide)
  have hcreated := hrecipient.role t.created (r := roleCreated) (by decide)
  have hframes : AllFit (t.frameAddrs.foldl (fun post a => Memtable.role post (some a) roleFrame) _) :=
    hcreated.foldl (fun post hpost a _ => hpost.role (some a) (by decide))
  apply hframes.foldl
  intro post hpost l _
  exact (hpost.role (some l.emitter) (by decide)).logPostings l.emitter l.topics

theorem setKey_of_mem_logSets {emitter : Addr} {topics : List Hash} {key : Bytes}
    (h : key ∈ Memtable.logSets emitter topics) : SetKey key := by
  cases topics with
  | nil => simp [Memtable.logSets] at h
  | cons topic0 topics =>
    simp only [Memtable.logSets, mem_map] at h
    rcases h with ⟨⟨topic, i⟩, -, rfl⟩
    exact .mk ..

theorem TxWrite.within_of_mem_table {t : TxWrite} (h : row ∈ t.table n) (height : Nat)
    : row.Within n.toNat (n.toNat + 2) height (height + 1) := by
  simp only [TxWrite.table, mem_append, mem_map, mem_flatMap, mem_cons, not_mem_nil, or_false] at h
  rcases h with ((h | ⟨g, hg, rfl⟩) | ⟨l, -, key, hkey, rfl⟩) | ⟨r, -, rfl⟩
  . rcases h with rfl | rfl | rfl | rfl
    . exact ⟨Nat.le_refl _, by omega⟩
    . exact ⟨Nat.le_refl _, by omega⟩
    . exact ⟨Nat.le_refl _, by omega⟩
    . exact .txHash t.hash
  . refine ⟨?_, Nat.le_refl _, by dsimp only; omega⟩
    have hmem : g ∈ (txPostings t).keys := by
      simpa [sortedKeys] using hg
    rw [← AList.mem_keys, ← AList.lookup_isSome, Option.isSome_iff_exists] at hmem
    rcases hmem with ⟨v, hv⟩
    dsimp only
    rw [hv]
    exact allFit_txPostings t g v hv
  . exact setKey_of_mem_logSets hkey
  . exact ⟨⟨r, rfl⟩, Nat.le_refl _, by omega⟩

theorem BlockWrite.within_of_mem_table (hfirst : first.toNat + b.slots < 2 ^ 64) (h : row ∈ b.table crypto first)
    : row.Within first.toNat (first.toNat + b.slots) b.height.toNat (b.height.toNat + 1) := by
  unfold BlockWrite.table at h
  split at h
  . simp only [BlockWrite.tableOf, mem_append, mem_map, mem_flatMap, mem_cons, not_mem_nil, or_false] at h
    rcases h with ((h | ⟨⟨hash, blob⟩, -, rfl⟩) | ⟨⟨t, i⟩, hi, hrow⟩) | ⟨r, -, rfl⟩
    . rcases h with rfl | rfl | rfl | rfl | rfl
      . exact ⟨Nat.le_refl _, Nat.lt_succ_self _⟩
      . exact ⟨Nat.le_refl _, Nat.lt_succ_self _⟩
      . exact ⟨Nat.le_refl _, Nat.lt_succ_self _⟩
      . exact .blkHash _
      . exact .cid _
    . exact hash.property
    . have hlt := (mem_zipIdx hi).2.1
      unfold BlockWrite.slots at hfirst ⊢
      have hin := TxWrite.within_of_mem_table hrow b.height.toNat
      rw [toNat_add_ofNat (by omega)] at hin
      exact hin.mono (by omega) (by omega) (Nat.le_refl _) (Nat.le_refl _)
    . unfold BlockWrite.slots at hfirst ⊢
      refine ⟨⟨r, rfl⟩, ?_⟩
      rw [toNat_add_ofNat (by omega)]
      omega
  . simp at h

theorem within_of_mem_table (hbs : Consecutive height bs) (htx : tx.toNat + slots bs < 2 ^ 64) (h : row ∈ table crypto tx bs)
    : row.Within tx.toNat (tx.toNat + slots bs) height (height + bs.length) := by
  induction bs generalizing tx height with
  | nil => simp [table] at h
  | cons b bs ih =>
    rcases hbs with ⟨rfl, hbs⟩
    rw [slots_cons] at htx ⊢
    rw [table, mem_append] at h
    cases h with
    | inl h =>
      have hin := BlockWrite.within_of_mem_table (by omega) h
      exact hin.mono (Nat.le_refl _) (by omega) (Nat.le_refl _) (by simp)
    | inr h =>
      have hto := @Memtable.toNat_add_ofNat tx b.slots (by omega)
      have hin := ih hbs (by omega) h
      rw [hto] at hin
      exact hin.mono (by omega) (by omega) (by omega) (by simp only [length_cons]; omega)

def Row.txnum : Row → Option UInt64
  | .state _ no _ => some no
  | .post p => some p.txnum
  | _ => none

def Row.Before (row row' : Row) : Prop :=
  ∀ n n', row.txnum = some n → row'.txnum = some n' → n.toNat ≤ n'.toNat

theorem TxWrite.txnum_of_mem_table {t : TxWrite} (h : row ∈ t.table n) {k : UInt64} (hk : row.txnum = some k) : k = n := by
  simp only [TxWrite.table, mem_append, mem_map, mem_flatMap, mem_cons, not_mem_nil, or_false] at h
  rcases h with ((h | ⟨g, -, rfl⟩) | ⟨l, -, key, -, rfl⟩) | ⟨r, -, rfl⟩
  . rcases h with rfl | rfl | rfl | rfl <;> cases hk
  . cases hk
    rfl
  . cases hk
  . cases hk
    rfl

theorem zipIdx_pairwise_lt {α : Type} (l : List α) : l.zipIdx.Pairwise (fun a b => a.2 < b.2) := by
  have hrange := @List.pairwise_lt_range' 0 l.length 1 (by omega)
  rw [← zipIdx_map_snd 0 l, pairwise_map] at hrange
  exact hrange

theorem BlockWrite.txnum_posting_of_mem_headRows {container : Bytes} (h : row ∈ b.headRows crypto first container)
    : row.txnum = none ∧ row.posting = none := by
  simp only [headRows, mem_append, mem_map, mem_cons, not_mem_nil, or_false] at h
  rcases h with (rfl | rfl | rfl | rfl | rfl) | ⟨_, -, rfl⟩ <;> exact ⟨rfl, rfl⟩

theorem BlockWrite.before_table (hfirst : first.toNat + b.slots < 2 ^ 64) : (b.table crypto first).Pairwise Row.Before := by
  unfold BlockWrite.slots at hfirst
  unfold BlockWrite.table
  split
  . next container hcont =>
    have hat : ∀ {i : Nat}, i ≤ b.txs.length → (first + UInt64.ofNat i).toNat = first.toNat + i :=
      fun hi => toNat_add_ofNat (by omega)
    have htail : ∀ {row : Row}, row ∈ b.tail.map (·.row (first + UInt64.ofNat b.txs.length)) →
        ∀ k, row.txnum = some k → k.toNat = first.toNat + b.txs.length := by
      intro row hrow k hk
      rw [mem_map] at hrow
      rcases hrow with ⟨r, -, rfl⟩
      cases hk
      exact hat (Nat.le_refl _)
    have htx : ∀ {t : TxWrite} {i : Nat}, (t, i) ∈ b.txs.zipIdx → ∀ {row : Row},
        row ∈ t.table (first + UInt64.ofNat i) → ∀ k, row.txnum = some k →
          k.toNat = first.toNat + i ∧ i < b.txs.length := by
      intro t i hi row hrow k hk
      have hlt := (mem_zipIdx hi).2.1
      rw [TxWrite.txnum_of_mem_table hrow hk, hat (by omega)]
      omega
    have hhead : ∀ {row : Row}, row ∈ b.headRows crypto first container → ∀ k, row.txnum ≠ some k := by
      intro row hrow k hk
      rw [(txnum_posting_of_mem_headRows hrow).1] at hk
      cases hk
    rw [tableOf_eq, pairwise_append, pairwise_append]
    refine ⟨⟨?_, ?_, ?_⟩, ?_, ?_⟩
    . apply pairwise_of_forall_mem_list
      intro row hrow row' _ n n' hn
      exact absurd hn (hhead hrow n)
    . rw [pairwise_flatMap]
      constructor
      . rintro ⟨t, i⟩ hi
        apply pairwise_of_forall_mem_list
        intro row hrow row' hrow' n n' hn hn'
        have := htx hi hrow n hn
        have := htx hi hrow' n' hn'
        omega
      . apply (zipIdx_pairwise_lt b.txs).imp_of_mem
        rintro ⟨t, i⟩ ⟨t', i'⟩ hi hi' hlt row hrow row' hrow' n n' hn hn'
        have := htx hi hrow n hn
        have := htx hi' hrow' n' hn'
        dsimp only at hlt
        omega
    . intro row hrow row' _ n n' hn
      exact absurd hn (hhead hrow n)
    . apply pairwise_of_forall_mem_list
      intro row hrow row' hrow' n n' hn hn'
      have := htail hrow n hn
      have := htail hrow' n' hn'
      omega
    . intro row hrow row' hrow' n n' hn hn'
      have hlast := htail hrow' n' hn'
      rw [mem_append] at hrow
      cases hrow with
      | inl hrow => exact absurd hn (hhead hrow n)
      | inr hrow =>
        rw [mem_flatMap] at hrow
        rcases hrow with ⟨⟨t, i⟩, hi, hrow⟩
        have := htx hi hrow n hn
        omega
  . exact List.Pairwise.nil

theorem Row.Within.txnum {tx tx' height height' : Nat} (h : row.Within tx tx' height height') (hn : row.txnum = some n)
    : tx ≤ n.toNat ∧ n.toNat < tx' := by
  cases row with
  | state key no val =>
    cases hn
    exact h.2
  | post p =>
    cases hn
    exact ⟨h.2.1, by have := h.2.2; omega⟩
  | _ => cases hn

theorem before_table (hbs : Consecutive height bs) (htx : tx.toNat + slots bs < 2 ^ 64)
    : (table crypto tx bs).Pairwise Row.Before := by
  induction bs generalizing tx height with
  | nil => exact List.Pairwise.nil
  | cons b bs ih =>
    rcases hbs with ⟨rfl, hbs⟩
    rw [slots_cons] at htx
    have hto := @Memtable.toNat_add_ofNat tx b.slots (by omega)
    rw [table, pairwise_append]
    refine ⟨BlockWrite.before_table (by omega), ih hbs (by omega), ?_⟩
    intro row hrow row' hrow' n n' hn hn'
    have hlow := (BlockWrite.within_of_mem_table (by omega) hrow).txnum hn
    have hhigh := (within_of_mem_table hbs (by omega) hrow').txnum hn'
    omega

def Row.Apart (row row' : Row) : Prop :=
  ∀ p p', row.posting = some p → row'.posting = some p' → p.txnum = p'.txnum → p.group ≠ p'.group

theorem TxWrite.apart_table (t : TxWrite) (n : UInt64) : (t.table n).Pairwise Row.Apart := by
  have hleft : ∀ {row row' : Row}, row.posting = none → row.Apart row' := by
    intro row row' h p p' hp
    rw [h] at hp
    cases hp
  have hright : ∀ {row row' : Row}, row'.posting = none → row.Apart row' := by
    intro row row' h p p' _ hp'
    rw [h] at hp'
    cases hp'
  have hsets : ∀ row ∈ t.logs.flatMap (fun l => (Memtable.logSets l.emitter l.topics).map Row.set),
      row.posting = none := by
    intro row hrow
    rw [mem_flatMap] at hrow
    rcases hrow with ⟨l, -, hrow⟩
    rw [mem_map] at hrow
    rcases hrow with ⟨k, -, rfl⟩
    rfl
  have hstate : ∀ row ∈ t.state.map (·.row n), row.posting = none := by
    intro row hrow
    rw [mem_map] at hrow
    rcases hrow with ⟨r, -, rfl⟩
    rfl
  unfold TxWrite.table
  dsimp only
  rw [pairwise_append, pairwise_append, pairwise_append]
  refine ⟨⟨⟨?_, ?_, ?_⟩, ?_, ?_⟩, ?_, ?_⟩
  . apply pairwise_of_forall_mem_list
    intro row hrow row' _
    simp only [mem_cons, not_mem_nil, or_false] at hrow
    rcases hrow with rfl | rfl | rfl | rfl <;> exact hleft rfl
  . rw [pairwise_map]
    have hnodup : (sortedKeys (txPostings t)).Nodup :=
      (perm_insertionSort _ _).nodup_iff.mpr (txPostings t).keys_nodup
    apply hnodup.imp
    intro g g' hne p p' hp hp' _
    cases hp
    cases hp'
    exact hne
  . intro row hrow row' _
    simp only [mem_cons, not_mem_nil, or_false] at hrow
    rcases hrow with rfl | rfl | rfl | rfl <;> exact hleft rfl
  . exact pairwise_of_forall_mem_list (fun row hrow _ _ => hleft (hsets row hrow))
  . exact fun row _ row' hrow' => hright (hsets row' hrow')
  . exact pairwise_of_forall_mem_list (fun row hrow _ _ => hleft (hstate row hrow))
  . exact fun row _ row' hrow' => hright (hstate row' hrow')

theorem Row.txnum_of_posting {p : Posting} (h : row.posting = some p) : row.txnum = some p.txnum := by
  cases row with
  | post p' =>
    cases h
    rfl
  | _ => cases h

theorem BlockWrite.apart_table (hfirst : first.toNat + b.slots < 2 ^ 64) : (b.table crypto first).Pairwise Row.Apart := by
  unfold BlockWrite.slots at hfirst
  unfold BlockWrite.table
  split
  . next container hcont =>
    have hhead : ∀ row ∈ b.headRows crypto first container, row.posting = none :=
      fun _ hrow => (txnum_posting_of_mem_headRows hrow).2
    have htail : ∀ row ∈ b.tail.map (·.row (first + UInt64.ofNat b.txs.length)), row.posting = none := by
      intro row hrow
      rw [mem_map] at hrow
      rcases hrow with ⟨r, -, rfl⟩
      rfl
    rw [tableOf_eq, pairwise_append, pairwise_append]
    refine ⟨⟨?_, ?_, ?_⟩, ?_, ?_⟩
    . exact pairwise_of_forall_mem_list (fun row hrow _ _ p p' hp => by rw [hhead row hrow] at hp; cases hp)
    . rw [pairwise_flatMap]
      constructor
      . rintro ⟨t, i⟩ -
        exact t.apart_table _
      . apply (zipIdx_pairwise_lt b.txs).imp_of_mem
        rintro ⟨t, i⟩ ⟨t', i'⟩ hi hi' hlt row hrow row' hrow' p p' hp hp' hsame
        have hb := (mem_zipIdx hi).2.1
        have hb' := (mem_zipIdx hi').2.1
        rw [TxWrite.txnum_of_mem_table hrow (Row.txnum_of_posting hp),
          TxWrite.txnum_of_mem_table hrow' (Row.txnum_of_posting hp'), ← UInt64.toNat_inj,
          toNat_add_ofNat (by omega), toNat_add_ofNat (by omega)] at hsame
        dsimp only at hlt
        omega
    . intro row hrow row' _ p p' hp
      rw [hhead row hrow] at hp
      cases hp
    . exact pairwise_of_forall_mem_list (fun row hrow _ _ p p' hp => by rw [htail row hrow] at hp; cases hp)
    . intro row _ row' hrow' p p' _ hp'
      rw [htail row' hrow'] at hp'
      cases hp'
  . exact List.Pairwise.nil

theorem apart_table (hbs : Consecutive height bs) (htx : tx.toNat + slots bs < 2 ^ 64)
    : (table crypto tx bs).Pairwise Row.Apart := by
  induction bs generalizing tx height with
  | nil => exact List.Pairwise.nil
  | cons b bs ih =>
    rcases hbs with ⟨rfl, hbs⟩
    rw [slots_cons] at htx
    have hto := @Memtable.toNat_add_ofNat tx b.slots (by omega)
    rw [table, pairwise_append]
    refine ⟨BlockWrite.apart_table (by omega), ih hbs (by omega), ?_⟩
    intro row hrow row' hrow' p p' hp hp' hsame
    have hlow := (BlockWrite.within_of_mem_table (by omega) hrow).txnum (Row.txnum_of_posting hp)
    have hhigh := (within_of_mem_table hbs (by omega) hrow').txnum (Row.txnum_of_posting hp')
    rw [hsame] at hlow
    omega

namespace Table

variable {t : Table} {key : Bytes}

theorem history_pairwise (h : t.Pairwise Row.Before) (key : Bytes)
    : (t.history key).Pairwise (fun v v' => v.num ≤ v'.num) := by
  unfold history
  rw [pairwise_filterMap]
  apply h.imp
  intro row row' hbefore v hv v' hv'
  cases row with
  | state key' no val =>
    cases row' with
    | state key'' no' val' =>
      simp only [Row.stateVal] at hv hv'
      split at hv
      . split at hv'
        . cases hv
          cases hv'
          exact hbefore _ _ rfl rfl
        . cases hv'
      . cases hv
    | _ => cases hv'
  | _ => cases hv

theorem mem_history {v : MemVal} : v ∈ t.history key ↔ Row.state key v.txnum v.val ∈ t := by
  unfold history
  rw [mem_filterMap]
  constructor
  . rintro ⟨row, hrow, hv⟩
    cases row with
    | state key' no val =>
      simp only [Row.stateVal] at hv
      split at hv
      . next hkey =>
        cases hv
        rwa [← hkey]
      . cases hv
    | _ => cases hv
  . intro h
    exact ⟨_, h, by simp [Row.stateVal]⟩

theorem valueAt_eq_some (hb : t.Pairwise Row.Before) {n : UInt64} {val : Bytes}
    : t.valueAt key n = some val ↔ (⟨n, val⟩ : MemVal) ∈ History.record MemVal.num (t.history key) := by
  rw [History.mem_record_iff MemVal.num (history_pairwise hb key)]
  have hfilter : (t.history key).filter (fun v => MemVal.num v = MemVal.num ⟨n, val⟩) =
      (t.history key).filter (fun v => v.txnum = n) := by
    apply filter_congr
    intro v _
    unfold MemVal.num
    rw [decide_eq_decide]
    exact UInt64.toNat_inj
  rw [hfilter]
  unfold valueAt
  rw [Option.map_eq_some_iff]
  constructor
  . rintro ⟨v, hv, rfl⟩
    have hmem := mem_of_getLast? hv
    rw [mem_filter, decide_eq_true_eq] at hmem
    rw [hv, ← hmem.2]
  . intro hv
    exact ⟨_, hv, rfl⟩

theorem mem_posts {p : Posting} : p ∈ t.posts ↔ Row.post p ∈ t := by
  unfold posts
  rw [mem_filterMap]
  constructor
  . rintro ⟨row, hrow, hp⟩
    cases row with
    | post p' =>
      cases hp
      exact hrow
    | _ => cases hp
  . intro h
    exact ⟨_, h, rfl⟩

theorem mem_sets : key ∈ t.sets ↔ Row.set key ∈ t := by
  unfold sets
  rw [mem_filterMap]
  constructor
  . rintro ⟨row, hrow, hkey⟩
    cases row with
    | set key' =>
      cases hkey
      exact hrow
    | _ => cases hkey
  . intro h
    exact ⟨_, h, rfl⟩

theorem mem_of_chainGet {fam : Fam} {n : UInt64} {val : Bytes} (h : t.chainGet fam n = some val)
    : Row.chain fam n val ∈ t := by
  have hmem := mem_of_getLast? h
  rw [mem_filterMap] at hmem
  rcases hmem with ⟨row, hrow, hval⟩
  cases row with
  | chain fam' no val' =>
    simp only [Row.chainVal] at hval
    split at hval
    . next hsame =>
      rcases hsame with ⟨rfl, rfl⟩
      cases hval
      exact hrow
    . cases hval
  | _ => cases hval

theorem mem_of_lookupNum {no : UInt64} (h : t.lookupNum key = some no) : Row.num key no ∈ t := by
  have hmem := mem_of_getLast? h
  rw [mem_filterMap] at hmem
  rcases hmem with ⟨row, hrow, hno⟩
  cases row with
  | num key' no' =>
    simp only [Row.numVal] at hno
    split at hno
    . next hkey =>
      cases hno
      rwa [← hkey]
    . cases hno
  | _ => cases hno

theorem posts_pairwise (h : t.Pairwise Row.Apart) : t.posts.Pairwise (fun p q => p.txnum = q.txnum → p.group ≠ q.group) := by
  unfold posts
  rw [pairwise_filterMap]
  apply h.imp
  intro row row' hapart p hp p' hp'
  exact hapart p p' hp hp'

end Table

structure Took (crypto : Crypto) (m : Memtable) (bs : List BlockWrite) : Prop where
  shows : m.Shows (table crypto m.baseTx bs)
  nextTx : m.nextTx.toNat = m.baseTx.toNat + slots bs
  consecutive : Consecutive m.baseHeight.toNat bs
  nextHeight : m.nextHeight.toNat = m.baseHeight.toNat + bs.length
  started : m.started = true ↔ bs ≠ []
  container : ∀ b ∈ bs, b.Rebuilds crypto

theorem took_fresh (crypto : Crypto) (path : LogName) (baseTx baseHeight : UInt64)
    : Took crypto (Memtable.fresh path baseTx baseHeight) [] where
  shows := shows_fresh path baseTx baseHeight
  nextTx := rfl
  consecutive := trivial
  nextHeight := rfl
  started := by simp [Memtable.fresh, Memtable.reset, Memtable.clear]
  container := by simp

theorem height_of_add
    (h : (Memtable.add crypto file b).run m = .ok () m') (hge : m.nextHeight ≤ b.height) (hne : m.nextHeight ≠ 0)
    : b.height = m.nextHeight := by
  rcases add_cases crypto file b m with ⟨hlt, -⟩ | ⟨-, -, e, hadd⟩ | ⟨-, hwaits, -⟩
  . exact absurd hlt (UInt64.not_lt.mpr hge)
  . rw [hadd] at h
    cases h
  . exact hwaits.eq_of_ne hne

theorem container_of_addRows (h : (Memtable.addRows crypto file b first).run m = .ok () m') : b.Rebuilds crypto := by
  unfold Memtable.addRows Memtable.addRest at h
  unfold BlockWrite.Rebuilds BlockWrite.container
  cases hcont : reassemble crypto.encodeList b.pvm b.headerRLP (b.txs.map (·.rlp)) with
  | ok container => exact ⟨container, rfl⟩
  | error e =>
    rw [hcont] at h
    simp only [EStateM.run_bind_eq_ok] at h
    rcases h with ⟨_, _, -, _, _, -, _, _, -, _, _, -, h⟩
    cases h

theorem Took.begun (h : Took crypto m bs) {height : UInt64} (hstart : m.started = true → height = m.nextHeight)
    : (m.begun height).Shows (table crypto m.baseTx bs) ∧
      Consecutive (m.begun height).baseHeight.toNat bs ∧
      height.toNat = (m.begun height).baseHeight.toNat + bs.length := by
  refine ⟨⟨h.shows.pos, h.shows.readable, h.shows.chain, h.shows.nums, h.shows.code, h.shows.post, h.shows.sets,
    h.shows.nodup, h.shows.history⟩, ?_⟩
  cases hs : m.started with
  | true =>
    simp only [Memtable.begun, hs, if_true]
    rw [hstart hs]
    exact ⟨h.consecutive, h.nextHeight⟩
  | false =>
    have hbs : bs = [] := by
      by_contra hne
      rw [h.started.mpr hne] at hs
      contradiction
    subst hbs
    simp [Memtable.begun, hs, Consecutive]

theorem Took.add
    (h : Took crypto m bs) (hb : b.HasNext) (hfirst : m.nextTx.toNat + b.slots < 2 ^ 64) (hrun : (Memtable.add crypto file b).run m = .ok () m')
    : b.height < m.nextHeight ∧ m' = m ∨
      m.nextHeight ≤ b.height ∧ (m.nextHeight ≠ 0 → b.height = m.nextHeight) ∧ Took crypto m' (bs ++ [b]) ∧
        m'.baseTx = m.baseTx ∧ m'.baseHeight = (m.begun b.height).baseHeight := by
  rcases add_cases crypto file b m with ⟨hlt, hadd⟩ | ⟨-, -, e, hadd⟩ | ⟨hge, hwaits, hadd⟩
  . rw [hadd] at hrun
    cases hrun
    exact .inl ⟨hlt, rfl⟩
  . rw [hadd] at hrun
    cases hrun
  . right
    refine ⟨hge, height_of_add hrun hge, ?_⟩
    rw [hadd] at hrun
    have hcont : b.Rebuilds crypto := by
      have hrows := hrun
      unfold appendBlock at hrows
      rw [EStateM.run_bind_of_ok (EStateM.run_get _), EStateM.run_bind_eq_ok] at hrows
      rcases hrows with ⟨_, m1, hrows, -⟩
      exact container_of_addRows hrows
    rcases h.begun hwaits.eq_of_started with ⟨hshows, hcons, hheight⟩
    have hnext : (m.begun b.height).nextTx = m.nextTx := rfl
    rcases Memtable.Shows.appendBlock hb (by rwa [hnext]) hrun with ⟨happ, r, log, pos, flushed, rfl⟩
    have hat : m.nextTx = m.baseTx + UInt64.ofNat (slots bs) := by
      apply UInt64.toNat_inj.mp
      have hlt := m.nextTx.toNat_lt
      rw [h.nextTx] at hlt ⊢
      rw [toNat_add_ofNat hlt]
    refine ⟨⟨?_, ?_, ?_, ?_, ?_, ?_⟩, rfl, rfl⟩
    . have hrows : table crypto m.baseTx (bs ++ [b]) =
          table crypto m.baseTx bs ++ b.table crypto (m.begun b.height).nextTx := by
        rw [hnext, hat, table_append]
        simp [table]
      have hnew := happ _ hshows
      rw [← hrows] at hnew
      exact hnew
    . dsimp only
      rw [hnext, toNat_add_ofNat hfirst, h.nextTx, slots_append]
      simp [Memtable.begun, Nat.add_assoc]
    . rw [consecutive_append]
      exact ⟨hcons, hheight, trivial⟩
    . dsimp only
      rw [toNat_add_one hb, hheight]
      simp [Nat.add_assoc]
    . simp [Memtable.begun]
    . intro b' hb'
      rw [mem_append, mem_singleton] at hb'
      cases hb' with
      | inl hb' => exact h.container b' hb'
      | inr hb' =>
        rw [hb']
        exact hcont

end EpochDB.Store
