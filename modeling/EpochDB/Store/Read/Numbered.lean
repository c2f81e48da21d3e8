import EpochDB.Store.Read.Slots

/-!
The transactions of the blocks under their TxNums, with the postings and the set rows each of them
brings.
-/

namespace EpochDB.Store

open List Memtable

def BlockWrite.numbered (b : BlockWrite) (first : UInt64) : List (UInt64 × TxWrite) :=
  b.txs.zipIdx.map (fun (t, i) => (first + UInt64.ofNat i, t))

def numbered (first : UInt64) (bs : List BlockWrite) : List (UInt64 × TxWrite) :=
  match bs with
  | [] => []
  | b :: bs => b.numbered first ++ numbered (first + UInt64.ofNat b.slots) bs

namespace TxWrite

def posts (t : TxWrite) (n : UInt64) : List Posting :=
  (sortedKeys (txPostings t)).map (fun g => ⟨g, n, ((txPostings t).lookup g).getD 0⟩)

def sets (t : TxWrite) : List Bytes := t.logs.flatMap (fun l => Memtable.logSets l.emitter l.topics)

end TxWrite

theorem filterMap_map_eq {α β : Type} {f : α → β} {g : β → Option α} (h : ∀ a, g (f a) = some a) (l : List α)
    : (l.map f).filterMap g = l := by
  rw [filterMap_map, show g ∘ f = some from funext h, filterMap_some]

theorem filterMap_rows_of_txs {α : Type} {f : Row → Option α} {rows : TxWrite → UInt64 → List α}
    (hrows : ∀ t n, (t.table n).filterMap f = rows t n) (txs : List TxWrite) (first : UInt64)
    : (txs.zipIdx.flatMap (fun (t, i) => t.table (first + UInt64.ofNat i))).filterMap f =
        (txs.zipIdx.map (fun (t, i) => (first + UInt64.ofNat i, t))).flatMap (fun p => rows p.2 p.1) := by
  rw [filterMap_flatMap, flatMap_map]
  apply flatMap_congr
  rintro ⟨t, i⟩ -
  exact hrows t _

variable {bs : List BlockWrite} {first n : UInt64} {t : TxWrite}

theorem filterMap_table {α : Type} {f : Row → Option α} {rows : TxWrite → UInt64 → List α}
    (hrows : ∀ t n, (t.table n).filterMap f = rows t n) (hchain : ∀ fam no val, f (.chain fam no val) = none)
    (hnum : ∀ key no, f (.num key no) = none) (hcode : ∀ hash blob, f (.code hash blob) = none)
    (hstate : ∀ key no val, f (.state key no val) = none) {crypto : Crypto}
    (hcont : ∀ b ∈ bs, b.Rebuilds crypto) (first : UInt64)
    : (table crypto first bs).filterMap f = (numbered first bs).flatMap (fun p => rows p.2 p.1) := by
  induction bs generalizing first with
  | nil => rfl
  | cons b bs ih =>
    rcases hcont b mem_cons_self with ⟨container, hb⟩
    have hhead : (b.headRows crypto first container).filterMap f = [] := by
      rw [BlockWrite.headRows, filterMap_append, filterMap_map_none (fun _ => hcode _ _), append_nil]
      simp only [filterMap_cons, hchain, hnum, filterMap_nil]
    have htail : (b.tail.map (·.row (first + UInt64.ofNat b.txs.length))).filterMap f = [] :=
      filterMap_map_none (fun _ => hstate _ _ _) _
    have hblock : (b.table crypto first).filterMap f = (b.numbered first).flatMap (fun p => rows p.2 p.1) := by
      unfold BlockWrite.table
      rw [hb]
      dsimp only
      rw [BlockWrite.tableOf_eq, filterMap_append, filterMap_append, hhead, htail,
        filterMap_rows_of_txs hrows, nil_append, append_nil]
      rfl
    rw [table, numbered, filterMap_append, flatMap_append, hblock, ih (fun b hb => hcont b (mem_cons_of_mem _ hb))]

theorem TxWrite.posts_table (t : TxWrite) (n : UInt64) : (t.table n).filterMap Row.posting = t.posts n := by
  unfold TxWrite.table
  dsimp only
  have hsets : (t.logs.flatMap (fun l => (Memtable.logSets l.emitter l.topics).map Row.set)).filterMap Row.posting = [] := by
    rw [filterMap_flatMap, flatMap_eq_nil_iff]
    exact fun l _ => filterMap_map_none (fun _ => rfl) _
  rw [filterMap_append, filterMap_append, filterMap_append, hsets,
    filterMap_map_none (fun _ => rfl) t.state, append_nil, append_nil, filterMap_map]
  simp only [filterMap_cons, filterMap_nil, Row.posting, nil_append]
  unfold TxWrite.posts
  rw [← filterMap_eq_map]
  rfl

theorem TxWrite.sets_table (t : TxWrite) (n : UInt64) : (t.table n).filterMap Row.setKey = t.sets := by
  unfold TxWrite.table
  dsimp only
  rw [filterMap_append, filterMap_append, filterMap_append, filterMap_map_none (fun _ => rfl) t.state,
    filterMap_map_none (fun _ => rfl) (sortedKeys _), filterMap_flatMap, append_nil, append_nil]
  simp only [filterMap_cons, filterMap_nil, Row.setKey, nil_append]
  apply flatMap_congr
  intro l _
  exact filterMap_map_eq (f := Row.set) (fun _ => rfl) _

section

variable {crypto : Crypto} {bs : List BlockWrite} (hcont : ∀ b ∈ bs, b.Rebuilds crypto)
  (first : UInt64)

include hcont

theorem posts_table : (table crypto first bs).posts = (numbered first bs).flatMap (fun p => p.2.posts p.1) :=
  filterMap_table TxWrite.posts_table (fun _ _ _ => rfl) (fun _ _ => rfl) (fun _ _ => rfl) (fun _ _ _ => rfl) hcont first

theorem sets_table : (table crypto first bs).sets = (numbered first bs).flatMap (fun p => p.2.sets) :=
  filterMap_table TxWrite.sets_table (fun _ _ _ => rfl) (fun _ _ => rfl) (fun _ _ => rfl) (fun _ _ _ => rfl) hcont first

end

namespace TxWrite

def logMarks (emitter : Addr) (topics : List Hash) : List (Bytes × UInt8) :=
  match topics with
  | [] => [(eLogGroup emitter zeroHash, 0)]
  | topic0 :: topics =>
    (sigGroup topic0, 0) :: (eLogGroup emitter topic0, 0) ::
      (topics.take 3).zipIdx.map (fun (topic, i) => (tValGroup topic topic0, (1 : UInt8) <<< UInt8.ofNat i))

def roleMark (r : UInt8) (a : Addr) : Bytes × UInt8 := (addrPrefix a, r)

def marks (t : TxWrite) : List (Bytes × UInt8) :=
  t.sender.toList.map (roleMark roleSender) ++ t.recipient.toList.map (roleMark roleRecipient) ++
    t.created.toList.map (roleMark roleCreated) ++ t.frameAddrs.map (roleMark roleFrame) ++
    t.logs.flatMap (fun l => roleMark roleEmitter l.emitter :: logMarks l.emitter l.topics)

def mark (post : Memtable.PostMap) (m : Bytes × UInt8) : Memtable.PostMap := Memtable.orInto post m.1 m.2

theorem role_eq (post : Memtable.PostMap) (a : Option Addr) (r : UInt8)
    : Memtable.role post a r = (a.toList.map (roleMark r)).foldl mark post := by
  cases a with
  | none => rfl
  | some a => rfl

theorem logPostings_eq (post : Memtable.PostMap) (emitter : Addr) (topics : List Hash)
    : logPostings post emitter topics = (logMarks emitter topics).foldl mark post := by
  cases topics with
  | nil => rfl
  | cons topic0 topics =>
    unfold logPostings logMarks
    dsimp only
    rw [foldl_cons, foldl_cons, foldl_map]
    rfl

theorem txPostings_eq (t : TxWrite) : txPostings t = t.marks.foldl mark ∅ := by
  unfold txPostings marks
  dsimp only
  rw [foldl_append, foldl_append, foldl_append, foldl_append, foldl_map, foldl_flatMap,
    role_eq ∅, role_eq _ t.recipient, role_eq _ t.created]
  congr 1
  funext post l
  rw [logPostings_eq, foldl_cons]
  rfl

theorem lookup_foldl_mark (ms : List (Bytes × UInt8)) (post : Memtable.PostMap) (g : Bytes)
    : (ms.foldl mark post).lookup g =
        if g ∈ ms.map (·.1) then
          some (((ms.filter (fun m => m.1 = g)).map (·.2)).foldl (· ||| ·) ((post.lookup g).getD 0))
        else
          post.lookup g := by
  induction ms generalizing post with
  | nil => rfl
  | cons m ms ih =>
    rw [foldl_cons, ih, filter_cons]
    unfold mark Memtable.orInto
    by_cases hg : g = m.1
    . subst hg
      rw [AList.lookup_insert, decide_eq_true rfl, if_pos rfl, map_cons, map_cons, foldl_cons,
        if_pos (mem_cons_self (a := m.1)), Option.getD_some]
      split
      . rfl
      . next hmem =>
        have hnil : ms.filter (fun m' => m'.1 = m.1) = [] := by
          rw [filter_eq_nil_iff]
          intro m' hm' heq
          exact hmem (mem_map.mpr ⟨m', hm', of_decide_eq_true heq⟩)
        rw [hnil]
        rfl
    . have hiff : g ∈ (m :: ms).map (·.1) ↔ g ∈ ms.map (·.1) := by
        rw [map_cons, mem_cons, or_iff_right hg]
      rw [AList.lookup_insert_ne hg, decide_eq_false (Ne.symm hg), if_neg Bool.false_ne_true]
      simp only [hiff]

theorem lookup_txPostings (t : TxWrite) (g : Bytes)
    : (txPostings t).lookup g =
        if g ∈ t.marks.map (·.1) then
          some (((t.marks.filter (fun m => m.1 = g)).map (·.2)).foldl (· ||| ·) 0)
        else
          none := by
  rw [txPostings_eq, lookup_foldl_mark, AList.lookup_empty]
  rfl

theorem foldl_or_and_eq_zero (rs : List UInt8) (p bit : UInt8)
    : rs.foldl (· ||| ·) p &&& bit = 0 ↔ p &&& bit = 0 ∧ ∀ r ∈ rs, r &&& bit = 0 := by
  induction rs generalizing p with
  | nil => simp
  | cons r rs ih =>
    have hdistrib : (p ||| r) &&& bit = (p &&& bit) ||| (r &&& bit) := by
      apply UInt8.toNat_inj.mp
      simp only [UInt8.toNat_and, UInt8.toNat_or, Nat.and_or_distrib_right]
    rw [foldl_cons, ih, hdistrib, UInt8.or_eq_zero_iff, forall_mem_cons, and_assoc]

variable {t : TxWrite} {a : Addr}

theorem bit_iff {g : Bytes} {payload : UInt8} (h : (txPostings t).lookup g = some payload)
    (bit : UInt8) : payload &&& bit ≠ 0 ↔ ∃ r, (g, r) ∈ t.marks ∧ r &&& bit ≠ 0 := by
  rw [lookup_txPostings] at h
  split at h
  . rw [Option.some.injEq] at h
    rw [← h, Ne, foldl_or_and_eq_zero]
    simp
  . cases h

theorem isSome_lookup_iff (t : TxWrite) (g : Bytes)
    : (∃ payload, (txPostings t).lookup g = some payload) ↔ ∃ r, (g, r) ∈ t.marks := by
  rw [lookup_txPostings]
  split
  . next h =>
    simpa using h
  . next h =>
    simpa using h

theorem addrPrefix_inj {a a' : Addr} (h : addrPrefix a = addrPrefix a') : a = a' := by
  apply Subtype.ext
  simpa [addrPrefix, join] using h

theorem ne_addrPrefix_of_logMarks {emitter : Addr} {topics : List Hash} {g : Bytes} {r : UInt8}
    (h : (g, r) ∈ logMarks emitter topics) (a : Addr) : g ≠ addrPrefix a := by
  rintro rfl
  cases topics with
  | nil =>
    simp only [logMarks, mem_singleton, Prod.mk.injEq] at h
    have htag : some 'a'.toUInt8 = some 'e'.toUInt8 := congrArg List.head? h.1
    exact absurd htag (by decide)
  | cons topic0 topics =>
    simp only [logMarks, mem_cons, mem_map, Prod.mk.injEq, Prod.exists] at h
    rcases h with ⟨h, -⟩ | ⟨h, -⟩ | ⟨topic, i, -, h, -⟩
    . have htag : some 'a'.toUInt8 = some 's'.toUInt8 := congrArg List.head? h
      exact absurd htag (by decide)
    . have htag : some 'a'.toUInt8 = some 'e'.toUInt8 := congrArg List.head? h
      exact absurd htag (by decide)
    . have htag : some 't'.toUInt8 = some 'a'.toUInt8 := congrArg List.head? h
      exact absurd htag (by decide)

theorem mem_roleMarks {as : List Addr} {role r : UInt8} : (addrPrefix a, r) ∈ as.map (roleMark role) ↔ a ∈ as ∧ r = role := by
  rw [mem_map]
  constructor
  . rintro ⟨a', ha', h⟩
    cases addrPrefix_inj (congrArg Prod.fst h)
    exact ⟨ha', (congrArg Prod.snd h).symm⟩
  . rintro ⟨ha, rfl⟩
    exact ⟨a, ha, rfl⟩

theorem mem_marks_addr {r : UInt8}
    : (addrPrefix a, r) ∈ t.marks ↔ t.sender = some a ∧ r = roleSender ∨ t.recipient = some a ∧ r = roleRecipient ∨
        t.created = some a ∧ r = roleCreated ∨ a ∈ t.frameAddrs ∧ r = roleFrame ∨
        (∃ l ∈ t.logs, l.emitter = a) ∧ r = roleEmitter := by
  have hlogs : (addrPrefix a, r) ∈ t.logs.flatMap (fun l => roleMark roleEmitter l.emitter :: logMarks l.emitter l.topics) ↔
      (∃ l ∈ t.logs, l.emitter = a) ∧ r = roleEmitter := by
    rw [mem_flatMap]
    constructor
    . rintro ⟨l, hl, hmem⟩
      rcases mem_cons.mp hmem with h | h
      . exact ⟨⟨l, hl, (addrPrefix_inj (congrArg Prod.fst h)).symm⟩, congrArg Prod.snd h⟩
      . exact absurd rfl (ne_addrPrefix_of_logMarks h a)
    . rintro ⟨⟨l, hl, rfl⟩, rfl⟩
      exact ⟨l, hl, mem_cons_self⟩
  unfold marks
  rw [mem_append, mem_append, mem_append, mem_append, mem_roleMarks, mem_roleMarks, mem_roleMarks,
    mem_roleMarks, hlogs, Option.mem_toList, Option.mem_toList, Option.mem_toList, or_assoc, or_assoc, or_assoc]

def roles : List UInt8 := [roleSender, roleRecipient, roleCreated, roleFrame, roleEmitter]

theorem eq_of_roles : ∀ r ∈ roles, ∀ r' ∈ roles, r &&& r' ≠ 0 → r = r' := by decide +kernel

theorem role_iff {payload role : UInt8} (hrole : role ∈ roles) (h : (txPostings t).lookup (addrPrefix a) = some payload)
    : payload &&& role ≠ 0 ↔ (addrPrefix a, role) ∈ t.marks := by
  rw [bit_iff h]
  constructor
  . rintro ⟨r, hr, hbit⟩
    have hr' : r ∈ roles := by
      rcases mem_marks_addr.mp hr with ⟨-, rfl⟩ | ⟨-, rfl⟩ | ⟨-, rfl⟩ | ⟨-, rfl⟩ | ⟨-, rfl⟩ <;> decide
    rwa [← eq_of_roles r hr' role hrole hbit]
  . intro hmem
    have hself : ∀ r ∈ roles, r &&& r ≠ 0 := by decide +kernel
    exact ⟨role, hmem, hself role hrole⟩

theorem sender_iff : (addrPrefix a, roleSender) ∈ t.marks ↔ t.sender = some a := by
  rw [mem_marks_addr]
  simp +decide

end TxWrite

theorem mem_numbered_block {b : BlockWrite}
    : (n, t) ∈ b.numbered first ↔ ∃ j, b.txs[j]? = some t ∧ n = first + UInt64.ofNat j := by
  unfold BlockWrite.numbered
  rw [mem_map]
  constructor
  . rintro ⟨⟨t', j⟩, hj, heq⟩
    cases heq
    rw [mem_zipIdx_iff_getElem?] at hj
    exact ⟨j, hj, rfl⟩
  . rintro ⟨j, hj, rfl⟩
    exact ⟨(t, j), mem_zipIdx_iff_getElem?.mpr hj, rfl⟩

theorem mem_numbered
    : (n, t) ∈ numbered first bs ↔ ∃ i b j, bs[i]? = some b ∧ b.txs[j]? = some t ∧
        n = first + UInt64.ofNat (slots (bs.take i) + j) := by
  induction bs generalizing first with
  | nil => simp [numbered]
  | cons b bs ih =>
    rw [numbered, mem_append, mem_numbered_block, ih]
    constructor
    . rintro (⟨j, hj, rfl⟩ | ⟨i, b', j, hb', hj, rfl⟩)
      . exact ⟨0, b, j, rfl, hj, by simp [slots]⟩
      . refine ⟨i + 1, b', j, hb', hj, ?_⟩
        rw [take_succ_cons, slots_cons, Nat.add_assoc, UInt64.ofNat_add b.slots, UInt64.add_assoc]
    . rintro ⟨i, b', j, hb', hj, rfl⟩
      cases i with
      | zero =>
        cases hb'
        exact .inl ⟨j, hj, by simp [slots]⟩
      | succ i =>
        refine .inr ⟨i, b', j, hb', hj, ?_⟩
        rw [take_succ_cons, slots_cons, Nat.add_assoc, UInt64.ofNat_add b.slots, UInt64.add_assoc]

theorem toNat_of_mem_numbered (hlt : first.toNat + slots bs < 2 ^ 64)
    (h : (n, t) ∈ numbered first bs) : first.toNat ≤ n.toNat ∧ n.toNat < first.toNat + slots bs := by
  rcases mem_numbered.mp h with ⟨i, b, j, hb, hj, rfl⟩
  have hsucc := Read.slots_take_succ hb
  have hle := Read.slots_le_of_isPrefix (List.take_prefix (i + 1) bs)
  have hlen := (List.getElem?_eq_some_iff.mp hj).1
  unfold BlockWrite.slots at hsucc
  rw [toNat_add_ofNat (by omega)]
  omega

theorem numbered_block_pairwise {b : BlockWrite} (hlt : first.toNat + b.txs.length < 2 ^ 64)
    : (b.numbered first).Pairwise (fun p q => p.1 < q.1) := by
  unfold BlockWrite.numbered
  rw [pairwise_map]
  apply (zipIdx_pairwise_lt b.txs).imp_of_mem
  rintro ⟨t, i⟩ ⟨t', i'⟩ hi hi' hii
  have hb := (mem_zipIdx hi).2.1
  have hb' := (mem_zipIdx hi').2.1
  dsimp only at hii ⊢
  rw [UInt64.lt_iff_toNat_lt, toNat_add_ofNat (by omega), toNat_add_ofNat (by omega)]
  omega

theorem numbered_pairwise (hlt : first.toNat + slots bs < 2 ^ 64) : (numbered first bs).Pairwise (fun p q => p.1 < q.1) := by
  induction bs generalizing first with
  | nil => exact List.Pairwise.nil
  | cons b bs ih =>
    rw [slots_cons] at hlt
    have hnext : (first + UInt64.ofNat b.slots).toNat = first.toNat + b.slots := toNat_add_ofNat (by omega)
    have hslots : b.slots = b.txs.length + 1 := rfl
    rw [numbered, pairwise_append]
    refine ⟨numbered_block_pairwise (by omega), ih (by omega), ?_⟩
    rintro ⟨n, t⟩ hp ⟨n', t'⟩ hq
    rcases mem_numbered_block.mp hp with ⟨j, hj, rfl⟩
    have hlen := (List.getElem?_eq_some_iff.mp hj).1
    have hge := (toNat_of_mem_numbered (by omega) hq).1
    dsimp only
    rw [UInt64.lt_iff_toNat_lt, toNat_add_ofNat (by omega)]
    omega

theorem rowAt_of_mem_numbered {fam : Fam} (hfam : fam ∈ txKeyedFams)
    (hlt : first.toNat + slots bs < 2 ^ 64) (h : (n, t) ∈ numbered first bs) : rowAt first.toNat bs fam n = txRow t fam := by
  have hheight : byHeight fam = false := by simpa [byHeight] using hfam
  induction bs generalizing first with
  | nil => cases h
  | cons b bs ih =>
    rw [slots_cons] at hlt
    have hslots : b.slots = b.txs.length + 1 := rfl
    have hnext : (first + UInt64.ofNat b.slots).toNat = first.toNat + b.slots := toNat_add_ofNat (by omega)
    rw [rowAt]
    rw [numbered, mem_append] at h
    rcases h with h | h
    . rcases mem_numbered_block.mp h with ⟨j, hj, rfl⟩
      have hlen := (List.getElem?_eq_some_iff.mp hj).1
      have hn : (first + UInt64.ofNat j).toNat = first.toNat + j := toNat_add_ofNat (by omega)
      have hrest : rowAt (first.toNat + b.slots) bs fam (first + UInt64.ofNat j) = none := by
        rw [← Option.not_isSome_iff_eq_none, Read.rowAt_isSome hfam]
        rintro ⟨i, b', -, hlo, -⟩
        omega
      rw [hrest, Option.none_or, BlockWrite.rowAt, hheight, if_neg Bool.false_ne_true, if_pos (by omega), hn,
        Nat.add_sub_cancel_left, hj]
      rfl
    . rw [← hnext, ih (by omega) h]
      cases fam <;> simp [txKeyedFams] at hfam <;> rfl

end EpochDB.Store
