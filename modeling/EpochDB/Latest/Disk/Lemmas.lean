import EpochDB.Latest.Disk.Impl

/-!
A run file answers as the rows it was written from.
-/

namespace EpochDB.Latest.Disk

open List
open FrontCoding (common encode decode scan)

def Valid (row : Row) : Prop := row.1 ≠ [] ∧ row.1.length ≤ maxKey ∧ row.2.length ≤ maxValue

instance (row : Row) : Decidable (Valid row) := inferInstanceAs (Decidable (_ ∧ _ ∧ _))

def headKey (rows : List Row) : Bytes := (rows.head?.map (·.1)).getD []

def lastKey (prev : Bytes) (rows : List Row) : Bytes := (rows.getLast?.map (·.1)).getD prev

structure Run.Of (r : Run) (chunks : List (List Row)) : Prop where
  blocks : r.blocks = chunks.map (encode [])
  index : r.index = chunks.map (fun c => pad (headKey c))
  nonempty : ∀ c ∈ chunks, c ≠ []
  ordered : SortedMap.Ordered chunks.flatten
  valid : ∀ row ∈ chunks.flatten, Valid row

theorem lastKey_cons (prev : Bytes) (r : Row) (rows : List Row) : lastKey prev (r :: rows) = lastKey r.1 rows := by
  unfold lastKey
  cases rows with
  | nil => rfl
  | cons s rows => rw [getLast?_cons_cons]; simp [getLast?_cons]

theorem encode_append (prev : Bytes) (rows rows' : List Row)
    : encode prev (rows ++ rows') = encode prev rows ++ encode (lastKey prev rows) rows' := by
  induction rows generalizing prev with
  | nil => rfl
  | cons r rows ih => rw [cons_append, encode, encode, ih, lastKey_cons, cons_append]

variable {rows cur : List Row} {w : Writer} {chunks : List (List Row)} {a b : Bytes}

theorem encode_eq_nil {prev : Bytes} : encode prev rows = [] ↔ rows = [] := by
  cases rows <;> simp [encode]

structure Writer.Of (w : Writer) (chunks : List (List Row)) (cur : List Row) : Prop where
  blocks : w.blocks = chunks.map (encode [])
  blk : w.blk = encode [] cur
  prev : w.prev = lastKey [] (chunks.flatten ++ cur)
  index : w.index = (chunks ++ (if cur = [] then [] else [cur])).map (fun c => pad (headKey c))
  n : w.n = (chunks.flatten ++ cur).length
  nonempty : ∀ c ∈ chunks, c ≠ []
  ordered : SortedMap.Ordered (chunks.flatten ++ cur)
  valid : ∀ row ∈ chunks.flatten ++ cur, Valid row

theorem Writer.of_new : Writer.new.Of [] [] :=
  ⟨rfl, rfl, rfl, rfl, rfl, by simp, List.Pairwise.nil, by simp⟩

theorem lastKey_append_cons (prev : Bytes) (rows : List Row) (r : Row) : lastKey prev (rows ++ [r]) = r.1 := by
  simp [lastKey]

theorem headKey_append (h : rows ≠ []) (rows' : List Row) : headKey (rows ++ rows') = headKey rows := by
  cases rows with
  | nil => exact absurd rfl h
  | cons r rows => rfl

theorem Writer.Of.append (h : w.Of chunks cur) {key value : Bytes}
    (hvalid : Valid (key, value)) (hafter : ∀ row ∈ chunks.flatten ++ cur, row.1 < key)
    : (w.append (if w.blk = [] then 0 else common w.prev key) key value).Of chunks (cur ++ [(key, value)]) := by
  have hcur : w.blk = [] ↔ cur = [] := by rw [h.blk, encode_eq_nil]
  have hordered : SortedMap.Ordered (chunks.flatten ++ (cur ++ [(key, value)])) := by
    rw [← append_assoc]
    refine pairwise_append.mpr ⟨h.ordered, pairwise_singleton _ _, ?_⟩
    intro row hrow r hr
    rw [mem_singleton.mp hr]
    exact hafter row hrow
  refine ⟨h.blocks, ?_, ?_, ?_, ?_, h.nonempty, hordered, ?_⟩
  . change w.blk ++ [_] = _
    rw [encode_append, h.blk]
    congr 1
    by_cases hnil : cur = []
    . rw [if_pos (encode_eq_nil.mpr hnil), hnil]
      rfl
    . rw [if_neg (fun hblk => hnil (encode_eq_nil.mp hblk)), h.prev]
      have hlast : lastKey [] (chunks.flatten ++ cur) = lastKey [] cur := by
        unfold lastKey
        rw [getLast?_append_of_ne_nil _ hnil]
      rw [hlast]
      rfl
  . change key = _
    rw [← append_assoc, lastKey_append_cons]
  . change (if w.blk = [] then w.index ++ [pad key] else w.index) = _
    have hsnoc : cur ++ [(key, value)] ≠ [] := by simp
    rw [if_neg hsnoc, h.index]
    by_cases hnil : cur = []
    . rw [if_pos (hcur.mpr hnil), if_pos hnil, hnil]
      simp [headKey]
    . rw [if_neg (fun hblk => hnil (hcur.mp hblk)), if_neg hnil]
      simp [headKey_append hnil]
  . change w.n + 1 = _
    rw [h.n]
    simp [Nat.add_assoc]
  . intro row hrow
    rw [← append_assoc] at hrow
    rcases mem_append.mp hrow with hrow | hrow
    . exact h.valid row hrow
    . rw [mem_singleton.mp hrow]
      exact hvalid

theorem Writer.Of.flush (h : w.Of chunks cur) (hcur : cur ≠ []) : w.flush.Of (chunks ++ [cur]) [] := by
  have hblk : w.blk ≠ [] := by rwa [h.blk, ne_eq, encode_eq_nil]
  have hflat : (chunks ++ [cur]).flatten ++ [] = chunks.flatten ++ cur := by simp
  unfold Writer.flush
  rw [if_neg hblk]
  refine ⟨?_, rfl, ?_, ?_, ?_, ?_, ?_, ?_⟩
  . change w.blocks ++ [w.blk] = _
    rw [h.blocks, h.blk, map_append]
    rfl
  . rw [hflat]
    exact h.prev
  . change w.index = _
    rw [h.index, if_neg hcur, if_pos rfl, append_nil]
  . rw [hflat]
    exact h.n
  . intro c hc
    rcases mem_append.mp hc with hc | hc
    . exact h.nonempty c hc
    . rwa [mem_singleton.mp hc]
  . rw [hflat]
    exact h.ordered
  . rw [hflat]
    exact h.valid

theorem Writer.Of.add (h : w.Of chunks cur) {row : Row}
    (hvalid : Valid row) (hafter : ∀ r ∈ chunks.flatten ++ cur, r.1 < row.1)
    : ∃ w' chunks' cur', w.add row.1 row.2 = .ok w' ∧ w'.Of chunks' cur' ∧
        chunks'.flatten ++ cur' = chunks.flatten ++ cur ++ [row] := by
  rcases row with ⟨key, value⟩
  have hlimits : ¬ (key.length = 0 ∨ key.length > maxKey ∨ value.length > maxValue) := by
    rcases hvalid with ⟨hne, hkey, hval⟩
    have := length_pos_iff.mpr hne
    dsimp only at *
    omega
  have horder : ¬ (w.n > 0 ∧ key ≤ w.prev) := by
    rintro ⟨hn, hle⟩
    rw [h.n] at hn
    rcases eq_nil_or_concat (chunks.flatten ++ cur) with hnil | ⟨front, last, hlast⟩
    . simp [hnil] at hn
    . rw [concat_eq_append] at hlast
      rw [h.prev, hlast, lastKey_append_cons] at hle
      have := hafter last (by simp [hlast])
      exact absurd this (not_lt.mpr hle)
  unfold Writer.add
  rw [if_neg hlimits, if_neg horder]
  by_cases hfull : w.blk ≠ [] ∧
      used w.blk + 3 + key.length - (if w.blk = [] then 0 else common w.prev key) + value.length > blockSize
  . rw [if_pos hfull]
    have hcur : cur ≠ [] := by
      intro hnil
      exact hfull.1 (by rw [h.blk, hnil]; rfl)
    have hflush := h.flush hcur
    have hblk : w.flush.blk = [] := hflush.blk
    have hnew := hflush.append hvalid (by simpa using hafter)
    rw [if_pos hblk] at hnew
    exact ⟨_, _, _, rfl, hnew, by simp⟩
  . rw [if_neg hfull]
    exact ⟨_, _, _, rfl, h.append hvalid hafter, by simp⟩

theorem write_of (hordered : SortedMap.Ordered rows) (hvalid : ∀ row ∈ rows, Valid row)
    : ∃ r chunks, write rows = .ok r ∧ r.Of chunks ∧ chunks.flatten = rows := by
  have hfold : ∀ (rows : List Row) (w : Writer) chunks cur, w.Of chunks cur → SortedMap.Ordered (chunks.flatten ++ cur ++ rows) →
      (∀ row ∈ rows, Valid row) → ∃ w' chunks' cur', rows.foldlM (fun (w : Writer) r => w.add r.1 r.2) w = .ok w' ∧
        w'.Of chunks' cur' ∧ chunks'.flatten ++ cur' = chunks.flatten ++ cur ++ rows := by
    intro rows
    induction rows with
    | nil =>
      intro w chunks cur h _ _
      exact ⟨w, chunks, cur, rfl, h, by simp⟩
    | cons row rows ih =>
      intro w chunks cur h hord hval
      have hafter : ∀ r ∈ chunks.flatten ++ cur, r.1 < row.1 :=
        fun r hr => (pairwise_append.mp hord).2.2 r hr row (by simp)
      rcases h.add (hval row (by simp)) hafter with ⟨w1, chunks1, cur1, hadd, h1, hrows1⟩
      rw [foldlM_cons, hadd]
      have hsplit : chunks.flatten ++ cur ++ row :: rows = chunks1.flatten ++ cur1 ++ rows := by
        rw [hrows1]
        simp
      rw [hsplit] at hord ⊢
      exact ih w1 chunks1 cur1 h1 hord (fun r hr => hval r (by simp [hr]))
  rcases hfold rows Writer.new [] [] Writer.of_new (by simpa using hordered) hvalid with
    ⟨w, chunks, cur, hrun, hw, hrows⟩
  rw [flatten_nil, nil_append, nil_append] at hrows
  unfold write
  rw [hrun]
  by_cases hcur : cur = []
  . refine ⟨w.close, chunks, rfl, ?_, by simpa [hcur] using hrows⟩
    have hblk : w.blk = [] := by rw [hw.blk, hcur]; rfl
    refine ⟨?_, ?_, hw.nonempty, ?_, ?_⟩
    . simp only [Writer.close, Writer.flush, hblk, if_true, hw.blocks]
    . simp only [Writer.close, hw.index, hcur, if_true, append_nil]
    . simpa [hcur] using hw.ordered
    . simpa [hcur] using hw.valid
  . have hflush := hw.flush hcur
    refine ⟨w.close, chunks ++ [cur], rfl, ?_, by simpa using hrows⟩
    refine ⟨hflush.blocks, ?_, hflush.nonempty, by simpa using hflush.ordered, by simpa using hflush.valid⟩
    change w.index = _
    rw [hw.index, if_neg hcur]

theorem cons_le_cons_iff {x y : UInt8} : x :: a ≤ y :: b ↔ x < y ∨ x = y ∧ a ≤ b := by
  rw [← not_lt, cons_lt_cons_iff, not_or, not_lt, not_and, not_lt]
  constructor
  . rintro ⟨hle, himp⟩
    rcases lt_or_eq_of_le hle with hlt | heq
    . exact .inl hlt
    . exact .inr ⟨heq, himp heq.symm⟩
  . rintro (hlt | ⟨rfl, hle⟩)
    . exact ⟨le_of_lt hlt, fun heq => absurd hlt (by simp [heq])⟩
    . exact ⟨le_rfl, fun _ => hle⟩

theorem replicate_zero_le (n : Nat) (b : Bytes) : List.replicate n 0 ≤ b.take n ++ List.replicate (n - b.length) 0 := by
  induction n generalizing b with
  | zero => simp
  | succ n ih =>
    cases b with
    | nil => simp
    | cons y b =>
      simp only [replicate_succ, take_succ_cons, cons_append, length_cons, Nat.add_sub_add_right]
      rcases lt_or_eq_of_le (UInt8.zero_le : 0 ≤ y) with hlt | heq
      . exact le_of_lt (cons_lt_cons_iff.mpr (.inl hlt))
      . rw [← heq]
        exact cons_le_cons_iff.mpr (.inr ⟨rfl, ih b⟩)

theorem pad_le_pad (h : a ≤ b) : pad a ≤ pad b := by
  unfold pad
  generalize prefixLen = n
  induction n generalizing a b with
  | zero => simp
  | succ n ih =>
    cases a with
    | nil => simpa using replicate_zero_le (n + 1) b
    | cons x a =>
      cases b with
      | nil => exact absurd h (not_le.mpr (nil_lt_cons x a))
      | cons y b =>
        rw [cons_le_cons_iff] at h
        simp only [take_succ_cons, cons_append, length_cons, Nat.add_sub_add_right]
        rw [cons_le_cons_iff]
        exact h.imp_right (fun h => ⟨h.1, ih h.2⟩)

theorem lt_of_pad_lt (h : pad a < pad b) : a < b := by
  by_contra hle
  exact absurd (pad_le_pad (not_lt.mp hle)) (not_le.mpr h)

theorem find_append (l l' : List Row) (k : Bytes) : SortedMap.find (l ++ l') k = (SortedMap.find l k).or (SortedMap.find l' k) := by
  unfold SortedMap.find
  rw [find?_append, Option.map_or]

theorem find_eq_none_of_ne {l : List Row} {k : Bytes} (h : ∀ row ∈ l, row.1 ≠ k) : SortedMap.find l k = none := by
  unfold SortedMap.find
  rw [Option.map_eq_none_iff, find?_eq_none]
  intro row hrow
  simpa using h row hrow

theorem decode_append (prev : Bytes) (es es' : List Entry)
    : decode prev (es ++ es') = decode prev es ++ decode (lastKey prev (decode prev es)) es' := by
  induction es generalizing prev with
  | nil => rfl
  | cons e es ih => rw [cons_append, decode, decode, ih, lastKey_cons, cons_append]

theorem decode_block {c : List Row} (hc : c ≠ []) (prev : Bytes) : decode prev (encode [] c) = c := by
  cases c with
  | nil => exact absurd rfl hc
  | cons row rows =>
    have := FrontCoding.decode_encode [] (row :: rows)
    simp only [encode, decode, FrontCoding.common_nil, take_zero, nil_append, drop_zero] at this ⊢
    exact this

theorem decode_flatten (hne : ∀ c ∈ chunks, c ≠ []) (prev : Bytes)
    : decode prev (chunks.map (encode [])).flatten = chunks.flatten := by
  induction chunks generalizing prev with
  | nil => rfl
  | cons c chunks ih =>
    rw [map_cons, flatten_cons, decode_append, decode_block (hne c (by simp)),
      ih (fun c hc => hne c (by simp [hc])), flatten_cons]

namespace Run.Of

variable {r : Run} {chunks : List (List Row)} (h : r.Of chunks)

include h

theorem length_blocks : r.blocks.length = chunks.length := by rw [h.blocks, length_map]

variable {b i j : Nat} {row : Row}

theorem block_eq (hb : b < chunks.length) : r.block b = encode [] chunks[b] := by
  unfold Run.block
  rw [h.blocks, getD_eq_getElem?_getD, getElem?_map, getElem?_eq_getElem hb]
  rfl

theorem indexKey_eq (hb : b < chunks.length) : r.indexKey b = pad (headKey chunks[b]) := by
  unfold Run.indexKey
  rw [h.index, getD_eq_getElem?_getD, getElem?_map, getElem?_eq_getElem hb]
  rfl

theorem firstKey_eq (hb : b < chunks.length) : r.firstKey b = headKey chunks[b] := by
  unfold Run.firstKey
  rw [h.block_eq hb]
  cases chunks[b] with
  | nil => rfl
  | cons row rows => simp [encode, headKey, FrontCoding.common_nil]

theorem lt_of_chunk_lt (hij : i < j) (hj : j < chunks.length) {a b : Row} (ha : a ∈ chunks[i])
    (hb : b ∈ chunks[j]) : a.1 < b.1 := by
  have hordered := (pairwise_flatten.mp h.ordered).2
  exact pairwise_iff_getElem.mp hordered i j (by omega) hj hij a ha b hb

theorem headKey_mem (hb : b < chunks.length) : ∃ row ∈ chunks[b], row.1 = headKey chunks[b] := by
  have hne := h.nonempty chunks[b] (getElem_mem hb)
  cases hc : chunks[b] with
  | nil => exact absurd hc hne
  | cons row rows => exact ⟨row, by simp, rfl⟩

theorem headKey_le (hb : b < chunks.length) (hrow : row ∈ chunks[b]) : headKey chunks[b] ≤ row.1 := by
  have hordered := (pairwise_flatten.mp h.ordered).1 chunks[b] (getElem_mem hb)
  cases hc : chunks[b] with
  | nil => simp [hc] at hrow
  | cons first rows =>
    rw [hc] at hrow hordered
    rcases mem_cons.mp hrow with rfl | hrow
    . exact le_rfl
    . exact le_of_lt ((pairwise_cons.mp hordered).1 row hrow)

theorem headKey_lt (hij : i < j) (hj : j < chunks.length) : headKey chunks[i] < headKey chunks[j] := by
  rcases h.headKey_mem (Nat.lt_trans hij hj) with ⟨a, ha, ha'⟩
  rcases h.headKey_mem hj with ⟨b, hb, hb'⟩
  rw [← ha', ← hb']
  exact h.lt_of_chunk_lt hij hj ha hb

theorem indexKey_le (hij : i ≤ j) (hj : j < chunks.length) : r.indexKey i ≤ r.indexKey j := by
  rw [h.indexKey_eq (Nat.lt_of_le_of_lt hij hj), h.indexKey_eq hj]
  apply pad_le_pad
  rcases Nat.lt_or_eq_of_le hij with hlt | rfl
  . exact le_of_lt (h.headKey_lt hlt hj)
  . exact le_rfl

theorem seek_spec (key : Bytes) : match r.seek key with
    | none => ∀ (m : Nat) (hm : m < chunks.length), key < headKey chunks[m]
    | some b => ∃ hb : b < chunks.length, headKey chunks[b] ≤ key ∧
        ∀ (m : Nat) (hm : m < chunks.length), b < m → key < headKey chunks[m] := by
  have hindex := bsearch_spec (p := fun m => decide (r.indexKey m ≤ pad key)) (Nat.zero_le r.blocks.length) (by
    intro i j _ hij hj hp
    rw [h.length_blocks] at hj
    simp only [decide_eq_true_eq] at hp ⊢
    exact le_trans (h.indexKey_le hij hj) hp)
  rw [h.length_blocks] at hindex
  rcases hindex with ⟨-, hle, hbelow, habove⟩
  have hlater : ∀ (m : Nat) (hm : m < chunks.length),
      bsearch (fun m => decide (r.indexKey m ≤ pad key)) 0 chunks.length ≤ m → key < headKey chunks[m] := by
    intro m hm hge
    have := habove m hge hm
    simp only [decide_eq_false_iff_not, not_le] at this
    rw [h.indexKey_eq hm] at this
    exact lt_of_pad_lt this
  unfold Run.seek
  rw [h.length_blocks]
  dsimp only
  cases hb : bsearch (fun m => decide (r.indexKey m ≤ pad key)) 0 chunks.length with
  | zero =>
    intro m hm
    exact hlater m hm (by omega)
  | succ b =>
    rw [hb] at hle hbelow hlater
    have hblt : b < chunks.length := by omega
    have hpb := hbelow b (Nat.zero_le _) (by omega)
    simp only [decide_eq_true_eq] at hpb
    dsimp only
    by_cases hsettled : r.indexKey b ≠ pad key ∨ r.firstKey b ≤ key
    . rw [if_pos hsettled]
      refine ⟨hblt, ?_, fun m hm hlt => hlater m hm (by omega)⟩
      rcases hsettled with hne | hfirst
      . have hlt := lt_of_le_of_ne hpb hne
        rw [h.indexKey_eq hblt] at hlt
        exact le_of_lt (lt_of_pad_lt hlt)
      . rwa [h.firstKey_eq hblt] at hfirst
    . rw [if_neg hsettled]
      rw [not_or, not_not, not_le, h.firstKey_eq hblt] at hsettled
      rcases hsettled with ⟨-, hfirst⟩
      -- every block before the tied ones starts before the key
      have htied := bsearch_spec (p := fun m => decide (r.indexKey m < pad key)) (Nat.zero_le b) (by
        intro i j _ hij hj hp
        simp only [decide_eq_true_eq] at hp ⊢
        exact lt_of_le_of_lt (h.indexKey_le hij (by omega)) hp)
      rcases htied with ⟨-, hlo, hbefore, -⟩
      generalize bsearch (fun m => decide (r.indexKey m < pad key)) 0 b = lo at *
      have hfull := bsearch_spec (p := fun m => decide (r.firstKey m ≤ key)) hlo (by
        intro i j _ hij hj hp
        simp only [decide_eq_true_eq] at hp ⊢
        rw [h.firstKey_eq (by omega : j < chunks.length)] at hp
        rw [h.firstKey_eq (by omega : i < chunks.length)]
        rcases Nat.lt_or_eq_of_le hij with hlt | rfl
        . exact le_trans (le_of_lt (h.headKey_lt hlt (by omega))) hp
        . exact hp)
      rcases hfull with ⟨hge, hle', hin, hout⟩
      have hlater' : ∀ (m : Nat) (hm : m < chunks.length),
          bsearch (fun m => decide (r.firstKey m ≤ key)) lo b ≤ m → key < headKey chunks[m] := by
        intro m hm hm'
        rcases Nat.lt_trichotomy m b with hlt | rfl | hgt
        . have := hout m hm' hlt
          simpa [h.firstKey_eq hm] using this
        . exact hfirst
        . exact hlater m hm (by omega)
      cases hb' : bsearch (fun m => decide (r.firstKey m ≤ key)) lo b with
      | zero =>
        intro m hm
        exact hlater' m hm (by omega)
      | succ b' =>
        rw [hb'] at hge hle' hin hlater'
        have hblt' : b' < chunks.length := by omega
        refine ⟨hblt', ?_, fun m hm hlt => hlater' m hm (by omega)⟩
        by_cases hb'lo : lo ≤ b'
        . have := hin b' hb'lo (by omega)
          simpa [h.firstKey_eq hblt'] using this
        . have := hbefore b' (Nat.zero_le _) (by omega)
          simp only [decide_eq_true_eq, h.indexKey_eq hblt'] at this
          exact le_of_lt (lt_of_pad_lt this)

theorem mem_take_flatten (hrow : row ∈ (chunks.take b).flatten) (hb : b < chunks.length) : row.1 < headKey chunks[b] := by
  rcases mem_flatten.mp hrow with ⟨c, hc, hrow⟩
  rcases mem_take_iff_getElem.mp hc with ⟨i, hi, rfl⟩
  rcases h.headKey_mem hb with ⟨first, hfirst, hkey⟩
  rw [← hkey]
  exact h.lt_of_chunk_lt (by omega) hb hrow hfirst

theorem mem_drop_flatten (hrow : row ∈ (chunks.drop b).flatten)
    : ∃ (m : Nat) (hm : m < chunks.length), b ≤ m ∧ headKey chunks[m] ≤ row.1 := by
  rcases mem_flatten.mp hrow with ⟨c, hc, hrow⟩
  rcases mem_drop_iff_getElem.mp hc with ⟨i, hi, rfl⟩
  exact ⟨b + i, by omega, by omega, h.headKey_le (by omega) hrow⟩

theorem get_eq (key : Bytes) : r.get key = SortedMap.find chunks.flatten key := by
  have hseek := h.seek_spec key
  unfold Run.get
  cases hs : r.seek key with
  | none =>
    rw [hs] at hseek
    symm
    apply SortedMap.find_eq_none_of_lt
    intro row hrow
    rw [← drop_zero (l := chunks)] at hrow
    rcases h.mem_drop_flatten hrow with ⟨m, hm, -, hle⟩
    exact lt_of_lt_of_le (hseek m hm) hle
  | some b =>
    rw [hs] at hseek
    rcases hseek with ⟨hb, hkey, hlater⟩
    have hsplit : chunks.flatten = (chunks.take b).flatten ++ (chunks[b] ++ (chunks.drop (b + 1)).flatten) := by
      rw [← flatten_cons, ← drop_eq_getElem_cons hb, ← flatten_append, take_append_drop]
    have hordered := (pairwise_flatten.mp h.ordered).1 chunks[b] (getElem_mem hb)
    have hscan : scan key 0 (r.block b) = SortedMap.find chunks[b] key := by
      rw [h.block_eq hb, ← FrontCoding.common_nil key]
      refine FrontCoding.scan_encode (.inl rfl) hordered ?_
      intro row hrow
      have hvalid := h.valid row (mem_flatten_of_mem (getElem_mem hb) hrow)
      exact List.lt_iff_exists.mpr (.inl ⟨rfl, List.length_pos_iff.mpr hvalid.1⟩)
    dsimp only
    rw [hscan, hsplit, find_append, find_append]
    have hbefore : SortedMap.find (chunks.take b).flatten key = none := by
      apply find_eq_none_of_ne
      intro row hrow
      exact ne_of_lt (lt_of_lt_of_le (h.mem_take_flatten hrow hb) hkey)
    have hafter : SortedMap.find (chunks.drop (b + 1)).flatten key = none := by
      apply SortedMap.find_eq_none_of_lt
      intro row hrow
      rcases h.mem_drop_flatten hrow with ⟨m, hm, hle, hhead⟩
      exact lt_of_lt_of_le (hlater m hm (by omega)) hhead
    rw [hbefore, hafter, Option.none_or, Option.or_none]

theorem decode_blocks (b : Nat) : decode [] (r.blocks.drop b).flatten = (chunks.drop b).flatten := by
  rw [h.blocks, ← map_drop]
  exact decode_flatten (fun c hc => h.nonempty c (mem_of_mem_drop hc)) []

theorem iter_eq (lo hi : Option Bytes) : r.iter lo hi = chunks.flatten.filter (fun row => inBounds lo hi row.1) := by
  have hwalk : ∀ {rows : List Row}, SortedMap.Ordered rows →
      (rows.dropWhile (fun row => lo.any (fun lo => row.1 < lo))).takeWhile (fun row => hi.all (fun hi => row.1 < hi)) =
        rows.filter (fun row => inBounds lo hi row.1) := by
    intro rows hrows
    rw [SortedMap.dropWhile_eq_filter hrows (p := fun key => lo.any (fun lo => key < lo)),
      SortedMap.takeWhile_eq_filter (hrows.filter _) (p := fun key => hi.all (fun hi => key < hi)), filter_filter]
    . apply filter_congr
      intro row _
      unfold inBounds
      cases lo with
      | none => simp
      | some lo =>
        have hle : (!decide (row.1 < lo)) = decide (lo ≤ row.1) := by
          rw [← decide_not]
          exact decide_eq_decide.mpr not_lt
        simp [hle, Bool.and_comm]
    . intro a b hab hb
      cases hi with
      | none => rfl
      | some hi =>
        simp only [Option.all_some, decide_eq_true_eq] at hb ⊢
        exact lt_trans hab hb
    . intro a b hab hb
      cases lo with
      | none => simp at hb
      | some lo =>
        simp only [Option.any_some, decide_eq_true_eq] at hb ⊢
        exact lt_trans hab hb
  have hdrop : ∀ b, SortedMap.Ordered (chunks.drop b).flatten := by
    intro b
    have hsub : (chunks.drop b).flatten.Sublist chunks.flatten := (drop_sublist b chunks).flatten
    exact h.ordered.sublist hsub
  unfold Run.iter
  dsimp only
  rw [h.decode_blocks, hwalk (hdrop _)]
  cases lo with
  | none => rfl
  | some lo =>
    have hseek := h.seek_spec lo
    simp only [Option.bind_some]
    cases hs : r.seek lo with
    | none => rfl
    | some b =>
      rw [hs] at hseek
      rcases hseek with ⟨hb, hkey, -⟩
      rw [Option.getD_some]
      nth_rewrite 2 [← take_append_drop b chunks]
      rw [flatten_append, filter_append]
      have hnone : (chunks.take b).flatten.filter (fun row => inBounds (some lo) hi row.1) = [] := by
        rw [filter_eq_nil_iff]
        intro row hrow
        have hlt := lt_of_lt_of_le (h.mem_take_flatten hrow hb) hkey
        simp [inBounds, not_le.mpr hlt]
      rw [hnone, nil_append]

end Run.Of

end EpochDB.Latest.Disk
