import EpochDB.Store.Read.Impl
import EpochDB.Store.Sealed.Reads

/-!
The blocks a run holds, when it is sealed from a window and when it is merged from others, and what
the descents over runs that follow each other answer.
-/

namespace EpochDB.Store

open List
open Sealed (FilterPolicy Footer)

structure Holds (crypto : Crypto) (r : Sealed.Run) (bs : List BlockWrite) : Prop where
  shows : r.Shows (table crypto r.footer.fromTx bs)
  toTx : r.footer.toTx.toNat = r.footer.fromTx.toNat + slots bs
  consecutive : Consecutive r.footer.fromHeight.toNat bs
  toHeight : r.footer.toHeight.toNat + 1 = r.footer.fromHeight.toNat + bs.length
  toHeight_lt : r.footer.toHeight.toNat + 1 < 2 ^ 64
  nonempty : bs ≠ []

theorem Took.sealWindow {crypto : Crypto} {m : Memtable} {bs : List BlockWrite} (h : Took crypto m bs) (hbs : bs ≠ [])
    : ∃ r, Sealed.sealWindow m = .ok r ∧ Holds crypto r bs ∧
        r.footer = ⟨m.baseTx, m.nextTx, m.baseHeight, m.nextHeight - 1⟩ := by
  have htx := m.nextTx.toNat_lt
  rw [h.nextTx] at htx
  have ht : Sealed.Tabled (table crypto m.baseTx bs) _ _ _ _ := Sealed.tabled_table h.consecutive htx
  rcases Sealed.sealWindow_shows ht h.shows with ⟨r, hseal, hshows, hfooter⟩
  have hlen := length_pos_iff.mpr hbs
  have hnext := h.nextHeight
  have hone : (1 : UInt64) ≤ m.nextHeight := by
    rw [UInt64.le_iff_toNat_le, UInt64.toNat_one]
    omega
  have hto : (m.nextHeight - 1).toNat + 1 = m.nextHeight.toNat := by
    rw [UInt64.toNat_sub_of_le _ _ hone, UInt64.toNat_one]
    omega
  refine ⟨r, hseal, ⟨?_, ?_, ?_, ?_, ?_, hbs⟩, hfooter⟩
  . rw [hfooter]
    exact hshows
  . rw [hfooter]
    exact h.nextTx
  . rw [hfooter]
    exact h.consecutive
  . rw [hfooter]
    exact hto.trans hnext
  . rw [hfooter]
    exact hto.trans_lt m.nextHeight.toNat_lt

namespace Holds

variable {crypto : Crypto} {r : Sealed.Run} {bs : List BlockWrite}

theorem tabled (h : Holds crypto r bs)
    : Sealed.Tabled (table crypto r.footer.fromTx bs) r.footer.fromTx.toNat r.footer.toTx.toNat
        r.footer.fromHeight.toNat (r.footer.toHeight.toNat + 1) := by
  have htx := r.footer.toTx.toNat_lt
  rw [h.toTx] at htx
  rw [h.toTx, h.toHeight]
  exact Sealed.tabled_table h.consecutive htx

theorem txnum (h : Holds crypto r bs) {row : Row} (hrow : row ∈ table crypto r.footer.fromTx bs) {n : UInt64}
    (hn : row.txnum = some n) : r.footer.fromTx ≤ n ∧ n < r.footer.toTx := by
  have hin := (h.tabled.within row hrow).txnum hn
  rw [UInt64.le_iff_toNat_le, UInt64.lt_iff_toNat_lt]
  exact hin

theorem fromTx_lt (h : Holds crypto r bs) : r.footer.fromTx < r.footer.toTx := by
  rw [UInt64.lt_iff_toNat_lt, h.toTx]
  cases bs with
  | nil => exact absurd rfl h.nonempty
  | cons b bs =>
    rw [slots_cons]
    unfold BlockWrite.slots
    omega

theorem fromHeight_le (h : Holds crypto r bs) : r.footer.fromHeight ≤ r.footer.toHeight := by
  rw [UInt64.le_iff_toNat_le]
  have hto := h.toHeight
  have hlen := length_pos_iff.mpr h.nonempty
  omega

end Holds

/-- The runs of a store, oldest first, each with the blocks it holds. -/
abbrev RunBlocks := List (Sealed.Run × List BlockWrite)

section Runs

variable {crypto : Crypto} {l : RunBlocks} (hl : ∀ p ∈ l, Holds crypto p.1 p.2)

include hl

theorem after_of_contiguous {p : Sealed.Run × List BlockWrite} (hp : Holds crypto p.1 p.2)
    (hcont : Sealed.contiguous ((p :: l).map (·.1)) = true)
    : Sealed.contiguous (l.map (·.1)) = true ∧
      ∀ q ∈ l, p.1.footer.toTx ≤ q.1.footer.fromTx ∧ p.1.footer.toHeight < q.1.footer.fromHeight := by
  induction l generalizing p with
  | nil => exact ⟨rfl, by simp⟩
  | cons q l ih =>
    have hq := hl q (by simp)
    simp only [map_cons, Sealed.contiguous, Bool.and_eq_true, decide_eq_true_eq] at hcont
    rcases hcont with ⟨⟨htx, hheight⟩, hcont⟩
    rcases ih (fun x hx => hl x (by simp [hx])) hq hcont with ⟨-, hafter⟩
    have hpto : p.1.footer.toHeight < q.1.footer.fromHeight := by
      rw [hheight, UInt64.lt_iff_toNat_lt, toNat_add_one hp.toHeight_lt]
      omega
    refine ⟨hcont, ?_⟩
    intro x hx
    rw [mem_cons] at hx
    rcases hx with rfl | hx
    . exact ⟨by rw [htx]; exact UInt64.le_refl _, hpto⟩
    . rcases hafter x hx with ⟨hxtx, hxheight⟩
      refine ⟨UInt64.le_trans (by rw [← htx]; exact UInt64.le_of_lt hq.fromTx_lt) hxtx, ?_⟩
      exact UInt64.lt_of_lt_of_le hpto (UInt64.le_trans hq.fromHeight_le (UInt64.le_of_lt hxheight))

theorem pairwise_of_contiguous (hcont : Sealed.contiguous (l.map (·.1)) = true)
    : l.Pairwise (fun p q => p.1.footer.toTx ≤ q.1.footer.fromTx ∧ p.1.footer.toHeight < q.1.footer.fromHeight) := by
  induction l with
  | nil => exact List.Pairwise.nil
  | cons p l ih =>
    have hl' : ∀ q ∈ l, Holds crypto q.1 q.2 := fun q hq => hl q (by simp [hq])
    rcases after_of_contiguous hl' (hl p (by simp)) hcont with ⟨hcont', hafter⟩
    exact pairwise_cons.mpr ⟨hafter, ih hl' hcont'⟩

theorem table_of_contiguous {p : Sealed.Run × List BlockWrite} (hp : Holds crypto p.1 p.2)
    (hcont : Sealed.contiguous ((p :: l).map (·.1)) = true)
    : table crypto p.1.footer.fromTx ((p :: l).flatMap (·.2)) =
        (p :: l).flatMap (fun q => table crypto q.1.footer.fromTx q.2) := by
  induction l generalizing p with
  | nil => simp
  | cons q l ih =>
    have hcont' := hcont
    simp only [map_cons, Sealed.contiguous, Bool.and_eq_true, decide_eq_true_eq] at hcont
    have hq := ih (fun x hx => hl x (by simp [hx])) (hl q (by simp)) hcont.2
    have htx : p.1.footer.fromTx + UInt64.ofNat (slots p.2) = q.1.footer.fromTx := by
      rw [hcont.1.1]
      apply UInt64.toNat_inj.mp
      have hto := hp.toTx
      have hlt := p.1.footer.toTx.toNat_lt
      rw [Memtable.toNat_add_ofNat (by omega), hto]
    rw [flatMap_cons, table_append, htx, hq]
    conv => rhs; rw [flatMap_cons]

theorem span_of_contiguous {p last : Sealed.Run × List BlockWrite} (hp : Holds crypto p.1 p.2)
    (hlast : (p :: l).getLast? = some last) (hcont : Sealed.contiguous ((p :: l).map (·.1)) = true)
    : last.1.footer.toTx.toNat = p.1.footer.fromTx.toNat + slots ((p :: l).flatMap (·.2)) ∧
      Consecutive p.1.footer.fromHeight.toNat ((p :: l).flatMap (·.2)) ∧
      last.1.footer.toHeight.toNat + 1 = p.1.footer.fromHeight.toNat + ((p :: l).flatMap (·.2)).length := by
  induction l generalizing p with
  | nil =>
    cases hlast
    simpa using ⟨hp.toTx, hp.consecutive, hp.toHeight⟩
  | cons q l ih =>
    simp only [map_cons, Sealed.contiguous, Bool.and_eq_true, decide_eq_true_eq] at hcont
    rcases hcont with ⟨⟨htx, hheight⟩, hcont⟩
    rw [getLast?_cons_cons] at hlast
    rcases ih (fun x hx => hl x (by simp [hx])) (hl q (by simp)) hlast hcont with ⟨hto, hcons, hlen⟩
    have hptx := hp.toTx
    have hpheight := hp.toHeight
    have hq : q.1.footer.fromHeight.toNat = p.1.footer.fromHeight.toNat + p.2.length := by
      rw [hheight, toNat_add_one hp.toHeight_lt, hpheight]
    rw [flatMap_cons]
    refine ⟨?_, ?_, ?_⟩
    . rw [hto, htx, slots_append]
      omega
    . rw [consecutive_append, ← hq]
      exact ⟨hp.consecutive, hcons⟩
    . rw [hlen, hq, length_append]
      omega

theorem earlier_of_contiguous (hcont : Sealed.contiguous (l.map (·.1)) = true)
    : (l.map (fun p => (p.1, table crypto p.1.footer.fromTx p.2))).Pairwise (fun p q => p.2.Earlier q.2) := by
  rw [pairwise_map]
  apply (pairwise_of_contiguous hl hcont).imp_of_mem
  intro p q hp hq hpq row hrow row' hrow' n n' hn hn'
  have hlt := ((hl p hp).txnum hrow hn).2
  have hge := ((hl q hq).txnum hrow' hn').1
  exact UInt64.lt_of_lt_of_le hlt (UInt64.le_trans hpq.1 hge)

omit hl in
theorem map_tables : (l.map (fun p => (p.1, table crypto p.1.footer.fromTx p.2))).map (·.1) = l.map (·.1) := by
  rw [map_map]
  rfl

theorem merge_holds {first last : Sealed.Run × List BlockWrite} (hfirst : l.head? = some first)
    (hlast : l.getLast? = some last) (hcont : Sealed.contiguous (l.map (·.1)) = true)
    : ∃ r, Sealed.merge (l.map (·.1)) = .ok r ∧ Holds crypto r (l.flatMap (·.2)) ∧
        (∀ s, r.sec s = Sealed.merged (l.map (·.1)) s) ∧
        r.footer = ⟨first.1.footer.fromTx, last.1.footer.toTx, first.1.footer.fromHeight, last.1.footer.toHeight⟩ := by
  have hfirst' : (l.map (·.1)).head? = some first.1 := by
    rw [head?_map, hfirst]
    rfl
  have hlast' : (l.map (·.1)).getLast? = some last.1 := by
    rw [getLast?_map, hlast]
    rfl
  rcases Sealed.merge_eq hfirst' hlast' hcont with ⟨r, hmerge, hsec, hfooter⟩
  refine ⟨r, hmerge, ?_, hsec, hfooter⟩
  cases l with
  | nil => cases hfirst
  | cons p l =>
    cases hfirst
    have hl' : ∀ q ∈ l, Holds crypto q.1 q.2 := fun q hq => hl q (by simp [hq])
    have hp := hl first (by simp)
    rcases span_of_contiguous hl' hp hlast hcont with ⟨hto, hcons, hlen⟩
    refine ⟨?_, ?_, ?_, ?_, ?_, ?_⟩
    . have hshows := Sealed.merged_shows (l := (first :: l).map (fun p => (p.1, table crypto p.1.footer.fromTx p.2)))
        (r := r) (by
          intro p hp
          rw [mem_map] at hp
          rcases hp with ⟨q, hq, rfl⟩
          exact (hl q hq).shows)
        (earlier_of_contiguous hl hcont) (by rw [map_tables]; exact hsec)
      rw [flatMap_map] at hshows
      rw [hfooter, table_of_contiguous hl' hp hcont]
      exact hshows
    . rw [hfooter]
      exact hto
    . rw [hfooter]
      exact hcons
    . rw [hfooter]
      exact hlen
    . rw [hfooter]
      exact (hl last (mem_of_getLast? hlast)).toHeight_lt
    . rw [flatMap_cons]
      simp [hp.nonempty]

end Runs

def byHeight (fam : Fam) : Bool := fam ∉ txKeyedFams

def runTable (crypto : Crypto) (l : RunBlocks) : Table :=
  l.flatMap (fun p => table crypto p.1.footer.fromTx p.2)

theorem findSome?_filter_of_none {α β : Type} {p : α → Bool} {f : α → Option β} {l : List α}
    (h : ∀ a ∈ l, p a = false → f a = none) : (l.filter p).findSome? f = l.findSome? f := by
  induction l with
  | nil => rfl
  | cons a l ih =>
    have ih := ih (fun b hb => h b (by simp [hb]))
    rw [filter_cons, findSome?_cons]
    split
    . rw [findSome?_cons, ih]
    . next hp =>
      rw [ih, h a (by simp) (by simpa using hp)]

theorem Holds.inRun_of_chain {crypto : Crypto} {r : Sealed.Run} {bs : List BlockWrite} (h : Holds crypto r bs) {fam : Fam}
    {n : UInt64} {val : Bytes} (hval : (table crypto r.footer.fromTx bs).chainGet fam n = some val)
    : Read.inRun n (byHeight fam) r = true := by
  have hin := h.tabled.within _ (Table.mem_of_chainGet hval)
  simp only [Row.Within] at hin
  unfold Read.inRun byHeight
  by_cases hfam : fam ∈ txKeyedFams
  . rw [if_pos hfam] at hin
    simp only [hfam, not_true_eq_false, decide_false, Bool.false_eq_true, if_false, ge_iff_le, Bool.and_eq_true,
      decide_eq_true_eq, UInt64.le_iff_toNat_le, UInt64.lt_iff_toNat_lt]
    omega
  . rw [if_neg hfam] at hin
    simp only [hfam, not_false_eq_true, decide_true, if_true, ge_iff_le, Bool.and_eq_true, decide_eq_true_eq,
      UInt64.le_iff_toNat_le]
    omega

section Descent

variable {crypto : Crypto} {l : RunBlocks} (policy : FilterPolicy)
  (hl : ∀ p ∈ l, Holds crypto p.1 p.2)

include hl

theorem getChain_eq (fam : Fam) (n : UInt64)
    : (l.map (·.1)).reverse.findSome? (fun r => r.get policy .chain (numKey (famPrefix fam) n)) =
        (runTable crypto l).chainGet fam n := by
  rw [← map_reverse, findSome?_map]
  apply Table.findSome?_reverse (fun t => t.chainGet fam n) rfl (fun t t' => Table.chainGet_append t t' fam n)
  intro p hp
  rw [Function.comp_apply, Sealed.get_eq]
  exact (hl p hp).shows.chain fam n

theorem runLookupNum_eq {key : Bytes} (hkey : NumKey key)
    : Read.runLookupNum policy (l.map (·.1)) key = .ok ((runTable crypto l).lookupNum key) := by
  have hfind : (l.map (·.1)).reverse.findSome? (fun r => r.get policy .lookup key) =
      ((runTable crypto l).lookupNum key).map Bytes.putUint64 := by
    rw [← map_reverse, findSome?_map]
    apply Table.findSome?_reverse (fun t => (t.lookupNum key).map Bytes.putUint64) rfl
      (fun t t' => by rw [Table.lookupNum_append, Option.map_or])
    intro p hp
    rw [Function.comp_apply, Sealed.get_eq]
    exact (hl p hp).shows.nums key hkey
  unfold Read.runLookupNum
  rw [hfind]
  cases (runTable crypto l).lookupNum key with
  | none => rfl
  | some n => simp [Bytes.uint64_putUint64]

theorem runLatest_eq {key : Bytes} (hkey : StateKey key) {n : UInt64} (hn : n ≠ 18446744073709551615)
    : Read.runLatest policy (l.map (·.1)) key n = (runTable crypto l).latest key n := by
  have heach : ∀ p ∈ l, p.1.latest policy .state key n = (table crypto p.1.footer.fromTx p.2).latest key n := by
    intro p hp
    exact Sealed.latest_eq policy (hl p hp).shows (hl p hp).tabled.before hkey hn
  unfold Read.runLatest
  rw [findSome?_filter_of_none]
  . rw [← map_reverse, findSome?_map]
    exact Table.findSome?_reverse (fun t => t.latest key n) rfl (fun t t' => Table.latest_append t t' key n) heach
  . -- a run that starts behind `n` holds no row at or below it
    intro r hr hskip
    rw [mem_reverse, mem_map] at hr
    rcases hr with ⟨p, hp, rfl⟩
    rw [heach p hp]
    unfold Table.latest
    rw [filter_eq_nil_iff.mpr]
    . rfl
    . intro v hv
      have hge := ((hl p hp).txnum (Table.mem_history.mp hv) rfl).1
      simp only [gt_iff_lt, Bool.not_eq_false', decide_eq_true_eq] at hskip
      simp only [decide_eq_true_eq, UInt64.not_le]
      exact UInt64.lt_of_lt_of_le hskip hge

theorem runCode_oneOf (hash : Bytes) : OneOf (Read.runCode policy (l.map (·.1)) hash) ((runTable crypto l).codes hash) := by
  unfold Read.runCode
  rw [← map_reverse, findSome?_map]
  apply Table.oneOf_findSome?_reverse (fun t => t.codes hash) rfl (fun t t' => Table.codes_append t t' hash)
  intro p hp
  rw [Function.comp_apply, Sealed.get_eq]
  exact (hl p hp).shows.code hash

theorem runChainRow_eq (hcont : Sealed.contiguous (l.map (·.1)) = true) (fam : Fam) (n : UInt64)
    : Read.runChainRow policy (l.map (·.1)) fam n (byHeight fam) = (runTable crypto l).chainGet fam n := by
  rw [← getChain_eq policy hl]
  have hnone : ∀ p ∈ l, Read.inRun n (byHeight fam) p.1 = false → p.1.get policy .chain (numKey (famPrefix fam) n) = none := by
    intro p hp hout
    rw [Sealed.get_eq, (hl p hp).shows.chain]
    cases hval : (table crypto p.1.footer.fromTx p.2).chainGet fam n with
    | none => rfl
    | some val =>
      rw [(hl p hp).inRun_of_chain hval] at hout
      cases hout
  have hone : l.Pairwise (fun p q => Read.inRun n (byHeight fam) p.1 = true → Read.inRun n (byHeight fam) q.1 = false) := by
    apply (pairwise_of_contiguous hl hcont).imp_of_mem
    intro p q hp hq hpq hin
    unfold Read.inRun at hin ⊢
    split
    . next hby =>
      rw [if_pos hby, Bool.and_eq_true, decide_eq_true_eq, decide_eq_true_eq] at hin
      rw [Bool.and_eq_false_iff, decide_eq_false_iff_not, ge_iff_le, UInt64.not_le]
      exact .inl (UInt64.lt_of_le_of_lt hin.2 hpq.2)
    . next hby =>
      rw [if_neg hby, Bool.and_eq_true, decide_eq_true_eq, decide_eq_true_eq] at hin
      rw [Bool.and_eq_false_iff, decide_eq_false_iff_not, ge_iff_le, UInt64.not_le]
      exact .inl (UInt64.lt_of_lt_of_le hin.2 hpq.1)
  unfold Read.runChainRow
  rw [← map_reverse, find?_map, findSome?_map]
  cases hfind : l.reverse.find? (Read.inRun n (byHeight fam) ∘ (·.1)) with
  | none =>
    rw [find?_eq_none] at hfind
    symm
    rw [Option.map_none, findSome?_eq_none_iff]
    intro p hp
    apply hnone p (by simpa using hp)
    simpa using hfind p hp
  | some p =>
    rw [find?_eq_some_iff_append] at hfind
    rcases hfind with ⟨hin, newer, older, hrev, hnewer⟩
    have hrev' : l = older.reverse ++ p :: newer.reverse := by
      rw [← reverse_reverse l, hrev]
      simp
    rw [hrev, findSome?_append, findSome?_cons]
    have hnewer' : newer.findSome? ((fun r => r.get policy .chain (numKey (famPrefix fam) n)) ∘ (·.1)) = none := by
      rw [findSome?_eq_none_iff]
      intro q hq
      apply hnone q (by rw [hrev']; simp [hq])
      simpa using hnewer q hq
    have holder : older.findSome? ((fun r => r.get policy .chain (numKey (famPrefix fam) n)) ∘ (·.1)) = none := by
      rw [findSome?_eq_none_iff]
      intro q hq
      apply hnone q (by rw [hrev']; simp [hq])
      rw [hrev', pairwise_append] at hone
      have hcross := hone.2.2 q (by simpa using hq) p (by simp)
      by_contra hqin
      rw [Bool.not_eq_false] at hqin
      have hpout := hcross hqin
      rw [Function.comp_apply] at hin
      rw [hin] at hpout
      cases hpout
    rw [hnewer', holder]
    dsimp only [Option.map_some, Function.comp_apply]
    cases p.1.get policy .chain (numKey (famPrefix fam) n) <;> rfl

end Descent

end EpochDB.Store
