import EpochDB.Store.Resident.Transparent

/-!
The spans in which the blocks of a section are read (`resideSpans` and `reside` of `store/run.go`): where they are
cut, and what each read covers.
-/

namespace EpochDB.Store.Resident

open List

def BlockRange.stop (r : BlockRange) : Nat := r.off.toNat + r.n.toNat

def furthest (rs : List BlockRange) : Nat := rs.foldl (fun hi r => max hi r.stop) 0

def spanOf (ends : List Nat) (i : Nat) : Nat := ends.countP (· ≤ i)

structure Coalesced (want : List BlockRange) : Prop where
  increasing : (Overlay.resideSpans want).Pairwise (· < ·)
  last : (Overlay.resideSpans want).getLast? = if want = [] then none else some want.length
  same : ∀ i r, want[i + 1]? = some r →
    (spanOf (Overlay.resideSpans want) i = spanOf (Overlay.resideSpans want) (i + 1) ↔
      r.off.toNat - furthest (want.take (i + 1)) ≤ maxResideGap.toNat)
  covers : ∀ i j, (i, j) ∈ (0 :: Overlay.resideSpans want).zip (Overlay.resideSpans want) →
    ∃ lo hi, Overlay.spanRead want i j = some (lo, hi) ∧
      ∀ r ∈ (want.drop i).take (j - i), lo.toNat ≤ r.off.toNat ∧ r.stop ≤ hi.toNat

def GapWraps (want : List BlockRange) : Prop :=
  ∃ i r, want[i + 1]? = some r ∧ (∃ q ∈ want.take (i + 1), 2 ^ 64 ≤ q.stop + maxResideGap.toNat) ∧
    ∀ q ∈ want.take (i + 1), q.stop + maxResideGap.toNat < r.off.toNat + 2 ^ 64

namespace Overlay

theorem mem_resideSpansFrom (want : List BlockRange) (i : Nat) (stop : UInt64) (j : Nat)
    : j ∈ resideSpansFrom i stop want ↔ i ≤ j ∧ 0 < j ∧
        ∃ r, want[j - i]? = some r ∧ endOf stop (want.take (j - i)) + maxResideGap < r.off := by
  induction want generalizing i stop with
  | nil => simp [resideSpansFrom]
  | cons r want ih =>
    have hrest := ih (i + 1) (max stop (r.off + r.n))
    have hmem : j ∈ resideSpansFrom i stop (r :: want) ↔
        (j = i ∧ 0 < i ∧ stop + maxResideGap < r.off) ∨ j ∈ resideSpansFrom (i + 1) (max stop (r.off + r.n)) want := by
      rw [resideSpansFrom]
      split
      . next hcut => simp [hcut]
      . next hcut => simp [hcut]
    rw [hmem, hrest]
    rcases Nat.lt_trichotomy j i with hlt | heq | hgt
    . constructor
      . rintro (h | h) <;> omega
      . rintro ⟨h, -⟩
        omega
    . subst heq
      simp only [Nat.sub_self, getElem?_cons_zero, Option.some.injEq, take_zero]
      constructor
      . rintro (⟨-, hpos, hgap⟩ | ⟨h, -⟩)
        . exact ⟨Nat.le_refl _, hpos, r, rfl, hgap⟩
        . omega
      . rintro ⟨-, hpos, r', rfl, hgap⟩
        exact .inl ⟨trivial, hpos, hgap⟩
    . have hsub : j - i = (j - (i + 1)) + 1 := by omega
      rw [hsub, getElem?_cons_succ, take_succ_cons]
      constructor
      . rintro (⟨h, -⟩ | ⟨-, hpos, r', hr', hgap⟩)
        . omega
        . exact ⟨by omega, hpos, r', hr', hgap⟩
      . rintro ⟨-, hpos, r', hr', hgap⟩
        exact .inr ⟨by omega, hpos, r', hr', hgap⟩

theorem mem_resideSpans {want : List BlockRange} {i : Nat} {r : BlockRange} (h : want[i + 1]? = some r)
    : i + 1 ∈ resideSpans want ↔ endOf 0 (want.take (i + 1)) + maxResideGap < r.off := by
  rcases List.getElem?_eq_some_iff.mp h with ⟨hlt, -⟩
  have hlast : i + 1 ∉ (if want = [] then [] else [want.length]) := by
    split
    . simp
    . rw [mem_singleton]
      omega
  rw [resideSpans, mem_append, or_iff_left hlast, mem_resideSpansFrom, Nat.sub_zero, h]
  simp

theorem getLast?_resideSpans (want : List BlockRange)
    : (resideSpans want).getLast? = if want = [] then none else some want.length := by
  unfold resideSpans
  by_cases h : want = []
  . rw [h]
    rfl
  . rw [if_neg h, if_neg h, getLast?_concat]

end Overlay

theorem spanOf_eq_iff (ends : List Nat) (i : Nat) : spanOf ends i = spanOf ends (i + 1) ↔ i + 1 ∉ ends := by
  have hcount : spanOf ends (i + 1) = spanOf ends i + ends.count (i + 1) := by
    unfold spanOf
    induction ends with
    | nil => rfl
    | cons e ends ih =>
      rw [countP_cons, countP_cons, count_cons, ih]
      simp only [decide_eq_true_eq, beq_iff_eq]
      split <;> split <;> split <;> omega
  rw [hcount, ← count_eq_zero]
  omega

theorem furthest_append (rs : List BlockRange) (r : BlockRange) : furthest (rs ++ [r]) = max (furthest rs) r.stop := by
  simp [furthest]

theorem stop_le_furthest {rs : List BlockRange} {q : BlockRange} (h : q ∈ rs) : q.stop ≤ furthest rs := by
  induction rs using List.reverseRecOn with
  | nil => cases h
  | append_singleton rs r ih =>
    rw [furthest_append]
    rcases mem_append.mp h with h | h
    . exact Nat.le_trans (ih h) (Nat.le_max_left _ _)
    . rw [mem_singleton.mp h]
      exact Nat.le_max_right _ _

theorem exists_furthest {rs : List BlockRange} (h : rs ≠ []) : ∃ q ∈ rs, furthest rs = q.stop := by
  induction rs using List.reverseRecOn with
  | nil => exact absurd rfl h
  | append_singleton rs r ih =>
    rw [furthest_append]
    rcases Nat.le_total (furthest rs) r.stop with hle | hle
    . exact ⟨r, by simp, Nat.max_eq_right hle⟩
    . by_cases hnil : rs = []
      . subst hnil
        refine ⟨r, by simp, ?_⟩
        exact Nat.max_eq_right (Nat.zero_le _)
      . rcases ih hnil with ⟨q, hq, heq⟩
        exact ⟨q, by simp [hq], by rw [Nat.max_eq_left hle, heq]⟩

theorem toNat_endOf {rs : List BlockRange} (h : ∀ r ∈ rs, r.stop < 2 ^ 64) : (Overlay.endOf 0 rs).toNat = furthest rs := by
  induction rs using List.reverseRecOn with
  | nil => rfl
  | append_singleton rs r ih =>
    have hr : (r.off + r.n).toNat = r.stop := by
      rw [UInt64.toNat_add]
      exact Nat.mod_eq_of_lt (h r (by simp))
    have hend : Overlay.endOf 0 (rs ++ [r]) = max (Overlay.endOf 0 rs) (r.off + r.n) := by
      simp [Overlay.endOf]
    rw [hend, Words.toNat_max, ih (fun q hq => h q (by simp [hq])), hr, furthest_append]

theorem exists_span {ends : List Nat} {start last k : Nat} (hlast : ends.getLast? = some last) (hlo : start ≤ k) (hhi : k < last)
    : ∃ i j, (i, j) ∈ (start :: ends).zip ends ∧ i ≤ k ∧ k < j := by
  induction ends generalizing start with
  | nil => cases hlast
  | cons e ends ih =>
    by_cases hk : k < e
    . exact ⟨start, e, by simp, hlo, hk⟩
    . cases ends with
      | nil =>
        rw [getLast?_singleton, Option.some.injEq] at hlast
        omega
      | cons e' ends =>
        rw [getLast?_cons_cons] at hlast
        rcases ih hlast (show e ≤ k by omega) with ⟨i, j, hmem, hspan⟩
        exact ⟨i, j, by rw [zip_cons_cons]; exact mem_cons_of_mem _ hmem, hspan⟩

theorem lt_of_mem_zip {ends : List Nat} {start i j : Nat} (hends : (start :: ends).Pairwise (· < ·))
    (h : (i, j) ∈ (start :: ends).zip ends) : i < j ∧ j ∈ ends := by
  induction ends generalizing start with
  | nil => cases h
  | cons e ends ih =>
    rw [zip_cons_cons, mem_cons] at h
    rcases h with h | h
    . cases h
      exact ⟨rel_of_pairwise_cons hends mem_cons_self, mem_cons_self⟩
    . rcases ih (pairwise_cons.mp hends).2 h with ⟨hlt, hmem⟩
      exact ⟨hlt, mem_cons_of_mem e hmem⟩

theorem mem_span {want : List BlockRange} {i j k : Nat} {r : BlockRange} (hr : want[k]? = some r) (hlo : i ≤ k) (hhi : k < j)
    : r ∈ (want.drop i).take (j - i) := by
  rw [mem_iff_getElem?]
  refine ⟨k - i, ?_⟩
  rw [getElem?_take_of_lt (by omega), getElem?_drop, ← hr]
  congr 1
  omega

variable {want : List BlockRange}

theorem Coalesced.stop_lt (h : Coalesced want) : ∀ r ∈ want, r.stop < 2 ^ 64 := by
  intro r hr
  rcases mem_iff_getElem?.mp hr with ⟨k, hk⟩
  rcases List.getElem?_eq_some_iff.mp hk with ⟨hlt, -⟩
  have hlast := h.last
  rw [if_neg (ne_nil_of_mem hr)] at hlast
  rcases exists_span hlast (Nat.zero_le k) hlt with ⟨i, j, hmem, hlo, hhi⟩
  rcases h.covers i j hmem with ⟨lo, hi, -, hcovers⟩
  exact Nat.lt_of_le_of_lt (hcovers r (mem_span hk hlo hhi)).2 hi.toNat_lt

theorem covers_of_stop_lt (hsorted : want.Pairwise (fun r r' => r.off ≤ r'.off)) (hstop : ∀ r ∈ want, r.stop < 2 ^ 64) {i j : Nat}
    (hij : i < j) (hj : j ≤ want.length)
    : ∃ lo hi, Overlay.spanRead want i j = some (lo, hi) ∧
        ∀ r ∈ (want.drop i).take (j - i), lo.toNat ≤ r.off.toNat ∧ r.stop ≤ hi.toNat := by
  have hsub : ((want.drop i).take (j - i)).Sublist want := (take_sublist _ _).trans (drop_sublist _ _)
  have hlen : ((want.drop i).take (j - i)).length = j - i := by
    rw [length_take, length_drop]
    omega
  unfold Overlay.spanRead
  generalize (want.drop i).take (j - i) = rs at hsub hlen
  cases rs with
  | nil =>
    rw [length_nil] at hlen
    omega
  | cons r span =>
    refine ⟨_, _, rfl, ?_⟩
    intro r' hr'
    refine ⟨?_, ?_⟩
    . rcases mem_cons.mp hr' with rfl | hr'
      . exact Nat.le_refl _
      . exact UInt64.le_iff_toNat_le.mp (rel_of_pairwise_cons (hsorted.sublist hsub) hr')
    . rw [toNat_endOf (fun q hq => hstop q (hsub.subset hq))]
      exact stop_le_furthest hr'

theorem cut_iff {i : Nat} {r : BlockRange} (hstop : ∀ r ∈ want, r.stop < 2 ^ 64)
    : Overlay.endOf 0 (want.take (i + 1)) + maxResideGap < r.off ↔
        (furthest (want.take (i + 1)) + maxResideGap.toNat) % 2 ^ 64 < r.off.toNat := by
  have hend : (Overlay.endOf 0 (want.take (i + 1))).toNat = furthest (want.take (i + 1)) :=
    toNat_endOf (fun q hq => hstop q (mem_of_mem_take hq))
  rw [UInt64.lt_iff_toNat_lt, UInt64.toNat_add, hend]

theorem coalesced_iff (hsorted : want.Pairwise (fun r r' => r.off ≤ r'.off))
    : Coalesced want ↔ (∀ r ∈ want, r.stop < 2 ^ 64) ∧ ¬ GapWraps want := by
  have hspans := Overlay.resideSpans_spec want
  have hcut : ∀ i r, want[i + 1]? = some r →
      (spanOf (Overlay.resideSpans want) i = spanOf (Overlay.resideSpans want) (i + 1) ↔
        ¬ Overlay.endOf 0 (want.take (i + 1)) + maxResideGap < r.off) := by
    intro i r hr
    rw [spanOf_eq_iff, Overlay.mem_resideSpans hr]
  have hne : ∀ i r, want[i + 1]? = some r → want.take (i + 1) ≠ [] := by
    intro i r hr
    rcases List.getElem?_eq_some_iff.mp hr with ⟨hlt, -⟩
    rw [← length_pos_iff, length_take]
    omega
  constructor
  . intro h
    refine ⟨h.stop_lt, ?_⟩
    rintro ⟨i, r, hr, ⟨q, hq, hfar⟩, hbehind⟩
    have hsame := h.same i r hr
    have hmax := stop_le_furthest hq
    rcases exists_furthest (hne i r hr) with ⟨q', hq', hmax'⟩
    have hbehind' := hbehind q' hq'
    have hlt := h.stop_lt q' (mem_of_mem_take hq')
    have hoff := r.off.toNat_lt
    rw [hcut i r hr, cut_iff h.stop_lt] at hsame
    omega
  . rintro ⟨hstop, hwraps⟩
    refine ⟨(pairwise_cons.mp hspans.1).2, Overlay.getLast?_resideSpans want, ?_, ?_⟩
    . intro i r hr
      rw [hcut i r hr, cut_iff hstop]
      rcases exists_furthest (hne i r hr) with ⟨q, hq, hmax⟩
      have hlt := hstop q (mem_of_mem_take hq)
      have hgap : maxResideGap.toNat < 2 ^ 64 := maxResideGap.toNat_lt
      by_cases hfar : 2 ^ 64 ≤ q.stop + maxResideGap.toNat
      . have hbefore : ¬ q.stop + maxResideGap.toNat < r.off.toNat + 2 ^ 64 := by
          intro hlt'
          refine hwraps ⟨i, r, hr, ⟨q, hq, hfar⟩, ?_⟩
          intro q' hq'
          have := stop_le_furthest hq'
          omega
        omega
      . omega
    . intro i j hmem
      rcases lt_of_mem_zip hspans.1 hmem with ⟨hij, hj⟩
      exact covers_of_stop_lt hsorted hstop hij (hspans.2 j hj)

def nested : List BlockRange := [⟨0, 100⟩, ⟨10, 20⟩, ⟨10, 200⟩, ⟨5000000, 7⟩]

theorem coalesced_iff_nested
    : nested.Pairwise (fun r r' => r.off ≤ r'.off) ∧ Overlay.resideSpans nested = [3, 4] ∧ Coalesced nested := by
  have hsorted : nested.Pairwise (fun r r' => r.off ≤ r'.off) := by decide
  have hstop : ∀ r ∈ nested, r.stop < 2 ^ 64 := by decide
  have hnear : ∀ q ∈ nested, q.stop + maxResideGap.toNat < 2 ^ 64 := by decide
  refine ⟨hsorted, by decide, (coalesced_iff hsorted).mpr ⟨hstop, ?_⟩⟩
  rintro ⟨i, r, -, ⟨q, hq, hfar⟩, -⟩
  have := hnear q (mem_of_mem_take hq)
  omega

theorem wrapped_range_not_covered
    : ¬ Coalesced [⟨0, 10⟩, ⟨2, 0xfffffffffffffffe⟩] ∧
        Overlay.want counting ⟨.chain, [], none, none⟩ [⟨0, 5⟩, ⟨2, 0xfffffffffffffff9⟩] =
          .ok [⟨0, 10⟩, ⟨2, 0xfffffffffffffffe⟩] ∧
        (Overlay.reside counting ⟨.chain, [], none, none⟩ [⟨0, 5⟩, ⟨2, 0xfffffffffffffff9⟩]).2 = .panic := by
  refine ⟨?_, rfl, by decide +kernel⟩
  intro h
  have hstop := h.stop_lt ⟨2, 0xfffffffffffffffe⟩ (by simp)
  revert hstop
  decide

end EpochDB.Store.Resident
