import EpochDB.Lib.Bytes
import EpochDB.Lib.Words

/-!
The cross-check of validator sets from two sources and the manager built from one (`fetch/follow.go`).
-/

namespace EpochDB.Fetch

open List

abbrev NodeID := FixedBytes 20

abbrev Weights := AList (fun _ : NodeID => UInt64)

def Weights.weight (a : Weights) (id : NodeID) : UInt64 := (a.lookup id).getD 0

/--
Whether two sets agree, `none` is agreement. `tolerant` is the comparison in floating point that is made where the
weights move.
-/
def weightsAgree (tolerant : UInt64 → UInt64 → Option String) (a b : Weights) (exact : Bool) : Option String :=
  let totalA := (a.entries.map (·.2)).sum
  let agreed := ((a.entries.filter (fun e => b.weight e.1 = e.2)).map (·.2)).sum
  let totalB := (b.entries.map (·.2)).sum
  let maxTotal := max totalA totalB
  let lenA := a.entries.length
  let lenB := b.entries.length
  if maxTotal = 0 then
    some "empty validator sets"
  else if exact then
    if lenA ≠ lenB ∨ agreed ≠ maxTotal then
      some s!"sets differ ({lenA} vs {lenB} validators, {agreed} of {maxTotal} weight agrees) and this subnet's weights are static, so a difference is a real registration or a bad source"
    else
      none
  else
    tolerant agreed maxTotal

structure Manager (M : Type) where
  nodeString : NodeID → String
  newManager : M
  addStaker : M → NodeID → UInt64 → Except String M
  getValidatorIDs : M → List NodeID

def managerFor {M : Type} (mgr : Manager M) (weights : List (Sigma (fun _ : NodeID => UInt64))) : Except String M := do
  let m ← weights.foldlM (fun m e =>
    if e.2 = 0 then
      pure m
    else
      (mgr.addStaker m e.1 e.2).mapError (fun err => "add validator " ++ mgr.nodeString e.1 ++ ": " ++ err)) mgr.newManager
  if (mgr.getValidatorIDs m).length = 0 then
    throw "no validator in the set carries any weight"
  else
    return m

def Same (a b : Weights) : Prop :=
  (∀ id, a.weight id = b.weight id) ∧
    ∀ (M : Type) (mgr : Manager M) (order : List (Sigma (fun _ : NodeID => UInt64))), order.Perm a.entries →
      ∃ order', order'.Perm b.entries ∧ managerFor mgr order = managerFor mgr order'

def total (a : Weights) : Nat := (a.entries.map (fun e => e.2.toNat)).sum

def shared (a b : Weights) : Nat := ((a.entries.filter (fun e => b.weight e.1 = e.2)).map (fun e => e.2.toNat)).sum

def own (a b : Weights) : Nat := ((a.entries.filter (fun e => b.weight e.1 ≠ e.2)).map (fun e => e.2.toNat)).sum

def Hidden (a b : Weights) (x : Nat) : Prop := 2 ^ 64 ∣ x ∨ 2 ^ 64 ≤ shared a b % 2 ^ 64 + x % 2 ^ 64

structure Wraps (a b : Weights) : Prop where
  count : a.entries.length = b.entries.length
  shared : shared a b % 2 ^ 64 ≠ 0
  apart : 0 < own a b ∨ 0 < own b a
  hidden : (2 ^ 64 ∣ own a b ∧ Hidden a b (own b a)) ∨ (2 ^ 64 ∣ own b a ∧ Hidden a b (own a b))

theorem toNat_sum (l : List UInt64) : l.sum.toNat = (l.map (·.toNat)).sum % 2 ^ 64 := by
  induction l with
  | nil => rfl
  | cons w l ih =>
    rw [sum_cons, map_cons, sum_cons, UInt64.toNat_add, ih]
    omega

variable {a b : Weights}

theorem total_eq (a b : Weights) : total a = shared a b + own a b := by
  unfold total shared own
  induction a.entries with
  | nil => rfl
  | cons e l ih =>
    by_cases he : b.weight e.1 = e.2
    . simp only [he, map_cons, sum_cons, filter_cons, decide_true, if_true, ne_eq, not_true,
        decide_false, Bool.false_eq_true, if_false, ih]
      omega
    . simp only [he, map_cons, sum_cons, filter_cons, decide_false, Bool.false_eq_true, if_false, ne_eq,
        not_false_eq_true, decide_true, if_true, ih]
      omega

theorem mem_entries_iff (a : Weights) {e : Sigma (fun _ : NodeID => UInt64)} (hw : e.2 ≠ 0)
    : e ∈ a.entries ↔ a.weight e.1 = e.2 := by
  have hlookup : e ∈ a.entries ↔ a.lookup e.1 = some e.2 := AList.mem_lookup_iff.symm
  rw [hlookup]
  unfold Weights.weight
  cases a.lookup e.1 with
  | none => simp [Ne.symm hw]
  | some w => simp

theorem nodup_entries (a : Weights) : a.entries.Nodup := List.NodupKeys.nodup a.nodupKeys

theorem sum_filter_ne_zero (l : List (Sigma (fun _ : NodeID => UInt64)))
    : ((l.filter (fun e => e.2 ≠ 0)).map (fun e => e.2.toNat)).sum = (l.map (fun e => e.2.toNat)).sum := by
  induction l with
  | nil => rfl
  | cons e l ih =>
    by_cases he : e.2 = 0
    . rw [filter_cons_of_neg (by simpa using he), ih, map_cons, sum_cons, he]
      simp
    . rw [filter_cons_of_pos (by simpa using he), map_cons, sum_cons, ih, map_cons, sum_cons]

theorem shared_comm (a b : Weights) : shared a b = shared b a := by
  unfold shared
  rw [← sum_filter_ne_zero, ← sum_filter_ne_zero (b.entries.filter _), filter_filter, filter_filter]
  refine List.Perm.sum_eq (List.Perm.map _ ?_)
  rw [perm_ext_iff_of_nodup ((nodup_entries a).filter _) ((nodup_entries b).filter _)]
  intro e
  simp only [mem_filter, Bool.and_eq_true, decide_eq_true_eq]
  constructor
  . rintro ⟨he, hw, hb⟩
    exact ⟨(mem_entries_iff b hw).mpr hb, hw, (mem_entries_iff a hw).mp he⟩
  . rintro ⟨he, hw, ha⟩
    exact ⟨(mem_entries_iff a hw).mpr ha, hw, (mem_entries_iff b hw).mp he⟩

theorem weight_eq_zero_of_own (h : own a b = 0) {id : NodeID} (hne : b.weight id ≠ a.weight id) : a.weight id = 0 := by
  by_contra hw
  have hmem : (⟨id, a.weight id⟩ : Sigma (fun _ : NodeID => UInt64)) ∈ a.entries := (mem_entries_iff a hw).mpr rfl
  have hown : (a.weight id).toNat ≤ own a b := by
    apply single_le_sum (fun _ _ => Nat.zero_le _)
    exact mem_map.mpr ⟨⟨id, a.weight id⟩, mem_filter.mpr ⟨hmem, by simpa using hne⟩, rfl⟩
  have hzero : (a.weight id).toNat = 0 := by omega
  exact hw (UInt64.toNat_inj.mp hzero)

theorem own_eq_zero (h : ∀ id, a.weight id = b.weight id) : own a b = 0 := by
  unfold own
  rw [← sum_filter_ne_zero, filter_filter]
  have hnone : a.entries.filter (fun e => decide (e.2 ≠ 0) && decide (b.weight e.1 ≠ e.2)) = [] := by
    rw [filter_eq_nil_iff]
    intro e he
    simp only [Bool.and_eq_true, decide_eq_true_eq, not_and, not_not]
    intro hw
    rw [← h, (mem_entries_iff a hw).mp he]
  rw [hnone]
  rfl

theorem weights_eq_iff : (∀ id, a.weight id = b.weight id) ↔ own a b = 0 ∧ own b a = 0 := by
  constructor
  . intro h
    exact ⟨own_eq_zero h, own_eq_zero (fun id => (h id).symm)⟩
  . rintro ⟨hab, hba⟩ id
    by_contra hne
    exact hne ((weight_eq_zero_of_own hab (Ne.symm hne)).trans (weight_eq_zero_of_own hba hne).symm)

theorem managerFor_filter {M : Type} (mgr : Manager M) (l : List (Sigma (fun _ : NodeID => UInt64)))
    : managerFor mgr (l.filter (fun e => e.2 ≠ 0)) = managerFor mgr l := by
  unfold managerFor
  rw [foldlM_filter]
  congr 2
  funext m e
  by_cases he : e.2 = 0
  . simp [he]
  . simp [he]

theorem same_of_weights_eq (h : ∀ id, a.weight id = b.weight id) : Same a b := by
  refine ⟨h, ?_⟩
  intro M mgr order horder
  have hperm : (order.filter (fun e => e.2 ≠ 0)).Perm (b.entries.filter (fun e => e.2 ≠ 0)) := by
    refine (horder.filter _).trans ?_
    rw [perm_ext_iff_of_nodup ((nodup_entries a).filter _) ((nodup_entries b).filter _)]
    intro e
    simp only [mem_filter, decide_eq_true_eq]
    constructor
    . rintro ⟨he, hw⟩
      refine ⟨(mem_entries_iff b hw).mpr ?_, hw⟩
      rw [← h]
      exact (mem_entries_iff a hw).mp he
    . rintro ⟨he, hw⟩
      refine ⟨(mem_entries_iff a hw).mpr ?_, hw⟩
      rw [h]
      exact (mem_entries_iff b hw).mp he
  -- the zero weights behind the others
  refine ⟨order.filter (fun e => e.2 ≠ 0) ++ b.entries.filter (fun e => ¬ e.2 ≠ 0), ?_, ?_⟩
  . refine (hperm.append_right _).trans ?_
    have hsplit := filter_append_perm (fun e : Sigma (fun _ : NodeID => UInt64) => decide (e.2 ≠ 0)) b.entries
    simpa using hsplit
  . rw [← managerFor_filter mgr order, ← managerFor_filter mgr (_ ++ _), filter_append, filter_filter, filter_filter]
    simp

theorem toNat_sum_weights (l : List (Sigma (fun _ : NodeID => UInt64)))
    : UInt64.toNat (l.map (·.2)).sum = (l.map (fun e => e.2.toNat)).sum % 2 ^ 64 := by
  rw [toNat_sum, map_map]
  rfl

theorem weightsAgree_eq_none_iff (tolerant : UInt64 → UInt64 → Option String) (a b : Weights)
    : weightsAgree tolerant a b true = none ↔ a.entries.length = b.entries.length ∧ shared a b % 2 ^ 64 ≠ 0 ∧
        shared a b % 2 ^ 64 = max (total a % 2 ^ 64) (total b % 2 ^ 64) := by
  have hA : UInt64.toNat (a.entries.map (·.2)).sum = total a % 2 ^ 64 := toNat_sum_weights _
  have hB : UInt64.toNat (b.entries.map (·.2)).sum = total b % 2 ^ 64 := toNat_sum_weights _
  have hagreed : UInt64.toNat ((a.entries.filter (fun e => b.weight e.1 = e.2)).map (·.2)).sum = shared a b % 2 ^ 64 :=
    toNat_sum_weights _
  unfold weightsAgree
  dsimp only
  generalize (a.entries.map (·.2)).sum = totalA at hA ⊢
  generalize (b.entries.map (·.2)).sum = totalB at hB ⊢
  generalize ((a.entries.filter (fun e => b.weight e.1 = e.2)).map (·.2)).sum = agreed at hagreed ⊢
  have hmax : (max totalA totalB).toNat = max (total a % 2 ^ 64) (total b % 2 ^ 64) := by
    rw [Words.toNat_max, hA, hB]
  rw [← hmax, ← hagreed]
  generalize max totalA totalB = maxTotal
  have hzero : agreed.toNat ≠ 0 ↔ agreed ≠ 0 := not_congr (UInt64.toNat_inj (b := 0))
  rw [UInt64.toNat_inj, hzero]
  by_cases hmaxTotal : maxTotal = 0
  . rw [if_pos hmaxTotal, hmaxTotal]
    simp
  . rw [if_neg hmaxTotal, if_pos rfl]
    split
    . next hdiffer =>
      simp only [reduceCtorEq, false_iff]
      rintro ⟨hlen, -, hagree⟩
      rcases hdiffer with h | h
      . exact h hlen
      . exact h hagree
    . next hsame =>
      simp only [ne_eq, not_or, not_not] at hsame
      refine ⟨fun _ => ⟨hsame.1, ?_, hsame.2⟩, fun _ => rfl⟩
      rw [hsame.2]
      exact hmaxTotal

/--
Exact mode accepts only equal sets, exactly when no difference is lost where the sums wrap. No sum below 2^64 does.
-/
theorem weightsAgree_exact_iff (tolerant : UInt64 → UInt64 → Option String) (a b : Weights)
    : ((weightsAgree tolerant a b true = none → Same a b) ↔ ¬ Wraps a b) ∧
        (Wraps a b → 2 ^ 64 ≤ total a ∨ 2 ^ 64 ≤ total b) := by
  have hsame : Same a b ↔ own a b = 0 ∧ own b a = 0 :=
    ⟨fun h => weights_eq_iff.mp h.1, fun h => same_of_weights_eq (weights_eq_iff.mpr h)⟩
  have hA := total_eq a b
  have hB := total_eq b a
  rw [shared_comm b a] at hB
  refine ⟨?_, ?_⟩
  . rw [weightsAgree_eq_none_iff, hsame, hA, hB]
    constructor
    . rintro h ⟨hcount, hshared, hapart, hhidden⟩
      unfold Hidden at hhidden
      have := h ⟨hcount, hshared, by omega⟩
      omega
    . rintro h ⟨hcount, hshared, hagree⟩
      by_contra hapart
      refine h ⟨hcount, hshared, by omega, ?_⟩
      unfold Hidden
      omega
  . rintro ⟨hcount, hshared, hapart, hhidden⟩
    unfold Hidden at hhidden
    omega

def twoNodes (k : UInt8) (w : UInt64) : Weights := ((∅ : Weights).insert (.fill 20 1) 5).insert (.fill 20 k) w

theorem weightsAgree_exact_iff_zeroWeight
    : weightsAgree (fun _ _ => none) (twoNodes 2 0) (twoNodes 3 0) true = none ∧ Same (twoNodes 2 0) (twoNodes 3 0) := by
  have hiff := weightsAgree_exact_iff (fun _ _ => none) (twoNodes 2 0) (twoNodes 3 0)
  have hagree : weightsAgree (fun _ _ => none) (twoNodes 2 0) (twoNodes 3 0) true = none := by decide +kernel
  have hwraps : ¬ Wraps (twoNodes 2 0) (twoNodes 3 0) := by
    intro h
    have htotal : ¬ (2 ^ 64 ≤ total (twoNodes 2 0) ∨ 2 ^ 64 ≤ total (twoNodes 3 0)) := by decide +kernel
    exact htotal (hiff.2 h)
  exact ⟨hagree, hiff.1.mpr hwraps hagree⟩

theorem weightsAgree_accepts_wrapped
    : weightsAgree (fun _ _ => none) (twoNodes 2 0) (twoNodes 2 0xffffffffffffffff) true = none ∧
        (twoNodes 2 0).weight (.fill 20 2) = 0 ∧ (twoNodes 2 0xffffffffffffffff).weight (.fill 20 2) = 0xffffffffffffffff := by
  decide +kernel

end EpochDB.Fetch
