import EpochDB.Store.Read.Windows

/-!
The frontier merge (`store/frontier.go`): the state rows of all runs go by in key order, and of each key the
last row at or below the TxNum is handed out when the next key begins. A run that starts behind the TxNum
is an input without rows.
-/

namespace EpochDB.Store.Read

open List SortedMap Sealed

structure FrontierRow where
  key : Bytes
  txnum : UInt64
  val : Bytes
  deriving DecidableEq, Repr

structure Frontier where
  held : Option FrontierRow
  out : List FrontierRow

namespace Frontier

def emit (f : Frontier) : Frontier := ⟨none, f.out ++ f.held.toList⟩

def take (atTx : UInt64) (f : Frontier) (row : Bytes × Bytes) : Frontier :=
  let key := row.1.take (row.1.length - 8)
  let num := txNumOf row.1
  let f := if f.held.all (·.key ≠ key) then f.emit else f
  if num ≤ atTx then { f with held := some ⟨key, num, row.2⟩ } else f

def isState (row : Bytes × Bytes) : Bool := prefixState.isPrefixOf row.1 && row.1.length > 8

end Frontier

def mergeFrontier (runs : List Sealed.Run) (atTx : UInt64) : List FrontierRow :=
  let inputs := runs.map (fun r => if r.footer.fromTx > atTx then [] else (r.sec .state).rows)
  let visit f row := if Frontier.isState row then Frontier.take atTx f row else f
  (KMerge.drain visit (inputs.map List.length).sum (KMerge.start inputs) ⟨none, []⟩).emit.out

/--
Of the rows of the key the one with the highest TxNum that is not above `atTx`.
-/
def Newest (has : Bytes × Bytes → Prop) (atTx : UInt64) (x : FrontierRow) : Prop :=
  x.txnum ≤ atTx ∧ has (suffixed x.key x.txnum, x.val) ∧
    ∀ n val, has (suffixed x.key n, val) → n ≤ atTx → n ≤ x.txnum

theorem Frontier.isState_suffixed {p : Bytes} (hp : StateKey p) (n : UInt64) (val : Bytes) : isState (suffixed p n, val) = true := by
  have hpre := isPrefix_state hp
  have hlen : 6 ≤ p.length := hpre.length_le
  rw [isState, Bool.and_eq_true, isPrefixOf_iff_prefix, length_suffixed]
  exact ⟨hpre.trans (prefix_append _ _), by simp; omega⟩

section Fold

variable {atTx : UInt64} {rows : List (Bytes × Bytes)} {f : Frontier}

structure Frontier.Of (atTx : UInt64) (rows : List (Bytes × Bytes)) (f : Frontier) : Prop where
  ascends : f.emit.out.Pairwise (fun x y => x.key < y.key)
  mem : ∀ x, x ∈ f.emit.out ↔ StateKey x.key ∧ Newest (· ∈ rows) atTx x
  passed : ∀ x ∈ f.out, ∃ q n val, (suffixed q n, val) ∈ rows ∧ StateKey q ∧ x.key < q

theorem newest_congr {has has' : Bytes × Bytes → Prop} {x : FrontierRow}
    (h : ∀ n val, n ≤ atTx → (has (suffixed x.key n, val) ↔ has' (suffixed x.key n, val)))
    : Newest has atTx x ↔ Newest has' atTx x := by
  unfold Newest
  refine and_congr_right (fun hle => and_congr (h _ _ hle) (forall₂_congr (fun n val => ?_)))
  constructor
  . exact fun hmax hn hle => hmax ((h n val hle).mpr hn) hle
  . exact fun hmax hn hle => hmax ((h n val hle).mp hn) hle

theorem newest_append_iff {q : Bytes} {m : UInt64} {v : Bytes} {x : FrontierRow} (hx : x.key ≠ q ∨ ¬m ≤ atTx)
    : Newest (· ∈ rows ++ [(suffixed q m, v)]) atTx x ↔ Newest (· ∈ rows) atTx x := by
  apply newest_congr
  intro n val hn
  rw [mem_append, mem_singleton, Prod.mk.injEq, suffixed_inj, or_iff_left]
  rintro ⟨⟨hkey, rfl⟩, -⟩
  exact hx.elim (absurd hkey) (absurd hn)

theorem Frontier.Of.take (h : f.Of atTx rows) {q : Bytes} (hq : StateKey q) {m : UInt64} {v : Bytes}
    (hle : ∀ p n val, (suffixed p n, val) ∈ rows → StateKey p → p < q ∨ p = q ∧ n ≤ m)
    (hval : ∀ val, (suffixed q m, val) ∈ rows → val = v)
    : (f.take atTx (suffixed q m, v)).Of atTx (rows ++ [(suffixed q m, v)]) := by
  have hout : ∀ x ∈ f.out, x.key < q := by
    intro x hx
    rcases h.passed x hx with ⟨p, n, val, hrow, hp, hlt⟩
    rcases hle p n val hrow hp with hpq | ⟨rfl, -⟩
    . exact lt_trans hlt hpq
    . exact hlt
  have hopen : ∃ g : Frontier, (if f.held.all (·.key ≠ q) then f.emit else f) = g ∧ g.emit.out = f.emit.out ∧
      (∀ x ∈ g.out, x.key < q) ∧ ∀ x ∈ g.held.toList, x.key = q := by
    refine ⟨_, rfl, ?_⟩
    cases hheld : f.held with
    | none => simpa [emit, hheld] using hout
    | some y =>
      have hy := ((h.mem y).mp (by simp [emit, hheld])).2.2.1
      have hky := ((h.mem y).mp (by simp [emit, hheld])).1
      by_cases hkey : y.key = q
      . simpa [hheld, hkey] using hout
      . have hlt := (hle _ _ _ hy hky).resolve_right (fun heq => hkey heq.1)
        simp only [Option.all_some, hkey, ne_eq, not_false_eq_true, decide_true, if_true]
        simp only [emit, hheld, Option.toList_some, Option.toList_none, append_nil, mem_append, mem_singleton,
          true_and, not_mem_nil, false_implies, implies_true, and_true]
        rintro x (hx | rfl)
        . exact hout x hx
        . exact hlt
  rcases hopen with ⟨g, hg, hemit, hbelow, hheld⟩
  have hpassed : ∀ x ∈ g.out, ∃ p n val, (suffixed p n, val) ∈ rows ++ [(suffixed q m, v)] ∧ StateKey p ∧ x.key < p :=
    fun x hx => ⟨q, m, v, by simp, hq, hbelow x hx⟩
  unfold Frontier.take
  dsimp only
  rw [take_suffixed, txNumOf_suffixed, hg]
  split
  . next hm =>
    refine ⟨?_, ?_, hpassed⟩
    . have hasc := h.ascends
      rw [← hemit, emit, pairwise_append] at hasc
      exact pairwise_append.mpr ⟨hasc.1, pairwise_singleton _ _, fun x hx y hy => by
        rw [mem_singleton.mp hy]
        exact hbelow x hx⟩
    . intro x
      rw [emit, mem_append, Option.toList_some, mem_singleton]
      by_cases hkey : x.key = q
      . constructor
        . rintro (hx | rfl)
          . exact absurd hkey (ne_of_lt (hbelow x hx))
          . refine ⟨hq, hm, by simp, ?_⟩
            intro n val hrow hn
            rw [mem_append, mem_singleton, Prod.mk.injEq, suffixed_inj] at hrow
            rcases hrow with hrow | ⟨⟨-, rfl⟩, -⟩
            . exact ((hle q n val hrow hq).resolve_left (lt_irrefl q)).2
            . exact UInt64.le_refl _
        . rintro ⟨-, hxle, hrow, hmax⟩
          right
          rcases x with ⟨p, n, val⟩
          dsimp only at hkey hxle hrow hmax
          subst hkey
          have hge := hmax m v (by simp) hm
          rw [mem_append, mem_singleton, Prod.mk.injEq, suffixed_inj] at hrow
          rcases hrow with hrow | ⟨⟨-, rfl⟩, rfl⟩
          . have hn := UInt64.le_antisymm ((hle p n val hrow hq).resolve_left (lt_irrefl p)).2 hge
            subst hn
            rw [hval val hrow]
          . rfl
      . rw [newest_append_iff (.inl hkey), ← h.mem, ← hemit, emit, mem_append]
        dsimp only
        apply or_congr_right
        constructor
        . rintro rfl
          exact absurd rfl hkey
        . intro hx
          exact absurd (hheld x hx) hkey
  . next hm =>
    refine ⟨by rw [hemit]; exact h.ascends, ?_, hpassed⟩
    intro x
    rw [hemit, h.mem, newest_append_iff (.inr hm)]

theorem Frontier.of_foldl (atTx : UInt64) (hstate : ∀ row ∈ rows, ∃ p n, StateKey p ∧ row.1 = suffixed p n)
    (hsorted : rows.Pairwise (fun r r' => r.1 ≤ r'.1))
    (hval : ∀ p n val val', StateKey p → (suffixed p n, val) ∈ rows → (suffixed p n, val') ∈ rows → val = val')
    : (rows.foldl (Frontier.take atTx) ⟨none, []⟩).Of atTx rows := by
  induction rows using List.reverseRecOn with
  | nil => exact ⟨.nil, by simp [emit, Newest], by simp⟩
  | append_singleton rows row ih =>
    rw [pairwise_append] at hsorted
    have ih := ih (fun r hr => hstate r (by simp [hr])) hsorted.1
      (fun p n val val' hp hr hr' => hval p n val val' hp (by simp [hr]) (by simp [hr']))
    rcases hstate row (by simp) with ⟨q, m, hq, hrow⟩
    rcases row with ⟨k, v⟩
    dsimp only at hrow
    subst hrow
    rw [foldl_append]
    refine ih.take hq ?_ ?_
    . intro p n val hmem hp
      have hle := hsorted.2.2 _ hmem (suffixed q m, v) (by simp)
      dsimp only at hle
      rw [← not_lt, prefixFree_stateKey.suffixed_lt_iff hq hp, not_or, not_and, not_lt, UInt64.not_lt] at hle
      rcases lt_or_eq_of_le hle.1 with hlt | heq
      . exact .inl hlt
      . exact .inr ⟨heq, hle.2 heq.symm⟩
    . intro val hmem
      exact hval q m val v hq (by simp [hmem]) (by simp)

end Fold

/--
The runs follow each other, oldest first, and each has state rows of its own TxNums only.
-/
structure TxDisjoint (rs : List Sealed.Run) : Prop where
  sections : ∀ r ∈ rs, StateSection (r.sec .state)
  within : ∀ r ∈ rs, ∀ p n val, StateKey p → (suffixed p n, val) ∈ (r.sec .state).rows →
    r.footer.fromTx ≤ n ∧ n < r.footer.toTx
  apart : rs.Pairwise (fun r r' => r.footer.toTx ≤ r'.footer.fromTx)

def inRuns (rs : List Sealed.Run) (row : Bytes × Bytes) : Prop := ∃ r ∈ rs, row ∈ (r.sec .state).rows

theorem runLatest_last (policy : FilterPolicy) (rs : List Sealed.Run) (p : Bytes)
    : runLatest policy rs p 18446744073709551615 = none := by
  unfold runLatest
  rw [findSome?_eq_none_iff]
  exact fun r _ => latest_last policy r .state p

section Runs

variable {rs : List Sealed.Run} (h : TxDisjoint rs) (atTx : UInt64)

include h

theorem TxDisjoint.val_eq {p : Bytes} (hp : StateKey p) {n : UInt64} {val val' : Bytes} (hrow : inRuns rs (suffixed p n, val))
    (hrow' : inRuns rs (suffixed p n, val')) : val = val' := by
  rcases hrow with ⟨r, hr, hrow⟩
  rcases hrow' with ⟨r', hr', hrow'⟩
  have hin := h.within r hr p n val hp hrow
  have hin' := h.within r' hr' p n val' hp hrow'
  have heq : r = r' := by
    by_contra hne
    have hapart : rs.Pairwise (fun r r' => r.footer.toTx ≤ r'.footer.fromTx ∨ r'.footer.toTx ≤ r.footer.fromTx) :=
      h.apart.imp Or.inl
    have hsymm : Std.Symm (fun r r' : Sealed.Run => r.footer.toTx ≤ r'.footer.fromTx ∨ r'.footer.toTx ≤ r.footer.fromTx) :=
      ⟨fun _ _ => Or.symm⟩
    rcases hapart.forall hr hr' hne with hle | hle
    . exact absurd (UInt64.lt_of_lt_of_le hin.2 (UInt64.le_trans hle hin'.1)) (UInt64.lt_irrefl n)
    . exact absurd (UInt64.lt_of_lt_of_le hin'.2 (UInt64.le_trans hle hin.1)) (UInt64.lt_irrefl n)
  subst heq
  rw [← get_eq_some] at hrow hrow'
  rw [hrow, Option.some.injEq] at hrow'
  exact hrow'

theorem TxDisjoint.mergeFrontier_spec
    : (mergeFrontier rs atTx).Pairwise (fun x y => x.key < y.key) ∧
      ∀ x, x ∈ mergeFrontier rs atTx ↔ StateKey x.key ∧ Newest (inRuns rs) atTx x := by
  unfold mergeFrontier
  generalize hinputs : rs.map (fun r => if r.footer.fromTx > atTx then [] else (r.sec .state).rows) = inputs
  have hordered : ∀ rows ∈ inputs, SortedMap.Ordered rows := by
    rw [← hinputs]
    intro rows hrows
    rcases mem_map.mp hrows with ⟨r, -, rfl⟩
    split
    . exact .nil
    . exact (r.sec .state).sorted
  rcases KMerge.drain_eq_foldl (fun f row => if Frontier.isState row then Frontier.take atTx f row else f) _
    (KMerge.heap_start hordered) (KMerge.sum_start inputs).le ⟨none, []⟩ with ⟨rows, hdrain, hsorted, hmem⟩
  dsimp only
  rw [hdrain, ← foldl_filter]
  have hin : ∀ {row}, row ∈ rows ↔ ∃ r ∈ rs, r.footer.fromTx ≤ atTx ∧ row ∈ (r.sec .state).rows := by
    intro row
    rw [hmem, KMerge.mem_rows_start, ← hinputs]
    simp only [mem_map, exists_exists_and_eq_and, gt_iff_lt]
    refine exists_congr (fun r => and_congr_right (fun _ => ?_))
    split
    . next hlt => simp [UInt64.not_le.mpr hlt]
    . next hle => simp [UInt64.not_lt.mp hle]
  have hstate : ∀ row ∈ rows.filter Frontier.isState, ∃ p n, StateKey p ∧ row.1 = suffixed p n := by
    intro row hrow
    rw [mem_filter, hin] at hrow
    rcases hrow with ⟨⟨r, hr, -, hrow⟩, hstate⟩
    rcases h.sections r hr row hrow with ⟨c, hcode⟩ | hkey
    . have hcodeKey : prefixState.isPrefixOf (codeKey c.val) = false := rfl
      rw [Frontier.isState, hcode, hcodeKey] at hstate
      cases hstate
    . exact hkey
  have hhas : ∀ {p n val}, StateKey p → n ≤ atTx →
      ((suffixed p n, val) ∈ rows.filter Frontier.isState ↔ inRuns rs (suffixed p n, val)) := by
    intro p n val hp hn
    rw [mem_filter, hin, and_iff_left (Frontier.isState_suffixed hp n val)]
    refine exists_congr (fun r => and_congr_right (fun hr => and_iff_right_of_imp (fun hrow => ?_)))
    exact UInt64.le_trans (h.within r hr p n val hp hrow).1 hn
  have hof := Frontier.of_foldl atTx hstate (hsorted.filter _) ?_
  . refine ⟨hof.ascends, fun x => ?_⟩
    rw [hof.mem, and_congr_right (fun hx => newest_congr (fun n val hn => hhas hx hn))]
  . have hruns : ∀ {row}, row ∈ rows.filter Frontier.isState → inRuns rs row := by
      intro row hrow
      rcases hin.mp (mem_filter.mp hrow).1 with ⟨r, hr, -, hrow⟩
      exact ⟨r, hr, hrow⟩
    exact fun p n val val' hp hrow hrow' => h.val_eq hp (hruns hrow) (hruns hrow')

theorem TxDisjoint.newest_of_runLatest (policy : FilterPolicy) {p : Bytes} (hp : StateKey p) (hlast : atTx ≠ 18446744073709551615)
    : (∀ v, runLatest policy rs p atTx = some v → Newest (inRuns rs) atTx ⟨p, v.txnum, v.val⟩) ∧
      (runLatest policy rs p atTx = none → ∀ n val, n ≤ atTx → ¬inRuns rs (suffixed p n, val)) := by
  have hlatest : ∀ r ∈ rs.reverse, IsLatest (fun k => (r.sec .state).get (suffixed p k)) atTx (r.latest policy .state p atTx) :=
    fun r hr => isLatest_latest policy (h.sections r (mem_reverse.mp hr)) hp hlast
  unfold runLatest
  rw [findSome?_filter_of_none]
  . constructor
    . intro v hv
      rcases findSome?_eq_some_iff.mp hv with ⟨newer, r, older, hsplit, hr, hnone⟩
      have hmem : r ∈ rs.reverse := by simp [hsplit]
      have hrow := hlatest r hmem
      rw [hr] at hrow
      rcases hrow with ⟨hle, hrow, hmax⟩
      rw [get_eq_some] at hrow
      have hapart : (newer ++ r :: older).Pairwise (fun a b => b.footer.toTx ≤ a.footer.fromTx) := by
        rw [← hsplit, pairwise_reverse]
        exact h.apart
      refine ⟨hle, ⟨r, mem_reverse.mp hmem, hrow⟩, ?_⟩
      rintro n val ⟨r', hr', hrow'⟩ hn
      have hin := h.within r' hr' p n val hp hrow'
      rw [← mem_reverse, hsplit, mem_append, mem_cons] at hr'
      rcases hr' with hr' | rfl | hr'
      . have hnot := hlatest r' (by simp [hsplit, hr'])
        rw [hnone r' hr'] at hnot
        exact absurd hrow' (get_eq_none.mp (hnot n hn) val)
      . by_contra hlt
        exact absurd hrow' (get_eq_none.mp (hmax n (UInt64.not_le.mp hlt) hn) val)
      . have hle := (pairwise_cons.mp (pairwise_append.mp hapart).2.1).1 r' hr'
        have hfrom := (h.within r (mem_reverse.mp hmem) p v.txnum v.val hp hrow).1
        exact UInt64.le_of_lt (UInt64.lt_of_lt_of_le hin.2 (UInt64.le_trans hle hfrom))
    . rintro hnone n val hn ⟨r, hr, hrow⟩
      rw [← mem_reverse] at hr
      have hnot := hlatest r hr
      rw [findSome?_eq_none_iff.mp hnone r hr] at hnot
      exact get_eq_none.mp (hnot n hn) val hrow
  . -- a run that starts behind `atTx` has no row for the lookup to find
    intro r hr hskip
    have hrow := hlatest r hr
    cases hv : r.latest policy .state p atTx with
    | none => rfl
    | some v =>
      rw [hv] at hrow
      have hfrom := (h.within r (mem_reverse.mp hr) p v.txnum v.val hp (get_eq_some.mp hrow.2.1)).1
      rw [Bool.not_eq_false', decide_eq_true_eq] at hskip
      exact absurd (UInt64.le_trans hfrom hrow.1) (UInt64.not_le.mpr hskip)

theorem TxDisjoint.newest_iff (policy : FilterPolicy) {x : FrontierRow} (hx : StateKey x.key) (hlast : atTx ≠ 18446744073709551615)
    : Newest (inRuns rs) atTx x ↔ runLatest policy rs x.key atTx = some ⟨x.txnum, x.val⟩ := by
  rcases h.newest_of_runLatest atTx policy hx hlast with ⟨hsome, hnone⟩
  constructor
  . intro hnew
    cases hv : runLatest policy rs x.key atTx with
    | none => exact absurd hnew.2.1 (hnone hv _ _ hnew.1)
    | some v =>
      have hv := hsome v hv
      have hnum := UInt64.le_antisymm (hnew.2.2 _ _ hv.2.1 hv.1) (hv.2.2 _ _ hnew.2.1 hnew.1)
      rcases v with ⟨n, val⟩
      dsimp only at hnum hv
      subst hnum
      have hval : val = x.val := h.val_eq hx hv.2.1 hnew.2.1
      rw [hval]
  . exact hsome _

omit h in
theorem exists_newest {p : Bytes} {n : UInt64} {val : Bytes} (hrow : inRuns rs (suffixed p n, val))
    : ∃ x, x.key = p ∧ Newest (inRuns rs) 18446744073709551615 x := by
  -- the row with the least distance to the end of the TxNums
  have hwf := (measure (fun k : UInt64 => 2 ^ 64 - k.toNat)).wf
  have hmin := hwf.has_min {k | ∃ v, inRuns rs (suffixed p k, v)} ⟨n, val, hrow⟩
  rcases hmin with ⟨k, ⟨v, hk⟩, hmin⟩
  refine ⟨⟨p, k, v⟩, rfl, UInt64.le_iff_toNat_le.mpr (Nat.le_pred_of_lt k.toNat_lt), hk, ?_⟩
  intro k' v' hk' _
  have hge : ¬2 ^ 64 - k'.toNat < 2 ^ 64 - k.toNat := hmin k' ⟨v', hk'⟩
  have hlt := k'.toNat_lt
  rw [UInt64.le_iff_toNat_le]
  dsimp only
  omega

/--
The merge emits the newest row of every state key, in the order of the keys. The descent finds the same
rows at every TxNum but the largest one.
-/
theorem mergeFrontier_eq_descent_iff (policy : FilterPolicy)
    : (mergeFrontier rs atTx).Pairwise (fun x y => x.key < y.key) ∧
      (∀ x, x ∈ mergeFrontier rs atTx ↔ StateKey x.key ∧ Newest (inRuns rs) atTx x) ∧
      ((∀ p, StateKey p → ((mergeFrontier rs atTx).find? (·.key = p)).map (fun x => ⟨x.txnum, x.val⟩) =
          runLatest policy rs p atTx) ↔
        atTx ≠ 18446744073709551615 ∨ ∀ p n val, StateKey p → ¬inRuns rs (suffixed p n, val)) := by
  rcases h.mergeFrontier_spec atTx with ⟨hasc, hmem⟩
  refine ⟨hasc, hmem, ?_⟩
  by_cases hlast : atTx = 18446744073709551615
  . subst hlast
    simp only [runLatest_last, Option.map_eq_none_iff, find?_eq_none, decide_eq_true_eq, ne_eq, not_true_eq_false, false_or]
    constructor
    . intro hno p n val hp hrow
      rcases exists_newest hrow with ⟨x, rfl, hx⟩
      exact hno x.key hp x ((hmem x).mpr ⟨hp, hx⟩) rfl
    . intro hno p _ x hx
      rcases (hmem x).mp hx with ⟨hp, -, hrow, -⟩
      exact absurd hrow (hno _ _ _ hp)
  . simp only [ne_eq, hlast, not_false_eq_true, true_or, iff_true]
    intro p hp
    cases hfind : (mergeFrontier rs atTx).find? (·.key = p) with
    | none =>
      cases hv : runLatest policy rs p atTx with
      | none => rfl
      | some v =>
        have hx := (hmem ⟨p, v.txnum, v.val⟩).mpr ⟨hp, (h.newest_iff atTx policy hp hlast).mpr hv⟩
        exact absurd (by simp) (find?_eq_none.mp hfind _ hx)
    | some x =>
      have hkey : x.key = p := by simpa using find?_some hfind
      subst hkey
      exact ((h.newest_iff atTx policy hp hlast).mp ((hmem x).mp (mem_of_find?_eq_some hfind)).2).symm

end Runs

theorem txDisjoint_of_lives {crypto : Crypto} {s : Life} (h : Lives crypto s) : TxDisjoint s.sys.view.runs := by
  rcases lifeInv_of_reachable h with ⟨l, fbs, mbs, hinv⟩
  have hstored := hinv.parts.stored
  rw [hstored.runs]
  constructor
  . intro r hr
    rcases mem_map.mp hr with ⟨p, hp, rfl⟩
    exact (hstored.holds p hp).shows.stateSection
  . intro r hr key n val hkey hrow
    rcases mem_map.mp hr with ⟨p, hp, rfl⟩
    have hholds := hstored.holds p hp
    rw [← get_eq_some, hholds.shows.state key hkey] at hrow
    have hmem := (Table.valueAt_eq_some hholds.tabled.before).mp hrow
    exact hholds.txnum (Table.mem_history.mp (History.mem_of_mem_record _ hmem)) rfl
  . rw [pairwise_map]
    exact (pairwise_of_contiguous hstored.holds hstored.contiguous).imp And.left

theorem mergeFrontier_eq_descent_iff_reopened
    : ∃ s, Lives Memtable.emptyBlockCrypto s ∧ s.sys.view.runs.length = 1 ∧
        ((mergeFrontier s.sys.view.runs 7).find? (·.key = zeroAccount)).map (fun x => ⟨x.txnum, x.val⟩) =
          runLatest exactPolicy s.sys.view.runs zeroAccount 7 := by
  rcases exists_reopenedLife with ⟨s, hs, -, hlen⟩
  exact ⟨s, hs, hlen, (mergeFrontier_eq_descent_iff (txDisjoint_of_lives hs) 7 exactPolicy).2.2.mpr (.inl (by decide)) _
    stateKey_zeroAccount⟩

theorem exists_frontier
    : ∃ s, Lives Memtable.emptyBlockCrypto s ∧ mergeFrontier s.sys.view.runs 18446744073709551615 = [⟨zeroAccount, 0, [1]⟩] := by
  have hrun : (lives Memtable.emptyBlockCrypto [.write (Memtable.emptyBlock 1), .cut, .publish]).map
        (fun s => mergeFrontier s.sys.view.runs 18446744073709551615) = some [⟨zeroAccount, 0, [1]⟩] := by
    decide +kernel
  rcases Option.map_eq_some_iff.mp hrun with ⟨s, hs, hrows⟩
  exact ⟨s, lives_of_run hs, hrows⟩

theorem mergeFrontier_at_last_txnum
    : ∃ s, Lives Memtable.emptyBlockCrypto s ∧ mergeFrontier s.sys.view.runs 18446744073709551615 = [⟨zeroAccount, 0, [1]⟩] ∧
        runLatest exactPolicy s.sys.view.runs zeroAccount 18446744073709551615 = none := by
  rcases exists_frontier with ⟨s, hs, hrows⟩
  exact ⟨s, hs, hrows, runLatest_last exactPolicy _ _⟩

/-- `quote` and `quoteRune` are what `%q` prints of a string and of a byte. -/
def splitStateKey (quote : Bytes → String) (quoteRune : UInt8 → String) (key : Bytes) : Except String (UInt8 × Bytes × Bytes) :=
  let addrEnd := prefixState.length + 20
  if key.length < addrEnd + 3 || !prefixState.isPrefixOf key || key[addrEnd]? != some '/'.toUInt8 then
    .error s!"store: {quote key} is not a state key"
  else
    let kind := key.getD (addrEnd + 1) 0
    let addr := (key.take addrEnd).drop prefixState.length
    if kind = 'a'.toUInt8 ∨ kind = 'c'.toUInt8 then
      if key.length != addrEnd + 3 then .error s!"store: {quote key} is not a state {Char.ofNat kind.toNat} key" else .ok (kind, addr, [])
    else if kind = 's'.toUInt8 then
      if key.length != addrEnd + 3 + 32 + 1 then
        .error s!"store: {quote key} is not a state s key"
      else
        .ok (kind, addr, (key.take (addrEnd + 3 + 32)).drop (addrEnd + 3))
    else
      .error s!"store: {quote key} has unknown state kind {quoteRune kind}"

theorem splitStateKey_stateKeyPrefix (quote : Bytes → String) (quoteRune : UInt8 → String) (r : StateRow)
    : splitStateKey quote quoteRune (stateKeyPrefix r) = .ok (r.kind.byte, r.addr.val, if r.kind = .slot then r.slot.val else []) := by
  rcases r with ⟨kind, ⟨addr, haddr⟩, ⟨slot, hslot⟩, val⟩
  cases kind with
  | account => simp [splitStateKey, stateKeyPrefix, accountPrefix, prefixState, Bytes.ofChars, StateKind.byte, haddr]
  | code => simp [splitStateKey, stateKeyPrefix, codeRefPrefix, prefixState, Bytes.ofChars, StateKind.byte, haddr]
  | slot =>
    have hkind : ¬('s'.toUInt8 = 'a'.toUInt8 ∨ 's'.toUInt8 = 'c'.toUInt8) := by decide
    simp [splitStateKey, stateKeyPrefix, slotPrefix, prefixState, Bytes.ofChars, StateKind.byte, hkind, take_append,
      drop_append, haddr, hslot]

/--
What the merge hands to the frontier build takes apart into the kind, the address and the slot it was stored with.
-/
theorem splitStateKey_mergeFrontier {rs : List Sealed.Run} (h : TxDisjoint rs) {atTx : UInt64} {x : FrontierRow}
    (hx : x ∈ mergeFrontier rs atTx) (quote : Bytes → String) (quoteRune : UInt8 → String)
    : ∃ r : StateRow, x.key = stateKeyPrefix r ∧
        splitStateKey quote quoteRune x.key = .ok (r.kind.byte, r.addr.val, if r.kind = .slot then r.slot.val else []) := by
  rcases (((h.mergeFrontier_spec atTx).2 x).mp hx).1 with ⟨r, hr⟩
  refine ⟨r, hr, ?_⟩
  rw [hr]
  exact splitStateKey_stateKeyPrefix quote quoteRune r

theorem splitStateKey_mergeFrontier_zeroAccount : ∃ r : StateRow, zeroAccount = stateKeyPrefix r ∧
    splitStateKey Bytes.hex (fun c => Bytes.hex [c]) zeroAccount = .ok (r.kind.byte, r.addr.val, if r.kind = .slot then r.slot.val else []) := by
  rcases exists_frontier with ⟨s, hs, hrows⟩
  exact splitStateKey_mergeFrontier (txDisjoint_of_lives hs) (x := ⟨zeroAccount, 0, [1]⟩) (by rw [hrows]; exact mem_cons_self) _ _

end EpochDB.Store.Read
