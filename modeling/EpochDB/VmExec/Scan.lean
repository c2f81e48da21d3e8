import EpochDB.VmExec.Recover

/-!
What the scan of the recorded rows keeps.
-/

namespace EpochDB.VmExec

open List
open Store (Addr Hash Crypto)
open Latest

variable {rows : List Row} {row : Row}

theorem mem_recorded
    : row ∈ recorded rows ↔
        (rows.filter (fun r => r.key = row.key ∧ r.tx = row.tx)).getLast? = some row := by
  induction rows with
  | nil => simp [recorded]
  | cons r rows ih =>
    unfold recorded
    by_cases hr : r.key = row.key ∧ r.tx = row.tx
    . rw [filter_cons_of_pos (by simpa using hr), getLast?_cons]
      split
      . next hlater =>
        rw [ih]
        rcases hlater with ⟨r', hmem, hkey, htx⟩
        have hne : rows.filter (fun r => r.key = row.key ∧ r.tx = row.tx) ≠ [] := by
          apply ne_nil_of_mem (a := r')
          simp [hmem, hkey, htx, hr]
        rw [getLast?_eq_some_getLast hne]
        rfl
      . next hlast =>
        have hnil : rows.filter (fun r => r.key = row.key ∧ r.tx = row.tx) = [] := by
          rw [filter_eq_nil_iff]
          intro r' hmem hr'
          simp only [decide_eq_true_eq] at hr'
          exact hlast ⟨r', hmem, hr'.1.trans hr.1.symm, hr'.2.trans hr.2.symm⟩
        rw [hnil] at ih ⊢
        simp only [mem_cons, ih]
        simp [eq_comm]
    . rw [filter_cons_of_neg (by simpa using hr)]
      split
      . exact ih
      . rw [mem_cons, ih]
        constructor
        . rintro (rfl | h)
          . exact absurd ⟨rfl, rfl⟩ hr
          . exact h
        . exact .inr

theorem mem_of_mem_recorded (h : row ∈ recorded rows) : row ∈ rows := by
  rw [mem_recorded] at h
  have := mem_of_getLast? h
  exact (mem_filter.mp this).1

theorem eq_of_mem_recorded {row row' : Row} (h : row ∈ recorded rows)
    (h' : row' ∈ recorded rows) (hkey : row.key = row'.key) (htx : row.tx = row'.tx) : row = row' := by
  rw [mem_recorded] at h h'
  rw [hkey, htx, h'] at h
  exact (Option.some.inj h).symm

theorem last_mem_recorded (hs : rows.Pairwise (fun r r' => r.tx ≤ r'.tx)) {k : RowKey} (h : (rows.filter (fun r => r.key = k)).getLast? = some row)
    : row ∈ recorded rows ∧ row.key = k ∧ ∀ r ∈ rows, r.key = k → r.tx ≤ row.tx := by
  rcases getLast?_eq_some_iff.mp h with ⟨init, hinit⟩
  have hkey : row.key = k := by
    have := mem_of_getLast? h
    simpa using (mem_filter.mp this).2
  refine ⟨?_, hkey, ?_⟩
  . rw [mem_recorded]
    have hsplit : rows.filter (fun r => r.key = row.key ∧ r.tx = row.tx) =
        (rows.filter (fun r => r.key = k)).filter (fun r => r.tx = row.tx) := by
      rw [filter_filter]
      congr 1
      funext r
      simp [hkey, Bool.and_comm]
    rw [hsplit, hinit]
    simp
  . intro r hr hrk
    have hmem : r ∈ init ++ [row] := by
      rw [← hinit, mem_filter]
      simp [hr, hrk]
    have hs' := hs.filter (fun r => decide (r.key = k))
    rw [hinit, pairwise_append] at hs'
    rw [mem_append, mem_singleton] at hmem
    rcases hmem with hmem | rfl
    . exact hs'.2.2 r hmem row (by simp)
    . exact Nat.le_refl _

namespace Scan

@[simp]
theorem latest_addDelete (s : Scan) (row : Row) : (s.addDelete row).latest = s.latest := by
  unfold addDelete
  split
  . split <;> rfl
  . rfl

@[simp]
theorem dels_addLatest (s : Scan) (row : Row) : (s.addLatest row).dels = s.dels := by
  unfold addLatest
  split
  . split <;> rfl
  . rfl

structure Newest (s : Scan) (rows : List Row) : Prop where
  found : ∀ k tx val, s.latest.lookup k = some (tx, val) →
    ⟨k, tx, val⟩ ∈ rows ∧ ∀ row ∈ rows, row.key = k → row.tx ≤ tx
  missing : ∀ k, s.latest.lookup k = none → ∀ row ∈ rows, row.key ≠ k

structure NewestDelete (s : Scan) (rows : List Row) : Prop where
  found : ∀ addr tx, s.dels.lookup addr = some tx → 0 < tx ∧ ⟨.account addr, tx, []⟩ ∈ rows
  bound : ∀ addr tx, ⟨.account addr, tx, []⟩ ∈ rows → tx ≤ (s.dels.lookup addr).getD 0

variable {s : Scan} {rows : List Row}

theorem Newest.congr {s s' : Scan} (h : s.Newest rows) (hlatest : s'.latest = s.latest) : s'.Newest rows := by
  constructor
  . rw [hlatest]
    exact h.found
  . rw [hlatest]
    exact h.missing

theorem NewestDelete.congr {s s' : Scan} (h : s.NewestDelete rows) (hdels : s'.dels = s.dels) : s'.NewestDelete rows := by
  constructor
  . rw [hdels]
    exact h.found
  . rw [hdels]
    exact h.bound

theorem Newest.add (h : s.Newest rows) (row : Row) : (s.addLatest row).Newest (rows ++ [row]) := by
  have hput : (∀ tx val, s.latest.lookup row.key = some (tx, val) → tx ≤ row.tx) →
      Newest { s with latest := s.latest.insert row.key (row.tx, row.val) } (rows ++ [row]) := by
    intro hle
    constructor
    . intro k tx val hk
      by_cases hkey : k = row.key
      . subst hkey
        rw [AList.lookup_insert] at hk
        cases hk
        refine ⟨by simp, ?_⟩
        intro r hr hrk
        rw [mem_append, mem_singleton] at hr
        rcases hr with hr | rfl
        . cases hcur : s.latest.lookup row.key with
          | none => exact absurd hrk (h.missing _ hcur r hr)
          | some cur => exact Nat.le_trans ((h.found _ _ _ hcur).2 r hr hrk) (hle _ _ hcur)
        . exact Nat.le_refl _
      . rw [AList.lookup_insert_ne hkey] at hk
        refine ⟨mem_append_left _ (h.found _ _ _ hk).1, ?_⟩
        intro r hr hrk
        rw [mem_append, mem_singleton] at hr
        rcases hr with hr | rfl
        . exact (h.found _ _ _ hk).2 r hr hrk
        . exact absurd hrk.symm hkey
    . intro k hk r hr
      by_cases hkey : k = row.key
      . rw [hkey, AList.lookup_insert] at hk
        contradiction
      . rw [AList.lookup_insert_ne hkey] at hk
        rw [mem_append, mem_singleton] at hr
        rcases hr with hr | rfl
        . exact h.missing k hk r hr
        . exact Ne.symm hkey
  unfold addLatest
  split
  . next cur hcur =>
    split
    . next hlt =>
      apply hput
      intro tx val hval
      rw [hcur] at hval
      cases hval
      exact Nat.le_of_lt hlt
    . next hge =>
      constructor
      . intro k tx val hk
        refine ⟨mem_append_left _ (h.found _ _ _ hk).1, ?_⟩
        intro r hr hrk
        rw [mem_append, mem_singleton] at hr
        rcases hr with hr | rfl
        . exact (h.found _ _ _ hk).2 r hr hrk
        . rw [← hrk, hcur] at hk
          cases hk
          omega
      . intro k hk r hr
        rw [mem_append, mem_singleton] at hr
        rcases hr with hr | rfl
        . exact h.missing k hk r hr
        . rintro rfl
          rw [hcur] at hk
          contradiction
  . next hcur =>
    apply hput
    intro tx val hval
    rw [hcur] at hval
    contradiction

theorem NewestDelete.add (h : s.NewestDelete rows) (row : Row) : (s.addDelete row).NewestDelete (rows ++ [row]) := by
  -- a row that is kept out of the map leaves it right
  have hkeep : (∀ addr tx, row = ⟨.account addr, tx, []⟩ → tx ≤ (s.dels.lookup addr).getD 0) →
      s.NewestDelete (rows ++ [row]) := by
    intro hle
    constructor
    . intro addr tx hdel
      exact ⟨(h.found addr tx hdel).1, mem_append_left _ (h.found addr tx hdel).2⟩
    . intro addr tx hmem
      rw [mem_append, mem_singleton] at hmem
      rcases hmem with hmem | hmem
      . exact h.bound addr tx hmem
      . exact hle addr tx hmem.symm
  unfold addDelete
  split
  . next addr hkey =>
    split
    . next hdel =>
      rcases hdel with ⟨hval, hlt⟩
      have hrow : row = ⟨.account addr, row.tx, []⟩ := by rw [← hkey, ← hval]
      constructor
      . intro addr' tx hlook
        by_cases haddr : addr' = addr
        . subst haddr
          rw [AList.lookup_insert] at hlook
          cases hlook
          refine ⟨by omega, ?_⟩
          rw [← hrow]
          simp
        . rw [AList.lookup_insert_ne haddr] at hlook
          exact ⟨(h.found _ _ hlook).1, mem_append_left _ (h.found _ _ hlook).2⟩
      . intro addr' tx hmem
        rw [mem_append, mem_singleton] at hmem
        by_cases haddr : addr' = addr
        . subst haddr
          rw [AList.lookup_insert, Option.getD_some]
          rcases hmem with hmem | rfl
          . have := h.bound addr' tx hmem
            omega
          . exact Nat.le_refl _
        . rw [AList.lookup_insert_ne haddr]
          rcases hmem with hmem | hmem
          . exact h.bound _ _ hmem
          . rw [← hmem] at hkey
            cases hkey
            exact absurd rfl haddr
    . next hdel =>
      apply hkeep
      rintro addr' tx rfl
      cases hkey
      simpa using hdel
  . next hkey =>
    apply hkeep
    rintro addr tx rfl
    exact absurd rfl (hkey addr)

theorem ofRows_spec (lo hi : Nat) (rows : List Row)
    : (ofRows lo hi rows).Newest (rows.filter (fun r => lo ≤ r.tx ∧ r.tx ≤ hi)) ∧
        (ofRows lo hi rows).NewestDelete (rows.filter (fun r => lo ≤ r.tx ∧ r.tx ≤ hi)) := by
  induction rows using List.reverseRecOn with
  | nil =>
    refine ⟨⟨?_, by simp⟩, ⟨?_, by simp⟩⟩
    . intro k tx val h
      contradiction
    . intro addr tx h
      contradiction
  | append_singleton rows row ih =>
    rw [ofRows, foldl_append, filter_append]
    show (add lo hi (ofRows lo hi rows) row).Newest _ ∧ (add lo hi (ofRows lo hi rows) row).NewestDelete _
    unfold add
    split
    . next hout =>
      have : ¬ (lo ≤ row.tx ∧ row.tx ≤ hi) := by omega
      simpa [this] using ih
    . next hin =>
      have : lo ≤ row.tx ∧ row.tx ≤ hi := by omega
      rw [filter_cons_of_pos (by simpa using this), filter_nil]
      constructor
      . exact (ih.1.add row).congr (latest_addDelete _ row)
      . exact (ih.2.congr (dels_addLatest _ row)).add row

theorem Newest.perm {rows rows' : List Row} (h : s.Newest rows) (hp : rows.Perm rows')
    : s.Newest rows' where
  found k tx val hk :=
    ⟨hp.mem_iff.mp (h.found k tx val hk).1, fun row hrow => (h.found k tx val hk).2 row (hp.mem_iff.mpr hrow)⟩
  missing k hk row hrow := h.missing k hk row (hp.mem_iff.mpr hrow)

theorem NewestDelete.perm {rows rows' : List Row} (h : s.NewestDelete rows)
    (hp : rows.Perm rows') : s.NewestDelete rows' where
  found addr tx hdel := ⟨(h.found addr tx hdel).1, hp.mem_iff.mp (h.found addr tx hdel).2⟩
  bound addr tx hmem := h.bound addr tx (hp.mem_iff.mpr hmem)

theorem Newest.lookup (h : s.Newest (recorded rows)) (hs : rows.Pairwise (fun r r' => r.tx ≤ r'.tx)) (k : RowKey)
    : s.latest.lookup k = ((rows.filter (fun r => r.key = k)).getLast?).map (fun r => (r.tx, r.val)) := by
  cases hlast : (rows.filter (fun r => r.key = k)).getLast? with
  | none =>
    have hnil := getLast?_eq_none_iff.mp hlast
    rw [Option.map_none, Option.eq_none_iff_forall_ne_some]
    rintro ⟨tx, val⟩ hk
    have hmem := mem_of_mem_recorded (h.found k tx val hk).1
    rw [filter_eq_nil_iff] at hnil
    exact hnil _ hmem (by simp)
  | some row =>
    rcases last_mem_recorded hs hlast with ⟨hmem, hkey, hmax⟩
    cases hk : s.latest.lookup k with
    | none => exact absurd hkey (h.missing k hk row hmem)
    | some cur =>
      rcases h.found k cur.1 cur.2 hk with ⟨hcur, hcurMax⟩
      have htx : row.tx = cur.1 :=
        Nat.le_antisymm (hcurMax row hmem hkey) (hmax _ (mem_of_mem_recorded hcur) rfl)
      have := eq_of_mem_recorded hmem hcur hkey htx
      rw [this]
      rfl

end Scan

end EpochDB.VmExec
