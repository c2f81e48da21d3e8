import EpochDB.Store.Read.Naive

/-!
The sequential read of a chain family (`ChainRows` of `store/db.go`): the runs that reach into the range,
oldest first, then the windows number by number. A walk keeps the numbers it read.
-/

namespace EpochDB.Store.Read

open List Option
open Sealed (FilterPolicy Sst)

structure ChainRow where
  num : UInt64
  val : Bytes
  deriving DecidableEq, Repr

structure Walk (σ : Type) where
  state : σ
  next : UInt64
  stopped : Bool
  reads : List UInt64

def scanRange (sec : Sst) (lo hi : Bytes) : List (Bytes × Bytes) :=
  (sec.rows.dropWhile (fun row => row.1 < lo)).takeWhile (fun row => row.1 < hi)

def passes (fam : Fam) (next stop : UInt64) (r : Sealed.Run) : Bool :=
  let f := r.footer
  let lo := if byHeight fam then f.fromHeight else f.fromTx
  let hi := if byHeight fam then f.toHeight else f.toTx - 1
  (f.toTx = f.fromTx && !byHeight fam) || hi < next || lo > stop

namespace Walk

variable {σ : Type} (fn : σ → ChainRow → σ × Bool)

def hand (w : Walk σ) (n : UInt64) (val : Bytes) : Walk σ :=
  let r := fn w.state ⟨n, val⟩
  ⟨r.1, n + 1, !r.2, w.reads ++ [n]⟩

def scan (w : Walk σ) : List (Bytes × Bytes) → Walk σ
  | [] => w
  | (k, val) :: rows =>
    let w := w.hand fn (txNumOf k) val
    if w.stopped then w else w.scan rows

def scanRuns (fam : Fam) (stop : UInt64) (w : Walk σ) : List Sealed.Run → Walk σ
  | [] => w
  | r :: runs =>
    if passes fam w.next stop r then
      w.scanRuns fam stop runs
    else
      let w := w.scan fn (scanRange (r.sec .chain) (numKey (famPrefix fam) w.next) (numKey (famPrefix fam) (stop + 1)))
      if w.stopped then w else w.scanRuns fam stop runs

def scanWindows (v : View) (fam : Fam) (count : Nat) (w : Walk σ) : Walk σ :=
  match count with
  | 0 => w
  | count + 1 =>
    match (v.mem.chainGet fam w.next).or (v.frozen.bind (·.chainGet fam w.next)) with
    | none => scanWindows v fam count ⟨w.state, w.next + 1, false, w.reads ++ [w.next]⟩
    | some val =>
      let w := w.hand fn w.next val
      if w.stopped then w else scanWindows v fam count w

end Walk

def chainRows (fn : σ → ChainRow → σ × Bool) (v : View) (fam : Fam) (start stop : UInt64) (s : σ) : Walk σ :=
  let w : Walk σ := ⟨s, start, false, []⟩
  if stop < start then
    w
  else
    let w := w.scanRuns fn fam stop v.runs
    if w.stopped then w else w.scanWindows fn v fam (stop.toNat + 1 - w.next.toNat)

namespace Walk

variable {σ : Type} (fn : σ → ChainRow → σ × Bool)

def visit (w : Walk σ) : List (UInt64 × Option Bytes) → Walk σ
  | [] => w
  | (n, none) :: reads => visit ⟨w.state, n + 1, false, w.reads ++ [n]⟩ reads
  | (n, some val) :: reads =>
    let w := w.hand fn n val
    if w.stopped then w else w.visit reads

theorem visit_append {w : Walk σ} (hw : w.stopped = false) (reads reads' : List (UInt64 × Option Bytes))
    : w.visit fn (reads ++ reads') =
        if (w.visit fn reads).stopped then w.visit fn reads else (w.visit fn reads).visit fn reads' := by
  induction reads generalizing w with
  | nil => simp [visit, hw]
  | cons r reads ih =>
    rcases r with ⟨n, val⟩
    cases val with
    | none => exact ih rfl
    | some val =>
      simp only [cons_append, visit]
      split
      . rfl
      . next hgo => exact ih (by simpa using hgo)

theorem next_visit {w : Walk σ} {reads : List (UInt64 × Option Bytes)} (h : (w.visit fn reads).stopped = false)
    : (w.visit fn reads).next = (reads.getLast?.map (·.1 + 1)).getD w.next := by
  induction reads generalizing w with
  | nil => rfl
  | cons r reads ih =>
    have hlast : ∀ n, ((r :: reads).getLast?.map (·.1 + 1)).getD n = (reads.getLast?.map (·.1 + 1)).getD (r.1 + 1) := by
      intro n
      cases hreads : reads.getLast? with
      | none =>
        rw [getLast?_eq_none_iff] at hreads
        subst hreads
        rfl
      | some last => simp [getLast?_cons, hreads]
    rcases r with ⟨n, val⟩
    rw [hlast]
    cases val with
    | none => exact ih h
    | some val =>
      simp only [visit] at h ⊢
      split at h
      . next hstop =>
        rw [hstop] at h
        cases h
      . next hgo =>
        rw [if_neg hgo]
        exact ih h

theorem scan_eq (w : Walk σ) (rows : List (Bytes × Bytes))
    : w.scan fn rows = w.visit fn (rows.map (fun row => (txNumOf row.1, some row.2))) := by
  induction rows generalizing w with
  | nil => rfl
  | cons row rows ih =>
    simp only [scan, map_cons, visit]
    rw [ih]

def slotReads (v : View) (fam : Fam) (n : UInt64) : Nat → List (UInt64 × Option Bytes)
  | 0 => []
  | count + 1 => (n, (v.mem.chainGet fam n).or (v.frozen.bind (·.chainGet fam n))) :: slotReads v fam (n + 1) count

theorem scanWindows_eq (v : View) (fam : Fam) (count : Nat) (w : Walk σ)
    : w.scanWindows fn v fam count = w.visit fn (slotReads v fam w.next count) := by
  induction count generalizing w with
  | zero => rfl
  | succ count ih =>
    simp only [scanWindows, slotReads]
    cases (v.mem.chainGet fam w.next).or (v.frozen.bind (·.chainGet fam w.next)) with
    | none =>
      simp only [visit]
      rw [ih]
    | some val =>
      simp only [visit]
      rw [ih]
      rfl

def nextAfter (next : UInt64) (rows : List (Bytes × Bytes)) : UInt64 :=
  (rows.getLast?.map (fun row => txNumOf row.1 + 1)).getD next

def runRows (fam : Fam) (stop next : UInt64) : List Sealed.Run → List (Bytes × Bytes)
  | [] => []
  | r :: runs =>
    if passes fam next stop r then
      runRows fam stop next runs
    else
      let rows := scanRange (r.sec .chain) (numKey (famPrefix fam) next) (numKey (famPrefix fam) (stop + 1))
      rows ++ runRows fam stop (nextAfter next rows) runs

theorem scanRuns_eq (fam : Fam) (stop : UInt64) {w : Walk σ} (hw : w.stopped = false) (runs : List Sealed.Run)
    : w.scanRuns fn fam stop runs = w.visit fn ((runRows fam stop w.next runs).map (fun row => (txNumOf row.1, some row.2))) := by
  induction runs generalizing w with
  | nil => rfl
  | cons r runs ih =>
    simp only [scanRuns, runRows]
    split
    . exact ih hw
    . generalize scanRange (r.sec .chain) (numKey (famPrefix fam) w.next) (numKey (famPrefix fam) (stop + 1)) = rows
      rw [map_append, visit_append fn hw, ← scan_eq]
      split
      . rfl
      . next hgo =>
        have hgo : (w.scan fn rows).stopped = false := by simpa using hgo
        rw [ih hgo]
        rw [scan_eq] at hgo
        have hnext := next_visit fn hgo
        rw [← scan_eq, List.getLast?_map, Option.map_map] at hnext
        rw [hnext]
        rfl

end Walk

def chainReads (v : View) (fam : Fam) (start stop : UInt64) : List (UInt64 × Option Bytes) :=
  let rows := Walk.runRows fam stop start v.runs
  let next := Walk.nextAfter start rows
  rows.map (fun row => (txNumOf row.1, some row.2)) ++ Walk.slotReads v fam next (stop.toNat + 1 - next.toNat)

theorem chainRows_eq_visit (fn : σ → ChainRow → σ × Bool) (v : View) (fam : Fam) {start stop : UInt64} (hle : start ≤ stop) (s : σ)
    : chainRows fn v fam start stop s = Walk.visit fn ⟨s, start, false, []⟩ (chainReads v fam start stop) := by
  unfold chainRows chainReads
  dsimp only
  rw [if_neg (UInt64.not_lt.mpr hle), Walk.visit_append fn rfl, Walk.scanRuns_eq fn fam stop rfl]
  split
  . rfl
  . next hgo =>
    have hnext := Walk.next_visit fn (by simpa using hgo)
    rw [List.getLast?_map, Option.map_map] at hnext
    rw [Walk.scanWindows_eq, hnext]
    rfl

def found : UInt64 × Option Bytes → Option ChainRow
  | (n, some val) => some ⟨n, val⟩
  | (_, none) => none

def handed (fn : σ → α → σ × Bool) (s : σ) : List α → List α
  | [] => []
  | row :: rows =>
    match fn s row with
    | (s, true) => row :: handed fn s rows
    | (_, false) => [row]

theorem filterMap_found_some (n : UInt64) (val : Bytes) (reads : List (UInt64 × Option Bytes))
    : ((n, some val) :: reads).filterMap found = ⟨n, val⟩ :: reads.filterMap found := rfl

theorem getLast?_cons_of_some {α : Type} {l : List α} {b : α} (h : l.getLast? = some b) (a : α)
    : (a :: l).getLast? = some b := by
  rw [getLast?_cons, h]
  rfl

namespace Walk

variable {σ : Type} (fn : σ → ChainRow → σ × Bool)

theorem hand_eq {fn : σ → ChainRow → σ × Bool} {w : Walk σ} {n : UInt64} {val : Bytes} {s : σ} {goOn : Bool}
    (h : fn w.state ⟨n, val⟩ = (s, goOn)) : w.hand fn n val = ⟨s, n + 1, !goOn, w.reads ++ [n]⟩ := by
  unfold hand
  rw [h]

theorem state_visit {w : Walk σ} (hw : w.stopped = false) (reads : List (UInt64 × Option Bytes))
    : (w.visit fn reads).state = (feed fn w.state (reads.filterMap found)).1 ∧
      (w.visit fn reads).stopped = !(feed fn w.state (reads.filterMap found)).2 := by
  induction reads generalizing w with
  | nil => exact ⟨rfl, hw⟩
  | cons r reads ih =>
    rcases r with ⟨n, val⟩
    cases val with
    | none => exact ih rfl
    | some val =>
      rw [filterMap_found_some]
      simp only [visit, feed]
      cases hfn : fn w.state ⟨n, val⟩ with
      | mk s goOn =>
        rw [hand_eq hfn]
        cases goOn with
        | true => exact ih rfl
        | false => exact ⟨rfl, rfl⟩

theorem reads_visit {w : Walk σ} (hw : w.stopped = false) (reads : List (UInt64 × Option Bytes))
    : ∃ made, made <+: reads.map (·.1) ∧ (w.visit fn reads).reads = w.reads ++ made ∧
        ((w.visit fn reads).stopped = true → ∃ row, made.getLast? = some row.num ∧
          (handed fn w.state (reads.filterMap found)).getLast? = some row) := by
  induction reads generalizing w with
  | nil =>
    refine ⟨[], prefix_refl _, (append_nil _).symm, ?_⟩
    intro hstop
    have hstop : w.stopped = true := hstop
    rw [hw] at hstop
    cases hstop
  | cons r reads ih =>
    rcases r with ⟨n, val⟩
    cases val with
    | none =>
      rcases ih (w := ⟨w.state, n + 1, false, w.reads ++ [n]⟩) rfl with ⟨made, hpre, hreads, hlast⟩
      refine ⟨n :: made, cons_prefix_cons.mpr ⟨rfl, hpre⟩, ?_, ?_⟩
      . rw [visit, hreads, append_assoc]
        rfl
      . intro hstop
        rcases hlast hstop with ⟨row, hmade, hrow⟩
        exact ⟨row, getLast?_cons_of_some hmade n, hrow⟩
    | some val =>
      rw [filterMap_found_some]
      simp only [visit, handed]
      cases hfn : fn w.state ⟨n, val⟩ with
      | mk s goOn =>
        rw [hand_eq hfn]
        cases goOn with
        | true =>
          rcases ih (w := ⟨s, n + 1, false, w.reads ++ [n]⟩) rfl with ⟨made, hpre, hreads, hlast⟩
          refine ⟨n :: made, cons_prefix_cons.mpr ⟨rfl, hpre⟩, ?_, ?_⟩
          . rw [if_neg (by simp)]
            refine Eq.trans hreads ?_
            rw [append_assoc]
            rfl
          . intro hstop
            rcases hlast hstop with ⟨row, hmade, hrow⟩
            exact ⟨row, getLast?_cons_of_some hmade n, getLast?_cons_of_some hrow _⟩
        | false =>
          refine ⟨[n], ?_, rfl, fun _ => ⟨⟨n, val⟩, rfl, rfl⟩⟩
          rw [map_cons]
          exact prefix_append [n] _

end Walk

def behindRun (fam : Fam) (r : Sealed.Run) (n : UInt64) : Prop :=
  if byHeight fam then r.footer.toHeight < n else r.footer.toTx ≤ n

structure Tiled (v : View) : Prop where
  keys : ∀ r ∈ v.runs, ∀ row ∈ (r.sec .chain).rows, ∃ fam n, row.1 = numKey (famPrefix fam) n
  inside : ∀ r ∈ v.runs, ∀ fam n val, (r.sec .chain).get (numKey (famPrefix fam) n) = some val →
    inRun n (byHeight fam) r = true
  ascending : v.runs.Pairwise (fun r r' => ∀ fam n, inRun n (byHeight fam) r' = true → behindRun fam r n)
  mem : ∀ r ∈ v.runs, ∀ fam n val, v.mem.chainGet fam n = some val → behindRun fam r n
  frozen : ∀ f, v.frozen = some f → ∀ r ∈ v.runs, ∀ fam n val, f.chainGet fam n = some val → behindRun fam r n

theorem numKey_lt_iff (fam : Fam) (a b : UInt64) : numKey (famPrefix fam) a < numKey (famPrefix fam) b ↔ a < b := by
  unfold numKey
  rw [Bytes.append_lt_append_iff rfl, Bytes.putUint64_lt_iff]
  simp

theorem txNumOf_numKey (fam : Fam) (n : UInt64) : txNumOf (numKey (famPrefix fam) n) = n := txNumOf_suffixed _ n

variable {fam : Fam} {n : UInt64} {r : Sealed.Run} {m : Memtable} {crypto : Crypto} {val : Bytes}

theorem fam_of_isPrefix {fam fam' : Fam} (h : famPrefix fam <+: numKey (famPrefix fam') n) : fam = fam' := by
  have hlen : ∀ fam, 3 ≤ (famPrefix fam).length := by
    intro fam
    cases fam <;> decide
  have htake : (famPrefix fam).take 3 = (famPrefix fam').take 3 := by
    rcases h with ⟨x, hx⟩
    have hleft : (famPrefix fam ++ x).take 3 = (famPrefix fam).take 3 := take_append_of_le_length (hlen fam)
    rw [← hleft, hx]
    exact take_append_of_le_length (hlen fam')
  cases fam <;> cases fam' <;> first | rfl | exact absurd htake (by decide)

theorem not_behindRun (h : inRun n (byHeight fam) r = true) : ¬ behindRun fam r n := by
  unfold inRun at h
  unfold behindRun
  by_cases hby : byHeight fam = true
  . rw [if_pos hby, Bool.and_eq_true, decide_eq_true_eq, decide_eq_true_eq] at h
    rw [if_pos hby, UInt64.not_lt]
    exact h.2
  . rw [if_neg hby, Bool.and_eq_true, decide_eq_true_eq, decide_eq_true_eq] at h
    rw [if_neg hby, UInt64.not_le]
    exact h.2

theorem lt_of_behindRun {n n' : UInt64} (h : inRun n (byHeight fam) r = true) (h' : behindRun fam r n') : n < n' := by
  unfold inRun at h
  unfold behindRun at h'
  by_cases hby : byHeight fam = true
  . rw [if_pos hby, Bool.and_eq_true, decide_eq_true_eq, decide_eq_true_eq] at h
    rw [if_pos hby] at h'
    exact UInt64.lt_of_le_of_lt h.2 h'
  . rw [if_neg hby, Bool.and_eq_true, decide_eq_true_eq, decide_eq_true_eq] at h
    rw [if_neg hby] at h'
    exact UInt64.lt_of_lt_of_le h.2 h'

theorem not_inRun_of_passes {next stop n : UInt64} (h : passes fam next stop r = true)
    (hlo : next ≤ n) (hhi : n ≤ stop) : inRun n (byHeight fam) r = false := by
  rw [Bool.eq_false_iff]
  intro hin
  unfold inRun at hin
  unfold passes at h
  cases hby : byHeight fam with
  | true =>
    simp only [hby, if_true, Bool.and_eq_true, Bool.or_eq_true, decide_eq_true_eq, Bool.not_true, Bool.false_eq_true, and_false,
      false_or, UInt64.le_iff_toNat_le, UInt64.lt_iff_toNat_lt, ge_iff_le, gt_iff_lt] at h hin hlo hhi
    omega
  | false =>
    have hsub : (1 : UInt64) ≤ r.footer.toTx → (r.footer.toTx - 1).toNat = r.footer.toTx.toNat - 1 :=
      fun hone => UInt64.toNat_sub_of_le _ _ hone
    simp only [hby, Bool.false_eq_true, if_false, Bool.and_eq_true, Bool.or_eq_true, decide_eq_true_eq, Bool.not_false, and_true,
      UInt64.le_iff_toNat_le, UInt64.lt_iff_toNat_lt, ge_iff_le, gt_iff_lt, ← UInt64.toNat_inj, UInt64.toNat_one] at h hin hlo hhi hsub
    have hsub := hsub (by omega)
    omega

theorem nextAfter_spec {next stop : UInt64} (hstop : stop.toNat + 1 < 2 ^ 64) {rows : List (Bytes × Bytes)}
    (hrows : ∀ row ∈ rows, ∃ n, row.1 = numKey (famPrefix fam) n ∧ next ≤ n ∧ n ≤ stop)
    (hasc : rows.Pairwise (fun row row' => txNumOf row.1 < txNumOf row'.1))
    : next ≤ Walk.nextAfter next rows ∧ (next ≤ stop → (Walk.nextAfter next rows).toNat ≤ stop.toNat + 1) ∧
      (∀ row ∈ rows, txNumOf row.1 < Walk.nextAfter next rows) ∧
      ∀ n, next ≤ n → (∀ row ∈ rows, txNumOf row.1 < n) → Walk.nextAfter next rows ≤ n := by
  unfold Walk.nextAfter
  cases hlast : rows.getLast? with
  | none =>
    rw [getLast?_eq_none_iff] at hlast
    subst hlast
    exact ⟨UInt64.le_refl _, fun hle => Nat.le_succ_of_le (UInt64.le_iff_toNat_le.mp hle), by simp, fun n hn _ => hn⟩
  | some last =>
    have hmem := mem_of_getLast? hlast
    rcases hrows last hmem with ⟨n, hkey, hlo, hhi⟩
    rw [UInt64.le_iff_toNat_le] at hlo hhi
    have hsucc : (txNumOf last.1 + 1).toNat = n.toNat + 1 := by
      rw [hkey, txNumOf_numKey]
      exact toNat_add_one (by omega)
    rw [map_some, getD_some, UInt64.le_iff_toNat_le]
    refine ⟨by omega, fun _ => by omega, ?_, ?_⟩
    . intro row hrow
      rw [UInt64.lt_iff_toNat_lt, hsucc]
      rcases getLast?_eq_some_iff.mp hlast with ⟨front, hfront⟩
      rw [hfront] at hrow hasc
      rcases mem_append.mp hrow with hrow | hrow
      . have hlt := (pairwise_append.mp hasc).2.2 row hrow last (by simp)
        rw [hkey, txNumOf_numKey, UInt64.lt_iff_toNat_lt] at hlt
        omega
      . rw [mem_singleton.mp hrow, hkey, txNumOf_numKey]
        omega
    . intro n' _ habove
      have hlt := habove last hmem
      rw [hkey, txNumOf_numKey, UInt64.lt_iff_toNat_lt] at hlt
      rw [UInt64.le_iff_toNat_le]
      omega

namespace Tiled

variable {v : View} (h : Tiled v)

include h

section Scan

variable {r : Sealed.Run} (hr : r ∈ v.runs) (fam : Fam) (next : UInt64) {stop : UInt64} (hstop : stop.toNat + 1 < 2 ^ 64)

include hr hstop

theorem mem_scanRange (row : Bytes × Bytes)
    : row ∈ scanRange (r.sec .chain) (numKey (famPrefix fam) next) (numKey (famPrefix fam) (stop + 1)) ↔
      ∃ n, row.1 = numKey (famPrefix fam) n ∧ next ≤ n ∧ n ≤ stop ∧ (r.sec .chain).get row.1 = some row.2 := by
  have hsucc : (stop + 1).toNat = stop.toNat + 1 := toNat_add_one hstop
  unfold scanRange
  rw [SortedMap.dropWhile_eq_filter (r.sec .chain).sorted (p := fun key => decide (key < numKey (famPrefix fam) next)),
    SortedMap.takeWhile_eq_filter ((r.sec .chain).sorted.filter _) (p := fun key => decide (key < numKey (famPrefix fam) (stop + 1)))]
  . rw [mem_filter, mem_filter, SortedMap.get_eq_some, Bool.not_eq_true', decide_eq_false_iff_not, not_lt,
      decide_eq_true_eq]
    constructor
    . rintro ⟨⟨hrow, hlo⟩, hhi⟩
      rcases h.keys r hr row hrow with ⟨fam', n, hkey⟩
      have hpre := Bytes.isPrefix_of_between hlo hhi
      rw [hkey] at hpre
      have hfam := fam_of_isPrefix hpre
      subst hfam
      rw [hkey] at hlo hhi
      rw [← not_lt, numKey_lt_iff, UInt64.not_lt] at hlo
      rw [numKey_lt_iff, UInt64.lt_iff_toNat_lt, hsucc] at hhi
      exact ⟨n, hkey, hlo, UInt64.le_iff_toNat_le.mpr (by omega), hrow⟩
    . rintro ⟨n, hkey, hlo, hhi, hrow⟩
      refine ⟨⟨hrow, ?_⟩, ?_⟩
      . rw [hkey, ← not_lt, numKey_lt_iff, UInt64.not_lt]
        exact hlo
      . rw [hkey, numKey_lt_iff, UInt64.lt_iff_toNat_lt, hsucc]
        rw [UInt64.le_iff_toNat_le] at hhi
        omega
  . intro a b hab hb
    rw [decide_eq_true_eq] at hb ⊢
    exact lt_trans hab hb
  . intro a b hab hb
    rw [decide_eq_true_eq] at hb ⊢
    exact lt_trans hab hb

theorem scanRange_pairwise
    : (scanRange (r.sec .chain) (numKey (famPrefix fam) next) (numKey (famPrefix fam) (stop + 1))).Pairwise
        (fun row row' => txNumOf row.1 < txNumOf row'.1) := by
  have hsorted : (scanRange (r.sec .chain) (numKey (famPrefix fam) next) (numKey (famPrefix fam) (stop + 1))).Pairwise
      (fun row row' => row.1 < row'.1) :=
    (r.sec .chain).sorted.sublist ((takeWhile_sublist _).trans (dropWhile_sublist _))
  apply hsorted.imp_of_mem
  intro row row' hrow hrow' hlt
  rcases (h.mem_scanRange hr fam next hstop row).mp hrow with ⟨n, hkey, -⟩
  rcases (h.mem_scanRange hr fam next hstop row').mp hrow' with ⟨n', hkey', -⟩
  rw [hkey, hkey'] at hlt ⊢
  rw [txNumOf_numKey, txNumOf_numKey]
  exact (numKey_lt_iff fam n n').mp hlt

end Scan

section Runs

variable (fam : Fam) {stop : UInt64} (hstop : stop.toNat + 1 < 2 ^ 64)

include hstop

theorem mem_runRows {runs : List Sealed.Run} (hruns : runs <:+ v.runs) (next : UInt64) (row : Bytes × Bytes)
    : row ∈ Walk.runRows fam stop next runs ↔
      ∃ n, row.1 = numKey (famPrefix fam) n ∧ next ≤ n ∧ n ≤ stop ∧ ∃ r ∈ runs, (r.sec .chain).get row.1 = some row.2 := by
  induction runs generalizing next with
  | nil => simp [Walk.runRows]
  | cons r runs ih =>
    have hr : r ∈ v.runs := hruns.subset (by simp)
    have hlater : ∀ r' ∈ runs, ∀ fam n, inRun n (byHeight fam) r' = true → behindRun fam r n := by
      have hasc := h.ascending.sublist hruns.sublist
      exact (pairwise_cons.mp hasc).1
    have hruns' : runs <:+ v.runs := (suffix_cons r runs).trans hruns
    simp only [Walk.runRows]
    split
    . next hpass =>
      rw [ih hruns']
      constructor
      . rintro ⟨n, hkey, hlo, hhi, r', hr', hget⟩
        exact ⟨n, hkey, hlo, hhi, r', by simp [hr'], hget⟩
      . rintro ⟨n, hkey, hlo, hhi, r', hr', hget⟩
        rcases mem_cons.mp hr' with rfl | hr'
        . rw [hkey] at hget
          have hin := h.inside r' hr fam n _ hget
          rw [not_inRun_of_passes hpass hlo hhi] at hin
          cases hin
        . exact ⟨n, hkey, hlo, hhi, r', hr', hget⟩
    . generalize hrows : scanRange (r.sec .chain) (numKey (famPrefix fam) next) (numKey (famPrefix fam) (stop + 1)) = rows
      have hmem := h.mem_scanRange hr fam next hstop
      have hasc := h.scanRange_pairwise hr fam next hstop
      rw [hrows] at hmem hasc
      have htake : ∀ row ∈ rows, ∃ n, row.1 = numKey (famPrefix fam) n ∧ next ≤ n ∧ n ≤ stop := by
        intro row hrow
        rcases (hmem row).mp hrow with ⟨n, hkey, hlo, hhi, -⟩
        exact ⟨n, hkey, hlo, hhi⟩
      rcases nextAfter_spec hstop htake hasc with ⟨hnext, -, -, hbehind⟩
      rw [mem_append, hmem, ih hruns']
      constructor
      . rintro (⟨n, hkey, hlo, hhi, hget⟩ | ⟨n, hkey, hlo, hhi, r', hr', hget⟩)
        . exact ⟨n, hkey, hlo, hhi, r, by simp, hget⟩
        . exact ⟨n, hkey, UInt64.le_trans hnext hlo, hhi, r', by simp [hr'], hget⟩
      . rintro ⟨n, hkey, hlo, hhi, r', hr', hget⟩
        rcases mem_cons.mp hr' with rfl | hr'
        . exact .inl ⟨n, hkey, hlo, hhi, hget⟩
        . right
          have hin := hget
          rw [hkey] at hin
          have hbehindRun := hlater r' hr' fam n (h.inside r' (hruns'.subset hr') fam n _ hin)
          refine ⟨n, hkey, hbehind n hlo ?_, hhi, r', hr', hget⟩
          intro row' hrow'
          rcases (hmem row').mp hrow' with ⟨m, hkey', -, -, hget'⟩
          rw [hkey'] at hget' ⊢
          rw [txNumOf_numKey]
          exact lt_of_behindRun (h.inside r hr fam m _ hget') hbehindRun

theorem runRows_pairwise {runs : List Sealed.Run} (hruns : runs <:+ v.runs) (next : UInt64)
    : (Walk.runRows fam stop next runs).Pairwise (fun row row' => txNumOf row.1 < txNumOf row'.1) := by
  induction runs generalizing next with
  | nil => exact List.Pairwise.nil
  | cons r runs ih =>
    have hr : r ∈ v.runs := hruns.subset (by simp)
    have hruns' : runs <:+ v.runs := (suffix_cons r runs).trans hruns
    simp only [Walk.runRows]
    split
    . exact ih hruns' next
    . have hscan := h.scanRange_pairwise hr fam next hstop
      have htake : ∀ row ∈ scanRange (r.sec .chain) (numKey (famPrefix fam) next) (numKey (famPrefix fam) (stop + 1)),
          ∃ n, row.1 = numKey (famPrefix fam) n ∧ next ≤ n ∧ n ≤ stop := by
        intro row hrow
        rcases (h.mem_scanRange hr fam next hstop row).mp hrow with ⟨n, hkey, hlo, hhi, -⟩
        exact ⟨n, hkey, hlo, hhi⟩
      rcases nextAfter_spec hstop htake hscan with ⟨-, -, hbelow, -⟩
      refine pairwise_append.mpr ⟨hscan, ih hruns' _, ?_⟩
      intro row hrow row' hrow'
      rcases (h.mem_runRows fam hstop hruns' _ row').mp hrow' with ⟨n, hkey, hlo, -⟩
      rw [hkey, txNumOf_numKey]
      exact UInt64.lt_of_lt_of_le (hbelow row hrow) hlo

end Runs

variable {fam : Fam} {n : UInt64} {val : Bytes}

theorem runChainRow_eq_some (policy : FilterPolicy)
    : runChainRow policy v.runs fam n (byHeight fam) = some val ↔
      ∃ r ∈ v.runs, (r.sec .chain).get (numKey (famPrefix fam) n) = some val := by
  unfold runChainRow
  constructor
  . intro hrow
    split at hrow
    . next r hfind =>
      rw [Sealed.get_eq] at hrow
      exact ⟨r, by simpa using mem_of_find?_eq_some hfind, hrow⟩
    . cases hrow
  . rintro ⟨r, hr, hget⟩
    have hin := h.inside r hr fam n val hget
    cases hfind : v.runs.reverse.find? (inRun n (byHeight fam)) with
    | none =>
      rw [find?_eq_none] at hfind
      exact absurd hin (hfind r (by simpa using hr))
    | some r' =>
      have hr' : r' ∈ v.runs := by simpa using mem_of_find?_eq_some hfind
      have hin' := find?_some hfind
      dsimp only
      rw [Sealed.get_eq]
      rcases Sealed.rel_of_pairwise h.ascending hr hr' with heq | hlater | hlater
      . rw [← heq]
        exact hget
      . exact absurd (hlater fam n hin') (not_behindRun hin)
      . exact absurd (hlater fam n hin) (not_behindRun hin')

theorem behindRun_of_window
    (hw : (v.mem.chainGet fam n).or (v.frozen.bind (·.chainGet fam n)) = some val) {r : Sealed.Run} (hr : r ∈ v.runs)
    : behindRun fam r n := by
  rw [or_eq_some_iff] at hw
  rcases hw with hmem | ⟨-, hfrozen⟩
  . exact h.mem r hr fam n val hmem
  . rcases bind_eq_some_iff.mp hfrozen with ⟨f, hf, hget⟩
    exact h.frozen f hf r hr fam n val hget

theorem chainRow_eq_some (policy : FilterPolicy)
    : chainRow policy v fam n (byHeight fam) = some val ↔
      (v.mem.chainGet fam n).or (v.frozen.bind (·.chainGet fam n)) = some val ∨
        ∃ r ∈ v.runs, (r.sec .chain).get (numKey (famPrefix fam) n) = some val := by
  unfold chainRow
  rw [← Option.or_assoc]
  cases hw : (v.mem.chainGet fam n).or (v.frozen.bind (·.chainGet fam n)) with
  | none =>
    rw [none_or, h.runChainRow_eq_some]
    simp
  | some val' =>
    rw [some_or]
    constructor
    . exact .inl
    . rintro (heq | ⟨r, hr, hget⟩)
      . exact heq
      . have hin := h.inside r hr fam n val hget
        exact absurd (h.behindRun_of_window hw hr) (not_behindRun hin)

omit h in
theorem mem_slotReads {v : View} {m : UInt64} {count : Nat} (hcount : m.toNat + count < 2 ^ 64) {read : UInt64 × Option Bytes}
    : read ∈ Walk.slotReads v fam m count ↔
      m.toNat ≤ read.1.toNat ∧ read.1.toNat < m.toNat + count ∧
        read.2 = (v.mem.chainGet fam read.1).or (v.frozen.bind (·.chainGet fam read.1)) := by
  induction count generalizing m with
  | zero =>
    simp only [Walk.slotReads, not_mem_nil, false_iff]
    omega
  | succ count ih =>
    have hsucc : (m + 1).toNat = m.toNat + 1 := toNat_add_one (by omega)
    rcases read with ⟨n, x⟩
    rw [Walk.slotReads, mem_cons, ih (by omega), hsucc, Prod.mk.injEq]
    dsimp only
    constructor
    . rintro (⟨rfl, rfl⟩ | ⟨hlo, hhi, hx⟩)
      . exact ⟨Nat.le_refl _, by omega, rfl⟩
      . exact ⟨by omega, by omega, hx⟩
    . rintro ⟨hlo, hhi, hx⟩
      rcases Nat.lt_or_eq_of_le hlo with hlt | heq
      . exact .inr ⟨by omega, by omega, hx⟩
      . have hn : n = m := UInt64.toNat_inj.mp heq.symm
        subst hn
        exact .inl ⟨rfl, hx⟩

omit h in
theorem slotReads_pairwise {v : View} {m : UInt64} {count : Nat} (hcount : m.toNat + count < 2 ^ 64)
    : (Walk.slotReads v fam m count).Pairwise (fun a b => a.1 < b.1) := by
  induction count generalizing m with
  | zero => exact List.Pairwise.nil
  | succ count ih =>
    have hsucc : (m + 1).toNat = m.toNat + 1 := toNat_add_one (by omega)
    rw [Walk.slotReads, pairwise_cons]
    refine ⟨?_, ih (by omega)⟩
    intro read hread
    rw [mem_slotReads (by omega), hsucc] at hread
    rw [UInt64.lt_iff_toNat_lt]
    dsimp only
    omega

end Tiled

def pointRows (policy : FilterPolicy) (v : View) (fam : Fam) (start stop : UInt64) : List ChainRow :=
  (List.range' start.toNat (stop.toNat + 1 - start.toNat)).filterMap (fun i =>
    (chainRow policy v fam (UInt64.ofNat i) (byHeight fam)).map (ChainRow.mk (UInt64.ofNat i)))

theorem mem_pointRows {policy : FilterPolicy} {v : View} {start stop : UInt64} {row : ChainRow}
    : row ∈ pointRows policy v fam start stop ↔
      start ≤ row.num ∧ row.num ≤ stop ∧ chainRow policy v fam row.num (byHeight fam) = some row.val := by
  rcases row with ⟨n, val⟩
  unfold pointRows
  rw [mem_filterMap, UInt64.le_iff_toNat_le, UInt64.le_iff_toNat_le]
  have hstop := stop.toNat_lt
  constructor
  . rintro ⟨i, hi, hrow⟩
    rw [mem_range'_1] at hi
    rcases map_eq_some_iff.mp hrow with ⟨val', hval, hmk⟩
    cases hmk
    have hto : (UInt64.ofNat i).toNat = i := UInt64.toNat_ofNat_of_lt' (show i < 2 ^ 64 by omega)
    rw [hto]
    exact ⟨by omega, by omega, hval⟩
  . rintro ⟨hlo, hhi, hval⟩
    refine ⟨n.toNat, ?_, ?_⟩
    . dsimp only at hlo hhi
      rw [mem_range'_1]
      omega
    . rw [UInt64.ofNat_toNat, hval]
      rfl

theorem pointRows_pairwise (policy : FilterPolicy) (v : View) (fam : Fam) (start stop : UInt64)
    : (pointRows policy v fam start stop).Pairwise (fun a b => a.num < b.num) := by
  have hstop := stop.toNat_lt
  unfold pointRows
  rw [pairwise_filterMap]
  apply (pairwise_lt_range' (s := start.toNat) (n := stop.toNat + 1 - start.toNat)).imp_of_mem
  intro i j hi hj hlt a ha b hb
  rw [mem_range'_1] at hi hj
  rcases map_eq_some_iff.mp ha with ⟨_, -, rfl⟩
  rcases map_eq_some_iff.mp hb with ⟨_, -, rfl⟩
  dsimp only
  rw [UInt64.lt_iff_toNat_lt, UInt64.toNat_ofNat_of_lt' (show i < 2 ^ 64 by omega),
    UInt64.toNat_ofNat_of_lt' (show j < 2 ^ 64 by omega)]
  exact hlt

section

variable {v : View} (h : Tiled v) (fam : Fam) {start stop : UInt64} (hle : start ≤ stop) (hstop : stop.toNat + 1 < 2 ^ 64)

include h hle hstop

theorem chainReads_next : let next := Walk.nextAfter start (Walk.runRows fam stop start v.runs)
      start ≤ next ∧ next.toNat ≤ stop.toNat + 1 ∧ (∀ row ∈ Walk.runRows fam stop start v.runs, txNumOf row.1 < next) ∧
      ∀ n, start ≤ n → (∀ r ∈ v.runs, behindRun fam r n) → next ≤ n := by
  have hmem := h.mem_runRows fam hstop (suffix_refl v.runs) start
  have htake : ∀ row ∈ Walk.runRows fam stop start v.runs, ∃ n, row.1 = numKey (famPrefix fam) n ∧ start ≤ n ∧ n ≤ stop := by
    intro row hrow
    rcases (hmem row).mp hrow with ⟨n, hkey, hlo, hhi, -⟩
    exact ⟨n, hkey, hlo, hhi⟩
  have hasc := h.runRows_pairwise fam hstop (suffix_refl v.runs) start
  rcases nextAfter_spec hstop htake hasc with ⟨hlo, hcap, hbelow, hleast⟩
  refine ⟨hlo, hcap hle, hbelow, ?_⟩
  intro n hn hbehind
  apply hleast n hn
  intro row hrow
  rcases (hmem row).mp hrow with ⟨m, hkey, -, -, r, hr, hget⟩
  rw [hkey] at hget ⊢
  rw [txNumOf_numKey]
  exact lt_of_behindRun (h.inside r hr fam m _ hget) (hbehind r hr)

theorem chainReads_pairwise : ((chainReads v fam start stop).map (·.1)).Pairwise (· < ·) := by
  unfold chainReads
  dsimp only
  rcases chainReads_next h fam hle hstop with ⟨-, hcap, hbelow, -⟩
  rw [pairwise_map, pairwise_append]
  refine ⟨?_, Tiled.slotReads_pairwise (by omega), ?_⟩
  . rw [pairwise_map]
    exact h.runRows_pairwise fam hstop (suffix_refl v.runs) start
  . intro a ha b hb
    rcases mem_map.mp ha with ⟨row, hrow, rfl⟩
    rw [Tiled.mem_slotReads (by omega)] at hb
    have hlt := hbelow row hrow
    rw [UInt64.lt_iff_toNat_lt] at hlt ⊢
    dsimp only
    omega

theorem mem_chainReads (policy : FilterPolicy) {row : ChainRow}
    : row ∈ (chainReads v fam start stop).filterMap found ↔
      start ≤ row.num ∧ row.num ≤ stop ∧ chainRow policy v fam row.num (byHeight fam) = some row.val := by
  have hfound : row ∈ (chainReads v fam start stop).filterMap found ↔ (row.num, some row.val) ∈ chainReads v fam start stop := by
    rw [mem_filterMap]
    constructor
    . rintro ⟨⟨n, val⟩, hread, hrow⟩
      cases val with
      | none => cases hrow
      | some val =>
        cases hrow
        exact hread
    . intro hread
      exact ⟨_, hread, rfl⟩
  rw [hfound, h.chainRow_eq_some]
  unfold chainReads
  dsimp only
  rcases chainReads_next h fam hle hstop with ⟨hlo, hcap, -, hbehind⟩
  rw [List.mem_append, Tiled.mem_slotReads (by omega), List.mem_map]
  rw [UInt64.le_iff_toNat_le] at hlo
  constructor
  . rintro (⟨r, hr, heq⟩ | ⟨hge, hlt, hval⟩)
    . rcases (h.mem_runRows fam hstop (suffix_refl v.runs) _ _).mp hr with ⟨n, hkey, hn, hn', r', hr', hget⟩
      rw [Prod.mk.injEq, hkey, txNumOf_numKey] at heq
      rw [← heq.1]
      refine ⟨hn, hn', .inr ⟨r', hr', ?_⟩⟩
      rw [← heq.2, ← hkey]
      exact hget
    . dsimp only at hge hlt hval
      rw [UInt64.le_iff_toNat_le, UInt64.le_iff_toNat_le]
      exact ⟨by omega, by omega, .inl hval.symm⟩
  . rintro ⟨hn, hn', hval⟩
    rcases hval with hval | ⟨r, hr, hget⟩
    . right
      have hge := hbehind row.num hn (fun r hr => h.behindRun_of_window hval hr)
      rw [UInt64.le_iff_toNat_le] at hge hn'
      exact ⟨hge, by dsimp only; omega, hval.symm⟩
    . left
      refine ⟨(numKey (famPrefix fam) row.num, row.val), ?_, ?_⟩
      . exact (h.mem_runRows fam hstop (suffix_refl v.runs) _ _).mpr ⟨row.num, rfl, hn, hn', r, hr, hget⟩
      . dsimp only
        rw [txNumOf_numKey]

theorem filterMap_chainReads (policy : FilterPolicy)
    : (chainReads v fam start stop).filterMap found = pointRows policy v fam start stop := by
  have hasc : ((chainReads v fam start stop).filterMap found).Pairwise (fun a b => a.num < b.num) := by
    have hreads := chainReads_pairwise h fam hle hstop
    rw [pairwise_map] at hreads
    rw [pairwise_filterMap]
    apply hreads.imp
    rintro ⟨n, val⟩ ⟨n', val'⟩ hlt a ha b hb
    cases val with
    | none => cases ha
    | some val =>
      cases val' with
      | none => cases hb
      | some val' =>
        cases ha
        cases hb
        exact hlt
  have hpoints := pointRows_pairwise policy v fam start stop
  have hirrefl : ∀ {l : List ChainRow}, l.Pairwise (fun a b => a.num < b.num) → l.Nodup := by
    intro l hl
    apply hl.imp
    rintro a b hlt rfl
    exact UInt64.lt_irrefl _ hlt
  have hperm : ((chainReads v fam start stop).filterMap found).Perm (pointRows policy v fam start stop) := by
    rw [perm_ext_iff_of_nodup (hirrefl hasc) (hirrefl hpoints)]
    intro row
    rw [mem_chainReads h fam hle hstop policy, mem_pointRows]
  apply hperm.eq_of_pairwise _ hasc hpoints
  intro a b _ _ hab hba
  exact absurd hab (UInt64.lt_asymm hba)

end

def ChainKeys (v : View) : Prop := ∀ r ∈ v.runs, ∀ row ∈ (r.sec .chain).rows, ∃ fam n, row.1 = numKey (famPrefix fam) n

theorem chainKeys_of_sealWindow (h : Sealed.sealWindow m = .ok r)
    : ∀ row ∈ (r.sec .chain).rows, ∃ fam n, row.1 = numKey (famPrefix fam) n := by
  unfold Sealed.sealWindow Sealed.writeSections at h
  cases hchain : Sealed.sst (Sealed.chainRows m) with
  | error e =>
    rw [hchain] at h
    cases h
  | ok chain =>
    cases hstate : Sealed.sst (Sealed.stateRows m) with
    | error e =>
      rw [hchain, hstate] at h
      cases h
    | ok state =>
      cases hlookup : Sealed.sst (Sealed.lookupRows m) with
      | error e =>
        rw [hchain, hstate, hlookup] at h
        cases h
      | ok lookup =>
        rw [hchain, hstate, hlookup] at h
        cases h
        intro row hrow
        have hrow : row ∈ chain.rows := hrow
        rw [Sealed.eq_of_sst hchain] at hrow
        unfold Sealed.chainRows at hrow
        rcases mem_flatMap.mp hrow with ⟨fam, -, hrow⟩
        rcases mem_map.mp hrow with ⟨⟨n, val⟩, -, rfl⟩
        exact ⟨fam, n, rfl⟩

theorem chainKeys_of_reachable {s : Sys} (h : Transition.Reachable (step crypto) Room Sys.init s) : ChainKeys s.view := by
  refine h.invariant (I := fun s => ChainKeys s.view) (by intro r hr; cases hr) ?_
  intro s e s' hs _ hstep
  rcases step_cases hstep with ⟨file, b, m, -, -, rfl⟩ | ⟨-, -, -, rfl⟩ | ⟨f, r, -, -, hseal, rfl⟩ |
    ⟨start, stop, r, -, hmerge, rfl⟩
  . exact hs
  . exact hs
  . intro r' hr'
    rcases mem_append.mp hr' with hr' | hr'
    . exact hs r' hr'
    . rw [mem_singleton.mp hr']
      exact chainKeys_of_sealWindow hseal
  . intro r' hr'
    rcases mem_append.mp hr' with hr' | hr'
    . rcases mem_append.mp hr' with hr' | hr'
      . exact hs r' (mem_of_mem_take hr')
      . rw [mem_singleton.mp hr']
        intro row hrow
        rw [Sealed.sec_of_merge hmerge] at hrow
        rcases Sealed.mem_of_mem_merged hrow with ⟨r'', hr'', hrow⟩
        exact hs r'' (mem_of_mem_take (mem_of_mem_drop hr'')) row hrow
    . exact hs r' (mem_of_mem_drop hr')

theorem spans_pairwise {ps : List (Span × List BlockWrite)} (hps : ∀ p ∈ ps, p.1.Of p.2)
    (hchain : (ps.map (·.1)).IsChain Span.Follows)
    : ps.Pairwise (fun p q => p.1.nextTx.toNat ≤ q.1.baseTx.toNat ∧ p.1.nextHeight ≤ q.1.baseHeight) := by
  induction ps with
  | nil => exact List.Pairwise.nil
  | cons p ps ih =>
    have hps' : ∀ q ∈ ps, q.1.Of q.2 := fun q hq => hps q (by simp [hq])
    cases ps with
    | nil => exact pairwise_singleton _ _
    | cons q ps =>
      simp only [map_cons, isChain_cons_cons] at hchain
      rcases hchain with ⟨⟨htx, hheight⟩, hchain⟩
      have hrest := ih hps' hchain
      rw [pairwise_cons]
      refine ⟨?_, hrest⟩
      intro x hx
      rcases mem_cons.mp hx with rfl | hx
      . rw [htx, hheight]
        exact ⟨Nat.le_refl _, Nat.le_refl _⟩
      . have hqx := (pairwise_cons.mp hrest).1 x hx
        have hq := hps' q (by simp)
        have htx' := hq.nextTx
        have hheight' := hq.nextHeight
        rw [← htx, ← hheight]
        omega

theorem behindRun_of_within {s : Span} (htx : r.footer.toTx.toNat ≤ s.baseTx.toNat)
    (hheight : r.footer.toHeight.toNat + 1 ≤ s.baseHeight)
    (hin : Row.Within s.baseTx.toNat s.nextTx.toNat s.baseHeight s.nextHeight (.chain fam n val)) : behindRun fam r n := by
  unfold behindRun byHeight
  simp only [Row.Within] at hin
  by_cases hfam : fam ∈ txKeyedFams
  . rw [if_pos hfam] at hin
    rw [if_neg (by simpa using hfam), UInt64.le_iff_toNat_le]
    omega
  . rw [if_neg hfam] at hin
    rw [if_pos (by simpa using hfam), UInt64.lt_iff_toNat_lt]
    omega

theorem within_of_chainGet {bs : List BlockWrite} (h : Took crypto m bs) (hget : m.chainGet fam n = some val)
    : Row.Within m.baseTx.toNat m.nextTx.toNat m.baseHeight.toNat m.nextHeight.toNat (.chain fam n val) := by
  have htx := m.nextTx.toNat_lt
  rw [h.nextTx] at htx
  rw [h.shows.chain] at hget
  have hin := (Sealed.tabled_table h.consecutive htx).within _ (Table.mem_of_chainGet hget)
  rwa [← h.nextTx, ← h.nextHeight] at hin

theorem behindRun_of_chainGet {v : View} {l : RunBlocks} {fbs mbs bs : List BlockWrite}
    (h : Stored crypto v l fbs mbs) (htook : Took crypto m bs)
    (hm : (memSpan m, bs) ∈ (v.frozen.map (fun f => (memSpan f, fbs))).toList ++ [(memSpan v.mem, mbs)])
    (hr : r ∈ v.runs) (hget : m.chainGet fam n = some val) : behindRun fam r n := by
  rcases h.pieces with ⟨hspans, -, hof⟩
  have hchain := h.chain
  rw [← hspans] at hchain
  have hpair := spans_pairwise hof hchain
  rw [View.pieces, append_assoc, pairwise_append] at hpair
  rw [h.runs] at hr
  rcases mem_map.mp hr with ⟨p, hp, rfl⟩
  rcases hpair.2.2 _ (mem_map_of_mem hp) _ hm with ⟨htx, hheight⟩
  exact behindRun_of_within htx hheight (within_of_chainGet htook hget)

theorem tiled_of_reachable {s : Sys} (h : Transition.Reachable (step crypto) Room Sys.init s) : Tiled s.view := by
  rcases inv_of_reachable h with ⟨⟨l, fbs, mbs, hst, -⟩, -⟩
  refine ⟨chainKeys_of_reachable h, ?_, ?_, ?_, ?_⟩
  . intro r hr fam n val hget
    rw [hst.runs] at hr
    rcases mem_map.mp hr with ⟨p, hp, rfl⟩
    have hholds := hst.holds p hp
    rw [hholds.shows.chain] at hget
    exact hholds.inRun_of_chain hget
  . rw [hst.runs, pairwise_map]
    apply (pairwise_of_contiguous hst.holds hst.contiguous).imp
    intro p q hpq fam n hin
    unfold inRun at hin
    unfold behindRun
    split
    . next hby =>
      rw [if_pos hby, Bool.and_eq_true, decide_eq_true_eq, decide_eq_true_eq] at hin
      exact UInt64.lt_of_lt_of_le hpq.2 hin.1
    . next hby =>
      rw [if_neg hby, Bool.and_eq_true, decide_eq_true_eq, decide_eq_true_eq] at hin
      exact UInt64.le_trans hpq.1 hin.1
  . intro r hr fam n val hget
    exact behindRun_of_chainGet hst hst.mem (by simp) hr hget
  . intro f hf r hr fam n val hget
    exact behindRun_of_chainGet hst (hst.frozen f hf).1 (by simp [hf]) hr hget

/--
A sequential read hands out what point reads of the range find, in order. It reads ascending numbers and
none behind the row at which the consumer stops.
-/
theorem chainRows_eq_points (policy : FilterPolicy) {v : View} (h : Tiled v) (fam : Fam) (start stop : UInt64)
    (hstop : stop < 18446744073709551615) {σ : Type} (fn : σ → ChainRow → σ × Bool) (s : σ)
    : let rows := pointRows policy v fam start stop
      let w := chainRows fn v fam start stop s
      rows.Pairwise (fun a b => a.num < b.num) ∧
        (∀ row, row ∈ rows ↔ start ≤ row.num ∧ row.num ≤ stop ∧ chainRow policy v fam row.num (byHeight fam) = some row.val) ∧
        w.state = (feed fn s rows).1 ∧ w.stopped = !(feed fn s rows).2 ∧ w.reads.Pairwise (· < ·) ∧
        (w.stopped = true → ∃ row, (handed fn s rows).getLast? = some row ∧ w.reads.getLast? = some row.num) := by
  have hstop' : stop.toNat + 1 < 2 ^ 64 := by
    rw [UInt64.lt_iff_toNat_lt] at hstop
    have hmax : (18446744073709551615 : UInt64).toNat = 18446744073709551615 := by decide
    omega
  refine ⟨pointRows_pairwise policy v fam start stop, fun row => mem_pointRows, ?_⟩
  by_cases hle : start ≤ stop
  . rw [chainRows_eq_visit fn v fam hle, ← filterMap_chainReads h fam hle hstop' policy]
    rcases Walk.state_visit fn (w := ⟨s, start, false, []⟩) rfl (chainReads v fam start stop) with ⟨hstate, hstopped⟩
    rcases Walk.reads_visit fn (w := ⟨s, start, false, []⟩) rfl (chainReads v fam start stop) with ⟨made, hpre, hreads, hlast⟩
    refine ⟨hstate, hstopped, ?_, ?_⟩
    . rw [hreads, nil_append]
      exact (chainReads_pairwise h fam hle hstop').sublist hpre.sublist
    . intro hs
      rcases hlast hs with ⟨row, hmade, hrow⟩
      refine ⟨row, hrow, ?_⟩
      rw [hreads, nil_append]
      exact hmade
  . have hlt := UInt64.not_le.mp hle
    have hnone : pointRows policy v fam start stop = [] := by
      rw [eq_nil_iff_forall_not_mem]
      intro row hrow
      rcases mem_pointRows.mp hrow with ⟨hlo, hhi, -⟩
      exact hle (UInt64.le_trans hlo hhi)
    unfold chainRows
    rw [if_pos hlt, hnone]
    exact ⟨rfl, rfl, List.Pairwise.nil, by simp⟩

def runAndWindows : List Event :=
  [.write goodLog (Memtable.emptyBlock 1), .cut, .publish,
    .write goodLog (Memtable.emptyBlock 2), .cut, .write goodLog (Memtable.emptyBlock 3)]

theorem chainRows_eq_points_runAndWindows
    : ∃ s, Transition.run (step Memtable.emptyBlockCrypto) Sys.init runAndWindows = some s ∧
        s.view.runs.length = 1 ∧ s.view.frozen.isSome = true ∧ Tiled s.view ∧
        (chainRows (fun taken row => (row.num :: taken, taken.isEmpty)) s.view .hdr 0 3 []).state = [2, 1] := by
  have hrun : (runs Memtable.emptyBlockCrypto runAndWindows).map (fun s => (s.view.runs.length, s.view.frozen.isSome,
        (feed (fun taken row => (row.num :: taken, taken.isEmpty)) [] (pointRows exactPolicy s.view .hdr 0 3)).1)) =
      some (1, true, [2, 1]) := by
    decide +kernel
  rw [map_eq_some_iff] at hrun
  rcases hrun with ⟨s, hrun, hobs⟩
  simp only [Prod.mk.injEq] at hobs
  have htiled := tiled_of_reachable ((reachable_of_roomy hrun).mono fun _ _ => room_of_roomy)
  refine ⟨s, Transition.run_of_run_checked hrun, hobs.1, hobs.2.1, htiled, ?_⟩
  rw [(chainRows_eq_points exactPolicy htiled .hdr 0 3 (by decide) (fun taken row => (row.num :: taken, taken.isEmpty)) []).2.2.1]
  exact hobs.2.2

end EpochDB.Store.Read
