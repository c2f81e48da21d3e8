import EpochDB.Store.Sealed.Shows

/-!
The reads of a run answer from the table it shows.
-/

namespace EpochDB.Store

open List SortedMap

def IsLatest (rows : UInt64 → Option Bytes) (n : UInt64) : Option MemVal → Prop
  | some v => v.txnum ≤ n ∧ rows v.txnum = some v.val ∧ ∀ k, v.txnum < k → k ≤ n → rows k = none
  | none => ∀ k, k ≤ n → rows k = none

theorem IsLatest.unique {rows : UInt64 → Option Bytes} {n : UInt64} {v v' : Option MemVal} (h : IsLatest rows n v)
    (h' : IsLatest rows n v') : v = v' := by
  have hsome : ∀ {v : MemVal} {v' : Option MemVal}, IsLatest rows n (some v) → IsLatest rows n v' →
      ∃ w, v' = some w ∧ v.txnum ≤ w.txnum := by
    rintro v v' ⟨hle, hrow, -⟩ h'
    cases v' with
    | none =>
      rw [h' v.txnum hle] at hrow
      cases hrow
    | some w =>
      refine ⟨w, rfl, ?_⟩
      by_contra hlt
      rw [UInt64.not_le] at hlt
      rw [h'.2.2 v.txnum hlt hle] at hrow
      cases hrow
  cases v with
  | none =>
    cases v' with
    | none => rfl
    | some w =>
      rcases hsome h' h with ⟨w', hw', -⟩
      cases hw'
  | some v =>
    rcases hsome h h' with ⟨w, rfl, hle⟩
    rcases hsome h' h with ⟨v', hv', hge⟩
    cases hv'
    have hnum : v.txnum = w.txnum := UInt64.le_antisymm hle hge
    have hval := h.2.1
    rw [hnum, h'.2.1, Option.some.injEq] at hval
    rcases v with ⟨num, val⟩
    rcases w with ⟨num', val'⟩
    simp only at hnum hval
    rw [hnum, hval]

theorem Table.isLatest_latest {t : Table} (hb : t.Pairwise Row.Before) (key : Bytes) (n : UInt64)
    : IsLatest (t.valueAt key) n (t.latest key n) := by
  have hsorted := Table.history_pairwise hb key
  unfold Table.latest Table.valueAt
  generalize t.history key = h at hsorted
  have hnone : ∀ {k : UInt64}, (∀ v ∈ h, v.txnum ≠ k) →
      ((h.filter (fun v => v.txnum = k)).getLast?.map (·.val)) = none := by
    intro k hk
    rw [filter_eq_nil_iff.mpr (by simpa using hk)]
    rfl
  cases hlast : (h.filter (fun v => v.txnum ≤ n)).getLast? with
  | none =>
    rw [getLast?_eq_none_iff, filter_eq_nil_iff] at hlast
    intro k hk
    apply hnone
    intro v hv heq
    have hgt := hlast v hv
    rw [heq] at hgt
    simp [hk] at hgt
  | some v =>
    rw [getLast?_eq_some_iff] at hlast
    rcases hlast with ⟨front, hfront⟩
    have hle : ∀ w ∈ h, w.txnum ≤ n → w.txnum ≤ v.txnum := by
      intro w hw hn
      have hmem : w ∈ h.filter (fun v => v.txnum ≤ n) := by simp [hw, hn]
      have hsorted' := hsorted.filter (fun v => v.txnum ≤ n)
      rw [hfront] at hmem hsorted'
      rw [mem_append, mem_singleton] at hmem
      rcases hmem with hmem | rfl
      . exact UInt64.le_iff_toNat_le.mpr ((pairwise_append.mp hsorted').2.2 w hmem v (by simp))
      . exact UInt64.le_refl _
    have hv : v ∈ h.filter (fun v => v.txnum ≤ n) := by
      rw [hfront]
      simp
    rw [mem_filter, decide_eq_true_eq] at hv
    refine ⟨hv.2, ?_, ?_⟩
    . have hsame : h.filter (fun w => w.txnum = v.txnum) =
          (h.filter (fun w => w.txnum ≤ n)).filter (fun w => w.txnum = v.txnum) := by
        rw [filter_filter]
        apply filter_congr
        intro w _
        by_cases heq : w.txnum = v.txnum
        . simp [heq, hv.2]
        . simp [heq]
      dsimp only
      rw [hsame, hfront, filter_append]
      simp
    . intro k hlt hk
      apply hnone
      rintro w hw rfl
      exact absurd (hle w hw hk) (UInt64.not_le.mpr hlt)

namespace Sealed

variable (policy : FilterPolicy)

variable {r : Run} {row : Bytes × Bytes} {p : Bytes} {n : UInt64} {pend : Option (Bytes × Bytes)}

theorem mayHave_of_mem {s : Section} (hrow : row ∈ (r.sec s).rows) {key : Bytes}
    (hkey : key.take (split key) = row.1.take (split row.1)) : r.mayHave policy s key = true := by
  unfold Run.mayHave
  split
  . rfl
  . rw [hkey]
    apply policy.complete
    rw [mem_map]
    exact ⟨row, hrow, rfl⟩

theorem get_eq (r : Run) (s : Section) (key : Bytes) : r.get policy s key = (r.sec s).get key := by
  unfold Run.get
  cases hmay : r.mayHave policy s key with
  | false =>
    cases hget : (r.sec s).get key with
    | none => rfl
    | some val =>
      rw [mayHave_of_mem policy (get_eq_some.mp hget) rfl] at hmay
      cases hmay
  | true =>
    rw [get_eq_seekGE]
    cases (r.sec s).seekGE key with
    | none => rfl
    | some row => by_cases hkey : row.1 = key <;> simp [hkey]

theorem take_split_state (hp : StateKey p) (n : UInt64) : (suffixed p n).take (split (suffixed p n)) = p := by
  have hsplit : split (suffixed p n) = p.length := by
    rcases hp with ⟨row, rfl⟩
    have hlen := length_stateKeyPrefix row
    have hpos : 27 < (stateKeyPrefix row).length := by
      rw [hlen]
      split <;> omega
    have hbyte : (suffixed (stateKeyPrefix row) n)[27]? = (stateKeyPrefix row)[27]? :=
      getElem?_append_left hpos
    have hstate : prefixState.isPrefixOf (suffixed (stateKeyPrefix row) n) = true := by
      rw [List.isPrefixOf_iff_prefix]
      exact (isPrefix_state ⟨row, rfl⟩).trans (prefix_append _ _)
    unfold split
    rw [if_pos hstate, hbyte, length_suffixed]
    by_cases hslot : (stateKeyPrefix row)[27]? = some 's'.toUInt8
    . rw [if_pos hslot] at hlen
      rw [if_pos ⟨by omega, hslot⟩, if_pos (by omega), hlen]
    . rw [if_neg hslot] at hlen
      rw [if_neg (fun h => hslot h.2), if_pos (by omega), hlen]
  rw [hsplit]
  exact take_left' rfl

theorem toNat_succ (h : n ≠ 18446744073709551615) : (n + 1).toNat = n.toNat + 1 := by
  have hlt := n.toNat_lt
  have hne : n.toNat ≠ 18446744073709551615 := fun heq => h (UInt64.toNat_inj.mp heq)
  rw [UInt64.toNat_add]
  simp
  omega

theorem latest_last (r : Run) (s : Section) (p : Bytes) : r.latest policy s p 18446744073709551615 = none := by
  unfold Run.latest
  split
  . rfl
  . split
    . rfl
    . next k val hseek =>
      have hlt := (seekLT_eq_some hseek).2.1
      split
      . rfl
      . next hkey =>
        rw [not_or, not_not, not_not] at hkey
        dsimp only at hlt
        rw [eq_suffixed hkey.1 hkey.2, suffixed, suffixed, Bytes.append_lt_append_iff rfl, Bytes.putUint64_lt_iff] at hlt
        rcases hlt with hlt | ⟨-, hlt⟩
        . exact absurd hlt (lt_irrefl _)
        . exact absurd (UInt64.lt_iff_toNat_lt.mp hlt) (by simp)

theorem isLatest_latest (hsec : StateSection (r.sec .state)) (hp : StateKey p) (hn : n ≠ 18446744073709551615)
    : IsLatest (fun k => (r.sec .state).get (suffixed p k)) n (r.latest policy .state p n) := by
  have hlt : ∀ k, suffixed p k < suffixed p (n + 1) ↔ k ≤ n := by
    intro k
    rw [prefixFree_stateKey.suffixed_lt_iff hp hp, UInt64.lt_iff_toNat_lt, UInt64.le_iff_toNat_le, toNat_succ hn]
    simp
  unfold Run.latest
  split
  . next hmay =>
    intro k _
    rw [get_eq_none]
    intro val hrow
    rw [mayHave_of_mem policy hrow (by rw [take_split_state hp, take_split_state hp])] at hmay
    cases hmay
  . split
    . next hseek =>
      intro k hk
      rw [get_eq_none]
      intro val hrow
      exact absurd ((hlt k).mpr hk) (not_lt.mpr (seekLT_eq_none hseek _ hrow))
    . next k val hseek =>
      rcases seekLT_eq_some hseek with ⟨hrow, hbelow, hmax⟩
      dsimp only at hbelow hmax
      split
      . next hkey =>
        -- a row under `p` would lie between the one found and the bound, and so would have been found
        intro j hj
        rw [get_eq_none]
        intro val' hrow'
        have hle := hmax _ hrow' ((hlt j).mpr hj)
        dsimp only at hle
        apply absurd hkey
        rw [not_or, not_not, not_not]
        rcases hsec _ hrow with ⟨h, hcode⟩ | ⟨q, m, hq, hstate⟩
        . dsimp only at hcode
          rw [hcode] at hle
          exact absurd (codeKey_lt_suffixed h.val hp j) (not_lt.mpr hle)
        . dsimp only at hstate
          have hpre : p <+: k := Bytes.isPrefix_of_between hle hbelow
          rw [hstate] at hpre ⊢
          have hpq := prefixFree_stateKey.eq_of_isPrefix_append hp hq hpre
          subst hpq
          exact ⟨length_suffixed p m, take_left' rfl⟩
      . next hkey =>
        rw [not_or, not_not, not_not] at hkey
        have heq := eq_suffixed hkey.1 hkey.2
        refine ⟨?_, ?_, ?_⟩
        . dsimp only
          rw [heq] at hbelow
          exact (hlt _).mp hbelow
        . dsimp only
          rw [← heq, get_eq_some]
          exact hrow
        . intro j hgt hj
          dsimp only at hgt
          rw [get_eq_none]
          intro val' hrow'
          have hle := hmax _ hrow' ((hlt j).mpr hj)
          dsimp only at hle
          rw [heq] at hle
          exact absurd ((prefixFree_stateKey.suffixed_lt_iff hp hp _ _).mpr (.inr ⟨rfl, hgt⟩)) (not_lt.mpr hle)

theorem latest_eq {t : Table} (h : r.Shows t) (hb : t.Pairwise Row.Before) (hp : StateKey p) (hn : n ≠ 18446744073709551615)
    : r.latest policy .state p n = t.latest p n := by
  have hrun := isLatest_latest policy h.stateSection hp hn
  have hrows : (fun k => (r.sec .state).get (suffixed p k)) = t.valueAt p := by
    funext k
    exact h.state p hp k
  rw [hrows] at hrun
  exact hrun.unique (Table.isLatest_latest hb p n)

def components : List (Bytes × Nat) := [(prefixAddr, 26), (prefixELog, 26), (prefixTVal, 38), (prefixSig, 37)]

theorem split_component {fam : Bytes} {n : Nat} (h : (fam, n) ∈ components) (x : Bytes)
    : split (fam ++ x) = if (fam ++ x).length ≥ n + 8 then n else (fam ++ x).length := by
  simp only [components, mem_cons, Prod.mk.injEq, not_mem_nil, or_false] at h
  rcases h with ⟨rfl, rfl⟩ | ⟨rfl, rfl⟩ | ⟨rfl, rfl⟩ | ⟨rfl, rfl⟩
  all_goals
    simp only [split, prefixState, prefixAddr, prefixELog, prefixTVal, prefixSig, prefixSet, Bytes.ofChars, map_cons,
      map_nil, cons_append, nil_append, List.isPrefixOf, length_cons]
    simp +decide

theorem exists_component {g : Bytes} (h : IsGroup g) : ∃ fam n, (fam, n) ∈ components ∧ fam <+: g ∧ n ≤ g.length := by
  cases h with
  | addr a => exact ⟨prefixAddr, 26, by simp [components], isPrefixOf_iff_prefix.mp rfl, by simp⟩
  | eLog emitter topic0 => exact ⟨prefixELog, 26, by simp [components], isPrefixOf_iff_prefix.mp rfl, by simp⟩
  | tVal value topic0 => exact ⟨prefixTVal, 38, by simp [components], isPrefixOf_iff_prefix.mp rfl, by simp⟩
  | sig topic0 => exact ⟨prefixSig, 37, by simp [components], isPrefixOf_iff_prefix.mp rfl, by simp⟩

theorem component_unique {fam fam' : Bytes} {n : Nat} (h : (fam, n) ∈ components) (h' : fam' ∈ postingFams) {g : Bytes}
    (hg : fam <+: g) (hg' : fam' <+: g) : fam = fam' := by
  have hdec : ∀ c ∈ components, ∀ fam' ∈ postingFams, c.1 <+: fam' ∨ fam' <+: c.1 → c.1 = fam' := by decide
  apply hdec _ h _ h'
  rcases Nat.le_total fam.length fam'.length with hle | hle
  . exact .inl (prefix_of_prefix_length_le hg hg' hle)
  . exact .inr (prefix_of_prefix_length_le hg' hg hle)

theorem isPostingKey_iff {k : Bytes} : isPostingKey k = true ↔ ∃ fam ∈ postingFams, fam <+: k := by
  simp [isPostingKey]

theorem take_split_of_bloomGated {pfx g : Bytes} (hpfx : isPostingKey pfx = true) (hgated : Run.bloomGated pfx = true)
    (hg : IsGroup g) (hpre : pfx <+: g) (n : UInt64)
    : (suffixed pfx 0).take (split (suffixed pfx 0)) = (suffixed g n).take (split (suffixed g n)) := by
  rcases exists_component hg with ⟨fam, c, hmem, hfam, hlen⟩
  rcases isPostingKey_iff.mp hpfx with ⟨fam', hmem', hfam'⟩
  have hsame := component_unique hmem hmem' hfam (hfam'.trans hpre)
  subst hsame
  have hsplit : ∀ {q : Bytes} (n : UInt64), fam <+: q →
      split (suffixed q n) = if (suffixed q n).length ≥ c + 8 then c else (suffixed q n).length := by
    rintro q n ⟨x, rfl⟩
    unfold suffixed
    rw [append_assoc]
    exact split_component hmem _
  unfold Run.bloomGated at hgated
  rw [decide_eq_true_eq, hsplit 0 hfam', length_suffixed] at hgated
  have hc : c ≤ pfx.length := by
    by_contra hlt
    rw [if_neg (by omega)] at hgated
    omega
  rw [hsplit 0 hfam', hsplit n hfam, if_pos (by rw [length_suffixed]; omega), if_pos (by rw [length_suffixed]; omega)]
  unfold suffixed
  rw [take_append_of_le_length hc, take_append_of_le_length hlen]
  rcases hpre with ⟨x, rfl⟩
  rw [take_append_of_le_length hc]

def inRange (lo hi : UInt64) (e : Posting) : Bool := lo ≤ e.txnum ∧ e.txnum ≤ hi

theorem decodeChunk_eq (h : ChunkRow row) (lo hi : UInt64)
    : Run.decodeChunk lo hi row.1 row.2 = .ok ((entsOf row).filter (inRange lo hi)) := by
  rcases h.decodes with ⟨nums, pay, hdecode⟩
  unfold Run.decodeChunk entsOf
  rw [hdecode]
  dsimp only
  rw [filter_map]
  rfl

theorem filter_entsOf_eq_nil {lo hi : UInt64} (h : ∀ e ∈ entsOf row, e.txnum < lo ∨ hi < e.txnum)
    : (entsOf row).filter (inRange lo hi) = [] := by
  rw [filter_eq_nil_iff]
  intro e he
  unfold inRange
  rw [decide_eq_true_eq, not_and_or, UInt64.not_le, UInt64.not_le]
  exact h e he

theorem first_le (h : ChunkRow row) (hsorted : (entsOf row).Pairwise Posting.lt) {e : Posting}
    (he : e ∈ entsOf row) : txNumOf row.1 ≤ e.txnum := by
  rcases h.head with ⟨first, hfirst, hkey⟩
  rw [hkey, txNumOf_suffixed]
  cases hents : entsOf row with
  | nil =>
    rw [hents] at hfirst
    cases hfirst
  | cons x xs =>
    rw [hents] at hfirst hsorted he
    cases hfirst
    rw [mem_cons] at he
    rcases he with rfl | he
    . exact UInt64.le_refl _
    . have hgroup : ∀ {e : Posting}, e ∈ first :: xs → e.group = row.1.take (row.1.length - 8) := by
        intro e he
        rw [← hents] at he
        exact group_of_mem_entsOf he
      rcases (pairwise_cons.mp hsorted).1 e he with hlt | ⟨-, hlt⟩
      . rw [hgroup (mem_cons_self), hgroup (mem_cons_of_mem _ he)] at hlt
        exact absurd hlt (lt_irrefl _)
      . exact UInt64.le_of_lt hlt

theorem lt_first {row row' : Bytes × Bytes} (h' : ChunkRow row') (hlt : ∀ e ∈ entsOf row, ∀ e' ∈ entsOf row', Posting.lt e e')
    (hgroup : row.1.take (row.1.length - 8) = row'.1.take (row'.1.length - 8)) {e : Posting} (he : e ∈ entsOf row)
    : e.txnum < txNumOf row'.1 := by
  rcases h'.head with ⟨first, hfirst, hkey⟩
  rw [hkey, txNumOf_suffixed]
  have hfirst := mem_of_head? hfirst
  rcases hlt e he first hfirst with hlt | ⟨-, hlt⟩
  . rw [group_of_mem_entsOf he, group_of_mem_entsOf hfirst, hgroup] at hlt
    exact absurd hlt (lt_irrefl _)
  . exact hlt

theorem decodePend_eq (h : ∀ row ∈ pend, ChunkRow row) (lo hi : UInt64)
    : Run.decodePend lo hi pend = .ok ((pend.toList.flatMap entsOf).filter (inRange lo hi)) := by
  cases pend with
  | none => rfl
  | some row =>
    rw [Option.toList_some, flatMap_singleton]
    exact decodeChunk_eq (h row rfl) lo hi

theorem passPend_eq (hpend : ∀ row ∈ pend, ChunkRow row)
    (hrow : ChunkRow row) (hlt : ∀ e ∈ pend.toList.flatMap entsOf, ∀ e' ∈ entsOf row, Posting.lt e e') (lo hi : UInt64)
    : Run.passPend lo hi pend row.1 = .ok ((pend.toList.flatMap entsOf).filter (inRange lo hi)) := by
  cases pend with
  | none => rfl
  | some prow =>
    rw [Option.toList_some, flatMap_singleton] at hlt ⊢
    unfold Run.passPend
    dsimp only
    split
    . next hskip =>
      rw [filter_entsOf_eq_nil]
      intro e he
      left
      have hlt := lt_first hrow hlt hskip.1 he
      have hle := UInt64.le_iff_toNat_le.mp hskip.2
      rw [UInt64.lt_iff_toNat_lt] at hlt ⊢
      omega
    . exact decodeChunk_eq (hpend prow rfl) lo hi

theorem scanLoop_eq {pfx : Bytes} {lo hi : UInt64} {rows rest : List (Bytes × Bytes)}
    (hrows : ∀ row ∈ rows, ChunkRow row ∧ pfx <+: row.1 ∧ pfx.length + 8 ≤ row.1.length)
    (hrest : ∀ row ∈ rest.head?, ¬ pfx <+: row.1) (hpend : ∀ row ∈ pend, ChunkRow row)
    (hsorted : ((pend.toList ++ rows).flatMap entsOf).Pairwise Posting.lt) (out : List Posting)
    : Run.scanLoop pfx lo hi (rows ++ rest) pend out =
        .ok (out ++ ((pend.toList ++ rows).flatMap entsOf).filter (inRange lo hi)) := by
  induction rows generalizing pend out with
  | nil =>
    rw [nil_append, append_nil]
    cases rest with
    | nil =>
      unfold Run.scanLoop
      rw [decodePend_eq hpend]
      rfl
    | cons row rest =>
      have hnot : pfx.isPrefixOf row.1 = false := by
        rw [Bool.eq_false_iff, ne_eq, isPrefixOf_iff_prefix]
        exact hrest row rfl
      unfold Run.scanLoop
      rw [decodePend_eq hpend, hnot]
      rfl
  | cons row rows ih =>
    rcases hrows row (by simp) with ⟨hchunk, hpre, hlen⟩
    rw [flatMap_append, flatMap_cons] at hsorted ⊢
    rcases pairwise_append.mp hsorted with ⟨-, htail, hcross⟩
    have hhead := (pairwise_append.mp htail).1
    have hstop : (!pfx.isPrefixOf row.1 || decide (row.1.length < pfx.length + 8)) = false := by
      rw [List.isPrefixOf_iff_prefix.mpr hpre]
      simpa using hlen
    have hpass := passPend_eq hpend hchunk (fun e he e' he' => hcross e he e' (mem_append_left _ he')) lo hi
    have hkept : ∀ row' ∈ (if txNumOf row.1 > hi then none else some row), ChunkRow row' := by
      intro row' hrow'
      split at hrow'
      . cases hrow'
      . cases hrow'
        exact hchunk
    have hfilter : ((if txNumOf row.1 > hi then none else some row).toList.flatMap entsOf).filter (inRange lo hi) =
        (entsOf row).filter (inRange lo hi) := by
      split
      . next hgt =>
        rw [filter_entsOf_eq_nil (fun e he => .inr ?_)]
        . rfl
        . have hle := UInt64.le_iff_toNat_le.mp (first_le hchunk hhead he)
          rw [gt_iff_lt, UInt64.lt_iff_toNat_lt] at hgt
          rw [UInt64.lt_iff_toNat_lt]
          omega
      . simp
    have hsub : (((if txNumOf row.1 > hi then none else some row).toList ++ rows).flatMap entsOf).Sublist
        (entsOf row ++ rows.flatMap entsOf) := by
      rw [flatMap_append]
      split <;> simp
    rw [cons_append]
    unfold Run.scanLoop
    simp only [hstop, Bool.false_eq_true, if_false]
    rw [hpass]
    simp only [bind, Except.bind]
    rw [ih (fun row hrow => hrows row (by simp [hrow])) hkept (htail.sublist hsub), flatMap_append,
      filter_append, hfilter, append_assoc, filter_append, filter_append]

theorem filter_flatMap_filter {α β : Type} {f : α → List β} {p : β → Bool} {q q' : α → Bool} {l : List α}
    (hyes : ∀ a ∈ l, q' a = true → q a = true ∧ ∀ b ∈ f a, p b = true)
    (hno : ∀ a ∈ l, q' a = false → q a = true → ∀ b ∈ f a, p b = false)
    : ((l.filter q).flatMap f).filter p = (l.filter q').flatMap f := by
  induction l with
  | nil => rfl
  | cons a l ih =>
    have ih := ih (fun b hb => hyes b (by simp [hb])) (fun b hb => hno b (by simp [hb]))
    rw [filter_cons, filter_cons]
    cases hq' : q' a with
    | true =>
      rcases hyes a (by simp) hq' with ⟨hq, hp⟩
      rw [hq, if_pos rfl, if_pos rfl, flatMap_cons, flatMap_cons, filter_append, ih, filter_eq_self.mpr hp]
    | false =>
      rw [if_neg Bool.false_ne_true]
      split
      . next hq =>
        have hp := hno a (by simp) hq' hq
        rw [flatMap_cons, filter_append, ih, filter_eq_nil_iff.mpr (by simpa using hp), nil_append]
      . exact ih

section Scan

variable {r : Run} (h : LookupSection (r.sec .lookup)) {pfx : Bytes} (hpfx : isPostingKey pfx = true)

include h hpfx

omit h in
theorem isPostingKey_of_isPrefix {k : Bytes} (hpre : pfx <+: k) : isPostingKey k = true := by
  rw [isPostingKey_iff] at hpfx ⊢
  rcases hpfx with ⟨fam, hmem, hfam⟩
  exact ⟨fam, hmem, hfam.trans hpre⟩

theorem length_of_isPrefix {row : Bytes × Bytes} (hrow : row ∈ (r.sec .lookup).rows) (hpre : pfx <+: row.1)
    : row.1.length = groupLen (pfx.take 2) + 8 := by
  have hchunk := chunkRow_of_isPostingKey h hrow (isPostingKey_of_isPrefix hpfx hpre)
  rcases hchunk.key with ⟨g, n, hg, hkey⟩
  rw [hkey] at hpre ⊢
  have hpos := groupLen_pos (g.take 2)
  have hlen := length_of_isGroup hg
  have htwo : 2 ≤ pfx.length := by
    rcases isPostingKey_iff.mp hpfx with ⟨fam, hmem, hfam⟩
    have hfams : ∀ fam ∈ postingFams, 2 ≤ fam.length := by decide
    exact Nat.le_trans (hfams fam hmem) hfam.length_le
  have htake : pfx.take 2 = g.take 2 := by
    rcases hpre with ⟨x, hx⟩
    have hleft : (pfx ++ x).take 2 = pfx.take 2 := take_append_of_le_length htwo
    rw [← hleft, hx]
    exact take_append_of_le_length (by omega)
  rw [length_suffixed, hlen, htake]

theorem isPrefix_group_iff {row : Bytes × Bytes} (hrow : row ∈ (r.sec .lookup).rows) (hkey : isPostingKey row.1 = true)
    {e : Posting} (he : e ∈ entsOf row)
    : pfx <+: e.group ↔ pfx <+: row.1 ∧ pfx.length ≤ groupLen (pfx.take 2) := by
  have hchunk := chunkRow_of_isPostingKey h hrow hkey
  rcases hchunk.key with ⟨g, n, hg, hkey'⟩
  have hgroup : e.group = g := by
    rw [group_of_mem_entsOf he, hkey', take_suffixed]
  have hgkey : g <+: row.1 := by
    rw [hkey']
    exact prefix_append _ _
  rw [hgroup]
  constructor
  . intro hpre
    have hpre' := hpre.trans hgkey
    refine ⟨hpre', ?_⟩
    have hlen := length_of_isPrefix h hpfx hrow hpre'
    rw [hkey', length_suffixed] at hlen
    have := hpre.length_le
    omega
  . rintro ⟨hpre, hle⟩
    have hlen := length_of_isPrefix h hpfx hrow hpre
    rw [hkey', length_suffixed] at hlen
    exact prefix_of_prefix_length_le hpre hgkey (by omega)

theorem filter_entries
    : (entries (r.sec .lookup)).filter (fun e => pfx.isPrefixOf e.group) =
        if pfx.length ≤ groupLen (pfx.take 2) then ((r.sec .lookup).walk pfx).flatMap entsOf else [] := by
  unfold entries
  split
  . next hle =>
    rw [walk_eq]
    apply filter_flatMap_filter
    . intro row hrow hpre
      rw [List.isPrefixOf_iff_prefix] at hpre
      have hkey := isPostingKey_of_isPrefix hpfx hpre
      refine ⟨hkey, ?_⟩
      intro e he
      rw [List.isPrefixOf_iff_prefix, isPrefix_group_iff h hpfx hrow hkey he]
      exact ⟨hpre, hle⟩
    . intro row hrow hpre hkey e he
      rw [Bool.eq_false_iff, ne_eq, isPrefixOf_iff_prefix] at hpre ⊢
      rw [isPrefix_group_iff h hpfx hrow hkey he]
      exact fun hp => hpre hp.1
  . next hgt =>
    rw [filter_eq_nil_iff]
    intro e he
    rw [mem_flatMap] at he
    rcases he with ⟨row, hrow, he⟩
    rw [mem_filter] at hrow
    rw [List.isPrefixOf_iff_prefix, isPrefix_group_iff h hpfx hrow.1 hrow.2 he]
    exact fun hp => hgt hp.2

theorem filter_entries_of_gate (hgated : Run.bloomGated pfx = true) (hmay : r.mayHave policy .lookup (suffixed pfx 0) = false)
    : (entries (r.sec .lookup)).filter (fun e => pfx.isPrefixOf e.group) = [] := by
  rw [filter_eq_nil_iff]
  intro e he hpre
  rw [List.isPrefixOf_iff_prefix] at hpre
  rcases mem_flatMap.mp he with ⟨row, hrow, he⟩
  rw [mem_filter] at hrow
  rcases (chunkRow_of_isPostingKey h hrow.1 hrow.2).key with ⟨g, n, hg, hkey⟩
  rw [group_of_mem_entsOf he, hkey, take_suffixed] at hpre
  have hsplit := take_split_of_bloomGated hpfx hgated hg hpre n
  rw [← hkey] at hsplit
  rw [mayHave_of_mem policy hrow.1 hsplit] at hmay
  cases hmay

theorem scanLoop_section (lo hi : UInt64)
    : Run.scanLoop pfx lo hi ((r.sec .lookup).rows.dropWhile (fun row => row.1 < pfx)) none [] =
        .ok (((entries (r.sec .lookup)).filter (fun e => pfx.isPrefixOf e.group)).filter (inRange lo hi)) := by
  have hsorted := h.sorted.filter (fun e => pfx.isPrefixOf e.group)
  have hwalk : ∀ row ∈ (r.sec .lookup).walk pfx, row ∈ (r.sec .lookup).rows ∧ pfx <+: row.1 := by
    intro row hrow
    rw [walk_eq, mem_filter, isPrefixOf_iff_prefix] at hrow
    exact hrow
  rw [filter_entries h hpfx] at hsorted ⊢
  unfold SortedMap.walk at hwalk hsorted ⊢
  generalize (r.sec .lookup).rows.dropWhile (fun row => row.1 < pfx) = rows at hwalk hsorted ⊢
  have hrest : ∀ row ∈ (rows.dropWhile (fun row => pfx.isPrefixOf row.1)).head?, ¬ pfx <+: row.1 := by
    intro row hrow
    have hnot := head?_dropWhile_not (fun row : Bytes × Bytes => pfx.isPrefixOf row.1) rows
    rw [hrow] at hnot
    rw [← isPrefixOf_iff_prefix, hnot]
    exact Bool.false_ne_true
  conv => lhs; rw [← takeWhile_append_dropWhile (p := fun row : Bytes × Bytes => pfx.isPrefixOf row.1) (l := rows)]
  split at hsorted
  . next hle =>
    rw [if_pos hle]
    refine scanLoop_eq ?_ hrest (by simp) hsorted []
    intro row hrow
    rcases hwalk row hrow with ⟨hmem, hpre⟩
    refine ⟨chunkRow_of_isPostingKey h hmem (isPostingKey_of_isPrefix hpfx hpre), hpre, ?_⟩
    rw [length_of_isPrefix h hpfx hmem hpre]
    omega
  . next hgt =>
    rw [if_neg hgt]
    cases htake : rows.takeWhile (fun row => pfx.isPrefixOf row.1) with
    | nil => exact scanLoop_eq (by simp) hrest (by simp) (by simp) []
    | cons row front =>
      -- the prefix is longer than the groups of its family, and the first key already shows it
      rcases hwalk row (by simp [htake]) with ⟨hmem, hpre⟩
      have hlen := length_of_isPrefix h hpfx hmem hpre
      rw [cons_append]
      unfold Run.scanLoop
      have hstop : (!pfx.isPrefixOf row.1 || decide (row.1.length < pfx.length + 8)) = true := by
        rw [hlen, Bool.or_eq_true, decide_eq_true_eq]
        omega
      rw [if_pos hstop]
      rfl

theorem scanChunks_eq (lo hi : UInt64)
    : r.scanChunks policy pfx lo hi =
        .ok (((entries (r.sec .lookup)).filter (fun e => pfx.isPrefixOf e.group)).filter (inRange lo hi)) := by
  unfold Run.scanChunks
  split
  . next hgate =>
    rw [Bool.and_eq_true, Bool.not_eq_true'] at hgate
    rw [filter_entries_of_gate policy h hpfx hgate.1 hgate.2]
    rfl
  . exact scanLoop_section h hpfx lo hi

end Scan

theorem split_set (x : Bytes)
    : split (prefixSet ++ x) = if (prefixSet ++ x).length ≥ setSplit + 20 then setSplit else (prefixSet ++ x).length := by
  simp only [split, prefixState, prefixAddr, prefixELog, prefixTVal, prefixSig, prefixSet, Bytes.ofChars, map_cons,
    map_nil, cons_append, nil_append, List.isPrefixOf, length_cons]
  simp +decide

theorem take_split_set {pfx key : Bytes} (hpfx : prefixSet <+: pfx) (hlen : setSplit ≤ pfx.length) (hkey : SetKey key)
    (hpre : pfx <+: key) : (pfx.take setSplit).take (split (pfx.take setSplit)) = key.take (split key) := by
  have hsplit : split key = setSplit := by
    rcases hpfx.trans hpre with ⟨x, hx⟩
    have hlen : key.length = 92 := by
      cases hkey
      exact length_setKey _ _ _ _
    rw [← hx, split_set, hx, hlen]
    rfl
  have hhead : split (pfx.take setSplit) = setSplit := by
    have hset : prefixSet <+: pfx.take setSplit :=
      prefix_of_prefix_length_le hpfx (List.take_prefix _ _) (by rw [length_take, Nat.min_eq_left hlen]; decide)
    rcases hset with ⟨x, hx⟩
    rw [← hx, split_set, hx, length_take, Nat.min_eq_left hlen, if_neg (by omega)]
  rw [hsplit, hhead, take_take, Nat.min_self]
  rcases hpre with ⟨y, rfl⟩
  rw [take_append_of_le_length hlen]

section Sets

variable {r : Run} {t : Table} (h : r.Shows t) {pfx : Bytes} (hpfx : prefixSet <+: pfx)

include h hpfx

theorem setKey_of_isPrefix {row : Bytes × Bytes} (hrow : row ∈ (r.sec .lookup).rows) (hpre : pfx <+: row.1)
    : SetKey row.1 := by
  have hset : prefixSet.isPrefixOf row.1 = true := isPrefixOf_iff_prefix.mpr (hpfx.trans hpre)
  rcases h.lookup row hrow with hchunk | hnum | hset'
  . rcases hchunk.key with ⟨g, n, hg, hkey⟩
    rw [hkey, suffixed, isPrefixOf_set_of_isGroup hg] at hset
    cases hset
  . rw [isPrefixOf_set_of_numKey hnum] at hset
    cases hset
  . exact hset'

theorem scanSet_eq : r.scanSet policy pfx = ((r.sec .lookup).walk pfx).map (·.1) := by
  unfold Run.scanSet
  split
  . next hgate =>
    rw [Bool.and_eq_true, decide_eq_true_eq, Bool.not_eq_true'] at hgate
    rcases hgate with ⟨hlen, hmay⟩
    rw [walk_eq, filter_eq_nil_iff.mpr]
    . rfl
    . intro row hrow hpre
      rw [List.isPrefixOf_iff_prefix] at hpre
      have hkey := setKey_of_isPrefix h hpfx hrow hpre
      rw [mayHave_of_mem policy hrow (take_split_set hpfx hlen hkey hpre)] at hmay
      cases hmay
  . rfl

theorem scanSet_pairwise : (r.scanSet policy pfx).Pairwise (· < ·) := by
  rw [scanSet_eq policy h hpfx, walk_eq, pairwise_map]
  exact (r.sec .lookup).sorted.filter _

theorem mem_scanSet {key : Bytes} : key ∈ r.scanSet policy pfx ↔ key ∈ t.sets ∧ SetKey key ∧ pfx <+: key := by
  rw [scanSet_eq policy h hpfx, walk_eq, mem_map]
  constructor
  . rintro ⟨row, hrow, rfl⟩
    rw [mem_filter, isPrefixOf_iff_prefix] at hrow
    have hkey := setKey_of_isPrefix h hpfx hrow.1 hrow.2
    refine ⟨?_, hkey, hrow.2⟩
    have hget := h.sets row.1 hkey
    rw [get_eq_some.mpr hrow.1] at hget
    by_contra hnot
    rw [if_neg hnot] at hget
    cases hget
  . rintro ⟨hmem, hkey, hpre⟩
    have hget := h.sets key hkey
    rw [if_pos hmem, get_eq_some] at hget
    exact ⟨(key, []), mem_filter.mpr ⟨hget, isPrefixOf_iff_prefix.mpr hpre⟩, rfl⟩

end Sets

end Sealed

end EpochDB.Store
