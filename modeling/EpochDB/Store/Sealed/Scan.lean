import EpochDB.Store.Sealed.Reads

/-!
A posting set from its entries to the scan of a run: whatever entries are added, and however often, a
scan returns each pair of group and TxNum once, with all the payloads added for it.
-/

namespace EpochDB.Store.Sealed

open List

def payloads (ents : List Posting) (group : Bytes) (txnum : UInt64) : UInt8 :=
  ents.foldl (fun p e => if e.group = group ∧ e.txnum = txnum then p ||| e.payload else p) 0

def Joins (done ents : List Posting) : Prop :=
  ∀ x, x ∈ done ↔ (∃ e ∈ ents, e.group = x.group ∧ e.txnum = x.txnum) ∧ x.payload = payloads ents x.group x.txnum

theorem payloads_concat (ents : List Posting) (e : Posting) (group : Bytes) (txnum : UInt64)
    : payloads (ents ++ [e]) group txnum =
        if e.group = group ∧ e.txnum = txnum then payloads ents group txnum ||| e.payload else payloads ents group txnum := by
  unfold payloads
  rw [foldl_append]
  rfl

theorem payloads_of_not_mem {ents : List Posting} {group : Bytes} {txnum : UInt64}
    (h : ∀ e ∈ ents, ¬ (e.group = group ∧ e.txnum = txnum)) : payloads ents group txnum = 0 := by
  induction ents using List.reverseRecOn with
  | nil => rfl
  | append_singleton ents e ih =>
    rw [payloads_concat, if_neg (h e (by simp))]
    exact ih (fun e' he' => h e' (by simp [he']))

theorem payloads_perm {ents ents' : List Posting} (h : ents.Perm ents') (group : Bytes) (txnum : UInt64)
    : payloads ents group txnum = payloads ents' group txnum := by
  unfold payloads
  apply h.foldl_eq'
  intro x _ y _ p
  split
  . split
    . rw [UInt8.or_assoc, UInt8.or_assoc, UInt8.or_comm x.payload]
    . rfl
  . rfl

section

variable {done ents : List Posting} (hjoins : Joins done ents) (hasc : done.Pairwise Posting.lt) {e : Posting}
  (hle : ∀ x ∈ done, Posting.le x e)

include hjoins hasc

theorem Joins.again {front : List Posting} {last : Posting} (hdone : done = front ++ [last]) (hgroup : last.group = e.group)
    (hnum : last.txnum = e.txnum) : Joins (front ++ [⟨last.group, last.txnum, last.payload ||| e.payload⟩]) (ents ++ [e]) := by
  subst hdone
  have hlast := (hjoins last).mp (by simp)
  have hfront : ∀ x ∈ front, ¬ (x.group = e.group ∧ x.txnum = e.txnum) := by
    intro x hx
    have hlt := (pairwise_append.mp hasc).2.2 x hx last (by simp)
    rw [← hgroup, ← hnum]
    exact not_same_of_lt hlt
  rintro ⟨g, n, p⟩
  rw [payloads_concat]
  by_cases hsame : e.group = g ∧ e.txnum = n
  . rcases hsame with ⟨rfl, rfl⟩
    rw [if_pos ⟨rfl, rfl⟩]
    have hpay : payloads ents e.group e.txnum = last.payload := by
      rw [hlast.2, hgroup, hnum]
    rw [hpay]
    constructor
    . intro hx
      rcases mem_append.mp hx with hx | hx
      . exact absurd ⟨rfl, rfl⟩ (hfront _ hx)
      . rw [mem_singleton, Posting.mk.injEq] at hx
        exact ⟨⟨e, by simp, rfl, rfl⟩, hx.2.2⟩
    . rintro ⟨-, hp⟩
      rw [show p = last.payload ||| e.payload from hp, hgroup, hnum]
      simp
  . rw [if_neg hsame]
    have hold := hjoins ⟨g, n, p⟩
    dsimp only at hold ⊢
    constructor
    . intro hx
      rcases mem_append.mp hx with hx | hx
      . rcases hold.mp (mem_append_left _ hx) with ⟨⟨e', he', hkey⟩, hp⟩
        exact ⟨⟨e', by simp [he'], hkey⟩, hp⟩
      . rw [mem_singleton, Posting.mk.injEq] at hx
        exact absurd ⟨hgroup.symm.trans hx.1.symm, hnum.symm.trans hx.2.1.symm⟩ hsame
    . rintro ⟨⟨e', he', hkey⟩, hp⟩
      rw [mem_append, mem_singleton] at he'
      rcases he' with he' | rfl
      . have hx := hold.mpr ⟨⟨e', he', hkey⟩, hp⟩
        rcases mem_append.mp hx with hx | hx
        . exact mem_append_left _ hx
        . rw [mem_singleton] at hx
          rw [← hx] at hgroup hnum
          exact absurd ⟨hgroup.symm, hnum.symm⟩ hsame
      . exact absurd hkey hsame

include hle

theorem Joins.new (hlast : ∀ last ∈ done.getLast?, ¬ (last.group = e.group ∧ last.txnum = e.txnum))
    : Joins (done ++ [e]) (ents ++ [e]) := by
  have hlt := lt_of_last hasc hle hlast
  have hfresh : ∀ e' ∈ ents, ¬ (e'.group = e.group ∧ e'.txnum = e.txnum) := by
    rintro e' he' ⟨hgroup, hnum⟩
    have hmem : (⟨e.group, e.txnum, payloads ents e.group e.txnum⟩ : Posting) ∈ done :=
      (hjoins _).mpr ⟨⟨e', he', hgroup, hnum⟩, rfl⟩
    exact not_same_of_lt (hlt _ hmem) ⟨rfl, rfl⟩
  rintro ⟨g, n, p⟩
  rw [payloads_concat, mem_append, mem_singleton, hjoins]
  dsimp only
  by_cases hsame : e.group = g ∧ e.txnum = n
  . rw [if_pos hsame]
    rcases hsame with ⟨rfl, rfl⟩
    rw [payloads_of_not_mem hfresh, UInt8.zero_or]
    constructor
    . rintro (⟨⟨e', he', hkey⟩, -⟩ | hx)
      . exact absurd hkey (hfresh e' he')
      . exact ⟨⟨e, by simp, rfl, rfl⟩, congrArg Posting.payload hx⟩
    . rintro ⟨-, rfl⟩
      exact .inr rfl
  . rw [if_neg hsame]
    constructor
    . rintro (⟨⟨e', he', hkey⟩, hp⟩ | hx)
      . exact ⟨⟨e', by simp [he'], hkey⟩, hp⟩
      . rw [← hx] at hsame
        exact absurd ⟨rfl, rfl⟩ hsame
    . rintro ⟨⟨e', he', hkey⟩, hp⟩
      rw [mem_append, mem_singleton] at he'
      rcases he' with he' | rfl
      . exact .inl ⟨⟨e', he', hkey⟩, hp⟩
      . exact absurd hkey hsame

theorem Joins.step : Joins (joinLast done e) (ents ++ [e]) := by
  rcases joinLast_cases done e with ⟨front, last, hdone, hgroup, hnum, hjoin⟩ | ⟨hlast, hjoin⟩
  . rw [hjoin]
    exact hjoins.again hasc hdone hgroup hnum
  . rw [hjoin]
    exact hjoins.new hasc hle hlast

end

theorem foldl_joinLast_spec {done seen ents : List Posting} (hjoins : Joins done seen) (hasc : done.Pairwise Posting.lt)
    (hle : ∀ x ∈ done, ∀ e ∈ ents, Posting.le x e) (hsorted : ents.Pairwise Posting.le)
    : (ents.foldl joinLast done).Pairwise Posting.lt ∧ Joins (ents.foldl joinLast done) (seen ++ ents) := by
  induction ents generalizing done seen with
  | nil =>
    rw [append_nil]
    exact ⟨hasc, hjoins⟩
  | cons e ents ih =>
    have hle' : ∀ x ∈ done, Posting.le x e := fun x hx => hle x hx e (by simp)
    rw [pairwise_cons] at hsorted
    have hstep := ih (hjoins.step hasc hle') (pairwise_joinLast hasc hle')
      (fun x hx e' he' => joinLast_le hle' (hsorted.1 e' he') x hx) hsorted.2
    rwa [append_assoc] at hstep

theorem chunks_entries {ents : List Posting} (hfit : ∀ e ∈ ents, Fits e.group e.payload)
    : ((chunks ents).flatMap entsOf).Pairwise Posting.lt ∧ Joins ((chunks ents).flatMap entsOf) ents := by
  have hperm := perm_insertionSort Posting.le ents
  have hnil : Joins [] [] := by
    intro x
    simp
  rcases foldl_joinLast_spec hnil List.Pairwise.nil (by simp) (pairwise_insertionSort Posting.le ents) with ⟨hasc, hjoins⟩
  rw [(chunks_joinLast hfit).2]
  refine ⟨hasc, ?_⟩
  intro x
  rw [hjoins x, nil_append, payloads_perm hperm]
  simp only [hperm.mem_iff]

/--
The rows of `chunks` fill a section in order, and a scan of a run with that section returns the entries
under the prefix in the range: one for each pair of group and TxNum, by group and then TxNum.
-/
theorem scanChunks_chunks (policy : FilterPolicy) (ents : List Posting) (hfit : ∀ e ∈ ents, Fits e.group e.payload)
    : ∃ sec, sst (chunks ents) = .ok sec ∧
      ∀ r : Run, r.sec .lookup = sec → ∀ pfx, isPostingKey pfx = true → ∀ lo hi,
        ∃ out, r.scanChunks policy pfx lo hi = .ok out ∧ out.Pairwise Posting.lt ∧
          ∀ x, x ∈ out ↔ (∃ e ∈ ents, e.group = x.group ∧ e.txnum = x.txnum) ∧ pfx <+: x.group ∧
            lo ≤ x.txnum ∧ x.txnum ≤ hi ∧ x.payload = payloads ents x.group x.txnum := by
  rcases chunks_entries hfit with ⟨hasc, hjoins⟩
  have hrows := (chunks_joinLast hfit).1
  have hkeys := chunkRows_pairwise hrows hasc
  refine ⟨⟨chunks ents, hkeys⟩, sst_eq_ok hkeys, ?_⟩
  intro r hr pfx hpfx lo hi
  have hentries : entries (r.sec .lookup) = (chunks ents).flatMap entsOf := by
    unfold entries
    rw [hr, filter_eq_self.mpr]
    intro row hrow
    rcases (hrows row hrow).key with ⟨g, n, hg, hkey⟩
    rw [hkey]
    exact isPostingKey_append hg _
  have hsec : LookupSection (r.sec .lookup) := by
    constructor
    . intro row hrow
      rw [hr] at hrow
      exact .inl (hrows row hrow)
    . rw [hentries]
      exact hasc
  refine ⟨_, scanChunks_eq policy hsec hpfx lo hi, (hsec.sorted.filter _).filter _, ?_⟩
  intro x
  rw [mem_filter, mem_filter, hentries, hjoins x, isPrefixOf_iff_prefix]
  unfold inRange
  rw [decide_eq_true_eq]
  constructor
  . rintro ⟨⟨⟨hadded, hpay⟩, hpre⟩, hlo, hhi⟩
    exact ⟨hadded, hpre, hlo, hhi, hpay⟩
  . rintro ⟨hadded, hpre, hlo, hhi, hpay⟩
    exact ⟨⟨⟨hadded, hpay⟩, hpre⟩, hlo, hhi⟩

theorem scanChunks_chunks_twice
    : let policy : FilterPolicy := ⟨fun keys key => decide (key ∈ keys), fun _ _ h => decide_eq_true h⟩
      let group := addrPrefix ⟨List.replicate 20 1, rfl⟩
      ∃ sec, sst (chunks [⟨group, 7, 1⟩, ⟨group, 9, 4⟩, ⟨group, 7, 2⟩]) = .ok sec ∧
        ∀ r : Run, r.sec .lookup = sec →
          ∃ out, r.scanChunks policy group 0 8 = .ok out ∧ (⟨group, 7, 3⟩ : Posting) ∈ out := by
  intro policy group
  have hfit : ∀ e ∈ [(⟨group, 7, 1⟩ : Posting), ⟨group, 9, 4⟩, ⟨group, 7, 2⟩], Fits e.group e.payload := by
    have hgroup : ∀ p : UInt8, p.toNat < 2 ^ 5 → Fits group p := fun p hp => ⟨.addr _, hp⟩
    simp only [forall_mem_cons, not_mem_nil, false_imp_iff, implies_true, and_true]
    exact ⟨hgroup 1 (by decide), hgroup 4 (by decide), hgroup 2 (by decide)⟩
  rcases scanChunks_chunks policy _ hfit with ⟨sec, hsec, hscan⟩
  refine ⟨sec, hsec, fun r hr => ?_⟩
  rcases hscan r hr group (by decide) 0 8 with ⟨out, hout, -, hmem⟩
  refine ⟨out, hout, (hmem _).mpr ⟨⟨⟨group, 7, 1⟩, by simp, rfl, rfl⟩, prefix_refl _, by decide, by decide, ?_⟩⟩
  decide

end EpochDB.Store.Sealed
