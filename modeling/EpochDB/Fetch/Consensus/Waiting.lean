import EpochDB.Fetch.Consensus.Tree

/-!
The containers that wait for a parent: each is listed under a parent that is neither accepted nor issued,
and issuing a block drains the list below it.
-/

namespace EpochDB.Fetch.Consensus.Chain

def Waits (s : Chain) (todo : List ID) : Prop :=
  ∀ id r, s.recs.lookup id = some r → r.issued = false →
    id ∈ todo ∨ (id ∈ s.pendingByPa r.c.parentID ∧ s.parentOf r.c.parentID = none)

variable {s s' : Chain} {id : ID} {c : Container}

theorem parentOf_eq_none {parentID : ID}
    : s.parentOf parentID = none
      ↔ parentID ≠ s.lastAcceptedID ∧ ∀ r, s.recs.lookup parentID = some r → r.issued = false := by
  unfold parentOf
  split
  . next h => simp [h]
  . next h =>
    split
    . next hnone => simp [h, hnone]
    . next pr hpr => simp [h, hpr]

theorem parentOf_mono {parentID : ID} (hlast : s'.lastAcceptedID = s.lastAcceptedID)
    (hrecs : ∀ r, s'.recs.lookup parentID = some r → r.issued = true → s.recs.lookup parentID = some r)
    (h : s.parentOf parentID = none) : s'.parentOf parentID = none := by
  rw [parentOf_eq_none] at h ⊢
  refine ⟨by rw [hlast]; exact h.1, ?_⟩
  intro r hr
  by_contra hissued
  have hissued : r.issued = true := by simpa using hissued
  have := h.2 r (hrecs r hr hissued)
  rw [hissued] at this
  cases this

namespace Waits

variable {s : Chain} {todo : List ID}

variable {id : ID} {r : Rec} {c : Container}

theorem tried (h : s.Waits (id :: todo)) (hid : ∀ r, s.recs.lookup id = some r → r.issued = true) : s.Waits todo := by
  intro id' r hr hissued
  rcases h id' r hr hissued with hmem | hwait
  . rcases List.mem_cons.1 hmem with heq | hmem
    . rw [heq] at hr
      rw [hid r hr] at hissued
      cases hissued
    . exact .inl hmem
  . exact .inr hwait

theorem wait (htree : s.Tree) (h : s.Waits (id :: todo)) (hr : s.recs.lookup id = some r)
    (hparent : s.parentOf r.c.parentID = none) : (s.wait r.c).Waits todo := by
  intro id' r' hr' hissued'
  rcases h id' r' hr' hissued' with hmem | ⟨hlisted, hnone⟩
  . rcases List.mem_cons.1 hmem with heq | hmem
    . subst heq
      rw [Chain.wait, hr] at hr'
      cases hr'
      right
      refine ⟨?_, hparent⟩
      simp [Chain.wait, htree.keyed id' r hr]
    . exact .inl hmem
  . right
    refine ⟨?_, hnone⟩
    simp only [Chain.wait, Function.update_apply]
    split
    . next heq =>
      rw [heq] at hlisted
      exact List.mem_append_left _ hlisted
    . exact hlisted

theorem drop (htree : s.Tree) (h : s.Waits (id :: todo)) (hr : s.recs.lookup id = some r) : (s.drop r.c).Waits todo := by
  have hlookup : ∀ id', (s.drop r.c).recs.lookup id' = if id' = id then none else s.recs.lookup id' := by
    intro id'
    rw [Chain.drop, htree.keyed id r hr]
    apply AListMap.lookup_erase
  intro id' r' hr' hissued'
  rw [hlookup, Option.ite_none_left_eq_some] at hr'
  rcases h id' r' hr'.2 hissued' with hmem | ⟨hlisted, hnone⟩
  . exact .inl ((List.mem_cons.1 hmem).resolve_left hr'.1)
  . right
    refine ⟨hlisted, parentOf_mono (s := s) rfl ?_ hnone⟩
    intro p hp _
    rw [hlookup, Option.ite_none_left_eq_some] at hp
    exact hp.2

theorem issue (htree : s.Tree) (cons : Topological) (h : s.Waits (id :: todo))
    (hr : s.recs.lookup id = some r) : (s.issue r.c cons).Waits (s.pendingByPa r.c.id ++ todo) := by
  have hkey := htree.keyed id r hr
  subst hkey
  have hlookup : ∀ id, (s.issue r.c cons).recs.lookup id = if id = r.c.id then some ⟨r.c, true⟩ else s.recs.lookup id :=
    fun id => AListMap.lookup_insert _ _ _ _
  intro id' r' hr' hissued'
  rw [hlookup] at hr'
  split at hr'
  . cases hr'
    cases hissued'
  . next hne =>
    rcases h id' r' hr' hissued' with hmem | ⟨hlisted, hnone⟩
    . left
      exact List.mem_append_right _ ((List.mem_cons.1 hmem).resolve_left hne)
    . by_cases hparent : r'.c.parentID = r.c.id
      . left
        rw [hparent] at hlisted
        exact List.mem_append_left _ hlisted
      . right
        refine ⟨?_, parentOf_mono (s := s) rfl ?_ hnone⟩
        . simpa only [Chain.issue, Function.update_of_ne hparent] using hlisted
        . intro p hp _
          rwa [hlookup, if_neg hparent] at hp

theorem insert (h : s.Waits todo) : (s.insert c).Waits (c.id :: todo) := by
  have hlookup : ∀ id, (s.insert c).recs.lookup id = if id = c.id then some ⟨c, false⟩ else s.recs.lookup id :=
    fun id => AListMap.lookup_insert _ _ _ _
  intro id r hr hissued
  rw [hlookup] at hr
  split at hr
  . next hid =>
    left
    rw [hid]
    exact List.mem_cons_self
  . rcases h id r hr hissued with hmem | ⟨hlisted, hnone⟩
    . exact .inl (List.mem_cons_of_mem _ hmem)
    . right
      refine ⟨hlisted, parentOf_mono (s := s) rfl ?_ hnone⟩
      intro p hp hissued'
      rw [hlookup] at hp
      split at hp
      . cases hp
        cases hissued'
      . exact hp

theorem parent_ne (htree : s.Tree) (h : s.Waits []) {id id' : ID} {b : Block}
    (hb : s.cons.blocks id = some b) (hr : s.recs.lookup id' = some r) (hissued : r.issued = false)
    : r.c.parentID ≠ b.c.id := by
  intro heq
  rcases h id' r hr hissued with hmem | ⟨-, hnone⟩
  . cases hmem
  . rw [heq, htree.block_id hb, parentOf_eq_none] at hnone
    have := hnone.2 _ (htree.block hb)
    cases this

theorem accept (htree : s.Tree) (h : s.Waits []) {cons : Topological}
    (hacc : s.cons.accept id = some (c, cons)) : ({ s with cons }.onAccept c).Waits [] := by
  unfold Topological.accept at hacc
  split at hacc
  . cases hacc
  . next b hb =>
    split at hacc
    . cases hacc
      intro id' r hr hissued
      have hlookup : ∀ id' r, (s.onAccept b.c).recs.lookup id' = some r → s.recs.lookup id' = some r := by
        intro id' r hr
        simp only [onAccept, AListMap.lookup_keep, Option.filter_eq_some_iff, htree.lookup_decided hb,
          Option.ite_none_left_eq_some] at hr
        exact hr.1.2
      rcases h id' r (hlookup id' r hr) hissued with hmem | ⟨hlisted, hnone⟩
      . cases hmem
      . right
        refine ⟨hlisted, ?_⟩
        rw [parentOf_eq_none] at hnone ⊢
        refine ⟨parent_ne htree h hb (hlookup id' r hr) hissued, ?_⟩
        intro p hp
        exact hnone.2 p (hlookup _ p hp)
    . cases hacc

theorem reject (htree : s.Tree) (h : s.Waits []) {cons : Topological}
    (hrej : s.cons.reject id = some (c, cons)) : ({ s with cons }.onReject c).Waits [] := by
  unfold Topological.reject at hrej
  split at hrej
  . cases hrej
  . next b hb =>
    cases hrej
    intro id' r hr hissued
    have hlookup : ∀ id' r, (s.onReject b.c).recs.lookup id' = some r → s.recs.lookup id' = some r := by
      intro id' r hr
      rw [onReject, htree.lookup_decided hb, Option.ite_none_left_eq_some] at hr
      exact hr.2
    rcases h id' r (hlookup id' r hr) hissued with hmem | ⟨hlisted, hnone⟩
    . cases hmem
    . right
      refine ⟨?_, parentOf_mono (s := s) rfl (fun p hp _ => hlookup _ p hp) hnone⟩
      have hne := parent_ne htree h hb (hlookup id' r hr) hissued
      simpa only [onReject, Function.update_of_ne hne] using hlisted

end Waits

theorem tryIssue_waits {fuel : Nat} {todo : List ID} (htree : s.Tree)
    (h : s.Waits (id :: todo)) (hissue : tryIssue fuel s id = some s') : s'.Waits todo := by
  induction fuel generalizing s s' id todo with
  | zero => cases hissue
  | succ fuel ih =>
    unfold tryIssue at hissue
    split at hissue
    . next hnone =>
      cases hissue
      exact h.tried (by simp [hnone])
    . next r hr =>
      split at hissue
      . next hissued =>
        cases hissue
        exact h.tried (by simpa [hr] using hissued)
      . next hissued =>
        split at hissue
        . next hparent =>
          cases hissue
          exact .wait htree h hr hparent
        . next hparent =>
          split at hissue
          . cases hissue
            exact .drop htree h hr
          . next hlink =>
            rw [not_or, not_ne_iff, not_ne_iff] at hlink
            have hkey := htree.keyed id r hr
            split at hissue
            . next hadd =>
              -- the parent is in the tree, so this branch is never taken
              obtain ⟨cons, hok⟩ := htree.add_ok (by rwa [hkey]) (by simpa using hissued) hparent
              rw [hadd] at hok
              cases hok
            . next cons hadd =>
              have hstart : (s.issue r.c cons).Tree := htree.issue hr hparent hlink.1 hlink.2 hadd
              have hdrained := Transition.run_remaining
                (I := fun t rest => t.Tree ∧ t.Waits (rest ++ todo)) ?_ ⟨hstart, .issue htree cons h hr⟩ hissue
              . exact hdrained.2
              . intro t child rest t' ht hchild
                exact ⟨ht.1.moves (tryIssue_moves hchild), ih ht.1 ht.2 hchild⟩

theorem added_waits (htree : s.Tree) (h : s.Waits []) (hknown : s.known c = false)
    (hadded : s.added c = some s') : s'.Waits [] :=
  tryIssue_waits (htree.insert hknown) h.insert hadded

theorem recordPolls_waits (htree : s.Tree) (h : s.Waits []) (ds : List Decision) : (s.recordPolls ds).Waits [] := by
  induction ds generalizing s with
  | nil => exact h
  | cons d ds ih =>
    cases d with
    | accept id err =>
      unfold recordPolls
      split
      . exact ih htree h
      . next c cons hacc =>
        dsimp only
        split
        . exact ih (htree.accept hacc) (.accept htree h hacc)
        . exact Waits.accept htree h hacc
    | reject id =>
      unfold recordPolls
      split
      . exact ih htree h
      . next c cons hrej => exact ih (htree.reject hrej) (.reject htree h hrej)

/--
What has become of a container that waited, by its parent: without one that is accepted or issued it still waits,
behind one that it continues it is issued, and behind any other it is dropped.
-/
def Fate (s : Chain) (id : ID) (c : Container) : Prop :=
  match s.parentOf c.parentID with
  | none => s.recs.lookup id = some ⟨c, false⟩
  | some (ethHash, height) =>
    s.recs.lookup id = if c.ethParentHash = ethHash ∧ c.height = height + 1 then some ⟨c, true⟩ else none

structure Settles (s s' : Chain) : Prop where
  parent : ∀ p x, s.parentOf p = some x → s'.parentOf p = some x
  gone : ∀ id, s.recs.lookup id = none → s'.recs.lookup id = none
  fate : ∀ id r, s.recs.lookup id = some r →
    s'.recs.lookup id = some r ∨ (r.issued = false ∧ (s'.parentOf r.c.parentID).isSome ∧ s'.Fate id r.c)

namespace Settles

variable {s s' s'' : Chain}

theorem refl (s : Chain) : Settles s s := ⟨fun _ _ h => h, fun _ h => h, fun _ _ h => .inl h⟩

theorem trans (h : Settles s s') (h' : Settles s' s'') : Settles s s'' where
  parent p x hp := h'.parent p x (h.parent p x hp)
  gone id hnone := h'.gone id (h.gone id hnone)
  fate id r hr := by
    rcases h.fate id r hr with hsame | ⟨hissued, hsome, hfate⟩
    . exact h'.fate id r hsame
    . -- its parent stays accepted or issued, so its fate is final
      rcases Option.isSome_iff_exists.1 hsome with ⟨⟨ethHash, height⟩, hparent⟩
      have hparent' := h'.parent _ _ hparent
      refine .inr ⟨hissued, by rw [hparent']; rfl, ?_⟩
      unfold Fate at hfate ⊢
      rw [hparent] at hfate
      rw [hparent']
      dsimp only at hfate ⊢
      split at hfate
      . next hmatch =>
        rw [if_pos hmatch]
        rcases h'.fate id _ hfate with hsame | ⟨hwaits, -⟩
        . exact hsame
        . cases hwaits
      . next hmatch =>
        rw [if_neg hmatch]
        exact h'.gone id hfate

theorem parentOf_issued {p : ID} {x : ID × UInt64} (hlast : s'.lastAcceptedID = s.lastAcceptedID)
    (hhash : s'.lastAcceptedEthHash = s.lastAcceptedEthHash) (hheight : s'.lastAcceptedHeight = s.lastAcceptedHeight)
    (hrecs : ∀ id r, s.recs.lookup id = some r → r.issued = true → s'.recs.lookup id = some r)
    (h : s.parentOf p = some x) : s'.parentOf p = some x := by
  unfold parentOf at h ⊢
  rw [hlast, hhash, hheight]
  split at h
  . next hp =>
    rw [if_pos hp]
    exact h
  . next hp =>
    rw [if_neg hp]
    split at h
    . cases h
    . next pr hpr =>
      split at h
      . next hissued =>
        rw [hrecs p pr hpr hissued]
        simpa [hissued] using h
      . cases h

section

variable {id : ID} {r : Rec} (htree : s.Tree) (hr : s.recs.lookup id = some r) (hissued : r.issued = false)
  {ethHash : ID} {height : UInt64} (hparent : s.parentOf r.c.parentID = some (ethHash, height))

include htree hr hissued hparent

omit htree in
/-- One record of a waiting container is changed to what its parent makes of it. -/
theorem of_lookup (hlast : s'.lastAcceptedID = s.lastAcceptedID) (hhash : s'.lastAcceptedEthHash = s.lastAcceptedEthHash)
    (hheight : s'.lastAcceptedHeight = s.lastAcceptedHeight) (hrecs : ∀ id', s'.recs.lookup id' = if id' = id then
      (if r.c.ethParentHash = ethHash ∧ r.c.height = height + 1 then some ⟨r.c, true⟩ else none) else s.recs.lookup id')
    : Settles s s' := by
  have hstable : ∀ p x, s.parentOf p = some x → s'.parentOf p = some x := by
    intro p x
    apply parentOf_issued hlast hhash hheight
    intro id' r' hr' hissued'
    rw [hrecs, if_neg]
    . exact hr'
    . rintro rfl
      rw [hr] at hr'
      cases hr'
      rw [hissued] at hissued'
      cases hissued'
  refine ⟨hstable, ?_, ?_⟩
  . intro id' hnone
    rw [hrecs, if_neg]
    . exact hnone
    . rintro rfl
      rw [hr] at hnone
      cases hnone
  . intro id' r' hr'
    by_cases hid : id' = id
    . subst hid
      rw [hr] at hr'
      cases hr'
      have hparent' := hstable _ _ hparent
      refine .inr ⟨hissued, by rw [hparent']; rfl, ?_⟩
      unfold Fate
      rw [hparent']
      dsimp only
      rw [hrecs, if_pos rfl]
    . rw [hrecs, if_neg hid]
      exact .inl hr'

theorem drop (hlink : r.c.ethParentHash ≠ ethHash ∨ r.c.height ≠ height + 1) : Settles s (s.drop r.c) := by
  refine of_lookup hr hissued hparent rfl rfl rfl ?_
  intro id'
  have hnot : ¬ (r.c.ethParentHash = ethHash ∧ r.c.height = height + 1) := not_and_or.2 hlink
  rw [if_neg hnot, Chain.drop, htree.keyed id r hr]
  apply AListMap.lookup_erase

theorem issue (hlink : r.c.ethParentHash = ethHash ∧ r.c.height = height + 1) (cons : Topological)
    : Settles s (s.issue r.c cons) := by
  refine of_lookup hr hissued hparent rfl rfl rfl ?_
  intro id'
  rw [if_pos hlink, ← htree.keyed id r hr]
  apply AListMap.lookup_insert

end

end Settles

theorem Tries.settles (htree : s.Tree) (h : Tries s s') : Settles s s' := by
  induction h with
  | refl => exact .refl s
  | tail hbefore htry ih =>
    have htree := htree.moves (Tries.moves hbefore)
    apply ih.trans
    cases htry with
    | drop id r _ _ hr hissued hparent hlink => exact .drop htree hr hissued hparent hlink
    | issue id r cons _ _ hr hissued hparent hlink => exact .issue htree hr hissued hparent hlink cons
    | wait | fail => exact ⟨fun _ _ h => h, fun _ h => h, fun _ _ h => .inl h⟩

theorem added_fate (htree : s.Tree) (h : s.Waits []) (hknown : s.known c = false)
    (hadded : s.added c = some s') {r : Rec} (hr : (s.insert c).recs.lookup id = some r) (hissued : r.issued = false)
    : s'.Fate id r.c := by
  rcases ((tryIssue_tries hadded).settles (htree.insert hknown)).fate id r hr with hsame | ⟨-, -, hfate⟩
  . rcases added_waits htree h hknown hadded id r hsame hissued with hmem | ⟨-, hnone⟩
    . cases hmem
    . unfold Fate
      rw [hnone]
      dsimp only
      rw [hsame, ← hissued]
  . exact hfate

def waiting (s : Chain) : Finset ID :=
  s.recs.keys.toFinset.filter (fun id => (s.recs.lookup id).any (fun r => !r.issued))

theorem mem_waiting : id ∈ s.waiting ↔ ∃ r, s.recs.lookup id = some r ∧ r.issued = false := by
  simp only [waiting, Finset.mem_filter, List.mem_toFinset, Option.any_eq_true, Bool.not_eq_true']
  constructor
  . rintro ⟨-, h⟩
    exact h
  . rintro ⟨r, hr, hissued⟩
    refine ⟨?_, r, hr, hissued⟩
    rw [← AList.mem_keys, ← AList.lookup_isSome, hr]
    rfl

theorem card_waiting_le (s : Chain) : s.waiting.card ≤ s.recs.entries.length := by
  calc s.waiting.card
      ≤ s.recs.keys.toFinset.card := Finset.card_filter_le _ _
    _ ≤ s.recs.keys.length := List.toFinset_card_le _
    _ = s.recs.entries.length := List.length_map _

theorem waiting_mono (h : ∀ id r, s'.recs.lookup id = some r → r.issued = false → s.recs.lookup id = some r)
    : s'.waiting ⊆ s.waiting := by
  intro id hid
  obtain ⟨r, hr, hissued⟩ := mem_waiting.1 hid
  exact mem_waiting.2 ⟨r, h id r hr hissued, hissued⟩

theorem tryIssue_total {fuel : Nat} (id : ID) (htree : s.Tree) (hfuel : s.waiting.card < fuel)
    : ∃ s', tryIssue fuel s id = some s' ∧ s'.waiting ⊆ s.waiting := by
  induction fuel generalizing s id with
  | zero => exact absurd hfuel (Nat.not_lt_zero _)
  | succ fuel ih =>
    unfold tryIssue
    split
    . exact ⟨s, rfl, subset_rfl⟩
    . next r hr =>
      have hkey := htree.keyed id r hr
      subst hkey
      split
      . exact ⟨s, rfl, subset_rfl⟩
      . next hissued =>
        split
        . exact ⟨_, rfl, subset_rfl⟩
        . next hparent =>
          split
          . refine ⟨_, rfl, waiting_mono ?_⟩
            intro id r' hr' _
            rw [Chain.drop, AListMap.lookup_erase, Option.ite_none_left_eq_some] at hr'
            exact hr'.2
          . next hlink =>
            rw [not_or, not_ne_iff, not_ne_iff] at hlink
            split
            . exact ⟨_, rfl, subset_rfl⟩
            . next cons hadd =>
              have hstart : (s.issue r.c cons).Tree := htree.issue hr hparent hlink.1 hlink.2 hadd
              have hmem : r.c.id ∈ s.waiting := mem_waiting.2 ⟨r, hr, by simpa using hissued⟩
              have hwaiting : (s.issue r.c cons).waiting ⊆ s.waiting.erase r.c.id := by
                intro id hid
                obtain ⟨r', hr', hissued'⟩ := mem_waiting.1 hid
                rw [Chain.issue, AListMap.lookup_insert] at hr'
                split at hr'
                . cases hr'
                  cases hissued'
                . next hne => exact Finset.mem_erase.2 ⟨hne, mem_waiting.2 ⟨r', hr', hissued'⟩⟩
              have hcard : (s.issue r.c cons).waiting.card < fuel := by
                have := Finset.card_le_card hwaiting
                rw [Finset.card_erase_of_mem hmem] at this
                have := Finset.card_pos.2 ⟨_, hmem⟩
                omega
              have hchild : ∀ t child, (t.Tree ∧ t.waiting ⊆ (s.issue r.c cons).waiting) →
                  ∃ t', tryIssue fuel t child = some t' ∧ t'.Tree ∧ t'.waiting ⊆ (s.issue r.c cons).waiting := by
                intro t child ht
                obtain ⟨t', ht', hsub'⟩ := ih child ht.1 (Nat.lt_of_le_of_lt (Finset.card_le_card ht.2) hcard)
                exact ⟨t', ht', ht.1.moves (tryIssue_moves ht'), hsub'.trans ht.2⟩
              obtain ⟨s', hs', -, hsub⟩ := Transition.run_total hchild (s.pendingByPa r.c.id) ⟨hstart, subset_rfl⟩
              exact ⟨s', hs', (hsub.trans hwaiting).trans (Finset.erase_subset _ _)⟩

theorem added_total (htree : s.Tree) (hknown : s.known c = false) : ∃ s', s.added c = some s' := by
  obtain ⟨s', hs', -⟩ := tryIssue_total c.id (htree.insert hknown) (Nat.lt_succ_of_le (card_waiting_le _))
  exact ⟨s', hs'⟩

end EpochDB.Fetch.Consensus.Chain
