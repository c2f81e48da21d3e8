import EpochDB.Fetch.Consensus.Chain

/-!
What the containers of the engine and the tree of consensus have in common in every state: the processing
blocks are the issued records, and every one of them continues the eth chain of its parent.
-/

namespace EpochDB.Fetch.Consensus

open Option Function

def Container.Links (c : Container) (id ethHash : ID) (height : UInt64) : Prop :=
  c.parentID = id ∧ c.ethParentHash = ethHash ∧ c.height = height + 1

theorem toNat_succ {a b : UInt64} (h : b = a + 1) (hb : b ≠ 0) : b.toNat = a.toNat + 1 := by
  subst h
  have hlt : a.toNat + 1 < 2 ^ 64 := by
    by_contra hge
    have ha := a.toNat_lt
    apply hb
    apply UInt64.toNat_inj.1
    rw [UInt64.toNat_add]
    have : a.toNat = 2 ^ 64 - 1 := by omega
    rw [this]
    rfl
  rw [UInt64.toNat_add]
  exact Nat.mod_eq_of_lt hlt

namespace Chain

/-- The steps of `tryIssue`. -/
inductive Try : Chain → Chain → Prop
  | wait (s : Chain) (c : Container) : Try s (s.wait c)
  | drop (s : Chain) (id : ID) (r : Rec) (ethHash : ID) (height : UInt64) (hr : s.recs.lookup id = some r)
      (hissued : r.issued = false) (hparent : s.parentOf r.c.parentID = some (ethHash, height))
      (hlink : r.c.ethParentHash ≠ ethHash ∨ r.c.height ≠ height + 1)
    : Try s (s.drop r.c)
  | issue (s : Chain) (id : ID) (r : Rec) (cons : Topological) (ethHash : ID) (height : UInt64)
      (hr : s.recs.lookup id = some r) (hissued : r.issued = false)
      (hparent : s.parentOf r.c.parentID = some (ethHash, height))
      (hlink : r.c.ethParentHash = ethHash ∧ r.c.height = height + 1) (hadd : s.cons.add r.c = .ok cons)
    : Try s (s.issue r.c cons)
  | fail (s : Chain) (err : Fatal) : Try s (s.fail err)

abbrev Tries := Relation.ReflTransGen Try

inductive Move : Chain → Chain → Prop
  | insert (s : Chain) (c : Container) (hknown : s.known c = false) : Move s (s.insert c)
  | tried (s s' : Chain) (h : Try s s') : Move s s'
  | accept (s : Chain) (id : ID) (c : Container) (cons : Topological) (h : s.cons.accept id = some (c, cons))
    : Move s ({ s with cons }.onAccept c)
  | reject (s : Chain) (id : ID) (c : Container) (cons : Topological) (h : s.cons.reject id = some (c, cons))
    : Move s ({ s with cons }.onReject c)

abbrev Moves := Relation.ReflTransGen Move

theorem recordPolls_moves (s : Chain) (ds : List Decision) : Moves s (s.recordPolls ds) := by
  induction ds generalizing s with
  | nil => exact .refl
  | cons d ds ih =>
    cases d with
    | accept id err =>
      unfold recordPolls
      split
      . apply ih
      . next c cons h =>
        apply Relation.ReflTransGen.head (.accept s id c cons h)
        dsimp only
        split
        . apply ih
        . exact .single (.tried _ _ (.fail _ _))
    | reject id =>
      unfold recordPolls
      split
      . apply ih
      . next c cons h =>
        apply Relation.ReflTransGen.head (.reject s id c cons h)
        apply ih

theorem tryIssue_tries {fuel : Nat} {s s' : Chain} {id : ID} (h : tryIssue fuel s id = some s') : Tries s s' := by
  induction fuel generalizing s s' id with
  | zero => cases h
  | succ fuel ih =>
    unfold tryIssue at h
    split at h
    . cases h
      exact .refl
    . next r hr =>
      split at h
      . cases h
        exact .refl
      . next hissued =>
        have hissued : r.issued = false := by simpa using hissued
        split at h
        . cases h
          exact .single (.wait s r.c)
        . next hparent =>
          split at h
          . next hlink =>
            cases h
            exact .single (.drop s id r _ _ hr hissued hparent hlink)
          . next hlink =>
            rw [not_or, not_ne_iff, not_ne_iff] at hlink
            split at h
            . cases h
              exact .single (.fail s _)
            . next cons hadd =>
              apply Relation.ReflTransGen.head (.issue s id r cons _ _ hr hissued hparent hlink hadd)
              apply Transition.run_remaining (I := fun t _ => Tries (s.issue r.c cons) t) ?_ .refl h
              intro t child rest t' ht hchild
              exact ht.trans (ih hchild)

theorem Tries.moves {s s' : Chain} (h : Tries s s') : Moves s s' := Relation.ReflTransGen.mono Move.tried _ _ h

theorem tryIssue_moves {fuel : Nat} {s s' : Chain} {id : ID} (h : tryIssue fuel s id = some s') : Moves s s' :=
  (tryIssue_tries h).moves

structure Tree (s : Chain) : Prop where
  keyed : ∀ id r, s.recs.lookup id = some r → r.c.id = id
  pos : ∀ id r, s.recs.lookup id = some r → r.c.height ≠ 0
  top : s.cons.lastAccepted = s.lastAcceptedID
  issued : ∀ id c, (s.cons.blocks id).map (·.c) = some c ↔ s.recs.lookup id = some ⟨c, true⟩
  root_lt : s.cons.root < s.cons.next
  node_lt : ∀ id b, s.cons.blocks id = some b → b.node < s.cons.next
  parent_lt : ∀ id b, s.cons.blocks id = some b → b.parent < s.cons.next
  node_ne : ∀ id b, s.cons.blocks id = some b → b.node ≠ s.cons.root
  node_inj : ∀ id b id' b', s.cons.blocks id = some b → s.cons.blocks id' = some b' → b.node = b'.node → id = id'
  rooted : ∀ id b, s.cons.blocks id = some b → b.parent = s.cons.root →
    b.c.Links s.lastAcceptedID s.lastAcceptedEthHash s.lastAcceptedHeight
  linked : ∀ id b id' p, s.cons.blocks id = some b → s.cons.blocks id' = some p → b.parent = p.node →
    b.c.Links p.c.id p.c.ethHash p.c.height

namespace Tree

variable {s : Chain}

variable {id : ID} {b : Block} {r : Rec} {c : Container} {height : UInt64} {cons : Topological}

theorem block (h : s.Tree) (hb : s.cons.blocks id = some b) : s.recs.lookup id = some ⟨b.c, true⟩ := by
  apply (h.issued id b.c).1
  rw [hb]
  rfl

theorem block_id (h : s.Tree) (hb : s.cons.blocks id = some b) : b.c.id = id :=
  h.keyed id _ (h.block hb)

theorem of_issued (h : s.Tree) (hr : s.recs.lookup id = some r) (hissued : r.issued = true)
    : ∃ b, s.cons.blocks id = some b ∧ b.c = r.c := by
  obtain ⟨c, issued⟩ := r
  subst hissued
  exact map_eq_some_iff.1 ((h.issued id c).2 hr)

theorem blocks_none (h : s.Tree) (hr : ∀ r, s.recs.lookup id = some r → r.issued = false) : s.cons.blocks id = none := by
  apply eq_none_iff_forall_ne_some.2
  intro b hb
  have := hr _ (h.block hb)
  cases this

theorem insert (h : s.Tree) (hknown : s.known c = false) : (s.insert c).Tree := by
  simp only [known, Bool.or_eq_false_iff, isSome_eq_false_iff, isNone_iff_eq_none, decide_eq_false_iff_not] at hknown
  obtain ⟨⟨hfresh, -⟩, habove⟩ := hknown
  have hlookup : ∀ id, (s.insert c).recs.lookup id = if id = c.id then some ⟨c, false⟩ else s.recs.lookup id :=
    fun id => AListMap.lookup_insert _ _ _ _
  refine { h with keyed := ?_, pos := ?_, issued := ?_ }
  . intro id r hr
    rw [hlookup] at hr
    split at hr
    . next hid =>
      cases hr
      exact hid.symm
    . exact h.keyed id r hr
  . intro id r hr
    rw [hlookup] at hr
    split at hr
    . cases hr
      intro hzero
      apply habove
      rw [hzero, UInt64.le_iff_toNat_le]
      exact Nat.zero_le _
    . exact h.pos id r hr
  . intro id c'
    rw [hlookup]
    split
    . next hid =>
      subst hid
      have hnone : s.cons.blocks c.id = none := h.blocks_none (by simp [hfresh])
      simp [Chain.insert, hnone]
    . exact h.issued id c'

theorem wait (h : s.Tree) (c : Container) : (s.wait c).Tree := { h with }

theorem fail (h : s.Tree) (err : Fatal) : (s.fail err).Tree := { h with }

theorem drop (h : s.Tree) (hr : s.recs.lookup id = some r) (hissued : r.issued = false) : (s.drop r.c).Tree := by
  have hid := h.keyed id r hr
  subst hid
  have hlookup : ∀ id, (s.drop r.c).recs.lookup id = if id = r.c.id then none else s.recs.lookup id :=
    fun id => AListMap.lookup_erase _ _ _
  refine { h with keyed := ?_, pos := ?_, issued := ?_ }
  . intro id' r' hr'
    rw [hlookup, ite_none_left_eq_some] at hr'
    exact h.keyed id' r' hr'.2
  . intro id' r' hr'
    rw [hlookup, ite_none_left_eq_some] at hr'
    exact h.pos id' r' hr'.2
  . intro id' c'
    rw [hlookup]
    split
    . next hid =>
      subst hid
      have hnone : s.cons.blocks r.c.id = none := by
        apply h.blocks_none
        intro r' hr'
        rw [hr] at hr'
        cases hr'
        exact hissued
      simp [Chain.drop, hnone]
    . exact h.issued id' c'

theorem add_ok (h : s.Tree) {ethHash : ID} (hr : s.recs.lookup r.c.id = some r)
    (hissued : r.issued = false) (hparent : s.parentOf r.c.parentID = some (ethHash, height))
    : ∃ cons, s.cons.add r.c = .ok cons := by
  have hnone : s.cons.blocks r.c.id = none := by
    apply h.blocks_none
    intro r' hr'
    rw [hr] at hr'
    cases hr'
    exact hissued
  unfold parentOf at hparent
  unfold Topological.add Topological.processing Topological.nodeOf
  rw [hnone, h.top]
  split at hparent
  . next hid => simp [hid]
  . next hid =>
    split at hparent
    . cases hparent
    . next pr hpr =>
      split at hparent
      . next hp =>
        obtain ⟨b, hb, -⟩ := h.of_issued hpr hp
        simp [hid, hb]
      . cases hparent

theorem parentOf_node (h : s.Tree) {parentID ethHash : ID} {parent : Nat}
    (hparent : s.parentOf parentID = some (ethHash, height)) (hnode : s.cons.nodeOf parentID = some parent)
    : (parent = s.cons.root ∧ parentID = s.lastAcceptedID ∧ ethHash = s.lastAcceptedEthHash
        ∧ height = s.lastAcceptedHeight)
      ∨ ∃ b, s.cons.blocks parentID = some b ∧ parent = b.node ∧ ethHash = b.c.ethHash ∧ height = b.c.height := by
  unfold parentOf at hparent
  unfold Topological.nodeOf at hnode
  rw [h.top] at hnode
  split at hparent
  . next hid =>
    left
    rw [if_pos hid] at hnode
    cases hparent
    cases hnode
    exact ⟨rfl, hid, rfl, rfl⟩
  . next hid =>
    right
    rw [if_neg hid] at hnode
    split at hparent
    . cases hparent
    . next pr hpr =>
      split at hparent
      . next hp =>
        obtain ⟨b, hb, hc⟩ := h.of_issued hpr hp
        rw [hb] at hnode
        cases hparent
        cases hnode
        exact ⟨b, hb, rfl, by rw [hc], by rw [hc]⟩
      . cases hparent

theorem issue (h : s.Tree) {ethHash : ID}
    (hr : s.recs.lookup id = some r) (hparent : s.parentOf r.c.parentID = some (ethHash, height))
    (hhash : r.c.ethParentHash = ethHash) (hheight : r.c.height = height + 1) (hadd : s.cons.add r.c = .ok cons)
    : (s.issue r.c cons).Tree := by
  have hid := h.keyed id r hr
  subst hid
  have hlookup : ∀ id, (s.issue r.c cons).recs.lookup id = if id = r.c.id then some ⟨r.c, true⟩ else s.recs.lookup id :=
    fun id => AListMap.lookup_insert _ _ _ _
  unfold Topological.add at hadd
  split at hadd
  . cases hadd
  . next hnew =>
    split at hadd
    . cases hadd
    . next parent hnode =>
      have hplace := h.parentOf_node hparent hnode
      have hparent_lt : parent < s.cons.next := by
        rcases hplace with ⟨hp, -⟩ | ⟨b, hb, hp, -⟩
        . rw [hp]
          exact h.root_lt
        . rw [hp]
          exact h.node_lt _ b hb
      cases hadd
      -- a block of the new tree is the new one or an old one
      have hblocks : ∀ id b, update s.cons.blocks r.c.id (some ⟨r.c, s.cons.next, parent⟩) id = some b →
          (id = r.c.id ∧ b = ⟨r.c, s.cons.next, parent⟩) ∨ (id ≠ r.c.id ∧ s.cons.blocks id = some b) := by
        intro id b hb
        rw [update_apply] at hb
        split at hb
        . next hid =>
          cases hb
          exact .inl ⟨hid, rfl⟩
        . next hid => exact .inr ⟨hid, hb⟩
      constructor
      case keyed =>
        intro id' r' hr'
        rw [hlookup] at hr'
        split at hr'
        . next hid =>
          cases hr'
          exact hid.symm
        . exact h.keyed id' r' hr'
      case pos =>
        intro id' r' hr'
        rw [hlookup] at hr'
        split at hr'
        . cases hr'
          exact h.pos _ r hr
        . exact h.pos id' r' hr'
      case top => exact h.top
      case issued =>
        intro id' c'
        rw [hlookup]
        simp only [Chain.issue, update_apply]
        split
        . simp
        . exact h.issued id' c'
      case root_lt => exact Nat.lt_succ_of_lt h.root_lt
      case node_lt =>
        intro id' b hb
        rcases hblocks id' b hb with ⟨-, rfl⟩ | ⟨-, hb⟩
        . exact Nat.lt_succ_self _
        . exact Nat.lt_succ_of_lt (h.node_lt id' b hb)
      case parent_lt =>
        intro id' b hb
        rcases hblocks id' b hb with ⟨-, rfl⟩ | ⟨-, hb⟩
        . exact Nat.lt_succ_of_lt hparent_lt
        . exact Nat.lt_succ_of_lt (h.parent_lt id' b hb)
      case node_ne =>
        intro id' b hb
        rcases hblocks id' b hb with ⟨-, rfl⟩ | ⟨-, hb⟩
        . exact Nat.ne_of_gt h.root_lt
        . exact h.node_ne id' b hb
      case node_inj =>
        intro id1 b1 id2 b2 hb1 hb2 hnode
        rcases hblocks id1 b1 hb1 with ⟨hid1, rfl⟩ | ⟨-, hb1⟩ <;>
          rcases hblocks id2 b2 hb2 with ⟨hid2, rfl⟩ | ⟨-, hb2⟩
        . rw [hid1, hid2]
        . exact absurd hnode (Nat.ne_of_gt (h.node_lt id2 b2 hb2))
        . exact absurd hnode (Nat.ne_of_lt (h.node_lt id1 b1 hb1))
        . exact h.node_inj id1 b1 id2 b2 hb1 hb2 hnode
      case rooted =>
        intro id' b hb hroot
        rcases hblocks id' b hb with ⟨-, rfl⟩ | ⟨-, hb⟩
        . rcases hplace with ⟨-, hp, he, hh⟩ | ⟨p, hp, hpn, -⟩
          . exact ⟨hp, hhash.trans he, by rw [hheight, hh]; rfl⟩
          . exact absurd (hpn.symm.trans hroot) (h.node_ne _ p hp)
        . exact h.rooted id' b hb hroot
      case linked =>
        intro id1 b id2 p hb hp hnode
        rcases hblocks id1 b hb with ⟨-, rfl⟩ | ⟨-, hb⟩ <;> rcases hblocks id2 p hp with ⟨-, rfl⟩ | ⟨-, hp⟩
        . exact absurd hnode (Nat.ne_of_lt hparent_lt)
        . rcases hplace with ⟨hq, -⟩ | ⟨q, hq, hqn, he, hh⟩
          . exact absurd (hnode.symm.trans hq) (h.node_ne id2 p hp)
          . have hsame := h.node_inj _ q id2 p hq hp (hqn.symm.trans hnode)
            subst hsame
            rw [hq] at hp
            cases hp
            exact ⟨(h.block_id hq).symm, hhash.trans he, by rw [hheight, hh]⟩
        . exact absurd hnode (Nat.ne_of_lt (h.parent_lt id1 b hb))
        . exact h.linked id1 b id2 p hb hp hnode

theorem lookup_decided (h : s.Tree) (hb : s.cons.blocks id = some b) (id' : ID)
    : (s.recs.erase b.c.id).lookup id' = if id' = id then none else s.recs.lookup id' := by
  rw [h.block_id hb]
  apply AListMap.lookup_erase

theorem accept (h : s.Tree) (hacc : s.cons.accept id = some (c, cons)) : ({ s with cons }.onAccept c).Tree := by
  unfold Topological.accept at hacc
  split at hacc
  . cases hacc
  . next b hb =>
    split at hacc
    . cases hacc
      have hlookup : ∀ id' r, (s.onAccept b.c).recs.lookup id' = some r → id' ≠ id ∧ s.recs.lookup id' = some r := by
        intro id' r hr
        simp only [onAccept, AListMap.lookup_keep, filter_eq_some_iff, h.lookup_decided hb, ite_none_left_eq_some] at hr
        exact hr.1
      have hblocks : ∀ id' b', update s.cons.blocks id none id' = some b' →
          id' ≠ id ∧ s.cons.blocks id' = some b' := by
        intro id' b' hb'
        rwa [update_apply, ite_none_left_eq_some] at hb'
      constructor
      case keyed =>
        intro id' r hr
        exact h.keyed id' r (hlookup id' r hr).2
      case pos =>
        intro id' r hr
        exact h.pos id' r (hlookup id' r hr).2
      case top => exact (h.block_id hb).symm
      case issued =>
        intro id' c'
        simp only [onAccept, AListMap.lookup_keep, h.lookup_decided hb, update_apply]
        split
        . simp
        . rw [h.issued id' c', filter_eq_some_iff]
          simp
      case root_lt => exact h.node_lt id b hb
      case node_lt =>
        intro id' b' hb'
        exact h.node_lt id' b' (hblocks id' b' hb').2
      case parent_lt =>
        intro id' b' hb'
        exact h.parent_lt id' b' (hblocks id' b' hb').2
      case node_ne =>
        intro id' b' hb' hnode
        have hb' := hblocks id' b' hb'
        exact hb'.1 (h.node_inj id' b' id b hb'.2 hb hnode)
      case node_inj =>
        intro id1 b1 id2 b2 hb1 hb2
        exact h.node_inj id1 b1 id2 b2 (hblocks id1 b1 hb1).2 (hblocks id2 b2 hb2).2
      case rooted =>
        intro id' b' hb' hroot
        exact h.linked id' b' id b (hblocks id' b' hb').2 hb hroot
      case linked =>
        intro id1 b1 id2 p hb1 hp
        exact h.linked id1 b1 id2 p (hblocks id1 b1 hb1).2 (hblocks id2 p hp).2
    . cases hacc

theorem reject (h : s.Tree) (hrej : s.cons.reject id = some (c, cons)) : ({ s with cons }.onReject c).Tree := by
  unfold Topological.reject at hrej
  split at hrej
  . cases hrej
  . next b hb =>
    cases hrej
    have hlookup : ∀ id' r, (s.onReject b.c).recs.lookup id' = some r → id' ≠ id ∧ s.recs.lookup id' = some r := by
      intro id' r hr
      rwa [onReject, h.lookup_decided hb, ite_none_left_eq_some] at hr
    have hblocks : ∀ id' b', update s.cons.blocks id none id' = some b' →
        id' ≠ id ∧ s.cons.blocks id' = some b' := by
      intro id' b' hb'
      rwa [update_apply, ite_none_left_eq_some] at hb'
    constructor
    case keyed =>
      intro id' r hr
      exact h.keyed id' r (hlookup id' r hr).2
    case pos =>
      intro id' r hr
      exact h.pos id' r (hlookup id' r hr).2
    case top => exact h.top
    case issued =>
      intro id' c'
      simp only [onReject, h.lookup_decided hb, update_apply]
      split
      . simp
      . exact h.issued id' c'
    case root_lt => exact h.root_lt
    case node_lt =>
      intro id' b' hb'
      exact h.node_lt id' b' (hblocks id' b' hb').2
    case parent_lt =>
      intro id' b' hb'
      exact h.parent_lt id' b' (hblocks id' b' hb').2
    case node_ne =>
      intro id' b' hb'
      exact h.node_ne id' b' (hblocks id' b' hb').2
    case node_inj =>
      intro id1 b1 id2 b2 hb1 hb2
      exact h.node_inj id1 b1 id2 b2 (hblocks id1 b1 hb1).2 (hblocks id2 b2 hb2).2
    case rooted =>
      intro id' b' hb'
      exact h.rooted id' b' (hblocks id' b' hb').2
    case linked =>
      intro id1 b1 id2 p hb1 hp
      exact h.linked id1 b1 id2 p (hblocks id1 b1 hb1).2 (hblocks id2 p hp).2

theorem move {s' : Chain} (h : s.Tree) (hmove : Move s s') : s'.Tree := by
  cases hmove with
  | insert c hknown => exact h.insert hknown
  | tried _ h' =>
    cases h' with
    | wait c => exact h.wait c
    | drop id r _ _ hr hissued => exact h.drop hr hissued
    | issue id r cons _ _ hr _ hparent hlink hadd => exact h.issue hr hparent hlink.1 hlink.2 hadd
    | fail err => exact h.fail err
  | accept id c cons hacc => exact h.accept hacc
  | reject id c cons hrej => exact h.reject hrej

theorem moves {s' : Chain} (h : s.Tree) (hmoves : Moves s s') : s'.Tree := by
  induction hmoves with
  | refl => exact h
  | tail _ hmove ih => exact ih.move hmove

end Tree

end Chain

end EpochDB.Fetch.Consensus
