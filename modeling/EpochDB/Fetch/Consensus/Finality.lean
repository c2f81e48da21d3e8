import EpochDB.Fetch.Consensus.Live

/-!
The follower accepts one linked chain, and no container it knows waits longer than it has to.
-/

namespace EpochDB.Fetch.Consensus

open Transition

namespace Chain

theorem Act.moves {s s' : Chain} (h : Act s s') : Moves s s' := by
  cases h with
  | added _ c hknown hadded =>
    apply Relation.ReflTransGen.head (.insert s c hknown)
    exact tryIssue_moves hadded
  | record ds => apply recordPolls_moves

def LastIs (s : Chain) (c : Container) : Prop :=
  c.id = s.lastAcceptedID ∧ c.ethHash = s.lastAcceptedEthHash ∧ c.height = s.lastAcceptedHeight

structure Final (s : Chain) (a : Container) : Prop where
  anchored : s.anchored = [a]
  chain : (s.accepted ++ [a]).IsChain (flip Follows)
  last : ∃ c ∈ (s.accepted ++ [a]).head?, s.LastIs c

namespace Final

variable {s s' : Chain} {a : Container}

theorem accept (htree : s.Tree) (h : s.Final a) {id : ID} {c : Container} {cons : Topological}
    (hacc : s.cons.accept id = some (c, cons)) : ({ s with cons }.onAccept c).Final a := by
  unfold Topological.accept at hacc
  split at hacc
  . cases hacc
  . next b hb =>
    split at hacc
    . next hroot =>
      cases hacc
      obtain ⟨last, hlast, hid, hhash, hheight⟩ := h.last
      obtain ⟨hparent, heth, hsucc⟩ := htree.rooted id b hb hroot
      have hpos : b.c.height ≠ 0 := htree.pos id _ (htree.block hb)
      have hfollows : Follows last b.c := by
        refine ⟨hparent.trans hid.symm, heth.trans hhash.symm, ?_⟩
        rw [hheight]
        exact toNat_succ hsucc hpos
      refine ⟨h.anchored, ?_, b.c, rfl, rfl, rfl, rfl⟩
      apply List.IsChain.cons h.chain
      intro c hc
      rw [hlast] at hc
      cases hc
      exact hfollows
    . cases hacc

theorem move (htree : s.Tree) (h : s.Final a) (hmove : Move s s') : s'.Final a := by
  cases hmove with
  | accept id c cons hacc => exact h.accept htree hacc
  | tried _ htry => cases htry <;> exact { h with }
  | insert | reject => exact { h with }

theorem moves (htree : s.Tree) (h : s.Final a) (hmoves : Moves s s') : s'.Final a := by
  induction hmoves with
  | refl => exact h
  | tail hbefore hmove ih => exact ih.move (htree.moves hbefore) hmove

end Final

structure Sound (s : Chain) : Prop where
  tree : s.Tree
  waits : s.Waits []
  final : ∃ a, s.Final a

theorem Sound.act {s s' : Chain} (h : s.Sound) (hact : Act s s') : s'.Sound := by
  obtain ⟨a, ha⟩ := h.final
  refine ⟨h.tree.moves hact.moves, ?_, a, ha.moves h.tree hact.moves⟩
  cases hact with
  | added _ c hknown hadded => exact added_waits h.tree h.waits hknown hadded
  | record ds => exact recordPolls_waits h.tree h.waits ds

theorem Sound.acts {s s' : Chain} (h : s.Sound) (hacts : Acts s s') : s'.Sound := by
  induction hacts with
  | refl => exact h
  | tail _ hact ih => exact ih.act hact

structure Unanchored (s : Chain) : Prop where
  recs : s.recs = ∅
  anchored : s.anchored = []
  accepted : s.accepted = []

end Chain

namespace Engine

def Inv (e : Engine) : Prop :=
  (e.phase ≠ .live ∧ e.toChain.Unanchored) ∨ (e.phase = .live ∧ e.toChain.Sound)

theorem sendBootstrapPoll_frame (e : Engine) (s : Sampled)
    : (e.sendBootstrapPoll s).toChain = e.toChain ∧ (e.sendBootstrapPoll s).phase = e.phase := by
  unfold sendBootstrapPoll
  dsimp only
  split
  . exact ⟨rfl, rfl⟩
  . split <;> exact ⟨rfl, rfl⟩

theorem bootstrapChit_frame (cfg : Config) (e : Engine) (c : Chit)
    : (e.bootstrapChit cfg c).toChain = e.toChain
      ∧ ((e.bootstrapChit cfg c).phase = e.phase ∨ (e.bootstrapChit cfg c).phase = .anchorGet) := by
  unfold bootstrapChit
  dsimp only
  split
  . exact ⟨rfl, .inl rfl⟩
  . split
    . exact ⟨rfl, .inl rfl⟩
    . exact ⟨rfl, .inr rfl⟩

theorem sound_ofAnchor {s : Chain} {a : Container} (h : s.Unanchored)
    : { s with
        cons := .ofAnchor a.id
        lastAcceptedID := a.id
        lastAcceptedHeight := a.height
        lastAcceptedEthHash := a.ethHash
        anchored := a :: s.anchored : Chain }.Sound := by
  obtain ⟨hrecs, hanchored, haccepted⟩ := h
  refine ⟨?_, ?_, a, ?_⟩
  . constructor <;> simp [Topological.ofAnchor, hrecs]
  . intro id r hr
    simp [hrecs] at hr
  . refine ⟨by simp [hanchored], by simp [haccepted], a, by simp [haccepted], rfl, rfl, rfl⟩

theorem goLive_inv {cfg : Config} {e e' : Engine} {c : Container} {w : World} (hphase : e.phase = .anchorGet)
    (h : e.toChain.Unanchored) (hlive : e.goLive cfg c w = some e') : e'.Inv := by
  unfold goLive at hlive
  dsimp only at hlive
  split at hlive
  . cases hlive
    left
    refine ⟨by simp [hphase], ⟨h.recs, h.anchored, h.accepted⟩⟩
  . have hsound := sound_ofAnchor (a := c) h
    right
    split at hlive
    . cases hlive
      refine ⟨rfl, ?_⟩
      obtain ⟨a, ha⟩ := hsound.final
      exact ⟨hsound.tree.fail _, hsound.waits, a, { ha with }⟩
    . have hruns := sendOnePoll_runs hlive
      exact ⟨hruns.phase, hsound.acts hruns.acts⟩

theorem inv_step {cfg : Config} {e e' : Engine} {ev : Event} (h : e.Inv) (hstep : e.step cfg ev = some e') : e'.Inv := by
  cases step_steps hstep with
  | idle => exact h
  | ignoredChits => exact h
  | bootstrapPoll s outcomes hphase =>
    obtain ⟨hchain, hsame⟩ := sendBootstrapPoll_frame { e with outcomes } s
    unfold Inv
    rw [hchain, hsame]
    exact h
  | bootstrapChit c outcomes hphase =>
    obtain ⟨hchain, hsame⟩ := bootstrapChit_frame cfg { e with outcomes, history := .chits c :: e.history } c
    rcases h with ⟨hne, hun⟩ | ⟨hlive, -⟩
    . left
      rw [hchain]
      refine ⟨?_, hun⟩
      rcases hsame with hsame | hsame
      . rw [hsame]
        exact hne
      . simp [hsame]
    . rw [hphase] at hlive
      cases hlive
  | goLive _ c w hphase hid hlive =>
    rcases h with ⟨-, hun⟩ | ⟨hphase', -⟩
    . exact goLive_inv (e := { e with outcomes := w.outcomes }) hphase hun hlive
    . rw [hphase] at hphase'
      cases hphase'
  | live _ chits outcomes hphase hruns =>
    rcases h with ⟨hne, -⟩ | ⟨-, hsound⟩
    . exact absurd hphase hne
    . exact .inr ⟨hruns.phase.trans hphase, hsound.acts hruns.acts⟩

theorem inv_new : new.Inv := .inl ⟨by simp [new], rfl, rfl, rfl⟩

theorem inv_of_reachable {cfg : Config} {e : Engine} (h : Reachable (step cfg) (fun _ _ => True) new e) : e.Inv :=
  h.invariant inv_new (fun _ _ _ hi _ hstep => inv_step hi hstep)

def fiveByteContainer : Bytes → Except String Container
  | [id, parentID, height, ethHash, ethParentHash] =>
    .ok ⟨.fill 32 id, .fill 32 parentID, height.toUInt64, .fill 32 ethHash, .fill 32 ethParentHash⟩
  | _ => .error "rlp: unexpected EOF"

def twoNodes : Config where
  parse := fiveByteContainer
  alphaPreference := 2
  concurrentRepolls := 16
  pollInterval := 100
  idlePollInterval := 1000
  pollTimeout := 10000

def sampleAt (requestID : UInt32) (now : Nat) : Sampled :=
  ⟨[.fill 20 1, .fill 20 2, .fill 20 1], requestID, fun _ => true, true, 0, now⟩

def worldAt (now : Nat) (samples : List Sampled) (outcomes : List (List Decision)) : World :=
  ⟨now, none, none, outcomes, samples, [], []⟩

def toLive : List Event :=
  [.tick (worldAt 2000 [sampleAt 1 2000] []),
    .onChits ⟨.fill 20 1, 1, .fill 32 10, .fill 32 10, .fill 32 10⟩ (worldAt 2100 [] []),
    .onContainer [10, 9, 10, 110, 109] (worldAt 2200 [sampleAt 2 2200] [])]

/--
In every run the accepted containers form one chain that continues the anchor without a gap.
-/
theorem accepted_chain (cfg : Config) {e : Engine} (h : Reachable (step cfg) (fun _ _ => True) new e)
    : (e.anchored = [] ∧ e.accepted = [])
      ∨ ∃ anchor, e.anchored = [anchor] ∧ (anchor :: e.accepted.reverse).IsChain Follows := by
  rcases inv_of_reachable h with ⟨-, hun⟩ | ⟨-, hsound⟩
  . exact .inl ⟨hun.anchored, hun.accepted⟩
  . right
    obtain ⟨anchor, hfinal⟩ := hsound.final
    refine ⟨anchor, hfinal.anchored, ?_⟩
    have hreverse : anchor :: e.accepted.reverse = (e.accepted ++ [anchor]).reverse := by simp
    rw [hreverse, List.isChain_reverse]
    exact hfinal.chain

def outOfOrder : List Event :=
  toLive ++
    [.onContainer [12, 11, 12, 112, 111] (worldAt 2300 [] []),
      .onContainer [21, 10, 11, 121, 110] (worldAt 2300 [] []),
      .onContainer [11, 10, 11, 111, 110] (worldAt 2400 [] []),
      .onChits ⟨.fill 20 1, 2, .fill 32 12, .fill 32 11, .fill 32 10⟩
        (worldAt 2500 [] [[.accept (.fill 32 11) none, .reject (.fill 32 21), .accept (.fill 32 12) none]])]

theorem accepted_chain_outOfOrder
    : ∃ e, Transition.run (step twoNodes) new outOfOrder = some e
        ∧ e.accepted.map (·.height) = [12, 11]
        ∧ ((e.anchored = [] ∧ e.accepted = [])
          ∨ ∃ anchor, e.anchored = [anchor] ∧ (anchor :: e.accepted.reverse).IsChain Follows) := by
  have hrun : (Transition.run (step twoNodes) new outOfOrder).map (fun e => e.accepted.map (·.height))
      = some [12, 11] := by decide +kernel
  obtain ⟨e, he, hacc⟩ := Option.map_eq_some_iff.1 hrun
  exact ⟨e, he, hacc, accepted_chain twoNodes (Reachable.init.run (fun _ _ _ => trivial) he)⟩

end Engine

inductive Chain.Connected (s : Chain) : ID → Prop
  | accepted (id : ID) (r : Rec) (hr : s.recs.lookup id = some r) (hparent : r.c.parentID = s.lastAcceptedID)
    : Connected s id
  | issued (id : ID) (r : Rec) (hr : s.recs.lookup id = some r) (hissued : r.issued = true) : Connected s id
  | child (id : ID) (r : Rec) (hr : s.recs.lookup id = some r) (hparent : Connected s r.c.parentID) : Connected s id

namespace Engine

/--
A container that is not issued waits for a parent the engine does not have, and when a container arrives, it and all
that waited are issued, or dropped for a mismatch, as soon as their parents are issued, before the call returns.
-/
theorem waits_only_for_missing (cfg : Config) {e : Engine}
    (h : Reachable (step cfg) (fun _ _ => True) new e) (hlive : e.phase = .live)
    : (∀ id r, e.recs.lookup id = some r → r.issued = false →
        r.c.parentID ≠ e.lastAcceptedID ∧ ∀ p, e.recs.lookup r.c.parentID = some p → p.issued = false)
      ∧ (∀ id, e.toChain.Connected id → ∃ r, e.recs.lookup id = some r ∧ r.issued = true)
      ∧ ∀ c, e.toChain.known c = false → ∃ s, e.toChain.added c = some s ∧ s.Waits [] ∧
          ∀ id r, (e.toChain.insert c).recs.lookup id = some r → r.issued = false → s.Fate id r.c := by
  have hsound : e.toChain.Sound := by
    rcases inv_of_reachable h with ⟨hne, -⟩ | ⟨-, hsound⟩
    . exact absurd hlive hne
    . exact hsound
  have hwaits : ∀ id r, e.recs.lookup id = some r → r.issued = false →
      r.c.parentID ≠ e.lastAcceptedID ∧ ∀ p, e.recs.lookup r.c.parentID = some p → p.issued = false := by
    intro id r hr hissued
    rcases hsound.waits id r hr hissued with hmem | ⟨-, hnone⟩
    . cases hmem
    . exact Chain.parentOf_eq_none.1 hnone
  refine ⟨hwaits, ?_, ?_⟩
  . intro id hid
    induction hid with
    | accepted id r hr hparent =>
      refine ⟨r, hr, ?_⟩
      by_contra hissued
      exact (hwaits id r hr (by simpa using hissued)).1 hparent
    | issued id r hr hissued => exact ⟨r, hr, hissued⟩
    | child id r hr _ ih =>
      obtain ⟨p, hp, hpissued⟩ := ih
      refine ⟨r, hr, ?_⟩
      by_contra hissued
      have := (hwaits id r hr (by simpa using hissued)).2 p hp
      rw [hpissued] at this
      cases this
  . intro c hknown
    obtain ⟨s, hs⟩ := Chain.added_total hsound.tree hknown
    exact ⟨s, hs, Chain.added_waits hsound.tree hsound.waits hknown hs,
      fun _ _ hr hissued => Chain.added_fate hsound.tree hsound.waits hknown hs hr hissued⟩

def issued (e : Engine) : List (Option Bool) := [11, 12, 13, 15].map (fun id => (e.recs.lookup (.fill 32 id)).map (·.issued))

def missingArrives : List Event :=
  toLive ++
    [.onContainer [13, 12, 13, 113, 112] (worldAt 2300 [] []),
      .onContainer [15, 14, 15, 115, 114] (worldAt 2300 [] []),
      .onContainer [12, 11, 12, 112, 111] (worldAt 2300 [] []),
      .onContainer [11, 10, 11, 111, 110] (worldAt 2400 [] [])]

theorem waits_only_for_missing_arrives
    : ∃ e, Transition.run (step twoNodes) new missingArrives = some e
        ∧ issued e = [some true, some true, some true, some false]
        ∧ ∀ id r, e.recs.lookup id = some r → r.issued = false →
          r.c.parentID ≠ e.lastAcceptedID ∧ ∀ p, e.recs.lookup r.c.parentID = some p → p.issued = false := by
  have hrun : (Transition.run (step twoNodes) new missingArrives).map
      (fun e => (e.phase, issued e)) = some (.live, [some true, some true, some true, some false]) := by decide +kernel
  obtain ⟨e, he, hobs⟩ := Option.map_eq_some_iff.1 hrun
  rw [Prod.mk.injEq] at hobs
  have hreach : Reachable (step twoNodes) (fun _ _ => True) new e :=
    Reachable.init.run (fun _ _ _ => trivial) he
  exact ⟨e, he, hobs.2, (waits_only_for_missing twoNodes hreach hobs.1).1⟩

def mismatched : List Event :=
  toLive ++
    [.onContainer [13, 12, 13, 113, 112] (worldAt 2300 [] []), .onContainer [12, 11, 12, 112, 99] (worldAt 2300 [] [])]

/-- Container 12 is dropped when its parent 11 arrives, and 13, which waited behind it, is neither issued nor dropped. -/
theorem waits_behind_dropped
    : (Transition.run (step twoNodes) new mismatched).map issued = some [none, some false, some false, none] ∧
      (Transition.run (step twoNodes) new (mismatched ++ [.onContainer [11, 10, 11, 111, 110] (worldAt 2400 [] [])])).map
        (fun e => (e.phase, issued e)) = some (.live, [some true, none, some false, none]) := by
  decide +kernel

end Engine

end EpochDB.Fetch.Consensus
