import EpochDB.Fetch.Consensus.Engine
import EpochDB.Fetch.Consensus.Waiting

/-!
What the calls of the live phase do: to the containers, only what adding a container and recording polls do,
and to the rest, what the polls and votes do.
-/

namespace EpochDB.Fetch.Consensus

inductive Chain.Act : Chain → Chain → Prop
  | added (s s' : Chain) (c : Container) (hknown : s.known c = false) (h : s.added c = some s') : Act s s'
  | record (s : Chain) (ds : List Decision) : Act s (s.recordPolls ds)

abbrev Chain.Acts := Relation.ReflTransGen Chain.Act

def Happening.isPolling : Happening → Bool
  | .poll _ _ => true
  | .vote _ _ _ _ _ => true
  | .drop _ _ => true
  | _ => false

namespace Engine

structure Runs (e e' : Engine) : Prop where
  acts : Chain.Acts e.toChain e'.toChain
  phase : e'.phase = e.phase
  anchorID : e'.anchorID = e.anchorID
  history : ∃ hs, e'.history = hs ++ e.history ∧ ∀ x ∈ hs, x.isPolling = true

namespace Runs

variable {e e' e'' : Engine}

theorem refl (e : Engine) : e.Runs e := ⟨.refl, rfl, rfl, [], rfl, by simp⟩

theorem trans (h : e.Runs e') (h' : e'.Runs e'') : e.Runs e'' := by
  obtain ⟨hs, hhs, hpoll⟩ := h.history
  obtain ⟨hs', hhs', hpoll'⟩ := h'.history
  refine ⟨h.acts.trans h'.acts, h'.phase.trans h.phase, h'.anchorID.trans h.anchorID, hs' ++ hs, ?_, ?_⟩
  . rw [hhs', hhs, List.append_assoc]
  . intro x hx
    rcases List.mem_append.1 hx with hx | hx
    . exact hpoll' x hx
    . exact hpoll x hx

theorem run {α : Type} {f : Engine → α → Option Engine} (hf : ∀ e x e', f e x = some e' → e.Runs e') {xs : List α}
    (h : Transition.run f e xs = some e') : e.Runs e' := by
  apply Transition.run_remaining (I := fun t _ => e.Runs t) ?_ (.refl e) h
  intro t x rest t' ht hx
  exact ht.trans (hf t x t' hx)

end Runs

theorem recordPolls_runs (e : Engine) : e.Runs e.recordPolls := by
  unfold recordPolls
  split
  . exact .refl e
  . next ds outcomes _ => exact ⟨.single (.record _ ds), rfl, rfl, [], rfl, by simp⟩

theorem vote_runs (e : Engine) (v : ParkedVote) (id : ID) : e.Runs (e.vote v id) := by
  unfold vote
  apply Runs.trans ?_ (recordPolls_runs _)
  exact ⟨.refl, rfl, rfl, [.vote v.requestID v.nodeID id e.toChain (e.frontiers v.nodeID)], rfl, by simp [Happening.isPolling]⟩

theorem dropVote_runs (e : Engine) (v : ParkedVote) : e.Runs (e.dropVote v) := by
  unfold dropVote
  apply Runs.trans ?_ (recordPolls_runs _)
  exact ⟨.refl, rfl, rfl, [.drop v.requestID v.nodeID], rfl, by simp [Happening.isPolling]⟩

theorem park_runs (e : Engine) (v : ParkedVote) (blocker : ID) : e.Runs (e.park v blocker) :=
  ⟨.refl, rfl, rfl, [], rfl, by simp⟩

variable {e e' : Engine} {cfg : Config} {now : Nat} {w : World}

theorem applyVote_runs {allowPark : Bool} {v : ParkedVote} (h : applyVote allowPark e v = some e') : e.Runs e' := by
  unfold applyVote at h
  split at h
  . cases h
  . cases h
    apply vote_runs
  . cases h
    apply park_runs
  . split at h
    . cases h
      apply dropVote_runs
    . split at h
      . cases h
      . cases h
        apply vote_runs
      . cases h
        apply dropVote_runs

theorem applyVotes_runs {allowPark : Bool} {vs : List ParkedVote}
    (h : Transition.run (applyVote allowPark) e vs = some e') : e.Runs e' :=
  Runs.run (fun _ _ _ hv => applyVote_runs hv) h

theorem addContainer_runs {c : Container} (h : e.addContainer c = some e') : e.Runs e' := by
  unfold addContainer at h
  split at h
  . cases h
    exact .refl e
  . next hknown =>
    split at h
    . cases h
    . next s hadded =>
      apply Runs.trans ?_ (applyVotes_runs h)
      exact ⟨.single (.added _ s c (by simpa using hknown) hadded), rfl, rfl, [], rfl, by simp⟩

theorem sendPoll_runs {s : Sampled} {sent : Bool} (h : sendPoll cfg e s = some (e', sent)) : e.Runs e' := by
  unfold sendPoll at h
  split at h
  . cases h
    exact .refl e
  . simp only [Option.map_eq_some_iff, Prod.mk.injEq] at h
    obtain ⟨t, ht, rfl, -⟩ := h
    apply Runs.trans ?_ (applyVotes_runs ht)
    split <;> exact ⟨.refl, rfl, rfl, [.poll s.requestID s.vdrs.dedup], rfl, by simp [Happening.isPolling]⟩

theorem expirePoll_runs {requestID : UInt32} (h : expirePoll now e requestID = some e') : e.Runs e' := by
  unfold expirePoll at h
  split at h
  . cases h
    exact .refl e
  . split at h
    . cases h
      exact .refl e
    . apply Runs.trans ?_ (applyVotes_runs h)
      exact ⟨.refl, rfl, rfl, [], rfl, by simp⟩

theorem expireParkedOn_runs {id : ID} (h : expireParkedOn now e id = some e') : e.Runs e' := by
  unfold expireParkedOn at h
  apply Runs.trans ?_ (applyVotes_runs h)
  exact ⟨.refl, rfl, rfl, [], rfl, by simp⟩

theorem sendPolls_runs {ss : List Sampled} (h : e.sendPolls cfg now ss = some e') : e.Runs e' := by
  induction ss generalizing e with
  | nil =>
    cases h
    exact .refl _
  | cons s ss ih =>
    unfold sendPolls at h
    split at h
    . split at h
      . cases h
      . next e1 hsend => exact (sendPoll_runs hsend).trans (ih h)
      . next e1 hsend =>
        cases h
        exact sendPoll_runs hsend
    . cases h
      exact .refl _

theorem sendOnePoll_runs (h : e.sendOnePoll cfg w = some e') : e.Runs e' := by
  unfold sendOnePoll at h
  split at h
  . cases h
    exact .refl _
  . obtain ⟨⟨t, sent⟩, ht, rfl⟩ := Option.map_eq_some_iff.1 h
    exact sendPoll_runs ht

theorem tickLive_runs (h : e.tickLive cfg w = some e') : e.Runs e' := by
  unfold tickLive at h
  simp only [Option.bind_eq_bind, Option.bind_eq_some_iff] at h
  obtain ⟨e1, h1, e2, h2, h⟩ := h
  have hpolls : e.Runs e1 := Runs.run (fun _ _ _ hx => expirePoll_runs hx) h1
  have hparked : e1.Runs e2 := Runs.run (fun _ _ _ hx => expireParkedOn_runs hx) h2
  apply (hpolls.trans hparked).trans
  split at h
  . exact sendPolls_runs h
  . split at h
    . exact sendOnePoll_runs h
    . cases h
      exact .refl e'

theorem liveChit_runs {c : Chit} (h : e.liveChit c w = some e') : e.Runs e' := by
  unfold liveChit at h
  dsimp only at h
  split at h
  . cases h
    exact ⟨.refl, rfl, rfl, [], rfl, by simp⟩
  . split at h
    . apply Runs.trans ?_ (applyVote_runs h)
      exact ⟨.refl, rfl, rfl, [], rfl, by simp⟩
    . cases h
      exact ⟨.refl, rfl, rfl, [], rfl, by simp⟩

inductive Steps (cfg : Config) (e : Engine) : Engine → Prop
  | idle (outcomes : List (List Decision)) : Steps cfg e { e with outcomes }
  | ignoredChits (c : Chit) (outcomes : List (List Decision)) (hphase : e.phase = .anchorGet)
    : Steps cfg e { e with outcomes, history := .chits c :: e.history }
  | bootstrapPoll (s : Sampled) (outcomes : List (List Decision)) (hphase : e.phase = .pollAnchor)
    : Steps cfg e ({ e with outcomes }.sendBootstrapPoll s)
  | bootstrapChit (c : Chit) (outcomes : List (List Decision)) (hphase : e.phase = .pollAnchor)
    : Steps cfg e ({ e with outcomes, history := .chits c :: e.history }.bootstrapChit cfg c)
  | goLive (e' : Engine) (c : Container) (w : World) (hphase : e.phase = .anchorGet) (hid : c.id = e.anchorID)
      (h : { e with outcomes := w.outcomes }.goLive cfg c w = some e')
    : Steps cfg e e'
  | live (e' : Engine) (chits : List Chit) (outcomes : List (List Decision)) (hphase : e.phase = .live)
      (h : { e with outcomes, history := chits.map Happening.chits ++ e.history }.Runs e')
    : Steps cfg e e'

theorem step_steps {ev : Event} (h : e.step cfg ev = some e') : Steps cfg e e' := by
  cases ev with
  | onContainer raw w =>
    dsimp only [step] at h
    unfold onContainer at h
    split at h
    . cases h
      exact .idle _
    . split at h
      . cases h
        exact .idle _
      . next hphase =>
        split at h
        . next hid => exact .goLive e' _ w hphase hid h
        . cases h
          exact .idle _
      . next hphase => exact .live e' [] w.outcomes hphase (addContainer_runs h)
  | onChits c w =>
    dsimp only [step, onChits] at h
    split at h
    . next hphase =>
      cases h
      exact .bootstrapChit c _ hphase
    . next hphase =>
      cases h
      exact .ignoredChits c _ hphase
    . next hphase => exact .live e' [c] w.outcomes hphase (liveChit_runs h)
  | tick w =>
    dsimp only [step] at h
    unfold tick at h
    split at h
    . next hphase =>
      split at h
      . split at h
        . cases h
          exact .idle _
        . next s _ _ =>
          cases h
          exact .bootstrapPoll s _ hphase
      . cases h
        exact .idle _
    . cases h
      exact .idle _
    . next hphase => exact .live e' [] w.outcomes hphase (tickLive_runs h)

end Engine

end EpochDB.Fetch.Consensus
