import EpochDB.Fetch.Consensus.Finality

/-!
The anchor the follower starts from: enough draws of one poll named it.
-/

namespace EpochDB.Fetch.Consensus

open List Function

def Happening.isBootstrapPoll : Happening → Bool
  | .bootstrapPoll _ _ => true
  | _ => false

def Named (later : List Happening) (requestID : UInt32) (node : NodeID) (id : ID) : Prop :=
  ∃ c, .chits c ∈ later ∧ c.nodeID = node ∧ c.requestID = requestID ∧ c.accepted = id

structure LastPoll (history later : List Happening) (requestID : UInt32) (sample : List NodeID) : Prop where
  split : ∃ earlier, history = later ++ .bootstrapPoll requestID sample :: earlier
  last : ∀ x ∈ later, x.isBootstrapPoll = false

theorem LastPoll.extend {history later : List Happening} {requestID : UInt32} {sample : List NodeID}
    (h : LastPoll history later requestID sample) {xs : List Happening} (hxs : ∀ x ∈ xs, x.isBootstrapPoll = false)
    : LastPoll (xs ++ history) (xs ++ later) requestID sample := by
  obtain ⟨earlier, hsplit⟩ := h.split
  refine ⟨⟨earlier, by rw [hsplit, append_assoc]⟩, ?_⟩
  intro x hx
  rcases mem_append.1 hx with hx | hx
  . exact hxs x hx
  . exact h.last x hx

theorem Named.extend {later : List Happening} {requestID : UInt32} {node : NodeID} {id : ID}
    (h : Named later requestID node id) (xs : List Happening) : Named (xs ++ later) requestID node id := by
  obtain ⟨c, hc, hrest⟩ := h
  exact ⟨c, mem_append_right xs hc, hrest⟩

def Backed (alpha : Nat) (history : List Happening) (anchor : ID) : Prop :=
  ∃ (later : List Happening) (requestID : UInt32) (sample voters : List NodeID),
    LastPoll history later requestID sample
    ∧ voters.Nodup
    ∧ (∀ v ∈ voters, v ∈ sample ∧ Named later requestID v anchor)
    ∧ alpha ≤ (voters.map sample.count).sum

theorem Backed.extend {alpha : Nat} {history : List Happening} {anchor : ID} (h : Backed alpha history anchor)
    {xs : List Happening} (hxs : ∀ x ∈ xs, x.isBootstrapPoll = false) : Backed alpha (xs ++ history) anchor := by
  obtain ⟨later, requestID, sample, voters, hpoll, hnodup, hvoters, halpha⟩ := h
  refine ⟨xs ++ later, requestID, sample, voters, hpoll.extend hxs, hnodup, ?_, halpha⟩
  intro v hv
  exact ⟨(hvoters v hv).1, (hvoters v hv).2.extend xs⟩

def tally (sample voters : List NodeID) (choice : NodeID → ID) (id : ID) : Nat :=
  ((voters.filter (fun v => choice v = id)).map sample.count).sum

theorem tally_vote (sample voters : List NodeID) (choice : NodeID → ID) (v : NodeID) (accepted id : ID) (hv : v ∉ voters)
    : tally sample (v :: voters) (update choice v accepted) id
      = tally sample voters choice id + if id = accepted then sample.count v else 0 := by
  have hsame : voters.filter (fun u => update choice v accepted u = id)
      = voters.filter (fun u => choice u = id) := by
    apply filter_congr
    intro u hu
    have hne : u ≠ v := by
      rintro rfl
      exact hv hu
    rw [update_of_ne hne]
  unfold tally
  rw [filter_cons, hsame, update_self]
  by_cases hid : accepted = id
  . simp [hid, Nat.add_comm]
  . simp [hid, Ne.symm hid]

structure Polled (history : List Happening) (requestID : UInt32) (draws : NodeID → Nat) (voters : List NodeID)
    (votes : ID → Nat) (later : List Happening) (sample : List NodeID) (choice : NodeID → ID) : Prop where
  poll : LastPoll history later requestID sample
  draws_eq : ∀ v, draws v = sample.count v
  nodup : voters.Nodup
  voted : ∀ v ∈ voters, v ∈ sample ∧ Named later requestID v (choice v)
  votes_eq : ∀ id, votes id = tally sample voters choice id

namespace Polled

variable {history later : List Happening} {requestID : UInt32} {draws : NodeID → Nat} {voters : List NodeID}
  {votes : ID → Nat} {sample : List NodeID} {choice : NodeID → ID}

theorem extend (h : Polled history requestID draws voters votes later sample choice) (xs : List Happening)
    (hxs : ∀ x ∈ xs, x.isBootstrapPoll = false)
    : Polled (xs ++ history) requestID draws voters votes (xs ++ later) sample choice := by
  refine { h with poll := h.poll.extend hxs, voted := ?_ }
  intro v hv
  exact ⟨(h.voted v hv).1, (h.voted v hv).2.extend xs⟩

theorem vote (h : Polled history requestID draws voters votes later sample choice) {c : Chit}
    (hchit : .chits c ∈ later) (hreq : c.requestID = requestID) (hdraws : draws c.nodeID ≠ 0)
    (hnew : c.nodeID ∉ voters)
    : Polled history requestID draws (c.nodeID :: voters)
        (update votes c.accepted (votes c.accepted + draws c.nodeID)) later sample
        (update choice c.nodeID c.accepted) := by
  refine ⟨h.poll, h.draws_eq, nodup_cons.2 ⟨hnew, h.nodup⟩, ?_, ?_⟩
  . intro v hv
    rcases mem_cons.1 hv with rfl | hv
    . refine ⟨?_, c, hchit, rfl, hreq, ?_⟩
      . rw [h.draws_eq] at hdraws
        exact count_pos_iff.1 (Nat.pos_of_ne_zero hdraws)
      . rw [update_self]
    . have hne : v ≠ c.nodeID := by
        rintro rfl
        exact hnew hv
      rw [update_of_ne hne]
      exact h.voted v hv
  . intro id
    rw [tally_vote _ _ _ _ _ _ hnew, update_apply, h.draws_eq]
    split
    . next heq => rw [heq, h.votes_eq]
    . exact h.votes_eq id

theorem backed (h : Polled history requestID draws voters votes later sample choice) {alpha : Nat} {id : ID}
    (halpha : alpha ≤ votes id) : Backed alpha history id := by
  refine ⟨later, requestID, sample, voters.filter (fun v => choice v = id), h.poll, h.nodup.filter _, ?_, ?_⟩
  . intro v hv
    obtain ⟨hmem, hchoice⟩ := mem_filter.1 hv
    obtain ⟨hsample, hnamed⟩ := h.voted v hmem
    rw [of_decide_eq_true hchoice] at hnamed
    exact ⟨hsample, hnamed⟩
  . rwa [h.votes_eq] at halpha

end Polled

namespace Engine

theorem foldl_draws (vdrs : List NodeID) (m : NodeID → Nat) (v : NodeID)
    : vdrs.foldl (fun m v => update m v (m v + 1)) m v = m v + vdrs.count v := by
  induction vdrs generalizing m with
  | nil => rfl
  | cons u vdrs ih =>
    rw [foldl_cons, ih, update_apply, count_cons]
    by_cases h : v = u
    . subst h
      simp only [if_true, beq_self_eq_true]
      omega
    . have h' : ¬ u = v := Ne.symm h
      simp only [h, if_false, beq_iff_eq, h']
      omega

structure Anchors (cfg : Config) (e : Engine) : Prop where
  polling : e.phase = .pollAnchor →
    (∀ v, e.bsSample v = 0)
      ∨ ∃ later sample choice, Polled e.history e.bsReqID e.bsSample e.bsVoters e.bsVotes later sample choice
  backed : e.phase ≠ .pollAnchor → Backed cfg.alphaPreference e.history e.anchorID
  live : ∀ c, .goLive c ∈ e.history → e.phase ≠ .pollAnchor ∧ c.id = e.anchorID

namespace Anchors

variable {cfg : Config} {e e' : Engine}

theorem sendBootstrapPoll (h : e.Anchors cfg) (hphase : e.phase = .pollAnchor) (s : Sampled)
    : (e.sendBootstrapPoll s).Anchors cfg := by
  unfold Engine.sendBootstrapPoll
  split
  . exact h
  . have hpolled : Polled (.bootstrapPoll s.requestID s.vdrs :: e.history) s.requestID
        (s.vdrs.foldl (fun m v => update m v (m v + 1)) (fun _ => 0)) [] (fun _ => 0) [] s.vdrs
        (fun _ => emptyID) := by
      refine ⟨⟨⟨e.history, rfl⟩, by simp⟩, ?_, .nil, by simp, fun id => rfl⟩
      intro v
      rw [foldl_draws, Nat.zero_add]
    have hlive : ∀ c, .goLive c ∈ .bootstrapPoll s.requestID s.vdrs :: e.history →
        e.phase ≠ .pollAnchor ∧ c.id = e.anchorID := by
      intro c hc
      apply h.live c
      simpa using hc
    dsimp only
    split <;> exact ⟨fun _ => .inr ⟨_, _, _, hpolled⟩, fun hne => absurd hphase hne, hlive⟩

theorem bootstrapChit (h : e.Anchors cfg) (hphase : e.phase = .pollAnchor) (c : Chit)
    : ({ e with history := .chits c :: e.history }.bootstrapChit cfg c).Anchors cfg := by
  have hlogged : (∀ v, e.bsSample v = 0) ∨ ∃ later sample choice,
      Polled (.chits c :: e.history) e.bsReqID e.bsSample e.bsVoters e.bsVotes later sample choice
        ∧ .chits c ∈ later := by
    rcases h.polling hphase with hzero | ⟨later, sample, choice, hpolled⟩
    . exact .inl hzero
    . right
      refine ⟨.chits c :: later, sample, choice, ?_, mem_cons_self⟩
      exact hpolled.extend [.chits c] (by simp [Happening.isBootstrapPoll])
  have hlive : ∀ c', .goLive c' ∈ Happening.chits c :: e.history → e.phase ≠ .pollAnchor ∧ c'.id = e.anchorID := by
    intro c' hc'
    apply h.live c'
    simpa using hc'
  have hnolive : ∀ c', .goLive c' ∉ Happening.chits c :: e.history := fun c' hc' => (hlive c' hc').1 hphase
  unfold Engine.bootstrapChit
  dsimp only
  split
  . refine ⟨fun _ => ?_, fun hne => absurd hphase hne, hlive⟩
    rcases hlogged with hzero | ⟨later, sample, choice, hpolled, -⟩
    . exact .inl hzero
    . exact .inr ⟨later, sample, choice, hpolled⟩
  . next hcounts =>
    rw [not_or, not_or, not_ne_iff] at hcounts
    obtain ⟨hreq, hdraws, hnew⟩ := hcounts
    rcases hlogged with hzero | ⟨later, sample, choice, hpolled, hchit⟩
    . exact absurd (hzero c.nodeID) hdraws
    . have hvoted := hpolled.vote hchit hreq hdraws hnew
      split
      . exact ⟨fun _ => .inr ⟨_, _, _, hvoted⟩, fun hne => absurd hphase hne, hlive⟩
      . next halpha =>
        refine ⟨?_, fun _ => hvoted.backed (Nat.le_of_not_lt halpha), ?_⟩
        . intro hget
          cases hget
        . intro c' hc'
          exact absurd hc' (hnolive c')

theorem later (h : e.Anchors cfg) (xs : List Happening) (hphase : e.phase ≠ .pollAnchor)
    (hphase' : e'.phase ≠ .pollAnchor) (hanchor : e'.anchorID = e.anchorID) (hhistory : e'.history = xs ++ e.history)
    (hpolls : ∀ x ∈ xs, x.isBootstrapPoll = false) (hlive : ∀ c, .goLive c ∈ xs → c.id = e.anchorID)
    : e'.Anchors cfg := by
  refine ⟨fun hpoll => absurd hpoll hphase', ?_, ?_⟩
  . intro _
    rw [hhistory, hanchor]
    exact (h.backed hphase).extend hpolls
  . intro c hc
    refine ⟨hphase', ?_⟩
    rw [hanchor]
    rw [hhistory] at hc
    rcases mem_append.1 hc with hc | hc
    . exact hlive c hc
    . exact (h.live c hc).2

theorem runs (h : e.Anchors cfg) (hphase : e.phase ≠ .pollAnchor) (hruns : e.Runs e') : e'.Anchors cfg := by
  obtain ⟨xs, hxs, hpolling⟩ := hruns.history
  apply h.later xs hphase (by rwa [hruns.phase]) hruns.anchorID hxs
  . intro x hx
    have := hpolling x hx
    cases x <;> first | rfl | cases this
  . intro c hc
    have := hpolling _ hc
    cases this

theorem goLive (h : e.Anchors cfg) (hphase : e.phase = .anchorGet) {c : Container} (hid : c.id = e.anchorID) {w : World}
    (hlive : e.goLive cfg c w = some e') : e'.Anchors cfg := by
  have hne : e.phase ≠ .pollAnchor := by
    rw [hphase]
    decide
  have hpolls : ∀ x ∈ [Happening.goLive c], x.isBootstrapPoll = false := by simp [Happening.isBootstrapPoll]
  have honly : ∀ c', .goLive c' ∈ [Happening.goLive c] → c'.id = e.anchorID := by
    intro c' hc'
    cases mem_singleton.1 hc'
    exact hid
  unfold Engine.goLive at hlive
  dsimp only at hlive
  split at hlive
  . cases hlive
    exact h.later [.goLive c] hne hne rfl rfl hpolls honly
  . split at hlive
    . cases hlive
      exact h.later [.goLive c] hne (by simp) rfl rfl hpolls honly
    . refine runs ?_ ?_ (sendOnePoll_runs hlive)
      . exact h.later [.goLive c] hne (by simp) rfl rfl hpolls honly
      . simp

theorem step (h : e.Anchors cfg) {ev : Event} (hstep : e.step cfg ev = some e') : e'.Anchors cfg := by
  cases step_steps hstep with
  | idle outcomes => exact ⟨h.polling, h.backed, h.live⟩
  | ignoredChits c outcomes hphase =>
    have hne : e.phase ≠ .pollAnchor := by
      rw [hphase]
      decide
    exact h.later [.chits c] hne hne rfl rfl (by simp [Happening.isBootstrapPoll]) (by simp)
  | bootstrapPoll s outcomes hphase =>
    exact sendBootstrapPoll (e := { e with outcomes }) ⟨h.polling, h.backed, h.live⟩ hphase s
  | bootstrapChit c outcomes hphase =>
    exact bootstrapChit (e := { e with outcomes }) ⟨h.polling, h.backed, h.live⟩ hphase c
  | goLive _ c w hphase hid hlive =>
    exact goLive (e := { e with outcomes := w.outcomes }) ⟨h.polling, h.backed, h.live⟩ hphase hid hlive
  | live _ chits outcomes hphase hruns =>
    have hne : e.phase ≠ .pollAnchor := by
      rw [hphase]
      decide
    refine runs ?_ ?_ hruns
    . exact h.later (chits.map .chits) hne hne rfl rfl (by simp [Happening.isBootstrapPoll]) (by simp)
    . exact hne

end Anchors

theorem anchors_new (cfg : Config) : new.Anchors cfg :=
  ⟨fun _ => .inl (fun _ => rfl), fun h => absurd rfl h, fun c hc => by simp [new] at hc⟩

/--
In every run the anchor was named by distinct nodes of the sample of one poll that make up an alpha of its draws,
and consensus starts at a container with that id.
-/
theorem anchor_backed (cfg : Config) {e : Engine} (h : Transition.Reachable (Engine.step cfg) (fun _ _ => True) new e)
    : (e.phase ≠ .pollAnchor → Backed cfg.alphaPreference e.history e.anchorID)
      ∧ ∀ c, .goLive c ∈ e.history → c.id = e.anchorID ∧ Backed cfg.alphaPreference e.history c.id := by
  have hinv : e.Anchors cfg := h.invariant (anchors_new cfg) (fun _ _ _ hi _ hstep => hi.step hstep)
  refine ⟨hinv.backed, ?_⟩
  intro c hc
  obtain ⟨hphase, hid⟩ := hinv.live c hc
  refine ⟨hid, ?_⟩
  rw [hid]
  exact hinv.backed hphase

def secondPoll : List Event :=
  [.tick (worldAt 2000 [sampleAt 1 2000] []),
    .onChits ⟨.fill 20 2, 1, .fill 32 9, .fill 32 9, .fill 32 9⟩ (worldAt 2100 [] []),
    .tick (worldAt 4000 [sampleAt 2 4000] []),
    .onChits ⟨.fill 20 1, 1, .fill 32 9, .fill 32 9, .fill 32 9⟩ (worldAt 4100 [] []),
    .onChits ⟨.fill 20 3, 2, .fill 32 9, .fill 32 9, .fill 32 9⟩ (worldAt 4100 [] []),
    .onChits ⟨.fill 20 2, 2, .fill 32 10, .fill 32 10, .fill 32 10⟩ (worldAt 4200 [] []),
    .onChits ⟨.fill 20 2, 2, .fill 32 10, .fill 32 10, .fill 32 10⟩ (worldAt 4200 [] []),
    .onChits ⟨.fill 20 1, 2, .fill 32 10, .fill 32 10, .fill 32 10⟩ (worldAt 4300 [] []),
    .onContainer [9, 8, 9, 109, 108] (worldAt 4400 [] []),
    .onContainer [10, 9, 10, 110, 109] (worldAt 4500 [] [])]

theorem anchor_backed_secondPoll
    : ∃ e, Transition.run (Engine.step twoNodes) new secondPoll = some e ∧ e.phase = .live ∧ e.anchorID = .fill 32 10
        ∧ Backed 2 e.history (.fill 32 10) := by
  have hrun : (Transition.run (Engine.step twoNodes) new secondPoll).map (fun e => (e.phase, e.anchorID))
      = some (.live, .fill 32 10) := by decide +kernel
  obtain ⟨e, he, hobs⟩ := Option.map_eq_some_iff.1 hrun
  rw [Prod.mk.injEq] at hobs
  have hbacked := (anchor_backed twoNodes (Transition.Reachable.init.run (fun _ _ _ => trivial) he)).1
  rw [hobs.1, hobs.2] at hbacked
  exact ⟨e, he, hobs.1, hobs.2, hbacked (by decide)⟩

end Engine

end EpochDB.Fetch.Consensus
