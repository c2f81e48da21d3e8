import EpochDB.Fetch.Consensus.Chain
import EpochDB.Fetch.Validators

/-!
The consensus follower (`fetch/consensus/engine.go`): the polls for an anchor, and from there on the polls,
chits and containers of the live phase. Times are in milliseconds.
-/

namespace EpochDB.Fetch.Consensus

open Function

def emptyID : ID := .fill 32 0

def requestTimeout : Nat := 10000

structure Config where
  parse : Bytes → Except String Container
  alphaPreference : Nat
  concurrentRepolls : Nat
  pollInterval : Nat
  idlePollInterval : Nat
  pollTimeout : Nat

inductive Phase where
  | pollAnchor
  | anchorGet
  | live
  deriving DecidableEq

structure PollState where
  remaining : List NodeID
  deadline : Nat
  deriving DecidableEq

structure ParkedVote where
  requestID : UInt32
  nodeID : NodeID
  options : List ID
  deadline : Nat
  deriving DecidableEq

structure Chit where
  nodeID : NodeID
  requestID : UInt32
  preferred : ID
  preferredAtHeight : ID
  accepted : ID
  deriving DecidableEq

inductive Happening where
  | bootstrapPoll (requestID : UInt32) (sample : List NodeID)
  | chits (c : Chit)
  | goLive (c : Container)
  | poll (requestID : UInt32) (nodes : List NodeID)
  | vote (requestID : UInt32) (nodeID : NodeID) (vote : ID) (seen : Chain) (frontier : Option ID)
  | drop (requestID : UInt32) (nodeID : NodeID)

structure Engine extends Chain where
  phase : Phase
  bsReqID : UInt32
  bsVotes : ID → Nat
  bsSample : NodeID → Nat
  bsVoters : List NodeID
  lastBSAt : Nat
  anchorID : ID
  pollVdrs : UInt32 → Option PollState
  parked : ID → List ParkedVote
  frontiers : NodeID → Option ID
  lastPollAt : Nat
  outcomes : List (List Decision)
  history : List Happening

structure Sampled where
  vdrs : List NodeID
  requestID : UInt32
  connected : NodeID → Bool
  added : Bool
  len : Nat
  now : Nat

/--
What happens around the engine during one call: the time, errors of going live, the decisions of consensus, the
samples, and the order in which the maps are walked.
-/
structure World where
  now : Nat
  initErr : Option String
  onAnchorErr : Option String
  outcomes : List (List Decision)
  samples : List Sampled
  pollOrder : List UInt32
  parkedOrder : List ID

def new : Engine where
  cons := .ofAnchor emptyID
  recs := ∅
  pendingByPa := fun _ => []
  lastAcceptedID := emptyID
  lastAcceptedHeight := 0
  lastAcceptedEthHash := emptyID
  fatal := none
  anchored := []
  accepted := []
  phase := .pollAnchor
  bsReqID := 0
  bsVotes := fun _ => 0
  bsSample := fun _ => 0
  bsVoters := []
  lastBSAt := 0
  anchorID := emptyID
  pollVdrs := fun _ => none
  parked := fun _ => []
  frontiers := fun _ => none
  lastPollAt := 0
  outcomes := []
  history := []

def Chain.bubbleFrom (s : Chain) : Nat → ID → Option (Except ID ID)
  | 0, _ => none
  | fuel + 1, id =>
    if id = s.lastAcceptedID ∨ s.cons.processing id then
      some (.ok id)
    else
      match s.recs.lookup id with
      | none => some (.error id)
      | some r => if r.c.height ≤ s.lastAcceptedHeight then some (.error emptyID) else s.bubbleFrom fuel r.c.parentID

def Chain.bubble (s : Chain) (id : ID) : Option (Except ID ID) := s.bubbleFrom (s.recs.entries.length + 1) id

inductive Target where
  | vote (id : ID)
  | park (blocker : ID)
  | fallback
  deriving DecidableEq

def Chain.target (s : Chain) (allowPark : Bool) (first : Bool) : List ID → Option Target
  | [] => some .fallback
  | opt :: opts =>
    match s.bubble opt with
    | none => none
    | some (.ok vote) => some (.vote vote)
    | some (.error blocker) =>
      if allowPark ∧ first ∧ blocker ≠ emptyID then some (.park blocker) else s.target allowPark false opts

namespace Engine

def recordPolls (e : Engine) : Engine :=
  match e.outcomes with
  | [] => e
  | ds :: outcomes => { e with toChain := e.toChain.recordPolls ds, outcomes }

def vote (e : Engine) (v : ParkedVote) (id : ID) : Engine :=
  { e with history := .vote v.requestID v.nodeID id e.toChain (e.frontiers v.nodeID) :: e.history }.recordPolls

def dropVote (e : Engine) (v : ParkedVote) : Engine :=
  { e with history := .drop v.requestID v.nodeID :: e.history }.recordPolls

def park (e : Engine) (v : ParkedVote) (blocker : ID) : Engine :=
  { e with parked := update e.parked blocker (e.parked blocker ++ [v]) }

def applyVote (allowPark : Bool) (e : Engine) (v : ParkedVote) : Option Engine :=
  match e.toChain.target allowPark true v.options with
  | none => none
  | some (.vote id) => some (e.vote v id)
  | some (.park blocker) => some (e.park v blocker)
  | some .fallback =>
    match e.frontiers v.nodeID with
    | none => some (e.dropVote v)
    | some fid =>
      match e.toChain.bubble fid with
      | none => none
      | some (.ok id) => some (e.vote v id)
      | some (.error _) => some (e.dropVote v)

def addContainer (e : Engine) (c : Container) : Option Engine :=
  if e.toChain.known c then
    some e
  else
    match e.toChain.added c with
    | none => none
    | some s =>
      Transition.run (applyVote false) { e with toChain := s, parked := update e.parked c.id [] } (e.parked c.id)

def absent (requestID : UInt32) (nodeID : NodeID) : ParkedVote := ⟨requestID, nodeID, [], 0⟩

def sendPoll (cfg : Config) (e : Engine) (s : Sampled) : Option (Engine × Bool) :=
  if s.vdrs = [] ∨ s.added = false then
    some (e, false)
  else
    let nodes := s.vdrs.dedup
    let targets := nodes.filter s.connected
    let disconnected := nodes.filter (fun v => !s.connected v)
    let e := { e with lastPollAt := s.now, history := .poll s.requestID nodes :: e.history }
    let e :=
      if targets = [] then
        e
      else
        { e with pollVdrs := update e.pollVdrs s.requestID (some ⟨targets, s.now + cfg.pollTimeout⟩) }
    (Transition.run (applyVote false) e (disconnected.map (absent s.requestID))).map (·, true)

def expirePoll (now : Nat) (e : Engine) (requestID : UInt32) : Option Engine :=
  match e.pollVdrs requestID with
  | none => some e
  | some ps =>
    if now < ps.deadline then
      some e
    else
      Transition.run (applyVote false) { e with pollVdrs := update e.pollVdrs requestID none }
        (ps.remaining.map (absent requestID))

def expirePolls (e : Engine) (w : World) : Option Engine := Transition.run (expirePoll w.now) e w.pollOrder

def expireParkedOn (now : Nat) (e : Engine) (id : ID) : Option Engine :=
  let expired := (e.parked id).filter (fun v => v.deadline < now)
  let kept := (e.parked id).filter (fun v => ¬ v.deadline < now)
  Transition.run (applyVote false) { e with parked := update e.parked id kept }
    (expired.map (fun v => { v with options := [] }))

def expireParked (e : Engine) (w : World) : Option Engine := Transition.run (expireParkedOn w.now) e w.parkedOrder

def sendPolls (cfg : Config) (now : Nat) (e : Engine) : List Sampled → Option Engine
  | [] => some e
  | s :: ss =>
    if s.len < cfg.concurrentRepolls ∧ e.lastPollAt + cfg.pollInterval ≤ now then
      match sendPoll cfg e s with
      | none => none
      | some (e, true) => e.sendPolls cfg now ss
      | some (e, false) => some e
    else
      some e

def sendOnePoll (cfg : Config) (e : Engine) (w : World) : Option Engine :=
  match w.samples with
  | [] => some e
  | s :: _ => (sendPoll cfg e s).map (·.1)

def tickLive (cfg : Config) (e : Engine) (w : World) : Option Engine := do
  let e ← e.expirePolls w
  let e ← e.expireParked w
  if e.cons.numProcessing > 0 then
    e.sendPolls cfg w.now w.samples
  else if e.lastPollAt + cfg.idlePollInterval ≤ w.now then
    e.sendOnePoll cfg w
  else
    some e

def sendBootstrapPoll (e : Engine) (s : Sampled) : Engine :=
  if s.vdrs = [] then
    e
  else
    let e := { e with
      bsReqID := s.requestID
      bsVotes := fun _ => 0
      bsSample := s.vdrs.foldl (fun m v => update m v (m v + 1)) (fun _ => 0)
      bsVoters := []
      history := .bootstrapPoll s.requestID s.vdrs :: e.history }
    if s.vdrs.any s.connected then { e with lastBSAt := s.now } else e

def bootstrapChit (cfg : Config) (e : Engine) (c : Chit) : Engine :=
  let draws := e.bsSample c.nodeID
  if c.requestID ≠ e.bsReqID ∨ draws = 0 ∨ c.nodeID ∈ e.bsVoters then
    e
  else
    let e := { e with
      bsVoters := c.nodeID :: e.bsVoters
      bsVotes := update e.bsVotes c.accepted (e.bsVotes c.accepted + draws) }
    if e.bsVotes c.accepted < cfg.alphaPreference then
      e
    else
      { e with anchorID := c.accepted, phase := .anchorGet }

def goLive (cfg : Config) (e : Engine) (anchor : Container) (w : World) : Option Engine :=
  let e := { e with
    lastAcceptedID := anchor.id
    lastAcceptedHeight := anchor.height
    lastAcceptedEthHash := anchor.ethHash
    history := .goLive anchor :: e.history }
  match w.initErr with
  | some err => some { e with toChain := e.toChain.fail (.goLive err) }
  | none =>
    let e := { e with cons := .ofAnchor anchor.id, phase := .live, anchored := anchor :: e.anchored }
    match w.onAnchorErr with
    | some err => some { e with toChain := e.toChain.fail (.goLive err) }
    | none => e.sendOnePoll cfg w

def onContainer (cfg : Config) (e : Engine) (raw : Bytes) (w : World) : Option Engine :=
  match cfg.parse raw with
  | .error _ => some e
  | .ok c =>
    match e.phase with
    | .pollAnchor => some e
    | .anchorGet => if c.id = e.anchorID then e.goLive cfg c w else some e
    | .live => e.addContainer c

def answer (e : Engine) (requestID : UInt32) (nodeID : NodeID) (ps : PollState) : Engine :=
  let remaining := ps.remaining.filter (· ≠ nodeID)
  { e with
    pollVdrs :=
      update e.pollVdrs requestID (if remaining = [] then none else some { ps with remaining }) }

def liveChit (e : Engine) (c : Chit) (w : World) : Option Engine :=
  let e := { e with frontiers := update e.frontiers c.nodeID (some c.accepted) }
  match e.pollVdrs c.requestID with
  | none => some e
  | some ps =>
    if c.nodeID ∈ ps.remaining then
      applyVote true (e.answer c.requestID c.nodeID ps)
        ⟨c.requestID, c.nodeID, [c.preferred, c.preferredAtHeight], w.now + requestTimeout⟩
    else
      some e

def onChits (cfg : Config) (e : Engine) (c : Chit) (w : World) : Option Engine :=
  let e := { e with history := .chits c :: e.history }
  match e.phase with
  | .pollAnchor => some (e.bootstrapChit cfg c)
  | .anchorGet => some e
  | .live => e.liveChit c w

def tick (cfg : Config) (e : Engine) (w : World) : Option Engine :=
  match e.phase with
  | .pollAnchor =>
    if e.lastBSAt + 2000 ≤ w.now then
      match w.samples with
      | [] => some e
      | s :: _ => some (e.sendBootstrapPoll s)
    else
      some e
  | .anchorGet => some e
  | .live => e.tickLive cfg w

end Engine

inductive Event where
  | onContainer (raw : Bytes) (w : World)
  | onChits (c : Chit) (w : World)
  | tick (w : World)

def Engine.step (cfg : Config) (e : Engine) : Event → Option Engine
  | .onContainer raw w => { e with outcomes := w.outcomes }.onContainer cfg raw w
  | .onChits c w => { e with outcomes := w.outcomes }.onChits cfg c w
  | .tick w => { e with outcomes := w.outcomes }.tick cfg w

end EpochDB.Fetch.Consensus
