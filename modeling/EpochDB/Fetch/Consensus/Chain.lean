import EpochDB.Fetch.Queue
import EpochDB.Lib.AListMap
import EpochDB.Lib.Transition

/-!
The blocks of the consensus follower (`fetch/consensus/engine.go`): the containers it keeps, those that
wait for a parent, and the consensus object they are issued to.
-/

namespace EpochDB.Fetch.Consensus

structure Container where
  id : ID
  parentID : ID
  height : UInt64
  ethHash : ID
  ethParentHash : ID
  deriving DecidableEq

def Follows (a b : Container) : Prop :=
  b.parentID = a.id ∧ b.ethParentHash = a.ethHash ∧ b.height.toNat = a.height.toNat + 1

structure Block where
  c : Container
  node : Nat
  parent : Nat
  deriving DecidableEq

/--
What the engine relies on of `snowman.Topological`: a tree of processing blocks below the last accepted
one. Which blocks it decides on, and when, is left open.
-/
structure Topological where
  lastAccepted : ID
  root : Nat
  blocks : ID → Option Block
  next : Nat
  numProcessing : Nat

namespace Topological

def ofAnchor (anchor : ID) : Topological := ⟨anchor, 0, fun _ => none, 1, 0⟩

def processing (t : Topological) (id : ID) : Bool := (t.blocks id).isSome

def nodeOf (t : Topological) (id : ID) : Option Nat :=
  if id = t.lastAccepted then some t.root else (t.blocks id).map (·.node)

def add (t : Topological) (c : Container) : Except String Topological :=
  if t.processing c.id then
    .error "duplicate block add"
  else
    match t.nodeOf c.parentID with
    | none => .error "unknown parent block"
    | some parent =>
      .ok { t with
        blocks := Function.update t.blocks c.id (some ⟨c, t.next, parent⟩)
        next := t.next + 1
        numProcessing := t.numProcessing + 1 }

def accept (t : Topological) (id : ID) : Option (Container × Topological) :=
  match t.blocks id with
  | none => none
  | some b =>
    if b.parent = t.root then
      some (b.c, { t with
        lastAccepted := id
        root := b.node
        blocks := Function.update t.blocks id none
        numProcessing := t.numProcessing - 1 })
    else
      none

def reject (t : Topological) (id : ID) : Option (Container × Topological) :=
  match t.blocks id with
  | none => none
  | some b =>
    some (b.c, { t with blocks := Function.update t.blocks id none, numProcessing := t.numProcessing - 1 })

end Topological

inductive Decision where
  | accept (id : ID) (err : Option String)
  | reject (id : ID)

inductive Fatal where
  | add (id : ID) (err : String)
  | recordPoll (err : String)
  | goLive (err : String)

structure Rec where
  c : Container
  issued : Bool
  deriving DecidableEq

structure Chain where
  cons : Topological
  recs : AList (fun _ : ID => Rec)
  pendingByPa : ID → List ID
  lastAcceptedID : ID
  lastAcceptedHeight : UInt64
  lastAcceptedEthHash : ID
  fatal : Option Fatal
  anchored : List Container
  accepted : List Container

namespace Chain

def fail (s : Chain) (err : Fatal) : Chain := { s with fatal := s.fatal.or (some err) }

def parentOf (s : Chain) (parentID : ID) : Option (ID × UInt64) :=
  if parentID = s.lastAcceptedID then
    some (s.lastAcceptedEthHash, s.lastAcceptedHeight)
  else
    match s.recs.lookup parentID with
    | none => none
    | some pr => if pr.issued then some (pr.c.ethHash, pr.c.height) else none

def wait (s : Chain) (c : Container) : Chain :=
  { s with pendingByPa := Function.update s.pendingByPa c.parentID (s.pendingByPa c.parentID ++ [c.id]) }

def drop (s : Chain) (c : Container) : Chain := { s with recs := s.recs.erase c.id }

def issue (s : Chain) (c : Container) (cons : Topological) : Chain :=
  { s with
    cons
    recs := s.recs.insert c.id ⟨c, true⟩
    pendingByPa := Function.update s.pendingByPa c.id [] }

def tryIssue : Nat → Chain → ID → Option Chain
  | 0, _, _ => none
  | fuel + 1, s, id =>
    match s.recs.lookup id with
    | none => some s
    | some r =>
      if r.issued then
        some s
      else
        match s.parentOf r.c.parentID with
        | none => some (s.wait r.c)
        | some (parentEthHash, parentHeight) =>
          if r.c.ethParentHash ≠ parentEthHash ∨ r.c.height ≠ parentHeight + 1 then
            some (s.drop r.c)
          else
            match s.cons.add r.c with
            | .error err => some (s.fail (.add r.c.id err))
            | .ok cons => Transition.run (tryIssue fuel) (s.issue r.c cons) (s.pendingByPa r.c.id)

def known (s : Chain) (c : Container) : Bool :=
  (s.recs.lookup c.id).isSome || c.id = s.lastAcceptedID || c.height ≤ s.lastAcceptedHeight

def insert (s : Chain) (c : Container) : Chain := { s with recs := s.recs.insert c.id ⟨c, false⟩ }

def added (s : Chain) (c : Container) : Option Chain :=
  tryIssue ((s.insert c).recs.entries.length + 1) (s.insert c) c.id

def onAccept (s : Chain) (c : Container) : Chain :=
  { s with
    lastAcceptedID := c.id
    lastAcceptedHeight := c.height
    lastAcceptedEthHash := c.ethHash
    recs := AListMap.keep (fun _ o => o.issued || c.height < o.c.height) (s.recs.erase c.id)
    accepted := c :: s.accepted }

def onReject (s : Chain) (c : Container) : Chain :=
  { s with recs := s.recs.erase c.id, pendingByPa := Function.update s.pendingByPa c.id [] }

def recordPolls (s : Chain) : List Decision → Chain
  | [] => s
  | .accept id err :: ds =>
    match s.cons.accept id with
    | none => s.recordPolls ds
    | some (c, cons) =>
      let s := { s with cons }.onAccept c
      match err with
      | none => s.recordPolls ds
      | some err => s.fail (.recordPoll err)
  | .reject id :: ds =>
    match s.cons.reject id with
    | none => s.recordPolls ds
    | some (c, cons) => ({ s with cons }.onReject c).recordPolls ds

end Chain

end EpochDB.Fetch.Consensus
