import EpochDB.Fetch.Queue
import EpochDB.Lib.Tiling
import EpochDB.Lib.Transition

/-!
The forward fetch (`fetch/window.go`): how a worker builds the answer for a span out of what peers
send, and the loop that hands spans to the workers and joins their answers. Every access of the loop
to the shared queue is a step of its own, so the follower and the executor may run between any two.
-/

namespace EpochDB.Fetch

abbrev Batch := List (Option RawBlock)

structure Peers where
  seeds : List (ID × Batch)
  ancestors : List Batch

structure SpanResult extends Span where
  blocks : List RawBlock
  lo_le : ∀ b ∈ blocks, lo ≤ b.p.blockNumber
  deriving DecidableEq

def seedSpan (h : Nat) (seeds : List (ID × Batch)) : Option (ID × Batch) :=
  seeds.find? fun
    | (_, some b :: _) => b.p.blockNumber = h
    | _ => false

def walk (lo : Nat) (cur : ID) : Batch → List RawBlock × ID × Bool
  | some b :: batch =>
    if b.p.containerID ≠ cur then
      ([], cur, false)
    else if b.p.blockNumber ≤ lo then
      ([b], b.p.parentID, true)
    else
      let (blocks, cur, done) := walk lo b.p.parentID batch
      (b :: blocks, cur, done)
  | _ => ([], cur, false)

def descend (lo : Nat) (cur : ID) : List Batch → Option (List RawBlock)
  | [] => none
  | batch :: batches =>
    let (blocks, cur, done) := walk lo cur batch
    if done then some blocks else (descend lo cur batches).map (blocks ++ ·)

def fetchSpan (s : Span) (peers : Peers) : Option SpanResult :=
  -- the capacity `hi - lo + 1` of the slice wraps around here, and `make` panics
  if s.hi + 1 < s.lo then
    none
  else do
    let (cur, batch) ← seedSpan s.hi peers.seeds
    let blocks ← descend s.lo cur (batch :: peers.ancestors)
    return { s with
      blocks := blocks.reverse.filter (s.lo ≤ ·.p.blockNumber)
      lo_le := by simp }

def spanned (pending : List SpanResult) (want : Nat) : Option SpanResult × List SpanResult :=
  let pending := pending.filter (want ≤ ·.hi)
  (pending.find? (·.lo ≤ want), pending)

inductive Pc where
  | join
  | compare (r : SpanResult) (blocks : List RawBlock)
  | append (r : SpanResult) (b : RawBlock) (blocks : List RawBlock)
  | window
  | refill (head : Nat)
  | schedule (consumed : Nat)
  | select
  deriving DecidableEq

/--
The fetcher: the queue, what is known of the tip, and the variables of `forward`. The spans in flight
are those handed to a worker whose answer the loop has not taken yet.
-/
structure Forward where
  q : Queue
  tip : Nat
  ceiling : Nat
  next : Nat
  redo : List Span
  pending : List SpanResult
  inflight : List Span
  filling : Bool
  out : Option Span
  pc : Pc

def startForward (start : Nat) (anchorHash : ID) (tip ceiling : Nat) : Forward :=
  let q := newQueue (if start = 0 then 1 else start) anchorHash
  { q, tip, ceiling, next := q.head + 1, redo := [], pending := [], inflight := [], filling := true,
    out := none, pc := .join }

namespace Forward

def tipTarget (f : Forward) : Nat :=
  if f.ceiling > 0 ∧ (f.tip = 0 ∨ f.ceiling < f.tip) then f.ceiling else f.tip

def sub64 (a b : Nat) : Nat := (a + 2 ^ 64 - b) % 2 ^ 64

def join (f : Forward) : Forward :=
  match spanned f.pending (f.q.head + 1) with
  | (some r, pending) =>
    { f with pending := pending.eraseP (·.lo = r.lo), pc := .compare r r.blocks }
  | (none, pending) => { f with pending, pc := .window }

def compare (f : Forward) (r : SpanResult) : List RawBlock → Forward
  | [] => { f with pc := .join }
  | b :: blocks =>
    if b.p.blockNumber ≤ f.q.head then
      { f with pc := .compare r blocks }
    else
      { f with pc := .append r b blocks }

def append (f : Forward) (r : SpanResult) (b : RawBlock) (blocks : List RawBlock) : Forward :=
  match f.q.append b with
  | (true, q) => { f with q, pc := .compare r blocks }
  | (false, q) => { f with q, redo := f.redo ++ [⟨b.p.blockNumber, r.hi⟩], pc := .join }

def refill (f : Forward) (head : Nat) : Forward :=
  let consumed := f.q.consumed
  let next := if f.next ≤ head then head + 1 else f.next
  let filling := if sub64 head consumed < refillBelow then true else f.filling
  let filling := if next > consumed + windowBlocks then false else filling
  { f with next, filling, pc := .schedule consumed }

def schedule (f : Forward) (consumed : Nat) : Forward :=
  let target := min f.tipTarget (consumed + windowBlocks)
  if f.out = none ∧ f.filling ∧ f.q.bytes < queueMaxBytes ∧ f.inflight.length < fetchSpans then
    match f.redo with
    | job :: redo => { f with redo, out := some job, pc := .select }
    | [] =>
      if f.next ≤ target then
        let hi := min (f.next + spanBlocks - 1) target
        { f with next := hi + 1, out := some ⟨f.next, hi⟩, pc := .select }
      else
        { f with pc := .select }
  else
    { f with pc := .select }

def advance (f : Forward) : Option Forward :=
  match f.pc with
  | .join => some f.join
  | .compare r blocks => some (f.compare r blocks)
  | .append r b blocks => some (f.append r b blocks)
  | .window => some { f with pc := .refill f.q.head }
  | .refill head => some (f.refill head)
  | .schedule consumed => some (f.schedule consumed)
  | .select => none

inductive Event where
  | advance
  | handOut
  | receive (s : Span) (peers : Peers)
  | tick
  | offer (b : RawBlock)
  | getByHeight (n : Nat)
  | noteTip (h : Nat)
  | setCeiling (h : Nat)
  | close

def handOut (f : Forward) : Option Forward :=
  match f.pc, f.out with
  | .select, some job => some { f with out := none, inflight := f.inflight ++ [job], pc := .join }
  | _, _ => none

def receive (f : Forward) (s : Span) (peers : Peers) : Option Forward :=
  match f.pc with
  | .select =>
    if s ∈ f.inflight then
      (fetchSpan s peers).map fun r =>
        { f with
          inflight := f.inflight.erase s
          pending := r :: f.pending.eraseP (·.lo = r.lo)
          pc := .join }
    else
      none
  | _ => none

def tick (f : Forward) : Option Forward :=
  match f.pc with
  | .select => some { f with pc := .join }
  | _ => none

def step (f : Forward) : Event → Option Forward
  | .advance => f.advance
  | .handOut => f.handOut
  | .receive s peers => f.receive s peers
  | .tick => f.tick
  | .offer b => some { f with q := (f.q.append b).2 }
  | .getByHeight n => (f.q.getByHeight n).map fun (_, q) => { f with q }
  | .noteTip h => some { f with tip := max f.tip h }
  | .setCeiling h => some { f with ceiling := h }
  | .close => some { f with q := { f.q with closed := true } }

end Forward

end EpochDB.Fetch
