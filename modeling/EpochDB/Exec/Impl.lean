import EpochDB.Lib.Transition
import EpochDB.Store.Format

/-!
The executor over Firewood (`exec/executor.go`) as far as a kill can tell: which rows a block or a
batch writes and what it commits, in which order, and how a reopened executor finds its place again.
The blocks are those before Helicon, so a block's own root is the root in its header.
-/

namespace EpochDB.Exec

open Store (Hash)

structure Block where
  hash : Hash
  root : Hash
  txs : Nat
  deriving DecidableEq

structure ChainStore where
  base : Nat
  blocks : List Block
  deriving DecidableEq

namespace ChainStore

def empty : ChainStore := ⟨0, []⟩

def nextHeight (s : ChainStore) : Nat := if s.blocks = [] then 0 else s.base + s.blocks.length

def head (s : ChainStore) : Option Nat :=
  if s.nextHeight = 0 then none else some (s.nextHeight - 1)

def header (s : ChainStore) (n : Nat) : Option Block :=
  if n < s.base then none else s.blocks[n - s.base]?

def writeBlock (s : ChainStore) (n : Nat) (b : Block) : Except String ChainStore :=
  if n < s.nextHeight then
    .ok s
  else if s.blocks = [] then
    .ok ⟨n, [b]⟩
  else if n ≠ s.nextHeight then
    .error s!"store: block {n} out of order, window expects {s.nextHeight}"
  else
    .ok { s with blocks := s.blocks ++ [b] }

end ChainStore

structure Commit where
  block : Nat
  root : Hash
  deriving DecidableEq

structure Disk where
  store : ChainStore
  commits : List Commit
  deriving DecidableEq

def Disk.empty : Disk := ⟨.empty, []⟩

inductive Op where
  | write (n : Nat) (b : Block)
  | commit (c : Commit)
  deriving DecidableEq

def Op.apply (d : Disk) : Op → Except String Disk
  | .write n b => (d.store.writeBlock n b).map fun store => { d with store }
  | .commit c => .ok { d with commits := c :: d.commits }

def Op.applyAll (d : Disk) : List Op → Except String Disk
  | [] => .ok d
  | op :: ops => do
    let d ← op.apply d
    applyAll d ops

structure Executor where
  headNum : Nat
  headRoot : Hash
  batchOpen : Bool
  batchStartNum : Nat
  batchStartRoot : Hash
  batchRoot : Hash
  batchDirty : Bool
  batchCount : Nat
  batchBuf : List (Nat × Block)
  deriving DecidableEq

def walkBackBudget : Nat := 4096

def walkBackBudgetFor (commitEvery : Nat) : Nat :=
  if commitEvery > 1 then walkBackBudget + 64 * commitEvery else walkBackBudget

def deferredCommitInterval (commitEvery : Nat) : Nat :=
  if commitEvery > 1 then max 1 (1024 / commitEvery) else 64

def fetchStart (s : ChainStore) (genesisHash : Hash) (commitEvery : Nat) : Except String (Nat × Hash) :=
  match s.head with
  | none => .ok (1, genesisHash)
  | some head =>
    if head = 0 then
      .ok (1, genesisHash)
    else
      let back := walkBackBudgetFor commitEvery
      let start := if head > back then head - back + 1 else 1
      if start = 1 then
        .ok (1, genesisHash)
      else
        match s.header (start - 1) with
        | none => .error s!"fetch anchor: the runs hold block {head} but no header at {start - 1}"
        | some h => .ok (start, h.hash)

namespace Executor

def resting (headNum : Nat) (headRoot : Hash) : Executor :=
  { headNum, headRoot, batchOpen := false, batchStartNum := 0, batchStartRoot := headRoot,
    batchRoot := headRoot, batchDirty := false, batchCount := 0, batchBuf := [] }

section

-- the root of the state after a block, from the root before it
variable (evm : Hash → Block → Hash) (commitEvery : Nat)

def executeBlock (e : Executor) (n : Nat) (b : Block) : Except String (Hash × List Op) :=
  if b.root = e.headRoot ∧ b.txs = 0 then
    .ok (e.headRoot, [.write n b])
  else
    let newRoot := evm e.headRoot b
    if newRoot ≠ b.root then
      .error s!"state root mismatch: computed {newRoot.val.hex}, expected {b.root.val.hex}"
    else
      .ok (newRoot, [.write n b, .commit ⟨n, newRoot⟩])

def flushBatch (e : Executor) : Except String (Executor × List Op) :=
  let computed := if e.batchDirty then e.batchRoot else e.batchStartRoot
  if computed ≠ e.headRoot then
    -- the source runs the batch again block by block and fails either way
    .error s!"batch [{e.batchStartNum + 1}..{e.headNum}] root mismatch (computed {computed.val.hex} want {e.headRoot.val.hex})"
  else
    .ok ({ e with batchOpen := false, batchDirty := false, batchBuf := [] },
      e.batchBuf.map (fun (n, b) => .write n b) ++
        if e.batchDirty then [.commit ⟨e.headNum, computed⟩] else [])

def openBatch (e : Executor) : Executor :=
  if e.batchOpen then
    e
  else
    { e with
      batchOpen := true
      batchStartNum := e.headNum
      batchStartRoot := e.headRoot
      batchRoot := e.headRoot
      batchDirty := false
      batchCount := 0 }

def drain (e : Executor) (n : Nat) (b : Block) : Executor :=
  let e :=
    if b.root = e.headRoot ∧ b.txs = 0 then
      e
    else
      { e with batchRoot := evm e.batchRoot b, batchDirty := true }
  { e with
    batchBuf := e.batchBuf ++ [(n, b)]
    headRoot := b.root
    headNum := n
    batchCount := e.batchCount + 1 }

def executeBatched (e : Executor) (n : Nat) (b : Block) : Except String (Executor × List Op) :=
  let e := e.openBatch.drain evm n b
  if e.batchCount ≥ commitEvery then e.flushBatch else .ok (e, [])

def executeDecoded (e : Executor) (n : Nat) (b : Block) : Except String (Executor × List Op) :=
  if commitEvery > 1 then
    (e.executeBatched evm commitEvery n b).mapError (s!"block {n}: {·}")
  else
    match e.executeBlock evm n b with
    | .error err => .error s!"block {n}: {err}"
    | .ok (newRoot, ops) => .ok ({ e with headRoot := newRoot, headNum := n }, ops)

def reexecute (blocks : Nat → Except String Block) (e : Executor)
    : List Nat → Except String (Executor × List Op)
  | [] =>
    if e.batchOpen ∧ e.batchCount > 0 then
      e.flushBatch.mapError (s!"reconcile: flush tail batch: {·}")
    else
      .ok (e, [])
  | n :: ns =>
    match blocks n with
    | .error err => .error s!"reconcile: read container {n}: {err}"
    | .ok b =>
      match e.executeDecoded evm commitEvery n b with
      | .error err => .error s!"reconcile: reexecute block {n}: {err}"
      | .ok (e, ops) =>
        match reexecute blocks e ns with
        | .error err => .error err
        | .ok (e, ops') => .ok (e, ops ++ ops')

end

end Executor

def walkBack (s : ChainStore) (rootFW : Hash) (lo : Nat) : Nat → Except String (Option Nat)
  | 0 =>
    match s.header 0 with
    | none => .error "reconcile: header 0 missing from state layer"
    | some h => .ok (if h.root = rootFW then some 0 else none)
  | i + 1 =>
    match s.header (i + 1) with
    | none => .error s!"reconcile: header {i + 1} missing from state layer"
    | some h =>
      if h.root = rootFW then
        .ok (some (i + 1))
      else if i + 1 = lo then
        .ok none
      else
        walkBack s rootFW lo i

def Disk.root (d : Disk) (genesisRoot : Hash) : Hash :=
  match d.commits with
  | [] => genesisRoot
  | c :: _ => c.root

def locate (d : Disk) (genesisRoot : Hash) (commitEvery top : Nat) : Except String Nat :=
  let rootFW := d.root genesisRoot
  let lo := top - walkBackBudgetFor commitEvery
  match walkBack d.store rootFW lo top with
  | .error err => .error err
  | .ok (some i) => .ok i
  | .ok none =>
    if rootFW = genesisRoot then
      .ok 0
    else
      .error s!"reconcile: firewood root {rootFW.val.hex} not found in headers [{lo}..{top}]"

structure Reconciled where
  fwN : Nat
  executor : Executor
  ops : List Op
  deriving DecidableEq

def reconcile (evm : Hash → Block → Hash) (commitEvery : Nat) (blocks : Nat → Except String Block)
    (genesisRoot : Hash) (d : Disk) : Except String Reconciled :=
  match d.store.head with
  | none => .ok ⟨0, .resting 0 genesisRoot, []⟩
  | some top =>
    if top = 0 then
      if d.root genesisRoot ≠ genesisRoot then
        .error s!"head=0 but firewood root {(d.root genesisRoot).val.hex} != genesis {genesisRoot.val.hex}"
      else
        .ok ⟨0, .resting 0 genesisRoot, []⟩
    else
      match locate d genesisRoot commitEvery top with
      | .error err => .error err
      | .ok fwN =>
        let e : Executor := .resting fwN (if fwN > 0 then d.root genesisRoot else genesisRoot)
        if fwN = top then
          .ok ⟨fwN, e, []⟩
        else
          match e.reexecute evm commitEvery blocks (List.range' (fwN + 1) (top - fwN)) with
          | .error err => .error err
          | .ok (e, ops) => .ok ⟨fwN, e, ops⟩

end EpochDB.Exec
