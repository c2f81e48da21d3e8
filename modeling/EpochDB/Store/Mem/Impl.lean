import EpochDB.Store.Container
import EpochDB.Store.Mem.Rows

/-!
The memtable over the unflushed window (`store/mem.go`): the rows in RAM, the window log they stream
into, the write path `add` and the replay `recover`.
-/

namespace EpochDB.Store

inductive LogName where
  | window | frozen
  deriving DecidableEq, Repr

structure Memtable extends Rows where
  path : LogName
  readOnly : Bool
  log : Bytes
  bwErr : Bool
  pos : Nat
  flushed : Nat
  baseTx : UInt64
  nextTx : UInt64
  baseHeight : UInt64
  nextHeight : UInt64
  started : Bool

abbrev MemM := EStateM String Memtable

structure LogFile where
  write : Nat → Bool
  flush : Nat → Bool

/--
The library functions a memtable calls: the hashes, and the RLP encoding of a list with this payload.
-/
structure Crypto where
  keccak256 : Bytes → Hash
  sha256 : Bytes → Hash
  encodeList : Bytes → Bytes

inductive StateKind where
  | account | code | slot
  deriving DecidableEq, Repr

structure StateRow where
  kind : StateKind
  addr : Addr
  slot : Hash
  val : Bytes
  deriving DecidableEq, Repr

def stateKeyPrefix (r : StateRow) : Bytes :=
  match r.kind with
  | .account => accountPrefix r.addr
  | .code => codeRefPrefix r.addr
  | .slot => slotPrefix r.addr r.slot

def statePayload (r : StateRow) : Bytes :=
  let k := stateKeyPrefix r
  Bytes.putUint16 (UInt16.ofNat k.length) ++ k ++ r.val

structure LogWrite where
  emitter : Addr
  topics : List Hash
  deriving DecidableEq, Repr

structure TxWrite where
  hash : Hash
  rlp : Bytes
  receipt : Bytes
  frames : Bytes
  frameAddrs : List Addr
  state : List StateRow
  sender : Option Addr
  recipient : Option Addr
  created : Option Addr
  logs : List LogWrite
  deriving DecidableEq, Repr

/--
Everything one block contributes. The list of `code` is the map of the source in the order one
iteration over it yields.
-/
structure BlockWrite where
  height : UInt64
  headerRLP : Bytes
  pvm : Bytes
  txs : List TxWrite
  code : List (Hash × Bytes)
  tail : List StateRow
  deriving DecidableEq, Repr

def maxRow : Nat := 1 <<< 30

namespace Memtable

def empty (path : LogName) (readOnly : Bool) (log : Bytes) : Memtable :=
  { Rows.empty with
    path, readOnly, log, bwErr := false, pos := 0, flushed := 0, baseTx := 0, nextTx := 0,
    baseHeight := 0, nextHeight := 0, started := false }

def clear (m : Memtable) (baseTx baseHeight : UInt64) : Memtable :=
  { m with
    toRows := Rows.empty, pos := 0, flushed := 0, started := false, baseTx := baseTx,
    nextTx := baseTx, baseHeight := baseHeight, nextHeight := baseHeight }

def reset (m : Memtable) (baseTx baseHeight : UInt64) : Memtable :=
  { m.clear baseTx baseHeight with log := [], bwErr := false }

def fresh (path : LogName) (baseTx baseHeight : UInt64) : Memtable :=
  (empty path false []).reset baseTx baseHeight

def liftRows (f : RowsM α) : MemM α := fun m =>
  match f.run m.toRows with
  | .ok a r => .ok a { m with toRows := r }
  | .error e r => .error e { m with toRows := r }

section

variable (file : LogFile)

def write (kind : RecKind) (num : UInt64) (payload : Bytes) : MemM (Nat × Nat) := do
  let m ← get
  if m.bwErr then
    throw "store: window log write failed"
  let frame : Frame := ⟨kind.byte, num, payload⟩
  let body := m.pos + Frame.headerSize
  let pos := body + payload.length
  if !file.write pos then
    -- the buffer may have taken any part of the record before the error
    set { m with log := m.log ++ frame.encode, bwErr := true }
    throw "store: window log write failed"
  set { m with log := m.log ++ frame.encode, pos := pos }
  return (body, payload.length)

def flushLocked : MemM Unit := do
  let m ← get
  if m.flushed ≠ m.pos then
    if m.bwErr || !file.flush m.pos then
      set { m with bwErr := true }
      throw "store: window log flush failed"
    set { m with flushed := m.pos }

def chainRow (fam : Fam) (num : UInt64) (val : Bytes) : MemM Unit := do
  let (off, n) ← write file (.chain fam) num val
  liftRows (Pend.chain fam num off n).run

def numRow (key : Bytes) (num : UInt64) : MemM Unit := do
  let _ ← write file .num num key
  liftRows (Pend.num key num).run

def postRow (group : Bytes) (txnum : UInt64) (payload : UInt8) : MemM Unit := do
  let _ ← write file .post txnum ([payload] ++ group)
  liftRows (Pend.post ⟨group, txnum, payload⟩).run

def codeRow (hash : Hash) (blob : Bytes) : MemM Unit := do
  if ((← get).code.lookup hash.val).isSome then
    return
  let _ ← write file .code 0 (hash.val ++ blob)
  liftRows (Pend.code hash.val blob).run

def setRow (key : Bytes) (txnum : UInt64) : MemM Unit := do
  if key ∈ (← get).sets then
    return
  let _ ← write file .set txnum key
  liftRows (Pend.set key).run

def stateRow (r : StateRow) (txnum : UInt64) : MemM Unit := do
  let _ ← write file .state txnum (statePayload r)
  liftRows (Pend.state (stateKeyPrefix r) txnum r.val).run

end

abbrev PostMap := AList (fun _ : Bytes => UInt8)

def orInto (post : PostMap) (group : Bytes) (r : UInt8) : PostMap :=
  post.insert group ((post.lookup group).getD 0 ||| r)

def role (post : PostMap) (a : Option Addr) (r : UInt8) : PostMap :=
  match a with
  | some a => orInto post (addrPrefix a) r
  | none => post

def zeroHash : Hash := ⟨List.replicate 32 0, by simp⟩

def logPostings (post : PostMap) (emitter : Addr) (topics : List Hash) : PostMap :=
  match topics with
  | [] => orInto post (eLogGroup emitter zeroHash) 0
  | topic0 :: topics =>
    let post := orInto post (sigGroup topic0) 0
    let post := orInto post (eLogGroup emitter topic0) 0
    (topics.take 3).zipIdx.foldl
      (fun post (topic, i) => orInto post (tValGroup topic topic0) ((1 : UInt8) <<< UInt8.ofNat i)) post

def logSets (emitter : Addr) (topics : List Hash) : List Bytes :=
  match topics with
  | [] => []
  | topic0 :: topics =>
    (topics.take 3).zipIdx.map (fun (topic, i) => setKey topic0 (UInt8.ofNat (i + 1)) topic emitter)

def txPostings (t : TxWrite) : PostMap :=
  let post := role ∅ t.sender roleSender
  let post := role post t.recipient roleRecipient
  let post := role post t.created roleCreated
  let post := t.frameAddrs.foldl (fun post a => role post (some a) roleFrame) post
  t.logs.foldl (fun post l => logPostings (role post (some l.emitter) roleEmitter) l.emitter l.topics) post

def sortedKeys (post : PostMap) : List Bytes := post.keys.insertionSort (· ≤ ·)

section

variable (crypto : Crypto) (file : LogFile)

def addTx (n : UInt64) (t : TxWrite) : MemM Unit := do
  chainRow file .itx n t.frames
  chainRow file .rcpt n t.receipt
  chainRow file .tx n t.rlp
  numRow file (txHashKey t.hash.val) n
  let post := txPostings t
  (sortedKeys post).forM (fun g => postRow file g n ((post.lookup g).getD 0))
  t.logs.forM (fun l => (logSets l.emitter l.topics).forM (fun k => setRow file k n))
  t.state.forM (fun r => stateRow file r n)

def addRest (b : BlockWrite) (first : UInt64) : MemM Unit := do
  chainRow file .hdr b.height b.headerRLP
  chainRow file .pvm b.height b.pvm
  numRow file (blkHashKey (crypto.keccak256 b.headerRLP).val) b.height
  match reassemble crypto.encodeList b.pvm b.headerRLP (b.txs.map (·.rlp)) with
  | .error e => throw s!"block {b.height}: reassemble container: {e}"
  | .ok container =>
    numRow file (cidKey (crypto.sha256 container).val) b.height
    b.code.forM (fun (h, blob) => codeRow file h blob)
    b.txs.zipIdx.forM (fun (t, i) => addTx file (first + UInt64.ofNat i) t)
    b.tail.forM (fun r => stateRow file r (first + UInt64.ofNat b.txs.length))

def addRows (b : BlockWrite) (first : UInt64) : MemM Unit := do
  let blkVal := Bytes.putUint64 first ++ Bytes.putUint32 (UInt32.ofNat b.txs.length)
  chainRow file .blk b.height blkVal
  addRest crypto file b first

def appendBlock (b : BlockWrite) : MemM Unit := do
  let first := (← get).nextTx
  addRows crypto file b first
  let nextTx := first + UInt64.ofNat b.txs.length + 1
  liftRows (Pend.pad nextTx).run
  modify (fun m => { m with nextTx := nextTx, nextHeight := b.height + 1 })
  let _ ← write file .endBlock b.height (Bytes.putUint64 nextTx)
  flushLocked file

def add (b : BlockWrite) : MemM Unit := do
  let m ← get
  if b.height < m.nextHeight then
    return
  if !m.started then
    if m.nextHeight ≠ 0 && b.height ≠ m.nextHeight then
      throw s!"store: block {b.height} would start a fresh window over sealed runs ending at {m.nextHeight - 1}, so blocks {m.nextHeight}..{b.height - 1} would be missing from the chain"
    set { m with baseHeight := b.height, nextHeight := b.height, started := true }
  let m ← get
  if b.height ≠ m.nextHeight then
    throw s!"store: block {b.height} out of order, window expects {m.nextHeight}"
  appendBlock crypto file b

def addAll (bs : List BlockWrite) : MemM Unit := bs.forM (add crypto file)

end

structure Replay where
  off : Nat
  good : Nat
  pend : List Pend

def replay (fs : List Frame) (r : Replay) : MemM Nat := do
  match fs with
  | [] => return r.good
  | f :: fs =>
    let body := r.off + Frame.headerSize
    let off := body + f.payload.length
    match Pend.ofFrame f body with
    | .stop => return r.good
    | .defer p => replay fs { r with off := off, pend := r.pend ++ [p] }
    | .endBlock num nt =>
      let m ← get
      -- a block a run already holds is dropped
      if num < m.baseHeight then
        replay fs ⟨off, off, []⟩
      else
        if !m.started then
          set { m with baseHeight := num, started := true }
        (liftRows (Pend.commit (r.pend ++ [.pad nt]))).adaptExcept
          (fun e => s!"store: window log replay: {e}")
        modify (fun m => { m with nextHeight := num + 1, nextTx := nt })
        replay fs ⟨off, off, []⟩

def recover (baseTx baseHeight : UInt64) : MemM Unit := do
  modify (·.clear baseTx baseHeight)
  let good ← replay (Frame.readAll maxRow (← get).log) ⟨0, 0, []⟩
  modify (fun m => if m.readOnly then m else { m with log := m.log.take good, bwErr := false })
  modify (fun m => { m with pos := good, flushed := good })

end Memtable

end EpochDB.Store
