import EpochDB.Lib.Reader
import EpochDB.Store.Format

/-!
The receipt row of a transaction (`store/receipts.go`).
-/

namespace EpochDB.Store.Receipts

structure StoredLog where
  address : Addr
  topics : List Hash
  data : Bytes
  deriving DecidableEq, Repr

structure Receipt where
  status : UInt64
  gasUsed : UInt64
  logs : List StoredLog
  deriving DecidableEq, Repr

def appendLog (l : StoredLog) : Bytes :=
  l.address.val ++ (appendUvarint l.topics.length ++ (l.topics.flatMap (·.val) ++ (appendUvarint l.data.length ++ l.data)))

def encodeTxReceipt (r : Receipt) (cumulativeGasUsed : UInt64) : Bytes :=
  appendUvarint r.status.toNat ++ (appendUvarint r.gasUsed.toNat ++ (appendUvarint cumulativeGasUsed.toNat ++
    (appendUvarint r.logs.length ++ r.logs.flatMap appendLog)))

structure TxReceipt where
  status : UInt64
  gasUsed : UInt64
  cumulativeGasUsed : UInt64
  logs : List StoredLog
  deriving DecidableEq, Repr

def next (what : String) : Reader String Nat := Reader.number s!"tx receipt: bad {what}"

def decodeAddr : Reader String Addr := do
  Reader.ensure 20 "tx receipt: truncated addr"
  Reader.fixed 20

def decodeLog (mem : Nat) : Reader String StoredLog := do
  let address ← decodeAddr
  let nt ← next "topic count"
  let topics ← Reader.items mem 32 nt "tx receipt: truncated topics"
  let dl ← next "data len"
  let data ← Reader.span (wrap64 dl) "tx receipt: truncated data"
  return ⟨address, topics, data⟩

structure Head where
  status : UInt64
  gasUsed : UInt64
  cumulativeGasUsed : UInt64
  count : Nat

def decodeHead : Reader String Head := do
  let status ← next "status"
  let gasUsed ← next "gas used"
  let cumulativeGasUsed ← next "cumulative gas"
  let n ← next "log count"
  return ⟨UInt64.ofNat status, UInt64.ofNat gasUsed, UInt64.ofNat cumulativeGasUsed, n⟩

def storedLogSize : Nat := 80

def readTxReceipt (mem : Nat) : Reader String TxReceipt := do
  let head ← decodeHead
  -- the list of the logs is made for as many as the row says there are
  Reader.alloc mem storedLogSize head.count
  let logs ← Reader.times head.count (decodeLog mem)
  return ⟨head.status, head.gasUsed, head.cumulativeGasUsed, logs⟩

/-- `mem` is what one allocation of the process can get. -/
def decodeTxReceipt (mem : Nat) (bytes : Bytes) : Ret String TxReceipt :=
  match (readTxReceipt mem).run bytes 0 with
  | .ok (r, _) => .ok r
  | .error e => .error e
  | .panic => .panic

end EpochDB.Store.Receipts
