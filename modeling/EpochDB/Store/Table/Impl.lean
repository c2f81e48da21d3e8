import EpochDB.Lib.History
import EpochDB.Store.Mem.Impl

/-!
The naive model of the store: every row the blocks contribute, in the order they are written, and the
answer to every read as the last row that fits. Beside it the reads of the window (`store/mem.go`).
-/

namespace EpochDB.Store

inductive Row where
  | chain (fam : Fam) (no : UInt64) (val : Bytes)
  | state (key : Bytes) (no : UInt64) (val : Bytes)
  | post (p : Posting)
  | num (key : Bytes) (no : UInt64)
  | set (key : Bytes)
  | code (hash blob : Bytes)
  deriving DecidableEq, Repr

namespace Row

def chainVal (fam : Fam) (no : UInt64) : Row → Option Bytes
  | chain fam' no' val => if fam' = fam ∧ no' = no then some val else none
  | _ => none

def numVal (key : Bytes) : Row → Option UInt64
  | num key' no => if key' = key then some no else none
  | _ => none

def codeVal (hash : Bytes) : Row → Option Bytes
  | code hash' blob => if hash' = hash then some blob else none
  | _ => none

def stateVal (key : Bytes) : Row → Option MemVal
  | state key' no val => if key' = key then some ⟨no, val⟩ else none
  | _ => none

def posting : Row → Option Posting
  | post p => some p
  | _ => none

def setKey : Row → Option Bytes
  | set key => some key
  | _ => none

end Row

abbrev Table := List Row

def OneOf (answer : Option α) (candidates : List α) : Prop :=
  match answer with
  | some a => a ∈ candidates
  | none => candidates = []

def MemVal.num (v : MemVal) : Nat := v.txnum.toNat

namespace Table

def chainGet (t : Table) (fam : Fam) (no : UInt64) : Option Bytes :=
  (t.filterMap (Row.chainVal fam no)).getLast?

def lookupNum (t : Table) (key : Bytes) : Option UInt64 := (t.filterMap (Row.numVal key)).getLast?

def codes (t : Table) (hash : Bytes) : List Bytes := t.filterMap (Row.codeVal hash)

def history (t : Table) (key : Bytes) : List MemVal := t.filterMap (Row.stateVal key)

def latest (t : Table) (key : Bytes) (n : UInt64) : Option MemVal :=
  ((t.history key).filter (fun v => v.txnum ≤ n)).getLast?

def valueAt (t : Table) (key : Bytes) (n : UInt64) : Option Bytes :=
  ((t.history key).filter (fun v => v.txnum = n)).getLast?.map (·.val)

def posts (t : Table) : List Posting := t.filterMap Row.posting

def sets (t : Table) : List Bytes := t.filterMap Row.setKey

end Table

def fit (val : Bytes) : Bytes := val.take (UInt32.ofNat val.length).toNat

theorem fit_eq {val : Bytes} (h : val.length < 2 ^ 32) : fit val = val := by
  unfold fit
  rw [UInt32.toNat_ofNat_of_lt' h, List.take_length]

def StateRow.row (r : StateRow) (n : UInt64) : Row := .state (stateKeyPrefix r) n r.val

def TxWrite.table (t : TxWrite) (n : UInt64) : Table :=
  let post := Memtable.txPostings t
  [.chain .itx n (fit t.frames), .chain .rcpt n (fit t.receipt), .chain .tx n (fit t.rlp),
      .num (txHashKey t.hash.val) n] ++
    (Memtable.sortedKeys post).map (fun g => .post ⟨g, n, (post.lookup g).getD 0⟩) ++
    t.logs.flatMap (fun l => (Memtable.logSets l.emitter l.topics).map .set) ++
    t.state.map (·.row n)

def TxWrite.chainVals (t : TxWrite) : List Bytes := [t.frames, t.receipt, t.rlp]

namespace BlockWrite

def slots (b : BlockWrite) : Nat := b.txs.length + 1

def blkVal (b : BlockWrite) (first : UInt64) : Bytes :=
  Bytes.putUint64 first ++ Bytes.putUint32 (UInt32.ofNat b.txs.length)

def container (crypto : Crypto) (b : BlockWrite) : Except String Bytes :=
  reassemble crypto.encodeList b.pvm b.headerRLP (b.txs.map (·.rlp))

abbrev Rebuilds (crypto : Crypto) (b : BlockWrite) : Prop := ∃ container, b.container crypto = .ok container

def chainVals (b : BlockWrite) : List Bytes := [b.headerRLP, b.pvm] ++ b.txs.flatMap TxWrite.chainVals

def tableOf (crypto : Crypto) (b : BlockWrite) (first : UInt64) (container : Bytes) : Table :=
  [.chain .blk b.height (b.blkVal first), .chain .hdr b.height (fit b.headerRLP), .chain .pvm b.height (fit b.pvm),
      .num (blkHashKey (crypto.keccak256 b.headerRLP).val) b.height,
      .num (cidKey (crypto.sha256 container).val) b.height] ++
    b.code.map (fun (h, blob) => .code h.val blob) ++
    b.txs.zipIdx.flatMap (fun (t, i) => t.table (first + UInt64.ofNat i)) ++
    b.tail.map (·.row (first + UInt64.ofNat b.txs.length))

def headRows (crypto : Crypto) (b : BlockWrite) (first : UInt64) (container : Bytes) : Table :=
  [.chain .blk b.height (b.blkVal first), .chain .hdr b.height (fit b.headerRLP), .chain .pvm b.height (fit b.pvm),
      .num (blkHashKey (crypto.keccak256 b.headerRLP).val) b.height,
      .num (cidKey (crypto.sha256 container).val) b.height] ++
    b.code.map (fun (h, blob) => .code h.val blob)

theorem tableOf_eq (crypto : Crypto) (b : BlockWrite) (first : UInt64) (container : Bytes)
    : b.tableOf crypto first container = b.headRows crypto first container ++
        b.txs.zipIdx.flatMap (fun (t, i) => t.table (first + UInt64.ofNat i)) ++
        b.tail.map (·.row (first + UInt64.ofNat b.txs.length)) := rfl

def table (crypto : Crypto) (b : BlockWrite) (first : UInt64) : Table :=
  match b.container crypto with
  | .ok container => b.tableOf crypto first container
  | .error _ => []

end BlockWrite

def slots (bs : List BlockWrite) : Nat := (bs.map BlockWrite.slots).sum

def table (crypto : Crypto) (first : UInt64) (bs : List BlockWrite) : Table :=
  match bs with
  | [] => []
  | b :: bs => b.table crypto first ++ table crypto (first + UInt64.ofNat b.slots) bs

namespace Rows

def history (r : Rows) (key : Bytes) : List MemVal := (r.state.lookup key).getD []

def lookupNum (r : Rows) (key : Bytes) : Option UInt64 := r.nums.lookup key

def codeBlob (r : Rows) (hash : Bytes) : Option Bytes := r.code.lookup hash

end Rows

namespace Memtable

def latestState (m : Memtable) (key : Bytes) (n : UInt64) : Option MemVal :=
  History.latest MemVal.num (m.history key) n.toNat

def chainGet (m : Memtable) (fam : Fam) (no : UInt64) : Option Bytes :=
  ((m.chain fam).find no).map (fun (off, n) => (m.log.drop off).take n.toNat)

end Memtable

end EpochDB.Store
