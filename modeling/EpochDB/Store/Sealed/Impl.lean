import EpochDB.Lib.KMerge
import EpochDB.Lib.Seek
import EpochDB.Store.Ef.Impl
import EpochDB.Store.Mem.Impl

/-!
The sealed runs (`store/run.go`, `store/postings.go`, `store/merge.go` and `writeSections` of
`store/db.go`). A section is the sorted map an sstable stores; the filter of a section may answer for
keys it does not hold but not against one it holds.
-/

namespace EpochDB.Store.Sealed

inductive Section where
  | chain | state | lookup
  deriving DecidableEq, Repr

abbrev Sst := SortedMap Bytes Bytes

structure Footer where
  fromTx : UInt64
  toTx : UInt64
  fromHeight : UInt64
  toHeight : UInt64
  deriving DecidableEq, Repr

structure Run where
  footer : Footer
  sec : Section → Sst

structure FilterPolicy where
  mayContain : List Bytes → Bytes → Bool
  complete : ∀ keys, ∀ key ∈ keys, mayContain keys key = true

def sst (rows : List (Bytes × Bytes)) : Except String Sst :=
  if h : rows.Pairwise (fun r s => r.1 < s.1) then
    .ok ⟨rows, h⟩
  else
    .error "pebble: keys must be added in strictly increasing order"

def eachChain (m : Memtable) (fam : Fam) : List (UInt64 × Bytes) :=
  let c := m.chain fam
  (c.off.zip c.n).zipIdx.filterMap (fun ((off, n), i) =>
    if off = 0 then none else some (c.base + UInt64.ofNat i, (m.log.drop off).take n.toNat))

def fams : List Fam := [.blk, .hdr, .itx, .pvm, .rcpt, .tx]

def chainRows (m : Memtable) : List (Bytes × Bytes) :=
  fams.flatMap (fun fam => (eachChain m fam).map (fun (n, val) => (numKey (famPrefix fam) n, val)))

def sortBytes (keys : List Bytes) : List Bytes := keys.insertionSort (· ≤ ·)

def stateRows (m : Memtable) : List (Bytes × Bytes) :=
  (sortBytes m.code.keys).map (fun h => (codeKey h, (m.code.lookup h).getD [])) ++
    (sortBytes m.state.keys).flatMap (fun p =>
      ((m.state.lookup p).getD []).map (fun e => (suffixed p e.txnum, e.val)))

/-!
The posting chunks: sorted by group and TxNum, one TxNum for each group with the payloads or-ed, cut
into chunks keyed by their first TxNum.
-/

def Posting.le (p q : Posting) : Prop := p.group < q.group ∨ p.group = q.group ∧ p.txnum ≤ q.txnum

instance (p q : Posting) : Decidable (Posting.le p q) := inferInstanceAs (Decidable (_ ∨ _ ∧ _))

structure Chunks where
  nums : List UInt64
  pay : List UInt8
  rows : List (Bytes × Bytes)

namespace Chunks

def flush (c : Chunks) (group : Bytes) : Chunks :=
  match c.nums with
  | [] => c
  | first :: _ =>
    ⟨[], [], c.rows ++ [(suffixed group first, Ef.encode first c.nums c.pay (payloadBits group))]⟩

def add (c : Chunks) (prev : Bytes) (e : Posting) : Chunks :=
  let c := if prev ≠ e.group then c.flush prev else c
  if c.nums.getLast? = some e.txnum then
    { c with pay := c.pay.modify (c.pay.length - 1) (· ||| e.payload) }
  else
    let c := if c.nums.length = Ef.maxEntries then c.flush e.group else c
    { c with nums := c.nums ++ [e.txnum], pay := c.pay ++ [e.payload] }

def addAll (c : Chunks) (prev : Bytes) (ents : List Posting) : Chunks :=
  match ents with
  | [] => c.flush prev
  | e :: ents => (c.add prev e).addAll e.group ents

end Chunks

def chunks (ents : List Posting) : List (Bytes × Bytes) :=
  match ents.insertionSort Posting.le with
  | [] => []
  | e :: ents => ((⟨[], [], []⟩ : Chunks).addAll e.group (e :: ents)).rows

def keyLe (r s : Bytes × Bytes) : Prop := r.1 ≤ s.1

instance (r s : Bytes × Bytes) : Decidable (keyLe r s) := inferInstanceAs (Decidable (_ ≤ _))

def lookupRows (m : Memtable) : List (Bytes × Bytes) :=
  (chunks m.post ++ m.nums.keys.map (fun k => (k, Bytes.putUint64 ((m.nums.lookup k).getD 0))) ++
    m.sets.map (fun k => (k, []))).insertionSort keyLe

def writeSections (m : Memtable) : Except String (Section → Sst) := do
  let chain ← sst (chainRows m)
  let state ← sst (stateRows m)
  let lookup ← sst (lookupRows m)
  return fun
    | .chain => chain
    | .state => state
    | .lookup => lookup

def sealWindow (m : Memtable) : Except String Run := do
  let sec ← writeSections m
  return ⟨⟨m.baseTx, m.nextTx, m.baseHeight, m.nextHeight - 1⟩, sec⟩

def mergeSection (inputs : List Run) (s : Section) : Except String (Nat × Sst) := do
  let (n, rows) := KMerge.merge (inputs.map (fun r => (r.sec s).rows))
  let sec ← sst rows
  return (n, sec)

def contiguous : List Run → Bool
  | a :: b :: runs =>
    b.footer.fromTx = a.footer.toTx && b.footer.fromHeight = a.footer.toHeight + 1 && contiguous (b :: runs)
  | _ => true

def merge (inputs : List Run) : Except String Run := do
  match inputs.head?, inputs.getLast? with
  | some first, some last =>
    if !contiguous inputs then
      throw "store: merge inputs are not contiguous"
    let (chainRows, chain) ← mergeSection inputs .chain
    let (stateRows, state) ← mergeSection inputs .state
    let (lookupRows, lookup) ← mergeSection inputs .lookup
    if chain.rows.length ≠ chainRows ∨ state.rows.length ≠ stateRows ∨ lookup.rows.length ≠ lookupRows then
      throw "store: merged run reads back another number of rows than went in"
    return ⟨⟨first.footer.fromTx, last.footer.toTx, first.footer.fromHeight, last.footer.toHeight⟩, fun
      | .chain => chain
      | .state => state
      | .lookup => lookup⟩
  | _, _ => throw "store: merge of no runs"

section

variable (policy : FilterPolicy)

namespace Run

def mayHave (r : Run) (s : Section) (key : Bytes) : Bool :=
  match s with
  | .chain => true
  | s => policy.mayContain ((r.sec s).rows.map (fun row => row.1.take (split row.1))) (key.take (split key))

def get (r : Run) (s : Section) (key : Bytes) : Option Bytes :=
  if !r.mayHave policy s key then
    none
  else
    match (r.sec s).seekGE key with
    | none => none
    | some (k, val) => if k = key then some val else none

def latest (r : Run) (s : Section) (pfx : Bytes) (n : UInt64) : Option MemVal :=
  if !r.mayHave policy s (suffixed pfx 0) then
    none
  else
    -- seek past the sought TxNum, then check the key is still under the prefix
    match (r.sec s).seekLT (suffixed pfx (n + 1)) with
    | none => none
    | some (k, val) =>
      if k.length ≠ pfx.length + 8 ∨ k.take pfx.length ≠ pfx then none else some ⟨txNumOf k, val⟩

def bloomGated (pfx : Bytes) : Bool := split (suffixed pfx 0) < pfx.length + 8

def decodeChunk (lo hi : UInt64) (key val : Bytes) : Except String (List Posting) :=
  let group := key.take (key.length - 8)
  match Ef.decode (txNumOf key) val with
  | .chunk nums pay =>
    .ok ((nums.zipIdx.filter (fun (n, _) => lo ≤ n ∧ n ≤ hi)).map (fun (n, i) =>
      ⟨group, n, match pay with
        | some pay => pay[i]?.getD 0
        | none => 0⟩))
  | .corrupt => .error "ef: corrupt chunk"
  | .panic => .error "runtime error"

def decodePend (lo hi : UInt64) : Option (Bytes × Bytes) → Except String (List Posting)
  | none => .ok []
  | some (key, val) => decodeChunk lo hi key val

def passPend (lo hi : UInt64) (pend : Option (Bytes × Bytes)) (k : Bytes) : Except String (List Posting) :=
  match pend with
  | none => .ok []
  | some (pendKey, val) =>
    if pendKey.take (pendKey.length - 8) = k.take (k.length - 8) ∧ txNumOf k ≤ lo then
      .ok []
    else
      decodeChunk lo hi pendKey val

def scanLoop (pfx : Bytes) (lo hi : UInt64) (rows : List (Bytes × Bytes)) (pend : Option (Bytes × Bytes))
    (out : List Posting) : Except String (List Posting) :=
  match rows with
  | [] => do return out ++ (← decodePend lo hi pend)
  | (k, val) :: rows =>
    if !pfx.isPrefixOf k || k.length < pfx.length + 8 then do
      return out ++ (← decodePend lo hi pend)
    else do
      let ents ← passPend lo hi pend k
      scanLoop pfx lo hi rows (if txNumOf k > hi then none else some (k, val)) (out ++ ents)

def scanChunks (r : Run) (pfx : Bytes) (lo hi : UInt64) : Except String (List Posting) :=
  if bloomGated pfx && !r.mayHave policy .lookup (suffixed pfx 0) then
    .ok []
  else
    scanLoop pfx lo hi ((r.sec .lookup).rows.dropWhile (fun row => row.1 < pfx)) none []

def scanSet (r : Run) (pfx : Bytes) : List Bytes :=
  if pfx.length ≥ setSplit && !r.mayHave policy .lookup (pfx.take setSplit) then
    []
  else
    ((r.sec .lookup).walk pfx).map (·.1)

end Run

end

end EpochDB.Store.Sealed
