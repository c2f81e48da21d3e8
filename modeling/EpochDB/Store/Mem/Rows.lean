import EpochDB.Lib.Frame
import EpochDB.Store.Format

/-!
The rows of the window (`store/mem.go`): the index of every chain family, the state histories, code,
lookup numbers, postings and sets, with the one mutation each kind of log record stands for.
-/

namespace EpochDB.Store

inductive Fam where
  | blk | hdr | itx | pvm | rcpt | tx
  deriving DecidableEq, Repr

def famPrefix : Fam → Bytes
  | .blk => prefixBlk
  | .hdr => prefixHdr
  | .itx => prefixItx
  | .pvm => prefixPvm
  | .rcpt => prefixRcpt
  | .tx => prefixTx

def txKeyedFams : List Fam := [.itx, .rcpt, .tx]

structure ChainIndex where
  base : UInt64
  set : Bool
  off : List Nat
  n : List UInt32
  off_nil : set = false → off = []
  deriving DecidableEq, Repr

namespace ChainIndex

def empty : ChainIndex := ⟨0, false, [], [], fun _ => rfl⟩

def next (c : ChainIndex) : UInt64 := c.base + UInt64.ofNat c.off.length

def push (c : ChainIndex) (off : Nat) (n : UInt32) : ChainIndex :=
  { c with set := true, off := c.off ++ [off], n := c.n ++ [n], off_nil := by simp }

def start (c : ChainIndex) (num : UInt64) : ChainIndex :=
  if c.set then c else { c with base := num, set := true, off_nil := by simp }

theorem start_of_set {c : ChainIndex} (h : c.set = true) (num : UInt64) : c.start num = c := by
  simp [start, h]

theorem next_start_of_unset {c : ChainIndex} (h : c.set = false) (num : UInt64) : (c.start num).next = num := by
  simp [start, h, next, c.off_nil h]

def padTo (c : ChainIndex) (next : UInt64) : ChainIndex :=
  let c := c.start (next - 1)
  -- the source's loop appends while `c.next < next` and moves `c.next` by one
  let k := if c.next < next then (next - c.next).toNat else 0
  { c with set := true, off := c.off ++ List.replicate k 0, n := c.n ++ List.replicate k 0, off_nil := by simp }

def find (c : ChainIndex) (num : UInt64) : Option (Nat × UInt32) :=
  if !c.set || num < c.base || num ≥ c.next then
    none
  else
    let i := (num - c.base).toNat
    match c.off[i]?, c.n[i]? with
    | some off, some n => if off = 0 then none else some (off, n)
    | _, _ => none

end ChainIndex

structure MemVal where
  txnum : UInt64
  val : Bytes
  deriving DecidableEq, Repr

structure Posting where
  group : Bytes
  txnum : UInt64
  payload : UInt8
  deriving DecidableEq, Repr

structure Rows where
  chain : Fam → ChainIndex
  state : AList (fun _ : Bytes => List MemVal)
  code : AList (fun _ : Bytes => Bytes)
  nums : AList (fun _ : Bytes => UInt64)
  post : List Posting
  sets : List Bytes

abbrev RowsM := EStateM String Rows

namespace Rows

def empty : Rows := ⟨fun _ => .empty, ∅, ∅, ∅, [], []⟩

def setChain (r : Rows) (fam : Fam) (c : ChainIndex) : Rows :=
  { r with chain := Function.update r.chain fam c }

def addChain (fam : Fam) (num : UInt64) (off : Nat) (n : Nat) : RowsM Unit := do
  let c := ((← get).chain fam).start num
  modify (·.setChain fam c)
  if num ≠ c.next then
    throw s!"store: chain row {num} is not contiguous after {c.next}"
  modify (·.setChain fam (c.push off (UInt32.ofNat n)))

def putState (r : Rows) (key : Bytes) (txnum : UInt64) (val : Bytes) : Rows :=
  let h := (r.state.lookup key).getD []
  match h.getLast? with
  | some last =>
    if last.txnum = txnum then
      { r with state := r.state.insert key (h.dropLast ++ [⟨txnum, val⟩]) }
    else
      { r with state := r.state.insert key (h ++ [⟨txnum, val⟩]) }
  | none => { r with state := r.state.insert key (h ++ [⟨txnum, val⟩]) }

def addPost (r : Rows) (p : Posting) : Rows := { r with post := r.post ++ [p] }

def putNum (r : Rows) (key : Bytes) (num : UInt64) : Rows :=
  { r with nums := r.nums.insert key num }

def putSet (r : Rows) (key : Bytes) : Rows := { r with sets := r.sets.insert key }

def putCode (r : Rows) (hash blob : Bytes) : Rows := { r with code := r.code.insert hash blob }

def padTo (r : Rows) (next : UInt64) : Rows :=
  txKeyedFams.foldl (fun r fam => r.setChain fam ((r.chain fam).padTo next)) r

end Rows

inductive RecKind where
  | chain (fam : Fam)
  | state | post | num | set | code | endBlock
  deriving DecidableEq, Repr

namespace RecKind

def byte : RecKind → UInt8
  | chain .blk => 'B'.toUInt8
  | chain .hdr => 'H'.toUInt8
  | chain .itx => 'I'.toUInt8
  | chain .pvm => 'P'.toUInt8
  | chain .rcpt => 'R'.toUInt8
  | chain .tx => 'T'.toUInt8
  | state => 'S'.toUInt8
  | post => 'L'.toUInt8
  | num => 'X'.toUInt8
  | set => 'K'.toUInt8
  | code => 'C'.toUInt8
  | endBlock => 'E'.toUInt8

def all : List RecKind :=
  [chain .blk, chain .hdr, chain .itx, chain .pvm, chain .rcpt, chain .tx, state, post, num, set,
    code, endBlock]

def ofByte? (b : UInt8) : Option RecKind := all.find? (fun k => k.byte = b)

@[simp]
theorem ofByte?_byte (k : RecKind) : ofByte? k.byte = some k := by
  cases k with
  | chain fam => cases fam <;> rfl
  | _ => rfl

theorem byte_of_ofByte? {b : UInt8} {k : RecKind} (h : ofByte? b = some k) : k.byte = b := by
  have := List.find?_some h
  simpa using this

end RecKind

inductive Pend where
  | chain (fam : Fam) (num : UInt64) (off n : Nat)
  | state (key : Bytes) (num : UInt64) (val : Bytes)
  | post (p : Posting)
  | num (key : Bytes) (num : UInt64)
  | set (key : Bytes)
  | code (hash blob : Bytes)
  | pad (next : UInt64)
  deriving DecidableEq, Repr

def Pend.run : Pend → RowsM Unit
  | .chain fam no off n => Rows.addChain fam no off n
  | .state key no val => modify (·.putState key no val)
  | .post p => modify (·.addPost p)
  | .num key no => modify (·.putNum key no)
  | .set key => modify (·.putSet key)
  | .code hash blob => modify (·.putCode hash blob)
  | .pad next => modify (·.padTo next)

def Pend.commit (ps : List Pend) : RowsM Unit := ps.forM Pend.run

inductive Pend.Action where
  | defer (p : Pend)
  | endBlock (height nextTx : UInt64)
  | stop

def Pend.ofFrame (f : Frame) (body : Nat) : Pend.Action :=
  match RecKind.ofByte? f.kind with
  | some (.chain fam) => .defer (.chain fam f.num body f.payload.length)
  | some .state =>
    if f.payload.length < 2 then
      .stop
    else
      let kl := (Bytes.uint16 (f.payload.take 2)).toNat
      if f.payload.length < 2 + kl then
        .stop
      else
        .defer (.state ((f.payload.drop 2).take kl) f.num (f.payload.drop (2 + kl)))
  | some .post =>
    match f.payload with
    | [] => .stop
    | v :: group => .defer (.post ⟨group, f.num, v⟩)
  | some .num => .defer (.num f.payload f.num)
  | some .set => .defer (.set f.payload)
  | some .code =>
    if f.payload.length < 32 then
      .stop
    else
      .defer (.code (f.payload.take 32) (f.payload.drop 32))
  | some .endBlock =>
    if f.payload.length ≠ 8 then
      .stop
    else
      .endBlock f.num (Bytes.uint64 f.payload)
  | none => .stop

theorem Pend.kind_of_ofFrame_chain {f : Frame} {body : Nat} {fam : Fam} {no : UInt64} {off n : Nat}
    (h : Pend.ofFrame f body = .defer (.chain fam no off n)) : f.kind = (RecKind.chain fam).byte := by
  unfold Pend.ofFrame at h
  split at h
  . next hkind =>
    cases h
    exact (RecKind.byte_of_ofByte? hkind).symm
  . split at h
    . contradiction
    . dsimp only at h
      split at h
      . contradiction
      . cases h
  . split at h
    . contradiction
    . cases h
  . cases h
  . cases h
  . split at h
    . contradiction
    . cases h
  . split at h
    . contradiction
    . cases h
  . contradiction

end EpochDB.Store
