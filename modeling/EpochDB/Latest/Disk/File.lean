import EpochDB.Latest.Disk.Impl

/-!
The bytes of a run file (`latest/run.go`): blocks of `blockSize` bytes, the index of their first keys and
the footer. An index out of its slice reads as zero or empty here; the process stops there.
-/

namespace EpochDB.Latest.Disk

open FrontCoding (common behind)

def footerLen : Nat := 76
def magic : Bytes := .ofChars ['e', 'p', 'o', 'c', 'h', 'r', 'u', 'n']
def version : Nat := 1

structure FileWriter where
  out : Bytes
  blk : Bytes
  prev : Bytes
  index : Bytes
  n : UInt64
  user : FixedBytes 32

namespace FileWriter

def new (user : FixedBytes 32) : FileWriter := ⟨[], [0, 0], [], [], 0, user⟩

def flush (w : FileWriter) : FileWriter :=
  if w.blk.length = 2 then
    w
  else
    let blk := Bytes.ofNatLE 2 w.blk.length ++ w.blk.drop 2
    { w with out := w.out ++ (blk ++ List.replicate (blockSize - w.blk.length) 0), blk := blk.take 2 }

def append (w : FileWriter) (shared : Nat) (key value : Bytes) : FileWriter :=
  { w with
    blk := w.blk ++ ([UInt8.ofNat shared, UInt8.ofNat (key.length - shared), UInt8.ofNat value.length] ++
      key.drop shared ++ value)
    prev := key
    index := if w.blk.length = 2 then w.index ++ pad key else w.index
    n := w.n + 1 }

def add (w : FileWriter) (key value : Bytes) : Except String FileWriter :=
  if key.length = 0 ∨ key.length > maxKey ∨ value.length > maxValue then
    .error s!"latest: key {key.length} bytes, value {value.length} bytes (limits 1..{maxKey} and 0..{maxValue})"
  else if w.n > 0 ∧ key ≤ w.prev then
    .error s!"latest: key {key.hex} not after {w.prev.hex}"
  else
    let shared := if w.blk.length > 2 then common w.prev key else 0
    if w.blk.length > 2 ∧ w.blk.length + 3 + key.length - shared + value.length > blockSize then
      .ok (w.flush.append 0 key value)
    else
      .ok (w.append shared key value)

end FileWriter

structure File where
  mm : Bytes
  index : Bytes
  nblk : Nat
  n : Nat
  user : Bytes

section

variable (crc : Bytes → UInt32)

def footer (nblk : Nat) (n : UInt64) (user : Bytes) : Bytes :=
  magic ++ Bytes.ofNatLE 4 version ++ Bytes.ofNatLE 4 blockSize ++ Bytes.ofNatLE 8 n.toNat ++
    Bytes.ofNatLE 8 nblk ++ Bytes.ofNatLE 8 (nblk * blockSize) ++ user

def FileWriter.close (w : FileWriter) : Bytes :=
  let w := w.flush
  let ft := footer (w.index.length / prefixLen) w.n w.user.val
  w.out ++ w.index ++ (ft ++ Bytes.ofNatLE 4 (crc (w.index ++ ft)).toNat)

def writeFile (user : FixedBytes 32) (rows : List Row) : Except String Bytes :=
  (rows.foldlM (fun (w : FileWriter) r => w.add r.1 r.2) (FileWriter.new user)).map (FileWriter.close crc)

def openFile (path : String) (mm : Bytes) : Except String File :=
  let size := mm.length
  if size < footerLen then
    .error s!"latest: {path}: {size} bytes, no footer"
  else
    let ft := mm.drop (size - footerLen)
    let nblk := Bytes.toNatLE ((ft.drop 24).take 8)
    let ioff := Bytes.toNatLE ((ft.drop 32).take 8)
    if ft.take 8 ≠ magic ∨ Bytes.toNatLE ((ft.drop 8).take 4) ≠ version ∨ Bytes.toNatLE ((ft.drop 12).take 4) ≠ blockSize ∨
        nblk > size / blockSize ∨ ioff ≠ nblk * blockSize % 2 ^ 64 ∨
        (ioff + nblk * prefixLen + footerLen) % 2 ^ 64 ≠ size then
      .error s!"latest: {path}: bad footer"
    else
      let index := (mm.drop ioff).take (nblk * prefixLen)
      if (crc (index ++ ft.take 72)).toNat ≠ Bytes.toNatLE (ft.drop 72) then
        .error s!"latest: {path}: index checksum mismatch"
      else
        .ok ⟨mm, index, nblk, Bytes.toNatLE ((ft.drop 16).take 8), (ft.drop 40).take 32⟩

end

def scanFrom (b key : Bytes) (used i eq : Nat) : Option Bytes :=
  if i < used then
    let sh := (b.getD i 0).toNat
    let un := (b.getD (i + 1) 0).toNat
    let vl := (b.getD (i + 2) 0).toNat
    if sh < eq then
      none
    else if sh = eq then
      let suf := (b.drop (i + 3)).take un
      let rest := key.drop eq
      let j := common suf rest
      if behind suf rest j then
        none
      else if j = suf.length ∧ suf.length = rest.length then
        some ((b.drop (i + 3 + un)).take vl)
      else
        scanFrom b key used (i + 3 + un + vl) (eq + j)
    else
      scanFrom b key used (i + 3 + un + vl) eq
  else
    none
  termination_by used - i

def blockUsed (b : Bytes) : Nat := Bytes.toNatLE (b.take 2)

def scanBlock (b key : Bytes) : Option Bytes := scanFrom b key (blockUsed b) 2 0

namespace File

variable (f : File)

def block (b : Nat) : Bytes := (f.mm.drop (b * blockSize)).take blockSize

def indexKey (b : Nat) : Bytes := (f.index.drop (b * prefixLen)).take prefixLen

def firstKey (b : Nat) : Bytes := ((f.block b).drop 5).take ((f.block b).getD 3 0).toNat

def seek (key : Bytes) : Option Nat :=
  let kp := pad key
  match bsearch (fun m => f.indexKey m ≤ kp) 0 f.nblk with
  | 0 => none
  | b + 1 =>
    if f.indexKey b ≠ kp ∨ f.firstKey b ≤ key then
      some b
    else
      let lo := bsearch (fun m => f.indexKey m < kp) 0 b
      match bsearch (fun m => f.firstKey m ≤ key) lo b with
      | 0 => none
      | b + 1 => some b

def get (key : Bytes) : Option Bytes :=
  match f.seek key with
  | none => none
  | some b => scanBlock (f.block b) key

def steps (next used i : Nat) (key : Bytes) : List Row :=
  if i < used then
    let b := f.block (next - 1)
    let sh := (b.getD i 0).toNat
    let un := (b.getD (i + 1) 0).toNat
    let vl := (b.getD (i + 2) 0).toNat
    let key := key.take sh ++ (b.drop (i + 3)).take un
    (key, (b.drop (i + 3 + un)).take vl) :: steps next used (i + 3 + un + vl) key
  else if next < f.nblk then
    steps (next + 1) (blockUsed (f.block next)) 2 key
  else
    []
  termination_by (f.nblk - next, used - i)

def iter (lo hi : Option Bytes) : List Row :=
  let start := (lo.bind f.seek).getD 0
  ((f.steps start 0 0 []).dropWhile (fun row => lo.any (fun lo => row.1 < lo))).takeWhile
    (fun row => hi.all (fun hi => row.1 < hi))

end File

end EpochDB.Latest.Disk
