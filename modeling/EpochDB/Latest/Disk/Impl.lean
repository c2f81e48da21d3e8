import EpochDB.Latest.View
import EpochDB.Lib.BinarySearch
import EpochDB.Lib.FrontCoding

/-!
A run file of the latest state (`latest/run.go`): blocks of front coded entries and an index of the
blocks' first keys. A block is its list of entries; the footer and its checksum are left out.
-/

namespace EpochDB.Latest.Disk

open FrontCoding (common encode decode scan)

abbrev Row := Bytes × Bytes
abbrev Entry := FrontCoding.Entry UInt8 Bytes

def blockSize : Nat := 4096
def prefixLen : Nat := 40
def maxKey : Nat := 255
def maxValue : Nat := 255

def pad (key : Bytes) : Bytes := key.take prefixLen ++ List.replicate (prefixLen - key.length) 0

structure Run where
  blocks : List (List Entry)
  index : List Bytes
  n : Nat
  deriving DecidableEq, Repr

structure Writer where
  blocks : List (List Entry)
  blk : List Entry
  prev : Bytes
  index : List Bytes
  n : Nat

namespace Writer

def new : Writer := ⟨[], [], [], [], 0⟩

def used (blk : List Entry) : Nat := 2 + (blk.map (fun e => 3 + e.suffix.length + e.value.length)).sum

def flush (w : Writer) : Writer :=
  if w.blk = [] then w else { w with blocks := w.blocks ++ [w.blk], blk := [] }

def append (w : Writer) (shared : Nat) (key value : Bytes) : Writer :=
  { w with
    blk := w.blk ++ [⟨shared, key.drop shared, value⟩]
    prev := key
    index := if w.blk = [] then w.index ++ [pad key] else w.index
    n := w.n + 1 }

def add (w : Writer) (key value : Bytes) : Except String Writer :=
  if key.length = 0 ∨ key.length > maxKey ∨ value.length > maxValue then
    .error s!"latest: key {key.length} bytes, value {value.length} bytes (limits 1..{maxKey} and 0..{maxValue})"
  else if w.n > 0 ∧ key ≤ w.prev then
    .error s!"latest: key {key.hex} not after {w.prev.hex}"
  else
    let shared := if w.blk = [] then 0 else common w.prev key
    if w.blk ≠ [] ∧ used w.blk + 3 + key.length - shared + value.length > blockSize then
      .ok (w.flush.append 0 key value)
    else
      .ok (w.append shared key value)

def close (w : Writer) : Run := ⟨w.flush.blocks, w.index, w.n⟩

end Writer

def write (rows : List Row) : Except String Run :=
  (rows.foldlM (fun (w : Writer) r => w.add r.1 r.2) Writer.new).map Writer.close

namespace Run

variable (r : Run)

def block (b : Nat) : List Entry := r.blocks.getD b []

def indexKey (b : Nat) : Bytes := r.index.getD b []

def firstKey (b : Nat) : Bytes := ((r.block b).head?.map (·.suffix)).getD []

def seek (key : Bytes) : Option Nat :=
  let kp := pad key
  match bsearch (fun m => r.indexKey m ≤ kp) 0 r.blocks.length with
  | 0 => none
  | b + 1 =>
    if r.indexKey b ≠ kp ∨ r.firstKey b ≤ key then
      some b
    else
      -- the prefix ties: search the tied range on the full first keys
      let lo := bsearch (fun m => r.indexKey m < kp) 0 b
      match bsearch (fun m => r.firstKey m ≤ key) lo b with
      | 0 => none
      | b + 1 => some b

def get (key : Bytes) : Option Bytes :=
  match r.seek key with
  | none => none
  | some b => scan key 0 (r.block b)

def iter (lo hi : Option Bytes) : List Row :=
  let start := (lo.bind r.seek).getD 0
  let rows := decode [] (r.blocks.drop start).flatten
  (rows.dropWhile (fun row => lo.any (fun lo => row.1 < lo))).takeWhile (fun row => hi.all (fun hi => row.1 < hi))

end Run

end EpochDB.Latest.Disk
