import EpochDB.Lib.Bits

/-!
The posting chunk (`store/ef/ef.go`): a sorted list of TxNums as an Elias-Fano sequence, followed by a
fixed width payload for each entry. A bit vector is the list of its bits, least significant first.
-/

namespace EpochDB.Store.Ef

def maxEntries : Nat := 4096

structure Writer where
  vec : List Bool
  bits : Nat
  ones : Nat

namespace Writer

def empty : Writer := ⟨[], 0, 0⟩

def grow (vec : List Bool) (n : Nat) : List Bool := vec ++ List.replicate (8 * n - vec.length) false

def set (w : Writer) (i : Nat) : Writer :=
  { w with vec := (grow w.vec (i / 8 + 1)).set i true, bits := max w.bits (i + 1) }

def pad (w : Writer) (n : Nat) : Writer :=
  let vec := grow w.vec ((n + 7) / 8)
  { w with vec := vec, bits := vec.length }

def putBit (w : Writer) (b : Bool) : Writer :=
  let vec := if w.bits % 8 = 0 then w.vec ++ List.replicate 8 false else w.vec
  { w with vec := if b then vec.set w.bits true else vec, bits := w.bits + 1 }

def put (w : Writer) (x nbits : Nat) : Writer := (Bits.ofNat nbits x).foldl putBit w

end Writer

def lowBits (n span : Nat) : Nat := if n > 0 ∧ span / n > 0 then Nat.size (span / n) else 0

def Writer.setEntry (w : Writer) (hi : Nat) : Writer :=
  let w := w.set (hi + w.ones)
  { w with ones := w.ones + 1 }

def vectors (base : UInt64) (txnums : List UInt64) (payload : List UInt8) (payloadBits span low : Nat) : Writer :=
  let upperLen := span / 2 ^ low + txnums.length
  let w := txnums.foldl (fun w t => w.setEntry ((t - base).toNat / 2 ^ low)) Writer.empty
  let w := w.pad upperLen
  let w := txnums.foldl (fun w t => w.put (t - base).toNat low) w
  if payloadBits > 0 then payload.foldl (fun w p => w.put p.toNat payloadBits) w else w

def spanOf (base : UInt64) (txnums : List UInt64) : Nat :=
  match txnums.getLast? with
  | some t => (t - base).toNat
  | none => 0

def encode (base : UInt64) (txnums : List UInt64) (payload : List UInt8) (payloadBits : Nat) : Bytes :=
  let n := txnums.length
  let span := spanOf base txnums
  let low := lowBits n span
  appendUvarint n ++ appendUvarint low ++ appendUvarint payloadBits ++
    Bits.pack (vectors base txnums payload payloadBits span low).vec

inductive Decoded where
  | chunk (txnums : List UInt64) (payload : Option (List UInt8))
  | corrupt
  | panic
  deriving DecidableEq, Repr

def toInt (x : Nat) : Int := if x < 2 ^ 63 then x else x - 2 ^ 64

def unary (bits : List Bool) (hi : Nat) : Option (Nat × List Bool) :=
  match bits with
  | [] => none
  | true :: bits => some (hi, bits)
  | false :: bits => unary bits (hi + 1)

def uppers (n : Nat) (bits : List Bool) (hi : Nat) : Option (List Nat × List Bool) :=
  match n with
  | 0 => some ([], bits)
  | n + 1 => do
    let (hi, bits) ← unary bits hi
    let (his, bits) ← uppers n bits hi
    return (hi :: his, bits)

def gets (n width : Nat) (bits : List Bool) : Option (List Nat × List Bool) :=
  match n with
  | 0 => some ([], bits)
  | n + 1 => do
    let (x, bits) ← Bits.get width bits
    let (xs, bits) ← gets n width bits
    return (x :: xs, bits)

def decodeBits (base : UInt64) (n low pb : Nat) (bits : List Bool) : Decoded :=
  match uppers n bits 0 with
  | none => .corrupt
  | some (his, bits) =>
    -- the upper vector is byte padded
    match gets n low (bits.drop (bits.length % 8)) with
    | none => .corrupt
    | some (los, bits) =>
      let txnums := (his.zip los).map (fun (hi, lo) => base + UInt64.ofNat (hi * 2 ^ low) + UInt64.ofNat lo)
      if pb > 0 then
        match gets n pb bits with
        | none => .corrupt
        | some (payload, _) => .chunk txnums (some (payload.map UInt8.ofNat))
      else
        .chunk txnums none

def decode (base : UInt64) (v : Bytes) : Decoded :=
  match uvarint v 0 0 with
  | none => .corrupt
  | some (n64, v) =>
    match uvarint v 0 0 with
    | none => .corrupt
    | some (low64, v) =>
      match uvarint v 0 0 with
      | none => .corrupt
      | some (pb64, v) =>
        let n := toInt n64
        let low := toInt low64
        let pb := toInt pb64
        if n > maxEntries ∨ low > 64 ∨ pb > 8 then
          .corrupt
        else if n < 0 then
          .panic
        else if low < 0 ∧ n > 0 then
          match uppers n.toNat (Bits.unpack v) 0 with
          | none => .corrupt
          | some _ => .panic
        else
          decodeBits base n.toNat low.toNat pb.toNat (Bits.unpack v)

end EpochDB.Store.Ef
