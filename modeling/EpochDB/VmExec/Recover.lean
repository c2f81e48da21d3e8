import Mathlib
import EpochDB.Store.Mem.Impl
import EpochDB.VmExec.Engine

/-!
Recovery (`vmexec/recover.go`): the state rows written after the roll, compressed to the newest row
of every key and the newest delete of every account, are expanded into one write set again.
-/

namespace EpochDB.VmExec

open Store (Addr Hash Crypto)
open Latest

inductive RowKey where
  | account (addr : Addr)
  | code (addr : Addr)
  | slot (addr : Addr) (slot : Hash)
  deriving DecidableEq

namespace RowKey

def bytes : RowKey → Bytes
  | account addr => Store.accountPrefix addr
  | code addr => Store.codeRefPrefix addr
  | slot addr k => Store.slotPrefix addr k

def addr : RowKey → Addr
  | account addr => addr
  | code addr => addr
  | slot addr _ => addr

end RowKey

structure Row where
  key : RowKey
  tx : Nat
  val : Bytes
  deriving DecidableEq

structure Codec (Account : Type) where
  encode : Account → Bytes
  decode : Bytes → Except String Account
  accountRow : Account → Bytes
  decode_encode : ∀ acc, decode (encode acc) = .ok acc
  encode_ne : ∀ acc, encode acc ≠ []
  accountRow_ne : ∀ acc, accountRow acc ≠ []

/--
What `rebuild` reads of the store: the state rows of its runs as the scans yield them and the boundary
slots of its blocks.
-/
structure Db where
  rows : List Row
  txNumAtEndOf : Nat → Except String (Option Nat)

structure Scan where
  latest : AList (fun _ : RowKey => Nat × Bytes)
  dels : AList (fun _ : Addr => Nat)

namespace Scan

def empty : Scan := ⟨∅, ∅⟩

def addLatest (s : Scan) (row : Row) : Scan :=
  match s.latest.lookup row.key with
  | some cur => if cur.1 < row.tx then { s with latest := s.latest.insert row.key (row.tx, row.val) } else s
  | none => { s with latest := s.latest.insert row.key (row.tx, row.val) }

def addDelete (s : Scan) (row : Row) : Scan :=
  match row.key with
  | .account addr =>
    -- an address the map does not have reads as 0
    if row.val = [] ∧ (s.dels.lookup addr).getD 0 < row.tx then
      { s with dels := s.dels.insert addr row.tx }
    else
      s
  | _ => s

def add (lo hi : Nat) (s : Scan) (row : Row) : Scan :=
  if row.tx < lo ∨ hi < row.tx then s else (s.addLatest row).addDelete row

def ofRows (lo hi : Nat) (rows : List Row) : Scan := rows.foldl (add lo hi) empty

def sorted (s : Scan) : List RowKey := s.latest.keys.insertionSort (fun k k' => k.bytes ≤ k'.bytes)

end Scan

structure Cursor where
  cur : Option Addr
  deleted : Bool
  del : Option Nat

namespace Cursor

def start : Cursor := ⟨none, false, none⟩

def visit (c : Cursor) (s : Scan) (addr : Addr) : Cursor :=
  if c.cur = some addr then c else ⟨some addr, false, s.dels.lookup addr⟩

end Cursor

section

variable {Account : Type} (codec : Codec Account) (crypto : Crypto)

def addrHash (addr : Addr) : Hash := crypto.keccak256 addr.val

def slotHash (slot : Hash) : Hash := crypto.keccak256 slot.val

def expand (s : Scan) (keys : List RowKey) (c : Cursor) : Except String (List Op) :=
  match keys with
  | [] => .ok []
  | k :: keys =>
    let c := c.visit s k.addr
    let (tx, val) := (s.latest.lookup k).getD (0, [])
    match k with
    | .account addr =>
      let ah := addrHash crypto addr
      if val = [] then
        (expand s keys { c with deleted := true }).map (fun ws => ⟨.account ah, []⟩ :: ws)
      else
        match codec.decode val with
        | .error e => .error s!"rebuild: account {Bytes.hex addr.val}: {e}"
        | .ok acc =>
          -- destroyed, then recreated: the old slots go first
          let first := if c.del.isSome then [⟨.account ah, []⟩] else []
          (expand s keys c).map (fun ws => first ++ ⟨.account ah, codec.accountRow acc⟩ :: ws)
    | .code _ => expand s keys c
    | .slot addr slot =>
      if c.deleted ∨ c.del.any (fun delTx => tx < delTx) then
        expand s keys c
      else
        (expand s keys c).map (fun ws => ⟨.slot (addrHash crypto addr) (slotHash crypto slot), val⟩ :: ws)

namespace Engine

def openEngine (run : Run) : Engine where
  overlay := .empty
  frozen := none
  under := none
  runs := [run]
  owners := []
  frozenOwners := []
  rollDone := .idle

def window (db : Db) (rolledAt head : Nat) : Except String (Nat × Nat) :=
  let failed (height : Nat) (err : String) (ok : Bool) := s!"rebuild: block {height}: {err} (ok={ok})"
  match if rolledAt = 0 then .ok (some 0) else (db.txNumAtEndOf rolledAt).map (·.map (· + 1)) with
  | .error e => .error (failed rolledAt e false)
  | .ok none => .error (failed rolledAt "<nil>" false)
  | .ok (some lo) =>
    match db.txNumAtEndOf head with
    | .error e => .error (failed head e false)
    | .ok none => .error (failed head "<nil>" false)
    | .ok (some hi) => .ok (lo, hi)

def rebuild (s : Engine) (db : Db) (rolledAt head : Nat) : Except String (Engine × List Op) :=
  match window db rolledAt head with
  | .error e => .error e
  | .ok (lo, hi) =>
    let scan := Scan.ofRows lo hi db.rows
    match expand codec crypto scan scan.sorted .start with
    | .error e => .error e
    | .ok ws => .ok (s.applyOverlay ws, ws)

end Engine

inductive Write (Account : Type) where
  | account (addr : Addr) (acc : Option Account)
  | code (addr : Addr) (hash : Bytes)
  | slot (addr : Addr) (slot : Hash) (val : Bytes)

namespace Write

def key : Write Account → RowKey
  | account addr _ => .account addr
  | code addr _ => .code addr
  | slot addr k _ => .slot addr k

def val : Write Account → Bytes
  | account _ none => []
  | account _ (some acc) => codec.encode acc
  | code _ hash => hash
  | slot _ _ val => val

def op : Write Account → Option Op
  | account addr none => some ⟨.account (addrHash crypto addr), []⟩
  | account addr (some acc) => some ⟨.account (addrHash crypto addr), codec.accountRow acc⟩
  | code .. => none
  | slot addr k val => some ⟨.slot (addrHash crypto addr) (slotHash crypto k), val⟩

end Write

structure Block (Account : Type) where
  txs : List (List (Write Account))
  tail : List (Write Account)

namespace Block

def slots (b : Block Account) : Nat := b.txs.length + 1

def ops (b : Block Account) : List Op := (b.txs.flatten ++ b.tail).filterMap (Write.op codec crypto)

def numbered (b : Block Account) (first : Nat) : List (Nat × Write Account) :=
  ((b.txs ++ [b.tail]).zipIdx first).flatMap (fun (ws, n) => ws.map (fun w => (n, w)))

end Block

def numbered (first : Nat) (bs : List (Block Account)) : List (Nat × Write Account) :=
  match bs with
  | [] => []
  | b :: bs => b.numbered first ++ numbered (first + b.slots) bs

def Engine.execute (s : Engine) (bs : List (Block Account)) : Engine :=
  bs.foldl (fun s b => s.applyOverlay (b.ops codec crypto)) s

def row (w : Nat × Write Account) : Row := ⟨w.2.key, w.1, w.2.val codec⟩

def recorded (rows : List Row) : List Row :=
  match rows with
  | [] => []
  | row :: rows =>
    if ∃ row' ∈ rows, row'.key = row.key ∧ row'.tx = row.tx then
      recorded rows
    else
      row :: recorded rows

/--
The store holds the blocks above the roll: `first` is the TxNum after the roll's boundary slot, and in
the window are the blocks' rows and no others.
-/
structure Db.Holds (db : Db) (rolledAt first : Nat) (bs : List (Block Account)) : Prop where
  rolled : rolledAt = 0 ∨ ∃ end_, db.txNumAtEndOf rolledAt = .ok (some end_) ∧ first = end_ + 1
  head : ∃ end_, db.txNumAtEndOf (rolledAt + bs.length) = .ok (some end_) ∧
    end_ + 1 = first + (bs.map Block.slots).sum
  rows : (db.rows.filter (fun row =>
      (rolledAt = 0 ∨ first ≤ row.tx) ∧ row.tx < first + (bs.map Block.slots).sum)).Perm
    (recorded ((numbered first bs).map (row codec)))

end

end EpochDB.VmExec
