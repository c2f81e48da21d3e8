import EpochDB.Latest.View
import EpochDB.Lib.FlatState
import EpochDB.Lib.Transition
import EpochDB.Store.Format

/-!
The layered state engine (`vmexec/engine.go`): a fresh overlay over a frozen one over the rolled runs.
An account delete tombstones every live slot under the account, found through the layers behind a gate
of owner sets.
-/

namespace EpochDB.VmExec

open Store (Hash)
open Latest

inductive Key where
  | account (h : Hash)
  | slot (ah slotHash : Hash)
  deriving DecidableEq

def accountKey (h : Hash) : Bytes := h.val ++ [0]

def slotKey (ah slotHash : Hash) : Bytes := ah.val ++ [1] ++ slotHash.val

def Key.bytes : Key → Bytes
  | account h => accountKey h
  | slot ah slotHash => slotKey ah slotHash

structure Op where
  k : Key
  v : Bytes

inductive Roll where
  | idle
  | running (view : View)
  | done (run : Option Run)

structure Engine where
  overlay : Overlay
  frozen : Option Overlay
  under : Option Overlay
  runs : List Run
  owners : List Hash
  frozenOwners : List Hash
  rollDone : Roll

namespace Engine

def view (s : Engine) : View := ⟨s.overlay :: s.under.toList, s.runs⟩

def rebuildView (s : Engine) : Engine := { s with under := s.frozen }

def get (s : Engine) (key : Bytes) : Option Bytes := s.view.get key

def put (s : Engine) (key val : Bytes) : Engine := { s with overlay := s.overlay.put key val }

def slotRange (ah : Hash) : Option Bytes × Option Bytes := (some (ah.val ++ [1]), some (ah.val ++ [2]))

def tombstoneSlots (s : Engine) (ah : Hash) : Engine :=
  let (lo, hi) := slotRange ah
  if ah ∉ s.owners ∧ ah ∉ s.frozenOwners ∧ ((View.mk [] s.runs).iter lo hi).rows = [] then
    s
  else
    let keys := (s.view.iter lo hi).rows.map (·.1)
    keys.foldl (fun s k => s.put k []) s

def applyOp (s : Engine) (op : Op) : Engine :=
  match op.k with
  | .account h =>
    let s := if op.v.isEmpty then s.tombstoneSlots h else s
    s.put op.k.bytes op.v
  | .slot ah _ =>
    let s := if op.v.isEmpty then s else { s with owners := s.owners.insert ah }
    s.put op.k.bytes op.v

def applyOverlay (s : Engine) (ws : List Op) : Engine := ws.foldl applyOp s

def maybeRoll (s : Engine) (budget : Nat) : Engine :=
  if s.frozen.isSome ∨ s.overlay.bytes < budget then
    s
  else
    rebuildView
      { s with
        frozen := some s.overlay, overlay := .empty, frozenOwners := s.owners, owners := []
        rollDone := .running ⟨[s.overlay], s.runs⟩ }

def mergeDone (s : Engine) (ok : Bool) : Engine :=
  match s.rollDone with
  | .running view => { s with rollDone := .done (if ok then some view.merge else none) }
  | _ => s

def finishRoll (s : Engine) (ok : Bool) : Engine × Bool :=
  match s.rollDone with
  | .done (some run) =>
    if ok then
      (rebuildView { s with runs := [run], frozen := none, frozenOwners := [], rollDone := .idle }, false)
    else
      ({ s with frozen := none, rollDone := .idle }, true)
  | .done none => ({ s with frozen := none, rollDone := .idle }, true)
  | _ => (s, false)

structure GenesisAccount where
  h : Hash
  row : Bytes
  row_ne : row ≠ []
  storage : List (Hash × Hash)

def trimLeftZeroes (bs : Bytes) : Bytes := bs.dropWhile (· == 0)

def GenesisAccount.ops (a : GenesisAccount) : List Op :=
  ⟨.account a.h, a.row⟩ ::
    (a.storage.filter (fun (_, v) => v ≠ FixedBytes.fill 32 0)).map
      (fun (slot, v) => ⟨.slot a.h slot, trimLeftZeroes v.val⟩)

def seed (alloc : List GenesisAccount) : Overlay :=
  (alloc.flatMap GenesisAccount.ops).foldl (fun o op => o.put op.k.bytes op.v) .empty

def newEngine (alloc : List GenesisAccount) : Engine where
  overlay := .empty
  frozen := none
  under := none
  runs := [View.merge ⟨[seed alloc], []⟩]
  owners := []
  frozenOwners := []
  rollDone := .idle

end Engine

abbrev State := FlatState Hash Hash Bytes

def State.read (s : State) : Key → Option Bytes
  | .account h => s.account h
  | .slot ah slotHash => s.slot ah slotHash

def Op.write (op : Op) : FlatWrite Hash Hash Bytes :=
  match op.k with
  | .account h => .account h (View.live (some op.v))
  | .slot ah slotHash => .slot ah slotHash (View.live (some op.v))

def State.empty : State := ⟨fun _ => none, fun _ _ => none⟩

def State.apply (s : State) (ws : List Op) : State := s.replay (ws.map Op.write)

end EpochDB.VmExec
