import EpochDB.Lib.Bytes
import EpochDB.Lib.Transition

/-!
The plugin VM (`vmchain/vm.go`): `Initialize` over a data dir, `verify`, the executor that writes and
publishes the blocks it is handed, and kills. The consensus engine makes one call at a time.
-/

namespace EpochDB.VmChain

abbrev ID := FixedBytes 32

structure Env where
  genesisHash : ID
  genesisRoot : ID
  str : ID → String

structure Header where
  hash : ID
  root : ID
  deriving DecidableEq

structure Manifest where
  height : Nat
  root : ID
  deriving DecidableEq

structure Dir where
  headers : List Header
  manifest : Option Manifest
  deriving DecidableEq

structure Block where
  id : ID
  parent : ID
  root : ID
  height : Nat
  genesis : Bool
  deriving DecidableEq

structure VM where
  headers : List Header
  manifest : Option Manifest
  live : Nat
  headID : ID
  runErr : Option String
  src : Nat → Option Block
  waiting : Option Block

def header (headers : List Header) (n : Nat) : Except String Header :=
  match n with
  | 0 => .error "the store holds no header at 0"
  | n + 1 =>
    match headers[n]? with
    | none => .error s!"the store holds no header at {n + 1}"
    | some h => .ok h

def heightByHash (headers : List Header) (id : ID) : Option Nat :=
  ((headers.zipIdx 1).reverse.find? (·.1.hash = id)).map (·.2)

def rolledRoot (env : Env) (d : Dir) (m : Manifest) : Except String ID :=
  if m.height > 0 then Header.root <$> header d.headers m.height else .ok env.genesisRoot

def recover (env : Env) (d : Dir) (m : Manifest) : Except String Nat :=
  match rolledRoot env d m with
  | .error err => .error err
  | .ok want =>
    if m.root ≠ want then
      .error s!"vmstate rolled at height {m.height} with root {m.root.val.hex}, but the chain's root there is {want.val.hex}"
    else if d.headers.length < m.height then
      .error s!"vmstate rolled at height {m.height}, but the store holds blocks only through {d.headers.length}"
    else
      .ok d.headers.length

def newExecutor (env : Env) (d : Dir) : Except String (Nat × Manifest) :=
  match d.manifest with
  | none =>
    if d.headers.length > 0 then
      .error s!"data dir holds blocks through {d.headers.length} but vmstate has no manifest (an older build wrote it): start from an empty dir"
    else
      .ok (0, ⟨0, env.genesisRoot⟩)
  | some m =>
    match recover env d m with
    | .error err => .error err
    | .ok head => .ok (head, m)

def initializeVM (env : Env) (d : Dir) : Except String VM :=
  match newExecutor env d with
  | .error err => .error s!"vmchain: vmexec.New: {err}"
  | .ok (live, m) =>
    .ok { headers := d.headers, manifest := some m, live, headID := env.genesisHash, runErr := none,
          src := fun _ => none, waiting := none }

namespace VM

def dir (vm : VM) : Dir := ⟨vm.headers, vm.manifest⟩

def getBlockIDAtHeight (env : Env) (vm : VM) (height : Nat) : Except String ID :=
  if height = 0 then
    .ok env.genesisHash
  else if height > vm.live then
    .error "not found"
  else
    Header.hash <$> header vm.headers height

def lastAccepted (env : Env) (vm : VM) : Except String ID := vm.getBlockIDAtHeight env vm.live

inductive Verdict where
  | accepted
  | refused (err : String)
  | handed
  deriving DecidableEq

def verify (env : Env) (vm : VM) (b : Block) : Verdict × VM :=
  if b.genesis then
    (.accepted, vm)
  else if b.height ≤ vm.live then
    if heightByHash vm.headers b.id ≠ some b.height then
      (.refused s!"vmchain: block {b.height} {env.str b.id} is not the block executed at that height", vm)
    else
      (.accepted, vm)
  else
    match vm.runErr with
    | some err => (.refused err, vm)
    | none =>
      if b.height ≠ vm.live + 1 then
        (.refused s!"vmchain: block {b.height} verified out of order: executed head is {vm.live}", vm)
      else if b.parent ≠ vm.headID then
        (.refused s!"vmchain: block {b.height} parent {env.str b.parent} is not the executed head {env.str vm.headID}", vm)
      else
        (.handed, { vm with src := Function.update vm.src b.height (some b), waiting := some b })

def wake (vm : VM) : Option VM :=
  match vm.waiting with
  | none => none
  | some b =>
    if b.height ≤ vm.live then
      some { vm with headID := b.id, waiting := none }
    else
      match vm.runErr with
      | some _ => some { vm with waiting := none }
      | none => none

def write (vm : VM) : Option VM :=
  match vm.runErr, vm.src (vm.headers.length + 1) with
  | none, some b =>
    some { vm with
      headers := vm.headers ++ [⟨b.id, b.root⟩]
      src := Function.update vm.src (vm.headers.length + 1) none }
  | _, _ => none

def publish (vm : VM) : Option VM :=
  match vm.runErr with
  | none => if vm.live < vm.headers.length then some { vm with live := vm.live + 1 } else none
  | some _ => none

end VM

inductive Node where
  | down (d : Dir)
  | up (vm : VM)

inductive Event where
  | init
  | verify (b : Block)
  | wake
  | write
  | publish
  | exit (err : String)
  | kill

def step (env : Env) : Node → Event → Option Node
  | .down d, .init =>
    match initializeVM env d with
    | .error _ => none
    | .ok vm => some (.up vm)
  | .up vm, .verify b =>
    match vm.waiting with
    | none => some (.up (vm.verify env b).2)
    | some _ => none
  | .up vm, .wake => vm.wake.map .up
  | .up vm, .write => vm.write.map .up
  | .up vm, .publish => vm.publish.map .up
  | .up vm, .exit err =>
    match vm.runErr with
    | none => some (.up { vm with runErr := some err })
    | some _ => none
  | .up vm, .kill => some (.down vm.dir)
  | _, _ => none

end EpochDB.VmChain
