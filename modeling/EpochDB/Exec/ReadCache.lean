import EpochDB.Lib.AListTotal
import EpochDB.Lib.FlatState
import EpochDB.Lib.Transition
import EpochDB.Store.Format

/-!
The read cache of the executor (`exec/capture.go`): a wrapper around Firewood's trie that keeps what was read
and written, drops whole accounts when it is over its cap, and in a batch remembers the accounts that were
deleted and the slots written for them since.
-/

namespace EpochDB.Exec

open Function
open Store (Addr Hash)

abbrev Frontier := FlatState Addr Hash Bytes
abbrev FrontierWrite := FlatWrite Addr Hash Bytes

structure Overlay where
  base : Frontier
  accounts : Addr → Option (Option Bytes)
  slots : Addr → Hash → Option (Option Bytes)
  deleted : Addr → Bool
  next : Frontier

namespace Overlay

def openAt (s : Frontier) : Overlay := ⟨s, fun _ => none, fun _ _ => none, fun _ => false, s⟩

def apply (o : Overlay) (w : FrontierWrite) : Overlay :=
  match w with
  | .account a (some v) => { o with accounts := update o.accounts a (some (some v)), next := o.next.apply w }
  | .account a none =>
    { o with
      accounts := update o.accounts a (some none)
      slots := update o.slots a (fun _ => none)
      deleted := update o.deleted a true
      next := o.next.apply w }
  | .slot a k v =>
    { o with slots := update o.slots a (update (o.slots a) k (some v)), next := o.next.apply w }

def getAccount (o : Overlay) (a : Addr) : Option Bytes := (o.accounts a).getD (o.base.account a)

def getStorage (o : Overlay) (a : Addr) (k : Hash) : Bytes :=
  if o.accounts a = some none then [] else ((o.slots a k).getD (o.base.slot a k)).getD []

end Overlay

structure Firewood (τ : Type) where
  openTrie : Frontier → τ
  update : τ → FrontierWrite → τ
  getAccount : τ → Addr → Option Bytes
  getStorage : τ → Addr → Hash → Bytes
  commit : τ → Frontier
  view : τ → Overlay
  view_openTrie : ∀ s, view (openTrie s) = Overlay.openAt s
  view_update : ∀ t w, view (update t w) = (view t).apply w
  getAccount_eq : ∀ t a, getAccount t a = (view t).getAccount a
  getStorage_eq : ∀ t a k, getStorage t a k = (view t).getStorage a k
  commit_eq : ∀ t, commit t = (view t).next

structure AcctEntry where
  acct : Option Bytes
  acctKnown : Bool
  storage : AList (fun _ : Hash => Bytes)
  cost : UInt64

def entryCost : UInt64 := 256
def slotCost : UInt64 := 104

def AcctEntry.charged (e : AcctEntry) (slot : Hash) : UInt64 :=
  match e.storage.lookup slot with
  | some old => slotCost + UInt64.ofNat old.length
  | none => 0

structure ReadCache where
  entries : AList (fun _ : Addr => AcctEntry)
  size : UInt64

namespace ReadCache

def empty : ReadCache := ⟨∅, 0⟩

def evict (target : UInt64) (addr : Addr) (c : ReadCache) : List Addr → ReadCache
  | [] => c
  | a :: order =>
    if a = addr then
      evict target addr c order
    else
      match c.entries.lookup a with
      | none => evict target addr c order
      | some e =>
        let c := ⟨c.entries.erase a, c.size - e.cost⟩
        if c.size ≤ target then c else evict target addr c order

def entry (cap : UInt64) (c : ReadCache) (addr : Addr) (order : List Addr) : ReadCache × AcctEntry :=
  match c.entries.lookup addr with
  | some e => (c, e)
  | none =>
    let c := if c.size > cap then evict (cap - cap / 8) addr c order else c
    let e := ⟨none, false, ∅, entryCost⟩
    (⟨c.entries.insert addr e, c.size + entryCost⟩, e)

def setAccount (c : ReadCache) (addr : Addr) (e : AcctEntry) (acct : Option Bytes) : ReadCache :=
  { c with entries := c.entries.insert addr { e with acct := acct, acctKnown := true } }

def setSlot (c : ReadCache) (addr : Addr) (e : AcctEntry) (slot : Hash) (val : Bytes) : ReadCache :=
  let add := slotCost + UInt64.ofNat val.length
  let sub := e.charged slot
  ⟨c.entries.insert addr { e with storage := e.storage.insert slot val, cost := e.cost - sub + add }, c.size - sub + add⟩

def drop (c : ReadCache) (addr : Addr) : ReadCache :=
  match c.entries.lookup addr with
  | some e => ⟨c.entries.erase addr, c.size - e.cost⟩
  | none => c

def knownAccount (c : ReadCache) (addr : Addr) : Option (Option Bytes) :=
  (c.entries.lookup addr).bind (fun e => if e.acctKnown then some e.acct else none)

def knownSlot (c : ReadCache) (addr : Addr) (slot : Hash) : Option Bytes :=
  (c.entries.lookup addr).bind (fun e => e.storage.lookup slot)

end ReadCache

/--
The wrapper over the trie that is open. `cache` is `none` without a cache, `batchDeleted` is `none` outside a
batch. `plain` and `committed` are the plain map the reads are compared with, now and at the last boundary;
`dirty` says that there were writes since.
-/
structure Wrapped (τ : Type) where
  cache : Option ReadCache
  cacheCap : UInt64
  batchDeleted : Option (Addr → Option (Hash → Bytes))
  trie : τ
  dirty : Bool
  plain : Frontier
  committed : Frontier

namespace Wrapped

variable {τ : Type} (fw : Firewood τ) (d : Wrapped τ)

def init (cacheBytes : UInt64) (s : Frontier) : Wrapped τ :=
  ⟨if cacheBytes > 0 then some .empty else none, cacheBytes, none, fw.openTrie s, false, s, s⟩

def tombstone (a : Addr) : Option (Hash → Bytes) := d.batchDeleted.bind (· a)

def push (w : FrontierWrite) : Wrapped τ :=
  { d with trie := fw.update d.trie w, plain := d.plain.apply w, dirty := true }

def withEntry (a : Addr) (order : List Addr) (f : ReadCache → AcctEntry → ReadCache) : Wrapped τ :=
  { d with cache := d.cache.map (fun c => let (c, e) := c.entry d.cacheCap a order; f c e) }

def updateAccount (a : Addr) (acc : Bytes) (order : List Addr) : Wrapped τ :=
  (d.withEntry a order (fun c e => c.setAccount a e (some acc))).push fw (.account a (some acc))

def forget (a : Addr) : Wrapped τ :=
  { d with
    cache := d.cache.map (·.drop a)
    batchDeleted := d.batchDeleted.map (fun bd => update bd a (some (fun _ => []))) }

def deleteAccount (a : Addr) : Wrapped τ := (d.forget a).push fw (.account a none)

def noteSlot (a : Addr) (k : Hash) (v : Bytes) (order : List Addr) : Wrapped τ :=
  { d.withEntry a order (fun c e => c.setSlot a e k v) with
    batchDeleted := d.batchDeleted.map (fun bd =>
      update bd a ((bd a).map (fun rw => update rw k v))) }

def updateStorage (a : Addr) (k : Hash) (v : Bytes) (order : List Addr) : Wrapped τ :=
  (d.noteSlot a k v order).push fw (.slot a k (some v))

def deleteStorage (a : Addr) (k : Hash) (order : List Addr) : Wrapped τ :=
  (d.noteSlot a k [] order).push fw (.slot a k none)

def getAccount (a : Addr) (order : List Addr) : Option Bytes × Wrapped τ :=
  match d.cache.bind (·.knownAccount a) with
  | some acct => (acct, d)
  | none =>
    let acct := fw.getAccount d.trie a
    (acct, d.withEntry a order (fun c e => c.setAccount a e acct))

def storageFallthrough (a : Addr) (k : Hash) : Bytes :=
  match d.tombstone a with
  | some rw => rw k
  | none => fw.getStorage d.trie a k

def getStorage (a : Addr) (k : Hash) (order : List Addr) : Bytes × Wrapped τ :=
  match d.cache.bind (·.knownSlot a k) with
  | some v => (v, d)
  | none =>
    let v := storageFallthrough fw d a k
    (v, d.withEntry a order (fun c e => c.setSlot a e k v))

def boundary : Wrapped τ :=
  let s := fw.commit d.trie
  { d with trie := fw.openTrie s, dirty := false, committed := d.plain }

end Wrapped

inductive CacheEvent where
  | updateAccount (a : Addr) (acc : Bytes) (order : List Addr)
  | deleteAccount (a : Addr)
  | updateStorage (a : Addr) (k : Hash) (v : Bytes) (order : List Addr)
  | deleteStorage (a : Addr) (k : Hash) (order : List Addr)
  | getAccount (a : Addr) (order : List Addr)
  | getStorage (a : Addr) (k : Hash) (order : List Addr)
  | endBlock
  | beginBatch
  | endBatch
  | bisect

def cacheStep {τ : Type} (fw : Firewood τ) (d : Wrapped τ) : CacheEvent → Option (Wrapped τ)
  | .updateAccount a acc order => some (d.updateAccount fw a acc order)
  | .deleteAccount a => some (d.deleteAccount fw a)
  | .updateStorage a k v order => some (d.updateStorage fw a k v order)
  | .deleteStorage a k order => some (d.deleteStorage fw a k order)
  | .getAccount a order => some (d.getAccount fw a order).2
  | .getStorage a k order => some (d.getStorage fw a k order).2
  | .endBlock => if d.batchDeleted.isNone then some (d.boundary fw) else none
  | .beginBatch =>
    if d.batchDeleted.isNone && !d.dirty then
      some { d with batchDeleted := some (fun _ => none), trie := fw.openTrie d.committed }
    else
      none
  | .endBatch => if d.batchDeleted.isSome then some { d.boundary fw with batchDeleted := none } else none
  | .bisect =>
    if d.batchDeleted.isSome then
      some { d with
        cache := d.cache.map (fun _ => .empty), batchDeleted := none, trie := fw.openTrie d.committed,
        dirty := false, plain := d.committed }
    else
      none

end EpochDB.Exec
