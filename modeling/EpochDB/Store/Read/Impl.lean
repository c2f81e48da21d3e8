import EpochDB.Store.Sealed.Impl
import EpochDB.Store.Table.Impl

/-!
The read path of the store (`store/db.go`): the two windows, then the runs newest to oldest. What a
read takes from the database is a `View`; the descents over the runs stand on their own, because a
reader takes the windows and the run list at different moments.
-/

namespace EpochDB.Store.Read

open Sealed (FilterPolicy)

structure View where
  mem : Memtable
  frozen : Option Memtable
  runs : List Sealed.Run

section

variable (policy : FilterPolicy)

def inRun (n : UInt64) (byHeight : Bool) (r : Sealed.Run) : Bool :=
  if byHeight then
    n ≥ r.footer.fromHeight && n ≤ r.footer.toHeight
  else
    n ≥ r.footer.fromTx && n < r.footer.toTx

def runChainRow (runs : List Sealed.Run) (fam : Fam) (n : UInt64) (byHeight : Bool) : Option Bytes :=
  match runs.reverse.find? (inRun n byHeight) with
  | some r => r.get policy .chain (numKey (famPrefix fam) n)
  | none => none

def keyText (key : Bytes) : String := String.ofList ((key.take 5).map (fun b => Char.ofNat b.toNat))

def runLookupNum (runs : List Sealed.Run) (key : Bytes) : Except String (Option UInt64) :=
  match runs.reverse.findSome? (fun r => r.get policy .lookup key) with
  | some v =>
    if v.length ≠ 8 then
      .error s!"store: {keyText key} row is {v.length} bytes, want 8"
    else
      .ok (some (Bytes.uint64 v))
  | none => .ok none

def runLatest (runs : List Sealed.Run) (key : Bytes) (n : UInt64) : Option MemVal :=
  (runs.reverse.filter (fun r => !(r.footer.fromTx > n))).findSome? (fun r => r.latest policy .state key n)

def runCode (runs : List Sealed.Run) (hash : Bytes) : Option Bytes :=
  runs.reverse.findSome? (fun r => r.get policy .state (codeKey hash))

def runPostings (r : Sealed.Run) (pfx : Bytes) (lo hi : UInt64) : Except String (List Posting) :=
  if r.footer.toTx ≤ lo || r.footer.fromTx > hi then .ok [] else r.scanChunks policy pfx lo hi

end

section

variable (policy : FilterPolicy) (v : View)

def chainRow (fam : Fam) (n : UInt64) (byHeight : Bool) : Option Bytes :=
  (v.mem.chainGet fam n).or ((v.frozen.bind (·.chainGet fam n)).or (runChainRow policy v.runs fam n byHeight))

def lookupNum (key : Bytes) : Except String (Option UInt64) :=
  match (v.mem.lookupNum key).or (v.frozen.bind (·.lookupNum key)) with
  | some n => .ok (some n)
  | none => runLookupNum policy v.runs key

def txNumByHash (hash : Bytes) : Except String (Option UInt64) := lookupNum policy v (txHashKey hash)
def heightByHash (hash : Bytes) : Except String (Option UInt64) := lookupNum policy v (blkHashKey hash)
def heightByContainerID (id : Bytes) : Except String (Option UInt64) := lookupNum policy v (cidKey id)

def latest (key : Bytes) (n : UInt64) : Option Bytes :=
  ((v.mem.latestState key n).or ((v.frozen.bind (·.latestState key n)).or (runLatest policy v.runs key n))).map (·.val)

def code (hash : Bytes) : Option Bytes :=
  (v.mem.codeBlob hash).or ((v.frozen.bind (·.codeBlob hash)).or (runCode policy v.runs hash))

end

def feed (fn : σ → α → σ × Bool) (s : σ) : List α → σ × Bool
  | [] => (s, true)
  | e :: es =>
    match fn s e with
    | (s, true) => feed fn s es
    | (s, false) => (s, false)

def feedAll (fn : σ → α → σ × Bool) (s : σ) : List (Except String (List α)) → Except String (σ × Bool)
  | [] => .ok (s, true)
  | .error e :: _ => .error e
  | .ok es :: sources =>
    match feed fn s es with
    | (s, true) => feedAll fn s sources
    | (s, false) => .ok (s, false)

def ascending (p q : Posting) : Prop := p.txnum ≤ q.txnum
def descending (p q : Posting) : Prop := p.txnum ≥ q.txnum

instance (p q : Posting) : Decidable (ascending p q) := inferInstanceAs (Decidable (_ ≤ _))
instance (p q : Posting) : Decidable (descending p q) := inferInstanceAs (Decidable (_ ≥ _))

def sortEntries (desc : Bool) (es : List Posting) : List Posting :=
  if desc then es.insertionSort descending else es.insertionSort ascending

def windowPostings (mem : Memtable) (frozen : Option Memtable) : List Posting :=
  (frozen.map (·.post)).getD [] ++ mem.post

def windowEntries (mem : Memtable) (frozen : Option Memtable) (pfx : Bytes) (lo hi : UInt64) : List Posting :=
  (windowPostings mem frozen).filter (fun p => p.txnum ≥ lo && p.txnum ≤ hi && pfx.isPrefixOf p.group)

def runSources (policy : FilterPolicy) (runs : List Sealed.Run) (pfx : Bytes) (lo hi : UInt64) (desc : Bool)
    : List (Except String (List Posting)) :=
  (if desc then runs.reverse else runs).map (fun r => (runPostings policy r pfx lo hi).map (sortEntries desc))

def windowSource (mem : Memtable) (frozen : Option Memtable) (pfx : Bytes) (lo hi : UInt64) (desc : Bool)
    : Except String (List Posting) :=
  .ok (sortEntries desc (windowEntries mem frozen pfx lo hi))

def postings (policy : FilterPolicy) (v : View) (pfx : Bytes) (lo hi : UInt64) (desc : Bool)
    (fn : σ → Posting → σ × Bool) (s : σ) : Except String σ :=
  let window := windowSource v.mem v.frozen pfx lo hi desc
  let runs := runSources policy v.runs pfx lo hi desc
  (feedAll fn s (if desc then window :: runs else runs ++ [window])).map (·.1)

def windowSets (mem : Memtable) (frozen : Option Memtable) (pfx : Bytes) : List Bytes :=
  Sealed.sortBytes (((frozen.map (·.sets)).getD [] ++ mem.sets).filter (fun k => pfx.isPrefixOf k))

def visited (seen : List Bytes) : List Bytes → List Bytes
  | [] => []
  | k :: ks => if k ∈ seen then visited seen ks else k :: visited (k :: seen) ks

theorem visited_cons (seen : List Bytes) (k : Bytes) (ks : List Bytes)
    : visited seen (k :: ks) = if k ∈ seen then visited seen ks else k :: visited (k :: seen) ks := rfl

def setScan (policy : FilterPolicy) (v : View) (pfx : Bytes) : List Bytes :=
  visited [] (v.runs.flatMap (fun r => r.scanSet policy pfx) ++ windowSets v.mem v.frozen pfx)

end EpochDB.Store.Read
