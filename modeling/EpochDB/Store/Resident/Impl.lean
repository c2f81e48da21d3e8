import EpochDB.Lib.BinarySearch
import EpochDB.Lib.Transition
import EpochDB.Store.Resident.Sidecar

/-!
The resident overlay of a section (`sectionReadable` of `store/run.go`) over the artifact of a run
(`Blob` of `dist/dist.go`), the mappings of sidecars that overlays share and the handles of one run that
come and go.
-/

namespace EpochDB.Store.Resident

open Sealed (Section)

structure Artifact where
  bytes : Bytes
  off : Section → Nat
  len : Section → Nat
  within : ∀ s, off s + len s ≤ bytes.length
  small : bytes.length ≤ maxAlloc

def Artifact.sec (a : Artifact) (s : Section) : Bytes := (a.bytes.drop (a.off s)).take (a.len s)

def Artifact.read (a : Artifact) (off n : Nat) : Except String Bytes :=
  if a.bytes.length < off ∨ a.bytes.length - off < n then
    .error s!"dist: range [{off},{(off + n) % 2 ^ 64}) outside a {a.bytes.length} byte artifact"
  else
    .ok ((a.bytes.drop off).take n)

inductive Data where
  | heap (bytes : Bytes)
  | mapped (id : Nat) (start stop : Nat)
  deriving DecidableEq, Repr

def Data.length : Data → Nat
  | .heap bytes => bytes.length
  | .mapped _ start stop => stop - start

structure Held where
  off : UInt64
  data : Data
  deriving DecidableEq, Repr

structure Overlay where
  sec : Section
  res : List Held
  tail : Option (Nat × Bytes)
  mp : Option Nat
  deriving DecidableEq, Repr

structure Handle where
  offset : UInt64
  length : UInt64
  deriving DecidableEq, Repr

structure BlockRange where
  off : UInt64
  n : UInt64
  deriving DecidableEq, Repr

abbrev Call := Overlay × Ret String Unit

def blockTrailer : UInt64 := 5

def maxResideGap : UInt64 := 4 * 2 ^ 20

namespace Overlay

variable (a : Artifact) (o : Overlay)

def read (off n : Nat) : Except String Bytes :=
  match o.tail with
  | some t =>
    if t.1 ≤ off ∧ (off + n) % 2 ^ 64 ≤ t.1 + t.2.length then
      .ok ((t.2.drop (off - t.1)).take n)
    else
      a.read ((a.off o.sec + off) % 2 ^ 64) n
  | none => a.read ((a.off o.sec + off) % 2 ^ 64) n

def searchRes (off : UInt64) : Nat :=
  bsearch (fun i => (o.res[i]?).any (·.off < off)) 0 o.res.length

def residentData (off : UInt64) : Option Data :=
  (o.res[o.searchRes off]?).bind (fun r => if r.off = off then some r.data else none)

def isResident (off : UInt64) : Bool := (o.residentData off).isSome

def insert (off : UInt64) (data : Data) : Overlay :=
  if o.isResident off then o else { o with res := o.res.insertIdx (o.searchRes off) ⟨off, data⟩ }

def want (bhs : List Handle) : Except String (List BlockRange) :=
  match bhs with
  | [] => .ok []
  | bh :: bhs =>
    if bh.length = 0 then
      want bhs
    else if a.len o.sec < (bh.offset + (bh.length + blockTrailer)).toNat then
      .error s!"block [{bh.offset},{bh.offset + (bh.length + blockTrailer)}) is outside a {a.len o.sec} byte section"
    else if o.isResident bh.offset then
      want bhs
    else
      (want bhs).map (⟨bh.offset, bh.length + blockTrailer⟩ :: ·)

def resideSpansFrom (i : Nat) (stop : UInt64) (want : List BlockRange) : List Nat :=
  match want with
  | [] => []
  | r :: want =>
    let ends := resideSpansFrom (i + 1) (max stop (r.off + r.n)) want
    if 0 < i ∧ stop + maxResideGap < r.off then i :: ends else ends

def resideSpans (want : List BlockRange) : List Nat :=
  resideSpansFrom 0 0 want ++ (if want = [] then [] else [want.length])

def endOf (hi : UInt64) (span : List BlockRange) : UInt64 := span.foldl (fun hi r => max hi (r.off + r.n)) hi

def pinSpan (lo : UInt64) (buf : Bytes) (span : List BlockRange) (o : Overlay) : Call :=
  match span with
  | [] => (o, .ok ())
  | r :: span =>
    let start := r.off - lo
    if start + r.n < start ∨ buf.length < (start + r.n).toNat then
      (o, .panic)
    else
      pinSpan lo buf span (o.insert r.off (.heap ((buf.drop start.toNat).take r.n.toNat)))

def spanRead (want : List BlockRange) (i j : Nat) : Option (UInt64 × UInt64) :=
  match (want.drop i).take (j - i) with
  | [] => none
  | r :: span => some (r.off, endOf 0 (r :: span))

def pinSpans (want : List BlockRange) (i : Nat) (ends : List Nat) (o : Overlay) : Call :=
  match ends with
  | [] => (o, .ok ())
  | j :: ends =>
    match spanRead want i j with
    | none => (o, .panic)
    | some (lo, hi) =>
      match o.read a lo.toNat (hi - lo).toNat with
      | .error e => (o, .error e)
      | .ok buf =>
        match pinSpan lo buf ((want.drop i).take (j - i)) o with
        | (o, .ok ()) => pinSpans want j ends o
        | failed => failed

def reside (bhs : List Handle) : Call :=
  match o.want a bhs with
  | .error e => (o, .error e)
  | .ok want =>
    let want := want.insertionSort (fun r r' => r.off ≤ r'.off)
    pinSpans a want 0 (resideSpans want) o

def resideGap (stop : UInt64) : Call :=
  if stop.toNat < a.len o.sec then
    match o.read a stop.toNat (a.len o.sec - stop.toNat) with
    | .error e => (o, .error e)
    | .ok gap => (o.insert stop (.heap gap), .ok ())
  else
    (o, .ok ())

def piece : Nat := 4 * 2 ^ 20

def readPieces (s : Section) (done : Nat) : Except String Bytes :=
  if done < a.len s then
    match a.read (a.off s + done) (min piece (a.len s - done)) with
    | .error e => .error e
    | .ok b => (readPieces s (done + min piece (a.len s - done))).map (b ++ ·)
  else
    .ok []
  termination_by a.len s - done
  decreasing_by
    unfold piece
    omega

def resideAll : Call :=
  if a.len o.sec = 0 then
    (o, .ok ())
  else
    match readPieces a o.sec 0 with
    | .error e => (o, .error e)
    | .ok buf => ({ o with res := [⟨0, .heap buf⟩], mp := none }, .ok ())

def resideTail (dataSize : UInt64) : Call :=
  if dataSize = 0 ∨ a.len o.sec ≤ dataSize.toNat then
    (o, .ok ())
  else
    match a.read (a.off o.sec + dataSize.toNat) (a.len o.sec - dataSize.toNat) with
    | .error e => (o, .error e)
    | .ok buf => ({ o with tail := some (dataSize.toNat, buf) }, .ok ())

def dropTail : Call := ({ o with tail := none }, .ok ())

def release : Call := ({ o with res := [], mp := none }, .ok ())

end Overlay

structure Mapping where
  file : Bytes
  ranges : Section → List MappedRange
  refs : Nat
  loader : Bool

structure World where
  file : Option Bytes
  maps : List Mapping
  secs : List (Option Overlay)

namespace World

variable (w : World)

def init : World := ⟨none, [], []⟩

def bytes (data : Data) : Option Bytes :=
  match data with
  | .heap bytes => some bytes
  | .mapped id start stop =>
    match w.maps[id]? with
    | none => none
    | some m => if m.refs = 0 then none else some ((m.file.drop start).take (stop - start))

def hold (mp : Option Nat) : World :=
  match mp with
  | none => w
  | some id => { w with maps := w.maps.modify id (fun m => { m with refs := m.refs + 1 }) }

def drop (mp : Option Nat) : World :=
  match mp with
  | none => w
  | some id => { w with maps := w.maps.modify id (fun m => { m with refs := m.refs - 1 }) }

def overlay (i : Nat) : Option Overlay := (w.secs[i]?).join

def put (i : Nat) (o : Option Overlay) : World := { w with secs := w.secs.set i o }

def push (o : Overlay) : World := { w with secs := w.secs ++ [some o] }

def aliases (id : Nat) (m : Mapping) (s : Section) : List Held :=
  (m.ranges s).map (fun r => ⟨r.off, .mapped id r.start r.stop⟩)

def copied (o : Overlay) : Option (List ResidentRange) :=
  o.res.mapM (fun r => (w.bytes r.data).map (⟨r.off, ·⟩))

def ranges (pick : Section → Option Nat) (s : Section) : Option (List ResidentRange) :=
  match pick s with
  | none => some []
  | some i => (w.overlay i).bind (fun o => if o.sec = s then w.copied o else none)

end World

inductive ReadErr where
  | eof
  | io (e : String)
  deriving DecidableEq, Repr

def readAt (a : Artifact) (w : World) (o : Overlay) (n : Nat) (off : Int) : Ret ReadErr Bytes :=
  if off < 0 ∨ a.len o.sec < off.toNat then
    .error .eof
  else if a.len o.sec - off.toNat < n then
    .error .eof
  else
    let fromSection :=
      match o.read a off.toNat n with
      | .ok b => .ok b
      | .error e => .error (.io e)
    let i := bsearch (fun i => (o.res[i]?).any (·.off.toNat ≤ off.toNat)) 0 o.res.length
    match if i = 0 then none else o.res[i - 1]? with
    | none => fromSection
    | some r =>
      if off.toNat + n ≤ (r.off.toNat + r.data.length) % 2 ^ 64 then
        match w.bytes r.data with
        | none => .panic
        | some b => .ok ((b.drop (off.toNat - r.off.toNat)).take n)
      else
        fromSection

inductive Event where
  | fresh (s : Section)
  | seed (i : Nat)
  | load
  | attach (id : Nat) (s : Section)
  | repoint (i id : Nat)
  | loaded (id : Nat)
  | reside (i : Nat) (bhs : List Handle)
  | resideGap (i : Nat) (stop : UInt64)
  | resideTail (i : Nat) (dataSize : UInt64)
  | dropTail (i : Nat)
  | resideAll (i : Nat)
  | release (i : Nat)
  | close (i : Nat)
  | writeSidecar (pick : Section → Option Nat)
  | removeSidecar

def World.call (w : World) (i : Nat) (f : Overlay → Call) : Option World :=
  match w.overlay i with
  | none => none
  | some o =>
    match f o with
    | (_, .panic) => none
    | (o', _) => if o'.mp = o.mp then some (w.put i (some o')) else some ((w.put i (some o')).drop o.mp)

def step (a : Artifact) (path : String) (w : World) (e : Event) : Option World :=
  match e with
  | .fresh s => some (w.push ⟨s, [], none, none⟩)
  | .seed i => (w.overlay i).map (fun o => (w.push { o with tail := none }).hold o.mp)
  | .load =>
    match w.file with
    | none => some w
    | some file =>
      match loadSidecar path file with
      | .ok ranges => some { w with maps := w.maps ++ [⟨file, ranges, 1, true⟩] }
      | .error _ => some w
      | .panic => none
  | .attach id s =>
    match w.maps[id]? with
    | none => none
    | some m => if m.loader then some ((w.push ⟨s, World.aliases id m s, none, some id⟩).hold (some id)) else none
  | .repoint i id =>
    match w.maps[id]?, w.overlay i with
    | some m, some o =>
      if m.loader ∧ o.mp = none then
        some ((w.put i (some { o with res := World.aliases id m o.sec, mp := some id })).hold (some id))
      else
        none
    | _, _ => none
  | .loaded id =>
    match w.maps[id]? with
    | none => none
    | some m =>
      if m.loader then
        some ({ w with maps := w.maps.modify id (fun m => { m with loader := false }) }.drop (some id))
      else
        none
  | .reside i bhs => w.call i (fun o => o.reside a bhs)
  | .resideGap i stop => w.call i (fun o => o.resideGap a stop)
  | .resideTail i dataSize => w.call i (fun o => o.resideTail a dataSize)
  | .dropTail i => w.call i Overlay.dropTail
  | .resideAll i => w.call i (fun o => o.resideAll a)
  | .release i => w.call i Overlay.release
  | .close i => (w.overlay i).map (fun o => (w.put i none).drop o.mp)
  | .writeSidecar pick =>
    match w.ranges pick .chain, w.ranges pick .state, w.ranges pick .lookup with
    | some chain, some state, some lookup =>
      let file := Resident.writeSidecar (fun
        | .chain => chain
        | .state => state
        | .lookup => lookup)
      if file.length ≤ maxAlloc then some { w with file := some file } else none
    | _, _, _ => none
  | .removeSidecar => some { w with file := none }

def Inside (a : Artifact) (w : World) (e : Event) : Prop :=
  match e with
  | .reside i bhs => ∀ o, w.overlay i = some o → ∀ bh ∈ bhs, bh.offset.toNat + bh.length.toNat ≤ a.len o.sec
  | _ => True

def insideB (a : Artifact) (w : World) (e : Event) : Bool :=
  match e with
  | .reside i bhs => (w.overlay i).all (fun o => bhs.all (fun bh => bh.offset.toNat + bh.length.toNat ≤ a.len o.sec))
  | _ => true

theorem inside_of_insideB {a : Artifact} {w : World} {e : Event} (h : insideB a w e = true) : Inside a w e := by
  cases e with
  | reside i bhs =>
    intro o ho bh hbh
    simp only [insideB, ho, Option.all_some, List.all_eq_true, decide_eq_true_eq] at h
    exact h bh hbh
  | _ => trivial

end EpochDB.Store.Resident
