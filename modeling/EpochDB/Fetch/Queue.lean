import EpochDB.Lib.Bytes

/-!
The queue between the fetch and the executor (`fetch/window.go`): one contiguous run of containers in
memory, verified link by link on the way in.
-/

namespace EpochDB.Fetch

abbrev ID := FixedBytes 32

def windowBlocks : Nat := 100000
def refillBelow : Nat := 50000
def queueMaxBytes : Nat := 2 ^ 30
def keepBehind : Nat := 8192
def spanBlocks : Nat := 4096
def fetchSpans : Nat := 16

structure ParsedContainer where
  containerID : ID
  blockNumber : Nat
  blockHash : ID
  parentID : ID
  parentHash : ID
  deriving DecidableEq

structure RawBlock where
  p : ParsedContainer
  raw : Bytes
  deriving DecidableEq

structure Queue where
  blk : AList (fun _ : Nat => Bytes)
  head : Nat
  headHash : ID
  low : Nat
  consumed : Nat
  bytes : Nat
  peak : Nat
  closed : Bool

def newQueue (start : Nat) (anchorHash : ID) : Queue :=
  { blk := ∅, head := start - 1, headHash := anchorHash, low := start, consumed := start - 1, bytes := 0,
    peak := 0, closed := false }

namespace Queue

def append (q : Queue) (b : RawBlock) : Bool × Queue :=
  if b.p.blockNumber ≠ q.head + 1 ∨ b.p.parentHash ≠ q.headHash then
    (false, q)
  else
    let bytes := q.bytes + b.raw.length
    (true,
      { q with
        blk := q.blk.insert b.p.blockNumber b.raw
        head := b.p.blockNumber
        headHash := b.p.blockHash
        bytes := bytes
        peak := max q.peak bytes })

def releaseLow (q : Queue) : Queue :=
  match q.blk.lookup q.low with
  | some raw => { q with bytes := q.bytes - raw.length, blk := q.blk.erase q.low, low := q.low + 1 }
  | none => { q with low := q.low + 1 }

def release (q : Queue) (upTo : Nat) : Queue :=
  if upTo < keepBehind then
    q
  else
    -- the source loops while `low + keepBehind ≤ upTo`
    releaseLow^[upTo + 1 - keepBehind - q.low] q

def getByHeight (q : Queue) (n : Nat) : Option (Except String Bytes × Queue) :=
  match q.blk.lookup n with
  | some raw =>
    if n > q.consumed then
      some (.ok raw, { q with consumed := n }.release n)
    else
      some (.ok raw, q)
  | none =>
    if n < q.low then
      some (.error s!"fetch: container {n} was already released from the RAM queue (it holds {q.low}..{q.head})", q)
    else if q.closed then
      some (.error "context canceled", q)
    else
      none

theorem append_eq_true {q q' : Queue} {b : RawBlock} (h : q.append b = (true, q'))
    : b.p.blockNumber = q.head + 1 ∧ q'.head = b.p.blockNumber := by
  unfold append at h
  split at h
  . cases h
  . next hlink =>
    cases h
    simp only [ne_eq, not_or, not_not] at hlink
    exact ⟨hlink.1, rfl⟩

theorem append_eq_false {q q' : Queue} {b : RawBlock} (h : q.append b = (false, q')) : q' = q := by
  unfold append at h
  split at h
  . cases h
    rfl
  . cases h

theorem head_le_append (q : Queue) (b : RawBlock) : q.head ≤ (q.append b).2.head := by
  cases h : q.append b with
  | mk ok q' =>
    cases ok with
    | true =>
      have := append_eq_true h
      dsimp only
      omega
    | false =>
      rw [append_eq_false h]

@[simp]
theorem head_releaseLow (q : Queue) : q.releaseLow.head = q.head := by
  unfold releaseLow
  split <;> rfl

@[simp]
theorem head_release (q : Queue) (upTo : Nat) : (q.release upTo).head = q.head := by
  have hiterate : ∀ k, (releaseLow^[k] q).head = q.head := by
    intro k
    induction k with
    | zero => rfl
    | succ k ih =>
      rw [Function.iterate_succ_apply']
      rw [head_releaseLow]
      exact ih
  unfold release
  split
  . rfl
  . apply hiterate

theorem head_getByHeight {q q' : Queue} {n : Nat} {res : Except String Bytes}
    (h : q.getByHeight n = some (res, q')) : q'.head = q.head := by
  unfold getByHeight at h
  split at h
  . split at h
    . cases h
      apply head_release
    . cases h
      rfl
  . split at h
    . cases h
      rfl
    . split at h
      . cases h
        rfl
      . contradiction

end Queue

end EpochDB.Fetch
