import EpochDB.Fetch.Queue
import EpochDB.Lib.AListTotal
import EpochDB.Lib.Transition

/-!
The queue over whole runs: the heights it holds, the hash chain through them and the bytes it counts, beside the
containers it ever took.
-/

namespace EpochDB.Fetch

open List Option

structure Window where
  q : Queue
  taken : List RawBlock

namespace Window

inductive Event where
  | append (b : RawBlock)
  | getByHeight (n : Nat)
  | close

def first (start : Nat) : Nat := if start = 0 then 1 else start

def init (start : Nat) (anchorHash : ID) : Window := ⟨newQueue (first start) anchorHash, []⟩

def step (w : Window) : Event → Option Window
  | .append b =>
    let res := w.q.append b
    some ⟨res.2, if res.1 then w.taken ++ [b] else w.taken⟩
  | .getByHeight n => (w.q.getByHeight n).map (fun res => ⟨res.2, w.taken⟩)
  | .close => some ⟨{ w.q with closed := true }, w.taken⟩

variable (start : Nat) (anchorHash : ID) (w : Window)

def container (n : Nat) : Option RawBlock := if n < first start then none else w.taken[n - first start]?

def hashBelow (n : Nat) : Option ID :=
  if n = first start then some anchorHash else (w.container start (n - 1)).map (·.p.blockHash)

structure Verified : Prop where
  held : ∀ n, (w.q.blk.lookup n).isSome ↔ w.q.low ≤ n ∧ n ≤ w.q.head
  chain : ∀ n raw, w.q.blk.lookup n = some raw → ∃ b, w.container start n = some b ∧ b.raw = raw ∧ b.p.blockNumber = n ∧
    some b.p.parentHash = w.hashBelow start anchorHash n
  bytes : w.q.bytes = w.q.blk.total (fun e => e.2.length)
  room : ∀ k raw, (Queue.releaseLow^[k] w.q).blk.lookup (Queue.releaseLow^[k] w.q).low = some raw →
    raw.length ≤ (Queue.releaseLow^[k] w.q).bytes
  reads : ∀ n, max (first start) (w.q.consumed + 1 - keepBehind) ≤ n → n ≤ w.q.head →
    ∃ b q', w.container start n = some b ∧ w.q.getByHeight n = some (.ok b.raw, q')

end Window

def lastHash (anchorHash : ID) (taken : List RawBlock) : ID := (taken.getLast?.map (·.p.blockHash)).getD anchorHash

def Linked (start : Nat) (anchorHash : ID) (taken : List RawBlock) : Prop :=
  ∀ k b, taken[k]? = some b → b.p.blockNumber = start + k ∧ b.p.parentHash = lastHash anchorHash (taken.take k)

theorem Linked.append {start : Nat} {anchorHash : ID} {taken : List RawBlock} (h : Linked start anchorHash taken) {b : RawBlock}
    (hnumber : b.p.blockNumber = start + taken.length) (hparent : b.p.parentHash = lastHash anchorHash taken)
    : Linked start anchorHash (taken ++ [b]) := by
  intro k b' hb'
  by_cases hk : k < taken.length
  . rw [getElem?_append_left hk] at hb'
    rw [take_append_of_le_length (by omega)]
    exact h k b' hb'
  . rcases List.getElem?_eq_some_iff.mp hb' with ⟨hlt, -⟩
    rw [length_append, length_singleton] at hlt
    have hk' : k = taken.length := by omega
    subst hk'
    rw [getElem?_concat_length, Option.some.injEq] at hb'
    subst hb'
    rw [take_left]
    exact ⟨hnumber, hparent⟩

namespace Queue

structure Holds (start : Nat) (taken : List RawBlock) (q : Queue) : Prop where
  head : q.head + 1 = start + taken.length
  low : start ≤ q.low ∧ q.low ≤ q.head + 1
  blk : ∀ n, q.blk.lookup n = if q.low ≤ n then (taken[n - start]?).map (·.raw) else none

variable {start : Nat} {taken : List RawBlock} {q : Queue}

theorem Holds.isSome (h : q.Holds start taken) (n : Nat) : (q.blk.lookup n).isSome ↔ q.low ≤ n ∧ n ≤ q.head := by
  have hhead := h.head
  have hlow := h.low
  rw [h.blk]
  split
  . next hle =>
    rw [isSome_map, isSome_getElem?]
    omega
  . next hle => simp [hle]

theorem Holds.releaseLow (h : q.Holds start taken) (hle : q.low ≤ q.head) : q.releaseLow.Holds start taken := by
  have hheld := (h.isSome q.low).mpr ⟨Nat.le_refl _, hle⟩
  rcases isSome_iff_exists.mp hheld with ⟨raw, hraw⟩
  have hlow := h.low
  unfold Queue.releaseLow
  rw [hraw]
  refine ⟨h.head, ?_, ?_⟩
  . dsimp only
    omega
  . intro n
    dsimp only
    by_cases hn : n = q.low
    . subst hn
      rw [AList.lookup_erase, if_neg (by omega)]
    . rw [AList.lookup_erase_ne hn, h.blk]
      by_cases hle' : q.low ≤ n
      . rw [if_pos hle', if_pos (by omega)]
      . rw [if_neg hle', if_neg (by omega)]

@[simp]
theorem low_releaseLow (q : Queue) : q.releaseLow.low = q.low + 1 := by
  unfold releaseLow
  split <;> rfl

@[simp]
theorem headHash_releaseLow (q : Queue) : q.releaseLow.headHash = q.headHash := by
  unfold releaseLow
  split <;> rfl

@[simp]
theorem consumed_releaseLow (q : Queue) : q.releaseLow.consumed = q.consumed := by
  unfold releaseLow
  split <;> rfl

def Counted (q : Queue) : Prop := q.bytes = q.blk.total (fun e => e.2.length)

theorem Counted.releaseLow (h : q.Counted) : q.releaseLow.Counted := by
  unfold Queue.releaseLow
  split
  . next raw hraw =>
    have herase := AList.total_erase (fun e : Sigma (fun _ : Nat => Bytes) => e.2.length) hraw
    unfold Counted at h ⊢
    dsimp only at herase ⊢
    rw [h, herase]
    omega
  . exact h

theorem Counted.iterate (h : q.Counted) (k : Nat) : (Queue.releaseLow^[k] q).Counted := by
  induction k with
  | zero => exact h
  | succ k ih =>
    rw [Function.iterate_succ_apply']
    exact ih.releaseLow

theorem Counted.le_bytes (h : q.Counted) {n : Nat} {raw : Bytes} (hraw : q.blk.lookup n = some raw) : raw.length ≤ q.bytes := by
  have herase := AList.total_erase (fun e : Sigma (fun _ : Nat => Bytes) => e.2.length) hraw
  rw [h, herase]
  exact Nat.le_add_right _ _

theorem Holds.iterate (h : q.Holds start taken) {k : Nat} (hk : q.low + k ≤ q.head + 1)
    : (Queue.releaseLow^[k] q).Holds start taken ∧ (Queue.releaseLow^[k] q).low = q.low + k ∧
        (Queue.releaseLow^[k] q).head = q.head ∧ (Queue.releaseLow^[k] q).headHash = q.headHash ∧
        (Queue.releaseLow^[k] q).consumed = q.consumed := by
  induction k with
  | zero => exact ⟨h, rfl, rfl, rfl, rfl⟩
  | succ k ih =>
    rcases ih (by omega) with ⟨hholds, hlow, hhead, hhash, hconsumed⟩
    rw [Function.iterate_succ_apply', low_releaseLow, head_releaseLow, headHash_releaseLow, consumed_releaseLow]
    refine ⟨hholds.releaseLow ?_, ?_, hhead, hhash, hconsumed⟩
    . omega
    . omega

end Queue

namespace Window

structure Inv (start : Nat) (anchorHash : ID) (w : Window) : Prop where
  holds : w.q.Holds (first start) w.taken
  linked : Linked (first start) anchorHash w.taken
  headHash : w.q.headHash = lastHash anchorHash w.taken
  counted : w.q.Counted
  consumed : w.q.consumed ≤ w.q.head ∧ w.q.low ≤ max (first start) (w.q.consumed + 1 - keepBehind)

variable {start : Nat} {anchorHash : ID} {w w' : Window}

theorem inv_init (start : Nat) (anchorHash : ID) : (init start anchorHash).Inv start anchorHash := by
  have hfirst : 0 < first start := by
    unfold first
    split <;> omega
  refine ⟨⟨?_, ?_, ?_⟩, ?_, rfl, rfl, ?_⟩
  . simp only [init, newQueue, length_nil]
    omega
  . simp only [init, newQueue]
    omega
  . intro n
    simp [init, newQueue]
  . intro k b hb
    simp [init] at hb
  . simp only [init, newQueue]
    omega

theorem Inv.append (h : w.Inv start anchorHash) (b : RawBlock)
    : Inv start anchorHash ⟨(w.q.append b).2, if (w.q.append b).1 then w.taken ++ [b] else w.taken⟩ := by
  unfold Queue.append
  split
  . exact h
  . next hlink =>
    simp only [ne_eq, not_or, not_not] at hlink
    have hhead := h.holds.head
    have hlow := h.holds.low
    have hconsumed := h.consumed
    have hfresh : w.q.blk.lookup b.p.blockNumber = none := by
      rw [← not_isSome_iff_eq_none, h.holds.isSome]
      omega
    refine ⟨⟨?_, ?_, ?_⟩, ?_, ?_, ?_, ?_⟩
    . simp only [if_true, length_append, length_singleton]
      omega
    . dsimp only
      omega
    . intro n
      dsimp only
      rw [if_pos rfl]
      by_cases hn : n = b.p.blockNumber
      . subst hn
        have hidx : b.p.blockNumber - first start = w.taken.length := by omega
        rw [AList.lookup_insert, if_pos (by omega), hidx, getElem?_concat_length]
        rfl
      . rw [AList.lookup_insert_ne hn, h.holds.blk]
        split
        . next hle =>
          by_cases hlt : n - first start < w.taken.length
          . rw [getElem?_append_left hlt]
          . rw [getElem?_eq_none (by omega), getElem?_eq_none]
            simp only [length_append, length_singleton]
            omega
        . rfl
    . rw [if_pos rfl]
      apply h.linked.append
      . omega
      . rw [hlink.2, h.headHash]
    . rw [if_pos rfl]
      simp [lastHash]
    . unfold Queue.Counted
      dsimp only
      rw [AList.total_insert, AList.erase_of_lookup_eq_none hfresh, h.counted]
      dsimp only
      omega
    . dsimp only
      omega

theorem Inv.getByHeight (h : w.Inv start anchorHash) {n : Nat} {res : Except String Bytes} {q' : Queue}
    (hget : w.q.getByHeight n = some (res, q')) : Inv start anchorHash ⟨q', w.taken⟩ := by
  unfold Queue.getByHeight at hget
  split at hget
  . next raw hraw =>
    have hheld := (h.holds.isSome n).mp (by rw [hraw]; rfl)
    split at hget
    . next hconsumed =>
      cases hget
      have hbefore := h.consumed
      have hholds : Queue.Holds (first start) w.taken { w.q with consumed := n } :=
        ⟨h.holds.head, h.holds.low, h.holds.blk⟩
      have hcounted : Queue.Counted { w.q with consumed := n } := h.counted
      unfold Queue.release
      split
      . next hsmall =>
        refine ⟨hholds, h.linked, h.headHash, h.counted, ?_⟩
        dsimp only
        omega
      . next hlarge =>
        have hloop := hholds.iterate (k := n + 1 - keepBehind - w.q.low) (by dsimp only; omega)
        rcases hloop with ⟨hholds', hlow, hhead, hhash, hcons⟩
        refine ⟨hholds', h.linked, hhash.trans h.headHash, hcounted.iterate _, ?_⟩
        rw [hlow, hhead, hcons]
        dsimp only
        omega
    . cases hget
      exact h
  . split at hget
    . cases hget
      exact h
    . split at hget
      . cases hget
        exact h
      . cases hget

theorem inv_step {e : Event} (h : w.Inv start anchorHash) (hstep : w.step e = some w') : w'.Inv start anchorHash := by
  cases e with
  | append b =>
    cases hstep
    exact h.append b
  | getByHeight n =>
    simp only [step, map_eq_some_iff] at hstep
    rcases hstep with ⟨⟨res, q'⟩, hget, rfl⟩
    exact h.getByHeight hget
  | close =>
    cases hstep
    exact ⟨⟨h.holds.head, h.holds.low, h.holds.blk⟩, h.linked, h.headHash, h.counted, h.consumed⟩

theorem Inv.container_eq (h : w.Inv start anchorHash) {n : Nat} (hlow : w.q.low ≤ n)
    : w.container start n = w.taken[n - first start]? := by
  have := h.holds.low
  rw [container, if_neg (by omega)]

theorem Inv.verified (h : w.Inv start anchorHash) : w.Verified start anchorHash := by
  have hlow := h.holds.low
  have hhead := h.holds.head
  refine ⟨h.holds.isSome, ?_, h.counted, ?_, ?_⟩
  . intro n raw hraw
    have hheld := (h.holds.isSome n).mp (by rw [hraw]; rfl)
    rw [h.holds.blk, if_pos hheld.1, map_eq_some_iff] at hraw
    rcases hraw with ⟨b, hb, hraw⟩
    rcases h.linked _ b hb with ⟨hnumber, hparent⟩
    refine ⟨b, (h.container_eq hheld.1).trans hb, hraw, by omega, ?_⟩
    rw [hparent, hashBelow]
    by_cases hn : n = first start
    . rw [if_pos hn, hn, Nat.sub_self]
      rfl
    . have hidx : n - first start = n - 1 - first start + 1 := by omega
      rw [if_neg hn, container, if_neg (by omega), hidx]
      rcases List.getElem?_eq_some_iff.mp hb with ⟨hlt, -⟩
      have hbelow : n - 1 - first start < w.taken.length := by omega
      rw [lastHash, take_add_one, getElem?_eq_getElem hbelow, toList_some, getLast?_concat]
      rfl
  . intro k raw hraw
    exact (h.counted.iterate k).le_bytes hraw
  . intro n hreads hn
    have hcons := h.consumed
    have hheld := (h.holds.isSome n).mpr ⟨by omega, hn⟩
    rcases isSome_iff_exists.mp hheld with ⟨raw, hraw⟩
    have hblk := h.holds.blk n
    rw [hraw, if_pos (by omega), eq_comm, map_eq_some_iff] at hblk
    rcases hblk with ⟨b, hb, hbraw⟩
    refine ⟨b, if n > w.q.consumed then { w.q with consumed := n }.release n else w.q,
      (h.container_eq (by omega)).trans hb, ?_⟩
    unfold Queue.getByHeight
    rw [hraw, hbraw]
    dsimp only
    split <;> rfl

/--
Over every interleaving of appends and reads the queue is a verified contiguous window, and the executor can still read
the heights behind it that are kept.
-/
theorem queue_verified (start : Nat) (anchorHash : ID) {w : Window}
    (h : Transition.Reachable step (fun _ _ => True) (init start anchorHash) w) : w.Verified start anchorHash := by
  have hinv : w.Inv start anchorHash := h.invariant (inv_init start anchorHash) (fun _ _ _ hi _ hstep => inv_step hi hstep)
  exact hinv.verified

def numbered (n : Nat) (hash parent : UInt8) : RawBlock :=
  ⟨⟨.fill 32 hash, n, .fill 32 hash, .fill 32 parent, .fill 32 parent⟩, [hash]⟩

def twoProducers : List Event :=
  [.append (numbered 5 1 0), .append (numbered 6 9 8), .append (numbered 6 2 1), .append (numbered 6 2 1), .getByHeight 6,
    .getByHeight 5]

theorem queue_verified_twoProducers
    : ∃ w, Transition.run step (init 5 (.fill 32 0)) twoProducers = some w ∧ w.q.low = 5 ∧ w.q.head = 6 ∧ w.q.bytes = 2 ∧
        w.Verified 5 (.fill 32 0) := by
  have hrun : (Transition.run step (init 5 (.fill 32 0)) twoProducers).map (fun w => (w.q.low, w.q.head, w.q.bytes)) =
      some (5, 6, 2) := by
    decide +kernel
  rcases map_eq_some_iff.mp hrun with ⟨w, hw, hobs⟩
  simp only [Prod.mk.injEq] at hobs
  exact ⟨w, hw, hobs.1, hobs.2.1, hobs.2.2, queue_verified 5 (.fill 32 0) (Transition.Reachable.init.run (fun _ _ _ => trivial) hw)⟩

end Window

end EpochDB.Fetch
