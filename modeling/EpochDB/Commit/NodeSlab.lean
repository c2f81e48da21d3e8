import EpochDB.Lib.ByteSlab
import EpochDB.Lib.Transition

/-!
The nodes `Dirty` retains (`commit/dirty.go`): one byte slab behind an index of packed paths and one of the
long paths. A node is `[cap u16][len u16][blob]` at a slab offset.
-/

namespace EpochDB.Commit

abbrev Hash := FixedBytes 32

structure NodeKey where
  owner : Hash
  path : UInt64
  deriving DecidableEq

def packPath (path : Bytes) : Option UInt64 :=
  if path.length > 15 then
    none
  else
    path.foldlM (fun (k : UInt64) (n : UInt8) => if n > 15 then none else some (k <<< 4 ||| n.toUInt64))
      (UInt64.ofNat path.length)

structure Dirty where
  idx : AList (fun _ : NodeKey => Nat)
  long : AList (fun _ : Bytes => Nat)
  slab : Bytes
  dead : Nat

namespace Dirty

def reset : Dirty := ⟨∅, ∅, [], 0⟩

variable (d : Dirty)

def offset (owner : Hash) (path : Bytes) : Option Nat :=
  match packPath path with
  | some k => d.idx.lookup ⟨owner, k⟩
  | none => d.long.lookup (owner.1 ++ path)

def setOffset (owner : Hash) (path : Bytes) (off : Nat) : Dirty :=
  match packPath path with
  | some k => { d with idx := d.idx.insert ⟨owner, k⟩ off }
  | none => { d with long := d.long.insert (owner.1 ++ path) off }

def capAt (off : Nat) : Nat := Bytes.toNatLE ((d.slab.drop off).take 2)
def lenAt (off : Nat) : Nat := Bytes.toNatLE ((d.slab.drop (off + 2)).take 2)

def lookup (owner : Hash) (path : Bytes) : Option Bytes :=
  (d.offset owner path).map (fun off => (d.slab.drop (off + 4)).take (d.lenAt off))

def append (owner : Hash) (path blob : Bytes) : Dirty :=
  let c := (blob.length + 63) / 64 * 64
  let slab := d.slab ++ (Bytes.ofNatLE 2 c ++ Bytes.ofNatLE 2 blob.length ++ blob ++ List.replicate (c - blob.length) 0)
  { d with slab }.setOffset owner path d.slab.length

def put (owner : Hash) (path blob : Bytes) : Dirty :=
  match d.offset owner path with
  | some off =>
    if blob.length ≤ d.capAt off then
      { d with
        slab := ByteSlab.splice (ByteSlab.splice d.slab (off + 2) (Bytes.ofNatLE 2 blob.length)) (off + 4) blob }
    else
      { d with dead := d.dead + (d.capAt off + 4) }.append owner path blob
  | none => d.append owner path blob

def move {κ : Type} [DecidableEq κ] (order : List κ) (index : AList (fun _ : κ => Nat)) (slab : Bytes)
    : AList (fun _ : κ => Nat) × Bytes :=
  match order with
  | [] => (index, slab)
  | k :: order =>
    match index.lookup k with
    | none => move order index slab
    | some off => move order (index.insert k slab.length) (slab ++ (d.slab.drop off).take (4 + d.capAt off))

/-- The copy is worth it from `least` dead bytes on, which are 32 MiB. -/
def compact (least : Nat) (idxOrder : List NodeKey) (longOrder : List Bytes) : Dirty :=
  if d.dead < least ∨ d.dead < d.slab.length / 2 then
    d
  else
    let idx := d.move idxOrder d.idx []
    let long := d.move longOrder d.long idx.2
    ⟨idx.1, long.1, long.2, 0⟩

inductive Event where
  | put (owner : Hash) (path blob : Bytes)
  | compact (idxOrder : List NodeKey) (longOrder : List Bytes)

def step (least : Nat) : Event → Option Dirty
  | .put owner path blob => some (d.put owner path blob)
  | .compact idxOrder longOrder =>
    if idxOrder.Perm d.idx.keys ∧ longOrder.Perm d.long.keys then some (d.compact least idxOrder longOrder) else none

def offs : List Nat := d.idx.entries.map (·.2) ++ d.long.entries.map (·.2)

def Points (p : Nat) : Prop := ∃ off ∈ d.offs, off ≤ p ∧ p < off + (4 + d.capAt off)

instance decidablePoints (p : Nat) : Decidable (d.Points p) := inferInstanceAs (Decidable (∃ off ∈ d.offs, _))

def unpointed : Finset Nat := (Finset.range d.slab.length).filter (fun p => ¬ d.Points p)

end Dirty

def pathNat (acc : Nat) (path : Bytes) : Nat := path.foldl (fun acc n => acc * 16 + n.toNat) acc

theorem le_pathNat (acc : Nat) (path : Bytes) : acc * 16 ^ path.length ≤ pathNat acc path := by
  induction path generalizing acc with
  | nil => simp [pathNat]
  | cons n path ih =>
    have := ih (acc * 16 + n.toNat)
    rw [List.length_cons, Nat.pow_succ']
    calc acc * (16 * 16 ^ path.length) = acc * 16 * 16 ^ path.length := by ring
      _ ≤ (acc * 16 + n.toNat) * 16 ^ path.length := Nat.mul_le_mul_right _ (by omega)
      _ ≤ pathNat acc (n :: path) := this

theorem pathNat_lt {path : Bytes} (h : ∀ n ∈ path, n.toNat < 16) (acc : Nat)
    : pathNat acc path < (acc + 1) * 16 ^ path.length := by
  induction path generalizing acc with
  | nil => simp [pathNat]
  | cons n path ih =>
    have hn := h n (by simp)
    have := ih (fun n hn => h n (by simp [hn])) (acc * 16 + n.toNat)
    rw [List.length_cons, Nat.pow_succ']
    calc pathNat acc (n :: path) < (acc * 16 + n.toNat + 1) * 16 ^ path.length := this
      _ ≤ ((acc + 1) * 16) * 16 ^ path.length := Nat.mul_le_mul_right _ (by omega)
      _ = (acc + 1) * (16 * 16 ^ path.length) := by ring

theorem pathNat_inj {path path' : Bytes} (hlen : path.length = path'.length) (h : ∀ n ∈ path, n.toNat < 16)
    (h' : ∀ n ∈ path', n.toNat < 16) {acc acc' : Nat} (heq : pathNat acc path = pathNat acc' path')
    : acc = acc' ∧ path = path' := by
  induction path generalizing path' acc acc' with
  | nil =>
    cases List.length_eq_zero_iff.mp hlen.symm
    exact ⟨heq, rfl⟩
  | cons n path ih =>
    cases path' with
    | nil => simp at hlen
    | cons n' path' =>
      have hn := h n (by simp)
      have hn' := h' n' (by simp)
      have htail : pathNat (acc * 16 + n.toNat) path = pathNat (acc' * 16 + n'.toNat) path' := heq
      rcases ih (by simpa using hlen) (fun n hn => h n (by simp [hn])) (fun n hn => h' n (by simp [hn])) htail with
        ⟨hacc, rfl⟩
      have hnibble : n.toNat = n'.toNat := by omega
      rw [UInt8.toNat_inj.mp hnibble]
      exact ⟨by omega, rfl⟩

theorem toNat_pushNibble {k : UInt64} {n : UInt8} (hn : n.toNat < 16) (hk : k.toNat * 16 + 16 ≤ 2 ^ 64)
    : (k <<< 4 ||| n.toUInt64).toNat = k.toNat * 16 + n.toNat := by
  have hshift : (k <<< 4).toNat = k.toNat <<< 4 := by
    rw [UInt64.toNat_shiftLeft, Nat.shiftLeft_eq, Nat.shiftLeft_eq]
    change k.toNat * 2 ^ 4 % 2 ^ 64 = k.toNat * 2 ^ 4
    omega
  have hn' : n.toNat < 2 ^ 4 := hn
  rw [UInt64.toNat_or, hshift, UInt8.toNat_toUInt64, ← Nat.shiftLeft_add_eq_or_of_lt hn', Nat.shiftLeft_eq]

theorem pack_spec {path : Bytes} {k k' : UInt64} (hroom : (k.toNat + 1) * 16 ^ path.length ≤ 2 ^ 64)
    (h : path.foldlM (fun (k : UInt64) (n : UInt8) => if n > 15 then none else some (k <<< 4 ||| n.toUInt64)) k = some k')
    : (∀ n ∈ path, n.toNat < 16) ∧ k'.toNat = pathNat k.toNat path := by
  induction path generalizing k with
  | nil =>
    cases h
    exact ⟨by simp, rfl⟩
  | cons n path ih =>
    rw [List.foldlM_cons] at h
    by_cases hn : n > 15
    . rw [if_pos hn] at h
      cases h
    . rw [if_neg hn] at h
      have hn : n.toNat < 16 := by
        have : n.toNat ≤ 15 := UInt8.le_iff_toNat_le.mp (UInt8.not_lt.mp hn)
        omega
      rw [List.length_cons, Nat.pow_succ', ← mul_assoc] at hroom
      have hk : k.toNat * 16 + 16 ≤ 2 ^ 64 := by
        have : 0 < 16 ^ path.length := Nat.pow_pos (by decide)
        nlinarith
      have hpush := toNat_pushNibble hn hk
      have hroom' : ((k <<< 4 ||| n.toUInt64).toNat + 1) * 16 ^ path.length ≤ 2 ^ 64 := by
        rw [hpush]
        exact le_trans (Nat.mul_le_mul_right _ (by omega)) hroom
      rcases ih hroom' h with ⟨hpath, hk'⟩
      refine ⟨?_, ?_⟩
      . intro m hm
        rcases List.mem_cons.mp hm with rfl | hm
        . exact hn
        . exact hpath m hm
      . rw [hk', hpush]
        rfl

theorem packPath_spec {path : Bytes} {k : UInt64} (h : packPath path = some k)
    : (∀ n ∈ path, n.toNat < 16) ∧ k.toNat = pathNat path.length path := by
  unfold packPath at h
  split at h
  . cases h
  . next hlen =>
    have hlength : (UInt64.ofNat path.length).toNat = path.length := by
      apply UInt64.toNat_ofNat_of_lt'
      simp only [UInt64.size]
      omega
    have hroom : ((UInt64.ofNat path.length).toNat + 1) * 16 ^ path.length ≤ 2 ^ 64 := by
      rw [hlength]
      calc (path.length + 1) * 16 ^ path.length ≤ 16 * 16 ^ 15 :=
            Nat.mul_le_mul (by omega) (Nat.pow_le_pow_right (by decide) (by omega))
        _ = 2 ^ 64 := by norm_num
    have hspec := pack_spec hroom h
    rw [hlength] at hspec
    exact hspec

theorem packPath_inj {path path' : Bytes} {k : UInt64} (h : packPath path = some k) (h' : packPath path' = some k)
    : path = path' := by
  rcases packPath_spec h with ⟨hlt, hk⟩
  rcases packPath_spec h' with ⟨hlt', hk'⟩
  have heq := hk.symm.trans hk'
  -- the ranges `[len * 16 ^ len, (len + 1) * 16 ^ len)` are disjoint
  have hapart : ∀ {p q : Bytes}, p.length < q.length → (∀ n ∈ p, n.toNat < 16) →
      pathNat p.length p < pathNat q.length q := by
    intro p q hpq hp
    calc pathNat p.length p < (p.length + 1) * 16 ^ p.length := pathNat_lt hp _
      _ ≤ q.length * 16 ^ q.length := Nat.mul_le_mul hpq (Nat.pow_le_pow_right (by decide) (by omega))
      _ ≤ pathNat q.length q := le_pathNat _ _
  have hlen : path.length = path'.length := by
    rcases lt_trichotomy path.length path'.length with hlt'' | hlen | hgt
    . have := hapart hlt'' hlt
      omega
    . exact hlen
    . have := hapart hgt hlt'
      omega
  exact (pathNat_inj hlen hlt hlt' heq).2

end EpochDB.Commit
