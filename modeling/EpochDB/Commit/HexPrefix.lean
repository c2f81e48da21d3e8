import EpochDB.Lib.Bytes

/-!
Trie paths as nibbles, as key bytes and in the hex prefix form of a trie node (`commit/commit.go`).
-/

namespace EpochDB.Commit

open List

structure NibblePath where
  nibbles : Bytes
  lt : ∀ n ∈ nibbles, n < 16

def keyToNibbles (key : Bytes) : Bytes := key.flatMap (fun b : UInt8 => [b >>> 4, b &&& 15])

def compactToHex (compact : Bytes) : Option Bytes :=
  let nib := keyToNibbles compact
  match nib.head? with
  | none => none
  | some flag => if flag &&& 1 = 1 then some (nib.drop 1) else some (nib.drop 2)

def joinPairs : Bytes → Bytes
  | hi :: lo :: nibbles => (hi <<< 4 ||| lo) :: joinPairs nibbles
  | _ => []

def hexToCompact (nibbles : Bytes) (leaf : Bool) : Bytes :=
  let flag : UInt8 := if leaf then 0x20 else 0
  match nibbles with
  | n :: rest =>
    if nibbles.length % 2 = 1 then
      (flag ||| 0x10 ||| n) :: joinPairs rest
    else
      flag :: joinPairs nibbles
  | [] => [flag]

def packNibble (out : Bytes) (n : UInt8 × Nat) : Bytes :=
  out.modify (n.2 / 2) (· ||| n.1 <<< (4 * UInt8.ofNat (1 - n.2 % 2)))

def packNibbles (nib : Bytes) : Bytes :=
  nib.zipIdx.foldl packNibble (List.replicate ((nib.length + 1) / 2) 0)

theorem join_lt {hi lo : UInt8} (hhi : hi < 16) (hlo : lo < 16) : (hi <<< 4 ||| lo).toNat = hi.toNat * 16 + lo.toNat := by
  have hhi : hi.toNat < 16 := hhi
  have hlo : lo.toNat < 2 ^ 4 := hlo
  have hshift : (hi <<< 4).toNat = hi.toNat <<< 4 := by
    rw [UInt8.toNat_shiftLeft, Nat.shiftLeft_eq, Nat.shiftLeft_eq]
    change hi.toNat * 2 ^ 4 % 256 = hi.toNat * 2 ^ 4
    omega
  rw [UInt8.toNat_or, hshift, ← Nat.shiftLeft_add_eq_or_of_lt hlo, Nat.shiftLeft_eq]

theorem toNat_high (b : UInt8) : (b >>> 4).toNat = b.toNat / 16 := by
  rw [UInt8.toNat_shiftRight, Nat.shiftRight_eq_div_pow]
  rfl

theorem toNat_low (b : UInt8) : (b &&& 15).toNat = b.toNat % 16 := by
  rw [UInt8.toNat_and]
  exact Nat.and_two_pow_sub_one_eq_mod b.toNat 4

theorem high_lt (b : UInt8) : b >>> 4 < 16 := by
  have := b.toNat_lt
  rw [UInt8.lt_iff_toNat_lt, toNat_high]
  change b.toNat / 16 < 16
  omega

theorem low_lt (b : UInt8) : b &&& 15 < 16 := by
  rw [UInt8.lt_iff_toNat_lt, toNat_low]
  exact Nat.mod_lt _ (by decide)

theorem join_high_low (b : UInt8) : (b >>> 4) <<< 4 ||| (b &&& 15) = b := by
  apply UInt8.toNat_inj.mp
  rw [join_lt (high_lt b) (low_lt b), toNat_high, toNat_low]
  omega

theorem high_join {hi lo : UInt8} (hhi : hi < 16) (hlo : lo < 16) : (hi <<< 4 ||| lo) >>> 4 = hi := by
  have hlo' : lo.toNat < 16 := hlo
  apply UInt8.toNat_inj.mp
  rw [toNat_high, join_lt hhi hlo]
  omega

theorem low_join {hi lo : UInt8} (hhi : hi < 16) (hlo : lo < 16) : (hi <<< 4 ||| lo) &&& 15 = lo := by
  have hlo' : lo.toNat < 16 := hlo
  apply UInt8.toNat_inj.mp
  rw [toNat_low, join_lt hhi hlo]
  omega

theorem keyToNibbles_cons (b : UInt8) (key : Bytes)
    : keyToNibbles (b :: key) = (b >>> 4) :: (b &&& 15) :: keyToNibbles key := rfl

theorem keyToNibbles_join {hi lo : UInt8} (hhi : hi < 16) (hlo : lo < 16) (key : Bytes)
    : keyToNibbles ((hi <<< 4 ||| lo) :: key) = hi :: lo :: keyToNibbles key := by
  rw [keyToNibbles_cons, high_join hhi hlo, low_join hhi hlo]

theorem foldl_packNibble_cons (b : UInt8) (out nib : Bytes) (i : Nat)
    : (nib.zipIdx (i + 2)).foldl packNibble (b :: out) = b :: (nib.zipIdx i).foldl packNibble out := by
  induction nib generalizing out i with
  | nil => rfl
  | cons n nib ih =>
    have hstep : packNibble (b :: out) (n, i + 2) = b :: packNibble out (n, i) := by
      have hdiv : (i + 2) / 2 = i / 2 + 1 := by omega
      have hmod : (i + 2) % 2 = i % 2 := by omega
      simp only [packNibble, hdiv, hmod, modify_succ_cons]
    rw [zipIdx_cons, zipIdx_cons, foldl_cons, foldl_cons, hstep]
    exact ih (packNibble out (n, i)) (i + 1)

theorem packNibbles_cons_cons (hi lo : UInt8) (nib : Bytes)
    : packNibbles (hi :: lo :: nib) = (hi <<< 4 ||| lo) :: packNibbles nib := by
  have hlen : ((hi :: lo :: nib).length + 1) / 2 = (nib.length + 1) / 2 + 1 := by
    simp only [length_cons]
    omega
  unfold packNibbles
  rw [hlen, replicate_succ, zipIdx_cons, zipIdx_cons, foldl_cons, foldl_cons]
  have hfirst : ∀ out, packNibble (packNibble (0 :: out) (hi, 0)) (lo, 0 + 1) = (hi <<< 4 ||| lo) :: out := by
    intro out
    simp [packNibble]
  rw [hfirst]
  exact foldl_packNibble_cons (hi <<< 4 ||| lo) _ nib 0

theorem packNibbles_singleton (n : UInt8) : packNibbles [n] = [n <<< 4 ||| 0] := by
  simp [packNibbles, packNibble]

theorem packNibbles_keyToNibbles (key : Bytes) : packNibbles (keyToNibbles key) = key := by
  induction key with
  | nil => rfl
  | cons b key ih => rw [keyToNibbles_cons, packNibbles_cons_cons, join_high_low, ih]

theorem keyToNibbles_packNibbles : ∀ {nib : Bytes}, (∀ n ∈ nib, n < 16) →
    keyToNibbles (packNibbles nib) = nib ++ if nib.length % 2 = 1 then [0] else []
  | [], _ => rfl
  | [n], h => by
    rw [packNibbles_singleton, keyToNibbles_join (h n (by simp)) (by decide)]
    rfl
  | hi :: lo :: nib, h => by
    have hlen : (hi :: lo :: nib).length % 2 = nib.length % 2 := by
      simp only [length_cons]
      omega
    rw [packNibbles_cons_cons, keyToNibbles_join (h hi (by simp)) (h lo (by simp)), hlen]
    rw [keyToNibbles_packNibbles (fun n hn => h n (by simp [hn]))]
    rfl

def hexFront (leaf : Bool) (len : Nat) : Bytes :=
  if len % 2 = 1 then [if leaf then 3 else 1] else [if leaf then 2 else 0, 0]

theorem hexFront_lt (leaf : Bool) (len : Nat) : ∀ n ∈ hexFront leaf len, n < 16 := by
  unfold hexFront
  split <;> cases leaf <;> simp

theorem length_hexFront (leaf : Bool) (len : Nat) : ((hexFront leaf len).length + len) % 2 = 0 := by
  unfold hexFront
  split
  . simp only [length_singleton]
    omega
  . simp only [length_cons, length_nil]
    omega

theorem joinPairs_eq : ∀ {nib : Bytes}, nib.length % 2 = 0 → joinPairs nib = packNibbles nib
  | [], _ => rfl
  | [n], h => by simp at h
  | hi :: lo :: nib, h => by
    rw [joinPairs, packNibbles_cons_cons, joinPairs_eq]
    simp only [length_cons] at h
    omega

theorem hexToCompact_eq (nibbles : Bytes) (leaf : Bool)
    : hexToCompact nibbles leaf = packNibbles (hexFront leaf nibbles.length ++ nibbles) := by
  unfold hexToCompact hexFront
  cases nibbles with
  | nil => cases leaf <;> rfl
  | cons n rest =>
    dsimp only
    split
    . next hodd =>
      simp only [length_cons] at hodd
      rw [cons_append, nil_append, packNibbles_cons_cons, joinPairs_eq (by omega)]
      cases leaf <;> rfl
    . next heven =>
      simp only [length_cons] at heven
      rw [cons_append, cons_append, nil_append, packNibbles_cons_cons, joinPairs_eq (by simp only [length_cons]; omega)]
      cases leaf <;> rfl

variable (path : NibblePath) (leaf : Bool)

theorem keyToNibbles_hexToCompact
    : keyToNibbles (hexToCompact path.nibbles leaf) = hexFront leaf path.nibbles.length ++ path.nibbles := by
  have hlen := length_hexFront leaf path.nibbles.length
  rw [hexToCompact_eq, keyToNibbles_packNibbles, length_append, if_neg (by omega), append_nil]
  intro n hn
  rcases mem_append.mp hn with hn | hn
  . exact hexFront_lt leaf _ n hn
  . exact path.lt n hn

theorem compactToHex_hexToCompact : compactToHex (hexToCompact path.nibbles leaf) = some path.nibbles := by
  unfold compactToHex
  dsimp only
  rw [keyToNibbles_hexToCompact]
  unfold hexFront
  by_cases hodd : path.nibbles.length % 2 = 1
  . rw [if_pos hodd]
    cases leaf <;> rfl
  . rw [if_neg hodd]
    cases leaf <;> rfl

theorem leaf_eq_of_hexFront {leaf' : Bool} {len len' : Nat} {rest rest' : Bytes}
    (h : hexFront leaf len ++ rest = hexFront leaf' len' ++ rest') : leaf = leaf' := by
  unfold hexFront at h
  by_cases hodd : len % 2 = 1 <;> by_cases hodd' : len' % 2 = 1 <;> cases leaf <;> cases leaf' <;>
    simp [hodd, hodd'] at h ⊢

theorem hexToCompact_injective : Function.Injective (fun p : NibblePath × Bool => hexToCompact p.1.nibbles p.2) := by
  rintro ⟨path, leaf⟩ ⟨path', leaf'⟩ h
  dsimp only at h
  have hpath := compactToHex_hexToCompact path leaf
  rw [h, compactToHex_hexToCompact, Option.some.injEq] at hpath
  have hnibbles := keyToNibbles_hexToCompact path leaf
  rw [h, keyToNibbles_hexToCompact] at hnibbles
  cases path
  cases path'
  cases hpath
  rw [leaf_eq_of_hexFront leaf' hnibbles]

theorem nibbleCoding
    : (∀ (path : NibblePath) (leaf : Bool), compactToHex (hexToCompact path.nibbles leaf) = some path.nibbles) ∧
        Function.Injective (fun p : NibblePath × Bool => hexToCompact p.1.nibbles p.2) ∧
        (∀ key : Bytes, packNibbles (keyToNibbles key) = key) ∧
        ∀ path : NibblePath, keyToNibbles (packNibbles path.nibbles) =
          path.nibbles ++ if path.nibbles.length % 2 = 1 then [0] else [] := by
  refine ⟨compactToHex_hexToCompact, hexToCompact_injective, packNibbles_keyToNibbles, ?_⟩
  intro path
  exact keyToNibbles_packNibbles path.lt

end EpochDB.Commit
