import EpochDB.Store.Container

/-!
What the store calls of libevm's `rlp` package, as a parameter with its laws, and the functions of that package,
which have them.
-/

namespace EpochDB.Store

open List

structure Rlp where
  encodeList : Bytes → Bytes
  split : Bytes → Except String (Bytes × Bytes)
  splitList : Bytes → Except String (Bytes × Bytes)

/--
A list is its payload behind a header of at most nine bytes, and both splitters take it off the front.
-/
structure Rlp.Lawful (rlp : Rlp) : Prop where
  encodeList_eq : ∀ payload, ∃ head, 0 < head.length ∧ head.length ≤ 9 ∧ rlp.encodeList payload = head ++ payload
  split_encodeList : ∀ payload rest, payload.length < 2 ^ 64 → rlp.split (rlp.encodeList payload ++ rest) = .ok (payload, rest)
  splitList_encodeList : ∀ payload rest, payload.length < 2 ^ 64 →
    rlp.splitList (rlp.encodeList payload ++ rest) = .ok (payload, rest)

namespace Libevm

def minimalBE (n : Nat) : Bytes :=
  (Bytes.ofNatBE 8 n).dropWhile (· == 0)

def listHead (n : Nat) : Bytes :=
  if n < 56 then [UInt8.ofNat (0xc0 + n)] else UInt8.ofNat (0xf7 + (minimalBE n).length) :: minimalBE n

def rlpList (payload : Bytes) : Bytes := listHead payload.length ++ payload

inductive Kind where
  | byte
  | string
  | list
  deriving DecidableEq, Repr

def readSize (b : Bytes) (slen : Nat) : Except String Nat :=
  if b.length < slen then
    .error "unexpected EOF"
  else if Bytes.toNatBE (b.take slen) < 56 ∨ b.headD 0 = 0 then
    .error "rlp: non-canonical size information"
  else
    .ok (Bytes.toNatBE (b.take slen))

def readTag (b : UInt8) (rest : Bytes) : Except String (Kind × Nat × Nat) :=
  if b.toNat < 0x80 then
    .ok (.byte, 0, 1)
  else if b.toNat < 0xb8 then
    -- a string that should have been a single byte
    if b.toNat = 0x81 ∧ (rest.head?).any (·.toNat < 128) then
      .error "rlp: non-canonical size information"
    else
      .ok (.string, 1, b.toNat - 0x80)
  else if b.toNat < 0xc0 then
    (readSize rest (b.toNat - 0xb7)).map (fun n => (.string, b.toNat - 0xb7 + 1, n))
  else if b.toNat < 0xf8 then
    .ok (.list, 1, b.toNat - 0xc0)
  else
    (readSize rest (b.toNat - 0xf7)).map (fun n => (.list, b.toNat - 0xf7 + 1, n))

def split (buf : Bytes) : Except String (Kind × Bytes × Bytes) :=
  match buf with
  | [] => .error "unexpected EOF"
  | b :: rest =>
    match readTag b rest with
    | .error e => .error e
    | .ok (k, tagsize, contentsize) =>
      if (b :: rest).length - tagsize < contentsize then
        .error "rlp: value size exceeds available input length"
      else
        .ok (k, ((b :: rest).drop tagsize).take contentsize, (b :: rest).drop (tagsize + contentsize))

def splitList (buf : Bytes) : Except String (Bytes × Bytes) :=
  match split buf with
  | .error e => .error e
  | .ok (k, content, rest) => if k = .list then .ok (content, rest) else .error "rlp: expected List"

theorem toNatBE_dropWhile (bs : Bytes) : Bytes.toNatBE (bs.dropWhile (· == 0)) = Bytes.toNatBE bs := by
  induction bs with
  | nil => rfl
  | cons b bs ih =>
    rw [dropWhile_cons]
    split
    . next hb =>
      have hb : b = 0 := by simpa using hb
      rw [ih, hb]
      rfl
    . rfl

theorem toNatBE_minimalBE {n : Nat} (hn : n < 2 ^ 64) : Bytes.toNatBE (minimalBE n) = n := by
  unfold minimalBE
  rw [toNatBE_dropWhile, Bytes.toNatBE_ofNatBE]
  exact Nat.mod_eq_of_lt hn

theorem length_minimalBE_le (n : Nat) : (minimalBE n).length ≤ 8 := by
  have hle := (dropWhile_sublist (l := Bytes.ofNatBE 8 n) (fun b : UInt8 => b == 0)).length_le
  rw [Bytes.length_ofNatBE] at hle
  exact hle

theorem minimalBE_eq_cons {n : Nat} (hn : n < 2 ^ 64) (hpos : 0 < n) : ∃ b bs, minimalBE n = b :: bs ∧ b ≠ 0 := by
  have hvalue := toNatBE_minimalBE hn
  cases hbytes : minimalBE n with
  | nil =>
    rw [hbytes] at hvalue
    have hzero : Bytes.toNatBE [] = 0 := rfl
    omega
  | cons b bs =>
    refine ⟨b, bs, rfl, ?_⟩
    intro hb
    unfold minimalBE at hbytes
    have hne : (Bytes.ofNatBE 8 n).dropWhile (fun b => b == 0) ≠ [] := by
      rw [hbytes]
      exact cons_ne_nil b bs
    have hfirst := head_dropWhile_not (fun b : UInt8 => b == 0) hne
    simp only [hbytes, head_cons, hb] at hfirst
    exact absurd hfirst (by decide)

theorem length_listHead_le (n : Nat) : (listHead n).length ≤ 9 := by
  have hlen := length_minimalBE_le n
  unfold listHead
  split
  . simp
  . rw [length_cons]
    omega

theorem length_listHead_pos (n : Nat) : 0 < (listHead n).length := by
  unfold listHead
  split <;> simp

theorem split_rlpList {payload : Bytes} (hlen : payload.length < 2 ^ 64) (rest : Bytes)
    : split (rlpList payload ++ rest) = .ok (.list, payload, rest) := by
  rw [rlpList, append_assoc]
  unfold listHead
  split
  . next hshort =>
    have hb : (UInt8.ofNat (0xc0 + payload.length)).toNat = 0xc0 + payload.length := by
      rw [UInt8.toNat_ofNat']
      omega
    have htag : readTag (UInt8.ofNat (0xc0 + payload.length)) (payload ++ rest) = .ok (.list, 1, payload.length) := by
      unfold readTag
      rw [hb, if_neg (by omega), if_neg (by omega), if_neg (by omega), if_pos (by omega), Nat.add_sub_cancel_left]
    rw [singleton_append]
    unfold split
    dsimp only
    rw [htag]
    dsimp only
    rw [if_neg (by simp), drop_succ_cons, drop_zero, take_left, Nat.add_comm 1, drop_succ_cons, drop_left]
  . next hlong =>
    rcases minimalBE_eq_cons hlen (by omega) with ⟨b, bs, hsize, hb⟩
    have hle := length_minimalBE_le payload.length
    have hvalue := toNatBE_minimalBE hlen
    have htagb : (UInt8.ofNat (0xf7 + (minimalBE payload.length).length)).toNat = 0xf7 + (minimalBE payload.length).length := by
      rw [UInt8.toNat_ofNat']
      omega
    have hread : readSize (minimalBE payload.length ++ (payload ++ rest)) (minimalBE payload.length).length = .ok payload.length := by
      unfold readSize
      rw [if_neg (by simp), take_left, hvalue, if_neg]
      rw [hsize]
      simp only [cons_append, headD_cons]
      rintro (hlt | hzero)
      . omega
      . exact hb hzero
    have htag : readTag (UInt8.ofNat (0xf7 + (minimalBE payload.length).length)) (minimalBE payload.length ++ (payload ++ rest)) =
        .ok (.list, (minimalBE payload.length).length + 1, payload.length) := by
      have hpos : 0 < (minimalBE payload.length).length := by
        rw [hsize]
        exact Nat.succ_pos _
      unfold readTag
      rw [htagb, if_neg (by omega), if_neg (by omega), if_neg (by omega), if_neg (by omega), Nat.add_sub_cancel_left, hread]
      rfl
    rw [cons_append]
    unfold split
    dsimp only
    rw [htag]
    dsimp only
    rw [if_neg (by simp), drop_succ_cons, drop_left, take_left, Nat.add_right_comm, drop_succ_cons,
      ← drop_drop, drop_left, drop_left]

def rlp : Rlp where
  encodeList := rlpList
  split buf := (split buf).map (fun r => (r.2.1, r.2.2))
  splitList := splitList

theorem rlp_lawful : rlp.Lawful where
  encodeList_eq payload := ⟨listHead payload.length, length_listHead_pos _, length_listHead_le _, rfl⟩
  split_encodeList payload rest hlen := by
    dsimp only [rlp]
    rw [split_rlpList hlen]
    rfl
  splitList_encodeList payload rest hlen := by
    dsimp only [rlp, splitList]
    rw [split_rlpList hlen]
    rfl

end Libevm

end EpochDB.Store
