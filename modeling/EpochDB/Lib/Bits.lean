import EpochDB.Lib.Bytes

/-!
Bit vectors, least significant bit first, and unsigned variable length integers.
-/

namespace Bits

def ofNat (w x : Nat) : List Bool :=
  match w with
  | 0 => []
  | w + 1 => x.testBit 0 :: ofNat w (x / 2)

def toNat (bs : List Bool) : Nat :=
  match bs with
  | [] => 0
  | b :: bs => b.toNat + 2 * toNat bs

@[simp]
theorem length_ofNat (w x : Nat) : (ofNat w x).length = w := by
  induction w generalizing x with
  | zero => rfl
  | succ w ih => simp [ofNat, ih]

theorem toNat_ofNat (w x : Nat) : toNat (ofNat w x) = x % 2 ^ w := by
  induction w generalizing x with
  | zero => simp [ofNat, toNat, Nat.mod_one]
  | succ w ih =>
    have hbit : (x.testBit 0).toNat = x % 2 := by
      rw [Nat.testBit_zero]
      rcases Nat.mod_two_eq_zero_or_one x with h | h <;> simp [h]
    rw [ofNat, toNat, ih, hbit, Nat.pow_succ', Nat.mod_mul]

theorem toNat_lt (bs : List Bool) : toNat bs < 2 ^ bs.length := by
  induction bs with
  | nil => simp [toNat]
  | cons b bs ih =>
    have hb : b.toNat ≤ 1 := Bool.toNat_le b
    rw [toNat, List.length_cons, Nat.pow_succ']
    omega

theorem ofNat_toNat (bs : List Bool) : ofNat bs.length (toNat bs) = bs := by
  induction bs with
  | nil => rfl
  | cons b bs ih =>
    have hdiv : (b.toNat + 2 * toNat bs) / 2 = toNat bs := by
      have := Bool.toNat_le b
      omega
    have hbit : (b.toNat + 2 * toNat bs).testBit 0 = b := by
      rw [Nat.testBit_zero, Nat.add_mul_mod_self_left]
      cases b <;> rfl
    rw [List.length_cons, toNat, ofNat, hdiv, hbit, ih]

def unpack (bytes : Bytes) : List Bool := bytes.flatMap (fun b => ofNat 8 b.toNat)

def pack : List Bool → Bytes
  | b0 :: b1 :: b2 :: b3 :: b4 :: b5 :: b6 :: b7 :: bs =>
    UInt8.ofNat (toNat [b0, b1, b2, b3, b4, b5, b6, b7]) :: pack bs
  | _ => []

theorem length_unpack (bytes : Bytes) : (unpack bytes).length = 8 * bytes.length := by
  simp [unpack, List.length_flatMap, Nat.mul_comm]

theorem unpack_append (bytes bytes' : Bytes) : unpack (bytes ++ bytes') = unpack bytes ++ unpack bytes' := by
  simp [unpack]

theorem unpack_pack {bs : List Bool} (h : bs.length % 8 = 0) : unpack (pack bs) = bs := by
  induction bs using pack.induct with
  | case1 b0 b1 b2 b3 b4 b5 b6 b7 bs ih =>
    have hbyte : (UInt8.ofNat (toNat [b0, b1, b2, b3, b4, b5, b6, b7])).toNat =
        toNat [b0, b1, b2, b3, b4, b5, b6, b7] := by
      rw [UInt8.toNat_ofNat']
      exact Nat.mod_eq_of_lt (toNat_lt _)
    have hbits := ofNat_toNat [b0, b1, b2, b3, b4, b5, b6, b7]
    have ih := ih (by simp only [List.length_cons] at h; omega)
    unfold unpack at ih ⊢
    rw [pack, List.flatMap_cons, hbyte, ih]
    simp only [List.length_cons, List.length_nil] at hbits
    rw [hbits]
    rfl
  | case2 bs hshort =>
    rcases bs with _ | ⟨b0, _ | ⟨b1, _ | ⟨b2, _ | ⟨b3, _ | ⟨b4, _ | ⟨b5, _ | ⟨b6, _ | ⟨b7, bs⟩⟩⟩⟩⟩⟩⟩⟩
    . rfl
    all_goals first
      | exact absurd rfl (hshort _ _ _ _ _ _ _ _ _)
      | simp at h

def get (n : Nat) (bs : List Bool) : Option (Nat × List Bool) :=
  if bs.length < n then none else some (toNat (bs.take n), bs.drop n)

theorem get_ofNat (w x : Nat) (bs : List Bool) : get w (ofNat w x ++ bs) = some (x % 2 ^ w, bs) := by
  have hlen := length_ofNat w x
  unfold get
  rw [if_neg (by simp), List.take_left' hlen, List.drop_left' hlen, toNat_ofNat]

theorem length_of_get {n x : Nat} {bs rest : List Bool} (h : get n bs = some (x, rest)) : bs.length = n + rest.length := by
  unfold get at h
  split at h
  . cases h
  . next hlen =>
    rw [Option.some.injEq, Prod.mk.injEq] at h
    rw [← h.2, List.length_drop]
    omega

end Bits

def appendUvarint (x : Nat) : Bytes :=
  if x < 128 then
    [UInt8.ofNat x]
  else
    UInt8.ofNat (x % 128 + 128) :: appendUvarint (x / 128)
termination_by x
decreasing_by omega

def uvarint (bytes : Bytes) (i : Nat) (x : Nat) : Option (Nat × Bytes) :=
  match bytes with
  | [] => none
  | b :: bytes =>
    if i = 10 then
      none
    else if b.toNat < 128 then
      if i = 9 ∧ b.toNat > 1 then none else some (x + b.toNat * 2 ^ (7 * i), bytes)
    else
      uvarint bytes (i + 1) (x + (b.toNat % 128) * 2 ^ (7 * i))

variable {x i y : Nat} {bytes rest : Bytes}

theorem uvarint_appendUvarint (i y : Nat) (hx : x * 2 ^ (7 * i) < 2 ^ 64) (hi : i ≤ 9) (bytes : Bytes)
    : uvarint (appendUvarint x ++ bytes) i y = some (y + x * 2 ^ (7 * i), bytes) := by
  induction x using Nat.strongRecOn generalizing i y with
  | ind x ih =>
    have hlast : i = 9 → x ≤ 1 := by
      intro h
      rw [h] at hx
      omega
    rw [appendUvarint]
    split
    . next hsmall =>
      have hbyte : (UInt8.ofNat x).toNat = x := by
        rw [UInt8.toNat_ofNat']
        omega
      rw [List.singleton_append, uvarint, if_neg (by omega), hbyte, if_pos hsmall, if_neg (by omega)]
    . next hbig =>
      have hbyte : (UInt8.ofNat (x % 128 + 128)).toNat = x % 128 + 128 := by
        rw [UInt8.toNat_ofNat']
        omega
      have hpow : 2 ^ (7 * (i + 1)) = 128 * 2 ^ (7 * i) := by
        rw [Nat.mul_add, Nat.pow_add]
        omega
      have hsplit : x % 128 * 2 ^ (7 * i) + x / 128 * (128 * 2 ^ (7 * i)) = x * 2 ^ (7 * i) := by
        rw [← Nat.mul_assoc, ← Nat.add_mul, Nat.mul_comm (x / 128), Nat.mod_add_div]
      have hrest := ih (x / 128) (by omega) (i + 1) (y + (x % 128) * 2 ^ (7 * i))
        (by rw [hpow]; omega) (by omega)
      rw [List.cons_append, uvarint, if_neg (by omega), hbyte, if_neg (by omega)]
      have hlow : (x % 128 + 128) % 128 = x % 128 := by omega
      rw [hlow, hrest, hpow, Nat.add_assoc, hsplit]

theorem uvarint_append (h : uvarint bytes i x = some (y, rest)) (more : Bytes)
    : uvarint (bytes ++ more) i x = some (y, rest ++ more) := by
  induction bytes generalizing i x with
  | nil => cases h
  | cons b bytes ih =>
    rw [uvarint] at h
    rw [List.cons_append, uvarint]
    split
    . next hi =>
      rw [if_pos hi] at h
      cases h
    . next hi =>
      rw [if_neg hi] at h
      split
      . next hb =>
        rw [if_pos hb] at h
        split
        . next hlast =>
          rw [if_pos hlast] at h
          cases h
        . next hlast =>
          rw [if_neg hlast, Option.some.injEq, Prod.mk.injEq] at h
          rw [← h.1, ← h.2]
      . next hb =>
        rw [if_neg hb] at h
        exact ih h

theorem length_lt_of_uvarint (h : uvarint bytes i x = some (y, rest)) : rest.length < bytes.length := by
  induction bytes generalizing i x with
  | nil => cases h
  | cons b bytes ih =>
    rw [uvarint] at h
    split at h
    . cases h
    . split at h
      . split at h
        . cases h
        . cases h
          simp
      . have := ih h
        simp only [List.length_cons]
        omega

theorem isSuffix_of_uvarint (h : uvarint bytes i x = some (y, rest)) : rest <:+ bytes := by
  induction bytes generalizing i x with
  | nil => cases h
  | cons b bytes ih =>
    rw [uvarint] at h
    split at h
    . cases h
    . split at h
      . split at h
        . cases h
        . cases h
          exact List.suffix_cons b rest
      . exact (ih h).trans (List.suffix_cons b bytes)

theorem uvarint_lt (h : uvarint bytes i x = some (y, rest)) (hx : x < 2 ^ (7 * i)) (hi : i ≤ 10) : y < 2 ^ 64 := by
  induction bytes generalizing i x with
  | nil => cases h
  | cons b bytes ih =>
    have hpow : 2 ^ (7 * (i + 1)) = 128 * 2 ^ (7 * i) := by
      rw [Nat.mul_add, Nat.pow_add]
      omega
    rw [uvarint] at h
    split at h
    . cases h
    . next hne =>
      split at h
      . next hb =>
        split at h
        . cases h
        . next hlast =>
          cases h
          rcases Nat.lt_or_ge i 9 with hlt | hge
          . have hle : 2 ^ (7 * (i + 1)) ≤ 2 ^ 63 := Nat.pow_le_pow_right (by omega) (by omega)
            have hmul : b.toNat * 2 ^ (7 * i) ≤ 127 * 2 ^ (7 * i) := Nat.mul_le_mul_right _ (by omega)
            omega
          . have hnine : i = 9 := by omega
            subst hnine
            have hone : b.toNat ≤ 1 := by omega
            omega
      . next hb =>
        have hmul : b.toNat % 128 * 2 ^ (7 * i) ≤ 127 * 2 ^ (7 * i) := Nat.mul_le_mul_right _ (by omega)
        exact ih h (by omega) (by omega)

theorem length_appendUvarint_le {x j : Nat} (hx : x < 2 ^ (7 * j)) (hj : 0 < j) : (appendUvarint x).length ≤ j := by
  induction j generalizing x with
  | zero => omega
  | succ j ih =>
    rw [appendUvarint]
    split
    . simp
    . next hbig =>
      have hpow : 2 ^ (7 * (j + 1)) = 128 * 2 ^ (7 * j) := by
        rw [Nat.mul_add, Nat.pow_add]
        omega
      have hj : 0 < j := by
        rcases Nat.eq_zero_or_pos j with hj | hj
        . rw [hj] at hx
          omega
        . exact hj
      have hrest : (appendUvarint (x / 128)).length ≤ j := ih (by omega) hj
      rw [List.length_cons]
      omega

theorem le_of_mem_take_appendUvarint {x k : Nat} (hk : k < (appendUvarint x).length) : ∀ b ∈ (appendUvarint x).take k, 128 ≤ b.toNat := by
  induction x using Nat.strongRecOn generalizing k with
  | ind x ih =>
    rw [appendUvarint] at hk ⊢
    split at hk
    . next hsmall =>
      have hzero : k = 0 := by
        rw [List.length_singleton] at hk
        omega
      rw [hzero]
      simp
    . next hbig =>
      rw [if_neg hbig]
      cases k with
      | zero => simp
      | succ k =>
        rw [List.length_cons] at hk
        intro b hb
        rw [List.take_succ_cons, List.mem_cons] at hb
        rcases hb with hb | hb
        . rw [hb, UInt8.toNat_ofNat']
          omega
        . exact ih (x / 128) (by omega) (by omega) b hb

theorem uvarint_eq_none (h : ∀ b ∈ bytes, 128 ≤ b.toNat) (i x : Nat) : uvarint bytes i x = none := by
  induction bytes generalizing i x with
  | nil => rfl
  | cons b bytes ih =>
    have hb := h b List.mem_cons_self
    rw [uvarint]
    split
    . rfl
    . rw [if_neg (by omega)]
      exact ih (fun b' hb' => h b' (List.mem_cons_of_mem b hb')) _ _
