import Mathlib

/-!
Byte strings, big and little endian integers and the lexicographic order on byte strings.
-/

instance UInt8.linearOrder : LinearOrder UInt8 where
  le_refl := UInt8.le_refl
  le_trans _ _ _ := UInt8.le_trans
  le_antisymm _ _ := UInt8.le_antisymm
  le_total := UInt8.le_total
  lt_iff_le_not_ge a b := by
    simp only [UInt8.le_iff_toNat_le, UInt8.lt_iff_toNat_lt]
    omega
  toDecidableLE := inferInstance

abbrev Bytes := List UInt8

namespace Bytes

def ofNatBE (w : Nat) (n : Nat) : Bytes :=
  match w with
  | 0 => []
  | w + 1 => ofNatBE w (n / 256) ++ [UInt8.ofNat n]

def toNatBE (bs : Bytes) : Nat :=
  bs.foldl (fun acc b => acc * 256 + b.toNat) 0

@[simp]
theorem length_ofNatBE (w n : Nat) : (ofNatBE w n).length = w := by
  induction w generalizing n with
  | zero => rfl
  | succ w ih => simp [ofNatBE, ih]

theorem toNatBE_append_singleton (bs : Bytes) (b : UInt8) : toNatBE (bs ++ [b]) = toNatBE bs * 256 + b.toNat := by
  simp [toNatBE]

theorem toNatBE_ofNatBE (w n : Nat) : toNatBE (ofNatBE w n) = n % 256 ^ w := by
  induction w generalizing n with
  | zero => simp [ofNatBE, toNatBE, Nat.mod_one]
  | succ w ih =>
    rw [ofNatBE]
    rw [toNatBE_append_singleton]
    rw [ih]
    have hbyte : (UInt8.ofNat n).toNat = n % 256 := by simp
    rw [hbyte]
    rw [Nat.pow_succ']
    rw [Nat.mod_mul]
    omega

theorem toNatBE_lt (bs : Bytes) : toNatBE bs < 256 ^ bs.length := by
  induction bs using List.reverseRecOn with
  | nil => simp [toNatBE]
  | append_singleton bs b ih =>
    rw [toNatBE_append_singleton, List.length_append, List.length_singleton, Nat.pow_succ]
    have := b.toNat_lt
    omega

theorem ofNatBE_toNatBE (bs : Bytes) : ofNatBE bs.length (toNatBE bs) = bs := by
  induction bs using List.reverseRecOn with
  | nil => rfl
  | append_singleton bs b ih =>
    have hb := b.toNat_lt
    rw [toNatBE_append_singleton, List.length_append, List.length_singleton, ofNatBE]
    have hdiv : (toNatBE bs * 256 + b.toNat) / 256 = toNatBE bs := by omega
    have hbyte : UInt8.ofNat (toNatBE bs * 256 + b.toNat) = b := by
      apply UInt8.toNat_inj.mp
      simp
    rw [hdiv, ih, hbyte]

def ofNatLE (w : Nat) (n : Nat) : Bytes := (ofNatBE w n).reverse

def toNatLE (bs : Bytes) : Nat := toNatBE bs.reverse

@[simp]
theorem length_ofNatLE (w n : Nat) : (ofNatLE w n).length = w := by
  rw [ofNatLE, List.length_reverse, length_ofNatBE]

theorem toNatLE_ofNatLE {w n : Nat} (h : n < 256 ^ w) : toNatLE (ofNatLE w n) = n := by
  rw [toNatLE, ofNatLE, List.reverse_reverse, toNatBE_ofNatBE, Nat.mod_eq_of_lt h]

def putUint16 (n : UInt16) : Bytes := ofNatBE 2 n.toNat
def putUint32 (n : UInt32) : Bytes := ofNatBE 4 n.toNat
def putUint64 (n : UInt64) : Bytes := ofNatBE 8 n.toNat

def uint16 (bs : Bytes) : UInt16 := UInt16.ofNat (toNatBE bs)
def uint32 (bs : Bytes) : UInt32 := UInt32.ofNat (toNatBE bs)
def uint64 (bs : Bytes) : UInt64 := UInt64.ofNat (toNatBE bs)

@[simp]
theorem length_putUint16 (n : UInt16) : (putUint16 n).length = 2 := by
  simp [putUint16]

@[simp]
theorem length_putUint32 (n : UInt32) : (putUint32 n).length = 4 := by
  simp [putUint32]

@[simp]
theorem length_putUint64 (n : UInt64) : (putUint64 n).length = 8 := by
  simp [putUint64]

@[simp]
theorem uint16_putUint16 (n : UInt16) : uint16 (putUint16 n) = n := by
  rw [uint16, putUint16, toNatBE_ofNatBE]
  rw [Nat.mod_eq_of_lt (by simpa using n.toNat_lt)]
  simp

@[simp]
theorem uint32_putUint32 (n : UInt32) : uint32 (putUint32 n) = n := by
  rw [uint32, putUint32, toNatBE_ofNatBE]
  rw [Nat.mod_eq_of_lt (by simpa using n.toNat_lt)]
  simp

@[simp]
theorem uint64_putUint64 (n : UInt64) : uint64 (putUint64 n) = n := by
  rw [uint64, putUint64, toNatBE_ofNatBE]
  rw [Nat.mod_eq_of_lt (by simpa using n.toNat_lt)]
  simp

theorem toNat_uint32 {bs : Bytes} (h : bs.length = 4) : (uint32 bs).toNat = toNatBE bs := by
  have := toNatBE_lt bs
  rw [h] at this
  rw [uint32, UInt32.toNat_ofNat']
  exact Nat.mod_eq_of_lt this

theorem putUint32_uint32 {bs : Bytes} (h : bs.length = 4) : putUint32 (uint32 bs) = bs := by
  rw [putUint32, toNat_uint32 h, ← h]
  exact ofNatBE_toNatBE bs

theorem putUint64_uint64 {bs : Bytes} (h : bs.length = 8) : putUint64 (uint64 bs) = bs := by
  have hlt : toNatBE bs < 2 ^ 64 := by
    have := toNatBE_lt bs
    rwa [h] at this
  rw [putUint64, uint64, UInt64.toNat_ofNat', Nat.mod_eq_of_lt hlt, ← h]
  exact ofNatBE_toNatBE bs

end Bytes

abbrev FixedBytes (n : Nat) := { bs : Bytes // bs.length = n }

def FixedBytes.fill (n : Nat) (b : UInt8) : FixedBytes n := ⟨List.replicate n b, by simp⟩

def Bytes.ofChars (cs : List Char) : Bytes := cs.map Char.toUInt8

@[simp]
theorem Bytes.length_ofChars (cs : List Char) : (Bytes.ofChars cs).length = cs.length := by
  simp [Bytes.ofChars]

def Bytes.hexDigit (n : Nat) : Char := if n < 10 then Char.ofNat (48 + n) else Char.ofNat (87 + n)

def Bytes.hex (bs : Bytes) : String :=
  String.ofList (bs.flatMap fun b => [hexDigit (b.toNat / 16), hexDigit (b.toNat % 16)])

theorem Bytes.between_iff {p q : Bytes} (hlen : p.length = q.length) (c : UInt8) (rest : Bytes)
    : p ++ [1] ≤ q ++ c :: rest ∧ q ++ c :: rest < p ++ [2] ↔ p = q ∧ c = 1 := by
  induction p generalizing q with
  | nil =>
    have hq : q = [] := List.length_eq_zero_iff.mp (by simpa using hlen.symm)
    subst hq
    rw [← not_lt]
    simp only [List.nil_append, List.cons_lt_cons_iff, List.not_lt_nil, and_false, or_false, true_and]
    rw [← UInt8.toNat_inj, UInt8.lt_iff_toNat_lt, UInt8.lt_iff_toNat_lt]
    simp only [UInt8.reduceToNat]
    omega
  | cons a p ih =>
    cases q with
    | nil => simp at hlen
    | cons b q =>
      have ih := ih (q := q) (by simpa using hlen)
      rw [← not_lt] at ih ⊢
      simp only [List.cons_append, List.cons_lt_cons_iff, List.cons.injEq]
      constructor
      . rintro ⟨hge, hlt⟩
        rcases hlt with hlt | ⟨rfl, hlt⟩
        . exact absurd (.inl hlt) hge
        . have := ih.mp ⟨fun h => hge (.inr ⟨rfl, h⟩), hlt⟩
          exact ⟨⟨rfl, this.1⟩, this.2⟩
      . rintro ⟨⟨rfl, hpq⟩, hc⟩
        have := ih.mpr ⟨hpq, hc⟩
        refine ⟨?_, .inr ⟨rfl, this.2⟩⟩
        rintro (h | ⟨-, h⟩)
        . exact lt_irrefl _ h
        . exact this.1 h

theorem Bytes.append_lt_append_iff {p q : Bytes} (hlen : p.length = q.length) (x y : Bytes)
    : p ++ x < q ++ y ↔ p < q ∨ p = q ∧ x < y := by
  induction p generalizing q with
  | nil =>
    have hq : q = [] := List.length_eq_zero_iff.mp (by simpa using hlen.symm)
    subst hq
    simp
  | cons a p ih =>
    cases q with
    | nil => simp at hlen
    | cons b q =>
      simp only [List.cons_append, List.cons_lt_cons_iff, List.cons.injEq, ih (q := q) (by simpa using hlen)]
      tauto

namespace Bytes

theorem ofNatBE_lt_iff (w : Nat) {a b : Nat} (ha : a < 256 ^ w) (hb : b < 256 ^ w) : ofNatBE w a < ofNatBE w b ↔ a < b := by
  induction w generalizing a b with
  | zero =>
    simp only [Nat.pow_zero, Nat.lt_one_iff] at ha hb
    simp [ofNatBE, ha, hb]
  | succ w ih =>
    rw [Nat.pow_succ] at ha hb
    have ha' : a / 256 < 256 ^ w := Nat.div_lt_of_lt_mul (by omega)
    have hb' : b / 256 < 256 ^ w := Nat.div_lt_of_lt_mul (by omega)
    have heq : ofNatBE w (a / 256) = ofNatBE w (b / 256) ↔ a / 256 = b / 256 := by
      constructor
      . intro h
        have := congrArg toNatBE h
        rwa [toNatBE_ofNatBE, toNatBE_ofNatBE, Nat.mod_eq_of_lt ha', Nat.mod_eq_of_lt hb'] at this
      . intro h
        rw [h]
    have hbyte : ([UInt8.ofNat a] : Bytes) < [UInt8.ofNat b] ↔ a % 256 < b % 256 := by
      rw [List.cons_lt_cons_iff, UInt8.lt_iff_toNat_lt]
      simp
    rw [ofNatBE, ofNatBE, append_lt_append_iff (by simp), ih ha' hb', heq, hbyte]
    omega

theorem putUint64_lt_iff (a b : UInt64) : putUint64 a < putUint64 b ↔ a < b := by
  rw [putUint64, putUint64, ofNatBE_lt_iff 8 (by simpa using a.toNat_lt) (by simpa using b.toNat_lt)]
  exact UInt64.lt_iff_toNat_lt.symm

theorem putUint64_inj {a b : UInt64} : putUint64 a = putUint64 b ↔ a = b := by
  constructor
  . intro h
    rw [← uint64_putUint64 a, h, uint64_putUint64]
  . intro h
    rw [h]

theorem append_lt_append_of_lt {p q : Bytes} (h : p < q) (hpre : ¬ p <+: q) (x y : Bytes) : p ++ x < q ++ y := by
  induction p generalizing q with
  | nil => simp at hpre
  | cons a p ih =>
    cases q with
    | nil => simp at h
    | cons b q =>
      rw [List.cons_lt_cons_iff] at h
      rw [List.cons_append, List.cons_append, List.cons_lt_cons_iff]
      rcases h with h | ⟨rfl, h⟩
      . exact .inl h
      . refine .inr ⟨rfl, ih h ?_⟩
        simpa using hpre

theorem isPrefix_of_between {p x y k : Bytes} (hlo : p ++ x ≤ k) (hhi : k < p ++ y) : p <+: k := by
  induction p generalizing k with
  | nil => simp
  | cons a p ih =>
    cases k with
    | nil =>
      rw [← not_lt] at hlo
      simp at hlo
    | cons b k =>
      rw [← not_lt, List.cons_append, List.cons_lt_cons_iff, not_or] at hlo
      rw [List.cons_append, List.cons_lt_cons_iff] at hhi
      rcases hhi with hhi | ⟨rfl, hhi⟩
      . exact absurd hhi hlo.1
      . have hle : p ++ x ≤ k := by
          rw [← not_lt]
          exact fun h => hlo.2 ⟨rfl, h⟩
        simpa using ih hle hhi

theorem le_append (p x : Bytes) : p ≤ p ++ x := by
  induction p with
  | nil =>
    rw [← not_lt]
    simp
  | cons a p ih =>
    rw [← not_lt] at ih ⊢
    rw [List.cons_append, List.cons_lt_cons_iff, not_or]
    exact ⟨lt_irrefl a, fun h => ih h.2⟩

end Bytes
