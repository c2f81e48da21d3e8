import EpochDB.Store.Ef.RoundTrip

/-!
Chunks that are not what `encode` wrote: a chunk that was cut short is corrupt, and bytes of any kind
stop the process only through a count or a width that is negative as an `int`.
-/

namespace EpochDB.Store.Ef

open List

variable {bits rest : List Bool} {hi hi' n : Nat} {his : List Nat}

theorem unary_eq_none : unary bits hi = none ↔ bits.count true = 0 := by
  induction bits generalizing hi with
  | nil => simp [unary]
  | cons b bits ih =>
    cases b with
    | true => simp [unary]
    | false => simp [unary, ih]

theorem count_of_unary (h : unary bits hi = some (hi', rest)) : bits.count true = rest.count true + 1 := by
  induction bits generalizing hi with
  | nil => cases h
  | cons b bits ih =>
    cases b with
    | true =>
      cases h
      simp
    | false => simpa using ih h

theorem unary_append (h : unary bits hi = some (hi', rest)) (more : List Bool)
    : unary (bits ++ more) hi = some (hi', rest ++ more) := by
  induction bits generalizing hi with
  | nil => cases h
  | cons b bits ih =>
    cases b with
    | true =>
      cases h
      rfl
    | false => exact ih h

theorem uppers_succ {bits mid : List Bool} (h : unary bits hi = some (hi', mid)) (n : Nat)
    : uppers (n + 1) bits hi = (uppers n mid hi').map (fun p => (hi' :: p.1, p.2)) := by
  rw [uppers, h, Option.bind_eq_bind, Option.bind_some]
  dsimp only
  cases uppers n mid hi' <;> rfl

theorem uppers_succ_of_some (h : uppers (n + 1) bits hi = some (his, rest))
    : ∃ hi' mid his', unary bits hi = some (hi', mid) ∧ uppers n mid hi' = some (his', rest) ∧ his = hi' :: his' := by
  rw [uppers] at h
  rcases Option.bind_eq_some_iff.mp h with ⟨⟨hi', mid⟩, hunary, h⟩
  rcases Option.bind_eq_some_iff.mp h with ⟨⟨his', rest'⟩, huppers, h⟩
  cases h
  exact ⟨hi', mid, his', hunary, huppers, rfl⟩

theorem isSome_uppers : (uppers n bits hi).isSome = true ↔ n ≤ bits.count true := by
  induction n generalizing bits hi with
  | zero => simp [uppers]
  | succ n ih =>
    cases hunary : unary bits hi with
    | none =>
      have := unary_eq_none.mp hunary
      simp [uppers, hunary, this]
    | some p =>
      rcases p with ⟨hi', mid⟩
      have hcount := count_of_unary hunary
      rw [uppers_succ hunary, Option.isSome_map, ih, hcount, Nat.add_le_add_iff_right]

theorem length_of_uppers (h : uppers n bits hi = some (his, rest)) : his.length = n := by
  induction n generalizing bits hi his with
  | zero =>
    cases h
    rfl
  | succ n ih =>
    rcases uppers_succ_of_some h with ⟨hi', mid, his', -, huppers, rfl⟩
    rw [length_cons, ih huppers]

theorem uppers_append
    (h : uppers n bits hi = some (his, rest)) (more : List Bool) : uppers n (bits ++ more) hi = some (his, rest ++ more) := by
  induction n generalizing bits hi his with
  | zero =>
    cases h
    rfl
  | succ n ih =>
    rcases uppers_succ_of_some h with ⟨hi', mid, his', hunary, huppers, rfl⟩
    rw [uppers_succ (unary_append hunary more), ih huppers]
    rfl

theorem length_of_gets {n width : Nat} {xs : List Nat} (h : gets n width bits = some (xs, rest))
    : xs.length = n ∧ bits.length = n * width + rest.length := by
  induction n generalizing bits xs with
  | zero =>
    cases h
    simp
  | succ n ih =>
    rw [gets] at h
    rcases Option.bind_eq_some_iff.mp h with ⟨⟨x, mid⟩, hget, h⟩
    rcases Option.bind_eq_some_iff.mp h with ⟨⟨xs', rest'⟩, hgets, h⟩
    cases h
    rcases ih hgets with ⟨hxs, hmid⟩
    have hbits := Bits.length_of_get hget
    rw [length_cons, hxs, hbits, hmid, Nat.succ_mul]
    omega

theorem decodeBits_chunk {base : UInt64} {n low pb : Nat} {txnums : List UInt64}
    {payload : Option (List UInt8)} (h : decodeBits base n low pb bits = .chunk txnums payload)
    : txnums.length = n ∧ (∀ pay ∈ payload, pay.length = n) ∧
        ∃ his rest, uppers n bits 0 = some (his, rest) ∧ rest.length % 8 + n * low + n * pb ≤ rest.length := by
  unfold decodeBits at h
  cases huppers : uppers n bits 0 with
  | none =>
    rw [huppers] at h
    cases h
  | some p =>
    rcases p with ⟨his, rest⟩
    rw [huppers] at h
    dsimp only at h
    have hle : rest.length % 8 ≤ rest.length := Nat.mod_le _ _
    cases hgets : gets n low (rest.drop (rest.length % 8)) with
    | none =>
      rw [hgets] at h
      cases h
    | some p =>
      rcases p with ⟨los, mid⟩
      rw [hgets] at h
      dsimp only at h
      rcases length_of_gets hgets with ⟨hlos, hrest⟩
      rw [length_drop] at hrest
      have hentries : (his.zip los).length = n := by rw [length_zip, length_of_uppers huppers, hlos, Nat.min_self]
      split at h
      . cases hpays : gets n pb mid with
        | none =>
          rw [hpays] at h
          cases h
        | some p =>
          rcases p with ⟨pays, tail⟩
          rw [hpays] at h
          cases h
          rcases length_of_gets hpays with ⟨hlen, hmid⟩
          refine ⟨by rw [length_map, hentries], ?_, his, rest, rfl, by omega⟩
          intro pay hpay
          cases hpay
          rw [length_map, hlen]
      . next hzero =>
        cases h
        have hpb : pb = 0 := by omega
        refine ⟨by rw [length_map, hentries], by simp, his, rest, rfl, ?_⟩
        rw [hpb, Nat.mul_zero]
        omega

theorem decodeBits_ne_panic (base : UInt64) (n low pb : Nat) (bits : List Bool) : decodeBits base n low pb bits ≠ .panic := by
  unfold decodeBits
  split
  . simp
  . split
    . simp
    . dsimp only
      split
      . split <;> simp
      . simp

theorem encode_zero (base : UInt64) (txnums : List UInt64) (payload payload' : List UInt8)
    : encode base txnums payload 0 = encode base txnums payload' 0 := rfl

theorem length_flatMap_ofNat (width : Nat) (xs : List Nat) : (xs.flatMap (Bits.ofNat width)).length = xs.length * width := by
  induction xs with
  | nil => simp
  | cons x xs ih => rw [flatMap_cons, length_append, ih, Bits.length_ofNat, length_cons, Nat.succ_mul, Nat.add_comm]

section

variable {base : UInt64} {txnums : List UInt64} (hbase : ∀ x ∈ txnums, base ≤ x) (hasc : txnums.Pairwise (· ≤ ·))
variable {payload : List UInt8} (hpay : payload.length = txnums.length)

include hbase hasc hpay

theorem decodeBits_front {low pb : Nat} {front back : List Bool} (hfront : front.length % 8 = 0) (hback : 8 ≤ back.length)
    (hcut : (vectors base txnums payload pb (spanOf base txnums) low).vec = front ++ back)
    : decodeBits base txnums.length low pb front = .corrupt := by
  cases hdec : decodeBits base txnums.length low pb front with
  | corrupt => rfl
  | panic => exact absurd hdec (decodeBits_ne_panic _ _ _ _ _)
  | chunk ts ps =>
    -- the upper parts of the front are those of the whole, and so is the padding behind them
    rcases decodeBits_chunk hdec with ⟨-, -, his, rest, huppers, hneed⟩
    rcases vec_vectors hbase hasc payload pb low with ⟨z, z', hz, hz', hvec, hbytes, halign⟩
    have hall := uppers_append huppers back
    have huppers := uppers_upperBits (ascending_uppers hbase hasc low)
    rw [length_map] at huppers
    rw [← hcut, hvec, huppers, Option.some.injEq, Prod.mk.injEq] at hall
    have hlen := congrArg List.length hall.2
    have hvlen := congrArg List.length hvec
    rw [hcut] at hvlen
    have hpays : (if pb > 0 then payload.map (·.toNat) else []).length * pb = txnums.length * pb := by
      split
      . rw [length_map, hpay]
      . next hzero =>
        rw [show pb = 0 by omega, Nat.mul_zero, Nat.mul_zero]
    simp only [length_append, length_replicate, length_flatMap_ofNat, length_map, hpays] at hlen hvlen halign
    omega

variable (hlen : txnums.length ≤ maxEntries) {pb : Nat} (hpb : pb ≤ 8)

include hlen hpb

theorem decode_front {v : Bytes} (hv : v <+: encode base txnums payload pb) (hne : v ≠ encode base txnums payload pb)
    : decode base v = .corrupt := by
  cases hheader : header v with
  | none => exact decode_of_header_none base hheader
  | some p =>
    rcases p with ⟨n, low, pb', rest⟩
    rcases hv with ⟨more, hmore⟩
    have hlow := lowBits_spanOf_le base txnums
    -- the header is whole, so the missing bytes are bytes of the vectors
    have hwhole := header_append hheader more
    rw [hmore, header_encode base hlen payload hpb] at hwhole
    simp only [Option.some.injEq, Prod.mk.injEq] at hwhole
    rcases hwhole with ⟨rfl, rfl, rfl, hrest⟩
    rw [decode_of_small base hheader hlen hlow hpb]
    generalize lowBits txnums.length (spanOf base txnums) = low at hrest ⊢
    rcases vec_vectors hbase hasc payload pb low with ⟨_, _, -, -, -, hbytes, -⟩
    have hmissing : more ≠ [] := by
      rintro rfl
      rw [append_nil] at hmore
      exact hne hmore
    have hpos := length_pos_iff.mpr hmissing
    have hcut := congrArg Bits.unpack hrest
    rw [Bits.unpack_pack hbytes, Bits.unpack_append] at hcut
    apply decodeBits_front hbase hasc hpay _ _ hcut
    . rw [Bits.length_unpack]
      omega
    . rw [Bits.length_unpack]
      omega

end

/--
A chunk of at most `maxEntries` TxNums, none below `base` and none below the one before it, is read back
whole. Any strict beginning of it is refused.
-/
theorem decode_encode_whole (base : UInt64) (txnums : List UInt64) (payload : List UInt8) (pb : Nat)
    (hlen : txnums.length ≤ maxEntries) (hasc : txnums.Pairwise (· ≤ ·)) (hbase : ∀ t ∈ txnums, base ≤ t) (hpb : pb ≤ 8)
    (hpay : pb > 0 → payload.length = txnums.length ∧ ∀ p ∈ payload, p.toNat < 2 ^ pb)
    : decode base (encode base txnums payload pb) = .chunk txnums (if pb > 0 then some payload else none) ∧
      ∀ v, v <+: encode base txnums payload pb → v ≠ encode base txnums payload pb → decode base v = .corrupt := by
  by_cases hzero : pb > 0
  . rcases hpay hzero with ⟨hcount, hfit⟩
    exact ⟨decode_encode hbase hasc hlen hcount hpb hfit, fun v hv hne => decode_front hbase hasc hcount hlen hpb hv hne⟩
  . rcases Nat.eq_zero_of_not_pos hzero with rfl
    have hcount : (List.replicate txnums.length (0 : UInt8)).length = txnums.length := length_replicate
    have hfit : ∀ p ∈ List.replicate txnums.length (0 : UInt8), p.toNat < 2 ^ 0 := by
      intro p hp
      rw [eq_of_mem_replicate hp]
      decide
    rw [encode_zero base txnums payload (List.replicate txnums.length 0)]
    exact ⟨decode_encode hbase hasc hlen hcount hpb hfit, fun v hv hne => decode_front hbase hasc hcount hlen hpb hv hne⟩

theorem decode_encode_whole_repeats
    : decode 5 (encode 5 [5, 5, 18446744073709551615] [1, 0, 7] 3) =
        .chunk [5, 5, 18446744073709551615] (some [1, 0, 7]) ∧
      decode 5 [] = .corrupt := by
  have hlen : [5, 5, (18446744073709551615 : UInt64)].length ≤ maxEntries := by decide
  have h := decode_encode_whole 5 [5, 5, 18446744073709551615] [1, 0, 7] 3 hlen (by decide +kernel)
    (by simp) (by decide) (by simp)
  rw [if_pos (by decide)] at h
  refine ⟨h.1, h.2 [] nil_prefix ?_⟩
  intro hempty
  have hheader := header_encode 5 hlen [1, 0, 7] (show 3 ≤ 8 by decide)
  rw [← hempty] at hheader
  cases hheader

def Decoded.Safe : Decoded → Prop
  | .corrupt => True
  | .chunk txnums payload => txnums.length ≤ maxEntries ∧ ∀ p ∈ payload, p.length ≤ maxEntries
  | .panic => False

def Negative (v : Bytes) : Prop :=
  ∃ n low pb rest, header v = some (n, low, pb, rest) ∧ Admitted n low pb ∧
    (toInt n < 0 ∨ toInt low < 0 ∧ 0 < toInt n ∧ toInt n ≤ (Bits.unpack rest).count true)

theorem safe_decodeBits (base : UInt64) (hn : n ≤ maxEntries) (low pb : Nat) (bits : List Bool)
    : (decodeBits base n low pb bits).Safe := by
  cases h : decodeBits base n low pb bits with
  | corrupt => trivial
  | panic => exact decodeBits_ne_panic base n low pb bits h
  | chunk txnums payload =>
    rcases decodeBits_chunk h with ⟨htxnums, hpayload, -⟩
    exact ⟨htxnums ▸ hn, fun p hp => hpayload p hp ▸ hn⟩

/--
`decode` refuses its bytes or returns lists within the chunk size unless a number of the header is
negative where it counts.
-/
theorem safe_decode_iff (base : UInt64) (v : Bytes) : (decode base v).Safe ↔ ¬ Negative v := by
  cases h : header v with
  | none =>
    rw [decode_of_header_none base h]
    have hneg : ¬ Negative v := by
      rintro ⟨n, low, pb, rest, h', -⟩
      rw [h] at h'
      cases h'
    exact ⟨fun _ => hneg, fun _ => trivial⟩
  | some p =>
    rcases p with ⟨n, low, pb, rest⟩
    have hneg : Negative v ↔ Admitted n low pb ∧
        (toInt n < 0 ∨ toInt low < 0 ∧ 0 < toInt n ∧ toInt n ≤ (Bits.unpack rest).count true) := by
      constructor
      . rintro ⟨n', low', pb', rest', h', hbad⟩
        rw [h] at h'
        cases h'
        exact hbad
      . intro hbad
        exact ⟨n, low, pb, rest, h, hbad⟩
    rw [hneg]
    by_cases hadm : Admitted n low pb
    . rw [decode_of_admitted base h hadm]
      have hmax := hadm.1
      split
      . next hn => exact ⟨False.elim, fun hsafe => hsafe ⟨hadm, .inl hn⟩⟩
      . next hn =>
        split
        . next hlow =>
          have hsome : (uppers (toInt n).toNat (Bits.unpack rest) 0).isSome = true ↔ _ := isSome_uppers
          cases huppers : uppers (toInt n).toNat (Bits.unpack rest) 0 with
          | none =>
            rw [huppers] at hsome
            have hfew : ¬ (toInt n).toNat ≤ (Bits.unpack rest).count true := fun hle => absurd (hsome.mpr hle) (by decide)
            refine ⟨fun _ hbad => ?_, fun _ => trivial⟩
            omega
          | some p =>
            rw [huppers] at hsome
            have hmany := hsome.mp rfl
            refine ⟨False.elim, fun hsafe => hsafe ⟨hadm, .inr ⟨hlow.1, hlow.2, ?_⟩⟩⟩
            omega
        . next hlow =>
          refine ⟨fun _ hbad => ?_, fun _ => safe_decodeBits base (by omega) _ _ _⟩
          omega
    . rw [decode_of_not_admitted base h hadm]
      exact ⟨fun _ hbad => hadm hbad.1, fun _ => trivial⟩

theorem decode_negative_count
    : ¬ (decode 0 [0x80, 0x80, 0x80, 0x80, 0x80, 0x80, 0x80, 0x80, 0x80, 0x01, 0x00, 0x00]).Safe := by
  have hpanic : decode 0 [0x80, 0x80, 0x80, 0x80, 0x80, 0x80, 0x80, 0x80, 0x80, 0x01, 0x00, 0x00] = .panic := by
    decide
  rw [hpanic]
  exact id

end EpochDB.Store.Ef
