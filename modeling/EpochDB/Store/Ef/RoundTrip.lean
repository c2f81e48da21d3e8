import EpochDB.Store.Ef.Impl

/-!
What `encode` writes, `decode` reads back.
-/

namespace EpochDB.Store.Ef

open List Option

structure Whole (w : Writer) (bits : List Bool) : Prop where
  vec : ∃ z, z < 8 ∧ w.vec = bits ++ List.replicate z false
  bytes : w.vec.length % 8 = 0

theorem set_replicate (bits : List Bool) {z i : Nat} (h : i < z)
    : (bits ++ List.replicate z false).set (bits.length + i) true =
        bits ++ List.replicate i false ++ [true] ++ List.replicate (z - i - 1) false := by
  have hz : z = i + (1 + (z - i - 1)) := by omega
  rw [hz, replicate_add, replicate_add]
  have hz' : i + (1 + (z - i - 1)) - i - 1 = z - i - 1 := by omega
  rw [hz', ← append_assoc]
  have hlen : (bits ++ List.replicate i false).length = bits.length + i := by simp
  rw [← hlen, set_append_right _ _ (Nat.le_refl _)]
  simp

variable {w : Writer} {bits : List Bool} {his : List Nat} {n low pb : Nat}

theorem Whole.set (h : Whole w bits) (zeros : Nat)
    : Whole (w.set (bits.length + zeros)) (bits ++ List.replicate zeros false ++ [true]) := by
  rcases h with ⟨⟨z, hz, hvec⟩, hbytes⟩
  have hlen : w.vec.length = bits.length + z := by simp [hvec]
  obtain ⟨z', hgrow, hz'⟩ : ∃ z', Writer.grow w.vec ((bits.length + zeros) / 8 + 1) =
      bits ++ List.replicate z' false ∧
        bits.length + z' = max (bits.length + z) (8 * ((bits.length + zeros) / 8 + 1)) := by
    refine ⟨z + (8 * ((bits.length + zeros) / 8 + 1) - w.vec.length), ?_, ?_⟩
    . unfold Writer.grow
      conv => lhs; lhs; rw [hvec]
      rw [append_assoc, ← replicate_add]
    . rw [hlen]
      omega
  have hin : zeros < z' := by omega
  have hset : (w.set (bits.length + zeros)).vec =
      bits ++ List.replicate zeros false ++ [true] ++ List.replicate (z' - zeros - 1) false := by
    unfold Writer.set
    dsimp only
    rw [hgrow, set_replicate bits hin]
  refine ⟨⟨z' - zeros - 1, ?_, hset⟩, ?_⟩
  . omega
  . rw [hset]
    simp only [length_append, length_replicate, length_singleton]
    omega

def upperBits (prev : Nat) (his : List Nat) : List Bool :=
  match his with
  | [] => []
  | hi :: his => List.replicate (hi - prev) false ++ [true] ++ upperBits hi his

theorem Whole.sets (h : Whole w bits) (prev : Nat)
    (hlen : bits.length = prev + w.ones) (hasc : (prev :: his).Pairwise (· ≤ ·))
    : Whole (his.foldl Writer.setEntry w) (bits ++ upperBits prev his) := by
  induction his generalizing w bits prev with
  | nil => simpa [upperBits] using h
  | cons hi his ih =>
    rw [pairwise_cons] at hasc
    have hle : prev ≤ hi := hasc.1 hi (by simp)
    have hpos : hi + w.ones = bits.length + (hi - prev) := by omega
    have hset := h.set (hi - prev)
    rw [← hpos] at hset
    have hnext : Whole (w.setEntry hi) (bits ++ List.replicate (hi - prev) false ++ [true]) := ⟨hset.vec, hset.bytes⟩
    have := ih hnext hi (by
      simp only [Writer.setEntry, Writer.set, length_append, length_replicate, length_singleton]
      omega) hasc.2
    rw [foldl_cons, upperBits]
    simpa [append_assoc] using this

theorem length_upperBits {prev : Nat} (hasc : (prev :: his).Pairwise (· ≤ ·))
    : (upperBits prev his).length = (his.getLast?.getD prev) - prev + his.length := by
  induction his generalizing prev with
  | nil => simp [upperBits]
  | cons hi his ih =>
    rw [pairwise_cons] at hasc
    have hle : prev ≤ hi := hasc.1 hi (by simp)
    have hlast : hi ≤ his.getLast?.getD hi := by
      cases hl : his.getLast? with
      | none => simp
      | some last => exact (pairwise_cons.mp hasc.2).1 last (mem_of_getLast? hl)
    rw [upperBits, length_append, length_append, ih hasc.2, getLast?_cons]
    simp only [length_replicate, length_cons, length_nil, getD_some]
    omega

theorem Whole.pad (h : Whole w bits) : (w.pad bits.length).vec = w.vec ∧ (w.pad bits.length).bits = w.vec.length := by
  rcases h with ⟨⟨z, hz, hvec⟩, hbytes⟩
  have hlen : w.vec.length = bits.length + z := by simp [hvec]
  have hgrow : Writer.grow w.vec ((bits.length + 7) / 8) = w.vec := by
    have hzero : 8 * ((bits.length + 7) / 8) - w.vec.length = 0 := by omega
    unfold Writer.grow
    rw [hzero]
    simp
  exact ⟨hgrow, by simp [Writer.pad, hgrow]⟩

structure Writing (w : Writer) (bits : List Bool) : Prop where
  whole : Whole w bits
  bits : w.bits = bits.length

theorem Writing.putBit (h : Writing w bits) (b : Bool) : Writing (w.putBit b) (bits ++ [b]) := by
  rcases h with ⟨⟨⟨z, hz, hvec⟩, hbytes⟩, hbits⟩
  have hlen : w.vec.length = bits.length + z := by simp [hvec]
  obtain ⟨z', hgrow, hz'⟩ : ∃ z', (if w.bits % 8 = 0 then w.vec ++ List.replicate 8 false else w.vec) =
      bits ++ List.replicate (z' + 1) false ∧ (bits.length + 1 + z') % 8 = 0 ∧ z' < 8 := by
    rw [hbits, hvec]
    split
    . next hfull =>
      have hzero : z = 0 := by omega
      subst hzero
      exact ⟨7, by simp, by omega, by omega⟩
    . next hpart =>
      have hpos : z ≠ 0 := by
        rintro rfl
        omega
      exact ⟨z - 1, by rw [Nat.sub_add_cancel (by omega)], by omega, by omega⟩
  have hput : (w.putBit b).vec = bits ++ [b] ++ List.replicate z' false := by
    unfold Writer.putBit
    dsimp only
    rw [hgrow, hbits]
    cases b with
    | true =>
      have hset := set_replicate bits (z := z' + 1) (i := 0) (by omega)
      simpa using hset
    | false => simp [replicate_succ]
  refine ⟨⟨⟨z', hz'.2, hput⟩, ?_⟩, ?_⟩
  . rw [hput]
    simp only [length_append, length_replicate, length_singleton]
    omega
  . simp [Writer.putBit, hbits]

theorem Writing.put (h : Writing w bits) (x nbits : Nat) : Writing (w.put x nbits) (bits ++ Bits.ofNat nbits x) := by
  have hfold : ∀ (bs : List Bool) (w : Writer) (bits : List Bool), Writing w bits →
      Writing (bs.foldl Writer.putBit w) (bits ++ bs) := by
    intro bs
    induction bs with
    | nil =>
      intro w bits h
      simpa using h
    | cons b bs ih =>
      intro w bits h
      have := ih _ _ (h.putBit b)
      simpa [append_assoc] using this
  exact hfold _ _ _ h

theorem Writing.puts (h : Writing w bits) (xs : List Nat) (nbits : Nat)
    : Writing (xs.foldl (fun w x => w.put x nbits) w) (bits ++ xs.flatMap (Bits.ofNat nbits)) := by
  induction xs generalizing w bits with
  | nil => simpa using h
  | cons x xs ih =>
    have := ih (h.put x nbits)
    simpa [append_assoc] using this

theorem unary_replicate (zeros : Nat) (bits : List Bool) (hi : Nat)
    : unary (List.replicate zeros false ++ [true] ++ bits) hi = some (hi + zeros, bits) := by
  induction zeros generalizing hi with
  | zero => rfl
  | succ zeros ih =>
    rw [replicate_succ, cons_append, cons_append, unary, ih, Nat.add_assoc, Nat.add_comm 1]

theorem uppers_upperBits {prev : Nat} (hasc : (prev :: his).Pairwise (· ≤ ·)) (bits : List Bool)
    : uppers his.length (upperBits prev his ++ bits) prev = some (his, bits) := by
  induction his generalizing prev with
  | nil => rfl
  | cons hi his ih =>
    rw [pairwise_cons] at hasc
    have hle : prev ≤ hi := hasc.1 hi (by simp)
    have hstep := unary_replicate (hi - prev) (upperBits hi his ++ bits) prev
    rw [Nat.add_sub_cancel' hle] at hstep
    rw [length_cons, uppers, upperBits, append_assoc _ _ bits, hstep]
    simp only [bind_eq_bind, bind_some]
    rw [ih hasc.2]
    rfl

theorem gets_flatMap (width : Nat) (xs : List Nat) (bits : List Bool)
    : gets xs.length width (xs.flatMap (Bits.ofNat width) ++ bits) = some (xs.map (· % 2 ^ width), bits) := by
  induction xs with
  | nil => rfl
  | cons x xs ih =>
    rw [length_cons, gets, flatMap_cons, append_assoc, Bits.get_ofNat]
    simp only [bind_eq_bind, bind_some]
    rw [ih]
    rfl

theorem lowBits_le {n span : Nat} (h : span < 2 ^ 64) : lowBits n span ≤ 64 := by
  unfold lowBits
  split
  . rw [Nat.size_le]
    exact Nat.lt_of_le_of_lt (Nat.div_le_self _ _) h
  . exact Nat.zero_le _

theorem toInt_of_lt {x : Nat} (h : x < 2 ^ 63) : toInt x = x := by
  simp only [toInt, h, if_true]

def header (v : Bytes) : Option (Nat × Nat × Nat × Bytes) :=
  (uvarint v 0 0).bind fun n =>
    (uvarint n.2 0 0).bind fun low =>
      (uvarint low.2 0 0).map fun pb => (n.1, low.1, pb.1, pb.2)

def Admitted (n low pb : Nat) : Prop := toInt n ≤ maxEntries ∧ toInt low ≤ 64 ∧ toInt pb ≤ 8

theorem decode_of_header_none (base : UInt64) {v : Bytes} (h : header v = none) : decode base v = .corrupt := by
  unfold header at h
  unfold decode
  cases hn : uvarint v 0 0 with
  | none => rfl
  | some p =>
    rcases p with ⟨n, v⟩
    rw [hn, bind_some] at h
    dsimp only
    cases hlow : uvarint v 0 0 with
    | none => rfl
    | some p =>
      rcases p with ⟨low, v⟩
      rw [hlow, bind_some] at h
      dsimp only
      cases hpb : uvarint v 0 0 with
      | none => rfl
      | some p =>
        rw [hpb] at h
        cases h

theorem uvarint_of_header {v rest : Bytes} (h : header v = some (n, low, pb, rest))
    : ∃ v1 v2, uvarint v 0 0 = some (n, v1) ∧ uvarint v1 0 0 = some (low, v2) ∧ uvarint v2 0 0 = some (pb, rest) := by
  unfold header at h
  rcases bind_eq_some_iff.mp h with ⟨⟨n', v1⟩, hn, h⟩
  rcases bind_eq_some_iff.mp h with ⟨⟨low', v2⟩, hlow, h⟩
  rcases map_eq_some_iff.mp h with ⟨⟨pb', v3⟩, hpb, h⟩
  cases h
  exact ⟨v1, v2, hn, hlow, hpb⟩

section

variable (base : UInt64) {v rest : Bytes} {n low pb : Nat} (h : header v = some (n, low, pb, rest))

include h

theorem decode_of_not_admitted (hadm : ¬ Admitted n low pb) : decode base v = .corrupt := by
  rcases uvarint_of_header h with ⟨v1, v2, hn, hlow, hpb⟩
  unfold decode
  rw [hn]
  dsimp only
  rw [hlow]
  dsimp only
  rw [hpb]
  dsimp only
  rw [if_pos]
  unfold Admitted at hadm
  omega

theorem decode_of_admitted (hadm : Admitted n low pb)
    : decode base v =
        if toInt n < 0 then
          .panic
        else if toInt low < 0 ∧ toInt n > 0 then
          match uppers (toInt n).toNat (Bits.unpack rest) 0 with
          | none => .corrupt
          | some _ => .panic
        else
          decodeBits base (toInt n).toNat (toInt low).toNat (toInt pb).toNat (Bits.unpack rest) := by
  rcases uvarint_of_header h with ⟨v1, v2, hn, hlow, hpb⟩
  conv => lhs; unfold decode
  rw [hn]
  dsimp only
  rw [hlow]
  dsimp only
  rw [hpb]
  unfold Admitted at hadm
  exact if_neg (by omega)

omit base in
theorem header_append (more : Bytes) : header (v ++ more) = some (n, low, pb, rest ++ more) := by
  rcases uvarint_of_header h with ⟨v1, v2, hn, hlow, hpb⟩
  unfold header
  rw [uvarint_append hn, bind_some, uvarint_append hlow, bind_some, uvarint_append hpb]
  rfl

end

theorem header_appendUvarint (hn : n < 2 ^ 63) (hlow : low < 2 ^ 63) (hpb : pb < 2 ^ 63) (rest : Bytes)
    : header (appendUvarint n ++ appendUvarint low ++ appendUvarint pb ++ rest) = some (n, low, pb, rest) := by
  have hread : ∀ {x : Nat}, x < 2 ^ 63 → ∀ bytes, uvarint (appendUvarint x ++ bytes) 0 0 = some (x, bytes) := by
    intro x hx bytes
    have := uvarint_appendUvarint (x := x) 0 0 (by omega) (by omega) bytes
    simpa using this
  unfold header
  rw [append_assoc, append_assoc, hread hn, bind_some, hread hlow, bind_some, hread hpb]
  rfl

theorem decode_of_small (base : UInt64) {v rest : Bytes} (h : header v = some (n, low, pb, rest))
    (hn : n ≤ maxEntries) (hlow : low ≤ 64) (hpb : pb ≤ 8)
    : decode base v = decodeBits base n low pb (Bits.unpack rest) := by
  unfold maxEntries at hn
  have hn' := toInt_of_lt (x := n) (by omega)
  have hlow' := toInt_of_lt (x := low) (by omega)
  have hpb' := toInt_of_lt (x := pb) (by omega)
  have hadm : Admitted n low pb := by
    unfold Admitted maxEntries
    omega
  rw [decode_of_admitted base h hadm, if_neg (by omega), if_neg (by omega), hn', hlow', hpb']
  rfl

theorem lowBits_spanOf_le (base : UInt64) (txnums : List UInt64) : lowBits txnums.length (spanOf base txnums) ≤ 64 := by
  apply lowBits_le
  unfold spanOf
  split
  . exact (_ - base).toNat_lt
  . decide

theorem header_encode (base : UInt64) {txnums : List UInt64} (hlen : txnums.length ≤ maxEntries) (payload : List UInt8) (hpb : pb ≤ 8)
    : header (encode base txnums payload pb) =
        some (txnums.length, lowBits txnums.length (spanOf base txnums), pb,
          Bits.pack (vectors base txnums payload pb (spanOf base txnums) (lowBits txnums.length (spanOf base txnums))).vec) := by
  have hlow := lowBits_spanOf_le base txnums
  unfold maxEntries at hlen
  exact header_appendUvarint (by omega) (by omega) (by omega) _

theorem toNat_sub_le_of_le {base t t' : UInt64} (hb : base ≤ t) (hb' : base ≤ t') (h : t ≤ t')
    : (t - base).toNat ≤ (t' - base).toNat := by
  rw [UInt64.toNat_sub_of_le _ _ hb, UInt64.toNat_sub_of_le _ _ hb']
  rw [UInt64.le_iff_toNat_le] at h
  omega

section

variable {base : UInt64} {txnums : List UInt64} (hbase : ∀ t ∈ txnums, base ≤ t) (hasc : txnums.Pairwise (· ≤ ·))

include hbase hasc

theorem ascending_uppers (low : Nat) : (0 :: txnums.map (fun t => (t - base).toNat / 2 ^ low)).Pairwise (· ≤ ·) := by
  rw [pairwise_cons]
  refine ⟨fun _ _ => Nat.zero_le _, ?_⟩
  rw [pairwise_map]
  apply hasc.imp_of_mem
  intro t t' ht ht' hle
  exact Nat.div_le_div_right (toNat_sub_le_of_le (hbase t ht) (hbase t' ht') hle)

theorem vec_vectors (payload : List UInt8) (pb low : Nat)
    : ∃ z z', z < 8 ∧ z' < 8 ∧
        (vectors base txnums payload pb (spanOf base txnums) low).vec =
          upperBits 0 (txnums.map (fun t => (t - base).toNat / 2 ^ low)) ++ (List.replicate z false ++
            ((txnums.map (fun t => (t - base).toNat)).flatMap (Bits.ofNat low) ++
              ((if pb > 0 then payload.map (·.toNat) else []).flatMap (Bits.ofNat pb) ++
                List.replicate z' false))) ∧
        (vectors base txnums payload pb (spanOf base txnums) low).vec.length % 8 = 0 ∧
        ((upperBits 0 (txnums.map (fun t => (t - base).toNat / 2 ^ low))).length + z) % 8 = 0 := by
  have hhis := ascending_uppers hbase hasc low
  have hempty : Whole Writer.empty [] := ⟨⟨0, by omega, rfl⟩, rfl⟩
  have hsets := hempty.sets 0 rfl hhis
  rw [foldl_map, nil_append] at hsets
  have hupper : spanOf base txnums / 2 ^ low + txnums.length =
      (upperBits 0 (txnums.map (fun t => (t - base).toNat / 2 ^ low))).length := by
    rw [length_upperBits hhis, getLast?_map, spanOf]
    cases txnums.getLast? with
    | none => simp
    | some t => simp
  rcases hsets.pad with ⟨hvec, hbits⟩
  rw [← hupper] at hvec hbits
  rcases hsets with ⟨⟨z, hz, hset⟩, hbytes⟩
  have hpad : Writing _ _ := ⟨⟨⟨0, by omega, by simpa using hvec⟩, by rw [hvec]; exact hbytes⟩, hbits⟩
  have hlow := hpad.puts (txnums.map (fun t => (t - base).toNat)) low
  rw [foldl_map] at hlow
  have hputs := (hlow.puts (if pb > 0 then payload.map (·.toNat) else []) pb).whole
  have hvectors : vectors base txnums payload pb (spanOf base txnums) low =
      (if pb > 0 then payload.map (·.toNat) else []).foldl (fun w x => w.put x pb)
        (txnums.foldl (fun w t => w.put (t - base).toNat low)
          ((txnums.foldl (fun w t => w.setEntry ((t - base).toNat / 2 ^ low)) Writer.empty).pad
            (spanOf base txnums / 2 ^ low + txnums.length))) := by
    unfold vectors
    split
    . rw [foldl_map]
    . rfl
  rw [← hvectors] at hputs
  rcases hputs with ⟨⟨z', hz', hfinal⟩, hwhole⟩
  refine ⟨z, z', hz, hz', ?_, hwhole, ?_⟩
  . rw [hfinal, hset]
    simp only [append_assoc]
  . rw [hset] at hbytes
    simpa using hbytes

omit hbase hasc in
theorem map_split_join (base : UInt64) (txnums : List UInt64) (low : Nat)
    : txnums.map ((fun (hi, lo) => base + UInt64.ofNat (hi * 2 ^ low) + UInt64.ofNat lo) ∘
        fun t => ((t - base).toNat / 2 ^ low, (t - base).toNat % 2 ^ low)) = txnums := by
  conv => rhs; rw [← map_id txnums]
  apply map_congr_left
  intro t _
  dsimp only [Function.comp_apply, id]
  rw [UInt64.add_assoc, ← UInt64.ofNat_add, Nat.mul_comm, Nat.div_add_mod, UInt64.ofNat_toNat]
  rw [UInt64.add_comm, UInt64.sub_add_cancel]

theorem decodeBits_eq {low pb z : Nat} {payload : List UInt8} (hpay : payload.length = txnums.length)
    (hfit : ∀ p ∈ payload, p.toNat < 2 ^ pb) (hz : z < 8) {tail : List Bool}
    (hrest : ((txnums.map (fun t => (t - base).toNat)).flatMap (Bits.ofNat low) ++
      ((if pb > 0 then payload.map (·.toNat) else []).flatMap (Bits.ofNat pb) ++ tail)).length % 8 = 0)
    : decodeBits base txnums.length low pb (upperBits 0 (txnums.map (fun t => (t - base).toNat / 2 ^ low)) ++
        (List.replicate z false ++ ((txnums.map (fun t => (t - base).toNat)).flatMap (Bits.ofNat low) ++
          ((if pb > 0 then payload.map (·.toNat) else []).flatMap (Bits.ofNat pb) ++ tail)))) =
      .chunk txnums (if pb > 0 then some payload else none) := by
  have huppers := uppers_upperBits (ascending_uppers hbase hasc low)
  have hgets := gets_flatMap low (txnums.map (fun t => (t - base).toNat))
  have hpays := gets_flatMap pb (payload.map (·.toNat))
  rw [length_map] at huppers hgets hpays
  rw [hpay] at hpays
  have hentry : (txnums.map (fun t => (t - base).toNat / 2 ^ low)).zip
      ((txnums.map (fun t => (t - base).toNat)).map (· % 2 ^ low)) =
      txnums.map (fun t => ((t - base).toNat / 2 ^ low, (t - base).toNat % 2 ^ low)) := by
    rw [List.map_map, List.zip_map']
    rfl
  have hvals : ((payload.map (·.toNat)).map (· % 2 ^ pb)).map UInt8.ofNat = payload := by
    rw [List.map_map, List.map_map]
    conv => rhs; rw [← map_id payload]
    apply map_congr_left
    intro p hp
    simp only [Function.comp_apply, Nat.mod_eq_of_lt (hfit p hp), UInt8.ofNat_toNat, id]
  unfold decodeBits
  rw [huppers]
  dsimp only
  have hdrop : ∀ rest : List Bool, rest.length % 8 = 0 →
      (List.replicate z false ++ rest).drop ((List.replicate z false ++ rest).length % 8) = rest := by
    intro rest hlen
    have hmod : (List.replicate z false ++ rest).length % 8 = z := by
      simp only [length_append, length_replicate]
      omega
    rw [hmod]
    exact drop_left' (by simp)
  rw [hdrop _ hrest, hgets]
  dsimp only
  rw [hentry, List.map_map]
  rw [map_split_join]
  split
  . rw [hpays]
    dsimp only
    rw [hvals]
  . rfl

theorem decode_encode (hlen : txnums.length ≤ maxEntries) {payload : List UInt8}
    (hpay : payload.length = txnums.length) {pb : Nat} (hpb : pb ≤ 8) (hfit : ∀ p ∈ payload, p.toNat < 2 ^ pb)
    : decode base (encode base txnums payload pb) = .chunk txnums (if pb > 0 then some payload else none) := by
  have hlow := lowBits_spanOf_le base txnums
  rw [decode_of_small base (header_encode base hlen payload hpb) hlen hlow hpb]
  generalize lowBits txnums.length (spanOf base txnums) = low
  rcases vec_vectors hbase hasc payload pb low with ⟨z, z', hz, -, hvec, hbytes, halign⟩
  rw [Bits.unpack_pack hbytes, hvec]
  have hrest : ((txnums.map (fun t => (t - base).toNat)).flatMap (Bits.ofNat low) ++
      ((if pb > 0 then payload.map (·.toNat) else []).flatMap (Bits.ofNat pb) ++
        List.replicate z' false)).length % 8 = 0 := by
    rw [hvec] at hbytes
    simp only [length_append, length_replicate] at hbytes halign ⊢
    omega
  exact decodeBits_eq hbase hasc hpay hfit hz hrest

end

end EpochDB.Store.Ef
