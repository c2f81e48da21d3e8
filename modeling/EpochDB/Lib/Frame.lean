import EpochDB.Lib.Bytes

/-!
A log of framed records: every record is a kind byte, a 64 bit number, the payload length in 32 bits
and the payload. The reader refuses a payload above a bound of its own.
-/

structure Frame where
  kind : UInt8
  num : UInt64
  payload : Bytes
  deriving DecidableEq, Repr

namespace Frame

open List

def headerSize : Nat := 1 + 8 + 4

def encode (f : Frame) : Bytes :=
  f.kind :: (Bytes.putUint64 f.num ++ Bytes.putUint32 (UInt32.ofNat f.payload.length) ++ f.payload)

def encodeAll (fs : List Frame) : Bytes := fs.flatMap encode

def read (max : Nat) (bs : Bytes) : Option (Frame × Bytes) :=
  match bs with
  | [] => none
  | kind :: bs =>
    if bs.length < 12 then
      none
    else
      let num := Bytes.uint64 (bs.take 8)
      let n := (Bytes.uint32 ((bs.drop 8).take 4)).toNat
      let bs := bs.drop 12
      if n > max then
        none
      else if bs.length < n then
        none
      else
        some (⟨kind, num, bs.take n⟩, bs.drop n)

theorem length_encode (f : Frame) : f.encode.length = headerSize + f.payload.length := by
  simp [encode, headerSize]
  omega

theorem drop_encode (f : Frame) : f.encode.drop headerSize = f.payload := by
  have hhead : f.encode = (f.kind :: Bytes.putUint64 f.num ++
      Bytes.putUint32 (UInt32.ofNat f.payload.length)) ++ f.payload := by
    simp [encode]
  rw [hhead, drop_left']
  simp [headerSize]

@[simp]
theorem encodeAll_nil : encodeAll [] = [] := rfl

@[simp]
theorem encodeAll_cons (f : Frame) (fs : List Frame) : encodeAll (f :: fs) = f.encode ++ encodeAll fs := by
  simp [encodeAll]

@[simp]
theorem encodeAll_append (fs gs : List Frame) : encodeAll (fs ++ gs) = encodeAll fs ++ encodeAll gs := by
  simp [encodeAll]

variable {max : Nat} {bs rest : Bytes} {f : Frame}

theorem read_length_lt (h : read max bs = some (f, rest)) : rest.length < bs.length := by
  unfold read at h
  split at h
  . contradiction
  . dsimp at h
    split at h
    . contradiction
    . split at h
      . contradiction
      . split at h
        . contradiction
        . cases h
          simp

theorem encode_append_of_read (h : read max bs = some (f, rest)) : bs = f.encode ++ rest ∧ f.payload.length ≤ max := by
  unfold read at h
  split at h
  . contradiction
  . next kind bs =>
    dsimp only at h
    split at h
    . contradiction
    . next hhead =>
      split at h
      . contradiction
      . next hbound =>
        split at h
        . contradiction
        . next hpayload =>
          cases h
          have hlen : ((bs.drop 12).take (Bytes.uint32 ((bs.drop 8).take 4)).toNat).length =
              (Bytes.uint32 ((bs.drop 8).take 4)).toNat := by
            rw [length_take]
            omega
          refine ⟨?_, by dsimp only; omega⟩
          have hsize : ((bs.drop 8).take 4).length = 4 := by
            simp
            omega
          have hnum : (bs.take 8).length = 8 := by
            simp
            omega
          simp only [encode, hlen]
          rw [UInt32.ofNat_toNat, Bytes.putUint32_uint32 hsize, Bytes.putUint64_uint64 hnum]
          simp only [cons_append, append_assoc, take_append_drop, List.cons.injEq, true_and]
          have hsplit : (bs.drop 8).take 4 ++ bs.drop 12 = bs.drop 8 := by
            have := take_append_drop 4 (bs.drop 8)
            rwa [drop_drop] at this
          rw [hsplit, take_append_drop]

section

variable {max : Nat} (hmax : max < 2 ^ 32)

include hmax

theorem toNat_length {f : Frame} (hf : f.payload.length ≤ max)
    : (UInt32.ofNat f.payload.length).toNat = f.payload.length := by
  simp
  omega

theorem read_encode_append {f : Frame} (hf : f.payload.length ≤ max) (rest : Bytes)
    : read max (f.encode ++ rest) = some (f, rest) := by
  have hlen := toNat_length hmax hf
  have hnum : (Bytes.putUint64 f.num).length = 8 := Bytes.length_putUint64 _
  have hsize : (Bytes.putUint32 (UInt32.ofNat f.payload.length)).length = 4 :=
    Bytes.length_putUint32 _
  simp only [encode, read, cons_append, append_assoc]
  rw [take_left' hnum, drop_left' hnum]
  rw [take_left' hsize]
  have hdrop : List.drop 12 (Bytes.putUint64 f.num ++
      (Bytes.putUint32 (UInt32.ofNat f.payload.length) ++ (f.payload ++ rest)))
        =
      f.payload ++ rest := by
    rw [← append_assoc]
    rw [drop_left' (by simp)]
  rw [hdrop]
  simp only [Bytes.uint64_putUint64, Bytes.uint32_putUint32, hlen]
  rw [if_neg (by simp; omega)]
  rw [if_neg (by omega)]
  rw [if_neg (by simp)]
  simp

theorem read_take_encode {f : Frame} (hf : f.payload.length ≤ max) {k : Nat}
    (hk : k < f.encode.length) : read max (f.encode.take k) = none := by
  rw [length_encode] at hk
  simp only [headerSize] at hk
  have hlen := toNat_length hmax hf
  have hnum : (Bytes.putUint64 f.num).length = 8 := Bytes.length_putUint64 _
  have hsize : (Bytes.putUint32 (UInt32.ofNat f.payload.length)).length = 4 :=
    Bytes.length_putUint32 _
  cases k with
  | zero => rfl
  | succ k =>
    simp only [encode, read, take_succ_cons, append_assoc]
    split
    . rfl
    . next hshort =>
      simp at hshort
      have hk12 : 12 ≤ k := by omega
      -- the whole header survives the cut, so only the payload can be short
      have hhead : List.take k (Bytes.putUint64 f.num ++
          (Bytes.putUint32 (UInt32.ofNat f.payload.length) ++ f.payload))
            =
          Bytes.putUint64 f.num ++
            (Bytes.putUint32 (UInt32.ofNat f.payload.length) ++ f.payload.take (k - 12)) := by
        rw [take_append, take_append]
        rw [take_of_length_le (by omega), take_of_length_le (by omega)]
        rw [hnum, hsize]
        congr 3
      rw [hhead]
      rw [drop_left' hnum, take_left' hsize]
      rw [← append_assoc, drop_left' (by simp)]
      simp only [Bytes.uint32_putUint32, hlen]
      rw [if_neg (by omega)]
      rw [if_pos (by simp; omega)]

end

def readAll (max : Nat) (bs : Bytes) : List Frame := go bs.length bs
where
  -- every record takes a byte, so the length of the log is fuel enough
  go : Nat → Bytes → List Frame
    | 0, _ => []
    | fuel + 1, bs =>
      match read max bs with
      | none => []
      | some (f, rest) => f :: go fuel rest

theorem readAll.go_eq {max fuel fuel' : Nat} (h : bs.length ≤ fuel)
    (h' : bs.length ≤ fuel') : go max fuel bs = go max fuel' bs := by
  induction fuel generalizing bs fuel' with
  | zero =>
    have : bs = [] := by simpa using h
    subst this
    cases fuel' with
    | zero => rfl
    | succ fuel' => rfl
  | succ fuel ih =>
    cases fuel' with
    | zero =>
      have : bs = [] := by simpa using h'
      subst this
      rfl
    | succ fuel' =>
      simp only [go]
      split
      . rfl
      . next f rest hread =>
        have := read_length_lt hread
        have hrest : go max fuel rest = go max fuel' rest := ih (by omega) (by omega)
        rw [hrest]

theorem readAll_of_none (h : read max bs = none) : readAll max bs = [] := by
  unfold readAll
  cases bs with
  | nil => rfl
  | cons b bs => simp [readAll.go, h]

@[simp]
theorem readAll_nil (max : Nat) : readAll max [] = [] := rfl

theorem readAll_of_some (h : read max bs = some (f, rest)) : readAll max bs = f :: readAll max rest := by
  have hlt := read_length_lt h
  unfold readAll
  cases bs with
  | nil => simp at hlt
  | cons b bs =>
    simp only [length_cons, readAll.go, h]
    rw [readAll.go_eq (by simp at hlt; omega) (Nat.le_refl _)]

theorem exists_append_readAll (max : Nat) (bs : Bytes) : ∃ tail, bs = encodeAll (readAll max bs) ++ tail := by
  generalize hn : bs.length = n
  induction n using Nat.strong_induction_on generalizing bs with
  | _ n ih =>
    cases hread : read max bs with
    | none => exact ⟨bs, by simp [readAll_of_none hread]⟩
    | some res =>
      rcases res with ⟨f, rest⟩
      have hlt := read_length_lt hread
      rcases ih _ (by omega) rest rfl with ⟨tail, htail⟩
      refine ⟨tail, ?_⟩
      rw [readAll_of_some hread, encodeAll_cons, append_assoc, ← htail]
      exact (encode_append_of_read hread).1

def Fit (max : Nat) (fs : List Frame) : Prop := ∀ f ∈ fs, f.payload.length ≤ max

theorem fit_readAll (max : Nat) (bs : Bytes) : Fit max (readAll max bs) := by
  generalize hn : bs.length = n
  induction n using Nat.strong_induction_on generalizing bs with
  | _ n ih =>
    cases hread : read max bs with
    | none => simp [readAll_of_none hread, Fit]
    | some res =>
      rcases res with ⟨f, rest⟩
      have hlt := read_length_lt hread
      rw [readAll_of_some hread]
      intro g hg
      rw [mem_cons] at hg
      cases hg with
      | inl hg => rw [hg]; exact (encode_append_of_read hread).2
      | inr hg => exact ih _ (by omega) rest rfl g hg

theorem Fit.append {fs gs : List Frame} (hf : Fit max fs) (hg : Fit max gs) : Fit max (fs ++ gs) := by
  intro f h
  rw [mem_append] at h
  exact h.elim (hf f) (hg f)

theorem Fit.take {fs : List Frame} (hf : Fit max fs) (k : Nat) : Fit max (fs.take k) :=
  fun f h => hf f (mem_of_mem_take h)

section

variable {max : Nat} (hmax : max < 2 ^ 32)

include hmax

theorem readAll_encodeAll_append {fs : List Frame} (hf : Fit max fs) (rest : Bytes)
    : readAll max (encodeAll fs ++ rest) = fs ++ readAll max rest := by
  induction fs with
  | nil => simp
  | cons f fs ih =>
    rw [encodeAll_cons, append_assoc]
    rw [readAll_of_some (read_encode_append hmax (hf f (by simp)) _)]
    rw [ih (fun g hg => hf g (by simp [hg]))]
    rfl

theorem readAll_encodeAll {fs : List Frame} (hf : Fit max fs) : readAll max (encodeAll fs) = fs := by
  have := readAll_encodeAll_append hmax hf []
  rwa [append_nil, readAll_nil, append_nil] at this

theorem readAll_take_encodeAll {fs : List Frame} (hf : Fit max fs) (n : Nat)
    : ∃ k,
        readAll max ((encodeAll fs).take n) = fs.take k ∧
        (encodeAll (fs.take k)).length ≤ n ∧
        (k < fs.length → n < (encodeAll (fs.take (k + 1))).length) := by
  induction fs generalizing n with
  | nil => exact ⟨0, by simp, by simp, by simp⟩
  | cons f fs ih =>
    have hfit := hf f (by simp)
    rw [encodeAll_cons]
    by_cases hcut : n < f.encode.length
    . refine ⟨0, ?_, by simp, by simpa using hcut⟩
      rw [take_append_of_le_length (Nat.le_of_lt hcut)]
      rw [readAll_of_none (read_take_encode hmax hfit hcut)]
      rfl
    . rcases ih (fun g hg => hf g (by simp [hg])) (n - f.encode.length) with ⟨k, hread, hle, hlt⟩
      refine ⟨k + 1, ?_, ?_, ?_⟩
      . rw [take_append, take_of_length_le (by omega)]
        rw [readAll_of_some (read_encode_append hmax hfit _)]
        rw [hread]
        rfl
      . simp only [take_succ_cons, encodeAll_cons, length_append]
        omega
      . intro hk
        have := hlt (by simpa using hk)
        simp only [take_succ_cons, encodeAll_cons, length_append]
        omega

end

end Frame
