import EpochDB.Lib.Bytes

/-!
Byte slabs: encoded slots one after another, each named by the offset of its first byte. Appending moves no
slot, and neither does rewriting a part of one with as many bytes.
-/

namespace ByteSlab

open List

def splice (s : Bytes) (off : Nat) (bs : Bytes) : Bytes := s.take off ++ bs ++ s.drop (off + bs.length)

theorem splice_append {a b c b' : Bytes} (hlen : b'.length = b.length)
    : splice (a ++ (b ++ c)) a.length b' = a ++ (b' ++ c) := by
  unfold splice
  rw [take_left, append_assoc, hlen, ← drop_drop, drop_left, drop_left]

theorem splice_splice {s : Bytes} {off : Nat} (hoff : off ≤ s.length) (a b : Bytes)
    : splice (splice s off a) (off + a.length) b = splice s off (a ++ b) := by
  have hlen : (s.take off ++ a).length = off + a.length := by
    rw [length_append, length_take]
    omega
  unfold splice
  rw [take_left' hlen, ← drop_drop, drop_left' hlen, drop_drop, length_append, append_assoc (s.take off), Nat.add_assoc]

variable {σ : Type} (encode : σ → Bytes)

def bytes (slots : List σ) : Bytes := slots.flatMap encode

def offset (slots : List σ) (i : Nat) : Nat := (bytes encode (slots.take i)).length

variable {encode}

@[simp]
theorem bytes_nil : bytes encode [] = [] := rfl

@[simp]
theorem bytes_append (slots slots' : List σ) : bytes encode (slots ++ slots') = bytes encode slots ++ bytes encode slots' := by
  simp [bytes]

@[simp]
theorem bytes_singleton (s : σ) : bytes encode [s] = encode s := by
  simp [bytes]

theorem bytes_cons (s : σ) (slots : List σ) : bytes encode (s :: slots) = encode s ++ bytes encode slots := rfl

variable {slots : List σ} {i : Nat} {s : σ}

theorem offset_length (slots : List σ) : offset encode slots slots.length = (bytes encode slots).length := by
  rw [offset, take_length]

theorem offset_append (hi : i ≤ slots.length) (slots' : List σ)
    : offset encode (slots ++ slots') i = offset encode slots i := by
  rw [offset, take_append_of_le_length hi, offset]

theorem offset_succ (h : slots[i]? = some s) : offset encode slots (i + 1) = offset encode slots i + (encode s).length := by
  rcases List.getElem?_eq_some_iff.mp h with ⟨hlt, hs⟩
  rw [offset, take_add_one, h, Option.toList_some, bytes_append, bytes_singleton, length_append, offset]

theorem offset_mono {j : Nat} (h : i ≤ j) : offset encode slots i ≤ offset encode slots j := by
  have htake : slots.take i <+: slots.take j := take_prefix_take_left h
  rcases htake with ⟨rest, hrest⟩
  rw [offset, offset, ← hrest, bytes_append, length_append]
  omega

theorem offset_add_le (encode : σ → Bytes) {j : Nat} (h : slots[i]? = some s) (hij : i < j)
    : offset encode slots i + (encode s).length ≤ offset encode slots j := by
  rw [← offset_succ h]
  exact offset_mono hij

theorem offset_add_le_length (encode : σ → Bytes) (h : slots[i]? = some s)
    : offset encode slots i + (encode s).length ≤ (bytes encode slots).length := by
  rcases List.getElem?_eq_some_iff.mp h with ⟨hlt, -⟩
  rw [← offset_length]
  exact offset_add_le encode h hlt

theorem offset_inj (hpos : ∀ s : σ, encode s ≠ []) {j : Nat} {s' : σ} (hi : slots[i]? = some s) (hj : slots[j]? = some s')
    (h : offset encode slots i = offset encode slots j) : i = j := by
  have hs := length_pos_iff.mpr (hpos s)
  have hs' := length_pos_iff.mpr (hpos s')
  rcases lt_trichotomy i j with hlt | heq | hgt
  . have := offset_add_le encode hi hlt
    omega
  . exact heq
  . have := offset_add_le encode hj hgt
    omega

theorem exists_slot (slots : List σ) {p : Nat} (hp : p < (bytes encode slots).length)
    : ∃ i s, slots[i]? = some s ∧ offset encode slots i ≤ p ∧ p < offset encode slots i + (encode s).length := by
  induction slots using List.reverseRecOn with
  | nil => simp at hp
  | append_singleton slots s ih =>
    rw [bytes_append, bytes_singleton, length_append] at hp
    by_cases hlt : p < (bytes encode slots).length
    . rcases ih hlt with ⟨i, s', hs', hle, hlt⟩
      rcases List.getElem?_eq_some_iff.mp hs' with ⟨hi, -⟩
      refine ⟨i, s', ?_, ?_⟩
      . rw [getElem?_append_left hi, hs']
      . rw [offset_append (by omega)]
        exact ⟨hle, hlt⟩
    . refine ⟨slots.length, s, getElem?_concat_length, ?_⟩
      rw [offset_append (le_refl _), offset_length]
      omega

theorem bytes_eq (h : slots[i]? = some s)
    : bytes encode slots = bytes encode (slots.take i) ++ (encode s ++ bytes encode (slots.drop (i + 1))) := by
  rcases List.getElem?_eq_some_iff.mp h with ⟨hlt, hs⟩
  rw [← bytes_cons, ← bytes_append, ← hs, ← drop_eq_getElem_cons hlt, take_append_drop]

theorem drop_offset (h : slots[i]? = some s)
    : (bytes encode slots).drop (offset encode slots i) = encode s ++ bytes encode (slots.drop (i + 1)) := by
  rw [bytes_eq h, offset, drop_left]

theorem offset_set {s' : σ} (h : slots[i]? = some s) (hlen : (encode s').length = (encode s).length) (j : Nat)
    : offset encode (slots.set i s') j = offset encode slots j := by
  have hlength : ∀ {slots : List σ} {i : Nat}, slots[i]? = some s →
      (bytes encode (slots.set i s')).length = (bytes encode slots).length := by
    intro slots i h
    rcases List.getElem?_eq_some_iff.mp h with ⟨hlt, -⟩
    rw [set_eq_take_append_cons_drop, if_pos hlt, bytes_append, bytes_cons, bytes_eq h]
    simp only [length_append, hlen]
  rw [offset, offset]
  by_cases hij : i < j
  . rw [take_set]
    apply hlength
    rw [getElem?_take_of_lt hij, h]
  . rw [take_set_of_le (by omega)]

theorem splice_offset {s' : σ} {a b b' c : Bytes} (h : slots[i]? = some s) (hs : encode s = a ++ (b ++ c))
    (hs' : encode s' = a ++ (b' ++ c)) (hlen : b'.length = b.length)
    : splice (bytes encode slots) (offset encode slots i + a.length) b' = bytes encode (slots.set i s') := by
  rcases List.getElem?_eq_some_iff.mp h with ⟨hlt, -⟩
  have hset : bytes encode (slots.set i s') =
      (bytes encode (slots.take i) ++ a) ++ (b' ++ (c ++ bytes encode (slots.drop (i + 1)))) := by
    rw [set_eq_take_append_cons_drop, if_pos hlt, bytes_append, bytes_cons, hs']
    simp only [append_assoc]
  have hbytes : bytes encode slots =
      (bytes encode (slots.take i) ++ a) ++ (b ++ (c ++ bytes encode (slots.drop (i + 1)))) := by
    rw [bytes_eq h, hs]
    simp only [append_assoc]
  rw [hset, hbytes, offset, ← length_append]
  exact splice_append hlen

end ByteSlab
