import EpochDB.Store.Sealed.Impl
import EpochDB.Store.Table.Took

/-!
The keys of the sections: which of them can be equal or go on from each other, and how they are ordered.
-/

namespace EpochDB.Store

open List

def PrefixFree (S : Bytes → Prop) : Prop := ∀ p q, S p → S q → p <+: q → p = q

theorem PrefixFree.eq_of_isPrefix_append {S : Bytes → Prop} (h : PrefixFree S) {p q x : Bytes} (hp : S p) (hq : S q)
    (hpre : p <+: q ++ x) : p = q := by
  rcases Nat.le_total p.length q.length with hle | hle
  . exact h p q hp hq (prefix_of_prefix_length_le hpre (prefix_append q x) hle)
  . exact (h q p hq hp (prefix_of_prefix_length_le (prefix_append q x) hpre hle)).symm

theorem suffixed_inj {p q : Bytes} {a b : UInt64} : suffixed p a = suffixed q b ↔ p = q ∧ a = b := by
  unfold suffixed
  constructor
  . intro h
    rcases append_inj' h (by simp) with ⟨hpq, hab⟩
    exact ⟨hpq, Bytes.putUint64_inj.mp hab⟩
  . rintro ⟨rfl, rfl⟩
    rfl

@[simp]
theorem length_suffixed (p : Bytes) (a : UInt64) : (suffixed p a).length = p.length + 8 := by
  simp [suffixed]

@[simp]
theorem take_suffixed (p : Bytes) (a : UInt64) : (suffixed p a).take ((suffixed p a).length - 8) = p := by
  rw [length_suffixed, Nat.add_sub_cancel]
  exact take_left' rfl

@[simp]
theorem txNumOf_suffixed (p : Bytes) (a : UInt64) : txNumOf (suffixed p a) = a := by
  unfold txNumOf
  rw [length_suffixed, Nat.add_sub_cancel, suffixed, drop_left' rfl, Bytes.uint64_putUint64]

theorem eq_suffixed {p k : Bytes} (hlen : k.length = p.length + 8) (htake : k.take p.length = p)
    : k = suffixed p (txNumOf k) := by
  have hdrop : (k.drop p.length).length = 8 := by
    rw [length_drop]
    omega
  unfold suffixed txNumOf
  rw [hlen, Nat.add_sub_cancel, Bytes.putUint64_uint64 hdrop]
  conv => lhs; rw [← take_append_drop p.length k, htake]

theorem PrefixFree.suffixed_lt_iff {S : Bytes → Prop} (h : PrefixFree S) {p q : Bytes} (hp : S p) (hq : S q)
    (a b : UInt64) : suffixed p a < suffixed q b ↔ p < q ∨ p = q ∧ a < b := by
  unfold suffixed
  by_cases heq : p = q
  . subst heq
    rw [Bytes.append_lt_append_iff rfl, Bytes.putUint64_lt_iff]
  . simp only [heq, false_and, or_false]
    have hlt : ∀ {p q : Bytes} {x y : Bytes}, S p → S q → p < q → p ≠ q → p ++ x < q ++ y := by
      intro p q x y hp hq hlt hne
      exact Bytes.append_lt_append_of_lt hlt (fun hpre => hne (h p q hp hq hpre)) x y
    constructor
    . intro hpq
      rcases lt_trichotomy p q with hlt' | heq' | hgt
      . exact hlt'
      . exact absurd heq' heq
      . exact absurd hpq (not_lt.mpr (le_of_lt (hlt hq hp hgt (Ne.symm heq))))
    . intro hpq
      exact hlt hp hq hpq heq

def StateKey (p : Bytes) : Prop := ∃ r : StateRow, p = stateKeyPrefix r

def StateKind.byte : StateKind → UInt8
  | .account => 'a'.toUInt8
  | .code => 'c'.toUInt8
  | .slot => 's'.toUInt8

theorem stateKeyPrefix_eq (r : StateRow)
    : stateKeyPrefix r = (prefixState ++ r.addr.val ++ ['/'.toUInt8]) ++
        r.kind.byte :: '/'.toUInt8 :: (if r.kind = .slot then r.slot.val ++ ['/'.toUInt8] else []) := by
  unfold stateKeyPrefix
  cases r.kind <;> simp [accountPrefix, codeRefPrefix, slotPrefix, StateKind.byte, Bytes.ofChars]

theorem length_stateKeyPrefix (r : StateRow)
    : (stateKeyPrefix r).length = if (stateKeyPrefix r)[27]? = some 's'.toUInt8 then 62 else 29 := by
  have hhead : (prefixState ++ r.addr.val ++ ['/'.toUInt8]).length = 27 := by
    simp [prefixState, r.addr.property]
  have hbyte : (stateKeyPrefix r)[27]? = some r.kind.byte := by
    rw [stateKeyPrefix_eq, getElem?_append_right (by omega), hhead]
    rfl
  rw [hbyte, stateKeyPrefix_eq, length_append, hhead]
  cases r.kind with
  | account => rfl
  | code => rfl
  | slot => simp [StateKind.byte, r.slot.property]

theorem prefixFree_stateKey : PrefixFree StateKey := by
  rintro p q ⟨r, rfl⟩ ⟨r', rfl⟩ hpre
  have hle : 29 ≤ (stateKeyPrefix r).length := by
    rw [length_stateKeyPrefix]
    split <;> omega
  apply hpre.eq_of_length
  rw [length_stateKeyPrefix r, length_stateKeyPrefix r']
  rcases hpre with ⟨x, hx⟩
  rw [← hx, getElem?_append_left (by omega)]

theorem isPrefix_state {p : Bytes} (h : StateKey p) : prefixState <+: p := by
  rcases h with ⟨r, rfl⟩
  rw [stateKeyPrefix_eq, append_assoc, append_assoc]
  exact prefix_append _ _

def groupLen (tag : Bytes) : Nat :=
  if tag = prefixAddr.take 2 then
    26
  else if tag = prefixELog.take 2 then
    59
  else if tag = prefixTVal.take 2 then
    71
  else
    37

variable {k g : Bytes}

theorem length_of_isGroup (h : IsGroup g) : g.length = groupLen (g.take 2) := by
  cases h with
  | addr a =>
    rw [length_addrPrefix]
    rfl
  | eLog emitter topic0 =>
    rw [length_eLogGroup]
    rfl
  | tVal value topic0 =>
    rw [length_tValGroup]
    rfl
  | sig topic0 =>
    rw [length_sigGroup]
    rfl

theorem groupLen_pos (tag : Bytes) : 26 ≤ groupLen tag := by
  unfold groupLen
  split
  . omega
  . split
    . omega
    . split <;> omega

theorem prefixFree_isGroup : PrefixFree IsGroup := by
  intro p q hp hq hpre
  have hlen := length_of_isGroup hp
  have hpos := groupLen_pos (p.take 2)
  apply hpre.eq_of_length
  rw [hlen, length_of_isGroup hq]
  rcases hpre with ⟨x, rfl⟩
  rw [take_append_of_le_length (by omega)]

def postingFams : List Bytes := [prefixAddr, prefixELog, prefixTVal, prefixSig]

def isPostingKey (k : Bytes) : Bool := postingFams.any (fun fam => fam.isPrefixOf k)

theorem isPostingKey_append (h : IsGroup g) (x : Bytes) : isPostingKey (g ++ x) = true := by
  cases h <;> rfl

theorem isPostingKey_of_numKey (h : NumKey k) : isPostingKey k = false := by
  cases h <;> rfl

theorem isPostingKey_of_setKey (h : SetKey k) : isPostingKey k = false := by
  cases h
  rfl

theorem isPrefixOf_set_of_setKey (h : SetKey k) : prefixSet.isPrefixOf k = true := by
  cases h
  rfl

theorem isPrefixOf_set_of_numKey (h : NumKey k) : prefixSet.isPrefixOf k = false := by
  cases h <;> rfl

theorem isPrefixOf_set_of_isGroup (h : IsGroup g) (x : Bytes) : prefixSet.isPrefixOf (g ++ x) = false := by
  cases h <;> rfl

end EpochDB.Store
