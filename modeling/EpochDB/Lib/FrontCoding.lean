import Mathlib
import EpochDB.Lib.SortedMap

/-!
Front coding of rows in the order of their keys: an entry has the number of leading letters its key
shares with the key before it, and the rest. The scan for a key never builds the keys it passes.
-/

namespace FrontCoding

open List

variable {α β : Type} [LinearOrder α]

def common : List α → List α → Nat
  | a :: as, b :: bs => if a = b then common as bs + 1 else 0
  | _, _ => 0

structure Entry (α β : Type) where
  shared : Nat
  suffix : List α
  value : β
  deriving DecidableEq, Repr

def encode (prev : List α) : List (List α × β) → List (Entry α β)
  | [] => []
  | r :: rows =>
    let shared := common prev r.1
    ⟨shared, r.1.drop shared, r.2⟩ :: encode r.1 rows

def decode (prev : List α) : List (Entry α β) → List (List α × β)
  | [] => []
  | e :: es =>
    let key := prev.take e.shared ++ e.suffix
    (key, e.value) :: decode key es

def behind (a b : List α) (j : Nat) : Bool :=
  match a[j]?, b[j]? with
  | some x, some y => y < x
  | some _, none => true
  | none, _ => false

def scan (key : List α) (eq : Nat) : List (Entry α β) → Option β
  | [] => none
  | e :: es =>
    if e.shared < eq then
      none
    else if e.shared = eq then
      let rest := key.drop eq
      let j := common e.suffix rest
      if behind e.suffix rest j then
        none
      else if j = e.suffix.length ∧ e.suffix.length = rest.length then
        some e.value
      else
        scan key (eq + j) es
    else
      scan key eq es

theorem common_nil (b : List α) : common [] b = 0 := by
  unfold common
  rfl

theorem common_le_left (a b : List α) : common a b ≤ a.length := by
  induction a generalizing b with
  | nil => rw [common_nil]; exact Nat.zero_le _
  | cons x a ih =>
    cases b with
    | nil => exact Nat.zero_le _
    | cons y b =>
      unfold common
      split
      . have := ih b
        simp only [length_cons]
        omega
      . exact Nat.zero_le _

theorem take_common (a b : List α) : a.take (common a b) = b.take (common a b) := by
  induction a generalizing b with
  | nil => simp [common_nil]
  | cons x a ih =>
    cases b with
    | nil => simp [common]
    | cons y b =>
      unfold common
      split
      . next heq => rw [take_succ_cons, take_succ_cons, heq, ih]
      . rfl

theorem common_le_right (a b : List α) : common a b ≤ b.length := by
  have htake := congrArg List.length (take_common a b)
  have hle := common_le_left a b
  rw [length_take, length_take, Nat.min_eq_left hle] at htake
  omega

theorem decode_encode (prev : List α) (rows : List (List α × β)) : decode prev (encode prev rows) = rows := by
  induction rows generalizing prev with
  | nil => rfl
  | cons r rows ih =>
    have hkey : prev.take (common prev r.1) ++ r.1.drop (common prev r.1) = r.1 := by
      rw [take_common, take_append_drop]
    simp only [encode, decode, hkey, ih]

theorem behind_common (a b : List α) : behind a b (common a b) = true ↔ b < a := by
  induction a generalizing b with
  | nil => simp [behind, common_nil]
  | cons x a ih =>
    cases b with
    | nil => simp [behind, common]
    | cons y b =>
      unfold common
      split
      . next heq =>
        have := ih b
        rw [cons_lt_cons_iff, ← this]
        simp [behind, heq]
      . next hne =>
        rw [cons_lt_cons_iff]
        simp [behind, Ne.symm hne]

theorem eq_of_common {a b : List α} : (common a b = a.length ∧ a.length = b.length) ↔ a = b := by
  constructor
  . rintro ⟨hcommon, hlen⟩
    have htake := take_common a b
    rwa [hcommon, take_length, hlen, take_length] at htake
  . rintro rfl
    refine ⟨?_, rfl⟩
    induction a with
    | nil => rfl
    | cons x a ih => simp [common, ih]

theorem lt_of_common_lt {p key k : List α} (hk : p < k) (h : common p k < common p key) : key < k := by
  induction p generalizing key k with
  | nil => simp [common_nil] at h
  | cons x p ih =>
    cases key with
    | nil => simp [common] at h
    | cons y key =>
      cases k with
      | nil => exact absurd hk (not_lt_nil _)
      | cons z k =>
        unfold common at h
        rw [cons_lt_cons_iff] at hk ⊢
        split at h
        . next hxz =>
          split at h
          . next hxy =>
            right
            refine ⟨hxy.symm.trans hxz, ih ?_ (by omega)⟩
            rcases hk with hlt | hk
            . exact absurd hlt (by simp [hxz])
            . exact hk.2
          . omega
        . next hxz =>
          split at h
          . next hxy =>
            left
            rcases hk with hlt | hk
            . rwa [← hxy]
            . exact absurd hk.1 hxz
          . omega

theorem lt_of_lt_common {p key k : List α} (hp : p < key) (h : common p key < common p k)
    : k < key ∧ common k key = common p key := by
  induction p generalizing key k with
  | nil => simp [common_nil] at h
  | cons x p ih =>
    cases key with
    | nil => exact absurd hp (not_lt_nil _)
    | cons y key =>
      cases k with
      | nil => simp [common] at h
      | cons z k =>
        rw [cons_lt_cons_iff] at hp ⊢
        unfold common at h ⊢
        split at h
        . next hxy =>
          split at h
          . next hxz =>
            have hp : p < key := by
              rcases hp with hlt | hp
              . exact absurd hlt (by simp [hxy])
              . exact hp.2
            rcases ih (k := k) hp (by omega) with ⟨hlt, hcommon⟩
            have hzy : z = y := hxz.symm.trans hxy
            simp [hzy, hxy, hlt, hcommon]
          . omega
        . next hxy =>
          split at h
          . next hxz =>
            have hlt : x < y := by
              rcases hp with hlt | hp
              . exact hlt
              . exact absurd hp.1 hxy
            rw [← hxz]
            simp [hlt, hxy]
          . omega

theorem common_of_take_eq {a b : List α} {n : Nat} (hn : n ≤ a.length) (h : a.take n = b.take n)
    : common a b = n + common (a.drop n) (b.drop n) := by
  induction n generalizing a b with
  | zero => simp
  | succ n ih =>
    cases a with
    | nil => simp at hn
    | cons x a =>
      cases b with
      | nil => simp at h
      | cons y b =>
        simp only [take_succ_cons, List.cons.injEq] at h
        have := ih (by simpa using hn) h.2
        simp only [common, h.1, if_true, drop_succ_cons, this]
        omega

theorem lt_iff_of_take_eq {a b : List α} {n : Nat} (hn : n ≤ a.length) (h : a.take n = b.take n)
    : a < b ↔ a.drop n < b.drop n := by
  induction n generalizing a b with
  | zero => simp
  | succ n ih =>
    cases a with
    | nil => simp at hn
    | cons x a =>
      cases b with
      | nil => simp at h
      | cons y b =>
        simp only [take_succ_cons, List.cons.injEq] at h
        rw [cons_lt_cons_iff, drop_succ_cons, drop_succ_cons, ← ih (by simpa using hn) h.2]
        simp [h.1]

theorem scan_encode {prev key : List α} {rows : List (List α × β)} (hprev : prev = [] ∨ prev < key)
    (hrows : SortedMap.Ordered rows) (hlt : ∀ r ∈ rows, prev < r.1)
    : scan key (common prev key) (encode prev rows) = SortedMap.find rows key := by
  induction rows generalizing prev with
  | nil => rfl
  | cons r rows ih =>
    have hr : prev < r.1 := hlt r (by simp)
    rw [SortedMap.Ordered, pairwise_cons] at hrows
    have hnone : key < r.1 → SortedMap.find (r :: rows) key = none := by
      intro hkey
      apply SortedMap.find_eq_none_of_lt
      intro s hs
      rcases mem_cons.mp hs with rfl | hs
      . exact hkey
      . exact lt_trans hkey (hrows.1 s hs)
    have hskip : r.1 < key → scan key (common r.1 key) (encode r.1 rows) = SortedMap.find (r :: rows) key := by
      intro hkey
      rw [SortedMap.find_cons, if_neg (ne_of_lt hkey)]
      exact ih (.inr hkey) hrows.2 hrows.1
    simp only [encode, scan]
    split
    . next hless => rw [hnone (lt_of_common_lt hr hless)]
    . next hge =>
      split
      . next heq =>
        -- the entry starts as the wanted key does, up to where it is stored
        have htake : r.1.take (common prev r.1) = key.take (common prev r.1) := by
          rw [← take_common, heq, take_common]
        have hlen : common prev r.1 ≤ r.1.length := common_le_right prev r.1
        rw [← heq]
        split
        . next hbehind =>
          rw [behind_common] at hbehind
          rw [hnone]
          rw [lt_iff_of_take_eq ?_ htake.symm]
          . exact hbehind
          . have := congrArg List.length htake
            simp only [length_take] at this
            omega
        . next hbehind =>
          rw [behind_common, not_lt] at hbehind
          split
          . next hsame =>
            have hdrop := eq_of_common.mp hsame
            have hkey : r.1 = key := by
              rw [← take_append_drop (common prev r.1) r.1, htake, hdrop, take_append_drop]
            rw [SortedMap.find_cons, if_pos hkey]
          . next hdiff =>
            rw [eq_of_common] at hdiff
            rw [← common_of_take_eq hlen htake]
            apply hskip
            rw [lt_iff_of_take_eq hlen htake]
            exact lt_of_le_of_ne hbehind hdiff
      . next hne =>
        have hmore : common prev key < common prev r.1 := by omega
        rcases hprev with rfl | hprev
        . simp [common_nil] at hmore
        . rcases lt_of_lt_common hprev hmore with ⟨hkey, hcommon⟩
          rw [← hcommon]
          exact hskip hkey

end FrontCoding
