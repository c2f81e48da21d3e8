import EpochDB.Lib.Bytes

/-!
The host's ring of inner blocks (`cmd/epochdb-host/main.go`): containers come from the fetch queue in order, and
every block is handed on with the P-chain height of its context.
-/

namespace EpochDB.Host

structure SignedBlock where
  timestamp : Int
  pChainHeight : UInt64
  epochPChainHeight : UInt64
  block : Bytes
  deriving DecidableEq

inductive ProposerBlock where
  | signed (b : SignedBlock)
  | option (block : Bytes)
  deriving DecidableEq

/--
The decoders of other repositories: `ParseWithoutVerification`, `rlp.Split`, and the transaction count and gas of a block.
-/
structure Codec where
  parseWithoutVerification : Bytes → Option ProposerBlock
  split : Bytes → Except String (Bytes × Bytes)
  decodeBlock : Bytes → Option (UInt64 × UInt64)

structure Upgrades where
  isGraniteActivated : Int → Bool
  isEtnaActivated : Int → Bool

structure Item where
  h : Nat
  inner : Bytes
  pch : UInt64
  txs : UInt64
  gas : UInt64
  deriving DecidableEq

structure Pulled where
  parentPCH : UInt64
  ring : List Item
  pulledTxs : UInt64
  err : Option String

variable (c : Codec) (upgrades : Upgrades)

def unwrap (raw : Bytes) (parentPCH : UInt64) : Bytes × UInt64 × UInt64 :=
  match c.parseWithoutVerification raw with
  | none =>
    -- before the proposervm: the block itself, possibly with trailing bytes
    match c.split raw with
    | .ok (_, rest) => (raw.take (raw.length - rest.length), 0, parentPCH)
    | .error _ => (raw, 0, parentPCH)
  | some (.option block) => (block, parentPCH, parentPCH)
  | some (.signed b) =>
    let pch :=
      if upgrades.isGraniteActivated b.timestamp then
        b.epochPChainHeight
      else if upgrades.isEtnaActivated b.timestamp then
        b.pChainHeight
      else
        parentPCH
    (b.block, pch, b.pChainHeight)

def pull (getByHeight : Nat → Except String Bytes) (start : Nat) : Nat → Pulled
  | 0 => ⟨0, [], 0, none⟩
  | n + 1 =>
    let p := pull getByHeight start n
    match p.err with
    | some _ => p
    | none =>
      match getByHeight (start + n) with
      | .error e => { p with err := some e }
      | .ok raw =>
        let u := unwrap c upgrades raw p.parentPCH
        let counts := (c.decodeBlock u.1).getD (0, 0)
        ⟨u.2.2, p.ring ++ [⟨start + n, u.1, u.2.1, counts.1, counts.2⟩], p.pulledTxs + counts.1, none⟩

def headerPCH (raw : Bytes) : Option UInt64 :=
  match c.parseWithoutVerification raw with
  | some (.signed b) => some b.pChainHeight
  | _ => none

def inherits (raw : Bytes) : Bool :=
  match c.parseWithoutVerification raw with
  | none => false
  | some (.option _) => true
  | some (.signed b) => !upgrades.isGraniteActivated b.timestamp && !upgrades.isEtnaActivated b.timestamp

variable (chain : Nat → Bytes)

def lastHeader (start : Nat) : Nat → UInt64
  | 0 => 0
  | n + 1 => (headerPCH c (chain (start + n))).getD (lastHeader start n)

/--
The P-chain height of the block at `h` does not depend on which of the two heights the host resumed at: the block
takes none from before, or a header lies between the later start and `h`, or the last header before the later start
says 0.
-/
def Settled (f₁ f₂ h : Nat) : Prop :=
  inherits c upgrades (chain h) = false ∨
    (∃ k, max f₁ f₂ ≤ k ∧ k < h ∧ (headerPCH c (chain k)).isSome) ∨
    ∀ k p, min f₁ f₂ ≤ k → k < max f₁ f₂ → headerPCH c (chain k) = some p →
      (∀ j, k < j → j < max f₁ f₂ → headerPCH c (chain j) = none) → p = 0

variable {c upgrades chain}

theorem parent_unwrap (raw : Bytes) (parentPCH : UInt64)
    : (unwrap c upgrades raw parentPCH).2.2 = (headerPCH c raw).getD parentPCH := by
  unfold unwrap headerPCH
  cases c.parseWithoutVerification raw with
  | none => cases c.split raw <;> rfl
  | some pb => cases pb <;> rfl

theorem pch_unwrap_of_inherits {raw : Bytes} (h : inherits c upgrades raw = true) (parentPCH : UInt64)
    : (unwrap c upgrades raw parentPCH).2.1 = parentPCH := by
  unfold inherits at h
  unfold unwrap
  cases hparse : c.parseWithoutVerification raw with
  | none => simp [hparse] at h
  | some pb =>
    cases pb with
    | option block => rfl
    | signed b =>
      simp only [hparse, Bool.and_eq_true, Bool.not_eq_true'] at h
      simp [h.1, h.2]

theorem pch_unwrap_of_own {raw : Bytes} (h : inherits c upgrades raw = false) (parentPCH parentPCH' : UInt64)
    : (unwrap c upgrades raw parentPCH).2.1 = (unwrap c upgrades raw parentPCH').2.1 := by
  unfold inherits at h
  unfold unwrap
  cases hparse : c.parseWithoutVerification raw with
  | none => cases c.split raw <;> rfl
  | some pb =>
    cases pb with
    | option block => simp [hparse] at h
    | signed b =>
      dsimp only
      by_cases hgranite : upgrades.isGraniteActivated b.timestamp = true
      . simp [hgranite]
      . by_cases hetna : upgrades.isEtnaActivated b.timestamp = true
        . simp [hgranite, hetna]
        . simp [hparse, hgranite, hetna] at h

theorem pull_spec (start n : Nat)
    : (pull c upgrades (fun h => .ok (chain h)) start n).err = none ∧
        (pull c upgrades (fun h => .ok (chain h)) start n).parentPCH = lastHeader c chain start n := by
  induction n with
  | zero => exact ⟨rfl, rfl⟩
  | succ n ih =>
    unfold pull
    dsimp only
    rw [ih.1]
    refine ⟨rfl, ?_⟩
    dsimp only
    rw [parent_unwrap, ih.2]
    rfl

theorem pch_of_mem_ring {start n : Nat} {it : Item} (h : it ∈ (pull c upgrades (fun h => .ok (chain h)) start n).ring)
    : start ≤ it.h ∧ it.pch = (unwrap c upgrades (chain it.h) (lastHeader c chain start (it.h - start))).2.1 := by
  induction n with
  | zero => cases h
  | succ n ih =>
    unfold pull at h
    dsimp only at h
    rw [(pull_spec start n).1] at h
    dsimp only at h
    rw [(pull_spec start n).2] at h
    rcases List.mem_append.mp h with h | h
    . exact ih h
    . rw [List.mem_singleton] at h
      rw [h]
      dsimp only
      rw [Nat.add_sub_cancel_left]
      exact ⟨by omega, rfl⟩

theorem lastHeader_of_none {start a b : Nat} (h : ∀ k, start + a ≤ k → k < start + a + b → headerPCH c (chain k) = none)
    : lastHeader c chain start (a + b) = lastHeader c chain start a := by
  induction b with
  | zero => rfl
  | succ b ih =>
    rw [← Nat.add_assoc, lastHeader, h (start + (a + b)) (by omega) (by omega), Option.getD_none]
    exact ih (fun k hlo hhi => h k hlo (by omega))

theorem lastHeader_of_some {start a b k : Nat} (hlo : start + a ≤ k) (hhi : k < start + a + b)
    (hk : (headerPCH c (chain k)).isSome)
    : lastHeader c chain start (a + b) = lastHeader c chain (start + a) b := by
  induction b with
  | zero => omega
  | succ b ih =>
    have hadd : start + (a + b) = start + a + b := by omega
    rw [← Nat.add_assoc, lastHeader, lastHeader, hadd]
    cases htop : headerPCH c (chain (start + a + b)) with
    | some p => rfl
    | none =>
      have hne : k ≠ start + a + b := by
        rintro rfl
        rw [htop] at hk
        cases hk
      exact ih (by omega)

theorem lastHeader_eq_zero_iff (start n : Nat)
    : lastHeader c chain start n = 0 ↔ ∀ k p, start ≤ k → k < start + n → headerPCH c (chain k) = some p →
        (∀ j, k < j → j < start + n → headerPCH c (chain j) = none) → p = 0 := by
  induction n with
  | zero => exact ⟨fun _ k p hlo hhi => by omega, fun _ => rfl⟩
  | succ n ih =>
    rw [lastHeader]
    cases htop : headerPCH c (chain (start + n)) with
    | some p =>
      rw [Option.getD_some]
      constructor
      . rintro rfl k p hlo hhi hk hlast
        rcases Nat.lt_or_ge k (start + n) with hlt | hge
        . rw [hlast (start + n) hlt (by omega)] at htop
          cases htop
        . have hk' : k = start + n := by omega
          rw [hk', htop, Option.some.injEq] at hk
          exact hk.symm
      . intro h
        exact h (start + n) p (by omega) (by omega) htop (fun j hlo hhi => by omega)
    | none =>
      rw [Option.getD_none, ih]
      constructor
      . intro h k p hlo hhi hk hlast
        have hne : k ≠ start + n := by
          rintro rfl
          rw [htop] at hk
          cases hk
        exact h k p hlo (by omega) hk (fun j hj hj' => hlast j hj (by omega))
      . intro h k p hlo hhi hk hlast
        refine h k p hlo (by omega) hk ?_
        intro j hj hj'
        rcases Nat.lt_or_ge j (start + n) with hlt | hge
        . exact hlast j hj hlt
        . have hj'' : j = start + n := by omega
          rw [hj'', htop]

theorem lastHeader_eq_iff {f₁ f₂ h : Nat} (hle : f₁ ≤ f₂) (hh : f₂ ≤ h)
    : lastHeader c chain f₁ (h - f₁) = lastHeader c chain f₂ (h - f₂) ↔
        (∃ k, f₂ ≤ k ∧ k < h ∧ (headerPCH c (chain k)).isSome) ∨
          ∀ k p, f₁ ≤ k → k < f₂ → headerPCH c (chain k) = some p →
            (∀ j, k < j → j < f₂ → headerPCH c (chain j) = none) → p = 0 := by
  rcases Nat.exists_eq_add_of_le hle with ⟨a, rfl⟩
  rcases Nat.exists_eq_add_of_le hh with ⟨b, rfl⟩
  have h₁ : f₁ + a + b - f₁ = a + b := by omega
  rw [h₁, Nat.add_sub_cancel_left]
  by_cases hsome : ∃ k, f₁ + a ≤ k ∧ k < f₁ + a + b ∧ (headerPCH c (chain k)).isSome
  . rcases hsome with ⟨k, hlo, hhi, hk⟩
    rw [lastHeader_of_some hlo hhi hk]
    exact ⟨fun _ => .inl ⟨k, hlo, hhi, hk⟩, fun _ => rfl⟩
  . have hnone : ∀ k, f₁ + a ≤ k → k < f₁ + a + b → headerPCH c (chain k) = none := by
      intro k hlo hhi
      rw [← Option.not_isSome_iff_eq_none]
      exact fun hk => hsome ⟨k, hlo, hhi, hk⟩
    have hzero : lastHeader c chain (f₁ + a) b = 0 := by
      have hrest : lastHeader c chain (f₁ + a) (0 + b) = lastHeader c chain (f₁ + a) 0 := lastHeader_of_none hnone
      rw [Nat.zero_add] at hrest
      exact hrest
    rw [lastHeader_of_none hnone, hzero, lastHeader_eq_zero_iff]
    exact ⟨.inr, fun h => h.resolve_left hsome⟩

/--
The P-chain height of a block is the same from two starts exactly when it is settled.
-/
theorem pch_eq_iff {f₁ f₂ h n₁ n₂ : Nat} {it₁ it₂ : Item}
    (hit₁ : it₁ ∈ (pull c upgrades (fun h => .ok (chain h)) f₁ n₁).ring) (hh₁ : it₁.h = h)
    (hit₂ : it₂ ∈ (pull c upgrades (fun h => .ok (chain h)) f₂ n₂).ring) (hh₂ : it₂.h = h)
    : it₁.pch = it₂.pch ↔ Settled c upgrades chain f₁ f₂ h := by
  rcases pch_of_mem_ring hit₁ with ⟨hle₁, hpch₁⟩
  rcases pch_of_mem_ring hit₂ with ⟨hle₂, hpch₂⟩
  rw [hh₁] at hle₁ hpch₁
  rw [hh₂] at hle₂ hpch₂
  rw [hpch₁, hpch₂, Settled]
  cases hown : inherits c upgrades (chain h) with
  | false => exact ⟨fun _ => .inl rfl, fun _ => pch_unwrap_of_own hown _ _⟩
  | true =>
    rw [pch_unwrap_of_inherits hown, pch_unwrap_of_inherits hown]
    simp only [Bool.true_eq_false, false_or]
    rcases Nat.le_total f₁ f₂ with hle | hle
    . rw [lastHeader_eq_iff hle hle₂, Nat.max_eq_right hle, Nat.min_eq_left hle]
    . rw [eq_comm, lastHeader_eq_iff hle hle₁, Nat.max_eq_left hle, Nat.min_eq_right hle]

def headerCodec : Codec where
  parseWithoutVerification
    | timestamp :: pch :: block => some (.signed ⟨timestamp.toNat, pch.toUInt64, 0, block⟩)
    | _ => none
  split _ := .error "unexpected EOF"
  decodeBlock _ := none

def etnaAtTen : Upgrades where
  isGraniteActivated timestamp := 20 ≤ timestamp
  isEtnaActivated timestamp := 10 ≤ timestamp

def beforeEtna (h : Nat) : Bytes := [UInt8.ofNat h, 5, 0xc0]

theorem pch_eq_iff_beforeEtna
    : ∃ it₁ ∈ (pull headerCodec etnaAtTen (fun h => .ok (beforeEtna h)) 1 3).ring,
        ∃ it₂ ∈ (pull headerCodec etnaAtTen (fun h => .ok (beforeEtna h)) 2 2).ring,
          it₁.h = 3 ∧ it₂.h = 3 ∧ it₁.pch = it₂.pch := by
  have hsettled : Settled headerCodec etnaAtTen beforeEtna 1 2 3 := .inr (.inl ⟨2, by decide, by decide, by decide⟩)
  have hit₁ : ⟨3, [0xc0], 5, 0, 0⟩ ∈ (pull headerCodec etnaAtTen (fun h => .ok (beforeEtna h)) 1 3).ring := by decide
  have hit₂ : ⟨3, [0xc0], 5, 0, 0⟩ ∈ (pull headerCodec etnaAtTen (fun h => .ok (beforeEtna h)) 2 2).ring := by decide
  exact ⟨_, hit₁, _, hit₂, rfl, rfl, (pch_eq_iff hit₁ rfl hit₂ rfl).mpr hsettled⟩

theorem pch_depends_on_start
    : ∃ it₁ ∈ (pull headerCodec etnaAtTen (fun h => .ok (beforeEtna h)) 1 2).ring,
        ∃ it₂ ∈ (pull headerCodec etnaAtTen (fun h => .ok (beforeEtna h)) 2 1).ring,
          it₁.h = 2 ∧ it₂.h = 2 ∧ it₁.pch = 5 ∧ it₂.pch = 0 := by
  decide

end EpochDB.Host
