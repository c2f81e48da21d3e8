import EpochDB.Lib.Bytes

/-!
The base fees above the Helicon boundary (`rpc/saefee.go`): the gas clock is rebuilt from the settlement
markers of a header and replayed block by block, and a walk over a range derives the fees that walks over its
single blocks do.
-/

namespace EpochDB.Rpc

open List

structure Header where
  number : UInt64
  time : UInt64
  timeMilliseconds : UInt64
  extra : Bytes
  baseFee : Option Nat
  settledHeight : Option UInt64
  settledGasUnix : Option UInt64
  settledGasNumerator : Option UInt64
  settledExcess : Option UInt64
  targetExponent : Option UInt64
  minPriceExponent : Option UInt64
  deriving DecidableEq

structure Settled where
  height : UInt64
  gasUnix : UInt64
  gasNumerator : UInt64
  excess : UInt64
  deriving DecidableEq

structure GasPriceConfig where
  targetToExcessScaling : UInt64
  minPrice : UInt64
  deriving DecidableEq

/--
The clock and the fee parameters of other repositories: `gastime`, `proxytime`, `dynamic` and `acp176`.
-/
structure GasTime (κ : Type) where
  fromProxyTime : (unix numerator target excess : UInt64) → GasPriceConfig → Except String κ
  beforeBlock : κ → (sec nsec : Int64) → κ
  baseFee : κ → Nat
  afterBlock : κ → (used target : UInt64) → GasPriceConfig → Except String κ
  targetOf : UInt64 → UInt64
  priceOf : UInt64 → UInt64
  parseState : Bytes → Except String UInt64
  isFortuna : UInt64 → Bool
  initialTargetExponent : UInt64
  initialPriceExponent : UInt64

structure GasChain where
  headerFor : UInt64 → Except String Header
  gasConsumed : UInt64 → Except String UInt64

def saeSettledBy (h : Header) : Option Settled :=
  match h.settledHeight, h.settledGasUnix, h.settledGasNumerator, h.settledExcess with
  | some height, some gasUnix, some gasNumerator, some excess => some ⟨height, gasUnix, gasNumerator, excess⟩
  | _, _, _, _ => none

section

variable {κ : Type} (g : GasTime κ) (c : GasChain)

def saeTargetExponent (h : Header) : Except String UInt64 :=
  match h.targetExponent with
  | some te => .ok te
  | none =>
    if !g.isFortuna h.time || h.number = 0 then
      .ok g.initialTargetExponent
    else
      match g.parseState h.extra with
      | .error e => .error s!"parsing fee state: {e}"
      | .ok te => .ok te

def saeGasConfigAfter (h : Header) : Except String (UInt64 × GasPriceConfig) :=
  match saeTargetExponent g h with
  | .error e => .error s!"gas target of block {h.number}: {e}"
  | .ok te => .ok (g.targetOf te, ⟨87, g.priceOf (h.minPriceExponent.getD g.initialPriceExponent)⟩)

def saeSettledGasTime (settled settler : Header) : Except String κ :=
  match saeGasConfigAfter g settled with
  | .error e => .error e
  | .ok (target, cfg) =>
    match saeSettledBy settler with
    | none => .error s!"block {settler.number} carries no settlement markers"
    | some s => g.fromProxyTime s.gasUnix s.gasNumerator target s.excess cfg

def beforeBlock (h : Header) (clock : κ) : κ :=
  g.beforeBlock clock h.time.toInt64 ((h.timeMilliseconds % 1000).toInt64 * 1000000)

def saeAfterBlock (h : Header) (clock : κ) : Except String κ :=
  match c.gasConsumed h.number with
  | .error e => .error e
  | .ok used =>
    match saeGasConfigAfter g h with
    | .error e => .error e
    | .ok (target, cfg) =>
      match g.afterBlock clock used target cfg with
      | .error e => .error s!"after block {h.number}: {e}"
      | .ok clock => .ok clock

def saeLoop (start : Header) (stop : UInt64) (n : UInt64) (clock : κ) (fees : List Nat)
    : Nat → Except String (List Nat × κ)
  | 0 => .ok (fees, clock)
  | k + 1 =>
    match if n ≠ start.number then c.headerFor n else .ok start with
    | .error e => .error e
    | .ok h =>
      let clock := beforeBlock g h clock
      let fees := if n ≥ start.number then fees ++ [g.baseFee clock] else fees
      -- The gas of `stop` belongs to the block after it.
      if n = stop then
        .ok (fees, clock)
      else
        match saeAfterBlock g c h clock with
        | .error e => .error e
        | .ok clock => saeLoop start stop (n + 1) clock fees k

def saeWalk (start : Header) (stop : UInt64) : Except String (List Nat × κ) :=
  match saeSettledBy start with
  | none => .error s!"block {start.number} carries no settlement markers: it is not post-Helicon"
  | some s =>
    if s.height ≥ start.number then
      .error s!"block {start.number} settles height {s.height}: a block cannot settle itself or the future"
    else
      match c.headerFor s.height with
      | .error e => .error e
      | .ok settled =>
        match saeSettledGasTime g settled start with
        | .error e => .error e
        | .ok clock => saeLoop g c start stop (s.height + 1) clock [] (stop.toNat - s.height.toNat)

def baseFeeOf (h : Header) : Except String (Option Nat) :=
  match saeSettledBy h with
  | none => .ok h.baseFee
  | some _ =>
    match saeWalk g c h h.number with
    | .error e => .error e
    | .ok (fees, _) => .ok fees[0]?

def baseFeesFrom (stop n : UInt64) (out : List (Option Nat)) : Nat → Option (Except String (List (Option Nat)))
  | 0 => none
  | fuel + 1 =>
    if n ≤ stop then
      match c.headerFor n with
      | .error e => some (.error e)
      | .ok h =>
        match saeSettledBy h with
        | some _ =>
          match saeWalk g c h stop with
          | .error e => some (.error e)
          | .ok (derived, _) => some (.ok (out ++ derived.map some))
        -- at `stop = 2 ^ 64 - 1` the height wraps and the loop goes on
        | none => baseFeesFrom stop (n + 1) (out ++ [h.baseFee]) fuel
    else
      some (.ok out)

/-- What the loop returns within `fuel` rounds, if it ends by then. -/
def baseFees (low stop : UInt64) (fuel : Nat) : Option (Except String (List (Option Nat))) := baseFeesFrom g c stop low [] fuel

end

/--
The chain up to the height `stop`, with the clock after each height from `last` on, the last one below the
boundary: a block ticks the clock of the one before it, and the clock rebuilt from the markers of a header is
that of the height it settles.
-/
structure Clocked {κ : Type} (g : GasTime κ) (c : GasChain) (last stop : Nat) (header : Nat → Header) (after : Nat → κ)
    : Prop where
  bounded : stop < 2 ^ 64
  headerFor : ∀ n ≤ stop, c.headerFor (UInt64.ofNat n) = .ok (header n)
  number : ∀ n ≤ stop, (header n).number = UInt64.ofNat n
  executed : ∀ n, last ≤ n → n + 1 < stop →
    saeAfterBlock g c (header (n + 1)) (beforeBlock g (header (n + 1)) (after n)) = .ok (after (n + 1))
  settles : ∀ n, last < n → n ≤ stop → ∃ s, saeSettledBy (header n) = some s ∧ last ≤ s.height.toNat ∧ s.height.toNat < n ∧
    saeSettledGasTime g (header s.height.toNat) (header n) = .ok (after s.height.toNat)

section

variable {κ : Type} {g : GasTime κ} {c : GasChain} {last stop : Nat} {header : Nat → Header} {after : Nat → κ}

def clockAt (g : GasTime κ) (header : Nat → Header) (after : Nat → κ) (n : Nat) : κ :=
  beforeBlock g (header n) (after (n - 1))

theorem toNat_height {n m : Nat} (hm : m < 2 ^ 64) (hn : n ≤ m) : (UInt64.ofNat n).toNat = n := by
  rw [UInt64.toNat_ofNat']
  exact Nat.mod_eq_of_lt (by omega)

def feesFrom (g : GasTime κ) (header : Nat → Header) (after : Nat → κ) (low n k : Nat) : List Nat :=
  ((List.range' n k).filter (fun m => low ≤ m)).map (fun m => g.baseFee (clockAt g header after m))

theorem feesFrom_add (g : GasTime κ) (header : Nat → Header) (after : Nat → κ) {low n j : Nat} (k : Nat) (hj : n + j = low)
    : feesFrom g header after low n (j + k) = feesFrom g header after low low k := by
  have hbelow : (List.range' n j).filter (fun m => low ≤ m) = [] := by
    rw [filter_eq_nil_iff]
    intro m hm
    rw [mem_range'_1] at hm
    rw [decide_eq_true_eq]
    omega
  unfold feesFrom
  rw [← range'_append_1, filter_append, hbelow, nil_append, hj]

theorem feesFrom_self (g : GasTime κ) (header : Nat → Header) (after : Nat → κ) (low k : Nat)
    : feesFrom g header after low low k = (List.range' low k).map (fun m => g.baseFee (clockAt g header after m)) := by
  have hall : (List.range' low k).filter (fun m => low ≤ m) = List.range' low k := by
    rw [filter_eq_self]
    intro m hm
    rw [mem_range'_1] at hm
    simpa using hm.1
  unfold feesFrom
  rw [hall]

section

variable (h : Clocked g c last stop header after)

include h

theorem Clocked.header_eq {low n : Nat} (hlow : low ≤ stop) (hn : n ≤ stop)
    : (if UInt64.ofNat n ≠ (header low).number then c.headerFor (UInt64.ofNat n) else .ok (header low)) = .ok (header n) := by
  by_cases heq : n = low
  . rw [heq, h.number low hlow, if_neg (by simp)]
  . have hne : UInt64.ofNat n ≠ (header low).number := by
      rw [h.number low hlow]
      intro hofNat
      apply heq
      rw [← toNat_height h.bounded hn, hofNat, toNat_height h.bounded hlow]
    rw [if_pos hne, h.headerFor n hn]

theorem Clocked.le_iff {low n : Nat} (hlow : low ≤ stop) (hn : n ≤ stop)
    : UInt64.ofNat n ≥ (header low).number ↔ low ≤ n := by
  rw [h.number low hlow, ge_iff_le, UInt64.le_iff_toNat_le, toNat_height h.bounded hlow, toNat_height h.bounded hn]

theorem Clocked.fees_append {low n : Nat} (hlow : low ≤ stop) (hn : n ≤ stop) (k : Nat) (fees : List Nat)
    : (if UInt64.ofNat n ≥ (header low).number then fees ++ [g.baseFee (clockAt g header after n)] else fees) ++
        feesFrom g header after low (n + 1) k = fees ++ feesFrom g header after low n (k + 1) := by
  unfold feesFrom
  rw [range'_succ, filter_cons]
  by_cases hle : low ≤ n
  . rw [if_pos ((h.le_iff hlow hn).mpr hle), if_pos (by simpa using hle)]
    simp
  . rw [if_neg (fun hge => hle ((h.le_iff hlow hn).mp hge)), if_neg (by simpa using hle)]

theorem Clocked.saeLoop_eq {low n : Nat} (hlow : low ≤ stop) (hn : last < n) {k : Nat} (hk : n + k = stop) (fees : List Nat)
    : saeLoop g c (header low) (UInt64.ofNat stop) (UInt64.ofNat n) (after (n - 1)) fees (k + 1) =
        .ok (fees ++ feesFrom g header after low n (k + 1), clockAt g header after stop) := by
  induction k generalizing n fees with
  | zero =>
    have hstop : n = stop := hk
    have hnil : feesFrom g header after low (n + 1) 0 = [] := rfl
    rw [saeLoop, h.header_eq hlow (by omega), ← h.fees_append hlow (by omega), hnil, append_nil, hstop]
    dsimp only
    rw [if_pos rfl]
    rfl
  | succ k ih =>
    have hne : UInt64.ofNat n ≠ UInt64.ofNat stop := by
      intro hofNat
      have := congrArg UInt64.toNat hofNat
      rw [toNat_height h.bounded (by omega), toNat_height h.bounded (Nat.le_refl _)] at this
      omega
    have hafter := h.executed (n - 1) (by omega) (by omega)
    rw [Nat.sub_add_cancel (by omega)] at hafter
    have hsucc : UInt64.ofNat n + 1 = UInt64.ofNat (n + 1) := by
      rw [UInt64.ofNat_add]
      rfl
    rw [saeLoop, h.header_eq hlow (by omega), ← h.fees_append hlow (by omega)]
    dsimp only
    rw [if_neg hne, hafter, hsucc]
    exact ih (by omega) (by omega) _

theorem Clocked.saeWalk_eq {low : Nat} (hlast : last < low) (hlow : low ≤ stop)
    : saeWalk g c (header low) (UInt64.ofNat stop) =
        .ok (feesFrom g header after low low (stop + 1 - low), clockAt g header after stop) := by
  rcases h.settles low hlast hlow with ⟨s, hs, hge, hlt, hclock⟩
  have hheader := h.headerFor s.height.toNat (by omega)
  rw [UInt64.ofNat_toNat] at hheader
  have hself : ¬ s.height ≥ (header low).number := by
    rw [h.number low hlow, ge_iff_le, UInt64.le_iff_toNat_le, toNat_height h.bounded hlow]
    omega
  have hstart : s.height + 1 = UInt64.ofNat (s.height.toNat + 1) := by
    rw [UInt64.ofNat_add, UInt64.ofNat_toNat]
    rfl
  have hcount : (UInt64.ofNat stop).toNat - s.height.toNat = stop - s.height.toNat - 1 + 1 := by
    rw [toNat_height h.bounded (Nat.le_refl _)]
    omega
  unfold saeWalk
  rw [hs]
  dsimp only
  rw [if_neg hself, hheader]
  dsimp only
  rw [hclock]
  dsimp only
  have hn : last < s.height.toNat + 1 := by omega
  have hloop := h.saeLoop_eq hlow hn (k := stop - s.height.toNat - 1) (by omega) []
  have hskip : s.height.toNat + 1 + (low - s.height.toNat - 1) = low := by omega
  have hsum : stop - s.height.toNat - 1 + 1 = low - s.height.toNat - 1 + (stop + 1 - low) := by omega
  rw [Nat.add_sub_cancel] at hloop
  rw [hstart, hcount, hloop, nil_append, hsum, feesFrom_add g header after _ hskip]

theorem Clocked.mono {stop' : Nat} (hle : stop' ≤ stop) : Clocked g c last stop' header after where
  bounded := Nat.lt_of_le_of_lt hle h.bounded
  headerFor := fun n hn => h.headerFor n (Nat.le_trans hn hle)
  number := fun n hn => h.number n (Nat.le_trans hn hle)
  executed := fun n hlast hn => h.executed n hlast (Nat.lt_of_lt_of_le hn hle)
  settles := fun n hlast hn => h.settles n hlast (Nat.le_trans hn hle)

end

/--
Every fee of a walk over a range is the one fee of the walk over its own block, and the clocks of the range and
of its last block are the same.
-/
theorem saeWalk_range (h : Clocked g c last stop header after) {low : Nat} (hlast : last < low) (hlow : low ≤ stop)
    : ∃ fees clock, saeWalk g c (header low) (UInt64.ofNat stop) = .ok (fees, clock) ∧ fees.length = stop + 1 - low ∧
        ∀ i, low + i ≤ stop → ∃ fee clock',
          saeWalk g c (header (low + i)) (UInt64.ofNat (low + i)) = .ok ([fee], clock') ∧ fees[i]? = some fee ∧
            (low + i = stop → clock' = clock) := by
  refine ⟨_, _, h.saeWalk_eq hlast hlow, ?_, ?_⟩
  . rw [feesFrom_self, length_map, length_range']
  . intro i hi
    have hlast' : last < low + i := by omega
    have hsingle := (h.mono hi).saeWalk_eq hlast' (Nat.le_refl _)
    rw [Nat.add_sub_cancel_left, feesFrom_self] at hsingle
    refine ⟨_, _, hsingle, ?_, ?_⟩
    . rw [feesFrom_self, getElem?_map, getElem?_range' (by omega), Nat.one_mul]
      rfl
    . intro hstop
      rw [hstop]

def plainClock : GasTime (Nat × Nat) where
  fromProxyTime := fun unix _ _ excess _ => .ok (unix.toNat, excess.toNat)
  beforeBlock := fun (t, e) sec _ => (sec.toInt.toNat, e - (sec.toInt.toNat - t) * 10)
  baseFee := fun (_, e) => e + 25
  afterBlock := fun (t, e) used _ _ => .ok (t, e + used.toNat)
  targetOf := id
  priceOf := id
  parseState := fun _ => .ok 0
  isFortuna := fun _ => true
  initialTargetExponent := 0
  initialPriceExponent := 0

def fourHeaders (n : Nat) : Header where
  number := UInt64.ofNat n
  time := UInt64.ofNat (100 + n)
  timeMilliseconds := UInt64.ofNat ((100 + n) * 1000)
  extra := []
  baseFee := if n ≤ 1 then some 25 else none
  settledHeight := if n ≤ 1 then none else some (if n = 4 then 2 else 1)
  settledGasUnix := if n ≤ 1 then none else some (if n = 4 then 102 else 101)
  settledGasNumerator := if n ≤ 1 then none else some 0
  settledExcess := if n ≤ 1 then none else some (if n = 4 then 70 else 50)
  targetExponent := none
  minPriceExponent := none

def fourBlocks : GasChain := ⟨fun n => .ok (fourHeaders n.toNat), fun _ => .ok 30⟩

theorem clocked_fourBlocks : Clocked plainClock fourBlocks 1 4 fourHeaders (fun n => (100 + n, 30 + 20 * n)) where
  bounded := by decide
  headerFor := by
    intro n hn
    interval_cases n <;> rfl
  number := fun _ _ => rfl
  executed := by
    intro n hn hstop
    have hlt : n < 3 := by omega
    interval_cases n
    . rfl
    . rfl
  settles := by
    intro n hn hstop
    interval_cases n
    . exact ⟨⟨1, 101, 0, 50⟩, rfl, by decide, by decide, rfl⟩
    . exact ⟨⟨1, 101, 0, 50⟩, rfl, by decide, by decide, rfl⟩
    . exact ⟨⟨2, 102, 0, 70⟩, rfl, by decide, by decide, rfl⟩

theorem saeWalk_range_fourBlocks
    : saeWalk plainClock fourBlocks (fourHeaders 2) 4 = .ok ([65, 85, 105], (104, 80)) ∧
      ∃ fees clock, saeWalk plainClock fourBlocks (fourHeaders 2) (UInt64.ofNat 4) = .ok (fees, clock) ∧
        fees.length = 3 ∧
        ∀ i, 2 + i ≤ 4 → ∃ fee clock',
          saeWalk plainClock fourBlocks (fourHeaders (2 + i)) (UInt64.ofNat (2 + i)) = .ok ([fee], clock') ∧
            fees[i]? = some fee ∧ (2 + i = 4 → clock' = clock) :=
  ⟨rfl, saeWalk_range clocked_fourBlocks (by decide) (by decide)⟩

def feeOf (g : GasTime κ) (last : Nat) (header : Nat → Header) (after : Nat → κ) (n : Nat) : Option Nat :=
  if n ≤ last then (header n).baseFee else some (g.baseFee (clockAt g header after n))

section

variable (h : Clocked g c last stop header after) (hplain : ∀ n ≤ last, saeSettledBy (header n) = none)

include h hplain

theorem Clocked.baseFeeOf_eq {n : Nat} (hn : n ≤ stop) : baseFeeOf g c (header n) = .ok (feeOf g last header after n) := by
  unfold baseFeeOf feeOf
  by_cases hlast : n ≤ last
  . rw [hplain n hlast, if_pos hlast]
  . rcases h.settles n (by omega) hn with ⟨s, hs, -⟩
    have hwalk := (h.mono hn).saeWalk_eq (Nat.lt_of_not_le hlast) (Nat.le_refl _)
    rw [Nat.add_sub_cancel_left, feesFrom_self] at hwalk
    rw [hs, if_neg hlast]
    dsimp only
    rw [h.number n hn, hwalk]
    rfl

theorem Clocked.baseFeesFrom_eq (hstop : stop + 1 < 2 ^ 64) {n k fuel : Nat} (hk : n + k = stop + 1) (hfuel : k < fuel)
    (out : List (Option Nat))
    : baseFeesFrom g c (UInt64.ofNat stop) (UInt64.ofNat n) out fuel =
        some (.ok (out ++ (List.range' n k).map (feeOf g last header after))) := by
  have hle : ∀ m ≤ stop + 1, (UInt64.ofNat m ≤ UInt64.ofNat stop ↔ m ≤ stop) := by
    intro m hm
    rw [UInt64.le_iff_toNat_le, toNat_height hstop hm, toNat_height hstop (by omega)]
  induction k generalizing n fuel out with
  | zero =>
    rcases fuel with _ | fuel
    . omega
    . rw [baseFeesFrom, if_neg (by rw [hle n (by omega)]; omega), range'_zero, map_nil, append_nil]
  | succ k ih =>
    rcases fuel with _ | fuel
    . omega
    rw [baseFeesFrom, if_pos ((hle n (by omega)).mpr (by omega)), h.headerFor n (by omega)]
    dsimp only
    by_cases hlast : n ≤ last
    . have hsucc : UInt64.ofNat n + 1 = UInt64.ofNat (n + 1) := by
        rw [UInt64.ofNat_add]
        rfl
      have hfee : feeOf g last header after n = (header n).baseFee := if_pos hlast
      rw [hplain n hlast, hsucc]
      dsimp only
      rw [ih (by omega) (by omega), range'_succ, map_cons, hfee, append_assoc, singleton_append]
    . rcases h.settles n (by omega) (by omega) with ⟨s, hs, -⟩
      have hfees : ∀ m ∈ List.range' n (k + 1), some (g.baseFee (clockAt g header after m)) = feeOf g last header after m := by
        intro m hm
        rw [mem_range'_1] at hm
        exact (if_neg (by omega)).symm
      have hcount : stop + 1 - n = k + 1 := by omega
      rw [hs, h.saeWalk_eq (Nat.lt_of_not_le hlast) (by omega), feesFrom_self, hcount]
      dsimp only
      rw [map_map]
      congr 3
      exact map_congr_left hfees

/--
The fees of a range, walked once, are those of its blocks asked for one by one, on both sides of the boundary.
-/
theorem Clocked.baseFees_eq (hstop : stop + 1 < 2 ^ 64) {low : Nat} (hlow : low ≤ stop)
    : ∃ fees, (∀ fuel > stop + 1 - low, baseFees g c (UInt64.ofNat low) (UInt64.ofNat stop) fuel = some (.ok fees)) ∧
        fees.length = stop + 1 - low ∧
        ∀ i, low + i ≤ stop → ∃ fee, baseFeeOf g c (header (low + i)) = .ok fee ∧ fees[i]? = some fee := by
  have hcount : low + (stop + 1 - low) = stop + 1 := by omega
  refine ⟨_, fun fuel hfuel => h.baseFeesFrom_eq hplain hstop hcount hfuel [], by simp, ?_⟩
  intro i hi
  refine ⟨_, h.baseFeeOf_eq hplain hi, ?_⟩
  rw [nil_append, getElem?_map, getElem?_range' (by omega), Nat.one_mul]
  rfl

end

end

theorem baseFees_eq_fourBlocks
    : (∀ n ≤ 1, saeSettledBy (fourHeaders n) = none) ∧
      ∃ fees, (∀ fuel > 4 + 1 - 0, baseFees plainClock fourBlocks (UInt64.ofNat 0) (UInt64.ofNat 4) fuel = some (.ok fees)) ∧
        fees.length = 4 + 1 - 0 ∧
        ∀ i, 0 + i ≤ 4 → ∃ fee, baseFeeOf plainClock fourBlocks (fourHeaders (0 + i)) = .ok fee ∧ fees[i]? = some fee := by
  have hplain : ∀ n ≤ 1, saeSettledBy (fourHeaders n) = none := by
    intro n hn
    interval_cases n <;> rfl
  exact ⟨hplain, clocked_fourBlocks.baseFees_eq hplain (by decide) (by decide)⟩

end EpochDB.Rpc
