import EpochDB.Lib.Bits

/-!
Readers that walk over a byte string with a position, as decoders written in a language with fixed width
integers and checked slices do. A slice out of range stops the program.
-/

inductive Ret (ε α : Type) where
  | ok (a : α)
  | error (e : ε)
  | panic
  deriving DecidableEq, Repr

def Ret.isPanic {ε α : Type} : Ret ε α → Bool
  | .panic => true
  | _ => false

def Ret.toOption {ε α : Type} : Ret ε α → Option α
  | .ok a => some a
  | _ => none

theorem Ret.eq_panic {ε α : Type} {o : Ret ε α} (h : o.isPanic) : o = .panic := by
  cases o with
  | panic => rfl
  | ok a => cases h
  | error e => cases h

def wrap64 (x : Int) : Int := x.bmod 18446744073709551616

theorem wrap64_eq (x : Int)
    : wrap64 x = if x % 18446744073709551616 < 9223372036854775808 then x % 18446744073709551616
        else x % 18446744073709551616 - 18446744073709551616 := rfl

theorem wrap64_of_lt {x : Int} (hlo : -2 ^ 63 ≤ x) (hhi : x < 2 ^ 63) : wrap64 x = x := by
  rw [wrap64_eq]
  split <;> omega

theorem wrap64_mul (x y : Int) : wrap64 (wrap64 x * y) = wrap64 (x * y) := by
  unfold wrap64
  rw [Int.bmod_mul_bmod]

def maxAlloc : Nat := 2 ^ 48

def Reader (ε α : Type) : Type := Bytes → Nat → Ret ε (α × Nat)

namespace Reader

open List

variable {ε α β : Type}

def run (f : Reader ε α) (bytes : Bytes) (pos : Nat) : Ret ε (α × Nat) := f bytes pos

protected def pure (a : α) : Reader ε α := fun _ pos => .ok (a, pos)

protected def bind (f : Reader ε α) (g : α → Reader ε β) : Reader ε β := fun bytes pos =>
  match f bytes pos with
  | .ok (a, pos) => g a bytes pos
  | .error e => .error e
  | .panic => .panic

instance instMonad : Monad (Reader ε) where
  pure := Reader.pure
  bind := Reader.bind

theorem run_pure (a : α) (bytes : Bytes) (pos : Nat) : (pure a : Reader ε α).run bytes pos = .ok (a, pos) := rfl

theorem run_bind (f : Reader ε α) (g : α → Reader ε β) (bytes : Bytes) (pos : Nat)
    : (f >>= g).run bytes pos = match f.run bytes pos with
        | .ok (a, pos) => (g a).run bytes pos
        | .error e => .error e
        | .panic => .panic := rfl

variable {f : Reader ε α} {g : α → Reader ε β} {bytes part : Bytes} {pos n mem size : Nat} {a : α}

theorem run_bind_of_ok {pos mid : Nat}
    (h : f.run bytes pos = .ok (a, mid)) : (f >>= g).run bytes pos = (g a).run bytes mid := by
  rw [run_bind, h]

theorem run_bind_of_panic (h : f.run bytes pos = .panic) : (f >>= g).run bytes pos = .panic := by
  rw [run_bind, h]

theorem run_bind_of_error {e : ε} (h : f.run bytes pos = .error e) : (f >>= g).run bytes pos = .error e := by
  rw [run_bind, h]

theorem run_bind_eq_ok {pos pos' : Nat} {b : β}
    : (f >>= g).run bytes pos = .ok (b, pos') ↔
        ∃ a mid, f.run bytes pos = .ok (a, mid) ∧ (g a).run bytes mid = .ok (b, pos') := by
  rw [run_bind]
  constructor
  . intro h
    split at h
    . next a mid hf => exact ⟨a, mid, hf, h⟩
    . cases h
    . cases h
  . rintro ⟨a, mid, hf, hg⟩
    rw [hf]
    exact hg

theorem run_bind_eq_panic
    : (f >>= g).run bytes pos = .panic ↔
        f.run bytes pos = .panic ∨ ∃ a mid, f.run bytes pos = .ok (a, mid) ∧ (g a).run bytes mid = .panic := by
  rw [run_bind]
  constructor
  . intro h
    split at h
    . next a mid hf => exact .inr ⟨a, mid, hf, h⟩
    . cases h
    . next hf => exact .inl hf
  . rintro (hf | ⟨a, mid, hf, hg⟩)
    . rw [hf]
    . rw [hf]
      exact hg

def number (e : ε) : Reader ε Nat := fun bytes pos =>
  match uvarint (bytes.drop pos) 0 0 with
  | none => .error e
  | some (x, rest) => .ok (x, bytes.length - rest.length)

def upTo (stop : Int) (e : ε) : Reader ε Bytes := fun bytes pos =>
  if bytes.length < stop then
    .error e
  else if stop < pos then
    .panic
  else
    .ok ((bytes.drop pos).take (stop.toNat - pos), stop.toNat)

def span (n : Int) (e : ε) : Reader ε Bytes := fun bytes pos => upTo (wrap64 (pos + n)) e bytes pos

def ensure (n : Int) (e : ε) : Reader ε Unit := fun bytes pos =>
  if bytes.length < wrap64 (pos + n) then .error e else .ok ((), pos)

/--
An allocation of `n` items: `mem` is what the process can get for it, and without that much it stops.
-/
def alloc (mem size n : Nat) : Reader ε Unit := fun _ pos => if size * n ≤ mem then .ok ((), pos) else .panic

def fixed (n : Nat) : Reader ε (FixedBytes n) := fun bytes pos =>
  if h : pos + n ≤ bytes.length then
    .ok (⟨(bytes.drop pos).take n, by rw [length_take, length_drop]; omega⟩, pos + n)
  else
    .panic

def times (n : Nat) (f : Reader ε α) : Reader ε (List α) :=
  match n with
  | 0 => pure []
  | n + 1 => do
    let a ← f
    let as ← times n f
    return a :: as

theorem mem_of_times {pos pos' : Nat} {as : List α}
    (h : (times n f).run bytes pos = .ok (as, pos')) (ha : a ∈ as) : ∃ i j, f.run bytes i = .ok (a, j) := by
  induction n generalizing pos as with
  | zero =>
    cases h
    cases ha
  | succ n ih =>
    rcases run_bind_eq_ok.mp h with ⟨a', mid, hfirst, h⟩
    rcases run_bind_eq_ok.mp h with ⟨as', mid', hrest, h⟩
    cases h
    rcases mem_cons.mp ha with rfl | ha
    . exact ⟨pos, mid, hfirst⟩
    . exact ih hrest ha

def items (mem size n : Nat) (e : ε) : Reader ε (List (FixedBytes size)) := do
  ensure (wrap64 (wrap64 n * size)) e
  alloc mem size n
  times n (fixed size)

def Reads (f : Reader ε α) (part : Bytes) (a : α) : Prop :=
  ∀ front back : Bytes, (front ++ part ++ back).length ≤ maxAlloc →
    f.run (front ++ part ++ back) front.length = .ok (a, (front ++ part).length)

theorem Reads.pure (a : α) : Reads (ε := ε) (pure a) [] a := by
  intro front back _
  rw [run_pure, append_nil]

theorem Reads.bind {part part' : Bytes} {b : β} (hf : Reads f part a)
    (hg : Reads (g a) part' b) : Reads (f >>= g) (part ++ part') b := by
  intro front back hlen
  have hf := hf front (part' ++ back)
  have hg := hg (front ++ part) back
  simp only [append_assoc] at hf hg hlen ⊢
  exact run_bind_eq_ok.mpr ⟨a, _, hf hlen, hg hlen⟩

theorem Reads.bind_pure (hf : Reads f part a) (g : α → β) : Reads (f >>= fun a => Pure.pure (g a)) part (g a) := by
  have hg : Reads (ε := ε) (Pure.pure (g a)) [] (g a) := Reads.pure (g a)
  have hall : Reads (f >>= fun a => Pure.pure (g a)) (part ++ []) (g a) := hf.bind hg
  rw [append_nil] at hall
  exact hall

theorem Reads.times {enc : α → Bytes} {as : List α} (hf : ∀ a ∈ as, Reads f (enc a) a)
    : Reads (times as.length f) (as.flatMap enc) as := by
  induction as with
  | nil => exact Reads.pure []
  | cons a as ih =>
    have hrest := ih (fun a' ha' => hf a' (mem_cons_of_mem a ha'))
    rw [flatMap_cons, ← append_nil (List.flatMap enc as)]
    exact (hf a mem_cons_self).bind (hrest.bind (Reads.pure (a :: as)))

theorem Reads.number {x : Nat} (hx : x < 2 ^ 64) (e : ε) : Reads (number e) (appendUvarint x) x := by
  intro front back _
  have hread := uvarint_appendUvarint 0 0 (by simpa using hx) (by omega) back
  rw [Nat.mul_zero, Nat.pow_zero, Nat.mul_one, Nat.zero_add] at hread
  unfold run Reader.number
  rw [append_assoc, drop_left, hread]
  simp only [length_append, Ret.ok.injEq, Prod.mk.injEq, true_and]
  omega

theorem run_upTo_of_le {stop pos : Nat} (hpos : pos ≤ stop) (hstop : stop ≤ bytes.length) (e : ε)
    : (upTo stop e).run bytes pos = .ok ((bytes.drop pos).take (stop - pos), stop) := by
  unfold run upTo
  rw [if_neg (by omega), if_neg (by omega), Int.toNat_natCast]

theorem run_span (n : Int) (e : ε) (bytes : Bytes) (pos : Nat)
    : (span n e).run bytes pos = (upTo (wrap64 (pos + n)) e).run bytes pos := rfl

theorem run_span_of_le (hle : pos + n ≤ bytes.length) (hlen : bytes.length ≤ maxAlloc) (e : ε)
    : (span n e).run bytes pos = .ok ((bytes.drop pos).take n, pos + n) := by
  have hstop : wrap64 (pos + n) = ((pos + n : Nat) : Int) := by
    unfold maxAlloc at hlen
    rw [wrap64_of_lt (by omega) (by omega)]
    rfl
  rw [run_span, hstop, run_upTo_of_le (Nat.le_add_right pos n) hle, Nat.add_sub_cancel_left]

theorem Reads.span (part : Bytes) (e : ε) : Reads (span part.length e) part part := by
  intro front back hlen
  rw [run_span_of_le (by simp) hlen, append_assoc, drop_left, take_left, length_append]

theorem Reads.fixed (a : FixedBytes n) : Reads (ε := ε) (fixed n) a.val a := by
  intro front back _
  unfold run Reader.fixed
  have hn : front.length + n ≤ (front ++ a.val ++ back).length := by simp [a.property]
  rw [dif_pos hn, Ret.ok.injEq, Prod.mk.injEq]
  refine ⟨?_, by rw [length_append, a.property]⟩
  apply Subtype.ext
  dsimp only
  rw [append_assoc, drop_left, take_left' a.property]

theorem run_ensure (n : Int) (e : ε) (bytes : Bytes) (pos : Nat)
    : (ensure n e).run bytes pos = if bytes.length < wrap64 (pos + n) then .error e else .ok ((), pos) := rfl

theorem Reads.ensure (h : n ≤ part.length) (hf : Reads f part a) (e : ε) : Reads (do ensure n e; f) part a := by
  intro front back hlen
  have hstop : wrap64 (front.length + n) = ((front.length + n : Nat) : Int) := by
    unfold maxAlloc at hlen
    simp only [length_append] at hlen
    rw [wrap64_of_lt (by omega) (by omega)]
    rfl
  have hensure : (Reader.ensure n e).run (front ++ part ++ back) front.length = .ok ((), front.length) := by
    rw [run_ensure, hstop, if_neg (by simp only [length_append]; omega)]
  exact run_bind_eq_ok.mpr ⟨(), front.length, hensure, hf front back hlen⟩

theorem Reads.alloc (h : size * n ≤ mem) : Reads (ε := ε) (alloc mem size n) [] () := by
  intro front back _
  unfold run Reader.alloc
  rw [if_pos h, append_nil]

structure SteadyAt (f : Reader ε α) (bytes : Bytes) (pos : Nat) : Prop where
  ok : ∀ {a : α} {pos' : Nat}, f.run bytes pos = .ok (a, pos') → pos ≤ pos' ∧ pos' ≤ bytes.length ∧
    ∀ more : Bytes, (bytes ++ more).length ≤ maxAlloc → f.run (bytes ++ more) pos = .ok (a, pos')
  panic : f.run bytes pos = .panic →
    ∀ more : Bytes, (bytes ++ more).length ≤ maxAlloc → f.run (bytes ++ more) pos = .panic

def Steady (f : Reader ε α) : Prop :=
  ∀ (bytes : Bytes) (pos : Nat), pos ≤ bytes.length → bytes.length ≤ maxAlloc → SteadyAt f bytes pos

theorem SteadyAt.bind (hf : SteadyAt f bytes pos)
    (hg : ∀ a mid, f.run bytes pos = .ok (a, mid) → SteadyAt (g a) bytes mid) : SteadyAt (f >>= g) bytes pos where
  ok h := by
    rcases run_bind_eq_ok.mp h with ⟨a, mid, hfa, hgb⟩
    rcases hf.ok hfa with ⟨hmid, -, hmore⟩
    rcases (hg a mid hfa).ok hgb with ⟨hpos', hpos'', hmore'⟩
    refine ⟨Nat.le_trans hmid hpos', hpos'', ?_⟩
    intro more hlen
    exact run_bind_eq_ok.mpr ⟨a, mid, hmore more hlen, hmore' more hlen⟩
  panic h more hlen := by
    rcases run_bind_eq_panic.mp h with hfp | ⟨a, mid, hfa, hgp⟩
    . exact run_bind_eq_panic.mpr (.inl (hf.panic hfp more hlen))
    . exact run_bind_eq_panic.mpr (.inr ⟨a, mid, (hf.ok hfa).2.2 more hlen, (hg a mid hfa).panic hgp more hlen⟩)

theorem Steady.pure (a : α) : Steady (ε := ε) (pure a) := by
  intro bytes pos hpos _
  refine ⟨?_, fun h => by cases h⟩
  intro a pos' h
  cases h
  exact ⟨Nat.le_refl _, hpos, fun _ _ => rfl⟩

theorem Steady.bind (hf : Steady f) (hg : ∀ a, Steady (g a)) : Steady (f >>= g) := by
  intro bytes pos hpos hlen
  apply (hf bytes pos hpos hlen).bind
  intro a mid hfa
  exact hg a bytes mid ((hf bytes pos hpos hlen).ok hfa).2.1 hlen

theorem Steady.times (hf : Steady f) (n : Nat) : Steady (times n f) := by
  induction n with
  | zero => exact Steady.pure []
  | succ n ih => exact hf.bind (fun a => ih.bind (fun as => Steady.pure (a :: as)))

theorem Steady.number (e : ε) : Steady (number e) := by
  intro bytes pos hpos _
  constructor
  . intro a pos' h
    unfold run Reader.number at h
    cases hread : uvarint (bytes.drop pos) 0 0 with
    | none =>
      rw [hread] at h
      cases h
    | some p =>
      rcases p with ⟨x, rest⟩
      rw [hread] at h
      cases h
      have hle := length_lt_of_uvarint hread
      rw [length_drop] at hle
      refine ⟨by omega, by omega, ?_⟩
      intro more _
      unfold run Reader.number
      rw [drop_append_of_le_length hpos, uvarint_append hread more]
      simp only [length_append, Ret.ok.injEq, Prod.mk.injEq, true_and]
      omega
  . intro h
    unfold run Reader.number at h
    split at h <;> cases h

theorem Steady.upTo (stop : Int) (e : ε) : Steady (upTo stop e) := by
  intro bytes pos hpos _
  constructor
  . intro a pos' h
    unfold run Reader.upTo at h
    split at h
    . cases h
    . next hlt =>
      split at h
      . cases h
      . next hge =>
        cases h
        refine ⟨by omega, by omega, ?_⟩
        intro more _
        unfold run Reader.upTo
        rw [if_neg (by rw [length_append]; omega), if_neg hge, drop_append_of_le_length hpos,
          take_append_of_le_length (by rw [length_drop]; omega)]
  . intro h more _
    unfold run Reader.upTo at h ⊢
    split at h
    . cases h
    . next hlt =>
      split at h
      . next hge => rw [if_neg (by rw [length_append]; omega), if_pos hge]
      . cases h

theorem Steady.span (n : Int) (e : ε) : Steady (span n e) := by
  intro bytes pos hpos hlen
  have h := Steady.upTo (wrap64 (pos + n)) e bytes pos hpos hlen
  exact ⟨h.ok, h.panic⟩

theorem Steady.ensure (n : Int) (e : ε) : Steady (ensure n e) := by
  intro bytes pos hpos _
  constructor
  . intro a pos' h
    unfold run Reader.ensure at h
    split at h
    . cases h
    . next hle =>
      cases h
      refine ⟨Nat.le_refl _, hpos, ?_⟩
      intro more _
      unfold run Reader.ensure
      rw [if_neg (by rw [length_append]; omega)]
  . intro h
    unfold run Reader.ensure at h
    split at h <;> cases h

theorem Steady.alloc (mem size n : Nat) : Steady (ε := ε) (alloc mem size n) := by
  intro bytes pos hpos _
  constructor
  . intro a pos' h
    have hsame : pos' = pos := by
      unfold run Reader.alloc at h
      split at h
      . cases h
        rfl
      . cases h
    subst hsame
    exact ⟨Nat.le_refl _, hpos, fun _ _ => h⟩
  . exact fun h _ _ => h

theorem steadyAt_fixed (h : pos + n ≤ bytes.length) : SteadyAt (ε := ε) (fixed n) bytes pos := by
  have hrun : ∀ more : Bytes, ∃ hlen, (fixed (ε := ε) n).run (bytes ++ more) pos = .ok (⟨(bytes.drop pos).take n, hlen⟩, pos + n) := by
    intro more
    refine ⟨by rw [length_take, length_drop]; omega, ?_⟩
    unfold run Reader.fixed
    rw [dif_pos (by rw [length_append]; omega), Ret.ok.injEq, Prod.mk.injEq]
    refine ⟨?_, rfl⟩
    apply Subtype.ext
    dsimp only
    rw [drop_append_of_le_length (by omega), take_append_of_le_length (by rw [length_drop]; omega)]
  rcases hrun [] with ⟨hlen, hself⟩
  rw [append_nil] at hself
  constructor
  . intro a pos' hok
    rw [hself] at hok
    cases hok
    refine ⟨Nat.le_add_right _ _, h, ?_⟩
    intro more _
    exact (hrun more).2
  . intro hpanic
    rw [hself] at hpanic
    cases hpanic

theorem run_fixed_of_le (h : pos + n ≤ bytes.length)
    : ∃ a : FixedBytes n, (fixed (ε := ε) n).run bytes pos = .ok (a, pos + n) ∧ a.val = (bytes.drop pos).take n := by
  unfold run Reader.fixed
  rw [dif_pos h]
  exact ⟨_, rfl, rfl⟩

theorem run_times_fixed (h : pos + size * n ≤ bytes.length)
    : ∃ as : List (FixedBytes size), (times n (fixed (ε := ε) size)).run bytes pos = .ok (as, pos + size * n) := by
  induction n generalizing pos with
  | zero => exact ⟨[], rfl⟩
  | succ n ih =>
    rw [Nat.mul_succ] at h
    have hfirst : pos + size ≤ bytes.length := by omega
    have hrest : pos + size + size * n ≤ bytes.length := by omega
    rcases run_fixed_of_le (ε := ε) hfirst with ⟨a, ha, -⟩
    rcases ih hrest with ⟨as, has⟩
    have hstop : pos + size * (n + 1) = pos + size + size * n := by
      rw [Nat.mul_succ]
      omega
    rw [hstop]
    exact ⟨a :: as, run_bind_eq_ok.mpr ⟨a, _, ha, run_bind_eq_ok.mpr ⟨as, _, has, rfl⟩⟩⟩

theorem steadyAt_times_fixed (h : pos + size * n ≤ bytes.length) (hlen : bytes.length ≤ maxAlloc)
    : SteadyAt (times n (fixed (ε := ε) size)) bytes pos := by
  induction n generalizing pos with
  | zero => exact Steady.pure [] bytes pos (by omega) hlen
  | succ n ih =>
    rw [Nat.mul_succ] at h
    have hfirst : pos + size ≤ bytes.length := by omega
    apply (steadyAt_fixed hfirst).bind
    intro a mid ha
    rcases run_fixed_of_le (ε := ε) hfirst with ⟨a', ha', -⟩
    rw [ha', Ret.ok.injEq, Prod.mk.injEq] at ha
    have hrest : mid + size * n ≤ bytes.length := by omega
    have hat := ih hrest
    apply hat.bind
    intro as stop has
    exact Steady.pure (a :: as) bytes stop (hat.ok has).2.1 hlen

def Misjudged (bytes : Bytes) (pos n : Nat) : Prop := wrap64 (pos + wrap64 n) ≤ bytes.length ∧ bytes.length < pos + n

theorem wrap64_add (x y : Int) : wrap64 (x + wrap64 y) = wrap64 (x + y) := by
  unfold wrap64
  rw [Int.add_bmod_bmod]

theorem wrap64_of_small (hpos : pos ≤ maxAlloc) (hn : n ≤ maxAlloc) : wrap64 (pos + wrap64 n) = pos + n := by
  unfold maxAlloc at hpos hn
  rw [wrap64_add, wrap64_of_lt (by omega) (by omega)]

theorem not_misjudged_of_small (hpos : pos ≤ maxAlloc) (hn : n ≤ maxAlloc) : ¬ Misjudged bytes pos n := by
  rintro ⟨hle, hlt⟩
  rw [wrap64_of_small hpos hn] at hle
  omega

theorem run_upTo_of_lt {stop : Int} (h : bytes.length < stop) (e : ε) : (upTo stop e).run bytes pos = .error e := if_pos h

theorem run_upTo_eq_panic {stop : Int} {e : ε}
    : (upTo stop e).run bytes pos = .panic ↔ ¬ bytes.length < stop ∧ stop < pos := by
  unfold run Reader.upTo
  split
  . next h => simp [h]
  . next h =>
    split
    . next h' => simp [h, h']
    . next h' => simp [h, h']

theorem run_ensure_items (size n : Nat) (e : ε) (bytes : Bytes) (pos : Nat)
    : (ensure (wrap64 (wrap64 n * size)) e).run bytes pos =
        if bytes.length < wrap64 (pos + wrap64 (size * n : Nat)) then .error e else .ok ((), pos) := by
  rw [run_ensure, wrap64_mul, Nat.cast_mul, mul_comm (n : Int)]

def posOf (bytes bs : Bytes) : Nat := bytes.length - bs.length

section Suffix

variable {bytes bs : Bytes} (hbs : bs <:+ bytes)

include hbs

theorem drop_posOf : bytes.drop (posOf bytes bs) = bs := (suffix_iff_eq_drop.mp hbs).symm

theorem posOf_add : posOf bytes bs + bs.length = bytes.length := Nat.sub_add_cancel hbs.length_le

theorem posOf_drop {n : Nat} (hn : n ≤ bs.length) : posOf bytes (bs.drop n) = posOf bytes bs + n := by
  have hle := hbs.length_le
  unfold posOf
  rw [length_drop]
  omega

theorem run_number_of_none (h : uvarint bs 0 0 = none) (e : ε) : (number e).run bytes (posOf bytes bs) = .error e := by
  unfold run number
  rw [drop_posOf hbs, h]

theorem run_number_of_some {x : Nat} {rest : Bytes} (h : uvarint bs 0 0 = some (x, rest)) (e : ε)
    : (number e).run bytes (posOf bytes bs) = .ok (x, posOf bytes rest) := by
  unfold run number
  rw [drop_posOf hbs, h]
  rfl

variable {mem : Nat} (hmem : mem ≤ maxAlloc) (hlen : bytes.length ≤ mem)

include hmem hlen

theorem run_span_of_fits {n : Nat} (hn : n ≤ bs.length) (e : ε)
    : (span (wrap64 n) e).run bytes (posOf bytes bs) = .ok (bs.take n, posOf bytes (bs.drop n)) := by
  have hend := posOf_add hbs
  have hwrap : wrap64 n = n := by
    unfold maxAlloc at hmem
    exact wrap64_of_lt (by omega) (by omega)
  rw [hwrap, run_span_of_le (by omega) (by omega), drop_posOf hbs, posOf_drop hbs hn]

omit hmem hlen in
theorem run_span_of_short {n : Nat} (hn : bs.length < n) (hlt : n < 2 ^ 64) (e : ε)
    : (Misjudged bytes (posOf bytes bs) n → (span (wrap64 n) e).run bytes (posOf bytes bs) = .panic) ∧
      (¬ Misjudged bytes (posOf bytes bs) n → (span (wrap64 n) e).run bytes (posOf bytes bs) = .error e) := by
  have hend := posOf_add hbs
  have hwrap := wrap64_eq (posOf bytes bs + n)
  rw [← wrap64_add] at hwrap
  unfold Misjudged
  rw [run_span, run_upTo_eq_panic]
  generalize wrap64 (posOf bytes bs + wrap64 n) = stop at hwrap
  constructor
  . rintro ⟨hle, -⟩
    split at hwrap <;> omega
  . intro hmis
    exact run_upTo_of_lt (by omega) e

theorem run_items_of_fits {size n : Nat} (hn : size * n ≤ bs.length) (e : ε)
    : ∃ as : List (FixedBytes size), (items mem size n e).run bytes (posOf bytes bs) = .ok (as, posOf bytes (bs.drop (size * n))) := by
  have hend := posOf_add hbs
  rcases run_times_fixed (ε := ε) (show posOf bytes bs + size * n ≤ bytes.length by omega) with ⟨as, has⟩
  have hensure := run_ensure_items size n e bytes (posOf bytes bs)
  rw [wrap64_of_small (by omega) (by omega), if_neg (by omega)] at hensure
  rw [← posOf_drop hbs hn] at has
  exact ⟨as, run_bind_eq_ok.mpr ⟨(), _, hensure, run_bind_eq_ok.mpr ⟨(), _, if_pos (by omega), has⟩⟩⟩

theorem run_items_of_short {size n : Nat} (hn : bs.length < size * n) (e : ε)
    : (Misjudged bytes (posOf bytes bs) (size * n) → (items mem size n e).run bytes (posOf bytes bs) = .panic) ∧
      (¬ Misjudged bytes (posOf bytes bs) (size * n) → (items mem size n e).run bytes (posOf bytes bs) = .error e) := by
  have hend := posOf_add hbs
  have hensure := run_ensure_items size n e bytes (posOf bytes bs)
  have hbig : Misjudged bytes (posOf bytes bs) (size * n) → ¬ size * n ≤ mem :=
    fun hmis hsmall => not_misjudged_of_small (by omega) (by omega) hmis
  unfold Misjudged at hbig ⊢
  generalize wrap64 (posOf bytes bs + wrap64 (size * n : Nat)) = stop at hensure hbig ⊢
  constructor
  . intro hmis
    rw [if_neg (by omega)] at hensure
    exact run_bind_eq_panic.mpr (.inr ⟨(), _, hensure, run_bind_eq_panic.mpr (.inl (if_neg (hbig hmis)))⟩)
  . intro hmis
    rw [if_pos (by omega)] at hensure
    exact run_bind_of_error hensure

end Suffix

theorem Steady.items (hmem : mem ≤ maxAlloc) (size n : Nat) (e : ε) : Steady (items mem size n e) := by
  intro bytes pos hpos hlen
  apply (Steady.ensure _ e bytes pos hpos hlen).bind
  intro _ mid hens
  rw [run_ensure_items] at hens
  split at hens
  . cases hens
  . next hle =>
    cases hens
    apply (Steady.alloc mem size n bytes pos hpos hlen).bind
    intro _ mid halloc
    unfold run Reader.alloc at halloc
    split at halloc
    . next hsmall =>
      cases halloc
      rw [wrap64_of_small (by omega) (hsmall.trans hmem)] at hle
      exact steadyAt_times_fixed (by omega) hlen
    . cases halloc

theorem length_flatMap_val (as : List (FixedBytes size)) : (as.flatMap (·.val)).length = size * as.length := by
  induction as with
  | nil => rfl
  | cons a as ih =>
    rw [flatMap_cons, length_append, ih, a.property, length_cons, Nat.mul_succ, Nat.add_comm]

theorem Reads.items (hmem : mem ≤ maxAlloc) {as : List (FixedBytes size)} (h : size * as.length ≤ mem) (e : ε)
    : Reads (items mem size as.length e) (as.flatMap (·.val)) as := by
  have hlen := length_flatMap_val as
  have hsize : wrap64 (wrap64 (as.length : Int) * size) = ((size * as.length : Nat) : Int) := by
    unfold maxAlloc at hmem
    rw [wrap64_mul, Nat.cast_mul, mul_comm (as.length : Int), ← Nat.cast_mul, wrap64_of_lt (by omega) (by omega)]
  unfold Reader.items
  rw [hsize]
  apply Reads.ensure (by omega)
  rw [← nil_append (as.flatMap (·.val))]
  exact (Reads.alloc h).bind (Reads.times (fun a _ => Reads.fixed a))

theorem Steady.refuses (hf : Steady f) (hreads : Reads f part a)
    (hlen : part.length ≤ maxAlloc) {cut : Bytes} (hcut : cut <+: part) (hne : cut ≠ part) : ∃ e, f.run cut 0 = .error e := by
  rcases hcut with ⟨more, rfl⟩
  have hmore : more ≠ [] := by
    rintro rfl
    exact hne (append_nil cut).symm
  have hall : f.run (cut ++ more) 0 = .ok (a, (cut ++ more).length) := by
    have := hreads [] [] (by simpa using hlen)
    simpa using this
  have hcutlen : cut.length ≤ maxAlloc := by
    rw [length_append] at hlen
    omega
  cases hrun : f.run cut 0 with
  | error e => exact ⟨e, rfl⟩
  | panic =>
    have hpanic := (hf cut 0 (Nat.zero_le _) hcutlen).panic hrun more hlen
    rw [hall] at hpanic
    cases hpanic
  | ok p =>
    rcases (hf cut 0 (Nat.zero_le _) hcutlen).ok hrun with ⟨-, hle, hsame⟩
    have hsame := hsame more hlen
    rw [hall, Ret.ok.injEq, Prod.mk.injEq, length_append] at hsame
    have hpos := length_pos_iff.mpr hmore
    omega

end Reader
