import EpochDB.Store.Receipts.RoundTrip

/-!
What `decodeTxReceipt` makes of a row of any content. The decoder compares the sum of its position and
a length the row claims with the end of the row, in 64 bit arithmetic; a sum that wraps passes the check,
and the slice or the allocation behind it stops the process.
-/

namespace EpochDB.Store.Receipts

open Reader

def Safe (bytes : Bytes) : Ret String TxReceipt → Prop
  | .ok r => ∀ l ∈ r.logs, l.address.val <:+: bytes ∧ (∀ t ∈ l.topics, t.val <:+: bytes) ∧ l.data <:+: bytes
  | .error _ => True
  | .panic => False

/-- A length that a row claims, and how many bytes of the row are left for it. -/
structure Claim where
  need : Nat
  left : Nat

def Claim.Misjudged (bytes : Bytes) (c : Claim) : Prop := Reader.Misjudged bytes (bytes.length - c.left) c.need

/--
The log in front of `bs` with all lengths taken as they are: what it claims, and the bytes behind it if it is
whole.
-/
def parseLog (bs : Bytes) : List Claim × Option Bytes :=
  if bs.length < 20 then
    ([], none)
  else
    match uvarint (bs.drop 20) 0 0 with
    | none => ([], none)
    | some (nt, bs) =>
      if bs.length < 32 * nt then
        ([⟨32 * nt, bs.length⟩], none)
      else
        match uvarint (bs.drop (32 * nt)) 0 0 with
        | none => ([⟨32 * nt, bs.length⟩], none)
        | some (dl, bs') => ([⟨32 * nt, bs.length⟩, ⟨dl, bs'.length⟩], if bs'.length < dl then none else some (bs'.drop dl))

def parseLogs (n : Nat) (bs : Bytes) : List Claim :=
  match n with
  | 0 => []
  | n + 1 =>
    match parseLog bs with
    | (claims, none) => claims
    | (claims, some rest) => claims ++ parseLogs n rest

def logCount (bytes : Bytes) : Option (Nat × Bytes) := do
  let (_, bs) ← uvarint bytes 0 0
  let (_, bs) ← uvarint bs 0 0
  let (_, bs) ← uvarint bs 0 0
  uvarint bs 0 0

def CountsInRange (mem : Nat) (bytes : Bytes) : Prop :=
  ∀ n rest, logCount bytes = some (n, rest) →
    storedLogSize * n ≤ mem ∧ ∀ c ∈ parseLogs n rest, ¬ c.Misjudged bytes

theorem Claim.not_misjudged {bytes bs : Bytes} (hbs : bs <:+ bytes) {n : Nat} (hn : n ≤ bs.length)
    : ¬ Claim.Misjudged bytes ⟨n, bs.length⟩ := by
  have hend := posOf_add hbs
  unfold posOf at hend
  rintro ⟨-, hlt⟩
  dsimp only at hlt
  omega

/-- What the decoder makes of a log, against what the log is. -/
inductive Follows {α : Type} (bytes : Bytes) (log : List Claim × Option Bytes) : Ret String (α × Nat) → Prop where
  | panic (c : Claim) (hc : c ∈ log.1) (hmis : c.Misjudged bytes) : Follows bytes log .panic
  | error (e : String) (hlog : log.2 = none) (hin : ∀ c ∈ log.1, ¬ c.Misjudged bytes) : Follows bytes log (.error e)
  | ok (a : α) (rest : Bytes) (hlog : log.2 = some rest) (hrest : rest <:+ bytes) (hin : ∀ c ∈ log.1, ¬ c.Misjudged bytes)
    : Follows bytes log (.ok (a, posOf bytes rest))

theorem run_next_of_none {bytes bs : Bytes} (hbs : bs <:+ bytes) (h : uvarint bs 0 0 = none) (what : String)
    : (next what).run bytes (posOf bytes bs) = .error s!"tx receipt: bad {what}" := run_number_of_none hbs h _

theorem run_next_of_some {bytes bs rest : Bytes} (hbs : bs <:+ bytes) {x : Nat} (h : uvarint bs 0 0 = some (x, rest)) (what : String)
    : (next what).run bytes (posOf bytes bs) = .ok (x, posOf bytes rest) := run_number_of_some hbs h _

section Parse

variable {mem : Nat} (hmem : mem ≤ maxAlloc) {bytes : Bytes} (hlen : bytes.length ≤ mem)

include hmem hlen

theorem run_decodeAddr_of_short {bs : Bytes} (hbs : bs <:+ bytes) (hshort : bs.length < 20)
    : decodeAddr.run bytes (posOf bytes bs) = .error "tx receipt: truncated addr" := by
  have hend := posOf_add hbs
  have hensure := run_ensure 20 "tx receipt: truncated addr" bytes (posOf bytes bs)
  unfold maxAlloc at hmem
  rw [wrap64_of_lt (by omega) (by omega), if_pos (by omega)] at hensure
  exact run_bind_of_error hensure

theorem run_decodeAddr_of_fits {bs : Bytes} (hbs : bs <:+ bytes) (hfits : 20 ≤ bs.length)
    : ∃ a, decodeAddr.run bytes (posOf bytes bs) = .ok (a, posOf bytes (bs.drop 20)) := by
  have hend := posOf_add hbs
  have hensure := run_ensure 20 "tx receipt: truncated addr" bytes (posOf bytes bs)
  unfold maxAlloc at hmem
  rw [wrap64_of_lt (by omega) (by omega), if_neg (by omega)] at hensure
  rcases run_fixed_of_le (ε := String) (show posOf bytes bs + 20 ≤ bytes.length by omega) with ⟨a, ha, -⟩
  rw [← posOf_drop hbs hfits] at ha
  exact ⟨a, run_bind_eq_ok.mpr ⟨(), _, hensure, ha⟩⟩

theorem follows_decodeLog {bs : Bytes} (hbs : bs <:+ bytes)
    : Follows bytes (parseLog bs) ((decodeLog mem).run bytes (posOf bytes bs)) := by
  unfold parseLog decodeLog
  -- field by field: one that is cut off is an error, or a panic where the sum wraps
  by_cases hshort : bs.length < 20
  . rw [if_pos hshort, run_bind_of_error (run_decodeAddr_of_short hmem hlen hbs hshort)]
    exact .error _ rfl (by simp)
  rcases run_decodeAddr_of_fits hmem hlen hbs (Nat.not_lt.mp hshort) with ⟨address, haddr⟩
  have hcount : bs.drop 20 <:+ bytes := (List.drop_suffix 20 bs).trans hbs
  rw [if_neg hshort, run_bind_of_ok haddr]
  cases hnt : uvarint (bs.drop 20) 0 0 with
  | none =>
    rw [run_bind_of_error (run_next_of_none hcount hnt _)]
    exact .error _ rfl (by simp)
  | some r =>
    rcases r with ⟨nt, ts⟩
    have hts : ts <:+ bytes := (isSuffix_of_uvarint hnt).trans hcount
    rw [run_bind_of_ok (run_next_of_some hcount hnt _)]
    dsimp only
    by_cases hroom : ts.length < 32 * nt
    . rcases run_items_of_short hts hmem hlen hroom "tx receipt: truncated topics" with ⟨hpanic, herror⟩
      rw [if_pos hroom]
      by_cases hmis : Claim.Misjudged bytes ⟨32 * nt, ts.length⟩
      . rw [run_bind_of_panic (hpanic hmis)]
        exact .panic _ (List.mem_singleton_self _) hmis
      . rw [run_bind_of_error (herror hmis)]
        exact .error _ rfl (by simpa using hmis)
    have hclaim : ¬ Claim.Misjudged bytes ⟨32 * nt, ts.length⟩ := Claim.not_misjudged hts (Nat.not_lt.mp hroom)
    have hdata : ts.drop (32 * nt) <:+ bytes := (List.drop_suffix _ ts).trans hts
    rcases run_items_of_fits hts hmem hlen (Nat.not_lt.mp hroom) "tx receipt: truncated topics" with ⟨topics, hitems⟩
    rw [if_neg hroom, run_bind_of_ok hitems]
    cases hdl : uvarint (ts.drop (32 * nt)) 0 0 with
    | none =>
      rw [run_bind_of_error (run_next_of_none hdata hdl _)]
      exact .error _ rfl (by simpa using hclaim)
    | some r =>
      rcases r with ⟨dl, ds⟩
      have hds : ds <:+ bytes := (isSuffix_of_uvarint hdl).trans hdata
      have hlt : dl < 2 ^ 64 := uvarint_lt hdl (by simp) (by omega)
      rw [run_bind_of_ok (run_next_of_some hdata hdl _)]
      dsimp only
      by_cases hfit : ds.length < dl
      . rcases run_span_of_short hds hfit hlt "tx receipt: truncated data" with ⟨hpanic, herror⟩
        rw [if_pos hfit]
        by_cases hmis : Claim.Misjudged bytes ⟨dl, ds.length⟩
        . rw [run_bind_of_panic (hpanic hmis)]
          exact .panic ⟨dl, ds.length⟩ (by simp) hmis
        . rw [run_bind_of_error (herror hmis)]
          exact .error _ rfl (by simpa using ⟨hclaim, hmis⟩)
      have hlast : ¬ Claim.Misjudged bytes ⟨dl, ds.length⟩ := Claim.not_misjudged hds (Nat.not_lt.mp hfit)
      rw [if_neg hfit, run_bind_of_ok (run_span_of_fits hds hmem hlen (Nat.not_lt.mp hfit) _)]
      exact .ok _ _ rfl ((List.drop_suffix _ ds).trans hds) (by simpa using ⟨hclaim, hlast⟩)

theorem times_decodeLog_eq_panic {n : Nat} {bs : Bytes} (hbs : bs <:+ bytes)
    : (times n (decodeLog mem)).run bytes (posOf bytes bs) = .panic ↔ ∃ c ∈ parseLogs n bs, c.Misjudged bytes := by
  induction n generalizing bs with
  | zero => exact ⟨fun h => (by cases h), fun h => (by simp [parseLogs] at h)⟩
  | succ n ih =>
    have hlog := follows_decodeLog hmem hlen hbs
    unfold times parseLogs
    generalize hrun : (decodeLog mem).run bytes (posOf bytes bs) = r at hlog
    generalize parseLog bs = log at hlog ⊢
    rcases log with ⟨claims, rest⟩
    cases hlog with
    | panic c hc hmis =>
      rw [run_bind_of_panic hrun]
      cases rest with
      | none => exact ⟨fun _ => ⟨c, hc, hmis⟩, fun _ => rfl⟩
      | some rest => exact ⟨fun _ => ⟨c, List.mem_append_left _ hc, hmis⟩, fun _ => rfl⟩
    | error e hlog hin =>
      cases hlog
      rw [run_bind_of_error hrun]
      exact ⟨fun h => (by cases h), fun ⟨c, hc, hmis⟩ => absurd hmis (hin c hc)⟩
    | ok l rest hlog hrest hin =>
      cases hlog
      rw [run_bind_of_ok hrun, run_bind_eq_panic, ih hrest]
      constructor
      . rintro (⟨c, hc, hmis⟩ | ⟨logs, q, -, h⟩)
        . exact ⟨c, List.mem_append_right _ hc, hmis⟩
        . cases h
      . rintro ⟨c, hc, hmis⟩
        rcases List.mem_append.mp hc with hc | hc
        . exact absurd hmis (hin c hc)
        . exact .inl ⟨c, hc, hmis⟩

omit hmem hlen in
theorem run_decodeHead_of_none (h : logCount bytes = none) : ∃ e, decodeHead.run bytes (posOf bytes bytes) = .error e := by
  have hs := List.suffix_refl bytes
  unfold logCount at h
  unfold decodeHead
  cases h₁ : uvarint bytes 0 0 with
  | none => exact ⟨_, run_bind_of_error (run_next_of_none hs h₁ _)⟩
  | some r₁ =>
    have hs₁ := (isSuffix_of_uvarint h₁).trans hs
    rw [run_bind_of_ok (run_next_of_some hs h₁ _)]
    cases h₂ : uvarint r₁.2 0 0 with
    | none => exact ⟨_, run_bind_of_error (run_next_of_none hs₁ h₂ _)⟩
    | some r₂ =>
      have hs₂ := (isSuffix_of_uvarint h₂).trans hs₁
      rw [run_bind_of_ok (run_next_of_some hs₁ h₂ _)]
      cases h₃ : uvarint r₂.2 0 0 with
      | none => exact ⟨_, run_bind_of_error (run_next_of_none hs₂ h₃ _)⟩
      | some r₃ =>
        have hs₃ := (isSuffix_of_uvarint h₃).trans hs₂
        have h₄ : uvarint r₃.2 0 0 = none := by simpa [h₁, h₂, h₃] using h
        rw [run_bind_of_ok (run_next_of_some hs₂ h₃ _)]
        exact ⟨_, run_bind_of_error (run_next_of_none hs₃ h₄ _)⟩

omit hmem hlen in
theorem run_decodeHead_of_some {n : Nat} {rest : Bytes} (h : logCount bytes = some (n, rest))
    : rest <:+ bytes ∧ ∃ head, head.count = n ∧ decodeHead.run bytes (posOf bytes bytes) = .ok (head, posOf bytes rest) := by
  have hs := List.suffix_refl bytes
  unfold logCount at h
  simp only [Option.bind_eq_bind, Option.bind_eq_some_iff] at h
  rcases h with ⟨r₁, h₁, r₂, h₂, r₃, h₃, h₄⟩
  have hs₁ := (isSuffix_of_uvarint h₁).trans hs
  have hs₂ := (isSuffix_of_uvarint h₂).trans hs₁
  have hs₃ := (isSuffix_of_uvarint h₃).trans hs₂
  refine ⟨(isSuffix_of_uvarint h₄).trans hs₃, ⟨UInt64.ofNat r₁.1, UInt64.ofNat r₂.1, UInt64.ofNat r₃.1, n⟩, rfl, ?_⟩
  unfold decodeHead
  rw [run_bind_of_ok (run_next_of_some hs h₁ _), run_bind_of_ok (run_next_of_some hs₁ h₂ _),
    run_bind_of_ok (run_next_of_some hs₂ h₃ _), run_bind_of_ok (run_next_of_some hs₃ h₄ _)]
  rfl

theorem decodeTxReceipt_eq_panic : decodeTxReceipt mem bytes = .panic ↔ ¬ CountsInRange mem bytes := by
  have hstart : posOf bytes bytes = 0 := Nat.sub_self _
  have hread : decodeTxReceipt mem bytes = .panic ↔ (readTxReceipt mem).run bytes (posOf bytes bytes) = .panic := by
    rw [hstart]
    unfold decodeTxReceipt
    cases (readTxReceipt mem).run bytes 0 <;> simp
  rw [hread]
  unfold readTxReceipt CountsInRange
  cases hcount : logCount bytes with
  | none =>
    rcases run_decodeHead_of_none hcount with ⟨e, he⟩
    rw [run_bind_of_error he]
    simp
  | some r =>
    rcases r with ⟨n, rest⟩
    rcases run_decodeHead_of_some hcount with ⟨hrest, head, rfl, hhead⟩
    rw [run_bind_of_ok hhead]
    by_cases hroom : storedLogSize * head.count ≤ mem
    . have halloc : (alloc (ε := String) mem storedLogSize head.count).run bytes (posOf bytes rest) = .ok ((), posOf bytes rest) :=
        if_pos hroom
      rw [run_bind_of_ok halloc, run_bind_eq_panic, times_decodeLog_eq_panic hmem hlen hrest]
      constructor
      . rintro (⟨c, hc, hmis⟩ | ⟨logs, q, -, h⟩) hin
        . exact (hin _ _ rfl).2 c hc hmis
        . cases h
      . intro hnot
        left
        by_contra hnone
        apply hnot
        rintro n rest' hsome
        cases hsome
        exact ⟨hroom, fun c hc hmis => hnone ⟨c, hc, hmis⟩⟩
    . have halloc : (alloc (ε := String) mem storedLogSize head.count).run bytes (posOf bytes rest) = .panic := if_neg hroom
      rw [run_bind_of_panic halloc]
      exact ⟨fun _ hin => hroom (hin _ _ rfl).1, fun _ => rfl⟩

end Parse

theorem infix_drop_take (bytes : Bytes) (i n : Nat) : (bytes.drop i).take n <:+: bytes :=
  (List.take_prefix n _).isInfix.trans (List.drop_suffix i bytes).isInfix

theorem fixed_infix {n pos pos' : Nat} {bytes : Bytes} {a : FixedBytes n} (h : (fixed (ε := String) n).run bytes pos = .ok (a, pos'))
    : a.val <:+: bytes := by
  unfold run fixed at h
  split at h
  . cases h
    exact infix_drop_take bytes pos n
  . cases h

theorem span_infix {n : Int} {e : String} {pos pos' : Nat} {bytes data : Bytes} (h : (span n e).run bytes pos = .ok (data, pos'))
    : data <:+: bytes := by
  rw [run_span] at h
  unfold run upTo at h
  split at h
  . cases h
  . split at h
    . cases h
    . cases h
      exact infix_drop_take bytes pos _

theorem decodeLog_infix {bytes : Bytes} {pos pos' : Nat} {l : StoredLog} {mem : Nat}
    (h : (decodeLog mem).run bytes pos = .ok (l, pos'))
    : l.address.val <:+: bytes ∧ (∀ t ∈ l.topics, t.val <:+: bytes) ∧ l.data <:+: bytes := by
  unfold decodeLog at h
  rcases run_bind_eq_ok.mp h with ⟨address, p, haddr, h⟩
  rcases run_bind_eq_ok.mp h with ⟨nt, q, -, h⟩
  rcases run_bind_eq_ok.mp h with ⟨topics, r, hitems, h⟩
  rcases run_bind_eq_ok.mp h with ⟨dl, s, -, h⟩
  rcases run_bind_eq_ok.mp h with ⟨data, u, hspan, h⟩
  cases h
  refine ⟨?_, ?_, span_infix hspan⟩
  . rcases run_bind_eq_ok.mp haddr with ⟨_, mid, -, hfixed⟩
    exact fixed_infix hfixed
  . intro t ht
    rcases run_bind_eq_ok.mp hitems with ⟨_, mid, -, hitems⟩
    rcases run_bind_eq_ok.mp hitems with ⟨_, mid', -, htimes⟩
    rcases mem_of_times htimes ht with ⟨i, j, hfixed⟩
    exact fixed_infix hfixed

theorem safe_of_ne_panic {mem : Nat} {bytes : Bytes} (h : decodeTxReceipt mem bytes ≠ .panic)
    : Safe bytes (decodeTxReceipt mem bytes) := by
  cases hres : decodeTxReceipt mem bytes with
  | error e => trivial
  | panic => exact absurd hres h
  | ok r =>
    intro l hl
    unfold decodeTxReceipt at hres
    split at hres
    . next r' pos hread =>
      cases hres
      rcases run_bind_eq_ok.mp hread with ⟨head, p, -, hread⟩
      rcases run_bind_eq_ok.mp hread with ⟨_, q, -, hread⟩
      rcases run_bind_eq_ok.mp hread with ⟨logs, s, htimes, hread⟩
      cases hread
      rcases mem_of_times htimes hl with ⟨i, j, hlog⟩
      exact decodeLog_infix hlog
    . cases hres
    . cases hres

/--
Decoding a row of any content ends with an error or a receipt taken from the row, where no count or
length it claims is out of range. Everywhere else it stops the process.
-/
theorem safe_decodeTxReceipt_iff (mem : Nat) (hmem : mem ≤ maxAlloc) (bytes : Bytes) (hlen : bytes.length ≤ mem)
    : Safe bytes (decodeTxReceipt mem bytes) ↔ CountsInRange mem bytes := by
  constructor
  . intro hsafe
    by_contra hnot
    rw [(decodeTxReceipt_eq_panic hmem hlen).mpr hnot] at hsafe
    exact hsafe
  . intro hin
    apply safe_of_ne_panic
    intro hpanic
    exact (decodeTxReceipt_eq_panic hmem hlen).mp hpanic hin

def tornTopics : Bytes := [0, 0, 0, 1] ++ List.replicate 20 0 ++ [3]

theorem countsInRange_tornTopics
    : decodeTxReceipt 1024 tornTopics = .error "tx receipt: truncated topics" ∧ CountsInRange 1024 tornTopics := by
  have herr : decodeTxReceipt 1024 tornTopics = .error "tx receipt: truncated topics" := by decide +kernel
  have hsafe : Safe tornTopics (decodeTxReceipt 1024 tornTopics) := by
    rw [herr]
    trivial
  exact ⟨herr, (safe_decodeTxReceipt_iff 1024 (by decide) tornTopics (by decide)).mp hsafe⟩

def hugeCount : Bytes := [0, 0, 0, 0xff, 0xff, 0xff, 0xff, 0xff, 0xff, 0xff, 0xff, 0xff, 1]

def largeCount : Bytes := [0, 0, 0, 0xb3, 0xe6, 0xcc, 0x99, 0xb3, 0x66]

def hugeTopics : Bytes := [0, 0, 0, 1] ++ List.replicate 20 0 ++ [0x80, 0x80, 0x80, 0x80, 0x80, 0x80, 0x80, 0x80, 8]

def hugeData : Bytes := [0, 0, 0, 1] ++ List.replicate 20 0 ++ [0, 0x80, 0x80, 0x80, 0x80, 0x80, 0x80, 0x80, 0x80, 0x80, 1]

/-- With all of the address space as memory and, for the last row, with a terabyte of it. -/
theorem decodeTxReceipt_panics
    : (∀ bytes ∈ [hugeCount, hugeTopics, hugeData], decodeTxReceipt maxAlloc bytes = .panic) ∧
      decodeTxReceipt (2 ^ 40) largeCount = .panic := by
  decide +kernel

end EpochDB.Store.Receipts
