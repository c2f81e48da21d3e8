import EpochDB.Lib.Reader
import EpochDB.Lib.Transition

/-!
The misc store (`store/ethdb.go`): a map in memory and the log of its changes. A record is an operation byte,
the key and, for a put, the value, each field with its length in front of it.
-/

namespace EpochDB.Store.Misc

open List

structure Slice where
  bytes : Bytes
  small : bytes.length ≤ maxAlloc

inductive ReadErr where
  | eof
  | overflow
  deriving DecidableEq, Repr

def ReadErr.text : ReadErr → String
  | .eof => "unexpected EOF"
  | .overflow => "binary: varint overflows a 64-bit integer"

def cleanEOF : ReadErr → Bool
  | .eof => true
  | .overflow => false

def readUvarint (bytes : Bytes) : Except ReadErr (Nat × Bytes) :=
  match uvarint bytes 0 0 with
  | some r => .ok r
  | none => if bytes.length < 10 ∧ ∀ b ∈ bytes, 128 ≤ b.toNat then .error .eof else .error .overflow

def uvarintLen (x : Nat) : Nat := (appendUvarint x).length

def readField (bytes : Bytes) : Ret ReadErr (Bytes × Bytes) :=
  match readUvarint bytes with
  | .error e => .error e
  | .ok (n, bytes) =>
    if maxAlloc < n then
      .panic
    else if bytes.length < n then
      .error .eof
    else
      .ok (bytes.take n, bytes.drop n)

structure MiscRecord where
  stop : Nat
  op : UInt8
  k : Bytes
  v : Bytes

def readMiscRecord (pos : Nat) (bytes : Bytes) : Ret ReadErr (MiscRecord × Bytes) :=
  match bytes with
  | [] => .error .eof
  | op :: bytes =>
    match readField bytes with
    | .panic => .panic
    | .error e => .error e
    | .ok (k, bytes) =>
      let stop := pos + 1 + uvarintLen k.length + k.length
      if op = 1 then
        .ok (⟨stop, op, k, []⟩, bytes)
      else
        match readField bytes with
        | .panic => .panic
        | .error e => .error e
        | .ok (v, bytes) => .ok (⟨stop + uvarintLen v.length + v.length, op, k, v⟩, bytes)

structure MiscStore where
  file : Bytes
  m : Bytes → Option Bytes
  last : Nat

def replay (fuel pos : Nat) (bytes : Bytes) (m : Bytes → Option Bytes) : Ret String ((Bytes → Option Bytes) × Nat) :=
  match fuel with
  | 0 => .ok (m, pos)
  | fuel + 1 =>
    match readMiscRecord pos bytes with
    | .panic => .panic
    | .error e => if cleanEOF e then .ok (m, pos) else .error s!"misc.log: read record at {pos}: {e.text}"
    | .ok (r, bytes) => replay fuel r.stop bytes (Function.update m r.k (if r.op = 0 then some r.v else none))

def openMisc (file : Bytes) : Ret String MiscStore :=
  match replay (file.length + 1) 0 file (fun _ => none) with
  | .panic => .panic
  | .error e => .error e
  | .ok (m, pos) => .ok ⟨file.take pos, m, pos⟩

inductive Write where
  | done
  | failed (n : Nat) (e : String)

namespace MiscStore

variable (s : MiscStore)

def get (key : Bytes) : Option Bytes := s.m key

def append (buf : Bytes) (m : Bytes → Option Bytes) (w : Write) : MiscStore × Except String Unit :=
  match w with
  | .done => (⟨s.file ++ buf, m, s.file.length + buf.length⟩, .ok ())
  | .failed n e => (⟨s.file ++ buf.take n, s.m, s.last⟩, .error s!"misc.log write: {e}")

def field (b : Bytes) : Bytes := appendUvarint b.length ++ b

def putRecord (key value : Bytes) : Bytes := 0 :: (field key ++ field value)

def deleteRecord (key : Bytes) : Bytes := 1 :: field key

def put (key value : Slice) (w : Write) : MiscStore × Except String Unit :=
  if s.m key.bytes = some value.bytes then
    (s, .ok ())
  else
    s.append (putRecord key.bytes value.bytes) (Function.update s.m key.bytes (some value.bytes)) w

def delete (key : Slice) (w : Write) : MiscStore × Except String Unit :=
  if s.m key.bytes = none then
    (s, .ok ())
  else
    s.append (deleteRecord key.bytes) (Function.update s.m key.bytes none) w

end MiscStore

inductive Event where
  | put (key value : Slice) (w : Write)
  | delete (key : Slice) (w : Write)
  | reopen (cut : Nat)

def step (s : MiscStore) (e : Event) : Option MiscStore :=
  match e with
  | .put key value w => some (s.put key value w).1
  | .delete key w => some (s.delete key w).1
  | .reopen cut =>
    if s.last ≤ cut then
      match openMisc (s.file.take cut) with
      | .ok s' => some s'
      | _ => none
    else
      none

def fresh : MiscStore := ⟨[], fun _ => none, 0⟩

def Fits (s : MiscStore) (buf : Bytes) (w : Write) : Prop :=
  match w with
  | .done => s.file.length = s.last
  | .failed n _ => n = 0 ∨ s.file.length = s.last ∧ n < buf.length

def Mended (s : MiscStore) (e : Event) : Prop :=
  match e with
  | .put key value w => s.m key.bytes = some value.bytes ∨ Fits s (MiscStore.putRecord key.bytes value.bytes) w
  | .delete key w => s.m key.bytes = none ∨ Fits s (MiscStore.deleteRecord key.bytes) w
  | .reopen _ => True

instance decidableFits (s : MiscStore) (buf : Bytes) (w : Write) : Decidable (Fits s buf w) :=
  match w with
  | .done => inferInstanceAs (Decidable (_ = _))
  | .failed _ _ => inferInstanceAs (Decidable (_ ∨ _ ∧ _))

instance decidableMended (s : MiscStore) (e : Event) : Decidable (Mended s e) :=
  match e with
  | .put _ _ _ => inferInstanceAs (Decidable (_ ∨ _))
  | .delete _ _ => inferInstanceAs (Decidable (_ ∨ _))
  | .reopen _ => inferInstanceAs (Decidable True)

def Replays (s : MiscStore) : Prop :=
  ∀ cut, s.last ≤ cut → ∃ s', openMisc (s.file.take cut) = .ok s' ∧ s'.get = s.get

theorem readUvarint_appendUvarint {x : Nat} (hx : x ≤ maxAlloc) (rest : Bytes) : readUvarint (appendUvarint x ++ rest) = .ok (x, rest) := by
  have hmax : maxAlloc < 2 ^ 64 := by decide
  have hread := uvarint_appendUvarint 0 0 (show x * 2 ^ (7 * 0) < 2 ^ 64 by omega) (by decide) rest
  unfold readUvarint
  rw [hread]
  simp

theorem readUvarint_take {x k : Nat} (hx : x ≤ maxAlloc) (hk : k < (appendUvarint x).length)
    : readUvarint ((appendUvarint x).take k) = .error .eof := by
  have hbytes := le_of_mem_take_appendUvarint hk
  have hlen : (appendUvarint x).length ≤ 10 := by
    apply length_appendUvarint_le
    . have hmax : maxAlloc < 2 ^ (7 * 10) := by decide
      omega
    . decide
  unfold readUvarint
  rw [uvarint_eq_none hbytes]
  dsimp only
  rw [if_pos]
  refine ⟨?_, hbytes⟩
  rw [length_take]
  omega

open MiscStore (field putRecord deleteRecord)

theorem readField_field (b : Slice) (rest : Bytes) : readField (field b.bytes ++ rest) = .ok (b.bytes, rest) := by
  have hsmall := b.small
  unfold readField field
  rw [append_assoc, readUvarint_appendUvarint hsmall]
  dsimp only
  rw [if_neg (by omega), if_neg (by simp), take_left, drop_left]

theorem readField_take (b : Slice) {k : Nat} (hk : k < (field b.bytes).length) : readField ((field b.bytes).take k) = .error .eof := by
  have hsmall := b.small
  unfold field at hk ⊢
  rw [length_append] at hk
  unfold readField
  rcases Nat.lt_or_ge k (appendUvarint b.bytes.length).length with hlt | hge
  . -- cut inside the length
    rw [take_append_of_le_length (Nat.le_of_lt hlt), readUvarint_take hsmall hlt]
  . -- cut inside the bytes
    rw [take_append, take_of_length_le hge, readUvarint_appendUvarint hsmall]
    dsimp only
    rw [if_neg (by omega), if_pos]
    rw [length_take]
    omega

inductive Record where
  | put (key value : Slice)
  | delete (key : Slice)

namespace Record

def encode : Record → Bytes
  | .put key value => putRecord key.bytes value.bytes
  | .delete key => deleteRecord key.bytes

def apply (m : Bytes → Option Bytes) : Record → Bytes → Option Bytes
  | .put key value => Function.update m key.bytes (some value.bytes)
  | .delete key => Function.update m key.bytes none

def read (pos : Nat) : Record → MiscRecord
  | .put key value => ⟨pos + (putRecord key.bytes value.bytes).length, 0, key.bytes, value.bytes⟩
  | .delete key => ⟨pos + (deleteRecord key.bytes).length, 1, key.bytes, []⟩

theorem length_pos (r : Record) : 0 < r.encode.length := by
  cases r with
  | put key value => exact Nat.succ_pos _
  | delete key => exact Nat.succ_pos _

theorem readMiscRecord_encode (r : Record) (pos : Nat) (rest : Bytes) : readMiscRecord pos (r.encode ++ rest) = .ok (r.read pos, rest) := by
  cases r with
  | put key value =>
    have hstop : pos + 1 + uvarintLen key.bytes.length + key.bytes.length + uvarintLen value.bytes.length + value.bytes.length =
        pos + (putRecord key.bytes value.bytes).length := by
      unfold putRecord field uvarintLen
      simp only [length_cons, length_append]
      omega
    simp only [encode, putRecord, cons_append, append_assoc, readMiscRecord, readField_field, Record.read]
    rw [if_neg (by decide), hstop]
    rfl
  | delete key =>
    have hstop : pos + 1 + uvarintLen key.bytes.length + key.bytes.length = pos + (deleteRecord key.bytes).length := by
      unfold deleteRecord field uvarintLen
      simp only [length_cons, length_append]
      omega
    simp only [encode, deleteRecord, cons_append, readMiscRecord, readField_field, Record.read, if_true]
    rw [hstop]
    rfl

theorem readMiscRecord_take (r : Record) (pos : Nat) {k : Nat} (hk : k < r.encode.length)
    : readMiscRecord pos (r.encode.take k) = .error .eof := by
  cases k with
  | zero => rfl
  | succ k =>
    cases r with
    | put key value =>
      simp only [encode, putRecord, length_cons, length_append] at hk
      simp only [encode, putRecord, take_succ_cons, readMiscRecord]
      rcases Nat.lt_or_ge k (field key.bytes).length with hlt | hge
      . rw [take_append_of_le_length (Nat.le_of_lt hlt), readField_take key hlt]
      . rw [take_append, take_of_length_le hge, readField_field]
        dsimp only
        rw [if_neg (by decide), readField_take value (by omega)]
    | delete key =>
      simp only [encode, deleteRecord, length_cons] at hk
      simp only [encode, deleteRecord, take_succ_cons, readMiscRecord]
      rw [readField_take key (by omega)]

end Record

theorem replay_encode (rs : List Record) (r : Record) {k : Nat} (hk : k < r.encode.length) {fuel : Nat} (hfuel : rs.length < fuel) (pos : Nat)
    (m : Bytes → Option Bytes)
    : replay fuel pos (rs.flatMap Record.encode ++ r.encode.take k) m =
        .ok (rs.foldl Record.apply m, pos + (rs.flatMap Record.encode).length) := by
  induction rs generalizing fuel pos m with
  | nil =>
    cases fuel with
    | zero => cases hfuel
    | succ fuel =>
      rw [flatMap_nil, nil_append, replay, r.readMiscRecord_take pos hk]
      rfl
  | cons r' rs ih =>
    cases fuel with
    | zero => cases hfuel
    | succ fuel =>
      rw [length_cons] at hfuel
      rw [flatMap_cons, append_assoc, replay, r'.readMiscRecord_encode]
      dsimp only
      rw [ih (by omega), foldl_cons, length_append]
      cases r' with
      | put key value =>
        simp only [Record.read, Record.apply, Record.encode, if_true, Nat.add_assoc]
      | delete key =>
        have hop : ¬ (1 : UInt8) = 0 := by decide
        simp only [Record.read, Record.apply, Record.encode, hop, if_false, Nat.add_assoc]

theorem length_le_length_flatMap (rs : List Record) : rs.length ≤ (rs.flatMap Record.encode).length := by
  induction rs with
  | nil => exact Nat.le_refl _
  | cons r rs ih =>
    have hr := r.length_pos
    rw [flatMap_cons, length_append, length_cons]
    omega

theorem openMisc_encode (rs : List Record) (r : Record) {k : Nat} (hk : k < r.encode.length)
    : openMisc (rs.flatMap Record.encode ++ r.encode.take k) =
        .ok ⟨rs.flatMap Record.encode, rs.foldl Record.apply (fun _ => none), (rs.flatMap Record.encode).length⟩ := by
  have hlen := length_le_length_flatMap rs
  unfold openMisc
  rw [replay_encode rs r hk (by rw [length_append]; omega)]
  dsimp only
  rw [Nat.zero_add, take_left]

def Logged (s : MiscStore) : Prop :=
  ∃ (rs : List Record) (r : Record) (k : Nat), k < r.encode.length ∧ s.file = rs.flatMap Record.encode ++ r.encode.take k ∧
    s.last = (rs.flatMap Record.encode).length ∧ s.m = rs.foldl Record.apply (fun _ => none)

theorem logged_fresh : Logged fresh := ⟨[], .delete ⟨[], Nat.zero_le _⟩, 0, Record.length_pos _, rfl, rfl, rfl⟩

theorem Logged.whole {s : MiscStore} (h : Logged s) (hlast : s.file.length = s.last)
    : ∃ rs : List Record, s.file = rs.flatMap Record.encode ∧ s.m = rs.foldl Record.apply (fun _ => none) := by
  rcases h with ⟨rs, r, k, hk, hfile, hend, hm⟩
  have hlen := congrArg List.length hfile
  rw [length_append, length_take, hlast, hend] at hlen
  have hzero : k = 0 := by omega
  rw [hzero, take_zero, append_nil] at hfile
  exact ⟨rs, hfile, hm⟩

theorem Logged.append {s : MiscStore} (h : Logged s) (r : Record) {w : Write} (hw : Fits s r.encode w)
    : Logged (s.append r.encode (r.apply s.m) w).1 := by
  cases w with
  | done =>
    rcases h.whole hw with ⟨rs, hfile, hm⟩
    refine ⟨rs ++ [r], r, 0, r.length_pos, ?_, ?_, ?_⟩
    . simp [MiscStore.append, hfile]
    . simp [MiscStore.append, hfile]
    . simp [MiscStore.append, hm]
  | failed n e =>
    rcases hw with hzero | ⟨hlast, hn⟩
    . rcases h with ⟨rs, r', k, hk, hfile, hend, hm⟩
      refine ⟨rs, r', k, hk, ?_, hend, hm⟩
      simp [MiscStore.append, hzero, hfile]
    . rcases h.whole hlast with ⟨rs, hfile, hm⟩
      refine ⟨rs, r, n, hn, ?_, ?_, hm⟩
      . simp [MiscStore.append, hfile]
      . rw [← hfile]
        exact hlast.symm

theorem Logged.openMisc {s : MiscStore} (h : Logged s) {cut : Nat} (hcut : s.last ≤ cut)
    : Misc.openMisc (s.file.take cut) = .ok ⟨s.file.take s.last, s.m, s.last⟩ := by
  rcases h with ⟨rs, r, k, hk, hfile, hend, hm⟩
  have htake : s.file.take cut = rs.flatMap Record.encode ++ r.encode.take (min (cut - s.last) k) := by
    rw [hfile, take_append, take_of_length_le (by omega), take_take, hend]
  rw [htake, openMisc_encode rs r (by omega), hend, hm, hfile, take_left]

theorem Logged.step {s s' : MiscStore} {e : Event} (h : Logged s) (he : Mended s e) (hs : Misc.step s e = some s') : Logged s' := by
  cases e with
  | put key value w =>
    cases hs
    unfold MiscStore.put
    split
    . exact h
    . next hne => exact h.append (.put key value) (he.resolve_left hne)
  | delete key w =>
    cases hs
    unfold MiscStore.delete
    split
    . exact h
    . next hne => exact h.append (.delete key) (he.resolve_left hne)
  | reopen cut =>
    unfold Misc.step at hs
    dsimp only at hs
    split at hs
    . next hcut =>
      rw [h.openMisc hcut] at hs
      cases hs
      rcases h with ⟨rs, r, k, hk, hfile, hend, hm⟩
      refine ⟨rs, r, 0, r.length_pos, ?_, hend, hm⟩
      rw [hfile, hend, take_left, take_zero, append_nil]
    . cases hs

/--
In every run that writes nothing behind a torn record the log replays to the map, wherever it is cut.
-/
theorem replays_of_mended {s : MiscStore} (h : Transition.Reachable step Mended fresh s) : Replays s := by
  have hlogged : Logged s := h.invariant logged_fresh (fun _ _ _ hs he hstep => hs.step he hstep)
  intro cut hcut
  exact ⟨_, hlogged.openMisc hcut, rfl⟩

theorem small_of_length_eq_one {b : Bytes} (h : b.length = 1) : b.length ≤ maxAlloc := by
  have hmax : 1 ≤ maxAlloc := by decide
  omega

def byte (b : UInt8) : Slice := ⟨[b], small_of_length_eq_one rfl⟩

theorem replays_tornPut
    : ∃ s, Transition.run step fresh [.put (byte 1) (byte 1) .done, .put (byte 2) (byte 1) (.failed 3 "EIO"), .reopen 7,
          .put (byte 2) (byte 2) .done, .delete (byte 1) (.failed 1 "EIO")] = some s ∧
        Replays s ∧ s.get [1] = some [1] ∧ s.get [2] = some [2] := by
  have hrun : (Transition.run (fun s e => if decide (Mended s e) then step s e else none) fresh
      [.put (byte 1) (byte 1) .done, .put (byte 2) (byte 1) (.failed 3 "EIO"), .reopen 7, .put (byte 2) (byte 2) .done,
        .delete (byte 1) (.failed 1 "EIO")]).map (fun s => (s.get [1], s.get [2])) = some (some [1], some [2]) := by
    decide +kernel
  rcases Option.map_eq_some_iff.mp hrun with ⟨s, hs, hget⟩
  rw [Prod.mk.injEq] at hget
  have hreach : Transition.Reachable step Mended fresh s := Transition.Reachable.run_checked (fun _ _ => of_decide_eq_true) .init hs
  exact ⟨s, Transition.run_of_run_checked hs, replays_of_mended hreach, hget.1, hget.2⟩

theorem behindTornPut_lost
    : ∃ s, Transition.run step fresh [.put (byte 1) (byte 2) (.failed 1 "EIO"), .put (byte 5) (byte 6) .done] = some s ∧ ¬ Replays s := by
  have hrun : (Transition.run step fresh [.put (byte 1) (byte 2) (.failed 1 "EIO"), .put (byte 5) (byte 6) .done]).map
      (fun s => (s.file, s.last, s.get [5])) = some ([0, 0, 1, 5, 1, 6], 6, some [6]) := by
    decide +kernel
  rcases Option.map_eq_some_iff.mp hrun with ⟨s, hs, hstate⟩
  rw [Prod.mk.injEq, Prod.mk.injEq] at hstate
  rcases hstate with ⟨hfile, hlast, hget⟩
  refine ⟨s, hs, ?_⟩
  intro hreplays
  rcases hreplays 6 (Nat.le_of_eq hlast) with ⟨s', hopen, hsame⟩
  have hlost : (openMisc [0, 0, 1, 5, 1, 6]).toOption.map (fun s => s.get [5]) = some none := by decide +kernel
  rw [hfile, take_of_length_le (by decide)] at hopen
  rw [hopen] at hlost
  have hnone : s'.get [5] = none := Option.some.inj hlost
  rw [hsame, hget] at hnone
  cases hnone

end EpochDB.Store.Misc
