import EpochDB.Lib.Reader
import EpochDB.Store.Sealed.Impl

/-!
Resident sidecars (`store/resident.go`): the pinned ranges of a run in a file that is mapped into memory.
The layout is a magic, the number of entries, an entry of section, offset and length for each range, and
the bytes of the ranges in the order of the entries.
-/

namespace EpochDB.Store.Resident

open List
open Sealed (Section)

def sections : List Section := [.chain, .state, .lookup]

def secByte : Section → UInt8
  | .chain => 0
  | .state => 1
  | .lookup => 2

def secOf (b : UInt8) : Option Section := sections[b.toNat]?

structure ResidentRange where
  off : UInt64
  data : Bytes
  deriving DecidableEq, Repr

def resMagic : Bytes := .ofChars ['E', 'P', 'D', 'B', 'R', 'E', 'S', '1']

def headSize : Nat := resMagic.length + 4

def entrySize : Nat := 17

def entriesOf (secs : Section → List ResidentRange) : List (Section × ResidentRange) :=
  sections.flatMap (fun s => (secs s).map (fun r => (s, r)))

def appendEntry (e : Section × ResidentRange) : Bytes :=
  secByte e.1 :: (Bytes.putUint64 e.2.off ++ Bytes.putUint64 (UInt64.ofNat e.2.data.length))

def writeSidecar (secs : Section → List ResidentRange) : Bytes :=
  resMagic ++ Bytes.putUint32 (UInt32.ofNat (entriesOf secs).length) ++
    ((entriesOf secs).flatMap appendEntry ++ (entriesOf secs).flatMap (fun e => e.2.data))

structure MappedRange where
  off : UInt64
  start : Nat
  stop : Nat
  deriving DecidableEq, Repr

def MappedRange.bytes (r : MappedRange) (file : Bytes) : Bytes := (file.drop r.start).take (r.stop - r.start)

structure Entry where
  sec : UInt8
  off : UInt64
  n : UInt64

def entryAt (file : Bytes) (i : Nat) : Entry :=
  let e := file.drop (headSize + i * entrySize)
  ⟨e.headD 0, Bytes.uint64 ((e.drop 1).take 8), Bytes.uint64 ((e.drop 9).take 8)⟩

def layOut (path : String) (size : Nat) (i : Nat) (pay : UInt64) (es : List Entry)
    : Ret String (List (Section × MappedRange) × UInt64) :=
  match es with
  | [] => .ok ([], pay)
  | e :: es =>
    match secOf e.sec with
    | none => .error s!"store: sidecar {path}: entry {i} is torn"
    | some s =>
      if size < (pay + e.n).toNat then
        .error s!"store: sidecar {path}: entry {i} is torn"
      else if pay + e.n < pay then
        .panic
      else
        match layOut path size (i + 1) (pay + e.n) es with
        | .ok (rs, last) => .ok ((s, ⟨e.off, pay.toNat, (pay + e.n).toNat⟩) :: rs, last)
        | .error e => .error e
        | .panic => .panic

def sortRanges (rs : List MappedRange) : List MappedRange := rs.insertionSort (fun r r' => r.off ≤ r'.off)

def countOf (file : Bytes) : Nat := (Bytes.uint32 ((file.drop resMagic.length).take 4)).toNat

def payloadStart (file : Bytes) : Nat := headSize + countOf file * entrySize

def entriesAt (file : Bytes) : List Entry := (List.range (countOf file)).map (entryAt file)

def loadSidecar (path : String) (file : Bytes) : Ret String (Section → List MappedRange) :=
  if file.length < headSize then
    .error s!"store: sidecar {path}: {file.length} bytes is too short"
  else if file.take resMagic.length ≠ resMagic then
    .error s!"store: sidecar {path}: bad magic"
  else if file.length < payloadStart file then
    .error s!"store: sidecar {path}: {countOf file} entries do not fit"
  else
    match layOut path file.length 0 (UInt64.ofNat (payloadStart file)) (entriesAt file) with
    | .ok (rs, pay) =>
      if pay.toNat ≠ file.length then
        .error s!"store: sidecar {path}: {file.length - pay.toNat} trailing bytes"
      else
        .ok (fun s => sortRanges ((rs.filter (fun r => r.1 = s)).map (·.2)))
    | .error e => .error e
    | .panic => .panic

def Follow (start : Nat) (rs : List (Section × MappedRange)) (stop : Nat) : Prop :=
  match rs with
  | [] => start = stop
  | r :: rs => r.2.start = start ∧ start ≤ r.2.stop ∧ Follow r.2.stop rs stop

def Safe (file : Bytes) : Ret String (Section → List MappedRange) → Prop
  | .ok res => payloadStart file ≤ file.length ∧ ∃ rs, Follow (payloadStart file) rs file.length ∧
      ∀ s, (res s).Perm ((rs.filter (fun r => r.1 = s)).map (·.2))
  | .error _ => True
  | .panic => False

def Wraps (size pay : Nat) (es : List Entry) : Prop :=
  match es with
  | [] => False
  | e :: es => (secOf e.sec).isSome ∧ (2 ^ 64 ≤ pay + e.n.toNat ∨ pay + e.n.toNat ≤ size ∧ Wraps size (pay + e.n.toNat) es)

instance Wraps.decidable (size pay : Nat) (es : List Entry) : Decidable (Wraps size pay es) :=
  match es with
  | [] => inferInstanceAs (Decidable False)
  | e :: es =>
    have := Wraps.decidable size (pay + e.n.toNat) es
    inferInstanceAs (Decidable (_ ∧ _))

def SidecarWraps (file : Bytes) : Prop :=
  headSize ≤ file.length ∧ file.take resMagic.length = resMagic ∧ payloadStart file ≤ file.length ∧
    Wraps file.length (payloadStart file) (entriesAt file)

section LayOut

variable {size : Nat} (hsize : size ≤ maxAlloc)

include hsize

theorem toNat_stop (n : UInt64) {pay : UInt64} (hpay : pay.toNat ≤ size)
    : (pay + n).toNat = if 2 ^ 64 ≤ pay.toNat + n.toNat then pay.toNat + n.toNat - 2 ^ 64 else pay.toNat + n.toNat := by
  have hn := n.toNat_lt
  unfold maxAlloc at hsize
  rw [UInt64.toNat_add]
  split <;> omega

theorem layOut_eq_panic (path : String) (i : Nat) (es : List Entry) {pay : UInt64} (hpay : pay.toNat ≤ size)
    : layOut path size i pay es = .panic ↔ Wraps size pay.toNat es := by
  induction es generalizing i pay with
  | nil => simp [layOut, Wraps]
  | cons e es ih =>
    have hstop := toNat_stop hsize e.n hpay
    have hn := e.n.toNat_lt
    unfold layOut Wraps
    cases hsec : secOf e.sec with
    | none => simp
    | some s =>
      simp only [Option.isSome_some, true_and]
      split
      . next hgt =>
        -- the slice ends past the file, and the check sees it
        have hno : ¬ 2 ^ 64 ≤ pay.toNat + e.n.toNat := by
          intro hwrap
          rw [if_pos hwrap] at hstop
          omega
        rw [if_neg hno] at hstop
        constructor
        . intro h
          cases h
        . rintro (h | ⟨h, -⟩)
          . exact absurd h hno
          . omega
      . next hle =>
        split
        . next hlt =>
          rw [UInt64.lt_iff_toNat_lt] at hlt
          refine ⟨fun _ => .inl ?_, fun _ => rfl⟩
          by_contra hno
          rw [if_neg hno] at hstop
          omega
        . next hge =>
          rw [UInt64.lt_iff_toNat_lt] at hge
          have hno : ¬ 2 ^ 64 ≤ pay.toNat + e.n.toNat := by
            intro hwrap
            rw [if_pos hwrap] at hstop
            omega
          rw [if_neg hno] at hstop
          have hpay' : (pay + e.n).toNat ≤ size := by omega
          have hrest := ih (i + 1) hpay'
          rw [hstop] at hrest hle
          rw [or_iff_right hno, and_iff_right (by omega), ← hrest]
          cases layOut path size (i + 1) (pay + e.n) es <;> simp

omit hsize in
theorem follow_of_layOut {path : String} {i : Nat} {pay last : UInt64} {es : List Entry} {rs : List (Section × MappedRange)}
    (hpay : pay.toNat ≤ size)
    (h : layOut path size i pay es = .ok (rs, last)) : Follow pay.toNat rs last.toNat := by
  induction es generalizing i pay rs with
  | nil =>
    cases h
    rfl
  | cons e es ih =>
    unfold layOut at h
    split at h
    . cases h
    . split at h
      . cases h
      . next hle =>
        split at h
        . cases h
        . next hge =>
          rw [UInt64.lt_iff_toNat_lt] at hge
          split at h
          . next rs' last' hrest =>
            cases h
            exact ⟨rfl, by dsimp only; omega, ih (by omega) hrest⟩
          . cases h
          . cases h

end LayOut

theorem perm_sortRanges (rs : List MappedRange) : (sortRanges rs).Perm rs := perm_insertionSort _ rs

theorem safe_loadSidecar (path : String) {file : Bytes} (hlen : file.length ≤ maxAlloc)
    : Safe file (loadSidecar path file) ↔ ¬ SidecarWraps file := by
  unfold loadSidecar SidecarWraps
  split
  . next hshort => simp [Safe, Nat.not_le.mpr hshort]
  . next hhead =>
    split
    . next hmagic => simp [Safe, hmagic]
    . next hmagic =>
      split
      . next hfit => simp [Safe, Nat.not_le.mpr hfit]
      . next hfit =>
        have hfit := Nat.not_lt.mp hfit
        have hpay : (UInt64.ofNat (payloadStart file)).toNat = payloadStart file := by
          have hlt : payloadStart file < 2 ^ 64 := by
            unfold maxAlloc at hlen
            omega
          exact UInt64.toNat_ofNat_of_lt' hlt
        have hstart : (UInt64.ofNat (payloadStart file)).toNat ≤ file.length := by
          rw [hpay]
          exact hfit
        have hpanic := layOut_eq_panic hlen path 0 (entriesAt file) hstart
        rw [hpay] at hpanic
        rw [and_iff_right (Nat.not_lt.mp hhead), and_iff_right (not_ne_iff.mp hmagic), and_iff_right hfit, ← hpanic]
        split
        . next rs pay hlay =>
          rw [hlay]
          split
          . simp [Safe]
          . next hend =>
            have hfollow := follow_of_layOut hstart hlay
            rw [hpay, not_ne_iff.mp hend] at hfollow
            simp only [Safe, reduceCtorEq, not_false_eq_true, iff_true]
            exact ⟨hfit, rs, hfollow, fun s => perm_sortRanges _⟩
        . next e hlay =>
          rw [hlay]
          simp [Safe]
        . next hlay =>
          rw [hlay]
          simp [Safe]

def RoundTrips (path : String) (secs : Section → List ResidentRange) : Prop :=
  ∃ res, loadSidecar path (writeSidecar secs) = .ok res ∧
    ∀ s, ((res s).map (fun r => (⟨r.off, r.bytes (writeSidecar secs)⟩ : ResidentRange))).Perm (secs s) ∧
      (res s).Pairwise (fun r r' => r.off ≤ r'.off)

theorem length_appendEntry (e : Section × ResidentRange) : (appendEntry e).length = entrySize := by
  simp [appendEntry, entrySize]

theorem length_flatMap_appendEntry (es : List (Section × ResidentRange)) : (es.flatMap appendEntry).length = es.length * entrySize := by
  induction es with
  | nil => rfl
  | cons e es ih =>
    rw [flatMap_cons, length_append, ih, length_appendEntry, length_cons, Nat.succ_mul, Nat.add_comm]

theorem secOf_secByte (s : Section) : secOf (secByte s) = some s := by
  cases s <;> rfl

def toEntry (e : Section × ResidentRange) : Entry := ⟨secByte e.1, e.2.off, UInt64.ofNat e.2.data.length⟩

theorem entryAt_append {front : Bytes} {i : Nat} (hfront : front.length = headSize + i * entrySize) (e : Section × ResidentRange)
    (rest : Bytes) : entryAt (front ++ (appendEntry e ++ rest)) i = toEntry e := by
  unfold entryAt
  rw [← hfront, drop_left]
  have hoff : (((appendEntry e ++ rest).drop 1).take 8) = Bytes.putUint64 e.2.off := by
    simp only [appendEntry, cons_append, drop_succ_cons, drop_zero, append_assoc]
    exact take_left' (Bytes.length_putUint64 _)
  have hn : (((appendEntry e ++ rest).drop 9).take 8) = Bytes.putUint64 (UInt64.ofNat e.2.data.length) := by
    simp only [appendEntry, cons_append, drop_succ_cons, append_assoc]
    rw [drop_left' (Bytes.length_putUint64 _)]
    exact take_left' (Bytes.length_putUint64 _)
  dsimp only
  rw [hoff, hn, Bytes.uint64_putUint64, Bytes.uint64_putUint64]
  rfl

theorem map_entryAt {front : Bytes} {i : Nat} (hfront : front.length = headSize + i * entrySize) (es : List (Section × ResidentRange))
    (rest : Bytes) : (List.range es.length).map (fun j => entryAt (front ++ (es.flatMap appendEntry ++ rest)) (i + j)) = es.map toEntry := by
  induction es generalizing front i with
  | nil => rfl
  | cons e es ih =>
    have hnext : (front ++ appendEntry e).length = headSize + (i + 1) * entrySize := by
      rw [length_append, length_appendEntry, hfront, Nat.succ_mul]
      omega
    have hrest := ih hnext
    simp only [flatMap_cons, append_assoc] at hrest ⊢
    rw [length_cons, range_succ_eq_map, map_cons, map_map, map_cons, Nat.add_zero, entryAt_append hfront, ← hrest]
    congr 2
    funext j
    rw [Function.comp_apply, Nat.succ_eq_add_one, Nat.add_assoc, Nat.add_comm 1 j]

def place (start : Nat) (es : List (Section × ResidentRange)) : List (Section × MappedRange) :=
  match es with
  | [] => []
  | e :: es => (e.1, ⟨e.2.off, start, start + e.2.data.length⟩) :: place (start + e.2.data.length) es

theorem layOut_toEntry {size : Nat} (hsize : size ≤ maxAlloc) (path : String) (i : Nat) {pay : UInt64} (es : List (Section × ResidentRange))
    (hfit : pay.toNat + (es.flatMap (fun e => e.2.data)).length ≤ size)
    : ∃ last, layOut path size i pay (es.map toEntry) = .ok (place pay.toNat es, last) ∧
        last.toNat = pay.toNat + (es.flatMap (fun e => e.2.data)).length := by
  induction es generalizing i pay with
  | nil => exact ⟨pay, rfl, rfl⟩
  | cons e es ih =>
    rw [flatMap_cons, length_append] at hfit
    have hmax : maxAlloc < 2 ^ 64 := by decide
    have hn : (UInt64.ofNat e.2.data.length).toNat = e.2.data.length := UInt64.toNat_ofNat_of_lt' (show _ < 2 ^ 64 by omega)
    have hpay : pay.toNat ≤ size := by omega
    have hstop := toNat_stop hsize (UInt64.ofNat e.2.data.length) hpay
    rw [hn, if_neg (by omega)] at hstop
    have hfit' : (pay + UInt64.ofNat e.2.data.length).toNat + (es.flatMap (fun e => e.2.data)).length ≤ size := by omega
    rcases ih (i + 1) hfit' with ⟨last, hrest, hlast⟩
    refine ⟨last, ?_, ?_⟩
    . rw [map_cons]
      unfold layOut
      have hsec : secOf (toEntry e).sec = some e.1 := secOf_secByte e.1
      have hoff : (toEntry e).off = e.2.off := rfl
      have hlen : (toEntry e).n = UInt64.ofNat e.2.data.length := rfl
      rw [hsec, hlen, hoff]
      dsimp only
      rw [if_neg (by omega), if_neg (by rw [UInt64.lt_iff_toNat_lt]; omega), hrest, hstop]
      rfl
    . rw [hlast, hstop, flatMap_cons, length_append]
      omega

theorem map_place (front : Bytes) (es : List (Section × ResidentRange)) (rest : Bytes)
    : (place front.length es).map (fun r => (r.1, (⟨r.2.off, r.2.bytes (front ++ (es.flatMap (fun e => e.2.data) ++ rest))⟩ : ResidentRange))) =
        es := by
  induction es generalizing front with
  | nil => rfl
  | cons e es ih =>
    have hrest := ih (front ++ e.2.data)
    rw [length_append] at hrest
    rw [place, map_cons, flatMap_cons]
    simp only [append_assoc] at hrest ⊢
    rw [hrest]
    have hbytes : (⟨e.2.off, front.length, front.length + e.2.data.length⟩ : MappedRange).bytes
        (front ++ (e.2.data ++ (es.flatMap (fun e => e.2.data) ++ rest))) = e.2.data := by
      unfold MappedRange.bytes
      rw [drop_left, Nat.add_sub_cancel_left, take_left]
    rw [hbytes]

theorem filter_entriesOf (secs : Section → List ResidentRange) (s : Section)
    : ((entriesOf secs).filter (fun e => e.1 = s)).map (·.2) = secs s := by
  have hsame : ∀ (rs : List ResidentRange) (t : Section), ((rs.map (fun r => (t, r))).filter (fun e => e.1 = s)).map (·.2) =
      if t = s then rs else [] := by
    intro rs t
    induction rs with
    | nil => simp
    | cons r rs ih =>
      rw [map_cons, filter_cons]
      split
      . next ht =>
        have ht : t = s := by simpa using ht
        rw [map_cons, ih, if_pos ht, if_pos ht]
      . next ht =>
        have ht : ¬ t = s := by simpa using ht
        rw [ih, if_neg ht, if_neg ht]
  unfold entriesOf sections
  simp only [flatMap_cons, flatMap_nil, append_nil, filter_append, map_append, hsame]
  cases s <;> simp

theorem length_writeSidecar (secs : Section → List ResidentRange)
    : (writeSidecar secs).length = headSize + (entriesOf secs).length * entrySize + ((entriesOf secs).flatMap (fun e => e.2.data)).length := by
  unfold writeSidecar
  rw [length_append, length_append, length_append, length_flatMap_appendEntry, Bytes.length_putUint32]
  unfold headSize
  omega

theorem countOf_writeSidecar (secs : Section → List ResidentRange)
    : countOf (writeSidecar secs) = (entriesOf secs).length % 2 ^ 32 := by
  unfold countOf writeSidecar
  rw [append_assoc, drop_left, take_left' (Bytes.length_putUint32 _), Bytes.uint32_putUint32, UInt32.toNat_ofNat']

theorem take_writeSidecar (secs : Section → List ResidentRange) : (writeSidecar secs).take resMagic.length = resMagic := by
  unfold writeSidecar
  rw [append_assoc, take_left]

theorem entriesAt_writeSidecar (secs : Section → List ResidentRange)
    : entriesAt (writeSidecar secs) = ((entriesOf secs).take (countOf (writeSidecar secs))).map toEntry := by
  have hle : countOf (writeSidecar secs) ≤ (entriesOf secs).length := by
    rw [countOf_writeSidecar]
    exact Nat.mod_le _ _
  have hhead : (resMagic ++ Bytes.putUint32 (UInt32.ofNat (entriesOf secs).length)).length = headSize + 0 * entrySize := by
    simp [headSize]
  have htable := map_entryAt hhead ((entriesOf secs).take (countOf (writeSidecar secs)))
    (((entriesOf secs).drop (countOf (writeSidecar secs))).flatMap appendEntry ++ (entriesOf secs).flatMap (fun e => e.2.data))
  rw [← append_assoc (List.flatMap appendEntry _), ← flatMap_append, take_append_drop, length_take,
    Nat.min_eq_left hle] at htable
  simp only [Nat.zero_add] at htable
  exact htable

theorem loadSidecar_eq_ok {path : String} {file : Bytes} {res : Section → List MappedRange} (h : loadSidecar path file = .ok res)
    : payloadStart file ≤ file.length ∧ ∃ rs pay, layOut path file.length 0 (UInt64.ofNat (payloadStart file)) (entriesAt file) = .ok (rs, pay) ∧
        pay.toNat = file.length ∧ ∀ s, res s = sortRanges ((rs.filter (fun r => r.1 = s)).map (·.2)) := by
  unfold loadSidecar at h
  split at h
  . cases h
  . split at h
    . cases h
    . split at h
      . cases h
      . next hfit =>
        split at h
        . next rs pay hlay =>
          split at h
          . cases h
          . next hend =>
            cases h
            exact ⟨Nat.not_lt.mp hfit, rs, pay, hlay, not_ne_iff.mp hend, fun _ => rfl⟩
        . cases h
        . cases h

section Written

variable {path : String} {secs : Section → List ResidentRange} (hlen : (writeSidecar secs).length ≤ maxAlloc)

include hlen

theorem toNat_payloadStart (hfit : payloadStart (writeSidecar secs) ≤ (writeSidecar secs).length)
    : (UInt64.ofNat (payloadStart (writeSidecar secs))).toNat = payloadStart (writeSidecar secs) := by
  have hmax : maxAlloc < 2 ^ 64 := by decide
  exact UInt64.toNat_ofNat_of_lt' (show _ < 2 ^ 64 by omega)

theorem count_lt_of_load {res : Section → List MappedRange} (h : loadSidecar path (writeSidecar secs) = .ok res)
    : (entriesOf secs).length < 2 ^ 32 := by
  rcases loadSidecar_eq_ok h with ⟨hfit, rs, pay, hlay, hend, -⟩
  have hsize := length_writeSidecar secs
  have hcount := countOf_writeSidecar secs
  have hpay := toNat_payloadStart hlen hfit
  have hdata : (((entriesOf secs).take (countOf (writeSidecar secs))).flatMap (fun e => e.2.data)).length ≤
      ((entriesOf secs).flatMap (fun e => e.2.data)).length :=
    ((take_sublist _ _).flatMap _).length_le
  have hstart : payloadStart (writeSidecar secs) = headSize + countOf (writeSidecar secs) * entrySize := rfl
  have hle : countOf (writeSidecar secs) ≤ (entriesOf secs).length := by
    rw [hcount]
    exact Nat.mod_le _ _
  have hmul := Nat.mul_le_mul_right entrySize hle
  rw [entriesAt_writeSidecar] at hlay
  have hroom : (UInt64.ofNat (payloadStart (writeSidecar secs))).toNat +
      (((entriesOf secs).take (countOf (writeSidecar secs))).flatMap (fun e => e.2.data)).length ≤ (writeSidecar secs).length := by omega
  rcases layOut_toEntry hlen path 0 _ hroom with ⟨last, hlay', hlast⟩
  rw [hlay, Ret.ok.injEq, Prod.mk.injEq] at hlay'
  rw [← hlay'.2] at hlast
  have hsame : countOf (writeSidecar secs) = (entriesOf secs).length := by
    have hmul' : countOf (writeSidecar secs) * entrySize = (entriesOf secs).length * entrySize := by omega
    exact Nat.eq_of_mul_eq_mul_right (by decide) hmul'
  omega

theorem roundTrips_of_count (hcount : (entriesOf secs).length < 2 ^ 32) : RoundTrips path secs := by
  have hcountOf : countOf (writeSidecar secs) = (entriesOf secs).length := by
    rw [countOf_writeSidecar, Nat.mod_eq_of_lt hcount]
  have hstart : payloadStart (writeSidecar secs) = headSize + (entriesOf secs).length * entrySize := by
    unfold payloadStart
    rw [hcountOf]
  have hsize := length_writeSidecar secs
  have hpay := toNat_payloadStart hlen (by omega)
  have hentries := entriesAt_writeSidecar secs
  rw [hcountOf, take_length] at hentries
  have hfit : (UInt64.ofNat (payloadStart (writeSidecar secs))).toNat + ((entriesOf secs).flatMap (fun e => e.2.data)).length ≤
      (writeSidecar secs).length := by omega
  rcases layOut_toEntry hlen path 0 (entriesOf secs) hfit with ⟨last, hlay, hlast⟩
  -- the file as what comes before the payload and the payload
  have hfront : (resMagic ++ Bytes.putUint32 (UInt32.ofNat (entriesOf secs).length) ++ (entriesOf secs).flatMap appendEntry).length =
      payloadStart (writeSidecar secs) := by
    rw [hstart, length_append, length_append, length_flatMap_appendEntry, Bytes.length_putUint32]
    rfl
  have hplace := map_place (resMagic ++ Bytes.putUint32 (UInt32.ofNat (entriesOf secs).length) ++ (entriesOf secs).flatMap appendEntry)
    (entriesOf secs) []
  have hfile : resMagic ++ Bytes.putUint32 (UInt32.ofNat (entriesOf secs).length) ++ (entriesOf secs).flatMap appendEntry ++
      ((entriesOf secs).flatMap (fun e => e.2.data) ++ []) = writeSidecar secs := by
    unfold writeSidecar
    simp only [append_assoc, append_nil]
  rw [hfront, hfile] at hplace
  refine ⟨fun s => sortRanges (((place (payloadStart (writeSidecar secs)) (entriesOf secs)).filter (fun r => r.1 = s)).map (·.2)), ?_, ?_⟩
  . unfold loadSidecar
    rw [if_neg (by omega), if_neg (by rw [take_writeSidecar]; simp), if_neg (by omega), hentries, hlay, hpay]
    dsimp only
    rw [if_neg (by omega)]
  . intro s
    constructor
    . apply ((perm_sortRanges _).map _).trans
      rw [← filter_entriesOf secs s]
      conv => rhs; rw [← hplace, filter_map, map_map]
      rw [map_map]
      exact .refl _
    . exact pairwise_insertionSort _ _

end Written

/--
A sidecar of any content loads safely where no length in it wraps, and what was written is read back
where the number of entries fits its four bytes. Everywhere else it is not so.
-/
theorem loadSidecar_spec (path : String)
    : (∀ file : Bytes, file.length ≤ maxAlloc → (Safe file (loadSidecar path file) ↔ ¬ SidecarWraps file)) ∧
      ∀ secs, (writeSidecar secs).length ≤ maxAlloc → (RoundTrips path secs ↔ (entriesOf secs).length < 2 ^ 32) := by
  constructor
  . intro file hlen
    exact safe_loadSidecar path hlen
  . intro secs hlen
    constructor
    . rintro ⟨res, hload, -⟩
      exact count_lt_of_load hlen hload
    . exact roundTrips_of_count hlen

def threeRanges : Section → List ResidentRange
  | .state => [⟨7, [1, 2, 3]⟩, ⟨4, [4]⟩]
  | .lookup => [⟨0, [5, 6]⟩]
  | .chain => []

def tornSidecar : Bytes := (writeSidecar threeRanges).dropLast

/-- Three ranges come back, and without its last byte the file is refused at the third. -/
theorem loadSidecar_threeRanges
    : RoundTrips "run" threeRanges ∧ Safe tornSidecar (loadSidecar "run" tornSidecar) ∧ (∃ e, loadSidecar "run" tornSidecar = .error e) := by
  rcases loadSidecar_spec "run" with ⟨hsafe, htrips⟩
  have htorn : ¬ SidecarWraps tornSidecar := by
    rintro ⟨-, -, -, hwraps⟩
    revert hwraps
    decide
  exact ⟨(htrips threeRanges (by decide)).mpr (by decide), (hsafe tornSidecar (by decide)).mpr htorn, _, rfl⟩

def wrappedSidecar : Bytes := resMagic ++ [0, 0, 0, 1] ++ [0] ++ List.replicate 8 0 ++ List.replicate 8 0xff

theorem wrappedSidecar_panics : loadSidecar "run" wrappedSidecar = .panic := by
  apply Ret.eq_panic
  decide +kernel

end EpochDB.Store.Resident
