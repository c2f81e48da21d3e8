import EpochDB.Lib.Words
import EpochDB.Store.Resident.Impl

/-!
What the calls on a single overlay leave of it: every range, and the window at the tail, holds the bytes of
the artifact at its offset.
-/

namespace EpochDB.Store.Resident

open List
open Sealed (Section)

variable {a : Artifact}

def At (a : Artifact) (s : Section) (off : Nat) (b : Bytes) : Prop :=
  off + b.length ≤ a.len s ∧ ((a.sec s).drop off).take b.length = b

theorem length_sec (a : Artifact) (s : Section) : (a.sec s).length = a.len s := by
  have hwithin := a.within s
  unfold Artifact.sec
  rw [length_take, length_drop]
  omega

theorem len_le_maxAlloc (a : Artifact) (s : Section) : a.off s + a.len s ≤ maxAlloc :=
  Nat.le_trans (a.within s) a.small

theorem at_slice {s : Section} {off n : Nat} (hn : off + n ≤ a.len s) : At a s off (((a.sec s).drop off).take n) := by
  have hlen : (((a.sec s).drop off).take n).length = n := by
    rw [length_take, length_drop, length_sec]
    omega
  unfold At
  rw [hlen]
  exact ⟨hn, rfl⟩

theorem At.part {s : Section} {off x n : Nat} {b : Bytes} (h : At a s off b) (hlo : off ≤ x) (hhi : x + n ≤ off + b.length)
    : (b.drop (x - off)).take n = ((a.sec s).drop x).take n := by
  conv => lhs; rw [← h.2]
  rw [drop_take, drop_drop, take_take, Nat.add_sub_cancel' hlo, Nat.min_eq_left (by omega)]

theorem read_section {s : Section} {off n : Nat} (hn : off + n ≤ a.len s)
    : a.read (a.off s + off) n = .ok (((a.sec s).drop off).take n) := by
  have hwithin := a.within s
  unfold Artifact.read Artifact.sec
  rw [if_neg (by omega), drop_take, drop_drop, take_take, Nat.min_eq_left (by omega)]

variable {files : Nat → Option Bytes}

def Held.Good (a : Artifact) (files : Nat → Option Bytes) (s : Section) (mp : Option Nat) (r : Held) : Prop :=
  match r.data with
  | .heap b => At a s r.off.toNat b
  | .mapped id start stop => mp = some id ∧
      ∃ file, files id = some file ∧ start ≤ stop ∧ stop ≤ file.length ∧ At a s r.off.toNat ((file.drop start).take (stop - start))

structure Overlay.Good (a : Artifact) (files : Nat → Option Bytes) (o : Overlay) : Prop where
  res : ∀ r ∈ o.res, r.Good a files o.sec o.mp
  tail : ∀ t, o.tail = some t → At a o.sec t.1 t.2
  mp : ∀ id, o.mp = some id → ∃ file, files id = some file

structure Left (a : Artifact) (files : Nat → Option Bytes) (o o' : Overlay) : Prop where
  good : o'.Good a files
  sec : o'.sec = o.sec
  mp : o'.mp = o.mp ∨ o'.mp = none

theorem Left.trans {o o' o'' : Overlay} (h : Left a files o o') (h' : Left a files o' o'') : Left a files o o'' := by
  refine ⟨h'.good, h'.sec.trans h.sec, ?_⟩
  rcases h'.mp with hmp | hmp
  . rw [hmp]
    exact h.mp
  . exact .inr hmp

namespace Overlay

variable {o : Overlay}

theorem Good.left (h : o.Good a files) : Left a files o o := ⟨h, rfl, .inl rfl⟩

theorem Good.mono {files' : Nat → Option Bytes} (h : o.Good a files) (hfiles : ∀ id file, files id = some file → files' id = some file)
    : o.Good a files' := by
  refine ⟨?_, h.tail, ?_⟩
  . intro r hr
    have hgood := h.res r hr
    unfold Held.Good at hgood ⊢
    split at hgood
    . exact hgood
    . rcases hgood with ⟨hmp, file, hfile, hrest⟩
      exact ⟨hmp, file, hfiles _ file hfile, hrest⟩
  . intro id hid
    rcases h.mp id hid with ⟨file, hfile⟩
    exact ⟨file, hfiles id file hfile⟩

theorem Good.read (h : o.Good a files) {off n : Nat} (hn : off + n ≤ a.len o.sec)
    : o.read a off n = .ok (((a.sec o.sec).drop off).take n) := by
  have hsmall := len_le_maxAlloc a o.sec
  have hmax : maxAlloc < 2 ^ 64 := by decide
  unfold Overlay.read
  rw [Nat.mod_eq_of_lt (a := a.off o.sec + off) (by omega), read_section hn]
  split
  . next t ht =>
    split
    . next hin =>
      rw [Nat.mod_eq_of_lt (by omega)] at hin
      rw [(h.tail t ht).part hin.1 hin.2]
    . rfl
  . rfl

theorem searchRes_le (o : Overlay) (off : UInt64) : o.searchRes off ≤ o.res.length := bsearch_le (Nat.zero_le _)

theorem Good.insert (h : o.Good a files) {off : UInt64} {b : Bytes} (hb : At a o.sec off.toNat b)
    : Left a files o (o.insert off (.heap b)) := by
  unfold Overlay.insert
  split
  . exact h.left
  . refine ⟨⟨?_, h.tail, h.mp⟩, rfl, .inl rfl⟩
    intro r hr
    rw [mem_insertIdx (searchRes_le o off)] at hr
    rcases hr with hr | hr
    . rw [hr]
      exact hb
    . exact h.res r hr

theorem inside_of_want {bhs : List Handle} {want : List BlockRange} (hin : ∀ bh ∈ bhs, bh.offset.toNat + bh.length.toNat ≤ a.len o.sec)
    (h : o.want a bhs = .ok want) : ∀ r ∈ want, r.off.toNat + r.n.toNat ≤ a.len o.sec := by
  induction bhs generalizing want with
  | nil =>
    cases h
    intro r hr
    cases hr
  | cons bh bhs ih =>
    have hin' : ∀ bh ∈ bhs, bh.offset.toNat + bh.length.toNat ≤ a.len o.sec := fun bh' hbh' => hin bh' (mem_cons_of_mem bh hbh')
    unfold Overlay.want at h
    split at h
    . exact ih hin' h
    . split at h
      . cases h
      . next hfit =>
        split at h
        . exact ih hin' h
        . rcases hrest : o.want a bhs with e | want'
          . rw [hrest] at h
            cases h
          . rw [hrest] at h
            cases h
            intro r hr
            rw [mem_cons] at hr
            rcases hr with hr | hr
            . -- nothing wraps: the handle lies in the section
              have hlen := len_le_maxAlloc a o.sec
              have hmax : maxAlloc = 2 ^ 48 := rfl
              have hbh := hin bh mem_cons_self
              have htrailer : blockTrailer.toNat = 5 := rfl
              have hn : (bh.length + blockTrailer).toNat = bh.length.toNat + 5 := by
                rw [UInt64.toNat_add, htrailer, Nat.mod_eq_of_lt (by omega)]
              have hsum : (bh.offset + (bh.length + blockTrailer)).toNat = bh.offset.toNat + (bh.length.toNat + 5) := by
                rw [UInt64.toNat_add, hn, Nat.mod_eq_of_lt (by omega)]
              rw [hr]
              dsimp only
              omega
            . exact ih hin' hrest r hr

theorem Good.pinSpan {lo : UInt64} {buf : Bytes} (span : List BlockRange) (h : o.Good a files) (hbuf : At a o.sec lo.toNat buf)
    : Left a files o (pinSpan lo buf span o).1 := by
  induction span generalizing o with
  | nil => exact h.left
  | cons r span ih =>
    unfold Overlay.pinSpan
    dsimp only
    split
    . exact h.left
    . next hfit =>
      rcases not_or.mp hfit with ⟨hwrap, hend⟩
      have hlen := len_le_maxAlloc a o.sec
      have hmax : maxAlloc = 2 ^ 48 := rfl
      have hroom := hbuf.1
      have hsub : r.off = (r.off - lo) + lo := (UInt64.sub_add_cancel _ _).symm
      generalize r.off - lo = start at hwrap hend hsub
      have hlt := UInt64.toNat_lt start
      have hn := UInt64.toNat_lt r.n
      rw [UInt64.lt_iff_toNat_lt] at hwrap
      have hadd := UInt64.toNat_add start r.n
      have hoff : r.off.toNat = start.toNat + lo.toNat := by
        rw [hsub, UInt64.toNat_add, Nat.mod_eq_of_lt (by omega)]
      have hpart : At a o.sec r.off.toNat ((buf.drop start.toNat).take r.n.toNat) := by
        have hstart : start.toNat = r.off.toNat - lo.toNat := by omega
        rw [hstart, hbuf.part (by omega) (by omega)]
        exact at_slice (by omega)
      have hleft := h.insert hpart
      have hbuf' : At a (o.insert r.off (.heap ((buf.drop start.toNat).take r.n.toNat))).sec lo.toNat buf := by
        rw [hleft.sec]
        exact hbuf
      have hrest := ih hleft.good hbuf'
      exact hleft.trans hrest

theorem le_endOf (span : List BlockRange) (hi : UInt64) : hi.toNat ≤ (endOf hi span).toNat := by
  induction span generalizing hi with
  | nil => exact Nat.le_refl _
  | cons r span ih =>
    refine Nat.le_trans ?_ (ih (max hi (r.off + r.n)))
    rw [Words.toNat_max]
    exact Nat.le_max_left _ _

theorem le_endOf_of_mem {span : List BlockRange} {r : BlockRange} (hr : r ∈ span) (hi : UInt64)
    : (r.off + r.n).toNat ≤ (endOf hi span).toNat := by
  induction span generalizing hi with
  | nil => cases hr
  | cons r' span ih =>
    rw [mem_cons] at hr
    rcases hr with hr | hr
    . refine Nat.le_trans ?_ (le_endOf span (max hi (r'.off + r'.n)))
      rw [Words.toNat_max, hr]
      exact Nat.le_max_right _ _
    . exact ih hr _

theorem endOf_le {span : List BlockRange} {hi : UInt64} {n : Nat} (hspan : ∀ r ∈ span, (r.off + r.n).toNat ≤ n) (hhi : hi.toNat ≤ n)
    : (endOf hi span).toNat ≤ n := by
  induction span generalizing hi with
  | nil => exact hhi
  | cons r span ih =>
    apply ih (fun r' hr' => hspan r' (mem_cons_of_mem r hr'))
    rw [Words.toNat_max]
    exact Nat.max_le.mpr ⟨hhi, hspan r mem_cons_self⟩

theorem Good.read_span {r : BlockRange} {span : List BlockRange} (h : o.Good a files)
    (hin : ∀ r' ∈ r :: span, r'.off.toNat + r'.n.toNat ≤ a.len o.sec)
    : ∃ buf, o.read a r.off.toNat (endOf 0 (r :: span) - r.off).toNat = .ok buf ∧ At a o.sec r.off.toNat buf ∧
        ∀ r' ∈ r :: span, r'.off.toNat + r'.n.toNat ≤ r.off.toNat + buf.length := by
  have hlen := len_le_maxAlloc a o.sec
  have hmax : maxAlloc = 2 ^ 48 := rfl
  have hsum : ∀ r' ∈ r :: span, (r'.off + r'.n).toNat = r'.off.toNat + r'.n.toNat := by
    intro r' hr'
    have hr' := hin r' hr'
    rw [UInt64.toNat_add, Nat.mod_eq_of_lt (by omega)]
  have hend : ∀ r' ∈ r :: span, r'.off.toNat + r'.n.toNat ≤ (endOf 0 (r :: span)).toNat := by
    intro r' hr'
    rw [← hsum r' hr']
    exact le_endOf_of_mem hr' 0
  have hhi : (endOf 0 (r :: span)).toNat ≤ a.len o.sec := by
    refine endOf_le ?_ (Nat.zero_le _)
    intro r' hr'
    rw [hsum r' hr']
    exact hin r' hr'
  have hlo := hend r mem_cons_self
  have hn : r.off.toNat + ((endOf 0 (r :: span)).toNat - r.off.toNat) ≤ a.len o.sec := by omega
  rw [UInt64.toNat_sub_of_le _ _ (UInt64.le_iff_toNat_le.mpr (by omega)), h.read hn]
  refine ⟨_, rfl, at_slice hn, ?_⟩
  intro r' hr'
  have hr' := hend r' hr'
  rw [length_take, length_drop, length_sec]
  omega

theorem Good.pinSpans {want : List BlockRange} (i : Nat) (ends : List Nat) (h : o.Good a files)
    (hin : ∀ r ∈ want, r.off.toNat + r.n.toNat ≤ a.len o.sec) : Left a files o (pinSpans a want i ends o).1 := by
  induction ends generalizing i o with
  | nil => exact h.left
  | cons j ends ih =>
    unfold Overlay.pinSpans spanRead
    cases hspan : (want.drop i).take (j - i) with
    | nil => exact h.left
    | cons r span =>
      have hsub : ∀ r' ∈ r :: span, r' ∈ want := by
        rw [← hspan]
        exact fun r' hr' => mem_of_mem_drop (mem_of_mem_take hr')
      rcases h.read_span (fun r' hr' => hin r' (hsub r' hr')) with ⟨buf, hread, hat, -⟩
      dsimp only
      rw [hread]
      dsimp only
      have hpin := h.pinSpan (r :: span) hat
      split
      . next o' hok =>
        rw [hok] at hpin
        have hin' : ∀ r ∈ want, r.off.toNat + r.n.toNat ≤ a.len o'.sec := by
          rw [hpin.sec]
          exact hin
        exact hpin.trans (ih j hpin.good hin')
      . exact hpin

theorem Good.reside {bhs : List Handle} (h : o.Good a files) (hin : ∀ bh ∈ bhs, bh.offset.toNat + bh.length.toNat ≤ a.len o.sec)
    : Left a files o (o.reside a bhs).1 := by
  unfold Overlay.reside
  split
  . exact h.left
  . next want hwant =>
    apply h.pinSpans
    intro r hr
    rw [mem_insertionSort] at hr
    exact inside_of_want hin hwant r hr

theorem resideSpansFrom_spec (want : List BlockRange) (i : Nat) (stop : UInt64)
    : (resideSpansFrom i stop want).Pairwise (· < ·) ∧ ∀ j ∈ resideSpansFrom i stop want, i ≤ j ∧ 0 < j ∧ j < i + want.length := by
  induction want generalizing i stop with
  | nil => exact ⟨.nil, fun j hj => by cases hj⟩
  | cons r want ih =>
    rcases ih (i + 1) (max stop (r.off + r.n)) with ⟨hpair, hbounds⟩
    unfold resideSpansFrom
    rw [length_cons]
    dsimp only
    split
    . next hcut =>
      refine ⟨pairwise_cons.mpr ⟨?_, hpair⟩, ?_⟩
      . intro j hj
        have := hbounds j hj
        omega
      . intro j hj
        rw [mem_cons] at hj
        rcases hj with hj | hj
        . omega
        . have := hbounds j hj
          omega
    . refine ⟨hpair, ?_⟩
      intro j hj
      have := hbounds j hj
      omega

theorem resideSpans_spec (want : List BlockRange)
    : (0 :: resideSpans want).Pairwise (· < ·) ∧ ∀ j ∈ resideSpans want, j ≤ want.length := by
  rcases resideSpansFrom_spec want 0 0 with ⟨hpair, hbounds⟩
  have hlast : ∀ j ∈ (if want = [] then [] else [want.length]), j = want.length ∧ 0 < j := by
    intro j hj
    split at hj
    . cases hj
    . next hne =>
      rw [mem_singleton] at hj
      exact ⟨hj, hj ▸ length_pos_iff.mpr hne⟩
  unfold resideSpans
  constructor
  . rw [pairwise_cons, pairwise_append]
    refine ⟨?_, hpair, ?_, ?_⟩
    . intro j hj
      rcases mem_append.mp hj with hj | hj
      . exact (hbounds j hj).2.1
      . exact (hlast j hj).2
    . split <;> simp
    . intro j hj k hk
      have := hbounds j hj
      have := hlast k hk
      omega
  . intro j hj
    rcases mem_append.mp hj with hj | hj
    . have := hbounds j hj
      omega
    . exact Nat.le_of_eq (hlast j hj).1

theorem Good.resideGap (h : o.Good a files) (stop : UInt64) : Left a files o (o.resideGap a stop).1 := by
  unfold Overlay.resideGap
  split
  . next hlt =>
    have hn : stop.toNat + (a.len o.sec - stop.toNat) ≤ a.len o.sec := by omega
    rw [h.read hn]
    exact h.insert (at_slice hn)
  . exact h.left

theorem readPieces_eq {s : Section} {done : Nat} (hdone : done ≤ a.len s) : readPieces a s done = .ok ((a.sec s).drop done) := by
  fun_induction readPieces a s done with
  | case1 done hlt e hread =>
    have hn : done + min piece (a.len s - done) ≤ a.len s := by omega
    rw [read_section hn] at hread
    cases hread
  | case2 done hlt b hread ih =>
    have hn : done + min piece (a.len s - done) ≤ a.len s := by omega
    rw [read_section hn] at hread
    cases hread
    rw [ih hn, ← drop_drop]
    exact congrArg _ (take_append_drop _ _)
  | case3 done hge =>
    rw [drop_eq_nil_of_le]
    rw [length_sec]
    omega

theorem Good.resideAll (h : o.Good a files) : Left a files o (o.resideAll a).1 := by
  unfold Overlay.resideAll
  split
  . exact h.left
  . rw [readPieces_eq (Nat.zero_le _)]
    refine ⟨⟨?_, h.tail, ?_⟩, rfl, .inr rfl⟩
    . intro r hr
      rw [mem_singleton] at hr
      have hlen := length_sec a o.sec
      rw [hr]
      refine ⟨?_, ?_⟩
      . rw [drop_zero, hlen]
        exact Nat.le_of_eq (Nat.zero_add _)
      . rw [drop_zero]
        exact take_of_length_le (Nat.le_refl _)
    . intro id hid
      cases hid

theorem Good.resideTail (h : o.Good a files) (dataSize : UInt64) : Left a files o (o.resideTail a dataSize).1 := by
  unfold Overlay.resideTail
  split
  . exact h.left
  . next hin =>
    have hn : dataSize.toNat + (a.len o.sec - dataSize.toNat) ≤ a.len o.sec := by omega
    rw [read_section hn]
    refine ⟨⟨h.res, ?_, h.mp⟩, rfl, .inl rfl⟩
    intro t ht
    cases ht
    exact at_slice hn

theorem Good.dropTail (h : o.Good a files) : Left a files o o.dropTail.1 := by
  refine ⟨⟨h.res, ?_, h.mp⟩, rfl, .inl rfl⟩
  intro t ht
  cases ht

theorem Good.release (h : o.Good a files) : Left a files o o.release.1 := by
  refine ⟨⟨?_, h.tail, ?_⟩, rfl, .inr rfl⟩
  . intro r hr
    cases hr
  . intro id hid
    cases hid

end Overlay

end EpochDB.Store.Resident
