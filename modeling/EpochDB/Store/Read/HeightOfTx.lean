import EpochDB.Store.Read.Later

/-!
From TxNums to heights (`HeightOfTx`, `heightBounds` and `BlockTxRange` of `store/db.go`): a binary
search over the `blk` rows of the part that covers the TxNum.
-/

namespace EpochDB.Store.Read

open List Option Transition Memtable
open Sealed (FilterPolicy)

def flushedTx (runs : List Sealed.Run) : UInt64 := (runs.getLast?.map (·.footer.toTx)).getD 0

def flushedHeight (runs : List Sealed.Run) : UInt64 := (runs.getLast?.map (·.footer.toHeight + 1)).getD 0

def nextTx (v : View) : UInt64 :=
  match (v.mem :: v.frozen.toList).find? (·.started) with
  | some m => m.nextTx
  | none => flushedTx v.runs

def nextHeight (v : View) : UInt64 :=
  match (v.mem :: v.frozen.toList).find? (·.started) with
  | some m => m.nextHeight
  | none => flushedHeight v.runs

def heightBounds (v : View) (txnum : UInt64) : Option (UInt64 × UInt64) :=
  match (v.mem :: v.frozen.toList).find? (fun m => m.started && txnum ≥ m.baseTx && txnum < m.nextTx) with
  | some m => some (m.baseHeight, m.nextHeight - 1)
  | none =>
    (v.runs.find? (fun r => txnum ≥ r.footer.fromTx && txnum < r.footer.toTx)).map
      (fun r => (r.footer.fromHeight, r.footer.toHeight))

def blockTxRange (policy : FilterPolicy) (v : View) (height : UInt64) : Except String (Option (UInt64 × UInt32)) :=
  match chainRow policy v .blk height true with
  | none => .ok none
  | some val =>
    if val.length ≠ 12 then
      .error s!"store: blk/{height} is {val.length} bytes, want 12"
    else
      .ok (some (Bytes.uint64 (val.take 8), Bytes.uint32 (val.drop 8)))

def searchHeight (policy : FilterPolicy) (txnum : UInt64) : Nat → (Nat → View) → UInt64 → UInt64 → Option (Except String (Option UInt64))
  | 0, _, _, _ => none
  | fuel + 1, probes, lo, hi =>
    if lo < hi then
      let mid := (lo + hi + 1) / 2
      match blockTxRange policy (probes 0) mid with
      | .error e => some (.error e)
      | .ok none => some (.ok none)
      | .ok (some (first, _)) =>
        if first ≤ txnum then
          searchHeight policy txnum fuel (fun k => probes (k + 1)) mid hi
        else
          searchHeight policy txnum fuel (fun k => probes (k + 1)) lo (mid - 1)
    else
      some (.ok (some lo))

def heightOfTx (policy : FilterPolicy) (fuel : Nat) (bounds : View) (probes : Nat → View) (txnum : UInt64)
    : Option (Except String (Option UInt64)) :=
  match heightBounds bounds txnum with
  | none => some (.ok none)
  | some (lo, hi) => searchHeight policy txnum fuel probes lo hi

theorem toNat_mid {lo hi : UInt64} (hlt : lo < hi) (hhi : hi.toNat < 2 ^ 63)
    : ((lo + hi + 1) / 2).toNat = (lo.toNat + hi.toNat + 1) / 2 := by
  rw [UInt64.lt_iff_toNat_lt] at hlt
  have htwo : (2 : UInt64).toNat = 2 := rfl
  have hone : (1 : UInt64).toNat = 1 := rfl
  rw [UInt64.toNat_div, UInt64.toNat_add, UInt64.toNat_add, htwo, hone]
  omega

theorem searchHeight_spec (policy : FilterPolicy) {txnum : UInt64} {first : UInt64 → UInt64} {count : UInt64 → UInt32} {fuel : Nat}
    {probes : Nat → View} {lo hi : UInt64} (hle : lo ≤ hi) (hhi : hi.toNat < 2 ^ 63) (hfuel : hi.toNat - lo.toNat < 2 ^ fuel)
    (hprobe : ∀ k height, lo ≤ height → height ≤ hi →
      blockTxRange policy (probes k) height = .ok (some (first height, count height)))
    (hfirst : first lo ≤ txnum)
    : ∃ height, searchHeight policy txnum (fuel + 1) probes lo hi = some (.ok (some height)) ∧
        lo ≤ height ∧ height ≤ hi ∧ first height ≤ txnum ∧ (height = hi ∨ txnum < first (height + 1)) := by
  induction fuel generalizing probes lo hi with
  | zero =>
    have heq : lo = hi := by
      rw [UInt64.le_iff_toNat_le] at hle
      apply UInt64.toNat_inj.mp
      omega
    subst heq
    refine ⟨lo, ?_, UInt64.le_refl lo, UInt64.le_refl lo, hfirst, .inl rfl⟩
    rw [searchHeight, if_neg (UInt64.lt_irrefl lo)]
  | succ fuel ih =>
    rw [searchHeight]
    split
    . next hlt =>
      have hmid := toNat_mid hlt hhi
      dsimp only
      generalize (lo + hi + 1) / 2 = mid at hmid ⊢
      rw [UInt64.lt_iff_toNat_lt] at hlt
      rw [Nat.pow_succ] at hfuel
      have hlo : lo ≤ mid := by
        rw [UInt64.le_iff_toNat_le]
        omega
      have hhi' : mid ≤ hi := by
        rw [UInt64.le_iff_toNat_le]
        omega
      rw [hprobe 0 mid hlo hhi']
      dsimp only
      split
      . next hup =>
        rcases ih hhi' hhi (by omega) (fun k height hge => hprobe (k + 1) height (UInt64.le_trans hlo hge)) hup
          with ⟨height, hsearch, hge, hrest⟩
        exact ⟨height, hsearch, UInt64.le_trans hlo hge, hrest⟩
      . next hdown =>
        have hpred : (mid - 1).toNat + 1 = mid.toNat := by
          have hone : (1 : UInt64).toNat = 1 := rfl
          rw [UInt64.toNat_sub_of_le _ _ (by rw [UInt64.le_iff_toNat_le]; omega)]
          omega
        have hle' : lo ≤ mid - 1 := by
          rw [UInt64.le_iff_toNat_le]
          omega
        have hcap : mid - 1 ≤ hi := by
          rw [UInt64.le_iff_toNat_le]
          omega
        rcases ih hle' (by omega) (by omega)
          (fun k height hge hcap' => hprobe (k + 1) height hge (UInt64.le_trans hcap' hcap)) hfirst
          with ⟨height, hsearch, hge, hcap', hbelow, hnext⟩
        refine ⟨height, hsearch, hge, UInt64.le_trans hcap' hcap, hbelow, .inr ?_⟩
        rcases hnext with rfl | hnext
        . have hsucc : mid - 1 + 1 = mid := by simp
          rw [hsucc]
          exact UInt64.not_le.mp hdown
        . exact hnext
    . next hlt =>
      have heq : lo = hi := UInt64.le_antisymm hle (UInt64.not_lt.mp hlt)
      subst heq
      exact ⟨lo, rfl, UInt64.le_refl lo, UInt64.le_refl lo, hfirst, .inl rfl⟩

variable {bs : List BlockWrite} {i : Nat} {b : BlockWrite}

theorem height_of_getElem? {height : Nat} (h : Consecutive height bs)
    (hb : bs[i]? = some b) : b.height.toNat = height + i := by
  induction bs generalizing height i with
  | nil => cases hb
  | cons b' bs ih =>
    rcases h with ⟨hb', h⟩
    cases i with
    | zero =>
      cases hb
      exact hb'
    | succ i =>
      rw [ih h hb]
      omega

theorem slots_le_of_isPrefix {bs bs' : List BlockWrite} (h : bs <+: bs') : slots bs ≤ slots bs' := by
  rcases h with ⟨more, rfl⟩
  rw [slots_append]
  exact Nat.le_add_right _ _

theorem rowAt_eq_none {fam : Fam} (hfam : byHeight fam = true) {n : UInt64} (h : ∀ b ∈ bs, b.height ≠ n)
    (first : Nat) : rowAt first bs fam n = none := by
  induction bs generalizing first with
  | nil => rfl
  | cons b bs ih =>
    rw [rowAt, ih (fun b hb => h b (by simp [hb])), BlockWrite.rowAt, if_pos hfam, if_neg (h b (by simp))]
    rfl

theorem rowAt_of_getElem? {height : Nat} (h : Consecutive height bs) {fam : Fam}
    (hfam : byHeight fam = true) (hb : bs[i]? = some b) (first : Nat)
    : rowAt first bs fam b.height = heightRow b (UInt64.ofNat (first + slots (bs.take i))) fam := by
  induction bs generalizing height first i with
  | nil => cases hb
  | cons b' bs ih =>
    have hrest := h.2
    cases i with
    | zero =>
      cases hb
      have hne : ∀ b' ∈ bs, b'.height ≠ b.height := by
        intro b' hb' heq
        rcases mem_iff_getElem?.mp hb' with ⟨j, hj⟩
        have hheight := height_of_getElem? hrest hj
        rw [heq, h.1] at hheight
        omega
      rw [rowAt, rowAt_eq_none hfam hne, BlockWrite.rowAt, if_pos hfam, if_pos rfl]
      rfl
    | succ i =>
      have hne : b'.height ≠ b.height := by
        intro heq
        have hheight := height_of_getElem? hrest hb
        rw [← heq, h.1] at hheight
        omega
      rw [rowAt, ih hrest hb, BlockWrite.rowAt, if_pos hfam, if_neg hne, or_none, take_succ_cons, slots_cons,
        Nat.add_assoc]

theorem blockTxRange_of_row {policy : FilterPolicy} {v : View} {first : UInt64}
    (h : chainRow policy v .blk b.height true = some (b.blkVal first))
    : blockTxRange policy v b.height = .ok (some (first, UInt32.ofNat b.txs.length)) := by
  have hlen : (Bytes.putUint64 first).length = 8 := Bytes.length_putUint64 first
  unfold blockTxRange
  rw [h]
  dsimp only
  rw [if_neg (by simp [BlockWrite.blkVal])]
  unfold BlockWrite.blkVal
  rw [take_left' hlen, drop_left' hlen, Bytes.uint64_putUint64, Bytes.uint32_putUint32]

section Since

variable {crypto : Crypto} {s t : Sys} {l l' : RunBlocks} {fbs mbs fbs' mbs' : List BlockWrite}
  (policy : FilterPolicy) (hs : s.Parts crypto l fbs mbs) (ht : t.Parts crypto l' fbs' mbs')
  (hruns : l.flatMap (·.2) <+: l'.flatMap (·.2))

include hs ht hruns

theorem blockTxRange_since {i : Nat} {b : BlockWrite} (hb : s.blocks[i]? = some b)
    : blockTxRange policy (s.view.since t.view) b.height =
        .ok (some (UInt64.ofNat (slots (s.blocks.take i)), UInt32.ofNat b.txs.length)) := by
  rcases hs.stored.whole with ⟨height, hof⟩
  have hcons := hof.consecutive
  rw [← hs.blocks] at hcons
  apply blockTxRange_of_row
  apply chainRow_since policy hs ht hruns
  rw [chainGet_table hs.container (by rw [UInt64.toNat_zero, Nat.zero_add]; exact hs.slots_lt),
    rowAt_of_getElem? hcons rfl hb]
  simp [heightRow, fit_blkVal]

end Since

structure BoundsOf (bs : List BlockWrite) (txnum lo hi : UInt64) (before part after : List BlockWrite) : Prop where
  split : bs = before ++ part ++ after
  from_le : slots before ≤ txnum.toNat
  lt_next : txnum.toNat < slots before + slots part
  consecutive : Consecutive lo.toNat part
  last : hi.toNat + 1 = lo.toNat + part.length

section Bounds

variable {crypto : Crypto} {s t : Sys} {l l' : RunBlocks} {fbs mbs fbs' mbs' : List BlockWrite}

variable {txnum lo hi : UInt64}

theorem Sys.Parts.boundsOf (hs : s.Parts crypto l fbs mbs) {p : Span × List BlockWrite}
    (hp : p ∈ s.view.pieces l fbs mbs) (hfrom : p.1.baseTx ≤ txnum) (hnext : txnum < p.1.nextTx) (hlo : lo.toNat = p.1.baseHeight)
    (hhi : hi.toNat + 1 = p.1.nextHeight) : ∃ before after, BoundsOf s.blocks txnum lo hi before p.2 after := by
  have hof := hs.stored.pieces.2.2 p hp
  have htx := hof.nextTx
  rcases hs.stored.base_of_piece hp with ⟨before, after, hsplit, hbase⟩
  rw [UInt64.le_iff_toNat_le] at hfrom
  rw [UInt64.lt_iff_toNat_lt] at hnext
  rw [← hs.blocks] at hsplit
  refine ⟨before, after, hsplit, by omega, by omega, ?_, ?_⟩
  . rw [hlo]
    exact hof.consecutive
  . rw [hhi, hlo, hof.nextHeight]

theorem BoundsOf.mono {bs bs' before part after : List BlockWrite}
    (h : BoundsOf bs txnum lo hi before part after) (hbs : bs <+: bs')
    : ∃ after', BoundsOf bs' txnum lo hi before part after' := by
  rcases hbs with ⟨more, rfl⟩
  refine ⟨after ++ more, ?_, h.from_le, h.lt_next, h.consecutive, h.last⟩
  rw [h.split]
  simp

theorem toNat_nextHeight_sub_one {m : Memtable} {bs : List BlockWrite} (h : Took crypto m bs) (hstarted : m.started = true)
    : (m.nextHeight - 1).toNat + 1 = m.nextHeight.toNat := by
  have hnext := h.nextHeight
  have hpos := length_pos_iff.mpr (h.started.mp hstarted)
  have hone : (1 : UInt64).toNat = 1 := rfl
  rw [UInt64.toNat_sub_of_le _ _ (by rw [UInt64.le_iff_toNat_le]; omega)]
  omega

theorem boundsOf_of_window (hs : s.Parts crypto l fbs mbs) {m : Memtable} (hm : m ∈ s.view.mem :: s.view.frozen.toList)
    (hcov : (m.started && txnum ≥ m.baseTx && txnum < m.nextTx) = true)
    : ∃ before part after, BoundsOf s.blocks txnum m.baseHeight (m.nextHeight - 1) before part after := by
  simp only [Bool.and_eq_true, decide_eq_true_eq, ge_iff_le] at hcov
  rcases hcov with ⟨⟨hstarted, hfrom⟩, hnext⟩
  rw [mem_cons, mem_toList] at hm
  have hwindow : ∃ bs, (memSpan m, bs) ∈ s.view.pieces l fbs mbs ∧ Took crypto m bs := by
    rcases hm with rfl | hf
    . exact ⟨mbs, by simp [View.pieces], hs.stored.mem⟩
    . exact ⟨fbs, by simp [View.pieces, hf], (hs.stored.frozen m hf).1⟩
  rcases hwindow with ⟨bs, hp, htook⟩
  rcases hs.boundsOf hp hfrom hnext rfl (toNat_nextHeight_sub_one htook hstarted) with ⟨before, after, hbounds⟩
  exact ⟨before, bs, after, hbounds⟩

theorem boundsOf_of_run (hs : s.Parts crypto l fbs mbs) {r : Sealed.Run} (hr : r ∈ s.view.runs)
    (hcov : (txnum ≥ r.footer.fromTx && txnum < r.footer.toTx) = true)
    : ∃ before part after, BoundsOf s.blocks txnum r.footer.fromHeight r.footer.toHeight before part after := by
  simp only [Bool.and_eq_true, decide_eq_true_eq, ge_iff_le] at hcov
  rw [hs.stored.runs] at hr
  rcases mem_map.mp hr with ⟨p, hp, rfl⟩
  have hpiece : (runSpan p.1, p.2) ∈ s.view.pieces l fbs mbs := by
    unfold View.pieces
    rw [append_assoc]
    exact mem_append_left _ (mem_map_of_mem hp)
  rcases hs.boundsOf hpiece hcov.1 hcov.2 rfl rfl with ⟨before, after, hbounds⟩
  exact ⟨before, p.2, after, hbounds⟩

variable (hs : s.Parts crypto l fbs mbs) (ht : t.Parts crypto l' fbs' mbs')

include hs ht

theorem boundsOf_heightBounds (hblocks : s.blocks <+: t.blocks) (h : heightBounds (s.view.since t.view) txnum = some (lo, hi))
    : ∃ before part after, BoundsOf t.blocks txnum lo hi before part after := by
  unfold heightBounds View.since at h
  dsimp only at h
  split at h
  . next m hfind =>
    cases h
    have hcov := find?_some hfind
    rcases boundsOf_of_window hs (mem_of_find?_eq_some hfind) hcov with ⟨before, part, after, hbounds⟩
    exact ⟨before, part, hbounds.mono hblocks⟩
  . rcases map_eq_some_iff.mp h with ⟨r, hfind, heq⟩
    cases heq
    have hcov := find?_some hfind
    exact boundsOf_of_run ht (mem_of_find?_eq_some hfind) hcov

variable (hruns : l.flatMap (·.2) <+: l'.flatMap (·.2))

include hruns in
theorem heightBounds_isSome (h : txnum.toNat < slots s.blocks)
    : ∃ lo hi, heightBounds (s.view.since t.view) txnum = some (lo, hi) := by
  unfold heightBounds View.since
  dsimp only
  split
  . exact ⟨_, _, rfl⟩
  . next hnone =>
    rw [find?_eq_none] at hnone
    rw [hs.blocks] at h
    rcases hs.stored.covered h with ⟨p, hp, hfrom, hnext⟩
    have hof := hs.stored.pieces.2.2 p hp
    -- a window that covers a TxNum has blocks
    have hwindow : ∀ m bs, p = (memSpan m, bs) → m ∈ s.view.mem :: s.view.frozen.toList → Took crypto m bs → False := by
      rintro m bs rfl hm htook
      apply hnone m hm
      have hstarted : m.started = true := by
        apply htook.started.mpr
        rintro rfl
        have htx := hof.nextTx
        rw [slots_nil] at htx
        omega
      simp only [Bool.and_eq_true, decide_eq_true_eq, ge_iff_le, UInt64.le_iff_toNat_le, UInt64.lt_iff_toNat_lt]
      exact ⟨⟨hstarted, hfrom⟩, hnext⟩
    unfold View.pieces at hp
    rw [mem_append, mem_append, mem_toList, map_eq_some_iff, mem_singleton] at hp
    rcases hp with (hp | ⟨f, hf, rfl⟩) | rfl
    . rcases mem_map.mp hp with ⟨q, hq, rfl⟩
      have hto : txnum.toNat < q.1.footer.toTx.toNat := hnext
      have hlt := Nat.lt_of_lt_of_le hto (hs.stored.toTx_le hq)
      rcases ht.stored.covered_runs (Nat.lt_of_lt_of_le hlt (slots_le_of_isPrefix hruns)) with ⟨r, hr, hfrom', hnext'⟩
      cases hfind : t.view.runs.find? (fun r => txnum ≥ r.footer.fromTx && txnum < r.footer.toTx) with
      | none =>
        rw [find?_eq_none, ht.stored.runs] at hfind
        apply absurd _ (hfind r.1 (mem_map_of_mem hr))
        simp only [Bool.and_eq_true, decide_eq_true_eq, ge_iff_le, UInt64.le_iff_toNat_le, UInt64.lt_iff_toNat_lt]
        exact ⟨hfrom', hnext'⟩
      | some r' => exact ⟨_, _, rfl⟩
    . exact absurd (hs.stored.frozen f hf).1 (hwindow f fbs rfl (by simp [hf]))
    . exact absurd hs.stored.mem (hwindow s.view.mem mbs rfl (by simp))

end Bounds

theorem Stored.window_cases {crypto : Crypto} {v : View} {l : RunBlocks} {fbs mbs : List BlockWrite}
    (h : Stored crypto v l fbs mbs)
    : v.mem.started = true ∨ v.mem.started = false ∧ mbs = [] ∧
        ((∃ f, v.frozen = some f ∧ f.started = true ∧ (memSpan f).Follows (memSpan v.mem)) ∨
          v.frozen = none ∧ ((∃ r, v.runs.getLast? = some r ∧ (runSpan r).Follows (memSpan v.mem)) ∨ v.runs = [])) := by
  cases hmem : v.mem.started with
  | true => exact .inl rfl
  | false =>
    have hnil : mbs = [] := by
      by_contra hne
      rw [h.mem.started.mpr hne] at hmem
      cases hmem
    refine .inr ⟨rfl, hnil, ?_⟩
    cases hfrozen : v.frozen with
    | some f =>
      rcases h.frozen f hfrozen with ⟨htook, hne⟩
      exact .inl ⟨f, rfl, htook.started.mpr hne, h.follows (by simp [View.older, hfrozen])⟩
    | none =>
      refine .inr ⟨rfl, ?_⟩
      cases hruns : v.runs.getLast? with
      | none => exact .inr (getLast?_eq_none_iff.mp hruns)
      | some r => exact .inl ⟨r, rfl, h.follows (by simp [View.older, hfrozen, hruns])⟩

section End

variable {crypto : Crypto} {s : Sys} {l : RunBlocks} {fbs mbs : List BlockWrite}
  (h : s.Parts crypto l fbs mbs)

include h

theorem nextTx_eq : nextTx s.view = s.view.mem.nextTx := by
  unfold nextTx
  rcases h.stored.window_cases with hmem | ⟨hmem, hnil, hbefore⟩
  . rw [find?_cons_of_pos hmem]
  . have hbase : s.view.mem.nextTx = s.view.mem.baseTx := by
      have hnext := h.stored.mem.nextTx
      rw [hnil, slots_nil] at hnext
      exact UInt64.toNat_inj.mp hnext
    rw [find?_cons_of_neg (by simp [hmem]), hbase]
    rcases hbefore with ⟨f, hf, hstarted, hfollows⟩ | ⟨hf, ⟨r, hr, hfollows⟩ | hr⟩
    . rw [hf, toList_some, find?_cons_of_pos hstarted]
      exact hfollows.1.symm
    . rw [hf, toList_none, find?_nil, flushedTx, hr]
      exact hfollows.1.symm
    . rw [hf, hr]
      exact (h.stored.zero (memSpan s.view.mem) (by simp [View.older, hr, hf])).symm

theorem nextHeight_eq : nextHeight s.view = s.view.mem.nextHeight := by
  unfold nextHeight
  rcases h.stored.window_cases with hmem | ⟨hmem, hnil, hbefore⟩
  . rw [find?_cons_of_pos hmem]
  . have hbase : s.view.mem.nextHeight.toNat = s.view.mem.baseHeight.toNat := by
      have hnext := h.stored.mem.nextHeight
      rwa [hnil, length_nil, Nat.add_zero] at hnext
    rw [find?_cons_of_neg (by simp [hmem])]
    rcases hbefore with ⟨f, hf, hstarted, hfollows⟩ | ⟨hf, ⟨r, hr, hfollows⟩ | hr⟩
    . rw [hf, toList_some, find?_cons_of_pos hstarted]
      apply UInt64.toNat_inj.mp
      exact (hbase.trans hfollows.2).symm
    . rw [hf, toList_none, find?_nil, flushedHeight, hr]
      have hmem := mem_of_getLast? hr
      rw [h.stored.runs] at hmem
      rcases mem_map.mp hmem with ⟨p, hp, rfl⟩
      apply UInt64.toNat_inj.mp
      rw [hbase, map_some, getD_some, toNat_add_one (h.stored.holds p hp).toHeight_lt]
      exact hfollows.2.symm
    . rw [hf, hr]
      exact (h.stored.start (by simp [View.older, hr, hf]) hnil).symm

theorem toNat_nextTx : (nextTx s.view).toNat = slots s.blocks := by
  rcases h.stored.whole with ⟨height, hof⟩
  have hwhole := hof.nextTx
  simp only [UInt64.toNat_zero, Nat.zero_add] at hwhole
  rw [nextTx_eq h, hwhole, h.blocks]

end End

def Owns (bs : List BlockWrite) (height txnum : UInt64) : Prop :=
  ∃ i b, bs[i]? = some b ∧ b.height = height ∧ slots (bs.take i) ≤ txnum.toNat ∧
    txnum.toNat ≤ slots (bs.take i) + b.txs.length

theorem slots_take_succ (hb : bs[i]? = some b) : slots (bs.take (i + 1)) = slots (bs.take i) + b.slots := by
  rw [take_add_one, hb, slots_append]
  rfl

theorem slots_take_le (bs : List BlockWrite) {i j : Nat} (h : i ≤ j) : slots (bs.take i) ≤ slots (bs.take j) :=
  slots_le_of_isPrefix (take_prefix_take_left h)

theorem owns_unique {height height' txnum : UInt64} (h : Owns bs height txnum)
    (h' : Owns bs height' txnum) : height = height' := by
  rcases h with ⟨i, b, hb, rfl, hlo, hhi⟩
  rcases h' with ⟨j, b', hb', rfl, hlo', hhi'⟩
  have hi := slots_take_succ hb
  have hj := slots_take_succ hb'
  unfold BlockWrite.slots at hi hj
  have hij : i = j := by
    rcases Nat.lt_trichotomy i j with hlt | heq | hgt
    . have hle := slots_take_le bs (Nat.succ_le_of_lt hlt)
      rw [Nat.succ_eq_add_one] at hle
      omega
    . exact heq
    . have hle := slots_take_le bs (Nat.succ_le_of_lt hgt)
      rw [Nat.succ_eq_add_one] at hle
      omega
  subst hij
  rw [hb] at hb'
  cases hb'
  rfl

theorem owns_of_prefix {bs bs' : List BlockWrite} (hbs : bs <+: bs') {height txnum : UInt64} (hlt : txnum.toNat < slots bs)
    (h : Owns bs' height txnum) : Owns bs height txnum := by
  rcases hbs with ⟨more, rfl⟩
  rcases h with ⟨i, b, hb, hheight, hlo, hhi⟩
  have hi : i < bs.length := by
    by_contra hge
    rw [take_append, take_of_length_le (Nat.not_lt.mp hge), slots_append] at hlo
    omega
  rw [getElem?_append_left hi] at hb
  rw [take_append_of_le_length (Nat.le_of_lt hi)] at hlo hhi
  exact ⟨i, b, hb, hheight, hlo, hhi⟩

def Low (s : Sys) : Event → Prop
  | .write _ b => slots s.blocks + b.slots < 2 ^ 64 ∧ b.height.toNat < 2 ^ 63
  | _ => True

instance (s : Sys) (e : Event) : Decidable (Low s e) :=
  match e with
  | .write _ _ => inferInstanceAs (Decidable (_ ∧ _))
  | .cut | .publish | .merge _ _ => .isTrue trivial

theorem room_of_low {s : Sys} {e : Event} (h : Low s e) : Room s e := by
  cases e with
  | write file b =>
    refine ⟨h.1, ?_⟩
    unfold BlockWrite.HasNext
    have := h.2
    omega
  | _ => trivial

def firstOf (bs before : List BlockWrite) (lo height : UInt64) : UInt64 :=
  UInt64.ofNat (slots (bs.take (before.length + (height.toNat - lo.toNat))))

def countOf (bs before : List BlockWrite) (lo height : UInt64) : UInt32 :=
  UInt32.ofNat ((bs[before.length + (height.toNat - lo.toNat)]?.map (·.txs.length)).getD 0)

section BoundsOf

variable {bs before part after : List BlockWrite} {txnum lo hi : UInt64} (h : BoundsOf bs txnum lo hi before part after)

include h

theorem BoundsOf.part_pos : 0 < part.length := by
  have hfrom := h.from_le
  have hnext := h.lt_next
  apply length_pos_iff.mpr
  rintro rfl
  rw [slots_nil] at hnext
  omega

theorem BoundsOf.block {height : UInt64} (hlo : lo ≤ height) (hhi : height ≤ hi)
    : ∃ b, bs[before.length + (height.toNat - lo.toNat)]? = some b ∧ b.height = height := by
  have hlast := h.last
  rw [UInt64.le_iff_toNat_le] at hlo hhi
  have hlt : height.toNat - lo.toNat < part.length := by omega
  refine ⟨part[height.toNat - lo.toNat], ?_, ?_⟩
  . rw [h.split, append_assoc, getElem?_append_right (by omega), Nat.add_sub_cancel_left,
      getElem?_append_left hlt, getElem?_eq_getElem hlt]
  . apply UInt64.toNat_inj.mp
    rw [height_of_getElem? h.consecutive (getElem?_eq_getElem hlt)]
    omega

variable (hslots : slots bs < 2 ^ 64)

include hslots

omit h in
theorem toNat_firstOf (height : UInt64)
    : (firstOf bs before lo height).toNat = slots (bs.take (before.length + (height.toNat - lo.toNat))) := by
  unfold firstOf
  have hle := slots_le_of_isPrefix (List.take_prefix (before.length + (height.toNat - lo.toNat)) bs)
  exact UInt64.toNat_ofNat_of_lt' (show _ < 2 ^ 64 by omega)

theorem BoundsOf.firstOf_lo : firstOf bs before lo lo ≤ txnum := by
  rw [UInt64.le_iff_toNat_le, toNat_firstOf hslots, Nat.sub_self, Nat.add_zero, h.split, append_assoc, take_left]
  exact h.from_le

theorem BoundsOf.owns (hcap : hi.toNat < 2 ^ 63) {height : UInt64} (hlo : lo ≤ height) (hhi : height ≤ hi)
    (hbelow : firstOf bs before lo height ≤ txnum) (hnext : height = hi ∨ txnum < firstOf bs before lo (height + 1))
    : Owns bs height txnum := by
  rcases h.block hlo hhi with ⟨b, hb, hheight⟩
  have hlast := h.last
  have hsucc := slots_take_succ hb
  rw [UInt64.le_iff_toNat_le, toNat_firstOf hslots] at hbelow
  rw [UInt64.le_iff_toNat_le] at hlo hhi
  have hend : txnum.toNat < slots (bs.take (before.length + (height.toNat - lo.toNat) + 1)) := by
    rcases hnext with rfl | hnext
    . have hwhole : before.length + (height.toNat - lo.toNat) + 1 = (before ++ part).length := by
        rw [length_append]
        omega
      rw [hwhole, h.split, take_left, slots_append]
      exact h.lt_next
    . have hone : (height + 1).toNat = height.toNat + 1 := toNat_add_one (by omega)
      have hindex : before.length + (height.toNat - lo.toNat) + 1 = before.length + (height.toNat + 1 - lo.toNat) := by omega
      rw [UInt64.lt_iff_toNat_lt, toNat_firstOf hslots, hone] at hnext
      rw [hindex]
      exact hnext
  unfold BlockWrite.slots at hsucc
  exact ⟨_, b, hb, hheight, hbelow, by omega⟩

end BoundsOf

section Search

variable {crypto : Crypto} {t : Sys} {l : RunBlocks} {fbs mbs : List BlockWrite}
  (policy : FilterPolicy) (ht : t.Parts crypto l fbs mbs) {probes : Nat → Sys × Sys}
  (hprobes : ∀ k, Reachable (step crypto) Room t (probes k).1 ∧
    Reachable (step crypto) Room (probes k).1 (probes k).2)

include ht hprobes

theorem blockTxRange_probe {i : Nat} {b : BlockWrite} (hb : t.blocks[i]? = some b) (k : Nat)
    : blockTxRange policy ((probes k).1.view.since (probes k).2.view) b.height =
        .ok (some (UInt64.ofNat (slots (t.blocks.take i)), UInt32.ofNat b.txs.length)) := by
  rcases ht.later (hprobes k).1 with ⟨l', fbs', mbs', hp, -, ⟨more, hmore⟩⟩
  rcases hp.later (hprobes k).2 with ⟨l'', fbs'', mbs'', hp', hruns, -⟩
  have hi : i < t.blocks.length := by
    rw [getElem?_eq_some_iff] at hb
    exact hb.1
  have hb' : (probes k).1.blocks[i]? = some b := by
    rw [← hmore, getElem?_append_left hi]
    exact hb
  rw [blockTxRange_since policy hp hp' hruns hb', ← hmore, take_append_of_le_length (Nat.le_of_lt hi)]

theorem owns_of_search {txnum lo hi : UInt64} {before part after : List BlockWrite}
    (hbounds : BoundsOf t.blocks txnum lo hi before part after) (hhi : hi.toNat < 2 ^ 63) {fuel : Nat} (hfuel : 64 ≤ fuel)
    : ∃ height, searchHeight policy txnum fuel (fun k => (probes k).1.view.since (probes k).2.view) lo hi = some (.ok (some height)) ∧
        Owns t.blocks height txnum := by
  rcases Nat.exists_eq_add_of_le' (Nat.lt_of_lt_of_le Nat.zero_lt_one (Nat.le_trans (by decide) hfuel)) with ⟨fuel, rfl⟩
  have hpow : 2 ^ 63 ≤ 2 ^ fuel := Nat.pow_le_pow_right (by decide) (by omega)
  have hlast := hbounds.last
  have hpos := hbounds.part_pos
  have hle : lo ≤ hi := by
    rw [UInt64.le_iff_toNat_le]
    omega
  have hprobe : ∀ k height, lo ≤ height → height ≤ hi →
      blockTxRange policy ((probes k).1.view.since (probes k).2.view) height =
        .ok (some (firstOf t.blocks before lo height, countOf t.blocks before lo height)) := by
    intro k height hlo hhi
    rcases hbounds.block hlo hhi with ⟨b, hb, rfl⟩
    rw [blockTxRange_probe policy ht hprobes hb k, countOf, hb]
    rfl
  have hspan : hi.toNat - lo.toNat < 2 ^ fuel := by omega
  rcases searchHeight_spec policy hle hhi hspan hprobe (hbounds.firstOf_lo ht.slots_lt)
    with ⟨height, hsearch, hlo, hcap, hbelow, hnext⟩
  exact ⟨height, hsearch, hbounds.owns ht.slots_lt hhi hlo hcap hbelow hnext⟩

end Search

/--
The height of a TxNum is found when the heights are below 2^63, whatever is cut, sealed, merged or written
between the reads of the lookup. A TxNum that is not taken when the runs are read has none.
-/
theorem heightOfTx_of_low (policy : FilterPolicy) {crypto : Crypto} {s t : Sys}
    (hs : Reachable (step crypto) Low Sys.init s) (ht : Reachable (step crypto) Low s t)
    {probes : Nat → Sys × Sys}
    (hprobes : ∀ k, Reachable (step crypto) Low t (probes k).1 ∧
      Reachable (step crypto) Low (probes k).1 (probes k).2) {fuel : Nat} (hfuel : 64 ≤ fuel) (txnum : UInt64)
    : let answer := heightOfTx policy fuel (s.view.since t.view) (fun k => (probes k).1.view.since (probes k).2.view) txnum
      (txnum < nextTx s.view →
        ∃ height, answer = some (.ok (some height)) ∧ ∀ height', Owns s.blocks height' txnum ↔ height' = height) ∧
      (nextTx t.view ≤ txnum → answer = some (.ok none)) := by
  intro answer
  have hroom : ∀ s e, Low s e → Room s e := fun _ _ => room_of_low
  rcases (inv_of_reachable (hs.mono hroom)).parts with ⟨l, fbs, mbs, hps⟩
  rcases hps.later (ht.mono hroom) with ⟨l', fbs', mbs', hpt, hruns, hblocks⟩
  have hprobes' := fun k => And.intro ((hprobes k).1.mono hroom) ((hprobes k).2.mono hroom)
  have hlow : ∀ b ∈ t.blocks, b.height.toNat < 2 ^ 63 :=
    forall_blocks (forall_blocks (by simp [Sys.init]) (fun _ _ _ hg => hg.2) hs) (fun _ _ _ hg => hg.2) ht
  constructor
  . intro hlt
    rw [UInt64.lt_iff_toNat_lt, toNat_nextTx hps] at hlt
    rcases heightBounds_isSome hps hpt hruns hlt with ⟨lo, hi, hbounds⟩
    rcases boundsOf_heightBounds hps hpt hblocks hbounds with ⟨before, part, after, hof⟩
    have hhi : hi.toNat < 2 ^ 63 := by
      have hlast := hof.last
      have hpos := hof.part_pos
      rcases hof.block (by rw [UInt64.le_iff_toNat_le]; omega) (UInt64.le_refl hi) with ⟨b, hb, rfl⟩
      exact hlow b (mem_of_getElem? hb)
    rcases owns_of_search policy hpt hprobes' hof hhi hfuel with ⟨height, hsearch, howns⟩
    refine ⟨height, ?_, ?_⟩
    . simp only [answer, heightOfTx, hbounds]
      exact hsearch
    . intro height'
      have howns' := owns_of_prefix hblocks hlt howns
      constructor
      . intro h
        exact owns_unique h howns'
      . rintro rfl
        exact howns'
  . intro hge
    rw [UInt64.le_iff_toNat_le, toNat_nextTx hpt] at hge
    have hnone : heightBounds (s.view.since t.view) txnum = none := by
      cases hbounds : heightBounds (s.view.since t.view) txnum with
      | none => rfl
      | some p =>
        rcases boundsOf_heightBounds hps hpt hblocks hbounds with ⟨before, part, after, hof⟩
        have hnext := hof.lt_next
        have hsplit := congrArg slots hof.split
        rw [slots_append, slots_append] at hsplit
        omega
    simp only [answer, heightOfTx, hnone]

def twoBlocksCut : List Event :=
  [.write goodLog (emptyBlock 1), .write goodLog (emptyBlock 2), .cut]

theorem heightOfTx_of_low_moved
    : ∃ s t u, Transition.run (step emptyBlockCrypto) Sys.init twoBlocksCut = some s ∧
        Transition.run (step emptyBlockCrypto) s [.publish] = some t ∧
        Transition.run (step emptyBlockCrypto) t [.write goodLog (emptyBlock 3)] = some u ∧
        ∃ height, heightOfTx exactPolicy 64 (s.view.since t.view) (fun _ => t.view.since u.view) 1 = some (.ok (some height)) ∧
          ∀ height', Owns s.blocks height' 1 ↔ height' = height := by
  let checked := fun s e => if decide (Low s e) then step emptyBlockCrypto s e else none
  have hrun : ((Transition.run checked Sys.init twoBlocksCut).bind fun s => (Transition.run checked s [.publish]).bind fun t =>
      (Transition.run checked t [.write goodLog (emptyBlock 3)]).bind fun _ =>
        if 1 < nextTx s.view then some () else none) = some () := by
    decide +kernel
  simp only [bind_eq_some_iff] at hrun
  rcases hrun with ⟨s, hs, t, ht, u, hu, hnext⟩
  have hlt : 1 < nextTx s.view := by
    by_contra hge
    rw [if_neg hge] at hnext
    cases hnext
  have hok : ∀ s e, decide (Low s e) = true → Low s e := fun _ _ => of_decide_eq_true
  have htu := Reachable.run_checked hok .init hu
  refine ⟨s, t, u, run_of_run_checked hs, run_of_run_checked ht, run_of_run_checked hu, ?_⟩
  exact (@heightOfTx_of_low exactPolicy _ s t (Reachable.run_checked hok .init hs)
    (Reachable.run_checked hok .init ht) (fun _ => (t, u)) (fun _ => ⟨.init, htu⟩) 64 (Nat.le_refl 64) 1).1 hlt

theorem heightOfTx_wraps
    : (Transition.run (step emptyBlockCrypto) Sys.init
        [.write goodLog (emptyBlock 9223372036854775808),
          .write goodLog (emptyBlock 9223372036854775809)]).map
      (fun s => (nextTx s.view, (blockTxRange exactPolicy s.view 9223372036854775809).toOption,
        (heightOfTx exactPolicy 64 s.view (fun _ => s.view) 1).map (·.toOption))) =
      some (2, some (some (1, 0)), some (some none)) := by
  decide +kernel

end EpochDB.Store.Read
