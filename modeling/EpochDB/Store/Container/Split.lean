import EpochDB.Store.Container.Rlp

/-!
Splitting a container (`SplitContainer` of `store/container.go`) into its `pvm` row and the inner block, and
that the row, the header and the transactions give the container back.
-/

namespace EpochDB.Store.Container

open List

structure Codec (β : Type) where
  rlp : Rlp
  parse : Bytes → Except String Bytes
  decode : Bytes → Except String β
  encodeHeader : β → Except String Bytes
  encodeTxs : β → List (Except String Bytes)

variable {β : Type}

def encodeTxsFrom (i : Nat) (txs : List (Except String Bytes)) : Except String (List Bytes) :=
  match txs with
  | [] => .ok []
  | .error e :: _ => .error s!"store: encode tx {i}: {e}"
  | .ok enc :: txs => (encodeTxsFrom (i + 1) txs).map (enc :: ·)

def blockPieces (cd : Codec β) (b : β) : Except String (Bytes × List Bytes) :=
  match cd.encodeHeader b with
  | .error e => .error s!"store: encode header: {e}"
  | .ok headerRLP => (encodeTxsFrom 0 (cd.encodeTxs b)).map (fun txRLPs => (headerRLP, txRLPs))

structure Spans where
  hs : Nat
  he : Nat
  ts : Nat
  te : Nat
  deriving DecidableEq, Repr

def blockSpans (rlp : Rlp) (inner : Bytes) : Except String Spans :=
  match rlp.splitList inner with
  | .error e => .error s!"store: block is not an RLP list: {e}"
  | .ok (content, rest) =>
    match rlp.split content with
    | .error e => .error s!"store: block header element: {e}"
    | .ok (_, afterHeader) =>
      match rlp.splitList afterHeader with
      | .error e => .error s!"store: block transaction list: {e}"
      | .ok (txs, afterTxs) =>
        let ts := inner.length - afterTxs.length - txs.length
        .ok ⟨inner.length - rest.length - content.length, inner.length - afterHeader.length, ts, ts + txs.length⟩

def pvmTemplate (raw : Bytes) (hs he ts te : Nat) : Bytes :=
  let a := raw.take hs
  let b := (raw.take ts).drop he
  let c := raw.drop te
  Bytes.putUint32 (UInt32.ofNat a.length) ++ a ++ Bytes.putUint32 (UInt32.ofNat b.length) ++ b ++ c

def index (raw sub : Bytes) : Option Nat := (List.range (raw.length + 1)).find? (fun i => sub.isPrefixOf (raw.drop i))

def innerBytes (cd : Codec β) (raw : Bytes) : Except String Bytes :=
  match cd.parse raw with
  | .ok inner => .ok inner
  | .error perr =>
    match cd.rlp.split raw with
    | .error serr => .error s!"store: rlp split: {serr} (not a ProposerVM block either: {perr})"
    | .ok (_, rest) => .ok (raw.take (raw.length - rest.length))

def template (rlp : Rlp) (raw inner headerRLP : Bytes) (txRLPs : List Bytes) : Except String Bytes :=
  match index raw inner with
  | none => .error "store: inner block bytes are not a substring of the container"
  | some off =>
    match blockSpans rlp inner with
    | .error e => .error e
    | .ok sp =>
      let pvm := pvmTemplate raw (off + sp.hs) (off + sp.he) (off + sp.ts) (off + sp.te)
      match reassemble rlp.encodeList pvm headerRLP txRLPs with
      | .error e => .error e
      | .ok out =>
        if out = raw then
          .ok pvm
        else
          .error s!"store: container does not round trip ({raw.length} bytes in, {out.length} out)"

def splitContainer (cd : Codec β) (raw : Bytes) : Except String (Bytes × β) :=
  if raw.length = 0 then
    .error "store: empty container"
  else
    match innerBytes cd raw with
    | .error e => .error e
    | .ok inner =>
      match cd.decode inner with
      | .error e => .error s!"store: decode inner eth block: {e}"
      | .ok b =>
        match blockPieces cd b with
        | .error e => .error e
        | .ok (headerRLP, txRLPs) =>
          if reassemble cd.rlp.encodeList [] headerRLP txRLPs = .ok raw then
            .ok ([], b)
          else
            (template cd.rlp raw inner headerRLP txRLPs).map (fun pvm => (pvm, b))

theorem index_spec {raw sub front back : Bytes} (h : raw = front ++ (sub ++ back))
    : ∃ off, index raw sub = some off ∧ off ≤ front.length ∧ sub <+: raw.drop off := by
  have hfront : sub.isPrefixOf (raw.drop front.length) = true := by
    rw [h, drop_left, isPrefixOf_iff_prefix]
    exact prefix_append sub back
  unfold index
  cases hfind : (List.range (raw.length + 1)).find? (fun i => sub.isPrefixOf (raw.drop i)) with
  | none =>
    have hnone := find?_eq_none.mp hfind front.length
    exact absurd hfront (hnone (mem_range.mpr (by rw [h, length_append]; omega)))
  | some off =>
    have hfound : sub.isPrefixOf (raw.drop off) = true := find?_some (p := fun i => sub.isPrefixOf (raw.drop i)) hfind
    refine ⟨off, rfl, ?_, isPrefixOf_iff_prefix.mp hfound⟩
    -- an occurrence before the first one found would have been found
    by_contra hlt
    rcases find?_eq_some_iff_getElem.mp hfind with ⟨-, i, hi, hget, hbefore⟩
    rw [getElem_range] at hget
    have hno := hbefore front.length (by omega)
    rw [getElem_range, hfront] at hno
    cases hno

theorem reassemble_pvmTemplate (encodeList : Bytes → Bytes) {a b c : Bytes} (ha : a.length < 2 ^ 32) (hb : b.length < 2 ^ 32)
    (headerRLP : Bytes) (txRLPs : List Bytes)
    : reassemble encodeList (Bytes.putUint32 (UInt32.ofNat a.length) ++ a ++ Bytes.putUint32 (UInt32.ofNat b.length) ++ b ++ c) headerRLP txRLPs =
        .ok (a ++ headerRLP ++ b ++ txRLPs.flatten ++ c) := by
  have hla : (Bytes.uint32 (Bytes.putUint32 (UInt32.ofNat a.length))).toNat = a.length := by
    rw [Bytes.uint32_putUint32]
    exact UInt32.toNat_ofNat_of_lt' ha
  have hlb : (Bytes.uint32 (Bytes.putUint32 (UInt32.ofNat b.length))).toNat = b.length := by
    rw [Bytes.uint32_putUint32]
    exact UInt32.toNat_ofNat_of_lt' hb
  have hlen4 := Bytes.length_putUint32
  simp only [append_assoc]
  generalize hpa : Bytes.putUint32 (UInt32.ofNat a.length) = pa at hla
  generalize hpb : Bytes.putUint32 (UInt32.ofNat b.length) = pb at hlb
  have hpa : pa.length = 4 := by
    rw [← hpa]
    exact hlen4 _
  have hpb : pb.length = 4 := by
    rw [← hpb]
    exact hlen4 _
  have hdropa : (pa ++ (a ++ (pb ++ (b ++ c)))).drop (4 + a.length) = pb ++ (b ++ c) := by
    rw [← drop_drop, drop_left' hpa, drop_left]
  have hdropb : (pa ++ (a ++ (pb ++ (b ++ c)))).drop (8 + a.length) = b ++ c := by
    have hsum : 8 + a.length = 4 + a.length + 4 := by omega
    rw [hsum, ← drop_drop, hdropa, drop_left' hpb]
  have hdropc : (pa ++ (a ++ (pb ++ (b ++ c)))).drop (8 + a.length + b.length) = c := by
    rw [← drop_drop, hdropb, drop_left]
  unfold reassemble
  rw [if_neg (by simp only [length_append]; omega), if_neg (by simp only [length_append]; omega), take_left' hpa, hla]
  dsimp only
  rw [if_neg (by simp only [length_append]; omega), hdropa, take_left' hpb, hlb,
    if_neg (by simp only [length_append]; omega), drop_left' hpa, take_left, hdropb, take_left, hdropc]
  simp only [append_assoc]

theorem blockSpans_eq_ok {rlp : Rlp} (hrlp : rlp.Lawful) {inner header txs extra : Bytes} (hlen : inner.length < 2 ^ 64)
    (hinner : inner = rlp.encodeList (rlp.encodeList header ++ (rlp.encodeList txs ++ extra)))
    : ∃ pre mid, pre.length ≤ 9 ∧ mid.length ≤ 9 ∧ inner = pre ++ (rlp.encodeList header ++ (mid ++ (txs ++ extra))) ∧
        blockSpans rlp inner = .ok ⟨pre.length, pre.length + (rlp.encodeList header).length,
          pre.length + (rlp.encodeList header).length + mid.length,
          pre.length + (rlp.encodeList header).length + mid.length + txs.length⟩ := by
  rcases hrlp.encodeList_eq (rlp.encodeList header ++ (rlp.encodeList txs ++ extra)) with ⟨pre, -, hpre, hcontent⟩
  rcases hrlp.encodeList_eq txs with ⟨mid, -, hmid, htxs⟩
  rcases hrlp.encodeList_eq header with ⟨head, -, -, hheader⟩
  have hpieces : inner = pre ++ (rlp.encodeList header ++ (mid ++ (txs ++ extra))) := by
    rw [hinner, hcontent, htxs, append_assoc mid]
  have hlength := congrArg List.length hpieces
  have hlengthTxs := congrArg List.length htxs
  have hlengthHeader := congrArg List.length hheader
  simp only [length_append] at hlength hlengthTxs hlengthHeader
  have hsplit := hrlp.splitList_encodeList (rlp.encodeList header ++ (rlp.encodeList txs ++ extra)) []
    (by simp only [length_append]; omega)
  rw [append_nil, ← hinner] at hsplit
  refine ⟨pre, mid, hpre, hmid, hpieces, ?_⟩
  unfold blockSpans
  rw [hsplit]
  dsimp only
  rw [hrlp.split_encodeList header _ (by omega)]
  dsimp only
  rw [hrlp.splitList_encodeList txs _ (by omega)]
  dsimp only
  rw [Except.ok.injEq, Spans.mk.injEq]
  simp only [length_append, length_nil]
  omega

theorem encodeTxsFrom_map (i : Nat) (txs : List Bytes) : encodeTxsFrom i (txs.map .ok) = .ok txs := by
  induction txs generalizing i with
  | nil => rfl
  | cons tx txs ih =>
    rw [map_cons, encodeTxsFrom, ih]
    rfl

/--
How a container is parsed: as a proposervm block, or as a bare block that may be followed by more. In front of
the inner block a proposervm block has its fixed fields and a certificate of at most 2 KiB, so that its place
fits 32 bits by far.
-/
inductive Parses (cd : Codec β) (raw inner : Bytes) : Prop where
  | wrapped (front back : Bytes) (hparse : cd.parse raw = .ok inner) (hraw : raw = front ++ (inner ++ back))
    (hfront : front.length + 9 < 2 ^ 32)
  | bare (perr : String) (rest : Bytes) (hparse : cd.parse raw = .error perr) (hraw : raw = inner ++ rest)

structure Canonical (cd : Codec β) (inner : Bytes) (b : β) (header : Bytes) (txs : List Bytes) (extra : Bytes) : Prop where
  shape : inner = cd.rlp.encodeList (cd.rlp.encodeList header ++ (cd.rlp.encodeList txs.flatten ++ extra))
  decodes : cd.decode inner = .ok b
  encodesHeader : cd.encodeHeader b = .ok (cd.rlp.encodeList header)
  encodesTxs : cd.encodeTxs b = txs.map .ok

section Round

variable {cd : Codec β} {raw inner header extra : Bytes} {txs : List Bytes} {b : β}

theorem Canonical.blockPieces (h : Canonical cd inner b header txs extra)
    : Container.blockPieces cd b = .ok (cd.rlp.encodeList header, txs) := by
  unfold Container.blockPieces
  rw [h.encodesHeader, h.encodesTxs, encodeTxsFrom_map]
  rfl

theorem template_eq_ok {rlp : Rlp} (hrlp : rlp.Lawful) {front back : Bytes} (hsmall : raw.length < 2 ^ 63)
    (hinner : inner = rlp.encodeList (rlp.encodeList header ++ (rlp.encodeList txs.flatten ++ extra)))
    (hraw : raw = front ++ (inner ++ back)) (hfront : front.length + 9 < 2 ^ 32)
    : ∃ pvm, template rlp raw inner (rlp.encodeList header) txs = .ok pvm ∧
        reassemble rlp.encodeList pvm (rlp.encodeList header) txs = .ok raw := by
  rcases index_spec hraw with ⟨off, hindex, hoff, tail, htail⟩
  have hlen : inner.length < 2 ^ 64 := by
    rw [hraw, length_append, length_append] at hsmall
    omega
  rcases blockSpans_eq_ok hrlp hlen hinner with ⟨pre, mid, hhead, hheadTxs, hpieces, hspans⟩
  generalize rlp.encodeList header = headerRLP at hpieces hspans ⊢
  -- the container around the occurrence that was found
  have hcut : raw = (raw.take off ++ pre) ++ (headerRLP ++ (mid ++ (txs.flatten ++ (extra ++ tail)))) := by
    conv => lhs; rw [← take_append_drop off raw, ← htail, hpieces]
    simp only [append_assoc]
  have hlenOff : (raw.take off).length = off := by
    rw [length_take, Nat.min_eq_left]
    rw [hraw, length_append]
    omega
  generalize hA : raw.take off ++ pre = A at hcut
  have hlenA : A.length = off + pre.length := by
    rw [← hA, length_append, hlenOff]
  have htemplate : pvmTemplate raw (off + pre.length) (off + (pre.length + (headerRLP).length))
      (off + (pre.length + (headerRLP).length + mid.length))
      (off + (pre.length + (headerRLP).length + mid.length + txs.flatten.length)) =
        Bytes.putUint32 (UInt32.ofNat A.length) ++ A ++ Bytes.putUint32 (UInt32.ofNat mid.length) ++ mid ++ (extra ++ tail) := by
    have ha : raw.take (off + pre.length) = A := by
      rw [← hlenA, hcut, take_left]
    have hb : (raw.take (off + (pre.length + (headerRLP).length + mid.length))).drop (off + (pre.length + (headerRLP).length)) =
        mid := by
      have hts : off + (pre.length + (headerRLP).length + mid.length) = (A ++ (headerRLP ++ mid)).length := by
        rw [length_append, length_append, hlenA]
        omega
      have hhe : off + (pre.length + (headerRLP).length) = (A ++ headerRLP).length := by
        rw [length_append, hlenA]
        omega
      rw [hts, hhe, hcut]
      have hassoc : A ++ (headerRLP ++ (mid ++ (txs.flatten ++ (extra ++ tail)))) =
          (A ++ (headerRLP ++ mid)) ++ (txs.flatten ++ (extra ++ tail)) := by
        simp only [append_assoc]
      rw [hassoc, take_left, ← append_assoc, drop_left]
    have hc : raw.drop (off + (pre.length + (headerRLP).length + mid.length + txs.flatten.length)) = extra ++ tail := by
      have hte : off + (pre.length + (headerRLP).length + mid.length + txs.flatten.length) =
          (A ++ (headerRLP ++ (mid ++ txs.flatten))).length := by
        simp only [length_append]
        omega
      have hassoc : A ++ (headerRLP ++ (mid ++ (txs.flatten ++ (extra ++ tail)))) =
          (A ++ (headerRLP ++ (mid ++ txs.flatten))) ++ (extra ++ tail) := by
        simp only [append_assoc]
      rw [hte, hcut, hassoc, drop_left]
    unfold pvmTemplate
    dsimp only
    rw [ha, hb, hc]
  have hout : A ++ headerRLP ++ mid ++ txs.flatten ++ (extra ++ tail) = raw := by
    rw [hcut]
    simp only [append_assoc]
  have hreassemble := reassemble_pvmTemplate rlp.encodeList (a := A) (b := mid) (c := extra ++ tail) (by omega) (by omega) headerRLP txs
  rw [← htemplate, hout] at hreassemble
  refine ⟨_, ?_, hreassemble⟩
  unfold template
  rw [hindex, hspans]
  dsimp only
  rw [hreassemble]
  dsimp only
  rw [if_pos rfl]

theorem Parses.innerBytes (h : Parses cd raw inner) (hrlp : cd.rlp.Lawful) (hsmall : raw.length < 2 ^ 63)
    (hcanonical : Canonical cd inner b header txs extra) : Container.innerBytes cd raw = .ok inner := by
  unfold Container.innerBytes
  cases h with
  | wrapped front back hparse hraw hfront => rw [hparse]
  | bare perr rest hparse hraw =>
    have hinner := hcanonical.shape
    rcases hrlp.encodeList_eq (cd.rlp.encodeList header ++ (cd.rlp.encodeList txs.flatten ++ extra)) with ⟨pre, -, -, hpre⟩
    have hlen := congrArg List.length hpre
    rw [← hinner, length_append] at hlen
    rw [hraw, length_append] at hsmall
    have hsplit := hrlp.split_encodeList (cd.rlp.encodeList header ++ (cd.rlp.encodeList txs.flatten ++ extra)) rest (by omega)
    rw [← hinner, ← hraw] at hsplit
    rw [hparse, hsplit]
    dsimp only
    rw [hraw, length_append, Nat.add_sub_cancel, take_left]

/--
Every container that parses is split, and its row, header and transactions give it back byte for byte.
-/
theorem splitContainer_eq_ok (hrlp : cd.rlp.Lawful) (hsmall : raw.length < 2 ^ 63) (hparses : Parses cd raw inner)
    (hcanonical : Canonical cd inner b header txs extra)
    : ∃ pvm, splitContainer cd raw = .ok (pvm, b) ∧
        reassemble cd.rlp.encodeList pvm (cd.rlp.encodeList header) txs = .ok raw := by
  have hinner := hcanonical.shape
  have hplace : ∃ front back, raw = front ++ (inner ++ back) ∧ front.length + 9 < 2 ^ 32 := by
    cases hparses with
    | wrapped front back hparse hraw hfront => exact ⟨front, back, hraw, hfront⟩
    | bare perr rest hparse hraw => exact ⟨[], rest, hraw, by decide⟩
  rcases hplace with ⟨front, back, hraw, hfront⟩
  have hpos : ¬ raw.length = 0 := by
    rcases hrlp.encodeList_eq (cd.rlp.encodeList header ++ (cd.rlp.encodeList txs.flatten ++ extra)) with ⟨pre, hpre, -, hlist⟩
    rw [hraw, hinner, hlist]
    simp only [length_append]
    omega
  unfold splitContainer
  rw [if_neg hpos, hparses.innerBytes hrlp hsmall hcanonical]
  dsimp only
  rw [hcanonical.decodes]
  dsimp only
  rw [hcanonical.blockPieces]
  dsimp only
  split
  . next hshort => exact ⟨[], rfl, hshort⟩
  . rcases template_eq_ok hrlp hsmall hinner hraw hfront with ⟨pvm, htemplate, hreassemble⟩
    refine ⟨pvm, ?_, hreassemble⟩
    rw [htemplate]
    rfl

end Round

open Libevm

def optionCodec : Codec (Bytes × Bytes) where
  rlp := rlp
  parse raw :=
    if raw.take 6 = [0, 0, 0, 0, 0, 1] ∧ raw.length = 42 + (Bytes.uint32 ((raw.drop 38).take 4)).toNat then
      .ok (raw.drop 42)
    else
      .error "can't unmarshal"
  decode inner := (blockSpans rlp inner).map (fun sp => ((inner.take sp.he).drop sp.hs, (inner.take sp.te).drop sp.ts))
  encodeHeader b := .ok b.1
  encodeTxs b := [.ok b.2]

def versionedBlock : Bytes := rlpList (rlpList [1] ++ (rlpList [5] ++ [0xc0, 0x80]))

def optionBlock : Bytes := [0, 0, 0, 0, 0, 1] ++ List.replicate 32 7 ++ [0, 0, 0, 7] ++ versionedBlock

theorem splitContainer_optionBlock
    : ∃ pvm, splitContainer optionCodec optionBlock = .ok (pvm, (rlpList [1], [5])) ∧
        reassemble rlpList pvm (rlpList [1]) [[5]] = .ok optionBlock := by
  have hrlp : optionCodec.rlp.Lawful := rlp_lawful
  have hsmall : optionBlock.length < 2 ^ 63 := by decide
  have hparses : Parses optionCodec optionBlock versionedBlock :=
    .wrapped (optionBlock.take 42) [] rfl rfl (by decide)
  have hcanonical : Canonical optionCodec versionedBlock (rlpList [1], [5]) [1] [[5]] [0xc0, 0x80] :=
    ⟨rfl, rfl, rfl, rfl⟩
  exact splitContainer_eq_ok hrlp hsmall hparses hcanonical

end EpochDB.Store.Container
