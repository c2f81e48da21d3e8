import EpochDB.Rpc.Params
import EpochDB.Store.Read.Postings

/-!
The transaction an account sent with a nonce (`ots_getTransactionBySenderAndNonce` of `rpc/otterscan.go`),
from the postings of the account.
-/

namespace EpochDB.Rpc

open List Store

structure TxType (τ : Type) where
  decode : Bytes → Except String τ
  hash : τ → Hash
  nonce : τ → UInt64

section

variable {τ : Type} (ty : TxType τ) (policy : Sealed.FilterPolicy) (v : Read.View)

def otsHeadTx : Option UInt64 := if Read.nextTx v = 0 then none else some (Read.nextTx v - 1)

def txAt (num : UInt64) : Except RpcError τ :=
  match Read.chainRow policy v .tx num false with
  | none => .error (errRead s!"tx/{num} is not stored")
  | some raw =>
    match ty.decode raw with
    | .error e => .error (errRead s!"decode tx/{num}: {e}")
    | .ok tx => .ok tx

structure NonceWalk where
  found : Option Hash
  fail : Option RpcError

def nonceStep (nonce : UInt64) (w : NonceWalk) (p : Posting) : NonceWalk × Bool :=
  if p.payload &&& roleSender = 0 then
    (w, true)
  else
    match txAt ty policy v p.txnum with
    | .error e => ({ w with fail := some e }, false)
    | .ok tx =>
      if ty.nonce tx < nonce then
        (w, true)
      else if ty.nonce tx = nonce then
        ({ w with found := some (ty.hash tx) }, false)
      else
        -- past the target: nonces never come back down
        (w, false)

def txBySenderAndNonce (sender : Addr) (nonce : UInt64) : Except RpcError (Option Hash) :=
  match otsHeadTx v with
  | none => .ok none
  | some head =>
    match Read.postings policy v (addrPrefix sender) 0 head false (nonceStep ty policy v nonce) ⟨none, none⟩ with
    | .error e => .error (errRead e)
    | .ok w =>
      match w.fail with
      | some e => .error e
      | none => .ok w.found

end

variable {τ : Type} (ty : TxType τ)

def sentIn (sender : Addr) (txs : List (UInt64 × TxWrite)) : List τ :=
  (txs.filter (fun p => p.2.sender = some sender)).filterMap (fun p => (ty.decode p.2.rlp).toOption)

def sent (bs : List BlockWrite) (sender : Addr) : List τ := sentIn ty sender (numbered 0 bs)

def Decodes (txs : List (UInt64 × TxWrite)) : Prop := ∀ p ∈ txs, ∃ tx, ty.decode p.2.rlp = .ok tx

def NoncesRise (bs : List BlockWrite) : Prop :=
  ∀ sender, (sent ty bs sender).Pairwise (fun tx tx' => ty.nonce tx < ty.nonce tx')

section Walk

variable {ty} {policy : Sealed.FilterPolicy} {v : Read.View} {sender : Addr} (nonce : UInt64)

theorem sentIn_cons (p : UInt64 × TxWrite) (txs : List (UInt64 × TxWrite))
    : sentIn ty sender (p :: txs) =
        if p.2.sender = some sender then
          (ty.decode p.2.rlp).toOption.toList ++ sentIn ty sender txs
        else
          sentIn ty sender txs := by
  unfold sentIn
  rw [filter_cons]
  split
  . next h =>
    rw [if_pos (of_decide_eq_true h), filterMap_cons]
    cases (ty.decode p.2.rlp).toOption with
    | none => rfl
    | some tx => rfl
  . next h =>
    rw [if_neg (fun hs => h (decide_eq_true hs))]

theorem feed_of_ne {p : UInt64 × TxWrite} (hne : p.2.sender ≠ some sender) (w : NonceWalk) (es : List Posting)
    : Read.feed (nonceStep ty policy v nonce) w ((Read.postOf (addrPrefix sender) p).toList ++ es) =
        Read.feed (nonceStep ty policy v nonce) w es := by
  unfold Read.postOf
  cases hlookup : (Memtable.txPostings p.2).lookup (addrPrefix sender) with
  | none => rfl
  | some payload =>
    have hzero : payload &&& roleSender = 0 := by
      by_contra hbit
      rw [← ne_eq, TxWrite.role_iff (by decide) hlookup, TxWrite.sender_iff] at hbit
      exact hne hbit
    simp only [Option.map_some, Option.toList_some, singleton_append, Read.feed]
    rw [nonceStep, if_pos hzero]

theorem postOf_of_sender {p : UInt64 × TxWrite} (hs : p.2.sender = some sender)
    : ∃ payload, Read.postOf (addrPrefix sender) p = some ⟨addrPrefix sender, p.1, payload⟩ ∧ payload &&& roleSender ≠ 0 := by
  have hmark := TxWrite.sender_iff.mpr hs
  rcases (TxWrite.isSome_lookup_iff p.2 (addrPrefix sender)).mpr ⟨_, hmark⟩ with ⟨payload, hlookup⟩
  refine ⟨payload, ?_, (TxWrite.role_iff (by decide) hlookup).mpr hmark⟩
  unfold Read.postOf
  rw [hlookup]
  rfl

theorem feed_nonceStep {txs : List (UInt64 × TxWrite)} (hdec : Decodes ty txs)
    (hrow : ∀ p ∈ txs, txAt ty policy v p.1 = (ty.decode p.2.rlp).mapError (fun e => errRead s!"decode tx/{p.1}: {e}"))
    (hrise : (sentIn ty sender txs).Pairwise (fun tx tx' => ty.nonce tx < ty.nonce tx'))
    : (Read.feed (nonceStep ty policy v nonce) ⟨none, none⟩ (txs.filterMap (Read.postOf (addrPrefix sender)))).1 =
        ⟨((sentIn ty sender txs).find? (fun tx => ty.nonce tx = nonce)).map ty.hash, none⟩ := by
  induction txs with
  | nil => rfl
  | cons p txs ih =>
    have ih := ih (fun q hq => hdec q (mem_cons_of_mem p hq)) (fun q hq => hrow q (mem_cons_of_mem p hq))
    rw [filterMap_eq_flatMap_toList, flatMap_cons, ← filterMap_eq_flatMap_toList, sentIn_cons]
    rw [sentIn_cons] at hrise
    by_cases hs : p.2.sender = some sender
    . rcases hdec p mem_cons_self with ⟨tx, htx⟩
      rcases postOf_of_sender hs with ⟨payload, hpost, hbit⟩
      have hat : txAt ty policy v p.1 = .ok tx := by
        rw [hrow p mem_cons_self, htx]
        rfl
      rw [if_pos hs, htx] at hrise
      rcases pairwise_cons.mp hrise with ⟨hlater, hrest⟩
      rw [if_pos hs, hpost, htx]
      simp only [Option.toList_some, singleton_append, Read.feed, Except.toOption]
      rw [nonceStep, if_neg hbit, hat]
      dsimp only
      rw [find?_cons]
      by_cases hlt : ty.nonce tx < nonce
      . rw [if_pos hlt, decide_eq_false (UInt64.ne_of_lt hlt)]
        exact ih hrest
      . rw [if_neg hlt]
        by_cases heq : ty.nonce tx = nonce
        . rw [if_pos heq, decide_eq_true heq]
          rfl
        . rw [if_neg heq, decide_eq_false heq]
          have hnone : (sentIn ty sender txs).find? (fun tx => ty.nonce tx = nonce) = none := by
            rw [find?_eq_none]
            intro tx' htx' heq'
            have hrises := hlater tx' htx'
            rw [of_decide_eq_true heq'] at hrises
            exact hlt hrises
          rw [hnone]
          rfl
    . rw [if_neg hs] at hrise ⊢
      rw [feed_of_ne nonce hs]
      exact ih hrise

end Walk

variable {crypto : Crypto} {s : Read.Sys}

theorem otsHeadTx_eq {l : RunBlocks} {fbs mbs : List BlockWrite} (h : s.Parts crypto l fbs mbs)
    : otsHeadTx s.view = if s.blocks = [] then none else some (UInt64.ofNat (slots s.blocks - 1)) := by
  have hnext := Read.toNat_nextTx h
  have hlt := h.slots_lt
  unfold otsHeadTx
  cases hbs : s.blocks with
  | nil =>
    rw [hbs] at hnext
    rw [if_pos rfl, if_pos (UInt64.toNat_inj.mp hnext)]
  | cons b bs =>
    have hpos : 0 < slots s.blocks := by
      rw [hbs, slots_cons, BlockWrite.slots]
      omega
    have hone : (1 : UInt64).toNat = 1 := rfl
    have hne : Read.nextTx s.view ≠ 0 := by
      intro hzero
      rw [hzero, UInt64.toNat_zero] at hnext
      omega
    rw [if_neg (cons_ne_nil b bs), if_neg hne, ← hbs, Option.some.injEq]
    apply UInt64.toNat_inj.mp
    rw [UInt64.toNat_sub_of_le _ _ (by rw [UInt64.le_iff_toNat_le]; omega), hnext,
      UInt64.toNat_ofNat_of_lt' (show _ < 2 ^ 64 by omega)]
    rfl

theorem le_of_mem_numbered {l : RunBlocks} {fbs mbs : List BlockWrite}
    (h : s.Parts crypto l fbs mbs) {p : UInt64 × TxWrite} (hp : p ∈ numbered 0 s.blocks)
    : 0 ≤ p.1 ∧ p.1 ≤ UInt64.ofNat (slots s.blocks - 1) := by
  have hlt := h.slots_lt
  have hin := toNat_of_mem_numbered (by rw [UInt64.toNat_zero, Nat.zero_add]; exact hlt) hp
  refine ⟨UInt64.zero_le, ?_⟩
  rw [UInt64.le_iff_toNat_le, UInt64.toNat_ofNat_of_lt' (show _ < 2 ^ 64 by omega)]
  rw [UInt64.toNat_zero] at hin
  omega

theorem txAt_eq (policy : Sealed.FilterPolicy) (h : s.Inv crypto) (hfit : ∀ b ∈ s.blocks, b.Fits)
    {p : UInt64 × TxWrite} (hp : p ∈ numbered 0 s.blocks)
    : txAt ty policy s.view p.1 = (ty.decode p.2.rlp).mapError (fun e => errRead s!"decode tx/{p.1}: {e}") := by
  rcases h.parts with ⟨l, fbs, mbs, hparts⟩
  have hlt := hparts.slots_lt
  have hat : rowAt (0 : UInt64).toNat s.blocks .tx p.1 = some p.2.rlp :=
    rowAt_of_mem_numbered (by decide) (by rw [UInt64.toNat_zero, Nat.zero_add]; exact hlt) hp
  have hrow : Read.chainRow policy s.view .tx p.1 false = some p.2.rlp :=
    ((answersNaive_of_inv policy h hfit).chainRow .tx p.1).trans hat
  unfold txAt
  rw [hrow]
  dsimp only
  cases ty.decode p.2.rlp with
  | error e => rfl
  | ok tx => rfl

/--
The lookup answers with the transaction the account sent with the nonce, however its postings are spread
over the runs and the windows.
-/
theorem txBySenderAndNonce_eq (policy : Sealed.FilterPolicy) {crypto : Crypto} {s : Read.Sys}
    (h : Transition.Reachable (Read.step crypto) Read.Roomy Read.Sys.init s) (hdec : Decodes ty (numbered 0 s.blocks))
    (hrise : NoncesRise ty s.blocks) (sender : Addr) (nonce : UInt64)
    : txBySenderAndNonce ty policy s.view sender nonce =
        .ok (((sent ty s.blocks sender).find? (fun tx => ty.nonce tx = nonce)).map ty.hash) := by
  have hinv := Read.inv_of_reachable (h.mono fun _ _ => Read.room_of_roomy)
  rcases hinv.parts with ⟨l, fbs, mbs, hparts⟩
  unfold txBySenderAndNonce
  rw [otsHeadTx_eq hparts]
  split
  . next hnil =>
    split at hnil
    . next hbs =>
      rw [hbs]
      rfl
    . cases hnil
  . next head hhead =>
    split at hhead
    . cases hhead
    . cases hhead
      have hgroup : IsGroup (addrPrefix sender) := .addr sender
      have hkey : isPostingKey (addrPrefix sender) = true := by simpa using isPostingKey_append hgroup []
      rw [Read.postings_eq policy hkey _ _ hparts, posts_table hparts.container,
        Read.filter_under hgroup (fun p hp => le_of_mem_numbered hparts hp)]
      dsimp only
      rw [feed_nonceStep nonce hdec (fun p hp => txAt_eq ty policy hinv (fits_of_roomy h) hp) (hrise sender)]
      rfl

def addrOf (n : UInt8) : Addr := ⟨List.replicate 20 n, by simp⟩

def nonceOnly : TxType UInt8 where
  decode
    | [0xc1, nonce] => .ok nonce
    | _ => .error "rlp: expected input list"
  hash nonce := ⟨List.replicate 32 nonce, by simp⟩
  nonce := UInt8.toUInt64

def nonceTx (sender recipient nonce : UInt8) : TxWrite where
  hash := nonceOnly.hash nonce
  rlp := [0xc1, nonce]
  receipt := []
  frames := []
  frameAddrs := []
  state := []
  sender := some (addrOf sender)
  recipient := some (addrOf recipient)
  created := none
  logs := []

def nonceBlock (height : UInt64) (txs : List TxWrite) : BlockWrite where
  height := height
  headerRLP := [0xc0]
  pvm := []
  txs := txs
  code := []
  tail := []

def backAndForth : List BlockWrite :=
  [nonceBlock 1 [nonceTx 1 2 0, nonceTx 2 1 5], nonceBlock 2 [nonceTx 2 1 6, nonceTx 1 2 1]]

theorem sent_backAndForth (sender : Addr)
    : sent nonceOnly backAndForth sender =
        if sender = addrOf 1 then [0, 1] else if sender = addrOf 2 then [5, 6] else [] := by
  have hne : addrOf 1 ≠ addrOf 2 := by decide
  have hall : numbered 0 backAndForth = [(0, nonceTx 1 2 0), (1, nonceTx 2 1 5), (3, nonceTx 2 1 6), (4, nonceTx 1 2 1)] := by
    decide +kernel
  unfold sent
  rw [hall]
  simp only [sentIn_cons, nonceTx, Option.some.injEq]
  by_cases hone : sender = addrOf 1
  . subst hone
    simp [hne.symm, nonceOnly, Except.toOption, sentIn]
  . by_cases htwo : sender = addrOf 2
    . subst htwo
      simp [hne, hone, nonceOnly, Except.toOption, sentIn]
    . simp [Ne.symm hone, Ne.symm htwo, hone, htwo, sentIn]

theorem txBySenderAndNonce_backAndForth
    : ∃ s, Transition.Reachable (Read.step Memtable.emptyBlockCrypto) Read.Roomy Read.Sys.init s ∧ s.blocks = backAndForth ∧
        s.view.runs.length = 1 ∧ s.view.mem.started = true ∧ Decodes nonceOnly (numbered 0 s.blocks) ∧
        NoncesRise nonceOnly s.blocks ∧
        txBySenderAndNonce nonceOnly exactPolicy s.view (addrOf 1) 1 = .ok (some (nonceOnly.hash 1)) ∧
        txBySenderAndNonce nonceOnly exactPolicy s.view (addrOf 1) 5 = .ok none := by
  have hrun : (Read.runs Memtable.emptyBlockCrypto [.write goodLog (nonceBlock 1 [nonceTx 1 2 0, nonceTx 2 1 5]), .cut, .publish,
        .write goodLog (nonceBlock 2 [nonceTx 2 1 6, nonceTx 1 2 1])]).map
        (fun s => (s.blocks, s.view.runs.length, s.view.mem.started)) = some (backAndForth, 1, true) := by
    decide +kernel
  rw [Option.map_eq_some_iff] at hrun
  rcases hrun with ⟨s, hrun, hobs⟩
  simp only [Prod.mk.injEq] at hobs
  rcases hobs with ⟨hblocks, hruns, hstarted⟩
  have hreach := Read.reachable_of_roomy hrun
  have hdec : Decodes nonceOnly (numbered 0 s.blocks) := by
    rintro ⟨n, t⟩ hp
    rw [hblocks] at hp
    rcases mem_numbered.mp hp with ⟨i, b, j, hb, ht, -⟩
    have hrows : ∀ b ∈ backAndForth, ∀ t ∈ b.txs, (nonceOnly.decode t.rlp).isOk = true := by decide +kernel
    have hok := hrows b (mem_of_getElem? hb) t (mem_of_getElem? ht)
    cases hdecode : nonceOnly.decode t.rlp with
    | ok tx => exact ⟨tx, rfl⟩
    | error e =>
      rw [hdecode] at hok
      cases hok
  have hrise : NoncesRise nonceOnly s.blocks := by
    intro sender
    rw [hblocks, sent_backAndForth]
    split
    . decide +kernel
    . split
      . decide +kernel
      . exact List.Pairwise.nil
  refine ⟨s, hreach, hblocks, hruns, hstarted, hdec, hrise, ?_, ?_⟩
  . rw [txBySenderAndNonce_eq nonceOnly exactPolicy hreach hdec hrise, hblocks, sent_backAndForth]
    rfl
  . rw [txBySenderAndNonce_eq nonceOnly exactPolicy hreach hdec hrise, hblocks, sent_backAndForth]
    rfl

end EpochDB.Rpc
