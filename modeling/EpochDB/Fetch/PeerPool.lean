import EpochDB.Fetch.Validators
import EpochDB.Lib.AListTotal
import EpochDB.Lib.Transition

/-!
The pool of peers (`fetch/fetcher.go`): which are archival and how many requests each has outstanding. The state of
a peer is dropped when it disconnects.
-/

namespace EpochDB.Fetch

open List

structure Rates (ρ : Type) where
  zero : ρ
  gt : ρ → ρ → Bool
  fold : ρ → Nat → Nat → ρ

structure PeerState (ρ : Type) where
  archival : Bool
  busy : Nat
  rate : ρ

structure PeerPool (ρ : Type) where
  peers : AList (fun _ : NodeID => PeerState ρ)
  archival : Int

namespace PeerPool

variable {ρ : Type} (rates : Rates ρ) (p : PeerPool ρ)

def newPeerPool : PeerPool ρ := ⟨∅, 0⟩

def connected (id : NodeID) : PeerPool ρ :=
  match p.peers.lookup id with
  | some _ => p
  | none => { p with peers := p.peers.insert id ⟨false, 0, rates.zero⟩ }

def disconnected (id : NodeID) : PeerPool ρ :=
  match p.peers.lookup id with
  | some s => ⟨p.peers.erase id, if s.archival then p.archival - 1 else p.archival⟩
  | none => p

def consider (maxBusy : Nat) (acc : Option (NodeID × PeerState ρ) × Bool) (id : NodeID)
    : Option (NodeID × PeerState ρ) × Bool :=
  match p.peers.lookup id with
  | none => acc
  | some s =>
    if !s.archival then
      acc
    else if s.busy ≥ maxBusy then
      (acc.1, true)
    else
      match acc.1 with
      | none => (some (id, s), true)
      | some best =>
        if s.busy < best.2.busy ∨ (s.busy = best.2.busy ∧ rates.gt s.rate best.2.rate) then
          (some (id, s), true)
        else
          (acc.1, true)

def acquire (order : List NodeID) (maxBusy : Nat) : Option NodeID × Bool × PeerPool ρ :=
  let found := order.foldl (p.consider rates maxBusy) (none, false)
  match found.1 with
  | none => (none, found.2, p)
  | some (id, s) => (some id, true, { p with peers := p.peers.insert id { s with busy := s.busy + 1 } })

def release (id : NodeID) : PeerPool ρ :=
  match p.peers.lookup id with
  | some s => if s.busy > 0 then { p with peers := p.peers.insert id { s with busy := s.busy - 1 } } else p
  | none => p

def setArchival (id : NodeID) (archival : Bool) : PeerPool ρ :=
  match p.peers.lookup id with
  | some s =>
    if s.archival ≠ archival then
      ⟨p.peers.insert id { s with archival }, if archival then p.archival + 1 else p.archival - 1⟩
    else
      p
  | none => p

def observe (id : NodeID) (blocks elapsed : Nat) : PeerPool ρ :=
  match p.peers.lookup id with
  | some s => { p with peers := p.peers.insert id { s with rate := rates.fold s.rate blocks elapsed } }
  | none => p

def archivalPeers : Nat := p.peers.total (fun e => if e.2.archival then 1 else 0)

end PeerPool

structure Ticket where
  peer : NodeID
  held : Bool
  current : Bool
  deriving DecidableEq

def Ticket.reconnect (id : NodeID) (t : Ticket) : Ticket := if t.peer = id then { t with current := false } else t

def Ticket.drop (id : NodeID) (t : Ticket) : Ticket := if t.peer = id then { t with held := false } else t

structure PoolUse (ρ : Type) where
  pool : PeerPool ρ
  out : List Ticket

namespace PoolUse

inductive Event where
  | connected (id : NodeID)
  | disconnected (id : NodeID)
  | acquire (order : List NodeID)
  | release (t : Ticket)
  | setArchival (id : NodeID) (archival : Bool)
  | observe (id : NodeID) (blocks elapsed : Nat)

variable {ρ : Type} (rates : Rates ρ)

def init : PoolUse ρ := ⟨PeerPool.newPeerPool, []⟩

def step (maxBusy : Nat) (u : PoolUse ρ) : Event → Option (PoolUse ρ)
  | .connected id =>
    some ⟨u.pool.connected rates id, if u.pool.peers.lookup id = none then u.out.map (Ticket.reconnect id) else u.out⟩
  | .disconnected id => some ⟨u.pool.disconnected id, u.out.map (Ticket.drop id)⟩
  | .acquire order =>
    if order.Perm u.pool.peers.keys then
      let res := u.pool.acquire rates order maxBusy
      match res.1 with
      | some id => some ⟨res.2.2, ⟨id, true, true⟩ :: u.out⟩
      | none => some ⟨res.2.2, u.out⟩
    else
      none
  | .release t => if t ∈ u.out then some ⟨u.pool.release t.peer, u.out.erase t⟩ else none
  | .setArchival id archival => some ⟨u.pool.setArchival id archival, u.out⟩
  | .observe id blocks elapsed => some ⟨u.pool.observe rates id blocks elapsed, u.out⟩

def outstanding (u : PoolUse ρ) (id : NodeID) : Nat := u.out.countP (fun t => t.peer = id ∧ t.current)

def Tidy (u : PoolUse ρ) : Event → Prop
  | .release t => t.held = false → ∀ s, u.pool.peers.lookup t.peer = some s → s.busy = 0
  | _ => True

end PoolUse

namespace PeerPool

variable {ρ : Type} {rates : Rates ρ} {p : PeerPool ρ}

theorem lookup_insert (m : AList (fun _ : NodeID => PeerState ρ)) (id : NodeID) (s : PeerState ρ) (id' : NodeID)
    : (m.insert id s).lookup id' = if id' = id then some s else m.lookup id' := by
  by_cases h : id' = id
  . rw [h, if_pos rfl, AList.lookup_insert]
  . rw [if_neg h, AList.lookup_insert_ne h]

theorem archivalPeers_insert {id : NodeID} {s : PeerState ρ} (h : p.peers.lookup id = some s) (s' : PeerState ρ) (n : Int)
    : (archivalPeers ⟨p.peers.insert id s', n⟩ : Int) =
        p.archivalPeers + (if s'.archival then 1 else 0) - (if s.archival then 1 else 0) := by
  have herase := AList.total_erase (fun e : Sigma (fun _ : NodeID => PeerState ρ) => if e.2.archival then 1 else 0) h
  unfold archivalPeers
  dsimp only
  rw [AList.total_insert, herase]
  cases s.archival <;> cases s'.archival <;> simp
  omega

structure Free (p : PeerPool ρ) (maxBusy : Nat) (best : NodeID × PeerState ρ) : Prop where
  lookup : p.peers.lookup best.1 = some best.2
  archival : best.2.archival = true
  busy : best.2.busy < maxBusy

theorem free_consider {maxBusy : Nat} {acc : Option (NodeID × PeerState ρ) × Bool} {id : NodeID}
    (hacc : ∀ best, acc.1 = some best → p.Free maxBusy best) {best : NodeID × PeerState ρ}
    (h : (p.consider rates maxBusy acc id).1 = some best) : p.Free maxBusy best := by
  unfold consider at h
  split at h
  . exact hacc best h
  . next s hs =>
    split at h
    . exact hacc best h
    . next harchival =>
      split at h
      . exact hacc best h
      . next hbusy =>
        have hfree : p.Free maxBusy (id, s) := ⟨hs, by simpa using harchival, by simpa using hbusy⟩
        split at h
        . cases h
          exact hfree
        . split at h
          . cases h
            exact hfree
          . exact hacc best h

theorem acquire_cases (rates : Rates ρ) (p : PeerPool ρ) (order : List NodeID) (maxBusy : Nat)
    : (∃ seen, p.acquire rates order maxBusy = (none, seen, p)) ∨
        ∃ id s, p.Free maxBusy (id, s) ∧
          p.acquire rates order maxBusy = (some id, true, { p with peers := p.peers.insert id { s with busy := s.busy + 1 } }) := by
  have hfound : ∀ (order : List NodeID) (acc : Option (NodeID × PeerState ρ) × Bool),
      (∀ best, acc.1 = some best → p.Free maxBusy best) →
      ∀ best, (order.foldl (p.consider rates maxBusy) acc).1 = some best → p.Free maxBusy best := by
    intro order
    induction order with
    | nil => exact fun acc hacc => hacc
    | cons id order ih => exact fun acc hacc => ih _ (fun best => free_consider hacc)
  have hfree := hfound order (none, false) (by simp)
  unfold acquire
  dsimp only
  cases hbest : (order.foldl (p.consider rates maxBusy) (none, false)).1 with
  | none => exact .inl ⟨_, rfl⟩
  | some best => exact .inr ⟨best.1, best.2, hfree best hbest, rfl⟩

def Counted (p : PeerPool ρ) : Prop := p.archival = p.archivalPeers

theorem Counted.insert (h : p.Counted) {id : NodeID} {s : PeerState ρ} (hs : p.peers.lookup id = some s) {s' : PeerState ρ}
    (hsame : s'.archival = s.archival) : Counted { p with peers := p.peers.insert id s' } := by
  unfold Counted at h ⊢
  rw [archivalPeers_insert hs, hsame]
  dsimp only
  omega

theorem Counted.connected (h : p.Counted) (id : NodeID) : (p.connected rates id).Counted := by
  unfold PeerPool.connected
  split
  . exact h
  . next hnone =>
    unfold Counted archivalPeers at h ⊢
    dsimp only
    rw [AList.total_insert, AList.erase_of_lookup_eq_none hnone, h]
    simp

theorem Counted.disconnected (h : p.Counted) (id : NodeID) : (p.disconnected id).Counted := by
  unfold PeerPool.disconnected
  split
  . next s hs =>
    have herase := AList.total_erase (fun e : Sigma (fun _ : NodeID => PeerState ρ) => if e.2.archival then 1 else 0) hs
    unfold Counted archivalPeers at h ⊢
    dsimp only at herase ⊢
    split at herase
    . next harchival =>
      rw [if_pos harchival]
      omega
    . next harchival =>
      rw [if_neg harchival]
      omega
  . exact h

theorem Counted.release (h : p.Counted) (id : NodeID) : (p.release id).Counted := by
  unfold PeerPool.release
  split
  . next s hs =>
    split
    . exact h.insert hs rfl
    . exact h
  . exact h

theorem Counted.setArchival (h : p.Counted) (id : NodeID) (archival : Bool) : (p.setArchival id archival).Counted := by
  unfold PeerPool.setArchival
  split
  . next s hs =>
    split
    . next hne =>
      unfold Counted at h ⊢
      rw [archivalPeers_insert hs]
      dsimp only
      cases archival <;> simp_all
    . exact h
  . exact h

theorem Counted.observe (h : p.Counted) (id : NodeID) (blocks elapsed : Nat) : (p.observe rates id blocks elapsed).Counted := by
  unfold PeerPool.observe
  split
  . next s hs => exact h.insert hs rfl
  . exact h

end PeerPool

namespace PoolUse

variable {ρ : Type} {rates : Rates ρ} {maxBusy : Nat} {u u' : PoolUse ρ}

theorem step_acquire {order : List NodeID} (hstep : u.step rates maxBusy (.acquire order) = some u')
    : u' = u ∨ ∃ id s, u.pool.Free maxBusy (id, s) ∧
        u' = ⟨{ u.pool with peers := u.pool.peers.insert id { s with busy := s.busy + 1 } }, ⟨id, true, true⟩ :: u.out⟩ := by
  simp only [step] at hstep
  split at hstep
  . rcases PeerPool.acquire_cases rates u.pool order maxBusy with ⟨seen, hacq⟩ | ⟨id, s, hfree, hacq⟩
    . rw [hacq] at hstep
      cases hstep
      exact .inl rfl
    . rw [hacq] at hstep
      cases hstep
      exact .inr ⟨id, s, hfree, rfl⟩
  . cases hstep

variable {t : Ticket} {e : Event} {id : NodeID} {s : PeerState ρ} {out : List Ticket}

theorem step_release (hstep : u.step rates maxBusy (.release t) = some u')
    : t ∈ u.out ∧ u' = ⟨u.pool.release t.peer, u.out.erase t⟩ := by
  simp only [step] at hstep
  split at hstep
  . next hmem =>
    cases hstep
    exact ⟨hmem, rfl⟩
  . cases hstep

theorem counted_step (h : u.pool.Counted) (hstep : u.step rates maxBusy e = some u') : u'.pool.Counted := by
  cases e with
  | connected id =>
    cases hstep
    exact h.connected id
  | disconnected id =>
    cases hstep
    exact h.disconnected id
  | acquire order =>
    rcases step_acquire hstep with rfl | ⟨id, s, hfree, rfl⟩
    . exact h
    . exact h.insert hfree.lookup rfl
  | release t =>
    rcases step_release hstep with ⟨-, rfl⟩
    exact h.release t.peer
  | setArchival id archival =>
    cases hstep
    exact h.setArchival id archival
  | observe id blocks elapsed =>
    cases hstep
    exact h.observe id blocks elapsed

def heldBy (out : List Ticket) (id : NodeID) : Nat := out.countP (fun t => t.peer = id ∧ t.held)

structure Inv (maxBusy : Nat) (u : PoolUse ρ) : Prop where
  busy : ∀ id s, u.pool.peers.lookup id = some s → s.busy = heldBy u.out id ∧ s.busy ≤ maxBusy
  absent : ∀ t ∈ u.out, u.pool.peers.lookup t.peer = none → t.held = false
  current : ∀ t ∈ u.out, ∀ s, u.pool.peers.lookup t.peer = some s → t.current = true → t.held = true
  outstanding : ∀ id, u.outstanding id ≤ maxBusy

theorem inv_init : (init : PoolUse ρ).Inv maxBusy := by
  refine ⟨?_, ?_, ?_, ?_⟩
  . intro id s hs
    cases hs
  . intro t ht
    cases ht
  . intro t ht
    cases ht
  . intro id
    exact Nat.zero_le _

theorem Inv.outstanding_le (h : u.Inv maxBusy) (hs : u.pool.peers.lookup id = some s) : u.outstanding id ≤ s.busy := by
  rw [(h.busy id s hs).1]
  unfold PoolUse.outstanding heldBy
  apply countP_mono_left
  intro t ht hcurrent
  simp only [decide_eq_true_eq] at hcurrent ⊢
  exact ⟨hcurrent.1, h.current t ht s (hcurrent.1 ▸ hs) hcurrent.2⟩

theorem Inv.setPeer (h : u.Inv maxBusy) (hs : u.pool.peers.lookup id = some s) (s' : PeerState ρ)
    (hbusy : s'.busy = s.busy) (n : Int) : Inv maxBusy ⟨⟨u.pool.peers.insert id s', n⟩, u.out⟩ := by
  refine ⟨?_, ?_, ?_, h.outstanding⟩
  . intro id' s₁ hs₁
    dsimp only at hs₁
    rw [PeerPool.lookup_insert] at hs₁
    split at hs₁
    . next heq =>
      cases hs₁
      rw [hbusy, heq]
      exact h.busy id s hs
    . exact h.busy id' s₁ hs₁
  . intro t ht hnone
    dsimp only at hnone
    rw [PeerPool.lookup_insert] at hnone
    split at hnone
    . cases hnone
    . exact h.absent t ht hnone
  . intro t ht s₁ hs₁
    dsimp only at hs₁
    rw [PeerPool.lookup_insert] at hs₁
    split at hs₁
    . next heq => exact h.current t ht s (heq ▸ hs)
    . exact h.current t ht s₁ hs₁

theorem mem_map_reconnect (h : t ∈ out.map (Ticket.reconnect id))
    : ∃ t₀ ∈ out, t.peer = t₀.peer ∧ t.held = t₀.held ∧ (t.current = true → t₀.current = true ∧ t₀.peer ≠ id) := by
  rcases mem_map.mp h with ⟨t₀, ht₀, rfl⟩
  refine ⟨t₀, ht₀, ?_⟩
  unfold Ticket.reconnect
  split
  . simp
  . next hne => exact ⟨rfl, rfl, fun hcurrent => ⟨hcurrent, hne⟩⟩

theorem mem_map_drop (h : t ∈ out.map (Ticket.drop id))
    : ∃ t₀ ∈ out, t.peer = t₀.peer ∧ t.current = t₀.current ∧ (t₀.peer = id → t.held = false) ∧
        (t₀.peer ≠ id → t.held = t₀.held) := by
  rcases mem_map.mp h with ⟨t₀, ht₀, rfl⟩
  refine ⟨t₀, ht₀, ?_⟩
  unfold Ticket.drop
  split
  . next heq => exact ⟨rfl, rfl, fun _ => rfl, fun hne => absurd heq hne⟩
  . next hne => exact ⟨rfl, rfl, fun heq => absurd heq hne, fun _ => rfl⟩

theorem heldBy_reconnect (id : NodeID) (out : List Ticket) (id' : NodeID)
    : heldBy (out.map (Ticket.reconnect id)) id' = heldBy out id' := by
  unfold heldBy
  rw [countP_map]
  apply countP_congr
  intro t _
  unfold Ticket.reconnect
  by_cases h : t.peer = id <;> simp [h]

theorem heldBy_drop {id id' : NodeID} (hne : id' ≠ id) (out : List Ticket)
    : heldBy (out.map (Ticket.drop id)) id' = heldBy out id' := by
  unfold heldBy
  rw [countP_map]
  apply countP_congr
  intro t _
  unfold Ticket.drop
  by_cases h : t.peer = id
  . simp [h, Ne.symm hne]
  . simp [h]

theorem outstanding_reconnect (pool : PeerPool ρ) (u : PoolUse ρ) (id id' : NodeID)
    : outstanding ⟨pool, u.out.map (Ticket.reconnect id)⟩ id' ≤ u.outstanding id' := by
  unfold outstanding
  rw [countP_map]
  apply countP_mono_left
  intro t _ ht
  unfold Ticket.reconnect at ht
  by_cases h : t.peer = id
  . simp [h] at ht
  . simpa [h] using ht

theorem outstanding_drop (pool : PeerPool ρ) (u : PoolUse ρ) (id id' : NodeID)
    : outstanding ⟨pool, u.out.map (Ticket.drop id)⟩ id' = u.outstanding id' := by
  unfold outstanding
  rw [countP_map]
  apply countP_congr
  intro t _
  unfold Ticket.drop
  by_cases h : t.peer = id <;> simp [h]

theorem Inv.connected (h : u.Inv maxBusy) (hnone : u.pool.peers.lookup id = none)
    : Inv maxBusy ⟨u.pool.connected rates id, u.out.map (Ticket.reconnect id)⟩ := by
  have hlookup : ∀ id', (u.pool.connected rates id).peers.lookup id' =
      if id' = id then some ⟨false, 0, rates.zero⟩ else u.pool.peers.lookup id' := by
    intro id'
    unfold PeerPool.connected
    rw [hnone]
    exact PeerPool.lookup_insert _ _ _ _
  refine ⟨?_, ?_, ?_, fun id' => le_trans (outstanding_reconnect _ u id id') (h.outstanding id')⟩
  . intro id' s hs
    dsimp only at hs ⊢
    rw [hlookup] at hs
    rw [heldBy_reconnect]
    split at hs
    . next heq =>
      cases hs
      refine ⟨?_, Nat.zero_le _⟩
      refine (countP_eq_zero.mpr ?_).symm
      intro t ht
      simp only [decide_eq_true_eq, not_and, Bool.not_eq_true]
      intro hpeer
      exact h.absent t ht (by rw [hpeer, heq]; exact hnone)
    . exact h.busy id' s hs
  . intro t ht hnone'
    dsimp only at hnone'
    rw [hlookup] at hnone'
    rcases mem_map_reconnect ht with ⟨t₀, ht₀, hpeer, hheld, -⟩
    split at hnone'
    . cases hnone'
    . rw [hheld]
      exact h.absent t₀ ht₀ (hpeer ▸ hnone')
  . intro t ht s hs hcurrent
    dsimp only at hs
    rw [hlookup] at hs
    rcases mem_map_reconnect ht with ⟨t₀, ht₀, hpeer, hheld, hcurrent₀⟩
    split at hs
    . next heq => exact absurd (hpeer ▸ heq) (hcurrent₀ hcurrent).2
    . rw [hheld]
      exact h.current t₀ ht₀ s (hpeer ▸ hs) (hcurrent₀ hcurrent).1

theorem Inv.disconnected (h : u.Inv maxBusy) (id : NodeID)
    : Inv maxBusy ⟨u.pool.disconnected id, u.out.map (Ticket.drop id)⟩ := by
  -- a peer that was not connected has no state to drop
  have hlookup : ∀ id', (u.pool.disconnected id).peers.lookup id' = if id' = id then none else u.pool.peers.lookup id' := by
    intro id'
    unfold PeerPool.disconnected
    split
    . next s hs =>
      by_cases heq : id' = id
      . rw [heq, if_pos rfl]
        exact AList.lookup_erase _ _
      . rw [if_neg heq]
        exact AList.lookup_erase_ne heq
    . next hnone =>
      by_cases heq : id' = id
      . rw [heq, if_pos rfl, hnone]
      . rw [if_neg heq]
  refine ⟨?_, ?_, ?_, ?_⟩
  . intro id' s hs
    dsimp only at hs ⊢
    rw [hlookup] at hs
    split at hs
    . cases hs
    . next hne =>
      rw [heldBy_drop hne]
      exact h.busy id' s hs
  . intro t ht hnone
    dsimp only at hnone
    rw [hlookup] at hnone
    rcases mem_map_drop ht with ⟨t₀, ht₀, hpeer, -, hdropped, hkept⟩
    by_cases heq : t₀.peer = id
    . exact hdropped heq
    . rw [hpeer, if_neg heq] at hnone
      rw [hkept heq]
      exact h.absent t₀ ht₀ hnone
  . intro t ht s hs hcurrent
    dsimp only at hs
    rw [hlookup] at hs
    rcases mem_map_drop ht with ⟨t₀, ht₀, hpeer, hcurrent₀, -, hkept⟩
    by_cases heq : t₀.peer = id
    . rw [hpeer, if_pos heq] at hs
      cases hs
    . rw [hpeer, if_neg heq] at hs
      rw [hkept heq]
      exact h.current t₀ ht₀ s hs (hcurrent₀ ▸ hcurrent)
  . intro id'
    rw [outstanding_drop]
    exact h.outstanding id'

theorem heldBy_cons (t : Ticket) (out : List Ticket) (id : NodeID)
    : heldBy (t :: out) id = heldBy out id + if t.peer = id ∧ t.held then 1 else 0 := by
  unfold heldBy
  rw [countP_cons]
  simp only [decide_eq_true_eq]

theorem outstanding_cons (pool : PeerPool ρ) (u : PoolUse ρ) (t : Ticket) (id : NodeID)
    : PoolUse.outstanding ⟨pool, t :: u.out⟩ id = u.outstanding id + if t.peer = id ∧ t.current then 1 else 0 := by
  unfold PoolUse.outstanding
  rw [countP_cons]
  simp only [decide_eq_true_eq]

theorem Inv.acquire (h : u.Inv maxBusy) (hfree : u.pool.Free maxBusy (id, s))
    : Inv maxBusy ⟨{ u.pool with peers := u.pool.peers.insert id { s with busy := s.busy + 1 } }, ⟨id, true, true⟩ :: u.out⟩ := by
  have hs : u.pool.peers.lookup id = some s := hfree.lookup
  have hbusy : s.busy < maxBusy := hfree.busy
  refine ⟨?_, ?_, ?_, ?_⟩
  . intro id' s' hs'
    dsimp only at hs' ⊢
    rw [PeerPool.lookup_insert] at hs'
    rw [heldBy_cons]
    split at hs'
    . next heq =>
      cases hs'
      rw [heq, if_pos ⟨rfl, rfl⟩]
      exact ⟨congrArg (· + 1) (h.busy id s hs).1, hbusy⟩
    . next hne =>
      rw [if_neg (fun hpeer => hne hpeer.1.symm)]
      exact h.busy id' s' hs'
  . intro t ht hnone
    dsimp only at ht hnone
    rw [PeerPool.lookup_insert] at hnone
    split at hnone
    . cases hnone
    . next hne =>
      rcases mem_cons.mp ht with rfl | ht
      . exact absurd rfl hne
      . exact h.absent t ht hnone
  . intro t ht s' hs' hcurrent
    dsimp only at ht hs'
    rw [PeerPool.lookup_insert] at hs'
    rcases mem_cons.mp ht with rfl | ht
    . rfl
    . split at hs'
      . next heq => exact h.current t ht s (heq ▸ hs) hcurrent
      . exact h.current t ht s' hs' hcurrent
  . intro id'
    rw [outstanding_cons]
    split
    . next heq =>
      have := h.outstanding_le hs
      dsimp only at heq
      rw [← heq.1]
      omega
    . exact h.outstanding id'

theorem heldBy_erase (ht : t ∈ out) (id : NodeID)
    : heldBy out id = heldBy (out.erase t) id + if t.peer = id ∧ t.held then 1 else 0 := by
  rw [← heldBy_cons]
  exact (perm_cons_erase ht).countP_eq _

theorem Inv.release (h : u.Inv maxBusy) (ht : t ∈ u.out) (htidy : u.Tidy (.release t))
    : Inv maxBusy ⟨u.pool.release t.peer, u.out.erase t⟩ := by
  have hsub : ∀ t' ∈ u.out.erase t, t' ∈ u.out := fun t' ht' => mem_of_mem_erase ht'
  have hout : ∀ id, PoolUse.outstanding ⟨u.pool.release t.peer, u.out.erase t⟩ id ≤ maxBusy := by
    intro id
    exact le_trans ((erase_sublist).countP_le) (h.outstanding id)
  have hlookup : ∀ id, (∃ s, u.pool.peers.lookup id = some s ∧
        (u.pool.release t.peer).peers.lookup id = some { s with busy := if id = t.peer then s.busy - 1 else s.busy }) ∨
      (u.pool.peers.lookup id = none ∧ (u.pool.release t.peer).peers.lookup id = none) := by
    intro id
    unfold PeerPool.release
    cases hid : u.pool.peers.lookup id with
    | none =>
      refine .inr ⟨rfl, ?_⟩
      split
      . next s hs =>
        split
        . have hne : id ≠ t.peer := by
            rintro rfl
            rw [hs] at hid
            cases hid
          rw [PeerPool.lookup_insert, if_neg hne, hid]
        . exact hid
      . exact hid
    | some s =>
      refine .inl ⟨s, rfl, ?_⟩
      by_cases heq : id = t.peer
      . subst heq
        rw [hid, if_pos rfl]
        dsimp only
        split
        . rw [PeerPool.lookup_insert, if_pos rfl]
        . next hzero =>
          have hbusy : s.busy - 1 = s.busy := by omega
          rw [hbusy, hid]
      . rw [if_neg heq]
        split
        . split
          . rw [PeerPool.lookup_insert, if_neg heq, hid]
          . exact hid
        . exact hid
  refine ⟨?_, ?_, ?_, hout⟩
  . intro id s hs
    dsimp only at hs ⊢
    have hheld := heldBy_erase ht id
    rcases hlookup id with ⟨s₀, hs₀, hs'⟩ | ⟨-, hnone⟩
    . rw [hs'] at hs
      cases hs
      have hinv := h.busy id s₀ hs₀
      dsimp only
      by_cases hid : id = t.peer
      . subst hid
        rw [if_pos rfl]
        cases hheldt : t.held with
        | true =>
          simp only [hheldt, and_self, if_true] at hheld
          omega
        | false =>
          have hzero := htidy hheldt s₀ hs₀
          simp only [hheldt, Bool.false_eq_true, and_false, if_false] at hheld
          omega
      . rw [if_neg hid]
        rw [if_neg (fun hpeer => hid hpeer.1.symm)] at hheld
        omega
    . rw [hnone] at hs
      cases hs
  . intro t' ht' hnone
    rcases hlookup t'.peer with ⟨s₀, -, hs'⟩ | ⟨hnone₀, -⟩
    . rw [hs'] at hnone
      cases hnone
    . exact h.absent t' (hsub t' ht') hnone₀
  . intro t' ht' s hs
    rcases hlookup t'.peer with ⟨s₀, hs₀, -⟩ | ⟨-, hnone⟩
    . exact h.current t' (hsub t' ht') s₀ hs₀
    . rw [hnone] at hs
      cases hs

theorem inv_step (h : u.Inv maxBusy) (htidy : u.Tidy e) (hstep : u.step rates maxBusy e = some u') : u'.Inv maxBusy := by
  cases e with
  | connected id =>
    cases hstep
    cases hid : u.pool.peers.lookup id with
    | none =>
      rw [if_pos rfl]
      exact h.connected hid
    | some s =>
      rw [if_neg (by simp)]
      unfold PeerPool.connected
      rw [hid]
      exact h
  | disconnected id =>
    cases hstep
    exact h.disconnected id
  | acquire order =>
    rcases step_acquire hstep with rfl | ⟨id, s, hfree, rfl⟩
    . exact h
    . exact h.acquire hfree
  | release t =>
    rcases step_release hstep with ⟨ht, rfl⟩
    exact h.release ht htidy
  | setArchival id archival =>
    cases hstep
    unfold PeerPool.setArchival
    split
    . next s hs =>
      split
      . exact h.setPeer hs { s with archival } rfl _
      . exact h
    . exact h
  | observe id blocks elapsed =>
    cases hstep
    unfold PeerPool.observe
    split
    . next s hs => exact h.setPeer hs { s with rate := rates.fold s.rate blocks elapsed } rfl _
    . exact h

/--
In every run the archival counter is the number of archival peers, and in every run whose releases are tidy no peer
has more than `maxBusy` requests of its latest connection outstanding.
-/
theorem pool_accounting (h : Transition.Reachable (step rates maxBusy) (fun _ _ => True) init u)
    : u.pool.archival = u.pool.archivalPeers ∧
        (Transition.Reachable (step rates maxBusy) Tidy init u → ∀ id, u.outstanding id ≤ maxBusy) := by
  constructor
  . exact h.invariant (I := fun u => u.pool.Counted) rfl (fun _ _ _ hi _ hstep => counted_step hi hstep)
  . intro htidy
    have hinv : u.Inv maxBusy := htidy.invariant inv_init (fun _ _ _ hi hg hstep => inv_step hi hg hstep)
    exact hinv.outstanding

def countedRates : Rates Nat := ⟨0, fun a b => a > b, fun _ blocks _ => blocks⟩

def peer : NodeID := .fill 20 1

def reconnects : List Event :=
  [.connected peer, .setArchival peer true, .acquire [peer], .disconnected peer, .connected peer, .setArchival peer true,
    .acquire [peer]]

def tidyB (u : PoolUse ρ) : Event → Bool
  | .release t => t.held || (u.pool.peers.lookup t.peer).all (·.busy = 0)
  | _ => true

theorem tidy_of_tidyB (h : tidyB u e = true) : u.Tidy e := by
  cases e with
  | release t =>
    intro hheld s hs
    simpa [tidyB, hheld, hs] using h
  | _ => trivial

theorem pool_accounting_reconnects
    : ∃ u, Transition.run (step countedRates 1) init (reconnects ++ [.release ⟨peer, true, true⟩, .release ⟨peer, false, false⟩,
          .acquire [peer]]) = some u ∧ u.pool.archival = 1 ∧ u.pool.archival = u.pool.archivalPeers ∧ u.outstanding peer = 1 ∧
        u.outstanding peer ≤ 1 := by
  have hrun : (Transition.run (fun u e => if tidyB u e then step countedRates 1 u e else none) init
      (reconnects ++ [.release ⟨peer, true, true⟩, .release ⟨peer, false, false⟩, .acquire [peer]])).map
        (fun u => (u.pool.archival, u.outstanding peer)) = some (1, 1) := by
    decide +kernel
  rcases Option.map_eq_some_iff.mp hrun with ⟨u, hu, hobs⟩
  rw [Prod.mk.injEq] at hobs
  have htidy : Transition.Reachable (step countedRates 1) Tidy init u :=
    .run_checked (fun _ _ => tidy_of_tidyB) .init hu
  have h := pool_accounting (htidy.mono (fun _ _ _ => trivial))
  exact ⟨u, Transition.run_of_run_checked hu, hobs.1, h.1, hobs.2, h.2 htidy peer⟩

theorem stale_release_overbooks
    : ∃ u, Transition.run (step countedRates 1) init (reconnects ++ [.release ⟨peer, false, false⟩, .acquire [peer]]) = some u ∧
        u.outstanding peer = 2 := by
  have hrun : (Transition.run (step countedRates 1) init
      (reconnects ++ [.release ⟨peer, false, false⟩, .acquire [peer]])).map (fun u => u.outstanding peer) = some 2 := by
    decide +kernel
  exact Option.map_eq_some_iff.mp hrun

end PoolUse

end EpochDB.Fetch
