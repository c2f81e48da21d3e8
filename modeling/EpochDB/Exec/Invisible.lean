import EpochDB.Exec.ReadCache

/-!
The read cache is invisible: whatever is evicted and when, a read through the wrapper answers what a plain map
does in which a delete takes the account with all its slots.
-/

namespace EpochDB.Exec

open Option Function AList
open Store (Addr Hash)

structure Overlay.Ok (o : Overlay) : Prop where
  account : ∀ a, o.getAccount a = o.next.account a
  shown : ∀ a, o.deleted a = false → o.accounts a ≠ some none
  kept : ∀ a, o.deleted a = false → ∀ k, (o.slots a k).getD (o.base.slot a k) = o.next.slot a k
  gone : ∀ a, o.deleted a = true → ∀ k, (o.slots a k).getD none = o.next.slot a k

theorem Overlay.ok_openAt (s : Frontier) : (Overlay.openAt s).Ok where
  account := fun _ => rfl
  shown := fun _ _ => by simp [openAt]
  kept := fun _ _ _ => rfl
  gone := fun _ h => by cases h

theorem Overlay.next_apply (o : Overlay) (w : FrontierWrite) : (o.apply w).next = o.next.apply w := by
  unfold apply
  split <;> rfl

theorem Overlay.Ok.apply {o : Overlay} (h : o.Ok) (w : FrontierWrite) : (o.apply w).Ok := by
  match w with
  | .account a (some v) =>
    constructor
    . intro a'
      have := h.account a'
      by_cases ha : a' = a
      . simp [Overlay.apply, getAccount, FlatState.apply, ha]
      . simpa [Overlay.apply, getAccount, FlatState.apply, ha] using this
    . intro a' hdel
      by_cases ha : a' = a
      . simp [Overlay.apply, ha]
      . simpa [Overlay.apply, ha] using h.shown a' hdel
    . exact fun a' hdel k => h.kept a' hdel k
    . exact fun a' hdel k => h.gone a' hdel k
  | .account a none =>
    constructor
    . intro a'
      have := h.account a'
      by_cases ha : a' = a
      . simp [Overlay.apply, getAccount, FlatState.apply, ha]
      . simpa [Overlay.apply, getAccount, FlatState.apply, ha] using this
    . intro a' hdel
      by_cases ha : a' = a
      . simp [Overlay.apply, ha] at hdel
      . simp only [Overlay.apply, ne_eq, ha, not_false_eq_true, update_of_ne] at hdel ⊢
        exact h.shown a' hdel
    . intro a' hdel k
      by_cases ha : a' = a
      . simp [Overlay.apply, ha] at hdel
      . simp only [Overlay.apply, FlatState.apply, ne_eq, ha, not_false_eq_true, update_of_ne] at hdel ⊢
        exact h.kept a' hdel k
    . intro a' hdel k
      by_cases ha : a' = a
      . simp [Overlay.apply, FlatState.apply, ha]
      . simp only [Overlay.apply, FlatState.apply, ne_eq, ha, not_false_eq_true, update_of_ne] at hdel ⊢
        exact h.gone a' hdel k
  | .slot a k v =>
    constructor
    . exact fun a' => h.account a'
    . exact fun a' hdel => h.shown a' hdel
    . intro a' hdel k'
      by_cases ha : a' = a
      . subst ha
        by_cases hk : k' = k
        . simp [Overlay.apply, FlatState.apply, hk]
        . simpa [Overlay.apply, FlatState.apply, hk] using h.kept a' hdel k'
      . simpa [Overlay.apply, FlatState.apply, ha] using h.kept a' hdel k'
    . intro a' hdel k'
      by_cases ha : a' = a
      . subst ha
        by_cases hk : k' = k
        . simp [Overlay.apply, FlatState.apply, hk]
        . simpa [Overlay.apply, FlatState.apply, hk] using h.gone a' hdel k'
      . simpa [Overlay.apply, FlatState.apply, ha] using h.gone a' hdel k'

def Overlay.Exact (o : Overlay) (a : Addr) (k : Hash) : Prop :=
  o.deleted a = true → (o.slots a k ≠ none ↔ o.accounts a ≠ some none)

theorem Overlay.Ok.getStorage_eq {o : Overlay} (h : o.Ok) {a : Addr} {k : Hash} (hexact : o.Exact a k)
    : o.getStorage a k = (o.next.slot a k).getD [] := by
  unfold getStorage
  cases hdel : o.deleted a with
  | false => rw [if_neg (h.shown a hdel), h.kept a hdel]
  | true =>
    have hgone := h.gone a hdel k
    have hiff := hexact hdel
    cases hslot : o.slots a k with
    | none =>
      rw [hslot] at hgone hiff
      rw [← hgone, if_pos (by simpa using hiff)]
      rfl
    | some v =>
      rw [hslot] at hgone hiff
      rw [← hgone, if_neg (by simpa using hiff)]
      rfl

def AcctEntry.weight (e : AcctEntry) : Nat := 256 + AList.total (fun s => 104 + s.2.length) e.storage

def ReadCache.weight (c : ReadCache) : Nat := AList.total (fun s => s.2.weight) c.entries

structure EntryOk (p : Frontier) (a : Addr) (e : AcctEntry) : Prop where
  acct : e.acctKnown = true → e.acct = p.account a
  slot : ∀ k v, e.storage.lookup k = some v → v = (p.slot a k).getD []
  cost : e.cost = UInt64.ofNat e.weight

structure CacheOk (p : Frontier) (c : ReadCache) : Prop where
  entry : ∀ a e, c.entries.lookup a = some e → EntryOk p a e
  size : c.size = UInt64.ofNat c.weight

def SameBut (a : Addr) (p p' : Frontier) : Prop := ∀ a' ≠ a, p'.account a' = p.account a' ∧ p'.slot a' = p.slot a'

theorem SameBut.refl (a : Addr) (p : Frontier) : SameBut a p p := fun _ _ => ⟨rfl, rfl⟩

theorem sameBut_account (p : Frontier) (a : Addr) (v : Option Bytes) : SameBut a p (p.apply (.account a v)) := by
  intro a' ha
  cases v <;> simp [FlatState.apply, ha]

theorem sameBut_slot (p : Frontier) (a : Addr) (k : Hash) (v : Option Bytes) : SameBut a p (p.apply (.slot a k v)) := by
  intro a' ha
  simp [FlatState.apply, ha]

theorem EntryOk.congr {p p' : Frontier} {a : Addr} {e : AcctEntry} (h : EntryOk p a e)
    (hacct : p'.account a = p.account a) (hslot : p'.slot a = p.slot a) : EntryOk p' a e where
  acct := fun hknown => by rw [hacct, h.acct hknown]
  slot := fun k v hv => by rw [hslot, h.slot k v hv]
  cost := h.cost

theorem cacheOk_empty (p : Frontier) : CacheOk p .empty where
  entry := fun a e he => by simp [ReadCache.empty] at he
  size := rfl

theorem ofNat_add_sub (n m : Nat) : UInt64.ofNat (n + m) - UInt64.ofNat n = UInt64.ofNat m := by
  rw [UInt64.ofNat_add, UInt64.add_comm, UInt64.add_sub_cancel]

section Cache

variable {p p' : Frontier} {c : ReadCache} {a : Addr} {e : AcctEntry}

theorem ReadCache.weight_erase (he : c.entries.lookup a = some e)
    : c.weight = e.weight + AList.total (fun s => s.2.weight) (c.entries.erase a) :=
  total_erase _ he

theorem CacheOk.erase (h : CacheOk p c) (hsame : SameBut a p p') (he : c.entries.lookup a = some e)
    : CacheOk p' ⟨c.entries.erase a, c.size - e.cost⟩ where
  entry := by
    intro a' e' he'
    dsimp only at he'
    have hne : a' ≠ a := by
      rintro rfl
      simp at he'
    rw [lookup_erase_ne hne] at he'
    exact (h.entry a' e' he').congr (hsame a' hne).1 (hsame a' hne).2
  size := by
    dsimp only
    rw [h.size, (h.entry a e he).cost, ReadCache.weight_erase he, ofNat_add_sub]
    rfl

theorem CacheOk.insert (h : CacheOk p c) (hsame : SameBut a p p') (he : c.entries.lookup a = some e) {e' : AcctEntry}
    (he' : EntryOk p' a e') {size : UInt64} (hsize : size + e.cost = c.size + e'.cost)
    : CacheOk p' ⟨c.entries.insert a e', size⟩ where
  entry := by
    intro a' e'' he''
    dsimp only at he''
    by_cases ha : a' = a
    . subst ha
      rw [lookup_insert] at he''
      cases he''
      exact he'
    . rw [lookup_insert_ne ha] at he''
      exact (h.entry a' e'' he'').congr (hsame a' ha).1 (hsame a' ha).2
  size := by
    have hweight : (ReadCache.mk (c.entries.insert a e') size).weight =
        e'.weight + AList.total (fun s => s.2.weight) (c.entries.erase a) := total_insert _ _ _ _
    dsimp only
    rw [h.size, ReadCache.weight_erase he, (h.entry a e he).cost, he'.cost] at hsize
    rw [hweight, ← UInt64.add_right_inj (UInt64.ofNat e.weight), UInt64.add_comm, hsize, ← UInt64.ofNat_add, ← UInt64.ofNat_add]
    congr 1
    omega

theorem CacheOk.evict (h : CacheOk p c) (target : UInt64) (addr : Addr) (order : List Addr)
    : CacheOk p (c.evict target addr order) := by
  induction order generalizing c with
  | nil => exact h
  | cons a order ih =>
    rw [ReadCache.evict]
    split
    . exact ih h
    . split
      . exact ih h
      . next e he =>
        have herase := h.erase (.refl a p) he
        dsimp only
        split
        . exact herase
        . exact ih herase

theorem ReadCache.lookup_evict (target : UInt64) {addr : Addr} (h : c.entries.lookup addr = none) (order : List Addr)
    : (c.evict target addr order).entries.lookup addr = none := by
  induction order generalizing c with
  | nil => exact h
  | cons a order ih =>
    rw [ReadCache.evict]
    split
    . exact ih h
    . next hne =>
      split
      . exact ih h
      . have herase : (c.entries.erase a).lookup addr = none := by
          rw [lookup_erase_ne (Ne.symm hne)]
          exact h
        dsimp only
        split
        . exact herase
        . exact ih herase

theorem CacheOk.entry_ok (h : CacheOk p c) (cap : UInt64) (a : Addr) (order : List Addr)
    : CacheOk p (c.entry cap a order).1 ∧ (c.entry cap a order).1.entries.lookup a = some (c.entry cap a order).2 := by
  unfold ReadCache.entry
  cases he : c.entries.lookup a with
  | some e => exact ⟨h, he⟩
  | none =>
    dsimp only
    generalize hc' : (if c.size > cap then c.evict (cap - cap / 8) a order else c) = c'
    have hok : CacheOk p c' := by
      rw [← hc']
      split
      . exact h.evict _ _ _
      . exact h
    have hnone : c'.entries.lookup a = none := by
      rw [← hc']
      split
      . exact ReadCache.lookup_evict _ he order
      . exact he
    refine ⟨⟨?_, ?_⟩, lookup_insert _⟩
    . intro a' e' he'
      dsimp only at he'
      by_cases ha : a' = a
      . subst ha
        rw [lookup_insert] at he'
        cases he'
        exact ⟨fun hknown => (by cases hknown), fun k v hv => (by simp at hv), rfl⟩
      . rw [lookup_insert_ne ha] at he'
        exact hok.entry a' e' he'
    . have hweight : AList.total (fun s => s.2.weight) (c'.entries.insert a ⟨none, false, ∅, entryCost⟩) =
          256 + AList.total (fun s => s.2.weight) (c'.entries.erase a) := total_insert _ _ _ _
      rw [erase_of_lookup_eq_none hnone] at hweight
      unfold ReadCache.weight
      dsimp only
      rw [hweight, hok.size, Nat.add_comm, UInt64.ofNat_add]
      rfl

theorem CacheOk.setAccount (h : CacheOk p c) (he : c.entries.lookup a = some e) {acct : Option Bytes}
    (hsame : SameBut a p p') (hacct : p'.account a = acct) (hslot : p'.slot a = p.slot a)
    : CacheOk p' (c.setAccount a e acct) := by
  have hold := h.entry a e he
  apply h.insert hsame he
  . exact ⟨fun _ => hacct.symm, fun k v hv => by rw [hslot, hold.slot k v hv], hold.cost⟩
  . rfl

theorem AcctEntry.charged_eq (e : AcctEntry) (k : Hash)
    : ∃ m, e.charged k = UInt64.ofNat m ∧ e.weight = 256 + (m + AList.total (fun s => 104 + s.2.length) (e.storage.erase k)) := by
  unfold AcctEntry.charged AcctEntry.weight
  cases hold : e.storage.lookup k with
  | some old =>
    refine ⟨104 + old.length, ?_, ?_⟩
    . rw [UInt64.ofNat_add]
      rfl
    . rw [total_erase _ hold]
  | none =>
    refine ⟨0, rfl, ?_⟩
    rw [erase_of_lookup_eq_none hold, Nat.zero_add]

theorem CacheOk.setSlot (h : CacheOk p c) (he : c.entries.lookup a = some e) {k : Hash} {v : Bytes}
    (hsame : SameBut a p p') (hacct : p'.account a = p.account a) (hv : (p'.slot a k).getD [] = v)
    (hslot : ∀ k' ≠ k, p'.slot a k' = p.slot a k') : CacheOk p' (c.setSlot a e k v) := by
  have hold := h.entry a e he
  rcases e.charged_eq k with ⟨m, hm, hweight⟩
  apply h.insert hsame he
  . refine ⟨fun hknown => by rw [hacct, hold.acct hknown], ?_, ?_⟩
    . intro k' v' hv'
      dsimp only at hv'
      by_cases hk : k' = k
      . subst hk
        rw [lookup_insert] at hv'
        cases hv'
        exact hv.symm
      . rw [lookup_insert_ne hk] at hv'
        rw [hslot k' hk, hold.slot k' v' hv']
    . have hadd : slotCost + UInt64.ofNat v.length = UInt64.ofNat (104 + v.length) := by
        rw [UInt64.ofNat_add]
        rfl
      unfold AcctEntry.weight
      dsimp only
      rw [total_insert, hold.cost, hm, hweight, hadd, Nat.add_left_comm, ofNat_add_sub, ← UInt64.ofNat_add]
      congr 1
      dsimp only
      omega
  . grind

theorem CacheOk.drop (h : CacheOk p c) (hsame : SameBut a p p') : CacheOk p' (c.drop a) := by
  unfold ReadCache.drop
  cases he : c.entries.lookup a with
  | some e => exact h.erase hsame he
  | none =>
    refine ⟨?_, h.size⟩
    intro a' e' he'
    have hne : a' ≠ a := by
      rintro rfl
      dsimp only at he'
      rw [he] at he'
      cases he'
    exact (h.entry a' e' he').congr (hsame a' hne).1 (hsame a' hne).2

theorem CacheOk.knownAccount (h : CacheOk p c) {acct : Option Bytes} (hknown : c.knownAccount a = some acct)
    : acct = p.account a := by
  unfold ReadCache.knownAccount at hknown
  rw [bind_eq_some_iff] at hknown
  rcases hknown with ⟨e, he, hacct⟩
  split at hacct
  . next hk =>
    cases hacct
    exact (h.entry a e he).acct hk
  . cases hacct

theorem CacheOk.knownSlot (h : CacheOk p c) {k : Hash} {v : Bytes} (hknown : c.knownSlot a k = some v)
    : v = (p.slot a k).getD [] := by
  unfold ReadCache.knownSlot at hknown
  rw [bind_eq_some_iff] at hknown
  rcases hknown with ⟨e, he, hv⟩
  exact (h.entry a e he).slot k v hv

end Cache

namespace Wrapped

variable {τ : Type} {fw : Firewood τ} {d : Wrapped τ}

structure Inv (fw : Firewood τ) (d : Wrapped τ) : Prop where
  ok : (fw.view d.trie).Ok
  next : (fw.view d.trie).next = d.plain
  clean : d.dirty = false → d.plain = d.committed
  cache : ∀ c, d.cache = some c → CacheOk d.plain c
  deleted : ∀ bd, d.batchDeleted = some bd → ∀ a, (bd a).isSome = (fw.view d.trie).deleted a
  rewritten : ∀ bd, d.batchDeleted = some bd → ∀ a rw, bd a = some rw → ∀ k, rw k = (d.plain.slot a k).getD []

theorem inv_init (cacheBytes : UInt64) (s : Frontier) : Inv fw (init fw cacheBytes s) where
  ok := by
    unfold init
    rw [fw.view_openTrie]
    exact Overlay.ok_openAt s
  next := by
    unfold init
    rw [fw.view_openTrie]
    rfl
  clean := fun _ => rfl
  cache := by
    intro c hc
    unfold init at hc
    dsimp only at hc
    split at hc
    . cases hc
      exact cacheOk_empty s
    . cases hc
  deleted := fun bd h => by cases h
  rewritten := fun bd h => by cases h

def Readable (fw : Firewood τ) (d : Wrapped τ) (a : Addr) (k : Hash) : Prop :=
  d.batchDeleted = none → (fw.view d.trie).Exact a k

variable {a : Addr} {k : Hash}

theorem Inv.storageFallthrough_eq (h : Inv fw d) (hread : Readable fw d a k)
    : d.storageFallthrough fw a k = (d.plain.slot a k).getD [] := by
  unfold storageFallthrough tombstone
  cases hbd : d.batchDeleted with
  | none =>
    dsimp only [bind_none]
    rw [fw.getStorage_eq, h.ok.getStorage_eq (hread hbd), h.next]
  | some bd =>
    dsimp only [bind_some]
    cases hrw : bd a with
    | some rw => exact h.rewritten bd hbd a rw hrw k
    | none =>
      have hdel := h.deleted bd hbd a
      rw [hrw] at hdel
      have hexact : (fw.view d.trie).Exact a k := by
        intro htrue
        rw [← hdel] at htrue
        cases htrue
      dsimp only
      rw [fw.getStorage_eq, h.ok.getStorage_eq hexact, h.next]

theorem Inv.getAccount_eq (h : Inv fw d) (a : Addr) (order : List Addr)
    : (d.getAccount fw a order).1 = d.plain.account a := by
  unfold getAccount
  split
  . next acct hknown =>
    rw [bind_eq_some_iff] at hknown
    rcases hknown with ⟨c, hc, hknown⟩
    exact (h.cache c hc).knownAccount hknown
  . dsimp only
    rw [fw.getAccount_eq, h.ok.account, h.next]

theorem Inv.getStorage_eq (h : Inv fw d) (hread : Readable fw d a k) (order : List Addr)
    : (d.getStorage fw a k order).1 = (d.plain.slot a k).getD [] := by
  unfold getStorage
  split
  . next v hknown =>
    rw [bind_eq_some_iff] at hknown
    rcases hknown with ⟨c, hc, hknown⟩
    exact (h.cache c hc).knownSlot hknown
  . exact h.storageFallthrough_eq hread

theorem cacheOk_withEntry {p p' : Frontier} (h : ∀ c, d.cache = some c → CacheOk p c) {f : ReadCache → AcctEntry → ReadCache}
    (hf : ∀ c e, CacheOk p c → c.entries.lookup a = some e → CacheOk p' (f c e)) (order : List Addr)
    : ∀ c, (d.withEntry a order f).cache = some c → CacheOk p' c := by
  intro c hc
  unfold withEntry at hc
  dsimp only at hc
  rw [map_eq_some_iff] at hc
  rcases hc with ⟨c0, hc0, rfl⟩
  rcases (h c0 hc0).entry_ok d.cacheCap a order with ⟨hok, he⟩
  exact hf _ _ hok he

theorem Inv.read (h : Inv fw d) {f : ReadCache → AcctEntry → ReadCache}
    (hf : ∀ c e, CacheOk d.plain c → c.entries.lookup a = some e → CacheOk d.plain (f c e)) (order : List Addr)
    : Inv fw (d.withEntry a order f) :=
  { h with cache := cacheOk_withEntry h.cache hf order }

theorem Inv.getAccount (h : Inv fw d) (a : Addr) (order : List Addr) : Inv fw (d.getAccount fw a order).2 := by
  have hacct := h.getAccount_eq a order
  unfold Wrapped.getAccount at hacct ⊢
  split
  . exact h
  . next hnone =>
    rw [hnone] at hacct
    exact h.read (fun c e hc he => hc.setAccount he (.refl a _) hacct.symm rfl) order

theorem Inv.getStorage (h : Inv fw d) (hread : Readable fw d a k) (order : List Addr)
    : Inv fw (d.getStorage fw a k order).2 := by
  unfold Wrapped.getStorage
  split
  . exact h
  . have hv := h.storageFallthrough_eq hread
    exact h.read (fun c e hc he => hc.setSlot he (.refl a _) rfl hv.symm (fun _ _ => rfl)) order

theorem Inv.push (h : Inv fw d) (d' : Wrapped τ) (htrie : d'.trie = d.trie) (hplain : d'.plain = d.plain) (w : FrontierWrite)
    (hcache : ∀ c, d'.cache = some c → CacheOk (d.plain.apply w) c)
    (hdeleted : ∀ bd, d'.batchDeleted = some bd → ∀ a, (bd a).isSome = ((fw.view d.trie).apply w).deleted a)
    (hrewritten : ∀ bd, d'.batchDeleted = some bd → ∀ a rw, bd a = some rw → ∀ k,
      rw k = ((d.plain.apply w).slot a k).getD [])
    : Inv fw (d'.push fw w) := by
  unfold Wrapped.push
  rw [htrie, hplain]
  refine ⟨?_, ?_, ?_, hcache, ?_, hrewritten⟩
  . dsimp only
    rw [fw.view_update]
    exact h.ok.apply w
  . dsimp only
    rw [fw.view_update, Overlay.next_apply, h.next]
  . intro hdirty
    cases hdirty
  . dsimp only
    rw [fw.view_update]
    exact hdeleted

theorem Inv.updateAccount (h : Inv fw d) (a : Addr) (acc : Bytes) (order : List Addr)
    : Inv fw (d.updateAccount fw a acc order) := by
  apply h.push (d.withEntry a order (fun c e => c.setAccount a e (some acc))) rfl rfl
  . apply cacheOk_withEntry h.cache
    intro c e hc he
    refine hc.setAccount he (sameBut_account _ _ _) ?_ rfl
    simp [FlatState.apply]
  . exact h.deleted
  . exact h.rewritten

theorem Inv.deleteAccount (h : Inv fw d) (a : Addr) : Inv fw (d.deleteAccount fw a) := by
  have hbatch : ∀ bd', (d.forget a).batchDeleted = some bd' →
      ∃ bd, d.batchDeleted = some bd ∧ bd' = update bd a (some (fun _ => [])) := by
    intro bd' hbd'
    unfold forget at hbd'
    dsimp only at hbd'
    rw [map_eq_some_iff] at hbd'
    rcases hbd' with ⟨bd, hbd, hupdate⟩
    exact ⟨bd, hbd, hupdate.symm⟩
  apply h.push (d.forget a) rfl rfl
  . intro c hc
    unfold forget at hc
    dsimp only at hc
    rw [map_eq_some_iff] at hc
    rcases hc with ⟨c0, hc0, rfl⟩
    exact (h.cache c0 hc0).drop (sameBut_account _ _ _)
  . intro bd' hbd' a'
    rcases hbatch bd' hbd' with ⟨bd, hbd, rfl⟩
    by_cases ha : a' = a
    . simp [Overlay.apply, ha]
    . simpa [Overlay.apply, ha] using h.deleted bd hbd a'
  . intro bd' hbd' a' rw hrw k
    rcases hbatch bd' hbd' with ⟨bd, hbd, rfl⟩
    rw [FlatState.slot_apply_delete]
    by_cases ha : a' = a
    . rw [ha, update_self] at hrw
      cases hrw
      rw [if_pos ha]
      rfl
    . rw [update_of_ne ha] at hrw
      rw [if_neg ha]
      exact h.rewritten bd hbd a' rw hrw k

theorem Inv.slot (h : Inv fw d) (a : Addr) (k : Hash) (v : Option Bytes) (order : List Addr)
    : Inv fw ((d.noteSlot a k (v.getD []) order).push fw (.slot a k v)) := by
  have hbatch : ∀ bd', (d.noteSlot a k (v.getD []) order).batchDeleted = some bd' → ∃ bd, d.batchDeleted = some bd ∧
      bd' = update bd a ((bd a).map (fun rw => update rw k (v.getD []))) := by
    intro bd' hbd'
    unfold noteSlot at hbd'
    dsimp only at hbd'
    rw [map_eq_some_iff] at hbd'
    rcases hbd' with ⟨bd, hbd, hupdate⟩
    exact ⟨bd, hbd, hupdate.symm⟩
  have hcache : ∀ c, (d.withEntry a order (fun c e => c.setSlot a e k (v.getD []))).cache = some c →
      CacheOk (d.plain.apply (.slot a k v)) c := by
    apply cacheOk_withEntry h.cache
    intro c e hc he
    apply hc.setSlot he (sameBut_slot _ _ _ _) rfl
    . simp [FlatState.apply]
    . intro k' hk
      simp [FlatState.apply, hk]
  apply h.push (d.noteSlot a k (v.getD []) order) rfl rfl
  . exact hcache
  . intro bd' hbd' a'
    rcases hbatch bd' hbd' with ⟨bd, hbd, rfl⟩
    have hdel : (bd a').isSome = (fw.view d.trie).deleted a' := h.deleted bd hbd a'
    by_cases ha : a' = a
    . subst ha
      rw [update_self, isSome_map]
      exact hdel
    . rw [update_of_ne ha]
      exact hdel
  . intro bd' hbd' a' rw hrw k'
    rcases hbatch bd' hbd' with ⟨bd, hbd, rfl⟩
    rw [FlatState.slot_apply_slot]
    by_cases ha : a' = a
    . subst ha
      rw [update_self, map_eq_some_iff] at hrw
      rcases hrw with ⟨rw0, hrw0, rfl⟩
      by_cases hk : k' = k
      . rw [hk, update_self, if_pos ⟨rfl, rfl⟩]
      . rw [update_of_ne hk, if_neg (fun hand => hk hand.2)]
        exact h.rewritten bd hbd a' rw0 hrw0 k'
    . rw [update_of_ne ha] at hrw
      rw [if_neg (fun hand => ha hand.1)]
      exact h.rewritten bd hbd a' rw hrw k'

theorem inv_openTrie {s : Frontier} {cache : Option ReadCache} (hcache : ∀ c, cache = some c → CacheOk s c)
    {bd : Option (Addr → Option (Hash → Bytes))} (hbd : ∀ b, bd = some b → ∀ a, b a = none) (cap : UInt64) (dirty : Bool)
    : Inv fw ⟨cache, cap, bd, fw.openTrie s, dirty, s, s⟩ where
  ok := by
    dsimp only
    rw [fw.view_openTrie]
    exact Overlay.ok_openAt s
  next := by
    dsimp only
    rw [fw.view_openTrie]
    rfl
  clean := fun _ => rfl
  cache := hcache
  deleted := by
    intro b hb a
    dsimp only
    rw [hbd b hb a, fw.view_openTrie]
    rfl
  rewritten := by
    intro b hb a rw hrw
    rw [hbd b hb a] at hrw
    cases hrw

theorem Inv.commit_eq (h : Inv fw d) : fw.commit d.trie = d.plain := by rw [fw.commit_eq, h.next]

end Wrapped

def CacheGuard {τ : Type} (fw : Firewood τ) (d : Wrapped τ) : CacheEvent → Prop
  | .getStorage a k _ => d.Readable fw a k
  | _ => True

theorem inv_cacheStep {τ : Type} {fw : Firewood τ} {d d' : Wrapped τ} {e : CacheEvent} (h : d.Inv fw)
    (hguard : CacheGuard fw d e) (hstep : cacheStep fw d e = some d') : d'.Inv fw := by
  cases e with
  | updateAccount a acc order =>
    cases hstep
    exact h.updateAccount a acc order
  | deleteAccount a =>
    cases hstep
    exact h.deleteAccount a
  | updateStorage a k v order =>
    cases hstep
    exact h.slot a k (some v) order
  | deleteStorage a k order =>
    cases hstep
    exact h.slot a k none order
  | getAccount a order =>
    cases hstep
    exact h.getAccount a order
  | getStorage a k order =>
    cases hstep
    exact h.getStorage hguard order
  | endBlock =>
    simp only [cacheStep, ite_none_right_eq_some, Option.some.injEq, isNone_iff_eq_none] at hstep
    rcases hstep with ⟨hbatch, rfl⟩
    unfold Wrapped.boundary
    dsimp only
    rw [h.commit_eq]
    rw [hbatch]
    exact Wrapped.inv_openTrie h.cache (fun b hb => by cases hb) _ _
  | beginBatch =>
    simp only [cacheStep, ite_none_right_eq_some, Option.some.injEq, Bool.and_eq_true, Bool.not_eq_true'] at hstep
    rcases hstep with ⟨⟨-, hclean⟩, rfl⟩
    have hplain := h.clean hclean
    rw [← hplain]
    apply Wrapped.inv_openTrie h.cache
    intro b hb
    cases hb
    exact fun _ => rfl
  | endBatch =>
    simp only [cacheStep, ite_none_right_eq_some, Option.some.injEq] at hstep
    rcases hstep with ⟨-, rfl⟩
    unfold Wrapped.boundary
    dsimp only
    rw [h.commit_eq]
    exact Wrapped.inv_openTrie h.cache (fun b hb => by cases hb) _ _
  | bisect =>
    simp only [cacheStep, ite_none_right_eq_some, Option.some.injEq] at hstep
    rcases hstep with ⟨-, rfl⟩
    apply Wrapped.inv_openTrie
    . intro c hc
      rw [map_eq_some_iff] at hc
      rcases hc with ⟨-, -, rfl⟩
      exact cacheOk_empty _
    . intro b hb
      cases hb

theorem sum_ofNat {α : Type} (l : List α) {f : α → UInt64} {g : α → Nat} (h : ∀ x ∈ l, f x = UInt64.ofNat (g x))
    : (l.map f).sum = UInt64.ofNat (l.map g).sum := by
  induction l with
  | nil => rfl
  | cons x l ih =>
    rw [List.map_cons, List.map_cons, List.sum_cons, List.sum_cons, h x (by simp),
      ih (fun y hy => h y (List.mem_cons_of_mem _ hy)), UInt64.ofNat_add]

theorem CacheOk.size_eq {p : Frontier} {c : ReadCache} (h : CacheOk p c)
    : c.size = (c.entries.entries.map (fun s => s.2.cost)).sum ∧
      (c.weight < 2 ^ 64 → c.size.toNat = (c.entries.entries.map (fun s => s.2.cost.toNat)).sum) := by
  have hcost : ∀ s ∈ c.entries.entries, s.2.cost = UInt64.ofNat s.2.weight :=
    fun s hs => (h.entry s.1 s.2 (mem_lookup_iff.mpr hs)).cost
  refine ⟨?_, ?_⟩
  . rw [sum_ofNat _ hcost, h.size]
    rfl
  . intro hlt
    have hexact : c.entries.entries.map (fun s => s.2.cost.toNat) = c.entries.entries.map (fun s => s.2.weight) := by
      apply List.map_congr_left
      intro s hs
      have hle : s.2.weight ≤ c.weight := List.le_sum_of_mem (List.mem_map.mpr ⟨s, hs, rfl⟩)
      rw [hcost s hs, UInt64.toNat_ofNat', Nat.mod_eq_of_lt (by omega)]
    rw [hexact, h.size, UInt64.toNat_ofNat', Nat.mod_eq_of_lt hlt]
    rfl

/--
In every run a read answers what the plain map answers, and the cache is charged with what its entries cost.
-/
theorem readCache_invisible {τ : Type} (fw : Firewood τ) (cacheBytes : UInt64) (s : Frontier) {d : Wrapped τ}
    (h : Transition.Reachable (cacheStep fw) (CacheGuard fw) (Wrapped.init fw cacheBytes s) d)
    : (∀ a order, (d.getAccount fw a order).1 = d.plain.account a) ∧
      (∀ a k order, CacheGuard fw d (.getStorage a k order) →
        (d.getStorage fw a k order).1 = (d.plain.slot a k).getD []) ∧
      ∀ c, d.cache = some c →
        c.size = (c.entries.entries.map (fun s => s.2.cost)).sum ∧
        (c.weight < 2 ^ 64 → c.size.toNat = (c.entries.entries.map (fun s => s.2.cost.toNat)).sum) := by
  have hinv : d.Inv fw :=
    h.invariant (I := Wrapped.Inv fw) (Wrapped.inv_init cacheBytes s)
      (fun d e d' hd hguard hstep => inv_cacheStep hd hguard hstep)
  refine ⟨?_, ?_, ?_⟩
  . exact fun a order => hinv.getAccount_eq a order
  . exact fun a k order hread => hinv.getStorage_eq hread order
  . exact fun c hc => (hinv.cache c hc).size_eq

def overlayTries : Firewood Overlay where
  openTrie := Overlay.openAt
  update := Overlay.apply
  getAccount := Overlay.getAccount
  getStorage := Overlay.getStorage
  commit := Overlay.next
  view := id
  view_openTrie := fun _ => rfl
  view_update := fun _ _ => rfl
  getAccount_eq := fun _ _ => rfl
  getStorage_eq := fun _ _ _ => rfl
  commit_eq := fun _ => rfl

def oneSlot : Frontier := ⟨fun a => if a = FixedBytes.fill 20 1 then some [9] else none,
  fun a k => if a = FixedBytes.fill 20 1 ∧ k = FixedBytes.fill 32 2 then some [7] else none⟩

instance (d : Wrapped Overlay) (a : Addr) (k : Hash) : Decidable (d.Readable overlayTries a k) :=
  inferInstanceAs (Decidable (d.batchDeleted = none → (d.trie.deleted a = true → (d.trie.slots a k ≠ none ↔ d.trie.accounts a ≠ some none))))

instance (d : Wrapped Overlay) (e : CacheEvent) : Decidable (CacheGuard overlayTries d e) :=
  match e with
  | .getStorage a k _ => inferInstanceAs (Decidable (d.Readable overlayTries a k))
  | .updateAccount .. | .deleteAccount .. | .updateStorage .. | .deleteStorage .. | .getAccount .. | .endBlock
  | .beginBatch | .endBatch | .bisect => isTrue trivial

def readThenRecreate : List CacheEvent :=
  [.getStorage (FixedBytes.fill 20 1) (FixedBytes.fill 32 2) [], .endBlock, .beginBatch, .deleteAccount (FixedBytes.fill 20 1),
    .updateAccount (FixedBytes.fill 20 1) [5] [], .getAccount (FixedBytes.fill 20 3) [FixedBytes.fill 20 1]]

theorem readCache_invisible_recreated
    : ∃ d, Transition.run (cacheStep overlayTries) (Wrapped.init overlayTries 200 oneSlot) readThenRecreate = some d ∧
        (d.getStorage overlayTries (FixedBytes.fill 20 1) (FixedBytes.fill 32 2) []).1 = [] ∧
        (d.getAccount overlayTries (FixedBytes.fill 20 1) []).1 = d.plain.account (FixedBytes.fill 20 1) := by
  have hrun : (Transition.run (fun d e => if decide (CacheGuard overlayTries d e) then cacheStep overlayTries d e else none)
      (Wrapped.init overlayTries 200 oneSlot) readThenRecreate).map
        (fun d => (d.getStorage overlayTries (FixedBytes.fill 20 1) (FixedBytes.fill 32 2) []).1) = some [] := by
    decide +kernel
  rcases map_eq_some_iff.mp hrun with ⟨d, hd, hslot⟩
  have hreach : Transition.Reachable (cacheStep overlayTries) (CacheGuard overlayTries) (Wrapped.init overlayTries 200 oneSlot) d :=
    Transition.Reachable.run_checked (fun _ _ => of_decide_eq_true) .init hd
  exact ⟨d, Transition.run_of_run_checked hd, hslot, (readCache_invisible overlayTries 200 oneSlot hreach).1 _ _⟩

theorem readCache_stale
    : ∃ d, Transition.run (cacheStep overlayTries) (Wrapped.init overlayTries 1024 oneSlot)
          [.deleteAccount (FixedBytes.fill 20 1), .updateAccount (FixedBytes.fill 20 1) [5] []] = some d ∧
        (d.getStorage overlayTries (FixedBytes.fill 20 1) (FixedBytes.fill 32 2) []).1 = [7] ∧
        (d.plain.slot (FixedBytes.fill 20 1) (FixedBytes.fill 32 2)).getD [] = [] := by
  have hrun : (Transition.run (cacheStep overlayTries) (Wrapped.init overlayTries 1024 oneSlot)
      [.deleteAccount (FixedBytes.fill 20 1), .updateAccount (FixedBytes.fill 20 1) [5] []]).map
        (fun d => ((d.getStorage overlayTries (FixedBytes.fill 20 1) (FixedBytes.fill 32 2) []).1,
          (d.plain.slot (FixedBytes.fill 20 1) (FixedBytes.fill 32 2)).getD [])) = some ([7], []) := by
    decide +kernel
  rcases map_eq_some_iff.mp hrun with ⟨d, hd, hread⟩
  rw [Prod.mk.injEq] at hread
  exact ⟨d, hd, hread.1, hread.2⟩

end EpochDB.Exec
