import EpochDB.Commit.NodeSlab

/-!
The node slab of `Dirty` is a finite map from owners and paths to blobs, and compaction relocates its slots.
-/

namespace EpochDB.Commit

open List Option Function ByteSlab AList

abbrev IndexKey := NodeKey ⊕ Bytes

def indexKey (owner : Hash) (path : Bytes) : IndexKey :=
  match packPath path with
  | some k => .inl ⟨owner, k⟩
  | none => .inr (owner.1 ++ path)

theorem indexKey_inj {owner owner' : Hash} {path path' : Bytes} (h : indexKey owner path = indexKey owner' path')
    : owner = owner' ∧ path = path' := by
  unfold indexKey at h
  cases hk : packPath path with
  | some k =>
    cases hk' : packPath path' with
    | some k' =>
      simp only [hk, hk', Sum.inl.injEq, NodeKey.mk.injEq] at h
      rcases h with ⟨howner, rfl⟩
      exact ⟨howner, packPath_inj hk hk'⟩
    | none => simp [hk, hk'] at h
  | none =>
    cases hk' : packPath path' with
    | some k' => simp [hk, hk'] at h
    | none =>
      simp only [hk, hk', Sum.inr.injEq] at h
      rcases append_inj h (by rw [owner.2, owner'.2]) with ⟨howner, hpath⟩
      exact ⟨Subtype.ext howner, hpath⟩

structure Slot where
  len : Nat
  body : Bytes
  len_le : len ≤ body.length
  body_lt : body.length < 256 ^ 2

namespace Slot

def encode (s : Slot) : Bytes := Bytes.ofNatLE 2 s.body.length ++ (Bytes.ofNatLE 2 s.len ++ s.body)

def blob (s : Slot) : Bytes := s.body.take s.len

@[simp]
theorem length_encode (s : Slot) : s.encode.length = 4 + s.body.length := by
  simp only [encode, length_append, Bytes.length_ofNatLE]
  omega

def write (s : Slot) (blob : Bytes) (h : blob.length ≤ s.body.length) : Slot where
  len := blob.length
  body := blob ++ s.body.drop blob.length
  len_le := by
    rw [length_append]
    omega
  body_lt := by
    have := s.body_lt
    rw [length_append, length_drop]
    omega

variable {s : Slot} {blob : Bytes} (h : blob.length ≤ s.body.length)

theorem length_body_write : (s.write blob h).body.length = s.body.length := by
  rw [write, length_append, length_drop]
  omega

@[simp]
theorem blob_write : (s.write blob h).blob = blob := take_left

theorem encode_split (s : Slot) (n : Nat)
    : s.encode = Bytes.ofNatLE 2 s.body.length ++ ((Bytes.ofNatLE 2 s.len ++ s.body.take n) ++ s.body.drop n) := by
  rw [append_assoc, take_append_drop]
  rfl

theorem encode_write
    : (s.write blob h).encode =
        Bytes.ofNatLE 2 s.body.length ++ ((Bytes.ofNatLE 2 blob.length ++ blob) ++ s.body.drop blob.length) := by
  rw [encode, length_body_write, append_assoc]
  rfl

theorem encode_ne_nil (s : Slot) : s.encode ≠ [] := by
  rw [← length_pos_iff, length_encode]
  omega

end Slot

namespace Dirty

def entry (d : Dirty) : IndexKey → Option Nat
  | .inl k => d.idx.lookup k
  | .inr k => d.long.lookup k

variable {d : Dirty}

theorem offset_eq (d : Dirty) (owner : Hash) (path : Bytes) : d.offset owner path = d.entry (indexKey owner path) := by
  unfold offset indexKey
  cases packPath path <;> rfl

theorem entry_setOffset (d : Dirty) (owner : Hash) (path : Bytes) (off : Nat) (k : IndexKey)
    : (d.setOffset owner path off).entry k = if k = indexKey owner path then some off else d.entry k := by
  have hlookup : ∀ {κ : Type} [DecidableEq κ] (s : AList (fun _ : κ => Nat)) (a b : κ),
      (s.insert a off).lookup b = if b = a then some off else s.lookup b := by
    intro κ _ s a b
    by_cases h : b = a
    . rw [h, if_pos rfl, lookup_insert]
    . rw [if_neg h, lookup_insert_ne h]
  unfold setOffset indexKey
  cases packPath path <;> cases k <;> simp [entry, hlookup]

@[simp]
theorem slab_setOffset (d : Dirty) (owner : Hash) (path : Bytes) (off : Nat)
    : (d.setOffset owner path off).slab = d.slab := by
  unfold setOffset
  cases packPath path <;> rfl

@[simp]
theorem dead_setOffset (d : Dirty) (owner : Hash) (path : Bytes) (off : Nat)
    : (d.setOffset owner path off).dead = d.dead := by
  unfold setOffset
  cases packPath path <;> rfl

theorem mem_offs (d : Dirty) (off : Nat) : off ∈ d.offs ↔ ∃ k, d.entry k = some off := by
  have hentry : ∀ {κ : Type} [DecidableEq κ] (s : AList (fun _ : κ => Nat)),
      off ∈ s.entries.map (·.2) ↔ ∃ k, s.lookup k = some off := by
    intro κ _ s
    rw [List.mem_map]
    constructor
    . rintro ⟨e, he, rfl⟩
      exact ⟨e.1, mem_lookup_iff.mpr he⟩
    . rintro ⟨k, hk⟩
      exact ⟨⟨k, off⟩, mem_lookup_iff.mp hk, rfl⟩
  rw [offs, mem_append, hentry, hentry, Sum.exists]
  rfl

def region (d : Dirty) (off : Nat) : Finset Nat := Finset.Ico off (off + (4 + d.capAt off))

theorem mem_unpointed (d : Dirty) (p : Nat)
    : p ∈ d.unpointed ↔ p < d.slab.length ∧ ∀ k off, d.entry k = some off → p ∉ d.region off := by
  have hpoints : d.Points p ↔ ∃ k off, d.entry k = some off ∧ p ∈ d.region off := by
    unfold Points region
    constructor
    . rintro ⟨off, hoff, hp⟩
      rcases (mem_offs d off).mp hoff with ⟨k, hk⟩
      exact ⟨k, off, hk, Finset.mem_Ico.mpr hp⟩
    . rintro ⟨k, off, hk, hp⟩
      exact ⟨off, (mem_offs d off).mpr ⟨k, hk⟩, Finset.mem_Ico.mp hp⟩
  rw [unpointed, Finset.mem_filter, Finset.mem_range, hpoints]
  push Not
  rfl

theorem unpointed_congr {d' : Dirty} (hlen : d'.slab.length = d.slab.length) (hentry : ∀ k, d'.entry k = d.entry k)
    (hcap : ∀ k off, d.entry k = some off → d'.capAt off = d.capAt off) : d'.unpointed = d.unpointed := by
  ext p
  rw [mem_unpointed, mem_unpointed, hlen]
  apply and_congr_right
  intro _
  apply forall₂_congr
  intro k off
  rw [hentry]
  apply imp_congr_right
  intro hk
  rw [region, region, hcap k off hk]

section

variable {slots : List Slot} {i : Nat} {s : Slot} (hslab : d.slab = ByteSlab.bytes Slot.encode slots)
  (h : slots[i]? = some s)

include hslab h

theorem capAt_offset : d.capAt (ByteSlab.offset Slot.encode slots i) = s.body.length := by
  rw [capAt, hslab, drop_offset h, Slot.encode, append_assoc, take_left' (by simp)]
  exact Bytes.toNatLE_ofNatLE s.body_lt

theorem lenAt_offset : d.lenAt (ByteSlab.offset Slot.encode slots i) = s.len := by
  rw [lenAt, hslab, ← drop_drop, drop_offset h, Slot.encode, append_assoc, drop_left' (by simp),
    append_assoc, take_left' (by simp)]
  exact Bytes.toNatLE_ofNatLE (lt_of_le_of_lt s.len_le s.body_lt)

theorem blob_offset
    : (d.slab.drop (ByteSlab.offset Slot.encode slots i + 4)).take (d.lenAt (ByteSlab.offset Slot.encode slots i)) =
        s.blob := by
  rw [lenAt_offset hslab h, hslab, ← drop_drop, drop_offset h, Slot.encode, ← append_assoc,
    append_assoc, drop_left' (by simp), take_append_of_le_length s.len_le]
  rfl

theorem slot_offset
    : (d.slab.drop (ByteSlab.offset Slot.encode slots i)).take (4 + d.capAt (ByteSlab.offset Slot.encode slots i)) =
        s.encode := by
  rw [capAt_offset hslab h, hslab, drop_offset h, take_left' (Slot.length_encode s)]

theorem mem_region (p : Nat)
    : p ∈ d.region (ByteSlab.offset Slot.encode slots i) ↔
        ByteSlab.offset Slot.encode slots i ≤ p ∧ p < ByteSlab.offset Slot.encode slots i + s.encode.length := by
  rw [region, Finset.mem_Ico, capAt_offset hslab h, Slot.length_encode]

end

structure Holds (d : Dirty) (slots : List Slot) (m : IndexKey → Option Bytes) : Prop where
  slab : d.slab = ByteSlab.bytes Slot.encode slots
  named : ∀ k off, d.entry k = some off →
    ∃ i s, slots[i]? = some s ∧ off = ByteSlab.offset Slot.encode slots i ∧ m k = some s.blob
  absent : ∀ k, d.entry k = none → m k = none
  apart : ∀ k k' off, d.entry k = some off → d.entry k' = some off → k = k'
  dead : d.dead = d.unpointed.card

variable {slots : List Slot} {m : IndexKey → Option Bytes}

theorem Holds.lookup (h : d.Holds slots m) (owner : Hash) (path : Bytes) : d.lookup owner path = m (indexKey owner path) := by
  rw [Dirty.lookup, offset_eq]
  cases hk : d.entry (indexKey owner path) with
  | none => rw [h.absent _ hk]; rfl
  | some off =>
    rcases h.named _ _ hk with ⟨i, s, hs, rfl, hm⟩
    rw [hm, map_some, blob_offset h.slab hs]

theorem Holds.disjoint (h : d.Holds slots m) {k k' : IndexKey} {off off' : Nat} (hk : d.entry k = some off)
    (hk' : d.entry k' = some off') (hne : k ≠ k') {p : Nat} (hp : p ∈ d.region off) : p ∉ d.region off' := by
  rcases h.named k off hk with ⟨i, s, hs, rfl, -⟩
  rcases h.named k' off' hk' with ⟨i', s', hs', rfl, -⟩
  have hi : i ≠ i' := by
    rintro rfl
    exact hne (h.apart k k' _ hk hk')
  rw [mem_region h.slab hs] at hp
  rw [mem_region h.slab hs']
  rcases lt_or_gt_of_ne hi with hlt | hgt
  . have := offset_add_le Slot.encode hs hlt
    omega
  . have := offset_add_le Slot.encode hs' hgt
    omega

theorem Holds.region_lt (h : d.Holds slots m) {k : IndexKey} {off : Nat} (hk : d.entry k = some off) {p : Nat}
    (hp : p ∈ d.region off) : p < d.slab.length := by
  rcases h.named k off hk with ⟨i, s, hs, rfl, -⟩
  rw [mem_region h.slab hs] at hp
  have := offset_add_le_length Slot.encode hs
  rw [h.slab]
  omega

theorem holds_reset : reset.Holds [] (fun _ => none) := by
  refine ⟨rfl, ?_, fun _ _ => rfl, ?_, rfl⟩
  . rintro (k | k) off hk <;> cases hk
  . rintro (k | k) k' off hk <;> cases hk

theorem slab_put (h : d.slab = ByteSlab.bytes Slot.encode slots) {i : Nat} {s : Slot} (hs : slots[i]? = some s)
    {owner : Hash} {path blob : Bytes} (hoff : d.offset owner path = some (ByteSlab.offset Slot.encode slots i))
    (hfit : blob.length ≤ s.body.length)
    : d.put owner path blob = { d with slab := ByteSlab.bytes Slot.encode (slots.set i (s.write blob hfit)) } := by
  have hcap := capAt_offset h hs
  have hend := offset_add_le_length Slot.encode hs
  rw [Slot.length_encode] at hend
  have hsplice := splice_offset hs (s.encode_split blob.length) (Slot.encode_write hfit)
    (by simp only [length_append, Bytes.length_ofNatLE, length_take]; omega)
  rw [Bytes.length_ofNatLE] at hsplice
  have hwrites := splice_splice
    (show ByteSlab.offset Slot.encode slots i + 2 ≤ (ByteSlab.bytes Slot.encode slots).length by omega)
    (Bytes.ofNatLE 2 blob.length) blob
  rw [Bytes.length_ofNatLE] at hwrites
  unfold put
  rw [hoff]
  dsimp only
  rw [hcap, if_pos hfit, h, hwrites, hsplice]

theorem Holds.overwrite (h : d.Holds slots m) {owner : Hash} {path blob : Bytes} {off : Nat}
    (hoff : d.offset owner path = some off) (hfit : blob.length ≤ d.capAt off)
    : ∃ slots', (d.put owner path blob).Holds slots' (update m (indexKey owner path) (some blob)) := by
  have hentry : d.entry (indexKey owner path) = some off := by
    rw [← offset_eq, hoff]
  rcases h.named _ _ hentry with ⟨i, s, hs, rfl, -⟩
  rw [capAt_offset h.slab hs] at hfit
  rw [slab_put h.slab hs hoff hfit]
  have hoffset := offset_set hs
    (show (s.write blob hfit).encode.length = s.encode.length by simp [Slot.length_body_write])
  have hset : (slots.set i (s.write blob hfit))[i]? = some (s.write blob hfit) := by
    rcases List.getElem?_eq_some_iff.mp hs with ⟨hlt, -⟩
    rw [getElem?_set_self hlt]
  have hkeep : ∀ j s', slots[j]? = some s' → ∃ s'' : Slot, (slots.set i (s.write blob hfit))[j]? = some s'' ∧
      s''.body.length = s'.body.length ∧ (j ≠ i → s'' = s') := by
    intro j s' hs'
    by_cases hij : j = i
    . subst hij
      rw [hs] at hs'
      cases hs'
      exact ⟨_, hset, Slot.length_body_write hfit, fun hne => absurd rfl hne⟩
    . refine ⟨s', ?_, rfl, fun _ => rfl⟩
      rw [getElem?_set_ne (Ne.symm hij), hs']
  refine ⟨slots.set i (s.write blob hfit), rfl, ?_, ?_, h.apart, ?_⟩
  . intro k off hk
    by_cases heq : k = indexKey owner path
    . subst heq
      have hoff' := hentry.symm.trans hk
      cases hoff'
      refine ⟨i, _, hset, (hoffset i).symm, ?_⟩
      rw [update_self, Slot.blob_write]
    . rcases h.named k off hk with ⟨j, s', hs', rfl, hm⟩
      have hij : j ≠ i := by
        rintro rfl
        exact heq (h.apart _ _ _ hk hentry)
      rcases hkeep j s' hs' with ⟨s'', hs'', -, hsame⟩
      rw [hsame hij] at hs''
      refine ⟨j, s', hs'', (hoffset j).symm, ?_⟩
      rw [update_of_ne heq, hm]
  . intro k hk
    have hne : k ≠ indexKey owner path := by
      rintro rfl
      have := hk.symm.trans hentry
      cases this
    rw [update_of_ne hne]
    exact h.absent k hk
  . refine h.dead.trans (congrArg Finset.card (unpointed_congr ?_ ?_ ?_).symm)
    . rw [← offset_length, length_set, hoffset, offset_length, h.slab]
    . rintro (k | k) <;> rfl
    . intro k off hk
      rcases h.named k off hk with ⟨j, s', hs', rfl, -⟩
      rcases hkeep j s' hs' with ⟨s'', hs'', hbody, -⟩
      rw [capAt_offset h.slab hs', ← hbody, ← hoffset j]
      exact capAt_offset rfl hs''

def maxBlob : Nat := 65472

def newSlot (blob : Bytes) (h : blob.length ≤ maxBlob) : Slot where
  len := blob.length
  body := blob ++ List.replicate ((blob.length + 63) / 64 * 64 - blob.length) 0
  len_le := by
    rw [length_append]
    omega
  body_lt := by
    unfold maxBlob at h
    rw [length_append, length_replicate]
    omega

theorem append_eq (h : d.slab = ByteSlab.bytes Slot.encode slots) (owner : Hash) (path : Bytes) {blob : Bytes}
    (hblob : blob.length ≤ maxBlob)
    : d.append owner path blob = { d with slab := ByteSlab.bytes Slot.encode (slots ++ [newSlot blob hblob]) }.setOffset owner path
        (ByteSlab.offset Slot.encode slots slots.length) := by
  have hbody : (newSlot blob hblob).body.length = (blob.length + 63) / 64 * 64 := by
    rw [newSlot, length_append, length_replicate]
    omega
  have hencode : (newSlot blob hblob).encode = Bytes.ofNatLE 2 ((blob.length + 63) / 64 * 64) ++
      Bytes.ofNatLE 2 blob.length ++ blob ++ List.replicate ((blob.length + 63) / 64 * 64 - blob.length) 0 := by
    rw [Slot.encode, hbody]
    simp only [newSlot, append_assoc]
  unfold append
  dsimp only
  rw [bytes_append, bytes_singleton, hencode, offset_length, h]

def regionOf (d : Dirty) (k : IndexKey) : Finset Nat := ((d.entry k).map d.region).getD ∅

theorem mem_regionOf (d : Dirty) (k : IndexKey) (p : Nat)
    : p ∈ d.regionOf k ↔ ∃ off, d.entry k = some off ∧ p ∈ d.region off := by
  unfold regionOf
  cases d.entry k <;> simp

theorem Holds.append (h : d.Holds slots m) (owner : Hash) (path : Bytes) {blob : Bytes} (hblob : blob.length ≤ maxBlob) {dead : Nat}
    (hdead : dead = d.dead + (d.regionOf (indexKey owner path)).card)
    : Holds ({ d with dead }.append owner path blob) (slots ++ [newSlot blob hblob])
        (update m (indexKey owner path) (some blob)) := by
  have hd : ({ d with dead } : Dirty).slab = ByteSlab.bytes Slot.encode slots := h.slab
  rw [append_eq hd owner path hblob]
  generalize hd' : ({ d with dead, slab := ByteSlab.bytes Slot.encode (slots ++ [newSlot blob hblob]) } : Dirty).setOffset owner path
    (ByteSlab.offset Slot.encode slots slots.length) = d'
  have hslab : d'.slab = ByteSlab.bytes Slot.encode (slots ++ [newSlot blob hblob]) := by
    rw [← hd', slab_setOffset]
  have hentry : ∀ k, d'.entry k =
      if k = indexKey owner path then some (ByteSlab.offset Slot.encode slots slots.length) else d.entry k := by
    intro k
    rw [← hd', entry_setOffset]
    rfl
  have hnew : (slots ++ [newSlot blob hblob])[slots.length]? = some (newSlot blob hblob) := getElem?_concat_length
  have hold : ∀ i s, slots[i]? = some s → (slots ++ [newSlot blob hblob])[i]? = some s ∧
      ByteSlab.offset Slot.encode (slots ++ [newSlot blob hblob]) i = ByteSlab.offset Slot.encode slots i := by
    intro i s hs
    rcases List.getElem?_eq_some_iff.mp hs with ⟨hlt, -⟩
    rw [getElem?_append_left hlt]
    exact ⟨hs, offset_append (by omega) _⟩
  have hlast : ByteSlab.offset Slot.encode (slots ++ [newSlot blob hblob]) slots.length =
      ByteSlab.offset Slot.encode slots slots.length := offset_append (le_refl _) _
  have hbefore : ∀ i s, slots[i]? = some s →
      ByteSlab.offset Slot.encode slots i + s.encode.length ≤ ByteSlab.offset Slot.encode slots slots.length := by
    intro i s hs
    rw [offset_length]
    exact offset_add_le_length Slot.encode hs
  refine ⟨hslab, ?_, ?_, ?_, ?_⟩
  . intro k off hk
    rw [hentry] at hk
    split at hk
    . next heq =>
      cases hk
      refine ⟨slots.length, _, hnew, hlast.symm, ?_⟩
      rw [heq, update_self]
      exact congrArg some take_left.symm
    . next hne =>
      rcases h.named k off hk with ⟨i, s, hs, rfl, hm⟩
      refine ⟨i, s, (hold i s hs).1, (hold i s hs).2.symm, ?_⟩
      rw [update_of_ne hne, hm]
  . intro k hk
    rw [hentry] at hk
    split at hk
    . cases hk
    . next hne =>
      rw [update_of_ne hne]
      exact h.absent k hk
  . -- the new slot begins behind every other
    have hbehind : ∀ k, d.entry k ≠ some (ByteSlab.offset Slot.encode slots slots.length) := by
      intro k hk
      rcases h.named k _ hk with ⟨i, s, hs, heq, -⟩
      have hle := hbefore i s hs
      have hpos := s.length_encode
      omega
    intro k k' off hk hk'
    rw [hentry] at hk hk'
    split at hk <;> split at hk'
    . next heq heq' => rw [heq, heq']
    . cases hk
      exact absurd hk' (hbehind k')
    . cases hk'
      exact absurd hk (hbehind k)
    . exact h.apart k k' off hk hk'
  . have hlen : ByteSlab.offset Slot.encode slots slots.length = d.slab.length := by
      rw [offset_length, h.slab]
    have hlen' : d'.slab.length = d.slab.length + (newSlot blob hblob).encode.length := by
      rw [hslab, bytes_append, bytes_singleton, length_append, h.slab]
    have hregion : ∀ k off, d.entry k = some off → d'.region off = d.region off := by
      intro k off hk
      rcases h.named k off hk with ⟨i, s, hs, rfl, -⟩
      have hcap := capAt_offset hslab (hold i s hs).1
      rw [(hold i s hs).2] at hcap
      rw [region, region, hcap, capAt_offset h.slab hs]
    have hregionNew : ∀ p, p ∈ d'.region d.slab.length ↔ d.slab.length ≤ p ∧ p < d'.slab.length := by
      intro p
      have hmem := mem_region hslab hnew p
      rw [hlast, hlen] at hmem
      rw [hmem, hlen']
    have hunpointed : d'.unpointed = d.unpointed ∪ d.regionOf (indexKey owner path) := by
      ext p
      rw [Finset.mem_union, mem_regionOf, mem_unpointed, mem_unpointed]
      constructor
      . rintro ⟨hp, hout⟩
        have hlt : p < d.slab.length := by
          by_contra hge
          refine hout (indexKey owner path) d.slab.length ?_ ((hregionNew p).mpr ⟨by omega, hp⟩)
          rw [hentry, if_pos rfl, hlen]
        by_cases hmine : ∃ off, d.entry (indexKey owner path) = some off ∧ p ∈ d.region off
        . exact .inr hmine
        . refine .inl ⟨hlt, ?_⟩
          intro k off hk hp
          by_cases heq : k = indexKey owner path
          . exact hmine ⟨off, heq ▸ hk, hp⟩
          . refine hout k off ?_ (by rw [hregion k off hk]; exact hp)
            rw [hentry, if_neg heq, hk]
      . have hnewOut : p < d.slab.length → ∀ k off, d'.entry k = some off → k = indexKey owner path → p ∉ d'.region off := by
          intro hp k off hk heq
          rw [hentry, if_pos heq, hlen] at hk
          cases hk
          rw [hregionNew]
          omega
        rintro (⟨hp, hout⟩ | ⟨off₀, hoff₀, hp⟩)
        . refine ⟨by omega, ?_⟩
          intro k off hk
          by_cases heq : k = indexKey owner path
          . exact hnewOut hp k off hk heq
          . rw [hentry, if_neg heq] at hk
            rw [hregion k off hk]
            exact hout k off hk
        . have hlt := h.region_lt hoff₀ hp
          refine ⟨by omega, ?_⟩
          intro k off hk
          by_cases heq : k = indexKey owner path
          . exact hnewOut hlt k off hk heq
          . rw [hentry, if_neg heq] at hk
            rw [hregion k off hk]
            exact h.disjoint hoff₀ hk (Ne.symm heq) hp
    have hdisjoint : Disjoint d.unpointed (d.regionOf (indexKey owner path)) := by
      rw [Finset.disjoint_left]
      intro p hp hmine
      rcases (mem_regionOf d _ p).mp hmine with ⟨off, hoff, hin⟩
      exact ((mem_unpointed d p).mp hp).2 _ off hoff hin
    have hd'dead : d'.dead = dead := by
      rw [← hd', dead_setOffset]
    rw [hunpointed, Finset.card_union_of_disjoint hdisjoint, hd'dead, hdead, h.dead]

theorem Holds.put (h : d.Holds slots m) (owner : Hash) (path : Bytes) {blob : Bytes} (hblob : blob.length ≤ maxBlob)
    : ∃ slots', (d.put owner path blob).Holds slots' (update m (indexKey owner path) (some blob)) := by
  cases hoff : d.offset owner path with
  | none =>
    refine ⟨slots ++ [newSlot blob hblob], ?_⟩
    have hcard : d.dead = d.dead + (d.regionOf (indexKey owner path)).card := by
      rw [regionOf, ← offset_eq, hoff]
      rfl
    have happend := h.append owner path hblob hcard
    unfold Dirty.put
    rw [hoff]
    exact happend
  | some off =>
    by_cases hfit : blob.length ≤ d.capAt off
    . exact h.overwrite hoff hfit
    . refine ⟨slots ++ [newSlot blob hblob], ?_⟩
      have hcard : d.dead + (d.capAt off + 4) = d.dead + (d.regionOf (indexKey owner path)).card := by
        rw [regionOf, ← offset_eq, hoff, map_some, getD_some, region, Nat.card_Ico]
        omega
      have happend := h.append owner path hblob hcard
      unfold Dirty.put
      rw [hoff]
      dsimp only
      rw [if_neg hfit]
      exact happend

structure Moved {κ : Type} [DecidableEq κ] (slots : List Slot) (order : List κ) (index : AList (fun _ : κ => Nat))
    (start moved : List Slot) (index' : AList (fun _ : κ => Nat)) : Prop where
  kept : ∀ k, k ∉ order → index'.lookup k = index.lookup k
  named : ∀ k ∈ order, ∃ i j s, slots[i]? = some s ∧ index.lookup k = some (ByteSlab.offset Slot.encode slots i) ∧
    start.length ≤ j ∧ (start ++ moved)[j]? = some s ∧
    index'.lookup k = some (ByteSlab.offset Slot.encode (start ++ moved) j)
  full : ∀ j s, start.length ≤ j → (start ++ moved)[j]? = some s →
    ∃ k ∈ order, index'.lookup k = some (ByteSlab.offset Slot.encode (start ++ moved) j)
  apart : ∀ k ∈ order, ∀ k' ∈ order, index'.lookup k = index'.lookup k' → k = k'

theorem move_spec {κ : Type} [DecidableEq κ] (hslab : d.slab = ByteSlab.bytes Slot.encode slots) {order : List κ}
    (hnodup : order.Nodup) (index : AList (fun _ : κ => Nat)) (start : List Slot)
    (hnamed : ∀ k ∈ order, ∃ i s, slots[i]? = some s ∧ index.lookup k = some (ByteSlab.offset Slot.encode slots i))
    : ∃ moved index', d.move order index (ByteSlab.bytes Slot.encode start) =
          (index', ByteSlab.bytes Slot.encode (start ++ moved)) ∧
        Moved slots order index start moved index' := by
  induction order generalizing index start with
  | nil =>
    refine ⟨[], index, by rw [append_nil]; rfl, fun _ _ => rfl, by simp, ?_, by simp⟩
    intro j s hj hs
    rw [append_nil, getElem?_eq_none hj] at hs
    cases hs
  | cons k order ih =>
    rcases hnamed k (by simp) with ⟨i, s, hs, hk⟩
    rw [nodup_cons] at hnodup
    have hne : ∀ k' ∈ order, k' ≠ k := by
      rintro k' hk' rfl
      exact hnodup.1 hk'
    have hindex : ∀ k' ∈ order,
        (index.insert k (ByteSlab.bytes Slot.encode start).length).lookup k' = index.lookup k' :=
      fun k' hk' => lookup_insert_ne (hne k' hk')
    rcases ih hnodup.2 (index.insert k (ByteSlab.bytes Slot.encode start).length) (start ++ [s])
      (fun k' hk' => by rw [hindex k' hk']; exact hnamed k' (by simp [hk'])) with ⟨moved, index', hmove, hmoved⟩
    rw [bytes_append, bytes_singleton] at hmove
    have hassoc : start ++ [s] ++ moved = start ++ s :: moved := by simp
    have hfirst : index'.lookup k = some (ByteSlab.offset Slot.encode (start ++ s :: moved) start.length) := by
      rw [hmoved.kept k hnodup.1, lookup_insert, offset_append (le_refl _), offset_length]
    have hrest : ∀ k' ∈ order, index'.lookup k' ≠ index'.lookup k := by
      intro k' hk' heq
      rcases hmoved.named k' hk' with ⟨-, j, s', -, -, hj, hs', hk''⟩
      rw [hk'', hfirst, hassoc, Option.some.injEq] at heq
      rw [hassoc] at hs'
      have hj' := offset_inj Slot.encode_ne_nil hs' (show (start ++ s :: moved)[start.length]? = some s by simp) heq
      simp only [length_append, length_singleton] at hj
      omega
    refine ⟨s :: moved, index', ?_, ?_, ?_, ?_, ?_⟩
    . rw [move, hk]
      dsimp only
      rw [slot_offset hslab hs, hmove, hassoc]
    . intro k' hk'
      rw [mem_cons, not_or] at hk'
      rw [hmoved.kept k' hk'.2, lookup_insert_ne hk'.1]
    . intro k' hk'
      rcases mem_cons.mp hk' with rfl | hk'
      . exact ⟨i, start.length, s, hs, hk, le_refl _, by simp, hfirst⟩
      . rcases hmoved.named k' hk' with ⟨i', j, s', hs', hlookup, hj, hat, hk''⟩
        rw [hindex k' hk'] at hlookup
        rw [hassoc] at hat hk''
        rw [length_append] at hj
        exact ⟨i', j, s', hs', hlookup, by omega, hat, hk''⟩
    . intro j s' hj hs'
      rcases Nat.eq_or_lt_of_le hj with rfl | hlt
      . exact ⟨k, by simp, hfirst⟩
      . rw [← hassoc] at hs' ⊢
        rcases hmoved.full j s' (by simp only [length_append, length_singleton]; omega) hs' with ⟨k', hk', hat⟩
        exact ⟨k', by simp [hk'], hat⟩
    . intro k₁ hk₁ k₂ hk₂ heq
      rcases mem_cons.mp hk₁ with rfl | h₁ <;> rcases mem_cons.mp hk₂ with rfl | h₂
      . rfl
      . exact absurd heq.symm (hrest k₂ h₂)
      . exact absurd heq (hrest k₁ h₁)
      . exact hmoved.apart k₁ h₁ k₂ h₂ heq

theorem mem_order {κ : Type} [DecidableEq κ] {index : AList (fun _ : κ => Nat)} {order : List κ}
    (horder : order.Perm index.keys) (k : κ) : k ∈ order ↔ ∃ off, index.lookup k = some off := by
  rw [horder.mem_iff, ← isSome_iff_exists, lookup_isSome]
  exact mem_keys.symm

theorem Holds.compact (h : d.Holds slots m) (least : Nat) {idxOrder : List NodeKey} {longOrder : List Bytes}
    (hidx : idxOrder.Perm d.idx.keys) (hlong : longOrder.Perm d.long.keys)
    : ∃ slots', (d.compact least idxOrder longOrder).Holds slots' m := by
  unfold Dirty.compact
  split
  . exact ⟨slots, h⟩
  have hwalked : ∀ k ∈ idxOrder, ∃ i s, slots[i]? = some s ∧
      d.idx.lookup k = some (ByteSlab.offset Slot.encode slots i) := by
    intro k hk
    rcases (mem_order hidx k).mp hk with ⟨off, hoff⟩
    rcases h.named (.inl k) off hoff with ⟨i, s, hs, rfl, -⟩
    exact ⟨i, s, hs, hoff⟩
  have hwalked' : ∀ k ∈ longOrder, ∃ i s, slots[i]? = some s ∧
      d.long.lookup k = some (ByteSlab.offset Slot.encode slots i) := by
    intro k hk
    rcases (mem_order hlong k).mp hk with ⟨off, hoff⟩
    rcases h.named (.inr k) off hoff with ⟨i, s, hs, rfl, -⟩
    exact ⟨i, s, hs, hoff⟩
  rcases move_spec h.slab (hidx.nodup_iff.mpr d.idx.nodupKeys) d.idx [] hwalked with ⟨moved, idx, hmove, hmoved⟩
  rcases move_spec h.slab (hlong.nodup_iff.mpr d.long.nodupKeys) d.long moved hwalked' with
    ⟨moved', long, hmove', hmoved'⟩
  rw [bytes_nil, nil_append] at hmove
  dsimp only
  rw [hmove, hmove']
  generalize hd' : Dirty.mk idx long (ByteSlab.bytes Slot.encode (moved ++ moved')) 0 = d'
  have hslab : d'.slab = ByteSlab.bytes Slot.encode (moved ++ moved') := by rw [← hd']
  have hfront : ∀ j s, moved[j]? = some s → (moved ++ moved')[j]? = some s ∧
      ByteSlab.offset Slot.encode (moved ++ moved') j = ByteSlab.offset Slot.encode moved j := by
    intro j s hs
    rcases List.getElem?_eq_some_iff.mp hs with ⟨hlt, -⟩
    rw [getElem?_append_left hlt]
    exact ⟨hs, offset_append (by omega) _⟩
  -- a key is named before and after or not at all
  have hkey : ∀ k, (d.entry k = none ∧ d'.entry k = none) ∨ ∃ i j s, slots[i]? = some s ∧
      d.entry k = some (ByteSlab.offset Slot.encode slots i) ∧ (moved ++ moved')[j]? = some s ∧
      d'.entry k = some (ByteSlab.offset Slot.encode (moved ++ moved') j) ∧ (k.isLeft ↔ j < moved.length) := by
    rw [← hd']
    rintro (k | k)
    . by_cases hk : k ∈ idxOrder
      . rcases hmoved.named k hk with ⟨i, j, s, hs, hold, -, hat, hnew⟩
        rw [nil_append] at hat hnew
        rcases hfront j s hat with ⟨hat', hoffset⟩
        rcases List.getElem?_eq_some_iff.mp hat with ⟨hlt, -⟩
        exact .inr ⟨i, j, s, hs, hold, hat', by rw [hoffset]; exact hnew, by simpa using hlt⟩
      . have hnone : d.idx.lookup k = none := by
          rw [← not_isSome_iff_eq_none, isSome_iff_exists, ← mem_order hidx]
          exact hk
        exact .inl ⟨hnone, (hmoved.kept k hk).trans hnone⟩
    . by_cases hk : k ∈ longOrder
      . rcases hmoved'.named k hk with ⟨i, j, s, hs, hold, hj, hat, hnew⟩
        exact .inr ⟨i, j, s, hs, hold, hat, hnew, by simpa using hj⟩
      . have hnone : d.long.lookup k = none := by
          rw [← not_isSome_iff_eq_none, isSome_iff_exists, ← mem_order hlong]
          exact hk
        exact .inl ⟨hnone, (hmoved'.kept k hk).trans hnone⟩
  have hfull : ∀ j s, (moved ++ moved')[j]? = some s →
      ∃ k, d'.entry k = some (ByteSlab.offset Slot.encode (moved ++ moved') j) := by
    rw [← hd']
    intro j s hs
    by_cases hj : j < moved.length
    . rw [getElem?_append_left hj] at hs
      rcases hmoved.full j s (Nat.zero_le _) hs with ⟨k, -, hk⟩
      rw [nil_append] at hk
      exact ⟨.inl k, by rw [(hfront j s hs).2]; exact hk⟩
    . rcases hmoved'.full j s (by omega) hs with ⟨k, -, hk⟩
      exact ⟨.inr k, hk⟩
  refine ⟨moved ++ moved', hslab, ?_, ?_, ?_, ?_⟩
  . intro k off hk
    rcases hkey k with ⟨-, hnone⟩ | ⟨i, j, s, hs, hold, hat, hnew, -⟩
    . rw [hnone] at hk
      cases hk
    . rw [hnew] at hk
      cases hk
      rcases h.named k _ hold with ⟨i', s', hs', heq, hm⟩
      have hii := offset_inj Slot.encode_ne_nil hs hs' heq
      rw [← hii, hs] at hs'
      cases hs'
      exact ⟨j, s, hat, rfl, hm⟩
  . intro k hk
    rcases hkey k with ⟨hnone, -⟩ | ⟨i, j, s, -, -, -, hnew, -⟩
    . exact h.absent k hnone
    . rw [hnew] at hk
      cases hk
  . intro k k' off hk hk'
    rcases hkey k with ⟨-, hnone⟩ | ⟨i, j, s, -, hold, hat, hnew, hside⟩
    . rw [hnone] at hk
      cases hk
    rcases hkey k' with ⟨-, hnone⟩ | ⟨i', j', s', -, hold', hat', hnew', hside'⟩
    . rw [hnone] at hk'
      cases hk'
    have hjj : j = j' := by
      rw [hnew, Option.some.injEq] at hk
      rw [hnew', Option.some.injEq] at hk'
      exact offset_inj Slot.encode_ne_nil hat hat' (hk.trans hk'.symm)
    rw [← hd'] at hk hk'
    rcases k with k | k <;> rcases k' with k' | k'
    . exact congrArg Sum.inl (hmoved.apart k ((mem_order hidx k).mpr ⟨_, hold⟩) k' ((mem_order hidx k').mpr ⟨_, hold'⟩)
        (hk.trans hk'.symm))
    . simp at hside hside'
      omega
    . simp at hside hside'
      omega
    . exact congrArg Sum.inr (hmoved'.apart k ((mem_order hlong k).mpr ⟨_, hold⟩) k' ((mem_order hlong k').mpr ⟨_, hold'⟩)
        (hk.trans hk'.symm))
  . have hempty : d'.unpointed = ∅ := by
      rw [Finset.eq_empty_iff_forall_notMem]
      intro p hp
      rcases (mem_unpointed d' p).mp hp with ⟨hlt, hout⟩
      rw [hslab] at hlt
      rcases exists_slot _ hlt with ⟨j, s, hs, hin⟩
      rcases hfull j s hs with ⟨k, hk⟩
      exact hout k _ hk ((mem_region hslab hs p).mpr hin)
    rw [hempty, ← hd']
    rfl

def Event.last (owner : Hash) (path : Bytes) (last : Option Bytes) : Event → Option Bytes
  | .put owner' path' blob => if owner' = owner ∧ path' = path then some blob else last
  | .compact _ _ => last

def lastPut (owner : Hash) (path : Bytes) (events : List Event) : Option Bytes :=
  events.foldl (Event.last owner path) none

def Event.fits : Event → Bool
  | .put _ _ blob => blob.length ≤ maxBlob
  | .compact _ _ => true

def Event.update (m : IndexKey → Option Bytes) : Event → IndexKey → Option Bytes
  | .put owner path blob => Function.update m (indexKey owner path) (some blob)
  | .compact _ _ => m

theorem Event.update_indexKey (m : IndexKey → Option Bytes) (e : Event) (owner : Hash) (path : Bytes)
    : e.update m (indexKey owner path) = e.last owner path (m (indexKey owner path)) := by
  cases e with
  | put owner' path' blob =>
    unfold Event.update Event.last
    dsimp only
    by_cases heq : owner' = owner ∧ path' = path
    . rw [if_pos heq, heq.1, heq.2, update_self]
    . rw [if_neg heq, Function.update_of_ne]
      intro hkey
      rcases indexKey_inj hkey with ⟨rfl, rfl⟩
      exact heq ⟨rfl, rfl⟩
  | compact idxOrder longOrder => rfl

theorem Holds.step (h : d.Holds slots m) {least : Nat} {e : Event} (hfits : e.fits) {d' : Dirty} (hstep : d.step least e = some d')
    : ∃ slots', d'.Holds slots' (e.update m) := by
  cases e with
  | put owner path blob =>
    simp only [Dirty.step, Option.some.injEq] at hstep
    rw [← hstep]
    exact h.put owner path (by simpa [Event.fits] using hfits)
  | compact idxOrder longOrder =>
    simp only [Dirty.step] at hstep
    split at hstep
    . next horders =>
      cases hstep
      exact h.compact least horders.1 horders.2
    . cases hstep

theorem Holds.run (h : d.Holds slots m) {least : Nat} {events : List Event} (hfits : ∀ e ∈ events, e.fits) {d' : Dirty}
    (hrun : Transition.run (Dirty.step · least) d events = some d')
    : ∃ slots', d'.Holds slots' (events.foldl Event.update m) := by
  induction events generalizing d slots m with
  | nil =>
    cases hrun
    exact ⟨slots, h⟩
  | cons e events ih =>
    simp only [Transition.run] at hrun
    split at hrun
    . cases hrun
    . next d₁ hstep =>
      rcases h.step (hfits e (by simp)) hstep with ⟨slots₁, h₁⟩
      exact ih h₁ (fun e he => hfits e (by simp [he])) hrun

theorem foldl_update_indexKey (m : IndexKey → Option Bytes) (events : List Event) (owner : Hash) (path : Bytes)
    : events.foldl Event.update m (indexKey owner path) =
        events.foldl (Event.last owner path) (m (indexKey owner path)) := by
  induction events generalizing m with
  | nil => rfl
  | cons e events ih => rw [foldl_cons, foldl_cons, ih, Event.update_indexKey]

/--
After any calls the slab holds the last blob put at every path, a compaction answers as before, `dead` counts
the bytes no index entry points at and no two paths share an index key.
-/
theorem lookup_run (least : Nat) {events : List Event} (hfits : ∀ e ∈ events, e.fits) {d : Dirty}
    (hrun : Transition.run (Dirty.step · least) reset events = some d)
    : (∀ owner path, d.lookup owner path = lastPut owner path events) ∧
        (∀ idxOrder longOrder d', d.step least (.compact idxOrder longOrder) = some d' →
          ∀ owner path, d'.lookup owner path = d.lookup owner path) ∧
        d.dead = d.unpointed.card ∧
        (∀ owner path, d.offset owner path = d.entry (indexKey owner path)) ∧
        Function.Injective (fun node : Hash × Bytes => indexKey node.1 node.2) := by
  rcases holds_reset.run hfits hrun with ⟨slots, h⟩
  refine ⟨?_, ?_, h.dead, offset_eq d, ?_⟩
  . intro owner path
    rw [h.lookup, foldl_update_indexKey]
    rfl
  . intro idxOrder longOrder d' hstep owner path
    rcases h.step (e := .compact idxOrder longOrder) rfl hstep with ⟨slots', h'⟩
    rw [h.lookup, h'.lookup]
    rfl
  . rintro ⟨owner, path⟩ ⟨owner', path'⟩ heq
    rcases indexKey_inj heq with ⟨rfl, rfl⟩
    rfl

def grown : List Event :=
  [.put (.fill 32 1) [1, 2, 16] [9], .put (.fill 32 1) [1, 2] [7]] ++
    [70, 130, 200].map (fun n => .put (.fill 32 1) [1, 2] (List.replicate n 7)) ++
    [.compact [⟨.fill 32 1, 0x212⟩] [List.replicate 32 1 ++ [1, 2, 16]], .put (.fill 32 1) [1, 2] [],
      .put (.fill 32 1) [1, 2, 16] (List.replicate 70 9)]

/-- The slab has 724 bytes when it is compacted, 328 of them are left, and the last put adds 132. -/
theorem lookup_run_grown
    : ∃ d, Transition.run (Dirty.step · 64) reset grown = some d ∧ d.slab.length = 460 ∧ d.dead = 68 ∧ d.unpointed.card = 68 ∧
        d.lookup (.fill 32 1) [1, 2] = some [] ∧ d.lookup (.fill 32 1) [1, 2, 16] = some (List.replicate 70 9) ∧
        d.lookup (.fill 32 1) [1] = none := by
  have hrun : (Transition.run (Dirty.step · 64) reset grown).map (fun d => (d.slab.length, d.dead)) = some (460, 68) := by
    decide +kernel
  rcases map_eq_some_iff.mp hrun with ⟨d, hd, hsizes⟩
  rw [Prod.mk.injEq] at hsizes
  have h := lookup_run 64 (by decide) hd
  refine ⟨d, hd, hsizes.1, hsizes.2, ?_, ?_, ?_, ?_⟩
  . rw [← h.2.2.1, hsizes.2]
  . rw [h.1]
    decide
  . rw [h.1]
    decide
  . rw [h.1]
    decide

end Dirty

end EpochDB.Commit
