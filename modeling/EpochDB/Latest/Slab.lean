import EpochDB.Latest.Disk.Lemmas

/-!
The overlay as it is kept in memory (`latest/view.go`): entries in a slab behind two indexes, one of fixed
size keys and one of the long ones. A slab offset is the position of its entry.
-/

namespace EpochDB.Latest.Slab

open List AList
open Disk (Row Valid maxKey maxValue)

def fixedKey : Nat := 72

structure Slot where
  key : Bytes
  value : Bytes
  vcap : Nat
  deriving DecidableEq, Repr

structure Overlay where
  idx : AList (fun _ : Bytes => Nat)
  long : AList (fun _ : Bytes => Nat)
  slab : List Slot
  bytes : Int

def newOverlay : Overlay := ⟨∅, ∅, [], 0⟩

def fixed (key : Bytes) : Option Bytes :=
  if key.length ≥ fixedKey then
    none
  else
    some (UInt8.ofNat key.length :: key ++ List.replicate (fixedKey - 1 - key.length) 0)

def unfixed (k : Bytes) : Bytes := k.tail.take (k.headD 0).toNat

namespace Overlay

variable (o : Overlay)

def find (key : Bytes) : Option Nat :=
  match fixed key with
  | some k => o.idx.lookup k
  | none => o.long.lookup key

def set (key : Bytes) (off : Nat) : Overlay :=
  match fixed key with
  | some k => { o with idx := o.idx.insert k off }
  | none => { o with long := o.long.insert key off }

def keyAt (off : Nat) : Bytes := (o.slab[off]?.map (·.key)).getD []
def valueAt (off : Nat) : Bytes := (o.slab[off]?.map (·.value)).getD []
def vcapAt (off : Nat) : Nat := (o.slab[off]?.map (·.vcap)).getD 0

def append (key value : Bytes) : Overlay :=
  let slot : Slot := ⟨key, value, min maxValue ((value.length + 15) / 16 * 16)⟩
  Overlay.set { o with slab := o.slab ++ [slot] } key o.slab.length

def put (key value : Bytes) : Except String Overlay :=
  if key.length = 0 ∨ key.length > maxKey ∨ value.length > maxValue then
    .error s!"latest: key {key.length} bytes, value {value.length} bytes (limits 1..{maxKey} and 0..{maxValue})"
  else
    match o.find key with
    | some off =>
      let o' := { o with bytes := o.bytes + (value.length - (o.valueAt off).length) }
      if value.length ≤ o.vcapAt off then
        .ok { o' with slab := o.slab.modify off (fun slot => { slot with value := value }) }
      else
        .ok (o'.append key value)
    | none => .ok ({ o with bytes := o.bytes + (key.length + value.length + entryOverhead) }.append key value)

def get (key : Bytes) : Option Bytes := (o.find key).map o.valueAt

def iter (lo hi : Option Bytes) : List Row :=
  let short := o.idx.entries.filter (fun e => inBounds lo hi (unfixed e.1))
  let long := o.long.entries.filter (fun e => inBounds lo hi e.1)
  let offs := (short ++ long).map (·.2)
  (offs.insertionSort (fun a b => o.keyAt a ≤ o.keyAt b)).map (fun off => (o.keyAt off, o.valueAt off))

def ofPuts (puts : List Row) : Except String Overlay :=
  puts.foldlM (fun (o : Overlay) row => o.put row.1 row.2) newOverlay

end Overlay

theorem unfixed_of_fixed {key k : Bytes} (h : fixed key = some k) : unfixed k = key := by
  unfold fixed at h
  split at h
  . cases h
  . next hlen =>
    cases h
    have hn : (UInt8.ofNat key.length).toNat = key.length := by
      apply UInt8.toNat_ofNat_of_lt'
      unfold fixedKey at hlen
      simp only [UInt8.size]
      omega
    simp [unfixed, hn]

theorem fixed_inj {a b k : Bytes} (ha : fixed a = some k) (hb : fixed b = some k) : a = b := by
  rw [← unfixed_of_fixed ha, ← unfixed_of_fixed hb]

structure Overlay.Indexed (o : Overlay) : Prop where
  idx : ∀ k off, o.idx.lookup k = some off → ∃ slot, o.slab[off]? = some slot ∧ fixed slot.key = some k
  long : ∀ k off, o.long.lookup k = some off → ∃ slot, o.slab[off]? = some slot ∧ slot.key = k ∧ fixed k = none

structure Overlay.Of (o : Overlay) (m : SortedMap Bytes Bytes) : Prop extends o.Indexed where
  get : ∀ key, o.get key = m.get key
  valid : ∀ row ∈ m.rows, Valid row

theorem of_newOverlay : newOverlay.Of SortedMap.empty := by
  refine ⟨⟨?_, ?_⟩, ?_, ?_⟩
  . intro k off h
    simp [newOverlay] at h
  . intro k off h
    simp [newOverlay] at h
  . intro key
    unfold Overlay.get Overlay.find
    cases fixed key <;> simp [newOverlay]
  . intro row hrow
    cases hrow

variable {o : Overlay}

theorem Overlay.Indexed.find (h : o.Indexed) {key : Bytes} {off : Nat} (hfind : o.find key = some off)
    : ∃ slot, o.slab[off]? = some slot ∧ slot.key = key := by
  unfold Overlay.find at hfind
  split at hfind
  . next k hk =>
    rcases h.idx k off hfind with ⟨slot, hslot, hkey⟩
    exact ⟨slot, hslot, fixed_inj hkey hk⟩
  . rcases h.long key off hfind with ⟨slot, hslot, hkey, -⟩
    exact ⟨slot, hslot, hkey⟩

theorem find_set (o : Overlay) (key : Bytes) (off : Nat) (key' : Bytes)
    : (o.set key off).find key' = if key' = key then some off else o.find key' := by
  unfold Overlay.set Overlay.find
  cases hk : fixed key with
  | some k =>
    by_cases heq : key' = key
    . rw [heq, hk, if_pos rfl]
      exact lookup_insert _
    . rw [if_neg heq]
      cases hk' : fixed key' with
      | none => rfl
      | some k' =>
        have hne : k' ≠ k := by
          rintro rfl
          exact heq (fixed_inj hk' hk)
        exact lookup_insert_ne hne
  | none =>
    by_cases heq : key' = key
    . rw [heq, hk, if_pos rfl]
      exact lookup_insert _
    . rw [if_neg heq]
      cases hk' : fixed key' with
      | some k' => rfl
      | none => exact lookup_insert_ne heq

theorem Overlay.Indexed.append (h : o.Indexed) (key value : Bytes) : (o.append key value).Indexed := by
  have hold : ∀ {off : Nat} {slot new : Slot}, o.slab[off]? = some slot → (o.slab ++ [new])[off]? = some slot := by
    intro off slot new hslot
    rcases List.getElem?_eq_some_iff.mp hslot with ⟨hlt, -⟩
    rw [getElem?_append_left hlt, hslot]
  unfold Overlay.append Overlay.set
  cases hk : fixed key with
  | some k =>
    refine ⟨?_, ?_⟩
    . intro k' off hlookup
      by_cases heq : k' = k
      . rw [heq] at hlookup ⊢
        rw [lookup_insert, Option.some.injEq] at hlookup
        refine ⟨⟨key, value, min maxValue ((value.length + 15) / 16 * 16)⟩, ?_, hk⟩
        rw [← hlookup]
        exact getElem?_concat_length
      . rw [lookup_insert_ne heq] at hlookup
        rcases h.idx k' off hlookup with ⟨slot, hslot, hkey⟩
        exact ⟨slot, hold hslot, hkey⟩
    . intro k' off hlookup
      rcases h.long k' off hlookup with ⟨slot, hslot, hkey⟩
      exact ⟨slot, hold hslot, hkey⟩
  | none =>
    refine ⟨?_, ?_⟩
    . intro k' off hlookup
      rcases h.idx k' off hlookup with ⟨slot, hslot, hkey⟩
      exact ⟨slot, hold hslot, hkey⟩
    . intro k' off hlookup
      by_cases heq : k' = key
      . rw [heq] at hlookup ⊢
        rw [lookup_insert, Option.some.injEq] at hlookup
        refine ⟨⟨key, value, min maxValue ((value.length + 15) / 16 * 16)⟩, ?_, rfl, hk⟩
        rw [← hlookup]
        exact getElem?_concat_length
      . rw [lookup_insert_ne heq] at hlookup
        rcases h.long k' off hlookup with ⟨slot, hslot, hkey⟩
        exact ⟨slot, hold hslot, hkey⟩

theorem get_append (h : o.Indexed) (key value key' : Bytes)
    : (o.append key value).get key' = if key' = key then some value else o.get key' := by
  have hslab : (o.append key value).slab = o.slab ++ [⟨key, value, min maxValue ((value.length + 15) / 16 * 16)⟩] := by
    unfold Overlay.append Overlay.set
    cases fixed key <;> rfl
  unfold Overlay.get
  have hfind : (o.append key value).find key' = if key' = key then some o.slab.length else o.find key' := by
    unfold Overlay.append
    rw [find_set]
    rfl
  rw [hfind]
  split
  . simp [Overlay.valueAt, hslab]
  . cases hf : o.find key' with
    | none => rfl
    | some off =>
      rcases h.find hf with ⟨slot, hslot, -⟩
      rcases List.getElem?_eq_some_iff.mp hslot with ⟨hlt, -⟩
      simp [Overlay.valueAt, hslab, getElem?_append_left hlt]

theorem Overlay.Indexed.modify (h : o.Indexed) (off : Nat) (value : Bytes) (bytes : Int)
    : Overlay.Indexed { o with bytes := bytes, slab := o.slab.modify off (fun slot => { slot with value := value }) } := by
  have hkeep : ∀ {i : Nat} {slot : Slot}, o.slab[i]? = some slot →
      ∃ slot', (o.slab.modify off (fun slot => { slot with value := value }))[i]? = some slot' ∧ slot'.key = slot.key := by
    intro i slot hslot
    rw [getElem?_modify, hslot]
    refine ⟨_, rfl, ?_⟩
    split <;> rfl
  refine ⟨?_, ?_⟩
  . intro k i hlookup
    rcases h.idx k i hlookup with ⟨slot, hslot, hkey⟩
    rcases hkeep hslot with ⟨slot', hslot', hkey'⟩
    exact ⟨slot', hslot', by rw [hkey', hkey]⟩
  . intro k i hlookup
    rcases h.long k i hlookup with ⟨slot, hslot, hkey, hlong⟩
    rcases hkeep hslot with ⟨slot', hslot', hkey'⟩
    exact ⟨slot', hslot', by rw [hkey', hkey], hlong⟩

theorem get_modify (h : o.Indexed) {key : Bytes} {off : Nat} (hfind : o.find key = some off) (value : Bytes)
    (bytes : Int) (key' : Bytes)
    : Overlay.get { o with bytes := bytes, slab := o.slab.modify off (fun slot => { slot with value := value }) } key' =
        if key' = key then some value else o.get key' := by
  rcases h.find hfind with ⟨slot, hslot, hkey⟩
  change (o.find key').map _ = if key' = key then some value else (o.find key').map o.valueAt
  by_cases heq : key' = key
  . rw [heq, hfind, if_pos rfl]
    simp [Overlay.valueAt, hslot]
  . rw [if_neg heq]
    cases hf : o.find key' with
    | none => rfl
    | some off' =>
      rcases h.find hf with ⟨slot', hslot', hkey'⟩
      have hne : off ≠ off' := by
        rintro rfl
        rw [hslot] at hslot'
        cases hslot'
        exact heq (hkey'.symm.trans hkey)
      simp [Overlay.valueAt, hne]

theorem Overlay.Of.put {m : SortedMap Bytes Bytes} (h : o.Of m) {row : Row} (hvalid : Valid row)
    : ∃ o', o.put row.1 row.2 = .ok o' ∧ o'.Of (m.put row.1 row.2) := by
  rcases row with ⟨key, value⟩
  have hlimits : ¬ (key.length = 0 ∨ key.length > maxKey ∨ value.length > maxValue) := by
    rcases hvalid with ⟨hne, hkey, hval⟩
    have := length_pos_iff.mpr hne
    dsimp only at *
    omega
  have hrows : ∀ row ∈ (m.put key value).rows, Valid row := by
    intro row hrow
    rcases SortedMap.mem_putRow hrow with rfl | hrow
    . exact hvalid
    . exact h.valid row hrow
  have hfresh : ∀ bytes : Int, Overlay.Of (Overlay.append { o with bytes := bytes } key value) (m.put key value) := by
    intro bytes
    have hindexed : Overlay.Indexed { o with bytes := bytes } := ⟨h.idx, h.long⟩
    refine ⟨hindexed.append key value, ?_, hrows⟩
    intro key'
    rw [get_append hindexed, SortedMap.get_put, ← h.get]
    by_cases heq : key' = key
    . rw [if_pos heq, if_pos heq]
    . rw [if_neg heq, if_neg heq]
      rfl
  unfold Overlay.put
  dsimp only
  rw [if_neg hlimits]
  cases hfind : o.find key with
  | none => exact ⟨_, rfl, hfresh _⟩
  | some off =>
    dsimp only
    split
    . refine ⟨_, rfl, h.toIndexed.modify off value _, ?_, hrows⟩
      intro key'
      rw [get_modify h.toIndexed hfind, SortedMap.get_put, ← h.get]
      by_cases heq : key' = key
      . rw [if_pos heq, if_pos heq]
      . rw [if_neg heq, if_neg heq]
    . exact ⟨_, rfl, hfresh _⟩

def mapOf (puts : List Row) : SortedMap Bytes Bytes := puts.foldl (fun m row => m.put row.1 row.2) SortedMap.empty

theorem ofPuts_of {puts : List Row} (hvalid : ∀ row ∈ puts, Valid row)
    : ∃ o, Overlay.ofPuts puts = .ok o ∧ o.Of (mapOf puts) := by
  have hfold : ∀ (puts : List Row) (o : Overlay) (m : SortedMap Bytes Bytes), o.Of m → (∀ row ∈ puts, Valid row) →
      ∃ o', puts.foldlM (fun (o : Overlay) row => o.put row.1 row.2) o = .ok o' ∧
        o'.Of (puts.foldl (fun m row => m.put row.1 row.2) m) := by
    intro puts
    induction puts with
    | nil =>
      intro o m h _
      exact ⟨o, rfl, h⟩
    | cons row puts ih =>
      intro o m h hv
      rcases h.put (hv row (by simp)) with ⟨o1, hput, h1⟩
      rw [foldlM_cons, hput, foldl_cons]
      exact ih o1 _ h1 (fun row hrow => hv row (by simp [hrow]))
  exact hfold puts newOverlay SortedMap.empty of_newOverlay hvalid

section

variable {o : Overlay} {m : SortedMap Bytes Bytes} (h : o.Of m)

include h

theorem short_entry {e : Sigma (fun _ : Bytes => Nat)} (he : e ∈ o.idx.entries)
    : o.keyAt e.2 = unfixed e.1 ∧ fixed (unfixed e.1) = some e.1 ∧ m.get (unfixed e.1) = some (o.valueAt e.2) := by
  have hlookup : o.idx.lookup e.1 = some e.2 := mem_lookup_iff.mpr he
  rcases h.idx e.1 e.2 hlookup with ⟨slot, hslot, hfixed⟩
  have hkey := unfixed_of_fixed hfixed
  rw [hkey]
  refine ⟨by simp [Overlay.keyAt, hslot], hfixed, ?_⟩
  rw [← h.get, Overlay.get, Overlay.find, hfixed]
  dsimp only
  rw [hlookup]
  rfl

theorem long_entry {e : Sigma (fun _ : Bytes => Nat)} (he : e ∈ o.long.entries)
    : o.keyAt e.2 = e.1 ∧ fixed e.1 = none ∧ m.get e.1 = some (o.valueAt e.2) := by
  have hlookup : o.long.lookup e.1 = some e.2 := mem_lookup_iff.mpr he
  rcases h.long e.1 e.2 hlookup with ⟨slot, hslot, hkey, hfixed⟩
  refine ⟨by simp [Overlay.keyAt, hslot, hkey], hfixed, ?_⟩
  rw [← h.get, Overlay.get, Overlay.find, hfixed]
  dsimp only
  rw [hlookup]
  rfl

theorem rows_of_offs (lo hi : Option Bytes)
    : ((o.idx.entries.filter (fun e => inBounds lo hi (unfixed e.1)) ++
          o.long.entries.filter (fun e => inBounds lo hi e.1)).map (·.2)).map (fun off => (o.keyAt off, o.valueAt off)) =
        (o.idx.entries.filter (fun e => inBounds lo hi (unfixed e.1))).map (fun e => (unfixed e.1, o.valueAt e.2)) ++
          (o.long.entries.filter (fun e => inBounds lo hi e.1)).map (fun e => (e.1, o.valueAt e.2)) := by
  rw [map_map, map_append]
  congr 1
  . apply map_congr_left
    intro e he
    simp [(short_entry h (mem_filter.mp he).1).1]
  . apply map_congr_left
    intro e he
    simp [(long_entry h (mem_filter.mp he).1).1]

theorem mem_walk (lo hi : Option Bytes) (row : Row)
    : row ∈ (o.idx.entries.filter (fun e => inBounds lo hi (unfixed e.1))).map (fun e => (unfixed e.1, o.valueAt e.2)) ++
          (o.long.entries.filter (fun e => inBounds lo hi e.1)).map (fun e => (e.1, o.valueAt e.2)) ↔
        inBounds lo hi row.1 = true ∧ m.get row.1 = some row.2 := by
  rw [mem_append, mem_map, mem_map]
  constructor
  . rintro (⟨e, he, rfl⟩ | ⟨e, he, rfl⟩)
    . rw [mem_filter] at he
      exact ⟨he.2, (short_entry h he.1).2.2⟩
    . rw [mem_filter] at he
      exact ⟨he.2, (long_entry h he.1).2.2⟩
  . rintro ⟨hin, hget⟩
    rw [← h.get, Overlay.get, Option.map_eq_some_iff] at hget
    rcases hget with ⟨off, hfind, hval⟩
    unfold Overlay.find at hfind
    split at hfind
    . next k hk =>
      have hkey := unfixed_of_fixed hk
      left
      refine ⟨⟨k, off⟩, mem_filter.mpr ⟨mem_lookup_iff.mp hfind, ?_⟩, ?_⟩
      . dsimp only
        rw [hkey, hin]
      . dsimp only
        rw [hkey, hval]
    . right
      refine ⟨⟨row.1, off⟩, mem_filter.mpr ⟨mem_lookup_iff.mp hfind, hin⟩, ?_⟩
      dsimp only
      rw [hval]

theorem nodup_walk (lo hi : Option Bytes)
    : (((o.idx.entries.filter (fun e => inBounds lo hi (unfixed e.1))).map (fun e => (unfixed e.1, o.valueAt e.2)) ++
          (o.long.entries.filter (fun e => inBounds lo hi e.1)).map (fun e => (e.1, o.valueAt e.2))).map (·.1)).Nodup := by
  have hidx : (o.idx.entries.filter (fun e => inBounds lo hi (unfixed e.1))).Pairwise (fun e e' => e.1 ≠ e'.1) :=
    (pairwise_map.mp o.idx.nodupKeys).filter _
  have hlong : (o.long.entries.filter (fun e => inBounds lo hi e.1)).Pairwise (fun e e' => e.1 ≠ e'.1) :=
    (pairwise_map.mp o.long.nodupKeys).filter _
  rw [map_append, map_map, map_map, nodup_append]
  refine ⟨?_, ?_, ?_⟩
  . rw [List.Nodup, pairwise_map]
    refine hidx.imp_of_mem ?_
    intro e e' he he' hne heq
    have hfixed := (short_entry h (mem_filter.mp he).1).2.1
    have hfixed' := (short_entry h (mem_filter.mp he').1).2.1
    simp only [Function.comp_apply] at heq
    rw [heq, hfixed', Option.some.injEq] at hfixed
    exact hne hfixed.symm
  . rw [List.Nodup, pairwise_map]
    exact hlong
  . intro a ha b hb heq
    rcases mem_map.mp ha with ⟨e, he, rfl⟩
    rcases mem_map.mp hb with ⟨e', he', rfl⟩
    have hfixed := (short_entry h (mem_filter.mp he).1).2.1
    have hnone := (long_entry h (mem_filter.mp he').1).2.1
    simp only [Function.comp_apply] at heq
    rw [heq, hnone] at hfixed
    cases hfixed

theorem Overlay.Of.iter_eq (lo hi : Option Bytes) : o.iter lo hi = (m.restrict (fun k _ => inBounds lo hi k)).rows := by
  have hrows := rows_of_offs h lo hi
  have hmem := mem_walk h lo hi
  have hnodup := nodup_walk h lo hi
  unfold Overlay.iter
  dsimp only
  generalize (o.idx.entries.filter (fun e => inBounds lo hi (unfixed e.1)) ++
    o.long.entries.filter (fun e => inBounds lo hi e.1)).map (·.2) = offs at *
  rw [← hrows] at hmem hnodup
  have : Std.Total (fun a b : Nat => o.keyAt a ≤ o.keyAt b) := ⟨fun a b => le_total _ _⟩
  have : IsTrans Nat (fun a b : Nat => o.keyAt a ≤ o.keyAt b) := ⟨fun a b c => le_trans⟩
  have hperm := (perm_insertionSort (fun a b => o.keyAt a ≤ o.keyAt b) offs).map
    (fun off => (o.keyAt off, o.valueAt off))
  have hle := pairwise_insertionSort (fun a b => o.keyAt a ≤ o.keyAt b) offs
  generalize offs.insertionSort (fun a b => o.keyAt a ≤ o.keyAt b) = sorted at *
  have hsorted : SortedMap.Ordered (sorted.map (fun off => (o.keyAt off, o.valueAt off))) := by
    have hne := ((hperm.map (·.1)).nodup_iff).mpr hnodup
    rw [List.Nodup, pairwise_map, pairwise_map] at hne
    rw [SortedMap.Ordered, pairwise_map]
    exact hle.imp₂ (fun a b hab hne => lt_of_le_of_ne hab hne) hne
  have hext : SortedMap.mk _ hsorted = m.restrict (fun k _ => inBounds lo hi k) := by
    apply SortedMap.ext_get
    intro key
    rw [SortedMap.get_restrict]
    apply Option.ext
    intro val
    rw [SortedMap.get_eq_some]
    dsimp only
    rw [hperm.mem_iff, hmem (key, val), Option.filter_eq_some_iff]
    exact and_comm
  exact congrArg SortedMap.rows hext

end

end EpochDB.Latest.Slab
