import EpochDB.Latest.Stack
import EpochDB.Lib.AListMap
import EpochDB.Lib.ByteSlab

/-!
The overlay down to the bytes of its slab (`latest/view.go`): an entry is
`[klen u8][vlen u8][vcap u8][key][value, padded to vcap]` at a slab offset.
-/

namespace EpochDB.Latest.Packed

open List Option ByteSlab
open Disk (Row Valid maxKey maxValue)

structure Overlay where
  idx : AList (fun _ : Bytes => Nat)
  long : AList (fun _ : Bytes => Nat)
  slab : Bytes
  bytes : Int

def newOverlay : Overlay := ⟨∅, ∅, [], 0⟩

def byteAt (slab : Bytes) (off : Nat) : Nat := (slab.getD off 0).toNat

def keyAt (slab : Bytes) (off : Nat) : Bytes := (slab.drop (off + 3)).take (byteAt slab off)

def valueAt (slab : Bytes) (off : Nat) : Bytes :=
  let k := off + 3 + byteAt slab off
  (slab.drop k).take (byteAt slab (off + 1))

namespace Overlay

variable (o : Overlay)

def find (key : Bytes) : Option Nat :=
  match Slab.fixed key with
  | some k => o.idx.lookup k
  | none => o.long.lookup key

def set (key : Bytes) (off : Nat) : Overlay :=
  match Slab.fixed key with
  | some k => { o with idx := o.idx.insert k off }
  | none => { o with long := o.long.insert key off }

def append (key value : Bytes) : Overlay :=
  let vcap := min maxValue ((value.length + 15) / 16 * 16)
  let slab := o.slab ++ ([UInt8.ofNat key.length, UInt8.ofNat value.length, UInt8.ofNat vcap] ++ key ++ value ++
    List.replicate (vcap - value.length) 0)
  { o with slab }.set key o.slab.length

def put (key value : Bytes) : Except String Overlay :=
  if key.length = 0 ∨ key.length > maxKey ∨ value.length > maxValue then
    .error s!"latest: key {key.length} bytes, value {value.length} bytes (limits 1..{maxKey} and 0..{maxValue})"
  else
    match o.find key with
    | some off =>
      let o' := { o with bytes := o.bytes + (value.length - byteAt o.slab (off + 1)) }
      if value.length ≤ byteAt o.slab (off + 2) then
        .ok { o' with
          slab := ByteSlab.splice (ByteSlab.splice o.slab (off + 1) [UInt8.ofNat value.length]) (off + 3 + key.length) value }
      else
        .ok (o'.append key value)
    | none => .ok ({ o with bytes := o.bytes + (key.length + value.length + entryOverhead) }.append key value)

def get (key : Bytes) : Option (Bytes × Bool) :=
  (o.find key).map (fun off => (valueAt o.slab off, (valueAt o.slab off).isEmpty))

def iter (lo hi : Option Bytes) : List Row :=
  let short := o.idx.entries.filter (fun e => inBounds lo hi (Slab.unfixed e.1))
  let long := o.long.entries.filter (fun e => inBounds lo hi e.1)
  let offs := (short ++ long).map (·.2)
  (offs.insertionSort (fun a b => keyAt o.slab a ≤ keyAt o.slab b)).map
    (fun off => (keyAt o.slab off, valueAt o.slab off))

def ofPuts (puts : List Row) : Except String Overlay :=
  puts.foldlM (fun (o : Overlay) row => o.put row.1 row.2) newOverlay

end Overlay

structure Entry where
  key : Bytes
  value : Bytes
  pad : Bytes
  key_le : key.length ≤ maxKey
  value_le : value.length + pad.length ≤ maxValue

namespace Entry

def encode (e : Entry) : Bytes :=
  [UInt8.ofNat e.key.length, UInt8.ofNat e.value.length, UInt8.ofNat (e.value.length + e.pad.length)] ++
    (e.key ++ (e.value ++ e.pad))

def slot (e : Entry) : Slab.Slot := ⟨e.key, e.value, e.value.length + e.pad.length⟩

@[simp]
theorem length_encode (e : Entry) : e.encode.length = 3 + (e.key.length + (e.value.length + e.pad.length)) := by
  simp only [encode, length_append, length_cons, length_nil]

def resize (e : Entry) (n : Nat) (h : n ≤ e.value.length + e.pad.length) : Entry where
  key := e.key
  value := (e.value ++ e.pad).take n
  pad := (e.value ++ e.pad).drop n
  key_le := e.key_le
  value_le := by
    have := e.value_le
    simp only [length_take, length_drop, length_append]
    omega

def write (e : Entry) (value : Bytes) (h : value.length = e.value.length) : Entry :=
  { e with value, value_le := by rw [h]; exact e.value_le }

section

variable {e : Entry} {n : Nat} (h : n ≤ e.value.length + e.pad.length)

theorem length_value_resize : (e.resize n h).value.length = n := by
  simp only [resize, length_take, length_append]
  omega

theorem vcap_resize : (e.resize n h).value.length + (e.resize n h).pad.length = e.value.length + e.pad.length := by
  simp only [resize, length_take, length_drop, length_append]
  omega

theorem encode_resize
    : (e.resize n h).encode = [UInt8.ofNat e.key.length] ++ ([UInt8.ofNat n] ++
        ([UInt8.ofNat (e.value.length + e.pad.length)] ++ (e.key ++ (e.value ++ e.pad)))) := by
  rw [encode, vcap_resize, length_value_resize]
  simp only [resize, take_append_drop]
  rfl

end

theorem encode_split (e : Entry)
    : e.encode = [UInt8.ofNat e.key.length] ++ ([UInt8.ofNat e.value.length] ++
        ([UInt8.ofNat (e.value.length + e.pad.length)] ++ (e.key ++ (e.value ++ e.pad)))) := rfl

theorem encode_value (e : Entry)
    : e.encode = ([UInt8.ofNat e.key.length, UInt8.ofNat e.value.length, UInt8.ofNat (e.value.length + e.pad.length)] ++
        e.key) ++ (e.value ++ e.pad) := by
  rw [append_assoc]
  rfl

theorem encode_write {e : Entry} {value : Bytes} (h : value.length = e.value.length)
    : (e.write value h).encode =
        ([UInt8.ofNat e.key.length, UInt8.ofNat e.value.length, UInt8.ofNat (e.value.length + e.pad.length)] ++ e.key) ++
          (value ++ e.pad) := by
  rw [encode_value]
  simp only [write, h]

end Entry

theorem toNat_ofNat_le {n : Nat} (h : n ≤ 255) : (UInt8.ofNat n).toNat = n := by
  apply UInt8.toNat_ofNat_of_lt'
  simp only [UInt8.size]
  omega

section

variable {slab : Bytes} {entries : List Entry} {i : Nat} {e : Entry} (hslab : slab = ByteSlab.bytes Entry.encode entries)
  (h : entries[i]? = some e)

include hslab h

theorem byteAt_offset (n : Nat)
    : byteAt slab (ByteSlab.offset Entry.encode entries i + n) =
        ((e.encode ++ ByteSlab.bytes Entry.encode (entries.drop (i + 1))).getD n 0).toNat := by
  unfold byteAt
  rw [← drop_offset h, hslab, getD_eq_getElem?_getD, getD_eq_getElem?_getD, getElem?_drop]

theorem klen_offset : byteAt slab (ByteSlab.offset Entry.encode entries i) = e.key.length := by
  have hbyte := byteAt_offset hslab h 0
  rw [Nat.add_zero] at hbyte
  exact hbyte.trans (toNat_ofNat_le e.key_le)

theorem vlen_offset : byteAt slab (ByteSlab.offset Entry.encode entries i + 1) = e.value.length :=
  (byteAt_offset hslab h 1).trans (toNat_ofNat_le (le_trans (by omega) e.value_le))

theorem vcap_offset : byteAt slab (ByteSlab.offset Entry.encode entries i + 2) = e.value.length + e.pad.length :=
  (byteAt_offset hslab h 2).trans (toNat_ofNat_le e.value_le)

theorem keyAt_offset : keyAt slab (ByteSlab.offset Entry.encode entries i) = e.key := by
  rw [keyAt, klen_offset hslab h, hslab, ← drop_drop, drop_offset h, Entry.encode, append_assoc,
    drop_left' (by simp), append_assoc, take_left]

theorem valueAt_offset : valueAt slab (ByteSlab.offset Entry.encode entries i) = e.value := by
  unfold valueAt
  dsimp only
  rw [klen_offset hslab h, vlen_offset hslab h, hslab, Nat.add_assoc, ← drop_drop, drop_offset h,
    Entry.encode, append_assoc, ← drop_drop, drop_left' (by simp), append_assoc, drop_left,
    append_assoc, take_left]

end

structure Overlay.Packs (o : Overlay) (entries : List Entry) (s : Slab.Overlay) : Prop where
  slab : o.slab = ByteSlab.bytes Entry.encode entries
  slots : s.slab = entries.map Entry.slot
  idx : AListMap.Maps (ByteSlab.offset Entry.encode entries) s.idx o.idx
  long : AListMap.Maps (ByteSlab.offset Entry.encode entries) s.long o.long
  bytes : o.bytes = s.bytes

variable {o : Overlay} {entries : List Entry} {s : Slab.Overlay}

theorem Overlay.Packs.find (h : o.Packs entries s) (key : Bytes)
    : o.find key = (s.find key).map (ByteSlab.offset Entry.encode entries) := by
  unfold Overlay.find Slab.Overlay.find
  cases Slab.fixed key with
  | some k => exact h.idx.lookup k
  | none => exact h.long.lookup key

variable {i : Nat} {row : Row}

theorem splice_value {e : Entry} (he : entries[i]? = some e) {value : Bytes}
    (hfit : value.length ≤ e.value.length + e.pad.length)
    : ∃ e' : Entry, e'.slot = ⟨e.key, value, e.value.length + e.pad.length⟩ ∧ e'.encode.length = e.encode.length ∧
        ByteSlab.splice (ByteSlab.splice (ByteSlab.bytes Entry.encode entries) (ByteSlab.offset Entry.encode entries i + 1)
          [UInt8.ofNat value.length]) (ByteSlab.offset Entry.encode entries i + 3 + e.key.length) value =
            ByteSlab.bytes Entry.encode (entries.set i e') := by
  have hlen := Entry.length_value_resize hfit
  have hcap := Entry.vcap_resize hfit
  have hencode := Entry.encode_resize hfit
  have hkey : (e.resize value.length hfit).key = e.key := rfl
  generalize e.resize value.length hfit = e₁ at hlen hcap hencode hkey
  have hsize : e₁.encode.length = e.encode.length := by
    rw [Entry.length_encode, Entry.length_encode, hcap, hkey]
  have he₁ : (entries.set i e₁)[i]? = some e₁ := by
    rcases List.getElem?_eq_some_iff.mp he with ⟨hlt, -⟩
    rw [getElem?_set_self hlt]
  have hfirst : ByteSlab.splice (ByteSlab.bytes Entry.encode entries) (ByteSlab.offset Entry.encode entries i + 1)
      [UInt8.ofNat value.length] = ByteSlab.bytes Entry.encode (entries.set i e₁) :=
    splice_offset he e.encode_split hencode rfl
  have hsecond := splice_offset he₁ e₁.encode_value (Entry.encode_write hlen.symm) hlen.symm
  rw [offset_set he hsize, set_set] at hsecond
  simp only [length_append, length_cons, length_nil] at hsecond
  refine ⟨e₁.write value hlen.symm, ?_, ?_, ?_⟩
  . simp only [Entry.slot, Entry.write, ← hlen, hcap, hkey]
  . rw [← hsize, Entry.encode_write, e₁.encode_value]
    simp only [length_append, hlen]
  . rw [hfirst, Nat.add_assoc, ← hkey]
    exact hsecond

def newEntry (row : Row) (h : Valid row) : Entry where
  key := row.1
  value := row.2
  pad := List.replicate (min maxValue ((row.2.length + 15) / 16 * 16) - row.2.length) 0
  key_le := h.2.1
  value_le := by
    have := h.2.2
    rw [length_replicate]
    omega

theorem slot_newEntry (h : Valid row)
    : (newEntry row h).slot = ⟨row.1, row.2, min maxValue ((row.2.length + 15) / 16 * 16)⟩ := by
  have := h.2.2
  simp only [Entry.slot, newEntry, length_replicate, Slab.Slot.mk.injEq, true_and]
  omega

theorem encode_newEntry (h : Valid row)
    : (newEntry row h).encode = [UInt8.ofNat row.1.length, UInt8.ofNat row.2.length,
        UInt8.ofNat (min maxValue ((row.2.length + 15) / 16 * 16))] ++ row.1 ++ row.2 ++
          List.replicate (min maxValue ((row.2.length + 15) / 16 * 16) - row.2.length) 0 := by
  have hvcap := congrArg Slab.Slot.vcap (slot_newEntry h)
  simp only [Entry.slot] at hvcap
  rw [Entry.encode, hvcap]
  simp only [newEntry, append_assoc]

theorem Overlay.Packs.append (h : o.Packs entries s) (hindexed : s.Indexed) (hvalid : Valid row)
    : (o.append row.1 row.2).Packs (entries ++ [newEntry row hvalid]) (s.append row.1 row.2) := by
  have hlen : s.slab.length = entries.length := by
    rw [h.slots, length_map]
  have hoffset : ∀ i, i ≤ entries.length → ByteSlab.offset Entry.encode entries i =
      ByteSlab.offset Entry.encode (entries ++ [newEntry row hvalid]) i :=
    fun i hi => (offset_append hi _).symm
  have hnamed : ∀ {off : Nat} {slot : Slab.Slot}, s.slab[off]? = some slot → ByteSlab.offset Entry.encode entries off =
      ByteSlab.offset Entry.encode (entries ++ [newEntry row hvalid]) off := by
    intro off slot hslot
    rcases List.getElem?_eq_some_iff.mp hslot with ⟨hlt, -⟩
    exact hoffset off (by omega)
  have hidx : AListMap.Maps (ByteSlab.offset Entry.encode (entries ++ [newEntry row hvalid])) s.idx o.idx := by
    refine h.idx.congr ?_
    intro k off hoff
    rcases hindexed.idx k off hoff with ⟨slot, hslot, -⟩
    exact hnamed hslot
  have hlong : AListMap.Maps (ByteSlab.offset Entry.encode (entries ++ [newEntry row hvalid])) s.long o.long := by
    refine h.long.congr ?_
    intro k off hoff
    rcases hindexed.long k off hoff with ⟨slot, hslot, -⟩
    exact hnamed hslot
  have hend : o.slab.length = ByteSlab.offset Entry.encode (entries ++ [newEntry row hvalid]) s.slab.length := by
    rw [hlen, ← hoffset _ (le_refl _), offset_length, h.slab]
  have hslab : o.slab ++ (newEntry row hvalid).encode = ByteSlab.bytes Entry.encode (entries ++ [newEntry row hvalid]) := by
    rw [bytes_append, bytes_singleton, h.slab]
  have hslots : s.slab ++ [(newEntry row hvalid).slot] = (entries ++ [newEntry row hvalid]).map Entry.slot := by
    rw [map_append, map_singleton, h.slots]
  rw [encode_newEntry] at hslab
  rw [slot_newEntry] at hslots
  unfold Overlay.append Slab.Overlay.append Overlay.set Slab.Overlay.set
  dsimp only
  cases Slab.fixed row.1 with
  | some k =>
    refine ⟨hslab, hslots, ?_, hlong, h.bytes⟩
    dsimp only
    rw [hend]
    exact hidx.insert k s.slab.length
  | none =>
    refine ⟨hslab, hslots, hidx, ?_, h.bytes⟩
    dsimp only
    rw [hend]
    exact hlong.insert row.1 s.slab.length

theorem Overlay.Packs.put (h : o.Packs entries s) (hindexed : s.Indexed) (hvalid : Valid row)
    : ∃ o' entries' s', o.put row.1 row.2 = .ok o' ∧ s.put row.1 row.2 = .ok s' ∧ o'.Packs entries' s' := by
  have hlimits : ¬ (row.1.length = 0 ∨ row.1.length > maxKey ∨ row.2.length > maxValue) := by
    rcases hvalid with ⟨hne, hkey, hval⟩
    have := length_pos_iff.mpr hne
    omega
  have hfresh : ∀ bytes : Int, Overlay.Packs (Overlay.append { o with bytes } row.1 row.2) (entries ++ [newEntry row hvalid])
      (Slab.Overlay.append { s with bytes } row.1 row.2) := by
    intro bytes
    have hpacks : Overlay.Packs { o with bytes } entries { s with bytes } := ⟨h.slab, h.slots, h.idx, h.long, rfl⟩
    exact hpacks.append ⟨hindexed.idx, hindexed.long⟩ hvalid
  unfold Overlay.put Slab.Overlay.put
  dsimp only
  rw [if_neg hlimits, if_neg hlimits, h.find]
  cases hfind : s.find row.1 with
  | none =>
    refine ⟨_, entries ++ [newEntry row hvalid], _, rfl, rfl, ?_⟩
    rw [h.bytes]
    exact hfresh _
  | some i =>
    rcases hindexed.find hfind with ⟨slot, hslot, hkey⟩
    rw [h.slots, getElem?_map, map_eq_some_iff] at hslot
    rcases hslot with ⟨e, he, rfl⟩
    have hvalue : s.valueAt i = e.value := by
      simp [Slab.Overlay.valueAt, h.slots, he, Entry.slot]
    have hvcap : s.vcapAt i = e.value.length + e.pad.length := by
      simp [Slab.Overlay.vcapAt, h.slots, he, Entry.slot]
    dsimp only [map_some]
    rw [vlen_offset h.slab he, vcap_offset h.slab he, hvalue, hvcap, h.bytes]
    change e.key = row.1 at hkey
    by_cases hfit : row.2.length ≤ e.value.length + e.pad.length
    . rcases splice_value he hfit with ⟨e', hslot', hsize, hsplice⟩
      rw [if_pos hfit, if_pos hfit]
      refine ⟨_, entries.set i e', _, rfl, rfl, ⟨?_, ?_, ?_, ?_, rfl⟩⟩
      . rw [h.slab, ← hkey]
        exact hsplice
      . rw [h.slots]
        apply ext_getElem?
        intro j
        rw [getElem?_modify, getElem?_map, getElem?_map, getElem?_set]
        rcases List.getElem?_eq_some_iff.mp he with ⟨hlt, -⟩
        by_cases hij : i = j
        . subst hij
          rw [if_pos rfl, if_pos hlt, he, map_some, map_some, hslot']
          simp [Entry.slot]
        . simp [hij]
      . exact h.idx.congr (fun _ _ _ => (offset_set he hsize _).symm)
      . exact h.long.congr (fun _ _ _ => (offset_set he hsize _).symm)
    . rw [if_neg hfit, if_neg hfit]
      exact ⟨_, entries ++ [newEntry row hvalid], _, rfl, rfl, hfresh _⟩

theorem Overlay.Packs.valueAt_eq (h : o.Packs entries s) {slot : Slab.Slot} (hslot : s.slab[i]? = some slot)
    : valueAt o.slab (ByteSlab.offset Entry.encode entries i) = s.valueAt i := by
  rw [h.slots, getElem?_map, map_eq_some_iff] at hslot
  rcases hslot with ⟨e, he, -⟩
  rw [valueAt_offset h.slab he]
  simp [Slab.Overlay.valueAt, h.slots, he, Entry.slot]

theorem Overlay.Packs.keyAt_eq (h : o.Packs entries s) {slot : Slab.Slot} (hslot : s.slab[i]? = some slot)
    : keyAt o.slab (ByteSlab.offset Entry.encode entries i) = s.keyAt i := by
  rw [h.slots, getElem?_map, map_eq_some_iff] at hslot
  rcases hslot with ⟨e, he, -⟩
  rw [keyAt_offset h.slab he]
  simp [Slab.Overlay.keyAt, h.slots, he, Entry.slot]

theorem Overlay.Packs.get (h : o.Packs entries s) (hindexed : s.Indexed) (key : Bytes)
    : o.get key = (s.get key).map (fun value => (value, value.isEmpty)) := by
  unfold Overlay.get Slab.Overlay.get
  rw [h.find]
  cases hfind : s.find key with
  | none => rfl
  | some i =>
    rcases hindexed.find hfind with ⟨slot, hslot, -⟩
    simp only [map_some, h.valueAt_eq hslot]

theorem offs_map {κ : Type} [DecidableEq κ] {f : Nat → Nat} {idx : AList (fun _ : κ => Nat)} {idx' : AList (fun _ : κ => Nat)}
    (h : AListMap.Maps f idx idx') (p : κ → Bool)
    : (idx'.entries.filter (fun e => p e.1)).map (·.2) = ((idx.entries.filter (fun e => p e.1)).map (·.2)).map f := by
  rw [h, List.filter_map, List.map_map, List.map_map]
  rfl

theorem Overlay.Packs.iter (h : o.Packs entries s) (hindexed : s.Indexed) (lo hi : Option Bytes)
    : o.iter lo hi = s.iter lo hi := by
  unfold Overlay.iter Slab.Overlay.iter
  dsimp only
  rw [map_append, map_append, offs_map h.idx (fun k => inBounds lo hi (Slab.unfixed k)),
    offs_map h.long (inBounds lo hi), ← map_append]
  have hslot : ∀ i ∈ (s.idx.entries.filter (fun e => inBounds lo hi (Slab.unfixed e.1))).map (·.2) ++
      (s.long.entries.filter (fun e => inBounds lo hi e.1)).map (·.2), ∃ slot, s.slab[i]? = some slot := by
    intro i hi
    rcases mem_append.mp hi with hi | hi
    . rcases mem_map.mp hi with ⟨e, he, rfl⟩
      rcases hindexed.idx e.1 e.2 (AList.mem_lookup_iff.mpr (mem_filter.mp he).1) with ⟨slot, hslot, -⟩
      exact ⟨slot, hslot⟩
    . rcases mem_map.mp hi with ⟨e, he, rfl⟩
      rcases hindexed.long e.1 e.2 (AList.mem_lookup_iff.mpr (mem_filter.mp he).1) with ⟨slot, hslot, -⟩
      exact ⟨slot, hslot⟩
  generalize (s.idx.entries.filter (fun e => inBounds lo hi (Slab.unfixed e.1))).map (·.2) ++
    (s.long.entries.filter (fun e => inBounds lo hi e.1)).map (·.2) = offs at hslot
  have hkey : ∀ i ∈ offs, keyAt o.slab (ByteSlab.offset Entry.encode entries i) = s.keyAt i := by
    intro i hi
    rcases hslot i hi with ⟨slot, hslot⟩
    exact h.keyAt_eq hslot
  have hvalue : ∀ i ∈ offs, valueAt o.slab (ByteSlab.offset Entry.encode entries i) = s.valueAt i := by
    intro i hi
    rcases hslot i hi with ⟨slot, hslot⟩
    exact h.valueAt_eq hslot
  rw [← List.map_insertionSort (fun a b => s.keyAt a ≤ s.keyAt b), List.map_map]
  . apply map_congr_left
    intro i hi
    rw [mem_insertionSort] at hi
    simp only [Function.comp_apply, hkey i hi, hvalue i hi]
  . intro a ha b hb
    rw [hkey a ha, hkey b hb]

theorem bytes_put {m : SortedMap Bytes Bytes} (h : s.Of m) (hbytes : s.bytes = (Latest.Overlay.bytes m : Int))
    {s' : Slab.Overlay} (hput : s.put row.1 row.2 = .ok s') : s'.bytes = (Latest.Overlay.bytes (m.put row.1 row.2) : Int) := by
  have hsum := SortedMap.sum_put m (fun r => r.1.length + r.2.length + entryOverhead) row.1 row.2
  have happend : ∀ (o : Slab.Overlay), (o.append row.1 row.2).bytes = o.bytes := by
    intro o
    unfold Slab.Overlay.append Slab.Overlay.set
    cases Slab.fixed row.1 <;> rfl
  have hget := h.get row.1
  unfold Slab.Overlay.put at hput
  unfold Slab.Overlay.get at hget
  dsimp only at hput
  unfold Latest.Overlay.bytes at hbytes ⊢
  split at hput
  . cases hput
  . split at hput
    . next off hfind =>
      rw [hfind, map_some] at hget
      rw [← hget, map_some, getD_some] at hsum
      dsimp only at hsum
      split at hput
      . cases hput
        dsimp only
        omega
      . cases hput
        rw [happend]
        dsimp only
        omega
    . next hfind =>
      rw [hfind, map_none] at hget
      rw [← hget, map_none, getD_none] at hsum
      dsimp only at hsum
      cases hput
      rw [happend]
      dsimp only
      omega

theorem ofPuts_packs {puts : List Row} (hvalid : ∀ row ∈ puts, Valid row)
    : ∃ o entries s, Overlay.ofPuts puts = .ok o ∧ o.Packs entries s ∧ s.Of (Slab.mapOf puts) ∧
        s.bytes = (Latest.Overlay.bytes (Slab.mapOf puts) : Int) := by
  have hfold : ∀ (puts : List Row) (o : Overlay) (entries : List Entry) (s : Slab.Overlay) (m : SortedMap Bytes Bytes),
      o.Packs entries s → s.Of m → s.bytes = (Latest.Overlay.bytes m : Int) → (∀ row ∈ puts, Valid row) →
      ∃ o' entries' s', puts.foldlM (fun (o : Overlay) row => o.put row.1 row.2) o = .ok o' ∧ o'.Packs entries' s' ∧
        s'.Of (puts.foldl (fun m row => m.put row.1 row.2) m) ∧
        s'.bytes = (Latest.Overlay.bytes (puts.foldl (fun m row => m.put row.1 row.2) m) : Int) := by
    intro puts
    induction puts with
    | nil =>
      intro o entries s m hpacks hof hbytes _
      exact ⟨o, entries, s, rfl, hpacks, hof, hbytes⟩
    | cons row puts ih =>
      intro o entries s m hpacks hof hbytes hv
      have hrow := hv row (by simp)
      rcases hpacks.put hof.toIndexed hrow with ⟨o₁, entries₁, s₁, hput, hsput, hpacks₁⟩
      rcases hof.put hrow with ⟨s₂, hsput₂, hof₁⟩
      rw [hsput] at hsput₂
      cases hsput₂
      rw [foldlM_cons, hput, foldl_cons]
      exact ih o₁ entries₁ s₁ _ hpacks₁ hof₁ (bytes_put hof hbytes hsput) (fun row hrow => hv row (by simp [hrow]))
  exact hfold puts newOverlay [] Slab.newOverlay SortedMap.empty ⟨rfl, rfl, rfl, rfl, rfl⟩ Slab.of_newOverlay rfl hvalid

theorem lastPut_eq_none_iff (puts : List Row) (key : Bytes) : lastPut puts key = none ↔ key ∉ puts.map (·.1) := by
  unfold lastPut
  rw [Option.map_eq_none_iff, List.getLast?_eq_none_iff, List.filter_eq_nil_iff, List.mem_map]
  constructor
  . rintro hnone ⟨row, hrow, rfl⟩
    simpa using hnone row hrow
  . intro hnone row hrow hkey
    exact hnone ⟨row, hrow, by simpa using hkey⟩

theorem rows_perm (puts : List Row)
    : (Slab.mapOf puts).rows.Perm ((puts.map (·.1)).dedup.map (fun key => (key, (lastPut puts key).getD []))) := by
  have hinj : Function.Injective (fun key => (key, (lastPut puts key).getD [])) := by
    intro a b h
    exact congrArg Prod.fst h
  have hrows : (Slab.mapOf puts).rows.Nodup :=
    (Slab.mapOf puts).sorted.imp (fun h heq => absurd h (by rw [heq]; exact lt_irrefl _))
  rw [perm_ext_iff_of_nodup hrows ((nodup_dedup _).map hinj)]
  rintro ⟨key, value⟩
  rw [← SortedMap.get_eq_some, get_mapOf, List.mem_map]
  constructor
  . intro hlast
    refine ⟨key, ?_, by rw [hlast]; rfl⟩
    rw [mem_dedup]
    by_contra hnot
    rw [(lastPut_eq_none_iff puts key).mpr hnot] at hlast
    cases hlast
  . rintro ⟨key', hmem, heq⟩
    rw [Prod.mk.injEq] at heq
    rcases heq with ⟨rfl, rfl⟩
    rw [mem_dedup] at hmem
    cases hlast : lastPut puts key' with
    | none => exact absurd hmem ((lastPut_eq_none_iff puts key').mp hlast)
    | some value => rfl

/--
The overlay is a finite map: reads return the last value put, flagged when it is a tombstone, a walk yields every
key in its bounds once and in order, and the accounted size is that of the keys with their current values.
-/
theorem overlay_finite_map {puts : List Row} (hvalid : ∀ row ∈ puts, Valid row)
    : ∃ o, Overlay.ofPuts puts = .ok o ∧
        (∀ key, o.get key = (lastPut puts key).map (fun value => (value, value.isEmpty))) ∧
        (∀ lo hi, (o.iter lo hi).Pairwise (fun r s => r.1 < s.1) ∧
          ∀ key value, (key, value) ∈ o.iter lo hi ↔ inBounds lo hi key = true ∧ lastPut puts key = some value) ∧
        o.bytes = ((puts.map (·.1)).dedup.map
          (fun key => key.length + ((lastPut puts key).getD []).length + 64)).sum := by
  rcases ofPuts_packs hvalid with ⟨o, entries, s, hputs, hpacks, hof, hbytes⟩
  refine ⟨o, hputs, ?_, ?_, ?_⟩
  . intro key
    rw [hpacks.get hof.toIndexed, hof.get, get_mapOf]
  . intro lo hi
    rw [hpacks.iter hof.toIndexed, hof.iter_eq]
    refine ⟨SortedMap.sorted _, ?_⟩
    intro key value
    rw [← SortedMap.get_eq_some, SortedMap.get_restrict, filter_eq_some_iff, get_mapOf]
    exact and_comm
  . rw [hpacks.bytes, hbytes, Latest.Overlay.bytes, ((rows_perm puts).map _).sum_eq, List.map_map]
    rfl

def resized : List Row :=
  [([1], [5]), (List.replicate 80 2, [6]), ([1], List.replicate 20 7), ([3], [8]), ([1], [9, 9]), ([3], [])]

theorem overlay_finite_map_resized
    : ∃ o, Overlay.ofPuts resized = .ok o ∧ o.get [1] = some ([9, 9], false) ∧ o.get [3] = some ([], true) ∧
        o.get [2] = none ∧ ([3], []) ∈ o.iter (some [2]) none ∧ o.bytes = 277 := by
  rcases overlay_finite_map (show ∀ row ∈ resized, Valid row by decide) with ⟨o, hputs, hget, hiter, hbytes⟩
  refine ⟨o, hputs, ?_, ?_, ?_, ?_, ?_⟩
  . rw [hget]
    decide +kernel
  . rw [hget]
    decide +kernel
  . rw [hget]
    decide +kernel
  . rw [(hiter _ _).2]
    decide +kernel
  . rw [hbytes]
    decide +kernel

end EpochDB.Latest.Packed
