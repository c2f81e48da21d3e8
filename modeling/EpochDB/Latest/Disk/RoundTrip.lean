import EpochDB.Latest.Disk.File
import EpochDB.Latest.Disk.Lemmas

/-!
A run file is read back: the bytes of a file refine the entries of its blocks, and the reads of an
opened file answer from the rows that were written.
-/

namespace EpochDB.Latest.Disk

open List
open FrontCoding (common encode decode scan behind)

def entryBytes (e : Entry) : Bytes :=
  [UInt8.ofNat e.shared, UInt8.ofNat e.suffix.length, UInt8.ofNat e.value.length] ++ e.suffix ++ e.value

structure Small (e : Entry) : Prop where
  shared : e.shared < 256
  suffix : e.suffix.length < 256
  value : e.value.length < 256

def blockBytes (blk : List Entry) : Bytes :=
  Bytes.ofNatLE 2 (Writer.used blk) ++ blk.flatMap entryBytes ++ List.replicate (blockSize - Writer.used blk) 0

theorem length_entryBytes (e : Entry) : (entryBytes e).length = 3 + e.suffix.length + e.value.length := by
  simp [entryBytes]
  omega

theorem length_flatMap_entryBytes (blk : List Entry) : (blk.flatMap entryBytes).length + 2 = Writer.used blk := by
  unfold Writer.used
  induction blk with
  | nil => rfl
  | cons e blk ih =>
    rw [flatMap_cons, length_append, length_entryBytes, map_cons, sum_cons]
    omega

variable {blk : List Entry} {w w' : Writer}

theorem length_blockBytes (h : Writer.used blk ≤ blockSize) : (blockBytes blk).length = blockSize := by
  have := length_flatMap_entryBytes blk
  simp only [blockBytes, length_append, Bytes.length_ofNatLE, length_replicate]
  omega

theorem blockUsed_blockBytes (h : Writer.used blk ≤ blockSize) : blockUsed (blockBytes blk) = Writer.used blk := by
  unfold blockUsed blockBytes
  rw [append_assoc, take_append_of_le_length (by simp), take_of_length_le (by simp)]
  apply Bytes.toNatLE_ofNatLE
  unfold blockSize at h
  omega

section

variable {b pre tail : Bytes} {e : Entry} (he : Small e) (hb : b = pre ++ (entryBytes e ++ tail))

include he hb

theorem getD_entry
    : (b.getD pre.length 0).toNat = e.shared ∧ (b.getD (pre.length + 1) 0).toNat = e.suffix.length ∧
      (b.getD (pre.length + 2) 0).toNat = e.value.length := by
  have hbyte : ∀ {n : Nat}, n < 256 → (UInt8.ofNat n).toNat = n := fun h => by simpa using h
  have hget : ∀ k, b.getD (pre.length + k) 0 = (entryBytes e ++ tail).getD k 0 := by
    intro k
    rw [hb, getD_eq_getElem?_getD, getElem?_append_right (by omega), Nat.add_sub_cancel_left, ← getD_eq_getElem?_getD]
  have hzero := hget 0
  rw [Nat.add_zero] at hzero
  rw [hzero, hget 1, hget 2]
  exact ⟨hbyte he.shared, hbyte he.suffix, hbyte he.value⟩

omit he in
theorem drop_entry : (b.drop (pre.length + 3)).take e.suffix.length = e.suffix ∧
    (b.drop (pre.length + 3 + e.suffix.length)).take e.value.length = e.value := by
  subst hb
  have hdrop : (pre ++ (entryBytes e ++ tail)).drop (pre.length + 3) = e.suffix ++ (e.value ++ tail) := by
    rw [drop_append]
    simp [entryBytes]
  constructor
  . rw [hdrop, take_append_of_le_length (Nat.le_refl _), take_length]
  . rw [← drop_drop, hdrop, drop_left, take_append_of_le_length (Nat.le_refl _), take_length]

end

theorem scanFrom_eq {b pre tail key : Bytes} {es : List Entry} (hes : ∀ e ∈ es, Small e)
    (hb : b = pre ++ (es.flatMap entryBytes ++ tail)) (eq : Nat)
    : scanFrom b key (pre.length + (es.flatMap entryBytes).length) pre.length eq = scan key eq es := by
  induction es generalizing pre eq with
  | nil =>
    unfold scanFrom
    rw [if_neg (by simp)]
    rfl
  | cons e es ih =>
    have hlen := length_entryBytes e
    have hhead : b = pre ++ (entryBytes e ++ (es.flatMap entryBytes ++ tail)) := by
      rw [hb, flatMap_cons, append_assoc]
    have htail : b = (pre ++ entryBytes e) ++ (es.flatMap entryBytes ++ tail) := by
      rw [hhead, append_assoc]
    rcases getD_entry (hes e (by simp)) hhead with ⟨hsh, hun, hvl⟩
    rcases drop_entry hhead with ⟨hsuf, hval⟩
    have hnext : ∀ eq', scanFrom b key (pre.length + ((e :: es).flatMap entryBytes).length)
        (pre.length + 3 + e.suffix.length + e.value.length) eq' = scan key eq' es := by
      intro eq'
      have := ih (fun e' he' => hes e' (by simp [he'])) htail eq'
      rw [length_append, hlen] at this
      rw [← this, flatMap_cons, length_append, hlen]
      congr 1
      . omega
      . omega
    unfold scanFrom
    rw [if_pos (by rw [flatMap_cons, length_append, hlen]; omega)]
    simp only [hsh, hun, hvl, hsuf, hval, hnext]
    rfl

theorem scanBlock_blockBytes (hblk : ∀ e ∈ blk, Small e) (h : Writer.used blk ≤ blockSize) (key : Bytes)
    : scanBlock (blockBytes blk) key = scan key 0 blk := by
  unfold scanBlock
  rw [blockUsed_blockBytes h, ← length_flatMap_entryBytes, Nat.add_comm]
  have hbytes : blockBytes blk = Bytes.ofNatLE 2 (Writer.used blk) ++
      (blk.flatMap entryBytes ++ List.replicate (blockSize - Writer.used blk) 0) := by
    rw [blockBytes, append_assoc]
  exact scanFrom_eq hblk hbytes 0

structure FileWriter.Of (f : FileWriter) (w : Writer) : Prop where
  out : f.out = w.blocks.flatMap blockBytes
  blk : ∃ head : Bytes, head.length = 2 ∧ f.blk = head ++ w.blk.flatMap entryBytes
  prev : f.prev = w.prev
  index : f.index = w.index.flatten
  n : f.n = UInt64.ofNat w.n

structure Writer.Within (w : Writer) : Prop where
  blocks : ∀ blk ∈ w.blocks, Writer.used blk ≤ blockSize
  blk : Writer.used w.blk ≤ blockSize

theorem Writer.add_eq_ok {key value : Bytes} (h : w.add key value = .ok w')
    : ¬ (key.length = 0 ∨ key.length > maxKey ∨ value.length > maxValue) ∧ ¬ (w.n > 0 ∧ key ≤ w.prev) ∧
      let shared := if w.blk = [] then 0 else common w.prev key
      let full := w.blk ≠ [] ∧ Writer.used w.blk + 3 + key.length - shared + value.length > blockSize
      (full ∧ w' = w.flush.append 0 key value) ∨ (¬ full ∧ w' = w.append shared key value) := by
  unfold Writer.add at h
  split at h
  . cases h
  . next hlens =>
    split at h
    . cases h
    . next horder =>
      refine ⟨hlens, horder, ?_⟩
      dsimp only at h ⊢
      generalize (if w.blk = [] then 0 else common w.prev key) = shared at h ⊢
      split at h
      . next hfull => exact .inl ⟨hfull, (Except.ok.inj h).symm⟩
      . next hfull => exact .inr ⟨hfull, (Except.ok.inj h).symm⟩

namespace FileWriter.Of

variable {f : FileWriter} {w : Writer} (h : f.Of w)

include h

theorem length_blk : f.blk.length = Writer.used w.blk := by
  rcases h.blk with ⟨head, hhead, hblk⟩
  rw [hblk, length_append, hhead, ← length_flatMap_entryBytes, Nat.add_comm]

theorem length_blk_eq_two : f.blk.length = 2 ↔ w.blk = [] := by
  have hlen := length_flatMap_entryBytes w.blk
  rw [h.length_blk]
  cases hw : w.blk with
  | nil => simp [Writer.used]
  | cons e blk =>
    have := length_entryBytes e
    rw [hw, flatMap_cons, length_append] at hlen
    simp only [reduceCtorEq, iff_false]
    omega

theorem flush : f.flush.Of w.flush := by
  unfold FileWriter.flush Writer.flush
  by_cases hnil : w.blk = []
  . rw [if_pos (h.length_blk_eq_two.mpr hnil), if_pos hnil]
    exact h
  . rw [if_neg (fun hlen => hnil (h.length_blk_eq_two.mp hlen)), if_neg hnil]
    rcases h.blk with ⟨head, hhead, hblk⟩
    have hdrop : f.blk.drop 2 = w.blk.flatMap entryBytes := by
      rw [hblk, ← hhead, drop_left]
    refine ⟨?_, ⟨Bytes.ofNatLE 2 f.blk.length, by simp, ?_⟩, h.prev, h.index, h.n⟩
    . dsimp only
      rw [hdrop, h.out, h.length_blk, flatMap_append, flatMap_singleton]
      rfl
    . dsimp only
      rw [take_append_of_le_length (by simp), take_of_length_le (by simp)]
      simp

theorem append {shared : Nat} {key value : Bytes} : (f.append shared key value).Of (w.append shared key value) := by
  refine ⟨h.out, ?_, rfl, ?_, ?_⟩
  . rcases h.blk with ⟨head, hhead, hblk⟩
    refine ⟨head, hhead, ?_⟩
    simp only [FileWriter.append, Writer.append]
    rw [hblk, flatMap_append, flatMap_singleton, entryBytes, length_drop, append_assoc]
  . simp only [FileWriter.append, Writer.append]
    by_cases hnil : w.blk = []
    . rw [if_pos (h.length_blk_eq_two.mpr hnil), if_pos hnil, h.index, flatten_append, flatten_singleton]
    . rw [if_neg (fun hlen => hnil (h.length_blk_eq_two.mp hlen)), if_neg hnil, h.index]
  . simp only [FileWriter.append, Writer.append]
    rw [h.n, UInt64.ofNat_add]
    rfl

theorem add {key value : Bytes} {w' : Writer} (hadd : w.add key value = .ok w')
    : ∃ f', f.add key value = .ok f' ∧ f'.Of w' ∧ f'.user = f.user := by
  rcases Writer.add_eq_ok hadd with ⟨hlens, horder, hcases⟩
  have horder' : ¬ (f.n > 0 ∧ key ≤ f.prev) := by
    rintro ⟨hn, hle⟩
    rw [h.prev] at hle
    refine horder ⟨Nat.pos_of_ne_zero ?_, hle⟩
    intro hzero
    rw [h.n, hzero] at hn
    exact absurd hn (by decide)
  have hopen : f.blk.length > 2 ↔ w.blk ≠ [] := by
    have htwo : 2 ≤ f.blk.length := by
      rw [h.length_blk, ← length_flatMap_entryBytes]
      omega
    rw [ne_eq, ← h.length_blk_eq_two]
    omega
  have hshared : (if f.blk.length > 2 then common f.prev key else 0) = if w.blk = [] then 0 else common w.prev key := by
    by_cases hnil : w.blk = []
    . rw [if_neg (fun hlen => hopen.mp hlen hnil), if_pos hnil]
    . rw [if_pos (hopen.mpr hnil), if_neg hnil, h.prev]
  unfold FileWriter.add
  rw [if_neg hlens, if_neg horder']
  dsimp only at hcases ⊢
  rw [hshared]
  rcases hcases with ⟨hfull, rfl⟩ | ⟨hfull, rfl⟩
  . rw [if_pos (by rw [hopen, h.length_blk]; exact hfull)]
    refine ⟨_, rfl, h.flush.append, ?_⟩
    simp only [FileWriter.append, FileWriter.flush]
    split <;> rfl
  . rw [if_neg (by rw [hopen, h.length_blk]; exact hfull)]
    exact ⟨_, rfl, h.append, rfl⟩

end FileWriter.Of

theorem used_append (blk : List Entry) (e : Entry)
    : Writer.used (blk ++ [e]) = Writer.used blk + (3 + e.suffix.length + e.value.length) := by
  simp [Writer.used]
  omega

theorem Writer.Within.add (h : w.Within) {key value : Bytes} (hadd : w.add key value = .ok w') : w'.Within := by
  rcases Writer.add_eq_ok hadd with ⟨hlens, -, hcases⟩
  have hone : 2 + (3 + key.length + value.length) ≤ blockSize := by
    unfold maxKey maxValue at hlens
    unfold blockSize
    omega
  dsimp only at hcases
  rcases hcases with ⟨hfull, rfl⟩ | ⟨hfull, rfl⟩
  . have hflush : w.flush = { w with blocks := w.blocks ++ [w.blk], blk := [] } := if_neg hfull.1
    rw [hflush]
    constructor
    . intro blk hblk
      rcases mem_append.mp hblk with hblk | hblk
      . exact h.blocks blk hblk
      . rw [mem_singleton.mp hblk]
        exact h.blk
    . simpa [Writer.append, Writer.used] using hone
  . refine ⟨h.blocks, ?_⟩
    simp only [Writer.append]
    rw [used_append]
    dsimp only
    rw [length_drop]
    by_cases hnil : w.blk = []
    . rw [if_pos hnil, hnil]
      simpa [Writer.used] using hone
    . rw [not_and] at hfull
      have := hfull hnil
      have hle := FrontCoding.common_le_right w.prev key
      rw [if_neg hnil] at this ⊢
      omega

theorem steps_entries {f : File} {next : Nat} {pre tail : Bytes} {es : List Entry} (hes : ∀ e ∈ es, Small e)
    (hb : f.block (next - 1) = pre ++ (es.flatMap entryBytes ++ tail)) (key : Bytes)
    : f.steps next (pre.length + (es.flatMap entryBytes).length) pre.length key =
        decode key es ++ f.steps next (pre.length + (es.flatMap entryBytes).length)
          (pre.length + (es.flatMap entryBytes).length) (lastKey key (decode key es)) := by
  induction es generalizing pre key with
  | nil => rfl
  | cons e es ih =>
    have hlen := length_entryBytes e
    have hhead : f.block (next - 1) = pre ++ (entryBytes e ++ (es.flatMap entryBytes ++ tail)) := by
      rw [hb, flatMap_cons, append_assoc]
    have htail : f.block (next - 1) = (pre ++ entryBytes e) ++ (es.flatMap entryBytes ++ tail) := by
      rw [hhead, append_assoc]
    rcases getD_entry (hes e (by simp)) hhead with ⟨hsh, hun, hvl⟩
    rcases drop_entry hhead with ⟨hsuf, hval⟩
    have hnext := ih (fun e' he' => hes e' (by simp [he'])) htail (key.take e.shared ++ e.suffix)
    have hused : (pre ++ entryBytes e).length + (es.flatMap entryBytes).length =
        pre.length + ((e :: es).flatMap entryBytes).length := by
      rw [flatMap_cons, length_append, length_append, Nat.add_assoc]
    have hi : (pre ++ entryBytes e).length = pre.length + 3 + e.suffix.length + e.value.length := by
      rw [length_append, hlen]
      omega
    rw [hused, hi] at hnext
    conv => lhs; unfold File.steps
    rw [if_pos (by rw [← hused, hi]; omega)]
    dsimp only
    rw [hsh, hun, hvl, hsuf, hval, hnext, decode, lastKey_cons, cons_append]

structure File.Backs (f : File) (r : Run) : Prop where
  nblk : f.nblk = r.blocks.length
  block : ∀ b < r.blocks.length, f.block b = blockBytes (r.block b)
  indexKey : ∀ b < r.blocks.length, f.indexKey b = r.indexKey b
  small : ∀ b < r.blocks.length, ∀ e ∈ r.block b, Small e
  within : ∀ b < r.blocks.length, Writer.used (r.block b) ≤ blockSize
  nonempty : ∀ b < r.blocks.length, r.block b ≠ []

namespace File.Backs

variable {f : File} {r : Run} (h : f.Backs r)

include h

theorem firstKey_eq {b : Nat} (hb : b < r.blocks.length) : f.firstKey b = r.firstKey b := by
  unfold File.firstKey Run.firstKey
  have hsmall := h.small b hb
  rw [h.block b hb]
  cases hblk : r.block b with
  | nil => exact absurd hblk (h.nonempty b hb)
  | cons e es =>
    rw [hblk] at hsmall
    have hbytes : blockBytes (e :: es) = Bytes.ofNatLE 2 (Writer.used (e :: es)) ++ (entryBytes e ++
        (es.flatMap entryBytes ++ List.replicate (blockSize - Writer.used (e :: es)) 0)) := by
      unfold blockBytes
      rw [flatMap_cons]
      simp only [append_assoc]
    rcases getD_entry (hsmall e (by simp)) hbytes with ⟨-, hun, -⟩
    have hsuf := (drop_entry hbytes).1
    rw [Bytes.length_ofNatLE] at hun hsuf
    rw [hun, hsuf]
    rfl

theorem seek_eq (key : Bytes) : f.seek key = r.seek key := by
  unfold File.seek Run.seek
  have hindex : ∀ i, 0 ≤ i → i < r.blocks.length → decide (f.indexKey i ≤ pad key) = decide (r.indexKey i ≤ pad key) := by
    intro i _ hi
    rw [h.indexKey i hi]
  have hle := bsearch_le (p := fun m => decide (r.indexKey m ≤ pad key)) (Nat.zero_le r.blocks.length)
  dsimp only
  rw [h.nblk, bsearch_congr hindex]
  cases hb : bsearch (fun m => decide (r.indexKey m ≤ pad key)) 0 r.blocks.length with
  | zero => rfl
  | succ b =>
    rw [hb] at hle
    dsimp only
    rw [h.indexKey b hle, h.firstKey_eq hle]
    have htied : ∀ i, 0 ≤ i → i < b → decide (f.indexKey i < pad key) = decide (r.indexKey i < pad key) := by
      intro i _ hi
      rw [h.indexKey i (by omega)]
    have hfull : ∀ lo i, lo ≤ i → i < b → decide (f.firstKey i ≤ key) = decide (r.firstKey i ≤ key) := by
      intro lo i _ hi
      rw [h.firstKey_eq (by omega)]
    rw [bsearch_congr htied, bsearch_congr (hfull _)] <;> rfl

theorem get_eq (hseek : ∀ key b, r.seek key = some b → b < r.blocks.length) (key : Bytes) : f.get key = r.get key := by
  unfold File.get Run.get
  rw [h.seek_eq]
  cases hs : r.seek key with
  | none => rfl
  | some b =>
    have hb := hseek key b hs
    dsimp only
    rw [h.block b hb, scanBlock_blockBytes (h.small b hb) (h.within b hb)]

theorem steps_eq {next : Nat} (hnext : next ≤ r.blocks.length) (used : Nat) (key : Bytes)
    : f.steps next used used key = decode key (r.blocks.drop next).flatten := by
  induction hn : r.blocks.length - next generalizing next used key with
  | zero =>
    unfold File.steps
    rw [if_neg (Nat.lt_irrefl _), h.nblk, if_neg (by omega), drop_of_length_le (by omega)]
    rfl
  | succ n ih =>
    have hlt : next < r.blocks.length := by omega
    have hblock : r.blocks[next] = r.block next := by
      unfold Run.block
      rw [getD_eq_getElem?_getD, getElem?_eq_getElem hlt, Option.getD_some]
    have hused : blockUsed (f.block next) =
        (Bytes.ofNatLE 2 (Writer.used (r.block next))).length + ((r.block next).flatMap entryBytes).length := by
      rw [h.block next hlt, blockUsed_blockBytes (h.within next hlt), ← length_flatMap_entryBytes, Bytes.length_ofNatLE,
        Nat.add_comm]
    have hbytes : f.block (next + 1 - 1) = Bytes.ofNatLE 2 (Writer.used (r.block next)) ++
        ((r.block next).flatMap entryBytes ++ List.replicate (blockSize - Writer.used (r.block next)) 0) := by
      rw [Nat.add_sub_cancel, h.block next hlt, blockBytes, append_assoc]
    have hsteps := steps_entries (h.small next hlt) hbytes key
    rw [ih (by omega) _ _ (by omega)] at hsteps
    unfold File.steps
    rw [if_neg (Nat.lt_irrefl _), h.nblk, if_pos hlt, hused]
    rw [Bytes.length_ofNatLE] at hsteps ⊢
    rw [hsteps, drop_eq_getElem_cons hlt, flatten_cons, decode_append, hblock]

theorem iter_eq (hseek : ∀ key b, r.seek key = some b → b < r.blocks.length) (lo hi : Option Bytes)
    : f.iter lo hi = r.iter lo hi := by
  unfold File.iter Run.iter
  have hstart : lo.bind f.seek = lo.bind r.seek := by
    cases lo with
    | none => rfl
    | some lo => exact h.seek_eq lo
  dsimp only
  rw [hstart, h.steps_eq]
  cases hlo : lo.bind r.seek with
  | none => exact Nat.zero_le _
  | some b =>
    rcases Option.bind_eq_some_iff.mp hlo with ⟨key, -, hs⟩
    exact Nat.le_of_lt (hseek key b hs)

end File.Backs

theorem take_drop_flatMap {α : Type} {g : α → Bytes} {l : List α} {n : Nat} (hg : ∀ x ∈ l, (g x).length = n) (tail : Bytes)
    {b : Nat} (hb : b < l.length) : ((l.flatMap g ++ tail).drop (b * n)).take n = g l[b] := by
  induction l generalizing b with
  | nil => cases hb
  | cons x l ih =>
    have hx := hg x (by simp)
    rw [flatMap_cons, append_assoc]
    cases b with
    | zero =>
      rw [Nat.zero_mul, drop_zero, take_append_of_le_length (by omega), take_of_length_le (by omega)]
      rfl
    | succ b =>
      rw [Nat.succ_mul, Nat.add_comm, ← drop_drop, ← hx, drop_left, hx]
      exact ih (fun y hy => hg y (by simp [hy])) (by simpa using hb)

theorem length_flatMap_fixed {α : Type} {g : α → Bytes} {l : List α} {n : Nat} (hg : ∀ x ∈ l, (g x).length = n)
    : (l.flatMap g).length = l.length * n := by
  induction l with
  | nil => simp
  | cons x l ih =>
    rw [flatMap_cons, length_append, hg x (by simp), ih (fun y hy => hg y (by simp [hy])), length_cons,
      Nat.succ_mul, Nat.add_comm]

theorem take_drop_append {a b c : Bytes} {i n : Nat} (ha : a.length = i) (hb : b.length = n)
    : ((a ++ (b ++ c)).drop i).take n = b := by
  rw [← ha, drop_left, ← hb, take_left]

theorem length_pad (key : Bytes) : (pad key).length = prefixLen := by
  unfold pad
  rw [length_append, length_take, length_replicate]
  omega

theorem fileWriter_fold {rows : List Row} {f : FileWriter} (h : f.Of w) (hin : w.Within)
    (hfold : rows.foldlM (fun (w : Writer) r => w.add r.1 r.2) w = .ok w')
    : ∃ f', rows.foldlM (fun (w : FileWriter) r => w.add r.1 r.2) f = .ok f' ∧ f'.Of w' ∧ w'.Within ∧ f'.user = f.user := by
  induction rows generalizing f w with
  | nil =>
    cases hfold
    exact ⟨f, rfl, h, hin, rfl⟩
  | cons row rows ih =>
    rw [foldlM_cons] at hfold
    cases hadd : w.add row.1 row.2 with
    | error e =>
      rw [hadd] at hfold
      cases hfold
    | ok w1 =>
      rw [hadd] at hfold
      rcases h.add hadd with ⟨f1, hadd', h1, huser⟩
      rcases ih h1 (hin.add hadd) hfold with ⟨f', hfold', h', hin', huser'⟩
      refine ⟨f', ?_, h', hin', huser'.trans huser⟩
      rw [foldlM_cons, hadd']
      exact hfold'

theorem fileWriter_new (user : FixedBytes 32) : (FileWriter.new user).Of Writer.new :=
  ⟨rfl, ⟨[0, 0], rfl, rfl⟩, rfl, rfl, rfl⟩

section

variable (crc : Bytes → UInt32) (user : FixedBytes 32)

def fileBytes (r : Run) : Bytes :=
  let ft := footer r.index.length (UInt64.ofNat r.n) user.val
  r.blocks.flatMap blockBytes ++ r.index.flatten ++ (ft ++ Bytes.ofNatLE 4 (crc (r.index.flatten ++ ft)).toNat)

theorem writeFile_eq {rows : List Row} {r : Run} (hwrite : write rows = .ok r) (hindex : ∀ key ∈ r.index, key.length = prefixLen)
    : writeFile crc user rows = .ok (fileBytes crc user r) ∧ ∀ blk ∈ r.blocks, Writer.used blk ≤ blockSize := by
  unfold write at hwrite
  cases hfold : rows.foldlM (fun (w : Writer) r => w.add r.1 r.2) Writer.new with
  | error e =>
    rw [hfold] at hwrite
    cases hwrite
  | ok w =>
    rw [hfold] at hwrite
    cases hwrite
    have hin : Writer.new.Within := ⟨by simp [Writer.new], by decide⟩
    rcases fileWriter_fold (fileWriter_new user) hin hfold with ⟨f, hfold', hf, hw, huser⟩
    have hflush := hf.flush
    have hindexF : f.flush.index = w.index.flatten := by
      rw [hflush.index]
      unfold Writer.flush
      split <;> rfl
    have hnF : f.flush.n = UInt64.ofNat w.n := by
      rw [hflush.n]
      unfold Writer.flush
      split <;> rfl
    have huserF : f.flush.user = user := by
      refine Eq.trans ?_ huser
      unfold FileWriter.flush
      split <;> rfl
    have hlen : w.index.flatten.length / prefixLen = w.index.length := by
      have hfixed := length_flatMap_fixed (g := id) hindex
      rw [flatMap_id] at hfixed
      rw [show w.index.flatten.length = _ from hfixed]
      exact Nat.mul_div_cancel _ (by decide)
    constructor
    . unfold writeFile
      rw [hfold']
      simp only [Except.map, FileWriter.close, hindexF, hnF, huserF, hlen, hflush.out]
      rfl
    . intro blk hblk
      unfold Writer.close Writer.flush at hblk
      split at hblk
      . exact hw.blocks blk hblk
      . rcases mem_append.mp hblk with hblk | hblk
        . exact hw.blocks blk hblk
        . rw [mem_singleton.mp hblk]
          exact hw.blk

theorem length_footer (nblk : Nat) (n : UInt64) : (footer nblk n user.val).length = 72 := by
  have huser := user.property
  have hmagic : magic.length = 8 := rfl
  simp only [footer, length_append, Bytes.length_ofNatLE, huser, hmagic]

theorem footer_fields {nblk : Nat} (hnblk : nblk * blockSize < 2 ^ 64) (n : UInt64) (sum : Bytes)
    : let ft := footer nblk n user.val ++ sum
      ft.take 8 = magic ∧ Bytes.toNatLE ((ft.drop 8).take 4) = version ∧ Bytes.toNatLE ((ft.drop 12).take 4) = blockSize ∧
      Bytes.toNatLE ((ft.drop 24).take 8) = nblk ∧ Bytes.toNatLE ((ft.drop 32).take 8) = nblk * blockSize ∧
      ft.take 72 = footer nblk n user.val ∧ ft.drop 72 = sum := by
  intro ft
  have hlen := length_footer user nblk n
  have hmagic : magic.length = 8 := rfl
  have hsmall : nblk < 256 ^ 8 := by
    unfold blockSize at hnblk
    omega
  have hfield : ∀ (a : Bytes) {i w x : Nat}, (∃ c, ft = a ++ (Bytes.ofNatLE w x ++ c)) → a.length = i → x < 256 ^ w →
      Bytes.toNatLE ((ft.drop i).take w) = x := by
    rintro a i w x ⟨c, hft⟩ ha hx
    rw [hft, take_drop_append ha (Bytes.length_ofNatLE w x), Bytes.toNatLE_ofNatLE hx]
  refine ⟨?_, ?_, ?_, ?_, ?_, ?_, ?_⟩
  . simp only [ft, footer, append_assoc]
    rw [take_append_of_le_length (by omega), take_of_length_le (by omega)]
  . exact hfield magic ⟨_, by simp only [ft, footer, append_assoc]; rfl⟩ hmagic (by decide)
  . exact hfield (magic ++ Bytes.ofNatLE 4 version) ⟨_, by simp only [ft, footer, append_assoc]; rfl⟩
      (by simp [hmagic]) (by decide)
  . exact hfield (magic ++ Bytes.ofNatLE 4 version ++ Bytes.ofNatLE 4 blockSize ++ Bytes.ofNatLE 8 n.toNat)
      ⟨_, by simp only [ft, footer, append_assoc]; rfl⟩ (by simp [hmagic]) hsmall
  . exact hfield (magic ++ Bytes.ofNatLE 4 version ++ Bytes.ofNatLE 4 blockSize ++ Bytes.ofNatLE 8 n.toNat ++
      Bytes.ofNatLE 8 nblk) ⟨_, by simp only [ft, footer, append_assoc]; rfl⟩ (by simp [hmagic]) (by simpa using hnblk)
  . simp only [ft]
    rw [take_append_of_le_length (by omega), take_of_length_le (by omega)]
  . simp only [ft]
    rw [← hlen, drop_left]

variable {r : Run} (hblocks : ∀ blk ∈ r.blocks, (blockBytes blk).length = blockSize)
  (hindex : ∀ key ∈ r.index, key.length = prefixLen) (hcount : r.index.length = r.blocks.length)

include hblocks hindex hcount

theorem length_fileBytes
    : (fileBytes crc user r).length = r.blocks.length * blockSize + r.blocks.length * prefixLen + footerLen := by
  have hlen := length_footer user r.index.length (UInt64.ofNat r.n)
  have hflat := length_flatMap_fixed (g := id) hindex
  rw [flatMap_id] at hflat
  have hflat : r.index.flatten.length = r.index.length * prefixLen := hflat
  rw [hcount] at hlen hflat
  unfold fileBytes footerLen
  simp only [length_append, length_flatMap_fixed hblocks, hflat, Bytes.length_ofNatLE, hcount, hlen]

omit hblocks hindex hcount in
theorem footer_sizes {nblk size : Nat} (h : size = nblk * blockSize + nblk * prefixLen + footerLen) (hsize : size < 2 ^ 63)
    : ¬ (nblk > size / blockSize ∨ ¬ nblk * blockSize = nblk * blockSize % 2 ^ 64 ∨
        ¬ (nblk * blockSize + nblk * prefixLen + footerLen) % 2 ^ 64 = size) := by
  unfold blockSize prefixLen footerLen at *
  omega

theorem openFile_fileBytes (path : String) (hsize : (fileBytes crc user r).length < 2 ^ 63)
    : ∃ f, openFile crc path (fileBytes crc user r) = .ok f ∧ f.mm = fileBytes crc user r ∧
        f.index = r.index.flatten ∧ f.nblk = r.blocks.length := by
  have hlen := length_fileBytes crc user hblocks hindex hcount
  have hfoot := length_footer user r.index.length (UInt64.ofNat r.n)
  have hflat := length_flatMap_fixed (g := id) hindex
  rw [flatMap_id] at hflat
  have hflat : r.index.flatten.length = r.index.length * prefixLen := hflat
  rw [hlen] at hsize
  have hft : (fileBytes crc user r).drop ((fileBytes crc user r).length - footerLen) =
      footer r.index.length (UInt64.ofNat r.n) user.val ++
        Bytes.ofNatLE 4 (crc (r.index.flatten ++ footer r.index.length (UInt64.ofNat r.n) user.val)).toNat := by
    rw [hlen, Nat.add_sub_cancel]
    unfold fileBytes
    apply drop_left'
    rw [length_append, length_flatMap_fixed hblocks, hflat, hcount]
  have hmul : r.blocks.length * blockSize < 2 ^ 64 := by omega
  rw [← hcount] at hmul
  have hfields := footer_fields user hmul (UInt64.ofNat r.n)
    (Bytes.ofNatLE 4 (crc (r.index.flatten ++ footer r.index.length (UInt64.ofNat r.n) user.val)).toNat)
  dsimp only at hfields
  rw [← hft] at hfields
  rcases hfields with ⟨hmagic, hversion, hsz, hnblk, hioff, htake, hsum⟩
  have hixs : ((fileBytes crc user r).drop (r.index.length * blockSize)).take (r.index.length * prefixLen) = r.index.flatten := by
    unfold fileBytes
    rw [append_assoc]
    exact take_drop_append (by rw [length_flatMap_fixed hblocks, hcount]) hflat
  have hcheck : Bytes.toNatLE (Bytes.ofNatLE 4 (crc (r.index.flatten ++ footer r.index.length (UInt64.ofNat r.n) user.val)).toNat) =
      (crc (r.index.flatten ++ footer r.index.length (UInt64.ofNat r.n) user.val)).toNat :=
    Bytes.toNatLE_ofNatLE (UInt32.toNat_lt _)
  unfold openFile
  rw [if_neg (by rw [hlen]; omega)]
  dsimp only
  rw [hmagic, hversion, hsz, hnblk, hioff, htake, hsum, hixs, hcheck, if_neg, if_neg (by simp)]
  . exact ⟨_, rfl, rfl, rfl, hcount⟩
  . rw [hcount]
    simp only [ne_eq, not_true_eq_false, false_or]
    exact footer_sizes hlen (by rw [hlen]; exact hsize)

end

theorem small_encode {rows : List Row} (hvalid : ∀ row ∈ rows, Valid row) {prev : Bytes} (hprev : prev.length ≤ maxKey)
    : ∀ e ∈ encode prev rows, Small e := by
  induction rows generalizing prev with
  | nil => simp [encode]
  | cons row rows ih =>
    rcases hvalid row (by simp) with ⟨-, hkey, hval⟩
    have hshared := FrontCoding.common_le_left prev row.1
    intro e he
    rw [encode, mem_cons] at he
    rcases he with rfl | he
    . unfold maxKey maxValue at *
      refine ⟨?_, ?_, ?_⟩
      . dsimp only
        omega
      . rw [length_drop]
        omega
      . dsimp only
        omega
    . exact ih (fun row' hrow' => hvalid row' (by simp [hrow'])) hkey e he

theorem Run.Of.seek_lt {r : Run} {chunks : List (List Row)} (h : r.Of chunks) {key : Bytes} {b : Nat}
    (hs : r.seek key = some b) : b < r.blocks.length := by
  have hspec := h.seek_spec key
  rw [hs] at hspec
  rw [h.length_blocks]
  exact hspec.1

theorem Run.Of.backs {r : Run} {chunks : List (List Row)} (h : r.Of chunks) (hwithin : ∀ blk ∈ r.blocks, Writer.used blk ≤ blockSize)
    {f : File} (hmm : r.blocks.flatMap blockBytes <+: f.mm) (hindex : f.index = r.index.flatten)
    (hnblk : f.nblk = r.blocks.length) : f.Backs r := by
  have hlen : r.index.length = r.blocks.length := by rw [h.index, h.blocks, length_map, length_map]
  have hmem : ∀ {b : Nat} (hb : b < r.blocks.length), r.block b = r.blocks[b] := by
    intro b hb
    unfold Run.block
    rw [getD_eq_getElem?_getD, getElem?_eq_getElem hb, Option.getD_some]
  refine ⟨hnblk, ?_, ?_, ?_, ?_, ?_⟩
  . intro b hb
    rcases hmm with ⟨tail, hmm⟩
    unfold File.block
    rw [← hmm, take_drop_flatMap (fun blk hblk => length_blockBytes (hwithin blk hblk)) _ hb, hmem hb]
  . intro b hb
    have hb' : b < r.index.length := by omega
    have hpad : ∀ key ∈ r.index, (id key : Bytes).length = prefixLen := by
      intro key hkey
      rw [h.index] at hkey
      rcases mem_map.mp hkey with ⟨c, -, rfl⟩
      exact length_pad _
    have htake := take_drop_flatMap hpad [] hb'
    rw [flatMap_id, append_nil] at htake
    unfold File.indexKey Run.indexKey
    rw [hindex, htake, getD_eq_getElem?_getD, getElem?_eq_getElem hb']
    rfl
  . intro b hb e he
    rw [h.length_blocks] at hb
    rw [h.block_eq hb] at he
    refine small_encode ?_ (Nat.zero_le _) e he
    intro row hrow
    exact h.valid row (mem_flatten_of_mem (getElem_mem hb) hrow)
  . intro b hb
    rw [hmem hb]
    exact hwithin _ (getElem_mem hb)
  . intro b hb
    rw [h.length_blocks] at hb
    rw [h.block_eq hb, ne_eq, encode_eq_nil]
    exact h.nonempty _ (getElem_mem hb)

theorem openFile_writeFile (crc : Bytes → UInt32) (user : FixedBytes 32) (path : String) (rows : List Row)
    (hordered : SortedMap.Ordered rows) (hvalid : ∀ row ∈ rows, Valid row)
    : ∃ file, writeFile crc user rows = .ok file ∧
      (file.length < 2 ^ 63 → ∃ f, openFile crc path file = .ok f ∧
        (∀ row ∈ rows, f.get row.1 = some row.2) ∧
        (∀ key, (∀ row ∈ rows, row.1 ≠ key) → f.get key = none) ∧
        ∀ lo hi, f.iter lo hi = rows.filter (fun row => inBounds lo hi row.1)) := by
  rcases write_of hordered hvalid with ⟨r, chunks, hwrite, hof, hflat⟩
  have hpad : ∀ key ∈ r.index, key.length = prefixLen := by
    intro key hkey
    rw [hof.index] at hkey
    rcases mem_map.mp hkey with ⟨c, -, rfl⟩
    exact length_pad _
  have hcount : r.index.length = r.blocks.length := by rw [hof.index, hof.blocks, length_map, length_map]
  rcases writeFile_eq crc user hwrite hpad with ⟨hfile, hwithin⟩
  refine ⟨_, hfile, ?_⟩
  intro hsize
  have hblocks := fun blk hblk => length_blockBytes (hwithin blk hblk)
  rcases openFile_fileBytes crc user hblocks hpad hcount path hsize with ⟨f, hopen, hmm, hindex, hnblk⟩
  have hbacks : f.Backs r := by
    refine hof.backs hwithin ?_ hindex hnblk
    rw [hmm, fileBytes, append_assoc]
    exact prefix_append _ _
  have hseek : ∀ key b, r.seek key = some b → b < r.blocks.length := fun _ _ hs => hof.seek_lt hs
  refine ⟨f, hopen, ?_, ?_, ?_⟩
  . intro row hrow
    rw [hbacks.get_eq hseek, hof.get_eq, hflat]
    exact (SortedMap.get_eq_some (m := ⟨rows, hordered⟩)).mpr hrow
  . intro key hkey
    rw [hbacks.get_eq hseek, hof.get_eq, hflat]
    exact find_eq_none_of_ne hkey
  . intro lo hi
    rw [hbacks.iter_eq hseek, hof.iter_eq, hflat]

theorem openFile_writeFile_nested
    : let crc : Bytes → UInt32 := fun bytes => bytes.foldl (fun sum b => 31 * sum + b.toUInt32) 7
      ∃ file f, writeFile crc (.fill 32 0) [([1], [7]), ([1, 0], []), ([2], [9])] = .ok file ∧
        openFile crc "run" file = .ok f ∧ f.get [1, 0] = some [] ∧ f.get [1, 1] = none ∧
        f.iter (some [1, 0]) (some [2]) = [([1, 0], [])] := by
  intro crc
  have hsize : (writeFile crc (.fill 32 0) [([1], [7]), ([1, 0], []), ([2], [9])]).toOption.map List.length = some 4212 := by
    decide +kernel
  rcases openFile_writeFile crc (.fill 32 0) "run" [([1], [7]), ([1, 0], []), ([2], [9])] (by decide) (by decide)
    with ⟨file, hfile, hread⟩
  rw [hfile] at hsize
  have hlen : file.length = 4212 := by simpa [Except.toOption] using hsize
  rcases hread (by rw [hlen]; decide) with ⟨f, hopen, hget, hnone, hiter⟩
  refine ⟨file, f, hfile, hopen, hget ([1, 0], []) (by decide), hnone [1, 1] (by decide), ?_⟩
  rw [hiter]
  decide

end EpochDB.Latest.Disk
