import EpochDB.Lib.StableSort
import EpochDB.Store.Read.Numbered

/-!
What the walks hand out: `postings` the entries of the transactions in the order of their TxNums,
wherever the parts of the store end, and `SetScan` every set row once.
-/

namespace EpochDB.Store.Read

open List Memtable
open Sealed (FilterPolicy)

theorem feed_append (fn : σ → α → σ × Bool) (s : σ) (es es' : List α)
    : feed fn s (es ++ es') = if (feed fn s es).2 then feed fn (feed fn s es).1 es' else feed fn s es := by
  induction es generalizing s with
  | nil => rfl
  | cons e es ih =>
    rw [cons_append, feed, feed]
    rcases fn s e with ⟨s', goOn⟩
    cases goOn with
    | true => exact ih s'
    | false => rfl

theorem feedAll_ok (fn : σ → α → σ × Bool) (s : σ) (sources : List (List α))
    : feedAll fn s (sources.map .ok) = .ok (feed fn s sources.flatten) := by
  induction sources generalizing s with
  | nil => rfl
  | cons es sources ih =>
    rw [map_cons, feedAll, flatten_cons, feed_append]
    rcases feed fn s es with ⟨s', goOn⟩
    cases goOn with
    | true => exact ih s'
    | false => rfl

def Precedes (p q : Posting) : Prop := p.txnum < q.txnum ∨ p.txnum = q.txnum ∧ p.group < q.group

instance : Std.Total ascending := ⟨fun p q => UInt64.le_total p.txnum q.txnum⟩
instance : IsTrans Posting ascending := ⟨fun _ _ _ h h' => UInt64.le_trans h h'⟩

theorem sortEntries_eq {es ps : List Posting} (hes : es.Pairwise (fun p q => p.txnum = q.txnum → p.group < q.group))
    (hps : ps.Pairwise Precedes) (hperm : es.Perm ps) : sortEntries false es = ps := by
  unfold sortEntries
  rw [if_neg Bool.false_ne_true]
  apply StableSort.insertionSort_eq (t := fun p q => p.group < q.group) _ _ (fun _ _ h h' => lt_asymm h h') hperm
  . apply hes.imp
    intro p q h hle hge
    exact h (UInt64.le_antisymm hle hge)
  . apply hps.imp
    rintro p q (hlt | ⟨heq, hlt⟩)
    . exact ⟨UInt64.le_of_lt hlt, fun hge => absurd hlt (UInt64.not_lt.mpr hge)⟩
    . exact ⟨UInt64.le_of_eq heq, fun _ => hlt⟩

theorem group_lt_of_precedes {p q : Posting} (h : Precedes p q) (heq : p.txnum = q.txnum) : p.group < q.group := by
  rcases h with hlt | ⟨-, hlt⟩
  . rw [heq] at hlt
    exact absurd hlt (UInt64.lt_irrefl _)
  . exact hlt

theorem group_lt_of_lt {p q : Posting} (h : Sealed.Posting.lt p q) (heq : p.txnum = q.txnum) : p.group < q.group := by
  rcases h with hlt | ⟨-, hlt⟩
  . exact hlt
  . rw [heq] at hlt
    exact absurd hlt (UInt64.lt_irrefl _)

theorem sortedKeys_pairwise (post : Memtable.PostMap) : (sortedKeys post).Pairwise (· < ·) := by
  have hle : (sortedKeys post).Pairwise (· ≤ ·) := pairwise_insertionSort _ _
  have hnodup : (sortedKeys post).Nodup := (perm_insertionSort _ _).nodup_iff.mpr post.keys_nodup
  apply (hle.and hnodup).imp
  rintro g g' ⟨hle, hne⟩
  exact lt_of_le_of_ne hle hne

theorem posts_precedes {crypto : Crypto} {bs : List BlockWrite} {first : UInt64}
    (hcont : ∀ b ∈ bs, b.Rebuilds crypto) (hlt : first.toNat + slots bs < 2 ^ 64)
    : (table crypto first bs).posts.Pairwise Precedes := by
  rw [posts_table hcont, pairwise_flatMap]
  constructor
  . rintro ⟨n, t⟩ -
    unfold TxWrite.posts
    rw [pairwise_map]
    apply (sortedKeys_pairwise _).imp
    intro g g' hg
    exact .inr ⟨rfl, hg⟩
  . apply (numbered_pairwise hlt).imp
    rintro ⟨n, t⟩ ⟨n', t'⟩ hn p hp p' hp'
    rcases mem_map.mp hp with ⟨g, -, rfl⟩
    rcases mem_map.mp hp' with ⟨g', -, rfl⟩
    exact .inl hn

def under (pfx : Bytes) (lo hi : UInt64) (p : Posting) : Bool := p.txnum ≥ lo && p.txnum ≤ hi && pfx.isPrefixOf p.group

theorem posts_runTable (crypto : Crypto) (l : RunBlocks)
    : (runTable crypto l).posts = l.flatMap (fun p => (table crypto p.1.footer.fromTx p.2).posts) :=
  filterMap_flatMap

section Postings

variable (policy : FilterPolicy) {crypto : Crypto} {pfx : Bytes} (hpfx : isPostingKey pfx = true) (lo hi : UInt64)

include hpfx

theorem runPostings_eq {r : Sealed.Run} {bs : List BlockWrite} (h : Holds crypto r bs)
    (hsorted : (table crypto r.footer.fromTx bs).posts.Pairwise Precedes)
    : (runPostings policy r pfx lo hi).map (sortEntries false) =
        .ok ((table crypto r.footer.fromTx bs).posts.filter (under pfx lo hi)) := by
  unfold runPostings
  split
  . next hskip =>
    have hnil : (table crypto r.footer.fromTx bs).posts.filter (under pfx lo hi) = [] := by
      rw [filter_eq_nil_iff]
      intro p hp hunder
      rcases h.txnum (Table.mem_posts.mp hp) rfl with ⟨hge, hlt⟩
      unfold under at hunder
      rw [Bool.and_eq_true, Bool.and_eq_true, decide_eq_true_eq, decide_eq_true_eq] at hunder
      rw [Bool.or_eq_true, decide_eq_true_eq, decide_eq_true_eq] at hskip
      rcases hskip with hskip | hskip
      . exact absurd (UInt64.lt_of_lt_of_le hlt hskip) (UInt64.not_lt.mpr hunder.1.1)
      . exact absurd (UInt64.lt_of_lt_of_le hskip hge) (UInt64.not_lt.mpr hunder.1.2)
    rw [hnil]
    rfl
  . rw [Sealed.scanChunks_eq policy h.shows.lookupSection hpfx, Except.map, filter_filter]
    congr 1
    apply sortEntries_eq
    . apply (h.shows.sorted.filter _).imp
      exact group_lt_of_lt
    . exact hsorted.filter _
    . have hfilter : (fun p => Sealed.inRange lo hi p && pfx.isPrefixOf p.group) = under pfx lo hi := by
        funext p
        simp [Sealed.inRange, under]
      rw [hfilter]
      exact h.shows.posts.filter _

variable {s : Sys} {l : RunBlocks} {fbs mbs : List BlockWrite} (h : s.Parts crypto l fbs mbs)

include h

omit hpfx in
theorem windowPostings_eq
    : windowPostings s.view.mem s.view.frozen =
        ((s.view.frozen.map (fun f => table crypto f.baseTx fbs)).getD [] ++ table crypto s.view.mem.baseTx mbs).posts := by
  unfold windowPostings
  rw [Table.posts_append, h.stored.mem.shows.post]
  congr 1
  cases hf : s.view.frozen with
  | none => rfl
  | some f => exact (h.stored.frozen f hf).1.shows.post

theorem postings_eq {σ : Type} (fn : σ → Posting → σ × Bool) (init : σ)
    : postings policy s.view pfx lo hi false fn init =
        .ok (feed fn init ((table crypto 0 s.blocks).posts.filter (under pfx lo hi))).1 := by
  have hlt := h.slots_lt
  have hsorted : (table crypto 0 s.blocks).posts.Pairwise Precedes :=
    posts_precedes h.container (by rw [UInt64.toNat_zero, Nat.zero_add]; exact hlt)
  rw [h.blocks, h.stored.table_eq, append_assoc, Table.posts_append, posts_runTable] at hsorted ⊢
  rcases pairwise_append.mp hsorted with ⟨hruns, hwindow, -⟩
  have hwin : windowSource s.view.mem s.view.frozen pfx lo hi false =
      .ok (((s.view.frozen.map (fun f => table crypto f.baseTx fbs)).getD [] ++
        table crypto s.view.mem.baseTx mbs).posts.filter (under pfx lo hi)) := by
    unfold windowSource windowEntries
    rw [windowPostings_eq h]
    congr 1
    apply sortEntries_eq
    . exact (hwindow.filter _).imp group_lt_of_precedes
    . exact hwindow.filter _
    . exact List.Perm.refl _
  have hsources : runSources policy s.view.runs pfx lo hi false =
      (l.map (fun p => (table crypto p.1.footer.fromTx p.2).posts.filter (under pfx lo hi))).map .ok := by
    unfold runSources
    rw [if_neg Bool.false_ne_true, h.stored.runs, map_map, map_map]
    apply map_congr_left
    intro p hp
    exact runPostings_eq policy hpfx lo hi (h.stored.holds p hp) ((pairwise_flatMap.mp hruns).1 p hp)
  unfold postings
  dsimp only
  rw [if_neg Bool.false_ne_true, hwin, hsources, ← map_singleton, ← map_append, feedAll_ok, Except.map]
  congr 3
  rw [flatten_append, flatten_singleton, filter_append]
  rw [filter_flatMap, flatMap_def]

end Postings

theorem isGroup_of_mem_sortedKeys {t : TxWrite} {g : Bytes} (h : g ∈ sortedKeys (txPostings t)) : IsGroup g := by
  have hmem : g ∈ (txPostings t).keys := by simpa [sortedKeys] using h
  rw [← AList.mem_keys, ← AList.lookup_isSome, Option.isSome_iff_exists] at hmem
  rcases hmem with ⟨v, hv⟩
  exact (allFit_txPostings t g v hv).isGroup

theorem filter_sortedKeys (t : TxWrite) {g : Bytes} (hg : IsGroup g)
    : (sortedKeys (txPostings t)).filter (fun k => g.isPrefixOf k) =
        if g ∈ txPostings t then [g] else [] := by
  have hsame : (sortedKeys (txPostings t)).filter (fun k => g.isPrefixOf k) =
      (sortedKeys (txPostings t)).filter (fun k => k == g) := by
    apply filter_congr
    intro k hk
    rw [Bool.eq_iff_iff, isPrefixOf_iff_prefix, beq_iff_eq]
    constructor
    . intro hpre
      exact (prefixFree_isGroup g k hg (isGroup_of_mem_sortedKeys hk) hpre).symm
    . rintro rfl
      exact prefix_refl _
  have hnodup : (sortedKeys (txPostings t)).Nodup :=
    (perm_insertionSort _ _).nodup_iff.mpr (txPostings t).keys_nodup
  have hmem : g ∈ sortedKeys (txPostings t) ↔ g ∈ txPostings t := by
    rw [AList.mem_keys]
    simp [sortedKeys]
  rw [hsame, filter_beq, hnodup.count]
  simp only [hmem]
  split
  . rfl
  . rfl

theorem filter_posts (t : TxWrite) (n : UInt64) {g : Bytes} (hg : IsGroup g)
    : (t.posts n).filter (fun p => g.isPrefixOf p.group) =
        (((txPostings t).lookup g).map (fun payload => (⟨g, n, payload⟩ : Posting))).toList := by
  unfold TxWrite.posts
  rw [filter_map]
  have hcomp : ((fun p : Posting => g.isPrefixOf p.group) ∘
      fun g => (⟨g, n, ((txPostings t).lookup g).getD 0⟩ : Posting)) = fun k => g.isPrefixOf k := rfl
  rw [hcomp, filter_sortedKeys t hg]
  cases hlookup : (txPostings t).lookup g with
  | none =>
    rw [AList.lookup_eq_none] at hlookup
    rw [if_neg hlookup]
    rfl
  | some payload =>
    have hmem : g ∈ txPostings t := AList.lookup_isSome.mp (Option.isSome_of_eq_some hlookup)
    rw [if_pos hmem, map_singleton, hlookup]
    rfl

def postOf (g : Bytes) (p : UInt64 × TxWrite) : Option Posting :=
  ((txPostings p.2).lookup g).map (fun payload => ⟨g, p.1, payload⟩)

theorem filter_under {g : Bytes} (hg : IsGroup g) {lo hi : UInt64} {txs : List (UInt64 × TxWrite)}
    (hrange : ∀ p ∈ txs, lo ≤ p.1 ∧ p.1 ≤ hi)
    : (txs.flatMap (fun p => p.2.posts p.1)).filter (under g lo hi) = txs.filterMap (postOf g) := by
  rw [filter_flatMap, filterMap_eq_flatMap_toList]
  apply flatMap_congr
  intro p hp
  have hunder : ∀ e ∈ p.2.posts p.1, under g lo hi e = g.isPrefixOf e.group := by
    intro e he
    rcases mem_map.mp he with ⟨k, -, rfl⟩
    rcases hrange p hp with ⟨hlo, hhi⟩
    simp [under, hlo, hhi]
  rw [filter_congr hunder, filter_posts _ _ hg]
  rfl

theorem mem_visited {seen ks : List Bytes} {k : Bytes} : k ∈ visited seen ks ↔ k ∈ ks ∧ k ∉ seen := by
  induction ks generalizing seen with
  | nil => exact ⟨fun h => absurd h not_mem_nil, fun h => absurd h.1 not_mem_nil⟩
  | cons k' ks ih =>
    rw [visited_cons]
    split
    . next hseen =>
      rw [ih]
      grind
    . next hseen =>
      rw [mem_cons, ih]
      grind

theorem visited_nodup (seen ks : List Bytes) : (visited seen ks).Nodup := by
  induction ks generalizing seen with
  | nil => exact nodup_nil
  | cons k ks ih =>
    rw [visited_cons]
    split
    . exact ih seen
    . apply List.Nodup.cons _ (ih _)
      intro hmem
      exact (mem_visited.mp hmem).2 mem_cons_self

theorem mem_windowSets {mem : Memtable} {frozen : Option Memtable} {pfx k : Bytes}
    : k ∈ windowSets mem frozen pfx ↔ ((∃ f, frozen = some f ∧ k ∈ f.sets) ∨ k ∈ mem.sets) ∧ pfx <+: k := by
  unfold windowSets Sealed.sortBytes
  rw [mem_insertionSort, mem_filter, mem_append, isPrefixOf_iff_prefix]
  cases frozen with
  | none => simp
  | some f => simp

theorem mem_setScan (policy : FilterPolicy) {crypto : Crypto} {s : Sys} {l : RunBlocks}
    {fbs mbs : List BlockWrite} (h : s.Parts crypto l fbs mbs) {pfx : Bytes} (hpfx : prefixSet <+: pfx) {k : Bytes}
    : k ∈ setScan policy s.view pfx ↔ k ∈ (table crypto 0 s.blocks).sets ∧ pfx <+: k := by
  have hset : ∀ {k}, k ∈ (table crypto 0 s.blocks).sets → SetKey k := by
    intro k hk
    rw [sets_table h.container] at hk
    rcases mem_flatMap.mp hk with ⟨p, -, hk⟩
    rcases mem_flatMap.mp hk with ⟨log, -, hk⟩
    exact setKey_of_mem_logSets hk
  rw [h.blocks, h.stored.table_eq, append_assoc, Table.sets_append, Table.sets_append] at hset ⊢
  have hruns : (∃ r ∈ s.view.runs, k ∈ r.scanSet policy pfx) ↔ k ∈ (runTable crypto l).sets ∧ pfx <+: k := by
    have hsets : (runTable crypto l).sets = l.flatMap (fun p => (table crypto p.1.footer.fromTx p.2).sets) :=
      filterMap_flatMap
    rw [h.stored.runs]
    constructor
    . rintro ⟨r, hr, hk⟩
      rcases mem_map.mp hr with ⟨p, hp, rfl⟩
      rw [Sealed.mem_scanSet policy (h.stored.holds p hp).shows hpfx] at hk
      rw [hsets]
      exact ⟨mem_flatMap.mpr ⟨p, hp, hk.1⟩, hk.2.2⟩
    . rintro ⟨hk, hpre⟩
      have hkey := hset (mem_append_left _ hk)
      rw [hsets] at hk
      rcases mem_flatMap.mp hk with ⟨p, hp, hk⟩
      exact ⟨p.1, mem_map_of_mem hp, (Sealed.mem_scanSet policy (h.stored.holds p hp).shows hpfx).mpr ⟨hk, hkey, hpre⟩⟩
  have hfrozen : (∃ f, s.view.frozen = some f ∧ k ∈ f.sets) ↔
      k ∈ Table.sets ((s.view.frozen.map (fun f => table crypto f.baseTx fbs)).getD []) := by
    cases hf : s.view.frozen with
    | none => simp [Table.sets]
    | some f =>
      rw [Option.map_some, Option.getD_some, ← (h.stored.frozen f hf).1.shows.sets k]
      simp
  unfold setScan
  rw [mem_visited, and_iff_left not_mem_nil, mem_append, mem_windowSets, mem_flatMap, hruns, hfrozen,
    h.stored.mem.shows.sets k, ← or_and_right, mem_append, mem_append]

end EpochDB.Store.Read
