import EpochDB.Store.Sealed.Lookup

/-!
What the three sections of a run hold, as the table of the blocks it covers: of a run that is sealed
from a window, and of one that is merged from others.
-/

namespace EpochDB.Store

open List SortedMap

namespace Table

theorem valueAt_append (t t' : Table) (key : Bytes) (n : UInt64)
    : (t ++ t').valueAt key n = (t'.valueAt key n).or (t.valueAt key n) := by
  simp [valueAt, history_append, getLast?_append, Option.map_or]

theorem latest_append (t t' : Table) (key : Bytes) (n : UInt64)
    : (t ++ t').latest key n = (t'.latest key n).or (t.latest key n) := by
  simp [latest, history_append, getLast?_append]

theorem findSome?_reverse {ι α : Type} {read : ι → Option α} (answer : Table → Option α) {tab : ι → Table}
    (hnil : answer [] = none) (happend : ∀ t t', answer (t ++ t') = (answer t').or (answer t)) {parts : List ι}
    (h : ∀ i ∈ parts, read i = answer (tab i)) : parts.reverse.findSome? read = answer (parts.flatMap tab) := by
  induction parts with
  | nil => simp [hnil]
  | cons i parts ih =>
    rw [reverse_cons, findSome?_append, ih (fun j hj => h j (by simp [hj])), flatMap_cons, happend]
    simp [h i]

theorem oneOf_findSome?_reverse {ι α : Type} {read : ι → Option α} (answers : Table → List α) {tab : ι → Table}
    (hnil : answers [] = []) (happend : ∀ t t', answers (t ++ t') = answers t ++ answers t') {parts : List ι}
    (h : ∀ i ∈ parts, OneOf (read i) (answers (tab i)))
    : OneOf (parts.reverse.findSome? read) (answers (parts.flatMap tab)) := by
  induction parts with
  | nil => exact hnil
  | cons i parts ih =>
    have ih := ih (fun j hj => h j (by simp [hj]))
    have hi := h i (by simp)
    rw [reverse_cons, findSome?_append, flatMap_cons, happend]
    unfold OneOf at ih hi ⊢
    cases hrest : parts.reverse.findSome? read with
    | some a =>
      rw [hrest] at ih
      exact mem_append_right _ ih
    | none =>
      rw [hrest] at ih
      dsimp only at ih
      rw [ih, append_nil]
      simpa using hi

end Table

def Table.Earlier (t t' : Table) : Prop :=
  ∀ row ∈ t, ∀ row' ∈ t', ∀ n n', row.txnum = some n → row'.txnum = some n' → n < n'

namespace Sealed

def entries (sec : Sst) : List Posting := (sec.rows.filter (fun row => isPostingKey row.1)).flatMap entsOf

structure Run.Shows (r : Run) (t : Table) : Prop where
  chain : ∀ fam no, (r.sec .chain).get (numKey (famPrefix fam) no) = t.chainGet fam no
  stateSection : StateSection (r.sec .state)
  state : ∀ p, StateKey p → ∀ n, (r.sec .state).get (suffixed p n) = t.valueAt p n
  code : ∀ hash, OneOf ((r.sec .state).get (codeKey hash)) (t.codes hash)
  lookup : ∀ row ∈ (r.sec .lookup).rows, ChunkRow row ∨ NumKey row.1 ∨ SetKey row.1
  nums : ∀ key, NumKey key → (r.sec .lookup).get key = (t.lookupNum key).map Bytes.putUint64
  sets : ∀ key, SetKey key → (r.sec .lookup).get key = if key ∈ t.sets then some [] else none
  sorted : (entries (r.sec .lookup)).Pairwise Posting.lt
  posts : (entries (r.sec .lookup)).Perm t.posts

structure LookupSection (sec : Sst) : Prop where
  lookup : ∀ row ∈ sec.rows, ChunkRow row ∨ NumKey row.1 ∨ SetKey row.1
  sorted : (entries sec).Pairwise Posting.lt

theorem Run.Shows.lookupSection {r : Run} {t : Table} (h : r.Shows t) : LookupSection (r.sec .lookup) :=
  ⟨h.lookup, h.sorted⟩

variable {row : Bytes × Bytes} {rs : List Run}

theorem chunkRow_of_isPostingKey {sec : Sst} (h : LookupSection sec) (hrow : row ∈ sec.rows)
    (hkey : isPostingKey row.1 = true) : ChunkRow row := by
  rcases h.lookup row hrow with hchunk | hnum | hset
  . exact hchunk
  . rw [isPostingKey_of_numKey hnum] at hkey
    cases hkey
  . rw [isPostingKey_of_setKey hset] at hkey
    cases hkey

theorem ChunkRow.isGroup (h : ChunkRow row) {g : Bytes} {n : UInt64} (hkey : row.1 = suffixed g n) : IsGroup g := by
  rcases h.key with ⟨g', n', hg, heq⟩
  rw [hkey, suffixed_inj] at heq
  rw [heq.1]
  exact hg

theorem get_eq_of_mem {sec : Sst} {key : Bytes} {answer : Option Bytes}
    (h : ∀ val, (key, val) ∈ sec.rows ↔ answer = some val) : sec.get key = answer := by
  apply Option.ext
  intro val
  rw [get_eq_some, h]

theorem sealWindow_shows {m : Memtable} {t : Table} {tx tx' height height' : Nat}
    (ht : Tabled t tx tx' height height') (hm : m.Shows t)
    : ∃ r, sealWindow m = .ok r ∧ r.Shows t ∧ r.footer = ⟨m.baseTx, m.nextTx, m.baseHeight, m.nextHeight - 1⟩ := by
  have hchain := chainRows_pairwise hm.readable
  have hstate := stateRows_pairwise ht hm
  have hlookup := lookupRows_pairwise ht hm
  have hchunks := chunks_post ht hm
  have hposts : entries ⟨lookupRows m, hlookup⟩ = m.post.insertionSort Posting.le := by
    unfold entries
    rw [filter_lookupRows ht hm]
    exact hchunks.2
  refine ⟨_, by rw [sealWindow, writeSections, sst_eq_ok hchain, sst_eq_ok hstate, sst_eq_ok hlookup]; rfl, ?_, rfl⟩
  constructor
  . intro fam no
    apply get_eq_of_mem
    intro val
    rw [← hm.chain]
    exact mem_chainRows hm.readable
  . intro row hrow
    exact stateSection_stateRows ht hm hrow
  . intro p hp n
    apply get_eq_of_mem
    intro val
    exact mem_stateRows_suffixed ht hm hp
  . intro hash
    have hget : SortedMap.get (⟨stateRows m, hstate⟩ : Sst) (codeKey hash) = m.codeBlob hash := by
      apply get_eq_of_mem
      intro val
      exact mem_stateRows_code ht hm
    dsimp only
    rw [hget]
    exact hm.code hash
  . intro row hrow
    dsimp only at hrow
    rw [mem_lookupRows] at hrow
    rcases hrow with hrow | ⟨hrow, -⟩ | ⟨hrow, -⟩
    . exact .inl (hchunks.1 row hrow)
    . exact .inr (.inl (numKey_of_mem ht hm hrow))
    . exact .inr (.inr (setKey_of_mem ht hm hrow))
  . intro key hkey
    apply get_eq_of_mem
    intro val
    exact mem_lookupRows_num ht hm hkey
  . intro key hkey
    apply get_eq_of_mem
    intro val
    rw [mem_lookupRows_set ht hm hkey]
    by_cases hmem : key ∈ t.sets
    . simp [hmem, eq_comm]
    . simp [hmem]
  . dsimp only
    rw [hposts]
    exact post_sorted ht hm
  . dsimp only
    rw [hposts, ← hm.post]
    exact perm_insertionSort _ _

theorem mergeSection_eq (rs : List Run) (s : Section)
    : mergeSection rs s =
        .ok ((SortedMap.mergeAll (rs.map (·.sec s)).reverse).rows.length, SortedMap.mergeAll (rs.map (·.sec s)).reverse) := by
  have hmerge := KMerge.merge_eq (rs.map (·.sec s))
  rw [map_map] at hmerge
  unfold mergeSection
  rw [show (rs.map fun r => (r.sec s).rows) = rs.map ((·.rows) ∘ (·.sec s)) from rfl, hmerge]
  dsimp only
  rw [sst_eq_ok (SortedMap.mergeAll (rs.map (·.sec s)).reverse).sorted]
  rfl

def merged (rs : List Run) (s : Section) : Sst := SortedMap.mergeAll (rs.map (·.sec s)).reverse

theorem get_merged (rs : List Run) (s : Section) (key : Bytes)
    : (merged rs s).get key = rs.reverse.findSome? (fun r => (r.sec s).get key) := by
  rw [merged, get_mergeAll, ← map_reverse, findSome?_map]
  rfl

theorem mem_of_mem_merged {s : Section} (h : row ∈ (merged rs s).rows) : ∃ r ∈ rs, row ∈ (r.sec s).rows := by
  rw [← get_eq_some, get_merged] at h
  rcases exists_of_findSome?_eq_some h with ⟨r, hr, hget⟩
  exact ⟨r, mem_reverse.mp hr, get_eq_some.mp hget⟩

theorem merge_eq {first last : Run} (hfirst : rs.head? = some first) (hlast : rs.getLast? = some last)
    (hcont : contiguous rs = true)
    : ∃ r, merge rs = .ok r ∧ (∀ s, r.sec s = merged rs s) ∧
        r.footer = ⟨first.footer.fromTx, last.footer.toTx, first.footer.fromHeight, last.footer.toHeight⟩ := by
  refine ⟨⟨⟨first.footer.fromTx, last.footer.toTx, first.footer.fromHeight, last.footer.toHeight⟩, merged rs⟩, ?_,
    fun _ => rfl, rfl⟩
  unfold merge
  rw [hfirst, hlast, mergeSection_eq, mergeSection_eq, mergeSection_eq, hcont]
  simp only [Except.bind, bind, pure, Except.pure, Bool.not_true, Bool.false_eq_true, if_false, ne_eq,
    not_true_eq_false, or_self, Except.ok.injEq, Run.mk.injEq, true_and]
  funext s
  cases s <;> rfl

theorem sec_of_merge {r : Run} (h : merge rs = .ok r) (s : Section) : r.sec s = merged rs s := by
  cases hfirst : rs.head? with
  | none =>
    rw [merge, hfirst] at h
    cases h
  | some first =>
    cases hlast : rs.getLast? with
    | none =>
      rw [merge, hfirst, hlast] at h
      cases h
    | some last =>
      cases hcont : contiguous rs with
      | false =>
        rw [merge, hfirst, hlast, hcont] at h
        cases h
      | true =>
        rcases merge_eq hfirst hlast hcont with ⟨r', hmerge, hsec, -⟩
        rw [h, Except.ok.injEq] at hmerge
        rw [hmerge]
        exact hsec s

theorem rel_of_pairwise {α : Type} {R : α → α → Prop} {l : List α} (h : l.Pairwise R) {a b : α} (ha : a ∈ l)
    (hb : b ∈ l) : a = b ∨ R a b ∨ R b a := by
  rcases mem_iff_getElem.mp ha with ⟨i, hi, rfl⟩
  rcases mem_iff_getElem.mp hb with ⟨j, hj, rfl⟩
  rw [pairwise_iff_getElem] at h
  rcases Nat.lt_trichotomy i j with hlt | heq | hgt
  . exact .inr (.inl (h i j hi hj hlt))
  . subst heq
    exact .inl rfl
  . exact .inr (.inr (h j i hj hi hgt))

theorem group_le {r r' : Run} {t t' : Table} (h : r.Shows t) (h' : r'.Shows t') {row row' : Bytes × Bytes}
    (hrow : row ∈ (r.sec .lookup).rows) (hkey : isPostingKey row.1 = true)
    (hrow' : row' ∈ (r'.sec .lookup).rows) (hkey' : isPostingKey row'.1 = true) (hlt : row.1 < row'.1)
    {e e' : Posting} (he : e ∈ entsOf row) (he' : e' ∈ entsOf row')
    : e.group < e'.group ∨
      e.group = e'.group ∧ ∃ first ∈ entsOf row, ∃ first' ∈ entsOf row', first.txnum < first'.txnum := by
  have hchunk := chunkRow_of_isPostingKey h.lookupSection hrow hkey
  have hchunk' := chunkRow_of_isPostingKey h'.lookupSection hrow' hkey'
  rcases hchunk.head with ⟨first, hfirst, hfirstKey⟩
  rcases hchunk'.head with ⟨first', hfirst', hfirstKey'⟩
  have hfirst : first ∈ entsOf row := mem_of_head? hfirst
  have hfirst' : first' ∈ entsOf row' := mem_of_head? hfirst'
  have hgroup : e.group = first.group := by
    rw [group_of_mem_entsOf he, group_of_mem_entsOf hfirst]
  have hgroup' : e'.group = first'.group := by
    rw [group_of_mem_entsOf he', group_of_mem_entsOf hfirst']
  rw [hfirstKey, hfirstKey', prefixFree_isGroup.suffixed_lt_iff (hchunk.isGroup hfirstKey) (hchunk'.isGroup hfirstKey')]
    at hlt
  rw [hgroup, hgroup']
  exact hlt.imp id (fun ⟨hsame, hn⟩ => ⟨hsame, first, hfirst, first', hfirst', hn⟩)

section Merge

variable {l : List (Run × Table)} (hl : ∀ p ∈ l, p.1.Shows p.2)
  (hearlier : l.Pairwise (fun p q => p.2.Earlier q.2))

include hl

theorem txnum_of_mem_entries {p : Run × Table} (hp : p ∈ l) {e : Posting} (he : e ∈ entries (p.1.sec .lookup))
    : Row.post e ∈ p.2 :=
  Table.mem_posts.mp ((hl p hp).posts.mem_iff.mp he)

theorem exists_entry {p : Run × Table} (hp : p ∈ l) {row : Bytes × Bytes} (hrow : row ∈ (p.1.sec .lookup).rows)
    (hkey : isPostingKey row.1 = true)
    : ∃ e ∈ entries (p.1.sec .lookup), row.1 = suffixed e.group e.txnum := by
  rcases (chunkRow_of_isPostingKey (hl p hp).lookupSection hrow hkey).head with ⟨e, he, hkey'⟩
  refine ⟨e, ?_, hkey'⟩
  exact mem_flatMap.mpr ⟨row, mem_filter.mpr ⟨hrow, hkey⟩, mem_of_head? he⟩

include hearlier

theorem postingKeys_disjoint
    : l.Pairwise (fun p q => ∀ row ∈ (p.1.sec .lookup).rows, ∀ row' ∈ (q.1.sec .lookup).rows,
        isPostingKey row.1 = true → row.1 ≠ row'.1) := by
  apply hearlier.imp_of_mem
  intro p q hp hq hpq row hrow row' hrow' hkey heq
  rcases exists_entry hl hp hrow hkey with ⟨e, he, hkeye⟩
  rw [heq] at hkey
  rcases exists_entry hl hq hrow' hkey with ⟨e', he', hkeye'⟩
  rw [heq, hkeye', suffixed_inj] at hkeye
  have hlt := hpq _ (txnum_of_mem_entries hl hp he) _ (txnum_of_mem_entries hl hq he') _ _ rfl rfl
  rw [hkeye.2] at hlt
  exact absurd hlt (UInt64.lt_irrefl _)

theorem merged_postings_perm
    : ((merged (l.map (·.1)) .lookup).rows.filter (fun row => isPostingKey row.1)).Perm
        (l.flatMap (fun p => (p.1.sec .lookup).rows.filter (fun row => isPostingKey row.1))) := by
  have hdisjoint := postingKeys_disjoint hl hearlier
  have hnodup : ∀ sec : Sst, sec.rows.Nodup := by
    intro sec
    exact sec.sorted.imp (fun hlt heq => absurd hlt (by simp [heq]))
  rw [perm_ext_iff_of_nodup]
  . rintro ⟨key, val⟩
    rw [mem_filter, mem_flatMap]
    constructor
    . rintro ⟨hrow, hkey⟩
      rcases mem_of_mem_merged hrow with ⟨r, hr, hmem⟩
      rw [mem_map] at hr
      rcases hr with ⟨p, hp, rfl⟩
      exact ⟨p, hp, mem_filter.mpr ⟨hmem, hkey⟩⟩
    . rintro ⟨p, hp, hrow⟩
      rw [mem_filter] at hrow
      refine ⟨?_, hrow.2⟩
      rw [← get_eq_some, get_merged, findSome?_eq_some_iff]
      -- no other input has the key
      rcases mem_iff_append.mp hp with ⟨before, after, rfl⟩
      refine ⟨(after.map (·.1)).reverse, p.1, (before.map (·.1)).reverse, by simp, get_eq_some.mpr hrow.1, ?_⟩
      intro r hr
      rw [mem_reverse, mem_map] at hr
      rcases hr with ⟨q, hq, rfl⟩
      rw [get_eq_none]
      intro v hv
      have hpq := rel_of_pairwise_cons (pairwise_append.mp hdisjoint).2.1 hq
      exact hpq _ hrow.1 _ hv hrow.2 rfl
  . exact (hnodup _).filter _
  . rw [nodup_flatMap]
    refine ⟨fun p _ => (hnodup _).filter _, ?_⟩
    apply hdisjoint.imp
    intro p q hpq row hrow hrow'
    rw [mem_filter] at hrow hrow'
    exact hpq row hrow.1 row hrow'.1 hrow.2 rfl

theorem merged_entries_perm
    : (entries (merged (l.map (·.1)) .lookup)).Perm (l.flatMap (fun p => entries (p.1.sec .lookup))) := by
  have hperm := (merged_postings_perm hl hearlier).flatMap_right entsOf
  rw [flatMap_assoc] at hperm
  exact hperm

theorem entry_lt {p q : Run × Table} (hp : p ∈ l) (hq : q ∈ l) {row row' : Bytes × Bytes}
    (hrow : row ∈ (p.1.sec .lookup).rows) (hkey : isPostingKey row.1 = true)
    (hrow' : row' ∈ (q.1.sec .lookup).rows) (hkey' : isPostingKey row'.1 = true) (hlt : row.1 < row'.1)
    {e e' : Posting} (he : e ∈ entsOf row) (he' : e' ∈ entsOf row') : Posting.lt e e' := by
  have hmem : row ∈ (p.1.sec .lookup).rows.filter (fun row => isPostingKey row.1) := mem_filter.mpr ⟨hrow, hkey⟩
  have hmem' : row' ∈ (q.1.sec .lookup).rows.filter (fun row => isPostingKey row.1) :=
    mem_filter.mpr ⟨hrow', hkey'⟩
  have htab := txnum_of_mem_entries hl hp (mem_flatMap.mpr ⟨row, hmem, he⟩)
  have htab' := txnum_of_mem_entries hl hq (mem_flatMap.mpr ⟨row', hmem', he'⟩)
  rcases rel_of_pairwise hearlier hp hq with hpq | hpq | hqp
  . subst hpq
    have hboth := (pairwise_flatMap.mp (hl p hp).sorted).2.imp₂ (fun _ _ h h' => And.intro h h')
      ((p.1.sec .lookup).sorted.filter (fun row => isPostingKey row.1))
    rcases rel_of_pairwise hboth hmem hmem' with heq | hrel | hrel
    . rw [heq] at hlt
      exact absurd hlt (lt_irrefl _)
    . exact hrel.1 e he e' he'
    . exact absurd hrel.2 (lt_asymm hlt)
  . rcases group_le (hl p hp) (hl q hq) hrow hkey hrow' hkey' hlt he he' with hg | ⟨hg, -⟩
    . exact .inl hg
    . exact .inr ⟨hg, hpq _ htab _ htab' _ _ rfl rfl⟩
  . rcases group_le (hl p hp) (hl q hq) hrow hkey hrow' hkey' hlt he he' with hg | ⟨-, first, hfirst, first', hfirst', hn⟩
    . exact .inl hg
    . have hfirst := txnum_of_mem_entries hl hp (mem_flatMap.mpr ⟨row, hmem, hfirst⟩)
      have hfirst' := txnum_of_mem_entries hl hq (mem_flatMap.mpr ⟨row', hmem', hfirst'⟩)
      have hgt := hqp _ hfirst' _ hfirst _ _ rfl rfl
      exact absurd hn (UInt64.not_lt.mpr (UInt64.le_of_lt hgt))

theorem merged_sorted : (entries (merged (l.map (·.1)) .lookup)).Pairwise Posting.lt := by
  unfold entries
  rw [pairwise_flatMap]
  have hfrom : ∀ row ∈ (merged (l.map (·.1)) .lookup).rows.filter (fun row => isPostingKey row.1),
      ∃ p ∈ l, row ∈ (p.1.sec .lookup).rows ∧ isPostingKey row.1 = true := by
    intro row hrow
    have hmem := (merged_postings_perm hl hearlier).mem_iff.mp hrow
    rw [mem_flatMap] at hmem
    rcases hmem with ⟨p, hp, hmem⟩
    rw [mem_filter] at hmem
    exact ⟨p, hp, hmem⟩
  constructor
  . intro row hrow
    rcases hfrom row hrow with ⟨p, hp, hmem⟩
    exact (pairwise_flatMap.mp (hl p hp).sorted).1 row (mem_filter.mpr hmem)
  . apply ((merged (l.map (·.1)) .lookup).sorted.filter _).imp_of_mem
    intro row row' hrow hrow' hlt e he e' he'
    rcases hfrom row hrow with ⟨p, hp, hmem, hkey⟩
    rcases hfrom row' hrow' with ⟨q, hq, hmem', hkey'⟩
    exact entry_lt hl hearlier hp hq hmem hkey hmem' hkey' hlt he he'

theorem merged_shows {r : Run} (hr : ∀ s, r.sec s = merged (l.map (·.1)) s) : r.Shows (l.flatMap (·.2)) := by
  have hget : ∀ s key, (r.sec s).get key = l.reverse.findSome? (fun p => (p.1.sec s).get key) := by
    intro s key
    rw [hr, get_merged, ← map_reverse, findSome?_map]
    rfl
  have hmem : ∀ s row, row ∈ (r.sec s).rows → ∃ p ∈ l, row ∈ (p.1.sec s).rows := by
    intro s row hrow
    rw [hr] at hrow
    rcases mem_of_mem_merged hrow with ⟨r, hr, hrow⟩
    rw [mem_map] at hr
    rcases hr with ⟨p, hp, rfl⟩
    exact ⟨p, hp, hrow⟩
  constructor
  . intro fam no
    rw [hget]
    exact Table.findSome?_reverse (fun t => t.chainGet fam no) rfl
      (fun t t' => Table.chainGet_append t t' fam no) (fun p hp => (hl p hp).chain fam no)
  . intro row hrow
    rcases hmem _ _ hrow with ⟨p, hp, hrow⟩
    exact (hl p hp).stateSection row hrow
  . intro key hkey n
    rw [hget]
    exact Table.findSome?_reverse (fun t => t.valueAt key n) rfl
      (fun t t' => Table.valueAt_append t t' key n) (fun p hp => (hl p hp).state key hkey n)
  . intro hash
    rw [hget]
    exact Table.oneOf_findSome?_reverse (fun t => t.codes hash) rfl
      (fun t t' => Table.codes_append t t' hash) (fun p hp => (hl p hp).code hash)
  . intro row hrow
    rcases hmem _ _ hrow with ⟨p, hp, hrow⟩
    exact (hl p hp).lookup row hrow
  . intro key hkey
    rw [hget]
    exact Table.findSome?_reverse (fun t => (t.lookupNum key).map Bytes.putUint64) rfl
      (fun t t' => by rw [Table.lookupNum_append, Option.map_or]) (fun p hp => (hl p hp).nums key hkey)
  . intro key hkey
    rw [hget]
    refine Table.findSome?_reverse (fun t => if key ∈ t.sets then some [] else none) rfl ?_
      (fun p hp => (hl p hp).sets key hkey)
    intro t t'
    by_cases h : key ∈ t.sets <;> by_cases h' : key ∈ t'.sets <;> simp [Table.sets_append, h, h']
  . rw [hr]
    exact merged_sorted hl hearlier
  . rw [hr]
    have hposts : Table.posts (l.flatMap (·.2)) = l.flatMap (·.2.posts) := by
      unfold Table.posts
      rw [filterMap_flatMap]
    rw [hposts]
    exact (merged_entries_perm hl hearlier).trans ((List.Perm.refl l).flatMap (fun p hp => (hl p hp).posts))

end Merge

end Sealed

end EpochDB.Store
