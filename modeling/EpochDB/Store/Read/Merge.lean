import EpochDB.Store.Read.Holds

/-!
A merge preserves every answer: the run merged from runs that follow each other answers as the descent
over them does.
-/

namespace EpochDB.Store

open List
open Sealed (FilterPolicy Section)

theorem Took.addAll {crypto : Crypto} {file : LogFile} {m m' : Memtable} {bs bs' : List BlockWrite}
    (h : Took crypto m bs) (hslots : m.nextTx.toNat + slots bs' < 2 ^ 64) (hbs : ∀ b ∈ bs', b.HasNext)
    (hrun : (Memtable.addAll crypto file bs').run m = .ok () m') : ∃ taken, Took crypto m' taken := by
  induction bs' generalizing m bs with
  | nil =>
    cases hrun
    exact ⟨bs, h⟩
  | cons b bs' ih =>
    rw [slots_cons] at hslots
    rw [forall_mem_cons] at hbs
    unfold Memtable.addAll at hrun ih
    rw [EStateM.run_forM_cons, EStateM.run_bind_eq_ok] at hrun
    rcases hrun with ⟨_, m1, hadd, hrest⟩
    rcases h.add hbs.1 (by omega) hadd with ⟨-, rfl⟩ | ⟨-, -, htook, hbase, -⟩
    . exact ih h (by omega) hbs.2 hrest
    . refine ih htook ?_ hbs.2 hrest
      have hnext := h.nextTx
      have hnext' := htook.nextTx
      rw [hbase, slots_append, slots_cons, slots_nil] at hnext'
      omega

def SealedWindow (crypto : Crypto) (r : Sealed.Run) : Prop :=
  ∃ (file : LogFile) (path : LogName) (baseTx baseHeight : UInt64) (bs : List BlockWrite) (m : Memtable),
    baseTx.toNat + slots bs < 2 ^ 64 ∧ (∀ b ∈ bs, b.HasNext) ∧
      (Memtable.addAll crypto file bs).run (Memtable.fresh path baseTx baseHeight) = .ok () m ∧
      m.started = true ∧ Sealed.sealWindow m = .ok r

theorem SealedWindow.holds {crypto : Crypto} {r : Sealed.Run} (h : SealedWindow crypto r) : ∃ bs, Holds crypto r bs := by
  rcases h with ⟨file, path, baseTx, baseHeight, bs, m, hslots, hnext, hrun, hstarted, hseal⟩
  rcases (took_fresh crypto path baseTx baseHeight).addAll hslots hnext hrun with ⟨taken, htook⟩
  rcases htook.sealWindow (htook.started.mp hstarted) with ⟨r', hseal', hholds, -⟩
  rw [hseal, Except.ok.injEq] at hseal'
  rw [hseal']
  exact ⟨taken, hholds⟩

theorem exists_blocks {crypto : Crypto} {rs : List Sealed.Run} (h : ∀ r ∈ rs, ∃ bs, Holds crypto r bs)
    : ∃ l : RunBlocks, l.map (·.1) = rs ∧ ∀ p ∈ l, Holds crypto p.1 p.2 := by
  induction rs with
  | nil => exact ⟨[], rfl, by simp⟩
  | cons r rs ih =>
    rcases h r (by simp) with ⟨bs, hbs⟩
    rcases ih (fun r hr => h r (by simp [hr])) with ⟨l, rfl, hl⟩
    refine ⟨(r, bs) :: l, rfl, ?_⟩
    intro p hp
    rw [mem_cons] at hp
    rcases hp with rfl | hp
    . exact hbs
    . exact hl p hp

section Scan

variable {crypto : Crypto} {l : RunBlocks} (policy : FilterPolicy)
  (hl : ∀ p ∈ l, Holds crypto p.1 p.2)

include hl

theorem group_entries_sorted (hcont : Sealed.contiguous (l.map (·.1)) = true) (g : Bytes) (q : Posting → Bool)
    : (l.flatMap (fun p => ((Sealed.entries (p.1.sec .lookup)).filter q).filter (fun e => e.group = g))).Pairwise
        Sealed.Posting.lt := by
  rw [pairwise_flatMap]
  constructor
  . intro p hp
    exact ((hl p hp).shows.sorted.filter _).filter _
  . apply (pairwise_of_contiguous hl hcont).imp_of_mem
    intro p p' hp hp' hpp e he e' he'
    simp only [mem_filter, decide_eq_true_eq] at he he'
    right
    refine ⟨he.2.trans he'.2.symm, ?_⟩
    have hrow := Table.mem_posts.mp ((hl p hp).shows.posts.mem_iff.mp he.1.1)
    have hrow' := Table.mem_posts.mp ((hl p' hp').shows.posts.mem_iff.mp he'.1.1)
    have hlt := ((hl p hp).txnum hrow rfl).2
    have hge := ((hl p' hp').txnum hrow' rfl).1
    exact UInt64.lt_of_lt_of_le hlt (UInt64.le_trans hpp.1 hge)

omit hl in
theorem postingLt_asymm {p q : Posting} (h : Sealed.Posting.lt p q) (h' : Sealed.Posting.lt q p) : p = q := by
  have hlt := Sealed.postingLt_trans h h'
  rcases hlt with hlt | ⟨-, hlt⟩
  . exact absurd hlt (lt_irrefl _)
  . exact absurd hlt (UInt64.lt_irrefl _)

theorem merged_group (hcont : Sealed.contiguous (l.map (·.1)) = true) (g : Bytes) (q : Posting → Bool)
    : ((Sealed.entries (Sealed.merged (l.map (·.1)) .lookup)).filter q).filter (fun e => e.group = g) =
        l.flatMap (fun p => ((Sealed.entries (p.1.sec .lookup)).filter q).filter (fun e => e.group = g)) := by
  have hshows : ∀ p ∈ l.map (fun p => (p.1, table crypto p.1.footer.fromTx p.2)), p.1.Shows p.2 := by
    intro p hp
    rw [mem_map] at hp
    rcases hp with ⟨p, hp, rfl⟩
    exact (hl p hp).shows
  have hearlier := earlier_of_contiguous hl hcont
  have hperm := Sealed.merged_entries_perm hshows hearlier
  have hsorted := Sealed.merged_sorted hshows hearlier
  rw [map_tables] at hperm hsorted
  rw [flatMap_map] at hperm
  refine List.Perm.eq_of_pairwise ?_ ((hsorted.filter _).filter _) (group_entries_sorted hl hcont g q) ?_
  . intro e e' _ _ h h'
    exact postingLt_asymm h h'
  . have hfilter := (hperm.filter q).filter (fun e => e.group = g)
    rw [filter_flatMap, filter_flatMap] at hfilter
    exact hfilter

end Scan

structure AnswersAs (policy : FilterPolicy) (r : Sealed.Run) (rs : List Sealed.Run) : Prop where
  get : ∀ s key, r.get policy s key = rs.reverse.findSome? (fun r => r.get policy s key)
  chainRow : ∀ fam n, Read.runChainRow policy [r] fam n (byHeight fam) = Read.runChainRow policy rs fam n (byHeight fam)
  latest : ∀ p n, StateKey p → r.latest policy .state p n = Read.runLatest policy rs p n
  scanChunks : ∀ pfx lo hi, isPostingKey pfx = true → ∃ (es : List Posting) (ess : List (List Posting)),
    r.scanChunks policy pfx lo hi = .ok es ∧ rs.map (fun r => r.scanChunks policy pfx lo hi) = ess.map .ok ∧
      es.Pairwise Sealed.Posting.lt ∧
      ∀ g, es.filter (fun e => e.group = g) = ess.flatMap (fun es => es.filter (fun e => e.group = g))
  scanSet : ∀ pfx, prefixSet <+: pfx → (r.scanSet policy pfx).Pairwise (· < ·) ∧
    ∀ key, key ∈ r.scanSet policy pfx ↔ ∃ r ∈ rs, key ∈ r.scanSet policy pfx

structure Unites (rs : List Sealed.Run) (s : Section) (n : Nat) (sec : Sealed.Sst) : Prop where
  ascending : sec.rows.Pairwise (fun row row' => row.1 < row'.1)
  keys : ∀ key, key ∈ sec.rows.map (·.1) ↔ ∃ r ∈ rs, key ∈ (r.sec s).rows.map (·.1)
  newest : ∀ key, sec.get key = rs.reverse.findSome? (fun r => (r.sec s).get key)
  count : n = (rs.flatMap (fun r => (r.sec s).rows.map (·.1))).dedup.length

theorem unites_merged (rs : List Sealed.Run) (s : Section)
    : Unites rs s (Sealed.merged rs s).rows.length (Sealed.merged rs s) := by
  have hkeys : ∀ key, key ∈ (Sealed.merged rs s).rows.map (·.1) ↔ ∃ r ∈ rs, key ∈ (r.sec s).rows.map (·.1) := by
    have hmem : ∀ (sec : Sealed.Sst) (key : Bytes), key ∈ sec.rows.map (·.1) ↔ (sec.get key).isSome = true := by
      intro sec key
      rw [Option.isSome_iff_exists, mem_map]
      constructor
      . rintro ⟨row, hrow, rfl⟩
        exact ⟨row.2, SortedMap.get_eq_some.mpr hrow⟩
      . rintro ⟨val, hval⟩
        exact ⟨(key, val), SortedMap.get_eq_some.mp hval, rfl⟩
    intro key
    rw [hmem, Sealed.get_merged, findSome?_isSome_iff]
    constructor
    . rintro ⟨r, hr, hget⟩
      exact ⟨r, mem_reverse.mp hr, (hmem _ key).mpr hget⟩
    . rintro ⟨r, hr, hget⟩
      exact ⟨r, mem_reverse.mpr hr, (hmem _ key).mp hget⟩
  refine ⟨(Sealed.merged rs s).sorted, hkeys, fun key => Sealed.get_merged rs s key, ?_⟩
  have hnodup : ((Sealed.merged rs s).rows.map (·.1)).Nodup := by
    unfold List.Nodup
    rw [pairwise_map]
    exact (Sealed.merged rs s).sorted.imp (fun hlt => ne_of_lt hlt)
  have hperm : ((Sealed.merged rs s).rows.map (·.1)).Perm (rs.flatMap (fun r => (r.sec s).rows.map (·.1))).dedup := by
    rw [perm_ext_iff_of_nodup hnodup (nodup_dedup _)]
    intro key
    rw [hkeys, mem_dedup, mem_flatMap]
  rw [← hperm.length_eq, length_map]

section

variable {crypto : Crypto} {l : RunBlocks} (policy : FilterPolicy)
  (hl : ∀ p ∈ l, Holds crypto p.1 p.2)

include hl

theorem answersAs_merged {first : Sealed.Run × List BlockWrite} (hfirst : l.head? = some first)
    (hcont : Sealed.contiguous (l.map (·.1)) = true) {r : Sealed.Run} (hr : Holds crypto r (l.flatMap (·.2)))
    (hsec : ∀ s, r.sec s = Sealed.merged (l.map (·.1)) s) (hfrom : r.footer.fromTx = first.1.footer.fromTx)
    : AnswersAs policy r (l.map (·.1)) := by
  have htable : table crypto r.footer.fromTx (l.flatMap (·.2)) = runTable crypto l := by
    cases l with
    | nil => cases hfirst
    | cons p l =>
      cases hfirst
      rw [hfrom]
      exact table_of_contiguous (fun q hq => hl q (by simp [hq])) (hl first (by simp)) hcont
  have hone : runTable crypto [(r, l.flatMap (·.2))] = runTable crypto l := by
    rw [← htable]
    simp [runTable]
  have hholds : ∀ p ∈ [(r, l.flatMap (·.2))], Holds crypto p.1 p.2 := by
    intro p hp
    rw [mem_singleton] at hp
    rw [hp]
    exact hr
  constructor
  . intro s key
    simp only [Sealed.get_eq]
    rw [hsec, Sealed.get_merged]
  . intro fam n
    rw [runChainRow_eq policy hl hcont, ← hone]
    exact runChainRow_eq policy hholds rfl fam n
  . intro p n hp
    by_cases hn : n = 18446744073709551615
    . subst hn
      rw [Sealed.latest_last]
      symm
      unfold Read.runLatest
      rw [findSome?_eq_none_iff]
      intro r _
      exact Sealed.latest_last policy r .state p
    . rw [runLatest_eq policy hl hp hn, ← htable]
      exact Sealed.latest_eq policy hr.shows hr.tabled.before hp hn
  . intro pfx lo hi hpfx
    refine ⟨_, l.map (fun p => ((Sealed.entries (p.1.sec .lookup)).filter (fun e => pfx.isPrefixOf e.group)).filter
      (Sealed.inRange lo hi)), Sealed.scanChunks_eq policy hr.shows.lookupSection hpfx lo hi, ?_, (hr.shows.sorted.filter _).filter _, ?_⟩
    . rw [map_map, map_map]
      apply map_congr_left
      intro p hp
      exact Sealed.scanChunks_eq policy (hl p hp).shows.lookupSection hpfx lo hi
    . intro g
      have hgroup := merged_group hl hcont g (fun e => Sealed.inRange lo hi e && pfx.isPrefixOf e.group)
      simp only [← filter_filter] at hgroup
      rw [hsec, hgroup, flatMap_map]
  . intro pfx hpfx
    refine ⟨Sealed.scanSet_pairwise policy hr.shows hpfx, ?_⟩
    intro key
    have hsets : key ∈ (runTable crypto l).sets ↔ ∃ p ∈ l, key ∈ (table crypto p.1.footer.fromTx p.2).sets := by
      unfold runTable Table.sets
      rw [filterMap_flatMap, mem_flatMap]
    rw [Sealed.mem_scanSet policy hr.shows hpfx, htable, hsets]
    constructor
    . rintro ⟨⟨p, hp, hmem⟩, hkey⟩
      exact ⟨p.1, mem_map_of_mem hp, (Sealed.mem_scanSet policy (hl p hp).shows hpfx).mpr ⟨hmem, hkey⟩⟩
    . rintro ⟨r', hr', hmem⟩
      rw [mem_map] at hr'
      rcases hr' with ⟨p, hp, rfl⟩
      rw [Sealed.mem_scanSet policy (hl p hp).shows hpfx] at hmem
      exact ⟨⟨p, hp, hmem.1⟩, hmem.2⟩

end

/--
Runs that were sealed from windows and follow each other merge into one run that answers every query
as the descent over them does, section by section the union of their rows.
-/
theorem merge_preserves_answers (policy : FilterPolicy) {crypto : Crypto} {rs : List Sealed.Run}
    (hrs : ∀ r ∈ rs, SealedWindow crypto r) (hcont : Sealed.contiguous rs = true) (hne : rs ≠ [])
    : ∃ r, Sealed.merge rs = .ok r ∧ AnswersAs policy r rs ∧
        ∀ s, ∃ n, Sealed.mergeSection rs s = .ok (n, r.sec s) ∧ Unites rs s n (r.sec s) := by
  rcases exists_blocks (fun r hr => (hrs r hr).holds) with ⟨l, rfl, hl⟩
  cases hfirst : l.head? with
  | none =>
    rw [head?_eq_none_iff] at hfirst
    rw [hfirst] at hne
    exact absurd rfl hne
  | some first =>
    cases hlast : l.getLast? with
    | none =>
      rw [getLast?_eq_none_iff] at hlast
      rw [hlast] at hne
      exact absurd rfl hne
    | some last =>
      rcases merge_holds hl hfirst hlast hcont with ⟨r, hmerge, hholds, hsec, hfooter⟩
      refine ⟨r, hmerge, answersAs_merged policy hl hfirst hcont hholds hsec (by rw [hfooter]), ?_⟩
      intro s
      rw [hsec]
      exact ⟨_, Sealed.mergeSection_eq _ s, unites_merged _ s⟩

def exactPolicy : FilterPolicy where
  mayContain keys key := keys.contains key
  complete keys key h := by simpa using h

def oneBlockRun (baseTx height : UInt64) : Option Sealed.Run :=
  match (Memtable.addAll Memtable.emptyBlockCrypto goodLog [Memtable.logBlock height]).run
    (Memtable.fresh .window baseTx height) with
  | .ok _ m => if m.started then (Sealed.sealWindow m).toOption else none
  | .error _ _ => none

theorem sealedWindow_oneBlockRun {baseTx height : UInt64} (htx : baseTx.toNat + 2 < 2 ^ 64)
    (h : height.toNat + 1 < 2 ^ 64) {r : Sealed.Run} (hr : oneBlockRun baseTx height = some r) : SealedWindow Memtable.emptyBlockCrypto r := by
  unfold oneBlockRun at hr
  split at hr
  . next m hm =>
    split at hr
    . next hstarted =>
      refine ⟨_, _, baseTx, height, _, m, ?_, ?_, hm, hstarted, ?_⟩
      . simpa [slots, BlockWrite.slots, Memtable.logBlock] using htx
      . simpa [BlockWrite.HasNext, Memtable.logBlock] using h
      . cases hseal : Sealed.sealWindow m with
        | ok r' =>
          rw [hseal] at hr
          cases hr
          rfl
        | error e =>
          rw [hseal] at hr
          cases hr
    . cases hr
  . cases hr

theorem merge_preserves_answers_two_blocks
    : ∃ r r' merged, oneBlockRun 0 1 = some r ∧ oneBlockRun 2 2 = some r' ∧
        Sealed.merge [r, r'] = .ok merged ∧ AnswersAs exactPolicy merged [r, r'] := by
  have hfooters : (oneBlockRun 0 1).map (·.footer) = some ⟨0, 2, 1, 1⟩ ∧
      (oneBlockRun 2 2).map (·.footer) = some ⟨2, 4, 2, 2⟩ := by decide +kernel
  simp only [Option.map_eq_some_iff] at hfooters
  rcases hfooters with ⟨⟨r, hr, hfooter⟩, ⟨r', hr', hfooter'⟩⟩
  have hcont : Sealed.contiguous [r, r'] = true := by
    simp only [Sealed.contiguous, hfooter, hfooter']
    decide
  have hrs : ∀ x ∈ [r, r'], SealedWindow Memtable.emptyBlockCrypto x := by
    intro x hx
    simp only [mem_cons, not_mem_nil, or_false] at hx
    rcases hx with rfl | rfl
    . exact sealedWindow_oneBlockRun (by decide) (by decide) hr
    . exact sealedWindow_oneBlockRun (by decide) (by decide) hr'
  rcases merge_preserves_answers exactPolicy hrs hcont (by simp) with ⟨merged, hmerge, hanswers, -⟩
  exact ⟨r, r', merged, hr, hr', hmerge, hanswers⟩

end EpochDB.Store
