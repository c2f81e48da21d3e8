import EpochDB.Lib.Transition
import EpochDB.Store.Read.Merge

/-!
The store as the readers see it while blocks are written and windows are cut, sealed and merged: its
parts, oldest first, follow each other and hold the blocks that were taken.
-/

namespace EpochDB.Store.Read

open List Option
open Sealed (FilterPolicy)

inductive Event where
  | write (file : LogFile) (b : BlockWrite)
  | cut
  | publish
  | merge (start stop : Nat)

structure Sys where
  view : View
  blocks : List BlockWrite

def Sys.init : Sys := ⟨⟨Memtable.fresh .window 0 0, none, []⟩, []⟩

def accept (bs : List BlockWrite) (b : BlockWrite) : List BlockWrite :=
  match bs.getLast? with
  | some last => if b.height ≤ last.height then bs else bs ++ [b]
  | none => bs ++ [b]

def step (crypto : Crypto) (s : Sys) : Event → Option Sys
  | .write file b =>
    match (Memtable.add crypto file b).run s.view.mem with
    | .ok _ m => some ⟨{ s.view with mem := m }, accept s.blocks b⟩
    | .error _ _ => none
  | .cut =>
    let m := s.view.mem
    if s.view.frozen.isSome || !m.started || m.nextHeight = m.baseHeight then
      none
    else
      some { s with view := ⟨Memtable.fresh .window m.nextTx m.nextHeight, some { m with path := .frozen }, s.view.runs⟩ }
  | .publish =>
    match s.view.frozen with
    | some m =>
      match Sealed.sealWindow m with
      | .ok r => some { s with view := ⟨s.view.mem, none, s.view.runs ++ [r]⟩ }
      | .error _ => none
    | none => none
  | .merge start stop =>
    match Sealed.merge ((s.view.runs.take stop).drop start) with
    | .ok r =>
      some { s with view := { s.view with runs := s.view.runs.take start ++ [r] ++ s.view.runs.drop stop } }
    | .error _ => none

variable {crypto : Crypto}

theorem step_cases {s s' : Sys} {e : Event} (h : step crypto s e = some s')
    : (∃ file b m, e = .write file b ∧ (Memtable.add crypto file b).run s.view.mem = .ok () m ∧
        s' = ⟨⟨m, s.view.frozen, s.view.runs⟩, accept s.blocks b⟩) ∨
      (e = .cut ∧ s.view.frozen = none ∧ s.view.mem.started = true ∧
        s' = ⟨⟨Memtable.fresh .window s.view.mem.nextTx s.view.mem.nextHeight, some { s.view.mem with path := .frozen },
          s.view.runs⟩, s.blocks⟩) ∨
      (∃ f r, e = .publish ∧ s.view.frozen = some f ∧ Sealed.sealWindow f = .ok r ∧
        s' = ⟨⟨s.view.mem, none, s.view.runs ++ [r]⟩, s.blocks⟩) ∨
      ∃ start stop r, e = .merge start stop ∧ Sealed.merge ((s.view.runs.take stop).drop start) = .ok r ∧
        s' = ⟨⟨s.view.mem, s.view.frozen, s.view.runs.take start ++ [r] ++ s.view.runs.drop stop⟩, s.blocks⟩ := by
  cases e with
  | write file b =>
    simp only [step] at h
    split at h
    . next m hrun => exact .inl ⟨file, b, m, rfl, hrun, (Option.some.inj h).symm⟩
    . cases h
  | cut =>
    simp only [step] at h
    split at h
    . cases h
    . next hcond =>
      simp only [Bool.or_eq_true, decide_eq_true_eq, not_or, isSome_iff_ne_none, ne_eq, not_not,
        Bool.not_eq_true'] at hcond
      exact .inr (.inl ⟨rfl, hcond.1.1, by simpa using hcond.1.2, (Option.some.inj h).symm⟩)
  | publish =>
    simp only [step] at h
    split at h
    . next f hf =>
      split at h
      . next r hseal => exact .inr (.inr (.inl ⟨f, r, rfl, hf, hseal, (Option.some.inj h).symm⟩))
      . cases h
    . cases h
  | merge start stop =>
    simp only [step] at h
    split at h
    . next r hmerge => exact .inr (.inr (.inr ⟨start, stop, r, rfl, hmerge, (Option.some.inj h).symm⟩))
    . cases h

structure Span where
  baseTx : UInt64
  nextTx : UInt64
  baseHeight : Nat
  nextHeight : Nat
  deriving DecidableEq, Repr

def Span.Follows (p q : Span) : Prop := q.baseTx = p.nextTx ∧ q.baseHeight = p.nextHeight

def runSpan (r : Sealed.Run) : Span :=
  ⟨r.footer.fromTx, r.footer.toTx, r.footer.fromHeight.toNat, r.footer.toHeight.toNat + 1⟩

def memSpan (m : Memtable) : Span := ⟨m.baseTx, m.nextTx, m.baseHeight.toNat, m.nextHeight.toNat⟩

def View.older (v : View) : List Span := v.runs.map runSpan ++ (v.frozen.map memSpan).toList

structure Stored (crypto : Crypto) (v : View) (l : RunBlocks) (fbs mbs : List BlockWrite) : Prop where
  runs : v.runs = l.map (·.1)
  holds : ∀ p ∈ l, Holds crypto p.1 p.2
  frozen : ∀ f, v.frozen = some f → Took crypto f fbs ∧ fbs ≠ []
  thawed : v.frozen = none → fbs = []
  mem : Took crypto v.mem mbs
  chain : (v.older ++ [memSpan v.mem]).IsChain Span.Follows
  zero : ∀ s ∈ (v.older ++ [memSpan v.mem]).head?, s.baseTx = 0
  start : v.older = [] → mbs = [] → v.mem.nextHeight = 0

theorem stored_init (crypto : Crypto) : Stored crypto Sys.init.view [] [] [] where
  runs := rfl
  holds := by simp
  frozen := by simp [Sys.init]
  thawed := fun _ => rfl
  mem := took_fresh crypto .window 0 0
  chain := List.IsChain.singleton _
  zero := by
    intro s hs
    cases hs
    rfl
  start := fun _ _ => rfl

section Stored

variable {crypto : Crypto} {v : View} {l : RunBlocks} {fbs mbs : List BlockWrite}

theorem Stored.nextHeight_pos (h : Stored crypto v l fbs mbs) {s : Span} (hs : s ∈ v.older) : 0 < s.nextHeight := by
  unfold View.older at hs
  rw [mem_append] at hs
  cases hs with
  | inl hs =>
    rw [List.mem_map] at hs
    rcases hs with ⟨r, -, rfl⟩
    exact Nat.succ_pos _
  | inr hs =>
    rw [mem_toList, map_eq_some_iff] at hs
    rcases hs with ⟨f, hf, rfl⟩
    rcases h.frozen f hf with ⟨htook, hne⟩
    have hnext := htook.nextHeight
    have hlen := length_pos_iff.mpr hne
    unfold memSpan
    dsimp only
    omega

theorem Stored.follows (h : Stored crypto v l fbs mbs) {s : Span} (hs : v.older.getLast? = some s)
    : s.Follows (memSpan v.mem) :=
  (isChain_append.mp h.chain).2.2 s hs _ rfl

theorem Stored.base_of_write (h : Stored crypto v l fbs mbs) {b : BlockWrite}
    (hheight : v.mem.nextHeight ≠ 0 → b.height = v.mem.nextHeight) (hold : v.older ≠ [])
    : (v.mem.begun b.height).baseHeight = v.mem.baseHeight := by
  cases hlast : v.older.getLast? with
  | none =>
    rw [getLast?_eq_none_iff] at hlast
    exact absurd hlast hold
  | some s =>
    have hpos := h.nextHeight_pos (mem_of_getLast? hlast)
    have hbase := (h.follows hlast).2
    have hnext := h.mem.nextHeight
    dsimp only [memSpan] at hbase
    have hne : v.mem.nextHeight ≠ 0 := by
      intro hzero
      rw [hzero] at hnext
      simp only [UInt64.toNat_zero] at hnext
      omega
    unfold Memtable.begun
    dsimp only
    split
    . rfl
    . next hstarted =>
      have hmbs : mbs = [] := by
        by_contra hmbs
        exact hstarted (h.mem.started.mpr hmbs)
      rw [hheight hne]
      apply UInt64.toNat_inj.mp
      rw [hnext, hmbs]
      rfl

theorem Stored.write (h : Stored crypto v l fbs mbs) {file : LogFile} {b : BlockWrite} {m : Memtable}
    (hb : b.HasNext) (hslots : v.mem.nextTx.toNat + b.slots < 2 ^ 64)
    (hrun : (Memtable.add crypto file b).run v.mem = .ok () m)
    : b.height < v.mem.nextHeight ∧ m = v.mem ∨
      v.mem.nextHeight ≤ b.height ∧ Stored crypto { v with mem := m } l fbs (mbs ++ [b]) := by
  rcases h.mem.add hb hslots hrun with hskip | ⟨hge, hheight, htook, htx, hbase⟩
  . exact .inl hskip
  . right
    refine ⟨hge, ⟨h.runs, h.holds, h.frozen, h.thawed, htook, ?_, ?_, fun _ hnil => absurd hnil (by simp)⟩⟩
    . have hchain := h.chain
      rw [isChain_append] at hchain ⊢
      refine ⟨hchain.1, List.IsChain.singleton _, ?_⟩
      intro s hs t ht
      cases ht
      have hfollows := h.follows hs
      have hold : v.older ≠ [] := by
        intro hnil
        have hs' : v.older.getLast? = some s := hs
        rw [hnil] at hs'
        cases hs'
      refine ⟨htx.trans hfollows.1, ?_⟩
      dsimp only [memSpan]
      rw [hbase, h.base_of_write hheight hold]
      exact hfollows.2
    . intro s hs
      have hzero := h.zero
      have hsame : View.older { v with mem := m } = v.older := rfl
      rw [hsame] at hs
      cases hold : v.older with
      | nil =>
        rw [hold] at hs hzero
        cases hs
        exact htx.trans (hzero _ rfl)
      | cons t older =>
        rw [hold] at hs hzero
        exact hzero s hs

theorem Stored.cut (h : Stored crypto v l fbs mbs) (hfrozen : v.frozen = none) (hstarted : v.mem.started = true)
    : Stored crypto ⟨Memtable.fresh .window v.mem.nextTx v.mem.nextHeight, some { v.mem with path := .frozen }, v.runs⟩
        l mbs [] := by
  have hmbs := h.mem.started.mp hstarted
  have hspan : memSpan { v.mem with path := .frozen } = memSpan v.mem := rfl
  have hold : v.older = v.runs.map runSpan := by
    unfold View.older
    rw [hfrozen]
    exact append_nil _
  refine ⟨h.runs, h.holds, ?_, by simp, took_fresh crypto _ _ _, ?_, ?_, by simp [View.older]⟩
  . intro f hf
    cases hf
    have hmem := h.mem
    exact ⟨⟨⟨hmem.shows.pos, hmem.shows.readable, hmem.shows.chain, hmem.shows.nums, hmem.shows.code, hmem.shows.post,
      hmem.shows.sets, hmem.shows.nodup, hmem.shows.history⟩, hmem.nextTx, hmem.consecutive, hmem.nextHeight,
      hmem.started, hmem.container⟩, hmbs⟩
  . have hchain := h.chain
    rw [hold] at hchain
    unfold View.older
    dsimp only [map_some, toList_some]
    rw [hspan, isChain_append]
    refine ⟨hchain, List.IsChain.singleton _, ?_⟩
    intro s hs t ht
    cases ht
    rw [getLast?_concat] at hs
    cases hs
    exact ⟨rfl, rfl⟩
  . intro s hs
    have hzero := h.zero
    rw [hold] at hzero
    unfold View.older at hs
    dsimp only [map_some, toList_some] at hs
    rw [hspan, head?_append_of_ne_nil _ (by simp)] at hs
    exact hzero s hs

theorem Stored.publish (h : Stored crypto v l fbs mbs) {f : Memtable} (hf : v.frozen = some f)
    : ∃ r, Sealed.sealWindow f = .ok r ∧ Stored crypto ⟨v.mem, none, v.runs ++ [r]⟩ (l ++ [(r, fbs)]) [] mbs := by
  rcases h.frozen f hf with ⟨htook, hne⟩
  rcases htook.sealWindow hne with ⟨r, hseal, hholds, hfooter⟩
  have hspan : runSpan r = memSpan f := by
    have hto := hholds.toHeight
    have hnext := htook.nextHeight
    unfold runSpan memSpan
    rw [hfooter] at hto ⊢
    dsimp only at hto ⊢
    rw [hto, hnext]
  have hold : View.older ⟨v.mem, none, v.runs ++ [r]⟩ = v.older := by
    unfold View.older
    rw [hf]
    simp [hspan]
  refine ⟨r, hseal, ⟨?_, ?_, by simp, fun _ => rfl, h.mem, ?_, ?_, ?_⟩⟩
  . rw [h.runs]
    simp
  . intro p hp
    rw [mem_append, mem_singleton] at hp
    rcases hp with hp | rfl
    . exact h.holds p hp
    . exact hholds
  . rw [hold]
    exact h.chain
  . rw [hold]
    exact h.zero
  . rw [hold]
    exact h.start

theorem contiguous_of_chain {l : RunBlocks} (hl : ∀ p ∈ l, Holds crypto p.1 p.2)
    (hchain : ((l.map (·.1)).map runSpan).IsChain Span.Follows) : Sealed.contiguous (l.map (·.1)) = true := by
  induction l with
  | nil => rfl
  | cons p l ih =>
    cases l with
    | nil => rfl
    | cons q l =>
      simp only [map_cons, isChain_cons_cons] at hchain
      have hrest := ih (fun x hx => hl x (by simp [hx])) hchain.2
      rcases hchain.1 with ⟨htx, hheight⟩
      have hp := hl p (by simp)
      have hto : q.1.footer.fromHeight = p.1.footer.toHeight + 1 := by
        apply UInt64.toNat_inj.mp
        rw [toNat_add_one hp.toHeight_lt]
        exact hheight
      have htx : q.1.footer.fromTx = p.1.footer.toTx := htx
      simp only [map_cons] at hrest
      simp [Sealed.contiguous, htx, hto, hrest]

theorem isChain_splice {before spans after : List Span} {first last s : Span}
    (h : (before ++ spans ++ after).IsChain Span.Follows) (hfirst : spans.head? = some first)
    (hlast : spans.getLast? = some last) (htx : s.baseTx = first.baseTx) (hheight : s.baseHeight = first.baseHeight)
    (htx' : s.nextTx = last.nextTx) (hheight' : s.nextHeight = last.nextHeight)
    : (before ++ [s] ++ after).IsChain Span.Follows := by
  rw [isChain_append, isChain_append] at h ⊢
  rcases h with ⟨⟨hbefore, -, hleft⟩, hafter, hright⟩
  refine ⟨⟨hbefore, List.IsChain.singleton _, ?_⟩, hafter, ?_⟩
  . intro x hx y hy
    cases hy
    have hrel := hleft x hx first hfirst
    exact ⟨htx.trans hrel.1, hheight.trans hrel.2⟩
  . intro x hx y hy
    rw [getLast?_concat] at hx
    cases hx
    have hlast' : (before ++ spans).getLast? = some last := by
      rw [getLast?_append, hlast]
      rfl
    have hrel := hright last hlast' y hy
    exact ⟨hrel.1.trans htx'.symm, hrel.2.trans hheight'.symm⟩

theorem take_append_span {α : Type} {l : List α} {start stop : Nat} (hne : (l.take stop).drop start ≠ [])
    : l = l.take start ++ (l.take stop).drop start ++ l.drop stop := by
  have hlt : start < stop := by
    have hpos := length_pos_iff.mpr hne
    rw [length_drop, length_take] at hpos
    omega
  have htake : (l.take stop).take start = l.take start := by
    rw [take_take, Nat.min_eq_left (Nat.le_of_lt hlt)]
  rw [← htake, take_append_drop, take_append_drop]

theorem Stored.merge (h : Stored crypto v l fbs mbs) {start stop : Nat} {r : Sealed.Run}
    (hmerge : Sealed.merge ((v.runs.take stop).drop start) = .ok r)
    : ∃ bs, (l.take start ++ [(r, bs)] ++ l.drop stop).flatMap (·.2) = l.flatMap (·.2) ∧
        Stored crypto { v with runs := v.runs.take start ++ [r] ++ v.runs.drop stop }
          (l.take start ++ [(r, bs)] ++ l.drop stop) fbs mbs := by
  have hruns : (v.runs.take stop).drop start = ((l.take stop).drop start).map (·.1) := by
    rw [h.runs, map_drop, map_take]
  rw [hruns] at hmerge
  have hne : (l.take stop).drop start ≠ [] := by
    intro hnil
    rw [hnil] at hmerge
    cases hmerge
  have hsplit := take_append_span hne
  have hB : ∀ p ∈ (l.take stop).drop start, Holds crypto p.1 p.2 :=
    fun p hp => h.holds p (mem_of_mem_take (mem_of_mem_drop hp))
  have hspans : v.older ++ [memSpan v.mem] =
      (l.take start).map (fun p => runSpan p.1) ++ ((l.take stop).drop start).map (fun p => runSpan p.1) ++
        ((l.drop stop).map (fun p => runSpan p.1) ++ ((v.frozen.map memSpan).toList ++ [memSpan v.mem])) := by
    unfold View.older
    rw [h.runs, List.map_map]
    conv => lhs; rw [hsplit]
    simp [Function.comp_def]
  have hchain := h.chain
  have hzero := h.zero
  rw [hspans] at hchain hzero
  have hcont : Sealed.contiguous (((l.take stop).drop start).map (·.1)) = true := by
    apply contiguous_of_chain hB
    rw [List.map_map]
    exact (isChain_append.mp (isChain_append.mp hchain).1).2.1
  have hfirst : ((l.take stop).drop start).head? = some (((l.take stop).drop start).head hne) := head?_eq_some_head hne
  have hlast : ((l.take stop).drop start).getLast? = some (((l.take stop).drop start).getLast hne) :=
    getLast?_eq_some_getLast hne
  generalize ((l.take stop).drop start).head hne = first at hfirst
  generalize ((l.take stop).drop start).getLast hne = last at hlast
  rcases merge_holds hB hfirst hlast hcont with ⟨r', hmerge', hholds, -, hfooter⟩
  rw [hmerge, Except.ok.injEq] at hmerge'
  subst hmerge'
  have hfirst' : (((l.take stop).drop start).map (fun p => runSpan p.1)).head? = some (runSpan first.1) := by
    rw [head?_map, hfirst]
    rfl
  have hlast' : (((l.take stop).drop start).map (fun p => runSpan p.1)).getLast? = some (runSpan last.1) := by
    rw [getLast?_map, hlast]
    rfl
  have hspan : runSpan r = ⟨first.1.footer.fromTx, last.1.footer.toTx, first.1.footer.fromHeight.toNat,
      last.1.footer.toHeight.toNat + 1⟩ := by
    unfold runSpan
    rw [hfooter]
  have hspans' : View.older { v with runs := v.runs.take start ++ [r] ++ v.runs.drop stop } ++ [memSpan v.mem] =
      (l.take start).map (fun p => runSpan p.1) ++ [runSpan r] ++
        ((l.drop stop).map (fun p => runSpan p.1) ++ ((v.frozen.map memSpan).toList ++ [memSpan v.mem])) := by
    unfold View.older
    dsimp only
    rw [h.runs]
    simp [Function.comp_def, map_take, map_drop]
  refine ⟨((l.take stop).drop start).flatMap (·.2), ?_, ⟨?_, ?_, h.frozen, h.thawed, h.mem, ?_, ?_, ?_⟩⟩
  . conv => rhs; rw [hsplit]
    simp
  . rw [h.runs]
    simp [map_take, map_drop]
  . intro p hp
    simp only [mem_append, mem_singleton] at hp
    rcases hp with (hp | rfl) | hp
    . exact h.holds p (mem_of_mem_take hp)
    . exact hholds
    . exact h.holds p (mem_of_mem_drop hp)
  . rw [hspans']
    apply isChain_splice hchain hfirst' hlast' <;> rw [hspan] <;> rfl
  . rw [hspans']
    intro s hs
    cases hA : (l.take start).map (fun p => runSpan p.1) with
    | nil =>
      rw [hA] at hs hzero
      cases hs
      rw [nil_append, head?_append, hfirst'] at hzero
      have hbase := hzero (runSpan first.1) rfl
      rw [hspan]
      exact hbase
    | cons t A =>
      rw [hA] at hs hzero
      exact hzero s hs
  . intro hnil
    rw [hnil] at hspans'
    have hlen := congrArg List.length hspans'
    simp at hlen
    omega

end Stored

structure Span.Of (s : Span) (bs : List BlockWrite) : Prop where
  nextTx : s.nextTx.toNat = s.baseTx.toNat + slots bs
  consecutive : Consecutive s.baseHeight bs
  nextHeight : s.nextHeight = s.baseHeight + bs.length

theorem spans_of_chain {ps : List (Span × List BlockWrite)} (hps : ∀ p ∈ ps, p.1.Of p.2)
    (hchain : (ps.map (·.1)).IsChain Span.Follows) {first last : Span × List BlockWrite} (hfirst : ps.head? = some first)
    (hlast : ps.getLast? = some last)
    : Span.Of ⟨first.1.baseTx, last.1.nextTx, first.1.baseHeight, last.1.nextHeight⟩ (ps.flatMap (·.2)) := by
  induction ps generalizing first with
  | nil => cases hfirst
  | cons p ps ih =>
    cases hfirst
    have hp := hps p (by simp)
    cases ps with
    | nil =>
      cases hlast
      simpa using hp
    | cons q ps =>
      simp only [map_cons, isChain_cons_cons] at hchain
      rcases hchain with ⟨⟨htx, hheight⟩, hchain⟩
      rw [getLast?_cons_cons] at hlast
      have hrest := ih (fun x hx => hps x (by simp [hx])) hchain rfl hlast
      rw [flatMap_cons]
      constructor
      . have hnext := hrest.nextTx
        have hpnext := hp.nextTx
        dsimp only at hnext ⊢
        rw [htx] at hnext
        rw [slots_append]
        omega
      . have hcons := hrest.consecutive
        dsimp only at hcons ⊢
        rw [hheight, hp.nextHeight] at hcons
        rw [consecutive_append]
        exact ⟨hp.consecutive, hcons⟩
      . have hnext := hrest.nextHeight
        have hpnext := hp.nextHeight
        dsimp only at hnext ⊢
        rw [hnext, hheight, hpnext, length_append]
        omega

theorem table_of_chain (crypto : Crypto) {ps : List (Span × List BlockWrite)} (hps : ∀ p ∈ ps, p.1.Of p.2)
    (hchain : (ps.map (·.1)).IsChain Span.Follows) {first : Span × List BlockWrite} (hfirst : ps.head? = some first)
    : table crypto first.1.baseTx (ps.flatMap (·.2)) = ps.flatMap (fun p => table crypto p.1.baseTx p.2) := by
  induction ps generalizing first with
  | nil => cases hfirst
  | cons p ps ih =>
    cases hfirst
    have hp := hps p (by simp)
    cases ps with
    | nil => simp
    | cons q ps =>
      simp only [map_cons, isChain_cons_cons] at hchain
      rcases hchain with ⟨⟨htx, -⟩, hchain⟩
      have hrest := ih (fun x hx => hps x (by simp [hx])) hchain rfl
      have hbase : p.1.baseTx + UInt64.ofNat (slots p.2) = q.1.baseTx := by
        rw [htx]
        apply UInt64.toNat_inj.mp
        have hnext := hp.nextTx
        have hlt := p.1.nextTx.toNat_lt
        rw [Memtable.toNat_add_ofNat (by omega), hnext]
      rw [flatMap_cons, table_append, hbase, hrest]
      conv => rhs; rw [flatMap_cons]

section Pieces

variable {crypto : Crypto} {v : View} {l : RunBlocks} {fbs mbs : List BlockWrite}

def View.pieces (v : View) (l : RunBlocks) (fbs mbs : List BlockWrite) : List (Span × List BlockWrite) :=
  l.map (fun p => (runSpan p.1, p.2)) ++ (v.frozen.map (fun f => (memSpan f, fbs))).toList ++ [(memSpan v.mem, mbs)]

theorem Stored.pieces (h : Stored crypto v l fbs mbs)
    : (v.pieces l fbs mbs).map (·.1) = v.older ++ [memSpan v.mem] ∧
      (v.pieces l fbs mbs).flatMap (·.2) = l.flatMap (·.2) ++ fbs ++ mbs ∧
      ∀ p ∈ v.pieces l fbs mbs, p.1.Of p.2 := by
  unfold View.pieces View.older
  rw [h.runs]
  refine ⟨?_, ?_, ?_⟩
  . cases v.frozen <;> simp [Function.comp_def]
  . cases hf : v.frozen with
    | none => simp [flatMap_map, h.thawed hf]
    | some f => simp [flatMap_map]
  . intro p hp
    simp only [List.mem_append, List.mem_map, Option.mem_toList, Option.map_eq_some_iff, List.mem_singleton] at hp
    rcases hp with (⟨q, hq, rfl⟩ | ⟨f, hf, rfl⟩) | rfl
    . have hq := h.holds q hq
      exact ⟨hq.toTx, hq.consecutive, hq.toHeight⟩
    . have htook := (h.frozen f hf).1
      exact ⟨htook.nextTx, htook.consecutive, htook.nextHeight⟩
    . exact ⟨h.mem.nextTx, h.mem.consecutive, h.mem.nextHeight⟩

theorem Stored.whole (h : Stored crypto v l fbs mbs)
    : ∃ height, Span.Of ⟨0, v.mem.nextTx, height, v.mem.nextHeight.toNat⟩ (l.flatMap (·.2) ++ fbs ++ mbs) := by
  rcases h.pieces with ⟨hmap, hblocks, hof⟩
  have hchain := h.chain
  rw [← hmap] at hchain
  have hlast : (v.pieces l fbs mbs).getLast? = some (memSpan v.mem, mbs) := getLast?_concat
  cases hfirst : (v.pieces l fbs mbs).head? with
  | none =>
    rw [head?_eq_none_iff] at hfirst
    rw [hfirst] at hlast
    cases hlast
  | some first =>
    have hwhole := spans_of_chain hof hchain hfirst hlast
    have hzero := h.zero first.1 (by rw [← hmap, head?_map, hfirst]; rfl)
    rw [hblocks, hzero] at hwhole
    exact ⟨first.1.baseHeight, hwhole⟩

theorem Stored.table_eq (h : Stored crypto v l fbs mbs)
    : table crypto 0 (l.flatMap (·.2) ++ fbs ++ mbs) =
        runTable crypto l ++ (v.frozen.map (fun f => table crypto f.baseTx fbs)).getD [] ++
          table crypto v.mem.baseTx mbs := by
  rcases h.pieces with ⟨hmap, hblocks, hof⟩
  have hchain := h.chain
  rw [← hmap] at hchain
  cases hfirst : (v.pieces l fbs mbs).head? with
  | none =>
    rw [head?_eq_none_iff] at hfirst
    simp [View.pieces] at hfirst
  | some first =>
    have htable := table_of_chain crypto hof hchain hfirst
    have hzero := h.zero first.1 (by rw [← hmap, head?_map, hfirst]; rfl)
    rw [hblocks, hzero] at htable
    rw [htable]
    unfold View.pieces runTable
    cases v.frozen with
    | none => simp [flatMap_map, runSpan, memSpan]
    | some f => simp [flatMap_map, runSpan, memSpan]

theorem Stored.last_height (h : Stored crypto v l fbs mbs) {b : BlockWrite}
    (hb : (l.flatMap (·.2) ++ fbs ++ mbs).getLast? = some b) : b.height.toNat + 1 = v.mem.nextHeight.toNat := by
  rcases h.whole with ⟨height, hof⟩
  have hnext := hof.nextHeight
  have hcons := hof.consecutive
  dsimp only at hnext hcons
  rw [getLast?_eq_some_iff] at hb
  rcases hb with ⟨front, hfront⟩
  rw [hfront] at hnext hcons
  rw [consecutive_append] at hcons
  rcases hcons with ⟨-, hb, -⟩
  rw [length_append, length_singleton] at hnext
  omega

theorem Stored.nextHeight_eq_zero (h : Stored crypto v l fbs mbs) (hnil : l.flatMap (·.2) ++ fbs ++ mbs = [])
    : v.mem.nextHeight = 0 := by
  simp only [append_eq_nil_iff] at hnil
  rcases hnil with ⟨⟨hl, hfbs⟩, hmbs⟩
  apply h.start _ hmbs
  unfold View.older
  have hruns : v.runs = [] := by
    rw [h.runs, map_eq_nil_iff]
    cases l with
    | nil => rfl
    | cons p l =>
      rw [flatMap_cons, append_eq_nil_iff] at hl
      exact absurd hl.1 (h.holds p (by simp)).nonempty
  have hfrozen : v.frozen = none := by
    cases hf : v.frozen with
    | none => rfl
    | some f => exact absurd hfbs (h.frozen f hf).2
  rw [hruns, hfrozen]
  rfl

end Pieces

def Room (s : Sys) : Event → Prop
  | .write _ b => slots s.blocks + b.slots < 2 ^ 64 ∧ b.HasNext
  | _ => True

def Sys.Inv (crypto : Crypto) (s : Sys) : Prop :=
  (∃ l fbs mbs, Stored crypto s.view l fbs mbs ∧ s.blocks = l.flatMap (·.2) ++ fbs ++ mbs) ∧
    ∀ b ∈ s.blocks, b.Rebuilds crypto

theorem inv_init (crypto : Crypto) : Sys.init.Inv crypto :=
  ⟨⟨[], [], [], stored_init crypto, rfl⟩, by simp [Sys.init]⟩

theorem accept_eq {v : View} {l : RunBlocks} {fbs mbs bs : List BlockWrite}
    (h : Stored crypto v l fbs mbs) (hbs : bs = l.flatMap (·.2) ++ fbs ++ mbs) (b : BlockWrite)
    : accept bs b = if b.height < v.mem.nextHeight then bs else bs ++ [b] := by
  unfold accept
  split
  . next last hlast =>
    have hheight := h.last_height (hbs ▸ hlast)
    have hiff : b.height ≤ last.height ↔ b.height < v.mem.nextHeight := by
      rw [UInt64.le_iff_toNat_le, UInt64.lt_iff_toNat_lt]
      omega
    simp only [hiff]
  . next hnone =>
    rw [getLast?_eq_none_iff] at hnone
    rw [h.nextHeight_eq_zero (hbs ▸ hnone), if_neg]
    simp [UInt64.lt_iff_toNat_lt]

structure Sys.Parts (crypto : Crypto) (s : Sys) (l : RunBlocks) (fbs mbs : List BlockWrite) : Prop where
  stored : Stored crypto s.view l fbs mbs
  blocks : s.blocks = l.flatMap (·.2) ++ fbs ++ mbs
  container : ∀ b ∈ s.blocks, b.Rebuilds crypto

theorem Sys.Inv.parts {s : Sys} (h : s.Inv crypto) : ∃ l fbs mbs, s.Parts crypto l fbs mbs := by
  rcases h with ⟨⟨l, fbs, mbs, hst, hblocks⟩, hcont⟩
  exact ⟨l, fbs, mbs, hst, hblocks, hcont⟩

section Parts

variable {crypto : Crypto} {s s' : Sys} {l : RunBlocks} {fbs mbs : List BlockWrite}

theorem Sys.Parts.inv (h : s.Parts crypto l fbs mbs) : s.Inv crypto :=
  ⟨⟨l, fbs, mbs, h.stored, h.blocks⟩, h.container⟩

theorem Sys.Parts.write (h : s.Parts crypto l fbs mbs) {file : LogFile} {b : BlockWrite} {m : Memtable}
    (hroom : slots s.blocks + b.slots < 2 ^ 64 ∧ b.HasNext) (hrun : (Memtable.add crypto file b).run s.view.mem = .ok () m)
    : ∃ mbs', Sys.Parts crypto ⟨⟨m, s.view.frozen, s.view.runs⟩, accept s.blocks b⟩ l fbs mbs' ∧
        s.blocks <+: accept s.blocks b := by
  rcases h.stored.whole with ⟨height, hof⟩
  have hnext := hof.nextTx
  simp only [UInt64.toNat_zero, Nat.zero_add] at hnext
  rw [h.blocks] at hroom
  rw [accept_eq h.stored h.blocks]
  rcases h.stored.write hroom.2 (by omega) hrun with ⟨hskip, rfl⟩ | ⟨hge, hst'⟩
  . rw [if_pos hskip]
    exact ⟨mbs, h, prefix_refl _⟩
  . rw [if_neg (UInt64.not_lt.mpr hge)]
    refine ⟨mbs ++ [b], ⟨hst', ?_, ?_⟩, prefix_append _ _⟩
    . rw [h.blocks]
      simp
    . intro b' hb'
      rw [mem_append, mem_singleton] at hb'
      rcases hb' with hb' | rfl
      . exact h.container b' hb'
      . exact hst'.mem.container b' (by simp)

theorem Sys.Parts.step {e : Event} (h : s.Parts crypto l fbs mbs) (hroom : Room s e) (hstep : step crypto s e = some s')
    : ∃ l' fbs' mbs', s'.Parts crypto l' fbs' mbs' ∧ l.flatMap (·.2) <+: l'.flatMap (·.2) ∧ s.blocks <+: s'.blocks := by
  rcases step_cases hstep with ⟨file, b, m, rfl, hrun, rfl⟩ | ⟨-, hfrozen, hstarted, rfl⟩ | ⟨f, r, -, hf, hseal, rfl⟩ |
    ⟨start, stop, r, -, hmerge, rfl⟩
  . rcases h.write hroom hrun with ⟨mbs', hparts, hpre⟩
    exact ⟨l, fbs, mbs', hparts, prefix_refl _, hpre⟩
  . refine ⟨l, mbs, [], ⟨h.stored.cut hfrozen hstarted, ?_, h.container⟩, prefix_refl _, prefix_refl _⟩
    dsimp only
    rw [h.blocks, h.stored.thawed hfrozen]
    simp
  . rcases h.stored.publish hf with ⟨r', hseal', hst'⟩
    rw [hseal, Except.ok.injEq] at hseal'
    subst hseal'
    refine ⟨_, _, _, ⟨hst', ?_, h.container⟩, ?_, prefix_refl _⟩
    . dsimp only
      rw [h.blocks]
      simp
    . rw [flatMap_append]
      exact prefix_append _ _
  . rcases h.stored.merge hmerge with ⟨bs, hbs, hst'⟩
    refine ⟨_, _, _, ⟨hst', ?_, h.container⟩, ?_, prefix_refl _⟩
    . rw [hbs]
      exact h.blocks
    . rw [hbs]

theorem Sys.Parts.later (h : s.Parts crypto l fbs mbs) (hlater : Transition.Reachable (Read.step crypto) Room s s')
    : ∃ l' fbs' mbs', s'.Parts crypto l' fbs' mbs' ∧ l.flatMap (·.2) <+: l'.flatMap (·.2) ∧ s.blocks <+: s'.blocks := by
  refine hlater.invariant (I := fun s' => ∃ l' fbs' mbs', s'.Parts crypto l' fbs' mbs' ∧
    l.flatMap (·.2) <+: l'.flatMap (·.2) ∧ s.blocks <+: s'.blocks) ⟨l, fbs, mbs, h, prefix_refl _, prefix_refl _⟩ ?_
  rintro s' e s'' ⟨l', fbs', mbs', h', hruns, hblocks⟩ hroom hstep
  rcases h'.step hroom hstep with ⟨l'', fbs'', mbs'', h'', hruns', hblocks'⟩
  exact ⟨l'', fbs'', mbs'', h'', hruns.trans hruns', hblocks.trans hblocks'⟩

end Parts

theorem inv_step {s s' : Sys} {e : Event} (h : s.Inv crypto) (hroom : Room s e)
    (hstep : step crypto s e = some s') : s'.Inv crypto := by
  rcases h.parts with ⟨l, fbs, mbs, hparts⟩
  rcases hparts.step hroom hstep with ⟨l', fbs', mbs', hparts', -⟩
  exact hparts'.inv

theorem inv_of_reachable {s : Sys} (h : Transition.Reachable (step crypto) Room Sys.init s) : s.Inv crypto :=
  h.invariant (inv_init crypto) (fun _ _ _ => inv_step)

theorem mem_accept {bs : List BlockWrite} {b b' : BlockWrite} (h : b' ∈ accept bs b) : b' ∈ bs ∨ b' = b := by
  unfold accept at h
  split at h
  . split at h
    . exact .inl h
    . rwa [mem_append, mem_singleton] at h
  . rwa [mem_append, mem_singleton] at h

theorem forall_blocks {guard : Sys → Event → Prop} {P : BlockWrite → Prop} {s t : Sys}
    (hs : ∀ b ∈ s.blocks, P b) (hguard : ∀ s file b, guard s (.write file b) → P b)
    (h : Transition.Reachable (step crypto) guard s t) : ∀ b ∈ t.blocks, P b := by
  refine h.invariant (I := fun t => ∀ b ∈ t.blocks, P b) hs ?_
  intro s e s' hs hg hstep
  rcases step_cases hstep with ⟨file, b, m, rfl, -, rfl⟩ | ⟨-, -, -, rfl⟩ | ⟨f, r, -, -, -, rfl⟩ | ⟨start, stop, r, -, -, rfl⟩
  . intro b' hb'
    rcases mem_accept hb' with hb' | rfl
    . exact hs b' hb'
    . exact hguard _ _ _ hg
  . exact hs
  . exact hs
  . exact hs

end EpochDB.Store.Read
