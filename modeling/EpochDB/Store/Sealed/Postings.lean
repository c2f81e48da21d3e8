import EpochDB.Store.Ef.RoundTrip
import EpochDB.Store.Sealed.Sections

/-!
The posting chunks of a window: every chunk decodes to the entries that were packed into it, and the
chunks together hold the entries sorted by group and TxNum.
-/

namespace EpochDB.Store.Sealed

open List

def Posting.lt (p q : Posting) : Prop := p.group < q.group ∨ p.group = q.group ∧ p.txnum < q.txnum

theorem postingLt_trans {p q r : Posting} (h : Posting.lt p q) (h' : Posting.lt q r) : Posting.lt p r := by
  rcases h with h | ⟨hg, h⟩
  . rcases h' with h' | ⟨hg', -⟩
    . exact .inl (lt_trans h h')
    . exact .inl (hg' ▸ h)
  . rcases h' with h' | ⟨hg', h'⟩
    . exact .inl (hg ▸ h')
    . exact .inr ⟨hg.trans hg', UInt64.lt_trans h h'⟩

instance : IsTrans Posting Posting.le where
  trans p q r h h' := by
    rcases h with h | ⟨hg, h⟩
    . rcases h' with h' | ⟨hg', -⟩
      . exact .inl (lt_trans h h')
      . exact .inl (hg' ▸ h)
    . rcases h' with h' | ⟨hg', h'⟩
      . exact .inl (hg ▸ h')
      . exact .inr ⟨hg.trans hg', UInt64.le_trans h h'⟩

instance : Std.Total Posting.le where
  total p q := by
    rcases lt_trichotomy p.group q.group with h | h | h
    . exact .inl (.inl h)
    . rcases UInt64.le_total p.txnum q.txnum with hn | hn
      . exact .inl (.inr ⟨h, hn⟩)
      . exact .inr (.inr ⟨h.symm, hn⟩)
    . exact .inr (.inl h)

def joinLast (done : List Posting) (e : Posting) : List Posting :=
  match done.getLast? with
  | none => [e]
  | some last =>
    if last.group = e.group ∧ last.txnum = e.txnum then
      done.dropLast ++ [⟨last.group, last.txnum, last.payload ||| e.payload⟩]
    else
      done ++ [e]

theorem joinLast_cases (done : List Posting) (e : Posting)
    : (∃ front last, done = front ++ [last] ∧ last.group = e.group ∧ last.txnum = e.txnum ∧
        joinLast done e = front ++ [⟨last.group, last.txnum, last.payload ||| e.payload⟩]) ∨
      (∀ last ∈ done.getLast?, ¬ (last.group = e.group ∧ last.txnum = e.txnum)) ∧ joinLast done e = done ++ [e] := by
  unfold joinLast
  cases hlast : done.getLast? with
  | none =>
    rw [getLast?_eq_none_iff] at hlast
    subst hlast
    exact .inr ⟨by simp, rfl⟩
  | some last =>
    rcases getLast?_eq_some_iff.mp hlast with ⟨front, rfl⟩
    dsimp only
    split
    . next hsame => exact .inl ⟨front, last, rfl, hsame.1, hsame.2, by rw [dropLast_concat]⟩
    . next hsame =>
      refine .inr ⟨?_, rfl⟩
      intro last' hlast'
      cases hlast'
      exact hsame

theorem postingLt_of_le {p q : Posting} (h : Posting.le p q) (hne : ¬ (p.group = q.group ∧ p.txnum = q.txnum))
    : Posting.lt p q := by
  rcases h with h | ⟨hg, hn⟩
  . exact .inl h
  . refine .inr ⟨hg, ?_⟩
    exact UInt64.lt_of_le_of_ne hn (fun heq => hne ⟨hg, heq⟩)

theorem postingLt_of_lt_of_le {p q r : Posting} (h : Posting.lt p q) (h' : Posting.le q r) : Posting.lt p r := by
  by_cases hsame : q.group = r.group ∧ q.txnum = r.txnum
  . unfold Posting.lt at h ⊢
    rwa [hsame.1, hsame.2] at h
  . exact postingLt_trans h (postingLt_of_le h' hsame)

theorem not_same_of_lt {p q : Posting} (h : Posting.lt p q) : ¬ (p.group = q.group ∧ p.txnum = q.txnum) := by
  rintro ⟨hg, hn⟩
  rcases h with h | ⟨-, h⟩
  . exact absurd h (hg ▸ lt_irrefl _)
  . exact absurd h (hn ▸ UInt64.lt_irrefl _)

variable {done ents : List Posting} {e : Posting} {c : Chunks} {prev : Bytes}

theorem lt_of_last (hasc : done.Pairwise Posting.lt) (hle : ∀ x ∈ done, Posting.le x e)
    (hlast : ∀ last ∈ done.getLast?, ¬ (last.group = e.group ∧ last.txnum = e.txnum))
    : ∀ x ∈ done, Posting.lt x e := by
  intro x hx
  cases hend : done.getLast? with
  | none =>
    rw [getLast?_eq_none_iff] at hend
    rw [hend] at hx
    cases hx
  | some last =>
    rcases getLast?_eq_some_iff.mp hend with ⟨front, rfl⟩
    rcases mem_append.mp hx with hx | hx
    . exact postingLt_of_lt_of_le ((pairwise_append.mp hasc).2.2 x hx last (by simp)) (hle last (by simp))
    . rw [mem_singleton] at hx
      rw [hx]
      exact postingLt_of_le (hle last (by simp)) (hlast last hend)

section Join

variable {done : List Posting} (hasc : done.Pairwise Posting.lt) {e : Posting} (hle : ∀ x ∈ done, Posting.le x e)

include hasc hle

theorem pairwise_joinLast : (joinLast done e).Pairwise Posting.lt := by
  rcases joinLast_cases done e with ⟨front, last, rfl, -, -, hjoin⟩ | ⟨hlast, hjoin⟩
  . rw [hjoin]
    rw [pairwise_append] at hasc ⊢
    refine ⟨hasc.1, pairwise_singleton _ _, ?_⟩
    intro x hx y hy
    rw [mem_singleton] at hy
    rw [hy]
    exact hasc.2.2 x hx last (by simp)
  . rw [hjoin, pairwise_append]
    refine ⟨hasc, pairwise_singleton _ _, ?_⟩
    intro x hx y hy
    rw [mem_singleton] at hy
    rw [hy]
    exact lt_of_last hasc hle hlast x hx

omit hasc in
theorem joinLast_le {e' : Posting} (he : Posting.le e e') : ∀ x ∈ joinLast done e, Posting.le x e' := by
  have hdone : ∀ x ∈ done, Posting.le x e' := fun x hx => IsTrans.trans x e e' (hle x hx) he
  rcases joinLast_cases done e with ⟨front, last, rfl, -, -, hjoin⟩ | ⟨-, hjoin⟩
  . rw [hjoin]
    intro x hx
    rcases mem_append.mp hx with hx | hx
    . exact hdone x (mem_append_left _ hx)
    . rw [mem_singleton] at hx
      rw [hx]
      exact hdone last (by simp)
  . rw [hjoin]
    intro x hx
    rcases mem_append.mp hx with hx | hx
    . exact hdone x hx
    . rw [mem_singleton] at hx
      rw [hx]
      exact he

end Join

theorem fits_or {group : Bytes} {p q : UInt8} (h : Fits group p) (h' : Fits group q) : Fits group (p ||| q) := by
  refine ⟨h.isGroup, ?_⟩
  rw [UInt8.toNat_or]
  exact Nat.or_lt_two_pow h.bits h'.bits

theorem fits_joinLast (hfit : ∀ x ∈ done, Fits x.group x.payload)
    (he : Fits e.group e.payload) : ∀ x ∈ joinLast done e, Fits x.group x.payload := by
  rcases joinLast_cases done e with ⟨front, last, rfl, hgroup, -, hjoin⟩ | ⟨-, hjoin⟩
  . rw [hjoin]
    intro x hx
    rcases mem_append.mp hx with hx | hx
    . exact hfit x (mem_append_left _ hx)
    . rw [mem_singleton] at hx
      rw [hx]
      exact fits_or (hfit last (by simp)) (hgroup ▸ he)
  . rw [hjoin]
    intro x hx
    rcases mem_append.mp hx with hx | hx
    . exact hfit x hx
    . rw [mem_singleton] at hx
      rw [hx]
      exact he

def entsOf (row : Bytes × Bytes) : List Posting :=
  match Ef.decode (txNumOf row.1) row.2 with
  | .chunk nums pay =>
    nums.zipIdx.map (fun (n, i) =>
      ⟨row.1.take (row.1.length - 8), n, match pay with
        | some pay => pay[i]?.getD 0
        | none => 0⟩)
  | _ => []

structure ChunkRow (row : Bytes × Bytes) : Prop where
  key : ∃ g first, IsGroup g ∧ row.1 = suffixed g first
  decodes : ∃ nums pay, Ef.decode (txNumOf row.1) row.2 = .chunk nums pay
  head : ∃ e, (entsOf row).head? = some e ∧ row.1 = suffixed e.group e.txnum

theorem group_of_mem_entsOf {row : Bytes × Bytes} (h : e ∈ entsOf row) : e.group = row.1.take (row.1.length - 8) := by
  unfold entsOf at h
  split at h
  . rw [mem_map] at h
    rcases h with ⟨⟨n, i⟩, -, rfl⟩
    rfl
  . cases h

section

variable {g : Bytes} {es : List Posting}

theorem entsOf_encode (hg : IsGroup g) (hgroup : ∀ e ∈ es, e.group = g) (hfit : ∀ e ∈ es, Fits e.group e.payload)
    (hasc : es.Pairwise Posting.lt) (hlen : es.length ≤ Ef.maxEntries) {first : Posting} (hfirst : es.head? = some first)
    : let row := (suffixed g first.txnum,
        Ef.encode first.txnum (es.map (·.txnum)) (es.map (·.payload)) (payloadBits g))
      entsOf row = es ∧ ChunkRow row := by
  intro row
  have hnums : (es.map (·.txnum)).Pairwise (· ≤ ·) := by
    rw [pairwise_map]
    apply hasc.imp_of_mem
    intro p q hp hq hlt
    rcases hlt with hlt | ⟨-, hlt⟩
    . rw [hgroup p hp, hgroup q hq] at hlt
      exact absurd hlt (lt_irrefl _)
    . exact UInt64.le_of_lt hlt
  have hbase : ∀ n ∈ es.map (·.txnum), first.txnum ≤ n := by
    cases es with
    | nil => cases hfirst
    | cons e es =>
      cases hfirst
      intro n hn
      rw [map_cons, mem_cons] at hn
      rw [map_cons, pairwise_cons] at hnums
      cases hn with
      | inl hn => rw [hn]; exact UInt64.le_refl _
      | inr hn => exact hnums.1 n hn
  have hbits : payloadBits g ≤ 8 := by
    cases hg <;> simp
  have hpay : ∀ p ∈ es.map (·.payload), p.toNat < 2 ^ payloadBits g := by
    intro p hp
    rw [mem_map] at hp
    rcases hp with ⟨e, he, rfl⟩
    have := (hfit e he).bits
    rwa [hgroup e he] at this
  have hdecode := Ef.decode_encode hbase hnums (by simpa using hlen) (by simp) hbits hpay
  have hnum : txNumOf row.1 = first.txnum := txNumOf_suffixed g first.txnum
  have hkey : row.1.take (row.1.length - 8) = g := take_suffixed g first.txnum
  have hents : entsOf row = es := by
    unfold entsOf
    rw [hnum, hdecode, hkey]
    dsimp only
    apply ext_getElem
    . simp
    . intro i hi hi'
      have hget : i < es.length := hi'
      simp only [getElem_map, getElem_zipIdx, Nat.zero_add]
      have hgi := hgroup es[i] (getElem_mem hget)
      have hfi := (hfit es[i] (getElem_mem hget)).bits
      rw [hgi] at hfi
      by_cases hpos : payloadBits g > 0
      . simp only [hpos, if_true]
        rw [getElem?_eq_getElem (by simpa using hget)]
        simp [← hgi]
      . have hzero : es[i].payload = 0 := by
          have hb : payloadBits g = 0 := by omega
          rw [hb] at hfi
          apply UInt8.toNat_inj.mp
          simpa using hfi
        have hsame : ∀ e : Posting, e.group = g → e.payload = 0 → (⟨g, e.txnum, 0⟩ : Posting) = e := by
          rintro ⟨_, n, _⟩ rfl rfl
          rfl
        simp only [hpos, if_false]
        exact hsame es[i] hgi hzero
  refine ⟨hents, ⟨g, first.txnum, hg, rfl⟩, ⟨_, _, by rw [hnum]; exact hdecode⟩, ⟨first, ?_, ?_⟩⟩
  . rw [hents]
    exact hfirst
  . have hmem : first ∈ es := mem_of_head? hfirst
    rw [hgroup first hmem]

end

structure Cutting (c : Chunks) (group : Bytes) (done : List Posting) : Prop where
  rows : ∀ row ∈ c.rows, ChunkRow row
  open_ : ∃ cur : List Posting, c.nums = cur.map (·.txnum) ∧ c.pay = cur.map (·.payload) ∧
    (∀ e ∈ cur, e.group = group) ∧ cur.length ≤ Ef.maxEntries ∧ c.rows.flatMap entsOf ++ cur = done

theorem Cutting.flush {group : Bytes} (h : Cutting c group done)
    (hasc : done.Pairwise Posting.lt) (hfit : ∀ e ∈ done, Fits e.group e.payload) (group' : Bytes)
    : Cutting (c.flush group) group' done ∧ (c.flush group).nums = [] := by
  rcases h.open_ with ⟨cur, hnums, hpay, hgroup, hlen, hdone⟩
  unfold Chunks.flush
  split
  . next hnil =>
    rw [hnil] at hnums
    have hcur : cur = [] := by simpa using hnums.symm
    subst hcur
    exact ⟨⟨h.rows, [], hnil, hpay, by simp, by simp, hdone⟩, hnil⟩
  . next first rest hcons =>
    cases cur with
    | nil =>
      rw [hnums] at hcons
      cases hcons
    | cons e cur =>
      have hfirst : first = e.txnum := by
        rw [hnums, map_cons] at hcons
        exact (List.cons.inj hcons).1.symm
      have hmem : ∀ e' ∈ e :: cur, e' ∈ done := by
        intro e' he'
        rw [← hdone]
        exact mem_append_right _ he'
      have hg : IsGroup group := by
        rw [← hgroup e (by simp)]
        exact (hfit e (hmem e (by simp))).isGroup
      have hsorted : (e :: cur).Pairwise Posting.lt := by
        rw [← hdone] at hasc
        exact (pairwise_append.mp hasc).2.1
      rcases entsOf_encode hg hgroup (fun e' he' => hfit e' (hmem e' he')) hsorted hlen rfl with ⟨hents, hrow⟩
      rw [← hnums, ← hpay, ← hfirst] at hents hrow
      refine ⟨⟨?_, [], rfl, rfl, by simp, by simp, ?_⟩, rfl⟩
      . intro row hrow'
        rw [mem_append, mem_singleton] at hrow'
        cases hrow' with
        | inl hrow' => exact h.rows row hrow'
        | inr hrow' =>
          rw [hrow']
          exact hrow
      . rw [flatMap_append, append_nil, flatMap_singleton, hents]
        exact hdone

theorem Cutting.addNew (h : Cutting c prev done)
    (hasc : (done ++ [e]).Pairwise Posting.lt) (hfit : ∀ e' ∈ done ++ [e], Fits e'.group e'.payload)
    : Cutting (c.add prev e) e.group (done ++ [e]) := by
  have hsorted := pairwise_append.mp hasc
  have hfits : ∀ e' ∈ done, Fits e'.group e'.payload := fun e' he' => hfit e' (mem_append_left _ he')
  unfold Chunks.add
  have hturn : Cutting (if prev ≠ e.group then c.flush prev else c) e.group done := by
    split
    . exact (h.flush hsorted.1 hfits e.group).1
    . next hsame =>
      rw [ne_eq, Decidable.not_not] at hsame
      rwa [← hsame]
  generalize (if prev ≠ e.group then c.flush prev else c) = c at hturn
  dsimp only
  have hnew : c.nums.getLast? ≠ some e.txnum := by
    -- an entry at the same group and TxNum would not be below `e`
    rcases hturn.open_ with ⟨cur, hnums, -, hgroup, -, hdone⟩
    rw [hnums, getLast?_map]
    intro hlast
    rw [Option.map_eq_some_iff] at hlast
    rcases hlast with ⟨last, hlast, hnum⟩
    have hmem := mem_of_getLast? hlast
    have hlt := hsorted.2.2 last (by rw [← hdone]; exact mem_append_right _ hmem) e (by simp)
    rcases hlt with hlt | ⟨-, hlt⟩
    . rw [hgroup last hmem] at hlt
      exact lt_irrefl _ hlt
    . rw [hnum] at hlt
      exact absurd hlt (UInt64.lt_irrefl _)
  rw [if_neg hnew]
  have hroom : Cutting (if c.nums.length = Ef.maxEntries then c.flush e.group else c) e.group done ∧
      (if c.nums.length = Ef.maxEntries then c.flush e.group else c).nums.length < Ef.maxEntries := by
    split
    . rcases hturn.flush hsorted.1 hfits e.group with ⟨hcut, hnil⟩
      rw [hnil]
      exact ⟨hcut, by decide⟩
    . next hne =>
      refine ⟨hturn, ?_⟩
      rcases hturn.open_ with ⟨cur, hnums, -, -, hlen, -⟩
      rw [hnums, length_map] at hne ⊢
      omega
  generalize (if c.nums.length = Ef.maxEntries then c.flush e.group else c) = c at hroom
  rcases hroom with ⟨hcut, hlt⟩
  rcases hcut.open_ with ⟨cur, hnums, hpay, hgroup, -, hdone⟩
  refine ⟨hcut.rows, cur ++ [e], ?_, ?_, ?_, ?_, ?_⟩
  . simp [hnums]
  . simp [hpay]
  . intro e' he'
    rw [mem_append, mem_singleton] at he'
    cases he' with
    | inl he' => exact hgroup e' he'
    | inr he' => rw [he']
  . rw [hnums, length_map] at hlt
    simp only [length_append, length_singleton]
    omega
  . rw [← append_assoc, hdone]

theorem nums_add_ne_nil (c : Chunks) (prev : Bytes) (e : Posting) : (c.add prev e).nums ≠ [] := by
  unfold Chunks.add
  generalize (if prev ≠ e.group then c.flush prev else c) = c
  dsimp only
  split
  . next hlast =>
    intro hnil
    rw [show c.nums = [] from hnil] at hlast
    cases hlast
  . simp

theorem modify_last {α : Type} (xs : List α) (x : α) (f : α → α)
    : (xs ++ [x]).modify ((xs ++ [x]).length - 1) f = xs ++ [f x] := by
  rw [length_append, length_singleton, Nat.add_sub_cancel]
  induction xs with
  | nil => rfl
  | cons y xs ih => rw [cons_append, length_cons, modify_succ_cons, ih, cons_append]

theorem Cutting.addAgain {front : List Posting} {last e : Posting}
    (h : Cutting c prev (front ++ [last])) (hlive : c.nums ≠ []) (hgroup : last.group = e.group)
    (hnum : last.txnum = e.txnum)
    : Cutting (c.add prev e) e.group (front ++ [⟨last.group, last.txnum, last.payload ||| e.payload⟩]) := by
  rcases h.open_ with ⟨cur, hnums, hpay, hcur, hlen, hdone⟩
  have hne : cur ≠ [] := by
    rintro rfl
    exact hlive hnums
  rcases eq_nil_or_concat cur with hnil | ⟨cur, last', rfl⟩
  . exact absurd hnil hne
  rw [concat_eq_append] at hnums hpay hcur hlen hdone
  rw [← append_assoc] at hdone
  rcases append_inj' hdone rfl with ⟨hfront, hlast⟩
  cases hlast
  have hprev : prev = e.group := by
    rw [← hgroup]
    exact (hcur last (by simp)).symm
  have hsame : c.nums.getLast? = some e.txnum := by
    rw [hnums, map_append, map_singleton, getLast?_concat, hnum]
  have hturn : (if prev ≠ e.group then c.flush prev else c) = c := if_neg (not_not_intro hprev)
  unfold Chunks.add
  rw [hturn]
  dsimp only
  rw [if_pos hsame]
  refine ⟨h.rows, cur ++ [⟨last.group, last.txnum, last.payload ||| e.payload⟩], ?_, ?_, ?_, ?_, ?_⟩
  . simpa using hnums
  . dsimp only
    rw [hpay, map_append, map_append, map_singleton, map_singleton]
    exact modify_last _ _ _
  . intro x hx
    rcases mem_append.mp hx with hx | hx
    . rw [← hprev]
      exact hcur x (mem_append_left _ hx)
    . rw [mem_singleton] at hx
      rw [hx]
      exact hgroup
  . simpa using hlen
  . rw [← append_assoc, hfront]

theorem Cutting.add (h : Cutting c prev done) (hlive : done ≠ [] → c.nums ≠ []) (hasc : (joinLast done e).Pairwise Posting.lt)
    (hfit : ∀ x ∈ joinLast done e, Fits x.group x.payload) : Cutting (c.add prev e) e.group (joinLast done e) := by
  rcases joinLast_cases done e with ⟨front, last, rfl, hgroup, hnum, hjoin⟩ | ⟨-, hjoin⟩
  . rw [hjoin]
    exact h.addAgain (hlive (by simp)) hgroup hnum
  . rw [hjoin] at hasc hfit ⊢
    exact h.addNew hasc hfit

theorem Cutting.addAll (h : Cutting c prev done) (hlive : done ≠ [] → c.nums ≠ []) (hasc : done.Pairwise Posting.lt)
    (hle : ∀ x ∈ done, ∀ e ∈ ents, Posting.le x e) (hsorted : ents.Pairwise Posting.le)
    (hdone : ∀ x ∈ done, Fits x.group x.payload) (hfit : ∀ e ∈ ents, Fits e.group e.payload)
    : (∀ row ∈ (c.addAll prev ents).rows, ChunkRow row) ∧
      (c.addAll prev ents).rows.flatMap entsOf = ents.foldl joinLast done := by
  induction ents generalizing c prev done with
  | nil =>
    rcases h.flush hasc hdone prev with ⟨hcut, hnil⟩
    rcases hcut.open_ with ⟨cur, hnums, -, -, -, hall⟩
    rw [hnil] at hnums
    have hcur : cur = [] := by simpa using hnums.symm
    subst hcur
    rw [append_nil] at hall
    exact ⟨hcut.rows, hall⟩
  | cons e ents ih =>
    have hle' : ∀ x ∈ done, Posting.le x e := fun x hx => hle x hx e (by simp)
    rw [pairwise_cons] at hsorted
    have hasc' := pairwise_joinLast hasc hle'
    have hfit' := fits_joinLast hdone (hfit e (by simp))
    exact ih (h.add hlive hasc' hfit') (fun _ => nums_add_ne_nil c prev e) hasc'
      (fun x hx e' he' => joinLast_le hle' (hsorted.1 e' he') x hx) hsorted.2 hfit' (fun e' he' => hfit e' (by simp [he']))

theorem chunks_joinLast (hfit : ∀ e ∈ ents, Fits e.group e.payload)
    : (∀ row ∈ chunks ents, ChunkRow row) ∧
      (chunks ents).flatMap entsOf = (ents.insertionSort Posting.le).foldl joinLast [] := by
  have hfits : ∀ e ∈ ents.insertionSort Posting.le, Fits e.group e.payload := by
    intro e he
    exact hfit e ((mem_insertionSort Posting.le).mp he)
  have hsorted := pairwise_insertionSort Posting.le ents
  unfold chunks
  split
  . next hnil =>
    rw [hnil]
    simp
  . next e rest hcons =>
    rw [hcons] at hfits hsorted ⊢
    have hempty : Cutting ⟨[], [], []⟩ e.group [] := ⟨by simp, [], rfl, rfl, by simp, by simp, rfl⟩
    exact hempty.addAll (by simp) List.Pairwise.nil (by simp) hsorted (by simp) hfits

theorem foldl_joinLast_of_lt (h : (done ++ ents).Pairwise Posting.lt) : ents.foldl joinLast done = done ++ ents := by
  induction ents generalizing done with
  | nil => simp
  | cons e ents ih =>
    have happ : done ++ e :: ents = (done ++ [e]) ++ ents := by simp
    have hjoin : joinLast done e = done ++ [e] := by
      rcases joinLast_cases done e with ⟨front, last, rfl, hgroup, hnum, -⟩ | ⟨-, hjoin⟩
      . have hlt := (pairwise_append.mp h).2.2 last (by simp) e (by simp)
        exact absurd ⟨hgroup, hnum⟩ (not_same_of_lt hlt)
      . exact hjoin
    rw [foldl_cons, hjoin, happ]
    rw [happ] at h
    exact ih h

theorem chunks_spec (hsorted : (ents.insertionSort Posting.le).Pairwise Posting.lt)
    (hfit : ∀ e ∈ ents, Fits e.group e.payload)
    : (∀ row ∈ chunks ents, ChunkRow row) ∧ (chunks ents).flatMap entsOf = ents.insertionSort Posting.le := by
  rcases chunks_joinLast hfit with ⟨hrows, hents⟩
  refine ⟨hrows, ?_⟩
  rw [hents, foldl_joinLast_of_lt (by simpa using hsorted), nil_append]

theorem chunkRows_pairwise {rows : List (Bytes × Bytes)} (hrows : ∀ row ∈ rows, ChunkRow row)
    (hasc : (rows.flatMap entsOf).Pairwise Posting.lt) : rows.Pairwise (fun r s => r.1 < s.1) := by
  rw [pairwise_flatMap] at hasc
  apply hasc.2.imp_of_mem
  intro r s hr hs hlt
  rcases (hrows r hr).head with ⟨e, he, hrkey⟩
  rcases (hrows s hs).head with ⟨e', he', hskey⟩
  have hlt := hlt e (mem_of_head? he) e' (mem_of_head? he')
  have hgroup : ∀ {row : Bytes × Bytes} {e : Posting}, row ∈ rows → row.1 = suffixed e.group e.txnum → IsGroup e.group := by
    intro row e hrow hkey
    rcases (hrows row hrow).key with ⟨g, first, hg, hkey'⟩
    rw [hkey, suffixed_inj] at hkey'
    rw [hkey'.1]
    exact hg
  rw [hrkey, hskey, prefixFree_isGroup.suffixed_lt_iff (hgroup hr hrkey) (hgroup hs hskey)]
  exact hlt

end EpochDB.Store.Sealed
