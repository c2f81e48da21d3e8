import EpochDB.Store.Resident.Overlay

/-!
The resident overlay is transparent: whatever was pinned, seeded, mapped and dropped, a read of a section
gives the bytes of the artifact. A mapping stays as long as an overlay aliases it, and what is mapped is what
was written.
-/

namespace EpochDB.Store.Resident

open List Option
open Sealed (Section)

variable {a : Artifact}

def Genuine (a : Artifact) (file : Bytes) (ranges : Section → List MappedRange) : Prop :=
  ∀ s, ∀ r ∈ ranges s, r.start ≤ r.stop ∧ r.stop ≤ file.length ∧ At a s r.off.toNat (r.bytes file)

theorem bounds_of_follow {start stop : Nat} {rs : List (Section × MappedRange)} (h : Follow start rs stop)
    : start ≤ stop ∧ ∀ r ∈ rs, r.2.start ≤ r.2.stop ∧ r.2.stop ≤ stop := by
  induction rs generalizing start with
  | nil => exact ⟨Nat.le_of_eq h, fun r hr => by cases hr⟩
  | cons r rs ih =>
    rcases h with ⟨hstart, hstop, hrest⟩
    rcases ih hrest with ⟨hle, hrs⟩
    refine ⟨by omega, ?_⟩
    intro r' hr'
    rw [mem_cons] at hr'
    rcases hr' with hr' | hr'
    . rw [hr']
      exact ⟨by omega, hle⟩
    . exact hrs r' hr'

theorem genuine_of_load {path : String} {secs : Section → List ResidentRange} {ranges : Section → List MappedRange}
    (hsecs : ∀ s, ∀ r ∈ secs s, At a s r.off.toNat r.data) (hlen : (writeSidecar secs).length ≤ maxAlloc)
    (hload : loadSidecar path (writeSidecar secs) = .ok ranges) : Genuine a (writeSidecar secs) ranges := by
  have htrips : RoundTrips path secs := roundTrips_of_count hlen (count_lt_of_load hlen hload)
  rcases htrips with ⟨res, hload', htrips⟩
  rw [hload, Ret.ok.injEq] at hload'
  rcases loadSidecar_eq_ok hload with ⟨hfit, rs, pay, hlay, hend, hranges⟩
  have hpay := toNat_payloadStart hlen hfit
  have hfollow := follow_of_layOut (by omega) hlay
  rw [hend] at hfollow
  intro s r hr
  have hin : ∃ e ∈ rs, e.2 = r := by
    rw [hranges, (perm_sortRanges _).mem_iff, List.mem_map] at hr
    rcases hr with ⟨e, he, her⟩
    exact ⟨e, mem_of_mem_filter he, her⟩
  rcases hin with ⟨e, he, her⟩
  rcases (bounds_of_follow hfollow).2 e he with ⟨hstart, hstop⟩
  rw [her] at hstart hstop
  refine ⟨hstart, hstop, ?_⟩
  rw [hload'] at hr
  exact hsecs s _ ((htrips s).1.mem_iff.mp (mem_map_of_mem hr))

namespace World

def fileOf (w : World) (id : Nat) : Option Bytes := (w.maps[id]?).map (·.file)

def holders (w : World) (id : Nat) : Nat := w.secs.countP (fun o => (o.bind (·.mp)) = some id)

structure Sound (a : Artifact) (path : String) (w : World) : Prop where
  secs : ∀ o, some o ∈ w.secs → o.Good a w.fileOf
  maps : ∀ (id : Nat) (m : Mapping), w.maps[id]? = some m → Genuine a m.file m.ranges
  refs : ∀ (id : Nat) (m : Mapping), w.maps[id]? = some m → m.refs = w.holders id + m.loader.toNat
  file : ∀ file ranges, w.file = some file → loadSidecar path file = .ok ranges → Genuine a file ranges

variable {path : String} {w : World}

theorem sound_init (a : Artifact) (path : String) : Sound a path init := by
  refine ⟨?_, ?_, ?_, ?_⟩
  . intro o ho
    cases ho
  . intro id m hm
    cases hm
  . intro id m hm
    cases hm
  . intro file ranges hfile
    cases hfile

variable {i id : Nat} {o : Overlay} {m : Mapping} {w' : World}

theorem mem_of_overlay (h : w.overlay i = some o) : w.secs[i]? = some (some o) := join_eq_some_iff.mp h

theorem getElem?_hold (w : World) (mp : Option Nat) (id : Nat)
    : (w.hold mp).maps[id]? = (w.maps[id]?).map (fun m => { m with refs := m.refs + if mp = some id then 1 else 0 }) := by
  cases mp with
  | none => simp [hold]
  | some k =>
    simp only [hold, List.getElem?_modify, Option.map_eq_map, Option.some.injEq]
    congr 1
    funext m
    split <;> rfl

theorem getElem?_drop (w : World) (mp : Option Nat) (id : Nat)
    : (w.drop mp).maps[id]? = (w.maps[id]?).map (fun m => { m with refs := m.refs - if mp = some id then 1 else 0 }) := by
  cases mp with
  | none => simp [drop]
  | some k =>
    simp only [drop, List.getElem?_modify, Option.map_eq_map, Option.some.injEq]
    congr 1
    funext m
    split <;> rfl

@[simp] theorem secs_hold (w : World) (mp : Option Nat) : (w.hold mp).secs = w.secs := by
  cases mp <;> rfl

@[simp] theorem secs_drop (w : World) (mp : Option Nat) : (w.drop mp).secs = w.secs := by
  cases mp <;> rfl

@[simp] theorem file_hold (w : World) (mp : Option Nat) : (w.hold mp).file = w.file := by
  cases mp <;> rfl

@[simp] theorem file_drop (w : World) (mp : Option Nat) : (w.drop mp).file = w.file := by
  cases mp <;> rfl

@[simp] theorem fileOf_hold (w : World) (mp : Option Nat) : (w.hold mp).fileOf = w.fileOf := by
  funext id
  unfold fileOf
  rw [getElem?_hold, Option.map_map]
  rfl

theorem holders_push (w : World) (o : Overlay) (id : Nat) : (w.push o).holders id = w.holders id + if o.mp = some id then 1 else 0 := by
  simp [holders, push, countP_append, countP_cons]

theorem holders_put (h : w.overlay i = some o) (o' : Option Overlay) (id : Nat)
    : (w.put i o').holders id + (if o.mp = some id then 1 else 0) = w.holders id + if (o'.bind (·.mp)) = some id then 1 else 0 := by
  have hi := mem_of_overlay h
  rcases List.getElem?_eq_some_iff.mp hi with ⟨hlt, hget⟩
  unfold holders put
  rw [countP_set hlt, hget]
  simp only [bind_some, decide_eq_true_eq]
  have hpos : (if o.mp = some id then 1 else 0) ≤ w.secs.countP (fun o => (o.bind (·.mp)) = some id) := by
    split
    . next hmp =>
      apply countP_pos_iff.mpr
      exact ⟨some o, mem_of_getElem? hi, by simpa using hmp⟩
    . exact Nat.zero_le _
  omega

theorem Sound.refs_pos (h : Sound a path w) (ho : some o ∈ w.secs) (hmp : o.mp = some id)
    (hm : w.maps[id]? = some m) : 0 < m.refs := by
  have hpos : 0 < w.holders id := countP_pos_iff.mpr ⟨some o, ho, by simpa using hmp⟩
  have hrefs := h.refs id m hm
  omega

theorem Sound.push (h : Sound a path w) (ho : o.Good a w.fileOf) : Sound a path ((w.push o).hold o.mp) := by
  refine ⟨?_, ?_, ?_, ?_⟩
  . intro o' ho'
    rw [fileOf_hold]
    rw [secs_hold] at ho'
    rcases mem_append.mp ho' with ho' | ho'
    . exact h.secs o' ho'
    . rw [mem_singleton, Option.some.injEq] at ho'
      rw [ho']
      exact ho
  . intro id m hm
    rw [getElem?_hold, map_eq_some_iff] at hm
    rcases hm with ⟨m', hm', rfl⟩
    exact h.maps id m' hm'
  . intro id m hm
    rw [getElem?_hold, map_eq_some_iff] at hm
    rcases hm with ⟨m', hm', rfl⟩
    have hrefs := h.refs id m' hm'
    have hholders : ((w.push o).hold o.mp).holders id = (w.push o).holders id := by
      unfold holders
      rw [secs_hold]
    rw [hholders, holders_push]
    dsimp only
    omega
  . intro file ranges hfile hload
    rw [file_hold] at hfile
    exact h.file file ranges hfile hload

theorem Sound.put (h : Sound a path w) (ho : w.overlay i = some o) {o' : Option Overlay}
    (hgood : ∀ o'', o' = some o'' → o''.Good a w.fileOf) (hsecs : w'.secs = (w.put i o').secs) (hfile : w'.file = w.file)
    (hmaps : ∀ id : Nat, w'.maps[id]? = (w.maps[id]?).map (fun m =>
      { m with refs := m.refs + (if (o'.bind (·.mp)) = some id then 1 else 0) - if o.mp = some id then 1 else 0 })) : Sound a path w' := by
  have hfileOf : w'.fileOf = w.fileOf := by
    funext id
    unfold fileOf
    rw [hmaps, Option.map_map]
    rfl
  refine ⟨?_, ?_, ?_, ?_⟩
  . intro o'' ho''
    rw [hfileOf]
    rw [hsecs] at ho''
    rcases mem_or_eq_of_mem_set ho'' with ho'' | ho''
    . exact h.secs o'' ho''
    . exact hgood o'' ho''.symm
  . intro id m hm
    rw [hmaps, map_eq_some_iff] at hm
    rcases hm with ⟨m', hm', rfl⟩
    exact h.maps id m' hm'
  . intro id m hm
    rw [hmaps, map_eq_some_iff] at hm
    rcases hm with ⟨m', hm', rfl⟩
    have hrefs := h.refs id m' hm'
    have hput := holders_put ho o' id
    have hholders : w'.holders id = (w.put i o').holders id := by
      unfold holders
      rw [hsecs]
    rw [hholders]
    dsimp only
    omega
  . intro file ranges hfile' hload
    rw [hfile] at hfile'
    exact h.file file ranges hfile' hload

theorem Sound.call (h : Sound a path w) {f : Overlay → Call}
    (hf : ∀ o, w.overlay i = some o → Left a w.fileOf o (f o).1) (hw' : w.call i f = some w') : Sound a path w' := by
  unfold World.call at hw'
  split at hw'
  . cases hw'
  . next o ho =>
    have hleft := hf o ho
    split at hw'
    . cases hw'
    . next o' out _ hout =>
      rw [hout] at hleft
      dsimp only at hleft
      have hgood : ∀ o'', some o' = some o'' → o''.Good a w.fileOf := by
        intro o'' ho''
        cases ho''
        exact hleft.good
      split at hw'
      . next hmp =>
        cases hw'
        refine h.put ho hgood rfl rfl ?_
        intro id
        simp only [bind_some, hmp, Nat.add_sub_cancel]
        exact map_id'.symm
      . next hmp =>
        have hnone := hleft.mp.resolve_left hmp
        cases hw'
        refine h.put ho hgood (secs_drop _ _) (file_drop _ _) ?_
        intro id
        rw [getElem?_drop]
        simp only [bind_some, hnone, reduceCtorEq, if_false, Nat.add_zero]
        rfl

theorem Sound.aliases (h : Sound a path w) (hm : w.maps[id]? = some m) (s : Section)
    : ∀ r ∈ aliases id m s, r.Good a w.fileOf s (some id) := by
  intro r hr
  rcases mem_map.mp hr with ⟨r', hr', rfl⟩
  rcases h.maps id m hm s r' hr' with ⟨hstart, hstop, hat⟩
  refine ⟨rfl, m.file, ?_, hstart, hstop, hat⟩
  unfold fileOf
  rw [hm]
  rfl

theorem fileOf_of_getElem? (hm : w.maps[id]? = some m) : w.fileOf id = some m.file := by
  unfold fileOf
  rw [hm]
  rfl

theorem bytes_mapped (hm : w.maps[id]? = some m) (hpos : 0 < m.refs) (start stop : Nat)
    : w.bytes (.mapped id start stop) = some ((m.file.drop start).take (stop - start)) := by
  simp [World.bytes, hm, Nat.ne_of_gt hpos]

theorem Sound.bytes (h : Sound a path w) (ho : some o ∈ w.secs) {r : Held} (hr : r ∈ o.res)
    : ∃ b, w.bytes r.data = some b ∧ b.length = r.data.length ∧ At a o.sec r.off.toNat b := by
  have hgood := (h.secs o ho).res r hr
  unfold Held.Good at hgood
  split at hgood
  . next b hb =>
    rw [hb]
    exact ⟨b, rfl, rfl, hgood⟩
  . next id start stop hdata =>
    rw [hdata]
    rcases hgood with ⟨hmp, file, hfile, hstart, hstop, hat⟩
    unfold fileOf at hfile
    rcases map_eq_some_iff.mp hfile with ⟨m, hm, rfl⟩
    have hpos := h.refs_pos ho hmp hm
    refine ⟨_, bytes_mapped hm hpos start stop, ?_, hat⟩
    have hlen : (Data.mapped id start stop).length = stop - start := rfl
    rw [hlen, length_take, length_drop]
    omega

theorem exists_of_mapM {α β : Type} {f : α → Option β} {l : List α} {l' : List β} (h : l.mapM f = some l')
    : ∀ y ∈ l', ∃ x ∈ l, f x = some y := by
  induction l generalizing l' with
  | nil =>
    cases h
    intro y hy
    cases hy
  | cons x l ih =>
    rw [mapM_cons, bind_eq_bind, bind_eq_some_iff] at h
    rcases h with ⟨y, hy, h⟩
    rw [bind_eq_bind, bind_eq_some_iff] at h
    rcases h with ⟨l'', hl'', h⟩
    cases h
    intro z hz
    rw [mem_cons] at hz
    rcases hz with hz | hz
    . rw [hz]
      exact ⟨x, mem_cons_self, hy⟩
    . rcases ih hl'' z hz with ⟨x', hx', hz⟩
      exact ⟨x', mem_cons_of_mem x hx', hz⟩

theorem Sound.copied (h : Sound a path w) (ho : some o ∈ w.secs) {rs : List ResidentRange} (hrs : w.copied o = some rs)
    : ∀ r ∈ rs, At a o.sec r.off.toNat r.data := by
  intro r hr
  rcases exists_of_mapM hrs r hr with ⟨r', hr', hdata⟩
  rcases h.bytes ho hr' with ⟨b, hb, -, hat⟩
  rw [hb] at hdata
  cases hdata
  exact hat

theorem Sound.ranges (h : Sound a path w) {pick : Section → Option Nat} {s : Section} {rs : List ResidentRange}
    (hrs : w.ranges pick s = some rs) : ∀ r ∈ rs, At a s r.off.toNat r.data := by
  unfold World.ranges at hrs
  split at hrs
  . cases hrs
    intro r hr
    cases hr
  . next i hi =>
    rcases bind_eq_some_iff.mp hrs with ⟨o, ho, hcopied⟩
    split at hcopied
    . next hsec =>
      rw [← hsec]
      exact h.copied (mem_of_getElem? (mem_of_overlay ho)) hcopied
    . cases hcopied

theorem Sound.load (h : Sound a path w) {file : Bytes} {ranges : Section → List MappedRange} (hranges : Genuine a file ranges)
    : Sound a path { w with maps := w.maps ++ [⟨file, ranges, 1, true⟩] } := by
  have hlast : w.holders w.maps.length = 0 := by
    apply countP_eq_zero.mpr
    intro o ho
    cases o with
    | none => simp
    | some o =>
      simp only [bind_some, decide_eq_true_eq]
      intro hmp
      rcases (h.secs o ho).mp _ hmp with ⟨file, hfile⟩
      unfold fileOf at hfile
      rw [getElem?_eq_none (Nat.le_refl _)] at hfile
      cases hfile
  have hcases : ∀ (id : Nat) (m : Mapping), (w.maps ++ [⟨file, ranges, 1, true⟩])[id]? = some m →
      w.maps[id]? = some m ∨ id = w.maps.length ∧ m = ⟨file, ranges, 1, true⟩ := by
    intro id m hm
    rw [getElem?_append] at hm
    split at hm
    . exact .inl hm
    . next hge =>
      rw [getElem?_singleton] at hm
      split at hm
      . cases hm
        exact .inr ⟨by omega, rfl⟩
      . cases hm
  refine ⟨?_, ?_, ?_, h.file⟩
  . intro o ho
    have hmono : ∀ id f, w.fileOf id = some f → fileOf { w with maps := w.maps ++ [⟨file, ranges, 1, true⟩] } id = some f := by
      intro id f hf
      unfold fileOf at hf ⊢
      rcases map_eq_some_iff.mp hf with ⟨m, hm, rfl⟩
      dsimp only
      rw [List.getElem?_append_left (List.getElem?_eq_some_iff.mp hm).1, hm]
      rfl
    exact (h.secs o ho).mono hmono
  . intro id m hm
    rcases hcases id m hm with hm | ⟨-, rfl⟩
    . exact h.maps id m hm
    . exact hranges
  . intro id m hm
    rcases hcases id m hm with hm | ⟨rfl, rfl⟩
    . exact h.refs id m hm
    . have hsame : holders { w with maps := w.maps ++ [⟨file, ranges, 1, true⟩] } w.maps.length = w.holders w.maps.length := rfl
      rw [hsame, hlast]
      rfl

theorem Sound.loaded (h : Sound a path w) (hm : w.maps[id]? = some m) (hloader : m.loader = true)
    : Sound a path (({ w with maps := w.maps.modify id (fun m => { m with loader := false }) } : World).drop (some id)) := by
  have hmaps : ∀ k : Nat, (({ w with maps := w.maps.modify id (fun m => { m with loader := false }) } : World).drop (some id)).maps[k]? =
      (w.maps[k]?).map (fun m => if id = k then { m with loader := false, refs := m.refs - 1 } else m) := by
    intro k
    rw [getElem?_drop, List.getElem?_modify, Option.map_eq_map, Option.map_map]
    congr 1
    funext m
    simp only [Function.comp_apply, Option.some.injEq]
    split <;> rfl
  refine ⟨?_, ?_, ?_, ?_⟩
  . intro o ho
    rw [secs_drop] at ho
    refine (h.secs o ho).mono ?_
    intro k f hf
    unfold fileOf at hf ⊢
    rcases map_eq_some_iff.mp hf with ⟨m', hm', rfl⟩
    rw [hmaps, hm']
    simp only [map_some, Option.some.injEq]
    split <;> rfl
  . intro k m' hm'
    rw [hmaps, map_eq_some_iff] at hm'
    rcases hm' with ⟨m'', hm'', rfl⟩
    have hgenuine := h.maps k m'' hm''
    split
    . exact hgenuine
    . exact hgenuine
  . intro k m' hm'
    have hholders : (({ w with maps := w.maps.modify id (fun m => { m with loader := false }) } : World).drop (some id)).holders k =
        w.holders k := by
      unfold holders
      rw [secs_drop]
    rw [hholders]
    rw [hmaps, map_eq_some_iff] at hm'
    rcases hm' with ⟨m'', hm'', rfl⟩
    have hrefs := h.refs k m'' hm''
    split
    . next hk =>
      rw [hk, hm''] at hm
      cases hm
      rw [hloader] at hrefs
      dsimp only
      rw [hrefs]
      rfl
    . exact hrefs
  . intro file ranges hfile hload
    rw [file_drop] at hfile
    exact h.file file ranges hfile hload

theorem Sound.step (h : Sound a path w) {e : Event} (hin : Inside a w e) (hw' : Resident.step a path w e = some w')
    : Sound a path w' := by
  have hopen : ∀ {i : Nat} {o : Overlay}, w.overlay i = some o → o.Good a w.fileOf :=
    fun ho => h.secs _ (mem_of_getElem? (mem_of_overlay ho))
  unfold Resident.step at hw'
  cases e with
  | fresh s =>
    cases hw'
    refine h.push (o := ⟨s, [], none, none⟩) ⟨?_, ?_, ?_⟩
    . intro r hr
      cases hr
    . intro t ht
      cases ht
    . intro id hid
      cases hid
  | seed i =>
    rcases map_eq_some_iff.mp hw' with ⟨o, ho, rfl⟩
    exact h.push (hopen ho).dropTail.good
  | load =>
    dsimp only at hw'
    split at hw'
    . cases hw'
      exact h
    . next file hfile =>
      split at hw'
      . next ranges hload =>
        cases hw'
        exact h.load (h.file file ranges hfile hload)
      . cases hw'
        exact h
      . cases hw'
  | attach id s =>
    dsimp only at hw'
    split at hw'
    . cases hw'
    . next m hm =>
      split at hw'
      . cases hw'
        refine h.push (o := ⟨s, World.aliases id m s, none, some id⟩) ⟨h.aliases hm s, ?_, ?_⟩
        . intro t ht
          cases ht
        . intro k hk
          cases hk
          exact ⟨m.file, fileOf_of_getElem? hm⟩
      . cases hw'
  | repoint i id =>
    dsimp only at hw'
    split at hw'
    . next m o hm ho =>
      split at hw'
      . next hloader =>
        cases hw'
        refine h.put ho ?_ (secs_hold _ _) (file_hold _ _) ?_
        . intro o' ho'
          cases ho'
          refine ⟨h.aliases hm o.sec, (hopen ho).tail, ?_⟩
          intro k hk
          cases hk
          exact ⟨m.file, fileOf_of_getElem? hm⟩
        . intro k
          rw [getElem?_hold]
          simp only [bind_some, hloader.2, reduceCtorEq, if_false, Nat.sub_zero]
          rfl
      . cases hw'
    . cases hw'
  | loaded id =>
    dsimp only at hw'
    split at hw'
    . cases hw'
    . next m hm =>
      split at hw'
      . next hloader =>
        cases hw'
        exact h.loaded hm hloader
      . cases hw'
  | reside i bhs => exact h.call (fun o ho => (hopen ho).reside (hin o ho)) hw'
  | resideGap i stop => exact h.call (fun o ho => (hopen ho).resideGap stop) hw'
  | resideTail i dataSize => exact h.call (fun o ho => (hopen ho).resideTail dataSize) hw'
  | dropTail i => exact h.call (fun o ho => (hopen ho).dropTail) hw'
  | resideAll i => exact h.call (fun o ho => (hopen ho).resideAll) hw'
  | release i => exact h.call (fun o ho => (hopen ho).release) hw'
  | close i =>
    rcases map_eq_some_iff.mp hw' with ⟨o, ho, rfl⟩
    have hnone : ∀ o'', (none : Option Overlay) = some o'' → o''.Good a w.fileOf := fun o'' ho'' => by cases ho''
    refine h.put ho hnone (secs_drop _ _) (file_drop _ _) ?_
    . intro id
      rw [getElem?_drop]
      simp only [bind_none, reduceCtorEq, if_false, Nat.add_zero]
      rfl
  | writeSidecar pick =>
    dsimp only at hw'
    split at hw'
    . next chain state lookup hchain hstate hlookup =>
      split at hw'
      . next hlen =>
        cases hw'
        refine ⟨h.secs, h.maps, h.refs, ?_⟩
        intro file ranges hfile hload
        cases hfile
        refine genuine_of_load ?_ hlen hload
        intro s
        cases s with
        | chain => exact h.ranges hchain
        | state => exact h.ranges hstate
        | lookup => exact h.ranges hlookup
      . cases hw'
    . cases hw'
  | removeSidecar =>
    cases hw'
    refine ⟨h.secs, h.maps, h.refs, ?_⟩
    intro file ranges hfile
    cases hfile

theorem sound_of_reachable (h : Transition.Reachable (Resident.step a path) (Inside a) init w) : Sound a path w :=
  h.invariant (sound_init a path) (fun _ _ _ hs hg hstep => hs.step hg hstep)

end World

/--
A read of an open section gives the bytes of the artifact where it lies in the section, and `EOF` elsewhere,
whatever the overlay holds.
-/
theorem readAt_eq {path : String} {w : World} (h : Transition.Reachable (step a path) (Inside a) World.init w) {i : Nat} {o : Overlay}
    (ho : w.overlay i = some o) (n : Nat) (off : Int)
    : readAt a w o n off =
        if 0 ≤ off ∧ off.toNat + n ≤ a.len o.sec then .ok (((a.sec o.sec).drop off.toNat).take n) else .error .eof := by
  have hsound := World.sound_of_reachable h
  have hmem : some o ∈ w.secs := mem_of_getElem? (World.mem_of_overlay ho)
  unfold readAt
  split
  . next hout =>
    rw [if_neg]
    omega
  . next hin =>
    split
    . next hout =>
      rw [if_neg]
      omega
    . next hfit =>
      have hn : off.toNat + n ≤ a.len o.sec := by omega
      rw [if_pos ⟨by omega, hn⟩, (hsound.secs o hmem).read hn]
      dsimp only
      split
      . rfl
      . next r hr =>
        split at hr
        . cases hr
        . next hpos =>
          split
          . next hcover =>
            -- the search stops behind a range that starts at or before the offset
            have hstart := bsearch_pred (Nat.pos_of_ne_zero hpos)
            rw [hr, any_some, decide_eq_true_eq] at hstart
            rcases hsound.bytes hmem (mem_of_getElem? hr) with ⟨b, hb, hlen, hat⟩
            have hroom := hat.1
            have hsmall := len_le_maxAlloc a o.sec
            have hmax : maxAlloc < 2 ^ 64 := by decide
            rw [← hlen, Nat.mod_eq_of_lt (by omega)] at hcover
            rw [hb]
            dsimp only
            rw [hat.part hstart hcover]
          . rfl

def countingOff : Section → Nat
  | .chain => 0
  | .state => 10
  | .lookup => 30

def countingLen : Section → Nat
  | .state => 20
  | _ => 10

theorem countingOff_add_countingLen_le (s : Section) : countingOff s + countingLen s ≤ ((List.range 40).map UInt8.ofNat).length := by
  cases s <;> decide

theorem length_counting_le : ((List.range 40).map UInt8.ofNat).length ≤ maxAlloc := by decide

def counting : Artifact :=
  ⟨(List.range 40).map UInt8.ofNat, countingOff, countingLen, countingOff_add_countingLen_le, length_counting_le⟩

def handOver : List Event :=
  [.fresh .state, .resideTail 0 12, .reside 0 [⟨13, 2⟩], .resideGap 0 18, .dropTail 0,
    .writeSidecar (fun s => if s = .state then some 0 else none), .load, .repoint 0 0, .loaded 0, .seed 0, .close 0]

theorem readAt_handOver
    : ∃ w o, Transition.Reachable (step counting "run") (Inside counting) World.init w ∧ w.overlay 1 = some o ∧ o.mp = some 0 ∧
        readAt counting w o 4 14 = .ok [24, 25, 26, 27] ∧ readAt counting w o 4 17 = .error .eof := by
  have hrun : (Transition.run (fun w e => if insideB counting w e then step counting "run" w e else none) World.init handOver).map
      (fun w => w.overlay 1) = some (some ⟨.state, [⟨13, .mapped 0 46 53⟩, ⟨18, .mapped 0 53 55⟩], none, some 0⟩) := by
    decide +kernel
  rcases map_eq_some_iff.mp hrun with ⟨w, hw, ho⟩
  have hreach : Transition.Reachable (step counting "run") (Inside counting) World.init w :=
    Transition.Reachable.run_checked (fun _ _ => inside_of_insideB) .init hw
  refine ⟨w, _, hreach, ho, rfl, ?_, ?_⟩
  . rw [readAt_eq hreach ho, if_pos (by decide)]
    exact congrArg Ret.ok (by decide)
  . rw [readAt_eq hreach ho, if_neg (by decide)]

end EpochDB.Store.Resident
