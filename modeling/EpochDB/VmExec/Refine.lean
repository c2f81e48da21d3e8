import EpochDB.VmExec.Engine

/-!
The layered engine refines the flat state: under every interleaving of write sets, freezes, background
merges and swaps it answers what the flat state holds.
-/

namespace EpochDB.VmExec

open List
open Store (Hash)
open Latest

theorem Key.bytes_injective {key key' : Key} (h : key.bytes = key'.bytes) : key = key' := by
  have hlen := congrArg List.length h
  cases key with
  | account a =>
    cases key' with
    | account a' =>
      have := append_cancel_right h
      rw [Subtype.ext this]
    | slot a' k' => simp [Key.bytes, accountKey, slotKey, a.property, a'.property, k'.property] at hlen
  | slot a k =>
    cases key' with
    | account a' => simp [Key.bytes, accountKey, slotKey, a.property, a'.property, k.property] at hlen
    | slot a' k' =>
      simp only [Key.bytes, slotKey, append_assoc] at h
      rcases append_inj h (by rw [a.property, a'.property]) with ⟨ha, hk⟩
      rw [Subtype.ext ha, Subtype.ext (List.cons.inj hk).2]

theorem inBounds_slotRange (ah : Hash) (key : Key)
    : inBounds (Engine.slotRange ah).1 (Engine.slotRange ah).2 key.bytes = true ↔
        ∃ slotHash, key = .slot ah slotHash := by
  simp only [inBounds, Engine.slotRange, Option.all_some, Bool.and_eq_true, decide_eq_true_eq]
  cases key with
  | account h =>
    have := Bytes.between_iff (p := ah.val) (q := h.val) (by rw [ah.property, h.property]) 0 []
    simp only [Key.bytes, accountKey, this]
    simp
  | slot ah' slotHash =>
    have := Bytes.between_iff (p := ah.val) (q := ah'.val) (by rw [ah.property, ah'.property]) 1 slotHash.val
    simp only [Key.bytes, slotKey, append_assoc, singleton_append, this, and_true]
    constructor
    . intro h
      exact ⟨slotHash, by rw [Subtype.ext h]⟩
    . rintro ⟨k, h⟩
      cases h
      rfl

structure Shows (v : View) (r : State) : Prop where
  get : ∀ key : Key, v.get key.bytes = r.read key
  shaped : ∀ k val, v.get k = some val → ∃ key : Key, k = key.bytes

variable {r : State} {s : Engine} {ah : Hash}

theorem Shows.get_eq_some {v : View} (h : Shows v r) (k val : Bytes)
    : v.get k = some val ↔ ∃ key : Key, k = key.bytes ∧ r.read key = some val := by
  constructor
  . intro hget
    rcases h.shaped k val hget with ⟨key, rfl⟩
    exact ⟨key, rfl, by rw [← h.get]; exact hget⟩
  . rintro ⟨key, rfl, hread⟩
    rw [h.get]
    exact hread

theorem Shows.congr {v v' : View} (h : Shows v r) (hget : ∀ k, v'.get k = v.get k)
    : Shows v' r where
  get key := (hget key.bytes).trans (h.get key)
  shaped k val hval := h.shaped k val ((hget k).symm.trans hval)

structure Refines (s : Engine) (r : State) : Prop where
  shows : Shows s.view r
  owners : ∀ ah slotHash val, s.overlay.get (slotKey ah slotHash) = some val → val ≠ [] → ah ∈ s.owners
  frozenOwners : ∀ o, s.under = some o →
    ∀ ah slotHash val, o.get (slotKey ah slotHash) = some val → val ≠ [] → ah ∈ s.frozenOwners

namespace Engine

theorem get_put (s : Engine) (key val key' : Bytes)
    : (s.put key val).view.get key' = if key' = key then View.live (some val) else s.view.get key' :=
  View.get_put s.overlay s.under.toList s.runs key val key'

structure Clears (s : Engine) (P : Bytes → Prop) (s' : Engine) : Prop where
  gone : ∀ k, P k → s'.view.get k = none
  kept : ∀ k, ¬ P k → s'.view.get k = s.view.get k
  overlay : ∀ k val, s'.overlay.get k = some val → val ≠ [] → s.overlay.get k = some val
  rest : s' = { s with overlay := s'.overlay }

theorem clears_foldl (keys : List Bytes) (s : Engine) : Clears s (· ∈ keys) (keys.foldl (fun s k => s.put k []) s) := by
  induction keys generalizing s with
  | nil => exact ⟨by simp, by simp, fun _ _ h _ => h, rfl⟩
  | cons key keys ih =>
    have ih := ih (s.put key [])
    refine ⟨?_, ?_, ?_, ?_⟩
    . intro k hk
      rw [mem_cons] at hk
      rcases Classical.em (k ∈ keys) with hmem | hmem
      . exact ih.gone k hmem
      . have hkey : k = key := hk.resolve_right hmem
        rw [foldl_cons, ih.kept k hmem, get_put, if_pos hkey]
        rfl
    . intro k hk
      rw [mem_cons, not_or] at hk
      rw [foldl_cons, ih.kept k hk.2, get_put, if_neg hk.1]
    . intro k val hval hne
      have := ih.overlay k val hval hne
      rw [put, SortedMap.get_put] at this
      split at this
      . cases this
        exact absurd rfl hne
      . exact this
    . exact ih.rest

end Engine

theorem Refines.slot_eq_none (h : Refines s r) (howners : ah ∉ s.owners) (hfrozen : ah ∉ s.frozenOwners)
    (hruns : ((View.mk [] s.runs).iter (Engine.slotRange ah).1 (Engine.slotRange ah).2).rows = [])
    (slotHash : Hash) : s.view.get (slotKey ah slotHash) = none := by
  have hempty : ∀ (o : Overlay) val, (o = s.overlay ∨ s.under = some o) →
      o.get (slotKey ah slotHash) = some val → val = [] := by
    intro o val ho hval
    by_contra hne
    rcases ho with rfl | ho
    . exact howners (h.owners ah slotHash val hval hne)
    . exact hfrozen (h.frozenOwners o ho ah slotHash val hval hne)
  have hbase : (View.mk [] s.runs).get (slotKey ah slotHash) = none := by
    have hin := (inBounds_slotRange ah (.slot ah slotHash)).mpr ⟨slotHash, rfl⟩
    have hiter := View.get_iter (View.mk [] s.runs) (Engine.slotRange ah).1 (Engine.slotRange ah).2
      (slotKey ah slotHash)
    rw [Key.bytes] at hin
    rw [if_pos hin] at hiter
    rw [← hiter, SortedMap.get, hruns]
    rfl
  rw [View.get_eq] at hbase ⊢
  simp only [Engine.view, cons_append, findSome?_cons]
  cases hover : s.overlay.get (slotKey ah slotHash) with
  | some val =>
    rw [hempty s.overlay val (.inl rfl) hover]
    rfl
  | none =>
    cases hu : s.under with
    | none => exact hbase
    | some o =>
      simp only [Option.toList, singleton_append, findSome?_cons]
      cases ho : o.get (slotKey ah slotHash) with
      | some val =>
        rw [hempty o val (.inr hu) ho]
        rfl
      | none => exact hbase

theorem Refines.tombstoneSlots (h : Refines s r) (ah : Hash)
    : s.Clears (fun k => ∃ slotHash, k = slotKey ah slotHash) (s.tombstoneSlots ah) := by
  unfold Engine.tombstoneSlots
  dsimp only
  split
  . next hgate =>
    rcases hgate with ⟨howners, hfrozen, hruns⟩
    refine ⟨?_, fun _ _ => rfl, fun _ _ hval _ => hval, rfl⟩
    rintro k ⟨slotHash, rfl⟩
    exact h.slot_eq_none howners hfrozen hruns slotHash
  . generalize hkeys : ((s.view.iter (Engine.slotRange ah).1 (Engine.slotRange ah).2).rows.map (·.1)) = keys
    have hclears := Engine.clears_foldl keys s
    -- the keys walked are the live ones of the range, and only slots of the account are in it
    have hmem : ∀ k, k ∈ keys ↔ ∃ val, s.view.get k = some val ∧ ∃ slotHash, k = slotKey ah slotHash := by
      intro k
      rw [← hkeys, mem_map]
      constructor
      . rintro ⟨⟨k', val⟩, hrow, rfl⟩
        rw [← SortedMap.get_eq_some, View.get_iter] at hrow
        split at hrow
        . next hin =>
          rcases h.shows.shaped k' val hrow with ⟨key, rfl⟩
          rcases (inBounds_slotRange ah key).mp hin with ⟨slotHash, rfl⟩
          exact ⟨val, hrow, slotHash, rfl⟩
        . contradiction
      . rintro ⟨val, hval, slotHash, rfl⟩
        refine ⟨(slotKey ah slotHash, val), ?_, rfl⟩
        rw [← SortedMap.get_eq_some, View.get_iter]
        have hin := (inBounds_slotRange ah (.slot ah slotHash)).mpr ⟨slotHash, rfl⟩
        rw [Key.bytes] at hin
        rw [if_pos hin]
        exact hval
    refine ⟨?_, ?_, hclears.overlay, hclears.rest⟩
    . intro k hk
      rcases Classical.em (k ∈ keys) with hin | hin
      . exact hclears.gone k hin
      . rw [hclears.kept k hin, Option.eq_none_iff_forall_ne_some]
        intro val hval
        exact hin ((hmem k).mpr ⟨val, hval, hk⟩)
    . intro k hk
      exact hclears.kept k (fun hin => hk ((hmem k).mp hin).choose_spec.2)

theorem Shows.put {o : Overlay} {os : List Overlay} {runs : List Run} {r r' : State}
    (h : Shows ⟨o :: os, runs⟩ r) (key : Key) (val : Bytes)
    (hread : ∀ key', r'.read key' = if key' = key then View.live (some val) else r.read key')
    : Shows ⟨o.put key.bytes val :: os, runs⟩ r' := by
  constructor
  . intro key'
    rw [View.get_put, hread, h.get]
    by_cases hk : key' = key
    . simp [hk]
    . rw [if_neg (fun heq => hk (Key.bytes_injective heq)), if_neg hk]
  . intro k v hv
    rw [View.get_put] at hv
    split at hv
    . next hk => exact ⟨key, hk⟩
    . exact h.shaped k v hv

theorem Refines.put {r r' : State} (h : Refines s r) (key : Key) (val : Bytes)
    (hread : ∀ key', r'.read key' = if key' = key then View.live (some val) else r.read key')
    (howner : ∀ ah slotHash, key = .slot ah slotHash → val ≠ [] → ah ∈ s.owners)
    : Refines (s.put key.bytes val) r' where
  shows := h.shows.put key val hread
  owners := by
    intro ah slotHash v hv hne
    rw [Engine.put, SortedMap.get_put] at hv
    split at hv
    . next hk =>
      cases hv
      have hkey : (Key.slot ah slotHash).bytes = key.bytes := hk
      exact howner ah slotHash (Key.bytes_injective hkey).symm hne
    . exact h.owners ah slotHash v hv hne
  frozenOwners := h.frozenOwners

theorem Refines.clears {s s' : Engine} (h : Refines s r)
    (hclears : s.Clears (fun k => ∃ slotHash, k = slotKey ah slotHash) s')
    : Refines s' { r with slot := Function.update r.slot ah (fun _ => none) } := by
  have hunder : s'.under = s.under := by rw [hclears.rest]
  have howners : s'.owners = s.owners := by rw [hclears.rest]
  have hfrozen : s'.frozenOwners = s.frozenOwners := by rw [hclears.rest]
  refine ⟨⟨?_, ?_⟩, ?_, ?_⟩
  . intro key
    cases key with
    | account a =>
      rw [hclears.kept, h.shows.get]
      . rfl
      . rintro ⟨slotHash, hk⟩
        have hkey : (Key.account a).bytes = (Key.slot ah slotHash).bytes := hk
        cases Key.bytes_injective hkey
    | slot a slotHash =>
      by_cases ha : a = ah
      . subst ha
        have hgone : s'.view.get (Key.slot a slotHash).bytes = none := hclears.gone _ ⟨slotHash, rfl⟩
        simp [hgone, State.read]
      . rw [hclears.kept, h.shows.get]
        . simp [State.read, ha]
        . rintro ⟨slotHash', hk⟩
          have hkey : (Key.slot a slotHash).bytes = (Key.slot ah slotHash').bytes := hk
          cases Key.bytes_injective hkey
          exact ha rfl
  . intro k val hval
    rcases Classical.em (∃ slotHash, k = slotKey ah slotHash) with hk | hk
    . rw [hclears.gone k hk] at hval
      contradiction
    . rw [hclears.kept k hk] at hval
      exact h.shows.shaped k val hval
  . intro a slotHash val hval hne
    rw [howners]
    exact h.owners a slotHash val (hclears.overlay _ _ hval hne) hne
  . intro o ho
    rw [hunder] at ho
    rw [hfrozen]
    exact h.frozenOwners o ho

theorem State.read_apply (r : State) {op : Op} (h : ∀ a, op.k = .account a → op.v ≠ []) (key : Key)
    : State.read (FlatState.apply r op.write) key =
        if key = op.k then View.live (some op.v) else r.read key := by
  rcases op with ⟨k, v⟩
  cases k with
  | account a =>
    have hlive : View.live (some v) = some v := View.live_eq_self (by simpa using h a rfl)
    simp only [Op.write, hlive]
    cases key with
    | account a' => simp [State.read, FlatState.account_apply_account]
    | slot a' slotHash => simp [State.read, FlatState.apply]
  | slot a slotHash =>
    cases key with
    | account a' => simp [State.read, FlatState.apply, Op.write]
    | slot a' slotHash' => simp [State.read, FlatState.slot_apply_slot, Op.write]

theorem Refines.applyOp (h : Refines s r) (op : Op) : Refines (s.applyOp op) (FlatState.apply r op.write) := by
  rcases op with ⟨k, v⟩
  unfold Engine.applyOp
  cases hv : v.isEmpty with
  | true =>
    have hnil : v = [] := isEmpty_iff.mp hv
    subst hnil
    cases k with
    | account a =>
      refine (h.clears (h.tombstoneSlots a)).put (.account a) [] ?_ (by simp)
      intro key
      have hlive : View.live (some []) = none := rfl
      simp only [Op.write, hlive]
      cases key with
      | account a' => simp [State.read, FlatState.account_apply_account]
      | slot a' slotHash => simp [State.read, FlatState.apply]
    | slot a slotHash =>
      exact h.put (.slot a slotHash) [] (State.read_apply r (by simp)) (fun _ _ _ hne => absurd rfl hne)
  | false =>
    have hne : v ≠ [] := by simpa using hv
    have hread := @State.read_apply r ⟨k, v⟩ (fun _ _ => hne)
    cases k with
    | account a => exact h.put (.account a) v hread (by simp)
    | slot a slotHash =>
      have h' : Refines { s with owners := s.owners.insert a } r :=
        ⟨h.shows, fun ah k val hval hne => mem_insert_of_mem (h.owners ah k val hval hne), h.frozenOwners⟩
      refine h'.put (.slot a slotHash) v hread ?_
      intro ah k hk _
      cases hk
      exact mem_insert_self

theorem Refines.applyOverlay (h : Refines s r) (ws : List Op) : Refines (s.applyOverlay ws) (r.apply ws) := by
  induction ws generalizing s r with
  | nil => exact h
  | cons op ws ih => exact ih (h.applyOp op)

structure Sys where
  eng : Engine
  ref : State
  frozenRef : State
  dead : Bool

inductive Event where
  | apply (ws : List Op)
  | maybeRoll (budget : Nat)
  | mergeDone (ok : Bool)
  | finishRoll (ok : Bool)

namespace Sys

def init (alloc : List Engine.GenesisAccount) : Sys where
  eng := Engine.newEngine alloc
  ref := State.empty.apply (alloc.flatMap Engine.GenesisAccount.ops)
  frozenRef := State.empty
  dead := false

def step (s : Sys) (e : Event) : Option Sys :=
  if s.dead then
    none
  else
    match e with
    | .apply ws => some { s with eng := s.eng.applyOverlay ws, ref := s.ref.apply ws }
    | .maybeRoll budget =>
      some { s with
        eng := s.eng.maybeRoll budget
        frozenRef := if s.eng.frozen.isSome ∨ s.eng.overlay.bytes < budget then s.frozenRef else s.ref }
    | .mergeDone ok => some { s with eng := s.eng.mergeDone ok }
    | .finishRoll ok =>
      let (eng, failed) := s.eng.finishRoll ok
      some { s with eng := eng, dead := failed }

end Sys

def LiveWrites (r : State) (ws : List Op) : Prop :=
  match ws with
  | [] => True
  | op :: ws =>
    (∀ ah slotHash, op.k = .slot ah slotHash → op.v ≠ [] → r.account ah ≠ none) ∧
      LiveWrites (r.apply [op]) ws

def Live (s : Sys) (e : Event) : Prop :=
  match e with
  | .apply ws => LiveWrites s.ref ws
  | _ => True

def Owned (r : State) : Prop := ∀ ah slotHash, r.account ah = none → r.slot ah slotHash = none

theorem Owned.apply (h : Owned r) {ws : List Op} (hws : LiveWrites r ws) : Owned (r.apply ws) := by
  induction ws generalizing r with
  | nil => exact h
  | cons op ws ih =>
    refine ih ?_ hws.2
    have hop := hws.1
    rcases op with ⟨k, v⟩
    intro ah slotHash hacc
    cases k with
    | account a =>
      rw [Op.write, FlatState.account_apply_account] at hacc
      rw [Op.write]
      by_cases ha : ah = a
      . rw [if_pos ha] at hacc
        rw [hacc, FlatState.slot_apply_delete, if_pos ha]
      . rw [if_neg ha] at hacc
        cases hv : View.live (some v) with
        | none => rw [FlatState.slot_apply_delete, if_neg ha, h ah slotHash hacc]
        | some v => exact h ah slotHash hacc
    | slot a k =>
      have hacc' : r.account ah = none := hacc
      rw [Op.write, FlatState.slot_apply_slot]
      split
      . next heq =>
        by_cases hv : v = []
        . rw [hv]
          rfl
        . rw [heq.1] at hacc'
          exact absurd hacc' (hop a k rfl hv)
      . exact h ah slotHash hacc'

theorem View.live_or (a b : Option Bytes) : View.live (a.or (View.live b)) = View.live (a.or b) := by
  cases a with
  | some v => rfl
  | none => simp [View.live]

def RollOk (s : Sys) : Prop :=
  match s.eng.rollDone with
  | .idle => s.eng.frozen = none
  | .running v => ∃ o, s.eng.frozen = some o ∧ v = ⟨[o], s.eng.runs⟩ ∧ Shows v s.frozenRef
  | .done none => s.eng.frozen ≠ none
  | .done (some run) =>
    ∃ o, s.eng.frozen = some o ∧ run = View.merge ⟨[o], s.eng.runs⟩ ∧
      Shows ⟨[o], s.eng.runs⟩ s.frozenRef

structure Inv (s : Sys) : Prop where
  refines : Refines s.eng s.ref
  owned : Owned s.ref
  under : s.dead = false → s.eng.under = s.eng.frozen
  roll : RollOk s

theorem shows_foldl {o : Overlay} (h : Shows ⟨[o], []⟩ r) {ops : List Op}
    (hops : ∀ op ∈ ops, ∀ a, op.k = .account a → op.v ≠ [])
    : Shows ⟨[ops.foldl (fun o op => o.put op.k.bytes op.v) o], []⟩ (r.apply ops) := by
  induction ops generalizing o r with
  | nil => exact h
  | cons op ops ih =>
    apply ih
    . exact h.put op.k op.v (State.read_apply r (hops op (by simp)))
    . intro op' hop'
      exact hops op' (by simp [hop'])

theorem account_row_ne {a : Engine.GenesisAccount} {op : Op} (hop : op ∈ a.ops) (h : Hash)
    (hk : op.k = .account h) : op.v ≠ [] := by
  rw [Engine.GenesisAccount.ops, mem_cons, mem_map] at hop
  rcases hop with rfl | ⟨_, -, rfl⟩
  . exact a.row_ne
  . contradiction

theorem liveWrites_slots (h : r.account ah ≠ none) {ws rest : List Op} (hws : ∀ op ∈ ws, ∃ slotHash, op.k = .slot ah slotHash)
    (hrest : ∀ r' : State, LiveWrites r' rest) : LiveWrites r (ws ++ rest) := by
  induction ws generalizing r with
  | nil => exact hrest r
  | cons op ws ih =>
    rcases hws op (by simp) with ⟨slotHash, hk⟩
    refine ⟨?_, ih ?_ (fun op' hop' => hws op' (by simp [hop']))⟩
    . intro ah' slotHash' hk' _
      rw [hk] at hk'
      cases hk'
      exact h
    . show (FlatState.apply r op.write).account ah ≠ none
      rw [Op.write, hk]
      exact h

theorem liveWrites_genesis (alloc : List Engine.GenesisAccount) (r : State)
    : LiveWrites r (alloc.flatMap Engine.GenesisAccount.ops) := by
  induction alloc generalizing r with
  | nil => trivial
  | cons a alloc ih =>
    rw [flatMap_cons, Engine.GenesisAccount.ops, cons_append]
    refine ⟨by simp, ?_⟩
    refine @liveWrites_slots _ a.h ?_ _ _ ?_ ih
    . show (FlatState.apply r (Op.write ⟨.account a.h, a.row⟩)).account a.h ≠ none
      rw [Op.write, FlatState.account_apply_account, if_pos rfl, View.live_eq_self (by simpa using a.row_ne)]
      simp
    . intro op hop
      rw [mem_map] at hop
      rcases hop with ⟨⟨slotHash, v⟩, -, rfl⟩
      exact ⟨slotHash, rfl⟩

theorem inv_init (alloc : List Engine.GenesisAccount) : Inv (Sys.init alloc) where
  refines := by
    have hempty : Shows ⟨[.empty], []⟩ State.empty := by
      constructor
      . intro key
        cases key <;> rfl
      . intro k val hval
        contradiction
    have hseed := @shows_foldl _ _ hempty (alloc.flatMap Engine.GenesisAccount.ops) (by
      intro op hop
      rw [mem_flatMap] at hop
      rcases hop with ⟨a, -, hop⟩
      exact account_row_ne hop)
    have hget : ∀ k, (Engine.newEngine alloc).view.get k =
        (View.mk [Engine.seed alloc] []).get k := by
      intro k
      rw [View.get_eq]
      show View.live ([View.merge ⟨[Engine.seed alloc], []⟩].findSome? (·.get k)) = _
      rw [findSome?_cons, View.get_merge]
      cases hk : (View.mk [Engine.seed alloc] []).get k with
      | none => rfl
      | some val => exact View.live_eq_self (by simpa using View.ne_nil_of_get hk)
    refine ⟨hseed.congr hget, ?_, ?_⟩
    . intro ah slotHash val hval
      contradiction
    . intro o ho
      contradiction
  owned := Owned.apply (fun _ _ _ => rfl) (liveWrites_genesis alloc State.empty)
  under _ := rfl
  roll := rfl

theorem Engine.tombstoneSlots_rest (s : Engine) (ah : Hash)
    : s.tombstoneSlots ah = { s with overlay := (s.tombstoneSlots ah).overlay } := by
  unfold Engine.tombstoneSlots
  dsimp only
  split
  . rfl
  . exact (Engine.clears_foldl _ s).rest

theorem Engine.applyOverlay_rest (s : Engine) (ws : List Op)
    : s.applyOverlay ws =
        { s with overlay := (s.applyOverlay ws).overlay, owners := (s.applyOverlay ws).owners } := by
  have hop : ∀ (s : Engine) (op : Op),
      s.applyOp op = { s with overlay := (s.applyOp op).overlay, owners := (s.applyOp op).owners } := by
    intro s op
    unfold Engine.applyOp
    split
    . dsimp only
      split
      . next h _ _ =>
        rw [Engine.tombstoneSlots_rest s h]
        rfl
      . rfl
    . dsimp only
      split <;> rfl
  induction ws generalizing s with
  | nil => rfl
  | cons op ws ih =>
    have := ih (s.applyOp op)
    rw [hop s op] at this
    rw [Engine.applyOverlay, foldl_cons]
    rw [hop s op]
    exact this

theorem Inv.apply {s : Sys} (h : Inv s) {ws : List Op} (hlive : LiveWrites s.ref ws)
    : Inv { s with eng := s.eng.applyOverlay ws, ref := s.ref.apply ws } where
  refines := h.refines.applyOverlay ws
  owned := h.owned.apply hlive
  under hdead := by
    rw [Engine.applyOverlay_rest]
    exact h.under hdead
  roll := by
    have hroll := h.roll
    unfold RollOk at hroll ⊢
    rw [Engine.applyOverlay_rest]
    exact hroll

theorem Inv.maybeRoll {s : Sys} (h : Inv s) (hdead : s.dead = false) (budget : Nat)
    : Inv { s with
        eng := s.eng.maybeRoll budget
        frozenRef := if s.eng.frozen.isSome ∨ s.eng.overlay.bytes < budget then s.frozenRef else s.ref } := by
  unfold Engine.maybeRoll
  split
  . exact h
  . next hroll =>
    rw [not_or] at hroll
    have hfrozen : s.eng.frozen = none := by simpa using hroll.1
    have hunder : s.eng.under = none := (h.under hdead).trans hfrozen
    have hview : s.eng.view = ⟨[s.eng.overlay], s.eng.runs⟩ := by
      rw [Engine.view, hunder]
      rfl
    have hshows : Shows ⟨[s.eng.overlay], s.eng.runs⟩ s.ref := by
      rw [← hview]
      exact h.refines.shows
    refine ⟨⟨hshows.congr (fun _ => rfl), ?_, ?_⟩, h.owned, fun _ => rfl, ?_⟩
    . intro ah slotHash val hval
      contradiction
    . intro o ho
      cases ho
      exact h.refines.owners
    . exact ⟨s.eng.overlay, rfl, rfl, hshows⟩

theorem Inv.mergeDone {s : Sys} (h : Inv s) (ok : Bool) : Inv { s with eng := s.eng.mergeDone ok } := by
  have hroll := h.roll
  unfold RollOk at hroll
  unfold Engine.mergeDone
  cases hr : s.eng.rollDone with
  | idle => exact h
  | done run => exact h
  | running v =>
    rw [hr] at hroll
    rcases hroll with ⟨o, hfrozen, rfl, hshows⟩
    refine ⟨⟨h.refines.shows, h.refines.owners, h.refines.frozenOwners⟩, h.owned, h.under, ?_⟩
    cases ok with
    | true => exact ⟨o, hfrozen, rfl, hshows⟩
    | false =>
      show s.eng.frozen ≠ none
      rw [hfrozen]
      simp

theorem get_swap (o frozen : Overlay) (runs : List Run) (k : Bytes)
    : (View.mk [o] [View.merge ⟨[frozen], runs⟩]).get k = (View.mk [o, frozen] runs).get k := by
  have hmerge := View.get_merge ⟨[frozen], runs⟩ k
  rw [View.get_eq] at hmerge
  rw [View.get_eq, View.get_eq, findSome?_append, findSome?_singleton]
  dsimp only
  rw [findSome?_singleton, hmerge]
  have hrest : ([o, frozen] ++ runs).findSome? (·.get k) =
      (o.get k).or (([frozen] ++ runs).findSome? (·.get k)) := by
    show ([o] ++ ([frozen] ++ runs)).findSome? (·.get k) = _
    rw [findSome?_append, findSome?_singleton]
  rw [hrest]
  exact View.live_or _ _

theorem Inv.finishRoll {s : Sys} (h : Inv s) (hdead : s.dead = false) (ok : Bool)
    : Inv { s with eng := (s.eng.finishRoll ok).1, dead := (s.eng.finishRoll ok).2 } := by
  have hfailed : Inv { s with eng := { s.eng with frozen := none, rollDone := .idle }, dead := true } :=
    ⟨⟨h.refines.shows, h.refines.owners, h.refines.frozenOwners⟩, h.owned, by simp, rfl⟩
  have hroll := h.roll
  unfold RollOk at hroll
  unfold Engine.finishRoll
  cases hr : s.eng.rollDone with
  | idle => exact ⟨h.refines, h.owned, fun _ => h.under hdead, h.roll⟩
  | running v => exact ⟨h.refines, h.owned, fun _ => h.under hdead, h.roll⟩
  | done run =>
    cases run with
    | none => exact hfailed
    | some run =>
      cases ok with
      | false => exact hfailed
      | true =>
        rw [hr] at hroll
        rcases hroll with ⟨o, hfrozen, rfl, -⟩
        have hview : s.eng.view = ⟨[s.eng.overlay, o], s.eng.runs⟩ := by
          rw [Engine.view, h.under hdead, hfrozen]
          rfl
        have hshows := h.refines.shows
        rw [hview] at hshows
        refine ⟨⟨hshows.congr (get_swap _ _ _), h.refines.owners, ?_⟩, h.owned, fun _ => rfl, rfl⟩
        intro o ho
        contradiction

theorem Inv.step {s s' : Sys} {e : Event} (h : Inv s) (hlive : Live s e) (hs : s.step e = some s') : Inv s' := by
  unfold Sys.step at hs
  split at hs
  . contradiction
  . next hdead =>
    have hdead : s.dead = false := by simpa using hdead
    cases e with
    | apply ws =>
      cases hs
      exact h.apply hlive
    | maybeRoll budget =>
      cases hs
      exact h.maybeRoll hdead budget
    | mergeDone ok =>
      cases hs
      exact h.mergeDone ok
    | finishRoll ok =>
      cases hs
      exact h.finishRoll hdead ok

/--
In every state reached by write sets that write slots only under live accounts, the engine answers for
every key what the flat state holds, shows no slot under an account that is gone, and a merged run is
the flat state of its freeze, row for row.
-/
theorem engine_refines_flat {alloc : List Engine.GenesisAccount} {s : Sys}
    (h : Transition.Reachable Sys.step Live (Sys.init alloc) s)
    : (∀ k val, s.eng.get k = some val ↔ ∃ key : Key, k = key.bytes ∧ s.ref.read key = some val) ∧
      (∀ ah slotHash, s.eng.get (accountKey ah) = none → s.eng.get (slotKey ah slotHash) = none) ∧
      ∀ run, s.eng.rollDone = .done (some run) →
        ∀ k val, (k, val) ∈ run.rows ↔ ∃ key : Key, k = key.bytes ∧ s.frozenRef.read key = some val := by
  have hinv : Inv s := h.invariant (inv_init alloc) (fun _ _ _ hi hg hs => hi.step hg hs)
  refine ⟨hinv.refines.shows.get_eq_some, ?_, ?_⟩
  . intro ah slotHash hnone
    have hacc := hinv.refines.shows.get (.account ah)
    have hslot := hinv.refines.shows.get (.slot ah slotHash)
    have hacc' : s.ref.account ah = none := hacc.symm.trans hnone
    exact hslot.trans (hinv.owned ah slotHash hacc')
  . intro run hrun k val
    have hroll := hinv.roll
    rw [RollOk, hrun] at hroll
    rcases hroll with ⟨o, -, rfl, hshows⟩
    rw [← SortedMap.get_eq_some, View.get_merge]
    exact hshows.get_eq_some k val

def oneAccount : List Engine.GenesisAccount :=
  [⟨FixedBytes.fill 32 7, [1], by decide, [(FixedBytes.fill 32 9, FixedBytes.fill 32 4)]⟩]

def recreate : List Event :=
  [.maybeRoll 0, .apply [⟨.account (FixedBytes.fill 32 7), []⟩], .mergeDone true, .finishRoll true,
    .apply [⟨.account (FixedBytes.fill 32 7), [3]⟩], .maybeRoll 0, .mergeDone true]

theorem engine_refines_flat_recreate
    : ∃ s, Transition.Reachable Sys.step Live (Sys.init oneAccount) s ∧
        s.eng.get (slotKey (FixedBytes.fill 32 7) (FixedBytes.fill 32 9)) = none ∧
        ∃ key : Key, accountKey (FixedBytes.fill 32 7) = key.bytes ∧ s.ref.read key = some [3] := by
  have hrun : (Transition.run Sys.step (Sys.init oneAccount) recreate).map (fun s =>
      (s.eng.get (accountKey (FixedBytes.fill 32 7)),
        s.eng.get (slotKey (FixedBytes.fill 32 7) (FixedBytes.fill 32 9)))) = some (some [3], none) := by
    decide +kernel
  rw [Option.map_eq_some_iff] at hrun
  rcases hrun with ⟨s, hrun, hget⟩
  rw [Prod.mk.injEq] at hget
  have hreach : Transition.Reachable Sys.step Live (Sys.init oneAccount) s := by
    refine Transition.Reachable.init.run ?_ hrun
    intro e he s
    simp only [recreate, mem_cons, not_mem_nil, or_false] at he
    rcases he with rfl | rfl | rfl | rfl | rfl | rfl | rfl <;> simp [Live, LiveWrites]
  exact ⟨s, hreach, hget.2, ((engine_refines_flat hreach).1 _ _).mp hget.1⟩

end EpochDB.VmExec
