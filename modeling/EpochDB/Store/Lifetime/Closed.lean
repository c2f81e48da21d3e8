import EpochDB.Store.Lifetime.Places

/-!
A run is closed once, when its last reference goes, and under no reader: every step of every call keeps
the places of the handles.
-/

namespace EpochDB.Store.Lifetime

open List Option Function

variable {s s' : State} {v i : Nat} {ops : List Op} {name : RunName} {k : Handle}

theorem Placed.congr (h : Placed s) (hrun : s'.run = s.run) (hopened : s'.opened = s.opened)
    (htotal : ∀ k, s'.total k = s.total k)
    (hunborn : ∀ k, s'.ops.count (.close k) + s'.unborn k = s.ops.count (.close k) + s.unborn k) : Placed s' := by
  constructor
  . intro k
    rw [hrun, htotal]
    exact h.refs k
  . intro k
    have hone := h.once k
    have hk := hunborn k
    rw [hrun, hopened, htotal, ← hone]
    omega

theorem inv_snapshot (h : Inv s) (hmu : s.mu = none) : Inv s.takeSnapshot := by
  have htotal : ∀ k, s.takeSnapshot.total k = s.total k := by
    intro k
    unfold State.total
    rw [alive_takeSnapshot h hmu]
    rfl
  have hcurrent : s.takeSnapshot.current = s.current := by
    simp [State.takeSnapshot, State.current]
  have hunborn : ∀ k, s.takeSnapshot.unborn k = s.unborn k := by
    intro k
    exact unborn_eq (s := s) (by rfl) hcurrent k
  have hruns : ∀ v, (s.takeSnapshot.version v).runs = (s.version v).runs := by
    intro v
    by_cases hv : v = s.ver
    . simp [State.takeSnapshot, hv]
    . simp [State.takeSnapshot, update_of_ne hv]
  have hrefs : ∀ v, (s.takeSnapshot.version v).refs = (s.version v).refs + if v = s.ver then 1 else 0 := by
    intro v
    by_cases hv : v = s.ver
    . simp [State.takeSnapshot, hv]
    . simp [State.takeSnapshot, hv]
  have hne : ∀ v, (s.takeSnapshot.version v).refs ≠ 0 → (s.version v).refs ≠ 0 := by
    intro v hv
    by_cases hver : v = s.ver
    . rw [hver]
      exact h.current_refs (h.held_of_none hmu)
    . rwa [hrefs, if_neg hver, add_zero] at hv
  refine ⟨h.toPlaced.congr rfl rfl htotal (fun k => congrArg _ (hunborn k)),
    ⟨?_, fun v hv => h.made v (hne v hv), h.ver, h.held, h.closing⟩, ⟨?_, h.names.swap, h.names.reopen⟩⟩
  . intro v
    have hv := h.vrefs v
    have howned : s.takeSnapshot.owned v = s.owned v := rfl
    rw [hrefs, howned]
    by_cases hver : v = s.ver
    . have hcount : s.takeSnapshot.readers.count v = s.readers.count v + 1 := by
        rw [hver]
        exact count_cons_self
      rw [if_pos hver]
      omega
    . have hcount : s.takeSnapshot.readers.count v = s.readers.count v :=
        count_cons_of_ne (by simpa using fun heq => hver heq.symm)
      rw [if_neg hver]
      omega
  . intro v hv
    rw [hruns]
    exact h.names.version v (hne v hv)

theorem inv_release (h : Inv s) (hrefs : (s.version v).refs ≠ 0) (readers : List Nat) (held : Bool)
    (calls : List (List Op)) (mu : Option Writer)
    (hops : ∀ op, (calls.flatten ++ (mu.map Writer.ops).getD []).count op = s.ops.count op + (s.release v).2.count op)
    (hdone : (mu.map Writer.done).getD [] = s.done) (htodo : (mu.map Writer.todo).getD [] = s.todo)
    (hcount : ∀ w, readers.count w + State.owned { s with held := held, mu := mu } w + (if w = v then 1 else 0) =
      s.readers.count w + s.owned w)
    (hheld : held = false → ∃ ops, mu = some (.closing ops)) (hclosing : ∀ ops, mu = some (.closing ops) → held = false)
    : Inv { (s.release v).1 with readers := readers, held := held, calls := calls, mu := mu } := by
  have hne : ∀ w, ((s.release v).1.version w).refs ≠ 0 → (s.version w).refs ≠ 0 := by
    intro w hw
    by_cases heq : w = v
    . rwa [heq]
    . rwa [release_refs, if_neg heq, sub_zero] at hw
  have hruns := release_runs s v
  have hrefs' := release_refs s v
  have halive := release_alive hrefs (h.made v hrefs)
  have hframe : (s.release v).1 = { s with version := (s.release v).1.version } := by rw [release_frame]
  generalize (s.release v).1 = s' at *
  generalize s'.version = version at *
  subst hframe
  refine ⟨h.toPlaced.congr rfl rfl ?_ ?_, ⟨?_, ?_, h.ver, hheld, hclosing⟩, ⟨?_, ?_, h.names.reopen⟩⟩
  . intro k
    have hk := halive k
    change _ + (calls.flatten ++ (mu.map Writer.ops).getD []).count (.drop k) + ((mu.map Writer.done).getD []).count k = _
    rw [hops, hdone]
    unfold State.total
    simp only [State.alive] at hk ⊢
    omega
  . intro k
    change (calls.flatten ++ (mu.map Writer.ops).getD []).count (.close k) + _ = _
    rw [hops, release_close, add_zero]
    congr 1
    exact unborn_eq (s := s) (by exact htodo) (by exact hruns s.ver) k
  . intro w
    have hw := h.vrefs w
    have hc := hcount w
    change (version w).refs = (readers.count w + State.owned { s with held := held, mu := mu } w : Nat)
    rw [hrefs']
    split at hc <;> omega
  . exact fun w hw => h.made w (hne w hw)
  . intro w hw
    have := h.names.version w (hne w hw)
    rw [← hruns] at this
    exact this
  . have := h.names.swap
    rw [← hdone, ← htodo] at this
    exact this

theorem inv_release_reader (h : Inv s) (hv : v ∈ s.readers)
    : Inv { (s.release v).1 with readers := s.readers.erase v, calls := (s.release v).2 :: s.calls } := by
  have hrelease := inv_release h (h.mem_readers hv) (s.readers.erase v) s.held ((s.release v).2 :: s.calls) s.mu
    ?_ rfl rfl ?_ h.held h.closing
  . have hframe := release_frame s v
    rw [hframe] at hrelease ⊢
    exact hrelease
  . intro op
    simp only [State.ops, flatten_cons, count_append]
    omega
  . intro w
    change _ + s.owned w + _ = _
    by_cases heq : w = v
    . have hpos := count_pos_iff.mpr hv
      rw [heq, if_pos rfl, count_erase_self]
      omega
    . rw [if_neg heq, count_erase_of_ne heq, add_zero]

theorem Placed.exec (h : Inv s) (others : List Op)
    (hbefore : ∀ op, s.ops.count op = others.count op + ops.count op) (hrun : s'.run = (s.exec ops).1.run)
    (hafter : ∀ op, s'.ops.count op = others.count op + (s.exec ops).2.count op)
    (hopened : s'.opened = s.opened) (halive : ∀ k, s'.alive k = s.alive k) (hdone : s'.done = s.done)
    (hunborn : ∀ k, s'.unborn k = s.unborn k) : Placed s' := by
  have hrefs : ∀ k, (s.run k).refs =
      (s.alive k + others.count (.drop k) + s.done.count k + ops.count (.drop k) : Nat) := by
    intro k
    have := h.refs k
    unfold State.total at this
    rw [this, hbefore]
    congr 1
    omega
  constructor
  . intro k
    rw [hrun, (exec_spec hrefs k).1]
    unfold State.total
    rw [halive, hafter, hdone]
    congr 1
    omega
  . intro k
    have hspec := (exec_spec hrefs k).2
    have hone := h.once k
    unfold State.total at hone ⊢
    rw [hbefore, hbefore] at hone
    rw [hrun, hafter, hafter, halive, hdone, hunborn, hopened, ← hone]
    have hcomm : ∀ a b c d : Nat, a + (b + d) + c = a + b + c + d := by omega
    rw [hcomm, hcomm]
    omega

theorem Distinct.congr (h : Distinct s) (hname : ∀ k, (s'.run k).name = (s.run k).name)
    (hversion : s'.version = s.version) (hdone : s'.done = s.done) (htodo : s'.todo = s.todo)
    (hreopens : s'.reopens = s.reopens) : Distinct s' := by
  have hnames : ∀ l, s'.names l = s.names l := by
    intro l
    simp [State.names, hname]
  constructor
  . intro v hv
    rw [hversion] at hv ⊢
    rw [hnames]
    exact h.version v hv
  . rw [hnames, hdone, htodo]
    exact h.swap
  . intro t ht
    rw [hreopens] at ht
    rw [hnames]
    exact h.reopen t ht

theorem inv_exec (h : Inv s) (others : List Op) (calls : List (List Op)) (mu : Option Writer)
    (hbefore : ∀ op, s.ops.count op = others.count op + ops.count op)
    (hafter : ∀ op, (calls.flatten ++ (mu.map Writer.ops).getD []).count op = others.count op + (s.exec ops).2.count op)
    (hdone : (mu.map Writer.done).getD [] = s.done) (htodo : (mu.map Writer.todo).getD [] = s.todo)
    (howned : ∀ v, State.owned { s with mu := mu } v = s.owned v)
    (hheld : s.held = false → ∃ ops, mu = some (.closing ops)) (hclosing : ∀ ops, mu = some (.closing ops) → s.held = false)
    : Inv { (s.exec ops).1 with calls := calls, mu := mu } := by
  have hname := exec_name s ops
  have hplaced := @Placed.exec s { (s.exec ops).1 with calls := calls, mu := mu } ops h others hbefore rfl hafter
  have hframe := exec_frame s ops
  generalize (s.exec ops).1 = s' at *
  generalize s'.run = run at *
  subst hframe
  refine ⟨hplaced rfl (fun _ => rfl) hdone ?_, ⟨?_, h.made, h.ver, hheld, hclosing⟩,
    h.names.congr hname rfl hdone htodo rfl⟩
  . intro k
    exact unborn_eq (s := s) (by exact htodo) (by rfl) k
  . intro v
    have := h.vrefs v
    rw [← howned v] at this
    exact this

theorem inv_call (h : Inv s) (hi : s.calls[i]? = some ops)
    : Inv { (s.exec ops).1 with calls := s.calls.set i (s.exec ops).2 } := by
  have herase := count_flatMap_eraseIdx hi id
  have hset := count_flatMap_set hi (s.exec ops).2 id
  simp only [flatMap_id, id_eq] at herase hset
  have hexec := @inv_exec s ops h ((s.calls.eraseIdx i).flatten ++ (s.mu.map Writer.ops).getD [])
    (s.calls.set i (s.exec ops).2) s.mu ?_ ?_ rfl rfl (fun _ => rfl) h.held h.closing
  . have hframe := exec_frame s ops
    rw [hframe] at hexec ⊢
    exact hexec
  . intro op
    have := herase op
    simp only [State.ops, count_append]
    omega
  . intro op
    have := herase op
    have := hset op
    simp only [count_append]
    omega

theorem Placed.openRun (h : Inv s) (hrun : s'.run = update s.run s.opened ⟨name, 0, 0⟩) (hopened : s'.opened = s.opened + 1)
    (htotal : ∀ k, s'.total k = s.total k) (hclose : ∀ k, s'.ops.count (.close k) = s.ops.count (.close k))
    (hunborn : ∀ k, s'.unborn k = s.unborn k + if k = s.opened then 1 else 0) : Placed s' := by
  have hnew := h.once s.opened
  rw [if_neg (Nat.lt_irrefl _)] at hnew
  constructor
  . intro k
    rw [hrun, htotal]
    by_cases hk : k = s.opened
    . rw [hk, update_self]
      dsimp only
      omega
    . rw [update_of_ne hk]
      exact h.refs k
  . intro k
    rw [hrun, hopened, htotal, hclose, hunborn]
    by_cases hk : k = s.opened
    . rw [hk, update_self, if_pos rfl, if_pos (Nat.lt_succ_self _)]
      dsimp only
      omega
    . have hone := h.once k
      have hlt : k < s.opened + 1 ↔ k < s.opened :=
        ⟨fun hlt => Nat.lt_of_le_of_ne (Nat.le_of_lt_succ hlt) hk, Nat.lt_succ_of_lt⟩
      rw [update_of_ne hk, if_neg hk]
      simp only [hlt]
      exact hone

theorem names_openRun (hrun : s'.run = update s.run s.opened ⟨name, 0, 0⟩)
    {l : List Handle} (hl : ∀ k ∈ l, k < s.opened) : s'.names l = s.names l := by
  apply map_congr_left
  intro k hk
  rw [hrun, update_of_ne (Nat.ne_of_lt (hl k hk))]

theorem Distinct.openRun (h : Inv s)
    (hrun : s'.run = update s.run s.opened ⟨name, 0, 0⟩) (hversion : s'.version = s.version) (hmu : s'.mu = s.mu)
    (hreopens : ∀ t ∈ s'.reopens, (s'.names t.fresh ++ t.rest).Nodup) : Distinct s' := by
  refine ⟨?_, ?_, hreopens⟩
  . intro v hv
    rw [hversion] at hv ⊢
    rw [names_openRun hrun (fun k hk => h.lt_of_mem_version hv hk)]
    exact h.names.version v hv
  . have hdone : s'.done = s.done := by
      unfold State.done
      rw [hmu]
    have htodo : s'.todo = s.todo := by
      unfold State.todo
      rw [hmu]
    rw [hdone, htodo, names_openRun hrun]
    . exact h.names.swap
    . intro k hk
      rcases mem_append.mp hk with hk | hk
      . exact h.lt_of_mem_done hk
      . exact h.lt_of_mem_todo (h.held_of_mem_todo hk) hk

theorem inv_openRun (h : Inv s) (name : RunName) : Inv { s.openRun name with fresh := s.opened :: s.fresh } := by
  refine ⟨Placed.openRun h rfl rfl (fun _ => rfl) (fun _ => rfl) ?_, ⟨h.vrefs, h.made, h.ver, h.held, h.closing⟩,
    Distinct.openRun h rfl rfl rfl ?_⟩
  . intro k
    refine Eq.trans (unborn_eq (s := s) (by rfl) (by rfl) k) ?_
    unfold State.unborn
    simp only [State.openRun]
    by_cases hk : k = s.opened
    . rw [hk, count_cons_self, if_pos rfl]
      omega
    . rw [count_cons_of_ne (by simpa using fun heq => hk heq.symm), if_neg hk, add_zero]
  . intro t ht
    rw [names_openRun rfl (fun k hk => h.lt_of_mem_reopens ht hk)]
    exact h.names.reopen t ht

theorem inv_discard (h : Inv s) (hk : k ∈ s.fresh) : Inv { s.close k with fresh := s.fresh.erase k } := by
  have hpos := count_pos_iff.mpr hk
  have hname : ∀ j, ((s.close k).run j).name = (s.run j).name := by
    intro j
    by_cases hj : j = k
    . simp [State.close, hj]
    . simp [State.close, update_of_ne hj]
  have hunborn : ∀ j, State.unborn { s.close k with fresh := s.fresh.erase k } j + (if j = k then 1 else 0) = s.unborn j := by
    intro j
    refine Eq.trans (congrArg (· + _) (unborn_eq (s := s) (by rfl) (by rfl) j)) ?_
    unfold State.unborn
    by_cases hj : j = k
    . rw [hj, if_pos rfl]
      simp only [State.close, count_erase_self]
      omega
    . rw [if_neg hj]
      simp only [State.close, count_erase_of_ne hj]
      omega
  refine ⟨⟨?_, ?_⟩, ⟨h.vrefs, h.made, h.ver, h.held, h.closing⟩, h.names.congr hname rfl rfl rfl rfl⟩
  . intro j
    have hj : ((s.close k).run j).refs = (s.run j).refs := by
      by_cases hj : j = k
      . simp [State.close, hj]
      . simp [State.close, update_of_ne hj]
    dsimp only
    rw [hj]
    exact h.refs j
  . intro j
    have hone := h.once j
    have hun := hunborn j
    have hcloses : ((s.close k).run j).closes = (s.run j).closes + if j = k then 1 else 0 := by
      by_cases hj : j = k
      . simp [State.close, hj]
      . simp [State.close, hj]
    change ((s.close k).run j).closes + s.ops.count (.close j) + min 1 (s.total j) + _ = if j < s.opened then 1 else 0
    rw [hcloses, ← hone, ← hun]
    omega

theorem count_map_close (l : List Handle) (k : Handle) : (l.map Op.close).count (.close k) = l.count k :=
  count_map_of_injective _ _ (fun _ _ heq => by cases heq; rfl) _

theorem count_drop_map_close (l : List Handle) (k : Handle) : (l.map Op.close).count (.drop k) = 0 := by
  rw [count_eq_zero]
  simp

theorem inv_swap (h : Inv s) (hmu : s.mu = none) {fresh runs : List Handle} (left : List Handle) {reopens : List Reopen}
    {calls : List (List Op)} (hcalls : calls.flatten = left.map .close ++ s.calls.flatten)
    (hreopens : ∀ t ∈ reopens, t ∈ s.reopens) (hnames : (s.names runs).Nodup)
    (hcount : ∀ k, fresh.count k + (reopens.flatMap Reopen.fresh).count k + (s.unheld runs).count k +
      left.count k = s.fresh.count k + (s.reopens.flatMap Reopen.fresh).count k)
    : Inv { s with fresh := fresh, reopens := reopens, calls := calls, mu := some (.holding runs []) } := by
  have hheld := h.held_of_none hmu
  refine ⟨h.toPlaced.congr rfl rfl ?_ ?_, ⟨?_, h.made, h.ver, ?_, ?_⟩, ⟨h.names.version, hnames, ?_⟩⟩
  . intro k
    simp only [State.total, State.ops, State.done, State.alive, hmu, hcalls, map_some, map_none,
      getD_some, getD_none, Writer.ops, Writer.done, append_nil, count_append,
      count_drop_map_close, Nat.zero_add]
  . intro k
    have hk := hcount k
    have hold : s.unborn k = s.fresh.count k + (s.reopens.flatMap Reopen.fresh).count k := by
      simp [State.unborn, State.todo, State.unheld, hmu]
    have hnew : State.unborn { s with fresh := fresh, reopens := reopens, calls := calls, mu := some (.holding runs []) } k =
        fresh.count k + (reopens.flatMap Reopen.fresh).count k + (s.unheld runs).count k := rfl
    rw [hold, hnew]
    simp only [State.ops, hmu, hcalls, map_some, map_none, getD_some, getD_none, Writer.ops,
      append_nil, count_append, count_map_close]
    omega
  . intro v
    have howned : s.owned v = State.owned { s with mu := some (.holding runs []) } v := by
      unfold State.owned
      rw [hmu]
      simp
    rw [h.vrefs, howned]
    rfl
  . intro hfalse
    rw [hheld] at hfalse
    cases hfalse
  . intro ops hops
    cases hops
  . intro t ht
    exact h.names.reopen t (hreopens t ht)

theorem unborn_of_fresh (hk : k ∈ s.fresh) : 0 < s.unborn k := by
  have hpos := count_pos_iff.mpr hk
  unfold State.unborn
  omega

theorem not_mem_current (h : Inv s) (hheld : s.held = true) (hk : 0 < s.unborn k) : k ∉ s.current := by
  intro hmem
  have hpos := h.total_pos (h.current_refs hheld) hmem
  have hzero := h.total_eq_zero hk
  omega

theorem inv_swap_one (h : Inv s) (hmu : s.mu = none) (hk : k ∈ s.fresh)
    {before after : List Handle} (hbefore : ∀ r ∈ before, r ∈ s.current) (hafter : ∀ r ∈ after, r ∈ s.current)
    (hnames : (s.names (before ++ [k] ++ after)).Nodup)
    : Inv (State.swap { s with fresh := s.fresh.erase k } (before ++ [k] ++ after)) := by
  have hnot := not_mem_current h (h.held_of_none hmu) (unborn_of_fresh hk)
  have hnone : ∀ {l : List Handle}, (∀ r ∈ l, r ∈ s.current) → l.filter (fun k => !s.current.contains k) = [] := by
    intro l hl
    rw [filter_eq_nil_iff]
    simpa using hl
  have hfilter : s.unheld (before ++ [k] ++ after) = [k] := by
    unfold State.unheld
    rw [filter_append, filter_append, hnone hbefore, hnone hafter]
    simp [hnot]
  refine inv_swap h hmu [] rfl (fun _ ht => ht) hnames ?_
  intro j
  rw [hfilter]
  by_cases hj : j = k
  . have hpos := count_pos_iff.mpr hk
    rw [hj, count_erase_self]
    simp
    omega
  . rw [count_erase_of_ne hj, count_cons_of_ne (by simpa using fun heq => hj heq.symm)]
    simp

theorem held_of_holding (h : Inv s) {todo done : List Handle} (hmu : s.mu = some (.holding todo done)) : s.held = true := by
  cases hheld : s.held with
  | true => rfl
  | false =>
    rcases h.held hheld with ⟨ops, hops⟩
    rw [hmu] at hops
    cases hops

theorem inv_hold (h : Inv s) {todo done : List Handle} (hmu : s.mu = some (.holding (k :: todo) done))
    : Inv { s.hold k with mu := some (.holding todo (done ++ [k])) } := by
  have hheld := held_of_holding h hmu
  have htodo : s.todo = k :: todo := by simp [State.todo, hmu, Writer.todo]
  have hdone : s.done = done := by simp [State.done, hmu, Writer.done]
  have hops : s.ops = s.calls.flatten ++ [] := by simp [State.ops, hmu, Writer.ops]
  have hname : ∀ j, ((s.hold k).run j).name = (s.run j).name := by
    intro j
    by_cases hj : j = k
    . simp [State.hold, hj]
    . simp [State.hold, update_of_ne hj]
  have htotal : ∀ j, State.total { s.hold k with mu := some (.holding todo (done ++ [k])) } j =
      s.total j + if j = k then 1 else 0 := by
    intro j
    have hnew : State.total { s.hold k with mu := some (.holding todo (done ++ [k])) } j =
        s.alive j + (s.calls.flatten ++ []).count (Op.drop j) + (done ++ [k]).count j := rfl
    have hold : s.total j = s.alive j + (s.calls.flatten ++ []).count (Op.drop j) + done.count j := by
      unfold State.total
      rw [hdone, hops]
    have hsplit : (done ++ [k]).count j = done.count j + [k].count j := count_append
    rw [hnew, hold, hsplit]
    by_cases hj : j = k
    . rw [hj, if_pos rfl, count_cons_self, count_nil]
      omega
    . rw [if_neg hj, count_cons_of_ne (by simpa using fun heq => hj heq.symm), count_nil, add_zero, add_zero]
  have hunborn : ∀ j, State.unborn { s.hold k with mu := some (.holding todo (done ++ [k])) } j =
      s.fresh.count j + (s.reopens.flatMap Reopen.fresh).count j + (s.unheld todo).count j := fun _ => rfl
  refine ⟨⟨?_, ?_⟩, ⟨?_, h.made, h.ver, ?_, ?_⟩, ⟨?_, ?_, ?_⟩⟩
  . intro j
    have hj : ((s.hold k).run j).refs = (s.run j).refs + if j = k then 1 else 0 := by
      by_cases hj : j = k
      . simp [State.hold, hj]
      . simp [State.hold, hj]
    rw [htotal]
    dsimp only
    rw [hj, h.refs]
    split <;> simp
  . intro j
    have hone := h.once j
    have hcloses : ((s.hold k).run j).closes = (s.run j).closes := by
      by_cases hj : j = k
      . simp [State.hold, hj]
      . simp [State.hold, update_of_ne hj]
    have hold : s.unborn j = s.fresh.count j + (s.reopens.flatMap Reopen.fresh).count j + (s.unheld (k :: todo)).count j := by
      unfold State.unborn
      rw [htodo]
    rw [htotal, hunborn]
    change ((s.hold k).run j).closes + (s.calls.flatten ++ []).count (Op.close j) + _ + _ = if j < s.opened then 1 else 0
    rw [hcloses, ← hone, hops, hold]
    by_cases hj : j = k
    . subst hj
      rw [if_pos rfl]
      by_cases hcur : j ∈ s.current
      . have hpos := h.total_pos (h.current_refs hheld) hcur
        have hun : s.unheld (j :: todo) = s.unheld todo := by simp [State.unheld, hcur]
        rw [hun]
        omega
      . have hun : s.unheld (j :: todo) = j :: s.unheld todo := by simp [State.unheld, hcur]
        rw [hun, count_cons_self] at hold ⊢
        have hzero := h.total_eq_zero (k := j) (by omega)
        omega
    . have hun : (s.unheld (k :: todo)).count j = (s.unheld todo).count j := by
        unfold State.unheld
        rw [filter_cons]
        split
        . exact count_cons_of_ne (by simpa using fun heq => hj heq.symm)
        . rfl
      rw [if_neg hj, hun, add_zero]
  . intro v
    have howned : s.owned v = State.owned { s.hold k with mu := some (.holding todo (done ++ [k])) } v := by
      unfold State.owned
      rw [if_neg (c := s.mu = _) (by simp [hmu]), if_neg (c := some _ = _) (by simp)]
      rfl
    rw [← howned]
    exact h.vrefs v
  . intro hfalse
    rw [show (s.hold k).held = s.held from rfl, hheld] at hfalse
    cases hfalse
  . intro ops hops
    cases hops
  . intro v hv
    have := h.names.version v hv
    change (((s.version v).runs).map (fun j => ((s.hold k).run j).name)).Nodup
    simpa only [State.names, hname] using this
  . have := h.names.swap
    rw [hdone, htodo] at this
    simpa only [State.names, State.done, State.todo, map_some, getD_some, Writer.done, Writer.todo, hname,
      append_assoc, singleton_append] using this
  . intro t ht
    have := h.names.reopen t ht
    simpa only [State.names, hname] using this

theorem version_made (h : Inv s) : (s.version s.made).refs = 0 := by
  by_contra hne
  exact Nat.lt_irrefl _ (h.made _ hne)

theorem inv_install (h : Inv s) {runs : List Handle} {mu : Option Writer}
    (hops : (mu.map Writer.ops).getD [] = (s.mu.map Writer.ops).getD []) (htodo : s.todo = []) (htodo' : (mu.map Writer.todo).getD [] = [])
    (hdone : s.done = runs) (hdone' : (mu.map Writer.done).getD [] = [])
    (howned : ∀ v, s.owned v = if mu = some (.releasing v) then 1 else 0)
    (hclosing : ∀ ops, mu ≠ some (.closing ops))
    : Inv { s.install runs with mu := mu } := by
  have hops' : State.ops { s.install runs with mu := mu } = s.ops := by
    simp only [State.ops, State.install, hops]
  have hversion : ∀ v, v ≠ s.made → (s.install runs).version v = s.version v := by
    intro v hv
    simp [State.install, update_of_ne hv]
  have hself : (s.install runs).version s.made = ⟨runs, 1⟩ := by simp [State.install]
  refine ⟨h.toPlaced.congr rfl rfl ?_ ?_, ⟨?_, ?_, Nat.lt_succ_self _, ?_, ?_⟩, ⟨?_, ?_, h.names.reopen⟩⟩
  . intro k
    have halive : State.alive { s.install runs with mu := mu } k = s.alive k + runs.count k := alive_install runs k
    have hnew : State.done { s.install runs with mu := mu } = [] := hdone'
    unfold State.total
    rw [halive, hops', hnew, hdone, count_nil]
    omega
  . intro k
    have hnew : State.todo { s.install runs with mu := mu } = [] := htodo'
    rw [hops']
    unfold State.unborn
    rw [hnew, htodo]
    rfl
  . intro v
    have hv := h.vrefs v
    have hnew : State.owned { s.install runs with mu := mu } v =
        (if v = s.made then 1 else 0) + (if mu = some (.releasing v) then 1 else 0) := by
      simp [State.owned, State.install]
    change ((s.install runs).version v).refs = (s.readers.count v + _ : Nat)
    rw [hnew, ← howned]
    by_cases hmade : v = s.made
    . rw [hmade] at hv ⊢
      rw [version_made h] at hv
      rw [hself, if_pos rfl]
      dsimp only
      omega
    . rw [hversion v hmade, if_neg hmade]
      omega
  . intro v hv
    change v < s.made + 1
    by_cases hmade : v = s.made
    . omega
    . change ((s.install runs).version v).refs ≠ 0 at hv
      rw [hversion v hmade] at hv
      have := h.made v hv
      omega
  . intro hfalse
    cases hfalse
  . intro ops hmu
    exact absurd hmu (hclosing ops)
  . intro v hv
    change (s.names ((s.install runs).version v).runs).Nodup
    change ((s.install runs).version v).refs ≠ 0 at hv
    by_cases hmade : v = s.made
    . have hswap := h.names.swap
      rw [hdone, htodo, append_nil] at hswap
      rw [hmade, hself]
      exact hswap
    . rw [hversion v hmade] at hv ⊢
      exact h.names.version v hv
  . have hd : State.done { s.install runs with mu := mu } = [] := hdone'
    have ht : State.todo { s.install runs with mu := mu } = [] := htodo'
    rw [hd, ht]
    exact nodup_nil

theorem inv_swapped (h : Inv s) {done : List Handle} (hmu : s.mu = some (.holding [] done))
    : Inv { s.install done with mu := some (.releasing s.ver) } := by
  have hheld := held_of_holding h hmu
  apply inv_install h
  . simp [hmu, Writer.ops]
  . simp [State.todo, hmu, Writer.todo]
  . rfl
  . simp [State.done, hmu, Writer.done]
  . rfl
  . intro v
    simp [State.owned, hheld, hmu, eq_comm]
  . simp

theorem inv_releasing (h : Inv s) (hmu : s.mu = some (.releasing v))
    : Inv { (s.release v).1 with mu := some (.dropping (s.release v).2) } := by
  have hrefs : (s.version v).refs ≠ 0 := by
    have := h.vrefs v
    unfold State.owned at this
    rw [if_pos hmu] at this
    omega
  have hrelease := inv_release h hrefs s.readers s.held s.calls (some (.dropping (s.release v).2))
    ?_ ?_ ?_ ?_ ?_ ?_
  . have hframe := release_frame s v
    rw [hframe] at hrelease ⊢
    exact hrelease
  . intro op
    simp [State.ops, hmu, Writer.ops]
  . simp [State.done, hmu, Writer.done]
  . simp [State.todo, hmu, Writer.todo]
  . intro w
    simp only [State.owned, hmu, Option.some.injEq, reduceCtorEq, if_false, Writer.releasing.injEq, eq_comm (b := w)]
    omega
  . intro hfalse
    rcases h.held hfalse with ⟨ops, hops⟩
    rw [hmu] at hops
    cases hops
  . intro ops hops
    cases hops

theorem inv_close (h : Inv s) (hmu : s.mu = none)
    : Inv { (s.release s.ver).1 with held := false, mu := some (.closing (s.release s.ver).2) } := by
  have hheld := h.held_of_none hmu
  have hrelease := inv_release h (h.current_refs hheld) s.readers false s.calls (some (.closing (s.release s.ver).2))
    ?_ ?_ ?_ ?_ ?_ ?_
  . have hframe := release_frame s s.ver
    rw [hframe] at hrelease ⊢
    exact hrelease
  . intro op
    simp [State.ops, hmu, Writer.ops]
  . simp [State.done, hmu, Writer.done]
  . simp [State.todo, hmu, Writer.todo]
  . intro w
    simp only [State.owned, hmu, hheld, Option.some.injEq, reduceCtorEq, if_false, false_and, true_and, Bool.false_eq_true]
    omega
  . exact fun _ => ⟨_, rfl⟩
  . exact fun _ _ => rfl

theorem inv_closed (h : Inv s) (hmu : s.mu = some (.closing [])) : Inv { s.install [] with mu := none } := by
  have hheld := h.closing [] hmu
  apply inv_install h
  . simp [hmu, Writer.ops]
  . simp [State.todo, hmu, Writer.todo]
  . rfl
  . simp [State.done, hmu, Writer.done]
  . rfl
  . intro v
    simp [State.owned, hheld, hmu]
  . simp

theorem inv_dropping (h : Inv s) (hmu : s.mu = some (.dropping ops))
    : Inv { (s.exec ops).1 with mu := some (.dropping (s.exec ops).2) } := by
  have hexec := @inv_exec s ops h s.calls.flatten s.calls (some (.dropping (s.exec ops).2)) ?_ ?_ ?_ ?_ ?_ ?_ ?_
  . have hframe := exec_frame s ops
    rw [hframe] at hexec ⊢
    exact hexec
  . intro op
    simp [State.ops, hmu, Writer.ops]
  . intro op
    simp [Writer.ops]
  . simp [State.done, hmu, Writer.done]
  . simp [State.todo, hmu, Writer.todo]
  . intro v
    simp [State.owned, hmu]
  . intro hfalse
    rcases h.held hfalse with ⟨ops, hops⟩
    rw [hmu] at hops
    cases hops
  . intro ops hops
    cases hops

theorem inv_closing (h : Inv s) (hmu : s.mu = some (.closing ops))
    : Inv { (s.exec ops).1 with mu := some (.closing (s.exec ops).2) } := by
  have hexec := @inv_exec s ops h s.calls.flatten s.calls (some (.closing (s.exec ops).2)) ?_ ?_ ?_ ?_ ?_ ?_ ?_
  . have hframe := exec_frame s ops
    rw [hframe] at hexec ⊢
    exact hexec
  . intro op
    simp [State.ops, hmu, Writer.ops]
  . intro op
    simp [Writer.ops]
  . simp [State.done, hmu, Writer.done]
  . simp [State.todo, hmu, Writer.todo]
  . intro v
    simp [State.owned, hmu]
  . exact fun _ => ⟨_, rfl⟩
  . exact fun _ _ => h.closing _ hmu

theorem inv_unlock (h : Inv s) (hmu : s.mu = some (.dropping [])) : Inv { s with mu := none } := by
  have hexec := @inv_exec s [] h s.calls.flatten s.calls none ?_ ?_ ?_ ?_ ?_ ?_ ?_
  . exact hexec
  . intro op
    simp [State.ops, hmu, Writer.ops]
  . intro op
    simp [State.exec]
  . simp [State.done, hmu, Writer.done]
  . simp [State.todo, hmu, Writer.todo]
  . intro v
    simp [State.owned, hmu]
  . intro hfalse
    rcases h.held hfalse with ⟨ops, hops⟩
    rw [hmu] at hops
    cases hops
  . intro ops hops
    cases hops

theorem inv_writer (h : Inv s) {w : Writer} (hmu : s.mu = some w) : Inv (writerStep s w) := by
  cases w with
  | holding todo done =>
    cases todo with
    | nil => exact inv_swapped h hmu
    | cons k todo => exact inv_hold h hmu
  | releasing old => exact inv_releasing h hmu
  | dropping ops =>
    cases ops with
    | nil => exact inv_unlock h hmu
    | cons op ops => exact inv_dropping h hmu
  | closing ops =>
    cases ops with
    | nil => exact inv_closed h hmu
    | cons op ops => exact inv_closing h hmu

theorem inv_reopens (h : Inv s) {reopens : List Reopen} (left : List Handle)
    (hcount : ∀ k, (reopens.flatMap Reopen.fresh).count k + left.count k = (s.reopens.flatMap Reopen.fresh).count k)
    (hnames : ∀ t ∈ reopens, (s.names t.fresh ++ t.rest).Nodup) {calls : List (List Op)}
    (hcalls : calls.flatten = left.map .close ++ s.calls.flatten)
    : Inv { s with reopens := reopens, calls := calls } := by
  refine ⟨h.toPlaced.congr rfl rfl ?_ ?_, ⟨h.vrefs, h.made, h.ver, h.held, h.closing⟩,
    ⟨h.names.version, h.names.swap, hnames⟩⟩
  . intro k
    change _ + (calls.flatten ++ _).count _ + _ = _
    unfold State.total State.ops
    rw [hcalls, append_assoc, count_append, count_drop_map_close, zero_add]
    rfl
  . intro k
    have hk := hcount k
    have hnew : State.unborn { s with reopens := reopens, calls := calls } k =
        s.fresh.count k + (reopens.flatMap Reopen.fresh).count k + (s.unheld s.todo).count k := rfl
    change (calls.flatten ++ (s.mu.map Writer.ops).getD []).count (.close k) + _ = _
    rw [hnew, hcalls, append_assoc, count_append, count_map_close]
    unfold State.unborn State.ops
    omega

theorem inv_reopen (h : Inv s) (hmu : s.mu = none) (gone : List RunName)
    : Inv { s.takeSnapshot with reopens := ⟨gone, s.current.map (fun r => (s.run r).name), []⟩ :: s.reopens } := by
  refine inv_reopens (inv_snapshot h hmu) [] ?_ ?_ rfl
  . intro k
    rfl
  . intro t ht
    rcases mem_cons.mp ht with rfl | ht
    . exact h.names.version s.ver (h.current_refs (h.held_of_none hmu))
    . exact h.names.reopen t ht

theorem inv_reopenNext (h : Inv s) {t : Reopen} {ok : Bool} (hi : s.reopens[i]? = some t)
    (hstep : reopenNext s i t ok = some s') : Inv s' := by
  have hnames := h.names.reopen t (mem_of_getElem? hi)
  have hmem : ∀ {t' u : Reopen}, u ∈ s.reopens.set i t' → u = t' ∨ u ∈ s.reopens := by
    intro t' u hu
    rcases mem_or_eq_of_mem_set hu with hu | hu
    . exact .inr hu
    . exact .inl hu
  unfold reopenNext at hstep
  split at hstep
  . cases hstep
  . next name rest hrest =>
    rw [hrest] at hnames
    split at hstep
    . cases hstep
      refine inv_reopens h [] ?_ ?_ rfl
      . intro k
        have := count_flatMap_set hi { t with rest := rest } Reopen.fresh k
        simp only [count_nil] at this ⊢
        omega
      . intro u hu
        rcases hmem hu with rfl | hu
        . exact List.Nodup.sublist (List.Sublist.append_left (sublist_cons_self _ _) _) hnames
        . exact h.names.reopen u hu
    . split at hstep
      . cases hstep
        have hrun : ∀ l : List Handle, (∀ k ∈ l, k < s.opened) → (s.openRun name).names l = s.names l :=
          fun l hl => names_openRun rfl hl
        refine ⟨Placed.openRun h rfl rfl (fun _ => rfl) (fun _ => rfl) ?_, ⟨h.vrefs, h.made, h.ver, h.held, h.closing⟩,
          Distinct.openRun h rfl rfl rfl ?_⟩
        . intro k
          have hset := count_flatMap_set hi { t with rest := rest, fresh := t.fresh ++ [s.opened] } Reopen.fresh k
          refine Eq.trans (unborn_eq (s := s) (by rfl) (by rfl) k) ?_
          unfold State.unborn
          simp only [State.openRun]
          simp only [count_append, count_cons, count_nil, beq_iff_eq, eq_comm (b := k)] at hset
          omega
        . intro u hu
          rcases hmem hu with rfl | hu
          . change ((s.openRun name).names (t.fresh ++ [s.opened]) ++ rest).Nodup
            have hlt : ∀ k ∈ t.fresh, k < s.opened := fun k hk => h.lt_of_mem_reopens (mem_of_getElem? hi) hk
            have hself : (s.openRun name).names [s.opened] = [name] := by simp [State.names, State.openRun]
            have happend : (s.openRun name).names (t.fresh ++ [s.opened]) = s.names t.fresh ++ [name] := by
              rw [← hself, ← hrun t.fresh hlt]
              exact map_append
            rw [happend, append_assoc]
            exact hnames
          . change ((s.openRun name).names u.fresh ++ u.rest).Nodup
            rw [hrun u.fresh (fun k hk => h.lt_of_mem_reopens hu hk)]
            exact h.names.reopen u hu
      . cases hstep
        refine inv_reopens h t.fresh ?_ ?_ rfl
        . intro k
          exact count_flatMap_eraseIdx hi Reopen.fresh k
        . intro u hu
          exact h.names.reopen u (mem_of_mem_eraseIdx hu)

section

variable (name : Handle → RunName)

theorem names_replaceByName (runs fresh : List Handle) : (replaceByName name runs fresh).1.map name = runs.map name := by
  induction fresh generalizing runs with
  | nil => rfl
  | cons nr fresh ih =>
    unfold replaceByName
    split
    . next i hi =>
      rw [ih, map_set]
      rcases findIdx?_eq_some_iff_getElem.mp hi with ⟨hlt, heq, -⟩
      have hget : (runs.map name)[i]? = some (name nr) := by
        rw [getElem?_map, getElem?_eq_getElem hlt, map_some, eq_of_beq heq]
      rw [getElem?_eq_some_iff] at hget
      rcases hget with ⟨hlt', hget⟩
      rw [← hget]
      exact set_getElem_self hlt'
    . exact ih runs

theorem left_sublist (runs fresh : List Handle) : (replaceByName name runs fresh).2.Sublist fresh := by
  induction fresh generalizing runs with
  | nil => exact .slnil
  | cons nr fresh ih =>
    unfold replaceByName
    split
    . exact (ih _).cons _
    . exact (ih _).cons_cons _

theorem count_replaceByName {cur : List Handle} (runs fresh : List Handle)
    (hruns : ∀ r ∈ runs, r ∉ cur → name r ∉ fresh.map name) (hnodup : (fresh.map name).Nodup) {k : Handle} (hk : k ∉ cur)
    : (replaceByName name runs fresh).1.count k + (replaceByName name runs fresh).2.count k =
        runs.count k + fresh.count k := by
  induction fresh generalizing runs with
  | nil => rfl
  | cons nr fresh ih =>
    rw [map_cons, nodup_cons] at hnodup
    unfold replaceByName
    split
    . next i hi =>
      rcases findIdx?_eq_some_iff_getElem.mp hi with ⟨hlt, heq, -⟩
      have hold : runs[i] ∈ cur := by
        by_contra hnot
        have := hruns _ (getElem_mem hlt) hnot
        rw [eq_of_beq heq] at this
        exact this mem_cons_self
      have hset := count_flatMap_set (getElem?_eq_getElem hlt) nr (fun r => [r]) k
      have hsingle : ∀ l : List Handle, l.flatMap (fun r => [r]) = l := fun l => flatMap_singleton' l
      have hne : [runs[i]].count k = 0 := by
        rw [count_eq_zero, mem_singleton]
        intro heq
        rw [heq] at hk
        exact hk hold
      rw [hsingle, hsingle, hne] at hset
      rw [ih _ ?_ hnodup.2, count_cons]
      . simp only [count_cons, count_nil] at hset
        omega
      . intro r hr hnot
        rcases mem_or_eq_of_mem_set hr with hr | rfl
        . exact fun hmem => hruns r hr hnot (mem_cons_of_mem _ hmem)
        . exact hnodup.1
    . have := ih runs (fun r hr hnot hmem => hruns r hr hnot (mem_cons_of_mem _ hmem)) hnodup.2
      simp only [count_cons]
      omega

end

theorem inv_reopenSwap (h : Inv s) {t : Reopen} (hi : s.reopens[i]? = some t)
    (hstep : reopenSwap s i t = some s') : Inv s' := by
  unfold reopenSwap at hstep
  split at hstep
  . cases hstep
  . next hfree =>
    simp only [Bool.or_eq_true, decide_eq_true_eq, not_or, ne_eq, Decidable.not_not, not_isSome_iff_eq_none] at hfree
    rcases hfree with ⟨hrest, hmu⟩
    have hnames := h.names.reopen t (mem_of_getElem? hi)
    rw [hrest, append_nil] at hnames
    have herase := count_flatMap_eraseIdx hi Reopen.fresh
    have hsub := left_sublist (fun r => (s.run r).name) s.current t.fresh
    have hmap := names_replaceByName (fun r => (s.run r).name) s.current t.fresh
    have hcount := fun k hk => @count_replaceByName (fun r => (s.run r).name) s.current s.current t.fresh
      (fun r hr hnot => absurd hr hnot) hnames k hk
    generalize replaceByName (fun r => (s.run r).name) s.current t.fresh = pair at *
    rcases pair with ⟨swapped, left⟩
    dsimp only at hstep hsub hmap hcount
    have hmem : ∀ u ∈ s.reopens.eraseIdx i, u ∈ s.reopens := fun u hu => mem_of_mem_eraseIdx hu
    split at hstep
    . cases hstep
      refine inv_swap h hmu left rfl hmem ?_ ?_
      . have := h.names.version s.ver (h.current_refs (h.held_of_none hmu))
        unfold State.names at this ⊢
        rw [hmap]
        exact this
      . intro k
        have hk := herase k
        have hplace : (s.unheld swapped).count k + left.count k = t.fresh.count k := by
          by_cases hcur : k ∈ s.current
          . have hnone : t.fresh.count k = 0 := by
              rw [count_eq_zero]
              intro hmem
              have hpos := count_pos_iff.mpr (mem_flatMap_of_mem (mem_of_getElem? hi) hmem)
              refine not_mem_current h (h.held_of_none hmu) ?_ hcur
              unfold State.unborn
              omega
            have hleft := hsub.count_le k
            have hunheld : (s.unheld swapped).count k = 0 := by
              rw [count_eq_zero]
              intro hmem
              simpa [hcur] using of_mem_filter hmem
            omega
          . have hzero : s.current.count k = 0 := count_eq_zero.mpr hcur
            have hunheld : (s.unheld swapped).count k = swapped.count k := count_filter (by simpa using hcur)
            have := hcount k hcur
            omega
        dsimp only
        omega
    . next hlen =>
      cases hstep
      have hleft : left = t.fresh := hsub.eq_of_length (by have := hsub.length_le; omega)
      refine inv_reopens h t.fresh herase (fun u hu => h.names.reopen u (hmem u hu)) ?_
      rw [hleft]
      rfl

theorem inv_step {e : Event} (h : Inv s) (hnamed : Named s e) (hstep : step s e = some s') : Inv s' := by
  cases e with
  | snapshot =>
    simp only [step] at hstep
    split at hstep
    . cases hstep
    . next hmu =>
      cases hstep
      exact inv_snapshot h (not_isSome_iff_eq_none.mp hmu)
  | release v =>
    simp only [step] at hstep
    split at hstep
    . next hv =>
      cases hstep
      exact inv_release_reader h hv
    . cases hstep
  | call i =>
    simp only [step] at hstep
    split at hstep
    . cases hstep
    . next ops hi =>
      cases hstep
      exact inv_call h hi
  | openRun name =>
    cases hstep
    exact inv_openRun h name
  | discard k =>
    simp only [step] at hstep
    split at hstep
    . next hk =>
      cases hstep
      exact inv_discard h hk
    . cases hstep
  | sealSwap k =>
    simp only [step] at hstep
    split at hstep
    . next hk =>
      simp only [Bool.and_eq_true, decide_eq_true_eq, isNone_iff_eq_none] at hk
      cases hstep
      have hcur := h.names.version s.ver (h.current_refs (h.held_of_none hk.2))
      have hswap := @inv_swap_one s k h hk.2 hk.1 s.current [] (fun _ hr => hr) (by simp) ?_
      . rwa [append_nil] at hswap
      . rw [append_nil]
        unfold State.names
        rw [map_append]
        exact List.Nodup.append hcur (nodup_singleton _) (by simpa [Named] using hnamed)
    . cases hstep
  | mergeSwap k start stop =>
    simp only [step] at hstep
    split at hstep
    . next hk =>
      simp only [Bool.and_eq_true, decide_eq_true_eq, isNone_iff_eq_none] at hk
      cases hstep
      have hcur := h.names.version s.ver (h.current_refs (h.held_of_none hk.1.1.2))
      refine inv_swap_one h hk.1.1.2 hk.1.1.1 (fun _ hr => mem_of_mem_take hr) (fun _ hr => mem_of_mem_drop hr) ?_
      have hsub : (s.current.take start ++ s.current.drop stop).Sublist s.current := by
        have happend := List.Sublist.append (List.Sublist.refl (s.current.take start))
          (drop_sublist_drop_left s.current hk.1.2)
        rwa [take_append_drop] at happend
      have hrest := hcur.sublist (hsub.map _)
      have hperm : (s.names (s.current.take start ++ [k] ++ s.current.drop stop)).Perm
          ((s.run k).name :: s.names (s.current.take start ++ s.current.drop stop)) := by
        unfold State.names
        rw [append_assoc, singleton_append]
        exact perm_middle.map _
      rw [hperm.nodup_iff, nodup_cons]
      exact ⟨hnamed, hrest⟩
    . cases hstep
  | reopen gone =>
    simp only [step] at hstep
    split at hstep
    . cases hstep
    . next hmu =>
      cases hstep
      exact inv_reopen h (not_isSome_iff_eq_none.mp hmu) gone
  | reopenNext i ok =>
    simp only [step] at hstep
    split at hstep
    . cases hstep
    . next t hi => exact inv_reopenNext h hi hstep
  | reopenSwap i =>
    simp only [step] at hstep
    split at hstep
    . cases hstep
    . next t hi => exact inv_reopenSwap h hi hstep
  | close =>
    simp only [step] at hstep
    split at hstep
    . cases hstep
    . next hmu =>
      cases hstep
      exact inv_close h (not_isSome_iff_eq_none.mp hmu)
  | writer =>
    simp only [step] at hstep
    split at hstep
    . cases hstep
    . next w hmu =>
      cases hstep
      exact inv_writer h hmu

theorem inv_init {names : List RunName} (hnames : names.Nodup) : Inv (init names) := by
  have hcount : ∀ k, (List.range names.length).count k = if k < names.length then 1 else 0 := by
    intro k
    split
    . next hk => exact count_eq_one_of_mem nodup_range (mem_range.mpr hk)
    . next hk =>
      rw [count_eq_zero, mem_range]
      exact hk
  have halive : ∀ k, (init names).total k = if k < names.length then 1 else 0 := by
    intro k
    have hsum : (init names).alive k = (List.range names.length).count k := Finset.sum_range_one _
    unfold State.total
    rw [hsum, hcount]
    rfl
  refine ⟨⟨?_, ?_⟩, ⟨?_, ?_, Nat.one_pos, ?_, ?_⟩, ⟨?_, nodup_nil, ?_⟩⟩
  . intro k
    rw [halive]
    simp only [init]
    split <;> rfl
  . intro k
    have hunborn : (init names).unborn k = 0 := rfl
    have hops : (init names).ops.count (.close k) = 0 := rfl
    rw [halive, hunborn, hops]
    change 0 + 0 + _ + 0 = if k < names.length then 1 else 0
    split <;> rfl
  . intro v
    simp only [init, State.owned]
    split <;> simp_all
  . intro v hv
    simp only [init] at hv ⊢
    split at hv
    . omega
    . cases hv rfl
  . intro hfalse
    cases hfalse
  . intro ops hops
    cases hops
  . intro v hv
    have hself : (init names).names (List.range names.length) = names := by
      apply ext_getElem
      . simp [State.names]
      . intro i h1 h2
        simp [State.names, init, getD_eq_getElem?_getD, getElem?_eq_getElem h2]
    by_cases hv0 : v = 0
    . have hruns : ((init names).version v).runs = List.range names.length := by simp [init, hv0]
      rw [hruns, hself]
      exact hnames
    . simp [init, hv0] at hv
  . intro t ht
    cases ht

namespace State

variable (s : State)

def Referred (h : Handle) : Prop := (s.held = true ∧ h ∈ s.current) ∨ ∃ v ∈ s.readers, h ∈ (s.version v).runs

def UnderWay (h : Handle) : Prop :=
  h ∈ s.fresh ∨ (∃ t ∈ s.reopens, h ∈ t.fresh) ∨ h ∈ s.todo ∨ h ∈ s.done ∨
    (∃ v, s.mu = some (.releasing v) ∧ h ∈ (s.version v).runs) ∨ .drop h ∈ s.ops ∨ .close h ∈ s.ops

end State

theorem Inv.total_pos_of_referred (h : Inv s) (hk : s.Referred k) : 0 < s.total k := by
  rcases hk with ⟨hheld, hmem⟩ | ⟨v, hv, hmem⟩
  . exact h.total_pos (h.current_refs hheld) hmem
  . exact h.total_pos (h.mem_readers hv) hmem

theorem Inv.total_eq_zero_of_not_referred (h : Inv s) (hk : ¬ s.Referred k) (hway : ¬ s.UnderWay k) : s.total k = 0 := by
  simp only [State.UnderWay, not_or, not_exists, not_and] at hway
  rcases hway with ⟨-, -, -, hdone, hreleasing, hdrop, -⟩
  have halive : s.alive k = 0 := by
    apply Finset.sum_eq_zero
    intro v _
    unfold Version.holds
    split
    . rfl
    . next hrefs =>
      rw [count_eq_zero]
      intro hmem
      have hv := h.vrefs v
      have hcount : s.readers.count v = 0 := count_eq_zero.mpr (fun hr => hk (.inr ⟨v, hr, hmem⟩))
      have howned : s.owned v = 0 := by
        unfold State.owned
        rw [if_neg, if_neg]
        . exact fun hmu => hreleasing v hmu hmem
        . rintro ⟨hheld, rfl⟩
          exact hk (.inl ⟨hheld, hmem⟩)
      omega
  have hd : s.done.count k = 0 := count_eq_zero.mpr hdone
  have ho : s.ops.count (.drop k) = 0 := count_eq_zero.mpr hdrop
  unfold State.total
  omega

theorem Inv.unborn_eq_zero (hway : ¬ s.UnderWay k) : s.unborn k = 0 := by
  simp only [State.UnderWay, not_or, not_exists, not_and] at hway
  rcases hway with ⟨hfresh, hreopens, htodo, -⟩
  have hf : s.fresh.count k = 0 := count_eq_zero.mpr hfresh
  have hr : (s.reopens.flatMap Reopen.fresh).count k = 0 := by
    rw [count_eq_zero, mem_flatMap]
    rintro ⟨t, ht, hmem⟩
    exact hreopens t ht hmem
  have ht : (s.unheld s.todo).count k = 0 := by
    rw [count_eq_zero]
    exact fun hmem => htodo (mem_filter.mp hmem).1
  unfold State.unborn
  omega

/--
In every state a run was closed at most once; a run that is closed, or about to be, is referred to by
nothing; and a run that was opened, that nothing refers to and that no call under way concerns is closed.
-/
theorem closed_once_and_unreferred {names : List RunName} (hnames : names.Nodup) {s : State}
    (hs : Transition.Reachable step Named (init names) s) (h : Handle)
    : (s.run h).closes ≤ 1 ∧
      ((s.run h).closes = 1 ∨ .close h ∈ s.ops → ¬ s.Referred h) ∧
      (h < s.opened → ¬ s.Referred h → ¬ s.UnderWay h → (s.run h).closes = 1) := by
  have hinv : Inv s := hs.invariant (inv_init hnames) (fun _ _ _ hI hg hstep => inv_step hI hg hstep)
  have hone := hinv.once h
  refine ⟨?_, ?_, ?_⟩
  . split at hone <;> omega
  . intro hclosed hreferred
    have hpos := hinv.total_pos_of_referred hreferred
    have hclose : .close h ∈ s.ops → 0 < s.ops.count (.close h) := count_pos_iff.mpr
    rcases hclosed with hclosed | hclosed
    . split at hone <;> omega
    . have := hclose hclosed
      split at hone <;> omega
  . intro hopened hnot hway
    have htotal := hinv.total_eq_zero_of_not_referred hnot hway
    have hunborn := Inv.unborn_eq_zero hway
    have hclose : s.ops.count (.close h) = 0 :=
      count_eq_zero.mpr (fun hmem => hway (.inr (.inr (.inr (.inr (.inr (.inr hmem)))))))
    rw [if_pos hopened] at hone
    omega

def mergeUnderReader : List Event :=
  [.openRun "c", .snapshot, .mergeSwap 2 0 2, .writer, .writer, .writer, .writer, .release 0, .call 0, .call 0, .call 0,
    .call 0]

theorem closed_once_mergeUnderReader
    : ∃ s, Transition.Reachable step Named (init ["a", "b"]) s ∧ (s.run 0).closes = 1 ∧ (s.run 1).closes = 1 ∧
        (s.run 2).closes = 0 ∧ (s.run 0).closes ≤ 1 ∧ ((s.run 0).closes = 1 ∨ .close 0 ∈ s.ops → ¬ s.Referred 0) ∧
        (0 < s.opened → ¬ s.Referred 0 → ¬ s.UnderWay 0 → (s.run 0).closes = 1) := by
  have hrun : (Transition.run (fun s e => if named s e then step s e else none) (init ["a", "b"])
      mergeUnderReader).map (fun s => [0, 1, 2].map (fun h => (s.run h).closes)) = some [1, 1, 0] := by
    decide +kernel
  rcases map_eq_some_iff.mp hrun with ⟨s, hs, hcloses⟩
  simp only [map_cons, map_nil, List.cons.injEq, and_true] at hcloses
  have hreach := Transition.Reachable.init.run_checked (fun s e => (named_iff s e).mp) hs
  exact ⟨s, hreach, hcloses.1, hcloses.2.1, hcloses.2.2, closed_once_and_unreferred (by decide) hreach 0⟩

end EpochDB.Store.Lifetime
