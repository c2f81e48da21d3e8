import EpochDB.Fetch.Forward

/-!
What an archive answers to a peer (`fetch/handler.go`), what a container says of itself
(`fetch/parse.go`), and the two together: a fetch from an honest archive.
-/

namespace EpochDB.Fetch

open List

structure ProposerBlk where
  id : ID
  parentID : ID
  block : Bytes
  deriving DecidableEq

structure EthBlock where
  number : Nat
  hash : ID
  parentHash : ID
  deriving DecidableEq

structure Decoder where
  parseWithoutVerification : Bytes → Except String ProposerBlk
  split : Bytes → Except String (Bytes × Bytes)
  decodeBytes : Bytes → Except String EthBlock

def parseContainer (d : Decoder) (raw : Bytes) : Except String ParsedContainer :=
  if raw.length = 0 then
    .error "empty container"
  else
    match d.parseWithoutVerification raw with
    | .ok proposerBlk =>
      match d.decodeBytes proposerBlk.block with
      | .error err => .error s!"decode inner eth block: {err}"
      | .ok inner =>
        .ok {
          containerID := proposerBlk.id
          blockNumber := inner.number
          blockHash := inner.hash
          parentID := proposerBlk.parentID
          parentHash := inner.parentHash
        }
    | .error perr =>
      match d.split raw with
      | .error err => .error s!"rlp split: {err} (not a ProposerVM block either: {perr})"
      | .ok (_, rest) =>
        match d.decodeBytes (raw.take (raw.length - rest.length)) with
        | .error err => .error s!"decode pre-fork eth block: {err} (not a ProposerVM block either: {perr})"
        | .ok inner =>
          .ok {
            containerID := inner.hash
            blockNumber := inner.number
            blockHash := inner.hash
            parentID := inner.parentHash
            parentHash := inner.parentHash
          }

structure ContainerSource where
  containerAt : Nat → Except String Bytes
  heightByContainerID : ID → Except String (Option Nat)

structure Limits where
  maxContainers : Nat
  maxContainersLen : Nat
  pos : 0 < maxContainers

def ancestorsFrom (src : ContainerSource) (maxLen : Nat) (h size : Nat) (started : Bool)
    : Nat → List Bytes × Option String
  | 0 => ([], none)
  | room + 1 =>
    match src.containerAt h with
    | .error err => ([], some err)
    | .ok c =>
      if size + c.length > maxLen ∧ started then
        ([], none)
      else if h = 0 then
        ([c], none)
      else
        let (out, err) := ancestorsFrom src maxLen (h - 1) (size + c.length) true room
        (c :: out, err)

def ancestorsOf (src : ContainerSource) (lim : Limits) (id : ID) : List Bytes × Option String :=
  match src.heightByContainerID id with
  | .error err => ([], some err)
  | .ok none => ([], none)
  | .ok (some h) => ancestorsFrom src lim.maxContainersLen h 0 false lim.maxContainers

def serve (src : ContainerSource) (lim : Limits) (id : ID) : List Bytes := (ancestorsOf src lim id).1

def nonEmpty (blocks : List Bytes) : Bool :=
  match blocks with
  | [] => false
  | c :: _ => c.length > 0

def decodeBatch (d : Decoder) (blocks : List Bytes) : Batch :=
  blocks.map (fun raw => (parseContainer d raw).toOption.map (fun p => ⟨p, raw⟩))

/--
`fetchAncestors` when every peer gives the same answer. `none` is a loop that never ends, since an
empty answer is asked for again.
-/
def fetchAncestors (d : Decoder) (ask : ID → List Bytes) (tip : ID) : Option Batch :=
  if nonEmpty (ask tip) then some (decodeBatch d (ask tip)) else none

def answers (fetch : ID → Option Batch) (lo : Nat) (cur : ID) (batch : Batch) : Nat → List Batch
  | 0 => []
  | n + 1 =>
    let cur := (walk lo cur batch).2.1
    match fetch cur with
    | none => []
    | some next => next :: answers fetch lo cur next n

structure Archive (d : Decoder) (src : ContainerSource) (top : Nat) where
  block : Nat → RawBlock
  parse : ∀ n, 1 ≤ n → n ≤ top → parseContainer d (block n).raw = .ok (block n).p
  number : ∀ n, 1 ≤ n → n ≤ top → (block n).p.blockNumber = n
  linked : ∀ n, 1 ≤ n → n < top → (block (n + 1)).p.parentID = (block n).p.containerID
  stored : ∀ n, 1 ≤ n → n ≤ top → src.containerAt n = .ok (block n).raw
  indexed : ∀ n, 1 ≤ n → n ≤ top → src.heightByContainerID (block n).p.containerID = .ok (some n)

namespace Archive

variable {d : Decoder} {src : ContainerSource} {top : Nat}

def down (ar : Archive d src top) (h k : Nat) : List RawBlock := (List.range k).map (fun i => ar.block (h - i))

theorem down_succ (ar : Archive d src top) (h k : Nat) : ar.down (h + 1) (k + 1) = ar.block (h + 1) :: ar.down h k := by
  unfold down
  rw [range_succ_eq_map, map_cons, map_map]
  congr 1
  apply map_congr_left
  intro i _
  simp only [Function.comp_apply]
  congr 1
  omega

inductive Served (ar : Archive d src top) : Nat → List Bytes → Prop
  | nil (h : Nat) : Served ar h []
  | genesis (c : Bytes) : Served ar 0 [c]
  | cons (h : Nat) (out : List Bytes) (rest : Served ar h out) : Served ar (h + 1) ((ar.block (h + 1)).raw :: out)

theorem served_ancestorsFrom (ar : Archive d src top) (maxLen : Nat) (h size room : Nat) (started : Bool) (hh : h ≤ top)
    : ar.Served h (ancestorsFrom src maxLen h size started room).1 := by
  induction room generalizing h size started with
  | zero => apply Served.nil
  | succ room ih =>
    unfold ancestorsFrom
    split
    . apply Served.nil
    . next c hc =>
      split
      . apply Served.nil
      . split
        . next h0 =>
          subst h0
          apply Served.genesis
        . next h0 =>
          obtain ⟨h, rfl⟩ : ∃ n, h = n + 1 := ⟨h - 1, by omega⟩
          have hstored := ar.stored (h + 1) (by omega) hh
          rw [hc] at hstored
          cases hstored
          apply Served.cons
          apply ih
          omega

theorem length_raw_pos (ar : Archive d src top) {n : Nat} (h1 : 1 ≤ n) (hn : n ≤ top) : 0 < (ar.block n).raw.length := by
  apply Nat.pos_of_ne_zero
  intro hempty
  have hparse := ar.parse n h1 hn
  simp [parseContainer, hempty] at hparse

theorem serve_eq (ar : Archive d src top) (lim : Limits) {h : Nat} (h1 : 1 ≤ h) (hh : h ≤ top)
    : ∃ out, serve src lim (ar.block h).p.containerID = (ar.block h).raw :: out
        ∧ ar.Served h ((ar.block h).raw :: out) := by
  obtain ⟨room, hroom⟩ : ∃ room, lim.maxContainers = room + 1 := ⟨lim.maxContainers - 1, by have := lim.pos; omega⟩
  have hserved := ar.served_ancestorsFrom lim.maxContainersLen h 0 (room + 1) false hh
  have hserve : serve src lim (ar.block h).p.containerID
      = (ancestorsFrom src lim.maxContainersLen h 0 false (room + 1)).1 := by
    simp only [serve, ancestorsOf, ar.indexed h h1 hh, hroom]
  have hne : h ≠ 0 := by omega
  simp only [ancestorsFrom, ar.stored h h1 hh, Bool.false_eq_true, and_false, if_false, hne] at hserved hserve
  exact ⟨_, hserve, hserved⟩

theorem fetchAncestors_eq (ar : Archive d src top) (lim : Limits) {h : Nat} (h1 : 1 ≤ h) (hh : h ≤ top)
    : ∃ out, fetchAncestors d (serve src lim) (ar.block h).p.containerID = some (decodeBatch d out)
        ∧ 0 < out.length ∧ ar.Served h out := by
  obtain ⟨out, hserve, hserved⟩ := ar.serve_eq lim h1 hh
  refine ⟨_, ?_, ?_, hserved⟩
  . simp [fetchAncestors, hserve, nonEmpty, ar.length_raw_pos h1 hh]
  . simp

theorem decodeBatch_cons (ar : Archive d src top) {h : Nat} (h1 : 1 ≤ h) (hh : h ≤ top) (out : List Bytes)
    : decodeBatch d ((ar.block h).raw :: out) = some (ar.block h) :: decodeBatch d out := by
  simp [decodeBatch, ar.parse h h1 hh, Except.toOption]

theorem walk_served (ar : Archive d src top) {lo h : Nat} {out : List Bytes} (hserved : ar.Served h out)
    (hlo : 1 ≤ lo) (hle : lo ≤ h) (hh : h ≤ top)
    : (∃ cur, walk lo (ar.block h).p.containerID (decodeBatch d out) = (ar.down h (h - lo + 1), cur, true))
      ∨ (out.length ≤ h - lo
        ∧ walk lo (ar.block h).p.containerID (decodeBatch d out)
          = (ar.down h out.length, (ar.block (h - out.length)).p.containerID, false)) := by
  induction hserved with
  | nil h =>
    right
    simp [decodeBatch, walk, down]
  | genesis c => omega
  | cons h out rest ih =>
    have hnumber := ar.number (h + 1) (by omega) hh
    rw [ar.decodeBatch_cons (by omega) hh]
    simp only [walk, ne_eq, not_true_eq_false, if_false, hnumber]
    by_cases hfloor : h + 1 ≤ lo
    . left
      have hgap : h + 1 - lo = 0 := by omega
      simp only [hfloor, if_true, hgap]
      exact ⟨_, rfl⟩
    . have hsucc : h + 1 - lo = h - lo + 1 := by omega
      simp only [hfloor, if_false, ar.linked h (by omega) (by omega)]
      rcases ih (by omega) (by omega) with ⟨cur, hwalk⟩ | ⟨hlen, hwalk⟩
      . left
        rw [hwalk, hsucc, down_succ]
        exact ⟨_, rfl⟩
      . right
        rw [hwalk, length_cons, down_succ, Nat.add_sub_add_right]
        exact ⟨by omega, rfl⟩

theorem down_append (ar : Archive d src top) (h k m : Nat) : ar.down h k ++ ar.down (h - k) m = ar.down h (k + m) := by
  unfold down
  rw [range_add, map_append, map_map]
  congr 1
  apply map_congr_left
  intro i _
  simp only [Function.comp_apply]
  congr 1
  omega

theorem descend_answers (ar : Archive d src top) (lim : Limits) {lo h n : Nat} {out : List Bytes}
    (hserved : ar.Served h out) (hpos : 0 < out.length) (hlo : 1 ≤ lo) (hle : lo ≤ h) (hh : h ≤ top)
    (hn : h - lo ≤ n)
    : descend lo (ar.block h).p.containerID
        (decodeBatch d out :: answers (fetchAncestors d (serve src lim)) lo (ar.block h).p.containerID
          (decodeBatch d out) n)
      = some (ar.down h (h - lo + 1)) := by
  induction n generalizing h out with
  | zero =>
    rcases ar.walk_served hserved hlo hle hh with ⟨cur, hwalk⟩ | ⟨hlen, -⟩
    . simp [descend, hwalk]
    . omega
  | succ n ih =>
    rcases ar.walk_served hserved hlo hle hh with ⟨cur, hwalk⟩ | ⟨hlen, hwalk⟩
    . simp [descend, hwalk]
    . obtain ⟨next, hfetch, hnext, hserved'⟩ := ar.fetchAncestors_eq lim (h := h - out.length) (by omega) (by omega)
      have hrest := ih hserved' hnext (by omega) (by omega) (by omega)
      have hsum : out.length + (h - out.length - lo + 1) = h - lo + 1 := by omega
      rw [descend, hwalk]
      simp only [Bool.false_eq_true, if_false, answers, hwalk, hfetch, hrest, Option.map_some, down_append, hsum]

theorem reverse_down (ar : Archive d src top) {lo h : Nat} (hle : lo ≤ h)
    : (ar.down h (h - lo + 1)).reverse = (List.range' lo (h + 1 - lo)).map ar.block := by
  apply ext_getElem
  . simp only [down, length_reverse, length_map, length_range, length_range']
    omega
  . intro i h1 h2
    simp only [down, length_reverse, length_map, length_range] at h1
    simp only [down, getElem_reverse, getElem_map, getElem_range, length_map, length_range, getElem_range']
    congr 1
    omega

/--
A fetch from an honest archive ends, with exactly the containers of the span in ascending order,
however few of them fit into a batch.
-/
theorem fetchSpan_archive (ar : Archive d src top) (lim : Limits) (s : Span) (hlo : 1 ≤ s.lo) (hle : s.lo ≤ s.hi)
    (hhi : s.hi ≤ top)
    : ∃ seed, fetchAncestors d (serve src lim) (ar.block s.hi).p.containerID = some seed
        ∧ ∀ n, s.hi - s.lo ≤ n →
          (fetchSpan s {
              seeds := [((ar.block s.hi).p.containerID, seed)]
              ancestors :=
                answers (fetchAncestors d (serve src lim)) s.lo (ar.block s.hi).p.containerID seed n
            }).map (fun r => (r.toSpan, r.blocks))
          = some (s, (List.range' s.lo (s.hi + 1 - s.lo)).map ar.block) := by
  obtain ⟨out, hserve, hserved⟩ := ar.serve_eq lim (h := s.hi) (by omega) hhi
  have hseed := ar.decodeBatch_cons (h := s.hi) (by omega) hhi out
  refine ⟨decodeBatch d ((ar.block s.hi).raw :: out), ?_, ?_⟩
  . simp [fetchAncestors, hserve, nonEmpty, ar.length_raw_pos (n := s.hi) (by omega) hhi]
  . intro n hn
    have hdescend := ar.descend_answers lim hserved (by simp) hlo hle hhi hn
    have hnumber := ar.number s.hi (by omega) hhi
    have hkeep : ((List.range' s.lo (s.hi + 1 - s.lo)).map ar.block).filter (s.lo ≤ ·.p.blockNumber)
        = (List.range' s.lo (s.hi + 1 - s.lo)).map ar.block := by
      apply filter_eq_self.2
      intro b hb
      obtain ⟨m, hm, rfl⟩ := mem_map.1 hb
      rw [mem_range'_1] at hm
      rw [ar.number m (by omega) (by omega)]
      simpa using hm.1
    have hspan : ¬ s.hi + 1 < s.lo := by omega
    rw [hseed] at hdescend ⊢
    simp only [fetchSpan, hspan, if_false, seedSpan, List.find?, hnumber, decide_true]
    simp only [Option.bind_eq_bind, Option.bind_some, hdescend, Option.pure_def, Option.map_some, ar.reverse_down hle,
      hkeep]

def oneByte : Decoder where
  parseWithoutVerification
    | 0 :: 0 :: id :: parent :: block => .ok ⟨.fill 32 id, .fill 32 parent, block⟩
    | _ => .error "couldn't unpack codec version"
  split
    | 0xc1 :: n :: rest => .ok ([n], rest)
    | _ => .error "unexpected EOF"
  decodeBytes
    | [0xc1, n] => .ok ⟨n.toNat, .fill 32 n, .fill 32 (n - 1)⟩
    | _ => .error "rlp: expected input list for types.extblock"

def forkBlock (n : Nat) : RawBlock :=
  match n with
  | 2 => ⟨⟨.fill 32 12, 2, .fill 32 2, .fill 32 1, .fill 32 1⟩, [0, 0, 12, 1, 0xc1, 2]⟩
  | 3 => ⟨⟨.fill 32 13, 3, .fill 32 3, .fill 32 12, .fill 32 2⟩, [0, 0, 13, 12, 0xc1, 3]⟩
  | 4 => ⟨⟨.fill 32 14, 4, .fill 32 4, .fill 32 13, .fill 32 3⟩, [0, 0, 14, 13, 0xc1, 4]⟩
  | _ => ⟨⟨.fill 32 1, 1, .fill 32 1, .fill 32 0, .fill 32 0⟩, [0xc1, 1]⟩

def forkSource : ContainerSource where
  containerAt n := if 1 ≤ n ∧ n ≤ 4 then .ok (forkBlock n).raw else .error "not found"
  heightByContainerID id := .ok ([1, 2, 3, 4].find? (fun n => (forkBlock n).p.containerID = id))

theorem forkBlock_spec (n : Nat) (h1 : 1 ≤ n) (hn : n ≤ 4)
    : parseContainer oneByte (forkBlock n).raw = .ok (forkBlock n).p
      ∧ (forkBlock n).p.blockNumber = n
      ∧ forkSource.containerAt n = .ok (forkBlock n).raw
      ∧ forkSource.heightByContainerID (forkBlock n).p.containerID = .ok (some n) := by
  interval_cases n <;> exact ⟨rfl, rfl, rfl, rfl⟩

theorem forkBlock_linked (n : Nat) (h1 : 1 ≤ n) (hn : n < 4)
    : (forkBlock (n + 1)).p.parentID = (forkBlock n).p.containerID := by
  interval_cases n <;> rfl

def forkArchive : Archive oneByte forkSource 4 where
  block := forkBlock
  parse n h1 hn := (forkBlock_spec n h1 hn).1
  number n h1 hn := (forkBlock_spec n h1 hn).2.1
  linked := forkBlock_linked
  stored n h1 hn := (forkBlock_spec n h1 hn).2.2.1
  indexed n h1 hn := (forkBlock_spec n h1 hn).2.2.2

def fiveBytes : Limits := ⟨2000, 5, Nat.succ_pos _⟩

theorem fetchSpan_archive_acrossFork
    : ∃ seed, fetchAncestors oneByte (serve forkSource fiveBytes) (forkBlock 4).p.containerID = some seed
        ∧ ∀ n, 3 ≤ n →
          (fetchSpan ⟨1, 4⟩ {
              seeds := [((forkBlock 4).p.containerID, seed)]
              ancestors :=
                answers (fetchAncestors oneByte (serve forkSource fiveBytes)) 1 (forkBlock 4).p.containerID
                  seed n
            }).map (fun r => (r.toSpan, r.blocks))
          = some (⟨1, 4⟩, [forkBlock 1, forkBlock 2, forkBlock 3, forkBlock 4]) :=
  fetchSpan_archive forkArchive fiveBytes ⟨1, 4⟩ (by decide) (by decide) (by decide)

end Archive

end EpochDB.Fetch
