import EpochDB.Lib.Preorder
import EpochDB.Store.Format

/-!
The call frames of a transaction (`store/frames.go`): `DecodeFrames` flattens the stored call tree to the
order its frames were entered in, each with its depth.
-/

namespace EpochDB.Store.Frames

open RoseTree (preorder height rebuild)

structure Frame where
  kind : UInt8
  depth : UInt8
  fromAddr : Addr
  toAddr : Addr
  value : Option Nat
  gas : UInt64
  gasUsed : UInt64
  failed : Bool
  error : String
  input : Bytes
  output : Bytes
  deriving DecidableEq

structure CallFields where
  type : String
  fromAddr : Addr
  toAddr : Option Addr
  value : Option Nat
  gas : UInt64
  gasUsed : UInt64
  input : Bytes
  output : Bytes
  error : String
  deriving DecidableEq

abbrev CallFrameJSON := RoseTree CallFields

def CallFrameJSON.calls : CallFrameJSON → List CallFrameJSON
  | .node _ calls => calls

def zeroAddr : Addr := FixedBytes.fill 20 0

section

variable (stringToOp : String → UInt8)

def frame (depth : UInt8) (c : CallFields) : Frame where
  kind := stringToOp c.type
  depth := depth
  fromAddr := c.fromAddr
  toAddr := c.toAddr.getD zeroAddr
  value := c.value
  gas := c.gas
  gasUsed := c.gasUsed
  failed := c.error ≠ ""
  error := c.error
  input := c.input
  output := c.output

mutual

def walkCall (depth : UInt8) : CallFrameJSON → List Frame
  | .node c calls => frame stringToOp depth c :: walk (depth + 1) calls

def walk (depth : UInt8) : List CallFrameJSON → List Frame
  | [] => []
  | c :: cs => walkCall depth c ++ walk depth cs

end

def decodeFrames (unmarshal : Bytes → Except String CallFrameJSON) (record : Bytes) : Except String (List Frame) :=
  if record.length = 0 then
    .ok []
  else
    match unmarshal record with
    | .error e => .error s!"frames: {e}"
    | .ok top => .ok (walk stringToOp 0 top.calls)

theorem walk_eq (level : Nat) (calls : List CallFrameJSON)
    : walk stringToOp (UInt8.ofNat level) calls =
        (preorder level calls).map (fun e => frame stringToOp (UInt8.ofNat e.1) e.2) := by
  match calls with
  | [] => rfl
  | .node c calls :: rest =>
    have hsucc : UInt8.ofNat level + 1 = UInt8.ofNat (level + 1) := by
      rw [UInt8.ofNat_add]
      rfl
    rw [RoseTree.preorder_cons, List.map_cons, List.map_append, ← walk_eq (level + 1) calls, ← walk_eq level rest,
      ← hsucc]
    rfl

def callTree (calls : List CallFrameJSON) : List (RoseTree Frame) := RoseTree.map (frame stringToOp 0) calls

end

def Frame.entry (f : Frame) : Nat × Frame := (f.depth.toNat, { f with depth := 0 })

theorem entries_walk_iff (stringToOp : String → UInt8) (calls : List CallFrameJSON)
    : (walk stringToOp 0 calls).map Frame.entry = preorder 0 (callTree stringToOp calls) ↔ height calls ≤ 256 := by
  have hentry : ∀ e : Nat × CallFields,
      (frame stringToOp (UInt8.ofNat e.1) e.2).entry = (e.1, frame stringToOp 0 e.2) ↔ e.1 < 256 := by
    intro e
    have hdepth : (UInt8.ofNat e.1).toNat = e.1 ↔ e.1 < 256 := by
      rw [UInt8.toNat_ofNat']
      exact ⟨fun h => h ▸ Nat.mod_lt _ (by decide), Nat.mod_eq_of_lt⟩
    rw [← hdepth]
    simp [Frame.entry, frame]
  have hwalk : walk stringToOp 0 calls = _ := walk_eq stringToOp 0 calls
  unfold callTree
  rw [hwalk, RoseTree.preorder_map, List.map_map, List.map_inj_left]
  simp only [Function.comp_apply, hentry]
  constructor
  . intro h
    cases calls with
    | nil => simp [height]
    | cons c cs =>
      rcases RoseTree.exists_level 0 (List.cons_ne_nil c cs) with ⟨e, he, hlast⟩
      have := h e he
      omega
  . intro h e he
    have := RoseTree.level_lt he
    omega

/--
The frames are those of the call tree in the order they were entered, each with its level, and give the
tree back, exactly when no call is nested deeper than a byte counts.
-/
theorem decodeFrames_iff (stringToOp : String → UInt8) (unmarshal : Bytes → Except String CallFrameJSON)
    {record : Bytes} {top : CallFrameJSON} (hne : record ≠ []) (htop : unmarshal record = .ok top)
    : ∃ frames, decodeFrames stringToOp unmarshal record = .ok frames ∧
        ((frames.map Frame.entry = preorder 0 (callTree stringToOp top.calls) ∧
          rebuild (frames.map Frame.entry) = callTree stringToOp top.calls) ↔ height top.calls ≤ 256) := by
  refine ⟨walk stringToOp 0 top.calls, ?_, ?_⟩
  . unfold decodeFrames
    rw [if_neg (by simpa using hne), htop]
  . rw [← entries_walk_iff stringToOp top.calls]
    constructor
    . intro h
      exact h.1
    . intro h
      rw [h]
      exact ⟨rfl, RoseTree.rebuild_preorder 0 _⟩

def callOp (s : String) : UInt8 :=
  match s with
  | "CREATE" => 0xf0
  | "CALL" => 0xf1
  | "CALLCODE" => 0xf2
  | "DELEGATECALL" => 0xf4
  | "CREATE2" => 0xf5
  | "STATICCALL" => 0xfa
  | "SELFDESTRUCT" => 0xff
  | _ => 0

def plainCall : CallFields := ⟨"CALL", FixedBytes.fill 20 1, some (FixedBytes.fill 20 2), some 0, 0, 0, [], [], ""⟩

def nestedCalls : Nat → CallFrameJSON
  | 0 => .node plainCall []
  | n + 1 => .node plainCall [nestedCalls n]

def callText (calls : Bytes) : Bytes :=
  .ofChars "\x7b\"type\":\"CALL\",\"from\":\"0x0101010101010101010101010101010101010101\",".toList ++
    .ofChars "\"to\":\"0x0202020202020202020202020202020202020202\",\"value\":\"0x0\",".toList ++
    .ofChars "\"gas\":\"0x0\",\"gasUsed\":\"0x0\",\"input\":\"0x\"".toList ++ calls ++ .ofChars "\x7d".toList

def nestedText : Nat → Bytes
  | 0 => callText []
  | n + 1 => callText (.ofChars ",\"calls\":[".toList ++ nestedText n ++ .ofChars "]".toList)

theorem nestedText_ne_nil (n : Nat) : nestedText n ≠ [] := by
  have hcall : ∀ calls, callText calls ≠ [] := fun calls => List.append_ne_nil_of_right_ne_nil _ (by decide)
  cases n with
  | zero => exact hcall _
  | succ n => exact hcall _

def readNested (n : Nat) (record : Bytes) : Except String CallFrameJSON :=
  if record = nestedText n then .ok (nestedCalls n) else .error "unexpected end of JSON input"

theorem decodeFrames_iff_nested
    : nestedText 2 ≠ [] ∧ readNested 2 (nestedText 2) = .ok (nestedCalls 2) ∧
      (walk callOp 0 (nestedCalls 2).calls).map (·.depth) = [0, 1] ∧
      ∃ frames, decodeFrames callOp (readNested 2) (nestedText 2) = .ok frames ∧
        ((frames.map Frame.entry = preorder 0 (callTree callOp (nestedCalls 2).calls) ∧
          rebuild (frames.map Frame.entry) = callTree callOp (nestedCalls 2).calls) ↔
            height (nestedCalls 2).calls ≤ 256) :=
  ⟨nestedText_ne_nil _, if_pos rfl, rfl,
    decodeFrames_iff callOp (readNested 2) (nestedText_ne_nil _) (if_pos rfl)⟩

theorem height_nestedCalls (n : Nat) : height (nestedCalls n).calls = n := by
  induction n with
  | zero => rfl
  | succ n ih =>
    have hheight : height [nestedCalls n] = height (nestedCalls n).calls + 1 := by
      cases n with
      | zero => rfl
      | succ n => exact Nat.max_eq_left (Nat.zero_le _)
    change height [nestedCalls n] = n + 1
    rw [hheight, ih]

theorem decodeFrames_depth_wraps
    : height (nestedCalls 257).calls = 257 ∧
      ∃ frames, decodeFrames callOp (readNested 257) (nestedText 257) = .ok frames ∧
        frames.getLast?.map (·.depth) = some 0 ∧
        frames.map Frame.entry ≠ preorder 0 (callTree callOp (nestedCalls 257).calls) := by
  refine ⟨height_nestedCalls 257, walk callOp 0 (nestedCalls 257).calls, ?_, ?_, ?_⟩
  . unfold decodeFrames
    rw [if_neg (by simpa using nestedText_ne_nil _), readNested, if_pos rfl]
  . decide +kernel
  . rw [Ne, entries_walk_iff, height_nestedCalls]
    decide

end EpochDB.Store.Frames
