import EpochDB.Lib.Bytes

/-!
The errors of the RPC server and the parameters of the Otterscan methods (`rpc/otterscan.go`).
-/

namespace EpochDB.Rpc

structure RpcError where
  code : Int
  message : String
  deriving DecidableEq, Repr

def errInvalid (message : String) : RpcError := ⟨-32602, message⟩

def errRead (message : String) : RpcError := ⟨-32000, message⟩

structure Json where
  uint : Bytes → Option UInt64
  str : Bytes → Except String String
  decodeUint64 : String → Except String UInt64

def otsMaxPageSize : UInt64 := 100

section

variable (js : Json) (params : List Bytes)

def otsUintParam (i : Nat) (name : String) : Except RpcError UInt64 :=
  match params[i]? with
  | none => .ok 0
  | some raw =>
    if raw.length = 0 || raw = .ofChars ['n', 'u', 'l', 'l'] then
      .ok 0
    else
      match js.uint raw with
      | some n => .ok n
      | none =>
        match js.str raw with
        | .error e => .error (errInvalid s!"bad {name}: {e}")
        | .ok hex =>
          match js.decodeUint64 hex with
          | .error e => .error (errInvalid s!"bad {name} {hex.quote}: {e}")
          | .ok v => .ok v

def otsPageSize (i : Nat) : Except RpcError UInt64 :=
  match otsUintParam js params i "pageSize" with
  | .error e => .error e
  | .ok n =>
    if n = 0 then
      .ok 25
    else if n > otsMaxPageSize then
      .error (errInvalid s!"pageSize {n} exceeds the limit of {otsMaxPageSize}")
    else
      .ok n

theorem otsPageSize_eq_ok {i : Nat} {size : UInt64} (h : otsPageSize js params i = .ok size)
    : 0 < size.toNat ∧ size.toNat ≤ 100 := by
  unfold otsPageSize at h
  split at h
  . cases h
  . next n _ =>
    split at h
    . cases h
      decide
    . next hzero =>
      split at h
      . cases h
      . next hmax =>
        cases h
        rw [UInt64.not_lt] at hmax
        have hle : size.toNat ≤ 100 := hmax
        have hne : size.toNat ≠ 0 := fun h0 => hzero (UInt64.toNat_inj.mp h0)
        omega

end

end EpochDB.Rpc
