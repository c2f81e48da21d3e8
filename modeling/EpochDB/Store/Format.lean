import EpochDB.Lib.Bytes

/-!
The key schema of the store (`store/format.go`): the family prefixes, the key of every family and the
role and position bits of the posting families.
-/

namespace EpochDB.Store

abbrev Addr := FixedBytes 20
abbrev Hash := FixedBytes 32

def prefixBlk : Bytes := .ofChars ['b', 'l', 'k', '/']
def prefixHdr : Bytes := .ofChars ['h', 'd', 'r', '/']
def prefixItx : Bytes := .ofChars ['i', 't', 'x', '/']
def prefixPvm : Bytes := .ofChars ['p', 'v', 'm', '/']
def prefixRcpt : Bytes := .ofChars ['r', 'c', 'p', 't', '/']
def prefixTx : Bytes := .ofChars ['t', 'x', '/']
def prefixCode : Bytes := .ofChars ['c', 'o', 'd', 'e', '/']
def prefixState : Bytes := .ofChars ['s', 't', 'a', 't', 'e', '/']
def prefixTxHash : Bytes := .ofChars ['t', 'x', 'h', '/']
def prefixBlkHash : Bytes := .ofChars ['b', 'l', 'k', 'h', '/']
def prefixCid : Bytes := .ofChars ['c', 'i', 'd', '/']
def prefixAddr : Bytes := .ofChars ['a', 'd', 'd', 'r', '/']
def prefixELog : Bytes := .ofChars ['e', 'l', 'o', 'g', '/']
def prefixTVal : Bytes := .ofChars ['t', 'v', 'a', 'l', '/']
def prefixSig : Bytes := .ofChars ['s', 'i', 'g', '/']
def prefixSet : Bytes := .ofChars ['s', 'e', 't', '/']

def roleSender : UInt8 := (1 : UInt8) <<< 0
def roleRecipient : UInt8 := (1 : UInt8) <<< 1
def roleCreated : UInt8 := (1 : UInt8) <<< 2
def roleEmitter : UInt8 := (1 : UInt8) <<< 3
def roleFrame : UInt8 := (1 : UInt8) <<< 4

def payloadBits (group : Bytes) : Nat :=
  if prefixAddr.isPrefixOf group then
    5
  else if prefixTVal.isPrefixOf group then
    3
  else
    0

def numKey (pfx : Bytes) (n : UInt64) : Bytes := pfx ++ Bytes.putUint64 n
def codeKey (hash : Bytes) : Bytes := prefixCode ++ hash
def txHashKey (h : Bytes) : Bytes := prefixTxHash ++ h
def blkHashKey (h : Bytes) : Bytes := prefixBlkHash ++ h
def cidKey (id : Bytes) : Bytes := prefixCid ++ id

def accountPrefix (addr : Addr) : Bytes := prefixState ++ addr.val ++ .ofChars ['/', 'a', '/']

def codeRefPrefix (addr : Addr) : Bytes := prefixState ++ addr.val ++ .ofChars ['/', 'c', '/']

def slotPrefix (addr : Addr) (slot : Hash) : Bytes :=
  prefixState ++ addr.val ++ .ofChars ['/', 's', '/'] ++ slot.val ++ .ofChars ['/']

def join (pfx : Bytes) (parts : List Bytes) : Bytes :=
  match parts with
  | [] => pfx
  | p :: parts => join (pfx ++ p ++ .ofChars ['/']) parts

def addrPrefix (addr : Addr) : Bytes := join prefixAddr [addr.val]
def eLogGroup (emitter : Addr) (topic0 : Hash) : Bytes := join prefixELog [emitter.val, topic0.val]
def tValGroup (value topic0 : Hash) : Bytes := join prefixTVal [value.val, topic0.val]
def sigGroup (topic0 : Hash) : Bytes := join prefixSig [topic0.val]

def setPrefix (topic0 : Hash) (pos : UInt8) (value : Hash) : Bytes :=
  join prefixSet [topic0.val, [pos], value.val]

def setKey (topic0 : Hash) (pos : UInt8) (value : Hash) (emitter : Addr) : Bytes :=
  setPrefix topic0 pos value ++ emitter.val

def suffixed (pfx : Bytes) (txnum : UInt64) : Bytes := pfx ++ Bytes.putUint64 txnum

def txNumOf (key : Bytes) : UInt64 := Bytes.uint64 (key.drop (key.length - 8))

def setSplit : Nat := prefixSet.length + 32 + 1 + 1 + 1 + 32 + 1

def split (key : Bytes) : Nat :=
  if prefixState.isPrefixOf key then
    -- `state/<20>/x/...`: the shape byte is at 27
    if key.length > 27 ∧ key[27]? = some 's'.toUInt8 then
      if key.length ≥ 62 + 8 then 62 else key.length
    else if key.length ≥ 29 + 8 then
      29
    else
      key.length
  else if prefixAddr.isPrefixOf key ∧ key.length ≥ 26 + 8 then
    26
  else if prefixELog.isPrefixOf key ∧ key.length ≥ 26 + 8 then
    26
  else if prefixTVal.isPrefixOf key ∧ key.length ≥ 38 + 8 then
    38
  else if prefixSig.isPrefixOf key ∧ key.length ≥ 37 + 8 then
    37
  else if prefixSet.isPrefixOf key ∧ key.length ≥ setSplit + 20 then
    setSplit
  else
    key.length

theorem length_join (pfx : Bytes) (parts : List Bytes)
    : (join pfx parts).length = pfx.length + (parts.map (fun p => p.length + 1)).sum := by
  induction parts generalizing pfx with
  | nil => simp [join]
  | cons p parts ih =>
    simp only [join, ih]
    simp
    omega

@[simp]
theorem length_txHashKey (h : Bytes) : (txHashKey h).length = 4 + h.length := by
  simp [txHashKey, prefixTxHash]

@[simp]
theorem length_blkHashKey (h : Bytes) : (blkHashKey h).length = 5 + h.length := by
  simp [blkHashKey, prefixBlkHash]

@[simp]
theorem length_cidKey (id : Bytes) : (cidKey id).length = 4 + id.length := by
  simp [cidKey, prefixCid]

@[simp]
theorem length_accountPrefix (addr : Addr) : (accountPrefix addr).length = 29 := by
  simp [accountPrefix, prefixState, addr.property]

@[simp]
theorem length_codeRefPrefix (addr : Addr) : (codeRefPrefix addr).length = 29 := by
  simp [codeRefPrefix, prefixState, addr.property]

@[simp]
theorem length_slotPrefix (addr : Addr) (slot : Hash) : (slotPrefix addr slot).length = 62 := by
  simp [slotPrefix, prefixState, addr.property, slot.property]

@[simp]
theorem length_addrPrefix (addr : Addr) : (addrPrefix addr).length = 26 := by
  simp [addrPrefix, length_join, prefixAddr, addr.property]

@[simp]
theorem length_eLogGroup (emitter : Addr) (topic0 : Hash) : (eLogGroup emitter topic0).length = 59 := by
  simp [eLogGroup, length_join, prefixELog, emitter.property, topic0.property]

@[simp]
theorem length_tValGroup (value topic0 : Hash) : (tValGroup value topic0).length = 71 := by
  simp [tValGroup, length_join, prefixTVal, value.property, topic0.property]

@[simp]
theorem length_sigGroup (topic0 : Hash) : (sigGroup topic0).length = 37 := by
  simp [sigGroup, length_join, prefixSig, topic0.property]

@[simp]
theorem length_setKey (topic0 : Hash) (pos : UInt8) (value : Hash) (emitter : Addr)
    : (setKey topic0 pos value emitter).length = 92 := by
  simp [setKey, setPrefix, length_join, prefixSet, topic0.property, value.property, emitter.property]

@[simp]
theorem payloadBits_addrPrefix (addr : Addr) : payloadBits (addrPrefix addr) = 5 := rfl

@[simp]
theorem payloadBits_eLogGroup (emitter : Addr) (topic0 : Hash) : payloadBits (eLogGroup emitter topic0) = 0 := rfl

@[simp]
theorem payloadBits_tValGroup (value topic0 : Hash) : payloadBits (tValGroup value topic0) = 3 := rfl

@[simp]
theorem payloadBits_sigGroup (topic0 : Hash) : payloadBits (sigGroup topic0) = 0 := rfl

end EpochDB.Store
