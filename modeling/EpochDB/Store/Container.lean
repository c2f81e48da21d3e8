import EpochDB.Lib.Bytes

/-!
Container reassembly (`store/container.go`): the container a block was fetched as, rebuilt from the
`pvm` template row, the header and the transactions. The encoder of a list is a parameter.
-/

namespace EpochDB.Store

/--
`rlp.EncodeToBytes` of a `bareBlock`: its fields are raw values, so that only list headers are computed.
-/
def bareBlock (encodeList : Bytes → Bytes) (headerRLP : Bytes) (txRLPs : List Bytes) : Bytes :=
  encodeList (headerRLP ++ encodeList txRLPs.flatten ++ encodeList [])

def reassemble (encodeList : Bytes → Bytes) (pvm headerRLP : Bytes) (txRLPs : List Bytes) : Except String Bytes :=
  if pvm.length = 0 then
    .ok (bareBlock encodeList headerRLP txRLPs)
  else if pvm.length < 8 then
    .error s!"store: pvm row is {pvm.length} bytes, too short for a template"
  else
    let la := (Bytes.uint32 (pvm.take 4)).toNat
    if 4 + la + 4 > pvm.length then
      .error s!"store: pvm row: bad prefix length {la}"
    else
      let a := (pvm.drop 4).take la
      let lb := (Bytes.uint32 ((pvm.drop (4 + la)).take 4)).toNat
      if 8 + la + lb > pvm.length then
        .error s!"store: pvm row: bad tx-list header length {lb}"
      else
        let b := (pvm.drop (8 + la)).take lb
        let c := pvm.drop (8 + la + lb)
        .ok (a ++ headerRLP ++ b ++ txRLPs.flatten ++ c)

end EpochDB.Store
