import SubEtha.Fec.RsCode
import SubEtha.Lib.Memory

namespace SubEtha.Block
open List Lib

abbrev Datagram := List Byte
abbrev Item := List Byte

def pktData : Nat := 1
def dataHeader : Nat := 13
def flagParity : Nat := 1
def flagOuter : Nat := 2
def flagRetransmit : Nat := 4
def outerIdBit : Nat := 2 ^ 31
def maxShards : Nat := 32
def itemLenPrefix : Nat := 2
def nakNone : Nat := 2 ^ 32 - 1

def leBytes16 (n : Nat) : List Byte := [byte n, byte (n / 2 ^ 8)]

def leBytes32 (n : Nat) : List Byte :=
  [byte n, byte (n / 2 ^ 8), byte (n / 2 ^ 16), byte (n / 2 ^ 24)]

/-- A sealed block held for retransmission: data shards first, then parity.
`k` and `r` are the `u8` header fields. -/
structure PendingBlock where
  k : Nat
  r : Nat
  shards : List (List Byte)

def PendingBlock.datagramFlagged (pb : PendingBlock) (blockId idx extraFlags epoch : Nat) :
    Datagram :=
  let parity := if pb.k ≤ idx then flagParity else 0
  byte pktData :: leBytes32 blockId ++
    [byte idx, byte pb.k, byte pb.r, byte (parity ||| extraFlags)] ++ leBytes32 epoch ++
    pb.shards.getD idx []

def PendingBlock.datagram (pb : PendingBlock) (blockId idx epoch : Nat) : Datagram :=
  pb.datagramFlagged blockId idx 0 epoch

structure Feedback where
  ackThrough : Nat
  nakBlock : Nat
  nakMask : BitVec 32

/-- The sender. Flow-window and telemetry fields are left out: nothing below reads them. -/
structure Encoder where
  k : Nat
  r : Nat
  shardLen : Nat
  epoch : Nat
  nextBlock : Nat
  ackedThrough : Nat
  staged : List (List Byte)
  pending : Table Nat PendingBlock
  towerD : Nat
  towerROuter : Nat
  segInfos : List (List Byte)
  segId : Nat

namespace Encoder

/-- Parity is capped so that `k + r` shards fit the 32-bit bitmap. -/
def rMax (k : Nat) : Nat := maxShards - k

def new (k r maxItem epoch : Nat) : Encoder where
  k := k
  r := min r (rMax k)
  shardLen := maxItem + itemLenPrefix
  epoch := epoch
  nextBlock := 0
  ackedThrough := 0
  staged := []
  pending := Table.empty
  towerD := 0
  towerROuter := 0
  segInfos := []
  segId := 0

variable (e : Encoder)

def maxItem : Nat := e.shardLen - itemLenPrefix

def enableTower (d rOuter : Nat) : Encoder :=
  if d = 0 ∨ rOuter = 0 ∨ d + rOuter > maxShards then
    { e with towerD := 0, towerROuter := 0, segInfos := [] }
  else { e with towerD := d, towerROuter := rOuter, segInfos := [] }

def setParity (r : Nat) : Encoder := { e with r := min r (rMax e.k) }

def resize (len : Nat) (s : List Byte) : List Byte :=
  s.take len ++ replicate (len - s.length) (byte 0)

/-- The parity shards of `RsCode::new(k, r).encode(..)`; `none` where an `expect` panics. -/
def encodeParity (k r len : Nat) (data : List (List Byte)) : Option (List (List Byte)) := do
  let code ← (RsCode.new k r).toOption
  (code.encode data (replicate r (replicate len (byte 0)))).toOption

/-- Self-describing outer block id: `d(27..31) | r_outer(24..27) | segment(8..24) |
outer_index(0..8)` under the outer bit, in `u32` arithmetic. -/
def outerId (d rOuter segId oidx : Nat) : Nat :=
  (outerIdBit ||| d <<< 27 ||| rOuter <<< 24 ||| segId <<< 8 ||| oidx) % 2 ^ 32

def chunks (len : Nat) (info : List Byte) : List (List Byte) :=
  (range ((info.length + len - 1) / len)).map fun i => (info.drop (i * len)).take len

def outerBlock (oinfo : List Byte) : Option PendingBlock := do
  let oshards := chunks e.shardLen oinfo
  let oparity ← encodeParity e.k e.r e.shardLen oshards
  some { k := e.k % 256, r := e.r % 256, shards := oshards ++ oparity }

def outerDatagrams (e : Encoder) (d segId : Nat) : Nat → List (List Byte) → Option (List Datagram)
  | _, [] => some []
  | oidx, oinfo :: rest => do
    let opb ← e.outerBlock oinfo
    let oid := outerId d e.towerROuter segId oidx
    let out ← e.outerDatagrams d segId (oidx + 1) rest
    some ((range (e.k + e.r)).map (fun i => opb.datagramFlagged oid i flagOuter e.epoch) ++ out)

def sealSegment : Option (Encoder × List Datagram) :=
  let infos := e.segInfos
  let d := infos.length
  if d = 0 ∨ e.towerROuter = 0 then some ({ e with segInfos := [] }, [])
  else do
    let infoLen := (infos.getD 0 []).length
    let outer ← encodeParity d e.towerROuter infoLen infos
    let out ← e.outerDatagrams d e.segId 0 outer
    some ({ e with segInfos := [], segId := e.segId + 1 }, out)

def blockShardLen : Nat :=
  if e.towerD > 0 then e.shardLen
  else (e.staged.map length).foldl max itemLenPrefix

def dataShards : List (List Byte) :=
  e.staged.map (resize e.blockShardLen) ++
    replicate (e.k - e.staged.length) (replicate e.blockShardLen (byte 0))

def blockParity : Option (List (List Byte)) :=
  if e.r = 0 then some [] else encodeParity e.k e.r e.blockShardLen e.dataShards

/-- Encode the staged block, number it and hold it for retransmission. -/
def sealShards : Option (Encoder × List Datagram) :=
  e.blockParity.map fun parity =>
    let pb : PendingBlock :=
      { k := e.k % 256, r := e.r % 256, shards := e.dataShards ++ parity }
    ({ e with
      nextBlock := e.nextBlock + 1
      pending := e.pending.insert e.nextBlock pb
      staged := [] },
      (range (e.k + e.r)).map fun i => pb.datagram e.nextBlock i e.epoch)

/-- With the tower on, the block's info joins the segment, which ships its
outer parity when full. -/
def sealBlock : Option (Encoder × List Datagram) := do
  let (e', datagrams) ← e.sealShards
  if e.towerD > 0 then
    let e' := { e' with segInfos := e'.segInfos ++ [e.dataShards.flatten] }
    if e'.segInfos.length = e'.towerD then do
      let (e', out) ← e'.sealSegment
      some (e', datagrams ++ out)
    else some (e', datagrams)
  else some (e', datagrams)

def push (item : Item) : Option (Encoder × List Datagram) :=
  let e' := { e with staged := e.staged ++ [leBytes16 (item.length % 2 ^ 16) ++ item] }
  if e'.staged.length = e'.k then e'.sealBlock else some (e', [])

def flushStaged : Option (Encoder × List Datagram) :=
  if e.staged = [] then some (e, []) else e.sealBlock

def flush : Option (Encoder × List Datagram) := do
  let (e', out) ← e.flushStaged
  if e'.towerD > 0 ∧ e'.segInfos ≠ [] then do
    let (e', seg) ← e'.sealSegment
    some (e', out ++ seg)
  else some (e', out)

/-- Free what is acked and answer the NAK from the blocks still held. A shift
count is taken modulo 32. -/
def onFeedback (fb : Feedback) : Encoder × List Datagram :=
  let e' := { e with
    ackedThrough := max fb.ackThrough e.ackedThrough
    pending := e.pending.retain fun id => fb.ackThrough ≤ id }
  if fb.nakBlock ≠ nakNone then
    match e'.pending.get? fb.nakBlock with
    | some pb =>
      (e', ((range pb.shards.length).filter fun idx => fb.nakMask.getLsbD (idx % 32)).map
        fun idx => pb.datagramFlagged fb.nakBlock idx flagRetransmit e.epoch)
    | none => (e', [])
  else (e', [])

def probeBlock (blockId : Nat) : List Datagram :=
  match e.pending.get? blockId with
  | some pb =>
    (range pb.k).map fun idx => pb.datagramFlagged blockId idx flagRetransmit e.epoch
  | none => []

/-- Pending ids are all below `nextBlock`, so this walks the map in key order. -/
def retransmitAllData : List Datagram :=
  (range e.nextBlock).flatMap e.probeBlock

end Encoder
end SubEtha.Block
