import SubEtha.Block.Encoder
import Mathlib.Data.Nat.Count

namespace SubEtha.Block
open List Lib

/-- One block being reassembled. The retransmission and false-recovery bitmaps
feed the loss estimate only and are left out. -/
structure RxBlock where
  k : Nat
  r : Nat
  shardLen : Nat
  mask : BitVec 32
  shards : Shards
  decoded : Bool

namespace RxBlock

def new (k r shardLen : Nat) : RxBlock :=
  { k, r, shardLen, mask := 0, shards := replicate (k + r) none, decoded := false }

def count (b : RxBlock) : Nat := Nat.count (fun i => b.mask.getLsbD i = true) 32

def addShard (b : RxBlock) (idx : Nat) (payload : List Byte) : RxBlock :=
  if b.mask.getLsbD idx then b
  else { b with mask := b.mask ||| BitVec.twoPow 32 idx, shards := b.shards.set idx (some payload) }

/-- The `k` data shards joined; a slot still empty contributes nothing. -/
def info (b : RxBlock) : List Byte := (b.shards.take b.k).flatMap fun s => s.getD []

/-- Try to complete the block once `k` shards are there. With `passthrough` a
block without parity is complete when its data is; the outer path always builds
the code, and panics on `r = 0`. -/
def complete (b : RxBlock) (passthrough : Bool) : Option RxBlock :=
  if !b.decoded && b.k ≤ b.count then
    if passthrough && b.r = 0 then
      if (range b.k).all fun i => (b.shards.getD i none).isSome then
        some { b with decoded := true }
      else some b
    else
      match RsCode.new b.k b.r with
      | .error _ => none
      | .ok code =>
        match code.decode b.shards with
        | (.ok _, shards) => some { b with shards, decoded := true }
        | (.error _, shards) => some { b with shards }
  else some b

end RxBlock

/-- The receiver. `injected` records what tower recovery put into the window;
nothing reads it. -/
structure Decoder where
  sessionEpoch : Option Nat
  unknownEpoch : Option Nat
  window : Table Nat RxBlock
  nextDeliver : Nat
  highestSeen : Nat
  highestDecoded : Nat
  windowCap : Nat
  towerD : Nat
  towerROuter : Nat
  innerK : Nat
  innerShardLen : Nat
  dataInfos : Table Nat (List Byte)
  outerRx : Table Nat RxBlock
  segOuter : Table Nat (Table Nat (List Byte))
  segD : Table Nat Nat
  injected : List (Nat × List (List Byte))

structure Header where
  blockId : Nat
  shardIndex : Nat
  k : Nat
  r : Nat
  epoch : Nat
  payload : List Byte

def byteAt (buf : List Byte) (i : Nat) : Nat := (buf.getD i (byte 0)).toNat

def le32At (buf : List Byte) (i : Nat) : Nat :=
  byteAt buf i + byteAt buf (i + 1) * 2 ^ 8 + byteAt buf (i + 2) * 2 ^ 16 +
    byteAt buf (i + 3) * 2 ^ 24

/-- `None` for what `ingest` counts as malformed. -/
def parseHeader (buf : List Byte) : Option Header :=
  if byteAt buf 0 = pktData ∧ dataHeader ≤ buf.length then
    some {
      blockId := le32At buf 1
      shardIndex := byteAt buf 5
      k := byteAt buf 6
      r := byteAt buf 7
      epoch := le32At buf 9
      payload := buf.drop dataHeader }
  else none

namespace Decoder

def withWindow (windowCap : Nat) : Decoder where
  sessionEpoch := none
  unknownEpoch := none
  window := Table.empty
  nextDeliver := 0
  highestSeen := 0
  highestDecoded := 0
  windowCap := max windowCap 1
  towerD := 0
  towerROuter := 0
  innerK := 0
  innerShardLen := 0
  dataInfos := Table.empty
  outerRx := Table.empty
  segOuter := Table.empty
  segD := Table.empty
  injected := []

section
variable (dec : Decoder)

def cap32 : Nat := dec.windowCap % 2 ^ 32

/-- Segment, data blocks, outer blocks and outer index, as packed in an outer block's id. -/
def outerFields (oid : Nat) : Nat × Nat × Nat × Nat :=
  (oid / 2 ^ 8 % 2 ^ 16, oid / 2 ^ 27 % 2 ^ 4, oid / 2 ^ 24 % 2 ^ 3, oid % 2 ^ 8)

/-- Reassemble an outer-parity block and record its info once it decodes. -/
def handleOuter (oid shardIndex k r : Nat) (payload : List Byte) : Option Decoder :=
  let (segId, d, rOuter, oidx) := outerFields oid
  if d = 0 ∨ rOuter = 0 then some dec
  else
    let blk := (dec.outerRx.get? oid).getD (RxBlock.new k r payload.length)
    let dec := { dec with
      towerD := max d dec.towerD, towerROuter := rOuter, segD := dec.segD.insert segId d
      outerRx := dec.outerRx.insert oid blk }
    if blk.shardLen ≠ payload.length ∨ blk.k ≠ k ∨ blk.r ≠ r then some dec
    else
      let blk := blk.addShard shardIndex payload
      match blk.complete false with
      | none => none
      | some done =>
        if done.decoded && !blk.decoded then
          let outers := (dec.segOuter.get? segId).getD Table.empty
          some { dec with
            outerRx := dec.outerRx.erase oid
            segOuter := dec.segOuter.insert segId (outers.insert oidx done.info) }
        else some { dec with outerRx := dec.outerRx.insert oid done }

/-- The segment's `d` data infos and `rOuter` outer infos, as far as they are known. -/
def segmentShards (base d rOuter : Nat) (outers : Table Nat (List Byte)) : Shards :=
  (range d).map (fun i => dec.dataInfos.get? (base + i)) ++
    (range rOuter).map (fun j => outers.get? j)

/-- The info of `blockId` as its segment determines it. The segment is found by
dividing the id by the largest segment size seen. -/
def recoverInfo (blockId : Nat) : Option (List Byte) :=
  if dec.towerD = 0 ∨ dec.towerROuter = 0 ∨ dec.innerK = 0 then none
  else
    let segId := blockId / dec.towerD
    let base := segId * dec.towerD
    let idxInSeg := blockId - base
    match dec.segD.get? segId with
    | none => none
    | some d =>
      if d ≤ idxInSeg then none
      else
        match dec.segOuter.get? segId with
        | none => none
        | some outers =>
          let blocks := dec.segmentShards base d dec.towerROuter outers
          if blocks.countP Option.isSome < d then none
          else
            match RsCode.new d dec.towerROuter with
            | .error _ => none
            | .ok code =>
              match code.decode blocks with
              | (.error _, _) => none
              | (.ok _, blocks) => blocks.getD idxInSeg none

def injectedBlock (k shardLen : Nat) (info : List Byte) : RxBlock where
  k := k
  r := 0
  shardLen := shardLen
  mask := (range k).foldl (fun mask i => mask ||| BitVec.twoPow 32 i) 0
  shards := (range k).map fun i => some ((info.drop (i * shardLen)).take shardLen)
  decoded := true

/-- `none` where the source returns `false`. -/
def tryTowerRecover (blockId : Nat) : Option Decoder :=
  match dec.recoverInfo blockId with
  | none => none
  | some info =>
    let shardLen := max dec.innerShardLen 1
    if info.length ≠ dec.innerK * shardLen then none
    else
      let rb := injectedBlock dec.innerK shardLen info
      some { dec with
        dataInfos := dec.dataInfos.insert blockId info
        highestDecoded := max dec.highestDecoded blockId
        window := dec.window.insert blockId rb
        injected := dec.injected ++ [(blockId, rb.shards.filterMap id)] }

end

/-- The item a data shard carries, if any: empty shards are padding. `none`
where reading the length prefix panics. -/
def shardItem (shard : List Byte) : Option (Option Item) :=
  if shard.length < itemLenPrefix then none
  else
    let itemLen := byteAt shard 0 + byteAt shard 1 * 2 ^ 8
    if 0 < itemLen then
      some (some ((shard.drop itemLenPrefix).take (min (itemLenPrefix + itemLen) shard.length -
        itemLenPrefix)))
    else some none

def blockItems : Nat → Shards → Option (List Item)
  | 0, _ => some []
  | _ + 1, [] => none
  | _ + 1, none :: _ => none
  | k + 1, some shard :: shards => do
    let item ← shardItem shard
    let rest ← blockItems k shards
    some (item.toList ++ rest)

/-- Each turn delivers the head block or injects it, so the ids below `2^31`
bound the turns the loop can take. -/
def drainFuel : Nat := 2 ^ 33

def drainLoop : Nat → Decoder → Option (Decoder × List Item)
  | 0, dec => some (dec, [])
  | fuel + 1, dec =>
    let id := dec.nextDeliver
    match dec.window.get? id with
    | some blk =>
      if blk.decoded then
        match blockItems blk.k blk.shards with
        | none => none
        | some items =>
          -- `id + 1` overflows
          if 2 ^ 32 ≤ id + 1 then none
          else
            (drainLoop fuel { dec with window := dec.window.erase id, nextDeliver := id + 1 }).map
              fun (dec', out) => (dec', items ++ out)
      else some (dec, [])
    | none =>
      match dec.tryTowerRecover id with
      | some dec => drainLoop fuel dec
      | none => some (dec, [])

variable (dec : Decoder)

def trim : Decoder :=
  let keepFrom := dec.nextDeliver - dec.cap32
  let dec := { dec with dataInfos := dec.dataInfos.retain fun id => keepFrom ≤ id }
  if dec.towerD > 0 then
    let keepSeg := keepFrom / dec.towerD - 1
    { dec with
      segOuter := dec.segOuter.retain fun s => keepSeg ≤ s
      segD := dec.segD.retain fun s => keepSeg ≤ s
      outerRx := dec.outerRx.retain fun oid => keepSeg ≤ oid / 2 ^ 8 % 2 ^ 16 }
  else dec

def drainInOrder : Option (Decoder × List Item) :=
  (drainLoop drainFuel dec).map fun (dec, out) => (dec.trim, out)

/-- A data shard past every gate: join its block, decode, deliver. -/
def acceptShard (h : Header) : Option (Decoder × List Item) :=
  let blk := (dec.window.get? h.blockId).getD (RxBlock.new h.k h.r h.payload.length)
  let dec := { dec with
    highestSeen := max dec.highestSeen h.blockId, window := dec.window.insert h.blockId blk }
  if blk.shardLen ≠ h.payload.length ∨ blk.k ≠ h.k ∨ blk.r ≠ h.r then dec.drainInOrder
  else
    let blk := blk.addShard h.shardIndex h.payload
    match blk.complete true with
    | none => none
    | some done =>
      let dec := { dec with window := dec.window.insert h.blockId done }
      if done.decoded && !blk.decoded then
        drainInOrder { dec with
          dataInfos := dec.dataInfos.insert h.blockId done.info
          highestDecoded := max dec.highestDecoded h.blockId }
      else dec.drainInOrder

/-- The inner geometry is that of the first data shard to arrive. -/
def learnInner (h : Header) : Decoder :=
  if dec.innerK = 0 then { dec with innerK := h.k, innerShardLen := h.payload.length } else dec

/-- Delivered blocks and blocks beyond the window are refused. -/
def ingestData (h : Header) : Option (Decoder × List Item) :=
  if h.blockId < dec.nextDeliver then some (dec, [])
  else if min (dec.nextDeliver + dec.cap32) (2 ^ 32 - 1) ≤ h.blockId then some (dec, [])
  else dec.acceptShard h

def ingest (buf : List Byte) : Option (Decoder × List Item) :=
  match parseHeader buf with
  | none => some (dec, [])
  | some h =>
    if dec.sessionEpoch ≠ none ∧ dec.sessionEpoch ≠ some h.epoch then
      some ({ dec with unknownEpoch := some h.epoch }, [])
    else
      let dec := { dec with sessionEpoch := some h.epoch }
      if h.k = 0 ∨ h.k + h.r > maxShards ∨ h.shardIndex ≥ h.k + h.r then some (dec, [])
      else if outerIdBit ≤ h.blockId then
        (dec.handleOuter h.blockId h.shardIndex h.k h.r h.payload).bind drainInOrder
      else (dec.learnInner h).ingestData h

def onPacket (buf : List Byte) : Option (Decoder × List Item) := dec.ingest buf

end Decoder
end SubEtha.Block
