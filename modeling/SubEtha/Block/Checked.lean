import SubEtha.Block.Link

namespace SubEtha.Block
open List Option Lib

/-- Every `gf_mul_add` that `decode` makes has a source as long as its output: the
call asserts it, and the vector kernels index the source by the output's length. -/
def SourcesFit (code : RsCode) (shards : Shards) : Bool :=
  match pickSurvivors code.k 0 shards [] 0 with
  | .error _ => true
  | .ok (surv, len) =>
    if surv.length < code.k ∨ len = 0 then true
    else
      match invert (surv.map fun pos => (range code.k).map (code.encEntry pos)) code.k with
      | none => true
      | some inv =>
        (range code.k).all fun i =>
          (shards.getD i none).isSome || (range code.k).all fun j =>
            (inv.getD i []).getD j (byte 0) == byte 0 ||
              ((shards.getD (surv.getD j 0) none).getD []).length == len

-- The decoder once more, with every access that can panic made explicit: `none`
-- where an index is out of range, an `expect` fails, a shift or sum overflows, or
-- a kernel gets slices of different lengths.
namespace Checked

/-- `1u32 << idx`, then `shards[idx] = ..` if the bit is clear. -/
def addShard (b : RxBlock) (idx : Nat) (payload : List Byte) : Option RxBlock :=
  if idx < 32 ∧ (b.mask.getLsbD idx = true ∨ idx < b.shards.length) then
    some (b.addShard idx payload)
  else none

def decodeFits (b : RxBlock) : Bool :=
  match RsCode.new b.k b.r with
  | .error _ => true
  | .ok code => SourcesFit code b.shards

def complete (b : RxBlock) (passthrough : Bool) : Option RxBlock :=
  if !b.decoded && b.k ≤ b.count then
    if b.k ≤ b.shards.length ∧ decodeFits b then b.complete passthrough else none
  else some b

def handleOuter (dec : Decoder) (oid shardIndex k r : Nat) (payload : List Byte) : Option Decoder :=
  let (segId, d, rOuter, oidx) := Decoder.outerFields oid
  if d = 0 ∨ rOuter = 0 then some dec
  else
    let blk := (dec.outerRx.get? oid).getD (RxBlock.new k r payload.length)
    let dec := { dec with
      towerD := max d dec.towerD, towerROuter := rOuter, segD := dec.segD.insert segId d
      outerRx := dec.outerRx.insert oid blk }
    if blk.shardLen ≠ payload.length ∨ blk.k ≠ k ∨ blk.r ≠ r then some dec
    else
      (addShard blk shardIndex payload).bind fun blk =>
      (complete blk false).bind fun done =>
        if done.decoded && !blk.decoded then
          let outers := (dec.segOuter.get? segId).getD Table.empty
          some { dec with
            outerRx := dec.outerRx.erase oid
            segOuter := dec.segOuter.insert segId (outers.insert oidx done.info) }
        else some { dec with outerRx := dec.outerRx.insert oid done }

/-- `base + i`, the segment decode and `1u32 << i` stay in range. -/
def recoverFits (dec : Decoder) (blockId : Nat) : Bool :=
  if dec.towerD = 0 ∨ dec.towerROuter = 0 ∨ dec.innerK = 0 then true
  else
    let segId := blockId / dec.towerD
    let base := segId * dec.towerD
    match dec.segD.get? segId with
    | none => true
    | some d =>
      if d ≤ blockId - base then true
      else
        match dec.segOuter.get? segId with
        | none => true
        | some outers =>
          decide (base + d ≤ 2 ^ 32) && decide (dec.innerK ≤ 32) &&
            match RsCode.new d dec.towerROuter with
            | .error _ => true
            | .ok code => SourcesFit code (dec.segmentShards base d dec.towerROuter outers)

def drainLoop : Nat → Decoder → Option (Decoder × List Item)
  | 0, dec => some (dec, [])
  | fuel + 1, dec =>
    let id := dec.nextDeliver
    match dec.window.get? id with
    | some blk =>
      if blk.decoded then
        -- the loss trace shifts by every shard index
        if 32 < blk.k + blk.r then none
        else
          (Decoder.blockItems blk.k blk.shards).bind fun items =>
            if 2 ^ 32 ≤ id + 1 then none
            else
              (drainLoop fuel
                { dec with window := dec.window.erase id, nextDeliver := id + 1 }).map
                fun (dec', out) => (dec', items ++ out)
      else some (dec, [])
    | none =>
      if recoverFits dec id then
        match dec.tryTowerRecover id with
        | some dec => drainLoop fuel dec
        | none => some (dec, [])
      else none

variable (dec : Decoder)

def drainInOrder : Option (Decoder × List Item) :=
  (drainLoop Decoder.drainFuel dec).map fun (dec, out) => (dec.trim, out)

def acceptShard (h : Header) : Option (Decoder × List Item) :=
  let blk := (dec.window.get? h.blockId).getD (RxBlock.new h.k h.r h.payload.length)
  let dec := { dec with
    highestSeen := max dec.highestSeen h.blockId, window := dec.window.insert h.blockId blk }
  if blk.shardLen ≠ h.payload.length ∨ blk.k ≠ h.k ∨ blk.r ≠ h.r then drainInOrder dec
  else
    (addShard blk h.shardIndex h.payload).bind fun blk =>
    (complete blk true).bind fun done =>
      let dec := { dec with window := dec.window.insert h.blockId done }
      if done.decoded && !blk.decoded then
        drainInOrder { dec with
          dataInfos := dec.dataInfos.insert h.blockId done.info
          highestDecoded := max dec.highestDecoded h.blockId }
      else drainInOrder dec

def ingestData (h : Header) : Option (Decoder × List Item) :=
  if h.blockId < dec.nextDeliver then some (dec, [])
  else if min (dec.nextDeliver + dec.cap32) (2 ^ 32 - 1) ≤ h.blockId then some (dec, [])
  else acceptShard dec h

def ingest (buf : List Byte) : Option (Decoder × List Item) :=
  match parseHeader buf with
  | none => some (dec, [])
  | some h =>
    if dec.sessionEpoch ≠ none ∧ dec.sessionEpoch ≠ some h.epoch then
      some ({ dec with unknownEpoch := some h.epoch }, [])
    else
      let dec := { dec with sessionEpoch := some h.epoch }
      if h.k = 0 ∨ h.k + h.r > maxShards ∨ h.shardIndex ≥ h.k + h.r then some (dec, [])
      else if outerIdBit ≤ h.blockId then
        (handleOuter dec h.blockId h.shardIndex h.k h.r h.payload).bind drainInOrder
      else ingestData (dec.learnInner h) h

/-- Give up on the head block. `none` where `id + 1` overflows. -/
def skipHead : Option (Decoder × List Item) :=
  let id := dec.nextDeliver
  let dec := { dec with window := dec.window.erase id, dataInfos := dec.dataInfos.erase id }
  if 2 ^ 32 ≤ id + 1 then none else drainInOrder { dec with nextDeliver := id + 1 }

end Checked

/-- The calls a receiver makes while a peer sends it anything at all. -/
inductive HostileEvent
  | packet (buf : List Byte)
  | feedback (driveArq : Bool)
  | missingBlocks (max : Nat) (driveTail : Bool)
  | skipHead

/-- `feedback` and `missing_blocks` only read: their one shift is behind a test of
its count. -/
def hostileStep (dec : Decoder) : HostileEvent → Option Decoder
  | .packet buf => (Checked.ingest dec buf).map Prod.fst
  | .feedback _ => some dec
  | .missingBlocks _ _ => some dec
  | .skipHead => (Checked.skipHead dec).map Prod.fst

/-- The checked calls compute what the decoder computes wherever they return. -/
theorem checked_complete (h : Checked.complete b p = some done) : b.complete p = some done := by
  unfold Checked.complete at h
  split at h
  · split at h
    · exact h
    · cases h
  · rename_i hc
    rw [RxBlock.complete, if_neg hc]
    exact h

theorem checked_addShard (h : Checked.addShard b idx payload = some b') :
    b.addShard idx payload = b' := by
  unfold Checked.addShard at h
  split at h
  · exact Option.some.inj h
  · cases h

theorem checked_handleOuter (h : Checked.handleOuter dec oid idx k r payload = some dec') :
    dec.handleOuter oid idx k r payload = some dec' := by
  unfold Checked.handleOuter at h
  unfold Decoder.handleOuter
  dsimp only at h ⊢
  split_ifs at h ⊢
  · exact h
  · exact h
  obtain ⟨blk, hadd, h⟩ := bind_eq_some_iff.mp h
  obtain ⟨done, hdone, h⟩ := bind_eq_some_iff.mp h
  rw [checked_addShard hadd, checked_complete hdone]
  exact h

theorem checked_drainLoop (h : Checked.drainLoop fuel dec = some res) :
    Decoder.drainLoop fuel dec = some res := by
  induction fuel generalizing dec res with
  | zero => exact h
  | succ fuel ih =>
    rw [Checked.drainLoop] at h
    rw [Decoder.drainLoop]
    cases hblk : dec.window.get? dec.nextDeliver with
    | some blk =>
      rw [hblk] at h
      dsimp only at h ⊢
      split_ifs at h ⊢
      · obtain ⟨items, -, h⟩ := bind_eq_some_iff.mp h
        cases h
      · obtain ⟨items, hitems, h⟩ := bind_eq_some_iff.mp h
        obtain ⟨r, hr, heq⟩ := map_eq_some_iff.mp h
        rw [hitems]
        dsimp only
        rw [ih hr]
        exact congrArg some heq
      · exact h
    | none =>
      rw [hblk] at h
      dsimp only at h ⊢
      split at h
      · cases hrec : dec.tryTowerRecover dec.nextDeliver with
        | some dec' =>
          rw [hrec] at h
          exact ih h
        | none =>
          rw [hrec] at h
          exact h
      · cases h

theorem checked_drainInOrder (h : Checked.drainInOrder dec = some res) :
    dec.drainInOrder = some res := by
  obtain ⟨r, hr, heq⟩ := map_eq_some_iff.mp h
  rw [Decoder.drainInOrder, checked_drainLoop hr]
  exact congrArg some heq

theorem checked_acceptShard (hrun : Checked.acceptShard dec h = some res) :
    dec.acceptShard h = some res := by
  unfold Checked.acceptShard at hrun
  unfold Decoder.acceptShard
  dsimp only at hrun ⊢
  split_ifs at hrun ⊢
  · exact checked_drainInOrder hrun
  obtain ⟨blk, hadd, hrun⟩ := bind_eq_some_iff.mp hrun
  obtain ⟨done, hdone, hrun⟩ := bind_eq_some_iff.mp hrun
  rw [checked_addShard hadd, checked_complete hdone]
  dsimp only
  split_ifs at hrun ⊢ <;> exact checked_drainInOrder hrun

theorem checked_ingest (hrun : Checked.ingest dec buf = some res) : dec.ingest buf = some res := by
  unfold Checked.ingest Checked.ingestData at hrun
  unfold Decoder.ingest Decoder.ingestData
  split
  · rename_i hparse
    rw [hparse] at hrun
    exact hrun
  rename_i h hparse
  rw [hparse] at hrun
  dsimp only at hrun ⊢
  split_ifs at hrun ⊢
  · exact hrun
  · exact hrun
  · obtain ⟨dec1, houter, hdrain⟩ := bind_eq_some_iff.mp hrun
    rw [checked_handleOuter houter]
    exact checked_drainInOrder hdrain
  · exact hrun
  · exact hrun
  · exact checked_acceptShard hrun

end SubEtha.Block
