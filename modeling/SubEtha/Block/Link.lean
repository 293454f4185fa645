import SubEtha.Block.Decoder
import SubEtha.Lib.Bits
import SubEtha.Lib.Runs

namespace SubEtha.Block
open Decoder Lib BitVec

inductive Event
  | push (item : Item)
  | flush
  | setParity (r : Nat)
  | enableTower (d rOuter : Nat)
  | feedback (fb : Feedback)
  | probe (blockId : Nat)
  | retransmitAll
  | deliver (n : Nat)

/-- One encoder and one decoder with everything the encoder ever sent between
them. Delivering by position loses, repeats and reorders at will. -/
structure Link where
  enc : Encoder
  dec : Decoder
  wire : List Datagram
  pushed : List Item
  delivered : List Item
  /-- The data shards of every sealed block, by block id. -/
  sealedData : List (List (List Byte))

namespace Link

def init (k r maxItem epoch windowCap : Nat) : Link where
  enc := Encoder.new k r maxItem epoch
  dec := withWindow windowCap
  wire := []
  pushed := []
  delivered := []
  sealedData := []

/-- Take an encoder call's outcome: its datagrams go on the wire, and a block
it sealed is noted. -/
def sent (s : Link) (enc : Encoder) (out : List Datagram) : Link :=
  { s with
    enc := enc
    wire := s.wire ++ out
    sealedData := s.sealedData ++
      ((enc.pending.get? s.enc.nextBlock).map fun pb => pb.shards.take s.enc.k).toList }

def step (s : Link) : Event → Option Link
  | .push item => do
    let (enc, out) ← s.enc.push item
    some { s.sent enc out with pushed := s.pushed ++ [item] }
  | .flush => do
    let (enc, out) ← s.enc.flush
    some (s.sent enc out)
  | .setParity r => some { s with enc := s.enc.setParity r }
  | .enableTower d rOuter => some { s with enc := s.enc.enableTower d rOuter }
  | .feedback fb =>
    let sent := s.enc.onFeedback fb
    some { s with enc := sent.1, wire := s.wire ++ sent.2 }
  | .probe blockId => some { s with wire := s.wire ++ s.enc.probeBlock blockId }
  | .retransmitAll => some { s with wire := s.wire ++ s.enc.retransmitAllData }
  | .deliver n =>
    match s.wire[n]? with
    | none => some s
    | some buf => do
      let (dec, items) ← s.dec.onPacket buf
      some { s with dec := dec, delivered := s.delivered ++ items }

end Link

def RxBlock.full (b : RxBlock) : BitVec 32 :=
  if 32 ≤ b.k + b.r then BitVec.allOnes 32 else BitVec.twoPow 32 (b.k + b.r) - 1

namespace Decoder

variable (dec : Decoder)

/-- The shards a NAK for `id` asks for: those not yet here, or all of them when
nothing is. A decoded block needs none. -/
def missing (id : Nat) : Option (BitVec 32) :=
  match dec.window.get? id with
  | some blk => if blk.decoded then none else some (blk.full &&& ~~~blk.mask)
  | none => some (BitVec.allOnes 32)

/-- Ack the frontier, and NAK the block there once it is overdue. -/
def feedback (driveArq : Bool) : Feedback :=
  let ackThrough := dec.nextDeliver
  if driveArq || decide (ackThrough < dec.highestSeen) then
    match dec.missing ackThrough with
    | some mask => { ackThrough, nakBlock := ackThrough, nakMask := mask }
    | none => { ackThrough, nakBlock := nakNone, nakMask := 0 }
  else { ackThrough, nakBlock := nakNone, nakMask := 0 }

def pushGap (id : Nat) (gaps : List (Nat × BitVec 32)) : List (Nat × BitVec 32) :=
  match dec.missing id with
  | some mask => gaps ++ [(id, mask)]
  | none => gaps

/-- The sweep of `missing_blocks` over the next `count` ids. -/
def sweepGaps (dec : Decoder) (max : Nat) :
    Nat → Nat → List (Nat × BitVec 32) → List (Nat × BitVec 32)
  | 0, _, gaps => gaps
  | count + 1, id, gaps =>
    if gaps.length < max then dec.sweepGaps max count (id + 1) (dec.pushGap id gaps) else gaps

/-- Every gap below the highest decoded block, nearest first, and the tail when
it is driven. -/
def missingBlocks (max : Nat) (driveTail : Bool) : List (Nat × BitVec 32) :=
  let nd := dec.nextDeliver
  let gaps := dec.sweepGaps max (dec.highestDecoded + 1 - nd) nd []
  if driveTail && decide (gaps.length < max) then dec.pushGap (Nat.max nd dec.highestSeen) gaps
  else gaps

/-- What one service pass of the receiver puts on the return path: the feedback,
the same without its NAK, and one report for each gap. -/
def reports (driveArq : Bool) (max : Nat) : List Feedback :=
  let base := dec.feedback driveArq
  base :: { base with nakBlock := nakNone, nakMask := 0 } ::
    (dec.missingBlocks max driveArq).map fun gap =>
      { base with nakBlock := gap.1, nakMask := gap.2 }

end Decoder

theorem RxBlock.getLsbD_full (b : RxBlock) (h : b.k + b.r ≤ maxShards) (i : Nat) :
    b.full.getLsbD i = decide (i < b.k + b.r) := by
  have hmax : b.k + b.r ≤ 32 := h
  rw [full]
  split
  · rename_i hfull
    rw [getLsbD_allOnes, decide_eq_decide]
    omega
  · exact getLsbD_twoPow_sub_one (by omega) i

/-- The shards a NAK leaves out are those the receiver has. -/
theorem Decoder.missing_of_stuck {dec : Decoder}
    (h : ∀ rx, dec.window.get? dec.nextDeliver = some rx →
      rx.decoded = false ∧ rx.k + rx.r ≤ maxShards) :
    ∃ mask, dec.missing dec.nextDeliver = some mask ∧ ∀ i < 32, mask.getLsbD i = false →
      ∃ rx, dec.window.get? dec.nextDeliver = some rx ∧
        (i < rx.k + rx.r → rx.mask.getLsbD i = true) := by
  unfold missing
  cases hrx : dec.window.get? dec.nextDeliver with
  | none =>
    refine ⟨_, rfl, fun i hi hbit => ?_⟩
    rw [getLsbD_allOnes] at hbit
    simp [hi] at hbit
  | some rx =>
    obtain ⟨hd, hfits⟩ := h rx hrx
    dsimp only
    rw [hd]
    refine ⟨_, rfl, fun i hi hbit => ⟨rx, rfl, fun hlt => ?_⟩⟩
    rw [getLsbD_and, rx.getLsbD_full hfits, getLsbD_not] at hbit
    simpa [hi, hlt] using hbit

end SubEtha.Block
