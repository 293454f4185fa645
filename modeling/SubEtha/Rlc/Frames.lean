import SubEtha.Rlc.Soundness
import SubEtha.Wire

namespace SubEtha.Rlc
open List Lib

def pktData : Nat := 10
def pktRepair : Nat := 11
def pktNak : Nat := 12
def pktAck : Nat := 13
def pktPathChallenge : Nat := 18
def pktPathResponse : Nat := 19

def dataHdr : Nat := 17
def pathFrameLen : Nat := 17

/-- Type byte and connection id open every frame that names a session. -/
def connFrame (tag cid : Nat) (body : Packet) : Packet := byte tag :: (leBytes 8 cid ++ body)

def dataFrame (cid sid sendUs : Nat) (sym : List Byte) : Packet :=
  connFrame pktData cid (leBytes 4 sid ++ (leBytes 4 sendUs ++ sym))

def repairBytes (r : RepairSymbol) : Packet :=
  leBytes 4 r.repairKey ++ (leBytes 4 r.firstSourceId ++ (leBytes 2 r.windowSize ++
    (leBytes 1 r.dt ++ r.payload)))

def repairFrame (cid : Nat) (r : RepairSymbol) : Packet := connFrame pktRepair cid (repairBytes r)

def pathFrame (tag cid nonce : Nat) : Packet := connFrame tag cid (leBytes 8 nonce)

def nakFrame (sids : List Nat) : Packet := byte pktNak :: sids.flatMap (leBytes 4)

/-- The cumulative frontier and a 64-bit mask of the ids held above it. -/
def ackFrame (through sack : Nat) : Packet := byte pktAck :: (leBytes 4 through ++ leBytes 8 sack)

def frameType (pkt : Packet) : Nat := leAt pkt 0 1

def frameConnId (inner : Packet) : Option Nat :=
  if 9 ≤ inner.length ∧ (frameType inner = pktData ∨ frameType inner = pktRepair) then
    some (leAt inner 1 8)
  else none

def pathResponseConnId (inner : Packet) : Option Nat :=
  if inner.length < pathFrameLen ∨ frameType inner ≠ pktPathResponse then none
  else some (leAt inner 1 8)

section
variable {tag cid : Nat} {body : Packet}

theorem connFrame_length (tag cid : Nat) (body : Packet) :
    (connFrame tag cid body).length = 9 + body.length := by
  simp only [connFrame, length_cons, length_append, leBytes_length]
  omega

theorem connFrame_type (tag cid : Nat) (body : Packet) :
    frameType (connFrame tag cid body) = tag % 256 := by
  simp [frameType, connFrame, leAt, leValue]

theorem connFrame_body (h : 9 ≤ pos) (v : Nat) :
    leAt (connFrame tag cid body) pos v = leAt body (pos - 9) v := by
  rw [connFrame, leAt_cons (by omega), leAt_skip (by omega), Nat.sub_sub]

theorem connFrame_drop (n : Nat) : (connFrame tag cid body).drop (9 + n) = body.drop n := by
  have h : 9 + n = (8 + n) + 1 := by omega
  rw [connFrame, h, drop_succ_cons, drop_append, drop_of_length_le (by simp), nil_append]
  simp

end

def readRepair (r : RepairSymbol) : RepairSymbol where
  repairKey := r.repairKey % 2 ^ 32
  firstSourceId := r.firstSourceId % 2 ^ 32
  windowSize := r.windowSize % 2 ^ 16
  dt := r.dt % 2 ^ 8
  payload := r.payload

theorem repairBytes_length (r : RepairSymbol) :
    (repairBytes r).length = 11 + r.payload.length := by
  simp only [repairBytes, length_append, leBytes_length]
  omega

theorem repairBytes_payload (r : RepairSymbol) : (repairBytes r).drop 11 = r.payload := by
  rw [repairBytes, ← append_assoc, ← append_assoc, ← append_assoc]
  exact drop_left' (by simp)

theorem readRepair_eq (r : RepairSymbol) :
    readRepair r =
      { repairKey := leAt (repairBytes r) 0 4
        firstSourceId := leAt (repairBytes r) 4 4
        windowSize := leAt (repairBytes r) 8 2
        dt := leAt (repairBytes r) 10 1
        payload := r.payload } := by
  rw [repairBytes, leAt_here, leAt_skip (by decide), leAt_here, leAt_skip (by decide),
    leAt_skip (by decide), leAt_here, leAt_skip (by decide), leAt_skip (by decide),
    leAt_skip (by decide), leAt_here]
  rfl

theorem readRepair_ok (h : RepairOk a r) : RepairOk a (readRepair r) := by
  have hsize : (readRepair r).windowSize = r.windowSize := Nat.mod_eq_of_lt h.size_le
  have hid : ∀ off, (readRepair r).sourceId off = r.sourceId off := by
    intro off
    simp only [RepairSymbol.sourceId, readRepair]
    omega
  have hcoef : (readRepair r).coefficient = r.coefficient := by
    funext off
    have hdt : r.dt % 2 ^ 8 % 16 = r.dt % 16 := by omega
    rw [RepairSymbol.coefficient, hsize, RepairSymbol.density]
    exact congrArg _ hdt
  refine ⟨hsize ▸ h.size_le, ?_, ?_⟩
  · intro off hoff
    rw [hid]
    exact h.covered off (hsize ▸ hoff)
  · rw [hsize, hcoef]
    simp only [hid]
    exact h.payload_eq

end SubEtha.Rlc
