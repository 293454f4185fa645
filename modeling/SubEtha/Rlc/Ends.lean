import SubEtha.Rlc.Frames

namespace SubEtha.Rlc
open Lib

def lenPrefix : Nat := 2

def packSymbol (item : List Byte) (symbolLen : Nat) : List Byte :=
  leBytes lenPrefix item.length ++
    (item ++ List.replicate (symbolLen - lenPrefix - item.length) (byte 0))

def unpackSymbol (sym : List Byte) : List Byte :=
  if sym.length < lenPrefix then []
  else (sym.take (min (lenPrefix + leAt sym 0 lenPrefix) sym.length)).drop lenPrefix

/-- The longest payload a UDP datagram carries; the socket refuses more. -/
def maxDatagram : Nat := 65527

def onSocket (pkt : Packet) : List Packet := if pkt.length ≤ maxDatagram then [pkt] else []

def ctrlBuf : Nat := 256
def tailRtxBatch : Nat := 8

/-- Times are microseconds since the sender's start. -/
structure RlcSender where
  connId : Nat
  symbolLen : Nat
  enc : RlcEncoder
  sent : Table Nat (List Byte)
  lastTx : Table Nat Nat
  ackedThrough : Nat
  minRttUs : Nat
  probe : Option (Nat × Nat)

namespace RlcSender

def new (connId windowMax step dt symbolLen : Nat) : RlcSender where
  connId := connId
  symbolLen := symbolLen
  enc := RlcEncoder.new windowMax step dt symbolLen
  sent := Table.empty
  lastTx := Table.empty
  ackedThrough := 0
  minRttUs := 2 ^ 64 - 1
  probe := none

variable (tx : RlcSender)

def skipTo (base : Nat) : RlcSender :=
  { tx with
    enc := tx.enc.rebaseTo base, ackedThrough := base, sent := Table.empty, lastTx := Table.empty }

def sendData (now sid : Nat) (sym : List Byte) : Packet :=
  dataFrame tx.connId sid now sym

/-- The symbol is held before the socket is asked to take it, so a refused
datagram leaves it held and unsent. -/
def sendItemNow (now : Nat) (item : List Byte) : Except String (RlcSender × List Packet) :=
  let len := item.length
  let symbolLen := tx.symbolLen
  if symbolLen < len + lenPrefix then
    .error s!"an item of {len} bytes does not fit a symbol of {symbolLen}, which holds a {lenPrefix} byte length prefix as well"
  else
    let sym := packSymbol item symbolLen
    let pushed := tx.enc.pushSource sym
    let sid := pushed.2.1
    let tx := { tx with
      enc := pushed.1
      sent := tx.sent.insert sid sym
      probe := some (tx.probe.getD (sid, now)) }
    if (tx.sendData now sid sym).length ≤ maxDatagram then
      .ok ({ tx with lastTx := tx.lastTx.insert sid now },
        tx.sendData now sid sym ::
          pushed.2.2.toList.flatMap fun r => onSocket (repairFrame tx.connId r))
    else .ok (tx, [])

/-- A copy sent within the last 1.2 round trips is still in flight. -/
def due (now sid : Nat) : Bool :=
  let cooldown := min (max tx.minRttUs 15000) 200000 * 6 / 5
  match tx.lastTx.get? sid with
  | some t => cooldown ≤ now - t
  | none => true

def retransmitIfDue (now sid : Nat) (sym : List Byte) : RlcSender × List Packet :=
  if tx.due now sid then
    ({ tx with lastTx := tx.lastTx.insert sid now }, onSocket (tx.sendData now sid sym))
  else (tx, [])

def resend (now : Nat) (p : RlcSender × List Packet) (sid : Nat) : RlcSender × List Packet :=
  match p.1.sent.get? sid with
  | some sym =>
    let r := p.1.retransmitIfDue now sid sym
    (r.1, p.2 ++ r.2)
  | none => p

def resendAll (now : Nat) (sids : List Nat) : RlcSender × List Packet :=
  sids.foldl (resend now) (tx, [])

/-- The lowest ids still held, a batch at a time. -/
def retransmitUnacked (now : Nat) : RlcSender × List Packet :=
  tx.resendAll now
    (((List.range tx.enc.nextSourceId).filter fun sid => tx.sent.contains sid).take tailRtxBatch)

def sacked (through sack sid : Nat) : Bool :=
  (List.range 64).any fun i => sack.testBit i && sid = (through + (1 + i)) % 2 ^ 32

/-- An acknowledgement past the probe id times one round trip. -/
def sampleRtt (now through : Nat) : RlcSender :=
  match tx.probe with
  | some (psid, ptime) =>
    if psid < through then { tx with minRttUs := min tx.minRttUs (now - ptime), probe := none }
    else tx
  | none => tx

def advanceAck (through : Nat) : RlcSender :=
  if tx.ackedThrough < through then
    { tx with
      ackedThrough := through
      enc := tx.enc.forgetBelow through
      sent := tx.sent.retain fun sid => through ≤ sid
      lastTx := tx.lastTx.retain fun sid => through ≤ sid }
  else tx

def releaseSacked (through mask : Nat) : RlcSender :=
  { tx with sent := tx.sent.retain fun sid => !sacked through mask sid }

/-- A short ACK carries no mask. -/
def onAck (now through : Nat) (sack : Option Nat) : RlcSender :=
  let tx := (tx.sampleRtt now through).advanceAck through
  match sack with
  | some mask => tx.releaseSacked through mask
  | none => tx

/-- Coding feedback is a separate event; a challenge is echoed as it came. -/
def handlePumpFrame (now : Nat) (m : Packet) : RlcSender × List Packet :=
  if frameType m = pktNak then tx.resendAll now (idsFrom m m.length 1)
  else if frameType m = pktAck ∧ 5 ≤ m.length then
    (tx.onAck now (leAt m 1 4) (if 13 ≤ m.length then some (leAt m 5 8) else none), [])
  else if frameType m = pktPathChallenge ∧ pathFrameLen ≤ m.length then
    (tx, [byte pktPathResponse :: (m.take pathFrameLen).drop 1])
  else (tx, [])

def retune (windowMax step dt : Nat) (coding : Bool) : RlcSender :=
  { tx with enc := (tx.enc.setParams windowMax step dt).setCoding coding }

end RlcSender

def startProbeDepth : Nat := 16
def nakMaxIds : Nat := (ctrlBuf - 25 - 1) / 4
def startProbeMaxDepth : Nat := nakMaxIds - 2
def startProbeRounds : Nat := 2

/-- Asks the sender where the stream starts; the lowest id seen is the canary,
kept with the send stamp of its last copy. -/
structure StartProbe where
  lowest : Option (Nat × Nat)
  depth : Nat
  deepenedAt : Nat
  canaryBackUs : Option Nat
  emptyRounds : Nat
  deriving DecidableEq

namespace StartProbe

def new : StartProbe where
  lowest := none
  depth := startProbeDepth
  deepenedAt := 0
  canaryBackUs := none
  emptyRounds := 0

def later (sendUs stamp : Nat) : Bool :=
  let d := (sendUs + 2 ^ 32 - stamp) % 2 ^ 32
  0 < d && d < 2 ^ 31

def saw (p : StartProbe) (sid sendUs arrivalUs : Nat) : StartProbe :=
  match p.lowest with
  | none => { p with lowest := some (sid, sendUs), deepenedAt := sid }
  | some (lowest, stamp) =>
    if sid < lowest then
      { p with lowest := some (sid, sendUs), canaryBackUs := none, emptyRounds := 0 }
    else if sid = lowest ∧ later sendUs stamp then
      { p with
        lowest := some (lowest, sendUs), canaryBackUs := some (p.canaryBackUs.getD arrivalUs) }
    else p

end StartProbe

/-- One peer's decode window. `start` is the probe until the start is settled;
times are microseconds. -/
structure Window where
  symbolLen : Nat
  dec : RlcDecoder
  deliveredThrough : Nat
  highestSeen : Nat
  start : Option StartProbe
  lastNak : Nat
  gapSince : Table Nat Nat
  lastAckSent : Nat
  lastAckedThrough : Nat

namespace Window

def new (symbolLen now : Nat) : Window where
  symbolLen := symbolLen
  dec := (RlcDecoder.new symbolLen).withHorizon 128
  deliveredThrough := 0
  highestSeen := 0
  start := some StartProbe.new
  lastNak := now
  gapSince := Table.empty
  lastAckSent := now
  lastAckedThrough := 2 ^ 32 - 1

section
variable (w : Window)

def skipTo (base : Nat) : Window :=
  { w with
    start := none
    deliveredThrough := base
    highestSeen := base
    dec := w.dec.rebaseTo base
    gapSince := w.gapSince.retain fun sid => base ≤ sid }

def onData (sid sendUs : Nat) (sym : List Byte) (arrivalUs : Nat) : Window :=
  { w with
    start := w.start.map fun p => p.saw sid sendUs arrivalUs
    highestSeen := max w.highestSeen sid
    dec := w.dec.onSource sid sym }

/-- A repair covering id 0 is the sender still holding it. -/
def onRepair (r : RepairSymbol) : Window :=
  if r.payload.length ≠ w.symbolLen then w
  else
    { w with
      start := if r.firstSourceId = 0 then none else w.start
      highestSeen := max w.highestSeen (r.sourceId r.windowSize - 1)
      dec := w.dec.addRepair r }

def process (pkt : Packet) (arrivalUs : Nat) : Window :=
  if frameType pkt = pktData ∧ dataHdr + w.symbolLen ≤ pkt.length then
    w.onData (leAt pkt 9 4) (leAt pkt 13 4) ((pkt.drop dataHdr).take w.symbolLen) arrivalUs
  else if frameType pkt = pktRepair ∧ 20 ≤ pkt.length then
    w.onRepair {
      repairKey := leAt pkt 9 4
      firstSourceId := leAt pkt 13 4
      windowSize := leAt pkt 17 2
      dt := leAt pkt 19 1
      payload := pkt.drop 20 }
  else w

def settleAt (base : Nat) : Window :=
  { w with
    start := none
    deliveredThrough := base
    highestSeen := max w.highestSeen base
    dec := w.dec.forgetBelow base }

/-- Whether the start is settled, once the evidence is in. -/
def settleStart (now grace : Nat) : Window × Bool :=
  match w.start with
  | none => (w, true)
  | some probe =>
    if w.dec.has 0 then ({ w with start := none }, true)
    else
      match probe.lowest, probe.canaryBackUs with
      | some (lowest, _), some back =>
        if now < back + grace then (w, false)
        else if probe.emptyRounds + 1 < startProbeRounds then
          ({ w with start := some { probe with
              canaryBackUs := none, emptyRounds := probe.emptyRounds + 1 } }, false)
        else (w.settleAt lowest, true)
      | _, _ => (w, false)

end

def deliverLoop : Nat → Window → Window × List (List Byte)
  | 0, w => (w, [])
  | fuel + 1, w =>
    match w.dec.get w.deliveredThrough with
    | none => (w, [])
    | some sym =>
      let rest := deliverLoop fuel { w with deliveredThrough := (w.deliveredThrough + 1) % 2 ^ 32 }
      (rest.1, unpackSymbol sym :: rest.2)

variable (w : Window)

/-- There are 2^32 ids to ask for before the loop comes round. -/
def deliver : Window × List (List Byte) :=
  let out := deliverLoop (2 ^ 32) w
  ({ out.1 with dec := out.1.dec.forgetBelow out.1.deliveredThrough }, out.2)

/-- One recovery pass over what has arrived, then settle and deliver. The flag
says whether the start is settled. -/
def advance (now grace : Nat) : Window × List (List Byte) × Bool :=
  let w := { w with dec := w.dec.recover.1 }
  let settled := w.settleStart now grace
  if settled.2 then
    let out := settled.1.deliver
    (out.1, out.2, true)
  else (settled.1, [], false)

/-- Note when each gap was first seen, and collect those older than the grace,
sixteen at most. -/
def scanGap (now grace : Nat) (p : Table Nat Nat × List Nat) (sid : Nat) :
    Table Nat Nat × List Nat :=
  if w.dec.has sid then (p.1.erase sid, p.2)
  else
    let first := (p.1.get? sid).getD now
    (p.1.insert sid first,
      if first + grace ≤ now ∧ p.2.length < 16 then p.2 ++ [sid] else p.2)

/-- Ask for the gaps blocking delivery, once a millisecond at most. -/
def maybeNak (hasPeer : Bool) (now grace : Nat) : Window × List Packet :=
  if now < w.lastNak + 1000 then (w, [])
  else
    let scanEnd := min w.highestSeen ((w.deliveredThrough + 1024) % 2 ^ 32)
    let found := (List.range' w.deliveredThrough (scanEnd + 1 - w.deliveredThrough)).foldl
      (w.scanGap now grace) (w.gapSince, [])
    let w := { w with gapSince := found.1.retain fun sid => w.deliveredThrough ≤ sid }
    if found.2 = [] then (w, [])
    else if hasPeer then ({ w with lastNak := now }, [nakFrame found.2])
    else (w, [])

/-- Bit `i` says that the id `1 + i` past the frontier is held. -/
def sackMask : Nat :=
  (List.range 64).foldl
    (fun mask i =>
      if w.dec.has ((w.deliveredThrough + (1 + i)) % 2 ^ 32) then mask ||| 1 <<< i else mask) 0

def sendAck (hasPeer : Bool) (now : Nat) : Window × List Packet :=
  if w.deliveredThrough = w.lastAckedThrough ∧ now < w.lastAckSent + 10000 then (w, [])
  else if hasPeer then
    ({ w with lastAckSent := now, lastAckedThrough := w.deliveredThrough },
      [ackFrame w.deliveredThrough w.sackMask])
  else (w, [])

def deepen (p : StartProbe) (lowest : Nat) : StartProbe :=
  if p.depth ≤ p.deepenedAt - lowest ∧
      (List.range' lowest (p.deepenedAt - lowest)).all (fun sid => w.dec.has sid) then
    { p with depth := min (p.depth * 2) startProbeMaxDepth, deepenedAt := lowest }
  else p

/-- Id 0, the ids just below the lowest seen, and that one last. -/
def sendStartProbe (hasPeer : Bool) (now : Nat) : Window × List Packet :=
  if now < w.lastNak + 1000 ∨ hasPeer = false then (w, [])
  else
    match w.start with
    | none => (w, [])
    | some probe =>
      match probe.lowest with
      | none => (w, [])
      | some (lowest, _) =>
        let probe := w.deepen probe lowest
        let lo := max (lowest - probe.depth) 1
        ({ w with start := some probe, lastNak := now },
          [nakFrame (0 :: List.range' lo (lowest + 1 - lo))])

/-- The session's answer to its peer: gaps and an acknowledgement, or the start
probe while the start is open. -/
def respond (settled hasPeer : Bool) (now grace : Nat) : Window × List Packet :=
  if settled then
    let nak := w.maybeNak hasPeer now grace
    let ack := nak.1.sendAck hasPeer now
    (ack.1, nak.2 ++ ack.2)
  else w.sendStartProbe hasPeer now

def service (hasPeer : Bool) (now grace : Nat) : Window × List (List Byte) × List Packet :=
  let out := w.advance now grace
  let answer := out.1.respond out.2.2 hasPeer now grace
  (answer.1, out.2.1, answer.2)

end Window
end SubEtha.Rlc
