import SubEtha.Rlc.Frames
import SubEtha.Lib.Runs

namespace SubEtha.Mux
open Function Lib Rlc

def tagStream : Nat := 20
def tagStreamRepair : Nat := 21
def tagStreamNak : Nat := 22
def tagStreamAck : Nat := 23
def tagStreamFin : Nat := 24

def streamHdr : Nat := 17
def repairHdr : Nat := 24
def finLen : Nat := 19
def ackLen : Nat := 17

/-- Type byte, connection id and stream id open every frame. -/
def frame (tag cid stream : Nat) (body : Packet) : Packet :=
  byte tag :: (leBytes 8 cid ++ (leBytes 4 stream ++ body))

def wireStream (cid stream sid : Nat) (sym : List Byte) : Packet :=
  frame tagStream cid stream (leBytes 4 sid ++ sym)

def wireFin (cid stream finalSid finalLen : Nat) : Packet :=
  frame tagStreamFin cid stream (leBytes 4 finalSid ++ leBytes 2 finalLen)

def wireRepair (cid stream : Nat) (r : RepairSymbol) : Packet :=
  frame tagStreamRepair cid stream (repairBytes r)

def wireNak (cid stream : Nat) (missing : List Nat) : Packet :=
  frame tagStreamNak cid stream (missing.flatMap (leBytes 4))

def wireAck (cid stream through : Nat) : Packet :=
  frame tagStreamAck cid stream (leBytes 4 through)

/-- One sending stream. A protected stream has an encoder, a bulk one has none. -/
structure SendStream where
  enc : Option RlcEncoder
  sent : Table Nat (List Byte)
  nextSourceId : Nat
  ackedThrough : Nat
  pending : List Byte
  finInfo : Option (Nat × Nat)

def rlcWindow : Nat := 32
def rlcStep : Nat := 4
def rlcDt : Nat := 15

namespace SendStream

def new (isProtected : Bool) (symbolLen : Nat) : SendStream where
  enc := if isProtected then some (RlcEncoder.new rlcWindow rlcStep rlcDt symbolLen) else none
  sent := Table.empty
  nextSourceId := 0
  ackedThrough := 0
  pending := []
  finInfo := none

def fullyAcked (st : SendStream) : Bool :=
  match st.finInfo with
  | some (finalSid, _) => finalSid < st.ackedThrough
  | none => false

/-- Emit one symbol, padded. The pacing loop before it only takes feedback in. -/
def sendSymbol (st : SendStream) (cid stream symbolLen : Nat) (payload : List Byte) :
    SendStream × List Packet :=
  let sym := payload ++ List.replicate (symbolLen - payload.length) (byte 0)
  let sid := st.nextSourceId
  let pushed := st.enc.map fun e => e.pushSource sym
  let repair := pushed.bind fun p => p.2.2
  ({ st with
      nextSourceId := sid + 1
      sent := st.sent.insert sid sym
      enc := pushed.map Prod.fst },
    wireStream cid stream sid sym :: (repair.map (wireRepair cid stream)).toList)

/-- Drain the full symbols out of the pending bytes. -/
def drainFull (cid stream symbolLen : Nat) : Nat → SendStream → SendStream × List Packet
  | 0, st => (st, [])
  | fuel + 1, st =>
    if st.pending.length < symbolLen then (st, [])
    else
      let sent := { st with pending := st.pending.drop symbolLen }.sendSymbol cid stream symbolLen
        (st.pending.take symbolLen)
      let rest := drainFull cid stream symbolLen fuel sent.1
      (rest.1, sent.2 ++ rest.2)

/-- The tail, possibly empty, goes out as the final symbol. -/
def finish (st : SendStream) (cid stream symbolLen : Nat) : SendStream × List Packet :=
  let finalLen := st.pending.length % 2 ^ 16
  let finalSid := st.nextSourceId
  let sent := { st with pending := [] }.sendSymbol cid stream symbolLen st.pending
  ({ sent.1 with finInfo := some (finalSid, finalLen) },
    sent.2 ++ [wireFin cid stream finalSid finalLen])

def write (st : SendStream) (cid stream symbolLen : Nat) (data : List Byte) (fin : Bool) :
    SendStream × List Packet :=
  let st := { st with pending := st.pending ++ data }
  let full := drainFull cid stream symbolLen (st.pending.length + 1) st
  if fin then
    let tail := full.1.finish cid stream symbolLen
    (tail.1, full.2 ++ tail.2)
  else full

end SendStream

structure Sender where
  cid : Nat
  symbolLen : Nat
  streams : Table Nat SendStream

namespace Sender

variable (tx : Sender)

def openStream (stream : Nat) (isProtected : Bool) : Sender :=
  if tx.streams.contains stream then tx
  else { tx with streams := tx.streams.insert stream (SendStream.new isProtected tx.symbolLen) }

/-- A stream first written to without being opened is bulk. -/
def entry (stream : Nat) : SendStream :=
  (tx.streams.get? stream).getD (SendStream.new false tx.symbolLen)

/-- With empty symbols the draining loop never ends. -/
def write (tx : Sender) (stream : Nat) (data : List Byte) (fin : Bool) :
    Option (Sender × List Packet) :=
  if tx.symbolLen = 0 then none
  else
    let sent := (tx.entry stream).write tx.cid stream tx.symbolLen data fin
    some ({ tx with streams := tx.streams.insert stream sent.1 }, sent.2)

/-- Retransmit what is asked for and still held; an id at or past the final one
asks for the FIN too. -/
def onNak (stream : Nat) (want : List Nat) : List Packet :=
  match tx.streams.get? stream with
  | none => []
  | some st =>
    want.flatMap (fun sid => ((st.sent.get? sid).map (wireStream tx.cid stream sid)).toList) ++
      match st.finInfo with
      | some (finalSid, finalLen) =>
        if want.any fun sid => finalSid ≤ sid then [wireFin tx.cid stream finalSid finalLen] else []
      | none => []

def onAck (stream through : Nat) : Sender :=
  match tx.streams.get? stream with
  | none => tx
  | some st =>
    if st.ackedThrough < through then
      { tx with streams := tx.streams.insert stream { st with
          ackedThrough := through
          sent := st.sent.retain fun sid => through ≤ sid
          enc := st.enc.map fun e => e.forgetBelow through } }
    else tx

def handleFeedback (m : Packet) : Sender × List Packet :=
  if m.length < 13 then (tx, [])
  else if leAt m 1 8 ≠ tx.cid then (tx, [])
  else
    let stream := leAt m 9 4
    let tag := leAt m 0 1
    if tag = tagStreamNak then (tx, tx.onNak stream (idsFrom m m.length 13))
    else if tag = tagStreamAck ∧ ackLen ≤ m.length then (tx.onAck stream (leAt m 13 4), [])
    else (tx, [])

/-- The slow resend of a finished stream's FIN until it is acked. -/
def resendFin (stream : Nat) : List Packet :=
  match tx.streams.get? stream with
  | none => []
  | some st =>
    match st.finInfo with
    | some (finalSid, finalLen) =>
      if st.fullyAcked then [] else [wireFin tx.cid stream finalSid finalLen]
    | none => []

end Sender

/-- One receiving stream. Gap timing is left to the caller of `missing`. -/
structure RecvStream where
  dec : Option RlcDecoder
  chunks : Table Nat (List Byte)
  deliveredThrough : Nat
  highestSeen : Nat
  finalInfo : Option (Nat × Nat)
  finDelivered : Bool

namespace RecvStream

def new (isProtected : Bool) (symbolLen : Nat) : RecvStream where
  dec := if isProtected then some ((RlcDecoder.new symbolLen).withHorizon 128) else none
  chunks := Table.empty
  deliveredThrough := 0
  highestSeen := 0
  finalInfo := none
  finDelivered := false

section
variable (st : RecvStream)

/-- `chunks.entry(sid).or_insert(sym)`, for ids not delivered yet. -/
def keep (sid : Nat) (sym : List Byte) : RecvStream :=
  if st.deliveredThrough ≤ sid ∧ st.chunks.contains sid = false then
    { st with chunks := st.chunks.insert sid sym }
  else st

def onStream (sid : Nat) (sym : List Byte) : RecvStream :=
  let st := { st with highestSeen := max st.highestSeen sid }.keep sid sym
  { st with dec := st.dec.map fun d => d.onSource sid sym }

def onRepair (r : RepairSymbol) : RecvStream :=
  { st with dec := st.dec.map fun d => d.addRepair r }

def onFin (finalSid finalLen : Nat) : RecvStream :=
  { st with
    finalInfo := some (finalSid, finalLen), highestSeen := max st.highestSeen finalSid }

def keepRecovered (d : RlcDecoder) (sid : Nat) : RecvStream :=
  match d.get sid with
  | some sym => st.keep sid sym
  | none => st

end

def recover (st : RecvStream) : RecvStream :=
  match st.dec with
  | none => st
  | some d =>
    let recovered := d.recover
    recovered.2.foldl (fun st sid => st.keepRecovered recovered.1 sid)
      { st with dec := some recovered.1 }

/-- The contiguous prefix that may go out, and whether the stream is complete.
The highest symbol is held while it could be the final one. -/
def deliverLoop : Nat → RecvStream → RecvStream × List Byte × Bool
  | 0, st => (st, [], false)
  | fuel + 1, st =>
    let s := st.deliveredThrough
    match st.finalInfo with
    | some (finalSid, finalLen) =>
      if s = finalSid then
        match st.chunks.get? s with
        | none => (st, [], false)
        | some sym =>
          ({ st with
              chunks := st.chunks.erase s, deliveredThrough := s + 1, finDelivered := true },
            sym.take (min finalLen sym.length), true)
      else if s < finalSid then
        match st.chunks.get? s with
        | none => (st, [], false)
        | some sym =>
          let rest := deliverLoop fuel
            { st with chunks := st.chunks.erase s, deliveredThrough := s + 1 }
          (rest.1, sym ++ rest.2.1, rest.2.2)
      else (st, [], false)
    | none =>
      if s < st.highestSeen then
        match st.chunks.get? s with
        | none => (st, [], false)
        | some sym =>
          let rest := deliverLoop fuel
            { st with chunks := st.chunks.erase s, deliveredThrough := s + 1 }
          (rest.1, sym ++ rest.2.1, rest.2.2)
      else (st, [], false)

/-- No id past `highestSeen` is delivered, which bounds the loop. -/
def deliver (st : RecvStream) : RecvStream × List Byte × Bool :=
  let out := deliverLoop (st.highestSeen + 2 - st.deliveredThrough) st
  ({ out.1 with dec := out.1.dec.map fun d => d.forgetBelow out.1.deliveredThrough }, out.2)

/-- The lowest missing ids whose grace has run out, at most sixteen. -/
def missing (st : RecvStream) (due : Nat → Bool) : List Nat :=
  (((List.range (st.highestSeen + 1)).filter fun sid =>
    st.deliveredThrough ≤ sid && !st.chunks.contains sid && due sid)).take 16

end RecvStream

structure Receiver where
  cid : Option Nat
  symbolLen : Nat
  streams : Table Nat RecvStream

namespace Receiver

variable (rx : Receiver)

def expectStream (stream : Nat) (isProtected : Bool) : Receiver :=
  if rx.streams.contains stream then rx
  else { rx with streams := rx.streams.insert stream (RecvStream.new isProtected rx.symbolLen) }

/-- A stream first seen on the wire is received as bulk. -/
def entry (stream : Nat) : RecvStream :=
  (rx.streams.get? stream).getD (RecvStream.new false rx.symbolLen)

def update (stream : Nat) (f : RecvStream → RecvStream) : Receiver :=
  { rx with streams := rx.streams.insert stream (f (rx.entry stream)) }

/-- The first datagram binds the connection id; other connections are ignored. -/
def ingest (pkt : Packet) : Receiver :=
  if pkt.length < 13 then rx
  else
    let cid := leAt pkt 1 8
    if rx.cid ≠ none ∧ rx.cid ≠ some cid then rx
    else
      let rx := { rx with cid := some cid }
      let stream := leAt pkt 9 4
      let tag := leAt pkt 0 1
      if tag = tagStream ∧ streamHdr + rx.symbolLen ≤ pkt.length then
        rx.update stream fun st =>
          st.onStream (leAt pkt 13 4) ((pkt.drop streamHdr).take rx.symbolLen)
      else if tag = tagStreamRepair ∧ repairHdr + rx.symbolLen ≤ pkt.length then
        rx.update stream fun st => st.onRepair {
          repairKey := leAt pkt 13 4
          firstSourceId := leAt pkt 17 4
          windowSize := leAt pkt 21 2
          dt := leAt pkt 23 1
          payload := (pkt.drop repairHdr).take rx.symbolLen }
      else if tag = tagStreamFin ∧ finLen ≤ pkt.length then
        rx.update stream fun st => st.onFin (leAt pkt 13 4) (leAt pkt 17 2)
      else rx

end Receiver

inductive Event
  | openStream (stream : Nat) (isProtected : Bool)
  | write (stream : Nat) (data : List Byte) (fin : Bool)
  | resendFin (stream : Nat)
  | feedback (n : Nat)
  | expectStream (stream : Nat) (isProtected : Bool)
  | ingest (n : Nat)
  | deliver (stream : Nat)
  | nak (stream : Nat) (due : Nat → Bool)
  | ack (stream : Nat)

/-- Both ends with everything each has sent, and for each stream what was
written, whether it was finished, and what came out. -/
structure Ends where
  tx : Sender
  rx : Receiver
  wire : List Packet
  back : List Packet
  written : Nat → List Byte
  finished : Nat → Bool
  delivered : Nat → List Byte
  finOut : Nat → Bool

namespace Ends

def init (cid symbolLen : Nat) : Ends where
  tx := ⟨cid, symbolLen, Table.empty⟩
  rx := ⟨none, symbolLen, Table.empty⟩
  wire := []
  back := []
  written := fun _ => []
  finished := fun _ => false
  delivered := fun _ => []
  finOut := fun _ => false

/-- A feedback frame goes out once the peer is known. -/
def reply (s : Ends) (stream : Nat) (body : Nat → RecvStream → List Packet) : Ends :=
  match s.rx.cid, s.rx.streams.get? stream with
  | some cid, some st => { s with back := s.back ++ body cid st }
  | _, _ => s

/-- `poll` on one stream: forward recovery, then in-order delivery. -/
def deliver (s : Ends) (stream : Nat) : Ends :=
  match s.rx.streams.get? stream with
  | none => s
  | some st =>
    let out := st.recover.deliver
    { s with
      rx := { s.rx with streams := s.rx.streams.insert stream out.1 }
      delivered := update s.delivered stream (s.delivered stream ++ out.2.1)
      finOut := update s.finOut stream (s.finOut stream || out.2.2) }

def step (s : Ends) : Event → Option Ends
  | .openStream stream isProtected => some { s with tx := s.tx.openStream stream isProtected }
  | .write stream data fin =>
    (s.tx.write stream data fin).map fun sent =>
      { s with
        tx := sent.1
        wire := s.wire ++ sent.2
        written := update s.written stream (s.written stream ++ data)
        finished := update s.finished stream (s.finished stream || fin) }
  | .resendFin stream => some { s with wire := s.wire ++ s.tx.resendFin stream }
  | .feedback n =>
    match s.back[n]? with
    | none => some s
    | some m =>
      let handled := s.tx.handleFeedback m
      some { s with tx := handled.1, wire := s.wire ++ handled.2 }
  | .expectStream stream isProtected => some { s with rx := s.rx.expectStream stream isProtected }
  | .ingest n =>
    match s.wire[n]? with
    | none => some s
    | some pkt => some { s with rx := s.rx.ingest pkt }
  | .deliver stream => some (s.deliver stream)
  | .nak stream due =>
    some (s.reply stream fun cid st =>
      if st.missing due = [] then [] else [wireNak cid stream (st.missing due)])
  | .ack stream => some (s.reply stream fun cid st => [wireAck cid stream st.deliveredThrough])

end Ends
end SubEtha.Mux
