import SubEtha.Rlc.Ends

namespace SubEtha.Rlc
open Lib

def pktFeedback : Nat := 14
def amplificationFactor : Nat := 3
def challengeTimeout : Nat := 500000

def saturatingAdd (a b : Nat) : Nat := min (a + b) (2 ^ 64 - 1)
def saturatingMul (a b : Nat) : Nat := min (a * b) (2 ^ 64 - 1)

/-- A challenge nonce: clock reading, sequence number and connection id through
splitmix64. -/
def challengeNonce (entropy seq cid : Nat) : Nat :=
  let x := BitVec.ofNat 64 entropy ^^^ (BitVec.ofNat 64 seq).rotateLeft 32 ^^^ BitVec.ofNat 64 cid
  let x := (x ^^^ (x >>> 30)) * BitVec.ofNat 64 0xbf58476d1ce4e5b9
  let x := (x ^^^ (x >>> 27)) * BitVec.ofNat 64 0x94d049bb133111eb
  (x ^^^ (x >>> 31)).toNat

/-- Where a session sends, and what it knows about that address. A pending
challenge is the address, its nonce and when it was armed; `crypto` is `secure_wrap` with
the TLS keys, where the session has them. -/
structure Path (Addr : Type) where
  peer : Option Addr
  peerValidated : Bool
  pendingChallenge : Option (Addr × Nat × Nat)
  prevPeer : Option Addr
  challengeSeq : Nat
  unvalRecvBytes : Nat
  unvalSentBytes : Nat
  crypto : Option (Packet → Packet)

namespace Path

variable {Addr : Type} [DecidableEq Addr] (p : Path Addr)

def new (peer : Option Addr) : Path Addr where
  peer := peer
  peerValidated := true
  pendingChallenge := none
  prevPeer := none
  challengeSeq := 0
  unvalRecvBytes := 0
  unvalSentBytes := 0
  crypto := none

def wire (inner : Packet) : Packet :=
  match p.crypto with
  | none => inner
  | some secureWrap => secureWrap inner

/-- A frame past the budget of an unvalidated peer is skipped; the budget counts the frame
before it is sealed. -/
def wireSendToPeer (inner : Packet) : Path Addr × List (Addr × Packet) :=
  match p.peer with
  | none => (p, [])
  | some peer =>
    if p.peerValidated then (p, [(peer, p.wire inner)])
    else if saturatingMul p.unvalRecvBytes amplificationFactor <
        saturatingAdd p.unvalSentBytes inner.length then (p, [])
    else
      ({ p with unvalSentBytes := saturatingAdd p.unvalSentBytes inner.length },
        [(peer, p.wire inner)])

def sendAll (p : Path Addr) : List Packet → Path Addr × List (Addr × Packet)
  | [] => (p, [])
  | inner :: rest =>
    let out := p.wireSendToPeer inner
    let outs := sendAll out.1 rest
    (outs.1, out.2 ++ outs.2)

def beginPathValidation (cid : Nat) (addr : Addr) (now entropy : Nat) : Path Addr :=
  let seq := (p.challengeSeq + 1) % 2 ^ 64
  { p with
    peerValidated := false
    unvalRecvBytes := 0
    unvalSentBytes := 0
    challengeSeq := seq
    pendingChallenge := some (addr, challengeNonce entropy seq cid, now) }

/-- The first frame binds the address; one from elsewhere moves it. -/
def follow (cid : Nat) (src : Addr) (now entropy : Nat) : Path Addr :=
  match p.peer with
  | none => { p with peer := some src }
  | some peer =>
    if peer ≠ src then
      { p with prevPeer := p.peer, peer := some src }.beginPathValidation cid src now entropy
    else p

def credit (src : Addr) (len : Nat) : Path Addr :=
  if p.peerValidated = false ∧ p.peer = some src then
    { p with unvalRecvBytes := saturatingAdd p.unvalRecvBytes len }
  else p

def maybeSendChallenge (cid : Nat) : Path Addr × List (Addr × Packet) :=
  match p.pendingChallenge with
  | none => (p, [])
  | some (addr, nonce, _) =>
    if p.peer ≠ some addr then (p, [])
    else p.wireSendToPeer (pathFrame pktPathChallenge cid nonce)

def answers (cid : Nat) (inner : Packet) (src : Addr) : Bool :=
  match p.pendingChallenge with
  | none => false
  | some (addr, nonce, _) =>
    pathFrameLen ≤ inner.length && leAt inner 1 8 = cid && addr = src && nonce = leAt inner 9 8

def handlePathResponse (cid : Nat) (inner : Packet) (src : Addr) : Path Addr :=
  if p.answers cid inner src then
    { p with peerValidated := true, pendingChallenge := none, prevPeer := none }
  else p

def expired (now : Nat) : Bool :=
  match p.pendingChallenge with
  | none => false
  | some (_, _, sent) => challengeTimeout < now - sent

/-- An unanswered move is taken back. -/
def expireStaleChallenge (now : Nat) : Path Addr :=
  if p.expired now then
    { p with
      peer := p.prevPeer.or p.peer
      pendingChallenge := none
      prevPeer := none
      peerValidated := true }
  else p

end Path

structure Assessment where
  lossQ8 : Nat
  burstQ8 : Nat
  congQ8 : Nat
  rateMbit : Nat
  capMbit : Nat

def feedbackFrame (a : Assessment) : Packet :=
  [byte pktFeedback, byte a.lossQ8, byte a.burstQ8, byte a.congQ8] ++
    (leBytes 2 a.rateMbit ++ leBytes 2 a.capMbit)

structure RlcSession (Addr : Type) where
  cid : Nat
  window : Window
  path : Path Addr
  lastFeedback : Nat

namespace RlcSession

variable {Addr : Type} [DecidableEq Addr]

def new (cid symbolLen : Nat) (peer : Option Addr) (now : Nat) : RlcSession Addr where
  cid := cid
  window := Window.new symbolLen now
  path := Path.new peer
  lastFeedback := now

def withCrypto (s : RlcSession Addr) (crypto : Option (Packet → Packet)) : RlcSession Addr :=
  { s with path := { s.path with crypto := crypto } }

/-- A frame with another id, or with none, neither binds nor moves the address. -/
def routeAndProcess (s : RlcSession Addr) (inner : Packet) (src : Addr)
    (arrivalUs now entropy : Nat) : RlcSession Addr × Bool :=
  if inner ≠ [] ∧ frameType inner = pktPathResponse then
    ({ s with path := s.path.handlePathResponse s.cid inner src }, true)
  else if frameConnId inner = some s.cid then
    ({ s with
      path := (s.path.follow s.cid src now entropy).credit src inner.length
      window := s.window.process inner arrivalUs }, true)
  else (s, false)

def maybeFeedback (s : RlcSession Addr) (now : Nat) (a : Assessment) :
    RlcSession Addr × List (Addr × Packet) :=
  if now < s.lastFeedback + 10000 ∨ s.path.peer = none then (s, [])
  else
    let out := s.path.wireSendToPeer (feedbackFrame a)
    ({ s with path := out.1, lastFeedback := now }, out.2)

/-- Recover and deliver, retire a stale challenge, then challenge, answer and
report; the items delivered and the datagrams sent. -/
def service (s : RlcSession Addr) (now grace : Nat) (a : Assessment) :
    RlcSession Addr × List (List Byte) × List (Addr × Packet) :=
  let out := s.window.advance now grace
  let path := s.path.expireStaleChallenge now
  let challenge := path.maybeSendChallenge s.cid
  let answer := out.1.respond out.2.2 challenge.1.peer.isSome now grace
  let sent := challenge.1.sendAll answer.2
  let report := { s with window := answer.1, path := sent.1 }.maybeFeedback now a
  (report.1, out.2.1, challenge.2 ++ (sent.2 ++ report.2))

section
variable (p : Path Addr)

omit [DecidableEq Addr] in
@[simp]
theorem wireSendToPeer_peer (inner : Packet) : (p.wireSendToPeer inner).1.peer = p.peer := by
  unfold Path.wireSendToPeer
  split
  · rfl
  split
  · rfl
  · split <;> rfl

@[simp]
theorem sendAll_peer (pkts : List Packet) : (p.sendAll pkts).1.peer = p.peer := by
  induction pkts generalizing p with
  | nil => rfl
  | cons inner rest ih => exact (ih _).trans (wireSendToPeer_peer p inner)

@[simp]
theorem maybeSendChallenge_peer (cid : Nat) : (p.maybeSendChallenge cid).1.peer = p.peer := by
  unfold Path.maybeSendChallenge
  split
  · rfl
  split
  · rfl
  · exact wireSendToPeer_peer ..

end

@[simp]
theorem maybeFeedback_peer (s : RlcSession Addr) (now : Nat) (a : Assessment) :
    (s.maybeFeedback now a).1.path.peer = s.path.peer := by
  unfold maybeFeedback
  split
  · rfl
  · exact wireSendToPeer_peer ..

end RlcSession

def admissionResendInterval : Nat := 50000

/-- A connection id asking to be admitted: the address to validate, the nonce
it must echo, when that was armed and when it was last sent. -/
structure PendingAdmission (Addr : Type) where
  cid : Nat
  addr : Addr
  nonce : Nat
  armedAt : Nat
  lastSent : Option Nat

/-- The sessions on one socket, by connection id; `order` holds their ids as
they were opened, so its length is their number. -/
structure RlcReceiver (Addr : Type) where
  symbolLen : Nat
  sessionCeiling : Option Nat
  sessions : Table Nat (RlcSession Addr)
  order : List Nat
  pendingAdmissions : List (PendingAdmission Addr)
  challengeSeq : Nat

namespace RlcReceiver

variable {Addr : Type} [DecidableEq Addr] (r : RlcReceiver Addr)

def new (symbolLen : Nat) (sessionCeiling : Option Nat) : RlcReceiver Addr where
  symbolLen := symbolLen
  sessionCeiling := sessionCeiling.map fun max => Nat.max max 1
  sessions := Table.empty
  order := []
  pendingAdmissions := []
  challengeSeq := 0

def pending? (cid : Nat) : Option (PendingAdmission Addr) :=
  r.pendingAdmissions.find? fun p => p.cid = cid

def full (n : Nat) : Bool :=
  r.sessionCeiling.any fun max => max ≤ n

def openSession (cid now : Nat) : RlcReceiver Addr :=
  if r.sessions.contains cid || r.full r.order.length then r
  else
    { r with
      sessions := r.sessions.insert cid (RlcSession.new cid r.symbolLen none now)
      order := r.order ++ [cid] }

def beginAdmission (cid : Nat) (addr : Addr) (now entropy : Nat) : RlcReceiver Addr :=
  if r.full r.pendingAdmissions.length then r
  else if (r.pending? cid).any fun p => p.addr = addr then r
  else
    let seq := (r.challengeSeq + 1) % 2 ^ 64
    { r with
      challengeSeq := seq
      pendingAdmissions := r.pendingAdmissions.filter (fun p => p.cid ≠ cid) ++
        [⟨cid, addr, challengeNonce entropy seq cid, now, none⟩] }

def PendingAdmission.isDue (p : PendingAdmission Addr) (now : Nat) : Bool :=
  p.lastSent.all fun t => admissionResendInterval ≤ now - t

def sendAdmissionChallenges (now : Nat) : RlcReceiver Addr × List (Addr × Packet) :=
  ({ r with pendingAdmissions := r.pendingAdmissions.map fun p =>
      if PendingAdmission.isDue p now then { p with lastSent := some now } else p },
    (r.pendingAdmissions.filter fun p => PendingAdmission.isDue p now).map fun p =>
      (p.addr, pathFrame pktPathChallenge p.cid p.nonce))

def expireStaleAdmissions (now : Nat) : RlcReceiver Addr :=
  { r with pendingAdmissions :=
      r.pendingAdmissions.filter fun p => now - p.armedAt < challengeTimeout }

def update (cid : Nat) (f : RlcSession Addr → RlcSession Addr) : RlcReceiver Addr :=
  match r.sessions.get? cid with
  | some s => { r with sessions := r.sessions.insert cid (f s) }
  | none => r

/-- Admit the candidate whose nonce came back from where it was sent. The
challenge is spent even if the ceiling refuses the session. -/
def tryAdmit (inner : Packet) (src : Addr) (now : Nat) : RlcReceiver Addr × Bool :=
  match pathResponseConnId inner with
  | none => (r, false)
  | some cid =>
    match r.pending? cid with
    | none => (r, false)
    | some p =>
      if p.addr ≠ src ∨ p.nonce ≠ leAt inner 9 8 then (r, false)
      else
        let r := { r with
          pendingAdmissions := r.pendingAdmissions.filter fun p => p.cid ≠ cid }
        let r := r.openSession cid now
        (r.update cid fun s => { s with path := { s.path with peer := some src } },
          r.sessions.contains cid)

/-- The open session a datagram is for: by the id of a DATA or REPAIR, or by
that of an answer to an open session. -/
def owner? (inner : Packet) : Option Nat :=
  match frameConnId inner with
  | some cid => some cid
  | none => (pathResponseConnId inner).filter fun cid => r.sessions.contains cid

/-- The first id is admitted outright, every other one is challenged. -/
def routeDatagram (inner : Packet) (src : Addr)
    (arrivalUs now entropy : Nat) : RlcReceiver Addr × Bool :=
  let admitted := r.tryAdmit inner src now
  if admitted.2 then admitted
  else
    let r := admitted.1
    match r.owner? inner with
    | none => (r, false)
    | some cid =>
      if r.sessions.contains cid = false ∧ r.order ≠ [] then
        (r.beginAdmission cid src now entropy, false)
      else
        let r := r.openSession cid now
        match r.sessions.get? cid with
        | none => (r, false)
        | some s =>
          let out := s.routeAndProcess inner src arrivalUs now entropy
          ({ r with sessions := r.sessions.insert cid out.1 }, out.2)

/-- The part of a poll after the socket is drained, with each session's grace
and assessment: every session is serviced in the order it was opened. -/
def serviceAll (now : Nat) (grace : Nat → Nat) (assess : Nat → Assessment) : RlcReceiver Addr :=
  ((r.expireStaleAdmissions now).sendAdmissionChallenges now).1.order.foldl
    (fun r cid => r.update cid fun s => (s.service now (grace cid) (assess cid)).1)
    ((r.expireStaleAdmissions now).sendAdmissionChallenges now).1

def skipTo (r : RlcReceiver Addr) (base : Nat) : RlcReceiver Addr :=
  r.order.foldl (fun r cid => r.update cid fun s => { s with window := s.window.skipTo base }) r

end RlcReceiver
end SubEtha.Rlc
