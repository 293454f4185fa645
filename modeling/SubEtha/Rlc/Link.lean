import SubEtha.Rlc.Receiving
import SubEtha.Lib.Runs

namespace SubEtha.Rlc
open Lib

section
open List RlcSender

variable {sid : Nat} {sym : List Byte} {pkt : Packet}

section
variable {w : Window}

theorem process_dataFrame (hsid : sid < 2 ^ 32) (sendUs : Nat) (hlen : sym.length = w.symbolLen)
    (arrivalUs : Nat) : w.process (dataFrame cid sid sendUs sym) arrivalUs =
      w.onData sid (sendUs % 2 ^ 32) sym arrivalUs := by
  have hsym : (dataFrame cid sid sendUs sym).drop dataHdr = sym := by
    rw [dataFrame, show dataHdr = 9 + 8 from rfl, connFrame_drop, ← append_assoc]
    exact drop_left' (by simp)
  have hle : dataHdr + w.symbolLen ≤ (dataFrame cid sid sendUs sym).length := by
    rw [dataFrame, connFrame_length]
    simp only [length_append, leBytes_length, dataHdr, hlen]
    omega
  unfold Window.process
  rw [if_pos ⟨by rw [dataFrame, connFrame_type]; rfl, hle⟩, hsym, dataFrame,
    connFrame_body (by decide), leAt_here, connFrame_body (by decide), leAt_skip (by decide),
    leAt_here, Nat.mod_eq_of_lt (show sid < 256 ^ 4 from hsid), ← hlen, take_length]
  rfl

theorem process_repairFrame (hlen : r.payload.length = w.symbolLen) (arrivalUs : Nat) :
    w.process (repairFrame cid r) arrivalUs = w.onRepair (readRepair r) := by
  unfold Window.process
  rw [if_neg (by rw [repairFrame, connFrame_type]; simp [pktRepair, pktData]), if_pos ⟨by
    rw [repairFrame, connFrame_type]
    rfl, by rw [repairFrame, connFrame_length, repairBytes_length]; omega⟩, readRepair_eq,
    repairFrame, connFrame_body (by decide), connFrame_body (by decide),
    connFrame_body (by decide), connFrame_body (by decide), show 20 = 9 + 11 from rfl,
    connFrame_drop, repairBytes_payload]

theorem process_other (hdata : frameType pkt ≠ pktData) (hrepair : frameType pkt ≠ pktRepair)
    (arrivalUs : Nat) : w.process pkt arrivalUs = w := by
  unfold Window.process
  rw [if_neg (fun h => hdata h.1), if_neg (fun h => hrepair h.1)]

end

inductive WireOk {len : Nat} (cid : Nat) (a : Assignment len) : Packet → Prop
  | data {sid : Nat} {sym : List Byte} (sendUs : Nat) (hsid : sid < 2 ^ 32)
      (h : a.symbols.get? sid = some sym) : WireOk cid a (dataFrame cid sid sendUs sym)
  | repair {r : RepairSymbol} (h : RepairOk a r) : WireOk cid a (repairFrame cid r)
  | other {pkt : Packet} (hdata : frameType pkt ≠ pktData) (hrepair : frameType pkt ≠ pktRepair) :
      WireOk cid a pkt

theorem WireOk.mono (h : WireOk cid a pkt) (ha : a.Extends a') : WireOk cid a' pkt := by
  cases h with
  | data sendUs hsid h => exact .data sendUs hsid (ha _ _ h)
  | repair h => exact .repair (h.mono ha)
  | other hdata hrepair => exact .other hdata hrepair

structure Emits {symbolLen : Nat} (s : Stream symbolLen) (tx : RlcSender) : Prop where
  len_eq : tx.symbolLen = symbolLen
  enc : EncodesOk s.assignment tx.enc
  next_eq : tx.enc.nextSourceId = s.next
  sent : ∀ sid sym, tx.sent.get? sid = some sym → s.symbol? sid = some sym

variable {symbolLen : Nat} {s : Stream symbolLen} {tx : RlcSender}

theorem sendable_of_data (hlen : sym.length = symbolLen)
    (h : (dataFrame cid sid sendUs sym).length ≤ maxDatagram) : Stream.Sendable symbolLen := by
  rw [dataFrame, connFrame_length] at h
  simp only [length_append, leBytes_length, hlen] at h
  simp only [Stream.Sendable, dataHdr]
  omega

theorem mem_onSocket (h : m ∈ onSocket pkt) : m = pkt ∧ pkt.length ≤ maxDatagram := by
  unfold onSocket at h
  split at h
  · exact ⟨mem_singleton.mp h, by assumption⟩
  · cases h

theorem Emits.data_frame (h : Emits s tx) (hsym : tx.sent.get? sid = some sym) (now : Nat)
    (hm : m ∈ onSocket (tx.sendData now sid sym)) : WireOk tx.connId s.heard m := by
  obtain ⟨rfl, hle⟩ := mem_onSocket hm
  have hget := h.sent sid sym hsym
  have hlen : sym.length = symbolLen := s.assignment.len_eq sid sym hget
  refine .data now ?_ ?_
  · have := Stream.lt_next hget
    have := h.enc.next_lt
    have := h.next_eq
    omega
  · rw [Stream.heard_eq (sendable_of_data hlen hle)]
    exact hget

/-- What one operation of the sender keeps, with the frames it puts out. -/
structure Emitted {symbolLen : Nat} (s : Stream symbolLen) (tx : RlcSender)
    (out : RlcSender × List Packet) : Prop where
  emits : Emits s out.1
  connId : out.1.connId = tx.connId
  frames : ∀ pkt ∈ out.2, WireOk tx.connId s.heard pkt

theorem Emitted.resend (h : Emitted s tx out) (now sid : Nat) :
    Emitted s tx (resend now out sid) := by
  unfold RlcSender.resend
  split
  · rename_i sym hsym
    unfold retransmitIfDue
    split
    · refine ⟨⟨h.emits.len_eq, h.emits.enc, h.emits.next_eq, h.emits.sent⟩, h.connId,
        fun m hm => ?_⟩
      rcases mem_append.mp hm with hm | hm
      · exact h.frames m hm
      · rw [← h.connId]
        exact h.emits.data_frame hsym now hm
    · show Emitted s tx (out.1, out.2 ++ [])
      rw [append_nil]
      exact h
  · exact h

variable (h : Emits s tx)
include h

theorem Emits.resendAll (now : Nat) (sids : List Nat) : Emitted s tx (tx.resendAll now sids) := by
  have hfold : ∀ out, Emitted s tx out → Emitted s tx (sids.foldl (resend now) out) := by
    induction sids with
    | nil => exact fun _ hout => hout
    | cons sid sids ih => exact fun out hout => ih _ (hout.resend now sid)
  exact hfold _ ⟨h, rfl, nofun⟩

theorem Emits.onAck (now through : Nat) (sack : Option Nat) :
    Emits s (tx.onAck now through sack) ∧ (tx.onAck now through sack).connId = tx.connId := by
  have hsample : Emits s (tx.sampleRtt now through) ∧
      (tx.sampleRtt now through).connId = tx.connId := by
    unfold sampleRtt
    split
    · split
      · exact ⟨{ h with }, rfl⟩
      · exact ⟨h, rfl⟩
    · exact ⟨h, rfl⟩
  have hadvance : Emits s ((tx.sampleRtt now through).advanceAck through) ∧
      ((tx.sampleRtt now through).advanceAck through).connId = tx.connId := by
    obtain ⟨hs, hcid⟩ := hsample
    unfold advanceAck
    split
    · exact ⟨⟨hs.len_eq, enc_forgetBelow_ok hs.enc through, hs.next_eq,
        fun sid sym hsym => hs.sent sid sym (Table.get?_retain_some hsym).2⟩, hcid⟩
    · exact ⟨hs, hcid⟩
  obtain ⟨hs, hcid⟩ := hadvance
  cases sack with
  | none => exact ⟨hs, hcid⟩
  | some mask =>
    exact ⟨{ hs with sent := fun sid sym hsym => hs.sent sid sym (Table.get?_retain_some hsym).2 }, hcid⟩

/-- Whatever comes back, the sender keeps to its stream. -/
theorem Emits.handlePumpFrame (now : Nat) (m : Packet) :
    Emitted s tx (tx.handlePumpFrame now m) := by
  unfold RlcSender.handlePumpFrame
  split
  · exact h.resendAll now _
  split
  · exact ⟨(h.onAck ..).1, (h.onAck ..).2, by simp⟩
  split
  · refine ⟨h, rfl, fun pkt hpkt => ?_⟩
    rw [mem_singleton.mp hpkt]
    exact .other (by simp [frameType, leAt, leValue, pktPathResponse, pktData])
      (by simp [frameType, leAt, leValue, pktPathResponse, pktRepair])
  · exact ⟨h, rfl, by simp⟩

theorem Emits.retune (hmax : windowMax < 2 ^ 16) (step dt : Nat) (coding : Bool) :
    Emits s (tx.retune windowMax step dt coding) :=
  { h with enc := setCoding_ok (setParams_ok h.enc hmax) coding }

theorem Emits.push (hfits : item.length + lenPrefix ≤ symbolLen)
    (hnext : tx.enc.nextSourceId + 1 < 2 ^ 32) (probe : Option (Nat × Nat))
    (lastTx : Table Nat Nat) : Emits (s.push item hfits) { tx with
      enc := (tx.enc.pushSource (packSymbol item symbolLen)).1
      sent := tx.sent.insert tx.enc.nextSourceId (packSymbol item symbolLen)
      probe := probe
      lastTx := lastTx } where
  len_eq := h.len_eq
  enc := by
    have hpush := (pushSource_ok h.enc (packSymbol_length hfits) hnext).1
    rw [h.next_eq, ← Stream.assignment_push] at hpush
    exact hpush
  next_eq := by
    rw [pushSource_next, Stream.next_push, ← h.next_eq]
    exact Nat.mod_eq_of_lt hnext
  sent := by
    intro sid sym hsym
    rw [Stream.symbol?_push, ← h.next_eq]
    rcases Table.get?_insert_some hsym with ⟨hid, rfl⟩ | ⟨hid, hsym⟩
    · rw [if_pos hid]
    · rw [if_neg hid]
      exact h.sent sid sym hsym

/-- A send that is taken holds the packed item under the next id. -/
theorem Emits.sendItemNow (hout : tx.sendItemNow now item = .ok out)
    (hnext : tx.enc.nextSourceId + 1 < 2 ^ 32) :
    ∃ hfits : item.length + lenPrefix ≤ symbolLen, Emitted (s.push item hfits) tx out ∧
      out.1.sent = tx.sent.insert s.next (packSymbol item symbolLen) := by
  obtain rfl := h.len_eq
  unfold sendItemNow at hout
  dsimp only at hout
  split at hout
  · cases hout
  rename_i hroom
  have hfits : item.length + lenPrefix ≤ tx.symbolLen := le_of_not_gt hroom
  have hsym := packSymbol_length hfits
  obtain ⟨-, hsid, hrepair⟩ := pushSource_ok h.enc hsym hnext
  rw [hsid] at hout
  rw [h.next_eq, ← Stream.assignment_push (h := hfits)] at hrepair
  refine ⟨hfits, ?_⟩
  rw [← h.next_eq]
  split at hout
  · rename_i hsocket
    cases hout
    have hsend := sendable_of_data hsym hsocket
    refine ⟨⟨h.push hfits hnext _ _, rfl, fun pkt hpkt => ?_⟩, rfl⟩
    rw [Stream.heard_eq hsend]
    rcases mem_cons.mp hpkt with rfl | hpkt
    · refine .data now (by omega) ?_
      rw [Stream.get?_assignment, Stream.symbol?_push, if_pos h.next_eq]
    obtain ⟨r, hr, hpkt⟩ := mem_flatMap.mp hpkt
    rw [(mem_onSocket hpkt).1]
    exact .repair (hrepair r (Option.mem_toList.mp hr))
  · cases hout
    exact ⟨⟨h.push hfits hnext _ _, rfl, by simp⟩, rfl⟩

end

inductive LinkEvent
  | send (now : Nat) (item : List Byte)
  | pump (n now : Nat)
  | rto (now : Nat)
  | retune (windowMax step dt : Nat) (coding : Bool)
  | deliver (n arrivalUs : Nat)
  | service (hasPeer : Bool) (now grace : Nat)

/-- A sender and one receiver session with everything each has sent and heard. -/
structure Link where
  tx : RlcSender
  rx : Window
  wire : List Packet
  back : List Packet
  arrived : List Packet
  items : List (List Byte)
  delivered : List (List Byte)

variable {e : LinkEvent}

namespace Link

def init (tx : RlcSender) (rx : Window) : Link := ⟨tx, rx, [], [], [], [], []⟩

def step (s : Link) : LinkEvent → Option Link
  | .send now item =>
    match s.tx.sendItemNow now item with
    | .ok out =>
      some { s with tx := out.1, wire := s.wire ++ out.2, items := s.items ++ [item] }
    | .error _ => some s
  | .pump n now =>
    match s.back[n]? with
    | none => some s
    | some m =>
      let out := s.tx.handlePumpFrame now (m.take ctrlBuf)
      some { s with tx := out.1, wire := s.wire ++ out.2 }
  | .rto now =>
    let out := s.tx.retransmitUnacked now
    some { s with tx := out.1, wire := s.wire ++ out.2 }
  | .retune windowMax step dt coding =>
    some { s with tx := s.tx.retune windowMax step dt coding }
  | .deliver n arrivalUs =>
    match s.wire[n]? with
    | none => some s
    | some pkt =>
      some { s with rx := s.rx.process pkt arrivalUs, arrived := s.arrived ++ [pkt] }
  | .service hasPeer now grace =>
    let out := s.rx.service hasPeer now grace
    some { s with rx := out.1, delivered := s.delivered ++ out.2.1, back := s.back ++ out.2.2 }

/-- Fewer than 2^32 ids, and retuned windows are `u16`. -/
def Sized (s : Link) : LinkEvent → Prop
  | .send _ _ => s.tx.enc.nextSourceId + 1 < 2 ^ 32
  | .retune windowMax _ _ _ => windowMax < 2 ^ 16
  | .service .. | .pump .. | .rto _ | .deliver .. => True

instance Sized.decidable (s : Link) : DecidablePred s.Sized := fun e => by
  cases e <;> unfold Sized <;> infer_instance

/-- Fewer than 2^32 ids, retuned windows are `u16`, and the start settles where
the frontier stands. -/
def Allowed (s : Link) : LinkEvent → Prop
  | .send _ _ => s.tx.enc.nextSourceId + 1 < 2 ^ 32
  | .retune windowMax _ _ _ => windowMax < 2 ^ 16
  | .service _ now grace => (s.rx.settled now grace).1.deliveredThrough = s.rx.deliveredThrough
  | .pump _ _ | .rto _ | .deliver _ _ => True

instance Allowed.decidable (s : Link) : DecidablePred s.Allowed := fun e => by
  cases e <;> unfold Allowed <;> infer_instance

theorem Allowed.sized {s : Link} (h : s.Allowed e) : s.Sized e := by
  cases e with
  | send | retune => exact h
  | service | pump | rto | deliver => trivial

end Link

/-- The sender keeps to its stream, and so does all that is on the wire. -/
structure LinkSends {symbolLen : Nat} (stream : Stream symbolLen) (s : Link) : Prop where
  items_eq : s.items = stream.items
  emits : Emits stream s.tx
  wire : ∀ pkt ∈ s.wire, WireOk s.tx.connId stream.heard pkt

structure LinkOk {symbolLen : Nat} (stream : Stream symbolLen) (s : Link) : Prop
    extends LinkSends stream s where
  recv : Holds stream s.delivered s.rx

section
variable {symbolLen : Nat}

theorem LinkSends.next_lt (h : LinkSends stream s) : stream.next < 2 ^ 32 :=
  h.emits.next_eq ▸ h.emits.enc.next_lt

theorem LinkSends.emitted (h : LinkSends stream s) (hout : Emitted stream' s.tx out)
    (hgrows : stream.Grows stream') (hitems : items = stream'.items) :
    LinkSends stream' { s with tx := out.1, wire := s.wire ++ out.2, items := items } := by
  refine ⟨hitems, hout.emits, fun pkt hpkt => ?_⟩
  rw [show _ = s.tx.connId from hout.connId]
  rcases List.mem_append.mp hpkt with hpkt | hpkt
  · exact (h.wire pkt hpkt).mono hgrows.heard
  · exact hout.frames pkt hpkt

/-- Nothing the receiver or the network does takes the sender off its stream. -/
theorem LinkSends.step (h : LinkSends stream s) (hok : s.Sized e) (hstep : s.step e = some s') :
    ∃ stream' : Stream symbolLen, stream.Grows stream' ∧ LinkSends stream' s' := by
  cases e with
  | send now item =>
    rw [Link.step] at hstep
    split at hstep
    · rename_i out hout
      cases hstep
      obtain ⟨hfits, hemitted, -⟩ := h.emits.sendItemNow hout hok
      exact ⟨stream.push item hfits, .push stream hfits,
        h.emitted hemitted (.push stream hfits) (congrArg (· ++ [item]) h.items_eq)⟩
    · cases hstep
      exact ⟨stream, .refl stream, h⟩
  | pump n now =>
    rw [Link.step] at hstep
    split at hstep
    · cases hstep
      exact ⟨stream, .refl stream, h⟩
    cases hstep
    exact ⟨stream, .refl stream,
      h.emitted (h.emits.handlePumpFrame now _) (.refl stream) h.items_eq⟩
  | rto now =>
    cases hstep
    exact ⟨stream, .refl stream, h.emitted (h.emits.resendAll now _) (.refl stream) h.items_eq⟩
  | retune windowMax step dt coding =>
    cases hstep
    exact ⟨stream, .refl stream, h.items_eq, h.emits.retune hok step dt coding, h.wire⟩
  | deliver n arrivalUs =>
    rw [Link.step] at hstep
    split at hstep <;> cases hstep
    · exact ⟨stream, .refl stream, h⟩
    · exact ⟨stream, .refl stream, h.items_eq, h.emits, h.wire⟩
  | service hasPeer now grace =>
    cases hstep
    exact ⟨stream, .refl stream, h.items_eq, h.emits, h.wire⟩

theorem Holds.process (h : Holds stream delivered w) (hpkt : WireOk cid stream.heard pkt)
    (arrivalUs : Nat) : Holds stream delivered (w.process pkt arrivalUs) := by
  cases hpkt with
  | data sendUs hsid hsym =>
    have hlen := stream.heard.len_eq _ _ hsym
    rw [process_dataFrame hsid sendUs (hlen.trans h.len_eq.symm)]
    exact h.onData hsym _ arrivalUs
  | repair hr =>
    rw [process_repairFrame (hr.payload_length.trans h.len_eq.symm)]
    exact h.onRepair (readRepair_ok hr)
  | other hdata hrepair =>
    rw [process_other hdata hrepair]
    exact h

theorem Holds.service (h : Holds stream delivered w) (hnext : stream.next < 2 ^ 32)
    (hstill : (w.settled now grace).1.deliveredThrough = w.deliveredThrough) (hasPeer : Bool) :
    Holds stream (delivered ++ (w.service hasPeer now grace).2.1)
        (w.service hasPeer now grace).1 ∧ Keeps w (w.service hasPeer now grace).1 := by
  obtain ⟨hout, hkeeps⟩ := h.advance hnext hstill
  obtain ⟨hdec, hthrough, hstart, hlen⟩ := respond_eq (w.advance now grace).1
    (w.advance now grace).2.2 hasPeer now grace
  refine ⟨?_, hkeeps.trans (.of_eq hdec hthrough)⟩
  exact {
    len_eq := hlen.trans hout.len_eq
    dec := by
      rw [show (w.service hasPeer now grace).1.dec = _ from hdec]
      exact hout.dec
    first_le := hthrough.symm ▸ hout.first_le
    through_le := hthrough.symm ▸ hout.through_le
    delivered_eq := by
      rw [show (w.service hasPeer now grace).1.deliveredThrough = _ from hthrough]
      exact hout.delivered_eq
    probing := fun hne => hthrough.trans (hout.probing fun hnone => hne (hstart.mpr hnone)) }

theorem LinkOk.step {s' : Link} (h : LinkOk stream s) (hok : s.Allowed e)
    (hstep : s.step e = some s') :
    ∃ stream' : Stream symbolLen, stream.Grows stream' ∧ LinkOk stream' s' ∧ Keeps s.rx s'.rx := by
  obtain ⟨stream', hgrows, hsends⟩ := h.toLinkSends.step hok.sized hstep
  have hrecv := h.recv.mono hgrows
  refine ⟨stream', hgrows, ?_⟩
  cases e with
  | send | pump =>
    rw [Link.step] at hstep
    split at hstep <;> cases hstep <;> exact ⟨⟨hsends, hrecv⟩, .refl _⟩
  | rto | retune =>
    cases hstep
    exact ⟨⟨hsends, hrecv⟩, .refl _⟩
  | deliver n arrivalUs =>
    rw [Link.step] at hstep
    split at hstep
    · cases hstep
      exact ⟨⟨hsends, hrecv⟩, .refl _⟩
    rename_i pkt hpkt
    cases hstep
    exact ⟨⟨hsends, hrecv.process (hsends.wire pkt (List.mem_of_getElem? hpkt)) arrivalUs⟩,
      keeps_process ..⟩
  | service hasPeer now grace =>
    cases hstep
    obtain ⟨hholds, hkeeps⟩ := hrecv.service hsends.next_lt hok hasPeer
    exact ⟨⟨hsends, hholds⟩, hkeeps⟩

end

/-- A sender whose first id is `first`. -/
def freshSender (connId windowMax step dt symbolLen first : Nat) : RlcSender :=
  (RlcSender.new connId windowMax step dt symbolLen).skipTo first

def Stream.nothing (symbolLen first : Nat) : Stream symbolLen := ⟨first, [], by simp⟩

theorem linkSends_init (rx : Window) (hmax : windowMax < 2 ^ 16) (hfirst : first < 2 ^ 32) :
    LinkSends (.nothing symbolLen first)
      (Link.init (freshSender connId windowMax step dt symbolLen first) rx) := by
  have hnone : ∀ id, (Stream.nothing symbolLen first).symbol? id = none := fun id => by
    simp [Stream.symbol?, Stream.nothing]
  have hnew : EncodesOk (Stream.nothing symbolLen first).assignment
      (RlcEncoder.new windowMax step dt symbolLen) := encodesOk_new hmax hnone
  refine ⟨rfl, ⟨rfl, enc_rebaseTo_ok hnew (Nat.zero_le _) hfirst, rfl, ?_⟩, ?_⟩
  · exact fun _ _ h => by cases h
  · exact fun _ h => by cases h

end SubEtha.Rlc
