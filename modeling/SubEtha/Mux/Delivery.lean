import SubEtha.Mux.Sending
import SubEtha.Mux.Receiving

namespace SubEtha.Mux
open List Option Content Lib Rlc Function Ends

inductive BackOk (cid : Nat) (rx : Receiver) : Packet → Prop
  | nak {stream : Nat} (hstream : stream < 2 ^ 32) (missing : List Nat) :
      BackOk cid rx (wireNak cid stream missing)
  | ack {stream through : Nat} (hstream : stream < 2 ^ 32)
      (h : through ≤ (rx.entry stream).deliveredThrough) : BackOk cid rx (wireAck cid stream through)

theorem BackOk.mono {rx rx' : Receiver} (h : BackOk cid rx m)
    (hle : ∀ stream, (rx.entry stream).deliveredThrough ≤ (rx'.entry stream).deliveredThrough) :
    BackOk cid rx' m := by
  cases h with
  | nak hstream missing => exact .nak hstream missing
  | ack hstream h => exact .ack hstream (le_trans h (hle _))

structure MuxOk {len : Nat} (cid : Nat) (C : Nat → Content len) (s : Ends) : Prop where
  cid_eq : s.tx.cid = cid
  tx_len : s.tx.symbolLen = len
  rx_len : s.rx.symbolLen = len
  binds : Binds s.rx cid
  send : ∀ stream, SendOk (C stream) (s.written stream) (s.finished stream) (s.tx.entry stream)
  pending : ∀ stream, (s.tx.entry stream).pending.length < max len 1
  recv : ∀ stream, RecvOk (C stream) (s.delivered stream) (s.finOut stream) (s.rx.entry stream)
  acked : ∀ stream, (s.tx.entry stream).ackedThrough ≤ (s.rx.entry stream).deliveredThrough
  wire : ∀ pkt ∈ s.wire, FrameOk cid C pkt
  back : ∀ m ∈ s.back, BackOk cid s.rx m

def Content.empty (len : Nat) : Content len where
  full := []
  tail := none
  full_len := by simp
  tail_lt := by simp

theorem muxOk_init (cid symbolLen : Nat) :
    MuxOk cid (fun _ => empty symbolLen) (init cid symbolLen) where
  cid_eq := rfl
  tx_len := rfl
  rx_len := rfl
  binds := .inl rfl
  send := fun _ => sendOk_new false rfl
  pending := fun _ => lt_of_lt_of_le Nat.zero_lt_one (le_max_right ..)
  recv := fun _ => recvOk_new _ false
  acked := fun _ => le_rfl
  wire := nofun
  back := nofun

variable {stream : Nat}

theorem entry_insert (tx : Sender) (stream id : Nat) (st : SendStream) :
    Sender.entry { tx with streams := tx.streams.insert stream st } id =
      if id = stream then st else tx.entry id := by
  simp only [Sender.entry, Table.get?_insert]
  split <;> rfl

theorem rx_entry_insert (rx : Receiver) (stream id : Nat) (st : RecvStream) :
    Receiver.entry { rx with streams := rx.streams.insert stream st } id =
      if id = stream then st else rx.entry id := by
  simp only [Receiver.entry, Table.get?_insert]
  split <;> rfl

theorem entry_of_get? {tx : Sender} (h : tx.streams.get? stream = some st) :
    tx.entry stream = st := by rw [Sender.entry, h]; rfl

theorem rx_entry_of_get? {rx : Receiver} (h : rx.streams.get? stream = some st) :
    rx.entry stream = st := by
  rw [Receiver.entry, h]
  rfl

variable {len cid : Nat} {C : Nat → Content len} {s : Ends}

theorem MuxOk.sender (h : MuxOk cid C s)
    (hst : SendOk (C stream) (s.written stream) (s.finished stream) st)
    (hpending : st.pending.length < max len 1)
    (hacked : st.ackedThrough ≤ (s.rx.entry stream).deliveredThrough) :
    MuxOk cid C { s with tx := { s.tx with streams := s.tx.streams.insert stream st } } where
  __ := h
  send := by
    intro id
    rw [entry_insert]
    split
    · subst id; exact hst
    · exact h.send id
  pending := by
    intro id
    rw [entry_insert]
    split
    · exact hpending
    · exact h.pending id
  acked := by
    intro id
    rw [entry_insert]
    split
    · subst id; exact hacked
    · exact h.acked id

theorem MuxOk.frames (h : MuxOk cid C s) (hpkts : ∀ pkt ∈ pkts, FrameOk cid C pkt) :
    MuxOk cid C { s with wire := s.wire ++ pkts } :=
  { h with wire := fun pkt hpkt => (mem_append.mp hpkt).elim (h.wire pkt) (hpkts pkt) }

theorem MuxOk.receiver (h : MuxOk cid C s)
    (hst : RecvOk (C stream) (s.delivered stream ++ out) (s.finOut stream || fin) st)
    (hle : (s.rx.entry stream).deliveredThrough ≤ st.deliveredThrough) : MuxOk cid C { s with
      rx := { s.rx with streams := s.rx.streams.insert stream st }
      delivered := update s.delivered stream (s.delivered stream ++ out)
      finOut := update s.finOut stream (s.finOut stream || fin) } := by
  have hthrough : ∀ id, (s.rx.entry id).deliveredThrough ≤
      (Receiver.entry { s.rx with streams := s.rx.streams.insert stream st } id).deliveredThrough := by
    intro id
    rw [rx_entry_insert]
    split
    · subst id; exact hle
    · exact le_rfl
  refine { h with
    recv := fun id => ?_
    acked := fun id => le_trans (h.acked id) (hthrough id)
    back := fun m hm => (h.back m hm).mono hthrough }
  rw [rx_entry_insert]
  by_cases hid : id = stream
  · subst id
    simpa [update_self] using hst
  · simpa [update_of_ne hid, if_neg hid] using h.recv id

/-- How many symbols a stream of that many bytes takes. -/
def symbolCount (symbolLen bytes : Nat) (finished : Bool) : Nat :=
  bytes / symbolLen + finished.toNat

/-- Stream ids are `u32`; no write after the fin, and fewer than 2^32 symbols. -/
def Allowed (s : Ends) : Event → Prop
  | .write stream data fin => stream < 2 ^ 32 ∧ s.finished stream = false ∧
    symbolCount s.tx.symbolLen (s.written stream ++ data).length fin < 2 ^ 32
  | .openStream stream _ | .resendFin stream | .expectStream stream _ | .deliver stream
  | .nak stream _ | .ack stream => stream < 2 ^ 32
  | .feedback _ | .ingest _ => True

instance Allowed.decidable (s : Ends) : DecidablePred (Allowed s) := fun e => by
  cases e <;> unfold Allowed <;> infer_instance

section
variable (h : MuxOk cid C s)
include h

theorem MuxOk.openStream (stream : Nat) (isProtected : Bool) :
    MuxOk cid C { s with tx := s.tx.openStream stream isProtected } := by
  unfold Sender.openStream
  split
  · exact h
  rename_i hnone
  have hentry : s.tx.entry stream = SendStream.new false len := by
    rw [Sender.entry, not_isSome_iff_eq_none.mp hnone, h.tx_len]
    rfl
  have hsend := h.send stream
  rw [hentry] at hsend
  have hnew : SendOk (C stream) (s.written stream) (s.finished stream)
      (SendStream.new isProtected s.tx.symbolLen) := by
    rw [h.tx_len]
    exact hsend.reopen isProtected
  exact h.sender hnew (lt_of_lt_of_le Nat.zero_lt_one (le_max_right ..)) (Nat.zero_le _)

theorem MuxOk.expectStream (stream : Nat) (isProtected : Bool) :
    MuxOk cid C { s with rx := s.rx.expectStream stream isProtected } := by
  unfold Receiver.expectStream
  split
  · exact h
  rename_i hnone
  have hentry : s.rx.entry stream = RecvStream.new false len := by
    rw [Receiver.entry, not_isSome_iff_eq_none.mp hnone, h.rx_len]
    rfl
  have hrecv := h.recv stream
  rw [hentry] at hrecv
  have hnew : RecvOk (C stream) (s.delivered stream ++ []) (s.finOut stream || false)
      (RecvStream.new isProtected s.rx.symbolLen) := by
    rw [append_nil, Bool.or_false, h.rx_len]
    exact { hrecv with dec := (recvOk_new (C stream) isProtected).dec }
  have hok := h.receiver hnew (by rw [hentry]; exact le_rfl)
  rw [append_nil, Bool.or_false, update_eq_self, update_eq_self] at hok
  exact hok

theorem MuxOk.deliver (stream : Nat) : MuxOk cid C (s.deliver stream) := by
  unfold Ends.deliver
  cases hget : s.rx.streams.get? stream with
  | none => exact h
  | some st =>
    have hrecv := h.recv stream
    rw [rx_entry_of_get? hget] at hrecv
    obtain ⟨hok, hle⟩ := hrecv.recover.deliver
    rw [recover_through] at hle
    exact h.receiver hok (by rw [rx_entry_of_get? hget]; exact hle)

theorem MuxOk.update (hf : RecvOk (C stream) (s.delivered stream) (s.finOut stream)
    (f (s.rx.entry stream)))
    (hle : (s.rx.entry stream).deliveredThrough ≤ (f (s.rx.entry stream)).deliveredThrough) :
    MuxOk cid C { s with rx := { s.rx with cid := some cid }.update stream f } := by
  have hst : RecvOk (C stream) (s.delivered stream ++ []) (s.finOut stream || false)
      (f (s.rx.entry stream)) := by
    rw [append_nil, Bool.or_false]
    exact hf
  have hok := h.receiver hst hle
  rw [append_nil, Bool.or_false, update_eq_self, update_eq_self] at hok
  exact { hok with
    binds := .inr rfl
    back := fun m hm => (hok.back m hm).mono fun _ => le_rfl }

end

theorem onStream_through (st : RecvStream) (sid : Nat) (sym : List Byte) :
    (st.onStream sid sym).deliveredThrough = st.deliveredThrough :=
  (keep_eq { st with highestSeen := max st.highestSeen sid } sid sym).2

section
variable (h : MuxOk cid C s)
include h

theorem MuxOk.ingest (hcid : cid < 2 ^ 64) (hpkt : FrameOk cid C pkt) (hlen : len < 2 ^ 16) :
    MuxOk cid C { s with rx := s.rx.ingest pkt } := by
  cases hpkt with
  | stream hstream hsid hsym =>
    have hsymLen := (C _).assignment.len_eq _ _ hsym
    rw [ingest_wireStream h.binds hcid hstream hsid (hsymLen.trans h.rx_len.symm)]
    exact h.update ((h.recv _).onStream hsym) (le_of_eq (onStream_through ..).symm)
  | repair hstream hr =>
    rw [ingest_wireRepair h.binds hcid hstream (hr.payload_length.trans h.rx_len.symm)]
    exact h.update ((h.recv _).onRepair (readRepair_ok hr)) le_rfl
  | fin hstream hsid hinfo =>
    obtain ⟨t, ht, hpair⟩ := map_eq_some_iff.mp hinfo
    have hfinalLen := (C _).tail_lt t ht
    rw [ingest_wireFin h.binds hcid hstream hsid (by cases hpair; omega)]
    exact h.update ((h.recv _).onFin hinfo) le_rfl

theorem MuxOk.resendFin (hstream : stream < 2 ^ 32) :
    MuxOk cid C { s with wire := s.wire ++ s.tx.resendFin stream } := by
  refine h.frames fun pkt hpkt => ?_
  unfold Sender.resendFin at hpkt
  split at hpkt
  · cases hpkt
  rename_i st hget
  have hsend := h.send stream
  rw [entry_of_get? hget] at hsend
  split at hpkt
  · rename_i hinfo
    split at hpkt
    · cases hpkt
    · rw [h.cid_eq] at hpkt
      exact hsend.fin_frame hstream hinfo C rfl pkt hpkt
  · cases hpkt

theorem MuxOk.onNak (hstream : stream < 2 ^ 32) (want : List Nat) :
    ∀ pkt ∈ s.tx.onNak stream want, FrameOk cid C pkt := by
  intro pkt hpkt
  unfold Sender.onNak at hpkt
  split at hpkt
  · cases hpkt
  rename_i st hget
  have hsend := h.send stream
  rw [entry_of_get? hget] at hsend
  rw [h.cid_eq] at hpkt
  rcases mem_append.mp hpkt with hpkt | hpkt
  · obtain ⟨sid, -, hpkt⟩ := mem_flatMap.mp hpkt
    exact hsend.resend_frame hstream sid C rfl pkt hpkt
  split at hpkt
  · rename_i hinfo
    split at hpkt
    · exact hsend.fin_frame hstream hinfo C rfl pkt hpkt
    · cases hpkt
  · cases hpkt

theorem MuxOk.onAck (hthrough : through ≤ (s.rx.entry stream).deliveredThrough) :
    MuxOk cid C { s with tx := s.tx.onAck stream through } := by
  unfold Sender.onAck
  split
  · exact h
  rename_i st hget
  split
  · rename_i hlt
    have hsend := h.send stream
    have hpending := h.pending stream
    rw [entry_of_get? hget] at hsend hpending
    exact h.sender (hsend.onAck hlt) hpending hthrough
  · exact h

theorem MuxOk.feedback (hcid : cid < 2 ^ 64) (hm : BackOk cid s.rx m) :
    MuxOk cid C { s with
      tx := (s.tx.handleFeedback m).1, wire := s.wire ++ (s.tx.handleFeedback m).2 } := by
  have hcid' : s.tx.cid < 2 ^ 64 := h.cid_eq ▸ hcid
  rw [← h.cid_eq] at hm
  cases hm with
  | nak hstream missing =>
    obtain ⟨want, hwant⟩ := handleFeedback_nak hcid' hstream missing
    rw [hwant]
    exact h.frames (h.onNak hstream want)
  | ack hstream hthrough =>
    have hlt := lt_of_le_of_lt (le_trans hthrough (h.recv _).through_le) (h.send _).next_lt
    rw [handleFeedback_ack hcid' hstream hlt, append_nil]
    exact h.onAck hthrough

theorem MuxOk.sent {written : List Byte} {finished : Bool} {out : SendStream × List Packet}
    (hw : Sent cid stream (C stream) written finished (s.tx.entry stream) out c')
    (hpending : out.1.pending.length < max len 1) : MuxOk cid (Function.update C stream c') { s with
      tx := { s.tx with streams := s.tx.streams.insert stream out.1 }
      wire := s.wire ++ out.2
      written := Function.update s.written stream written
      finished := Function.update s.finished stream finished } := by
  have hext : ∀ id, (C id).Extends (Function.update C stream c' id) := by
    intro id
    by_cases hid : id = stream
    · subst id
      rw [update_self]
      exact hw.ext
    · rw [update_of_ne hid]
      exact .refl _
  refine ⟨h.cid_eq, h.tx_len, h.rx_len, h.binds, fun id => ?_, fun id => ?_,
    fun id => (h.recv id).mono (hext id), fun id => ?_, fun pkt hpkt => ?_, h.back⟩
  · rw [entry_insert]
    by_cases hid : id = stream
    · subst id
      simpa only [if_pos, update_self] using hw.ok
    · simpa only [if_neg hid, update_of_ne hid] using h.send id
  · rw [entry_insert]
    split
    · exact hpending
    · exact h.pending id
  · rw [entry_insert]
    split
    · subst id
      rw [hw.acked]
      exact h.acked _
    · exact h.acked id
  · rcases mem_append.mp hpkt with hpkt | hpkt
    · exact (h.wire pkt hpkt).mono hext
    · exact hw.frames _ (update_self ..) pkt hpkt

theorem MuxOk.write (hlen : len ≤ 65535) {sent : Sender × List Packet}
    (hsent : s.tx.write stream data fin = some sent) (hok : Allowed s (.write stream data fin)) :
    ∃ C' : Nat → Content len, MuxOk cid C' { s with
      tx := sent.1
      wire := s.wire ++ sent.2
      written := Function.update s.written stream (s.written stream ++ data)
      finished := Function.update s.finished stream (s.finished stream || fin) } := by
  obtain ⟨hstream, hopen, hcount⟩ := hok
  obtain rfl := h.cid_eq
  obtain rfl := h.tx_len
  unfold Sender.write at hsent
  split at hsent
  · cases hsent
  rename_i hne
  cases hsent
  have hsend := h.send stream
  have hpending := h.pending stream
  rw [max_eq_left (by omega)] at hpending
  rw [hopen] at hsend
  obtain ⟨c', hw, hpending'⟩ := hsend.write s.tx.cid ⟨by omega, hlen⟩ hstream (by
    rw [payloads_length, hsend.tail_none, toList_none, length_nil,
      add_zero, add_comm (C stream).full.length, ← Nat.add_mul_div_right _ _ (by omega)]
    rw [symbolCount, length_append, hsend.written_length, hsend.tail_none] at hcount
    rw [show (s.tx.entry stream).pending.length + data.length + (C stream).full.length * s.tx.symbolLen =
      0 + (s.tx.entry stream).pending.length + (C stream).full.length * s.tx.symbolLen +
        data.length by omega]
    exact hcount)
  rw [hopen, Bool.false_or]
  exact ⟨_, h.sent hw (lt_of_lt_of_le hpending' (le_max_left ..))⟩

theorem MuxOk.reply (hbody : ∀ m ∈ body cid (s.rx.entry stream), BackOk cid s.rx m) :
    MuxOk cid C (s.reply stream body) := by
  unfold Ends.reply
  split
  · rename_i cid' st hcid hget
    have heq : cid' = cid := by
      rcases h.binds with hnone | hsome
      · rw [hnone] at hcid
        cases hcid
      · exact Option.some.inj (hcid.symm.trans hsome)
    subst cid'
    rw [rx_entry_of_get? hget] at hbody
    exact { h with back := fun m hm => (mem_append.mp hm).elim (h.back m) (hbody m) }
  · exact h

end

theorem MuxOk.step (hcid : cid < 2 ^ 64) (hlen : len ≤ 65535) {s' : Ends} (h : MuxOk cid C s)
    (hok : Allowed s e) (hstep : s.step e = some s') :
    ∃ C' : Nat → Content len, MuxOk cid C' s' := by
  cases e with
  | openStream stream isProtected =>
    cases hstep
    exact ⟨C, h.openStream stream isProtected⟩
  | write stream data fin =>
    obtain ⟨sent, hsent, rfl⟩ := map_eq_some_iff.mp hstep
    exact h.write hlen hsent hok
  | resendFin stream =>
    cases hstep
    exact ⟨C, h.resendFin hok⟩
  | feedback n =>
    rw [Ends.step] at hstep
    split at hstep
    · cases hstep
      exact ⟨C, h⟩
    rename_i m hm
    cases hstep
    exact ⟨C, h.feedback hcid (h.back m (mem_of_getElem? hm))⟩
  | expectStream stream isProtected =>
    cases hstep
    exact ⟨C, h.expectStream stream isProtected⟩
  | ingest n =>
    rw [Ends.step] at hstep
    split at hstep
    · cases hstep
      exact ⟨C, h⟩
    rename_i pkt hpkt
    cases hstep
    exact ⟨C, h.ingest hcid (h.wire pkt (mem_of_getElem? hpkt)) (by omega)⟩
  | deliver stream =>
    cases hstep
    exact ⟨C, h.deliver stream⟩
  | nak stream due =>
    cases hstep
    refine ⟨C, h.reply fun m hm => ?_⟩
    split at hm
    · cases hm
    · rw [mem_singleton.mp hm]
      exact .nak hok _
  | ack stream =>
    cases hstep
    refine ⟨C, h.reply fun m hm => ?_⟩
    rw [mem_singleton.mp hm]
    exact .ack hok le_rfl

theorem MuxOk.run (hcid : cid < 2 ^ 64) (hlen : symbolLen ≤ 65535)
    (hok : EveryStep Ends.step Allowed (Ends.init cid symbolLen) events)
    (hrun : run Ends.step (Ends.init cid symbolLen) events = some s) :
    ∃ C : Nat → Content symbolLen, MuxOk cid C s := by
  have hstep : ∀ s e s', (∃ C : Nat → Content symbolLen, MuxOk cid C s) → Allowed s e →
      Ends.step s e = some s' → ∃ C : Nat → Content symbolLen, MuxOk cid C s' :=
    fun _ _ _ ⟨_, h⟩ hok hstep => h.step hcid hlen hok hstep
  exact run_invariant hstep ⟨_, muxOk_init cid symbolLen⟩ hok hrun

/-- Symbol `sid` of a stream: its share of the bytes, padded. -/
def symbolAt (symbolLen : Nat) (bytes : List Byte) (sid : Nat) : List Byte :=
  pad symbolLen ((bytes.drop (sid * symbolLen)).take symbolLen)

section
variable {c : Content len} {written delivered : List Byte} {finished finOut : Bool}
  {tx : SendStream} {rx : RecvStream}

section
variable (hs : SendOk c written finished tx)
include hs

section
variable (hr : RecvOk c delivered finOut rx)
include hr

theorem delivered_isPrefix : delivered <+: written := by
  refine ⟨(c.payloads.drop rx.deliveredThrough).flatten ++ tx.pending, ?_⟩
  rw [hr.delivered_eq, hs.written_eq, ← append_assoc, ← flatten_append, take_append_drop]
  rfl

theorem finOut_iff (hpending : tx.pending.length < max len 1) :
    finOut = true ↔ finished = true ∧ written.length / len < rx.deliveredThrough := by
  have hle := hr.through_le
  rw [hr.fin_iff, hs.finished_eq]
  cases ht : c.tail with
  | none =>
    rw [payloads_length, ht] at hle
    simp only [toList_none, length_nil, add_zero] at hle
    simp only [isSome_none, Bool.false_eq_true, false_and, iff_false]
    omega
  | some t =>
    have hlt := c.tail_lt t ht
    rw [max_eq_left (by omega)] at hpending
    rw [hs.full_length hpending]
    simp

theorem delivered_of_finOut (hfin : finOut = true) : finished = true ∧ delivered = written := by
  have hthrough := hr.fin_iff.mp hfin
  have hle := hr.through_le
  rw [payloads_length] at hle
  cases ht : c.tail with
  | none =>
    rw [ht] at hle
    exact absurd hle (by simpa using hthrough)
  | some t =>
    refine ⟨by rw [hs.finished_eq, ht]; rfl, ?_⟩
    rw [hr.delivered_eq, hs.written_eq, hs.pending_nil (by simp [ht]), append_nil,
      take_of_length_le (by have := c.payloads_length_le; omega)]
    rfl

/-- With bytes in the last symbol, all of them out means it is out. -/
theorem finOut_of_delivered (hmod : written.length % len ≠ 0)
    (hfin : finished = true) (hall : delivered = written) : finOut = true := by
  refine hr.fin_iff.mpr (lt_of_not_ge fun hle => hmod ?_)
  obtain ⟨t, ht⟩ := isSome_iff_exists.mp (hs.finished_eq.symm.trans hfin)
  have hlength := hs.written_length
  rw [ht, hs.pending_nil (by simp [ht])] at hlength
  have hshort : delivered.length ≤ c.full.length * len := by
    rw [hr.delivered_eq, payloads, take_append_of_le_length hle, ← c.full_flatten_length]
    exact ((take_sublist _ _).flatten).length_le
  have hzero : t.length = 0 := by
    rw [hall, hlength] at hshort
    simp only [getD_some, length_nil, add_zero] at hshort
    omega
  rw [hlength, getD_some, hzero]
  simp

end

theorem symbolCount_eq (hpending : tx.pending.length < len) :
    symbolCount len written.length finished = c.payloads.length := by
  rw [symbolCount, hs.full_length hpending, payloads_length, hs.finished_eq]
  cases c.tail <;> rfl

theorem len_pos_of_symbol (hsid : sid < symbolCount len written.length finished) : 0 < len := by
  rcases Nat.eq_zero_or_pos len with rfl | hpos
  · rw [symbolCount, Nat.div_zero, hs.finished_eq] at hsid
    cases ht : c.tail with
    | none =>
      rw [ht] at hsid
      exact absurd hsid (Nat.not_lt_zero _)
    | some t => exact absurd (c.tail_lt t ht) (Nat.not_lt_zero _)
  · exact hpos

theorem held_of_undelivered (hpending : tx.pending.length < max len 1)
    (hacked : tx.ackedThrough ≤ rx.deliveredThrough)
    (hsid : sid < symbolCount len written.length finished) (hle : rx.deliveredThrough ≤ sid) :
    tx.sent.get? sid = some (symbolAt len written sid) := by
  rw [max_eq_left (len_pos_of_symbol hs hsid)] at hpending
  rw [symbolCount_eq hs hpending] at hsid
  have hp := getElem?_eq_getElem hsid
  rw [hs.held sid _ (le_trans hacked hle) (symbol_of_payload hp), symbolAt,
    hs.written_eq, chunk hp hs.pending_nil]

end
end

/-- On every stream what came out is a prefix of what was written. The fin comes
out exactly with the last symbol, and only once everything else has; where the
last symbol holds bytes, that is when all bytes are out. The sender still holds
every symbol the receiver has not delivered. -/
theorem stream_delivery (hcid : cid < 2 ^ 64) {symbolLen : Nat} (hlen : symbolLen ≤ 65535)
    {events : List Event} (hok : EveryStep Ends.step Allowed (Ends.init cid symbolLen) events)
    (hrun : run Ends.step (Ends.init cid symbolLen) events = some s) (stream : Nat) :
    s.delivered stream <+: s.written stream ∧ (s.finOut stream = true ↔ s.finished stream = true ∧
        (s.written stream).length / symbolLen < (s.rx.entry stream).deliveredThrough) ∧
      (s.finOut stream = true → s.delivered stream = s.written stream) ∧
      ((s.written stream).length % symbolLen ≠ 0 → (s.finOut stream = true ↔
          s.finished stream = true ∧ s.delivered stream = s.written stream)) ∧
      ∀ sid, (s.rx.entry stream).deliveredThrough ≤ sid →
        sid < symbolCount symbolLen (s.written stream).length (s.finished stream) →
        (s.tx.entry stream).sent.get? sid = some (symbolAt symbolLen (s.written stream) sid) := by
  obtain ⟨C, h⟩ := MuxOk.run hcid hlen hok hrun
  have hs := h.send stream
  have hr := h.recv stream
  have hpending := h.pending stream
  refine ⟨delivered_isPrefix hs hr, finOut_iff hs hr hpending,
    fun hfin => (delivered_of_finOut hs hr hfin).2, fun hmod => ⟨delivered_of_finOut hs hr, ?_⟩,
    fun sid hle hsid => held_of_undelivered hs hpending (h.acked stream) hsid hle⟩
  rintro ⟨hfin, hall⟩
  exact finOut_of_delivered hs hr hmod hfin hall

/-- The first symbol of stream 1 is lost and asked for again while stream 2 goes
through. -/
def lostFirst : List Event :=
  [.write 1 [byte 5, byte 6, byte 7] true, .write 2 [byte 8, byte 9, byte 10, byte 11] false,
    .ingest 4, .ingest 1, .ingest 3, .ingest 2, .deliver 2, .deliver 1, .nak 1 fun _ => true,
    .feedback 0, .ingest 5, .deliver 1, .ack 1, .feedback 1]

theorem stream_delivery_lostFirst : ∃ s, run step (init 9 2) lostFirst = some s ∧
      s.delivered 1 = [byte 5, byte 6, byte 7] ∧ s.delivered 1 = s.written 1 ∧
      s.delivered 2 = [byte 8, byte 9] ∧ s.delivered 2 <+: s.written 2 ∧
      (s.tx.entry 2).sent.get? 1 = some (symbolAt 2 (s.written 2) 1) := by
  have hok : EveryStep step Allowed (init 9 2) lostFirst := by decide +kernel
  have hlast : (run step (init 9 2) lostFirst).map (fun s =>
      (s.finOut 1, s.delivered 1, s.delivered 2, (s.rx.entry 2).deliveredThrough,
        symbolCount 2 (s.written 2).length (s.finished 2))) =
      some (true, [byte 5, byte 6, byte 7], [byte 8, byte 9], 1, 2) := by
    decide +kernel
  obtain ⟨s, hrun, heq⟩ := map_eq_some_iff.mp hlast
  simp only [Prod.mk.injEq] at heq
  obtain ⟨hfin, hfirst, hsecond, hthrough, hcount⟩ := heq
  have h1 := stream_delivery (by decide) (by decide) hok hrun 1
  have h2 := stream_delivery (by decide) (by decide) hok hrun 2
  exact ⟨s, hrun, hfirst, h1.2.2.1 hfin, hsecond, h2.1,
    h2.2.2.2.2 1 (by rw [hthrough]) (by rw [hcount]; decide)⟩

/-- The bytes fill their symbols, and the empty last symbol is late. -/
def emptyLast : List Event := [.write 1 [byte 7] true, .ingest 0, .ingest 2, .deliver 1]

/-- All bytes of a finished stream are out and its fin is not. -/
theorem fin_after_all_bytes : EveryStep step Allowed (init 9 1) emptyLast ∧
      ∃ s, run step (init 9 1) emptyLast = some s ∧ s.finished 1 = true ∧
        s.delivered 1 = s.written 1 ∧ s.finOut 1 = false := by
  have hlast : EveryStep step Allowed (init 9 1) emptyLast ∧
      (run step (init 9 1) emptyLast).map (fun s =>
        (s.finished 1, s.delivered 1, s.written 1, s.finOut 1)) =
        some (true, [byte 7], [byte 7], false) := by
    decide +kernel
  obtain ⟨s, hrun, heq⟩ := map_eq_some_iff.mp hlast.2
  simp only [Prod.mk.injEq] at heq
  obtain ⟨hfin, hdelivered, hwritten, hout⟩ := heq
  exact ⟨hlast.1, s, hrun, hfin, hdelivered.trans hwritten.symm, hout⟩

end SubEtha.Mux
