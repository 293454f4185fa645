import SubEtha.Rlc.Link

namespace SubEtha.Rlc
open Option List Lib Window

/-- The canary is back for the last time and its answers have had their grace. -/
def Window.closesLastRound (w : Window) (now grace : Nat) : Bool :=
  match w.start with
  | none => false
  | some probe =>
    match probe.lowest, probe.canaryBackUs with
    | some _, some back => back + grace ≤ now && startProbeRounds ≤ probe.emptyRounds + 1
    | _, _ => false

namespace Link

def headArrived (s : Link) : Bool :=
  s.arrived.any fun pkt => frameType pkt = pktData && leAt pkt 9 4 = 0

/-- Not every copy of id 0 is lost while the canary comes back round after round. -/
def HeadFirst (s : Link) : LinkEvent → Prop
  | .service _ now grace => s.rx.closesLastRound now grace = true → s.headArrived = true
  | .send .. | .pump .. | .rto _ | .retune .. | .deliver .. => True

instance HeadFirst.decidable (s : Link) : ∀ e, Decidable (s.HeadFirst e)
  | .service .. => inferInstanceAs (Decidable (_ → _))
  | .send .. | .pump .. | .rto _ | .retune .. | .deliver .. => inferInstanceAs (Decidable True)

/-- A session that has heard nothing, opened while the sender is in any state. -/
def openSession (s : Link) (now : Nat) : Link :=
  { s with rx := Window.new s.tx.symbolLen now, arrived := [], delivered := [] }

end Link

section
variable {w : Window}

/-- Only the last empty round moves the frontier, and never past a held head. -/
theorem settled_still
    (hhead : w.start ≠ none → w.closesLastRound now grace = true → w.dec.has 0 = true) :
    (w.settled now grace).1.deliveredThrough = w.deliveredThrough := by
  unfold settled settleStart
  dsimp only
  split
  · rfl
  rename_i probe hstart
  split
  · rfl
  rename_i hzero
  split
  · rename_i lowest stamp back hlowest hback
    split
    · rfl
    rename_i hgrace
    split
    · rfl
    rename_i hrounds
    have hcloses : w.closesLastRound now grace = true := by
      simp only [closesLastRound, hstart, hlowest, hback, Bool.and_eq_true, decide_eq_true_eq]
      omega
    have hheld := hhead (by rw [hstart]; exact some_ne_none _) hcloses
    exact absurd (recover_has hheld) hzero
  · rfl

theorem deliverLoop_start (fuel : Nat) (w : Window) : (deliverLoop fuel w).1.start = w.start := by
  induction fuel generalizing w with
  | zero => rfl
  | succ fuel ih =>
    rw [deliverLoop]
    split
    · rfl
    · exact ih _

theorem service_start (hasPeer : Bool) (now grace : Nat) (h : w.start = none) :
    (w.service hasPeer now grace).1.start = none := by
  obtain ⟨-, -, hstart, -⟩ := respond_eq (w.advance now grace).1 (w.advance now grace).2.2 hasPeer
    now grace
  have hsettle : settleStart { w with dec := w.dec.recover.1 } now grace =
      ({ w with dec := w.dec.recover.1 }, true) := by
    unfold settleStart
    simp [h]
  refine hstart.mpr ?_
  unfold advance
  simp only [hsettle, if_true]
  exact (deliverLoop_start ..).trans h

theorem process_start (pkt : Packet) (arrivalUs : Nat) (h : w.start = none) :
    (w.process pkt arrivalUs).start = none := by
  unfold process
  split
  · simp only [onData, h]
    rfl
  split
  · unfold onRepair
    split
    · exact h
    split
    · rfl
    · exact h
  · exact h

theorem onSource_self (d : RlcDecoder) (sid : Nat) (sym : List Byte) :
    (d.onSource sid sym).has sid = true := by
  unfold RlcDecoder.onSource RlcDecoder.has
  by_cases hid : d.source.contains sid = true
  · rw [if_pos hid]
    exact hid
  · rw [if_neg hid, Table.contains, Table.get?_insert, if_pos rfl]
    rfl

end

/-- While the start is open, a head that has arrived is held. -/
structure StartOk {symbolLen : Nat} (stream : Stream symbolLen) (s : Link) : Prop where
  link : LinkOk stream s
  first_eq : stream.first = 0
  head : s.rx.start ≠ none → s.headArrived = true → s.rx.dec.has 0 = true

section
variable {symbolLen : Nat} {stream : Stream symbolLen}

theorem StartOk.allowed (h : StartOk stream s) (hsized : s.Sized e) (hhead : s.HeadFirst e) :
    s.Allowed e := by
  cases e with
  | send | retune => exact hsized
  | pump | rto | deliver => trivial
  | service hasPeer now grace =>
    exact settled_still fun hstart hcloses => h.head hstart (hhead hcloses)

theorem head_of_process (h : Holds stream delivered w) (hpkt : WireOk cid stream.heard pkt)
    (htype : frameType pkt = pktData) (hzero : leAt pkt 9 4 = 0) (arrivalUs : Nat) :
    (w.process pkt arrivalUs).dec.has 0 = true := by
  cases hpkt with
  | @data sid sym sendUs hsid hsym =>
    have hlen := stream.heard.len_eq _ _ hsym
    have hfit : dataHdr + w.symbolLen ≤ (dataFrame cid sid sendUs sym).length := by
      rw [dataFrame, connFrame_length]
      simp only [length_append, leBytes_length, hlen, h.len_eq, dataHdr]
      omega
    unfold process
    rw [if_pos ⟨htype, hfit⟩, hzero]
    exact onSource_self ..
  | repair hr =>
    rw [repairFrame, connFrame_type] at htype
    cases htype
  | other hdata hrepair => exact absurd htype hdata

theorem StartOk.step {e : LinkEvent} {s' : Link} (h : StartOk stream s) (hsized : s.Sized e)
    (hhead : s.HeadFirst e) (hstep : s.step e = some s') :
    ∃ stream' : Stream symbolLen, stream.Grows stream' ∧ StartOk stream' s' := by
  obtain ⟨stream', hgrows, hlink, hkeeps⟩ := h.link.step (h.allowed hsized hhead) hstep
  have hfirst : stream'.first = 0 := hgrows.first_eq.trans h.first_eq
  have hkept : s'.rx.start ≠ none → s.rx.start ≠ none → s.headArrived = true →
      s'.rx.dec.has 0 = true := by
    intro hstart' hstart harrived
    refine (hkeeps.has 0 (h.head hstart harrived)).resolve_left fun hlt => ?_
    rw [hlink.recv.probing hstart', hfirst] at hlt
    exact absurd hlt (lt_irrefl 0)
  refine ⟨stream', hgrows, hlink, hfirst, ?_⟩
  cases e with
  | send | pump =>
    rw [Link.step] at hstep
    split at hstep <;> cases hstep <;>
      exact fun hstart harrived => hkept hstart hstart harrived
  | rto | retune =>
    cases hstep
    exact fun hstart harrived => hkept hstart hstart harrived
  | deliver n arrivalUs =>
    rw [Link.step] at hstep
    split at hstep <;> cases hstep
    · exact fun hstart harrived => hkept hstart hstart harrived
    rename_i pkt hpkt
    intro hstart harrived
    rw [Link.headArrived, any_append, Bool.or_eq_true] at harrived
    rcases harrived with harrived | hnow
    · exact hkept hstart (fun hnone => hstart (process_start pkt arrivalUs hnone)) harrived
    simp only [any_cons, any_nil, Bool.or_false, Bool.and_eq_true, decide_eq_true_eq] at hnow
    exact head_of_process h.link.recv (h.link.wire pkt (mem_of_getElem? hpkt)) hnow.1
      hnow.2 arrivalUs
  | service hasPeer now grace =>
    cases hstep
    exact fun hstart harrived => hkept hstart
      (fun hnone => hstart (service_start hasPeer now grace hnone)) harrived

theorem startOk_openSession (h : LinkSends stream s) (hfirst : stream.first = 0) (now : Nat) :
    StartOk stream (s.openSession now) := by
  have hholds : Holds stream [] (new s.tx.symbolLen now) := by
    rw [h.emits.len_eq]
    exact ⟨rfl, decodesOk_new _ _, le_of_eq hfirst, Nat.zero_le _, by simp [new],
      fun _ => hfirst.symm⟩
  exact ⟨⟨{ h with }, hholds⟩, hfirst, nofun⟩

end

/-- A session opened against a sender in any state takes its stream from id 0
on, if some DATA copy of id 0 arrives before the last empty round closes. -/
theorem delivers_from_head {connId windowMax step dt symbolLen now : Nat} {rx : Window}
    {before events : List LinkEvent} {s0 s : Link} (hmax : windowMax < 2 ^ 16)
    (hbefore : EveryStep Link.step Link.Sized
      (Link.init (freshSender connId windowMax step dt symbolLen 0) rx) before)
    (hopen : run Link.step (Link.init (freshSender connId windowMax step dt symbolLen 0) rx)
      before = some s0) (hsized : EveryStep Link.step Link.Sized (s0.openSession now) events)
    (hhead : EveryStep Link.step Link.HeadFirst (s0.openSession now) events)
    (hrun : run Link.step (s0.openSession now) events = some s) :
    s.rx.deliveredThrough = s.delivered.length ∧ s.delivered <+: s.items := by
  obtain ⟨stream0, hgrows, hsends⟩ := run_carries Stream.Grows.refl Stream.Grows.trans
    (fun _ _ _ _ h => h.step) (linkSends_init rx hmax (by decide)) hbefore hopen
  obtain ⟨stream, -, h⟩ := run_carries Stream.Grows.refl Stream.Grows.trans
    (fun _ _ _ _ h hok => h.step hok.1 hok.2)
    (startOk_openSession hsends hgrows.first_eq now) (hsized.and hhead) hrun
  have hthrough := h.link.recv.through_le
  rw [Stream.next, h.first_eq, zero_add] at hthrough
  have hdelivered := h.link.recv.delivered_eq
  rw [h.first_eq, Nat.sub_zero] at hdelivered
  rw [hdelivered, h.link.items_eq, length_take, min_eq_left hthrough]
  exact ⟨rfl, take_prefix ..⟩

/-- The first of two symbols is lost; the probe brings it. -/
def headProbed : List LinkEvent :=
  [.send 0 [byte 5], .send 10 [byte 6], .deliver 1 100, .service true 2000 1000,
    .pump 0 300000, .deliver 2 300050, .deliver 3 300100, .service true 302000 1000]

theorem delivers_from_head_headProbed :
    ∃ s, run Link.step ((Link.init (freshSender 9 4 8 15 3 0) (new 3 0)).openSession 0)
        headProbed = some s ∧ s.delivered = [[byte 5], [byte 6]] ∧
      s.rx.deliveredThrough = s.delivered.length ∧ s.delivered <+: s.items := by
  have hlast : (run Link.step ((Link.init (freshSender 9 4 8 15 3 0)
      (new 3 0)).openSession 0) headProbed).map Link.delivered = some [[byte 5], [byte 6]] := by
    decide +kernel
  obtain ⟨s, hrun, hdelivered⟩ := map_eq_some_iff.mp hlast
  have hopen : run Link.step (Link.init (freshSender 9 4 8 15 3 0) (new 3 0)) [] =
      some (Link.init (freshSender 9 4 8 15 3 0) (new 3 0)) := rfl
  have hbefore : EveryStep Link.step Link.Sized
      (Link.init (freshSender 9 4 8 15 3 0) (new 3 0)) [] := trivial
  have h := delivers_from_head (by decide) hbefore hopen (by decide +kernel) (by decide +kernel)
    hrun
  exact ⟨s, hrun, hdelivered, h⟩

/-- Both resent copies of id 0 are lost as well, and those of id 1 are not. -/
def headLost : List LinkEvent :=
  [.send 0 [byte 5], .send 10 [byte 6], .deliver 1 100, .service true 2000 1000,
    .pump 0 300000, .deliver 3 300100, .service true 302000 1000,
    .pump 1 600000, .deliver 5 600100, .service true 602000 1000]

theorem settles_above_held_head : EveryStep Link.step Link.Sized
        ((Link.init (freshSender 9 4 8 15 3 0) (new 3 0)).openSession 0) headLost ∧
      ∃ s, run Link.step ((Link.init (freshSender 9 4 8 15 3 0) (new 3 0)).openSession 0)
          headLost = some s ∧ s.tx.sent.contains 0 = true ∧ s.items = [[byte 5], [byte 6]] ∧
        s.delivered = [[byte 6]] ∧ s.rx.deliveredThrough = 2 := by
  have hlast : (run Link.step ((Link.init (freshSender 9 4 8 15 3 0)
      (new 3 0)).openSession 0) headLost).map (fun s => (s.tx.sent.contains 0,
        s.items, s.delivered, s.rx.deliveredThrough)) =
      some (true, [[byte 5], [byte 6]], [[byte 6]], 2) := by
    decide +kernel
  obtain ⟨s, hrun, heq⟩ := map_eq_some_iff.mp hlast
  simp only [Prod.mk.injEq] at heq
  exact ⟨by decide +kernel, s, hrun, heq⟩

end SubEtha.Rlc
