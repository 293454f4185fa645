import SubEtha.Rlc.Link

namespace SubEtha.Rlc
open Option List Lib RsCode RlcSender Link Window

inductive BackOk (w : Window) : Packet → Prop
  | nak (sids : List Nat) : BackOk w (nakFrame sids)
  | ack {through sack : Nat} (hthrough : through ≤ w.deliveredThrough)
      (hsack : ∀ sid, RlcSender.sacked through (sack % 2 ^ 64) sid = true →
        sid < w.deliveredThrough ∨ w.dec.has sid = true) : BackOk w (ackFrame through sack)

theorem BackOk.mono (h : BackOk w m) (hw : Keeps w w') : BackOk w' m := by
  cases h with
  | nak sids => exact .nak sids
  | ack hthrough hsack =>
    refine .ack (le_trans hthrough hw.through_le) fun sid hsid => ?_
    rcases hsack sid hsid with hlt | hhas
    · exact .inl (lt_of_lt_of_le hlt hw.through_le)
    · exact hw.has sid hhas

theorem sackMask_lt (w : Window) : w.sackMask < 2 ^ 64 := by
  refine Nat.lt_pow_two_of_testBit _ fun i hi => ?_
  rw [sackMask, testBit_foldl_or]
  simp [not_lt.mpr hi]

theorem respond_back (w : Window) (settled hasPeer : Bool) (now grace : Nat) :
    ∀ m ∈ (w.respond settled hasPeer now grace).2, BackOk w m := by
  have hnak : ∀ m ∈ (w.maybeNak hasPeer now grace).2, BackOk w m := by
    intro m hm
    unfold maybeNak at hm
    dsimp only at hm
    repeat' first | split at hm | exact absurd hm not_mem_nil
    rw [mem_singleton.mp hm]
    exact .nak _
  have hack : ∀ w' : Window, w'.dec = w.dec → w'.deliveredThrough = w.deliveredThrough →
      ∀ m ∈ (w'.sendAck hasPeer now).2, BackOk w m := by
    intro w' hdec hthrough m hm
    unfold sendAck at hm
    split at hm
    · cases hm
    split at hm
    · rw [mem_singleton.mp hm]
      refine .ack (le_of_eq hthrough) fun sid hsid => .inr ?_
      rw [Nat.mod_eq_of_lt (sackMask_lt w')] at hsid
      rw [← hdec]
      exact has_of_sacked hsid
    · cases hm
  intro m hm
  unfold respond at hm
  cases settled with
  | false =>
    simp only [Bool.false_eq_true, if_false] at hm
    unfold sendStartProbe at hm
    repeat' first | split at hm | exact absurd hm not_mem_nil
    rw [mem_singleton.mp hm]
    exact .nak _
  | true =>
    obtain ⟨hdec, hthrough, -, -⟩ := maybeNak_eq w hasPeer now grace
    rcases mem_append.mp hm with hm | hm
    · exact hnak m hm
    · exact hack _ hdec hthrough m hm

/-- Every id the window still lacks is held at one of the two ends. -/
def Held (first : Nat) (w : Window) (tx : RlcSender) : Prop :=
  ∀ id, first ≤ id → id < tx.enc.nextSourceId → w.deliveredThrough ≤ id →
    tx.sent.contains id = true ∨ w.dec.has id = true

section
variable {first : Nat} {w w' : Window} {tx tx' : RlcSender}

theorem Held.keeps (h : Held first w tx) (hw : Keeps w w') : Held first w' tx := by
  intro id hid hlt hle
  rcases h id hid hlt (le_trans hw.through_le hle) with hsent | hhas
  · exact .inl hsent
  rcases hw.has id hhas with hlt | hhas
  · exact absurd hlt (not_lt.mpr hle)
  · exact .inr hhas

theorem Held.of_eq (h : Held first w tx) (hsent : tx'.sent = tx.sent)
    (hnext : tx'.enc.nextSourceId = tx.enc.nextSourceId) : Held first w tx' := by
  unfold Held
  rw [hsent, hnext]
  exact h

theorem resend_eq (now : Nat) (p : RlcSender × List Packet) (sid : Nat) :
    (resend now p sid).1.sent = p.1.sent ∧ (resend now p sid).1.enc = p.1.enc := by
  unfold resend retransmitIfDue
  split
  · split <;> exact ⟨rfl, rfl⟩
  · exact ⟨rfl, rfl⟩

theorem Held.resendAll (h : Held first w tx) (now : Nat) (sids : List Nat) :
    Held first w (tx.resendAll now sids).1 := by
  have hfold : ∀ p : RlcSender × List Packet, Held first w p.1 →
      Held first w (sids.foldl (resend now) p).1 := by
    induction sids with
    | nil => exact fun _ hp => hp
    | cons sid sids ih =>
      intro p hp
      obtain ⟨hsent, henc⟩ := resend_eq now p sid
      exact ih _ (hp.of_eq hsent (congrArg _ henc))
  exact hfold _ h

theorem contains_retain {t : Table Nat (List Byte)} (h : t.contains sid = true) (hp : p sid = true) :
    (t.retain p).contains sid = true := by
  rw [Table.contains, Table.get?_retain, if_pos hp]
  exact h

section
variable (h : Held first w tx)
include h

theorem Held.sampleRtt (now through : Nat) : Held first w (tx.sampleRtt now through) := by
  unfold RlcSender.sampleRtt
  split
  · split <;> exact h.of_eq rfl rfl
  · exact h

theorem Held.advanceAck (hthrough : through ≤ w.deliveredThrough) :
    Held first w (tx.advanceAck through) := by
  unfold RlcSender.advanceAck
  split
  · exact fun id hid hlt hle => (h id hid hlt hle).imp_left fun hsent =>
      contains_retain hsent (decide_eq_true (le_trans hthrough hle))
  · exact h

theorem Held.releaseSacked
    (hsack : ∀ sid, sacked through mask sid = true → sid < w.deliveredThrough ∨ w.dec.has sid = true) :
    Held first w (tx.releaseSacked through mask) := by
  intro id hid hlt hle
  cases hbit : sacked through mask id with
  | true =>
    rcases hsack id hbit with hlt | hhas
    · exact absurd hlt (not_lt.mpr hle)
    · exact .inr hhas
  | false =>
    exact (h id hid hlt hle).imp_left fun hsent => contains_retain hsent (by rw [hbit]; rfl)

theorem Held.handlePumpFrame (now : Nat) (hm : BackOk w m) (hlt : w.deliveredThrough < 2 ^ 32) :
    Held first w (tx.handlePumpFrame now (m.take ctrlBuf)).1 := by
  cases hm with
  | nak sids =>
    have htype : frameType ((nakFrame sids).take ctrlBuf) = pktNak := by
      simp [nakFrame, ctrlBuf, frameType, leAt, leValue, pktNak]
    unfold RlcSender.handlePumpFrame
    rw [if_pos htype]
    exact h.resendAll now _
  | @ack through sack hthrough hsack =>
    have hcut : (ackFrame through sack).take ctrlBuf = ackFrame through sack :=
      take_of_length_le (by simp [ackFrame, ctrlBuf])
    have htype : frameType (ackFrame through sack) = pktAck := by
      simp [ackFrame, frameType, leAt, leValue, pktAck]
    have hread : leAt (ackFrame through sack) 1 4 = through := by
      rw [ackFrame, leAt_cons (by decide), leAt_here]
      exact Nat.mod_eq_of_lt (show through < 2 ^ 32 by omega)
    have hmask : leAt (ackFrame through sack) 5 8 = sack % 2 ^ 64 := by
      rw [ackFrame, leAt_cons (by decide), leAt_skip (by decide), leAt_end]
      rfl
    unfold RlcSender.handlePumpFrame
    rw [hcut, if_neg (by rw [htype]; decide), if_pos ⟨htype, by simp [ackFrame]⟩, hread,
      if_pos (by simp [ackFrame]), hmask]
    exact ((h.sampleRtt now through).advanceAck hthrough).releaseSacked hsack

theorem Held.send (hsent : tx'.sent = tx.sent.insert tx.enc.nextSourceId sym)
    (hnext : tx'.enc.nextSourceId = tx.enc.nextSourceId + 1) : Held first w tx' := by
  intro id hid hlt hle
  rw [hsent, Table.contains, Table.get?_insert]
  split
  · exact .inl rfl
  · exact h id hid (by omega) hle

end
end

structure NoLoss {symbolLen : Nat} (stream : Stream symbolLen) (s : Link) : Prop where
  link : LinkOk stream s
  held : Held stream.first s.rx s.tx
  back : ∀ m ∈ s.back, BackOk s.rx m

variable {m n : Nat} {s' s : Link}

section
variable {symbolLen : Nat} {stream : Stream symbolLen}

theorem NoLoss.held_step (h : NoLoss stream s) (hok : s.Allowed e) (hkeeps : Keeps s.rx s'.rx)
    (hstep : s.step e = some s') : Held stream.first s'.rx s'.tx := by
  cases e with
  | send now item =>
    rw [step] at hstep
    split at hstep <;> cases hstep
    · rename_i out hout
      obtain ⟨hfits, hemitted, hsent⟩ := h.link.emits.sendItemNow hout hok
      rw [← h.link.emits.next_eq] at hsent
      refine h.held.send hsent (hemitted.emits.next_eq.trans ?_)
      rw [Stream.next_push, h.link.emits.next_eq]
    · exact h.held
  | pump n now =>
    rw [step] at hstep
    split at hstep <;> cases hstep
    · exact h.held
    rename_i m hm
    have hlt := lt_of_le_of_lt h.link.recv.through_le h.link.next_lt
    exact h.held.handlePumpFrame now (h.back m (mem_of_getElem? hm)) hlt
  | rto now =>
    cases hstep
    exact h.held.resendAll now _
  | retune windowMax step dt coding =>
    cases hstep
    exact h.held.of_eq rfl rfl
  | deliver n arrivalUs =>
    rw [step] at hstep
    split at hstep <;> cases hstep <;> exact h.held.keeps hkeeps
  | service hasPeer now grace =>
    cases hstep
    exact h.held.keeps hkeeps

theorem NoLoss.back_step (h : NoLoss stream s) (hkeeps : Keeps s.rx s'.rx)
    (hstep : s.step e = some s') : ∀ m ∈ s'.back, BackOk s'.rx m := by
  have hold : ∀ m ∈ s.back, BackOk s'.rx m := fun m hm => (h.back m hm).mono hkeeps
  cases e with
  | send | pump | deliver =>
    rw [step] at hstep
    split at hstep <;> cases hstep <;> exact hold
  | rto | retune =>
    cases hstep
    exact hold
  | service hasPeer now grace =>
    cases hstep
    obtain ⟨hdec, hthrough, -, -⟩ := respond_eq (s.rx.advance now grace).1
      (s.rx.advance now grace).2.2 hasPeer now grace
    intro m hm
    rcases mem_append.mp hm with hm | hm
    · exact hold m hm
    · exact (respond_back _ _ _ _ _ m hm).mono (.of_eq hdec hthrough)

theorem NoLoss.step (h : NoLoss stream s) (hok : s.Allowed e) (hstep : s.step e = some s') :
    ∃ stream' : Stream symbolLen, stream.Grows stream' ∧ NoLoss stream' s' := by
  obtain ⟨stream', hgrows, hlink, hkeeps⟩ := h.link.step hok hstep
  refine ⟨stream', hgrows, hlink, ?_, h.back_step hkeeps hstep⟩
  rw [hgrows.first_eq]
  exact h.held_step hok hkeeps hstep

end

/-- A session settled at `first`, or a new one where that is where ids start. -/
def StartsAt (symbolLen first : Nat) (rx : Window) : Prop :=
  ∃ now, rx = (Window.new symbolLen now).skipTo first ∨ first = 0 ∧ rx = Window.new symbolLen now

theorem noLoss_init {connId windowMax step dt symbolLen first : Nat} {rx : Window}
    (hmax : windowMax < 2 ^ 16) (hfirst : first < 2 ^ 32) (hrx : StartsAt symbolLen first rx) :
    NoLoss (.nothing symbolLen first)
      (init (freshSender connId windowMax step dt symbolLen first) rx) := by
  have hholds : Holds (.nothing symbolLen first) [] rx := by
    obtain ⟨now, rfl | ⟨rfl, rfl⟩⟩ := hrx
    · exact ⟨rfl, rebaseTo_ok _ _, le_rfl, le_rfl, by simp [Stream.nothing],
        fun hne => absurd rfl hne⟩
    · exact ⟨rfl, decodesOk_new _ _, le_rfl, le_rfl, by simp [Stream.nothing], fun _ => rfl⟩
  refine ⟨⟨linkSends_init rx hmax hfirst, hholds⟩, fun id hid hlt => ?_, fun _ h => by cases h⟩
  exact absurd hlt (not_lt.mpr hid)

/-- Whatever is lost, repeated and reordered, every id the receiver has not
delivered is held at one of the two ends, and what it has delivered is a prefix
of what was sent: as long as a coding window's size fits its `u16`. -/
theorem undelivered_held {connId windowMax step dt symbolLen first : Nat} {rx : Window}
    {events : List LinkEvent} {s : Link} (hmax : windowMax < 2 ^ 16) (hfirst : first < 2 ^ 32)
    (hrx : StartsAt symbolLen first rx) (hok : EveryStep Link.step Link.Allowed
      (Link.init (freshSender connId windowMax step dt symbolLen first) rx) events)
    (hrun : run Link.step (Link.init (freshSender connId windowMax step dt symbolLen first) rx)
      events = some s) :
    (∀ id, first ≤ id → id < s.tx.enc.nextSourceId → s.rx.deliveredThrough ≤ id →
      s.tx.sent.contains id = true ∨ s.rx.dec.has id = true) ∧ s.delivered <+: s.items := by
  obtain ⟨stream, hgrows, hlink, hheld, -⟩ := run_carries Stream.Grows.refl Stream.Grows.trans
    (fun _ _ _ _ h => h.step) (noLoss_init hmax hfirst hrx) hok hrun
  cases hgrows.first_eq
  refine ⟨hheld, ?_⟩
  rw [hlink.items_eq, hlink.recv.delivered_eq]
  exact take_prefix ..

/-- The second of three symbols is lost; the third is selectively acknowledged
and freed by the sender. -/
def lostSecond : List LinkEvent :=
  [.send 0 [byte 5], .deliver 0 10, .service true 2000 1000, .send 2500 [byte 6],
    .send 2600 [byte 7], .deliver 2 2700, .service true 20000 1000, .pump 1 21000]

theorem undelivered_held_lostSecond :
    ∃ s, run Link.step (Link.init (freshSender 9 4 8 15 3 0) (new 3 0)) lostSecond = some s ∧
      s.delivered = [[byte 5]] ∧ s.tx.sent.contains 2 = false ∧
      (s.tx.sent.contains 2 = true ∨ s.rx.dec.has 2 = true) ∧ s.delivered <+: s.items := by
  have hok : EveryStep Link.step Link.Allowed
      (Link.init (freshSender 9 4 8 15 3 0) (new 3 0)) lostSecond := by decide +kernel
  have hlast : (run Link.step (Link.init (freshSender 9 4 8 15 3 0) (new 3 0))
      lostSecond).map (fun s => (s.tx.enc.nextSourceId, s.rx.deliveredThrough, s.delivered,
        s.tx.sent.contains 2)) = some (3, 1, [[byte 5]], false) := by
    decide +kernel
  obtain ⟨s, hrun, heq⟩ := map_eq_some_iff.mp hlast
  simp only [Prod.mk.injEq] at heq
  obtain ⟨hnext, hthrough, hdelivered, hsent⟩ := heq
  have h := undelivered_held (by decide) (by decide) ⟨0, .inr ⟨rfl, rfl⟩⟩ hok hrun
  exact ⟨s, hrun, hdelivered, hsent,
    h.1 2 (by decide) (by rw [hnext]; decide) (by rw [hthrough]; decide), h.2⟩

/-- The encoder after one item and `n` empty ones, none acknowledged. -/
def filled (m n : Nat) : RlcEncoder where
  window := (0, packSymbol [byte 1] 3) :: (List.range' 1 n).map fun id => (id, packSymbol [] 3)
  windowMax := m
  step := m
  dt := 15
  symbolLen := 3
  nextSourceId := n + 1
  sinceLastRepair := n + 1
  nextRepairKey := 0
  codingOn := true

theorem filled_window_push (m n : Nat) :
    (filled m n).window ++ [(n + 1, packSymbol [] 3)] = (filled m (n + 1)).window := by
  simp [filled, range'_concat, add_comm]

theorem filled_window_length (m n : Nat) : (filled m n).window.length = n + 1 := by simp [filled]

theorem filled_pushSource (hn : n + 2 ≤ m) (hm : m < 2 ^ 32) :
    (filled m n).pushSource (packSymbol [] 3) = if m ≤ n + 2 then
      let out := RlcEncoder.emitRepair { filled m (n + 1) with sinceLastRepair := 0 }
      (out.1, n + 1, some out.2) else (filled m (n + 1), n + 1, none) := by
  have hmod : (n + 1 + 1) % 2 ^ 32 = n + 2 := Nat.mod_eq_of_lt (by omega)
  unfold RlcEncoder.pushSource RlcEncoder.trimWindow
  simp only [show (filled m n).nextSourceId = n + 1 from rfl, filled_window_push,
    filled_window_length, show (filled m n).windowMax = m from rfl, hmod,
    show (filled m n).step = m from rfl, show (filled m n).sinceLastRepair = n + 1 from rfl,
    show (filled m n).codingOn = true from rfl, Bool.true_and, decide_eq_true_eq,
    show n + 1 + 1 - m = 0 by omega, drop_zero]
  rfl

theorem filled_push (hn : n + 2 < m) (hm : m < 2 ^ 32) :
    (filled m n).pushSource (packSymbol [] 3) = (filled m (n + 1), n + 1, none) := by
  rw [filled_pushSource (by omega) hm, if_neg (by omega)]

theorem filled_getD (m : Nat) (hi : i < n + 1) :
    (((filled m n).window.getD i (0, [])).2 : List Byte) =
      if i = 0 then packSymbol [byte 1] 3 else packSymbol [] 3 := by
  cases i with
  | zero => rfl
  | succ i =>
    rw [filled, getD_cons_succ, getD_eq_getElem?_getD, getElem?_map,
      getElem?_range' (by omega), if_neg (Nat.succ_ne_zero i)]
    rfl

/-- The one symbol that is not zero lies past the last tap. -/
theorem filled_payload (hn : n + 1 = m) (htaps : 64 < m) :
    accumulate m (fun i => fixedCoef (m - 1 - i) 15)
      (fun i => ((filled m n).window.getD i (0, [])).2) 3 = packSymbol [] 3 := by
  have hzero : ∀ b, (packSymbol [] 3).getD b 0 = 0 := fun b => getD_replicate_zero 3 b
  have hlen : ∀ i < m, (((filled m n).window.getD i (0, [])).2 : List Byte).length = 3 := by
    intro i hi
    rw [filled_getD m (by omega)]
    split <;> rfl
  have hget : ∀ b, (accumulate m (fun i => fixedCoef (m - 1 - i) 15)
      (fun i => ((filled m n).window.getD i (0, [])).2) 3).getD b 0 = (packSymbol [] 3).getD b 0 := by
    intro b
    rw [accumulate_getD hlen, hzero]
    refine Finset.sum_eq_zero fun i hi => ?_
    rw [filled_getD m (by have := Finset.mem_range.mp hi; omega)]
    split
    · subst i
      rw [fixedCoef, if_pos (by simp only [taps]; simp; omega)]
      exact zero_mul _
    · rw [hzero, mul_zero]
  exact ext_getD (accumulate_length ..) hget

theorem filled_wrap (hn : n + 2 = m) (hm : m < 2 ^ 32) (htaps : 64 < m) :
    ∃ e, (filled m n).pushSource (packSymbol [] 3) =
      (e, n + 1, some ⟨0, 0, m % 2 ^ 16, 31, packSymbol [] 3⟩) := by
  rw [filled_pushSource (by omega) hm, if_pos (by omega)]
  refine ⟨_, Prod.ext rfl (Prod.ext rfl (congrArg some ?_))⟩
  have hlen : (filled m (n + 1)).window.length = m := by
    rw [filled_window_length]
    omega
  simp only [RlcEncoder.emitRepair, hlen]
  rw [show (filled m (n + 1)).dt = 15 from rfl, show (filled m (n + 1)).symbolLen = 3 from rfl,
    filled_payload (by omega) htaps]
  rfl

/-- The link after one item and `n` empty ones, with nothing heard yet. -/
structure Filling (n : Nat) (s : Link) : Prop where
  enc : s.tx.enc = filled 65537 n
  symbolLen : s.tx.symbolLen = 3
  connId : s.tx.connId = 9
  wire : s.wire.length = n + 1
  rx : s.rx = Window.new 3 0
  items : s.items.head? = some [byte 1]
  delivered : s.delivered = []

theorem sendItemNow_empty {tx : RlcSender} (hlen : tx.symbolLen = 3)
    (hpush : tx.enc.pushSource (packSymbol [] 3) = (e, sid, repair)) :
    ∃ tx', tx.sendItemNow 0 [] = .ok (tx', dataFrame tx.connId sid 0 (packSymbol [] 3) ::
        repair.toList.flatMap fun r => onSocket (repairFrame tx.connId r)) ∧
      tx'.enc = e ∧ tx'.symbolLen = 3 ∧ tx'.connId = tx.connId := by
  have hfits : (dataFrame tx.connId sid 0 (packSymbol [] 3)).length ≤ maxDatagram := by
    rw [dataFrame, connFrame_length]
    simp [packSymbol, maxDatagram, lenPrefix]
  unfold sendItemNow
  simp only [hlen, hpush, sendData]
  rw [if_neg (by decide), if_pos hfits]
  exact ⟨_, rfl, rfl, rfl, rfl⟩

theorem Filling.send (hn : n + 2 < 65537) (h : Filling n s) :
    s.Allowed (.send 0 []) ∧ ∃ s', s.step (.send 0 []) = some s' ∧ Filling (n + 1) s' := by
  have hpush := h.enc ▸ filled_push hn (by decide)
  obtain ⟨tx', hsend, henc, hlen, hcid⟩ := sendItemNow_empty h.symbolLen hpush
  refine ⟨?_, { s with
    tx := tx'
    wire := s.wire ++ [dataFrame s.tx.connId (n + 1) 0 (packSymbol [] 3)]
    items := s.items ++ [[]] }, ?_, ?_⟩
  · change s.tx.enc.nextSourceId + 1 < 2 ^ 32
    rw [h.enc]
    change n + 1 + 1 < 2 ^ 32
    omega
  · rw [step, hsend]
    rfl
  · exact ⟨henc, hlen, hcid.trans h.connId, by simp [h.wire], h.rx, by simp [h.items], h.delivered⟩

/-- One more item fills the window past what its count can say. -/
theorem Filling.wrap (h : Filling 65535 s) :
    s.Allowed (.send 0 []) ∧ ∃ s', s.step (.send 0 []) = some s' ∧
      s'.wire[65537]? = some (repairFrame 9 ⟨0, 0, 1, 31, packSymbol [] 3⟩) ∧
      s'.rx = Window.new 3 0 ∧ s'.items.head? = some [byte 1] ∧ s'.delivered = [] := by
  obtain ⟨e, hwrap⟩ := filled_wrap (show 65535 + 2 = 65537 from rfl) (by decide) (by decide)
  obtain ⟨tx', hsend, -, -, -⟩ := sendItemNow_empty h.symbolLen (h.enc ▸ hwrap)
  rw [h.connId] at hsend
  refine ⟨?_, { s with
    tx := tx'
    wire := s.wire ++ [dataFrame 9 (65535 + 1) 0 (packSymbol [] 3),
      repairFrame 9 ⟨0, 0, 1, 31, packSymbol [] 3⟩]
    items := s.items ++ [[]] }, ?_, ?_, h.rx, by simp [h.items], h.delivered⟩
  · change s.tx.enc.nextSourceId + 1 < 2 ^ 32
    rw [h.enc]
    decide
  · rw [step, hsend]
    rfl
  · rw [getElem?_append_right (by rw [h.wire]; decide), h.wire]
    rfl

/-- All that arrives is the repair. -/
def wrappedWindow : List LinkEvent :=
  .send 0 [byte 1] :: (List.replicate 65535 (.send 0 []) ++
    [.send 0 [], .deliver 65537 0, .service true 2000 1000])

theorem wrapped_repair_delivers_wrong_item : EveryStep step Link.Allowed
        (init (freshSender 9 65537 65537 15 3 0) (Window.new 3 0)) wrappedWindow ∧
      ∃ s, run step (init (freshSender 9 65537 65537 15 3 0) (Window.new 3 0))
        wrappedWindow = some s ∧ ¬s.delivered <+: s.items := by
  have hheard : (((Window.new 3 0).process (repairFrame 9 ⟨0, 0, 1, 31, packSymbol [] 3⟩) 0).settled
        2000 1000).1.deliveredThrough =
        ((Window.new 3 0).process (repairFrame 9 ⟨0, 0, 1, 31, packSymbol [] 3⟩) 0).deliveredThrough ∧
      (((Window.new 3 0).process (repairFrame 9 ⟨0, 0, 1, 31, packSymbol [] 3⟩) 0).service true
        2000 1000).2.1 = [[]] := by
    decide +kernel
  have hfirst : Filling 0 { init (freshSender 9 65537 65537 15 3 0) (Window.new 3 0) with
      tx := { freshSender 9 65537 65537 15 3 0 with
        enc := filled 65537 0
        sent := Table.empty.insert 0 (packSymbol [byte 1] 3)
        probe := some (0, 0)
        lastTx := Table.empty.insert 0 0 }
      wire := [dataFrame 9 0 0 (packSymbol [byte 1] 3)]
      items := [[byte 1]] } := ⟨rfl, rfl, rfl, rfl, rfl, rfl, rfl⟩
  refine Reaches.cons (by decide) rfl (Reaches.replicate 65535 (fun i s hi h => ?_) (fun s h => ?_)
    hfirst)
  · exact h.send (by omega)
  obtain ⟨hok, s', hs', hwire, hrx, hitems, hdelivered⟩ := h.wrap
  refine .cons hok hs' (.cons trivial (by rw [step, hwire]) (.cons ?_ rfl (.nil ?_)))
  · rw [hrx]
    exact hheard.1
  rw [hrx, hdelivered]
  rw [hheard.2]
  rintro ⟨rest, hrest⟩
  rw [← hrest] at hitems
  exact cons_ne_nil _ _ (some.inj hitems).symm

end SubEtha.Rlc
