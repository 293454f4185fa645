import SubEtha.Unified.Switching

namespace SubEtha.Unified
open List Lib Transport UnifiedSensSender

/-- The replay ring is the end of the stream from its base on. -/
structure RingOk {α : Type} (s : Transport α) : Prop where
  total : s.tx.itemsTotal = s.items.length
  ring : s.tx.sentRing = s.items.drop s.tx.ringBase
  base_le : s.tx.ringBase ≤ s.items.length

section
variable {α : Type}

theorem RingOk.of_eq (h : RingOk s) (htotal : s'.tx.itemsTotal = s.tx.itemsTotal)
    (hring : s'.tx.sentRing = s.tx.sentRing) (hbase : s'.tx.ringBase = s.tx.ringBase)
    (hitems : s'.items = s.items) : RingOk s' :=
  ⟨by rw [htotal, hitems]; exact h.total, by rw [hring, hitems, hbase]; exact h.ring,
    by rw [hbase, hitems]; exact h.base_le⟩

theorem RingOk.record (h : RingOk s) (tx : UnifiedSensSender α)
    (htotal : tx.itemsTotal = s.tx.itemsTotal) (hring : tx.sentRing = s.tx.sentRing)
    (hbase : tx.ringBase = s.tx.ringBase) (htx : s'.tx = tx.record item)
    (hitems : s'.items = s.items ++ [item]) : RingOk s' := by
  obtain ⟨-, -, -, hcount⟩ := record_eq tx item
  obtain ⟨hdrop, hle⟩ := record_ring tx item
    (show tx.sentRing = s.items.drop tx.ringBase by rw [hring, hbase]; exact h.ring)
    (by rw [hbase]; exact h.base_le)
  refine ⟨?_, ?_, ?_⟩
  · simp [htx, hcount, htotal, h.total, hitems]
  · rw [htx, hitems]
    exact hdrop
  · rw [htx, hitems]
    exact hle

theorem RingOk.hand (h : RingOk s) (item : α) : RingOk (s.hand item) := by
  unfold Transport.hand
  split
  · exact h.record { s.tx with rlcNext := (s.tx.rlcNext + 1) % 2 ^ 32 } rfl rfl rfl rfl rfl
  · exact h.record s.tx rfl rfl rfl rfl rfl

theorem RingOk.switchTo (h : RingOk s) (target : SensCode) : RingOk (s.switchTo target) := by
  unfold Transport.switchTo doSwitch
  cases s.tx.active <;> cases target <;> exact h.of_eq rfl rfl rfl rfl

theorem RingOk.step (h : RingOk s) (hstep : s.step e = some s') : RingOk s' := by
  cases e with
  | send item escape =>
    cases hstep
    split
    · exact (h.switchTo .rs).hand item
    · exact h.hand item
  | forceSwitch target =>
    cases hstep
    split
    · exact h.switchTo target
    · exact h
  | ack | signal =>
    rw [Transport.step] at hstep
    split at hstep <;> cases hstep
    · exact h
    · exact h.of_eq rfl rfl rfl rfl
  | poll n =>
    cases hstep
    exact h.of_eq rfl rfl rfl rfl

/-- A ring that has lost unacknowledged items hands RS nothing. -/
theorem RingOk.handed_iff (h : RingOk s) :
    s.tx.switchRlcToRs.2.2 = s.items.drop s.tx.rlcAcked ↔ s.tx.ringBase ≤ s.tx.rlcAcked := by
  unfold switchRlcToRs
  dsimp only
  constructor
  · intro heq
    refine Nat.le_of_not_lt fun hbase => ?_
    rw [if_neg (Nat.not_le.mpr hbase)] at heq
    have hlen := congrArg length heq
    rw [length_nil, length_drop] at hlen
    have hle := h.base_le
    omega
  · intro hbase
    rw [if_pos hbase, h.ring, drop_drop, Nat.add_sub_cancel' hbase]

end

/-- In every state reached, the ring accounts for the items sent, and a switch to RS that
announces boundary `B` hands it the stream from `B` on exactly when the ring still has all
that RLC has not acknowledged. -/
theorem handover_hands_tail_iff {α : Type} {start : SensCode} {events : List (UnifiedEvent α)}
    {s : Transport α} (hrun : run step (init start) events = some s) :
    s.tx.itemsTotal = s.tx.ringBase + s.tx.sentRing.length ∧ s.tx.itemsTotal = s.items.length ∧
    (s.tx.active = .rlc → ∃ B,
      (s.switchTo .rs).announced = s.announced ++ [⟨⟨B, .rs⟩, s.rs.length⟩] ∧
      ((s.switchTo .rs).rs = s.rs ++ s.items.drop B ↔ s.tx.ringBase ≤ s.tx.rlcAcked)) := by
  have h : RingOk s := run_preserves (fun _ _ _ h hstep => RingOk.step h hstep)
    ⟨rfl, rfl, Nat.le_refl _⟩ hrun
  refine ⟨?_, h.total, fun hactive => ⟨s.tx.rlcAcked, ?_, ?_⟩⟩
  · rw [h.total, h.ring, length_drop]
    exact (Nat.add_sub_cancel' h.base_le).symm
  · rw [switchTo_rs hactive]
  · rw [switchTo_rs hactive]
    exact (append_cancel_left_eq ..).to_iff.trans h.handed_iff

/-- One item acknowledged, two still in flight at the switch. -/
theorem handover_hands_tail_iff_inFlight : ∃ s, run step (init .rlc)
        [.send 5 false, .poll 1, .ack 0, .send 6 false, .send 7 false] = some s ∧
      s.tx.active = .rlc ∧ s.tx.ringBase ≤ s.tx.rlcAcked ∧
      s.tx.itemsTotal = s.tx.ringBase + s.tx.sentRing.length ∧ s.tx.itemsTotal = s.items.length ∧
      (s.tx.active = .rlc → ∃ B,
        (s.switchTo .rs).announced = s.announced ++ [⟨⟨B, .rs⟩, s.rs.length⟩] ∧
        ((s.switchTo .rs).rs = s.rs ++ s.items.drop B ↔ s.tx.ringBase ≤ s.tx.rlcAcked)) := by
  have hlast : ((run step (init .rlc)
      [.send 5 false, .poll 1, .ack 0, .send 6 false, .send 7 false]).map
      fun s => (s.tx.active, decide (s.tx.ringBase ≤ s.tx.rlcAcked))) = some (.rlc, true) := by
    decide +kernel
  obtain ⟨s, hrun, heq⟩ := Option.map_eq_some_iff.mp hlast
  simp only [Prod.mk.injEq, decide_eq_true_eq] at heq
  exact ⟨s, hrun, heq.1, heq.2, handover_hands_tail_iff hrun⟩

/-- `n` items sent over RLC of which none has been acknowledged. -/
structure Unacked (n : Nat) (s : Transport Nat) : Prop where
  active : s.tx.active = .rlc
  ring : s.tx.sentRing.length = min n sentRingCap
  base : s.tx.ringBase = n - sentRingCap
  acked : s.tx.rlcAcked = 0
  rx : s.rx = .new .rlc
  rs : s.rs = []
  announced : s.announced = []
  items : s.items = replicate n 0
  delivered : s.delivered = []

theorem evictAcked_unacked {tx : UnifiedSensSender Nat} (hacked : tx.rlcAcked = 0) :
    tx.evictAcked = tx := by
  unfold evictAcked
  split
  · rw [hacked, Nat.zero_sub, Nat.zero_min]
    rfl
  · rfl

theorem record_unacked (tx : UnifiedSensSender Nat) (hacked : tx.rlcAcked = 0) (item : Nat) :
    (tx.record item).ringBase = tx.ringBase + (tx.sentRing.length + 1 - sentRingCap) ∧
      (tx.record item).sentRing.length = min (tx.sentRing.length + 1) sentRingCap := by
  have hevict : { tx with
      sentRing := tx.sentRing ++ [item], itemsTotal := tx.itemsTotal + 1 }.evictAcked = { tx with
      sentRing := tx.sentRing ++ [item], itemsTotal := tx.itemsTotal + 1 } :=
    evictAcked_unacked hacked
  unfold record trimSentRing
  rw [hevict]
  simp only [dropFront, length_append, length_singleton, length_drop, true_and]
  omega

theorem Unacked.send (h : Unacked n s) :
    ∃ s', s.step (.send 0 false) = some s' ∧ Unacked (n + 1) s' := by
  refine ⟨_, rfl, ?_⟩
  rw [if_neg (by rintro ⟨h, -⟩; cases h)]
  unfold hand
  rw [h.active]
  have hacked := h.acked
  obtain ⟨hact, hacked', -, -⟩ := record_eq { s.tx with rlcNext := (s.tx.rlcNext + 1) % 2 ^ 32 } 0
  obtain ⟨hbase, hring⟩ :=
    record_unacked { s.tx with rlcNext := (s.tx.rlcNext + 1) % 2 ^ 32 } hacked 0
  have hlength : min (s.tx.sentRing.length + 1) sentRingCap = min (n + 1) sentRingCap := by
    rw [h.ring]
    omega
  have hstart : s.tx.ringBase + (s.tx.sentRing.length + 1 - sentRingCap) = n + 1 - sentRingCap := by
    rw [h.base, h.ring]
    omega
  refine ⟨hact.trans h.active, hring.trans hlength, hbase.trans hstart, hacked'.trans hacked, h.rx,
    h.rs, h.announced, ?_, h.delivered⟩
  rw [h.items, replicate_succ']

/-- Enough items in flight that the ring has lost the oldest, then the switch, its
announcement and one more item. -/
def capEvicts : List (UnifiedEvent Nat) :=
  replicate 65537 (.send 0 false) ++
    [.forceSwitch .rs, .signal 0, .poll 0, .send 1 false, .poll 1]

/-- Nothing of the 65537 items is handed to RS, and the receiver takes the item after them
for the first one. -/
theorem cap_evicted_tail_lost :
    ∃ s, run step (init .rlc) capEvicts = some s ∧ s.items = replicate 65537 0 ++ [1] ∧
      s.announced = [⟨⟨0, .rs⟩, 0⟩] ∧ s.rs = [1] ∧ s.delivered = [1] := by
  have hreach : Reaches step (fun _ _ => True) (init .rlc) capEvicts fun s =>
      s.items = replicate 65537 0 ++ [1] ∧
      s.announced = [⟨⟨0, .rs⟩, 0⟩] ∧ s.rs = [1] ∧ s.delivered = [1] := by
    refine Reaches.replicate (P := Unacked) 65537 (fun _ _ _ h => ⟨trivial, h.send⟩) (fun s h => ?_)
      ⟨rfl, rfl, rfl, rfl, rfl, rfl, rfl, rfl, rfl⟩
    obtain ⟨⟨active, ring, base, total, next, acked⟩, rx, rlc, rs, announced, acks, items,
      delivered⟩ := s
    obtain ⟨rfl, -, rfl, rfl, rfl, rfl, rfl, rfl, rfl⟩ := h
    exact .cons trivial rfl (.cons trivial rfl (.cons trivial rfl (.cons trivial rfl
      (.cons trivial rfl (.nil ⟨rfl, rfl, rfl, rfl⟩)))))
  exact hreach.2

end SubEtha.Unified
