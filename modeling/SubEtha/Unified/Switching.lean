import SubEtha.Unified.Model

namespace SubEtha.Unified
open List Option Lib UnifiedSensSender UnifiedSensReceiver

/-- RS carries, from its position `r` on, the stream from index `b` on without a
gap, and will go on to do so. -/
structure Aligned {α : Type} (items rs : List α) (tx : UnifiedSensSender α) (r b : Nat) :
    Prop where
  rs_le : r ≤ rs.length
  carries : rs.drop r <+: items.drop b
  onRs : tx.active = .rs → b + (rs.length - r) = items.length
  onRlc : tx.active = .rlc → b + (rs.length - r) = tx.rlcAcked

structure SenderOk {α : Type} (s : Transport α) : Prop where
  total : s.tx.itemsTotal = s.items.length
  small : s.items.length < 2 ^ 32
  ring : s.tx.sentRing = s.items.drop s.tx.ringBase
  base_le : s.tx.ringBase ≤ s.items.length
  next : s.tx.active = .rlc → s.tx.rlcNext = s.items.length
  acked_le : s.tx.rlcAcked ≤ s.items.length
  rlc : ∀ id item, s.rlc.get? id = some item → s.items[id]? = some item
  last : ∀ a, s.announced.getLast? = some a → a.target = s.tx.active

theorem not_both {P : Prop} {c : SensCode} (h : c = .rlc) (h' : c = .rs) : P :=
  nomatch h.symm.trans h'

section
variable {α : Type} {s : Transport α}

section
variable (tx : UnifiedSensSender α)
include tx

theorem evictAcked_eq : ∃ n ≤ tx.sentRing.length, tx.evictAcked = tx.dropFront n := by
  unfold evictAcked
  split
  · exact ⟨_, Nat.min_le_right .., rfl⟩
  · exact ⟨0, Nat.zero_le _, by rw [dropFront, drop_zero]; rfl⟩

theorem trimSentRing_eq : ∃ n ≤ tx.sentRing.length, tx.trimSentRing = tx.dropFront n := by
  obtain ⟨n, hn, hevict⟩ := evictAcked_eq tx
  unfold trimSentRing
  rw [hevict]
  generalize hm : (tx.dropFront n).sentRing.length - sentRingCap = m
  have hle : m ≤ (tx.dropFront n).sentRing.length := hm ▸ Nat.sub_le ..
  rw [dropFront, length_drop] at hle
  refine ⟨n + m, by omega, ?_⟩
  rw [dropFront, dropFront, dropFront, drop_drop, add_assoc]

theorem record_eq (item : α) :
    (tx.record item).active = tx.active ∧ (tx.record item).rlcAcked = tx.rlcAcked ∧
      (tx.record item).rlcNext = tx.rlcNext ∧ (tx.record item).itemsTotal = tx.itemsTotal + 1 := by
  obtain ⟨n, -, htrim⟩ := trimSentRing_eq
    { tx with sentRing := tx.sentRing ++ [item], itemsTotal := tx.itemsTotal + 1 }
  rw [record, htrim]
  exact ⟨rfl, rfl, rfl, rfl⟩

theorem record_ring (item : α) (hring : tx.sentRing = items.drop tx.ringBase)
    (hbase : tx.ringBase ≤ items.length) :
    (tx.record item).sentRing = (items ++ [item]).drop (tx.record item).ringBase ∧
      (tx.record item).ringBase ≤ (items ++ [item]).length := by
  have hpush : tx.sentRing ++ [item] = (items ++ [item]).drop tx.ringBase := by
    rw [hring, drop_append_of_le_length hbase]
  obtain ⟨n, hn, htrim⟩ := trimSentRing_eq
    { tx with sentRing := tx.sentRing ++ [item], itemsTotal := tx.itemsTotal + 1 }
  rw [record, htrim]
  refine ⟨?_, ?_⟩
  · rw [dropFront, hpush, drop_drop]
  rw [hpush, length_drop, length_append, length_singleton] at hn
  change tx.ringBase + n ≤ _
  rw [length_append, length_singleton]
  omega

end

theorem Aligned.hand (h : Aligned s.items s.rs s.tx r b) (item : α) :
    Aligned (s.hand item).items (s.hand item).rs (s.hand item).tx r b := by
  unfold Transport.hand
  split
  · rename_i hactive
    obtain ⟨hact, hacked, -, -⟩ :=
      record_eq { s.tx with rlcNext := (s.tx.rlcNext + 1) % 2 ^ 32 } item
    refine ⟨h.rs_le, h.carries.trans ?_, not_both (hact.trans hactive), fun _ => ?_⟩
    · rw [drop_append]
      exact prefix_append ..
    · rw [hacked]
      exact h.onRlc hactive
  rename_i hactive
  obtain ⟨hact, hacked, -, -⟩ := record_eq s.tx item
  have hend := h.onRs hactive
  have hrs := h.rs_le
  refine ⟨?_, ?_, fun _ => ?_, fun hrlc => not_both hrlc (hact.trans hactive)⟩
  · rw [length_append]
    omega
  · obtain ⟨rest, hrest⟩ := h.carries
    have hlen := congrArg length hrest
    simp only [length_append, length_drop] at hlen
    obtain rfl : rest = [] := eq_nil_of_length_eq_zero (by omega)
    rw [append_nil] at hrest
    refine ⟨[], ?_⟩
    rw [append_nil, drop_append_of_le_length hrs, drop_append_of_le_length (by omega), hrest]
  · simp only [length_append, length_singleton]
    omega

section
variable (h : SenderOk s) (hsmall : s.items.length + 1 < 2 ^ 32) (item : α)
include h hsmall

/-- The books after an item is recorded; `n` is RLC's next id. -/
theorem SenderOk.record (hnext : s.tx.active = .rlc → n = s.items.length + 1)
    (hrlc : ∀ id x, t.get? id = some x → id = s.items.length ∧ x = item ∨ s.rlc.get? id = some x) :
    SenderOk { s with
        tx := { s.tx with rlcNext := n }.record item, rlc := t, rs := rs
        items := s.items ++ [item] } := by
  obtain ⟨hact, hacked, hid, htotal⟩ := record_eq { s.tx with rlcNext := n } item
  obtain ⟨hring, hbase⟩ := record_ring { s.tx with rlcNext := n } item h.ring h.base_le
  refine ⟨?_, ?_, hring, hbase, fun hactive => ?_, ?_, fun id x hx => ?_, fun a ha =>
    (h.last a ha).trans hact.symm⟩
  · rw [htotal, length_append]
    exact congrArg (· + 1) h.total
  · rw [length_append]
    exact hsmall
  · rw [hid, length_append]
    exact hnext (hact.symm.trans hactive)
  · rw [hacked, length_append]
    exact Nat.le_succ_of_le h.acked_le
  rcases hrlc id x hx with ⟨rfl, rfl⟩ | hx
  · exact getElem?_concat_length
  have hid := h.rlc id x hx
  rw [getElem?_append_left (List.getElem_of_getElem? hid).1]
  exact hid

theorem SenderOk.hand : SenderOk (s.hand item) := by
  unfold Transport.hand
  split
  · rename_i hactive
    have hnext := h.next hactive
    refine h.record hsmall item (fun _ => ?_) fun id x hx => ?_
    · rw [hnext, Nat.mod_eq_of_lt hsmall]
    · rw [← hnext]
      exact (Table.get?_insert_some hx).imp_right And.right
  · rename_i hactive
    exact h.record hsmall item (fun hrlc => not_both hrlc hactive) fun _ _ => .inr

end

/-- What a switch to RS puts there: all that RLC has not confirmed. -/
theorem switchRlcToRs_resends (h : SenderOk s) (hring : s.tx.ringBase ≤ s.tx.rlcAcked) :
    s.tx.switchRlcToRs.2.2 = s.items.drop s.tx.rlcAcked := by
  unfold switchRlcToRs
  dsimp only
  rw [if_pos hring, h.ring, drop_drop, Nat.add_sub_cancel' hring]

theorem switchTo_rs (hactive : s.tx.active = .rlc) : s.switchTo .rs = { s with
      tx := { s.tx with active := .rs }
      announced := s.announced ++ [⟨⟨s.tx.rlcAcked, .rs⟩, s.rs.length⟩]
      rs := s.rs ++ s.tx.switchRlcToRs.2.2 } := by
  unfold Transport.switchTo doSwitch
  rw [hactive]
  rfl

section
variable (h : SenderOk s)
include h

theorem switchTo_rlc (hactive : s.tx.active = .rs) : s.switchTo .rlc = { s with
      tx := { s.tx with
        active := .rlc, rlcNext := s.items.length, rlcAcked := s.items.length }
      announced := s.announced ++ [⟨⟨s.items.length, .rlc⟩, s.rs.length⟩] } := by
  have hmod : s.items.length % 2 ^ 32 = s.items.length := Nat.mod_eq_of_lt h.small
  unfold Transport.switchTo doSwitch
  rw [hactive]
  simp only [doSwitchWithDrain, h.total, hmod, append_nil]

theorem Aligned.switchTo_rs (hactive : s.tx.active = .rlc) (hring : s.tx.ringBase ≤ s.tx.rlcAcked)
    (ha : Aligned s.items s.rs s.tx r b) :
    Aligned (s.switchTo .rs).items (s.switchTo .rs).rs (s.switchTo .rs).tx r b := by
  have hend := ha.onRlc hactive
  have hrs := ha.rs_le
  have hacked := h.acked_le
  rw [Unified.switchTo_rs hactive, switchRlcToRs_resends h hring]
  refine ⟨?_, ?_, fun _ => ?_, nofun⟩
  · rw [length_append]
    omega
  · obtain ⟨rest, hrest⟩ := ha.carries
    have htail : s.items.drop s.tx.rlcAcked = rest := by
      have := congrArg (drop (s.rs.length - r)) hrest
      rw [drop_left' (length_drop ..), drop_drop, hend] at this
      exact this.symm
    refine ⟨[], ?_⟩
    simp [drop_append_of_le_length hrs, htail, hrest]
  · simp only [length_append, length_drop]
    omega

theorem Aligned.switchTo_rlc (hactive : s.tx.active = .rs) (ha : Aligned s.items s.rs s.tx r b) :
    Aligned (s.switchTo .rlc).items (s.switchTo .rlc).rs (s.switchTo .rlc).tx r b := by
  rw [Unified.switchTo_rlc h hactive]
  exact ⟨ha.rs_le, ha.carries, nofun, fun _ => ha.onRs hactive⟩

theorem aligned_switchTo_rs (hactive : s.tx.active = .rlc) (hring : s.tx.ringBase ≤ s.tx.rlcAcked) :
    Aligned (s.switchTo .rs).items (s.switchTo .rs).rs (s.switchTo .rs).tx s.rs.length
      s.tx.rlcAcked := by
  refine Aligned.switchTo_rs h hactive hring ⟨Nat.le_refl _, ?_, not_both hactive, fun _ => ?_⟩
  · rw [drop_length]
    exact nil_prefix
  · simp

theorem SenderOk.switchTo_rs (hactive : s.tx.active = .rlc) : SenderOk (s.switchTo .rs) := by
  rw [Unified.switchTo_rs hactive]
  exact { h with
    next := nofun
    last := fun a ha => by
      rw [getLast?_concat] at ha
      exact some.inj ha ▸ rfl }

theorem SenderOk.switchTo_rlc (hactive : s.tx.active = .rs) : SenderOk (s.switchTo .rlc) := by
  rw [Unified.switchTo_rlc h hactive]
  exact { h with
    next := fun _ => rfl
    acked_le := Nat.le_refl _
    last := fun a ha => by
      rw [getLast?_concat] at ha
      exact some.inj ha ▸ rfl }

end
end

namespace Transport

variable {α : Type} (s : Transport α)

/-- The `k`th announcement is `c`, RS stands where it stood then, and the stream
has not been delivered past the switch that followed. -/
def Opens (rx : UnifiedSensReceiver) (c : CodeSwitch) (k : Nat) : Bool :=
  (s.announced[k]?).any fun a =>
    a.toCodeSwitch = c && a.rsBefore = rx.rsTaken &&
      (s.announced[k + 1]?).all fun next => rx.deliveredTotal ≤ next.boundary

/-- The announcement is not stale: delivery stands at its boundary, or RS at
the start of its stretch. -/
def Fits (rx : UnifiedSensReceiver) (c : CodeSwitch) : Prop :=
  match c.target with
  | .rlc => c.boundary = rx.deliveredTotal
  | .rs => ∃ k < s.announced.length, s.Opens rx c k = true

instance (s : Transport α) (rx : UnifiedSensReceiver) : DecidablePred (s.Fits rx) := fun c => by
  unfold Fits
  split <;> infer_instance

/-- The ring still has what RLC has not confirmed. -/
def RingHolds : Prop := s.tx.active = .rlc → s.tx.ringBase ≤ s.tx.rlcAcked
deriving Decidable

/-- Fewer than 2^32 items, no switch to RS with part of the unconfirmed tail
evicted, and the receiver acts on no stale announcement. -/
def Allowed : UnifiedEvent α → Prop
  | .send _ escape => s.items.length + 1 < 2 ^ 32 ∧ (escape = true → s.RingHolds)
  | .forceSwitch target => target = .rs → s.RingHolds
  | .poll n =>
    ∀ c ∈ (s.rx.pickUp.drive s.rlc s.rs n).1.acts, s.Fits (s.rx.pickUp.drive s.rlc s.rs n).1 c
  | .ack _ | .signal _ => True

instance Allowed.decidable : DecidablePred s.Allowed := fun e => by
  cases e <;> unfold Allowed <;> infer_instance

end Transport

/-- Delivery is past the switch that ended the stretch, or RS is still aligned
with it. -/
def Stretch {α : Type} (s : Transport α) (k : Nat) (a : Announced) : Prop :=
  (∃ next, s.announced[k + 1]? = some next ∧ next.boundary < s.rx.deliveredTotal) ∨
    Aligned s.items s.rs s.tx a.rsBefore a.boundary ∧
      ∀ next, s.announced[k + 1]? = some next →
        next.boundary ≤ a.boundary + (s.rs.length - a.rsBefore)

structure ReceiverOk {α : Type} (s : Transport α) (rx : UnifiedSensReceiver)
    (delivered : List α) : Prop where
  delivered_eq : delivered = s.items.take rx.deliveredTotal
  delivered_le : rx.deliveredTotal ≤ s.items.length
  through_le : rx.rlcThrough ≤ rx.deliveredTotal
  onRlc : rx.active = .rlc → rx.rlcThrough = rx.deliveredTotal
  onRs : rx.active = .rs → Aligned s.items s.rs s.tx rx.rsTaken rx.rsNextGlobal
  rs_le : rx.active = .rs → rx.rsNextGlobal ≤ rx.deliveredTotal

structure SwitchOk {α : Type} (s : Transport α) : Prop where
  sender : SenderOk s
  receiver : ReceiverOk s s.rx s.delivered
  acks_le : ∀ a ∈ s.acks, a ≤ s.rx.deliveredTotal
  acks_onRs : s.rx.active = .rs → ∀ a ∈ s.acks,
    a ≤ s.rx.rsNextGlobal + (s.rs.length - s.rx.rsTaken)
  stretch : ∀ k a, s.announced[k]? = some a → a.target = .rs → Stretch s k a

section
variable {α : Type} {delivered : List α}

theorem take_succ_of_getElem? {l : List α} (h : l[n]? = some x) :
    l.take (n + 1) = l.take n ++ [x] := by
  rw [take_add_one, h]
  rfl

theorem ReceiverOk.pollRlc (hs : SenderOk s) (n : Nat) (h : ReceiverOk s rx delivered)
    (hactive : rx.active = .rlc) : let out := pollRlc s.rlc n rx
    ReceiverOk s out.1 (delivered ++ out.2) ∧ out.1.active = .rlc ∧
      rx.deliveredTotal ≤ out.1.deliveredTotal := by
  induction n generalizing rx delivered with
  | zero => exact ⟨by simpa [pollRlc] using h, hactive, Nat.le_refl _⟩
  | succ n ih =>
    rw [pollRlc]
    split
    · exact ⟨by simpa using h, hactive, Nat.le_refl _⟩
    rename_i item hitem
    have hthrough := h.onRlc hactive
    have hget := hs.rlc _ _ hitem
    rw [hthrough] at hget
    have hlt := (List.getElem_of_getElem? hget).1
    have hmod : (rx.rlcThrough + 1) % 2 ^ 32 = rx.deliveredTotal + 1 := by
      rw [hthrough]
      exact Nat.mod_eq_of_lt (Nat.lt_of_le_of_lt hlt hs.small)
    have hstep : ReceiverOk s { rx with
        rlcThrough := (rx.rlcThrough + 1) % 2 ^ 32, deliveredTotal := rx.deliveredTotal + 1 }
        (delivered ++ [item]) := by
      rw [hmod]
      refine ⟨?_, hlt, Nat.le_refl _, fun _ => rfl, not_both hactive, not_both hactive⟩
      rw [take_succ_of_getElem? hget, h.delivered_eq]
    obtain ⟨hout, hact, hle⟩ := ih hstep hactive
    rw [append_assoc] at hout
    exact ⟨hout, hact, Nat.le_trans (Nat.le_succ _) hle⟩

theorem Aligned.next (h : Aligned items rs tx r b) (hlt : r < rs.length) :
    Aligned items rs tx (r + 1) (b + 1) := by
  obtain ⟨rest, hrest⟩ := h.carries
  refine ⟨hlt, ⟨rest, ?_⟩, fun hrs => ?_, fun hrlc => ?_⟩
  · have := congrArg (drop 1) hrest
    rw [drop_append_of_le_length (by rw [length_drop]; omega), drop_drop, drop_drop] at this
    exact this
  · have := h.onRs hrs
    omega
  · have := h.onRlc hrlc
    omega

/-- RS delivers from where the stream stands, and drops what came before. -/
theorem ReceiverOk.pollRs (batch : List α) (h : ReceiverOk s rx delivered)
    (hactive : rx.active = .rs) (hbatch : batch <+: s.rs.drop rx.rsTaken) :
    let out := pollRs batch rx
    ReceiverOk s out.1 (delivered ++ out.2) ∧ out.1.active = .rs ∧
      rx.deliveredTotal ≤ out.1.deliveredTotal ∧
      out.1.rsNextGlobal + (s.rs.length - out.1.rsTaken) =
        rx.rsNextGlobal + (s.rs.length - rx.rsTaken) := by
  induction batch generalizing rx delivered with
  | nil => exact ⟨by simpa [pollRs] using h, hactive, Nat.le_refl _, rfl⟩
  | cons item batch ih =>
    have halign := h.onRs hactive
    have hrs := h.rs_le hactive
    obtain ⟨rest, hrest⟩ := hbatch
    have hlt : rx.rsTaken < s.rs.length := by
      have := congrArg length hrest
      simp only [length_append, length_cons, length_drop] at this
      omega
    have htail : batch <+: s.rs.drop (rx.rsTaken + 1) := by
      refine ⟨rest, ?_⟩
      have := congrArg (drop 1) hrest
      rw [drop_drop] at this
      exact this
    have hnext := halign.next hlt
    rw [pollRs]
    split
    · rename_i hreach
      have heq : rx.rsNextGlobal = rx.deliveredTotal := Nat.le_antisymm hrs hreach
      have hget : s.items[rx.deliveredTotal]? = some item := by
        obtain ⟨more, hmore⟩ := halign.carries
        have := congrArg head? hmore
        rw [← hrest, heq, head?_drop] at this
        exact this.symm
      have hstep : ReceiverOk s { rx with
          rsNextGlobal := rx.rsNextGlobal + 1, rsTaken := rx.rsTaken + 1,
          deliveredTotal := rx.deliveredTotal + 1 } (delivered ++ [item]) := by
        refine ⟨?_, (List.getElem_of_getElem? hget).1, Nat.le_succ_of_le h.through_le,
          fun hrlc => not_both hrlc hactive, fun _ => hnext, fun _ => Nat.succ_le_succ hrs⟩
        rw [take_succ_of_getElem? hget, h.delivered_eq]
      obtain ⟨hout, hact, hle, hend⟩ := ih hstep hactive htail
      rw [append_assoc] at hout
      refine ⟨hout, hact, Nat.le_trans (Nat.le_succ _) hle, hend.trans ?_⟩
      change rx.rsNextGlobal + 1 + (s.rs.length - (rx.rsTaken + 1)) = _
      omega
    · rename_i hreach
      have hstep : ReceiverOk s { rx with
          rsNextGlobal := rx.rsNextGlobal + 1, rsTaken := rx.rsTaken + 1 } delivered :=
        { h with
          onRlc := fun hrlc => not_both hrlc hactive, onRs := fun _ => hnext
          rs_le := fun _ => Nat.lt_of_not_le hreach }
      obtain ⟨hout, hact, hle, hend⟩ := ih hstep hactive htail
      refine ⟨hout, hact, hle, hend.trans ?_⟩
      change rx.rsNextGlobal + 1 + (s.rs.length - (rx.rsTaken + 1)) = _
      omega

theorem ReceiverOk.pickUp (h : ReceiverOk s rx delivered) : ReceiverOk s rx.pickUp delivered := by
  unfold UnifiedSensReceiver.pickUp
  split
  · exact { h with }
  · exact h

theorem pickUp_eq (rx : UnifiedSensReceiver) :
    rx.pickUp.active = rx.active ∧ rx.pickUp.deliveredTotal = rx.deliveredTotal ∧
      rx.pickUp.rsNextGlobal = rx.rsNextGlobal ∧ rx.pickUp.rsTaken = rx.rsTaken := by
  unfold pickUp
  split <;> exact ⟨rfl, rfl, rfl, rfl⟩

theorem ReceiverOk.drive (hs : SenderOk s) (h : ReceiverOk s rx delivered) (n : Nat) :
    let out := rx.drive s.rlc s.rs n
    ReceiverOk s out.1 (delivered ++ out.2) ∧ out.1.active = rx.active ∧
      rx.deliveredTotal ≤ out.1.deliveredTotal ∧
      (rx.active = .rs → out.1.rsNextGlobal + (s.rs.length - out.1.rsTaken) =
        rx.rsNextGlobal + (s.rs.length - rx.rsTaken)) := by
  unfold UnifiedSensReceiver.drive
  cases hactive : rx.active with
  | rlc =>
    obtain ⟨hout, hact, hle⟩ := h.pollRlc hs n hactive
    exact ⟨hout, hact, hle, nofun⟩
  | rs =>
    obtain ⟨hout, hact, hle, hend⟩ := h.pollRs _ hactive (List.take_prefix n _)
    exact ⟨hout, hact, hle, fun _ => hend⟩

end

section
variable {α : Type} {s : Transport α}

theorem getLast?_of_next_none {l : List α} (h : l[k]? = some a) (hnext : l[k + 1]? = none) :
    l.getLast? = some a := by
  have hlt := (List.getElem_of_getElem? h).1
  have hle := getElem?_eq_none_iff.mp hnext
  rw [getLast?_eq_getElem?, show l.length - 1 = k by omega, h]

theorem SwitchOk.fits_rs (h : SwitchOk s) {rx : UnifiedSensReceiver}
    (hrx : ReceiverOk s rx delivered) (hle : s.rx.deliveredTotal ≤ rx.deliveredTotal)
    (hto : c.target = .rs) (hfits : s.Fits rx c) :
    Aligned s.items s.rs s.tx rx.rsTaken c.boundary ∧
      rx.deliveredTotal ≤ c.boundary + (s.rs.length - rx.rsTaken) := by
  unfold Transport.Fits at hfits
  rw [hto] at hfits
  obtain ⟨k, -, hopens⟩ := hfits
  unfold Transport.Opens at hopens
  cases hk : s.announced[k]? with
  | none =>
    rw [hk] at hopens
    cases hopens
  | some a =>
    rw [hk] at hopens
    simp only [any_some, Bool.and_eq_true, decide_eq_true_eq] at hopens
    obtain ⟨⟨rfl, hrs⟩, hnext⟩ := hopens
    rw [← hrs]
    rcases h.stretch k a hk hto with ⟨next, hsome, hpast⟩ | ⟨halign, hend⟩
    · rw [hsome, all_some, decide_eq_true_eq] at hnext
      omega
    refine ⟨halign, ?_⟩
    cases hsome : s.announced[k + 1]? with
    | none =>
      have hactive := (h.sender.last a (getLast?_of_next_none hk hsome)).symm.trans hto
      rw [halign.onRs hactive]
      exact hrx.delivered_le
    | some next =>
      rw [hsome, all_some, decide_eq_true_eq] at hnext
      exact Nat.le_trans hnext (hend next hsome)

/-- After a poll the receiver stands where the stream does, whether it acted on
an announcement or not. -/
theorem SwitchOk.honorSwitch (h : SwitchOk s) (hrx : ReceiverOk s rx delivered)
    (hle : s.rx.deliveredTotal ≤ rx.deliveredTotal) (hfits : ∀ c ∈ rx.acts, s.Fits rx c) :
    ReceiverOk s rx.honorSwitch delivered ∧ rx.honorSwitch.deliveredTotal = rx.deliveredTotal ∧
      (rx.honorSwitch.active = .rs →
        rx.active = .rs ∧ rx.honorSwitch.rsNextGlobal = rx.rsNextGlobal ∧
          rx.honorSwitch.rsTaken = rx.rsTaken ∨ rx.deliveredTotal ≤
          rx.honorSwitch.rsNextGlobal + (s.rs.length - rx.honorSwitch.rsTaken)) := by
  unfold UnifiedSensReceiver.honorSwitch
  split
  · exact ⟨hrx, rfl, fun hrs => .inl ⟨hrs, rfl, rfl⟩⟩
  rename_i c hpending
  split
  · rename_i hreach
    by_cases hto : c.target ≠ rx.active
    · have hacts : c ∈ rx.acts := by
        rw [acts, hpending]
        exact filter_eq_some_iff.mpr ⟨rfl, by simp [hreach, hto]⟩
      have hfit := hfits c hacts
      rw [if_pos hto]
      unfold switchTo
      split
      · rename_i hrs
        obtain ⟨halign, hend⟩ := h.fits_rs hrx hle hrs hfit
        exact ⟨{ hrx with
          onRlc := nofun, onRs := fun _ => halign
          rs_le := fun _ => hreach }, rfl, fun _ => .inr hend⟩
      rename_i hrlc
      unfold Transport.Fits at hfit
      rw [hrlc] at hfit
      have hmod : c.boundary % 2 ^ 32 = rx.deliveredTotal := by
        rw [show c.boundary = rx.deliveredTotal from hfit]
        exact Nat.mod_eq_of_lt (Nat.lt_of_le_of_lt hrx.delivered_le h.sender.small)
      exact ⟨⟨hrx.delivered_eq, hrx.delivered_le, Nat.le_of_eq hmod, fun _ => hmod,
        nofun, nofun⟩, rfl, nofun⟩
    · rw [if_neg hto]
      exact ⟨{ hrx with }, rfl, fun hrs => .inl ⟨hrs, rfl, rfl⟩⟩
  · exact ⟨hrx, rfl, fun hrs => .inl ⟨hrs, rfl, rfl⟩⟩

theorem SwitchOk.poll (h : SwitchOk s) (hok : s.Allowed (.poll n))
    (hstep : s.step (.poll n) = some s') : SwitchOk s' := by
  cases hstep
  obtain ⟨hact, htotal, hglobal, htaken⟩ := pickUp_eq s.rx
  obtain ⟨hdrive, hactive, hle, hend⟩ := h.receiver.pickUp.drive h.sender n
  rw [htotal] at hle
  rw [hact, hglobal, htaken] at hend
  rw [hact] at hactive
  obtain ⟨hrx, hsame, honRs⟩ := h.honorSwitch hdrive hle hok
  have hacks : ∀ a ∈ s.acks ++ (match s.rx.active with
      | .rlc => [(s.rx.pickUp.drive s.rlc s.rs n).1.rlcThrough]
      | .rs => []), a ≤ (s.rx.pickUp.drive s.rlc s.rs n).1.deliveredTotal := by
    intro a ha
    rcases mem_append.mp ha with ha | ha
    · exact Nat.le_trans (h.acks_le a ha) hle
    split at ha
    · rw [mem_singleton.mp ha]
      exact hdrive.through_le
    · cases ha
  refine ⟨{ h.sender with }, { hrx with },
    fun a ha => Nat.le_trans (hacks a ha) (Nat.le_of_eq hsame.symm), fun hrs a ha => ?_,
    fun k a hk hto => ?_⟩
  · rcases honRs hrs with ⟨hstay, hsameNext, hsameTaken⟩ | hreach
    · have hrsOld : s.rx.active = .rs := hactive.symm.trans hstay
      rw [hrsOld, append_nil] at ha
      change a ≤ (s.rx.pickUp.drive s.rlc s.rs n).1.honorSwitch.rsNextGlobal +
        (s.rs.length - (s.rx.pickUp.drive s.rlc s.rs n).1.honorSwitch.rsTaken)
      rw [hsameNext, hsameTaken, hend hrsOld]
      exact h.acks_onRs hrsOld a ha
    · exact Nat.le_trans (hacks a ha) hreach
  · refine (h.stretch k a hk hto).imp_left fun ⟨next, hnext, hpast⟩ => ⟨next, hnext, ?_⟩
    exact Nat.lt_of_lt_of_le hpast (Nat.le_trans hle (Nat.le_of_eq hsame.symm))

/-- Only acknowledgements past the end of RS break an alignment. -/
theorem Aligned.ack (h : Aligned s.items s.rs s.tx r b) (hle : through ≤ b + (s.rs.length - r)) :
    Aligned s.items s.rs { s.tx with rlcAcked := max s.tx.rlcAcked through } r b := by
  refine { h with onRlc := fun hrlc => ?_ }
  have hend := h.onRlc hrlc
  change _ = max s.tx.rlcAcked through
  omega

theorem SwitchOk.ack (h : SwitchOk s) {through : Nat} (hmem : through ∈ s.acks) :
    SwitchOk { s with tx := { s.tx with rlcAcked := max s.tx.rlcAcked through } } := by
  have hdelivered := h.acks_le through hmem
  have hacked : max s.tx.rlcAcked through ≤ s.items.length := by
    have := h.sender.acked_le
    have := h.receiver.delivered_le
    omega
  refine ⟨{ h.sender with acked_le := hacked }, { h.receiver with onRs := fun hrs => ?_ },
    h.acks_le, h.acks_onRs, fun k a hk hto => ?_⟩
  · exact (h.receiver.onRs hrs).ack (h.acks_onRs hrs through hmem)
  rcases h.stretch k a hk hto with hpast | ⟨halign, hend⟩
  · exact .inl hpast
  by_cases hle : through ≤ a.boundary + (s.rs.length - a.rsBefore)
  · exact .inr ⟨halign.ack hle, hend⟩
  left
  cases hnext : s.announced[k + 1]? with
  | none =>
    have hactive := (h.sender.last a (getLast?_of_next_none hk hnext)).symm.trans hto
    have := halign.onRs hactive
    omega
  | some next =>
    have := hend next hnext
    refine ⟨next, rfl, ?_⟩
    change next.boundary < s.rx.deliveredTotal
    omega

/-- What a step of the sender owes the receiver. -/
structure Extends (s s' : Transport α) : Prop where
  rx : s'.rx = s.rx
  acks : s'.acks = s.acks
  delivered : s'.delivered = s.delivered
  items : s.items <+: s'.items
  rs_le : s.rs.length ≤ s'.rs.length
  aligned : ∀ r b, Aligned s.items s.rs s.tx r b → Aligned s'.items s'.rs s'.tx r b

theorem Stretch.extends (h : Stretch s k a) (he : Extends s s')
    (hnext : s'.announced[k + 1]? = s.announced[k + 1]?) : Stretch s' k a := by
  unfold Stretch
  rw [hnext, he.rx]
  refine h.imp_right fun ⟨halign, hend⟩ => ⟨he.aligned _ _ halign, fun next hsome => ?_⟩
  have := hend next hsome
  have := he.rs_le
  omega

theorem SwitchOk.extends (h : SwitchOk s) (hs : SenderOk s') (he : Extends s s')
    (hstretch : ∀ k a, s'.announced[k]? = some a → a.target = .rs → Stretch s' k a) :
    SwitchOk s' := by
  obtain ⟨rest, hrest⟩ := he.items
  have hle := h.receiver.delivered_le
  refine ⟨hs, ?_, ?_, ?_, hstretch⟩
  · rw [he.rx, he.delivered]
    refine { h.receiver with
      delivered_eq := ?_
      delivered_le := ?_
      onRs := fun hrs => he.aligned _ _ (h.receiver.onRs hrs) }
    · rw [← hrest, take_append_of_le_length hle]
      exact h.receiver.delivered_eq
    · rw [← hrest, length_append]
      omega
  · rw [he.rx, he.acks]
    exact h.acks_le
  · rw [he.rx, he.acks]
    intro hrs a ha
    have := h.acks_onRs hrs a ha
    have := he.rs_le
    omega

theorem extends_hand (s : Transport α) (item : α) : Extends s (s.hand item) := by
  refine ⟨?_, ?_, ?_, ?_, ?_, fun _ _ h => h.hand item⟩ <;> unfold Transport.hand <;> split
  all_goals first | rfl | exact prefix_append .. | simp

theorem hand_announced (s : Transport α) (item : α) : (s.hand item).announced = s.announced := by
  unfold Transport.hand
  split <;> rfl

section
variable (h : SwitchOk s)
include h

theorem SwitchOk.hand (hsmall : s.items.length + 1 < 2 ^ 32) (item : α) :
    SwitchOk (s.hand item) := by
  have he := extends_hand s item
  refine h.extends (h.sender.hand hsmall item) he fun k a hk hto => ?_
  rw [hand_announced] at hk
  exact (h.stretch k a hk hto).extends he (by rw [hand_announced])

/-- A stretch that has been announced survives the next announcement. -/
theorem SwitchOk.switch_stretch {s' : Transport α} (he : Extends s s')
    (new : Announced) (hannounced : s'.announced = s.announced ++ [new])
    (hend : s.tx.active = .rs → new.boundary ≤ s.items.length)
    (hnew : new.target = .rs → Aligned s'.items s'.rs s'.tx new.rsBefore new.boundary) :
    ∀ k a, s'.announced[k]? = some a → a.target = .rs → Stretch s' k a := by
  intro k a hk hto
  rw [hannounced] at hk
  rcases Nat.lt_trichotomy (k + 1) s.announced.length with hlt | heq | hgt
  · rw [getElem?_append_left (by omega)] at hk
    refine (h.stretch k a hk hto).extends he ?_
    rw [hannounced, getElem?_append_left hlt]
  · rw [getElem?_append_left (by omega)] at hk
    have hnone : s.announced[k + 1]? = none := getElem?_eq_none (Nat.le_of_eq heq.symm)
    have hactive := (h.sender.last a (getLast?_of_next_none hk hnone)).symm.trans hto
    rcases h.stretch k a hk hto with ⟨next, hsome, -⟩ | ⟨halign, -⟩
    · rw [hnone] at hsome
      cases hsome
    refine .inr ⟨he.aligned _ _ halign, fun next hsome => ?_⟩
    rw [hannounced, heq, getElem?_concat_length] at hsome
    cases hsome
    have := halign.onRs hactive
    have := hend hactive
    have := he.rs_le
    omega
  · have hlen := (List.getElem_of_getElem? hk).1
    rw [length_append, length_singleton] at hlen
    obtain rfl : k = s.announced.length := by omega
    rw [getElem?_concat_length] at hk
    cases hk
    refine .inr ⟨hnew hto, fun next hsome => ?_⟩
    rw [hannounced, getElem?_eq_none (by simp)] at hsome
    cases hsome

theorem SwitchOk.switchTo_rs (hactive : s.tx.active = .rlc)
    (hring : s.RingHolds) : SwitchOk (s.switchTo .rs) := by
  have hheld := hring hactive
  have hnew := aligned_switchTo_rs h.sender hactive hheld
  have he : Extends s (s.switchTo .rs) := by
    have halign : ∀ r b, Aligned s.items s.rs s.tx r b → _ :=
      fun r b => Aligned.switchTo_rs h.sender hactive hheld
    rw [Unified.switchTo_rs hactive] at halign ⊢
    exact ⟨rfl, rfl, rfl, prefix_rfl, by simp, halign⟩
  refine h.extends (h.sender.switchTo_rs hactive) he
    (h.switch_stretch he ⟨⟨s.tx.rlcAcked, .rs⟩, s.rs.length⟩ ?_ (not_both hactive) fun _ => hnew)
  rw [Unified.switchTo_rs hactive]

theorem SwitchOk.switchTo_rlc (hactive : s.tx.active = .rs) : SwitchOk (s.switchTo .rlc) := by
  have he : Extends s (s.switchTo .rlc) := by
    have halign : ∀ r b, Aligned s.items s.rs s.tx r b → _ :=
      fun r b => Aligned.switchTo_rlc h.sender hactive
    rw [Unified.switchTo_rlc h.sender hactive] at halign ⊢
    exact ⟨rfl, rfl, rfl, prefix_rfl, Nat.le_refl _, halign⟩
  refine h.extends (h.sender.switchTo_rlc hactive) he
    (h.switch_stretch he ⟨⟨s.items.length, .rlc⟩, s.rs.length⟩ ?_
      (fun _ => Nat.le_refl _) fun hrs => by cases hrs)
  rw [Unified.switchTo_rlc h.sender hactive]

theorem SwitchOk.step (hok : s.Allowed e) (hstep : s.step e = some s') : SwitchOk s' := by
  cases e with
  | send item escape =>
    cases hstep
    obtain ⟨hsmall, hring⟩ := hok
    split
    · rename_i hescape
      refine (h.switchTo_rs hescape.2 (hring hescape.1)).hand ?_ item
      rw [Unified.switchTo_rs hescape.2]
      exact hsmall
    · exact h.hand hsmall item
  | forceSwitch target =>
    cases hstep
    split
    · rename_i hne
      cases target with
      | rlc =>
        cases hactive : s.tx.active with
        | rlc => exact absurd hactive.symm hne
        | rs => exact h.switchTo_rlc hactive
      | rs =>
        cases hactive : s.tx.active with
        | rlc => exact h.switchTo_rs hactive (hok rfl)
        | rs => exact absurd hactive.symm hne
    · exact h
  | ack n =>
    rw [Transport.step] at hstep
    split at hstep
    · cases hstep
      exact h
    rename_i through hthrough
    cases hstep
    exact h.ack (mem_of_getElem? hthrough)
  | signal n =>
    rw [Transport.step] at hstep
    split at hstep <;> cases hstep
    · exact h
    · exact ⟨{ h.sender with }, { h.receiver with }, h.acks_le, h.acks_onRs, h.stretch⟩
  | poll n => exact h.poll hok hstep

end

theorem switchOk_init (start : SensCode) : SwitchOk (Transport.init start : Transport α) := by
  have halign : Aligned ([] : List α) [] (new start) 0 0 :=
    ⟨Nat.le_refl _, prefix_rfl, fun _ => rfl, fun _ => rfl⟩
  refine ⟨⟨rfl, (by decide : 0 < 2 ^ 32), rfl, Nat.le_refl _, fun _ => rfl, Nat.le_refl _,
    nofun, nofun⟩,
    ⟨rfl, Nat.le_refl _, Nat.le_refl _, fun _ => rfl, fun _ => halign, fun _ => Nat.le_refl _⟩,
    nofun, nofun, fun k a hk => ?_⟩
  cases hk

end

/-- Across any switches, with announcements lost, repeated, late and out of
order, the receiver delivers a prefix of what was sent, as long as it acts on no
stale announcement. -/
theorem delivered_prefix_across_switches {α : Type} {start : SensCode}
    {events : List (UnifiedEvent α)} {s : Transport α}
    (hok : EveryStep Transport.step Transport.Allowed (Transport.init start) events)
    (hrun : run Transport.step (Transport.init start) events = some s) :
    s.delivered <+: s.items := by
  have h := run_invariant (fun _ _ _ h hok hstep => SwitchOk.step h hok hstep)
    (switchOk_init start) hok hrun
  rw [h.receiver.delivered_eq]
  exact take_prefix ..

/-- RLC to RS and back, one item on each stretch. -/
def roundTrip : List (UnifiedEvent Nat) :=
  [.send 0 false, .poll 1, .ack 0, .forceSwitch .rs, .signal 0, .poll 1, .send 1 false, .poll 1,
    .forceSwitch .rlc, .signal 1, .poll 1, .send 2 false, .poll 1]

theorem delivered_prefix_across_switches_roundTrip :
    ∃ s, run Transport.step (Transport.init .rlc) roundTrip = some s ∧
      s.delivered = [0, 1, 2] ∧ s.delivered <+: s.items := by
  have hlast : (run Transport.step (Transport.init .rlc) roundTrip).map Transport.delivered =
      some [0, 1, 2] := by
    decide +kernel
  obtain ⟨s, hrun, hdelivered⟩ := map_eq_some_iff.mp hlast
  exact ⟨s, hrun, hdelivered, delivered_prefix_across_switches (by decide +kernel) hrun⟩

/-- A repeat of the first announcement arrives after the switch back to RLC. -/
def staleRepeat : List (UnifiedEvent Nat) :=
  [.send 0 false, .poll 1, .ack 0, .forceSwitch .rs, .signal 0, .poll 1, .send 1 false, .poll 1,
    .forceSwitch .rlc, .signal 1, .poll 1, .signal 0, .poll 1, .send 2 false, .forceSwitch .rs,
    .signal 2, .poll 1, .send 3 false, .poll 1]

theorem stale_repeat_skips_item :
    ∃ s, run Transport.step (Transport.init .rlc) staleRepeat = some s ∧
      s.items = [0, 1, 2, 3] ∧ s.delivered = [0, 1, 3] := by
  have hlast : (run Transport.step (Transport.init .rlc) staleRepeat).map
      (fun s => (s.items, s.delivered)) = some ([0, 1, 2, 3], [0, 1, 3]) := by
    decide +kernel
  obtain ⟨s, hrun, heq⟩ := map_eq_some_iff.mp hlast
  simp only [Prod.mk.injEq] at heq
  exact ⟨s, hrun, heq⟩

end SubEtha.Unified
