import SubEtha.Block.Link
import SubEtha.Block.Tracking

namespace SubEtha.Block
open Option Lib Decoder

/-- What draining does whatever the window holds: the frontier only moves up, no
undecoded block appears or changes, and none is dropped above the frontier. -/
structure Drained (dec dec' : Decoder) : Prop where
  next_le : dec.nextDeliver ≤ dec'.nextDeliver
  cap_eq : dec'.windowCap = dec.windowCap
  epoch_eq : dec'.sessionEpoch = dec.sessionEpoch
  window : ∀ id rx, dec'.window.get? id = some rx → rx.decoded = false →
    dec.window.get? id = some rx
  kept : ∀ id rx, dec'.nextDeliver ≤ id → dec.window.get? id = some rx →
    dec'.window.get? id = some rx

theorem Drained.refl (dec : Decoder) : Drained dec dec :=
  ⟨le_rfl, rfl, rfl, fun _ _ h _ => h, fun _ _ _ h => h⟩

theorem Drained.trans (h : Drained dec1 dec2) (h' : Drained dec2 dec3) : Drained dec1 dec3 where
  next_le := h.next_le.trans h'.next_le
  cap_eq := h'.cap_eq.trans h.cap_eq
  epoch_eq := h'.epoch_eq.trans h.epoch_eq
  window := fun id rx hrx hd => h.window id rx (h'.window id rx hrx hd) hd
  kept := fun id rx hid hrx => h'.kept id rx hid (h.kept id rx (h'.next_le.trans hid) hrx)

variable {dec dec' : Decoder}

theorem tryTowerRecover_drained {id : Nat} (hnone : dec.window.get? id = none)
    (h : dec.tryTowerRecover id = some dec') : Drained dec dec' := by
  unfold tryTowerRecover at h
  split at h
  · cases h
  dsimp only at h
  split at h
  · cases h
  cases h
  refine ⟨le_rfl, rfl, rfl, fun id' rx hrx hd => ?_, fun id' rx _ hrx => ?_⟩
  · rcases Table.get?_insert_some hrx with ⟨-, rfl⟩ | ⟨-, hrx⟩
    · cases hd
    · exact hrx
  have hne : id' ≠ id := by
    rintro rfl
    rw [hnone] at hrx
    cases hrx
  rw [Table.get?_insert, if_neg hne]
  exact hrx

theorem drained_deliver (dec : Decoder) : Drained dec { dec with
      window := dec.window.erase dec.nextDeliver, nextDeliver := dec.nextDeliver + 1 } where
  next_le := Nat.le_succ _
  cap_eq := rfl
  epoch_eq := rfl
  window := fun _ _ hrx _ => (Table.get?_erase_some hrx).2
  kept := by
    intro id rx hid hrx
    rw [Table.get?_erase, if_neg (by dsimp only at hid; omega)]
    exact hrx

theorem drainLoop_drained (h : drainLoop fuel dec = some (dec', out)) :
    Drained dec dec' := by
  induction fuel generalizing dec out with
  | zero =>
    cases h
    exact .refl _
  | succ fuel ih =>
    rw [drainLoop] at h
    split at h
    · split at h
      · split at h
        · cases h
        split at h
        · cases h
        obtain ⟨⟨dec1, out1⟩, hrun, heq⟩ := map_eq_some_iff.mp h
        cases heq
        exact (drained_deliver dec).trans (ih hrun)
      · cases h
        exact .refl _
    · rename_i hnone
      split at h
      · rename_i dec1 hrec
        exact (tryTowerRecover_drained hnone hrec).trans (ih h)
      · cases h
        exact .refl _

theorem trim_drained (dec : Decoder) : Drained dec dec.trim := by
  unfold trim
  dsimp only
  split <;> exact ⟨le_rfl, rfl, rfl, fun _ _ h _ => h, fun _ _ _ h => h⟩

theorem drainInOrder_drained (h : dec.drainInOrder = some (dec', out)) : Drained dec dec' := by
  obtain ⟨⟨dec1, out1⟩, hrun, heq⟩ := map_eq_some_iff.mp h
  cases heq
  exact (drainLoop_drained hrun).trans (trim_drained dec1)

theorem handleOuter_frame (h : dec.handleOuter oid idx k r payload = some dec') :
    dec'.nextDeliver = dec.nextDeliver ∧ dec'.windowCap = dec.windowCap ∧
      dec'.sessionEpoch = dec.sessionEpoch ∧ dec'.window = dec.window := by
  unfold handleOuter at h
  dsimp only at h
  repeat' first | split at h | cases h
  all_goals exact ⟨rfl, rfl, rfl, rfl⟩

theorem acceptShard_next (hrun : dec.acceptShard h = some (dec', out)) :
    dec.nextDeliver ≤ dec'.nextDeliver ∧ dec'.windowCap = dec.windowCap ∧
      dec'.sessionEpoch = dec.sessionEpoch := by
  unfold acceptShard at hrun
  dsimp only at hrun
  repeat' first | split at hrun | cases hrun
  all_goals
    have hd := drainInOrder_drained hrun
    exact ⟨hd.next_le, hd.cap_eq, hd.epoch_eq⟩

theorem learnInner_frame (dec : Decoder) (h : Header) :
    (dec.learnInner h).nextDeliver = dec.nextDeliver ∧
      (dec.learnInner h).windowCap = dec.windowCap ∧
      (dec.learnInner h).sessionEpoch = dec.sessionEpoch ∧
      (dec.learnInner h).window = dec.window := by
  unfold learnInner
  split <;> exact ⟨rfl, rfl, rfl, rfl⟩

/-- Whatever arrives, the frontier never moves back. -/
theorem ingest_next (hrun : dec.ingest buf = some (dec', out)) :
    dec.nextDeliver ≤ dec'.nextDeliver ∧ dec'.windowCap = dec.windowCap := by
  unfold ingest at hrun
  split at hrun
  · cases hrun
    exact ⟨le_rfl, rfl⟩
  rename_i h _
  split at hrun
  · cases hrun
    exact ⟨le_rfl, rfl⟩
  split at hrun
  · cases hrun
    exact ⟨le_rfl, rfl⟩
  split at hrun
  · obtain ⟨dec1, houter, hdrain⟩ := bind_eq_some_iff.mp hrun
    obtain ⟨hnext, hcap, -⟩ := handleOuter_frame houter
    have hd := drainInOrder_drained hdrain
    exact ⟨(le_of_eq hnext.symm).trans hd.next_le, hd.cap_eq.trans hcap⟩
  obtain ⟨hnext, hcap, -⟩ := learnInner_frame { dec with sessionEpoch := some h.epoch } h
  rw [ingestData] at hrun
  split at hrun
  · cases hrun
    exact ⟨le_of_eq hnext.symm, hcap⟩
  split at hrun
  · cases hrun
    exact ⟨le_of_eq hnext.symm, hcap⟩
  · obtain ⟨hle, hcap', -⟩ := acceptShard_next hrun
    exact ⟨(le_of_eq hnext.symm).trans hle, hcap'.trans hcap⟩

open RsCode

variable {w : World} {dec dec' : Decoder}

theorem addShard_mask (rx : RxBlock) (hidx : idx < 32) (payload : List Byte) :
    (rx.addShard idx payload).mask.getLsbD idx = true ∧
      ∀ i, rx.mask.getLsbD i = true → (rx.addShard idx payload).mask.getLsbD i = true := by
  unfold RxBlock.addShard
  split
  · rename_i hbit
    exact ⟨hbit, fun _ h => h⟩
  refine ⟨?_, fun i hi => ?_⟩
  · simp [hidx]
  · simp [BitVec.getLsbD_or, hi]

theorem complete_decoded {rx : RxBlock} (h : rx.decoded = true) (passthrough : Bool) :
    rx.complete passthrough = some rx := by
  rw [RxBlock.complete, h]
  rfl

/-- What a shard of `b` leaves in the window under its id: if that block is still
undecoded it is short of shards, and its bitmap has grown by the new one. -/
structure Joined (b : Coded) (h : Header) (t : Table Nat RxBlock) (done : RxBlock) : Prop where
  exact : RxExact b done
  short : done.count < done.k
  has : done.mask.getLsbD h.shardIndex = true
  grows : ∀ rx i, t.get? h.blockId = some rx → rx.mask.getLsbD i = true →
    done.mask.getLsbD i = true

variable {b : Coded} {epoch : Nat}

theorem joined_shard (hs : ShardOf b h) (hblk : RxExact b blk)
    (hgrows : ∀ rx i, t.get? h.blockId = some rx → rx.mask.getLsbD i = true →
      blk.mask.getLsbD i = true) :
    ∃ done, (blk.addShard h.shardIndex h.payload).complete true = some done ∧
      (done.decoded = false → Joined b h t done) := by
  have hidx : h.shardIndex < 32 := by
    have hlt := List.lt_of_some hs.payload
    rw [b.shards_length] at hlt
    exact lt_of_lt_of_le hlt b.fits
  obtain ⟨hbit, hmono⟩ := addShard_mask blk hidx h.payload
  obtain ⟨done, hdone, hex, hmask, hshort⟩ :=
    rxExact_complete (rxExact_addShard hblk hs.payload) true (.inl rfl)
  refine ⟨done, hdone, fun hd => ⟨hex, hshort hd, by rw [hmask]; exact hbit, ?_⟩⟩
  intro rx i hrx hi
  rw [hmask]
  exact hmono i (hgrows rx i hrx hi)

/-- An accepted shard changes the window only under its own id, then drains. -/
theorem acceptShard_joins (hs : ShardOf b h)
    (hentry : ∀ rx, dec.window.get? h.blockId = some rx → rx.decoded = false → RxExact b rx)
    (hrun : dec.acceptShard h = some (dec', out)) :
    ∃ done dec1, Drained dec1 dec' ∧ dec1.nextDeliver = dec.nextDeliver ∧
      (∀ id, dec1.window.get? id = if id = h.blockId then some done else dec.window.get? id) ∧
      (done.decoded = false → Joined b h dec.window done) := by
  have hnew : ∀ id : Nat, ∀ blk done : RxBlock,
      ((dec.window.insert h.blockId blk).insert h.blockId done).get? id =
        if id = h.blockId then some done else dec.window.get? id := by
    intro id blk done
    rw [Table.get?_insert, Table.get?_insert]
    split <;> simp_all
  unfold acceptShard at hrun
  generalize hblk : (dec.window.get? h.blockId).getD _ = blk at hrun
  have hgrows : ∀ rx i, dec.window.get? h.blockId = some rx → rx.mask.getLsbD i = true →
      blk.mask.getLsbD i = true := by
    intro rx i hrx hi
    rw [hrx] at hblk
    cases hblk
    exact hi
  have hexact (hd : blk.decoded = false) : RxExact b blk := by
    cases hrx : dec.window.get? h.blockId with
    | none =>
      rw [hrx, getD_none, hs.k_eq, hs.r_eq, hs.len] at hblk
      rw [← hblk]
      exact rxExact_new b
    | some rx =>
      rw [hrx] at hblk
      cases hblk
      exact hentry rx hrx hd
  dsimp only at hrun
  split at hrun
  · rename_i hshape
    refine ⟨blk, _, drainInOrder_drained hrun, rfl, fun id => Table.get?_insert .., fun hd => ?_⟩
    have hex := hexact hd
    rw [hex.len_eq, hex.k_eq, hex.r_eq, hs.len, hs.k_eq, hs.r_eq] at hshape
    simp at hshape
  cases hd : blk.decoded with
  | true =>
    have hadd := (addShard_frame blk h.shardIndex h.payload).2.2.2.trans hd
    rw [complete_decoded hadd] at hrun
    dsimp only at hrun
    rw [hadd] at hrun
    refine ⟨_, _, drainInOrder_drained hrun, rfl, fun id => hnew id _ _, fun hd' => ?_⟩
    rw [hadd] at hd'
    cases hd'
  | false =>
    obtain ⟨done, hdone, hjoined⟩ := joined_shard hs (hexact hd) hgrows
    rw [hdone] at hrun
    dsimp only at hrun
    split at hrun
    all_goals exact ⟨done, _, drainInOrder_drained hrun, rfl, fun id => hnew id _ _, hjoined⟩

/-- The receiver waits at its frontier for a sender of session `epoch`: every
block it cannot decode yet is one of the sender's and short of shards. -/
structure Waiting (w : World) (epoch : Nat) (dec : Decoder) : Prop where
  stuck : Stuck dec
  short : ∀ id rx, dec.window.get? id = some rx → rx.decoded = false →
    ∃ b, w.blocks[id]? = some b ∧ RxExact b rx ∧ rx.count < rx.k
  session : dec.sessionEpoch = none ∨ dec.sessionEpoch = some epoch

theorem waiting_init (w : World) (epoch cap : Nat) : Waiting w epoch (withWindow cap) where
  stuck := nofun
  short := nofun
  session := .inl rfl

theorem Waiting.mono (h : Waiting w epoch dec) (hw : w.Extends w') : Waiting w' epoch dec where
  __ := h
  short := by
    intro id rx hrx hd
    obtain ⟨b, hb, hex⟩ := h.short id rx hrx hd
    exact ⟨b, getElem?_of_isPrefix hw.blocks hb, hex⟩

theorem Waiting.congr (h : Waiting w epoch dec) (hwindow : dec'.window = dec.window)
    (hnext : dec'.nextDeliver = dec.nextDeliver)
    (hsession : dec'.sessionEpoch = none ∨ dec'.sessionEpoch = some epoch) :
    Waiting w epoch dec' where
  stuck := by
    rw [Stuck, hwindow, hnext]
    exact h.stuck
  short := by
    rw [hwindow]
    exact h.short
  session := hsession

theorem Waiting.entry (hwait : Waiting w epoch dec) {id : Nat} (hb : w.blocks[id]? = some b) :
    ∀ rx, dec.window.get? id = some rx → rx.decoded = false → RxExact b rx := by
  intro rx hrx hd
  obtain ⟨b', hb', hex, -⟩ := hwait.short id rx hrx hd
  rw [hb] at hb'
  cases hb'
  exact hex

variable (hw : TowerOk w) (hfit : w.blocks.length < 2 ^ 32) (ht : Tracks w dec)
  (hwait : Waiting w epoch dec)
include hw hfit ht hwait

theorem acceptShard_waiting (hb : w.blocks[h.blockId]? = some b) (hs : ShardOf b h)
    (hrun : dec.acceptShard h = some (dec', out)) : Waiting w epoch dec' := by
  obtain ⟨dec2, out2, hrun2, -, -, hstuck⟩ := acceptShard_spec hw hfit ht hb hs
  rw [hrun] at hrun2
  cases hrun2
  obtain ⟨done, dec1, hdrained, -, hwindow, hjoined⟩ := acceptShard_joins hs (hwait.entry hb) hrun
  refine ⟨hstuck, fun id rx hrx hd => ?_, ?_⟩
  · have hrx1 := hdrained.window id rx hrx hd
    rw [hwindow] at hrx1
    split at hrx1
    · rename_i hid
      cases hrx1
      have hj := hjoined hd
      exact ⟨b, by rw [hid]; exact hb, hj.exact, hj.short⟩
    · exact hwait.short id rx hrx1 hd
  · rw [(acceptShard_next hrun).2.2]
    exact hwait.session

theorem ingest_waiting (hparse : parseHeader buf = some h) (hc : Carries w h)
    (hepoch : h.epoch = epoch) (hrun : dec.ingest buf = some (dec', out)) :
    Waiting w epoch dec' := by
  have hframe : Tracks w { dec with sessionEpoch := some h.epoch } := { ht with }
  have hopen : Waiting w epoch { dec with sessionEpoch := some h.epoch } :=
    hwait.congr rfl rfl (.inr (by rw [hepoch]))
  unfold ingest at hrun
  rw [hparse] at hrun
  dsimp only at hrun
  split at hrun
  · cases hrun
    exact hwait.congr rfl rfl hwait.session
  split at hrun
  · cases hrun
    exact hopen
  rcases hc with ⟨hid, b, hb, hs⟩ | ⟨hid, houter⟩
  · rw [if_neg (by omega)] at hrun
    obtain ⟨hnext, hcap, hsession, hwindow⟩ :=
      learnInner_frame { dec with sessionEpoch := some h.epoch } h
    have hlearn := hopen.congr hwindow hnext (by rw [hsession]; exact hopen.session)
    have htl := (learnInner_tracks hframe (List.mem_of_getElem? hb) hs).1
    rw [ingestData] at hrun
    split at hrun
    · cases hrun
      exact hlearn
    split at hrun
    · cases hrun
      exact hlearn
    · exact acceptShard_waiting hw hfit htl hlearn hb hs hrun
  · rw [if_pos hid] at hrun
    obtain ⟨dec1, hrun1, hdrain⟩ := bind_eq_some_iff.mp hrun
    obtain ⟨hnext, hcap, hsession, hwindow⟩ := handleOuter_frame hrun1
    have ht1 : Tracks w dec1 := by
      rcases houter with hskip | ⟨hd, o, ho, hs⟩
      · rw [handleOuter_ignored hskip] at hrun1
        cases hrun1
        exact hframe
      · obtain ⟨dec2, hrun2, ht2, -⟩ := handleOuter_tracks hw hframe hd ho hs
        rw [hrun1] at hrun2
        cases hrun2
        exact ht2
    have hwait1 := hopen.congr hwindow hnext (by rw [hsession]; exact hopen.session)
    obtain ⟨dec2, out2, hdrain2, -, -, hstuck⟩ := drainInOrder_spec hw hfit ht1
    rw [hdrain] at hdrain2
    cases hdrain2
    have hd := drainInOrder_drained hdrain
    exact ⟨hstuck, fun id rx hrx hu => hwait1.short id rx (hd.window id rx hrx hu) hu, by
      rw [hd.epoch_eq]
      exact hwait1.session⟩

end SubEtha.Block
