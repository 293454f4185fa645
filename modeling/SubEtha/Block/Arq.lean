import SubEtha.Block.Session
import SubEtha.Block.Waiting

namespace SubEtha.Block
open List Option Lib RsCode Decoder

/-- Sender calls and deliveries, the receiver's reports, and their arrival. -/
inductive ArqEvent
  | call (ev : Event)
  | report (driveArq : Bool) (max : Nat)
  | hear (n : Nat)

/-- A link with its return path. Reports are taken by position too, so they may
be lost, repeated, overtaken and late. -/
structure ArqLink where
  link : Link
  reports : List Feedback

namespace ArqLink

def init (k r maxItem epoch windowCap : Nat) : ArqLink where
  link := Link.init k r maxItem epoch windowCap
  reports := []

def step (s : ArqLink) : ArqEvent → Option ArqLink
  | .call ev => (s.link.step ev).map fun link => { s with link := link }
  | .report driveArq max =>
    some { s with reports := s.reports ++ s.link.dec.reports driveArq max }
  | .hear n =>
    match s.reports[n]? with
    | none => some s
    | some fb => (s.link.step (.feedback fb)).map fun link => { s with link := link }

end ArqLink

/-- Feedback reaches the encoder only from the receiver, and the tower stays off. -/
def InSession (_ : ArqLink) : ArqEvent → Prop
  | .call (.feedback _) | .call (.enableTower _ _) => False
  | _ => True

instance (s : ArqLink) : DecidablePred (InSession s) := fun ev => by
  unfold InSession
  split <;> infer_instance

def Decoder.takeAll (dec : Decoder) (bufs : List Datagram) : Option Decoder :=
  run (fun dec buf => (dec.onPacket buf).map Prod.fst) dec bufs

/-- Nothing the receiver still needs has been freed: no report acks beyond its frontier. -/
structure Retains (s : ArqLink) : Prop where
  off : s.link.enc.towerD = 0
  held : ∀ id, s.link.dec.nextDeliver ≤ id → id < s.link.enc.nextBlock →
    s.link.enc.pending.contains id = true
  acks : ∀ fb ∈ s.reports, fb.ackThrough ≤ s.link.dec.nextDeliver

theorem retains_init (k r maxItem epoch cap : Nat) :
    Retains (ArqLink.init k r maxItem epoch cap) where
  off := rfl
  held := fun id _ hid => absurd hid (Nat.not_lt_zero id)
  acks := nofun

theorem feedback_ack (dec : Decoder) (driveArq : Bool) :
    (dec.feedback driveArq).ackThrough = dec.nextDeliver := by
  unfold feedback
  dsimp only
  split
  · split <;> rfl
  · rfl

theorem reports_ack (dec : Decoder) (driveArq : Bool) (max : Nat) :
    ∀ fb ∈ dec.reports driveArq max, fb.ackThrough = dec.nextDeliver := by
  intro fb hfb
  rcases mem_cons.mp hfb with rfl | hfb
  · exact feedback_ack ..
  rcases mem_cons.mp hfb with rfl | hfb
  · exact feedback_ack ..
  · obtain ⟨gap, -, rfl⟩ := mem_map.mp hfb
    exact feedback_ack ..

variable {pb : PendingBlock} {id : Nat}

theorem contains_insert {t : Table Nat PendingBlock} (h : id' ≠ id → t.contains id' = true) :
    (t.insert id pb).contains id' = true := by
  rw [Table.contains, Table.get?_insert]
  split
  · rfl
  · exact h (by assumption)

theorem sealShards_held {e e' : Encoder} (h : e.sealShards = some (e', out))
    (hid : id < e'.nextBlock) (hold : id < e.nextBlock → e.pending.contains id = true) :
    e'.pending.contains id = true := by
  obtain ⟨pb, -, rfl, -⟩ := sealShards_some h
  refine contains_insert fun hne => hold ?_
  dsimp only at hid
  omega

/-- Apart from feedback, no call frees a block. -/
theorem step_held {s s' : Link} (hoff : s.enc.towerD = 0) (hev : ev.KeepsTower)
    (hfb : ∀ fb, ev ≠ .feedback fb) (hstep : s.step ev = some s') (hid : id < s'.enc.nextBlock)
    (hold : id < s.enc.nextBlock → s.enc.pending.contains id = true) :
    s'.enc.pending.contains id = true := by
  cases ev with
  | push item =>
    simp only [Link.step, push_off hoff, bind_eq_bind, bind_eq_some_iff] at hstep
    obtain ⟨⟨enc, out⟩, hpush, heq⟩ := hstep
    cases heq
    split at hpush
    · exact sealShards_held hpush hid hold
    · cases hpush
      exact hold hid
  | flush =>
    simp only [Link.step, flush_off hoff, bind_eq_bind, bind_eq_some_iff] at hstep
    obtain ⟨⟨enc, out⟩, hflush, heq⟩ := hstep
    cases heq
    split at hflush
    · cases hflush
      exact hold hid
    · exact sealShards_held hflush hid hold
  | setParity | probe | retransmitAll =>
    cases hstep
    exact hold hid
  | enableTower d rOuter => exact absurd hev fun h => h
  | feedback fb => exact absurd rfl (hfb fb)
  | deliver n =>
    simp only [Link.step] at hstep
    split at hstep
    · cases hstep
      exact hold hid
    obtain ⟨_, -, heq⟩ := bind_eq_some_iff.mp hstep
    cases heq
    exact hold hid

theorem Turn.dec (h : Turn s pushes s') :
    s'.dec = s.dec ∨ ∃ buf ∈ s.wire, ∃ out, s.dec.ingest buf = some (s'.dec, out) := by
  cases h with
  | quiet hq =>
    cases hq with
    | took hbuf hrun => exact .inr ⟨_, hbuf, _, hrun⟩
    | resent | idle => exact .inl rfl
  | sealed | staged | parity => exact .inl rfl

theorem Turn.next_le (h : Turn s pushes s') :
    s.dec.nextDeliver ≤ s'.dec.nextDeliver := by
  rcases h.dec with hdec | ⟨buf, -, out, hrun⟩
  · rw [hdec]
  · exact (ingest_next hrun).1

theorem inSession_call (h : InSession s (.call ev)) : ev.KeepsTower ∧ ∀ fb, ev ≠ .feedback fb := by
  cases ev <;> first | exact absurd h id | exact ⟨trivial, nofun⟩

theorem retains_step {ev : ArqEvent} (h : Retains s) (hok : InSession s ev)
    (hstep : s.step ev = some s') : Retains s' := by
  cases ev with
  | call ev =>
    obtain ⟨link, hlink, rfl⟩ := map_eq_some_iff.mp hstep
    obtain ⟨hev, hfb⟩ := inSession_call hok
    have hturn := step_turn h.off hev hlink
    have hle := hturn.next_le
    exact ⟨(hturn.continues h.off).off,
      fun id hid hlt => step_held h.off hev hfb hlink hlt (h.held id (hle.trans hid)),
      fun fb hmem => (h.acks fb hmem).trans hle⟩
  | report driveArq max =>
    cases hstep
    refine ⟨h.off, h.held, fun fb hmem => ?_⟩
    rcases mem_append.mp hmem with hmem | hmem
    · exact h.acks fb hmem
    · exact le_of_eq (reports_ack _ _ _ fb hmem)
  | hear n =>
    simp only [ArqLink.step] at hstep
    split at hstep
    · cases hstep
      exact h
    rename_i fb hfb
    obtain ⟨link, hlink, rfl⟩ := map_eq_some_iff.mp hstep
    have hack := h.acks fb (mem_of_getElem? hfb)
    have hev : (Event.feedback fb).KeepsTower := trivial
    have hoff := ((step_turn h.off hev hlink).continues h.off).off
    cases hlink
    refine ⟨hoff, fun id hid hlt => ?_, h.acks⟩
    rw [onFeedback_enc] at hlt ⊢
    rw [Table.contains, Table.get?_retain, if_pos (by simpa using hack.trans hid)]
    exact h.held id hid hlt

section
variable {dec : Decoder} {b : Coded} {epoch : Nat}

/-- A datagram with shard `idx` of the block `b` of id `n`. -/
def ShardAt (b : Coded) (n epoch idx : Nat) (buf : Datagram) : Prop :=
  ∃ h, parseHeader buf = some h ∧ h.blockId = n ∧ h.epoch = epoch ∧ h.shardIndex = idx ∧
    ShardOf b h

/-- Shard `i` of block `n` is in the window. -/
def Has (dec : Decoder) (n i : Nat) : Prop :=
  ∃ rx, dec.window.get? n = some rx ∧ rx.mask.getLsbD i = true

theorem shardOf_shape (hs : ShardOf b h) :
    ¬(h.k = 0 ∨ h.k + h.r > maxShards ∨ h.shardIndex ≥ h.k + h.r) := by
  have hlt := lt_of_some hs.payload
  have hpos := b.k_pos
  have hfits := b.fits
  rw [b.shards_length] at hlt
  rw [hs.k_eq, hs.r_eq]
  omega

theorem ingest_head (hwait : Waiting w epoch dec) (hcap : dec.cap32 ≠ 0)
    (hparse : parseHeader buf = some h) (hid : h.blockId = dec.nextDeliver)
    (hlt : dec.nextDeliver < 2 ^ 31) (hepoch : h.epoch = epoch) (hs : ShardOf b h) :
    dec.ingest buf = (learnInner { dec with sessionEpoch := some h.epoch } h).acceptShard h := by
  obtain ⟨hnext, hcap', -⟩ := learnInner_frame { dec with sessionEpoch := some h.epoch } h
  have hcap1 : (learnInner { dec with sessionEpoch := some h.epoch } h).cap32 =
      dec.cap32 := congrArg (fun c => c % 2 ^ 32) hcap'
  have hsession : ¬(dec.sessionEpoch ≠ none ∧ dec.sessionEpoch ≠ some h.epoch) := by
    rw [hepoch]
    rcases hwait.session with hn | he
    · exact fun hne => hne.1 hn
    · exact fun hne => hne.2 he
  have houter : ¬outerIdBit ≤ h.blockId := by
    rw [hid, outerIdBit]
    omega
  rw [ingest, hparse]
  dsimp only
  rw [if_neg hsession, if_neg (shardOf_shape hs), if_neg houter, ingestData, hnext, hcap1, hid]
  have hwindow : ¬min (dec.nextDeliver + dec.cap32) (2 ^ 32 - 1) ≤ dec.nextDeliver := by omega
  exact (if_neg (lt_irrefl _)).trans (if_neg hwindow)

/-- After a shard of the head block, either the frontier has moved or the shard
is in the window with all that was there. -/
theorem ingest_head_shard (hw : TowerOk w) (hfit : w.blocks.length ≤ 2 ^ 31) (ht : Tracks w dec)
    (hwait : Waiting w epoch dec) (hcap : dec.cap32 ≠ 0) (hb : w.blocks[dec.nextDeliver]? = some b)
    (hbuf : ShardAt b dec.nextDeliver epoch idx buf) (hrun : dec.ingest buf = some (dec', out))
    (hnext : dec'.nextDeliver = dec.nextDeliver) :
    Has dec' dec.nextDeliver idx ∧ ∀ i, Has dec dec.nextDeliver i → Has dec' dec.nextDeliver i := by
  obtain ⟨h, hparse, hid, hepoch, rfl, hs⟩ := hbuf
  have hlt := lt_of_some hb
  have hfit' : w.blocks.length < 2 ^ 32 := lt_of_le_of_lt hfit (by decide)
  have hstuck := (ingest_waiting hw hfit' ht hwait hparse
    (.inl ⟨by rw [hid, outerIdBit]; omega, b, by rwa [hid], hs⟩) hepoch hrun).stuck
  rw [ingest_head hwait hcap hparse hid (by omega) hepoch hs] at hrun
  obtain ⟨hnext1, -, -, hwindow1⟩ := learnInner_frame { dec with sessionEpoch := some h.epoch } h
  obtain ⟨done, dec1, hdrained, -, hwindow, hjoined⟩ := acceptShard_joins hs
    (by rw [hwindow1, hid]; exact hwait.entry hb) hrun
  have hdone : dec'.window.get? dec.nextDeliver = some done := by
    refine hdrained.kept _ _ (le_of_eq hnext) ?_
    rw [hwindow, if_pos hid.symm]
  have hj := hjoined (hstuck done (by rw [hnext]; exact hdone))
  rw [hwindow1] at hj
  refine ⟨⟨done, hdone, hj.has⟩, ?_⟩
  rintro i ⟨rx, hrx, hi⟩
  exact ⟨done, hdone, hj.grows rx i (by rw [hid]; exact hrx) hi⟩

theorem takeAll_next (h : dec.takeAll bufs = some dec') : dec.nextDeliver ≤ dec'.nextDeliver := by
  have hstep : ∀ (d : Decoder) buf d', dec.nextDeliver ≤ d.nextDeliver →
      (d.onPacket buf).map Prod.fst = some d' → dec.nextDeliver ≤ d'.nextDeliver := by
    intro d buf d' hd hrun
    obtain ⟨⟨d1, out⟩, hd1, rfl⟩ := map_eq_some_iff.mp hrun
    exact hd.trans (ingest_next hd1).1
  exact run_preserves hstep le_rfl h

/-- A batch of shards of block `n`: unless the frontier passes `n`, all of them
end up in the window. -/
theorem takeAll_head (hw : TowerOk w) (hfit : w.blocks.length ≤ 2 ^ 31) (hb : w.blocks[n]? = some b)
    (ht : Tracks w dec) (hwait : Waiting w epoch dec) (hcap : dec.cap32 ≠ 0)
    (hn : n ≤ dec.nextDeliver) (hbufs : ∀ buf ∈ bufs, ∃ idx, ShardAt b n epoch idx buf) :
    ∃ dec', dec.takeAll bufs = some dec' ∧ Waiting w epoch dec' ∧ n ≤ dec'.nextDeliver ∧
      (dec'.nextDeliver = n → (∀ i, Has dec n i → Has dec' n i) ∧
        ∀ idx, ∀ buf ∈ bufs, ShardAt b n epoch idx buf → Has dec' n idx) := by
  have hfit' : w.blocks.length < 2 ^ 32 := lt_of_le_of_lt hfit (by decide)
  have hlt := lt_of_some hb
  induction bufs generalizing dec with
  | nil => exact ⟨dec, rfl, hwait, hn, fun _ => ⟨fun _ h => h, nofun⟩⟩
  | cons buf bufs ih =>
    obtain ⟨idx, h, hparse, hid, hepoch, hidx, hs⟩ := hbufs buf (mem_cons_self ..)
    have hc : Carries w h := .inl ⟨by rw [hid, outerIdBit]; omega, b, by rwa [hid], hs⟩
    obtain ⟨dec1, out, hrun, ht1, -⟩ := ingest_spec hw hfit' ht hparse hc
    have hwait1 := ingest_waiting hw hfit' ht hwait hparse hc hepoch hrun
    obtain ⟨hle, hcap1⟩ := ingest_next hrun
    obtain ⟨dec', hrest, hwait', hn', hcover⟩ := ih ht1 hwait1
      (by rw [cap32, hcap1]; exact hcap) (hn.trans hle)
      fun buf' hbuf' => hbufs buf' (mem_cons_of_mem _ hbuf')
    have hmono := takeAll_next hrest
    refine ⟨dec', ?_, hwait', hn', fun heq => ?_⟩
    · rw [takeAll, run, onPacket, hrun]
      exact hrest
    obtain ⟨hkeep, hall⟩ := hcover heq
    have hnow : dec.nextDeliver = n := by omega
    have hnow1 : dec1.nextDeliver = dec.nextDeliver := by omega
    subst hnow
    refine ⟨fun i hi => hkeep i ?_, fun j buf' hbuf' hj => ?_⟩
    · exact (ingest_head_shard hw hfit ht hwait hcap hb
        ⟨h, hparse, hid, hepoch, hidx, hs⟩ hrun hnow1).2 i hi
    · rcases mem_cons.mp hbuf' with rfl | hbuf'
      · exact hkeep j (ingest_head_shard hw hfit ht hwait hcap hb hj hrun hnow1).1
      · exact hall j buf' hbuf' hj

/-- What the sender resends for a NAK of a block it holds. -/
theorem onFeedback_resends {e : Encoder} (hnak : fb.nakBlock ≠ nakNone)
    (hack : fb.ackThrough ≤ fb.nakBlock) (hpb : e.pending.get? fb.nakBlock = some pb) :
    (e.onFeedback fb).2 =
      ((range pb.shards.length).filter fun idx => fb.nakMask.getLsbD (idx % 32)).map
        fun idx => pb.datagramFlagged fb.nakBlock idx flagRetransmit e.epoch := by
  have hheld : (e.pending.retain fun id => decide (fb.ackThrough ≤ id)).get? fb.nakBlock =
      some pb := by
    rw [Table.get?_retain, if_pos (by simpa using hack), hpb]
  simp [Encoder.onFeedback, if_pos hnak, hheld]

theorem shardAt_datagram (hb : Holds b pb) (hn : n < 2 ^ 31) (hidx : idx < b.k + b.r)
    (flags epoch : Nat) :
    ShardAt b n (epoch % 2 ^ 32) idx (pb.datagramFlagged n idx flags epoch) := by
  obtain ⟨h, hparse, hid, hs⟩ := shardOf_datagram hb n flags epoch hidx
  have hfits : b.k + b.r ≤ 32 := b.fits
  have hparse' := parseHeader_datagram pb n idx flags epoch
  rw [hparse'] at hparse
  cases hparse
  refine ⟨_, hparse', ?_, rfl, ?_, hs⟩
  · exact Nat.mod_eq_of_lt (by omega)
  · exact Nat.mod_eq_of_lt (by omega)

theorem le_count_of_all (rx : RxBlock) (hn : n ≤ 32) (h : ∀ i < n, rx.mask.getLsbD i = true) :
    n ≤ rx.count := by
  rw [RxBlock.count]
  calc n = Nat.count (fun i => rx.mask.getLsbD i = true) n := (Nat.count_iff_forall.mpr h).symm
    _ ≤ _ := Nat.count_monotone _ hn

/-- A receiver that waits for a block lacks one of its shards. -/
theorem Waiting.lacks (hwait : Waiting w epoch dec) (hb : w.blocks[dec.nextDeliver]? = some b) :
    ¬∀ i < b.k + b.r, Has dec dec.nextDeliver i := by
  intro hall
  obtain ⟨rx, hrx, -⟩ := hall 0 (Nat.add_pos_left b.k_pos _)
  obtain ⟨b', hb', hex, hshort⟩ := hwait.short _ rx hrx (hwait.stuck rx hrx)
  rw [hb] at hb'
  cases hb'
  have hcount := le_count_of_all rx b.fits fun i hi => by
    obtain ⟨rx', hrx', hbit⟩ := hall i hi
    rw [hrx] at hrx'
    cases hrx'
    exact hbit
  rw [hex.k_eq] at hshort
  omega

/-- One driven round: the retransmissions of one feedback move the frontier. -/
theorem round_advances {s : Link} (h : Linked w items s)
    (hwait : Waiting w (s.enc.epoch % 2 ^ 32) s.dec) (hcap : s.dec.cap32 ≠ 0)
    (hheld : s.enc.pending.contains s.dec.nextDeliver = true)
    (hbatch : batch.Perm (s.enc.onFeedback (s.dec.feedback true)).2) :
    ∃ dec', s.dec.takeAll batch = some dec' ∧ s.dec.nextDeliver < dec'.nextDeliver := by
  obtain ⟨pb, hpb⟩ := isSome_iff_exists.mp hheld
  obtain ⟨b, hb, hholds⟩ := h.sends.pending _ pb hpb
  have hlt := lt_of_some hb
  have hfits := h.fits
  have hn : s.dec.nextDeliver < 2 ^ 31 := by omega
  have hbfits : b.k + b.r ≤ 32 := b.fits
  have hshape : ∀ rx, s.dec.window.get? s.dec.nextDeliver = some rx →
      rx.decoded = false ∧ RxExact b rx := fun rx hrx =>
    ⟨hwait.stuck rx hrx, hwait.entry hb rx hrx (hwait.stuck rx hrx)⟩
  obtain ⟨mask, hmask, hrest⟩ := missing_of_stuck fun rx hrx =>
    ⟨(hshape rx hrx).1, by rw [(hshape rx hrx).2.k_eq, (hshape rx hrx).2.r_eq]; exact b.fits⟩
  have hfb : s.dec.feedback true = ⟨s.dec.nextDeliver, s.dec.nextDeliver, mask⟩ := by
    simp [feedback, hmask]
  have hnak : s.dec.nextDeliver ≠ nakNone := by
    rw [nakNone]
    omega
  rw [hfb, onFeedback_resends hnak le_rfl hpb, hholds.shards_eq, b.shards_length] at hbatch
  have hbufs : ∀ buf ∈ batch, ∃ idx, ShardAt b s.dec.nextDeliver (s.enc.epoch % 2 ^ 32) idx buf := by
    intro buf hbuf
    obtain ⟨idx, hidx, rfl⟩ := mem_map.mp (hbatch.subset hbuf)
    have hidx' := mem_range.mp (mem_filter.mp hidx).1
    exact ⟨idx, shardAt_datagram hholds hn hidx' ..⟩
  obtain ⟨dec', hrun, hwait', hle, hcover⟩ :=
    takeAll_head h.tower h.fits hb h.tracks hwait hcap le_rfl hbufs
  refine ⟨dec', hrun, lt_of_le_of_ne hle fun heq => ?_⟩
  -- were the frontier still there, the block would hold all its shards undecoded
  obtain ⟨hkeep, hgot⟩ := hcover heq.symm
  have hall : ∀ i < b.k + b.r, Has dec' s.dec.nextDeliver i := by
    intro i hi
    cases hbit : mask.getLsbD i with
    | true =>
      refine hgot i _ (hbatch.symm.subset (mem_map.mpr ⟨i, mem_filter.mpr ⟨?_, ?_⟩, rfl⟩))
        (shardAt_datagram hholds hn hi ..)
      · exact mem_range.mpr hi
      · rw [Nat.mod_eq_of_lt (by omega)]
        exact hbit
    | false =>
      obtain ⟨rx, hrx, hhas⟩ := hrest i (by omega) hbit
      have hex := (hshape rx hrx).2
      exact hkeep i ⟨rx, hrx, hhas (by rw [hex.k_eq, hex.r_eq]; exact hi)⟩
  rw [heq] at hb hall
  exact hwait'.lacks hb hall

end

theorem Advances.extends (h : Advances w items w' items') : w.Extends w' := by
  cases h with
  | stay => exact .refl w
  | sealed => exact w.extends_block _

structure Chases (cap : Nat) (s : Link) : Prop where
  off : s.enc.towerD = 0
  cap_eq : s.dec.windowCap = cap
  wire : ∀ buf ∈ s.wire, Sent s.enc.epoch buf
  faithful : s.enc.nextBlock ≤ 2 ^ 31 → ∃ w items, Linked w items s ∧
    Waiting w (s.enc.epoch % 2 ^ 32) s.dec

theorem chases_init {k r maxItem epoch cap : Nat} (hk : 0 < k) (hmax : k ≤ maxShards) :
    Chases (max cap 1) (Link.init k r maxItem epoch cap) where
  off := rfl
  cap_eq := rfl
  wire := nofun
  faithful := fun _ => ⟨World.start 0, [], linked_init hk hmax 0, waiting_init _ _ cap⟩

theorem chases_link (h : Chases cap s) (hev : ev.KeepsTower) (hstep : s.step ev = some s') :
    Chases cap s' := by
  have hturn := step_turn h.off hev hstep
  have hcont := hturn.continues h.off
  refine ⟨hcont.off, ?_, fun buf hbuf => ?_, fun hle => ?_⟩
  · rcases hturn.dec with hdec | ⟨buf, -, out, hrun⟩
    · rw [hdec]
      exact h.cap_eq
    · exact (ingest_next hrun).2.trans h.cap_eq
  · rw [hcont.epoch_eq]
    exact (hcont.wire buf hbuf).elim (h.wire buf) id
  obtain ⟨w, items, hlinked, hwait⟩ := h.faithful (hcont.next_le.trans hle)
  obtain ⟨w', items', hlinked', hadv, -⟩ := hlinked.advance h.off hturn hle
  refine ⟨w', items', hlinked', Waiting.mono ?_ hadv.extends⟩
  rw [hcont.epoch_eq]
  rcases hturn.dec with hdec | ⟨buf, hbuf, out, hrun⟩
  · rw [hdec]
    exact hwait
  obtain ⟨hd, hparse, hc⟩ := hlinked.wire buf hbuf
  obtain ⟨hd', hparse', hepoch⟩ := (h.wire buf hbuf).epoch_eq
  rw [hparse] at hparse'
  cases hparse'
  exact ingest_waiting hlinked.tower (lt_of_le_of_lt hlinked.fits (by decide))
    hlinked.tracks hwait hparse hc hepoch hrun

theorem chases_step (h : Chases cap s.link) (hok : InSession s ev) (hstep : s.step ev = some s') :
    Chases cap s'.link := by
  cases ev with
  | call ev =>
    obtain ⟨link, hlink, rfl⟩ := map_eq_some_iff.mp hstep
    exact chases_link h (inSession_call hok).1 hlink
  | report driveArq max =>
    cases hstep
    exact h
  | hear n =>
    simp only [ArqLink.step] at hstep
    split at hstep
    · cases hstep
      exact h
    rename_i fb hfb
    obtain ⟨link, hlink, rfl⟩ := map_eq_some_iff.mp hstep
    have hev : (Event.feedback fb).KeepsTower := trivial
    exact chases_link h hev hlink

/-- In every session with the tower off, over a network that loses, repeats and
reorders datagrams and feedback, the sender still holds every sealed block the
receiver has not passed. And if `k` fits the shard bitmap and the window size fits
32 bits, one driven round delivers: whatever the order in which the datagrams of
`on_feedback(feedback(true))` arrive, the frontier advances. -/
theorem arq_round_progress {k r maxItem epoch cap : Nat} {events : List ArqEvent} {s : ArqLink}
    (hsession : EveryStep ArqLink.step InSession (ArqLink.init k r maxItem epoch cap) events)
    (hrun : run ArqLink.step (ArqLink.init k r maxItem epoch cap) events = some s) :
    (∀ id, s.link.dec.nextDeliver ≤ id → id < s.link.enc.nextBlock →
      s.link.enc.pending.contains id = true) ∧
    (0 < k → k ≤ maxShards → max cap 1 % 2 ^ 32 ≠ 0 → s.link.enc.nextBlock ≤ 2 ^ 31 →
      s.link.dec.nextDeliver < s.link.enc.nextBlock → ∀ batch : List Datagram,
        batch.Perm (s.link.enc.onFeedback (s.link.dec.feedback true)).2 →
        ∃ dec', s.link.dec.takeAll batch = some dec' ∧
          s.link.dec.nextDeliver < dec'.nextDeliver) := by
  have hretains := run_invariant (fun _ _ _ => retains_step)
    (retains_init k r maxItem epoch cap) hsession hrun
  refine ⟨hretains.held, fun hk hmax hcap hblocks hlt batch hbatch => ?_⟩
  have hinit : Chases (max cap 1) (ArqLink.init k r maxItem epoch cap).link := chases_init hk hmax
  have hchases := run_invariant (fun _ _ _ => chases_step) hinit hsession hrun
  obtain ⟨w, items, hlinked, hwait⟩ := hchases.faithful hblocks
  refine round_advances hlinked hwait ?_ (hretains.held _ le_rfl hlt) hbatch
  rw [cap32, hchases.cap_eq]
  exact hcap

/-- The first block loses a shard, a stale report arrives, the second block waits. -/
def lateReports : List ArqEvent :=
  [.call (.push [byte 1]), .call (.push [byte 2]), .report true 4, .call (.push [byte 3]),
    .call .flush, .call (.deliver 1), .call (.deliver 2), .call (.deliver 3), .report false 4,
    .hear 2, .hear 0]

theorem arq_round_progress_lateReports :
    ∃ s, run ArqLink.step (ArqLink.init 2 0 4 7 16) lateReports = some s ∧
      s.link.dec.nextDeliver = 0 ∧ s.link.enc.nextBlock = 2 ∧
      ∃ dec', s.link.dec.takeAll (s.link.enc.onFeedback (s.link.dec.feedback true)).2 = some dec' ∧
        0 < dec'.nextDeliver := by
  have hsession : EveryStep ArqLink.step InSession (ArqLink.init 2 0 4 7 16) lateReports := by
    decide +kernel
  have hlast : (run ArqLink.step (ArqLink.init 2 0 4 7 16) lateReports).map
      (fun s => (s.link.dec.nextDeliver, s.link.enc.nextBlock)) = some (0, 2) := by
    decide +kernel
  obtain ⟨s, hrun, heq⟩ := map_eq_some_iff.mp hlast
  obtain ⟨hnext, hblocks⟩ := Prod.mk.inj heq
  obtain ⟨dec', htake, hlt⟩ := (arq_round_progress hsession hrun).2 (by decide) (by decide)
    (by decide) (by omega) (by omega) _ (List.Perm.refl _)
  exact ⟨s, hrun, hnext, hblocks, dec', htake, by rw [hnext] at hlt; exact hlt⟩

/-- `Encoder::new` takes 33 shards per block, which no header the receiver
accepts can name: the round resends every shard and nothing moves. -/
theorem oversized_block_stalls : EveryStep ArqLink.step InSession (ArqLink.init 33 0 4 7 16)
      [.call (.push [byte 1]), .call .flush] ∧
    (run ArqLink.step (ArqLink.init 33 0 4 7 16) [.call (.push [byte 1]), .call .flush]).bind
      (fun s => (s.link.dec.takeAll (s.link.enc.onFeedback (s.link.dec.feedback true)).2).map
        fun dec => (s.link.dec.nextDeliver, s.link.enc.nextBlock,
          (s.link.enc.onFeedback (s.link.dec.feedback true)).2.length, dec.nextDeliver)) =
      some (0, 1, 33, 0) :=
  ⟨by decide +kernel, by decide +kernel⟩

end SubEtha.Block
