import SubEtha.Block.Segments

namespace SubEtha.Block
open List Option Decoder Lib RsCode Encoder Link

variable {segLen : Nat} {w : World} {s s' : Link} {e e' : Encoder} {out : List Datagram}
  {before last : List Coded} {ev : Event}

theorem sealSegment_enc (h : e.sealSegment = some (e', out)) :
    ∃ segId, e' = { e with segInfos := [], segId := segId } := by
  unfold sealSegment at h
  dsimp only at h
  split at h
  · cases h
    exact ⟨_, rfl⟩
  simp only [bind_eq_bind, bind_eq_some_iff] at h
  obtain ⟨_, -, _, -, heq⟩ := h
  cases heq
  exact ⟨_, rfl⟩

theorem sealBlock_next (h : e.sealBlock = some (e', out)) : e'.nextBlock = e.nextBlock + 1 := by
  simp only [sealBlock, bind_eq_bind, bind_eq_some_iff] at h
  obtain ⟨⟨e1, out1⟩, hshards, h⟩ := h
  obtain ⟨pb, -, rfl, -⟩ := sealShards_some hshards
  split at h
  · split at h
    · obtain ⟨⟨e2, out2⟩, hsegment, heq⟩ := bind_eq_some_iff.mp h
      obtain ⟨segId, rfl⟩ := sealSegment_enc hsegment
      cases heq
      rfl
    · cases h
      rfl
  · cases h
    rfl

theorem push_next (h : e.push item = some (e', out)) : e.nextBlock ≤ e'.nextBlock := by
  unfold push at h
  dsimp only at h
  split at h
  · exact (Nat.le_succ _).trans (le_of_eq (sealBlock_next h).symm)
  · cases h
    exact le_rfl

theorem flush_next (h : e.flush = some (e', out)) : e.nextBlock ≤ e'.nextBlock := by
  simp only [flush, bind_eq_bind, bind_eq_some_iff] at h
  obtain ⟨⟨e1, out1⟩, hstaged, h⟩ := h
  have hle : e.nextBlock ≤ e1.nextBlock := by
    unfold flushStaged at hstaged
    split at hstaged
    · cases hstaged
      exact le_rfl
    · exact (Nat.le_succ _).trans (le_of_eq (sealBlock_next hstaged).symm)
  split at h
  · obtain ⟨⟨e2, out2⟩, hsegment, heq⟩ := bind_eq_some_iff.mp h
    obtain ⟨segId, rfl⟩ := sealSegment_enc hsegment
    cases heq
    exact hle
  · cases h
    exact hle

/-- The size of the segment a call closes, if it closes one. -/
def Encoder.closing (e : Encoder) : Event → Option Nat
  | .push _ =>
    if e.staged.length + 1 = e.k ∧ e.segInfos.length + 1 = e.towerD then
      some (e.segInfos.length + 1)
    else none
  | .flush =>
    if e.towerD = 0 ∨ e.staged = [] ∧ e.segInfos = [] then none
    else some (e.segInfos.length + if e.staged = [] then 0 else 1)
  | _ => none

/-- Every segment is closed where its id announces it. -/
def Placed (segLen : Nat) (s : Link) (ev : Event) : Prop :=
  ∀ d ∈ s.enc.closing ev,
    s.enc.Announces segLen (s.enc.nextBlock - s.enc.segInfos.length) d
deriving Decidable

/-- While block ids stay clear of the outer bit, both ends agree with the sealed
blocks and the closed segments. -/
def Recovers (segLen : Nat) (s : Link) : Prop :=
  s.enc.nextBlock ≤ 2 ^ 31 → ∃ w items before last, w.segLen = segLen ∧ Linked w items s ∧
    Towers w s.enc items before last

theorem recovers_init {k r maxItem epoch cap : Nat} (hk : 0 < k) (hmax : k ≤ maxShards) :
    Recovers segLen (init k r maxItem epoch cap) := by
  intro _
  have h : Linked (World.start segLen) [] (init k r maxItem epoch cap) := linked_init hk hmax segLen
  exact ⟨World.start segLen, [], [], [], rfl, h, h.sends, h.tower,
    ⟨rfl, rfl, by simp, nofun⟩, fun _ => rfl⟩

theorem Linked.sealed (h : Linked w items s) (hto : SealsTo w e w' e' out b pb) (hk : e.k = s.enc.k)
    (hnext : e.nextBlock = s.enc.nextBlock) (ht : Towers w' e' [] before last)
    (hfits : w.blocks.length < 2 ^ 31) : Linked w' [] (s.sent e' out) := by
  refine h.sent hto.extends_world ht.tower ht.sends ht.sends.k_pos hto.wire ?_ ?_
  · rw [hto.blocks_eq, length_append, length_singleton]
    exact hfits
  · rw [hto.blocks_eq, hto.pending_eq, ← hnext, Table.get?_insert, if_pos rfl, map_append,
      ← hk, map_some, hto.holds.take_data hto.k_eq]
    rfl

theorem Towers.stageItem (h : Towers w e items before last) (hlt : items.length < e.k)
    (item : Item) :
    Towers w { e with staged := e.staged ++ [stage item] } (items ++ [item]) before last where
  __ := h
  sends := ⟨h.sends.k_pos, h.sends.fits, h.sends.len_two, h.sends.next_eq, h.sends.same_k,
      by simp [h.sends.staged_eq], by simpa using hlt, h.sends.pending⟩
  segment := ⟨h.segment.blocks_eq, h.segment.infos_eq, h.segment.len_eq, h.segment.closed⟩

theorem recovers_push (h : Recovers segLen s) (hok : Placed segLen s (.push item))
    (hstep : s.step (.push item) = some s') : Recovers segLen s' := by
  simp only [step, bind_eq_bind, bind_eq_some_iff] at hstep
  obtain ⟨⟨enc, out⟩, hpush, heq⟩ := hstep
  cases heq
  intro hle
  obtain ⟨w, items, before, last, hseg, hlinked, htowers⟩ := h ((push_next hpush).trans hle)
  have hstaged := htowers.stageItem hlinked.staged_lt item
  obtain ⟨hlast, hfirst⟩ := htowers.first
  unfold push at hpush
  dsimp only at hpush
  split at hpush
  · rename_i hfull
    have hlt : w.blocks.length < 2 ^ 31 := by
      have hnext := sealBlock_next hpush
      rw [← hlinked.sends.next_eq]
      exact lt_of_lt_of_le (Nat.lt_succ_self _) ((le_of_eq hnext.symm).trans hle)
    obtain ⟨w', b, pb, before', last', hto, htowers', -⟩ := hstaged.sealBlock hlt (by
      intro hclose
      rw [hseg, ← hfirst, ← hlast]
      refine hok _ (if_pos ⟨?_, by rw [hlast]; exact hclose⟩)
      simpa using hfull) hpush
    refine ⟨w', [], before', last', hto.extends_world.segLen.trans hseg, ?_, htowers'⟩
    exact Linked.setPushed (hlinked.sealed hto rfl rfl htowers' hlt) _
  · rename_i hfull
    cases hpush
    refine ⟨w, items ++ [item], before, last, hseg, ?_, hstaged⟩
    refine Linked.setPushed (hlinked.sent (.refl w) hlinked.tower hstaged.sends ?_ (by simp)
      hlinked.fits ?_) _
    · have hlt := hlinked.staged_lt
      rw [hlinked.sends.staged_eq, length_append, length_map] at hfull
      rw [length_append, length_singleton]
      exact lt_of_le_of_ne hlt hfull
    · simp [hlinked.sends.pending_next]

theorem recovers_flush (h : Recovers segLen s) (hok : Placed segLen s .flush)
    (hstep : s.step .flush = some s') : Recovers segLen s' := by
  simp only [step, bind_eq_bind, bind_eq_some_iff] at hstep
  obtain ⟨⟨enc, out⟩, hflush, heq⟩ := hstep
  cases heq
  intro hle
  obtain ⟨w, items, before, last, hseg, hlinked, htowers⟩ := h ((flush_next hflush).trans hle)
  obtain ⟨hlast, hfirst⟩ := htowers.first
  simp only [flush, bind_eq_bind, bind_eq_some_iff] at hflush
  obtain ⟨⟨e1, out1⟩, hstaged, hflush⟩ := hflush
  unfold flushStaged at hstaged
  split at hstaged
  · rename_i hnone
    cases hstaged
    split at hflush
    · rename_i hopen
      obtain ⟨⟨e2, out2⟩, hsegment, heq⟩ := bind_eq_some_iff.mp hflush
      cases heq
      have hann : s.enc.Announces segLen before.length last.length := by
        rw [← hfirst, ← hlast]
        refine hok _ ?_
        simp [closing, hnone, hopen.1.ne', hopen.2]
      obtain ⟨⟨segId, rfl⟩, w', hw, hblocks, htowers', hout⟩ :=
        htowers.sealSegment (by rw [hseg]; exact hann) hsegment
      refine ⟨w', items, _, [], hw.segLen.trans hseg, ?_, htowers'⟩
      refine hlinked.sent hw htowers'.tower htowers'.sends hlinked.staged_lt (by simpa using hout)
        (by rw [hblocks]; exact hlinked.fits) ?_
      simp [hblocks, hlinked.sends.pending_next]
    · cases hflush
      refine ⟨w, items, before, last, hseg, ?_, htowers⟩
      exact hlinked.sent (.refl w) hlinked.tower hlinked.sends hlinked.staged_lt (by simp)
        hlinked.fits (by simp [hlinked.sends.pending_next])
  · rename_i hsome
    have hle1 : e1.nextBlock ≤ 2 ^ 31 := by
      split at hflush
      · obtain ⟨⟨e2, out2⟩, hsegment, heq⟩ := bind_eq_some_iff.mp hflush
        obtain ⟨segId, rfl⟩ := sealSegment_enc hsegment
        cases heq
        exact hle
      · cases hflush
        exact hle
    have hlt : w.blocks.length < 2 ^ 31 := by
      rw [← hlinked.sends.next_eq]
      exact lt_of_lt_of_le (Nat.lt_succ_self _)
        ((le_of_eq (sealBlock_next hstaged).symm).trans hle1)
    have hann (hon : s.enc.towerD ≠ 0) :
        s.enc.Announces segLen before.length (last.length + 1) := by
      rw [← hfirst, ← hlast]
      refine hok _ ?_
      simp [closing, hsome, hon]
    obtain ⟨w1, b, pb, before', last', hto, htowers', hjoin⟩ :=
      htowers.sealBlock hlt (fun hfull => by rw [hseg]; exact hann (by omega)) hstaged
    have hlinked' := hlinked.sealed hto rfl rfl htowers' hlt
    have hseg' := hto.extends_world.segLen.trans hseg
    obtain ⟨hk, hd, hro⟩ := hto.enc_eq
    split at hflush
    · rename_i hopen
      obtain ⟨⟨e2, out2⟩, hsegment, heq⟩ := bind_eq_some_iff.mp hflush
      cases heq
      rcases hjoin with hempty | ⟨rfl, rfl, hsegId⟩
      · exact absurd (by rw [htowers'.segment.infos_eq, hempty]; rfl) hopen.2
      have hann' : e1.Announces w1.segLen before'.length (last ++ [b]).length := by
        rw [hseg', length_append, length_singleton]
        have := hann (by rw [← hd]; exact hopen.1.ne')
        simpa only [Encoder.Announces, hro, hsegId] using this
      obtain ⟨⟨segId, he2⟩, w2, hw2, hblocks, htowers2, hout⟩ := htowers'.sealSegment hann' hsegment
      refine ⟨w2, [], _, [], hw2.segLen.trans hseg', ?_, htowers2⟩
      exact hlinked.sealed (hto.close hw2 hblocks he2 hout) rfl rfl htowers2 hlt
    · cases hflush
      exact ⟨w1, [], before', last', hseg', hlinked', htowers'⟩

theorem OpenSegment.congr (h : OpenSegment w e before last) (hinfos : e'.segInfos = e.segInfos)
    (hlen : e'.shardLen = e.shardLen) : OpenSegment w e' before last :=
  ⟨h.blocks_eq, hinfos.trans h.infos_eq, fun b hb => (h.len_eq b hb).trans hlen.symm, h.closed⟩

section
variable (h : Recovers segLen s)
include h

theorem recovers_enableTower (d rOuter : Nat) :
    Recovers segLen { s with enc := s.enc.enableTower d rOuter } := by
  have henc : ∃ d' r', s.enc.enableTower d rOuter =
      { s.enc with towerD := d', towerROuter := r', segInfos := [] } := by
    unfold enableTower
    split <;> exact ⟨_, _, rfl⟩
  obtain ⟨d', r', henc⟩ := henc
  rw [henc]
  intro hle
  obtain ⟨w, items, before, last, hseg, hlinked, htowers⟩ := h hle
  have hs := htowers.sends
  have hsends : Sends w { s.enc with towerD := d', towerROuter := r', segInfos := [] } items :=
    { hs with }
  exact ⟨w, items, w.blocks, [], hseg, { hlinked with sends := hsends }, hsends, htowers.tower,
    ⟨by rw [append_nil], rfl, by simp, htowers.tower.closed⟩, fun _ => rfl⟩

theorem recovers_quiet (hq : Quietly s s') : Recovers segLen s' := by
  have henc : ∃ acked pending, s'.enc = { s.enc with ackedThrough := acked, pending := pending } := by
    cases hq <;> exact ⟨_, _, rfl⟩
  obtain ⟨acked, pending, henc⟩ := henc
  intro hle
  obtain ⟨w, items, before, last, hseg, hlinked, htowers⟩ := h (by rwa [henc] at hle)
  obtain ⟨hlinked', -⟩ := hlinked.quiet hq
  exact ⟨w, items, before, last, hseg, hlinked', hlinked'.sends, htowers.tower,
    htowers.segment.congr (by rw [henc]) (by rw [henc]), by rw [henc]; exact htowers.off⟩

theorem recovers_step (hok : Placed segLen s ev)
    (hstep : s.step ev = some s') : Recovers segLen s' := by
  cases ev with
  | push item => exact recovers_push h hok hstep
  | flush => exact recovers_flush h hok hstep
  | setParity r =>
    cases hstep
    intro hle
    obtain ⟨w, items, before, last, hseg, hlinked, htowers⟩ := h hle
    have hlinked' := hlinked.setParity r
    exact ⟨w, items, before, last, hseg, hlinked', hlinked'.sends, htowers.tower,
      htowers.segment.congr rfl rfl, htowers.off⟩
  | enableTower d rOuter =>
    cases hstep
    exact recovers_enableTower h d rOuter
  | feedback | probe | retransmitAll | deliver =>
    exact recovers_quiet h (quiet_step hstep trivial)

theorem Recovers.injected (hle : s.enc.nextBlock ≤ 2 ^ 31) :
    ∀ p ∈ s.dec.injected, s.sealedData[p.1]? = some p.2 := by
  obtain ⟨w, items, before, last, -, hlinked, -⟩ := h hle
  intro p hp
  obtain ⟨b, hb, hdata⟩ := hlinked.tracks.injected p hp
  rw [hlinked.sealed_eq, getElem?_map, hb, hdata]
  rfl

end

section
variable {dec dec' : Decoder} {out : List Item}

def Decoder.NoOuter (dec : Decoder) : Prop := dec.towerD = 0 ∧ dec.injected = []

theorem drainLoop_noOuter (hrun : drainLoop fuel dec = some (dec', out)) (h : dec.NoOuter) :
    dec'.NoOuter := by
  induction fuel generalizing dec out with
  | zero =>
    cases hrun
    exact h
  | succ fuel ih =>
    have hnone : dec.tryTowerRecover dec.nextDeliver = none := by
      simp [tryTowerRecover, recoverInfo, h.1]
    simp only [drainLoop, hnone] at hrun
    split at hrun
    · split at hrun
      · split at hrun
        · cases hrun
        split at hrun
        · cases hrun
        obtain ⟨⟨dec1, out1⟩, hrun1, heq⟩ := map_eq_some_iff.mp hrun
        cases heq
        exact ih hrun1 h
      · cases hrun
        exact h
    · cases hrun
      exact h

theorem drainInOrder_noOuter (hrun : dec.drainInOrder = some (dec', out)) (h : dec.NoOuter) :
    dec'.NoOuter := by
  obtain ⟨⟨dec1, out1⟩, hrun1, heq⟩ := map_eq_some_iff.mp hrun
  cases heq
  have h1 := drainLoop_noOuter hrun1 h
  unfold trim
  dsimp only
  split <;> exact h1

theorem acceptShard_noOuter (hd : dec.NoOuter) (hrun : dec.acceptShard h = some (dec', out)) :
    dec'.NoOuter := by
  unfold acceptShard at hrun
  dsimp only at hrun
  split at hrun
  · exact drainInOrder_noOuter hrun hd
  split at hrun
  · cases hrun
  · split at hrun <;> exact drainInOrder_noOuter hrun hd

/-- Data blocks alone never start tower recovery. -/
theorem ingest_noOuter (hd : dec.NoOuter) (hparse : parseHeader buf = some h)
    (hid : h.blockId < outerIdBit) (hrun : dec.ingest buf = some (dec', out)) : dec'.NoOuter := by
  unfold ingest at hrun
  rw [hparse] at hrun
  dsimp only at hrun
  split at hrun
  · cases hrun
    exact hd
  rw [if_neg (Nat.not_le_of_lt hid)] at hrun
  split at hrun
  · cases hrun
    exact hd
  have hlearn : (learnInner { dec with sessionEpoch := some h.epoch } h).NoOuter := by
    unfold learnInner
    split <;> exact hd
  unfold ingestData at hrun
  split at hrun
  · cases hrun
    exact hlearn
  split at hrun
  · cases hrun
    exact hlearn
  · exact acceptShard_noOuter hlearn hrun

/-- `k` and `r` no code exists for: closing a segment with them panics. -/
def Encoder.Uncoded (e : Encoder) : Prop := e.k = 0 ∨ maxShards < e.k ∧ e.r = 0

def DataOf (id : Nat) (buf : Datagram) : Prop :=
  ∃ (pb : PendingBlock) (i flags epoch : Nat), buf = pb.datagramFlagged id i flags epoch

theorem sealSegment_uncoded (h : e.Uncoded) (hseal : e.sealSegment = some (e', out)) :
    out = [] := by
  have hparity : ∀ len data, encodeParity e.k e.r len data = none := by
    intro len data
    have hcode : RsCode.new e.k e.r = .error .badParams := by
      rw [RsCode.new, dif_pos]
      rcases h with h | h
      · exact .inl h
      · exact .inr (.inl h.2)
    simp [encodeParity, hcode, Except.toOption]
  unfold sealSegment at hseal
  dsimp only at hseal
  split at hseal
  · cases hseal
    rfl
  simp only [bind_eq_bind, bind_eq_some_iff] at hseal
  obtain ⟨outer, -, out', hout, heq⟩ := hseal
  cases heq
  cases outer with
  | nil =>
    cases hout
    rfl
  | cons oinfo rest => simp [outerDatagrams, outerBlock, hparity] at hout

structure SendsData (e e' : Encoder) (out : List Datagram) : Prop where
  code_eq : e'.k = e.k ∧ e'.r = e.r
  next_le : e.nextBlock ≤ e'.nextBlock
  pending : ∀ id pb, e'.pending.get? id = some pb →
    e.pending.get? id = some pb ∨ id < e'.nextBlock
  wire : ∀ buf ∈ out, ∃ id < e'.nextBlock, DataOf id buf

theorem sendsData_sealSegment (h : e.Uncoded) (h1 : SendsData e e1 out1)
    (hseal : e1.sealSegment = some (e', out)) : SendsData e e' (out1 ++ out) := by
  have hu : e1.Uncoded := by
    rw [Encoder.Uncoded, h1.code_eq.1, h1.code_eq.2]
    exact h
  obtain ⟨segId, rfl⟩ := sealSegment_enc hseal
  rw [sealSegment_uncoded hu hseal, append_nil]
  exact { h1 with }

theorem sendsData_sealBlock (h : e.Uncoded) (hseal : e.sealBlock = some (e', out)) :
    SendsData e e' out := by
  simp only [sealBlock, bind_eq_bind, bind_eq_some_iff] at hseal
  obtain ⟨⟨e1, out1⟩, hshards, hseal⟩ := hseal
  obtain ⟨pb, -, rfl, rfl⟩ := sealShards_some hshards
  have h1 : ∀ infos, SendsData e { e with
      nextBlock := e.nextBlock + 1
      pending := e.pending.insert e.nextBlock pb
      staged := []
      segInfos := infos }
      ((range (e.k + e.r)).map fun i => pb.datagram e.nextBlock i e.epoch) := by
    refine fun infos => ⟨⟨rfl, rfl⟩, Nat.le_succ _, fun id pb' hpb' => ?_, fun buf hbuf => ?_⟩
    · rcases Table.get?_insert_some hpb' with ⟨rfl, -⟩ | ⟨-, hpb'⟩
      · exact .inr (Nat.lt_succ_self _)
      · exact .inl hpb'
    · obtain ⟨i, -, rfl⟩ := mem_map.mp hbuf
      exact ⟨_, Nat.lt_succ_self _, pb, i, 0, e.epoch, rfl⟩
  split at hseal
  · split at hseal
    · obtain ⟨⟨e2, out2⟩, hsegment, heq⟩ := bind_eq_some_iff.mp hseal
      cases heq
      exact sendsData_sealSegment h (h1 _) hsegment
    · cases hseal
      exact h1 _
  · cases hseal
    exact h1 e.segInfos

theorem sendsData_push (h : e.Uncoded) (hpush : e.push item = some (e', out)) :
    SendsData e e' out := by
  unfold push at hpush
  dsimp only at hpush
  split at hpush
  · have := sendsData_sealBlock (e := { e with
      staged := e.staged ++ [leBytes16 (item.length % 2 ^ 16) ++ item] }) h hpush
    exact { this with }
  · cases hpush
    exact ⟨⟨rfl, rfl⟩, le_rfl, fun _ _ => .inl, by simp⟩

theorem sendsData_flush (h : e.Uncoded) (hflush : e.flush = some (e', out)) :
    SendsData e e' out := by
  simp only [flush, bind_eq_bind, bind_eq_some_iff] at hflush
  obtain ⟨⟨e1, out1⟩, hstaged, hflush⟩ := hflush
  have h1 : SendsData e e1 out1 := by
    unfold flushStaged at hstaged
    split at hstaged
    · cases hstaged
      exact ⟨⟨rfl, rfl⟩, le_rfl, fun _ _ => .inl, by simp⟩
    · exact sendsData_sealBlock h hstaged
  split at hflush
  · obtain ⟨⟨e2, out2⟩, hsegment, heq⟩ := bind_eq_some_iff.mp hflush
    cases heq
    exact sendsData_sealSegment h h1 hsegment
  · cases hflush
    exact h1

/-- Only data blocks have been sent, so nothing has been injected. -/
structure DataOnly (s : Link) : Prop where
  uncoded : s.enc.Uncoded
  pending : ∀ id pb, s.enc.pending.get? id = some pb → id < s.enc.nextBlock
  wire : ∀ buf ∈ s.wire, ∃ id < s.enc.nextBlock, DataOf id buf
  noOuter : s.enc.nextBlock ≤ 2 ^ 31 → s.dec.NoOuter

theorem DataOnly.sent {enc : Encoder} (h : DataOnly s) (hout : SendsData s.enc enc out)
    (pushed : List Item) : DataOnly { s.sent enc out with pushed := pushed } where
  uncoded := by
    dsimp only [Link.sent]
    rw [Encoder.Uncoded, hout.code_eq.1, hout.code_eq.2]
    exact h.uncoded
  pending := by
    intro id pb hpb
    rcases hout.pending id pb hpb with hpb | hid
    · exact lt_of_lt_of_le (h.pending id pb hpb) hout.next_le
    · exact hid
  wire := by
    intro buf hbuf
    rcases mem_append.mp hbuf with hbuf | hbuf
    · obtain ⟨id, hid, hdata⟩ := h.wire buf hbuf
      exact ⟨id, lt_of_lt_of_le hid hout.next_le, hdata⟩
    · exact hout.wire buf hbuf
  noOuter := fun hle => h.noOuter (hout.next_le.trans hle)

theorem DataOnly.quiet (h : DataOnly s) (hq : Quietly s s') : DataOnly s' := by
  cases hq with
  | resent hheld hwire =>
    refine { h with
      pending := fun id pb hpb => h.pending id pb (hheld id pb hpb)
      wire := fun buf hbuf => (mem_append.mp hbuf).elim (h.wire buf) fun hbuf => ?_ }
    obtain ⟨id, pb, idx, flags, hpb, -, rfl⟩ := hwire buf hbuf
    exact ⟨id, h.pending id pb hpb, pb, idx, flags, _, rfl⟩
  | took hbuf hrun =>
    refine { h with noOuter := fun hle => ?_ }
    obtain ⟨id, hid, pb, i, flags, epoch, rfl⟩ := h.wire _ hbuf
    have hlt : id < 2 ^ 31 := lt_of_lt_of_le hid hle
    refine ingest_noOuter (h.noOuter hle) (parseHeader_datagram ..) ?_ hrun
    dsimp only
    rw [outerIdBit]
    omega
  | idle => exact h

theorem dataOnly_step (h : DataOnly s) (hstep : s.step ev = some s') : DataOnly s' := by
  cases ev with
  | push item =>
    obtain ⟨⟨enc, out⟩, hpush, heq⟩ := bind_eq_some_iff.mp hstep
    cases heq
    exact h.sent (sendsData_push h.uncoded hpush) _
  | flush =>
    obtain ⟨⟨enc, out⟩, hflush, heq⟩ := bind_eq_some_iff.mp hstep
    cases heq
    exact h.sent (sendsData_flush h.uncoded hflush) s.pushed
  | setParity r =>
    cases hstep
    refine { h with uncoded := ?_ }
    rcases h.uncoded with hk | ⟨hk, -⟩
    · exact .inl hk
    refine .inr ⟨hk, ?_⟩
    simp only [setParity, rMax]
    omega
  | enableTower d rOuter =>
    cases hstep
    unfold enableTower
    split <;> exact { h with }
  | feedback | probe | retransmitAll | deliver => exact h.quiet (quiet_step hstep trivial)

theorem dataOnly_init {k r maxItem epoch cap : Nat} (hk : k = 0 ∨ maxShards < k) :
    DataOnly (init k r maxItem epoch cap) where
  uncoded := by
    rcases hk with hk | hk
    · exact .inl hk
    refine .inr ⟨hk, ?_⟩
    simp only [init, Encoder.new, Encoder.rMax]
    omega
  pending := nofun
  wire := nofun
  noOuter := fun _ => ⟨rfl, rfl⟩

end

/-- In every run in which each tower segment is closed where its id announces
it, every block that tower recovery injects is the block sealed under its id. -/
theorem injected_eq_sealed {k r maxItem epoch cap segLen : Nat} {events : List Event} {s : Link}
    (hplaced : EveryStep step (Placed segLen) (init k r maxItem epoch cap) events)
    (hrun : run step (init k r maxItem epoch cap) events = some s)
    (hblocks : s.enc.nextBlock ≤ 2 ^ 31) : ∀ p ∈ s.dec.injected, s.sealedData[p.1]? = some p.2 := by
  by_cases hk : 0 < k ∧ k ≤ maxShards
  · have h := run_invariant (fun _ _ _ => recovers_step) (recovers_init hk.1 hk.2) hplaced hrun
    exact h.injected hblocks
  have h := run_invariant (fun _ _ _ h _ => dataOnly_step h) (dataOnly_init (by omega)) hplaced hrun
  rw [(h.noOuter hblocks).2]
  simp

/-- A segment of two blocks; the second block is lost and its outer block arrives. -/
def lostBlock : List Event :=
  [.enableTower 2 1, .push [byte 1], .push [byte 2], .deliver 0, .deliver 4]

theorem injected_eq_sealed_lostBlock :
    ∃ s, run step (init 1 1 1 7 16) lostBlock = some s ∧ s.dec.injected.map Prod.fst = [1] ∧
      ∀ p ∈ s.dec.injected, s.sealedData[p.1]? = some p.2 := by
  have hlast : EveryStep step (Placed 2) (init 1 1 1 7 16) lostBlock ∧
      (run step (init 1 1 1 7 16) lostBlock).map
        (fun s => (s.enc.nextBlock, s.dec.injected.map Prod.fst)) = some (2, [1]) := by
    decide +kernel
  obtain ⟨s, hrun, heq⟩ := map_eq_some_iff.mp hlast.2
  obtain ⟨hblocks, hinjected⟩ := Prod.mk.inj heq
  exact ⟨s, hrun, hinjected, injected_eq_sealed hlast.1 hrun (by omega)⟩

/-- A flush closes a segment of one block, the next one has two: the receiver
looks for the second segment one block too far. -/
def flushedSegment : List Event :=
  [.enableTower 2 1, .push [byte 1], .flush, .push [byte 2], .push [byte 3],
    .deliver 0, .deliver 4, .deliver 6, .deliver 8]

/-- Recovery then injects a block the sender never sealed. -/
theorem injected_never_sealed : ∃ s, run step (init 1 1 2 7 256) flushedSegment = some s ∧
      s.enc.nextBlock ≤ 2 ^ 31 ∧ ∃ p ∈ s.dec.injected, s.sealedData[p.1]? ≠ some p.2 := by
  have hlast : (run step (init 1 1 2 7 256) flushedSegment).map
      (fun s => (s.enc.nextBlock, s.sealedData.length, s.dec.injected.map Prod.fst)) =
        some (3, 3, [3]) := by
    decide +kernel
  obtain ⟨s, hrun, heq⟩ := map_eq_some_iff.mp hlast
  simp only [Prod.mk.injEq] at heq
  obtain ⟨hblocks, hsealed, hinjected⟩ := heq
  obtain ⟨p, hp, hid⟩ := mem_map.mp
    (show 3 ∈ s.dec.injected.map Prod.fst by rw [hinjected]; exact mem_singleton_self _)
  refine ⟨s, hrun, by omega, p, hp, ?_⟩
  rw [getElem?_eq_none (by omega)]
  simp

end SubEtha.Block
