import SubEtha.Block.Tracking
import SubEtha.Block.Link

namespace SubEtha.Block
open List Lib RsCode Encoder Option

theorem le32_eq (n : Nat) :
    n % 256 + n / 2 ^ 8 % 256 * 2 ^ 8 + n / 2 ^ 16 % 256 * 2 ^ 16 + n / 2 ^ 24 % 256 * 2 ^ 24 =
      n % 2 ^ 32 := by
  omega

theorem parseHeader_datagram (pb : PendingBlock) (blockId idx flags epoch : Nat) :
    parseHeader (pb.datagramFlagged blockId idx flags epoch) = some {
      blockId := blockId % 2 ^ 32
      shardIndex := idx % 256
      k := pb.k % 256
      r := pb.r % 256
      epoch := epoch % 2 ^ 32
      payload := pb.shards.getD idx [] } := by
  have hlen : dataHeader ≤ (pb.datagramFlagged blockId idx flags epoch).length := by
    simp [PendingBlock.datagramFlagged, leBytes32, dataHeader]
  have htag : byteAt (pb.datagramFlagged blockId idx flags epoch) 0 = pktData := by
    simp [PendingBlock.datagramFlagged, byteAt, pktData]
  rw [parseHeader, if_pos ⟨htag, hlen⟩]
  simp only [PendingBlock.datagramFlagged, leBytes32, le32At, byteAt, dataHeader, cons_append,
    nil_append, getD_cons_succ, getD_cons_zero, toNat_byte, drop_succ_cons, drop_zero, le32_eq]

theorem resize_length (len : Nat) (s : List Byte) : (resize len s).length = len := by
  rw [resize, length_append, length_take, length_replicate]
  omega

/-- `encode` succeeds wherever the encoder calls it with `k` shards of one length. -/
theorem encodeParity_eq {k r len : Nat} (hcode : RsCode.new k r = .ok code) (hlen : 0 < len)
    (hdata : data.length = k) (hd : ∀ s ∈ data, s.length = len) :
    encodeParity k r len data = some (code.parityOf data len) := by
  obtain ⟨hk, hr⟩ := new_dims hcode
  have hbuffers : (replicate r (replicate len (byte 0))).length = code.r := by
    simp [hr]
  have henc := code.encode_ok (hdata.trans hk.symm) hbuffers hlen hd (by
    intro s hs
    rw [eq_of_mem_replicate hs, length_replicate])
  simp [encodeParity, hcode, henc, Except.toOption]

def stage (item : Item) : List Byte := leBytes16 (item.length % 2 ^ 16) ++ item

/-- A held block is the sealed one, header fields included. -/
structure Holds (b : Coded) (pb : PendingBlock) : Prop where
  k_eq : pb.k = b.k
  r_eq : pb.r = b.r
  shards_eq : pb.shards = b.shards

/-- The sender's side: its ids and held blocks are those of the world, and
`items` are staged for the next block. -/
structure Sends (w : World) (e : Encoder) (items : List Item) : Prop where
  k_pos : 0 < e.k
  fits : e.k + e.r ≤ maxShards
  len_two : itemLenPrefix ≤ e.shardLen
  next_eq : e.nextBlock = w.blocks.length
  same_k : ∀ b ∈ w.blocks, b.k = e.k
  staged_eq : e.staged = items.map stage
  staged_le : items.length ≤ e.k
  pending : ∀ id pb, e.pending.get? id = some pb → ∃ b, w.blocks[id]? = some b ∧ Holds b pb

theorem sends_new {k r maxItem epoch : Nat} (hk : 0 < k) (hmax : k ≤ maxShards) (segLen : Nat) :
    Sends (World.start segLen) (new k r maxItem epoch) [] where
  k_pos := hk
  fits := by
    simp only [Encoder.new, Encoder.rMax]
    omega
  len_two := Nat.le_add_left ..
  next_eq := rfl
  same_k := nofun
  staged_eq := rfl
  staged_le := Nat.zero_le _
  pending := nofun

theorem foldl_max_le (l : List Nat) (n : Nat) : n ≤ l.foldl max n ∧ ∀ a ∈ l, a ≤ l.foldl max n := by
  induction l generalizing n with
  | nil => exact ⟨le_rfl, by simp⟩
  | cons a l ih =>
    obtain ⟨hn, hl⟩ := ih (max n a)
    refine ⟨(le_max_left n a).trans hn, ?_⟩
    intro b hb
    rcases mem_cons.mp hb with rfl | hb
    · exact (le_max_right n b).trans hn
    · exact hl b hb

variable {e : Encoder}

theorem blockShardLen_two (h : itemLenPrefix ≤ e.shardLen) : itemLenPrefix ≤ e.blockShardLen := by
  unfold blockShardLen
  split
  · exact h
  · exact (foldl_max_le _ _).1

theorem dataShards_length (h : e.staged.length ≤ e.k) : e.dataShards.length = e.k := by
  rw [dataShards, length_append, length_map, length_replicate]
  omega

theorem dataShards_len (e : Encoder) : ∀ s ∈ e.dataShards, s.length = e.blockShardLen := by
  intro s hs
  rcases mem_append.mp hs with hs | hs
  · obtain ⟨t, -, rfl⟩ := mem_map.mp hs
    exact resize_length ..
  · simp [eq_of_mem_replicate hs]

theorem sealShards_some (h : e.sealShards = some (e', out)) :
    ∃ pb : PendingBlock, pb.k = e.k % 256 ∧ e' = { e with
        nextBlock := e.nextBlock + 1
        pending := e.pending.insert e.nextBlock pb
        staged := [] } ∧
      out = (range (e.k + e.r)).map fun i => pb.datagram e.nextBlock i e.epoch := by
  obtain ⟨parity, -, heq⟩ := Option.map_eq_some_iff.mp h
  cases heq
  exact ⟨_, rfl, rfl, rfl⟩

theorem sealShards_spec (hk : 0 < e.k) (hfits : e.k + e.r ≤ maxShards)
    (hlen : itemLenPrefix ≤ e.shardLen) (hstaged : e.staged.length ≤ e.k) :
    ∃ (b : Coded) (pb : PendingBlock), b.k = e.k ∧ b.r = e.r ∧ b.len = e.blockShardLen ∧
      b.data = e.dataShards ∧ Holds b pb ∧ e.sealShards = some ({ e with
        nextBlock := e.nextBlock + 1
        pending := e.pending.insert e.nextBlock pb
        staged := [] },
        (range (b.k + b.r)).map fun i => pb.datagram e.nextBlock i e.epoch) := by
  have hfits' : e.k + e.r ≤ 32 := hfits
  have htwo := blockShardLen_two hlen
  have hpos : 0 < e.blockShardLen := lt_of_lt_of_le two_pos htwo
  have hmod : e.k % 256 = e.k ∧ e.r % 256 = e.r := by omega
  by_cases hr : e.r = 0
  · refine ⟨⟨e.k, e.r, e.blockShardLen, e.dataShards, [], hk, hfits, htwo,
      dataShards_length hstaged, dataShards_len e, .inl ⟨hr, rfl⟩⟩,
      ⟨e.k, e.r, e.dataShards⟩, rfl, rfl, rfl, rfl, ⟨rfl, rfl, by simp [Coded.shards]⟩, ?_⟩
    simp [sealShards, blockParity, hr, hmod]
  obtain ⟨code, hcode, -⟩ := new_ok hk (pos_of_ne_zero hr) (by omega)
  have henc := encodeParity_eq hcode hpos (dataShards_length hstaged) (dataShards_len e)
  refine ⟨⟨e.k, e.r, e.blockShardLen, e.dataShards, _, hk, hfits, htwo,
    dataShards_length hstaged, dataShards_len e, .inr ⟨code, hcode, rfl⟩⟩,
    ⟨e.k, e.r, e.dataShards ++ code.parityOf e.dataShards e.blockShardLen⟩, rfl, rfl, rfl, rfl,
    ⟨rfl, rfl, rfl⟩, ?_⟩
  simp [sealShards, blockParity, hr, hmod, henc]

def OnWire (w : World) (buf : Datagram) : Prop := ∃ h, parseHeader buf = some h ∧ Carries w h

variable {w w' : World} {b : Coded} {pb : PendingBlock} {epoch : Nat} {items : List Item}
  {s s' : Link} {e : Encoder}

theorem OnWire.mono (h : OnWire w buf) (hw : w.Extends w') : OnWire w' buf := by
  obtain ⟨hd, hparse, hc⟩ := h
  exact ⟨hd, hparse, hc.mono hw⟩

theorem shardOf_datagram (hb : Holds b pb) (blockId flags epoch : Nat) (hidx : idx < b.k + b.r) :
    ∃ h, parseHeader (pb.datagramFlagged blockId idx flags epoch) = some h ∧
      h.blockId = blockId % 2 ^ 32 ∧ ShardOf b h := by
  have hfits : b.k + b.r ≤ 32 := b.fits
  refine ⟨_, parseHeader_datagram .., rfl, ?_, ?_, ?_⟩
  · dsimp only
    rw [hb.k_eq]
    omega
  · dsimp only
    rw [hb.r_eq]
    omega
  · dsimp only
    rw [← b.shards_length] at hidx
    rw [Nat.mod_eq_of_lt (by rw [b.shards_length] at hidx; omega), hb.shards_eq,
      getD_eq_getElem?_getD, getElem?_eq_getElem hidx]
    rfl

theorem onWire_datagram (hblock : w.blocks[blockId]? = some b) (hfits : w.blocks.length ≤ 2 ^ 31)
    (hb : Holds b pb) (hidx : idx < b.k + b.r) :
    OnWire w (pb.datagramFlagged blockId idx flags epoch) := by
  have hlt := lt_of_some hblock
  obtain ⟨h, hparse, hid, hs⟩ := shardOf_datagram hb blockId flags epoch hidx
  rw [Nat.mod_eq_of_lt (by omega)] at hid
  refine ⟨h, hparse, .inl ⟨?_, b, by rwa [hid], hs⟩⟩
  rw [hid, outerIdBit]
  omega

theorem World.extends_block (w : World) (b : Coded) :
    w.Extends { w with blocks := w.blocks ++ [b] } :=
  ⟨prefix_append _ _, fun _ _ _ h => h, rfl⟩

theorem World.Extends.refl (w : World) : w.Extends w := ⟨prefix_rfl, fun _ _ _ h => h, rfl⟩

theorem World.segInfos_append (w : World) (b : Coded)
    (h : seg * w.segLen + w.segLen ≤ w.blocks.length) :
    World.segInfos { w with blocks := w.blocks ++ [b] } seg = w.segInfos seg := by
  unfold World.segInfos
  dsimp only
  rw [drop_append_of_le_length (by omega), take_append_of_le_length (by
    rw [length_drop]
    omega)]

theorem TowerOk.block (hw : TowerOk w) (hk : ∀ b' ∈ w.blocks, b'.k = b.k) :
    TowerOk { w with blocks := w.blocks ++ [b] } where
  same_k := by
    have hall : ∀ b' ∈ w.blocks ++ [b], b'.k = b.k := by
      intro b' hb'
      rcases mem_append.mp hb' with hb' | hb'
      · exact hk b' hb'
      · rw [mem_singleton.mp hb']
    intro b1 hb1 b2 hb2
    rw [hall b1 hb1, hall b2 hb2]
  closed := by
    intro seg j o ho
    have := hw.closed seg j o ho
    rw [length_append]
    exact Nat.le_add_right_of_le this
  coded := hw.coded
  parity := by
    intro seg j o ho
    rw [w.segInfos_append b (hw.closed seg j o ho)]
    exact hw.parity seg j o ho

theorem towerOk_start (segLen : Nat) : TowerOk (World.start segLen) where
  same_k := nofun
  closed := nofun
  coded := nofun
  parity := nofun

/-- Both ends and the wire between them agree with the blocks sealed so far. -/
structure Linked (w : World) (items : List Item) (s : Link) : Prop where
  sends : Sends w s.enc items
  staged_lt : items.length < s.enc.k
  wire : ∀ buf ∈ s.wire, OnWire w buf
  tracks : Tracks w s.dec
  tower : TowerOk w
  sealed_eq : s.sealedData = w.blocks.map Coded.data
  delivered_eq : s.delivered = w.itemsBelow s.dec.nextDeliver
  fits : w.blocks.length ≤ 2 ^ 31

theorem linked_init {k r maxItem cap : Nat} (hk : 0 < k) (hmax : k ≤ maxShards) (segLen : Nat) :
    Linked (World.start segLen) [] (Link.init k r maxItem epoch cap) where
  sends := sends_new hk hmax segLen
  staged_lt := hk
  wire := nofun
  tracks := tracks_init _ _
  tower := towerOk_start segLen
  sealed_eq := rfl
  delivered_eq := rfl
  fits := Nat.zero_le _

/-- Sealing adds one block to the world: the staged shards under the next id. -/
theorem Sends.sealShards (h : Sends w e items) (hfits : w.blocks.length < 2 ^ 31) :
    ∃ (b : Coded) (pb : PendingBlock) (out : List Datagram), e.sealShards = some ({ e with
        nextBlock := e.nextBlock + 1
        pending := e.pending.insert e.nextBlock pb
        staged := [] }, out) ∧
      b.k = e.k ∧ b.len = e.blockShardLen ∧ b.data = e.dataShards ∧ Holds b pb ∧
      Sends { w with blocks := w.blocks ++ [b] } { e with
        nextBlock := e.nextBlock + 1
        pending := e.pending.insert e.nextBlock pb
        staged := [] } [] ∧ ∀ buf ∈ out, OnWire { w with blocks := w.blocks ++ [b] } buf := by
  obtain ⟨b, pb, hk, hr, hlen, hdata, hb, hseal⟩ := sealShards_spec h.k_pos h.fits h.len_two
    (by rw [h.staged_eq, length_map]; exact h.staged_le)
  have hnew : (w.blocks ++ [b])[e.nextBlock]? = some b := by
    rw [h.next_eq, getElem?_append_right le_rfl, Nat.sub_self]
    rfl
  refine ⟨b, pb, _, hseal, hk, hlen, hdata, hb, ⟨h.k_pos, h.fits, h.len_two, ?_, ?_, rfl,
    Nat.zero_le _, ?_⟩, ?_⟩
  · simp [h.next_eq]
  · intro b' hb'
    rcases mem_append.mp hb' with hb' | hb'
    · exact h.same_k b' hb'
    · rw [mem_singleton.mp hb']
      exact hk
  · refine Table.forall_insert (fun id pb' hpb' => ?_) ⟨b, hnew, hb⟩
    obtain ⟨b', hb', hh⟩ := h.pending id pb' hpb'
    exact ⟨b', getElem?_of_isPrefix (prefix_append _ _) hb', hh⟩
  · intro buf hbuf
    obtain ⟨i, hi, rfl⟩ := mem_map.mp hbuf
    refine onWire_datagram hnew ?_ hb (mem_range.mp hi)
    rw [length_append, length_singleton]
    exact hfits

theorem World.itemsBelow_of_isPrefix (h : w.blocks <+: w'.blocks) (hn : n ≤ w.blocks.length) :
    w'.itemsBelow n = w.itemsBelow n := by
  obtain ⟨t, ht⟩ := h
  rw [itemsBelow, itemsBelow, ← ht, take_append_of_le_length hn]

/-- An encoder call moved the world on to `w'` and put `out` on the wire. -/
theorem Linked.sent (h : Linked w items s) (hw : w.Extends w') (htower : TowerOk w')
    (hsends : Sends w' enc items') (hlt : items'.length < enc.k) (hout : ∀ buf ∈ out, OnWire w' buf)
    (hfits : w'.blocks.length ≤ 2 ^ 31)
    (hsealed : w'.blocks.map Coded.data = w.blocks.map Coded.data ++
      ((enc.pending.get? s.enc.nextBlock).map fun pb => pb.shards.take s.enc.k).toList) :
    Linked w' items' (s.sent enc out) where
  sends := hsends
  staged_lt := hlt
  wire := by
    intro buf hbuf
    rcases mem_append.mp hbuf with hbuf | hbuf
    · exact (h.wire buf hbuf).mono hw
    · exact hout buf hbuf
  tracks := h.tracks.mono hw
  tower := htower
  sealed_eq := by
    rw [hsealed, ← h.sealed_eq]
    rfl
  delivered_eq := by
    change s.delivered = w'.itemsBelow s.dec.nextDeliver
    rw [World.itemsBelow_of_isPrefix hw.blocks h.tracks.next_le, h.delivered_eq]
  fits := hfits

theorem Linked.setPushed (h : Linked w items s) (pushed : List Item) :
    Linked w items { s with pushed := pushed } :=
  { h with }

theorem Sends.pending_next (h : Sends w e items) : e.pending.get? e.nextBlock = none := by
  cases hpb : e.pending.get? e.nextBlock with
  | none => rfl
  | some pb =>
    obtain ⟨b, hb, -⟩ := h.pending _ pb hpb
    have := lt_of_some hb
    rw [h.next_eq] at this
    omega

theorem Holds.take_data (h : Holds b pb) {k : Nat} (hk : b.k = k) : pb.shards.take k = b.data := by
  rw [h.shards_eq, ← hk, b.shards_take]

/-- The steps that leave the encoder's blocks as they are. -/
def Event.Quiet : Event → Prop
  | .feedback _ | .probe _ | .retransmitAll | .deliver _ => True
  | _ => False

theorem onFeedback_enc (e : Encoder) (fb : Feedback) : (e.onFeedback fb).1 = { e with
    ackedThrough := max fb.ackThrough e.ackedThrough
    pending := e.pending.retain fun id => fb.ackThrough ≤ id } := by
  unfold onFeedback
  dsimp only
  split
  · split <;> rfl
  · rfl

/-- A datagram with a shard of a block that the sender holds. -/
def Encoder.Resends (e : Encoder) (buf : Datagram) : Prop :=
  ∃ id pb idx flags, e.pending.get? id = some pb ∧ (idx < pb.shards.length ∨ idx < pb.k) ∧
    buf = pb.datagramFlagged id idx flags e.epoch

theorem resends_onFeedback (hbuf : buf ∈ (e.onFeedback fb).2) : e.Resends buf := by
  unfold onFeedback at hbuf
  dsimp only at hbuf
  split at hbuf
  · split at hbuf
    · rename_i pb hpb
      obtain ⟨idx, hidx, rfl⟩ := mem_map.mp hbuf
      have hlt := mem_range.mp (mem_filter.mp hidx).1
      exact ⟨_, pb, idx, _, (Table.get?_retain_some hpb).2, .inl hlt, rfl⟩
    · cases hbuf
  · cases hbuf

theorem resends_probeBlock (hbuf : buf ∈ e.probeBlock blockId) : e.Resends buf := by
  unfold probeBlock at hbuf
  split at hbuf
  · rename_i pb hpb
    obtain ⟨idx, hidx, rfl⟩ := mem_map.mp hbuf
    exact ⟨_, pb, idx, _, hpb, .inr (mem_range.mp hidx), rfl⟩
  · cases hbuf

/-- What a quiet step does: blocks are freed and shards of held ones go out again, or a
datagram arrives. -/
inductive Quietly (s : Link) : Link → Prop
  | resent {acked : Nat} {pending : Table Nat PendingBlock} {out : List Datagram}
      (held : ∀ id pb, pending.get? id = some pb → s.enc.pending.get? id = some pb)
      (wire : ∀ buf ∈ out, s.enc.Resends buf) : Quietly s { s with
        enc := { s.enc with ackedThrough := acked, pending := pending }, wire := s.wire ++ out }
  | took (sent : buf ∈ s.wire) (run : s.dec.ingest buf = some (dec, out)) :
      Quietly s { s with dec := dec, delivered := s.delivered ++ out }
  | idle : Quietly s s

theorem quiet_step (hstep : s.step ev = some s') (hq : ev.Quiet) : Quietly s s' := by
  cases ev with
  | feedback fb =>
    cases hstep
    rw [onFeedback_enc]
    exact .resent (fun _ _ h => (Table.get?_retain_some h).2) fun _ => resends_onFeedback
  | probe blockId =>
    cases hstep
    exact .resent (fun _ _ h => h) fun _ => resends_probeBlock
  | retransmitAll =>
    cases hstep
    refine .resent (fun _ _ h => h) fun buf hbuf => ?_
    obtain ⟨id, -, hbuf⟩ := mem_flatMap.mp hbuf
    exact resends_probeBlock hbuf
  | deliver n =>
    simp only [Link.step] at hstep
    split at hstep
    · cases hstep
      exact .idle
    rename_i buf hbuf
    obtain ⟨⟨dec, out⟩, hrun, heq⟩ := bind_eq_some_iff.mp hstep
    cases heq
    exact .took (mem_of_getElem? hbuf) hrun
  | _ => exact absurd hq id

theorem Linked.quiet (h : Linked w items s) (hq : Quietly s s') :
    Linked w items s' ∧ s'.pushed = s.pushed := by
  cases hq with
  | resent hheld hwire =>
    have hs := h.sends
    refine ⟨{ h with
      sends := { hs with pending := fun id pb hpb => hs.pending id pb (hheld id pb hpb) }
      wire := fun buf hbuf => ?_ }, rfl⟩
    rcases mem_append.mp hbuf with hbuf | hbuf
    · exact h.wire buf hbuf
    obtain ⟨id, pb, idx, flags, hpb, hidx, rfl⟩ := hwire buf hbuf
    obtain ⟨b, hblock, hb⟩ := hs.pending id pb hpb
    rw [hb.shards_eq, b.shards_length, hb.k_eq] at hidx
    exact onWire_datagram hblock h.fits hb (by omega)
  | took hbuf hrun =>
    obtain ⟨hd, hparse, hc⟩ := h.wire _ hbuf
    have hlt : w.blocks.length < 2 ^ 32 := lt_of_le_of_lt h.fits (by decide)
    obtain ⟨dec', out, hrun', ht, hout⟩ := ingest_spec h.tower hlt h.tracks hparse hc
    cases hrun.symm.trans hrun'
    exact ⟨{ h with tracks := ht, delivered_eq := by rw [← hout, h.delivered_eq] }, rfl⟩
  | idle => exact ⟨h, rfl⟩

theorem Linked.setParity (h : Linked w items s) (r : Nat) :
    Linked w items { s with enc := s.enc.setParity r } := by
  have hfits := h.sends.fits
  refine { h with
    sends := ⟨h.sends.k_pos, ?_, h.sends.len_two, h.sends.next_eq, h.sends.same_k,
    h.sends.staged_eq, h.sends.staged_le, h.sends.pending⟩ }
  simp only [Encoder.setParity, Encoder.rMax]
  omega

theorem sealBlock_off (hoff : e.towerD = 0) : e.sealBlock = e.sealShards := by
  simp only [sealBlock, hoff]
  cases e.sealShards <;> rfl

theorem push_off (hoff : e.towerD = 0) (item : Item) :
    e.push item = if e.staged.length + 1 = e.k then
        { e with staged := e.staged ++ [stage item] }.sealShards
      else some ({ e with staged := e.staged ++ [stage item] }, []) := by
  simp only [push, length_append, length_singleton]
  split
  · exact sealBlock_off hoff
  · rfl

theorem flush_off (hoff : e.towerD = 0) :
    e.flush = if e.staged = [] then some (e, []) else e.sealShards := by
  rw [flush, flushStaged, sealBlock_off hoff]
  split
  · simp [hoff]
  cases hs : e.sealShards with
  | none => rfl
  | some p =>
    obtain ⟨pb, -, he, -⟩ := sealShards_some hs
    simp [he, hoff]

theorem Sends.stageItems (h : Sends w e items) (hle : (items ++ pushes).length ≤ e.k) :
    Sends w { e with staged := e.staged ++ pushes.map stage } (items ++ pushes) :=
  { h with staged_eq := by simp [h.staged_eq], staged_le := hle }

def Event.KeepsTower : Event → Prop
  | .enableTower _ _ => False
  | _ => True

def Event.pushes : Event → List Item
  | .push item => [item]
  | _ => []

/-- What a call with the tower off does to the world: nothing, or one more
block made of the staged items. -/
inductive Advances (w : World) (items : List Item) : World → List Item → Prop
  | stay : Advances w items w items
  | sealed {e : Encoder} {b : Coded} (off : e.towerD = 0) (len : itemLenPrefix ≤ e.shardLen)
      (staged : e.staged = items.map stage) (data : b.data = e.dataShards) :
      Advances w items { w with blocks := w.blocks ++ [b] } []

theorem Linked.seal {e' : Encoder} (h : Linked w items s) (hsends : Sends w e items')
    (hoff : e.towerD = 0) (hk : e.k = s.enc.k) (pushed : List Item)
    (hseal : e.sealShards = some (e', out)) (hfits : e'.nextBlock ≤ 2 ^ 31) :
    ∃ b : Coded, Linked { w with blocks := w.blocks ++ [b] } []
        { s.sent e' out with pushed := pushed } ∧
      Advances w items' { w with blocks := w.blocks ++ [b] } [] := by
  obtain ⟨pb0, -, he', -⟩ := sealShards_some hseal
  have hnext : e.nextBlock = s.enc.nextBlock := by rw [hsends.next_eq, h.sends.next_eq]
  have hlt : w.blocks.length < 2 ^ 31 := by
    rw [he'] at hfits
    rw [← hsends.next_eq]
    exact hfits
  obtain ⟨b, pb, out', hseal', hbk, -, hdata, hb, hsends', hout⟩ := hsends.sealShards hlt
  rw [hseal] at hseal'
  cases hseal'
  refine ⟨b, ?_, .sealed hoff hsends.len_two hsends.staged_eq hdata⟩
  refine Linked.setPushed (h.sent (w.extends_block b) ?_ hsends' hsends'.k_pos hout ?_ ?_) pushed
  · exact h.tower.block fun b' hb' => (hsends.same_k b' hb').trans hbk.symm
  · simpa using hlt
  · simp [← hnext, hb.take_data (hbk.trans hk)]

theorem Linked.stageItems (h : Linked w items s) (hroom : (items ++ pushes).length < s.enc.k)
    (pushed : List Item) : Linked w (items ++ pushes) { s.sent { s.enc with
      staged := s.enc.staged ++ pushes.map stage } [] with pushed := pushed } :=
  Linked.setPushed (h.sent (.refl w) h.tower (h.sends.stageItems hroom.le) hroom (by simp) h.fits
    (by simp [h.sends.pending_next])) _

/-- A data datagram of the session, whatever block it belongs to. -/
def Sent (epoch : Nat) (buf : Datagram) : Prop :=
  ∃ (pb : PendingBlock) (blockId idx flags : Nat), buf = pb.datagramFlagged blockId idx flags epoch

theorem Sent.epoch_eq (h : Sent epoch buf) :
    ∃ hd, parseHeader buf = some hd ∧ hd.epoch = epoch % 2 ^ 32 := by
  obtain ⟨pb, blockId, idx, flags, rfl⟩ := h
  exact ⟨_, parseHeader_datagram .., rfl⟩

theorem sealShards_sent (h : e.sealShards = some (e', out)) :
    ∀ buf ∈ out, Sent e.epoch buf := by
  obtain ⟨pb, -, -, rfl⟩ := sealShards_some h
  intro buf hbuf
  obtain ⟨i, -, rfl⟩ := mem_map.mp hbuf
  exact ⟨pb, _, i, 0, rfl⟩

theorem Encoder.Resends.sent (h : e.Resends buf) : Sent e.epoch buf := by
  obtain ⟨id, pb, idx, flags, -, -, rfl⟩ := h
  exact ⟨pb, id, idx, flags, rfl⟩

inductive Turn (s : Link) : List Item → Link → Prop
  | sealed {e : Encoder} (one : pushes.length ≤ 1) (hseal : { s.enc with
        staged := s.enc.staged ++ pushes.map stage }.sealShards = some (e, out)) :
      Turn s pushes { s.sent e out with pushed := s.pushed ++ pushes }
  | staged (room : pushes = [] ∨ pushes.length = 1 ∧ s.enc.staged.length + 1 ≠ s.enc.k) :
      Turn s pushes { s.sent { s.enc with staged := s.enc.staged ++ pushes.map stage } [] with
        pushed := s.pushed ++ pushes }
  | parity (r : Nat) : Turn s [] { s with enc := s.enc.setParity r }
  | quiet {s' : Link} (hq : Quietly s s') : Turn s [] s'

theorem step_turn (hoff : s.enc.towerD = 0) (hev : ev.KeepsTower) (hstep : s.step ev = some s') :
    Turn s ev.pushes s' := by
  cases ev with
  | push item =>
    simp only [Link.step, push_off hoff, bind_eq_bind, bind_eq_some_iff] at hstep
    obtain ⟨⟨enc, out⟩, hpush, heq⟩ := hstep
    cases heq
    split at hpush
    · exact .sealed le_rfl hpush
    · cases hpush
      exact .staged (.inr ⟨rfl, by assumption⟩)
  | flush =>
    simp only [Link.step, flush_off hoff, bind_eq_bind, bind_eq_some_iff] at hstep
    obtain ⟨⟨enc, out⟩, hflush, heq⟩ := hstep
    cases heq
    have hnone : { s.enc with staged := s.enc.staged ++ map stage [] } = s.enc := by simp
    split at hflush
    · cases hflush
      have := Turn.staged (s := s) (.inl rfl)
      rwa [hnone, append_nil] at this
    · rw [← hnone] at hflush
      have := Turn.sealed (by simp) hflush
      rwa [append_nil] at this
  | setParity r =>
    cases hstep
    exact .parity r
  | enableTower d rOuter => exact absurd hev id
  | feedback | probe | retransmitAll | deliver => exact .quiet (quiet_step hstep trivial)

/-- What any step with the tower off leaves of the sender: the session goes on,
ids only grow, and the wire gains datagrams of the session. -/
structure Continues (s s' : Link) : Prop where
  off : s'.enc.towerD = 0
  epoch_eq : s'.enc.epoch = s.enc.epoch
  next_le : s.enc.nextBlock ≤ s'.enc.nextBlock
  wire : ∀ buf ∈ s'.wire, buf ∈ s.wire ∨ Sent s.enc.epoch buf

theorem Continues.append {wire : List Datagram} (hout : ∀ buf ∈ out, Sent s.enc.epoch buf)
    (hwire : wire = s.wire ++ out) : ∀ buf ∈ wire, buf ∈ s.wire ∨ Sent s.enc.epoch buf := by
  rw [hwire]
  intro buf hbuf
  exact (mem_append.mp hbuf).imp_right (hout buf)

theorem Turn.continues (h : Turn s pushes s') (hoff : s.enc.towerD = 0) : Continues s s' := by
  cases h with
  | sealed _ hseal =>
    have hsent := sealShards_sent hseal
    obtain ⟨pb, -, he, -⟩ := sealShards_some hseal
    rw [he]
    exact ⟨hoff, rfl, Nat.le_succ _, Continues.append hsent rfl⟩
  | staged => exact ⟨hoff, rfl, le_rfl, Continues.append (by simp) rfl⟩
  | parity r => exact ⟨hoff, rfl, le_rfl, fun _ => .inl⟩
  | quiet hq =>
    cases hq with
    | resent _ hwire =>
      exact ⟨hoff, rfl, le_rfl, Continues.append (fun buf hbuf => (hwire buf hbuf).sent) rfl⟩
    | took | idle => exact ⟨hoff, rfl, le_rfl, fun _ => .inl⟩

/-- One step with the tower off keeps both ends in agreement. -/
theorem Linked.advance (h : Linked w items s) (hoff : s.enc.towerD = 0) (ht : Turn s pushes s')
    (hfits : s'.enc.nextBlock ≤ 2 ^ 31) :
    ∃ w' items', Linked w' items' s' ∧ Advances w (items ++ pushes) w' items' ∧
      s'.pushed = s.pushed ++ pushes := by
  have hlt := h.staged_lt
  cases ht with
  | sealed hone hseal =>
    have hle : (items ++ pushes).length ≤ s.enc.k := by
      rw [length_append]
      omega
    obtain ⟨b, hlinked, hadv⟩ := h.seal (h.sends.stageItems hle) hoff rfl (s.pushed ++ pushes) hseal hfits
    exact ⟨_, [], hlinked, hadv, rfl⟩
  | staged hroom =>
    have hroom : (items ++ pushes).length < s.enc.k := by
      rw [h.sends.staged_eq, length_map] at hroom
      rw [length_append]
      rcases hroom with rfl | hroom
      · exact hlt
      · omega
    exact ⟨w, items ++ pushes, h.stageItems hroom _, .stay, rfl⟩
  | parity r => exact ⟨w, items, h.setParity r, by rw [append_nil]; exact .stay, (append_nil _).symm⟩
  | quiet hq =>
    obtain ⟨hlinked, hpushed⟩ := h.quiet hq
    exact ⟨w, items, hlinked, by rw [append_nil]; exact .stay, by rw [hpushed, append_nil]⟩

end SubEtha.Block
