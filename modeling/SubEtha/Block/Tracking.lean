import SubEtha.Block.Reassembly

namespace SubEtha.Block
open Option List Lib RsCode Decoder

/-- What the sender has put on the wire so far: the data blocks by id and the
outer blocks of the closed tower segments, each of `segLen` data blocks. -/
structure World where
  blocks : List Coded
  /-- Outer block `j` of segment `seg`, once that segment is closed. -/
  outer : Nat → Nat → Option Coded
  segLen : Nat

/-- Nothing sent yet. -/
def World.start (segLen : Nat) : World := ⟨[], fun _ _ => none, segLen⟩

def World.segInfos (w : World) (seg : Nat) : List (List Byte) :=
  ((w.blocks.drop (seg * w.segLen)).take w.segLen).map Coded.info

/-- Info `o` is outer parity `j` over `infos`. The row of the segment code does
not depend on how many rows the code has. -/
def OuterParity (infos : List (List Byte)) (j : Nat) (o : List Byte) : Prop :=
  ∃ len, 0 < len ∧ (∀ info ∈ infos, info.length = len) ∧
    ∀ (rOuter : Nat) (code : RsCode), RsCode.new infos.length rOuter = .ok code → j < rOuter →
      (code.parityOf infos len)[j]? = some o

/-- The outer blocks are the segment code's parity over whole, aligned segments. -/
structure TowerOk (w : World) : Prop where
  same_k : ∀ b ∈ w.blocks, ∀ b' ∈ w.blocks, b.k = b'.k
  closed : ∀ seg j o, w.outer seg j = some o → seg * w.segLen + w.segLen ≤ w.blocks.length
  coded : ∀ seg j o, w.outer seg j = some o → o.r ≠ 0
  parity : ∀ seg j o, w.outer seg j = some o → OuterParity (w.segInfos seg) j o.info

/-- The block a receiver holds is one of the sender's, possibly rebuilt without parity. -/
def RxOk (b : Coded) (rx : RxBlock) : Prop := RxExact b rx ∨ RxExact b.dataOnly rx

/-- Everything the receiver holds comes from the sender's blocks. -/
structure Tracks (w : World) (dec : Decoder) : Prop where
  next_le : dec.nextDeliver ≤ w.blocks.length
  window : ∀ id rx, dec.window.get? id = some rx → ∃ b, w.blocks[id]? = some b ∧ RxOk b rx
  infos : ∀ id info, dec.dataInfos.get? id = some info →
    ∃ b, w.blocks[id]? = some b ∧ info = b.info
  outerRx : ∀ oid rx, dec.outerRx.get? oid = some rx →
    ∃ b, w.outer (oid / 2 ^ 8 % 2 ^ 16) (oid % 2 ^ 8) = some b ∧ RxExact b rx
  segOuter : ∀ seg row j info, dec.segOuter.get? seg = some row → row.get? j = some info →
    ∃ b, w.outer seg j = some b ∧ info = b.info
  segD : ∀ seg d, dec.segD.get? seg = some d → d = w.segLen ∧ ∃ j o, w.outer seg j = some o
  tower : dec.towerD = 0 ∨ dec.towerD = w.segLen
  inner : dec.innerK = 0 ∨ ∃ b ∈ w.blocks, dec.innerK = b.k ∧ dec.innerShardLen = b.len
  injected : ∀ p ∈ dec.injected, ∃ b, w.blocks[p.1]? = some b ∧ p.2 = b.data

theorem tracks_init (w : World) (cap : Nat) : Tracks w (withWindow cap) where
  next_le := Nat.zero_le _
  window := nofun
  infos := nofun
  outerRx := nofun
  segOuter := nofun
  segD := nofun
  tower := .inl rfl
  inner := .inl rfl
  injected := nofun

structure World.Extends (w w' : World) : Prop where
  blocks : w.blocks <+: w'.blocks
  outer : ∀ seg j o, w.outer seg j = some o → w'.outer seg j = some o
  segLen : w'.segLen = w.segLen

theorem getElem?_of_isPrefix {α : Type*} {l l' : List α} (h : l <+: l') {i : Nat} {a : α}
    (hi : l[i]? = some a) : l'[i]? = some a := by
  obtain ⟨t, rfl⟩ := h
  rw [getElem?_append_left (lt_of_some hi), hi]

theorem Tracks.mono {w w' : World} {dec : Decoder} (h : Tracks w dec) (hw : w.Extends w') :
    Tracks w' dec where
  next_le := h.next_le.trans hw.blocks.length_le
  window := by
    intro id rx hrx
    obtain ⟨b, hb, hok⟩ := h.window id rx hrx
    exact ⟨b, getElem?_of_isPrefix hw.blocks hb, hok⟩
  infos := by
    intro id info hinfo
    obtain ⟨b, hb, hok⟩ := h.infos id info hinfo
    exact ⟨b, getElem?_of_isPrefix hw.blocks hb, hok⟩
  outerRx := by
    intro oid rx hrx
    obtain ⟨b, hb, hok⟩ := h.outerRx oid rx hrx
    exact ⟨b, hw.outer _ _ _ hb, hok⟩
  segOuter := by
    intro seg row j info hrow hj
    obtain ⟨b, hb, hok⟩ := h.segOuter seg row j info hrow hj
    exact ⟨b, hw.outer _ _ _ hb, hok⟩
  segD := by
    intro seg d hd
    obtain ⟨hlen, j, o, ho⟩ := h.segD seg d hd
    exact ⟨hlen.trans hw.segLen.symm, j, o, hw.outer _ _ _ ho⟩
  tower := h.tower.imp_right fun hd => hd.trans hw.segLen.symm
  inner := by
    rcases h.inner with hz | ⟨b, hb, hk⟩
    · exact .inl hz
    · exact .inr ⟨b, hw.blocks.subset hb, hk⟩
  injected := by
    intro p hp
    obtain ⟨b, hb, hok⟩ := h.injected p hp
    exact ⟨b, getElem?_of_isPrefix hw.blocks hb, hok⟩

variable {seg id : Nat}

section
variable {w : World} {dec : Decoder}

theorem World.segInfos_getElem? (w : World) (hi : i < w.segLen) :
    (w.segInfos seg)[i]? = (w.blocks[seg * w.segLen + i]?).map Coded.info := by
  simp [segInfos, getElem?_take, if_pos hi, getElem?_drop]

theorem World.segInfos_length (h : seg * w.segLen + w.segLen ≤ w.blocks.length) :
    (w.segInfos seg).length = w.segLen := by
  rw [World.segInfos, length_map, length_take, length_drop]
  omega

theorem Coded.info_length (b : Coded) : b.info.length = b.k * b.len := by
  have h : ∀ l : List (List Byte), (∀ s ∈ l, s.length = b.len) →
      l.flatten.length = l.length * b.len := by
    intro l hl
    rw [length_flatten, map_congr_left hl, map_const', sum_replicate]
    rfl
  rw [info, h _ b.data_len, b.data_length]

theorem OuterParity.len_eq (h : OuterParity infos j o) (hinfo : info ∈ infos) :
    0 < info.length ∧ (∀ i ∈ infos, i.length = info.length) ∧
      ∀ (rOuter : Nat) (code : RsCode), RsCode.new infos.length rOuter = .ok code → j < rOuter →
        (code.parityOf infos info.length)[j]? = some o := by
  obtain ⟨len, hpos, hlen, hpar⟩ := h
  rw [hlen info hinfo]
  exact ⟨hpos, hlen, hpar⟩

/-- The known infos of a segment are an erasure of its outer codeword, whatever
number of parity rows the receiver believes in. -/
theorem erasure_segment (hw : TowerOk w) (ht : Tracks w dec)
    (hlen : (w.segInfos seg).length = w.segLen) (hinfo : info ∈ w.segInfos seg)
    (houters : dec.segOuter.get? seg = some outers)
    (hcode : RsCode.new w.segLen rOuter = .ok code) :
    Erasure (w.segInfos seg ++ code.parityOf (w.segInfos seg) info.length)
      (dec.segmentShards (seg * w.segLen) w.segLen rOuter outers) := by
  refine ⟨?_, ?_⟩
  · simp [segmentShards, hlen, parityOf_length, (new_dims hcode).2]
  intro pos v hv
  rw [segmentShards, getElem?_append, length_map, length_range] at hv
  rw [getElem?_append, hlen]
  split at hv
  · rename_i hpos
    rw [getElem?_map, getElem?_range hpos] at hv
    obtain ⟨b, hb, rfl⟩ := ht.infos _ _ (some.inj hv)
    rw [if_pos hpos, w.segInfos_getElem? hpos, hb]
    rfl
  rename_i hpos
  have hj : pos - w.segLen < rOuter := by
    have := lt_of_some hv
    rwa [length_map, length_range] at this
  rw [getElem?_map, getElem?_range hj] at hv
  obtain ⟨o, ho, rfl⟩ := ht.segOuter seg outers _ _ houters (some.inj hv)
  rw [if_neg hpos]
  exact ((hw.parity _ _ _ ho).len_eq hinfo).2.2 rOuter code (by rw [hlen, hcode]) hj

theorem recoverInfo_some (h : dec.recoverInfo id = some info) :
    dec.towerD ≠ 0 ∧ dec.innerK ≠ 0 ∧ ∃ d outers code shards,
      dec.segD.get? (id / dec.towerD) = some d ∧ id - id / dec.towerD * dec.towerD < d ∧
      dec.segOuter.get? (id / dec.towerD) = some outers ∧
      d ≤ (dec.segmentShards (id / dec.towerD * dec.towerD) d dec.towerROuter outers).countP
        isSome ∧ RsCode.new d dec.towerROuter = .ok code ∧
      code.decode (dec.segmentShards (id / dec.towerD * dec.towerD) d dec.towerROuter outers) =
        (.ok (), shards) ∧ shards.getD (id - id / dec.towerD * dec.towerD) none = some info := by
  unfold recoverInfo at h
  split at h
  · cases h
  rename_i hon
  rw [not_or, not_or] at hon
  refine ⟨hon.1, hon.2.2, ?_⟩
  dsimp only at h
  split at h
  · cases h
  rename_i d hd
  split at h
  · cases h
  rename_i hidx
  split at h
  · cases h
  rename_i outers houters
  split at h
  · cases h
  rename_i hcount
  split at h
  · cases h
  rename_i code hcode
  split at h
  · cases h
  rename_i shards hdecode
  exact ⟨d, outers, code, shards, hd, lt_of_not_ge hidx, houters,
    le_of_not_gt hcount, hcode, hdecode, h⟩

theorem recoverInfo_sound (hw : TowerOk w) (ht : Tracks w dec)
    (h : dec.recoverInfo id = some info) : ∃ b, w.blocks[id]? = some b ∧ info = b.info := by
  obtain ⟨hon, -, d, outers, code, shards, hd, hidx, houters, hcount, hcode, hdecode, hget⟩ :=
    recoverInfo_some h
  rw [ht.tower.resolve_left hon] at hd hidx houters hcount hdecode hget
  obtain ⟨rfl, j, o, ho⟩ := ht.segD _ _ hd
  have hclosed := hw.closed _ _ _ ho
  have hlen := w.segInfos_length hclosed
  have hid : id / w.segLen * w.segLen + (id - id / w.segLen * w.segLen) = id := by
    have := Nat.div_mul_le_self id w.segLen
    omega
  have hlt : id < w.blocks.length := by omega
  have hinfo : (w.segInfos (id / w.segLen))[id - id / w.segLen * w.segLen]? =
      some (w.blocks[id]).info := by
    rw [w.segInfos_getElem? hidx, hid, getElem?_eq_getElem hlt]
    rfl
  have hmem := mem_of_getElem? hinfo
  obtain ⟨hpos, hall, -⟩ := (hw.parity _ _ _ ho).len_eq hmem
  have hck := (new_dims hcode).1
  rw [code.decode_recovers (hlen.trans hck.symm) hpos hall
    (erasure_segment hw ht hlen hmem houters hcode) (by rw [hck]; exact hcount)] at hdecode
  cases hdecode
  refine ⟨_, getElem?_eq_getElem hlt, ?_⟩
  rw [getD_eq_getElem?_getD, getElem?_append_left (by rw [length_map, hlen]; exact hidx),
    getElem?_map, hinfo] at hget
  cases hget
  rfl

theorem injectedBlock_shards (b : Coded) :
    (injectedBlock b.k b.len b.info).shards = b.data.map some := by
  apply ext_getElem?
  intro i
  simp only [injectedBlock, getElem?_map]
  by_cases hi : i < b.k
  · rw [getElem?_range hi, map_some, Coded.info, flatten_slice b.data_len]
    rw [← b.data_length] at hi
    simp [hi]
  · rw [getElem?_eq_none (by simpa using hi), getElem?_eq_none (by rw [b.data_length]; omega)]
    rfl

theorem rxExact_injectedBlock (b : Coded) :
    RxExact b.dataOnly (injectedBlock b.k b.len b.info) where
  k_eq := rfl
  r_eq := rfl
  len_eq := rfl
  erasure := by
    rw [injectedBlock_shards]
    refine ⟨by simp [Coded.shards, Coded.dataOnly], ?_⟩
    intro pos v hv
    rw [getElem?_map, map_eq_some_iff] at hv
    obtain ⟨u, hu, heq⟩ := hv
    cases heq
    simpa [Coded.shards, Coded.dataOnly] using hu
  held := by
    intro i hi
    have hbits : ∀ n : Nat, ((range n).foldl
        (fun mask i => mask ||| BitVec.twoPow 32 i) 0).getLsbD i = true → i < n := by
      intro n
      induction n with
      | zero => intro h; simp at h
      | succ n ih =>
        intro h
        rw [range_succ, foldl_append, foldl_cons, foldl_nil,
          BitVec.getLsbD_or, Bool.or_eq_true] at h
        rcases h with h | h
        · exact Nat.lt_succ_of_lt (ih h)
        rw [BitVec.getLsbD_twoPow] at h
        simp only [Bool.and_eq_true, decide_eq_true_eq] at h
        omega
    have hik : i < b.data.length := by
      rw [b.data_length]
      exact hbits b.k hi
    rw [injectedBlock_shards]
    exact ⟨b.data.get ⟨i, hik⟩, by simp [hik]⟩
  data_of_decoded := by
    intro _
    rw [injectedBlock_shards]
    exact take_of_length_le (by simp [Coded.dataOnly, b.data_length])

theorem tryTowerRecover_tracks (hw : TowerOk w) (ht : Tracks w dec)
    (h : dec.tryTowerRecover id = some dec') : Tracks w dec' ∧ dec'.nextDeliver = dec.nextDeliver ∧
      ∃ rx, dec'.window.get? id = some rx ∧ rx.decoded = true := by
  unfold tryTowerRecover at h
  split at h
  · cases h
  rename_i info hinfo
  obtain ⟨b, hb, rfl⟩ := recoverInfo_sound hw ht hinfo
  obtain ⟨b', hb', hk', hl'⟩ := ht.inner.resolve_left (recoverInfo_some hinfo).2.1
  have hk := hw.same_k b' hb' b (mem_of_getElem? hb)
  dsimp only at h
  split at h
  · cases h
  -- the length check leaves only the shard length of the block itself
  · rename_i hlen
    rw [not_not, b.info_length, hk', hk] at hlen
    have hl : max dec.innerShardLen 1 = b.len := (Nat.eq_of_mul_eq_mul_left b.k_pos hlen).symm
    rw [hl, hk', hk] at h
    cases h
    refine ⟨{ ht with
      window := Table.forall_insert ht.window ⟨b, hb, .inr (rxExact_injectedBlock b)⟩
      infos := Table.forall_insert ht.infos ⟨b, hb, rfl⟩, inner := ?_, injected := ?_ }, rfl, ?_⟩
    · refine .inr ⟨b, mem_of_getElem? hb, rfl, ?_⟩
      rw [← hl, hl']
      exact (max_eq_left b'.len_pos).symm
    · intro p hp
      rcases mem_append.mp hp with hp | hp
      · exact ht.injected p hp
      rw [mem_singleton] at hp
      subst hp
      refine ⟨b, hb, ?_⟩
      rw [injectedBlock_shards, filterMap_map]
      exact filterMap_some
    · exact ⟨_, if_pos rfl, rfl⟩

end

variable {w : World} {dec : Decoder}

def World.itemsBelow (w : World) (n : Nat) : List Item := (w.blocks.take n).flatMap Coded.items

theorem World.itemsBelow_succ (w : World) (h : w.blocks[n]? = some b) :
    w.itemsBelow (n + 1) = w.itemsBelow n ++ b.items := by
  rw [itemsBelow, itemsBelow, take_add_one, h, flatMap_append]
  simp

/-- The head of the window cannot be delivered. -/
def Stuck (dec : Decoder) : Prop :=
  ∀ rx, dec.window.get? dec.nextDeliver = some rx → rx.decoded = false

theorem RxOk.data_of_decoded (h : RxOk b rx) (hd : rx.decoded = true) :
    rx.k = b.k ∧ rx.shards.take b.k = b.data.map some := by
  rcases h with h | h
  · exact ⟨h.k_eq, h.data_of_decoded hd⟩
  · exact ⟨h.k_eq, h.data_of_decoded hd⟩

theorem RxOk.blockItems_eq (h : RxOk b rx) (hd : rx.decoded = true) :
    blockItems rx.k rx.shards = some b.items := by
  obtain ⟨hk, htake⟩ := h.data_of_decoded hd
  rw [hk, ← take_append_drop b.k rx.shards, htake, ← b.data_length]
  exact blockItems_map_some _ fun s hs => b.len_two.trans (le_of_eq (b.data_len s hs).symm)

theorem tracks_deliver (ht : Tracks w dec) (hb : w.blocks[dec.nextDeliver]? = some b) :
    Tracks w { dec with
      window := dec.window.erase dec.nextDeliver, nextDeliver := dec.nextDeliver + 1 } where
  __ := ht
  next_le := lt_of_some hb
  window := fun id rx hrx => ht.window id rx (Table.get?_erase_some hrx).2

/-- Turns the loop may still take: two for each block left, one to inject the head. -/
def drainPotential (w : World) (dec : Decoder) : Nat :=
  2 * (w.blocks.length - dec.nextDeliver) + if dec.window.contains dec.nextDeliver then 0 else 1

theorem drainLoop_spec (hw : TowerOk w) (hfit : w.blocks.length < 2 ^ 32) (fuel : Nat)
    (ht : Tracks w dec) : ∃ dec' out, drainLoop fuel dec = some (dec', out) ∧ Tracks w dec' ∧
      w.itemsBelow dec.nextDeliver ++ out = w.itemsBelow dec'.nextDeliver ∧
      (drainPotential w dec < fuel → Stuck dec') := by
  induction fuel generalizing dec with
  | zero => exact ⟨dec, [], rfl, ht, by rw [append_nil], fun h => absurd h (by omega)⟩
  | succ fuel ih =>
    rw [drainLoop]
    split
    · rename_i rx hrx
      obtain ⟨b, hb, hok⟩ := ht.window _ _ hrx
      split
      · rename_i hd
        have hlt := lt_of_some hb
        rw [hok.blockItems_eq hd]
        dsimp only
        rw [if_neg (by omega)]
        obtain ⟨dec', out, hrun, ht', hout, hstuck⟩ := ih (tracks_deliver ht hb)
        rw [hrun]
        refine ⟨dec', b.items ++ out, rfl, ht', ?_, fun hpot => hstuck ?_⟩
        · rw [← append_assoc, ← w.itemsBelow_succ hb]
          exact hout
        · simp only [drainPotential] at hpot ⊢
          split <;> split at hpot <;> omega
      · rename_i hd
        refine ⟨dec, [], rfl, ht, by rw [append_nil], fun _ rx' hrx' => ?_⟩
        rw [hrx] at hrx'
        cases hrx'
        simpa using hd
    · rename_i hnone
      split
      · rename_i dec1 hrec
        obtain ⟨ht1, hnext, rx, hrx, hd⟩ := tryTowerRecover_tracks hw ht hrec
        obtain ⟨dec', out, hrun, ht', hout, hstuck⟩ := ih ht1
        refine ⟨dec', out, hrun, ht', by rw [← hnext]; exact hout, fun hpot => hstuck ?_⟩
        simp only [drainPotential, Table.contains, hnone, hnext, hrx] at hpot ⊢
        simp at hpot ⊢
        omega
      · refine ⟨dec, [], rfl, ht, by rw [append_nil], fun _ rx hrx => ?_⟩
        rw [hnone] at hrx
        cases hrx

theorem tracks_trim (ht : Tracks w dec) : Tracks w dec.trim := by
  have hinfos : ∀ id info, (dec.dataInfos.retain fun id =>
      decide (dec.nextDeliver - dec.cap32 ≤ id)).get? id = some info →
      ∃ b, w.blocks[id]? = some b ∧ info = b.info :=
    fun id info h => ht.infos id info (Table.get?_retain_some h).2
  unfold trim
  dsimp only
  split
  · exact { ht with
      infos := hinfos, outerRx := fun oid rx h => ht.outerRx oid rx (Table.get?_retain_some h).2
      segOuter := fun seg row j info h => ht.segOuter seg row j info (Table.get?_retain_some h).2
      segD := fun seg d h => ht.segD seg d (Table.get?_retain_some h).2 }
  · exact { ht with infos := hinfos }

theorem trim_nextDeliver (dec : Decoder) : dec.trim.nextDeliver = dec.nextDeliver := by
  unfold trim
  dsimp only
  split <;> rfl

theorem trim_window (dec : Decoder) : dec.trim.window = dec.window := by
  unfold trim
  dsimp only
  split <;> rfl

/-- Draining delivers exactly the blocks the frontier passes, and stops only
where the head is not ready. -/
theorem drainInOrder_spec (hw : TowerOk w) (hfit : w.blocks.length < 2 ^ 32) (ht : Tracks w dec) :
    ∃ dec' out, dec.drainInOrder = some (dec', out) ∧ Tracks w dec' ∧
      w.itemsBelow dec.nextDeliver ++ out = w.itemsBelow dec'.nextDeliver ∧ Stuck dec' := by
  obtain ⟨dec', out, hrun, ht', hout, hstuck⟩ := drainLoop_spec hw hfit drainFuel ht
  refine ⟨dec'.trim, out, ?_, tracks_trim ht', by rw [trim_nextDeliver, hout], ?_⟩
  · rw [drainInOrder, hrun]
    rfl
  rw [Stuck, trim_window, trim_nextDeliver]
  refine hstuck ?_
  simp only [drainPotential, drainFuel]
  split <;> omega

variable {w : World}

/-- The header and payload are those of one of `b`'s shards. -/
structure ShardOf (b : Coded) (h : Header) : Prop where
  k_eq : h.k = b.k
  r_eq : h.r = b.r
  payload : b.shards[h.shardIndex]? = some h.payload

/-- The datagram belongs to a block the sender has sealed, or to an outer block
whose id the receiver ignores. -/
def Carries (w : World) (h : Header) : Prop :=
  (h.blockId < outerIdBit ∧ ∃ b, w.blocks[h.blockId]? = some b ∧ ShardOf b h) ∨
  outerIdBit ≤ h.blockId ∧
    ((h.blockId / 2 ^ 27 % 2 ^ 4 = 0 ∨ h.blockId / 2 ^ 24 % 2 ^ 3 = 0) ∨
      h.blockId / 2 ^ 27 % 2 ^ 4 = w.segLen ∧ ∃ o,
        w.outer (h.blockId / 2 ^ 8 % 2 ^ 16) (h.blockId % 2 ^ 8) = some o ∧ ShardOf o h)

theorem Carries.mono (hc : Carries w h) (hw : w.Extends w') : Carries w' h := by
  rcases hc with ⟨hid, b, hb, hs⟩ | ⟨hid, hskip | ⟨hd, o, ho, hs⟩⟩
  · exact .inl ⟨hid, b, getElem?_of_isPrefix hw.blocks hb, hs⟩
  · exact .inr ⟨hid, .inl hskip⟩
  · exact .inr ⟨hid, .inr ⟨hd.trans hw.segLen.symm, o, hw.outer _ _ _ ho, hs⟩⟩

theorem ShardOf.len (hs : ShardOf b h) : h.payload.length = b.len :=
  b.shard_len _ (mem_of_getElem? hs.payload)

/-- The block a shard joins: the one under reassembly, or a fresh one. -/
theorem rxExact_entry (t : Table Nat RxBlock) (id : Nat) (hs : ShardOf b h)
    (ht : ∀ rx, t.get? id = some rx → RxExact b rx) :
    RxExact b ((t.get? id).getD (RxBlock.new h.k h.r h.payload.length)) := by
  cases hrx : t.get? id with
  | none =>
    rw [getD_none, hs.k_eq, hs.r_eq, hs.len]
    exact rxExact_new b
  | some rx => exact ht rx hrx

theorem handleOuter_ignored (h : oid / 2 ^ 27 % 2 ^ 4 = 0 ∨ oid / 2 ^ 24 % 2 ^ 3 = 0)
    (dec : Decoder) (idx k r : Nat) (payload : List Byte) :
    dec.handleOuter oid idx k r payload = some dec := by
  rw [handleOuter]
  exact if_pos h

theorem handleOuter_tracks (hw : TowerOk w) (ht : Tracks w dec)
    (hd : h.blockId / 2 ^ 27 % 2 ^ 4 = w.segLen)
    (ho : w.outer (h.blockId / 2 ^ 8 % 2 ^ 16) (h.blockId % 2 ^ 8) = some o) (hs : ShardOf o h) :
    ∃ dec', dec.handleOuter h.blockId h.shardIndex h.k h.r h.payload = some dec' ∧
      Tracks w dec' ∧ dec'.nextDeliver = dec.nextDeliver := by
  unfold handleOuter
  dsimp only [outerFields]
  split
  · exact ⟨dec, rfl, ht, rfl⟩
  rw [hd]
  have hentry := rxExact_entry dec.outerRx h.blockId hs (by
    intro rx hrx
    obtain ⟨b', hb', hex⟩ := ht.outerRx _ rx hrx
    rw [ho] at hb'
    cases hb'
    exact hex)
  generalize (dec.outerRx.get? h.blockId).getD _ = blk at hentry ⊢
  have hsegD := Table.forall_insert ht.segD ⟨rfl, _, o, ho⟩
  have htower : max w.segLen dec.towerD = 0 ∨ max w.segLen dec.towerD = w.segLen := by
    rcases ht.tower with hz | hz
    · rw [hz, Nat.max_zero]
      exact .inr rfl
    · rw [hz, Nat.max_self]
      exact .inr rfl
  have houterRx := Table.forall_insert ht.outerRx ⟨o, ho, hentry⟩
  split
  · exact ⟨_, rfl, { ht with outerRx := houterRx, segD := hsegD, tower := htower }, rfl⟩
  have hadd := rxExact_addShard hentry hs.payload
  obtain ⟨done, hdone, hex, -⟩ := rxExact_complete hadd false (.inr (hw.coded _ _ _ ho))
  rw [hdone]
  dsimp only
  split
  · rename_i hdec
    rw [Bool.and_eq_true] at hdec
    exact ⟨_, rfl, { ht with
      outerRx := fun oid rx hrx => houterRx oid rx (Table.get?_erase_some hrx).2
      segOuter := Table.forall_insert_row ht.segOuter ⟨o, ho, hex.info_eq hdec.1⟩
      segD := hsegD, tower := htower }, rfl⟩
  · exact ⟨_, rfl, { ht with
      outerRx := Table.forall_insert houterRx ⟨o, ho, hex⟩, segD := hsegD, tower := htower }, rfl⟩

section
variable (hw : TowerOk w) (hfit : w.blocks.length < 2 ^ 32) (ht : Tracks w dec)
  (hb : w.blocks[h.blockId]? = some b) (hs : ShardOf b h)
include hw hfit ht hb hs

theorem acceptShard_spec : ∃ dec' out, dec.acceptShard h = some (dec', out) ∧ Tracks w dec' ∧
      w.itemsBelow dec.nextDeliver ++ out = w.itemsBelow dec'.nextDeliver ∧ Stuck dec' := by
  have hentry : RxOk b ((dec.window.get? h.blockId).getD
      (RxBlock.new h.k h.r h.payload.length)) := by
    cases hrx : dec.window.get? h.blockId with
    | none =>
      rw [getD_none, hs.k_eq, hs.r_eq, hs.len]
      exact .inl (rxExact_new b)
    | some rx =>
      obtain ⟨b', hb', hok⟩ := ht.window _ rx hrx
      rw [hb] at hb'
      cases hb'
      exact hok
  unfold acceptShard
  generalize (dec.window.get? h.blockId).getD _ = blk at hentry ⊢
  dsimp only
  have hwin := Table.forall_insert ht.window ⟨b, hb, hentry⟩
  split
  · exact drainInOrder_spec hw hfit { ht with window := hwin }
  rename_i hshape
  rw [not_or, not_or, not_not, not_not, not_not] at hshape
  have hexact : RxExact b blk := by
    rcases hentry with hex | hex
    · exact hex
    have hz : b.r = 0 := by
      rw [← hs.r_eq, ← hshape.2.2, hex.r_eq]
      rfl
    rwa [Coded.dataOnly_eq hz] at hex
  have hadd := rxExact_addShard hexact hs.payload
  obtain ⟨done, hdone, hex, -⟩ := rxExact_complete hadd true (.inl rfl)
  have hwindow := Table.forall_insert hwin ⟨b, hb, .inl hex⟩
  rw [hdone]
  dsimp only
  split
  · rename_i hdec
    rw [Bool.and_eq_true] at hdec
    exact drainInOrder_spec hw hfit { ht with
      window := hwindow, infos := Table.forall_insert ht.infos ⟨b, hb, hex.info_eq hdec.1⟩ }
  · exact drainInOrder_spec hw hfit { ht with window := hwindow }

theorem ingestData_spec : ∃ dec' out, dec.ingestData h = some (dec', out) ∧ Tracks w dec' ∧
      w.itemsBelow dec.nextDeliver ++ out = w.itemsBelow dec'.nextDeliver := by
  unfold ingestData
  split
  · exact ⟨_, [], rfl, ht, by rw [append_nil]⟩
  split
  · exact ⟨_, [], rfl, ht, by rw [append_nil]⟩
  · obtain ⟨dec', out, hrun, ht', hout, -⟩ := acceptShard_spec hw hfit ht hb hs
    exact ⟨dec', out, hrun, ht', hout⟩

end

theorem learnInner_tracks (ht : Tracks w dec) (hb : b ∈ w.blocks) (hs : ShardOf b h) :
    Tracks w (dec.learnInner h) ∧ (dec.learnInner h).nextDeliver = dec.nextDeliver := by
  unfold learnInner
  split
  · exact ⟨{ ht with inner := .inr ⟨b, hb, hs.k_eq, hs.len⟩ }, rfl⟩
  · exact ⟨ht, rfl⟩

/-- Every datagram of a sealed block is taken without a panic, and what it
releases is exactly the items of the blocks the frontier passes. -/
theorem ingest_spec (hw : TowerOk w) (hfit : w.blocks.length < 2 ^ 32) (ht : Tracks w dec)
    (hparse : parseHeader buf = some h) (hc : Carries w h) :
    ∃ dec' out, dec.ingest buf = some (dec', out) ∧ Tracks w dec' ∧
      w.itemsBelow dec.nextDeliver ++ out = w.itemsBelow dec'.nextDeliver := by
  have hframe : ∀ e u : Option Nat, Tracks w { dec with sessionEpoch := e, unknownEpoch := u } :=
    fun _ _ => { ht with }
  unfold ingest
  rw [hparse]
  dsimp only
  split
  · exact ⟨_, [], rfl, hframe _ _, by rw [append_nil]⟩
  split
  · exact ⟨_, [], rfl, hframe _ _, by rw [append_nil]⟩
  have ht' := hframe (some h.epoch) dec.unknownEpoch
  rcases hc with ⟨hid, b, hb, hs⟩ | ⟨hid, houter⟩
  · rw [if_neg (by omega)]
    obtain ⟨htl, hnext⟩ := learnInner_tracks ht' (mem_of_getElem? hb) hs
    obtain ⟨dec', out, hrun, ht'', hout⟩ := ingestData_spec hw hfit htl hb hs
    exact ⟨dec', out, hrun, ht'', by rw [← hout, hnext]⟩
  rw [if_pos hid]
  have hhandled : ∃ dec1, handleOuter { dec with sessionEpoch := some h.epoch }
      h.blockId h.shardIndex h.k h.r h.payload = some dec1 ∧ Tracks w dec1 ∧
      dec1.nextDeliver = dec.nextDeliver := by
    rcases houter with hskip | ⟨hd, o, ho, hs⟩
    · exact ⟨_, handleOuter_ignored hskip .., ht', rfl⟩
    · exact handleOuter_tracks hw ht' hd ho hs
  obtain ⟨dec1, hrun1, ht1, hnext⟩ := hhandled
  obtain ⟨dec', out, hrun, ht'', hout, -⟩ := drainInOrder_spec hw hfit ht1
  refine ⟨dec', out, ?_, ht'', by rw [← hout, hnext]⟩
  rw [hrun1]
  exact hrun

end SubEtha.Block
