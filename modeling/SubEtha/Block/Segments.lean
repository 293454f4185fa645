import SubEtha.Block.Session

namespace SubEtha.Block
open Decoder List Option Lib RsCode Encoder

variable {j k len rOuter d : Nat} {parity : List (List Byte)} {info : List Byte} {w w' : World}
  {e e' : Encoder} {items : List Item} {out : List Datagram} {before last : List Coded} {row : List Coded}

theorem outerId_index (d rOuter seg : Nat) : ∃ base, outerIdBit ≤ base * 2 ^ 8 ∧
    base < 2 ^ 24 ∧ ∀ j < 2 ^ 8, outerId d rOuter seg j = base * 2 ^ 8 + j := by
  let top := 2 ^ 23 ||| d <<< 19 ||| rOuter <<< 16 ||| seg
  have htop : outerIdBit ||| d <<< 27 ||| rOuter <<< 24 ||| seg <<< 8 = top <<< 8 := by
    simp only [top, Nat.shiftLeft_or_distrib, ← Nat.shiftLeft_add]
    rfl
  have hbit : (top % 2 ^ 24).testBit 23 = true := by
    rw [Nat.testBit_mod_two_pow, Nat.testBit_or, Nat.testBit_or, Nat.testBit_or,
      Nat.testBit_two_pow_self]
    rfl
  refine ⟨top % 2 ^ 24, ?_, Nat.mod_lt _ (by decide), fun j hj => ?_⟩
  · have := Nat.ge_two_pow_of_testBit hbit
    rw [outerIdBit]
    omega
  · have hor := Nat.two_pow_add_eq_or_of_lt hj top
    rw [outerId, htop, Nat.shiftLeft_eq, mul_comm, ← hor]
    omega

/-- Every outer id of a segment announces the same size, parity count and segment. -/
theorem outerId_fields (d rOuter seg : Nat) (hj : j < 2 ^ 8) :
    outerIdBit ≤ outerId d rOuter seg j ∧ outerId d rOuter seg j < 2 ^ 32 ∧
      outerId d rOuter seg j / 2 ^ 27 = outerId d rOuter seg 0 / 2 ^ 27 ∧
      outerId d rOuter seg j / 2 ^ 24 = outerId d rOuter seg 0 / 2 ^ 24 ∧
      outerId d rOuter seg j / 2 ^ 8 = outerId d rOuter seg 0 / 2 ^ 8 ∧
      outerId d rOuter seg j % 2 ^ 8 = j := by
  obtain ⟨base, hbit, hbase, hid⟩ := outerId_index d rOuter seg
  rw [hid j hj, hid 0 (by decide)]
  rw [outerIdBit] at hbit ⊢
  omega

theorem parityRow_eq {code code' : RsCode} (hk : code.k = code'.k) (hj : j < code.r)
    (hj' : j < code'.r) (data : List (List Byte)) (len : Nat) :
    code.parityRow data len j = code'.parityRow data len j := by
  have hrow : code.cauchy.getD j [] = code'.cauchy.getD j [] := by
    rw [code.cauchy_eq, code'.cauchy_eq, hk]
    simp [cauchyRows, hj, hj']
  rw [parityRow, parityRow, hrow, hk]

variable {data : List (List Byte)} {r : Nat}

theorem encodeParity_some (hdata : data.length = k) (hlen : 0 < len)
    (hd : ∀ s ∈ data, s.length = len) (h : encodeParity k r len data = some parity) :
    ∃ code, RsCode.new k r = .ok code ∧ parity = code.parityOf data len := by
  cases hcode : RsCode.new k r with
  | error err => simp [encodeParity, hcode, Except.toOption] at h
  | ok code =>
    rw [encodeParity_eq hcode hlen hdata hd] at h
    exact ⟨code, rfl, (some.inj h).symm⟩

variable {infos : List (List Byte)}

theorem outerParity_of_encode (hlen : 0 < len) (hd : ∀ s ∈ infos, s.length = len)
    (h : encodeParity infos.length rOuter len infos = some parity) {o : List Byte}
    (ho : parity[j]? = some o) : OuterParity infos j o := by
  obtain ⟨code, hcode, rfl⟩ := encodeParity_some rfl hlen hd h
  refine ⟨len, hlen, hd, fun rOuter' code' hcode' hj' => ?_⟩
  have hj : j < code.r := by
    have := lt_of_some ho
    rwa [parityOf_length] at this
  rw [← (new_dims hcode').2] at hj'
  rw [parityOf, getElem?_map, getElem?_range hj, map_some] at ho
  rw [parityOf, getElem?_map, getElem?_range hj', map_some, ← ho,
    parityRow_eq ((new_dims hcode').1.trans (new_dims hcode).1.symm) hj' hj]

section
variable (hlen : 0 < len) (h : info.length = k * len)
include hlen h

theorem chunks_length : (chunks len info).length = k := by
  rw [chunks, length_map, length_range, h, Nat.add_sub_assoc hlen,
    mul_comm, Nat.mul_add_div hlen, Nat.div_eq_of_lt (Nat.sub_lt hlen Nat.one_pos), add_zero]

theorem chunks_len : ∀ c ∈ chunks len info, c.length = len := by
  intro c hc
  have hk := chunks_length hlen h
  rw [chunks, length_map, length_range] at hk
  obtain ⟨i, hi, rfl⟩ := mem_map.mp hc
  rw [mem_range, hk] at hi
  have hle : (i + 1) * len ≤ k * len := Nat.mul_le_mul_right _ hi
  rw [Nat.succ_mul] at hle
  rw [length_take, length_drop]
  omega

theorem chunks_flatten : (chunks len info).flatten = info := by
  have hk := chunks_length hlen h
  rw [chunks, length_map, length_range] at hk
  -- the first `n` chunks make up the first `n * len` bytes
  have hfirst : ∀ n, ((range n).map fun i => (info.drop (i * len)).take len).flatten =
      info.take (n * len) := by
    intro n
    induction n with
    | zero => simp
    | succ n ih =>
      rw [range_succ, map_append, flatten_append, ih, Nat.succ_mul, take_add]
      simp
  rw [chunks, hk, hfirst, ← h, take_length]

end

theorem outerBlock_some (hs : Sends w e items) (hlen : oinfo.length = e.k * e.shardLen)
    (h : e.outerBlock oinfo = some pb) :
    ∃ o : Coded, Holds o pb ∧ o.k = e.k ∧ o.r = e.r ∧ o.r ≠ 0 ∧ o.info = oinfo := by
  have hpos : 0 < e.shardLen := lt_of_lt_of_le two_pos hs.len_two
  have hfits : e.k + e.r ≤ 32 := hs.fits
  simp only [outerBlock, bind_eq_bind, bind_eq_some_iff] at h
  obtain ⟨oparity, hpar, heq⟩ := h
  cases heq
  have hcl := chunks_length hpos hlen
  have hcs := chunks_len hpos hlen
  obtain ⟨code, hcode, hparity⟩ := encodeParity_some hcl hpos hcs hpar
  have hr0 : e.r ≠ 0 := by
    rw [← (new_dims hcode).2]
    exact code.r_pos.ne'
  refine ⟨⟨e.k, e.r, e.shardLen, chunks e.shardLen oinfo, oparity, hs.k_pos, hs.fits,
    hs.len_two, hcl, hcs, .inr ⟨code, hcode, hparity⟩⟩, ⟨?_, ?_, rfl⟩, rfl, rfl, hr0,
    chunks_flatten hpos hlen⟩
  · exact Nat.mod_eq_of_lt (by omega)
  · exact Nat.mod_eq_of_lt (by omega)

/-- The datagrams of a segment's outer blocks carry the shards of a row of coded
blocks, numbered from `oidx`. -/
theorem outerDatagrams_some (hs : Sends w e items) (d seg : Nat)
    (hlen : ∀ oinfo ∈ outer, oinfo.length = e.k * e.shardLen)
    (h : e.outerDatagrams d seg oidx outer = some out) :
    ∃ row : List Coded, row.map Coded.info = outer ∧ (∀ o ∈ row, o.r ≠ 0) ∧
      ∀ buf ∈ out, ∃ j o hd, row[j]? = some o ∧ parseHeader buf = some hd ∧
        hd.blockId = outerId d e.towerROuter seg (oidx + j) % 2 ^ 32 ∧ ShardOf o hd := by
  induction outer generalizing oidx out with
  | nil =>
    cases h
    exact ⟨[], rfl, by simp, by simp⟩
  | cons oinfo rest ih =>
    simp only [outerDatagrams, bind_eq_bind, bind_eq_some_iff] at h
    obtain ⟨opb, hopb, out', hout', heq⟩ := h
    cases heq
    obtain ⟨o, hb, hk, hr, hr0, hinfo⟩ := outerBlock_some hs (hlen oinfo (mem_cons_self ..)) hopb
    obtain ⟨row, hrow, hcoded, hwire⟩ := ih (fun i hi => hlen i (mem_cons_of_mem _ hi)) hout'
    refine ⟨o :: row, by rw [map_cons, hinfo, hrow], ?_, ?_⟩
    · intro o' ho'
      rcases mem_cons.mp ho' with rfl | ho'
      · exact hr0
      · exact hcoded o' ho'
    intro buf hbuf
    rcases mem_append.mp hbuf with hbuf | hbuf
    · obtain ⟨i, hi, rfl⟩ := mem_map.mp hbuf
      rw [mem_range, ← hk, ← hr] at hi
      obtain ⟨hd, hparse, hid, hshard⟩ :=
        shardOf_datagram hb (outerId d e.towerROuter seg oidx) flagOuter e.epoch hi
      exact ⟨0, o, hd, rfl, hparse, hid, hshard⟩
    · obtain ⟨j, o', hd, ho', hparse, hid, hshard⟩ := hwire buf hbuf
      exact ⟨j + 1, o', hd, ho', hparse, by rw [hid, Nat.add_right_comm, add_assoc], hshard⟩

/-- The fields read back as packed just where each fits its bits. -/
theorem outerFields_outerId (hj : j < 2 ^ 8) :
    outerFields (outerId d rOuter seg j % 2 ^ 32) = (seg, d, rOuter, j) ↔
      d < 2 ^ 4 ∧ rOuter < 2 ^ 3 ∧ seg < 2 ^ 16 := by
  simp only [outerFields, Prod.mk.injEq]
  constructor
  · rintro ⟨hseg, hd, hr, -⟩
    omega
  rintro ⟨hd, hr, hseg⟩
  have h1 := Nat.shiftLeft_add_eq_or_of_lt (i := 4) hd 1
  have h2 := Nat.shiftLeft_add_eq_or_of_lt (i := 3) hr (1 <<< 4 + d)
  have h3 := Nat.shiftLeft_add_eq_or_of_lt (i := 16) hseg ((1 <<< 4 + d) <<< 3 + rOuter)
  have h4 := Nat.shiftLeft_add_eq_or_of_lt (i := 8) hj (((1 <<< 4 + d) <<< 3 + rOuter) <<< 16 + seg)
  rw [outerId, show outerIdBit = (1 <<< 4) <<< 27 from rfl, ← Nat.shiftLeft_or_distrib,
    ← h1, Nat.shiftLeft_add _ 3 24, ← Nat.shiftLeft_or_distrib, ← h2, Nat.shiftLeft_add _ 16 8,
    ← Nat.shiftLeft_or_distrib, ← h3, ← h4]
  simp only [Nat.shiftLeft_eq]
  omega

theorem encodeParity_dims (h : encodeParity k r len data = some parity) :
    0 < k ∧ parity.length = r := by
  simp only [encodeParity, bind_eq_bind, bind_eq_some_iff] at h
  obtain ⟨code, hcode, hparity⟩ := h
  cases hnew : RsCode.new k r with
  | error err => simp [hnew, Except.toOption] at hcode
  | ok c =>
    obtain ⟨rfl, rfl⟩ := new_dims hnew
    obtain rfl : c = code := by simpa [hnew, Except.toOption] using hcode
    refine ⟨c.k_pos, ?_⟩
    cases henc : c.encode data (replicate c.r (replicate len (byte 0))) with
    | error err => simp [henc, Except.toOption] at hparity
    | ok rows =>
      obtain rfl : rows = parity := by simpa [henc, Except.toOption] using hparity
      unfold RsCode.encode at henc
      split at henc
      · cases henc
      dsimp only at henc
      split at henc
      · cases henc
      · cases henc
        simp [length_range]

/-- The datagrams of outer block `j` follow those of the blocks before it. -/
theorem outerDatagrams_at (h : e.outerDatagrams d seg oidx outer = some out) :
    out.length = outer.length * (e.k + e.r) ∧ (outer ≠ [] → 0 < e.k) ∧
      ∀ m buf, out[m]? = some buf → ∃ (pb : PendingBlock) (i : Nat),
        buf = pb.datagramFlagged (outerId d e.towerROuter seg (oidx + m / (e.k + e.r))) i
          flagOuter e.epoch := by
  induction outer generalizing oidx out with
  | nil =>
    cases h
    simp
  | cons oinfo rest ih =>
    simp only [outerDatagrams, bind_eq_bind, bind_eq_some_iff] at h
    obtain ⟨opb, hopb, out', hout', heq⟩ := h
    cases heq
    obtain ⟨hlen, -, hat⟩ := ih hout'
    have hk : 0 < e.k := by
      simp only [outerBlock, bind_eq_bind, bind_eq_some_iff] at hopb
      obtain ⟨oparity, hpar, -⟩ := hopb
      exact (encodeParity_dims hpar).1
    refine ⟨?_, fun _ => hk, fun m buf hbuf => ?_⟩
    · simp [length_range, hlen, Nat.succ_mul, add_comm]
    rw [getElem?_append, length_map, length_range] at hbuf
    split at hbuf
    · rename_i hlt
      obtain ⟨i, -, rfl⟩ := mem_map.mp (mem_of_getElem? hbuf)
      exact ⟨opb, i, by rw [Nat.div_eq_of_lt hlt, add_zero]⟩
    · rename_i hge
      obtain ⟨pb, i, rfl⟩ := hat _ buf hbuf
      have hdiv : m / (e.k + e.r) = (m - (e.k + e.r)) / (e.k + e.r) + 1 :=
        Nat.div_eq_sub_div (by omega) (by omega)
      exact ⟨pb, i, by rw [hdiv, Nat.add_right_comm, add_assoc]⟩

/-- From any state of the encoder: the datagrams of a closed segment read back as packed
just where its size, its outer block count and its number fit their bits, and a data
block's datagrams, fresh or resent, pass for data just where its id leaves the outer bit
clear. -/
theorem outer_ids_identify_iff (e : Encoder) :
    (∀ e' (out : List Datagram), e.sealSegment = some (e', out) → e.segInfos ≠ [] →
      e.towerROuter ≠ 0 → ((∀ m buf, out[m]? = some buf → ∃ h, parseHeader buf = some h ∧
          outerIdBit ≤ h.blockId ∧ outerFields h.blockId =
            (e.segId, e.segInfos.length, e.towerROuter, m / (e.k + e.r))) ↔
        e.segInfos.length < 2 ^ 4 ∧ e.towerROuter < 2 ^ 3 ∧ e.segId < 2 ^ 16)) ∧
    (∀ e' (out : List Datagram), e.sealShards = some (e', out) →
      ∀ buf ∈ out, ∃ h, parseHeader buf = some h ∧
        (h.blockId < outerIdBit ↔ e.nextBlock % 2 ^ 32 < 2 ^ 31)) ∧
    ∀ fb : Feedback, ∀ buf ∈ (e.onFeedback fb).2, ∃ h, parseHeader buf = some h ∧
      (h.blockId < outerIdBit ↔ fb.nakBlock % 2 ^ 32 < 2 ^ 31) := by
  refine ⟨fun e' out hseal hinfos hro => ?_, fun e' out hseal buf hbuf => ?_,
    fun fb buf hbuf => ?_⟩
  · unfold sealSegment at hseal
    rw [if_neg (by simp [hinfos, hro])] at hseal
    simp only [bind_eq_bind, bind_eq_some_iff] at hseal
    obtain ⟨outer, houter, out', hout, heq⟩ := hseal
    cases heq
    have hrows := (encodeParity_dims houter).2
    obtain ⟨hlen, hk, hat⟩ := outerDatagrams_at hout
    have hk := hk fun hnil => hro (by rw [← hrows, hnil]; rfl)
    constructor
    · intro hread
      have hpos : 0 < out.length := by
        rw [hlen, hrows]
        exact Nat.mul_pos (pos_of_ne_zero hro) (by omega)
      obtain ⟨pb, i, hbuf⟩ := hat 0 _ (getElem?_eq_getElem hpos)
      obtain ⟨h, hparse, -, hfields⟩ := hread 0 _ (getElem?_eq_getElem hpos)
      rw [hbuf, parseHeader_datagram] at hparse
      cases hparse
      rw [Nat.zero_div, add_zero] at hfields
      exact (outerFields_outerId (by decide)).mp hfields
    · intro hfits m buf hbuf
      obtain ⟨pb, i, rfl⟩ := hat m buf hbuf
      have hm := lt_of_some hbuf
      rw [hlen, hrows] at hm
      have hj : m / (e.k + e.r) < 2 ^ 8 := lt_trans (Nat.div_lt_of_lt_mul (by rwa [mul_comm]))
        (by omega : e.towerROuter < 2 ^ 8)
      obtain ⟨hbit, hlt, -⟩ := outerId_fields e.segInfos.length e.towerROuter e.segId hj
      refine ⟨_, parseHeader_datagram .., ?_, ?_⟩
      · rw [zero_add, Nat.mod_eq_of_lt hlt]
        exact hbit
      · rw [zero_add]
        exact (outerFields_outerId hj).mpr hfits
  · obtain ⟨parity, -, heq⟩ := Option.map_eq_some_iff.mp hseal
    cases heq
    obtain ⟨i, -, rfl⟩ := mem_map.mp hbuf
    exact ⟨_, parseHeader_datagram .., Iff.rfl⟩
  · unfold onFeedback at hbuf
    dsimp only at hbuf
    split at hbuf
    · split at hbuf
      · obtain ⟨i, -, rfl⟩ := mem_map.mp hbuf
        exact ⟨_, parseHeader_datagram .., Iff.rfl⟩
      · cases hbuf
    · cases hbuf

/-- `enable_tower` takes segments of sixteen blocks, whose ids announce no blocks. -/
theorem outer_id_sixteen_blocks : ((new 1 1 1 0).enableTower 16 1).towerD = 16 ∧
      outerFields (outerId 16 1 0 0) = (0, 0, 1, 0) := by
  decide

/-- How the id of a segment of `d` blocks reads at the receiver: as one it
ignores, or as the segment of `segLen` blocks that starts at block `first`. -/
def Encoder.Announces (e : Encoder) (segLen first d : Nat) : Prop :=
  let oid := outerId d e.towerROuter e.segId 0
  (oid / 2 ^ 27 % 2 ^ 4 = 0 ∨ oid / 2 ^ 24 % 2 ^ 3 = 0) ∨
    oid / 2 ^ 27 % 2 ^ 4 = segLen ∧ d = segLen ∧ first = oid / 2 ^ 8 % 2 ^ 16 * segLen
deriving Decidable

/-- The open segment: its infos are those of the last blocks, which share the
fixed shard length, and every closed segment lies before it. -/
structure OpenSegment (w : World) (e : Encoder) (before last : List Coded) : Prop where
  blocks_eq : w.blocks = before ++ last
  infos_eq : e.segInfos = last.map Coded.info
  len_eq : ∀ b ∈ last, b.len = e.shardLen
  closed : ∀ seg j o, w.outer seg j = some o → seg * w.segLen + w.segLen ≤ before.length

def World.close (w : World) (seg : Nat) (row : List Coded) : World :=
  { w with outer := fun seg' j => if seg' = seg then row[j]? else w.outer seg' j }

theorem World.extends_close (hnew : ∀ j, w.outer seg j = none) : w.Extends (w.close seg row) where
  blocks := prefix_rfl
  outer := by
    intro seg' j o ho
    by_cases hseg : seg' = seg
    · subst hseg
      rw [hnew j] at ho
      cases ho
    · rw [World.close]
      exact (if_neg hseg).trans ho
  segLen := rfl

theorem World.close_outer {P : Nat → Nat → Coded → Prop}
    (hold : ∀ seg j o, w.outer seg j = some o → P seg j o)
    (hrow : ∀ j o, row[j]? = some o → P seg j o) :
    ∀ seg' j o, (w.close seg row).outer seg' j = some o → P seg' j o := by
  intro seg' j o ho
  by_cases hseg : seg' = seg
  · subst hseg
    exact hrow j o ((if_pos rfl).symm.trans ho)
  · exact hold seg' j o ((if_neg hseg).symm.trans ho)

section
variable (h : OpenSegment w e before last) (hfirst : before.length = seg * w.segLen)
include h hfirst

theorem OpenSegment.fresh (hpos : 0 < w.segLen) (j : Nat) : w.outer seg j = none := by
  cases ho : w.outer seg j with
  | none => rfl
  | some o =>
    have := h.closed seg j o ho
    omega

theorem OpenSegment.segInfos_eq (hlen : last.length = w.segLen) : w.segInfos seg = e.segInfos := by
  rw [World.segInfos, h.blocks_eq, ← hfirst, drop_left, ← hlen, take_length, h.infos_eq]

end

theorem TowerOk.close (hw : TowerOk w) (h : OpenSegment w e before last)
    (hfirst : before.length = seg * w.segLen) (hlen : last.length = w.segLen)
    (hcoded : ∀ o ∈ row, o.r ≠ 0)
    (hparity : ∀ j o, row[j]? = some o → OuterParity e.segInfos j o.info) :
    TowerOk (w.close seg row) where
  same_k := hw.same_k
  closed := by
    refine World.close_outer hw.closed fun j o _ => ?_
    dsimp only [World.close]
    simp [h.blocks_eq, hfirst, hlen]
  coded := World.close_outer hw.coded fun j o ho => hcoded o (mem_of_getElem? ho)
  parity := by
    refine World.close_outer hw.parity fun j o ho => ?_
    have := hparity j o ho
    rwa [← h.segInfos_eq hfirst hlen] at this

theorem OpenSegment.infos_len (h : OpenSegment w e before last) (hs : Sends w e items) :
    ∀ info ∈ e.segInfos, info.length = e.k * e.shardLen := by
  intro info hinfo
  rw [h.infos_eq] at hinfo
  obtain ⟨b, hb, rfl⟩ := mem_map.mp hinfo
  have hmem : b ∈ w.blocks := by
    rw [h.blocks_eq]
    exact mem_append_right _ hb
  rw [b.info_length, hs.same_k b hmem, h.len_eq b hb]

/-- A datagram under an outer id is judged by what the segment's ids announce. -/
theorem onWire_outer {segId : Nat} {hd : Header} (hj : j < 2 ^ 8)
    (hparse : parseHeader buf = some hd) (hid : hd.blockId = outerId d rOuter segId j % 2 ^ 32)
    (hread : (outerId d rOuter segId 0 / 2 ^ 27 % 2 ^ 4 = 0 ∨
        outerId d rOuter segId 0 / 2 ^ 24 % 2 ^ 3 = 0) ∨
      outerId d rOuter segId 0 / 2 ^ 27 % 2 ^ 4 = w.segLen ∧ ∃ o,
        w.outer (outerId d rOuter segId 0 / 2 ^ 8 % 2 ^ 16) j = some o ∧ ShardOf o hd) :
    OnWire w buf := by
  obtain ⟨hbit, hlt, h27, h24, h8, hidx⟩ := outerId_fields d rOuter segId hj
  rw [Nat.mod_eq_of_lt hlt] at hid
  refine ⟨hd, hparse, .inr ?_⟩
  rw [hid, h27, h24, h8, hidx]
  exact ⟨hbit, hread⟩

theorem sealSegment_row (hs : Sends w e items) (h : OpenSegment w e before last)
    (hne : e.segInfos.length ≠ 0) (hro : e.towerROuter ≠ 0)
    (hseal : e.sealSegment = some (e', out)) :
    e' = { e with segInfos := [], segId := e.segId + 1 } ∧ ∃ row : List Coded,
      row.length < 2 ^ 8 ∧ (∀ o ∈ row, o.r ≠ 0) ∧
      (∀ j o, row[j]? = some o → OuterParity e.segInfos j o.info) ∧
      ∀ buf ∈ out, ∃ j o hd, row[j]? = some o ∧ parseHeader buf = some hd ∧
        hd.blockId = outerId e.segInfos.length e.towerROuter e.segId j % 2 ^ 32 ∧ ShardOf o hd := by
  have hinfos := h.infos_len hs
  have hpos : 0 < e.k * e.shardLen := Nat.mul_pos hs.k_pos (lt_of_lt_of_le two_pos hs.len_two)
  have hfirst : (e.segInfos.getD 0 []).length = e.k * e.shardLen := by
    cases hl : e.segInfos with
    | nil => exact absurd (by rw [hl]; rfl) hne
    | cons info rest => exact hinfos info (by rw [hl]; exact mem_cons_self ..)
  unfold sealSegment at hseal
  rw [if_neg (by rw [not_or]; exact ⟨hne, hro⟩), hfirst] at hseal
  simp only [bind_eq_bind, bind_eq_some_iff] at hseal
  obtain ⟨outer, houter, out', hout', heq⟩ := hseal
  cases heq
  obtain ⟨code, hcode, hcoded⟩ := encodeParity_some rfl hpos hinfos houter
  have holen : ∀ oinfo ∈ outer, oinfo.length = e.k * e.shardLen := by
    intro oinfo hoinfo
    rw [hcoded] at hoinfo
    exact code.mem_codeword_length hinfos oinfo (mem_append_right _ hoinfo)
  obtain ⟨row, hrow, hr, hwire⟩ := outerDatagrams_some hs _ _ holen hout'
  refine ⟨rfl, row, ?_, hr, ?_, ?_⟩
  · have hfits := code.fits
    have hk := code.k_pos
    rw [← length_map, hrow, hcoded, parityOf_length]
    omega
  · intro j o ho
    refine outerParity_of_encode hpos hinfos houter ?_
    rw [← hrow, getElem?_map, ho]
    rfl
  · simpa only [zero_add] using hwire

theorem sealSegment_spec (hs : Sends w e items) (hw : TowerOk w) (h : OpenSegment w e before last)
    (hann : e.Announces w.segLen before.length last.length)
    (hseal : e.sealSegment = some (e', out)) :
    (∃ segId, e' = { e with segInfos := [], segId := segId }) ∧ ∃ w', w.Extends w' ∧
      w'.blocks = w.blocks ∧ TowerOk w' ∧ OpenSegment w' e' w.blocks [] ∧
      ∀ buf ∈ out, OnWire w' buf := by
  have hopen : ∀ segId, OpenSegment w { e with segInfos := [], segId := segId } w.blocks [] :=
    fun _ => ⟨by rw [append_nil], rfl, by simp, hw.closed⟩
  by_cases hempty : e.segInfos.length = 0 ∨ e.towerROuter = 0
  · unfold sealSegment at hseal
    rw [if_pos hempty] at hseal
    cases hseal
    exact ⟨⟨e.segId, rfl⟩, w, .refl w, rfl, hw, hopen _, by simp⟩
  rw [not_or] at hempty
  obtain ⟨rfl, row, hrow, hcoded, hparity, hwire⟩ := sealSegment_row hs h hempty.1 hempty.2 hseal
  have hinfos : e.segInfos.length = last.length := by rw [h.infos_eq, length_map]
  rw [hinfos] at hwire
  refine ⟨⟨_, rfl⟩, ?_⟩
  have hj : ∀ {j o}, row[j]? = some o → j < 2 ^ 8 := fun ho => (lt_of_some ho).trans hrow
  rcases hann with hskip | ⟨hsize, hlen, hfirst⟩
  · refine ⟨w, .refl w, rfl, hw, hopen _, fun buf hbuf => ?_⟩
    obtain ⟨j, o, hd, ho, hparse, hid, -⟩ := hwire buf hbuf
    exact onWire_outer (hj ho) hparse hid (.inl hskip)
  · have hw' := hw.close h hfirst hlen hcoded hparity
    refine ⟨w.close _ row, World.extends_close (h.fresh hfirst (by omega)), rfl, hw',
      ⟨by rw [append_nil]; rfl, rfl, by simp, hw'.closed⟩, fun buf hbuf => ?_⟩
    obtain ⟨j, o, hd, ho, hparse, hid, hshard⟩ := hwire buf hbuf
    exact onWire_outer (hj ho) hparse hid (.inr ⟨hsize, o, (if_pos rfl).trans ho, hshard⟩)

theorem World.Extends.trans (h : w.Extends w') (h' : w'.Extends w'') : w.Extends w'' :=
  ⟨h.blocks.trans h'.blocks, fun seg j o ho => h'.outer seg j o (h.outer seg j o ho),
    h'.segLen.trans h.segLen⟩

/-- The sender's side does not depend on the segment bookkeeping. -/
theorem Sends.segment (h : Sends w e items) (hblocks : w'.blocks = w.blocks)
    (infos : List (List Byte)) (segId : Nat) :
    Sends w' { e with segInfos := infos, segId := segId } items where
  __ := h
  next_eq := by rw [hblocks]; exact h.next_eq
  same_k := by rw [hblocks]; exact h.same_k
  pending := by rw [hblocks]; exact h.pending

/-- The sender with its tower: `last` are the blocks of the open segment. -/
structure Towers (w : World) (e : Encoder) (items : List Item) (before last : List Coded) :
    Prop where
  sends : Sends w e items
  tower : TowerOk w
  segment : OpenSegment w e before last
  off : e.towerD = 0 → last = []

theorem Towers.first (h : Towers w e items before last) :
    e.segInfos.length = last.length ∧ e.nextBlock - e.segInfos.length = before.length := by
  have hlast : e.segInfos.length = last.length := by rw [h.segment.infos_eq, length_map]
  rw [hlast, h.sends.next_eq, h.segment.blocks_eq, length_append]
  omega

structure SealsTo (w : World) (e : Encoder) (w' : World) (e' : Encoder) (out : List Datagram)
    (b : Coded) (pb : PendingBlock) : Prop where
  extends_world : w.Extends w'
  blocks_eq : w'.blocks = w.blocks ++ [b]
  k_eq : b.k = e.k
  holds : Holds b pb
  pending_eq : e'.pending = e.pending.insert e.nextBlock pb
  enc_eq : e'.k = e.k ∧ e'.towerD = e.towerD ∧ e'.towerROuter = e.towerROuter
  wire : ∀ buf ∈ out, OnWire w' buf

theorem Towers.sealSegment (h : Towers w e items before last)
    (hann : e.Announces w.segLen before.length last.length)
    (hseal : e.sealSegment = some (e', out)) :
    (∃ segId, e' = { e with segInfos := [], segId := segId }) ∧ ∃ w', w.Extends w' ∧
      w'.blocks = w.blocks ∧ Towers w' e' items w.blocks [] ∧ ∀ buf ∈ out, OnWire w' buf := by
  obtain ⟨⟨segId, rfl⟩, w', hw, hblocks, htower, hopen, hout⟩ :=
    sealSegment_spec h.sends h.tower h.segment hann hseal
  exact ⟨⟨segId, rfl⟩, w', hw, hblocks,
    ⟨h.sends.segment hblocks _ _, htower, hopen, fun _ => rfl⟩, hout⟩

theorem Towers.sealShards (h : Towers w e items before last) (hfits : w.blocks.length < 2 ^ 31)
    (hseal : e.sealShards = some (e', out)) :
    ∃ b pb, SealsTo w e { w with blocks := w.blocks ++ [b] } e' out b pb ∧
      b.len = e.blockShardLen ∧ b.data = e.dataShards ∧
      Sends { w with blocks := w.blocks ++ [b] } e' [] ∧
      TowerOk { w with blocks := w.blocks ++ [b] } ∧ e'.segInfos = e.segInfos ∧
      e'.segId = e.segId ∧ e'.shardLen = e.shardLen := by
  obtain ⟨b, pb, out', hseal', hk, hlen, hdata, hb, hsends, hout⟩ := h.sends.sealShards hfits
  rw [hseal] at hseal'
  cases hseal'
  exact ⟨b, pb, ⟨w.extends_block b, rfl, hk, hb, rfl, ⟨rfl, rfl, rfl⟩, hout⟩, hlen, hdata, hsends,
    h.tower.block fun b' hb' => (h.sends.same_k b' hb').trans hk.symm, rfl, rfl, rfl⟩

theorem SealsTo.close {e'' : Encoder} {b : Coded} {segId : Nat} (h : SealsTo w e w' e' out b pb)
    (hw : w'.Extends w'') (hblocks : w''.blocks = w'.blocks)
    (he : e'' = { e' with segInfos := infos, segId := segId })
    (hout : ∀ buf ∈ out', OnWire w'' buf) : SealsTo w e w'' e'' (out ++ out') b pb where
  __ := h
  extends_world := h.extends_world.trans hw
  blocks_eq := hblocks.trans h.blocks_eq
  pending_eq := by rw [he]; exact h.pending_eq
  enc_eq := by rw [he]; exact h.enc_eq
  wire := by
    intro buf hbuf
    rcases mem_append.mp hbuf with hbuf | hbuf
    · exact (h.wire buf hbuf).mono hw
    · exact hout buf hbuf

/-- The sealed block joins the open segment while the tower is on. -/
theorem Towers.sealBlock (h : Towers w e items before last) (hfits : w.blocks.length < 2 ^ 31)
    (hann : last.length + 1 = e.towerD → e.Announces w.segLen before.length (last.length + 1))
    (hseal : e.sealBlock = some (e', out)) :
    ∃ w' b pb before' last', SealsTo w e w' e' out b pb ∧ Towers w' e' [] before' last' ∧
      (last' = [] ∨ before' = before ∧ last' = last ++ [b] ∧ e'.segId = e.segId) := by
  simp only [Encoder.sealBlock, bind_eq_bind, bind_eq_some_iff] at hseal
  obtain ⟨⟨e1, out1⟩, hshards, hseal⟩ := hseal
  obtain ⟨b, pb, hto, hlen, hdata, hsends, htower, hinfos, hsegId, hshardLen⟩ :=
    h.sealShards hfits hshards
  obtain ⟨hk, hd, hro⟩ := hto.enc_eq
  rw [hinfos] at hseal
  have hclosed : ∀ seg j o, w.outer seg j = some o →
      seg * w.segLen + w.segLen ≤ (w.blocks ++ [b]).length := htower.closed
  by_cases hon : e.towerD > 0
  · have hinfo : e.segInfos ++ [e.dataShards.flatten] = (last ++ [b]).map Coded.info := by
      rw [h.segment.infos_eq, map_append, ← hdata]
      rfl
    -- the segment with the new block in it, whether or not it is full
    have hjoined : Towers { w with blocks := w.blocks ++ [b] }
        { e1 with segInfos := e.segInfos ++ [e.dataShards.flatten] } [] before (last ++ [b]) := by
      refine ⟨hsends.segment rfl _ e1.segId, htower, ⟨?_, hinfo, ?_, h.segment.closed⟩, ?_⟩
      · simp [h.segment.blocks_eq]
      · intro b' hb'
        rcases mem_append.mp hb' with hb' | hb'
        · rw [h.segment.len_eq b' hb', hshardLen]
        · rw [mem_singleton.mp hb', hlen, blockShardLen, if_pos hon, hshardLen]
      · intro hz
        exact absurd (hd.symm.trans hz) hon.ne'
    have hcount : (e.segInfos ++ [e.dataShards.flatten]).length = last.length + 1 := by
      simp [hinfo]
    rw [if_pos hon] at hseal
    split at hseal
    · rename_i hfull
      simp only [bind_eq_some_iff] at hseal
      obtain ⟨⟨e2, out2⟩, hsegment, heq⟩ := hseal
      cases heq
      have hann' := hann (by rw [← hcount, hfull, hd])
      obtain ⟨⟨segId, he2⟩, w2, hw2, hblocks, htowers, hout⟩ := hjoined.sealSegment (by
        rw [length_append, length_singleton]
        simpa only [Encoder.Announces, hro, hsegId] using hann') hsegment
      exact ⟨w2, b, pb, _, [], hto.close hw2 hblocks he2 hout, htowers, .inl rfl⟩
    · cases hseal
      refine ⟨_, b, pb, before, last ++ [b], ?_, hjoined, .inr ⟨rfl, rfl, hsegId⟩⟩
      exact { hto with blocks_eq := rfl }
  · rw [if_neg hon] at hseal
    cases hseal
    have hlast := h.off (by omega)
    refine ⟨_, b, pb, w.blocks ++ [b], [], hto, ⟨hsends, htower, ⟨by rw [append_nil], ?_,
      by simp, hclosed⟩, fun _ => rfl⟩, .inl rfl⟩
    rw [hinfos, h.segment.infos_eq, hlast]

end SubEtha.Block
