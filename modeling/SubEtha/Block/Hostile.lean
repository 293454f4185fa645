import SubEtha.Block.Checked
import SubEtha.Block.Waiting

namespace SubEtha.Block
open List Option Lib RsCode Decoder Checked Table

variable {shards : Shards} {len k : Nat} {b : RxBlock}

section
variable (code : RsCode)

/-- The lengths of the shards `decode` works from, the first `k` received. -/
def survivorLens (shards : Shards) : List Nat :=
  ((received shards).take code.k).map List.length

theorem pickSurvivors_survivorLens (shards : Shards) : pickSurvivors code.k 0 shards [] 0 =
      (scanLens 0 (survivorLens code shards)).map fun len => ((presentFrom 0 shards).take code.k, len) :=
  pickSurvivors_eq code.k 0 shards [] 0 (Nat.zero_le _)

theorem length_survivorLens (shards : Shards) :
    (survivorLens code shards).length = ((presentFrom 0 shards).take code.k).length := by
  have hsame := congrArg length (presentFrom_received 0 (drop_zero (l := shards)))
  rw [length_map, length_map] at hsame
  simp [survivorLens, hsame]

/-- Survivors of the one length the scan found fit every multiply-add. -/
theorem sourcesFit_of_lens (hlens : ∀ len, scanLens 0 (survivorLens code shards) = .ok len → len ≠ 0 →
      (survivorLens code shards).length = code.k → ∀ l ∈ survivorLens code shards, l = len) :
    SourcesFit code shards = true := by
  have hall := presentFrom_received 0 (drop_zero (l := shards))
  have hcount := length_survivorLens code shards
  rw [SourcesFit, pickSurvivors_survivorLens]
  cases hscan : scanLens 0 (survivorLens code shards) with
  | error e => rfl
  | ok len =>
    dsimp only [Except.map]
    split
    · rfl
    rename_i hfew
    obtain ⟨hfew, hlen⟩ := not_or.mp hfew
    split
    · rfl
    simp only [List.all_eq_true, Bool.or_eq_true, beq_iff_eq, List.mem_range]
    refine fun i _ => .inr fun j hj => .inr ?_
    have hj' : j < ((presentFrom 0 shards).take code.k).length := by omega
    have hat := congrArg (fun l => (l.take code.k)[j]?) hall
    simp only [← map_take, getElem?_map, getElem?_eq_getElem hj', map_some] at hat
    obtain ⟨v, hv, heq⟩ := map_eq_some_iff.mp hat.symm
    rw [getD_of_getElem? (getElem?_eq_getElem hj'), ← heq]
    have hk := length_take_le code.k (presentFrom 0 shards)
    exact hlens len hscan hlen (by omega) _ (mem_map_of_mem (mem_of_getElem? hv))

theorem sourcesFit_of_nonempty (hne : ∀ v, some v ∈ shards → v ≠ []) :
    SourcesFit code shards = true := by
  refine sourcesFit_of_lens code fun len hscan _ _ l hl => ?_
  obtain ⟨a, b, hls, -⟩ := scanLens_ok_iff.mp hscan
  rw [hls] at hl
  rcases mem_append.mp hl with hl | hl
  · obtain ⟨v, hv, heq⟩ := mem_map.mp (hls ▸ mem_append_left _ hl : l ∈ survivorLens code shards)
    obtain ⟨s, hs, rfl⟩ := mem_filterMap.mp (mem_of_mem_take hv)
    rw [eq_of_mem_replicate hl] at heq
    exact absurd (length_eq_zero_iff.mp heq) (hne v hs)
  · exact eq_of_mem_replicate hl

theorem sourcesFit_of_uniform (hlen : ∀ v, some v ∈ shards → v.length = len) :
    SourcesFit code shards = true := by
  rcases Nat.eq_zero_or_pos len with rfl | hpos
  · simp [SourcesFit, pickSurvivors_uniform hlen]
  refine sourcesFit_of_nonempty code fun v hv hnil => ?_
  have := hlen v hv
  rw [hnil] at this
  exact absurd this (ne_of_lt hpos)

end

theorem not_all_of_missing {code : RsCode} (hmiss : ∃ i < code.k, shards[i]? = some none) :
    ¬((range code.k).all fun i => (shards.getD i none).isSome) = true := by
  obtain ⟨i, hi, hnone⟩ := hmiss
  intro h
  have hsome := all_eq_true.mp h i (mem_range.mpr hi)
  rw [getD_of_getElem? hnone] at hsome
  cases hsome

theorem exists_of_all (hall : (range k).all (fun i => (shards.getD i none).isSome) = true)
    (hk : k ≤ shards.length) : ∀ i < k, ∃ v, shards[i]? = some (some v) := by
  intro i hi
  have hsome := all_eq_true.mp hall i (mem_range.mpr hi)
  obtain ⟨v, hv⟩ := isSome_iff_exists.mp hsome
  have hil : i < shards.length := lt_of_lt_of_le hi hk
  refine ⟨v, ?_⟩
  rw [getElem?_eq_getElem hil]
  simpa [hil] using hv

theorem decode_ok_of_scan {code : RsCode} (hshards : shards.length = code.k + code.r)
    (hmiss : ∃ i < code.k, shards[i]? = some none)
    (hscan : scanLens 0 (survivorLens code shards) = .ok len) (hlen : len ≠ 0)
    (hk : (survivorLens code shards).length = code.k) : (code.decode shards).1 = .ok () := by
  have hcount := length_survivorLens code shards
  obtain ⟨inv, hinv, -⟩ := code.invert_survivors
    ((take_sublist _ _).nodup (presentFrom_nodup 0 shards)) (hcount.symm.trans hk)
    (fun pos hpos => by
      obtain ⟨-, v, hv⟩ := mem_presentFrom (mem_of_mem_take hpos)
      rw [← hshards]
      exact lt_of_some hv)
  rw [decode, if_neg (not_not.mpr hshards), if_neg (not_all_of_missing hmiss),
    pickSurvivors_survivorLens, hscan]
  dsimp only [Except.map]
  rw [if_neg (by omega), hinv]

/-- With a data shard missing, `decode` succeeds on `k` survivors of one nonzero length and
otherwise fails with the vector untouched, and every multiply-add gets slices of one
length, unless empty shards stand before survivors of one length. -/
theorem decode_length_safe_iff (code : RsCode) {shards : Shards}
    (hshards : shards.length = code.k + code.r) (hmiss : ∃ i < code.k, shards[i]? = some none) :
    (((∃ len, 0 < len ∧ survivorLens code shards = replicate code.k len) ∧
          (code.decode shards).1 = .ok () ∨ ∃ e, code.decode shards = (.error e, shards)) ∧
      SourcesFit code shards = true) ↔ ¬∃ a b len, 0 < a ∧ 0 < b ∧ 0 < len ∧ a + b = code.k ∧
      survivorLens code shards = replicate a 0 ++ replicate b len := by
  have hall := not_all_of_missing hmiss
  have hcount := length_survivorLens code shards
  have hmost := length_take_le code.k (presentFrom 0 shards)
  constructor
  · rintro ⟨hres, -⟩ ⟨a, b, len, ha, hb, hlen, hk, hls⟩
    have hscan : scanLens 0 (survivorLens code shards) = .ok len :=
      scanLens_ok_iff.mpr ⟨a, b, hls, by omega⟩
    rcases hres with ⟨⟨len', hlen', hls'⟩, -⟩ | ⟨e, he⟩
    · have hzero : 0 ∈ replicate code.k len' := by
        rw [← hls', hls]
        exact mem_append_left _ (mem_replicate.mpr ⟨Nat.ne_of_gt ha, rfl⟩)
      have := eq_of_mem_replicate hzero
      omega
    · have hdone := decode_ok_of_scan hshards hmiss hscan (by omega) (by rw [hls]; simpa using hk)
      rw [he] at hdone
      cases hdone
  intro hrun
  -- what the scan lets pass is `k` shards of one length, or too few
  have hone : ∀ len, scanLens 0 (survivorLens code shards) = .ok len → len ≠ 0 →
      (survivorLens code shards).length = code.k → survivorLens code shards = replicate code.k len := by
    intro len hscan hlen hk
    obtain ⟨a, b, hls, hb⟩ := scanLens_ok_iff.mp hscan
    rw [hls, length_append, length_replicate, length_replicate] at hk
    have ha : a = 0 := by
      by_contra ha
      exact hrun ⟨a, b, len, by omega, by omega, by omega, hk, hls⟩
    rw [hls, ha, ← hk, ha, replicate_zero, nil_append, zero_add]
  refine ⟨?_, sourcesFit_of_lens code fun len hscan hlen hk l hl => ?_⟩
  · cases hscan : scanLens 0 (survivorLens code shards) with
    | error e =>
      refine .inr ⟨e, ?_⟩
      rw [decode, if_neg (not_not.mpr hshards), if_neg hall, pickSurvivors_survivorLens, hscan]
      rfl
    | ok len =>
      by_cases hfew : ((presentFrom 0 shards).take code.k).length < code.k ∨ len = 0
      · refine .inr ⟨.tooFewShards, ?_⟩
        rw [decode, if_neg (not_not.mpr hshards), if_neg hall, pickSurvivors_survivorLens, hscan]
        exact if_pos hfew
      · have hk : (survivorLens code shards).length = code.k := by omega
        exact .inl ⟨⟨len, by omega, hone len hscan (by omega) hk⟩,
          decode_ok_of_scan hshards hmiss hscan (by omega) hk⟩
  · rw [hone len hscan hlen hk] at hl
    exact eq_of_mem_replicate hl

theorem decode_length_safe_iff_one_lost : ∃ code, RsCode.new 2 1 = .ok code ∧
      (((∃ len, 0 < len ∧ survivorLens code [some [byte 7], none, some [byte 5]] = replicate code.k len) ∧
          (code.decode [some [byte 7], none, some [byte 5]]).1 = .ok () ∨
        ∃ e, code.decode [some [byte 7], none, some [byte 5]] =
          (.error e, [some [byte 7], none, some [byte 5]])) ∧
        SourcesFit code [some [byte 7], none, some [byte 5]] = true) := by
  refine ⟨_, rfl, (decode_length_safe_iff _ rfl ⟨1, by decide, rfl⟩).mpr ?_⟩
  rintro ⟨a, b, len, ha, -, -, -, hls⟩
  obtain ⟨a, rfl⟩ : ∃ n, a = n + 1 := ⟨a - 1, by omega⟩
  exact absurd (cons.inj hls).1 (by decide)

/-- An empty first shard is taken in beside one of a byte. -/
theorem decode_takes_empty :
    ∃ code, RsCode.new 2 1 = .ok code ∧ survivorLens code [some [], none, some [byte 5]] = [0, 1] ∧
      (code.decode [some [], none, some [byte 5]]).1 = .ok () :=
  ⟨_, rfl, rfl, decode_ok_of_scan rfl ⟨1, by decide, rfl⟩ rfl Nat.one_ne_zero rfl⟩

section
variable (code : RsCode) (hlen : ∀ v, some v ∈ shards → v.length = len)
include hlen

theorem fillMissing_uniform (hk : code.k ≤ shards.length) :
    (code.fillMissing surv inv len shards).length = shards.length ∧
      (∀ v, some v ∈ code.fillMissing surv inv len shards → v.length = len) ∧
      ∀ i < code.k, ∃ v, (code.fillMissing surv inv len shards)[i]? = some (some v) := by
  refine code.fillMissing_induct surv inv len shards (motive := fun m out => out.length = shards.length ∧
    (∀ v, some v ∈ out → v.length = len) ∧ ∀ i < m, ∃ v, out[i]? = some (some v))
    ⟨rfl, hlen, fun i hi => absurd hi (Nat.not_lt_zero i)⟩ ?_ ?_
  · rintro m out v hm ⟨hol, hov, hfull⟩ hv
    refine ⟨hol, hov, fun i hi => ?_⟩
    rcases Nat.lt_succ_iff_lt_or_eq.mp hi with hi | rfl
    · exact hfull i hi
    · exact ⟨v, hv⟩
  rintro m out hm ⟨hol, hov, hfull⟩ -
  refine ⟨by rw [length_set, hol], fun v hv => ?_, fun i hi => ?_⟩
  · rcases mem_or_eq_of_mem_set hv with hv | hv
    · exact hov v hv
    · cases hv
      exact accumulate_length ..
  · by_cases him : m = i
    · subst him
      exact ⟨_, getElem?_set_self (by omega)⟩
    · rw [getElem?_set_ne him]
      exact hfull i (by omega)

/-- Whatever the shards hold, `decode` keeps their number and length, and on
success no data shard is missing. -/
theorem decode_uniform (h : code.decode shards = (res, out)) :
    out.length = shards.length ∧ (∀ v, some v ∈ out → v.length = len) ∧
      (res = .ok () → ∀ i < code.k, ∃ v, out[i]? = some (some v)) := by
  rw [RsCode.decode] at h
  split at h
  · cases h
    exact ⟨rfl, hlen, by simp⟩
  rename_i hn
  rw [not_not] at hn
  split at h
  · rename_i hall
    cases h
    exact ⟨rfl, hlen, fun _ => exists_of_all hall (by omega)⟩
  rw [pickSurvivors_uniform hlen] at h
  dsimp only at h
  split at h
  · rw [if_pos (.inr rfl)] at h
    cases h
    exact ⟨rfl, hlen, by simp⟩
  split at h
  · cases h
    exact ⟨rfl, hlen, by simp⟩
  split at h
  · cases h
    exact ⟨rfl, hlen, by simp⟩
  cases h
  obtain ⟨hl, hv, hfull⟩ := fillMissing_uniform code hlen (by omega)
  exact ⟨hl, hv, fun _ => hfull⟩

end

/-- A block whose slots and shard lengths agree with its own header fields. -/
structure RxSound (b : RxBlock) : Prop where
  k_pos : 0 < b.k
  fits : b.k + b.r ≤ maxShards
  length_eq : b.shards.length = b.k + b.r
  lens : ∀ v, some v ∈ b.shards → v.length = b.shardLen

def RxBlock.Filled (b : RxBlock) : Prop := ∀ i < b.k, ∃ v, b.shards[i]? = some (some v)

theorem rxSound_new {r : Nat} (hk : k ≠ 0) (hfits : k + r ≤ maxShards) :
    RxSound (RxBlock.new k r len) where
  k_pos := pos_of_ne_zero hk
  fits := hfits
  length_eq := length_replicate ..
  lens := by
    intro v hv
    cases eq_of_mem_replicate hv

theorem addShard_sound (h : RxSound b) (hidx : idx < b.k + b.r)
    (hlen : b.shardLen = payload.length) :
    addShard b idx payload = some (b.addShard idx payload) ∧ RxSound (b.addShard idx payload) := by
  have hfits : b.k + b.r ≤ 32 := h.fits
  refine ⟨if_pos ⟨by omega, .inr (by rw [h.length_eq]; exact hidx)⟩, ?_⟩
  unfold RxBlock.addShard
  split
  · exact h
  refine ⟨h.k_pos, h.fits, by rw [length_set]; exact h.length_eq, fun v hv => ?_⟩
  rcases mem_or_eq_of_mem_set hv with hv | hv
  · exact h.lens v hv
  · cases hv
    exact hlen.symm

theorem decodeFits_sound (h : RxSound b) : decodeFits b = true := by
  unfold decodeFits
  split
  · rfl
  · exact sourcesFit_of_uniform _ h.lens

/-- What completing leaves: the same shape, and a block that became decoded is full. -/
structure Completed (b done : RxBlock) : Prop where
  sound : RxSound done
  len_eq : done.shardLen = b.shardLen
  filled : done.decoded = true → b.decoded = true ∧ done = b ∨ done.Filled
  enough : done.decoded = true → b.decoded = false → b.k ≤ b.count

theorem completed_self (h : RxSound b) : Completed b b where
  sound := h
  len_eq := rfl
  filled := fun hd => .inl ⟨hd, rfl⟩
  enough := fun hd hn => by rw [hd] at hn; cases hn

theorem complete_sound (passthrough : Bool) (h : RxSound b)
    (hr : passthrough = true ∨ (b.decoded = false → b.k ≤ b.count → b.r ≠ 0)) :
    ∃ done, complete b passthrough = some done ∧ Completed b done := by
  unfold complete
  split
  · rename_i hcount
    rw [Bool.and_eq_true, decide_eq_true_eq, Bool.not_eq_true'] at hcount
    rw [if_pos ⟨by rw [h.length_eq]; omega, decodeFits_sound h⟩, RxBlock.complete, if_pos (by
      simpa using hcount)]
    split
    · split
      · rename_i hall
        have hk : b.k ≤ b.shards.length := h.length_eq ▸ Nat.le_add_right ..
        exact ⟨_, rfl, { h with }, rfl, fun _ => .inr (exists_of_all hall hk), fun _ _ => hcount.2⟩
      · exact ⟨b, rfl, completed_self h⟩
    rename_i hpass
    have hrpos : b.r ≠ 0 := by
      rcases hr with rfl | hr
      · simpa using hpass
      · exact hr hcount.1 hcount.2
    have hfits : b.k + b.r ≤ 32 := h.fits
    obtain ⟨code, hcode, hck, -⟩ := new_ok h.k_pos (pos_of_ne_zero hrpos) (by omega)
    rw [hcode]
    dsimp only
    split
    · rename_i shards hdec
      obtain ⟨hl, hv, hfull⟩ := decode_uniform code h.lens hdec
      refine ⟨_, rfl, ⟨h.k_pos, h.fits, hl.trans h.length_eq, hv⟩, rfl, fun _ => .inr ?_,
        fun _ _ => hcount.2⟩
      intro i hi
      exact hfull rfl i (by rw [hck]; exact hi)
    · rename_i shards hdec
      obtain ⟨hl, hv, -⟩ := decode_uniform code h.lens hdec
      refine ⟨_, rfl, ⟨h.k_pos, h.fits, hl.trans h.length_eq, hv⟩, rfl, fun hd => ?_,
        fun _ _ => hcount.2⟩
      rw [hcount.1] at hd
      cases hd
  · exact ⟨b, rfl, completed_self h⟩

theorem info_ne_nil (h : RxSound b) (hfull : b.Filled) (hlen : b.shardLen ≠ 0) : b.info ≠ [] := by
  obtain ⟨v, hv⟩ := hfull 0 h.k_pos
  have hvl := h.lens v (mem_of_getElem? hv)
  intro hnil
  have hall := flatMap_eq_nil_iff.mp hnil (some v) (by
    have hmem : (b.shards.take b.k)[0]? = some (some v) := by
      rw [getElem?_take, if_pos h.k_pos, hv]
    exact mem_of_getElem? hmem)
  rw [getD_some] at hall
  rw [hall] at hvl
  exact hlen hvl.symm

theorem shardItem_some (h : itemLenPrefix ≤ shard.length) :
    ∃ item, shardItem shard = some item := by
  unfold shardItem
  rw [if_neg (by omega)]
  dsimp only
  split <;> exact ⟨_, rfl⟩

theorem blockItems_some (h : ∀ i < k, ∃ v, shards[i]? = some (some v) ∧ itemLenPrefix ≤ v.length) :
    ∃ items, blockItems k shards = some items := by
  induction k generalizing shards with
  | zero => exact ⟨[], by unfold blockItems; rfl⟩
  | succ k ih =>
    obtain ⟨v, hv, hlen⟩ := h 0 (Nat.succ_pos k)
    obtain ⟨item, hitem⟩ := shardItem_some hlen
    cases shards with
    | nil => cases hv
    | cons shard shards =>
      cases hv
      obtain ⟨items, hitems⟩ := ih fun i hi => h (i + 1) (Nat.succ_lt_succ hi)
      exact ⟨item.toList ++ items, by simp [blockItems, hitem, hitems]⟩

/-- What the receiver holds whatever it has been sent: decoded blocks are full and
their shards have room for the length prefix, known infos are not empty, and ids
keep clear of the end of their range. -/
structure DecSound (dec : Decoder) : Prop where
  window : ∀ id rx, dec.window.get? id = some rx → id < outerIdBit ∧ RxSound rx ∧
    (rx.decoded = true → rx.Filled ∧ itemLenPrefix ≤ rx.shardLen)
  outerRx : ∀ oid rx, dec.outerRx.get? oid = some rx → RxSound rx ∧ rx.decoded = false
  infos : ∀ id info, dec.dataInfos.get? id = some info → info ≠ []
  outers : ∀ seg row j info, dec.segOuter.get? seg = some row → row.get? j = some info → info ≠ []
  segD : ∀ seg d, dec.segD.get? seg = some d → seg < 2 ^ 16 ∧ d < 2 ^ 4
  tower : dec.towerD < 2 ^ 4
  inner : dec.innerK ≤ maxShards ∧ (dec.innerK ≠ 0 → itemLenPrefix ≤ dec.innerShardLen)

theorem decSound_init (cap : Nat) : DecSound (withWindow cap) where
  window := nofun
  outerRx := nofun
  infos := nofun
  outers := nofun
  segD := nofun
  tower := Nat.two_pow_pos 4
  inner := ⟨Nat.zero_le _, fun h => absurd rfl h⟩

theorem segmentShards_ne_nil (h : DecSound dec) (houters : dec.segOuter.get? seg = some outers) :
    ∀ v, some v ∈ dec.segmentShards base d rOuter outers → v ≠ [] := by
  intro v hv
  rcases mem_append.mp hv with hv | hv
  · obtain ⟨i, -, hi⟩ := mem_map.mp hv
    exact h.infos _ v hi
  · obtain ⟨j, -, hj⟩ := mem_map.mp hv
    exact h.outers seg outers j v houters hj

variable {id : Nat}

theorem DecSound.segment_bound (h : DecSound dec) (hd : dec.segD.get? (id / dec.towerD) = some d) :
    id / dec.towerD * dec.towerD ≤ 2 ^ 16 * 2 ^ 4 ∧ d < 2 ^ 4 := by
  obtain ⟨hseg, hdlt⟩ := h.segD _ d hd
  exact ⟨Nat.mul_le_mul (le_of_lt hseg) (le_of_lt h.tower), hdlt⟩

theorem recoverFits_sound (h : DecSound dec) (id : Nat) : recoverFits dec id = true := by
  unfold recoverFits
  split
  · rfl
  dsimp only
  split
  · rfl
  rename_i d hd
  split
  · rfl
  split
  · rfl
  rename_i outers houters
  obtain ⟨hbase, hdlt⟩ := h.segment_bound hd
  have hinner : dec.innerK ≤ 32 := h.inner.1
  rw [decide_eq_true (by omega), decide_eq_true hinner, Bool.and_self, Bool.true_and]
  split
  · rfl
  · exact sourcesFit_of_nonempty _ (segmentShards_ne_nil h houters)

variable {info : List Byte}

theorem recoverInfo_bound (h : DecSound dec) (hinfo : dec.recoverInfo id = some info) :
    dec.innerK ≠ 0 ∧ id < outerIdBit := by
  unfold recoverInfo at hinfo
  split at hinfo
  · cases hinfo
  rename_i hon
  rw [not_or, not_or] at hon
  dsimp only at hinfo
  split at hinfo
  · cases hinfo
  rename_i d hd
  obtain ⟨hbase, hdlt⟩ := h.segment_bound hd
  split at hinfo
  · cases hinfo
  refine ⟨hon.2.2, ?_⟩
  rw [outerIdBit]
  omega

theorem injectedBlock_sound (hk : 0 < k) (hmax : k ≤ maxShards) (hinfo : info.length = k * len) :
    RxSound (injectedBlock k len info) ∧ (injectedBlock k len info).Filled := by
  have hchunk : ∀ i < k, ((info.drop (i * len)).take len).length = len := by
    intro i hi
    have hle : (i + 1) * len ≤ k * len := Nat.mul_le_mul_right len hi
    rw [Nat.succ_mul] at hle
    rw [length_take, length_drop, hinfo]
    omega
  refine ⟨⟨hk, hmax, by simp [injectedBlock], fun v hv => ?_⟩, fun i hi => ?_⟩
  · obtain ⟨i, hi, heq⟩ := mem_map.mp hv
    cases heq
    exact hchunk i (mem_range.mp hi)
  · have hik : i < k := hi
    refine ⟨(info.drop (i * len)).take len, ?_⟩
    rw [injectedBlock, getElem?_map, getElem?_range hik]
    rfl

theorem tryTowerRecover_sound (h : DecSound dec) (hrec : dec.tryTowerRecover id = some dec') :
    DecSound dec' := by
  unfold tryTowerRecover at hrec
  split at hrec
  · cases hrec
  rename_i info hinfo
  obtain ⟨hk, hid⟩ := recoverInfo_bound h hinfo
  dsimp only at hrec
  split at hrec
  · cases hrec
  rename_i hlen
  rw [not_not] at hlen
  cases hrec
  have htwo : 2 ≤ dec.innerShardLen := h.inner.2 hk
  obtain ⟨hsound, hfull⟩ := injectedBlock_sound (pos_of_ne_zero hk) h.inner.1 hlen
  refine { h with
    window := forall_insert h.window ⟨hid, hsound, fun _ => ⟨hfull, htwo.trans (le_max_left ..)⟩⟩
    infos := forall_insert h.infos fun hnil => ?_ }
  rw [hnil] at hlen
  have hpos := Nat.mul_pos (pos_of_ne_zero hk)
    (lt_of_lt_of_le two_pos (htwo.trans (le_max_left _ 1)))
  exact absurd hlen.symm (Nat.ne_of_gt hpos)

theorem drainLoop_sound (fuel : Nat) (h : DecSound dec) :
    ∃ dec' out, Checked.drainLoop fuel dec = some (dec', out) ∧ DecSound dec' := by
  induction fuel generalizing dec with
  | zero => exact ⟨dec, [], rfl, h⟩
  | succ fuel ih =>
    rw [Checked.drainLoop]
    split
    · rename_i blk hblk
      obtain ⟨hid, hsound, hready⟩ := h.window _ blk hblk
      split
      · rename_i hd
        obtain ⟨hfull, hlen⟩ := hready hd
        have hfits : blk.k + blk.r ≤ 32 := hsound.fits
        have hid' : dec.nextDeliver < 2 ^ 31 := hid
        have hshards : ∀ i < blk.k, ∃ v, blk.shards[i]? = some (some v) ∧
            itemLenPrefix ≤ v.length := by
          intro i hi
          obtain ⟨v, hv⟩ := hfull i hi
          exact ⟨v, hv, by rw [hsound.lens v (mem_of_getElem? hv)]; exact hlen⟩
        obtain ⟨items, hitems⟩ := blockItems_some hshards
        rw [if_neg (by omega), hitems, bind_some, if_neg (by omega)]
        have hnext : DecSound { dec with
            window := dec.window.erase dec.nextDeliver, nextDeliver := dec.nextDeliver + 1 } :=
          { h with window := fun id rx hrx => h.window id rx (get?_erase_some hrx).2 }
        obtain ⟨dec', out, hrun, hs⟩ := ih hnext
        rw [hrun]
        exact ⟨dec', items ++ out, rfl, hs⟩
      · exact ⟨dec, [], rfl, h⟩
    · rw [if_pos (recoverFits_sound h _)]
      split
      · rename_i dec1 hrec
        exact ih (tryTowerRecover_sound h hrec)
      · exact ⟨dec, [], rfl, h⟩

theorem trim_sound (h : DecSound dec) : DecSound dec.trim := by
  have hinfos : ∀ id info, (dec.dataInfos.retain fun id =>
      decide (dec.nextDeliver - dec.cap32 ≤ id)).get? id = some info → info ≠ [] :=
    fun id info hi => h.infos id info (get?_retain_some hi).2
  unfold trim
  dsimp only
  split
  · exact { h with
      outerRx := fun oid rx hrx => h.outerRx oid rx (get?_retain_some hrx).2, infos := hinfos
      outers := fun seg row j info hrow => h.outers seg row j info (get?_retain_some hrow).2
      segD := fun seg d hd => h.segD seg d (get?_retain_some hd).2 }
  · exact { h with infos := hinfos }

theorem drainInOrder_sound (h : DecSound dec) :
    ∃ dec' out, Checked.drainInOrder dec = some (dec', out) ∧ DecSound dec' := by
  obtain ⟨dec', out, hrun, hs⟩ := drainLoop_sound drainFuel h
  refine ⟨dec'.trim, out, ?_, trim_sound hs⟩
  rw [Checked.drainInOrder, hrun]
  rfl

/-- The shard brings the undecoded block it joins to `k` shards. -/
def Completes (blk : RxBlock) (h : Header) : Prop :=
  blk.shardLen = h.payload.length ∧ blk.k = h.k ∧ blk.r = h.r ∧ blk.decoded = false ∧
    blk.k ≤ (blk.addShard h.shardIndex h.payload).count
deriving Decidable

def entry (t : Table Nat RxBlock) (h : Header) : RxBlock :=
  (t.get? h.blockId).getD (RxBlock.new h.k h.r h.payload.length)

/-- An outer block is completed only with parity and with bytes in its shards. -/
def HarmlessOuter (dec : Decoder) (h : Header) : Prop :=
  h.blockId / 2 ^ 27 % 2 ^ 4 = 0 ∨ h.blockId / 2 ^ 24 % 2 ^ 3 = 0 ∨
    (Completes (entry dec.outerRx h) h → h.r ≠ 0 ∧ h.payload ≠ [])
deriving Decidable

/-- The shard that fixes the inner geometry, and one that completes a block in the
window, have room for the length prefix. -/
def HarmlessData (dec : Decoder) (h : Header) : Prop :=
  (dec.innerK = 0 → itemLenPrefix ≤ h.payload.length) ∧
  (dec.nextDeliver ≤ h.blockId → h.blockId < min (dec.nextDeliver + dec.cap32) (2 ^ 32 - 1) →
    Completes (entry dec.window h) h → itemLenPrefix ≤ h.payload.length)
deriving Decidable

def Passes (dec : Decoder) (h : Header) : Prop :=
  ¬(dec.sessionEpoch ≠ none ∧ dec.sessionEpoch ≠ some h.epoch) ∧
    ¬(h.k = 0 ∨ h.k + h.r > maxShards ∨ h.shardIndex ≥ h.k + h.r)
deriving Decidable

/-- The event does not reach one of the decoder's missing checks. -/
def Harmless (dec : Decoder) : HostileEvent → Prop
  | .packet buf => ∀ h ∈ parseHeader buf, Passes dec h →
      if outerIdBit ≤ h.blockId then HarmlessOuter dec h else HarmlessData dec h
  | .skipHead => dec.nextDeliver + 1 < 2 ^ 32
  | _ => True

instance (dec : Decoder) (ev : HostileEvent) : Decidable (Harmless dec ev) := by
  cases ev <;> unfold Harmless <;> infer_instance

section
variable {h : Header} (hshape : ¬(h.k = 0 ∨ h.k + h.r > maxShards ∨ h.shardIndex ≥ h.k + h.r))
include hshape in
theorem entry_sound {t : Table Nat RxBlock}
    (ht : ∀ rx, t.get? h.blockId = some rx → RxSound rx) : RxSound (entry t h) := by
  rw [not_or, not_or] at hshape
  unfold entry
  cases hrx : t.get? h.blockId with
  | none => exact rxSound_new hshape.1 (Nat.le_of_not_gt hshape.2.1)
  | some rx => exact ht rx hrx

/-- What a shard that fits its block leaves of it: a block it decodes is full, and so is one
that was full before. -/
structure Fitted (blk done : RxBlock) (h : Header) : Prop where
  sound : RxSound done
  len_eq : done.shardLen = h.payload.length
  fresh : blk.decoded = false → done.decoded = true → Completes blk h ∧ done.Filled
  full : done.decoded = true → blk.Filled → done.Filled

theorem RxBlock.Filled.addShard (hfull : b.Filled) (idx : Nat) (payload : List Byte) :
    (b.addShard idx payload).Filled := by
  intro i hi
  rw [(addShard_frame b idx payload).1] at hi
  obtain ⟨v, hv⟩ := hfull i hi
  unfold RxBlock.addShard
  split
  · exact ⟨v, hv⟩
  by_cases hidx : idx = i
  · subst hidx
    exact ⟨_, getElem?_set_self (lt_of_some hv)⟩
  · exact ⟨v, by rw [getElem?_set_ne hidx]; exact hv⟩

include hshape in
theorem join_sound (passthrough : Bool) (hb : RxSound b)
    (hsame : ¬(b.shardLen ≠ h.payload.length ∨ b.k ≠ h.k ∨ b.r ≠ h.r))
    (hr : passthrough = true ∨ (Completes b h → h.r ≠ 0)) :
    addShard b h.shardIndex h.payload = some (b.addShard h.shardIndex h.payload) ∧
      ∃ done, complete (b.addShard h.shardIndex h.payload) passthrough = some done ∧
        Fitted b done h := by
  rw [not_or, not_or, not_not, not_not, not_not] at hsame
  obtain ⟨hlen, hk, hr0⟩ := hsame
  rw [not_or, not_or] at hshape
  obtain ⟨hadd, hadded⟩ := addShard_sound hb (by rw [hk, hr0]; exact lt_of_not_ge hshape.2.2) hlen
  obtain ⟨hk', hr', hlen', hdec'⟩ := addShard_frame b h.shardIndex h.payload
  obtain ⟨done, hdone, hc⟩ := complete_sound passthrough hadded (hr.imp_right fun hr hu hcount => by
    rw [hr', hr0]
    exact hr ⟨hlen, hk, hr0, hdec' ▸ hu, hk' ▸ hcount⟩)
  refine ⟨hadd, done, hdone, hc.sound, by rw [hc.len_eq, hlen', hlen], fun hu hdd => ?_,
    fun hdd hfull => ?_⟩
  · refine ⟨⟨hlen, hk, hr0, hu, hk' ▸ hc.enough hdd (hdec'.trans hu)⟩, ?_⟩
    rcases hc.filled hdd with ⟨hb, -⟩ | hfull
    · rw [hdec', hu] at hb
      cases hb
    · exact hfull
  · rcases hc.filled hdd with ⟨-, heq⟩ | hfull
    · rw [heq]
      exact hfull.addShard _ _
    · exact hfull

variable (hd : DecSound dec)
include hd

include hshape in
theorem handleOuter_sound (hok : HarmlessOuter dec h) :
    ∃ dec', Checked.handleOuter dec h.blockId h.shardIndex h.k h.r h.payload = some dec' ∧
      DecSound dec' := by
  have hentry := entry_sound hshape fun rx hrx => (hd.outerRx _ rx hrx).1
  have hundecoded : (entry dec.outerRx h).decoded = false := by
    unfold entry
    cases hrx : dec.outerRx.get? h.blockId with
    | none => rfl
    | some rx => exact (hd.outerRx _ rx hrx).2
  have hjoin : (dec.outerRx.get? h.blockId).getD (RxBlock.new h.k h.r h.payload.length) =
      entry dec.outerRx h := rfl
  unfold Checked.handleOuter
  dsimp only [outerFields]
  split
  · exact ⟨dec, rfl, hd⟩
  rename_i hskip
  rw [not_or] at hskip
  have hcomp := (hok.resolve_left hskip.1).resolve_left hskip.2
  have hsegD := forall_insert hd.segD (a := h.blockId / 2 ^ 8 % 2 ^ 16)
    (b := h.blockId / 2 ^ 27 % 2 ^ 4) ⟨Nat.mod_lt _ (by decide), Nat.mod_lt _ (by decide)⟩
  have htower : max (h.blockId / 2 ^ 27 % 2 ^ 4) dec.towerD < 2 ^ 4 :=
    Nat.max_lt.mpr ⟨Nat.mod_lt _ (by decide), hd.tower⟩
  rw [hjoin]
  generalize entry dec.outerRx h = blk at hentry hundecoded hcomp ⊢
  have houter := forall_insert hd.outerRx (a := h.blockId) ⟨hentry, hundecoded⟩
  split
  · exact ⟨_, rfl, hd.window, houter, hd.infos, hd.outers, hsegD, htower, hd.inner⟩
  rename_i hsame
  obtain ⟨hadd, done, hdone, hj⟩ := join_sound hshape false hentry hsame
    (.inr fun hnow => (hcomp hnow).1)
  rw [hadd, bind_some, hdone, bind_some, (addShard_frame blk ..).2.2.2, hundecoded]
  split
  · rename_i hdd
    obtain ⟨hnow, hfull⟩ := hj.fresh hundecoded (Bool.and_eq_true_iff.mp hdd).1
    have hinfo := info_ne_nil hj.sound hfull (by
      rw [hj.len_eq]
      exact fun hz => (hcomp hnow).2 (length_eq_zero_iff.mp hz))
    exact ⟨_, rfl, hd.window, fun oid rx hrx => houter oid rx (get?_erase_some hrx).2, hd.infos,
      forall_insert_row (P := fun _ _ info => info ≠ []) hd.outers hinfo, hsegD, htower, hd.inner⟩
  · rename_i hdd
    have hu : done.decoded = false := by simpa using hdd
    exact ⟨_, rfl, hd.window, forall_insert houter ⟨hj.sound, hu⟩, hd.infos, hd.outers, hsegD,
      htower, hd.inner⟩

theorem DecSound.insertWindow (hid : h.blockId < outerIdBit) (hs : RxSound rx)
    (hr : rx.decoded = true → rx.Filled ∧ itemLenPrefix ≤ rx.shardLen) (seen : Nat) :
    DecSound { dec with highestSeen := seen, window := dec.window.insert h.blockId rx } :=
  { hd with window := forall_insert hd.window ⟨hid, hs, hr⟩ }

include hshape in
theorem acceptShard_sound (hid : h.blockId < outerIdBit)
    (hok : Completes (entry dec.window h) h → itemLenPrefix ≤ h.payload.length) :
    ∃ dec' out, Checked.acceptShard dec h = some (dec', out) ∧ DecSound dec' := by
  have hentry := entry_sound hshape fun rx hrx => (hd.window _ rx hrx).2.1
  have hready : (entry dec.window h).decoded = true →
      (entry dec.window h).Filled ∧ itemLenPrefix ≤ (entry dec.window h).shardLen := by
    unfold entry
    cases hrx : dec.window.get? h.blockId with
    | none => intro hdec; cases hdec
    | some rx => exact (hd.window _ rx hrx).2.2
  have hjoin : (dec.window.get? h.blockId).getD (RxBlock.new h.k h.r h.payload.length) =
      entry dec.window h := rfl
  unfold Checked.acceptShard
  dsimp only
  rw [hjoin]
  generalize entry dec.window h = blk at hentry hready hok ⊢
  have hin := hd.insertWindow hid hentry hready (max dec.highestSeen h.blockId)
  split
  · exact drainInOrder_sound hin
  rename_i hsame
  obtain ⟨hadd, done, hdone, hj⟩ := join_sound hshape true hentry hsame (.inl rfl)
  have hfresh (hdd : done.decoded = true) (hnew : blk.decoded = false) :
      done.Filled ∧ itemLenPrefix ≤ done.shardLen := by
    obtain ⟨hnow, hfull⟩ := hj.fresh hnew hdd
    exact ⟨hfull, hj.len_eq ▸ hok hnow⟩
  have hdoneReady : done.decoded = true → done.Filled ∧ itemLenPrefix ≤ done.shardLen := by
    intro hdd
    cases hb : blk.decoded with
    | false => exact hfresh hdd hb
    | true =>
      obtain ⟨hfull, htwo⟩ := hready hb
      rw [not_or, not_not] at hsame
      exact ⟨hj.full hdd hfull, by rw [hj.len_eq, ← hsame.1]; exact htwo⟩
  have hin' := hin.insertWindow hid hj.sound hdoneReady (max dec.highestSeen h.blockId)
  rw [hadd, bind_some, hdone, bind_some]
  split
  · rename_i hdd
    rw [Bool.and_eq_true, Bool.not_eq_true', (addShard_frame blk ..).2.2.2] at hdd
    obtain ⟨hfull, htwo⟩ := hfresh hdd.1 hdd.2
    have hinfo := info_ne_nil hj.sound hfull (Nat.ne_of_gt (lt_of_lt_of_le two_pos htwo))
    exact drainInOrder_sound { hin' with infos := forall_insert hd.infos hinfo }
  · exact drainInOrder_sound hin'

include hshape in
theorem learnInner_sound (hlen : dec.innerK = 0 → itemLenPrefix ≤ h.payload.length) :
    DecSound (dec.learnInner h) := by
  rw [not_or, not_or] at hshape
  unfold learnInner
  split
  · rename_i hz
    exact ⟨hd.window, hd.outerRx, hd.infos, hd.outers, hd.segD, hd.tower,
      by dsimp only; omega, fun _ => hlen hz⟩
  · exact hd

include hshape in
theorem ingestData_sound (hid : h.blockId < outerIdBit) (hok : dec.nextDeliver ≤ h.blockId →
      h.blockId < min (dec.nextDeliver + dec.cap32) (2 ^ 32 - 1) →
      Completes (entry dec.window h) h → itemLenPrefix ≤ h.payload.length) :
    ∃ dec' out, Checked.ingestData dec h = some (dec', out) ∧ DecSound dec' := by
  unfold Checked.ingestData
  split
  · exact ⟨dec, [], rfl, hd⟩
  rename_i hge
  split
  · exact ⟨dec, [], rfl, hd⟩
  rename_i hlt
  exact acceptShard_sound hshape hd hid (hok (le_of_not_gt hge) (lt_of_not_ge hlt))

theorem hostileStep_sound (hok : Harmless dec ev) :
    ∃ dec', hostileStep dec ev = some dec' ∧ DecSound dec' := by
  have hmap : ∀ call : Option (Decoder × List Item), (∃ dec' out, call = some (dec', out) ∧
      DecSound dec') → ∃ dec', call.map Prod.fst = some dec' ∧ DecSound dec' := by
    rintro _ ⟨dec', out, rfl, hs⟩
    exact ⟨dec', rfl, hs⟩
  cases ev with
  | packet buf =>
    refine hmap _ ?_
    unfold Checked.ingest
    split
    · exact ⟨dec, [], rfl, hd⟩
    rename_i h hparse
    have hframe : ∀ e u : Option Nat, DecSound { dec with
      sessionEpoch := e, unknownEpoch := u } :=
      fun _ _ => { hd with }
    split
    · exact ⟨_, [], rfl, hframe _ _⟩
    rename_i hepoch
    dsimp only
    split
    · exact ⟨_, [], rfl, hframe _ _⟩
    rename_i hshape
    have hharmless := hok h hparse ⟨hepoch, hshape⟩
    split
    · rename_i ho
      rw [if_pos ho] at hharmless
      obtain ⟨dec1, hrun, hs⟩ :=
        handleOuter_sound hshape (hframe (some h.epoch) dec.unknownEpoch) hharmless
      rw [hrun]
      exact drainInOrder_sound hs
    rename_i ho
    rw [if_neg ho] at hharmless
    have hlearn := learnInner_sound hshape (hframe (some h.epoch) dec.unknownEpoch) hharmless.1
    obtain ⟨hnext, hcap, -, hwindow⟩ := learnInner_frame { dec with sessionEpoch := some h.epoch } h
    have hcap1 : (learnInner { dec with sessionEpoch := some h.epoch } h).cap32 =
        dec.cap32 := congrArg (fun c => c % 2 ^ 32) hcap
    refine ingestData_sound hshape hlearn (lt_of_not_ge ho) ?_
    rw [hnext, hcap1, hwindow]
    exact hharmless.2
  | feedback | missingBlocks => exact ⟨dec, rfl, hd⟩
  | skipHead =>
    refine hmap _ ?_
    unfold Checked.skipHead
    have hlt : dec.nextDeliver + 1 < 2 ^ 32 := hok
    rw [if_neg (by omega)]
    exact drainInOrder_sound { hd with
      window := fun id rx hrx => hd.window id rx (get?_erase_some hrx).2
      infos := fun id info hi => hd.infos id info (get?_erase_some hi).2 }

end

/-- Whatever bytes arrive, in whatever order with the receiver's own calls, no
call panics, as long as no datagram completes an outer block without parity or
without payload, none completes a block (or fixes the inner geometry) with shards
too short for a length prefix, and the frontier is not skipped past the last id. -/
theorem hostile_input_never_panics {cap : Nat} {events : List HostileEvent}
    (hok : EveryStep hostileStep Harmless (withWindow cap) events) :
    ∃ dec, run hostileStep (withWindow cap) events = some dec := by
  obtain ⟨dec, hrun, -⟩ := run_total (fun _ _ h => hostileStep_sound h) (decSound_init cap) hok
  exact ⟨dec, hrun⟩

def dataShard (blockId idx k r : Nat) (payload : List Byte) : List Byte :=
  byte pktData :: leBytes32 blockId ++ [byte idx, byte k, byte r, byte 0] ++ leBytes32 0 ++ payload

/-- Garbage, a truncated header, a far block, a skipped head and a delivered block. -/
def mixedTraffic : List HostileEvent :=
  [.packet [], .packet [byte 1, byte 2], .packet (dataShard 9 0 2 1 [byte 3, byte 0]), .feedback true,
    .packet (dataShard 0 40 2 1 [byte 0, byte 0]), .packet (dataShard 0 0 1 0 [byte 1, byte 0, byte 7]),
    .missingBlocks 4 true, .skipHead]

theorem hostile_input_never_panics_mixedTraffic :
    ∃ dec, run hostileStep (withWindow 16) mixedTraffic = some dec :=
  hostile_input_never_panics (by decide +kernel)

/-- One datagram is enough: an outer shard without parity fails the code's `expect`,
and a one-byte data shard is too short for its length prefix. -/
theorem hostile_datagrams_panic :
    run hostileStep (withWindow 16) [.packet (dataShard 0x89000000 0 1 0 [byte 0])] = none ∧
    run hostileStep (withWindow 16) [.packet (dataShard 0 0 1 0 [byte 0])] = none :=
  ⟨by decide +kernel, by decide +kernel⟩

end SubEtha.Block
