import Mathlib.Data.List.GetD
import SubEtha.Fec.Recovery
import SubEtha.Lib.Lists
import SubEtha.Rlc.Code
import SubEtha.SpecC.Codes

namespace SubEtha.SpecC
open List Prod Lib RsCode Rlc

theorem fieldLoop_eq (fuel i : Nat) (b : Byte) (log exp : List Byte) :
    fieldLoop fuel i (Gf.widen b) log exp = Gf.fillLoop fuel i (Gf.widen b) log exp := by
  induction fuel generalizing i b log exp with
  | zero => rfl
  | succ fuel ih =>
    have hshift := Gf.shift_widen b
    unfold Gf.shift at hshift
    rw [fieldLoop, Gf.fillLoop, hshift, ih, Gf.shift_widen, Gf.toNat_widen, byte_toNat]

theorem secondLap_eq (fuel i : Nat) (exp : List Byte) :
    secondLap fuel i exp = Gf.copyLoop fuel i exp := by
  induction fuel generalizing i exp with
  | zero => rfl
  | succ fuel ih => exact ih _ _

theorem sensFieldInit_eq : sensFieldInit = (Gf.logTable.set 0 (byte 0), Gf.expTable) := by
  unfold sensFieldInit
  rw [Gf.one_eq_widen, fieldLoop_eq, ← Gf.one_eq_widen]
  dsimp only
  rw [secondLap_eq, Gf.logTable, Gf.expTable, Gf.buildTables, Gf.firstPeriod]

theorem gExp_eq (i : Nat) : gExp i = Gf.exp i := by rw [gExp, sensFieldInit_eq, Gf.exp]

/-- The zero entry is overwritten, and only the zero entry. -/
theorem gLog_eq (ha : a ≠ byte 0) : gLog a = Gf.log a := by
  have hne : 0 ≠ a.toNat := by
    intro h
    refine ha (Byte.toNat_inj ?_)
    rw [← h]
    rfl
  rw [gLog, sensFieldInit_eq, Gf.log]
  simp [getD_eq_getElem?_getD, hne]

theorem sensGfMul_eq (a b : Byte) : sensGfMul a b = a * b := by
  change sensGfMul a b = Gf.mul a b
  unfold sensGfMul Gf.mul
  split
  · rfl
  rename_i hne
  obtain ⟨ha, hb⟩ := not_or.mp hne
  rw [gExp_eq, gLog_eq ha, gLog_eq hb]

theorem sensGfInv_eq (a : Byte) : sensGfInv a = a⁻¹ := by
  change sensGfInv a = if a = byte 0 then byte 0 else Gf.inv a
  unfold sensGfInv Gf.inv
  split
  · rfl
  · rename_i ha
    rw [gExp_eq, gLog_eq ha]

theorem addMul_nil (out : List Byte) (coef : Byte) : addMul out [] coef = out := by
  cases out with
  | nil | cons => rfl

theorem mulAddInto_eq (out src : List Byte) (coef : Byte) :
    mulAddInto out src coef = addMul out src coef := by
  induction out generalizing src with
  | nil => rfl
  | cons o out ih =>
    have htail : ∀ src : List Byte, mulAddInto (o :: out) src coef =
        (o + coef * src.getD 0 0) :: mulAddInto out src.tail coef := by
      intro src
      unfold mulAddInto
      rw [mapIdx_cons, sensGfMul_eq]
      congr 1
      refine congrArg (mapIdx · out) ?_
      funext b x
      cases src with
      | nil | cons => rfl
    rw [htail]
    cases src with
    | nil =>
      simp [tail_nil, ih, addMul_nil]
    | cons s src =>
      rw [ih]
      rfl

/-- A loop that adds a multiple of each source in turn is the accumulation of the other
implementation. -/
theorem foldl_eq_accumulate {k len : Nat} {coef : Nat → Byte}
    (hstep : ∀ out c, c < k → step out c = addMul out (src c) (coef c)) :
    (range k).foldl step (replicate len (byte 0)) = accumulate k coef src len := by
  rw [accumulate_eq_combine, combine]
  exact foldl_ext _ _ _ fun out c hc => hstep out c (mem_range.mp hc)

theorem sensCoefficient_eq (place density : Nat) :
    sensCoefficient place density = fixedCoef place density := by
  have htable : sensTapTable = taps.map byte := rfl
  unfold sensCoefficient fixedCoef
  rw [htable, getD_map]
  rfl

variable {e : RlcEncoder}

theorem sensRepairWrite_eq {cap connId repairKey firstSourceId : Nat} (hdt : e.dt ≤ 15)
    (hsymbols : ∀ p ∈ e.window, p.2.length = e.symbolLen)
    (hcap : sensRepairHeader + e.symbolLen ≤ cap) : ∃ header, header.length = sensRepairHeader ∧
      sensRepairWrite cap connId repairKey firstSourceId e.window.length
        (sensGenPublishedTaps * 16 + e.dt) (e.window.map snd).flatten e.symbolLen =
      some (header ++ e.emitRepair.2.payload) := by
  have hgen : (sensGenPublishedTaps * 16 + e.dt) / 16 = sensGenPublishedTaps := by
    rw [sensGenPublishedTaps]
    omega
  have hdensity : (sensGenPublishedTaps * 16 + e.dt) % 16 = e.dt := by
    rw [sensGenPublishedTaps]
    omega
  unfold sensRepairWrite
  rw [if_neg (not_not.mpr hgen), if_neg (not_lt.mpr hcap)]
  dsimp only
  refine ⟨_, ?_, congrArg some (congrArg (HAppend.hAppend _) ?_)⟩
  · simp [sensRepairHeader]
  refine foldl_eq_accumulate fun out i hi => ?_
  have hslice : slice (e.window.map snd).flatten e.symbolLen i = (e.window.getD i (0, [])).2 := by
    rw [slice, flatten_slice (forall_mem_map.mpr hsymbols)]
    exact getD_map _ (0, []) snd
  rw [hdensity, sensCoefficient_eq, hslice]
  split
  · rename_i hzero
    rw [hzero]
    exact (addMul_zero out _).symm
  · exact mulAddInto_eq ..

/-- The window with some of its symbols lost. -/
structure Received (e : RlcEncoder) (present : List (Option (List Byte))) : Prop where
  length_eq : present.length = e.window.length
  intact : ∀ (i : Nat) (v : List Byte), present[i]? = some (some v) →
    (e.window.getD i (0, [])).2 = v

theorem findMissing_spec (hlost : present.getD i0 none = none)
    (hcovered : sensCoefficient (windowSize - 1 - i0) density ≠ byte 0) (hnodup : is.Nodup)
    (honly : ∀ i ∈ is, present.getD i none = none →
      sensCoefficient (windowSize - 1 - i) density ≠ byte 0 → i = i0) (missing : Option Byte) :
    (i0 ∉ is → findMissing windowSize density present is missing = some missing) ∧
      (i0 ∈ is → findMissing windowSize density present is none =
        some (some (sensCoefficient (windowSize - 1 - i0) density))) := by
  induction is generalizing missing with
  | nil => exact ⟨fun _ => rfl, nofun⟩
  | cons i is ih =>
    obtain ⟨hfresh, hrest⟩ := nodup_cons.mp hnodup
    have honly' := fun j hj => honly j (mem_cons_of_mem i hj)
    by_cases hi : i = i0
    · subst hi
      refine ⟨fun h => absurd (mem_cons_self ..) h, fun _ => ?_⟩
      rw [findMissing, if_neg hcovered, hlost]
      exact (ih hrest honly' (some _)).1 hfresh
    have hskip : ∀ m, findMissing windowSize density present (i :: is) m =
        findMissing windowSize density present is m := by
      intro m
      conv_lhs => unfold findMissing
      dsimp only
      split
      · rfl
      rename_i hcoef
      cases hp : present.getD i none with
      | some v => rfl
      | none => exact absurd (honly i (mem_cons_self ..) hp hcoef) hi
    refine ⟨fun h => ?_, fun h => ?_⟩
    · rw [hskip]
      exact (ih hrest honly' missing).1 (fun hmem => h (mem_cons_of_mem i hmem))
    · rw [hskip]
      exact (ih hrest honly' none).2 ((mem_cons.mp h).resolve_left (Ne.symm hi))

/-- What `sens_repair_recover` has added of each symbol: its coefficient, if it arrived. -/
def arrivedCoef (e : RlcEncoder) (present : List (Option (List Byte))) (i : Nat) : Byte :=
  if (present.getD i none).isSome then fixedCoef (e.window.length - 1 - i) e.dt else 0

theorem addPresent_eq (hreceived : Received e present) (out : List Byte) :
    addPresent e.window.length e.dt present out =
      combine e.window.length (arrivedCoef e present) (fun i => (e.window.getD i (0, [])).2) out := by
  refine foldl_ext _ _ _ fun out i hi => ?_
  have hi := mem_range.mp hi
  unfold arrivedCoef
  dsimp only
  cases hp : present.getD i none with
  | none => exact (addMul_zero out _).symm
  | some symbol =>
    have hsymbol : (e.window.getD i (0, [])).2 = symbol := by
      refine hreceived.intact i symbol ?_
      rw [← hreceived.length_eq] at hi
      rw [getD_eq_getElem _ _ hi] at hp
      rw [getElem?_eq_getElem hi, hp]
    rw [hsymbol]
    dsimp only
    rw [if_pos (by rfl : (some symbol).isSome = true), sensCoefficient_eq]
    split
    · rename_i hzero
      rw [hzero]
      exact (addMul_zero out _).symm
    · exact mulAddInto_eq ..

/-- The repair and what arrived of it sum to the missing symbol's share. -/
theorem arrived_sum (hi0 : i0 < e.window.length) (hlost : present.getD i0 none = none)
    (honly : ∀ i, i < e.window.length → present.getD i none = none →
      fixedCoef (e.window.length - 1 - i) e.dt ≠ byte 0 → i = i0) (x : Nat → Byte) :
    ∑ i ∈ Finset.range e.window.length, fixedCoef (e.window.length - 1 - i) e.dt * x i +
        ∑ i ∈ Finset.range e.window.length, arrivedCoef e present i * x i =
      fixedCoef (e.window.length - 1 - i0) e.dt * x i0 := by
  rw [← Finset.sum_add_distrib, Finset.sum_eq_single i0]
  · rw [arrivedCoef, hlost]
    simp
  · intro i hi hne
    rw [← add_mul]
    have hzero : fixedCoef (e.window.length - 1 - i) e.dt + arrivedCoef e present i = 0 := by
      unfold arrivedCoef
      cases hp : present.getD i none with
      | some symbol => exact Gf.add_self _
      | none =>
        have hcoef : fixedCoef (e.window.length - 1 - i) e.dt = byte 0 := by
          by_contra hcoef
          exact hne (honly i (Finset.mem_range.mp hi) hp hcoef)
        rw [hcoef]
        rfl
    rw [hzero, zero_mul]
  · exact fun hnot => absurd (Finset.mem_range.mpr hi0) hnot

/-- Adding what arrived to a repair leaves the one covered symbol that is missing. -/
theorem sensRepairRecover_eq (hdt : e.dt ≤ 15)
    (hsymbols : ∀ p ∈ e.window, p.2.length = e.symbolLen) (hreceived : Received e present)
    (hi0 : i0 < e.window.length) (hlost : present.getD i0 none = none)
    (hcovered : fixedCoef (e.window.length - 1 - i0) e.dt ≠ byte 0)
    (honly : ∀ i, i < e.window.length → present.getD i none = none →
      fixedCoef (e.window.length - 1 - i) e.dt ≠ byte 0 → i = i0) :
    sensRepairRecover e.symbolLen e.emitRepair.2.payload present e.window.length
      (sensGenPublishedTaps * 16 + e.dt) = some (e.window.getD i0 (0, [])).2 := by
  have hgen : (sensGenPublishedTaps * 16 + e.dt) / 16 = sensGenPublishedTaps := by
    rw [sensGenPublishedTaps]
    omega
  have hdensity : (sensGenPublishedTaps * 16 + e.dt) % 16 = e.dt := by
    rw [sensGenPublishedTaps]
    omega
  have hsource : ∀ i, i < e.window.length → (e.window.getD i (0, [])).2.length = e.symbolLen := by
    intro i hi
    refine hsymbols _ ?_
    rw [getD_eq_getElem _ _ hi]
    exact getElem_mem hi
  have hpayload : e.emitRepair.2.payload.length = e.symbolLen := accumulate_length ..
  have hmissing := (findMissing_spec hlost (by rwa [sensCoefficient_eq]) nodup_range
    (fun i hi hnone hcoef => honly i (mem_range.mp hi) hnone (by rwa [← sensCoefficient_eq]))
    none).2 (mem_range.mpr hi0)
  unfold sensRepairRecover
  rw [if_neg (not_not.mpr hgen), hdensity, hmissing]
  dsimp only
  rw [addPresent_eq hreceived, take_of_length_le (le_of_eq hpayload), sensGfInv_eq,
    sensCoefficient_eq]
  refine congrArg some (ext_getD ?_ fun b => ?_)
  · rw [length_map, combine_length, hpayload, hsource i0 hi0]
  have hmap : ∀ l : List Byte,
      (l.map fun x => sensGfMul x (fixedCoef (e.window.length - 1 - i0) e.dt)⁻¹).getD b 0 =
        l.getD b 0 * (fixedCoef (e.window.length - 1 - i0) e.dt)⁻¹ := by
    intro l
    simp only [sensGfMul_eq]
    conv_lhs => rw [← zero_mul (fixedCoef (e.window.length - 1 - i0) e.dt)⁻¹]
    exact getD_map l 0 (· * (fixedCoef (e.window.length - 1 - i0) e.dt)⁻¹)
  rw [hmap, combine_getD (fun i hi => by rw [hpayload]; exact le_of_eq (hsource i hi))]
  have hsum : e.emitRepair.2.payload.getD b 0 = ∑ i ∈ Finset.range e.window.length,
      fixedCoef (e.window.length - 1 - i) e.dt * (e.window.getD i (0, [])).2.getD b 0 :=
    accumulate_getD hsource b
  rw [hsum, arrived_sum hi0 hlost honly, mul_right_comm, mul_inv_cancel₀ hcovered, one_mul]

theorem sensRsCauchy_eq {k j c : Nat} (hc : c < k) (hkj : k + j < 256) :
    sensRsCauchy k j c = cauchyEntry k j c := by
  have hxor : byte ((k + j) ^^^ c) = byte (k + j) - byte c := by
    rw [Byte.sub_eq_add]
    exact Byte.ext (BitVec.ofNat_xor ..)
  rw [sensRsCauchy, if_neg (by omega), sensGfInv_eq, hxor, cauchyEntry_eq hc hkj]

variable {code : RsCode}

/-- A parity shard does not depend on how many there are. -/
theorem sensRsParity_eq (hk : code.k ≤ sensRsMaxShards) (hj : j < sensRsMaxShards) (hr : j < code.r)
    (hdata : data.length = code.k) (hd : ∀ s ∈ data, s.length = len) :
    sensRsParity len data.flatten code.k j = some (code.parityRow data len j) := by
  have hpos := code.k_pos
  have hfits := code.fits
  rw [sensRsParity, if_neg (by omega)]
  refine congrArg some (foldl_eq_accumulate fun out c hc => ?_)
  rw [mulAddInto_eq, slice, flatten_slice hd, sensRsCauchy_eq hc (by omega), code.cauchy_getD hr hc]

theorem swapRows_self (col : Nat) : swapRows rows col col = rows := by
  unfold swapRows rowAt
  rw [set_set]
  rcases lt_or_ge col rows.length with hlt | hge
  · rw [getD_eq_getElem _ _ hlt, set_getElem_self]
  · exact set_eq_of_length_le hge

theorem invertColumn_eq (rows : List (Row Byte)) (col pivot : Nat) :
    invertColumn rows col pivot = pivotStep rows col pivot col := by
  have hswap : (if pivot ≠ col then swapRows rows col pivot else rows) =
      swapRows rows col pivot := by
    split
    · rfl
    · rename_i hsame
      rw [not_not.mp hsame, swapRows_self]
  have hneg : ∀ f : Byte, -f = f := fun _ => rfl
  unfold invertColumn pivotStep
  rw [hswap]
  simp only [sensGfInv_eq, sensGfMul_eq, mulAddInto_eq]
  refine congrArg (mapIdx · (swapRows rows col pivot)) ?_
  funext i row
  split
  · rfl
  · simp only [Row.clear, hneg]
    rfl

theorem invertLoop_eq (fuel col : Nat) (hn : rows.length = n) :
    invertLoop n fuel col rows = gaussJordan fuel col rows := by
  induction fuel generalizing col rows with
  | zero => rfl
  | succ fuel ih =>
    have hfind : ((range' col (n - col)).find? fun pivot =>
        (rowAt rows pivot).coef col ≠ byte 0) = findPivot rows col col := by
      rw [← hn]
      rfl
    rw [invertLoop, gaussJordan, hfind]
    cases findPivot rows col col with
    | none => rfl
    | some pivot =>
      dsimp only
      rw [invertColumn_eq]
      exact ih (col + 1) ((pivotStep_length ..).trans hn)

theorem invert_eq (hn : m.length = n) : invert m n = SubEtha.invert m n := by
  unfold invert SubEtha.invert
  dsimp only
  rw [invertLoop_eq n 0 (by rw [length_mapIdx]; exact hn)]

theorem takeRows_spec (k idx : Nat) (present : Shards) (rows : List (Nat × List Byte)) :
    (takeRows k idx present rows).map fst =
        rows.map fst ++ (presentFrom idx present).take (k - rows.length) ∧
      ∀ row ∈ takeRows k idx present rows, row ∈ rows ∨
        idx ≤ row.1 ∧ present[row.1 - idx]? = some (some row.2) := by
  induction present generalizing idx rows with
  | nil => exact ⟨by simp [takeRows, presentFrom], fun row hrow => .inl hrow⟩
  | cons shard present ih =>
    unfold takeRows
    split
    · rename_i hmore
      have hnext : ∀ row : Nat × List Byte,
          idx + 1 ≤ row.1 ∧ present[row.1 - (idx + 1)]? = some (some row.2) →
          idx ≤ row.1 ∧ (shard :: present)[row.1 - idx]? = some (some row.2) := by
        rintro row ⟨hle, hrow⟩
        refine ⟨by omega, ?_⟩
        rw [show row.1 - idx = (row.1 - (idx + 1)) + 1 by omega, getElem?_cons_succ]
        exact hrow
      cases shard with
      | none =>
        obtain ⟨hfst, hrows⟩ := ih (idx + 1) rows
        exact ⟨hfst, fun row hrow => (hrows row hrow).imp_right (hnext row)⟩
      | some v =>
        obtain ⟨hfst, hrows⟩ := ih (idx + 1) (rows ++ [(idx, v)])
        refine ⟨?_, fun row hrow => ?_⟩
        · rw [hfst, presentFrom, map_append, append_assoc, length_append,
            length_singleton, show k - rows.length = (k - (rows.length + 1)) + 1 by omega,
            take_succ_cons]
          rfl
        rcases hrows row hrow with hrow | hrow
        · rcases mem_append.mp hrow with hrow | hrow
          · exact .inl hrow
          rw [mem_singleton.mp hrow]
          refine .inr ⟨le_rfl, ?_⟩
          rw [Nat.sub_self]
          rfl
        · exact .inr (hnext row hrow)
    · rename_i hfull
      refine ⟨?_, fun row hrow => .inl hrow⟩
      simp [show k - rows.length = 0 by omega]

theorem recoverEntry_eq (hpos : pos < code.k + code.r) (hc : c < code.k) :
    recoverEntry code.k pos c = code.encEntry pos c := by
  have hfits := code.fits
  unfold recoverEntry encEntry
  split
  · exact if_congr eq_comm rfl rfl
  · rw [sensRsCauchy_eq hc (by omega), code.cauchy_getD (by omega) hc]

theorem encode_eq_parityOf (hdata : data.length = code.k) (hd : ∀ s ∈ data, s.length = len)
    (h : code.encode data buffers = .ok parity) : parity = code.parityOf data len := by
  have hfirst : (data.getD 0 []).length = len := by
    have hpos : 0 < data.length := hdata ▸ code.k_pos
    rw [getD_eq_getElem _ _ hpos]
    exact hd _ (getElem_mem hpos)
  unfold encode at h
  split at h
  · cases h
  dsimp only at h
  split at h
  · cases h
  rw [hfirst] at h
  cases h
  rfl

theorem parityOf_getElem? (code : RsCode) (data : List (List Byte)) (len : Nat) (hj : j < code.r) :
    (code.parityOf data len)[j]? = some (code.parityRow data len j) := by
  rw [parityOf, getElem?_map, getElem?_range hj]
  rfl

/-- Any `k` intact shards of a codeword give the data back. -/
theorem sensRsRecover_eq {present : Shards} (hshape : code.k + code.r ≤ sensRsMaxShards)
    (hdata : data.length = code.k) (hd : ∀ s ∈ data, s.length = len)
    (he : Erasure (data ++ code.parityOf data len) present)
    (hcount : code.k ≤ present.countP Option.isSome) :
    sensRsRecover len present code.k code.r = some data.flatten := by
  have hfull : present.length = code.k + code.r := by
    simp [he.length_eq, hdata, parityOf_length]
  have hok : shapeOk code.k code.r = true := by
    have hk := code.k_pos
    have hr := code.r_pos
    simp only [shapeOk, Bool.and_eq_true, decide_eq_true_eq]
    omega
  obtain ⟨hfst, hrows⟩ := takeRows_spec code.k 0 present []
  rw [map_nil, nil_append, length_nil, Nat.sub_zero] at hfst
  generalize htaken : takeRows code.k 0 present [] = rows at hfst hrows
  have hpresent : ∀ row ∈ rows, present[row.1]? = some (some row.2) := by
    intro row hrow
    rcases hrows row hrow with hrow | ⟨-, hrow⟩
    · cases hrow
    · exact hrow
  have hlen : (rows.map fst).length = code.k := by
    rw [hfst, length_take, presentFrom_length]
    omega
  have hlt : ∀ pos ∈ rows.map fst, pos < code.k + code.r := by
    intro pos hpos
    obtain ⟨row, hrow, rfl⟩ := mem_map.mp hpos
    rw [← hfull]
    exact lt_of_some (hpresent row hrow)
  have hmatrix : (rows.map fun row => (range code.k).map (recoverEntry code.k row.1)) =
      (rows.map fst).map fun pos => (range code.k).map (code.encEntry pos) := by
    rw [List.map_map]
    refine map_congr_left fun row hrow => map_congr_left fun c hc => ?_
    exact recoverEntry_eq (hlt _ (mem_map_of_mem hrow)) (mem_range.mp hc)
  have hnodup : (rows.map fst).Nodup := by
    rw [hfst]
    exact (take_sublist _ _).nodup (presentFrom_nodup 0 present)
  obtain ⟨inv, hinv, hsolve⟩ := code.invert_survivors hnodup hlen hlt
  have hrow : ∀ s, s < code.k → ∃ row ∈ rows, rows.getD s (0, []) = row ∧
      (rows.map fst).getD s 0 = row.1 := by
    intro s hs
    rw [← hlen, length_map] at hs
    refine ⟨rows[s], getElem_mem hs, getD_eq_getElem _ _ hs, ?_⟩
    rw [getD_eq_getElem _ _ (by rwa [length_map]), getElem_map]
  have hsource : ∀ s, s < code.k → (present.getD ((rows.map fst).getD s 0) none).getD [] =
      (rows.getD s (0, [])).2 := by
    intro s hs
    obtain ⟨row, hmem, hat, hpos⟩ := hrow s hs
    rw [hpos, hat, getD_of_getElem? (hpresent row hmem)]
    rfl
  have hsurv : ∀ s, s < code.k → ∃ v, present[(rows.map fst).getD s 0]? = some (some v) ∧
      (data ++ code.parityOf data len)[(rows.map fst).getD s 0]? = some v := by
    intro s hs
    obtain ⟨row, hmem, -, hpos⟩ := hrow s hs
    rw [hpos]
    exact ⟨row.2, hpresent row hmem, he.intact _ _ (hpresent row hmem)⟩
  unfold sensRsRecover
  rw [hok, take_of_length_le (le_of_eq hfull), htaken]
  simp only [Bool.not_true, Bool.false_eq_true, if_false]
  rw [if_neg (by rw [← hlen, length_map]; exact lt_irrefl _), hmatrix,
    invert_eq (by rw [length_map, hlen]), hinv, Option.map_some]
  refine congrArg some (congrArg flatten (ext_getElem? fun d => ?_))
  rcases lt_or_ge d code.k with hlt' | hge
  · rw [getElem?_map, getElem?_range hlt', Option.map_some,
      code.recoverShard_eq hdata hd hsurv (fun x s h => hsolve x s h d hlt') hlt']
    refine congrArg some (foldl_eq_accumulate fun out s hs => ?_)
    rw [hsource s hs]
    split
    · rename_i hzero
      rw [hzero]
      exact (addMul_zero out _).symm
    · exact mulAddInto_eq ..
  · rw [getElem?_eq_none (by rwa [length_map, length_range]), getElem?_eq_none (by rwa [hdata])]

/-- The two implementations interoperate. Repairs: for every window and density the
payloads agree, and one covered symbol that is missing comes back. Blocks: every parity
shard that both compute agrees, and for every shape that the C code takes any `k` shards
give the data back. -/
theorem sens_interoperates : (∀ (e : Rlc.RlcEncoder) (cap connId repairKey firstSourceId : Nat),
      e.window.length ≤ 65535 → e.dt ≤ 15 → (∀ p ∈ e.window, p.2.length = e.symbolLen) →
      (sensRepairHeader + e.symbolLen ≤ cap → ∃ header, header.length = sensRepairHeader ∧
        sensRepairWrite cap connId repairKey firstSourceId e.window.length
          (sensGenPublishedTaps * 16 + e.dt) (e.window.map Prod.snd).flatten e.symbolLen =
        some (header ++ e.emitRepair.2.payload)) ∧
      ∀ (present : List (Option (List Byte))) (i0 : Nat), Received e present →
        i0 < e.window.length → present.getD i0 none = none →
        Rlc.fixedCoef (e.window.length - 1 - i0) e.dt ≠ byte 0 →
        (∀ i, i < e.window.length → present.getD i none = none →
          Rlc.fixedCoef (e.window.length - 1 - i) e.dt ≠ byte 0 → i = i0) →
        sensRepairRecover e.symbolLen e.emitRepair.2.payload present e.window.length
          (sensGenPublishedTaps * 16 + e.dt) = some (e.window.getD i0 (0, [])).2) ∧
    (∀ (code : RsCode) (data buffers parity : List (List Byte)) (len j : Nat),
      code.k ≤ sensRsMaxShards → j < sensRsMaxShards → j < code.r →
      data.length = code.k → (∀ s ∈ data, s.length = len) → code.encode data buffers = .ok parity →
      sensRsParity len data.flatten code.k j = parity[j]?) ∧
    ∀ (k r len : Nat) (data : List (List Byte)), shapeOk k r = true →
      data.length = k → (∀ s ∈ data, s.length = len) →
      ∃ code parity, RsCode.new k r = .ok code ∧ parity.length = r ∧
        (∀ buffers, 0 < len → buffers.length = r → (∀ s ∈ buffers, s.length = len) →
          code.encode data buffers = .ok parity) ∧
        (∀ j, j < r → sensRsParity len data.flatten k j = parity[j]?) ∧
        ∀ present, Erasure (data ++ parity) present → k ≤ present.countP Option.isSome →
          sensRsRecover len present k r = some data.flatten := by
  refine ⟨fun e cap connId repairKey firstSourceId _ hdt hsymbols => ⟨fun hcap => ?_, ?_⟩, ?_, ?_⟩
  · exact sensRepairWrite_eq hdt hsymbols hcap
  · intro present i0 hreceived hi0 hlost hcovered honly
    exact sensRepairRecover_eq hdt hsymbols hreceived hi0 hlost hcovered honly
  · intro code data buffers parity len j hk hj hr hdata hd hencode
    rw [sensRsParity_eq hk hj hr hdata hd, encode_eq_parityOf hdata hd hencode,
      parityOf_getElem? code data len hr]
  intro k r len data hshape hdata hd
  simp only [shapeOk, Bool.and_eq_true, decide_eq_true_eq] at hshape
  obtain ⟨⟨hk, hr⟩, hfits⟩ := hshape
  have hmax : sensRsMaxShards = 32 := rfl
  obtain ⟨code, hcode, rfl, rfl⟩ := new_ok hk hr (by omega)
  refine ⟨code, code.parityOf data len, hcode, parityOf_length .., ?_, fun j hj => ?_, ?_⟩
  · intro buffers hlen hbuffers hb
    exact code.encode_ok hdata hbuffers hlen hd hb
  · rw [sensRsParity_eq (by omega) (by omega) hj hdata hd, parityOf_getElem? code data len hj]
  · intro present he hcount
    exact sensRsRecover_eq hfits hdata hd he hcount

/-- A window of two symbols and a block of two shards. -/
def smallWindow : Rlc.RlcEncoder :=
  { Rlc.RlcEncoder.new 2 1 15 1 with window := [(0, [byte 7]), (1, [byte 9])] }

theorem sens_interoperates_small :
    sensRepairRecover 1 smallWindow.emitRepair.2.payload [some [byte 7], none] 2 31 =
        some [byte 9] ∧ ∃ code parity, RsCode.new 2 1 = .ok code ∧ parity.length = 1 ∧
        (∀ buffers, 0 < 1 → buffers.length = 1 → (∀ s ∈ buffers, s.length = 1) →
          code.encode [[byte 7], [byte 9]] buffers = .ok parity) ∧
        (∀ j, j < 1 → sensRsParity 1 [byte 7, byte 9] 2 j = parity[j]?) ∧
        ∀ present, Erasure ([[byte 7], [byte 9]] ++ parity) present →
          2 ≤ present.countP Option.isSome →
          sensRsRecover 1 present 2 1 = some [byte 7, byte 9] := by
  have hreceived : Received smallWindow [some [byte 7], none] := by
    refine ⟨rfl, fun i v hv => ?_⟩
    match i with
    | 0 =>
      cases hv
      rfl
    | 1 => cases hv
    | i + 2 => cases hv
  refine ⟨(sens_interoperates.1 smallWindow 0 0 0 0 (by decide) (by decide) (by decide)).2
    [some [byte 7], none] 1 hreceived (by decide) rfl (by decide) (fun i hi hnone _ => ?_), ?_⟩
  · match i with
    | 0 => cases hnone
    | 1 => rfl
  · exact sens_interoperates.2.2 2 1 1 [[byte 7], [byte 9]] rfl rfl (by decide)

end SubEtha.SpecC
