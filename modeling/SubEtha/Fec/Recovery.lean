import SubEtha.Fec.RsCode
import SubEtha.Lib.Cauchy

namespace SubEtha
open List Lib

theorem getD_of_getElem? {α : Type*} {l : List α} {a d : α} (h : l[i]? = some a) :
    l.getD i d = a := by
  rw [getD_eq_getElem?_getD, h]
  rfl

theorem addMul_zero (out src : List Byte) : addMul out src 0 = out := by
  induction out generalizing src with
  | nil => rfl
  | cons o out ih => cases src <;> simp [addMul, ih]

theorem xorInto_eq_addMul (out src : List Byte) : xorInto out src = addMul out src 1 := by
  induction out generalizing src with
  | nil => rfl
  | cons o out ih => cases src <;> simp [xorInto, addMul, ih, Gf.add_eq]

/-- The shortcuts for the coefficients 0 and 1 change no result. -/
theorem gfMulAdd_eq_addMul (out src : List Byte) (coef : Byte) :
    gfMulAdd out src coef = addMul out src coef := by
  unfold gfMulAdd gfMulAddScalar
  split
  · rename_i h
    rw [h]
    exact (addMul_zero out src).symm
  · split
    · rename_i h
      rw [h]
      exact xorInto_eq_addMul out src
    · rfl

/-- A matrix with trivial kernel inverts, and the inverse solves every system in it. -/
theorem invert_spec (hlen : m.length = n) (hrow : ∀ row ∈ m, row.length = n)
    (hker : ∀ x : Nat → Byte, (∀ row ∈ m, dot row x = 0) → ∀ c < n, x c = 0) :
    ∃ inv, invert m n = some inv ∧ ∀ x s : Nat → Byte, (∀ i < n, dot (m.getD i []) x = s i) →
        ∀ i < n, x i = ∑ j ∈ Finset.range n, (inv.getD i []).getD j 0 * s j := by
  let rows : List (Row Byte) := m.mapIdx fun i row =>
    ⟨row, (range n).map fun c => if i = c then byte 1 else byte 0⟩
  have hrlen : rows.length = n := by simp [rows, hlen]
  have hat : ∀ i < n, rowAt rows i =
      ⟨m.getD i [], (range n).map fun c => if i = c then byte 1 else byte 0⟩ := by
    intro i hi
    rw [← hlen] at hi
    simp [rowAt, rows, hi]
  have hshape : ∀ row ∈ rows, row.Shape rows.length n := by
    rw [forall_mem_iff_rowAt, hrlen]
    intro i hi
    rw [hat i hi]
    refine ⟨?_, by simp⟩
    rw [← hlen] at hi
    simpa [hi] using hrow _ (getElem_mem hi)
  have hunit : ∀ i < n, ∀ s : Nat → Byte,
      dot ((range n).map fun c => if i = c then byte 1 else byte 0) s = s i := by
    intro i hi s
    rw [dot_eq_sum, length_map, length_range, Finset.sum_eq_single i]
    · simp [hi, byte_one]
    · intro c hc hci
      simp [Finset.mem_range.mp hc, Ne.symm hci, byte_zero]
    · exact fun h => absurd (Finset.mem_range.mpr hi) h
  have hkt : KernelTrivial rows := by
    intro x hx
    rw [hrlen]
    refine hker x fun row hrow => ?_
    obtain ⟨i, hi, rfl⟩ := mem_iff_getElem.mp hrow
    rw [forall_mem_iff_rowAt, hrlen] at hx
    have h := hx i (hlen ▸ hi)
    rw [hat i (hlen ▸ hi), Row.Holds, dot_zero] at h
    simpa [hi] using h
  obtain ⟨out, hout, hol, hos, hou, hsound⟩ := gaussJordan_spec n 0 hshape
    (by rw [hrlen, zero_add]) (fun _ _ _ hc => absurd hc (Nat.not_lt_zero _)) hkt
  rw [hrlen] at hol hos hou
  refine ⟨out.map Row.rhs, ?_, ?_⟩
  · change (gaussJordan n 0 rows).map _ = _
    rw [hout]
    rfl
  intro x s hxs i hi
  have hholds : ∀ row ∈ rows, row.Holds x s := by
    rw [forall_mem_iff_rowAt, hrlen]
    intro j hj
    rw [hat j hj, Row.Holds, hunit j hj, hxs j hj]
  have hio : i < out.length := by rwa [hol]
  have hmem := rowAt_mem hio
  have hrhs : ((out.map Row.rhs).getD i []) = (rowAt out i).rhs := by
    simp [rowAt, hio]
  rw [Row.holds_unit (hos _ hmem) hi (fun c hc => hou i hio c hc) (hsound x s hholds _ hmem),
    dot_eq_sum, (hos _ hmem).2, hrhs]

def presentFrom : Nat → Shards → List Nat
  | _, [] => []
  | idx, none :: shards => presentFrom (idx + 1) shards
  | idx, some _ :: shards => idx :: presentFrom (idx + 1) shards

theorem presentFrom_length (idx : Nat) (shards : Shards) :
    (presentFrom idx shards).length = shards.countP Option.isSome := by
  induction shards generalizing idx with
  | nil => rfl
  | cons s shards ih => cases s <;> simp [presentFrom, ih]

variable {shards : Shards} {len k : Nat} {surv : List Nat}

theorem mem_presentFrom (h : pos ∈ presentFrom idx shards) :
    idx ≤ pos ∧ ∃ v, shards[pos - idx]? = some (some v) := by
  induction shards generalizing idx with
  | nil => cases h
  | cons s shards ih =>
    have hrest (h : pos ∈ presentFrom (idx + 1) shards) :
        idx ≤ pos ∧ ∃ v, (s :: shards)[pos - idx]? = some (some v) := by
      obtain ⟨hle, v, hv⟩ := ih h
      refine ⟨by omega, v, ?_⟩
      rw [show pos - idx = (pos - (idx + 1)) + 1 by omega]
      exact hv
    cases s with
    | none => exact hrest h
    | some v =>
      rcases mem_cons.mp h with rfl | h
      · exact ⟨le_rfl, v, by simp⟩
      · exact hrest h

theorem presentFrom_nodup (idx : Nat) (shards : Shards) : (presentFrom idx shards).Nodup := by
  induction shards generalizing idx with
  | nil => exact nodup_nil
  | cons s shards ih =>
    cases s with
    | none => exact ih (idx + 1)
    | some v =>
      refine nodup_cons.mpr ⟨fun h => ?_, ih (idx + 1)⟩
      have := (mem_presentFrom h).1
      omega

def received (shards : Shards) : List (List Byte) := shards.filterMap id

theorem presentFrom_received {full : Shards} (idx : Nat) (hshards : full.drop idx = shards) :
    (presentFrom idx shards).map (fun pos => full.getD pos none) = (received shards).map some := by
  induction shards generalizing idx with
  | nil => rfl
  | cons s shards ih =>
    have hrest := ih (idx + 1) (by rw [← drop_drop, hshards]; rfl)
    have hidx : full[idx]? = some s := by
      rw [← head?_drop, hshards]
      rfl
    cases s with
    | none => exact hrest
    | some v => exact congrArg₂ cons (getD_of_getElem? hidx) hrest

/-- The length the scan has found after shards of the given lengths. -/
def scanLens : Nat → List Nat → Except FecError Nat
  | len, [] => .ok len
  | len, l :: ls =>
    if len = 0 then scanLens l ls
    else if l ≠ len then .error .badShardLen
    else scanLens len ls

theorem pickSurvivors_eq (k idx : Nat) (shards : Shards) (surv : List Nat) (len : Nat)
    (hk : surv.length ≤ k) : pickSurvivors k idx shards surv len =
      (scanLens len (((received shards).take (k - surv.length)).map length)).map fun len =>
        ((surv ++ presentFrom idx shards).take k, len) := by
  induction shards generalizing idx surv len with
  | nil => simp [pickSurvivors, received, scanLens, presentFrom, Except.map, take_of_length_le hk]
  | cons s shards ih =>
    cases s with
    | none => exact ih (idx + 1) surv len hk
    | some v =>
      rw [pickSurvivors]
      split
      · rename_i hlt
        have hnext (len : Nat) := ih (idx + 1) (surv ++ [idx]) len
          (by rw [length_append, length_singleton]; omega)
        simp only [append_assoc, singleton_append, length_append, length_singleton] at hnext
        rw [show k - surv.length = k - (surv.length + 1) + 1 by omega]
        simp only [received, filterMap_cons, id, take_succ_cons, map_cons, scanLens]
        split
        · exact hnext v.length
        split
        · rfl
        · exact hnext len
      · rw [ih (idx + 1) surv len hk, show k - surv.length = 0 by omega,
          take_append_of_le_length (by omega), take_append_of_le_length (by omega)]
        rfl

theorem scanLens_pos (hseen : seen ≠ 0) :
    scanLens seen ls = .ok len ↔ len = seen ∧ ls = replicate ls.length seen := by
  induction ls with
  | nil => simp [scanLens, eq_comm]
  | cons l ls ih =>
    rw [scanLens, if_neg hseen, length_cons, replicate_succ, cons.injEq]
    by_cases hl : l = seen
    · rw [if_neg (not_not.mpr hl), ih]
      simp [hl]
    · rw [if_pos hl]
      simp [hl]

/-- The scan lets pass empty shards and behind them shards of one length. -/
theorem scanLens_ok_iff :
    scanLens 0 ls = .ok len ↔ ∃ a b, ls = replicate a 0 ++ replicate b len ∧ (len = 0 ↔ b = 0) := by
  induction ls with
  | nil => simp [scanLens, @eq_comm _ 0 len]
  | cons l ls ih =>
    rw [scanLens, if_pos rfl]
    by_cases hl : l = 0
    · subst hl
      rw [ih]
      constructor
      · rintro ⟨a, b, rfl, hb⟩
        exact ⟨a + 1, b, rfl, hb⟩
      rintro ⟨a, b, hls, hb⟩
      cases a with
      | zero =>
        cases b with
        | zero => cases hls
        | succ b =>
          rw [replicate_zero, nil_append, replicate_succ, cons.injEq] at hls
          exact absurd (hb.mp hls.1.symm) (Nat.succ_ne_zero b)
      | succ a => exact ⟨a, b, (cons.inj hls).2, hb⟩
    · rw [scanLens_pos hl]
      constructor
      · rintro ⟨rfl, hls⟩
        exact ⟨0, ls.length + 1, by rw [replicate_zero, nil_append, replicate_succ, ← hls],
          by simp [hl]⟩
      rintro ⟨a, b, hls, hb⟩
      cases a with
      | zero =>
        cases b with
        | zero => cases hls
        | succ b =>
          rw [replicate_zero, nil_append, replicate_succ, cons.injEq] at hls
          obtain ⟨rfl, rfl⟩ := hls
          simp
      | succ a => exact absurd (cons.inj hls).1 hl

theorem pickSurvivors_uniform (hall : ∀ v, some v ∈ shards → v.length = len) :
    pickSurvivors k 0 shards [] 0 = .ok ((presentFrom 0 shards).take k,
      if (presentFrom 0 shards).take k = [] then 0 else len) := by
  have hlens : ((received shards).take k).map length =
      replicate ((presentFrom 0 shards).take k).length len := by
    refine eq_replicate_iff.mpr ⟨?_, fun l hl => ?_⟩
    · have hsame := congrArg length (presentFrom_received 0 (drop_zero (l := shards)))
      rw [length_map, length_map] at hsame
      simp [hsame]
    · obtain ⟨v, hv, rfl⟩ := mem_map.mp hl
      obtain ⟨s, hs, rfl⟩ := mem_filterMap.mp (mem_of_mem_take hv)
      exact hall v hs
  rw [pickSurvivors_eq k 0 shards [] 0 (Nat.zero_le _), nil_append, length_nil, Nat.sub_zero, hlens]
  generalize (presentFrom 0 shards).take k = surv
  have hscan : scanLens 0 (replicate surv.length len) = .ok (if surv = [] then 0 else len) := by
    refine scanLens_ok_iff.mpr ?_
    by_cases hz : len = 0 ∨ surv = []
    · refine ⟨surv.length, 0, ?_, ?_⟩
      · rcases hz with rfl | rfl <;> simp
      · rcases hz with rfl | rfl <;> simp
    · obtain ⟨hz, hs⟩ := not_or.mp hz
      exact ⟨0, surv.length, by rw [if_neg hs]; rfl, by simp [hz, hs]⟩
  rw [hscan]
  rfl

namespace RsCode

section
variable (k : Nat) (coef : Nat → Byte) (src : Nat → List Byte) (len : Nat)

theorem accumulate_eq_combine :
    accumulate k coef src len = combine k coef src (replicate len 0) := by
  unfold accumulate combine
  congr 1
  funext out c
  split
  · exact gfMulAdd_eq_addMul ..
  rename_i h
  rw [not_not.mp h]
  exact (addMul_zero ..).symm

@[simp] theorem accumulate_length : (accumulate k coef src len).length = len := by
  simp [accumulate_eq_combine, combine_length]

end

theorem accumulate_getD (h : ∀ c < k, (src c).length = len) (b : Nat) :
    (accumulate k coef src len).getD b 0 = ∑ c ∈ Finset.range k, coef c * (src c).getD b 0 := by
  rw [accumulate_eq_combine, combine_getD (by simpa using fun c hc => le_of_eq (h c hc)),
    getD_replicate_zero, zero_add]

theorem new_ok {r : Nat} (hk : 1 ≤ k) (hr : 1 ≤ r) (hkr : k + r ≤ 256) :
    ∃ code, new k r = .ok code ∧ code.k = k ∧ code.r = r := by
  rw [new, dif_neg (by omega)]
  exact ⟨_, rfl, rfl, rfl⟩

theorem cauchy_getD (code : RsCode) (hj : j < code.r) (hc : c < code.k) :
    (code.cauchy.getD j []).getD c (byte 0) = cauchyEntry code.k j c := by
  simp [code.cauchy_eq, cauchyRows, hj, hc]

/-- A parity index and a data index never meet, so the Cauchy entry is a true inverse. -/
theorem cauchyEntry_eq (hc : c < k) (hkj : k + j < 256) :
    cauchyEntry k j c = (byte (k + j) - byte c)⁻¹ := by
  rw [cauchyEntry, Gf.add_eq, Byte.sub_eq_add]
  refine Gf.inv_eq ?_
  rw [← Byte.sub_eq_add, sub_ne_zero]
  intro h
  have := congrArg Byte.toNat h
  rw [toNat_byte, toNat_byte] at this
  omega

variable (code : RsCode) {data : List (List Byte)} {len : Nat}

@[simp] theorem parityRow_length (data : List (List Byte)) (len j : Nat) :
    (code.parityRow data len j).length = len := accumulate_length ..

def parityOf (data : List (List Byte)) (len : Nat) : List (List Byte) :=
  (range code.r).map (code.parityRow data len)

theorem parityOf_length (data : List (List Byte)) (len : Nat) :
    (code.parityOf data len).length = code.r := by
  simp [parityOf]

theorem encode_ok (hdata : data.length = code.k) (hparity : parity.length = code.r)
    (hlen : 0 < len) (hd : ∀ s ∈ data, s.length = len) (hp : ∀ s ∈ parity, s.length = len) :
    code.encode data parity = .ok (code.parityOf data len) := by
  have hfirst : (data.getD 0 []).length = len := by
    cases data with
    | nil =>
      have := code.k_pos
      simp at hdata
      omega
    | cons s rest => exact hd s (mem_cons_self ..)
  rw [encode, if_neg (by simp [hdata, hparity])]
  simp only [hfirst]
  rw [if_neg]
  · rfl
  · simp only [any_eq_true, not_or, not_exists, not_and, bne_iff_ne, ne_eq, not_not]
    exact ⟨by omega, hd, hp⟩

/-- Every shard of a codeword is its row of the encoding matrix applied to the data. -/
theorem encEntry_sum (hdata : data.length = code.k) (hd : ∀ s ∈ data, s.length = len)
    (hpos : pos < code.k + code.r) (b : Nat) :
    ∑ c ∈ Finset.range code.k, code.encEntry pos c * (data.getD c []).getD b 0 =
      ((data ++ code.parityOf data len).getD pos []).getD b 0 := by
  by_cases hk : pos < code.k
  · rw [Finset.sum_eq_single pos]
    · rw [encEntry, if_pos hk, if_pos rfl, byte_one, one_mul]
      simp [getElem?_append, hdata, hk]
    · intro c _ hne
      rw [encEntry, if_pos hk, if_neg (Ne.symm hne), byte_zero, zero_mul]
    · exact fun h => absurd (Finset.mem_range.mpr hk) h
  have hj : pos - code.k < code.r := by omega
  have hrow : (data ++ code.parityOf data len).getD pos [] =
      code.parityRow data len (pos - code.k) := by
    simp [getElem?_append, hdata, hk, parityOf, hj]
  have hsrc : ∀ c < code.k, (data.getD c []).length = len := by
    intro c hc
    rw [← hdata] at hc
    simpa [hc] using hd _ (getElem_mem hc)
  rw [hrow, parityRow, accumulate_getD hsrc]
  refine Finset.sum_congr rfl fun c _ => ?_
  rw [encEntry, if_neg hk]

theorem byte_injOn : Set.InjOn byte {n | n < 256} := by
  intro a ha b hb h
  have := congrArg Byte.toNat h
  rw [toNat_byte, toNat_byte, Nat.mod_eq_of_lt ha, Nat.mod_eq_of_lt hb] at this
  exact this

/-- The code is MDS: any `k` rows of the encoding matrix have a trivial kernel. -/
theorem encEntry_kernel (hnodup : surv.Nodup) (hlen : surv.length = code.k)
    (hsurv : ∀ pos ∈ surv, pos < code.k + code.r) (x : Nat → Byte)
    (hx : ∀ pos ∈ surv, ∑ c ∈ Finset.range code.k, code.encEntry pos c * x c = 0) :
    ∀ c < code.k, x c = 0 := by
  have hfits := code.fits
  have hdata : ∀ c ∈ surv, c < code.k → x c = 0 := by
    intro c hc hck
    have h := hx c hc
    rw [Finset.sum_eq_single c] at h
    · rwa [encEntry, if_pos hck, if_pos rfl, byte_one, one_mul] at h
    · intro i _ hne
      rw [encEntry, if_pos hck, if_neg (Ne.symm hne), byte_zero, zero_mul]
    · exact fun hn => absurd (Finset.mem_range.mpr hck) hn
  let lost := (Finset.range code.k).filter (· ∉ surv)
  let spare := surv.toFinset.filter (code.k ≤ ·)
  have hcard : lost.card ≤ spare.card := by
    have hsplit := Finset.card_filter_add_card_filter_not (s := surv.toFinset) (code.k ≤ ·)
    rw [toFinset_card_of_nodup hnodup, hlen] at hsplit
    have hlost := Finset.card_filter_add_card_filter_not (s := Finset.range code.k) (· ∉ surv)
    rw [Finset.card_range] at hlost
    have hsame : surv.toFinset.filter (fun c => ¬code.k ≤ c) =
        (Finset.range code.k).filter (fun c => ¬c ∉ surv) := by
      ext c
      simp only [Finset.mem_filter, mem_toFinset, Finset.mem_range, not_not, not_le]
      exact and_comm
    rw [hsame] at hsplit
    change lost.card + _ = _ at hlost
    change spare.card + _ = _ at hsplit
    omega
  have hzero : ∀ c ∈ lost, x c = 0 := by
    refine cauchy_kernel_trivial (u := byte) (v := byte) (t := spare) ?_ ?_ ?_ hcard ?_
    · refine byte_injOn.mono fun c hc => ?_
      have := Finset.mem_range.mp (Finset.mem_filter.mp hc).1
      change c < 256
      omega
    · refine byte_injOn.mono fun c hc => ?_
      have := hsurv c (mem_toFinset.mp (Finset.mem_filter.mp hc).1)
      change c < 256
      omega
    · intro c hc pos hpos heq
      obtain ⟨hmem, hkpos⟩ := Finset.mem_filter.mp hpos
      have hlt := hsurv pos (mem_toFinset.mp hmem)
      have hck := Finset.mem_range.mp (Finset.mem_filter.mp hc).1
      have : pos = c := byte_injOn (show pos < 256 by omega) (show c < 256 by omega) heq
      omega
    intro pos hpos
    obtain ⟨hmem, hkpos⟩ := Finset.mem_filter.mp hpos
    have hin := mem_toFinset.mp hmem
    have hlt := hsurv pos hin
    rw [← hx pos hin]
    refine Finset.sum_subset_zero_on_sdiff (Finset.filter_subset _ _) ?_ ?_
    · intro c hc
      obtain ⟨hck, hnl⟩ := Finset.mem_sdiff.mp hc
      have hcs : c ∈ surv := by
        by_contra hns
        exact hnl (Finset.mem_filter.mpr ⟨hck, hns⟩)
      rw [hdata c hcs (Finset.mem_range.mp hck), mul_zero]
    · intro c hc
      have hck := Finset.mem_range.mp (Finset.mem_filter.mp hc).1
      rw [encEntry, if_neg (by omega), code.cauchy_getD (by omega) hck,
        cauchyEntry_eq hck (by omega), Nat.add_sub_cancel' hkpos, mul_comm]
  intro c hc
  by_cases hcs : c ∈ surv
  · exact hdata c hcs hc
  · exact hzero c (Finset.mem_filter.mpr ⟨Finset.mem_range.mpr hc, hcs⟩)

/-- Some shards of `full` are lost; the others are intact and in place. -/
structure Erasure (full : List (List Byte)) (shards : Shards) : Prop where
  length_eq : shards.length = full.length
  intact : ∀ (pos : Nat) v, shards[pos]? = some (some v) → full[pos]? = some v

/-- A property of the positions filled so far that every turn of the filling loop keeps. -/
theorem fillMissing_induct (surv : List Nat) (inv : List (List Byte)) (len : Nat) (shards : Shards)
    {motive : Nat → Shards → Prop} (zero : motive 0 shards)
    (kept : ∀ m out v, m < code.k → motive m out → out[m]? = some (some v) → motive (m + 1) out)
    (filled : ∀ m out, m < code.k → motive m out → (∀ v, out[m]? ≠ some (some v)) →
      motive (m + 1) (out.set m (some (code.recoverShard surv inv len out m)))) :
    motive code.k (code.fillMissing surv inv len shards) := by
  have hfold : ∀ m ≤ code.k, motive m ((range m).foldl
      (fun shards i => if (shards.getD i none).isSome then shards
        else shards.set i (some (code.recoverShard surv inv len shards i))) shards) := by
    intro m
    induction m with
    | zero => exact fun _ => zero
    | succ m ih =>
      intro hm
      have hbefore := ih (by omega)
      rw [range_succ, foldl_append, foldl_cons, foldl_nil]
      generalize (range m).foldl _ shards = out at hbefore ⊢
      split
      · rename_i hsome
        obtain ⟨v, hv⟩ := Option.isSome_iff_exists.mp hsome
        refine kept m out v hm hbefore ?_
        rw [getD_eq_getElem?_getD] at hv
        cases hat : out[m]? with
        | none => simp [hat] at hv
        | some s => simpa [hat] using hv
      · rename_i hnone
        refine filled m out hm hbefore fun v hv => hnone ?_
        rw [getD_of_getElem? hv]
        rfl
  exact hfold code.k le_rfl

theorem fillMissing_spec {inv : List (List Byte)} (hdata : data.length = code.k)
    (hlen : code.k ≤ shards.length)
    (hintact : ∀ i < code.k, ∀ v, shards[i]? = some (some v) → data[i]? = some v)
    (hrec : ∀ out : Shards, (∀ (pos : Nat) v, shards[pos]? = some (some v) → out[pos]? = some (some v)) →
      ∀ i < code.k, data[i]? = some (code.recoverShard surv inv len out i)) :
    code.fillMissing surv inv len shards = data.map some ++ shards.drop code.k := by
  obtain ⟨-, -, hdone, hrest⟩ := code.fillMissing_induct surv inv len shards
    (motive := fun m out => out.length = shards.length ∧
      (∀ (pos : Nat) v, shards[pos]? = some (some v) → out[pos]? = some (some v)) ∧
      (∀ i < m, out[i]? = (data[i]?).map some) ∧ ∀ i : Nat, m ≤ i → out[i]? = shards[i]?)
    ⟨rfl, fun _ _ h => h, fun i hi => absurd hi (Nat.not_lt_zero i), fun _ _ => rfl⟩
    (fun m out v hm ⟨hol, hkeep, hdone, hrest⟩ hv => by
      refine ⟨hol, hkeep, fun i hi => ?_, fun i hi => hrest i (by omega)⟩
      rcases Nat.lt_succ_iff_lt_or_eq.mp hi with hi | rfl
      · exact hdone i hi
      · rw [hv, hintact i hm v (hrest i le_rfl ▸ hv)]
        rfl)
    (fun m out hm ⟨hol, hkeep, hdone, hrest⟩ hnone => by
      refine ⟨by rw [length_set, hol], fun pos v hv => ?_, fun i hi => ?_, fun i hi => ?_⟩
      · have hpm : m ≠ pos := fun heq => hnone v (heq ▸ hkeep pos v hv)
        rw [getElem?_set_ne hpm]
        exact hkeep pos v hv
      · rcases Nat.lt_succ_iff_lt_or_eq.mp hi with hi | rfl
        · rw [getElem?_set_ne (by omega)]
          exact hdone i hi
        · rw [getElem?_set_self (by omega), hrec out hkeep i hm]
          rfl
      · rw [getElem?_set_ne (by omega)]
        exact hrest i (by omega))
  apply ext_getElem?
  intro i
  rw [getElem?_append, length_map, hdata]
  split
  · rename_i hi
    simp [hdone i hi]
  · rename_i hi
    rw [hrest i (by omega), getElem?_drop, Nat.add_sub_cancel' (by omega)]

/-- The survivors `decode` works from when the received shards are intact. -/
theorem Erasure.pickSurvivors_eq (he : Erasure full shards) (hlens : ∀ s ∈ full, s.length = len)
    (k : Nat) :
    pickSurvivors k 0 shards [] 0 = .ok ((presentFrom 0 shards).take k,
      if (presentFrom 0 shards).take k = [] then 0 else len) := by
  refine pickSurvivors_uniform fun v hv => ?_
  obtain ⟨pos, hpos, heq⟩ := mem_iff_getElem.mp hv
  have := he.intact pos v (by rw [getElem?_eq_getElem hpos, heq])
  exact hlens v (mem_of_getElem? this)

theorem decode_too_few (hfull : full.length = code.k + code.r) (hlens : ∀ s ∈ full, s.length = len)
    (he : Erasure full shards) (hfew : shards.countP Option.isSome < code.k)
    (hmiss : ∃ i < code.k, shards[i]? = some none) :
    code.decode shards = (.error .tooFewShards, shards) := by
  obtain ⟨i, hi, hnone⟩ := hmiss
  rw [decode, if_neg (by rw [he.length_eq, hfull]; simp), if_neg]
  · rw [he.pickSurvivors_eq hlens]
    dsimp only
    rw [if_pos]
    left
    rw [length_take, presentFrom_length]
    omega
  · intro h
    have := all_eq_true.mp h i (mem_range.mpr hi)
    rw [getD_eq_getElem?_getD, hnone] at this
    cases this

theorem mem_codeword_length (hd : ∀ s ∈ data, s.length = len) :
    ∀ s ∈ data ++ code.parityOf data len, s.length = len := by
  intro s hs
  rcases mem_append.mp hs with hs | hs
  · exact hd s hs
  · obtain ⟨j, -, rfl⟩ := mem_map.mp hs
    exact parityRow_length ..

theorem recoverShard_eq {out : Shards} (hdata : data.length = code.k)
    (hd : ∀ s ∈ data, s.length = len)
    (hsurv : ∀ j < code.k, ∃ v, out[surv.getD j 0]? = some (some v) ∧
      (data ++ code.parityOf data len)[surv.getD j 0]? = some v) (hinv : ∀ x s : Nat → Byte,
      (∀ j < code.k, ∑ c ∈ Finset.range code.k, code.encEntry (surv.getD j 0) c * x c = s j) →
        x i = ∑ j ∈ Finset.range code.k, (inv.getD i []).getD j 0 * s j) (hi : i < code.k) :
    data[i]? = some (code.recoverShard surv inv len out i) := by
  have hlens := code.mem_codeword_length hd
  have hsrc : ∀ j < code.k, ((out.getD (surv.getD j 0) none).getD []).length = len := by
    intro j hj
    obtain ⟨v, hv, hf⟩ := hsurv j hj
    rw [getD_of_getElem? hv]
    exact hlens v (mem_of_getElem? hf)
  have hid : i < data.length := by omega
  rw [getElem?_eq_getElem hid, Option.some.injEq]
  have hl : (data[i]).length = len := hd _ (getElem_mem hid)
  refine ext_getD (hl.trans (accumulate_length ..).symm) fun b => ?_
  have hb : (data.getD i []).getD b 0 = (code.recoverShard surv inv len out i).getD b 0 := by
    rw [recoverShard, accumulate_getD hsrc]
    refine hinv (fun c => (data.getD c []).getD b 0) _ fun j hj => ?_
    obtain ⟨v, hv, hf⟩ := hsurv j hj
    have hpos : surv.getD j 0 < code.k + code.r := by
      have := (List.getElem_of_getElem? hf).1
      rwa [length_append, hdata, parityOf_length] at this
    rw [code.encEntry_sum hdata hd hpos, getD_of_getElem? hv, getD_of_getElem? hf]
    rfl
  rwa [getD_of_getElem? (getElem?_eq_getElem hid)] at hb

theorem dot_encEntry (pos : Nat) (x : Nat → Byte) : dot ((range code.k).map (code.encEntry pos)) x =
      ∑ c ∈ Finset.range code.k, code.encEntry pos c * x c := by
  rw [dot_eq_sum, length_map, length_range]
  refine Finset.sum_congr rfl fun c hc => ?_
  simp [Finset.mem_range.mp hc]

theorem invert_survivors (hnodup : surv.Nodup) (hlen : surv.length = code.k)
    (hsurv : ∀ pos ∈ surv, pos < code.k + code.r) :
    ∃ inv, invert (surv.map fun pos => (range code.k).map (code.encEntry pos)) code.k =
        some inv ∧ ∀ x s : Nat → Byte,
      (∀ j < code.k, ∑ c ∈ Finset.range code.k, code.encEntry (surv.getD j 0) c * x c = s j) →
        ∀ i < code.k, x i = ∑ j ∈ Finset.range code.k, (inv.getD i []).getD j 0 * s j := by
  obtain ⟨inv, hinv, hsolve⟩ := invert_spec (n := code.k)
    (m := surv.map fun pos => (range code.k).map (code.encEntry pos))
    (by rw [length_map, hlen]) (by simp) (by
      intro x hx
      refine code.encEntry_kernel hnodup hlen hsurv x fun pos hpos => ?_
      rw [← dot_encEntry]
      exact hx _ (mem_map_of_mem hpos))
  refine ⟨inv, hinv, fun x s hxs => hsolve x s fun j hj => ?_⟩
  rw [← hxs j hj, ← dot_encEntry]
  simp [hlen, hj]

theorem decode_recovers (hdata : data.length = code.k) (hpos : 0 < len)
    (hd : ∀ s ∈ data, s.length = len) (he : Erasure (data ++ code.parityOf data len) shards)
    (hk : code.k ≤ shards.countP Option.isSome) :
    code.decode shards = (.ok (), data.map some ++ shards.drop code.k) := by
  have hfull : shards.length = code.k + code.r := by
    simp [he.length_eq, hdata, parityOf_length]
  have hintact : ∀ i < code.k, ∀ v, shards[i]? = some (some v) → data[i]? = some v := by
    intro i hi v hv
    have := he.intact i v hv
    rwa [getElem?_append_left (by omega)] at this
  rw [decode, if_neg (by simp [hfull])]
  split
  · rename_i hall
    rw [Prod.mk.injEq]
    refine ⟨rfl, ?_⟩
    apply ext_getElem?
    intro i
    rw [getElem?_append, length_map, hdata]
    split
    · rename_i hi
      have hsome := all_eq_true.mp hall i (mem_range.mpr hi)
      obtain ⟨v, hv⟩ := Option.isSome_iff_exists.mp hsome
      have hsv : shards[i]? = some (some v) := by
        rw [getElem?_eq_getElem (by omega)]
        simpa [show i < shards.length by omega] using hv
      rw [hsv, getElem?_map, hintact i hi v hsv]
      rfl
    · rw [getElem?_drop, Nat.add_sub_cancel' (by omega)]
  · rw [he.pickSurvivors_eq (code.mem_codeword_length hd)]
    let surv := (presentFrom 0 shards).take code.k
    have hlen : surv.length = code.k := by
      rw [length_take, presentFrom_length]
      omega
    have hne : surv ≠ [] := by
      intro h
      rw [h] at hlen
      exact absurd hlen (ne_of_lt code.k_pos)
    have hpresent : ∀ pos ∈ surv, ∃ v, shards[pos]? = some (some v) := by
      intro pos hpos
      obtain ⟨-, v, hv⟩ := mem_presentFrom (mem_of_mem_take hpos)
      exact ⟨v, hv⟩
    have hlt : ∀ pos ∈ surv, pos < code.k + code.r := by
      intro pos hpos
      obtain ⟨v, hv⟩ := hpresent pos hpos
      rw [← hfull]
      exact (List.getElem_of_getElem? hv).1
    obtain ⟨inv, hinv, hsolve⟩ := code.invert_survivors
      ((take_sublist _ _).nodup (presentFrom_nodup 0 shards)) hlen hlt
    dsimp only
    rw [if_neg hne, if_neg (by rw [not_or]; exact ⟨by change ¬surv.length < _; omega, by omega⟩),
      hinv]
    rw [Prod.mk.injEq]
    refine ⟨rfl, code.fillMissing_spec hdata (by omega) hintact ?_⟩
    intro out hkeep i hi
    refine code.recoverShard_eq hdata hd ?_ (fun x s h => hsolve x s h i hi) hi
    intro j hj
    have hmem : surv.getD j 0 ∈ surv := by
      rw [getD_eq_getElem?_getD, getElem?_eq_getElem (by omega)]
      exact getElem_mem _
    obtain ⟨v, hv⟩ := hpresent _ hmem
    exact ⟨v, hkeep _ v hv, he.intact _ v hv⟩

/-- Encoding then erasing: with `k` survivors the data comes back exactly, with
fewer the loss is reported and nothing is touched. -/
theorem decode_after_encode {k r len : Nat} {data buffers : List (List Byte)}
    (hk : 1 ≤ k) (hr : 1 ≤ r) (hkr : k + r ≤ 256) (hlen : 0 < len)
    (hdata : data.length = k) (hd : ∀ s ∈ data, s.length = len)
    (hbuffers : buffers.length = r) (hb : ∀ s ∈ buffers, s.length = len) :
    ∃ code parity, new k r = .ok code ∧ code.encode data buffers = .ok parity ∧
      ∀ shards, Erasure (data ++ parity) shards → (k ≤ shards.countP Option.isSome →
          ∃ out, code.decode shards = (.ok (), out) ∧ out.take k = data.map some) ∧
        (shards.countP Option.isSome < k → (∃ i < k, shards[i]? = some none) →
          code.decode shards = (.error .tooFewShards, shards)) := by
  obtain ⟨code, hcode, rfl, rfl⟩ := new_ok hk hr hkr
  refine ⟨code, _, hcode, code.encode_ok hdata hbuffers hlen hd hb, ?_⟩
  intro shards he
  refine ⟨fun hk => ⟨_, code.decode_recovers hdata hlen hd he hk, ?_⟩, ?_⟩
  · rw [← hdata, ← length_map (f := some), take_left]
  have hfull : (data ++ code.parityOf data len).length = code.k + code.r := by
    simp [hdata, parityOf_length]
  exact code.decode_too_few hfull (code.mem_codeword_length hd) he

theorem decode_after_encode_two_of_three :
    ∃ code parity, new 2 1 = .ok code ∧ code.encode [[byte 7], [byte 9]] [[byte 0]] = .ok parity ∧
      ∀ shards, Erasure ([[byte 7], [byte 9]] ++ parity) shards → (2 ≤ shards.countP Option.isSome →
          ∃ out, code.decode shards = (.ok (), out) ∧ out.take 2 = [some [byte 7], some [byte 9]]) ∧
        (shards.countP Option.isSome < 2 → (∃ i < 2, shards[i]? = some none) →
          code.decode shards = (.error .tooFewShards, shards)) :=
  decode_after_encode (by decide) (by decide) (by decide) one_pos
    rfl (by decide) rfl (by decide)

end RsCode
end SubEtha
