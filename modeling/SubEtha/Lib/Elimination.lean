import Mathlib.Algebra.BigOperators.Ring.Finset
import Mathlib.Tactic.Ring
import Mathlib.Tactic.LinearCombination

namespace SubEtha.Lib
open List

variable {F G : Type*} [Field F]

/-- `out[i] += f * src[i]` over the shorter of the two; what is left of `out` is kept. -/
def addMul : List F → List F → F → List F
  | [], _, _ => []
  | o :: out, [], _ => o :: out
  | o :: out, s :: src, f => (o + f * s) :: addMul out src f

@[simp] theorem addMul_length (out src : List F) (f : F) :
    (addMul out src f).length = out.length := by
  induction out generalizing src with
  | nil => rfl
  | cons o out ih => cases src <;> simp [addMul, ih]

theorem addMul_getD (h : src.length ≤ out.length) (f : F) (i : Nat) :
    (addMul out src f).getD i 0 = out.getD i 0 + f * src.getD i 0 := by
  induction out generalizing src i with
  | nil =>
    rw [length_nil, Nat.le_zero, length_eq_zero_iff] at h
    simp [addMul, h]
  | cons o out ih =>
    cases src with
    | nil => simp [addMul]
    | cons s src =>
      cases i with
      | zero => simp [addMul]
      | succ i => simpa [addMul] using ih (by simpa using h) i

theorem getD_replicate_zero (n i : Nat) : (replicate n (0 : F)).getD i 0 = 0 := by
  rw [getD_eq_getElem?_getD, getElem?_replicate]
  split <;> rfl

theorem ext_getD {l l' : List F} (hlen : l.length = l'.length)
    (h : ∀ i, l.getD i 0 = l'.getD i 0) : l = l' := by
  refine ext_getElem hlen fun i hi hi' => ?_
  have := h i
  rwa [getD_eq_getElem?_getD, getD_eq_getElem?_getD, getElem?_eq_getElem hi,
    getElem?_eq_getElem hi'] at this

/-- `out + ∑ c < k, coef c * src c`, accumulated in index order. -/
def combine (k : Nat) (coef : Nat → F) (src : Nat → List F) (out : List F) : List F :=
  (range k).foldl (fun out c => addMul out (src c) (coef c)) out

section
variable (k : Nat) (coef : Nat → F) (src : Nat → List F) (out : List F)

theorem combine_succ :
    combine (k + 1) coef src out = addMul (combine k coef src out) (src k) (coef k) := by
  simp [combine, range_succ]

@[simp] theorem combine_length : (combine k coef src out).length = out.length := by
  induction k with
  | zero => rfl
  | succ k ih => rw [combine_succ, addMul_length, ih]

end

theorem combine_getD {coef : Nat → F} {src : Nat → List F} {out : List F}
    (h : ∀ c < k, (src c).length ≤ out.length) (i : Nat) : (combine k coef src out).getD i 0 =
      out.getD i 0 + ∑ c ∈ Finset.range k, coef c * (src c).getD i 0 := by
  induction k with
  | zero => simp [combine]
  | succ k ih =>
    rw [combine_succ, addMul_getD (by rw [combine_length]; exact h k (by omega)),
      ih fun c hc => h c (by omega), Finset.sum_range_succ, add_assoc]

/-- The linear form with coefficient list `l`, at the point `x`. -/
def dot : List F → (Nat → F) → F
  | [], _ => 0
  | a :: l, x => a * x 0 + dot l (fun i => x (i + 1))

theorem dot_eq_sum (l : List F) (x : Nat → F) :
    dot l x = ∑ i ∈ Finset.range l.length, l.getD i 0 * x i := by
  induction l generalizing x with
  | nil => simp [dot]
  | cons a l ih => simp [dot, ih, Finset.sum_range_succ', add_comm]

theorem dot_zero (l : List F) : dot l (fun _ => 0) = 0 := by
  simp [dot_eq_sum]

theorem dot_map_mul (l : List F) (x : Nat → F) (c : F) :
    dot (l.map (fun a => a * c)) x = c * dot l x := by
  induction l generalizing x with
  | nil => simp [dot]
  | cons a l ih =>
    simp only [map_cons, dot, ih]
    ring

theorem dot_addMul (h : src.length ≤ out.length) (f : F) (x : Nat → F) :
    dot (addMul out src f) x = dot out x + f * dot src x := by
  induction out generalizing src x with
  | nil =>
    rw [length_nil, Nat.le_zero, length_eq_zero_iff] at h
    simp [addMul, h, dot]
  | cons o out ih =>
    cases src with
    | nil => simp [addMul, dot]
    | cons s src =>
      simp only [addMul, dot, ih (Nat.le_of_succ_le_succ h)]
      ring

def pick (i : Nat) : Nat → F := fun j => if j = i then 1 else 0

theorem dot_pick (l : List F) (i : Nat) : dot l (pick i) = l.getD i 0 := by
  rw [dot_eq_sum]
  simp only [pick, mul_ite, mul_one, mul_zero, Finset.sum_ite_eq', Finset.mem_range]
  split
  · rfl
  rename_i hi
  rw [getD_eq_getElem?_getD, getElem?_eq_none (by omega)]
  rfl

theorem dot_replicate_zero (n : Nat) (x : Nat → F) : dot (replicate n 0) x = 0 := by
  induction n generalizing x with
  | zero => rfl
  | succ n ih => simp [replicate_succ, dot, ih]

theorem dot_set (hi : i < l.length) (hz : l.getD i 0 = 0) (c : F) (x : Nat → F) :
    dot (l.set i c) x = dot l x + c * x i := by
  induction l generalizing i x with
  | nil => simp at hi
  | cons a l ih =>
    cases i with
    | zero =>
      rw [getD_cons_zero] at hz
      simp [dot, hz, add_comm]
    | succ i =>
      have := ih (by simpa using hi) (by simpa using hz) fun j => x (j + 1)
      simp [dot, this, add_assoc]

/-- One equation of a linear system: a form in the unknowns equal to a form in
the right-hand sides. -/
structure Row (F : Type*) where
  coefs : List F
  rhs : List F
  deriving DecidableEq

namespace Row

instance : Inhabited (Row F) := ⟨⟨[], []⟩⟩

def coef (row : Row F) (c : Nat) : F := row.coefs.getD c 0

def scale (row : Row F) (c : F) : Row F :=
  ⟨row.coefs.map (fun a => a * c), row.rhs.map (fun a => a * c)⟩

/-- Subtract from `row` the multiple of `piv` that clears column `col`. -/
def clear [DecidableEq F] (row piv : Row F) (col : Nat) : Row F :=
  let f := row.coef col
  if f = 0 then row else ⟨addMul row.coefs piv.coefs (-f), addMul row.rhs piv.rhs (-f)⟩

def Holds (x s : Nat → F) (row : Row F) : Prop := dot row.coefs x = dot row.rhs s

/-- `n` unknowns and `m` right-hand sides. -/
def Shape (n m : Nat) (row : Row F) : Prop := row.coefs.length = n ∧ row.rhs.length = m

variable {row : Row F}

theorem shape_scale (h : row.Shape n m) (c : F) : (row.scale c).Shape n m :=
  ⟨by simp [scale, h.1], by simp [scale, h.2]⟩

theorem shape_clear [DecidableEq F] (h : row.Shape n m) (piv : Row F) (col : Nat) :
    (row.clear piv col).Shape n m := by
  unfold clear
  dsimp only
  split
  · exact h
  · exact ⟨by simp [h.1], by simp [h.2]⟩

theorem coef_scale (row : Row F) (c : F) (i : Nat) : (row.scale c).coef i = row.coef i * c := by
  simp only [coef, scale, getD_eq_getElem?_getD, getElem?_map]
  cases row.coefs[i]? <;> simp

theorem coef_clear [DecidableEq F] (hr : row.Shape n m) (hp : piv.Shape n m) (col i : Nat) :
    (row.clear piv col).coef i = row.coef i - row.coef col * piv.coef i := by
  unfold clear
  dsimp only
  split
  · rename_i h
    rw [h, zero_mul, sub_zero]
  rw [coef, addMul_getD (by rw [hr.1, hp.1])]
  simp only [coef]
  ring

theorem holds_scale (hc : c ≠ 0) : (row.scale c).Holds x s ↔ row.Holds x s := by
  simp only [Holds, scale, dot_map_mul]
  exact mul_right_inj' hc

theorem holds_clear [DecidableEq F] (hr : row.Shape n m) (hp : piv.Shape n m)
    (hpiv : piv.Holds x s) (col : Nat) : (row.clear piv col).Holds x s ↔ row.Holds x s := by
  unfold clear
  dsimp only
  split
  · exact Iff.rfl
  simp only [Holds] at hpiv ⊢
  rw [dot_addMul (by rw [hr.1, hp.1]), dot_addMul (by rw [hr.2, hp.2]), hpiv]
  exact add_left_inj _

/-- A row of the identity reads its unknown off the right-hand side. -/
theorem holds_unit (hshape : row.Shape n m) (hi : i < n)
    (hunit : ∀ c < n, row.coef c = if i = c then 1 else 0) (h : row.Holds x s) :
    x i = dot row.rhs s := by
  rw [← h, dot_eq_sum, hshape.1, Finset.sum_eq_single i]
  · change x i = row.coef i * x i
    rw [hunit i hi, if_pos rfl, one_mul]
  · intro c hc hci
    change row.coef c * x c = 0
    rw [hunit c (Finset.mem_range.mp hc), if_neg (Ne.symm hci), zero_mul]
  · exact fun hn => absurd (Finset.mem_range.mpr hi) hn

end Row

def rowAt (rows : List (Row G)) (i : Nat) : Row G := rows.getD i default

def swapRows (rows : List (Row G)) (p q : Nat) : List (Row G) :=
  (rows.set p (rowAt rows q)).set q (rowAt rows p)

@[simp] theorem swapRows_length (rows : List (Row G)) (p q : Nat) :
    (swapRows rows p q).length = rows.length := by
  simp [swapRows]

theorem rowAt_swapRows (hp : p < rows.length) (hq : q < rows.length) (i : Nat) :
    rowAt (swapRows rows p q) i = rowAt rows (if i = q then p else if i = p then q else i) := by
  unfold swapRows
  by_cases hiq : i = q
  · subst hiq
    simp [rowAt, hq]
  by_cases hip : i = p
  · subst hip
    simp [rowAt, hiq, Ne.symm hiq, hp]
  · simp [rowAt, hiq, hip, Ne.symm hiq, Ne.symm hip]

theorem rowAt_mem (hi : i < rows.length) : rowAt rows i ∈ rows := by
  rw [rowAt, getD_eq_getElem?_getD, getElem?_eq_getElem hi]
  exact getElem_mem hi

variable {rows : List (Row G)} {P : Row G → Prop}

theorem forall_mem_iff_rowAt : (∀ row ∈ rows, P row) ↔ ∀ i < rows.length, P (rowAt rows i) := by
  constructor
  · intro h i hi
    exact h _ (rowAt_mem hi)
  · intro h row hrow
    obtain ⟨i, hi, rfl⟩ := mem_iff_getElem.mp hrow
    simpa [rowAt, hi] using h i hi

theorem forall_swapRows (hp : p < rows.length) (hq : q < rows.length) :
    (∀ row ∈ swapRows rows p q, P row) ↔ ∀ row ∈ rows, P row := by
  simp only [forall_mem_iff_rowAt, swapRows_length, rowAt_swapRows hp hq]
  constructor
  · intro h i hi
    have := h (if i = q then p else if i = p then q else i) (by split_ifs <;> assumption)
    by_cases hiq : i = q <;> by_cases hip : i = p <;> by_cases hpq : p = q <;> simp_all
  · intro h i hi
    exact h _ (by split_ifs <;> assumption)

theorem rowAt_swapped_pivot (hp : p < rows.length) (hsel : sel < rows.length) :
    rowAt (swapRows rows p sel) p = rowAt rows sel := by
  rw [rowAt_swapRows hp hsel]
  split_ifs with h <;> simp_all

variable [DecidableEq F]

/-- Bring row `sel` to position `p`, make its entry in column `col` one, and
clear that column from every other row. -/
def pivotStep (rows : List (Row F)) (p sel col : Nat) : List (Row F) :=
  let rows := swapRows rows p sel
  let piv := (rowAt rows p).scale ((rowAt rows p).coef col)⁻¹
  rows.mapIdx fun i row => if i = p then piv else row.clear piv col

@[simp] theorem pivotStep_length (rows : List (Row F)) (p sel col : Nat) :
    (pivotStep rows p sel col).length = rows.length := by
  simp [pivotStep]

variable {rows : List (Row F)}

theorem rowAt_pivotStep (hi : i < rows.length) :
    rowAt (pivotStep rows p sel col) i = let swapped := swapRows rows p sel
      let piv := (rowAt swapped p).scale ((rowAt swapped p).coef col)⁻¹
      if i = p then piv else (rowAt swapped i).clear piv col := by
  have hi' : i < (swapRows rows p sel).length := by rwa [swapRows_length]
  simp only [pivotStep]
  rw [rowAt, getD_eq_getElem?_getD, getElem?_mapIdx, getElem?_eq_getElem hi']
  simp [rowAt, getElem?_eq_getElem hi']

section
variable {rows : List (Row F)} {n m p sel col : Nat} (hshape : ∀ row ∈ rows, row.Shape n m)
  (hp : p < rows.length) (hsel : sel < rows.length)
include hshape hp hsel

theorem shape_pivotStep : ∀ row ∈ pivotStep rows p sel col, row.Shape n m := by
  have hswap := (forall_swapRows hp hsel).mpr hshape
  rw [forall_mem_iff_rowAt] at hswap ⊢
  intro i hi
  rw [pivotStep_length] at hi
  rw [rowAt_pivotStep hi]
  split
  · exact Row.shape_scale (hswap p (by rwa [swapRows_length])) _
  · exact Row.shape_clear (hswap i (by rwa [swapRows_length])) _ _

variable (hne : (rowAt rows sel).coef col ≠ 0)
include hne

/-- A pivot step keeps the solution set, in both directions. -/
theorem holds_pivotStep (x s : Nat → F) :
    (∀ row ∈ pivotStep rows p sel col, row.Holds x s) ↔ ∀ row ∈ rows, row.Holds x s := by
  have hswap := (forall_swapRows hp hsel).mpr hshape
  rw [← forall_swapRows (P := Row.Holds x s) hp hsel]
  rw [forall_mem_iff_rowAt] at hswap ⊢
  rw [forall_mem_iff_rowAt, pivotStep_length, swapRows_length]
  rw [swapRows_length] at hswap
  have hpiv : (rowAt (swapRows rows p sel) p).coef col ≠ 0 := by
    rwa [rowAt_swapped_pivot hp hsel]
  have hpshape := Row.shape_scale (hswap p hp) ((rowAt (swapRows rows p sel) p).coef col)⁻¹
  constructor
  · intro h i hi
    have hp' := h p hp
    rw [rowAt_pivotStep hp] at hp'
    simp only [if_true] at hp'
    by_cases hip : i = p
    · rw [hip]
      exact (Row.holds_scale (inv_ne_zero hpiv)).mp hp'
    have hi' := h i hi
    rw [rowAt_pivotStep hi] at hi'
    simp only [hip, if_false] at hi'
    exact (Row.holds_clear (hswap i hi) hpshape hp' col).mp hi'
  · intro h i hi
    have hp' := (Row.holds_scale (inv_ne_zero hpiv)).mpr (h p hp)
    rw [rowAt_pivotStep hi]
    split
    · exact hp'
    · exact (Row.holds_clear (hswap i hi) hpshape hp' col).mpr (h i hi)

end

def findPivot (rows : List (Row F)) (col p : Nat) : Option Nat :=
  (range' p (rows.length - p)).find? fun r => (rowAt rows r).coef col ≠ 0

theorem findPivot_some (h : findPivot rows col p = some sel) :
    p ≤ sel ∧ sel < rows.length ∧ (rowAt rows sel).coef col ≠ 0 := by
  have hmem := mem_of_find?_eq_some h
  have hpred := find?_some h
  rw [mem_range'_1] at hmem
  exact ⟨hmem.1, by omega, by simpa using hpred⟩

theorem findPivot_none (h : findPivot rows col p = none) (hpr : p ≤ r) (hr : r < rows.length) :
    (rowAt rows r).coef col = 0 := by
  have := find?_eq_none.mp h r (mem_range'_1.mpr ⟨hpr, by omega⟩)
  simpa using this

/-- Reduced row echelon form over columns `col, col + 1, …`: a column without a
pivot is skipped. -/
def rref : Nat → Nat → Nat → List (Row F) → List (Row F)
  | 0, _, _, rows => rows
  | fuel + 1, col, p, rows =>
    match findPivot rows col p with
    | none => rref fuel (col + 1) p rows
    | some sel => rref fuel (col + 1) (p + 1) (pivotStep rows p sel col)

theorem rref_sound (fuel col p : Nat) (hshape : ∀ row ∈ rows, row.Shape n m)
    (h : ∀ row ∈ rows, row.Holds x s) :
    ∀ row ∈ rref fuel col p rows, row.Shape n m ∧ row.Holds x s := by
  induction fuel generalizing col p rows with
  | zero => exact fun row hrow => ⟨hshape row hrow, h row hrow⟩
  | succ fuel ih =>
    rw [rref]
    split
    · exact ih _ _ hshape h
    rename_i sel hsel
    obtain ⟨hps, hlt, hne⟩ := findPivot_some hsel
    have hp : p < rows.length := by omega
    exact ih _ _ (shape_pivotStep hshape hp hlt) ((holds_pivotStep hshape hp hlt hne x s).mpr h)

/-- Gauss-Jordan elimination of a square system, column by column with the
pivot on the diagonal; `none` when a column has no pivot left. -/
def gaussJordan : Nat → Nat → List (Row F) → Option (List (Row F))
  | 0, _, rows => some rows
  | fuel + 1, col, rows =>
    match findPivot rows col col with
    | none => none
    | some sel => gaussJordan fuel (col + 1) (pivotStep rows col sel col)

/-- The first `col` columns are those of the identity. -/
def UnitCols (rows : List (Row F)) (col : Nat) : Prop :=
  ∀ i < rows.length, ∀ c < col, (rowAt rows i).coef c = if i = c then 1 else 0

theorem unitCols_pivotStep (hshape : ∀ row ∈ rows, row.Shape n m) (hsel : sel < rows.length)
    (hcs : col ≤ sel) (hne : (rowAt rows sel).coef col ≠ 0) (hunit : UnitCols rows col) :
    UnitCols (pivotStep rows col sel col) (col + 1) := by
  have hcol : col < rows.length := by omega
  have hswap := (forall_swapRows hcol hsel).mpr hshape
  rw [forall_mem_iff_rowAt, swapRows_length] at hswap
  have hpshape := Row.shape_scale (hswap col hcol) ((rowAt (swapRows rows col sel) col).coef col)⁻¹
  have hpiv : ∀ c < col, (rowAt (swapRows rows col sel) col).coef c = 0 := by
    intro c hc
    rw [rowAt_swapped_pivot hcol hsel, hunit sel hsel c hc, if_neg (by omega)]
  intro i hi c hc
  rw [pivotStep_length] at hi
  rw [rowAt_pivotStep hi]
  by_cases hic : i = col
  · rw [if_pos hic, Row.coef_scale]
    by_cases hcc : c = col
    · rw [hcc, if_pos hic, rowAt_swapped_pivot hcol hsel, mul_inv_cancel₀ hne]
    · rw [hpiv c (by omega), zero_mul, if_neg (by omega)]
  rw [if_neg hic, Row.coef_clear (hswap i hi) hpshape, Row.coef_scale]
  by_cases hcc : c = col
  · rw [hcc, rowAt_swapped_pivot hcol hsel, mul_inv_cancel₀ hne, mul_one, sub_self, if_neg hic]
  rw [hpiv c (by omega), zero_mul, mul_zero, sub_zero, rowAt_swapRows hcol hsel, if_neg hic]
  by_cases his : i = sel
  · rw [if_pos his, hunit col hcol c (by omega), if_neg (by omega), if_neg (by omega)]
  · rw [if_neg his, hunit i hi c (by omega)]

/-- The homogeneous system has only the zero solution. -/
def KernelTrivial (rows : List (Row F)) : Prop :=
  ∀ x : Nat → F, (∀ row ∈ rows, row.Holds x (fun _ => 0)) → ∀ c < rows.length, x c = 0

theorem kernelTrivial_pivotStep (hshape : ∀ row ∈ rows, row.Shape n m) (hp : p < rows.length)
    (hsel : sel < rows.length) (hne : (rowAt rows sel).coef col ≠ 0) (hker : KernelTrivial rows) :
    KernelTrivial (pivotStep rows p sel col) := by
  intro x hx c hc
  rw [pivotStep_length] at hc
  exact hker x ((holds_pivotStep hshape hp hsel hne x _).mp hx) c hc

/-- A column without a pivot gives a nonzero solution of the homogeneous system. -/
theorem findPivot_ne_none (hshape : ∀ row ∈ rows, row.Shape rows.length m)
    (hcol : col < rows.length) (hunit : UnitCols rows col) (hker : KernelTrivial rows) :
    findPivot rows col col ≠ none := by
  intro hnone
  let v : Nat → F := fun c =>
    if c = col then 1 else if c < col then -(rowAt rows c).coef col else 0
  have hv : v col = 0 := by
    refine hker v ?_ col hcol
    rw [forall_mem_iff_rowAt] at hshape ⊢
    intro i hi
    rw [Row.Holds, dot_zero, dot_eq_sum, (hshape i hi).1]
    by_cases hic : i < col
    · have hsub : {i, col} ⊆ Finset.range rows.length := by
        intro c hc
        simp only [Finset.mem_insert, Finset.mem_singleton] at hc
        rw [Finset.mem_range]
        omega
      rw [← Finset.sum_subset hsub]
      · rw [Finset.sum_pair (by omega)]
        change (rowAt rows i).coef i * v i + (rowAt rows i).coef col * v col = 0
        simp only [v, hunit i hi i hic, if_true, show i ≠ col by omega, if_false, hic]
        ring
      intro c hc hcn
      simp only [Finset.mem_insert, Finset.mem_singleton, not_or] at hcn
      change (rowAt rows i).coef c * v c = 0
      by_cases hcc : c < col
      · rw [hunit i hi c hcc, if_neg (Ne.symm hcn.1), zero_mul]
      · simp [v, hcn.2, hcc]
    · refine Finset.sum_eq_zero fun c _ => ?_
      change (rowAt rows i).coef c * v c = 0
      rcases lt_trichotomy c col with hcc | hcc | hcc
      · rw [hunit i hi c hcc, if_neg (by omega), zero_mul]
      · rw [hcc, findPivot_none hnone (by omega) hi, zero_mul]
      · simp [v, show c ≠ col by omega, show ¬c < col by omega]
  simp [v] at hv

theorem gaussJordan_spec (fuel col : Nat) (hshape : ∀ row ∈ rows, row.Shape rows.length m)
    (hfuel : col + fuel = rows.length) (hunit : UnitCols rows col) (hker : KernelTrivial rows) :
    ∃ out, gaussJordan fuel col rows = some out ∧ out.length = rows.length ∧
      (∀ row ∈ out, row.Shape rows.length m) ∧ UnitCols out rows.length ∧
      ∀ x s, (∀ row ∈ rows, row.Holds x s) → ∀ row ∈ out, row.Holds x s := by
  induction fuel generalizing col rows with
  | zero =>
    rw [add_zero] at hfuel
    exact ⟨rows, rfl, rfl, hshape, hfuel ▸ hunit, fun _ _ h => h⟩
  | succ fuel ih =>
    have hcol : col < rows.length := by omega
    obtain ⟨sel, hsel⟩ := Option.ne_none_iff_exists'.mp (findPivot_ne_none hshape hcol hunit hker)
    obtain ⟨hcs, hlt, hne⟩ := findPivot_some hsel
    have hlen : (pivotStep rows col sel col).length = rows.length := pivotStep_length ..
    have hshape' : ∀ row ∈ pivotStep rows col sel col,
        row.Shape (pivotStep rows col sel col).length m := by
      rw [hlen]
      exact shape_pivotStep hshape hcol hlt
    obtain ⟨out, hout, hl, hs, hu, hsound⟩ := ih (col + 1) hshape' (by rw [hlen]; omega)
      (unitCols_pivotStep hshape hlt hcs hne hunit)
      (kernelTrivial_pivotStep hshape hcol hlt hne hker)
    rw [hlen] at hl hs hu
    refine ⟨out, ?_, hl, hs, hu, ?_⟩
    · rw [gaussJordan, hsel]
      exact hout
    · intro x s h
      exact hsound x s ((holds_pivotStep hshape hcol hlt hne x s).mpr h)

end SubEtha.Lib
