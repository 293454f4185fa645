import Mathlib.LinearAlgebra.Lagrange

namespace SubEtha.Lib
open Finset Polynomial

variable {F ι κ : Type*} [Field F] [DecidableEq ι]

/-- The common numerator of `∑ i ∈ s, x i / (X - u i)`. -/
noncomputable def cauchyNumerator (s : Finset ι) (u x : ι → F) : F[X] :=
  ∑ i ∈ s, C (x i) * ∏ j ∈ s.erase i, (X - C (u j))

section
variable (s : Finset ι) (u x : ι → F)

theorem cauchyNumerator_degree_lt : (cauchyNumerator s u x).degree < #s := by
  refine (degree_sum_le _ _).trans_lt ?_
  rw [Finset.sup_lt_iff (WithBot.bot_lt_coe _)]
  intro i hi
  have hprod : (∏ j ∈ s.erase i, (X - C (u j))).degree = (#(s.erase i) : WithBot ℕ) := by
    rw [degree_prod]
    simp
  calc (C (x i) * ∏ j ∈ s.erase i, (X - C (u j))).degree
      ≤ (C (x i)).degree + (∏ j ∈ s.erase i, (X - C (u j))).degree := degree_mul_le _ _
    _ ≤ 0 + (#(s.erase i) : WithBot ℕ) := by
        rw [hprod]
        exact add_le_add degree_C_le le_rfl
    _ < #s := by
        rw [zero_add]
        exact_mod_cast Finset.card_erase_lt_of_mem hi

theorem eval_cauchyNumerator (y : F) (hy : ∀ i ∈ s, y ≠ u i) :
    (cauchyNumerator s u x).eval y = (∏ i ∈ s, (y - u i)) * ∑ i ∈ s, x i * (y - u i)⁻¹ := by
  rw [cauchyNumerator, eval_finsetSum, Finset.mul_sum]
  refine Finset.sum_congr rfl fun i hi => ?_
  have hne : y - u i ≠ 0 := sub_ne_zero.mpr (hy i hi)
  rw [eval_mul, eval_C, eval_prod, ← Finset.mul_prod_erase s _ hi]
  simp only [eval_sub, eval_X, eval_C]
  field_simp

theorem eval_cauchyNumerator_node (hi : i ∈ s) :
    (cauchyNumerator s u x).eval (u i) = x i * ∏ j ∈ s.erase i, (u i - u j) := by
  rw [cauchyNumerator, eval_finsetSum, Finset.sum_eq_single i]
  · simp [eval_prod]
  · intro j _ hji
    have hz : ∏ l ∈ s.erase j, eval (u i) (X - C (u l)) = 0 :=
      Finset.prod_eq_zero (Finset.mem_erase.mpr ⟨hji.symm, hi⟩) (by simp)
    rw [eval_mul, eval_prod, hz, mul_zero]
  · exact fun h => absurd hi h

end

/-- A Cauchy system with at least as many equations as unknowns has only the
zero solution. -/
theorem cauchy_kernel_trivial {s : Finset ι} {t : Finset κ} {u x : ι → F} {v : κ → F}
    (hu : Set.InjOn u s) (hv : Set.InjOn v t) (huv : ∀ i ∈ s, ∀ j ∈ t, v j ≠ u i)
    (hcard : #s ≤ #t) (hsum : ∀ j ∈ t, ∑ i ∈ s, x i * (v j - u i)⁻¹ = 0) : ∀ i ∈ s, x i = 0 := by
  have hzero : cauchyNumerator s u x = 0 := by
    refine eq_zero_of_degree_lt_of_eval_index_eq_zero t hv ?_ ?_
    · exact (cauchyNumerator_degree_lt s u x).trans_le (by exact_mod_cast hcard)
    · intro j hj
      rw [eval_cauchyNumerator s u x (v j) (fun i hi => huv i hi j hj), hsum j hj, mul_zero]
  intro i hi
  have heval := eval_cauchyNumerator_node s u x hi
  rw [hzero, eval_zero] at heval
  refine (mul_eq_zero.mp heval.symm).resolve_right ?_
  refine Finset.prod_ne_zero_iff.mpr ?_
  intro j hj
  obtain ⟨hji, hjs⟩ := Finset.mem_erase.mp hj
  exact sub_ne_zero.mpr fun h => hji (hu hi hjs h).symm

end SubEtha.Lib
