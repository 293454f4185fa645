import Mathlib.Data.Nat.Count
import Mathlib.Logic.Function.Basic

namespace SubEtha.Lib
open Function List BitVec

def isPowerOfTwo (n : Nat) : Prop := 2 ^ n.log2 = n
deriving Decidable

variable {w n : Nat} (words : Nat → BitVec w)

theorem getLsbD_twoPow_sub_one (h : n < w) (i : Nat) :
    (twoPow w n - 1).getLsbD i = decide (i < n) := by
  have hpow : 2 ^ n < 2 ^ w := Nat.pow_lt_pow_right (by decide) h
  have hpos : 0 < 2 ^ n := Nat.two_pow_pos _
  have hone : (1 : BitVec w).toNat = 1 := Nat.mod_eq_of_lt (Nat.lt_of_le_of_lt hpos hpow)
  have htwo : (twoPow w n).toNat = 2 ^ n := by rw [toNat_twoPow, Nat.mod_eq_of_lt hpow]
  rw [← testBit_toNat, toNat_sub_of_le (by rw [le_def]; omega), htwo, hone,
    Nat.testBit_two_pow_sub_one]

/-- Bit `i` of an array of words. -/
def bitOf (i : Nat) : Bool := (words (i / w)).getLsbD (i % w)

theorem bitOf_update (k : Nat) (x : BitVec w) (i : Nat) : bitOf (update words k x) i =
      if i / w = k then x.getLsbD (i % w) else bitOf words i := by
  rw [bitOf, update_apply]
  split <;> rfl

def storeAll (x : BitVec w) (first last : Nat) : Nat → BitVec w :=
  (range' first (last - first)).foldl (fun ws k => update ws k x) words

theorem bitOf_storeAll (x : BitVec w) (first last i : Nat) : bitOf (storeAll words x first last) i =
      if first ≤ i / w ∧ i / w < last then x.getLsbD (i % w) else bitOf words i := by
  unfold storeAll
  generalize hn : last - first = n
  induction n generalizing first words with
  | zero => rw [if_neg (by omega)]; rfl
  | succ n ih =>
    rw [range'_succ, foldl_cons, ih _ (first + 1) (by omega), bitOf_update]
    by_cases hk : i / w = first
    · rw [if_neg (by omega), if_pos hk, if_pos (by omega)]
    rw [if_neg hk]
    congr 1
    rw [eq_iff_iff]
    omega

theorem count_congr {p q : Nat → Prop} [DecidablePred p] [DecidablePred q]
    (h : ∀ i < n, p i ↔ q i) : Nat.count p n = Nat.count q n :=
  Nat.le_antisymm (Nat.count_mono_left fun i hi => (h i hi).mp)
    (Nat.count_mono_left fun i hi => (h i hi).mpr)

theorem count_bitOf (hw : 0 < w) (n : Nat) :
    (range n).foldl (fun sum k => sum + Nat.count (fun i => (words k).getLsbD i) w) 0 =
      Nat.count (fun i => bitOf words i) (n * w) := by
  induction n with
  | zero => simp
  | succ n ih =>
    rw [range_succ, foldl_concat, ih, Nat.succ_mul, Nat.count_add, Nat.add_right_inj]
    apply count_congr
    intro i hi
    simp [bitOf, Nat.mul_comm n w, Nat.mul_add_div hw, Nat.div_eq_of_lt hi, Nat.mod_eq_of_lt hi]

end SubEtha.Lib
