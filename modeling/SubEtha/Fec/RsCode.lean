import Mathlib.Algebra.Field.Defs
import Mathlib.Algebra.CharP.Two
import Mathlib.Data.Fintype.EquivFin
import SubEtha.Lib.Elimination

namespace SubEtha
open List BitVec Function Lib

/-- A `u8`. Payload bytes are elements of GF(256), so the type carries the
field below rather than arithmetic modulo 256. -/
@[ext] structure Byte where
  bits : BitVec 8
  deriving DecidableEq, Repr, Inhabited

def byte (n : Nat) : Byte := ⟨BitVec.ofNat 8 n⟩

def Byte.toNat (b : Byte) : Nat := b.bits.toNat

theorem Byte.toNat_lt (b : Byte) : b.toNat < 256 := b.bits.isLt

variable {a b : Byte} {i : Nat}

@[simp] theorem toNat_byte (n : Nat) : (byte n).toNat = n % 256 := toNat_ofNat n 8

theorem Byte.toNat_inj (h : a.toNat = b.toNat) : a = b := Byte.ext (eq_of_toNat_eq h)

@[simp] theorem byte_toNat (b : Byte) : byte b.toNat = b :=
  Byte.toNat_inj (by rw [toNat_byte, Nat.mod_eq_of_lt b.toNat_lt])

namespace Gf

/-- One turn of the table loop's running power: `x <<= 1`, reduced by the
primitive polynomial `0x11D` once bit 8 is set. -/
def shift (x : BitVec 16) : BitVec 16 :=
  let y := x <<< 1
  if y &&& 0x100#16 ≠ 0#16 then y ^^^ 0x11D#16 else y

def fillLoop : Nat → Nat → BitVec 16 → List Byte → List Byte → List Byte × List Byte
  | 0, _, _, log, exp => (log, exp)
  | fuel + 1, i, x, log, exp =>
    fillLoop fuel (i + 1) (shift x) (log.set x.toNat (byte i)) (exp.set i (byte x.toNat))

/-- The second period of `EXP`, for multiplication without a modulo. -/
def copyLoop : Nat → Nat → List Byte → List Byte
  | 0, _, exp => exp
  | fuel + 1, j, exp => copyLoop fuel (j + 1) (exp.set j (exp.getD (j - 255) (byte 0)))

def firstPeriod : List Byte × List Byte :=
  fillLoop 255 0 1#16 (replicate 256 (byte 0)) (replicate 512 (byte 0))

def buildTables : List Byte × List Byte :=
  (firstPeriod.1, copyLoop (512 - 255) 255 firstPeriod.2)

def logTable : List Byte := buildTables.1
def expTable : List Byte := buildTables.2

def log (a : Byte) : Nat := (logTable.getD a.toNat (byte 0)).toNat
def exp (i : Nat) : Byte := expTable.getD i (byte 0)

/-- Addition and subtraction are both XOR. -/
def add (a b : Byte) : Byte := ⟨a.bits ^^^ b.bits⟩

def mul (a b : Byte) : Byte :=
  if a = byte 0 ∨ b = byte 0 then byte 0 else exp (log a + log b)

/-- The source asserts `a ≠ 0` in debug builds only; at `0` the table gives 1. -/
def inv (a : Byte) : Byte := exp (255 - log a)

/-- The loop's step seen on the eight bits it keeps. -/
def double (b : Byte) : Byte :=
  ⟨if b.bits.msb then b.bits <<< 1 ^^^ 0x1D#8 else b.bits <<< 1⟩

def widen (b : Byte) : BitVec 16 := b.bits.setWidth 16

theorem shift_widen (b : Byte) : shift (widen b) = widen (double b) := by
  obtain ⟨b⟩ := b
  revert b
  decide +kernel

theorem toNat_widen (b : Byte) : (widen b).toNat = b.toNat :=
  (toNat_setWidth 16 b.bits).trans (Nat.mod_eq_of_lt (by have := b.toNat_lt; omega))

@[simp] theorem fillLoop_exp_length (fuel i : Nat) (x : BitVec 16) (log exp : List Byte) :
    (fillLoop fuel i x log exp).2.length = exp.length := by
  induction fuel generalizing i x log exp with
  | zero => rfl
  | succ fuel ih => simp [fillLoop, ih]

theorem fillLoop_exp (fuel i : Nat) (b : Byte) (log exp : List Byte) (j : Nat)
    (hlen : i + fuel ≤ exp.length) : (fillLoop fuel i (widen b) log exp).2.getD j (byte 0) =
      if i ≤ j ∧ j < i + fuel then double^[j - i] b else exp.getD j (byte 0) := by
  induction fuel generalizing i b log exp with
  | zero =>
    rw [if_neg (by omega)]
    rfl
  | succ fuel ih =>
    simp only [fillLoop, shift_widen, toNat_widen, byte_toNat]
    rw [ih (i + 1) (double b) _ _ (by rw [length_set]; omega)]
    rcases Nat.lt_trichotomy j i with hj | rfl | hj
    · rw [if_neg (by omega), if_neg (by omega)]
      simp [getD_eq_getElem?_getD, show i ≠ j by omega]
    · rw [if_neg (by omega), if_pos (by omega), Nat.sub_self]
      simp [getD_eq_getElem?_getD, show j < exp.length by omega]
    by_cases hin : j < i + (fuel + 1)
    · rw [if_pos (by omega), if_pos (by omega), show j - i = (j - (i + 1)) + 1 by omega]
      rfl
    · rw [if_neg (by omega), if_neg (by omega)]
      simp [getD_eq_getElem?_getD, show i ≠ j by omega]

theorem fillLoop_log_keep (fuel i : Nat) (b c : Byte) (log exp : List Byte)
    (hne : ∀ j < fuel, double^[j] b ≠ c) :
    (fillLoop fuel i (widen b) log exp).1.getD c.toNat (byte 0) = log.getD c.toNat (byte 0) := by
  induction fuel generalizing i b log exp with
  | zero => rfl
  | succ fuel ih =>
    simp only [fillLoop, shift_widen, toNat_widen]
    rw [ih (i + 1) (double b) _ _ (fun j hj => hne (j + 1) (by omega))]
    have hb : b.toNat ≠ c.toNat := fun h => hne 0 (by omega) (Byte.toNat_inj h)
    simp [getD_eq_getElem?_getD, hb]

theorem fillLoop_log (fuel i j : Nat) (b : Byte) (log exp : List Byte) (hj : j < fuel)
    (hlen : log.length = 256) (hne : ∀ j', j < j' → j' < fuel → double^[j'] b ≠ double^[j] b) :
    (fillLoop fuel i (widen b) log exp).1.getD (double^[j] b).toNat (byte 0) = byte (i + j) := by
  induction fuel generalizing i j b log exp with
  | zero => omega
  | succ fuel ih =>
    simp only [fillLoop, shift_widen, toNat_widen]
    cases j with
    | zero =>
      rw [fillLoop_log_keep fuel (i + 1) (double b) (double^[0] b) _ _
        (fun j hj => hne (j + 1) (by omega) (by omega))]
      have hb : b.toNat < log.length := by rw [hlen]; exact b.toNat_lt
      simp [getD_eq_getElem?_getD, hb]
    | succ j =>
      rw [show i + (j + 1) = (i + 1) + j by omega]
      exact ih (i + 1) j (double b) _ _ (by omega) (by rw [length_set, hlen])
        (fun j' h h' => hne (j' + 1) (by omega) (by omega))

theorem copyLoop_periodic (g : Nat → Byte) (hg : ∀ i, g (i + 255) = g i) (fuel j : Nat)
    (exp : List Byte) (hj : 255 ≤ j) (hlen : j + fuel ≤ exp.length)
    (h : ∀ i < j, exp.getD i (byte 0) = g i) :
    ∀ i < j + fuel, (copyLoop fuel j exp).getD i (byte 0) = g i := by
  induction fuel generalizing j exp with
  | zero => exact h
  | succ fuel ih =>
    intro i hi
    refine ih (j + 1) _ (by omega) (by rw [length_set]; omega) ?_ i (by omega)
    intro i hi
    by_cases hij : i = j
    · subst hij
      have := hg (i - 255)
      rw [Nat.sub_add_cancel hj] at this
      rw [this, ← h (i - 255) (by omega)]
      simp [getD_eq_getElem?_getD, show i < exp.length by omega]
    · rw [← h i (by omega)]
      simp [getD_eq_getElem?_getD, show j ≠ i by omega]

theorem order_two : ∀ i < 254, double^[i + 1] (byte 1) ≠ byte 1 := by decide +kernel

theorem double_period_one : double^[255] (byte 1) = byte 1 := by decide +kernel

theorem add_assoc (a b c : Byte) : add (add a b) c = add a (add b c) :=
  Byte.ext (BitVec.xor_assoc ..)

theorem add_comm (a b : Byte) : add a b = add b a := Byte.ext (BitVec.xor_comm ..)

theorem add_zero (a : Byte) : add a (byte 0) = a := Byte.ext xor_zero

theorem add_self (a : Byte) : add a a = byte 0 := Byte.ext xor_self

theorem add_left_cancel (a b : Byte) : add a (add a b) = b := by
  rw [← add_assoc, add_self, add_comm, add_zero]

theorem double_add (a b : Byte) : double (add a b) = add (double a) (double b) := by
  have hself (x y c : BitVec 8) : x ^^^ y = (x ^^^ c) ^^^ (y ^^^ c) := by
    rw [BitVec.xor_assoc, BitVec.xor_comm y, ← BitVec.xor_assoc c, BitVec.xor_self, zero_xor]
  apply Byte.ext
  simp only [double, add, shiftLeft_xor_distrib, msb_xor]
  cases a.bits.msb <;> cases b.bits.msb
  · rfl
  · exact BitVec.xor_assoc ..
  · simp only [Bool.xor_false, if_true, Bool.false_eq_true, if_false]
    rw [BitVec.xor_assoc, BitVec.xor_assoc, BitVec.xor_comm (b.bits <<< 1)]
  · exact hself ..

theorem double_eq_zero (b : Byte) (h : double b = byte 0) : b = byte 0 := by
  have hall : ∀ n < 256, double (byte n) = byte 0 → n = 0 := by decide +kernel
  rw [← byte_toNat b] at h ⊢
  rw [hall _ b.toNat_lt h]

theorem double_injective : Function.Injective double := by
  intro a b h
  have hz : add a b = byte 0 := double_eq_zero _ (by rw [double_add, h, add_self])
  rw [← add_left_cancel a b, hz, add_zero]

theorem power_ne (h : i < j) (hj : j < 255) : double^[j] (byte 1) ≠ double^[i] (byte 1) := by
  intro heq
  rw [show j = i + (j - i) by omega, iterate_add_apply] at heq
  refine order_two (j - i - 1) (by omega) ?_
  rw [show j - i - 1 + 1 = j - i by omega]
  exact double_injective.iterate i heq

theorem zero_ne_one : byte 0 ≠ byte 1 := by decide

theorem double_zero : double (byte 0) = byte 0 := by decide

theorem power_ne_zero (i : Nat) : double^[i] (byte 1) ≠ byte 0 := by
  rw [← iterate_fixed double_zero i]
  exact (double_injective.iterate i).ne zero_ne_one.symm

theorem exists_power (hb : b ≠ byte 0) : ∃ i < 255, double^[i] (byte 1) = b := by
  let f : Fin 256 → Fin 256 := fun i =>
    if i.val = 255 then 0 else ⟨(double^[i.val] (byte 1)).toNat, Byte.toNat_lt _⟩
  have hzero {c : Byte} (h : (0 : Fin 256) = ⟨c.toNat, c.toNat_lt⟩) : c = byte 0 :=
    Byte.toNat_inj (congrArg Fin.val h).symm
  have hinj : Function.Injective f := by
    intro i j h
    apply Fin.ext
    by_cases hi : i.val = 255 <;> by_cases hj : j.val = 255
    · omega
    · simp only [f, hi, hj, if_true, if_false] at h
      exact absurd (hzero h) (power_ne_zero _)
    · simp only [f, hi, hj, if_true, if_false] at h
      exact absurd (hzero h.symm) (power_ne_zero _)
    simp only [f, hi, hj, if_false, Fin.mk.injEq] at h
    have h := Byte.toNat_inj h
    rcases Nat.lt_trichotomy i.val j.val with hlt | heq | hgt
    · exact absurd h.symm (power_ne hlt (by omega))
    · exact heq
    · exact absurd h (power_ne hgt (by omega))
  obtain ⟨i, hi⟩ := (Finite.injective_iff_surjective.1 hinj) ⟨b.toNat, b.toNat_lt⟩
  by_cases hlast : i.val = 255
  · simp only [f, hlast, if_true] at hi
    exact absurd (hzero hi) hb
  · simp only [f, hlast, if_false, Fin.mk.injEq] at hi
    exact ⟨i.val, by omega, Byte.toNat_inj hi⟩

theorem power_periodic (i : Nat) : double^[i + 255] (byte 1) = double^[i] (byte 1) := by
  rw [iterate_add_apply, double_period_one]

theorem one_eq_widen : 1#16 = widen (byte 1) := by decide

theorem exp_power (hi : i < 512) : exp i = double^[i] (byte 1) := by
  have hfill : ∀ j < 255, firstPeriod.2.getD j (byte 0) = double^[j] (byte 1) := by
    intro j hj
    rw [firstPeriod, one_eq_widen, fillLoop_exp _ _ _ _ _ _ (by rw [length_replicate]; omega),
      if_pos (by omega), Nat.sub_zero]
  have hlen : 255 + (512 - 255) ≤ firstPeriod.2.length := by
    simp only [firstPeriod, fillLoop_exp_length, length_replicate]
    omega
  have hcopy := copyLoop_periodic (fun i => double^[i] (byte 1)) power_periodic (512 - 255) 255
    firstPeriod.2 (by omega) hlen hfill i (by omega)
  simpa only [exp, expTable, buildTables] using hcopy

theorem log_power (hi : i < 255) : log (double^[i] (byte 1)) = i := by
  have h := fillLoop_log 255 0 i (byte 1) (replicate 256 (byte 0))
    (replicate 512 (byte 0)) hi length_replicate (fun j hij hj => power_ne hij hj)
  rw [log, logTable, buildTables, firstPeriod, one_eq_widen, h, toNat_byte]
  omega

theorem power_log (hb : b ≠ byte 0) : double^[log b] (byte 1) = b := by
  obtain ⟨i, hi, rfl⟩ := exists_power hb
  rw [log_power hi]

theorem log_lt (hb : b ≠ byte 0) : log b < 255 := by
  obtain ⟨i, hi, rfl⟩ := exists_power hb
  rwa [log_power hi]

theorem mul_eq_iterate (ha : a ≠ byte 0) (b : Byte) : mul a b = double^[log a] b := by
  by_cases hb : b = byte 0
  · rw [mul, if_pos (.inr hb), hb, iterate_fixed double_zero]
  have := log_lt ha
  have := log_lt hb
  rw [mul, if_neg (by simp [ha, hb]), exp_power (by omega), iterate_add_apply, power_log hb]

theorem zero_mul (a : Byte) : mul (byte 0) a = byte 0 := if_pos (.inl rfl)

theorem mul_comm (a b : Byte) : mul a b = mul b a := by
  simp [mul, Or.comm, Nat.add_comm]

theorem mul_assoc (a b c : Byte) : mul (mul a b) c = mul a (mul b c) := by
  by_cases ha : a = byte 0
  · rw [ha, zero_mul, zero_mul, zero_mul]
  by_cases hc : c = byte 0
  · rw [hc, mul_comm, zero_mul, mul_comm b, zero_mul, mul_comm, zero_mul]
  rw [mul_comm (mul a b), mul_comm b, mul_eq_iterate hc, mul_eq_iterate ha, mul_eq_iterate ha,
    mul_eq_iterate hc, ← iterate_add_apply, ← iterate_add_apply, Nat.add_comm]

theorem iterate_double_add (n : Nat) (a b : Byte) :
    double^[n] (add a b) = add (double^[n] a) (double^[n] b) := by
  induction n generalizing a b with
  | zero => rfl
  | succ n ih => rw [iterate_succ_apply, double_add, ih]; rfl

theorem mul_add (a b c : Byte) : mul a (add b c) = add (mul a b) (mul a c) := by
  by_cases ha : a = byte 0
  · rw [ha, zero_mul, zero_mul, zero_mul, add_zero]
  · rw [mul_eq_iterate ha, mul_eq_iterate ha, mul_eq_iterate ha, iterate_double_add]

theorem one_mul (a : Byte) : mul (byte 1) a = a := by
  have hlog : log (byte 1) = 0 := log_power (i := 0) (by omega)
  rw [mul_eq_iterate zero_ne_one.symm, hlog]
  rfl

theorem mul_inv_cancel (ha : a ≠ byte 0) : mul a (inv a) = byte 1 := by
  have := log_lt ha
  rw [inv, exp_power (by omega), mul_eq_iterate ha, ← iterate_add_apply,
    show log a + (255 - log a) = 255 by omega, double_period_one]

end Gf

instance : Zero Byte := ⟨byte 0⟩
instance : One Byte := ⟨byte 1⟩
instance : Add Byte := ⟨Gf.add⟩
instance : Neg Byte := ⟨id⟩
instance : Mul Byte := ⟨Gf.mul⟩
instance : Inv Byte := ⟨fun a => if a = byte 0 then byte 0 else Gf.inv a⟩

/-- GF(256) as the tables compute it. -/
instance : Field Byte where
  add_assoc := Gf.add_assoc
  add_comm := Gf.add_comm
  add_zero := Gf.add_zero
  zero_add a := (Gf.add_comm _ a).trans (Gf.add_zero a)
  neg_add_cancel := Gf.add_self
  nsmul := nsmulRec
  zsmul := zsmulRec
  mul_assoc := Gf.mul_assoc
  mul_comm := Gf.mul_comm
  one_mul := Gf.one_mul
  mul_one a := (Gf.mul_comm a _).trans (Gf.one_mul a)
  zero_mul := Gf.zero_mul
  mul_zero a := (Gf.mul_comm a _).trans (Gf.zero_mul a)
  left_distrib := Gf.mul_add
  right_distrib a b c := by
    change Gf.mul (Gf.add a b) c = Gf.add (Gf.mul a c) (Gf.mul b c)
    rw [Gf.mul_comm, Gf.mul_add, Gf.mul_comm c, Gf.mul_comm c]
  exists_pair_ne := ⟨byte 0, byte 1, Gf.zero_ne_one⟩
  mul_inv_cancel a ha := by
    change Gf.mul a (if a = byte 0 then byte 0 else Gf.inv a) = byte 1
    rw [if_neg (show a ≠ byte 0 from ha), Gf.mul_inv_cancel ha]
  inv_zero := if_pos rfl
  nnqsmul := _
  qsmul := _

theorem byte_zero : byte 0 = 0 := rfl

theorem byte_one : byte 1 = 1 := rfl

theorem Gf.add_eq (a b : Byte) : Gf.add a b = a + b := rfl

theorem Gf.inv_eq (ha : a ≠ 0) : Gf.inv a = a⁻¹ := (if_neg ha).symm

theorem Byte.sub_eq_add (a b : Byte) : a - b = a + b := sub_eq_add_neg a b

inductive FecError
  | badParams
  | tooFewShards
  | badShardLen
  deriving DecidableEq, Repr

def xorInto : List Byte → List Byte → List Byte
  | [], _ => []
  | o :: out, [] => o :: out
  | o :: out, s :: src => Gf.add o s :: xorInto out src

def gfMulAddScalar (out src : List Byte) (coef : Byte) : List Byte := addMul out src coef

/-- `out[i] ^= coef * src[i]`. On slices of one length, every hardware rung
computes this scalar loop. -/
def gfMulAdd (out src : List Byte) (coef : Byte) : List Byte :=
  if coef = byte 0 then out
  else if coef = byte 1 then xorInto out src
  else gfMulAddScalar out src coef

def cauchyEntry (k j c : Nat) : Byte := Gf.inv (Gf.add (byte (k + j)) (byte c))

def cauchyRows (k r : Nat) : List (List Byte) :=
  (range r).map fun j => (range k).map (cauchyEntry k j)

/-- A systematic Cauchy Reed-Solomon code. The fields are private to `new`, so
every code in the program satisfies its parameter check. -/
structure RsCode where
  k : Nat
  r : Nat
  cauchy : List (List Byte)
  k_pos : 0 < k
  r_pos : 0 < r
  fits : k + r ≤ 256
  cauchy_eq : cauchy = cauchyRows k r

/-- `k + r` shard slots, data first; `none` is a lost shard. -/
abbrev Shards := List (Option (List Byte))

def invert (m : List (List Byte)) (n : Nat) : Option (List (List Byte)) :=
  let rows := m.mapIdx fun i row =>
    ⟨row, (range n).map fun c => if i = c then byte 1 else byte 0⟩
  (gaussJordan n 0 rows).map fun rows => rows.map Row.rhs

/-- Positions of the first `k` received shards, with the length they share;
`len` is `0` until a nonempty shard has been seen. -/
def pickSurvivors (k : Nat) : Nat → Shards → List Nat → Nat → Except FecError (List Nat × Nat)
  | _, [], surv, len => .ok (surv, len)
  | idx, none :: shards, surv, len => pickSurvivors k (idx + 1) shards surv len
  | idx, some v :: shards, surv, len =>
    if surv.length < k then
      if len = 0 then pickSurvivors k (idx + 1) shards (surv ++ [idx]) v.length
      else if v.length ≠ len then .error .badShardLen
      else pickSurvivors k (idx + 1) shards (surv ++ [idx]) len
    else pickSurvivors k (idx + 1) shards surv len

namespace RsCode

def new (k r : Nat) : Except FecError RsCode :=
  if h : k = 0 ∨ r = 0 ∨ k + r > 256 then .error .badParams
  else .ok ⟨k, r, cauchyRows k r, by omega, by omega, by omega, rfl⟩

/-- The accumulation loop of `encode` and `decode`: zero coefficients are skipped. -/
def accumulate (k : Nat) (coef : Nat → Byte) (src : Nat → List Byte) (len : Nat) : List Byte :=
  (range k).foldl
    (fun out c => if coef c ≠ byte 0 then gfMulAdd out (src c) (coef c) else out)
    (replicate len (byte 0))

variable (code : RsCode)

def parityRow (data : List (List Byte)) (len j : Nat) : List Byte :=
  accumulate code.k (fun c => (code.cauchy.getD j []).getD c (byte 0)) (fun c => data.getD c []) len

/-- `parity` holds the caller's buffers; only their number and lengths matter. -/
def encode (data parity : List (List Byte)) : Except FecError (List (List Byte)) :=
  if data.length ≠ code.k ∨ parity.length ≠ code.r then .error .badParams
  else
    let len := (data.getD 0 []).length
    if len = 0 ∨ data.any (fun s => s.length != len) ∨ parity.any (fun s => s.length != len) then
      .error .badShardLen
    else .ok ((range code.r).map (code.parityRow data len))

/-- Entry `(row, col)` of the full encoding matrix `[I ; Cauchy]`. -/
def encEntry (row col : Nat) : Byte :=
  if row < code.k then if row = col then byte 1 else byte 0
  else (code.cauchy.getD (row - code.k) []).getD col (byte 0)

/-- `data[i] = ∑ j, inv[i][j] * survivor[j]` for one lost data shard. -/
def recoverShard (surv : List Nat) (inv : List (List Byte)) (len : Nat)
    (shards : Shards) (i : Nat) : List Byte :=
  accumulate code.k (fun j => (inv.getD i []).getD j (byte 0))
    (fun j => (shards.getD (surv.getD j 0) none).getD []) len

def fillMissing (surv : List Nat) (inv : List (List Byte)) (len : Nat) (shards : Shards) : Shards :=
  (range code.k).foldl
    (fun shards i =>
      if (shards.getD i none).isSome then shards
      else shards.set i (some (code.recoverShard surv inv len shards i)))
    shards

/-- The result and the shard vector as `decode` leaves it. -/
def decode (shards : Shards) : Except FecError Unit × Shards :=
  if shards.length ≠ code.k + code.r then (.error .badParams, shards)
  else if (range code.k).all fun i => (shards.getD i none).isSome then (.ok (), shards)
  else
    match pickSurvivors code.k 0 shards [] 0 with
    | .error e => (.error e, shards)
    | .ok (surv, len) =>
      if surv.length < code.k ∨ len = 0 then (.error .tooFewShards, shards)
      else
        let a := surv.map fun pos => (range code.k).map (code.encEntry pos)
        match invert a code.k with
        | none => (.error .tooFewShards, shards)
        | some inv => (.ok (), code.fillMissing surv inv len shards)

end RsCode

end SubEtha
