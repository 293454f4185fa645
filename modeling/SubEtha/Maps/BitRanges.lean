import SubEtha.Lib.Bits

namespace SubEtha.Maps
open Function Option Lib BitVec

inductive BitVecError
  | outOfBounds
  deriving DecidableEq

inductive RangeOp
  | set
  | clear

structure SharedBitVec where
  capacityBits : Nat
  wordCount : Nat
  words : Nat → BitVec 64

inductive BitVecCall
  | set (i : Nat)
  | clear (i : Nat)
  | setRange (lo hi : Nat)
  | clearRange (lo hi : Nat)
  | setAll
  | clearAll

namespace RangeOp

def value : RangeOp → Bool
  | set => true
  | clear => false

def fetch (mask x : BitVec 64) : RangeOp → BitVec 64
  | set => x ||| mask
  | clear => x &&& ~~~mask

/-- What a word that is covered whole is stored as. -/
def full : RangeOp → BitVec 64
  | set => allOnes 64
  | clear => 0

end RangeOp

namespace SharedBitVec

variable (v : SharedBitVec)

def create (capacityBits : Nat) : SharedBitVec :=
  ⟨capacityBits, (capacityBits + 63) / 64, fun _ => 0⟩

/-- `u64::MAX` for a whole word, `(1 << n) - 1` otherwise. -/
def lowMask (n : Nat) : BitVec 64 := if n = 64 then allOnes 64 else twoPow 64 n - 1

def get (i : Nat) : Except BitVecError Bool :=
  if v.capacityBits ≤ i then .error .outOfBounds
  else .ok (v.words (i / 64) &&& twoPow 64 (i % 64) != 0)

def fetch (op : RangeOp) (w : Nat) (mask : BitVec 64) : SharedBitVec :=
  { v with words := update v.words w (op.fetch mask (v.words w)) }

/-- `set` and `clear`; also the bit before. -/
def bitOp (op : RangeOp) (i : Nat) : Except BitVecError (SharedBitVec × Bool) :=
  if v.capacityBits ≤ i then .error .outOfBounds
  else
    let mask := twoPow 64 (i % 64)
    .ok (v.fetch op (i / 64) mask, v.words (i / 64) &&& mask != 0)

def set := v.bitOp .set

def clear := v.bitOp .clear

def rangeOp (lo hi : Nat) (op : RangeOp) : SharedBitVec :=
  let loWord := lo / 64
  let hiWord := (hi - 1) / 64
  let loBit := lo % 64
  let hiBitExcl := hi - hiWord * 64
  if loWord = hiWord then
    let count := hi - lo
    v.fetch op loWord (if count = 64 then allOnes 64 else (twoPow 64 count - 1) <<< loBit)
  else
    let first := v.fetch op loWord (~~~(twoPow 64 loBit - 1))
    let inner := { first with words := storeAll first.words op.full (loWord + 1) hiWord }
    inner.fetch op hiWord (lowMask hiBitExcl)

/-- `set_range` and `clear_range`. -/
def range (op : RangeOp) (lo hi : Nat) : Except BitVecError SharedBitVec :=
  if lo > hi ∨ hi > v.capacityBits then .error .outOfBounds
  else .ok (if lo ≠ hi then v.rangeOp lo hi op else v)

def setRange := v.range .set

def clearRange := v.range .clear

def countOnes : Nat :=
  (List.range v.wordCount).foldl (fun sum w =>
    sum + Nat.count (fun i => (v.words w).getLsbD i) 64) 0

def setAll : SharedBitVec :=
  if v.wordCount = 0 then v
  else
    let fullWords := v.wordCount - 1
    let lastWordBits := v.capacityBits - fullWords * 64
    let words := storeAll v.words (allOnes 64) 0 fullWords
    { v with words := update words fullWords (lowMask lastWordBits) }

def clearAll : SharedBitVec := { v with words := storeAll v.words 0 0 v.wordCount }

def step : BitVecCall → SharedBitVec
  | .set i => ((v.set i).toOption.map Prod.fst).getD v
  | .clear i => ((v.clear i).toOption.map Prod.fst).getD v
  | .setRange lo hi => (v.setRange lo hi).toOption.getD v
  | .clearRange lo hi => (v.clearRange lo hi).toOption.getD v
  | .setAll => v.setAll
  | .clearAll => v.clearAll

end SharedBitVec

namespace BitVecCall

def value : BitVecCall → Bool
  | set _ | setRange .. | setAll => true
  | clear _ | clearRange .. | clearAll => false

/-- The bits a call names, `[lo, hi)` for a range. -/
def Names (capacity i : Nat) : BitVecCall → Prop
  | set j | clear j => i = j ∧ j < capacity
  | setRange lo hi | clearRange lo hi => (lo ≤ i ∧ i < hi) ∧ hi ≤ capacity
  | setAll | clearAll => i < capacity

instance (capacity i : Nat) : DecidablePred (Names capacity i) := fun c => by
  cases c <;> unfold Names <;> infer_instance

end BitVecCall

namespace SharedBitVec

variable {v : SharedBitVec} (op : RangeOp) (i : Nat)

theorem getLsbD_lowMask (h : n ≤ 64) (hi : i < 64) : (lowMask n).getLsbD i = decide (i < n) := by
  unfold lowMask
  split
  · rw [getLsbD_allOnes, decide_eq_decide]
    omega
  · exact getLsbD_twoPow_sub_one (by omega) i

theorem get_eq (h : i < v.capacityBits) : v.get i = .ok (bitOf v.words i) := by
  have hmod : i % 64 < 64 := Nat.mod_lt _ (by decide)
  have hne : twoPow 64 (i % 64) ≠ 0 := by
    intro h
    simpa [hmod] using congrArg (getLsbD · (i % 64)) h
  have hbit : (v.words (i / 64) &&& twoPow 64 (i % 64) != 0) = bitOf v.words i := by
    rw [and_twoPow, bitOf]
    split <;> simp_all
  rw [get, if_neg (by omega), hbit]

theorem bitOf_fetch (w : Nat) (mask : BitVec 64) : bitOf (v.fetch op w mask).words i =
    if i / 64 = w ∧ mask.getLsbD (i % 64) then op.value else bitOf v.words i := by
  have hmod : i % 64 < 64 := Nat.mod_lt _ (by decide)
  rw [fetch, bitOf_update]
  by_cases hw : i / 64 = w
  · subst hw
    cases op <;> cases hm : mask.getLsbD (i % 64) <;>
      simp only [RangeOp.fetch, RangeOp.value, bitOf, getLsbD_or, getLsbD_and, getLsbD_not, hm,
        hmod] <;> simp
  · simp [hw]

theorem getLsbD_full (h : i < 64) : op.full.getLsbD i = op.value := by
  cases op with
  | set => rw [RangeOp.full, getLsbD_allOnes, decide_eq_true h, RangeOp.value]
  | clear => exact getLsbD_zero

theorem bitOf_bitOp : bitOf (((v.bitOp op j).toOption.map Prod.fst).getD v).words i =
    if i = j ∧ j < v.capacityBits then op.value else bitOf v.words i := by
  unfold bitOp
  split
  · rw [if_neg (by omega)]
    rfl
  simp only [Except.toOption, map_some, getD_some, bitOf_fetch, getLsbD_twoPow]
  congr 1
  simp
  omega

theorem bitOf_rangeOp (h : lo < hi) : bitOf (v.rangeOp lo hi op).words i =
    if lo ≤ i ∧ i < hi then op.value else bitOf v.words i := by
  have hmod : i % 64 < 64 := Nat.mod_lt _ (by decide)
  unfold rangeOp
  dsimp only
  split
  · rw [bitOf_fetch]
    split
    · rw [getLsbD_allOnes]
      grind
    · rw [getLsbD_shiftLeft, getLsbD_twoPow_sub_one (by omega)]
      grind
  · -- the last word's mask, the whole words and the first word's mask, in this order
    rw [bitOf_fetch, bitOf_storeAll, bitOf_fetch, getLsbD_full _ _ hmod,
      getLsbD_lowMask _ (by omega) hmod, getLsbD_not, getLsbD_twoPow_sub_one (by omega)]
    grind

theorem bitOf_range : bitOf ((v.range op lo hi).toOption.getD v).words i =
    if (lo ≤ i ∧ i < hi) ∧ hi ≤ v.capacityBits then op.value else bitOf v.words i := by
  unfold range
  split
  · rw [if_neg (by omega)]
    rfl
  simp only [Except.toOption, getD_some]
  split
  · rw [bitOf_rangeOp op i (by omega)]
    congr 1
    simp
    omega
  · rw [if_neg (by omega)]

/-- No bit of the last word past the capacity is ever set. -/
structure Sound (v : SharedBitVec) : Prop where
  words : v.wordCount = (v.capacityBits + 63) / 64
  padding : ∀ i, v.capacityBits ≤ i → bitOf v.words i = false

theorem bitOf_setAll (h : v.Sound) :
    bitOf v.setAll.words i = if i < v.capacityBits then true else bitOf v.words i := by
  have hmod : i % 64 < 64 := Nat.mod_lt _ (by decide)
  have hwords := h.words
  have hpadding := h.padding i
  unfold setAll
  split
  · rw [if_neg (by omega)]
  rw [bitOf_update, bitOf_storeAll, getLsbD_allOnes, getLsbD_lowMask _ (by omega) hmod]
  grind

theorem bitOf_clearAll (h : v.Sound) :
    bitOf v.clearAll.words i = if i < v.capacityBits then false else bitOf v.words i := by
  have hwords := h.words
  have hpadding := h.padding i
  rw [clearAll, bitOf_storeAll, show (0 : BitVec 64) = 0#64 from rfl, getLsbD_zero]
  grind

theorem bitOf_step (h : v.Sound) (c : BitVecCall) : bitOf (v.step c).words i =
    if c.Names v.capacityBits i then c.value else bitOf v.words i := by
  cases c with
  | set j => exact bitOf_bitOp .set i
  | clear j => exact bitOf_bitOp .clear i
  | setRange lo hi => exact bitOf_range .set i
  | clearRange lo hi => exact bitOf_range .clear i
  | setAll => exact bitOf_setAll i h
  | clearAll => exact bitOf_clearAll i h

theorem step_frame (v : SharedBitVec) (c : BitVecCall) :
    (v.step c).capacityBits = v.capacityBits ∧ (v.step c).wordCount = v.wordCount := by
  cases c with
  | clearAll => exact ⟨rfl, rfl⟩
  | setAll => dsimp only [step, setAll]; split <;> exact ⟨rfl, rfl⟩
  | set _ | clear _ => dsimp only [step, set, clear, bitOp]; split <;> exact ⟨rfl, rfl⟩
  | setRange _ _ | clearRange _ _ =>
    dsimp only [step, setRange, clearRange, range, rangeOp]
    repeat' split
    all_goals exact ⟨rfl, rfl⟩

theorem Sound.step (h : v.Sound) (c : BitVecCall) : (v.step c).Sound := by
  obtain ⟨hcap, hcount⟩ := v.step_frame c
  refine ⟨by rw [hcap, hcount, h.words], fun i hi => ?_⟩
  rw [hcap] at hi
  rw [bitOf_step i h, h.padding i hi, if_neg]
  intro hnames
  cases c <;> simp only [BitVecCall.Names] at hnames <;> omega

theorem Sound.countOnes (h : v.Sound) :
    v.countOnes = Nat.count (fun i => v.get i = .ok true) v.capacityBits := by
  have hwords := h.words
  have hsplit : v.wordCount * 64 = v.capacityBits + (v.wordCount * 64 - v.capacityBits) := by omega
  have htail : ∀ n, Nat.count (fun k => bitOf v.words (v.capacityBits + k)) n = 0 := by
    intro n
    apply Nat.count_of_forall_not
    simp [h.padding]
  rw [SharedBitVec.countOnes, count_bitOf _ (by decide), hsplit, Nat.count_add, htail]
  apply count_congr
  intro i hi
  simp [get_eq i hi]

theorem reached (capacity : Nat) (calls : List BitVecCall) :
    (calls.foldl step (create capacity)).capacityBits = capacity ∧
      (calls.foldl step (create capacity)).Sound := by
  apply List.foldlRecOn (motive := fun v : SharedBitVec => v.capacityBits = capacity ∧ v.Sound)
  · exact ⟨rfl, rfl, fun i _ => getLsbD_zero⟩
  · intro v hv c _
    exact ⟨(v.step_frame c).1.trans hv.1, hv.2.step c⟩

/-- After any calls, one more gives the bits it names their value and leaves the others, and
`count_ones` is the number of bits that read true. -/
theorem calls_set_named_bits (capacity : Nat) (calls : List BitVecCall) (c : BitVecCall) :
    let v := calls.foldl step (create capacity)
    (∀ i < capacity, ∃ b, v.get i = .ok b ∧
      (v.step c).get i = .ok (if c.Names capacity i then c.value else b)) ∧
    v.countOnes = Nat.count (fun i => v.get i = .ok true) capacity := by
  intro v
  obtain ⟨hcap, hsound⟩ := reached capacity calls
  refine ⟨fun i hi => ⟨bitOf v.words i, ?_, ?_⟩, hcap ▸ hsound.countOnes⟩
  · exact get_eq i (hcap ▸ hi)
  · rw [get_eq i (by rwa [(v.step_frame c).1, hcap]), bitOf_step i hsound, hcap]

end SharedBitVec
end SubEtha.Maps
