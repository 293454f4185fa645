import Mathlib.Algebra.Group.Nat.Defs
import Mathlib.Data.List.Nodup

namespace SubEtha.Maps
open List

def nilIndex : Nat := 2 ^ 32 - 1

inductive RegionError
  | full
  | invalidPtr
  | layoutMismatch
deriving DecidableEq

/-- A slot allocator: a bump cursor and a stack of freed slots threaded through `nextLinks`. -/
structure SharedRegion (T : Type) where
  capacity : Nat
  bumpNext : Nat
  freeHead : Nat
  nextLinks : List Nat
  slots : List T

variable {idx : Nat}

namespace SharedRegion

variable {T : Type}

def slotsOffsetFor (capacity : Nat) : Nat := 64 + capacity * 4

/-- An empty region over zeroed memory, which reads as the value `zero`; `none` is the assertion
on the capacity, and the header keeps the slot offset in 32 bits. -/
def create (capacity : Nat) (zero : T) : Option (Except RegionError (SharedRegion T)) :=
  if 1 ≤ capacity ∧ capacity < nilIndex then
    let recorded := slotsOffsetFor capacity % 2 ^ 32
    if recorded ≠ 0 ∧ recorded ≠ slotsOffsetFor capacity then some (.error .layoutMismatch)
    else some (.ok ⟨capacity, 0, nilIndex, List.replicate capacity 0, List.replicate capacity zero⟩)
  else none

section
variable (r : SharedRegion T)

def nextLink (idx : Nat) : Nat := r.nextLinks.getD idx 0

/-- The walk over the freed slots, over at most `visits` of them. -/
def freeWalk (r : SharedRegion T) : Nat → Nat → Nat
  | 0, _ => 0
  | visits + 1, idx => if idx = nilIndex then 0 else r.freeWalk visits (r.nextLink idx) + 1

def freeCount : Nat := r.freeWalk r.capacity r.freeHead

def len : Nat := r.bumpNext - r.freeCount

/-- Take the last freed slot, or the one at the bump cursor. -/
def allocate (value : T) : SharedRegion T × Except RegionError Nat :=
  if r.freeHead ≠ nilIndex then
    ({ r with freeHead := r.nextLink r.freeHead, slots := r.slots.set r.freeHead value },
      .ok r.freeHead)
  else if r.capacity ≤ r.bumpNext then (r, .error .full)
  else
    let idx := r.bumpNext % 2 ^ 32
    ({ r with bumpNext := r.bumpNext + 1, slots := r.slots.set idx value }, .ok idx)

def free (ptr : Nat) : SharedRegion T × Except RegionError Unit :=
  if ptr = nilIndex ∨ r.capacity ≤ ptr then (r, .error .invalidPtr)
  else ({ r with nextLinks := r.nextLinks.set ptr r.freeHead, freeHead := ptr }, .ok ())

end

/-- The freed slots, the last one freed first. -/
def Chained (links : Nat → Nat) : Nat → List Nat → Prop
  | idx, [] => idx = nilIndex
  | idx, i :: l => idx = i ∧ i ≠ nilIndex ∧ Chained links (links i) l

theorem Chained.congr (h : Chained links idx l) (heq : ∀ i ∈ l, links' i = links i) :
    Chained links' idx l := by
  induction l generalizing idx with
  | nil => exact h
  | cons i l ih =>
    obtain ⟨rfl, hne, hrest⟩ := h
    obtain ⟨hi, hl⟩ := forall_mem_cons.mp heq
    exact ⟨rfl, hne, hi ▸ ih hrest hl⟩

/-- Every slot under the bump cursor is either one of `used` or one of `freed`, never both. -/
structure Split (r : SharedRegion T) (used freed : List Nat) : Prop where
  bounded : r.capacity < nilIndex
  links : r.nextLinks.length = r.capacity
  slots : r.slots.length = r.capacity
  bump : r.bumpNext ≤ r.capacity
  chained : Chained r.nextLink r.freeHead freed
  disjoint : (used ++ freed).Nodup
  below : ∀ i ∈ used ++ freed, i < r.bumpNext
  all : (used ++ freed).length = r.bumpNext

variable {r : SharedRegion T} {used freed : List Nat}

theorem create_split {capacity : Nat} {zero : T}
    (h : create capacity zero = some (.ok r)) : Split r [] [] ∧ r.capacity = capacity := by
  unfold create at h
  split at h
  · dsimp only at h
    split at h
    · cases h
    cases h
    exact ⟨⟨‹1 ≤ capacity ∧ capacity < nilIndex›.2, length_replicate, length_replicate,
      Nat.zero_le _, rfl, nodup_nil, (by simp), rfl⟩, rfl⟩
  · cases h

theorem freeWalk_eq (h : Chained r.nextLink idx l) (hlen : l.length ≤ visits) :
    r.freeWalk visits idx = l.length := by
  induction visits generalizing idx l with
  | zero => exact (Nat.le_zero.mp hlen).symm
  | succ visits ih =>
    cases l with
    | nil => exact if_pos h
    | cons i l =>
      obtain ⟨rfl, hne, hrest⟩ := h
      exact (if_neg hne).trans (congrArg (· + 1) (ih hrest (Nat.le_of_succ_le_succ hlen)))

section
variable (h : Split r used freed)
include h

theorem Split.len_eq : r.len = used.length := by
  have hall := h.all
  have hbump := h.bump
  rw [length_append] at hall
  rw [len, freeCount, freeWalk_eq h.chained (by omega)]
  omega

theorem Split.lt_capacity (hi : i ∈ used) : i < r.capacity :=
  Nat.lt_of_lt_of_le (h.below i (mem_append_left _ hi)) h.bump

theorem Split.of_set {slots : List T} (hlen : slots.length = r.slots.length) :
    Split { r with slots := slots } used freed :=
  { h with slots := hlen.trans h.slots }

theorem Split.perm (hp : used.Perm used') : Split r used' freed := by
  have hperm := hp.append_right freed
  exact { h with
    disjoint := hperm.nodup_iff.mp h.disjoint, below := fun i hi => h.below i (hperm.symm.subset hi)
    all := hperm.symm.length_eq.trans h.all }

/-- While a slot is left, an allocation takes one no one holds and writes the value there. -/
theorem Split.allocate (value : T) (hroom : used.length < r.capacity) :
    ∃ r' idx freed', r.allocate value = (r', .ok idx) ∧ idx ∉ used ∧ idx < r.capacity ∧
      Split r' (idx :: used) freed' ∧ r'.slots = r.slots.set idx value ∧
      r'.capacity = r.capacity := by
  have hdisjoint := nodup_append.mp h.disjoint
  unfold SharedRegion.allocate
  cases freed with
  | nil =>
    have hhead : r.freeHead = nilIndex := h.chained
    have hall : used.length = r.bumpNext := by simpa using h.all
    have hidx : r.bumpNext % 2 ^ 32 = r.bumpNext := by
      have := h.bounded
      unfold nilIndex at this
      omega
    have hfresh : r.bumpNext ∉ used := fun hmem =>
      Nat.lt_irrefl _ (h.below _ (mem_append_left _ hmem))
    rw [if_neg (not_not.mpr hhead), if_neg (by omega)]
    rw [hidx]
    refine ⟨_, _, [], rfl, hfresh, by omega, ?_, rfl, rfl⟩
    refine ⟨h.bounded, h.links, length_set.trans h.slots, ?_, h.chained, ?_, ?_, ?_⟩
    · dsimp only
      omega
    · exact nodup_cons.mpr ⟨fun hmem => hfresh (by simpa using hmem), h.disjoint⟩
    · intro i hi
      rcases mem_cons.mp hi with rfl | hmem
      · exact Nat.lt_succ_self _
      · exact Nat.lt_succ_of_lt (h.below i hmem)
    · simpa using hall
  | cons i freed =>
    obtain ⟨hhead, hne, hrest⟩ := h.chained
    have hmove : (i :: (used ++ freed)).Perm (used ++ i :: freed) := perm_middle.symm
    have hi : i < r.bumpNext := h.below i (hmove.subset mem_cons_self)
    rw [if_pos (hhead ▸ hne)]
    refine ⟨_, _, freed, rfl, ?_, ?_, ?_, rfl, rfl⟩
    · exact fun hmem => hdisjoint.2.2 _ hmem _ (hhead ▸ mem_cons_self) rfl
    · rw [hhead]
      exact Nat.lt_of_lt_of_le hi h.bump
    rw [hhead]
    exact ⟨h.bounded, h.links, length_set.trans h.slots, h.bump, hrest,
      hmove.nodup_iff.mpr h.disjoint, fun j hj => h.below j (hmove.subset hj),
      hmove.length_eq.trans h.all⟩

theorem Split.allocate_full (value : T) (hfull : r.capacity ≤ used.length) :
    r.allocate value = (r, .error .full) := by
  have hall := h.all
  have hbump := h.bump
  rw [length_append] at hall
  obtain rfl : freed = [] := length_eq_zero_iff.mp (by omega)
  have hhead : r.freeHead = nilIndex := h.chained
  rw [SharedRegion.allocate, if_neg (not_not.mpr hhead), if_pos (by omega)]

end

theorem Split.free {before after : List Nat} (h : Split r (before ++ idx :: after) freed) :
    ∃ r', r.free idx = (r', .ok ()) ∧ Split r' (before ++ after) (idx :: freed) ∧
      r'.slots = r.slots ∧ r'.capacity = r.capacity := by
  have hmem : idx ∈ before ++ idx :: after := mem_append_right _ mem_cons_self
  have hlt := h.lt_capacity hmem
  have hne : idx ≠ nilIndex := Nat.ne_of_lt (Nat.lt_trans hlt h.bounded)
  have hmove : (before ++ after ++ idx :: freed).Perm (before ++ idx :: after ++ freed) := by
    refine perm_middle.trans ?_
    exact (perm_middle.symm.append_right freed)
  have hnot : idx ∉ freed := fun hf => (nodup_append.mp h.disjoint).2.2 idx hmem idx hf rfl
  have hself : (r.nextLinks.set idx r.freeHead).getD idx 0 = r.freeHead := by
    rw [getD_eq_getElem?_getD, getElem?_set_self (h.links ▸ hlt)]
    rfl
  refine ⟨{ r with nextLinks := r.nextLinks.set idx r.freeHead, freeHead := idx },
    if_neg (not_or.mpr ⟨hne, Nat.not_le.mpr hlt⟩), ?_, rfl, rfl⟩
  refine ⟨h.bounded, length_set.trans h.links, h.slots, h.bump, ⟨rfl, hne, ?_⟩,
    hmove.nodup_iff.mpr h.disjoint, fun j hj => h.below j (hmove.subset hj),
    hmove.length_eq.trans h.all⟩
  refine Chained.congr (hself ▸ h.chained) fun j hj => ?_
  have hj' : idx ≠ j := fun heq => hnot (heq ▸ hj)
  rw [nextLink, nextLink, getD_eq_getElem?_getD, getD_eq_getElem?_getD, getElem?_set_ne hj']

end SharedRegion
end SubEtha.Maps
