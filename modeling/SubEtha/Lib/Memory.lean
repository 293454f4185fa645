import Mathlib.Logic.Function.Basic
import Mathlib.Data.List.Basic

namespace SubEtha.Lib
open List

/-- A keyed store, as the partial function it computes. -/
def Table (α β : Type*) : Type _ := α → Option β

namespace Table

variable {α β : Type*}

def empty : Table α β := fun _ => none

def get? (t : Table α β) (a : α) : Option β := t a

def contains (t : Table α β) (a : α) : Bool := (t.get? a).isSome

def retain (t : Table α β) (p : α → Bool) : Table α β := fun a => if p a then t a else none

@[simp] theorem get?_retain (t : Table α β) (p : α → Bool) (a : α) :
    (t.retain p).get? a = if p a then t.get? a else none := rfl

theorem get?_retain_some {t : Table α β} {p : α → Bool} {a : α} {b : β}
    (h : (t.retain p).get? a = some b) : p a = true ∧ t.get? a = some b := by
  rw [get?_retain] at h
  split at h
  · exact ⟨by assumption, h⟩
  · cases h

variable [DecidableEq α] (t : Table α β)

def insert (a : α) (b : β) : Table α β :=
  fun x => if x = a then some b else t x

def erase (a : α) : Table α β := fun x => if x = a then none else t x

@[simp] theorem get?_insert (a x : α) (b : β) :
    (t.insert a b).get? x = if x = a then some b else t.get? x := rfl

@[simp] theorem get?_erase (a x : α) : (t.erase a).get? x = if x = a then none else t.get? x := rfl

theorem get?_insert_some {t : Table α β} {a x : α} {b c : β}
    (h : (t.insert a b).get? x = some c) : x = a ∧ c = b ∨ x ≠ a ∧ t.get? x = some c := by
  rw [get?_insert] at h
  split at h
  · rename_i hx
    cases h
    exact .inl ⟨hx, rfl⟩
  · exact .inr ⟨by assumption, h⟩

theorem forall_insert {t : Table α β} {P : α → β → Prop}
    (ht : ∀ x c, t.get? x = some c → P x c) (h : P a b) :
    ∀ x c, (t.insert a b).get? x = some c → P x c := by
  intro x c hx
  rcases get?_insert_some hx with ⟨rfl, rfl⟩ | ⟨-, hx⟩
  · exact h
  · exact ht x c hx

theorem get?_erase_some {t : Table α β} {a x : α} {c : β} (h : (t.erase a).get? x = some c) :
    x ≠ a ∧ t.get? x = some c := by
  rw [get?_erase] at h
  split at h
  · cases h
  · exact ⟨by assumption, h⟩

/-- A value put into its row, which is new where there was none. -/
theorem forall_insert_row {γ : Type*} [DecidableEq β] {t : Table α (Table β γ)} {d : γ}
    {P : α → β → γ → Prop}
    (ht : ∀ x row y c, t.get? x = some row → row.get? y = some c → P x y c) (h : P a b d) :
    ∀ x row y c, (t.insert a (((t.get? a).getD empty).insert b d)).get? x = some row →
      row.get? y = some c → P x y c := by
  intro x row y c hrow
  refine forall_insert (P := fun x row => ∀ y c, row.get? y = some c → P x y c)
    (fun x row hrow y c => ht x row y c hrow) (forall_insert (fun y c hy => ?_) h) x row hrow y c
  cases hold : t.get? a with
  | none =>
    rw [hold] at hy
    cases hy
  | some old =>
    rw [hold] at hy
    exact ht a old y c hold hy

end Table

variable {α : Type}

def slice (mem : List α) (pos len : Nat) : List α := (mem.drop pos).take len

def blit (mem : List α) (pos : Nat) (data : List α) : List α :=
  mem.take pos ++ data ++ mem.drop (pos + data.length)

/-- Two runs of cells, each a start and a length, share none. -/
def Apart (a b : Nat × Nat) : Prop := a.1 + a.2 ≤ b.1 ∨ b.1 + b.2 ≤ a.1

theorem length_blit (h : pos + data.length ≤ mem.length) : (blit mem pos data).length = mem.length := by
  rw [blit, length_append, length_append, length_take, length_drop]
  omega

theorem slice_blit_self (h : pos ≤ mem.length) :
    slice (blit mem pos data) pos data.length = data := by
  have hlen : (mem.take pos).length = pos := length_take_of_le h
  simp [slice, blit, drop_left' hlen]

theorem slice_blit_apart (h : pos + data.length ≤ mem.length)
    (hapart : Apart (p, n) (pos, data.length)) : slice (blit mem pos data) p n = slice mem p n := by
  have hlen : (mem.take pos).length = pos := length_take_of_le (by omega)
  have hlen' : (mem.take pos ++ data).length = pos + data.length := by
    simp [hlen]
  rcases hapart with hbefore | hafter
  · rw [slice, slice, blit, append_assoc, drop_append_of_le_length (by omega),
      take_append_of_le_length (by rw [length_drop]; omega), drop_take,
      take_take, Nat.min_eq_left (by omega)]
  · have hafter : pos + data.length ≤ p := hafter
    rw [slice, slice, blit, drop_append, drop_of_length_le (by omega), nil_append,
      drop_drop, hlen', Nat.add_sub_cancel' hafter]

/-- Two runs in one window of a wrapping region start apart. -/
theorem apart_mod (hafter : s + m ≤ t) (hwindow : t + n ≤ s + size) :
    Apart (s % size, m) (t % size, n) := by
  have hdivs := Nat.div_add_mod s size
  have hdivt := Nat.div_add_mod t size
  have hle : s / size ≤ t / size := Nat.div_le_div_right (by omega)
  rcases Nat.lt_or_ge (t / size) (s / size + 1) with hsame | hnext
  · have hq : t / size = s / size := by omega
    rw [hq] at hdivt
    exact .inl (by dsimp only; omega)
  · have hmul : size * (s / size + 1) ≤ size * (t / size) := Nat.mul_le_mul_left _ hnext
    rw [Nat.mul_add, Nat.mul_one] at hmul
    exact .inr (by dsimp only; omega)

/-- Runs of cells, each a start and a length, laid end to end from `lo` to `hi`. -/
def Tiles : Nat → Nat → List (Nat × Nat) → Prop
  | lo, hi, [] => lo = hi
  | lo, hi, t :: l => t.1 = lo ∧ 0 < t.2 ∧ Tiles (lo + t.2) hi l

namespace Tiles

section
variable (h : Tiles lo hi l)
include h

theorem le : lo ≤ hi := by
  induction l generalizing lo with
  | nil => exact Nat.le_of_eq h
  | cons t l ih =>
    obtain ⟨-, -, hrest⟩ := h
    exact Nat.le_trans (Nat.le_add_right _ _) (ih hrest)

theorem bounds (ht : t ∈ l) : lo ≤ t.1 ∧ t.1 + t.2 ≤ hi := by
  induction l generalizing lo with
  | nil => cases ht
  | cons u l ih =>
    obtain ⟨hstart, -, hrest⟩ := h
    rcases mem_cons.mp ht with rfl | hmem
    · exact ⟨Nat.le_of_eq hstart.symm, hstart ▸ hrest.le⟩
    · obtain ⟨hlo, hhi⟩ := ih hrest hmem
      exact ⟨Nat.le_trans (Nat.le_add_right _ _) hlo, hhi⟩

theorem apart (ht : t ∈ l) (hu : u ∈ l) : t = u ∨ Apart t u := by
  induction l generalizing lo with
  | nil => cases ht
  | cons v l ih =>
    obtain ⟨hstart, -, hrest⟩ := h
    rcases mem_cons.mp ht with rfl | ht'
    · rcases mem_cons.mp hu with rfl | hu'
      · exact .inl rfl
      · exact .inr (.inl (hstart ▸ (hrest.bounds hu').1))
    · rcases mem_cons.mp hu with rfl | hu'
      · exact .inr (.inr (hstart ▸ (hrest.bounds ht').1))
      · exact ih hrest ht' hu'

theorem covers (hlo : lo ≤ x) (hhi : x < hi) :
    ∃ t ∈ l, (t.1 ≤ x ∧ x < t.1 + t.2) ∧ ∀ u ∈ l, u.1 ≤ x ∧ x < u.1 + u.2 → u = t := by
  have hexists : ∃ t ∈ l, t.1 ≤ x ∧ x < t.1 + t.2 := by
    induction l generalizing lo with
    | nil =>
      obtain rfl : lo = hi := h
      omega
    | cons t l ih =>
      obtain ⟨hstart, -, hrest⟩ := h
      rcases Nat.lt_or_ge x (lo + t.2) with hin | hout
      · exact ⟨t, mem_cons_self, by omega, by omega⟩
      · obtain ⟨u, hu, hx⟩ := ih hrest hout
        exact ⟨u, mem_cons_of_mem _ hu, hx⟩
  obtain ⟨t, ht, hx⟩ := hexists
  refine ⟨t, ht, hx, fun u hu hux => ?_⟩
  rcases h.apart hu ht with heq | hapart
  · exact heq
  · unfold Apart at hapart
    omega

end

theorem append (h : Tiles lo mid l) (h' : Tiles mid hi l') : Tiles lo hi (l ++ l') := by
  induction l generalizing lo with
  | nil =>
    obtain rfl : lo = mid := h
    exact h'
  | cons t l ih =>
    obtain ⟨hstart, hpos, hrest⟩ := h
    exact ⟨hstart, hpos, ih hrest⟩

/-- The tiles listed ahead of one end where it starts or sooner, and those behind it start
where it ends or later. -/
theorem sides {before after : List (Nat × Nat)} (h : Tiles lo hi (before ++ t :: after)) :
    (∀ u ∈ before, u.1 + u.2 ≤ t.1) ∧ ∀ u ∈ after, t.1 + t.2 ≤ u.1 := by
  induction before generalizing lo with
  | nil =>
    obtain ⟨hstart, -, hrest⟩ := h
    exact ⟨(by simp), fun u hu => hstart ▸ (hrest.bounds hu).1⟩
  | cons v before ih =>
    obtain ⟨hstart, -, hrest⟩ := h
    obtain ⟨hbefore, hafter⟩ := ih hrest
    refine ⟨fun u hu => ?_, hafter⟩
    rcases mem_cons.mp hu with rfl | hmem
    · exact hstart ▸ (hrest.bounds (mem_append_right _ mem_cons_self)).1
    · exact hbefore u hmem

theorem replace {before after mid : List (Nat × Nat)} (h : Tiles lo hi (before ++ t :: after))
    (hmid : Tiles t.1 (t.1 + t.2) mid) : Tiles lo hi (before ++ (mid ++ after)) := by
  induction before generalizing lo with
  | nil =>
    obtain ⟨rfl, -, hrest⟩ := h
    exact hmid.append hrest
  | cons u before ih =>
    obtain ⟨hstart, hpos, hrest⟩ := h
    exact ⟨hstart, hpos, ih hrest⟩

end Tiles
end SubEtha.Lib
