import Mathlib.Data.List.Sort
import SubEtha.Lib.Lists

namespace SubEtha.Lib
open List

variable {K V : Type} {heap : List (K × Nat)} {i : Nat} {runs : List (List (K × V))}
  {rest : List (K × V)}

section
variable [LinearOrder K]

/-- Push a run's head, a key and the run's number, on a heap kept least first. -/
def heapPush (a : K × Nat) : List (K × Nat) → List (K × Nat)
  | [] => [a]
  | b :: heap =>
    if a.1 < b.1 ∨ a.1 = b.1 ∧ a.2 ≤ b.2 then a :: b :: heap else b :: heapPush a heap

def pushHead (i : Nat) (rows : List (K × V)) (heap : List (K × Nat)) : List (K × Nat) :=
  match rows with
  | [] => heap
  | row :: _ => heapPush (row.1, i) heap

def heapHeads : Nat → List (List (K × V)) → List (K × Nat) → List (K × Nat)
  | _, [], heap => heap
  | i, rows :: runs, heap => heapHeads (i + 1) runs (pushHead i rows heap)

/-- Pop the least head, emit its row and push the head after it, until the heap is empty. -/
def mergeLoop : Nat → List (K × Nat) → List (List (K × V)) → List (K × V)
  | 0, _, _ => []
  | _ + 1, [], _ => []
  | fuel + 1, (_, i) :: heap, runs =>
    match runs[i]? with
    | some (row :: rest) => row :: mergeLoop fuel (pushHead i rest heap) (runs.set i rest)
    | _ => []

def mergeRuns (runs : List (List (K × V))) : List (K × V) :=
  mergeLoop runs.flatten.length (heapHeads 0 runs []) runs

theorem heapPush_perm (a : K × Nat) (heap : List (K × Nat)) : (heapPush a heap).Perm (a :: heap) := by
  induction heap with
  | nil => exact .refl _
  | cons b heap ih =>
    rw [heapPush]
    split
    · exact .refl _
    · exact (ih.cons b).trans (.swap a b heap)

theorem heapPush_sorted (h : heap.Pairwise fun a b => a.1 ≤ b.1) :
    (heapPush a heap).Pairwise fun a b => a.1 ≤ b.1 := by
  induction heap with
  | nil => exact pairwise_singleton ..
  | cons b heap ih =>
    obtain ⟨hhead, htail⟩ := pairwise_cons.mp h
    rw [heapPush]
    split
    · rename_i hlt
      have hle : a.1 ≤ b.1 := hlt.elim le_of_lt fun h => le_of_eq h.1
      refine pairwise_cons.mpr ⟨fun c hc => ?_, h⟩
      rcases mem_cons.mp hc with rfl | hc
      · exact hle
      · exact le_trans hle (hhead c hc)
    · rename_i hge
      refine pairwise_cons.mpr ⟨fun c hc => ?_, ih htail⟩
      rcases mem_cons.mp ((heapPush_perm a heap).mem_iff.mp hc) with rfl | hc
      · exact le_of_not_gt fun hlt => hge (.inl hlt)
      · exact hhead c hc

/-- The heap holds the head of each run that has one, in key order. -/
structure Heads (heap : List (K × Nat)) (runs : List (List (K × V))) : Prop where
  sorted : heap.Pairwise fun a b => a.1 ≤ b.1
  numbers : (heap.map Prod.snd).Nodup
  mem : ∀ k i, (k, i) ∈ heap ↔ ∃ v rest, runs[i]? = some ((k, v) :: rest)

/-- The head of one run goes on a heap that has none of it. -/
theorem pushHead_spec (rows : List (K × V)) (hsorted : heap.Pairwise fun a b => a.1 ≤ b.1)
    (hnumbers : (heap.map Prod.snd).Nodup) (hfresh : ∀ k, (k, i) ∉ heap) :
    ((pushHead i rows heap).Pairwise fun a b => a.1 ≤ b.1) ∧
      ((pushHead i rows heap).map Prod.snd).Nodup ∧ ∀ k j, (k, j) ∈ pushHead i rows heap ↔
        (k, j) ∈ heap ∨ j = i ∧ ∃ v rest, rows = (k, v) :: rest := by
  cases rows with
  | nil =>
    refine ⟨hsorted, hnumbers, fun k j => ⟨.inl, ?_⟩⟩
    rintro (h | ⟨-, v, rest, h⟩)
    · exact h
    · cases h
  | cons a rest =>
    have hperm := heapPush_perm (a.1, i) heap
    refine ⟨heapPush_sorted hsorted, (hperm.map Prod.snd).nodup_iff.mpr ?_, fun k j => ?_⟩
    · refine nodup_cons.mpr ⟨fun hi => ?_, hnumbers⟩
      obtain ⟨⟨k, j⟩, hb, heq⟩ := mem_map.mp hi
      cases heq
      exact hfresh k hb
    rw [pushHead, hperm.mem_iff, mem_cons, or_comm]
    refine or_congr Iff.rfl ⟨fun h => ?_, ?_⟩
    · cases h
      exact ⟨rfl, a.2, rest, rfl⟩
    · rintro ⟨rfl, v, rest', h⟩
      cases h
      rfl

theorem heapHeads_spec (hsorted : heap.Pairwise fun a b => a.1 ≤ b.1)
    (hnumbers : (heap.map Prod.snd).Nodup) (hbelow : ∀ a ∈ heap, a.2 < i) :
    ((heapHeads i runs heap).Pairwise fun a b => a.1 ≤ b.1) ∧
      ((heapHeads i runs heap).map Prod.snd).Nodup ∧ ∀ k j, (k, j) ∈ heapHeads i runs heap ↔
        (k, j) ∈ heap ∨ ∃ n v rest, j = i + n ∧ runs[n]? = some ((k, v) :: rest) := by
  induction runs generalizing i heap with
  | nil =>
    refine ⟨hsorted, hnumbers, fun k j => ⟨.inl, ?_⟩⟩
    rintro (h | ⟨n, v, rest, -, h⟩)
    · exact h
    · cases h
  | cons rows runs ih =>
    rw [heapHeads]
    obtain ⟨hsorted', hnumbers', hmem'⟩ := pushHead_spec rows hsorted hnumbers
      fun k hk => lt_irrefl i (hbelow _ hk)
    obtain ⟨hs, hn, hmem⟩ := ih (i := i + 1) hsorted' hnumbers' fun a ha => by
      rcases (hmem' a.1 a.2).mp ha with h | ⟨h, -⟩
      · exact Nat.lt_succ_of_lt (hbelow a h)
      · exact Nat.lt_succ_of_le (le_of_eq h)
    refine ⟨hs, hn, fun k j => ?_⟩
    rw [hmem, hmem', or_assoc]
    refine or_congr Iff.rfl ⟨?_, ?_⟩
    · rintro (⟨rfl, v, rest, rfl⟩ | ⟨n, v, rest, rfl, h⟩)
      · exact ⟨0, v, rest, rfl, rfl⟩
      · exact ⟨n + 1, v, rest, by omega, h⟩
    · rintro ⟨n, v, rest, rfl, h⟩
      cases n with
      | zero => exact .inl ⟨rfl, v, rest, Option.some.inj h⟩
      | succ n => exact .inr ⟨n, v, rest, by omega, h⟩

theorem heads_start (runs : List (List (K × V))) : Heads (heapHeads 0 runs []) runs := by
  have hnone : ∀ a ∈ ([] : List (K × Nat)), a.2 < 0 := nofun
  obtain ⟨hsorted, hnumbers, hmem⟩ : _ ∧ _ ∧ ∀ k j, (k, j) ∈ heapHeads 0 runs [] ↔ _ :=
    heapHeads_spec List.Pairwise.nil nodup_nil hnone
  refine ⟨hsorted, hnumbers, fun k i => (hmem k i).trans ⟨?_, ?_⟩⟩
  · rintro (h | ⟨n, v, rest, rfl, h⟩)
    · cases h
    · exact ⟨v, rest, by rw [Nat.zero_add]; exact h⟩
  · rintro ⟨v, rest, h⟩
    exact .inr ⟨i, v, rest, (Nat.zero_add i).symm, h⟩

/-- The next head of the run just popped takes the place of the one before. -/
theorem Heads.pop (h : Heads ((k, i) :: heap) runs) (hrun : runs[i]? = some ((k, v) :: rest)) :
    Heads (pushHead i rest heap) (runs.set i rest) := by
  obtain ⟨hnot, hnumbers⟩ := nodup_cons.mp h.numbers
  have hfresh : ∀ k', (k', i) ∉ heap := fun k' hk' => hnot (mem_map.mpr ⟨(k', i), hk', rfl⟩)
  obtain ⟨hsorted, hnumbers', hmem⟩ :=
    pushHead_spec rest (pairwise_cons.mp h.sorted).2 hnumbers hfresh
  have hlt := lt_of_some hrun
  refine ⟨hsorted, hnumbers', fun k' j => ?_⟩
  rw [hmem]
  by_cases hj : j = i
  · subst hj
    rw [getElem?_set_self hlt]
    constructor
    · rintro (hheap | ⟨-, v', rest', rfl⟩)
      · exact absurd hheap (hfresh k')
      · exact ⟨v', rest', rfl⟩
    · rintro ⟨v', rest', hrest⟩
      exact .inr ⟨rfl, v', rest', Option.some.inj hrest⟩
  · rw [getElem?_set_ne (Ne.symm hj), ← h.mem k' j, mem_cons]
    constructor
    · rintro (hheap | ⟨rfl, -⟩)
      · exact .inr hheap
      · exact absurd rfl hj
    · rintro (heq | hheap)
      · cases heq
        exact absurd rfl hj
      · exact .inl hheap

theorem Heads.nil_flatten (h : Heads [] runs) : runs.flatten = [] := by
  refine flatten_eq_nil_iff.mpr fun rows hrows => ?_
  obtain ⟨i, hi⟩ := mem_iff_getElem?.mp hrows
  cases rows with
  | nil => rfl
  | cons a rest => cases (h.mem a.1 i).mpr ⟨a.2, rest, hi⟩

end

/-- Ascending runs of which no two share a key. -/
structure ApartRuns [LinearOrder K] (runs : List (List (K × V))) : Prop where
  sorted : ∀ rows ∈ runs, rows.Pairwise fun a b => a.1 < b.1
  apart : ∀ (i j : Nat) (rows rows' : List (K × V)), runs[i]? = some rows →
    runs[j]? = some rows' → i ≠ j → ∀ a ∈ rows, ∀ b ∈ rows', a.1 ≠ b.1

variable [LinearOrder K]

theorem ApartRuns.pop (h : ApartRuns runs) (hrun : runs[i]? = some (row :: rest)) :
    ApartRuns (runs.set i rest) := by
  -- every run of the new list is a tail of the one in its place
  have hsub : ∀ (j : Nat) (rows : List (K × V)), (runs.set i rest)[j]? = some rows →
      ∃ rows', runs[j]? = some rows' ∧ rows.Sublist rows' := by
    intro j rows hrows
    rcases set_some hrows with ⟨rfl, rfl⟩ | ⟨-, hrows⟩
    · exact ⟨_, hrun, sublist_cons_self ..⟩
    · exact ⟨rows, hrows, List.Sublist.refl _⟩
  refine ⟨fun rows hrows => ?_, fun j j' rows rows' hj hj' hne a ha b hb => ?_⟩
  · obtain ⟨j, hj⟩ := mem_iff_getElem?.mp hrows
    obtain ⟨rows', hrows', hle⟩ := hsub j rows hj
    exact (h.sorted rows' (mem_of_getElem? hrows')).sublist hle
  · obtain ⟨r, hr, hle⟩ := hsub j rows hj
    obtain ⟨r', hr', hle'⟩ := hsub j' rows' hj'
    exact h.apart j j' r r' hr hr' hne a (hle.subset ha) b (hle'.subset hb)

theorem Heads.least (h : Heads ((k, i) :: heap) runs) (hd : ApartRuns runs)
    (hrun : runs[i]? = some ((k, v) :: rest)) (hleft : b ∈ (runs.set i rest).flatten) :
    k < b.1 := by
  obtain ⟨rows, hrows, hb⟩ := mem_flatten.mp hleft
  obtain ⟨j, hj⟩ := mem_iff_getElem?.mp hrows
  rcases set_some hj with ⟨rfl, rfl⟩ | ⟨hij, hj⟩
  · exact (pairwise_cons.mp (hd.sorted _ (mem_of_getElem? hrun))).1 b hb
  have hne := hd.apart i j _ _ hrun hj hij (k, v) mem_cons_self b hb
  refine lt_of_le_of_ne ?_ hne
  cases rows with
  | nil => cases hb
  | cons c rows =>
    have hc : (c.1, j) ∈ heap := by
      rcases mem_cons.mp ((h.mem c.1 j).mpr ⟨c.2, rows, hj⟩) with heq | hc
      · cases heq
        exact absurd rfl hij
      · exact hc
    have hle := (pairwise_cons.mp h.sorted).1 _ hc
    rcases mem_cons.mp hb with rfl | hb
    · exact hle
    · have hcb := (pairwise_cons.mp (hd.sorted _ (mem_of_getElem? hj))).1 b hb
      exact le_trans hle (le_of_lt hcb)

theorem mergeLoop_spec (h : Heads heap runs) (hd : ApartRuns runs)
    (hfuel : runs.flatten.length ≤ fuel) : (mergeLoop fuel heap runs).Perm runs.flatten ∧
      (mergeLoop fuel heap runs).Pairwise fun a b => a.1 < b.1 := by
  induction fuel generalizing heap runs with
  | zero =>
    rw [eq_nil_of_length_eq_zero (Nat.le_zero.mp hfuel)]
    exact ⟨.refl _, List.Pairwise.nil⟩
  | succ fuel ih =>
    cases heap with
    | nil =>
      rw [h.nil_flatten]
      exact ⟨.refl _, List.Pairwise.nil⟩
    | cons top heap =>
      obtain ⟨k, i⟩ := top
      obtain ⟨v, rest, hrun⟩ := (h.mem k i).mp mem_cons_self
      have hperm := flatten_pop_perm hrun
      have hlen := hperm.length_eq
      rw [length_cons] at hlen
      obtain ⟨ihperm, ihsorted⟩ := ih (h.pop hrun) (hd.pop hrun) (by omega)
      rw [mergeLoop, hrun]
      refine ⟨(ihperm.cons _).trans hperm.symm, pairwise_cons.mpr ⟨fun b hb => ?_, ihsorted⟩⟩
      exact h.least hd hrun (ihperm.mem_iff.mp hb)

/-- Merging disjoint ascending runs lists their rows in ascending order, each once. -/
theorem mergeRuns_spec (hd : ApartRuns runs) :
    (mergeRuns runs).Perm runs.flatten ∧ (mergeRuns runs).Pairwise fun a b => a.1 < b.1 :=
  mergeLoop_spec (heads_start runs) hd le_rfl

end SubEtha.Lib
