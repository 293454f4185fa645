import Mathlib.Order.Lattice
import Mathlib.Data.List.Basic

namespace SubEtha.Lib
open List Function

variable {α κ : Type} [LinearOrder κ] (key : α → κ)

/-- The better of a candidate and the head of queue `i`; the candidate wins a tie. -/
def betterHead (i : Nat) : List α → Option (Nat × κ) → Option (Nat × κ)
  | [], best => best
  | x :: _, none => some (i, key x)
  | x :: _, some best => if key x < best.2 then some (i, key x) else some best

def minHeadFrom : List (List α) → Nat → Option (Nat × κ) → Option (Nat × κ)
  | [], _, best => best
  | q :: qs, i, best => minHeadFrom qs (i + 1) (betterHead key i q best)

def minHead (qs : List (List α)) : Option (Nat × κ) := minHeadFrom key qs 0 none

variable {key}

theorem betterHead_none (h : betterHead key i q best = none) : best = none ∧ q = [] := by
  cases q with
  | nil => exact ⟨h, rfl⟩
  | cons x q =>
    cases best with
    | none => cases h
    | some best =>
      rw [betterHead] at h
      split at h <;> cases h

theorem betterHead_some (h : betterHead key i q best = some b) :
    (best = some b ∨ ∃ x q', q = x :: q' ∧ b = (i, key x)) ∧
    (∀ x q', q = x :: q' → b.2 ≤ key x) ∧ ∀ b', best = some b' → b.2 ≤ b'.2 := by
  cases q with
  | nil =>
    refine ⟨.inl h, (by simp), fun b' hb' => ?_⟩
    rw [betterHead, hb'] at h
    cases h
    exact le_refl _
  | cons x q =>
    cases best with
    | none =>
      cases h
      refine ⟨.inr ⟨x, q, rfl, rfl⟩, fun x' q' hq => ?_, (fun b' hb' => by cases hb')⟩
      cases hq
      exact le_refl _
    | some best =>
      rw [betterHead] at h
      split at h
      · rename_i hlt
        cases h
        refine ⟨.inr ⟨x, q, rfl, rfl⟩, fun x' q' hq => ?_, fun b' hb' => ?_⟩
        · cases hq
          exact le_refl _
        · cases hb'
          exact le_of_lt hlt
      · rename_i hge
        cases h
        refine ⟨.inl rfl, fun x' q' hq => ?_, fun b' hb' => ?_⟩
        · cases hq
          exact le_of_not_gt hge
        · cases hb'
          exact le_refl _

theorem minHeadFrom_none (h : minHeadFrom key qs i best = none) :
    best = none ∧ ∀ q ∈ qs, q = [] := by
  induction qs generalizing i best with
  | nil => exact ⟨h, fun q hq => absurd hq not_mem_nil⟩
  | cons q qs ih =>
    obtain ⟨hbetter, hqs⟩ := ih h
    obtain ⟨hbest, rfl⟩ := betterHead_none hbetter
    refine ⟨hbest, fun q hq => ?_⟩
    rcases mem_cons.mp hq with rfl | hq
    · rfl
    · exact hqs q hq

/-- What the scan returns is what it started with or one of the heads, and no head is
smaller. -/
theorem minHeadFrom_some (h : minHeadFrom key qs i best = some b) :
    (best = some b ∨ ∃ n x q, qs[n]? = some (x :: q) ∧ b = (i + n, key x)) ∧
    (∀ x q, x :: q ∈ qs → b.2 ≤ key x) ∧ ∀ b', best = some b' → b.2 ≤ b'.2 := by
  induction qs generalizing i best with
  | nil =>
    refine ⟨.inl h, fun x q hq => absurd hq not_mem_nil, fun b' hb' => ?_⟩
    rw [minHeadFrom, hb'] at h
    cases h
    exact le_refl _
  | cons q qs ih =>
    obtain ⟨hfrom, hheads, hbetter⟩ := ih h
    have hleast : ∀ c, betterHead key i q best = some c →
        (∀ x q', q = x :: q' → b.2 ≤ key x) ∧ ∀ b', best = some b' → b.2 ≤ b'.2 := by
      intro c hc
      obtain ⟨-, hx, hb'⟩ := betterHead_some hc
      exact ⟨fun x q' hq => le_trans (hbetter c hc) (hx x q' hq),
        fun b' hbest => le_trans (hbetter c hc) (hb' b' hbest)⟩
    refine ⟨?_, fun x q' hq => ?_, fun b' hb' => ?_⟩
    · rcases hfrom with hb | ⟨n, x, q', hget, rfl⟩
      · rcases (betterHead_some hb).1 with hbest | ⟨x, q', rfl, rfl⟩
        · exact .inl hbest
        · exact .inr ⟨0, x, q', rfl, rfl⟩
      · exact .inr ⟨n + 1, x, q', hget, by rw [Nat.add_assoc, Nat.add_comm 1 n]⟩
    · rcases mem_cons.mp hq with heq | hmem
      · cases hc : betterHead key i q best with
        | none => rw [(betterHead_none hc).2] at heq; cases heq
        | some c => exact (hleast c hc).1 x q' heq.symm
      · exact hheads x q' hmem
    · cases hc : betterHead key i q best with
      | none => rw [(betterHead_none hc).1] at hb'; cases hb'
      | some c => exact (hleast c hc).2 b' hb'

theorem minHead_none (h : minHead key qs = none) : ∀ q ∈ qs, q = [] := (minHeadFrom_none h).2

/-- Over queues that increase, the smallest head is the least of all. -/
theorem minHead_some (h : minHead key qs = some b)
    (hsorted : ∀ q ∈ qs, q.Pairwise fun x y => key x < key y) :
    ∃ x q, qs[b.1]? = some (x :: q) ∧ b.2 = key x ∧ ∀ q' ∈ qs, ∀ y ∈ q', key x ≤ key y := by
  obtain ⟨hfrom, hheads, -⟩ := minHeadFrom_some h
  rcases hfrom with hnone | ⟨n, x, q, hget, rfl⟩
  · cases hnone
  rw [Nat.zero_add]
  refine ⟨x, q, hget, rfl, fun q' hq' y hy => ?_⟩
  cases q' with
  | nil => cases hy
  | cons z q' =>
    have hz := hheads z q' hq'
    rcases mem_cons.mp hy with rfl | hy
    · exact hz
    · exact le_trans hz (le_of_lt (rel_of_pairwise_cons (hsorted _ hq') hy))

variable {ι α : Type} [LinearOrder α]

/-- Lanes of increasing stamps, no stamp in two lanes, none above `top`, and the stamps
taken from them so far, in order and below all that is left. -/
structure Lanes (lane : ι → List α) (top : α) (taken : List α) : Prop where
  increasing : ∀ i, (lane i).Pairwise (· < ·)
  distinct : ∀ i j, i ≠ j → ∀ a ∈ lane i, a ∉ lane j
  bounded : ∀ i, ∀ a ∈ lane i, a ≤ top
  later : ∀ t ∈ taken, ∀ i, ∀ a ∈ lane i, t < a
  past : ∀ t ∈ taken, t ≤ top
  sorted : taken.Pairwise (· < ·)

namespace Lanes

variable {lane lane' : ι → List α}

theorem empty (top : α) (h : ∀ i, lane i = []) : Lanes lane top [] where
  increasing i := by rw [h i]; exact .nil
  distinct i j _ a ha := by rw [h i] at ha; cases ha
  bounded i a ha := by rw [h i] at ha; cases ha
  later t ht := absurd ht not_mem_nil
  past t ht := absurd ht not_mem_nil
  sorted := .nil

theorem shrink (h : Lanes lane top taken) (hlane : ∀ i, (lane' i).Sublist (lane i))
    (htop : top ≤ top') : Lanes lane' top' taken where
  increasing i := (h.increasing i).sublist (hlane i)
  distinct i j hij a ha hb := h.distinct i j hij a ((hlane i).subset ha) ((hlane j).subset hb)
  bounded i a ha := le_trans (h.bounded i a ((hlane i).subset ha)) htop
  later t ht i a ha := h.later t ht i a ((hlane i).subset ha)
  past t ht := le_trans (h.past t ht) htop
  sorted := h.sorted

theorem push [DecidableEq ι] (h : Lanes lane top taken) (i : ι) (ha : top < a) :
    Lanes (update lane i (lane i ++ [a])) a taken := by
  have hmem : ∀ j, ∀ b ∈ update lane i (lane i ++ [a]) j, b ∈ lane j ∨ (j = i ∧ b = a) := by
    intro j b hb
    by_cases hj : j = i
    · subst hj
      rw [update_self] at hb
      exact (mem_append.mp hb).imp id fun hb => ⟨rfl, mem_singleton.mp hb⟩
    · rw [update_of_ne hj] at hb
      exact .inl hb
  have hnew : ∀ j, a ∉ lane j := fun j hj => absurd ha (not_lt.mpr (h.bounded j a hj))
  refine ⟨fun j => ?_, fun j k hjk b hb hb' => ?_, fun j b hb => ?_, fun t ht j b hb => ?_,
    fun t ht => le_trans (h.past t ht) (le_of_lt ha), h.sorted⟩
  · by_cases hj : j = i
    · subst hj
      rw [update_self]
      refine pairwise_append.mpr ⟨h.increasing j, pairwise_singleton _ _, ?_⟩
      intro b hb c hc
      rw [mem_singleton.mp hc]
      exact lt_of_le_of_lt (h.bounded j b hb) ha
    · rw [update_of_ne hj]
      exact h.increasing j
  · rcases hmem j b hb with hj | ⟨hj, rfl⟩
    · rcases hmem k b hb' with hk | ⟨-, rfl⟩
      · exact h.distinct j k hjk b hj hk
      · exact hnew j hj
    · rcases hmem k b hb' with hk | ⟨hk, -⟩
      · exact hnew k hk
      · exact hjk (hj.trans hk.symm)
  · rcases hmem j b hb with hj | ⟨-, rfl⟩
    · exact le_trans (h.bounded j b hj) (le_of_lt ha)
    · exact le_refl _
  · rcases hmem j b hb with hj | ⟨-, rfl⟩
    · exact h.later t ht j b hj
    · exact lt_of_le_of_lt (h.past t ht) ha

theorem take [DecidableEq ι] (h : Lanes lane top taken) (hlane : lane i = a :: rest)
    (hleast : ∀ j, ∀ b ∈ lane j, a ≤ b) : Lanes (update lane i rest) top (taken ++ [a]) := by
  have hhead : a ∈ lane i := by
    rw [hlane]
    exact mem_cons_self ..
  have hsub : ∀ j, (update lane i rest j).Sublist (lane j) := by
    intro j
    by_cases hj : j = i
    · subst hj
      rw [update_self, hlane]
      exact sublist_cons_self a rest
    · rw [update_of_ne hj]
  have hless : ∀ j, ∀ b ∈ update lane i rest j, a < b := by
    intro j b hb
    by_cases hj : j = i
    · subst hj
      rw [update_self] at hb
      have hincreasing := h.increasing j
      rw [hlane] at hincreasing
      exact rel_of_pairwise_cons hincreasing hb
    · rw [update_of_ne hj] at hb
      refine lt_of_le_of_ne (hleast j b hb) fun heq => ?_
      exact h.distinct i j (Ne.symm hj) a hhead (heq ▸ hb)
  have hshrunk := h.shrink hsub (le_refl top)
  refine { hshrunk with
    later := fun t ht => ?_, past := fun t ht => ?_
    sorted := pairwise_append.mpr ⟨h.sorted, pairwise_singleton _ _, fun t ht b hb => ?_⟩ }
  · rcases mem_append.mp ht with ht | ht
    · exact hshrunk.later t ht
    · rw [mem_singleton.mp ht]
      exact hless
  · rcases mem_append.mp ht with ht | ht
    · exact h.past t ht
    · rw [mem_singleton.mp ht]
      exact h.bounded i a hhead
  · rw [mem_singleton.mp hb]
    exact h.later t ht i a hhead

end Lanes
end SubEtha.Lib
