import SubEtha.Lib.Lanes
import SubEtha.Ring.Adaptive

namespace SubEtha.Ring
open List
open Function (update)
open Lib (minHead minHead_none minHead_some)

def stampBytes : Nat := 8
def stampedPayload : Nat := spscPayload - stampBytes

/-- The stamp state of a ring with `SharedCounter` stamps: the counter and, per
producer line, the last issued stamp or reservation floor and the watermark. -/
structure OrderingRegion where
  maxProducers : Nat
  sharedStamp : Nat
  issued : Nat → Nat
  watermark : Nat → Nat

namespace OrderingRegion

def create (maxProducers : Nat) : OrderingRegion := ⟨maxProducers, 0, fun _ => 0, fun _ => 0⟩

variable (g : OrderingRegion)

/-- First store of `next_stamp`: a lower bound for the stamp to come. -/
def reserve (p : Nat) : Nat × OrderingRegion :=
  (g.issued p + 1, { g with issued := update g.issued p (g.issued p + 1) })

/-- The counter's `fetch_add`, and the stamp it makes over the floor. -/
def draw (floor : Nat) : Nat × OrderingRegion :=
  (max (g.sharedStamp + 1) floor, { g with sharedStamp := g.sharedStamp + 1 })

/-- Last store of `next_stamp`. -/
def record (p stamp : Nat) : OrderingRegion :=
  { g with issued := update g.issued p stamp }

def nextStamp (p : Nat) : Nat × OrderingRegion :=
  let (floor, g) := g.reserve p
  let (stamp, g) := g.draw floor
  (stamp, g.record p stamp)

def publishWatermark (p stamp : Nat) : OrderingRegion :=
  { g with watermark := update g.watermark p stamp }

/-- The producer holds a stamp below the candidate that it has yet to publish. -/
def inFlightBelow (p candidate : Nat) : Bool :=
  if candidate ≤ g.issued p then false else g.issued p != g.watermark p

/-- Heartbeat of an idle producer. -/
def refreshWatermark (p : Nat) : OrderingRegion :=
  let stamp := max (g.sharedStamp + 1) (g.issued p + 1)
  { g with
    sharedStamp := g.sharedStamp + 1
    issued := update g.issued p stamp
    watermark := update g.watermark p stamp }

end OrderingRegion

variable {β : Type}

/-- The in-flight gate of both merge modes. -/
def inFlightGate (g : OrderingRegion) (gateLines stamp : Nat) : Bool :=
  (range gateLines).any fun line => g.inFlightBelow line stamp

/-- The watermark gate of `MergeStrict`: a line in use whose ring is empty has to have
reached the candidate. -/
def watermarkGate (g : OrderingRegion) (gateLines stamp : Nat) (rings : List (List (Nat × β))) :
    Bool :=
  (range gateLines).any fun line =>
    g.issued line != 0 && (rings.getD (min line (rings.length - 1)) []).isEmpty &&
      decide (g.watermark line < stamp)

/-- Pop the smallest stamp among the ring heads, if the gates let it go. Counter stamps
have no freshness guard. The last branch is the source's `expect`: a head that was
peeked is still there. -/
def mergePop (g : OrderingRegion) (strict : Bool) (gateLines : Nat)
    (rings : List (List (Nat × β))) : Except RingError ((Nat × β) × List (List (Nat × β))) :=
  if rings.isEmpty then .error .layoutMismatch
  else
    match minHead Prod.fst rings with
    | none => .error .empty
    | some (idx, stamp) =>
      if inFlightGate g gateLines stamp then .error .empty
      else if strict && watermarkGate g gateLines stamp rings then .error .empty
      else
        match rings.getD idx [] with
        | x :: q => .ok (x, rings.set idx q)
        | [] => .error .empty

/-- What a merge that returned `x` did: `x` was a head with the least stamp of all, and
the gates were open for it. -/
structure Merged (g : OrderingRegion) (strict : Bool) (gateLines : Nat)
    (rings : List (List (Nat × β))) (x : Nat × β) (rings' : List (List (Nat × β))) (idx : Nat)
    (q : List (Nat × β)) : Prop where
  head : rings[idx]? = some (x :: q)
  min : minHead Prod.fst rings = some (idx, x.1)
  rest : rings' = rings.set idx q
  least : ∀ q' ∈ rings, ∀ y ∈ q', x.1 ≤ y.1
  landed : ∀ line < gateLines, g.inFlightBelow line x.1 = false
  released : strict = true → watermarkGate g gateLines x.1 rings = false

theorem mergePop_ok {rings rings' : List (List (Nat × β))}
    (hsorted : ∀ q ∈ rings, q.Pairwise fun x y => x.1 < y.1)
    (h : mergePop g strict gateLines rings = .ok (x, rings')) :
    ∃ idx q, Merged g strict gateLines rings x rings' idx q := by
  unfold mergePop at h
  split at h
  · cases h
  split at h
  · cases h
  rename_i idx stamp hmin
  obtain ⟨y, q, hget, hkey, hleast⟩ := minHead_some hmin hsorted
  have hgetD : rings.getD idx [] = y :: q := by
    simp [getD_eq_getElem?_getD, hget]
  have hstamp : stamp = y.1 := hkey
  split at h
  · cases h
  rename_i hflight
  split at h
  · cases h
  rename_i hstrict
  rw [hgetD] at h
  cases h
  subst hstamp
  refine ⟨idx, q, hget, hmin, rfl, hleast, fun line hline => ?_, fun hs => ?_⟩
  · by_contra hne
    exact hflight (any_eq_true.mpr ⟨line, mem_range.mpr hline, by simpa using hne⟩)
  · simpa [hs] using hstrict

/-- A merge that returned `Empty` saw no item, or a gate kept the least one back. -/
theorem mergePop_empty {rings : List (List (Nat × β))}
    (hsorted : ∀ q ∈ rings, q.Pairwise fun x y => x.1 < y.1)
    (h : mergePop g strict gateLines rings = .error .empty) :
    (∀ q ∈ rings, q = []) ∨ ∃ b, minHead Prod.fst rings = some b ∧
      (inFlightGate g gateLines b.2 = true ∨
        (strict = true ∧ watermarkGate g gateLines b.2 rings = true)) := by
  unfold mergePop at h
  split at h
  · cases h
  split at h
  · rename_i hmin
    exact .inl (minHead_none hmin)
  rename_i idx stamp hmin
  refine .inr ⟨(idx, stamp), hmin, ?_⟩
  split at h
  · rename_i hflight
    exact .inl hflight
  split at h
  · rename_i hgate
    exact .inr (Bool.and_eq_true_iff.mp hgate)
  obtain ⟨x, q, hget, -, -⟩ := minHead_some hmin hsorted
  rw [getD_eq_getElem?_getD, hget] at h
  cases h

end SubEtha.Ring
