import SubEtha.Ring.CapacityOrder
import SubEtha.Ring.Stamped

namespace SubEtha.Ring
open List Function

variable {β : Type}

/-- `g`, fresh, goes on from the stamps of the region it follows. -/
def OrderingRegion.seedFrom (g other : OrderingRegion) : OrderingRegion :=
  let shared := fun p => p < min g.maxProducers other.maxProducers
  { g with
    sharedStamp := other.sharedStamp
    issued := fun p => if shared p then other.issued p else g.issued p
    watermark := fun p => if shared p then other.watermark p else g.watermark p }

/-- A stamped resizable ring in one merge mode: each backing has a region of stamps. -/
structure StampedCapacity (β : Type) where
  ring : CapacityRing (Nat × β)
  region : Nat → OrderingRegion
  strict : Bool

namespace StampedCapacity

/-- Peers register on the first backing. -/
def create (maxProducers capacity : Nat) (strict : Bool) (peers : List PeerCall) :
    Except CapacityMorphError (StampedCapacity β) :=
  (CapacityRing.create maxProducers capacity true).map fun ring =>
    ⟨(Resizing.start ring peers none).ring, fun _ => .create maxProducers, strict⟩

section
variable (w : StampedCapacity β)

def backing (b : Nat) : StampedRing β := ⟨w.ring.backing b, w.region b⟩

def setBacking (b : Nat) (r : StampedRing β) : StampedCapacity β :=
  { w with
    ring := { w.ring with backing := update w.ring.backing b r.ring }
    region := update w.region b r.region }

def settle (canGrow : Bool) : StampedCapacity β :=
  { w with ring := w.ring.settle canGrow w.ring.state }

def trySend (canGrow : Bool) (producerId len : Nat) (x : β) :
    StampedCapacity β × Except RingError Unit :=
  let w := w.settle canGrow
  let out := (w.backing w.ring.state.active).stampedSend producerId len x
  (w.setBacking w.ring.state.active out.1, out.2)

/-- A backing that the morph put in is seeded from the one it replaced. -/
def morphCapacityTo (canBuild canGrow : Bool) (newCapacity : Nat) :
    StampedCapacity β × Except CapacityMorphError Unit :=
  let out := w.ring.morphCapacityTo canBuild canGrow [] newCapacity
  let seeded := (OrderingRegion.create w.ring.maxProducers).seedFrom
    (w.region w.ring.state.active)
  ({ w with
    ring := out.1
    region := if out.1.made = w.ring.made then w.region else update w.region w.ring.made seeded },
    out.2)

end

def drain (consumerId outLen : Nat) (strict : Bool) :
    Nat → StampedRing β → Option (StampedRing β × Option (Except RingError (Nat × β)))
  | 0, _ => none
  | fuel + 1, r =>
    match r.orderedRecv consumerId outLen strict with
    | (r, .error .empty) =>
      if r.ring.isEmpty then some (r, none) else drain consumerId outLen strict fuel r
    | (r, res) => some (r, some res)

def walkStale (consumerId outLen fuel : Nat) : List Nat → StampedCapacity β →
    Option (StampedCapacity β × Option (Except RingError (Nat × β)))
  | [], w => some (w, none)
  | b :: rest, w =>
    (drain consumerId outLen w.strict fuel (w.backing b)).bind fun out =>
      let w := w.setBacking b out.1
      match out.2 with
      | some res => some (w, some res)
      | none => walkStale consumerId outLen fuel rest w

/-- `try_recv`; `none` is a read that still spins on a stale backing. -/
def tryRecv (canGrow : Bool) (consumerId outLen fuel : Nat) (w : StampedCapacity β) :
    Option (StampedCapacity β × Except RingError (Nat × β)) :=
  (walkStale consumerId outLen fuel w.ring.state.stale w).map fun out =>
    match out.2 with
    | some res => (out.1, res)
    | none =>
      let w := out.1.settle canGrow
      let out := (w.backing w.ring.state.active).orderedRecv consumerId outLen w.strict
      (w.setBacking w.ring.state.active out.1, out.2)

variable {strict : Bool}

theorem mergeWalk_keeps (h : StampedRing.mergeWalk strict shapes r = (r', .error e)) : r' = r := by
  induction shapes generalizing r with
  | nil => exact (congrArg Prod.fst h).symm
  | cons shape shapes ih =>
    have hshape : ∀ e r', r.mergeShape shape strict = (r', .error e) → r' = r := by
      intro e r' hpop
      unfold StampedRing.mergeShape at hpop
      split at hpop <;> cases hpop
      rfl
    rw [StampedRing.mergeWalk] at h
    split at h
    · rename_i r1 hpop
      rw [ih h, hshape _ r1 hpop]
    · exact hshape _ _ h

/-- No call but a producer's moves a watermark, and none writes to a stale backing: what the
gate keeps back there is waited for without end. -/
theorem drain_spins (hsynced : r.ring.syncedEpoch = some r.ring.directory.epoch)
    (hempty : (r.orderedRecv consumerId outLen strict).2 = .error .empty)
    (hheld : r.ring.isEmpty = false) (fuel : Nat) : drain consumerId outLen strict fuel r = none := by
  have hsame : r.orderedRecv consumerId outLen strict = (r, .error .empty) := by
    have hring : r.ring.ensureSynced = r.ring := if_pos hsynced
    unfold StampedRing.orderedRecv at hempty ⊢
    rw [hring] at hempty ⊢
    dsimp only at hempty ⊢
    split at hempty
    · cases hempty
    rename_i hroom
    rw [if_neg hroom]
    exact Prod.ext (mergeWalk_keeps (Prod.ext rfl hempty)) hempty
  induction fuel with
  | zero => rfl
  | succ fuel ih => simp [drain, hsame, hheld, ih]

/-- Producer 1 sends and is read, producer 0 sends, the ring grows. -/
def outgrown : Option (StampedCapacity Nat) := do
  let w ← (create 2 64 true Resizing.sleeperPeers).toOption
  let (w, .ok _) := w.trySend true 1 8 10 | none
  let (w, .ok _) ← w.tryRecv true 0 56 2 | none
  let (w, .ok _) := w.trySend true 0 8 20 | none
  let (w, .ok _) := w.morphCapacityTo true true 128 | none
  return w

theorem outgrown_made : outgrown.isSome := by
  decide +kernel

/-- The item of producer 0 waits in the stale backing for a watermark that producer 1 will only
ever advance in the new one. -/
theorem outgrown_spins :
    ∃ w, outgrown = some w ∧ ∀ fuel, w.tryRecv true 0 56 fuel = none := by
  refine ⟨_, (Option.some_get outgrown_made).symm, fun fuel => ?_⟩
  have hstale : (outgrown.get outgrown_made).ring.state.stale = [0] := by decide +kernel
  have hspins : drain 0 56 (outgrown.get outgrown_made).strict fuel
      ((outgrown.get outgrown_made).backing 0) = none :=
    drain_spins (by decide +kernel) (by decide +kernel) (by decide +kernel) fuel
  rw [tryRecv, hstale, walkStale, hspins]
  rfl

end StampedCapacity
end SubEtha.Ring
