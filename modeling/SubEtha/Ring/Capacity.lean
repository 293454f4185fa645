import SubEtha.Lib.Bits
import SubEtha.Ring.Adaptive
import Mathlib.Data.List.Dedup

namespace SubEtha.Ring
open List
open Function (update)
open Lib (isPowerOfTwo)

namespace PeerDirectory

def claimProducerSlotAt (d : PeerDirectory) (slot : Nat) : Option PeerDirectory :=
  if producerSlotCeiling ≤ slot ∨ d.producers slot then none
  else some (bumpEpoch { d with
    activeProducers := d.activeProducers + 1
    producers := update d.producers slot true })

def claimedProducerSlots (d : PeerDirectory) : List Nat :=
  (range producerSlotCeiling).filter d.producers

def claimConsumerSlotAt (d : PeerDirectory) (slot : Nat) : Option PeerDirectory :=
  if consumerSlotCeiling ≤ slot ∨ d.consumers slot then none
  else some (bumpEpoch { d with
    activeConsumers := d.activeConsumers + 1
    consumers := update d.consumers slot true
    released := update d.released slot false })

end PeerDirectory

namespace AdaptiveRing

variable {α : Type}

def producerAdmitted (r : AdaptiveRing α) : AdaptiveRing α := r.ensureSynced.reshapeForCounts.1

/-- Take a producer over under its id; `false` where the id is already held. A ring
that cannot be made leaves the claim in place. -/
def carryProducer (canGrow : Bool) (r : AdaptiveRing α) (producerId : Nat) :
    AdaptiveRing α × Except AdaptiveError Bool :=
  if producerSlotCeiling ≤ producerId then (r, .error .tooManyProducers)
  else
    match r.directory.claimProducerSlotAt producerId with
    | none => (r, .ok false)
    | some d =>
      let r := { r with directory := d }
      if producerId < d.published then (r.producerAdmitted, .ok true)
      else if canGrow then ((r.growRingsTo (producerId + 1)).producerAdmitted, .ok true)
      else (r.producerAdmitted, .error .growthFailed)

def consumerAdmitted (r : AdaptiveRing α) : AdaptiveRing α :=
  r.designateSingleReader.rebalanceOwnership.ensureSynced.reshapeForCounts.1

def carryConsumer (r : AdaptiveRing α) (consumerId : Nat) :
    AdaptiveRing α × Except AdaptiveError Bool :=
  if consumerSlotCeiling ≤ consumerId then (r, .error .tooManyConsumers)
  else
    match r.directory.claimConsumerSlotAt consumerId with
    | none => (r, .ok false)
    | some d => ({ r with directory := d }.consumerAdmitted, .ok true)

def carryAll (carry : AdaptiveRing α → Nat → AdaptiveRing α × Except AdaptiveError Bool) :
    List Nat → AdaptiveRing α → AdaptiveRing α × Except AdaptiveError Unit
  | [], r => (r, .ok ())
  | id :: ids, r =>
    match carry r id with
    | (r, .ok _) => carryAll carry ids r
    | (r, .error e) => (r, .error e)

def backingIsEmpty (r : AdaptiveRing α) : RingShape → Bool
  | .spsc => r.spsc.isEmpty
  | .mpsc => r.mpsc.all isEmpty
  | .mpmc => r.mpmc.all isEmpty
  | .vyukov => r.vyukov.isEmpty

def isEmpty (r : AdaptiveRing α) : Bool :=
  (r.otherUsedShapes r.shape).all r.backingIsEmpty && r.backingIsEmpty r.shape

end AdaptiveRing

inductive CapacityMorphError
  | invalidCapacity
  | ring (e : RingError)
  | adaptive (e : AdaptiveError)

/-- One published state: the backing producers write, and those the consumer still
drains, oldest first. `seq` tells published states apart, as their addresses do. -/
structure RingState where
  seq : Nat
  active : Nat
  stale : List Nat
  capacity : Nat
deriving DecidableEq

namespace RingState

def names (s : RingState) (b : Nat) : Bool := s.active == b || s.stale.contains b

def backings (s : RingState) : List Nat := s.stale ++ [s.active]

end RingState

/-- The reference count of a backing: every state that is in place or that a guard
holds counts once. -/
def strongCount (live : List RingState) (b : Nat) : Nat :=
  (live.dedup.filter fun s => s.names b).length

structure RingConfig where
  shape : Option RingShape
  capacity : Option Nat

/-- The resizable ring, its backings numbered as they are made. Locale, warm cache, pin
generation and registration seals are left out. -/
structure CapacityRing (α : Type) where
  backing : Nat → AdaptiveRing α
  made : Nat
  state : RingState
  published : Nat
  settled : Nat → Bool
  maxProducers : Nat
  stamped : Bool

namespace CapacityRing

variable {α : Type}

def create (maxProducers capacity : Nat) (stamped : Bool) :
    Except CapacityMorphError (CapacityRing α) :=
  if isPowerOfTwo capacity ∧ 2 ≤ capacity then
    .ok {
      backing := fun _ => .create maxProducers capacity none stamped
      made := 1
      state := ⟨0, 0, [], capacity⟩
      published := 1
      settled := fun _ => true
      maxProducers := maxProducers
      stamped := stamped }
  else .error .invalidCapacity

/-- Carry the registrations of the backing a state replaced, once. A peer that cannot
be carried is reported and left behind. -/
def settle (canGrow : Bool) (c : CapacityRing α) (s : RingState) : CapacityRing α :=
  if c.settled s.seq then c
  else
    let c := { c with settled := update c.settled s.seq true }
    match s.stale.getLast? with
    | none => c
    | some replaced =>
      let d := (c.backing replaced).directory
      let r := d.claimedProducerSlots.foldl (fun r id => (r.carryProducer canGrow id).1)
        (c.backing s.active)
      let r := d.claimedConsumerSlots.foldl (fun r id => (r.carryConsumer id).1) r
      { c with backing := update c.backing s.active r }

/-- `try_send` on an unstamped ring, from the state it loaded. -/
def trySend (canGrow : Bool) (c : CapacityRing α) (s : RingState) (producerId len : Nat) (x : α) :
    CapacityRing α × Except RingError Unit :=
  let c := c.settle canGrow s
  let out := (c.backing s.active).trySend producerId len x
  ({ c with backing := update c.backing s.active out.1 }, out.2)

/-- Read a stale backing until it yields or reports itself drained; `none` where it
has done neither after `fuel` tries. -/
def drain (consumerId outLen : Nat) :
    Nat → AdaptiveRing α → Option (AdaptiveRing α × Option (Except RingError α))
  | 0, _ => none
  | fuel + 1, r =>
    match r.tryRecv consumerId outLen with
    | (r, .error .empty) => if r.isEmpty then some (r, none) else drain consumerId outLen fuel r
    | (r, res) => some (r, some res)

/-- Walk the stale backings; a result ends the walk. -/
def walkStale (consumerId outLen fuel : Nat) :
    List Nat → CapacityRing α → Option (CapacityRing α × Option (Except RingError α))
  | [], c => some (c, none)
  | b :: rest, c =>
    (drain consumerId outLen fuel (c.backing b)).bind fun out =>
      let c := { c with backing := update c.backing b out.1 }
      match out.2 with
      | some res => some (c, some res)
      | none => walkStale consumerId outLen fuel rest c

/-- `try_recv` on an unstamped ring; `none` is a read that still spins on a stale backing. -/
def tryRecv (canGrow : Bool) (consumerId outLen fuel : Nat) (c : CapacityRing α) :
    Option (CapacityRing α × Except RingError α) :=
  (walkStale consumerId outLen fuel c.state.stale c).map fun out =>
    match out.2 with
    | some res => (out.1, res)
    | none =>
      let c := out.1.settle canGrow out.1.state
      let out := (c.backing c.state.active).tryRecv consumerId outLen
      ({ c with backing := update c.backing c.state.active out.1 }, out.2)

/-- A stale backing goes when it is drained and no other state holds it. -/
def prune (c : CapacityRing α) (live : List RingState) : List Nat :=
  c.state.stale.filter fun b => !((c.backing b).isEmpty && strongCount live b == 1)

def install (c : CapacityRing α) (live : List RingState) (capacity : Nat) (r : AdaptiveRing α) :
    CapacityRing α :=
  { c with
    backing := update c.backing c.made r
    made := c.made + 1
    state := ⟨c.published, c.made, c.prune live ++ [c.state.active], capacity⟩
    published := c.published + 1
    settled := update c.settled c.published false }

/-- The backing a morph puts in: `old`'s peers and the target shape. -/
def successor (canGrow : Bool) (c : CapacityRing α) (old : AdaptiveRing α) (capacity : Nat)
    (shape : RingShape) : Except CapacityMorphError (AdaptiveRing α) :=
  let new := AdaptiveRing.create c.maxProducers capacity none c.stamped
  match AdaptiveRing.carryAll (·.carryProducer canGrow ·) old.directory.claimedProducerSlots new with
  | (_, .error e) => .error (.adaptive e)
  | (new, .ok _) =>
    match AdaptiveRing.carryAll (·.carryConsumer ·) old.directory.claimedConsumerSlots new with
    | (_, .error e) => .error (.adaptive e)
    | (new, .ok _) =>
      if new.shape = shape then .ok new
      else
        match new.morphTo shape with
        | (_, .error e) => .error (.ring e)
        | (new, .ok _) => .ok new

/-- `guards` are the states loaded and not yet let go, `canGrow` and `canBuild`
whether backings can be made. Nothing else morphs meanwhile, so the state is published. -/
def morphToConfig (canBuild canGrow : Bool) (guards : List RingState) (target : RingConfig)
    (c : CapacityRing α) : CapacityRing α × Except CapacityMorphError Unit :=
  let c := c.settle canGrow c.state
  let old := c.backing c.state.active
  let newCapacity := target.capacity.getD c.state.capacity
  if ¬(isPowerOfTwo newCapacity ∧ 2 ≤ newCapacity) then (c, .error .invalidCapacity)
  else
    let newShape := target.shape.getD old.shape
    if newCapacity = c.state.capacity then
      if newShape = old.shape then (c, .ok ())
      else
        match old.morphTo newShape with
        | (r, .error e) => ({ c with backing := update c.backing c.state.active r }, .error (.ring e))
        | (r, .ok _) =>
          ({ c with
            backing := update c.backing c.state.active r
            state := { c.state with seq := c.published }
            published := c.published + 1
            settled := update c.settled c.published true }, .ok ())
    else if !canBuild then (c, .error (.ring .layoutMismatch))
    else
      match c.successor canGrow old newCapacity newShape with
      | .error e => (c, .error e)
      | .ok new => (c.install (c.state :: guards) newCapacity new, .ok ())

def morphCapacityTo (canBuild canGrow : Bool) (guards : List RingState) (newCapacity : Nat)
    (c : CapacityRing α) : CapacityRing α × Except CapacityMorphError Unit :=
  c.morphToConfig canBuild canGrow guards ⟨none, some newCapacity⟩

end CapacityRing
end SubEtha.Ring
