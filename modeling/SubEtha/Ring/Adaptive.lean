import Mathlib.Algebra.Group.Nat.Defs
import Mathlib.Data.List.GetD
import Mathlib.Logic.Function.Basic

namespace SubEtha.Ring
open List
open Function (update)

inductive RingError
  | full
  | empty
  | payloadTooLarge
  | layoutMismatch
  | notStamped
  | notDrainer
deriving DecidableEq, Repr

inductive RingShape
  | spsc
  | mpsc
  | mpmc
  | vyukov
deriving DecidableEq, Repr

def RingShape.all : List RingShape := [.spsc, .mpsc, .mpmc, .vyukov]

/-- Payload bytes of a slot of the Lamport rings and of the Vyukov ring. -/
def spscPayload : Nat := 64
def vyukovPayload : Nat := 56

variable {α : Type}

/-- `try_push` of a payload of `len` bytes, as one step on the queue a ring holds.
A shorter payload is stored zero-filled to the slot's size. -/
def tryPush (slotBytes capacity len : Nat) (x : α) (q : List α) : Except RingError (List α) :=
  if slotBytes < len then .error .payloadTooLarge
  else if capacity ≤ q.length then .error .full
  else .ok (q ++ [x])

def tryPop (slotBytes outLen : Nat) (q : List α) : Except RingError (α × List α) :=
  if outLen < slotBytes then .error .payloadTooLarge
  else
    match q with
    | [] => .error .empty
    | x :: q => .ok (x, q)

theorem tryPush_ok (h : tryPush slotBytes capacity len x q = .ok q') : q' = q ++ [x] := by
  unfold tryPush at h
  split at h
  · cases h
  split at h
  · cases h
  · cases h
    rfl

theorem tryPop_of_le (h : slotBytes ≤ outLen) (q : List α) :
    tryPop slotBytes outLen q = match q with
      | [] => .error .empty
      | x :: q => .ok (x, q) := if_neg (Nat.not_lt.mpr h)

theorem tryPop_of_lt (h : outLen < slotBytes) (q : List α) :
    tryPop slotBytes outLen q = .error .payloadTooLarge := if_pos h

theorem tryPop_ok (h : tryPop slotBytes outLen q = .ok (x, q')) :
    slotBytes ≤ outLen ∧ q = x :: q' := by
  rcases Nat.lt_or_ge outLen slotBytes with hlt | hle
  · rw [tryPop_of_lt hlt] at h
    cases h
  rw [tryPop_of_le hle] at h
  cases q with
  | nil => cases h
  | cons y q =>
    cases h
    exact ⟨hle, rfl⟩

theorem tryPop_empty (h : tryPop slotBytes outLen q = .error .empty) :
    slotBytes ≤ outLen ∧ q = [] := by
  rcases Nat.lt_or_ge outLen slotBytes with hlt | hle
  · rw [tryPop_of_lt hlt] at h
    cases h
  rw [tryPop_of_le hle] at h
  cases q with
  | nil => exact ⟨hle, rfl⟩
  | cons y q => cases h

theorem tryPop_error (h : tryPop slotBytes outLen q = .error e) :
    e = .empty ∨ outLen < slotBytes := by
  rcases Nat.lt_or_ge outLen slotBytes with hlt | hle
  · exact .inr hlt
  rw [tryPop_of_le hle] at h
  cases q with
  | nil => exact .inl (Except.error.inj h).symm
  | cons y q => cases h

theorem getD_replicate_nil (n i : Nat) : (replicate n ([] : List α)).getD i [] = [] := by
  by_cases hi : i < n
  · exact getD_replicate _ hi
  · exact getD_eq_default _ _ (by rw [length_replicate]; omega)

theorem getD_set_of_ne {qs : List (List α)} (h : i ≠ p) (q : List α) :
    (qs.set p q).getD i [] = qs.getD i [] := by
  rw [getD_eq_getElem?_getD, getD_eq_getElem?_getD, getElem?_set_ne (Ne.symm h)]

theorem getD_set_self {qs : List (List α)} (h : p < qs.length) (q : List α) :
    (qs.set p q).getD p [] = q := by
  simp [getD_eq_getElem?_getD, getElem?_set_self h]

def producerSlotCeiling : Nat := 4096
def consumerSlotCeiling : Nat := 256

def ownerNone : Nat := 65535

/-- The peer directory. Slot bitmaps and the per-slot and per-ring words are read
as functions of the index; `none` is `OWNER_NONE`. A consumer slot's pid word
matters only by whether it holds `SLOT_RELEASED`: every peer is alive, so any
other value refuses a takeover. -/
structure PeerDirectory where
  epoch : Nat
  published : Nat
  activeProducers : Nat
  activeConsumers : Nat
  producers : Nat → Bool
  consumers : Nat → Bool
  released : Nat → Bool
  owner : Nat → Option Nat
  pending : Nat → Option Nat

namespace PeerDirectory

def create : PeerDirectory where
  epoch := 0
  published := 0
  activeProducers := 0
  activeConsumers := 0
  producers := fun _ => false
  consumers := fun _ => false
  released := fun _ => false
  owner := fun _ => none
  pending := fun _ => none

variable (d : PeerDirectory)

def bumpEpoch : PeerDirectory := { d with epoch := d.epoch + 1 }

def publishRings (target : Nat) : PeerDirectory :=
  bumpEpoch { d with published := max d.published target }

/-- The lowest clear bit among the `fuel` from `i` on. -/
def claimBit (bits : Nat → Bool) : Nat → Nat → Option Nat
  | 0, _ => none
  | fuel + 1, i => if bits i then claimBit bits fuel (i + 1) else some i

def claimProducerSlot : Option (Nat × PeerDirectory) :=
  (claimBit d.producers producerSlotCeiling 0).map fun slot =>
    (slot, bumpEpoch { d with
      activeProducers := d.activeProducers + 1
      producers := update d.producers slot true })

def releaseProducerSlot (slot : Nat) : PeerDirectory :=
  if d.producers slot then
    bumpEpoch { d with
      activeProducers := d.activeProducers - 1
      producers := update d.producers slot false }
  else d

def claimConsumerSlot : Option (Nat × PeerDirectory) :=
  (claimBit d.consumers consumerSlotCeiling 0).map fun slot =>
    (slot, bumpEpoch { d with
      activeConsumers := d.activeConsumers + 1
      consumers := update d.consumers slot true
      released := update d.released slot false })

def releaseConsumerSlot (slot : Nat) : PeerDirectory :=
  if consumerSlotCeiling ≤ slot then d
  else
    let d := { d with released := update d.released slot true }
    if d.consumers slot then
      bumpEpoch { d with
        activeConsumers := d.activeConsumers - 1
        consumers := update d.consumers slot false }
    else d

def consumerSlotClaimed (slot : Nat) : Bool :=
  decide (slot < consumerSlotCeiling) && d.consumers slot

def claimedConsumerSlots : List Nat :=
  (range consumerSlotCeiling).filter d.consumers

def setOwner (ring : Nat) (owner pending : Option Nat) : PeerDirectory :=
  { d with
    owner := update d.owner ring owner
    pending := update d.pending ring pending }

def tryClaimRing (ring me : Nat) : Option PeerDirectory :=
  if d.owner ring = none ∧ d.pending ring = none then some (d.setOwner ring (some me) none)
  else none

def requestHandoff (ring target : Nat) : PeerDirectory :=
  match d.owner ring with
  | none => d
  | some owner => if owner = target then d else d.setOwner ring (some owner) (some target)

/-- The owner's side of a handoff, and the epoch it bumps. -/
def applyHandoff (ring me : Nat) : Option PeerDirectory :=
  if d.owner ring = some me then
    (d.pending ring).map fun target => bumpEpoch (d.setOwner ring (some target) none)
  else none

def ownerWord (me : Nat) : Option Nat := if me = ownerNone then none else some me

def transferRing (ring me : Nat) (target : Option Nat) : PeerDirectory :=
  if d.owner ring = ownerWord me then d.setOwner ring target none else d

/-- Take a ring from an owner that has released its slot. -/
def tryTakeover (ring deadOwner me : Nat) : Option PeerDirectory :=
  if d.released deadOwner ∧ d.owner ring = some deadOwner then
    some (bumpEpoch (d.setOwner ring (some me) none))
  else none

end PeerDirectory

inductive OrderingContract
  | fifo
  | fifoPerProducer
  | kOutOfOrder (k : Nat)
  | unordered
deriving DecidableEq

/-- A declared ceiling; `0` peers means unbounded. -/
structure RingContract where
  maxConcurrentPush : Nat
  maxConcurrentPop : Nat
  ordering : OrderingContract

namespace RingContract

def permitsProducer (g : RingContract) (active : Nat) : Bool :=
  g.maxConcurrentPush == 0 || decide (active < g.maxConcurrentPush)

def permitsConsumer (g : RingContract) (active : Nat) : Bool :=
  g.maxConcurrentPop == 0 || decide (active < g.maxConcurrentPop)

/-- A global order forbids the shapes that interleave producers. -/
def permitsShape (g : RingContract) (shape : RingShape) : Bool :=
  match g.ordering with
  | .fifo => shape == .spsc || shape == .vyukov
  | _ => true

end RingContract

inductive AdaptiveError
  | tooManyProducers
  | tooManyConsumers
  | growthFailed
deriving DecidableEq

def targetShape (producers consumers : Nat) : Option RingShape :=
  if producers = 0 ∨ consumers = 0 then none
  else if consumers = 1 then if producers = 1 then some .spsc else some .mpsc
  else some .mpmc

/-- The shape-morphing ring as one handle sees it, all backings side by side. Pin
generation, frame region and refusal counters are left out: no call below reads
them. -/
structure AdaptiveRing (α : Type) where
  shape : RingShape
  /-- Every shape the ring has ever been in. -/
  used : RingShape → Bool
  spsc : List α
  mpsc : List (List α)
  nextDrain : Nat
  mpmc : List (List α)
  /-- Per consumer: where its MPMC scan starts, and its stuck scans so far. -/
  cursor : Nat → Nat
  probes : Nat → Nat
  vyukov : List α
  capacity : Nat
  directory : PeerDirectory
  /-- `none` before the first sync. -/
  syncedEpoch : Option Nat
  singleReader : Nat
  shapeAuto : Bool
  contract : Option RingContract
  stamped : Bool

namespace AdaptiveRing

variable {α : Type}

def create (maxProducers capacity : Nat) (contract : Option RingContract) (stamped : Bool) :
    AdaptiveRing α where
  shape := .spsc
  used := fun shape => shape == .spsc
  spsc := []
  mpsc := replicate maxProducers []
  nextDrain := 0
  mpmc := replicate maxProducers []
  cursor := fun _ => 0
  probes := fun _ => 0
  vyukov := []
  capacity := capacity
  directory := PeerDirectory.create.publishRings maxProducers
  syncedEpoch := none
  singleReader := 0
  shapeAuto := true
  contract := contract
  stamped := stamped

section
variable (r : AdaptiveRing α)

/-- No data moves; `none` is `LayoutMismatch`. -/
def morphShape (newShape : RingShape) : Option (AdaptiveRing α) :=
  if r.shape = newShape then some r
  else if r.stamped ∧ newShape = .vyukov then none
  else some { r with
    used := update (update r.used r.shape true) newShape true
    shape := newShape }

/-- An explicit morph pins the shape. -/
def morphTo (newShape : RingShape) : AdaptiveRing α × Except RingError Unit :=
  let r := { r with shapeAuto := false }
  match r.morphShape newShape with
  | some r => (r, .ok ())
  | none => (r, .error .layoutMismatch)

def contractFilteredShape (target : RingShape) : RingShape :=
  if r.contract.all fun g => g.permitsShape target then target
  else if r.stamped then target
  else .vyukov

/-- Follow the peer counts; `false` is a refused morph. -/
def reshapeForCounts : AdaptiveRing α × Bool :=
  if !r.shapeAuto || r.shape == .vyukov then (r, true)
  else
    match targetShape r.directory.activeProducers r.directory.activeConsumers with
    | none => (r, true)
    | some target =>
      if target = r.shape then (r, true)
      else
        match r.morphShape (r.contractFilteredShape target) with
        | some r => (r, true)
        | none => (r, false)

/-- An incumbent that holds its slot keeps the role, else the lowest claimed slot
takes it, or slot 0 where none is claimed. -/
def designateSingleReader : AdaptiveRing α :=
  let claimed := r.directory.claimedConsumerSlots
  if claimed.contains r.singleReader then r else { r with singleReader := claimed.headD 0 }

/-- The sync slow path. Every peer is alive, so nothing is reaped, and one handle
holds every ring it publishes, so there is nothing to open. -/
def syncTopology (epoch : Nat) : AdaptiveRing α :=
  let (r, shapeOk) := r.designateSingleReader.reshapeForCounts
  if shapeOk then { r with syncedEpoch := some epoch } else r

def ensureSynced : AdaptiveRing α :=
  let e := r.directory.epoch
  if r.syncedEpoch = some e then r else r.syncTopology e

def growRingsTo (want : Nat) : AdaptiveRing α :=
  { r with
    mpsc := r.mpsc ++ replicate (want - r.mpsc.length) []
    mpmc := r.mpmc ++ replicate (want - r.mpmc.length) []
    directory :=
      if r.directory.published < want then r.directory.publishRings want else r.directory }

/-- `canGrow` is whether the backings of a slot past the published ones can be made. -/
def registerProducer (canGrow : Bool) : AdaptiveRing α × Except AdaptiveError Nat :=
  match r.directory.claimProducerSlot with
  | none => (r, .error .tooManyProducers)
  | some (slot, d) =>
    if r.contract.any fun g => !g.permitsProducer (d.activeProducers - 1) then
      ({ r with directory := d.releaseProducerSlot slot }, .error .tooManyProducers)
    else if d.published ≤ slot ∧ canGrow = false then
      ({ r with directory := d.releaseProducerSlot slot }, .error .growthFailed)
    else
      let r := { r with directory := d }
      let r := if d.published ≤ slot then r.growRingsTo (slot + 1) else r
      (r.ensureSynced.reshapeForCounts.1, .ok slot)

def unregisterProducer (producerId : Nat) : AdaptiveRing α :=
  { r with directory := r.directory.releaseProducerSlot producerId }.reshapeForCounts.1

/-- One ring of the rebalance: an unowned ring is claimed for its target, an owned
one gets a pending handoff. -/
def rebalanceRing (slots : List Nat) (d : PeerDirectory) (ring : Nat) : PeerDirectory :=
  match slots[ring % slots.length]? with
  | none => d
  | some desired =>
    match d.owner ring with
    | none => (d.tryClaimRing ring desired).getD d
    | some owner =>
      if owner = desired then d
      else if d.pending ring = some desired then d
      else d.requestHandoff ring desired

/-- Spread ring ownership round-robin over the claimed consumers. -/
def rebalanceOwnership : AdaptiveRing α :=
  let slots := r.directory.claimedConsumerSlots
  { r with
    directory := (range r.directory.published).foldl (rebalanceRing slots) r.directory }

def registerConsumer : AdaptiveRing α × Except AdaptiveError Nat :=
  match r.directory.claimConsumerSlot with
  | none => (r, .error .tooManyConsumers)
  | some (slot, d) =>
    if r.contract.any fun g => !g.permitsConsumer (d.activeConsumers - 1) then
      ({ r with directory := d.releaseConsumerSlot slot }, .error .tooManyConsumers)
    else
      let r := { r with directory := d }
      (r.designateSingleReader.rebalanceOwnership.ensureSynced.reshapeForCounts.1, .ok slot)

/-- A leaving consumer parcels its rings out to those that remain. -/
def unregisterConsumer (consumerId : Nat) : AdaptiveRing α :=
  let me := consumerId % 2 ^ 16
  let remaining := r.directory.claimedConsumerSlots.filter (· != me)
  let d := (range r.directory.published).foldl
    (fun d ring => d.transferRing ring me remaining[ring % max remaining.length 1]?) r.directory
  { r with directory := d.releaseConsumerSlot consumerId }.designateSingleReader.reshapeForCounts.1

def slotBytes : RingShape → Nat
  | .vyukov => vyukovPayload
  | _ => spscPayload

def backing (shape : RingShape) (producerId : Nat) : Option (List α) :=
  match shape with
  | .spsc => some r.spsc
  | .mpsc => r.mpsc[producerId]?
  | .mpmc => r.mpmc[producerId]?
  | .vyukov => some r.vyukov

def setBacking (shape : RingShape) (producerId : Nat) (q : List α) : AdaptiveRing α :=
  match shape with
  | .spsc => { r with spsc := q }
  | .mpsc => { r with mpsc := r.mpsc.set producerId q }
  | .mpmc => { r with mpmc := r.mpmc.set producerId q }
  | .vyukov => { r with vyukov := q }

def trySend (producerId len : Nat) (x : α) : AdaptiveRing α × Except RingError Unit :=
  let r := r.ensureSynced
  match r.backing r.shape producerId with
  | none => (r, .error .payloadTooLarge)
  | some q =>
    match tryPush (slotBytes r.shape) r.capacity len x q with
    | .error e => (r, .error e)
    | .ok q => (r.setBacking r.shape producerId q, .ok ())

def otherUsedShapes (current : RingShape) : List RingShape :=
  RingShape.all.filter fun s => s != current && r.used s

def mayWalkStale (shape : RingShape) (consumerId : Nat) : Bool :=
  match shape with
  | .spsc | .mpsc => r.singleReader == consumerId
  | .mpmc | .vyukov => true

def scanOrder (start n : Nat) : List Nat := (range n).map fun i => (start + i) % n

/-- The first ring of the scan that yields an item. A pop that fails for any reason
moves the scan on. -/
def mpscPop (outLen : Nat) : AdaptiveRing α × Except RingError α :=
  let n := r.mpsc.length
  let found := (scanOrder r.nextDrain n).findSome? fun idx =>
    match tryPop spscPayload outLen (r.mpsc.getD idx []) with
    | .ok (x, q) => some (idx, x, q)
    | .error _ => none
  match found with
  | some (idx, x, q) =>
    ({ r with mpsc := r.mpsc.set idx q, nextDrain := (idx + 1) % n }, .ok x)
  | none => (r, .error .empty)

/-- Pop ring `idx` of the grid; `none` moves the scan on. -/
def mpmcTake (consumerId outLen idx : Nat) : AdaptiveRing α × Option (Except RingError α) :=
  match tryPop spscPayload outLen (r.mpmc.getD idx []) with
  | .ok (x, q) =>
    ({ r with
      mpmc := r.mpmc.set idx q
      cursor := update r.cursor consumerId ((idx + 1) % r.mpmc.length) }, some (.ok x))
  | .error .empty => (r, none)
  | .error e => (r, some (.error e))

/-- One ring of the scan: drain what is ours, apply a handoff, claim an unowned
ring, take over one whose owner gave its slot up. -/
def mpmcVisit (consumerId outLen idx : Nat) : AdaptiveRing α × Option (Except RingError α) :=
  let me := consumerId % 2 ^ 16
  match r.directory.owner idx with
  | none =>
    match r.directory.tryClaimRing idx me with
    | some d => { r with directory := d }.mpmcTake consumerId outLen idx
    | none => (r, none)
  | some owner =>
    if owner = me then
      match r.directory.applyHandoff idx me with
      | some d => ({ r with directory := d }, none)
      | none => r.mpmcTake consumerId outLen idx
    else if !r.directory.consumerSlotClaimed owner then
      match r.directory.tryTakeover idx owner me with
      | some d => { r with directory := d }.mpmcTake consumerId outLen idx
      | none => (r, none)
    else (r, none)

/-- A ring that another claimed consumer owns and that holds items. -/
def stuckAt (me idx : Nat) : Option (Nat × Nat) :=
  match r.directory.owner idx with
  | none => none
  | some owner =>
    if owner ≠ me ∧ r.directory.consumerSlotClaimed owner ∧ (r.mpmc.getD idx []).length ≠ 0 then
      some (idx, owner)
    else none

/-- The end of an empty scan: every 1024th one that saw a stuck ring tries to take
that ring over. -/
def mpmcProbe (consumerId outLen : Nat) : Option (Nat × Nat) → AdaptiveRing α × Except RingError α
  | none => (r, .error .empty)
  | some (idx, owner) =>
    let probes := r.probes consumerId
    let r := { r with probes := update r.probes consumerId (probes + 1) }
    if probes % 1024 = 1023 then
      match r.directory.tryTakeover idx owner (consumerId % 2 ^ 16) with
      | none => (r, .error .empty)
      | some d =>
        let took := { r with directory := d }.mpmcTake consumerId outLen idx
        (took.1, took.2.getD (.error .empty))
    else (r, .error .empty)

end

/-- Visit rings in turn until one settles the pop. -/
def mpmcScan (consumerId outLen : Nat) :
    List Nat → Option (Nat × Nat) → AdaptiveRing α → AdaptiveRing α × Except RingError α
  | [], stuck, r => r.mpmcProbe consumerId outLen stuck
  | idx :: rest, stuck, r =>
    match r.mpmcVisit consumerId outLen idx with
    | (r', some res) => (r', res)
    | (r', none) =>
      mpmcScan consumerId outLen rest (stuck.or (r.stuckAt (consumerId % 2 ^ 16) idx)) r'

def mpmcPop (r : AdaptiveRing α) (consumerId outLen : Nat) : AdaptiveRing α × Except RingError α :=
  if consumerSlotCeiling ≤ consumerId then (r, .error .payloadTooLarge)
  else mpmcScan consumerId outLen (scanOrder (r.cursor consumerId) r.mpmc.length) none r

/-- Unstamped pop from one shape's backing; a consumer the shape does not serve
reads empty. -/
def shapePop (r : AdaptiveRing α) (shape : RingShape) (consumerId outLen : Nat) :
    AdaptiveRing α × Except RingError α :=
  if !r.mayWalkStale shape consumerId then (r, .error .empty)
  else
    match shape with
    | .spsc =>
      match tryPop spscPayload outLen r.spsc with
      | .ok (x, q) => ({ r with spsc := q }, .ok x)
      | .error e => (r, .error e)
    | .mpsc => r.mpscPop outLen
    | .mpmc => r.mpmcPop consumerId outLen
    | .vyukov =>
      match tryPop vyukovPayload outLen r.vyukov with
      | .ok (x, q) => ({ r with vyukov := q }, .ok x)
      | .error e => (r, .error e)

/-- The left shapes drain before the current one. -/
def walk (current : RingShape) (consumerId outLen : Nat) :
    List RingShape → AdaptiveRing α → AdaptiveRing α × Except RingError α
  | [], r => r.shapePop current consumerId outLen
  | shape :: rest, r =>
    if !r.mayWalkStale shape consumerId then walk current consumerId outLen rest r
    else
      match r.shapePop shape consumerId outLen with
      | (r, .error .empty) => walk current consumerId outLen rest r
      | res => res

/-- `try_recv` on an unstamped ring, into a buffer of `outLen` bytes. -/
def tryRecv (r : AdaptiveRing α) (consumerId outLen : Nat) : AdaptiveRing α × Except RingError α :=
  let r := r.ensureSynced
  walk r.shape consumerId outLen (r.otherUsedShapes r.shape) r

end AdaptiveRing
end SubEtha.Ring
