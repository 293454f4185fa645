import SubEtha.Lib.Bits
import SubEtha.Lib.Lists
import SubEtha.Lib.Runs

namespace SubEtha.Ring
open List
open Lib (isPowerOfTwo append_some mod_ne_of_lap)

inductive PubSubReadError
  | pending
  | lost
deriving DecidableEq

/-- A ring every subscriber reads at its own position. A slot holds the sequence and the
payload of its last write; `none` is the zero sequence of a slot never written. -/
structure PubSubRing (β : Type) where
  head : Nat
  slots : List (Option (Nat × β))
  some_slot : 0 < slots.length

namespace PubSubRing

variable {β : Type}

section
variable (r : PubSubRing β)

def capacity : Nat := r.slots.length

/-- `capacity` slots; `create` takes a power of two from 2 on. -/
def create (capacity : Nat) (h : 0 < capacity) : PubSubRing β :=
  ⟨0, replicate capacity none, by rw [length_replicate]; exact h⟩

def slot (position : Nat) : Option (Nat × β) :=
  r.slots[position % r.capacity]?.join

/-- As one step, so the write a lap earlier has landed. -/
def publish (payload : β) : PubSubRing β where
  head := r.head + 1
  slots := r.slots.set (r.head % r.capacity) (some (r.head + 1, payload))
  some_slot := by rw [length_set]; exact r.some_slot

def readAt (position : Nat) : Except PubSubReadError β :=
  match r.slot position with
  | none => .error .pending
  | some (sequence, payload) =>
    if sequence = position + 1 then .ok payload
    else if position + 1 < sequence then .error .lost
    else .error .pending

end

/-- The slots hold the last lap of what was published. -/
structure Logs (r : PubSubRing β) (log : List β) : Prop where
  head : r.head = log.length
  values : ∀ (j sequence : Nat) (x : β), r.slots[j]? = some (some (sequence, x)) →
    ∃ q, sequence = q + 1 ∧ log[q]? = some x
  current : ∀ (p : Nat) (x : β), log[p]? = some x → log.length ≤ p + r.capacity →
    r.slot p = some (p + 1, x)

theorem logs_create (capacity : Nat) (h : 0 < capacity) :
    Logs (create capacity h : PubSubRing β) [] := by
  refine ⟨rfl, fun j sequence x hj => ?_, by simp⟩
  have hmem := eq_of_mem_replicate (mem_of_getElem? hj)
  cases hmem

section
variable (r : PubSubRing β) (payload : β)

theorem slot_publish_self : (r.publish payload).slot r.head = some (r.head + 1, payload) := by
  have hlt : r.head % r.slots.length < r.slots.length := Nat.mod_lt _ r.some_slot
  simp [slot, publish, capacity, getElem?_set_self hlt]

theorem slot_publish_ne (h : r.head % r.capacity ≠ p % r.capacity) :
    (r.publish payload).slot p = r.slot p := by
  simp only [slot, publish, capacity, length_set] at h ⊢
  rw [getElem?_set_ne h]

theorem publish_capacity : (r.publish payload).capacity = r.capacity := by
  exact length_set

end

theorem Logs.publish (h : Logs r log) (payload : β) :
    Logs (r.publish payload) (log ++ [payload]) := by
  have hlast : (log ++ [payload])[r.head]? = some payload := by
    rw [h.head]
    exact getElem?_concat_length
  refine ⟨?_, fun j sequence x hj => ?_, fun p x hx hlap => ?_⟩
  · rw [length_append, length_singleton, ← h.head]
    rfl
  · rcases mem_or_eq_of_mem_set (mem_of_getElem? hj) with hmem | heq
    · obtain ⟨i, hi⟩ := mem_iff_getElem?.mp hmem
      obtain ⟨q, hq, hx⟩ := h.values i sequence x hi
      refine ⟨q, hq, ?_⟩
      rw [getElem?_append_left (lt_of_some hx)]
      exact hx
    · cases heq
      exact ⟨r.head, rfl, hlast⟩
  · rw [length_append, length_singleton, publish_capacity] at hlap
    rcases append_some hx with hx | ⟨hp, rfl⟩
    · have hlt := lt_of_some hx
      have hhead := h.head
      rw [slot_publish_ne r payload (mod_ne_of_lap (by omega) (by omega))]
      exact h.current p x hx (by omega)
    · rw [hp, ← h.head]
      exact slot_publish_self r x

/-- A position is pending until it is published, and lost once a lap has been written past it. -/
theorem Logs.readAt_eq {log : List β} (h : Logs r log) (p : Nat) : r.readAt p = match log[p]? with
    | none => .error .pending
    | some x => if log.length ≤ p + r.capacity then .ok x else .error .lost := by
  unfold PubSubRing.readAt
  cases hx : log[p]? with
  | none =>
    have hend := getElem?_eq_none_iff.mp hx
    cases hslot : r.slot p with
    | none => rfl
    | some written =>
      obtain ⟨q, hq, hy⟩ := h.values _ written.1 written.2 (Option.join_eq_some_iff.mp hslot)
      have hlt := lt_of_some hy
      simp only
      rw [if_neg (by omega), if_neg (by omega)]
  | some x =>
    by_cases hlap : log.length ≤ p + r.capacity
    · simp [h.current p x hx hlap, hlap]
    -- the slot holds the latest position that masks to it
    have hpos : 0 < r.capacity := r.some_slot
    have hdiv := Nat.div_add_mod (log.length - 1 - p) r.capacity
    have hmod := Nat.mod_lt (log.length - 1 - p) hpos
    have hlast : p + r.capacity * ((log.length - 1 - p) / r.capacity) < log.length := by omega
    have hslot : r.slot p = r.slot (p + r.capacity * ((log.length - 1 - p) / r.capacity)) := by
      rw [slot, slot, Nat.add_mul_mod_self_left]
    rw [hslot, h.current _ _ (getElem?_eq_getElem hlast) (by omega)]
    dsimp only
    rw [if_neg (by omega), if_pos (by omega), if_neg hlap]

end PubSubRing

/-- One backing in the chain; its generation is its place in the list of backings. `log` is
everything published into it, kept for the statements only. -/
structure PubSubBacking (α : Type) where
  ring : PubSubRing (Nat × α)
  log : List (Nat × α)
  next : Option Nat
  isSealed : Bool
  writers : Nat

/-- Where a `publish` stands; `b` is the backing it loaded. -/
inductive PublishTask (α : Type)
  | idle
  | loading (payload : α)
  | loaded (payload : α) (b : Nat)
  | announced (payload : α) (b : Nat)
  /-- It found no seal. -/
  | writing (payload : α) (b : Nat)
  | leaving (b : Nat)
  /-- It found the seal. -/
  | backingOut (payload : α) (b : Nat)

/-- Where a `morph_capacity_to` stands after it put `new` in the place of `old`. -/
inductive MorphTask
  | idle
  | swapped (old new : Nat)
  | waiting (old new : Nat)
  /-- It has seen no writers. -/
  | linking (old new : Nat)

/-- A subscriber: the backing it reads and its position there. Where it started and what
it has received are kept for the statements only. -/
structure CapacityPubSubSubscriber (α : Type) where
  backing : Nat
  position : Nat
  start : Nat × Nat
  received : List (Nat × α)

/-- The ring with its publishers, its morphing callers and its subscribers. A payload is
published with the publisher's number; `published` lists the writes in order. -/
structure CapacityPubSub (α : Type) where
  backings : List (PubSubBacking α)
  active : Nat
  oldest : Nat
  publishers : List (PublishTask α)
  morphs : List MorphTask
  subs : List (CapacityPubSubSubscriber α)
  published : List (Nat × α)

inductive PubSubEvent (α : Type)
  | publish (i : Nat) (payload : α)
  /-- The next step of publisher `i`'s call. -/
  | publishOn (i : Nat)
  | morphCapacityTo (j capacity : Nat)
  /-- The next step of caller `j`'s morph. -/
  | morphOn (j : Nat)
  | subscribeFromNow
  | subscribeFromOldest
  | tryNext (k : Nat)
  | gc (passes : Nat)

namespace CapacityPubSub

variable {α : Type} (s : CapacityPubSub α)

def backing (capacity : Nat) (h : 0 < capacity) : PubSubBacking α :=
  ⟨.create capacity h, [], none, false, 0⟩

/-- The ring at its creation, for `publishers` publishers and `morphs` morphing callers. -/
def create (capacity : Nat) (h : 0 < capacity) (publishers morphs : Nat) : CapacityPubSub α :=
  ⟨[backing capacity h], 0, 0, replicate publishers .idle, replicate morphs .idle, [], []⟩

def onBacking (b : Nat) (f : PubSubBacking α → PubSubBacking α) : CapacityPubSub α :=
  { s with backings := s.backings.modify b f }

def setPublisher (i : Nat) (task : PublishTask α) : CapacityPubSub α :=
  { s with publishers := s.publishers.set i task }

def setMorph (j : Nat) (task : MorphTask) : CapacityPubSub α :=
  { s with morphs := s.morphs.set j task }

def isSealed (s : CapacityPubSub α) (b : Nat) : Bool := s.backings[b]?.any PubSubBacking.isSealed

def publishOn (i : Nat) : PublishTask α → CapacityPubSub α
  | .idle => s
  | .loading payload => s.setPublisher i (.loaded payload s.active)
  | .loaded payload b =>
    (s.onBacking b fun k => { k with writers := k.writers + 1 }).setPublisher i
      (.announced payload b)
  | .announced payload b =>
    s.setPublisher i (if s.isSealed b then .backingOut payload b else .writing payload b)
  | .writing payload b =>
    { s.onBacking b fun k =>
        { k with ring := k.ring.publish (i, payload), log := k.log ++ [(i, payload)] } with
      published := s.published ++ [(i, payload)] }.setPublisher i (.leaving b)
  | .leaving b =>
    (s.onBacking b fun k => { k with writers := k.writers - 1 }).setPublisher i .idle
  | .backingOut payload b =>
    (s.onBacking b fun k => { k with writers := k.writers - 1 }).setPublisher i (.loading payload)

/-- The active backing swapped for a fresh one. A caller whose compare-and-set fails tries
again from the backing it finds, so the load and the swap are one step. -/
def morphCapacityTo (j capacity : Nat) : CapacityPubSub α :=
  if h : (isPowerOfTwo capacity ∧ 2 ≤ capacity) ∧
      s.backings[s.active]?.map (fun b => b.ring.capacity) ≠ some capacity then
    { s with
      backings := s.backings ++ [backing capacity (Nat.lt_of_lt_of_le Nat.zero_lt_two h.1.2)]
      active := s.backings.length }.setMorph j (.swapped s.active s.backings.length)
  else s

def morphOn (j : Nat) : MorphTask → CapacityPubSub α
  | .idle => s
  | .swapped old new =>
    (s.onBacking old fun k => { k with isSealed := true }).setMorph j (.waiting old new)
  | .waiting old new =>
    if s.backings[old]?.any fun k => k.writers == 0 then s.setMorph j (.linking old new) else s
  | .linking old new =>
    (s.onBacking old fun k => { k with next := some new }).setMorph j .idle

/-- Each round reads at the position, or crosses to the successor; `none` where the rounds
do not suffice. -/
def tryNext (backings : List (PubSubBacking α)) : Nat → CapacityPubSubSubscriber α →
      Option (CapacityPubSubSubscriber α × Except PubSubReadError (Nat × α))
  | 0, _ => none
  | rounds + 1, sub =>
    match backings[sub.backing]? with
    | none => none
    | some b =>
      match b.ring.readAt sub.position, b.next with
      | .ok x, _ =>
        some ({ sub with position := sub.position + 1, received := sub.received ++ [x] }, .ok x)
      | .error .pending, some next => tryNext backings rounds { sub with backing := next, position := 0 }
      | .error e, _ => some (sub, .error e)

/-- Each pass moves the oldest kept backing past one that has a successor and that no
subscriber reads. Other holders of a backing (a publish's guard, an older backing that is
still held) only end the walk earlier: `passes` bounds it. -/
def gc (s : CapacityPubSub α) : Nat → CapacityPubSub α
  | 0 => s
  | passes + 1 =>
    match (s.backings[s.oldest]?).bind PubSubBacking.next with
    | none => s
    | some next =>
      if s.subs.any fun sub => sub.backing == s.oldest then s
      else gc { s with oldest := next } passes

def subscribe (b position : Nat) : CapacityPubSub α :=
  { s with subs := s.subs ++ [⟨b, position, (b, position), []⟩] }

/-- One step; an event of a task that is not there changes nothing. -/
def step : PubSubEvent α → Option (CapacityPubSub α)
  | .publish i payload =>
    match s.publishers[i]? with
    | some .idle => some (s.setPublisher i (.loading payload))
    | _ => some s
  | .publishOn i =>
    match s.publishers[i]? with
    | some task => some (s.publishOn i task)
    | none => some s
  | .morphCapacityTo j capacity =>
    match s.morphs[j]? with
    | some .idle => some (s.morphCapacityTo j capacity)
    | _ => some s
  | .morphOn j =>
    match s.morphs[j]? with
    | some task => some (s.morphOn j task)
    | none => some s
  | .subscribeFromNow =>
    some (s.subscribe s.active ((s.backings[s.active]?.map fun b => b.ring.head).getD 0))
  | .subscribeFromOldest => some (s.subscribe s.oldest 0)
  | .tryNext k =>
    match s.subs[k]? with
    | none => some s
    | some sub => (tryNext s.backings s.backings.length sub).map fun (sub, _) =>
      { s with subs := s.subs.set k sub }
  | .gc passes => some (s.gc passes)

end CapacityPubSub
end SubEtha.Ring
