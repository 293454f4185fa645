import SubEtha.Lib.Bits
import SubEtha.Lib.Lists
import SubEtha.Lib.Runs

namespace SubEtha.Ring
open List

inductive BroadcastError
  | full
  | empty
  | noConsumerSlot
  | invalidConsumer
  | payloadTooLarge
deriving DecidableEq

def broadcastPayloadBytes : Nat := 52

def maxConsumers : Nat := 16

/-- A ring that every consumer reads in full. A consumer is its cursor, `none` where its
slot is not held; a slot of `buf` never written is `none`. -/
structure SharedBroadcastRing (β : Type) where
  producerSeq : Nat
  buf : List (Option β)
  consumers : Nat → Option Nat
  some_slot : 0 < buf.length

namespace SharedBroadcastRing

variable {β : Type}

section
variable (r : SharedBroadcastRing β)

def capacity : Nat := r.buf.length

def create (capacity : Nat) (h : 0 < capacity) : SharedBroadcastRing β :=
  ⟨0, replicate capacity none, fun _ => none, by rw [length_replicate]; exact h⟩

def setCursor (idx cursor : Nat) : SharedBroadcastRing β :=
  { r with consumers := fun i => if i = idx then some cursor else r.consumers i }

/-- A slot already held keeps its cursor, and an index past the table claims nothing. -/
def claimConsumerSlot (idx : Nat) : SharedBroadcastRing β :=
  if maxConsumers ≤ idx then r
  else
    match r.consumers idx with
    | some _ => r
    | none => r.setCursor idx r.producerSeq

def minConsumerSeq : Nat :=
  ((range maxConsumers).filterMap r.consumers).min?.getD r.producerSeq

def tryPush (len : Nat) (payload : β) : Except BroadcastError (SharedBroadcastRing β) :=
  if broadcastPayloadBytes < len then .error .payloadTooLarge
  else if r.capacity ≤ r.producerSeq - r.minConsumerSeq then .error .full
  else .ok {
    r with
    producerSeq := r.producerSeq + 1
    buf := r.buf.set (r.producerSeq % r.capacity) (some payload)
    some_slot := by rw [length_set]; exact r.some_slot }

def tryRecv (idx : Nat) : Except BroadcastError (β × SharedBroadcastRing β) :=
  if maxConsumers ≤ idx then .error .invalidConsumer
  else
    match r.consumers idx with
    | none => .error .invalidConsumer
    | some cursor =>
      if r.producerSeq ≤ cursor then .error .empty
      else
        match r.buf[cursor % r.capacity]?.join with
        | none => .error .empty
        | some payload => .ok (payload, r.setCursor idx (cursor + 1))

def tryLag (idx : Nat) : Option Nat :=
  if maxConsumers ≤ idx then none else (r.consumers idx).map fun cursor => r.producerSeq - cursor

def isFullyDrained : Bool :=
  (range maxConsumers).all fun i => (r.consumers i).all fun cursor => decide (r.producerSeq ≤ cursor)

def unread (log : List β) (c : Nat) : List β :=
  match r.consumers c with
  | none => []
  | some cursor => log.drop cursor

end

/-- The buffer holds the last lap of the log, which no cursor has fallen behind. -/
structure Logs (r : SharedBroadcastRing β) (log : List β) : Prop where
  seq : r.producerSeq = log.length
  cursors : ∀ c cursor, r.consumers c = some cursor →
    c < maxConsumers ∧ cursor ≤ log.length ∧ log.length ≤ cursor + r.capacity
  values : ∀ (p : Nat) (x : β), log[p]? = some x → log.length ≤ p + r.capacity →
    r.buf[p % r.capacity]? = some (some x)

theorem logs_create (capacity : Nat) (h : 0 < capacity) :
    Logs (create capacity h : SharedBroadcastRing β) [] :=
  ⟨rfl, nofun, nofun⟩

variable {r r' : SharedBroadcastRing β} {log : List β}

theorem unread_setCursor (r : SharedBroadcastRing β) (log : List β) (idx cursor c : Nat) :
    (r.setCursor idx cursor).unread log c = if c = idx then log.drop cursor else r.unread log c := by
  unfold unread setCursor
  dsimp only
  by_cases h : c = idx
  · rw [if_pos h, if_pos h]
  · rw [if_neg h, if_neg h]

theorem Logs.setCursor (h : Logs r log) (hidx : idx < maxConsumers) (hle : cursor ≤ log.length)
    (hlap : log.length ≤ cursor + r.capacity) : Logs (r.setCursor idx cursor) log := by
  refine ⟨h.seq, fun c q hq => ?_, h.values⟩
  dsimp only [SharedBroadcastRing.setCursor] at hq
  split at hq
  · cases hq
    rename_i heq
    exact ⟨heq ▸ hidx, hle, hlap⟩
  · exact h.cursors c q hq

/-- What a claim leaves: a fresh slot stands at the end of the log. -/
structure Claimed (r r' : SharedBroadcastRing β) (log : List β) : Prop where
  logs : Logs r' log
  unread : ∀ c, r'.unread log c = r.unread log c
  kept : ∀ c, (r.consumers c).isSome = true → (r'.consumers c).isSome = true

theorem Claimed.trans (h : Claimed r r' log) (h' : Claimed r' r'' log) : Claimed r r'' log :=
  ⟨h'.logs, fun c => (h'.unread c).trans (h.unread c), fun c hc => h'.kept c (h.kept c hc)⟩

theorem Logs.claim (h : Logs r log) (idx : Nat) : Claimed r (r.claimConsumerSlot idx) log := by
  unfold claimConsumerSlot
  split
  · exact ⟨h, fun _ => rfl, fun _ hc => hc⟩
  rename_i hidx
  split
  · exact ⟨h, fun _ => rfl, fun _ hc => hc⟩
  rename_i hnone
  have hseq := h.seq
  refine ⟨h.setCursor (Nat.lt_of_not_le hidx) (Nat.le_of_eq hseq) (by omega), fun c => ?_,
    fun c hc => ?_⟩
  · rw [unread_setCursor, hseq, drop_length]
    split
    · rename_i heq
      rw [SharedBroadcastRing.unread, heq, hnone]
    · rfl
  · dsimp only [SharedBroadcastRing.setCursor]
    split
    · rfl
    · exact hc

theorem claim_isSome (r : SharedBroadcastRing β) (hidx : idx < maxConsumers) :
    ((r.claimConsumerSlot idx).consumers idx).isSome = true := by
  unfold claimConsumerSlot
  rw [if_neg (Nat.not_le.mpr hidx)]
  cases h : r.consumers idx with
  | none => simp [SharedBroadcastRing.setCursor]
  | some q => simp [h]

theorem claim_other (r : SharedBroadcastRing β) (h : c ≠ idx) :
    (r.claimConsumerSlot idx).consumers c = r.consumers c := by
  unfold claimConsumerSlot
  split
  · rfl
  split
  · rfl
  · exact if_neg h

theorem Logs.claims (h : Logs r log) (l : List Nat) : Claimed r (l.foldl claimConsumerSlot r) log ∧
      (∀ c ∈ l, c < maxConsumers → ((l.foldl claimConsumerSlot r).consumers c).isSome = true) ∧
      ∀ c, c ∉ l → (l.foldl claimConsumerSlot r).consumers c = r.consumers c := by
  induction l generalizing r with
  | nil => exact ⟨⟨h, fun _ => rfl, fun _ hc => hc⟩, nofun, fun _ _ => rfl⟩
  | cons idx l ih =>
    have hclaim := h.claim idx
    obtain ⟨hall, hsome, hother⟩ := ih hclaim.logs
    refine ⟨hclaim.trans hall, fun c hc hlt => ?_, fun c hc => ?_⟩
    · rcases mem_cons.mp hc with rfl | hc
      · exact hall.kept c (claim_isSome r hlt)
      · exact hsome c hc hlt
    · rw [mem_cons, not_or] at hc
      exact (hother c hc.2).trans (claim_other r hc.1)

variable (h : Logs r log)
include h

theorem minConsumerSeq_le (hc : r.consumers c = some cursor) : r.minConsumerSeq ≤ cursor := by
  refine min?_getD_le_of_mem (mem_filterMap.mpr ⟨c, ?_, hc⟩)
  exact mem_range.mpr (h.cursors c cursor hc).1

/-- An accepted push overwrites nothing that a consumer has not read. -/
theorem Logs.push {x : β} (hpush : r.tryPush len x = .ok r') :
    Logs r' (log ++ [x]) ∧ r'.consumers = r.consumers := by
  unfold tryPush at hpush
  split at hpush
  · cases hpush
  split at hpush
  · cases hpush
  rename_i hroom
  cases hpush
  have hseq := h.seq
  refine ⟨⟨?_, fun c q hq => ?_, fun p y hy hlap => ?_⟩, rfl⟩
  · rw [length_append, length_singleton, ← hseq]
  · obtain ⟨hc, hle, hlap⟩ := h.cursors c q hq
    have hmin := minConsumerSeq_le h hq
    simp only [capacity, length_set, length_append, length_singleton] at *
    omega
  simp only [capacity, length_set, length_append, length_singleton] at hlap ⊢
  rcases Nat.lt_or_ge p log.length with hp | hp
  · rw [getElem?_append_left hp] at hy
    rw [hseq, getElem?_set_ne (Lib.mod_ne_of_lap hp (by omega))]
    exact h.values p y hy (by dsimp only [capacity]; omega)
  have hp : p = r.producerSeq := by
    have hbound := lt_of_some hy
    rw [length_append, length_singleton] at hbound
    omega
  subst hp
  rw [hseq, getElem?_concat_length] at hy
  cases hy
  exact getElem?_set_self (Nat.mod_lt _ r.some_slot)

/-- A receive gives the oldest item the consumer has not read. -/
theorem Logs.recv_ok (hrecv : r.tryRecv idx = .ok (x, r')) :
    Logs r' log ∧ r.unread log idx = x :: r'.unread log idx ∧
      (∀ c, c ≠ idx → r'.unread log c = r.unread log c) ∧
      ∀ c, (r'.consumers c).isSome = (r.consumers c).isSome := by
  unfold tryRecv at hrecv
  split at hrecv
  · cases hrecv
  rename_i hidx
  split at hrecv
  · cases hrecv
  rename_i cursor hcursor
  split at hrecv
  · cases hrecv
  rename_i hunread
  obtain ⟨-, hle, hlap⟩ := h.cursors idx cursor hcursor
  have hlt : cursor < log.length := by
    have hseq := h.seq
    omega
  have hx := h.values cursor _ (getElem?_eq_getElem hlt) hlap
  rw [hx] at hrecv
  cases hrecv
  refine ⟨h.setCursor (Nat.lt_of_not_le hidx) hlt (by omega), ?_, fun c hc => ?_, fun c => ?_⟩
  · rw [unread_setCursor, if_pos rfl, unread, hcursor]
    exact drop_eq_getElem_cons hlt
  · rw [unread_setCursor, if_neg hc]
  dsimp only [SharedBroadcastRing.setCursor]
  split
  · rename_i heq
    rw [heq, hcursor]
    rfl
  · rfl

theorem Logs.recv_error (hrecv : r.tryRecv idx = .error e) : r.unread log idx = [] ∧
      (e = .empty ∧ r.tryLag idx = some 0 ∨ e = .invalidConsumer ∧ r.consumers idx = none) := by
  have hseq := h.seq
  unfold tryRecv at hrecv
  split at hrecv
  · rename_i hidx
    cases hrecv
    have hnone : r.consumers idx = none := by
      cases hcursor : r.consumers idx with
      | none => rfl
      | some cursor =>
        have hlt := (h.cursors idx cursor hcursor).1
        omega
    exact ⟨by rw [unread, hnone], .inr ⟨rfl, hnone⟩⟩
  rename_i hidx
  split at hrecv
  · rename_i hnone
    cases hrecv
    exact ⟨by rw [unread, hnone], .inr ⟨rfl, hnone⟩⟩
  rename_i cursor hcursor
  split at hrecv
  · rename_i hread
    cases hrecv
    refine ⟨?_, .inl ⟨rfl, ?_⟩⟩
    · rw [unread, hcursor]
      exact drop_eq_nil_of_le (by omega)
    · simp [tryLag, if_neg hidx, hcursor, Nat.sub_eq_zero_of_le hread]
  · obtain ⟨-, hle, hlap⟩ := h.cursors idx cursor hcursor
    have hlt : cursor < log.length := by omega
    have hx := h.values cursor _ (getElem?_eq_getElem hlt) hlap
    rw [hx] at hrecv
    cases hrecv

theorem Logs.drained (hdrained : r.isFullyDrained = true) (c : Nat) : r.unread log c = [] := by
  cases hc : r.consumers c with
  | none => rw [unread, hc]
  | some cursor =>
    have hrange := mem_range.mpr (h.cursors c cursor hc).1
    have hall := all_eq_true.mp hdrained c hrange
    rw [hc, Option.all_some] at hall
    have hle := of_decide_eq_true hall
    rw [unread, hc]
    exact drop_eq_nil_of_le (h.seq ▸ hle)

end SharedBroadcastRing

/-- An active backing, by its number, and the stale ones, oldest first. -/
structure BroadcastRingState where
  active : Nat
  stale : List Nat
  capacity : Nat

/-- A backing; `settled` belongs to the one state it is active in. `log` is everything
pushed into it, kept for the statements only. -/
structure BroadcastBacking (β : Type) where
  ring : SharedBroadcastRing β
  settled : Bool
  log : List β

/-- The ring with its one producer. `held` is the state that a push has loaded. For the
statements only: each payload goes with the number of consumers registered as its push
loaded the state, `accepted` lists the accepted ones and `received` what a consumer got. -/
structure CapacityBroadcast (α : Type) where
  backings : List (BroadcastBacking (α × Nat))
  state : BroadcastRingState
  nConsumers : Nat
  held : Option (BroadcastRingState × Nat)
  accepted : List (α × Nat)
  received : Nat → List (α × Nat)

inductive BroadcastEvent (α : Type)
  /-- `try_push` loads the state. -/
  | load
  /-- It settles and pushes a payload of `len` bytes. -/
  | push (payload : α) (len : Nat)
  | registerConsumer
  /-- `others` are the backings that something besides the states holds. -/
  | morphCapacityTo (capacity : Nat) (others : List Nat)
  | tryRecv (idx : Nat)

namespace BroadcastBacking

variable {β : Type}

/-- Claim every index handed out so far, once. -/
def settle (handedOut : Nat) (k : BroadcastBacking β) : BroadcastBacking β :=
  if k.settled then k
  else { k with
    ring := (range (min handedOut maxConsumers)).foldl .claimConsumerSlot k.ring
    settled := true }

end BroadcastBacking

namespace CapacityBroadcast

variable {α : Type} (s : CapacityBroadcast α)

def backing (capacity : Nat) (h : 0 < capacity) (settled : Bool) : BroadcastBacking (α × Nat) :=
  ⟨.create capacity h, settled, []⟩

def create (capacity : Nat) (h : 0 < capacity) : CapacityBroadcast α :=
  ⟨[backing capacity h true], ⟨0, [], capacity⟩, 0, none, [], fun _ => []⟩

def onBacking (b : Nat)
    (f : BroadcastBacking (α × Nat) → BroadcastBacking (α × Nat)) : CapacityBroadcast α :=
  { s with backings := s.backings.modify b f }

def settle (s : CapacityBroadcast α) (b : Nat) : CapacityBroadcast α :=
  s.onBacking b (.settle s.nConsumers)

/-- The push into the backing that was active as the state was loaded. -/
def push (b registered len : Nat) (payload : α) : CapacityBroadcast α :=
  let s := { s.settle b with held := none }
  match s.backings[b]? with
  | none => s
  | some k =>
    match k.ring.tryPush len (payload, registered) with
    | .error _ => s
    | .ok ring =>
      { s.onBacking b fun k => { k with ring := ring, log := k.log ++ [(payload, registered)] } with
        accepted := s.accepted ++ [(payload, registered)] }

def registerConsumer : CapacityBroadcast α :=
  if maxConsumers ≤ s.nConsumers then s
  else
    { s.onBacking s.state.active fun k => { k with ring := k.ring.claimConsumerSlot s.nConsumers } with
      nConsumers := s.nConsumers + 1 }

/-- Whether another state than the one in place, which the producer still holds, has the
backing. -/
def heldElsewhere (b : Nat) : Bool :=
  s.held.any fun (state, _) =>
    state.active != s.state.active && (state.active == b || state.stale.contains b)

/-- A stale backing that every consumer has drained and that only the list holds goes. -/
def prune (others : List Nat) : List Nat :=
  s.state.stale.filter fun b =>
    !(s.backings[b]?.all (fun k => k.ring.isFullyDrained) &&
      !(s.heldElsewhere b || others.contains b))

/-- A caller whose compare-and-set fails decides again from the state in place, so the
load and the swap are one step. -/
def morphCapacityTo (capacity : Nat) (others : List Nat) : CapacityBroadcast α :=
  if h : (Lib.isPowerOfTwo capacity ∧ 2 ≤ capacity) ∧ s.state.capacity ≠ capacity then
    { s with
      backings :=
        s.backings ++ [backing capacity (Nat.lt_of_lt_of_le Nat.zero_lt_two h.1.2) false]
      state := ⟨s.backings.length, s.prune others ++ [s.state.active], capacity⟩ }
  else s

/-- The stale walk of `try_recv`: what the first backing with something for the consumer
gives. `some none` is a walk to the end; `none` is a spin that never ends. -/
def walkStale (backings : List (BroadcastBacking (α × Nat))) (idx : Nat) :
    List Nat → Option (Option (Except BroadcastError (Nat × (α × Nat) × SharedBroadcastRing (α × Nat))))
  | [] => some none
  | b :: stale =>
    match backings[b]? with
    | none => walkStale backings idx stale
    | some k =>
      match k.ring.tryRecv idx with
      | .ok (x, ring) => some (some (.ok (b, x, ring)))
      | .error .empty => if k.ring.tryLag idx = some 0 then walkStale backings idx stale else none
      | .error .invalidConsumer =>
        if idx < maxConsumers then walkStale backings idx stale
        else some (some (.error .invalidConsumer))
      | .error e => some (some (.error e))

/-- Record what a consumer took from a backing. -/
def took (idx b : Nat) (x : α × Nat) (ring : SharedBroadcastRing (α × Nat)) : CapacityBroadcast α :=
  { s.onBacking b fun k => { k with ring := ring } with
    received := fun c => if c = idx then s.received c ++ [x] else s.received c }

/-- A receive, with its answer. -/
def tryRecv (s : CapacityBroadcast α) (idx : Nat) :
    Option (CapacityBroadcast α × Except BroadcastError (α × Nat)) :=
  (walkStale s.backings idx s.state.stale).map fun
    | some (.ok (b, x, ring)) => (s.took idx b x ring, .ok x)
    | some (.error e) => (s, .error e)
    | none =>
      let s := s.settle s.state.active
      match s.backings[s.state.active]? with
      | none => (s, .error .empty)
      | some k =>
        match k.ring.tryRecv idx with
        | .error e => (s, .error e)
        | .ok (x, ring) => (s.took idx s.state.active x ring, .ok x)

/-- One step; a push that has not loaded a state changes nothing, nor does a second load. -/
def step : BroadcastEvent α → Option (CapacityBroadcast α)
  | .load =>
    match s.held with
    | none => some { s with held := some (s.state, s.nConsumers) }
    | some _ => some s
  | .push payload len =>
    match s.held with
    | none => some s
    | some (state, registered) => some (s.push state.active registered len payload)
  | .registerConsumer => some s.registerConsumer
  | .morphCapacityTo capacity others => some (s.morphCapacityTo capacity others)
  | .tryRecv idx => (s.tryRecv idx).map Prod.fst

end CapacityBroadcast
end SubEtha.Ring
