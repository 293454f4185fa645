import Mathlib.Algebra.Group.Nat.Defs

namespace SubEtha.Maps

inductive SlotState
  | empty
  | occupied
  | tombstone
deriving DecidableEq

/-- A slot: its state, the cached hash (`0` while nothing is published) and the payload. -/
structure MapSlot (K V : Type) where
  state : SlotState
  hash : Nat
  payload : K × V

inductive MapError
  | full
  | keyAbsent
deriving DecidableEq

inductive InsertOutcome
  | inserted
  | updated
deriving DecidableEq

inductive Placed (V : Type)
  | new
  | existing (value : V)

inductive Probe (V : Type)
  | placed (p : Placed V)
  | restart
  | full

inductive Found (V : Type)
  | here (value : V)
  | elsewhere
  | vacated
  | moved

inductive Claim
  | placed
  | lost
  | gaveBack

structure SharedHashMap (K V : Type) where
  slots : List (MapSlot K V)
  count : Nat
  tombstones : Nat
  removals : Nat

namespace SharedHashMap

variable {K V : Type}

section
variable (m : SharedHashMap K V)

def capacity : Nat := m.slots.length

/-- An empty map over zeroed memory, which reads as the payload `zero`; `none` is the
assertion on the capacity. -/
def create (capacity : Nat) (zero : K × V) : Option (SharedHashMap K V) :=
  if 2 ≤ capacity then some ⟨List.replicate capacity ⟨.empty, 0, zero⟩, 0, 0, 0⟩ else none

def len : Nat := m.count

def tombstoneCount : Nat := m.tombstones

/-- Reduce an index into the table: a mask where the capacity is a power of two. -/
def wrap (i : Nat) : Nat :=
  if 2 ^ m.capacity.log2 = m.capacity then i &&& (m.capacity - 1) else i % m.capacity

def setSlot (idx : Nat) (s : MapSlot K V) : SharedHashMap K V :=
  { m with slots := m.slots.set idx s }

/-- The hash of a claimed slot, waited for; `none` is a wait that nothing ends. -/
def publishedHash (s : MapSlot K V) : Option Nat :=
  if s.hash ≠ 0 then some s.hash else if s.state ≠ .occupied then some 0 else none

def holds (s : MapSlot K V) (h : Nat) : Bool := s.state == .occupied && s.hash == h

/-- Claim a free slot for a new entry, unless a remove has landed since the walk began. -/
def claim (idx : Nat) (from' : SlotState) (removals h : Nat) (key : K)
    (value : V) : Option (SharedHashMap K V × Claim) :=
  (m.slots[idx]?).map fun s =>
    if s.state ≠ from' then (m, .lost)
    else
      let hash := if from' = .tombstone then 0 else s.hash
      if m.removals ≠ removals then
        ({ m.setSlot idx ⟨.tombstone, hash, s.payload⟩ with
          tombstones := if from' = .empty then m.tombstones + 1 else m.tombstones }, .gaveBack)
      else
        ({ m.setSlot idx ⟨.occupied, h, (key, value)⟩ with
          count := m.count + 1
          tombstones := if from' = .tombstone then m.tombstones - 1 else m.tombstones }, .placed)

end

variable [DecidableEq K]

section
variable (m : SharedHashMap K V)

/-- What an occupied slot says about a key. -/
def present (idx h : Nat) (key : K) (value : V) (overwrite : Bool) :
    Option (SharedHashMap K V × Found V) :=
  (m.slots[idx]?).bind fun s =>
    (publishedHash s).map fun published =>
      if published = 0 then (m, .vacated)
      else if published ≠ h then (m, .elsewhere)
      else if overwrite = false then
        (m, if s.payload.1 = key then .here s.payload.2 else .elsewhere)
      else if s.payload.1 ≠ key then (m, .elsewhere)
      else if holds s h = false then (m, .moved)
      else (m.setSlot idx { s with payload := (key, value) }, .here s.payload.2)

/-- A verdict of the walk, or the first tombstone seen so far. -/
def examine (idx : Nat) (state : SlotState) (first : Option Nat) (h : Nat)
    (key : K) (value : V) (overwrite : Bool) :
    Option (SharedHashMap K V × (Probe V ⊕ Option Nat)) :=
  if state = .tombstone then some (m, .inr (first.or (some idx)))
  else (m.present idx h key value overwrite).map fun
    | (m, .here existing) => (m, .inl (.placed (.existing existing)))
    | (m, .moved) => (m, .inl .restart)
    | (m, .vacated) => (m, .inr (first.or (some idx)))
    | (m, .elsewhere) => (m, .inr first)

def claimTombstone (idx removals h : Nat) (key : K) (value : V) :
    Option (SharedHashMap K V × Probe V) :=
  (m.claim idx .tombstone removals h key value).map fun
    | (m, .placed) => (m, .placed .new)
    | (m, .lost) => (m, .restart)
    | (m, .gaveBack) => (m, .restart)

def probeSlot (idx : Nat) (first : Option Nat) (removals h : Nat) (key : K)
    (value : V) (overwrite : Bool) : Option (SharedHashMap K V × (Probe V ⊕ Option Nat)) :=
  (m.slots[idx]?).bind fun s =>
    if s.state = .empty then
      match first with
      | some tomb =>
        (m.claimTombstone tomb removals h key value).map fun (m, verdict) => (m, .inl verdict)
      | none =>
        (m.claim idx .empty removals h key value).bind fun
          | (m, .placed) => some (m, .inl (.placed .new))
          | (m, .gaveBack) => some (m, .inl .restart)
          | (m, .lost) =>
            (m.slots[idx]?).bind fun s => m.examine idx s.state first h key value overwrite
    else m.examine idx s.state first h key value overwrite

end

/-- The walk from its `i`-th slot on, with `n` slots to go. -/
def probeFrom (removals h start : Nat) (key : K) (value : V) (overwrite : Bool) :
    Nat → Nat → Option Nat → SharedHashMap K V → Option (SharedHashMap K V × Probe V)
  | 0, _, first, m =>
    match first with
    | some tomb => m.claimTombstone tomb removals h key value
    | none => some (m, .full)
  | n + 1, i, first, m =>
    (m.probeSlot (m.wrap (start + i)) first removals h key value overwrite).bind fun
      | (m, .inl verdict) => some (m, verdict)
      | (m, .inr first) => probeFrom removals h start key value overwrite n (i + 1) first m

def probeOnce (m : SharedHashMap K V) (h start : Nat) (key : K) (value : V) (overwrite : Bool) :
    Option (SharedHashMap K V × Probe V) :=
  probeFrom m.removals h start key value overwrite m.capacity 0 none m

variable (hash : K → Nat)

/-- The hash of a key, with `0` remapped. -/
def hashKey (key : K) : Nat := if hash key = 0 then 1 else hash key

/-- Probe until the key is placed; `fuel` is how often the probe may start over. -/
def placeLoop (h start : Nat) (key : K) (value : V) (overwrite : Bool) :
    Nat → SharedHashMap K V → Option (SharedHashMap K V × Except MapError (Placed V))
  | 0, _ => none
  | fuel + 1, m =>
    (m.probeOnce h start key value overwrite).bind fun
      | (m, .placed p) => some (m, .ok p)
      | (m, .restart) => placeLoop h start key value overwrite fuel m
      | (m, .full) => some (m, .error .full)

section
variable (m : SharedHashMap K V)

def place (fuel : Nat) (key : K) (value : V) (overwrite : Bool) :
    Option (SharedHashMap K V × Except MapError (Placed V)) :=
  let h := hashKey hash key
  placeLoop h (m.wrap h) key value overwrite fuel m

def outcome : Except MapError (Placed V) → Except MapError InsertOutcome
  | .ok .new => .ok .inserted
  | .ok (.existing _) => .ok .updated
  | .error e => .error e

def insert (fuel : Nat) (key : K) (value : V) :
    Option (SharedHashMap K V × Except MapError InsertOutcome) :=
  (m.place hash fuel key value true).map fun (m, r) => (m, outcome r)

def previous : Except MapError (Placed V) → Except MapError (Option V)
  | .ok .new => .ok none
  | .ok (.existing value) => .ok (some value)
  | .error e => .error e

def insertIfAbsent (fuel : Nat) (key : K) (value : V) :
    Option (SharedHashMap K V × Except MapError (Option V)) :=
  (m.place hash fuel key value false).map fun (m, r) => (m, previous r)

def swap (fuel : Nat) (key : K) (value : V) :
    Option (SharedHashMap K V × Except MapError (Option V)) :=
  (m.place hash fuel key value true).map fun (m, r) => (m, previous r)

/-- The walk of the lookups: the slot whose published entry has the key. -/
def findFrom (m : SharedHashMap K V) (h start : Nat) (key : K) : Nat → Nat → Option (Option Nat)
  | 0, _ => some none
  | n + 1, i =>
    let idx := m.wrap (start + i)
    (m.slots[idx]?).bind fun s =>
      match s.state with
      | .empty => some none
      | .tombstone => findFrom m h start key n (i + 1)
      | .occupied =>
        (publishedHash s).bind fun published =>
          if published = h ∧ s.payload.1 = key then some (some idx)
          else findFrom m h start key n (i + 1)

def find (key : K) : Option (Option Nat) :=
  let h := hashKey hash key
  m.findFrom h (m.wrap h) key m.capacity 0

def get (key : K) : Option (Option V) :=
  (m.find hash key).map fun idx => (idx.bind fun idx => m.slots[idx]?).map fun s => s.payload.2

/-- Under the slot's lock: the entry is the one matched, or gone. -/
def remove (key : K) : Option (SharedHashMap K V × Option V) :=
  (m.find hash key).map fun
    | none => (m, none)
    | some idx =>
      match m.slots[idx]? with
      | none => (m, none)
      | some s =>
        if holds s (hashKey hash key) then
          ({ m.setSlot idx ⟨.tombstone, 0, s.payload⟩ with
            count := m.count - 1
            tombstones := m.tombstones + 1
            removals := m.removals + 1 }, some s.payload.2)
        else (m, none)

end

/-- Replace a value that is what the caller expects; the inner error carries the value
found otherwise. -/
def compareExchange [DecidableEq V] (m : SharedHashMap K V) (key : K) (expected new : V) :
    Option (SharedHashMap K V × Except MapError (Except V Unit)) :=
  (m.find hash key).map fun
    | none => (m, .error .keyAbsent)
    | some idx =>
      match m.slots[idx]? with
      | none => (m, .error .keyAbsent)
      | some s =>
        if holds s (hashKey hash key) then
          if s.payload.2 = expected then
            (m.setSlot idx { s with payload := (key, new) }, .ok (.ok ()))
          else (m, .ok (.error s.payload.2))
        else (m, .error .keyAbsent)

omit [DecidableEq K] in
def clear (m : SharedHashMap K V) : SharedHashMap K V :=
  { m with slots := m.slots.map fun s => { s with state := .empty }, count := 0, tombstones := 0 }

def live (m : SharedHashMap K V) : List (K × V) :=
  (m.slots.filter fun s => s.state == .occupied).map MapSlot.payload

def insertAll (fuel : Nat) : List (K × V) → SharedHashMap K V →
    Option (SharedHashMap K V × Except MapError Unit)
  | [], m => some (m, .ok ())
  | (k, v) :: rest, m =>
    (m.insert hash fuel k v).bind fun
      | (m, .ok _) => insertAll fuel rest m
      | (m, .error e) => some (m, .error e)

/-- Rebuild the table in place without its tombstones. -/
def compact (m : SharedHashMap K V) (fuel : Nat) :
    Option (SharedHashMap K V × Except MapError Nat) :=
  let reclaimed := m.slots.countP fun s => s.state == .tombstone
  (insertAll hash fuel m.live m.clear).map fun
    | (m, .ok ()) => (m, .ok reclaimed)
    | (m, .error e) => (m, .error e)

def snapshot (m : SharedHashMap K V) : List (K × V) :=
  (m.slots.filter fun s => s.state == .occupied && s.hash != 0).map MapSlot.payload

end SharedHashMap
end SubEtha.Maps
