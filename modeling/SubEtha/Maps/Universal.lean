import SubEtha.Maps.HashMap

namespace SubEtha.Maps

inductive Strategy
  | vec
  | map
deriving DecidableEq

inductive UniversalError
  | ioError
  | layoutMismatch
  | vecError
  /-- `MapError(LayoutMismatch)` -/
  | mapMismatch
  /-- `MapError(IoError)` -/
  | mapIo
  | full
  | versionExhausted
deriving DecidableEq

structure SharedVec (T : Type) where
  capacity : Nat
  items : List T

def SharedVec.pushBack {T : Type} (v : SharedVec T) (x : T) : Option (SharedVec T) :=
  if v.capacity ≤ v.items.length then none else some { v with items := v.items ++ [x] }

inductive Backing (T : Type)
  | vec (v : SharedVec T)
  | map (m : SharedHashMap T Unit)

/-- The part of a backing file's name that varies. -/
structure BackingPath where
  generation : Nat
  version : Nat
  strategy : Strategy
deriving DecidableEq

structure UniversalHeader where
  capacity : Nat
  version : Nat
  generation : Nat
  strategy : Strategy

def UniversalHeader.path (h : UniversalHeader) : BackingPath := ⟨h.generation, h.version, h.strategy⟩

structure UniversalFiles (T : Type) where
  header : Option UniversalHeader
  backings : BackingPath → Option (Backing T)

def UniversalFiles.put {T : Type} (d : UniversalFiles T) (p : BackingPath) (b : Option (Backing T)) :
    UniversalFiles T :=
  { d with backings := fun q => if q = p then b else d.backings q }

/-- A handle: the capacity it was obtained with and the backing it holds. -/
structure SharedUniversal where
  capacity : Nat
  held : BackingPath

namespace Backing

variable {T : Type}

def capacity : Backing T → Nat
  | .vec v => v.capacity
  | .map m => m.capacity

def values : Backing T → List T
  | .vec v => v.items
  | .map m => m.snapshot.map Prod.fst

def valuesSince [DecidableEq T] (before : List T) : Backing T → List T
  | .vec v => v.items.drop before.length
  | .map m => (m.snapshot.map Prod.fst).filter fun x => decide (x ∉ before)

def clear : Backing T → Backing T
  | .vec v => .vec { v with items := [] }
  | .map m => .map m.clear

end Backing

namespace SharedUniversal

variable {T : Type} [DecidableEq T] (hash : T → Nat) (zero : T) (d : UniversalFiles T)

/-- The backing at a path, an empty one if there is no file; `none` is the assertion on the
capacity of a map. -/
def obtainBacking (p : BackingPath) (capacity : Nat) : Option (Except UniversalError (Backing T)) :=
  match p.strategy with
  | .vec =>
    match d.backings p with
    | none => some (.ok (.vec ⟨capacity, []⟩))
    | some b => some (if b.capacity = capacity then .ok b else .error .vecError)
  | .map =>
    if capacity < 2 then none
    else
      match d.backings p with
      | none => (SharedHashMap.create capacity (zero, ())).map fun m => .ok (.map m)
      | some b => some (if b.capacity = capacity then .ok b else .error .mapMismatch)

def openBacking (p : BackingPath) (capacity : Nat) : Except UniversalError (Backing T) :=
  match d.backings p with
  | none => .error (match p.strategy with | .vec => .vecError | .map => .mapIo)
  | some b =>
    if b.capacity = capacity then .ok b
    else .error (match p.strategy with | .vec => .vecError | .map => .mapMismatch)

/-- Obtain the container, a fresh one if there is no state file; the outer `none` is the
assertion on the capacity. -/
def create (capacity : Nat) : Option (UniversalFiles T × Except UniversalError SharedUniversal) :=
  if capacity < 1 then none
  else
    let h := d.header.getD ⟨capacity % 2 ^ 32, 0, 0, .vec⟩
    let d := { d with header := some h }
    if h.capacity ≠ capacity % 2 ^ 32 then some (d, .error .layoutMismatch)
    else
      (obtainBacking zero d h.path capacity).map fun
        | .error e => (d, .error e)
        | .ok b => (d.put h.path (some b), .ok ⟨capacity, h.path⟩)

/-- Truncate the state and the first backing; the other backing files stay. -/
def reset (capacity : Nat) : Option (UniversalFiles T × SharedUniversal) :=
  if capacity < 1 then none
  else
    let h : UniversalHeader := ⟨capacity % 2 ^ 32, 0, 0, .vec⟩
    some ({ d with header := some h }.put h.path (some (.vec ⟨capacity, []⟩)), ⟨capacity, h.path⟩)

def open' (capacity : Nat) : Except UniversalError SharedUniversal :=
  match d.header with
  | none => .error .ioError
  | some h =>
    if h.capacity ≠ capacity % 2 ^ 32 then .error .layoutMismatch
    else (openBacking d h.path capacity).map fun _ => ⟨capacity, h.path⟩

/-- Whether the pair of generation and version comes before another. -/
def Older (p q : BackingPath) : Prop :=
  p.generation < q.generation ∨ (p.generation = q.generation ∧ p.version < q.version)
deriving Decidable

/-- The handle with the backing the shared state names, re-opened when it is not the one held
and not older. -/
def hold (h : UniversalHeader) (u : SharedUniversal) : Except UniversalError SharedUniversal :=
  if u.held.version = h.version ∧ u.held.generation = h.generation then .ok u
  else
    (openBacking d h.path u.capacity).map fun _ =>
      if Older u.held h.path then { u with held := h.path } else u

/-- The handle with the backing its call works on, and that backing. -/
def withHeld {α : Type} (d : UniversalFiles T) (u : SharedUniversal)
    (call : SharedUniversal → Backing T →
      Option (UniversalFiles T × SharedUniversal × Except UniversalError α)) :
    Option (UniversalFiles T × SharedUniversal × Except UniversalError α) :=
  d.header.bind fun h =>
    match hold d h u with
    | .error e => some (d, u, .error e)
    | .ok u => (d.backings u.held).bind fun b => call u b

def insertInto (b : Backing T) (x : T) : Option (Backing T × Bool) :=
  match b with
  | .vec v =>
    match v.pushBack x with
    | some v => some (.vec v, true)
    | none => some (.vec v, false)
  | .map m => (m.insert hash 1 x ()).map fun
    | (m, .ok _) => (.map m, true)
    | (m, .error _) => (.map m, false)

def insert (u : SharedUniversal) (x : T) :
    Option (UniversalFiles T × SharedUniversal × Except UniversalError Unit) :=
  withHeld d u fun u b =>
    (insertInto hash b x).map fun (b, ok) =>
      (d.put u.held (some b), u, if ok then .ok () else .error .full)

def contains (u : SharedUniversal) (x : T) :
    Option (UniversalFiles T × SharedUniversal × Except UniversalError Bool) :=
  withHeld d u fun u b =>
    match b with
    | .vec v => some (d, u, .ok (decide (x ∈ v.items)))
    | .map m => (m.get hash x).map fun value => (d, u, .ok value.isSome)

def clear (d : UniversalFiles T) (u : SharedUniversal) :
    Option (UniversalFiles T × SharedUniversal × Except UniversalError Unit) :=
  withHeld d u fun u b => some (d.put u.held (some b.clear), u, .ok ())

/-- Insert a list one after another, up to the first that finds no room. -/
def insertEach (b : Backing T) : List T → Option (Backing T × Bool)
  | [] => some (b, true)
  | x :: xs => (insertInto hash b x).bind fun
    | (b, true) => insertEach b xs
    | (b, false) => some (b, false)

/-- The version and generation after these; `none` past the last. -/
def nextVersion (version generation : Nat) : Option (Nat × Nat) :=
  if version + 1 < 2 ^ 32 then some (version + 1, generation)
  else if generation + 1 < 2 ^ 16 then some (0, generation + 1)
  else none

/-- Build the backing of a further version from a snapshot and publish it; a build that fails
leaves no file. -/
def migrateTo (u : SharedUniversal) (target : Strategy) :
    Option (UniversalFiles T × SharedUniversal × Except UniversalError Unit) :=
  d.header.bind fun h =>
    if h.strategy = target then some (d, u, .ok ())
    else
      match nextVersion h.version h.generation with
      | none => some (d, u, .error .versionExhausted)
      | some (version, generation) =>
        withHeld d u fun u old =>
          let p : BackingPath := ⟨generation, version, target⟩
          (obtainBacking zero d p u.capacity).bind fun
            | .error e => some (d.put p none, u, .error e)
            | .ok b => (insertEach hash b old.values).bind fun
              | (_, false) => some (d.put p none, u, .error .full)
              | (b, true) =>
                let d := { d with header := some { h with version, generation, strategy := target } }
                -- what the old backing gained since the snapshot is copied over
                (insertEach hash b (old.valuesSince old.values)).map fun (b, ok) =>
                  (d.put p (some b), { u with held := p }, if ok then .ok () else .error .full)

end SharedUniversal

inductive UniversalCall (T : Type)
  | create (capacity : Nat)
  | open' (capacity : Nat)
  | reset (capacity : Nat)
  | insert (handle : Nat) (x : T)
  | contains (handle : Nat) (x : T)
  | clear (handle : Nat)
  | migrateTo (handle : Nat) (target : Strategy)

/-- The files, the writer's handles, and the values accepted since the last clear or reset. -/
structure UniversalSession (T : Type) where
  files : UniversalFiles T
  handles : List SharedUniversal
  inserted : List T

namespace UniversalSession

variable {T : Type} [DecidableEq T] (hash : T → Nat) (zero : T)

def start : UniversalSession T := ⟨⟨none, fun _ => none⟩, [], []⟩

def onHandle {α : Type} (s : UniversalSession T) (handle : Nat)
    (call : UniversalFiles T → SharedUniversal →
      Option (UniversalFiles T × SharedUniversal × Except UniversalError α))
    (inserted : List T) : Option (UniversalSession T) :=
  match s.handles[handle]? with
  | none => some s
  | some u => (call s.files u).map fun
    | (files, u, .ok _) => ⟨files, s.handles.set handle u, inserted⟩
    | (files, u, .error _) => ⟨files, s.handles.set handle u, s.inserted⟩

/-- One call of the writer. A reset is for a caller that owns the base path: it leaves no other
handle in use. -/
def step (s : UniversalSession T) : UniversalCall T → Option (UniversalSession T)
  | .create capacity => (SharedUniversal.create zero s.files capacity).map fun
    | (files, .ok u) => ⟨files, s.handles ++ [u], s.inserted⟩
    | (files, .error _) => ⟨files, s.handles, s.inserted⟩
  | .open' capacity =>
    match SharedUniversal.open' s.files capacity with
    | .ok u => some ⟨s.files, s.handles ++ [u], s.inserted⟩
    | .error _ => some s
  | .reset capacity => (SharedUniversal.reset s.files capacity).map fun (files, u) => ⟨files, [u], []⟩
  | .insert handle x =>
    s.onHandle handle (fun d u => SharedUniversal.insert hash d u x) (x :: s.inserted)
  | .contains handle x =>
    s.onHandle handle (fun d u => SharedUniversal.contains hash d u x) s.inserted
  | .clear handle => s.onHandle handle SharedUniversal.clear []
  | .migrateTo handle target =>
    s.onHandle handle (fun d u => SharedUniversal.migrateTo hash zero d u target) s.inserted

/-- A migration finds at the path of the next version no file of its capacity with a value
that the live backing does not hold. -/
def FreshPath (s : UniversalSession T) : UniversalCall T → Prop
  | .migrateTo handle target =>
    ∀ u ∈ s.handles[handle]?, ∀ h ∈ s.files.header, h.strategy ≠ target →
      ∀ next ∈ SharedUniversal.nextVersion h.version h.generation,
        ∀ b ∈ s.files.backings ⟨next.2, next.1, target⟩, b.capacity = u.capacity →
          ∀ live ∈ s.files.backings h.path, ∀ x ∈ b.values, x ∈ live.values
  | _ => True

end UniversalSession
end SubEtha.Maps
