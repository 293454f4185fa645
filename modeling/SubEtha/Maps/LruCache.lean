import SubEtha.Maps.HashMap
import SubEtha.Maps.LinkedList

namespace SubEtha.Maps
open List

/-- The least-recently-used policy over a bounded number of entries, the most recent first. -/
structure Recency (K V : Type) where
  capacity : Nat
  pos : 0 < capacity
  entries : List (K × V)
  distinct : (entries.map Prod.fst).Nodup
  bounded : entries.length ≤ capacity

namespace Recency

variable {K V : Type} [DecidableEq K]

def without (l : List (K × V)) (key : K) : List (K × V) := l.filter fun e => decide (e.1 ≠ key)

theorem not_mem_without (l : List (K × V)) (key : K) : key ∉ (without l key).map Prod.fst := by
  intro hmem
  obtain ⟨e, he, rfl⟩ := mem_map.mp hmem
  exact of_decide_eq_true (mem_filter.mp he).2 rfl

theorem nodup_without (h : (l.map Prod.fst).Nodup) (key : K) :
    ((without l key).map Prod.fst).Nodup := h.sublist (filter_sublist.map Prod.fst)

def empty (capacity : Nat) (pos : 0 < capacity) : Recency K V :=
  ⟨capacity, pos, [], nodup_nil, Nat.zero_le _⟩

section
variable (a : Recency K V)

def peek (key : K) : Option V :=
  (a.entries.find? fun e => decide (e.1 = key)).map Prod.snd

/-- The entry of the key comes to the front, and what no longer fits falls off the end. -/
def put (key : K) (value : V) : Recency K V :=
  { a with
    entries := (key, value) :: (without a.entries key).take (a.capacity - 1)
    distinct := by
      have hsub := (take_sublist (a.capacity - 1) (without a.entries key)).map Prod.fst
      exact nodup_cons.mpr ⟨fun hmem => not_mem_without a.entries key (hsub.subset hmem),
        (nodup_without a.distinct key).sublist hsub⟩
    bounded := by
      have hpos := a.pos
      have htake := length_take_le (a.capacity - 1) (without a.entries key)
      rw [length_cons]
      omega }

def victim (key : K) : Option (K × V) :=
  ((without a.entries key).drop (a.capacity - 1)).head?

def use (key : K) : Recency K V × Option V :=
  match a.peek key with
  | some value => (a.put key value, some value)
  | none => (a, none)

def remove (key : K) : Recency K V :=
  { a with
    entries := without a.entries key
    distinct := nodup_without a.distinct key
    bounded := (length_filter_le _ _).trans a.bounded }

def evict : Recency K V :=
  { a with
    entries := a.entries.dropLast
    distinct := a.distinct.sublist ((dropLast_sublist _).map Prod.fst)
    bounded := (dropLast_sublist _).length_le.trans a.bounded }

end

omit [DecidableEq K] in
theorem entries_evict (a : Recency K V) : a.evict.entries = a.entries.dropLast := rfl

theorem entries_put (a : Recency K V) (key : K) (value : V) : (a.put key value).entries =
    (key, value) :: (without a.entries key).take (a.capacity - 1) := rfl

end Recency

inductive LruError
  | map (e : MapError)
  | linkedList (e : RegionError)
deriving DecidableEq

inductive TouchStatus
  | promoted
  | absent
  | diverged
deriving DecidableEq

/-- A map from keys to list nodes and a list of entries, the most recent in front. -/
structure SharedLruCache (K V : Type) where
  map : SharedHashMap K Nat
  list : SharedLinkedList (K × V)
  capacity : Nat

namespace SharedLruCache

variable {K V : Type} [DecidableEq K] [Inhabited K] [Inhabited V]

def create (capacity : Nat) : Option (Except LruError (SharedLruCache K V)) :=
  if 1 ≤ capacity then
    (SharedHashMap.create (max (capacity * 8) 32) (default, 0)).bind fun map =>
      (SharedLinkedList.create (capacity + 2)).map fun
        | .error e => .error (.linkedList e)
        | .ok list => .ok ⟨map, list, capacity⟩
  else none

def len (c : SharedLruCache K V) : Nat := c.list.len

variable (hash : K → Nat) (c : SharedLruCache K V)

def get (c : SharedLruCache K V) (key : K) : Option (Option V) :=
  (c.map.get hash key).map fun found =>
    found.bind fun idx => (c.list.get idx).bind fun (k, v) => if k ≠ key then none else some v

def touchStatus (fuel : Nat) (key : K) : Option (SharedLruCache K V × TouchStatus) :=
  (c.map.get hash key).bind fun
    | none => some (c, .absent)
    | some idx =>
      match c.list.remove idx with
      | (list, none) => some ({ c with list := list }, .absent)
      | (list, some (k, v)) =>
        match list.pushFront (k, v) with
        | (list, .ok handle) =>
          (c.map.insert hash fuel k handle).map fun
            | (map, .ok _) => ({ c with map := map, list := list }, .promoted)
            | (map, .error _) => ({ c with map := map, list := list }, .diverged)
        | (list, .error _) =>
          match list.pushBack (k, v) with
          | (list, .ok _) => some ({ c with list := list }, .absent)
          | (list, .error _) => some ({ c with list := list }, .diverged)

def touch (fuel : Nat) (key : K) : Option (SharedLruCache K V × Bool) :=
  (c.touchStatus hash fuel key).map fun (c, status) => (c, status == .promoted)

def getAndTouch (fuel : Nat) (key : K) : Option (SharedLruCache K V × Option V) :=
  (c.get hash key).bind fun
    | none => some (c, none)
    | some v => (c.touch hash fuel key).map fun (c, _) => (c, some v)

def evictOldest : Option (SharedLruCache K V × Option (K × V)) :=
  match c.list.popBack with
  | (list, none) => some ({ c with list := list }, none)
  | (list, some (k, v)) =>
    (c.map.remove hash k).map fun (map, _) => ({ c with map := map, list := list }, some (k, v))

/-- The eviction ahead of a new key, with the entry it took. -/
def makeRoom : Option (SharedLruCache K V × Option (K × V)) :=
  if c.capacity ≤ c.len then c.evictOldest hash else some (c, none)

def pushEntry (fuel : Nat) (key : K) (value : V) (old : Option V) :
    Option (SharedLruCache K V × Except LruError (Option V)) :=
  match c.list.pushFront (key, value) with
  | (list, .error e) => some ({ c with list := list }, .error (.linkedList e))
  | (list, .ok handle) =>
    (c.map.insert hash fuel key handle).map fun
      | (map, .error e) => ({ c with map := map, list := list }, .error (.map e))
      | (map, .ok _) => ({ c with map := map, list := list }, .ok old)

/-- The cache after a `put`, the entry it evicted and its result. -/
def putInner (fuel : Nat) (key : K) (value : V) :
    Option (SharedLruCache K V × Option (K × V) × Except LruError (Option V)) :=
  (c.map.get hash key).bind fun
    | some idx =>
      let (list, removed) := c.list.remove idx
      (({ c with list := list } : SharedLruCache K V).pushEntry hash fuel key value
        (removed.map Prod.snd)).map fun (c, r) => (c, none, r)
    | none =>
      (c.makeRoom hash).bind fun (c, evicted) =>
        (c.pushEntry hash fuel key value none).map fun (c, r) => (c, evicted, r)

def remove (c : SharedLruCache K V) (key : K) : Option (SharedLruCache K V × Option V) :=
  (c.map.remove hash key).map fun
    | (map, none) => ({ c with map := map }, none)
    | (map, some idx) =>
      let (list, removed) := c.list.remove idx
      ({ c with map := map, list := list }, removed.map Prod.snd)

def snapshotMruFirst (fuel : Nat) : Option (List (K × V)) :=
  c.list.iterForward fuel

def snapshotLruFirst (fuel : Nat) : Option (List (K × V)) :=
  c.list.iterBackward fuel

end SharedLruCache

inductive LruCall (K V : Type)
  | put (key : K) (value : V)
  | get (key : K)
  | getAndTouch (key : K)
  | touch (key : K)
  | remove (key : K)
  | evictOldest
  | snapshotMruFirst
  | snapshotLruFirst

/-- What a call returns; a `put` also names the entry it evicted. -/
inductive LruReturn (K V : Type)
  | stored (evicted : Option (K × V)) (result : Except LruError (Option V))
  | value (v : Option V)
  | promoted (b : Bool)
  | evicted (e : Option (K × V))
  | entries (l : List (K × V))

namespace SharedLruCache

variable {K V : Type} [DecidableEq K] [Inhabited K] [Inhabited V] (hash : K → Nat) (fuel : Nat)

def call (c : SharedLruCache K V) : LruCall K V → Option (SharedLruCache K V × LruReturn K V)
  | .put key value => (c.putInner hash fuel key value).map fun (c, e, r) => (c, .stored e r)
  | .get key => (c.get hash key).map fun v => (c, .value v)
  | .getAndTouch key => (c.getAndTouch hash fuel key).map fun (c, v) => (c, .value v)
  | .touch key => (c.touch hash fuel key).map fun (c, b) => (c, .promoted b)
  | .remove key => (c.remove hash key).map fun (c, v) => (c, .value v)
  | .evictOldest => (c.evictOldest hash).map fun (c, e) => (c, .evicted e)
  | .snapshotMruFirst => (c.snapshotMruFirst fuel).map fun l => (c, .entries l)
  | .snapshotLruFirst => (c.snapshotLruFirst fuel).map fun l => (c, .entries l)

def calls : SharedLruCache K V → List (LruCall K V) →
    Option (SharedLruCache K V × List (LruReturn K V))
  | c, [] => some (c, [])
  | c, op :: ops => (c.call hash fuel op).bind fun (c, r) =>
      (c.calls ops).map fun (c, rs) => (c, r :: rs)

end SharedLruCache

/-- The same call with a `get` that counts as a use. -/
def LruCall.strict {K V : Type} : LruCall K V → LruCall K V
  | .get key => .getAndTouch key
  | op => op

namespace Recency

variable {K V : Type} [DecidableEq K]

/-- The calls of the cache under the policy: `get` is a lookup that does not count as a use. -/
def call (a : Recency K V) : LruCall K V → Recency K V × LruReturn K V
  | .put key value => (a.put key value, .stored (a.victim key) (.ok (a.peek key)))
  | .get key => (a, .value (a.peek key))
  | .getAndTouch key => ((a.use key).1, .value (a.use key).2)
  | .touch key => ((a.use key).1, .promoted (a.use key).2.isSome)
  | .remove key => (a.remove key, .value (a.peek key))
  | .evictOldest => (a.evict, .evicted a.entries.getLast?)
  | .snapshotMruFirst => (a, .entries a.entries)
  | .snapshotLruFirst => (a, .entries a.entries.reverse)

def calls : Recency K V → List (LruCall K V) → Recency K V × List (LruReturn K V)
  | a, [] => (a, [])
  | a, op :: ops =>
    let (a, r) := a.call op
    let (a, rs) := a.calls ops
    (a, r :: rs)

theorem capacity_call (a : Recency K V) (op : LruCall K V) : (a.call op).1.capacity = a.capacity := by
  cases op with
  | getAndTouch key | touch key =>
    simp only [call, use]
    split <;> rfl
  | _ => rfl

end Recency
end SubEtha.Maps
