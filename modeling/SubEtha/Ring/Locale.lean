import SubEtha.Ring.Capacity
import SubEtha.Ring.Rounds

namespace SubEtha.Ring
open Function (update)

variable {α : Type}

inductive Locale
  | anon
  | file
  | shmFs
deriving DecidableEq

structure LocaleAdaptiveRing (α : Type) where
  locale : Locale
  rings : Locale → AdaptiveRing α

namespace LocaleAdaptiveRing

def create (maxProducers capacity : Nat) : LocaleAdaptiveRing α where
  locale := .anon
  rings := fun _ => .create maxProducers capacity none false

def setRing (s : LocaleAdaptiveRing α) (l : Locale) (r : AdaptiveRing α) : LocaleAdaptiveRing α :=
  { s with rings := update s.rings l r }

/-- The id is claimed on the file backing and carried onto the others; a backing that
refuses it gives back the claims of this call. -/
def registerProducer (s : LocaleAdaptiveRing α) (canGrow : Locale → Bool) :
    LocaleAdaptiveRing α × Except AdaptiveError Nat :=
  match (s.rings .file).registerProducer (canGrow .file) with
  | (file, .error e) => (s.setRing .file file, .error e)
  | (file, .ok id) =>
    match (s.rings .shmFs).carryProducer (canGrow .shmFs) id with
    | (shmFs, .error e) =>
      let shmFs := if e = .growthFailed then shmFs.unregisterProducer id else shmFs
      ((s.setRing .shmFs shmFs).setRing .file (file.unregisterProducer id), .error e)
    | (shmFs, .ok claimed) =>
      match (s.rings .anon).carryProducer (canGrow .anon) id with
      | (anon, .error e) =>
        let anon := if e = .growthFailed then anon.unregisterProducer id else anon
        let shmFs := if claimed then shmFs.unregisterProducer id else shmFs
        (((s.setRing .anon anon).setRing .shmFs shmFs).setRing .file (file.unregisterProducer id),
          .error e)
      | (anon, .ok _) =>
        (((s.setRing .file file).setRing .shmFs shmFs).setRing .anon anon, .ok id)

def registerConsumer (s : LocaleAdaptiveRing α) : LocaleAdaptiveRing α × Except AdaptiveError Nat :=
  match (s.rings .file).registerConsumer with
  | (file, .error e) => (s.setRing .file file, .error e)
  | (file, .ok id) =>
    match (s.rings .shmFs).carryConsumer id with
    | (shmFs, .error e) =>
      ((s.setRing .shmFs shmFs).setRing .file (file.unregisterConsumer id), .error e)
    | (shmFs, .ok claimed) =>
      match (s.rings .anon).carryConsumer id with
      | (anon, .error e) =>
        let shmFs := if claimed then shmFs.unregisterConsumer id else shmFs
        (((s.setRing .anon anon).setRing .shmFs shmFs).setRing .file (file.unregisterConsumer id),
          .error e)
      | (anon, .ok _) =>
        (((s.setRing .file file).setRing .shmFs shmFs).setRing .anon anon, .ok id)

def trySend (s : LocaleAdaptiveRing α) (producerId len : Nat) (x : α) :
    LocaleAdaptiveRing α × Except RingError Unit :=
  let out := (s.rings s.locale).trySend producerId len x
  (s.setRing s.locale out.1, out.2)

def tryRecv (s : LocaleAdaptiveRing α) (consumerId outLen : Nat) :
    LocaleAdaptiveRing α × Except RingError α :=
  let out := (s.rings s.locale).tryRecv consumerId outLen
  (s.setRing s.locale out.1, out.2)

/-- Consumer 0 drains the old backing and producer 0 sends into the new one; `none` is
fuel run out. A pop gives the bytes of a Lamport slot: no call here morphs a backing to
the Vyukov shape. -/
def transferItems : Nat → AdaptiveRing α → AdaptiveRing α →
    Option (AdaptiveRing α × AdaptiveRing α × Except RingError Unit)
  | 0, _, _ => none
  | fuel + 1, old, new =>
    match old.tryRecv 0 spscPayload with
    | (old, .ok x) =>
      match new.trySend 0 spscPayload x with
      | (new, .ok _) => transferItems fuel old new
      | (new, .error e) => some (old, new, .error e)
    | (old, .error .empty) => some (old, new, .ok ())
    | (old, .error e) => some (old, new, .error e)

def migrateTo (s : LocaleAdaptiveRing α) (target : Locale) :
    Option (LocaleAdaptiveRing α × Except RingError Unit) :=
  if s.locale = target then some (s, .ok ())
  else
    let old := s.rings s.locale
    (transferItems (old.held.items.length + 1) old (s.rings target)).map fun
      | (old, new, .ok _) =>
        ({ (s.setRing s.locale old).setRing target new with locale := target }, .ok ())
      | (old, new, .error e) => ((s.setRing s.locale old).setRing target new, .error e)

end LocaleAdaptiveRing

inductive LocaleEvent (α : Type)
  | registerProducer (canGrow : Locale → Bool)
  | registerConsumer
  | send (producerId len : Nat) (x : α)
  | recv (consumerId outLen : Nat)
  | migrateTo (target : Locale)

structure LocaleExchange (α : Type) where
  ring : LocaleAdaptiveRing α
  accepted : List α
  received : List α

namespace LocaleExchange

def start (maxProducers capacity : Nat) : LocaleExchange α :=
  ⟨.create maxProducers capacity, [], []⟩

variable (w : LocaleExchange α)

def sent (x : α) : LocaleAdaptiveRing α × Except RingError Unit → LocaleExchange α
  | (ring, .ok _) => { w with ring := ring, accepted := w.accepted ++ [x] }
  | (ring, .error _) => { w with ring := ring }

def taken : LocaleAdaptiveRing α × Except RingError α → LocaleExchange α
  | (ring, .ok x) => { w with ring := ring, received := w.received ++ [x] }
  | (ring, .error _) => { w with ring := ring }

/-- Only registered consumers receive. -/
def step : LocaleEvent α → Option (LocaleExchange α)
  | .registerProducer canGrow => some { w with ring := (w.ring.registerProducer canGrow).1 }
  | .registerConsumer => some { w with ring := w.ring.registerConsumer.1 }
  | .send p len x => some (w.sent x (w.ring.trySend p len x))
  | .recv c outLen =>
    if (w.ring.rings .file).directory.consumers c then
      some (w.taken (w.ring.tryRecv c outLen))
    else none
  | .migrateTo target => (w.ring.migrateTo target).map fun out => { w with ring := out.1 }

end LocaleExchange
end SubEtha.Ring
