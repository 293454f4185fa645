import Mathlib.Algebra.Group.Nat.Defs
import SubEtha.Lib.Memory
import SubEtha.Lib.Runs

namespace SubEtha.Unified
open Lib

inductive SensCode
  | rlc
  | rs
  deriving DecidableEq

/-- A CODE_SWITCH announcement: where the stream stood, and the code that
carries it from there. -/
structure CodeSwitch where
  boundary : Nat
  target : SensCode
  deriving DecidableEq

def sentRingCap : Nat := 65536

/-- The sender over its two codes; of RLC it reads the next source id and the
cumulative acknowledgement. -/
structure UnifiedSensSender (α : Type) where
  active : SensCode
  sentRing : List α
  ringBase : Nat
  itemsTotal : Nat
  rlcNext : Nat
  rlcAcked : Nat

namespace UnifiedSensSender

variable {α : Type} (tx : UnifiedSensSender α)

def new (start : SensCode) : UnifiedSensSender α := ⟨start, [], 0, 0, 0, 0⟩

def dropFront (n : Nat) : UnifiedSensSender α :=
  { tx with sentRing := tx.sentRing.drop n, ringBase := tx.ringBase + n }

def evictAcked : UnifiedSensSender α :=
  match tx.active with
  | .rlc => tx.dropFront (min (tx.rlcAcked - tx.ringBase) tx.sentRing.length)
  | .rs => tx

def trimSentRing : UnifiedSensSender α :=
  tx.evictAcked.dropFront (tx.evictAcked.sentRing.length - sentRingCap)

/-- Resend the unacknowledged tail over RS, if the ring still has all of it. -/
def switchRlcToRs : UnifiedSensSender α × CodeSwitch × List α :=
  let boundary := tx.rlcAcked
  ({ tx with active := .rs }, ⟨boundary, .rs⟩,
    if tx.ringBase ≤ boundary then tx.sentRing.drop (boundary - tx.ringBase) else [])

/-- The switch is announced whether the drain before it finished or timed out. -/
def doSwitchWithDrain (target : SensCode) : UnifiedSensSender α × CodeSwitch × List α :=
  let switched := { tx with active := target }
  (match target with
    | .rlc => { switched with
        rlcNext := tx.itemsTotal % 2 ^ 32, rlcAcked := tx.itemsTotal % 2 ^ 32 }
    | .rs => switched,
    ⟨tx.itemsTotal, target⟩, [])

def doSwitch (target : SensCode) : UnifiedSensSender α × CodeSwitch × List α :=
  match tx.active, target with
  | .rlc, .rs => tx.switchRlcToRs
  | _, _ => tx.doSwitchWithDrain target

def record (item : α) : UnifiedSensSender α :=
  { tx with sentRing := tx.sentRing ++ [item], itemsTotal := tx.itemsTotal + 1 }.trimSentRing

end UnifiedSensSender

/-- The receiver over its two decoders; of RLC it keeps the next id to deliver,
of RS how many items it has taken. -/
structure UnifiedSensReceiver where
  active : SensCode
  deliveredTotal : Nat
  rsNextGlobal : Nat
  pendingSwitch : Option CodeSwitch
  switchSignal : Option CodeSwitch
  rlcThrough : Nat
  rsTaken : Nat

namespace UnifiedSensReceiver

variable {α : Type}

def new (start : SensCode) : UnifiedSensReceiver := ⟨start, 0, 0, none, none, 0, 0⟩

/-- A later announcement overwrites one not yet picked up. -/
def signal (rx : UnifiedSensReceiver) (c : CodeSwitch) : UnifiedSensReceiver :=
  { rx with switchSignal := some c }

def pickUp (rx : UnifiedSensReceiver) : UnifiedSensReceiver :=
  match rx.pendingSwitch with
  | none => { rx with pendingSwitch := rx.switchSignal, switchSignal := none }
  | some _ => rx

/-- Up to `n` items in id order from the RLC decoder. -/
def pollRlc (rlc : Table Nat α) : Nat → UnifiedSensReceiver → UnifiedSensReceiver × List α
  | 0, rx => (rx, [])
  | n + 1, rx =>
    match rlc.get? rx.rlcThrough with
    | none => (rx, [])
    | some item =>
      let rest := pollRlc rlc n { rx with
        rlcThrough := (rx.rlcThrough + 1) % 2 ^ 32, deliveredTotal := rx.deliveredTotal + 1 }
      (rest.1, item :: rest.2)

/-- Items RLC had already delivered are dropped. -/
def pollRs : List α → UnifiedSensReceiver → UnifiedSensReceiver × List α
  | [], rx => (rx, [])
  | item :: items, rx =>
    let next := { rx with rsNextGlobal := rx.rsNextGlobal + 1, rsTaken := rx.rsTaken + 1 }
    if rx.deliveredTotal ≤ rx.rsNextGlobal then
      let rest := pollRs items { next with deliveredTotal := rx.deliveredTotal + 1 }
      (rest.1, item :: rest.2)
    else pollRs items next

variable (rx : UnifiedSensReceiver)

/-- The switch the receiver acts on: the boundary is reached, and it is not to
the code it is on. -/
def acts : Option CodeSwitch :=
  rx.pendingSwitch.filter fun c => c.boundary ≤ rx.deliveredTotal && c.target ≠ rx.active

def switchTo (c : CodeSwitch) : UnifiedSensReceiver :=
  match c.target with
  | .rs => { rx with active := .rs, rsNextGlobal := c.boundary }
  | .rlc => { rx with active := .rlc, rlcThrough := c.boundary % 2 ^ 32 }

def honorSwitch : UnifiedSensReceiver :=
  match rx.pendingSwitch with
  | none => rx
  | some c =>
    if c.boundary ≤ rx.deliveredTotal then
      { (if c.target ≠ rx.active then rx.switchTo c else rx) with pendingSwitch := none }
    else rx

/-- What the active decoder has for this poll, `n` items at most. -/
def drive (rlc : Table Nat α) (rs : List α) (n : Nat) : UnifiedSensReceiver × List α :=
  match rx.active with
  | .rlc => pollRlc rlc n rx
  | .rs => pollRs ((rs.drop rx.rsTaken).take n) rx

def pollTagged (rlc : Table Nat α) (rs : List α) (n : Nat) : UnifiedSensReceiver × List α :=
  let out := rx.pickUp.drive rlc rs n
  (out.1.honorSwitch, out.2)

end UnifiedSensReceiver

/-- An announcement, with how many items RS had been handed before it. -/
structure Announced extends CodeSwitch where
  rsBefore : Nat

inductive UnifiedEvent (α : Type)
  | send (item : α) (escape : Bool)
  | forceSwitch (target : SensCode)
  | ack (n : Nat)
  | signal (n : Nat)
  | poll (n : Nat)

/-- Both ends, and what either code and the control plane carry between them:
RLC under its ids, RS in order, announcements and RLC acknowledgements. -/
structure Transport (α : Type) where
  tx : UnifiedSensSender α
  rx : UnifiedSensReceiver
  rlc : Table Nat α
  rs : List α
  announced : List Announced
  acks : List Nat
  items : List α
  delivered : List α

namespace Transport

variable {α : Type} (s : Transport α)

def init (start : SensCode) : Transport α where
  tx := .new start
  rx := .new start
  rlc := Table.empty
  rs := []
  announced := []
  acks := []
  items := []
  delivered := []

def switchTo (target : SensCode) : Transport α :=
  let out := s.tx.doSwitch target
  { s with
    tx := out.1
    announced := s.announced ++ [⟨out.2.1, s.rs.length⟩]
    rs := s.rs ++ out.2.2 }

def hand (item : α) : Transport α :=
  match s.tx.active with
  | .rlc => { s with
      tx := { s.tx with rlcNext := (s.tx.rlcNext + 1) % 2 ^ 32 }.record item
      rlc := s.rlc.insert s.tx.rlcNext item
      items := s.items ++ [item] }
  | .rs => { s with
      tx := s.tx.record item
      rs := s.rs ++ [item]
      items := s.items ++ [item] }

/-- An RLC flow window that stays shut makes `send_item` escape to RS. -/
def step : UnifiedEvent α → Option (Transport α)
  | .send item escape =>
    some ((if escape = true ∧ s.tx.active = .rlc then s.switchTo .rs else s).hand item)
  | .forceSwitch target => some (if target ≠ s.tx.active then s.switchTo target else s)
  | .ack n =>
    match s.acks[n]? with
    | none => some s
    | some through =>
      some { s with tx := { s.tx with rlcAcked := max s.tx.rlcAcked through } }
  | .signal n =>
    match s.announced[n]? with
    | none => some s
    | some a => some { s with rx := s.rx.signal a.toCodeSwitch }
  | .poll n =>
    let driven := s.rx.pickUp.drive s.rlc s.rs n
    some { s with
      rx := (s.rx.pollTagged s.rlc s.rs n).1
      delivered := s.delivered ++ (s.rx.pollTagged s.rlc s.rs n).2
      acks := s.acks ++ match s.rx.active with
        | .rlc => [driven.1.rlcThrough]
        | .rs => [] }

end Transport
end SubEtha.Unified
