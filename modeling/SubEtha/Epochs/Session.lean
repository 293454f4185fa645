import SubEtha.Epochs.Versioned

namespace SubEtha.Epochs
open List Option Versioned
open Lib (OrdMap Bound)

/-- An accepted write: its epoch, the compound it belongs to, what it leaves at its key
(`none` for a removal) and whether it replaced a live value. -/
structure Write (K V : Type) where
  epoch : Nat
  ticket : Option Nat
  key : K
  value : Option V
  replaced : Bool

variable {K V : Type}

/-- One write as a reader at epoch `p` sees it: a write up to `p` decides the value, and
a later one changes nothing unless it replaced the version the reader saw. -/
def Write.apply (p : Nat) (seen : Option V) (w : Write K V) : Option V :=
  if w.epoch ≤ p then w.value else if w.replaced then none else seen

def insertWrite (epoch : Nat) (ticket : Option Nat) (key : K) (value : V) :
    Except VersionedError (Option V) → List (Write K V)
  | .ok prev => [⟨epoch, ticket, key, some value, prev.isSome⟩]
  | .error _ => []

def removeWrite (epoch : Nat) (ticket : Option Nat) (key : K) : Option V → List (Write K V)
  | some _ => [⟨epoch, ticket, key, none, false⟩]
  | none => []

variable {key : K} {value : V} {res : Option V} {fits : Bool}

theorem mem_insertWrite {res : Except VersionedError (Option V)}
    (hw : w ∈ insertWrite epoch ticket key value res) :
    ∃ prev, res = .ok prev ∧ w = ⟨epoch, ticket, key, some value, prev.isSome⟩ := by
  cases res with
  | error e => cases hw
  | ok prev => exact ⟨prev, rfl, mem_singleton.mp hw⟩

theorem mem_removeWrite (hw : w ∈ removeWrite epoch ticket key res) :
    w = ⟨epoch, ticket, key, none, false⟩ := by
  cases res with
  | none => cases hw
  | some prev => exact mem_singleton.mp hw

section
variable (epoch : Nat) (ticket : Option Nat) (key : K)

theorem length_insertWrite (value : V) (res : Except VersionedError (Option V)) :
    (insertWrite epoch ticket key value res).length ≤ 1 := by
  cases res <;> simp [insertWrite]

theorem length_removeWrite (res : Option V) : (removeWrite epoch ticket key res).length ≤ 1 := by
  cases res <;> simp [removeWrite]

end

variable [LinearOrder K]

/-- What the writes of a log, in order, make of a key for a reader at epoch `p` that
saw `seen` before them. -/
def replay (p : Nat) (key : K) (seen : Option V) (log : List (Write K V)) : Option V :=
  (log.filter fun w => w.key == key).foldl (Write.apply p) seen

def shown (p : Nat) (key : K) (log : List (Write K V)) : Option V := replay p key none log

theorem replay_append (p : Nat) (key : K) (seen : Option V) (log ws : List (Write K V)) :
    replay p key seen (log ++ ws) = replay p key (replay p key seen log) ws := by
  rw [replay, filter_append, foldl_append]
  rfl

theorem replay_singleton (p : Nat) (key : K) (seen : Option V) (w : Write K V) :
    replay p key seen [w] = if key = w.key then w.apply p seen else seen := by
  by_cases hk : key = w.key
  · simp [replay, hk]
  · simp [replay, hk, beq_false_of_ne (Ne.symm hk)]

namespace VersionedBTreeMap

variable {m m' : VersionedBTreeMap K V}

theorem seen_reclaimable (h : reclaimable horizon e = true) (hp : horizon ≤ p) :
    e.visibleAt p = false := by
  obtain ⟨died, hdied, hle⟩ := (any_eq_true _ _).mp h
  have hle := of_decide_eq_true hle
  have hbelow : ¬p < died := by omega
  simp [visibleAt, hdied, hbelow]

theorem sweep_shows {res : Except VersionedError Nat} (h : m.sweep = some (m', res))
    (hhorizon : m.epochs.reclaimHorizon = some horizon) :
    m'.epochs = m.epochs ∧ (∀ k, m'.get k = m.get k) ∧
      ∀ p, horizon ≤ p → ∀ k, m'.getAt k p = m.getAt k p := by
  obtain ⟨horizon', hhorizon', rfl⟩ := sweep_spec h
  rw [hhorizon] at hhorizon'
  cases hhorizon'
  refine ⟨rfl, fun k => ?_, fun p hp k => ?_⟩
  · dsimp only [get]
    rw [OrdMap.get_filter]
    cases hget : m.tree.get k with
    | none => rfl
    | some e =>
      cases hdied : e.died <;> simp [filter_some, reclaimable, isLive, hdied]
  dsimp only [getAt, seen]
  rw [OrdMap.get_filter]
  cases hget : m.tree.get k with
  | none => rfl
  | some e =>
    cases hdead : reclaimable horizon e with
    | false => simp [filter_some, hdead]
    | true => simp [filter_some, hdead, seen_reclaimable hdead hp]

theorem place_shows {born : Nat}
    (hdead : ∀ died, (m.tree.get key).bind Versioned.died = some died → died ≤ horizon)
    (hp : horizon ≤ p) (ticket : Option Nat) (k : K) :
    VersionedBTreeMap.getAt { m with tree := m.tree.insert key ⟨born, none, value⟩ } k p =
      replay p k (m.getAt k p)
        (insertWrite born ticket key value (.ok (displaced (m.tree.get key)))) := by
  dsimp only [insertWrite]
  rw [replay_singleton]
  dsimp only [getAt, seen, Write.apply]
  rw [OrdMap.get_insert]
  by_cases hk : k = key
  · subst hk
    rw [if_pos rfl, if_pos rfl]
    by_cases hborn : born ≤ p
    · simp [filter_some, visibleAt, hborn]
    cases hget : m.tree.get k with
    | none => simp [filter_some, visibleAt, hborn, displaced]
    | some prev =>
      cases hdied : prev.died with
      | none =>
        simp [filter_some, visibleAt, hborn, displaced, isLive, hdied]
      | some died =>
        have hle := hdead died (by rw [hget]; exact hdied)
        have hbelow : ¬p < died := by omega
        simp [filter_some, visibleAt, hborn, displaced, isLive, hdied, hbelow]
  · rw [if_neg hk, if_neg hk]

theorem reborn_false (h : m.reborn key = some false)
    (hhorizon : m.epochs.reclaimHorizon = some horizon) (died : Nat)
    (hdied : (m.tree.get key).bind Versioned.died = some died) : died ≤ horizon := by
  rw [reborn, hdied, hhorizon] at h
  exact le_of_not_gt (of_decide_eq_false (some.inj h))

theorem insertAt_shows {born : Nat} {res : Except VersionedError (Option V)}
    (h : m.insertAt key value born fits fits' = some (m', res))
    (hhorizon : m.epochs.reclaimHorizon = some horizon) (ticket : Option Nat) :
    m'.epochs = m.epochs ∧ (∀ prev, res = .ok prev → prev = m.get key) ∧
      ∀ p, horizon ≤ p → ∀ k, m'.getAt k p =
        replay p k (m.getAt k p) (insertWrite born ticket key value res) := by
  obtain ⟨reborn, hreborn, h⟩ := bind_eq_some_iff.mp h
  cases reborn with
  | true =>
    cases h
    exact ⟨rfl, nofun, fun p _ k => rfl⟩
  | false =>
    have hdead := reborn_false hreborn hhorizon
    cases fits with
    | true =>
      cases h
      exact ⟨rfl, (fun _ h => by cases h; rfl), fun p hp k => place_shows hdead hp ticket k⟩
    | false =>
      obtain ⟨⟨m1, swept⟩, hsweep, heq⟩ := map_eq_some_iff.mp h
      obtain ⟨hepochs, hlive, hshows⟩ := sweep_shows hsweep hhorizon
      cases swept with
      | error e =>
        cases heq
        exact ⟨hepochs, nofun, fun p hp k => hshows p hp k⟩
      | ok freed =>
        cases fits' with
        | false =>
          cases heq
          exact ⟨hepochs, nofun, fun p hp k => hshows p hp k⟩
        | true =>
          cases heq
          refine ⟨hepochs, (fun _ h => by cases h; exact hlive key), fun p hp k => ?_⟩
          have hdead1 : ∀ died, (m1.tree.get key).bind Versioned.died = some died → died ≤ horizon := by
            obtain ⟨horizon', -, rfl⟩ := sweep_spec hsweep
            intro died hdied
            rw [OrdMap.get_filter] at hdied
            obtain ⟨e, he, hed⟩ := bind_eq_some_iff.mp hdied
            exact hdead died (by rw [(filter_eq_some_iff.mp he).1]; exact hed)
          rw [place_shows hdead1 hp ticket k, hshows p hp k]

theorem insertAt_returns (hhorizon : m.epochs.reclaimHorizon = some horizon) (key : K) (value : V)
    (born : Nat) (fits fits' : Bool) : (m.insertAt key value born fits fits').isSome = true := by
  have hreborn : ∃ reborn, m.reborn key = some reborn := by
    unfold reborn
    split
    · exact ⟨false, rfl⟩
    · rw [hhorizon]
      exact ⟨_, rfl⟩
  obtain ⟨reborn, hreborn⟩ := hreborn
  rw [insertAt, hreborn, bind_some]
  split
  · rfl
  split
  · rfl
  · rw [sweep, hhorizon]
    rfl

theorem stampDead_shows {prev : Versioned V} (hget : m.tree.get key = some prev)
    (hlive : prev.isLive = true) {died : Nat} (h : m.stampDead key prev died fits = (m', res))
    (ticket : Option Nat) : m'.epochs = m.epochs ∧ ∀ p k, m'.getAt k p =
      replay p k (m.getAt k p) (removeWrite died ticket key res) := by
  unfold stampDead at h
  split at h
  · cases h
    refine ⟨rfl, fun p k => ?_⟩
    dsimp only [removeWrite]
    rw [replay_singleton]
    dsimp only [getAt, seen, Write.apply]
    rw [OrdMap.get_insert]
    by_cases hk : k = key
    · subst hk
      have hnone : prev.died = none := isNone_iff_eq_none.mp hlive
      by_cases hdied : died ≤ p
      · simp [filter_some, visibleAt, hdied, not_lt.mpr hdied]
      · simp [hget, filter_some, visibleAt, hdied, hnone, lt_of_not_ge hdied]
    · simp [hk]
  · cases h
    exact ⟨rfl, fun p k => rfl⟩

theorem removeAt_shows {died : Nat} (h : m.removeAt key died fits = (m', res))
    (ticket : Option Nat) : m'.epochs = m.epochs ∧ ∀ p k, m'.getAt k p =
      replay p k (m.getAt k p) (removeWrite died ticket key res) := by
  unfold removeAt at h
  split at h
  · cases h
    exact ⟨rfl, fun p k => rfl⟩
  rename_i prev hget
  split at h
  · rename_i hlive
    exact stampDead_shows hget hlive h ticket
  · cases h
    exact ⟨rfl, fun p k => rfl⟩

theorem remove_shows (h : m.remove key fits = (m', res)) (ticket : Option Nat) :
    (m'.epochs = m.epochs ∨ m'.epochs = m.epochs.advance.2) ∧ ∀ p k, m'.getAt k p =
      replay p k (m.getAt k p) (removeWrite m.epochs.advance.1 ticket key res) := by
  unfold remove at h
  split at h
  · cases h
    exact ⟨.inl rfl, fun p k => rfl⟩
  rename_i prev hget
  split at h
  · rename_i hlive
    obtain ⟨hepochs, hshows⟩ :=
      stampDead_shows (m := { m with epochs := m.epochs.advance.2 }) hget hlive h ticket
    exact ⟨.inr hepochs, hshows⟩
  · cases h
    exact ⟨.inl rfl, fun p k => rfl⟩

end VersionedBTreeMap

/-- A held pin: its slot and epoch, the map as the pin was taken, how long the log was
then, the tickets open then and the epochs of every compound begun by then. -/
structure Held (K V : Type) [LinearOrder K] where
  slot : Nat
  epoch : Nat
  origin : VersionedBTreeMap K V
  logged : Nat
  opened : List (Nat × Nat)
  begun : List Nat

/-- A map in use: the open tickets (slot and epoch), the held pins, the accepted writes
in order and the epochs handed out to compounds. -/
structure Session (K V : Type) [LinearOrder K] where
  map : VersionedBTreeMap K V
  tickets : List (Nat × Nat)
  pins : List (Held K V)
  log : List (Write K V)
  begun : List Nat

/-- One call. `fits` is whether the node arena has room, a second one whether it has
room after a sweep. -/
inductive Call (K V : Type)
  | insert (key : K) (value : V) (fits fits' : Bool)
  | remove (key : K) (fits : Bool)
  | begin (pid : Nat)
  | insertAt (slot : Nat) (key : K) (value : V) (fits fits' : Bool)
  | removeAt (slot : Nat) (key : K) (fits : Bool)
  | publish (slot : Nat)
  | sweep
  | pin (pid : Nat)
  | release (slot : Nat)

namespace Session

def start (maxPins : Nat) : Session K V := ⟨.create maxPins, [], [], [], []⟩

def note (W : Session K V) (m : VersionedBTreeMap K V) (ws : List (Write K V)) : Session K V :=
  { W with map := m, log := W.log ++ ws }

/-- One call; `none` where the caller does not hold the ticket or pin it names, or the
call never returns. -/
def call (W : Session K V) : Call K V → Option (Session K V)
  | .insert key value fits fits' =>
    (W.map.insert key value fits fits').map fun (m, res) =>
      W.note m (insertWrite W.map.epochs.advance.1 none key value res)
  | .remove key fits =>
    let (m, res) := W.map.remove key fits
    some (W.note m (removeWrite W.map.epochs.advance.1 none key res))
  | .begin pid =>
    match W.map.epochs.claimTicket pid with
    | (epochs, .ok t) =>
      some { W with
        map := { W.map with epochs := epochs }, tickets := t :: W.tickets, begun := t.2 :: W.begun }
    | (epochs, .error _) => some { W with map := { W.map with epochs := epochs } }
  | .insertAt slot key value fits fits' =>
    (W.tickets.find? fun t => t.1 == slot).bind fun t =>
      (W.map.insertAt key value t.2 fits fits').map fun (m, res) =>
        W.note m (insertWrite t.2 (some t.2) key value res)
  | .removeAt slot key fits =>
    (W.tickets.find? fun t => t.1 == slot).map fun t =>
      let (m, res) := W.map.removeAt key t.2 fits
      W.note m (removeWrite t.2 (some t.2) key res)
  | .publish slot =>
    (W.tickets.find? fun t => t.1 == slot).map fun _ =>
      { W with
        map := { W.map with epochs := W.map.epochs.publishTicket slot }
        tickets := W.tickets.filter fun t => t.1 != slot }
  | .sweep => W.map.sweep.map fun (m, _) => W.note m []
  | .pin pid =>
    (W.map.epochs.claimPin (fun _ => true) pid).map fun
      | (epochs, .ok (slot, at')) =>
        let map := { W.map with epochs := epochs }
        { W with
          map := map
          pins := ⟨slot, at', map, W.log.length, W.tickets, W.begun⟩ :: W.pins }
      | (epochs, .error _) => { W with map := { W.map with epochs := epochs } }
  | .release slot =>
    (W.pins.find? fun p => p.slot == slot).map fun _ =>
      { W with
        map := { W.map with epochs := W.map.epochs.releasePin slot }
        pins := W.pins.filter fun p => p.slot != slot }

def Holds (W : Session K V) : Call K V → Prop
  | .insertAt slot _ _ _ _ | .removeAt slot _ _ | .publish slot => ∃ t ∈ W.tickets, t.1 = slot
  | .release slot => ∃ h ∈ W.pins, h.slot = slot
  | _ => True

end Session
end SubEtha.Epochs
