import SubEtha.Epochs.Slab

namespace SubEtha.Epochs
open List Option SharedVersionedSlab
open Lib (run)
open SharedEpochs (Ledger)

variable {T : Type} {D : Nat}

/-- A held pin of a slab: its slot and epoch, the slab as the pin was taken and the
tickets open then. -/
structure HeldRead (T : Type) (D : Nat) where
  slot : Nat
  epoch : Nat
  origin : SharedVersionedSlab T D
  opened : List (Nat × Nat)

/-- A slab in use: the open tickets (slot and epoch) and the held pins. -/
structure SlabSession (T : Type) (D : Nat) where
  slab : SharedVersionedSlab T D
  tickets : List (Nat × Nat)
  pins : List (HeldRead T D)

/-- One call; `ticket` and `pin` name the holder slot of what the caller holds. -/
inductive SlabCall (T : Type)
  | set (i : Nat) (value : T)
  | setAt (ticket i : Nat) (value : T)
  | retire (i : Nat)
  | retireAt (ticket i : Nat)
  | sweepSlot (i : Nat)
  | begin (pid : Nat)
  | publish (ticket : Nat)
  | pin (pid : Nat)
  | release (pin : Nat)

variable {i ticket : Nat}

namespace SlabSession

def start (capacity maxPins : Nat) : SlabSession T D := ⟨.create capacity maxPins, [], []⟩

section
variable (W : SlabSession T D)

/-- One call; `none` where the caller does not hold the ticket or pin it names, or the
call never returns. -/
def call : SlabCall T → Option (SlabSession T D)
  | .set i value => (W.slab.set i value).map fun (slab, _) => { W with slab := slab }
  | .setAt ticket i value =>
    (W.tickets.find? fun t => t.1 == ticket).bind fun t =>
      (W.slab.setAt i value t.2).map fun (slab, _) => { W with slab := slab }
  | .retire i => some { W with slab := (W.slab.retire i).1 }
  | .retireAt ticket i =>
    (W.tickets.find? fun t => t.1 == ticket).map fun t =>
      { W with slab := (W.slab.retireAt i t.2).1 }
  | .sweepSlot i => (W.slab.sweepSlot i).map fun (slab, _) => { W with slab := slab }
  | .begin pid =>
    match W.slab.epochs.claimTicket pid with
    | (epochs, .ok t) =>
      some { W with slab := { W.slab with epochs := epochs }, tickets := t :: W.tickets }
    | (epochs, .error _) => some { W with slab := { W.slab with epochs := epochs } }
  | .publish ticket =>
    (W.tickets.find? fun t => t.1 == ticket).map fun _ =>
      { W with
        slab := { W.slab with epochs := W.slab.epochs.publishTicket ticket }
        tickets := W.tickets.filter fun t => t.1 != ticket }
  | .pin pid =>
    (W.slab.epochs.claimPin (fun _ => true) pid).map fun
      | (epochs, .ok (slot, at')) =>
        let slab := { W.slab with epochs := epochs }
        { W with slab := slab, pins := ⟨slot, at', slab, W.tickets⟩ :: W.pins }
      | (epochs, .error _) => { W with slab := { W.slab with epochs := epochs } }
  | .release pin =>
    (W.pins.find? fun h => h.slot == pin).map fun _ =>
      { W with
        slab := { W.slab with epochs := W.slab.epochs.releasePin pin }
        pins := W.pins.filter fun h => h.slot != pin }

def Holds : SlabCall T → Prop
  | .setAt ticket _ _ | .retireAt ticket _ | .publish ticket => ∃ t ∈ W.tickets, t.1 = ticket
  | .release pin => ∃ h ∈ W.pins, h.slot = pin
  | _ => True

def marks : List (Nat × Nat) := W.pins.map fun h => (h.slot, h.epoch)

/-- Every read under a held pin is what it was as the pin was taken; with no ticket open
then, it is what was current. -/
def Fixed (h : HeldRead T D) : Prop :=
  ∀ i, W.slab.getAt i h.epoch = h.origin.getAt i h.epoch ∧
    (h.opened = [] → W.slab.getAt i h.epoch = h.origin.get i)

end

structure Sound (W : SlabSession T D) : Prop where
  ledger : Ledger W.slab.epochs W.tickets W.marks
  stamped : ∀ c ∈ W.slab.slots, c.Stamped W.slab.epochs.counter
  fixed : ∀ h ∈ W.pins, W.Fixed h

theorem sound_start (capacity maxPins : Nat) : Sound (start capacity maxPins : SlabSession T D) :=
  ⟨SharedEpochs.ledger_create maxPins,
    fun c hc => by rw [eq_of_mem_replicate hc]; exact VersionChain.stamped_empty _, nofun⟩

section
variable {W W' : SlabSession T D}

section
variable (hS : Sound W)
include hS

theorem Sound.stamped_advance : ∀ c ∈ W.slab.slots, c.Stamped W.slab.epochs.advance.2.counter :=
  fun c hc => (hS.stamped c hc).mono (Nat.le_succ _)

theorem Sound.pin_lt_advance (hh : h ∈ W.pins) : h.epoch < W.slab.epochs.advance.1 :=
  Nat.lt_succ_of_le (hS.ledger.pin_le (h.slot, h.epoch) (mem_map_of_mem hh))

theorem Sound.pin_lt_ticket (ht : t ∈ W.tickets) (hh : h ∈ W.pins) : h.epoch < t.2 :=
  hS.ledger.below (h.slot, h.epoch) (mem_map_of_mem hh) t ht

/-- A call that leaves the tickets and pins, and every read under a held pin, as they are. -/
theorem Sound.wrote {s s' : SharedVersionedSlab T D} (hwrote : s.Wrote s' F s.epochs.counter)
    (hread : ∀ i p, s.getAt i p = W.slab.getAt i p) (hledger : Ledger s.epochs W.tickets W.marks)
    (hF : ∀ h ∈ W.pins, F h.epoch) : Sound { W with slab := s' } := by
  refine ⟨?_, ?_, fun h hh i => ?_⟩
  · rw [hwrote.epochs]
    exact hledger
  · rw [hwrote.epochs]
    exact hwrote.stamped
  · have heq := (hwrote.reads h.epoch (hF h hh) i).trans (hread i h.epoch)
    exact ⟨heq.trans (hS.fixed h hh i).1, fun hopened => heq.trans ((hS.fixed h hh i).2 hopened)⟩

theorem Sound.epochs {epochs : SharedEpochs} {tickets : List (Nat × Nat)}
    {pins : List (HeldRead T D)}
    (hledger : Ledger epochs tickets (pins.map fun h => (h.slot, h.epoch)))
    (hcounter : W.slab.epochs.counter ≤ epochs.counter) (hpins : ∀ h ∈ pins, h ∈ W.pins) :
    Sound { slab := { W.slab with epochs := epochs }, tickets := tickets, pins := pins } :=
  ⟨hledger, fun c hc => (hS.stamped c hc).mono hcounter, fun h hh => hS.fixed h (hpins h hh)⟩

theorem Sound.set (h : W.call (.set i value) = some W') : Sound W' := by
  obtain ⟨⟨slab, res⟩, hset, rfl⟩ := map_eq_some_iff.mp h
  obtain ⟨horizon, hhorizon, -, -, hpins, -⟩ := hS.ledger.advance.horizon_spec
  have hwrote := setAt_wrote
    (s := { W.slab with epochs := W.slab.epochs.advance.2 }) hS.stamped_advance hhorizon
    le_rfl hset
  refine hS.wrote hwrote (fun _ _ => rfl) hS.ledger.advance fun h hh => ?_
  exact ⟨hpins _ (mem_map_of_mem hh), hS.pin_lt_advance hh⟩

theorem Sound.setAt (h : W.call (.setAt ticket i value) = some W') : Sound W' := by
  obtain ⟨t, hfind, h⟩ := bind_eq_some_iff.mp h
  obtain ⟨⟨slab, res⟩, hset, rfl⟩ := map_eq_some_iff.mp h
  obtain ⟨horizon, hhorizon, -, -, hpins, -⟩ := hS.ledger.horizon_spec
  have ht := mem_of_find?_eq_some hfind
  have hwrote := setAt_wrote hS.stamped hhorizon (hS.ledger.open_pos t ht).2 hset
  refine hS.wrote hwrote (fun _ _ => rfl) hS.ledger fun h hh => ?_
  exact ⟨hpins _ (mem_map_of_mem hh), hS.pin_lt_ticket ht hh⟩

theorem Sound.retire (h : W.call (.retire i) = some W') : Sound W' := by
  cases h
  have hwrote := retireAt_wrote
    (s := { W.slab with epochs := W.slab.epochs.advance.2 }) hS.stamped_advance i le_rfl
  exact hS.wrote hwrote (fun _ _ => rfl) hS.ledger.advance fun h hh => hS.pin_lt_advance hh

theorem Sound.retireAt (h : W.call (.retireAt ticket i) = some W') : Sound W' := by
  obtain ⟨t, hfind, rfl⟩ := map_eq_some_iff.mp h
  have ht := mem_of_find?_eq_some hfind
  have hwrote := retireAt_wrote hS.stamped i (hS.ledger.open_pos t ht).2
  exact hS.wrote hwrote (fun _ _ => rfl) hS.ledger fun h hh => hS.pin_lt_ticket ht hh

theorem Sound.sweepSlot (h : W.call (.sweepSlot i) = some W') : Sound W' := by
  obtain ⟨⟨slab, res⟩, hsweep, rfl⟩ := map_eq_some_iff.mp h
  obtain ⟨horizon, hhorizon, -, -, hpins, -⟩ := hS.ledger.horizon_spec
  have hwrote := sweepSlot_wrote hS.stamped hhorizon hsweep
  exact hS.wrote hwrote (fun _ _ => rfl) hS.ledger fun h hh => hpins _ (mem_map_of_mem hh)

theorem Sound.begin (h : W.call (.begin pid) = some W') : Sound W' := by
  unfold call at h
  dsimp only at h
  cases hclaim : W.slab.epochs.claimTicket pid with
  | mk epochs res =>
    have hspec := hS.ledger.claimTicket hclaim
    rw [hclaim] at h
    cases res with
    | error e =>
      cases h
      cases hspec
      exact hS
    | ok t =>
      cases h
      obtain ⟨hepoch, hcounter, hledger, -⟩ := hspec
      exact hS.epochs hledger (by omega) fun _ hh => hh

theorem Sound.publish (h : W.call (.publish ticket) = some W') : Sound W' := by
  obtain ⟨t, -, rfl⟩ := map_eq_some_iff.mp h
  exact hS.epochs (hS.ledger.publishTicket ticket) le_rfl fun _ hh => hh

theorem Sound.release (h : W.call (.release pin) = some W') : Sound W' := by
  obtain ⟨t, -, rfl⟩ := map_eq_some_iff.mp h
  have hledger := hS.ledger.releasePin pin
  dsimp only [marks] at hledger
  rw [List.filter_map] at hledger
  exact hS.epochs hledger le_rfl fun _ hh => (mem_filter.mp hh).1

/-- A pin taken with no ticket open is at the counter, which no stamp lies above. -/
theorem Sound.pin (h : W.call (.pin pid) = some W') : Sound W' := by
  obtain ⟨epochs, res, hclaim, hspec⟩ := hS.ledger.claimPin pid
  unfold call at h
  dsimp only at h
  rw [hclaim] at h
  cases res with
  | error e =>
    cases h
    cases hspec
    exact hS
  | ok claim =>
    obtain ⟨slot, at'⟩ := claim
    cases h
    obtain ⟨hnow, hcounter, hledger, -⟩ := hspec
    refine ⟨hledger, ?_, fun h hh => ?_⟩
    · rw [hcounter]
      exact hS.stamped
    rcases mem_cons.mp hh with rfl | hh
    · refine fun i => ⟨rfl, fun hopened => ?_⟩
      obtain ⟨now, hnow', hle, -⟩ := hS.ledger.now_spec
      cases hnow.symm.trans hnow'
      have hge : W.slab.epochs.counter ≤ at' := hS.ledger.le_now hnow le_rfl
        (fun t ht => by rw [show W.tickets = [] from hopened] at ht; cases ht)
      refine getAt_eq_get (fun c hc => ?_) i
      exact (hS.stamped c hc).mono hge
    · exact hS.fixed h hh

theorem Sound.call (h : W.call c = some W') : Sound W' := by
  cases c with
  | set i value => exact hS.set h
  | setAt ticket i value => exact hS.setAt h
  | retire i => exact hS.retire h
  | retireAt ticket i => exact hS.retireAt h
  | sweepSlot i => exact hS.sweepSlot h
  | «begin» pid => exact hS.begin h
  | publish ticket => exact hS.publish h
  | pin pid => exact hS.pin h
  | release pin => exact hS.release h

theorem Sound.call_returns (hholds : Holds W c) : ∃ W', W.call c = some W' := by
  obtain ⟨horizon, hhorizon, -⟩ := hS.ledger.horizon_spec
  cases c with
  | set i value =>
    obtain ⟨horizon', hhorizon', -⟩ := hS.ledger.advance.horizon_spec
    obtain ⟨r, hr⟩ := setAt_returns
      (s := { W.slab with epochs := W.slab.epochs.advance.2 }) hhorizon' i value
      W.slab.epochs.advance.1
    exact ⟨_, map_eq_some_iff.mpr ⟨r, hr, rfl⟩⟩
  | setAt ticket i value =>
    obtain ⟨t, ht⟩ := Session.find?_slot hholds
    obtain ⟨r, hr⟩ := setAt_returns hhorizon i value t.2
    exact ⟨_, bind_eq_some_iff.mpr ⟨t, ht, map_eq_some_iff.mpr ⟨r, hr, rfl⟩⟩⟩
  | retire i => exact ⟨_, rfl⟩
  | retireAt | publish | release =>
    obtain ⟨t, ht⟩ := Session.find?_slot hholds
    exact ⟨_, map_eq_some_iff.mpr ⟨t, ht, rfl⟩⟩
  | sweepSlot i =>
    obtain ⟨r, hr⟩ := sweepSlot_returns hhorizon i
    exact ⟨_, map_eq_some_iff.mpr ⟨r, hr, rfl⟩⟩
  | «begin» pid =>
    unfold SlabSession.call
    dsimp only
    split <;> exact ⟨_, rfl⟩
  | pin pid =>
    obtain ⟨epochs, res, hclaim, -⟩ := hS.ledger.claimPin pid
    exact ⟨_, map_eq_some_iff.mpr ⟨_, hclaim, rfl⟩⟩

/-- A push is refused where the chain is full and every version in it lived past some pin. -/
theorem Sound.set_pinned_iff (hopen : W.tickets = []) (hc : W.slab.slots[i]? = some c) (value : T) :
    (∃ slab, W.slab.set i value = some (slab, .error .pinned)) ↔ c.versions.length = D ∧
      ∀ v ∈ c.versions, ∃ h ∈ W.pins, VersionChain.outlives h.epoch v := by
  obtain ⟨horizon, hhorizon, -⟩ := hS.ledger.advance.horizon_spec
  have hpast : ∀ died ≤ W.slab.epochs.advance.1, horizon < died ↔ ∃ h ∈ W.pins, h.epoch < died := by
    intro died hdied
    rw [← not_le, hS.ledger.advance.le_horizon_iff hhorizon]
    constructor
    · intro hnot
      by_contra hall
      refine hnot ⟨hdied, by simp [hopen], fun p hp => not_lt.mp fun hlt => hall ?_⟩
      obtain ⟨h, hh, rfl⟩ := mem_map.mp hp
      exact ⟨h, hh, hlt⟩
    · rintro ⟨h, hh, hlt⟩ hsettles
      exact absurd (hsettles.pins _ (mem_map_of_mem hh)) (not_le.mpr hlt)
  have hkept : (∀ v ∈ (c.supersede W.slab.epochs.advance.1).versions,
    VersionChain.outlives horizon v) ↔ _ :=
    (hS.stamped_advance c (mem_of_getElem? hc)).kept_iff hpast fun h hh => hS.pin_lt_advance hh
  have hlen : (c.supersede W.slab.epochs.advance.1).versions.length = c.versions.length :=
    length_modifyHead
  have hfewer := length_filter_le (VersionChain.outlives horizon)
    (c.supersede W.slab.epochs.advance.1).versions
  have hbound := c.bound
  rw [← hkept, ← length_filter_eq_length_iff, hlen]
  dsimp only [SharedVersionedSlab.set, SharedVersionedSlab.setAt]
  rw [hc]
  dsimp only
  split
  · simp only [some.injEq, place_pinned_iff]
    omega
  · rw [hhorizon]
    simp only [map_some, some.injEq, place_pinned_iff, VersionChain.sweep]
    omega

end
end

/-- With no ticket open, a push is refused just where the chain is full and every version in it
is live or was superseded after some held pin. -/
theorem set_refuses_iff_outlived {capacity maxPins : Nat} {calls : List (SlabCall T)}
    {W : SlabSession T D} (hrun : run call (start capacity maxPins) calls = some W)
    (hopen : W.tickets = []) {i : Nat} {c : VersionChain T D} (hc : W.slab.slots[i]? = some c)
    (value : T) :
    (∃ slab, W.slab.set i value = some (slab, .error .pinned)) ↔ c.versions.length = D ∧
      ∀ v ∈ c.versions, ∃ h ∈ W.pins, v.isLive = true ∨ ∃ died, v.died = some died ∧ h.epoch < died := by
  have hS : Sound W :=
    Lib.run_preserves (fun _ _ _ hS h => hS.call h) (sound_start capacity maxPins) hrun
  have houtlives : ∀ (v : Versioned T) p, VersionChain.outlives p v = true ↔
      v.isLive = true ∨ ∃ died, v.died = some died ∧ p < died := by
    intro v p
    rw [VersionChain.outlives, Versioned.isLive]
    cases v.died <;> simp
  simp only [hS.set_pinned_iff hopen hc value, houtlives]

theorem set_refuses_iff_outlived_seen : ∃ W : SlabSession Nat 1,
    run call (start 1 1) [.set 0 7, .pin 3] = some W ∧
      ∃ slab, W.slab.set 0 8 = some (slab, .error .pinned) := by
  have hrun : run call (start 1 1 : SlabSession Nat 1) [.set 0 7, .pin 3] = _ := rfl
  refine ⟨_, hrun, (set_refuses_iff_outlived hrun rfl (i := 0) rfl 8).mpr ⟨rfl, ?_⟩⟩
  exact forall_mem_singleton.mpr ⟨_, mem_cons_self, .inl rfl⟩

/-- A pin taken before the only version was written keeps it in a chain of one. -/
theorem set_refused_for_unseen : ∃ W : SlabSession Nat 1,
    run call (start 1 1) [.pin 3, .set 0 7] = some W ∧ W.tickets = [] ∧
      (∃ slab, W.slab.set 0 8 = some (slab, .error .pinned)) ∧
      ∃ c ∈ W.slab.slots, ∃ v ∈ c.versions, ∀ h ∈ W.pins, v.visibleAt h.epoch = false :=
  ⟨_, rfl, rfl, ⟨_, rfl⟩, _, mem_cons_self, _, mem_cons_self, forall_mem_singleton.mpr rfl⟩

/-- In every state that calls reach, the reads under each held pin are those of the moment
it was taken, and no call of a holder gets stuck. -/
theorem pinned_slab_reads_fixed {capacity maxPins : Nat} {calls : List (SlabCall T)}
    {W : SlabSession T D} (hrun : run call (start capacity maxPins) calls = some W) :
    (∀ h ∈ W.pins, ∀ i, W.slab.getAt i h.epoch = h.origin.getAt i h.epoch ∧
      (h.opened = [] → W.slab.getAt i h.epoch = h.origin.get i)) ∧
    ∀ c, W.Holds c → ∃ W', W.call c = some W' := by
  have hS : Sound W :=
    Lib.run_preserves (fun _ _ _ hS h => hS.call h) (sound_start capacity maxPins) hrun
  exact ⟨hS.fixed, fun c hc => hS.call_returns hc⟩

/-- Two compounds overlap a pin and write out of epoch order; the second finds the chain
full of versions that the pin can reach. -/
theorem pinned_slab_reads_fixed_overlap : ∃ W : SlabSession Nat 2, run call (start 1 2)
        [.set 0 7, .begin 1, .begin 2, .pin 3, .setAt 1 0 8, .setAt 0 0 9, .retire 0] = some W ∧
      W.slab.get 0 = .ok none ∧ W.pins.length = 1 ∧
      ∀ h ∈ W.pins, ∀ i, W.slab.getAt i h.epoch = h.origin.getAt i h.epoch ∧
        (h.opened = [] → W.slab.getAt i h.epoch = h.origin.get i) := by
  refine ⟨_, rfl, rfl, rfl, ?_⟩
  have hrun : run call (start 1 2 : SlabSession Nat 2)
      [.set 0 7, .begin 1, .begin 2, .pin 3, .setAt 1 0 8, .setAt 0 0 9, .retire 0] = _ := rfl
  exact (pinned_slab_reads_fixed hrun).1

end SlabSession
end SubEtha.Epochs
