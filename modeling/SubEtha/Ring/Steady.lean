import SubEtha.Ring.Capacity
import SubEtha.Ring.Peers

namespace SubEtha.Ring
open List PeerDirectory AdaptiveRing

open Function (update)

variable {α : Type} {r r' : AdaptiveRing α} {shape : RingShape} {d d' : PeerDirectory} {id : Nat}

namespace AdaptiveRing

/-- The peer counts call for no other shape. -/
def Steady (r : AdaptiveRing α) : Prop :=
  r.shapeAuto = true → r.shape ≠ .vyukov →
    ∀ t, targetShape r.directory.activeProducers r.directory.activeConsumers = some t → t = r.shape

theorem Steady.congr (h : Steady r) (hshape : r'.shape = r.shape)
    (hauto : r'.shapeAuto = r.shapeAuto)
    (hproducers : r'.directory.activeProducers = r.directory.activeProducers)
    (hconsumers : r'.directory.activeConsumers = r.directory.activeConsumers) : Steady r' := by
  rw [Steady, hshape, hauto, hproducers, hconsumers]
  exact h

theorem Steady.reshapeForCounts_eq (h : Steady r) : r.reshapeForCounts = (r, true) := by
  unfold reshapeForCounts
  split
  · rfl
  rename_i hfree
  simp only [Bool.or_eq_true, Bool.not_eq_true', beq_iff_eq, not_or, Bool.not_eq_false] at hfree
  split
  · rfl
  · rename_i t ht
    exact if_pos (h hfree.1 hfree.2 t ht)

/-- An unstamped ring follows its counts, or falls back to the Vyukov shape for good. -/
theorem steady_reshapeForCounts (h : r.stamped = false) : Steady r.reshapeForCounts.1 := by
  unfold reshapeForCounts
  split
  · rename_i hpinned
    intro hauto hshape
    dsimp only at hauto hshape
    simp [hauto, hshape] at hpinned
  split
  · rename_i hnone
    intro _ _ t ht
    rw [hnone] at ht
    cases ht
  rename_i target htarget
  split
  · rename_i hsame
    intro _ _ t ht
    rw [htarget] at ht
    exact (Option.some.inj ht).symm.trans hsame
  have hfiltered : r.contractFilteredShape target = target ∨
      r.contractFilteredShape target = .vyukov := by
    unfold contractFilteredShape
    split
    · exact .inl rfl
    · rw [if_neg (by rw [h]; exact Bool.false_ne_true)]
      exact .inr rfl
  split
  · rename_i r' hmorph
    obtain ⟨hreshaped, -, hshape⟩ := morphShape_reshaped hmorph
    intro _ hne t ht
    rw [hreshaped.directory_eq, htarget] at ht
    cases ht
    rcases hfiltered with heq | heq
    · rw [hshape, heq]
    · exact absurd (hshape.trans heq) hne
  · rename_i hrefused
    unfold morphShape at hrefused
    split at hrefused
    · cases hrefused
    · rw [if_neg (by rw [h]; exact fun hstamped => Bool.false_ne_true hstamped.1)] at hrefused
      cases hrefused

theorem Steady.designateSingleReader (h : Steady r) :
    Steady r.designateSingleReader ∧ r.designateSingleReader.shape = r.shape := by
  unfold AdaptiveRing.designateSingleReader
  dsimp only
  split
  · exact ⟨h, rfl⟩
  · exact ⟨h, rfl⟩

theorem Steady.ensureSynced (h : Steady r) :
    Steady r.ensureSynced ∧ r.ensureSynced.shape = r.shape := by
  unfold AdaptiveRing.ensureSynced
  dsimp only
  split
  · exact ⟨h, rfl⟩
  obtain ⟨hsteady, hshape⟩ := h.designateSingleReader
  rw [syncTopology, hsteady.reshapeForCounts_eq]
  exact ⟨hsteady, hshape⟩

theorem morphTo_reshaped (h : r.morphTo shape = (r', res)) :
    Reshaped { r with shapeAuto := false } r' ∧
      r'.singleReader = r.singleReader ∧ (res = .ok () → r'.shape = shape) := by
  unfold morphTo at h
  dsimp only at h
  split at h
  · rename_i hmorph
    cases h
    obtain ⟨hreshaped, hreader, hshape⟩ := morphShape_reshaped hmorph
    exact ⟨hreshaped, hreader, fun _ => hshape⟩
  · cases h
    exact ⟨.refl _, rfl, nofun⟩

theorem Steady.morphTo (h : r.morphTo shape = (r', res)) : Steady r' := by
  have hauto : r'.shapeAuto = false :=
    congrArg (fun f => f.2.2.1) (morphTo_reshaped h).1.fixed_eq
  intro htrue
  rw [hauto] at htrue
  cases htrue

theorem Sound.morphTo (hr : Sound r) (h : r.morphTo shape = (r', res)) : Sound r' := by
  obtain ⟨hreshaped, hreader, -⟩ := morphTo_reshaped h
  have hstocked : Stocked { r with shapeAuto := false } :=
    ⟨hr.stocked.marked, hr.stocked.start, hr.stocked.stored⟩
  refine ⟨?_, hstocked.reshaped hreshaped, hr.led.congr ?_ hreader⟩
  · rw [hreshaped.directory_eq]
    exact hr.governed
  · rw [hreshaped.directory_eq]

theorem create_steady (maxProducers capacity : Nat) (contract : Option RingContract)
    (stamped : Bool) : Steady (create (α := α) maxProducers capacity contract stamped) :=
  nofun

theorem claimed_released_producers (h : d.claimProducerSlot = some (slot, d')) :
    (d'.releaseProducerSlot slot).activeProducers = d.activeProducers ∧
      (d'.releaseProducerSlot slot).activeConsumers = d.activeConsumers := by
  obtain ⟨_, -, heq⟩ := Option.map_eq_some_iff.mp h
  cases heq
  simp [releaseProducerSlot, bumpEpoch]

theorem claimed_released_counts (h : d.claimConsumerSlot = some (slot, d')) :
    (d'.releaseConsumerSlot slot).activeProducers = d.activeProducers ∧
      (d'.releaseConsumerSlot slot).activeConsumers = d.activeConsumers := by
  obtain ⟨_, hbit, heq⟩ := Option.map_eq_some_iff.mp h
  cases heq
  have hlt := (claimBit_spec hbit).1
  rw [zero_add] at hlt
  simp [releaseConsumerSlot, bumpEpoch, not_le.mpr hlt]

theorem designateSingleReader_stamped (r : AdaptiveRing α) :
    r.designateSingleReader.stamped = r.stamped :=
  congrArg (fun f => f.2.2.2) r.designateSingleReader_reshaped.fixed_eq

theorem Steady.peerCall (h : Steady r) (hr : r.stamped = false) (call : PeerCall) :
    Steady (r.peerCall call) := by
  cases call with
  | registerProducer canGrow =>
    show Steady (r.registerProducer canGrow).1
    unfold registerProducer
    split
    · exact h
    rename_i hclaim
    obtain ⟨hproducers, hconsumers⟩ := claimed_released_producers hclaim
    split
    · exact h.congr rfl rfl hproducers hconsumers
    split
    · exact h.congr rfl rfl hproducers hconsumers
    refine steady_reshapeForCounts ((Quiet.ensureSynced _).stamped_eq.trans ?_)
    split <;> exact hr
  | unregisterProducer p => exact steady_reshapeForCounts hr
  | registerConsumer =>
    show Steady r.registerConsumer.1
    unfold registerConsumer
    split
    · exact h
    rename_i hclaim
    obtain ⟨hproducers, hconsumers⟩ := claimed_released_counts hclaim
    split
    · exact h.congr rfl rfl hproducers hconsumers
    · refine steady_reshapeForCounts ((Quiet.ensureSynced _).stamped_eq.trans ?_)
      exact (designateSingleReader_stamped { r with directory := _ }).trans hr
  | unregisterConsumer c =>
    refine steady_reshapeForCounts ?_
    exact (designateSingleReader_stamped { r with directory := _ }).trans hr

theorem Steady.peerCalls (h : Steady r) (hr : r.stamped = false) (calls : List PeerCall) :
    Steady (calls.foldl AdaptiveRing.peerCall r) := by
  induction calls generalizing r with
  | nil => exact h
  | cons call calls ih =>
    exact ih (h.peerCall hr call) ((r.quiet_peerCalls [call]).stamped_eq.trans hr)

theorem producerAdmitted_directory (r : AdaptiveRing α) :
    r.producerAdmitted.directory = r.directory :=
  r.ensureSynced.reshapeForCounts_reshaped.1.directory_eq.trans r.ensureSynced_reshaped.1.directory_eq

theorem quiet_producerAdmitted (r : AdaptiveRing α) : Quiet r r.producerAdmitted :=
  (Quiet.ensureSynced r).trans (.reshapeForCounts _)

theorem steady_producerAdmitted (h : r.stamped = false) : Steady r.producerAdmitted :=
  steady_reshapeForCounts ((Quiet.ensureSynced r).stamped_eq.trans h)

theorem quiet_growRingsTo (r : AdaptiveRing α) (want : Nat) : Quiet r (r.growRingsTo want) :=
  ⟨fun h => h.growRingsTo want, growRingsTo_items r want, rfl⟩

/-- Carrying a peer onto a ring, with the claimed slots `slots` of its side and the
slots `others` of the other. -/
structure Carries (slots others : PeerDirectory → Nat → Bool) (id : Nat) (r r' : AdaptiveRing α) :
    Prop where
  quiet : Quiet r r'
  steady : r.stamped = false → Steady r → Steady r'
  slots_eq : ∀ o, slots r'.directory o = true ↔ slots r.directory o = true ∨ o = id
  others_eq : others r'.directory = others r.directory

theorem update_slot : update slots id true o = true ↔ slots o = true ∨ o = id := by
  rw [Function.update_apply]
  split
  · rename_i ho
    exact ⟨fun _ => .inr ho, fun _ => rfl⟩
  · rename_i ho
    exact ⟨.inl, fun h => h.resolve_right ho⟩

theorem claimProducerSlotAt_some (h : d.claimProducerSlotAt id = some d') :
    (Governed d → Governed d') ∧
      d'.producers = update d.producers id true ∧ d'.consumers = d.consumers := by
  unfold claimProducerSlotAt at h
  split at h
  · cases h
  · cases h
    exact ⟨fun hg => hg.mono hg.live (fun _ ho => ho) rfl rfl, rfl, rfl⟩

theorem claimConsumerSlotAt_some (h : d.claimConsumerSlotAt id = some d') :
    (Governed d → Governed d') ∧
      d'.consumers = update d.consumers id true ∧ d'.producers = d.producers := by
  unfold claimConsumerSlotAt at h
  split at h
  · cases h
  rename_i hfree
  cases h
  have hlt : id < consumerSlotCeiling := not_le.mp fun hge => hfree (.inl hge)
  exact ⟨fun hg => hg.turn true (fun _ => hlt) rfl rfl rfl rfl, rfl, rfl⟩

theorem Carries.held (h : slots r.directory id = true) : Carries slots others id r r := by
  refine ⟨.refl r, fun _ hr => hr, fun o => ⟨.inl, fun ho => ?_⟩, rfl⟩
  rcases ho with ho | rfl
  · exact ho
  · exact h

theorem carryProducer_spec (h : r.carryProducer canGrow id = (r', .ok b)) :
    Carries producers consumers id r r' := by
  unfold carryProducer at h
  split at h
  · cases h
  rename_i hlt
  split at h
  · rename_i hnone
    cases h
    refine .held ?_
    by_contra hfree
    simp [claimProducerSlotAt, hlt, hfree] at hnone
  rename_i d hclaim
  obtain ⟨hgoverned, hproducers, hconsumers⟩ := claimProducerSlotAt_some hclaim
  have hclaimed : Quiet r { r with directory := d } := .redirect hgoverned hconsumers
  have hadmitted : ∀ grown : AdaptiveRing α, Quiet r grown →
      grown.directory.producers = d.producers → grown.directory.consumers = d.consumers →
      Carries producers consumers id r grown.producerAdmitted := by
    intro grown hquiet hp hc
    refine ⟨hquiet.trans (quiet_producerAdmitted _),
      fun hr _ => steady_producerAdmitted (hquiet.stamped_eq.trans hr), fun o => ?_, ?_⟩
    · rw [producerAdmitted_directory, hp, hproducers]
      exact update_slot
    · rw [producerAdmitted_directory, hc, hconsumers]
  split at h
  · cases h
    exact hadmitted _ hclaimed rfl rfl
  split at h <;> cases h
  obtain ⟨hp, hc, -⟩ := growRingsTo_peers { r with directory := d } (id + 1)
  exact hadmitted _ (hclaimed.trans (quiet_growRingsTo _ _)) hp hc

theorem consumerAdmitted_slots (h : Governed r.designateSingleReader.directory) :
    r.consumerAdmitted.directory.consumers = r.directory.consumers ∧
      r.consumerAdmitted.directory.producers = r.directory.producers := by
  have hpeers := h.rebalanceOwnership.2
  rw [(designateSingleReader_reshaped _).directory_eq] at hpeers
  rw [consumerAdmitted, (reshapeForCounts_reshaped _).1.directory_eq,
    (ensureSynced_reshaped _).1.directory_eq]
  exact ⟨congrArg (fun p => p.2.2.2.1) hpeers, congrArg (fun p => p.2.2.1) hpeers⟩

theorem carryConsumer_spec (hr : Sound r) (h : r.carryConsumer id = (r', .ok b)) :
    Carries consumers producers id r r' := by
  unfold carryConsumer at h
  split at h
  · cases h
  rename_i hlt
  split at h
  · rename_i hnone
    cases h
    refine .held ?_
    by_contra hfree
    simp [claimConsumerSlotAt, hlt, hfree] at hnone
  rename_i d hclaim
  cases h
  obtain ⟨hgoverned, hconsumers, hproducers⟩ := claimConsumerSlotAt_some hclaim
  have hled : Quiet r { r with directory := d }.designateSingleReader := .designated hgoverned
  have hquiet := (hled.trans (.rebalanceOwnership _)).trans (.ensureSynced _)
  obtain ⟨hc, hp⟩ := consumerAdmitted_slots (hled.sound hr).governed
  refine ⟨hquiet.trans (.reshapeForCounts _),
    fun hr _ => steady_reshapeForCounts (hquiet.stamped_eq.trans hr), fun o => ?_, ?_⟩
  · rw [hc, hconsumers]
    exact update_slot
  · rw [hp, hproducers]

theorem carryAll_spec
    (hcarry : ∀ r id r' b, Sound r → carry r id = (r', .ok b) → Carries slots others id r r')
    (hr : Sound r) (h : carryAll carry ids r = (r', .ok ())) :
    Quiet r r' ∧ (r.stamped = false → Steady r → Steady r') ∧
      (∀ o, slots r'.directory o = true ↔ slots r.directory o = true ∨ o ∈ ids) ∧
      others r'.directory = others r.directory := by
  induction ids generalizing r with
  | nil =>
    cases h
    exact ⟨.refl _, fun _ hs => hs, fun o => by simp, rfl⟩
  | cons id ids ih =>
    rw [carryAll] at h
    split at h
    · rename_i r1 b hfirst
      have hc := hcarry _ _ _ _ hr hfirst
      obtain ⟨hquiet, hsteady, hslots, hothers⟩ := ih (hc.quiet.sound hr) h
      refine ⟨hc.quiet.trans hquiet, fun hr hs => ?_, fun o => ?_, hothers.trans hc.others_eq⟩
      · exact hsteady (hc.quiet.stamped_eq.trans hr) (hc.steady hr hs)
      · simp [hslots, hc.slots_eq, or_assoc]
    · cases h

end AdaptiveRing

namespace CapacityRing

/-- The backing a morph puts in is empty, holds `old`'s peers and has the target shape. -/
structure Succeeds (old : AdaptiveRing α) (shape : RingShape) (new : AdaptiveRing α) : Prop where
  sound : new.Sound
  items_nil : new.held.items = []
  steady : new.Steady
  shape_eq : new.shape = shape
  producers_eq : new.directory.claimedProducerSlots = old.directory.claimedProducerSlots
  consumers_eq : new.directory.claimedConsumerSlots = old.directory.claimedConsumerSlots

theorem claimed_of_carried (hempty : ∀ o, slots' o = true ↔ o ∈ (range n).filter slots) :
    (range n).filter slots' = (range n).filter slots := by
  refine filter_congr fun o ho => ?_
  rw [Bool.eq_iff_iff, hempty o, mem_filter]
  exact ⟨And.right, fun h => ⟨ho, h⟩⟩

theorem successor_spec {c : CapacityRing α} {capacity : Nat}
    (h : c.successor canGrow old capacity shape = .ok new) (hun : c.stamped = false) :
    Succeeds old shape new := by
  have hcreate := AdaptiveRing.Sound.create (α := α) c.maxProducers capacity none false
  unfold successor at h
  rw [hun] at h
  dsimp only at h
  split at h
  · cases h
  rename_i r1 _ hproducers
  obtain ⟨hq1, hsteady1, hslots1, hothers1⟩ :=
    carryAll_spec (fun _ _ _ _ _ => carryProducer_spec) hcreate hproducers
  split at h
  · cases h
  rename_i r2 _ hconsumers
  obtain ⟨hq2, hsteady2, hslots2, hothers2⟩ := carryAll_spec (fun _ _ _ _ => carryConsumer_spec)
      (hq1.sound hcreate) hconsumers
  have hquiet := hq1.trans hq2
  have hsteady : r2.Steady :=
    hsteady2 (hq1.stamped_eq.trans rfl) (hsteady1 rfl (create_steady _ _ _ _))
  have hp : r2.directory.claimedProducerSlots = old.directory.claimedProducerSlots := by
    refine claimed_of_carried fun o => ?_
    rw [hothers2, hslots1]
    exact or_iff_right nofun
  have hc : r2.directory.claimedConsumerSlots = old.directory.claimedConsumerSlots := by
    refine claimed_of_carried fun o => ?_
    rw [hslots2, hothers1]
    exact or_iff_right nofun
  have hitems := hquiet.items_eq.trans (create_items ..)
  split at h
  · rename_i hshape
    cases h
    exact ⟨hquiet.sound hcreate, hitems, hsteady, hshape, hp, hc⟩
  split at h
  · cases h
  rename_i r3 _ hmorph
  cases h
  obtain ⟨hreshaped, -, hshape⟩ := morphTo_reshaped hmorph
  refine ⟨(hquiet.sound hcreate).morphTo hmorph, ?_, .morphTo hmorph, hshape rfl, ?_, ?_⟩
  · rw [hreshaped.held_eq]
    exact hitems
  · rw [hreshaped.directory_eq]
    exact hp
  · rw [hreshaped.directory_eq]
    exact hc

end CapacityRing
end SubEtha.Ring
