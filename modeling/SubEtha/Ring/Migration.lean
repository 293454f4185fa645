import SubEtha.Ring.Locale

namespace SubEtha.Ring
open Function List Option LocaleAdaptiveRing
open Lib (run EveryStep)

variable {α : Type} {idx i c : Nat} {q : List α} {shape : RingShape} {e : RingError}
  {w : LocaleExchange α}

theorem getD_set_ne_nil {qs : List (List α)} (head : qs[idx]? = some (x :: q))
    (hne : (qs.set idx q).getD i [] ≠ []) : qs.getD i [] ≠ [] := by
  by_cases hi : i = idx
  · subst hi
    rw [getD_eq_getElem?_getD, head]
    exact cons_ne_nil x q
  · rwa [getD_set_of_ne hi] at hne

theorem Backings.Takes.grid {b b' : Backings α} (h : b.Takes x b') (hne : b'.mpmc.getD i [] ≠ []) :
    b.mpmc.getD i [] ≠ [] := by
  cases h with
  | mpmc head => exact getD_set_ne_nil head hne
  | _ => exact hne

namespace AdaptiveRing

/-- A backing of a locale ring with consumers `0, 1, .., n - 1`: nothing has left, so
consumer 0 reads the single-reader shapes, and without a consumer no shape but the first
has been used. -/
structure Berth (n : Nat) (r : AdaptiveRing α) : Prop where
  sound : Sound r
  consumers : ∀ c, r.directory.consumers c = decide (c < n)
  active : r.directory.activeConsumers = n
  reader : r.singleReader = 0
  contract : r.contract = none
  unstamped : r.stamped = false
  plain : ∀ s, r.used s = true → s ≠ .vyukov
  unused : n = 0 → ∀ s, r.used s = true → s = .spsc

variable {n : Nat} {r r' : AdaptiveRing α}

theorem berth_create (maxProducers capacity : Nat) :
    Berth 0 (create maxProducers capacity none false : AdaptiveRing α) where
  sound := .create maxProducers capacity none false
  consumers _ := rfl
  active := rfl
  reader := rfl
  contract := rfl
  unstamped := rfl
  plain s hs := by
    rintro rfl
    cases hs
  unused _ s hs := by
    simpa [create] using hs

section
variable (h : Berth n r)
include h

theorem Berth.shape_plain : r.shape ≠ .vyukov := h.plain _ h.sound.stocked.marked

theorem Berth.of_frame (hsound : Sound r') (hframe : r'.frame = r.frame)
    (hconsumers : r'.directory.consumers = r.directory.consumers)
    (hactive : r'.directory.activeConsumers = r.directory.activeConsumers) : Berth n r' := by
  simp only [frame, Prod.mk.injEq] at hframe
  obtain ⟨⟨-, hused, hreader⟩, -, -, hcontract, hstamped⟩ := hframe
  refine ⟨hsound, fun c => (congrFun hconsumers c).trans (h.consumers c), hactive.trans h.active,
    hreader.trans h.reader, hcontract.trans h.contract, hstamped.trans h.unstamped, ?_, ?_⟩
  · rw [hused]
    exact h.plain
  · rw [hused]
    exact h.unused

theorem Berth.redirect (hd : Governed d) (hconsumers : d.consumers = r.directory.consumers)
    (hactive : d.activeConsumers = r.directory.activeConsumers) :
    Berth n { r with directory := d } :=
  h.of_frame (h.sound.redirect hd hconsumers) rfl hconsumers hactive

theorem Berth.reader_claimed (hn : n ≠ 0) : r.directory.consumers 0 = true := by
  rw [h.consumers]
  exact decide_eq_true (Nat.pos_of_ne_zero hn)

theorem Berth.designate_eq : r.designateSingleReader = r := by
  by_cases hn : n = 0
  · have hnil : r.directory.claimedConsumerSlots = [] := by
      refine filter_eq_nil_iff.mpr fun c _ => ?_
      rw [h.consumers, hn]
      simp
    unfold designateSingleReader
    rw [hnil]
    exact congrArg (fun reader => { r with singleReader := reader }) h.reader.symm
  · refine designateSingleReader_keeps (mem_claimed h.sound.governed ?_)
    rw [h.reader]
    exact h.reader_claimed hn

end

theorem targetShape_plain (h : targetShape producers consumers = some shape) :
    shape ≠ .vyukov ∧ consumers ≠ 0 := by
  unfold targetShape at h
  split at h
  · cases h
  rename_i hsome
  refine ⟨?_, fun hzero => hsome (.inr hzero)⟩
  split at h
  · split at h
    · cases h
      decide
    · cases h
      decide
  · cases h
    decide

theorem Berth.reshape (h : Berth n r) : Berth n r.reshapeForCounts.1 ∧ r.reshapeForCounts.2 = true ∧
      r.reshapeForCounts.1.syncedEpoch = r.syncedEpoch := by
  have hsound := h.sound.reshapeForCounts
  revert hsound
  unfold reshapeForCounts
  split
  · exact fun _ => ⟨h, rfl, rfl⟩
  split
  · exact fun _ => ⟨h, rfl, rfl⟩
  rename_i target htarget
  obtain ⟨hplain, hactive⟩ := targetShape_plain htarget
  rw [h.active] at hactive
  split
  · exact fun _ => ⟨h, rfl, rfl⟩
  rename_i hother
  have hfilter : r.contractFilteredShape target = target := by
    rw [contractFilteredShape, h.contract, all_none, if_pos rfl]
  have hmorph : r.morphShape target = some { r with
      used := update (update r.used r.shape true) target true
      shape := target } := by
    refine (if_neg (Ne.symm hother)).trans (if_neg fun hboth => ?_)
    have hstamped := hboth.1
    rw [h.unstamped] at hstamped
    cases hstamped
  rw [hfilter, hmorph]
  refine fun hsound => ⟨{ h with
    sound := hsound, plain := fun s hs => ?_
    unused := fun hn => absurd hn hactive }, rfl, rfl⟩
  simp only [update_apply] at hs
  split at hs
  · rename_i heq
    exact heq ▸ hplain
  split at hs
  · rename_i heq
    exact heq ▸ h.shape_plain
  · exact h.plain s hs

theorem Berth.ensureSynced (h : Berth n r) :
    Berth n r.ensureSynced ∧ r.ensureSynced.syncedEpoch = some r.directory.epoch := by
  unfold AdaptiveRing.ensureSynced
  dsimp only
  split
  · exact ⟨h, ‹_›⟩
  obtain ⟨hshaped, hok, -⟩ := h.reshape
  rw [syncTopology, h.designate_eq]
  dsimp only
  rw [if_pos hok]
  exact ⟨hshaped.of_frame ⟨hshaped.sound.governed, ⟨hshaped.sound.stocked.marked,
    hshaped.sound.stocked.start, hshaped.sound.stocked.stored⟩, hshaped.sound.led⟩ rfl rfl rfl, rfl⟩

theorem ensureSynced_eq (h : r.syncedEpoch = some r.directory.epoch) : r.ensureSynced = r :=
  if_pos h

/-- A call that neither sends nor receives, over which `n` consumers become `n'`. -/
structure Keeps (n n' : Nat) (r r' : AdaptiveRing α) : Prop where
  berth : Berth n r → Berth n' r'
  items_eq : r'.held.items = r.held.items

namespace Keeps

theorem refl (n : Nat) (r : AdaptiveRing α) : Keeps n n r r := ⟨fun h => h, rfl⟩

theorem trans (h : Keeps n n' r r') (h' : Keeps n' m r' r'') : Keeps n m r r'' :=
  ⟨fun hr => h'.berth (h.berth hr), h'.items_eq.trans h.items_eq⟩

theorem redirect (hd : Governed r.directory → Governed d)
    (hconsumers : d.consumers = r.directory.consumers)
    (hactive : d.activeConsumers = r.directory.activeConsumers) :
    Keeps n n r { r with directory := d } :=
  ⟨fun h => h.redirect (hd h.sound.governed) hconsumers hactive, rfl⟩

section
variable (n : Nat) (r : AdaptiveRing α)

theorem ensureSynced : Keeps n n r r.ensureSynced :=
  ⟨fun h => h.ensureSynced.1, (Quiet.ensureSynced r).items_eq⟩

theorem reshapeForCounts : Keeps n n r r.reshapeForCounts.1 :=
  ⟨fun h => h.reshape.1, (Quiet.reshapeForCounts r).items_eq⟩

theorem producerAdmitted : Keeps n n r r.producerAdmitted :=
  (ensureSynced n r).trans (reshapeForCounts n _)

theorem growRingsTo (want : Nat) : Keeps n n r (r.growRingsTo want) := by
  refine ⟨fun h => ?_, growRingsTo_items r want⟩
  obtain ⟨-, hconsumers, hactive⟩ := growRingsTo_peers r want
  exact h.of_frame (h.sound.growRingsTo want) rfl hconsumers hactive

theorem unregisterProducer (producerId : Nat) : Keeps n n r (r.unregisterProducer producerId) :=
  (redirect (fun h => h.releaseProducerSlot producerId)
    (releaseProducerSlot_consumers _ producerId).1
    (releaseProducerSlot_consumers _ producerId).2).trans (reshapeForCounts n _)

theorem registerProducer (canGrow : Bool) : Keeps n n r (r.registerProducer canGrow).1 := by
  unfold AdaptiveRing.registerProducer
  split
  · exact refl n r
  rename_i slot d hclaim
  have hsame := claimProducerSlot_consumers hclaim
  have hback := releaseProducerSlot_consumers d slot
  have hrefused : Keeps n n r { r with directory := d.releaseProducerSlot slot } :=
    redirect (fun h => (h.claimProducerSlot hclaim).releaseProducerSlot slot)
      (hback.1.trans hsame.1) (hback.2.trans hsame.2)
  have hadmitted : Keeps n n r { r with directory := d } :=
    redirect (fun h => h.claimProducerSlot hclaim) hsame.1 hsame.2
  split
  · exact hrefused
  split
  · exact hrefused
  split
  · exact (hadmitted.trans (growRingsTo n _ (slot + 1))).trans (producerAdmitted n _)
  · exact hadmitted.trans (producerAdmitted n _)

theorem carryProducer (canGrow : Bool) (producerId : Nat) :
    Keeps n n r (r.carryProducer canGrow producerId).1 := by
  unfold AdaptiveRing.carryProducer
  split
  · exact refl n r
  cases hclaim : r.directory.claimProducerSlotAt producerId with
  | none => exact refl n r
  | some d =>
    have hadmitted : Keeps n n r { r with directory := d } := by
      unfold PeerDirectory.claimProducerSlotAt at hclaim
      split at hclaim
      · cases hclaim
      · cases hclaim
        exact redirect (fun h => h.mono h.live (fun _ ho => ho) rfl rfl) rfl rfl
    dsimp only
    split
    · exact hadmitted.trans (producerAdmitted n _)
    split
    · exact (hadmitted.trans (growRingsTo n _ _)).trans (producerAdmitted n _)
    · exact hadmitted.trans (producerAdmitted n _)

end

theorem consumerAdmitted (hd : Governed r.directory → Governed d)
    (hconsumers : d.consumers = update r.directory.consumers n true)
    (hactive : d.activeConsumers = r.directory.activeConsumers + 1) :
    Keeps n (n + 1) r { r with directory := d }.consumerAdmitted := by
  have hclaimed : Keeps n (n + 1) r { r with directory := d } := by
    refine ⟨fun h => ?_, rfl⟩
    have hslots : ∀ c, d.consumers c = decide (c < n + 1) := by
      intro c
      rw [hconsumers, update_apply, h.consumers]
      split
      · subst c
        exact (decide_eq_true (Nat.lt_succ_self n)).symm
      · exact decide_eq_decide.mpr (by omega)
    refine ⟨⟨hd h.sound.governed, ⟨h.sound.stocked.marked, h.sound.stocked.start,
      h.sound.stocked.stored⟩, fun c _ => ?_⟩, hslots, hactive.trans (congrArg (· + 1) h.active),
      h.reader, h.contract, h.unstamped, h.plain, (fun hn => absurd hn (Nat.succ_ne_zero n))⟩
    rw [h.reader, hslots]
    exact decide_eq_true (Nat.succ_pos n)
  have hbalanced : Keeps (n + 1) (n + 1) { r with directory := d }
      { r with directory := d }.designateSingleReader.rebalanceOwnership := by
    refine ⟨fun h => ?_, ?_⟩
    · rw [h.designate_eq]
      obtain ⟨hgoverned, hpeers⟩ := h.sound.governed.rebalanceOwnership
      exact h.redirect hgoverned (congrArg (fun p => p.2.2.2.1) hpeers)
        (congrArg (fun p => p.2.1.2) hpeers)
    · exact congrArg Backings.items (designateSingleReader_reshaped _).held_eq
  exact ((hclaimed.trans hbalanced).trans (ensureSynced (n + 1) _)).trans
    (reshapeForCounts (n + 1) _)

end Keeps

theorem claimBit_lowest (h : PeerDirectory.claimBit bits fuel i = some slot) (hi : i ≤ j)
    (hj : j < slot) : bits j = true := by
  induction fuel generalizing i with
  | zero => cases h
  | succ fuel ih =>
    rw [PeerDirectory.claimBit] at h
    split at h
    · rename_i hset
      rcases eq_or_lt_of_le hi with rfl | hlt
      · exact hset
      · exact ih h hlt
    · cases h
      omega

section
variable (h : Berth n r)
include h

theorem Berth.registerConsumer : r.registerConsumer.2 = .ok n ∧ n < consumerSlotCeiling ∧
        Keeps n (n + 1) r r.registerConsumer.1 ∨
      (∃ e, r.registerConsumer.2 = .error e) ∧ r.registerConsumer.1 = r := by
  unfold AdaptiveRing.registerConsumer
  cases hclaim : r.directory.claimConsumerSlot with
  | none => exact .inr ⟨⟨_, rfl⟩, rfl⟩
  | some out =>
    obtain ⟨slot', hbit, heq⟩ := map_eq_some_iff.mp hclaim
    obtain ⟨hlt, hclear⟩ := claimBit_spec hbit
    have hslot : slot' = n := by
      rw [h.consumers] at hclear
      have hge : n ≤ slot' := le_of_not_gt (of_decide_eq_false hclear)
      rcases eq_or_lt_of_le hge with heq' | hgt
      · exact heq'.symm
      have hset := claimBit_lowest hbit (Nat.zero_le n) hgt
      rw [h.consumers] at hset
      exact absurd (of_decide_eq_true hset) (lt_irrefl n)
    rw [zero_add] at hlt
    cases heq
    subst hslot
    refine .inl ?_
    dsimp only
    rw [if_neg (fun hany => by rw [h.contract] at hany; cases hany)]
    exact ⟨rfl, hlt, Keeps.consumerAdmitted (fun hg => hg.claimConsumerSlot hclaim) rfl rfl⟩

theorem Berth.carryConsumer (hn : n < consumerSlotCeiling) :
    r.carryConsumer n = ((r.carryConsumer n).1, .ok true) ∧
      Keeps n (n + 1) r (r.carryConsumer n).1 := by
  have hfree : r.directory.consumers n = false := by
    rw [h.consumers]
    exact decide_eq_false (lt_irrefl n)
  have hclaim : ¬(consumerSlotCeiling ≤ n ∨ r.directory.consumers n = true) := by
    rw [hfree]
    rintro (hle | hset)
    · omega
    · cases hset
  unfold AdaptiveRing.carryConsumer PeerDirectory.claimConsumerSlotAt
  rw [if_neg (not_le.mpr hn), if_neg hclaim]
  exact ⟨rfl, Keeps.consumerAdmitted (fun hg => hg.turn true (fun _ => hn) rfl rfl rfl rfl) rfl rfl⟩

theorem Berth.pops (hc : r.directory.consumers c = true) (hpops : PopsAs c r res r') : Berth n r' :=
  h.of_frame (h.sound.pops hc hpops) hpops.frame_eq hpops.consumers_eq
    (congrArg (fun p => p.2.1.2) hpops.peers_eq)

theorem Berth.tryRecv (hc : r.directory.consumers c = true)
    (hrecv : r.tryRecv c outLen = (r', res)) : Berth n r' := by
  obtain ⟨hpops, -⟩ := tryRecv_spec h.sound.governed hc hrecv
  exact h.ensureSynced.1.pops (by rwa [r.ensureSynced_reshaped.1.directory_eq]) hpops

theorem Berth.setBacking (producerId : Nat) (q : List α) :
    Berth n (r.setBacking r.shape producerId q) := by
  obtain ⟨hframe, hdirectory⟩ := r.setBacking_frame r.shape producerId q
  exact h.of_frame (h.sound.setBacking producerId q) hframe (by rw [hdirectory]) (by rw [hdirectory])

theorem Berth.trySend (hsend : r.trySend producerId len x = (r', res)) : Berth n r' := by
  have hsynced := h.ensureSynced.1
  unfold AdaptiveRing.trySend at hsend
  dsimp only at hsend
  split at hsend
  · cases hsend
    exact hsynced
  split at hsend
  · cases hsend
    exact hsynced
  · cases hsend
    exact hsynced.setBacking producerId _

end

/-- Consumer 0 may drain every ring of the grid that holds items. -/
def Drainable (r : AdaptiveRing α) : Prop :=
  ∀ idx, idx < r.mpmc.length → r.mpmc.getD idx [] ≠ [] →
    r.directory.owner idx = none ∨ r.directory.owner idx = some 0 ∧ r.directory.pending idx = none

instance (r : AdaptiveRing α) : Decidable r.Drainable :=
  inferInstanceAs (Decidable (∀ idx, idx < r.mpmc.length → _))

theorem Berth.drainable_alone (h : Berth 0 r) : Drainable r := by
  intro idx hlt hne
  have hmem : r.mpmc.getD idx [] ∈ r.held.queues .mpmc := by
    rw [getD_eq_getElem _ _ hlt]
    exact getElem_mem hlt
  cases h.unused rfl _ (h.sound.stocked.stored .mpmc _ hmem hne)

theorem Berth.items_alone (h : Berth 0 r) (hspsc : r.spsc = []) : r.held.items = [] := by
  refine Backings.items_eq_nil fun s q hq => ?_
  by_contra hne
  have hs := h.unused rfl s (h.sound.stocked.stored s q hq hne)
  subst hs
  exact hne ((mem_singleton.mp hq).trans hspsc)

theorem Berth.tryRecv_alone (h : Berth 0 r) :
    r.ensureSynced.shape = .spsc ∧ r.tryRecv 0 spscPayload = match r.spsc with
      | [] => (r.ensureSynced, .error .empty)
      | x :: q => (r.ensureSynced.setBacking .spsc 0 q, .ok x) := by
  obtain ⟨hsynced, -⟩ := h.ensureSynced
  have hspsc : r.ensureSynced.spsc = r.spsc :=
    congrArg Backings.spsc r.ensureSynced_reshaped.1.held_eq
  have hshape : r.ensureSynced.shape = .spsc := hsynced.unused rfl _ hsynced.sound.stocked.marked
  have hothers : r.ensureSynced.otherUsedShapes .spsc = [] := by
    refine filter_eq_nil_iff.mpr fun s _ => ?_
    rw [Bool.and_eq_true, bne_iff_ne]
    rintro ⟨hne, hused⟩
    exact hne (hsynced.unused rfl s hused)
  have hreads : r.ensureSynced.mayWalkStale .spsc 0 = true := by
    rw [mayWalkStale, hsynced.reader]
    rfl
  refine ⟨hshape, ?_⟩
  unfold AdaptiveRing.tryRecv
  dsimp only
  rw [hshape, hothers, walk, shapePop, hreads]
  simp only [Bool.not_true, Bool.false_eq_true, if_false]
  rw [tryPop_of_le le_rfl, hspsc]
  cases r.spsc with
  | nil | cons => rfl

/-- A drained pop takes one item and leaves the rest within reach. -/
theorem Berth.drain_ok (h : Berth n r) (hrecv : r.tryRecv 0 spscPayload = (r', .ok x)) :
    Berth n r' ∧ r.held.items.Perm (x :: r'.held.items) ∧ (Drainable r → Drainable r') := by
  by_cases hn : n = 0
  · subst hn
    obtain ⟨hshape, hdrain⟩ := h.tryRecv_alone
    rw [hdrain] at hrecv
    cases hspsc : r.spsc with
    | nil =>
      rw [hspsc] at hrecv
      cases hrecv
    | cons y q =>
      rw [hspsc] at hrecv
      cases hrecv
      have hberth : Berth 0 (r.ensureSynced.setBacking .spsc 0 q) :=
        hshape ▸ h.ensureSynced.1.setBacking 0 q
      refine ⟨hberth, ?_, fun _ => hberth.drainable_alone⟩
      have htakes : r.held.Takes x { r.held with spsc := q } := .spsc hspsc
      have hheld : (r.ensureSynced.setBacking .spsc 0 q).held = { r.held with spsc := q } :=
        congrArg (fun b : Backings α => { b with spsc := q }) r.ensureSynced_reshaped.1.held_eq
      rw [hheld]
      exact htakes.perm
  · have hc := h.reader_claimed hn
    obtain ⟨-, hperm⟩ := tryRecv_items h.sound hc hrecv
    obtain ⟨hpops, -⟩ := tryRecv_spec h.sound.governed hc hrecv
    have hsync := r.ensureSynced_reshaped.1
    refine ⟨h.tryRecv hc hrecv, hperm, fun hdrain idx _ hne => ?_⟩
    have htakes : r.held.Takes x r'.held := hsync.held_eq ▸ hpops.held
    have hne0 : r.mpmc.getD idx [] ≠ [] := htakes.grid hne
    have hlt : idx < r.mpmc.length := by
      by_contra hge
      exact hne0 (getD_eq_default _ _ (not_lt.mp hge))
    have hreach := hdrain idx hlt hne0
    have howner := hpops.owner idx
    have hpending := hpops.pending idx
    rw [hsync.directory_eq] at howner hpending
    have hquiet : r.directory.pending idx = none := by
      rcases hreach with hnone | ⟨-, hnone⟩
      · cases hp : r.directory.pending idx with
        | none => rfl
        | some t => exact absurd hnone (h.sound.governed.pending idx t hp).2
      · exact hnone
    have hquiet' : r'.directory.pending idx = none := by
      cases hp : r'.directory.pending idx with
      | none => rfl
      | some t =>
        have hold := (hpending t hp).1
        rw [hquiet] at hold
        cases hold
    cases ho : r'.directory.owner idx with
    | none => exact .inl rfl
    | some o =>
      refine .inr ⟨?_, hquiet'⟩
      rcases howner o ho with hold | hold | rfl
      · rcases hreach with hnone | ⟨hzero, -⟩
        · rw [hnone] at hold
          cases hold
        · rw [hzero] at hold
          rw [hold]
      · rw [hquiet] at hold
        cases hold
      · rfl

/-- A drain that stops has found everything within its reach. -/
theorem Berth.drain_error (h : Berth n r) (hrecv : r.tryRecv 0 spscPayload = (r', .error e)) :
    e = .empty ∧ Berth n r' ∧ r'.held.items = r.held.items ∧ (Drainable r → r.held.items = []) := by
  by_cases hn : n = 0
  · subst hn
    obtain ⟨-, hdrain⟩ := h.tryRecv_alone
    rw [hdrain] at hrecv
    cases hspsc : r.spsc with
    | cons y q =>
      rw [hspsc] at hrecv
      cases hrecv
    | nil =>
      rw [hspsc] at hrecv
      cases hrecv
      exact ⟨rfl, h.ensureSynced.1, (Quiet.ensureSynced r).items_eq, fun _ => h.items_alone hspsc⟩
  have hc := h.reader_claimed hn
  obtain rfl := ((tryRecv_spec h.sound.governed hc hrecv).2.2 _ rfl).resolve_right (lt_irrefl _)
  have hidle := idle_of_empty h.sound hc hrecv
  refine ⟨rfl, h.tryRecv hc hrecv, congrArg Backings.items hidle.held_eq, fun hdrain => ?_⟩
  obtain ⟨hspsc, hmpsc⟩ := hidle.single h.reader
  refine Backings.items_eq_nil fun s q hq => ?_
  cases s with
  | spsc => exact (mem_singleton.mp hq).trans hspsc
  | mpsc => exact hmpsc q hq
  | vyukov => exact (mem_singleton.mp hq).trans hidle.vyukov
  | mpmc =>
    obtain ⟨idx, hlt, hidx⟩ : ∃ idx, ∃ hlt : idx < r.mpmc.length, r.mpmc[idx] = q :=
      getElem_of_mem hq
    by_contra hne
    have hgrid : r.mpmc.getD idx [] ≠ [] := by
      rw [getD_eq_getElem _ _ hlt]
      rwa [← hidx] at hne
    obtain ⟨o, howner, -, ⟨hother, -⟩ | ⟨-, hpending, -⟩⟩ := hidle.passed idx hgrid
    · rcases hdrain idx hlt hgrid with hnone | ⟨hzero, -⟩
      · rw [hnone] at howner
        cases howner
      · rw [hzero] at howner
        exact hother (some.inj howner).symm
    · rcases hdrain idx hlt hgrid with hnone | ⟨-, hquiet⟩
      · rw [hnone] at howner
        cases howner
      · exact hpending hquiet

/-- The queue that producer 0 sends into has room for `k` items. -/
def Room (r : AdaptiveRing α) (k : Nat) : Prop :=
  (r.ensureSynced.backing r.ensureSynced.shape 0).any (fun q => k + q.length ≤ r.capacity) = true
deriving Decidable

theorem backing_setBacking (hq : r.backing shape p = some q) (q' : List α) :
    (r.setBacking shape p q').backing shape p = some q' := by
  cases shape with
  | spsc | vyukov => rfl
  | mpsc | mpmc => exact getElem?_set_self (lt_of_some hq)

theorem setBacking_synced (r : AdaptiveRing α) (shape : RingShape) (p : Nat) (q : List α) :
    (r.setBacking shape p q).syncedEpoch = r.syncedEpoch := by
  cases shape with
  | _ => rfl

/-- A send as producer 0 finds the room there is, and uses up one place of it. -/
theorem Berth.send_room (h : Berth n r) (hroom : r.Room (k + 1)) (x : α) :
    ∃ r', r.trySend 0 spscPayload x = (r', .ok ()) ∧ Berth n r' ∧
      r'.held.items.Perm (x :: r.held.items) ∧ r'.Room k := by
  obtain ⟨hsynced, hepoch⟩ := h.ensureSynced
  have hsync := r.ensureSynced_reshaped.1
  have hcapacity : r.ensureSynced.capacity = r.capacity := congrArg (fun f => f.2.1) hsync.fixed_eq
  obtain ⟨q, hq, hfits⟩ := (any_eq_true _ _).mp hroom
  have hfits := of_decide_eq_true hfits
  have hslot : ¬slotBytes r.ensureSynced.shape < spscPayload := by
    have hplain := hsynced.shape_plain
    cases hshape : r.ensureSynced.shape with
    | vyukov => exact absurd hshape hplain
    | _ => exact lt_irrefl _
  have hsend : r.trySend 0 spscPayload x =
      (r.ensureSynced.setBacking r.ensureSynced.shape 0 (q ++ [x]), .ok ()) := by
    unfold AdaptiveRing.trySend
    dsimp only
    rw [hq]
    dsimp only
    rw [tryPush, if_neg hslot, hcapacity, if_neg (by omega)]
  refine ⟨_, hsend, hsynced.setBacking 0 _, ?_, ?_⟩
  · rw [← (Quiet.ensureSynced r).items_eq]
    exact setBacking_items hq x
  obtain ⟨hframe, hdirectory⟩ := r.ensureSynced.setBacking_frame r.ensureSynced.shape 0 (q ++ [x])
  simp only [frame, Prod.mk.injEq] at hframe
  obtain ⟨⟨hshape, -, -⟩, hcap, -⟩ := hframe
  have hstill : (r.ensureSynced.setBacking r.ensureSynced.shape 0 (q ++ [x])).ensureSynced =
      r.ensureSynced.setBacking r.ensureSynced.shape 0 (q ++ [x]) := by
    refine ensureSynced_eq ?_
    rw [setBacking_synced, hepoch, hdirectory, hsync.directory_eq]
  rw [Room, hstill, hshape, backing_setBacking hq, hcap, hcapacity, any_some]
  refine decide_eq_true ?_
  rw [length_append, length_singleton]
  omega

end AdaptiveRing

variable {target : Locale}

namespace LocaleAdaptiveRing
open AdaptiveRing (Berth Drainable Room Keeps)

/-- The transfer within reach and with room enough moves every item. -/
theorem transferItems_moves (hold : Berth n old) (hnew : Berth n new) (hdrain : Drainable old)
    (hfuel : old.held.items.length < fuel)
    (hroom : old.held.items = [] ∨ Room new old.held.items.length) :
    ∃ old' new', transferItems fuel old new = some (old', new', .ok ()) ∧ Berth n old' ∧
      Berth n new' ∧ old'.held.items = [] ∧
      new'.held.items.Perm (old.held.items ++ new.held.items) := by
  induction fuel generalizing old new with
  | zero => omega
  | succ fuel ih =>
    rw [transferItems]
    cases hrecv : old.tryRecv 0 spscPayload with
    | mk old1 res =>
      cases res with
      | error e =>
        obtain ⟨rfl, hberth, hsame, hempty⟩ := hold.drain_error hrecv
        have hnil := hempty hdrain
        refine ⟨old1, new, rfl, hberth, hnew, hsame.trans hnil, ?_⟩
        rw [hnil]
        exact .refl _
      | ok x =>
        obtain ⟨hberth, hperm, hreach⟩ := hold.drain_ok hrecv
        have hlen := hperm.length_eq
        rw [length_cons] at hlen
        have hroom : Room new (old1.held.items.length + 1) := by
          rcases hroom with hnil | hroom
          · rw [hnil] at hlen
            cases hlen
          · rwa [hlen] at hroom
        obtain ⟨new1, hsend, hnew1, hsent, hroom1⟩ := hnew.send_room hroom x
        obtain ⟨old', new', hrest, hold', hnew', hnil, hmoved⟩ :=
          ih hberth hnew1 (hreach hdrain) (by omega) (.inr hroom1)
        dsimp only
        rw [hsend]
        refine ⟨old', new', hrest, hold', hnew', hnil, hmoved.trans ?_⟩
        refine (hsent.append_left _).trans (perm_middle.trans ?_)
        exact (hperm.append_right _).symm

theorem setRing_rings (s : LocaleAdaptiveRing α) (l l' : Locale) (r : AdaptiveRing α) :
    (s.setRing l r).rings l' = if l' = l then r else s.rings l' :=
  update_apply ..

theorem registerProducer_keeps (n : Nat) (s : LocaleAdaptiveRing α) (canGrow : Locale → Bool) :
    (s.registerProducer canGrow).1.locale = s.locale ∧
      ∀ l, Keeps n n (s.rings l) ((s.registerProducer canGrow).1.rings l) := by
  have hfile := Keeps.registerProducer n (s.rings .file) (canGrow .file)
  unfold registerProducer
  generalize (s.rings .file).registerProducer (canGrow .file) = out at hfile
  obtain ⟨file, res⟩ := out
  cases res with
  | error e =>
    refine ⟨rfl, fun l => ?_⟩
    rw [setRing_rings]
    split
    · subst l
      exact hfile
    · exact .refl n _
  | ok id =>
    have hshm := Keeps.carryProducer n (s.rings .shmFs) (canGrow .shmFs) id
    have hgone := hfile.trans (Keeps.unregisterProducer n file id)
    dsimp only
    generalize (s.rings .shmFs).carryProducer (canGrow .shmFs) id = out at hshm
    obtain ⟨shmFs, res⟩ := out
    have hshmGone := hshm.trans (Keeps.unregisterProducer n shmFs id)
    cases res with
    | error e =>
      refine ⟨rfl, fun l => ?_⟩
      cases l with
      | anon => exact .refl n _
      | file => exact hgone
      | shmFs =>
        dsimp only
        split
        · exact hshmGone
        · exact hshm
    | ok claimed =>
      have hanon := Keeps.carryProducer n (s.rings .anon) (canGrow .anon) id
      have hshmBack : Keeps n n (s.rings .shmFs)
          (if claimed = true then shmFs.unregisterProducer id else shmFs) := by
        split
        · exact hshmGone
        · exact hshm
      generalize (s.rings .anon).carryProducer (canGrow .anon) id = out at hanon
      obtain ⟨anon, res⟩ := out
      cases res with
      | error e =>
        refine ⟨rfl, fun l => ?_⟩
        cases l with
        | anon =>
          dsimp only
          split
          · exact hanon.trans (Keeps.unregisterProducer n anon id)
          · exact hanon
        | file => exact hgone
        | shmFs => exact hshmBack
      | ok _ =>
        refine ⟨rfl, fun l => ?_⟩
        cases l with
        | anon => exact hanon
        | file => exact hfile
        | shmFs => exact hshm

variable {s : LocaleAdaptiveRing α}

theorem registerConsumer_keeps (h : ∀ l, Berth n (s.rings l)) :
    s.registerConsumer.1.locale = s.locale ∧
      ∃ n', ∀ l, Keeps n n' (s.rings l) (s.registerConsumer.1.rings l) := by
  have hfile := (h .file).registerConsumer
  unfold registerConsumer
  generalize (s.rings .file).registerConsumer = out at hfile
  obtain ⟨file, res⟩ := out
  rcases hfile with ⟨rfl, hn, hfile⟩ | ⟨⟨e, rfl⟩, rfl⟩
  · obtain ⟨hshm, hshmKeeps⟩ := (h .shmFs).carryConsumer hn
    obtain ⟨hanon, hanonKeeps⟩ := (h .anon).carryConsumer hn
    dsimp only
    rw [hshm]
    rw [hanon]
    refine ⟨rfl, n + 1, fun l => ?_⟩
    cases l with
    | anon => exact hanonKeeps
    | file => exact hfile
    | shmFs => exact hshmKeeps
  · refine ⟨rfl, n, fun l => ?_⟩
    rw [setRing_rings]
    split
    · subst l
      exact .refl n _
    · exact .refl n _

/-- A migration within the transfer's reach, with room for what it moves. -/
def Movable (s : LocaleAdaptiveRing α) (target : Locale) : Prop :=
  s.locale = target ∨ Drainable (s.rings s.locale) ∧
    ((s.rings s.locale).held.items = [] ∨
      Room (s.rings target) (s.rings s.locale).held.items.length)
deriving Decidable

/-- Such a migration succeeds, and every item is in the target's backing. -/
theorem migrateTo_moves (h : ∀ l, Berth n (s.rings l))
    (helsewhere : ∀ l, l ≠ s.locale → (s.rings l).held.items = []) (hmove : s.Movable target) :
    ∃ s', s.migrateTo target = some (s', .ok ()) ∧ s'.locale = target ∧
      (∀ l, Berth n (s'.rings l)) ∧ (∀ l, l ≠ target → (s'.rings l).held.items = []) ∧
      (s'.rings target).held.items.Perm (s.rings s.locale).held.items := by
  unfold migrateTo
  rcases hmove with rfl | ⟨hdrain, hroom⟩
  · exact ⟨s, if_pos rfl, rfl, h, helsewhere, .refl _⟩
  by_cases hsame : s.locale = target
  · subst hsame
    exact ⟨s, if_pos rfl, rfl, h, helsewhere, .refl _⟩
  obtain ⟨old, new, hmoved, hold, hnew, hnil, hperm⟩ :=
    transferItems_moves (h s.locale) (h target) hdrain (Nat.lt_succ_self _) hroom
  rw [if_neg hsame]
  dsimp only
  rw [hmoved]
  refine ⟨_, rfl, rfl, fun l => ?_, fun l hl => ?_, ?_⟩
  · rw [setRing_rings, setRing_rings]
    split
    · exact hnew
    split
    · exact hold
    · exact h l
  · rw [setRing_rings, setRing_rings, if_neg hl]
    split
    · exact hnil
    · exact helsewhere l ‹_›
  · rw [setRing_rings, if_pos rfl]
    rwa [helsewhere target (Ne.symm hsame), append_nil] at hperm

end LocaleAdaptiveRing

namespace LocaleExchange
open AdaptiveRing (Berth Keeps)

/-- Every migration of a run is within reach and finds room. -/
def Movable (w : LocaleExchange α) : LocaleEvent α → Prop
  | .migrateTo target => w.ring.Movable target
  | _ => True

instance (w : LocaleExchange α) : DecidablePred w.Movable := fun e => by
  cases e <;> unfold Movable <;> infer_instance

structure Accounted (w : LocaleExchange α) : Prop where
  berths : ∃ n, ∀ l, Berth n (w.ring.rings l)
  elsewhere : ∀ l, l ≠ w.ring.locale → (w.ring.rings l).held.items = []
  items : (w.received ++ (w.ring.rings w.ring.locale).held.items).Perm w.accepted

theorem accounted_start (maxProducers capacity : Nat) :
    Accounted (start maxProducers capacity : LocaleExchange α) where
  berths := ⟨0, fun _ => AdaptiveRing.berth_create maxProducers capacity⟩
  elsewhere _ _ := AdaptiveRing.create_items ..
  items := by
    rw [start, create, AdaptiveRing.create_items]
    exact .refl _

section
variable (h : Accounted w)
include h

theorem Accounted.quiet {ring : LocaleAdaptiveRing α} (hberths : ∀ l, Berth n (w.ring.rings l))
    (hlocale : ring.locale = w.ring.locale)
    (hkeeps : ∀ l, Keeps n n' (w.ring.rings l) (ring.rings l)) :
    Accounted { w with ring := ring } := by
  refine ⟨⟨n', fun l => (hkeeps l).berth (hberths l)⟩, fun l hl => ?_, ?_⟩
  · rw [(hkeeps l).items_eq]
    exact h.elsewhere l (hlocale ▸ hl)
  · rw [(hkeeps _).items_eq, hlocale]
    exact h.items

theorem Accounted.active {accepted received : List α}
    (hberth : ∀ n, Berth n (w.ring.rings w.ring.locale) → Berth n r)
    (hitems : (received ++ r.held.items).Perm accepted) :
    Accounted ⟨w.ring.setRing w.ring.locale r, accepted, received⟩ := by
  obtain ⟨n, hberths⟩ := h.berths
  refine ⟨⟨n, fun l => ?_⟩, fun l hl => ?_, ?_⟩
  · rw [setRing_rings]
    split
    · exact hberth n (hberths _)
    · exact hberths l
  · have hl : l ≠ w.ring.locale := hl
    rw [setRing_rings, if_neg hl]
    exact h.elsewhere l hl
  · dsimp only [setRing]
    rw [update_self]
    exact hitems

theorem Accounted.sent (p len : Nat) (x : α) : Accounted (w.sent x (w.ring.trySend p len x)) := by
  unfold trySend
  cases hout : (w.ring.rings w.ring.locale).trySend p len x with
  | mk r res =>
    obtain ⟨-, hitems⟩ := AdaptiveRing.trySend_spec hout
    have hberth : ∀ n, Berth n (w.ring.rings w.ring.locale) → Berth n r := fun n hn =>
      hn.trySend hout
    cases res with
    | error e => exact h.active hberth (hitems ▸ h.items)
    | ok u =>
      refine h.active hberth ((hitems.append_left w.received).trans ?_)
      exact perm_middle.trans ((h.items.cons x).trans (perm_append_singleton x _).symm)

theorem Accounted.taken (hc : (w.ring.rings .file).directory.consumers c = true) (outLen : Nat) :
    Accounted (w.taken (w.ring.tryRecv c outLen)) := by
  obtain ⟨n, hberths⟩ := h.berths
  have hactive := hberths w.ring.locale
  have hc : (w.ring.rings w.ring.locale).directory.consumers c = true := by
    rw [hactive.consumers, ← (hberths .file).consumers]
    exact hc
  unfold tryRecv
  cases hout : (w.ring.rings w.ring.locale).tryRecv c outLen with
  | mk r res =>
    obtain ⟨-, hitems⟩ := AdaptiveRing.tryRecv_items hactive.sound hc hout
    have hberth : ∀ m, Berth m (w.ring.rings w.ring.locale) → Berth m r := fun m hm =>
      hm.tryRecv hc hout
    cases res with
    | error e => exact h.active hberth (hitems ▸ h.items)
    | ok x =>
      refine h.active hberth ?_
      have hperm := (hitems.append_left w.received).symm.trans h.items
      rwa [← singleton_append, ← append_assoc] at hperm

theorem Accounted.migrate (hmove : w.ring.Movable target) :
    ∃ ring, w.ring.migrateTo target = some (ring, .ok ()) ∧ ring.locale = target ∧
      Accounted { w with ring := ring } := by
  obtain ⟨n, hberths⟩ := h.berths
  obtain ⟨ring, hmoved, rfl, hberths', helsewhere, hperm⟩ :=
    migrateTo_moves hberths h.elsewhere hmove
  exact ⟨ring, hmoved, rfl, ⟨n, hberths'⟩, helsewhere, (hperm.append_left _).trans h.items⟩

theorem Accounted.step {e : LocaleEvent α} (hok : w.Movable e) (hstep : w.step e = some w') :
    Accounted w' := by
  obtain ⟨n, hberths⟩ := h.berths
  cases e with
  | registerProducer canGrow =>
    cases hstep
    obtain ⟨hlocale, hkeeps⟩ := w.ring.registerProducer_keeps n canGrow
    exact h.quiet hberths hlocale hkeeps
  | registerConsumer =>
    cases hstep
    obtain ⟨hlocale, n', hkeeps⟩ := registerConsumer_keeps hberths
    exact h.quiet hberths hlocale hkeeps
  | send p len x =>
    cases hstep
    exact h.sent p len x
  | recv c outLen =>
    obtain ⟨hc, htaken⟩ := ite_none_right_eq_some.mp hstep
    cases htaken
    exact h.taken hc outLen
  | migrateTo target =>
    obtain ⟨ring, hmoved, -, hnext⟩ := h.migrate hok
    rw [LocaleExchange.step, hmoved] at hstep
    cases hstep
    exact hnext

end

/-- In every run whose migrations all stay within reach and find room, each accepted item
has been received once or is in the active backing, nothing is in another, and such a
migration succeeds with every item not yet received in the target's backing. -/
theorem migrations_keep_items {maxProducers capacity : Nat} {events : List (LocaleEvent α)}
    {w : LocaleExchange α} (hok : EveryStep step Movable (start maxProducers capacity) events)
    (hrun : run step (start maxProducers capacity) events = some w) :
    (w.received ++ (w.ring.rings w.ring.locale).held.items).Perm w.accepted ∧
    (∀ l, l ≠ w.ring.locale → (w.ring.rings l).held.items = []) ∧
    ∀ target, w.ring.Movable target → ∃ ring, w.ring.migrateTo target = some (ring, .ok ()) ∧
      ring.locale = target ∧ (w.received ++ (ring.rings target).held.items).Perm w.accepted := by
  have hacc : Accounted w := Lib.run_invariant (fun _ _ _ h hok hstep => h.step hok hstep)
      (accounted_start maxProducers capacity) hok hrun
  refine ⟨hacc.items, hacc.elsewhere, fun target hmove => ?_⟩
  obtain ⟨ring, hmoved, rfl, hnext⟩ := hacc.migrate hmove
  exact ⟨ring, hmoved, rfl, hnext.items⟩

/-- Two producers and a consumer; the items of both rings fit into one. -/
def roomyMove : List (LocaleEvent Nat) :=
  [.send 0 8 4, .registerProducer (fun _ => true), .registerProducer (fun _ => true),
    .registerConsumer, .send 0 8 5, .send 1 64 6, .migrateTo .file, .recv 0 64,
    .migrateTo .shmFs, .send 1 8 7, .recv 0 64]

theorem migrations_keep_items_roomy :
    ∃ w : LocaleExchange Nat, run step (start 1 4) roomyMove = some w ∧
      (w.accepted = [4, 5, 6, 7] ∧ w.received = [4, 5] ∧ w.ring.locale = .shmFs) ∧
      (w.received ++ (w.ring.rings w.ring.locale).held.items).Perm w.accepted ∧
      (∀ l, l ≠ w.ring.locale → (w.ring.rings l).held.items = []) ∧
      ∀ target, w.ring.Movable target → ∃ ring, w.ring.migrateTo target = some (ring, .ok ()) ∧
        ring.locale = target ∧ (w.received ++ (ring.rings target).held.items).Perm w.accepted := by
  have hok : EveryStep step Movable (start 1 4) roomyMove := by decide +kernel
  have hlast : (run step (start 1 4) roomyMove).map
      (fun w => (w.accepted, w.received, w.ring.locale)) = some ([4, 5, 6, 7], [4, 5], .shmFs) := by
    decide +kernel
  obtain ⟨w, hrun, heq⟩ := map_eq_some_iff.mp hlast
  simp only [Prod.mk.injEq] at heq
  exact ⟨w, hrun, heq, migrations_keep_items hok hrun⟩

/-- Two producers fill their rings; the transfer sends everything as producer 0. -/
def tightMove : List (LocaleEvent Nat) :=
  [.registerProducer (fun _ => true), .registerProducer (fun _ => true), .registerConsumer,
    .send 0 8 1, .send 0 8 2, .send 1 8 3, .send 1 8 4, .migrateTo .file]

/-- The second ring of the grid belongs to consumer 1; the transfer drains as consumer 0. -/
def foreignMove : List (LocaleEvent Nat) :=
  [.registerProducer (fun _ => true), .registerProducer (fun _ => true), .registerConsumer,
    .registerConsumer, .send 1 8 7, .recv 0 64]

/-- A failing migration drops the item it has popped, and a successful one leaves behind
what consumer 0 does not own. -/
theorem migration_loses_items : (∃ w : LocaleExchange Nat, run step (start 2 2) tightMove = some w ∧
      2 ∈ w.accepted ∧ 2 ∉ w.received ∧ ∀ l, 2 ∉ (w.ring.rings l).held.items) ∧
    ∃ (w : LocaleExchange Nat) (ring : LocaleAdaptiveRing Nat),
      run step (start 2 2) foreignMove = some w ∧ w.ring.migrateTo .file = some (ring, .ok ()) ∧
      7 ∈ w.accepted ∧ 7 ∉ w.received ∧ 7 ∉ (ring.rings .file).held.items ∧
      (ring.rings .anon).held.items = [7] := by
  refine ⟨?_, ?_⟩
  · have hlost : (run step (start 2 2) tightMove).map (fun w => (w.accepted, w.received,
        (w.ring.rings .anon).held.items, (w.ring.rings .file).held.items,
          (w.ring.rings .shmFs).held.items)) = some ([1, 2, 3, 4], [], [4], [1, 3], []) := by
      decide +kernel
    obtain ⟨w, hrun, heq⟩ := map_eq_some_iff.mp hlost
    simp only [Prod.mk.injEq] at heq
    obtain ⟨haccepted, hreceived, hanon, hfile, hshmFs⟩ := heq
    refine ⟨w, hrun, by rw [haccepted]; decide, by rw [hreceived]; decide, fun l => ?_⟩
    cases l with
    | anon => rw [hanon]; decide
    | file => rw [hfile]; decide
    | shmFs => rw [hshmFs]; decide
  have hleft : ((run step (start 2 2) foreignMove).bind fun w =>
      (w.ring.migrateTo .file).map fun out => (w.accepted, w.received, out.2.toOption,
        (out.1.rings .file).held.items, (out.1.rings .anon).held.items)) =
        some ([7], [], some (), [], [7]) := by
    decide +kernel
  obtain ⟨w, hrun, hout⟩ := bind_eq_some_iff.mp hleft
  obtain ⟨⟨ring, res⟩, hmigrate, heq⟩ := map_eq_some_iff.mp hout
  simp only [Prod.mk.injEq] at heq
  obtain ⟨haccepted, hreceived, hres, hfile, hanon⟩ := heq
  cases res with
  | error e => cases hres
  | ok u =>
    refine ⟨w, ring, hrun, hmigrate, by rw [haccepted]; decide, by rw [hreceived]; decide, ?_,
      hanon⟩
    rw [hfile]
    decide

end LocaleExchange
end SubEtha.Ring
