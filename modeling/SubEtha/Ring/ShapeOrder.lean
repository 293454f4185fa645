import SubEtha.Ring.Rounds
import SubEtha.Ring.Solo

namespace SubEtha.Ring
open Function Option List AdaptiveRing PeerDirectory
open Lib (run EveryStep run_invariant)

variable {α : Type} {p : Nat} {r : AdaptiveRing α}

namespace AdaptiveRing

theorem setBacking_lane {shape : RingShape} (hq : r.backing shape p = some q) (x : α)
    (hnarrow : r.held.Narrow p) :
    (r.setBacking shape p (q ++ [x])).held.lane p shape = r.held.lane p shape ++ [x] ∧
    (∀ t, t ≠ shape → (r.setBacking shape p (q ++ [x])).held.lane p t = r.held.lane p t) ∧
    (r.setBacking shape p (q ++ [x])).held.Narrow p := by
  cases shape with
  | spsc =>
    cases hq
    refine ⟨rfl, fun t ht => ?_, { hnarrow with }⟩
    cases t with
    | spsc => exact absurd rfl ht
    | _ => rfl
  | mpsc =>
    obtain ⟨hlt, hget⟩ := List.getElem_of_getElem? hq
    have hlane : r.held.lane p .mpsc = q := by
      rw [← hget]
      exact getD_eq_getElem _ _ hlt
    refine ⟨?_, fun t ht => ?_, ⟨?_, fun i hi => ?_, hnarrow.mpmc⟩⟩
    · rw [hlane]
      exact getD_set_self hlt _
    · cases t with
      | mpsc => exact absurd rfl ht
      | _ => rfl
    · exact length_set.trans hnarrow.lengths
    · exact (getD_set_of_ne hi _).trans (hnarrow.mpsc i hi)
  | mpmc =>
    obtain ⟨hlt, hget⟩ := List.getElem_of_getElem? hq
    have hlane : r.held.lane p .mpmc = q := by
      rw [← hget]
      exact getD_eq_getElem _ _ hlt
    refine ⟨?_, fun t ht => ?_, ⟨?_, hnarrow.mpsc, fun i hi => ?_⟩⟩
    · rw [hlane]
      exact getD_set_self hlt _
    · cases t with
      | mpmc => exact absurd rfl ht
      | _ => rfl
    · exact hnarrow.lengths.trans length_set.symm
    · exact (getD_set_of_ne hi _).trans (hnarrow.mpmc i hi)
  | vyukov =>
    cases hq
    refine ⟨rfl, fun t ht => ?_, { hnarrow with }⟩
    cases t with
    | vyukov => exact absurd rfl ht
    | _ => rfl

theorem Solo.setBacking (h : Solo p r) (hq : r.backing r.shape p = some q) (x : α) :
    Solo p (r.setBacking r.shape p (q ++ [x])) := by
  obtain ⟨hlane, hothers, hnarrow⟩ := setBacking_lane hq x h.narrow
  obtain ⟨hframe, hdirectory⟩ := r.setBacking_frame r.shape p (q ++ [x])
  simp only [frame, Prod.mk.injEq] at hframe
  obtain ⟨⟨hshape, hused, hreader⟩, -, hauto, -, hstamped⟩ := hframe
  refine ⟨hreader.trans h.reader, by rw [hdirectory]; exact h.peers,
    by rw [hauto, hshape]; exact h.auto, hstamped.trans h.unstamped, ?_,
    by rw [hused]; exact h.start, hnarrow, fun t hne => ?_⟩
  · rw [Marked, hused, hshape]
    exact h.marked
  rw [hused]
  by_cases ht : t = r.shape
  · subst ht
    exact h.marked
  · exact h.stored t (by rwa [← hothers t ht])

theorem send_backlog (h : Solo p r) (hsend : r.trySend p len x = (r', res)) :
    Solo p r' ∧ match res with
      | .ok _ => r'.backlog p = r.backlog p ++ [x]
      | .error _ => r'.backlog p = r.backlog p := by
  have hsync := h.ensureSynced
  rw [← h.ensureSynced_backlog]
  unfold trySend at hsend
  dsimp only at hsend
  split at hsend
  · cases hsend
    exact ⟨hsync, rfl⟩
  rename_i q hq
  split at hsend
  · cases hsend
    exact ⟨hsync, rfl⟩
  rename_i q' hpush
  cases hsend
  obtain rfl := tryPush_ok hpush
  obtain ⟨hlane, hothers, -⟩ := setBacking_lane hq x hsync.narrow
  have hshape : (r.ensureSynced.setBacking r.ensureSynced.shape p (q ++ [x])).shape =
      r.ensureSynced.shape := congrArg (fun f => f.1.1) (setBacking_frame ..).1
  refine ⟨hsync.setBacking hq x, ?_⟩
  rw [backlog, backlog, hshape]
  exact contents_push hlane hothers

theorem morphTo_solo (h : Solo p r) (new : RingShape) :
    (r.morphTo new).1.shape = new ∧ (r.morphTo new).1.held = r.held ∧ Solo p (r.morphTo new).1 := by
  have hmorph : ∃ r', { r with shapeAuto := false }.morphShape new = some r' := by
    unfold morphShape
    split
    · exact ⟨_, rfl⟩
    · rw [if_neg (by simp [h.unstamped])]
      exact ⟨_, rfl⟩
  obtain ⟨r', hr'⟩ := hmorph
  obtain ⟨hreshaped, hreader, hshape⟩ := morphShape_reshaped hr'
  have hto : (r.morphTo new).1 = r' := by
    unfold morphTo
    dsimp only
    rw [hr']
  have hfixed := hreshaped.fixed_eq
  simp only [fixed, Prod.mk.injEq] at hfixed
  obtain ⟨-, -, hauto, hstamped⟩ := hfixed
  rw [hto]
  refine ⟨hshape, hreshaped.held_eq, ⟨hreader.trans h.reader, ?_, ?_, hstamped.trans h.unstamped,
    hreshaped.marked h.marked, hreshaped.used_mono _ h.start, ?_, ?_⟩⟩
  · rw [hreshaped.directory_eq]
    exact h.peers
  · rw [hauto]
    exact nofun
  · rw [hreshaped.held_eq]
    exact h.narrow
  · intro s hne
    rw [hreshaped.held_eq] at hne
    exact hreshaped.used_mono s (h.stored s hne)

theorem morph_backlog (h : Solo p r)
    (hswap : NoSwap (fun s => !(r.held.lane p s).isEmpty) r.shape new) :
    Solo p (r.morphTo new).1 ∧ (r.morphTo new).1.backlog p = r.backlog p := by
  obtain ⟨hshape, hheld, hsolo⟩ := morphTo_solo h new
  refine ⟨hsolo, ?_⟩
  rw [backlog, backlog, hshape, hheld]
  exact hswap.contents_eq.symm

theorem solo_create (p maxProducers capacity : Nat) (contract : Option RingContract) :
    Solo p (create (α := α) maxProducers capacity contract false) := by
  have hempty := getD_replicate_nil (α := α) maxProducers
  refine ⟨rfl, ⟨nofun, fun _ => ⟨.inl rfl, rfl⟩, Nat.zero_le _, Nat.zero_le _⟩,
    fun _ => rfl, rfl, rfl, rfl, ⟨rfl, fun i _ => hempty i, fun i _ => hempty i⟩, fun s hne => ?_⟩
  cases s with
  | spsc | vyukov => exact absurd rfl hne
  | mpsc | mpmc => exact absurd (hempty p) hne

theorem getD_grown (qs : List (List α)) (n i : Nat) :
    (qs ++ replicate n []).getD i [] = qs.getD i [] := by
  by_cases hi : i < qs.length
  · exact getD_append _ _ _ _ hi
  have hge := not_lt.mp hi
  rw [getD_append_right _ _ _ _ hge, getD_eq_default qs _ hge]
  exact getD_replicate_nil n _

theorem Solo.redirect (h : Solo p r) (hd : SoloPeers d) : Solo p { r with directory := d } :=
  { h with peers := hd }

theorem Solo.growRingsTo (h : Solo p r) (want : Nat) : Solo p (r.growRingsTo want) := by
  have hpeers : SoloPeers (r.growRingsTo want).directory := by
    unfold AdaptiveRing.growRingsTo
    split
    · exact ⟨h.peers.alone, h.peers.mine, h.peers.counts⟩
    · exact h.peers
  refine { h with
    peers := hpeers, narrow := ⟨?_, fun i hi => ?_, fun i hi => ?_⟩, stored := fun s hne => ?_ }
  · have hlen : r.mpsc.length = r.mpmc.length := h.narrow.lengths
    simp [AdaptiveRing.growRingsTo, held, hlen]
  · exact (getD_grown _ _ i).trans (h.narrow.mpsc i hi)
  · exact (getD_grown _ _ i).trans (h.narrow.mpmc i hi)
  refine h.stored s fun hnil => hne ?_
  cases s with
  | spsc | vyukov => exact hnil
  | mpsc | mpmc => exact (getD_grown _ _ p).trans hnil

theorem Solo.reshapeForCounts (h : Solo p r) : Solo p r.reshapeForCounts.1 := by
  rw [reshapeForCounts_solo h.auto h.peers.counts]
  exact h

theorem soloPeers_claimProducerSlot (h : SoloPeers d) (hactive : d.activeProducers = 0)
    (hclaim : d.claimProducerSlot = some (slot, d')) : SoloPeers d' := by
  obtain ⟨_, -, heq⟩ := map_eq_some_iff.mp hclaim
  cases heq
  exact ⟨h.alone, h.mine, le_of_eq (congrArg (· + 1) hactive), h.counts.2⟩

theorem soloPeers_releaseProducerSlot (h : SoloPeers d) (slot : Nat) :
    SoloPeers (d.releaseProducerSlot slot) := by
  unfold releaseProducerSlot
  split
  · exact ⟨h.alone, h.mine, le_trans (Nat.sub_le _ _) h.counts.1, h.counts.2⟩
  · exact h

theorem Solo.registerProducer (h : Solo p r) (hactive : r.directory.activeProducers = 0)
    (canGrow : Bool) : Solo p (r.registerProducer canGrow).1 := by
  unfold AdaptiveRing.registerProducer
  split
  · exact h
  rename_i slot d hclaim
  have hadmitted := soloPeers_claimProducerSlot h.peers hactive hclaim
  have hrefused := h.redirect (soloPeers_releaseProducerSlot hadmitted slot)
  split
  · exact hrefused
  split
  · exact hrefused
  split
  · exact ((h.redirect hadmitted).growRingsTo _).ensureSynced.reshapeForCounts
  · exact (h.redirect hadmitted).ensureSynced.reshapeForCounts

theorem registerProducer_consumers (r : AdaptiveRing α) (canGrow : Bool) :
    (r.registerProducer canGrow).1.directory.consumers = r.directory.consumers ∧
      (r.registerProducer canGrow).1.directory.activeConsumers = r.directory.activeConsumers := by
  have hsynced : ∀ r' : AdaptiveRing α,
      r'.ensureSynced.reshapeForCounts.1.directory = r'.directory := fun r' =>
    (r'.ensureSynced.reshapeForCounts_reshaped.1.directory_eq).trans
      r'.ensureSynced_reshaped.1.directory_eq
  unfold registerProducer
  split
  · exact ⟨rfl, rfl⟩
  rename_i slot d hclaim
  have hclaimed := claimProducerSlot_consumers hclaim
  obtain ⟨hconsumers, hactive⟩ := releaseProducerSlot_consumers d slot
  split
  · exact ⟨hconsumers.trans hclaimed.1, hactive.trans hclaimed.2⟩
  split
  · exact ⟨hconsumers.trans hclaimed.1, hactive.trans hclaimed.2⟩
  rw [hsynced]
  split
  · obtain ⟨-, hconsumers, hactive⟩ := growRingsTo_peers { r with directory := d } (slot + 1)
    exact ⟨hconsumers.trans hclaimed.1, hactive.trans hclaimed.2⟩
  · exact hclaimed

theorem soloPeers_rebalanceRing (hslots : ∀ s ∈ slots, s = 0) (h : SoloPeers d) (ring : Nat) :
    SoloPeers (rebalanceRing slots d ring) := by
  unfold rebalanceRing
  split
  · exact h
  rename_i desired hdesired
  have hzero := hslots desired (mem_of_getElem? hdesired)
  subst hzero
  obtain ⟨howner, hpending⟩ := h.mine ring
  rcases howner with howner | howner
  · simp only [howner, tryClaimRing, hpending, and_self, if_true, getD_some]
    refine { h with mine := fun ring' => ?_ }
    simp only [setOwner, update_apply]
    split
    · exact ⟨.inr rfl, rfl⟩
    · exact h.mine ring'
  · simp only [howner, if_true]
    exact h

theorem Solo.rebalanceOwnership (h : Solo p r) : Solo p r.rebalanceOwnership := by
  have hslots : ∀ s ∈ r.directory.claimedConsumerSlots, s = 0 := fun s hs =>
    h.peers.alone s (mem_claimedConsumerSlots.mp hs).2
  refine h.redirect ?_
  generalize range r.directory.published = rings
  suffices hall : ∀ d, SoloPeers d → SoloPeers
      (rings.foldl (rebalanceRing r.directory.claimedConsumerSlots) d) from
    hall _ h.peers
  induction rings with
  | nil => exact fun d hd => hd
  | cons ring rings ih => exact fun d hd => ih _ (soloPeers_rebalanceRing hslots hd ring)

theorem soloPeers_releaseConsumerSlot (h : SoloPeers d) (slot : Nat) :
    SoloPeers (d.releaseConsumerSlot slot) := by
  unfold releaseConsumerSlot
  split
  · exact h
  dsimp only
  split
  · refine ⟨fun o ho => ?_, h.mine, h.counts.1, le_trans (Nat.sub_le _ _) h.counts.2⟩
    simp only [bumpEpoch, update_apply] at ho
    split at ho
    · cases ho
    · exact h.alone o ho
  · exact { h with }

theorem soloPeers_claimConsumerSlot (h : SoloPeers d) (hactive : d.activeConsumers = 0)
    (hnone : ∀ o, d.consumers o = false) (hclaim : d.claimConsumerSlot = some (slot, d')) :
    SoloPeers d' := by
  obtain ⟨_, hbit, heq⟩ := map_eq_some_iff.mp hclaim
  cases heq
  have hslot : slot = 0 := by
    rw [show consumerSlotCeiling = 255 + 1 from rfl, claimBit, hnone] at hbit
    exact (some.inj hbit).symm
  refine ⟨fun o ho => ?_, h.mine, h.counts.1, le_of_eq (congrArg (· + 1) hactive)⟩
  by_contra hne
  simp only [bumpEpoch, hslot, update_of_ne hne, hnone, Bool.false_eq_true] at ho

theorem Solo.registerConsumer (h : Solo p r) (hactive : r.directory.activeConsumers = 0)
    (hnone : ∀ o, r.directory.consumers o = false) : Solo p r.registerConsumer.1 := by
  unfold AdaptiveRing.registerConsumer
  split
  · exact h
  rename_i slot d hclaim
  have hadmitted := soloPeers_claimConsumerSlot h.peers hactive hnone hclaim
  split
  · exact h.redirect (soloPeers_releaseConsumerSlot hadmitted slot)
  have hled := h.redirect hadmitted
  dsimp only
  rw [designateSingleReader_solo hled.reader hled.peers.alone]
  exact hled.rebalanceOwnership.ensureSynced.reshapeForCounts

end AdaptiveRing

/-- A call by the one producer, by the one consumer, or a morph. -/
inductive SoloEvent (α : Type)
  | send (len : Nat) (x : α)
  | morph (new : RingShape)
  | recv (outLen : Nat)

/-- A new ring, as it is or with its producer and its consumer registered. -/
inductive SoloStart
  | unregistered
  | registered (canGrow : Bool)

def SoloStart.ring (start : SoloStart) (maxProducers capacity : Nat)
    (contract : Option RingContract) : AdaptiveRing α :=
  match start with
  | .unregistered => .create maxProducers capacity contract false
  | .registered canGrow =>
    ((AdaptiveRing.create maxProducers capacity contract false).registerProducer
      canGrow).1.registerConsumer.1

theorem SoloStart.solo (start : SoloStart) (p maxProducers capacity : Nat)
    (contract : Option RingContract) :
    (start.ring (α := α) maxProducers capacity contract).Solo p := by
  have hnew := solo_create (α := α) p maxProducers capacity contract
  cases start with
  | unregistered => exact hnew
  | registered canGrow =>
    obtain ⟨hconsumers, hactive⟩ := registerProducer_consumers
      (create (α := α) maxProducers capacity contract false) canGrow
    exact (hnew.registerProducer rfl canGrow).registerConsumer hactive
      (fun o => congrFun hconsumers o)

theorem SoloStart.items_eq_nil (start : SoloStart) (maxProducers capacity : Nat)
    (contract : Option RingContract) :
    (start.ring (α := α) maxProducers capacity contract).held.items = [] := by
  have hnew := create_items (α := α) maxProducers capacity contract false
  cases start with
  | unregistered => exact hnew
  | registered canGrow =>
    exact (quiet_registerConsumer _).items_eq.trans
      ((quiet_registerProducer _ canGrow).items_eq.trans hnew)

theorem backlog_eq_nil (h : r.held.items = []) (p : Nat) : r.backlog p = [] :=
  flatMap_eq_nil_iff.mpr fun s _ => Backings.lane_eq_nil (Backings.queues_eq_nil h s) p

namespace Exchange

def soloStep (p : Nat) (w : Exchange α) : SoloEvent α → Option (Exchange α)
  | .send len x => some (w.sent x (w.ring.trySend p len x))
  | .morph new => some { w with ring := (w.ring.morphTo new).1 }
  | .recv outLen => some (w.taken (w.ring.tryRecv 0 outLen))

/-- A morph swaps no two shapes that hold items, and a read skips none. -/
def InWalkOrder (p : Nat) (w : Exchange α) : SoloEvent α → Prop
  | .send .. => True
  | .morph new => NoSwap (fun s => !(w.ring.held.lane p s).isEmpty) w.ring.shape new
  | .recv outLen => ¬ w.ring.SkipsMpsc p outLen

instance (p : Nat) (w : Exchange α) : DecidablePred (InWalkOrder p w) := fun e => by
  cases e <;> unfold InWalkOrder <;> infer_instance

/-- What was accepted is what was received followed by what the walk will read. -/
structure Ordered (p : Nat) (w : Exchange α) : Prop where
  solo : w.ring.Solo p
  items : w.accepted = w.received ++ w.ring.backlog p

theorem Ordered.step (h : Ordered p w) (hok : InWalkOrder p w e)
    (hstep : w.soloStep p e = some w') : Ordered p w' := by
  cases e with
  | send len x =>
    cases hstep
    cases hout : w.ring.trySend p len x with
    | mk ring res =>
      obtain ⟨hsolo, hitems⟩ := send_backlog h.solo hout
      cases res with
      | error e => exact ⟨hsolo, h.items.trans (congrArg (w.received ++ ·) hitems.symm)⟩
      | ok u =>
        refine ⟨hsolo, ?_⟩
        dsimp only [sent] at hitems ⊢
        simp [hitems, h.items]
  | morph new =>
    cases hstep
    obtain ⟨hsolo, hitems⟩ := morph_backlog h.solo hok
    exact ⟨hsolo, h.items.trans (congrArg (w.received ++ ·) hitems.symm)⟩
  | recv outLen =>
    cases hstep
    cases hout : w.ring.tryRecv 0 outLen with
    | mk ring res =>
      obtain ⟨hsolo, hitems⟩ := recv_backlog h.solo hok hout
      cases res with
      | error e => exact ⟨hsolo, h.items.trans (congrArg (w.received ++ ·) hitems.symm)⟩
      | ok x =>
        refine ⟨hsolo, ?_⟩
        dsimp only [taken] at hitems ⊢
        simp [h.items, hitems]

/-- Through morphs that keep the walk in the order it was filled, the payloads come out
in the order they were accepted. -/
theorem morphs_keep_order {p maxProducers capacity : Nat} {contract : Option RingContract}
    {start : SoloStart} {events : List (SoloEvent α)} {w : Exchange α}
    (hok : EveryStep (soloStep p) (InWalkOrder p)
      ⟨start.ring maxProducers capacity contract, [], []⟩ events)
    (hrun : run (soloStep p) ⟨start.ring maxProducers capacity contract, [], []⟩ events = some w) :
    w.received <+: w.accepted := by
  have hstart : Ordered p ⟨start.ring (α := α) maxProducers capacity contract, [], []⟩ := by
    refine ⟨start.solo p maxProducers capacity contract, ?_⟩
    rw [backlog_eq_nil (start.items_eq_nil maxProducers capacity contract)]
    rfl
  have hordered := run_invariant (fun _ _ _ h hok hstep => h.step hok hstep) hstart hok hrun
  exact ⟨_, hordered.items.symm⟩

/-- Out to the composed shapes and back, each morph into a shape that is empty. -/
def roundTrip : List (SoloEvent Nat) :=
  [.send 8 10, .morph .mpsc, .send 64 11, .morph .mpmc, .send 64 12, .recv 64, .morph .spsc,
    .send 64 13, .recv 64, .recv 64, .morph .vyukov, .send 56 14, .recv 64, .recv 64]

theorem morphs_keep_order_roundTrip :
    ∃ w, run (soloStep 0) ⟨(SoloStart.registered true).ring 1 4 none, [], []⟩ roundTrip = some w ∧
      w.received <+: w.accepted ∧ w.received = [10, 11, 12, 13, 14] := by
  have hok : EveryStep (soloStep 0) (InWalkOrder 0)
      ⟨(SoloStart.registered true).ring 1 4 none, [], []⟩ roundTrip := by decide +kernel
  exact ⟨_, rfl, morphs_keep_order hok rfl, by decide +kernel⟩

/-- A shape that is left with items in it and taken up again is read after the shapes
filled in between, but keeps the items it was left with. -/
theorem reused_shape_reorders :
    ∃ w, run (soloStep 0) ⟨(SoloStart.registered true).ring 1 4 none, [], []⟩
        [.send 8 10, .morph .mpsc, .send 8 11, .morph .spsc, .send 8 12, .recv 64] = some w ∧
      w.accepted = [10, 11, 12] ∧ w.received = [11] ∧ ¬ w.received <+: w.accepted := by
  refine ⟨_, rfl, ?_⟩
  decide +kernel

end Exchange
end SubEtha.Ring
