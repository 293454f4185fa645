import SubEtha.Lib.Runs
import SubEtha.Ring.Pops

namespace SubEtha.Ring
open PeerDirectory Function Option List Backings

variable {α : Type}

def Backings.queues (b : Backings α) : RingShape → List (List α)
  | .spsc => [b.spsc]
  | .mpsc => b.mpsc
  | .mpmc => b.mpmc
  | .vyukov => [b.vyukov]

variable {b : Backings α} {q : List α} {r r' : AdaptiveRing α} {c producerId : Nat}
  {d : PeerDirectory}

theorem Backings.items_eq_nil (h : ∀ s, ∀ q ∈ b.queues s, q = []) : b.items = [] := by
  have hspsc : b.spsc = [] := h .spsc _ (mem_singleton_self _)
  have hvyukov : b.vyukov = [] := h .vyukov _ (mem_singleton_self _)
  have hmpsc : b.mpsc.flatten = [] := flatten_eq_nil_iff.mpr (h .mpsc)
  have hmpmc : b.mpmc.flatten = [] := flatten_eq_nil_iff.mpr (h .mpmc)
  rw [items, hspsc, hvyukov, hmpsc, hmpmc]
  rfl

theorem Backings.queues_eq_nil (h : b.items = []) (s : RingShape) : ∀ q ∈ b.queues s, q = [] := by
  simp only [items, append_eq_nil_iff, flatten_eq_nil_iff] at h
  obtain ⟨hspsc, hmpsc, hmpmc, hvyukov⟩ := h
  cases s with
  | spsc => exact fun q hq => (mem_singleton.mp hq).trans hspsc
  | mpsc => exact hmpsc
  | mpmc => exact hmpmc
  | vyukov => exact fun q hq => (mem_singleton.mp hq).trans hvyukov

theorem Backings.Takes.queues (h : b.Takes x b') (hq : q ∈ b'.queues s) (hne : q ≠ []) :
    ∃ q0 ∈ b.queues s, q0 ≠ [] := by
  cases h with
  | spsc head | vyukov head =>
    cases s with
    | _ => first | exact ⟨q, hq, hne⟩ | exact ⟨_, mem_singleton.mpr head.symm, cons_ne_nil _ _⟩
  | mpsc head | mpmc head =>
    cases s with
    | _ => first | exact ⟨q, hq, hne⟩ | exact ⟨_, mem_of_getElem? head, cons_ne_nil _ _⟩

namespace AdaptiveRing

/-- The shapes a read walks include every one that holds items. -/
structure Stocked (r : AdaptiveRing α) : Prop where
  marked : r.Marked
  start : r.used .spsc = true
  stored : ∀ s, ∀ q ∈ r.held.queues s, q ≠ [] → r.used s = true

/-- The reader of the single-reader shapes is registered, if any consumer is. -/
def Led (r : AdaptiveRing α) : Prop :=
  ∀ c, r.directory.consumers c = true → r.directory.consumers r.singleReader = true

structure Sound (r : AdaptiveRing α) : Prop where
  governed : Governed r.directory
  stocked : Stocked r
  led : Led r

theorem Stocked.reshaped (h : Stocked r) (hr : Reshaped r r') : Stocked r' := by
  refine ⟨hr.marked h.marked, hr.used_mono _ h.start, fun s q hq hne => ?_⟩
  rw [hr.held_eq] at hq
  exact hr.used_mono s (h.stored s q hq hne)

theorem Led.congr (h : Led r) (hconsumers : r'.directory.consumers = r.directory.consumers)
    (hreader : r'.singleReader = r.singleReader) : Led r' := by
  rw [Led, hconsumers, hreader]
  exact h

theorem mem_claimed (h : Governed r.directory) (hc : r.directory.consumers c = true) :
    c ∈ r.directory.claimedConsumerSlots :=
  mem_claimedConsumerSlots.mpr ⟨(h.live c hc).1, hc⟩

theorem led_designateSingleReader (h : Governed r.directory) : Led r.designateSingleReader := by
  intro c hc
  rw [r.designateSingleReader_reshaped.directory_eq] at hc ⊢
  exact (mem_claimedConsumerSlots.mp (r.designateSingleReader_reader (mem_claimed h hc))).2

theorem Sound.ensureSynced (h : Sound r) : Sound r.ensureSynced := by
  obtain ⟨hr, hreader⟩ := r.ensureSynced_reshaped
  refine ⟨by rw [hr.directory_eq]; exact h.governed, h.stocked.reshaped hr, fun c hc => ?_⟩
  rw [hr.directory_eq] at hc ⊢
  have hled := h.led c hc
  rwa [hreader (mem_claimed h.governed hled)]

theorem Sound.reshapeForCounts (h : Sound r) : Sound r.reshapeForCounts.1 := by
  obtain ⟨hr, hreader⟩ := r.reshapeForCounts_reshaped
  exact ⟨by rw [hr.directory_eq]; exact h.governed, h.stocked.reshaped hr,
    h.led.congr (by rw [hr.directory_eq]) hreader⟩

theorem Sound.redirect (h : Sound r) (hd : Governed d)
    (hconsumers : d.consumers = r.directory.consumers) : Sound { r with directory := d } :=
  ⟨hd, ⟨h.stocked.marked, h.stocked.start, h.stocked.stored⟩, h.led.congr hconsumers rfl⟩

section
variable (maxProducers capacity : Nat) (contract : Option RingContract) (stamped : Bool)

theorem create_items :
    (create (α := α) maxProducers capacity contract stamped).held.items = [] := by
  simp [create, held, items]

theorem Sound.create :
    Sound (AdaptiveRing.create (α := α) maxProducers capacity contract stamped) where
  governed := .create maxProducers
  stocked := by
    refine ⟨rfl, rfl, fun s q hq hne => ?_⟩
    cases s with
    | spsc | vyukov => exact absurd (mem_singleton.mp hq) hne
    | mpsc | mpmc => exact absurd (eq_of_mem_replicate hq) hne
  led := nofun

end

theorem Sound.growRingsTo (h : Sound r) (want : Nat) : Sound (r.growRingsTo want) := by
  have hdirectory : Governed (r.growRingsTo want).directory ∧
      (r.growRingsTo want).directory.consumers = r.directory.consumers := by
    unfold AdaptiveRing.growRingsTo
    split
    · exact ⟨h.governed.mono h.governed.live (fun _ ho => ho) rfl rfl, rfl⟩
    · exact ⟨h.governed, rfl⟩
  refine ⟨hdirectory.1, ⟨h.stocked.marked, h.stocked.start, fun s q hq hne => ?_⟩,
    h.led.congr hdirectory.2 rfl⟩
  cases s with
  | spsc | vyukov => exact h.stocked.stored _ q hq hne
  | mpsc | mpmc =>
    rcases mem_append.mp hq with hq | hq
    · exact h.stocked.stored _ q hq hne
    · exact absurd (eq_of_mem_replicate hq) hne

theorem growRingsTo_items (r : AdaptiveRing α) (want : Nat) :
    (r.growRingsTo want).held.items = r.held.items := by
  simp [growRingsTo, held, items]

/-- The invariant and the items through a call that neither sends nor receives. -/
structure Quiet (r r' : AdaptiveRing α) : Prop where
  sound : Sound r → Sound r'
  items_eq : r'.held.items = r.held.items
  stamped_eq : r'.stamped = r.stamped

namespace Quiet

theorem refl (r : AdaptiveRing α) : Quiet r r := ⟨fun h => h, rfl, rfl⟩

theorem trans (h : Quiet r r') (h' : Quiet r' r'') : Quiet r r'' :=
  ⟨fun hr => h'.sound (h.sound hr), h'.items_eq.trans h.items_eq, h'.stamped_eq.trans h.stamped_eq⟩

theorem ensureSynced (r : AdaptiveRing α) : Quiet r r.ensureSynced :=
  ⟨Sound.ensureSynced, congrArg items r.ensureSynced_reshaped.1.held_eq,
    congrArg (fun f => f.2.2.2) r.ensureSynced_reshaped.1.fixed_eq⟩

theorem reshapeForCounts (r : AdaptiveRing α) : Quiet r r.reshapeForCounts.1 :=
  ⟨Sound.reshapeForCounts, congrArg items r.reshapeForCounts_reshaped.1.held_eq,
    congrArg (fun f => f.2.2.2) r.reshapeForCounts_reshaped.1.fixed_eq⟩

theorem redirect (hd : Governed r.directory → Governed d)
    (hconsumers : d.consumers = r.directory.consumers) : Quiet r { r with directory := d } :=
  ⟨fun h => h.redirect (hd h.governed) hconsumers, rfl, rfl⟩

theorem designated (hd : Governed r.directory → Governed d) :
    Quiet r { r with directory := d }.designateSingleReader := by
  have hr := designateSingleReader_reshaped { r with directory := d }
  refine ⟨fun h => ⟨?_, ?_, led_designateSingleReader (hd h.governed)⟩,
    congrArg items hr.held_eq, congrArg (fun f => f.2.2.2) hr.fixed_eq⟩
  · rw [hr.directory_eq]
    exact hd h.governed
  · have hstocked : Stocked { r with directory := d } :=
      ⟨h.stocked.marked, h.stocked.start, h.stocked.stored⟩
    exact hstocked.reshaped hr

theorem rebalanceOwnership (r : AdaptiveRing α) : Quiet r r.rebalanceOwnership :=
  ⟨fun h => h.redirect h.governed.rebalanceOwnership.1
    (congrArg (fun p => p.2.2.2.1) h.governed.rebalanceOwnership.2), rfl, rfl⟩

end Quiet

theorem claimProducerSlot_consumers (h : d.claimProducerSlot = some (slot, d')) :
    d'.consumers = d.consumers ∧ d'.activeConsumers = d.activeConsumers := by
  obtain ⟨_, -, heq⟩ := map_eq_some_iff.mp h
  cases heq
  exact ⟨rfl, rfl⟩

theorem releaseProducerSlot_consumers (d : PeerDirectory) (slot : Nat) :
    (d.releaseProducerSlot slot).consumers = d.consumers ∧
      (d.releaseProducerSlot slot).activeConsumers = d.activeConsumers := by
  unfold releaseProducerSlot
  split
  · exact ⟨rfl, rfl⟩
  · exact ⟨rfl, rfl⟩

theorem growRingsTo_peers (r : AdaptiveRing α) (want : Nat) :
    (r.growRingsTo want).directory.producers = r.directory.producers ∧
      (r.growRingsTo want).directory.consumers = r.directory.consumers ∧
      (r.growRingsTo want).directory.activeConsumers = r.directory.activeConsumers := by
  unfold growRingsTo
  split
  · exact ⟨rfl, rfl, rfl⟩
  · exact ⟨rfl, rfl, rfl⟩

variable (r : AdaptiveRing α)

theorem quiet_registerProducer (canGrow : Bool) : Quiet r (r.registerProducer canGrow).1 := by
  unfold registerProducer
  split
  · exact .refl r
  rename_i slot d hclaim
  have hconsumers := (claimProducerSlot_consumers hclaim).1
  have hrefused : Quiet r { r with directory := d.releaseProducerSlot slot } :=
    .redirect (fun h => (h.claimProducerSlot hclaim).releaseProducerSlot slot)
      ((releaseProducerSlot_consumers d slot).1.trans hconsumers)
  have hadmitted : Quiet r { r with directory := d } :=
    .redirect (fun h => h.claimProducerSlot hclaim) hconsumers
  split
  · exact hrefused
  split
  · exact hrefused
  split
  · have hgrown : Quiet { r with directory := d } _ :=
      ⟨fun h => h.growRingsTo (slot + 1), growRingsTo_items _ (slot + 1), rfl⟩
    exact ((hadmitted.trans hgrown).trans (.ensureSynced _)).trans (.reshapeForCounts _)
  · exact (hadmitted.trans (.ensureSynced _)).trans (.reshapeForCounts _)

theorem quiet_unregisterProducer (producerId : Nat) : Quiet r (r.unregisterProducer producerId) :=
  (Quiet.redirect (fun h => h.releaseProducerSlot producerId)
    (releaseProducerSlot_consumers _ producerId).1).trans (.reshapeForCounts _)

theorem claimed_released_consumers (h : d.claimConsumerSlot = some (slot, d')) :
    (d'.releaseConsumerSlot slot).consumers = d.consumers := by
  obtain ⟨_, hbit, heq⟩ := map_eq_some_iff.mp h
  cases heq
  obtain ⟨hlt, hclear⟩ := claimBit_spec hbit
  rw [zero_add] at hlt
  simp only [releaseConsumerSlot, bumpEpoch, not_le.mpr hlt,
    if_false, update_self, if_true, update_idem]
  rw [← hclear, update_eq_self]

theorem quiet_registerConsumer : Quiet r r.registerConsumer.1 := by
  unfold registerConsumer
  split
  · exact .refl r
  rename_i slot d hclaim
  split
  · exact .redirect (fun h => (h.claimConsumerSlot hclaim).releaseConsumerSlot slot)
      (claimed_released_consumers hclaim)
  have hled : Quiet r { r with directory := d }.designateSingleReader :=
    .designated (fun h => h.claimConsumerSlot hclaim)
  exact ((hled.trans (.rebalanceOwnership _)).trans (.ensureSynced _)).trans (.reshapeForCounts _)

theorem quiet_unregisterConsumer (consumerId : Nat) :
    Quiet r (r.unregisterConsumer consumerId) := by
  refine Quiet.trans (.designated fun h => ?_) (.reshapeForCounts _)
  refine (h.parcelOut _ (fun o ho => ?_) _).releaseConsumerSlot consumerId
  exact (mem_claimedConsumerSlots.mp (mem_filter.mp ho).1).2

end AdaptiveRing

inductive PeerCall
  | registerProducer (canGrow : Bool)
  | unregisterProducer (producerId : Nat)
  | registerConsumer
  | unregisterConsumer (consumerId : Nat)

namespace AdaptiveRing

def peerCall (r : AdaptiveRing α) : PeerCall → AdaptiveRing α
  | .registerProducer canGrow => (r.registerProducer canGrow).1
  | .unregisterProducer p => r.unregisterProducer p
  | .registerConsumer => r.registerConsumer.1
  | .unregisterConsumer c => r.unregisterConsumer c

theorem quiet_peerCalls (r : AdaptiveRing α) (peers : List PeerCall) :
    Quiet r (peers.foldl peerCall r) := by
  induction peers generalizing r with
  | nil => exact .refl r
  | cons call peers ih =>
    refine Quiet.trans ?_ (ih (r.peerCall call))
    cases call with
    | registerProducer canGrow => exact r.quiet_registerProducer canGrow
    | unregisterProducer p => exact r.quiet_unregisterProducer p
    | registerConsumer => exact r.quiet_registerConsumer
    | unregisterConsumer c => exact r.quiet_unregisterConsumer c

theorem setBacking_queues {shape s : RingShape}
    (h : q' ∈ (r.setBacking shape producerId q).held.queues s) :
    s = shape ∨ q' ∈ r.held.queues s := by
  by_cases hs : s = shape
  · exact .inl hs
  refine .inr ?_
  cases shape with
  | _ =>
    cases s with
    | _ => first | exact h | exact absurd rfl hs

theorem setBacking_frame (r : AdaptiveRing α) (shape : RingShape) (producerId : Nat) (q : List α) :
    (r.setBacking shape producerId q).frame = r.frame ∧
      (r.setBacking shape producerId q).directory = r.directory := by
  cases shape with
  | _ => exact ⟨rfl, rfl⟩

theorem setBacking_items {shape : RingShape} (hq : r.backing shape producerId = some q) (x : α) :
    (r.setBacking shape producerId (q ++ [x])).held.items.Perm (x :: r.held.items) := by
  cases shape with
  | spsc =>
    cases hq
    simp only [setBacking, held, items, append_assoc]
    exact perm_middle
  | mpsc =>
    have hperm := (Lib.flatten_push_perm hq x).append_right (r.mpmc.flatten ++ r.vyukov)
    exact (hperm.append_left r.spsc).trans perm_middle
  | mpmc =>
    have hperm := ((Lib.flatten_push_perm hq x).append_right r.vyukov).append_left r.mpsc.flatten
    refine ((hperm.trans perm_middle).append_left r.spsc).trans ?_
    exact perm_middle
  | vyukov =>
    cases hq
    have hperm : (r.vyukov ++ [x]).Perm (x :: r.vyukov) := perm_append_comm
    refine (((hperm.append_left r.mpmc.flatten).trans perm_middle).append_left
      r.mpsc.flatten |>.trans perm_middle).append_left r.spsc |>.trans ?_
    exact perm_middle

theorem Sound.setBacking (h : Sound r) (producerId : Nat) (q : List α) :
    Sound (r.setBacking r.shape producerId q) := by
  obtain ⟨hframe, hdirectory⟩ := r.setBacking_frame r.shape producerId q
  simp only [frame, Prod.mk.injEq] at hframe
  obtain ⟨⟨hshape, hused, hreader⟩, -⟩ := hframe
  refine ⟨by rw [hdirectory]; exact h.governed, ⟨?_, ?_, fun s q' hq' hne => ?_⟩,
    h.led.congr (by rw [hdirectory]) hreader⟩
  · rw [Marked, hused, hshape]
    exact h.stocked.marked
  · rw [hused]
    exact h.stocked.start
  rw [hused]
  rcases setBacking_queues hq' with rfl | hq'
  · exact h.stocked.marked
  · exact h.stocked.stored s q' hq' hne

theorem trySend_spec (hsend : r.trySend producerId len x = (r', res)) :
    (Sound r → Sound r') ∧ match res with
      | .ok _ => r'.held.items.Perm (x :: r.held.items)
      | .error _ => r'.held.items = r.held.items := by
  have hsync := Quiet.ensureSynced r
  unfold trySend at hsend
  dsimp only at hsend
  split at hsend
  · cases hsend
    exact ⟨hsync.sound, hsync.items_eq⟩
  rename_i q hq
  split at hsend
  · cases hsend
    exact ⟨hsync.sound, hsync.items_eq⟩
  rename_i q' hpush
  cases hsend
  obtain rfl := tryPush_ok hpush
  refine ⟨fun h => (hsync.sound h).setBacking producerId _, ?_⟩
  exact hsync.items_eq ▸ setBacking_items hq x

theorem Sound.pops (h : Sound r) (hc : r.directory.consumers c = true) (hpops : PopsAs c r res r') :
    Sound r' := by
  have hframe := hpops.frame_eq
  simp only [frame, Prod.mk.injEq] at hframe
  obtain ⟨⟨hshape, hused, hreader⟩, -⟩ := hframe
  refine ⟨hpops.governed hc h.governed, ⟨?_, ?_, fun s q hq hne => ?_⟩,
    h.led.congr hpops.consumers_eq hreader⟩
  · rw [Marked, hused, hshape]
    exact h.stocked.marked
  · rw [hused]
    exact h.stocked.start
  rw [hused]
  have hheld := hpops.held
  cases res with
  | ok x =>
    obtain ⟨q0, hq0, hne0⟩ := Backings.Takes.queues hheld hq hne
    exact h.stocked.stored s q0 hq0 hne0
  | error e =>
    have heq : r'.held = r.held := hheld
    exact h.stocked.stored s q (heq ▸ hq) hne

theorem tryRecv_items (h : Sound r) (hc : r.directory.consumers c = true)
    (hrecv : r.tryRecv c outLen = (r', res)) : Sound r' ∧ match res with
      | .ok x => r.held.items.Perm (x :: r'.held.items)
      | .error _ => r'.held.items = r.held.items := by
  have hsync := Quiet.ensureSynced r
  have hc' : r.ensureSynced.directory.consumers c = true := by
    rwa [r.ensureSynced_reshaped.1.directory_eq]
  obtain ⟨hpops, -⟩ := tryRecv_spec h.governed hc hrecv
  refine ⟨(hsync.sound h).pops hc' hpops, ?_⟩
  have hheld := hpops.held
  cases res with
  | ok x => exact hsync.items_eq ▸ Backings.Takes.perm hheld
  | error e => exact (congrArg items hheld).trans hsync.items_eq

end AdaptiveRing
end SubEtha.Ring
