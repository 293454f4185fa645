import Mathlib.Data.List.Nodup
import SubEtha.Ring.Adaptive

namespace SubEtha.Ring
open PeerDirectory Function List

/-- The parts of the directory that ring ownership does not touch. -/
def peers (d : PeerDirectory) : Nat × (Nat × Nat) × (Nat → Bool) × (Nat → Bool) × (Nat → Bool) :=
  (d.published, (d.activeProducers, d.activeConsumers), d.producers, d.consumers, d.released)

/-- Every slot an ownership entry names has been claimed, and a claimed slot is
not a released one. -/
structure Governed (d : PeerDirectory) : Prop where
  live : ∀ c, d.consumers c = true → c < consumerSlotCeiling ∧ d.released c = false
  owner : ∀ ring o, d.owner ring = some o → d.consumers o = true ∨ d.released o = true
  pending : ∀ ring t, d.pending ring = some t →
    (d.consumers t = true ∨ d.released t = true) ∧ d.owner ring ≠ none

structure Entry (d : PeerDirectory) (idx : Nat) (owner pending : Option Nat) (d' : PeerDirectory) :
    Prop where
  peers_eq : peers d' = peers d
  owner_eq : d'.owner = update d.owner idx owner
  pending_eq : d'.pending = update d.pending idx pending

section
variable (d : PeerDirectory) (idx : Nat) (owner pending : Option Nat)

theorem entry_setOwner : Entry d idx owner pending (d.setOwner idx owner pending) := ⟨rfl, rfl, rfl⟩

theorem entry_bumped :
    Entry d idx owner pending (d.setOwner idx owner pending).bumpEpoch := ⟨rfl, rfl, rfl⟩

end

variable {d d' : PeerDirectory} {owner pending : Option Nat}

theorem entry_self (ho : d.owner idx = owner) (hp : d.pending idx = pending) :
    Entry d idx owner pending d :=
  ⟨rfl, by rw [← ho, update_eq_self], by rw [← hp, update_eq_self]⟩

theorem Entry.elsewhere (h : Entry d idx owner pending d') (hring : ring ≠ idx) :
    d'.owner ring = d.owner ring ∧ d'.pending ring = d.pending ring := by
  rw [h.owner_eq, h.pending_eq]
  exact ⟨update_of_ne hring .., update_of_ne hring ..⟩

theorem claimBit_spec (h : claimBit bits fuel i = some slot) :
    slot < i + fuel ∧ bits slot = false := by
  induction fuel generalizing i with
  | zero => cases h
  | succ fuel ih =>
    rw [claimBit] at h
    split at h
    · obtain ⟨hlt, hbit⟩ := ih h
      exact ⟨by omega, hbit⟩
    rename_i hclear
    cases h
    exact ⟨by omega, by simpa using hclear⟩

namespace Governed

theorem create (published : Nat) : Governed (create.publishRings published) := ⟨nofun, nofun, nofun⟩

section
variable (h : Governed d)
include h

theorem mono (hlive : ∀ c, d'.consumers c = true → c < consumerSlotCeiling ∧ d'.released c = false)
    (hknown : ∀ o, d.consumers o = true ∨ d.released o = true →
      d'.consumers o = true ∨ d'.released o = true)
    (howner : d'.owner = d.owner) (hpending : d'.pending = d.pending) : Governed d' := by
  refine ⟨hlive, fun ring o ho => ?_, fun ring t ht => ?_⟩
  · rw [howner] at ho
    exact hknown o (h.owner ring o ho)
  · rw [hpending] at ht
    obtain ⟨hclaimed, hne⟩ := h.pending ring t ht
    exact ⟨hknown t hclaimed, by rwa [howner]⟩

theorem turn (live : Bool) (hslot : live = true → slot < consumerSlotCeiling)
    (hconsumers : d'.consumers = update d.consumers slot live)
    (hreleased : d'.released = update d.released slot !live) (howner : d'.owner = d.owner)
    (hpending : d'.pending = d.pending) : Governed d' := by
  refine h.mono (fun c hc => ?_) (fun o ho => ?_) howner hpending
  · rw [hconsumers] at hc
    rw [hreleased]
    by_cases heq : c = slot
    · subst heq
      rw [update_self] at hc ⊢
      exact ⟨hslot hc, by rw [hc]; rfl⟩
    · rw [update_of_ne heq] at hc ⊢
      exact h.live c hc
  · rw [hconsumers, hreleased]
    by_cases heq : o = slot
    · subst heq
      rw [update_self, update_self]
      cases live <;> simp
    · rwa [update_of_ne heq, update_of_ne heq]

theorem setOwner (ring : Nat)
    (howner : ∀ o, owner = some o → d.consumers o = true ∨ d.released o = true)
    (hpending : ∀ t, pending = some t → (d.consumers t = true ∨ d.released t = true) ∧ owner ≠ none) :
    Governed (d.setOwner ring owner pending) := by
  refine ⟨h.live, ?_, ?_⟩
  · intro ring' o ho
    simp only [PeerDirectory.setOwner, update_apply] at ho
    split at ho
    · exact howner o ho
    · exact h.owner ring' o ho
  intro ring' t ht
  simp only [PeerDirectory.setOwner, update_apply] at ht ⊢
  split at ht
  · rename_i hring
    rw [if_pos hring]
    exact hpending t ht
  · rename_i hring
    rw [if_neg hring]
    exact h.pending ring' t ht

theorem claimProducerSlot (hclaim : d.claimProducerSlot = some (slot, d')) : Governed d' := by
  obtain ⟨_, -, heq⟩ := Option.map_eq_some_iff.mp hclaim
  cases heq
  exact h.mono h.live (fun _ ho => ho) rfl rfl

theorem releaseProducerSlot (slot : Nat) : Governed (d.releaseProducerSlot slot) := by
  unfold PeerDirectory.releaseProducerSlot
  split
  · exact h.mono h.live (fun _ ho => ho) rfl rfl
  · exact h

theorem claimConsumerSlot (hclaim : d.claimConsumerSlot = some (slot, d')) : Governed d' := by
  obtain ⟨_, hbit, heq⟩ := Option.map_eq_some_iff.mp hclaim
  cases heq
  exact h.turn true (fun _ => (claimBit_spec hbit).1) rfl rfl rfl rfl

theorem releaseConsumerSlot (slot : Nat) : Governed (d.releaseConsumerSlot slot) := by
  unfold PeerDirectory.releaseConsumerSlot
  split
  · exact h
  dsimp only
  split
  · exact h.turn false nofun rfl rfl rfl rfl
  rename_i hfree
  have hclear : d.consumers slot = false := by simpa using hfree
  have hsame : d.consumers = update d.consumers slot false := by
    rw [← hclear, update_eq_self]
  exact h.turn false nofun hsame rfl rfl rfl

end

theorem foldl (hf : ∀ d' ring, Governed d' → peers d' = peers d →
      Governed (f d' ring) ∧ peers (f d' ring) = peers d) (rings : List Nat) (h : Governed d) :
    Governed (rings.foldl f d) ∧ peers (rings.foldl f d) = peers d := by
  suffices hall : ∀ d', Governed d' → peers d' = peers d →
      Governed (rings.foldl f d') ∧ peers (rings.foldl f d') = peers d from hall d h rfl
  induction rings with
  | nil => exact fun d' hd' hp => ⟨hd', hp⟩
  | cons ring rings ih =>
    intro d' hd' hp
    obtain ⟨hnext, hpeers⟩ := hf d' ring hd' hp
    exact ih (f d' ring) hnext hpeers

theorem rebalanceRing (h : Governed d) (hslots : ∀ s ∈ slots, d.consumers s = true) (ring : Nat) :
    Governed (AdaptiveRing.rebalanceRing slots d ring) ∧
      peers (AdaptiveRing.rebalanceRing slots d ring) = peers d := by
  unfold AdaptiveRing.rebalanceRing
  split
  · exact ⟨h, rfl⟩
  rename_i desired hdesired
  have hclaimed := hslots desired (mem_of_getElem? hdesired)
  split
  · unfold tryClaimRing
    split
    · refine ⟨h.setOwner ring (fun o ho => ?_) (by simp), rfl⟩
      cases ho
      exact .inl hclaimed
    · exact ⟨h, rfl⟩
  rename_i owner howner
  split
  · exact ⟨h, rfl⟩
  split
  · exact ⟨h, rfl⟩
  rename_i hne _
  simp only [requestHandoff, howner, if_neg hne]
  refine ⟨h.setOwner ring (fun o ho => ?_) (fun t ht => ?_), rfl⟩
  · cases ho
    exact h.owner ring owner howner
  · cases ht
    exact ⟨.inl hclaimed, Option.some_ne_none _⟩

theorem rebalanceOwnership {α : Type} {r : AdaptiveRing α} (h : Governed r.directory) :
    Governed r.rebalanceOwnership.directory ∧
      peers r.rebalanceOwnership.directory = peers r.directory := by
  refine foldl (fun d ring hd hp => ?_) _ h
  have hconsumers : d.consumers = r.directory.consumers := congrArg (fun p => p.2.2.2.1) hp
  have hslots : ∀ s ∈ r.directory.claimedConsumerSlots, d.consumers s = true := by
    intro s hs
    rw [hconsumers]
    exact (mem_filter.mp hs).2
  obtain ⟨hnext, hpeers⟩ := hd.rebalanceRing hslots ring
  exact ⟨hnext, hpeers.trans hp⟩

theorem transferRing (h : Governed d) (ring me : Nat)
    (hto : ∀ o, target = some o → d.consumers o = true) :
    Governed (d.transferRing ring me target) ∧ peers (d.transferRing ring me target) = peers d := by
  unfold PeerDirectory.transferRing
  split
  · exact ⟨h.setOwner ring (fun o ho => .inl (hto o ho)) (by simp), rfl⟩
  · exact ⟨h, rfl⟩

theorem parcelOut (h : Governed d) (me : Nat) {remaining : List Nat}
    (hremaining : ∀ o ∈ remaining, d.consumers o = true) (rings : List Nat) :
    Governed (rings.foldl (fun d ring =>
      d.transferRing ring me remaining[ring % max remaining.length 1]?) d) := by
  refine (foldl (fun d' ring hd hp => ?_) rings h).1
  have hconsumers : d'.consumers = d.consumers := congrArg (fun p => p.2.2.2.1) hp
  have hto : ∀ o, remaining[ring % max remaining.length 1]? = some o → d'.consumers o = true := by
    intro o ho
    rw [hconsumers]
    exact hremaining o (mem_of_getElem? ho)
  obtain ⟨hnext, hpeers⟩ := hd.transferRing ring me hto
  exact ⟨hnext, hpeers.trans hp⟩

end Governed

structure Backings (α : Type) where
  spsc : List α
  mpsc : List (List α)
  mpmc : List (List α)
  vyukov : List α

namespace AdaptiveRing

variable {α : Type}

def held (r : AdaptiveRing α) : Backings α := ⟨r.spsc, r.mpsc, r.mpmc, r.vyukov⟩

/-- The parts of a ring that only its pops and its configuration change. -/
def fixed (r : AdaptiveRing α) : (Nat × (Nat → Nat) × (Nat → Nat)) × Nat × Bool × Bool :=
  ((r.nextDrain, r.cursor, r.probes), r.capacity, r.shapeAuto, r.stamped)

/-- The current shape is among those walked. -/
def Marked (r : AdaptiveRing α) : Prop := r.used r.shape = true

/-- A morph or a sync: shape, walked set and reader may move, nothing else. -/
structure Reshaped (r r' : AdaptiveRing α) : Prop where
  held_eq : r'.held = r.held
  directory_eq : r'.directory = r.directory
  fixed_eq : r'.fixed = r.fixed
  used_mono : ∀ s, r.used s = true → r'.used s = true
  marked : r.Marked → r'.Marked

namespace Reshaped

theorem refl (r : AdaptiveRing α) : Reshaped r r := ⟨rfl, rfl, rfl, fun _ h => h, fun h => h⟩

theorem trans (h : Reshaped r r') (h' : Reshaped r' r'') : Reshaped r r'' :=
  ⟨h'.held_eq.trans h.held_eq, h'.directory_eq.trans h.directory_eq, h'.fixed_eq.trans h.fixed_eq,
    fun s hs => h'.used_mono s (h.used_mono s hs), fun hm => h'.marked (h.marked hm)⟩

end Reshaped

theorem morphShape_reshaped {r r' : AdaptiveRing α} {shape : RingShape}
    (h : r.morphShape shape = some r') :
    Reshaped r r' ∧ r'.singleReader = r.singleReader ∧ r'.shape = shape := by
  unfold morphShape at h
  split at h
  · rename_i hsame
    cases h
    exact ⟨.refl r, rfl, hsame⟩
  split at h
  · cases h
  cases h
  refine ⟨⟨rfl, rfl, rfl, fun s hs => ?_, fun _ => update_self ..⟩, rfl, rfl⟩
  simp only [update_apply]
  split
  · rfl
  split
  · rfl
  · exact hs

variable (r : AdaptiveRing α)

theorem reshapeForCounts_reshaped :
    Reshaped r r.reshapeForCounts.1 ∧ r.reshapeForCounts.1.singleReader = r.singleReader := by
  unfold reshapeForCounts
  repeat' split
  any_goals exact ⟨.refl r, rfl⟩
  rename_i hmorph
  have h := morphShape_reshaped hmorph
  exact ⟨h.1, h.2.1⟩

theorem mem_claimedConsumerSlots {d : PeerDirectory} :
    c ∈ d.claimedConsumerSlots ↔ c < consumerSlotCeiling ∧ d.consumers c = true := by
  rw [claimedConsumerSlots, mem_filter, mem_range]

/-- After a designation the reader is a claimed slot, if there is one. -/
theorem designateSingleReader_reader (hc : c ∈ r.directory.claimedConsumerSlots) :
    r.designateSingleReader.singleReader ∈ r.directory.claimedConsumerSlots := by
  unfold designateSingleReader
  dsimp only
  split
  · rename_i h
    exact contains_iff_mem.mp h
  cases hslots : r.directory.claimedConsumerSlots with
  | nil =>
    rw [hslots] at hc
    cases hc
  | cons slot slots => exact mem_cons_self ..

theorem designateSingleReader_keeps {r : AdaptiveRing α}
    (h : r.singleReader ∈ r.directory.claimedConsumerSlots) : r.designateSingleReader = r :=
  if_pos (contains_iff_mem.mpr h)

theorem designateSingleReader_reshaped : Reshaped r r.designateSingleReader := by
  unfold designateSingleReader
  dsimp only
  split
  · exact .refl r
  · exact ⟨rfl, rfl, rfl, fun _ h => h, fun h => h⟩

theorem syncTopology_reshaped (epoch : Nat) : Reshaped r (r.syncTopology epoch) ∧
      (r.syncTopology epoch).singleReader = r.designateSingleReader.singleReader := by
  have hdesignated := r.designateSingleReader_reshaped
  obtain ⟨hshape, hreader⟩ := r.designateSingleReader.reshapeForCounts_reshaped
  have hboth := hdesignated.trans hshape
  unfold syncTopology
  dsimp only
  split
  · exact ⟨{ hboth with }, hreader⟩
  · exact ⟨hboth, hreader⟩

/-- A sync touches neither items nor the directory, and leaves a claimed reader in place. -/
theorem ensureSynced_reshaped :
    Reshaped r r.ensureSynced ∧ (r.singleReader ∈ r.directory.claimedConsumerSlots →
        r.ensureSynced.singleReader = r.singleReader) := by
  unfold ensureSynced
  dsimp only
  split
  · exact ⟨.refl r, fun _ => rfl⟩
  · obtain ⟨h, hreader⟩ := r.syncTopology_reshaped r.directory.epoch
    exact ⟨h, fun hclaimed => by rw [hreader, designateSingleReader_keeps hclaimed]⟩

end AdaptiveRing

/-- The order in which a read walks the shapes, were all of them in use. -/
def walkOrder (current : RingShape) : List RingShape :=
  RingShape.all.filter (fun s => s != current) ++ [current]

def Precedes (current s t : RingShape) : Prop :=
  (walkOrder current).idxOf s < (walkOrder current).idxOf t
deriving Decidable

/-- A morph swaps no two shapes that both hold items. -/
def NoSwap (holds : RingShape → Bool) (old new : RingShape) : Prop :=
  ∀ s ∈ RingShape.all, ∀ t ∈ RingShape.all,
    Precedes old s t → Precedes new t s → holds s = false ∨ holds t = false
deriving Decidable

theorem mem_all (s : RingShape) : s ∈ RingShape.all := by cases s <;> decide

theorem mem_walkOrder (current s : RingShape) : s ∈ walkOrder current := by
  cases current <;> cases s <;> decide

theorem walkOrder_nodup (current : RingShape) : (walkOrder current).Nodup := by
  cases current <;> decide

theorem precedes_total (h : s ≠ t) : Precedes current s t ∨ Precedes current t s := by
  revert h
  cases current <;> cases s <;> cases t <;> decide

theorem precedes_current (h : s ≠ current) : Precedes current s current := by
  revert h
  cases current <;> cases s <;> decide

theorem Precedes.asymm (h : Precedes current s t) : ¬ Precedes current t s := Nat.lt_asymm h

theorem walkOrder_pairwise (current : RingShape) :
    (walkOrder current).Pairwise (Precedes current) := by
  cases current <;> decide

/-- A walked shape that precedes `s` has been visited before `s`. -/
theorem mem_of_precedes (h : (walkOrder current).filter used = pre ++ s :: post)
    (ht : used t = true) (hts : Precedes current t s) : t ∈ pre := by
  have hpairwise := (walkOrder_pairwise current).filter used
  have hmem : t ∈ pre ++ s :: post := by
    rw [← h]
    exact mem_filter.mpr ⟨mem_walkOrder current t, ht⟩
  rw [h] at hpairwise
  obtain ⟨-, hcons, -⟩ := pairwise_append.mp hpairwise
  rcases mem_append.mp hmem with hmem | hmem
  · exact hmem
  rcases mem_cons.mp hmem with rfl | hmem
  · exact absurd hts hts.asymm
  · exact absurd (rel_of_pairwise_cons hcons hmem) hts.asymm

/-- A set of shapes by its four members. -/
def shapeSet (spsc mpsc mpmc vyukov : Bool) : RingShape → Bool
  | .spsc => spsc
  | .mpsc => mpsc
  | .mpmc => mpmc
  | .vyukov => vyukov

theorem shapeSet_eq (holds : RingShape → Bool) :
    holds = shapeSet (holds .spsc) (holds .mpsc) (holds .mpmc) (holds .vyukov) := by
  funext s
  cases s <;> rfl

theorem walkOrder_filter_shapeSet : ∀ a b c d : Bool, ∀ old ∈ RingShape.all,
    ∀ new ∈ RingShape.all, NoSwap (shapeSet a b c d) old new →
      (walkOrder old).filter (shapeSet a b c d) = (walkOrder new).filter (shapeSet a b c d) := by
  decide +kernel

/-- The shapes that hold items are walked in the same order before and after. -/
theorem NoSwap.filter_eq (h : NoSwap holds old new) :
    (walkOrder old).filter holds = (walkOrder new).filter holds := by
  rw [shapeSet_eq holds] at h ⊢
  exact walkOrder_filter_shapeSet _ _ _ _ old (mem_all old) new (mem_all new) h

variable {α : Type}

def contents (lane : RingShape → List α) (current : RingShape) : List α :=
  (walkOrder current).flatMap lane

theorem flatMap_filter_of_nil {β : Type} {lane : β → List α} {keep : β → Bool}
    {l : List β} (h : ∀ s ∈ l, keep s = false → lane s = []) :
    (l.filter keep).flatMap lane = l.flatMap lane := by
  induction l with
  | nil => rfl
  | cons s l ih =>
    have ih := ih fun t ht => h t (mem_cons_of_mem _ ht)
    cases hs : keep s with
    | true => rw [filter_cons_of_pos hs, flatMap_cons, flatMap_cons, ih]
    | false =>
      rw [filter_cons_of_neg (by simp [hs]), flatMap_cons, h s (mem_cons_self ..) hs, ih]
      rfl

theorem NoSwap.contents_eq {lane : RingShape → List α} {old new : RingShape}
    (h : NoSwap (fun s => !(lane s).isEmpty) old new) : contents lane old = contents lane new := by
  have hnil : ∀ l : List RingShape, ∀ s ∈ l, (!(lane s).isEmpty) = false → lane s = [] := by
    intro l s _ hs
    simpa using hs
  rw [contents, contents, ← flatMap_filter_of_nil (hnil _), h.filter_eq,
    flatMap_filter_of_nil (hnil _)]

/-- An item taken from the first lane that holds any is the head of the contents. -/
theorem flatMap_pop (hnodup : (pre ++ s :: post).Nodup) (hpre : ∀ t ∈ pre, lane t = [])
    (hs : lane s = x :: lane' s) (hothers : ∀ t, t ≠ s → lane' t = lane t) :
    (pre ++ s :: post).flatMap lane = x :: (pre ++ s :: post).flatMap lane' := by
  obtain ⟨-, hcons, hdisj⟩ := nodup_append'.mp hnodup
  have hpost : ∀ t ∈ post, lane' t = lane t := fun t ht =>
    hothers t fun heq => (nodup_cons.mp hcons).1 (heq ▸ ht)
  have hpre' : ∀ t ∈ pre, lane' t = lane t := fun t ht =>
    hothers t fun heq => hdisj ht (heq ▸ mem_cons_self ..)
  have hnil : pre.flatMap lane = [] := flatMap_eq_nil_iff.mpr hpre
  rw [flatMap_append, flatMap_append, flatMap_cons, flatMap_cons, hs,
    flatMap_congr hpost, flatMap_congr hpre', hnil]
  rfl

theorem contents_push (hs : lane' current = lane current ++ [x])
    (hothers : ∀ t, t ≠ current → lane' t = lane t) :
    contents lane' current = contents lane current ++ [x] := by
  have hrest : ∀ t ∈ RingShape.all.filter (fun s => s != current), lane' t = lane t := by
    intro t ht
    exact hothers t (by simpa using (mem_filter.mp ht).2)
  rw [contents, contents, walkOrder, flatMap_append, flatMap_append,
    flatMap_congr hrest, flatMap_singleton, flatMap_singleton, hs, append_assoc]

theorem walked_eq {r : AdaptiveRing α} (h : r.Marked) :
    r.otherUsedShapes r.shape ++ [r.shape] = (walkOrder r.shape).filter r.used := by
  rw [walkOrder, filter_append, filter_filter, filter_singleton, h]
  simp [AdaptiveRing.otherUsedShapes, Bool.and_comm]

end SubEtha.Ring
