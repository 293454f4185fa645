import SubEtha.Epochs.Pinned

namespace SubEtha.Epochs
open List Option

/-- One slot's versions, newest first, at most `D` of them. -/
structure VersionChain (T : Type) (D : Nat) where
  versions : List (Versioned T)
  bound : versions.length ≤ D

namespace VersionChain

variable {T : Type} {D : Nat}

def empty : VersionChain T D := ⟨[], Nat.zero_le _⟩

def visibleAt (c : VersionChain T D) (pin : Nat) : Option T :=
  (c.versions.find? fun v => v.visibleAt pin).map Versioned.value

def live (c : VersionChain T D) : Option T :=
  (c.versions.head?.filter Versioned.isLive).map Versioned.value

/-- Whether a version is live or was superseded above the horizon. -/
def outlives (horizon : Nat) (v : Versioned T) : Bool :=
  v.died.all fun died => decide (horizon < died)

def sweep (horizon : Nat) (c : VersionChain T D) : VersionChain T D × Nat :=
  let kept := c.versions.filter (outlives horizon)
  (⟨kept, Nat.le_trans (length_filter_le ..) c.bound⟩, c.versions.length - kept.length)

def push (c : VersionChain T D) (v : Versioned T) (room : c.versions.length < D) :
    VersionChain T D :=
  ⟨v :: c.versions, room⟩

def stamp (died : Nat) (v : Versioned T) : Versioned T :=
  if v.isLive then { v with died := some died } else v

def supersede (died : Nat) (c : VersionChain T D) : VersionChain T D :=
  ⟨c.versions.modifyHead (stamp died), by rw [length_modifyHead]; exact c.bound⟩

/-- Every stamp lies at or below `n`, and no version but the head is live. -/
structure Stamped (n : Nat) (c : VersionChain T D) : Prop where
  born : ∀ v ∈ c.versions, v.born ≤ n
  died : ∀ v ∈ c.versions, ∀ died, v.died = some died → died ≤ n
  superseded : c.versions.Pairwise fun _ v => v.isLive = false

theorem stamped_empty (n : Nat) : Stamped n (empty : VersionChain T D) :=
  ⟨nofun, nofun, List.Pairwise.nil⟩

variable {c : VersionChain T D} {n n' p horizon died : Nat}

theorem Stamped.mono (h : Stamped n c) (hle : n ≤ n') : Stamped n' c :=
  ⟨fun v hv => le_trans (h.born v hv) hle,
    fun v hv died hdied => le_trans (h.died v hv died hdied) hle, h.superseded⟩

theorem not_visibleAt {v : Versioned T} (hdied : v.died = some died) (hle : died ≤ p) :
    v.visibleAt p = false := by
  simp [Versioned.visibleAt, hdied, not_lt.mpr hle]

theorem exists_died {v : Versioned T} (h : v.isLive = false) : ∃ died, v.died = some died :=
  isSome_iff_exists.mp (by simpa [Versioned.isLive] using h)

theorem Stamped.visibleAt_eq_live (h : Stamped n c) : c.visibleAt n = c.live := by
  obtain ⟨versions, bound⟩ := c
  cases versions with
  | nil => rfl
  | cons head rest =>
    have hrest : rest.find? (fun v => v.visibleAt n) = none := by
      refine find?_eq_none.mpr fun v hv => ?_
      obtain ⟨died, hdied⟩ := exists_died ((pairwise_cons.mp h.superseded).1 v hv)
      simp [not_visibleAt hdied (h.died v (mem_cons_of_mem _ hv) died hdied)]
    dsimp only [visibleAt, live, head?]
    cases hlive : head.isLive with
    | true =>
      have hborn := h.born head mem_cons_self
      have hnone : head.died = none := isNone_iff_eq_none.mp hlive
      simp [find?, Versioned.visibleAt, hborn, hnone, filter_some, hlive]
    | false =>
      obtain ⟨died, hdied⟩ := exists_died hlive
      have hpast := not_visibleAt hdied (h.died head mem_cons_self died hdied)
      simp [find?, hpast, hrest, filter_some, hlive]

theorem stamp_outlives (hp : p < died) (v : Versioned T) :
    outlives p (stamp died v) = outlives p v := by
  unfold stamp
  split
  · rename_i hlive
    have hnone : v.died = none := isNone_iff_eq_none.mp hlive
    simp [outlives, hnone, hp]
  · rfl

theorem stamp_value (v : Versioned T) : (stamp died v).value = v.value := by
  unfold stamp
  split <;> rfl

theorem stamp_born (v : Versioned T) : (stamp died v).born = v.born := by
  unfold stamp
  split <;> rfl

theorem stamp_visibleAt (hp : p < died) (v : Versioned T) :
    (stamp died v).visibleAt p = v.visibleAt p :=
  congrArg₂ (fun born late => decide (born ≤ p) && late) (stamp_born v) (stamp_outlives hp v)

theorem stamp_isLive (v : Versioned T) : (stamp died v).isLive = false := by
  unfold stamp
  split
  · rfl
  · rename_i h
    exact Bool.eq_false_iff.mpr h

theorem stamp_died (h : (stamp died v).died = some e) : e = died ∨ v.died = some e := by
  unfold stamp at h
  split at h
  · exact .inl (some.inj h).symm
  · exact .inr h

theorem mem_supersede (h : v ∈ (c.supersede died).versions) :
    v ∈ c.versions ∨ ∃ w ∈ c.versions, v = stamp died w := by
  obtain ⟨versions, bound⟩ := c
  cases versions with
  | nil => cases h
  | cons head rest =>
    rcases mem_cons.mp h with rfl | h
    · exact .inr ⟨head, mem_cons_self, rfl⟩
    · exact .inl (mem_cons_of_mem _ h)

theorem forall_supersede {P : Versioned T → Prop} (hP : ∀ v, P (stamp died v) ↔ P v) :
    (∀ v ∈ (c.supersede died).versions, P v) ↔ ∀ v ∈ c.versions, P v := by
  obtain ⟨versions, bound⟩ := c
  cases versions with
  | nil => exact Iff.rfl
  | cons head rest => simp [supersede, hP]

theorem supersede_visibleAt (hp : p < died) : (c.supersede died).visibleAt p = c.visibleAt p := by
  obtain ⟨versions, bound⟩ := c
  cases versions with
  | nil => rfl
  | cons head rest =>
    dsimp only [supersede, visibleAt, modifyHead, find?]
    rw [stamp_visibleAt hp]
    cases head.visibleAt p with
    | true => exact congrArg some (stamp_value head)
    | false => rfl

theorem sweep_visibleAt (hp : horizon ≤ p) : (c.sweep horizon).1.visibleAt p = c.visibleAt p := by
  dsimp only [sweep, visibleAt]
  rw [find?_filter]
  congr 2
  funext v
  cases hdied : v.died with
  | none => simp [outlives, hdied]
  | some died =>
    by_cases hle : died ≤ p
    · simp [not_visibleAt hdied hle]
    · have hlt : horizon < died := by omega
      simp [outlives, hdied, hlt]

theorem push_visibleAt (room : c.versions.length < D) (hp : p < v.born) :
    (c.push v room).visibleAt p = c.visibleAt p := by
  have hnot : v.visibleAt p = false := by simp [Versioned.visibleAt, not_le.mpr hp]
  simp [visibleAt, push, hnot]

variable (h : Stamped n c)
include h

theorem Stamped.supersede (hdied : died ≤ n) : Stamped n (c.supersede died) := by
  refine ⟨fun v hv => ?_, fun v hv e he => ?_, ?_⟩
  · rcases mem_supersede hv with hv | ⟨w, hw, rfl⟩
    · exact h.born v hv
    · rw [stamp_born]
      exact h.born w hw
  · rcases mem_supersede hv with hv | ⟨w, hw, rfl⟩
    · exact h.died v hv e he
    rcases stamp_died he with rfl | he
    · exact hdied
    · exact h.died w hw e he
  · obtain ⟨versions, bound⟩ := c
    cases versions with
    | nil => exact List.Pairwise.nil
    | cons head rest => exact pairwise_cons.mpr (pairwise_cons.mp h.superseded)

theorem Stamped.none_live : ∀ v ∈ (c.supersede died).versions, v.isLive = false := by
  obtain ⟨versions, bound⟩ := c
  cases versions with
  | nil => exact nofun
  | cons head rest =>
    intro v hv
    rcases mem_cons.mp hv with rfl | hv
    · exact stamp_isLive head
    · exact (pairwise_cons.mp h.superseded).1 v hv

/-- Superseded at `n`, the chain keeps what the oldest pin of those below `n` did not outlive. -/
theorem Stamped.kept_iff {β : Type} {pins : List β} {epoch : β → Nat}
    (hhorizon : ∀ died ≤ n, horizon < died ↔ ∃ p ∈ pins, epoch p < died)
    (hpins : ∀ p ∈ pins, epoch p < n) : (∀ v ∈ (c.supersede n).versions, outlives horizon v) ↔
      ∀ v ∈ c.versions, ∃ p ∈ pins, outlives (epoch p) v := by
  have hdead : ∀ v ∈ (c.supersede n).versions,
      outlives horizon v ↔ ∃ p ∈ pins, outlives (epoch p) v := by
    intro v hv
    obtain ⟨died, hdied⟩ := exists_died (h.none_live v hv)
    simp [outlives, hdied, hhorizon died ((h.supersede le_rfl).died v hv died hdied)]
  refine (forall₂_congr hdead).trans (forall_supersede fun v => exists_congr fun p => ?_)
  exact and_congr_right fun hp => by rw [stamp_outlives (hpins p hp)]

theorem Stamped.sweep : Stamped n (c.sweep horizon).1 := ⟨fun v hv => h.born v (mem_filter.mp hv).1,
    fun v hv => h.died v (mem_filter.mp hv).1, h.superseded.filter _⟩

theorem Stamped.push (hnone : ∀ v ∈ c.versions, v.isLive = false) {born : Nat}
    (hborn : born ≤ n) (value : T) (room : c.versions.length < D) :
    Stamped n (c.push ⟨born, none, value⟩ room) := by
  refine ⟨fun v hv => ?_, fun v hv e he => ?_, pairwise_cons.mpr ⟨hnone, h.superseded⟩⟩
  · rcases mem_cons.mp hv with rfl | hv
    · exact hborn
    · exact h.born v hv
  · rcases mem_cons.mp hv with rfl | hv
    · cases he
    · exact h.died v hv e he

end VersionChain

inductive SlabError
  | outOfBounds
deriving DecidableEq

inductive VersionedSlabError
  | pinned
  | slab (e : SlabError)
deriving DecidableEq

structure SharedVersionedSlab (T : Type) (D : Nat) where
  slots : List (VersionChain T D)
  epochs : SharedEpochs

namespace SharedVersionedSlab

variable {T : Type} {D : Nat}

def create (capacity maxPins : Nat) : SharedVersionedSlab T D :=
  ⟨replicate capacity .empty, .create maxPins⟩

section
variable (s : SharedVersionedSlab T D)

/-- `SharedSlab::get`, with what the caller makes of the slot. -/
def slot (i : Nat) {α : Type} (f : VersionChain T D → α) : Except VersionedSlabError α :=
  match s.slots[i]? with
  | none => .error (.slab .outOfBounds)
  | some c => .ok (f c)

def get (i : Nat) : Except VersionedSlabError (Option T) :=
  s.slot i VersionChain.live

def getAt (i pin : Nat) : Except VersionedSlabError (Option T) :=
  s.slot i fun c => c.visibleAt pin

def store (i : Nat) (c : VersionChain T D) : SharedVersionedSlab T D :=
  { s with slots := s.slots.set i c }

/-- Push a version where there is room for it; a full chain is left unstored. -/
def place (i : Nat) (v : Versioned T) (c : VersionChain T D) :
    SharedVersionedSlab T D × Except VersionedSlabError Unit :=
  if room : c.versions.length < D then (s.store i (c.push v room), .ok ()) else (s, .error .pinned)

/-- `none` where the horizon, which only a full chain reads, never returns. -/
def setAt (i : Nat) (value : T) (born : Nat) :
    Option (SharedVersionedSlab T D × Except VersionedSlabError Unit) :=
  match s.slots[i]? with
  | none => some (s, .error (.slab .outOfBounds))
  | some c =>
    let c := c.supersede born
    if c.versions.length < D then some (s.place i ⟨born, none, value⟩ c)
    else s.epochs.reclaimHorizon.map fun horizon =>
      s.place i ⟨born, none, value⟩ (c.sweep horizon).1

def set (i : Nat) (value : T) : Option (SharedVersionedSlab T D × Except VersionedSlabError Unit) :=
  let (born, epochs) := s.epochs.advance
  { s with epochs := epochs }.setAt i value born

def retireAt (i died : Nat) : SharedVersionedSlab T D × Except VersionedSlabError (Option T) :=
  match s.slots[i]? with
  | none => (s, .error (.slab .outOfBounds))
  | some c =>
    match c.versions.head? with
    | none => (s, .ok none)
    | some head =>
      if head.isLive then (s.store i (c.supersede died), .ok (some head.value)) else (s, .ok none)

def retire (i : Nat) : SharedVersionedSlab T D × Except VersionedSlabError (Option T) :=
  let (died, epochs) := s.epochs.advance
  { s with epochs := epochs }.retireAt i died

def sweepSlot (i : Nat) : Option (SharedVersionedSlab T D × Except VersionedSlabError Nat) :=
  match s.slots[i]? with
  | none => some (s, .error (.slab .outOfBounds))
  | some c => s.epochs.reclaimHorizon.map fun horizon =>
    let (c, dropped) := c.sweep horizon
    (if 0 < dropped then s.store i c else s, .ok dropped)

end

theorem place_pinned_iff {s : SharedVersionedSlab T D} {v : Versioned T} :
    (∃ s', s.place i v c = (s', .error .pinned)) ↔ D ≤ c.versions.length := by
  unfold place
  split
  · simpa
  · simpa using not_lt.mp ‹_›

/-- What a call that writes at most one slot leaves: the epochs, the reads at `p` for
each `p` that `fixed` allows, and the bound on the stamps. -/
structure Wrote (s s' : SharedVersionedSlab T D) (fixed : Nat → Prop) (n : Nat) : Prop where
  epochs : s'.epochs = s.epochs
  reads : ∀ p, fixed p → ∀ j, s'.getAt j p = s.getAt j p
  stamped : ∀ c ∈ s'.slots, c.Stamped n

variable {s s' : SharedVersionedSlab T D} {n horizon : Nat}

section
variable (hs : ∀ c ∈ s.slots, c.Stamped n)
include hs

theorem wrote_same : Wrote s s fixed n := ⟨rfl, fun _ _ _ => rfl, hs⟩

theorem wrote_store (hc : s.slots[i]? = some c)
    (hreads : ∀ p, fixed p → c'.visibleAt p = c.visibleAt p) (hc' : c'.Stamped n) :
    Wrote s (s.store i c') fixed n := by
  refine ⟨rfl, fun p hp j => ?_, fun d hd => ?_⟩
  · dsimp only [getAt, slot, store]
    by_cases hj : i = j
    · subst hj
      obtain ⟨hlt, -⟩ := List.getElem_of_getElem? hc
      rw [getElem?_set_self hlt, hc]
      exact congrArg Except.ok (hreads p hp)
    · rw [getElem?_set_ne hj]
  · rcases mem_or_eq_of_mem_set hd with hd | rfl
    · exact hs d hd
    · exact hc'

theorem place_wrote (hc : s.slots[i]? = some c)
    (hreads : ∀ p, fixed p → c'.visibleAt p = c.visibleAt p) (hc' : c'.Stamped n)
    (hnone : ∀ v ∈ c'.versions, v.isLive = false) (hfixed : ∀ p, fixed p → p < born)
    (hborn : born ≤ n) (value : T) : Wrote s (s.place i ⟨born, none, value⟩ c').1 fixed n := by
  unfold place
  split
  · rename_i room
    refine wrote_store hs hc (fun p hp => ?_) (hc'.push hnone hborn value room)
    rw [VersionChain.push_visibleAt room (hfixed p hp), hreads p hp]
  · exact wrote_same hs

theorem setAt_wrote (hhorizon : s.epochs.reclaimHorizon = some horizon) (hborn : born ≤ n)
    (h : s.setAt i value born = some (s', res)) :
    Wrote s s' (fun p => horizon ≤ p ∧ p < born) n := by
  unfold setAt at h
  split at h
  · cases h
    exact wrote_same hs
  rename_i c hc
  have hstamped := hs c (mem_of_getElem? hc)
  have hsuper := hstamped.supersede hborn
  have hnone : ∀ v ∈ (c.supersede born).versions, v.isLive = false := hstamped.none_live
  dsimp only at h
  split at h
  · have hplace : Wrote s (s.place i ⟨born, none, value⟩ (c.supersede born)).1
        (fun p => horizon ≤ p ∧ p < born) n :=
      place_wrote hs hc (fun p hp => VersionChain.supersede_visibleAt hp.2) hsuper hnone
        (fun p hp => hp.2) hborn value
    rw [some.inj h] at hplace
    exact hplace
  have hplace : Wrote s (s.place i ⟨born, none, value⟩ ((c.supersede born).sweep horizon).1).1
      (fun p => horizon ≤ p ∧ p < born) n := by
    refine place_wrote hs hc (fun p hp => ?_) hsuper.sweep
      (fun v hv => hnone v (mem_filter.mp hv).1) (fun p hp => hp.2) hborn value
    rw [VersionChain.sweep_visibleAt hp.1, VersionChain.supersede_visibleAt hp.2]
  rw [hhorizon, map_some] at h
  rw [some.inj h] at hplace
  exact hplace

end

theorem setAt_returns (hhorizon : s.epochs.reclaimHorizon = some horizon) (i : Nat) (value : T)
    (born : Nat) : ∃ r, s.setAt i value born = some r := by
  unfold setAt
  split
  · exact ⟨_, rfl⟩
  dsimp only
  split
  · exact ⟨_, rfl⟩
  · rw [hhorizon]
    exact ⟨_, rfl⟩

theorem retireAt_wrote (hs : ∀ c ∈ s.slots, c.Stamped n) (i : Nat) (hdied : died ≤ n) :
    Wrote s (s.retireAt i died).1 (fun p => p < died) n := by
  unfold retireAt
  split
  · exact wrote_same hs
  rename_i c hc
  split
  · exact wrote_same hs
  split
  · exact wrote_store hs hc (fun p hp => VersionChain.supersede_visibleAt hp)
      ((hs c (mem_of_getElem? hc)).supersede hdied)
  · exact wrote_same hs

theorem sweepSlot_wrote (hs : ∀ c ∈ s.slots, c.Stamped n)
    (hhorizon : s.epochs.reclaimHorizon = some horizon) (h : s.sweepSlot i = some (s', res)) :
    Wrote s s' (fun p => horizon ≤ p) n := by
  unfold sweepSlot at h
  split at h
  · cases h
    exact wrote_same hs
  rename_i c hc
  rw [hhorizon] at h
  cases h
  split
  · exact wrote_store hs hc (fun p hp => VersionChain.sweep_visibleAt hp)
      (hs c (mem_of_getElem? hc)).sweep
  · exact wrote_same hs

theorem sweepSlot_returns (hhorizon : s.epochs.reclaimHorizon = some horizon) (i : Nat) :
    ∃ r, s.sweepSlot i = some r := by
  unfold sweepSlot
  split
  · exact ⟨_, rfl⟩
  · rw [hhorizon]
    exact ⟨_, rfl⟩

theorem getAt_eq_get (hs : ∀ c ∈ s.slots, c.Stamped n) (i : Nat) : s.getAt i n = s.get i := by
  dsimp only [getAt, get, slot]
  split
  · rfl
  · rename_i c hc
    exact congrArg Except.ok (hs c (mem_of_getElem? hc)).visibleAt_eq_live

end SharedVersionedSlab
end SubEtha.Epochs
