import Mathlib.Algebra.Group.Nat.Defs
import Mathlib.Data.Prod.Lex
import SubEtha.Lib.Runs

namespace SubEtha.Coord
open List
open Lib (run EveryStep)

structure Hlc where
  physicalUs : Nat
  logical : Nat
deriving DecidableEq

namespace Hlc

instance : LinearOrder Hlc :=
  LinearOrder.lift' (fun h => toLex (h.physicalUs, h.logical)) fun a b h => by
    cases a; cases b; cases h; rfl

theorem lt_iff {a b : Hlc} : a < b ↔
    a.physicalUs < b.physicalUs ∨ a.physicalUs = b.physicalUs ∧ a.logical < b.logical :=
  Prod.Lex.toLex_lt_toLex

/-- The logical part after a local event, before it is cut to 64 bits. -/
def tickLogical (prev : Hlc) (wall : Nat) : Nat :=
  if max prev.physicalUs wall = prev.physicalUs then prev.logical + 1 else 0

def tick (prev : Hlc) (wall : Nat) : Hlc :=
  ⟨max prev.physicalUs wall, prev.tickLogical wall % 2 ^ 64⟩

/-- The logical part after a merge, before it is cut to 64 bits. -/
def mergeLogical (prev remote : Hlc) (wall : Nat) : Nat :=
  let phys := max (max prev.physicalUs remote.physicalUs) wall
  if phys = prev.physicalUs ∧ phys = remote.physicalUs then max prev.logical remote.logical + 1
  else if phys = prev.physicalUs then prev.logical + 1
  else if phys = remote.physicalUs then remote.logical + 1
  else 0

def merge (prev remote : Hlc) (wall : Nat) : Hlc :=
  ⟨max (max prev.physicalUs remote.physicalUs) wall, prev.mergeLogical remote wall % 2 ^ 64⟩

/-- The timestamp is behind one of the physical parts `others`, or has a next logical part. -/
def Spare (h : Hlc) (others : List Nat) : Prop :=
  (∀ p ∈ others, p ≤ h.physicalUs) → h.logical < 2 ^ 64 - 1
deriving Decidable

theorem lt_tick {prev : Hlc} (h : prev.Spare [wall]) : prev < prev.tick wall := by
  rw [lt_iff, tick]
  dsimp only [tickLogical]
  split
  · have hlogical := h (by simp; omega)
    omega
  · omega

theorem lt_merge {prev remote : Hlc} (hprev : prev.Spare [remote.physicalUs, wall])
    (hremote : remote.Spare [prev.physicalUs, wall]) :
    prev < prev.merge remote wall ∧ remote < prev.merge remote wall := by
  simp only [Spare, mem_cons, not_mem_nil, or_false, forall_eq_or_imp, forall_eq] at hprev hremote
  rw [lt_iff, lt_iff, merge]
  dsimp only [mergeLogical]
  split
  · omega
  split
  · omega
  · split <;> omega

end Hlc

structure HlcSlot where
  pid : Nat
  hlc : Hlc

def emptyPid : Nat := 0

structure SharedFenceClock where
  slots : List HlcSlot
  cachedUs : Nat
  globalFence : Hlc

variable {next : Hlc → Nat → Hlc}

namespace SharedFenceClock

def create (capacity : Nat) : SharedFenceClock :=
  ⟨replicate capacity ⟨emptyPid, ⟨0, 0⟩⟩, 0, ⟨0, 0⟩⟩

variable (c : SharedFenceClock)

/-- The fresher of the process's own reading and the shared one, which it is published to. -/
def sharedNowUs (localUs : Nat) : SharedFenceClock × Nat :=
  if c.cachedUs < localUs then ({ c with cachedUs := localUs }, localUs) else (c, c.cachedUs)

/-- Claim the first empty slot, if there is one; the outer `none` is the assertion on the pid. -/
def register (pid localUs : Nat) : Option (SharedFenceClock × Option Nat) :=
  if pid = emptyPid then none
  else
    match c.slots.findIdx? fun s => s.pid == emptyPid with
    | none => some (c, none)
    | some i =>
      some ({ (c.sharedNowUs localUs).1 with slots := c.slots.set i ⟨pid, ⟨0, 0⟩⟩ }, some i)

def unregister (idx : Nat) : SharedFenceClock :=
  { c with slots := c.slots.set idx ⟨emptyPid, ⟨0, 0⟩⟩ }

/-- Advance a slot's timestamp by the wall clock; `none` is the assertion on the index. -/
def advance (idx localUs : Nat) (next : Hlc → Nat → Hlc) :
    Option (SharedFenceClock × Hlc) :=
  c.slots[idx]?.map fun s =>
    let now := c.sharedNowUs localUs
    let hlc := next s.hlc now.2
    ({ now.1 with slots := now.1.slots.set idx { s with hlc := hlc } }, hlc)

def tick (c : SharedFenceClock) (idx localUs : Nat) : Option (SharedFenceClock × Hlc) :=
  c.advance idx localUs Hlc.tick

def merge (c : SharedFenceClock) (idx : Nat) (remote : Hlc) (localUs : Nat) :
    Option (SharedFenceClock × Hlc) :=
  c.advance idx localUs fun prev => prev.merge remote

def computeGlobalFence : Hlc :=
  c.slots.foldl (fun fence s =>
    if s.pid = emptyPid then fence else if fence < s.hlc then s.hlc else fence) ⟨0, 0⟩

def publishGlobalFence : SharedFenceClock × Hlc :=
  ({ c with globalFence := c.computeGlobalFence }, c.computeGlobalFence)

variable {c : SharedFenceClock}

theorem le_fence_iff : f ≤ c.computeGlobalFence ↔
    f ≤ ⟨0, 0⟩ ∨ ∃ s ∈ c.slots, s.pid ≠ emptyPid ∧ f ≤ s.hlc := by
  unfold computeGlobalFence
  generalize (⟨0, 0⟩ : Hlc) = m
  induction c.slots generalizing m with
  | nil => simp
  | cons s slots ih =>
    simp only [foldl_cons, ih, mem_cons, exists_eq_or_imp, ← or_assoc]
    refine or_congr_left ?_
    split
    · simp [*]
    split
    · simp only [*, ne_eq, not_false_eq_true, true_and]
      exact (or_iff_right_of_imp fun h => h.trans (le_of_lt ‹_›)).symm
    · simp only [*, ne_eq, not_false_eq_true, true_and]
      exact (or_iff_left_of_imp fun h => h.trans (not_lt.mp ‹_›)).symm

theorem advance_spec (h : c.advance idx localUs next = some (c', hlc)) :
    ∃ s, c.slots[idx]? = some s ∧ hlc = next s.hlc (c.sharedNowUs localUs).2 ∧
      c'.slots = c.slots.set idx { s with hlc := hlc } := by
  obtain ⟨s, hs, heq⟩ := Option.map_eq_some_iff.mp h
  have hslots : (c.sharedNowUs localUs).1.slots = c.slots := by
    unfold sharedNowUs
    split <;> rfl
  obtain ⟨rfl, rfl⟩ := Prod.mk.inj heq
  exact ⟨s, hs, rfl, congrArg (fun l : List HlcSlot => l.set idx _) hslots⟩

/-- Every registered slot is still registered and has not gone back. -/
def Grows (c c' : SharedFenceClock) : Prop :=
  ∀ (i : Nat) s, c.slots[i]? = some s → s.pid ≠ emptyPid →
    ∃ s', c'.slots[i]? = some s' ∧ s'.pid ≠ emptyPid ∧ s.hlc ≤ s'.hlc

variable {c' : SharedFenceClock}

theorem grows_set (hslots : c'.slots = c.slots.set idx new) (hs : c.slots[idx]? = some s)
    (hnew : s.pid ≠ emptyPid → new.pid ≠ emptyPid ∧ s.hlc ≤ new.hlc) : Grows c c' := by
  intro i t ht hpid
  by_cases hi : i = idx
  · subst hi
    cases hs.symm.trans ht
    refine ⟨new, ?_, hnew hpid⟩
    rw [hslots, getElem?_set_self (List.getElem?_eq_some_iff.mp ht).1]
  · exact ⟨t, by rw [hslots, getElem?_set_ne (Ne.symm hi), ht], hpid, le_rfl⟩

theorem Grows.fence_le (h : Grows c c') (hf : f ≤ c.computeGlobalFence) :
    f ≤ c'.computeGlobalFence := by
  rw [le_fence_iff] at hf ⊢
  refine hf.imp_right ?_
  rintro ⟨s, hs, hpid, hle⟩
  obtain ⟨i, hi⟩ := mem_iff_getElem?.mp hs
  obtain ⟨s', hs', hpid', hle'⟩ := h i s hi hpid
  exact ⟨s', mem_of_getElem? hs', hpid', hle.trans hle'⟩

end SharedFenceClock

inductive FenceCall
  | register (pid localUs : Nat)
  | unregister (idx : Nat)
  | tick (idx localUs : Nat)
  | merge (idx : Nat) (remote : Hlc) (localUs : Nat)
  | publish

def FenceCall.vacates : FenceCall → Bool
  | .unregister _ => true
  | _ => false

/-- A timestamp that a slot returned, and the one it was merged with. -/
structure Stamp where
  slot : Nat
  remote : Option Hlc
  hlc : Hlc
deriving DecidableEq

/-- A clock in use: the timestamps of each slot since it was last vacated, and the fences
published since any slot was. -/
structure FenceRun where
  clock : SharedFenceClock
  log : List Stamp
  fences : List Hlc

namespace FenceRun
open SharedFenceClock (Grows grows_set advance_spec le_fence_iff)

/-- One call; `none` is a failed assertion. -/
def step (w : FenceRun) : FenceCall → Option FenceRun
  | .register pid localUs => (w.clock.register pid localUs).map fun (c, _) => { w with clock := c }
  | .unregister idx =>
    some ⟨w.clock.unregister idx, w.log.filter fun a => a.slot != idx, []⟩
  | .tick idx localUs =>
    (w.clock.tick idx localUs).map fun (c, h) => { w with clock := c, log := w.log ++ [⟨idx, none, h⟩] }
  | .merge idx remote localUs =>
    (w.clock.merge idx remote localUs).map fun (c, h) =>
      { w with clock := c, log := w.log ++ [⟨idx, some remote, h⟩] }
  | .publish =>
    let (c, fence) := w.clock.publishGlobalFence
    some { w with clock := c, fences := w.fences ++ [fence] }

/-- A tick or merge is of a registered slot, and no timestamp it goes on from is at its last
logical part. -/
def Fits (w : FenceRun) : FenceCall → Prop
  | .tick idx localUs => ∀ s ∈ w.clock.slots[idx]?, s.pid ≠ emptyPid ∧
      s.hlc.Spare [(w.clock.sharedNowUs localUs).2]
  | .merge idx remote localUs => ∀ s ∈ w.clock.slots[idx]?, s.pid ≠ emptyPid ∧
      s.hlc.Spare [remote.physicalUs, (w.clock.sharedNowUs localUs).2] ∧
      remote.Spare [s.hlc.physicalUs, (w.clock.sharedNowUs localUs).2]
  | _ => True

instance (w : FenceRun) : DecidablePred w.Fits := fun c => by
  cases c <;> unfold Fits <;> infer_instance

/-- What a slot returned lies at or below its timestamp, in the order of the calls. -/
structure Ordered (w : FenceRun) : Prop where
  standing : ∀ a ∈ w.log, ∃ s, w.clock.slots[a.slot]? = some s ∧ s.pid ≠ emptyPid ∧ a.hlc ≤ s.hlc
  ascending : w.log.Pairwise fun a b => a.slot = b.slot → a.hlc < b.hlc
  merged : ∀ b ∈ w.log, ∀ r, b.remote = some r → r < b.hlc
  fences : ∀ f ∈ w.fences, f ≤ w.clock.computeGlobalFence

theorem ordered_start (clock : SharedFenceClock) : Ordered ⟨clock, [], []⟩ :=
  ⟨nofun, .nil, nofun, nofun⟩

variable {w : FenceRun}

theorem Ordered.grows (h : Ordered w) (hgrows : Grows w.clock c) :
    Ordered { w with clock := c } := by
  refine { h with standing := fun a ha => ?_, fences := fun f hf => hgrows.fence_le (h.fences f hf) }
  obtain ⟨s, hs, hpid, hle⟩ := h.standing a ha
  obtain ⟨s', hs', hpid', hle'⟩ := hgrows _ s hs hpid
  exact ⟨s', hs', hpid', hle.trans hle'⟩

/-- A timestamp above that of its slot, and above what it was merged with. -/
theorem Ordered.stamp (h : Ordered w) (hfits : ∀ s ∈ w.clock.slots[idx]?, s.pid ≠ emptyPid ∧
      s.hlc < next s.hlc (w.clock.sharedNowUs localUs).2 ∧
      ∀ r, remote = some r → r < next s.hlc (w.clock.sharedNowUs localUs).2)
    (hadvance : w.clock.advance idx localUs next = some (c, hlc)) :
    Ordered { w with clock := c, log := w.log ++ [⟨idx, remote, hlc⟩] } := by
  obtain ⟨s, hs, rfl, hslots⟩ := advance_spec hadvance
  obtain ⟨hpid, hlt, hremote⟩ := hfits s hs
  have hgrown := h.grows (grows_set hslots hs fun _ => ⟨hpid, hlt.le⟩)
  refine { hgrown with
    standing := fun a ha => ?_
    ascending := pairwise_append.mpr ⟨h.ascending, pairwise_singleton .., fun a ha b hb hslot => ?_⟩
    merged := fun b hb => ?_ }
  · rcases mem_append.mp ha with ha | ha
    · exact hgrown.standing a ha
    cases mem_singleton.mp ha
    have hlen := (List.getElem?_eq_some_iff.mp hs).1
    exact ⟨_, (congrArg (·[idx]?) hslots).trans (getElem?_set_self hlen), hpid, le_rfl⟩
  · cases mem_singleton.mp hb
    obtain ⟨t, ht, -, hle⟩ := h.standing a ha
    rw [show a.slot = idx from hslot] at ht
    cases hs.symm.trans ht
    exact lt_of_le_of_lt hle hlt
  · rcases mem_append.mp hb with hb | hb
    · exact h.merged b hb
    · cases mem_singleton.mp hb
      exact hremote

theorem Ordered.step {w' : FenceRun} (h : Ordered w) (hfits : w.Fits call)
    (hstep : w.step call = some w') : Ordered w' := by
  cases call with
  | register pid localUs =>
    obtain ⟨⟨c, i⟩, hreg, rfl⟩ := Option.map_eq_some_iff.mp hstep
    unfold SharedFenceClock.register at hreg
    split at hreg
    · cases hreg
    split at hreg
    · cases hreg
      exact h
    rename_i i hi
    cases hreg
    obtain ⟨hlt, hempty, -⟩ := findIdx?_eq_some_iff_getElem.mp hi
    refine h.grows (grows_set rfl (getElem?_eq_getElem hlt) fun hpid => ?_)
    exact absurd (beq_iff_eq.mp hempty) hpid
  | unregister idx =>
    cases hstep
    refine ⟨fun a ha => ?_, h.ascending.filter _, fun b hb => h.merged b (mem_filter.mp hb).1, nofun⟩
    obtain ⟨ha, hne⟩ := mem_filter.mp ha
    obtain ⟨s, hs, hrest⟩ := h.standing a ha
    exact ⟨s, (getElem?_set_ne (bne_iff_ne.mp hne).symm).trans hs, hrest⟩
  | tick idx localUs =>
    obtain ⟨⟨c, hlc⟩, htick, rfl⟩ := Option.map_eq_some_iff.mp hstep
    exact h.stamp (fun s hs => ⟨(hfits s hs).1, Hlc.lt_tick (hfits s hs).2, nofun⟩) htick
  | merge idx remote localUs =>
    obtain ⟨⟨c, hlc⟩, hmerge, rfl⟩ := Option.map_eq_some_iff.mp hstep
    refine h.stamp (fun s hs => ?_) hmerge
    obtain ⟨hpid, hown, hother⟩ := hfits s hs
    obtain ⟨hprev, hremote⟩ := Hlc.lt_merge hown hother
    exact ⟨hpid, hprev, fun r hr => Option.some.inj hr ▸ hremote⟩
  | publish =>
    cases hstep
    refine { h with fences := fun f hf => ?_ }
    rcases mem_append.mp hf with hf | hf
    · exact h.fences f hf
    · exact le_of_eq (mem_singleton.mp hf)

/-- Event `i` comes before `j` on one slot, or `j` merges what `i` returned. -/
def Precedes (log : List Stamp) (i j : Nat) : Prop :=
  i < j ∧ ∃ a b, log[i]? = some a ∧ log[j]? = some b ∧ (a.slot = b.slot ∨ b.remote = some a.hlc)

theorem Ordered.precedes (h : Ordered w) (hij : Precedes w.log i j) :
    ∃ a b, w.log[i]? = some a ∧ w.log[j]? = some b ∧ a.hlc < b.hlc := by
  obtain ⟨hlt, a, b, ha, hb, hslot | hmerged⟩ := hij
  · obtain ⟨hi, rfl⟩ := List.getElem?_eq_some_iff.mp ha
    obtain ⟨hj, rfl⟩ := List.getElem?_eq_some_iff.mp hb
    exact ⟨_, _, ha, hb, pairwise_iff_getElem.mp h.ascending i j hi hj hlt hslot⟩
  · exact ⟨a, b, ha, hb, h.merged b (mem_of_getElem? hb) _ hmerged⟩

/-- In a run without an unregister, an event that happens before another returns a smaller
timestamp, where no call goes on from a timestamp at its last logical part. -/
theorem timestamps_follow_causality {clock : SharedFenceClock} {calls : List FenceCall} {w : FenceRun}
    (hok : EveryStep step (fun w c => w.Fits c ∧ c.vacates = false) ⟨clock, [], []⟩ calls)
    (hrun : run step ⟨clock, [], []⟩ calls = some w) {i j : Nat}
    (hbefore : Relation.TransGen (Precedes w.log) i j) :
    ∃ a b, w.log[i]? = some a ∧ w.log[j]? = some b ∧ a.hlc < b.hlc := by
  have h : Ordered w := Lib.run_invariant (fun _ _ _ h hok hstep => h.step hok.1 hstep)
    (ordered_start clock) hok hrun
  induction hbefore with
  | single hij => exact h.precedes hij
  | tail _ hij ih =>
    obtain ⟨a, b, ha, hb, hlt⟩ := ih
    obtain ⟨b', c, hb', hc, hlt'⟩ := h.precedes hij
    cases hb.symm.trans hb'
    exact ⟨a, c, ha, hc, hlt.trans hlt'⟩

/-- The second slot merges what the first returned. -/
def handedOver : List FenceCall :=
  [.register 7 5, .register 8 5, .tick 0 5, .merge 1 ⟨5, 0⟩ 4]

theorem timestamps_follow_causality_handedOver :
    ∃ w, run step ⟨.create 2, [], []⟩ handedOver = some w ∧
      ∃ a b, w.log[0]? = some a ∧ w.log[1]? = some b ∧ a.hlc < b.hlc := by
  have hok : EveryStep step (fun w c => w.Fits c ∧ c.vacates = false) ⟨.create 2, [], []⟩ handedOver := by
    decide
  exact ⟨_, rfl, timestamps_follow_causality hok rfl
    (.single ⟨by decide, _, _, rfl, rfl, .inr rfl⟩)⟩

/-- A merge brings the logical part to its last value, and the next tick wraps it. -/
theorem logical_part_wraps :
    ∃ w, run step ⟨.create 1, [], []⟩ [.register 7 1, .merge 0 ⟨9, 2 ^ 64 - 2⟩ 1, .tick 0 1] = some w ∧
      w.log.map Stamp.hlc = [⟨9, 2 ^ 64 - 1⟩, ⟨9, 0⟩] ∧ Precedes w.log 0 1 :=
  ⟨_, rfl, by decide, by decide, _, _, rfl, rfl, .inl rfl⟩

/-- Each fence is at or above every timestamp returned by a slot since it was last vacated and
every fence published since any slot was, where no call goes on from a timestamp at its last
logical part. -/
theorem fence_covers_standing {capacity : Nat} {calls : List FenceCall} {w : FenceRun}
    (hok : EveryStep step Fits ⟨.create capacity, [], []⟩ calls)
    (hrun : run step ⟨.create capacity, [], []⟩ calls = some w) :
    (∀ a ∈ w.log, a.hlc ≤ w.clock.publishGlobalFence.2) ∧
      ∀ f ∈ w.fences, f ≤ w.clock.publishGlobalFence.2 := by
  have h : Ordered w := Lib.run_invariant (fun _ _ _ h hok hstep => h.step hok hstep)
    (ordered_start _) hok hrun
  refine ⟨fun a ha => ?_, h.fences⟩
  obtain ⟨s, hs, hpid, hle⟩ := h.standing a ha
  exact le_fence_iff.mpr (.inr ⟨s, mem_of_getElem? hs, hpid, hle⟩)

/-- A slot is vacated and used again, at an earlier wall clock. -/
def reused : List FenceCall :=
  [.register 7 5, .tick 0 5, .unregister 0, .register 8 5, .tick 0 4, .publish, .tick 0 4]

theorem fence_covers_standing_reused : ∃ w, run step ⟨.create 1, [], []⟩ reused = some w ∧
      (∀ a ∈ w.log, a.hlc ≤ w.clock.publishGlobalFence.2) ∧
        ∀ f ∈ w.fences, f ≤ w.clock.publishGlobalFence.2 := by
  have hok : EveryStep step Fits ⟨.create 1, [], []⟩ reused := by decide
  exact ⟨_, rfl, fence_covers_standing hok rfl⟩

/-- The fence of a clock whose only slot was vacated is below what the slot had returned and
below the fence published before. -/
theorem fence_falls_back :
    ∃ w w', run step ⟨.create 1, [], []⟩ [.register 7 5, .tick 0 5, .publish] = some w ∧
      w.log = [⟨0, none, ⟨5, 0⟩⟩] ∧ w.fences = [⟨5, 0⟩] ∧
      run step w [.unregister 0, .publish] = some w' ∧ w'.fences = [⟨0, 0⟩] :=
  ⟨_, _, rfl, by decide, by decide, rfl, by decide⟩

end FenceRun
end SubEtha.Coord
