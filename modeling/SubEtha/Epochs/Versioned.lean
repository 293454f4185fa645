import SubEtha.Lib.OrdMap
import SubEtha.Epochs.Shared

namespace SubEtha.Epochs
open List Option
open Lib (OrdMap Bound)

/-- A value and the epochs it was current between; `none` is `DIED_LIVE`. -/
structure Versioned (V : Type) where
  born : Nat
  died : Option Nat
  value : V
deriving DecidableEq

namespace Versioned

variable {V : Type}

def isLive (e : Versioned V) : Bool := e.died.isNone

def visibleAt (e : Versioned V) (pin : Nat) : Bool :=
  decide (e.born ≤ pin) && e.died.all fun died => decide (pin < died)

/-- What a reader pinned at `pin` makes of the entry of a key. -/
def seen (pin : Nat) (e : Option (Versioned V)) : Option V :=
  (e.filter fun e => e.visibleAt pin).map value

end Versioned

inductive VersionedError
  | rebornUnderPin
  | full
deriving DecidableEq

structure VersionedBTreeMap (K V : Type) [LinearOrder K] where
  tree : OrdMap K (Versioned V)
  epochs : SharedEpochs

namespace VersionedBTreeMap

variable {K V : Type} [LinearOrder K] (m : VersionedBTreeMap K V)

def create (maxPins : Nat) : VersionedBTreeMap K V := ⟨.empty, .create maxPins⟩

def getAt (key : K) (pin : Nat) : Option V :=
  Versioned.seen pin (m.tree.get key)

def get (m : VersionedBTreeMap K V) (key : K) : Option V :=
  ((m.tree.get key).filter Versioned.isLive).map Versioned.value

def visible (pin : Nat) (entries : List (K × Versioned V)) : List (K × V) :=
  (entries.filter fun a => a.2.visibleAt pin).map fun a => (a.1, a.2.value)

/-- The limit counts entries examined, and the cursor is the last of them. -/
def withCursor (pin : Nat) (raw : List (K × Versioned V)) : List (K × V) × Option K :=
  (visible pin raw, raw.getLast?.map Prod.fst)

def rangeAtWithCursor (low high : Bound K) (limit pin : Nat) : List (K × V) × Option K :=
  withCursor pin (m.tree.range low high limit)

def rangeAt (low high : Bound K) (limit pin : Nat) : List (K × V) :=
  (m.rangeAtWithCursor low high limit pin).1

def reclaimable (horizon : Nat) (e : Versioned V) : Bool :=
  e.died.any fun died => decide (died ≤ horizon)

def sweepChunk (horizon : Nat) (tree : OrdMap K (Versioned V)) :
    List (K × Versioned V) → OrdMap K (Versioned V) × Nat
  | [] => (tree, 0)
  | (k, e) :: chunk =>
    if reclaimable horizon e then
      let (tree, freed) := sweepChunk horizon (tree.erase k) chunk
      (tree, freed + 1)
    else sweepChunk horizon tree chunk

/-- The chunks of a sweep, each from past the last key of the one before. -/
def sweepLoop (chunk horizon : Nat) :
    Nat → Bound K → OrdMap K (Versioned V) → OrdMap K (Versioned V) × Nat
  | 0, _, tree => (tree, 0)
  | fuel + 1, low, tree =>
    let entries := tree.range low .unbounded chunk
    match entries.getLast? with
    | none => (tree, 0)
    | some last =>
      let (tree, freed) := sweepChunk horizon tree entries
      let (tree, rest) := sweepLoop chunk horizon fuel (.excluded last.1) tree
      (tree, freed + rest)

def sweepChunkSize : Nat := 4096

/-- Drop what no pin can reach; `none` where the horizon never returns. Each pass of
the loop takes at least one entry, so one pass more than there are entries ends it. -/
def sweep : Option (VersionedBTreeMap K V × Except VersionedError Nat) :=
  m.epochs.reclaimHorizon.map fun horizon =>
    let (tree, freed) := sweepLoop sweepChunkSize horizon (m.tree.len + 1) .unbounded m.tree
    ({ m with tree := tree }, if freed = 0 then .error .full else .ok freed)

/-- Whether the key is a tombstone that a pin can still reach; the horizon is read
for a tombstone only. -/
def reborn (key : K) : Option Bool :=
  match (m.tree.get key).bind Versioned.died with
  | none => some false
  | some died => m.epochs.reclaimHorizon.map fun horizon => decide (horizon < died)

def displaced (prev : Option (Versioned V)) : Option V :=
  (prev.filter Versioned.isLive).map Versioned.value

/-- `fits` and `fits'` are whether the node arena has room, before and after a sweep. -/
def insertAt (key : K) (value : V) (born : Nat) (fits fits' : Bool) :
    Option (VersionedBTreeMap K V × Except VersionedError (Option V)) :=
  (m.reborn key).bind fun reborn =>
    if reborn then some (m, .error .rebornUnderPin)
    else
      let entry := ⟨born, none, value⟩
      if fits then
        some ({ m with tree := m.tree.insert key entry }, .ok (displaced (m.tree.get key)))
      else
        m.sweep.map fun
          | (m, .error e) => (m, .error e)
          | (m, .ok _) =>
            if fits' then
              ({ m with tree := m.tree.insert key entry }, .ok (displaced (m.tree.get key)))
            else (m, .error .full)

def insert (key : K) (value : V) (fits fits' : Bool) :
    Option (VersionedBTreeMap K V × Except VersionedError (Option V)) :=
  let (born, epochs) := m.epochs.advance
  { m with epochs := epochs }.insertAt key value born fits fits'

def stampDead (key : K) (prev : Versioned V) (died : Nat)
    (fits : Bool) : VersionedBTreeMap K V × Option V :=
  if fits then
    ({ m with tree := m.tree.insert key { prev with died := some died } }, some prev.value)
  else (m, none)

def removeAt (key : K) (died : Nat) (fits : Bool) : VersionedBTreeMap K V × Option V :=
  match m.tree.get key with
  | none => (m, none)
  | some prev => if prev.isLive then m.stampDead key prev died fits else (m, none)

def remove (key : K) (fits : Bool) : VersionedBTreeMap K V × Option V :=
  match m.tree.get key with
  | none => (m, none)
  | some prev =>
    if prev.isLive then
      let (died, epochs) := m.epochs.advance
      { m with epochs := epochs }.stampDead key prev died fits
    else (m, none)

def view (pin : Nat) : OrdMap K V :=
  (m.tree.filter fun _ e => e.visibleAt pin).mapVal Versioned.value

@[simp] theorem get_view (pin : Nat) (key : K) : (m.view pin).get key = m.getAt key pin := by
  rw [view, OrdMap.get_mapVal, OrdMap.get_filter]
  rfl

/-- A range whose limit does not cut it short lists the view between its bounds. -/
theorem rangeAt_full {m : VersionedBTreeMap K V} (hlimit : m.tree.len ≤ limit) (low high : Bound K)
    (pin : Nat) : m.rangeAt low high limit pin =
      (m.view pin).entries.filter fun a => OrdMap.atOrAboveLow a.1 low && !OrdMap.aboveHigh a.1 high := by
  have htake := take_of_length_le (l := m.tree.entries.filter fun a =>
    OrdMap.atOrAboveLow a.1 low && !OrdMap.aboveHigh a.1 high)
    (le_trans (length_filter_le ..) hlimit)
  dsimp only [rangeAt, rangeAtWithCursor, withCursor, OrdMap.range, visible, view, OrdMap.mapVal,
    OrdMap.filter]
  rw [htake, List.filter_map, List.filter_filter, List.filter_filter]
  refine congrArg (List.map _) (filter_congr fun a _ => ?_)
  exact Bool.and_comm ..

theorem sweepChunk_tree (chunk : List (K × Versioned V)) (tree : OrdMap K (Versioned V)) :
    (sweepChunk horizon tree chunk).1 =
      tree.filter fun k _ => !(chunk.any fun a => a.1 == k && reclaimable horizon a.2) := by
  induction chunk generalizing tree with
  | nil =>
    refine OrdMap.ext_get fun k => ?_
    cases h : tree.get k <;> simp [sweepChunk, h, filter_some]
  | cons a chunk ih =>
    obtain ⟨k, e⟩ := a
    rw [sweepChunk]
    split
    · rename_i hdead
      rw [ih]
      refine OrdMap.ext_get fun k' => ?_
      by_cases hk : k' = k
      · subst hk
        cases h : tree.get k' <;> simp [h, hdead]
      · cases h : tree.get k' <;> simp [h, hk, beq_false_of_ne (Ne.symm hk), filter_some]
    · rename_i hlive
      rw [ih]
      refine OrdMap.ext_get fun k' => ?_
      cases h : tree.get k' <;> simp [h, hlive, filter_some]

variable {low : Bound K}

theorem mem_range {tree : OrdMap K V} (h : a ∈ tree.range low high limit) :
    a ∈ tree.entries ∧ OrdMap.atOrAboveLow a.1 low = true := by
  obtain ⟨hmem, hbounds⟩ := mem_filter.mp (mem_of_mem_take h)
  exact ⟨hmem, (Bool.and_eq_true_iff.mp hbounds).1⟩

section
variable {tree : OrdMap K V} {low : Bound K} {last : K × V}
  (hlast : (tree.range low .unbounded limit).getLast? = some last)
include hlast

theorem range_rest (ha : a ∈ tree.entries) (hlow : OrdMap.atOrAboveLow a.1 low = true) :
    a ∈ tree.range low .unbounded limit ∨ last.1 < a.1 := by
  have hmem : a ∈ tree.entries.filter fun a =>
    OrdMap.atOrAboveLow a.1 low && !OrdMap.aboveHigh a.1 .unbounded :=
    mem_filter.mpr ⟨ha, by simp [hlow, OrdMap.aboveHigh]⟩
  have hsorted := tree.sorted.filter fun a =>
    OrdMap.atOrAboveLow a.1 low && !OrdMap.aboveHigh a.1 .unbounded
  rw [← take_append_drop limit (tree.entries.filter _)] at hmem hsorted
  rcases mem_append.mp hmem with h | h
  · exact .inl h
  · exact .inr ((pairwise_append.mp hsorted).2.2 last (mem_of_getLast? hlast) a h)

theorem above_last (hk : last.1 < k) : OrdMap.atOrAboveLow k low = true := by
  have hlow := (mem_range (mem_of_getLast? hlast)).2
  cases low with
  | unbounded => rfl
  | included b => exact decide_eq_true (le_trans (of_decide_eq_true hlow) hk.le)
  | excluded b => exact decide_eq_true (lt_trans (of_decide_eq_true hlow) hk)

end

variable {tree : OrdMap K (Versioned V)}

theorem rest_shorter (hlast : (tree.range low .unbounded chunk).getLast? = some last)
    (hfuel : (tree.entries.filter fun a => OrdMap.atOrAboveLow a.1 low).length < fuel + 1) :
    ((sweepChunk horizon tree (tree.range low .unbounded chunk)).1.entries.filter fun a =>
      OrdMap.atOrAboveLow a.1 (.excluded last.1)).length < fuel := by
  rw [sweepChunk_tree]
  have hsub : ((tree.entries.filter fun a => !((tree.range low .unbounded chunk).any fun b =>
      b.1 == a.1 && reclaimable horizon b.2)).filter fun a =>
        OrdMap.atOrAboveLow a.1 (.excluded last.1)).Sublist
      ((tree.entries.filter fun a => OrdMap.atOrAboveLow a.1 low).filter fun a =>
        OrdMap.atOrAboveLow a.1 (.excluded last.1)) := by
    have hsame : (tree.entries.filter fun a => OrdMap.atOrAboveLow a.1 low).filter (fun a =>
        OrdMap.atOrAboveLow a.1 (.excluded last.1)) =
        tree.entries.filter fun a => OrdMap.atOrAboveLow a.1 (.excluded last.1) := by
      rw [List.filter_filter]
      refine filter_congr fun a _ => ?_
      cases hpast : OrdMap.atOrAboveLow a.1 (.excluded last.1) with
      | false => rfl
      | true => rw [above_last hlast (of_decide_eq_true hpast)]; rfl
    rw [hsame]
    exact filter_sublist.filter _
  obtain ⟨hmem, hlow⟩ := mem_range (mem_of_getLast? hlast)
  have hlt := length_filter_lt_length_iff_exists
    (l := tree.entries.filter fun a => OrdMap.atOrAboveLow a.1 low)
    (p := fun a : K × Versioned V => OrdMap.atOrAboveLow a.1 (.excluded last.1)) |>.mpr
    ⟨last, mem_filter.mpr ⟨hmem, hlow⟩, by simp [OrdMap.atOrAboveLow]⟩
  exact lt_of_le_of_lt hsub.length_le (lt_of_lt_of_le hlt (Nat.le_of_lt_succ hfuel))

theorem sweepLoop_tree (hchunk : 0 < chunk)
    (hfuel : (tree.entries.filter fun a => OrdMap.atOrAboveLow a.1 low).length < fuel) :
    (sweepLoop chunk horizon fuel low tree).1 =
      tree.filter fun k e => !(OrdMap.atOrAboveLow k low && reclaimable horizon e) := by
  induction fuel generalizing low tree with
  | zero => exact absurd hfuel (Nat.not_lt_zero _)
  | succ fuel ih =>
    rw [sweepLoop]
    split
    · rename_i hnone
      have hempty : tree.entries.filter (fun a => OrdMap.atOrAboveLow a.1 low) = [] := by
        have htake := getLast?_eq_none_iff.mp hnone
        simpa [OrdMap.range, OrdMap.aboveHigh, Nat.ne_of_gt hchunk] using htake
      refine OrdMap.ext_get fun k => ?_
      rw [OrdMap.get_filter]
      cases h : tree.get k with
      | none => rfl
      | some e =>
        have hlow := filter_eq_nil_iff.mp hempty _ (OrdMap.get_eq_some_iff.mp h)
        simp [filter_some, hlow]
    rename_i last hlast
    rw [ih (rest_shorter hlast hfuel), sweepChunk_tree]
    refine OrdMap.ext_get fun k => ?_
    rw [OrdMap.get_filter, OrdMap.get_filter, OrdMap.get_filter]
    cases h : tree.get k with
    | none => rfl
    | some e =>
      have hmem := OrdMap.get_eq_some_iff.mp h
      cases hdead : reclaimable horizon e with
      | false =>
        have hkeep : ((tree.range low .unbounded chunk).any fun a =>
            a.1 == k && reclaimable horizon a.2) = false := by
          refine any_eq_false.mpr fun a ha hboth => ?_
          obtain ⟨hk, ha'⟩ := Bool.and_eq_true_iff.mp hboth
          have heq := OrdMap.get_of_mem (mem_range ha).1
          rw [beq_iff_eq.mp hk, h] at heq
          rw [Option.some.inj heq, ha'] at hdead
          cases hdead
        simp [filter_some, hkeep, hdead]
      | true =>
        cases hlow : OrdMap.atOrAboveLow k low with
        | true =>
          rcases range_rest hlast hmem hlow with hin | hpast
          · have hdrop : ((tree.range low .unbounded chunk).any fun a =>
                a.1 == k && reclaimable horizon a.2) = true :=
              any_eq_true.mpr ⟨_, hin, by simp [hdead]⟩
            simp [filter_some, hdrop, hdead]
          · simp [filter_some, OrdMap.atOrAboveLow, hpast, hdead]
        | false =>
          have hkeep : ((tree.range low .unbounded chunk).any fun a =>
              a.1 == k && reclaimable horizon a.2) = false := by
            refine any_eq_false.mpr fun a ha hboth => ?_
            rw [← beq_iff_eq.mp (Bool.and_eq_true_iff.mp hboth).1, (mem_range ha).2] at hlow
            cases hlow
          have hbefore : ¬last.1 < k := fun hpast => by
            rw [above_last hlast hpast] at hlow
            cases hlow
          simp [filter_some, hkeep, OrdMap.atOrAboveLow, hbefore]

theorem sweep_spec {m m' : VersionedBTreeMap K V} {res : Except VersionedError Nat}
    (h : m.sweep = some (m', res)) : ∃ horizon, m.epochs.reclaimHorizon = some horizon ∧
      m' = { m with tree := m.tree.filter fun _ e => !reclaimable horizon e } := by
  obtain ⟨horizon, hhorizon, heq⟩ := map_eq_some_iff.mp h
  refine ⟨horizon, hhorizon, ?_⟩
  have hmap : m' = { m with
      tree := (sweepLoop sweepChunkSize horizon (m.tree.len + 1) .unbounded m.tree).1 } :=
    (congrArg Prod.fst heq).symm
  have hfuel : (m.tree.entries.filter fun a => OrdMap.atOrAboveLow a.1 .unbounded).length <
      m.tree.len + 1 := Nat.lt_succ_of_le (length_filter_le ..)
  rw [hmap, sweepLoop_tree (by decide) hfuel]
  rfl

end VersionedBTreeMap
end SubEtha.Epochs
