import SubEtha.Ring.Ordering
import SubEtha.Ring.Peers

namespace SubEtha.Ring
open List AdaptiveRing OrderingRegion Prod Function
open Lib (Lanes minHead minHead_none run EveryStep run_invariant)

variable {β : Type}

structure StampedRing (β : Type) where
  ring : AdaptiveRing (Nat × β)
  region : OrderingRegion

variable {ring : AdaptiveRing (Nat × β)} {r r' : StampedRing β} {popped : List Nat} {p : Nat}
  {q : List (Nat × β)} {g : OrderingRegion} {x : Nat × β} {s : RingShape} {strict : Bool}

namespace StampedRing

section
variable (r : StampedRing β)

/-- `try_send` of a payload of `len` bytes. The watermark advances whether the push lands
or not. -/
def stampedSend (producerId len : Nat) (x : β) : StampedRing β × Except RingError Unit :=
  let ring := r.ring.ensureSynced
  if stampedPayload < len ∨ r.region.maxProducers ≤ producerId then
    ({ r with ring := ring }, .error .payloadTooLarge)
  else if ring.shape = .vyukov then ({ r with ring := ring }, .error .layoutMismatch)
  else
    match ring.backing ring.shape producerId with
    | none => ({ r with ring := ring }, .error .payloadTooLarge)
    | some q =>
      let next := r.region.nextStamp producerId
      let region := next.2.publishWatermark producerId next.1
      match tryPush spscPayload ring.capacity (stampBytes + len) (next.1, x) q with
      | .error e => (⟨ring, region⟩, .error e)
      | .ok q => (⟨ring.setBacking ring.shape producerId q, region⟩, .ok ())

def mergeRings : RingShape → List (List (Nat × β))
  | .spsc => [r.ring.spsc]
  | .mpsc => r.ring.mpsc
  | .mpmc => r.ring.mpmc
  | .vyukov => []

def setMergeRings (shape : RingShape) (rings : List (List (Nat × β))) : StampedRing β :=
  match shape with
  | .spsc => { r with ring := { r.ring with spsc := rings.headD [] } }
  | .mpsc => { r with ring := { r.ring with mpsc := rings } }
  | .mpmc => { r with ring := { r.ring with mpmc := rings } }
  | .vyukov => r

def gateLines : Nat := min r.ring.directory.published r.region.maxProducers

def mergeShape (shape : RingShape) (strict : Bool) : StampedRing β × Except RingError (Nat × β) :=
  match mergePop r.region strict r.gateLines (r.mergeRings shape) with
  | .ok (x, rings) => (r.setMergeRings shape rings, .ok x)
  | .error e => (r, .error e)

end

/-- Merge within each shape in turn until one yields. -/
def mergeWalk (strict : Bool) :
    List RingShape → StampedRing β → StampedRing β × Except RingError (Nat × β)
  | [], r => (r, .error .empty)
  | shape :: rest, r =>
    match r.mergeShape shape strict with
    | (r, .error .empty) => mergeWalk strict rest r
    | res => res

section
variable (r : StampedRing β)

/-- `try_recv` in a merge mode, by the consumer that holds the drainer lease. -/
def orderedRecv (consumerId outLen : Nat) (strict : Bool) :
    StampedRing β × Except RingError (Nat × β) :=
  let ring := r.ring.ensureSynced
  let r := { r with ring := ring }
  if consumerSlotCeiling ≤ consumerId ∨ outLen < stampedPayload then (r, .error .payloadTooLarge)
  else mergeWalk strict (ring.otherUsedShapes ring.shape ++ [ring.shape]) r

def lane (l : RingShape × Nat) : List Nat :=
  ((r.mergeRings l.1).getD l.2 []).map Prod.fst

def holds (shape : RingShape) : Bool :=
  (r.mergeRings shape).any fun q => !q.isEmpty

/-- The watermark gate keeps the smallest stamp of a shape back. -/
def withheld (shape : RingShape) : Bool :=
  match minHead Prod.fst (r.mergeRings shape) with
  | none => false
  | some (_, stamp) => watermarkGate r.region r.gateLines stamp (r.mergeRings shape)

end

/-- Stamps and the walk agree: fresh stamps in increasing lanes, and those of a shape
walked earlier are the older ones. -/
structure InOrder (r : StampedRing β) (popped : List Nat) : Prop where
  stamped : r.ring.stamped = true
  marked : r.ring.Marked
  stored : ∀ l, r.lane l ≠ [] → r.ring.used l.1 = true
  synced : (∀ l, r.lane l = []) ∨ r.ring.syncedEpoch = some r.ring.directory.epoch
  lanes : Lanes r.lane r.region.sharedStamp popped
  lines : ∀ p, r.region.issued p = r.region.watermark p ∧ r.region.issued p ≤ r.region.sharedStamp
  across : ∀ s t, Precedes r.ring.shape s t → ∀ i j, ∀ a ∈ r.lane (s, i), ∀ b ∈ r.lane (t, j), a < b

/-- A stamped ring is never refused the shape its peers call for. -/
theorem reshapeForCounts_stamped (h : ring.stamped = true) : ring.reshapeForCounts.2 = true := by
  unfold reshapeForCounts
  split
  · rfl
  split
  · rfl
  rename_i target htarget
  split
  · rfl
  have hfilter : ring.contractFilteredShape target = target := by
    unfold contractFilteredShape
    split
    · rfl
    · rfl
  have hne : target ≠ .vyukov := by
    rintro rfl
    unfold targetShape at htarget
    split at htarget
    · cases htarget
    split at htarget
    · split at htarget <;> cases htarget
    · cases htarget
  rw [hfilter]
  split
  · rfl
  rename_i hnone
  unfold morphShape at hnone
  split at hnone
  · cases hnone
  · rw [if_neg (fun hv => hne hv.2)] at hnone
    cases hnone

theorem mergeRings_congr (h : r'.ring.held = r.ring.held) (s : RingShape) :
    r'.mergeRings s = r.mergeRings s := by
  cases s with
  | spsc => exact congrArg (fun b => [Backings.spsc b]) h
  | mpsc => exact congrArg Backings.mpsc h
  | mpmc => exact congrArg Backings.mpmc h
  | vyukov => rfl

theorem lane_congr (h : r'.ring.held = r.ring.held) : r'.lane = r.lane := by
  funext l
  rw [lane, lane, mergeRings_congr h]

/-- A morph or a sync that leaves the walk in stamp order. -/
theorem InOrder.reshaped (h : InOrder r popped) (hr : AdaptiveRing.Reshaped r.ring ring)
    (hsynced : (∀ l, r.lane l = []) ∨ ring.syncedEpoch = some ring.directory.epoch)
    (hacross : ∀ s t, Precedes ring.shape s t → ∀ i j, ∀ a ∈ r.lane (s, i), ∀ b ∈ r.lane (t, j),
      a < b) : InOrder { r with ring := ring } popped := by
  have hlane : ({ r with ring := ring } : StampedRing β).lane = r.lane := lane_congr hr.held_eq
  refine ⟨(congrArg (fun f => f.2.2.2) hr.fixed_eq).trans h.stamped, hr.marked h.marked, ?_, ?_, ?_,
    h.lines, ?_⟩
  · rw [hlane]
    exact fun l hl => hr.used_mono _ (h.stored l hl)
  · rw [hlane]
    exact hsynced
  · rw [hlane]
    exact h.lanes
  · rw [hlane]
    exact hacross

theorem ensureSynced_synced (h : ring.stamped = true) :
    ring.ensureSynced.syncedEpoch = some ring.ensureSynced.directory.epoch := by
  rw [ring.ensureSynced_reshaped.1.directory_eq]
  unfold ensureSynced
  dsimp only
  split
  · rename_i hsynced
    exact hsynced
  have hdesignated : ring.designateSingleReader.stamped = true :=
    (congrArg (fun f => f.2.2.2) ring.designateSingleReader_reshaped.fixed_eq).trans h
  unfold syncTopology
  dsimp only
  rw [if_pos (reshapeForCounts_stamped hdesignated)]

/-- A sync moves the shape only while the ring is empty. -/
theorem InOrder.ensureSynced (h : InOrder r popped) :
    InOrder { r with ring := r.ring.ensureSynced } popped := by
  obtain ⟨hr, -⟩ := r.ring.ensureSynced_reshaped
  refine h.reshaped hr (.inr (ensureSynced_synced h.stamped)) ?_
  rcases h.synced with hempty | hepoch
  · intro s t _ i j a ha
    rw [hempty] at ha
    cases ha
  · have hsame : r.ring.ensureSynced = r.ring := if_pos hepoch
    rw [hsame]
    exact h.across

def laneOf (shape : RingShape) (p : Nat) : RingShape × Nat :=
  match shape with
  | .spsc => (.spsc, 0)
  | shape => (shape, p)

theorem laneOf_fst (shape : RingShape) (p : Nat) : (laneOf shape p).1 = shape := by
  cases shape with
  | _ => rfl

theorem lane_setBacking (hshape : r.ring.shape ≠ .vyukov)
    (hq : r.ring.backing r.ring.shape p = some q) (x : Nat × β) (region : OrderingRegion) :
    (⟨r.ring.setBacking r.ring.shape p (q ++ [x]), region⟩ : StampedRing β).lane =
      update r.lane (laneOf r.ring.shape p) (r.lane (laneOf r.ring.shape p) ++ [x.1]) := by
  generalize hs : r.ring.shape = shape at hshape hq
  have hgrid : ∀ (qs : List (List (Nat × β))) (i : Nat), qs[p]? = some q →
      ((qs.set p (q ++ [x])).getD i []).map fst =
        if i = p then (qs.getD p []).map fst ++ [x.1] else (qs.getD i []).map fst := by
    intro qs i hget
    obtain ⟨hlt, rfl⟩ := List.getElem_of_getElem? hget
    split
    · rename_i hi
      rw [hi, getD_set_self hlt, getD_eq_getElem _ _ hlt, map_append]
      rfl
    · rename_i hi
      rw [getD_set_of_ne hi]
  funext l
  obtain ⟨t, i⟩ := l
  cases shape with
  | vyukov => exact absurd rfl hshape
  | spsc =>
    cases hq
    by_cases hl : (t, i) = laneOf .spsc p
    · rw [hl, update_self]
      exact map_append
    rw [update_of_ne hl]
    cases t with
    | spsc =>
      cases i with
      | zero => exact absurd rfl hl
      | succ i => rfl
    | _ => rfl
  | mpsc =>
    by_cases hl : (t, i) = laneOf .mpsc p
    · rw [hl, update_self]
      exact (hgrid r.ring.mpsc p hq).trans (if_pos rfl)
    rw [update_of_ne hl]
    cases t with
    | mpsc => exact (hgrid r.ring.mpsc i hq).trans (if_neg fun hi => hl (congrArg _ hi))
    | _ => rfl
  | mpmc =>
    by_cases hl : (t, i) = laneOf .mpmc p
    · rw [hl, update_self]
      exact (hgrid r.ring.mpmc p hq).trans (if_pos rfl)
    rw [update_of_ne hl]
    cases t with
    | mpmc => exact (hgrid r.ring.mpmc i hq).trans (if_neg fun hi => hl (congrArg _ hi))
    | _ => rfl

theorem nextStamp_fst (h : g.issued p ≤ g.sharedStamp) :
    (g.nextStamp p).1 = g.sharedStamp + 1 := max_eq_left (Nat.succ_le_succ h)

/-- After a send, landed or not, the producer's line is closed again. -/
theorem lines_nextStamp (h : ∀ p, g.issued p = g.watermark p ∧ g.issued p ≤ g.sharedStamp)
    (q : Nat) : ((g.nextStamp p).2.publishWatermark p (g.nextStamp p).1).issued q =
        ((g.nextStamp p).2.publishWatermark p (g.nextStamp p).1).watermark q ∧
      ((g.nextStamp p).2.publishWatermark p (g.nextStamp p).1).issued q ≤ g.sharedStamp + 1 := by
  have hstamp := nextStamp_fst (h p).2
  by_cases hq : q = p
  · subst hq
    have hissued : ((g.nextStamp q).2.publishWatermark q (g.nextStamp q).1).issued q =
        (g.nextStamp q).1 := update_self ..
    have hwatermark : ((g.nextStamp q).2.publishWatermark q (g.nextStamp q).1).watermark q =
        (g.nextStamp q).1 := update_self ..
    exact ⟨hissued.trans hwatermark.symm, le_of_eq (hissued.trans hstamp)⟩
  · have hissued : ((g.nextStamp p).2.publishWatermark p (g.nextStamp p).1).issued q =
        g.issued q := by
      simp [nextStamp, reserve, draw, record, publishWatermark, update_of_ne hq]
    have hwatermark : ((g.nextStamp p).2.publishWatermark p (g.nextStamp p).1).watermark q =
        g.watermark q := update_of_ne hq ..
    exact ⟨hissued.trans ((h q).1.trans hwatermark.symm),
      le_trans (le_of_eq hissued) (Nat.le_succ_of_le (h q).2)⟩

theorem not_precedes_of_current : ¬ Precedes current current t := by
  by_cases h : t = current
  · subst h
    exact fun hp => hp.asymm hp
  · exact (precedes_current h).asymm

theorem setBacking_syncedEpoch (ring : AdaptiveRing (Nat × β)) (shape : RingShape) (p : Nat)
    (q : List (Nat × β)) : (ring.setBacking shape p q).syncedEpoch = ring.syncedEpoch := by
  cases shape with
  | _ => rfl

/-- The fresh stamp goes to the shape that is walked last. -/
theorem InOrder.push (h : InOrder r popped)
    (hsynced : r.ring.syncedEpoch = some r.ring.directory.epoch) (hshape : r.ring.shape ≠ .vyukov)
    (hq : r.ring.backing r.ring.shape p = some q) (x : β) :
    InOrder ⟨r.ring.setBacking r.ring.shape p (q ++ [((r.region.nextStamp p).1, x)]),
      (r.region.nextStamp p).2.publishWatermark p (r.region.nextStamp p).1⟩ popped := by
  have hlane := lane_setBacking hshape hq ((r.region.nextStamp p).1, x)
    ((r.region.nextStamp p).2.publishWatermark p (r.region.nextStamp p).1)
  have hfst := laneOf_fst r.ring.shape p
  have hstamp := nextStamp_fst (h.lines p).2
  obtain ⟨hframe, hdirectory⟩ := r.ring.setBacking_frame r.ring.shape p
    (q ++ [((r.region.nextStamp p).1, x)])
  have hepoch := setBacking_syncedEpoch r.ring r.ring.shape p (q ++ [((r.region.nextStamp p).1, x)])
  simp only [frame, Prod.mk.injEq] at hframe
  obtain ⟨⟨hsame, hused, -⟩, -, -, -, hstamped⟩ := hframe
  generalize laneOf r.ring.shape p = l at hlane hfst
  refine ⟨hstamped.trans h.stamped, ?_, fun l' hne => ?_, .inr ?_, ?_, lines_nextStamp h.lines, ?_⟩
  · rw [AdaptiveRing.Marked, hused, hsame]
    exact h.marked
  · rw [hused]
    rw [hlane] at hne
    by_cases hl : l' = l
    · rw [hl, hfst]
      exact h.marked
    · rw [update_of_ne hl] at hne
      exact h.stored l' hne
  · rw [hepoch, hdirectory]
    exact hsynced
  · rw [hlane, hstamp]
    exact h.lanes.push l (Nat.lt_succ_self _)
  rw [hlane, hsame]
  intro s t hst i j a ha b hb
  have hs : (s, i) ≠ l := by
    rintro rfl
    exact not_precedes_of_current (hfst ▸ hst)
  rw [update_of_ne hs] at ha
  by_cases ht : (t, j) = l
  · subst ht
    rw [update_self] at hb
    rcases mem_append.mp hb with hb | hb
    · exact h.across s t hst i j a ha b hb
    · rw [mem_singleton.mp hb, hstamp]
      exact Nat.lt_succ_of_le (h.lanes.bounded (s, i) a ha)
  · rw [update_of_ne ht] at hb
    exact h.across s t hst i j a ha b hb

theorem InOrder.send (h : InOrder r popped) {x : β} (hsend : r.stampedSend p len x = (r', res)) :
    InOrder r' popped := by
  have hsync := h.ensureSynced
  unfold stampedSend at hsend
  dsimp only at hsend
  split at hsend
  · cases hsend
    exact hsync
  split at hsend
  · cases hsend
    exact hsync
  rename_i hshape
  split at hsend
  · cases hsend
    exact hsync
  rename_i q hq
  split at hsend
  · cases hsend
    exact { hsync with
      lanes := hsync.lanes.shrink (fun _ => .refl _) (Nat.le_succ _)
      lines := lines_nextStamp h.lines }
  · rename_i q' hpush
    cases hsend
    obtain rfl := tryPush_ok hpush
    exact hsync.push (ensureSynced_synced h.stamped) hshape hq x

theorem lane_eq_nil (h : r.holds s = false) (i : Nat) : r.lane (s, i) = [] := by
  have hring : (r.mergeRings s).getD i [] = [] := by
    by_cases hi : i < (r.mergeRings s).length
    · have hq := any_eq_false.mp h _ (getElem_mem hi)
      rw [getD_eq_getElem _ _ hi]
      simpa using hq
    · exact getD_eq_default _ _ (not_lt.mp hi)
  rw [lane, hring]
  rfl

theorem lane_of_holds (h : r.holds s = true) : ∃ i, r.lane (s, i) ≠ [] := by
  obtain ⟨q, hq, hne⟩ := any_eq_true.mp h
  obtain ⟨i, hi, rfl⟩ := getElem_of_mem hq
  refine ⟨i, ?_⟩
  rw [lane, getD_eq_getElem _ _ hi]
  simpa using hne

theorem morphShape_syncedEpoch (h : ring.morphShape new = some ring') :
    ring'.syncedEpoch = ring.syncedEpoch := by
  unfold morphShape at h
  split at h
  · cases h
    rfl
  split at h
  · cases h
  · cases h
    rfl

theorem InOrder.morph (h : InOrder r popped)
    (hswap : new = .vyukov ∨ NoSwap r.holds r.ring.shape new) :
    InOrder { r with ring := (r.ring.morphTo new).1 } popped := by
  have hpinned : InOrder { r with ring := { r.ring with shapeAuto := false } } popped := { h with }
  unfold morphTo
  dsimp only
  cases hmorph : { r.ring with shapeAuto := false }.morphShape new with
  | none => exact hpinned
  | some ring =>
    obtain ⟨hr, -, hshape⟩ := morphShape_reshaped hmorph
    refine hpinned.reshaped hr ?_ ?_
    · rw [morphShape_syncedEpoch hmorph, hr.directory_eq]
      exact h.synced
    intro s t hst i j a ha b hb
    rw [hshape] at hst
    have hswap : NoSwap r.holds r.ring.shape new := by
      rcases hswap with rfl | hswap
      · -- a stamped ring refuses the Vyukov shape, so it had to be in it already
        have hsame : r.ring.shape = .vyukov := by
          by_contra hne
          simp [morphShape, hne, h.stamped] at hmorph
        rw [hsame]
        exact fun s _ t _ hst hts => absurd hts hst.asymm
      · exact hswap
    have hne : s ≠ t := by
      rintro rfl
      exact hst.asymm hst
    rcases precedes_total hne with hold | hold
    · exact h.across s t hold i j a ha b hb
    rcases hswap t (mem_all t) s (mem_all s) hold hst with hnone | hnone
    · rw [lane_eq_nil (r := { r with ring := { r.ring with shapeAuto := false } }) hnone] at hb
      cases hb
    · rw [lane_eq_nil (r := { r with ring := { r.ring with shapeAuto := false } }) hnone] at ha
      cases ha

theorem inFlightGate_closed (h : ∀ p, g.issued p = g.watermark p) (lines stamp : Nat) :
    inFlightGate g lines stamp = false := by
  refine any_eq_false.mpr fun p _ => ?_
  rw [inFlightBelow]
  split
  · exact Bool.false_ne_true
  · simp [h p]

theorem InOrder.sorted (h : InOrder r popped) (s : RingShape) :
    ∀ q ∈ r.mergeRings s, q.Pairwise fun x y => x.1 < y.1 := by
  intro q hq
  obtain ⟨i, hi, rfl⟩ := getElem_of_mem hq
  have hlane := h.lanes.increasing (s, i)
  rw [lane, getD_eq_getElem _ _ hi] at hlane
  exact pairwise_map.mp hlane

/-- `Empty` from a shape: it holds nothing, or its gate keeps back what it holds. -/
theorem mergeShape_empty (h : InOrder r popped)
    (hpop : r.mergeShape s strict = (r', .error .empty)) :
    r' = r ∧ (r.holds s = false ∨ (strict = true ∧ r.withheld s = true)) := by
  unfold mergeShape at hpop
  split at hpop
  · cases hpop
  rename_i e hmerge
  cases hpop
  refine ⟨rfl, ?_⟩
  rcases mergePop_empty (h.sorted s) hmerge with hnil | ⟨b, hmin, hflight | ⟨hstrict, hgate⟩⟩
  · refine .inl (any_eq_false.mpr fun q hq => ?_)
    rw [hnil q hq]
    exact Bool.false_ne_true
  · rw [inFlightGate_closed (fun p => (h.lines p).1)] at hflight
    cases hflight
  · exact .inr ⟨hstrict, by rw [withheld, hmin]; exact hgate⟩

theorem holds_of_mem (hq : q ∈ r.mergeRings s) (hne : q ≠ []) : r.holds s = true :=
  any_eq_true.mpr ⟨q, hq, by simpa using hne⟩

/-- What a merge of one shape took, and that its gate was open. -/
theorem mergeShape_ok (h : InOrder r popped) (hpop : r.mergeShape s strict = (r', .ok x)) :
    ∃ idx q rings, Merged r.region strict r.gateLines (r.mergeRings s) x rings idx q ∧
      r' = r.setMergeRings s rings ∧ r.holds s = true ∧ (strict = true → r.withheld s = false) := by
  unfold mergeShape at hpop
  split at hpop <;> cases hpop
  rename_i y rings hmerge
  obtain ⟨idx, q, hmerged⟩ := mergePop_ok (h.sorted s) hmerge
  refine ⟨idx, q, rings, hmerged, rfl, ?_, fun hstrict => ?_⟩
  · exact holds_of_mem (mem_of_getElem? hmerged.head) (cons_ne_nil _ _)
  · rw [withheld, hmerged.min]
    exact hmerged.released hstrict

theorem lane_setMergeRings (head : (r.mergeRings s)[idx]? = some (x :: q)) :
    (r.setMergeRings s ((r.mergeRings s).set idx q)).lane = update r.lane (s, idx) (q.map fst) := by
  have hgrid : ∀ (qs : List (List (Nat × β))) (i : Nat), qs[idx]? = some (x :: q) →
      ((qs.set idx q).getD i []).map fst =
        if i = idx then q.map fst else (qs.getD i []).map fst := by
    intro qs i hget
    split
    · rename_i hi
      rw [hi, getD_set_self (lt_of_some hget)]
    · rename_i hi
      rw [getD_set_of_ne hi]
  have hset : (r.setMergeRings s ((r.mergeRings s).set idx q)).mergeRings s =
      (r.mergeRings s).set idx q := by
    cases s with
    | spsc =>
      cases idx with
      | zero | succ => rfl
    | _ => rfl
  funext l
  obtain ⟨t, i⟩ := l
  by_cases ht : t = s
  · subst ht
    rw [lane, hset, hgrid _ i head]
    split
    · rename_i hi
      simp [hi]
    rename_i hi
    rw [update_of_ne fun heq => hi (congrArg snd heq)]
    rfl
  · rw [update_of_ne fun heq => ht (congrArg fst heq)]
    cases s with
    | _ =>
      cases t with
      | _ => first | rfl | exact absurd rfl ht

theorem setMergeRings_frame (r : StampedRing β) (s : RingShape) (rings : List (List (Nat × β))) :
    (r.setMergeRings s rings).ring.frame = r.ring.frame ∧
      (r.setMergeRings s rings).ring.directory = r.ring.directory ∧
      (r.setMergeRings s rings).ring.syncedEpoch = r.ring.syncedEpoch ∧
      (r.setMergeRings s rings).region = r.region := by
  cases s with
  | _ => exact ⟨rfl, rfl, rfl, rfl⟩

/-- The least stamp of the first shape that holds any is the least of all. -/
theorem InOrder.take (h : InOrder r popped) (head : (r.mergeRings s)[idx]? = some (x :: q))
    (hleast : ∀ q' ∈ r.mergeRings s, ∀ y ∈ q', x.1 ≤ y.1)
    (hfirst : ∀ t, Precedes r.ring.shape t s → r.holds t = false) :
    InOrder (r.setMergeRings s ((r.mergeRings s).set idx q)) (popped ++ [x.1]) := by
  have hlane := lane_setMergeRings head
  have hhead : r.lane (s, idx) = x.1 :: q.map Prod.fst := by
    rw [lane, getD_eq_getElem?_getD, head]
    rfl
  have hmin : ∀ l, ∀ b ∈ r.lane l, x.1 ≤ b := by
    rintro ⟨t, i⟩ b hb
    by_cases hts : t = s
    · subst hts
      obtain ⟨y, hy, rfl⟩ := mem_map.mp hb
      have hi : i < (r.mergeRings t).length := by
        by_contra hge
        rw [getD_eq_default _ _ (not_lt.mp hge)] at hy
        cases hy
      rw [getD_eq_getElem _ _ hi] at hy
      exact hleast _ (getElem_mem hi) y hy
    · rcases precedes_total hts with hbefore | hafter
      · rw [lane_eq_nil (hfirst t hbefore)] at hb
        cases hb
      have hx : x.1 ∈ r.lane (s, idx) := by
        rw [hhead]
        exact mem_cons_self ..
      exact le_of_lt (h.across s t hafter idx i x.1 hx b hb)
  have hsub : ∀ l, (update r.lane (s, idx) (q.map Prod.fst) l).Sublist (r.lane l) := by
    intro l
    by_cases hl : l = (s, idx)
    · rw [hl, update_self, hhead]
      exact sublist_cons_self ..
    · rw [update_of_ne hl]
  obtain ⟨hframe, hdirectory, hepoch, hregion⟩ :=
    r.setMergeRings_frame s ((r.mergeRings s).set idx q)
  simp only [frame, Prod.mk.injEq] at hframe
  obtain ⟨⟨hshape, hused, -⟩, -, -, -, hstamped⟩ := hframe
  refine ⟨hstamped.trans h.stamped, ?_, fun l hl => ?_, ?_, ?_, ?_, fun t u htu i j a ha b hb => ?_⟩
  · rw [AdaptiveRing.Marked, hused, hshape]
    exact h.marked
  · rw [hlane] at hl
    rw [hused]
    exact h.stored l fun hnil => hl (sublist_nil.mp (hnil ▸ hsub l))
  · rw [hepoch, hdirectory]
    rcases h.synced with hempty | hsynced
    · rw [hempty] at hhead
      cases hhead
    · exact .inr hsynced
  · rw [hlane, hregion]
    exact h.lanes.take hhead hmin
  · rw [hregion]
    exact h.lines
  · rw [hlane] at ha hb
    rw [hshape] at htu
    exact h.across t u htu i j a ((hsub _).subset ha) b ((hsub _).subset hb)

/-- No shape whose gate keeps its stamps back is walked before one that yields. -/
def Releases (r : StampedRing β) : Prop :=
  ∀ s ∈ RingShape.all, ∀ t ∈ RingShape.all, Precedes r.ring.shape s t → r.withheld s = true →
    r.holds t = true → r.withheld t = true
deriving Decidable

def stampsAfter (popped : List Nat) : Except RingError (Nat × β) → List Nat
  | .ok x => popped ++ [x.1]
  | .error _ => popped

/-- A walk that has passed the shapes `pre` by and goes on to `rest`. -/
theorem InOrder.walk (h : InOrder r popped) (hrel : strict = true → r.Releases)
    (hwalk : (walkOrder r.ring.shape).filter r.ring.used = pre ++ rest)
    (hpre : ∀ t ∈ pre, r.holds t = false ∨ (strict = true ∧ r.withheld t = true))
    (hpop : mergeWalk strict rest r = (r', res)) : InOrder r' (stampsAfter popped res) := by
  induction rest generalizing pre with
  | nil =>
    cases hpop
    exact h
  | cons s rest ih =>
    rw [mergeWalk] at hpop
    cases hout : r.mergeShape s strict with
    | mk r1 res1 =>
      rw [hout] at hpop
      cases res1 with
      | ok x =>
        cases hpop
        obtain ⟨idx, q, rings, hmerged, rfl, hholds, hopen⟩ := mergeShape_ok h hout
        rw [hmerged.rest]
        refine h.take hmerged.head hmerged.least fun t hts => ?_
        cases ht : r.holds t with
        | false => rfl
        | true =>
          -- a shape before it that holds stamps has been walked, and was kept back
          obtain ⟨i, hi⟩ := lane_of_holds ht
          have hused : r.ring.used t = true := h.stored (t, i) hi
          rcases hpre t (mem_of_precedes hwalk hused hts) with hnone | ⟨hstrict, hwithheld⟩
          · rw [ht] at hnone
            cases hnone
          have hkept := hrel hstrict t (mem_all t) s (mem_all s) hts hwithheld hholds
          rw [hopen hstrict] at hkept
          cases hkept
      | error e =>
        cases e with
        | empty =>
          obtain ⟨rfl, hempty⟩ := mergeShape_empty h hout
          have hwalk' : (walkOrder r1.ring.shape).filter r1.ring.used = (pre ++ [s]) ++ rest := by
            rw [hwalk, append_assoc]
            rfl
          refine ih hwalk' (fun t ht => ?_) hpop
          rcases mem_append.mp ht with ht | ht
          · exact hpre t ht
          · rw [mem_singleton.mp ht]
            exact hempty
        | _ =>
          cases hpop
          have hsame : r' = r := by
            unfold mergeShape at hout
            split at hout
            · cases hout
            · cases hout
              rfl
          rw [hsame]
          exact h

theorem InOrder.recv (h : InOrder r popped) (hrel : strict = true → r.Releases)
    (hrecv : r.orderedRecv c outLen strict = (r', res)) : InOrder r' (stampsAfter popped res) := by
  have hsync := h.ensureSynced
  unfold orderedRecv at hrecv
  dsimp only at hrecv
  split at hrecv
  · cases hrecv
    exact hsync
  have hrel' : strict = true →
      ({ r with ring := r.ring.ensureSynced } : StampedRing β).Releases := by
    intro hstrict
    rcases h.synced with hempty | hepoch
    · intro s _ t _ _ _ ht
      obtain ⟨i, hi⟩ := lane_of_holds ht
      rw [lane_congr r.ring.ensureSynced_reshaped.1.held_eq] at hi
      exact absurd (hempty (t, i)) hi
    · have hsame : r.ring.ensureSynced = r.ring := if_pos hepoch
      rw [hsame]
      exact hrel hstrict
  rw [walked_eq hsync.marked] at hrecv
  exact hsync.walk hrel' rfl (fun t ht => absurd ht not_mem_nil) hrecv

end StampedRing

variable {α β : Type}

inductive StampedEvent (β : Type)
  | send (producerId len : Nat) (x : β)
  | morph (new : RingShape)
  | recv (outLen : Nat) (strict : Bool)

structure Merge (β : Type) where
  ring : StampedRing β
  popped : List Nat

namespace Merge

def start (maxProducers capacity lines : Nat) (contract : Option RingContract)
    (peers : List PeerCall) : Merge β :=
  ⟨⟨peers.foldl AdaptiveRing.peerCall (.create maxProducers capacity contract true),
    .create lines⟩, []⟩

def step (drainer : Nat) (w : Merge β) : StampedEvent β → Option (Merge β)
  | .send p len x => some { w with ring := (w.ring.stampedSend p len x).1 }
  | .morph new => some { w with ring := { w.ring with ring := (w.ring.ring.morphTo new).1 } }
  | .recv outLen strict =>
    let out := w.ring.orderedRecv drainer outLen strict
    some ⟨out.1, StampedRing.stampsAfter w.popped out.2⟩

/-- An accepted morph swaps no two shapes that hold stamps, and no strict pop goes past a
shape whose gate keeps its stamps back to one that yields. -/
def InWalkOrder (w : Merge β) : StampedEvent β → Prop
  | .send .. => True
  | .morph new => new = .vyukov ∨ NoSwap w.ring.holds w.ring.ring.shape new
  | .recv _ strict => strict = true → w.ring.Releases

instance (w : Merge β) : DecidablePred w.InWalkOrder := fun e => by
  cases e <;> unfold InWalkOrder <;> infer_instance

theorem inOrder_start (maxProducers capacity lines : Nat) (contract : Option RingContract)
    (peers : List PeerCall) :
    (start (β := β) maxProducers capacity lines contract peers).ring.InOrder [] := by
  have hnew := AdaptiveRing.Sound.create (α := Nat × β) maxProducers capacity contract true
  have hquiet := (AdaptiveRing.create (α := Nat × β) maxProducers capacity contract
    true).quiet_peerCalls peers
  have hempty : ∀ l, (start (β := β) maxProducers capacity lines contract peers).ring.lane l = [] := by
    rintro ⟨s, i⟩
    have hitems := hquiet.items_eq.trans (AdaptiveRing.create_items maxProducers capacity contract true)
    refine StampedRing.lane_eq_nil (any_eq_false.mpr fun q hq => ?_) i
    have hnil : q = [] := by
      cases s with
      | vyukov => cases hq
      | spsc => exact Backings.queues_eq_nil hitems .spsc q hq
      | mpsc => exact Backings.queues_eq_nil hitems .mpsc q hq
      | mpmc => exact Backings.queues_eq_nil hitems .mpmc q hq
    rw [hnil]
    exact Bool.false_ne_true
  refine ⟨hquiet.stamped_eq, (hquiet.sound hnew).stocked.marked, fun l hl => absurd (hempty l) hl,
    .inl hempty, .empty _ hempty, fun _ => ⟨rfl, le_rfl⟩, fun s t _ i j a ha => ?_⟩
  rw [hempty] at ha
  cases ha

theorem inOrder_step {w w' : Merge β} (h : w.ring.InOrder w.popped) (hok : w.InWalkOrder e)
    (hstep : w.step drainer e = some w') : w'.ring.InOrder w'.popped := by
  cases e with
  | send p len x =>
    cases hstep
    exact h.send rfl
  | morph new =>
    cases hstep
    exact h.morph hok
  | recv outLen strict =>
    cases hstep
    exact h.recv hok rfl

/-- Through morphs that keep the walk in the order it was filled, and strict pops that do
not go past a gated shape, the drainer returns strictly increasing stamps. -/
theorem merged_stamps_increase {maxProducers capacity lines drainer : Nat}
    {contract : Option RingContract} {peers : List PeerCall} {events : List (StampedEvent β)}
    {w : Merge β}
    (hok : EveryStep (step drainer) InWalkOrder (start maxProducers capacity lines contract peers)
      events)
    (hrun : run (step drainer) (start maxProducers capacity lines contract peers) events = some w) :
    w.popped.Pairwise (· < ·) := by
  have hinv : w.ring.InOrder w.popped :=
    run_invariant (fun _ _ _ h hok hstep => inOrder_step h hok hstep)
      (inOrder_start maxProducers capacity lines contract peers) hok hrun
  exact hinv.lanes.sorted

/-- Two producers through three shapes, merged by stamp and then strictly. -/
def threeShapes : List (StampedEvent Nat) :=
  [.send 0 8 70, .morph .mpsc, .send 1 8 71, .send 0 8 72, .recv 56 false, .morph .mpmc,
    .send 1 8 73, .recv 56 true, .recv 56 false, .morph .vyukov, .recv 56 false, .recv 56 true]

theorem merged_stamps_increase_threeShapes :
    ∃ w, run (step 0) (start 2 4 2 none [.registerProducer true, .registerConsumer]) threeShapes =
        some w ∧ w.popped.Pairwise (· < ·) ∧ w.popped = [1, 2, 3, 4] := by
  have hok : EveryStep (step 0) InWalkOrder
      (start 2 4 2 none [.registerProducer true, .registerConsumer]) threeShapes := by
    decide +kernel
  exact ⟨_, rfl, merged_stamps_increase hok rfl, by decide +kernel⟩

/-- A shape left with a stamp in it and taken up again is merged last. -/
theorem reused_shape_inverts_stamps : ∃ w : Merge Nat, run (step 0)
        (start 1 4 1 none [.registerProducer true, .registerConsumer])
        [.send 0 8 70, .morph .mpsc, .send 0 8 71, .morph .spsc, .recv 56 false,
          .recv 56 false] = some w ∧ w.popped = [2, 1] ∧ ¬ w.popped.Pairwise (· < ·) := by
  refine ⟨_, rfl, ?_⟩
  decide +kernel

end Merge
end SubEtha.Ring
