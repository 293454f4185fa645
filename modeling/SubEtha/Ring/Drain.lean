import SubEtha.Lib.Runs
import SubEtha.Ring.Ordering

namespace SubEtha.Ring
open List Function
open Lib (Lanes run run_preserves)

variable {β : Type}

/-- How far a producer is in one stamped send of payload `x`, `len` bytes long. -/
inductive SendPhase (β : Type)
  | idle
  | reserved (len : Nat) (x : β) (floor : Nat)
  | drawn (len : Nat) (x : β) (stamp : Nat)
  | recorded (len : Nat) (x : β) (stamp : Nat)
  | pushed (stamp : Nat)

/-- A stamped MPSC ring between the steps of its producers, and the stamps its drainer
has returned. -/
structure Drain (β : Type) where
  region : OrderingRegion
  rings : List (List (Nat × β))
  capacity : Nat
  phase : Nat → SendPhase β
  popped : List Nat

/-- One step of a producer's send, a heartbeat of an idle producer, or a merge pop in
either merge mode. -/
inductive DrainEvent (β : Type)
  | reserve (p len : Nat) (x : β)
  | draw (p : Nat)
  | record (p : Nat)
  | push (p : Nat)
  | publish (p : Nat)
  | refresh (p : Nat)
  | pop (strict : Bool)

namespace Drain

def start (producers maxProducers capacity : Nat) : Drain β where
  region := .create maxProducers
  rings := List.replicate producers []
  capacity := capacity
  phase := fun _ => .idle
  popped := []

def gateLines (w : Drain β) : Nat := min w.rings.length w.region.maxProducers

def setPhase (w : Drain β) (p : Nat) (phase : SendPhase β) : Drain β :=
  { w with phase := update w.phase p phase }

/-- A producer takes its steps in turn, at any distance from each other; `none` is a step
that is not the producer's next. A send of too long a payload or without a ring returns
before it takes a stamp. -/
def step (w : Drain β) : DrainEvent β → Option (Drain β)
  | .reserve p len x =>
    match w.phase p with
    | .idle =>
      if stampedPayload < len ∨ w.gateLines ≤ p then some w
      else
        let (floor, region) := w.region.reserve p
        some ({ w with region := region }.setPhase p (.reserved len x floor))
    | _ => none
  | .draw p =>
    match w.phase p with
    | .reserved len x floor =>
      let (stamp, region) := w.region.draw floor
      some ({ w with region := region }.setPhase p (.drawn len x stamp))
    | _ => none
  | .record p =>
    match w.phase p with
    | .drawn len x stamp =>
      some ({ w with region := w.region.record p stamp }.setPhase p (.recorded len x stamp))
    | _ => none
  | .push p =>
    match w.phase p with
    | .recorded len x stamp =>
      match tryPush spscPayload w.capacity (stampBytes + len) (stamp, x) (w.rings.getD p []) with
      | .ok q => some ({ w with rings := w.rings.set p q }.setPhase p (.pushed stamp))
      | .error _ => some (w.setPhase p (.pushed stamp))
    | _ => none
  | .publish p =>
    match w.phase p with
    | .pushed stamp =>
      some ({ w with region := w.region.publishWatermark p stamp }.setPhase p .idle)
    | _ => none
  | .refresh p =>
    match w.phase p with
    | .idle =>
      if p < w.region.maxProducers then some { w with region := w.region.refreshWatermark p }
      else none
    | _ => none
  | .pop strict =>
    match mergePop w.region strict w.gateLines w.rings with
    | .ok (x, rings) => some { w with rings := rings, popped := w.popped ++ [x.1] }
    | .error _ => some w

end Drain

def SendPhase.pending : SendPhase β → List Nat
  | .drawn _ _ stamp | .recorded _ _ stamp => [stamp]
  | _ => []

/-- What a producer's line reads in each phase, `top` being the counter. -/
def SendPhase.LineReads (top issued watermark : Nat) : SendPhase β → Prop
  | .idle => issued = watermark ∧ issued ≤ top
  | .reserved _ _ floor => watermark < issued ∧ issued = floor ∧ floor ≤ top + 1
  | .drawn _ _ stamp => watermark < issued ∧ issued ≤ stamp
  | .recorded _ _ stamp => watermark < issued ∧ issued = stamp
  | .pushed stamp => issued = stamp ∧ stamp ≤ top

namespace Drain

/-- The stamps of a producer that have been drawn and not yet popped. -/
def lane (w : Drain β) (p : Nat) : List Nat :=
  (w.rings.getD p []).map Prod.fst ++ (w.phase p).pending

structure Tidy (w : Drain β) : Prop where
  lanes : Lanes w.lane w.region.sharedStamp w.popped
  lines : ∀ p, (w.phase p).LineReads w.region.sharedStamp (w.region.issued p)
    (w.region.watermark p)
  gated : ∀ p, w.phase p ≠ .idle → p < w.gateLines

theorem tidy_start (producers maxProducers capacity : Nat) :
    Tidy (start (β := β) producers maxProducers capacity) where
  lanes := by
    refine Lanes.empty 0 fun p => ?_
    rw [lane, start, getD_replicate_nil]
    rfl
  lines _ := ⟨rfl, le_rfl⟩
  gated _ h := absurd rfl h

theorem lane_setPhase (w : Drain β) (p : Nat) (phase : SendPhase β) : (w.setPhase p phase).lane =
      update w.lane p ((w.rings.getD p []).map Prod.fst ++ phase.pending) := by
  funext q
  by_cases hq : q = p
  · subst hq
    rw [update_self, lane, setPhase]
    simp
  · rw [update_of_ne hq, lane, lane, setPhase]
    simp [update_of_ne hq]

end Drain

variable {phase : SendPhase β} {w : Drain β}

theorem SendPhase.LineReads.mono (h : phase.LineReads top issued watermark) (htop : top ≤ top') :
    phase.LineReads top' issued watermark := by
  cases phase with
  | idle | pushed => exact ⟨h.1, le_trans h.2 htop⟩
  | reserved => exact ⟨h.1, h.2.1, le_trans h.2.2 (Nat.succ_le_succ htop)⟩
  | drawn | recorded => exact h

namespace Drain

/-- A producer's step: its own line and phase move, the counter may rise, the rings may
change as its lane says. -/
theorem Tidy.producer (h : Tidy w) {region : OrderingRegion} {rings : List (List (Nat × β))}
    (hlanes : Lanes ({ w with region := region, rings := rings }.setPhase p phase).lane
      region.sharedStamp w.popped) (htop : w.region.sharedStamp ≤ region.sharedStamp)
    (hline : phase.LineReads region.sharedStamp (region.issued p) (region.watermark p))
    (hothers : ∀ q, q ≠ p → region.issued q = w.region.issued q ∧
      region.watermark q = w.region.watermark q) (hgate : phase ≠ .idle → p < w.gateLines)
    (hlength : rings.length = w.rings.length) (hmax : region.maxProducers = w.region.maxProducers) :
    Tidy ({ w with region := region, rings := rings }.setPhase p phase) := by
  refine ⟨hlanes, fun q => ?_, fun q hq => ?_⟩
  · by_cases hqp : q = p
    · subst hqp
      simp only [setPhase, update_self]
      exact hline
    · simp only [setPhase, update_of_ne hqp, (hothers q hqp).1, (hothers q hqp).2]
      exact (h.lines q).mono htop
  have hlines : ({ w with region := region, rings := rings }.setPhase p phase).gateLines =
      w.gateLines := by
    simp [gateLines, setPhase, hlength, hmax]
  rw [hlines]
  by_cases hqp : q = p
  · subst hqp
    simp only [setPhase, update_self] at hq
    exact hgate hq
  · simp only [setPhase, update_of_ne hqp] at hq
    exact h.gated q hq

theorem Tidy.line (h : Tidy w) (hphase : w.phase p = phase) :
    phase.LineReads w.region.sharedStamp (w.region.issued p) (w.region.watermark p) :=
  hphase ▸ h.lines p

theorem lane_setPhase_same (h : phase.pending = (w.phase p).pending) :
    (w.setPhase p phase).lane = w.lane := by
  rw [lane_setPhase, h]
  exact update_eq_self p w.lane

theorem Tidy.reserve (h : Tidy w) (hphase : w.phase p = .idle) (hgate : p < w.gateLines) (len : Nat)
    (x : β) : Tidy ({ w with region := (w.region.reserve p).2 }.setPhase p
      (.reserved len x (w.region.reserve p).1)) := by
  obtain ⟨hissued, htop⟩ := h.line hphase
  refine h.producer ?_ le_rfl ?_ (fun q hq => ⟨update_of_ne hq .., rfl⟩) (fun _ => hgate) rfl rfl
  · rw [lane_setPhase_same (by rw [hphase]; rfl)]
    exact h.lanes
  have hnew : (w.region.reserve p).2.issued p = w.region.issued p + 1 := update_self ..
  refine ⟨?_, hnew, Nat.succ_le_succ htop⟩
  rw [hnew]
  exact Nat.lt_succ_of_le (le_of_eq hissued.symm)

theorem Tidy.draw (h : Tidy w) (hphase : w.phase p = .reserved len x floor) :
    Tidy ({ w with region := (w.region.draw floor).2 }.setPhase p
      (.drawn len x (w.region.draw floor).1)) := by
  obtain ⟨hwatermark, hissued, hfloor⟩ := h.line hphase
  have hstamp : (w.region.draw floor).1 = w.region.sharedStamp + 1 := max_eq_left hfloor
  have hgate := h.gated p (by simp [hphase])
  refine h.producer ?_ (Nat.le_succ _) ?_ (fun q hq => ⟨rfl, rfl⟩) (fun _ => hgate) rfl rfl
  · -- the floor is at most the fresh counter value, so the stamp is that value
    have hlane : w.lane p = (w.rings.getD p []).map Prod.fst := by
      rw [lane, hphase]
      exact append_nil _
    rw [lane_setPhase, hstamp]
    have hpushed := h.lanes.push p (Nat.lt_succ_self w.region.sharedStamp)
    rw [hlane] at hpushed
    exact hpushed
  · refine ⟨hwatermark, ?_⟩
    rw [hstamp]
    exact le_trans (le_of_eq hissued) hfloor

theorem Tidy.record (h : Tidy w) (hphase : w.phase p = .drawn len x stamp) :
    Tidy ({ w with region := w.region.record p stamp }.setPhase p (.recorded len x stamp)) := by
  obtain ⟨hwatermark, hissued⟩ := h.line hphase
  have hgate := h.gated p (by simp [hphase])
  refine h.producer ?_ (le_refl _) ?_ (fun q hq => ⟨update_of_ne hq .., rfl⟩)
    (fun _ => hgate) rfl rfl
  · rw [lane_setPhase_same (by rw [hphase]; rfl)]
    exact h.lanes
  have hnew : (w.region.record p stamp).issued p = stamp := update_self ..
  refine ⟨?_, hnew⟩
  rw [hnew]
  exact lt_of_lt_of_le hwatermark hissued

/-- The stamp of a send that has been recorded is the last of its lane. -/
theorem lane_recorded (hphase : w.phase p = .recorded len x stamp) :
    w.lane p = (w.rings.getD p []).map Prod.fst ++ [stamp] := by
  rw [lane, hphase]
  rfl

theorem Tidy.pushFull (h : Tidy w) (hphase : w.phase p = .recorded len x stamp) :
    Tidy (w.setPhase p (.pushed stamp)) := by
  have hline := h.line hphase
  have hbound := h.lanes.bounded p stamp (by rw [lane_recorded hphase]; simp)
  have hgate := h.gated p (by simp [hphase])
  refine h.producer ?_ le_rfl ⟨hline.2, hbound⟩ (fun q hq => ⟨rfl, rfl⟩) (fun _ => hgate) rfl rfl
  refine h.lanes.shrink (fun q => ?_) (le_refl _)
  rw [lane_setPhase]
  by_cases hq : q = p
  · subst hq
    rw [update_self, lane_recorded hphase]
    exact (nil_sublist _).append_left _
  · rw [update_of_ne hq]

theorem Tidy.pushOk (h : Tidy w) (hphase : w.phase p = .recorded len x stamp) :
    Tidy ({ w with rings := w.rings.set p (w.rings.getD p [] ++ [(stamp, x)]) }.setPhase p
      (.pushed stamp)) := by
  have hline := h.line hphase
  have hbound := h.lanes.bounded p stamp (by rw [lane_recorded hphase]; simp)
  have hgate := h.gated p (by simp [hphase])
  have hlt : p < w.rings.length := lt_of_lt_of_le hgate (min_le_left _ _)
  refine h.producer ?_ (le_refl _) ⟨hline.2, hbound⟩ (fun q hq => ⟨rfl, rfl⟩) (fun _ => hgate)
    length_set rfl
  suffices hsame : ({ w with rings := w.rings.set p (w.rings.getD p [] ++ [(stamp, x)]) }.setPhase p
      (.pushed stamp)).lane = w.lane by
    rw [hsame]
    exact h.lanes
  funext q
  rw [lane_setPhase]
  by_cases hq : q = p
  · subst hq
    rw [update_self, lane_recorded hphase, getD_set_self hlt, map_append]
    exact append_nil _
  · rw [update_of_ne hq, lane, lane, getD_set_of_ne hq]

theorem Tidy.publish (h : Tidy w) (hphase : w.phase p = .pushed stamp) :
    Tidy ({ w with region := w.region.publishWatermark p stamp }.setPhase p .idle) := by
  obtain ⟨hissued, hbound⟩ := h.line hphase
  refine h.producer ?_ le_rfl ?_ (fun q hq => ⟨rfl, update_of_ne hq ..⟩)
    (fun hne => absurd rfl hne) rfl rfl
  · rw [lane_setPhase_same (by rw [hphase]; rfl)]
    exact h.lanes
  · have hnew : (w.region.publishWatermark p stamp).watermark p = stamp := update_self ..
    exact ⟨hissued.trans hnew.symm, le_trans (le_of_eq hissued) hbound⟩

theorem Tidy.refresh (h : Tidy w) (hphase : w.phase p = .idle) :
    Tidy { w with region := w.region.refreshWatermark p } := by
  have hline := h.line hphase
  have hstamp : max (w.region.sharedStamp + 1) (w.region.issued p + 1) = w.region.sharedStamp + 1 :=
    max_eq_left (Nat.succ_le_succ hline.2)
  have hsame : { w with region := w.region.refreshWatermark p } =
      { w with region := w.region.refreshWatermark p }.setPhase p .idle := by
    rw [setPhase, ← hphase, update_eq_self]
  rw [hsame]
  refine h.producer ?_ (Nat.le_succ _) ?_ (fun q hq => ⟨update_of_ne hq .., update_of_ne hq ..⟩)
    (fun hne => absurd rfl hne) rfl rfl
  · rw [← hsame]
    exact h.lanes.shrink (fun q => .refl _) (Nat.le_succ _)
  have hissued : (w.region.refreshWatermark p).issued p = w.region.sharedStamp + 1 :=
    (update_self ..).trans hstamp
  have hwatermark : (w.region.refreshWatermark p).watermark p = w.region.sharedStamp + 1 :=
    (update_self ..).trans hstamp
  exact ⟨hissued.trans hwatermark.symm, le_of_eq hissued⟩

end Drain

theorem SendPhase.LineReads.pending (h : phase.LineReads top issued watermark)
    (hstamp : stamp ∈ phase.pending) : phase ≠ .idle ∧ watermark < issued ∧ issued ≤ stamp := by
  cases phase with
  | drawn =>
    rw [mem_singleton.mp hstamp]
    exact ⟨nofun, h.1, h.2⟩
  | recorded =>
    rw [mem_singleton.mp hstamp]
    exact ⟨nofun, h.1, le_of_eq h.2⟩
  | _ => cases hstamp

/-- A line with an unpublished stamp lets no candidate above it pass. -/
theorem le_issued_of_landed {g : OrderingRegion} (h : g.inFlightBelow p candidate = false)
    (hopen : g.watermark p < g.issued p) : candidate ≤ g.issued p := by
  by_contra hlt
  rw [OrderingRegion.inFlightBelow, if_neg hlt] at h
  have heq : g.issued p = g.watermark p := by simpa using h
  omega

namespace Drain

/-- The gates of a pop keep back every candidate above a stamp that is still on its way
to its ring. -/
theorem Tidy.pop (h : Tidy w) {rings : List (List (Nat × β))}
    (hpop : mergePop w.region strict w.gateLines w.rings = .ok (x, rings)) :
    Tidy { w with rings := rings, popped := w.popped ++ [x.1] } := by
  have hsorted : ∀ q ∈ w.rings, q.Pairwise fun x y => x.1 < y.1 := by
    intro q hq
    obtain ⟨i, hi, rfl⟩ := getElem_of_mem hq
    have hlane := (h.lanes.increasing i).sublist (sublist_append_left _ _)
    rw [getD_eq_getElem _ _ hi] at hlane
    exact pairwise_map.mp hlane
  obtain ⟨idx, q, hmerged⟩ := mergePop_ok hsorted hpop
  obtain ⟨hlt, hget⟩ := List.getElem_of_getElem? hmerged.head
  have hlane : w.lane idx = x.1 :: (q.map Prod.fst ++ (w.phase idx).pending) := by
    rw [lane, getD_eq_getElem _ _ hlt, hget]
    rfl
  have hleast : ∀ p, ∀ b ∈ w.lane p, x.1 ≤ b := by
    intro p b hb
    rcases mem_append.mp hb with hring | hpending
    · obtain ⟨y, hy, rfl⟩ := mem_map.mp hring
      have hp : p < w.rings.length := by
        by_contra hge
        rw [getD_eq_default _ _ (not_lt.mp hge)] at hy
        cases hy
      rw [getD_eq_getElem _ _ hp] at hy
      exact hmerged.least _ (getElem_mem hp) y hy
    · obtain ⟨hne, hopen, hle⟩ := (h.lines p).pending hpending
      have hlanded := hmerged.landed p (h.gated p hne)
      exact le_trans (le_issued_of_landed hlanded hopen) hle
  have hlane' : { w with rings := rings, popped := w.popped ++ [x.1] }.lane =
      update w.lane idx (q.map Prod.fst ++ (w.phase idx).pending) := by
    funext p
    rw [lane, hmerged.rest]
    by_cases hp : p = idx
    · subst hp
      rw [update_self, getD_set_self hlt]
    · rw [update_of_ne hp, getD_set_of_ne hp]
      rfl
  refine ⟨?_, h.lines, fun p hp => ?_⟩
  · rw [hlane']
    exact h.lanes.take hlane hleast
  have hlength : rings.length = w.rings.length := by rw [hmerged.rest, length_set]
  have hgate := h.gated p hp
  rw [gateLines] at hgate ⊢
  rwa [hlength]

theorem Tidy.step (h : Tidy w) (hstep : w.step e = some w') : Tidy w' := by
  cases e with
  | reserve p len x =>
    rw [Drain.step] at hstep
    split at hstep
    · rename_i hphase
      split at hstep
      · cases hstep
        exact h
      rename_i hok
      cases hstep
      exact h.reserve hphase (not_le.mp (not_or.mp hok).2) len x
    · cases hstep
  | draw p =>
    rw [Drain.step] at hstep
    split at hstep <;> cases hstep
    rename_i hphase
    exact h.draw hphase
  | record p =>
    rw [Drain.step] at hstep
    split at hstep <;> cases hstep
    rename_i hphase
    exact h.record hphase
  | push p =>
    rw [Drain.step] at hstep
    split at hstep
    · rename_i hphase
      split at hstep
      · rename_i q hpush
        cases hstep
        rw [tryPush_ok hpush]
        exact h.pushOk hphase
      · cases hstep
        exact h.pushFull hphase
    · cases hstep
  | publish p =>
    rw [Drain.step] at hstep
    split at hstep <;> cases hstep
    rename_i hphase
    exact h.publish hphase
  | refresh p =>
    rw [Drain.step] at hstep
    split at hstep
    · rename_i hphase
      split at hstep <;> cases hstep
      exact h.refresh hphase
    · cases hstep
  | pop strict =>
    rw [Drain.step] at hstep
    split at hstep
    · rename_i x rings hpop
      cases hstep
      exact h.pop hpop
    · cases hstep
      exact h

/-- Whatever pauses the producers make between the steps of their sends, the stamps that
successive pops return strictly increase. -/
theorem drained_stamps_increase {producers maxProducers capacity : Nat}
    {events : List (DrainEvent β)} {w : Drain β}
    (hrun : run step (start producers maxProducers capacity) events = some w) :
    w.popped.Pairwise (· < ·) :=
  (run_preserves (fun _ _ _ h hstep => Tidy.step h hstep)
    (tidy_start producers maxProducers capacity) hrun).lanes.sorted

/-- A producer that drew the first stamp pauses before its push, another one sends and
the drainer finds nothing to release until the first push has landed. -/
def paused : List (DrainEvent Nat) :=
  [.reserve 0 8 70, .draw 0, .reserve 1 8 71, .draw 1, .record 1, .push 1, .publish 1, .pop false,
    .record 0, .pop true, .push 0, .pop false, .publish 0, .pop true, .pop false, .refresh 0,
    .pop true]

theorem paused_runs : (run step (start 2 2 4) paused).isSome = true := by decide +kernel

theorem drained_stamps_increase_paused :
    ∃ w, run step (start 2 2 4) paused = some w ∧ w.popped.Pairwise (· < ·) ∧
      w.popped = [1, 2] := by
  have hrun := (Option.some_get paused_runs).symm
  exact ⟨_, hrun, drained_stamps_increase hrun, by decide +kernel⟩

end Drain
end SubEtha.Ring
