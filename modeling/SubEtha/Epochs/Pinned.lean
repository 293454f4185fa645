import SubEtha.Epochs.Session
import SubEtha.Lib.Runs

namespace SubEtha.Epochs
open List Option VersionedBTreeMap
open Lib (OrdMap Bound)
open SharedEpochs (Ledger Settles)

variable {K V : Type} [LinearOrder K] {h : Held K V} {key : K} {fits : Bool} {slot : Nat}

namespace Session

def marks (W : Session K V) : List (Nat × Nat) := W.pins.map fun h => (h.slot, h.epoch)

structure Fresh (W W' : Session K V) (h : Held K V) : Prop where
  now : W.map.epochs.now = some h.epoch
  log : W'.log = W.log
  origin : h.origin = W'.map
  logged : h.logged = W.log.length
  opened : h.opened = W.tickets
  begun : h.begun = W.begun

/-- The call inserts at the key of a write, as a single write or for a compound. -/
def Inserts (c : Call K V) (w : Write K V) : Prop :=
  (∃ value fits fits', c = .insert w.key value fits fits' ∧ w.ticket = none) ∨
    ∃ slot value fits fits', c = .insertAt slot w.key value fits fits'

/-- What one call does: `ws` are the writes that it made. -/
structure Stepped (W : Session K V) (c : Call K V) (W' : Session K V) (ws : List (Write K V)) :
    Prop where
  log : W'.log = W.log ++ ws
  length : ws.length ≤ 1
  ledger : Ledger W'.map.epochs W'.tickets W'.marks
  settles : ∀ n, Settles W.map.epochs W.tickets W.marks n →
    Settles W'.map.epochs W'.tickets W'.marks n
  shows : ∀ n, W'.map.epochs.reclaimHorizon = some n → ∀ p, n ≤ p → ∀ k,
    W'.map.getAt k p = replay p k (W.map.getAt k p) ws
  late : ∀ h ∈ W.pins, ∀ w ∈ ws, h.epoch < w.epoch
  pins : ∀ h ∈ W'.pins, h ∈ W.pins ∨ Fresh W W' h
  tickets : ∀ w ∈ ws, ∀ e, w.ticket = some e → w.epoch = e
  replaced : ∀ w ∈ ws, w.replaced = true → (W.map.get w.key).isSome = true ∧ Inserts c w
  counter : W.map.epochs.counter ≤ W'.map.epochs.counter
  begun : ∀ e ∈ W'.begun, e ∈ W.begun ∨ e = W'.map.epochs.counter

variable {W W' : Session K V}

theorem settles_advance {E : SharedEpochs} {tickets pins : List (Nat × Nat)}
    (h : Settles E tickets pins n) : Settles E.advance.2 tickets pins n :=
  ⟨Nat.le_succ_of_le h.counter, h.tickets, h.pins⟩

section
variable (hL : Ledger W.map.epochs W.tickets W.marks)
include hL

/-- A call that writes entries, under the epochs as they were or advanced by one. -/
theorem stepped_note (hlength : ws.length ≤ 1)
    (hepochs : m.epochs = W.map.epochs ∨ m.epochs = W.map.epochs.advance.2)
    (hshows : ∀ n, m.epochs.reclaimHorizon = some n → ∀ p, n ≤ p →
      ∀ k, m.getAt k p = replay p k (W.map.getAt k p) ws)
    (hwrites : ∀ w ∈ ws, (∀ h ∈ W.pins, h.epoch < w.epoch) ∧ (∀ e, w.ticket = some e → w.epoch = e) ∧
      (w.replaced = true → (W.map.get w.key).isSome = true ∧ Inserts c w)) :
    Stepped W c (W.note m ws) ws := by
  refine ⟨rfl, hlength, ?_, fun n hn => ?_, hshows, fun h hh w hw => (hwrites w hw).1 h hh,
    fun h hh => .inl hh, fun w hw => (hwrites w hw).2.1, fun w hw => (hwrites w hw).2.2, ?_,
    fun e he => .inl he⟩
  · rcases hepochs with heq | heq
    · exact heq ▸ hL
    · exact heq ▸ hL.advance
  · rcases hepochs with heq | heq
    · exact heq ▸ hn
    · exact heq ▸ settles_advance hn
  · rcases hepochs with heq | heq
    · exact heq ▸ le_rfl
    · exact heq ▸ Nat.le_succ _

theorem stepped_same : Stepped W c W [] :=
  ⟨(append_nil _).symm, Nat.zero_le _, hL, fun _ hn => hn, fun _ _ _ _ _ => rfl, nofun,
    fun _ hh => .inl hh, nofun, nofun, le_rfl, fun _ he => .inl he⟩

theorem late_single (hh : h ∈ W.pins) : h.epoch < W.map.epochs.advance.1 :=
  Nat.lt_succ_of_le (hL.pin_le (h.slot, h.epoch) (mem_map_of_mem hh))

theorem late_compound (ht : t ∈ W.tickets) (hh : h ∈ W.pins) : h.epoch < t.2 :=
  hL.below (h.slot, h.epoch) (mem_map_of_mem hh) t ht

theorem insert_stepped (h : W.call (.insert key value fits fits') = some W') :
    ∃ ws, Stepped W (.insert key value fits fits') W' ws := by
  obtain ⟨⟨m, res⟩, hinsert, rfl⟩ := map_eq_some_iff.mp h
  obtain ⟨horizon, hhorizon, -⟩ := hL.advance.horizon_spec
  obtain ⟨hepochs, hprev, hshows⟩ := insertAt_shows hinsert hhorizon none
  refine ⟨_, stepped_note hL (length_insertWrite ..) (.inr hepochs) (fun n hn p hp k => ?_)
    fun w hw => ?_⟩
  · rw [hepochs] at hn
    cases hhorizon.symm.trans hn
    exact hshows p hp k
  · obtain ⟨prev, hres, rfl⟩ := mem_insertWrite hw
    cases hprev prev hres
    exact ⟨fun h hh => late_single hL hh, fun e he => (by cases he),
      fun hover => ⟨hover, .inl ⟨value, fits, fits', rfl, rfl⟩⟩⟩

theorem insertAt_stepped (h : W.call (.insertAt slot key value fits fits') = some W') :
    ∃ ws, Stepped W (.insertAt slot key value fits fits') W' ws := by
  obtain ⟨t, hfind, h⟩ := bind_eq_some_iff.mp h
  obtain ⟨⟨m, res⟩, hinsert, rfl⟩ := map_eq_some_iff.mp h
  obtain ⟨horizon, hhorizon, -⟩ := hL.horizon_spec
  obtain ⟨hepochs, hprev, hshows⟩ := insertAt_shows hinsert hhorizon (some t.2)
  refine ⟨_, stepped_note hL (length_insertWrite ..) (.inl hepochs) (fun n hn p hp k => ?_)
    fun w hw => ?_⟩
  · rw [hepochs] at hn
    cases hhorizon.symm.trans hn
    exact hshows p hp k
  · obtain ⟨prev, hres, rfl⟩ := mem_insertWrite hw
    cases hprev prev hres
    exact ⟨fun h hh => late_compound hL (mem_of_find?_eq_some hfind) hh, fun e => some.inj,
      fun hover => ⟨hover, .inr ⟨slot, value, fits, fits', rfl⟩⟩⟩

theorem remove_stepped (h : W.call (.remove key fits) = some W') :
    ∃ ws, Stepped W (.remove key fits) W' ws := by
  cases h
  obtain ⟨hepochs, hshows⟩ := remove_shows (Prod.mk.eta (p := W.map.remove key fits)).symm none
  refine ⟨_, stepped_note hL (length_removeWrite ..) hepochs (fun _ _ p _ k => hshows p k)
    fun w hw => ?_⟩
  cases mem_removeWrite hw
  exact ⟨fun h hh => late_single hL hh, fun e he => (by cases he), fun hover => (by cases hover)⟩

theorem removeAt_stepped (h : W.call (.removeAt slot key fits) = some W') :
    ∃ ws, Stepped W (.removeAt slot key fits) W' ws := by
  obtain ⟨t, hfind, rfl⟩ := map_eq_some_iff.mp h
  obtain ⟨hepochs, hshows⟩ :=
    removeAt_shows (Prod.mk.eta (p := W.map.removeAt key t.2 fits)).symm (some t.2)
  refine ⟨_, stepped_note hL (length_removeWrite ..) (.inl hepochs) (fun _ _ p _ k => hshows p k)
    fun w hw => ?_⟩
  cases mem_removeWrite hw
  exact ⟨fun h hh => late_compound hL (mem_of_find?_eq_some hfind) hh, fun e => some.inj,
    fun hover => (by cases hover)⟩

theorem sweep_stepped (h : W.call .sweep = some W') : Stepped W .sweep W' [] := by
  obtain ⟨⟨m, res⟩, hsweep, rfl⟩ := map_eq_some_iff.mp h
  obtain ⟨horizon, hhorizon, -⟩ := hL.horizon_spec
  obtain ⟨hepochs, -, hshows⟩ := sweep_shows hsweep hhorizon
  refine stepped_note hL (Nat.zero_le _) (.inl hepochs) (fun n hn p hp k => ?_) nofun
  rw [hepochs] at hn
  cases hhorizon.symm.trans hn
  exact hshows p hp k

theorem begin_stepped (h : W.call (.begin pid) = some W') : Stepped W (.begin pid) W' [] := by
  unfold call at h
  dsimp only at h
  cases hclaim : W.map.epochs.claimTicket pid with
  | mk epochs res =>
    have hspec := hL.claimTicket hclaim
    rw [hclaim] at h
    cases res with
    | error e =>
      cases h
      cases hspec
      exact stepped_same hL
    | ok t =>
      cases h
      obtain ⟨hepoch, hcounter, hledger, -⟩ := hspec
      refine ⟨(append_nil _).symm, Nat.zero_le _, hledger, fun n hn => ⟨?_, fun t ht => ?_, hn.pins⟩,
        fun _ _ p _ k => rfl, nofun, fun h hh => .inl hh, nofun, nofun, ?_, fun e he => ?_⟩
      · have hn := hn.counter
        dsimp only
        omega
      · rcases mem_cons.mp ht with rfl | ht
        · have hn := hn.counter
          omega
        · exact hn.tickets t ht
      · dsimp only
        omega
      · rcases mem_cons.mp he with rfl | he
        · exact .inr hcounter.symm
        · exact .inl he

theorem publish_stepped (h : W.call (.publish slot) = some W') :
    Stepped W (.publish slot) W' [] := by
  obtain ⟨t, -, rfl⟩ := map_eq_some_iff.mp h
  exact ⟨(append_nil _).symm, Nat.zero_le _, hL.publishTicket slot,
    fun n hn => { hn with tickets := fun t ht => hn.tickets t (mem_filter.mp ht).1 },
    fun _ _ p _ k => rfl, nofun, fun h hh => .inl hh, nofun, nofun, le_rfl, fun e he => .inl he⟩

theorem release_stepped (h : W.call (.release slot) = some W') :
    Stepped W (.release slot) W' [] := by
  obtain ⟨t, -, rfl⟩ := map_eq_some_iff.mp h
  have hledger := hL.releasePin slot
  dsimp only [marks] at hledger
  rw [List.filter_map] at hledger
  refine ⟨(append_nil _).symm, Nat.zero_le _, hledger, fun n hn => { hn with
    pins := fun p hp => ?_ },
    fun _ _ p _ k => rfl, nofun, fun h hh => .inl (mem_filter.mp hh).1, nofun,
    nofun, le_rfl, fun e he => .inl he⟩
  obtain ⟨h, hh, rfl⟩ := List.mem_map.mp hp
  exact hn.pins _ (List.mem_map_of_mem (mem_filter.mp hh).1)

theorem pin_stepped (h : W.call (.pin pid) = some W') : Stepped W (.pin pid) W' [] := by
  obtain ⟨epochs, res, hclaim, hspec⟩ := hL.claimPin pid
  unfold call at h
  dsimp only at h
  rw [hclaim] at h
  cases res with
  | error e =>
    cases h
    cases hspec
    exact stepped_same hL
  | ok claim =>
    cases h
    obtain ⟨hnow, hcounter, hledger, -⟩ := hspec
    refine ⟨(append_nil _).symm, Nat.zero_le _, hledger,
      fun n hn => ⟨hcounter ▸ hn.counter, hn.tickets, fun p hp => ?_⟩,
      fun _ _ p _ k => rfl, nofun, fun h hh => ?_, nofun, nofun, le_of_eq hcounter.symm,
      fun e he => .inl he⟩
    · rcases mem_cons.mp hp with rfl | hp
      · exact hL.le_now hnow hn.counter hn.tickets
      · exact hn.pins p hp
    · rcases mem_cons.mp hh with rfl | hh
      · exact .inr ⟨hnow, rfl, rfl, rfl, rfl, rfl⟩
      · exact .inl hh

theorem call_stepped (h : W.call c = some W') : ∃ ws, Stepped W c W' ws := by
  cases c with
  | insert key value fits fits' => exact insert_stepped hL h
  | remove key fits => exact remove_stepped hL h
  | «begin» pid => exact ⟨[], begin_stepped hL h⟩
  | insertAt slot key value fits fits' => exact insertAt_stepped hL h
  | removeAt slot key fits => exact removeAt_stepped hL h
  | publish slot => exact ⟨[], publish_stepped hL h⟩
  | sweep => exact ⟨[], sweep_stepped hL h⟩
  | pin pid => exact ⟨[], pin_stepped hL h⟩
  | release slot => exact ⟨[], release_stepped hL h⟩

end

/-- The map shows readers what its log says, and every pin found its origin so. -/
structure Sound (W : Session K V) : Prop where
  ledger : Ledger W.map.epochs W.tickets W.marks
  reads : ∀ n, W.map.epochs.reclaimHorizon = some n → ∀ p, n ≤ p → ∀ k,
    W.map.getAt k p = shown p k W.log
  begun : ∀ e ∈ W.begun, e ≤ W.map.epochs.counter
  origin : ∀ h ∈ W.pins, ∀ k, h.origin.getAt k h.epoch = shown h.epoch k (W.log.take h.logged)
  logged : ∀ h ∈ W.pins, h.logged ≤ W.log.length
  late : ∀ h ∈ W.pins, ∀ w ∈ W.log.drop h.logged, h.epoch < w.epoch
  quiet : ∀ h ∈ W.pins, h.opened = [] → ∀ e ∈ h.begun, e ≤ h.epoch

theorem sound_start (maxPins : Nat) : Sound (start maxPins : Session K V) :=
  ⟨SharedEpochs.ledger_create maxPins, fun _ _ _ _ _ => rfl, nofun, nofun, nofun, nofun, nofun⟩

theorem Sound.horizon_le (hS : Sound W) (hn : W.map.epochs.reclaimHorizon = some n)
    (hh : h ∈ W.pins) : n ≤ h.epoch :=
  ((hS.ledger.le_horizon_iff hn n).mp le_rfl).pins (h.slot, h.epoch) (mem_map_of_mem hh)

theorem Sound.call (hS : Sound W) (h : W.call c = some W') : Sound W' := by
  obtain ⟨ws, hstep⟩ := call_stepped hS.ledger h
  obtain ⟨n0, hn0, -⟩ := hS.ledger.horizon_spec
  have hreads : ∀ n, W'.map.epochs.reclaimHorizon = some n → ∀ p, n ≤ p → ∀ k,
      W'.map.getAt k p = shown p k W'.log := by
    intro n hn p hp k
    have hle : n0 ≤ n := (hstep.ledger.le_horizon_iff hn n0).mpr
      (hstep.settles n0 ((hS.ledger.le_horizon_iff hn0 n0).mp (le_refl n0)))
    rw [hstep.shows n hn p hp k, hS.reads n0 hn0 p (le_trans hle hp) k, hstep.log]
    exact (replay_append p k none W.log ws).symm
  refine ⟨hstep.ledger, hreads, fun e he => ?_, fun h hh k => ?_, fun h hh => ?_,
    fun h hh w hw => ?_, fun h hh hopened e he => ?_⟩
  · rcases hstep.begun e he with he | rfl
    · exact le_trans (hS.begun e he) hstep.counter
    · exact le_rfl
  · rcases hstep.pins h hh with hold | hfresh
    · rw [hstep.log, take_append_of_le_length (hS.logged h hold)]
      exact hS.origin h hold k
    obtain ⟨n, hn, -⟩ := hstep.ledger.horizon_spec
    have hle : n ≤ h.epoch := ((hstep.ledger.le_horizon_iff hn n).mp le_rfl).pins
      (h.slot, h.epoch) (mem_map_of_mem hh)
    rw [hfresh.origin, hreads n hn h.epoch hle k, hfresh.log, hfresh.logged, take_length]
  · rw [hstep.log, length_append]
    rcases hstep.pins h hh with hold | hfresh
    · exact Nat.le_add_right_of_le (hS.logged h hold)
    · rw [hfresh.logged]
      exact Nat.le_add_right ..
  · rcases hstep.pins h hh with hold | hfresh
    · rw [hstep.log, drop_append_of_le_length (hS.logged h hold)] at hw
      rcases mem_append.mp hw with hw | hw
      · exact hS.late h hold w hw
      · exact hstep.late h hold w hw
    · rw [hfresh.log, hfresh.logged, drop_length] at hw
      cases hw
  · rcases hstep.pins h hh with hold | hfresh
    · exact hS.quiet h hold hopened e he
    rw [hfresh.opened] at hopened
    rw [hfresh.begun] at he
    refine hS.ledger.le_now hfresh.now (hS.begun e he) fun t ht => ?_
    rw [hopened] at ht
    cases ht

theorem find?_slot {α : Type} {l : List α} {f : α → Nat} (h : ∃ a ∈ l, f a = slot) :
    ∃ a, l.find? (fun a => f a == slot) = some a := by
  obtain ⟨a, ha, heq⟩ := h
  exact isSome_iff_exists.mp (find?_isSome.mpr ⟨a, ha, beq_iff_eq.mpr heq⟩)

/-- After any calls, a call by a caller that holds what it names returns. -/
theorem reached_call_returns {maxPins : Nat} (hrun : Lib.run call (start maxPins) calls = some W)
    (hholds : Holds W c) : ∃ W', W.call c = some W' := by
  have hS : Sound W :=
    Lib.run_preserves (fun _ _ _ hS h => hS.call h) (sound_start maxPins) hrun
  obtain ⟨horizon, hhorizon, -⟩ := hS.ledger.horizon_spec
  cases c with
  | insert key value fits fits' =>
    obtain ⟨horizon', hhorizon', -⟩ := hS.ledger.advance.horizon_spec
    obtain ⟨r, hr⟩ := isSome_iff_exists.mp (insertAt_returns
      (m := { W.map with epochs := W.map.epochs.advance.2 }) hhorizon' key value
      W.map.epochs.advance.1 fits fits')
    exact ⟨_, map_eq_some_iff.mpr ⟨r, hr, rfl⟩⟩
  | remove key fits => exact ⟨_, rfl⟩
  | «begin» pid =>
    unfold Session.call
    dsimp only
    split <;> exact ⟨_, rfl⟩
  | insertAt slot key value fits fits' =>
    obtain ⟨t, ht⟩ := find?_slot hholds
    obtain ⟨r, hr⟩ := isSome_iff_exists.mp (insertAt_returns hhorizon key value t.2 fits fits')
    exact ⟨_, bind_eq_some_iff.mpr ⟨t, ht, map_eq_some_iff.mpr ⟨r, hr, rfl⟩⟩⟩
  | removeAt | publish | release =>
    obtain ⟨t, ht⟩ := find?_slot hholds
    exact ⟨_, map_eq_some_iff.mpr ⟨t, ht, rfl⟩⟩
  | sweep =>
    unfold Session.call sweep
    rw [hhorizon]
    exact ⟨_, rfl⟩
  | pin pid =>
    obtain ⟨epochs, res, hclaim, -⟩ := hS.ledger.claimPin pid
    exact ⟨_, map_eq_some_iff.mpr ⟨_, hclaim, rfl⟩⟩

/-- An insert over a tombstone that a pin can still reach. -/
theorem reached_call_returns_pinned : ∃ W W' : Session Nat Nat,
    Lib.run call (start 1) [.insert 5 50 true true, .pin 7, .remove 5 true] = some W ∧
      W.call (.insert 5 51 true true) = some W' := by
  obtain ⟨W, hrun⟩ : ∃ W : Session Nat Nat, Lib.run call (start 1)
    [.insert 5 50 true true, .pin 7, .remove 5 true] = some W := ⟨_, rfl⟩
  obtain ⟨W', hcall⟩ := reached_call_returns hrun (c := .insert 5 51 true true) trivial
  exact ⟨W, W', hrun, hcall⟩

end Session
end SubEtha.Epochs
