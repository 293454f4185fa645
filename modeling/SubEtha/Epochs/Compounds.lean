import SubEtha.Epochs.Pinned

namespace SubEtha.Epochs
open List
open Lib (OrdMap Bound EveryStep run run_invariant run_preserves)

variable {K V : Type} [LinearOrder K]

/-- Writes above a reader's epoch: it loses the key that one of them replaced. -/
theorem replay_late (hlate : ∀ w ∈ ws, p < w.epoch) (k : K) (seen : Option V) :
    replay p k seen ws = if ws.any fun w => w.key == k && w.replaced then none else seen := by
  induction ws generalizing seen with
  | nil => rfl
  | cons w ws ih =>
    have hw : ¬w.epoch ≤ p := not_le.mpr (hlate w (mem_cons_self ..))
    rw [← singleton_append, replay_append, replay_singleton,
      ih fun w' hw' => hlate w' (mem_cons_of_mem _ hw')]
    by_cases hk : k = w.key
    · cases hover : w.replaced <;> simp [hk, Write.apply, hw, hover]
    · simp [hk, beq_false_of_ne (Ne.symm hk)]

namespace Session

/-- Since the pin was taken, an insert has replaced a live value of the key. -/
def replaced (W : Session K V) (h : Held K V) (key : K) : Bool :=
  (W.log.drop h.logged).any fun w => w.key == key && w.replaced

section
variable {h : Held K V}

theorem Sound.getAt_held (hS : Sound W) (hh : h ∈ W.pins) (k : K) :
    W.map.getAt k h.epoch = shown h.epoch k W.log := by
  obtain ⟨n, hn, -⟩ := hS.ledger.horizon_spec
  exact hS.reads n hn h.epoch (hS.horizon_le hn hh) k

theorem Sound.getAt_origin (hS : Sound W) (hh : h ∈ W.pins) (k : K) :
    W.map.getAt k h.epoch = if W.replaced h k then none else h.origin.getAt k h.epoch := by
  have hsplit := replay_append h.epoch k none (W.log.take h.logged) (W.log.drop h.logged)
  rw [take_append_drop] at hsplit
  rw [hS.getAt_held hh, hS.origin h hh]
  exact hsplit.trans (replay_late (hS.late h hh) k _)

theorem Sound.view_origin (hS : Sound W) (hh : h ∈ W.pins) :
    W.map.view h.epoch = (h.origin.view h.epoch).filter fun k _ => !W.replaced h k := by
  refine OrdMap.ext_get fun k => ?_
  rw [OrdMap.get_filter, VersionedBTreeMap.get_view, VersionedBTreeMap.get_view, hS.getAt_origin hh]
  cases W.replaced h k <;> cases h.origin.getAt k h.epoch <;> rfl

end

/-- From its taking to its release a pin sees what it saw then, without the keys whose
live value an insert has replaced since. -/
theorem pin_loses_only_replaced {maxPins : Nat} {calls : List (Call K V)} {W : Session K V}
    (hrun : run call (start maxPins) calls = some W) {h : Held K V} (hh : h ∈ W.pins) :
    (∀ k, W.map.getAt k h.epoch = if W.replaced h k then none else h.origin.getAt k h.epoch) ∧
      ∀ low high limit limit', W.map.tree.len ≤ limit → h.origin.tree.len ≤ limit' →
        W.map.rangeAt low high limit h.epoch =
          (h.origin.rangeAt low high limit' h.epoch).filter fun a => !W.replaced h a.1 := by
  have hS : Sound W := run_preserves (fun _ _ _ hS hcall => hS.call hcall) (sound_start maxPins) hrun
  refine ⟨hS.getAt_origin hh, fun low high limit limit' hlimit hlimit' => ?_⟩
  rw [VersionedBTreeMap.rangeAt_full hlimit, VersionedBTreeMap.rangeAt_full hlimit',
    hS.view_origin hh]
  dsimp only [OrdMap.filter]
  rw [filter_filter, filter_filter]
  exact filter_congr fun a _ => Bool.and_comm ..

/-- An insert, a pin, and an insert over the live key. -/
def updateUnderPin : List (Call Nat Nat) :=
  [.insert 1 10 true true, .insert 2 20 true true, .pin 7, .insert 1 11 true true]

/-- The pin saw both keys and sees one of them. -/
theorem update_hides_key : (run call (start 4) updateUnderPin).map (fun W => W.pins.map fun h =>
      ([h.origin.getAt 1 h.epoch, W.map.getAt 1 h.epoch],
        [h.origin.rangeAt .unbounded .unbounded 8 h.epoch,
          W.map.rangeAt .unbounded .unbounded 8 h.epoch])) =
      some [([some 10, none], [[(1, 10), (2, 20)], [(2, 20)]])] := by
  decide +kernel

theorem updateUnderPin_pins :
    ((run call (start 4) updateUnderPin).bind fun W => W.pins.head?).isSome = true := by
  decide +kernel

theorem pin_loses_only_replaced_update :
    ∃ W h, run call (start 4) updateUnderPin = some W ∧ h ∈ W.pins ∧ ∀ k,
      W.map.getAt k h.epoch = if W.replaced h k then none else h.origin.getAt k h.epoch := by
  obtain ⟨h, hbind⟩ := Option.isSome_iff_exists.mp updateUnderPin_pins
  obtain ⟨W, hrun, hhead⟩ := Option.bind_eq_some_iff.mp hbind
  have hh := mem_of_head? hhead
  exact ⟨W, h, hrun, hh, (pin_loses_only_replaced hrun hh).1⟩

/-- A compound inserts only at keys that are not live, and no single insert replaces a
live value at a key that a compound has written. -/
def Compounded (W : Session K V) : Call K V → Prop
  | .insert key _ _ _ =>
    (W.map.get key).isSome = true → ∀ w ∈ W.log, w.key = key → w.ticket = none
  | .insertAt _ key _ _ _ => W.map.get key = none
  | _ => True

instance (W : Session K V) : DecidablePred (Compounded W) := fun c => by
  cases c <;> unfold Compounded <;> infer_instance

/-- The pin sees each write of the compound of epoch `e`, up to a later write to its
key that the pin sees too. -/
def SeesAll (W : Session K V) (h : Held K V) (e : Nat) : Prop :=
  ∀ before w after, W.log = before ++ w :: after → w.ticket = some e →
    (∀ w' ∈ after, w'.key = w.key → h.epoch < w'.epoch) → W.map.getAt w.key h.epoch = w.value

/-- The pin sees what the other writes alone show it. -/
def SeesNone (W : Session K V) (h : Held K V) (e : Nat) : Prop :=
  ∀ k, W.map.getAt k h.epoch = shown h.epoch k (W.log.filter fun w => w.ticket != some e)

/-- No write replaces a live value that a compound wrote, and none of a compound's does. -/
structure Tended (log : List (Write K V)) : Prop where
  epochs : ∀ w ∈ log, ∀ e, w.ticket = some e → w.epoch = e
  fresh : ∀ w ∈ log, w.ticket.isSome = true → w.replaced = false
  kept : log.Pairwise fun w w' => w.ticket.isSome = true → w'.key = w.key → w'.replaced = false

section
variable {c : Call K V} {h : Held K V}

theorem Tended.call (hS : Sound W) (hT : Tended W.log) (hc : Compounded W c)
    (hcall : W.call c = some W') : Tended W'.log := by
  obtain ⟨ws, hstep⟩ := call_stepped hS.ledger hcall
  have hsingle : ∀ w ∈ ws, w.replaced = true →
      w.ticket = none ∧ ∀ w' ∈ W.log, w'.key = w.key → w'.ticket = none := by
    intro w hw hover
    obtain ⟨hlive, hins⟩ := hstep.replaced w hw hover
    rcases hins with ⟨value, fits, fits', rfl, hnone⟩ | ⟨slot, value, fits, fits', rfl⟩
    · exact ⟨hnone, hc hlive⟩
    · rw [show W.map.get w.key = none from hc] at hlive
      cases hlive
  rw [hstep.log]
  refine ⟨fun w hw e he => ?_, fun w hw hsome => ?_, pairwise_append.mpr ⟨hT.kept, ?_, ?_⟩⟩
  · rcases mem_append.mp hw with hw | hw
    · exact hT.epochs w hw e he
    · exact hstep.tickets w hw e he
  · rcases mem_append.mp hw with hw | hw
    · exact hT.fresh w hw hsome
    refine Bool.eq_false_iff.mpr fun hover => ?_
    rw [(hsingle w hw hover).1] at hsome
    cases hsome
  · have hlength := hstep.length
    rcases ws with _ | ⟨w, _ | ⟨w', ws⟩⟩
    · exact .nil
    · exact pairwise_singleton ..
    · simp at hlength
  · intro w hw w' hw' hsome hkey
    refine Bool.eq_false_iff.mpr fun hover => ?_
    rw [(hsingle w' hw' hover).2 w hw hkey.symm] at hsome
    cases hsome

/-- Writes that a reader does not see and that replace nothing can be left out. -/
theorem replay_filter {k : K} {ws : List (Write K V)} {q : Write K V → Bool}
    (hhidden : ∀ w ∈ ws, q w = false → w.key = k → p < w.epoch ∧ w.replaced = false)
    (seen : Option V) : replay p k seen (ws.filter q) = replay p k seen ws := by
  induction ws generalizing seen with
  | nil => rfl
  | cons w ws ih =>
    have hrest := ih fun w' hw' => hhidden w' (mem_cons_of_mem _ hw')
    rw [← singleton_append (l := ws), replay_append, ← hrest]
    cases hkeep : q w with
    | true => rw [singleton_append, filter_cons_of_pos hkeep, ← replay_append]; rfl
    | false =>
      rw [singleton_append, filter_cons_of_neg (by simp [hkeep]), replay_singleton]
      split
      · rename_i hk
        obtain ⟨hlate, hover⟩ := hhidden w (mem_cons_self ..) hkeep hk.symm
        simp [Write.apply, not_le.mpr hlate, hover]
      · rfl

theorem Tended.seesAll (hS : Sound W) (hT : Tended W.log) (hh : h ∈ W.pins) {e : Nat}
    (he : e ≤ h.epoch) : SeesAll W h e := by
  intro before w after hlog hticket hlater
  have hkept : ∀ w' ∈ after, w'.key = w.key → h.epoch < w'.epoch ∧ w'.replaced = false := by
    intro w' hw' hkey
    have hpair := hT.kept
    rw [hlog] at hpair
    obtain ⟨-, hafter, -⟩ := pairwise_append.mp hpair
    exact ⟨hlater w' hw' hkey, (pairwise_cons.mp hafter).1 w' hw' (by rw [hticket]; rfl) hkey⟩
  have hepoch : w.epoch = e := hT.epochs w (by rw [hlog]; simp) e hticket
  rw [hS.getAt_held hh, hlog, shown, replay_append, ← singleton_append, replay_append,
    ← replay_filter (q := fun _ => false) fun w' hw' _ => hkept w' hw', filter_false,
    replay_singleton, if_pos rfl]
  exact if_pos (hepoch ▸ he)

theorem Tended.seesNone (hS : Sound W) (hT : Tended W.log) (hh : h ∈ W.pins) {e : Nat}
    (he : h.epoch < e) : SeesNone W h e := by
  intro k
  rw [hS.getAt_held hh]
  refine (replay_filter (fun w hw hkeep _ => ?_) none).symm
  have hticket : w.ticket = some e := by simpa using hkeep
  exact ⟨hT.epochs w hw e hticket ▸ he, hT.fresh w hw (by rw [hticket]; rfl)⟩

end

/-- A pin sees a compound whole or not at all, and one taken while no ticket was open
sees every compound begun before it. -/
theorem compounds_all_or_nothing {maxPins : Nat} {calls : List (Call K V)} {W : Session K V}
    (hcalls : EveryStep call Compounded (start maxPins) calls)
    (hrun : run call (start maxPins) calls = some W) {h : Held K V} (hh : h ∈ W.pins) :
    (∀ e ∈ W.begun, SeesAll W h e ∨ SeesNone W h e) ∧
      (h.opened = [] → ∀ e ∈ h.begun, SeesAll W h e) := by
  have hstep : ∀ (W : Session K V) (c : Call K V) (W' : Session K V), Sound W ∧ Tended W.log →
      Compounded W c → W.call c = some W' → Sound W' ∧ Tended W'.log :=
    fun W c W' hinv hc hcall => ⟨hinv.1.call hcall, hinv.2.call hinv.1 hc hcall⟩
  obtain ⟨hS, hT⟩ := run_invariant hstep ⟨sound_start maxPins, nofun, nofun, .nil⟩ hcalls hrun
  refine ⟨fun e _ => ?_, fun hopened e he => hT.seesAll hS hh (hS.quiet h hh hopened e he)⟩
  rcases lt_or_ge h.epoch e with hlt | hle
  · exact .inr (hT.seesNone hS hh hlt)
  · exact .inl (hT.seesAll hS hh hle)

/-- Two overlapping compounds, the later one published first, with single writes, a
sweep and a pin before, between and after. -/
def overlapping : List (Call Nat Nat) :=
  [.insert 5 50 true true, .begin 1, .begin 2, .insertAt 0 1 10 true true,
    .insertAt 1 2 20 true true, .pin 9, .removeAt 0 5 true, .publish 1, .insert 7 70 true true,
    .pin 9, .insertAt 0 3 30 true true, .publish 0, .insert 7 71 true true, .sweep, .pin 9]

theorem overlapping_pins : ((run call (start 4) overlapping).bind fun W => W.pins.head?).any
      (fun h => h.opened == [] && h.begun == [3, 2]) = true := by
  decide +kernel

theorem compounds_all_or_nothing_overlapping :
    ∃ W h, run call (start 4) overlapping = some W ∧ h ∈ W.pins ∧ SeesAll W h 2 ∧ SeesAll W h 3 := by
  obtain ⟨h, hbind, hquiet⟩ := (Option.any_eq_true _ _).mp overlapping_pins
  obtain ⟨W, hrun, hhead⟩ := Option.bind_eq_some_iff.mp hbind
  obtain ⟨hopened, hbegun⟩ := Bool.and_eq_true_iff.mp hquiet
  have hall := (compounds_all_or_nothing (by decide +kernel) hrun (mem_of_head? hhead)).2
    (beq_iff_eq.mp hopened)
  rw [beq_iff_eq.mp hbegun] at hall
  exact ⟨W, h, hrun, mem_of_head? hhead, hall 2 (by decide), hall 3 (by decide)⟩

end Session
end SubEtha.Epochs
