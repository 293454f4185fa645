import SubEtha.Epochs.Crash

namespace SubEtha.Epochs.Crash
open List Option Function
open Lib (EveryStep run run_invariant)
open World HolderTable

variable {S S' : World} {t i : Nat} {T : Thread}

namespace World

/-- A thread whose process is gone stands nowhere. -/
def phaseAt (S : World) (t : Nat) : Phase := ((S.running t).map Thread.phase).getD .idle

def view (S : World) : View := ⟨S.stateAt, S.epochs.counter, S.held, S.phaseAt⟩

/-- A running thread has claimed the slot and not written its payload. -/
def claimed (S : World) (slot : Nat) : Bool :=
  S.threads.any fun T => S.alive T.pid && T.phase.slot? == some slot

theorem running_some (h : S.running t = some T) :
    S.threads[t]? = some T ∧ S.alive T.pid = true := filter_eq_some_iff.mp h

theorem phaseAt_running (h : S.running t = some T) : S.phaseAt t = T.phase := by
  rw [phaseAt, h]
  rfl

theorem phaseAt_cases (S : World) (t : Nat) :
    S.phaseAt t = .idle ∨ ∃ T, S.running t = some T ∧ S.phaseAt t = T.phase := by
  cases hT : S.running t with
  | none => exact .inl (by rw [phaseAt, hT]; rfl)
  | some T => exact .inr ⟨T, rfl, phaseAt_running hT⟩

theorem claimed_of_phase (h : (S.phaseAt t).slot? = some slot) : S.claimed slot = true := by
  rcases phaseAt_cases S t with hidle | ⟨T, hT, hphase⟩
  · rw [hidle] at h
    cases h
  · obtain ⟨hget, hlive⟩ := running_some hT
    exact any_eq_true.mpr ⟨T, mem_of_getElem? hget, by simp [hlive, ← hphase, h]⟩

theorem view_setPhase (h : S.running t = some T) (phase : Phase) :
    (S.setPhase t phase).view = { S.view with phases := update S.phaseAt t phase } := by
  obtain ⟨hT, hlive⟩ := running_some h
  have hphases : (S.setPhase t phase).phaseAt = update S.phaseAt t phase := by
    funext t'
    have hrunning : (S.setPhase t phase).running t' =
        ((S.threads.modify t fun T => { T with phase := phase })[t']?).filter fun T =>
          S.alive T.pid := rfl
    rw [phaseAt, hrunning, update_apply, getElem?_modify]
    by_cases heq : t' = t
    · subst heq
      simp [hT, hlive, filter_some]
    · simp [heq, Ne.symm heq, phaseAt, running]
  rw [view, hphases]
  rfl

theorem stateAt_modify (hslot : S.stateAt i = some s)
    (hf : ∀ s, S.epochs.tickets[i]? = some s → (f s).state = state) :
    (S.setTickets (S.epochs.tickets.modify i f)).stateAt = update S.stateAt i (some state) := by
  obtain ⟨slot, hget, -⟩ := map_eq_some_iff.mp hslot
  funext j
  rw [update_apply]
  unfold stateAt setTickets
  dsimp only
  rw [getElem?_modify]
  by_cases heq : j = i
  · subst heq
    simp [hget, hf slot hget]
  · simp [heq, Ne.symm heq]

/-- A thread writes to a slot and goes on. -/
theorem view_write (phase : Phase) (hT : S.running t = some T) (hslot : S.stateAt i = some s)
    (hf : ∀ s, S.epochs.tickets[i]? = some s → (f s).state = state) :
    ((S.setTickets (S.epochs.tickets.modify i f)).setPhase t phase).view =
      { S.view with slots := update S.stateAt i (some state), phases := update S.phaseAt t phase } := by
  rw [view_setPhase (S := S.setTickets (S.epochs.tickets.modify i f)) hT phase, ← stateAt_modify hslot hf]
  rfl

end World

/-- The tables guard the tickets, and every value returned has been below the tickets that
were dead then. -/
structure Sound (S : World) : Prop where
  guarded : Guarded S.view
  answers : ∀ a ∈ S.answers, ∀ e ∈ a.2, a.1 < e

/-- The step frees no published ticket, and no reservation of a process that runs. -/
def spares (S : World) : Event → Bool
  | .tick t => (S.threads[t]?).all fun T =>
    match T.phase with
    | .freeing _ _ i state owner => !S.frees i state owner || state == .reserved && !S.claimed i
    | _ => true
  | _ => true

def Spared (S : World) (e : Event) : Prop := spares S e = true
deriving Decidable

theorem start_sound (capacity : Nat) (pids : List Nat) : Sound (World.start capacity pids) := by
  have hidle : ∀ t, (World.start capacity pids).view.phases t = .idle := by
    intro t
    rcases phaseAt_cases (World.start capacity pids) t with hidle | ⟨T, hT, hphase⟩
    · exact hidle
    · obtain ⟨pid, -, rfl⟩ := mem_map.mp (mem_of_getElem? (running_some hT).1)
      exact hphase
  refine ⟨⟨nofun, fun t _ hs => ?_, fun t _ _ hs => ?_, fun t _ hs => ?_, fun t _ hs => ?_⟩, nofun⟩
  all_goals
    rw [hidle] at hs
    cases hs

section
variable (h : Sound S)
include h

theorem Sound.setPhase (hT : S.running t = some T)
    (hguarded : Guarded { S.view with phases := update S.phaseAt t phase }) :
    Sound (S.setPhase t phase) :=
  ⟨view_setPhase hT phase ▸ hguarded, h.answers⟩

theorem Sound.leave (hT : S.running t = some T) (hslot : phase.slot? = none)
    (hclaim : phase.claim? = none) (hscan : phase.scan? = none) : Sound (S.setPhase t phase) :=
  h.setPhase hT (h.guarded.leave hslot hclaim hscan)

theorem Sound.write (hT : S.running t = some T) (hslot : S.stateAt i = some s)
    (hf : ∀ s, S.epochs.tickets[i]? = some s → (f s).state = state)
    (hguarded : Guarded { S.view with
      slots := update S.stateAt i (some state), phases := update S.phaseAt t phase }) :
    Sound ((S.setTickets (S.epochs.tickets.modify i f)).setPhase t phase) :=
  ⟨view_write phase hT hslot hf ▸ hguarded, h.answers⟩

theorem Sound.pins (table : HolderTable) (pins : List (Nat × Nat)) :
    Sound { S.setPins table with pins := pins } := ⟨h.guarded, h.answers⟩

/-- A scan of every slot returns below each ticket. -/
theorem Sound.answer (hphase : S.phaseAt t = .scanning why restarts acc i)
    (hend : S.epochs.tickets[i]? = none) : Sound (S.answer acc) := by
  refine ⟨h.guarded, fun a ha e he => ?_⟩
  rcases mem_cons.mp ha with rfl | ha
  · obtain ⟨k, hk, rfl⟩ := mem_map.mp he
    have hk := (mem_filter.mp hk).1
    have hscan : (S.phaseAt t).scan? = some (acc, i) := by rw [hphase]; rfl
    rcases (h.guarded.scans t _ hscan).2.1 k hk with hlt | hslot
    · exact hlt
    obtain ⟨s, hget, -⟩ := map_eq_some_iff.mp (h.guarded.held k hk).1
    have hin := lt_of_some hget
    have hout := getElem?_eq_none_iff.mp hend
    omega
  · exact h.answers a ha e he

theorem Sound.free (hT : S.running t = some T) (hspared : Spared S (.tick t))
    (hphase : T.phase = .freeing why restarts i state owner) :
    Sound (S.advance t T.pid T.phase) := by
  rw [hphase, World.advance]
  split
  · rename_i hfrees
    rw [Spared, spares, (running_some hT).1] at hspared
    simp only [all_some, hphase, hfrees, Bool.not_true, Bool.false_or, Bool.and_eq_true,
      beq_iff_eq, Bool.not_eq_true'] at hspared
    obtain ⟨rfl, hunclaimed⟩ := hspared
    have hslot : S.stateAt i = some .reserved := by
      simp only [frees, Bool.and_eq_true, beq_iff_eq] at hfrees
      exact hfrees.2
    have hfree : ∀ t, (S.view.phases t).slot? ≠ some i := fun t hs => by
      rw [claimed_of_phase hs] at hunclaimed
      cases hunclaimed
    exact h.write hT hslot (fun _ _ => rfl) ((h.guarded.setSlot_self hfree
      (fun k hk => h.guarded.held_ne hk hslot nofun) (some .free)).leave rfl rfl rfl)
  · exact h.leave hT rfl rfl rfl

theorem Sound.scan (hT : S.running t = some T) (hphase : T.phase = .scanning why restarts acc i) :
    Sound (S.advance t T.pid T.phase) := by
  have hat := (phaseAt_running hT).trans hphase
  rw [hphase, World.advance]
  split
  · rename_i hend
    cases why <;> exact (h.answer hat hend).leave hT rfl rfl rfl
  rename_i s hget
  have hslot : S.view.slots i = some s.state := map_eq_some_iff.mpr ⟨s, hget, rfl⟩
  split
  · rename_i hstate
    exact h.setPhase hT (h.guarded.scan hat hslot (by simp [hstate]) le_rfl (by simp [hstate]))
  · unfold restart
    split <;> exact h.leave hT rfl rfl rfl
  · rename_i payload hstate
    refine h.setPhase hT (h.guarded.scan hat hslot (by simp [hstate]) (min_le_left ..) fun _ hp => ?_)
    rw [hstate] at hp
    cases hp
    exact min_le_right ..

theorem Sound.tick (hT : S.running t = some T) (hspared : Spared S (.tick t)) :
    Sound (S.advance t T.pid T.phase) := by
  have hat := phaseAt_running hT
  cases hphase : T.phase with
  | idle => exact h
  | reserving i =>
    dsimp only [World.advance]
    split
    · exact h.leave hT rfl rfl rfl
    rename_i s hget
    split
    · rename_i hfree
      have hslot : S.stateAt i = some .free := map_eq_some_iff.mpr ⟨s, hget, hfree⟩
      exact h.write hT hslot (fun _ _ => rfl) (h.guarded.reserve hslot)
    · exact h.leave hT rfl rfl rfl
  | stamping slot =>
    have hstamp := h.guarded.stamp (hat.trans hphase)
    have hslot : S.stateAt slot = some .reserved :=
      h.guarded.reserved t slot (congrArg Phase.slot? (hat.trans hphase))
    have hf : ∀ s, S.epochs.tickets[slot]? = some s → s.state = .reserved := fun s hget => by
      rw [stateAt, hget] at hslot
      exact some.inj hslot
    refine h.write hT hslot hf ?_
    rw [← hslot, update_eq_self]
    exact hstamp
  | reserved slot =>
    have hadvance := h.guarded.advance (hat.trans hphase)
    exact ⟨view_setPhase (S := { S with epochs := S.epochs.advance.2 }) hT _ ▸ hadvance, h.answers⟩
  | advanced slot epoch =>
    have hslot : S.stateAt slot = some .reserved :=
      h.guarded.reserved t slot (congrArg Phase.slot? (hat.trans hphase))
    refine ⟨?_, h.answers⟩
    have hview := view_write (S := { S with held := ⟨slot, epoch, T.pid⟩ :: S.held }) .idle
      hT hslot (f := fun s => { s with state := .held (epoch + 1) }) fun _ _ => rfl
    exact hview ▸ h.guarded.publish (hat.trans hphase) T.pid
  | sampling why restarts =>
    refine h.setPhase hT (h.guarded.setPhase nofun nofun fun scan hs => ?_)
    cases hs
    exact ⟨le_refl _, fun k _ => .inr (Nat.zero_le _), fun _ c _ => .inr (Nat.zero_le _)⟩
  | scanning => exact hphase ▸ h.scan hT hphase
  | reaping | owning | folding =>
    dsimp only [World.advance]
    split
    · exact h.leave hT rfl rfl rfl
    · split <;> exact h.leave hT rfl rfl rfl
  | freeing why restarts i state owner => exact hphase ▸ h.free hT hspared hphase
  | pinReserving retry =>
    dsimp only [World.advance]
    split
    · rename_i slot pins _
      exact (h.pins pins S.pins).leave hT rfl rfl rfl
    · cases retry <;> exact h.leave hT rfl rfl rfl
  | pinReaping => exact (h.pins (S.epochs.pins.reapDead S.alive) S.pins).leave hT rfl rfl rfl
  | pinDecided slot at' =>
    exact (h.pins (S.epochs.pins.publish slot (at' + 1)) ((slot, T.pid) :: S.pins)).leave hT rfl rfl rfl
  | pinsReaping restarts =>
    exact (h.pins (S.epochs.pins.reapDead S.alive) S.pins).leave hT rfl rfl rfl

/-- A ticket's slot is given back, with every ticket that is there. -/
theorem Sound.giveBack (hslot : S.stateAt i = some (.held payload)) (hf : ∀ s, (f s).state = .free)
    (hheld : ∀ k ∈ S.held, p k = true → k.slot ≠ i) :
    Sound { S.setTickets (S.epochs.tickets.modify i f) with held := S.held.filter p } := by
  have hfree : ∀ t, (S.view.phases t).slot? ≠ some i := fun t hs => by
    have hres := (h.guarded.reserved t i hs).symm.trans hslot
    cases hres
  have hset : Guarded { S.view with
      slots := update S.stateAt i (some .free), held := S.held.filter p } :=
    h.guarded.setSlot p hfree hheld (some .free)
  rw [← stateAt_modify hslot fun s _ => hf s] at hset
  exact ⟨hset, h.answers⟩

theorem Sound.released (hk : k ∈ S.held) : Sound { S.setTickets (S.epochs.tickets.release k.slot) with
    held := S.held.filter fun h => h.slot != k.slot } := by
  rw [release, set_eq_modify]
  exact h.giveBack (h.guarded.held k hk).1 (fun _ => rfl) fun k' _ hne => bne_iff_ne.mp hne

theorem Sound.freed (epoch : Nat) : Sound (S.freeDeadTicket epoch) := by
  unfold freeDeadTicket
  split
  · exact h
  rename_i i hfind
  split
  · exact h
  rename_i s hget
  split
  · have hslot : S.stateAt i = some (.held (epoch + 1)) := by
      obtain ⟨hlt, hp, -⟩ := findIdx?_eq_some_iff_getElem.mp hfind
      rw [stateAt, getElem?_eq_getElem hlt]
      exact congrArg some (beq_iff_eq.mp hp)
    refine h.giveBack hslot (fun _ => rfl) fun k hk hne => ?_
    exact h.guarded.held_ne hk hslot fun heq => by simp_all
  · exact h

theorem Sound.step (hspared : Spared S e) (hstep : S.step e = some S') : Sound S' := by
  cases e with
  | call t op =>
    obtain ⟨T, hT, hstep⟩ := bind_eq_some_iff.mp hstep
    split at hstep <;> cases hstep
    cases op <;> exact h.leave hT rfl rfl rfl
  | tick t =>
    obtain ⟨T, hT, rfl⟩ := map_eq_some_iff.mp hstep
    exact h.tick hT hspared
  | publishTicket t slot =>
    obtain ⟨T, -, hstep⟩ := bind_eq_some_iff.mp hstep
    split at hstep <;> cases hstep
    rename_i hheld
    obtain ⟨k, hk, hboth⟩ := any_eq_true.mp hheld.2
    cases beq_iff_eq.mp (Bool.and_eq_true_iff.mp hboth).1
    exact h.released hk
  | releasePin t slot =>
    obtain ⟨T, -, hstep⟩ := bind_eq_some_iff.mp hstep
    split at hstep <;> cases hstep
    exact h.pins _ _
  | freeDeadTicket t epoch =>
    obtain ⟨T, -, hstep⟩ := bind_eq_some_iff.mp hstep
    split at hstep <;> cases hstep
    exact h.freed epoch
  | die pid =>
    cases hstep
    refine ⟨h.guarded.forget fun t => ?_, h.answers⟩
    rcases phaseAt_cases { S with dead := pid :: S.dead } t with hidle | ⟨T, hT, hphase⟩
    · exact .inr hidle
    · obtain ⟨hget, hlive⟩ := running_some hT
      simp only [alive, contains_cons, Bool.not_or, Bool.and_eq_true] at hlive
      have hT : S.running t = some T := filter_eq_some_iff.mpr ⟨hget, hlive.2⟩
      exact .inl (hphase.trans (phaseAt_running hT).symm)

end

/-- While a ticket of a process that is gone has not been freed, every value that `now`
returns lies below its epoch. -/
theorem dead_ticket_holds_now {capacity : Nat} {pids : List Nat} {events : List Event} {S : World}
    (hspared : EveryStep World.step Spared (World.start capacity pids) events)
    (hrun : run World.step (World.start capacity pids) events = some S) :
    ∀ a ∈ S.answers, ∀ e ∈ a.2, a.1 < e :=
  (run_invariant (fun _ _ _ h hspared hstep => h.step hspared hstep) (start_sound capacity pids)
    hspared hrun).answers

/-- One process dies with a ticket, another with a reservation, and a third reads. -/
def twoDeaths : List Event :=
  .call 0 .claimTicket :: replicate 4 (.tick 0) ++ .die 1 :: .call 1 .claimTicket ::
    replicate 3 (.tick 1) ++ .die 2 :: .call 2 .now :: replicate 203 (.tick 2)

/-- The read returns the epoch of the ticket whose process is gone. -/
theorem reaped_ticket_shown :
    (run World.step (World.start 2 [1, 2, 3]) twoDeaths).map World.answers = some [(1, [1])] := by
  decide +kernel

/-- The first process dies only once the reservation has been reaped. -/
def laterDeath : List Event :=
  .call 0 .claimTicket :: replicate 4 (.tick 0) ++ .call 1 .claimTicket :: replicate 3 (.tick 1) ++
    .die 2 :: .call 2 .now :: replicate 199 (.tick 2) ++ .die 1 :: replicate 4 (.tick 2)

theorem laterDeath_answers : (run World.step (World.start 2 [1, 2, 3]) laterDeath).any
      (fun S => S.answers == [(0, [1])]) = true := by
  decide +kernel

theorem dead_ticket_holds_now_laterDeath :
    ∃ S, run World.step (World.start 2 [1, 2, 3]) laterDeath = some S ∧ S.answers = [(0, [1])] ∧
      ∀ a ∈ S.answers, ∀ e ∈ a.2, a.1 < e := by
  obtain ⟨S, hrun, hanswers⟩ := (any_eq_true _ _).mp laterDeath_answers
  exact ⟨S, hrun, beq_iff_eq.mp hanswers, dead_ticket_holds_now (by decide +kernel) hrun⟩

end SubEtha.Epochs.Crash
