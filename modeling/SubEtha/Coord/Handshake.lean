import SubEtha.Lib.Lists
import SubEtha.Lib.Runs

namespace SubEtha.Coord
open Option List
open Function (update)
open Lib

inductive OpPhase
  /-- In no call, or at the head of `enter_op`'s loop. -/
  | out
  | loaded (current : Nat)
  /-- Counted, and to load the generation again. -/
  | counted (current : Nat)
  /-- `enter_op` has returned `current`, after `bumps` bumps. -/
  | entered (current bumps : Nat)
  /-- The generation had moved. -/
  | undoing (current : Nat)

inductive CoordPhase
  | idle
  /-- Has loaded the generation, and is to store a tag unless it only bumps. -/
  | migrating (old : Nat) (tag : Option Nat)
  | draining (old : Nat)
deriving DecidableEq

/-- The header, its callers and its coordinator. `bumps` counts the stores of the `u32`
generation, for the statements only. -/
structure HandshakeHeader where
  generation : Nat
  strategyTag : Nat
  inFlight : Nat → Nat
  bumps : Nat
  ops : List OpPhase
  coord : CoordPhase

inductive HandshakeEvent
  /-- The next step of caller `i`. -/
  | op (i : Nat)
  /-- `migrate` is called, or `bump_generation` where there is no tag. -/
  | migrate (tag : Option Nat)
  /-- The next step of the coordinator. -/
  | coord

namespace HandshakeHeader

def new (callers : Nat) : HandshakeHeader :=
  ⟨0, 0, fun _ => 0, 0, replicate callers .out, .idle⟩

variable (h : HandshakeHeader)

/-- The next load or fetch-add of `enter_op`, or that of `exit_op` for one that has entered. -/
def opStep : OpPhase → (Nat → Nat) × OpPhase
  | .out => (h.inFlight, .loaded h.generation)
  | .loaded current =>
    (update h.inFlight (current % 2) (h.inFlight (current % 2) + 1), .counted current)
  | .counted current =>
    (h.inFlight, if h.generation = current then .entered current h.bumps else .undoing current)
  | .entered current _ | .undoing current =>
    (update h.inFlight (current % 2) (h.inFlight (current % 2) - 1), .out)

def step : HandshakeEvent → Option HandshakeHeader
  | .op i => h.ops[i]?.map fun p =>
    { h with inFlight := (h.opStep p).1, ops := h.ops.set i (h.opStep p).2 }
  | .migrate tag =>
    if h.coord = .idle then some { h with coord := .migrating h.generation tag } else none
  | .coord =>
    match h.coord with
    | .idle => none
    | .migrating old (some tag) => some { h with strategyTag := tag, coord := .migrating old none }
    | .migrating old none => some { h with
        generation := (old + 1) % 2 ^ 32, bumps := h.bumps + 1, coord := .draining old }
    | .draining old => some (if h.inFlight (old % 2) = 0 then { h with coord := .idle } else h)

end HandshakeHeader

/-- The counter a caller has raised and not yet lowered. -/
def OpPhase.slot : OpPhase → Option Nat
  | .out | .loaded _ => none
  | .counted current | .entered current _ | .undoing current => some (current % 2)

namespace HandshakeHeader

/-- The generation number that the coordinator has left and not yet drained. -/
def behind (h : HandshakeHeader) : Nat :=
  match h.coord with
  | .draining _ => 1
  | _ => 0

structure Sound (h : HandshakeHeader) : Prop where
  generation : h.generation = h.bumps % 2 ^ 32
  counts : ∀ j, h.inFlight j = h.ops.countP fun p => p.slot == some j
  entered : ∀ current e, .entered current e ∈ h.ops →
    current = e % 2 ^ 32 ∧ e ≤ h.bumps ∧ h.bumps ≤ e + h.behind
  loaded : ∀ old tag, h.coord = .migrating old tag → old = h.generation
  left : ∀ old, h.coord = .draining old → ∃ g, old = g % 2 ^ 32 ∧ h.bumps = g + 1

variable {h h' : HandshakeHeader}

theorem sound_new (callers : Nat) : Sound (new callers) where
  generation := rfl
  counts := by simp [new, countP_replicate, OpPhase.slot]
  entered := by simp [new, mem_replicate]
  loaded := nofun
  left := nofun

/-- A step raises or lowers the counter that the caller then holds, or held. -/
theorem opStep_counts (hpos : p.slot = some j → 0 < h.inFlight j) :
    (h.opStep p).1 j + (p.slot == some j).toNat =
      h.inFlight j + ((h.opStep p).2.slot == some j).toNat := by
  cases p with
  | out => rfl
  | counted current =>
    simp only [opStep]
    split <;> rfl
  | loaded current =>
    by_cases hj : current % 2 = j
    · simp [opStep, OpPhase.slot, hj]
    · simp [opStep, OpPhase.slot, hj, Ne.symm hj]
  | entered current _ | undoing current =>
    by_cases hj : current % 2 = j
    · have hpos := hpos (congrArg some hj)
      simp only [opStep, OpPhase.slot, hj, Function.update_self, beq_self_eq_true, Bool.toNat_true]
      exact Nat.sub_add_cancel hpos
    · simp [opStep, OpPhase.slot, hj, Ne.symm hj]

theorem Sound.op (hs : Sound h) (hp : h.ops[i]? = some p) :
    Sound { h with inFlight := (h.opStep p).1, ops := h.ops.set i (h.opStep p).2 } := by
  refine { hs with counts := fun j => ?_, entered := fun current e he => ?_ }
  · have hset := countP_set hp (h.opStep p).2 fun p => p.slot == some j
    have hcount := hs.counts j
    have hmove := opStep_counts (h := h) (p := p) (j := j) fun hslot =>
      hcount ▸ countP_pos_iff.mpr ⟨p, mem_of_getElem? hp, by simp [hslot]⟩
    dsimp only at hset ⊢
    omega
  · rcases mem_or_eq_of_mem_set he with he | he
    · exact hs.entered current e he
    cases p with
    | counted seen =>
      simp only [opStep] at he
      split at he <;> cases he
      rename_i hsame
      exact ⟨hsame ▸ hs.generation, Nat.le_refl _, Nat.le_add_right ..⟩
    | out | loaded | entered | undoing => cases he

/-- With the counter of the generation left behind at zero, nothing entered at it is left. -/
theorem Sound.drained (hs : Sound h) (hdrain : h.coord = .draining old)
    (hzero : h.inFlight (old % 2) = 0) (he : .entered current e ∈ h.ops) : e = h.bumps := by
  obtain ⟨hcurrent, hle, hbehind⟩ := hs.entered current e he
  obtain ⟨g, hold, hbumps⟩ := hs.left old hdrain
  rw [hs.counts, countP_eq_zero] at hzero
  have hne := hzero _ he
  simp only [OpPhase.slot, beq_iff_eq, some.injEq] at hne
  simp only [behind, hdrain] at hbehind
  omega

theorem Sound.step (hs : Sound h) (hstep : h.step ev = some h') : Sound h' := by
  cases ev with
  | op i =>
    obtain ⟨p, hp, rfl⟩ := map_eq_some_iff.mp hstep
    exact hs.op hp
  | migrate tag =>
    dsimp only [HandshakeHeader.step] at hstep
    split at hstep <;> cases hstep
    rename_i hidle
    have hentered := hs.entered
    simp only [behind, hidle] at hentered
    exact { hs with entered := hentered, loaded := by simp_all, left := nofun }
  | coord =>
    dsimp only [HandshakeHeader.step] at hstep
    split at hstep
    · cases hstep
    · rename_i old tag hcoord
      cases hstep
      have hentered := hs.entered
      simp only [behind, hcoord] at hentered
      have hloaded := hs.loaded _ _ hcoord
      exact { hs with entered := hentered, loaded := by simp_all, left := nofun }
    · rename_i old hcoord
      cases hstep
      have hold := (hs.loaded old none hcoord).trans hs.generation
      refine ⟨by simp [hold], hs.counts, fun current e he => ?_, nofun, ?_⟩
      · have hentered := hs.entered current e he
        simp only [behind, hcoord] at hentered ⊢
        omega
      · rintro _ ⟨rfl⟩
        exact ⟨h.bumps, hold, rfl⟩
    · rename_i old hcoord
      cases hstep
      split
      · rename_i hzero
        refine { hs with entered := fun current e he => ?_, loaded := nofun, left := nofun }
        have heq := hs.drained hcoord hzero he
        exact ⟨(hs.entered current e he).1, Nat.le_of_eq heq, Nat.le_of_eq heq.symm⟩
      · exact hs

/-- Every counter is the number of callers that hold it, and when the drain of the generation
before the last bump returns, no operation that entered at it or before is left. -/
theorem drain_leaves_none {callers : Nat} {events : List HandshakeEvent}
    (hrun : run step (new callers) events = some h) :
    (∀ j, h.inFlight j = h.ops.countP fun p => p.slot == some j) ∧
      ∀ old, h.coord = .draining old → h.inFlight (old % 2) = 0 → ∃ g, old = g % 2 ^ 32 ∧
        h.bumps = g + 1 ∧ ∀ current e, .entered current e ∈ h.ops → current = e % 2 ^ 32 ∧ g < e := by
  have hs : Sound h := run_preserves (fun _ _ _ hs => hs.step) (sound_new callers) hrun
  refine ⟨hs.counts, fun old hdrain hzero => ?_⟩
  obtain ⟨g, hold, hbumps⟩ := hs.left old hdrain
  refine ⟨g, hold, hbumps, fun current e he => ⟨(hs.entered current e he).1, ?_⟩⟩
  rw [hs.drained hdrain hzero he, hbumps]
  exact Nat.lt_succ_self g

/-- One caller is inside and one about to count itself as the generation moves. -/
def overlapped : List HandshakeEvent :=
  [.op 0, .op 1, .op 0, .op 0, .migrate (some 7), .coord, .coord, .op 1, .op 1, .op 0, .op 1,
    .op 2, .op 2, .op 2]

theorem drain_leaves_none_overlapped : ∃ h, run step (new 3) overlapped = some h ∧
    h.coord = .draining 0 ∧ h.inFlight 0 = 0 ∧ h.bumps = 1 ∧ .entered 1 1 ∈ h.ops ∧
    ∀ current e, .entered current e ∈ h.ops → current = e % 2 ^ 32 ∧ 0 < e := by
  obtain ⟨h, hrun⟩ : ∃ h, run step (new 3) overlapped = some h := ⟨_, rfl⟩
  obtain ⟨-, hdrain⟩ := drain_leaves_none hrun
  cases hrun
  refine ⟨_, rfl, rfl, rfl, rfl, .tail _ (.tail _ (.head _)), fun current e he => ?_⟩
  obtain ⟨g, -, -, hg⟩ := hdrain 0 rfl rfl
  exact (hg current e he).imp_right Nat.zero_lt_of_lt

/-- An operation is inside at the current generation, or at the one being drained. -/
theorem entered_current_or_draining {callers : Nat} {events : List HandshakeEvent}
    (hrun : run step (new callers) events = some h) (he : .entered current e ∈ h.ops) :
    current = h.generation ∨ h.coord = .draining current := by
  have hs : Sound h := run_preserves (fun _ _ _ hs => hs.step) (sound_new callers) hrun
  obtain ⟨hcurrent, hle, hbehind⟩ := hs.entered current e he
  rcases Nat.eq_or_lt_of_le hle with rfl | hlt
  · exact .inl (hcurrent.trans hs.generation.symm)
  cases hcoord : h.coord with
  | draining old =>
    obtain ⟨g, hold, hbumps⟩ := hs.left old hcoord
    simp only [behind, hcoord] at hbehind
    obtain rfl : e = g := by omega
    rw [hcurrent, hold]
    exact .inr rfl
  | idle | migrating =>
    simp only [behind, hcoord] at hbehind
    omega

theorem entered_current_or_draining_overlapped : ∃ h, run step (new 3) overlapped = some h ∧
    (1 = h.generation ∨ h.coord = .draining 1) := by
  obtain ⟨h, hrun⟩ : ∃ h, run step (new 3) overlapped = some h := ⟨_, rfl⟩
  refine ⟨h, hrun, entered_current_or_draining (e := 1) hrun ?_⟩
  cases hrun
  exact .tail _ (.tail _ (.head _))

/-- The steps that the callers holding counter `j` take at most until it is free. -/
def owed (h : HandshakeHeader) (j : Nat) : Nat :=
  h.inFlight j + h.ops.countP fun | .counted _ => true | _ => false

theorem Sound.owed_lt (hs : Sound h) (hi : h.ops[i]? = some p) (hp : p.slot = some j) :
    owed { h with inFlight := (h.opStep p).1, ops := h.ops.set i (h.opStep p).2 } j < h.owed j := by
  have hpos : 0 < h.inFlight j :=
    hs.counts j ▸ countP_pos_iff.mpr ⟨p, mem_of_getElem? hi, by simp [hp]⟩
  have hset := countP_set hi (h.opStep p).2 fun | .counted _ => true | _ => false
  cases p with
  | out | loaded => cases hp
  | entered current _ | undoing current =>
    cases hp
    simp only [owed, opStep, Function.update_self] at hset ⊢
    omega
  | counted current =>
    simp only [owed, opStep] at hset ⊢
    split at hset <;> simp_all <;> omega

/-- A drain waits for no more than the callers that hold its counter: when each has taken
its next steps, the coordinator's load ends it. -/
theorem drain_completes {callers : Nat} {events : List HandshakeEvent}
    (hrun : run step (new callers) events = some h) (hdrain : h.coord = .draining old) :
    ∃ (turns : List Nat) (h' : HandshakeHeader),
      run step h (turns.map .op ++ [.coord]) = some h' ∧ h'.coord = .idle := by
  have hs : Sound h := run_preserves (fun _ _ _ hs => hs.step) (sound_new callers) hrun
  clear hrun
  induction hn : h.owed (old % 2) using Nat.strongRecOn generalizing h with
  | ind n ih =>
    rcases Nat.eq_zero_or_pos (h.inFlight (old % 2)) with hzero | hpos
    · exact ⟨[], { h with coord := .idle }, by simp [run, HandshakeHeader.step, hdrain, hzero], rfl⟩
    obtain ⟨p, hp, hslot⟩ := countP_pos_iff.mp (hs.counts _ ▸ hpos)
    obtain ⟨i, hi⟩ := getElem?_of_mem hp
    have hlt := hn ▸ hs.owed_lt hi (by simpa using hslot)
    obtain ⟨turns, h', hturns, hidle⟩ := ih _ hlt (by exact hdrain) (hs.op hi) rfl
    refine ⟨i :: turns, h', ?_, hidle⟩
    rw [map_cons, cons_append, run, HandshakeHeader.step, hi]
    exact hturns

theorem drain_completes_overlapped : ∃ (turns : List Nat) (h h' : HandshakeHeader),
    run step (new 3) (overlapped.take 7) = some h ∧ h.inFlight 0 = 1 ∧
      run step h (turns.map .op ++ [.coord]) = some h' ∧ h'.coord = .idle := by
  obtain ⟨h, hrun⟩ : ∃ h, run step (new 3) (overlapped.take 7) = some h := ⟨_, rfl⟩
  have hdrain : h.coord = .draining 0 ∧ h.inFlight 0 = 1 := by cases hrun; exact ⟨rfl, rfl⟩
  obtain ⟨turns, h', hturns⟩ := drain_completes hrun hdrain.1
  exact ⟨turns, h, h', hrun, hdrain.2, hturns⟩

end HandshakeHeader
end SubEtha.Coord
