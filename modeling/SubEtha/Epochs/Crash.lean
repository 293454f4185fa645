import SubEtha.Lib.Lists
import SubEtha.Lib.Runs
import SubEtha.Epochs.Shared

namespace SubEtha.Epochs.Crash
open Function Option

inductive Purpose
  | now
  | pin (slot : Nat)
  | horizon (restarts : Nat)
deriving DecidableEq

/-- Where a thread stands between two atomic steps. -/
inductive Phase
  | idle
  | reserving (i : Nat)
  | stamping (slot : Nat)
  | reserved (slot : Nat)
  | advanced (slot epoch : Nat)
  | sampling (why : Purpose) (restarts : Nat)
  | scanning (why : Purpose) (restarts acc i : Nat)
  | reaping (why : Purpose) (restarts i : Nat)
  | owning (why : Purpose) (restarts i : Nat) (state : HolderState)
  | freeing (why : Purpose) (restarts i : Nat) (state : HolderState) (pid : Nat)
  | pinReserving (retry : Bool)
  | pinReaping
  | pinDecided (slot at' : Nat)
  | folding (restarts now : Nat)
  | pinsReaping (restarts : Nat)
deriving DecidableEq

structure Thread where
  pid : Nat
  phase : Phase

structure Ticket where
  slot : Nat
  epoch : Nat
  pid : Nat

/-- The shared table, the threads of the processes that use it and the processes that
are gone; with the tickets returned and neither published nor freed, the pins held
(slot and process), and each value that `now` returned beside the epochs of the
tickets whose process was gone then. -/
structure World where
  epochs : SharedEpochs
  threads : List Thread
  dead : List Nat
  held : List Ticket
  pins : List (Nat × Nat)
  answers : List (Nat × List Nat)

inductive Op
  | claimTicket
  | now
  | claimPin
  | reclaimHorizon
deriving DecidableEq

def Op.start : Op → Phase
  | .claimTicket => .reserving 0
  | .now => .sampling .now 0
  | .claimPin => .pinReserving false
  | .reclaimHorizon => .sampling (.horizon 0) 0

inductive Event
  | call (t : Nat) (op : Op)
  | tick (t : Nat)
  | publishTicket (t slot : Nat)
  | releasePin (t slot : Nat)
  | freeDeadTicket (t epoch : Nat)
  | die (pid : Nat)

def reservationSpins : Nat := 64

/-- A fold that saw a reservation starts over, and every so often reaps first. -/
def restart (why : Purpose) (restarts : Nat) : Phase :=
  if (restarts + 1) % reservationSpins = 0 then .reaping why (restarts + 1) 0
  else .sampling why (restarts + 1)

namespace World

def start (capacity : Nat) (pids : List Nat) : World :=
  ⟨.create capacity, pids.map fun pid => ⟨pid, .idle⟩, [], [], [], []⟩

variable (S : World)

def alive (pid : Nat) : Bool := !S.dead.contains pid

def setPhase (t : Nat) (phase : Phase) : World :=
  { S with threads := S.threads.modify t fun T => { T with phase := phase } }

def setTickets (tickets : HolderTable) : World :=
  { S with epochs := { S.epochs with tickets := tickets } }

def setPins (pins : HolderTable) : World :=
  { S with epochs := { S.epochs with pins := pins } }

def answer (value : Nat) : World :=
  { S with
    answers := (value, (S.held.filter fun h => !S.alive h.pid).map Ticket.epoch) :: S.answers }

def stateAt (slot : Nat) : Option HolderState :=
  (S.epochs.tickets[slot]?).map HolderSlot.state

/-- The exchange of a reap succeeds: the owner read is gone, the state that was read is there. -/
def frees (slot : Nat) (state : HolderState) (owner : Nat) : Bool :=
  !S.alive owner && S.stateAt slot == some state

def proceed (why : Purpose) (value : Nat) : Phase :=
  match why with
  | .now => .idle
  | .pin slot => .pinDecided slot value
  | .horizon restarts => .folding restarts value

/-- One atomic step of a thread. A load is taken together with the exchange it guards, and a
liveness probe with the exchange that follows it: a process that is gone stays so. -/
def advance (S : World) (t pid : Nat) : Phase → World
  | .idle => S
  | .reserving i =>
    match S.epochs.tickets[i]? with
    | none => S.setPhase t .idle
    | some slot =>
      if slot.state = .free then
        (S.setTickets (S.epochs.tickets.modify i fun s => { s with state := .reserved })).setPhase t
          (.stamping i)
      else S.setPhase t (.reserving (i + 1))
  | .stamping slot =>
    (S.setTickets (S.epochs.tickets.modify slot fun s => { s with ownerPid := pid })).setPhase t
      (.reserved slot)
  | .reserved slot =>
    let (epoch, epochs) := S.epochs.advance
    { S with epochs := epochs }.setPhase t (.advanced slot epoch)
  | .advanced slot epoch =>
    { S.setTickets (S.epochs.tickets.publish slot (epoch + 1)) with
      held := ⟨slot, epoch, pid⟩ :: S.held }.setPhase t .idle
  | .sampling why restarts => S.setPhase t (.scanning why restarts S.epochs.counter 0)
  | .scanning why restarts acc i =>
    match S.epochs.tickets[i]? with
    | none => (S.answer acc).setPhase t (proceed why acc)
    | some slot =>
      match slot.state with
      | .free => S.setPhase t (.scanning why restarts acc (i + 1))
      | .reserved => S.setPhase t (restart why restarts)
      | .held payload => S.setPhase t (.scanning why restarts (min acc (payload - 2)) (i + 1))
  | .reaping why restarts i =>
    match S.epochs.tickets[i]? with
    | none => S.setPhase t (.sampling why restarts)
    | some slot =>
      S.setPhase t (if slot.state = .free then .reaping why restarts (i + 1)
        else .owning why restarts i slot.state)
  | .owning why restarts i state =>
    S.setPhase t (match S.epochs.tickets[i]? with
      | none => .reaping why restarts (i + 1)
      | some slot =>
        if slot.ownerPid = 0 then .reaping why restarts (i + 1)
        else .freeing why restarts i state slot.ownerPid)
  | .freeing why restarts i state owner =>
    (if S.frees i state owner then S.setTickets (S.epochs.tickets.modify i fun s =>
      { s with state := .free }) else S).setPhase t (.reaping why restarts (i + 1))
  | .pinReserving retry =>
    match S.epochs.pins.reserve pid with
    | some (slot, pins) => (S.setPins pins).setPhase t (.sampling (.pin slot) 0)
    | none => S.setPhase t (if retry then .idle else .pinReaping)
  | .pinReaping => (S.setPins (S.epochs.pins.reapDead S.alive)).setPhase t (.pinReserving true)
  | .pinDecided slot at' =>
    { S.setPins (S.epochs.pins.publish slot (at' + 1)) with
      pins := (slot, pid) :: S.pins }.setPhase t .idle
  | .folding restarts now =>
    match HolderTable.tryFold (fun acc payload => min acc (payload - 1)) now S.epochs.pins with
    | some _ => S.setPhase t .idle
    | none =>
      S.setPhase t (if (restarts + 1) % reservationSpins = 0 then .pinsReaping (restarts + 1)
        else .sampling (.horizon (restarts + 1)) 0)
  | .pinsReaping restarts =>
    (S.setPins (S.epochs.pins.reapDead S.alive)).setPhase t (.sampling (.horizon restarts) 0)

def freeDeadTicket (epoch : Nat) : World :=
  match S.epochs.tickets.findIdx? fun s => s.state == .held (epoch + 1) with
  | none => S
  | some i =>
    match S.epochs.tickets[i]? with
    | none => S
    | some slot =>
      if HolderTable.abandoned S.alive slot then
        { S.setTickets (S.epochs.tickets.modify i fun s => { s with state := .free }) with
          held := S.held.filter fun h => h.epoch != epoch }
      else S

def running (t : Nat) : Option Thread :=
  (S.threads[t]?).filter fun T => S.alive T.pid

/-- One step; `none` where the thread cannot take it. -/
def step : Event → Option World
  | .call t op =>
    (S.running t).bind fun T => if T.phase = .idle then some (S.setPhase t op.start) else none
  | .tick t => (S.running t).map fun T => S.advance t T.pid T.phase
  | .publishTicket t slot =>
    (S.running t).bind fun T =>
      if T.phase = .idle ∧ S.held.any fun h => h.slot == slot && h.pid == T.pid then
        some { S.setTickets (S.epochs.tickets.release slot) with
          held := S.held.filter fun h => h.slot != slot }
      else none
  | .releasePin t slot =>
    (S.running t).bind fun T =>
      if T.phase = .idle ∧ S.pins.contains (slot, T.pid) then
        some { S.setPins (S.epochs.pins.release slot) with
          pins := S.pins.filter fun p => p.1 != slot }
      else none
  | .freeDeadTicket t epoch =>
    (S.running t).bind fun T => if T.phase = .idle then some (S.freeDeadTicket epoch) else none
  | .die pid => some { S with dead := pid :: S.dead }

end World

/-- The ticket slot that a phase has reserved. -/
def Phase.slot? : Phase → Option Nat
  | .stamping slot => some slot
  | .reserved slot => some slot
  | .advanced slot _ => some slot
  | _ => none

/-- The slot and the epoch of a claim whose payload is not written yet. -/
def Phase.claim? : Phase → Option (Nat × Nat)
  | .advanced slot epoch => some (slot, epoch)
  | _ => none

/-- The least epoch read so far and the next slot of a scan of the tickets. -/
def Phase.scan? : Phase → Option (Nat × Nat)
  | .scanning _ _ acc i => some (acc, i)
  | _ => none

variable {phase : Phase}

theorem Phase.slot?_of_claim? (h : phase.claim? = some c) : phase.slot? = some c.1 := by
  cases phase with
  | advanced slot epoch =>
    cases h
    rfl
  | _ => cases h

theorem Phase.claim?_of_scan? (h : phase.scan? = some scan) : phase.claim? = none := by
  cases phase with
  | advanced slot epoch => cases h
  | _ => rfl

/-- A scan has read below an epoch, or has its slot still to come. -/
def Behind (scan : Nat × Nat) (slot epoch : Nat) : Prop := scan.1 < epoch ∨ scan.2 ≤ slot

/-- What the claim of a ticket rests on: the states of the slots, the counter, the tickets
returned, and where each running thread stands. -/
structure View where
  slots : Nat → Option HolderState
  counter : Nat
  held : List Ticket
  phases : Nat → Phase

/-- A scan that may go on: it is behind every ticket, and every claim under way. -/
def View.Allows (V : View) (scan : Nat × Nat) : Prop :=
  scan.1 ≤ V.counter ∧ (∀ h ∈ V.held, Behind scan h.slot h.epoch) ∧
    ∀ t c, (V.phases t).claim? = some c → Behind scan c.1 c.2

/-- Every ticket returned is in its slot, claims under way have their reservations, and each
scan is behind all of them. -/
structure Guarded (V : View) : Prop where
  held : ∀ h ∈ V.held, V.slots h.slot = some (.held (h.epoch + 1)) ∧ 0 < h.epoch
  reserved : ∀ t slot, (V.phases t).slot? = some slot → V.slots slot = some .reserved
  apart : ∀ t t' slot, (V.phases t).slot? = some slot → (V.phases t').slot? = some slot → t = t'
  claims : ∀ t c, (V.phases t).claim? = some c → 0 < c.2
  scans : ∀ t scan, (V.phases t).scan? = some scan → V.Allows scan

theorem of_update {φ : Nat → Phase} (f : Phase → Option β)
    (h : f (update φ t phase t') = some x) :
    t' = t ∧ f phase = some x ∨ t' ≠ t ∧ f (φ t') = some x := by
  rcases eq_or_ne t' t with rfl | hne
  · exact .inl ⟨rfl, update_self t' phase φ ▸ h⟩
  · exact .inr ⟨hne, update_of_ne hne phase φ ▸ h⟩

section
variable {V : View} {t slot : Nat} (h : Guarded V)
include h

theorem Guarded.setPhase
    (hslot : ∀ slot, phase.slot? = some slot → V.slots slot = some .reserved ∧
      ∀ t', (V.phases t').slot? = some slot → t' = t)
    (hclaim : ∀ c, phase.claim? = some c → 0 < c.2 ∧
      ∀ t' scan, (V.phases t').scan? = some scan → Behind scan c.1 c.2)
    (hscan : ∀ scan, phase.scan? = some scan → V.Allows scan) :
    Guarded { V with phases := update V.phases t phase } := by
  refine ⟨h.held, fun t1 slot hs => ?_, fun t1 t2 slot hs1 hs2 => ?_, fun t1 c hc => ?_,
    fun t1 scan hs => ?_⟩
  · rcases of_update Phase.slot? hs with ⟨-, hs⟩ | ⟨-, hs⟩
    · exact (hslot slot hs).1
    · exact h.reserved t1 slot hs
  · rcases of_update Phase.slot? hs1 with ⟨rfl, h1⟩ | ⟨-, h1⟩ <;>
      rcases of_update Phase.slot? hs2 with ⟨rfl, h2⟩ | ⟨-, h2⟩
    · rfl
    · exact ((hslot slot h1).2 t2 h2).symm
    · exact (hslot slot h2).2 t1 h1
    · exact h.apart t1 t2 slot h1 h2
  · rcases of_update Phase.claim? hc with ⟨-, hc⟩ | ⟨-, hc⟩
    · exact (hclaim c hc).1
    · exact h.claims t1 c hc
  rcases of_update Phase.scan? hs with ⟨-, hs⟩ | ⟨-, hs⟩
  · obtain ⟨hcounter, hheld, hclaims⟩ := hscan scan hs
    refine ⟨hcounter, hheld, fun t2 c hc => ?_⟩
    rcases of_update Phase.claim? hc with ⟨-, hc⟩ | ⟨-, hc⟩
    · rw [Phase.claim?_of_scan? hs] at hc
      cases hc
    · exact hclaims t2 c hc
  · obtain ⟨hcounter, hheld, hclaims⟩ := h.scans t1 scan hs
    refine ⟨hcounter, hheld, fun t2 c hc => ?_⟩
    rcases of_update Phase.claim? hc with ⟨-, hc⟩ | ⟨-, hc⟩
    · exact (hclaim c hc).2 t1 scan hs
    · exact hclaims t2 c hc

theorem Guarded.leave (hslot : phase.slot? = none) (hclaim : phase.claim? = none)
    (hscan : phase.scan? = none) : Guarded { V with phases := update V.phases t phase } :=
  h.setPhase (fun _ hs => by rw [hslot] at hs; cases hs) (fun _ hc => by rw [hclaim] at hc; cases hc)
    fun _ hs => by rw [hscan] at hs; cases hs

/-- A slot that no claim under way has, and no ticket that stays, takes any state. -/
theorem Guarded.setSlot (p : Ticket → Bool) (hfree : ∀ t, (V.phases t).slot? ≠ some slot)
    (hheld : ∀ k ∈ V.held, p k = true → k.slot ≠ slot) (state : Option HolderState) :
    Guarded { V with slots := update V.slots slot state, held := V.held.filter p } := by
  refine { h with
    held := fun k hk => ?_, reserved := fun t slot' hs => ?_, scans := fun t scan hs => ?_ }
  · obtain ⟨hk, hp⟩ := List.mem_filter.mp hk
    rw [← (h.held k hk).1]
    exact ⟨update_of_ne (hheld k hk hp) .., (h.held k hk).2⟩
  · rw [← h.reserved t slot' hs]
    refine update_of_ne ?_ ..
    rintro rfl
    exact hfree t hs
  · obtain ⟨hcounter, hheld, hclaims⟩ := h.scans t scan hs
    exact ⟨hcounter, fun k hk => hheld k (List.mem_filter.mp hk).1, hclaims⟩

theorem Guarded.setSlot_self (hfree : ∀ t, (V.phases t).slot? ≠ some slot)
    (hheld : ∀ k ∈ V.held, k.slot ≠ slot) (state : Option HolderState) :
    Guarded { V with slots := update V.slots slot state } := by
  have hset := h.setSlot (fun _ => true) hfree (fun k hk _ => hheld k hk) state
  rwa [List.filter_true] at hset

theorem Guarded.forget (hphases : ∀ t, phases t = V.phases t ∨ phases t = .idle) :
    Guarded { V with phases := phases } := by
  have hsome : ∀ {β : Type} (f : Phase → Option β) x t, f .idle = none → f (phases t) = some x →
      f (V.phases t) = some x := by
    intro β f x t hidle hx
    rcases hphases t with ht | ht
    · exact ht ▸ hx
    · rw [ht, hidle] at hx
      cases hx
  refine ⟨h.held, fun t slot hs => h.reserved t slot (hsome _ _ _ rfl hs),
    fun t t' slot hs hs' => h.apart t t' slot (hsome _ _ _ rfl hs) (hsome _ _ _ rfl hs'),
    fun t c hc => h.claims t c (hsome _ _ _ rfl hc), fun t scan hs => ?_⟩
  obtain ⟨hcounter, hheld, hclaims⟩ := h.scans t scan (hsome _ _ _ rfl hs)
  exact ⟨hcounter, hheld, fun t' c hc => hclaims t' c (hsome _ _ _ rfl hc)⟩

theorem Guarded.held_ne (hk : k ∈ V.held) (hslot : V.slots slot = some s)
    (hs : s ≠ .held (k.epoch + 1)) : k.slot ≠ slot := by
  rintro rfl
  rw [(h.held k hk).1] at hslot
  exact hs (some.inj hslot).symm

theorem Guarded.reserve (hslot : V.slots slot = some .free) : Guarded { V with
    slots := update V.slots slot (some .reserved), phases := update V.phases t (.stamping slot) } := by
  have hfree : ∀ t, (V.phases t).slot? ≠ some slot := fun t hs => by
    rw [h.reserved t slot hs] at hslot
    cases hslot
  have hset := h.setSlot_self hfree (fun k hk => h.held_ne hk hslot nofun) (some .reserved)
  refine hset.setPhase (fun slot' hs => ?_) nofun nofun
  cases hs
  exact ⟨update_self .., fun t' hs' => absurd hs' (hfree t')⟩

theorem Guarded.stamp (hphase : V.phases t = .stamping slot) :
    Guarded { V with phases := update V.phases t (.reserved slot) } := by
  have hslot : (V.phases t).slot? = some slot := by rw [hphase]; rfl
  refine h.setPhase (fun slot' hs => ?_) nofun nofun
  cases hs
  exact ⟨h.reserved t slot hslot, fun t' hs' => h.apart t' t slot hs' hslot⟩

theorem Guarded.advance (hphase : V.phases t = .reserved slot) : Guarded { V with
    counter := V.counter + 1, phases := update V.phases t (.advanced slot (V.counter + 1)) } := by
  have hslot : (V.phases t).slot? = some slot := by rw [hphase]; rfl
  have hcounter : Guarded { V with counter := V.counter + 1 } :=
    { h with scans := fun t scan hs => (h.scans t scan hs).imp_left Nat.le_succ_of_le }
  refine hcounter.setPhase (fun slot' hs => ?_) (fun c hc => ?_) nofun
  · cases hs
    exact ⟨h.reserved t slot hslot, fun t' hs' => h.apart t' t slot hs' hslot⟩
  · cases hc
    exact ⟨Nat.succ_pos _, fun t' scan hs => .inl (Nat.lt_succ_of_le (h.scans t' scan hs).1)⟩

theorem Guarded.publish (hphase : V.phases t = .advanced slot epoch) (pid : Nat) : Guarded { V with
    slots := update V.slots slot (some (.held (epoch + 1))), held := ⟨slot, epoch, pid⟩ :: V.held
    phases := update V.phases t .idle } := by
  have hclaim : (V.phases t).claim? = some (slot, epoch) := by rw [hphase]; rfl
  have hslot := Phase.slot?_of_claim? hclaim
  have hidle : Guarded { V with phases := update V.phases t .idle } := h.leave rfl rfl rfl
  have hfree : ∀ t', (update V.phases t .idle t').slot? ≠ some slot := by
    intro t' hs
    rcases of_update Phase.slot? hs with ⟨-, hs⟩ | ⟨hne, hs⟩
    · cases hs
    · exact hne (h.apart t' t slot hs hslot)
  have hset := hidle.setSlot_self hfree
    (fun k hk => h.held_ne hk (h.reserved t slot hslot) nofun) (some (.held (epoch + 1)))
  refine { hset with held := fun k hk => ?_, scans := fun t' scan hs => ?_ }
  · rcases List.mem_cons.mp hk with rfl | hk
    · exact ⟨update_self .., h.claims t _ hclaim⟩
    · exact hset.held k hk
  · obtain ⟨hcounter, hheld, hclaims⟩ := hset.scans t' scan hs
    refine ⟨hcounter, fun k hk => ?_, hclaims⟩
    rcases List.mem_cons.mp hk with rfl | hk
    · rcases of_update Phase.scan? hs with ⟨-, hs⟩ | ⟨-, hs⟩
      · cases hs
      · exact (h.scans t' scan hs).2.2 t _ hclaim
    · exact hheld k hk

/-- A scan takes the next slot, which holds no reservation. -/
theorem Guarded.scan (hphase : V.phases t = .scanning why restarts acc i)
    (hslot : V.slots i = some s) (hs : s ≠ .reserved) (hle : acc' ≤ acc)
    (hmin : ∀ payload, s = .held payload → acc' ≤ payload - 2) :
    Guarded { V with phases := update V.phases t (.scanning why restarts acc' (i + 1)) } := by
  obtain ⟨hcounter, hheld, hclaims⟩ := h.scans t (acc, i) (by rw [hphase]; rfl)
  have hnext : ∀ slot epoch, Behind (acc, i) slot epoch → i ≠ slot → Behind (acc', i + 1) slot epoch := by
    rintro slot epoch (hlt | hslot) hne
    · exact .inl (lt_of_le_of_lt hle hlt)
    · exact .inr (lt_of_le_of_ne hslot hne)
  refine h.setPhase nofun nofun (fun scan hs' => ?_)
  cases hs'
  refine ⟨le_trans hle hcounter, fun k hk => ?_, fun t' c hc => ?_⟩
  · by_cases hi : i = k.slot
    · obtain ⟨hk', hpos⟩ := h.held k hk
      rw [← hi, hslot] at hk'
      have hread := hmin _ (some.inj hk')
      refine .inl ?_
      dsimp only
      omega
    · exact hnext k.slot k.epoch (hheld k hk) hi
  · refine hnext c.1 c.2 (hclaims t' c hc) ?_
    rintro rfl
    rw [h.reserved t' c.1 (Phase.slot?_of_claim? hc)] at hslot
    exact hs (some.inj hslot).symm

end
end SubEtha.Epochs.Crash
