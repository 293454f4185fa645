import Mathlib.Data.List.Basic
import Mathlib.Order.Lattice

namespace SubEtha.Epochs
open List

/-- A slot nothing holds, one claimed whose payload is not decided, or its payload. -/
inductive HolderState
  | free
  | reserved
  | held (payload : Nat)
deriving DecidableEq

/-- A claimable slot and the process that claimed it; `0` is no process. -/
structure HolderSlot where
  state : HolderState
  ownerPid : Nat
deriving DecidableEq

abbrev HolderTable := List HolderSlot

variable {t : HolderTable}

namespace HolderTable

def create (capacity : Nat) : HolderTable := replicate capacity ⟨.free, 0⟩

/-- The first free slot, claimed with no payload. -/
def reserve (t : HolderTable) (pid : Nat) : Option (Nat × HolderTable) :=
  (t.findIdx? fun s => s.state == .free).map fun i => (i, t.set i ⟨.reserved, pid⟩)

def publish (t : HolderTable) (slot payload : Nat) : HolderTable :=
  t.modify slot fun s => { s with state := .held payload }

def release (t : HolderTable) (slot : Nat) : HolderTable := t.set slot ⟨.free, 0⟩

/-- Fold over the payloads; `none` where a reservation was seen. -/
def tryFold {β : Type} (f : β → Nat → β) : β → HolderTable → Option β
  | acc, [] => some acc
  | acc, s :: t =>
    match s.state with
    | .free => tryFold f acc t
    | .reserved => none
    | .held payload => tryFold f (f acc payload) t

def abandoned (alive : Nat → Bool) (s : HolderSlot) : Bool :=
  s.state != .free && s.ownerPid != 0 && !alive s.ownerPid

def reapSlot (alive : Nat → Bool) (s : HolderSlot) : HolderSlot :=
  if abandoned alive s then { s with state := .free } else s

def reapDead (alive : Nat → Bool) (t : HolderTable) : HolderTable := t.map (reapSlot alive)

theorem reserve_some (h : t.reserve pid = some (i, t')) :
    (∃ s, t[i]? = some s ∧ s.state = .free) ∧ t' = t.set i ⟨.reserved, pid⟩ := by
  obtain ⟨j, hj, heq⟩ := Option.map_eq_some_iff.mp h
  cases heq
  obtain ⟨hlt, hfree, -⟩ := findIdx?_eq_some_iff_getElem.mp hj
  exact ⟨⟨t[i], getElem?_eq_getElem hlt, by simpa using hfree⟩, rfl⟩

theorem getElem?_publish : (t.publish slot payload)[i]? =
      if slot = i then t[i]?.map fun s => { s with state := .held payload } else t[i]? := by
  rw [publish, getElem?_modify]
  split
  · rfl
  · exact Option.map_id'

/-- No claim is half made. -/
def Settled (t : HolderTable) : Prop := ∀ s ∈ t, s.state ≠ .reserved

/-- Slot by slot, the payloads are those of `l`. -/
def Lists (t : HolderTable) (l : List (Nat × Nat)) : Prop :=
  ∀ i v, (i, v) ∈ l ↔ ∃ s, t[i]? = some s ∧ s.state = .held v

theorem settled_create (capacity : Nat) : Settled (create capacity) := by
  intro s hs
  rw [eq_of_mem_replicate hs]
  exact nofun

theorem lists_create (capacity : Nat) : Lists (create capacity) [] := by
  refine fun i v => ⟨fun h => absurd h not_mem_nil, ?_⟩
  rintro ⟨s, hs, hstate⟩
  rw [eq_of_mem_replicate (mem_of_getElem? hs)] at hstate
  cases hstate

theorem claim_spec (hs : Settled t) (hl : Lists t l) (h : t.reserve pid = some (slot, t'))
    (payload : Nat) :
    Settled (t'.publish slot payload) ∧ Lists (t'.publish slot payload) ((slot, payload) :: l) ∧
      ∀ v, (slot, v) ∉ l := by
  obtain ⟨⟨s, hget, hfree⟩, rfl⟩ := reserve_some h
  have hlt := (List.getElem_of_getElem? hget).1
  have hpub : ∀ i, (publish (t.set slot ⟨.reserved, pid⟩) slot payload)[i]? =
      if slot = i then some ⟨.held payload, pid⟩ else t[i]? := by
    intro i
    rw [getElem?_publish]
    split
    · rename_i heq
      subst heq
      rw [getElem?_set_self hlt]
      rfl
    · rename_i hne
      exact getElem?_set_ne hne
  have hnot : ∀ v, (slot, v) ∉ l := by
    intro v hmem
    obtain ⟨s', hget', hheld⟩ := (hl slot v).mp hmem
    rw [hget] at hget'
    cases hget'
    rw [hfree] at hheld
    cases hheld
  refine ⟨fun s' hs' hres => ?_, fun i v => ?_, hnot⟩
  · obtain ⟨i, hi⟩ := mem_iff_getElem?.mp hs'
    rw [hpub] at hi
    split at hi
    · cases hi
      cases hres
    · exact hs s' (mem_of_getElem? hi) hres
  rw [hpub, mem_cons]
  by_cases heq : slot = i
  · subst heq
    rw [if_pos rfl]
    constructor
    · rintro (heq | hmem)
      · cases heq
        exact ⟨_, rfl, rfl⟩
      · exact absurd hmem (hnot v)
    · rintro ⟨s', hs', hheld⟩
      cases hs'
      cases hheld
      exact .inl rfl
  · rw [if_neg heq, ← hl]
    exact ⟨fun h => h.resolve_left fun h => heq (congrArg Prod.fst h).symm, .inr⟩

theorem release_spec (hs : Settled t) (hl : Lists t l) (slot : Nat) :
    Settled (t.release slot) ∧ Lists (t.release slot) (l.filter fun h => h.1 != slot) := by
  have hget : ∀ i, (t.release slot)[i]? = if slot = i then t[i]?.map fun _ => ⟨.free, 0⟩ else t[i]? := by
    intro i
    rw [release, getElem?_set']
    rfl
  refine ⟨fun s hmem hres => ?_, fun i v => ?_⟩
  · rcases mem_or_eq_of_mem_set hmem with hmem | rfl
    · exact hs s hmem hres
    · cases hres
  rw [hget, mem_filter, hl]
  by_cases heq : slot = i
  · subst heq
    rw [if_pos rfl]
    constructor
    · rintro ⟨-, hne⟩
      simp at hne
    rintro ⟨s, hs', hheld⟩
    obtain ⟨_, -, heq⟩ := Option.map_eq_some_iff.mp hs'
    rw [← heq] at hheld
    cases hheld
  · rw [if_neg heq]
    exact ⟨And.left, fun h => ⟨h, by simpa using Ne.symm heq⟩⟩

/-- A fold that takes a minimum, over a table with no claim half made. -/
theorem tryFold_min {g : Nat → Nat} (hs : Settled t) (init : Nat) :
    ∃ n, tryFold (fun acc v => min acc (g v)) init t = some n ∧ n ≤ init ∧
      (∀ s ∈ t, ∀ v, s.state = .held v → n ≤ g v) ∧
      (n = init ∨ ∃ s ∈ t, ∃ v, s.state = .held v ∧ n = g v) := by
  induction t generalizing init with
  | nil => exact ⟨init, rfl, le_refl _, (by simp), .inl rfl⟩
  | cons s t ih =>
    have hrest : Settled t := fun s' hs' => hs s' (mem_cons_of_mem _ hs')
    rw [tryFold]
    cases hstate : s.state with
    | reserved => exact absurd hstate (hs s (mem_cons_self ..))
    | free =>
      obtain ⟨n, hn, hle, hall, hex⟩ := ih hrest init
      refine ⟨n, hn, hle, fun s' hs' v hv => ?_, ?_⟩
      · rcases mem_cons.mp hs' with rfl | hs'
        · rw [hstate] at hv
          cases hv
        · exact hall s' hs' v hv
      · exact hex.imp_right fun ⟨s', hs', hv⟩ => ⟨s', mem_cons_of_mem _ hs', hv⟩
    | held w =>
      obtain ⟨n, hn, hle, hall, hex⟩ := ih hrest (min init (g w))
      refine ⟨n, hn, le_trans hle (min_le_left ..), fun s' hs' v hv => ?_, ?_⟩
      · rcases mem_cons.mp hs' with rfl | hs'
        · rw [hstate] at hv
          cases hv
          exact le_trans hle (min_le_right ..)
        · exact hall s' hs' v hv
      · rcases hex with heq | ⟨s', hs', hv⟩
        · rcases le_total init (g w) with hmin | hmin
          · exact .inl (heq.trans (min_eq_left hmin))
          · exact .inr ⟨s, mem_cons_self .., w, hstate, heq.trans (min_eq_right hmin)⟩
        · exact .inr ⟨s', mem_cons_of_mem _ hs', hv⟩

end HolderTable

open HolderTable

inductive EpochError
  | pinsExhausted
  | ticketsExhausted
deriving DecidableEq

structure SharedEpochs where
  counter : Nat
  pins : HolderTable
  tickets : HolderTable

namespace SharedEpochs

def create (capacity : Nat) : SharedEpochs := ⟨0, .create capacity, .create capacity⟩

section
variable (E : SharedEpochs)

/-- The published epoch. `none` is a reservation that is never completed, which
restarts the read for ever. -/
def now : Option Nat :=
  HolderTable.tryFold (fun acc payload => min acc (payload - 2)) E.counter E.tickets

def advance : Nat × SharedEpochs :=
  (E.counter + 1, { E with counter := E.counter + 1 })

/-- `begin`: a slot and the epoch reserved for a compound write. -/
def claimTicket (pid : Nat) : SharedEpochs × Except EpochError (Nat × Nat) :=
  match E.tickets.reserve pid with
  | none => (E, .error .ticketsExhausted)
  | some (slot, tickets) =>
    let (epoch, E) := { E with tickets := tickets }.advance
    ({ E with tickets := E.tickets.publish slot (epoch + 1) }, .ok (slot, epoch))

def publishTicket (slot : Nat) : SharedEpochs :=
  { E with tickets := E.tickets.release slot }

/-- Reserve a pin slot, then decide its epoch. The inner `none` is a full table. -/
def tryClaim (pid : Nat) : Option (Option (SharedEpochs × Nat × Nat)) :=
  match E.pins.reserve pid with
  | none => some none
  | some (slot, pins) =>
    E.now.map fun at' => some ({ E with pins := pins.publish slot (at' + 1) }, slot, at')

def claimPin (alive : Nat → Bool) (E : SharedEpochs) (pid : Nat) :
    Option (SharedEpochs × Except EpochError (Nat × Nat)) :=
  (E.tryClaim pid).bind fun
    | some (E, claim) => some (E, .ok claim)
    | none =>
      let E := { E with pins := E.pins.reapDead alive }
      (E.tryClaim pid).map fun
        | some (E, claim) => (E, .ok claim)
        | none => (E, .error .pinsExhausted)

def releasePin (slot : Nat) : SharedEpochs :=
  { E with pins := E.pins.release slot }

/-- Epochs at or below this have no reader. -/
def reclaimHorizon : Option Nat :=
  E.now.bind fun now => HolderTable.tryFold (fun acc payload => min acc (payload - 1)) now E.pins

end

/-- The tables hold exactly the open tickets and the pins, each a slot and an epoch. -/
structure Ledger (E : SharedEpochs) (tickets pins : List (Nat × Nat)) : Prop where
  settledTickets : E.tickets.Settled
  settledPins : E.pins.Settled
  ticketSlots : E.tickets.Lists (tickets.map fun t => (t.1, t.2 + 1))
  pinSlots : E.pins.Lists (pins.map fun p => (p.1, p.2 + 1))
  open_pos : ∀ t ∈ tickets, 0 < t.2 ∧ t.2 ≤ E.counter
  pin_le : ∀ p ∈ pins, p.2 ≤ E.counter
  /-- A pin lies below every open ticket. -/
  below : ∀ p ∈ pins, ∀ t ∈ tickets, p.2 < t.2

/-- An epoch that no open compound and no pin lies below. -/
structure Settles (E : SharedEpochs) (tickets pins : List (Nat × Nat)) (n : Nat) : Prop where
  counter : n ≤ E.counter
  tickets : ∀ t ∈ tickets, n < t.2
  pins : ∀ p ∈ pins, n ≤ p.2

theorem ledger_create (capacity : Nat) : Ledger (create capacity) [] [] :=
  ⟨settled_create capacity, settled_create capacity, lists_create capacity, lists_create capacity,
    nofun, nofun, nofun⟩

variable {E : SharedEpochs} {tickets pins : List (Nat × Nat)}

section
variable {t : HolderTable} {l : List (Nat × Nat)} (hl : t.Lists (l.map fun h => (h.1, h.2 + 1)))
include hl

theorem lists_slot (hs : s ∈ t) (hv : s.state = .held v) :
    ∃ h ∈ l, v = h.2 + 1 := by
  obtain ⟨i, hi⟩ := mem_iff_getElem?.mp hs
  obtain ⟨h, hmem, heq⟩ := mem_map.mp ((hl i v).mpr ⟨s, hi, hv⟩)
  exact ⟨h, hmem, (congrArg Prod.snd heq).symm⟩

theorem lists_mem (hmem : h ∈ l) : ∃ s ∈ t, s.state = .held (h.2 + 1) := by
  obtain ⟨s, hs, hv⟩ := (hl h.1 (h.2 + 1)).mp (mem_map_of_mem hmem)
  exact ⟨s, mem_of_getElem? hs, hv⟩

end

section
variable (h : Ledger E tickets pins)
include h

/-- The published epoch is the counter, or one below the oldest open ticket. -/
theorem Ledger.now_spec : ∃ n, E.now = some n ∧ n ≤ E.counter ∧ (∀ t ∈ tickets, n < t.2) ∧
      (n = E.counter ∨ ∃ t ∈ tickets, n + 1 = t.2) := by
  obtain ⟨n, hn, hle, hall, hex⟩ := tryFold_min (g := fun v => v - 2) h.settledTickets E.counter
  refine ⟨n, hn, hle, fun t ht => ?_, hex.imp_right ?_⟩
  · obtain ⟨s, hs, hv⟩ := lists_mem h.ticketSlots ht
    have hmin := hall s hs _ hv
    have hpos := (h.open_pos t ht).1
    omega
  · rintro ⟨s, hs, v, hv, heq⟩
    obtain ⟨t, ht, rfl⟩ := lists_slot h.ticketSlots hs hv
    have hpos := (h.open_pos t ht).1
    exact ⟨t, ht, by omega⟩

/-- The reclaim horizon is the published epoch, or the oldest pin. -/
theorem Ledger.horizon_spec :
    ∃ n, E.reclaimHorizon = some n ∧ n ≤ E.counter ∧ (∀ t ∈ tickets, n < t.2) ∧
      (∀ p ∈ pins, n ≤ p.2) ∧ (E.now = some n ∨ ∃ p ∈ pins, n = p.2) := by
  obtain ⟨now, hnow, hcounter, hbelow, -⟩ := h.now_spec
  obtain ⟨n, hn, hle, hall, hex⟩ := tryFold_min (g := fun v => v - 1) h.settledPins now
  refine ⟨n, by rw [reclaimHorizon, hnow]; exact hn, le_trans hle hcounter,
    fun t ht => lt_of_le_of_lt hle (hbelow t ht), fun p hp => ?_, ?_⟩
  · obtain ⟨s, hs, hv⟩ := lists_mem h.pinSlots hp
    exact hall s hs _ hv
  rcases hex with rfl | ⟨s, hs, v, hv, heq⟩
  · exact .inl hnow
  · obtain ⟨p, hp, rfl⟩ := lists_slot h.pinSlots hs hv
    exact .inr ⟨p, hp, heq⟩

/-- The published epoch is the newest below every open ticket. -/
theorem Ledger.le_now {now n : Nat} (hnow : E.now = some now) (hcounter : n ≤ E.counter)
    (htickets : ∀ t ∈ tickets, n < t.2) : n ≤ now := by
  obtain ⟨now', hnow', -, -, hwhich⟩ := h.now_spec
  rw [hnow] at hnow'
  cases hnow'
  rcases hwhich with rfl | ⟨t, ht, heq⟩
  · exact hcounter
  · have hlt := htickets t ht
    omega

theorem Ledger.le_horizon_iff (hhorizon : E.reclaimHorizon = some horizon) (n : Nat) :
    n ≤ horizon ↔ Settles E tickets pins n := by
  obtain ⟨horizon', hhorizon', hcounter, htickets, hpins, hex⟩ := h.horizon_spec
  rw [hhorizon] at hhorizon'
  cases hhorizon'
  constructor
  · intro hn
    exact ⟨le_trans hn hcounter, fun t ht => lt_of_le_of_lt hn (htickets t ht),
      fun p hp => le_trans hn (hpins p hp)⟩
  · rintro ⟨hn, hnt, hnp⟩
    rcases hex with hnow | ⟨p, hp, rfl⟩
    · exact h.le_now hnow hn hnt
    · exact hnp p hp

theorem Ledger.advance : Ledger E.advance.2 tickets pins := { h with
    open_pos := fun t ht => ⟨(h.open_pos t ht).1, Nat.le_succ_of_le (h.open_pos t ht).2⟩
    pin_le := fun p hp => Nat.le_succ_of_le (h.pin_le p hp) }

theorem Ledger.claimTicket (hclaim : E.claimTicket pid = (E', res)) : match res with
    | .ok (slot, epoch) => epoch = E.counter + 1 ∧ E'.counter = epoch ∧
        Ledger E' ((slot, epoch) :: tickets) pins ∧ ∀ e, (slot, e) ∉ tickets
    | .error _ => E' = E := by
  unfold SharedEpochs.claimTicket at hclaim
  split at hclaim
  · cases hclaim
    rfl
  rename_i slot table hreserve
  cases hclaim
  obtain ⟨hsettled, hlists, hfresh⟩ :=
    claim_spec h.settledTickets h.ticketSlots hreserve (E.counter + 1 + 1)
  refine ⟨rfl, rfl, ⟨hsettled, h.settledPins, hlists, h.pinSlots, fun t ht => ?_,
    fun p hp => Nat.le_succ_of_le (h.pin_le p hp), fun p hp t ht => ?_⟩, fun e he => ?_⟩
  · rcases mem_cons.mp ht with rfl | ht
    · exact ⟨Nat.succ_pos _, le_rfl⟩
    · exact ⟨(h.open_pos t ht).1, Nat.le_succ_of_le (h.open_pos t ht).2⟩
  · rcases mem_cons.mp ht with rfl | ht
    · exact Nat.lt_succ_of_le (h.pin_le p hp)
    · exact h.below p hp t ht
  · exact hfresh (e + 1) (mem_map_of_mem (f := fun t => (t.1, t.2 + 1)) he)

theorem Ledger.publishTicket (slot : Nat) :
    Ledger (E.publishTicket slot) (tickets.filter fun t => t.1 != slot) pins := by
  obtain ⟨hsettled, hlists⟩ := release_spec h.settledTickets h.ticketSlots slot
  rw [filter_map] at hlists
  exact ⟨hsettled, h.settledPins, hlists, h.pinSlots,
    fun t ht => h.open_pos t (mem_filter.mp ht).1, h.pin_le,
    fun p hp t ht => h.below p hp t (mem_filter.mp ht).1⟩

theorem Ledger.releasePin (slot : Nat) :
    Ledger (E.releasePin slot) tickets (pins.filter fun p => p.1 != slot) := by
  obtain ⟨hsettled, hlists⟩ := release_spec h.settledPins h.pinSlots slot
  rw [filter_map] at hlists
  exact ⟨h.settledTickets, hsettled, h.ticketSlots, hlists, h.open_pos,
    fun p hp => h.pin_le p (mem_filter.mp hp).1, fun p hp => h.below p (mem_filter.mp hp).1⟩

end

theorem reapDead_alive (t : HolderTable) : t.reapDead (fun _ => true) = t := by
  refine (map_congr_left fun s _ => ?_).trans (map_id' t)
  simp [reapSlot, abandoned]

/-- With every process alive, a pin takes the published epoch or the table is full. -/
theorem Ledger.claimPin (h : Ledger E tickets pins) (pid : Nat) :
    ∃ E' res, E.claimPin (fun _ => true) pid = some (E', res) ∧ match res with
      | .ok (slot, at') => E.now = some at' ∧ E'.counter = E.counter ∧
          Ledger E' tickets ((slot, at') :: pins) ∧ ∀ e, (slot, e) ∉ pins
      | .error _ => E' = E := by
  obtain ⟨now, hnow, hcounter, hbelow, -⟩ := h.now_spec
  unfold SharedEpochs.claimPin SharedEpochs.tryClaim
  cases hreserve : E.pins.reserve pid with
  | none =>
    refine ⟨E, .error .pinsExhausted, ?_, rfl⟩
    simp [reapDead_alive, hreserve]
  | some claim =>
    obtain ⟨slot, table⟩ := claim
    obtain ⟨hsettled, hlists, hfresh⟩ := claim_spec h.settledPins h.pinSlots hreserve (now + 1)
    refine ⟨{ E with pins := table.publish slot (now + 1) }, .ok (slot, now), ?_, hnow, rfl,
      ⟨h.settledTickets, hsettled, h.ticketSlots, hlists, h.open_pos, fun p hp => ?_,
        fun p hp t ht => ?_⟩, fun e he => ?_⟩
    · simp [hnow]
    · rcases mem_cons.mp hp with rfl | hp
      · exact hcounter
      · exact h.pin_le p hp
    · rcases mem_cons.mp hp with rfl | hp
      · exact hbelow t ht
      · exact h.below p hp t ht
    · exact hfresh (e + 1) (mem_map_of_mem (f := fun t => (t.1, t.2 + 1)) he)

end SharedEpochs
end SubEtha.Epochs
