import Mathlib.Logic.Function.Iterate

namespace SubEtha.Ring

inductive PushPhase (ω : Type)
  | idle
  | marking
  | taking
  | clearing (taken : Option ω)
  | waking (w : ω)

inductive PollPhase (ω : Type)
  | idle
  | popping
  | claiming
  | storing
  | lettingGo
  | takingBack
  | resetting (taken : Option ω)
  | waking (w : ω)
  | rechecking

/-- The ring by its number of items, and the slot by the two bits of its state word and its
cell. Wakers are equal where one `will_wake` the other's task. -/
structure WakerRing (ω : Type) where
  items : Nat
  capacity : Nat
  registering : Bool
  waking : Bool
  cell : Option ω
  producer : PushPhase ω
  poll : PollPhase ω
  /-- The waker of the task's last poll. -/
  waker : ω
  /-- The last poll has returned `Pending`. -/
  pending : Bool
  /-- The waker of the last poll has been woken since the poll began. -/
  woken : Bool

namespace WakerRing

variable {ω : Type} {r : WakerRing ω}

/-- The waker stands for none: no poll has begun. -/
def create (capacity : Nat) (w : ω) : WakerRing ω :=
  ⟨0, capacity, false, false, none, .idle, .idle, w, false, false⟩

section
variable [DecidableEq ω] (r : WakerRing ω)

def wake (w : ω) : WakerRing ω := { r with woken := r.woken || r.waker == w }

/-- The next operation of `WakerSlot::wake`. -/
def produce : WakerRing ω :=
  match r.producer with
  | .idle => r
  | .marking =>
    { r with waking := true, producer := if r.registering || r.waking then .idle else .taking }
  | .taking => { r with cell := none, producer := .clearing r.cell }
  | .clearing none => { r with waking := false, producer := .idle }
  | .clearing (some w) => { r with waking := false, producer := .waking w }
  | .waking w => { r.wake w with producer := .idle }

def ready : WakerRing ω := { r with items := r.items - 1, poll := .idle, pending := false }

/-- The next operation of the poll, of `WakerSlot::register` between its two pops. -/
def advance : WakerRing ω :=
  match r.poll with
  | .idle => r
  | .popping =>
    if r.items = 0 then { r with poll := .claiming } else r.ready
  | .claiming =>
    if r.registering then { r with poll := .rechecking }
    else if r.waking then { r with poll := .waking r.waker }
    else { r with registering := true, poll := .storing }
  | .storing => { r with cell := some r.waker, poll := .lettingGo }
  | .lettingGo =>
    if r.waking then { r with poll := .takingBack }
    else { r with registering := false, poll := .rechecking }
  | .takingBack => { r with cell := none, poll := .resetting r.cell }
  | .resetting none => { r with registering := false, waking := false, poll := .rechecking }
  | .resetting (some w) => { r with registering := false, waking := false, poll := .waking w }
  | .waking w => { r.wake w with poll := .rechecking }
  | .rechecking =>
    if r.items = 0 then { r with poll := .idle, pending := true } else r.ready

inductive Event (ω : Type)
  | push
  | produce
  | poll (w : ω)
  | advance

/-- A `try_push` or poll begins only where none is under way. -/
def step : Event ω → WakerRing ω
  | .push =>
    match r.producer with
    | .idle =>
      if r.items < r.capacity then { r with items := r.items + 1, producer := .marking } else r
    | _ => r
  | .produce => r.produce
  | .poll w =>
    match r.poll with
    | .idle => { r with poll := .popping, waker := w, woken := false }
    | _ => r
  | .advance => r.advance

end

section
variable (r : WakerRing ω)

/-- The waker of the last poll is in the cell or in the producer's hands. -/
def Kept : Prop :=
  match r.producer with
  | .clearing taken => taken = some r.waker
  | .waking w => w = r.waker ∨ r.cell = some r.waker
  | _ => r.cell = some r.waker

/-- The producer is on its way to the waker. -/
def Due : Prop :=
  match r.producer with
  | .idle => False
  | .waking w => w = r.waker
  | _ => True

/-- What holds at each point of a poll. -/
def PollOk : Prop :=
  match r.poll with
  | .idle => r.registering = false ∧
      (r.pending = true → r.woken = true ∨ r.Kept ∧ (r.items ≠ 0 → r.Due))
  | .popping | .claiming => r.registering = false
  | .storing => r.registering = true
  | .lettingGo => r.registering = true ∧ r.cell = some r.waker
  | .takingBack => r.registering = true ∧ r.waking = true ∧ r.cell = some r.waker
  | .resetting taken => r.registering = true ∧ r.waking = true ∧ taken = some r.waker
  | .waking w => r.registering = false ∧ w = r.waker
  | .rechecking => r.registering = false ∧ (r.woken = true ∨ r.Kept)

structure Sound : Prop where
  poll : r.PollOk
  /-- The wake bit with no registration under way is the producer's own. -/
  wakes : r.waking = true ∧ r.registering = false ↔
    r.producer = .taking ∨ ∃ taken, r.producer = .clearing taken

end

theorem sound_create (capacity : Nat) (w : ω) : Sound (create capacity w) :=
  ⟨⟨rfl, nofun⟩, by simp [create]⟩

/-- While a registration is under way, the producer is not at the cell. -/
theorem Sound.not_at_cell (h : Sound r) (hbusy : r.registering = true) :
    ¬(r.producer = .taking ∨ ∃ taken, r.producer = .clearing taken) := fun hat =>
  absurd (h.wakes.mpr hat).2 (by simp [hbusy])

variable [DecidableEq ω]

theorem Sound.produce (h : Sound r) : Sound r.produce := by
  obtain ⟨hpoll, hw⟩ := h
  unfold WakerRing.produce
  cases hproducer : r.producer with
  | idle => exact ⟨hpoll, hw⟩
  | marking =>
    -- with no registration under way the wake bit is clear, so the producer goes on to the cell
    have hclear : r.registering = false → r.waking = false := by grind
    exact ⟨by grind [PollOk, Kept, Due], by grind⟩
  | taking =>
    obtain ⟨hwaking, hfree⟩ := hw.mpr (.inl hproducer)
    exact ⟨by grind [PollOk, Kept, Due], by simp [hwaking, hfree]⟩
  | clearing taken =>
    obtain ⟨-, hfree⟩ := hw.mpr (.inr ⟨taken, hproducer⟩)
    cases taken with
    | none | some => exact ⟨by grind [PollOk, Kept, Due], by simp⟩
  | waking w => exact ⟨by grind [wake, PollOk, Kept, Due], by grind [wake]⟩

theorem Sound.advance (h : Sound r) : Sound r.advance := by
  have hw := h.wakes
  have hok := h.poll
  unfold WakerRing.advance
  unfold PollOk at hok
  cases hpoll : r.poll <;> rw [hpoll] at hok <;> dsimp only
  case idle => exact h
  case popping =>
    split
    · exact ⟨hok, hw⟩
    · exact ⟨⟨hok, nofun⟩, hw⟩
  case claiming =>
    rw [if_neg (by simp [hok])]
    split
    · exact ⟨⟨hok, rfl⟩, hw⟩
    · rename_i hclear
      exact ⟨rfl, iff_of_false (by simp) fun hat => hclear (hw.mpr hat).1⟩
  case storing => exact ⟨⟨hok, rfl⟩, hw⟩
  case lettingGo =>
    obtain ⟨hbusy, hcell⟩ := hok
    split
    · exact ⟨⟨hbusy, ‹_›, hcell⟩, hw⟩
    · rename_i hclear
      have hat := h.not_at_cell hbusy
      exact ⟨⟨rfl, .inr (by grind [Kept])⟩, iff_of_false (fun hwake => hclear hwake.1) hat⟩
  case takingBack => exact ⟨hok, hw⟩
  case resetting taken =>
    obtain ⟨hbusy, -, rfl⟩ := hok
    exact ⟨⟨rfl, rfl⟩, iff_of_false nofun (h.not_at_cell hbusy)⟩
  case waking w => exact ⟨⟨hok.1, .inl (by simp [wake, hok.2])⟩, hw⟩
  case rechecking =>
    split
    · rename_i hempty
      exact ⟨⟨hok.1, fun _ => hok.2.imp_right fun hkept => ⟨hkept, (absurd hempty ·)⟩⟩, hw⟩
    · exact ⟨⟨hok.1, nofun⟩, hw⟩

theorem Sound.step (h : Sound r) (ev : Event ω) : Sound (r.step ev) := by
  have hw := h.wakes
  have hok := h.poll
  cases ev with
  | push =>
    dsimp only [WakerRing.step]
    cases hproducer : r.producer with
    | idle =>
      dsimp only
      split
      · exact ⟨by grind [PollOk, Kept, Due], by grind⟩
      · exact h
    | _ => exact h
  | produce => exact h.produce
  | poll w =>
    dsimp only [WakerRing.step]
    cases hpoll : r.poll with
    | idle =>
      unfold PollOk at hok
      rw [hpoll] at hok
      exact ⟨hok.1, hw⟩
    | _ => exact h
  | advance => exact h.advance

/-- A task whose last poll returned `Pending` has been woken since, or the producer is inside a
`try_push` that goes on to wake it, wherever the ring is not empty. -/
theorem receiver_not_stranded (capacity : Nat) (w : ω) (events : List (Event ω))
    (hr : events.foldl step (create capacity w) = r) (hidle : r.poll = .idle)
    (hpending : r.pending = true) (hitems : r.items ≠ 0) :
    r.woken = true ∨ ∃ n, (WakerRing.produce^[n] r).woken = true := by
  have h : Sound r := hr ▸ List.foldlRecOn events step (sound_create capacity w)
    fun _ h ev _ => h.step ev
  obtain ⟨items, capacity, registering, waking, cell, producer, poll, waker, pending, woken⟩ := r
  obtain ⟨hpoll, hw⟩ := h
  cases hidle
  obtain ⟨hregistering, hkept⟩ := hpoll
  refine (hkept hpending).imp_right fun ⟨hkept, hdue⟩ => ?_
  have hdue := hdue hitems
  cases producer with
  | idle => exact hdue.elim
  | marking =>
    obtain rfl : cell = some waker := hkept
    obtain rfl : registering = false := hregistering
    have hfree : waking = false := by simpa using hw
    exact ⟨4, by simp [WakerRing.produce, wake, hfree]⟩
  | taking =>
    obtain rfl : cell = some waker := hkept
    exact ⟨3, by simp [WakerRing.produce, wake]⟩
  | clearing taken =>
    obtain rfl : taken = some waker := hkept
    exact ⟨2, by simp [WakerRing.produce, wake]⟩
  | waking w =>
    obtain rfl : w = waker := hdue
    exact ⟨1, by simp [WakerRing.produce, wake]⟩

/-- A poll registers and returns, and an item is pushed. -/
theorem receiver_not_stranded_pushed : ∃ r : WakerRing Nat,
    [.poll 5, .advance, .advance, .advance, .advance, .advance, .push].foldl step (create 2 0) = r ∧
      r.items = 1 ∧ (r.woken = true ∨ ∃ n, (WakerRing.produce^[n] r).woken = true) :=
  ⟨_, rfl, rfl, receiver_not_stranded 2 0 _ rfl rfl rfl Nat.one_ne_zero⟩

end WakerRing
end SubEtha.Ring
