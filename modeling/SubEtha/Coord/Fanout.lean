import SubEtha.Lib.Runs
import SubEtha.Ring.Adaptive

namespace SubEtha.Coord
open List SubEtha.Lib SubEtha.Ring

def maxPriorities : Nat := 64

inductive FanoutError
  | ring (e : RingError)
  | priorityOutOfBounds
  | nPrioritiesOutOfBounds
  | empty
deriving DecidableEq

structure PriorityFanout (α : Type) where
  nPriorities : Nat
  ringCapacity : Nat
  rings : Nat → List α
  bitmap : Nat → Bool
  some_priority : 0 < nPriorities
  fits : nPriorities ≤ maxPriorities

namespace PriorityFanout

variable {α : Type} (f : PriorityFanout α)

def create (nPriorities ringCapacity : Nat) : Except FanoutError (PriorityFanout α) :=
  if h : 0 < nPriorities ∧ nPriorities ≤ maxPriorities then
    .ok ⟨nPriorities, ringCapacity, fun _ => [], fun _ => false, h.1, h.2⟩
  else .error .nPrioritiesOutOfBounds

def setRing (priority : Nat) (q : List α) : PriorityFanout α :=
  { f with rings := fun p => if p = priority then q else f.rings p }

def setBit (priority : Nat) (bit : Bool) : PriorityFanout α :=
  { f with bitmap := fun p => if p = priority then bit else f.bitmap p }

/-- The highest set bit of the word; `none` is a word of zero. -/
def highest : Option Nat :=
  (range maxPriorities).reverse.find? f.bitmap

end PriorityFanout

/-- Where a user stands between two ring or bitmap calls. -/
inductive FanoutTask (α : Type)
  | idle
  /-- `submit` has pushed and is to set the bit. -/
  | marking (priority : Nat)
  /-- `try_drain_highest` is to load the bitmap, with `rounds` of its loop left. -/
  | scanning (rounds outLen : Nat)
  | popping (rounds outLen highest : Nat)
  /-- A bit out of range or over an empty ring is to be cleared before the next round. -/
  | unmarking (rounds outLen priority : Nat)
  /-- A drain has popped and is to read `approx_len`. -/
  | measuring (priority : Nat) (result : Except FanoutError (Nat × α))
  /-- A drain has read a length of zero and is to clear the bit. -/
  | clearing (priority : Nat) (result : Except FanoutError (Nat × α))

inductive FanoutReturn (α : Type)
  | submitted (result : Except FanoutError Unit)
  | drained (result : Except FanoutError (Nat × α))

inductive FanoutEvent (α : Type)
  | submit (user priority len : Nat) (payload : α)
  | tryDrainHighest (user outLen : Nat)
  | tryDrainPriority (user priority outLen : Nat)
  | advance (user : Nat)

/-- The producers and consumers of one fanout, and what their calls have returned. -/
structure FanoutUsers (α : Type) where
  fanout : PriorityFanout α
  tasks : List (FanoutTask α)
  returned : List (Nat × FanoutReturn α)

namespace FanoutUsers

variable {α : Type}

def start (fanout : PriorityFanout α) (users : Nat) : FanoutUsers α :=
  ⟨fanout, replicate users .idle, []⟩

section
variable (s : FanoutUsers α)

def put (i : Nat) (task : FanoutTask α) : FanoutUsers α :=
  { s with tasks := s.tasks.set i task }

def answer (i : Nat) (r : FanoutReturn α) : FanoutUsers α :=
  { s with tasks := s.tasks.set i .idle, returned := s.returned ++ [(i, r)] }

def withFanout (fanout : PriorityFanout α) : FanoutUsers α :=
  { s with fanout := fanout }

def submit (i priority len : Nat) (payload : α) : FanoutUsers α :=
  if s.fanout.nPriorities ≤ priority then s.answer i (.submitted (.error .priorityOutOfBounds))
  else
    match tryPush vyukovPayload s.fanout.ringCapacity len payload (s.fanout.rings priority) with
    | .error e => s.answer i (.submitted (.error (.ring e)))
    | .ok q => (s.withFanout (s.fanout.setRing priority q)).put i (.marking priority)

def tryDrainPriority (i priority outLen : Nat) : FanoutUsers α :=
  if s.fanout.nPriorities ≤ priority then s.answer i (.drained (.error .priorityOutOfBounds))
  else
    match tryPop vyukovPayload outLen (s.fanout.rings priority) with
    | .error e => s.put i (.measuring priority (.error (.ring e)))
    | .ok (x, q) =>
      (s.withFanout (s.fanout.setRing priority q)).put i (.measuring priority (.ok (priority, x)))

/-- The next ring or bitmap call of the call a user is in. -/
def advance (i : Nat) : FanoutTask α → FanoutUsers α
  | .idle => s
  | .marking priority => (s.withFanout (s.fanout.setBit priority true)).answer i (.submitted (.ok ()))
  | .scanning 0 _ => s.answer i (.drained (.error .empty))
  | .scanning (rounds + 1) outLen =>
    match s.fanout.highest with
    | none => s.answer i (.drained (.error .empty))
    | some highest =>
      if s.fanout.nPriorities ≤ highest then s.put i (.unmarking rounds outLen highest)
      else s.put i (.popping rounds outLen highest)
  | .popping rounds outLen highest =>
    match tryPop vyukovPayload outLen (s.fanout.rings highest) with
    | .ok (x, q) =>
      (s.withFanout (s.fanout.setRing highest q)).put i (.measuring highest (.ok (highest, x)))
    | .error .empty => s.put i (.unmarking rounds outLen highest)
    | .error e => s.answer i (.drained (.error (.ring e)))
  | .unmarking rounds outLen priority =>
    (s.withFanout (s.fanout.setBit priority false)).put i (.scanning rounds outLen)
  | .measuring priority result =>
    if (s.fanout.rings priority).length = 0 then s.put i (.clearing priority result)
    else s.answer i (.drained result)
  | .clearing priority result =>
    (s.withFanout (s.fanout.setBit priority false)).answer i (.drained result)

/-- One step of one user; a call starts where the user is in none. -/
def turn : FanoutEvent α → FanoutUsers α
  | .submit i priority len payload =>
    match s.tasks[i]? with
    | some .idle => s.submit i priority len payload
    | _ => s
  | .tryDrainHighest i outLen =>
    match s.tasks[i]? with
    | some .idle => s.put i (.scanning (s.fanout.nPriorities * 2) outLen)
    | _ => s
  | .tryDrainPriority i priority outLen =>
    match s.tasks[i]? with
    | some .idle => s.tryDrainPriority i priority outLen
    | _ => s
  | .advance i =>
    match s.tasks[i]? with
    | some task => s.advance i task
    | none => s

def step (e : FanoutEvent α) : Option (FanoutUsers α) := some (s.turn e)

def Quiet : Prop := ∀ t ∈ s.tasks, t = .idle

def marks (priority : Nat) : FanoutTask α → Bool
  | .marking p => decide (p = priority)
  | _ => false

def clears : FanoutTask α → Option Nat
  | .unmarking _ _ priority => some priority
  | .clearing priority _ => some priority
  | _ => none

/-- A bit is cleared only over an empty ring, or with a user yet to set it. -/
def ClearsEmpty : FanoutEvent α → Prop
  | .advance i => ∀ priority ∈ s.tasks[i]?.bind clears,
      s.fanout.rings priority = [] ∨ s.tasks.any (marks priority) = true
  | _ => True

end

instance (s : FanoutUsers α) : DecidablePred s.ClearsEmpty := fun e => by
  cases e <;> unfold ClearsEmpty <;> infer_instance

/-- What a drain from the highest priority is to answer. -/
def Drains (rings : Nat → List α) : Except FanoutError (Nat × α) → Prop
  | .ok (priority, x) =>
    (∃ q, rings priority = x :: q) ∧ ∀ p, priority < p → rings p = []
  | .error .empty => ∀ p, rings p = []
  | .error _ => False

/-- A ring that holds an item has its bit set, or a user about to set it. -/
structure Covered (s : FanoutUsers α) : Prop where
  bits : ∀ p, s.fanout.bitmap p = true → p < s.fanout.nPriorities
  marking : ∀ p, .marking p ∈ s.tasks → p < s.fanout.nPriorities
  covered : ∀ p, s.fanout.rings p ≠ [] →
    s.fanout.bitmap p = true ∨ s.tasks.any (marks p) = true

variable {s : FanoutUsers α} {i : Nat} {r : List (Nat × FanoutReturn α)}
  {tasks : List (FanoutTask α)}

theorem any_set (htask : tasks[i]? = some old) (hold : marks p old = false)
    (hany : tasks.any (marks p) = true) : (tasks.set i new).any (marks p) = true := by
  obtain ⟨t, ht, hmarks⟩ := any_eq_true.mp hany
  obtain ⟨j, hj⟩ := mem_iff_getElem?.mp ht
  have hne : i ≠ j := by
    rintro rfl
    rw [htask] at hj
    cases hj
    rw [hold] at hmarks
    cases hmarks
  refine any_eq_true.mpr ⟨t, mem_iff_getElem?.mpr ⟨j, ?_⟩, hmarks⟩
  rw [getElem?_set_ne hne]
  exact hj

theorem any_set_self (htask : tasks[i]? = some old) (hnew : marks p new = true) :
    (tasks.set i new).any (marks p) = true := by
  refine any_eq_true.mpr ⟨new, mem_iff_getElem?.mpr ⟨i, ?_⟩, hnew⟩
  exact getElem?_set_self (List.getElem_of_getElem? htask).1

variable {f : PriorityFanout α}

section
variable (h : Covered s)
include h

/-- A step that sets no bit and adds no item, of a user that is not about to set a bit. -/
theorem Covered.pass (htask : s.tasks[i]? = some old) (hold : ∀ p, marks p old = false)
    (hnew : ∀ p, new ≠ .marking p) (hn : f.nPriorities = s.fanout.nPriorities)
    (hbits : f.bitmap = s.fanout.bitmap) (hrings : ∀ p, s.fanout.rings p = [] → f.rings p = []) :
    Covered ⟨f, s.tasks.set i new, r⟩ := by
  refine ⟨fun p hp => ?_, fun p hp => ?_, fun p hp => ?_⟩
  · rw [hn]
    exact h.bits p (hbits ▸ hp)
  · rw [hn]
    rcases mem_or_eq_of_mem_set hp with hmem | heq
    · exact h.marking p hmem
    · exact absurd heq.symm (hnew p)
  · rw [hbits]
    exact (h.covered p fun hempty => hp (hrings p hempty)).imp_right (any_set htask (hold p))

theorem Covered.move (htask : s.tasks[i]? = some old)
    (hold : ∀ p, marks p old = false) (hnew : ∀ p, new ≠ .marking p) :
    Covered ⟨s.fanout, s.tasks.set i new, r⟩ :=
  h.pass htask hold hnew rfl rfl fun _ hp => hp

theorem Covered.push (htask : s.tasks[i]? = some .idle) (hp : p < s.fanout.nPriorities)
    (q : List α) :
    Covered ⟨s.fanout.setRing p q, s.tasks.set i (.marking p), r⟩ := by
  refine ⟨h.bits, fun p' hp' => ?_, fun p' hp' => ?_⟩
  · rcases mem_or_eq_of_mem_set hp' with hmem | heq
    · exact h.marking p' hmem
    · cases heq
      exact hp
  · by_cases heq : p' = p
    · exact .inr (any_set_self htask (by simp [marks, heq]))
    have hring : (s.fanout.setRing p q).rings p' = s.fanout.rings p' := if_neg heq
    rw [hring] at hp'
    exact (h.covered p' hp').imp_right (any_set htask rfl)

theorem Covered.mark (htask : s.tasks[i]? = some (.marking p)) :
    Covered ⟨s.fanout.setBit p true, s.tasks.set i .idle, r⟩ := by
  refine ⟨fun p' hp' => ?_, fun p' hp' => ?_, fun p' hp' => ?_⟩
  · by_cases heq : p' = p
    · exact heq ▸ h.marking p (mem_of_getElem? htask)
    · exact h.bits p' ((if_neg heq).symm.trans hp')
  · rcases mem_or_eq_of_mem_set hp' with hmem | heq
    · exact h.marking p' hmem
    · cases heq
  by_cases heq : p' = p
  · exact .inl (if_pos heq)
  have hbit : (s.fanout.setBit p true).bitmap p' = s.fanout.bitmap p' := if_neg heq
  rw [hbit]
  refine (h.covered p' hp').imp_right (any_set htask ?_)
  simpa [marks] using Ne.symm heq

theorem Covered.clear (htask : s.tasks[i]? = some old)
    (hold : ∀ p, marks p old = false) (hnew : ∀ p, new ≠ .marking p)
    (hclear : s.fanout.rings p = [] ∨ s.tasks.any (marks p) = true) :
    Covered ⟨s.fanout.setBit p false, s.tasks.set i new, r⟩ := by
  refine ⟨fun p' hp' => ?_, fun p' hp' => ?_, fun p' hp' => ?_⟩
  · have hne : p' ≠ p := fun heq => by
      rw [show (s.fanout.setBit p false).bitmap p' = false from if_pos heq] at hp'
      cases hp'
    exact h.bits p' ((if_neg hne).symm.trans hp')
  · rcases mem_or_eq_of_mem_set hp' with hmem | heq
    · exact h.marking p' hmem
    · exact absurd heq.symm (hnew p')
  by_cases heq : p' = p
  · subst heq
    exact .inr (any_set htask (hold p') (hclear.resolve_left hp'))
  have hbit : (s.fanout.setBit p false).bitmap p' = s.fanout.bitmap p' := if_neg heq
  rw [hbit]
  exact (h.covered p' hp').imp_right (any_set htask (hold p'))

end

theorem popped_rings (h : tryPop vyukovPayload outLen (f.rings priority) = .ok (x, q)) (p : Nat)
    (hp : f.rings p = []) : (f.setRing priority q).rings p = [] := by
  have hne : p ≠ priority := fun heq => by
    rw [← heq, hp] at h
    cases (tryPop_ok h).2
  exact (if_neg hne).trans hp

theorem Covered.submit (h : Covered s) (htask : s.tasks[i]? = some .idle) (priority len : Nat)
    (payload : α) : Covered (s.submit i priority len payload) := by
  unfold FanoutUsers.submit
  split
  · exact h.move htask (fun _ => rfl) nofun
  rename_i hbound
  split
  · exact h.move htask (fun _ => rfl) nofun
  · exact h.push htask (Nat.lt_of_not_le hbound) _

theorem Covered.tryDrainPriority (h : Covered s) (htask : s.tasks[i]? = some .idle)
    (priority outLen : Nat) : Covered (s.tryDrainPriority i priority outLen) := by
  unfold FanoutUsers.tryDrainPriority
  split
  · exact h.move htask (fun _ => rfl) nofun
  split
  · exact h.move htask (fun _ => rfl) nofun
  · rename_i hpop
    exact h.pass htask (fun _ => rfl) (by simp) rfl rfl (popped_rings hpop)

theorem Covered.advance (h : Covered s) (htask : s.tasks[i]? = some task)
    (hclear : s.ClearsEmpty (.advance i)) : Covered (s.advance i task) := by
  have hclear : ∀ p, clears task = some p →
      s.fanout.rings p = [] ∨ s.tasks.any (marks p) = true := by
    intro p hp
    refine hclear p ?_
    rw [htask]
    exact hp
  cases task with
  | idle => exact h
  | marking priority => exact h.mark htask
  | scanning rounds outLen =>
    cases rounds with
    | zero => exact h.move htask (fun _ => rfl) nofun
    | succ rounds =>
      simp only [FanoutUsers.advance]
      repeat' split
      all_goals exact h.move htask (fun _ => rfl) nofun
  | popping rounds outLen highest =>
    simp only [FanoutUsers.advance]
    split
    · rename_i hpop
      exact h.pass htask (fun _ => rfl) (by simp) rfl rfl (popped_rings hpop)
    all_goals exact h.move htask (fun _ => rfl) nofun
  | unmarking _ _ priority | clearing priority =>
    exact h.clear htask (fun _ => rfl) (by simp) (hclear priority rfl)
  | measuring priority result =>
    simp only [FanoutUsers.advance]
    split <;> exact h.move htask (fun _ => rfl) nofun

theorem Covered.turn (h : Covered s) (hclear : s.ClearsEmpty e) : Covered (s.turn e) := by
  cases e with
  | submit i priority len payload =>
    simp only [FanoutUsers.turn]
    split
    · rename_i htask
      exact h.submit htask priority len payload
    · exact h
  | tryDrainHighest i outLen =>
    simp only [FanoutUsers.turn]
    split
    · rename_i htask
      exact h.move htask (fun _ => rfl) nofun
    · exact h
  | tryDrainPriority i priority outLen =>
    simp only [FanoutUsers.turn]
    split
    · rename_i htask
      exact h.tryDrainPriority htask priority outLen
    · exact h
  | advance i =>
    simp only [FanoutUsers.turn]
    split
    · rename_i task htask
      exact h.advance htask hclear
    · exact h

theorem covered_start (h : PriorityFanout.create n capacity = .ok f) (users : Nat) :
    Covered (start f users) := by
  unfold PriorityFanout.create at h
  split at h <;> cases h
  refine ⟨nofun, fun p hp => ?_, fun _ hp => absurd rfl hp⟩
  cases eq_of_mem_replicate hp

theorem highest_none (h : f.highest = none) (hp : p < maxPriorities) : f.bitmap p = false := by
  have hnot := find?_eq_none.mp h p (mem_reverse.mpr (mem_range.mpr hp))
  simpa using hnot

theorem highest_some (h : f.highest = some m) :
    f.bitmap m = true ∧ ∀ p, m < p → p < maxPriorities → f.bitmap p = false := by
  obtain ⟨hbit, front, back, hsplit, hfront⟩ := find?_eq_some_iff_append.mp h
  refine ⟨hbit, fun p hlt hp => ?_⟩
  have hsorted : (range maxPriorities).reverse.Pairwise (· > ·) :=
    pairwise_reverse.mpr pairwise_lt_range
  have hmem : p ∈ (range maxPriorities).reverse := mem_reverse.mpr (mem_range.mpr hp)
  rw [hsplit] at hsorted hmem
  rcases mem_append.mp hmem with hin | hin
  · simpa using hfront p hin
  rcases mem_cons.mp hin with rfl | hin
  · exact absurd hlt (Nat.lt_irrefl _)
  · have hgt := (pairwise_cons.mp (pairwise_append.mp hsorted).2.1).1 p hin
    exact absurd hlt (Nat.lt_asymm hgt)

/-- One user steps on alone until the property holds. -/
def Finishes (i : Nat) (s : FanoutUsers α) (Q : FanoutUsers α → Prop) : Prop :=
  ∃ k s', run step s (replicate k (.advance i)) = some s' ∧ Q s'

theorem Finishes.now (h : Q s) : Finishes i s Q := ⟨0, s, rfl, h⟩

theorem Finishes.next (htask : s.tasks[i]? = some task) (h : Finishes i (s.advance i task) Q) :
    Finishes i s Q := by
  obtain ⟨k, s', hrun, hQ⟩ := h
  refine ⟨k + 1, s', ?_, hQ⟩
  rw [replicate_succ, run, step]
  simp only [FanoutUsers.turn, htask]
  exact hrun

theorem Finishes.mono (h : Finishes i s Q) (hQ : ∀ s', Q s' → Q' s') : Finishes i s Q' := by
  obtain ⟨k, s', hrun, hs'⟩ := h
  exact ⟨k, s', hrun, hQ s' hs'⟩

/-- The user is idle again and its call has returned what a drain of `rings` is to answer. -/
def Drained (i : Nat) (s : FanoutUsers α) (rings : Nat → List α) (s' : FanoutUsers α) : Prop :=
  s'.tasks = s.tasks.set i .idle ∧
    ∃ r, s'.returned = s.returned ++ [(i, .drained r)] ∧ Drains rings r

theorem Drained.of_put (h : Drained i t rings s') (htasks : t.tasks = s.tasks.set i task)
    (hreturned : t.returned = s.returned) : Drained i s rings s' := by
  obtain ⟨htasks', r, hr, hdrains⟩ := h
  refine ⟨?_, r, by rw [hr, hreturned], hdrains⟩
  rw [htasks', htasks, set_set]

theorem measuring_finishes (htask : s.tasks[i]? = some (.measuring priority result))
    (hresult : Drains rings result) : Finishes i s (Drained i s rings) := by
  refine .next htask ?_
  simp only [FanoutUsers.advance]
  split
  · have hlt := (List.getElem_of_getElem? htask).1
    refine .next (getElem?_set_self hlt) (.now ⟨set_set _, result, rfl, hresult⟩)
  · exact .now ⟨rfl, result, rfl, hresult⟩

/-- Each round alone returns or takes the highest bit away, so a round for each bit and one more
are enough. -/
theorem scanning_finishes (hout : vyukovPayload ≤ outLen) (rounds m : Nat) (hrounds : m < rounds)
    (hm : m ≤ s.fanout.nPriorities) (htask : s.tasks[i]? = some (.scanning rounds outLen))
    (hbits : ∀ p, s.fanout.bitmap p = true → p < m)
    (hcovered : ∀ p, s.fanout.rings p ≠ [] → s.fanout.bitmap p = true) :
    Finishes i s (Drained i s s.fanout.rings) := by
  induction rounds generalizing s m with
  | zero => exact absurd hrounds (Nat.not_lt_zero _)
  | succ rounds ih =>
    have hlt := (List.getElem_of_getElem? htask).1
    have hwide : ∀ p, s.fanout.bitmap p = true → p < maxPriorities := fun p hp =>
      Nat.lt_of_lt_of_le (hbits p hp) (Nat.le_trans hm s.fanout.fits)
    have hempty : ∀ p, s.fanout.bitmap p ≠ true → s.fanout.rings p = [] := fun p hp =>
      Decidable.byContradiction fun hne => hp (hcovered p hne)
    refine .next htask ?_
    simp only [FanoutUsers.advance]
    split
    · rename_i hnone
      refine .now ⟨rfl, _, rfl, fun p => hempty p fun hset => ?_⟩
      rw [highest_none hnone (hwide p hset)] at hset
      cases hset
    rename_i top htop
    obtain ⟨hset, habove⟩ := highest_some htop
    have htoplt := hbits top hset
    have habove : ∀ p, top < p → s.fanout.bitmap p ≠ true := fun p hp hbit => by
      rw [habove p hp (hwide p hbit)] at hbit
      cases hbit
    rw [if_neg (Nat.not_le.mpr (Nat.lt_of_lt_of_le htoplt hm))]
    refine .next (getElem?_set_self hlt) ?_
    cases hring : s.fanout.rings top with
    | nil =>
      have hpop : tryPop vyukovPayload outLen (s.fanout.rings top) = .error .empty := by
        rw [tryPop_of_le hout, hring]
      simp only [FanoutUsers.advance, FanoutUsers.put, hpop, set_set]
      refine .next (getElem?_set_self hlt) ?_
      simp only [FanoutUsers.advance, FanoutUsers.put, FanoutUsers.withFanout, set_set]
      refine Finishes.mono (ih (s := ⟨s.fanout.setBit top false,
        s.tasks.set i (.scanning rounds outLen), s.returned⟩) top
        (Nat.lt_of_lt_of_le htoplt (Nat.le_of_lt_succ hrounds))
        (Nat.le_of_lt (Nat.lt_of_lt_of_le htoplt hm)) (getElem?_set_self hlt)
        (fun p hp => ?_) fun p hp => ?_) fun s' hs' => hs'.of_put rfl rfl
      · simp only [PriorityFanout.setBit] at hp
        split at hp
        · cases hp
        · rename_i hne
          exact Nat.lt_of_le_of_ne (Nat.le_of_not_lt fun hgt => habove p hgt hp) hne
      · have hne : p ≠ top := fun heq => hp (heq ▸ hring)
        exact (if_neg hne).trans (hcovered p hp)
    | cons x q =>
      have hpop : tryPop vyukovPayload outLen (s.fanout.rings top) = .ok (x, q) := by
        rw [tryPop_of_le hout, hring]
      simp only [FanoutUsers.advance, FanoutUsers.put, hpop, FanoutUsers.withFanout, set_set]
      have hdrains : Drains s.fanout.rings (.ok (top, x)) :=
        ⟨⟨q, hring⟩, fun p hp => hempty p (habove p hp)⟩
      exact Finishes.mono (measuring_finishes (getElem?_set_self hlt) hdrains)
        fun s' hs' => hs'.of_put rfl rfl

/-- Where a bit is cleared only over an empty ring or ahead of a user that sets it, a drain that
follows once every call has returned finds the highest priority that holds an item, and answers
`Empty` only where none does. -/
theorem drain_never_misses {n capacity : Nat} {f : PriorityFanout α}
    (hcreate : PriorityFanout.create n capacity = .ok f) (users : Nat) (es : List (FanoutEvent α))
    {s : FanoutUsers α} (hclears : EveryStep step ClearsEmpty (start f users) es)
    (hrun : run step (start f users) es = some s) (hquiet : s.Quiet) {i : Nat}
    (hi : i < s.tasks.length) {outLen : Nat} (hout : vyukovPayload ≤ outLen) :
    ∃ k s' r, run step s (.tryDrainHighest i outLen :: replicate k (.advance i)) = some s' ∧
      s'.Quiet ∧ s'.returned = s.returned ++ [(i, .drained r)] ∧ Drains s.fanout.rings r := by
  have hcovered : Covered s := by
    refine run_invariant (fun s e s' h hok hstep => ?_) (covered_start hcreate users) hclears hrun
    cases hstep
    exact h.turn hok
  have hidle : s.tasks[i]? = some .idle := by
    rw [getElem?_eq_getElem hi, hquiet _ (getElem_mem hi)]
  have hbits : ∀ p, s.fanout.rings p ≠ [] → s.fanout.bitmap p = true := by
    intro p hp
    refine (hcovered.covered p hp).resolve_right fun hany => ?_
    obtain ⟨t, ht, hmarks⟩ := any_eq_true.mp hany
    rw [hquiet t ht] at hmarks
    cases hmarks
  have hrounds : s.fanout.nPriorities < s.fanout.nPriorities * 2 := by
    have := s.fanout.some_priority
    omega
  have hscan : Finishes i (s.put i (.scanning (s.fanout.nPriorities * 2) outLen))
      (Drained i (s.put i (.scanning (s.fanout.nPriorities * 2) outLen)) s.fanout.rings) :=
    scanning_finishes hout _ _ hrounds (Nat.le_refl _) (getElem?_set_self hi) hcovered.bits hbits
  obtain ⟨k, s', hfinish, htasks, r, hr, hdrains⟩ := hscan
  refine ⟨k, s', r, ?_, fun t ht => ?_, hr, hdrains⟩
  · rw [run, step]
    simp only [turn, hidle]
    exact hfinish
  · rw [htasks, put, set_set] at ht
    rcases mem_or_eq_of_mem_set ht with hmem | heq
    · exact hquiet t hmem
    · exact heq

theorem quiet_of_replicate (h : s.tasks = replicate n .idle) : s.Quiet :=
  fun _ ht => eq_of_mem_replicate (h ▸ ht)

/-- Two priorities: the item of the higher one is drained while the lower one's stays. -/
def twoLevels : List (FanoutEvent Nat) :=
  [.submit 0 0 8 70, .advance 0, .submit 1 1 8 71, .advance 1, .tryDrainHighest 2 64, .advance 2,
    .advance 2, .advance 2, .advance 2]

def twoLevelFanout : PriorityFanout Nat :=
  ⟨2, 4, fun _ => [], fun _ => false, by decide, by decide⟩

theorem drain_never_misses_lower :
    ∃ s, run step (start twoLevelFanout 3) twoLevels = some s ∧ s.fanout.rings 0 = [70] ∧
      ∃ k s' r, run step s (.tryDrainHighest 0 56 :: replicate k (.advance 0)) = some s' ∧
        s'.Quiet ∧ s'.returned = s.returned ++ [(0, .drained r)] ∧ Drains s.fanout.rings r := by
  refine ⟨_, rfl, rfl, drain_never_misses (rfl : PriorityFanout.create 2 4 = .ok twoLevelFanout) 3
    twoLevels (by decide) rfl ?_ (by decide) (by decide)⟩
  exact quiet_of_replicate (n := 3) rfl

/-- A consumer has seen its ring empty when a producer pushes and sets the bit, and clears it. -/
def lateClear : List (FanoutEvent Nat) :=
  [.submit 0 0 8 70, .advance 0, .tryDrainHighest 1 64, .advance 1, .advance 1, .advance 1,
    .submit 0 0 8 71, .advance 0, .advance 1]

theorem late_clear_hides_item :
    ∃ s s', run step (start twoLevelFanout 2) lateClear = some s ∧ s.Quiet ∧
      s.fanout.rings 0 = [71] ∧ run step s [.tryDrainHighest 1 64, .advance 1] = some s' ∧
      s'.Quiet ∧ s'.returned = s.returned ++ [(1, .drained (.error .empty))] :=
  ⟨_, _, rfl, quiet_of_replicate (n := 2) rfl, rfl, rfl, quiet_of_replicate (n := 2) rfl, rfl⟩

end FanoutUsers
end SubEtha.Coord
