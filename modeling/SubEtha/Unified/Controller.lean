import Mathlib.Data.List.Induction
import SubEtha.Lib.Lists
import SubEtha.Unified.Model

namespace SubEtha.Unified
open List Lib

inductive CodePolicy
  | auto (upQ8 downQ8 : Nat)
  | forceRlc
  | forceRs

def CodePolicy.initialCode : CodePolicy → SensCode
  | .forceRs => .rs
  | .auto .. | .forceRlc => .rlc

/-- Up at once, down late. `escapeLatched` is set while RS was reached by a
flow-block escape, and suppresses the way back. -/
structure CodeSwitchController where
  policy : CodePolicy
  code : SensCode
  upStreak : Nat
  downStreak : Nat
  upHold : Nat
  downHold : Nat
  switches : Nat
  escapeLatched : Bool

namespace CodeSwitchController

def new (policy : CodePolicy) (upHold downHold : Nat) : CodeSwitchController where
  policy := policy
  code := policy.initialCode
  upStreak := 0
  downStreak := 0
  upHold := max upHold 1
  downHold := max downHold 1
  switches := 0
  escapeLatched := false

def observe (c : CodeSwitchController) (lossQ8 : Nat) : CodeSwitchController × Option SensCode :=
  match c.policy with
  | .forceRlc | .forceRs => (c, none)
  | .auto upQ8 downQ8 =>
    match c.code with
    | .rlc =>
      if upQ8 ≤ lossQ8 then
        if c.upHold ≤ c.upStreak + 1 then
          ({ c with code := .rs, upStreak := 0, downStreak := 0, switches := c.switches + 1 },
            some .rs)
        else ({ c with upStreak := c.upStreak + 1, downStreak := 0 }, none)
      else ({ c with upStreak := 0 }, none)
    | .rs =>
      if c.escapeLatched = false ∧ lossQ8 ≤ downQ8 then
        if c.downHold ≤ c.downStreak + 1 then
          ({ c with code := .rlc, downStreak := 0, upStreak := 0, switches := c.switches + 1 },
            some .rlc)
        else ({ c with downStreak := c.downStreak + 1, upStreak := 0 }, none)
      else ({ c with downStreak := 0 }, none)

def force (c : CodeSwitchController) (target : SensCode) : CodeSwitchController × Bool :=
  match c.policy with
  | .forceRlc | .forceRs => (c, false)
  | .auto .. =>
    if c.code = target then (c, false)
    else ({ c with
      code := target, switches := c.switches + 1, upStreak := 0, downStreak := 0,
      escapeLatched := target = .rs }, true)

end CodeSwitchController

inductive ControllerCall
  | observe (lossQ8 : Nat)
  | force (target : SensCode)

/-- A controller with what its calls reported: whether the last move was
forced, and the samples since then, newest first. -/
structure Observed where
  ctrl : CodeSwitchController
  forced : Bool
  since : List Nat

namespace Observed

def init (policy : CodePolicy) (upHold downHold : Nat) : Observed :=
  ⟨.new policy upHold downHold, false, []⟩

def call (o : Observed) : ControllerCall → Observed
  | .observe lossQ8 =>
    match o.ctrl.observe lossQ8 with
    | (ctrl, some _) => ⟨ctrl, false, []⟩
    | (ctrl, none) => { o with ctrl := ctrl, since := lossQ8 :: o.since }
  | .force target =>
    match o.ctrl.force target with
    | (ctrl, true) => ⟨ctrl, true, []⟩
    | (ctrl, false) => { o with ctrl := ctrl }

/-- The counters say how long the samples since the last move have asked for
the next one. -/
structure Counts (upQ8 downQ8 upHold downHold : Nat) (o : Observed) : Prop where
  policy : o.ctrl.policy = .auto upQ8 downQ8
  upHold : o.ctrl.upHold = upHold
  downHold : o.ctrl.downHold = downHold
  latched : o.ctrl.escapeLatched = (o.forced && o.ctrl.code = .rs)
  up : o.ctrl.code = .rlc → o.ctrl.upStreak = streak (upQ8 ≤ ·) o.since
  down : o.ctrl.code = .rs → o.forced = false → o.ctrl.downStreak = streak (· ≤ downQ8) o.since

section
variable (h : Counts upQ8 downQ8 upHold downHold o)
include h

theorem counts_observe : Counts upQ8 downQ8 upHold downHold (o.call (.observe q)) := by
  obtain ⟨hpolicy, hupHold, hdownHold, hlatched, hup, hdown⟩ := h
  cases hcode : o.ctrl.code with
  | rlc =>
    simp only [hcode, call, CodeSwitchController.observe, hpolicy] at *
    by_cases hq : upQ8 ≤ q
    · by_cases hhold : o.ctrl.upHold ≤ o.ctrl.upStreak + 1
      · rw [if_pos hq, if_pos hhold]
        constructor <;> simp_all
      · rw [if_pos hq, if_neg hhold]
        constructor <;> simp_all
    · rw [if_neg hq]
      constructor <;> simp_all
  | rs =>
    simp only [hcode, call, CodeSwitchController.observe, hpolicy] at *
    by_cases hq : o.ctrl.escapeLatched = false ∧ q ≤ downQ8
    · by_cases hhold : o.ctrl.downHold ≤ o.ctrl.downStreak + 1
      · rw [if_pos hq, if_pos hhold]
        constructor <;> simp_all
      · rw [if_pos hq, if_neg hhold]
        constructor <;> simp_all
    · rw [if_neg hq]
      constructor <;> simp_all

theorem counts_force : Counts upQ8 downQ8 upHold downHold (o.call (.force target)) := by
  obtain ⟨hpolicy, hupHold, hdownHold, hlatched, hup, hdown⟩ := h
  simp only [call, CodeSwitchController.force, hpolicy]
  by_cases hcode : o.ctrl.code = target
  · rw [if_pos hcode]
    constructor <;> simp_all
  · rw [if_neg hcode]
    constructor <;> simp_all

theorem counts_calls (calls : List ControllerCall) :
    Counts upQ8 downQ8 upHold downHold (calls.foldl call o) := by
  induction calls generalizing o with
  | nil => exact h
  | cons e calls ih =>
    cases e with
    | observe q => exact ih (counts_observe h)
    | force target => exact ih (counts_force h)

end

theorem counts_init : Counts upQ8 downQ8 (max upHold 1) (max downHold 1)
    (init (.auto upQ8 downQ8) upHold downHold) := by
  constructor <;> simp [init, CodeSwitchController.new, CodePolicy.initialCode]

/-- A sample is answered by a move to RS just when the samples since the last
move have asked for it long enough, by a move back likewise unless RS was
forced, and by no other. -/
theorem observe_moves_iff (upQ8 downQ8 upHold downHold : Nat) (calls : List ControllerCall)
    (q : Nat) : let o := calls.foldl call (init (.auto upQ8 downQ8) upHold downHold)
    let (ctrl, report) := o.ctrl.observe q
    (report = some .rs ↔ o.ctrl.code = .rlc ∧ Sustained (max upHold 1) (upQ8 ≤ ·) (q :: o.since)) ∧
      (report = some .rlc ↔ o.ctrl.code = .rs ∧ o.forced = false ∧
        Sustained (max downHold 1) (· ≤ downQ8) (q :: o.since)) ∧
      ctrl.code = report.getD o.ctrl.code := by
  intro o
  obtain ⟨hpolicy, hupHold, hdownHold, hlatched, hup, hdown⟩ : Counts upQ8 downQ8 (max upHold 1)
    (max downHold 1) o := counts_calls counts_init calls
  simp only [sustained_iff, CodeSwitchController.observe, hpolicy]
  cases hcode : o.ctrl.code with
  | rlc =>
    by_cases hq : upQ8 ≤ q
    · by_cases hhold : o.ctrl.upHold ≤ o.ctrl.upStreak + 1
      · simp_all
      · simp only [if_pos hq, if_neg hhold]
        simp_all
    · simp [hq]
  | rs =>
    by_cases hq : o.ctrl.escapeLatched = false ∧ q ≤ downQ8
    · by_cases hhold : o.ctrl.downHold ≤ o.ctrl.downStreak + 1
      · simp_all
      · simp only [if_pos hq, if_neg hhold]
        simp_all
    · simp only [if_neg hq]
      simp_all

/-- A sample counts one, a forced move a whole hold. -/
def cost (hold : Nat) : ControllerCall → Nat
  | .observe _ => 1
  | .force _ => hold

/-- The samples since the last move pay for the next one. -/
theorem call_pays (h : Counts upQ8 downQ8 upHold downHold o) (hup : hold ≤ upHold)
    (hdown : hold ≤ downHold) (c : ControllerCall) :
    (o.call c).ctrl.switches * hold + (o.call c).since.length ≤
      o.ctrl.switches * hold + o.since.length + cost hold c := by
  obtain ⟨hpolicy, hupHold, hdownHold, hlatched, hupStreak, hdownStreak⟩ := h
  have hlength (p) : streak p o.since ≤ o.since.length := (takeWhile_sublist p).length_le
  have hupLength := hlength (upQ8 ≤ ·)
  have hdownLength := hlength (· ≤ downQ8)
  clear hlength
  cases c with
  | observe q =>
    cases hcode : o.ctrl.code
    all_goals
      simp only [call, CodeSwitchController.observe, hpolicy, hcode, cost]
      split_ifs <;> simp_all [Nat.succ_mul] <;> omega
  | force target =>
    simp only [call, CodeSwitchController.force, hpolicy, cost]
    split_ifs <;> simp [Nat.succ_mul]

/-- However the loss moves, the code is switched at most once in `hold` samples, besides the
moves that are forced. -/
theorem switches_bounded (upQ8 downQ8 upHold downHold : Nat) (calls : List ControllerCall) :
    let o := calls.foldl call (init (.auto upQ8 downQ8) upHold downHold)
    let hold := min (max upHold 1) (max downHold 1)
    o.ctrl.switches * hold + o.since.length ≤ calls.foldl (fun n c => n + cost hold c) 0 := by
  intro o hold
  induction calls using reverseRecOn with
  | nil => simp [o, init, CodeSwitchController.new]
  | append_singleton calls c ih =>
    simp only [o, foldl_concat]
    exact Nat.le_trans (call_pays (counts_calls counts_init calls) (Nat.min_le_left ..)
      (Nat.min_le_right ..) c) (Nat.add_le_add_right ih _)

end Observed
end SubEtha.Unified
