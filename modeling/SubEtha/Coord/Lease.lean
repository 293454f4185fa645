import Mathlib.Algebra.Group.Nat.Defs
import Mathlib.Data.List.Nodup
import SubEtha.Lib.Runs

namespace SubEtha.Coord
open List SubEtha.Lib

def noOwner : Nat := 0

structure OwnerLease (T : Type) where
  value : T
  ownerPid : Nat
  leaseTerm : Nat
  heartbeatEpoch : Nat
  globalEpoch : Nat

namespace OwnerLease

variable {T : Type} (l : OwnerLease T)

def create (initial : T) : OwnerLease T := ⟨initial, noOwner, 0, 0, 0⟩

/-- Whether the owner word may be swapped for `myPid`: nobody owns it, a higher process id does,
or the heartbeat is stale. -/
def canClaim (myPid graceEpochs : Nat) : Bool :=
  if l.ownerPid = noOwner then true
  else if myPid < l.ownerPid then true
  else decide (graceEpochs < l.globalEpoch - l.heartbeatEpoch)

def claim (myPid : Nat) : OwnerLease T :=
  { l with
    ownerPid := myPid
    leaseTerm := (l.leaseTerm + 1) % 2 ^ 32
    heartbeatEpoch := l.globalEpoch }

/-- `try_acquire`; `none` is the assertion that process id 0 is reserved. -/
def tryAcquire (myPid graceEpochs : Nat) : Option (OwnerLease T × Bool) :=
  if myPid = noOwner then none
  else if l.ownerPid = myPid then some (l, true)
  else if l.canClaim myPid graceEpochs then some (l.claim myPid, true)
  else some (l, false)

def release (myPid : Nat) : OwnerLease T × Bool :=
  if l.ownerPid = myPid then ({ l with ownerPid := noOwner }, true) else (l, false)

def amIOwner (myPid : Nat) : Bool := decide (l.ownerPid = myPid)

def beat (myPid : Nat) : OwnerLease T × Bool :=
  if l.amIOwner myPid then ({ l with heartbeatEpoch := l.globalEpoch }, true) else (l, false)

def tickEpoch : OwnerLease T := { l with globalEpoch := l.globalEpoch + 1 }

end OwnerLease

/-- A closure of `with_lease`: its result and the value it leaves. -/
abbrev Update (T R : Type) := T → R × T

/-- Where a process stands in its `with_lease` call. -/
inductive LeaseTask (T R : Type)
  | idle
  | acquired (f : Update T R)
  | loaded (f : Update T R) (value : T)
  | written (f : Update T R) (result : R)

inductive LeaseEvent (T R : Type)
  | acquire (pid graceEpochs : Nat) (f : Update T R)
  | read (pid : Nat)
  | write (pid : Nat)
  | release (pid : Nat)
  | beat (pid : Nat)
  | tick

/-- One lease and the processes at work on it, by their process ids. -/
structure LeaseHolders (T R : Type) where
  lease : OwnerLease T
  tasks : Nat → LeaseTask T R
  /-- The closures whose call has returned `Some`. -/
  succeeded : List (Update T R)
  returned : List (Nat × Option R)

namespace LeaseHolders

variable {T R : Type}

def create (initial : T) : LeaseHolders T R := ⟨.create initial, fun _ => .idle, [], []⟩

section
variable (s : LeaseHolders T R)

def setTask (pid : Nat) (task : LeaseTask T R) : LeaseHolders T R :=
  { s with tasks := fun p => if p = pid then task else s.tasks p }

/-- One step of `with_lease` in process `pid`, a heartbeat or a tick. A step a process is not
at is no step. -/
def step : LeaseEvent T R → Option (LeaseHolders T R)
  | .acquire pid graceEpochs f =>
    match s.tasks pid with
    | .idle => (s.lease.tryAcquire pid graceEpochs).map fun (lease, ok) =>
      if ok then { s.setTask pid (.acquired f) with lease := lease }
      else { s with lease := lease, returned := s.returned ++ [(pid, none)] }
    | _ => some s
  | .read pid =>
    match s.tasks pid with
    | .acquired f => some (s.setTask pid (.loaded f s.lease.value))
    | _ => some s
  | .write pid =>
    match s.tasks pid with
    | .loaded f value =>
      some { s.setTask pid (.written f (f value).1) with lease.value := (f value).2 }
    | _ => some s
  | .release pid =>
    match s.tasks pid with
    | .written f result =>
      some { s.setTask pid .idle with
        lease := (s.lease.release pid).1
        succeeded := s.succeeded ++ [f]
        returned := s.returned ++ [(pid, some result)] }
    | _ => some s
  | .beat pid => some { s with lease := (s.lease.beat pid).1 }
  | .tick => some { s with lease := s.lease.tickEpoch }

/-- The lease is free or its heartbeat is within the candidate's grace. -/
def Fresh : LeaseEvent T R → Prop
  | .acquire _ graceEpochs _ =>
    s.lease.ownerPid = noOwner ∨ s.lease.globalEpoch - s.lease.heartbeatEpoch ≤ graceEpochs
  | _ => True

/-- The process that writes back still owns the lease. -/
def OwnerWrites : LeaseEvent T R → Prop
  | .write pid =>
    (match s.tasks pid with
      | .loaded _ _ => s.lease.amIOwner pid
      | _ => true) = true
  | _ => True

instance (s : LeaseHolders T R) (e : LeaseEvent T R) : Decidable (s.Fresh e) := by
  cases e <;> unfold Fresh <;> infer_instance

instance (s : LeaseHolders T R) (e : LeaseEvent T R) : Decidable (s.OwnerWrites e) := by
  cases e <;> unfold OwnerWrites <;> infer_instance

def Quiet : Prop := ∀ pid, s.tasks pid = .idle

def applied (initial : T) (fs : List (Update T R)) : T := fs.foldl (fun v f => (f v).2) initial

theorem applied_concat (initial : T) (fs : List (Update T R)) (f : Update T R) :
    applied initial (fs ++ [f]) = (f (applied initial fs)).2 := by
  unfold applied
  rw [foldl_append]
  rfl

/-- The closures written back and not yet returned, by process. -/
def Pending (pending : List (Nat × Update T R)) : Prop :=
  (pending.map Prod.fst).Nodup ∧ ∀ pid f, (pid, f) ∈ pending ↔ ∃ r, s.tasks pid = .written f r

end

/-- The value is that of the written closures in some order, and what the owner has read is
still the value. -/
structure Serial (initial : T) (s : LeaseHolders T R) : Prop where
  reserved : s.tasks noOwner = .idle
  current : ∀ pid f v, s.tasks pid = .loaded f v → s.lease.ownerPid = pid → v = s.lease.value
  order : ∃ pending log, s.Pending pending ∧ log.Perm (s.succeeded ++ pending.map Prod.snd) ∧
    s.lease.value = applied initial log

variable {s : LeaseHolders T R} {initial : T}

theorem serial_create (initial : T) : Serial initial (create initial : LeaseHolders T R) :=
  ⟨rfl, nofun, [], [], ⟨nodup_nil, fun _ _ => ⟨nofun, fun ⟨_, h⟩ => by cases h⟩⟩, .nil, rfl⟩

theorem Pending.setTask (h : s.Pending pending) (hold : ∀ f r, s.tasks pid ≠ .written f r)
    (hnew : ∀ f r, task ≠ .written f r) : (s.setTask pid task).Pending pending := by
  refine ⟨h.1, fun p f => (h.2 p f).trans ?_⟩
  by_cases hp : p = pid
  · subst hp
    simp [LeaseHolders.setTask, hold, hnew]
  · simp [LeaseHolders.setTask, hp]

section
variable (h : Serial initial s)
include h

theorem Serial.setTask_reserved (hbusy : s.tasks pid ≠ .idle) (task : LeaseTask T R) :
    (s.setTask pid task).tasks noOwner = .idle := by
  have hpid : noOwner ≠ pid := fun heq => hbusy (heq ▸ h.reserved)
  simp only [LeaseHolders.setTask, if_neg hpid]
  exact h.reserved

theorem Serial.acquire (hpid : pid ≠ noOwner) (hidle : s.tasks pid = .idle) (f : Update T R)
    {lease : OwnerLease T} (hvalue : lease.value = s.lease.value) (howner : lease.ownerPid = pid) :
    Serial initial { s.setTask pid (.acquired f) with lease := lease } := by
  obtain ⟨pending, log, hpending, hperm, happlied⟩ := h.order
  refine ⟨?_, fun p f v htask hp => ?_, pending, log, ?_, hperm, hvalue.trans happlied⟩
  · simp only [LeaseHolders.setTask, if_neg hpid.symm]
    exact h.reserved
  · have heq : p = pid := hp.symm.trans howner
    simp only [LeaseHolders.setTask, if_pos heq] at htask
    cases htask
  · exact hpending.setTask (by simp [hidle]) (by simp)

theorem Serial.read (htask : s.tasks pid = .acquired f) :
    Serial initial (s.setTask pid (.loaded f s.lease.value)) := by
  obtain ⟨pending, log, hpending, hperm, happlied⟩ := h.order
  refine ⟨?_, fun p f' v hloaded hp => ?_, pending, log, ?_, hperm, happlied⟩
  · exact h.setTask_reserved (by simp [htask]) _
  · by_cases heq : p = pid
    · simp only [LeaseHolders.setTask, if_pos heq] at hloaded
      cases hloaded
      rfl
    · simp only [LeaseHolders.setTask, if_neg heq] at hloaded
      exact h.current p f' v hloaded hp
  · exact hpending.setTask (by simp [htask]) (by simp)

theorem Serial.write (htask : s.tasks pid = .loaded f v) (howner : s.lease.ownerPid = pid) :
    Serial initial { s.setTask pid (.written f (f v).1) with lease.value := (f v).2 } := by
  obtain ⟨pending, log, hpending, hperm, happlied⟩ := h.order
  have hv := h.current pid f v htask howner
  have hnew : pid ∉ pending.map Prod.fst := by
    intro hmem
    obtain ⟨⟨p, f'⟩, hp, rfl⟩ := mem_map.mp hmem
    obtain ⟨r, hr⟩ := (hpending.2 p f').mp hp
    rw [htask] at hr
    cases hr
  refine ⟨?_, fun p f' v' hloaded hp => ?_, pending ++ [(pid, f)], log ++ [f], ⟨?_, fun p f' => ?_⟩,
    ?_, ?_⟩
  · exact h.setTask_reserved (by simp [htask]) _
  · have heq : p = pid := hp.symm.trans howner
    simp only [LeaseHolders.setTask, if_pos heq] at hloaded
    cases hloaded
  · rw [map_append, nodup_append]
    refine ⟨hpending.1, nodup_singleton _, fun a ha b hb => ?_⟩
    rw [mem_singleton.mp hb]
    rintro rfl
    exact hnew ha
  · rw [mem_append, hpending.2, mem_singleton]
    by_cases hp : p = pid
    · subst hp
      simp [LeaseHolders.setTask, htask, eq_comm]
    · simp [LeaseHolders.setTask, hp]
  · rw [map_append, ← append_assoc]
    exact hperm.append_right [f]
  · rw [applied_concat, ← happlied, ← hv]

theorem Serial.release {r : R} (htask : s.tasks pid = .written f r)
    {returned : List (Nat × Option R)} : Serial initial { s.setTask pid .idle with
      lease := (s.lease.release pid).1
      succeeded := s.succeeded ++ [f]
      returned := returned } := by
  obtain ⟨pending, log, hpending, hperm, happlied⟩ := h.order
  obtain ⟨front, back, rfl⟩ := append_of_mem ((hpending.2 pid f).mpr ⟨r, htask⟩)
  have hnodup := hpending.1
  rw [map_append, map_cons, nodup_middle] at hnodup
  have hvalue : (s.lease.release pid).1.value = s.lease.value := by
    unfold OwnerLease.release
    split <;> rfl
  refine ⟨?_, fun p f' v hloaded hp => ?_, front ++ back, log, ⟨?_, fun p f' => ?_⟩, ?_,
    hvalue.trans happlied⟩
  · exact h.setTask_reserved (by simp [htask]) _
  · have hne : p ≠ pid := fun heq => by
      simp only [LeaseHolders.setTask, if_pos heq] at hloaded
      cases hloaded
    simp only [LeaseHolders.setTask, if_neg hne] at hloaded
    have hnotZero : p ≠ noOwner := fun heq => by
      rw [heq, h.reserved] at hloaded
      cases hloaded
    refine (h.current p f' v hloaded ?_).trans hvalue.symm
    unfold OwnerLease.release at hp
    split at hp
    · exact absurd hp.symm hnotZero
    · exact hp
  · rw [map_append]
    exact (nodup_cons.mp hnodup).2
  · by_cases hp : p = pid
    · subst hp
      have hnot : (p, f') ∉ front ++ back := fun hmem =>
        (nodup_cons.mp hnodup).1 (by rw [← map_append]; exact mem_map.mpr ⟨(p, f'), hmem, rfl⟩)
      simp [LeaseHolders.setTask, hnot]
    · have hiff := hpending.2 p f'
      rw [mem_append, mem_cons, or_left_comm, ← mem_append] at hiff
      simp only [LeaseHolders.setTask, if_neg hp]
      rw [← hiff]
      simp [hp]
  · rw [map_append, map_cons] at hperm
    rw [map_append, append_assoc]
    exact hperm.trans (List.perm_middle.append_left _)

theorem Serial.renew {lease : OwnerLease T} (hvalue : lease.value = s.lease.value)
    (howner : lease.ownerPid = s.lease.ownerPid) : Serial initial { s with lease := lease } := by
  obtain ⟨pending, log, hpending, hperm, happlied⟩ := h.order
  exact ⟨h.reserved, fun p f v htask hp => (h.current p f v htask (howner.symm.trans hp)).trans
    hvalue.symm, pending, log, hpending, hperm, hvalue.trans happlied⟩

end

theorem tryAcquire_cases {l l' : OwnerLease T} (h : l.tryAcquire pid graceEpochs = some (l', ok)) :
    pid ≠ noOwner ∧ l'.value = l.value ∧ match ok with
      | true => l'.ownerPid = pid
      | false => l' = l := by
  unfold OwnerLease.tryAcquire at h
  split at h
  · cases h
  rename_i hpid
  split at h
  · rename_i howner
    cases h
    exact ⟨hpid, rfl, howner⟩
  · split at h
    · cases h
      exact ⟨hpid, rfl, rfl⟩
    · cases h
      exact ⟨hpid, rfl, rfl⟩

theorem Serial.step (h : Serial initial s) (howner : s.OwnerWrites e) {s' : LeaseHolders T R}
    (hstep : s.step e = some s') : Serial initial s' := by
  cases e with
  | acquire pid graceEpochs f =>
    simp only [LeaseHolders.step] at hstep
    split at hstep
    · rename_i hidle
      obtain ⟨⟨lease, ok⟩, hacquire, rfl⟩ := Option.map_eq_some_iff.mp hstep
      obtain ⟨hpid, hvalue, hok⟩ := tryAcquire_cases hacquire
      cases ok with
      | true => exact h.acquire hpid hidle f hvalue hok
      | false =>
        have hkept := h.renew hvalue (congrArg OwnerLease.ownerPid hok)
        exact { hkept with }
    · cases hstep
      exact h
  | read pid =>
    simp only [LeaseHolders.step] at hstep
    split at hstep
    · rename_i f htask
      cases hstep
      exact h.read htask
    · cases hstep
      exact h
  | write pid =>
    simp only [LeaseHolders.step] at hstep
    simp only [OwnerWrites] at howner
    split at hstep
    · rename_i f v htask
      rw [htask] at howner
      cases hstep
      exact h.write htask (of_decide_eq_true howner)
    · cases hstep
      exact h
  | release pid =>
    simp only [LeaseHolders.step] at hstep
    split at hstep
    · rename_i f r htask
      cases hstep
      exact h.release htask
    · cases hstep
      exact h
  | beat pid =>
    cases hstep
    refine h.renew ?_ ?_ <;>
    · unfold OwnerLease.beat
      split <;> rfl
  | tick =>
    cases hstep
    exact h.renew rfl rfl

/-- Where every write back finds the writer still the owner, the value left once every call has
returned is that of the closures whose call succeeded, applied in some order. -/
theorem leases_lose_no_update (initial : T) (es : List (LeaseEvent T R)) {s : LeaseHolders T R}
    (howner : EveryStep step OwnerWrites (create initial) es)
    (hrun : run step (create initial) es = some s) (hquiet : s.Quiet) :
    ∃ order, order.Perm s.succeeded ∧ s.lease.value = applied initial order := by
  have hserial : Serial initial s :=
    run_invariant (fun s e s' h hok hstep => h.step hok hstep) (serial_create initial) howner hrun
  obtain ⟨pending, log, hpending, hperm, happlied⟩ := hserial.order
  obtain rfl : pending = [] := by
    refine eq_nil_iff_forall_not_mem.mpr fun ⟨p, f⟩ hmem => ?_
    obtain ⟨r, hr⟩ := (hpending.2 p f).mp hmem
    rw [hquiet p] at hr
    cases hr
  rw [map_nil, append_nil] at hperm
  exact ⟨log, hperm, happlied⟩

def bump : Update Nat Unit := fun v => ((), v + 1)

/-- Process 2 and process 3 take turns, and the one that comes while the other holds the lease is
refused. -/
def turns : List (LeaseEvent Nat Unit) :=
  [.acquire 2 3 bump, .read 2, .acquire 3 3 bump, .write 2, .release 2, .acquire 3 3 bump, .read 3,
    .write 3, .release 3]

theorem leases_lose_no_update_turns : ∃ s, run step (create 0) turns = some s ∧ s.lease.value = 2 ∧
      ∃ order, order.Perm s.succeeded ∧ s.lease.value = applied 0 order := by
  refine ⟨_, rfl, rfl, leases_lose_no_update 0 turns (by decide) rfl fun pid => ?_⟩
  match pid with
  | 0 | 1 | 2 | 3 => rfl
  | n + 4 => rfl

/-- Process 1 takes the lease from process 2, which has read the value and not yet written. -/
def preempted : List (LeaseEvent Nat Unit) :=
  [.acquire 2 3 bump, .read 2, .acquire 1 3 bump, .read 1, .write 1, .release 1, .write 2,
    .release 2]

theorem preempted_update_lost : EveryStep step Fresh (create 0) preempted ∧
      ∃ s, run step (create 0) preempted = some s ∧ s.Quiet ∧
        ¬∃ order, order.Perm s.succeeded ∧ s.lease.value = applied 0 order := by
  refine ⟨by decide, _, rfl, fun pid => ?_, ?_⟩
  · match pid with
    | 0 | 1 | 2 => rfl
    | n + 3 => rfl
  · rintro ⟨order, hperm, hvalue⟩
    obtain rfl : order = List.replicate 2 bump := perm_replicate.mp hperm
    cases hvalue

end LeaseHolders
end SubEtha.Coord
