import SubEtha.Ring.PubSubOrder

namespace SubEtha.Ring
open List Option CapacityPubSub
open Lib (run EveryStep append_some modify_some map_modify)

namespace CapacityPubSub

variable {α : Type} {s s' : CapacityPubSub α} {sub sub' : CapacityPubSubSubscriber α}
  {capacity publishers morphs : Nat} {hpos : 0 < capacity} {events : List (PubSubEvent α)}

/-- What a subscriber at position `p` of backing `b` has still to read is in the slots: no
backing on its way along the links has been written a lap past it. -/
inductive KeepsUp (backings : List (PubSubBacking α)) : Nat → Nat → Prop
  | intro {b p k} (hk : backings[b]? = some k) (hlap : k.ring.head ≤ p + k.ring.capacity)
      (hnext : ∀ c, k.next = some c → KeepsUp backings c 0) : KeepsUp backings b p

/-- One of the next `n` calls of `try_next` gives `Pending`, nothing else happening. -/
def getsPending (backings : List (PubSubBacking α)) : Nat → CapacityPubSubSubscriber α → Prop
  | 0, _ => False
  | n + 1, sub =>
    match tryNext backings backings.length sub with
    | none => False
    | some (_, .error .pending) => True
    | some (sub', _) => getsPending backings n sub'

theorem Moves.keepsUp (hc : Chain s) (h : Moves s.backings sub sub' r) :
    (KeepsUp s.backings sub.backing sub.position ↔ KeepsUp s.backings sub'.backing sub'.position) ∧
    (r = .error .pending → KeepsUp s.backings sub'.backing sub'.position) ∧
    (r = .error .lost → ¬ KeepsUp s.backings sub'.backing sub'.position) := by
  induction h with
  | took hk _ hlap =>
    have hhead := (hc.rings _ (mem_of_getElem? hk)).head
    refine ⟨⟨fun ⟨hk', hlap', hnext⟩ => .intro hk' ?_ hnext, fun ⟨hk', _, hnext⟩ => ?_⟩,
      nofun, nofun⟩
    · dsimp only
      omega
    · cases hk.symm.trans hk'
      exact .intro hk (by omega) hnext
  | crossed hk hend hnext _ ih =>
    have hhead := (hc.rings _ (mem_of_getElem? hk)).head
    refine ⟨⟨fun ⟨hk', _, hrest⟩ => ih.1.mp ?_, fun h => .intro hk (by omega) fun c hc' => ?_⟩,
      ih.2⟩
    · cases hk.symm.trans hk'
      exact hrest _ hnext
    · cases hnext.symm.trans hc'
      exact ih.1.mpr h
  | pending hk hend hnext =>
    have hhead := (hc.rings _ (mem_of_getElem? hk)).head
    refine ⟨.rfl, fun _ => .intro hk (by omega) fun c hc' => ?_, nofun⟩
    rw [hnext] at hc'
    cases hc'
  | lost hk hlap =>
    have hhead := (hc.rings _ (mem_of_getElem? hk)).head
    refine ⟨.rfl, nofun, fun _ ⟨hk', hlap', _⟩ => ?_⟩
    cases hk.symm.trans hk'
    omega

theorem Moves.received {backings : List (PubSubBacking α)} (h : Moves backings sub sub' r)
    (hr : r = .ok x) :
    sub'.received = sub.received ++ [x] ∧ sub'.start = sub.start := by
  induction h with
  | took =>
    cases hr
    exact ⟨rfl, rfl⟩
  | crossed _ _ _ _ ih => exact ih hr
  | pending | lost => cases hr

section
variable (hc : Chain s) (hr : Reads s sub)
include hc hr

theorem Reads.moves :
    ∃ sub' r, CapacityPubSub.tryNext s.backings s.backings.length sub = some (sub', r) ∧
      Moves s.backings sub sub' r ∧ Reads s sub' := by
  obtain ⟨k, hk, -⟩ := hr.at_log
  obtain ⟨⟨sub', r⟩, h⟩ := hc.tryNext_returns (lt_of_some hk) (Nat.le_add_left ..)
  exact ⟨sub', r, h, hc.moves h, hr.tryNext hc (hc.moves h)⟩

/-- A subscriber that keeps up receives one entry a call until there is none left. -/
theorem Reads.getsPending (hk : KeepsUp s.backings sub.backing sub.position) {n : Nat}
    (hn : (((s.logs.drop sub.start.1).flatten).drop sub.start.2).length < sub.received.length + n) :
    getsPending s.backings n sub := by
  induction n generalizing sub with
  | zero =>
    have hlen := hr.stream.length_le
    omega
  | succ n ih =>
    obtain ⟨sub', r, h, hmoves, hr'⟩ := hr.moves hc
    rw [CapacityPubSub.getsPending, h]
    obtain ⟨hsame, -, hlost⟩ := hmoves.keepsUp hc
    have hk' := hsame.mp hk
    match r with
    | .ok x =>
      obtain ⟨hreceived, hstart⟩ := hmoves.received rfl
      refine ih hr' hk' ?_
      rw [hreceived, hstart, length_append, length_singleton]
      omega
    | .error .pending => trivial
    | .error .lost => exact absurd hk' (hlost rfl)

theorem Reads.keepsUp (h : CapacityPubSub.getsPending s.backings n sub) :
    KeepsUp s.backings sub.backing sub.position := by
  induction n generalizing sub with
  | zero => cases h
  | succ n ih =>
    obtain ⟨sub', r, hnext, hmoves, hr'⟩ := hr.moves hc
    rw [CapacityPubSub.getsPending, hnext] at h
    obtain ⟨hsame, hpending, -⟩ := hmoves.keepsUp hc
    refine hsame.mpr ?_
    split at h
    · cases h
    · rename_i heq
      cases heq
      exact hpending rfl
    · rename_i heq
      cases heq
      exact ih hr' h

end

/-- With nothing more published and no more morphs, a subscriber of a reachable state gets
`Pending` in finitely many calls exactly when it has kept up: one that was lapped gets
`Lost` from the same position for ever. -/
theorem getsPending_iff_keepsUp
    (hrun : run step (create capacity hpos publishers morphs) events = some s)
    (hsub : sub ∈ s.subs) :
    (∃ n, getsPending s.backings n sub) ↔ KeepsUp s.backings sub.backing sub.position := by
  have hs : Sound s := Lib.run_preserves (fun _ _ _ hs h => (hs.step h).sound)
    (sound_create capacity hpos publishers morphs) hrun
  have hr := hs.reads sub hsub
  exact ⟨fun ⟨_, h⟩ => hr.keepsUp hs.chain h,
    fun h => ⟨_, hr.getsPending hs.chain h (Nat.lt_add_left _ (Nat.lt_succ_self _))⟩⟩

def wholePublish (i payload : Nat) : List (PubSubEvent Nat) :=
  .publish i payload :: replicate 5 (.publishOn i)

def wholeMorph (j capacity : Nat) : List (PubSubEvent Nat) :=
  .morphCapacityTo j capacity :: replicate 3 (.morphOn j)

def caughtUp : List (PubSubEvent Nat) :=
  .subscribeFromOldest :: wholePublish 0 5 ++ wholeMorph 0 4 ++ wholePublish 0 6

theorem getsPending_iff_keepsUp_caught : ∃ s, run step (create 2 Nat.two_pos 1 1) caughtUp = some s ∧
    ∃ sub ∈ s.subs, getsPending s.backings 3 sub ∧
      ((∃ n, getsPending s.backings n sub) ↔ KeepsUp s.backings sub.backing sub.position) := by
  have hrun : run step (create 2 Nat.two_pos 1 1) caughtUp = some _ := rfl
  exact ⟨_, hrun, _, .head _, trivial, getsPending_iff_keepsUp hrun (.head _)⟩

theorem lapped_gets_no_pending : ∃ s, run step (create 2 Nat.two_pos 1 0)
      (.subscribeFromOldest :: wholePublish 0 5 ++ wholePublish 0 6 ++ wholePublish 0 7) = some s ∧
      ∃ sub ∈ s.subs, ∀ n, ¬ getsPending s.backings n sub := by
  refine ⟨_, rfl, _, .head _, fun n => ?_⟩
  induction n with
  | zero => exact id
  | succ n ih => exact ih

/-- The backings linked from `b` on: the last of them and the sum of their capacities. -/
def chainFrom (backings : List (PubSubBacking α)) : Nat → Nat → Nat → Nat × Nat
  | 0, b, total => (b, total)
  | passes + 1, b, total =>
    match backings[b]? with
    | none => (b, total)
    | some k =>
      match k.next with
      | none => (b, total + k.ring.capacity)
      | some next => chainFrom backings passes next (total + k.ring.capacity)

def chainTotalCapacity (s : CapacityPubSub α) : Nat :=
  let (last, total) := chainFrom s.backings s.backings.length s.oldest 0
  if last < s.active then
    total + (s.backings[s.active]?.map fun k => k.ring.capacity).getD 0
  else total

def unread (s : CapacityPubSub α) (sub : CapacityPubSubSubscriber α) : Nat :=
  (s.logs.drop sub.backing).flatten.length - sub.position

/-- A publish begins only while every subscriber has less unread than the chain's capacity. -/
def belowTotal (s : CapacityPubSub α) : PubSubEvent α → Bool
  | .publish _ _ => s.subs.all fun sub => s.unread sub < s.chainTotalCapacity
  | _ => true

/-- The position from which a subscriber has backing `g` to read. -/
def due (sub : CapacityPubSubSubscriber α) (g : Nat) : Nat :=
  if sub.backing = g then sub.position else 0

/-- A write takes no slot that a subscriber has still to read, and whoever replays the
history comes before the first write. -/
def spares (s : CapacityPubSub α) : PubSubEvent α → Bool
  | .publishOn i =>
    match s.publishers[i]? with
    | some (.writing _ b) => s.subs.all fun sub => s.backings[b]?.all fun k =>
      b < sub.backing || k.ring.head < due sub b + k.ring.capacity
    | _ => true
  | .subscribeFromOldest => s.backings.all fun k => k.ring.head == 0
  | _ => true

/-- Nothing a subscriber has still to read has been overwritten. -/
def Spared (rings : List (PubSubRing (Nat × α))) (sub : CapacityPubSubSubscriber α) : Prop :=
  ∀ (g : Nat) (r : PubSubRing (Nat × α)), sub.backing ≤ g → rings[g]? = some r →
    r.head ≤ due sub g + r.capacity

def rings (s : CapacityPubSub α) : List (PubSubRing (Nat × α)) := s.backings.map PubSubBacking.ring

theorem Moves.spared (hc : Chain s) (h : Moves s.backings sub sub' r) (hs : Spared s.rings sub) :
    Spared s.rings sub' ∧ r ≠ .error .lost := by
  induction h with
  | took =>
    refine ⟨fun g r hg hr => ?_, nofun⟩
    have hle := hs g r hg hr
    simp only [due] at hle ⊢
    split_ifs at hle ⊢ <;> omega
  | crossed hk _ hnext _ ih =>
    refine ih fun g r hg hr => ?_
    obtain ⟨rfl, -⟩ := hc.links _ _ _ hk hnext
    have hle := hs g r (Nat.le_of_succ_le hg) hr
    rw [due, if_neg (Nat.ne_of_lt hg)] at hle
    omega
  | pending => exact ⟨hs, nofun⟩
  | @lost sub k hk hlap =>
    have hle := hs sub.backing k.ring (Nat.le_refl _) (by rw [rings, getElem?_map, hk]; rfl)
    have hhead := (hc.rings k (mem_of_getElem? hk)).head
    rw [due, if_pos rfl] at hle
    omega

structure Unlapped (s : CapacityPubSub α) : Prop where
  sound : Sound s
  spared : ∀ sub ∈ s.subs, Spared s.rings sub

theorem rings_some {g : Nat} (h : s.rings[g]? = some r) :
    ∃ k : PubSubBacking α, s.backings[g]? = some k ∧ k.ring = r :=
  map_eq_some_iff.mp ((getElem?_map ..).symm.trans h)

section
variable (hu : Unlapped s)
include hu

theorem Unlapped.same (hrings : s'.rings = s.rings) (hsubs : s'.subs = s.subs) :
    ∀ sub ∈ s'.subs, Spared s'.rings sub :=
  fun sub hsub => hrings ▸ hu.spared sub (hsubs ▸ hsub)

theorem Unlapped.subscribe (hnew : Spared s.rings ⟨b, p, (b, p), []⟩) :
    ∀ sub ∈ (s.subscribe b p).subs, Spared s.rings sub := by
  intro sub hsub
  rcases mem_append.mp hsub with hsub | hsub
  · exact hu.spared sub hsub
  · cases mem_singleton.mp hsub
    exact hnew

theorem Unlapped.publishOn (hok : s.spares (.publishOn i) = true) (ht : s.publishers[i]? = some t) :
    ∀ sub ∈ (s.publishOn i t).subs, Spared (s.publishOn i t).rings sub := by
  cases t with
  | idle | loading | announced => exact hu.spared
  | loaded | leaving | backingOut => exact hu.same (map_modify fun _ _ => rfl) rfl
  | writing payload b =>
    intro sub hsub g r hg hr
    obtain ⟨k', hk', rfl⟩ := rings_some hr
    obtain ⟨k, hk, rfl⟩ := modify_some hk'
    split
    · subst b
      dsimp only
      rw [PubSubRing.publish_capacity]
      rw [spares, ht] at hok
      have hroom := all_eq_true.mp hok sub hsub
      rw [hk, Option.all_some, Bool.or_eq_true, decide_eq_true_eq, decide_eq_true_eq] at hroom
      exact hroom.resolve_left (Nat.not_lt.mpr hg)
    · exact hu.spared sub hsub g k.ring hg (by rw [rings, getElem?_map, hk]; rfl)

theorem Unlapped.morphCapacityTo (j capacity : Nat) :
    ∀ sub ∈ (s.morphCapacityTo j capacity).subs, Spared (s.morphCapacityTo j capacity).rings sub := by
  unfold CapacityPubSub.morphCapacityTo
  split
  · intro sub hsub g r hg hr
    obtain ⟨k, hk, rfl⟩ := rings_some hr
    rcases append_some hk with hk | ⟨-, rfl⟩
    · exact hu.spared sub hsub g k.ring hg (by rw [rings, getElem?_map, hk]; rfl)
    · exact Nat.zero_le _
  · exact hu.spared

theorem Unlapped.morphOn (j : Nat) (t : MorphTask) :
    ∀ sub ∈ (s.morphOn j t).subs, Spared (s.morphOn j t).rings sub := by
  cases t with
  | idle => exact hu.spared
  | swapped | linking => exact hu.same (map_modify fun _ _ => rfl) rfl
  | waiting =>
    rw [CapacityPubSub.morphOn]
    split <;> exact hu.spared

theorem Unlapped.step {e : PubSubEvent α} (hok : s.spares e = true) (h : s.step e = some s') :
    Unlapped s' := by
  refine ⟨(hu.sound.step h).sound, ?_⟩
  cases e with
  | publish =>
    rw [CapacityPubSub.step] at h
    split at h <;> cases h <;> exact hu.spared
  | publishOn i =>
    rw [CapacityPubSub.step] at h
    split at h <;> cases h
    · exact hu.publishOn hok ‹_›
    · exact hu.spared
  | morphCapacityTo =>
    rw [CapacityPubSub.step] at h
    split at h <;> cases h
    · exact hu.morphCapacityTo _ _
    · exact hu.spared
  | morphOn =>
    rw [CapacityPubSub.step] at h
    split at h <;> cases h
    · exact hu.morphOn _ _
    · exact hu.spared
  | subscribeFromNow =>
    cases h
    refine hu.subscribe fun g r hg hr => ?_
    obtain ⟨k, hk, rfl⟩ := rings_some hr
    have hlt := lt_of_some hk
    have hactive := hu.sound.chain.active
    obtain rfl : s.active = g := by
      dsimp only at hg
      omega
    rw [due, if_pos rfl, hk]
    exact Nat.le_add_right ..
  | subscribeFromOldest =>
    cases h
    refine hu.subscribe fun g r _ hr => ?_
    obtain ⟨k, hk, rfl⟩ := rings_some hr
    rw [beq_iff_eq.mp (all_eq_true.mp hok k (mem_of_getElem? hk))]
    exact Nat.zero_le _
  | tryNext k =>
    rw [CapacityPubSub.step] at h
    split at h
    · cases h
      exact hu.spared
    rename_i sub hsub
    obtain ⟨⟨sub', r⟩, hnext, rfl⟩ := map_eq_some_iff.mp h
    intro other hother
    rcases mem_or_eq_of_mem_set hother with hother | rfl
    · exact hu.spared other hother
    · exact ((hu.sound.chain.moves hnext).spared hu.sound.chain
        (hu.spared sub (mem_of_getElem? hsub))).1
  | gc passes =>
    cases h
    obtain ⟨oldest, -, hgc⟩ := hu.sound.chain.gc_eq passes
    rw [hgc]
    exact hu.spared

end

/-- In every run whose writes take no slot that a subscriber has still to read, no
`try_next` gives `Lost`. -/
theorem spared_never_lost
    (hok : EveryStep step (fun s e => s.spares e = true) (create capacity hpos publishers morphs) events)
    (hrun : run step (create capacity hpos publishers morphs) events = some s)
    (hsub : sub ∈ s.subs) :
    ∃ sub' r, tryNext s.backings s.backings.length sub = some (sub', r) ∧ r ≠ .error .lost := by
  have hu : Unlapped s := Lib.run_invariant (fun _ _ _ hu hok h => hu.step hok h)
    ⟨sound_create capacity hpos publishers morphs, fun _ h => by cases h⟩ hok hrun
  obtain ⟨sub', r, h, hmoves, -⟩ := (hu.sound.reads sub hsub).moves hu.sound.chain
  exact ⟨sub', r, h, (hmoves.spared hu.sound.chain (hu.spared sub hsub)).2⟩

theorem spared_never_lost_caught : ∃ s, run step (create 2 Nat.two_pos 1 1) caughtUp = some s ∧
    ∃ sub ∈ s.subs, ∃ sub' r,
      tryNext s.backings s.backings.length sub = some (sub', r) ∧ r ≠ .error .lost := by
  have hrun : run step (create 2 Nat.two_pos 1 1) caughtUp = some _ := rfl
  exact ⟨_, hrun, _, .head _, spared_never_lost (by decide +kernel) hrun (.head _)⟩

/-- Total capacity 6, and never more than three unread; the second backing wraps alone. -/
def narrowed : List (PubSubEvent Nat) :=
  .subscribeFromOldest :: wholePublish 0 1 ++ wholeMorph 0 2 ++ wholePublish 0 2 ++
    wholePublish 0 3 ++ wholePublish 0 4 ++ [.tryNext 0]

theorem narrowed_backing_laps :
    EveryStep step (fun s e => s.belowTotal e = true) (create 4 (Nat.succ_pos 3) 1 1) narrowed ∧
    ((run step (create 4 (Nat.succ_pos 3) 1 1) narrowed).bind fun s => (s.subs[0]?).bind fun sub =>
      (tryNext s.backings s.backings.length sub).map Prod.snd) = some (.error .lost) := by
  decide +kernel

end CapacityPubSub
end SubEtha.Ring
