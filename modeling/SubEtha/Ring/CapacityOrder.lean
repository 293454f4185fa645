import SubEtha.Ring.Resize

namespace SubEtha.Ring
open PeerDirectory List Option Function Backings
open Lib (isPowerOfTwo run run_preserves)

variable {α : Type} {outLen fuel p c : Nat} {r : AdaptiveRing (Nat × α)} {bs : List Nat}
  {m : CapacityRing (Nat × α)} {canGrow : Bool}

namespace CapacityRing
open AdaptiveRing (Fit Yields)

variable {shape : RingShape} {ps cs : List Nat}

def flight (shape : RingShape) (rings : Nat → AdaptiveRing (Nat × α)) (b p : Nat) :
    List (Nat × α) := (rings b).held.inFlight shape p

def flights (shape : RingShape) (rings : Nat → AdaptiveRing (Nat × α)) (bs : List Nat) (p : Nat) :
    List (Nat × α) := bs.flatMap fun b => flight shape rings b p

/-- A read of a stale backing yields, or finds it drained. -/
def Drains (before after : Nat → List (Nat × α)) : Option (Except RingError (Nat × α)) → Prop
  | some res => Yields before after res
  | none => after = before ∧ ∀ p, before p = []

theorem drain_spec (h : Fit shape ps cs r) (hc : c ∈ cs)
    (hdrain : drain c outLen fuel r = some out) :
    Fit shape ps cs out.1 ∧ Drains (r.held.inFlight shape) (out.1.held.inFlight shape) out.2 ∧
      out.2 ≠ some (.error .empty) := by
  induction fuel generalizing r with
  | zero => cases hdrain
  | succ fuel ih =>
    unfold drain at hdrain
    split at hdrain
    · rename_i r' hrecv
      obtain ⟨hfit, hyields⟩ := h.recv hc hrecv
      have hsame : r'.held.inFlight shape = r.held.inFlight shape := hyields
      split at hdrain
      · rename_i hempty
        cases hdrain
        refine ⟨hfit, ⟨hsame, fun p => ?_⟩, nofun⟩
        rw [← hsame]
        exact hfit.flight_nil_of_isEmpty hempty p
      · rw [← hsame]
        exact ih hfit hdrain
    · rename_i r' res hne hrecv
      cases hdrain
      obtain ⟨hfit, hyields⟩ := h.recv hc hrecv
      exact ⟨hfit, hyields, fun heq => hne (Option.some.inj heq)⟩

theorem drain_returns (h : Fit shape ps [c] r) (hfuel : 2 ≤ fuel) :
    (drain c outLen fuel r).isSome = true := by
  obtain ⟨fuel, rfl⟩ := Nat.exists_eq_add_of_le' hfuel
  unfold drain
  split
  · rename_i r1 hfirst
    split
    · rfl
    rename_i hnot
    unfold drain
    split
    · rename_i r2 hsecond
      have hitems := h.drained hfirst hsecond
      have hheld := (AdaptiveRing.idle_of_empty h.sound
        (h.mem_consumers (mem_singleton_self c)) hfirst).held_eq
      exact absurd (AdaptiveRing.isEmpty_of_items_nil (hheld ▸ hitems)) hnot
    · rfl
  · rfl

theorem flights_congr (h : ∀ b ∈ bs, rings' b = rings b) (p : Nat) :
    flights shape rings' bs p = flights shape rings bs p := by
  refine flatMap_congr fun b hb => ?_
  rw [flight, flight, h b hb]

section
variable (rings : Nat → AdaptiveRing (Nat × α)) (b : Nat)

theorem flights_cons (bs : List Nat) :
    flights shape rings (b :: bs) = fun p => flight shape rings b p ++ flights shape rings bs p := rfl

theorem flight_update (r : AdaptiveRing (Nat × α)) (p : Nat) :
    flight shape (update rings b r) b p = r.held.inFlight shape p := by
  simp [flight]

end

theorem yields_append {before after : Nat → List (Nat × α)} (h : Yields before after res)
    (rest : Nat → List (Nat × α)) :
    Yields (fun p => before p ++ rest p) (fun p => after p ++ rest p) res := by
  cases res with
  | ok y =>
    intro p
    dsimp only
    simp [h p]
  | error e =>
    have hsame : after = before := h
    rw [hsame]
    rfl

structure Walked (shape : RingShape) (ps cs bs : List Nat)
    (rings rings' : Nat → AdaptiveRing (Nat × α)) (out : Option (Except RingError (Nat × α))) :
    Prop where
  fit : ∀ b, Fit shape ps cs (rings b) → Fit shape ps cs (rings' b)
  drains : Drains (flights shape rings bs) (flights shape rings' bs) out
  elsewhere : ∀ b, b ∉ bs → rings' b = rings b
  nil : ∀ b p, flight shape rings b p = [] → flight shape rings' b p = []

theorem nil_of_drains {before after : Nat → List (Nat × α)} (h : Drains before after out) (p : Nat)
    (hp : before p = []) : after p = [] := by
  cases out with
  | none =>
    have hsame : after = before := h.1
    rw [hsame]
    exact hp
  | some res =>
    cases res with
    | ok y =>
      have heq := h p
      rw [hp] at heq
      exact (append_eq_nil_iff.mp heq.symm).2
    | error e =>
      have hsame : after = before := h
      rw [hsame]
      exact hp

theorem walkStale_spec (hc : c ∈ cs) (hfit : ∀ b ∈ bs, Fit shape ps cs (m.backing b))
    (hnodup : bs.Nodup) (hwalk : walkStale c outLen fuel bs m = some out) :
    ∃ rings, out.1 = { m with backing := rings } ∧
      Walked shape ps cs bs m.backing rings out.2 ∧ out.2 ≠ some (.error .empty) := by
  induction bs generalizing m with
  | nil =>
    cases hwalk
    exact ⟨m.backing, rfl, ⟨fun _ h => h, ⟨rfl, fun _ => rfl⟩, fun _ _ => rfl, fun _ _ h => h⟩,
      nofun⟩
  | cons b bs ih =>
    obtain ⟨hb, hbs⟩ := nodup_cons.mp hnodup
    obtain ⟨⟨r, res⟩, hdrain, hrest⟩ := bind_eq_some_iff.mp hwalk
    obtain ⟨hfit', hdrains, hne⟩ := drain_spec (hfit b (mem_cons_self ..)) hc hdrain
    have hother : ∀ b', b' ≠ b → update m.backing b r b' = m.backing b' :=
      fun b' hb' => update_of_ne hb' ..
    have htail : ∀ p, flights shape (update m.backing b r) bs p = flights shape m.backing bs p :=
      flights_congr fun b' hb' => hother b' (fun heq => hb (heq ▸ hb'))
    have hfits : ∀ b', Fit shape ps cs (m.backing b') → Fit shape ps cs (update m.backing b r b') := by
      intro b' hb'
      rw [update_apply]
      split
      · exact hfit'
      · exact hb'
    have hnil : ∀ b' p, flight shape m.backing b' p = [] →
        flight shape (update m.backing b r) b' p = [] := by
      intro b' p hp
      by_cases heq : b' = b
      · subst heq
        rw [flight_update]
        exact nil_of_drains hdrains p hp
      · rw [flight, hother b' heq]
        exact hp
    cases res with
    | some res =>
      cases hrest
      refine ⟨_, rfl, ⟨hfits, ?_, fun b' hb' => hother b' (ne_of_not_mem_cons hb'), hnil⟩, hne⟩
      rw [Drains, flights_cons, flights_cons, funext (flight_update m.backing b r), funext htail]
      exact yields_append hdrains _
    | none =>
      obtain ⟨hsame, hempty⟩ : r.held.inFlight shape = (m.backing b).held.inFlight shape ∧
        ∀ p, (m.backing b).held.inFlight shape p = [] := hdrains
      obtain ⟨rings, hout, hwalked, hne'⟩ := ih (m := { m with backing := update m.backing b r })
          (fun b' hb' => hfits b' (hfit b' (mem_cons_of_mem _ hb'))) hbs hrest
      refine ⟨rings, hout, ⟨fun b' hb' => hwalked.fit b' (hfits b' hb'), ?_, fun b' hb' => ?_,
        fun b' p hp => hwalked.nil b' p (hnil b' p hp)⟩, hne'⟩
      · have hat : rings b = r := (hwalked.elsewhere b hb).trans (update_self ..)
        have hkept : ∀ p, flight shape rings b p = [] := by
          intro p
          rw [flight, hat, hsame, hempty]
        have hgone : flight shape m.backing b = fun _ => [] := funext hempty
        rw [flights_cons, flights_cons, funext hkept, hgone, ← funext htail]
        exact hwalked.drains
      · have hrest := hwalked.elsewhere b' (not_mem_of_not_mem_cons hb')
        exact hrest.trans (hother b' (ne_of_not_mem_cons hb'))

theorem walkStale_returns (hfit : ∀ b ∈ bs, Fit shape ps [c] (m.backing b)) (hnodup : bs.Nodup)
    (hfuel : 2 ≤ fuel) : (walkStale c outLen fuel bs m).isSome = true := by
  induction bs generalizing m with
  | nil => rfl
  | cons b bs ih =>
    obtain ⟨hb, hbs⟩ := nodup_cons.mp hnodup
    have hdrain : (drain c outLen fuel (m.backing b)).isSome = true :=
      drain_returns (hfit b (mem_cons_self ..)) hfuel
    obtain ⟨⟨r, res⟩, hout⟩ := isSome_iff_exists.mp hdrain
    rw [walkStale, hout, bind_some]
    cases res with
    | some res => rfl
    | none =>
      refine ih (fun b' hb' => ?_) hbs
      have hne : b' ≠ b := fun heq => hb (heq ▸ hb')
      dsimp only
      rw [update_of_ne hne]
      exact hfit b' (mem_cons_of_mem _ hb')

theorem foldl_fixed_mem {β γ : Type} {f : β → γ → β} {a : β} {l : List γ}
    (h : ∀ x ∈ l, f a x = a) : l.foldl f a = a := by
  induction l with
  | nil => rfl
  | cons x l ih =>
    rw [foldl_cons, h x (mem_cons_self ..)]
    exact ih fun y hy => h y (mem_cons_of_mem _ hy)

/-- With every peer carried by the morph itself, a settle carries nothing. -/
theorem settle_eq {s : RingState} (hactive : Fit shape ps cs (m.backing s.active))
    (hstale : ∀ b ∈ s.stale, Fit shape ps cs (m.backing b)) :
    ∃ settled, m.settle canGrow s = { m with settled := settled } := by
  unfold settle
  split
  · exact ⟨m.settled, rfl⟩
  refine ⟨update m.settled s.seq true, ?_⟩
  dsimp only
  split
  · rfl
  rename_i replaced hlast
  have hreplaced := hstale replaced (mem_of_getLast? hlast)
  rw [hreplaced.producers, hreplaced.consumers]
  have hp : ps.foldl (fun r id => (r.carryProducer canGrow id).1) (m.backing s.active) =
      m.backing s.active := by
    refine foldl_fixed_mem fun id hid => ?_
    rw [← hactive.producers, claimedProducerSlots, mem_filter, mem_range] at hid
    simp [AdaptiveRing.carryProducer, claimProducerSlotAt, not_le.mpr hid.1, hid.2]
  have hcs : cs.foldl (fun r id => (r.carryConsumer id).1) (m.backing s.active) =
      m.backing s.active := by
    refine foldl_fixed_mem fun id hid => ?_
    rw [← hactive.consumers, AdaptiveRing.mem_claimedConsumerSlots] at hid
    simp [AdaptiveRing.carryConsumer, claimConsumerSlotAt, not_le.mpr hid.1, hid.2]
  rw [hp, hcs, update_eq_self]

theorem flights_backings (rings : Nat → AdaptiveRing (Nat × α)) (s : RingState) :
    flights shape rings s.backings = fun p =>
      flights shape rings s.stale p ++ flight shape rings s.active p := by
  funext p
  rw [RingState.backings, flights, flatMap_append, flatMap_singleton]
  rfl

theorem tryRecv_spec (hc : c ∈ cs) (hfit : ∀ b ∈ m.state.backings, Fit shape ps cs (m.backing b))
    (hnodup : m.state.backings.Nodup) (hrecv : m.tryRecv canGrow c outLen fuel = some (m', res)) :
    ∃ rings settled, m' = { m with backing := rings, settled := settled } ∧
      (∀ b, Fit shape ps cs (m.backing b) → Fit shape ps cs (rings b)) ∧
      Yields (flights shape m.backing m.state.backings) (flights shape rings m.state.backings) res ∧
      (∀ b p, flight shape m.backing b p = [] → flight shape rings b p = []) ∧
      (res = .error .empty → (∀ p, flights shape m.backing m.state.stale p = []) ∧
        (m.backing m.state.active).tryRecv c outLen = (rings m.state.active, .error .empty)) := by
  obtain ⟨⟨m1, out⟩, hwalk, heq⟩ := map_eq_some_iff.mp hrecv
  have hstale : ∀ b ∈ m.state.stale, Fit shape ps cs (m.backing b) :=
    fun b hb => hfit b (mem_append_left _ hb)
  have hactive := hfit m.state.active (mem_append_right _ (mem_singleton_self _))
  have hfresh : m.state.active ∉ m.state.stale := fun hmem =>
    (nodup_append'.mp hnodup).2.2 hmem (mem_singleton_self _)
  obtain ⟨rings, rfl, hwalked, hne⟩ := walkStale_spec hc hstale (nodup_append'.mp hnodup).1 hwalk
  have hat : rings m.state.active = m.backing m.state.active := hwalked.elsewhere _ hfresh
  cases out with
  | some res =>
    cases heq
    refine ⟨rings, m.settled, rfl, hwalked.fit, ?_, hwalked.nil,
      fun hempty => absurd (congrArg some hempty) hne⟩
    have hlast : flight shape rings m.state.active = flight shape m.backing m.state.active := by
      funext p
      rw [flight, flight, hat]
    rw [flights_backings, flights_backings, hlast]
    exact yields_append hwalked.drains _
  | none =>
    obtain ⟨hsame, hnil⟩ : flights shape rings m.state.stale = flights shape m.backing m.state.stale ∧
      ∀ p, flights shape m.backing m.state.stale p = [] := hwalked.drains
    have hstale' : ∀ b ∈ m.state.stale, Fit shape ps cs (rings b) :=
      fun b hb => hwalked.fit b (hstale b hb)
    obtain ⟨settled, hsettle⟩ : ∃ settled, settle canGrow { m with backing := rings } m.state =
          { m with backing := rings, settled := settled } :=
      settle_eq (hwalked.fit _ hactive) hstale'
    rw [hsettle] at heq
    dsimp only at heq
    cases hout : (rings m.state.active).tryRecv c outLen with
    | mk r' res' =>
      rw [hout] at heq
      cases heq
      obtain ⟨hfit', hyields⟩ := (hwalked.fit _ hactive).recv hc hout
      have hother : ∀ b, b ≠ m.state.active → update rings m.state.active r' b = rings b :=
        fun b hb => update_of_ne hb ..
      have hkept : ∀ p, flights shape (update rings m.state.active r') m.state.stale p = [] := by
        intro p
        rw [flights_congr (fun b hb => hother b (fun h => hfresh (h ▸ hb))), hsame, hnil]
      refine ⟨_, settled, rfl, fun b hb => ?_, ?_, fun b p hp => ?_, fun hempty => ⟨hnil, ?_⟩⟩
      · rw [update_apply]
        split
        · exact hfit'
        · exact hwalked.fit b hb
      · rw [flights_backings, flights_backings, funext hkept, funext hnil,
          funext (flight_update rings _ r')]
        rw [hat] at hyields
        exact hyields
      · by_cases hb' : b = m.state.active
        · subst hb'
          rw [flight_update]
          rw [flight, ← hat] at hp
          have hdrains : Drains _ _ (some res') := hyields
          exact nil_of_drains hdrains p hp
        · rw [flight, hother b hb']
          exact hwalked.nil b p hp
      · rw [update_self, ← hat, hout]
        exact congrArg _ hempty

/-- A push by `p` into a backing past which `p` has nothing in flight. -/
theorem flights_push (hsorted : bs.Pairwise (· < ·)) (hb : b ∈ bs)
    (hahead : ∀ b' ∈ bs, b < b' → flight shape rings b' p = [])
    (hpush : ∀ o, r.held.inFlight shape o = flight shape rings b o ++ sentBy o [(p, x)]) (o : Nat) :
    flights shape (update rings b r) bs o = flights shape rings bs o ++ sentBy o [(p, x)] := by
  obtain ⟨pre, post, rfl⟩ := append_of_mem hb
  obtain ⟨-, hcons, hcross⟩ := pairwise_append.mp hsorted
  obtain ⟨hpost, -⟩ := pairwise_cons.mp hcons
  have hpre : flights shape (update rings b r) pre o = flights shape rings pre o :=
    flights_congr (fun b' hb' => update_of_ne (ne_of_lt (hcross b' hb' b (mem_cons_self ..))) ..) o
  have htail : flights shape (update rings b r) post o = flights shape rings post o :=
    flights_congr (fun b' hb' => update_of_ne (Nat.ne_of_gt (hpost b' hb')) ..) o
  have hlast : flights shape rings post o ++ sentBy o [(p, x)] =
      sentBy o [(p, x)] ++ flights shape rings post o := by
    by_cases ho : p = o
    · subst ho
      have hnil : flights shape rings post p = [] := flatMap_eq_nil_iff.mpr fun b' hb' =>
        hahead b' (mem_append_right _ (mem_cons_of_mem _ hb')) (hpost b' hb')
      simp [hnil]
    · rw [sentBy_other ho, nil_append, append_nil]
  have hsplit : ∀ rings' : Nat → AdaptiveRing (Nat × α), flights shape rings' (pre ++ b :: post) o =
      flights shape rings' pre o ++ (flight shape rings' b o ++ flights shape rings' post o) := by
    intro rings'
    rw [flights, flatMap_append, flatMap_cons]
    rfl
  simp [hsplit, hpre, htail, flight_update, hpush, hlast]

theorem mem_prune (hnodup : m.state.backings.Nodup) (hs : s ∈ guards)
    (hmem : s.active ∈ m.state.stale) : s.active ∈ m.prune (m.state :: guards) := by
  refine mem_filter.mpr ⟨hmem, ?_⟩
  have hne : s ≠ m.state := by
    rintro rfl
    exact (nodup_append'.mp hnodup).2.2 hmem (mem_singleton_self _)
  have hcount : strongCount (m.state :: guards) s.active ≠ 1 := by
    intro hone
    obtain ⟨t, ht⟩ := length_eq_one_iff.mp hone
    have hmine : s ∈ [t] := by
      rw [← ht, mem_filter, mem_dedup]
      exact ⟨mem_cons_of_mem _ hs, by simp [RingState.names]⟩
    have hcurrent : m.state ∈ [t] := by
      rw [← ht, mem_filter, mem_dedup]
      exact ⟨mem_cons_self .., by simp [RingState.names, hmem]⟩
    exact hne ((mem_singleton.mp hmine).trans (mem_singleton.mp hcurrent).symm)
  simp [hcount]

end CapacityRing

/-- A step of a producer's `try_send`, a morph or a read. The flags say whether
backings can be made. -/
inductive ResizeEvent (α : Type)
  | load (producerId : Nat)
  | push (canGrow : Bool) (producerId len : Nat) (x : α)
  | morph (canBuild canGrow : Bool) (newCapacity : Nat)
  | recv (canGrow : Bool) (outLen fuel : Nat)

/-- A resizable ring, the states its producers have loaded and not yet pushed to, and
what was accepted and received, each item with its producer. -/
structure Resizing (α : Type) where
  ring : CapacityRing (Nat × α)
  guards : List (Nat × RingState)
  accepted : List (Nat × α)
  received : List (Nat × α)

namespace Resizing

/-- Peers register on the first backing, and the ring may be put in a shape. -/
def start (ring : CapacityRing (Nat × α)) (peers : List PeerCall) (shape : Option RingShape) :
    Resizing α :=
  let first := peers.foldl AdaptiveRing.peerCall (ring.backing 0)
  let ring := { ring with backing := update ring.backing 0 first }
  ⟨(ring.morphToConfig true true [] ⟨shape, none⟩).1, [], [], []⟩

def sent (w : Resizing α) (y : Nat × α) :
    CapacityRing (Nat × α) × Except RingError Unit → Resizing α
  | (ring, .ok _) => { w with ring := ring, accepted := w.accepted ++ [y] }
  | (ring, .error _) => { w with ring := ring }

def taken (w : Resizing α) : CapacityRing (Nat × α) × Except RingError (Nat × α) → Resizing α
  | (ring, .ok y) => { w with ring := ring, received := w.received ++ [y] }
  | (ring, .error _) => { w with ring := ring }

/-- A producer has one send under way at a time. -/
def step (consumerId : Nat) (w : Resizing α) : ResizeEvent α → Option (Resizing α)
  | .load p =>
    if w.guards.any fun g => g.1 == p then none
    else some { w with guards := (p, w.ring.state) :: w.guards }
  | .push canGrow p len x =>
    (w.guards.find? fun g => g.1 == p).map fun g =>
      { w with guards := w.guards.filter fun g => g.1 != p }.sent (p, x)
        (w.ring.trySend canGrow g.2 p len (p, x))
  | .morph canBuild canGrow newCapacity =>
    some { w with
      ring := (w.ring.morphCapacityTo canBuild canGrow (w.guards.map Prod.snd) newCapacity).1 }
  | .recv canGrow outLen fuel => (w.ring.tryRecv canGrow consumerId outLen fuel).map w.taken

open CapacityRing (flight flights)
open AdaptiveRing (Fit)

/-- What every run keeps: the backings walked are those that pushes can still reach, in
the order they were made, and what a producer has in flight in them, first to last, is
what it has sent and not been received. -/
structure Ordered (shape : RingShape) (ps cs : List Nat) (w : Resizing α) : Prop where
  unstamped : w.ring.stamped = false
  fit : ∀ b, b < w.ring.made → Fit shape ps cs (w.ring.backing b)
  newest : w.ring.state.active + 1 = w.ring.made
  sorted : w.ring.state.backings.Pairwise (· < ·)
  loaded : ∀ g ∈ w.guards, g.2.active ∈ w.ring.state.backings ∧ ∀ b ∈ g.2.stale, b < w.ring.made
  alone : w.guards.Pairwise fun g g' => g.1 ≠ g'.1
  ahead : ∀ g ∈ w.guards, ∀ b, b < w.ring.made → g.2.active < b →
    flight shape w.ring.backing b g.1 = []
  kept : ∀ p, sentBy p w.accepted =
    sentBy p w.received ++ flights shape w.ring.backing w.ring.state.backings p

variable {shape : RingShape} {ps cs : List Nat} {w w' : Resizing α}

theorem Ordered.nodup (h : Ordered shape ps cs w) : w.ring.state.backings.Nodup :=
  h.sorted.imp ne_of_lt

theorem active_mem (w : Resizing α) : w.ring.state.active ∈ w.ring.state.backings :=
  mem_append_right _ (mem_singleton_self _)

section
variable (h : Ordered shape ps cs w)
include h

theorem Ordered.made (hb : b ∈ w.ring.state.backings) : b < w.ring.made := by
  have hnewest := h.newest
  rcases mem_append.mp hb with hb | hb
  · have hlt := (pairwise_append.mp h.sorted).2.2 b hb _ (mem_singleton_self _)
    omega
  · rw [mem_singleton.mp hb]
    omega

theorem Ordered.load (hfree : ¬ (w.guards.any fun g => g.1 == p) = true) :
    Ordered shape ps cs { w with guards := (p, w.ring.state) :: w.guards } := by
  refine { h with
    loaded := fun g hg => ?_, alone := pairwise_cons.mpr ⟨fun g hg heq => ?_, h.alone⟩
    ahead := fun g hg b hb hlt => ?_ }
  · rcases mem_cons.mp hg with rfl | hg
    · exact ⟨active_mem w, fun b hb => h.made (mem_append_left _ hb)⟩
    · exact h.loaded g hg
  · exact hfree (any_eq_true.mpr ⟨g, hg, beq_iff_eq.mpr heq.symm⟩)
  · rcases mem_cons.mp hg with rfl | hg
    · have hnewest := h.newest
      dsimp only at hlt hb
      omega
    · exact h.ahead g hg b hb hlt

/-- The states a producer's guard names are backed. -/
theorem Ordered.settle_guard (hg : g ∈ w.guards) (canGrow : Bool) :
    ∃ settled, w.ring.settle canGrow g.2 = { w.ring with settled := settled } := by
  obtain ⟨hactive, hstale⟩ := h.loaded g hg
  exact CapacityRing.settle_eq (h.fit _ (h.made hactive)) fun b hb => h.fit b (hstale b hb)

theorem Ordered.settle_state (canGrow : Bool) :
    ∃ settled, w.ring.settle canGrow w.ring.state = { w.ring with settled := settled } :=
  CapacityRing.settle_eq (h.fit _ (h.made (active_mem w))) fun b hb =>
    h.fit b (h.made (mem_append_left _ hb))

theorem Ordered.push (hg : g ∈ w.guards) (hp : g.1 = p) :
    Ordered shape ps cs ({ w with guards := w.guards.filter fun g => g.1 != p }.sent (p, x)
      (w.ring.trySend canGrow g.2 p len (p, x))) := by
  obtain ⟨hactive, -⟩ := h.loaded g hg
  have hmade := h.made hactive
  obtain ⟨settled, hsettle⟩ := h.settle_guard hg canGrow
  cases hout : (w.ring.backing g.2.active).trySend p len (p, x) with
  | mk r res =>
    obtain ⟨hfit, hres⟩ := (h.fit _ hmade).send hout
    have hsend : w.ring.trySend canGrow g.2 p len (p, x) =
        ({ w.ring with backing := update w.ring.backing g.2.active r, settled := settled }, res) := by
      rw [CapacityRing.trySend, hsettle]
      rw [hout]
    have hfits : ∀ b, b < w.ring.made → Fit shape ps cs (update w.ring.backing g.2.active r b) := by
      intro b hb
      rw [update_apply]
      split
      · exact hfit
      · exact h.fit b hb
    have hloaded : ∀ g' ∈ w.guards.filter fun g => g.1 != p, g' ∈ w.guards ∧ g'.1 ≠ p := by
      intro g' hg'
      obtain ⟨hmem, hne⟩ := mem_filter.mp hg'
      exact ⟨hmem, by simpa using hne⟩
    have halone := h.alone.filter fun g => g.1 != p
    -- a push changes only what its own producer has in flight
    have hahead : ∀ g' ∈ w.guards, g'.1 ≠ p → ∀ b, b < w.ring.made → g'.2.active < b →
        flight shape (update w.ring.backing g.2.active r) b g'.1 = [] := by
      intro g' hg' hne b hb hlt
      have hnil := h.ahead g' hg' b hb hlt
      by_cases heq : b = g.2.active
      · subst heq
        rw [CapacityRing.flight_update]
        cases res with
        | ok u =>
          rw [hres, sentBy_other (Ne.symm hne), append_nil]
          exact hnil
        | error e =>
          have hheld : r.held = (w.ring.backing g.2.active).held := hres
          rw [hheld]
          exact hnil
      · rw [flight, update_of_ne heq]
        exact hnil
    rw [hsend]
    cases res with
    | ok u =>
      refine ⟨h.unstamped, hfits, h.newest, h.sorted,
        fun g' hg' => h.loaded g' (hloaded g' hg').1, halone,
        fun g' hg' => hahead g' (hloaded g' hg').1 (hloaded g' hg').2, fun o => ?_⟩
      have hpast : ∀ b' ∈ w.ring.state.backings, g.2.active < b' →
          flight shape w.ring.backing b' p = [] := by
        intro b' hb' hlt
        rw [← hp]
        exact h.ahead g hg b' (h.made hb') hlt
      have hpush := CapacityRing.flights_push h.sorted hactive hpast hres o
      dsimp only [sent]
      simp [sentBy_append, h.kept, hpush]
    | error e =>
      refine ⟨h.unstamped, hfits, h.newest, h.sorted,
        fun g' hg' => h.loaded g' (hloaded g' hg').1, halone,
        fun g' hg' => hahead g' (hloaded g' hg').1 (hloaded g' hg').2, fun o => ?_⟩
      have hheld : r.held = (w.ring.backing g.2.active).held := hres
      dsimp only [sent]
      rw [h.kept]
      refine congrArg _ (flatMap_congr fun b _ => ?_)
      rw [flight, flight, update_apply]
      split
      · rename_i heq
        rw [heq, hheld]
      · rfl

theorem Ordered.recv (hc : c ∈ cs) (hrecv : w.ring.tryRecv canGrow c outLen fuel = some out) :
    Ordered shape ps cs (w.taken out) := by
  obtain ⟨m, res⟩ := out
  obtain ⟨rings, settled, rfl, hfit, hyields, hnil, -⟩ := CapacityRing.tryRecv_spec hc
    (fun b hb => h.fit b (h.made hb)) h.nodup hrecv
  have hahead : ∀ g ∈ w.guards, ∀ b, b < w.ring.made → g.2.active < b →
      flight shape rings b g.1 = [] := fun g hg b hb hlt => hnil b g.1 (h.ahead g hg b hb hlt)
  cases res with
  | ok y =>
    refine { h with fit := fun b hb => hfit b (h.fit b hb), ahead := hahead, kept := fun p => ?_ }
    have hstep : flights shape w.ring.backing w.ring.state.backings p =
      sentBy p [y] ++ flights shape rings w.ring.state.backings p := hyields p
    dsimp only [taken]
    simp [h.kept, hstep, sentBy_append]
  | error e =>
    refine { h with fit := fun b hb => hfit b (h.fit b hb), ahead := hahead, kept := fun p => ?_ }
    have hstep : flights shape rings w.ring.state.backings =
      flights shape w.ring.backing w.ring.state.backings := hyields
    dsimp only [taken]
    rw [hstep]
    exact h.kept p

/-- Putting in a fresh backing that has the peers and the shape of the one it follows. -/
theorem Ordered.install
    (hnew : CapacityRing.Succeeds (w.ring.backing w.ring.state.active) shape new)
    (settled : Nat → Bool) (capacity : Nat) :
    Ordered shape ps cs ⟨{ w.ring with settled := settled }.install
      (w.ring.state :: w.guards.map Prod.snd) capacity new, w.guards, w.accepted, w.received⟩ := by
  have hold := h.fit _ (h.made (active_mem w))
  have hfresh : ∀ b, b < w.ring.made → update w.ring.backing w.ring.made new b = w.ring.backing b :=
    fun b hb => update_of_ne (ne_of_lt hb) ..
  have hempty : ∀ p, flight shape (update w.ring.backing w.ring.made new) w.ring.made p = [] := by
    intro p
    rw [CapacityRing.flight_update]
    exact inFlight_eq_nil (queues_eq_nil hnew.items_nil shape) p
  have hsub : (w.ring.prune (w.ring.state :: w.guards.map Prod.snd)).Sublist w.ring.state.stale :=
    filter_sublist
  refine ⟨h.unstamped, fun b hb => ?_, rfl, ?_, fun g hg => ⟨?_, fun b hb => ?_⟩, h.alone,
    fun g hg b hb hlt => ?_, fun p => ?_⟩
  · show Fit shape ps cs (update w.ring.backing w.ring.made new b)
    rcases Nat.lt_succ_iff_lt_or_eq.mp hb with hb | rfl
    · rw [hfresh b hb]
      exact h.fit b hb
    rw [update_self]
    exact { hnew with
      producers := hnew.producers_eq.trans hold.producers
      consumers := hnew.consumers_eq.trans hold.consumers
      homed := homed_of_items_nil hnew.items_nil shape }
  · refine pairwise_append.mpr ⟨h.sorted.sublist (hsub.append_right _),
      pairwise_singleton .., fun b hb b' hb' => ?_⟩
    rw [mem_singleton.mp hb']
    exact h.made ((hsub.append_right _).mem hb)
  · refine mem_append_left _ ?_
    rcases mem_append.mp (h.loaded g hg).1 with hmem | hmem
    · exact mem_append_left _ (CapacityRing.mem_prune h.nodup (mem_map_of_mem hg) hmem)
    · exact mem_append_right _ hmem
  · exact Nat.lt_succ_of_lt ((h.loaded g hg).2 b hb)
  · rcases Nat.lt_succ_iff_lt_or_eq.mp hb with hb | rfl
    · have hnil := h.ahead g hg b hb hlt
      rw [flight, ← hfresh b hb] at hnil
      exact hnil
    · exact hempty g.1
  -- the backings pruned hold nothing, and the new one is empty
  have hpruned : flights shape w.ring.backing
      (w.ring.prune (w.ring.state :: w.guards.map Prod.snd)) p =
      flights shape w.ring.backing w.ring.state.stale p := by
    refine flatMap_filter_of_nil fun b hb hdrop => ?_
    have hdrained : (w.ring.backing b).isEmpty = true := by
      by_contra hne
      simp [hne] at hdrop
    exact (h.fit b (h.made (mem_append_left _ hb))).flight_nil_of_isEmpty hdrained p
  have hwalked : ∀ b ∈ w.ring.prune (w.ring.state :: w.guards.map Prod.snd) ++
      [w.ring.state.active], b < w.ring.made := fun b hb =>
    h.made ((hsub.append_right _).mem hb)
  have hlast : flights shape w.ring.backing (w.ring.prune (w.ring.state :: w.guards.map Prod.snd) ++
      [w.ring.state.active]) p = flights shape w.ring.backing w.ring.state.backings p := by
    simp only [CapacityRing.flights_backings]
    rw [← hpruned, flights, flatMap_append, flatMap_singleton]
    rfl
  rw [h.kept, ← hlast, ← CapacityRing.flights_congr (fun b hb => hfresh b (hwalked b hb)) p]
  simp only [CapacityRing.install, CapacityRing.flights_backings, hempty, append_nil]
  rfl

theorem Ordered.morph (canBuild canGrow : Bool) (newCapacity : Nat) : Ordered shape ps cs { w with
      ring := (w.ring.morphCapacityTo canBuild canGrow (w.guards.map Prod.snd) newCapacity).1 } := by
  obtain ⟨settled, hsettle⟩ := h.settle_state canGrow
  have hsame : Ordered shape ps cs { w with ring := { w.ring with settled := settled } } :=
    { h with }
  have hold := h.fit _ (h.made (active_mem w))
  unfold CapacityRing.morphCapacityTo CapacityRing.morphToConfig
  rw [hsettle]
  dsimp only [getD_some, getD_none]
  split
  · exact hsame
  split
  · rw [if_pos rfl]
    exact hsame
  split
  · exact hsame
  split
  · exact hsame
  rename_i new hsucc
  have hnew := CapacityRing.successor_spec hsucc h.unstamped
  rw [hold.shape_eq] at hnew
  exact h.install hnew settled newCapacity

theorem Ordered.step (hc : c ∈ cs) (hstep : w.step c e = some w') :
    Ordered shape ps cs w' := by
  cases e with
  | load p =>
    obtain ⟨hfree, heq⟩ := ite_none_left_eq_some.mp hstep
    cases heq
    exact h.load hfree
  | push canGrow p len x =>
    obtain ⟨g, hfind, heq⟩ := map_eq_some_iff.mp hstep
    cases heq
    have hp := find?_some hfind
    exact h.push (mem_of_find?_eq_some hfind) (beq_iff_eq.mp hp)
  | morph canBuild canGrow newCapacity =>
    cases hstep
    exact h.morph canBuild canGrow newCapacity
  | recv canGrow outLen fuel =>
    obtain ⟨out, hrecv, heq⟩ := map_eq_some_iff.mp hstep
    cases heq
    exact h.recv hc hrecv

end

theorem ordered_first (hun : m.stamped = false) (hactive : m.state.active = 0)
    (hstale : m.state.stale = []) (hmade : m.made = 1) (hsound : (m.backing 0).Sound) (hsteady : (m.backing 0).Steady)
    (hitems : (m.backing 0).held.items = []) :
    Ordered (m.backing 0).shape (m.backing 0).directory.claimedProducerSlots
      (m.backing 0).directory.claimedConsumerSlots ⟨m, [], [], []⟩ := by
  have hbackings : m.state.backings = [0] := by rw [RingState.backings, hstale, hactive]; rfl
  refine ⟨hun, fun b hb => ?_, by rw [hactive, hmade], ?_, (by simp), .nil,
    (by simp), fun p => ?_⟩
  · obtain rfl : b = 0 := by
      dsimp only at hb
      omega
    exact ⟨hsound, hsteady, rfl, rfl, rfl, homed_of_items_nil hitems _⟩
  · rw [hbackings]
    exact pairwise_singleton ..
  · rw [hbackings, flights, flatMap_singleton, flight, inFlight_eq_nil (queues_eq_nil hitems _)]
    rfl

theorem shaped (hsettled : m.settled m.state.seq = true)
    (hvalid : isPowerOfTwo m.state.capacity ∧ 2 ≤ m.state.capacity) (shape : Option RingShape) :
    ∃ r seq published settled, (r = m.backing m.state.active ∨
        ∃ s res, (m.backing m.state.active).morphTo s = (r, res)) ∧
      (m.morphToConfig true true [] ⟨shape, none⟩).1 = { m with
        backing := update m.backing m.state.active r
        state := { m.state with seq := seq }
        published := published
        settled := settled } := by
  unfold CapacityRing.morphToConfig CapacityRing.settle
  rw [if_pos hsettled]
  dsimp only [getD_none]
  rw [if_neg (not_not_intro hvalid), if_pos rfl]
  split
  · refine ⟨_, m.state.seq, m.published, m.settled, .inl rfl, ?_⟩
    rw [update_eq_self]
  split
  · rename_i hmorph
    exact ⟨_, m.state.seq, m.published, m.settled, .inr ⟨_, _, hmorph⟩, rfl⟩
  · rename_i hmorph
    exact ⟨_, _, _, _, .inr ⟨_, _, hmorph⟩, rfl⟩

theorem start_ordered {ring : CapacityRing (Nat × α)}
    (hcreate : CapacityRing.create maxProducers capacity false = .ok ring) (peers : List PeerCall)
    (shape : Option RingShape) : ∃ shape' ps, Ordered shape' ps
      ((start ring peers shape).ring.backing 0).directory.claimedConsumerSlots
      (start ring peers shape) := by
  unfold CapacityRing.create at hcreate
  split at hcreate <;> cases hcreate
  rename_i hvalid
  have hnew := AdaptiveRing.Sound.create (α := Nat × α) maxProducers capacity none false
  have hquiet := (AdaptiveRing.create (α := Nat × α) maxProducers capacity none
    false).quiet_peerCalls peers
  have hsteady := (AdaptiveRing.create_steady (α := Nat × α) maxProducers capacity none
    false).peerCalls rfl peers
  have hsound := hquiet.sound hnew
  have hitems := hquiet.items_eq.trans (AdaptiveRing.create_items ..)
  unfold start
  dsimp only
  generalize peers.foldl AdaptiveRing.peerCall (AdaptiveRing.create maxProducers capacity none
    false) = first at hsound hsteady hitems ⊢
  generalize hm : (⟨update _ 0 first, 1, ⟨0, 0, [], capacity⟩, 1, fun _ => true, maxProducers,
    false⟩ : CapacityRing (Nat × α)) = m
  have hfirst : m.backing m.state.active = first := by
    rw [← hm]
    dsimp only
    simp
  obtain ⟨r, seq, published, settled, hr, hstart⟩ :=
    shaped (m := m) (by rw [← hm]) (by rw [← hm]; exact hvalid) shape
  rw [hfirst] at hr
  have hactive : m.state.active = 0 := by rw [← hm]
  have hat : update m.backing m.state.active r 0 = r := by
    rw [hactive]
    exact update_self ..
  rw [hstart]
  refine ⟨_, _, ordered_first (by rw [← hm]) hactive (by rw [← hm]) (by rw [← hm]) ?_ ?_ ?_⟩
  all_goals dsimp only; rw [hat]
  · rcases hr with rfl | ⟨s, res, hmorph⟩
    · exact hsound
    · exact hsound.morphTo hmorph
  · rcases hr with rfl | ⟨s, res, hmorph⟩
    · exact hsteady
    · exact .morphTo hmorph
  · rcases hr with rfl | ⟨s, res, hmorph⟩
    · exact hitems
    · rw [(AdaptiveRing.morphTo_reshaped hmorph).1.held_eq]
      exact hitems

/-- The sole consumer's read always returns, and once two in a row have found nothing,
all that was accepted has been received. -/
theorem Ordered.drained (h : Ordered shape ps [c] w)
    (hfirst : w.ring.tryRecv canGrow c outLen fuel = some (m, .error .empty))
    (hsecond : m.tryRecv canGrow' c outLen' fuel' = some (m', .error .empty)) (p : Nat) :
    sentBy p w.accepted = sentBy p w.received := by
  have hc := mem_singleton_self c
  have hafter : Ordered shape ps [c] { w with ring := m } := h.recv hc hfirst
  obtain ⟨rings, settled, rfl, -, -, -, hempty⟩ := CapacityRing.tryRecv_spec hc
    (fun b hb => h.fit b (h.made hb)) h.nodup hfirst
  obtain ⟨_, _, _, _, _, _, hempty'⟩ := CapacityRing.tryRecv_spec hc
    (fun b hb => hafter.fit b (hafter.made hb)) hafter.nodup hsecond
  obtain ⟨hstale, hactive⟩ := hempty rfl
  have hitems := (h.fit _ (h.made (active_mem w))).drained hactive (hempty' rfl).2
  have hflight : flight shape w.ring.backing w.ring.state.active p = [] :=
    inFlight_eq_nil (queues_eq_nil hitems shape) p
  simp [h.kept, CapacityRing.flights_backings, hstale, hflight]

theorem Ordered.returns (h : Ordered shape ps [c] w) (hfuel : 2 ≤ fuel) :
    (w.ring.tryRecv canGrow c outLen fuel).isSome = true := by
  rw [CapacityRing.tryRecv, isSome_map]
  exact CapacityRing.walkStale_returns (fun b hb => h.fit b (h.made (mem_append_left _ hb)))
    (nodup_append'.mp h.nodup).1 hfuel

/-- However sends, morphs and reads interleave, each producer's accepted items are those
received from it, in the order it sent them, followed by those still in the backings a read
walks; a read returns after at most two tries of a stale backing, and once two reads in a
row have found nothing, everything accepted has been received. -/
theorem morphs_keep_producer_order {maxProducers capacity c : Nat}
    {ring : CapacityRing (Nat × α)} {peers : List PeerCall} {shape : Option RingShape}
    {events : List (ResizeEvent α)} {w : Resizing α}
    (hcreate : CapacityRing.create maxProducers capacity false = .ok ring)
    (hone : ((start ring peers shape).ring.backing 0).directory.claimedConsumerSlots = [c])
    (hrun : run (step c) (start ring peers shape) events = some w) :
    (∀ p, sentBy p w.accepted = sentBy p w.received ++
      flights (w.ring.backing w.ring.state.active).shape w.ring.backing w.ring.state.backings p) ∧
    (∀ canGrow outLen fuel, 2 ≤ fuel → (w.ring.tryRecv canGrow c outLen fuel).isSome = true) ∧
    ∀ canGrow canGrow' outLen outLen' fuel fuel' m m',
      w.ring.tryRecv canGrow c outLen fuel = some (m, .error .empty) →
      m.tryRecv canGrow' c outLen' fuel' = some (m', .error .empty) →
      ∀ p, sentBy p w.accepted = sentBy p w.received := by
  obtain ⟨held, ps, hstart⟩ := start_ordered hcreate peers shape
  rw [hone] at hstart
  have h : Ordered held ps [c] w := run_preserves
    (fun _ _ _ h hstep => h.step (mem_singleton_self c) hstep) hstart hrun
  rw [(h.fit _ (h.made (active_mem w))).shape_eq]
  exact ⟨h.kept, fun _ _ _ hfuel => h.returns hfuel,
    fun _ _ _ _ _ _ _ _ hfirst hsecond => h.drained hfirst hsecond⟩

/-- Producer 0 loads the first state, sleeps through two morphs and pushes into a backing
two morphs old; producer 1 and the consumer carry on meanwhile. -/
def sleeper : List (ResizeEvent Nat) :=
  [.load 1, .push true 1 8 20, .load 0, .morph true true 8, .recv true 64 2, .load 1,
    .push true 1 8 21, .morph true true 2, .push true 0 8 10, .load 0, .push true 0 8 11,
    .recv true 64 2, .recv true 64 2, .morph true true 4, .recv true 64 2]

def sleeperPeers : List PeerCall :=
  [.registerProducer true, .registerProducer true, .registerConsumer]

def sleeperRing : CapacityRing (Nat × Nat) where
  backing := fun _ => .create 2 4 none false
  made := 1
  state := ⟨0, 0, [], 4⟩
  published := 1
  settled := fun _ => true
  maxProducers := 2
  stamped := false

theorem sleeper_runs : (run (step 0) (start sleeperRing sleeperPeers none) sleeper).isSome = true := by
  decide +kernel

theorem morphs_keep_producer_order_sleeper :
    ∃ w, run (step 0) (start sleeperRing sleeperPeers none) sleeper = some w ∧
      w.received = [(1, 20), (0, 10), (1, 21), (0, 11)] ∧
      ∀ p, sentBy p w.accepted = sentBy p w.received ++ flights (w.ring.backing
        w.ring.state.active).shape w.ring.backing w.ring.state.backings p := by
  have hcreate : CapacityRing.create 2 4 false = .ok sleeperRing := rfl
  have hrun := (some_get sleeper_runs).symm
  exact ⟨_, hrun, by decide +kernel,
    (morphs_keep_producer_order hcreate (by decide +kernel) hrun).1⟩

end Resizing
end SubEtha.Ring
