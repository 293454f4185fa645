import SubEtha.Ring.Peers

namespace SubEtha.Ring
open Option List AdaptiveRing
open Lib (EveryStep run run_invariant)

variable {α : Type}

namespace AdaptiveRing

def recvAll (r : AdaptiveRing α) : List (Nat × Nat) → AdaptiveRing α × List (Except RingError α)
  | [] => (r, [])
  | (c, outLen) :: calls =>
    let out := r.tryRecv c outLen
    let rest := out.1.recvAll calls
    (rest.1, out.2 :: rest.2)

theorem recvAll_append (r : AdaptiveRing α) (calls calls' : List (Nat × Nat)) :
    r.recvAll (calls ++ calls') = (((r.recvAll calls).1.recvAll calls').1,
        (r.recvAll calls).2 ++ ((r.recvAll calls).1.recvAll calls').2) := by
  induction calls generalizing r with
  | nil => rfl
  | cons call calls ih => simp [recvAll, ih]

/-- What a receive that returned `Empty` saw, and all that it moved. -/
structure Idle (c : Nat) (r r' : AdaptiveRing α) : Prop where
  sound : Sound r'
  held_eq : r'.held = r.held
  consumers_eq : r'.directory.consumers = r.directory.consumers
  reader_eq : r'.singleReader = r.singleReader
  single : r.singleReader = c → r.held.spsc = [] ∧ ∀ q ∈ r.held.mpsc, q = []
  passed : ∀ idx, r.held.mpmc.getD idx [] ≠ [] → Passed c idx r.directory r'.directory
  vyukov : r.held.vyukov = []

theorem idle_of_found (h : Sound r) (hc : r.directory.consumers c = true)
    (hpops : PopsAs c r (.error .empty) r')
    (hfound : ∀ s, r.used s = true → FoundEmpty c outLen r r' s) : Idle c r r' where
  sound := h.pops hc hpops
  held_eq := hpops.held
  consumers_eq := hpops.consumers_eq
  reader_eq := congrArg (fun f => f.1.2.2) hpops.frame_eq
  single := by
    intro hreader
    -- the buffer is long enough for a slot, or the SPSC pop had said so
    obtain ⟨hlen, hspsc⟩ := hfound .spsc h.stocked.start hreader
    refine ⟨hspsc, fun q hq => ?_⟩
    by_contra hne
    exact hne (hfound .mpsc (h.stocked.stored .mpsc q hq hne) hreader hlen q hq)
  passed := by
    intro idx hne
    have hlt : idx < r.mpmc.length := by
      by_contra hge
      exact hne (getD_eq_default _ _ (not_lt.mp hge))
    have hmem : r.mpmc.getD idx [] ∈ r.mpmc := by
      rw [getD_eq_getElem _ _ hlt]
      exact getElem_mem hlt
    exact hfound .mpmc (h.stocked.stored .mpmc _ hmem hne) idx hne
  vyukov := by
    by_contra hne
    exact hne (hfound .vyukov (h.stocked.stored .vyukov _ (mem_singleton_self _) hne))

theorem idle_of_empty (h : Sound r) (hc : r.directory.consumers c = true)
    (hrecv : r.tryRecv c outLen = (r', .error .empty)) : Idle c r r' := by
  obtain ⟨hsync, hreader⟩ := r.ensureSynced_reshaped
  have hreader := hreader (mem_claimed h.governed (h.led c hc))
  obtain ⟨hpops, hempty, -⟩ := tryRecv_spec h.governed hc hrecv
  have hsound := h.ensureSynced
  have hidle := idle_of_found hsound (by rwa [hsync.directory_eq]) hpops
    (hempty rfl hsound.stocked.marked)
  refine ⟨hidle.sound, hidle.held_eq.trans hsync.held_eq, ?_, hidle.reader_eq.trans hreader, ?_, ?_,
    ?_⟩
  · rw [hidle.consumers_eq, hsync.directory_eq]
  · rw [← hsync.held_eq, ← hreader]
    exact hidle.single
  · rw [← hsync.held_eq, ← hsync.directory_eq]
    exact hidle.passed
  · rw [← hsync.held_eq]
    exact hidle.vyukov

/-- Receives by the consumers `cs` in turn, all of which returned `Empty`. -/
structure IdleRound (cs : List Nat) (r r' : AdaptiveRing α) : Prop where
  sound : Sound r'
  held_eq : r'.held = r.held
  consumers_eq : r'.directory.consumers = r.directory.consumers
  single : r.singleReader ∈ cs → r.held.spsc = [] ∧ ∀ q ∈ r.held.mpsc, q = []
  vyukov : cs ≠ [] → r.held.vyukov = []
  owned : cs ≠ [] → ∀ idx, r.held.mpmc.getD idx [] ≠ [] →
    ∃ o, r.directory.owner idx = some o ∧ r.directory.consumers o = true
  /-- A ring with items either was not met by its owner, or had its handoff applied. -/
  settled : ∀ idx, r.held.mpmc.getD idx [] ≠ [] →
    ((∀ o, r.directory.owner idx = some o → o ∉ cs) ∧
      r'.directory.pending idx = r.directory.pending idx) ∨
    (r.directory.pending idx ≠ none ∧ r'.directory.pending idx = none)

theorem IdleRound.nil (h : Sound r) : IdleRound [] r r where
  sound := h
  held_eq := rfl
  consumers_eq := rfl
  single := fun hmem => absurd hmem not_mem_nil
  vyukov := fun hne => absurd rfl hne
  owned := fun hne => absurd rfl hne
  settled := fun _ _ => .inl ⟨fun _ _ => not_mem_nil, rfl⟩

theorem IdleRound.cons (hcall : Idle c r r1) (h : IdleRound cs r1 r2) :
    IdleRound (c :: cs) r r2 where
  sound := h.sound
  held_eq := h.held_eq.trans hcall.held_eq
  consumers_eq := h.consumers_eq.trans hcall.consumers_eq
  single := by
    intro hmem
    rcases mem_cons.mp hmem with heq | hmem
    · exact hcall.single heq
    · rw [← hcall.held_eq]
      exact h.single (by rwa [hcall.reader_eq])
  vyukov := fun _ => hcall.vyukov
  owned := by
    intro _ idx hne
    obtain ⟨o, howner, hclaimed, -⟩ := hcall.passed idx hne
    exact ⟨o, howner, hclaimed⟩
  settled := by
    intro idx hne
    obtain ⟨o, howner, -, hentry⟩ := hcall.passed idx hne
    have hrest := h.settled idx (by rwa [hcall.held_eq])
    rcases hentry with ⟨hne, howner1, hpending1⟩ | ⟨rfl, hpending, hpending1⟩
    · rw [howner1, hpending1] at hrest
      rcases hrest with ⟨hnot, hsame⟩ | happlied
      · refine .inl ⟨fun o' ho' => ?_, hsame⟩
        rw [howner] at ho'
        cases ho'
        exact fun hmem => (mem_cons.mp hmem).elim hne (hnot o rfl)
      · exact .inr happlied
    · rcases hrest with ⟨-, hsame⟩ | ⟨hpending1', -⟩
      · exact .inr ⟨hpending, hsame.trans hpending1⟩
      · exact absurd hpending1 hpending1'

theorem idleRound_of_empty (h : Sound r)
    (hcalls : ∀ call ∈ calls, r.directory.consumers call.1 = true)
    (hempty : ∀ res ∈ (r.recvAll calls).2, res = .error .empty) :
    IdleRound (calls.map Prod.fst) r (r.recvAll calls).1 := by
  induction calls generalizing r with
  | nil => exact .nil h
  | cons call calls ih =>
    have hfirst := hempty _ (mem_cons_self ..)
    have hcall := idle_of_empty h (hcalls call (mem_cons_self ..)) (Prod.ext rfl hfirst)
    refine .cons hcall (ih hcall.sound (fun call' hmem => ?_) (fun res hres => ?_))
    · rw [hcall.consumers_eq]
      exact hcalls call' (mem_cons_of_mem _ hmem)
    · exact hempty res (mem_cons_of_mem _ hres)

/-- After one idle round every handoff has been applied, and a second one then drains
what is left to an owner that is registered. -/
theorem drained_of_rounds (h : Sound r) (hround : IdleRound cs r r1) (hround' : IdleRound cs' r1 r2)
    (hc : r.directory.consumers c = true) (hcs : ∀ o, r.directory.consumers o = true → o ∈ cs)
    (hcs' : ∀ o, r.directory.consumers o = true → o ∈ cs') : r.held.items = [] := by
  obtain ⟨hspsc, hmpsc⟩ := hround.single (hcs _ (h.led c hc))
  have hmpmc : ∀ idx, r.held.mpmc.getD idx [] = [] := by
    intro idx
    by_contra hne
    have hne1 : r1.held.mpmc.getD idx [] ≠ [] := by rwa [hround.held_eq]
    obtain ⟨o, howner, hclaimed⟩ := hround.owned (ne_nil_of_mem (hcs c hc)) idx hne
    obtain ⟨o1, howner1, hclaimed1⟩ := hround'.owned (ne_nil_of_mem (hcs' c hc)) idx hne1
    rw [hround.consumers_eq] at hclaimed1
    have hpending1 : r1.directory.pending idx = none := by
      rcases hround.settled idx hne with ⟨hnot, -⟩ | ⟨-, hnone⟩
      · exact absurd (hcs o hclaimed) (hnot o howner)
      · exact hnone
    rcases hround'.settled idx hne1 with ⟨hnot, -⟩ | ⟨hpending, -⟩
    · exact hnot o1 howner1 (hcs' o1 hclaimed1)
    · exact hpending hpending1
  refine Backings.items_eq_nil (fun s q hq => ?_)
  cases s with
  | spsc => exact (mem_singleton.mp hq).trans hspsc
  | mpsc => exact hmpsc q hq
  | mpmc =>
    obtain ⟨idx, hlt, rfl⟩ := getElem_of_mem hq
    rw [← getD_eq_getElem _ [] hlt]
    exact hmpmc idx
  | vyukov => exact (mem_singleton.mp hq).trans (hround.vyukov (ne_nil_of_mem (hcs c hc)))

end AdaptiveRing

inductive PeerEvent (α : Type)
  | registerProducer (canGrow : Bool)
  | unregisterProducer (producerId : Nat)
  | registerConsumer
  | unregisterConsumer (consumerId : Nat)
  | send (producerId len : Nat) (x : α)
  | recv (consumerId outLen : Nat)

/-- A ring, what its sends have accepted and what its receives have returned. -/
structure Exchange (α : Type) where
  ring : AdaptiveRing α
  accepted : List α
  received : List α

namespace Exchange

def start (maxProducers capacity : Nat) (contract : Option RingContract) : Exchange α :=
  ⟨AdaptiveRing.create maxProducers capacity contract false, [], []⟩

def sent (w : Exchange α) (x : α) : AdaptiveRing α × Except RingError Unit → Exchange α
  | (ring, .ok _) => { w with ring := ring, accepted := w.accepted ++ [x] }
  | (ring, .error _) => { w with ring := ring }

def taken (w : Exchange α) : AdaptiveRing α × Except RingError α → Exchange α
  | (ring, .ok x) => { w with ring := ring, received := w.received ++ [x] }
  | (ring, .error _) => { w with ring := ring }

/-- Only registered producers send and only registered consumers receive. -/
def step (w : Exchange α) : PeerEvent α → Option (Exchange α)
  | .registerProducer canGrow => some { w with ring := (w.ring.registerProducer canGrow).1 }
  | .unregisterProducer p => some { w with ring := w.ring.unregisterProducer p }
  | .registerConsumer => some { w with ring := w.ring.registerConsumer.1 }
  | .unregisterConsumer c => some { w with ring := w.ring.unregisterConsumer c }
  | .send p len x =>
    if w.ring.directory.producers p then some (w.sent x (w.ring.trySend p len x)) else none
  | .recv c outLen =>
    if w.ring.directory.consumers c then some (w.taken (w.ring.tryRecv c outLen)) else none

/-- Every accepted item is either received or in a backing, once. -/
structure Accounted (w : Exchange α) : Prop where
  sound : w.ring.Sound
  items : (w.received ++ w.ring.held.items).Perm w.accepted

theorem Accounted.start (maxProducers capacity : Nat) (contract : Option RingContract) :
    Accounted (Exchange.start (α := α) maxProducers capacity contract) where
  sound := .create maxProducers capacity contract false
  items := by
    rw [Exchange.start, create_items]
    exact .refl _

theorem Accounted.quiet {w : Exchange α} (h : Accounted w) {ring : AdaptiveRing α}
    (hring : AdaptiveRing.Quiet w.ring ring) : Accounted { w with ring := ring } :=
  ⟨hring.sound h.sound, hring.items_eq ▸ h.items⟩

theorem Accounted.sent (h : Accounted w) (p len : Nat) (x : α) :
    Accounted (w.sent x (w.ring.trySend p len x)) := by
  cases hout : w.ring.trySend p len x with
  | mk ring res =>
    obtain ⟨hsound, hitems⟩ := trySend_spec hout
    cases res with
    | error e => exact ⟨hsound h.sound, hitems ▸ h.items⟩
    | ok u =>
      refine ⟨hsound h.sound, (hitems.append_left w.received).trans ?_⟩
      exact perm_middle.trans ((h.items.cons x).trans (perm_append_singleton x _).symm)

theorem Accounted.taken (h : Accounted w) (hc : w.ring.directory.consumers c = true)
    (outLen : Nat) : Accounted (w.taken (w.ring.tryRecv c outLen)) := by
  cases hout : w.ring.tryRecv c outLen with
  | mk ring res =>
    obtain ⟨hsound, hitems⟩ := tryRecv_items h.sound hc hout
    cases res with
    | error e => exact ⟨hsound, hitems ▸ h.items⟩
    | ok x =>
      refine ⟨hsound, ?_⟩
      have hperm := (hitems.append_left w.received).symm.trans h.items
      rwa [← singleton_append, ← append_assoc] at hperm

theorem Accounted.step (h : Accounted w) (hstep : w.step e = some w') : Accounted w' := by
  cases e with
  | registerProducer canGrow =>
    cases hstep
    exact h.quiet (w.ring.quiet_registerProducer canGrow)
  | unregisterProducer p =>
    cases hstep
    exact h.quiet (w.ring.quiet_unregisterProducer p)
  | registerConsumer =>
    cases hstep
    exact h.quiet w.ring.quiet_registerConsumer
  | unregisterConsumer c =>
    cases hstep
    exact h.quiet (w.ring.quiet_unregisterConsumer c)
  | send p len x =>
    obtain ⟨-, hsent⟩ := ite_none_right_eq_some.mp hstep
    cases hsent
    exact h.sent p len x
  | recv c outLen =>
    obtain ⟨hc, htaken⟩ := ite_none_right_eq_some.mp hstep
    cases htaken
    exact h.taken hc outLen

/-- Once every registered consumer has twice in turn found nothing, everything accepted has
been received. -/
theorem Accounted.drained (hacc : Accounted w) {round round' : List (Nat × Nat)}
    (hsome : w.ring.directory.claimedConsumerSlots ≠ [])
    (hround : (round.map Prod.fst).Perm w.ring.directory.claimedConsumerSlots)
    (hround' : (round'.map Prod.fst).Perm w.ring.directory.claimedConsumerSlots)
    (hempty : ∀ res ∈ (w.ring.recvAll (round ++ round')).2, res = .error .empty) :
    w.received.Perm w.accepted := by
  have hsound := hacc.sound
  obtain ⟨c, hc⟩ := exists_mem_of_ne_nil _ hsome
  rw [recvAll_append] at hempty
  have hcall : ∀ calls : List (Nat × Nat),
      (calls.map Prod.fst).Perm w.ring.directory.claimedConsumerSlots →
      ∀ call ∈ calls, w.ring.directory.consumers call.1 = true := by
    intro calls hperm call hmem
    exact (mem_claimedConsumerSlots.mp (hperm.mem_iff.mp (mem_map_of_mem hmem))).2
  have hfirst := idleRound_of_empty hsound (hcall round hround)
    (fun res hres => hempty res (mem_append_left _ hres))
  have hsecond := idleRound_of_empty hfirst.sound
    (by rw [hfirst.consumers_eq]; exact hcall round' hround')
    (fun res hres => hempty res (mem_append_right _ hres))
  have hdrained := drained_of_rounds hsound hfirst hsecond (mem_claimedConsumerSlots.mp hc).2
    (fun o ho => hround.mem_iff.mpr (mem_claimed hsound.governed ho))
    (fun o ho => hround'.mem_iff.mpr (mem_claimed hsound.governed ho))
  have hitems := hacc.items
  rwa [hdrained, append_nil] at hitems

/-- Two consumers share a grid of two rings; one of them leaves while its ring holds
an item and a newcomer takes its slot. -/
def churn : List (PeerEvent Nat) :=
  [.registerProducer true, .registerConsumer, .send 0 8 10, .registerProducer true,
    .registerConsumer, .send 0 64 11, .send 1 64 12, .recv 0 64, .unregisterConsumer 1,
    .unregisterProducer 0, .registerConsumer, .recv 0 64, .recv 1 64, .recv 0 64, .recv 1 64]

end Exchange

/-- Handles on one ring: each has its own shape, used shapes, reader, cursors and synced epoch, and
all of them the backings and the directory. -/
structure Handles (α : Type) where
  rings : List (AdaptiveRing α)
  accepted : List α
  received : List α

namespace Handles

def start (handles maxProducers capacity : Nat) (contract : Option RingContract) : Handles α :=
  ⟨replicate handles (AdaptiveRing.create maxProducers capacity contract false), [], []⟩

/-- A handle after another has left the shared memory as `r` sees it. -/
def reread (own r : AdaptiveRing α) : AdaptiveRing α :=
  { own with
    spsc := r.spsc, mpsc := r.mpsc, mpmc := r.mpmc, vyukov := r.vyukov, directory := r.directory }

def step (w : Handles α) (e : Nat × PeerEvent α) : Option (Handles α) :=
  w.rings[e.1]?.bind fun own =>
    (Exchange.step ⟨own, w.accepted, w.received⟩ e.2).map fun x =>
      ⟨(w.rings.map fun r => reread r x.ring).set e.1 x.ring, x.accepted, x.received⟩

def Counts (i : Nat) (w : Handles α) : Prop :=
  ∀ ring, w.rings[i]? = some ring → Exchange.Accounted ⟨ring, w.accepted, w.received⟩

theorem Counts.step {w w' : Handles α} (h : Counts i w) (hi : e.1 = i) (hstep : w.step e = some w') :
    Counts i w' := by
  intro ring hring
  obtain ⟨own, hown, hstep⟩ := bind_eq_some_iff.mp hstep
  obtain ⟨x, hx, rfl⟩ := map_eq_some_iff.mp hstep
  subst hi
  have hlt := (List.getElem?_eq_some_iff.mp hown).1
  rw [getElem?_set_self (by simpa using hlt)] at hring
  cases hring
  exact (h own hown).step hx

/-- However peers come and go through one handle, an item is delivered at most once, and once
every registered consumer has twice in turn found nothing, all of them have been. -/
theorem peers_strand_nothing {handles maxProducers capacity : Nat} {contract : Option RingContract}
    {events : List (Nat × PeerEvent α)} {w : Handles α}
    (hone : EveryStep step (fun _ e => e.1 = i) (start handles maxProducers capacity contract) events)
    (hrun : run step (start handles maxProducers capacity contract) events = some w)
    {ring : AdaptiveRing α} (hring : w.rings[i]? = some ring) :
    (w.received ++ ring.held.items).Perm w.accepted ∧
    ∀ round round' : List (Nat × Nat), ring.directory.claimedConsumerSlots ≠ [] →
      (round.map Prod.fst).Perm ring.directory.claimedConsumerSlots →
      (round'.map Prod.fst).Perm ring.directory.claimedConsumerSlots →
      (∀ res ∈ (ring.recvAll (round ++ round')).2, res = .error .empty) →
      w.received.Perm w.accepted := by
  have hacc : Counts i w := by
    refine run_invariant (fun _ _ _ h hi hstep => h.step hi hstep) (fun ring hring => ?_) hone hrun
    rw [eq_of_mem_replicate (mem_of_getElem? hring)]
    exact .start maxProducers capacity contract
  exact ⟨(hacc ring hring).items, fun _ _ => (hacc ring hring).drained⟩

theorem churn_runs : (run step (start 2 1 4 none) (Exchange.churn.map (0, ·))).isSome := by
  decide +kernel

theorem churn_ring : (((run step _ _).get churn_runs).rings[0]?).isSome := by
  decide +kernel

theorem peers_strand_nothing_churn :
    ∃ w ring, run step (start 2 1 4 none) (Exchange.churn.map (0, ·)) = some w ∧
      w.rings[0]? = some ring ∧ w.received.Perm w.accepted ∧ w.accepted = [10, 11, 12] := by
  have hrun := (some_get churn_runs).symm
  have hring := (some_get churn_ring).symm
  refine ⟨_, _, hrun, hring, ?_, by decide +kernel⟩
  exact (peers_strand_nothing (i := 0) (by decide +kernel) hrun hring).2 [(0, 64), (1, 64)]
    [(1, 64), (0, 64)] (by decide +kernel) (by decide +kernel) (by decide +kernel) (by decide +kernel)

/-- Two producers come and one goes through the first handle, with an item sent in between. The
second handle never was in that shape, and reads empty for ever. -/
def unseen : List (Nat × PeerEvent Nat) :=
  [(1, .registerConsumer), (0, .registerProducer true), (0, .registerProducer true),
    (0, .send 1 8 77), (0, .unregisterProducer 1)]

theorem unseen_runs : (run step (start 2 2 4 none) unseen).isSome := by
  decide +kernel

theorem unseen_ring : (((run step _ _).get unseen_runs).rings[1]?).isSome := by
  decide +kernel

theorem unseen_shape_strands : ∃ w ring, run step (start 2 2 4 none) unseen = some w ∧
    w.rings[1]? = some ring ∧ ring.directory.claimedConsumerSlots = [0] ∧
    (∀ res ∈ (ring.recvAll ([(0, 64)] ++ [(0, 64)])).2, res = .error .empty) ∧
    w.accepted = [77] ∧ w.received = [] := by
  exact ⟨_, _, (some_get unseen_runs).symm, (some_get unseen_ring).symm, by decide +kernel,
    by decide +kernel, by decide +kernel, by decide +kernel⟩

end Handles
end SubEtha.Ring
