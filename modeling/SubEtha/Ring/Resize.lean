import SubEtha.Ring.Steady
import SubEtha.Ring.Rounds
import SubEtha.Ring.Solo

namespace SubEtha.Ring
open Option List
open Function (update)

variable {α : Type}

def sentBy (p : Nat) (l : List (Nat × α)) : List (Nat × α) := l.filter fun y => y.1 == p

theorem sentBy_append (p : Nat) (l l' : List (Nat × α)) :
    sentBy p (l ++ l') = sentBy p l ++ sentBy p l' := filter_append ..

theorem sentBy_cons (p : Nat) (y : Nat × α) (l : List (Nat × α)) :
    sentBy p (y :: l) = sentBy p [y] ++ sentBy p l := sentBy_append p [y] l

variable {p c : Nat} {y : Nat × α} {qs : List (List (Nat × α))} {q : List (Nat × α)}
  {b : Backings (Nat × α)} {shape : RingShape}

theorem sentBy_other (h : y.1 ≠ p) : sentBy p [y] = [] :=
  filter_eq_nil_iff.mpr fun z hz => by simp_all

/-- A grid that keeps each producer's items in its own ring. -/
def Tagged (qs : List (List (Nat × α))) : Prop := ∀ i, ∀ y ∈ qs.getD i [], y.1 = i

theorem Tagged.take (h : Tagged qs) (head : qs[idx]? = some (y :: q)) : Tagged (qs.set idx q) ∧
      ∀ p, sentBy p (qs.getD p []) = sentBy p [y] ++ sentBy p ((qs.set idx q).getD p []) := by
  have hlt := lt_of_some head
  have hidx : qs.getD idx [] = y :: q := by rw [getD_eq_getElem?_getD, head, getD_some]
  have htag : ∀ z ∈ y :: q, z.1 = idx := by
    rw [← hidx]
    exact h idx
  refine ⟨fun i z hz => ?_, fun p => ?_⟩
  · by_cases hi : i = idx
    · subst hi
      rw [getD_set_self hlt] at hz
      exact htag z (mem_cons_of_mem _ hz)
    · rw [getD_set_of_ne hi] at hz
      exact h i z hz
  · by_cases hp : p = idx
    · subst hp
      rw [hidx, getD_set_self hlt, sentBy_cons]
    · have hne : y.1 ≠ p := fun heq => hp (heq.symm.trans (htag y (mem_cons_self ..)))
      rw [getD_set_of_ne hp, sentBy_other hne, nil_append]

theorem Tagged.push (h : Tagged qs) (hq : qs[p]? = some q) (x : α) :
    Tagged (qs.set p (q ++ [(p, x)])) ∧ ∀ o, sentBy o ((qs.set p (q ++ [(p, x)])).getD o []) =
        sentBy o (qs.getD o []) ++ sentBy o [(p, x)] := by
  have hlt := lt_of_some hq
  have hp : qs.getD p [] = q := by rw [getD_eq_getElem?_getD, hq, getD_some]
  refine ⟨fun i z hz => ?_, fun o => ?_⟩
  · by_cases hi : i = p
    · subst hi
      rw [getD_set_self hlt] at hz
      rcases mem_append.mp hz with hz | hz
      · exact h i z (hp ▸ hz)
      · rw [mem_singleton.mp hz]
    · rw [getD_set_of_ne hi] at hz
      exact h i z hz
  · by_cases ho : o = p
    · subst ho
      rw [getD_set_self hlt, sentBy_append, hp]
    · rw [getD_set_of_ne ho, sentBy_other (Ne.symm ho), append_nil]

theorem tagged_of_nil (h : ∀ q ∈ qs, q = []) : Tagged qs := by
  intro i y hy
  by_cases hi : i < qs.length
  · rw [getD_eq_getElem _ _ hi, h _ (getElem_mem hi)] at hy
    cases hy
  · rw [getD_eq_default _ _ (not_lt.mp hi)] at hy
    cases hy

namespace Backings

/-- Only the queues of `shape` are in use, and the composed shapes are tagged. -/
structure Homed (shape : RingShape) (b : Backings (Nat × α)) : Prop where
  only : ∀ s, s ≠ shape → ∀ q ∈ b.queues s, q = []
  mpsc : Tagged b.mpsc
  mpmc : Tagged b.mpmc

def inFlight (shape : RingShape) (b : Backings (Nat × α)) (p : Nat) : List (Nat × α) :=
  sentBy p (b.lane p shape)

theorem homed_of_items_nil (h : b.items = []) (shape : RingShape) : b.Homed shape :=
  ⟨fun s _ => queues_eq_nil h s, tagged_of_nil (queues_eq_nil h .mpsc),
    tagged_of_nil (queues_eq_nil h .mpmc)⟩

theorem inFlight_eq_nil (h : ∀ q ∈ b.queues shape, q = []) (p : Nat) : b.inFlight shape p = [] := by
  rw [inFlight, lane_eq_nil h]
  rfl

/-- A pop takes the first of what its producer has in flight. -/
theorem Homed.take (h : b.Homed shape) (htake : b.Takes y b') :
    b'.Homed shape ∧ ∀ p, b.inFlight shape p = sentBy p [y] ++ b'.inFlight shape p := by
  have hshape : ∀ s q, y :: q ∈ b.queues s → shape = s := by
    intro s q hq
    by_contra hne
    cases h.only s (Ne.symm hne) _ hq
  cases htake with
  | @spsc q head =>
    obtain rfl := hshape .spsc q (by rw [← head]; exact mem_singleton_self _)
    refine ⟨⟨fun s hs => ?_, h.mpsc, h.mpmc⟩, fun p => ?_⟩
    · cases s with
      | spsc => exact absurd rfl hs
      | _ => exact h.only _ hs
    · rw [inFlight, inFlight, lane, lane, head, sentBy_cons]
  | @mpsc idx q head =>
    obtain rfl := hshape .mpsc q (mem_of_getElem? head)
    obtain ⟨htagged, hflight⟩ := h.mpsc.take head
    refine ⟨⟨fun s hs => ?_, htagged, h.mpmc⟩, hflight⟩
    cases s with
    | mpsc => exact absurd rfl hs
    | _ => exact h.only _ hs
  | @mpmc idx q head =>
    obtain rfl := hshape .mpmc q (mem_of_getElem? head)
    obtain ⟨htagged, hflight⟩ := h.mpmc.take head
    refine ⟨⟨fun s hs => ?_, h.mpsc, htagged⟩, hflight⟩
    cases s with
    | mpmc => exact absurd rfl hs
    | _ => exact h.only _ hs
  | @vyukov q head =>
    obtain rfl := hshape .vyukov q (by rw [← head]; exact mem_singleton_self _)
    refine ⟨⟨fun s hs => ?_, h.mpsc, h.mpmc⟩, fun p => ?_⟩
    · cases s with
      | vyukov => exact absurd rfl hs
      | _ => exact h.only _ hs
    · rw [inFlight, inFlight, lane, lane, head, sentBy_cons]

end Backings

theorem homed_setBacking {r : AdaptiveRing (Nat × α)} (h : r.held.Homed shape)
    (hq : r.backing shape p = some q) (x : α) :
    (r.setBacking shape p (q ++ [(p, x)])).held.Homed shape ∧
      ∀ o, (r.setBacking shape p (q ++ [(p, x)])).held.inFlight shape o =
        r.held.inFlight shape o ++ sentBy o [(p, x)] := by
  have honly : ∀ s, s ≠ shape → ∀ q' ∈ (r.setBacking shape p (q ++ [(p, x)])).held.queues s,
      q' = [] := by
    intro s hs q' hq'
    rcases AdaptiveRing.setBacking_queues hq' with rfl | hq'
    · exact absurd rfl hs
    · exact h.only s hs q' hq'
  cases shape with
  | spsc | vyukov =>
    cases hq
    exact ⟨⟨honly, h.mpsc, h.mpmc⟩, fun o => sentBy_append ..⟩
  | mpsc =>
    obtain ⟨htagged, hflight⟩ := h.mpsc.push hq x
    exact ⟨⟨honly, htagged, h.mpmc⟩, hflight⟩
  | mpmc =>
    obtain ⟨htagged, hflight⟩ := h.mpmc.push hq x
    exact ⟨⟨honly, h.mpsc, htagged⟩, hflight⟩

namespace AdaptiveRing

/-- A backing held at `shape`, with the peers `ps` and `cs`. -/
structure Fit (shape : RingShape) (ps cs : List Nat) (r : AdaptiveRing (Nat × α)) : Prop where
  sound : Sound r
  steady : Steady r
  shape_eq : r.shape = shape
  producers : r.directory.claimedProducerSlots = ps
  consumers : r.directory.claimedConsumerSlots = cs
  homed : r.held.Homed shape

variable {r r' : AdaptiveRing (Nat × α)}

theorem Fit.ensureSynced (h : Fit shape ps cs r) : Fit shape ps cs r.ensureSynced := by
  have hr := r.ensureSynced_reshaped.1
  obtain ⟨hsteady, hshape⟩ := h.steady.ensureSynced
  refine ⟨h.sound.ensureSynced, hsteady, hshape.trans h.shape_eq, ?_, ?_, ?_⟩
  · rw [hr.directory_eq]
    exact h.producers
  · rw [hr.directory_eq]
    exact h.consumers
  · rw [hr.held_eq]
    exact h.homed

theorem Fit.mem_consumers (h : Fit shape ps cs r) (hc : c ∈ cs) : r.directory.consumers c = true :=
  (mem_claimedConsumerSlots.mp (h.consumers ▸ hc)).2

theorem Fit.send (h : Fit shape ps cs r) (hsend : r.trySend p len (p, x) = (r', res)) :
    Fit shape ps cs r' ∧ match res with
      | .ok _ => ∀ o, r'.held.inFlight shape o = r.held.inFlight shape o ++ sentBy o [(p, x)]
      | .error _ => r'.held = r.held := by
  have hsync := h.ensureSynced
  have hheld := r.ensureSynced_reshaped.1.held_eq
  unfold trySend at hsend
  dsimp only at hsend
  rw [hsync.shape_eq] at hsend
  split at hsend
  · cases hsend
    exact ⟨hsync, hheld⟩
  rename_i q hq
  split at hsend
  · cases hsend
    exact ⟨hsync, hheld⟩
  rename_i q' hpush
  cases hsend
  obtain rfl := tryPush_ok hpush
  obtain ⟨hhomed, hflight⟩ := homed_setBacking hsync.homed hq x
  obtain ⟨hframe, hdirectory⟩ := r.ensureSynced.setBacking_frame shape p (q ++ [(p, x)])
  simp only [frame, Prod.mk.injEq] at hframe
  obtain ⟨⟨hshape, -⟩, -, hauto, -⟩ := hframe
  have hsound := hsync.sound.setBacking p (q ++ [(p, x)])
  rw [hsync.shape_eq] at hsound
  refine ⟨⟨hsound, hsync.steady.congr hshape hauto (by rw [hdirectory]) (by rw [hdirectory]),
    hshape.trans hsync.shape_eq, by rw [hdirectory]; exact hsync.producers,
    by rw [hdirectory]; exact hsync.consumers, hhomed⟩, ?_⟩
  rw [← hheld]
  exact hflight

/-- What a read did to the items in flight. -/
def Yields (before after : Nat → List (Nat × α)) : Except RingError (Nat × α) → Prop
  | .ok y => ∀ p, before p = sentBy p [y] ++ after p
  | .error _ => after = before

theorem Fit.recv (h : Fit shape ps cs r) (hc : c ∈ cs) (hrecv : r.tryRecv c outLen = (r', res)) :
    Fit shape ps cs r' ∧ Yields (r.held.inFlight shape) (r'.held.inFlight shape) res := by
  have hsync := h.ensureSynced
  have hheld := r.ensureSynced_reshaped.1.held_eq
  obtain ⟨hpops, -⟩ := tryRecv_spec h.sound.governed (h.mem_consumers hc) hrecv
  have hframe := hpops.frame_eq
  simp only [frame, Prod.mk.injEq] at hframe
  obtain ⟨⟨hshape, -⟩, -, hauto, -⟩ := hframe
  have hpeers := hpops.peers_eq
  simp only [peers, Prod.mk.injEq] at hpeers
  obtain ⟨-, ⟨hproducers, hconsumers⟩, hslots, hslots', -⟩ := hpeers
  have hfit : r'.held.Homed shape → Fit shape ps cs r' := fun hhomed =>
    ⟨hsync.sound.pops (hsync.mem_consumers hc) hpops,
      hsync.steady.congr hshape hauto hproducers hconsumers, hshape.trans hsync.shape_eq,
      by rw [PeerDirectory.claimedProducerSlots, hslots]; exact hsync.producers,
      by rw [PeerDirectory.claimedConsumerSlots, hslots']; exact hsync.consumers, hhomed⟩
  have hafter := hpops.held
  cases res with
  | ok y =>
    obtain ⟨hhomed, hflight⟩ := hsync.homed.take hafter
    rw [hheld] at hflight
    exact ⟨hfit hhomed, hflight⟩
  | error e =>
    have heq : r'.held = r.held := Eq.trans hafter hheld
    refine ⟨hfit (by rw [heq]; exact h.homed), ?_⟩
    rw [Yields, heq]

theorem Fit.flight_nil_of_isEmpty (h : Fit shape ps cs r) (hempty : r.isEmpty = true) (p : Nat) :
    r.held.inFlight shape p = [] := by
  refine Backings.inFlight_eq_nil ?_ p
  have hbacking : r.backingIsEmpty shape = true := by
    rw [isEmpty, h.shape_eq, Bool.and_eq_true] at hempty
    exact hempty.2
  cases shape with
  | spsc | vyukov => exact fun q hq => (mem_singleton.mp hq).trans (isEmpty_iff.mp hbacking)
  | mpsc | mpmc => exact fun q hq => isEmpty_iff.mp (all_eq_true.mp hbacking q hq)

theorem isEmpty_of_items_nil (h : r.held.items = []) : r.isEmpty = true := by
  have hbacking : ∀ s, r.backingIsEmpty s = true := by
    intro s
    have hnil := Backings.queues_eq_nil h s
    cases s with
    | spsc | vyukov => exact isEmpty_iff.mpr (hnil _ (mem_singleton_self _))
    | mpsc | mpmc => exact all_eq_true.mpr fun q hq => isEmpty_iff.mpr (hnil q hq)
  rw [isEmpty, hbacking, Bool.and_true]
  exact all_eq_true.mpr fun s _ => hbacking s

/-- A sole consumer that has twice found nothing has drained the ring. -/
theorem Fit.drained (h : Fit shape ps [c] r) (hfirst : r.tryRecv c outLen = (r1, .error .empty))
    (hsecond : r1.tryRecv c outLen' = (r2, .error .empty)) : r.held.items = [] := by
  have hc := h.mem_consumers (mem_singleton_self c)
  have hidle := idle_of_empty h.sound hc hfirst
  have hidle' := idle_of_empty hidle.sound (by rwa [hidle.consumers_eq]) hsecond
  have halone : ∀ o, r.directory.consumers o = true → o ∈ [c] := by
    intro o ho
    rw [← h.consumers]
    exact mem_claimed h.sound.governed ho
  exact drained_of_rounds h.sound (.cons hidle (.nil hidle.sound)) (.cons hidle' (.nil hidle'.sound))
    hc halone halone

end AdaptiveRing
end SubEtha.Ring
