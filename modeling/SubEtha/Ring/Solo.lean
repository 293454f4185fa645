import SubEtha.Ring.Peers

namespace SubEtha.Ring
open PeerDirectory Option List

variable {α : Type}

namespace Backings

def lane (b : Backings α) (p : Nat) : RingShape → List α
  | .spsc => b.spsc
  | .mpsc => b.mpsc.getD p []
  | .mpmc => b.mpmc.getD p []
  | .vyukov => b.vyukov

theorem lane_eq_nil {b : Backings α} (h : ∀ q ∈ b.queues shape, q = []) (p : Nat) :
    b.lane p shape = [] := by
  have hgrid : ∀ qs : List (List α), (∀ q ∈ qs, q = []) → qs.getD p [] = [] := by
    intro qs hqs
    by_cases hp : p < qs.length
    · rw [getD_eq_getElem _ _ hp]
      exact hqs _ (getElem_mem hp)
    · exact getD_eq_default _ _ (not_lt.mp hp)
  cases shape with
  | spsc | vyukov => exact h _ (mem_singleton_self _)
  | mpsc | mpmc => exact hgrid _ h

/-- Only producer `p` has filled the composed shapes. -/
structure Narrow (p : Nat) (b : Backings α) : Prop where
  lengths : b.mpsc.length = b.mpmc.length
  mpsc : ∀ i, i ≠ p → b.mpsc.getD i [] = []
  mpmc : ∀ i, i ≠ p → b.mpmc.getD i [] = []

end Backings

variable {p idx outLen : Nat} {x : α} {b b' : Backings α} {r r' : AdaptiveRing α} {s : RingShape}

theorem only_queue {qs : List (List α)} (honly : ∀ i, i ≠ p → qs.getD i [] = [])
    (h : qs[idx]? = some (x :: q)) : idx = p ∧ qs.getD p [] = x :: q ∧ p < qs.length := by
  have hidx : qs.getD idx [] = x :: q := by rw [getD_eq_getElem?_getD, h, getD_some]
  have heq : idx = p := by
    by_contra hne
    rw [honly idx hne] at hidx
    cases hidx
  subst heq
  exact ⟨rfl, hidx, (lt_of_some h)⟩

/-- What `Empty` says of a shape. The MPSC scan takes a buffer that is too short for
an empty ring. -/
def PassedBy (p outLen : Nat) (b : Backings α) : RingShape → Prop
  | .spsc => spscPayload ≤ outLen ∧ b.spsc = []
  | .mpsc => spscPayload ≤ outLen → b.lane p .mpsc = []
  | .mpmc => b.mpmc = [] ∨ (spscPayload ≤ outLen ∧ b.lane p .mpmc = [])
  | .vyukov => b.vyukov = []

namespace Backings.Narrow

theorem mpsc_pop (h : b.Narrow p) (head : b.mpsc[idx]? = some (x :: q)) :
    ({ b with mpsc := b.mpsc.set idx q } : Backings α).Narrow p ∧ b.lane p .mpsc = x :: q ∧
      ({ b with mpsc := b.mpsc.set idx q } : Backings α).lane p .mpsc = q := by
  obtain ⟨rfl, hq, hlt⟩ := only_queue h.mpsc head
  refine ⟨⟨by rw [length_set]; exact h.lengths, fun i hi => ?_, h.mpmc⟩, hq, getD_set_self hlt q⟩
  rw [getD_set_of_ne hi]
  exact h.mpsc i hi

theorem mpmc_pop (h : b.Narrow p) (head : b.mpmc[idx]? = some (x :: q)) :
    ({ b with mpmc := b.mpmc.set idx q } : Backings α).Narrow p ∧ b.lane p .mpmc = x :: q ∧
      ({ b with mpmc := b.mpmc.set idx q } : Backings α).lane p .mpmc = q := by
  obtain ⟨rfl, hq, hlt⟩ := only_queue h.mpmc head
  refine ⟨⟨by rw [length_set]; exact h.lengths, h.mpsc, fun i hi => ?_⟩, hq, getD_set_self hlt q⟩
  rw [getD_set_of_ne hi]
  exact h.mpmc i hi

end Backings.Narrow

inductive LanePop (p outLen : Nat) (s : RingShape) (b b' : Backings α) : Except RingError α → Prop
  | took {x : α} (fits : AdaptiveRing.slotBytes s ≤ outLen) (head : b.lane p s = x :: b'.lane p s)
      (others : ∀ t, t ≠ s → b'.lane p t = b.lane p t) (narrow : b'.Narrow p) :
      LanePop p outLen s b b' (.ok x)
  | dry (same : b' = b) (passed : PassedBy p outLen b s) : LanePop p outLen s b b' (.error .empty)
  | refused {e : RingError} (ne : e ≠ .empty) (same : b' = b) : LanePop p outLen s b b' (.error e)

theorem LanePop.failed (same : b' = b) (passed : e = .empty → PassedBy p outLen b s) :
    LanePop p outLen s b b' (.error e) := by
  by_cases he : e = .empty
  · subst he
    exact .dry same (passed rfl)
  · exact .refused he same

/-- Every ring is unowned or consumer 0's, and none is being handed over. -/
def Mine (d : PeerDirectory) : Prop :=
  ∀ ring, (d.owner ring = none ∨ d.owner ring = some 0) ∧ d.pending ring = none

/-- At most one peer on each side, consumer 0 if any. -/
structure SoloPeers (d : PeerDirectory) : Prop where
  alone : ∀ o, d.consumers o = true → o = 0
  mine : Mine d
  counts : d.activeProducers ≤ 1 ∧ d.activeConsumers ≤ 1

namespace AdaptiveRing

/-- A ring used by producer `p` and by consumer 0, registered or not. -/
structure Solo (p : Nat) (r : AdaptiveRing α) : Prop where
  reader : r.singleReader = 0
  peers : SoloPeers r.directory
  auto : r.shapeAuto = true → r.shape = .spsc
  unstamped : r.stamped = false
  marked : r.Marked
  start : r.used .spsc = true
  narrow : r.held.Narrow p
  stored : ∀ s, r.held.lane p s ≠ [] → r.used s = true

theorem designateSingleReader_solo (hreader : r.singleReader = 0)
    (halone : ∀ o, r.directory.consumers o = true → o = 0) : r.designateSingleReader = r := by
  unfold designateSingleReader
  dsimp only
  split
  · rfl
  rename_i hnot
  cases hslots : r.directory.claimedConsumerSlots with
  | nil =>
    rw [headD_nil, ← hreader]
  | cons slot slots =>
    have hmem : slot ∈ r.directory.claimedConsumerSlots := by
      rw [hslots]
      exact mem_cons_self ..
    have hslot := halone slot (mem_claimedConsumerSlots.mp hmem).2
    exact absurd (contains_iff_mem.mpr (by rwa [hreader, ← hslot])) hnot

/-- One peer on each side calls for the shape an unpinned ring is already in. -/
theorem reshapeForCounts_solo (hauto : r.shapeAuto = true → r.shape = .spsc)
    (hcounts : r.directory.activeProducers ≤ 1 ∧ r.directory.activeConsumers ≤ 1) :
    r.reshapeForCounts = (r, true) := by
  unfold reshapeForCounts
  split
  · rfl
  rename_i hpinned
  have hshape : r.shape = .spsc := hauto (by
    by_contra hne
    simp [hne] at hpinned)
  have htarget : targetShape r.directory.activeProducers r.directory.activeConsumers = none ∨
      targetShape r.directory.activeProducers r.directory.activeConsumers = some .spsc := by
    unfold targetShape
    split
    · exact .inl rfl
    · rw [if_pos (by omega), if_pos (by omega)]
      exact .inr rfl
  rcases htarget with htarget | htarget
  · rw [htarget]
  · rw [htarget]
    exact if_pos hshape.symm

theorem Solo.ensureSynced_eq (h : Solo p r) :
    ∃ e, r.ensureSynced = { r with syncedEpoch := e } := by
  unfold ensureSynced
  dsimp only
  split
  · exact ⟨r.syncedEpoch, rfl⟩
  refine ⟨some r.directory.epoch, ?_⟩
  rw [syncTopology, designateSingleReader_solo h.reader h.peers.alone,
    reshapeForCounts_solo h.auto h.peers.counts]
  rfl

theorem Solo.ensureSynced (h : Solo p r) : Solo p r.ensureSynced := by
  obtain ⟨e, he⟩ := h.ensureSynced_eq
  rw [he]
  exact { h with }

theorem mpmcVisit_mine (h : Mine r.directory) (outLen idx : Nat) :
    ∃ d, Entry r.directory idx (some 0) none d ∧
      r.mpmcVisit 0 outLen idx = { r with directory := d }.mpmcTake 0 outLen idx := by
  obtain ⟨howner, hpending⟩ := h idx
  rcases howner with howner | howner
  · refine ⟨_, entry_setOwner r.directory idx (some 0) none, ?_⟩
    simp [mpmcVisit, howner, tryClaimRing, hpending]
  · refine ⟨_, entry_self howner hpending, ?_⟩
    simp [mpmcVisit, howner, applyHandoff, hpending]

theorem stuckAt_mine (h : Mine r.directory) (idx : Nat) : r.stuckAt (0 % 2 ^ 16) idx = none := by
  rcases (h idx).1 with howner | howner
  · simp [stuckAt, howner]
  · simp [stuckAt, howner]

theorem PopsAs.mine (h : PopsAs 0 r res r') (hmine : Mine r.directory) : Mine r'.directory := by
  intro ring
  obtain ⟨howner, hpending⟩ := hmine ring
  constructor
  · cases ho : r'.directory.owner ring with
    | none => exact .inl rfl
    | some o =>
      rcases h.owner ring o ho with ho' | ho' | rfl
      · rcases howner with hnone | hzero
        · rw [hnone] at ho'
          cases ho'
        · exact .inr (ho'.symm.trans hzero)
      · rw [hpending] at ho'
        cases ho'
      · exact .inr rfl
  · cases hp : r'.directory.pending ring with
    | none => rfl
    | some t =>
      have ht := (h.pending ring t hp).1
      rw [hpending] at ht
      cases ht

/-- A scan by the sole consumer: which ring an item came from, and what `Empty` says. -/
theorem mpmcScan_mine (hmine : Mine r.directory) (h : mpmcScan 0 outLen idxs none r = (r', res)) :
    PopsAs 0 r res r' ∧
    (∀ x, res = .ok x → spscPayload ≤ outLen ∧ ∃ idx q, r.mpmc[idx]? = some (x :: q) ∧
      r'.held = { r.held with mpmc := r.mpmc.set idx q }) ∧
    (res = .error .empty → ∀ idx ∈ idxs, spscPayload ≤ outLen ∧ r.mpmc.getD idx [] = []) := by
  induction idxs generalizing r with
  | nil =>
    cases h
    exact ⟨.refl 0 _ .empty, (by simp), fun _ _ hidx => absurd hidx not_mem_nil⟩
  | cons idx idxs ih =>
    obtain ⟨d, hentry, hvisit⟩ := mpmcVisit_mine hmine outLen idx
    have hpops := PopsAs.entry hentry (.inr rfl) .empty
    have htake := mpmcTake_cases { r with directory := d } 0 outLen idx
    rw [mpmcScan, hvisit, stuckAt_mine hmine, or_none] at h
    generalize hout : { r with directory := d }.mpmcTake 0 outLen idx = out at h htake
    cases htake with
    | took hfits head =>
      cases h
      refine ⟨{ hpops with held := .mpmc head, frame_eq := rfl }, ?_, ?_⟩
      · intro x hx
        cases hx
        exact ⟨hfits, idx, _, head, rfl⟩
      · exact by simp
    | refused hne =>
      cases h
      refine ⟨hpops.trans (.refl 0 _ _), (by simp), fun hres => ?_⟩
      exact absurd (Except.error.inj hres) hne
    | dry hfits hnil =>
      obtain ⟨hrest, hok, hempty⟩ := ih (hpops.mine hmine) h
      refine ⟨hpops.trans hrest, hok, fun hres i hi => ?_⟩
      rcases mem_cons.mp hi with rfl | hi
      · exact ⟨hfits, hnil⟩
      · exact hempty hres i hi

theorem mpmcPop_solo (h : Solo p r) (hpop : r.mpmcPop 0 outLen = (r', res)) :
    PopsAs 0 r res r' ∧ LanePop p outLen .mpmc r.held r'.held res := by
  rw [mpmcPop, if_neg (by decide)] at hpop
  obtain ⟨hpops, hok, hempty⟩ := mpmcScan_mine h.peers.mine hpop
  refine ⟨hpops, ?_⟩
  cases res with
  | ok x =>
    obtain ⟨hfits, idx, q, head, hheld⟩ := hok x rfl
    obtain ⟨hnarrow, hlane, hlane'⟩ := h.narrow.mpmc_pop head
    rw [hheld]
    refine .took hfits (hlane.trans (congrArg (x :: ·) hlane'.symm)) (fun t ht => ?_) hnarrow
    cases t with
    | mpmc => exact absurd rfl ht
    | _ => rfl
  | error e =>
    refine .failed hpops.held fun he => ?_
    subst he
    by_cases hgrid : r.mpmc = []
    · exact .inl hgrid
    have hpos := length_pos_iff.mpr hgrid
    have hfits := (hempty rfl 0 (mem_scanOrder.mpr hpos)).1
    refine .inr ⟨hfits, ?_⟩
    by_cases hp : p < r.mpmc.length
    · exact (hempty rfl p (mem_scanOrder.mpr hp)).2
    · exact getD_eq_default _ _ (not_lt.mp hp)

theorem shapePop_solo (h : Solo p r) (hpop : r.shapePop s 0 outLen = (r', res)) :
    PopsAs 0 r res r' ∧ LanePop p outLen s r.held r'.held res := by
  have hwalk : r.mayWalkStale s 0 = true := by
    cases s with
    | spsc | mpsc => exact beq_iff_eq.mpr h.reader
    | mpmc | vyukov => rfl
  unfold shapePop at hpop
  rw [hwalk, Bool.not_true, if_neg Bool.false_ne_true] at hpop
  cases s with
  | spsc =>
    dsimp only at hpop
    split at hpop
    · rename_i x q htry
      cases hpop
      obtain ⟨hfits, hq⟩ := tryPop_ok htry
      refine ⟨.still (.spsc hq) rfl rfl,
        .took hfits hq (fun t ht => ?_) ⟨h.narrow.lengths, h.narrow.mpsc, h.narrow.mpmc⟩⟩
      cases t with
      | spsc => exact absurd rfl ht
      | _ => rfl
    · rename_i e htry
      cases hpop
      exact ⟨.refl 0 r e, .failed rfl fun he => tryPop_empty (he ▸ htry)⟩
  | mpsc =>
    cases res with
    | ok x =>
      obtain ⟨hfits, idx, q, head, rfl⟩ := mpscPop_ok hpop
      obtain ⟨hnarrow, hlane, hlane'⟩ := h.narrow.mpsc_pop head
      refine ⟨.still (.mpsc head) rfl rfl,
        .took hfits (hlane.trans (congrArg (x :: ·) hlane'.symm)) (fun t ht => ?_) hnarrow⟩
      cases t with
      | mpsc => exact absurd rfl ht
      | _ => rfl
    | error e =>
      obtain ⟨rfl, rfl, hempty⟩ := mpscPop_error hpop
      refine ⟨.refl 0 r' .empty, .dry rfl fun hlen => ?_⟩
      by_cases hp : p < r'.mpsc.length
      · refine hempty hlen (r'.mpsc.getD p []) ?_
        rw [getD_eq_getElem _ _ hp]
        exact getElem_mem hp
      · exact getD_eq_default _ _ (not_lt.mp hp)
  | mpmc => exact mpmcPop_solo h hpop
  | vyukov =>
    dsimp only at hpop
    split at hpop
    · rename_i x q htry
      cases hpop
      obtain ⟨hfits, hq⟩ := tryPop_ok htry
      refine ⟨.still (.vyukov hq) rfl rfl,
        .took hfits hq (fun t ht => ?_) ⟨h.narrow.lengths, h.narrow.mpsc, h.narrow.mpmc⟩⟩
      cases t with
      | vyukov => exact absurd rfl ht
      | _ => rfl
    · rename_i e htry
      cases hpop
      exact ⟨.refl 0 r e, .failed rfl fun he => (tryPop_empty (he ▸ htry)).2⟩

theorem LanePop.lane_ne (h : LanePop p outLen s b b' res) (hne : b'.lane p t ≠ []) :
    b.lane p t ≠ [] := by
  cases h with
  | took hfits head others =>
    by_cases ht : t = s
    · subst ht
      rw [head]
      exact cons_ne_nil _ _
    · rwa [← others t ht]
  | dry same | refused _ same => rwa [← same]

theorem Solo.pops (h : Solo p r) (hpops : PopsAs 0 r res r')
    (hlane : LanePop p outLen s r.held r'.held res) : Solo p r' := by
  have hframe := hpops.frame_eq
  simp only [frame, Prod.mk.injEq] at hframe
  obtain ⟨⟨hshape, hused, hreader⟩, -, hauto, -, hstamped⟩ := hframe
  have hpeers := hpops.peers_eq
  simp only [SubEtha.Ring.peers, Prod.mk.injEq] at hpeers
  obtain ⟨-, hactive, -, hconsumers, -⟩ := hpeers
  refine ⟨hreader.trans h.reader, ⟨by rw [hconsumers]; exact h.peers.alone, hpops.mine h.peers.mine,
    by rw [hactive.1, hactive.2]; exact h.peers.counts⟩, by rw [hauto, hshape]; exact h.auto,
    hstamped.trans h.unstamped, ?_, by rw [hused]; exact h.start, ?_, fun t hne => ?_⟩
  · rw [Marked, hused, hshape]
    exact h.marked
  · cases hlane with
    | took hfits head others narrow => exact narrow
    | dry same | refused _ same => rw [same]; exact h.narrow
  · rw [hused]
    exact h.stored t (LanePop.lane_ne hlane hne)

/-- A walk that returned `x` took it from a shape whose predecessors it passed by. -/
structure TookFrom (p outLen : Nat) (shapes : List RingShape) (b b' : Backings α) (x : α)
    (pre : List RingShape) (s : RingShape) (post : List RingShape) : Prop where
  split : shapes = pre ++ s :: post
  fits : slotBytes s ≤ outLen
  head : b.lane p s = x :: b'.lane p s
  others : ∀ t, t ≠ s → b'.lane p t = b.lane p t
  passed : ∀ t ∈ pre, PassedBy p outLen b t

theorem popFirst_solo (h : Solo p r) (hpop : popFirst 0 outLen shapes r = (r', res)) :
    Solo p r' ∧ r'.shape = r.shape ∧ match res with
      | .ok x => ∃ pre s post, TookFrom p outLen shapes r.held r'.held x pre s post
      | .error _ => r'.held = r.held := by
  induction shapes generalizing r with
  | nil =>
    cases hpop
    exact ⟨h, rfl, rfl⟩
  | cons s rest ih =>
    cases hout : r.shapePop s 0 outLen with
    | mk r1 res1 =>
      obtain ⟨hpops, hlane⟩ := shapePop_solo h hout
      have hsolo := h.pops hpops hlane
      have hshape : r1.shape = r.shape := congrArg (fun f => f.1.1) hpops.frame_eq
      rw [popFirst, hout] at hpop
      generalize hheld : r1.held = b1 at hlane
      cases hlane with
      | took hfits head others =>
        cases hpop
        subst hheld
        exact ⟨hsolo, hshape, [], s, rest, rfl, hfits, head, others,
          fun t ht => absurd ht not_mem_nil⟩
      | dry same passed =>
        rw [same] at hheld
        obtain ⟨hsolo', hshape', hres⟩ := ih hsolo hpop
        rw [hheld] at hres
        refine ⟨hsolo', hshape'.trans hshape, ?_⟩
        cases res with
        | error e => exact hres
        | ok x =>
          obtain ⟨pre, t, post, htook⟩ := hres
          refine ⟨s :: pre, t, post, by rw [htook.split]; rfl, htook.fits, htook.head, htook.others,
            fun u hu => ?_⟩
          rcases mem_cons.mp hu with rfl | hu
          · exact passed
          · exact htook.passed u hu
      | @refused e hne same =>
        rw [same] at hheld
        cases e with
        | empty => exact absurd rfl hne
        | _ =>
          cases hpop
          exact ⟨hsolo, hshape, hheld⟩

/-- A read with a buffer too short for an MPSC slot takes the MPSC rings for empty
and goes on to a Vyukov ring, whose slots are shorter. -/
def SkipsMpsc (p outLen : Nat) (r : AdaptiveRing α) : Prop :=
  outLen < spscPayload ∧ vyukovPayload ≤ outLen ∧ r.shape = .spsc ∧ r.used .mpmc = false ∧
    r.held.lane p .mpsc ≠ [] ∧ r.held.lane p .vyukov ≠ []
deriving Decidable

/-- Unless it skips the MPSC rings so, a read has seen that the shapes it passed by
hold nothing. -/
theorem TookFrom.pre_nil (h : Solo p r) (hskip : ¬ r.SkipsMpsc p outLen)
    (htook : TookFrom p outLen ((walkOrder r.shape).filter r.used) r.held b' x pre s post) :
    ∀ t ∈ pre, r.held.lane p t = [] := by
  intro t ht
  have hpassed := htook.passed t ht
  cases t with
  | spsc => exact hpassed.2
  | mpmc =>
    rcases hpassed with hgrid | ⟨-, hlane⟩
    · rw [Backings.lane, hgrid]
      rfl
    · exact hlane
  | vyukov => exact hpassed
  | mpsc =>
    by_cases hlen : spscPayload ≤ outLen
    · exact hpassed hlen
    have hs : s = .vyukov := by
      by_contra hne
      have hfits := htook.fits
      cases s with
      | vyukov => exact hne rfl
      | _ => exact hlen hfits
    subst hs
    have hspsc : r.shape = .spsc := by
      by_contra hne
      have hfirst : Precedes r.shape .spsc .vyukov := by
        revert hne
        cases r.shape <;> decide
      exact hlen (htook.passed .spsc (mem_of_precedes htook.split h.start hfirst)).1
    by_contra hne
    refine hskip ⟨not_le.mp hlen, htook.fits, hspsc, ?_, hne, ?_⟩
    · by_contra hused
      have hfirst : Precedes r.shape .mpmc .vyukov := by
        rw [hspsc]
        decide
      have hpre := mem_of_precedes htook.split (by simpa using hused) hfirst
      rcases htook.passed .mpmc hpre with hgrid | ⟨hlen', -⟩
      · have hmpsc : r.held.mpsc = [] :=
          eq_nil_of_length_eq_zero (h.narrow.lengths.trans (by rw [hgrid]; rfl))
        exact hne (by rw [Backings.lane, hmpsc]; rfl)
      · exact hlen hlen'
    · rw [htook.head]
      exact cons_ne_nil _ _

/-- What the sole consumer has still to receive, first to last. -/
def backlog (p : Nat) (r : AdaptiveRing α) : List α := contents (r.held.lane p) r.shape

theorem Solo.ensureSynced_backlog (h : Solo p r) : r.ensureSynced.backlog p = r.backlog p := by
  obtain ⟨e, he⟩ := h.ensureSynced_eq
  rw [he]
  rfl

/-- Shapes never used hold nothing, so leaving them out changes nothing. -/
theorem walked_contents {used : RingShape → Bool} (h : ∀ s, lane s ≠ [] → used s = true)
    (current : RingShape) :
    ((walkOrder current).filter used).flatMap lane = contents lane current := by
  refine flatMap_filter_of_nil fun s _ hs => ?_
  by_contra hne
  rw [h s hne] at hs
  cases hs

theorem TookFrom.lane_ne (h : TookFrom p outLen shapes b b' x pre s post) (hne : b'.lane p t ≠ []) :
    b.lane p t ≠ [] := by
  by_cases ht : t = s
  · subst ht
    rw [h.head]
    exact cons_ne_nil _ _
  · rwa [← h.others t ht]

theorem recv_backlog (h : Solo p r) (hskip : ¬ r.SkipsMpsc p outLen)
    (hrecv : r.tryRecv 0 outLen = (r', res)) : Solo p r' ∧ match res with
      | .ok x => r.backlog p = x :: r'.backlog p
      | .error _ => r'.backlog p = r.backlog p := by
  obtain ⟨e, he⟩ := h.ensureSynced_eq
  have hsync := h.ensureSynced
  rw [tryRecv, walk_eq_popFirst] at hrecv
  rw [he] at hrecv hsync
  obtain ⟨hsolo, hshape, hres⟩ := popFirst_solo hsync hrecv
  refine ⟨hsolo, ?_⟩
  cases res with
  | error e =>
    have hheld : r'.held = r.held := hres
    rw [backlog, backlog, hheld, hshape]
  | ok x =>
    obtain ⟨pre, s, post, htook⟩ := hres
    rw [walked_eq hsync.marked] at htook
    have hnil := htook.pre_nil hsync hskip
    have hnodup := (walkOrder_nodup r.shape).filter r.used
    have hsplit : (walkOrder r.shape).filter r.used = pre ++ s :: post := htook.split
    rw [hsplit] at hnodup
    have hpop := flatMap_pop hnodup hnil htook.head htook.others
    rw [← hsplit, walked_contents hsync.stored,
      walked_contents (fun t ht => h.stored t (htook.lane_ne ht))] at hpop
    rw [backlog, backlog, hshape]
    exact hpop

end AdaptiveRing
end SubEtha.Ring
