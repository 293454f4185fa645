import SubEtha.Lib.Lists
import SubEtha.Ring.Sync
import Mathlib.Data.List.Perm.Basic
import Mathlib.Data.Nat.ModEq

namespace SubEtha.Ring
open Function List PeerDirectory

variable {α : Type}

namespace Backings

def items (b : Backings α) : List α := b.spsc ++ (b.mpsc.flatten ++ (b.mpmc.flatten ++ b.vyukov))

/-- `x` was the head of one of the queues of `b`, and `b'` is what remains. -/
inductive Takes (b : Backings α) (x : α) : Backings α → Prop
  | spsc {q : List α} (head : b.spsc = x :: q) : Takes b x { b with spsc := q }
  | mpsc {idx : Nat} {q : List α} (head : b.mpsc[idx]? = some (x :: q)) :
      Takes b x { b with mpsc := b.mpsc.set idx q }
  | mpmc {idx : Nat} {q : List α} (head : b.mpmc[idx]? = some (x :: q)) :
      Takes b x { b with mpmc := b.mpmc.set idx q }
  | vyukov {q : List α} (head : b.vyukov = x :: q) : Takes b x { b with vyukov := q }

end Backings

variable {qs : List (List α)} {idx c outLen : Nat} {q : List α} {x : α} {r r' r1 : AdaptiveRing α}
  {res : Except RingError α} {e : RingError}

theorem Backings.Takes.perm {b b' : Backings α} (h : b.Takes x b') :
    b.items.Perm (x :: b'.items) := by
  cases h with
  | spsc head =>
    rw [items, head]
    exact .refl _
  | mpsc head =>
    refine (((Lib.flatten_pop_perm head).append_right _).append_left b.spsc).trans ?_
    exact perm_middle
  | mpmc head =>
    have hperm := (Lib.flatten_pop_perm head).append_right b.vyukov
    refine ((hperm.append_left b.mpsc.flatten).append_left b.spsc).trans ?_
    refine (perm_middle.append_left b.spsc).trans ?_
    exact perm_middle
  | vyukov head =>
    rw [items, head]
    refine ((perm_middle.append_left _).append_left b.spsc).trans ?_
    refine (perm_middle.append_left b.spsc).trans ?_
    exact perm_middle

/-- What a call that returned `res` did to the items. -/
def Backings.After (b : Backings α) : Except RingError α → Backings α → Prop
  | .ok x, b' => b.Takes x b'
  | .error _, b' => b' = b

namespace AdaptiveRing

def frame (r : AdaptiveRing α) :
    (RingShape × (RingShape → Bool) × Nat) × Nat × Bool × Option RingContract × Bool :=
  ((r.shape, r.used, r.singleReader), r.capacity, r.shapeAuto, r.contract, r.stamped)

/-- A pop by consumer `c`: items as `res` says, ring ownership, cursors and the
epoch may move. A new owner is `c` or the one a handoff was pending to. -/
structure PopsAs (c : Nat) (r : AdaptiveRing α) (res : Except RingError α) (r' : AdaptiveRing α) :
    Prop where
  held : r.held.After res r'.held
  frame_eq : r'.frame = r.frame
  peers_eq : peers r'.directory = peers r.directory
  owner : ∀ ring o, r'.directory.owner ring = some o →
    r.directory.owner ring = some o ∨ r.directory.pending ring = some o ∨ o = c
  pending : ∀ ring t, r'.directory.pending ring = some t →
    r.directory.pending ring = some t ∧ r'.directory.owner ring = r.directory.owner ring

theorem PopsAs.still (held : r.held.After res r'.held) (hframe : r'.frame = r.frame)
    (hdir : r'.directory = r.directory) : PopsAs c r res r' :=
  ⟨held, hframe, congrArg peers hdir, fun _ _ h => .inl (hdir ▸ h), fun _ _ h => hdir ▸ ⟨h, rfl⟩⟩

theorem PopsAs.refl (c : Nat) (r : AdaptiveRing α) (e : RingError) : PopsAs c r (.error e) r :=
  .still rfl rfl rfl

theorem PopsAs.consumers_eq (h : PopsAs c r res r') :
    r'.directory.consumers = r.directory.consumers :=
  congrArg (fun p => p.2.2.2.1) h.peers_eq

theorem PopsAs.trans (h : PopsAs c r (.error e) r1) (h' : PopsAs c r1 res r2) :
    PopsAs c r res r2 where
  held := by
    have heq : r1.held = r.held := h.held
    have hafter := h'.held
    rwa [heq] at hafter
  frame_eq := h'.frame_eq.trans h.frame_eq
  peers_eq := h'.peers_eq.trans h.peers_eq
  owner := by
    intro ring o ho
    rcases h'.owner ring o ho with ho | ho | ho
    · exact h.owner ring o ho
    · exact .inr (.inl (h.pending ring o ho).1)
    · exact .inr (.inr ho)
  pending := by
    intro ring t ht
    obtain ⟨ht1, howner1⟩ := h'.pending ring t ht
    obtain ⟨ht0, howner0⟩ := h.pending ring t ht1
    exact ⟨ht0, howner1.trans howner0⟩

theorem mem_scanOrder : idx ∈ scanOrder start n ↔ idx < n := by
  rw [scanOrder, mem_map]
  constructor
  · rintro ⟨i, hi, rfl⟩
    exact Nat.mod_lt _ (lt_of_le_of_lt (Nat.zero_le i) (mem_range.mp hi))
  intro hidx
  have hstart : start % n ≤ n := le_of_lt (Nat.mod_lt _ (by omega))
  refine ⟨(idx + (n - start % n)) % n, mem_range.mpr (Nat.mod_lt _ (by omega)), ?_⟩
  rw [Nat.add_mod_mod, ← Nat.mod_add_mod, ← add_assoc, add_comm (start % n),
    add_assoc, Nat.add_sub_cancel' hstart, Nat.add_mod_right, Nat.mod_eq_of_lt hidx]

theorem scanOrder_nodup (start n : Nat) : (scanOrder start n).Nodup := by
  refine List.Nodup.map_on ?_ nodup_range
  intro i hi j hj heq
  have hmod : i % n = j % n := Nat.ModEq.add_left_cancel' start heq
  rwa [Nat.mod_eq_of_lt (mem_range.mp hi), Nat.mod_eq_of_lt (mem_range.mp hj)] at hmod

theorem mpscPop_ok (h : r.mpscPop outLen = (r', .ok x)) :
    spscPayload ≤ outLen ∧ ∃ idx q, r.mpsc[idx]? = some (x :: q) ∧ r' = { r with
      mpsc := r.mpsc.set idx q
      nextDrain := (idx + 1) % r.mpsc.length } := by
  unfold mpscPop at h
  dsimp only at h
  split at h <;> cases h
  rename_i idx q hfound
  obtain ⟨idx', hidx, hpop⟩ := exists_of_findSome?_eq_some hfound
  split at hpop <;> cases hpop
  rename_i hok
  have hlt := mem_scanOrder.mp hidx
  obtain ⟨hfits, hq⟩ := tryPop_ok hok
  refine ⟨hfits, idx, q, ?_, rfl⟩
  rw [getElem?_eq_getElem hlt, ← hq, getD_eq_getElem _ _ hlt]

/-- A read that finds nothing has seen every ring empty, unless the buffer was too
short for a slot. -/
theorem mpscPop_error (h : r.mpscPop outLen = (r', .error e)) :
    r' = r ∧ e = .empty ∧ (spscPayload ≤ outLen → ∀ q ∈ r.mpsc, q = []) := by
  unfold mpscPop at h
  dsimp only at h
  split at h
  · cases h
  rename_i hnone
  cases h
  refine ⟨rfl, rfl, fun hout q hq => ?_⟩
  obtain ⟨idx, hlt, hidx⟩ := getElem_of_mem hq
  have hpop := findSome?_eq_none_iff.mp hnone idx (mem_scanOrder.mpr hlt)
  rw [getD_eq_getElem _ _ hlt, hidx, tryPop_of_le hout] at hpop
  cases q with
  | nil => rfl
  | cons y q => cases hpop

inductive Visit (c outLen idx : Nat) (r : AdaptiveRing α) :
    AdaptiveRing α × Option (Except RingError α) → Prop
  | others {o : Nat} (owner : r.directory.owner idx = some o) (ne : o ≠ c)
      (claimed : r.directory.consumers o = true) : Visit c outLen idx r (r, none)
  | handed {t : Nat} {d : PeerDirectory} (owner : r.directory.owner idx = some c)
      (pending : r.directory.pending idx = some t) (entry : Entry r.directory idx (some t) none d) :
      Visit c outLen idx r ({ r with directory := d }, none)
  | mine {d : PeerDirectory} (entry : Entry r.directory idx (some c) none d) :
      Visit c outLen idx r ({ r with directory := d }.mpmcTake c outLen idx)

theorem mpmcVisit_cases (h : Governed r.directory) (hc : r.directory.consumers c = true)
    (outLen idx : Nat) : Visit c outLen idx r (r.mpmcVisit c outLen idx) := by
  have hme : c % 2 ^ 16 = c := Nat.mod_eq_of_lt (by
    have := (h.live c hc).1
    simp only [consumerSlotCeiling] at this
    omega)
  unfold mpmcVisit
  rw [hme]
  cases howner : r.directory.owner idx with
  | none =>
    have hpending : r.directory.pending idx = none := by
      cases hp : r.directory.pending idx with
      | none => rfl
      | some t => exact absurd howner (h.pending idx t hp).2
    simp only [tryClaimRing, howner, hpending, and_self, if_true]
    exact .mine (entry_setOwner ..)
  | some o =>
    dsimp only
    split
    · rename_i ho
      subst ho
      cases hpending : r.directory.pending idx with
      | none =>
        simp only [applyHandoff, howner, hpending, if_true, Option.map_none]
        exact .mine (entry_self howner hpending)
      | some t =>
        simp only [applyHandoff, howner, hpending, if_true, Option.map_some]
        exact .handed howner hpending (entry_bumped ..)
    rename_i hne
    split
    · rename_i hfree
      have hreleased : r.directory.released o = true := by
        rcases h.owner idx o howner with hclaimed | hreleased
        · have hlt := (h.live o hclaimed).1
          simp [consumerSlotClaimed, hlt, hclaimed] at hfree
        · exact hreleased
      simp only [tryTakeover, hreleased, howner, and_self, if_true]
      exact .mine (entry_bumped ..)
    · rename_i hclaimed
      refine .others howner hne ?_
      simp only [consumerSlotClaimed, Bool.not_eq_true', Bool.not_eq_false,
        Bool.and_eq_true] at hclaimed
      exact hclaimed.2

theorem PopsAs.governed (h : PopsAs c r res r') (hc : r.directory.consumers c = true)
    (hg : Governed r.directory) : Governed r'.directory := by
  have hpeers := h.peers_eq
  simp only [peers, Prod.mk.injEq] at hpeers
  obtain ⟨-, -, -, hconsumers, hreleased⟩ := hpeers
  refine ⟨?_, ?_, ?_⟩
  · rw [hconsumers, hreleased]
    exact hg.live
  · intro ring o ho
    rw [hconsumers, hreleased]
    rcases h.owner ring o ho with ho | ho | rfl
    · exact hg.owner ring o ho
    · exact (hg.pending ring o ho).1
    · exact .inl hc
  · intro ring t ht
    obtain ⟨ht0, howner⟩ := h.pending ring t ht
    rw [hconsumers, hreleased, howner]
    exact hg.pending ring t ht0

/-- A ring's entry going to `c` or to the target of its handoff. -/
theorem PopsAs.entry (h : Entry r.directory idx (some o) none d)
    (ho : r.directory.pending idx = some o ∨ o = c) (e : RingError) :
    PopsAs c r (.error e) { r with directory := d } := by
  refine ⟨rfl, rfl, h.peers_eq, ?_, ?_⟩
  · intro ring o' ho'
    simp only [h.owner_eq, update_apply] at ho'
    split at ho'
    · rename_i hring
      subst hring
      cases ho'
      exact .inr ho
    · exact .inl ho'
  · intro ring t ht
    simp only [h.pending_eq, h.owner_eq, update_apply] at ht ⊢
    split at ht
    · cases ht
    · rename_i hring
      exact ⟨ht, if_neg hring⟩

inductive Take (c outLen idx : Nat) (r : AdaptiveRing α) :
    AdaptiveRing α × Option (Except RingError α) → Prop
  | took {x : α} {q : List α} (fits : spscPayload ≤ outLen) (head : r.mpmc[idx]? = some (x :: q)) :
      Take c outLen idx r ({ r with
        mpmc := r.mpmc.set idx q
        cursor := update r.cursor c ((idx + 1) % r.mpmc.length) }, some (.ok x))
  | dry (fits : spscPayload ≤ outLen) (nil : r.mpmc.getD idx [] = []) : Take c outLen idx r (r, none)
  | refused {e : RingError} (ne : e ≠ .empty) (short : outLen < spscPayload) :
      Take c outLen idx r (r, some (.error e))

theorem mpmcTake_cases (r : AdaptiveRing α) (c outLen idx : Nat) :
    Take c outLen idx r (r.mpmcTake c outLen idx) := by
  unfold mpmcTake
  split
  · rename_i x q hpop
    obtain ⟨hfits, hq⟩ := tryPop_ok hpop
    have hlt : idx < r.mpmc.length := by
      by_contra hge
      rw [getD_eq_default _ _ (not_lt.mp hge)] at hq
      cases hq
    rw [getD_eq_getElem _ _ hlt] at hq
    exact .took hfits (by rw [← hq]; exact getElem?_eq_getElem hlt)
  · rename_i hpop
    exact .dry (tryPop_empty hpop).1 (tryPop_empty hpop).2
  · rename_i hne hpop
    exact .refused (fun heq => hne heq) ((tryPop_error hpop).resolve_left fun heq => hne heq)

theorem Take.popsAs (h : Take c outLen idx r out) :
    PopsAs c r (out.2.getD (.error .empty)) out.1 := by
  cases h with
  | took hfits head => exact .still (.mpmc head) rfl rfl
  | dry => exact .refl c r .empty
  | refused => exact .refl c r _

/-- Only a buffer too short for a slot makes a visit fail. -/
theorem Take.settles (h : Take c outLen idx r out) (hout : out.2 = some (.error e)) :
    e ≠ .empty ∧ outLen < spscPayload := by
  cases h with
  | took | dry => cases hout
  | refused hne hshort =>
    cases hout
    exact ⟨hne, hshort⟩

theorem Visit.settles (h : Visit c outLen idx r out) (hout : out.2 = some (.error e)) :
    e ≠ .empty ∧ outLen < spscPayload := by
  cases h with
  | others | handed => cases hout
  | mine => exact (mpmcTake_cases _ c outLen idx).settles hout

theorem Visit.popsAs (h : Visit c outLen idx r out) :
    PopsAs c r (out.2.getD (.error .empty)) out.1 := by
  cases h with
  | others => exact .refl c r .empty
  | handed howner hpending entry => exact PopsAs.entry entry (.inl hpending) .empty
  | mine entry =>
    exact (PopsAs.entry entry (.inr rfl) .empty).trans (mpmcTake_cases _ c outLen idx).popsAs

/-- A read by `c` that found nothing passed ring `idx` by: another consumer owns it,
or a pending handoff was applied. -/
def Passed (c idx : Nat) (d d' : PeerDirectory) : Prop :=
  ∃ o, d.owner idx = some o ∧ d.consumers o = true ∧
    ((o ≠ c ∧ d'.owner idx = some o ∧ d'.pending idx = d.pending idx) ∨
      (o = c ∧ d.pending idx ≠ none ∧ d'.pending idx = none))

/-- A visit that goes on: the entries of other rings are as they were, and items
left in this one mean that it was passed by. -/
theorem Visit.goes_on (h : Visit c outLen idx r (r', none)) (hc : r.directory.consumers c = true) :
    (∀ ring, ring ≠ idx → r'.directory.owner ring = r.directory.owner ring ∧
      r'.directory.pending ring = r.directory.pending ring) ∧
    (r.mpmc.getD idx [] ≠ [] → Passed c idx r.directory r'.directory) := by
  generalize hout : (r', (none : Option (Except RingError α))) = out at h
  cases h with
  | others howner hne hclaimed =>
    cases hout
    exact ⟨fun _ _ => ⟨rfl, rfl⟩, fun _ => ⟨_, howner, hclaimed, .inl ⟨hne, howner, rfl⟩⟩⟩
  | handed howner hpending entry =>
    cases hout
    refine ⟨fun ring hring => entry.elsewhere hring, fun _ => ⟨c, howner, hc, .inr ⟨rfl, ?_, ?_⟩⟩⟩
    · rw [hpending]
      exact Option.some_ne_none _
    · simp [entry.pending_eq]
  | @mine d entry =>
    have htake := mpmcTake_cases { r with directory := d } c outLen idx
    rw [← hout] at htake
    cases htake with
    | dry hfits hempty =>
      exact ⟨fun ring hring => entry.elsewhere hring, fun hne => absurd hempty hne⟩

theorem stuckAt_claimed (h : r.stuckAt me idx = some stuck) :
    r.directory.consumers stuck.2 = true := by
  unfold stuckAt at h
  split at h
  · cases h
  split at h <;> cases h
  rename_i hstuck
  have hclaimed := hstuck.2.1
  simp only [consumerSlotClaimed, Bool.and_eq_true] at hclaimed
  exact hclaimed.2

/-- A stuck ring's owner is alive, so the probe takes nothing over. -/
theorem mpmcProbe_eq (c outLen : Nat) (h : ∀ s, stuck = some s → r.directory.released s.2 = false) :
    ∃ probes, r.mpmcProbe c outLen stuck = ({ r with probes := probes }, .error .empty) := by
  cases stuck with
  | none => exact ⟨r.probes, rfl⟩
  | some s =>
    refine ⟨update r.probes c (r.probes c + 1), ?_⟩
    simp [mpmcProbe, tryTakeover, h s rfl]

/-- What a scan over `idxs` that found nothing did to the entries. -/
structure Scanned (c : Nat) (idxs : List Nat) (r r' : AdaptiveRing α) : Prop where
  elsewhere : ∀ ring, ring ∉ idxs → r'.directory.owner ring = r.directory.owner ring ∧
    r'.directory.pending ring = r.directory.pending ring
  passed : ∀ idx ∈ idxs, r.mpmc.getD idx [] ≠ [] → Passed c idx r.directory r'.directory

theorem Scanned.nil (h : r'.directory = r.directory) : Scanned c [] r r' :=
  ⟨fun _ _ => by rw [h]; exact ⟨rfl, rfl⟩, fun _ hidx => absurd hidx not_mem_nil⟩

theorem Scanned.cons (hvisit : Visit c outLen idx r (r1, none))
    (hc : r.directory.consumers c = true) (hidx : idx ∉ idxs) (h : Scanned c idxs r1 r2) :
    Scanned c (idx :: idxs) r r2 := by
  obtain ⟨helse, hpassed⟩ := hvisit.goes_on hc
  have hpops : PopsAs c r (.error .empty) r1 := hvisit.popsAs
  have hmpmc : r1.mpmc = r.mpmc := congrArg Backings.mpmc hpops.held
  refine ⟨fun ring hring => ?_, fun i hi hne => ?_⟩
  · obtain ⟨hne, hnot⟩ := not_or.mp (mt mem_cons.mpr hring)
    obtain ⟨ho, hp⟩ := h.elsewhere ring hnot
    exact ⟨ho.trans (helse ring hne).1, hp.trans (helse ring hne).2⟩
  rcases mem_cons.mp hi with rfl | hmem
  · obtain ⟨o, howner, hclaimed, hentry⟩ := hpassed hne
    obtain ⟨ho, hp⟩ := h.elsewhere i hidx
    exact ⟨o, howner, hclaimed, by rwa [ho, hp]⟩
  · have hsame := helse i (fun heq => hidx (heq ▸ hmem))
    obtain ⟨o, howner, hclaimed, hentry⟩ := h.passed i hmem (by rwa [hmpmc])
    refine ⟨o, hsame.1 ▸ howner, ?_, by rwa [hsame.2] at hentry⟩
    rwa [← hpops.consumers_eq]

theorem mpmcScan_spec (hg : Governed r.directory) (hc : r.directory.consumers c = true)
    (hidxs : idxs.Nodup) (hstuck : ∀ s, stuck = some s → r.directory.consumers s.2 = true)
    (h : mpmcScan c outLen idxs stuck r = (r', res)) :
    PopsAs c r res r' ∧ (res = .error .empty → Scanned c idxs r r') ∧
      ∀ e, res = .error e → e = .empty ∨ outLen < spscPayload := by
  induction idxs generalizing stuck r with
  | nil =>
    obtain ⟨probes, hprobe⟩ := mpmcProbe_eq c outLen (fun s hs => (hg.live s.2 (hstuck s hs)).2)
    rw [mpmcScan, hprobe] at h
    cases h
    exact ⟨.still rfl rfl rfl, fun _ => .nil rfl, fun _ he => .inl (Except.error.inj he).symm⟩
  | cons idx idxs ih =>
    have hvisit := mpmcVisit_cases hg hc outLen idx
    obtain ⟨hidx, hrest⟩ := nodup_cons.mp hidxs
    rw [mpmcScan] at h
    cases hout : r.mpmcVisit c outLen idx with
    | mk r1 found =>
      rw [hout] at h hvisit
      have hpops := hvisit.popsAs
      cases found with
      | some res1 =>
        cases h
        exact ⟨hpops, fun hres => absurd rfl (hvisit.settles (congrArg some hres)).1,
          fun e he => .inr (hvisit.settles (congrArg some he)).2⟩
      | none =>
        have hpops : PopsAs c r (.error .empty) r1 := hpops
        have hstuck1 : ∀ s, stuck.or (r.stuckAt (c % 2 ^ 16) idx) = some s →
            r1.directory.consumers s.2 = true := by
          intro s hs
          rw [hpops.consumers_eq]
          rcases Option.or_eq_some_iff.mp hs with hs | ⟨-, hs⟩
          · exact hstuck s hs
          · exact stuckAt_claimed hs
        obtain ⟨hpops1, hscan, herror⟩ := ih (hpops.governed hc hg) (by rwa [hpops.consumers_eq]) hrest
          hstuck1 h
        exact ⟨hpops.trans hpops1, fun hres => .cons hvisit hc hidx (hscan hres), herror⟩

/-- What `Empty` from one shape says: a single-reader shape has been seen by its
reader only, a grid ring with items was passed by. -/
def FoundEmpty (c outLen : Nat) (r r' : AdaptiveRing α) : RingShape → Prop
  | .spsc => r.singleReader = c → spscPayload ≤ outLen ∧ r.spsc = []
  | .mpsc => r.singleReader = c → spscPayload ≤ outLen → ∀ q ∈ r.mpsc, q = []
  | .mpmc => ∀ idx, r.mpmc.getD idx [] ≠ [] → Passed c idx r.directory r'.directory
  | .vyukov => r.vyukov = []

section
variable (hg : Governed r.directory) (hc : r.directory.consumers c = true)
include hg hc

theorem mpmcPop_spec (h : r.mpmcPop c outLen = (r', res)) :
    PopsAs c r res r' ∧ (res = .error .empty → FoundEmpty c outLen r r' .mpmc) ∧
      ∀ e, res = .error e → e = .empty ∨ outLen < spscPayload := by
  rw [mpmcPop, if_neg (not_le.mpr (hg.live c hc).1)] at h
  obtain ⟨hpops, hscan, herror⟩ := mpmcScan_spec hg hc (scanOrder_nodup _ _) (by simp) h
  refine ⟨hpops, fun hres idx hne => (hscan hres).passed idx (mem_scanOrder.mpr ?_) hne, herror⟩
  by_contra hge
  exact hne (getD_eq_default _ _ (not_lt.mp hge))

theorem shapePop_spec {shape : RingShape} (h : r.shapePop shape c outLen = (r', res)) :
    PopsAs c r res r' ∧ (res = .error .empty → FoundEmpty c outLen r r' shape) ∧
      (res = .error .empty → shape ≠ .mpmc → r' = r) ∧
      ∀ e, res = .error e → e = .empty ∨ outLen < spscPayload := by
  unfold shapePop at h
  split at h
  · rename_i hwalk
    cases h
    refine ⟨.refl c r .empty, fun _ => ?_, fun _ _ => rfl, fun _ he => .inl (Except.error.inj he).symm⟩
    cases shape with
    | spsc | mpsc => exact fun hreader => by simp [mayWalkStale, hreader] at hwalk
    | mpmc | vyukov => simp [mayWalkStale] at hwalk
  cases shape with
  | spsc =>
    dsimp only at h
    split at h
    · rename_i hpop
      cases h
      exact ⟨.still (.spsc (tryPop_ok hpop).2) rfl rfl, nofun, nofun, nofun⟩
    rename_i hpop
    cases h
    refine ⟨.refl c r _, fun hres _ => ?_, fun _ _ => rfl, fun e he => ?_⟩
    · cases hres
      exact tryPop_empty hpop
    · cases he
      exact tryPop_error hpop
  | mpsc =>
    cases res with
    | ok x =>
      obtain ⟨-, idx, q, hq, rfl⟩ := mpscPop_ok h
      exact ⟨.still (.mpsc hq) rfl rfl, nofun, nofun, nofun⟩
    | error e =>
      obtain ⟨rfl, rfl, hempty⟩ := mpscPop_error h
      exact ⟨.refl c r' .empty, fun _ _ => hempty, fun _ _ => rfl,
        fun _ he => .inl (Except.error.inj he).symm⟩
  | mpmc =>
    obtain ⟨hpops, hempty, herror⟩ := mpmcPop_spec hg hc h
    exact ⟨hpops, hempty, fun _ hne => absurd rfl hne, herror⟩
  | vyukov =>
    dsimp only at h
    split at h
    · rename_i hpop
      cases h
      exact ⟨.still (.vyukov (tryPop_ok hpop).2) rfl rfl, nofun, nofun, nofun⟩
    rename_i hpop
    cases h
    refine ⟨.refl c r _, fun hres => ?_, fun _ _ => rfl, fun e he => ?_⟩
    · cases hres
      exact (tryPop_empty hpop).2
    · cases he
      exact (tryPop_error hpop).imp_right fun hlt => lt_trans hlt (by decide)

end

/-- The walk with the current shape at the end of the list. -/
def popFirst (c outLen : Nat) :
    List RingShape → AdaptiveRing α → AdaptiveRing α × Except RingError α
  | [], r => (r, .error .empty)
  | shape :: rest, r =>
    match r.shapePop shape c outLen with
    | (r, .error .empty) => popFirst c outLen rest r
    | res => res

theorem walk_eq_popFirst (current : RingShape) (c outLen : Nat) (shapes : List RingShape)
    (r : AdaptiveRing α) :
    walk current c outLen shapes r = popFirst c outLen (shapes ++ [current]) r := by
  induction shapes generalizing r with
  | nil =>
    rw [walk, nil_append, popFirst]
    split
    · rename_i heq
      rw [heq, popFirst]
    · rfl
  | cons shape rest ih =>
    rw [walk, cons_append, popFirst]
    cases hwalk : r.mayWalkStale shape c with
    | false =>
      have hpop : r.shapePop shape c outLen = (r, .error .empty) := by simp [shapePop, hwalk]
      rw [hpop]
      exact ih r
    | true =>
      rw [Bool.not_true, if_neg Bool.false_ne_true]
      obtain ⟨r', res⟩ := r.shapePop shape c outLen
      cases res with
      | ok payload => rfl
      | error e =>
        cases e with
        | empty => exact ih r'
        | _ => rfl

/-- A shape other than the grid reads the same once other shapes have been tried. -/
theorem FoundEmpty.congr {shape : RingShape} (hpops : PopsAs c' r (.error e) r1)
    (hshape : shape ≠ .mpmc) (h : FoundEmpty c outLen r1 r'' shape) :
    FoundEmpty c outLen r r' shape := by
  have hheld : r1.held = r.held := hpops.held
  have hreader : r1.singleReader = r.singleReader := congrArg (fun f => f.1.2.2) hpops.frame_eq
  cases shape with
  | spsc => rwa [FoundEmpty, ← hreader, ← show r1.spsc = r.spsc from congrArg Backings.spsc hheld]
  | mpsc => rwa [FoundEmpty, ← hreader, ← show r1.mpsc = r.mpsc from congrArg Backings.mpsc hheld]
  | mpmc => exact absurd rfl hshape
  | vyukov => rwa [FoundEmpty, ← show r1.vyukov = r.vyukov from congrArg Backings.vyukov hheld]

theorem popFirst_spec {shapes : List RingShape} (hg : Governed r.directory)
    (hc : r.directory.consumers c = true) (hshapes : shapes.Nodup)
    (h : popFirst c outLen shapes r = (r', res)) :
    PopsAs c r res r' ∧ (res = .error .empty → ∀ s ∈ shapes, FoundEmpty c outLen r r' s) ∧
      (res = .error .empty → .mpmc ∉ shapes → r' = r) ∧
      ∀ e, res = .error e → e = .empty ∨ outLen < spscPayload := by
  induction shapes generalizing r with
  | nil =>
    cases h
    exact ⟨.refl c _ .empty, fun _ s hs => absurd hs not_mem_nil, fun _ _ => rfl,
      fun _ he => .inl (Except.error.inj he).symm⟩
  | cons shape rest ih =>
    obtain ⟨hshape, hrest⟩ := nodup_cons.mp hshapes
    rw [popFirst] at h
    split at h
    · rename_i r1 hpop
      obtain ⟨hpops, hempty, hsame, -⟩ := shapePop_spec hg hc hpop
      obtain ⟨hpops', hempty', hsame', herror⟩ :=
        ih (hpops.governed hc hg) (by rwa [hpops.consumers_eq]) hrest h
      refine ⟨hpops.trans hpops', fun hres s hs => ?_, fun hres hnot => ?_, herror⟩
      · rcases mem_cons.mp hs with rfl | hs
        · by_cases hgrid : s = .mpmc
          · subst hgrid
            rw [hsame' hres hshape]
            exact hempty rfl
          · exact (hempty rfl).congr (.refl c r .empty) hgrid
        · by_cases hgrid : s = .mpmc
          · subst hgrid
            have hr : r1 = r := hsame rfl (fun heq => hshape (heq ▸ hs))
            exact hr ▸ hempty' hres _ hs
          · exact (hempty' hres s hs).congr hpops hgrid
      · obtain ⟨hne, hnot⟩ := not_or.mp (mt mem_cons.mpr hnot)
        rw [hsame' hres hnot, hsame rfl (Ne.symm hne)]
    · rename_i hsettled
      have hne : res ≠ .error .empty := fun hres => hsettled r' (by rw [h, hres])
      exact ⟨(shapePop_spec hg hc h).1, fun hres => absurd hres hne, fun hres => absurd hres hne,
        (shapePop_spec hg hc h).2.2.2⟩

theorem walked_nodup (r : AdaptiveRing α) (current : RingShape) :
    (r.otherUsedShapes current ++ [current]).Nodup := by
  have hall : RingShape.all.Nodup := by decide
  refine nodup_append'.mpr ⟨hall.filter _, nodup_singleton _, ?_⟩
  intro s hs hcurrent
  obtain rfl := mem_singleton.mp hcurrent
  simp [otherUsedShapes] at hs

theorem mem_walked (hr : r.Marked) :
    s ∈ r.otherUsedShapes r.shape ++ [r.shape] ↔ r.used s = true := by
  have hall : s ∈ RingShape.all := by cases s <;> decide
  simp only [otherUsedShapes, mem_append, mem_filter, hall, true_and, Bool.and_eq_true,
    bne_iff_ne, mem_singleton]
  by_cases hs : s = r.shape
  · subst hs
    simp only [ne_eq, not_true_eq_false, false_and, or_true, true_iff]
    exact hr
  · simp [hs]

/-- With a buffer long enough for any slot the only failure is `Empty`. -/
theorem tryRecv_spec (hg : Governed r.directory) (hc : r.directory.consumers c = true)
    (h : r.tryRecv c outLen = (r', res)) :
    PopsAs c r.ensureSynced res r' ∧ (res = .error .empty → r.ensureSynced.Marked →
      ∀ s, r.ensureSynced.used s = true → FoundEmpty c outLen r.ensureSynced r' s) ∧
      ∀ e, res = .error e → e = .empty ∨ outLen < spscPayload := by
  have hsync := r.ensureSynced_reshaped.1
  rw [tryRecv, walk_eq_popFirst] at h
  rw [← hsync.directory_eq] at hg hc
  obtain ⟨hpops, hempty, -, herror⟩ := popFirst_spec hg hc (walked_nodup _ _) h
  exact ⟨hpops, fun hres hmarked s hs => hempty hres s ((mem_walked hmarked).mpr hs), herror⟩

end AdaptiveRing
end SubEtha.Ring
