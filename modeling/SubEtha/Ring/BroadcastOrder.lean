import SubEtha.Ring.Broadcast

namespace SubEtha.Ring
open List Option BroadcastBacking
open Lib (run append_some modify_some map_modify map_modify_set flatten_at flatten_set)
open SharedBroadcastRing (Claimed)

section
variable {β : Type} {l : List (List β)}

theorem flatten_drop_nil (hafter : ∀ (g : Nat) (l' : List β), b < g → l[g]? = some l' → l' = []) :
    (l.drop (b + 1)).flatten = [] := by
  refine flatten_eq_nil_iff.mpr fun l' hl' => ?_
  obtain ⟨g, hg⟩ := mem_iff_getElem?.mp hl'
  rw [getElem?_drop] at hg
  exact hafter _ l' (by omega) hg

theorem flatten_take_nil (hbefore : ∀ (g : Nat) (l' : List β), g < b → l[g]? = some l' → l' = []) :
    (l.take b).flatten = [] := by
  refine flatten_eq_nil_iff.mpr fun l' hl' => ?_
  obtain ⟨g, hg⟩ := mem_iff_getElem?.mp hl'
  rw [getElem?_take] at hg
  split at hg
  · exact hbefore g l' ‹_› hg
  · cases hg

theorem flatten_set_append (h : l[b]? = some t)
    (hafter : ∀ (g : Nat) (l' : List β), b < g → l[g]? = some l' → l' = []) :
    (l.set b (t ++ [x])).flatten = l.flatten ++ [x] := by
  rw [flatten_set h, flatten_at h, flatten_drop_nil hafter]
  simp

theorem flatten_set_tail (h : l[b]? = some (x :: t))
    (hbefore : ∀ (g : Nat) (l' : List β), g < b → l[g]? = some l' → l' = []) :
    l.flatten = x :: (l.set b t).flatten := by
  rw [flatten_set h, flatten_at h, flatten_take_nil hbefore]
  rfl

end

namespace BroadcastBacking

def unread {β : Type} (c : Nat) (k : BroadcastBacking β) : List β := k.ring.unread k.log c

end BroadcastBacking

namespace CapacityBroadcast

variable {α : Type} {s s' : CapacityBroadcast α}

/-- What a consumer has received, and what it has not read yet of each backing. -/
def stream (s : CapacityBroadcast α) (c : Nat) : List (α × Nat) :=
  s.received c ++ (s.backings.map (BroadcastBacking.unread c)).flatten

/-- The state that a push has loaded: nothing lies in a later backing, a consumer
registered by then has a slot or gets it in the settle, and one registered since has seen
nothing yet. -/
structure HeldOk (s : CapacityBroadcast α) (state : BroadcastRingState) (registered : Nat) :
    Prop where
  bound : state.active < s.backings.length
  listed : state.active ∈ s.state.stale ∨ state.active = s.state.active
  last : ∀ (b : Nat) (k : BroadcastBacking (α × Nat)), s.backings[b]? = some k →
    state.active < b → k.log = []
  registered_le : registered ≤ s.nConsumers
  covered : ∀ k, s.backings[state.active]? = some k → k.settled = true →
    ∀ c, c < registered → (k.ring.consumers c).isSome = true
  quiet : ∀ c, registered ≤ c → s.stream c = []

structure Sound (s : CapacityBroadcast α) : Prop where
  rings : ∀ k ∈ s.backings, k.ring.Logs k.log
  active : s.state.active + 1 = s.backings.length
  few : s.nConsumers ≤ maxConsumers
  unregistered : ∀ c, s.nConsumers ≤ c →
    (∀ k ∈ s.backings, k.ring.consumers c = none) ∧ s.received c = []
  ascending : s.state.stale.Pairwise (· < ·)
  stale_lt : ∀ b ∈ s.state.stale, b < s.state.active
  /-- What someone has not read is on the list. -/
  listed : ∀ (b : Nat) (k : BroadcastBacking (α × Nat)) (c : Nat), s.backings[b]? = some k →
    k.unread c ≠ [] → b ∈ s.state.stale ∨ b = s.state.active
  covered : ∀ k, s.backings[s.state.active]? = some k → k.settled = true →
    ∀ c, c < s.nConsumers → (k.ring.consumers c).isSome = true
  held : ∀ state registered, s.held = some (state, registered) → HeldOk s state registered
  suffix : ∀ c, s.stream c <:+ s.accepted
  due : ∀ (c i : Nat) (e : α × Nat), s.accepted[i]? = some e → c < e.2 →
    s.accepted.length ≤ i + (s.stream c).length

/-- The backing has a slot for each of the first `m` consumers, once it is settled. -/
def Covers (s : CapacityBroadcast α) (g m : Nat) : Prop :=
  ∀ k, s.backings[g]? = some k → k.settled = true → ∀ c, c < m → (k.ring.consumers c).isSome = true

theorem onBacking_mem (h : k' ∈ (s.onBacking b f).backings) :
    ∃ k ∈ s.backings, k' = k ∨ s.backings[b]? = some k ∧ k' = f k := by
  obtain ⟨g, hg⟩ := mem_iff_getElem?.mp h
  obtain ⟨k, hk, rfl⟩ := modify_some hg
  refine ⟨k, mem_of_getElem? hk, ?_⟩
  split
  · subst b
    exact .inr ⟨hk, rfl⟩
  · exact .inl rfl

theorem onBacking_length : (s.onBacking b f).backings.length = s.backings.length := length_modify ..

theorem Covers.onBacking (h : Covers s g m)
    (hf : ∀ k, s.backings[g]? = some k → b = g → (f k).settled = true →
      ∀ c, c < m → ((f k).ring.consumers c).isSome = true) : Covers (s.onBacking b f) g m := by
  intro k' hk' hset c hc
  obtain ⟨k, hk, rfl⟩ := modify_some hk'
  split_ifs at hset ⊢ with hb
  · exact hf k hk hb hset c hc
  · exact h k hk hset c hc

theorem stream_onBacking (h : ∀ k, s.backings[b]? = some k → (f k).unread c = k.unread c) :
    (s.onBacking b f).stream c = s.stream c := by
  rw [stream, stream, onBacking, map_modify h]

theorem Sound.fresh_stream (hs : Sound s) (hc : s.nConsumers ≤ c) : s.stream c = [] := by
  obtain ⟨hnone, hreceived⟩ := hs.unregistered c hc
  rw [stream, hreceived, nil_append]
  refine flatten_eq_nil_iff.mpr fun l hl => ?_
  obtain ⟨k, hk, rfl⟩ := mem_map.mp hl
  rw [unread, SharedBroadcastRing.unread, hnone k hk]

theorem sound_create (capacity : Nat) (h : 0 < capacity) :
    Sound (create capacity h : CapacityBroadcast α) where
  rings k hk := by
    rw [create, mem_singleton] at hk
    subst hk
    exact SharedBroadcastRing.logs_create capacity h
  active := rfl
  few := Nat.zero_le _
  unregistered c _ := by
    refine ⟨fun k hk => ?_, rfl⟩
    rw [create, mem_singleton] at hk
    subst hk
    rfl
  ascending := .nil
  stale_lt _ hb := by cases hb
  listed b k c hk _ := by
    have hb : b < 1 := lt_of_some hk
    exact .inr (Nat.lt_one_iff.mp hb)
  covered _ _ _ c hc := absurd hc (Nat.not_lt_zero c)
  held _ _ h := by cases h
  suffix _ := suffix_rfl
  due _ _ _ he := by cases he

theorem Sound.load (hs : Sound s) : Sound { s with held := some (s.state, s.nConsumers) } where
  __ := hs
  held state registered h := by
    cases h
    have hactive := hs.active
    exact { hs with
      bound := by dsimp only; omega
      listed := .inr rfl
      last := fun b k hk hlt => by
        have hb := lt_of_some hk
        dsimp only at hb
        omega
      registered_le := Nat.le_refl _
      quiet := fun c hc => hs.fresh_stream hc }

theorem Sound.unheld (hs : Sound s) : Sound { s with held := none } :=
  { hs with held := by simp }

section
variable (hs : Sound s) (hn : s.nConsumers ≤ n) (hfew : n ≤ maxConsumers)
include hs hn hfew

theorem Sound.touch
    (hkeep : ∀ k, s.backings[b]? = some k → (f k).ring.Logs k.log ∧ (f k).log = k.log ∧
      (∀ c, k.unread c = [] → (f k).unread c = []) ∧
      ∀ c, n ≤ c → k.ring.consumers c = none → (f k).ring.consumers c = none)
    (hgot : ∀ c, n ≤ c → got c = [])
    (hstream : ∀ c, ({ s.onBacking b f with
      nConsumers := n, received := got } : CapacityBroadcast α).stream c = s.stream c)
    (hcovered : Covers (s.onBacking b f) s.state.active n)
    (hheld : ∀ state registered, s.held = some (state, registered) →
      Covers (s.onBacking b f) state.active registered) :
    Sound { s.onBacking b f with nConsumers := n, received := got } := by
  refine { hs with
    rings := fun k' hk' => ?_
    active := hs.active.trans onBacking_length.symm
    few := hfew
    unregistered := fun c hc => ⟨fun k' hk' => ?_, hgot c hc⟩
    listed := fun g k' c hk' hne => ?_
    covered := hcovered
    held := fun state registered h => ?_
    suffix := fun c => by rw [hstream]; exact hs.suffix c
    due := fun c => by rw [hstream]; exact hs.due c }
  · obtain ⟨k, hk, rfl | ⟨hkb, rfl⟩⟩ := onBacking_mem hk'
    · exact hs.rings _ hk
    · rw [(hkeep k hkb).2.1]
      exact (hkeep k hkb).1
  · obtain ⟨k, hk, hk'⟩ := onBacking_mem hk'
    have hnone := (hs.unregistered c (Nat.le_trans hn hc)).1 k hk
    rcases hk' with rfl | ⟨hkb, rfl⟩
    · exact hnone
    · exact (hkeep k hkb).2.2.2 c hc hnone
  · obtain ⟨k, hk, rfl⟩ := modify_some hk'
    refine hs.listed g k c hk fun hnil => hne ?_
    split
    · subst b
      exact (hkeep k hk).2.2.1 c hnil
    · exact hnil
  have hold := hs.held state registered h
  refine { hold with
    bound := by rw [onBacking_length]; exact hold.bound
    last := fun g k' hk' hlt => ?_
    registered_le := Nat.le_trans hold.registered_le hn
    covered := hheld state registered h
    quiet := fun c hc => (hstream c).trans (hold.quiet c hc) }
  obtain ⟨k, hk, rfl⟩ := modify_some hk'
  split
  · subst b
    exact (hkeep k hk).2.1.trans (hold.last g k hk hlt)
  · exact hold.last g k hk hlt

/-- A step that claims slots on one backing, for indices below the count after it. -/
theorem Sound.claim
    (hclaim : ∀ k, s.backings[b]? = some k → Claimed k.ring (f k).ring k.log ∧ (f k).log = k.log)
    (hnone : ∀ k c, s.backings[b]? = some k → n ≤ c → (f k).ring.consumers c = k.ring.consumers c)
    (hcovered : Covers (s.onBacking b f) s.state.active n)
    (hheld : ∀ state registered, s.held = some (state, registered) →
      Covers (s.onBacking b f) state.active registered) :
    Sound { s.onBacking b f with nConsumers := n } := by
  have hunread : ∀ k, s.backings[b]? = some k → ∀ c, (f k).unread c = k.unread c := by
    intro k hk c
    rw [unread, (hclaim k hk).2]
    exact (hclaim k hk).1.unread c
  exact hs.touch hn hfew (fun k hk => ⟨(hclaim k hk).1.logs, (hclaim k hk).2,
      fun c => (hunread k hk c).trans, fun c hc => (hnone k c hk hc).trans⟩)
    (fun c hc => (hs.unregistered c (Nat.le_trans hn hc)).2)
    (fun c => stream_onBacking fun k hk => hunread k hk c) hcovered hheld

end

section
variable {β : Type} {k : BroadcastBacking β}

theorem settle_spec (h : k.ring.Logs k.log) (n : Nat) :
    (Claimed k.ring (k.settle n).ring k.log ∧ (k.settle n).log = k.log) ∧
      (k.settle n).settled = true ∧
      (∀ c, n ≤ c → (k.settle n).ring.consumers c = k.ring.consumers c) ∧ (k.settled = true ∨
        ∀ c, c < n → c < maxConsumers → ((k.settle n).ring.consumers c).isSome = true) := by
  unfold BroadcastBacking.settle
  split
  · rename_i hsettled
    exact ⟨⟨⟨h, fun _ => rfl, fun _ hc => hc⟩, rfl⟩, hsettled, fun _ _ => rfl, .inl hsettled⟩
  obtain ⟨hclaimed, hsome, hother⟩ := h.claims (range (min n maxConsumers))
  refine ⟨⟨hclaimed, rfl⟩, rfl, fun c hc => hother c ?_, .inr fun c hc hmax => hsome c ?_ hmax⟩
  · rw [mem_range]
    omega
  · rw [mem_range]
    omega

end

/-- A backing that a settle marks has a slot for everyone registered by then. -/
theorem Sound.settle_covers (hs : Sound s) (hr : registered ≤ s.nConsumers)
    (hcovered : Covers s g registered) : Covers (s.settle b) g registered := by
  refine hcovered.onBacking fun k hk _ _ c hc => ?_
  obtain ⟨hclaim, -, -, hmarked | hall⟩ :=
    settle_spec (hs.rings k (mem_of_getElem? hk)) s.nConsumers
  · exact hclaim.1.kept c (hcovered k hk hmarked c hc)
  · have hfew := hs.few
    exact hall c (by omega) (by omega)

theorem Sound.settle (hs : Sound s) (b : Nat) : Sound (s.settle b) := by
  have hspec : ∀ k, s.backings[b]? = some k → _ := fun k hk =>
    settle_spec (hs.rings k (mem_of_getElem? hk)) s.nConsumers
  refine hs.claim (Nat.le_refl _) hs.few (fun k hk => (hspec k hk).1)
    (fun k c hk => (hspec k hk).2.2.1 c) (hs.settle_covers (Nat.le_refl _) hs.covered) ?_
  intro state registered h
  have hold := hs.held state registered h
  exact hs.settle_covers hold.registered_le hold.covered

theorem Sound.registerConsumer (hs : Sound s) : Sound s.registerConsumer := by
  unfold CapacityBroadcast.registerConsumer
  split
  · exact hs
  rename_i hroom
  have hkept : ∀ (k : BroadcastBacking (α × Nat)) (c : Nat), k ∈ s.backings →
      (k.ring.consumers c).isSome = true →
      ((k.ring.claimConsumerSlot s.nConsumers).consumers c).isSome = true :=
    fun k c hk => ((hs.rings k hk).claim s.nConsumers).kept c
  refine hs.claim (Nat.le_succ _) (by omega)
    (fun k hk => ⟨(hs.rings k (mem_of_getElem? hk)).claim _, rfl⟩)
    (fun k c _ hc => SharedBroadcastRing.claim_other k.ring (by omega)) ?_ ?_
  · intro k' hk' hsettled c hc
    obtain ⟨k, hk, rfl⟩ := modify_some hk'
    rw [if_pos rfl] at hsettled ⊢
    rcases Nat.lt_or_ge c s.nConsumers with hlt | hge
    · exact hkept k c (mem_of_getElem? hk) (hs.covered k hk hsettled c hlt)
    have hc : c = s.nConsumers := by omega
    subst hc
    exact SharedBroadcastRing.claim_isSome k.ring (by omega)
  · intro state registered h
    have hold : Covers s state.active registered := (hs.held state registered h).covered
    exact hold.onBacking fun k hk _ hsettled c hc =>
      hkept k c (mem_of_getElem? hk) (hold k hk hsettled c hc)

section
variable {k : BroadcastBacking (α × Nat)} {ring : SharedBroadcastRing (α × Nat)}

theorem unread_append (hlogs : k.ring.Logs k.log) (hsame : ring.consumers = k.ring.consumers)
    (hc : k.ring.consumers c = some cursor) :
    ({ k with ring := ring, log := k.log ++ [x] } : BroadcastBacking (α × Nat)).unread c =
      k.unread c ++ [x] := by
  have hle := (hlogs.cursors c cursor hc).2.1
  rw [unread, unread, SharedBroadcastRing.unread, SharedBroadcastRing.unread, hsame, hc]
  exact drop_append_of_le_length hle

theorem unread_none (hc : k.ring.consumers c = none) : k.unread c = [] := by
  rw [unread, SharedBroadcastRing.unread, hc]

section
variable (hs : Sound s) {b registered : Nat} {state : BroadcastRingState}
  (hold : HeldOk s state registered) (hb : state.active = b) (hk : s.backings[b]? = some k)
  (hsettled : k.settled = true)
include hs hold hb hk hsettled

theorem Sound.stream_write (hsame : ring.consumers = k.ring.consumers) (c : Nat) :
    ((s.onBacking b fun k => { k with ring := ring, log := k.log ++ [x] }).stream c =
        s.stream c ++ [x]) ∨ registered ≤ c ∧
        (s.onBacking b fun k => { k with ring := ring, log := k.log ++ [x] }).stream c = [] := by
  subst hb
  have hlogs := hs.rings k (mem_of_getElem? hk)
  cases hc : k.ring.consumers c with
  | some cursor =>
    refine .inl ?_
    have hpart : (s.backings.map (unread c))[state.active]? = some (k.unread c) := by
      rw [getElem?_map, hk]
      rfl
    rw [stream, onBacking, map_modify_set _ hk, unread_append hlogs hsame hc,
      flatten_set_append hpart, ← append_assoc]
    · rfl
    intro g l hg hl
    rw [getElem?_map] at hl
    obtain ⟨k', hk', rfl⟩ := map_eq_some_iff.mp hl
    have hempty := hold.last g k' hk' hg
    rw [unread, SharedBroadcastRing.unread, hempty]
    split
    · rfl
    · exact drop_nil
  | none =>
    have hge : registered ≤ c := by
      by_contra hlt
      have hsome := hold.covered k hk hsettled c (Nat.lt_of_not_le hlt)
      rw [hc] at hsome
      cases hsome
    refine .inr ⟨hge, ?_⟩
    rw [stream_onBacking, hold.quiet c hge]
    intro k' hk'
    cases hk.symm.trans hk'
    rw [unread_none hc]
    exact unread_none (hsame ▸ hc)

theorem Sound.write (hx : x.2 = registered) (hlogs : ring.Logs (k.log ++ [x]))
    (hsame : ring.consumers = k.ring.consumers) :
    Sound { s.onBacking b fun k => { k with ring := ring, log := k.log ++ [x] } with
      accepted := s.accepted ++ [x]
      held := none } := by
  have hstream := hs.stream_write hold hb hk hsettled hsame (x := x)
  subst hb
  refine { hs with
    rings := fun k' hk' => ?_
    active := hs.active.trans onBacking_length.symm
    unregistered := fun c hc => ⟨fun k' hk' => ?_, (hs.unregistered c hc).2⟩
    listed := fun g k' c hk' hne => ?_
    covered := Covers.onBacking hs.covered fun k' hk' hg hset c hc => ?_
    held := nofun
    suffix := fun c => ?_
    due := fun c i e he hlt => ?_ }
  · obtain ⟨k0, hk0, rfl | ⟨hkb, rfl⟩⟩ := onBacking_mem hk'
    · exact hs.rings _ hk0
    · cases hk.symm.trans hkb
      exact hlogs
  · obtain ⟨k0, hk0, rfl | ⟨hkb, rfl⟩⟩ := onBacking_mem hk'
    · exact (hs.unregistered c hc).1 _ hk0
    · cases hk.symm.trans hkb
      exact (congrFun hsame c).trans ((hs.unregistered c hc).1 k hk0)
  · obtain ⟨k0, hk0, rfl⟩ := modify_some hk'
    split at hne
    · rename_i hg
      exact hg ▸ hold.listed
    · exact hs.listed g k0 c hk0 hne
  · rw [hg] at hk
    cases hk.symm.trans hk'
    exact (congrArg Option.isSome (congrFun hsame c)).trans (hs.covered k hk' hset c hc)
  · rcases hstream c with hc | ⟨-, hc⟩
    · obtain ⟨p, hp⟩ := hs.suffix c
      refine ⟨p, ?_⟩
      rw [← hp, append_assoc]
      exact congrArg (p ++ ·) hc
    · exact ⟨s.accepted ++ [x], (congrArg (_ ++ ·) hc).trans (append_nil _)⟩
  rw [length_append, length_singleton]
  have hcases := append_some he
  rcases hstream c with hc | ⟨hge, hc⟩
  · have hlen := congrArg length hc
    rw [length_append, length_singleton] at hlen
    refine Nat.le_trans ?_ (Nat.le_of_eq (congrArg (i + ·) hlen.symm))
    rcases hcases with hold | ⟨rfl, -⟩
    · have hdue := hs.due c i e hold hlt
      omega
    · omega
  · rcases hcases with hentry | ⟨-, rfl⟩
    · have hdue := hs.due c i e hentry hlt
      rw [hold.quiet c hge] at hdue
      have hbound := lt_of_some hentry
      rw [length_nil] at hdue
      omega
    · omega

end
end

theorem Sound.push (hs : Sound s) {state : BroadcastRingState}
    (hheld : s.held = some (state, registered)) (len : Nat) (payload : α) :
    Sound (s.push state.active registered len payload) := by
  have hsettled := hs.settle state.active
  unfold CapacityBroadcast.push
  dsimp only
  split
  · exact hsettled.unheld
  rename_i k hk
  split
  · exact hsettled.unheld
  rename_i ring hpush
  obtain ⟨hlogs, hsame⟩ := (hsettled.rings k (mem_of_getElem? hk)).push hpush
  obtain ⟨k0, hk0, hmarked⟩ := modify_some hk
  rw [if_pos rfl] at hmarked
  have hset := (settle_spec (hs.rings k0 (mem_of_getElem? hk0)) s.nConsumers).2.1
  exact hsettled.write (hsettled.held state registered hheld) rfl hk (hmarked ▸ hset) rfl
    hlogs hsame

variable {ring : SharedBroadcastRing (α × Nat)} {k : BroadcastBacking (α × Nat)} {x : α × Nat}

/-- A receive moves the oldest unread item of a consumer to what it has received. -/
theorem Sound.stream_took (hs : Sound s) (hk : s.backings[b]? = some k)
    (hrecv : k.ring.tryRecv idx = .ok (x, ring))
    (hbefore : ∀ (g : Nat) (k' : BroadcastBacking (α × Nat)), g < b → s.backings[g]? = some k' →
      k'.unread idx = []) (c : Nat) : (s.took idx b x ring).stream c = s.stream c := by
  obtain ⟨-, htail, hothers, -⟩ := (hs.rings k (mem_of_getElem? hk)).recv_ok hrecv
  by_cases hc : c = idx
  · subst hc
    have hpart : (s.backings.map (unread c))[b]? = some (x :: ring.unread k.log c) := by
      rw [getElem?_map, hk, ← htail]
      rfl
    have hsplit := flatten_set_tail hpart fun g l hg hl => by
      rw [getElem?_map] at hl
      obtain ⟨k', hk', rfl⟩ := map_eq_some_iff.mp hl
      exact hbefore g k' hg hk'
    unfold stream took
    dsimp only
    rw [if_pos rfl, hsplit, onBacking, map_modify_set _ hk, append_assoc]
    rfl
  · unfold took
    refine Eq.trans ?_ (stream_onBacking (b := b) (f := fun k => { k with ring := ring })
      (fun k' hk' => ?_))
    · unfold stream
      dsimp only
      rw [if_neg hc]
      rfl
    · cases hk.symm.trans hk'
      exact hothers c hc

theorem Sound.took (hs : Sound s) (hk : s.backings[b]? = some k)
    (hrecv : k.ring.tryRecv idx = .ok (x, ring))
    (hbefore : ∀ (g : Nat) (k' : BroadcastBacking (α × Nat)), g < b → s.backings[g]? = some k' →
      k'.unread idx = []) : Sound (s.took idx b x ring) := by
  have hstream := hs.stream_took hk hrecv hbefore
  have hmem := mem_of_getElem? hk
  obtain ⟨hlogs, htail, hothers, hsome⟩ := (hs.rings k hmem).recv_ok hrecv
  have hslot : idx < s.nConsumers := by
    by_contra hge
    have hnone := (hs.unregistered idx (Nat.le_of_not_lt hge)).1 k hmem
    rw [SharedBroadcastRing.unread, hnone] at htail
    cases htail
  have hcovers : ∀ {g m : Nat}, Covers s g m → Covers (s.took idx b x ring) g m := by
    intro g m hold
    refine Covers.onBacking hold fun k' hk' hb hset c hc => ?_
    subst hb
    cases hk.symm.trans hk'
    exact (hsome c).trans (hold k hk' hset c hc)
  refine hs.touch (Nat.le_refl s.nConsumers) hs.few (fun k' hk' => ?_) (fun c hc => ?_) hstream
    (hcovers hs.covered) fun state registered h => hcovers (hs.held state registered h).covered
  · cases hk.symm.trans hk'
    refine ⟨hlogs, rfl, fun c hc => ?_, fun c _ hc => ?_⟩
    · refine (hothers c fun hci => ?_).trans hc
      rw [hci, unread, htail] at hc
      cases hc
    · have hisNone := hsome c
      rw [hc] at hisNone
      exact isNone_iff_eq_none.mp (isSome_eq_false_iff.mp hisNone)
  · have hne : c ≠ idx := Nat.ne_of_gt (Nat.lt_of_lt_of_le hslot hc)
    exact (if_neg hne).trans (hs.unregistered c hc).2

section
variable {backings : List (BroadcastBacking (α × Nat))} {idx : Nat}

/-- How a stale walk ends: every backing of the list is drained for the consumer, or one
gives an item and those before it are drained, or the index is past the table. -/
inductive Walked (backings : List (BroadcastBacking (α × Nat))) (idx : Nat) (stale : List Nat) :
    Option (Except BroadcastError (Nat × (α × Nat) × SharedBroadcastRing (α × Nat))) → Prop where
  | drained (h : ∀ b ∈ stale, ∀ k, backings[b]? = some k → k.unread idx = []) :
    Walked backings idx stale none
  | found {pre post : List Nat} {b : Nat} {k : BroadcastBacking (α × Nat)} {x : α × Nat}
      {ring : SharedBroadcastRing (α × Nat)} (hsplit : stale = pre ++ b :: post)
      (hk : backings[b]? = some k) (hrecv : k.ring.tryRecv idx = .ok (x, ring))
      (h : ∀ g ∈ pre, ∀ k', backings[g]? = some k' → k'.unread idx = []) :
    Walked backings idx stale (some (.ok (b, x, ring)))
  | refused (h : maxConsumers ≤ idx) :
    Walked backings idx stale (some (.error .invalidConsumer))

theorem Walked.cons (hb : ∀ k, backings[b]? = some k → k.unread idx = [])
    (h : Walked backings idx stale r) : Walked backings idx (b :: stale) r := by
  cases h with
  | drained h =>
    refine .drained fun g hg => ?_
    rcases mem_cons.mp hg with rfl | hg
    · exact hb
    · exact h g hg
  | @found pre post g _ _ _ hsplit hk hrecv h =>
    have hsplit' : b :: stale = (b :: pre) ++ g :: post := congrArg (b :: ·) hsplit
    refine .found hsplit' hk hrecv fun g hg => ?_
    rcases mem_cons.mp hg with rfl | hg
    · exact hb
    · exact h g hg
  | refused h => exact .refused h

theorem walkStale_walked (hrings : ∀ k ∈ backings, k.ring.Logs k.log) (idx : Nat)
    (stale : List Nat) :
    ∃ r, walkStale backings idx stale = some r ∧ Walked backings idx stale r := by
  induction stale with
  | nil => exact ⟨none, rfl, .drained nofun⟩
  | cons b stale ih =>
    obtain ⟨r, hwalk, hr⟩ := ih
    unfold walkStale
    cases hk : backings[b]? with
    | none => exact ⟨r, hwalk, hr.cons fun k hk' => by rw [hk] at hk'; cases hk'⟩
    | some k =>
      dsimp only
      have hlogs := hrings k (mem_of_getElem? hk)
      cases hrecv : k.ring.tryRecv idx with
      | ok res =>
        have hsplit : b :: stale = [] ++ b :: stale := rfl
        exact ⟨_, rfl, .found hsplit hk hrecv nofun⟩
      | error e =>
        obtain ⟨hunread, hwhy⟩ := hlogs.recv_error hrecv
        have hb : ∀ k', backings[b]? = some k' → k'.unread idx = [] := by
          intro k' hk'
          cases hk.symm.trans hk'
          exact hunread
        rcases hwhy with ⟨rfl, hlag⟩ | ⟨rfl, -⟩
        · rw [if_pos hlag]
          exact ⟨r, hwalk, hr.cons hb⟩
        dsimp only
        split
        · exact ⟨r, hwalk, hr.cons hb⟩
        · rename_i hidx
          exact ⟨_, rfl, .refused (Nat.le_of_not_lt hidx)⟩

end

theorem Sound.tryRecv (hs : Sound s) (idx : Nat) :
    ∃ s' r, s.tryRecv idx = some (s', r) ∧ Sound s' := by
  obtain ⟨r, hwalk, hr⟩ := walkStale_walked hs.rings idx s.state.stale
  unfold CapacityBroadcast.tryRecv
  rw [hwalk, map_some]
  cases hr with
  | drained hdrained =>
    have hsettled := hs.settle s.state.active
    dsimp only
    split
    · exact ⟨_, _, rfl, hsettled⟩
    rename_i k hk
    split
    · exact ⟨_, _, rfl, hsettled⟩
    rename_i x ring hrecv
    refine ⟨_, _, rfl, hsettled.took hk hrecv fun g k' hlt hk' => ?_⟩
    by_contra hne
    rcases hsettled.listed g k' idx hk' hne with hstale | hactive
    · obtain ⟨k0, hk0, rfl⟩ := modify_some hk'
      have hg : s.state.active ≠ g := Nat.ne_of_gt hlt
      rw [if_neg hg] at hne
      exact hne (hdrained g hstale k0 hk0)
    · exact absurd hactive (Nat.ne_of_lt hlt)
  | @found pre post b k x ring hsplit hk hrecv hpre =>
    refine ⟨_, _, rfl, hs.took hk hrecv fun g k' hlt hk' => ?_⟩
    by_contra hne
    have hb : b ∈ s.state.stale := by
      rw [hsplit]
      exact mem_append_right _ (mem_cons_self ..)
    have hascending := hs.ascending
    rcases hs.listed g k' idx hk' hne with hstale | hactive
    · rw [hsplit, pairwise_append, pairwise_cons] at hascending
      rw [hsplit] at hstale
      rcases mem_append.mp hstale with hg | hg
      · exact hne (hpre g hg k' hk')
      rcases mem_cons.mp hg with rfl | hg
      · exact Nat.lt_irrefl _ hlt
      · have hgt := hascending.2.1.1 g hg
        omega
    · have hactive' := hs.stale_lt b hb
      omega
  | refused => exact ⟨_, _, rfl, hs⟩

theorem prune_sublist (s : CapacityBroadcast α) (others : List Nat) :
    (s.prune others).Sublist s.state.stale :=
  filter_sublist

section
variable (hs : Sound s)
include hs

/-- The prune keeps a backing that someone has not drained, and the one that the producer
is about to write. -/
theorem Sound.mem_prune (hb : b ∈ s.state.stale)
    (hneeded : (∃ k c, s.backings[b]? = some k ∧ k.unread c ≠ []) ∨
      ∃ state registered, s.held = some (state, registered) ∧ state.active = b) :
    b ∈ s.prune others := by
  refine mem_filter.mpr ⟨hb, ?_⟩
  rcases hneeded with ⟨k, c, hk, hne⟩ | ⟨state, registered, hheld, rfl⟩
  · have hdrained : k.ring.isFullyDrained = false := by
      refine Bool.eq_false_iff.mpr fun hdrained => hne ?_
      exact (hs.rings k (mem_of_getElem? hk)).drained hdrained c
    rw [hk, all_some, hdrained]
    rfl
  · have hne : state.active ≠ s.state.active := Nat.ne_of_lt (hs.stale_lt _ hb)
    simp [heldElsewhere, hheld, hne]

theorem Sound.extend (hlogs : k.ring.Logs k.log) (hlog : k.log = [])
    (hfresh : ∀ c, k.ring.consumers c = none) (hunsettled : k.settled = false) (capacity : Nat)
    (others : List Nat) : Sound { s with
      backings := s.backings ++ [k]
      state := ⟨s.backings.length, s.prune others ++ [s.state.active], capacity⟩ } := by
  have hmem : ∀ k' ∈ s.backings ++ [k], k' ∈ s.backings ∨ k' = k := fun k' hk' =>
    (mem_append.mp hk').imp_right mem_singleton.mp
  have hstream : ∀ c, ({ s with
      backings := s.backings ++ [k]
      state := ⟨s.backings.length, s.prune others ++ [s.state.active], capacity⟩ } :
        CapacityBroadcast α).stream c = s.stream c := by
    intro c
    unfold stream
    rw [map_append, flatten_append, map_singleton, unread_none (hfresh c)]
    simp
  have hactive := hs.active
  have hnew : ∀ b, b ∈ s.prune others ∨ b = s.state.active →
      b ∈ s.prune others ++ [s.state.active] := fun b hb =>
    mem_append.mpr (hb.imp_right mem_singleton.mpr)
  refine { hs with
    rings := fun k' hk' => ?_
    active := by dsimp only; rw [length_append, length_singleton]
    unregistered := fun c hc => ⟨fun k' hk' => ?_, (hs.unregistered c hc).2⟩
    ascending := ?_
    stale_lt := fun b hb => ?_
    listed := fun g k' c hk' hne => ?_
    covered := fun k' hk' hset => ?_
    held := fun state registered h => ?_
    suffix := fun c => by rw [hstream]; exact hs.suffix c
    due := fun c => by rw [hstream]; exact hs.due c }
  · rcases hmem k' hk' with hold | rfl
    · exact hs.rings k' hold
    · exact hlogs
  · rcases hmem k' hk' with hold | rfl
    · exact (hs.unregistered c hc).1 k' hold
    · exact hfresh c
  · have hsub := prune_sublist s others
    refine pairwise_append.mpr ⟨hs.ascending.sublist hsub, pairwise_singleton .., ?_⟩
    intro b hb b' hb'
    rw [mem_singleton.mp hb']
    exact hs.stale_lt b (hsub.subset hb)
  · dsimp only at hb ⊢
    rcases mem_append.mp hb with hb | hb
    · have hlt := hs.stale_lt b ((prune_sublist s others).subset hb)
      omega
    · rw [mem_singleton.mp hb]
      omega
  · rcases append_some hk' with hold | ⟨-, rfl⟩
    · refine .inl (hnew g ((hs.listed g k' c hold hne).imp_left fun hstale => ?_))
      exact hs.mem_prune hstale (.inl ⟨k', c, hold, hne⟩)
    · exact absurd (unread_none (hfresh c)) hne
  · rw [getElem?_concat_length] at hk'
    cases hk'
    rw [hunsettled] at hset
    cases hset
  have hold := hs.held state registered h
  have hbound := hold.bound
  exact { hold with
    bound := by dsimp only; rw [length_append]; omega
    listed := .inl (hnew _ (hold.listed.imp_left fun hstale =>
      hs.mem_prune hstale (.inr ⟨state, registered, h, rfl⟩)))
    last := fun g k' hk' hlt => by
      rcases append_some hk' with hold' | ⟨-, rfl⟩
      · exact hold.last g k' hold' hlt
      · exact hlog
    covered := fun k' hk' => by
      rw [getElem?_append_left hbound] at hk'
      exact hold.covered k' hk'
    quiet := fun c hc => (hstream c).trans (hold.quiet c hc) }

theorem Sound.morphCapacityTo (capacity : Nat) (others : List Nat) :
    Sound (s.morphCapacityTo capacity others) := by
  unfold CapacityBroadcast.morphCapacityTo
  split
  · rename_i hvalid
    have hpos := Nat.lt_of_lt_of_le Nat.zero_lt_two hvalid.1.2
    exact hs.extend (k := backing capacity hpos false)
      (SharedBroadcastRing.logs_create capacity hpos) rfl (fun _ => rfl) rfl _ _
  · exact hs

theorem Sound.step (e : BroadcastEvent α) : ∃ s', s.step e = some s' ∧ Sound s' := by
  cases e with
  | load =>
    rw [CapacityBroadcast.step]
    split
    · exact ⟨_, rfl, hs.load⟩
    · exact ⟨_, rfl, hs⟩
  | push payload len =>
    rw [CapacityBroadcast.step]
    split
    · exact ⟨_, rfl, hs⟩
    · rename_i state registered hheld
      exact ⟨_, rfl, hs.push hheld len payload⟩
  | registerConsumer => exact ⟨_, rfl, hs.registerConsumer⟩
  | morphCapacityTo capacity others => exact ⟨_, rfl, hs.morphCapacityTo capacity others⟩
  | tryRecv idx =>
    obtain ⟨s', r, hrecv, hsound⟩ := hs.tryRecv idx
    refine ⟨s', ?_, hsound⟩
    rw [CapacityBroadcast.step, hrecv]
    rfl

/-- What a consumer has received is part of its stream, a final run of what was accepted. -/
theorem Sound.received_run (c : Nat) :
    ∃ lo, s.received c = (s.accepted.drop lo).take (s.received c).length ∧
      ∀ (i : Nat) (e : α × Nat), s.accepted[i]? = some e → c < e.2 → lo ≤ i := by
  obtain ⟨p, hp⟩ := hs.suffix c
  have hlen := congrArg length hp
  rw [length_append] at hlen
  refine ⟨p.length, ?_, fun i e he hc => ?_⟩
  · rw [← hp, drop_left, stream, take_left]
  · have hdue := hs.due c i e he hc
    omega

end

/-- In every interleaving of loads, pushes, registrations, morphs and receives, what each
consumer has received is one contiguous run of the accepted payloads in push order, which
starts no later than the first accepted push that loaded the state after the consumer had
registered; and every call returns. -/
theorem consumers_receive_runs {capacity : Nat} {hpos : 0 < capacity}
    {events : List (BroadcastEvent α)} {s : CapacityBroadcast α}
    (hrun : run step (create capacity hpos) events = some s) :
    (∀ c, c < s.nConsumers → ∃ lo, s.received c = (s.accepted.drop lo).take (s.received c).length ∧
        ∀ (i : Nat) (e : α × Nat), s.accepted[i]? = some e → c < e.2 → lo ≤ i) ∧
    ∀ e, ∃ s', s.step e = some s' := by
  have hs : Sound s := by
    refine Lib.run_preserves (fun t e t' ht hstep => ?_) (sound_create capacity hpos) hrun
    obtain ⟨t1, ht1, hsound⟩ := ht.step e
    cases ht1.symm.trans hstep
    exact hsound
  refine ⟨fun c _ => hs.received_run c, fun e => ?_⟩
  obtain ⟨s', hs', -⟩ := hs.step e
  exact ⟨s', hs'⟩

/-- The producer holds the first state over two morphs while a second consumer registers:
its late push goes to the first backing, for the first consumer only. -/
def lateBroadcast : List (BroadcastEvent Nat) :=
  [.registerConsumer, .load, .push 5 1, .load, .morphCapacityTo 4 [], .tryRecv 0,
    .registerConsumer, .morphCapacityTo 8 [], .push 6 1, .load, .push 7 1, .tryRecv 1, .tryRecv 0,
    .tryRecv 0, .tryRecv 1]

theorem consumers_receive_runs_late :
    ∃ s : CapacityBroadcast Nat, run step (create 2 Nat.two_pos) lateBroadcast = some s ∧
      (s.accepted = [(5, 1), (6, 1), (7, 2)] ∧
        s.received 0 = [(5, 1), (6, 1), (7, 2)] ∧ s.received 1 = [(7, 2)]) ∧
      (∀ c, c < s.nConsumers →
        ∃ lo, s.received c = (s.accepted.drop lo).take (s.received c).length ∧
          ∀ (i : Nat) (e : Nat × Nat), s.accepted[i]? = some e → c < e.2 → lo ≤ i) ∧
      ∀ e, ∃ s', s.step e = some s' := by
  have hlast : (run step (create 2 Nat.two_pos) lateBroadcast).map
      (fun s => (s.accepted, s.received 0, s.received 1)) =
        some ([(5, 1), (6, 1), (7, 2)], [(5, 1), (6, 1), (7, 2)], [(7, 2)]) := by
    decide +kernel
  obtain ⟨s, hrun, heq⟩ := map_eq_some_iff.mp hlast
  simp only [Prod.mk.injEq] at heq
  exact ⟨s, hrun, heq, consumers_receive_runs hrun⟩

end CapacityBroadcast
end SubEtha.Ring
