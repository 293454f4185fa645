import SubEtha.Ring.PubSub

namespace SubEtha.Ring
open List hiding countP_set
open Lib Option CapacityPubSub

section
variable {β : Type}

/-- What lies in a chain of logs between the start of log `g0` and position `p` of log `g`. -/
def segment (logs : List (List β)) (g0 g p : Nat) : List β :=
  ((logs.take g).drop g0).flatten ++ (logs[g]?.getD []).take p

theorem segment_congr (hsame : ∀ i : Nat, g0 ≤ i → i < g → logs'[i]? = logs[i]?)
    (hl : logs[g]? = some l) (hl' : logs'[g]? = some l') (hext : l <+: l') (hp : p ≤ l.length) :
    segment logs' g0 g p = segment logs g0 g p := by
  have hinner : (logs'.take g).drop g0 = (logs.take g).drop g0 := by
    refine ext_getElem? fun i => ?_
    rw [getElem?_drop, getElem?_drop, getElem?_take, getElem?_take]
    split
    · exact hsame _ (Nat.le_add_right ..) ‹_›
    · rfl
  obtain ⟨t, rfl⟩ := hext
  rw [segment, segment, hinner, hl, hl', getD_some, getD_some, take_append_of_le_length hp]

theorem segment_succ (g0 : Nat) (hl : logs[g]? = some l) (hx : l[p]? = some x) :
    segment logs g0 g (p + 1) = segment logs g0 g p ++ [x] := by
  rw [segment, segment, hl, getD_some, take_add_one, hx, append_assoc]
  rfl

theorem segment_next (hl : logs[g]? = some l) (hg : g0 ≤ g) (hp : l.length ≤ p) :
    segment logs g0 (g + 1) 0 = segment logs g0 g p := by
  have hlen : g0 ≤ (logs.take g).length := by
    have hlt := lt_of_some hl
    rw [length_take]
    omega
  rw [segment, segment, take_zero, append_nil, take_add_one, hl,
    drop_append_of_le_length hlen, flatten_append, getD_some, take_of_length_le hp]
  simp

theorem segment_prefix (hl : logs[g]? = some l) (hg : g0 ≤ g) (p : Nat) :
    segment logs g0 g p <+: (logs.drop g0).flatten := by
  obtain ⟨hlt, heq⟩ := List.getElem_of_getElem? hl
  have hlen : g0 ≤ (logs.take g).length := by
    rw [length_take]
    omega
  have hsplit : logs.drop g0 = (logs.take g).drop g0 ++ l :: logs.drop (g + 1) := by
    rw [← drop_append_of_le_length hlen, ← heq, ← drop_eq_getElem_cons hlt, take_append_drop]
  rw [segment, hsplit, flatten_append, flatten_cons, hl, getD_some]
  exact (prefix_append_right_inj _).mpr ((List.take_prefix p l).trans (prefix_append ..))

end

/-- One more entry in a log; the entries of its kind lie in no later log. -/
theorem filter_flatten_set {β : Type} {logs : List (List β)} {l : List β} {x : β}
    (hl : logs[b]? = some l) (p : β → Bool)
    (hafter : p x = true → ∀ g l', b < g → logs[g]? = some l' → ∀ y ∈ l', p y = false) :
    (logs.set b (l ++ [x])).flatten.filter p = logs.flatten.filter p ++ [x].filter p := by
  rw [flatten_set hl, flatten_at hl]
  simp only [filter_append, append_assoc]
  congr 2
  cases hx : p x with
  | false => simp [hx]
  | true =>
    have hnone : (logs.drop (b + 1)).flatten.filter p = [] := by
      refine filter_eq_nil_iff.mpr fun y hy => ?_
      obtain ⟨l', hl', hy⟩ := mem_flatten.mp hy
      obtain ⟨g, hg⟩ := mem_iff_getElem?.mp hl'
      rw [getElem?_drop] at hg
      simp [hafter hx (b + 1 + g) l' (by omega) hg y hy]
    simp [hnone]

def PublishTask.loadedOn {α : Type} : PublishTask α → Option Nat
  | .idle | .loading _ => none
  | .loaded _ b | .announced _ b | .writing _ b | .leaving b | .backingOut _ b => some b

def PublishTask.writesTo {α : Type} : PublishTask α → Option Nat
  | .idle | .loading _ | .loaded _ _ => none
  | .announced _ b | .writing _ b | .leaving b | .backingOut _ b => some b

/-- The backings a morph is between, and whether it has set the seal. -/
def MorphTask.between : MorphTask → Option (Nat × Nat × Bool)
  | .idle => none
  | .swapped old new => some (old, new, false)
  | .waiting old new | .linking old new => some (old, new, true)

namespace CapacityPubSub

variable {α : Type} {s s' : CapacityPubSub α}

def logs (s : CapacityPubSub α) : List (List (Nat × α)) := s.backings.map PubSubBacking.log

theorem logs_getElem? {g : Nat} (h : s.backings[g]? = some k) :
    s.logs[g]? = some k.log := by
  simp [logs, h]

/-- Every log is kept and may grow, and that of a backing with a successor is final. -/
def Grows (s s' : CapacityPubSub α) : Prop :=
  ∀ (g : Nat) (k : PubSubBacking α), s.backings[g]? = some k →
    ∃ k', s'.backings[g]? = some k' ∧ k.log <+: k'.log ∧
    (k.next.isSome = true → k'.next.isSome = true ∧ k'.log = k.log)

/-- A subscriber has received what lies between its start and where it stands, and every
backing it has left has a successor. -/
structure Reads (s : CapacityPubSub α) (sub : CapacityPubSubSubscriber α) : Prop where
  reached : sub.start.1 ≤ sub.backing
  at_log : ∃ k, s.backings[sub.backing]? = some k ∧ sub.position ≤ k.log.length
  left : ∀ g : Nat, sub.start.1 ≤ g → g < sub.backing →
    ∃ k, s.backings[g]? = some k ∧ k.next.isSome = true
  start_le : sub.start.2 ≤ (segment s.logs sub.start.1 sub.backing sub.position).length
  received : sub.received =
    (segment s.logs sub.start.1 sub.backing sub.position).drop sub.start.2

variable {sub : CapacityPubSubSubscriber α}

theorem Reads.grows (h : Reads s sub) (hgrows : Grows s s') : Reads s' sub := by
  obtain ⟨k, hk, hp⟩ := h.at_log
  obtain ⟨k', hk', hext, -⟩ := hgrows _ k hk
  have hleft : ∀ g : Nat, sub.start.1 ≤ g → g < sub.backing →
      ∃ k', s'.backings[g]? = some k' ∧ k'.next.isSome = true ∧ s'.logs[g]? = s.logs[g]? := by
    intro g hg hlt
    obtain ⟨k, hk, hnext⟩ := h.left g hg hlt
    obtain ⟨k', hk', -, hfinal⟩ := hgrows g k hk
    obtain ⟨hnext', hlog⟩ := hfinal hnext
    exact ⟨k', hk', hnext', by rw [logs_getElem? hk', logs_getElem? hk, hlog]⟩
  have hsegment : segment s'.logs sub.start.1 sub.backing sub.position =
      segment s.logs sub.start.1 sub.backing sub.position :=
    segment_congr (fun g hg hlt => (hleft g hg hlt).choose_spec.2.2) (logs_getElem? hk)
      (logs_getElem? hk') hext hp
  refine ⟨h.reached, ⟨k', hk', Nat.le_trans hp hext.length_le⟩, fun g hg hlt => ?_, ?_, ?_⟩
  · obtain ⟨k, hk, hnext, -⟩ := hleft g hg hlt
    exact ⟨k, hk, hnext⟩
  · rw [hsegment]
    exact h.start_le
  · rw [hsegment]
    exact h.received

/-- The chain: the active backing is the last, and a successor is the backing after. -/
structure Chain (s : CapacityPubSub α) : Prop where
  active : s.active + 1 = s.backings.length
  oldest : s.oldest < s.backings.length
  rings : ∀ k ∈ s.backings, k.ring.Logs k.log
  links : ∀ (g : Nat) (k : PubSubBacking α) (c : Nat), s.backings[g]? = some k → k.next = some c →
    c = g + 1 ∧ c < s.backings.length
  morphs : ∀ m ∈ s.morphs, ∀ old new b, m.between = some (old, new, b) →
    new = old + 1 ∧ new < s.backings.length
  loaded : ∀ t ∈ s.publishers, ∀ b, t.loadedOn = some b → b < s.backings.length

/-- The announce and seal handshake: nothing writes to a backing once a morph is to link
its successor. -/
structure Handshake (s : CapacityPubSub α) : Prop where
  writers : ∀ (g : Nat) (k : PubSubBacking α), s.backings[g]? = some k →
    k.writers = s.publishers.countP fun t => t.writesTo == some g
  sealing : ∀ m ∈ s.morphs, ∀ old new, m.between = some (old, new, true) → s.isSealed old = true
  drained : ∀ old new, .linking old new ∈ s.morphs → ∀ payload, .writing payload old ∉ s.publishers
  linked : ∀ (g : Nat) (k : PubSubBacking α), s.backings[g]? = some k → k.next.isSome = true →
    s.isSealed g = true ∧ ∀ payload, .writing payload g ∉ s.publishers

/-- The logs hold each publisher's writes in their order, and none lies past the backing
its call has loaded. -/
structure InOrder (s : CapacityPubSub α) : Prop where
  total : ∀ i, (s.logs.flatten.filter fun x => x.1 == i) = s.published.filter fun x => x.1 == i
  ahead : ∀ (i : Nat) (t : PublishTask α) (b : Nat), s.publishers[i]? = some t → t.loadedOn = some b →
    ∀ (g : Nat) (k : PubSubBacking α), b < g → s.backings[g]? = some k → ∀ x ∈ k.log, x.1 ≠ i

structure Sound (s : CapacityPubSub α) : Prop where
  chain : Chain s
  handshake : Handshake s
  inOrder : InOrder s
  reads : ∀ sub ∈ s.subs, Reads s sub

/-- What a step leaves behind: the invariant, and the logs as `Grows` says. -/
structure Keeps (s s' : CapacityPubSub α) : Prop where
  sound : Sound s'
  grows : Grows s s'

section
variable {b g : Nat} {f : PubSubBacking α → PubSubBacking α}

/-- A step that changes one backing, beside the tasks of publishers and morphs. -/
structure Touches (s s' : CapacityPubSub α) (b : Nat) (f : PubSubBacking α → PubSubBacking α) :
    Prop where
  backings : s'.backings = s.backings.modify b f
  active : s'.active = s.active
  oldest : s'.oldest = s.oldest
  subs : s'.subs = s.subs

section
variable (h : Touches s s' b f)
include h

theorem Touches.getElem? (g : Nat) :
    s'.backings[g]? = s.backings[g]?.map fun k => if b = g then f k else k := by
  rw [h.backings, getElem?_modify]
  rfl

theorem Touches.some (hk : s'.backings[g]? = some k') :
    ∃ k, s.backings[g]? = some k ∧ (if b = g then f k else k) = k' := by
  rw [h.backings] at hk
  exact modify_some hk

theorem Touches.length : s'.backings.length = s.backings.length := by
  simp [h.backings]

theorem Touches.logs (hf : ∀ k, (f k).log = k.log) : s'.logs = s.logs := by
  rw [CapacityPubSub.logs, CapacityPubSub.logs, h.backings]
  exact map_modify fun k _ => hf k

theorem Touches.isSealed (hf : ∀ k, k.isSealed = true → (f k).isSealed = true)
    (hg : s.isSealed g = true) : s'.isSealed g = true := by
  obtain ⟨k, hk, hseal⟩ := (any_eq_true _ _).mp hg
  refine (any_eq_true _ _).mpr ⟨_, (h.getElem? g).trans (by rw [hk]; rfl), ?_⟩
  split
  · exact hf k hseal
  · exact hseal

end

theorem grows_of_eq (h : s'.backings = s.backings) : Grows s s' :=
  fun _ k hk => ⟨k, h ▸ hk, prefix_rfl, fun h => ⟨h, rfl⟩⟩

theorem Touches.grows (h : Touches s s' b f)
    (hlog : ∀ k, s.backings[b]? = Option.some k → k.log <+: (f k).log)
    (hnext : ∀ k, s.backings[b]? = Option.some k → k.next.isSome = true →
      (f k).next.isSome = true ∧ (f k).log = k.log) : Grows s s' := by
  intro g k hk
  refine ⟨if b = g then f k else k, ?_, ?_, fun hsome => ?_⟩
  · rw [h.getElem?, hk, map_some]
  · split
    · subst b
      exact hlog k hk
    · exact prefix_rfl
  · split
    · subst b
      exact hnext k hk hsome
    · exact ⟨hsome, rfl⟩

/-- The logs stay as they are, and no successor is taken away. -/
theorem Touches.keeps_logs (h : Touches s s' b f) (hlog : ∀ k, (f k).log = k.log)
    (hnext : ∀ k, k.next.isSome = true → (f k).next.isSome = true) : Grows s s' :=
  h.grows (fun k _ => (hlog k).symm ▸ prefix_rfl) fun k _ hsome => ⟨hnext k hsome, hlog k⟩

theorem Chain.touch (hc : Chain s) (h : Touches s s' b f)
    (hring : ∀ k, k.ring.Logs k.log → (f k).ring.Logs (f k).log)
    (hnext : ∀ k c, (f k).next = some c → k.next = some c ∨ c = b + 1 ∧ c < s.backings.length)
    (hmorphs : ∀ m ∈ s'.morphs, m ∈ s.morphs ∨ ∀ old new d, m.between = some (old, new, d) →
      new = old + 1 ∧ new < s.backings.length) (hloaded : ∀ t ∈ s'.publishers, t ∈ s.publishers ∨
      ∀ c, t.loadedOn = some c → c < s.backings.length) : Chain s' := by
  refine ⟨?_, ?_, fun k' hk' => ?_, fun g k' c hk' hc' => ?_, fun m hm old new d hd => ?_,
    fun u hu c hload => ?_⟩
  · rw [h.active, h.length]
    exact hc.active
  · rw [h.oldest, h.length]
    exact hc.oldest
  · obtain ⟨g, hg⟩ := mem_iff_getElem?.mp hk'
    obtain ⟨k, hk, rfl⟩ := h.some hg
    have hold := hc.rings k (mem_of_getElem? hk)
    split
    · exact hring k hold
    · exact hold
  · obtain ⟨k, hk, rfl⟩ := h.some hk'
    rw [h.length]
    split at hc'
    · subst b
      rcases hnext k c hc' with hsame | hnew
      · exact hc.links g k c hk hsame
      · exact hnew
    · exact hc.links g k c hk hc'
  · rw [h.length]
    rcases hmorphs m hm with hm | hnew
    · exact hc.morphs m hm old new d hd
    · exact hnew old new d hd
  · rw [h.length]
    rcases hloaded u hu with hu | hnew
    · exact hc.loaded u hu c hload
    · exact hnew c hload

theorem Handshake.touch (hh : Handshake s) (h : Touches s s' b f)
    (hwriters : ∀ g k, s.backings[g]? = some k → (if b = g then f k else k).writers =
      s'.publishers.countP fun t => t.writesTo == some g)
    (hmono : ∀ k, k.isSealed = true → (f k).isSealed = true)
    (hwriting : ∀ payload g, .writing payload g ∈ s'.publishers →
      .writing payload g ∈ s.publishers ∨ s.isSealed g = false)
    (hsealing : ∀ m ∈ s'.morphs, m ∈ s.morphs ∨
      ∀ old new, m.between = some (old, new, true) → s'.isSealed old = true)
    (hdrained : ∀ old new, .linking old new ∈ s'.morphs → .linking old new ∈ s.morphs ∨
      s.isSealed old = true ∧ ∀ payload, .writing payload old ∉ s.publishers)
    (hlinked : ∀ k, s.backings[b]? = some k → (f k).next.isSome = true → k.next.isSome = true ∨
      s.isSealed b = true ∧ ∀ payload, .writing payload b ∉ s.publishers) : Handshake s' := by
  have hnone : ∀ g, s.isSealed g = true → (∀ payload, .writing payload g ∉ s.publishers) →
      ∀ payload, .writing payload g ∉ s'.publishers := by
    intro g hg hnone payload hmem
    rcases hwriting payload g hmem with hmem | hopen
    · exact hnone payload hmem
    · rw [hopen] at hg
      cases hg
  refine ⟨fun g k' hk' => ?_, fun m hm old new hb => ?_, fun old new hlink => ?_,
    fun g k' hk' hsome => ?_⟩
  · obtain ⟨k, hk, rfl⟩ := h.some hk'
    exact hwriters g k hk
  · rcases hsealing m hm with hm | hnew
    · exact h.isSealed hmono (hh.sealing m hm old new hb)
    · exact hnew old new hb
  · rcases hdrained old new hlink with hlink | ⟨hseal, hdry⟩
    · exact hnone old (hh.sealing _ hlink old new rfl) (hh.drained old new hlink)
    · exact hnone old hseal hdry
  obtain ⟨k, hk, rfl⟩ := h.some hk'
  have hboth : s.isSealed g = true ∧ ∀ payload, .writing payload g ∉ s.publishers := by
    split at hsome
    · subst b
      rcases hlinked k hk hsome with hold | hnew
      · exact hh.linked g k hk hold
      · exact hnew
    · exact hh.linked g k hk hsome
  exact ⟨h.isSealed hmono hboth.1, hnone g hboth.1 hboth.2⟩

theorem InOrder.touch (ho : InOrder s) (hc : Chain s) (h : Touches s s' b f)
    (hlog : ∀ k, (f k).log = k.log) (hpublished : s'.published = s.published)
    (hloads : ∀ (i : Nat) t c, s'.publishers[i]? = some t → t.loadedOn = some c →
      (∃ u, s.publishers[i]? = some u ∧ u.loadedOn = some c) ∨ c = s.active) : InOrder s' := by
  refine ⟨fun i => ?_, fun i t c ht hload g k' hlt hk' x hx => ?_⟩
  · rw [h.logs hlog, hpublished]
    exact ho.total i
  obtain ⟨k, hk, rfl⟩ := h.some hk'
  have hx : x ∈ k.log := by
    split at hx
    · exact hlog k ▸ hx
    · exact hx
  rcases hloads i t c ht hload with ⟨u, hu, hload⟩ | rfl
  · exact ho.ahead i u c hu hload g k hlt hk x hx
  have hg := lt_of_some hk
  have hactive := hc.active
  omega

/-- The subscribers read on in a state with their logs. -/
theorem Sound.keeps (hs : Sound s) (hc : Chain s') (hh : Handshake s') (ho : InOrder s')
    (hsubs : s'.subs = s.subs) (hgrows : Grows s s') : Keeps s s' :=
  ⟨⟨hc, hh, ho, fun sub hsub => (hs.reads sub (hsubs ▸ hsub)).grows hgrows⟩, hgrows⟩

end

section
variable {i : Nat} {t t' : PublishTask α}

/-- A step of a publish that touches one backing, and neither seals nor links it. -/
structure Retask (s : CapacityPubSub α) (t t' : PublishTask α) (b : Nat)
    (f : PubSubBacking α → PubSubBacking α) : Prop where
  logs : ∀ k, k.ring.Logs k.log → (f k).ring.Logs (f k).log
  next : ∀ k, (f k).next = k.next
  isSealed : ∀ k, (f k).isSealed = k.isSealed
  counts : ∀ k, s.backings[b]? = some k →
    (f k).writers + (t.writesTo == some b).toNat = k.writers + (t'.writesTo == some b).toNat
  other : ∀ g, g ≠ b → (t.writesTo == some g) = (t'.writesTo == some g)
  loads : ∀ c, t'.loadedOn = some c → t.loadedOn = some c ∨ c = s.active
  unsealed : ∀ payload c, t' = .writing payload c → s.isSealed c = false

section
variable {f : PubSubBacking α → PubSubBacking α} (hs : Sound s) (ht : s.publishers[i]? = some t)
  (hb : Touches s s' b f) (hpublishers : s'.publishers = s.publishers.set i t')
include hs ht hb hpublishers

theorem Sound.retask (hmorphs : s'.morphs = s.morphs) (h : Retask s t t' b f) (ho : InOrder s')
    (hgrows : Grows s s') : Keeps s s' := by
  have hmem : ∀ u ∈ s'.publishers, u ∈ s.publishers ∨ u = t' := fun u hu =>
    mem_or_eq_of_mem_set (hpublishers ▸ hu)
  refine hs.keeps (hs.chain.touch hb h.logs (fun k c hc => .inl (h.next k ▸ hc))
      (fun m hm => .inl (hmorphs ▸ hm)) fun u hu => ?_)
    (hs.handshake.touch hb (fun g k hk => ?_) (fun k hk => (h.isSealed k).trans hk)
      (fun payload g hg => ?_) (fun m hm => .inl (hmorphs ▸ hm))
      (fun old new hm => .inl (hmorphs ▸ hm)) fun k _ hk => .inl (h.next k ▸ hk))
    ho hb.subs hgrows
  · refine (hmem u hu).imp_right fun heq c hload => ?_
    rcases h.loads c (heq ▸ hload) with hload | rfl
    · exact hs.chain.loaded t (mem_of_getElem? ht) c hload
    · have hactive := hs.chain.active
      omega
  · have hcount := countP_set ht t' fun t => t.writesTo == some g
    have hwriters := hs.handshake.writers g k hk
    rw [hpublishers]
    split
    · subst b
      have hcounts := h.counts k hk
      omega
    · rename_i hne
      rw [h.other g (Ne.symm hne)] at hcount
      omega
  · exact (hmem _ hg).imp_right fun heq => h.unsealed payload g heq.symm

/-- Where no log grows, what is read stays as it is. -/
theorem Sound.requeue (hrest : s'.morphs = s.morphs ∧ s'.published = s.published)
    (h : Retask s t t' b f) (hlog : ∀ k, (f k).log = k.log) : Keeps s s' := by
  refine hs.retask ht hb hpublishers hrest.1 h (hs.inOrder.touch hs.chain hb hlog hrest.2 ?_)
    (hb.keeps_logs hlog fun k hk => (h.next k).symm ▸ hk)
  intro j u c hu hload
  rcases set_some (hpublishers ▸ hu) with ⟨rfl, rfl⟩ | ⟨-, hu⟩
  · exact (h.loads c hload).imp_left fun hload => ⟨t, ht, hload⟩
  · exact .inl ⟨u, hu, hload⟩

end

section
variable {payload : α} {k : PubSubBacking α}

def writeTo (i : Nat) (payload : α) (k : PubSubBacking α) : PubSubBacking α :=
  { k with ring := k.ring.publish (i, payload), log := k.log ++ [(i, payload)] }

theorem touches_write : Touches s (s.publishOn i (.writing payload b)) b (writeTo i payload) :=
  ⟨rfl, rfl, rfl, rfl⟩

theorem Handshake.no_next (hh : Handshake s) (ht : s.publishers[i]? = some (.writing payload b))
    (hk : s.backings[b]? = some k) : k.next.isSome ≠ true := fun hsome =>
  (hh.linked b k hk hsome).2 payload (mem_of_getElem? ht)

theorem write_logs (hk : s.backings[b]? = some k) :
    (s.publishOn i (.writing payload b)).logs = s.logs.set b (k.log ++ [(i, payload)]) := by
  rw [logs, touches_write.backings]
  exact map_modify_set _ hk

theorem InOrder.write (ho : InOrder s) (hc : Chain s)
    (ht : s.publishers[i]? = some (.writing payload b)) :
    InOrder (s.publishOn i (.writing payload b)) := by
  have hlt := hc.loaded _ (mem_of_getElem? ht) b rfl
  obtain ⟨k, hk⟩ : ∃ k, s.backings[b]? = some k := ⟨_, getElem?_eq_getElem hlt⟩
  refine ⟨fun j => ?_, fun j u c hu hload g k' hcg hk' x hx => ?_⟩
  · have hset := filter_flatten_set (logs_getElem? hk) (fun y => y.1 == j)
      (x := (i, payload)) fun hx g l hg hl y hy => by
        obtain ⟨k', hk', rfl⟩ := map_eq_some_iff.mp ((getElem?_map ..).symm.trans hl)
        have hne := ho.ahead i _ b ht rfl g k' hg hk' y hy
        rw [← beq_iff_eq.mp hx]
        exact beq_false_of_ne hne
    rw [write_logs hk, hset, ho.total j]
    exact (filter_append ..).symm
  obtain ⟨k'', hk'', rfl⟩ := touches_write.some hk'
  have hold : x ∈ k''.log ∨ b = g ∧ x = (i, payload) := by
    split at hx
    · rename_i hbg
      rcases mem_append.mp hx with hx | hx
      · exact .inl hx
      · exact .inr ⟨hbg, mem_singleton.mp hx⟩
    · exact .inl hx
  rcases set_some hu with ⟨rfl, rfl⟩ | ⟨hj, hu⟩
  · cases hload
    rcases hold with hold | ⟨hbg, -⟩
    · exact ho.ahead i _ b ht rfl g k'' hcg hk'' x hold
    · omega
  · rcases hold with hold | ⟨-, rfl⟩
    · exact ho.ahead j u c hu hload g k'' hcg hk'' x hold
    · exact hj

theorem Sound.write (hs : Sound s) (ht : s.publishers[i]? = some (.writing payload b)) :
    Keeps s (s.publishOn i (.writing payload b)) :=
  hs.retask ht touches_write rfl rfl
    ⟨fun _ hk => hk.publish (i, payload), fun _ => rfl, fun _ => rfl, fun _ _ => rfl, fun _ _ => rfl,
      fun _ hc => .inl hc, nofun⟩
    (hs.inOrder.write hs.chain ht) (touches_write.grows (fun _ _ => prefix_append ..)
      fun _ hk hsome => absurd hsome (hs.handshake.no_next ht hk))

end

theorem Sound.setPublisher (hs : Sound s) (ht : s.publishers[i]? = some t)
    (hsame : t.writesTo = t'.writesTo)
    (hload : ∀ c, t'.loadedOn = some c → t.loadedOn = some c ∨ c = s.active)
    (hunsealed : ∀ payload c, t' = .writing payload c → s.isSealed c = false) :
    Keeps s (s.setPublisher i t') :=
  hs.requeue (b := 0) (f := id) ht ⟨(modify_id ..).symm, rfl, rfl, rfl⟩ rfl ⟨rfl, rfl⟩
    ⟨fun _ hk => hk, fun _ => rfl, fun _ => rfl, fun k _ => by rw [hsame]; rfl,
      fun g _ => by rw [hsame], hload, hunsealed⟩ fun _ => rfl

theorem Handshake.writers_pos (hh : Handshake s) (ht : s.publishers[i]? = some t)
    (hb : t.writesTo = some b) (hk : s.backings[b]? = some k) : 0 < k.writers := by
  rw [hh.writers b k hk]
  exact countP_pos_iff.mpr ⟨t, mem_of_getElem? ht, by rw [hb]; exact beq_self_eq_true _⟩

theorem Sound.leave (hs : Sound s) (ht : s.publishers[i]? = some t) (hb : t.writesTo = some b)
    (hnone : t'.loadedOn = none ∧ t'.writesTo = none) :
    Keeps s ((s.onBacking b fun k => { k with writers := k.writers - 1 }).setPublisher i t') := by
  refine hs.requeue ht ⟨rfl, rfl, rfl, rfl⟩ rfl ⟨rfl, rfl⟩ ⟨fun _ hk => hk, fun _ => rfl,
    fun _ => rfl, fun k hk => ?_, fun g hg => ?_, fun c hc => ?_, fun payload c h => ?_⟩ fun _ => rfl
  · have hpos := hs.handshake.writers_pos ht hb hk
    simp [hb, hnone.2]
    omega
  · rw [hb, hnone.2]
    exact beq_false_of_ne fun h => hg (some.inj h).symm
  · rw [hnone.1] at hc
    cases hc
  · rw [h] at hnone
    cases hnone.1

theorem Sound.publishOn (hs : Sound s) (ht : s.publishers[i]? = some t) :
    Keeps s (s.publishOn i t) := by
  cases t with
  | idle => exact ⟨hs, grows_of_eq rfl⟩
  | loading payload =>
    exact hs.setPublisher ht rfl (fun c hc => .inr (some.inj hc).symm) nofun
  | loaded payload b =>
    refine hs.requeue ht ⟨rfl, rfl, rfl, rfl⟩ rfl ⟨rfl, rfl⟩ ⟨fun _ hk => hk, fun _ => rfl,
      fun _ => rfl, fun k _ => ?_, fun g hg => ?_, fun c hc => .inl hc, nofun⟩ fun _ => rfl
    · simp [PublishTask.writesTo]
    · simp [PublishTask.writesTo, Ne.symm hg]
  | announced payload b =>
    dsimp only [publishOn]
    split
    · exact hs.setPublisher ht rfl (fun c hc => .inl hc) nofun
    rename_i hopen
    refine hs.setPublisher ht rfl (fun c hc => .inl hc) fun _ _ h => ?_
    cases h
    exact Bool.eq_false_iff.mpr hopen
  | writing payload b => exact hs.write ht
  | leaving | backingOut => exact hs.leave ht rfl ⟨rfl, rfl⟩

end

section
variable {j old new : Nat} {m m' : MorphTask} {fresh : PubSubBacking α}

theorem loadedOn_of_writesTo {t : PublishTask α} (h : t.writesTo = some b) :
    t.loadedOn = some b := by
  cases t with
  | idle | loading | loaded => cases h
  | announced | writing | leaving | backingOut => exact h

theorem Sound.remorph (hs : Sound s) (hm : s.morphs[j]? = some m) (hb : Touches s s' b f)
    (hmorphs : s'.morphs = s.morphs.set j m')
    (hrest : s'.publishers = s.publishers ∧ s'.published = s.published)
    (hkeep : ∀ k, (f k).ring = k.ring ∧ (f k).log = k.log ∧ (f k).writers = k.writers)
    (hmono : ∀ k, (k.isSealed = true → (f k).isSealed = true) ∧
      (k.next.isSome = true → (f k).next.isSome = true))
    (hbetween : ∀ old new d, m'.between = some (old, new, d) →
      (∃ d, m.between = some (old, new, d)) ∧ (d = true → s'.isSealed old = true))
    (hlinking : ∀ old new, m' = .linking old new →
      s.isSealed old = true ∧ ∀ payload, .writing payload old ∉ s.publishers)
    (hnext : ∀ k c, (f k).next = some c → k.next = some c ∨ (c = b + 1 ∧ c < s.backings.length) ∧
      s.isSealed b = true ∧ ∀ payload, .writing payload b ∉ s.publishers) : Keeps s s' := by
  have hmem : ∀ n ∈ s'.morphs, n ∈ s.morphs ∨ n = m' := fun n hn =>
    mem_or_eq_of_mem_set (hmorphs ▸ hn)
  refine hs.keeps
    (hs.chain.touch hb (fun k hk => ?_) (fun k c hc => (hnext k c hc).imp_right And.left)
      (fun n hn => ?_) fun u hu => .inl (hrest.1 ▸ hu))
    (hs.handshake.touch hb (fun g k hk => ?_) (fun k => (hmono k).1)
      (fun payload g hg => .inl (hrest.1 ▸ hg)) (fun n hn => ?_) (fun old new hn => ?_)
      fun k _ hk => ?_)
    (hs.inOrder.touch hs.chain hb (fun k => (hkeep k).2.1) hrest.2 fun i t c ht hload =>
      .inl ⟨t, hrest.1 ▸ ht, hload⟩)
    hb.subs (hb.keeps_logs (fun k => (hkeep k).2.1) fun k => (hmono k).2)
  · rw [(hkeep k).1, (hkeep k).2.1]
    exact hk
  · refine (hmem n hn).imp_right fun heq old new d hd => ?_
    obtain ⟨d', hd'⟩ := (hbetween old new d (heq ▸ hd)).1
    exact hs.chain.morphs m (mem_of_getElem? hm) old new d' hd'
  · rw [hrest.1]
    refine Eq.trans ?_ (hs.handshake.writers g k hk)
    split
    · exact (hkeep k).2.2
    · rfl
  · refine (hmem n hn).imp_right fun heq old new hd => ?_
    exact (hbetween old new true (heq ▸ hd)).2 rfl
  · exact (hmem _ hn).imp_right fun heq => hlinking old new heq.symm
  · obtain ⟨c, hc⟩ := isSome_iff_exists.mp hk
    exact (hnext k c hc).imp (fun h => by rw [h]; rfl) And.right

theorem Sound.morphOn (hs : Sound s) (hm : s.morphs[j]? = some m) : Keeps s (s.morphOn j m) := by
  have hmem := mem_of_getElem? hm
  cases m with
  | idle => exact ⟨hs, grows_of_eq rfl⟩
  | swapped old new =>
    obtain ⟨hnew, hlt⟩ := hs.chain.morphs _ hmem old new false rfl
    refine hs.remorph hm ⟨rfl, rfl, rfl, rfl⟩ rfl ⟨rfl, rfl⟩ (fun _ => ⟨rfl, rfl, rfl⟩)
      (fun _ => ⟨fun _ => rfl, id⟩) (fun o n d hd => ?_) nofun fun _ _ h => .inl h
    cases hd
    refine ⟨⟨false, rfl⟩, fun _ => ?_⟩
    have hold : old < s.backings.length := by omega
    refine (any_eq_true _ _).mpr
      ⟨{ s.backings[old] with isSealed := true }, (getElem?_modify ..).trans ?_, rfl⟩
    rw [getElem?_eq_getElem hold]
    simp
  | waiting old new =>
    dsimp only [morphOn]
    split
    · rename_i hzero
      obtain ⟨k, hk, hzero⟩ := (any_eq_true _ _).mp hzero
      have hcount := (hs.handshake.writers old k hk).symm.trans (beq_iff_eq.mp hzero)
      have hseal := hs.handshake.sealing _ hmem old new rfl
      refine hs.remorph (b := 0) (f := id) hm ⟨(modify_id ..).symm, rfl, rfl, rfl⟩ rfl ⟨rfl, rfl⟩
        (fun _ => ⟨rfl, rfl, rfl⟩) (fun _ => ⟨id, id⟩) (fun o n d hd => ?_) (fun o n h => ?_)
        fun _ _ h => .inl h
      · cases hd
        exact ⟨⟨true, rfl⟩, fun _ => hseal⟩
      · cases h
        exact ⟨hseal, fun payload hwriting =>
          countP_eq_zero.mp hcount _ hwriting (beq_self_eq_true _)⟩
    · exact ⟨hs, grows_of_eq rfl⟩
  | linking old new =>
    refine hs.remorph hm ⟨rfl, rfl, rfl, rfl⟩ rfl ⟨rfl, rfl⟩ (fun _ => ⟨rfl, rfl, rfl⟩)
      (fun _ => ⟨id, fun _ => rfl⟩) nofun nofun fun k c h => .inr ?_
    cases h
    exact ⟨hs.chain.morphs _ hmem old new true rfl, hs.handshake.sealing _ hmem old new rfl,
      hs.handshake.drained old new hmem⟩

def swapIn (s : CapacityPubSub α) (j : Nat) (fresh : PubSubBacking α) : CapacityPubSub α :=
  { s with backings := s.backings ++ [fresh], active := s.backings.length }.setMorph j
    (.swapped s.active s.backings.length)

theorem Chain.swapIn (hc : Chain s) (hring : fresh.ring.Logs fresh.log)
    (hnext : fresh.next = none) : Chain (s.swapIn j fresh) := by
  have hlen : (s.swapIn j fresh).backings.length = s.backings.length + 1 := length_append
  have hactive := hc.active
  have holdest := hc.oldest
  refine ⟨hlen.symm, by rw [hlen]; exact Nat.lt_succ_of_lt holdest, fun k hk => ?_,
    fun g k c hk hc' => ?_, fun n hn old new d hd => ?_, fun u hu c hload => ?_⟩
  · rcases mem_append.mp hk with hk | hk
    · exact hc.rings k hk
    · cases mem_singleton.mp hk
      exact hring
  · rcases append_some hk with hk | ⟨-, rfl⟩
    · have hlink := hc.links g k c hk hc'
      rw [hlen]
      omega
    · rw [hnext] at hc'
      cases hc'
  · rw [hlen]
    rcases mem_or_eq_of_mem_set hn with hn | rfl
    · have hbetween := hc.morphs n hn old new d hd
      omega
    · cases hd
      omega
  · rw [hlen]
    exact Nat.lt_succ_of_lt (hc.loaded u hu c hload)

theorem swapIn_isSealed (h : s.isSealed g = true) : (s.swapIn j fresh).isSealed g = true := by
  obtain ⟨k, hk, hseal⟩ := (any_eq_true _ _).mp h
  have hlt := lt_of_some hk
  exact (any_eq_true _ _).mpr ⟨k, (getElem?_append_left hlt).trans hk, hseal⟩

theorem Handshake.swapIn (hh : Handshake s) (hc : Chain s) (hwriters : fresh.writers = 0)
    (hnext : fresh.next = none) : Handshake (s.swapIn j fresh) := by
  refine ⟨fun g k hk => ?_, fun n hn old new hb => ?_, fun old new hlink => ?_,
    fun g k hk hsome => ?_⟩
  · rcases append_some hk with hk | ⟨rfl, rfl⟩
    · exact hh.writers g k hk
    rw [hwriters]
    refine (countP_eq_zero.mpr fun t ht hon => ?_).symm
    have hlt := hc.loaded t ht _ (loadedOn_of_writesTo (beq_iff_eq.mp hon))
    omega
  · rcases mem_or_eq_of_mem_set hn with hn | rfl
    · exact swapIn_isSealed (hh.sealing n hn old new hb)
    · cases hb
  · exact hh.drained old new ((mem_or_eq_of_mem_set hlink).resolve_right nofun)
  · rcases append_some hk with hk | ⟨-, rfl⟩
    · obtain ⟨hseal, hnone⟩ := hh.linked g k hk hsome
      exact ⟨swapIn_isSealed hseal, hnone⟩
    · rw [hnext] at hsome
      cases hsome

theorem InOrder.swapIn (ho : InOrder s) (hlog : fresh.log = []) : InOrder (s.swapIn j fresh) := by
  refine ⟨fun i => ?_, fun i t c ht hload g k hlt hk x hx => ?_⟩
  · have hlogs : (s.swapIn j fresh).logs.flatten = s.logs.flatten := by
      dsimp only [CapacityPubSub.swapIn, setMorph, logs]
      rw [map_append, flatten_append, map_singleton, hlog]
      simp
    rw [hlogs]
    exact ho.total i
  · rcases append_some hk with hk | ⟨-, rfl⟩
    · exact ho.ahead i t c ht hload g k hlt hk x hx
    · rw [hlog] at hx
      cases hx

theorem Sound.morphCapacityTo (hs : Sound s) (capacity : Nat) :
    Keeps s (s.morphCapacityTo j capacity) := by
  unfold CapacityPubSub.morphCapacityTo
  split
  · rename_i hvalid
    have hpos : 0 < capacity :=
      Nat.lt_of_lt_of_le Nat.zero_lt_two hvalid.1.2
    refine hs.keeps (hs.chain.swapIn (PubSubRing.logs_create capacity hpos) rfl)
      (hs.handshake.swapIn hs.chain rfl rfl) (hs.inOrder.swapIn rfl) rfl fun _ k hk => ?_
    exact ⟨k, (getElem?_append_left (lt_of_some hk)).trans hk, prefix_rfl, fun h => ⟨h, rfl⟩⟩
  · exact ⟨hs, grows_of_eq rfl⟩

end

section
variable {sub sub' : CapacityPubSubSubscriber α}

theorem Sound.withSubs (hs : Sound s) {subs : List (CapacityPubSubSubscriber α)}
    (hsubs : ∀ sub ∈ subs, Reads s sub) : Sound { s with subs := subs } := by
  obtain ⟨hc, hh, ho, -⟩ := hs
  refine ⟨{ hc with }, { hh with }, ⟨ho.total, ho.ahead⟩, fun sub hsub => ?_⟩
  have hr := hsubs sub hsub
  exact { hr with }

theorem Sound.subscribe (hs : Sound s) (hk : s.backings[b]? = some k)
    (hp : position ≤ k.log.length) : Sound (s.subscribe b position) := by
  refine hs.withSubs fun sub hsub => ?_
  rcases mem_append.mp hsub with hsub | hsub
  · exact hs.reads sub hsub
  cases mem_singleton.mp hsub
  have hsegment : segment s.logs b b position = k.log.take position := by
    simp [segment, logs_getElem? hk, getD_some, drop_eq_nil_of_le (length_take_le ..)]
  refine ⟨Nat.le_refl _, ⟨k, hk, hp⟩, fun g hg hlt => absurd hg (Nat.not_le.mpr hlt), ?_, ?_⟩
  · have hlen : (segment s.logs b b position).length = position := by
      simp [hsegment, Nat.min_eq_left hp]
    exact Nat.le_of_eq hlen.symm
  · rw [hsegment]
    exact (drop_eq_nil_of_le (length_take_le ..)).symm

theorem Reads.took (hr : Reads s sub) {k : PubSubBacking α} (hk : s.backings[sub.backing]? = some k)
    (hx : k.log[sub.position]? = some x) :
    Reads s { sub with position := sub.position + 1, received := sub.received ++ [x] } := by
  have hsucc := segment_succ sub.start.1 (logs_getElem? hk) hx
  refine ⟨hr.reached, ⟨k, hk, (lt_of_some hx)⟩, hr.left, ?_, ?_⟩
  · rw [hsucc, length_append]
    exact Nat.le_add_right_of_le hr.start_le
  · rw [hsucc, drop_append_of_le_length hr.start_le, hr.received]

theorem Reads.crossed (hr : Reads s sub) (hc : Chain s) {k : PubSubBacking α}
    (hk : s.backings[sub.backing]? = some k) (hend : k.log.length ≤ sub.position) {next : Nat}
    (hnext : k.next = some next) : Reads s { sub with backing := next, position := 0 } := by
  obtain ⟨rfl, hlt⟩ := hc.links _ k next hk hnext
  have hsame := segment_next (logs_getElem? hk) hr.reached hend
  refine ⟨Nat.le_succ_of_le hr.reached, ⟨_, getElem?_eq_getElem hlt, Nat.zero_le _⟩,
    fun g hg hlt => ?_, ?_, ?_⟩
  · rcases Nat.lt_succ_iff_lt_or_eq.mp hlt with hlt | heq
    · exact hr.left g hg hlt
    · subst heq
      exact ⟨k, hk, by rw [hnext]; rfl⟩
  · rw [hsame]
    exact hr.start_le
  · rw [hsame]
    exact hr.received

/-- What a `try_next` does: it takes the entry at its position, crosses to the successor at
the end of a log, or stays where it finds the end of the last log or an overwritten slot. -/
inductive Moves (backings : List (PubSubBacking α)) : CapacityPubSubSubscriber α →
    CapacityPubSubSubscriber α → Except PubSubReadError (Nat × α) → Prop
  | took {sub k x} (hk : backings[sub.backing]? = some k) (hx : k.log[sub.position]? = some x)
      (hlap : k.log.length ≤ sub.position + k.ring.capacity) :
      Moves backings sub
        { sub with position := sub.position + 1, received := sub.received ++ [x] } (.ok x)
  | crossed {sub sub' k next r} (hk : backings[sub.backing]? = some k)
      (hend : k.log.length ≤ sub.position) (hnext : k.next = some next)
      (h : Moves backings { sub with backing := next, position := 0 } sub' r) :
      Moves backings sub sub' r
  | pending {sub k} (hk : backings[sub.backing]? = some k) (hend : k.log.length ≤ sub.position)
      (hnext : k.next = none) : Moves backings sub sub (.error .pending)
  | lost {sub k} (hk : backings[sub.backing]? = some k)
      (hlap : sub.position + k.ring.capacity < k.log.length) :
      Moves backings sub sub (.error .lost)

theorem Chain.moves (hc : Chain s) (h : tryNext s.backings rounds sub = some (sub', r)) :
    Moves s.backings sub sub' r := by
  induction rounds generalizing sub with
  | zero => cases h
  | succ rounds ih =>
    rw [tryNext] at h
    split at h
    · cases h
    rename_i k hk
    rw [(hc.rings k (mem_of_getElem? hk)).readAt_eq] at h
    cases hx : k.log[sub.position]? with
    | none =>
      have hend := getElem?_eq_none_iff.mp hx
      rw [hx] at h
      cases hnext : k.next with
      | none =>
        rw [hnext] at h
        cases h
        exact .pending hk hend hnext
      | some next =>
        rw [hnext] at h
        exact .crossed hk hend hnext (ih h)
    | some x =>
      rw [hx] at h
      split_ifs at h with hlap
      · cases h
        exact .took hk hx hlap
      · cases h
        exact .lost hk (Nat.lt_of_not_le hlap)

theorem Reads.tryNext (hc : Chain s) (hr : Reads s sub) (h : Moves s.backings sub sub' r) :
    Reads s sub' := by
  induction h with
  | took hk hx => exact hr.took hk hx
  | crossed hk hend hnext _ ih => exact ih (hr.crossed hc hk hend hnext)
  | pending | lost => exact hr

/-- A read crosses at most to the last backing, so it returns. -/
theorem Chain.tryNext_returns (hc : Chain s) (hlt : sub.backing < s.backings.length)
    (hrounds : s.backings.length ≤ sub.backing + rounds) :
    ∃ r, tryNext s.backings rounds sub = some r := by
  induction rounds generalizing sub with
  | zero => omega
  | succ rounds ih =>
    rw [tryNext, getElem?_eq_getElem hlt]
    dsimp only
    split
    · exact ⟨_, rfl⟩
    · rename_i next _ hnext
      obtain ⟨rfl, hnext⟩ := hc.links _ _ next (getElem?_eq_getElem hlt) hnext
      refine ih hnext ?_
      dsimp only
      omega
    · exact ⟨_, rfl⟩

theorem Chain.gc_eq (hc : Chain s) (passes : Nat) :
    ∃ oldest, oldest < s.backings.length ∧ s.gc passes = { s with oldest := oldest } := by
  induction passes generalizing s with
  | zero => exact ⟨_, hc.oldest, rfl⟩
  | succ passes ih =>
    rw [gc]
    split
    · exact ⟨_, hc.oldest, rfl⟩
    rename_i next hnext
    split
    · exact ⟨_, hc.oldest, rfl⟩
    obtain ⟨k, hk, hnext⟩ := bind_eq_some_iff.mp hnext
    exact ih (s := { s with oldest := next }) { hc with oldest := (hc.links _ k next hk hnext).2 }

end

theorem sound_create (capacity : Nat) (h : 0 < capacity) (publishers morphs : Nat) :
    Sound (create capacity h publishers morphs : CapacityPubSub α) := by
  have hidle : ∀ t ∈ (create capacity h publishers morphs : CapacityPubSub α).publishers,
      t = .idle := fun t ht => eq_of_mem_replicate ht
  have hnone : ∀ m ∈ (create capacity h publishers morphs : CapacityPubSub α).morphs,
      m = .idle := fun m hm => eq_of_mem_replicate hm
  have hfirst : ∀ (g : Nat) (k : PubSubBacking α),
      (create capacity h publishers morphs : CapacityPubSub α).backings[g]? = some k →
      k = backing capacity h := fun g k hk => mem_singleton.mp (mem_of_getElem? hk)
  refine ⟨⟨rfl, Nat.one_pos, fun k hk => ?_, fun g k c hk hnext => ?_, fun m hm old new d hd => ?_,
    fun t ht b hb => ?_⟩, ⟨fun g k hk => ?_, fun m hm old new hb => ?_, fun old new hlink => ?_,
    fun g k hk hsome => ?_⟩, ⟨fun i => rfl, fun i t b ht hb => ?_⟩, fun sub hsub => by cases hsub⟩
  · cases mem_singleton.mp hk
    exact PubSubRing.logs_create capacity h
  · cases hfirst g k hk
    cases hnext
  · cases hnone m hm
    cases hd
  · cases hidle t ht
    cases hb
  · cases hfirst g k hk
    refine (countP_eq_zero.mpr fun t ht hon => ?_).symm
    cases hidle t ht
    cases hon
  · cases hnone m hm
    cases hb
  · cases hnone _ hlink
  · cases hfirst g k hk
    cases hsome
  · cases hidle t (mem_of_getElem? ht)
    cases hb

theorem Sound.step (hs : Sound s) {e : PubSubEvent α} (h : s.step e = some s') : Keeps s s' := by
  have hsame : Keeps s s := ⟨hs, grows_of_eq rfl⟩
  have hactive := hs.chain.active
  cases e with
  | publish i payload =>
    rw [CapacityPubSub.step] at h
    split at h <;> cases h
    · rename_i ht
      exact hs.setPublisher ht rfl nofun nofun
    · exact hsame
  | publishOn i =>
    rw [CapacityPubSub.step] at h
    split at h <;> cases h
    · exact hs.publishOn ‹_›
    · exact hsame
  | morphCapacityTo j capacity =>
    rw [CapacityPubSub.step] at h
    split at h <;> cases h
    · exact hs.morphCapacityTo capacity
    · exact hsame
  | morphOn j =>
    rw [CapacityPubSub.step] at h
    split at h <;> cases h
    · exact hs.morphOn ‹_›
    · exact hsame
  | subscribeFromNow =>
    cases h
    have hlt : s.active < s.backings.length := by omega
    have hk := getElem?_eq_getElem hlt
    refine ⟨hs.subscribe hk ?_, grows_of_eq rfl⟩
    rw [hk, map_some, getD_some]
    exact Nat.le_of_eq (hs.chain.rings _ (getElem_mem hlt)).head
  | subscribeFromOldest =>
    cases h
    exact ⟨hs.subscribe (getElem?_eq_getElem hs.chain.oldest) (Nat.zero_le _), grows_of_eq rfl⟩
  | tryNext k =>
    rw [CapacityPubSub.step] at h
    split at h
    · cases h
      exact hsame
    rename_i sub hsub
    obtain ⟨⟨sub', r⟩, hnext, rfl⟩ := map_eq_some_iff.mp h
    have hr := (hs.reads sub (mem_of_getElem? hsub)).tryNext hs.chain (hs.chain.moves hnext)
    refine ⟨hs.withSubs fun other hother => ?_, grows_of_eq rfl⟩
    rcases mem_or_eq_of_mem_set hother with hother | rfl
    · exact hs.reads other hother
    · exact hr
  | gc passes =>
    cases h
    obtain ⟨oldest, hlt, hgc⟩ := hs.chain.gc_eq passes
    rw [hgc]
    exact hs.keeps { hs.chain with oldest := hlt } { hs.handshake with }
      ⟨hs.inOrder.total, hs.inOrder.ahead⟩ rfl (grows_of_eq rfl)

theorem Sound.step_returns (hs : Sound s) (e : PubSubEvent α) : ∃ s', s.step e = some s' := by
  cases e with
  | tryNext k =>
    rw [CapacityPubSub.step]
    split
    · exact ⟨_, rfl⟩
    rename_i sub hsub
    obtain ⟨k, hk, -⟩ := (hs.reads sub (mem_of_getElem? hsub)).at_log
    obtain ⟨r, hr⟩ := hs.chain.tryNext_returns (lt_of_some hk) (Nat.le_add_left ..)
    exact ⟨_, map_eq_some_iff.mpr ⟨r, hr, rfl⟩⟩
  | subscribeFromNow | subscribeFromOldest | gc => exact ⟨_, rfl⟩
  | publish | publishOn | morphCapacityTo | morphOn =>
    rw [CapacityPubSub.step]
    split <;> exact ⟨_, rfl⟩

/-- What a subscriber received is the stream from its starting point on. -/
theorem Reads.stream (hr : Reads s sub) :
    sub.received <+: ((s.logs.drop sub.start.1).flatten).drop sub.start.2 := by
  obtain ⟨k, hk, -⟩ := hr.at_log
  obtain ⟨rest, hrest⟩ := segment_prefix (logs_getElem? hk) hr.reached sub.position
  rw [hr.received, ← hrest, drop_append_of_le_length hr.start_le]
  exact prefix_append ..

/-- Every publisher's items arrive in the order it published them. -/
theorem Sound.arrivals (hs : Sound s) (hsub : sub ∈ s.subs) (i : Nat) :
    (sub.received.filter fun x => x.1 == i) <:+: s.published.filter fun x => x.1 == i := by
  rw [← hs.inOrder.total i]
  refine List.IsInfix.filter _ ?_
  have hsuffix : (s.logs.drop sub.start.1).flatten <:+ s.logs.flatten := by
    conv_rhs => rw [← take_append_drop sub.start.1 s.logs, flatten_append]
    exact suffix_append ..
  exact ((hs.reads sub hsub).stream.isInfix).trans ((drop_suffix ..).trans hsuffix).isInfix

/-- Whatever the steps of publishes and morphs interleave to, a subscriber receives the
items from its starting point on in order of backing and position, skipping none, those of
one publisher in the order published; no publish lands in a backing it has left; and every
call returns. -/
theorem subscribers_follow_stream {capacity : Nat} {hpos : 0 < capacity} {publishers morphs : Nat}
    {events : List (PubSubEvent α)} {s : CapacityPubSub α}
    (hrun : run step (create capacity hpos publishers morphs) events = some s) :
    (∀ sub ∈ s.subs, sub.received <+: ((s.logs.drop sub.start.1).flatten).drop sub.start.2 ∧
      (∀ i, (sub.received.filter fun x => x.1 == i) <:+: s.published.filter fun x => x.1 == i) ∧
      ∀ e s', s.step e = some s' → ∀ g : Nat, sub.start.1 ≤ g → g < sub.backing →
        s'.logs[g]? = s.logs[g]?) ∧ ∀ e, ∃ s', s.step e = some s' := by
  have hs : Sound s :=
    Lib.run_preserves (fun _ _ _ hs h => (hs.step h).sound) (sound_create capacity hpos publishers morphs)
      hrun
  refine ⟨fun sub hsub => ⟨(hs.reads sub hsub).stream, hs.arrivals hsub, ?_⟩, hs.step_returns⟩
  intro e s' hstep g hg hlt
  obtain ⟨k, hk, hnext⟩ := (hs.reads sub hsub).left g hg hlt
  obtain ⟨k', hk', -, hfinal⟩ := (hs.step hstep).grows g k hk
  rw [logs_getElem? hk, logs_getElem? hk', (hfinal hnext).2]

/-- A publish is inside the first backing while a morph replaces it; the morph waits for
it, and the subscriber takes both items in order. -/
def overlappedMorph : List (PubSubEvent Nat) :=
  [.subscribeFromNow, .publish 0 5, .publishOn 0, .publishOn 0, .morphCapacityTo 0 4, .publishOn 0,
    .morphOn 0, .morphOn 0, .publish 1 6, .publishOn 1, .publishOn 1, .publishOn 1, .publishOn 1,
    .publishOn 1, .tryNext 0, .publishOn 0, .publishOn 0, .morphOn 0, .morphOn 0, .tryNext 0,
    .tryNext 0, .gc 1]

theorem subscribers_follow_stream_overlapped :
    ∃ s : CapacityPubSub Nat, run step (create 2 Nat.two_pos 2 1) overlappedMorph = some s ∧
      s.subs.map CapacityPubSubSubscriber.received = [[(0, 5), (1, 6)]] ∧ (∀ sub ∈ s.subs,
        sub.received <+: ((s.logs.drop sub.start.1).flatten).drop sub.start.2 ∧
        (∀ i, (sub.received.filter fun x => x.1 == i) <:+: s.published.filter fun x => x.1 == i) ∧
        ∀ e s', s.step e = some s' → ∀ g : Nat, sub.start.1 ≤ g → g < sub.backing →
          s'.logs[g]? = s.logs[g]?) ∧ ∀ e, ∃ s', s.step e = some s' := by
  have hlast : (run step (create 2 Nat.two_pos 2 1) overlappedMorph).map
      (fun s => s.subs.map CapacityPubSubSubscriber.received) = some [[(0, 5), (1, 6)]] := by
    decide +kernel
  obtain ⟨s, hrun, heq⟩ := map_eq_some_iff.mp hlast
  exact ⟨s, hrun, heq, subscribers_follow_stream hrun⟩

end CapacityPubSub
end SubEtha.Ring
