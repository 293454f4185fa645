import SubEtha.Maps.LruCache
import SubEtha.Maps.Refinement

namespace SubEtha.Maps.SharedLruCache
open List Option Recency SharedHashMap

variable {K V : Type} [DecidableEq K] [Inhabited K] [Inhabited V] {hash : K → Nat}
variable {c : SharedLruCache K V} {a : Recency K V}

/-- The map holds, for the key of each node of the ring, that node. -/
def Indexed (f : Finmap fun _ : K => Nat) (l : SharedLinkedList (K × V)) (ids : List Nat) : Prop :=
  ∀ k i, f.lookup k = some i ↔ i ∈ ids ∧ (l.readValue i).1 = k

/-- The ring of nodes `ids` spells the entries of `a`, and the map indexes it. -/
structure Spells (hash : K → Nat) (c : SharedLruCache K V) (a : Recency K V) (ids : List Nat)
    (f : Finmap fun _ : K => Nat) : Prop where
  capacity : c.capacity = a.capacity
  room : c.list.region.capacity = c.capacity + 2
  slots : c.capacity < c.map.capacity
  list : c.list.Holds ids
  map : SharedHashMap.Refines hash c.map f
  entries : ids.map c.list.readValue = a.entries
  indexed : Indexed f c.list ids

/-- The cache holds the entries of the policy, in its order. -/
def Mirrors (hash : K → Nat) (c : SharedLruCache K V) (a : Recency K V) : Prop :=
  ∃ ids f, Spells hash c a ids f

theorem Spells.length (h : Spells hash c a ids f) : ids.length = a.entries.length := by
  rw [← h.entries, length_map]

variable {x fuel : Nat}

/-- The node the map names for a key, split out of the ring. -/
theorem Spells.found (h : Spells hash c a ids f) (hx : f.lookup key = some x) :
    ∃ before after v, ids = before ++ x :: after ∧ c.list.readValue x = (key, v) ∧
      a.peek key = some v ∧ without a.entries key = (before ++ after).map c.list.readValue := by
  obtain ⟨hmem, hkey⟩ := (h.indexed key x).mp hx
  obtain ⟨before, after, rfl⟩ := append_of_mem hmem
  obtain ⟨v, hval⟩ : ∃ v, c.list.readValue x = (key, v) := ⟨_, Prod.ext hkey rfl⟩
  have hentries := h.entries
  rw [map_append, map_cons, hval] at hentries
  have hnodup := a.distinct
  rw [← hentries, map_append, map_cons, nodup_append, nodup_cons] at hnodup
  have hbefore : ∀ e ∈ before.map c.list.readValue, e.1 ≠ key := fun e he =>
    hnodup.2.2 e.1 (mem_map_of_mem he) key mem_cons_self
  have hafter : ∀ e ∈ after.map c.list.readValue, e.1 ≠ key := fun e he heq =>
    hnodup.2.1.1 (mem_map.mpr ⟨e, he, heq⟩)
  refine ⟨before, after, v, rfl, hval, ?_, ?_⟩
  · rw [peek, ← hentries, find?_append, find?_eq_none.mpr fun e he => by simpa using hbefore e he]
    simp
  have hfilter : ∀ l : List (K × V), (∀ e ∈ l, e.1 ≠ key) → without l key = l :=
    fun l hl => filter_eq_self.mpr fun e he => decide_eq_true (hl e he)
  rw [← hentries, map_append]
  unfold without at hfilter ⊢
  rw [filter_append, filter_cons, hfilter _ hbefore, hfilter _ hafter, if_neg (by simp)]

theorem Spells.not_found (h : Spells hash c a ids f) (hx : f.lookup key = none) :
    a.peek key = none ∧ without a.entries key = a.entries := by
  have hne : ∀ e ∈ a.entries, e.1 ≠ key := by
    intro e he heq
    rw [← h.entries] at he
    obtain ⟨i, hi, rfl⟩ := mem_map.mp he
    have hsome := (h.indexed key i).mpr ⟨hi, heq⟩
    rw [hx] at hsome
    cases hsome
  refine ⟨?_, filter_eq_self.mpr fun e he => decide_eq_true (hne e he)⟩
  rw [peek, find?_eq_none.mpr fun e he => by simpa using hne e he]
  rfl

omit [Inhabited K] in
theorem insert_stores (h : SharedHashMap.Refines hash m f) (hfuel : 0 < fuel)
    (hcard : f.keys.card < m.capacity) (key : K) (value : Nat) :
    ∃ m' o, m.insert hash fuel key value = some (m', .ok o) ∧
      SharedHashMap.Refines hash m' (f.insert key value) ∧ m'.capacity = m.capacity := by
  obtain ⟨m', hinsert, href, hcap⟩ := insert_refines h hfuel key value
  unfold Bounded.place at hinsert href
  cases hk : f.lookup key with
  | some old =>
    rw [hk] at hinsert href
    exact ⟨m', _, hinsert, href, hcap⟩
  | none =>
    rw [hk] at hinsert href
    rw [if_neg (ne_of_lt hcard)] at hinsert href
    exact ⟨m', _, hinsert, href, hcap⟩

/-- Push an entry in front of a ring without its key, in a map that indexes the other keys. -/
theorem pushed (hfuel : 0 < fuel) (hcap : c.capacity = a.capacity)
    (hroom : c.list.region.capacity = c.capacity + 2) (hslots : c.capacity < c.map.capacity)
    (hlist : c.list.Holds ids) (hmap : SharedHashMap.Refines hash c.map f)
    (hothers : ∀ k i, k ≠ key → (f.lookup k = some i ↔ i ∈ ids ∧ (c.list.readValue i).1 = k))
    (ha : a.entries = (key, value) :: ids.map c.list.readValue) :
    ∃ list idx map o, c.list.pushFront (key, value) = (list, .ok idx) ∧
      c.map.insert hash fuel key idx = some (map, .ok o) ∧
      Mirrors hash ⟨map, list, c.capacity⟩ a := by
  have hbounded := a.bounded
  have hdistinct := a.distinct
  rw [ha, length_cons, length_map] at hbounded
  rw [ha, map_cons, nodup_cons] at hdistinct
  have hnone : ∀ i ∈ ids, (c.list.readValue i).1 ≠ key := fun i hi heq =>
    hdistinct.1 (mem_map.mpr ⟨_, mem_map_of_mem hi, heq⟩)
  have hcard : f.keys.card < c.map.capacity := by
    have hsub : f.keys ⊆ (key :: ids.map fun i => (c.list.readValue i).1).toFinset := fun k hk => by
      rw [List.mem_toFinset]
      by_cases hkey : k = key
      · exact hkey ▸ mem_cons_self
      obtain ⟨i, hi⟩ := Finmap.mem_iff.mp (Finmap.mem_keys.mp hk)
      obtain ⟨hmem, heq⟩ := (hothers k i hkey).mp hi
      exact mem_cons_of_mem _ (mem_map.mpr ⟨i, hmem, heq⟩)
    have hle := (Finset.card_le_card hsub).trans (toFinset_card_le _)
    rw [length_cons, length_map] at hle
    omega
  obtain ⟨list, idx, hpush, hfresh, hlist', hval, hvals, hcap'⟩ :=
    hlist.pushFront (key, value) (by omega)
  obtain ⟨map, o, hinsert, hmap', hmapCap⟩ := insert_stores hmap hfuel hcard key idx
  have hsame : ∀ i ∈ ids, list.readValue i = c.list.readValue i := fun i hi =>
    hvals i fun heq => hfresh (mem_cons_of_mem _ (heq ▸ hi))
  refine ⟨list, idx, map, o, hpush, hinsert, idx :: ids, f.insert key idx, hcap,
    hcap'.trans hroom, lt_of_lt_of_eq hslots hmapCap.symm, hlist', hmap', ?_, fun k i => ?_⟩
  · rw [map_cons, hval, ha, map_congr_left hsame]
  rw [lookup_insert_iff, mem_cons]
  constructor
  · rintro (⟨rfl, rfl⟩ | ⟨hne, hi⟩)
    · exact ⟨.inl rfl, by rw [hval]⟩
    · obtain ⟨hmem, heq⟩ := (hothers k i hne).mp hi
      exact ⟨.inr hmem, by rw [hsame i hmem, heq]⟩
  rintro ⟨rfl | hmem, heq⟩
  · rw [hval] at heq
    exact .inl ⟨heq.symm, rfl⟩
  rw [hsame i hmem] at heq
  have hne : k ≠ key := fun hk => hnone i hmem (heq.trans hk)
  exact .inr ⟨hne, (hothers k i hne).mpr ⟨hmem, heq⟩⟩

section
variable {f : Finmap fun _ : K => Nat} {key : K} {before after : List Nat}
  (h : Spells hash c a (before ++ x :: after) f) (hx : (c.list.readValue x).1 = key)
include h hx

/-- The ring without the node of a key: the map still indexes every other key. -/
theorem Spells.dropped : (c.list.removeByIndex x).1.Holds (before ++ after) ∧
      (before ++ after).map (c.list.removeByIndex x).1.readValue =
        (before ++ after).map c.list.readValue ∧
      (c.list.removeByIndex x).1.region.capacity = c.list.region.capacity ∧
      ∀ k i, k ≠ key → (f.lookup k = some i ↔
        i ∈ before ++ after ∧ ((c.list.removeByIndex x).1.readValue i).1 = k) := by
  obtain ⟨-, hholds, hvals, hcap⟩ := h.list.removeByIndex
  refine ⟨hholds, map_congr_left fun i _ => hvals i, hcap, fun k i hne => ?_⟩
  rw [hvals, h.indexed k i]
  have hi : (c.list.readValue i).1 = k → i ≠ x := fun heq hix => hne (heq ▸ hix ▸ hx)
  constructor
  · rintro ⟨hmem, heq⟩
    refine ⟨?_, heq⟩
    have hperm := perm_middle.subset hmem
    exact (mem_cons.mp hperm).resolve_left (hi heq)
  · rintro ⟨hmem, heq⟩
    exact ⟨perm_middle.symm.subset (mem_cons_of_mem _ hmem), heq⟩

theorem Spells.erased (hm : SharedHashMap.Refines hash m (f.erase key))
    (hcap : m.capacity = c.map.capacity) (hcap' : a'.capacity = a.capacity)
    (ha' : a'.entries = (before ++ after).map c.list.readValue) :
    Mirrors hash ⟨m, (c.list.removeByIndex x).1, c.capacity⟩ a' := by
  obtain ⟨hholds, hvals, hregion, hothers⟩ := h.dropped hx
  refine ⟨before ++ after, f.erase key, h.capacity.trans hcap'.symm, hregion.trans h.room,
    lt_of_lt_of_eq h.slots hcap.symm, hholds, hm, hvals.trans ha'.symm, fun k i => ?_⟩
  rw [lookup_erase_iff]
  constructor
  · rintro ⟨hne, hi⟩
    exact (hothers k i hne).mp hi
  rintro ⟨hmem, heq⟩
  have hne : k ≠ key := by
    rintro rfl
    have hvalue : ((c.list.removeByIndex x).1.readValue i).1 = (c.list.readValue i).1 := by
      rw [h.list.removeByIndex.2.2.1]
    have hix : i = x := by
      have hin : f.lookup k = some i := (h.indexed k i).mpr
        ⟨perm_middle.symm.subset (mem_cons_of_mem _ hmem), hvalue ▸ heq⟩
      have hxin : f.lookup k = some x := (h.indexed k x).mpr ⟨mem_append_right _ mem_cons_self, hx⟩
      exact Option.some.inj (hin.symm.trans hxin)
    have hnodup := (nodup_cons.mp h.list.circle.nodup).2
    exact (nodup_cons.mp (perm_middle.nodup_iff.mp hnodup)).1 (hix ▸ hmem)
  exact ⟨hne, (hothers k i hne).mpr ⟨hmem, heq⟩⟩

end

theorem get_mirrors (h : Mirrors hash c a) (key : K) : c.get hash key = some (a.peek key) := by
  obtain ⟨ids, f, hs⟩ := h
  rw [get, get_refines hs.map, map_some]
  cases hx : f.lookup key with
  | none => rw [(hs.not_found hx).1, bind_none]
  | some x =>
    obtain ⟨before, after, v, rfl, hval, hpeek, -⟩ := hs.found hx
    rw [hpeek, bind_some, hs.list.get (mem_append_right _ mem_cons_self), hval]
    simp

theorem remove_mirrors (h : Mirrors hash c a) (key : K) :
    ∃ c', c.remove hash key = some (c', a.peek key) ∧ Mirrors hash c' (a.remove key) := by
  obtain ⟨ids, f, hs⟩ := h
  obtain ⟨m, hremove, hm, hcap⟩ := remove_refines hs.map key
  rw [remove, hremove, map_some]
  cases hx : f.lookup key with
  | none =>
    obtain ⟨hpeek, hwithout⟩ := hs.not_found hx
    rw [hpeek]
    refine ⟨_, rfl, ids, f.erase key, hs.capacity, hs.room, lt_of_lt_of_eq hs.slots hcap.symm,
      hs.list, hm, hs.entries.trans hwithout.symm, fun k i => ?_⟩
    rw [lookup_erase_iff, ← hs.indexed k i]
    refine ⟨And.right, fun hk => ⟨?_, hk⟩⟩
    rintro rfl
    rw [hx] at hk
    cases hk
  | some x =>
    obtain ⟨before, after, v, rfl, hval, hpeek, hwithout⟩ := hs.found hx
    rw [hpeek]
    dsimp only
    rw [hs.list.remove (mem_append_right _ mem_cons_self), hs.list.removeByIndex.1, hval]
    exact ⟨_, rfl, hs.erased (by rw [hval]) hm hcap rfl hwithout⟩

theorem evictOldest_mirrors (h : Mirrors hash c a) :
    ∃ c', c.evictOldest hash = some (c', a.entries.getLast?) ∧ Mirrors hash c' a.evict := by
  obtain ⟨ids, f, hs⟩ := h
  rcases eq_nil_or_concat ids with rfl | ⟨front, x, rfl⟩
  · have hnil : a.entries = [] := hs.entries.symm
    rw [evictOldest, hs.list.popBack_empty, hnil]
    exact ⟨_, rfl, [], f, hs.capacity, hs.room, hs.slots, hs.list, hs.map,
      by rw [entries_evict, hnil]; rfl, hs.indexed⟩
  rw [concat_eq_append] at hs
  obtain ⟨m, hremove, hm, hcap⟩ := remove_refines hs.map (c.list.readValue x).1
  have hentries : a.entries = front.map c.list.readValue ++ [c.list.readValue x] := by
    rw [← hs.entries, map_append]
    rfl
  rw [evictOldest, hs.list.popBack, hentries, getLast?_concat]
  dsimp only
  rw [hremove]
  refine ⟨_, rfl, hs.erased rfl hm hcap rfl ?_⟩
  simp [entries_evict, hentries]

/-- The node of a present key is replaced by one in front, with any value. -/
theorem Spells.renewed (h : Spells hash c a ids f) (hx : f.lookup key = some x) (hfuel : 0 < fuel)
    (value : V) :
    ∃ list idx map o, (c.list.removeByIndex x).1.pushFront (key, value) = (list, .ok idx) ∧
      c.map.insert hash fuel key idx = some (map, .ok o) ∧
      Mirrors hash ⟨map, list, c.capacity⟩ (a.put key value) := by
  obtain ⟨before, after, v, rfl, hval, -, hwithout⟩ := h.found hx
  obtain ⟨hholds, hvals, hcap, hothers⟩ := h.dropped (congrArg Prod.fst hval)
  have hlength := h.length.trans_le a.bounded
  rw [length_append, length_cons] at hlength
  refine pushed (c := { c with list := (c.list.removeByIndex x).1 }) hfuel h.capacity
    (hcap.trans h.room) h.slots hholds h.map hothers ?_
  rw [entries_put, hwithout, hvals, take_of_length_le]
  rw [length_map, length_append]
  omega

section
variable (h : Mirrors hash c a)
include h

theorem touch_mirrors (hfuel : 0 < fuel) (key : K) :
    ∃ c', c.touch hash fuel key = some (c', (a.use key).2.isSome) ∧
      Mirrors hash c' (a.use key).1 := by
  obtain ⟨ids, f, hs⟩ := h
  rw [touch, touchStatus, get_refines hs.map, bind_some]
  unfold use
  cases hx : f.lookup key with
  | none =>
    rw [(hs.not_found hx).1]
    exact ⟨c, rfl, ids, f, hs⟩
  | some x =>
    obtain ⟨before, after, v, rfl, hval, hpeek, -⟩ := hs.found hx
    obtain ⟨list, idx, map, o, hpush, hinsert, hm⟩ := hs.renewed hx hfuel v
    rw [hpeek]
    dsimp only
    rw [hs.list.remove (mem_append_right _ mem_cons_self), hs.list.removeByIndex.1, hval]
    dsimp only
    rw [hpush]
    dsimp only
    rw [hinsert]
    exact ⟨_, rfl, hm⟩

theorem getAndTouch_mirrors (hfuel : 0 < fuel) (key : K) :
    ∃ c', c.getAndTouch hash fuel key = some (c', (a.use key).2) ∧
      Mirrors hash c' (a.use key).1 := by
  obtain ⟨c', htouch, hm⟩ := touch_mirrors h hfuel key
  rw [getAndTouch, get_mirrors h, bind_some]
  unfold use at hm ⊢
  cases hpeek : a.peek key with
  | none => exact ⟨c, rfl, h⟩
  | some v =>
    rw [hpeek] at hm
    rw [htouch]
    exact ⟨c', rfl, hm⟩

/-- Ahead of a new key the policy's victim goes, and its other entries stay. -/
theorem makeRoom_mirrors (hnew : without a.entries key = a.entries) :
    ∃ c' a', c.makeRoom hash = some (c', a.victim key) ∧ Mirrors hash c' a' ∧
      a'.capacity = a.capacity ∧ a'.entries = a.entries.take (a.capacity - 1) := by
  obtain ⟨ids, f, hs⟩ := h
  have hlen : c.len = a.entries.length := hs.list.len_eq.trans hs.length
  have hcap := hs.capacity
  have hbounded := a.bounded
  rw [makeRoom, victim, hnew]
  by_cases hfull : c.capacity ≤ c.len
  · obtain ⟨c', hevict, hm⟩ := evictOldest_mirrors ⟨ids, f, hs⟩
    have hlast : a.capacity - 1 = a.entries.length - 1 := by omega
    rw [if_pos hfull, hevict, hlast]
    refine ⟨c', a.evict, ?_, hm, rfl, ?_⟩
    · rw [head?_drop, getLast?_eq_getElem?]
    · rw [entries_evict, dropLast_eq_take]
  · rw [if_neg hfull, drop_of_length_le (by omega), take_of_length_le (by omega)]
    exact ⟨c, a, rfl, ⟨ids, f, hs⟩, rfl, rfl⟩

theorem put_mirrors (hfuel : 0 < fuel) (key : K) (value : V) :
    ∃ c', c.putInner hash fuel key value = some (c', a.victim key, .ok (a.peek key)) ∧
      Mirrors hash c' (a.put key value) := by
  obtain ⟨ids, f, hs⟩ := h
  rw [putInner, get_refines hs.map, bind_some]
  cases hx : f.lookup key with
  | none =>
    obtain ⟨hpeek, hwithout⟩ := hs.not_found hx
    obtain ⟨c1, a1, hroom, ⟨ids1, f1, hs1⟩, hcap1, hentries1⟩ :=
      makeRoom_mirrors ⟨ids, f, hs⟩ hwithout
    have hcap : c1.capacity = (a.put key value).capacity := hs1.capacity.trans hcap1
    have hentries : (a.put key value).entries = (key, value) :: ids1.map c1.list.readValue := by
      rw [entries_put, hwithout, hs1.entries, hentries1]
    obtain ⟨list, idx, map, o, hpush, hinsert, hm⟩ := pushed hfuel hcap hs1.room hs1.slots hs1.list
      hs1.map (fun k i _ => hs1.indexed k i) hentries
    rw [hpeek]
    dsimp only
    rw [hroom, bind_some, pushEntry, hpush]
    dsimp only
    rw [hinsert]
    exact ⟨_, rfl, hm⟩
  | some x =>
    obtain ⟨before, after, v, hids, hval, hpeek, hwithout⟩ := hs.found hx
    obtain ⟨list, idx, map, o, hpush, hinsert, hm⟩ := hs.renewed hx hfuel value
    have hvictim : a.victim key = none := by
      have hlength := hs.length.trans_le a.bounded
      rw [hids, length_append, length_cons] at hlength
      rw [victim, hwithout, drop_of_length_le]
      · rfl
      · rw [length_map, length_append]
        omega
    have hmem : x ∈ ids := hids ▸ mem_append_right _ mem_cons_self
    have hremoved : (c.list.removeByIndex x).2 = (key, v) := by
      rw [← hval]
      subst hids
      exact hs.list.removeByIndex.1
    rw [hpeek, hvictim]
    dsimp only
    rw [hs.list.remove hmem, hremoved, pushEntry]
    rw [hpush]
    dsimp only
    rw [hinsert]
    exact ⟨_, rfl, hm⟩

end

theorem Spells.length_le (h : Spells hash c a ids f) (hfuel : a.capacity ≤ fuel) :
    ids.length ≤ fuel := (h.length.trans_le a.bounded).trans hfuel

section
variable (h : Mirrors hash c a) (hfuel : a.capacity ≤ fuel)
include h hfuel

theorem snapshots_mirror :
    c.snapshotMruFirst fuel = some a.entries ∧ c.snapshotLruFirst fuel = some a.entries.reverse := by
  obtain ⟨ids, f, hs⟩ := h
  refine ⟨(hs.list.iterForward (hs.length_le hfuel)).trans (congrArg some hs.entries), ?_⟩
  rw [snapshotLruFirst, hs.list.iterBackward (hs.length_le hfuel), map_reverse, hs.entries]

theorem call_mirrors (op : LruCall K V) :
    ∃ c', c.call hash fuel op = some (c', (a.call op).2) ∧ Mirrors hash c' (a.call op).1 := by
  have hpos : 0 < fuel := lt_of_lt_of_le a.pos hfuel
  cases op with
  | put key value =>
    obtain ⟨c', hput, hm⟩ := put_mirrors h hpos key value
    exact ⟨c', by rw [call, hput]; rfl, hm⟩
  | get key => exact ⟨c, by rw [call, get_mirrors h]; rfl, h⟩
  | getAndTouch key =>
    obtain ⟨c', hget, hm⟩ := getAndTouch_mirrors h hpos key
    exact ⟨c', by rw [call, hget]; rfl, hm⟩
  | touch key =>
    obtain ⟨c', htouch, hm⟩ := touch_mirrors h hpos key
    exact ⟨c', by rw [call, htouch]; rfl, hm⟩
  | remove key =>
    obtain ⟨c', hremove, hm⟩ := remove_mirrors h key
    exact ⟨c', by rw [call, hremove]; rfl, hm⟩
  | evictOldest =>
    obtain ⟨c', hevict, hm⟩ := evictOldest_mirrors h
    exact ⟨c', by rw [call, hevict]; rfl, hm⟩
  | snapshotMruFirst => exact ⟨c, by rw [call, (snapshots_mirror h hfuel).1]; rfl, h⟩
  | snapshotLruFirst => exact ⟨c, by rw [call, (snapshots_mirror h hfuel).2]; rfl, h⟩

theorem calls_mirror (ops : List (LruCall K V)) :
    ∃ c', c.calls hash fuel ops = some (c', (a.calls ops).2) ∧ Mirrors hash c' (a.calls ops).1 := by
  induction ops generalizing c a with
  | nil => exact ⟨c, rfl, h⟩
  | cons op ops ih =>
    obtain ⟨c1, hcall, hm1⟩ := call_mirrors h hfuel op
    obtain ⟨c', hcalls, hm⟩ := ih hm1 ((a.capacity_call op).trans_le hfuel)
    refine ⟨c', ?_, hm⟩
    rw [calls, hcall, bind_some]
    dsimp only
    rw [hcalls]
    rfl

end

omit [Inhabited K] [Inhabited V] in
theorem capacity_calls (a : Recency K V) (ops : List (LruCall K V)) :
    (a.calls ops).1.capacity = a.capacity := by
  induction ops generalizing a with
  | nil => rfl
  | cons op ops ih => exact (ih (a.call op).1).trans (a.capacity_call op)

theorem create_mirrors {capacity : Nat} (hpos : 0 < capacity)
    (h : create capacity = some (.ok c)) : Mirrors hash c (empty capacity hpos) := by
  rw [create, if_pos (Nat.succ_le_of_lt hpos)] at h
  obtain ⟨map, hmap, h⟩ := bind_eq_some_iff.mp h
  obtain ⟨made, hlist, h⟩ := map_eq_some_iff.mp h
  cases made with
  | error e => cases h
  | ok list =>
    cases h
    obtain ⟨hempty, hcap⟩ : SharedHashMap.Refines hash map ∅ ∧
      map.capacity = max (capacity * 8) 32 := create_refines hmap
    obtain ⟨hholds, hregion⟩ := SharedLinkedList.create_holds hlist
    refine ⟨[], ∅, rfl, hregion, ?_, hholds, hempty, rfl, fun k i => ?_⟩
    · dsimp only
      omega
    · rw [Finmap.lookup_empty]
      exact ⟨nofun, fun hi => by cases hi.1⟩

/-- Every run of a cache returns, evicts and orders what the policy does, where a `get` is a
lookup that leaves the order alone and `get_and_touch` is the one that counts as a use. -/
theorem lru_refines_policy (hash : K → Nat) {capacity : Nat} (hpos : 0 < capacity)
    (hcreate : create capacity = some (.ok c)) {fuel : Nat} (hfuel : capacity ≤ fuel)
    (ops : List (LruCall K V)) :
    ∃ c', c.calls hash fuel ops = some (c', ((empty capacity hpos).calls ops).2) ∧
      c'.snapshotMruFirst fuel = some ((empty capacity hpos).calls ops).1.entries ∧
      c'.snapshotLruFirst fuel = some ((empty capacity hpos).calls ops).1.entries.reverse ∧
      c'.len = ((empty capacity hpos).calls ops).1.entries.length ∧ c'.len ≤ capacity := by
  obtain ⟨c', hcalls, hm⟩ := calls_mirror (create_mirrors hpos hcreate) hfuel ops
  refine ⟨c', hcalls, ?_⟩
  have hcap : ((empty capacity hpos).calls ops).1.capacity = capacity := capacity_calls _ ops
  obtain ⟨hmru, hlru⟩ := snapshots_mirror hm (hcap.trans_le hfuel)
  obtain ⟨ids, f, hs⟩ := hm
  have hlen : c'.len = ((empty capacity hpos).calls ops).1.entries.length :=
    hs.list.len_eq.trans hs.length
  exact ⟨hmru, hlru, hlen, hlen.trans_le ((Recency.bounded _).trans_eq hcap)⟩

/-- Two entries, a lookup of the older one, and a third entry. -/
def lookedUp : List (LruCall Nat Nat) := [.put 1 10, .put 2 20, .get 1, .put 3 30]

theorem lru_refines_policy_lookedUp :
    ∃ c c' : SharedLruCache Nat Nat, create 2 = some (.ok c) ∧ c.calls id 2 lookedUp =
        some (c', ((empty 2 Nat.two_pos).calls lookedUp).2) ∧
      c'.snapshotMruFirst 2 = some [(3, 30), (2, 20)] := by
  obtain ⟨c', hcalls, hsnap, -⟩ := lru_refines_policy (K := Nat) id Nat.two_pos rfl le_rfl lookedUp
  exact ⟨_, c', rfl, hcalls, hsnap⟩

/-- The order a cache of two entries shows after some calls. -/
def orderAfter (ops : List (LruCall Nat Nat)) : Option (List (Nat × Nat)) :=
  (create 2 : Option (Except LruError (SharedLruCache Nat Nat))).bind fun made =>
    made.toOption.bind fun c => (c.calls id 2 ops).bind fun out => out.1.snapshotMruFirst 2

/-- A lookup is not a use: the entry it found is the next one evicted, where under a policy
whose lookups count as uses the other one goes. -/
theorem lookup_not_a_use : orderAfter lookedUp = some [(3, 30), (2, 20)] ∧
      ((empty 2 Nat.two_pos).calls (lookedUp.map .strict)).1.entries = [(3, 30), (1, 10)] := by
  decide +kernel

end SubEtha.Maps.SharedLruCache
