import SubEtha.Lib.Runs
import SubEtha.Maps.Finite

namespace SubEtha.Maps
open List Option Finmap

namespace Bounded

variable {K V : Type} [DecidableEq K]

/-- Place a value at a key of a finite map bounded at a capacity; a present key is left
alone unless `overwrite`. -/
def place (capacity : Nat) (f : Finmap fun _ : K => V) (key : K) (value : V) (overwrite : Bool) :
    (Finmap fun _ : K => V) × Except MapError (Placed V) :=
  match f.lookup key with
  | some old => (if overwrite then f.insert key value else f, .ok (.existing old))
  | none => if f.keys.card = capacity then (f, .error .full) else (f.insert key value, .ok .new)

def compareExchange [DecidableEq V] (f : Finmap fun _ : K => V) (key : K) (expected new : V) :
    (Finmap fun _ : K => V) × Except MapError (Except V Unit) :=
  match f.lookup key with
  | some current =>
    if current = expected then (f.insert key new, .ok (.ok ())) else (f, .ok (.error current))
  | none => (f, .error .keyAbsent)

end Bounded

variable {fuel : Nat}

namespace SharedHashMap

variable {K V : Type}

section
variable {hash : K → Nat} {m : SharedHashMap K V}

theorem site_onto (hi : i < m.capacity) (k : Nat) : ∃ e < m.capacity, m.site k e = i := by
  have hpos : 0 < m.capacity := Nat.zero_lt_of_lt hi
  refine ⟨(i + (m.capacity - k % m.capacity)) % m.capacity, Nat.mod_lt _ hpos, ?_⟩
  have hrem := Nat.mod_lt k hpos
  have hsplit : k + (i + (m.capacity - k % m.capacity)) = m.capacity * (k / m.capacity + 1) + i := by
    have hdiv := Nat.div_add_mod k m.capacity
    rw [Nat.mul_add, mul_one]
    omega
  rw [site, Nat.add_mod_mod, hsplit, Nat.mul_add_mod, Nat.mod_eq_of_lt hi]

section
variable (h : Sound hash m)
include h

theorem Sound.count_le : m.count ≤ m.capacity := by
  rw [h.count]
  exact countP_le_length

/-- A walk that meets only entries has seen every slot taken. -/
theorem Sound.count_full (hall : ∀ e < m.capacity, ∃ s, Entry m (m.site k e) s) :
    m.count = m.capacity := by
  rw [h.count]
  refine countP_eq_length.mpr fun s hs => ?_
  obtain ⟨i, hi⟩ := mem_iff_getElem?.mp hs
  obtain ⟨e, he, rfl⟩ := site_onto (List.getElem_of_getElem? hi).1 k
  obtain ⟨t, ht⟩ := hall e he
  cases hi.symm.trans ht.at_slot
  exact beq_iff_eq.mpr ht.occupied

theorem Sound.count_vacant (hv : Vacant m k c s) : m.count ≠ m.capacity := by
  rw [h.count]
  intro hfull
  have hocc := countP_eq_length.mp hfull s (mem_of_getElem? hv.at_slot)
  exact hv.free (beq_iff_eq.mp hocc)

theorem Sound.holds_entry (he : Entry m j s) : holds s (hashKey hash s.payload.1) = true := by
  rw [holds, he.occupied, h.published j s he]
  simp

end

theorem not_entry_of_empty (hempty : ∀ s ∈ m.slots, s.state = .empty) (i : Nat) (s : MapSlot K V) :
    ¬Entry m i s := by
  rintro ⟨hget, hocc⟩
  rw [hempty s (mem_of_getElem? hget)] at hocc
  cases hocc

theorem sound_of_empty (hpos : 0 < m.capacity) (hempty : ∀ s ∈ m.slots, s.state = .empty)
    (hcount : m.count = 0) (htombstones : m.tombstones = 0) : Sound hash m := by
  have hno := not_entry_of_empty hempty
  have hzero : ∀ state, state ≠ .empty → 0 = m.slots.countP fun s => s.state == state := by
    intro state hne
    refine (countP_eq_zero.mpr fun s hs => ?_).symm
    rw [hempty s hs]
    exact fun h => hne (beq_iff_eq.mp h).symm
  exact ⟨hpos, fun i s he => absurd he (hno i s), fun i j s t he => absurd he (hno i s),
    fun i s he => absurd he (hno i s), hcount.trans (hzero _ (by simp)),
    htombstones.trans (hzero _ (by simp))⟩

theorem mem_live : (k, v) ∈ m.live ↔ ∃ i s, Entry m i s ∧ s.payload = (k, v) := by
  constructor
  · intro h
    obtain ⟨s, hs, heq⟩ := mem_map.mp h
    obtain ⟨hmem, hocc⟩ := mem_filter.mp hs
    obtain ⟨i, hi⟩ := mem_iff_getElem?.mp hmem
    exact ⟨i, s, ⟨hi, beq_iff_eq.mp hocc⟩, heq⟩
  · rintro ⟨i, s, ⟨hget, hocc⟩, heq⟩
    exact mem_map.mpr ⟨s, mem_filter.mpr ⟨mem_of_getElem? hget, beq_iff_eq.mpr hocc⟩, heq⟩

theorem length_live (h : Sound hash m) : m.live.length = m.count := by
  simp [live, h.count, countP_eq_length_filter]

theorem nodup_live (h : Sound hash m) : m.live.Pairwise fun a b => a.1 ≠ b.1 := by
  rw [live, pairwise_map, pairwise_filter, pairwise_iff_getElem]
  intro i j hi hj hlt hocci hoccj heq
  have hij := h.unique i j _ _ ⟨getElem?_eq_getElem hi, beq_iff_eq.mp hocci⟩
    ⟨getElem?_eq_getElem hj, beq_iff_eq.mp hoccj⟩ heq
  omega

end

variable [DecidableEq K] {hash : K → Nat} {m : SharedHashMap K V}

theorem place_refines (h : Refines hash m f) (hfuel : 0 < fuel) (key : K) (value : V)
    (overwrite : Bool) : ∃ m', m.place hash fuel key value overwrite =
        some (m', (Bounded.place m.capacity f key value overwrite).2) ∧
      Refines hash m' (Bounded.place m.capacity f key value overwrite).1 ∧
      m'.capacity = m.capacity := by
  unfold Bounded.place
  rcases place_spec h.sound hfuel key value overwrite with
    ⟨j, s, he, rfl, hplace⟩ | ⟨habsent, ⟨c, s, hv, hplace⟩ | ⟨hall, hplace⟩⟩
  · rw [h.entry he]
    refine ⟨_, hplace, ?_, ?_⟩
    · cases overwrite with
      | false => exact h
      | true => exact h.setValue he value
    · cases overwrite with
      | false => rfl
      | true => exact length_set
  · rw [h.absent habsent]
    dsimp only
    rw [if_neg (h.card ▸ h.sound.count_vacant hv)]
    exact ⟨_, hplace, h.placed habsent hv value, length_set⟩
  · rw [h.absent habsent]
    rw [if_pos (h.card.trans (h.sound.count_full hall))]
    exact ⟨_, hplace, h, rfl⟩

theorem get_refines (h : Refines hash m f) (key : K) : m.get hash key = some (f.lookup key) := by
  rcases find_spec h.sound key with ⟨j, s, he, rfl, hfind⟩ | ⟨habsent, hfind⟩
  · rw [get, hfind, h.entry he, map_some, bind_some, he.at_slot]
    rfl
  · rw [get, hfind, h.absent habsent]
    rfl

theorem remove_refines (h : Refines hash m f) (key : K) :
    ∃ m', m.remove hash key = some (m', f.lookup key) ∧ Refines hash m' (f.erase key) ∧
      m'.capacity = m.capacity := by
  rcases find_spec h.sound key with ⟨j, s, he, rfl, hfind⟩ | ⟨habsent, hfind⟩
  · refine ⟨m.removedAt j s, ?_, h.removed he, length_set⟩
    rw [remove, hfind, h.entry he, map_some]
    dsimp only
    rw [he.at_slot]
    exact congrArg some (if_pos (h.sound.holds_entry he))
  have hnone := h.absent habsent
  have hsame : f.erase key = f := by
    refine ext_lookup fun k => ?_
    by_cases hk : k = key
    · rw [hk, lookup_erase, hnone]
    · exact lookup_erase_ne hk
  rw [remove, hfind, hnone, hsame]
  exact ⟨m, rfl, h, rfl⟩

theorem compareExchange_refines [DecidableEq V] (h : Refines hash m f) (key : K) (expected new : V) :
    ∃ m', m.compareExchange hash key expected new =
        some (m', (Bounded.compareExchange f key expected new).2) ∧
      Refines hash m' (Bounded.compareExchange f key expected new).1 ∧ m'.capacity = m.capacity := by
  unfold Bounded.compareExchange
  rcases find_spec h.sound key with ⟨j, s, he, rfl, hfind⟩ | ⟨habsent, hfind⟩
  · rw [compareExchange, hfind, h.entry he, map_some]
    dsimp only
    rw [he.at_slot]
    dsimp only
    rw [if_pos (h.sound.holds_entry he)]
    split
    · exact ⟨_, rfl, h.setValue he new, length_set⟩
    · exact ⟨_, rfl, h, rfl⟩
  · rw [compareExchange, hfind, h.absent habsent]
    exact ⟨m, rfl, h, rfl⟩

theorem refines_of_empty (hpos : 0 < m.capacity) (hempty : ∀ s ∈ m.slots, s.state = .empty)
    (hcount : m.count = 0) (htombstones : m.tombstones = 0) : Refines hash m ∅ := by
  refine ⟨sound_of_empty hpos hempty hcount htombstones, fun k v => ⟨fun hk => ?_,
    fun ⟨i, s, he, _⟩ => absurd he (not_entry_of_empty hempty i s)⟩, hcount.symm⟩
  rw [lookup_empty] at hk
  cases hk

theorem clear_refines (h : Sound hash m) :
    Refines hash m.clear ∅ ∧ m.clear.capacity = m.capacity := by
  have hcap : m.clear.capacity = m.capacity := length_map ..
  refine ⟨refines_of_empty (hcap ▸ h.pos) (fun s hs => ?_) rfl rfl, hcap⟩
  obtain ⟨t, -, rfl⟩ := mem_map.mp hs
  rfl

theorem insert_refines (h : Refines hash m f) (hfuel : 0 < fuel) (key : K) (value : V) :
    ∃ m', m.insert hash fuel key value =
        some (m', outcome (Bounded.place m.capacity f key value true).2) ∧
      Refines hash m' (Bounded.place m.capacity f key value true).1 ∧ m'.capacity = m.capacity := by
  obtain ⟨m', hplace, href, hcap⟩ := place_refines h hfuel key value true
  exact ⟨m', by rw [insert, hplace]; rfl, href, hcap⟩

theorem insertAll_refines (hfuel : 0 < fuel) (hnodup : l.Pairwise fun a b => a.1 ≠ b.1)
    (h : Refines hash m f) (hnew : ∀ a ∈ l, f.lookup a.1 = none)
    (hroom : f.keys.card + l.length ≤ m.capacity) :
    ∃ m', insertAll hash fuel l m = some (m', .ok ()) ∧
      Refines hash m' (l.foldl (fun f a => f.insert a.1 a.2) f) ∧ m'.capacity = m.capacity := by
  induction l generalizing m f with
  | nil => exact ⟨m, rfl, h, rfl⟩
  | cons a l ih =>
    obtain ⟨k, v⟩ := a
    obtain ⟨hhead, htail⟩ := pairwise_cons.mp hnodup
    have hnone := hnew (k, v) (mem_cons_self ..)
    have hroom' : f.keys.card ≠ m.capacity := by
      rw [length_cons] at hroom
      omega
    obtain ⟨m1, hinsert, href, hcap⟩ := insert_refines h hfuel k v
    have hplace : Bounded.place m.capacity f k v true = (f.insert k v, .ok .new) := by
      rw [Bounded.place, hnone]
      exact if_neg hroom'
    rw [hplace] at hinsert href
    have hnokey : k ∉ f.keys := fun hmem => lookup_eq_none.mp hnone (mem_keys.mp hmem)
    have hnew' : ∀ b ∈ l, (f.insert k v).lookup b.1 = none := fun b hb => by
      rw [lookup_insert_of_ne _ (Ne.symm (hhead b hb))]
      exact hnew b (mem_cons_of_mem _ hb)
    have hroom1 : (f.insert k v).keys.card + l.length ≤ m1.capacity := by
      rw [keys_insert, Finset.card_insert_of_notMem hnokey, hcap]
      rw [length_cons] at hroom
      omega
    obtain ⟨m', hall, href', hcap'⟩ := ih htail href hnew' hroom1
    refine ⟨m', ?_, href', hcap'.trans hcap⟩
    rw [insertAll, hinsert]
    exact hall

theorem lookup_foldl_insert {l : List (K × V)} (hnodup : l.Pairwise fun a b => a.1 ≠ b.1)
    (f : Finmap fun _ : K => V) (k : K) (v : V) :
    (l.foldl (fun f a => f.insert a.1 a.2) f).lookup k = some v ↔
      (k, v) ∈ l ∨ ((∀ a ∈ l, a.1 ≠ k) ∧ f.lookup k = some v) := by
  induction l generalizing f with
  | nil => simp
  | cons a l ih =>
    obtain ⟨hhead, htail⟩ := pairwise_cons.mp hnodup
    rw [foldl_cons, ih htail, lookup_insert_iff, mem_cons]
    constructor
    · rintro (hmem | ⟨hno, ⟨rfl, rfl⟩ | ⟨hne, hk⟩⟩)
      · exact .inl (.inr hmem)
      · exact .inl (.inl rfl)
      refine .inr ⟨fun b hb => ?_, hk⟩
      rcases mem_cons.mp hb with rfl | hb
      · exact Ne.symm hne
      · exact hno b hb
    · rintro ((rfl | hmem) | ⟨hno, hk⟩)
      · exact .inr ⟨fun b hb => Ne.symm (hhead b hb), .inl ⟨rfl, rfl⟩⟩
      · exact .inl hmem
      · exact .inr ⟨fun b hb => hno b (mem_cons_of_mem _ hb),
          .inr ⟨Ne.symm (hno a (mem_cons_self ..)), hk⟩⟩

/-- A rebuild keeps the contents, drops the tombstones and reports how many there were. -/
theorem compact_refines (h : Refines hash m f) (hfuel : 0 < fuel) :
    ∃ m', m.compact hash fuel = some (m', .ok m.tombstoneCount) ∧ Refines hash m' f ∧
      m'.capacity = m.capacity := by
  obtain ⟨hclear, hcap⟩ := clear_refines h.sound
  have hnodup := nodup_live h.sound
  obtain ⟨m', hall, href, hcap'⟩ := insertAll_refines hfuel hnodup hclear
    (fun a _ => lookup_empty a.1) (by
      rw [keys_empty, Finset.card_empty, length_live h.sound, hcap, zero_add]
      exact h.sound.count_le)
  have hsame : m.live.foldl (fun f a => f.insert a.1 a.2) ∅ = f := by
    refine ext_lookup fun k => Option.ext fun v => ?_
    rw [lookup_foldl_insert hnodup, h.lookup, ← mem_live]
    refine ⟨fun hk => hk.resolve_right fun hk => ?_, .inl⟩
    rw [lookup_empty] at hk
    cases hk.2
  refine ⟨m', ?_, hsame ▸ href, hcap'.trans hcap⟩
  rw [compact, hall, ← h.sound.tombstones]
  rfl

end SharedHashMap

inductive Op (K V : Type)
  | insert (key : K) (value : V)
  | insertIfAbsent (key : K) (value : V)
  | swap (key : K) (value : V)
  | compareExchange (key : K) (expected new : V)
  | get (key : K)
  | remove (key : K)
  | clear
  | compact

inductive Reply (V : Type)
  | inserted (r : Except MapError InsertOutcome)
  | previous (r : Except MapError (Option V))
  | exchanged (r : Except MapError (Except V Unit))
  | value (v : Option V)
  | compacted (r : Except MapError Unit)
  | cleared

variable {K V : Type} [DecidableEq K] [DecidableEq V]

/-- One call on a finite map bounded at a capacity. -/
def Bounded.call (capacity : Nat) (f : Finmap fun _ : K => V) :
    Op K V → (Finmap fun _ : K => V) × Reply V
  | .insert key value =>
    let (f, r) := place capacity f key value true
    (f, .inserted (SharedHashMap.outcome r))
  | .insertIfAbsent key value =>
    let (f, r) := place capacity f key value false
    (f, .previous (SharedHashMap.previous r))
  | .swap key value =>
    let (f, r) := place capacity f key value true
    (f, .previous (SharedHashMap.previous r))
  | .compareExchange key expected new =>
    let (f, r) := compareExchange f key expected new
    (f, .exchanged r)
  | .get key => (f, .value (f.lookup key))
  | .remove key => (f.erase key, .value (f.lookup key))
  | .clear => (∅, .cleared)
  | .compact => (f, .compacted (.ok ()))

def Bounded.calls (capacity : Nat) : (Finmap fun _ : K => V) → List (Op K V) →
    (Finmap fun _ : K => V) × List (Reply V)
  | f, [] => (f, [])
  | f, op :: ops =>
    let (f, r) := call capacity f op
    let (f, rs) := calls capacity f ops
    (f, r :: rs)

namespace SharedHashMap

/-- One call on the table; `none` is a call that never returns. -/
def call (hash : K → Nat) (fuel : Nat) (m : SharedHashMap K V) :
    Op K V → Option (SharedHashMap K V × Reply V)
  | .insert key value => (m.insert hash fuel key value).map fun (m, r) => (m, .inserted r)
  | .insertIfAbsent key value =>
    (m.insertIfAbsent hash fuel key value).map fun (m, r) => (m, .previous r)
  | .swap key value => (m.swap hash fuel key value).map fun (m, r) => (m, .previous r)
  | .compareExchange key expected new =>
    (m.compareExchange hash key expected new).map fun (m, r) => (m, .exchanged r)
  | .get key => (m.get hash key).map fun v => (m, .value v)
  | .remove key => (m.remove hash key).map fun (m, v) => (m, .value v)
  | .clear => some (m.clear, .cleared)
  | .compact => (m.compact hash fuel).map fun (m, r) => (m, .compacted (r.map fun _ => ()))

def calls (hash : K → Nat) (fuel : Nat) : SharedHashMap K V → List (Op K V) →
    Option (SharedHashMap K V × List (Reply V))
  | m, [] => some (m, [])
  | m, op :: ops =>
    (m.call hash fuel op).bind fun (m, r) => (m.calls hash fuel ops).map fun (m, rs) => (m, r :: rs)

variable {hash : K → Nat} {m : SharedHashMap K V}

theorem call_refines (h : Refines hash m f) (hfuel : 0 < fuel) (op : Op K V) :
    ∃ m', m.call hash fuel op = some (m', (Bounded.call m.capacity f op).2) ∧
      Refines hash m' (Bounded.call m.capacity f op).1 ∧ m'.capacity = m.capacity := by
  cases op with
  | insert key value =>
    obtain ⟨m', hcall, href, hcap⟩ := insert_refines h hfuel key value
    exact ⟨m', by rw [call, hcall]; rfl, href, hcap⟩
  | insertIfAbsent key value =>
    obtain ⟨m', hcall, href, hcap⟩ := place_refines h hfuel key value false
    exact ⟨m', by rw [call, insertIfAbsent, hcall]; rfl, href, hcap⟩
  | swap key value =>
    obtain ⟨m', hcall, href, hcap⟩ := place_refines h hfuel key value true
    exact ⟨m', by rw [call, swap, hcall]; rfl, href, hcap⟩
  | compareExchange key expected new =>
    obtain ⟨m', hcall, href, hcap⟩ := compareExchange_refines h key expected new
    exact ⟨m', by rw [call, hcall]; rfl, href, hcap⟩
  | get key => exact ⟨m, by rw [call, get_refines h]; rfl, h, rfl⟩
  | remove key =>
    obtain ⟨m', hcall, href, hcap⟩ := remove_refines h key
    exact ⟨m', by rw [call, hcall]; rfl, href, hcap⟩
  | clear => exact ⟨m.clear, rfl, clear_refines h.sound⟩
  | compact =>
    obtain ⟨m', hcall, href, hcap⟩ := compact_refines h hfuel
    exact ⟨m', by rw [call, hcall]; rfl, href, hcap⟩

theorem calls_refine (h : Refines hash m f) (hfuel : 0 < fuel) (ops : List (Op K V)) :
    ∃ m', m.calls hash fuel ops = some (m', (Bounded.calls m.capacity f ops).2) ∧
      Refines hash m' (Bounded.calls m.capacity f ops).1 ∧ m'.capacity = m.capacity := by
  induction ops generalizing m f with
  | nil => exact ⟨m, rfl, h, rfl⟩
  | cons op ops ih =>
    obtain ⟨m1, hcall, href, hcap⟩ := call_refines h hfuel op
    obtain ⟨m', hcalls, href', hcap'⟩ := ih href
    rw [hcap] at hcalls href'
    refine ⟨m', ?_, href', hcap'.trans hcap⟩
    rw [calls, hcall, bind_some]
    dsimp only
    rw [hcalls]
    rfl

omit [DecidableEq V] in
theorem create_refines {capacity : Nat} {m : SharedHashMap K V} (h : create capacity zero = some m) :
    Refines hash m ∅ ∧ m.capacity = capacity := by
  unfold create at h
  split at h <;> cases h
  rename_i hcap
  have hlength : (replicate capacity (⟨.empty, 0, zero⟩ : MapSlot K V)).length = capacity :=
    length_replicate
  refine ⟨refines_of_empty (lt_of_lt_of_eq (Nat.zero_lt_of_lt hcap) hlength.symm)
    (fun s hs => ?_) rfl rfl, hlength⟩
  rw [eq_of_mem_replicate hs]

omit [DecidableEq V] in
/-- A probe reports a full table exactly when the key is absent and every slot is live. -/
theorem Refines.full_iff (h : Refines hash m f) (hfuel : 0 < fuel) (key : K) (value : V)
    (overwrite : Bool) : (∃ m', m.place hash fuel key value overwrite = some (m', .error .full)) ↔
      m.get hash key = some none ∧ m.len = m.capacity := by
  obtain ⟨m', hplace, -, -⟩ := place_refines h hfuel key value overwrite
  rw [hplace, get_refines h, len, ← h.card]
  unfold Bounded.place
  cases hk : f.lookup key with
  | some old => simp
  | none => by_cases hfull : f.keys.card = m.capacity <;> simp [hfull]

/-- For every capacity and hash function, a run of calls answers as a finite map bounded
at the capacity does; the counters are the numbers of live and of tombstone slots, and a
rebuild keeps the contents. -/
theorem hash_map_refines (hash : K → Nat) {capacity : Nat} {zero : K × V} {m : SharedHashMap K V}
    (hcreate : create capacity zero = some m) {fuel : Nat} (hfuel : 0 < fuel) (ops : List (Op K V)) :
    ∃ m', m.calls hash fuel ops = some (m', (Bounded.calls capacity ∅ ops).2) ∧
      (∀ k, m'.get hash k = some ((Bounded.calls capacity ∅ ops).1.lookup k)) ∧
      m'.len = (Bounded.calls capacity ∅ ops).1.keys.card ∧
      m'.len = (m'.slots.countP fun s => s.state == .occupied) ∧
      m'.tombstoneCount = (m'.slots.countP fun s => s.state == .tombstone) ∧ (∀ key value overwrite,
        (∃ m1, m'.place hash fuel key value overwrite = some (m1, .error .full)) ↔
          m'.get hash key = some none ∧ m'.len = capacity) ∧
      ∃ m1, m'.compact hash fuel = some (m1, .ok m'.tombstoneCount) ∧
        ∀ k, m1.get hash k = m'.get hash k := by
  obtain ⟨hempty, rfl⟩ : Refines hash m ∅ ∧ m.capacity = capacity := create_refines hcreate
  obtain ⟨m', hcalls, href, hcap⟩ := calls_refine hempty hfuel ops
  obtain ⟨m1, hcompact, href1, -⟩ := compact_refines href hfuel
  refine ⟨m', hcalls, get_refines href, href.card.symm, href.sound.count, href.sound.tombstones,
    fun key value overwrite => hcap ▸ href.full_iff hfuel key value overwrite, m1, hcompact, fun k => ?_⟩
  rw [get_refines href1, get_refines href]

/-- Keys that all hash alike in a table of two slots: a removal, a reuse of its
tombstone and an insert for which there is no room. -/
def colliding : List (Op Nat Nat) :=
  [.insert 1 10, .insert 2 20, .remove 1, .swap 2 21, .insert 3 30, .insertIfAbsent 4 40]

theorem hash_map_refines_colliding :
    ∃ m', SharedHashMap.calls (fun _ : Nat => 7) 1 ⟨replicate 2 ⟨.empty, 0, (0, 0)⟩, 0, 0, 0⟩
        colliding = some (m', (Bounded.calls 2 ∅ colliding).2) ∧
      m'.get (fun _ => 7) 2 = some (some 21) ∧ m'.len = 2 := by
  obtain ⟨m', hcalls, hget, hlen, -⟩ := hash_map_refines (fun _ : Nat => 7)
    (rfl : create 2 ((0, 0) : Nat × Nat) = some _) one_pos colliding
  exact ⟨m', hcalls, (hget 2).trans (by decide +kernel), hlen.trans (by decide +kernel)⟩

end SharedHashMap
end SubEtha.Maps
