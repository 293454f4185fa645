import Mathlib.Data.Nat.ModEq
import SubEtha.Maps.HashMap

namespace SubEtha.Maps.SharedHashMap
open Option

variable {K V : Type}

theorem wrap_eq (m : SharedHashMap K V) (i : Nat) : m.wrap i = i % m.capacity := by
  unfold wrap
  split
  · rename_i hpow
    have hmask := Nat.and_two_pow_sub_one_eq_mod i m.capacity.log2
    rwa [hpow] at hmask
  · rfl

/-- The slot that a walk for the hash `h` reaches in its `d`-th step. -/
def site (m : SharedHashMap K V) (h d : Nat) : Nat := (h + d) % m.capacity

theorem wrap_walk (m : SharedHashMap K V) (h i : Nat) : m.wrap (m.wrap h + i) = m.site h i := by
  rw [wrap_eq, wrap_eq, site, Nat.mod_add_mod]

structure Entry (m : SharedHashMap K V) (i : Nat) (s : MapSlot K V) : Prop where
  at_slot : m.slots[i]? = some s
  occupied : s.state = .occupied

def Filled (m : SharedHashMap K V) (i : Nat) : Prop := ∃ s, m.slots[i]? = some s ∧ s.state ≠ .empty

def Absent (m : SharedHashMap K V) (key : K) : Prop := ∀ i s, Entry m i s → s.payload.1 ≠ key

variable (hash : K → Nat)

theorem hashKey_ne_zero (key : K) : hashKey hash key ≠ 0 := by
  unfold hashKey
  split
  · exact Nat.one_ne_zero
  · assumption

/-- Each key has one slot, and a walk for the key reaches it past filled slots. -/
structure Sound (m : SharedHashMap K V) : Prop where
  pos : 0 < m.capacity
  published : ∀ i s, Entry m i s → s.hash = hashKey hash s.payload.1
  unique : ∀ i j s t, Entry m i s → Entry m j t → s.payload.1 = t.payload.1 → i = j
  chain : ∀ i s, Entry m i s → ∃ d < m.capacity, m.site s.hash d = i ∧
    ∀ e < d, Filled m (m.site s.hash e)
  count : m.count = m.slots.countP fun s => s.state == .occupied
  tombstones : m.tombstones = m.slots.countP fun s => s.state == .tombstone

variable {hash} {m : SharedHashMap K V}

theorem Sound.site_lt (h : Sound hash m) (k d : Nat) : m.site k d < m.slots.length :=
  Nat.mod_lt _ h.pos

variable {s : MapSlot K V} {idx : Nat} {key : K}

theorem Sound.publishedHash_eq (h : Sound hash m) (he : Entry m i s) :
    publishedHash s = some (hashKey hash s.payload.1) := by
  have hne := hashKey_ne_zero hash s.payload.1
  rw [← h.published i s he] at hne ⊢
  exact if_pos hne

theorem Sound.empty_or_filled (h : Sound hash m) (k d : Nat) :
    (∃ s, m.slots[m.site k d]? = some s ∧ s.state = .empty) ∨
      (∃ s, m.slots[m.site k d]? = some s ∧ s.state = .tombstone) ∨ ∃ s, Entry m (m.site k d) s := by
  obtain ⟨s, hget⟩ : ∃ s, m.slots[m.site k d]? = some s :=
    ⟨_, List.getElem?_eq_getElem (h.site_lt k d)⟩
  cases hstate : s.state with
  | empty => exact .inl ⟨_, hget, hstate⟩
  | tombstone => exact .inr (.inl ⟨_, hget, hstate⟩)
  | occupied => exact .inr (.inr ⟨_, hget, hstate⟩)

def placedAt (m : SharedHashMap K V) (idx : Nat) (from' : SlotState) (h : Nat) (key : K) (value : V) :
    SharedHashMap K V :=
  { m.setSlot idx ⟨.occupied, h, (key, value)⟩ with
    count := m.count + 1
    tombstones := if from' = .tombstone then m.tombstones - 1 else m.tombstones }

theorem claim_eq (hget : m.slots[idx]? = some s) (h : Nat) (key : K) (value : V) :
    m.claim idx s.state m.removals h key value = some (m.placedAt idx s.state h key value, .placed) := by
  rw [claim, hget, map_some, if_neg (not_not.mpr rfl)]
  exact congrArg some (if_neg (not_not.mpr rfl))

/-- A free slot that a walk for the hash `k` reaches past filled slots. -/
structure Vacant (m : SharedHashMap K V) (k c : Nat) (s : MapSlot K V) : Prop where
  at_slot : m.slots[c]? = some s
  free : s.state ≠ .occupied
  reached : ∃ d < m.capacity, m.site k d = c ∧ ∀ e < d, Filled m (m.site k e)

/-- What the walk knows of the first `i` slots by its first tombstone. -/
def Passed (m : SharedHashMap K V) (k i : Nat) : Option Nat → Prop
  | some c => ∃ s, Vacant m k c s ∧ s.state = .tombstone
  | none => ∀ e < i, ∃ s, Entry m (m.site k e) s

theorem claimTombstone_eq (hget : m.slots[c]? = some s) (hs : s.state = .tombstone) (k : Nat)
    (key : K) (value : V) : m.claimTombstone c m.removals k key value =
      some (m.placedAt c s.state k key value, .placed .new) := by
  rw [claimTombstone, ← hs, claim_eq hget]
  rfl

theorem Sound.entry_or_absent (h : Sound hash m) (key : K) :
    (∃ j s d, Entry m j s ∧ s.payload.1 = key ∧ d < m.capacity ∧ m.site s.hash d = j ∧
      ∀ e < d, Filled m (m.site s.hash e)) ∨ Absent m key := by
  by_cases habsent : Absent m key
  · exact .inr habsent
  unfold Absent at habsent
  push Not at habsent
  obtain ⟨j, s, he, hkey⟩ := habsent
  obtain ⟨d, hd, hsite, hfilled⟩ := h.chain j s he
  exact .inl ⟨j, s, d, he, hkey, hd, hsite, hfilled⟩

variable [DecidableEq K]

section
variable (h : Sound hash m)
include h

theorem findFrom_absent (habsent : Absent m key) (k n i : Nat) :
    m.findFrom k (m.wrap k) key n i = some none := by
  induction n generalizing i with
  | zero => rfl
  | succ n ih =>
    rw [findFrom, wrap_walk]
    rcases h.empty_or_filled k i with ⟨s, hget, hs⟩ | ⟨s, hget, hs⟩ | ⟨s, he⟩
    · rw [hget, bind_some, hs]
    · rw [hget, bind_some, hs]
      exact ih (i + 1)
    rw [he.at_slot, bind_some, he.occupied]
    rw [h.publishedHash_eq he, bind_some, if_neg fun hboth => habsent _ s he hboth.2]
    exact ih (i + 1)

theorem findFrom_present (he : Entry m j s) (hd : d < m.capacity)
    (hsite : m.site s.hash d = j) (hfilled : ∀ e < d, Filled m (m.site s.hash e)) (n i : Nat)
    (hn : n + i = m.capacity) (hi : i ≤ d) :
    m.findFrom s.hash (m.wrap s.hash) s.payload.1 n i = some (some j) := by
  induction n generalizing i with
  | zero => omega
  | succ n ih =>
    rw [findFrom, wrap_walk]
    rcases lt_or_eq_of_le hi with hlt | rfl
    · obtain ⟨t, hget, hne⟩ := hfilled i hlt
      rw [hget, bind_some]
      cases ht : t.state with
      | empty => exact absurd ht hne
      | tombstone => exact ih (i + 1) (by omega) hlt
      | occupied =>
        have he' : Entry m (m.site s.hash i) t := ⟨hget, ht⟩
        dsimp only
        rw [h.publishedHash_eq he', bind_some]
        split
        · rename_i hboth
          rw [h.unique _ _ _ _ he' he hboth.2]
        · exact ih (i + 1) (by omega) hlt
    · rw [hsite, he.at_slot, bind_some, he.occupied]
      rw [h.publishedHash_eq he, bind_some, if_pos ⟨(h.published j s he).symm, rfl⟩]

theorem find_spec (key : K) :
    (∃ j s, Entry m j s ∧ s.payload.1 = key ∧ m.find hash key = some (some j)) ∨
      Absent m key ∧ m.find hash key = some none := by
  rcases h.entry_or_absent key with ⟨j, s, d, he, rfl, hd, hsite, hfilled⟩ | habsent
  · have hfind := findFrom_present h he hd hsite hfilled m.capacity 0 rfl (Nat.zero_le d)
    rw [h.published j s he] at hfind
    exact .inl ⟨j, s, he, rfl, hfind⟩
  · exact .inr ⟨habsent, findFrom_absent h habsent _ _ _⟩

theorem examine_other (he : Entry m idx s) (hother : s.payload.1 ≠ key)
    (first : Option Nat) (value : V) (overwrite : Bool) :
    m.examine idx s.state first k key value overwrite = some (m, .inr first) := by
  have hne := hashKey_ne_zero hash s.payload.1
  rw [examine, he.occupied, if_neg nofun, present, he.at_slot, bind_some,
    h.publishedHash_eq he, map_some, if_neg hne]
  cases overwrite <;> by_cases hk : hashKey hash s.payload.1 = k <;> simp [hk, hother]

theorem examine_here (he : Entry m idx s) (first : Option Nat) (value : V)
    (overwrite : Bool) : m.examine idx s.state first s.hash s.payload.1 value overwrite =
      some (if overwrite then m.setSlot idx { s with payload := (s.payload.1, value) } else m,
        .inl (.placed (.existing s.payload.2))) := by
  have hne := hashKey_ne_zero hash s.payload.1
  have hhash := h.published idx s he
  rw [examine, he.occupied, if_neg nofun, present, he.at_slot, bind_some,
    h.publishedHash_eq he, map_some, if_neg hne]
  cases overwrite <;> simp [hhash, holds, he.occupied]

end

theorem probeSlot_filled (hget : m.slots[idx]? = some s) (hs : s.state ≠ .empty)
    (first : Option Nat) (removals k : Nat) (key : K) (value : V) (overwrite : Bool) :
    m.probeSlot idx first removals k key value overwrite =
      m.examine idx s.state first k key value overwrite := by
  unfold probeSlot
  rw [hget, bind_some, if_neg hs]

theorem probeFrom_present (h : Sound hash m) (he : Entry m j s) (hd : d < m.capacity)
    (hsite : m.site s.hash d = j) (hfilled : ∀ e < d, Filled m (m.site s.hash e)) (value : V)
    (overwrite : Bool) (n i : Nat) (hn : n + i = m.capacity) (hi : i ≤ d) (first : Option Nat) :
    probeFrom m.removals s.hash (m.wrap s.hash) s.payload.1 value overwrite n i first m =
      some (if overwrite then m.setSlot j { s with payload := (s.payload.1, value) } else m,
        .placed (.existing s.payload.2)) := by
  induction n generalizing i first with
  | zero => omega
  | succ n ih =>
    rw [probeFrom, wrap_walk]
    rcases lt_or_eq_of_le hi with hlt | rfl
    · obtain ⟨t, hget, hne⟩ := hfilled i hlt
      rw [probeSlot_filled hget hne]
      cases ht : t.state with
      | empty => exact absurd ht hne
      | tombstone => exact ih (i + 1) (by omega) hlt _
      | occupied =>
        have he' : Entry m (m.site s.hash i) t := ⟨hget, ht⟩
        by_cases hkey : t.payload.1 = s.payload.1
        · have hij := h.unique _ _ _ _ he' he hkey
          rw [hij] at hget
          cases hget.symm.trans he.at_slot
          rw [hij, ← ht, examine_here h he]
          rfl
        · rw [← ht, examine_other h he' hkey]
          exact ih (i + 1) (by omega) hlt _
    · rw [hsite, probeSlot_filled he.at_slot (by rw [he.occupied]; exact (by simp)),
        examine_here h he]
      rfl

/-- A walk for an absent key takes a vacant slot, or every slot it walks is taken. -/
theorem probeFrom_absent (h : Sound hash m) (habsent : Absent m key) (k : Nat) (value : V)
    (overwrite : Bool) (n i : Nat) (hn : n + i = m.capacity)
    (hfilled : ∀ e < i, Filled m (m.site k e)) (first : Option Nat) (hpassed : Passed m k i first) :
    (∃ c s, Vacant m k c s ∧ probeFrom m.removals k (m.wrap k) key value overwrite n i first m =
        some (m.placedAt c s.state k key value, .placed .new)) ∨
      (∀ e < m.capacity, ∃ s, Entry m (m.site k e) s) ∧
        probeFrom m.removals k (m.wrap k) key value overwrite n i first m = some (m, .full) := by
  induction n generalizing i first with
  | zero =>
    cases first with
    | some c =>
      obtain ⟨s, hvacant, hs⟩ := hpassed
      exact .inl ⟨c, s, hvacant, claimTombstone_eq hvacant.at_slot hs k key value⟩
    | none => exact .inr ⟨fun e he => hpassed e (by omega), rfl⟩
  | succ n ih =>
    rw [probeFrom, wrap_walk]
    have hnext : ∀ s, m.slots[m.site k i]? = some s → s.state ≠ .empty →
        ∀ e < i + 1, Filled m (m.site k e) := by
      intro s hget hs e he
      rcases Nat.lt_succ_iff_lt_or_eq.mp he with he | rfl
      · exact hfilled e he
      · exact ⟨s, hget, hs⟩
    rcases h.empty_or_filled k i with ⟨s, hget, hs⟩ | ⟨s, hget, hs⟩ | ⟨s, he⟩
    · refine .inl ?_
      unfold probeSlot
      rw [hget, bind_some, if_pos hs]
      cases first with
      | some c =>
        obtain ⟨t, hvacant, ht⟩ := hpassed
        refine ⟨c, t, hvacant, ?_⟩
        dsimp only
        rw [claimTombstone_eq hvacant.at_slot ht]
        rfl
      | none =>
        refine ⟨m.site k i, s, ⟨hget, by rw [hs]; exact nofun, i, by omega, rfl, hfilled⟩, ?_⟩
        rw [← hs, claim_eq hget]
        rfl
    · have hne : s.state ≠ .empty := by rw [hs]; exact nofun
      have hvacant : Vacant m k (m.site k i) s :=
        ⟨hget, by rw [hs]; exact nofun, i, by omega, rfl, hfilled⟩
      rw [probeSlot_filled hget hne, examine, if_pos hs, bind_some]
      refine ih (i + 1) (by omega) (hnext s hget hne) _ ?_
      cases first with
      | some c => exact hpassed
      | none => exact ⟨s, hvacant, hs⟩
    · have hne : s.state ≠ .empty := by rw [he.occupied]; exact nofun
      rw [probeSlot_filled he.at_slot hne, examine_other h he (habsent _ s he), bind_some]
      refine ih (i + 1) (by omega) (hnext s he.at_slot hne) _ ?_
      cases first with
      | some c => exact hpassed
      | none =>
        intro e he'
        rcases Nat.lt_succ_iff_lt_or_eq.mp he' with he' | rfl
        · exact hpassed e he'
        · exact ⟨s, he⟩

theorem place_spec (h : Sound hash m) (hfuel : 0 < fuel) (key : K) (value : V) (overwrite : Bool) :
    (∃ j s, Entry m j s ∧ s.payload.1 = key ∧ m.place hash fuel key value overwrite =
      some (if overwrite then m.setSlot j { s with payload := (key, value) } else m,
        .ok (.existing s.payload.2))) ∨ Absent m key ∧
      ((∃ c s, Vacant m (hashKey hash key) c s ∧ m.place hash fuel key value overwrite =
          some (m.placedAt c s.state (hashKey hash key) key value, .ok .new)) ∨
        (∀ e < m.capacity, ∃ s, Entry m (m.site (hashKey hash key) e) s) ∧
          m.place hash fuel key value overwrite = some (m, .error .full)) := by
  obtain ⟨fuel, rfl⟩ := Nat.exists_eq_succ_of_ne_zero (Nat.ne_of_gt hfuel)
  dsimp only [place]
  rw [placeLoop, probeOnce]
  rcases h.entry_or_absent key with ⟨j, s, d, he, rfl, hd, hsite, hfilled⟩ | habsent
  · refine .inl ⟨j, s, he, rfl, ?_⟩
    rw [← h.published j s he,
      probeFrom_present h he hd hsite hfilled value overwrite m.capacity 0 rfl (Nat.zero_le d) none]
    rfl
  refine .inr ⟨habsent, ?_⟩
  rcases probeFrom_absent h habsent (hashKey hash key) value overwrite m.capacity 0 rfl
    (fun e he => absurd he (Nat.not_lt_zero e)) none (fun e he => absurd he (Nat.not_lt_zero e))
    with ⟨c, s, hvacant, hprobe⟩ | ⟨hall, hprobe⟩
  · refine .inl ⟨c, s, hvacant, ?_⟩
    rw [hprobe]
    rfl
  · refine .inr ⟨hall, ?_⟩
    rw [hprobe]
    rfl

end SubEtha.Maps.SharedHashMap
