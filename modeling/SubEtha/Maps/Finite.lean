import Mathlib.Data.Finmap
import SubEtha.Maps.Probing

namespace SubEtha.Maps.SharedHashMap
open Finmap

variable {K V : Type} {hash : K → Nat} {m m' : SharedHashMap K V}

structure Overwritten (m m' : SharedHashMap K V) (j : Nat) (s : MapSlot K V) : Prop where
  slots : m'.slots = m.slots.set j s
  lt : j < m.slots.length

section
variable {j : Nat} {s : MapSlot K V}

section
variable (h : Overwritten m m' j s)
include h

theorem Overwritten.capacity : m'.capacity = m.capacity := by
  rw [SharedHashMap.capacity, h.slots, List.length_set]
  rfl

theorem Overwritten.site (k d : Nat) : m'.site k d = m.site k d := by
  rw [SharedHashMap.site, h.capacity]
  rfl

theorem Overwritten.getElem? (i : Nat) : m'.slots[i]? = if j = i then some s else m.slots[i]? := by
  rw [h.slots]
  by_cases heq : j = i
  · subst heq
    rw [if_pos rfl, List.getElem?_set_self h.lt]
  · rw [if_neg heq, List.getElem?_set_ne heq]

theorem Overwritten.entry_iff (i : Nat) (t : MapSlot K V) :
    Entry m' i t ↔ (j = i ∧ t = s ∧ s.state = .occupied) ∨ (j ≠ i ∧ Entry m i t) := by
  constructor
  · rintro ⟨hget, hocc⟩
    rw [h.getElem?] at hget
    split at hget
    · cases hget
      exact .inl ⟨by assumption, rfl, hocc⟩
    · exact .inr ⟨by assumption, hget, hocc⟩
  · rintro (⟨rfl, rfl, hocc⟩ | ⟨hne, hget, hocc⟩)
    · exact ⟨(h.getElem? j).trans (if_pos rfl), hocc⟩
    · exact ⟨(h.getElem? i).trans ((if_neg hne).trans hget), hocc⟩

theorem Overwritten.filled (hs : s.state ≠ .empty) (hi : Filled m i) : Filled m' i := by
  obtain ⟨t, hget, ht⟩ := hi
  by_cases heq : j = i
  · exact ⟨s, (h.getElem? i).trans (if_pos heq), hs⟩
  · exact ⟨t, (h.getElem? i).trans ((if_neg heq).trans hget), ht⟩

end

/-- A slot that stays filled keeps every walk; its own entry, if it holds one, must be
reachable and the only one of its key. -/
theorem Sound.overwritten (h : Sound hash m) (ho : Overwritten m m' j s) (hs : s.state ≠ .empty)
    (hentry : s.state = .occupied → s.hash = hashKey hash s.payload.1 ∧
      (∀ i t, j ≠ i → Entry m i t → t.payload.1 ≠ s.payload.1) ∧
      ∃ d < m.capacity, m.site s.hash d = j ∧ ∀ e < d, Filled m (m.site s.hash e))
    (hcount : m'.count = m'.slots.countP fun s => s.state == .occupied)
    (htombstones : m'.tombstones = m'.slots.countP fun s => s.state == .tombstone) :
    Sound hash m' := by
  refine ⟨ho.capacity ▸ h.pos, fun i t he => ?_, fun i i' t t' he he' hkey => ?_, fun i t he => ?_,
    hcount, htombstones⟩
  · rcases (ho.entry_iff i t).mp he with ⟨-, rfl, hocc⟩ | ⟨-, he⟩
    · exact (hentry hocc).1
    · exact h.published i t he
  · rcases (ho.entry_iff i t).mp he with ⟨rfl, rfl, hocc⟩ | ⟨hne, he⟩ <;>
      rcases (ho.entry_iff i' t').mp he' with ⟨rfl, rfl, hocc'⟩ | ⟨hne', he'⟩
    · rfl
    · exact absurd hkey.symm ((hentry hocc).2.1 i' t' hne' he')
    · exact absurd hkey ((hentry hocc').2.1 i t hne he)
    · exact h.unique i i' t t' he he' hkey
  · have hchain : ∃ d < m.capacity, m.site t.hash d = i ∧ ∀ e < d, Filled m (m.site t.hash e) := by
      rcases (ho.entry_iff i t).mp he with ⟨rfl, rfl, hocc⟩ | ⟨-, he⟩
      · exact (hentry hocc).2.2
      · exact h.chain i t he
    obtain ⟨d, hd, hsite, hfilled⟩ := hchain
    exact ⟨d, ho.capacity ▸ hd, (ho.site _ _).trans hsite,
      fun e he => ho.site _ _ ▸ ho.filled hs (hfilled e he)⟩

/-- How overwriting a slot moves the number of slots in a state. -/
theorem Overwritten.countState (h : Overwritten m m' j s) (hget : m.slots[j]? = some t)
    (state : SlotState) :
    m'.slots.countP (fun s => s.state == state) + (if t.state = state then 1 else 0) =
      m.slots.countP (fun s => s.state == state) + if s.state = state then 1 else 0 := by
  obtain ⟨hlt, heq⟩ := List.getElem_of_getElem? hget
  have hpos : t.state = state → 0 < m.slots.countP fun s => s.state == state := fun ht =>
    List.countP_pos_iff.mpr ⟨t, List.mem_of_getElem? hget, beq_iff_eq.mpr ht⟩
  rw [h.slots, List.countP_set hlt, heq]
  simp only [beq_iff_eq]
  by_cases ht : t.state = state
  · have hpos := hpos ht
    simp only [if_pos ht]
    omega
  · simp only [if_neg ht]
    omega

end

variable {K V : Type} [DecidableEq K] {hash : K → Nat} {m m' : SharedHashMap K V}

/-- The table is sound and its entries are those of the finite map `f`. -/
structure Refines (hash : K → Nat) (m : SharedHashMap K V) (f : Finmap fun _ : K => V) : Prop where
  sound : Sound hash m
  lookup : ∀ k v, f.lookup k = some v ↔ ∃ i s, Entry m i s ∧ s.payload = (k, v)
  card : f.keys.card = m.count

variable {s : MapSlot K V}

theorem Refines.entry (h : Refines hash m f) (he : Entry m j s) :
    f.lookup s.payload.1 = some s.payload.2 := (h.lookup _ _).mpr ⟨j, s, he, rfl⟩

theorem Refines.absent (h : Refines hash m f) (habsent : Absent m key) : f.lookup key = none := by
  refine Option.eq_none_iff_forall_ne_some.mpr fun v hv => ?_
  obtain ⟨i, s, he, heq⟩ := (h.lookup key v).mp hv
  exact habsent i s he (by rw [heq])

section
variable (f : Finmap fun _ : K => V)

theorem keys_insert (key : K) (value : V) :
    (f.insert key value).keys = Insert.insert key f.keys := by
  ext k
  rw [mem_keys, mem_insert, Finset.mem_insert, mem_keys]

theorem lookup_insert_iff (key k : K) (value v : V) :
    (f.insert key value).lookup k = some v ↔ (k = key ∧ v = value) ∨ (k ≠ key ∧ f.lookup k = some v) := by
  by_cases hk : k = key
  · subst hk
    rw [lookup_insert]
    constructor
    · rintro ⟨⟩
      exact .inl ⟨rfl, rfl⟩
    · rintro (⟨-, rfl⟩ | ⟨hne, -⟩)
      · rfl
      · exact absurd rfl hne
  · rw [lookup_insert_of_ne _ hk]
    exact ⟨fun h => .inr ⟨hk, h⟩, fun h => h.elim (fun h => absurd h.1 hk) And.right⟩

theorem lookup_erase_iff (key k : K) (v : V) :
    (f.erase key).lookup k = some v ↔ k ≠ key ∧ f.lookup k = some v := by
  by_cases hk : k = key
  · subst hk
    rw [lookup_erase]
    exact ⟨nofun, fun h => absurd rfl h.1⟩
  · rw [lookup_erase_ne hk]
    exact ⟨fun h => ⟨hk, h⟩, And.right⟩

end

omit [DecidableEq K] in
theorem Overwritten.holds_iff (ho : Overwritten m m' j s) (k : K) (v : V) :
    (∃ i t, Entry m' i t ∧ t.payload = (k, v)) ↔
      (s.state = .occupied ∧ s.payload = (k, v)) ∨ ∃ i t, j ≠ i ∧ Entry m i t ∧ t.payload = (k, v) := by
  constructor
  · rintro ⟨i, t, ht, heq⟩
    rcases (ho.entry_iff i t).mp ht with ⟨-, rfl, hocc⟩ | ⟨hne, ht⟩
    · exact .inl ⟨hocc, heq⟩
    · exact .inr ⟨i, t, hne, ht, heq⟩
  · rintro (⟨hocc, heq⟩ | ⟨i, t, hne, ht, heq⟩)
    · exact ⟨j, s, (ho.entry_iff j s).mpr (.inl ⟨rfl, rfl, hocc⟩), heq⟩
    · exact ⟨i, t, (ho.entry_iff i t).mpr (.inr ⟨hne, ht⟩), heq⟩

theorem Refines.others_iff (h : Refines hash m f) (he : Entry m j s) (k : K) (v : V) :
    (∃ i t, j ≠ i ∧ Entry m i t ∧ t.payload = (k, v)) ↔ k ≠ s.payload.1 ∧ f.lookup k = some v := by
  rw [h.lookup]
  constructor
  · rintro ⟨i, t, hne, ht, heq⟩
    exact ⟨fun hk => hne (h.sound.unique j i s t he ht (by rw [heq]; exact hk.symm)), i, t, ht, heq⟩
  rintro ⟨hk, i, t, ht, heq⟩
  refine ⟨i, t, ?_, ht, heq⟩
  rintro rfl
  cases he.at_slot.symm.trans ht.at_slot
  rw [heq] at hk
  exact hk rfl

theorem Refines.setValue (h : Refines hash m f) (he : Entry m j s) (value : V) :
    Refines hash (m.setSlot j { s with payload := (s.payload.1, value) })
      (f.insert s.payload.1 value) := by
  have ho : Overwritten m (m.setSlot j { s with payload := (s.payload.1, value) }) j
      { s with payload := (s.payload.1, value) } :=
    ⟨rfl, (List.getElem_of_getElem? he.at_slot).1⟩
  have hsame := fun state => (Nat.add_right_cancel (ho.countState he.at_slot state)).symm
  refine ⟨h.sound.overwritten ho (by rw [he.occupied]; exact (by simp))
    (fun _ => ⟨h.sound.published j s he, fun i t hne ht hkey => ?_, h.sound.chain j s he⟩)
    (h.sound.count.trans (hsame _)) (h.sound.tombstones.trans (hsame _)), fun k v => ?_, ?_⟩
  · exact hne (h.sound.unique j i s t he ht hkey.symm)
  · rw [lookup_insert_iff, ho.holds_iff, h.others_iff he]
    refine or_congr ⟨fun hkv => ⟨he.occupied, by rw [hkv.1, hkv.2]⟩, fun hkv => ?_⟩ Iff.rfl
    cases hkv.2
    exact ⟨rfl, rfl⟩
  · have hmem := mem_keys.mpr (mem_of_lookup_eq_some (h.entry he))
    rw [keys_insert, Finset.insert_eq_of_mem hmem]
    exact h.card

/-- An absent key gets an entry in a slot that its walk reaches. -/
theorem Refines.placed (h : Refines hash m f) (habsent : Absent m key)
    (hv : Vacant m (hashKey hash key) c s) (value : V) :
    Refines hash (m.placedAt c s.state (hashKey hash key) key value) (f.insert key value) := by
  have ho : Overwritten m (m.placedAt c s.state (hashKey hash key) key value) c
      ⟨.occupied, hashKey hash key, (key, value)⟩ :=
    ⟨rfl, (List.getElem_of_getElem? hv.at_slot).1⟩
  have hnone := h.absent habsent
  have hnokey : key ∉ f.keys := fun hmem =>
    lookup_eq_none.mp hnone (mem_keys.mp hmem)
  refine ⟨h.sound.overwritten ho nofun
    (fun _ => ⟨rfl, fun i t _ ht => habsent i t ht, hv.reached⟩) ?_ ?_, fun k v => ?_, ?_⟩
  · have hcount := ho.countState hv.at_slot .occupied
    rw [if_neg hv.free, if_pos rfl, ← h.sound.count] at hcount
    exact hcount.symm
  · have hcount := ho.countState hv.at_slot .tombstone
    rw [← h.sound.tombstones] at hcount
    dsimp only [placedAt] at hcount ⊢
    by_cases hs : s.state = .tombstone
    · rw [if_pos hs] at hcount ⊢
      exact (Nat.eq_sub_of_add_eq hcount).symm
    · rw [if_neg hs] at hcount ⊢
      exact hcount.symm
  · rw [lookup_insert_iff, ho.holds_iff, h.lookup]
    refine or_congr ⟨fun hkv => ⟨rfl, by rw [hkv.1, hkv.2]⟩, fun hkv => ?_⟩ ?_
    · cases hkv.2
      exact ⟨rfl, rfl⟩
    constructor
    · rintro ⟨-, i, t, ht, heq⟩
      refine ⟨i, t, ?_, ht, heq⟩
      rintro rfl
      cases hv.at_slot.symm.trans ht.at_slot
      exact hv.free ht.occupied
    · rintro ⟨i, t, -, ht, heq⟩
      exact ⟨fun hk => habsent i t ht (by rw [heq]; exact hk), i, t, ht, heq⟩
  · rw [keys_insert, Finset.card_insert_of_notMem hnokey, h.card]
    rfl

def removedAt (m : SharedHashMap K V) (idx : Nat) (s : MapSlot K V) : SharedHashMap K V :=
  { m.setSlot idx ⟨.tombstone, 0, s.payload⟩ with
    count := m.count - 1
    tombstones := m.tombstones + 1
    removals := m.removals + 1 }

theorem Refines.removed (h : Refines hash m f) (he : Entry m j s) :
    Refines hash (m.removedAt j s) (f.erase s.payload.1) := by
  have ho : Overwritten m (m.removedAt j s) j ⟨.tombstone, 0, s.payload⟩ :=
    ⟨rfl, (List.getElem_of_getElem? he.at_slot).1⟩
  have hmem := mem_keys.mpr (mem_of_lookup_eq_some (h.entry he))
  refine ⟨h.sound.overwritten ho nofun nofun ?_ ?_, fun k v => ?_, ?_⟩
  · have hcount := ho.countState he.at_slot .occupied
    rw [if_pos he.occupied, if_neg nofun, ← h.sound.count] at hcount
    exact (Nat.eq_sub_of_add_eq hcount).symm
  · have hcount := ho.countState he.at_slot .tombstone
    rw [if_neg (by rw [he.occupied]; exact (by simp)), if_pos rfl,
      ← h.sound.tombstones] at hcount
    exact hcount.symm
  · rw [lookup_erase_iff, ho.holds_iff, h.others_iff he]
    exact ⟨.inr, fun h => h.elim (fun h => by cases h.1) id⟩
  · rw [keys_erase, Finset.card_erase_of_mem hmem, h.card]
    rfl

end SubEtha.Maps.SharedHashMap
