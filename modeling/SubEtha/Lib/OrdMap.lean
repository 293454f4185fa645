import Mathlib.Data.List.Pairwise
import Mathlib.Data.List.Lookmap
import Mathlib.Data.List.Sort

namespace SubEtha.Lib
open List

inductive Bound (K : Type)
  | unbounded
  | included (k : K)
  | excluded (k : K)

/-- An ordered map: its entries in strictly increasing key order. -/
structure OrdMap (K V : Type) [LinearOrder K] where
  entries : List (K × V)
  sorted : entries.Pairwise fun a b => a.1 < b.1

namespace OrdMap

variable {K V : Type} [LinearOrder K] (m : OrdMap K V)

def insertEntry (k : K) (v : V) : List (K × V) → List (K × V)
  | [] => [(k, v)]
  | a :: rest =>
    if k < a.1 then (k, v) :: a :: rest
    else if k = a.1 then (k, v) :: rest
    else a :: insertEntry k v rest

variable {l : List (K × V)} {k : K} {v : V}

theorem mem_insertEntry (h : b ∈ insertEntry k v l) : b = (k, v) ∨ b ∈ l := by
  induction l with
  | nil => exact .inl (mem_singleton.mp h)
  | cons a l ih =>
    rw [insertEntry] at h
    split at h
    · exact mem_cons.mp h
    split at h
    · rcases mem_cons.mp h with h | h
      · exact .inl h
      · exact .inr (mem_cons_of_mem _ h)
    · rcases mem_cons.mp h with rfl | h
      · exact .inr (mem_cons_self ..)
      · exact (ih h).imp_right (mem_cons_of_mem _)

theorem sorted_insertEntry (h : l.Pairwise fun a b => a.1 < b.1) (k : K) (v : V) :
    (insertEntry k v l).Pairwise fun a b => a.1 < b.1 := by
  induction l with
  | nil => exact pairwise_singleton ..
  | cons a l ih =>
    obtain ⟨hhead, htail⟩ := pairwise_cons.mp h
    rw [insertEntry]
    split
    · rename_i hlt
      refine pairwise_cons.mpr ⟨fun b hb => ?_, h⟩
      rcases mem_cons.mp hb with rfl | hb
      · exact hlt
      · exact lt_trans hlt (hhead b hb)
    split
    · rename_i heq
      exact pairwise_cons.mpr ⟨fun b hb => heq ▸ hhead b hb, htail⟩
    rename_i hge hne
    refine pairwise_cons.mpr ⟨fun b hb => ?_, ih htail⟩
    rcases mem_insertEntry hb with rfl | hb
    · exact lt_of_le_of_ne (not_lt.mp hge) (Ne.symm hne)
    · exact hhead b hb

def empty : OrdMap K V := ⟨[], .nil⟩

def get (k : K) : Option V := m.entries.lookup k

def insert (k : K) (v : V) : OrdMap K V :=
  ⟨insertEntry k v m.entries, sorted_insertEntry m.sorted k v⟩

def filter (m : OrdMap K V) (p : K → V → Bool) : OrdMap K V :=
  ⟨m.entries.filter fun a => p a.1 a.2, m.sorted.filter _⟩

def erase (k : K) : OrdMap K V := m.filter fun k' _ => k' != k

def mapVal {W : Type} (m : OrdMap K V) (f : V → W) : OrdMap K W :=
  ⟨m.entries.map fun a => (a.1, f a.2), List.pairwise_map.mpr m.sorted⟩

def len : Nat := m.entries.length

def atOrAboveLow (k : K) : Bound K → Bool
  | .unbounded => true
  | .included b => decide (b ≤ k)
  | .excluded b => decide (b < k)

def aboveHigh (k : K) : Bound K → Bool
  | .unbounded => false
  | .included b => decide (b < k)
  | .excluded b => decide (b ≤ k)

def range (low high : Bound K) (limit : Nat) : List (K × V) :=
  (m.entries.filter fun a => atOrAboveLow a.1 low && !aboveHigh a.1 high).take limit

theorem lookup_cons (k : K) (a : K × V) (l : List (K × V)) :
    (a :: l).lookup k = if k = a.1 then some a.2 else l.lookup k := by
  rw [List.lookup_cons]
  by_cases hk : k = a.1
  · rw [if_pos hk, beq_iff_eq.mpr hk]
  · rw [if_neg hk, beq_false_of_ne hk]

theorem lookup_insertEntry (k k' : K) (v : V) (l : List (K × V)) :
    (insertEntry k v l).lookup k' = if k' = k then some v else l.lookup k' := by
  induction l with
  | nil => rw [insertEntry, lookup_cons]
  | cons a l ih =>
    rw [insertEntry]
    split
    · rw [lookup_cons]
    split
    · rename_i heq
      rw [lookup_cons, lookup_cons, ← heq]
      by_cases hk : k' = k <;> simp [hk]
    rename_i hne
    rw [lookup_cons, lookup_cons, ih]
    by_cases hk : k' = k
    · subst hk
      simp [hne]
    · simp [hk]

@[simp] theorem get_insert (k k' : K) (v : V) :
    (m.insert k v).get k' = if k' = k then some v else m.get k' := lookup_insertEntry k k' v m.entries

theorem lookup_eq_none (h : ∀ a ∈ l, k < a.1) : l.lookup k = none := by
  induction l with
  | nil => rfl
  | cons a l ih =>
    rw [lookup_cons, if_neg (ne_of_lt (h a (mem_cons_self ..)))]
    exact ih fun b hb => h b (mem_cons_of_mem _ hb)

theorem lookup_filter (h : l.Pairwise fun a b => a.1 < b.1) (p : K → V → Bool) (k : K) :
    (l.filter fun a => p a.1 a.2).lookup k = (l.lookup k).filter (p k) := by
  induction l with
  | nil => rfl
  | cons a l ih =>
    obtain ⟨hhead, htail⟩ := pairwise_cons.mp h
    rw [lookup_cons]
    by_cases hk : k = a.1
    · subst hk
      rw [if_pos rfl, Option.filter_some]
      cases hp : p a.1 a.2 with
      | true => simp only [filter_cons, hp, if_true, lookup_cons]
      | false =>
        simp only [filter_cons, hp, Bool.false_eq_true, if_false]
        exact lookup_eq_none fun b hb => hhead b (mem_filter.mp hb).1
    · rw [if_neg hk, ← ih htail]
      cases hp : p a.1 a.2 with
      | true => simp only [filter_cons, hp, if_true, lookup_cons, if_neg hk]
      | false => simp [hp]

@[simp] theorem get_filter (p : K → V → Bool) (k : K) :
    (m.filter p).get k = (m.get k).filter (p k) := lookup_filter m.sorted p k

@[simp] theorem get_erase (k k' : K) : (m.erase k).get k' = if k' = k then none else m.get k' := by
  rw [erase, get_filter]
  by_cases hk : k' = k
  · subst hk
    cases m.get k' <;> simp
  · cases m.get k' <;> simp [hk]

variable {m : OrdMap K V}

theorem get_of_mem (h : (k, v) ∈ m.entries) : m.get k = some v := by
  obtain ⟨entries, sorted⟩ := m
  dsimp only [get] at h ⊢
  induction entries with
  | nil => cases h
  | cons a l ih =>
    obtain ⟨hhead, htail⟩ := pairwise_cons.mp sorted
    rw [lookup_cons]
    rcases mem_cons.mp h with rfl | h
    · exact if_pos rfl
    · rw [if_neg (ne_of_gt (hhead _ h))]
      exact ih htail h

theorem mem_of_lookup (h : l.lookup k = some v) : (k, v) ∈ l := by
  induction l with
  | nil => cases h
  | cons a l ih =>
    rw [lookup_cons] at h
    split at h
    · rename_i hk
      cases h
      exact hk ▸ mem_cons_self ..
    · exact mem_cons_of_mem _ (ih h)

theorem get_eq_some_iff : m.get k = some v ↔ (k, v) ∈ m.entries := ⟨mem_of_lookup, get_of_mem⟩

theorem ext_get (h : ∀ k, m.get k = m'.get k) : m = m' := by
  have hmem : ∀ a, a ∈ m.entries ↔ a ∈ m'.entries := fun a => by
    rw [← get_eq_some_iff, ← get_eq_some_iff, h]
  have hentries := m.sorted.eq_of_mem_iff m'.sorted hmem
  cases m
  cases m'
  cases hentries
  rfl

theorem lookup_mapVal {W : Type} (l : List (K × V)) (f : V → W) (k : K) :
    (l.map fun a => (a.1, f a.2)).lookup k = (l.lookup k).map f := by
  induction l with
  | nil => rfl
  | cons a l ih =>
    rw [map_cons, lookup_cons, lookup_cons, ih]
    by_cases hk : k = a.1 <;> simp [hk]

@[simp] theorem get_mapVal {W : Type} (m : OrdMap K V) (f : V → W) (k : K) :
    (m.mapVal f).get k = (m.get k).map f := lookup_mapVal m.entries f k

end OrdMap
end SubEtha.Lib
