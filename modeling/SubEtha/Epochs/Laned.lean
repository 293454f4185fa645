import Mathlib.Algebra.GroupWithZero.Nat
import Mathlib.Algebra.Order.BigOperators.Group.List
import Mathlib.Algebra.Order.Group.Nat
import SubEtha.Lib.KWayMerge
import SubEtha.Maps.BTree
import SubEtha.Epochs.Versioned

namespace SubEtha.Epochs
open List VersionedBTreeMap
open Lib (OrdMap Bound mergeRuns ApartRuns)
open Maps (BTree)

/-- A read sees the trees of the lanes; the epochs they share are in its pin. -/
structure LanedVersionedMap (K V : Type) [LinearOrder K] where
  lanes : List (BTree K (Versioned V))

namespace LanedVersionedMap

variable {K V : Type} [LinearOrder K]

def nextFrontier : Option K → Option K → Option K
  | frontier, none => frontier
  | none, some c => some c
  | some f, some c => some (if f ≤ c then f else c)

def cut (frontier : Option K) (rows : List (K × V)) : List (K × V) :=
  match frontier with
  | none => rows
  | some f => rows.takeWhile fun a => decide (a.1 ≤ f)

section
variable (m : LanedVersionedMap K V)

def parts (low high : Bound K) (limit pin : Nat) : List (List (K × V) × Option K) :=
  m.lanes.map fun l => withCursor pin (l.range low high limit)

def frontier (low high : Bound K) (limit pin : Nat) : Option K :=
  ((m.parts low high limit pin).map Prod.snd).foldl nextFrontier none

def rangeAtWithCursor (low high : Bound K) (limit pin : Nat) : List (K × V) × Option K :=
  let frontier := m.frontier low high limit pin
  (mergeRuns ((m.parts low high limit pin).map fun part => cut frontier part.1), frontier)

/-- Resume from past the frontier until there is none; `none` where the fuel is not enough. -/
def scan (m : LanedVersionedMap K V) (high : Bound K) (limit pin : Nat) :
    Nat → Bound K → Option (List (K × V))
  | 0, _ => none
  | fuel + 1, low =>
    match m.rangeAtWithCursor low high limit pin with
    | (rows, none) => some rows
    | (rows, some f) => (m.scan high limit pin fuel (.excluded f)).map (rows ++ ·)

def within (low high : Bound K) (k : K) : Bool :=
  OrdMap.atOrAboveLow k low && !OrdMap.aboveHigh k high

/-- A row of the laned map at `pin`, between the bounds. -/
def Row (low high : Bound K) (pin : Nat) (k : K) (v : V) : Prop :=
  within low high k = true ∧ ∃ l ∈ m.lanes, Versioned.seen pin (l.get k) = some v

def inRange (low high : Bound K) (l : BTree K (Versioned V)) : List (K × Versioned V) :=
  l.entries.filter fun a => within low high a.1

def remaining (low high : Bound K) : Nat :=
  (m.lanes.map fun l => (inRange low high l).length).sum

end

theorem foldl_frontier (cursors : List (Option K)) (start : Option K) :
    (∀ c, (start = some c ∨ some c ∈ cursors) → ∃ f, cursors.foldl nextFrontier start = some f ∧ f ≤ c) ∧
      ∀ f, cursors.foldl nextFrontier start = some f → start = some f ∨ some f ∈ cursors := by
  induction cursors generalizing start with
  | nil =>
    refine ⟨fun c hc => ⟨c, ?_, le_refl c⟩, fun f hf => .inl hf⟩
    rcases hc with hc | hc
    · exact hc
    · cases hc
  | cons cursor cursors ih =>
    rw [foldl_cons]
    obtain ⟨hle, hfrom⟩ := ih (nextFrontier start cursor)
    have hnext : ∀ c, (start = some c ∨ some c = cursor) →
        ∃ g, nextFrontier start cursor = some g ∧ g ≤ c := by
      intro c hc
      cases cursor with
      | none =>
        rcases hc with rfl | hc
        · exact ⟨c, rfl, le_refl c⟩
        · cases hc
      | some d =>
        cases start with
        | none =>
          rcases hc with hc | hc
          · cases hc
          · cases hc
            exact ⟨c, rfl, le_refl c⟩
        | some f =>
          refine ⟨if f ≤ d then f else d, rfl, ?_⟩
          split <;> rcases hc with hc | hc <;> cases hc
          · exact le_refl c
          · assumption
          · exact le_of_not_ge ‹_›
          · exact le_refl c
    refine ⟨fun c hc => ?_, fun f hf => ?_⟩
    · rw [mem_cons, ← or_assoc] at hc
      rcases hc with hc | hc
      · obtain ⟨g, hg, hgc⟩ := hnext c hc
        obtain ⟨f, hf, hfg⟩ := hle g (.inl hg)
        exact ⟨f, hf, le_trans hfg hgc⟩
      · exact hle c (.inr hc)
    rcases hfrom f hf with hnew | hmem
    · cases cursor with
      | none => exact .inl hnew
      | some d =>
        cases start with
        | none => exact .inr (hnew ▸ mem_cons_self)
        | some g =>
          rw [nextFrontier] at hnew
          split at hnew
          · exact .inl hnew
          · exact .inr (hnew ▸ mem_cons_self)
    · exact .inr (mem_cons_of_mem _ hmem)

theorem mem_cut {frontier : Option K} (hsorted : rows.Pairwise fun a b => a.1 < b.1) (a : K × V) :
    a ∈ cut frontier rows ↔ a ∈ rows ∧ ∀ f, frontier = some f → a.1 ≤ f := by
  cases frontier with
  | none => exact ⟨fun h => ⟨h, nofun⟩, And.left⟩
  | some f =>
    dsimp only [cut]
    induction rows with
    | nil => simp
    | cons b rows ih =>
      obtain ⟨hhead, htail⟩ := pairwise_cons.mp hsorted
      rw [takeWhile_cons]
      by_cases hb : b.1 ≤ f
      · rw [decide_eq_true hb, if_pos rfl, mem_cons, mem_cons, ih htail]
        constructor
        · rintro (rfl | ⟨ha, haf⟩)
          · exact ⟨.inl rfl, fun g hg => Option.some.inj hg ▸ hb⟩
          · exact ⟨.inr ha, haf⟩
        · rintro ⟨rfl | ha, haf⟩
          · exact .inl rfl
          · exact .inr ⟨ha, haf⟩
      · rw [decide_eq_false hb, if_neg Bool.false_ne_true]
        refine ⟨nofun, ?_⟩
        rintro ⟨ha, haf⟩
        have hle := haf f rfl
        rcases mem_cons.mp ha with rfl | ha
        · exact absurd hle hb
        · exact absurd (le_trans (le_of_lt (hhead a ha)) hle) hb

theorem cut_sublist (frontier : Option K) (rows : List (K × V)) :
    (cut frontier rows).Sublist rows := by
  cases frontier with
  | none => exact List.Sublist.refl _
  | some f => exact takeWhile_sublist _

section
variable {l : BTree K (Versioned V)}

theorem range_eq : l.range low high limit = (inRange low high l).take limit := l.range_eq ..

theorem inRange_sorted : (inRange low high l).Pairwise fun a b => a.1 < b.1 := l.sorted.filter _

theorem mem_inRange :
    (k, e) ∈ inRange low high l ↔ l.get k = some e ∧ within low high k = true := by
  rw [inRange, mem_filter, OrdMap.get_eq_some_iff]

theorem range_sublist : (l.range low high limit).Sublist (inRange low high l) := by
  rw [range_eq]
  exact take_sublist ..

theorem visible_sorted : (visible pin (l.range low high limit)).Pairwise fun a b => a.1 < b.1 :=
  pairwise_map.mpr ((inRange_sorted.sublist range_sublist).filter _)

omit [LinearOrder K] in
theorem mem_visible : (k, v) ∈ visible pin entries ↔
      ∃ e, (k, e) ∈ entries ∧ e.visibleAt pin = true ∧ e.value = v := by
  rw [visible, mem_map]
  constructor
  · rintro ⟨⟨k', e⟩, he, heq⟩
    cases heq
    obtain ⟨hmem, hvisible⟩ := mem_filter.mp he
    exact ⟨e, hmem, hvisible, rfl⟩
  · rintro ⟨e, hmem, hvisible, rfl⟩
    exact ⟨(k, e), mem_filter.mpr ⟨hmem, hvisible⟩, rfl⟩

theorem seen_eq_some : Versioned.seen pin (l.get k) = some v ↔
    ∃ e, l.get k = some e ∧ e.visibleAt pin = true ∧ e.value = v := by
  rw [Versioned.seen, Option.map_eq_some_iff]
  constructor
  · rintro ⟨e, he, rfl⟩
    obtain ⟨hget, hvisible⟩ := Option.filter_eq_some_iff.mp he
    exact ⟨e, hget, hvisible, rfl⟩
  · rintro ⟨e, hget, hvisible, rfl⟩
    exact ⟨e, Option.filter_eq_some_iff.mpr ⟨hget, hvisible⟩, rfl⟩

theorem cursor_mem (h : (withCursor pin (l.range low high limit)).2 = some c) :
    ∃ e, (c, e) ∈ inRange low high l := by
  obtain ⟨⟨k, e⟩, hlast, rfl⟩ := Option.map_eq_some_iff.mp h
  exact ⟨e, range_sublist.mem (mem_of_getLast? hlast)⟩

theorem examined (pin : Nat) (hlimit : 0 < limit) (ha : a ∈ inRange low high l) :
    ∃ c, (withCursor pin (l.range low high limit)).2 = some c ∧
      (a.1 ≤ c → a ∈ l.range low high limit) := by
  cases hlast : (l.range low high limit).getLast? with
  | none =>
    rw [getLast?_eq_none_iff, range_eq, take_eq_nil_iff] at hlast
    rcases hlast with h | h
    · omega
    · rw [h] at ha
      cases ha
  | some last =>
    refine ⟨last.1, by simp [withCursor, hlast], fun hle => ?_⟩
    rw [range_eq] at hlast ⊢
    have hsorted : (inRange low high l).Pairwise fun a b => a.1 < b.1 := inRange_sorted
    rw [← take_append_drop limit (inRange low high l)] at ha hsorted
    rcases mem_append.mp ha with h | h
    · exact h
    · have hlt := (pairwise_append.mp hsorted).2.2 last (mem_of_getLast? hlast) a h
      exact absurd hle (not_le.mpr hlt)

end

def Assigned (m : LanedVersionedMap K V) (lane : K → Nat) : Prop :=
  ∀ i l k, m.lanes[i]? = some l → (l.get k).isSome = true → lane k = i

variable {f : K}

section
variable {m : LanedVersionedMap K V} {low high : Bound K}

theorem apart_runs (hlane : m.Assigned lane) (f : Option K) :
    ApartRuns ((m.parts low high limit pin).map fun part => cut f part.1) := by
  have hkey : ∀ (i : Nat) (rows : List (K × V)),
      ((m.parts low high limit pin).map fun part => cut f part.1)[i]? = some rows →
      ∀ a ∈ rows, lane a.1 = i := by
    intro i rows hrows a ha
    rw [parts, map_map, getElem?_map] at hrows
    obtain ⟨l, hl, rfl⟩ := Option.map_eq_some_iff.mp hrows
    obtain ⟨e, he, -⟩ := mem_visible.mp ((cut_sublist f _).subset ha)
    have hget := (mem_inRange.mp (range_sublist.mem he)).1
    exact hlane i l a.1 hl (by rw [hget]; rfl)
  refine ⟨fun rows hrows => ?_, fun i j rows rows' hi hj hne a ha b hb heq => ?_⟩
  · rw [parts, map_map] at hrows
    obtain ⟨l, hl, rfl⟩ := mem_map.mp hrows
    exact visible_sorted.sublist (cut_sublist f _)
  · exact hne ((hkey i rows hi a ha).symm.trans (heq ▸ hkey j rows' hj b hb))

theorem frontier_le (hl : l ∈ m.lanes) (hc : (withCursor pin (l.range low high limit)).2 = some c) :
    ∃ f, m.frontier low high limit pin = some f ∧ f ≤ c :=
  (foldl_frontier _ none).1 c (.inr (hc ▸ mem_map_of_mem (mem_map_of_mem hl)))

theorem frontier_mem (hf : m.frontier low high limit pin = some f) :
    ∃ l ∈ m.lanes, ∃ e, (f, e) ∈ inRange low high l := by
  rcases (foldl_frontier _ none).2 f hf with h | h
  · cases h
  obtain ⟨part, hpart, hcursor⟩ := mem_map.mp h
  obtain ⟨l, hl, rfl⟩ := mem_map.mp hpart
  exact ⟨l, hl, cursor_mem hcursor⟩

/-- A lane with an entry between the bounds reports a cursor, also one that reached their end. -/
theorem frontier_eq_none_iff (hlimit : ∀ l ∈ m.lanes, (inRange low high l).length < limit) :
    m.frontier low high limit pin = none ↔ ∀ l ∈ m.lanes, inRange low high l = [] := by
  constructor
  · intro hnone l hl
    refine eq_nil_iff_forall_not_mem.mpr fun a ha => ?_
    obtain ⟨c, hc, -⟩ := examined pin (Nat.zero_lt_of_lt (hlimit l hl)) ha
    obtain ⟨f, hf, -⟩ := frontier_le hl hc
    cases hnone.symm.trans hf
  · intro hempty
    cases hf : m.frontier low high limit pin with
    | none => rfl
    | some f =>
      obtain ⟨l, hl, e, he⟩ := frontier_mem hf
      rw [hempty l hl] at he
      cases he

theorem rangeAtWithCursor_spec {lane : K → Nat} (hlane : m.Assigned lane) (hlimit : 0 < limit) :
    ((m.rangeAtWithCursor low high limit pin).1.Pairwise fun a b => a.1 < b.1) ∧
      ∀ k v, (k, v) ∈ (m.rangeAtWithCursor low high limit pin).1 ↔
        m.Row low high pin k v ∧ ∀ f, m.frontier low high limit pin = some f → k ≤ f := by
  obtain ⟨hperm, hsorted⟩ := Lib.mergeRuns_spec (apart_runs hlane (m.frontier low high limit pin))
  refine ⟨hsorted, fun k v => hperm.mem_iff.trans (mem_flatten.trans ?_)⟩
  constructor
  · rintro ⟨rows, hrows, hmem⟩
    obtain ⟨part, hpart, rfl⟩ := mem_map.mp hrows
    obtain ⟨l, hl, rfl⟩ := mem_map.mp hpart
    obtain ⟨hmem, hle⟩ := (mem_cut visible_sorted (k, v)).mp hmem
    obtain ⟨e, he, hvisible, rfl⟩ := mem_visible.mp hmem
    obtain ⟨hget, hwithin⟩ := mem_inRange.mp (range_sublist.mem he)
    exact ⟨⟨hwithin, l, hl, seen_eq_some.mpr ⟨e, hget, hvisible, rfl⟩⟩, hle⟩
  · rintro ⟨⟨hwithin, l, hl, hget⟩, hle⟩
    obtain ⟨e, hentry, hvisible, rfl⟩ := seen_eq_some.mp hget
    obtain ⟨c, hc, hexamined⟩ := examined pin hlimit (mem_inRange.mpr ⟨hentry, hwithin⟩)
    obtain ⟨f, hf, hfc⟩ := frontier_le hl hc
    have hraw := hexamined (le_trans (hle f hf) hfc)
    refine ⟨_, mem_map_of_mem (mem_map_of_mem hl), ?_⟩
    exact (mem_cut visible_sorted _).mpr ⟨mem_visible.mpr ⟨e, hraw, hvisible, rfl⟩, hle⟩

theorem within_excluded (hf : within low high f = true) :
    within (.excluded f) high k = true ↔ within low high k = true ∧ f < k := by
  obtain ⟨hlow, -⟩ := Bool.and_eq_true_iff.mp hf
  unfold within
  rw [Bool.and_eq_true_iff, Bool.and_eq_true_iff]
  constructor
  · rintro ⟨hpast, hhigh⟩
    have hlt : f < k := of_decide_eq_true hpast
    refine ⟨⟨?_, hhigh⟩, hlt⟩
    cases low with
    | unbounded => rfl
    | included b => exact decide_eq_true (le_trans (of_decide_eq_true hlow) hlt.le)
    | excluded b => exact decide_eq_true (lt_trans (of_decide_eq_true hlow) hlt)
  · rintro ⟨⟨-, hhigh⟩, hlt⟩
    exact ⟨decide_eq_true hlt, hhigh⟩

theorem inRange_excluded (hf : within low high f = true) (l : BTree K (Versioned V)) :
    inRange (.excluded f) high l = (inRange low high l).filter fun a => decide (f < a.1) := by
  rw [inRange, inRange, filter_filter]
  refine filter_congr fun a _ => ?_
  rw [Bool.eq_iff_iff, within_excluded hf, Bool.and_eq_true_iff, decide_eq_true_iff, and_comm]

theorem remaining_lt (hf : m.frontier low high limit pin = some f) :
    m.remaining (.excluded f) high < m.remaining low high := by
  obtain ⟨l, hl, e, he⟩ := frontier_mem hf
  have hwithin := (mem_inRange.mp he).2
  refine sum_lt_sum _ _ (fun l' _ => ?_) ⟨l, hl, ?_⟩
  · rw [inRange_excluded hwithin]
    exact length_filter_le ..
  · rw [inRange_excluded hwithin]
    exact length_filter_lt_length_iff_exists.mpr ⟨(f, e), he, by simp⟩

theorem Row.excluded (hf : within low high f = true) :
    m.Row (.excluded f) high pin k v ↔ m.Row low high pin k v ∧ f < k := by
  rw [Row, Row, within_excluded hf, and_right_comm]

end

theorem append_rows {P : K → V → Prop} {rows rest : List (K × V)}
    (hsorted : rows.Pairwise fun a b => a.1 < b.1) (hmem : ∀ k v, (k, v) ∈ rows ↔ P k v ∧ k ≤ f)
    (hsorted' : rest.Pairwise fun a b => a.1 < b.1) (hmem' : ∀ k v, (k, v) ∈ rest ↔ P k v ∧ f < k) :
    ((rows ++ rest).Pairwise fun a b => a.1 < b.1) ∧ ∀ k v, (k, v) ∈ rows ++ rest ↔ P k v := by
  refine ⟨pairwise_append.mpr ⟨hsorted, hsorted', fun a ha b hb => ?_⟩, fun k v => ?_⟩
  · have hle := ((hmem a.1 a.2).mp ha).2
    have hlt := ((hmem' b.1 b.2).mp hb).2
    exact lt_of_le_of_lt hle hlt
  rw [mem_append, hmem, hmem']
  constructor
  · rintro (h | h)
    · exact h.1
    · exact h.1
  · intro h
    rcases le_or_gt k f with hle | hlt
    · exact .inl ⟨h, hle⟩
    · exact .inr ⟨h, hlt⟩

/-- Resuming from past each frontier until there is none lists the rows of every lane that
a reader pinned at `pin` sees between the bounds, in key order, each once. -/
theorem laned_scan_lists_rows {m : LanedVersionedMap K V} {lane : K → Nat}
    (hlane : m.Assigned lane) {limit : Nat} (hlimit : 1 ≤ limit) (low high : Bound K) (pin fuel : Nat)
    (hfuel : m.remaining low high < fuel) :
    ∃ rows, m.scan high limit pin fuel low = Option.some rows ∧ (rows.Pairwise fun a b => a.1 < b.1) ∧
      ∀ k v, (k, v) ∈ rows ↔ m.Row low high pin k v := by
  induction fuel generalizing low with
  | zero => exact absurd hfuel (Nat.not_lt_zero _)
  | succ fuel ih =>
    obtain ⟨hsorted, hmem⟩ : _ ∧ ∀ k v, (k, v) ∈ (m.rangeAtWithCursor low high limit pin).1 ↔ _ :=
      rangeAtWithCursor_spec hlane hlimit
    have hcall : m.rangeAtWithCursor low high limit pin =
        ((m.rangeAtWithCursor low high limit pin).1, m.frontier low high limit pin) := rfl
    rw [scan, hcall]
    cases hf : m.frontier low high limit pin with
    | none =>
      refine ⟨_, rfl, hsorted, fun k v => (hmem k v).trans ⟨And.left, fun h => ⟨h, fun f hnone => ?_⟩⟩⟩
      rw [hf] at hnone
      cases hnone
    | some f =>
      obtain ⟨l, -, e, he⟩ := frontier_mem hf
      have hwithin := (mem_inRange.mp he).2
      have hless := remaining_lt hf
      obtain ⟨rest, hrest, hrestSorted, hrestMem⟩ := ih (.excluded f) (by omega)
      have hupto : ∀ k v, (k, v) ∈ (m.rangeAtWithCursor low high limit pin).1 ↔
          m.Row low high pin k v ∧ k ≤ f := by
        intro k v
        rw [hmem, hf]
        exact and_congr_right fun _ => ⟨fun h => h f rfl, fun h g hg => Option.some.inj hg ▸ h⟩
      refine ⟨_, Option.map_eq_some_iff.mpr ⟨rest, hrest, rfl⟩, ?_⟩
      exact append_rows hsorted hupto hrestSorted fun k v => (hrestMem k v).trans (Row.excluded hwithin)

/-- Even keys in one lane, odd ones in the other; key 2 is a tombstone. -/
def evenOdd : LanedVersionedMap Nat Nat :=
  ⟨[.leaf [(2, ⟨1, some 3, 20⟩), (4, ⟨2, none, 40⟩)] (by simp) (by decide),
    .leaf [(1, ⟨1, none, 10⟩), (3, ⟨4, none, 30⟩)] (by simp) (by decide)]⟩

theorem evenOdd_assigned : evenOdd.Assigned fun k => k % 2 := by
  intro i l k hl hsome
  obtain ⟨e, he⟩ := Option.isSome_iff_exists.mp hsome
  have hmem := OrdMap.mem_of_lookup he
  match i with
  | 0 =>
    cases hl
    rcases mem_cons.mp hmem with heq | hmem
    · cases heq
      rfl
    · cases mem_singleton.mp hmem
      rfl
  | 1 =>
    cases hl
    rcases mem_cons.mp hmem with heq | hmem
    · cases heq
      rfl
    · cases mem_singleton.mp hmem
      rfl
  | n + 2 => cases hl

theorem laned_scan_lists_rows_evenOdd :
    ∃ rows, evenOdd.scan .unbounded 1 4 5 .unbounded = some rows ∧
      (rows.Pairwise fun a b => a.1 < b.1) ∧
      ∀ k v, (k, v) ∈ rows ↔ evenOdd.Row .unbounded .unbounded 4 k v :=
  laned_scan_lists_rows evenOdd_assigned (by decide) .unbounded .unbounded 4 5 (by decide)

example : evenOdd.scan .unbounded 1 4 5 .unbounded = some [(1, 10), (3, 30), (4, 40)] := by
  decide

/-- With a limit that no lane reaches, one call returns every row and no frontier just where
no lane has an entry between the bounds. -/
theorem range_complete_iff {m : LanedVersionedMap K V} {low high : Bound K} {limit : Nat}
    (hlimit : ∀ l ∈ m.lanes, (inRange low high l).length < limit) (pin : Nat) :
    ((∀ k v, m.Row low high pin k v → (k, v) ∈ (m.rangeAtWithCursor low high limit pin).1) ∧
        (m.rangeAtWithCursor low high limit pin).2 = none) ↔
      ∀ l ∈ m.lanes, inRange low high l = [] := by
  refine ⟨fun h => (frontier_eq_none_iff hlimit).mp h.2, fun hempty => ⟨fun k v hrow => ?_,
    (frontier_eq_none_iff hlimit).mpr hempty⟩⟩
  obtain ⟨hwithin, l, hl, hget⟩ := hrow
  obtain ⟨e, hentry, -, -⟩ := seen_eq_some.mp hget
  have hmem := mem_inRange.mpr ⟨hentry, hwithin⟩
  rw [hempty l hl] at hmem
  cases hmem

theorem range_complete_iff_past : ((∀ k v, evenOdd.Row (.included 7) .unbounded 4 k v →
        (k, v) ∈ (evenOdd.rangeAtWithCursor (.included 7) .unbounded 5 4).1) ∧
      (evenOdd.rangeAtWithCursor (.included 7) .unbounded 5 4).2 = none) ↔
      ∀ l ∈ evenOdd.lanes, inRange (.included 7) .unbounded l = [] :=
  range_complete_iff (by decide) 4

/-- Both lanes are walked to their ends, and the row past the smaller end is left out. -/
theorem row_past_smallest_end :
    (∀ l ∈ evenOdd.lanes, (inRange .unbounded .unbounded l).length < 5) ∧
      evenOdd.Row .unbounded .unbounded 4 4 40 ∧
      evenOdd.rangeAtWithCursor .unbounded .unbounded 5 4 = ([(1, 10), (3, 30)], some 3) :=
  ⟨by decide, ⟨rfl, _, mem_cons_self .., by decide⟩, by decide⟩

end LanedVersionedMap
end SubEtha.Epochs
