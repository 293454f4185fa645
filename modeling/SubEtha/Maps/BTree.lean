import Mathlib.Algebra.Group.Nat.Defs
import SubEtha.Lib.OrdMap

namespace SubEtha.Maps
open List
open Lib (OrdMap Bound)
open Lib.OrdMap (atOrAboveLow aboveHigh)

variable {K V : Type}

/-- A node: its keys with their values, and an inner node's children, one more. -/
structure BTreeNode (K V : Type) where
  isLeaf : Bool
  entries : List (K × V)
  children : List Nat

/-- The arena of nodes and the index of the root; `none` is the `NIL` of an empty map. No write
is under way, so the version that reads check is left out. -/
structure SharedBTreeMap (K V : Type) where
  capacity : Nat
  root : Option Nat
  nodes : Nat → BTreeNode K V

namespace SharedBTreeMap

/-- The most keys of a node, `B`. -/
def maxKeys : Nat := 15
def maxTreeDepth : Nat := 64
def nil : Nat := 2 ^ 32 - 1

/-- What a range walk has collected, and whether it is torn or at its end. -/
structure Walk (K V : Type) where
  out : List (K × V)
  torn : Bool
  stop : Bool

section
variable [LinearOrder K]

def lowAdmitsBelow (k : K) : Bound K → Bool
  | .unbounded => true
  | .included l => decide (l < k)
  | .excluded l => decide (l < k)

/-- The walk comes to an entry. One that is torn or at its end stays as it is: with the check that
`walk_range` starts with, these are the early returns of its loop. -/
def visit (low high : Bound K) (limit : Nat) (w : Walk K V) (a : K × V) : Walk K V :=
  if w.torn || w.stop then w
  else if aboveHigh a.1 high then { w with stop := true }
  else if atOrAboveLow a.1 low then
    { w with out := w.out ++ [a], stop := decide (limit ≤ w.out.length + 1) }
  else w

/-- The entries of a node, each after the child below it, and the last child. -/
def walkEntries (walk : Nat → Walk K V → Walk K V) (low high : Bound K) (limit : Nat)
    (isLeaf : Bool) : List (K × V) → List Nat → Walk K V → Walk K V
  | [], children, w => if isLeaf then w else walk (children.headD nil) w
  | a :: rest, children, w =>
    let w := if !isLeaf && lowAdmitsBelow a.1 low then walk (children.headD nil) w else w
    walkEntries walk low high limit isLeaf rest children.tail (visit low high limit w a)

variable (t : SharedBTreeMap K V)

/-- `capacity as u32`. -/
def cap : Nat := t.capacity % 2 ^ 32

def walkRange (low high : Bound K) (limit : Nat) : Nat → Nat → Walk K V → Walk K V
  | 0, _, w => if w.torn || w.stop then w else { w with torn := true }
  | depth + 1, idx, w =>
    if w.torn || w.stop then w
    else if t.cap ≤ idx then { w with torn := true }
    else
      let n := t.nodes idx
      walkEntries (walkRange low high limit depth) low high limit n.isLeaf
        (n.entries.take maxKeys) n.children w

/-- `none` where the walk is torn, and every retry of it. -/
def rangeInner (low high : Bound K) (limit : Nat) : Option (List (K × V)) :=
  if limit = 0 then some []
  else
    match t.root with
    | none => some []
    | some root =>
      let w := t.walkRange low high limit maxTreeDepth root ⟨[], false, false⟩
      if w.torn then none else some w.out

end

section
variable (sub : Nat → List (K × V) → Prop)

/-- Children and the entries between them, and all the entries below these in order. -/
inductive Between : List (K × V) → List Nat → List (K × V) → Prop
  | last (h : sub c es) : Between [] [c] es
  | cons (h : sub c es) (rest : Between as cs es') : Between (a :: as) (c :: cs) (es ++ a :: es')

end

/-- The subtree at a node has height `h` and these entries, in order. -/
def Holds (t : SharedBTreeMap K V) : Nat → Nat → List (K × V) → Prop
  | 0, idx, es => idx < t.cap ∧ (t.nodes idx).isLeaf = true ∧ (t.nodes idx).entries = es ∧
      es.length ≤ maxKeys
  | h + 1, idx, es => idx < t.cap ∧ (t.nodes idx).isLeaf = false ∧
      (t.nodes idx).entries.length ≤ maxKeys ∧
      Between (t.Holds h) (t.nodes idx).entries (t.nodes idx).children es

variable [LinearOrder K] {t : SharedBTreeMap K V} {es as : List (K × V)} {a : K × V}
  {low high : Bound K} {w : Walk K V}

theorem foldl_visit_done (h : (w.torn || w.stop) = true) :
    es.foldl (visit low high limit) w = w := by
  induction es with
  | nil => rfl
  | cons a es ih => rw [foldl_cons, visit, if_pos h, ih]

theorem aboveHigh_mono (hle : k ≤ k') (h : aboveHigh k high = true) :
    aboveHigh k' high = true := by
  cases high with
  | unbounded => cases h
  | included b => exact decide_eq_true (lt_of_lt_of_le (of_decide_eq_true h) hle)
  | excluded b => exact decide_eq_true (le_trans (of_decide_eq_true h) hle)

theorem below_low (hlow : lowAdmitsBelow k low = false) (hlt : k' < k) :
    atOrAboveLow k' low = false := by
  cases low with
  | unbounded => cases hlow
  | included l => exact decide_eq_false (not_le.mpr (hlt.trans_le (not_lt.mp (of_decide_eq_false hlow))))
  | excluded l => exact decide_eq_false (not_lt.mpr (hlt.le.trans (not_lt.mp (of_decide_eq_false hlow))))

/-- A subtree below a key that the low bound is not below adds nothing. -/
theorem visit_below (hlow : lowAdmitsBelow a.1 low = false) (hbelow : ∀ b ∈ es, b.1 < a.1) :
    visit low high limit (es.foldl (visit low high limit) w) a = visit low high limit w a := by
  cases hdone : w.torn || w.stop with
  | true => rw [foldl_visit_done hdone]
  | false =>
    induction es with
    | nil => rfl
    | cons b es ih =>
      have hb := hbelow b mem_cons_self
      rw [foldl_cons]
      by_cases hhigh : aboveHigh b.1 high = true
      · simp [visit, hdone, hhigh, aboveHigh_mono hb.le hhigh, foldl_visit_done]
      · have hsame : visit low high limit w b = w := by simp [visit, hhigh, below_low hlow hb]
        rw [hsame]
        exact ih fun b hb => hbelow b (mem_cons_of_mem _ hb)

theorem walkEntries_leaf :
    walkEntries walk low high limit true as cs w = as.foldl (visit low high limit) w := by
  induction as generalizing w cs with
  | nil => rfl
  | cons a as ih => exact ih

theorem walkEntries_eq (hwalk : ∀ c es w, sub c es → (es.Pairwise fun a b => a.1 < b.1) →
      walk c w = es.foldl (visit low high limit) w) (h : Between sub as cs es)
    (hsorted : es.Pairwise fun a b => a.1 < b.1) :
    walkEntries walk low high limit false as cs w = es.foldl (visit low high limit) w := by
  induction h generalizing w with
  | last h => exact hwalk _ _ w h hsorted
  | @cons c es as cs es' a h rest ih =>
    obtain ⟨hes, hes', hacross⟩ := pairwise_append.mp hsorted
    have hvisit : visit low high limit (if lowAdmitsBelow a.1 low = true then walk c w else w) a =
        visit low high limit (es.foldl (visit low high limit) w) a := by
      split
      · rw [hwalk c es w h hes]
      · rename_i hlow
        exact (visit_below (by simpa using hlow) fun b hb => hacross b hb a mem_cons_self).symm
    rw [foldl_append, foldl_cons, ← hvisit]
    exact ih (pairwise_cons.mp hes').2

theorem walkRange_succ (hidx : idx < t.cap) (hlen : (t.nodes idx).entries.length ≤ maxKeys)
    (h : walkEntries (t.walkRange low high limit depth) low high limit (t.nodes idx).isLeaf
      (t.nodes idx).entries (t.nodes idx).children w = es.foldl (visit low high limit) w) :
    t.walkRange low high limit (depth + 1) idx w = es.foldl (visit low high limit) w := by
  rw [walkRange]
  split
  · exact (foldl_visit_done ‹_›).symm
  rw [if_neg (not_le.mpr hidx)]
  dsimp only
  rwa [take_of_length_le hlen]

theorem walkRange_eq (h : t.Holds height idx es) (hsorted : es.Pairwise fun a b => a.1 < b.1)
    (hdepth : height < depth) :
    t.walkRange low high limit depth idx w = es.foldl (visit low high limit) w := by
  obtain ⟨depth, rfl⟩ := Nat.exists_eq_add_one_of_ne_zero (Nat.ne_zero_of_lt hdepth)
  induction height generalizing depth idx es w with
  | zero =>
    obtain ⟨hidx, hleaf, rfl, hlen⟩ := h
    exact walkRange_succ hidx hlen (hleaf ▸ walkEntries_leaf)
  | succ height ih =>
    obtain ⟨hidx, hleaf, hlen, hbetween⟩ := h
    obtain ⟨depth, rfl⟩ := Nat.exists_eq_add_one_of_ne_zero (show depth ≠ 0 by omega)
    refine walkRange_succ hidx hlen (hleaf ▸ walkEntries_eq (fun c es w hsub hs => ?_) hbetween hsorted)
    exact ih hsub hs depth (by omega)

/-- A walk over entries in order collects those between the bounds, up to the limit. -/
theorem foldl_visit (low high : Bound K) (hsorted : es.Pairwise fun a b => a.1 < b.1)
    (hdone : (w.torn || w.stop) = false) (hroom : w.out.length < limit) :
    (es.foldl (visit low high limit) w).torn = false ∧ (es.foldl (visit low high limit) w).out =
      (w.out ++ es.filter fun a => atOrAboveLow a.1 low && !aboveHigh a.1 high).take limit := by
  have htorn : w.torn = false := (Bool.or_eq_false_iff.mp hdone).1
  induction es generalizing w with
  | nil => exact ⟨htorn, by simp [take_of_length_le hroom.le]⟩
  | cons a es ih =>
    obtain ⟨hhead, htail⟩ := pairwise_cons.mp hsorted
    rw [foldl_cons, visit, hdone, if_neg Bool.false_ne_true]
    by_cases hhigh : aboveHigh a.1 high = true
    · have hnil : (a :: es).filter (fun a => atOrAboveLow a.1 low && !aboveHigh a.1 high) = [] := by
        refine filter_eq_nil_iff.mpr fun b hb => ?_
        have hle : a.1 ≤ b.1 := by
          rcases mem_cons.mp hb with rfl | hb
          · exact le_rfl
          · exact (hhead b hb).le
        simp [aboveHigh_mono hle hhigh]
      rw [if_pos hhigh, foldl_visit_done (by simp), hnil, append_nil, take_of_length_le hroom.le]
      exact ⟨htorn, rfl⟩
    rw [if_neg hhigh]
    by_cases hlow : atOrAboveLow a.1 low = true
    · rw [if_pos hlow, filter_cons_of_pos (by simp [hlow, hhigh]), append_cons w.out a (es.filter _)]
      have hlen : (w.out ++ [a]).length = w.out.length + 1 := length_append
      by_cases hfull : limit ≤ w.out.length + 1
      · rw [foldl_visit_done (by simp [hfull]), take_left' (hlen.trans (by omega))]
        exact ⟨htorn, rfl⟩
      · exact ih (w := ⟨w.out ++ [a], w.torn, decide _⟩) htail (by simp [htorn, hfull])
          (by dsimp only; omega) htorn
    · rw [if_neg hlow, filter_cons_of_neg (by simp [hlow])]
      exact ih htail hdone hroom htorn

end SharedBTreeMap

open SharedBTreeMap

/-- A map whose tree, of fewer levels than a walk goes down, holds the entries of an ordered map. -/
structure BTree (K V : Type) [LinearOrder K] extends OrdMap K V where
  map : SharedBTreeMap K V
  holds : match map.root with
    | none => entries = []
    | some root => ∃ height < maxTreeDepth, map.Holds height root entries

namespace BTree

variable [LinearOrder K] (t : BTree K V)

theorem rangeInner_eq (low high : Bound K) (limit : Nat) :
    t.map.rangeInner low high limit = some (t.toOrdMap.range low high limit) := by
  have hholds := t.holds
  unfold rangeInner OrdMap.range
  split
  · rename_i hzero
    rw [hzero, take_zero]
  rename_i hlimit
  split at hholds
  · simp [hholds]
  obtain ⟨height, hlt, hholds⟩ := hholds
  dsimp only
  rw [walkRange_eq hholds t.sorted hlt]
  obtain ⟨htorn, hout⟩ := foldl_visit (w := ⟨[], false, false⟩) low high t.sorted rfl
    (Nat.pos_of_ne_zero hlimit)
  rw [htorn, hout]
  rfl

/-- The first walk is not torn, so `range` returns what it collected. -/
def range (low high : Bound K) (limit : Nat) : List (K × V) :=
  (t.map.rangeInner low high limit).get (by rw [rangeInner_eq]; rfl)

theorem range_eq (low high : Bound K) (limit : Nat) :
    t.range low high limit = t.toOrdMap.range low high limit :=
  Option.get_of_eq_some _ (t.rangeInner_eq low high limit)

/-- A tree of one leaf. -/
def leaf (es : List (K × V)) (hsorted : es.Pairwise fun a b => a.1 < b.1)
    (hlen : es.length ≤ maxKeys) : BTree K V where
  entries := es
  sorted := hsorted
  map := ⟨1, some 0, fun _ => ⟨true, es, []⟩⟩
  holds := ⟨0, by decide, by simp [cap], rfl, rfl, hlen⟩

end BTree
end SubEtha.Maps
