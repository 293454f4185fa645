import SubEtha.Block.Lossless
import SubEtha.Rlc.Stream

namespace SubEtha.Unified
open List Block Rlc

/-- What the sliding-window code delivers of `items` over a lossless channel: each
one packed into a symbol and unpacked again. -/
def rlcDelivers (symbolLen : Nat) (items : List Item) : List Item :=
  items.map fun item => unpackSymbol (packSymbol item symbolLen)

theorem rlcDelivers_eq (h : ∀ item ∈ items, item.length + lenPrefix ≤ symbolLen) :
    rlcDelivers symbolLen items = items.map fun item => item.take (item.length % 2 ^ 16) :=
  map_congr_left fun item hitem => unpackSymbol_wraps (h item hitem)

theorem carried_isSome (item : Item) : (carried item).isSome ↔ item.length % 2 ^ 16 ≠ 0 := by
  unfold carried
  split <;> simp_all

/-- For every list of items within the limits of both codes, the block code over a
lossless channel delivers the same list as the sliding-window code exactly when no
item's length prefix is 0, that is when none is empty. -/
theorem codes_carry_same_items {k r maxItem epoch cap symbolLen : Nat} {items : List Item}
    (hk : 0 < k) (hmax : k ≤ maxShards) (hcap : max cap 1 % 2 ^ 32 ≠ 0)
    (hlimit : ∀ item ∈ items, item.length ≤ maxItem ∧ item.length + lenPrefix ≤ symbolLen)
    (hcount : items.length ≤ 2 ^ 31 * k) :
    rsDelivers k r maxItem epoch cap items = some (rlcDelivers symbolLen items) ↔
      ∀ item ∈ items, item.length % 2 ^ 16 ≠ 0 := by
  rw [rsDelivers_eq hk hmax hcap hcount, rlcDelivers_eq fun item hitem => (hlimit item hitem).2,
    Option.some.injEq]
  constructor
  · intro heq item hitem
    have hlen := congrArg length heq
    rw [length_map, filterMap_length_eq_length] at hlen
    exact (carried_isSome item).mp (hlen item hitem)
  · intro hne
    rw [← filterMap_eq_map]
    refine filterMap_congr fun item hitem => ?_
    rw [carried, if_neg (hne item hitem)]
    rfl

theorem codes_carry_same_items_threeItems :
    rsDelivers 2 1 4 7 16 [[byte 1], [byte 2, byte 3], [byte 0]] =
      some (rlcDelivers 6 [[byte 1], [byte 2, byte 3], [byte 0]]) :=
  (codes_carry_same_items (by decide) (by decide) (by decide) (by decide) (by decide)).mpr
    (by decide)

/-- An empty item is padding to the block code and an item to the other: behind it
every index is off by one. -/
theorem empty_item_skipped : rsDelivers 2 1 4 7 16 [[], [byte 1]] = some [[byte 1]] ∧
      rlcDelivers 6 [[], [byte 1]] = [[], [byte 1]] := by
  refine ⟨?_, by decide⟩
  rw [rsDelivers_eq (by decide) (by decide) (by decide) (by decide)]
  rfl

end SubEtha.Unified
