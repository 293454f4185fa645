import Mathlib.Algebra.Group.Nat.Defs
import Mathlib.Data.List.Basic

theorem List.lt_of_some {l : List α} {i : Nat} (h : l[i]? = some a) : i < l.length :=
  (getElem_of_getElem? h).1

namespace SubEtha.Lib
open Option List

section
variable {β : Type} {l : List β} {a x y : β} {f : β → β} {b i : Nat}

theorem append_some (h : (l ++ [a])[i]? = some x) : l[i]? = some x ∨ i = l.length ∧ x = a := by
  rcases Nat.lt_or_ge i l.length with hlt | hge
  · rw [getElem?_append_left hlt] at h
    exact .inl h
  have hlt := lt_of_some h
  rw [length_append, length_singleton] at hlt
  obtain rfl : i = l.length := by omega
  rw [getElem?_concat_length] at h
  exact .inr ⟨rfl, (some.inj h).symm⟩

theorem set_some (h : (l.set i a)[j]? = some x) : i = j ∧ x = a ∨ i ≠ j ∧ l[j]? = some x := by
  by_cases hij : i = j
  · subst hij
    have hlt := lt_of_some h
    rw [length_set] at hlt
    rw [getElem?_set_self hlt] at h
    exact .inl ⟨rfl, (some.inj h).symm⟩
  · rw [getElem?_set_ne hij] at h
    exact .inr ⟨hij, h⟩

theorem modify_some (h : (l.modify b f)[i]? = some y) :
    ∃ x, l[i]? = some x ∧ (if b = i then f x else x) = y := by
  rw [getElem?_modify] at h
  exact map_eq_some_iff.mp h

theorem map_modify {γ : Type} {g : β → γ} (h : ∀ x, l[b]? = some x → g (f x) = g x) :
    (l.modify b f).map g = l.map g := by
  refine ext_getElem? fun i => ?_
  rw [getElem?_map, getElem?_map, getElem?_modify]
  cases hx : l[i]? with
  | none => rfl
  | some x =>
    dsimp only [Option.map_eq_map, Option.map_some]
    split
    · subst b
      rw [h x hx]
    · rfl

theorem map_modify_set {γ : Type} (g : β → γ) (hx : l[b]? = some x) :
    (l.modify b f).map g = (l.map g).set b (g (f x)) := by
  rw [modify_eq_set_getElem?, hx]
  exact map_set

theorem countP_set (h : l[i]? = some a) (b : β) (p : β → Bool) :
    (l.set i b).countP p + (p a).toNat = l.countP p + (p b).toNat := by
  induction l generalizing i with
  | nil => cases h
  | cons c l ih =>
    cases i with
    | zero =>
      cases h
      rw [set_cons_zero, countP_cons, countP_cons]
      cases p a <;> cases p b <;> simp
    | succ i =>
      have hrest := ih h
      rw [set_cons_succ, countP_cons, countP_cons]
      omega

end

section
variable {β : Type} {l : List (List β)} {t : List β} {x : β} {b : Nat}

theorem flatten_at (h : l[b]? = some t) :
    l.flatten = (l.take b).flatten ++ (t ++ (l.drop (b + 1)).flatten) := by
  obtain ⟨hlt, heq⟩ := List.getElem_of_getElem? h
  conv_lhs => rw [← take_append_drop b l, drop_eq_getElem_cons hlt, heq]
  simp

theorem flatten_set (h : l[b]? = some t) (t' : List β) :
    (l.set b t').flatten = (l.take b).flatten ++ (t' ++ (l.drop (b + 1)).flatten) := by
  simp [set_eq_take_append_cons_drop, if_pos (lt_of_some h)]

theorem flatten_pop_perm (h : l[b]? = some (x :: t)) :
    l.flatten.Perm (x :: (l.set b t).flatten) := by
  rw [flatten_at h, flatten_set h]
  exact perm_middle

theorem flatten_push_perm (h : l[b]? = some t) (x : β) :
    (l.set b (t ++ [x])).flatten.Perm (x :: l.flatten) := by
  rw [flatten_at h, flatten_set h, append_assoc]
  exact (perm_middle.append_left _).trans perm_middle

theorem drop_mul_flatten (h : ∀ s ∈ l, s.length = len) (i : Nat) :
    l.flatten.drop (i * len) = (l.drop i).flatten := by
  induction l generalizing i with
  | nil => simp
  | cons s l ih =>
    cases i with
    | zero => rw [Nat.zero_mul, drop_zero, drop_zero]
    | succ i =>
      rw [drop_succ_cons, flatten_cons, Nat.succ_mul, Nat.add_comm, ← drop_drop,
        drop_left' (h s mem_cons_self)]
      exact ih (fun s hs => h s (mem_cons_of_mem _ hs)) i

theorem flatten_slice (h : ∀ s ∈ l, s.length = len) (i : Nat) :
    (l.flatten.drop (i * len)).take len = l.getD i [] := by
  rw [drop_mul_flatten h, getD_eq_getElem?_getD, ← head?_drop]
  cases hdrop : l.drop i with
  | nil => simp
  | cons s rest =>
    have hs : s.length = len := h s (mem_of_mem_drop (hdrop ▸ mem_cons_self))
    rw [flatten_cons, take_left' hs]
    rfl

end

/-- Two positions less than a lap apart are in different slots of a circular buffer. -/
theorem mod_ne_of_lap {p n cap : Nat} (hlt : p < n) (hlap : n < p + cap) : n % cap ≠ p % cap := by
  intro heq
  have hzero := Nat.sub_mod_eq_zero_of_mod_eq heq
  rw [Nat.mod_eq_of_lt (by omega)] at hzero
  omega

variable {α : Type} {p : α → Bool} {x : α} {l : List α} {n : Nat}

/-- The last `n` entries of the history have `p`. -/
def Sustained (n : Nat) (p : α → Bool) (l : List α) : Prop :=
  n ≤ l.length ∧ ∀ x ∈ l.take n, p x = true

/-- The number of last entries in a row that have `p`. -/
def streak (p : α → Bool) (l : List α) : Nat := (l.takeWhile p).length

@[simp] theorem streak_nil : streak p [] = 0 := rfl

@[simp] theorem streak_cons_pos (h : p x = true) : streak p (x :: l) = streak p l + 1 := by
  simp [streak, h]

@[simp] theorem streak_cons_neg (h : p x = false) : streak p (x :: l) = 0 := by
  simp [streak, h]

theorem sustained_iff : Sustained n p l ↔ n ≤ streak p l := by
  induction l generalizing n with
  | nil => simp [Sustained]
  | cons x l ih =>
    cases n with
    | zero => simp [Sustained]
    | succ n =>
      cases h : p x with
      | false => simp [Sustained, h]
      | true =>
        simp only [Sustained, length_cons, take_succ_cons, forall_mem_cons, h,
          true_and, streak_cons_pos, Nat.add_le_add_iff_right] at ih ⊢
        exact ih

end SubEtha.Lib
