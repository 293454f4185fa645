import Mathlib.Data.List.Chain
import Mathlib.Data.List.Nodup

namespace SubEtha.Lib
open List

variable {ι : Type} {next prev next' prev' : ι → ι}

/-- Each node of the list and the one behind it point at each other. -/
def Linked (next prev : ι → ι) (l : List ι) : Prop :=
  l.IsChain fun a b => next a = b ∧ prev b = a

theorem Linked.congr (h : Linked next prev l) (hnext : ∀ a ∈ l.dropLast, next' a = next a)
    (hprev : ∀ b ∈ l.tail, prev' b = prev b) : Linked next' prev' l := by
  induction l with
  | nil => exact .nil
  | cons a l ih =>
    cases l with
    | nil => exact .singleton a
    | cons b l =>
      obtain ⟨⟨hab, hba⟩, hrest⟩ := isChain_cons_cons.mp h
      rw [dropLast_cons_cons, forall_mem_cons] at hnext
      rw [tail_cons, forall_mem_cons] at hprev
      exact isChain_cons_cons.mpr ⟨⟨hnext.1.trans hab, hprev.1.trans hba⟩,
        ih hrest hnext.2 fun c hc => hprev.2 c hc⟩

theorem Linked.next_mem (h : Linked next prev l) (hx : x ∈ l.dropLast) : next x ∈ l.tail := by
  induction l with
  | nil => cases hx
  | cons a l ih =>
    cases l with
    | nil => cases hx
    | cons b l =>
      obtain ⟨⟨hab, -⟩, hrest⟩ := isChain_cons_cons.mp h
      rcases mem_cons.mp hx with rfl | hmem
      · exact hab ▸ mem_cons_self
      · exact mem_cons_of_mem _ (ih hrest hmem)

/-- A circular doubly linked list: the nodes `ids` in order behind the sentinel `head`. -/
structure Circle (next prev : ι → ι) (head : ι) (ids : List ι) : Prop where
  linked : Linked next prev (head :: (ids ++ [head]))
  nodup : (head :: ids).Nodup

namespace Circle

variable {head x : ι} {ids : List ι}

theorem empty (hnext : next head = head) (hprev : prev head = head) : Circle next prev head [] :=
  ⟨.cons_cons ⟨hnext, hprev⟩ (.singleton _), nodup_singleton _⟩

section
variable (h : Circle next prev head ids)
include h

theorem reverse : Circle prev next head ids.reverse := by
  refine ⟨?_, ?_⟩
  · have hrev := isChain_reverse.mpr h.linked
    rw [reverse_cons, reverse_append, reverse_singleton] at hrev
    exact hrev.imp fun _ _ hab => ⟨hab.2, hab.1⟩
  · obtain ⟨hhead, hids⟩ := nodup_cons.mp h.nodup
    exact nodup_cons.mpr ⟨fun hmem => hhead (mem_reverse.mp hmem), nodup_reverse.mpr hids⟩

theorem next_mem (hx : x ∈ head :: ids) : next x ∈ head :: ids := by
  have hdrop : (head :: (ids ++ [head])).dropLast = head :: ids := by
    rw [← cons_append, dropLast_concat]
  exact (perm_append_singleton head ids).subset (h.linked.next_mem (hdrop ▸ hx))

theorem prev_mem (hx : x ∈ head :: ids) : prev x ∈ head :: ids := by
  have hperm : (head :: ids.reverse).Perm (head :: ids) := (reverse_perm ids).cons head
  exact hperm.subset (h.reverse.next_mem (hperm.symm.subset hx))

theorem next_head : next head = ids.headD head := by
  cases ids with
  | nil | cons => exact (isChain_cons_cons.mp h.linked).1.1

theorem prev_head : prev head = ids.reverse.headD head := h.reverse.next_head

theorem push [DecidableEq ι] (hx : x ∉ head :: ids)
    (hnext : ∀ a, next' a = if a = head then x else if a = x then next head else next a)
    (hprev : ∀ a, prev' a = if a = next head then x else if a = x then head else prev a) :
    Circle next' prev' head (x :: ids) := by
  obtain ⟨hhead, hids⟩ := nodup_cons.mp h.nodup
  have hne : x ≠ head := fun heq => hx (heq ▸ mem_cons_self)
  have hfirstNe : x ≠ next head := fun heq => hx (heq ▸ h.next_mem mem_cons_self)
  have hnextHead : next' head = x := (hnext head).trans (if_pos rfl)
  have hnextNew : next' x = next head := by rw [hnext, if_neg hne, if_pos rfl]
  have hprevNew : prev' x = head := by rw [hprev, if_neg hfirstNe, if_pos rfl]
  have hprevFirst : prev' (next head) = x := (hprev _).trans (if_pos rfl)
  replace hnext : ∀ a, a ≠ head → a ≠ x → next' a = next a := fun a ha hax => by
    rw [hnext, if_neg ha, if_neg hax]
  replace hprev : ∀ a, a ≠ next head → a ≠ x → prev' a = prev a := fun a ha hax => by
    rw [hprev, if_neg ha, if_neg hax]
  refine ⟨?_, ?_⟩
  · cases ids with
    | nil =>
      have hfirst : next head = head := h.next_head
      rw [hfirst] at hnextNew hprevFirst
      exact .cons_cons ⟨hnextHead, hprevNew⟩ (.cons_cons ⟨hnextNew, hprevFirst⟩ (.singleton _))
    | cons q ids =>
      have hfirst : next head = q := h.next_head
      rw [hfirst] at hnextNew hprevFirst hprev
      refine .cons_cons ⟨hnextHead, hprevNew⟩ (.cons_cons ⟨hnextNew, hprevFirst⟩ ?_)
      have hrest : Linked next prev (q :: (ids ++ [head])) := (isChain_cons_cons.mp h.linked).2
      refine hrest.congr (fun a ha => ?_) fun b hb => ?_
      · rw [← cons_append, dropLast_concat] at ha
        exact hnext a (fun heq => hhead (heq ▸ ha)) fun heq => hx (mem_cons_of_mem _ (heq ▸ ha))
      have hq : q ∉ ids := (nodup_cons.mp hids).1
      rcases mem_append.mp hb with hmem | hmem
      · exact hprev b (fun heq => hq (heq ▸ hmem))
          fun heq => hx (mem_cons_of_mem _ (mem_cons_of_mem _ (heq ▸ hmem)))
      obtain rfl := mem_singleton.mp hmem
      exact hprev b (fun heq => hhead (heq ▸ mem_cons_self)) fun heq => hx (heq ▸ mem_cons_self)
  · refine nodup_cons.mpr ⟨?_, nodup_cons.mpr ⟨fun hmem => hx (mem_cons_of_mem _ hmem), hids⟩⟩
    rintro (_ | ⟨_, hmem⟩)
    · exact hx mem_cons_self
    · exact hhead hmem

end

theorem remove [DecidableEq ι] {before after : List ι}
    (h : Circle next prev head (before ++ x :: after))
    (hnext : ∀ a, next' a = if a = prev x then next x else next a)
    (hprev : ∀ a, prev' a = if a = next x then prev x else prev a) :
    Circle next' prev' head (before ++ after) := by
  have hnextPrev := (hnext _).trans (if_pos rfl)
  have hprevNext := (hprev _).trans (if_pos rfl)
  replace hnext := fun a ha => (hnext a).trans (if_neg ha)
  replace hprev := fun a ha => (hprev a).trans (if_neg ha)
  have hnodup : (head :: (before ++ after)).Nodup :=
    h.nodup.sublist (List.Sublist.cons_cons _ (List.Sublist.append_left (sublist_cons_self _ _) _))
  refine ⟨?_, hnodup⟩
  obtain ⟨pre, p, hpre⟩ : ∃ pre p, head :: before = pre ++ [p] :=
    ⟨_, _, (dropLast_concat_getLast (cons_ne_nil head before)).symm⟩
  obtain ⟨q, post, hpost⟩ : ∃ q post, after ++ [head] = q :: post := by
    cases after with
    | nil => exact ⟨head, [], rfl⟩
    | cons a after => exact ⟨a, after ++ [head], rfl⟩
  have hwas : Linked next prev (pre ++ p :: x :: q :: post) := by
    have hlinked := h.linked
    rw [append_assoc, cons_append, hpost, ← cons_append, hpre, append_assoc] at hlinked
    exact hlinked
  obtain ⟨hleft, ⟨-, hpx⟩, hright⟩ := isChain_append_cons_cons.mp hwas
  obtain ⟨⟨hxq, -⟩, hright⟩ := isChain_cons_cons.mp hright
  rw [hpx, hxq] at hnextPrev hprevNext
  rw [hpx] at hnext
  rw [hxq] at hprev
  have hnow : head :: (before ++ after ++ [head]) = pre ++ p :: q :: post := by
    rw [append_assoc, hpost, ← cons_append, hpre, append_assoc]
    rfl
  rw [hnow]
  have hdisjoint : ∀ a ∈ head :: before, a ∉ after := fun a ha hmem => by
    rw [← cons_append] at hnodup
    exact (nodup_append.mp hnodup).2.2 a ha a hmem rfl
  have hheadNot : head ∉ before ++ after := (nodup_cons.mp hnodup).1
  refine isChain_append_cons_cons.mpr ⟨?_, ⟨hnextPrev, hprevNext⟩, ?_⟩
  · refine Linked.congr hleft (fun a ha => hnext a fun heq => ?_) fun b hb => hprev b fun heq => ?_
    · rw [dropLast_concat] at ha
      have hbefore : (pre ++ [p]).Nodup := hpre ▸ hnodup.sublist
        (List.Sublist.cons_cons _ (sublist_append_left _ _))
      exact (nodup_append.mp hbefore).2.2 a ha p mem_cons_self heq
    rw [← hpre, tail_cons] at hb
    have hq : b ∈ after ++ [head] := hpost ▸ heq ▸ mem_cons_self
    rcases mem_append.mp hq with hmem | hmem
    · exact hdisjoint b (mem_cons_of_mem _ hb) hmem
    · obtain rfl := mem_singleton.mp hmem
      exact hheadNot (mem_append_left _ hb)
  · refine Linked.congr hright (fun a ha => hnext a fun heq => ?_) fun b hb => hprev b fun heq => ?_
    · rw [← hpost, dropLast_concat] at ha
      have hp : a ∈ head :: before := hpre ▸ heq ▸ mem_append_right _ mem_cons_self
      exact hdisjoint a hp ha
    have hafter : (q :: post).Nodup := by
      rw [← hpost]
      refine nodup_append.mpr ⟨(nodup_append.mp (nodup_cons.mp hnodup).2).2.1,
        nodup_singleton _, fun a ha b hb hab => ?_⟩
      obtain rfl := mem_singleton.mp hb
      exact hheadNot (mem_append_right _ (hab ▸ ha))
    exact (nodup_cons.mp hafter).1 (heq ▸ hb)

end Circle
end SubEtha.Lib
