import SubEtha.Lib.Runs
import SubEtha.Maps.LinkedList

namespace SubEtha.Maps
open List SharedLinkedList
open SubEtha.Lib (run EveryStep)

inductive ListCall (T : Type)
  | pushFront (value : T)
  | pushBack (value : T)
  | popBack
  | remove (handle : Nat)

/-- A list with the handles its callers hold: those of its nodes, in its order, and those of
nodes removed whose slot was not allocated again. -/
structure ListUsers (T : Type) where
  list : SharedLinkedList T
  live : List Nat
  stale : List Nat

namespace ListUsers

variable {T : Type} [Inhabited T]

def call (u : ListUsers T) : ListCall T → Option (ListUsers T)
  | .pushFront value =>
    match u.list.pushFront value with
    | (l, .error _) => some { u with list := l }
    | (l, .ok idx) => some ⟨l, idx :: u.live, u.stale.filter (· ≠ idx)⟩
  | .pushBack value =>
    match u.list.pushBack value with
    | (l, .error _) => some { u with list := l }
    | (l, .ok idx) => some ⟨l, u.live ++ [idx], u.stale.filter (· ≠ idx)⟩
  | .popBack => some ⟨u.list.popBack.1, u.live.dropLast, u.live.getLast?.toList ++ u.stale⟩
  | .remove handle => some ⟨(u.list.remove handle).1, u.live.erase handle,
      if handle ∈ u.live then handle :: u.stale else u.stale⟩

/-- A remove is given the handle of a node in the list, or one that never names a node. -/
def Current (u : ListUsers T) : ListCall T → Prop
  | .remove handle => handle ∈ u.live ∨ handle = nilIndex ∨ handle = headIndex
  | _ => True

instance (u : ListUsers T) : DecidablePred u.Current := fun c => by
  cases c <;> unfold Current <;> infer_instance

/-- What `remove` is documented to do: it takes a node out of the list and returns its value,
and does nothing for a handle whose node is not there. -/
def Documented (u : ListUsers T) (handle : Nat) : Prop :=
  if handle ∈ u.live then
    (u.list.remove handle).2 = some (u.list.readValue handle) ∧
      (u.list.remove handle).1.Holds (u.live.erase handle)
  else u.list.remove handle = (u.list, none)

structure Tracks (u : ListUsers T) : Prop where
  holds : u.list.Holds u.live
  stale : ∀ h ∈ u.stale, ¬(h = nilIndex ∨ h = headIndex) ∧ h ∉ u.live

variable {u u' : ListUsers T}

omit [Inhabited T] in
theorem stale_filter {live' : List Nat} (h : ∀ h ∈ u.stale, ¬(h = nilIndex ∨ h = headIndex) ∧ h ∉ u.live)
    (hlive : ∀ h ∈ live', h = idx ∨ h ∈ u.live) :
    ∀ h ∈ u.stale.filter (· ≠ idx), ¬(h = nilIndex ∨ h = headIndex) ∧ h ∉ live' := by
  intro x hx
  obtain ⟨hx, hne⟩ := mem_filter.mp hx
  refine ⟨(h x hx).1, fun hmem => ?_⟩
  rcases hlive x hmem with heq | hmem
  · exact of_decide_eq_true hne heq
  · exact (h x hx).2 hmem

theorem Tracks.removed (h : Tracks u) {before after : List Nat}
    (hlive : u.live = before ++ handle :: after) :
    Tracks ⟨(u.list.removeByIndex handle).1, before ++ after, handle :: u.stale⟩ := by
  have hholds := h.holds
  have hnodup := (nodup_cons.mp h.holds.circle.nodup).2
  rw [hlive] at hholds hnodup
  have hnot := (nodup_cons.mp (nodup_middle.mp hnodup)).1
  refine ⟨hholds.removeByIndex.2.1, fun x hx => ?_⟩
  rcases mem_cons.mp hx with rfl | hx
  · exact ⟨hholds.ne_reserved (by simp), hnot⟩
  refine ⟨(h.stale x hx).1, fun hmem => (h.stale x hx).2 ?_⟩
  rw [hlive]
  exact perm_middle.symm.subset (mem_cons_of_mem _ hmem)

theorem Tracks.live_split (h : Tracks u) (hx : handle ∈ u.live) :
    ∃ before after, u.live = before ++ handle :: after ∧ u.live.erase handle = before ++ after := by
  obtain ⟨before, after, hlive⟩ := append_of_mem hx
  have hnodup := (nodup_cons.mp h.holds.circle.nodup).2
  rw [hlive] at hnodup
  have hnot := (nodup_cons.mp (nodup_middle.mp hnodup)).1
  refine ⟨before, after, hlive, ?_⟩
  rw [hlive, erase_append_right _ fun hmem => hnot (mem_append_left _ hmem), erase_cons_head]

theorem Tracks.call (h : Tracks u) (hok : u.Current c) (hcall : u.call c = some u') :
    Tracks u' := by
  obtain ⟨freed, hsplit⟩ := h.holds.split
  cases c with
  | pushFront value =>
    rw [ListUsers.call] at hcall
    rcases Nat.lt_or_ge (u.live.length + 1) u.list.region.capacity with hroom | hfull
    · obtain ⟨l, idx, hpush, -, hholds, -⟩ := h.holds.pushFront value hroom
      rw [hpush] at hcall
      cases hcall
      exact ⟨hholds, stale_filter h.stale fun x hx => mem_cons.mp hx⟩
    · rw [SharedLinkedList.pushFront, hsplit.allocate_full _ hfull] at hcall
      cases hcall
      exact h
  | pushBack value =>
    rw [ListUsers.call] at hcall
    rcases Nat.lt_or_ge (u.live.length + 1) u.list.region.capacity with hroom | hfull
    · obtain ⟨l, idx, hpush, hholds⟩ := h.holds.pushBack value hroom
      rw [hpush] at hcall
      cases hcall
      exact ⟨hholds, stale_filter h.stale fun x hx => by simpa [or_comm] using hx⟩
    · rw [SharedLinkedList.pushBack, hsplit.allocate_full _ hfull] at hcall
      cases hcall
      exact h
  | popBack =>
    cases hcall
    rcases eq_nil_or_concat' u.live with hlive | ⟨before, x, hlive⟩
    · have hholds := h.holds
      rw [hlive] at hholds
      rw [hholds.popBack_empty, hlive]
      exact ⟨hholds, fun x hx => ⟨(h.stale x hx).1, not_mem_nil⟩⟩
    have hholds := h.holds
    have hremoved := h.removed hlive
    rw [append_nil] at hremoved
    rw [hlive] at hholds
    rw [hholds.popBack, hlive, dropLast_concat, getLast?_concat]
    exact hremoved
  | remove handle =>
    cases hcall
    rcases hok with hx | hreserved
    · obtain ⟨before, after, hlive, herase⟩ := h.live_split hx
      rw [h.holds.remove hx, herase, if_pos hx]
      exact h.removed hlive
    · have hnot : handle ∉ u.live := fun hx => h.holds.ne_reserved hx hreserved
      rw [SharedLinkedList.remove, if_pos hreserved, if_neg hnot, erase_of_not_mem hnot]
      exact h

/-- On the handles that the list has given out, `remove` does what it is documented to do
just where the node is still there; for a stale one it returns a value. -/
theorem remove_documented_iff {capacity : Nat} {l : SharedLinkedList T} {calls : List (ListCall T)}
    (hcreate : create capacity = some (.ok l)) (hok : EveryStep call Current ⟨l, [], []⟩ calls)
    (hrun : run call ⟨l, [], []⟩ calls = some u)
    (hhandle : handle ∈ u.live ∨ handle ∈ u.stale ∨ handle = nilIndex ∨ handle = headIndex) :
    (u.Documented handle ↔ handle ∉ u.stale) ∧
      (handle ∈ u.stale → (u.list.remove handle).2 = some (u.list.readValue handle)) := by
  have h : Tracks u := Lib.run_invariant (fun _ _ _ h hok hcall => h.call hok hcall)
    ⟨(create_holds hcreate).1, by simp⟩ hok hrun
  refine ⟨?_, fun hstale => by rw [SharedLinkedList.remove, if_neg (h.stale _ hstale).1]; rfl⟩
  unfold Documented
  rcases hhandle with hx | hx | hreserved
  · obtain ⟨before, after, hlive, herase⟩ := h.live_split hx
    rw [if_pos hx, h.holds.remove hx, herase]
    have hremoved := (hlive ▸ h.holds).removeByIndex
    exact iff_of_true ⟨congrArg some hremoved.1, hremoved.2.1⟩ fun hstale => (h.stale _ hstale).2 hx
  · rw [if_neg (h.stale _ hx).2, SharedLinkedList.remove, if_neg (h.stale _ hx).1]
    exact iff_of_false (fun heq => Option.some_ne_none _ (congrArg Prod.snd heq)) fun hnot => hnot hx
  · have hnot : handle ∉ u.live := fun hx => h.holds.ne_reserved hx hreserved
    rw [if_neg hnot]
    exact iff_of_true (if_pos hreserved) fun hstale => (h.stale _ hstale).1 hreserved

def slots4 : SharedLinkedList Nat :=
  ⟨⟨4, 1, nilIndex, [0, 0, 0, 0], [⟨0, 0, 0⟩, ⟨0, 0, 0⟩, ⟨0, 0, 0⟩, ⟨0, 0, 0⟩]⟩⟩

/-- A node is removed, and the other one is still there. -/
theorem remove_documented_iff_pushed :
    ∃ u, run call ⟨slots4, [], []⟩ [.pushFront 5, .pushBack 6, .remove 1] = some u ∧
      u.stale = [1] ∧ u.Documented 2 ∧ ¬u.Documented 1 := by
  have hcreate : create 4 = some (.ok slots4) := rfl
  have hok : EveryStep call Current ⟨slots4, [], []⟩ [.pushFront 5, .pushBack 6, .remove 1] := by
    decide
  refine ⟨_, rfl, by decide, ?_, fun h => ?_⟩
  · exact (remove_documented_iff hcreate hok rfl (.inl (by decide))).1.mpr (by decide)
  · exact (remove_documented_iff hcreate hok rfl (.inr (.inl (by decide)))).1.mp h (by decide)

/-- A second remove of one node returns its value again, puts a node removed since back into
the traversal and closes the free list into a cycle. -/
theorem stale_remove_relinks :
    ∃ u, run call ⟨slots4, [], []⟩ [.pushFront 5, .pushFront 6, .remove 2, .remove 1] = some u ∧
      u.stale = [1, 2] ∧ u.list.iterForward 4 = some [] ∧ u.list.region.freeCount = 2 ∧
      (u.list.remove 2).2 = some 6 ∧ (u.list.remove 2).1.iterForward 4 = some [5] ∧
      (u.list.remove 2).1.region.freeCount = 4 :=
  ⟨_, rfl, by decide, by decide, by decide, by decide, by decide, by decide⟩

/-- After any calls that remove only nodes in the list, both iterators end, give the value of
every such node once and mirror each other, and `len` counts them. -/
theorem iterators_mirror {capacity : Nat} {l : SharedLinkedList T} {calls : List (ListCall T)}
    (hcreate : create capacity = some (.ok l)) (hok : EveryStep call Current ⟨l, [], []⟩ calls)
    (hrun : run call ⟨l, [], []⟩ calls = some u) :
    ∃ values, u.live.map u.list.get = values.map some ∧ u.list.len = values.length ∧
      ∀ fuel, values.length ≤ fuel → u.list.iterForward fuel = some values ∧
        u.list.iterBackward fuel = some values.reverse := by
  have h : Tracks u := Lib.run_invariant (fun _ _ _ h hok hcall => h.call hok hcall)
    ⟨(create_holds hcreate).1, by simp⟩ hok hrun
  refine ⟨u.live.map u.list.readValue, ?_, ?_, fun fuel hfuel => ?_⟩
  · rw [map_map]
    exact map_congr_left fun x hx => h.holds.get hx
  · rw [h.holds.len_eq, length_map]
  · rw [length_map] at hfuel
    rw [h.holds.iterForward hfuel, h.holds.iterBackward hfuel, map_reverse]
    exact ⟨rfl, rfl⟩

theorem iterators_mirror_pushed :
    ∃ u, run call ⟨slots4, [], []⟩ [.pushFront 5, .pushBack 6] = some u ∧ ∃ values,
      u.list.iterForward 2 = some values ∧ u.list.iterBackward 2 = some values.reverse := by
  have hok : EveryStep call Current ⟨slots4, [], []⟩ [.pushFront 5, .pushBack 6] := by decide
  obtain ⟨values, -, hlen, hiter⟩ := iterators_mirror (rfl : create 4 = some (.ok slots4)) hok rfl
  exact ⟨_, rfl, values, hiter 2 (hlen ▸ by decide)⟩

end ListUsers
end SubEtha.Maps
