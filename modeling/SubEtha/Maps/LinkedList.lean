import SubEtha.Lib.Linked
import SubEtha.Maps.Region

namespace SubEtha.Maps
open Option List SubEtha.Lib

structure Node (T : Type) where
  value : T
  next : Nat
  prev : Nat
deriving Inhabited

def headIndex : Nat := 0

/-- A doubly linked list over the slots of a region, closed into a ring by a sentinel. -/
structure SharedLinkedList (T : Type) where
  region : SharedRegion (Node T)

variable {used freed : List Nat} {x fuel : Nat}

namespace SharedLinkedList

variable {T : Type} [Inhabited T]

def create (capacity : Nat) : Option (Except RegionError (SharedLinkedList T)) :=
  if 2 ≤ capacity then
    (SharedRegion.create capacity (default : Node T)).bind fun
      | .error e => some (.error e)
      | .ok region =>
        match region.allocate ⟨default, headIndex, headIndex⟩ with
        | (_, .error e) => some (.error e)
        | (region, .ok idx) => if idx = headIndex then some (.ok ⟨region⟩) else none
  else none

section
variable (l : SharedLinkedList T)

def node (idx : Nat) : Node T := l.region.slots.getD idx default

def readValue (idx : Nat) : T := (l.node idx).value

def readNext (idx : Nat) : Nat := (l.node idx).next

def readPrev (idx : Nat) : Nat := (l.node idx).prev

def modifyNode (idx : Nat) (f : Node T → Node T) : SharedLinkedList T :=
  ⟨{ l.region with slots := l.region.slots.modify idx f }⟩

def setNext (idx value : Nat) : SharedLinkedList T :=
  l.modifyNode idx fun n => { n with next := value }

def setPrev (idx value : Nat) : SharedLinkedList T :=
  l.modifyNode idx fun n => { n with prev := value }

def len (l : SharedLinkedList T) : Nat := l.region.len - 1

def pushFront (value : T) : SharedLinkedList T × Except RegionError Nat :=
  let oldFirst := l.readNext headIndex
  match l.region.allocate ⟨value, oldFirst, headIndex⟩ with
  | (region, .error e) => (⟨region⟩, .error e)
  | (region, .ok idx) =>
    let l : SharedLinkedList T := ⟨region⟩
    let l := if oldFirst ≠ headIndex then l.setPrev oldFirst idx else l.setPrev headIndex idx
    (l.setNext headIndex idx, .ok idx)

def pushBack (value : T) : SharedLinkedList T × Except RegionError Nat :=
  let oldLast := l.readPrev headIndex
  match l.region.allocate ⟨value, headIndex, oldLast⟩ with
  | (region, .error e) => (⟨region⟩, .error e)
  | (region, .ok idx) =>
    let l : SharedLinkedList T := ⟨region⟩
    let l := if oldLast ≠ headIndex then l.setNext oldLast idx else l.setNext headIndex idx
    (l.setPrev headIndex idx, .ok idx)

/-- Repoint the neighbours of a node at each other. -/
def unlink (prev next : Nat) : SharedLinkedList T :=
  let l :=
    if prev = headIndex then
      let l := l.setNext headIndex next
      if next = headIndex then l.setPrev headIndex headIndex else l
    else l.setNext prev next
  if next = headIndex then
    let l := l.setPrev headIndex prev
    if prev = headIndex then l.setNext headIndex headIndex else l
  else l.setPrev next prev

/-- Unlink a node and free its slot; a refused free keeps the slot out of use. -/
def removeByIndex (idx : Nat) : SharedLinkedList T × T :=
  let value := l.readValue idx
  let l := l.unlink (l.readPrev idx) (l.readNext idx)
  (⟨(l.region.free idx).1⟩, value)

def remove (handle : Nat) : SharedLinkedList T × Option T :=
  if handle = nilIndex ∨ handle = headIndex then (l, none)
  else
    let (l, value) := l.removeByIndex handle
    (l, some value)

def popBack : SharedLinkedList T × Option T :=
  let last := l.readPrev headIndex
  if last = headIndex then (l, none)
  else
    let (l, value) := l.removeByIndex last
    (l, some value)

def get (handle : Nat) : Option T :=
  if handle = nilIndex ∨ handle = headIndex then none else some (l.readValue handle)

/-- Collect the values from `cur` until the sentinel; `none` is a walk of more than `fuel` nodes
or one that leaves the slots. -/
def walk (l : SharedLinkedList T) (link : Node T → Nat) : Nat → Nat → Option (List T)
  | 0, cur => if cur = headIndex then some [] else none
  | fuel + 1, cur =>
    if cur = headIndex then some []
    else (l.region.slots[cur]?).bind fun n => (l.walk link fuel (link n)).map (n.value :: ·)

def iterForward (fuel : Nat) : Option (List T) :=
  l.walk Node.next fuel (l.readNext headIndex)

def iterBackward (fuel : Nat) : Option (List T) :=
  l.walk Node.prev fuel (l.readPrev headIndex)

end

/-- The ring behind the sentinel is `ids`, and the region has handed out exactly those slots. -/
structure Holds (l : SharedLinkedList T) (ids : List Nat) : Prop where
  split : ∃ freed, l.region.Split (headIndex :: ids) freed
  circle : Circle l.readNext l.readPrev headIndex ids

section
variable {l : SharedLinkedList T}

theorem node_modifyNode (hi : i < l.region.slots.length) (f : Node T → Node T) (a : Nat) :
    (l.modifyNode i f).node a = if a = i then f (l.node a) else l.node a := by
  simp only [node, modifyNode, getD_eq_getElem?_getD, getElem?_modify]
  by_cases ha : a = i
  · subst ha
    rw [getElem?_eq_getElem hi]
    simp
  · simp [ha, Ne.symm ha]

omit [Inhabited T] in
@[simp] theorem length_modifyNode (f : Node T → Node T) :
    (l.modifyNode i f).region.slots.length = l.region.slots.length := length_modify ..

omit [Inhabited T] in
@[simp] theorem length_setNext (v : Nat) :
    (l.setNext i v).region.slots.length = l.region.slots.length := length_modifyNode _

omit [Inhabited T] in
@[simp] theorem length_setPrev (v : Nat) :
    (l.setPrev i v).region.slots.length = l.region.slots.length := length_modifyNode _

theorem node_setNext (hi : i < l.region.slots.length) (v a : Nat) :
    (l.setNext i v).node a = { l.node a with next := if a = i then v else l.readNext a } := by
  rw [setNext, node_modifyNode hi]
  split <;> rfl

theorem node_setPrev (hi : i < l.region.slots.length) (v a : Nat) :
    (l.setPrev i v).node a = { l.node a with prev := if a = i then v else l.readPrev a } := by
  rw [setPrev, node_modifyNode hi]
  split <;> rfl

section
variable (hp : p < l.region.slots.length) (hq : q < l.region.slots.length) (v a : Nat)
include hp hq

theorem node_splice : ((l.setPrev q v).setNext p v).node a =
      ⟨l.readValue a, if a = p then v else l.readNext a, if a = q then v else l.readPrev a⟩ := by
  rw [node_setNext (by rwa [length_setPrev]), readNext, node_setPrev hq]
  rfl

end

omit [Inhabited T] in
theorem setPrev_setNext (l : SharedLinkedList T) (p q v v' : Nat) :
    (l.setNext p v).setPrev q v' = (l.setPrev q v').setNext p v := by
  unfold setPrev setNext modifyNode
  dsimp only
  congr 2
  refine ext_getElem? fun i => ?_
  simp only [getElem?_modify]
  cases l.region.slots[i]? with
  | none => rfl
  | some n => split <;> split <;> rfl

omit [Inhabited T] in
theorem split_setNext (h : l.region.Split used freed) :
    (l.setNext i v).region.Split used freed := h.of_set (length_modify ..)

omit [Inhabited T] in
theorem split_setPrev (h : l.region.Split used freed) :
    (l.setPrev i v).region.Split used freed := h.of_set (length_modify ..)

theorem node_unlink (hhead : headIndex < l.region.slots.length) (hp : p < l.region.slots.length)
    (hq : q < l.region.slots.length) (a : Nat) : (l.unlink p q).node a =
      ⟨l.readValue a, if a = p then q else l.readNext a, if a = q then p else l.readPrev a⟩ := by
  unfold unlink
  by_cases hph : p = headIndex <;> by_cases hqh : q = headIndex <;>
    simp [hph, hqh, node_setNext, node_setPrev, readNext, readPrev, readValue, hhead, hp, hq]
  exact ⟨absurd, absurd⟩

omit [Inhabited T] in
theorem split_unlink (h : l.region.Split used freed) : (l.unlink p q).region.Split used freed := by
  unfold unlink
  repeat' split
  all_goals repeat first
    | exact h
    | apply split_setNext
    | apply split_setPrev

omit [Inhabited T] in
@[simp] theorem capacity_unlink : (l.unlink p q).region.capacity = l.region.capacity := by
  unfold unlink
  repeat' split
  all_goals rfl

end

variable {l : SharedLinkedList T}

theorem Holds.lt_length (h : Holds l ids) (hi : i ∈ headIndex :: ids) :
    i < l.region.slots.length := by
  obtain ⟨freed, hsplit⟩ := h.split
  rw [hsplit.slots]
  exact hsplit.lt_capacity hi

theorem Holds.head_lt (h : Holds l ids) : headIndex < l.region.slots.length :=
  h.lt_length mem_cons_self

theorem Holds.len_eq (h : Holds l ids) : l.len = ids.length := by
  obtain ⟨freed, hsplit⟩ := h.split
  rw [len, hsplit.len_eq]
  rfl

/-- A removal takes the node out of the ring, frees its slot and reads no other value anew. -/
theorem Holds.removeByIndex {before after : List Nat} (h : Holds l (before ++ x :: after)) :
    (l.removeByIndex x).2 = l.readValue x ∧ Holds (l.removeByIndex x).1 (before ++ after) ∧
      (∀ a, (l.removeByIndex x).1.readValue a = l.readValue a) ∧
      (l.removeByIndex x).1.region.capacity = l.region.capacity := by
  have hx : x ∈ headIndex :: (before ++ x :: after) :=
    mem_cons_of_mem _ (mem_append_right _ mem_cons_self)
  have hprev := h.lt_length (h.circle.prev_mem hx)
  have hnext := h.lt_length (h.circle.next_mem hx)
  obtain ⟨freed, hsplit⟩ := h.split
  have hunlinked : (l.unlink (l.readPrev x) (l.readNext x)).region.Split
      (headIndex :: before ++ x :: after) freed := split_unlink hsplit
  obtain ⟨r, hfree, hfreed, hslots, hcap⟩ := hunlinked.free
  have hresult : l.removeByIndex x = (⟨r⟩, l.readValue x) := by
    rw [SharedLinkedList.removeByIndex, hfree]
  have hnode : ∀ a, (⟨r⟩ : SharedLinkedList T).node a =
      ⟨l.readValue a, if a = l.readPrev x then l.readNext x else l.readNext a,
        if a = l.readNext x then l.readPrev x else l.readPrev a⟩ := fun a => by
    rw [node, hslots]
    exact node_unlink h.head_lt hprev hnext a
  rw [hresult]
  exact ⟨rfl, ⟨⟨_, hfreed⟩, h.circle.remove (fun a => congrArg Node.next (hnode a))
    fun a => congrArg Node.prev (hnode a)⟩, fun a => (congrArg Node.value (hnode a) :),
    hcap.trans capacity_unlink⟩

section
variable (h : Holds l ids) (value : T) (hroom : ids.length + 1 < l.region.capacity)
include h hroom

/-- While a slot is left, a node is written to one that no node held and linked in between two. -/
theorem Holds.splice (hp : p ∈ headIndex :: ids) (hq : q ∈ headIndex :: ids) :
    ∃ r idx freed, l.region.allocate ⟨value, q, p⟩ = (r, .ok idx) ∧ idx ∉ headIndex :: ids ∧
      r.Split (headIndex :: idx :: ids) freed ∧ r.capacity = l.region.capacity ∧
      ∀ a, (((⟨r⟩ : SharedLinkedList T).setPrev q idx).setNext p idx).node a =
        ⟨if a = idx then value else l.readValue a,
          if a = p then idx else if a = idx then q else l.readNext a,
          if a = q then idx else if a = idx then p else l.readPrev a⟩ := by
  obtain ⟨freed, hsplit⟩ := h.split
  obtain ⟨r, idx, freed', halloc, hfresh, hlt, hsplit', hslots, hcap⟩ :=
    hsplit.allocate ⟨value, q, p⟩ hroom
  have hlen : r.slots.length = l.region.slots.length := by rw [hslots, length_set]
  have hnode : ∀ a, (⟨r⟩ : SharedLinkedList T).node a =
      if a = idx then ⟨value, q, p⟩ else l.node a := by
    intro a
    rw [node, hslots, getD_eq_getElem?_getD, getElem?_set]
    by_cases ha : a = idx
    · rw [if_pos ha.symm, if_pos ha, if_pos (hsplit.slots ▸ ha ▸ hlt)]
      rfl
    · rw [if_neg (Ne.symm ha), if_neg ha]
      exact (getD_eq_getElem?_getD ..).symm
  refine ⟨r, idx, freed', halloc, hfresh, hsplit'.perm (List.Perm.swap _ _ _), hcap, fun a => ?_⟩
  rw [node_splice (hlen ▸ h.lt_length hp) (hlen ▸ h.lt_length hq), readValue, readNext, readPrev,
    hnode]
  split <;> rfl

/-- While a slot is left, a push links a slot no node held in behind the sentinel. -/
theorem Holds.pushFront :
    ∃ l' idx, l.pushFront value = (l', .ok idx) ∧ idx ∉ headIndex :: ids ∧ Holds l' (idx :: ids) ∧
      l'.readValue idx = value ∧ (∀ a, a ≠ idx → l'.readValue a = l.readValue a) ∧
      l'.region.capacity = l.region.capacity := by
  obtain ⟨r, idx, freed, halloc, hfresh, hsplit, hcap, hnode⟩ :=
    h.splice value hroom mem_cons_self (h.circle.next_mem mem_cons_self)
  refine ⟨_, idx, ?_, hfresh, ⟨⟨freed, split_setNext (split_setPrev hsplit)⟩,
    h.circle.push hfresh (fun a => congrArg Node.next (hnode a)) fun a =>
      congrArg Node.prev (hnode a)⟩, ?_, fun a ha => ?_, hcap⟩
  · rw [SharedLinkedList.pushFront, halloc]
    by_cases hempty : l.readNext headIndex = headIndex <;> simp [hempty]
  · rw [readValue, hnode]
    exact if_pos rfl
  · rw [readValue, hnode]
    exact if_neg ha

theorem Holds.pushBack : ∃ l' idx, l.pushBack value = (l', .ok idx) ∧ Holds l' (ids ++ [idx]) := by
  obtain ⟨r, idx, freed, halloc, hfresh, hsplit, -, hnode⟩ :=
    h.splice value hroom (h.circle.prev_mem mem_cons_self) mem_cons_self
  have hperm : (headIndex :: idx :: ids).Perm (headIndex :: (ids ++ [idx])) :=
    (perm_append_singleton idx ids).symm.cons _
  have hback := (h.circle.reverse.push (by simpa using hfresh)
    (fun a => congrArg Node.prev (hnode a)) fun a => congrArg Node.next (hnode a)).reverse
  rw [reverse_cons, reverse_reverse] at hback
  refine ⟨_, idx, ?_, ⟨freed, split_setNext (split_setPrev (hsplit.perm hperm))⟩, hback⟩
  rw [SharedLinkedList.pushBack, halloc]
  by_cases hempty : l.readPrev headIndex = headIndex <;> simp [hempty, setPrev_setNext]

end

theorem Holds.popBack_empty (h : Holds l []) : l.popBack = (l, none) := if_pos h.circle.prev_head

theorem Holds.popBack (h : Holds l (ids ++ [x])) :
    l.popBack = ((l.removeByIndex x).1, some (l.readValue x)) := by
  have hlast : l.readPrev headIndex = x := by
    rw [h.circle.prev_head, reverse_append]
    rfl
  have hne : x ≠ headIndex := fun heq =>
    (nodup_cons.mp h.circle.nodup).1 (heq ▸ mem_append_right _ mem_cons_self)
  rw [← h.removeByIndex.1, SharedLinkedList.popBack, hlast, if_neg hne]

section
variable (h : Holds l ids) (hx : x ∈ ids)
include h hx

theorem Holds.ne_reserved : ¬(x = nilIndex ∨ x = headIndex) := by
  obtain ⟨freed, hsplit⟩ := h.split
  rintro (rfl | rfl)
  · exact lt_asymm hsplit.bounded (hsplit.lt_capacity (mem_cons_of_mem _ hx))
  · exact (nodup_cons.mp h.circle.nodup).1 hx

theorem Holds.remove : l.remove x = ((l.removeByIndex x).1, some (l.removeByIndex x).2) :=
  if_neg (h.ne_reserved hx)

theorem Holds.get : l.get x = some (l.readValue x) := if_neg (h.ne_reserved hx)

end

/-- Following one kind of link around the ring collects the values in its order. -/
theorem walk_linked (hlen : ids.length ≤ fuel)
    (hlinked : Linked (fun i => link (l.node i)) back (cur :: (ids ++ [headIndex])))
    (hnot : headIndex ∉ ids) (hin : ∀ i ∈ ids, i < l.region.slots.length) :
    l.walk link fuel (link (l.node cur)) = some (ids.map l.readValue) := by
  induction ids generalizing cur fuel with
  | nil =>
    have hend : link (l.node cur) = headIndex := (isChain_cons_cons.mp hlinked).1.1
    rw [hend]
    cases fuel <;> exact if_pos rfl
  | cons i ids ih =>
    obtain ⟨⟨hcur, -⟩, hrest⟩ := isChain_cons_cons.mp hlinked
    obtain ⟨hi, hids⟩ := forall_mem_cons.mp hin
    have hne : i ≠ headIndex := fun heq => hnot (heq ▸ mem_cons_self)
    have hnot : headIndex ∉ ids := fun hmem => hnot (mem_cons_of_mem _ hmem)
    have hcur : link (l.node cur) = i := hcur
    have hslot : l.region.slots[i]? = some (l.node i) := by
      rw [node, getD_eq_getElem?_getD, getElem?_eq_getElem hi]
      rfl
    cases fuel with
    | zero => cases hlen
    | succ fuel =>
      rw [hcur, walk, if_neg hne, hslot, bind_some, ih (Nat.le_of_succ_le_succ hlen) hrest hnot hids]
      rfl

theorem Holds.iterForward (h : Holds l ids) (hfuel : ids.length ≤ fuel) :
    l.iterForward fuel = some (ids.map l.readValue) :=
  walk_linked hfuel h.circle.linked (nodup_cons.mp h.circle.nodup).1 fun _ hi =>
    h.lt_length (mem_cons_of_mem _ hi)

theorem Holds.iterBackward (h : Holds l ids) (hfuel : ids.length ≤ fuel) :
    l.iterBackward fuel = some (ids.reverse.map l.readValue) :=
  walk_linked (List.length_reverse.trans_le hfuel) h.circle.reverse.linked
    (nodup_cons.mp h.circle.reverse.nodup).1 fun _ hi =>
    h.lt_length (mem_cons_of_mem _ (mem_reverse.mp hi))

theorem create_holds (h : create capacity = some (.ok l)) :
    Holds l [] ∧ l.region.capacity = capacity := by
  unfold create at h
  split at h
  · obtain ⟨made, hregion, h⟩ := bind_eq_some_iff.mp h
    cases made with
    | error e => cases h
    | ok region =>
      obtain ⟨hsplit, hcap⟩ := SharedRegion.create_split hregion
      obtain ⟨r, idx, freed, halloc, -, hlt, hsplit', hslots, hcap'⟩ :=
        hsplit.allocate ⟨default, headIndex, headIndex⟩ (by simp only [length_nil]; omega)
      dsimp only at h
      rw [halloc] at h
      dsimp only at h
      split at h <;> cases h
      have hhead : (⟨r⟩ : SharedLinkedList T).node headIndex = ⟨default, headIndex, headIndex⟩ := by
        have hidx : idx = headIndex := ‹_›
        rw [node, hslots, getD_eq_getElem?_getD, hidx,
          getElem?_set_self (hsplit.slots ▸ hidx ▸ hlt)]
        rfl
      subst idx
      exact ⟨⟨⟨freed, hsplit'⟩, .empty (by rw [readNext, hhead]) (by rw [readPrev, hhead])⟩,
        hcap'.trans hcap⟩
  · cases h

end SharedLinkedList
end SubEtha.Maps
