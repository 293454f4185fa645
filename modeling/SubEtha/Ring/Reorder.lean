import SubEtha.Block.Encoder
import SubEtha.Ring.Ordering

namespace SubEtha.Ring.Reorder
open List

/-- A buffered item; its payload is cut to what a stamped slot holds. -/
structure Entry where
  stamp : Nat
  seq : Nat
  payload : List Byte

/-- The order of the heap: by stamp, then by arrival. -/
def Entry.Before (a b : Entry) : Prop := a.stamp < b.stamp ∨ a.stamp = b.stamp ∧ a.seq < b.seq
deriving Decidable

/-- The heap is the list of its entries in order: pushing inserts, popping takes the head. -/
structure ReorderBuffer where
  heap : List Entry
  window : Nat
  cap : Nat
  lastEmitted : Nat
  haveEmitted : Bool
  nextSeq : Nat
  corrections : Nat

namespace ReorderBuffer

def withWindow (floor cap : Nat) : ReorderBuffer := ⟨[], floor, max cap floor, 0, false, 0, 0⟩

variable (b : ReorderBuffer)

def widenTo (minWindow : Nat) : ReorderBuffer :=
  if b.window < minWindow then { b with window := minWindow, cap := max b.cap minWindow } else b

def heapPush (e : Entry) : List Entry → List Entry
  | [] => [e]
  | x :: xs => if e.Before x then e :: x :: xs else x :: heapPush e xs

def push (stamp : Nat) (payload : List Byte) : ReorderBuffer :=
  { b with
    heap := heapPush ⟨stamp, b.nextSeq, payload.take stampedPayload⟩ b.heap
    nextSeq := b.nextSeq + 1 }

/-- The stamp and the bytes copied into an `out` of `room` bytes. -/
def release (room : Nat) : Option ((Nat × List Byte) × ReorderBuffer) :=
  match b.heap with
  | [] => none
  | entry :: heap =>
    let late := b.haveEmitted && decide (entry.stamp < b.lastEmitted)
    some ((entry.stamp, entry.payload.take room),
      { b with
        heap
        corrections := if late then b.corrections + 1 else b.corrections
        window := if late then max (min (min (2 * b.window) (2 ^ 64 - 1)) b.cap) 1 else b.window
        lastEmitted := entry.stamp
        haveEmitted := true })

def tryTake (room : Nat) : Option ((Nat × List Byte) × ReorderBuffer) :=
  if b.window < b.heap.length then b.release room else none

def flushOne (room : Nat) : Option ((Nat × List Byte) × ReorderBuffer) :=
  b.release room

end ReorderBuffer

inductive ReorderCall
  | push (stamp : Nat) (payload : List Byte)
  | tryTake (room : Nat)
  | widenTo (minWindow : Nat)

/-- A buffer with what it has released: the room of each `out`, the stamp, the bytes. -/
structure Reordering where
  buf : ReorderBuffer
  out : List (Nat × Nat × List Byte)

namespace Reordering

def start (floor cap : Nat) : Reordering := ⟨.withWindow floor cap, []⟩

variable (s : Reordering)

def took (room : Nat) : Option ((Nat × List Byte) × ReorderBuffer) → Reordering
  | none => s
  | some (item, buf) => ⟨buf, s.out ++ [(room, item)]⟩

def step : ReorderCall → Reordering
  | .push stamp payload => { s with buf := s.buf.push stamp payload }
  | .tryTake room => s.took room (s.buf.tryTake room)
  | .widenTo minWindow => { s with buf := s.buf.widenTo minWindow }

def run (calls : List ReorderCall) : Reordering := calls.foldl step s

def flush (rooms : List Nat) : Reordering :=
  rooms.foldl (fun s room => s.took room (s.buf.flushOne room)) s

end Reordering

def pushes (calls : List ReorderCall) : List (Nat × List Byte) :=
  calls.filterMap fun
    | .push stamp payload => some (stamp, payload)
    | _ => none

/-- The items numbered in arrival order, each cut to a stamped slot. -/
def arrivals (items : List (Nat × List Byte)) : List Entry :=
  items.zipIdx.map fun p => ⟨p.1.1, p.2, p.1.2.take stampedPayload⟩

/-- The entries went out one by one, as far as each `out` had room. -/
def Copied : List Entry → List (Nat × Nat × List Byte) → Prop :=
  Forall₂ fun e r => r.2 = (e.stamp, e.payload.take r.1)

section
variable {items : List (Nat × List Byte)} {done : List Entry} {s : Reordering} {w room : Nat}

theorem heapPush_perm (e : Entry) (l : List Entry) : ReorderBuffer.heapPush e l ~ e :: l := by
  induction l with
  | nil => rfl
  | cons x xs ih =>
    rw [ReorderBuffer.heapPush]
    split
    · rfl
    · exact (ih.cons x).trans (.swap e x xs)

theorem heapPush_sorted (h : l.Pairwise Entry.Before) (hlast : ∀ x ∈ l, x.seq < e.seq) :
    (ReorderBuffer.heapPush e l).Pairwise Entry.Before := by
  induction l with
  | nil => exact pairwise_singleton _ _
  | cons x xs ih =>
    obtain ⟨hx, hxs⟩ := pairwise_cons.mp h
    have hseq := hlast x mem_cons_self
    rw [ReorderBuffer.heapPush]
    split
    · rename_i hlt
      refine pairwise_cons.mpr ⟨fun y hy => ?_, h⟩
      rcases mem_cons.mp hy with rfl | hy
      · exact hlt
      have := hx y hy
      simp only [Entry.Before] at hlt this ⊢
      omega
    · rename_i hge
      refine pairwise_cons.mpr ⟨fun y hy => ?_, ih hxs fun y hy => hlast y (mem_cons_of_mem _ hy)⟩
      rcases mem_cons.mp ((heapPush_perm e xs).mem_iff.mp hy) with rfl | hy
      · simp only [Entry.Before] at hge ⊢
        omega
      · exact hx y hy

/-- `done` has been released in order and the heap holds the rest of what was pushed. -/
structure Ordered (items : List (Nat × List Byte)) (done : List Entry) (s : Reordering) : Prop where
  sorted : (done ++ s.buf.heap).Pairwise Entry.Before
  perm : done ++ s.buf.heap ~ arrivals items
  seq : s.buf.nextSeq = items.length
  last : s.buf.haveEmitted = true → ∃ r ∈ done, r.stamp = s.buf.lastEmitted
  corrections : s.buf.corrections = 0
  out : Copied done s.out

theorem Ordered.release (h : Ordered items done s) (hheap : s.buf.heap = entry :: heap)
    (room : Nat) : (s.took room (s.buf.release room)).buf.heap = heap ∧
      (s.took room (s.buf.release room)).buf.window = s.buf.window ∧
      Ordered items (done ++ [entry]) (s.took room (s.buf.release room)) := by
  have hmove : (done ++ [entry]) ++ heap = done ++ s.buf.heap := by simp [hheap]
  -- the entry is not before the last one released
  have hlate : (s.buf.haveEmitted && decide (entry.stamp < s.buf.lastEmitted)) = false := by
    by_contra hno
    simp only [Bool.not_eq_false, Bool.and_eq_true, decide_eq_true_eq] at hno
    obtain ⟨r, hr, hstamp⟩ := h.last hno.1
    have := (pairwise_append.mp h.sorted).2.2 r hr entry (by simp [hheap])
    simp only [Entry.Before] at this
    omega
  have hrun : s.took room (s.buf.release room) =
      ⟨{ s.buf with heap, lastEmitted := entry.stamp, haveEmitted := true },
        s.out ++ [(room, entry.stamp, entry.payload.take room)]⟩ := by
    simp [ReorderBuffer.release, Reordering.took, hheap, hlate]
  rw [hrun]
  exact ⟨rfl, rfl, hmove ▸ h.sorted, hmove ▸ h.perm, h.seq, fun _ => ⟨entry, by simp, rfl⟩,
    h.corrections, rel_append h.out (.cons rfl .nil)⟩

theorem Ordered.flush (h : Ordered items done s) (rooms : List Nat)
    (hrooms : s.buf.heap.length ≤ rooms.length) :
    ∃ done', Ordered items done' (s.flush rooms) ∧ (s.flush rooms).buf.heap = [] := by
  induction rooms generalizing s done with
  | nil => exact ⟨done, h, length_eq_zero_iff.mp (Nat.le_zero.mp hrooms)⟩
  | cons room rooms ih =>
    cases hheap : s.buf.heap with
    | nil =>
      have hrun : s.flush (room :: rooms) = s.flush rooms := by
        simp [Reordering.flush, ReorderBuffer.flushOne, ReorderBuffer.release, Reordering.took, hheap]
      rw [hrun]
      exact ih h (by simp [hheap])
    | cons entry heap =>
      obtain ⟨hrest, -, h'⟩ := h.release hheap room
      refine ih h' ?_
      rw [hheap] at hrooms
      exact (congrArg List.length hrest).trans_le (Nat.le_of_succ_le_succ hrooms)

theorem arrivals_append (items : List (Nat × List Byte)) (stamp : Nat) (payload : List Byte) :
    arrivals (items ++ [(stamp, payload)]) =
      arrivals items ++ [⟨stamp, items.length, payload.take stampedPayload⟩] := by
  simp [arrivals, zipIdx_append]

theorem countP_arrivals (items : List (Nat × List Byte)) (p : Nat → Bool) :
    (arrivals items).countP (p ·.stamp) = items.countP (p ·.1) := by
  conv_rhs => rw [← zipIdx_map_fst 0 items]
  rw [arrivals, countP_map, countP_map]
  rfl

/-- More than `w` items pushed so far are no earlier than any released one. -/
structure Deep (w : Nat) (done : List Entry) (s : Reordering) : Prop where
  window : w ≤ s.buf.window
  count : ∀ r ∈ done, w < (done ++ s.buf.heap).countP (r.stamp ≤ ·.stamp)

theorem Ordered.push (h : Ordered items done s) (hdeep : Deep w done s)
    (hlate : items.countP (stamp < ·.1) ≤ w) :
    Ordered (items ++ [(stamp, payload)]) done (s.step (.push stamp payload)) ∧
      Deep w done (s.step (.push stamp payload)) := by
  have hperm := heapPush_perm ⟨stamp, s.buf.nextSeq, payload.take stampedPayload⟩ s.buf.heap
  have hseq : ∀ r ∈ done ++ s.buf.heap, r.seq < s.buf.nextSeq := by
    intro r hr
    obtain ⟨⟨p, i⟩, hp, rfl⟩ := List.mem_map.mp (h.perm.mem_iff.mp hr)
    rw [h.seq]
    exact (mem_zipIdx' hp).1
  have hstamp : ∀ r ∈ done, r.stamp ≤ stamp := by
    intro r hr
    by_contra hlt
    have hmore := (hdeep.count r hr).trans_le (countP_mono_left (q := (stamp < ·.stamp))
      fun e _ he => by simp only [decide_eq_true_eq] at he ⊢; omega)
    rw [h.perm.countP_eq, countP_arrivals items (stamp < ·)] at hmore
    omega
  obtain ⟨hdone, hheap, hcross⟩ := pairwise_append.mp h.sorted
  refine ⟨⟨pairwise_append.mpr ⟨hdone, heapPush_sorted hheap fun x hx =>
    hseq x (mem_append_right _ hx), fun r hr x hx => ?_⟩, ?_, ?_, h.last, h.corrections, h.out⟩,
    hdeep.window, fun r hr => ?_⟩
  · rcases mem_cons.mp (hperm.mem_iff.mp hx) with rfl | hx
    · have := hseq r (mem_append_left _ hr)
      have := hstamp r hr
      simp only [Entry.Before]
      omega
    · exact hcross r hr x hx
  · rw [arrivals_append, ← h.seq]
    refine (hperm.append_left done).trans (perm_middle.trans ?_)
    exact (h.perm.cons _).trans (perm_append_singleton _ _).symm
  · simp [Reordering.step, ReorderBuffer.push, h.seq]
  · refine (hdeep.count r hr).trans_le ?_
    have := (hperm.append_left done).countP_eq (r.stamp ≤ ·.stamp)
    simp only [Reordering.step, ReorderBuffer.push, this, countP_append, countP_cons]
    omega

theorem Ordered.tryTake (h : Ordered items done s) (hdeep : Deep w done s) (room : Nat) :
    ∃ done', Ordered items done' (s.step (.tryTake room)) ∧ Deep w done' (s.step (.tryTake room)) := by
  rw [Reordering.step, ReorderBuffer.tryTake]
  split
  · rename_i hfull
    cases hheap : s.buf.heap with
    | nil => simp [hheap] at hfull
    | cons entry heap =>
      obtain ⟨hrest, hwindow, h'⟩ := h.release hheap room
      refine ⟨done ++ [entry], h', hwindow ▸ hdeep.window, fun r hr => ?_⟩
      rw [hrest, append_assoc, singleton_append, ← hheap]
      rcases mem_append.mp hr with hr | hr
      · exact hdeep.count r hr
      -- the whole heap, longer than the window, is no earlier than its head
      rw [mem_singleton.mp hr]
      have hall : s.buf.heap.countP (entry.stamp ≤ ·.stamp) = s.buf.heap.length := by
        refine countP_eq_length.mpr fun x hx => decide_eq_true ?_
        rw [hheap] at hx
        rcases mem_cons.mp hx with rfl | hx
        · exact le_rfl
        have := (pairwise_cons.mp (hheap ▸ (pairwise_append.mp h.sorted).2.1)).1 x hx
        simp only [Entry.Before] at this
        omega
      have := hdeep.window
      rw [countP_append, hall]
      omega
  · exact ⟨done, h, hdeep⟩

/-- As long as no item comes after more than `w` items of larger stamp, the calls keep
the order. -/
theorem run_ordered (calls : List ReorderCall)
    (hlate : ∀ pre p post, pushes calls = pre ++ p :: post → pre.countP (p.1 < ·.1) ≤ w) :
    ∃ done, Ordered (pushes calls) done ((Reordering.start w c).run calls) ∧
      Deep w done ((Reordering.start w c).run calls) := by
  induction calls using reverseRecOn with
  | nil => exact ⟨[], ⟨.nil, .refl _, rfl, nofun, rfl, .nil⟩, le_rfl, nofun⟩
  | append_singleton calls call ih =>
    have hsplit : pushes (calls ++ [call]) = pushes calls ++ pushes [call] := filterMap_append
    rw [hsplit] at hlate
    obtain ⟨done, h, hdeep⟩ := ih fun pre p post hp =>
      hlate pre p (post ++ pushes [call]) (by rw [hp, append_assoc, cons_append])
    have hrun : (Reordering.start w c).run (calls ++ [call]) =
        ((Reordering.start w c).run calls).step call := foldl_concat ..
    rw [hsplit, hrun]
    cases call with
    | push stamp payload => exact ⟨done, h.push hdeep (hlate _ (stamp, payload) [] rfl)⟩
    | tryTake room =>
      obtain ⟨done', h'⟩ := h.tryTake hdeep room
      exact ⟨done', by simpa [pushes] using h'⟩
    | widenTo minWindow =>
      refine ⟨done, ?_⟩
      simp only [Reordering.step, ReorderBuffer.widenTo, pushes, filterMap_cons, filterMap_nil,
        append_nil]
      split
      · exact ⟨{ h with }, hdeep.window.trans (le_of_lt ‹_›), hdeep.count⟩
      · exact ⟨h, hdeep⟩

end

/-- If no item is pushed after more than `w` items of larger stamp, a buffer of window
`w`, flushed at the end, releases the items by stamp and then by arrival, each once,
with the bytes that fit a stamped slot and the caller's `out`, and never corrects. -/
theorem reorder_releases_sorted {w cap : Nat} {calls : List ReorderCall} {rooms : List Nat}
    (hlate : ∀ p ∈ (pushes calls).zipIdx, ((pushes calls).take p.2).countP (p.1.1 < ·.1) ≤ w)
    (hrooms : ((Reordering.start w cap).run calls).buf.heap.length ≤ rooms.length) :
    (((Reordering.start w cap).run calls).flush rooms).buf.heap = [] ∧
      (((Reordering.start w cap).run calls).flush rooms).buf.corrections = 0 ∧
      ∃ sorted, sorted ~ arrivals (pushes calls) ∧ sorted.Pairwise Entry.Before ∧
        Copied sorted (((Reordering.start w cap).run calls).flush rooms).out := by
  obtain ⟨done, h, -⟩ := run_ordered (w := w) (c := cap) calls fun pre p post hp => by
    simpa [hp] using hlate (p, pre.length) (mem_zipIdx_iff_getElem?.mpr (by simp [hp]))
  obtain ⟨done, h, hempty⟩ := h.flush rooms hrooms
  have hsorted := h.sorted
  have hperm := h.perm
  rw [hempty, append_nil] at hsorted hperm
  exact ⟨hempty, h.corrections, done, hperm, hsorted, h.out⟩

theorem reorder_releases_sorted_swapped :
    (((Reordering.start 1 8).run [.push 2 [byte 2], .push 1 [byte 1], .tryTake 8,
      .push 3 [byte 3]]).flush [8, 0]).buf.corrections = 0 :=
  (reorder_releases_sorted (by decide) (by decide)).2.1

/-- A payload longer than a stamped slot does not come out whole. -/
theorem long_payload_cut :
    ((Reordering.start 0 0).run [.push 1 (replicate 57 (byte 7)), .tryTake 64]).out =
      [(64, 1, replicate 56 (byte 7))] := by decide

end SubEtha.Ring.Reorder
