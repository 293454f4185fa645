import Mathlib.Data.List.Perm.Basic
import SubEtha.Lib.Runs
import SubEtha.Wire

namespace SubEtha.Wire
open List SubEtha.Lib

/-- One `recv_frame` call: the room in `out`, and the frames `poll_and_consume` hands over or its
error. -/
structure Poll where
  room : Nat
  handed : Option (List (List Byte))

/-- What `recv_frame` copies out, `none` where it fails: the first frame, while all of them go back
to the fill ring. An empty result is `Ok(0)`, the timeout. -/
def recvFrame (p : Poll) : Option (List Byte) :=
  p.handed.map fun frames => (frames.headD []).take p.room

def received (calls : List Poll) : List (List Byte) :=
  calls.flatMap fun p => ((recvFrame p).filter (· ≠ [])).toList

def handedOver (calls : List Poll) : List (List Byte) := calls.flatMap fun p => p.handed.getD []

/-- The poll hands over at most one frame, which is not empty and fits the buffer. -/
def Poll.Single (p : Poll) : Prop :=
  (p.handed.getD []).length ≤ 1 ∧ ∀ frame ∈ p.handed.getD [], frame ≠ [] ∧ frame.length ≤ p.room

theorem recvFrame_length_le (p : Poll) :
    ((recvFrame p).filter (· ≠ [])).toList.length ≤ (p.handed.getD []).length := by
  rcases p with ⟨room, _ | _ | ⟨frame, rest⟩⟩
  · simp [recvFrame]
  · simp [recvFrame]
  · exact (Option.length_toList_le).trans (Nat.le_add_left ..)

theorem recvFrame_eq_iff (p : Poll) :
    ((recvFrame p).filter (· ≠ [])).toList = p.handed.getD [] ↔ p.Single := by
  rcases p with ⟨room, _ | _ | ⟨frame, _ | ⟨second, rest⟩⟩⟩
  · simp [recvFrame, Poll.Single]
  · simp [recvFrame, Poll.Single]
  · by_cases hcut : frame.take room = []
    · simp only [recvFrame, Poll.Single, Option.map_some, headD_cons, hcut]
      rcases take_eq_nil_iff.mp hcut with rfl | rfl <;> simp
    · have hne : frame ≠ [] := fun h => hcut (by rw [h, take_nil])
      simp [recvFrame, Poll.Single, hne, take_eq_self_iff]
  · refine iff_of_false (fun h => ?_) fun h => absurd h.1 (by simp)
    have hle := (congrArg length h).symm.trans_le Option.length_toList_le
    simp at hle

theorem received_length_le (calls : List Poll) :
    (received calls).length ≤ (handedOver calls).length := by
  induction calls with
  | nil => exact le_rfl
  | cons p calls ih =>
    have hle := recvFrame_length_le p
    rw [received, handedOver, flatMap_cons, flatMap_cons, length_append, length_append]
    exact Nat.add_le_add hle ih

/-- Every frame handed over is returned, in order, exactly when each poll hands over at most one,
which fits the caller's buffer. -/
theorem received_all_iff (calls : List Poll) :
    received calls = handedOver calls ↔ ∀ p ∈ calls, p.Single := by
  induction calls with
  | nil => exact ⟨fun _ => forall_mem_nil _, fun _ => rfl⟩
  | cons p calls ih =>
    rw [forall_mem_cons, ← ih, ← recvFrame_eq_iff, received, handedOver, flatMap_cons, flatMap_cons]
    constructor
    · intro h
      have hlen := congrArg length h
      have hle := received_length_le calls
      have hhead := recvFrame_length_le p
      rw [length_append, length_append] at hlen
      unfold received handedOver at hle
      exact append_inj h (by omega)
    · rintro ⟨hhead, hrest⟩
      rw [hhead]
      exact congrArg _ hrest

/-- Two frames in one poll: the second is recycled unread. -/
theorem second_frame_lost : received [⟨2048, some [[byte 1], [byte 2]]⟩, ⟨2048, some []⟩] = [[byte 1]] ∧
    handedOver [⟨2048, some [[byte 1], [byte 2]]⟩, ⟨2048, some []⟩] = [[byte 1], [byte 2]] := by
  decide

def txFrames : Nat := 16

/-- What a frame of the default `UmemConfig` holds: 4096 bytes less the headroom of XDP. -/
def frameRoom : Nat := 4096 - 256

/-- The transmit side: the descriptors in the free pool and those in the kernel's rings. -/
structure TxSide where
  txFree : List Nat
  inFlight : List Nat

/-- One round of waiting for a completion: whether the wake-up fails, and which descriptors the
kernel is done with. -/
structure Spin where
  wakeupFails : Bool
  done : Nat → Bool

/-- One `send_frame` call: the length of the data, and the outcomes of the kernel calls, those of
the wait by its rounds. -/
structure Send where
  len : Nat
  done : Nat → Bool
  spins : Nat → Spin
  produced : Bool
  wakeupFails : Bool

namespace TxSide

variable (s : TxSide)

def bind : TxSide := ⟨range txFrames, []⟩

def reapTx (done : Nat → Bool) : TxSide :=
  { s with txFree := s.txFree ++ s.inFlight.filter done, inFlight := s.inFlight.filter (!done ·) }

/-- The wait for a free frame; `false` where it gives up, on a failed wake-up or at the last of
the spins. -/
def awaitFree : Nat → (Nat → Spin) → TxSide → TxSide × Bool
  | left, spins, s =>
    if s.txFree ≠ [] then (s, true)
    else if (spins 0).wakeupFails then (s, false)
    else
      match left with
      | 0 => (s.reapTx (spins 0).done, false)
      | left + 1 => awaitFree left (fun n => spins (n + 1)) (s.reapTx (spins 0).done)

/-- The write and the submission; a descriptor popped from the pool is lost where an error
returns first. -/
def submit (e : Send) : TxSide :=
  match s.txFree.getLast? with
  | none => s
  | some desc =>
    if frameRoom < e.len then { s with txFree := s.txFree.dropLast }
    else if e.produced then
      { s with txFree := s.txFree.dropLast, inFlight := s.inFlight ++ [desc] }
    else if e.wakeupFails then { s with txFree := s.txFree.dropLast }
    else s

def sendFrame (e : Send) : TxSide :=
  match awaitFree 1000000 e.spins (s.reapTx e.done) with
  | (t, false) => t
  | (t, true) => t.submit e

def next (e : Send) : Option TxSide := some (s.sendFrame e)

def Done (done : Nat → Bool) : Prop := ∃ desc ∈ s.inFlight, done desc = true

/-- A descriptor is free, completed at the first reap, or completed in a round of the wait that no
failed wake-up cuts short. -/
def Obtains (e : Send) : Prop := s.txFree ≠ [] ∨ s.Done e.done ∨
  ∃ n < 1000000, (∀ m ≤ n, (e.spins m).wakeupFails = false) ∧ s.Done (e.spins n).done

/-- A call that gets a descriptor fits its data in the frame, and its submission does not fail with
nothing produced. -/
def Keeps (e : Send) : Prop :=
  s.Obtains e → e.len ≤ frameRoom ∧ (e.wakeupFails = true → e.produced = true)

def descs : List Nat := s.txFree ++ s.inFlight

theorem descs_reapTx (done : Nat → Bool) : (s.reapTx done).descs.Perm s.descs := by
  unfold descs reapTx
  rw [append_assoc]
  exact (filter_append_perm done s.inFlight).append_left _

theorem awaitFree_spec (left : Nat) (spins : Nat → Spin) (s : TxSide) :
    (awaitFree left spins s).1.descs.Perm s.descs ∧
      ((awaitFree left spins s).2 = true → (awaitFree left spins s).1.txFree ≠ []) := by
  induction left generalizing spins s with
  | zero =>
    unfold awaitFree
    split
    · exact ⟨.rfl, fun _ => ‹_›⟩
    split
    · exact ⟨.rfl, by simp⟩
    · exact ⟨s.descs_reapTx _, by simp⟩
  | succ left ih =>
    unfold awaitFree
    split
    · exact ⟨.rfl, fun _ => ‹_›⟩
    split
    · exact ⟨.rfl, by simp⟩
    · obtain ⟨hdescs, hfree⟩ := ih (fun n => spins (n + 1)) (s.reapTx (spins 0).done)
      exact ⟨hdescs.trans (s.descs_reapTx _), hfree⟩

theorem reapTx_free (h : s.Done done) : (s.reapTx done).txFree ≠ [] := by
  obtain ⟨desc, hdesc, hdone⟩ := h
  exact append_ne_nil_of_right_ne_nil _ (ne_nil_of_mem (mem_filter.mpr ⟨hdesc, hdone⟩))

/-- A reap that completes nothing. -/
theorem reapTx_eq (h : ¬s.Done done) : s.reapTx done = s := by
  have hnone : ∀ desc ∈ s.inFlight, done desc = false := fun desc hdesc =>
    Bool.eq_false_iff.mpr fun hdone => h ⟨desc, hdesc, hdone⟩
  unfold reapTx
  rw [filter_eq_nil_iff.mpr (by simpa using hnone), filter_eq_self.mpr (by simpa using hnone), append_nil]

theorem awaitFree_obtains (left : Nat) (spins : Nat → Spin) (s : TxSide) :
    (awaitFree left spins s).2 = true ↔ s.txFree ≠ [] ∨
      ∃ n < left, (∀ m ≤ n, (spins m).wakeupFails = false) ∧ s.Done (spins n).done := by
  by_cases hfree : s.txFree ≠ []
  · unfold awaitFree
    simp [hfree]
  induction left generalizing spins with
  | zero =>
    unfold awaitFree
    rw [if_neg hfree]
    split <;> simp_all
  | succ left ih =>
    unfold awaitFree
    rw [if_neg hfree, or_iff_right hfree]
    split
    · rename_i hfails
      refine iff_of_false (by simp) ?_
      rintro ⟨n, -, hwakes, -⟩
      rw [hwakes 0 (Nat.zero_le n)] at hfails
      cases hfails
    rename_i hwakes
    by_cases hdone : s.Done (spins 0).done
    · have hnow := s.reapTx_free hdone
      refine iff_of_true ?_ ⟨0, Nat.succ_pos left, ?_, hdone⟩
      · unfold awaitFree
        simp [hnow]
      · intro m hm
        rw [Nat.le_zero.mp hm]
        exact Bool.eq_false_iff.mpr hwakes
    · rw [s.reapTx_eq hdone, ih (fun n => spins (n + 1)), or_iff_right hfree]
      constructor
      · rintro ⟨n, hn, hall, hlater⟩
        refine ⟨n + 1, Nat.succ_lt_succ hn, fun m hm => ?_, hlater⟩
        cases m with
        | zero => exact Bool.eq_false_iff.mpr hwakes
        | succ m => exact hall m (Nat.le_of_succ_le_succ hm)
      · rintro ⟨n, hn, hall, hlater⟩
        cases n with
        | zero => exact absurd hlater hdone
        | succ n => exact ⟨n, Nat.lt_of_succ_lt_succ hn, fun m hm => hall (m + 1) (Nat.succ_le_succ hm),
          hlater⟩

theorem obtains_iff (e : Send) :
    (awaitFree 1000000 e.spins (s.reapTx e.done)).2 = true ↔ s.Obtains e := by
  rw [awaitFree_obtains, Obtains]
  by_cases hdone : s.Done e.done
  · exact iff_of_true (.inl (s.reapTx_free hdone)) (.inr (.inl hdone))
  · rw [s.reapTx_eq hdone, or_iff_right hdone]

theorem submit_descs (e : Send) (h : s.txFree ≠ []) :
    ∃ lost, ((s.submit e).descs ++ lost).Perm s.descs ∧
      (lost = [] ↔ e.len ≤ frameRoom ∧ (e.wakeupFails = true → e.produced = true)) := by
  obtain ⟨front, desc, hlast⟩ := (eq_nil_or_concat s.txFree).resolve_left h
  rw [concat_eq_append] at hlast
  have hpopped : (front ++ s.inFlight ++ [desc]).Perm s.descs := by
    rw [descs, hlast, append_assoc, append_assoc]
    exact perm_append_comm.append_left front
  unfold submit
  rw [hlast, getLast?_concat, dropLast_concat]
  dsimp only
  split
  · exact ⟨[desc], hpopped, by simp; omega⟩
  split
  · refine ⟨[], ?_, by simp_all⟩
    rw [append_nil, descs, ← append_assoc]
    exact hpopped
  · split
    · exact ⟨[desc], hpopped, by simp_all⟩
    · exact ⟨[], by rw [append_nil], by simp_all⟩

theorem sendFrame_descs (e : Send) : ∃ lost, ((s.sendFrame e).descs ++ lost).Perm s.descs ∧
    (lost = [] ↔ s.Keeps e) := by
  obtain ⟨hdescs, hfree⟩ := awaitFree_spec 1000000 e.spins (s.reapTx e.done)
  unfold sendFrame Keeps
  rw [← obtains_iff]
  generalize awaitFree 1000000 e.spins (s.reapTx e.done) = r at hdescs hfree ⊢
  replace hdescs := hdescs.trans (s.descs_reapTx _)
  rcases r with ⟨t, _ | _⟩
  · exact ⟨[], by rw [append_nil]; exact hdescs, fun _ h => (by cases h), fun _ => rfl⟩
  obtain ⟨lost, hperm, hlost⟩ := t.submit_descs e (hfree rfl)
  refine ⟨lost, hperm.trans hdescs, ?_⟩
  rw [hlost]
  exact ⟨fun h _ => h, fun h => h rfl⟩

theorem run_descs (h : run next s es = some t) : ∃ lost, (t.descs ++ lost).Perm s.descs ∧
    (lost = [] ↔ EveryStep next Keeps s es) := by
  induction es generalizing s with
  | nil =>
    cases h
    exact ⟨[], by rw [append_nil], fun _ => trivial, fun _ => rfl⟩
  | cons e es ih =>
    obtain ⟨lost, hperm, hlost⟩ := s.sendFrame_descs e
    obtain ⟨later, hperm', hlater⟩ := ih (s.sendFrame e) h
    refine ⟨later ++ lost, ?_, ?_⟩
    · rw [← append_assoc]
      exact (hperm'.append_right lost).trans hperm
    · rw [append_eq_nil_iff, hlost, hlater]
      exact ⟨fun h => ⟨h.2, fun t ht => Option.some.inj ht ▸ h.1⟩, fun h => ⟨h.2 _ rfl, h.1⟩⟩

/-- Every descriptor is in the pool or in flight after the calls exactly when each call that got one
fits its data and does not fail with nothing produced. -/
theorem descriptors_conserved_iff (es : List Send) (h : run next bind es = some t) :
    t.descs.Perm (range txFrames) ↔ EveryStep next Keeps bind es := by
  obtain ⟨lost, hperm, hlost⟩ := run_descs _ h
  rw [← hlost]
  constructor
  · intro hall
    have hlen := hperm.length_eq
    rw [length_append, hall.length_eq, descs, bind, append_nil] at hlen
    exact length_eq_zero_iff.mp (Nat.add_eq_left.mp hlen)
  · rintro rfl
    rw [append_nil] at hperm
    exact hperm.trans (by rw [descs, bind, append_nil])

/-- The kernel that finishes nothing and takes every frame. -/
def idleSend (len : Nat) : Send := ⟨len, fun _ => false, fun _ => ⟨false, fun _ => false⟩, true, false⟩

theorem descriptors_conserved_two :
    (sendFrame (bind.sendFrame (idleSend 60)) (idleSend 60)).descs.Perm (range txFrames) :=
  (descriptors_conserved_iff [idleSend 60, idleSend 60] rfl).mpr
    ⟨fun _ => ⟨by decide, fun h => by cases h⟩, fun t ht => by
      cases ht
      exact ⟨fun _ => ⟨by decide, fun h => by cases h⟩, fun _ _ => trivial⟩⟩

/-- Data longer than a frame: the descriptor is in neither place afterwards. -/
theorem oversized_send_leaks : (bind.sendFrame (idleSend 3841)).descs.length = 15 := by
  decide

end TxSide
end SubEtha.Wire
