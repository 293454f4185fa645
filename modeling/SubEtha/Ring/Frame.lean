import SubEtha.Lib.Bits
import SubEtha.Lib.Memory
import SubEtha.Ring.Adaptive
import SubEtha.Wire

namespace SubEtha.Ring
open Option SubEtha.Lib List

inductive FrameClass
  | inline
  | offset
deriving DecidableEq

def FrameClass.tag : FrameClass → Byte
  | .inline => byte 0
  | .offset => byte 1

inductive LayoutHint
  | auto
  | forceInline
  | forceOffset
deriving DecidableEq

def descHeaderBytes : Nat := 8

def minSlotSize : Nat := descHeaderBytes + 8

def frameHeaderBytes : Nat := 320

/-- A ring of descriptors and a byte region for the payloads that do not fit in one. The cursors
are 64-bit counters that wrap. -/
structure FrameRing where
  capacity : Nat
  slotSize : Nat
  regionBytes : Nat
  descHead : Nat
  descTail : Nat
  regionHead : Nat
  regionTail : Nat
  slots : List Packet
  region : Packet

def wrapping (n : Nat) : Nat := n % 2 ^ 64

def wrappingSub (a b : Nat) : Nat := (a + 2 ^ 64 - b) % 2 ^ 64

def validateParams (capacity slotSize regionBytes : Nat) : Except RingError Unit :=
  if ¬isPowerOfTwo capacity ∨ capacity < 2 then .error .layoutMismatch
  else if slotSize < minSlotSize then .error .layoutMismatch
  else if ¬isPowerOfTwo regionBytes ∨ regionBytes < 2 then .error .layoutMismatch
  else .ok ()

def frameRingFileSize (capacity slotSize regionBytes : Nat) : Nat :=
  frameHeaderBytes + capacity * slotSize + regionBytes

namespace FrameRing

def create (capacity slotSize regionBytes : Nat) : Option (Except RingError FrameRing) :=
  match validateParams capacity slotSize regionBytes with
  | .error e => some (.error e)
  | .ok () =>
    if frameRingFileSize capacity slotSize regionBytes < 2 ^ 64 then
      some (.ok ⟨capacity, slotSize, regionBytes, 0, 0, 0, 0,
        replicate capacity (replicate slotSize (byte 0)),
        replicate regionBytes (byte 0)⟩)
    else none

variable (r : FrameRing)

def inlineBudget : Nat := r.slotSize - descHeaderBytes

def maxPayload : Nat := r.regionBytes / 2

def descIndex (idx : Nat) : Nat := idx &&& (r.capacity - 1)

def descSlot (idx : Nat) : Packet := r.slots.getD (r.descIndex idx) []

/-- Write the tag, the length and what follows them over the bytes of a descriptor. -/
def writeDesc (slot : Packet) (class' : FrameClass) (len : Nat) (body : Packet) : Packet :=
  blit (blit (blit slot 0 [class'.tag]) 4 (leBytes 4 len)) descHeaderBytes body

def publish (class' : FrameClass) (len : Nat) (body : Packet) : FrameRing :=
  { r with
    slots := r.slots.modify (r.descIndex r.descHead) fun slot => writeDesc slot class' len body
    descHead := wrapping (r.descHead + 1) }

def picksInline (payload : Packet) : LayoutHint → Except RingError Bool
  | .forceInline => if r.inlineBudget < payload.length then .error .payloadTooLarge else .ok true
  | .forceOffset => .ok false
  | .auto => .ok (decide (payload.length ≤ r.inlineBudget))

/-- Where a payload goes in the region: past its end it starts over at the next turn. -/
def regionStart (len : Nat) : Nat :=
  let phys := r.regionHead % r.regionBytes
  if r.regionBytes < phys + len then wrapping (r.regionHead + (r.regionBytes - phys))
  else r.regionHead

def sendAs (payload : Packet) (hint : LayoutHint) : FrameRing × Except RingError FrameClass :=
  if r.capacity ≤ wrappingSub r.descHead r.descTail then (r, .error .full)
  else
    let len := payload.length % 2 ^ 32
    match r.picksInline payload hint with
    | .error e => (r, .error e)
    | .ok true => (r.publish .inline len payload, .ok .inline)
    | .ok false =>
      if r.maxPayload < payload.length then (r, .error .payloadTooLarge)
      else
        let start := r.regionStart payload.length
        if r.regionBytes < wrappingSub (wrapping (start + payload.length)) r.regionTail then
          (r, .error .full)
        else
          ({ r with
              region := blit r.region (start % r.regionBytes) payload
              regionHead := wrapping (start + payload.length) }.publish
            .offset len (leBytes 8 start), .ok .offset)

def recvInto : FrameRing × Except RingError (FrameClass × Packet) :=
  if r.descTail = r.descHead then (r, .error .empty)
  else
    let slot := r.descSlot r.descTail
    let len := leAt slot 4 4
    if slot.getD 0 (byte 0) = FrameClass.inline.tag then
      ({ r with descTail := wrapping (r.descTail + 1) },
        .ok (.inline, slice slot descHeaderBytes len))
    else
      let off := leAt slot descHeaderBytes 8
      ({ r with
          regionTail := wrapping (off + len)
          descTail := wrapping (r.descTail + 1) },
        .ok (.offset, slice r.region (off % r.regionBytes) len))

def waiting : Nat := wrappingSub r.descHead r.descTail

/-- The region bytes, a start and a length, that a descriptor names. -/
def regionSpan (idx : Nat) : Option (Nat × Nat) :=
  let slot := r.descSlot idx
  if slot.getD 0 (byte 0) = FrameClass.inline.tag then none
  else some (leAt slot descHeaderBytes 8 % r.regionBytes, leAt slot 4 4)

def undelivered : List (Nat × Nat) :=
  (range r.waiting).filterMap fun i => r.regionSpan (wrapping (r.descTail + i))

end FrameRing

inductive FrameCall
  | send (payload : Packet) (hint : LayoutHint)
  | recv

/-- A ring with the payloads its producer saw accepted and its consumer received. -/
structure FrameTraffic where
  ring : FrameRing
  accepted : List Packet
  received : List Packet

namespace FrameTraffic

def call (t : FrameTraffic) : FrameCall → FrameTraffic
  | .send payload hint =>
    match t.ring.sendAs payload hint with
    | (r, .ok _) => { t with ring := r, accepted := t.accepted ++ [payload] }
    | (r, .error _) => { t with ring := r }
  | .recv =>
    match t.ring.recvInto with
    | (r, .ok (_, payload)) => { t with ring := r, received := t.received ++ [payload] }
    | (r, .error _) => { t with ring := r }

def calls (t : FrameTraffic) (cs : List FrameCall) : FrameTraffic := cs.foldl call t

end FrameTraffic

/-- A frame on its way: its payload and, for one in the region, where it starts, counted without
the wrap. -/
structure Frame where
  payload : Packet
  start : Option Nat

/-- The frames in the region lie in order from `lo` to `hi`. -/
def Spans (lo hi : Nat) : List Frame → Prop
  | [] => lo = hi
  | f :: fs =>
    match f.start with
    | none => Spans lo hi fs
    | some s => lo ≤ s ∧ Spans (s + f.payload.length) hi fs

variable {lo hi len : Nat} {fs : List Frame} {f : Frame} {payload : Packet}

section
variable (h : Spans lo hi fs)
include h

theorem Spans.le : lo ≤ hi := by
  induction fs generalizing lo with
  | nil => exact Nat.le_of_eq h
  | cons f fs ih =>
    unfold Spans at h
    split at h
    · exact ih h
    · exact h.1.trans ((Nat.le_add_right _ _).trans (ih h.2))

theorem Spans.bounds (hf : f ∈ fs) (hs : f.start = some s) :
    lo ≤ s ∧ s + f.payload.length ≤ hi := by
  induction fs generalizing lo with
  | nil => cases hf
  | cons g fs ih =>
    unfold Spans at h
    rcases mem_cons.mp hf with rfl | hmem
    · rw [hs] at h
      exact ⟨h.1, h.2.le⟩
    split at h
    · exact ih h hmem
    · obtain ⟨hlo, hhi⟩ := ih h.2 hmem
      exact ⟨h.1.trans ((Nat.le_add_right _ _).trans hlo), hhi⟩

theorem Spans.append (hgs : Spans hi top gs) :
    Spans lo top (fs ++ gs) := by
  induction fs generalizing lo with
  | nil => exact (show lo = hi from h) ▸ hgs
  | cons g fs ih =>
    unfold Spans at h
    rw [cons_append]
    unfold Spans
    split at h
    · exact ih h
    · exact ⟨h.1, ih h.2⟩

theorem Spans.ordered : fs.Pairwise fun f g => ∀ s t, f.start = some s → g.start = some t →
      s + f.payload.length ≤ t := by
  induction fs generalizing lo with
  | nil => exact .nil
  | cons f fs ih =>
    unfold Spans at h
    split at h
    · rename_i heq
      refine .cons (fun g _ s t hs => ?_) (ih h)
      rw [heq] at hs
      cases hs
    · rename_i u heq
      refine .cons (fun g hg s t hs ht => ?_) (ih h.2)
      rw [heq] at hs
      cases hs
      exact (h.2.bounds hg ht).1

end

namespace FrameRing

/-- The bytes of a descriptor spell the frame. -/
structure Described (slot : Packet) (f : Frame) : Prop where
  length : leAt slot 4 4 = f.payload.length
  inline : f.start = none →
    slot.getD 0 (byte 0) = FrameClass.inline.tag ∧
      slice slot descHeaderBytes f.payload.length = f.payload
  offset : ∀ s, f.start = some s →
    slot.getD 0 (byte 0) = FrameClass.offset.tag ∧ leAt slot descHeaderBytes 8 = wrapping s

/-- The descriptors from the tail to the head spell `fs`. -/
structure Queues (r : FrameRing) (tail : Nat) (fs : List Frame) : Prop where
  turn : r.capacity ∣ 2 ^ 64
  small : r.capacity < 2 ^ 64
  mask : ∀ idx, r.descIndex idx = idx % r.capacity
  room : minSlotSize ≤ r.slotSize
  slots : r.slots.length = r.capacity
  sizes : ∀ slot ∈ r.slots, slot.length = r.slotSize
  tail_eq : r.descTail = wrapping tail
  head_eq : r.descHead = wrapping (tail + fs.length)
  count : fs.length ≤ r.capacity
  described : ∀ i f, fs[i]? = some f → Described (r.slots.getD ((tail + i) % r.capacity) []) f

/-- The region holds the payloads of the frames of `fs` that are not inline. -/
structure Stores (r : FrameRing) (lo hi : Nat) (fs : List Frame) : Prop where
  turn : r.regionBytes ∣ 2 ^ 64
  half : 2 * r.regionBytes ≤ 2 ^ 64
  pos : 0 < r.regionBytes
  region : r.region.length = r.regionBytes
  tail_eq : r.regionTail = wrapping lo
  head_eq : r.regionHead = wrapping hi
  window : hi ≤ lo + r.regionBytes
  spans : Spans lo hi fs
  bytes : ∀ f ∈ fs, ∀ s, f.start = some s →
    slice r.region (s % r.regionBytes) f.payload.length = f.payload

theorem wrappingSub_wrapping (hab : a ≤ b) (hlt : b - a < 2 ^ 64) :
    wrappingSub (wrapping b) (wrapping a) = b - a := by
  unfold wrappingSub wrapping
  omega

theorem wrapping_mod (hm : m ∣ 2 ^ 64) (n : Nat) : wrapping n % m = n % m := Nat.mod_mod_of_dvd n hm

theorem wrapping_add (a b : Nat) : wrapping (wrapping a + b) = wrapping (a + b) := Nat.mod_add_mod ..

variable {r : FrameRing} {tail lo hi : Nat} {fs : List Frame}

theorem Queues.waiting_eq (h : Queues r tail fs) : r.waiting = fs.length := by
  have hcount := h.count
  have hsmall := h.small
  rw [waiting, h.head_eq, h.tail_eq, wrappingSub_wrapping (Nat.le_add_right _ _) (by omega)]
  omega

theorem Queues.empty_iff (h : Queues r tail fs) : r.descTail = r.descHead ↔ fs = [] := by
  have hwaiting := h.waiting_eq
  constructor
  · intro heq
    rw [waiting, heq] at hwaiting
    unfold wrappingSub at hwaiting
    exact length_eq_zero_iff.mp (by omega)
  · rintro rfl
    rw [h.tail_eq, h.head_eq]
    rfl

theorem Queues.index (h : Queues r tail fs) (n : Nat) : r.descIndex (wrapping n) = n % r.capacity := by
  rw [h.mask, wrapping_mod h.turn]

theorem getD_zero_of_slice (h : slice mem 0 1 = [b]) (d : Byte) : mem.getD 0 d = b := by
  cases mem with
  | nil => cases h
  | cons a mem =>
    cases h
    rfl

section
variable {slot : Packet} {size : Nat} (hslot : slot.length = size) (hsize : minSlotSize ≤ size)
include hslot hsize

theorem length_blit_header (class' : FrameClass) (len : Nat) :
    (blit slot 0 [class'.tag]).length = size ∧
      (blit (blit slot 0 [class'.tag]) 4 (leBytes 4 len)).length = size := by
  unfold minSlotSize descHeaderBytes at hsize
  have hone : (blit slot 0 [class'.tag]).length = size := by
    rw [length_blit (by rw [length_singleton]; omega), hslot]
  refine ⟨hone, ?_⟩
  rw [length_blit (by rw [leBytes_length]; omega), hone]

variable {len : Nat} {body : Packet} (hbody : body.length ≤ size - descHeaderBytes)
include hbody

theorem length_writeDesc (class' : FrameClass) :
    (writeDesc slot class' len body).length = size := by
  have htwo := (length_blit_header hslot hsize class' len).2
  unfold minSlotSize descHeaderBytes at *
  unfold writeDesc descHeaderBytes
  rw [length_blit (by omega), htwo]

theorem read_writeDesc (hlen : len < 2 ^ 32) (class' : FrameClass) :
    (writeDesc slot class' len body).getD 0 (byte 0) = class'.tag ∧
      leAt (writeDesc slot class' len body) 4 4 = len ∧
      slice (writeDesc slot class' len body) descHeaderBytes body.length = body := by
  obtain ⟨hone, htwo⟩ := length_blit_header hslot hsize class' len
  unfold minSlotSize descHeaderBytes at *
  unfold writeDesc descHeaderBytes
  refine ⟨getD_zero_of_slice ?_ _, ?_, slice_blit_self (by omega)⟩
  · rw [slice_blit_apart (by omega) (.inl (by dsimp only; omega)),
      slice_blit_apart (by rw [leBytes_length]; omega) (.inl (by dsimp only; omega))]
    exact slice_blit_self (by omega)
  have hread : slice (blit (blit slot 0 [class'.tag]) 4 (leBytes 4 len)) 4 4 = leBytes 4 len := by
    have hself : slice (blit (blit slot 0 [class'.tag]) 4 (leBytes 4 len)) 4
        (leBytes 4 len).length = leBytes 4 len := slice_blit_self (by omega)
    rwa [leBytes_length] at hself
  rw [leAt, ← slice, slice_blit_apart (by omega) (.inl (by dsimp only; omega)), hread,
    leValue_leBytes, Nat.mod_eq_of_lt (by omega)]

end

section
variable (h : Queues r tail fs) (hroom : fs.length < r.capacity)
include h hroom

theorem Queues.publish (hbody : body.length ≤ r.slotSize - descHeaderBytes)
    (hf : ∀ slot : Packet, slot.length = r.slotSize → Described (writeDesc slot class' len body) f) :
    Queues (r.publish class' len body) tail (fs ++ [f]) := by
  have hidx : r.descIndex r.descHead = (tail + fs.length) % r.capacity := by
    rw [h.head_eq, h.index]
  have hlt : (tail + fs.length) % r.capacity < r.slots.length := by
    rw [h.slots]
    exact Nat.mod_lt _ (Nat.zero_lt_of_lt hroom)
  refine ⟨h.turn, h.small, h.mask, h.room, (length_modify ..).trans h.slots, ?_, h.tail_eq,
    ?_, ?_, ?_⟩
  · intro slot hslot
    obtain ⟨i, hi⟩ := mem_iff_getElem?.mp hslot
    rw [FrameRing.publish, getElem?_modify] at hi
    obtain ⟨old, hold, rfl⟩ := map_eq_some_iff.mp hi
    have hsize := h.sizes old (mem_of_getElem? hold)
    split
    · exact length_writeDesc hsize h.room hbody class'
    · exact hsize
  · rw [FrameRing.publish, length_append, length_singleton, ← Nat.add_assoc, h.head_eq,
      wrapping_add]
  · rw [length_append, length_singleton]
    exact hroom
  intro i g hg
  have hget : ∀ j, (r.publish class' len body).slots.getD j [] =
      if j = (tail + fs.length) % r.capacity then
        writeDesc (r.slots.getD j []) class' len body else r.slots.getD j [] := fun j => by
    rw [FrameRing.publish, getD_eq_getElem?_getD, getElem?_modify, hidx]
    by_cases hj : j = (tail + fs.length) % r.capacity
    · rw [if_pos hj, getD_eq_getElem?_getD, hj, getElem?_eq_getElem hlt]
      simp
    · simp [Ne.symm hj, hj]
  have hcap : (r.publish class' len body).capacity = r.capacity := rfl
  rw [hcap, hget]
  rcases Nat.lt_or_ge i fs.length with hi | hi
  · rw [getElem?_append_left hi] at hg
    have hne : (tail + i) % r.capacity ≠ (tail + fs.length) % r.capacity := by
      intro heq
      have hzero := Nat.sub_mod_eq_zero_of_mod_eq heq.symm
      rw [Nat.add_sub_add_left, Nat.mod_eq_of_lt (by omega)] at hzero
      omega
    rw [if_neg hne]
    exact h.described i g hg
  rw [getElem?_append_right hi] at hg
  have hi' : i = fs.length := by
    have := (List.getElem_of_getElem? hg).1
    rw [length_singleton] at this
    omega
  rw [hi', Nat.sub_self] at hg
  cases hg
  rw [hi', if_pos rfl]
  refine hf _ ?_
  rw [getD_eq_getElem?_getD, getElem?_eq_getElem hlt]
  exact h.sizes _ (getElem_mem hlt)

theorem Queues.sendInline (hfit : payload.length ≤ r.inlineBudget) (hlen : payload.length < 2 ^ 32) :
    Queues (r.publish .inline (payload.length % 2 ^ 32) payload) tail (fs ++ [⟨payload, none⟩]) := by
  rw [Nat.mod_eq_of_lt hlen]
  refine h.publish hroom hfit fun slot hslot => ?_
  obtain ⟨htag, hread, hbody⟩ := read_writeDesc hslot h.room hfit hlen .inline
  exact ⟨hread, fun _ => ⟨htag, hbody⟩, (by simp)⟩

theorem Queues.sendOffset (hlen : payload.length < 2 ^ 32) (s : Nat) :
    Queues (r.publish .offset (payload.length % 2 ^ 32) (leBytes 8 (wrapping s))) tail
      (fs ++ [⟨payload, some s⟩]) := by
  have hfit : (leBytes 8 (wrapping s)).length ≤ r.slotSize - descHeaderBytes := by
    have hmin := h.room
    unfold minSlotSize descHeaderBytes at *
    rw [leBytes_length]
    omega
  rw [Nat.mod_eq_of_lt hlen]
  refine h.publish hroom hfit fun slot hslot => ?_
  obtain ⟨htag, hread, hbody⟩ := read_writeDesc hslot h.room hfit hlen .offset
  rw [leBytes_length] at hbody
  refine ⟨hread, nofun, fun t ht => ?_⟩
  cases ht
  have hoff : leAt (writeDesc slot .offset payload.length (leBytes 8 (wrapping s)))
      descHeaderBytes 8 = wrapping s % 256 ^ 8 := by
    rw [leAt, ← slice, hbody, leValue_leBytes]
  have hbound : wrapping s < 256 ^ 8 := Nat.mod_lt s (by decide)
  exact ⟨htag, hoff.trans (Nat.mod_eq_of_lt hbound)⟩

end

/-- Where the next payload of `len` bytes goes, counted without the wrap. -/
def placement (r : FrameRing) (hi len : Nat) : Nat :=
  if r.regionBytes < hi % r.regionBytes + len then hi + (r.regionBytes - hi % r.regionBytes) else hi

theorem Stores.regionStart_eq (h : Stores r lo hi fs) (len : Nat) :
    r.regionStart len = wrapping (r.placement hi len) := by
  unfold regionStart placement
  rw [h.head_eq, wrapping_mod h.turn]
  dsimp only
  split
  · exact wrapping_add ..
  · rfl

/-- A placement is at most one payload past the head and does not cross the region's end. -/
theorem placement_spec (hpos : 0 < r.regionBytes) (hlen : len ≤ r.maxPayload) :
    hi ≤ r.placement hi len ∧ r.placement hi len + len < hi + r.regionBytes ∧
      r.placement hi len % r.regionBytes + len ≤ r.regionBytes := by
  have hmod := Nat.mod_lt hi hpos
  unfold maxPayload at hlen
  unfold placement
  split
  · refine ⟨by omega, by omega, ?_⟩
    have hturn : (hi + (r.regionBytes - hi % r.regionBytes)) % r.regionBytes = 0 := by
      have hdiv := Nat.div_add_mod hi r.regionBytes
      have hsum : hi + (r.regionBytes - hi % r.regionBytes) =
          r.regionBytes * (hi / r.regionBytes + 1) := by
        rw [Nat.mul_add, Nat.mul_one]
        omega
      rw [hsum, Nat.mul_mod_right]
    omega
  · exact ⟨le_rfl, by omega, by omega⟩

/-- The room check compares the distances the cursors stand for. -/
theorem Stores.full_iff (h : Stores r lo hi fs) (hlen : len ≤ r.maxPayload) :
    r.regionBytes < wrappingSub (wrapping (r.regionStart len + len)) r.regionTail ↔
      lo + r.regionBytes < r.placement hi len + len := by
  obtain ⟨hge, hle, -⟩ : hi ≤ r.placement hi len ∧ r.placement hi len + len < hi + r.regionBytes ∧ _ :=
    placement_spec h.pos hlen
  have hlo := h.spans.le
  have hwindow := h.window
  have hhalf := h.half
  rw [h.regionStart_eq, wrapping_add, h.tail_eq, wrappingSub_wrapping (by omega) (by omega)]
  omega

theorem Stores.sendOffset (h : Stores r lo hi fs) (hlen : payload.length ≤ r.maxPayload)
    (hroom : r.placement hi payload.length + payload.length ≤ lo + r.regionBytes) : Stores { r with
        region := blit r.region (r.regionStart payload.length % r.regionBytes) payload
        regionHead := wrapping (r.regionStart payload.length + payload.length) }
      lo (r.placement hi payload.length + payload.length)
      (fs ++ [⟨payload, some (r.placement hi payload.length)⟩]) := by
  obtain ⟨hge, -, hwhole⟩ : hi ≤ r.placement hi payload.length ∧ _ ∧ _ := placement_spec h.pos hlen
  have hphys : r.regionStart payload.length % r.regionBytes =
      r.placement hi payload.length % r.regionBytes := by
    rw [h.regionStart_eq, wrapping_mod h.turn]
  have hinside : r.placement hi payload.length % r.regionBytes + payload.length ≤
      r.region.length := h.region ▸ hwhole
  rw [hphys]
  refine ⟨h.turn, h.half, h.pos, (length_blit hinside).trans h.region, h.tail_eq, ?_, hroom,
    h.spans.append ⟨hge, rfl⟩, ?_⟩
  · rw [h.regionStart_eq, wrapping_add]
  intro f hf s hs
  rcases mem_append.mp hf with hmem | hmem
  · obtain ⟨hlo, hhi⟩ := h.spans.bounds hmem hs
    rw [slice_blit_apart hinside (apart_mod (by omega) (by omega))]
    exact h.bytes f hmem s hs
  · obtain rfl := mem_singleton.mp hmem
    cases hs
    exact slice_blit_self (by omega)

theorem Stores.sendInline (h : Stores r lo hi fs) (class' : FrameClass) (len : Nat)
    (body payload : Packet) :
    Stores (r.publish class' len body) lo hi (fs ++ [⟨payload, none⟩]) := by
  have hinline : ∀ f ∈ fs ++ [⟨payload, none⟩], ∀ s, f.start = some s → f ∈ fs := by
    intro f hf s hs
    rcases mem_append.mp hf with hmem | hmem
    · exact hmem
    · obtain rfl := mem_singleton.mp hmem
      cases hs
  exact { h with
    spans := h.spans.append rfl
    bytes := fun f hf s hs => h.bytes f (hinline f hf s hs) s hs }

theorem Queues.pop (h : Queues r tail (f :: fs)) (regionTail : Nat) : Queues { r with
      regionTail := regionTail, descTail := wrapping (r.descTail + 1) } (tail + 1) fs := by
  refine ⟨h.turn, h.small, h.mask, h.room, h.slots, h.sizes, ?_, ?_, ?_, fun i g hg => ?_⟩
  · rw [h.tail_eq, wrapping_add]
  · have hhead := h.head_eq
    rwa [length_cons, Nat.add_comm fs.length, ← Nat.add_assoc] at hhead
  · exact (Nat.le_succ _).trans h.count
  · have hd := h.described (i + 1) g hg
    rwa [← Nat.add_assoc, Nat.add_right_comm] at hd

theorem Stores.pop (h : Stores r lo hi (f :: fs)) (hlo : lo ≤ lo') (hspans : Spans lo' hi fs) :
    Stores { r with regionTail := wrapping lo', descTail := wrapping (r.descTail + 1) } lo' hi fs :=
  ⟨h.turn, h.half, h.pos, h.region, rfl, h.head_eq, h.window.trans (Nat.add_le_add_right hlo _),
    hspans, fun g hg => h.bytes g (mem_cons_of_mem _ hg)⟩

/-- The ring holds the frames `fs`. -/
def Carries (r : FrameRing) (fs : List Frame) : Prop :=
  ∃ tail lo hi, Queues r tail fs ∧ Stores r lo hi fs

theorem Carries.recv (h : Carries r (f :: fs)) :
    ∃ r' class', r.recvInto = (r', .ok (class', f.payload)) ∧ Carries r' fs := by
  obtain ⟨tail, lo, hi, hq, hs⟩ := h
  have hne : r.descTail ≠ r.descHead := fun heq => by cases hq.empty_iff.mp heq
  have hslot : Described (r.descSlot r.descTail) f := by
    have hd := hq.described 0 f rfl
    rwa [descSlot, hq.tail_eq, hq.index]
  have hspans := hs.spans
  unfold Spans at hspans
  rw [recvInto, if_neg hne]
  dsimp only
  rw [hslot.length]
  cases hstart : f.start with
  | none =>
    rw [hstart] at hspans
    obtain ⟨htag, hbody⟩ := hslot.inline hstart
    rw [if_pos htag, hbody]
    have hkeep : { r with descTail := wrapping (r.descTail + 1) } =
        { r with regionTail := wrapping lo, descTail := wrapping (r.descTail + 1) } := by
      rw [← hs.tail_eq]
    refine ⟨_, .inline, rfl, tail + 1, lo, hi, ?_, ?_⟩
    · exact hq.pop r.regionTail
    · rw [hkeep]
      exact hs.pop (le_rfl) hspans
  | some s =>
    rw [hstart] at hspans
    obtain ⟨htag, hoff⟩ := hslot.offset s hstart
    have hother : ¬(r.descSlot r.descTail).getD 0 (byte 0) = FrameClass.inline.tag := by
      rw [htag]
      decide
    rw [if_neg hother, hoff, wrapping_mod hs.turn, hs.bytes f mem_cons_self s hstart, wrapping_add]
    exact ⟨_, .offset, rfl, tail + 1, s + f.payload.length, hi, hq.pop _,
      hs.pop (hspans.1.trans (Nat.le_add_right _ _)) hspans.2⟩

theorem Carries.recv_empty (h : Carries r []) : r.recvInto = (r, .error .empty) := by
  obtain ⟨tail, lo, hi, hq, -⟩ := h
  exact if_pos (hq.empty_iff.mpr rfl)

theorem picksInline_fits (h : r.picksInline payload hint = .ok true) :
    payload.length ≤ r.inlineBudget := by
  cases hint with
  | auto => exact of_decide_eq_true (Except.ok.inj h)
  | forceInline =>
    rw [picksInline] at h
    split at h
    · cases h
    · omega
  | forceOffset => cases h

/-- A send either is refused and changes nothing, or puts its frame behind the others. -/
theorem Carries.send (h : Carries r fs) (hlen : payload.length < 2 ^ 32) (hint : LayoutHint) :
    (∃ e, r.sendAs payload hint = (r, .error e)) ∨
      ∃ r' class' start, r.sendAs payload hint = (r', .ok class') ∧
        Carries r' (fs ++ [⟨payload, start⟩]) := by
  obtain ⟨tail, lo, hi, hq, hs⟩ := h
  unfold sendAs
  split
  · exact .inl ⟨_, rfl⟩
  rename_i hfree
  have hroom : fs.length < r.capacity := by
    have hwaiting := hq.waiting_eq
    unfold waiting at hwaiting
    omega
  dsimp only
  split
  · exact .inl ⟨_, rfl⟩
  · rename_i hpick
    exact .inr ⟨_, _, none, rfl, tail, lo, hi, hq.sendInline hroom (picksInline_fits hpick) hlen,
      hs.sendInline ..⟩
  split
  · exact .inl ⟨_, rfl⟩
  rename_i hmax
  split
  · exact .inl ⟨_, rfl⟩
  rename_i hspace
  have hmax : payload.length ≤ r.maxPayload := Nat.not_lt.mp hmax
  rw [hs.full_iff hmax, Nat.not_lt] at hspace
  have hstored := hs.sendOffset hmax hspace
  have hqueued : Queues { r with
        region := blit r.region (r.regionStart payload.length % r.regionBytes) payload
        regionHead := wrapping (r.regionStart payload.length + payload.length) }
      tail fs :=
    { hq with }
  have hnext := hqueued.sendOffset hroom hlen (r.placement hi payload.length)
  rw [← hs.regionStart_eq] at hnext
  exact .inr ⟨_, _, _, rfl, tail, lo, _, hnext, { hstored with }⟩

/-- An empty ring has room for every payload the region accepts. -/
theorem Carries.send_empty (h : Carries r []) (payload : Packet) (hint : LayoutHint) :
    (r.sendAs payload hint).2 ≠ .error .full := by
  obtain ⟨tail, lo, hi, hq, hs⟩ := h
  have hwaiting : wrappingSub r.descHead r.descTail = 0 := hq.waiting_eq
  have hpos : 0 < r.capacity := by
    have hdvd := hq.turn
    refine Nat.pos_of_dvd_of_pos hdvd (by decide)
  unfold sendAs
  rw [hwaiting, if_neg (by omega)]
  dsimp only
  split
  · rename_i e hpick
    unfold picksInline at hpick
    split at hpick
    · split at hpick <;> cases hpick
      exact nofun
    · cases hpick
    · cases hpick
  · exact nofun
  split
  · exact nofun
  rename_i hmax
  have hmax : payload.length ≤ r.maxPayload := Nat.not_lt.mp hmax
  obtain rfl : lo = hi := hs.spans
  have hfits : r.placement lo payload.length + payload.length < lo + r.regionBytes :=
    (placement_spec hs.pos hmax).2.1
  rw [if_neg fun hfull => by
    have := (hs.full_iff hmax).mp hfull
    omega]
  exact nofun

/-- The region bytes of the frames in the ring. -/
theorem Carries.undelivered (h : Carries r fs) : r.undelivered.Pairwise Apart := by
  obtain ⟨tail, lo, hi, hq, hs⟩ := h
  rw [FrameRing.undelivered, hq.waiting_eq, pairwise_filterMap]
  have hspan : ∀ i (hi : i < fs.length) b, r.regionSpan (wrapping (r.descTail + i)) = some b →
      ∃ s, fs[i].start = some s ∧ b = (s % r.regionBytes, fs[i].payload.length) := by
    intro i hi b hb
    have hd := hq.described i fs[i] (getElem?_eq_getElem hi)
    have hslot : r.descSlot (wrapping (r.descTail + i)) =
        r.slots.getD ((tail + i) % r.capacity) [] := by
      rw [descSlot, hq.tail_eq, wrapping_add, hq.index]
    unfold regionSpan at hb
    dsimp only at hb
    rw [hslot] at hb
    cases hstart : fs[i].start with
    | none =>
      rw [if_pos (hd.inline hstart).1] at hb
      cases hb
    | some s =>
      obtain ⟨htag, hoff⟩ := hd.offset s hstart
      rw [htag, if_neg (by decide), hoff, hd.length, wrapping_mod hs.turn] at hb
      exact ⟨s, rfl, (some.inj hb).symm⟩
  refine List.Pairwise.imp_of_mem ?_ pairwise_lt_range
  intro i j hi hj hlt b hb c hc
  obtain ⟨s, hfs, rfl⟩ := hspan i (mem_range.mp hi) b hb
  obtain ⟨t, hft, rfl⟩ := hspan j (mem_range.mp hj) c hc
  have hordered := pairwise_iff_getElem.mp hs.spans.ordered i j (mem_range.mp hi)
    (mem_range.mp hj) hlt s t hfs hft
  have hfirst := hs.spans.bounds (getElem_mem (mem_range.mp hi)) hfs
  have hlast := hs.spans.bounds (getElem_mem (mem_range.mp hj)) hft
  have hwindow := hs.window
  exact apart_mod hordered (by omega)

theorem dvd_turn (h : isPowerOfTwo n) (hlt : n < 2 ^ 64) : n ∣ 2 ^ 64 ∧ 2 * n ≤ 2 ^ 64 := by
  have hlog : n.log2 < 64 := by
    rw [← h] at hlt
    exact (Nat.pow_lt_pow_iff_right (by decide)).mp hlt
  rw [← h]
  refine ⟨Nat.pow_dvd_pow 2 hlog.le, ?_⟩
  rw [← Nat.pow_succ']
  exact Nat.pow_le_pow_right (by decide) hlog

theorem create_carries {capacity slotSize regionBytes : Nat}
    (h : create capacity slotSize regionBytes = some (.ok r)) : Carries r [] := by
  unfold create validateParams at h
  split at h
  · cases h
  rename_i hvalid
  split at h <;> cases h
  rename_i hsize
  split at hvalid
  · cases hvalid
  rename_i hcap
  split at hvalid
  · cases hvalid
  rename_i hslot
  split at hvalid
  · cases hvalid
  rename_i hregion
  rw [not_or, not_not] at hcap hregion
  unfold frameRingFileSize frameHeaderBytes at hsize
  have hmul : capacity ≤ capacity * slotSize :=
    Nat.le_mul_of_pos_right _ (by unfold minSlotSize descHeaderBytes at hslot; omega)
  obtain ⟨hcapTurn, -⟩ := dvd_turn hcap.1 (by omega)
  obtain ⟨hregionTurn, hhalf⟩ := dvd_turn hregion.1 (by omega)
  refine ⟨0, 0, 0, ⟨hcapTurn, by dsimp only; omega, fun idx => ?_, by dsimp only; omega,
    length_replicate, fun slot hs => ?_, rfl, rfl, Nat.zero_le _, (by simp)⟩,
    ⟨hregionTurn, hhalf, by dsimp only; omega, length_replicate, rfl, rfl,
      Nat.zero_le _, rfl, (by simp)⟩⟩
  · have hpow : 2 ^ capacity.log2 = capacity := hcap.1
    rw [descIndex, ← hpow, Nat.and_two_pow_sub_one_eq_mod]
  · simp [eq_of_mem_replicate hs]

end FrameRing

namespace FrameTraffic

/-- What was accepted is what was received and then what the ring holds. -/
def Delivers (t : FrameTraffic) : Prop :=
  ∃ fs : List Frame, t.ring.Carries fs ∧ t.accepted = t.received ++ fs.map Frame.payload

/-- A call whose payload a 32-bit length can tell. -/
def Short : FrameCall → Prop
  | .send payload _ => payload.length < 2 ^ 32
  | .recv => True

instance : DecidablePred Short := fun c => by cases c <;> unfold Short <;> infer_instance

theorem Delivers.call (h : Delivers t) (hc : Short c) : Delivers (t.call c) := by
  obtain ⟨fs, hcarries, hall⟩ := h
  cases c with
  | send payload hint =>
    unfold FrameTraffic.call
    dsimp only
    rcases hcarries.send hc hint with ⟨e, hsend⟩ | ⟨r, class', start, hsend, hcarries'⟩
    · rw [hsend]
      exact ⟨fs, hcarries, hall⟩
    rw [hsend]
    refine ⟨_, hcarries', ?_⟩
    rw [hall, map_append, append_assoc]
    rfl
  | recv =>
    unfold FrameTraffic.call
    cases fs with
    | nil =>
      rw [hcarries.recv_empty]
      exact ⟨[], hcarries, hall⟩
    | cons f fs =>
      obtain ⟨r, class', hrecv, hcarries'⟩ := hcarries.recv
      rw [hrecv]
      refine ⟨fs, hcarries', ?_⟩
      rw [hall, map_cons, append_assoc]
      rfl

theorem Delivers.calls (h : Delivers t) (hcs : ∀ c ∈ cs, Short c) : Delivers (t.calls cs) := by
  induction cs generalizing t with
  | nil => exact h
  | cons c cs ih =>
    obtain ⟨hc, hcs⟩ := forall_mem_cons.mp hcs
    exact ih (h.call hc) hcs

/-- Every run of sends and receives delivers the accepted payloads in order, what waits is
what was accepted and not received, its region bytes never overlap, and a ring with nothing
waiting has room. -/
theorem frames_delivered {capacity slotSize regionBytes : Nat} {r : FrameRing}
    (hcreate : FrameRing.create capacity slotSize regionBytes = some (.ok r))
    (cs : List FrameCall) (hcs : ∀ c ∈ cs, Short c) : let t := calls ⟨r, [], []⟩ cs
    t.received <+: t.accepted ∧ t.accepted.length = t.received.length + t.ring.waiting ∧
      t.ring.undelivered.Pairwise Apart ∧ (t.ring.descHead = t.ring.descTail → ∀ payload hint,
        (t.ring.sendAs payload hint).2 ≠ .error .full) := by
  intro t
  obtain ⟨fs, hcarries, hall⟩ : Delivers t :=
    Delivers.calls ⟨[], FrameRing.create_carries hcreate, rfl⟩ hcs
  refine ⟨⟨_, hall.symm⟩, ?_, hcarries.undelivered, fun hempty => ?_⟩
  · obtain ⟨tail, lo, hi, hq, -⟩ := hcarries
    simp [hall, hq.waiting_eq]
  have hnil : fs = [] := by
    obtain ⟨tail, lo, hi, hq, -⟩ := hcarries
    exact hq.empty_iff.mp hempty.symm
  exact (hnil ▸ hcarries).send_empty

/-- Payloads of an eight-byte region that wrap it and one that stays in its descriptor. -/
def wrapped : List FrameCall :=
  [.send [byte 1, byte 2, byte 3] .forceOffset, .recv, .send [byte 4] .auto,
    .send [byte 5, byte 6, byte 7, byte 8] .forceOffset, .recv,
    .send [byte 9, byte 10] .forceOffset]

theorem frames_delivered_wrapped : ∃ r, FrameRing.create 4 16 8 = some (.ok r) ∧
      (calls ⟨r, [], []⟩ wrapped).received <+: (calls ⟨r, [], []⟩ wrapped).accepted ∧
      (calls ⟨r, [], []⟩ wrapped).received = [[byte 1, byte 2, byte 3], [byte 4]] ∧
      (calls ⟨r, [], []⟩ wrapped).ring.undelivered = [(3, 4), (0, 2)] := by
  refine ⟨_, rfl, (frames_delivered (rfl : FrameRing.create 4 16 8 = _) wrapped (by decide)).1, ?_, ?_⟩
  · decide +kernel
  · decide +kernel

end FrameTraffic

end SubEtha.Ring
