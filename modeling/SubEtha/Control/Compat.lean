import SubEtha.Control.Packet

namespace SubEtha.Control
open List Option RawFrame ControlPacket

theorem ControlPacket.accept_unknown {ty : Byte} (hty : FrameType.fromU8 ty = none)
    (p : ControlPacket) (body : List Byte) : p.accept ty body = p := by
  simp [accept, hty]

theorem foldl_unknown (fs : List RawFrame) (hty : ∀ f ∈ fs, FrameType.fromU8 f.ty = none)
    (p : ControlPacket) : fs.foldl (fun p f => p.accept f.ty f.body) p = p := by
  induction fs with
  | nil => rfl
  | cons f fs ih =>
    rw [foldl_cons, p.accept_unknown (hty f (mem_cons_self ..))]
    exact ih fun g hg => hty g (mem_cons_of_mem _ hg)

theorem decodeControl_insert (before after unknown : List RawFrame)
    (hty : ∀ f ∈ unknown, FrameType.fromU8 f.ty = none) :
    decodeControl (pktControl :: (before ++ (unknown ++ after)).flatMap bytes) =
      decodeControl (pktControl :: (before ++ after).flatMap bytes) := by
  simp only [decodeControl_flatMap, foldl_append, foldl_unknown unknown hty]

/-- `&buf[lo..hi]`; `none` is the panic at a range that does not lie in the slice. -/
def slice? (buf : List Byte) (lo hi : Nat) : Option (List Byte) :=
  if lo ≤ hi ∧ hi ≤ buf.length then some ((buf.drop lo).take (hi - lo)) else none

theorem slice?_eq (hlo : lo ≤ hi) (hhi : hi ≤ buf.length) :
    slice? buf lo hi = some ((buf.drop lo).take (hi - lo)) :=
  if_pos ⟨hlo, hhi⟩

/-- `get_varint` with its slice access; the outer `none` is a read out of bounds. -/
def getVarintChecked (buf : List Byte) (pos : Nat) : Option (Option (Nat × Nat)) :=
  match buf[pos]? with
  | none => some none
  | some first =>
    let len := 1 <<< (first.bits >>> 6).toNat
    if buf.length < pos + len then some none
    else do
      let bytes ← slice? buf (pos + 1) (pos + len)
      return some (bytes.foldl (fun v b => v <<< 8 ||| b.toNat) (first.bits &&& 0x3F).toNat,
        pos + len)

/-- The bodies of fixed bytes, read at their indices under the length the source
tests; the outer `none` is an index out of bounds. -/
def LossFrame.parseChecked (body : List Byte) : Option (Option LossFrame) :=
  if 3 ≤ body.length then do
    return some {
      lossX255 := ← body[0]?
      burstinessX255 := ← body[1]?
      owdTrendClass := ← body[2]?
      lossClass := body[3]?.getD (byte 0) }
  else return none

def RingFrame.parseChecked (body : List Byte) : Option (Option RingFrame) :=
  if 6 ≤ body.length then do
    return some {
      fillPct := ← body[0]?
      ringKind := ← body[1]?
      producers := ← body[2]?
      consumers := ← body[3]?
      trend := ← body[4]?
      flags := ← body[5]? }
  else return none

def PathFrame.parseChecked (body : List Byte) : Option (Option PathFrame) :=
  if 3 ≤ body.length then do
    let ce := (← getVarintChecked body 3).getD (0, 3)
    let ect := (← getVarintChecked body ce.2).getD (0, ce.2)
    return some {
      ttl := ← body[0]?
      ecn := ← body[1]?
      hopCount := ← body[2]?
      ceCount := UInt64.ofNat ce.1
      ectCount := UInt64.ofNat ect.1 }
  else return none

def LinkFrame.parseChecked (body : List Byte) : Option (Option LinkFrame) :=
  if 2 ≤ body.length then do
    return some { cls := ← body[0]?, quality := ← body[1]? }
  else return none

def BwProbeFrame.parseChecked (body : List Byte) : Option (Option BwProbeFrame) :=
  if 2 ≤ body.length then do
    match ← getVarintChecked body 2 with
    | none => return none
    | some (sendTs, _) =>
      return some {
        probeId := ← body[0]?
        idx := ← body[1]?
        sendTs := UInt64.ofNat sendTs }
  else return none

def TraceFrame.parseChecked (body : List Byte) : Option (Option TraceFrame) :=
  if 2 ≤ body.length then do
    return some { hopTtl := ← body[0]?, probeId := ← body[1]? }
  else return none

def PeriodicityFrame.parseChecked (body : List Byte) : Option (Option PeriodicityFrame) := do
  match ← getVarintChecked body 0 with
  | none => return none
  | some (period, n1) =>
    match ← getVarintChecked body n1 with
    | none => return none
    | some (toSpike, n2) =>
      if n2 < body.length then
        return some {
          periodDs := UInt64.ofNat period
          secsToSpikeDs := UInt64.ofNat toSpike
          confidenceX255 := ← body[n2]? }
      else return none

/-- One turn of the loop: the frames that index their body read it checked, the
others only through `get_varint`. -/
def ControlPacket.acceptChecked (p : ControlPacket) (ty : Byte) (body : List Byte) :
    Option ControlPacket :=
  match FrameType.fromU8 ty with
  | some .loss => return { p with loss := (← LossFrame.parseChecked body).or p.loss }
  | some .ring => return { p with ring := (← RingFrame.parseChecked body).or p.ring }
  | some .path => return { p with path := (← PathFrame.parseChecked body).or p.path }
  | some .link => return { p with link := (← LinkFrame.parseChecked body).or p.link }
  | some .bwProbe =>
    return { p with bwProbe := p.bwProbe ++ (← BwProbeFrame.parseChecked body).toList }
  | some .trace => return { p with trace := p.trace ++ (← TraceFrame.parseChecked body).toList }
  | some .periodicity =>
    return { p with periodicity := (← PeriodicityFrame.parseChecked body).or p.periodicity }
  | _ => some (p.accept ty body)

/-- `while pos < buf.len()` by position, as written; `none` is a read out of bounds or
a loop that has not ended after `fuel` turns. -/
def decodeLoop : Nat → List Byte → Nat → ControlPacket → Option ControlPacket
  | 0, buf, pos, p => if pos < buf.length then none else some p
  | fuel + 1, buf, pos, p =>
    if pos < buf.length then do
      let ty ← buf[pos]?
      match ← getVarintChecked buf (pos + 1) with
      | none => some p
      | some (len, next) =>
        if buf.length < next + len then some p
        else
          let body ← slice? buf next (next + len)
          decodeLoop fuel buf (next + len) (← p.acceptChecked ty body)
    else some p

def decodeControlChecked (buf : List Byte) : Option (Option ControlPacket) :=
  if buf.isEmpty then some none
  else do
    if (← buf[0]?) == pktControl then return some (← decodeLoop buf.length buf 1 .new)
    else return none

theorem varintLen_pos (first : Byte) : 1 ≤ 1 <<< (first.bits >>> 6).toNat := by
  rw [Nat.shiftLeft_eq, one_mul]
  exact Nat.two_pow_pos _

@[simp] theorem getVarintChecked_eq (buf : List Byte) (pos : Nat) :
    getVarintChecked buf pos = some (getVarint buf pos) := by
  unfold getVarintChecked getVarint
  cases hfirst : buf[pos]? with
  | none => rfl
  | some first =>
    have hlen := varintLen_pos first
    dsimp only [bind_some]
    split
    · rfl
    next hfits =>
    rw [slice?_eq (by omega) (by omega), Nat.add_sub_add_left]
    rfl

theorem getVarint_next {buf : List Byte} {pos len next : Nat}
    (h : getVarint buf pos = some (len, next)) : pos < next ∧ next ≤ buf.length := by
  obtain ⟨first, -, h⟩ := bind_eq_some_iff.mp h
  have hlen := varintLen_pos first
  dsimp only at h
  split at h
  · cases h
  next hfits =>
  cases h
  omega

section
variable (body : List Byte)
include body

theorem LossFrame.parseChecked_eq : LossFrame.parseChecked body = some (LossFrame.parse body) := by
  rcases body with _ | ⟨b0, _ | ⟨b1, _ | ⟨b2, rest⟩⟩⟩ <;> try rfl
  cases rest <;> rfl

theorem RingFrame.parseChecked_eq : RingFrame.parseChecked body = some (RingFrame.parse body) := by
  rcases body with _ | ⟨b0, _ | ⟨b1, _ | ⟨b2, _ | ⟨b3, _ | ⟨b4, _ | ⟨b5, rest⟩⟩⟩⟩⟩⟩ <;> rfl

theorem PathFrame.parseChecked_eq : PathFrame.parseChecked body = some (PathFrame.parse body) := by
  rcases body with _ | ⟨b0, _ | ⟨b1, _ | ⟨b2, rest⟩⟩⟩ <;> try rfl
  simp [parseChecked, parse]

theorem LinkFrame.parseChecked_eq : LinkFrame.parseChecked body = some (LinkFrame.parse body) := by
  rcases body with _ | ⟨b0, _ | ⟨b1, rest⟩⟩ <;> rfl

theorem BwProbeFrame.parseChecked_eq :
    BwProbeFrame.parseChecked body = some (BwProbeFrame.parse body) := by
  rcases body with _ | ⟨b0, _ | ⟨b1, rest⟩⟩ <;> try rfl
  cases h : getVarint (b0 :: b1 :: rest) 2 <;> simp [parseChecked, parse, h]

theorem TraceFrame.parseChecked_eq :
    TraceFrame.parseChecked body = some (TraceFrame.parse body) := by
  rcases body with _ | ⟨b0, _ | ⟨b1, rest⟩⟩ <;> rfl

theorem PeriodicityFrame.parseChecked_eq :
    PeriodicityFrame.parseChecked body = some (PeriodicityFrame.parse body) := by
  cases hfirst : getVarint body 0 with
  | none => simp [parseChecked, parse, hfirst]
  | some first =>
    cases hsecond : getVarint body first.2 with
    | none => simp [parseChecked, parse, hfirst, hsecond]
    | some second =>
      by_cases hin : second.2 < body.length
      · simp [parseChecked, parse, hfirst, hsecond, hin]
      · simp [parseChecked, parse, hfirst, hsecond, hin]

end

/-- No frame reads its body out of bounds. -/
theorem ControlPacket.acceptChecked_eq (p : ControlPacket) (ty : Byte) (body : List Byte) :
    p.acceptChecked ty body = some (p.accept ty body) := by
  unfold acceptChecked accept
  cases FrameType.fromU8 ty with
  | none => rfl
  | some kind =>
    cases kind <;>
      simp [LossFrame.parseChecked_eq, RingFrame.parseChecked_eq, PathFrame.parseChecked_eq,
        LinkFrame.parseChecked_eq, BwProbeFrame.parseChecked_eq, TraceFrame.parseChecked_eq,
        PeriodicityFrame.parseChecked_eq]

theorem getVarint_drop (buf : List Byte) (pos : Nat) :
    getVarint buf pos = (getVarint (buf.drop pos) 0).map fun (v, next) => (v, pos + next) := by
  unfold getVarint
  rw [getElem?_drop, add_zero]
  cases hfirst : buf[pos]? with
  | none => rfl
  | some first =>
    have hpos := (List.getElem_of_getElem? hfirst).1
    dsimp only [bind_some]
    rw [length_drop, drop_drop, zero_add, zero_add]
    split
    · next hshort => rw [if_pos (by omega), map_none]
    · next hfits => rw [if_neg (by omega), map_some]

/-- With as many turns as there are bytes left the loop ends, and no turn of it reads
out of bounds. -/
theorem decodeLoop_eq (fuel : Nat) (buf : List Byte) (pos : Nat) (hfuel : buf.length ≤ pos + fuel)
    (p : ControlPacket) :
    decodeLoop fuel buf pos p = some (decodeFrames fuel (buf.drop pos) p) := by
  induction fuel generalizing pos p with
  | zero => rw [decodeLoop, if_neg (by omega), decodeFrames]
  | succ fuel ih =>
    rw [decodeLoop]
    by_cases hpos : pos < buf.length
    · rw [if_pos hpos, drop_eq_getElem_cons hpos, decodeFrames, getElem?_eq_getElem hpos,
        getVarintChecked_eq, getVarint_drop]
      cases hlen : getVarint (buf.drop (pos + 1)) 0 with
      | none => rfl
      | some r =>
        obtain ⟨len, next⟩ := r
        have hnext := (getVarint_next hlen).2
        rw [length_drop] at hnext
        simp only [map_some, bind_eq_bind, bind_some, length_drop]
        by_cases hpast : buf.length < pos + 1 + next + len
        · rw [if_pos hpast, if_pos (by omega)]
        rw [if_neg hpast, if_neg (by omega), slice?_eq (by omega) (by omega),
          Nat.add_sub_cancel_left, bind_some, acceptChecked_eq,
          bind_some, ih _ (by omega), drop_drop, drop_drop, add_assoc _ next]
    · rw [if_neg hpos, drop_eq_nil_of_le (by omega), decodeFrames]

theorem decodeControlChecked_eq (buf : List Byte) :
    decodeControlChecked buf = some (decodeControl buf) := by
  cases buf with
  | nil => rfl
  | cons tag rest =>
    have hloop := decodeLoop_eq (tag :: rest).length (tag :: rest) 1 (by omega) .new
    by_cases htag : tag = pktControl
    · subst htag
      rw [decodeControlChecked, hloop]
      rfl
    · simp [decodeControlChecked, decodeControl, isControl, htag]

/-- Frames a decoder does not know change nothing at any frame boundary, and whatever
the bytes are, the loop ends without a read out of bounds. -/
theorem decodeControl_forward_compatible :
    (∀ before unknown after : List RawFrame, (∀ f ∈ unknown, FrameType.fromU8 f.ty = none) →
      decodeControl (pktControl :: (before ++ (unknown ++ after)).flatMap bytes) =
        decodeControl (pktControl :: (before ++ after).flatMap bytes)) ∧
    ∀ buf : List Byte, decodeControlChecked buf = some (decodeControl buf) :=
  ⟨fun before unknown after => decodeControl_insert before after unknown, decodeControlChecked_eq⟩

/-- A body that looks like a link frame, its length in the two-byte form. -/
def disguised : RawFrame where
  ty := byte 0x7F
  len := [byte 0x40, byte 4]
  body := [byte 0x07, byte 2, byte 1, byte 9]
  complete := by decide

/-- Between a packet's two frames the disguised one is skipped. -/
theorem decodeControl_forward_compatible_disguised : decodeControl
        (pktControl :: ([written (byte 0x01) [byte 5] (by decide)] ++
          ([disguised] ++ [written (byte 0x09) [byte 7] (by decide)])).flatMap
            bytes) = some { new with ack := some ⟨5⟩, pmtu := some ⟨7⟩ } :=
  (decodeControl_forward_compatible.1 _ [disguised] _ (by decide)).trans (by decide +kernel)

def padType : Byte := byte 0x7F

/-- Append one unknown frame that brings the datagram up to `targetLen` bytes; nothing
where the gap does not hold its header and a body of 64 bytes. -/
def padControlTo (buf : List Byte) (targetLen : Nat) : List Byte :=
  let header := 3
  if targetLen < buf.length + header + 64 then buf
  else
    let bodyLen := targetLen - buf.length - header
    buf ++ padType :: (putVarint bodyLen ++ replicate bodyLen (byte 0))

theorem putVarint_two (hlow : 64 ≤ v) : (putVarint v).length = 2 ↔ v < 2 ^ 14 := by
  have hmin : min v max62 < 2 ^ 14 ↔ v < 2 ^ 14 := by
    rw [max62]
    omega
  have hsix : ¬ min v max62 < 2 ^ 6 := by
    rw [max62]
    omega
  unfold putVarint
  rw [if_neg hsix, ← hmin]
  split
  · next h => simpa [beBytes_length] using h
  · next h =>
    split <;> simpa [beBytes_length] using h

variable (p : ControlPacket)

theorem decodeControl_pad (hfits : bodyLen ≤ max62) : decodeControl (encodeControl p ++
        padType :: (putVarint bodyLen ++ replicate bodyLen (byte 0))) =
      decodeControl (encodeControl p) := by
  obtain ⟨fs, hbytes, -⟩ := exists_raw p.frames (frames_short p)
  have hpad : (written padType (replicate bodyLen (byte 0))
      (by rwa [length_replicate])).bytes =
        padType :: (putVarint bodyLen ++ replicate bodyLen (byte 0)) := by
    simp [bytes, written]
  have hinsert := decodeControl_insert fs [] [.written padType (replicate bodyLen (byte 0))
    (by rwa [length_replicate])] (by simp only [mem_singleton, forall_eq]; rfl)
  rw [append_nil, append_nil, flatMap_append, flatMap_singleton, hpad, hbytes] at hinsert
  exact hinsert

/-- The datagram stays as it was or gets exactly the length asked for, and decodes to
the same packet, just where the pad body's length fits the two-byte varint the header
constant counts. -/
theorem padControlTo_exact_iff (p : ControlPacket) (targetLen : Nat) :
    ((targetLen < (encodeControl p).length + 3 + 64 ∧
          padControlTo (encodeControl p) targetLen = encodeControl p ∨
        (padControlTo (encodeControl p) targetLen).length = targetLen) ∧
      decodeControl (padControlTo (encodeControl p) targetLen) = decodeControl (encodeControl p)) ↔
    targetLen < (encodeControl p).length + 3 + 2 ^ 14 := by
  rw [padControlTo]
  by_cases hsmall : targetLen < (encodeControl p).length + 3 + 64
  · rw [if_pos hsmall]
    refine ⟨fun _ => by omega, fun _ => ⟨.inl ⟨hsmall, rfl⟩, rfl⟩⟩
  rw [if_neg hsmall]
  have htwo := putVarint_two (by omega : 64 ≤ targetLen - (encodeControl p).length - 3)
  simp only [length_append, length_cons, length_replicate]
  constructor
  · rintro ⟨⟨hlt, -⟩ | hlen, -⟩
    · exact absurd hlt hsmall
    · have hlt := htwo.mp (by omega)
      omega
  · intro hlt
    exact ⟨.inr (by omega), decodeControl_pad p (by rw [max62]; omega)⟩

/-- Asked for 16388 bytes, the empty packet's datagram gets 16390. -/
theorem padControlTo_overshoots : ¬ (padControlTo (encodeControl .new) 16388 = encodeControl .new ∨
      (padControlTo (encodeControl .new) 16388).length = 16388) := by
  have hlen : (encodeControl .new).length = 1 := by decide
  have hvarint : (putVarint (16388 - 1 - 3)).length = 4 := by decide
  have hpad : (padControlTo (encodeControl .new) 16388).length = 16390 := by
    rw [padControlTo]
    rw [hlen, if_neg (by decide), length_append, length_cons, length_append,
      hvarint, length_replicate, hlen]
  rintro (hsame | hexact)
  · rw [hsame, hlen] at hpad
    exact absurd hpad (by decide)
  · rw [hpad] at hexact
    exact absurd hexact (by decide)

/-- The frames `is_empty` asks about. -/
def ControlPacket.isEmpty (p : ControlPacket) : Bool :=
  p.ack.isNone && p.nak.isNone && p.loss.isNone && p.timing.isNone && p.ring.isNone &&
    p.path.isNone && p.link.isNone && p.lossAcct.isNone && p.pmtu.isNone && p.bwProbe.isEmpty &&
    p.trace.isEmpty

/-- Some frame that `is_empty` asks about is there. -/
def ControlPacket.EarlierFrame : Prop :=
  p.ack ≠ none ∨ p.nak ≠ none ∨ p.loss ≠ none ∨ p.timing ≠ none ∨ p.ring ≠ none ∨ p.path ≠ none ∨
    p.link ≠ none ∨ p.lossAcct ≠ none ∨ p.pmtu ≠ none ∨ p.bwProbe ≠ [] ∨ p.trace ≠ []

/-- None of the frames that `encode_control` writes and `is_empty` does not ask about. -/
def ControlPacket.NoLaterFrame : Prop :=
  p.availBw = none ∧ p.forecast = none ∧ p.periodicity = none ∧ p.sessionChallenge = none ∧
    p.sessionResponse = none ∧ p.sessionAnnounce = none

theorem isEmpty_iff : p.isEmpty = true ↔ ¬p.EarlierFrame := by
  simp [ControlPacket.isEmpty, ControlPacket.EarlierFrame, and_assoc]

theorem frames_eq_nil : p.frames = [] ↔ ¬p.EarlierFrame ∧ p.NoLaterFrame := by
  simp [ControlPacket.frames, ControlPacket.EarlierFrame, ControlPacket.NoLaterFrame, and_assoc]

theorem encodeControl_eq_tag : encodeControl p = [pktControl] ↔ p.frames = [] := by
  rw [encodeControl]
  cases p.frames <;> simp [putFrame]

/-- `is_empty` tells a packet that emits no frame from one that does, unless all the
packet carries is frames it does not ask about. -/
theorem isEmpty_iff_noFrame (p : ControlPacket) :
    (p.isEmpty = true ↔ encodeControl p = [pktControl]) ↔ (p.EarlierFrame ∨ p.NoLaterFrame) := by
  rw [encodeControl_eq_tag, frames_eq_nil, isEmpty_iff]
  by_cases hearlier : p.EarlierFrame <;> simp [hearlier]

/-- A packet with nothing but the sender's epoch counts as empty and is written. -/
theorem isEmpty_announce : ({ new with sessionAnnounce := some 1 } : ControlPacket).isEmpty = true ∧
      encodeControl { new with sessionAnnounce := some 1 } ≠ [pktControl] := by
  decide

end SubEtha.Control
