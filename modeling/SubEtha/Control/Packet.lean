import SubEtha.Control.Frame

namespace SubEtha.Control
open List

structure ControlPacket where
  ack : Option AckFrame
  nak : Option NakFrame
  loss : Option LossFrame
  timing : Option TimingFrame
  ring : Option RingFrame
  path : Option PathFrame
  link : Option LinkFrame
  lossAcct : Option LossAcctFrame
  pmtu : Option PmtuFrame
  bwProbe : List BwProbeFrame
  trace : List TraceFrame
  availBw : Option AvailBwFrame
  forecast : Option ForecastFrame
  periodicity : Option PeriodicityFrame
  sessionChallenge : Option SessionFrame
  sessionResponse : Option SessionFrame
  sessionAnnounce : Option UInt32
deriving DecidableEq

def ControlPacket.new : ControlPacket where
  ack := none
  nak := none
  loss := none
  timing := none
  ring := none
  path := none
  link := none
  lossAcct := none
  pmtu := none
  bwProbe := []
  trace := []
  availBw := none
  forecast := none
  periodicity := none
  sessionChallenge := none
  sessionResponse := none
  sessionAnnounce := none

abbrev Frame := FrameType × List Byte

def ControlPacket.frames (p : ControlPacket) : List Frame :=
  flatten [
    p.ack.toList.map fun f => (.ack, f.body),
    p.nak.toList.map fun f => (.nak, f.body),
    p.loss.toList.map fun f => (.loss, f.body),
    p.timing.toList.map fun f => (.timing, f.body),
    p.ring.toList.map fun f => (.ring, f.body),
    p.path.toList.map fun f => (.path, f.body),
    p.link.toList.map fun f => (.link, f.body),
    p.lossAcct.toList.map fun f => (.lossAcct, f.body),
    p.pmtu.toList.map fun f => (.pmtu, f.body),
    p.bwProbe.map fun f => (.bwProbe, f.body),
    p.trace.map fun f => (.trace, f.body),
    p.availBw.toList.map fun f => (.availBw, f.body),
    p.forecast.toList.map fun f => (.forecast, f.body),
    p.periodicity.toList.map fun f => (.periodicity, f.body),
    p.sessionChallenge.toList.map fun f => (.sessionChallenge, f.body),
    p.sessionResponse.toList.map fun f => (.sessionResponse, f.body),
    p.sessionAnnounce.toList.map fun epoch => (.sessionAnnounce, announceBody epoch)]

def putFrame (ty : FrameType) (body : List Byte) : List Byte :=
  ty.toU8 :: (putVarint body.length ++ body)

def encodeControl (p : ControlPacket) : List Byte :=
  pktControl :: p.frames.flatMap fun (ty, body) => putFrame ty body

/-- Take in one frame; one too short for its type, or of an unknown type, is skipped. -/
def ControlPacket.accept (p : ControlPacket) (ty : Byte) (body : List Byte) : ControlPacket :=
  match FrameType.fromU8 ty with
  | some .ack => { p with ack := (AckFrame.parse body).or p.ack }
  | some .nak => { p with nak := (NakFrame.parse body).or p.nak }
  | some .loss => { p with loss := (LossFrame.parse body).or p.loss }
  | some .timing => { p with timing := (TimingFrame.parse body).or p.timing }
  | some .ring => { p with ring := (RingFrame.parse body).or p.ring }
  | some .path => { p with path := (PathFrame.parse body).or p.path }
  | some .link => { p with link := (LinkFrame.parse body).or p.link }
  | some .lossAcct => { p with lossAcct := (LossAcctFrame.parse body).or p.lossAcct }
  | some .pmtu => { p with pmtu := (PmtuFrame.parse body).or p.pmtu }
  | some .bwProbe => { p with bwProbe := p.bwProbe ++ (BwProbeFrame.parse body).toList }
  | some .trace => { p with trace := p.trace ++ (TraceFrame.parse body).toList }
  | some .availBw => { p with availBw := (AvailBwFrame.parse body).or p.availBw }
  | some .forecast => { p with forecast := (ForecastFrame.parse body).or p.forecast }
  | some .periodicity => { p with periodicity := (PeriodicityFrame.parse body).or p.periodicity }
  | some .sessionChallenge =>
    { p with sessionChallenge := (SessionFrame.parse body).or p.sessionChallenge }
  | some .sessionResponse =>
    { p with sessionResponse := (SessionFrame.parse body).or p.sessionResponse }
  | some .sessionAnnounce =>
    { p with sessionAnnounce := (parseAnnounce body).or p.sessionAnnounce }
  | none => p

/-- The loop over the rest of the buffer: a frame that runs past its end stops it.
Every turn takes at least two bytes, so as many turns as bytes are enough. -/
def decodeFrames : Nat → List Byte → ControlPacket → ControlPacket
  | 0, _, p => p
  | _ + 1, [], p => p
  | fuel + 1, ty :: rest, p =>
    match getVarint rest 0 with
    | none => p
    | some (len, next) =>
      if rest.length < next + len then p
      else
        decodeFrames fuel (rest.drop (next + len)) (p.accept ty ((rest.drop next).take len))

def isControl (buf : List Byte) : Bool := buf.head? == some pktControl

def decodeControl (buf : List Byte) : Option ControlPacket :=
  if isControl buf then some (decodeFrames buf.length (buf.drop 1) .new) else none

/-- A complete frame on the wire, its length in any of the four varint widths. -/
structure RawFrame where
  ty : Byte
  len : List Byte
  body : List Byte
  complete : getVarint len 0 = some (body.length, len.length)

namespace RawFrame

def bytes (f : RawFrame) : List Byte := f.ty :: (f.len ++ f.body)

/-- A type tag and a body behind the smallest form of its length. -/
def written (ty : Byte) (body : List Byte) (hlen : body.length ≤ max62) : RawFrame where
  ty := ty
  len := putVarint body.length
  body := body
  complete := by
    have hget := getVarint_putVarint body.length [] []
    rwa [append_nil, Nat.min_eq_left hlen] at hget

end RawFrame

theorem decodeFrames_bytes (fuel : Nat) (f : RawFrame) (rest : List Byte) (p : ControlPacket) :
    decodeFrames (fuel + 1) (f.bytes ++ rest) p =
      decodeFrames fuel rest (p.accept f.ty f.body) := by
  have hget := getVarint_append f.complete (f.body ++ rest)
  rw [RawFrame.bytes, cons_append, append_assoc, decodeFrames, hget]
  dsimp only
  rw [if_neg (by simp only [length_append]; omega), ← drop_drop, drop_left, drop_left, take_left]

theorem decodeFrames_flatMap (fs : List RawFrame) (fuel : Nat) (hfuel : fs.length ≤ fuel)
    (p : ControlPacket) : decodeFrames fuel (fs.flatMap RawFrame.bytes) p =
      fs.foldl (fun p f => p.accept f.ty f.body) p := by
  induction fs generalizing fuel p with
  | nil => cases fuel <;> rfl
  | cons f fs ih =>
    obtain ⟨fuel, rfl⟩ : ∃ n, fuel = n + 1 := ⟨fuel - 1, by rw [length_cons] at hfuel; omega⟩
    rw [flatMap_cons, foldl_cons, decodeFrames_bytes]
    exact ih fuel (Nat.le_of_succ_le_succ hfuel) _

theorem length_le_flatMap (fs : List RawFrame) :
    fs.length ≤ (fs.flatMap RawFrame.bytes).length := by
  induction fs with
  | nil => exact Nat.zero_le _
  | cons f fs ih =>
    have hhead : 1 ≤ f.bytes.length := Nat.le_add_left ..
    rw [flatMap_cons, length_append, length_cons, add_comm]
    exact Nat.add_le_add hhead ih

/-- A datagram of complete frames decodes to what taking in each of them gives. -/
theorem decodeControl_flatMap (fs : List RawFrame) :
    decodeControl (pktControl :: fs.flatMap RawFrame.bytes) =
      some (fs.foldl (fun p f => p.accept f.ty f.body) .new) := by
  have htag : isControl (pktControl :: fs.flatMap RawFrame.bytes) = true := by simp [isControl]
  rw [decodeControl, if_pos htag]
  exact congrArg some (decodeFrames_flatMap fs _ (Nat.le_succ_of_le (length_le_flatMap fs)) .new)

/-- What `encodeControl` writes behind the tag is a sequence of complete frames. -/
theorem exists_raw (frames : List Frame) (hlen : ∀ f ∈ frames, f.2.length ≤ max62) :
    ∃ fs : List RawFrame,
      fs.flatMap RawFrame.bytes = frames.flatMap (fun (ty, body) => putFrame ty body) ∧
      fs.map (fun f => (f.ty, f.body)) = frames.map fun f => (f.1.toU8, f.2) := by
  induction frames with
  | nil => exact ⟨[], rfl, rfl⟩
  | cons f frames ih =>
    obtain ⟨fs, hbytes, hparts⟩ := ih fun g hg => hlen g (mem_cons_of_mem _ hg)
    refine ⟨.written f.1.toU8 f.2 (hlen f (mem_cons_self ..)) :: fs, ?_, ?_⟩
    · rw [flatMap_cons, flatMap_cons, hbytes]
      rfl
    · rw [map_cons, map_cons, hparts]
      rfl

open Option ControlPacket

def clamp62 (v : UInt64) : UInt64 := UInt64.ofNat (min v.toNat (2 ^ 62 - 1))

theorem ofNat_min_u32 (v : UInt32) : UInt32.ofNat (min v.toNat max62) = v := by
  have hlt := v.toNat_lt
  rw [Nat.min_eq_left (by rw [max62]; omega), UInt32.ofNat_toNat]

theorem ofNat_min_u16 (v : UInt16) : UInt16.ofNat (min v.toNat max62) = v := by
  have hlt := v.toNat_lt
  rw [Nat.min_eq_left (by rw [max62]; omega), UInt16.ofNat_toNat]

theorem getVarint_first (v : Nat) (suf : List Byte) :
    getVarint (putVarint v ++ suf) 0 = some (min v max62, (putVarint v).length) :=
  getVarint_putVarint v [] suf

theorem getVarint_last (v : Nat) (pre : List Byte) : getVarint (pre ++ putVarint v) pre.length =
      some (min v max62, (pre ++ putVarint v).length) := by
  have h := getVarint_putVarint v pre []
  rwa [append_nil] at h

theorem getVarint_only (v : Nat) :
    getVarint (putVarint v) 0 = some (min v max62, (putVarint v).length) :=
  getVarint_last v []

theorem getPair_putVarint (a b : Nat) :
    getPair (putVarint a ++ putVarint b) = some (min a max62, min b max62) := by
  rw [getPair, getVarint_first, bind_some]
  dsimp only
  rw [getVarint_last]
  rfl

def SessionFrame.clamped (f : SessionFrame) : SessionFrame := { f with nonce := clamp62 f.nonce }

def TimingFrame.clamped (f : TimingFrame) : TimingFrame :=
  { sendTs := clamp62 f.sendTs, echoTs := clamp62 f.echoTs }

def PathFrame.clamped (f : PathFrame) : PathFrame :=
  { f with ceCount := clamp62 f.ceCount, ectCount := clamp62 f.ectCount }

def BwProbeFrame.clamped (f : BwProbeFrame) : BwProbeFrame := { f with sendTs := clamp62 f.sendTs }

def AvailBwFrame.clamped (f : AvailBwFrame) : AvailBwFrame :=
  { availKbps := clamp62 f.availKbps, capacityKbps := clamp62 f.capacityKbps }

def ForecastFrame.clamped (f : ForecastFrame) : ForecastFrame :=
  { forecastKbps := clamp62 f.forecastKbps }

def PeriodicityFrame.clamped (f : PeriodicityFrame) : PeriodicityFrame :=
  { f with periodDs := clamp62 f.periodDs, secsToSpikeDs := clamp62 f.secsToSpikeDs }

@[simp] theorem SessionFrame.parse_body (f : SessionFrame) : parse f.body = some f.clamped := by
  simp only [parse, body, getPair_putVarint, map_some, ofNat_min_u32]
  rfl

@[simp] theorem AckFrame.parse_body (f : AckFrame) : parse f.body = some f := by
  simp [parse, body, getVarint_only, ofNat_min_u32]

@[simp] theorem NakFrame.parse_body (f : NakFrame) : parse f.body = some f := by
  simp [parse, body, getPair_putVarint, ofNat_min_u32]

@[simp] theorem LossFrame.parse_body (f : LossFrame) : parse f.body = some f := rfl

@[simp] theorem TimingFrame.parse_body (f : TimingFrame) : parse f.body = some f.clamped := by
  rw [parse, body, getPair_putVarint]
  rfl

@[simp] theorem RingFrame.parse_body (f : RingFrame) : parse f.body = some f := rfl

@[simp] theorem PathFrame.parse_body (f : PathFrame) : parse f.body = some f.clamped := by
  have hce := getVarint_putVarint f.ceCount.toNat [f.ttl, f.ecn, f.hopCount]
    (putVarint f.ectCount.toNat)
  have hect := getVarint_last f.ectCount.toNat
    ([f.ttl, f.ecn, f.hopCount] ++ putVarint f.ceCount.toNat)
  rw [append_assoc] at hect
  simp only [cons_append, nil_append, length_cons, length_nil] at hce hect
  simp only [parse, body, cons_append, nil_append, hce, getD_some, hect]
  rfl

@[simp] theorem LinkFrame.parse_body (f : LinkFrame) : parse f.body = some f := rfl

@[simp] theorem LossAcctFrame.parse_body (f : LossAcctFrame) : parse f.body = some f := by
  simp [parse, body, getPair_putVarint, ofNat_min_u32]

@[simp] theorem PmtuFrame.parse_body (f : PmtuFrame) : parse f.body = some f := by
  simp [parse, body, getVarint_only, ofNat_min_u16]

@[simp] theorem BwProbeFrame.parse_body (f : BwProbeFrame) : parse f.body = some f.clamped := by
  have hget : getVarint ([f.probeId, f.idx] ++ putVarint f.sendTs.toNat) 2 = _ :=
    getVarint_last f.sendTs.toNat [f.probeId, f.idx]
  change (getVarint ([f.probeId, f.idx] ++ putVarint f.sendTs.toNat) 2).map _ = _
  rw [hget]
  rfl

@[simp] theorem TraceFrame.parse_body (f : TraceFrame) : parse f.body = some f := rfl

@[simp] theorem AvailBwFrame.parse_body (f : AvailBwFrame) : parse f.body = some f.clamped := by
  rw [parse, body, getPair_putVarint]
  rfl

@[simp] theorem ForecastFrame.parse_body (f : ForecastFrame) : parse f.body = some f.clamped := by
  rw [parse, body, getVarint_only]
  rfl

@[simp] theorem PeriodicityFrame.parse_body (f : PeriodicityFrame) :
    parse f.body = some f.clamped := by
  have hspike := getVarint_putVarint f.secsToSpikeDs.toNat (putVarint f.periodDs.toNat)
    [f.confidenceX255]
  rw [parse, body, getVarint_first, bind_some]
  dsimp only
  rw [hspike, bind_some, ← append_assoc]
  rw [getElem?_concat_length]
  rfl

@[simp] theorem parseAnnounce_body (epoch : UInt32) :
    parseAnnounce (announceBody epoch) = some epoch := by
  simp [parseAnnounce, announceBody, getVarint_only, ofNat_min_u32]

/-- The packet with every 64-bit field clamped. -/
def ControlPacket.clamped (p : ControlPacket) : ControlPacket :=
  { p with
    timing := p.timing.map TimingFrame.clamped
    path := p.path.map PathFrame.clamped
    bwProbe := p.bwProbe.map BwProbeFrame.clamped
    availBw := p.availBw.map AvailBwFrame.clamped
    forecast := p.forecast.map ForecastFrame.clamped
    periodicity := p.periodicity.map PeriodicityFrame.clamped
    sessionChallenge := p.sessionChallenge.map SessionFrame.clamped
    sessionResponse := p.sessionResponse.map SessionFrame.clamped }

abbrev ControlPacket.acceptFrame (p : ControlPacket) (f : Frame) : ControlPacket :=
  p.accept f.1.toU8 f.2

theorem foldl_optional {F : Type} (o : Option F) (frame : F → Frame)
    (set : Option F → ControlPacket → ControlPacket) (hnone : ∀ q, set none q = q := by intro; rfl)
    (hsome : ∀ f q, q.acceptFrame (frame f) = set (some f) q := by simp [accept]) (q) :
    (o.toList.map frame).foldl acceptFrame q = set o q := by
  cases o with
  | none => exact (hnone q).symm
  | some f => exact hsome f q

theorem foldl_bwProbe (probes : List BwProbeFrame) (q : ControlPacket) :
    (probes.map fun f => (FrameType.bwProbe, f.body)).foldl acceptFrame q =
      { q with bwProbe := q.bwProbe ++ probes.map BwProbeFrame.clamped } := by
  induction probes generalizing q with
  | nil => simp
  | cons f probes ih =>
    simp [ih, accept, FrameType.fromU8_toU8]

theorem foldl_trace (traces : List TraceFrame) (q : ControlPacket) :
    (traces.map fun f => (FrameType.trace, f.body)).foldl acceptFrame q =
      { q with trace := q.trace ++ traces } := by
  induction traces generalizing q with
  | nil => simp
  | cons f traces ih =>
    simp [ih, accept, FrameType.fromU8_toU8]

theorem foldl_frames (p : ControlPacket) : p.frames.foldl acceptFrame .new = p.clamped := by
  have hack := foldl_optional p.ack (fun f => (.ack, f.body))
    fun o q => { q with ack := o.or q.ack }
  have hnak := foldl_optional p.nak (fun f => (.nak, f.body))
    fun o q => { q with nak := o.or q.nak }
  have hloss := foldl_optional p.loss (fun f => (.loss, f.body))
    fun o q => { q with loss := o.or q.loss }
  have htiming := foldl_optional p.timing (fun f => (.timing, f.body))
    fun o q => { q with timing := (o.map TimingFrame.clamped).or q.timing }
  have hring := foldl_optional p.ring (fun f => (.ring, f.body))
    fun o q => { q with ring := o.or q.ring }
  have hpath := foldl_optional p.path (fun f => (.path, f.body))
    fun o q => { q with path := (o.map PathFrame.clamped).or q.path }
  have hlink := foldl_optional p.link (fun f => (.link, f.body))
    fun o q => { q with link := o.or q.link }
  have hlossAcct := foldl_optional p.lossAcct (fun f => (.lossAcct, f.body))
    fun o q => { q with lossAcct := o.or q.lossAcct }
  have hpmtu := foldl_optional p.pmtu (fun f => (.pmtu, f.body))
    fun o q => { q with pmtu := o.or q.pmtu }
  have havailBw := foldl_optional p.availBw (fun f => (.availBw, f.body))
    fun o q => { q with availBw := (o.map AvailBwFrame.clamped).or q.availBw }
  have hforecast := foldl_optional p.forecast (fun f => (.forecast, f.body))
    fun o q => { q with forecast := (o.map ForecastFrame.clamped).or q.forecast }
  have hperiodicity := foldl_optional p.periodicity (fun f => (.periodicity, f.body))
    fun o q => { q with periodicity := (o.map PeriodicityFrame.clamped).or q.periodicity }
  have hsessionChallenge := foldl_optional p.sessionChallenge (fun f => (.sessionChallenge, f.body))
    fun o q => { q with sessionChallenge := (o.map SessionFrame.clamped).or q.sessionChallenge }
  have hsessionResponse := foldl_optional p.sessionResponse (fun f => (.sessionResponse, f.body))
    fun o q => { q with sessionResponse := (o.map SessionFrame.clamped).or q.sessionResponse }
  have hsessionAnnounce := foldl_optional p.sessionAnnounce
    (fun epoch => (.sessionAnnounce, announceBody epoch))
    fun o q => { q with sessionAnnounce := o.or q.sessionAnnounce }
  simp only [frames, flatten_cons, flatten_nil, append_nil,
    foldl_append, foldl_bwProbe, foldl_trace, hack, hnak, hloss, htiming, hring, hpath, hlink,
    hlossAcct, hpmtu, havailBw, hforecast, hperiodicity, hsessionChallenge, hsessionResponse,
    hsessionAnnounce, new, or_none, nil_append]
  rfl

/-- No body has more than 19 bytes, far from where its length would be clamped. -/
theorem frames_short (p : ControlPacket) : ∀ f ∈ p.frames, f.2.length ≤ max62 := by
  have hone : ∀ v, (putVarint v).length ≤ 8 := fun v => (putVarint_length v).2
  have htwo : ∀ a b, (putVarint a ++ putVarint b).length ≤ 16 := by
    intro a b
    rw [length_append]
    exact Nat.add_le_add (hone a) (hone b)
  have hbound : 19 ≤ max62 := by decide
  intro f hf
  refine le_trans ?_ hbound
  simp only [frames, flatten_cons, flatten_nil, append_nil, mem_append, List.mem_map] at hf
  obtain ⟨f, -, rfl⟩ | ⟨f, -, rfl⟩ | ⟨f, -, rfl⟩ | ⟨f, -, rfl⟩ | ⟨f, -, rfl⟩ | ⟨f, -, rfl⟩ |
    ⟨f, -, rfl⟩ | ⟨f, -, rfl⟩ | ⟨f, -, rfl⟩ | ⟨f, -, rfl⟩ | ⟨f, -, rfl⟩ | ⟨f, -, rfl⟩ |
    ⟨f, -, rfl⟩ | ⟨f, -, rfl⟩ | ⟨f, -, rfl⟩ | ⟨f, -, rfl⟩ | ⟨f, -, rfl⟩ := hf
  -- ack to timing
  · exact le_trans (hone _) (by decide)
  · exact le_trans (htwo ..) (by decide)
  · exact (by decide : 4 ≤ 19)
  · exact le_trans (htwo ..) (by decide)
  -- ring to pmtu
  · exact (by decide : 6 ≤ 19)
  · exact Nat.add_le_add_right (htwo ..) 3
  · exact (by decide : 2 ≤ 19)
  · exact le_trans (htwo ..) (by decide)
  · exact le_trans (hone _) (by decide)
  -- the probe and trace trains
  · exact le_trans (Nat.add_le_add_right (hone _) 2) (by decide)
  · exact (by decide : 2 ≤ 19)
  -- availBw to sessionAnnounce
  · exact le_trans (htwo ..) (by decide)
  · exact le_trans (hone _) (by decide)
  · have hle := htwo f.periodDs.toNat f.secsToSpikeDs.toNat
    rw [PeriodicityFrame.body, ← append_assoc, length_append]
    exact Nat.add_le_add hle (by decide : 1 ≤ 3)
  · exact le_trans (htwo ..) (by decide)
  · exact le_trans (htwo ..) (by decide)
  · exact le_trans (hone _) (by decide)

/-- A packet comes back with every 64-bit field clamped to 62 bits and everything
else as it was. -/
theorem decodeControl_encodeControl (p : ControlPacket) :
    decodeControl (encodeControl p) = some p.clamped := by
  obtain ⟨fs, hbytes, hparts⟩ := exists_raw p.frames (frames_short p)
  have hfold := congrArg (foldl (fun p f => accept p f.1 f.2) .new) hparts
  rw [foldl_map, foldl_map] at hfold
  rw [encodeControl, ← hbytes, decodeControl_flatMap]
  exact congrArg some (hfold.trans (foldl_frames p))

end SubEtha.Control
