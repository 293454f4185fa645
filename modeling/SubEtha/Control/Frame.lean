import SubEtha.Wire

namespace SubEtha.Control
open Option List

def max62 : Nat := 2 ^ 62 - 1

/-- `n.to_be_bytes()` of a `width`-byte integer. -/
def beBytes (width n : Nat) : List Byte := (leBytes width n).reverse

def orBits (tag n : Nat) : Byte := ⟨(byte tag).bits ||| (byte n).bits⟩

/-- The smallest QUIC varint form of a `u64`; more than 62 bits are clamped. -/
def putVarint (v : Nat) : List Byte :=
  let v := min v max62
  if v < 2 ^ 6 then [byte v]
  else if v < 2 ^ 14 then orBits 0x40 (v >>> 8) :: beBytes 1 v
  else if v < 2 ^ 30 then orBits 0x80 (v >>> 24) :: beBytes 3 v
  else orBits 0xC0 (v >>> 56) :: beBytes 7 v

/-- The varint at `pos` and the position behind it; `none` where the buffer is too
short for the encoded length. -/
def getVarint (buf : List Byte) (pos : Nat) : Option (Nat × Nat) :=
  (buf[pos]?).bind fun first =>
    let len := 1 <<< (first.bits >>> 6).toNat
    if buf.length < pos + len then none
    else
      let bytes := (buf.drop (pos + 1)).take (len - 1)
      some (bytes.foldl (fun v b => v <<< 8 ||| b.toNat) (first.bits &&& 0x3F).toNat, pos + len)

theorem getVarint_append (h : getVarint buf pos = some r) (rest : List Byte) :
    getVarint (buf ++ rest) pos = some r := by
  obtain ⟨first, hfirst, h⟩ := bind_eq_some_iff.mp h
  dsimp only at h
  have hpos := (List.getElem_of_getElem? hfirst).1
  rw [getVarint, getElem?_append_left hpos, hfirst, bind_some]
  split at h
  · cases h
  next hfits =>
  rw [if_neg (by rw [length_append]; omega), ← h, drop_append_of_le_length (by omega),
    take_append_of_le_length (by rw [length_drop]; omega)]

theorem beBytes_length (width n : Nat) : (beBytes width n).length = width := by
  simp [beBytes, length_reverse]

theorem beBytes_succ (width n : Nat) :
    beBytes (width + 1) n = beBytes width (n / 256) ++ [byte n] := by
  rw [beBytes, leBytes, reverse_cons, beBytes]

theorem foldl_beBytes (width n v : Nat) :
    (beBytes width n).foldl (fun v b => v <<< 8 ||| b.toNat) v =
      v * 256 ^ width + n % 256 ^ width := by
  induction width generalizing n with
  | zero => simp [beBytes, leBytes, Nat.mod_one]
  | succ width ih =>
    have hlow : n % 256 < 2 ^ 8 := Nat.mod_lt _ (by decide)
    rw [beBytes_succ, foldl_append, ih, foldl_cons, foldl_nil, toNat_byte,
      ← Nat.shiftLeft_add_eq_or_of_lt hlow, Nat.shiftLeft_eq, (by decide : 2 ^ 8 = 256),
      Nat.pow_succ', Nat.mod_mul, Nat.add_mul, mul_assoc, mul_comm (256 ^ width)]
    omega

/-- The two high bits give the form, the six low bits the head of the value. -/
theorem orBits_fields (hform : form < 4) (hhigh : high < 2 ^ 6) :
    ((orBits (form * 64) high).bits >>> 6).toNat = form ∧
      ((orBits (form * 64) high).bits &&& 0x3F).toNat = high := by
  have hall : ∀ form : Fin 4, ∀ high : Fin 64,
      ((orBits (form.val * 64) high.val).bits >>> 6).toNat = form.val ∧
        ((orBits (form.val * 64) high.val).bits &&& 0x3F).toNat = high.val := by
    decide
  exact hall ⟨form, hform⟩ ⟨high, hhigh⟩

theorem getVarint_form (hform : form < 4) (hhigh : high < 2 ^ 6) (hwidth : 1 <<< form = width + 1)
    (pre suf : List Byte) :
    getVarint (pre ++ (orBits (form * 64) high :: beBytes width low ++ suf)) pre.length =
      some (high * 256 ^ width + low % 256 ^ width, pre.length + (width + 1)) := by
  obtain ⟨hlen, hhead⟩ := orBits_fields hform hhigh
  have hfirst : (pre ++ (orBits (form * 64) high :: beBytes width low ++ suf))[pre.length]? =
      some (orBits (form * 64) high) := by
    simp
  have hbytes : ((pre ++ (orBits (form * 64) high :: beBytes width low ++ suf)).drop
      (pre.length + 1)).take width = beBytes width low := by
    rw [← drop_drop, drop_left, cons_append, drop_one, tail_cons, take_left' (beBytes_length ..)]
  rw [getVarint, hfirst, bind_some]
  dsimp only
  rw [hlen, hwidth, Nat.add_sub_cancel, hbytes, foldl_beBytes, hhead, if_neg]
  simp only [length_append, length_cons, beBytes_length]
  omega

theorem putVarint_form (v : Nat) :
    ∃ form high width, form < 4 ∧ high < 2 ^ 6 ∧ 1 <<< form = width + 1 ∧
      high * 256 ^ width + min v max62 % 256 ^ width = min v max62 ∧
      putVarint v = orBits (form * 64) high :: beBytes width (min v max62) := by
  have hmax : min v max62 < 2 ^ 62 := by
    rw [max62]
    omega
  rw [putVarint]
  generalize min v max62 = n at *
  split
  · exact ⟨0, n, 0, by decide, by assumption, rfl, by simp [Nat.mod_one],
      by simp [orBits, beBytes, leBytes, byte]⟩
  split
  · exact ⟨1, n >>> 8, 1, by decide, by rw [Nat.shiftRight_eq_div_pow]; omega, rfl,
      by rw [Nat.shiftRight_eq_div_pow]; omega, rfl⟩
  split
  · exact ⟨2, n >>> 24, 3, by decide, by rw [Nat.shiftRight_eq_div_pow]; omega, rfl,
      by rw [Nat.shiftRight_eq_div_pow]; omega, rfl⟩
  · exact ⟨3, n >>> 56, 7, by decide, by rw [Nat.shiftRight_eq_div_pow]; omega, rfl,
      by rw [Nat.shiftRight_eq_div_pow]; omega, rfl⟩

/-- A varint written anywhere in a buffer reads back, clamped to 62 bits. -/
theorem getVarint_putVarint (v : Nat) (pre suf : List Byte) :
    getVarint (pre ++ (putVarint v ++ suf)) pre.length =
      some (min v max62, (pre ++ putVarint v).length) := by
  obtain ⟨form, high, width, hform, hhigh, hwidth, hvalue, hput⟩ := putVarint_form v
  rw [hput, getVarint_form hform hhigh hwidth, hvalue, length_append, length_cons, beBytes_length]

theorem putVarint_length (v : Nat) : 1 ≤ (putVarint v).length ∧ (putVarint v).length ≤ 8 := by
  obtain ⟨form, high, width, hform, -, hwidth, -, hput⟩ := putVarint_form v
  have hle : 1 <<< form ≤ 8 := by
    rw [Nat.shiftLeft_eq, one_mul]
    exact Nat.pow_le_pow_right (by decide) (by omega : form ≤ 3)
  rw [hput, length_cons, beBytes_length]
  omega

def pktControl : Byte := byte 4

inductive FrameType
  | ack | nak | loss | timing | ring | path | link | lossAcct | pmtu | bwProbe | trace | availBw
  | forecast | periodicity | sessionChallenge | sessionResponse | sessionAnnounce
deriving DecidableEq

namespace FrameType

def toU8 : FrameType → Byte
  | ack => byte 0x01
  | nak => byte 0x02
  | loss => byte 0x03
  | timing => byte 0x04
  | ring => byte 0x05
  | path => byte 0x06
  | link => byte 0x07
  | lossAcct => byte 0x08
  | pmtu => byte 0x09
  | bwProbe => byte 0x0A
  | trace => byte 0x0B
  | availBw => byte 0x0C
  | forecast => byte 0x0D
  | periodicity => byte 0x0E
  | sessionChallenge => byte 0x0F
  | sessionResponse => byte 0x10
  | sessionAnnounce => byte 0x11

def fromU8 (v : Byte) : Option FrameType :=
  match v.toNat with
  | 0x01 => some ack
  | 0x02 => some nak
  | 0x03 => some loss
  | 0x04 => some timing
  | 0x05 => some ring
  | 0x06 => some path
  | 0x07 => some link
  | 0x08 => some lossAcct
  | 0x09 => some pmtu
  | 0x0A => some bwProbe
  | 0x0B => some trace
  | 0x0C => some availBw
  | 0x0D => some forecast
  | 0x0E => some periodicity
  | 0x0F => some sessionChallenge
  | 0x10 => some sessionResponse
  | 0x11 => some sessionAnnounce
  | _ => none

@[simp] theorem fromU8_toU8 (ty : FrameType) : fromU8 ty.toU8 = some ty := by
  cases ty <;> rfl

end FrameType

/-- Two varints in a row, as five of the frames carry them. -/
def getPair (body : List Byte) : Option (Nat × Nat) :=
  (getVarint body 0).bind fun (a, q) => (getVarint body q).map fun (b, _) => (a, b)

structure SessionFrame where
  epoch : UInt32
  nonce : UInt64
deriving DecidableEq

def SessionFrame.body (f : SessionFrame) : List Byte := putVarint f.epoch.toNat ++ putVarint f.nonce.toNat

def SessionFrame.parse (body : List Byte) : Option SessionFrame :=
  (getPair body).map fun (epoch, nonce) =>
    { epoch := UInt32.ofNat epoch, nonce := UInt64.ofNat nonce }

structure AckFrame where
  ackThrough : UInt32
deriving DecidableEq

def AckFrame.body (f : AckFrame) : List Byte := putVarint f.ackThrough.toNat

def AckFrame.parse (body : List Byte) : Option AckFrame :=
  (getVarint body 0).map fun (v, _) => { ackThrough := UInt32.ofNat v }

structure NakFrame where
  block : UInt32
  mask : UInt32
deriving DecidableEq

def NakFrame.body (f : NakFrame) : List Byte := putVarint f.block.toNat ++ putVarint f.mask.toNat

def NakFrame.parse (body : List Byte) : Option NakFrame :=
  (getPair body).map fun (block, mask) =>
    { block := UInt32.ofNat block, mask := UInt32.ofNat mask }

structure LossFrame where
  lossX255 : Byte
  burstinessX255 : Byte
  owdTrendClass : Byte
  lossClass : Byte
deriving DecidableEq

def LossFrame.body (f : LossFrame) : List Byte :=
  [f.lossX255, f.burstinessX255, f.owdTrendClass, f.lossClass]

/-- A three-byte frame has no loss class. -/
def LossFrame.parse : List Byte → Option LossFrame
  | b0 :: b1 :: b2 :: rest =>
    some {
      lossX255 := b0
      burstinessX255 := b1
      owdTrendClass := b2
      lossClass := rest.headD (byte 0) }
  | _ => none

structure TimingFrame where
  sendTs : UInt64
  echoTs : UInt64
deriving DecidableEq

def TimingFrame.body (f : TimingFrame) : List Byte := putVarint f.sendTs.toNat ++ putVarint f.echoTs.toNat

def TimingFrame.parse (body : List Byte) : Option TimingFrame :=
  (getPair body).map fun (sendTs, echoTs) =>
    { sendTs := UInt64.ofNat sendTs, echoTs := UInt64.ofNat echoTs }

structure RingFrame where
  fillPct : Byte
  ringKind : Byte
  producers : Byte
  consumers : Byte
  trend : Byte
  flags : Byte
deriving DecidableEq

def RingFrame.body (f : RingFrame) : List Byte :=
  [f.fillPct, f.ringKind, f.producers, f.consumers, f.trend, f.flags]

def RingFrame.parse : List Byte → Option RingFrame
  | b0 :: b1 :: b2 :: b3 :: b4 :: b5 :: _ =>
    some {
      fillPct := b0
      ringKind := b1
      producers := b2
      consumers := b3
      trend := b4
      flags := b5 }
  | _ => none

structure PathFrame where
  ttl : Byte
  ecn : Byte
  hopCount : Byte
  ceCount : UInt64
  ectCount : UInt64
deriving DecidableEq

def PathFrame.body (f : PathFrame) : List Byte :=
  [f.ttl, f.ecn, f.hopCount] ++ (putVarint f.ceCount.toNat ++ putVarint f.ectCount.toNat)

/-- A counter that is not there reads as 0. -/
def PathFrame.parse : List Byte → Option PathFrame
  | b0 :: b1 :: b2 :: rest =>
    let body := b0 :: b1 :: b2 :: rest
    let ce := (getVarint body 3).getD (0, 3)
    let ect := (getVarint body ce.2).getD (0, ce.2)
    some {
      ttl := b0
      ecn := b1
      hopCount := b2
      ceCount := UInt64.ofNat ce.1
      ectCount := UInt64.ofNat ect.1 }
  | _ => none

structure LinkFrame where
  cls : Byte
  quality : Byte
deriving DecidableEq

def LinkFrame.body (f : LinkFrame) : List Byte := [f.cls, f.quality]

def LinkFrame.parse : List Byte → Option LinkFrame
  | b0 :: b1 :: _ => some { cls := b0, quality := b1 }
  | _ => none

structure LossAcctFrame where
  seq : UInt32
  lastRecvSeq : UInt32
deriving DecidableEq

def LossAcctFrame.body (f : LossAcctFrame) : List Byte :=
  putVarint f.seq.toNat ++ putVarint f.lastRecvSeq.toNat

def LossAcctFrame.parse (body : List Byte) : Option LossAcctFrame :=
  (getPair body).map fun (seq, lrs) =>
    { seq := UInt32.ofNat seq, lastRecvSeq := UInt32.ofNat lrs }

structure PmtuFrame where
  pmtu : UInt16
deriving DecidableEq

def PmtuFrame.body (f : PmtuFrame) : List Byte := putVarint f.pmtu.toNat

def PmtuFrame.parse (body : List Byte) : Option PmtuFrame :=
  (getVarint body 0).map fun (v, _) => { pmtu := UInt16.ofNat v }

structure BwProbeFrame where
  probeId : Byte
  idx : Byte
  sendTs : UInt64
deriving DecidableEq

def BwProbeFrame.body (f : BwProbeFrame) : List Byte := [f.probeId, f.idx] ++ putVarint f.sendTs.toNat

def BwProbeFrame.parse : List Byte → Option BwProbeFrame
  | b0 :: b1 :: rest =>
    (getVarint (b0 :: b1 :: rest) 2).map fun (sendTs, _) =>
      { probeId := b0, idx := b1, sendTs := UInt64.ofNat sendTs }
  | _ => none

structure TraceFrame where
  hopTtl : Byte
  probeId : Byte
deriving DecidableEq

def TraceFrame.body (f : TraceFrame) : List Byte := [f.hopTtl, f.probeId]

def TraceFrame.parse : List Byte → Option TraceFrame
  | b0 :: b1 :: _ => some { hopTtl := b0, probeId := b1 }
  | _ => none

structure AvailBwFrame where
  availKbps : UInt64
  capacityKbps : UInt64
deriving DecidableEq

def AvailBwFrame.body (f : AvailBwFrame) : List Byte :=
  putVarint f.availKbps.toNat ++ putVarint f.capacityKbps.toNat

def AvailBwFrame.parse (body : List Byte) : Option AvailBwFrame :=
  (getPair body).map fun (avail, cap) =>
    { availKbps := UInt64.ofNat avail, capacityKbps := UInt64.ofNat cap }

structure ForecastFrame where
  forecastKbps : UInt64
deriving DecidableEq

def ForecastFrame.body (f : ForecastFrame) : List Byte := putVarint f.forecastKbps.toNat

def ForecastFrame.parse (body : List Byte) : Option ForecastFrame :=
  (getVarint body 0).map fun (fc, _) => { forecastKbps := UInt64.ofNat fc }

structure PeriodicityFrame where
  periodDs : UInt64
  secsToSpikeDs : UInt64
  confidenceX255 : Byte
deriving DecidableEq

def PeriodicityFrame.body (f : PeriodicityFrame) : List Byte :=
  putVarint f.periodDs.toNat ++ (putVarint f.secsToSpikeDs.toNat ++ [f.confidenceX255])

def PeriodicityFrame.parse (body : List Byte) : Option PeriodicityFrame :=
  (getVarint body 0).bind fun (period, n1) =>
    (getVarint body n1).bind fun (toSpike, n2) =>
      (body[n2]?).map fun confidence => {
        periodDs := UInt64.ofNat period
        secsToSpikeDs := UInt64.ofNat toSpike
        confidenceX255 := confidence }

def announceBody (epoch : UInt32) : List Byte := putVarint epoch.toNat

def parseAnnounce (body : List Byte) : Option UInt32 :=
  (getVarint body 0).map fun (epoch, _) => UInt32.ofNat epoch

end SubEtha.Control
