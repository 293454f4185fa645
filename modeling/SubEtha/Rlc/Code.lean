import SubEtha.Fec.RsCode
import SubEtha.Lib.Memory

namespace SubEtha.Rlc
open List Lib

def taps : List Nat :=
  [0x01, 0x02, 0x03, 0x05, 0x07, 0x0b, 0x0d, 0x11,
   0x13, 0x17, 0x1d, 0x1f, 0x25, 0x29, 0x2b, 0x2f,
   0x35, 0x3b, 0x3d, 0x43, 0x47, 0x49, 0x4f, 0x53,
   0x59, 0x61, 0x65, 0x67, 0x6b, 0x6d, 0x71, 0x7f,
   0x83, 0x89, 0x8b, 0x95, 0x97, 0x9d, 0xa3, 0xa7,
   0xad, 0xb3, 0xb5, 0xbf, 0xc1, 0xc5, 0xc7, 0xd3,
   0xdf, 0xe3, 0xe5, 0xe9, 0xef, 0xf1, 0xf5, 0xf7,
   0xfb, 0xfd, 0x04, 0x08, 0x0e, 0x16, 0x1a, 0x22]

def densityClasses : Nat := 16

/-- The coefficient of the symbol `tap` places back from the newest in its window. -/
def fixedCoef (tap dt : Nat) : Byte :=
  if taps.length ≤ tap then byte 0
  else if tap % densityClasses ≤ dt then byte (taps.getD tap 0)
  else byte 0

/-- The high nibble of `dt` names the generator, the low one is the density. -/
structure RepairSymbol where
  repairKey : Nat
  firstSourceId : Nat
  windowSize : Nat
  dt : Nat
  payload : List Byte
  deriving DecidableEq

def generatorPublishedTaps : Nat := 1

namespace RepairSymbol

variable (r : RepairSymbol)

def density : Nat := r.dt % 16

def generator : Nat := r.dt / 16

/-- The coefficient of the symbol `off` places after the first in the window. -/
def coefficient (off : Nat) : Byte :=
  fixedCoef (r.windowSize - 1 - off) r.density

def generatorIsReadable : Bool := r.generator = generatorPublishedTaps

def sourceId (off : Nat) : Nat := (r.firstSourceId + off) % 2 ^ 32

end RepairSymbol

structure RlcEncoder where
  window : List (Nat × List Byte)
  windowMax : Nat
  step : Nat
  dt : Nat
  symbolLen : Nat
  nextSourceId : Nat
  sinceLastRepair : Nat
  nextRepairKey : Nat
  codingOn : Bool

namespace RlcEncoder

def new (windowMax step dt symbolLen : Nat) : RlcEncoder where
  window := []
  windowMax := max windowMax 1
  step := max step 1
  dt := min dt 15
  symbolLen := symbolLen
  nextSourceId := 0
  sinceLastRepair := 0
  nextRepairKey := 0
  codingOn := true

variable (e : RlcEncoder)

def trimWindow : RlcEncoder :=
  { e with window := e.window.drop (e.window.length - e.windowMax) }

def setParams (windowMax step dt : Nat) : RlcEncoder :=
  trimWindow { e with windowMax := max windowMax 1, step := max step 1, dt := min dt 15 }

def setCoding (on : Bool) : RlcEncoder := { e with codingOn := on }

/-- The repair over the whole window, newest symbol at tap 0. -/
def emitRepair : RlcEncoder × RepairSymbol :=
  ({ e with nextRepairKey := (e.nextRepairKey + 1) % 2 ^ 32 },
    { repairKey := e.nextRepairKey
      firstSourceId := (e.window.head?.map Prod.fst).getD 0
      windowSize := e.window.length % 2 ^ 16
      dt := generatorPublishedTaps * 16 + e.dt % 16
      payload := RsCode.accumulate e.window.length
        (fun i => fixedCoef (e.window.length - 1 - i) e.dt)
        (fun i => (e.window.getD i (0, [])).2) e.symbolLen })

/-- The source asserts `payload.len() == symbol_len` in debug builds. -/
def pushSource (payload : List Byte) : RlcEncoder × Nat × Option RepairSymbol :=
  let sid := e.nextSourceId
  let e := trimWindow { e with
    nextSourceId := (e.nextSourceId + 1) % 2 ^ 32
    window := e.window ++ [(sid, payload)] }
  let e := { e with sinceLastRepair := e.sinceLastRepair + 1 }
  if e.codingOn && e.step ≤ e.sinceLastRepair then
    let (e, r) := emitRepair { e with sinceLastRepair := 0 }
    (e, sid, some r)
  else (e, sid, none)

def forgetBelow (floor : Nat) : RlcEncoder :=
  { e with window := e.window.dropWhile fun p => p.1 < floor }

def rebaseTo (base : Nat) : RlcEncoder :=
  { e with nextSourceId := base, window := [], sinceLastRepair := 0 }

end RlcEncoder

structure RlcDecoder where
  symbolLen : Nat
  source : Table Nat (List Byte)
  repairs : List RepairSymbol
  highest : Nat
  horizon : Nat
  refusedRepairs : Nat

namespace RlcDecoder

def new (symbolLen : Nat) : RlcDecoder where
  symbolLen := symbolLen
  source := Table.empty
  repairs := []
  highest := 0
  horizon := 1024
  refusedRepairs := 0

section
variable (d : RlcDecoder)

def withHorizon (horizon : Nat) : RlcDecoder := { d with horizon := max horizon 1 }

/-- The first payload to arrive under an id stays. -/
def onSource (sourceId : Nat) (payload : List Byte) : RlcDecoder :=
  { d with
    highest := max d.highest sourceId
    source := if d.source.contains sourceId then d.source else d.source.insert sourceId payload }

def addRepair (r : RepairSymbol) : RlcDecoder :=
  if r.generatorIsReadable then
    { d with
      highest := max d.highest (r.sourceId r.windowSize - 1)
      repairs := d.repairs ++ [r] }
  else { d with refusedRepairs := d.refusedRepairs + 1 }

def get (d : RlcDecoder) (sourceId : Nat) : Option (List Byte) := d.source.get? sourceId

def has (sourceId : Nat) : Bool := d.source.contains sourceId

def liveRepairs (floor : Nat) : List RepairSymbol :=
  d.repairs.filter fun r => floor < r.sourceId r.windowSize

/-- A symbol a remaining repair still references is kept. -/
def forgetBelow (floor : Nat) : RlcDecoder :=
  let repairs := d.liveRepairs floor
  let safe := match (repairs.map RepairSymbol.firstSourceId).min? with
    | some oldest => min floor oldest
    | none => floor
  { d with repairs, source := d.source.retain fun sid => safe ≤ sid }

def rebaseTo (base : Nat) : RlcDecoder :=
  { d with source := Table.empty, repairs := [], highest := base }

def prune : RlcDecoder :=
  { d with repairs := d.repairs.filter fun r =>
      (range r.windowSize).any fun off => !d.source.contains (r.sourceId off) }

def unknownIds (lo : Nat) : List Nat :=
  ((d.repairs.flatMap fun r => (range r.windowSize).map r.sourceId).filter fun sid =>
    lo ≤ sid && !d.source.contains sid).dedup.insertionSort (· ≤ ·)

/-- Build a repair's equation: known symbols move to the right-hand side, `none`
once an unknown lies below the horizon. The flag says whether any unknown is
covered. -/
def rowLoop (d : RlcDecoder) (lo : Nat) (unknowns : List Nat) (r : RepairSymbol) :
    List Nat → Row Byte → Bool → Option (Row Byte × Bool)
  | [], row, covers => some (row, covers)
  | off :: offs, row, covers =>
    let c := r.coefficient off
    if c = byte 0 then d.rowLoop lo unknowns r offs row covers
    else
      match d.source.get? (r.sourceId off) with
      | some sym =>
        d.rowLoop lo unknowns r offs { row with rhs := gfMulAdd row.rhs sym c } covers
      | none =>
        if lo ≤ r.sourceId off then
          d.rowLoop lo unknowns r offs
            { row with coefs := row.coefs.set (unknowns.idxOf (r.sourceId off)) c } true
        else none

def repairRow (lo : Nat) (unknowns : List Nat) (r : RepairSymbol) : Option (Row Byte) :=
  match d.rowLoop lo unknowns r (range r.windowSize)
    ⟨replicate unknowns.length (byte 0), r.payload⟩ false with
  | some (row, true) => some row
  | _ => none

end

/-- A row with a single coefficient, equal to one, determines its unknown. -/
def takeRow (unknowns : List Nat) : RlcDecoder × List Nat → Row Byte → RlcDecoder × List Nat
  | (d, recovered), row =>
    match (range unknowns.length).filter fun c => row.coef c ≠ byte 0 with
    | [c] =>
      let sid := unknowns.getD c 0
      if row.coef c = byte 1 ∧ d.source.contains sid = false then
        ({ d with source := d.source.insert sid row.rhs }, recovered ++ [sid])
      else (d, recovered)
    | _ => (d, recovered)

/-- One recovery pass: the in-scope unknowns are solved for by elimination. -/
def tryRecover (d : RlcDecoder) : RlcDecoder × List Nat :=
  let lo := d.highest - d.horizon
  let d := { d with repairs := d.liveRepairs lo }
  let unknowns := d.unknownIds lo
  if unknowns = [] then (d.prune, [])
  else
    let rows := rref unknowns.length 0 0 (d.repairs.filterMap (d.repairRow lo unknowns))
    let (d, recovered) := rows.foldl (takeRow unknowns) (d, [])
    (d.prune, recovered)

def recover (d : RlcDecoder) : RlcDecoder × List Nat := d.tryRecover

end RlcDecoder
end SubEtha.Rlc
