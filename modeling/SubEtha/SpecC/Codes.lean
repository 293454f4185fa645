import SubEtha.Wire

/-! The second implementation of the wire format, in C. -/

namespace SubEtha.SpecC
open List Lib

/-- The loop of `sens_field_init`. `(uint8_t)x` is `x` modulo 256, also as an index. -/
def fieldLoop : Nat → Nat → BitVec 16 → List Byte → List Byte → List Byte × List Byte
  | 0, _, _, log, exp => (log, exp)
  | fuel + 1, i, x, log, exp =>
    let exp := exp.set i (byte x.toNat)
    let log := log.set (byte x.toNat).toNat (byte i)
    let x := x <<< 1
    let x := if x &&& 0x100#16 ≠ 0#16 then x ^^^ 0x11D#16 else x
    fieldLoop fuel (i + 1) x log exp

def secondLap : Nat → Nat → List Byte → List Byte
  | 0, _, exp => exp
  | fuel + 1, i, exp => secondLap fuel (i + 1) (exp.set i (exp.getD (i - 255) (byte 0)))

def sensFieldInit : List Byte × List Byte :=
  let (log, exp) := fieldLoop 255 0 1#16 (replicate 256 (byte 0)) (replicate 512 (byte 0))
  (log.set 0 (byte 0), secondLap (512 - 255) 255 exp)

def gLog (a : Byte) : Nat := (sensFieldInit.1.getD a.toNat (byte 0)).toNat
def gExp (i : Nat) : Byte := sensFieldInit.2.getD i (byte 0)

def sensGfMul (a b : Byte) : Byte :=
  if a = byte 0 ∨ b = byte 0 then byte 0 else gExp (gLog a + gLog b)

def sensGfInv (a : Byte) : Byte := if a = byte 0 then byte 0 else gExp (255 - gLog a)

def mulAddInto (out src : List Byte) (coef : Byte) : List Byte :=
  out.mapIdx fun b o => Gf.add o (sensGfMul coef (src.getD b (byte 0)))

def slice (buf : List Byte) (len i : Nat) : List Byte := (buf.drop (i * len)).take len

def sensTaps : Nat := 64

def sensTapTable : List Byte :=
  [0x01, 0x02, 0x03, 0x05, 0x07, 0x0b, 0x0d, 0x11,
   0x13, 0x17, 0x1d, 0x1f, 0x25, 0x29, 0x2b, 0x2f,
   0x35, 0x3b, 0x3d, 0x43, 0x47, 0x49, 0x4f, 0x53,
   0x59, 0x61, 0x65, 0x67, 0x6b, 0x6d, 0x71, 0x7f,
   0x83, 0x89, 0x8b, 0x95, 0x97, 0x9d, 0xa3, 0xa7,
   0xad, 0xb3, 0xb5, 0xbf, 0xc1, 0xc5, 0xc7, 0xd3,
   0xdf, 0xe3, 0xe5, 0xe9, 0xef, 0xf1, 0xf5, 0xf7,
   0xfb, 0xfd, 0x04, 0x08, 0x0e, 0x16, 0x1a, 0x22].map byte

def sensCoefficient (place density : Nat) : Byte :=
  if sensTaps ≤ place then byte 0
  else if place % 16 ≤ density then sensTapTable.getD place (byte 0)
  else byte 0

def sensTypeRepair : Nat := 0x0B
def sensRepairHeader : Nat := 20
def sensGenPublishedTaps : Nat := 1

/-- The frame written into `buf`, or `none` for a return of 0. `dt` is a byte, its
high nibble the generator; `windowSize` counts the symbols of the buffer, newest last. -/
def sensRepairWrite (cap connId repairKey firstSourceId windowSize dt : Nat) (symbols : List Byte)
    (symbolLen : Nat) : Option (List Byte) :=
  if dt / 16 ≠ sensGenPublishedTaps then none
  else if cap < sensRepairHeader + symbolLen then none
  else
    let header := byte sensTypeRepair :: (leBytes 8 connId ++ leBytes 4 repairKey ++
      leBytes 4 firstSourceId ++ leBytes 2 windowSize ++ [byte dt])
    let payload := (range windowSize).foldl
      (fun payload i =>
        let coef := sensCoefficient (windowSize - 1 - i) (dt % 16)
        if coef = byte 0 then payload else mulAddInto payload (slice symbols symbolLen i) coef)
      (replicate symbolLen (byte 0))
    some (header ++ payload)

/-- The first loop of `sens_repair_recover`: the coefficient of the one covered symbol
that is missing, if any; `none` once there is a second. -/
def findMissing (windowSize density : Nat) (present : List (Option (List Byte))) :
    List Nat → Option Byte → Option (Option Byte)
  | [], missing => some missing
  | i :: is, missing =>
    let coef := sensCoefficient (windowSize - 1 - i) density
    if coef = byte 0 then findMissing windowSize density present is missing
    else
      match present.getD i none with
      | some _ => findMissing windowSize density present is missing
      | none =>
        match missing with
        | some _ => none
        | none => findMissing windowSize density present is (some coef)

/-- The second loop: every covered symbol that is present is added. -/
def addPresent (windowSize density : Nat) (present : List (Option (List Byte)))
    (out : List Byte) : List Byte :=
  (range windowSize).foldl
    (fun out i =>
      match present.getD i none with
      | none => out
      | some symbol =>
        let coef := sensCoefficient (windowSize - 1 - i) density
        if coef = byte 0 then out else mulAddInto out symbol coef)
    out

/-- `none` is a return of -1. -/
def sensRepairRecover (symbolLen : Nat) (payload : List Byte)
    (present : List (Option (List Byte))) (windowSize dt : Nat) : Option (List Byte) :=
  if dt / 16 ≠ sensGenPublishedTaps then none
  else
    match findMissing windowSize (dt % 16) present (range windowSize) none with
    | none => none
    | some none => none
    | some (some missingCoef) =>
      let out := addPresent windowSize (dt % 16) present (payload.take symbolLen)
      let inv := sensGfInv missingCoef
      some (out.map fun b => sensGfMul b inv)

def sensRsMaxShards : Nat := 32

def sensRsCauchy (k j c : Nat) : Byte :=
  if k = 0 ∨ 256 ≤ k + j ∨ k ≤ c then byte 0 else sensGfInv (byte ((k + j) ^^^ c))

def shapeOk (k r : Nat) : Bool := 1 ≤ k && 1 ≤ r && k + r ≤ sensRsMaxShards

def sensRsParity (shardLen : Nat) (data : List Byte) (k j : Nat) : Option (List Byte) :=
  if k < 1 ∨ sensRsMaxShards < k ∨ sensRsMaxShards ≤ j then none
  else some ((range k).foldl
    (fun out c => mulAddInto out (slice data shardLen c) (sensRsCauchy k j c))
    (replicate shardLen (byte 0)))

/-- One turn of the column loop of `invert`, with its pivot: swap, scale, clear. A row of
`m` and the same row of `inv` make one `Row`, since every loop of the source treats the two
alike; a row that is cleared reads only itself and the pivot row. -/
def invertColumn (rows : List (Row Byte)) (col pivot : Nat) : List (Row Byte) :=
  let rows := if pivot ≠ col then swapRows rows col pivot else rows
  let scale := sensGfInv ((rowAt rows col).coef col)
  let piv : Row Byte := ⟨(rowAt rows col).coefs.map fun a => sensGfMul a scale,
    (rowAt rows col).rhs.map fun a => sensGfMul a scale⟩
  rows.mapIdx fun i row =>
    if i = col then piv
    else
      let factor := row.coef col
      if factor = byte 0 then row
      else ⟨mulAddInto row.coefs piv.coefs factor, mulAddInto row.rhs piv.rhs factor⟩

def invertLoop (n : Nat) : Nat → Nat → List (Row Byte) → Option (List (Row Byte))
  | 0, _, rows => some rows
  | fuel + 1, col, rows =>
    match (range' col (n - col)).find? fun pivot => (rowAt rows pivot).coef col ≠ byte 0 with
    | none => none
    | some pivot => invertLoop n fuel (col + 1) (invertColumn rows col pivot)

def invert (m : List (List Byte)) (n : Nat) : Option (List (List Byte)) :=
  let rows := m.mapIdx fun i row =>
    ⟨row, (range n).map fun j => if i = j then byte 1 else byte 0⟩
  (invertLoop n n 0 rows).map fun rows => rows.map Row.rhs

def takeRows (k : Nat) : Nat → Shards → List (Nat × List Byte) → List (Nat × List Byte)
  | _, [], rows => rows
  | idx, shard :: present, rows =>
    if rows.length < k then
      match shard with
      | none => takeRows k (idx + 1) present rows
      | some v => takeRows k (idx + 1) present (rows ++ [(idx, v)])
    else rows

def recoverEntry (k idx c : Nat) : Byte :=
  if idx < k then if c = idx then byte 1 else byte 0 else sensRsCauchy k (idx - k) c

/-- The data shards one after another, or `none` for a return of -1. -/
def sensRsRecover (shardLen : Nat) (present : Shards) (k r : Nat) : Option (List Byte) :=
  if !shapeOk k r then none
  else
    let rows := takeRows k 0 (present.take (k + r)) []
    if rows.length < k then none
    else
      (invert (rows.map fun row => (range k).map (recoverEntry k row.1)) k).map fun inv =>
        ((range k).map fun d =>
          (range k).foldl
            (fun dst s =>
              let coef := (inv.getD d []).getD s (byte 0)
              if coef = byte 0 then dst else mulAddInto dst (rows.getD s (0, [])).2 coef)
            (replicate shardLen (byte 0))).flatten

end SubEtha.SpecC
