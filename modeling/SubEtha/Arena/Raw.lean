import SubEtha.Epochs.Shared
import SubEtha.Lib.Atomic
import SubEtha.Wire

namespace SubEtha.Arena
open List
open SubEtha.Lib (Prog)
open SubEtha.Epochs (SharedEpochs EpochError)

def blockHeaderBytes : Nat := 32

def smallestClass : Nat := 6

def largestClass : Nat := 40

/-- The capacity and the classes of an arena; the fields are what `check_shape` asserts. -/
structure Shape where
  capacity : Nat
  minClass : Nat
  maxClass : Nat
  smallest : smallestClass ≤ minClass
  ordered : minClass ≤ maxClass
  largest : maxClass ≤ largestClass
  room : 2 ^ maxClass ≤ capacity
  chunks : 2 ^ maxClass ∣ capacity

/-- The state word of a block: the writer's pid or the retire epoch beside the tag. -/
inductive BlockState
  | unbuilt
  | free
  | writing (pid : Nat)
  | published
  | retired (epoch : Nat)
deriving DecidableEq

/-- What the word keeps of an epoch. -/
def wordEpoch (epoch : Nat) : Nat := epoch % 2 ^ 56

structure BlockHeader where
  state : BlockState
  cls : Nat
  len : Nat
deriving DecidableEq

structure BlockHandle where
  offset : Nat
  cls : Nat
deriving DecidableEq

def BlockHandle.payloadCapacity (h : BlockHandle) : Nat := 2 ^ h.cls - blockHeaderBytes

def BlockHandle.index (h : BlockHandle) : Nat := h.offset / 2 ^ h.cls

inductive ArenaError
  | tooLarge (len max : Nat)
  | exhausted
  | badHandle
  | notWriting
  | corrupt (offset : Nat)
deriving DecidableEq

/-- The mapped words: block headers and bytes by their offset, bitmaps by class and index. -/
structure RawArena where
  bump : Nat
  headers : Nat → BlockHeader
  bytes : Nat → Byte
  freeBits : Nat → Nat → Bool
  retiredBits : Nat → Nat → Bool
  hints : Nat → Nat

/-- The arena and the epoch table its processes share. The auxiliary `carver` records which
process moved the bump over a chunk; no function reads it. -/
structure World where
  arena : RawArena
  epochs : SharedEpochs
  carver : Nat → Nat

namespace World

def create (pins : Nat) : World :=
  ⟨⟨0, fun _ => ⟨.unbuilt, 0, 0⟩, fun _ => byte 0, fun _ _ => false, fun _ _ => false, fun _ => 0⟩,
    .create pins, fun _ => 0⟩

def header (w : World) (offset : Nat) : BlockHeader := w.arena.headers offset

def setHeader (w : World) (offset : Nat) (f : BlockHeader → BlockHeader) : World :=
  { w with arena.headers := fun o => if o = offset then f (w.header o) else w.header o }

def setState (offset : Nat) (state : BlockState) (w : World) : World :=
  w.setHeader offset fun h => { h with state := state }

def setClass (offset cls : Nat) (w : World) : World := w.setHeader offset fun h => { h with cls := cls }

def setLen (offset len : Nat) (w : World) : World := w.setHeader offset fun h => { h with len := len }

def setByte (pos : Nat) (b : Byte) (w : World) : World :=
  { w with arena.bytes := fun p => if p = pos then b else w.arena.bytes p }

def putFree (cls index : Nat) (bit : Bool) (w : World) : World :=
  { w with arena.freeBits := fun c i =>
      if c = cls ∧ i = index then bit else w.arena.freeBits c i }

def putRetired (cls index : Nat) (bit : Bool) (w : World) : World :=
  { w with arena.retiredBits := fun c i =>
      if c = cls ∧ i = index then bit else w.arena.retiredBits c i }

def setHint (cls hint : Nat) (w : World) : World :=
  { w with arena.hints := fun c => if c = cls then hint else w.arena.hints c }

end World

open World

abbrev ArenaProg := Prog World

def loadState (offset : Nat) : ArenaProg BlockState := .load fun w => (w.header offset).state

def loadClass (offset : Nat) : ArenaProg Nat := .load fun w => (w.header offset).cls

def storeState (offset : Nat) (state : BlockState) : ArenaProg Unit := .store (setState offset state)

def storeClass (offset cls : Nat) : ArenaProg Unit := .store (setClass offset cls)

def storeLen (offset len : Nat) : ArenaProg Unit := .store (setLen offset len)

def swapState (offset : Nat) (old new : BlockState) : ArenaProg Bool :=
  .swap (fun w => decide ((w.header offset).state = old)) (setState offset new)

def setFree (cls index : Nat) : ArenaProg Unit := .store (putFree cls index true)

def clearFree (cls index : Nat) : ArenaProg Unit := .store (putFree cls index false)

def setRetired (cls index : Nat) : ArenaProg Unit := .store (putRetired cls index true)

def clearRetired (cls index : Nat) : ArenaProg Unit := .store (putRetired cls index false)

def advance : ArenaProg Nat :=
  .step (fun w => { w with epochs := w.epochs.advance.2 }) fun w => .done w.epochs.advance.1

/-- The epochs no reader sees; the tables are read between two claims, so the read answers. -/
def reclaimHorizon : ArenaProg Nat := .load fun w => w.epochs.reclaimHorizon.getD 0

namespace Shape

variable (sh : Shape)

def maxPayload : Nat := 2 ^ sh.maxClass - blockHeaderBytes

def classFor (len : Nat) : Option Nat :=
  (range' sh.minClass (sh.maxClass + 1 - sh.minClass)).find? fun c =>
    decide (len + blockHeaderBytes ≤ 2 ^ c)

/-- The bits of a class's bitmap: one per block of that class the block space could hold. -/
def bits (cls : Nat) : Nat := sh.capacity / 2 ^ cls

def words (cls : Nat) : Nat := (sh.bits cls + 63) / 64

def checkHandle (h : BlockHandle) : Prop :=
  sh.minClass ≤ h.cls ∧ h.cls ≤ sh.maxClass ∧ h.offset < sh.capacity ∧ h.offset % 2 ^ h.cls = 0
deriving Decidable

end Shape

def wordBits (bits : Nat → Bool) (word : Nat) : List Nat :=
  (range 64).filter fun bit => bits (word * 64 + bit)

def giveBack (h : BlockHandle) : ArenaProg Unit := do
  storeLen h.offset 0
  storeState h.offset .free
  setFree h.cls h.index

section
variable (sh : Shape) (pid : Nat)

def takeBits (cls word : Nat) : List Nat → ArenaProg (Option BlockHandle)
  | [] => pure none
  | bit :: rest =>
    if sh.bits cls ≤ word * 64 + bit then pure none
    else do
      clearFree cls (word * 64 + bit)
      let offset := (word * 64 + bit) * 2 ^ cls
      let found ← loadClass offset
      if found ≠ cls then takeBits cls word rest
      else do
        let taken ← swapState offset .free (.writing pid)
        if taken = false then takeBits cls word rest
        else do
          let got ← loadClass offset
          if got < cls then do
            giveBack ⟨offset, got⟩
            takeBits cls word rest
          else do
            Prog.store (setHint cls (word % 2 ^ 32))
            pure (some ⟨offset, got⟩)

def takeWords (cls : Nat) : List Nat → ArenaProg (Option BlockHandle)
  | [] => pure none
  | word :: rest => do
    let bits ← Prog.load fun w => wordBits (w.arena.freeBits cls) word
    match ← takeBits sh pid cls word bits with
    | some h => pure (some h)
    | none => takeWords cls rest

def takeFree (cls : Nat) : ArenaProg (Option BlockHandle) :=
  if sh.words cls = 0 then pure none
  else do
    let hint ← Prog.load fun w => w.arena.hints cls % sh.words cls
    takeWords sh pid cls ((range (sh.words cls)).map fun step => (hint + step) % sh.words cls)

def reclaimBits (cls horizon word : Nat) : List Nat → ArenaProg Nat
  | [] => pure 0
  | bit :: rest =>
    if sh.bits cls ≤ word * 64 + bit then pure 0
    else do
      let offset := (word * 64 + bit) * 2 ^ cls
      match ← loadState offset with
      | .retired epoch => do
        let found ← loadClass offset
        if found ≠ cls then do
          clearRetired cls (word * 64 + bit)
          reclaimBits cls horizon word rest
        else if horizon < epoch then reclaimBits cls horizon word rest
        else do
          let freed ← swapState offset (.retired epoch) .free
          if freed = false then reclaimBits cls horizon word rest
          else do
            storeLen offset 0
            setFree cls (word * 64 + bit)
            clearRetired cls (word * 64 + bit)
            let moved ← reclaimBits cls horizon word rest
            pure (moved + 1)
      | _ => do
        clearRetired cls (word * 64 + bit)
        reclaimBits cls horizon word rest

def reclaimWords (cls horizon : Nat) : List Nat → ArenaProg Nat
  | [] => pure 0
  | word :: rest => do
    let bits ← Prog.load fun w => wordBits (w.arena.retiredBits cls) word
    let moved ← reclaimBits sh cls horizon word bits
    let more ← reclaimWords cls horizon rest
    pure (moved + more)

/-- Move the retired blocks of a class that no pin sees to the free set. -/
def reclaim (cls : Nat) : ArenaProg Nat := do
  let horizon ← reclaimHorizon
  reclaimWords sh cls horizon (range (sh.words cls))

/-- Move the bump over a chunk. A swap that fails changes nothing, so its retries are one step. -/
def nextChunk : ArenaProg (Option Nat) :=
  .step
    (fun w =>
      if w.arena.bump + 2 ^ sh.maxClass ≤ sh.capacity then
        { w with
          arena.bump := w.arena.bump + 2 ^ sh.maxClass
          carver := fun o => if o = w.arena.bump then pid else w.carver o }
      else w)
    fun w => .done
      (if w.arena.bump + 2 ^ sh.maxClass ≤ sh.capacity then some w.arena.bump else none)

def claimChunk (offset : Nat) : ArenaProg Bool :=
  .swap (fun w => decide ((w.header offset).state = .unbuilt ∨ (w.header offset).state = .free))
    (setState offset (.writing pid))

/-- Carve chunks until one is taken, over at most `chunks` of them. -/
def carveFrom : Nat → ArenaProg (Option BlockHandle)
  | 0 => pure none
  | chunks + 1 => do
    match ← nextChunk sh pid with
    | none => pure none
    | some offset => do
      storeClass offset sh.maxClass
      storeLen offset 0
      let taken ← claimChunk pid offset
      if taken then pure (some ⟨offset, sh.maxClass⟩) else carveFrom chunks

def carve : ArenaProg (Option BlockHandle) := carveFrom sh pid (sh.bits sh.maxClass + 1)

/-- Halve the block at `offset` by `levels`, each spare half free. -/
def splitFrom (offset cls : Nat) : Nat → ArenaProg Unit
  | 0 => pure ()
  | levels + 1 => do
    let current := cls + levels
    let spare := offset + 2 ^ current
    storeClass spare current
    storeLen spare 0
    storeState spare .free
    storeClass offset current
    setFree current (spare / 2 ^ current)
    splitFrom offset cls levels

def splitDown (h : BlockHandle) (cls : Nat) : ArenaProg BlockHandle := do
  splitFrom h.offset cls (h.cls - cls)
  pure ⟨h.offset, cls⟩

def takeLargerFrom (cls : Nat) : List Nat → ArenaProg (Option BlockHandle)
  | [] => pure none
  | larger :: rest => do
    match ← takeFree sh pid larger with
    | some h => do
      let h ← splitDown h cls
      pure (some h)
    | none => takeLargerFrom cls rest

def takeLarger (cls : Nat) : ArenaProg (Option BlockHandle) :=
  takeLargerFrom sh pid cls (range' (cls + 1) (sh.maxClass - cls))

def allocate (len : Nat) : ArenaProg (Except ArenaError BlockHandle) :=
  match sh.classFor len with
  | none => pure (.error (.tooLarge len sh.maxPayload))
  | some cls => do
    match ← takeFree sh pid cls with
    | some h => do
      let h ← splitDown h cls
      pure (.ok h)
    | none => do
      let _ ← reclaim sh cls
      match ← takeFree sh pid cls with
      | some h => do
        let h ← splitDown h cls
        pure (.ok h)
      | none => do
        match ← carve sh pid with
        | some h => do
          let h ← splitDown h cls
          pure (.ok h)
        | none => do
          match ← takeLarger sh pid cls with
          | some h => pure (.ok h)
          | none => pure (.error .exhausted)

def copyBytes : Nat → Packet → ArenaProg Unit
  | _, [] => pure ()
  | pos, b :: bytes => do
    Prog.store (setByte pos b)
    copyBytes (pos + 1) bytes

variable (h : BlockHandle)

def writingHere : ArenaProg Bool := do
  let state ← loadState h.offset
  if state ≠ .writing pid then pure false
  else do
    let cls ← loadClass h.offset
    pure (decide (cls = h.cls))

/-- Copy bytes into a block this process is writing; their length is kept in 32 bits. -/
def writePayload (bytes : Packet) : ArenaProg (Except ArenaError Unit) :=
  if ¬sh.checkHandle h then pure (.error .badHandle)
  else if h.payloadCapacity < bytes.length then
    pure (.error (.tooLarge bytes.length h.payloadCapacity))
  else do
    let here ← writingHere pid h
    if here = false then pure (.error .notWriting)
    else do
      copyBytes (h.offset + blockHeaderBytes) bytes
      storeLen h.offset (bytes.length % 2 ^ 32)
      pure (.ok ())

def publish : ArenaProg (Except ArenaError Unit) :=
  if ¬sh.checkHandle h then pure (.error .badHandle)
  else do
    let cls ← loadClass h.offset
    if cls ≠ h.cls then pure (.error .notWriting)
    else do
      let done ← swapState h.offset (.writing pid) .published
      pure (if done then .ok () else .error .notWriting)

def abandon : ArenaProg (Except ArenaError Unit) :=
  if ¬sh.checkHandle h then pure (.error .badHandle)
  else do
    let here ← writingHere pid h
    if here = false then pure (.error .notWriting)
    else do
      giveBack h
      pure (.ok ())

/-- Retire a published block at the next epoch; `false` where the handle names none. -/
def retire : ArenaProg (Except ArenaError Bool) :=
  if ¬sh.checkHandle h then pure (.error .badHandle)
  else do
    let cls ← loadClass h.offset
    if cls ≠ h.cls then pure (.ok false)
    else do
      let epoch ← advance
      let done ← swapState h.offset .published (.retired (wordEpoch epoch))
      if done = false then pure (.ok false)
      else do
        setRetired h.cls h.index
        pure (.ok true)

end

structure CollectReport where
  unbuiltFreed : Nat := 0
  free : Nat := 0
  writing : Nat := 0
  published : Nat := 0
  publishedForDead : Nat := 0
  retiredDead : Nat := 0
  retiredUnreached : Nat := 0
  retired : Nat := 0
deriving DecidableEq

variable (sh : Shape) (alive : Nat → Bool) (reached : BlockHandle → Bool)

def freeUnbuilt (offset : Nat) (r : CollectReport) : ArenaProg CollectReport := do
  storeClass offset sh.maxClass
  storeLen offset 0
  let freed ← swapState offset .unbuilt .free
  if freed then do
    setFree sh.maxClass (offset / 2 ^ sh.maxClass)
    pure { r with unbuiltFreed := r.unbuiltFreed + 1 }
  else pure r

/-- A built block put where its header says it belongs. -/
def settle (now : Nat) (h : BlockHandle) (state : BlockState) (r : CollectReport) :
    ArenaProg CollectReport :=
  match state with
  | .unbuilt => pure r
  | .free => do
    setFree h.cls h.index
    pure { r with free := r.free + 1 }
  | .writing pid =>
    if pid ≠ 0 ∧ alive pid then pure { r with writing := r.writing + 1 }
    else if reached h then do
      let done ← swapState h.offset (.writing pid) .published
      pure (if done then { r with publishedForDead := r.publishedForDead + 1 } else r)
    else do
      let done ← swapState h.offset (.writing pid) (.retired (wordEpoch now))
      if done then do
        setRetired h.cls h.index
        pure { r with retiredDead := r.retiredDead + 1 }
      else pure r
  | .published =>
    if reached h then pure { r with published := r.published + 1 }
    else do
      let done ← swapState h.offset .published (.retired (wordEpoch now))
      if done then do
        setRetired h.cls h.index
        pure { r with retiredUnreached := r.retiredUnreached + 1 }
      else pure r
  | .retired _ => do
    setRetired h.cls h.index
    pure { r with retired := r.retired + 1 }

/-- The walk from `offset` to the bump, over at most `blocks` of them. -/
def walkFrom (now bump : Nat) : Nat → Nat → CollectReport →
    ArenaProg (Except ArenaError CollectReport)
  | 0, _, r => pure (.ok r)
  | blocks + 1, offset, r =>
    if bump ≤ offset then pure (.ok r)
    else do
      let state ← loadState offset
      if state = .unbuilt then do
        let r ← freeUnbuilt sh offset r
        walkFrom now bump blocks (offset + 2 ^ sh.maxClass) r
      else do
        let cls ← loadClass offset
        if cls < sh.minClass ∨ sh.maxClass < cls then pure (.error (.corrupt offset))
        else do
          let r ← settle alive reached now ⟨offset, cls⟩ state r
          walkFrom now bump blocks (offset + 2 ^ cls) r

def collect : ArenaProg (Except ArenaError CollectReport) := do
  let now ← advance
  let bump ← Prog.load fun w => w.arena.bump
  walkFrom sh alive reached now bump (sh.bits sh.minClass) 0 {}

end SubEtha.Arena
