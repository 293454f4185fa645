import SubEtha.Wire
import SubEtha.Lib.Runs

namespace SubEtha.Compress
open List Lib

abbrev Slot := List Byte

/-- A learned constant-position template: `varPos` are the byte positions shipped
per slot, `constPos` the others, as the `u16` values the code stores. -/
structure SchemaTemplate where
  width : Nat
  template : List Byte
  varPos : List Nat
  constPos : List Nat
deriving DecidableEq

def flagCompact : Byte := byte 0
def flagEscape : Byte := byte 1

namespace SchemaTemplate

/-- A position is constant if and only if it is the same in every sample slot. -/
def isConst : List Slot → Nat → Bool
  | [], _ => false
  | first :: rest, p => rest.all fun s => s.getD p (byte 0) == first.getD p (byte 0)

/-- `none` where a sample slot is shorter than the width. -/
def learn (sample : List Slot) (width : Nat) : Option SchemaTemplate :=
  if sample.all fun s => width ≤ s.length then
    let base := match sample with
      | [] => replicate width (byte 0)
      | first :: _ => first.take width
    let varPos := ((range width).filter fun p => !isConst sample p).map (· % 2 ^ 16)
    let constPos := ((range width).filter fun p => isConst sample p).map (· % 2 ^ 16)
    some {
      width
      template := varPos.foldl (fun t p => t.set p (byte 0)) base
      varPos
      constPos }
  else none

section
variable (t : SchemaTemplate)

def matchesTemplate (slot : Slot) : Bool :=
  t.constPos.all fun p => slot.getD p (byte 0) == t.template.getD p (byte 0)

/-- The compact record of a slot; one that violates the template is escaped in full. -/
def encode (slot : Slot) : List Byte :=
  if t.matchesTemplate slot then flagCompact :: t.varPos.map fun p => slot.getD p (byte 0)
  else flagEscape :: slot.take t.width

def isEscape (compact : List Byte) : Bool := compact.head? == some flagEscape

def scatter (out : List Byte) (positions : List Nat) (bytes : List Byte) : List Byte :=
  (positions.zip bytes).foldl (fun out pb => out.set pb.1 pb.2) out

/-- The slot of a compact record; `none` where an index is out of range. -/
def decode : List Byte → Option Slot
  | [] => none
  | flag :: bytes =>
    if flag = flagCompact then
      if t.varPos.length ≤ bytes.length ∧ t.varPos.all fun p => p < t.width then
        some (scatter t.template t.varPos bytes)
      else none
    else if t.width ≤ bytes.length then some (bytes.take t.width) else none

def serialize : List Byte :=
  leBytes 2 t.width ++ (leBytes 2 t.varPos.length ++ (t.varPos.flatMap (leBytes 2) ++ t.template))

end

def deserialize (bytes : List Byte) : Option SchemaTemplate :=
  if bytes.length < 4 then none
  else
    let width := leAt bytes 0 2
    let nVar := leAt bytes 2 2
    let posEnd := 4 + 2 * nVar
    if bytes.length < posEnd + width then none
    else
      let varPos := (range nVar).map fun i => leAt bytes (4 + 2 * i) 2
      some {
        width
        template := (bytes.drop posEnd).take width
        varPos
        constPos := (range width).filter fun p => !varPos.contains p }

/-- A template whose fields fit the sixteen bits they are stored and shipped in. -/
structure Wf (t : SchemaTemplate) : Prop where
  width_lt : t.width < 2 ^ 16
  template_length : t.template.length = t.width
  var_lt : ∀ p ∈ t.varPos, p < t.width
  var_length : t.varPos.length ≤ t.width
  const_eq : t.constPos = (range t.width).filter fun p => !t.varPos.contains p

theorem foldl_set_length (positions : List Nat) (t : List Byte) :
    (positions.foldl (fun t p => t.set p (byte 0)) t).length = t.length := by
  induction positions generalizing t with
  | nil => rfl
  | cons p positions ih => simp [ih]

theorem map_mod_range_filter {width : Nat} (h : width < 2 ^ 16) (f : Nat → Bool) :
    ((range width).filter f).map (· % 2 ^ 16) = (range width).filter f := by
  rw [map_congr_left (g := id), map_id]
  intro p hp
  have hlt := mem_range.mp (mem_filter.mp hp).1
  exact Nat.mod_eq_of_lt (by omega)

variable {sample : List Slot} {width : Nat} {t : SchemaTemplate}

theorem learn_length (h : learn sample width = some t) : t.template.length = width := by
  unfold learn at h
  split at h
  · rename_i hlens
    cases h
    rw [foldl_set_length]
    cases sample with
    | nil => exact length_replicate ..
    | cons first rest =>
      have hfirst := all_eq_true.mp hlens first (mem_cons_self ..)
      rw [decide_eq_true_eq] at hfirst
      simp [min_eq_left hfirst]
  · cases h

/-- Below 65536 bytes the stored positions are the positions themselves. -/
theorem learn_wf (hw : width < 2 ^ 16) (h : learn sample width = some t) :
    t.Wf ∧ t.width = width := by
  have hlength := learn_length h
  unfold learn at h
  split at h
  · simp only [map_mod_range_filter hw] at h
    cases h
    refine ⟨⟨hw, hlength, ?_, ?_, ?_⟩, rfl⟩
    · intro p hp
      exact mem_range.mp (mem_filter.mp hp).1
    · have hle := length_filter_le (fun p => !isConst sample p) (range width)
      rwa [length_range] at hle
    · refine filter_congr fun p hp => ?_
      cases hc : isConst sample p with
      | true => simp [hc]
      | false => simp [hc, mem_range.mp hp]
  · cases h

/-- Scattering what was gathered from `slot`: the shipped positions are the
slot's, the others stay. -/
theorem scatter_gather {slot : Slot} (positions : List Nat) (out : List Byte)
    (hlen : out.length = slot.length) (i : Nat) :
    (scatter out positions (positions.map fun p => slot.getD p (byte 0)))[i]? =
      if i ∈ positions then slot[i]? else out[i]? := by
  induction positions generalizing out with
  | nil => rfl
  | cons p positions ih =>
    have hstep : scatter out (p :: positions) ((p :: positions).map fun p => slot.getD p (byte 0)) =
        scatter (out.set p (slot.getD p (byte 0))) positions
          (positions.map fun p => slot.getD p (byte 0)) := rfl
    rw [hstep, ih _ (by rw [length_set, hlen])]
    by_cases hi : i ∈ positions
    · rw [if_pos hi, if_pos (mem_cons_of_mem _ hi)]
    rw [if_neg hi]
    by_cases hp : p = i
    · subst hp
      rw [if_pos (mem_cons_self ..)]
      by_cases hlt : p < slot.length
      · rw [getElem?_set_self (by omega), getD_eq_getElem?_getD, getElem?_eq_getElem hlt]
        rfl
      · rw [getElem?_eq_none (by rw [length_set]; omega), getElem?_eq_none (by omega)]
    · rw [getElem?_set_ne hp, if_neg]
      intro hmem
      rcases mem_cons.mp hmem with rfl | hmem
      · exact hp rfl
      · exact hi hmem

/-- The codec is exact: every slot of the template's width comes back. -/
theorem decode_encode (htemplate : t.template.length = t.width) (hvars : ∀ p ∈ t.varPos, p < t.width)
    (hrest : t.constPos = (range t.width).filter fun p => !t.varPos.contains p)
    (hslot : slot.length = t.width) : t.decode (t.encode slot) = some slot := by
  unfold encode
  split
  · rename_i hmatch
    rw [decode, if_pos rfl, if_pos ⟨by rw [length_map], by
      simpa using hvars⟩]
    congr 1
    apply ext_getElem?
    intro i
    rw [scatter_gather _ _ (htemplate.trans hslot.symm)]
    split
    · rfl
    rename_i hvar
    by_cases hi : i < t.width
    · have hconst : i ∈ t.constPos := by
        rw [hrest, mem_filter]
        exact ⟨mem_range.mpr hi, by simpa using hvar⟩
      have heq := all_eq_true.mp hmatch i hconst
      have hit : i < t.template.length := by rw [htemplate]; exact hi
      have his : i < slot.length := by rw [hslot]; exact hi
      rw [beq_iff_eq, getD_eq_getElem?_getD, getD_eq_getElem?_getD,
        getElem?_eq_getElem his, getElem?_eq_getElem hit] at heq
      rw [getElem?_eq_getElem his, getElem?_eq_getElem hit]
      exact congrArg some heq.symm
    · rw [getElem?_eq_none (by rw [htemplate]; omega), getElem?_eq_none (by omega)]
  · have hflag : flagEscape ≠ flagCompact := by decide
    rw [decode, if_neg hflag, ← hslot, take_length, if_pos le_rfl, take_length]

theorem encode_length_le (h : t.Wf) (slot : Slot) : (t.encode slot).length ≤ t.width + 1 := by
  have hvar := h.var_length
  unfold encode
  split
  · simpa using hvar
  · simp

theorem flatMap_leBytes_length (positions : List Nat) :
    (positions.flatMap (leBytes 2)).length = 2 * positions.length := by
  induction positions with
  | nil => rfl
  | cons p positions ih =>
    rw [flatMap_cons, length_append, leBytes_length, ih, length_cons]
    omega

theorem leAt_flatMap {positions : List Nat} (hi : positions[i]? = some p) (hp : p < 2 ^ 16) :
    leAt (positions.flatMap (leBytes 2) ++ rest) (2 * i) 2 = p := by
  induction positions generalizing i with
  | nil => cases hi
  | cons q positions ih =>
    rw [flatMap_cons, append_assoc]
    cases i with
    | zero =>
      cases hi
      rw [mul_zero, leAt_here]
      exact Nat.mod_eq_of_lt hp
    | succ i =>
      exact ih hi

theorem serialize_length (t : SchemaTemplate) :
    t.serialize.length = 4 + 2 * t.varPos.length + t.template.length := by
  simp only [serialize, length_append, leBytes_length, flatMap_leBytes_length]
  omega

theorem deserialize_serialize (h : t.Wf) : deserialize t.serialize = some t := by
  have hvar := h.var_length
  have hwidth := h.width_lt
  have hw : leAt t.serialize 0 2 = t.width := by
    rw [serialize, leAt_here]
    exact Nat.mod_eq_of_lt hwidth
  have hn : leAt t.serialize 2 2 = t.varPos.length := by
    rw [serialize, leAt_skip le_rfl, leAt_here]
    exact Nat.mod_eq_of_lt (by omega)
  have hlen := h.template_length ▸ serialize_length t
  have hpos : (range t.varPos.length).map (fun i => leAt t.serialize (4 + 2 * i) 2) =
      t.varPos := by
    apply ext_getElem?
    intro i
    by_cases hi : i < t.varPos.length
    · rw [getElem?_map, getElem?_range hi, getElem?_eq_getElem hi, Option.map_some,
        serialize, leAt_skip (by omega), leAt_skip (by omega),
        show 4 + 2 * i - 2 - 2 = 2 * i by omega, leAt_flatMap (getElem?_eq_getElem hi)]
      exact lt_trans (h.var_lt _ (getElem_mem hi)) hwidth
    · rw [getElem?_eq_none (by simpa using hi), getElem?_eq_none (by omega)]
  have htemplate : (t.serialize.drop (4 + 2 * t.varPos.length)).take t.width = t.template := by
    have hsplit : t.serialize = (leBytes 2 t.width ++ leBytes 2 t.varPos.length ++
        t.varPos.flatMap (leBytes 2)) ++ t.template := by
      simp [serialize]
    rw [hsplit, drop_left' (by
      simp only [length_append, leBytes_length, flatMap_leBytes_length]),
      ← h.template_length, take_length]
  unfold deserialize
  rw [if_neg (by omega), hw, hn]
  dsimp only
  rw [if_neg (by omega), hpos, htemplate, ← h.const_eq]

end SchemaTemplate

abbrev Item := List Byte

def tagData : Byte := byte 0
def tagTemplate : Byte := byte 1
def tagBatch : Byte := byte 2

/-- The sending half, less its inner transport: calls return the items they hand on. -/
structure CompressedSender where
  tpl : SchemaTemplate
  started : Bool
  relearn : Bool
  window : Nat
  thresholdPct : Nat
  recent : List Slot
  escapes : Nat
  sinceCheck : Nat
  coalesce : Bool
  batchTarget : Nat
  batch : List Byte

namespace CompressedSender

def new (tpl : SchemaTemplate) : CompressedSender where
  tpl := tpl
  started := false
  relearn := false
  window := 0
  thresholdPct := 0
  recent := []
  escapes := 0
  sinceCheck := 0
  coalesce := false
  batchTarget := 0
  batch := []

variable (s : CompressedSender)

def withCoalesce (target : Nat) : CompressedSender :=
  { s with coalesce := true, batchTarget := max target 8, batch := [tagBatch] }

def withRelearn (window thresholdPct : Nat) : CompressedSender :=
  { s with
    relearn := true, window := max window 64, thresholdPct := min thresholdPct 100, recent := [] }

def flushBatch : CompressedSender × List Item :=
  if 1 < s.batch.length then ({ s with batch := [tagBatch] }, [s.batch]) else (s, [])

def templateItem : Item := tagTemplate :: s.tpl.serialize

def start : CompressedSender × List Item :=
  if s.started then (s, []) else ({ s with started := true }, [s.templateItem])

def remember (slot : Slot) : CompressedSender :=
  if s.relearn then
    let recent := if s.recent.length = s.window then s.recent.tail else s.recent
    { s with recent := recent ++ [slot] }
  else s

/-- Frame the record into the batch, which is flushed first when it would overflow,
or ship it on its own. -/
def place (cslot : List Byte) : CompressedSender × List Item :=
  if s.coalesce then
    let flushed :=
      if s.batchTarget < s.batch.length + 2 + cslot.length ∧ 1 < s.batch.length then s.flushBatch
      else (s, [])
    ({ flushed.1 with batch := flushed.1.batch ++ (leBytes 2 cslot.length ++ cslot) }, flushed.2)
  else (s, [tagData :: cslot])

/-- `none` where `learn` asserts. -/
def relearnNow : Option (CompressedSender × List Item) :=
  (SchemaTemplate.learn s.recent s.tpl.width).map fun tpl =>
    let s := { s with tpl := tpl }
    (s, [s.templateItem])

/-- After every `window` slots, relearn if too many of them escaped. -/
def checkDrift (escaped : Bool) : Option (CompressedSender × List Item) :=
  if s.relearn then
    let s := { s with
      escapes := if escaped then s.escapes + 1 else s.escapes, sinceCheck := s.sinceCheck + 1 }
    if s.window ≤ s.sinceCheck then
      if s.thresholdPct * s.window < s.escapes * 100 then
        let flushed := s.flushBatch
        flushed.1.relearnNow.map fun (s, out) =>
          ({ s with escapes := 0, sinceCheck := 0 }, flushed.2 ++ out)
      else some ({ s with escapes := 0, sinceCheck := 0 }, [])
    else some (s, [])
  else some (s, [])

def sendItem (slot : Slot) : Option (CompressedSender × List Item) :=
  let started := s.start
  let s := started.1.remember slot
  let cslot := s.tpl.encode slot
  let placed := s.place cslot
  (placed.1.checkDrift (SchemaTemplate.isEscape cslot)).map fun (s, out) =>
    (s, started.2 ++ (placed.2 ++ out))

end CompressedSender

/-- Split `[len][cslot]..` and decode each record; a record that runs over the end
stops the loop. -/
def unbatch (t : SchemaTemplate) : Nat → List Byte → Option (List Slot)
  | 0, _ => some []
  | fuel + 1, payload =>
    if 2 ≤ payload.length then
      let len := leAt payload 0 2
      let rest := payload.drop 2
      if rest.length < len then some []
      else
        (t.decode (rest.take len)).bind fun slot =>
          (unbatch t fuel (rest.drop len)).map fun slots => slot :: slots
    else some []

structure CompressedReceiver where
  tpl : Option SchemaTemplate

namespace CompressedReceiver

/-- A malformed descriptor leaves the current template in place. -/
def takeItem (rx : CompressedReceiver) : Item → Option (CompressedReceiver × List Slot)
  | [] => some (rx, [])
  | tag :: payload =>
    if tag = tagTemplate then
      match SchemaTemplate.deserialize payload with
      | some t => some ({ rx with tpl := some t }, [])
      | none => some (rx, [])
    else
      match rx.tpl with
      | none => some (rx, [])
      | some t =>
        if tag = tagBatch then
          (unbatch t payload.length payload).map fun slots => (rx, slots)
        else (t.decode payload).map fun slot => (rx, [slot])

def poll (rx : CompressedReceiver) : List Item → Option (CompressedReceiver × List Slot)
  | [] => some (rx, [])
  | item :: items =>
    (rx.takeItem item).bind fun (rx, slots) =>
      (rx.poll items).map fun (rx, rest) => (rx, slots ++ rest)

end CompressedReceiver

/-- A sender and a receiver with the items still on their way, in order. -/
structure CompressedLink where
  tx : CompressedSender
  rx : CompressedReceiver
  queue : List Item
  sent : List Slot
  got : List Slot

inductive CompressedEvent
  | send (slot : Slot)
  | flush
  | poll (n : Nat)

namespace CompressedLink

def init (tx : CompressedSender) : CompressedLink where
  tx := tx
  rx := { tpl := none }
  queue := []
  sent := []
  got := []

def step (s : CompressedLink) : CompressedEvent → Option CompressedLink
  | .send slot => (s.tx.sendItem slot).map fun (tx, out) =>
      { s with tx := tx, queue := s.queue ++ out, sent := s.sent ++ [slot] }
  | .flush =>
    let flushed := s.tx.flushBatch
    some { s with tx := flushed.1, queue := s.queue ++ flushed.2 }
  | .poll n => (s.rx.poll (s.queue.take n)).map fun (rx, slots) =>
      { s with rx := rx, queue := s.queue.drop n, got := s.got ++ slots }

end CompressedLink
end SubEtha.Compress
