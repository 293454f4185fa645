import SubEtha.Compress.Link

/-! Templates and items as they come off the wire, whatever their bytes. -/

namespace SubEtha.Compress
open Option List Lib SchemaTemplate

namespace SchemaTemplate

variable {t : SchemaTemplate} {slot : Slot}

/-- `encode`, with `none` where a shipped position lies outside the slot. -/
def encodeChecked (t : SchemaTemplate) (slot : Slot) : Option (List Byte) :=
  if t.matchesTemplate slot ∧ ∃ p ∈ t.varPos, slot.length ≤ p then none else some (t.encode slot)

theorem deserialize_shape (h : deserialize bytes = some t) : t.template.length = t.width ∧
    t.constPos = (List.range t.width).filter fun p => !t.varPos.contains p := by
  unfold deserialize at h
  split at h
  · cases h
  dsimp only at h
  split at h
  · cases h
  · cases h
    exact ⟨by simp; omega, rfl⟩

/-- The parser takes positions past the width: the codec of an accepted template
is total and exact just where it has none. What was learned comes back whole. -/
theorem accepted_template_exact_iff (t : SchemaTemplate) :
    (∀ bytes, deserialize bytes = some t → ((∀ slot : Slot, slot.length = t.width →
        ∃ record, t.encodeChecked slot = some record ∧ t.decode record = some slot) ↔
          ∀ p ∈ t.varPos, p < t.width)) ∧
      ∀ sample width, width < 2 ^ 16 → learn sample width = some t →
        deserialize t.serialize = some t := by
  refine ⟨fun bytes h => ?_, fun sample width hw h => deserialize_serialize (learn_wf hw h).1⟩
  obtain ⟨htemplate, hconst⟩ := deserialize_shape h
  constructor
  · intro hall p hp
    obtain ⟨record, hrecord, -⟩ := hall t.template htemplate
    have hmatch : t.matchesTemplate t.template = true := by simp [matchesTemplate]
    by_contra hout
    rw [encodeChecked, if_pos ⟨hmatch, p, hp, by omega⟩] at hrecord
    cases hrecord
  · intro hvars slot hslot
    refine ⟨_, if_neg ?_, decode_encode htemplate hvars hconst hslot⟩
    rintro ⟨-, p, hp, hout⟩
    have := hvars p hp
    omega

/-- One byte wide, with a byte shipped from position 5. -/
theorem accepted_position_out_of_range : ∃ t,
    deserialize ([1, 0, 1, 0, 5, 0, 7].map byte) = some t ∧ t.encodeChecked [byte 7] = none ∧
      t.decode [flagCompact, byte 7] = none := by
  refine ⟨_, rfl, ?_, ?_⟩ <;> decide +kernel

/-- A record with all the bytes that decoding it reads. -/
def Fits (t : SchemaTemplate) : List Byte → Prop
  | [] => False
  | flag :: bytes =>
    if flag = flagCompact then t.varPos.length ≤ bytes.length ∧ ∀ p ∈ t.varPos, p < t.width
    else t.width ≤ bytes.length

theorem decode_isSome_iff : (t.decode record).isSome ↔ t.Fits record := by
  cases record with
  | nil => simp [decode, Fits]
  | cons flag bytes =>
    simp only [decode, Fits]
    split
    · split <;> simp_all
    · split <;> simp_all

theorem decode_width (htemplate : t.template.length = t.width)
    (h : t.decode record = some slot) : slot.length = t.width := by
  have hscatter (positions bytes) : ∀ out, (scatter out positions bytes).length = out.length := by
    unfold scatter
    induction zip positions bytes with
    | nil => exact fun _ => rfl
    | cons pb rest ih => exact fun out => (ih _).trans (length_set ..)
  cases record with
  | nil => cases h
  | cons flag bytes =>
    simp only [decode] at h
    split at h
    · split at h <;> cases h
      exact (hscatter ..).trans htemplate
    · split at h <;> cases h
      simpa

end SchemaTemplate

def records : Nat → List Byte → List (List Byte)
  | 0, _ => []
  | fuel + 1, payload =>
    if 2 ≤ payload.length ∧ leAt payload 0 2 ≤ (payload.drop 2).length then
      (payload.drop 2).take (leAt payload 0 2) ::
        records fuel ((payload.drop 2).drop (leAt payload 0 2))
    else []

theorem unbatch_eq (t : SchemaTemplate) (fuel : Nat) (payload : List Byte) :
    unbatch t fuel payload = (records fuel payload).mapM t.decode := by
  induction fuel generalizing payload with
  | zero => rfl
  | succ fuel ih =>
    simp only [unbatch, records, ih]
    by_cases htwo : 2 ≤ payload.length
    · by_cases hlen : leAt payload 0 2 ≤ (payload.drop 2).length
      · rw [if_pos htwo, if_neg (by omega), if_pos ⟨htwo, hlen⟩]
        simp [mapM_cons, map_eq_bind]
      · rw [if_pos htwo, if_pos (by omega), if_neg (by tauto)]
        rfl
    · rw [if_neg htwo, if_neg (by tauto)]
      rfl

theorem mapM_isSome_iff {f : α → Option β} {l : List α} :
    (l.mapM f).isSome ↔ ∀ x ∈ l, (f x).isSome := by
  induction l with
  | nil => simp
  | cons x l ih => cases hx : f x <;> cases hl : l.mapM f <;> simp_all

theorem mem_of_mapM {f : α → Option β} {l : List α} (h : l.mapM f = some l') :
    ∀ y ∈ l', ∃ x ∈ l, f x = some y := by
  induction l generalizing l' with
  | nil => simp_all
  | cons x l ih =>
    cases hx : f x with
    | none => simp [hx] at h
    | some y =>
      cases hl : l.mapM f with
      | none => simp [hx, hl] at h
      | some ys =>
        simp [hx, hl] at h
        subst h
        simp [hx]
        intro z hz
        exact .inr (ih hl z hz)

/-- What an item other than a template hands to the codec. -/
def handed (tag : Byte) (payload : List Byte) : List (List Byte) :=
  if tag = tagBatch then records payload.length payload else [payload]

namespace CompressedReceiver

/-- Every record of the item fits the template in force, if there is one. -/
def Fits (rx : CompressedReceiver) : Item → Prop
  | [] => True
  | tag :: payload =>
    tag ≠ tagTemplate → ∀ t ∈ rx.tpl, ∀ record ∈ handed tag payload, t.Fits record

/-- The width of the template belongs to its bytes. -/
def Shaped (rx : CompressedReceiver) : Prop := ∀ t ∈ rx.tpl, t.template.length = t.width

variable {rx rx' : CompressedReceiver}

theorem takeItem_handed (htag : tag ≠ tagTemplate) (htpl : rx.tpl = some t) :
    rx.takeItem (tag :: payload) =
      ((handed tag payload).mapM t.decode).map fun slots => (rx, slots) := by
  simp only [takeItem, if_neg htag, htpl, handed]
  split
  · simp [unbatch_eq]
  · cases hdecode : t.decode payload <;> simp [hdecode]

theorem takeItem_isSome_iff : (rx.takeItem item).isSome ↔ rx.Fits item := by
  cases item with
  | nil => simp [takeItem, Fits]
  | cons tag payload =>
    by_cases htag : tag = tagTemplate
    · subst htag
      simp only [takeItem, Fits]
      cases deserialize payload <;> simp
    · cases htpl : rx.tpl with
      | none => simp [takeItem, htag, htpl, Fits]
      | some t =>
        rw [takeItem_handed htag htpl]
        simp [Fits, htag, htpl, mapM_isSome_iff, decode_isSome_iff]

theorem takeItem_slots (hrx : rx.Shaped) (h : rx.takeItem item = some (rx', slots)) :
    rx'.Shaped ∧ ∀ slot ∈ slots, ∃ t ∈ rx.tpl, slot.length = t.width := by
  cases item with
  | nil =>
    cases h
    exact ⟨hrx, nofun⟩
  | cons tag payload =>
    by_cases htag : tag = tagTemplate
    · simp only [takeItem, if_pos htag] at h
      split at h
      · rename_i hread
        cases h
        refine ⟨fun t ht => ?_, nofun⟩
        cases ht
        exact (deserialize_shape hread).1
      · cases h
        exact ⟨hrx, nofun⟩
    · cases htpl : rx.tpl with
      | none =>
        simp only [takeItem, if_neg htag, htpl] at h
        cases h
        exact ⟨hrx, nofun⟩
      | some t =>
        rw [takeItem_handed htag htpl] at h
        obtain ⟨slots, hslots, heq⟩ := map_eq_some_iff.mp h
        cases heq
        refine ⟨hrx, fun slot hslot => ⟨t, rfl, ?_⟩⟩
        obtain ⟨record, -, hdecode⟩ := mem_of_mapM hslots slot hslot
        exact decode_width (hrx t htpl) hdecode

theorem poll_isSome_iff : (rx.poll items).isSome ↔
    EveryStep (fun rx item => (rx.takeItem item).map Prod.fst) Fits rx items := by
  induction items generalizing rx with
  | nil => simp [poll, EveryStep]
  | cons item items ih =>
    rw [poll, EveryStep, ← takeItem_isSome_iff]
    cases rx.takeItem item with
    | none => simp
    | some taken => simp [ih]

theorem poll_shaped (hrx : rx.Shaped) (h : rx.poll items = some (rx', out)) : rx'.Shaped := by
  induction items generalizing rx out with
  | nil =>
    cases h
    exact hrx
  | cons item items ih =>
    obtain ⟨⟨rx1, slots⟩, htake, h⟩ := bind_eq_some_iff.mp h
    obtain ⟨⟨rx2, rest⟩, hpoll, heq⟩ := map_eq_some_iff.mp h
    cases heq
    exact ih (takeItem_slots hrx htake).1 hpoll

/-- Whatever the items: the loop ends without a panic just where every record
fits the template in force by then, and each slot has the width of that template. -/
theorem poll_total_iff (items : List Item) : ((poll ⟨none⟩ items).isSome ↔
      EveryStep (fun rx item => (rx.takeItem item).map Prod.fst) Fits ⟨none⟩ items) ∧
    ∀ rx out item rx' slots, poll ⟨none⟩ items = some (rx, out) →
      rx.takeItem item = some (rx', slots) →
        ∀ slot ∈ slots, ∃ t ∈ rx.tpl, slot.length = t.width := by
  have hinit : Shaped ⟨none⟩ := nofun
  refine ⟨poll_isSome_iff, fun rx out item rx' slots hpoll htake => ?_⟩
  exact (takeItem_slots (poll_shaped hinit hpoll) htake).2

/-- A template of no bytes, then a data item with no record in it. -/
theorem empty_record_panics : poll ⟨none⟩ [tagTemplate :: [0, 0, 0, 0].map byte, [tagData]] = none := by
  decide +kernel

end CompressedReceiver
end SubEtha.Compress
