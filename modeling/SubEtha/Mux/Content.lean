import SubEtha.Mux.Model
import SubEtha.Lib.Lists

namespace SubEtha.Mux
open Option List Lib Rlc

theorem frame_length (tag cid stream : Nat) (body : Packet) :
    (frame tag cid stream body).length = 13 + body.length := by
  simp only [frame, length_cons, length_append, leBytes_length]
  omega

theorem frame_tag (tag cid stream : Nat) (body : Packet) :
    leAt (frame tag cid stream body) 0 1 = tag % 256 := by
  simp [frame, leAt, leValue]

theorem frame_cid (hcid : cid < 2 ^ 64) : leAt (frame tag cid stream body) 1 8 = cid := by
  rw [frame, leAt_cons (by decide), leAt_here]
  exact Nat.mod_eq_of_lt hcid

theorem frame_stream (hstream : stream < 2 ^ 32) :
    leAt (frame tag cid stream body) 9 4 = stream := by
  rw [frame, leAt_cons (by decide), leAt_skip (by decide), leAt_here]
  exact Nat.mod_eq_of_lt hstream

theorem frame_body (h : 13 ≤ pos) (v : Nat) :
    leAt (frame tag cid stream body) pos v = leAt body (pos - 13) v := by
  rw [frame, leAt_cons (by omega), leAt_skip (by omega), leAt_skip (by omega), Nat.sub_sub,
    Nat.sub_sub]

theorem frame_drop (n : Nat) : (frame tag cid stream body).drop (13 + n) = body.drop n := by
  have h : 13 + n = (8 + (4 + n)) + 1 := by omega
  rw [frame, h, drop_succ_cons, drop_append, drop_of_length_le (by simp),
    drop_append, drop_of_length_le (by simp), nil_append, nil_append]
  simp

section
variable {rx : Receiver} {cid stream : Nat}

/-- A frame of the bound connection, or of the first one seen. -/
def Binds (rx : Receiver) (cid : Nat) : Prop := rx.cid = none ∨ rx.cid = some cid

theorem Binds.gate (h : Binds rx cid) : ¬(rx.cid ≠ none ∧ rx.cid ≠ some cid) := by
  rcases h with h | h <;> simp [h]

variable (hb : Binds rx cid)
include hb

variable (hcid : cid < 2 ^ 64)
include hcid

variable (hstream : stream < 2 ^ 32)
include hstream

/-- Dispatch on the type byte, with the fields read off the body. -/
theorem ingest_frame (tag : Nat) (body : Packet) : rx.ingest (frame tag cid stream body) =
      if tag % 256 = tagStream ∧ 4 + rx.symbolLen ≤ body.length then
        { rx with cid := some cid }.update stream fun st =>
          st.onStream (leAt body 0 4) ((body.drop 4).take rx.symbolLen)
      else if tag % 256 = tagStreamRepair ∧ 11 + rx.symbolLen ≤ body.length then
        { rx with cid := some cid }.update stream fun st => st.onRepair {
          repairKey := leAt body 0 4
          firstSourceId := leAt body 4 4
          windowSize := leAt body 8 2
          dt := leAt body 10 1
          payload := (body.drop 11).take rx.symbolLen }
      else if tag % 256 = tagStreamFin ∧ 6 ≤ body.length then
        { rx with cid := some cid }.update stream fun st =>
          st.onFin (leAt body 0 4) (leAt body 4 2)
      else { rx with cid := some cid } := by
  have hle : ∀ n m, 13 + n + m ≤ 13 + body.length ↔ n + m ≤ body.length := by omega
  unfold Receiver.ingest
  rw [if_neg (by rw [frame_length]; omega)]
  simp only [frame_tag, frame_cid hcid, frame_stream hstream, frame_length]
  rw [if_neg hb.gate]
  simp only [frame_body le_rfl, frame_body (show 13 ≤ 17 by decide),
    frame_body (show 13 ≤ 21 by decide), frame_body (show 13 ≤ 23 by decide),
    show streamHdr = 13 + 4 from rfl, show repairHdr = 13 + 11 from rfl,
    show finLen = 13 + 6 from rfl, frame_drop, hle, Nat.add_le_add_iff_left]

theorem ingest_wireStream (hsid : sid < 2 ^ 32) (hsym : sym.length = rx.symbolLen) :
    rx.ingest (wireStream cid stream sid sym) =
      { rx with cid := some cid }.update stream fun st => st.onStream sid sym := by
  rw [wireStream, ingest_frame hb hcid hstream, if_pos ⟨rfl, by simp [hsym]⟩, leAt_here,
    Nat.mod_eq_of_lt (show sid < 256 ^ 4 from hsid), drop_left' (leBytes_length ..), ← hsym, take_length]

theorem ingest_wireRepair (hsym : r.payload.length = rx.symbolLen) : rx.ingest (wireRepair cid stream r) =
      { rx with cid := some cid }.update stream fun st => st.onRepair (readRepair r) := by
  rw [wireRepair, ingest_frame hb hcid hstream, if_neg (by simp [tagStreamRepair, tagStream]),
    if_pos ⟨rfl, by rw [repairBytes_length, hsym]⟩, repairBytes_payload, ← hsym, take_length,
    readRepair_eq]

theorem ingest_wireFin (hsid : finalSid < 2 ^ 32) (hlen : finalLen < 2 ^ 16) :
    rx.ingest (wireFin cid stream finalSid finalLen) =
      { rx with cid := some cid }.update stream fun st => st.onFin finalSid finalLen := by
  rw [wireFin, ingest_frame hb hcid hstream, if_neg (by simp [tagStreamFin, tagStream]),
    if_neg (by simp [tagStreamFin, tagStreamRepair]), if_pos ⟨rfl, by simp⟩, leAt_here,
    leAt_skip (by decide), leAt_end, Nat.mod_eq_of_lt (show finalSid < 256 ^ 4 from hsid),
    Nat.mod_eq_of_lt (show finalLen < 256 ^ 2 from hlen)]

end

section
variable {tx : Sender}

theorem handleFeedback_ack (hcid : tx.cid < 2 ^ 64) (hstream : stream < 2 ^ 32)
    (h : through < 2 ^ 32) :
    tx.handleFeedback (wireAck tx.cid stream through) = (tx.onAck stream through, []) := by
  unfold Sender.handleFeedback
  rw [if_neg (by simp [wireAck, frame_length]), wireAck, frame_cid hcid, if_neg (by simp),
    frame_stream hstream, frame_tag, frame_body le_rfl, Nat.sub_self, leAt_end,
    Nat.mod_eq_of_lt (show through < 256 ^ 4 from h)]
  simp [tagStreamAck, tagStreamNak, frame_length, ackLen]

theorem handleFeedback_nak (hcid : tx.cid < 2 ^ 64) (hstream : stream < 2 ^ 32)
    (missing : List Nat) : ∃ want,
    tx.handleFeedback (wireNak tx.cid stream missing) = (tx, tx.onNak stream want) := by
  unfold Sender.handleFeedback
  rw [if_neg (by simp [wireNak, frame_length]), wireNak, frame_cid hcid, if_neg (by simp),
    frame_stream hstream, frame_tag]
  exact ⟨_, if_pos rfl⟩

end

/-- A stream cut into symbols: full ones, and once finished a short last one. -/
structure Content (len : Nat) where
  full : List (List Byte)
  tail : Option (List Byte)
  full_len : ∀ p ∈ full, p.length = len
  tail_lt : ∀ t ∈ tail, t.length < len

def pad (len : Nat) (payload : List Byte) : List Byte :=
  payload ++ replicate (len - payload.length) (byte 0)

theorem pad_length (h : payload.length ≤ len) : (pad len payload).length = len := by
  rw [pad, length_append, length_replicate]
  omega

theorem pad_full (h : payload.length = len) : pad len payload = payload := by
  simp [pad, h]

namespace Content

variable {len : Nat} {p sym : List Byte}

section
variable (c : Content len)

def payloads : List (List Byte) := c.full ++ c.tail.toList

def bytes : List Byte := c.payloads.flatten

def symbols : List (List Byte) := c.payloads.map (pad len)

def finInfo : Option (Nat × Nat) :=
  c.tail.map fun t => (c.full.length, t.length)

theorem payload_length_le (h : p ∈ c.payloads) : p.length ≤ len := by
  rcases mem_append.mp h with h | h
  · exact le_of_eq (c.full_len p h)
  · exact le_of_lt (c.tail_lt p (mem_toList.mp h))

theorem symbols_length : c.symbols.length = c.payloads.length := length_map _

def assignment : Assignment len where
  symbols := fun id => c.symbols[id]?
  len_eq := by
    intro id sym h
    obtain ⟨p, hp, rfl⟩ := mem_map.mp (mem_of_getElem? h)
    exact pad_length (c.payload_length_le hp)

theorem get?_assignment (id : Nat) : c.assignment.symbols.get? id = c.symbols[id]? := rfl

section
variable {c : Content len} {id : Nat}

theorem symbol_of_payload (h : c.payloads[id]? = some p) : c.symbols[id]? = some (pad len p) := by
  rw [symbols, getElem?_map, h]
  rfl

theorem payload_of_symbol (h : c.symbols[id]? = some sym) :
    ∃ p, c.payloads[id]? = some p ∧ sym = pad len p := by
  rw [symbols, getElem?_map] at h
  obtain ⟨p, hp, rfl⟩ := map_eq_some_iff.mp h
  exact ⟨p, hp, rfl⟩

theorem payload_full (h : c.payloads[id]? = some p) (hid : id < c.full.length) :
    p.length = len := by
  rw [payloads, getElem?_append_left hid] at h
  exact c.full_len p (mem_of_getElem? h)

end

theorem payloads_length : c.payloads.length = c.full.length + c.tail.toList.length := length_append

theorem payloads_length_le : c.payloads.length ≤ c.full.length + 1 := by
  rw [payloads_length]
  cases c.tail <;> simp

theorem payload_tail {c : Content len} (h : c.tail = some t) :
    c.payloads[c.full.length]? = some t := by
  rw [payloads, getElem?_append_right le_rfl, Nat.sub_self, h]
  rfl

theorem full_flatten_length : c.full.flatten.length = c.full.length * len := by
  rw [length_flatten, map_congr_left (g := fun _ => len) c.full_len]
  simp

theorem bytes_eq : c.bytes = c.full.flatten ++ c.tail.getD [] := by
  rw [bytes, payloads, flatten_append]
  cases c.tail <;> simp

end

theorem chunk {c : Content len} {id : Nat} (hp : c.payloads[id]? = some p)
    (hpending : c.tail ≠ none → pending = []) :
    ((c.bytes ++ pending).drop (id * len)).take len = p := by
  have hid := lt_of_some hp
  have hle := c.payloads_length_le
  have hend : id * len ≤ c.full.flatten.length := by
    rw [full_flatten_length]
    exact Nat.mul_le_mul_right _ (by omega)
  rw [bytes_eq, append_assoc, drop_append_of_le_length hend, drop_mul_flatten c.full_len]
  by_cases hfull : id < c.full.length
  · have hplen := payload_full hp hfull
    rw [payloads, getElem?_append_left hfull] at hp
    simp [drop_eq_getElem_cons hfull, (List.getElem_of_getElem? hp).2, take_left' hplen]
  cases ht : c.tail with
  | none =>
    rw [payloads_length, ht] at hid
    exact absurd hid hfull
  | some t =>
    obtain rfl : id = c.full.length := by omega
    obtain rfl := some.inj ((payload_tail ht).symm.trans hp)
    rw [drop_length, hpending (by simp [ht])]
    simpa using take_of_length_le (le_of_lt (c.tail_lt t ht))

/-- What has been written as symbols stays; a finished stream stays as it is. -/
structure Extends (c c' : Content len) : Prop where
  full : c.full <+: c'.full
  tail : ∀ t, c.tail = some t → c'.full = c.full ∧ c'.tail = some t

theorem Extends.refl (c : Content len) : c.Extends c := ⟨prefix_rfl, fun _ h => ⟨rfl, h⟩⟩

theorem Extends.trans {c c' c'' : Content len} (h : c.Extends c') (h' : c'.Extends c'') :
    c.Extends c'' := by
  refine ⟨h.full.trans h'.full, fun t ht => ?_⟩
  obtain ⟨hfull, htail⟩ := h.tail t ht
  obtain ⟨hfull', htail'⟩ := h'.tail t htail
  exact ⟨hfull'.trans hfull, htail'⟩

section
variable {c c' : Content len} (h : c.Extends c')
include h

theorem Extends.payloads : c.payloads <+: c'.payloads := by
  cases ht : c.tail with
  | none =>
    rw [Content.payloads, ht, toList_none, append_nil]
    exact h.full.trans (prefix_append ..)
  | some t =>
    obtain ⟨hfull, htail⟩ := h.tail t ht
    rw [Content.payloads, Content.payloads, ht, hfull, htail]

theorem Extends.symbols {id : Nat} (hsym : c.symbols[id]? = some sym) :
    c'.symbols[id]? = some sym := by
  obtain ⟨p, hp, rfl⟩ := payload_of_symbol hsym
  obtain ⟨rest, hrest⟩ := h.payloads
  refine symbol_of_payload ?_
  rw [← hrest, getElem?_append_left (lt_of_some hp), hp]

theorem Extends.assignment : c.assignment.Extends c'.assignment := fun _ _ hsym => h.symbols hsym

theorem Extends.finInfo (hinfo : c.finInfo = some info) : c'.finInfo = some info := by
  obtain ⟨t, ht, rfl⟩ := map_eq_some_iff.mp hinfo
  obtain ⟨hfull, htail⟩ := h.tail t ht
  rw [Content.finInfo, hfull, htail]
  rfl

end

/-- The content after one more symbol. -/
def Snoc (c c' : Content len) (payload : List Byte) : Prop :=
  c.tail = none ∧ (c'.full = c.full ++ [payload] ∧ c'.tail = none ∨
    c'.full = c.full ∧ c'.tail = some payload)

section
variable {c c' : Content len} {payload : List Byte}

section
variable (h : c.Snoc c' payload)
include h

theorem Snoc.payloads : c'.payloads = c.payloads ++ [payload] := by
  obtain ⟨htail, ⟨hfull, htail'⟩ | ⟨hfull, htail'⟩⟩ := h <;>
    simp [Content.payloads, htail, hfull, htail']

theorem Snoc.extends : c.Extends c' := by
  refine ⟨?_, fun t ht => by rw [h.1] at ht; cases ht⟩
  obtain ⟨-, ⟨hfull, -⟩ | ⟨hfull, -⟩⟩ := h
  · exact hfull ▸ prefix_append ..
  · exact hfull ▸ prefix_rfl

theorem Snoc.symbols : c'.symbols = c.symbols ++ [pad len payload] := by
  rw [Content.symbols, h.payloads, map_append]
  rfl

theorem Snoc.bytes : c'.bytes = c.bytes ++ payload := by
  rw [Content.bytes, h.payloads, flatten_append]
  simp [Content.bytes]

theorem Snoc.pad_length : (pad len payload).length = len := by
  refine Mux.pad_length (c'.payload_length_le ?_)
  rw [h.payloads]
  exact mem_append_right _ (mem_singleton_self _)

theorem Snoc.length : c'.payloads.length = c.payloads.length + 1 := by
  rw [h.payloads, length_append]
  rfl

theorem Snoc.get? (id : Nat) :
    c'.symbols[id]? = if id = c.payloads.length then some (pad len payload) else c.symbols[id]? := by
  rw [h.symbols, getElem?_append, symbols_length]
  split
  · rw [if_neg (by omega)]
  split
  · subst id
    rw [Nat.sub_self]
    rfl
  · rw [getElem?_eq_none (by simp; omega), getElem?_eq_none (by rw [symbols_length]; omega)]

theorem Snoc.assignment :
    c'.assignment = c.assignment.assign c.payloads.length (pad len payload) h.pad_length :=
  Assignment.ext (funext h.get?)

end
end

def push (c : Content len) (payload : List Byte) (h : payload.length = len) : Content len where
  full := c.full ++ [payload]
  tail := c.tail
  full_len := by
    intro p hp
    rcases mem_append.mp hp with hp | hp
    · exact c.full_len p hp
    · rw [mem_singleton.mp hp, h]
  tail_lt := c.tail_lt

theorem snoc_push {c : Content len} (ht : c.tail = none) :
    c.Snoc (c.push payload h) payload := ⟨ht, .inl ⟨rfl, ht⟩⟩

def close (c : Content len) (t : List Byte) (h : t.length < len) : Content len where
  full := c.full
  tail := some t
  full_len := c.full_len
  tail_lt := by
    intro t' ht
    rw [← mem_some.mp ht]
    exact h

theorem snoc_close {c : Content len} (ht : c.tail = none) :
    c.Snoc (c.close t h) t := ⟨ht, .inr ⟨rfl, rfl⟩⟩

end Content

/-- A datagram the sender may have put on the wire. -/
inductive FrameOk {len : Nat} (cid : Nat) (C : Nat → Content len) : Packet → Prop
  | stream {stream sid : Nat} {sym : List Byte} (hstream : stream < 2 ^ 32) (hsid : sid < 2 ^ 32)
      (h : (C stream).symbols[sid]? = some sym) : FrameOk cid C (wireStream cid stream sid sym)
  | repair {stream : Nat} {r : RepairSymbol} (hstream : stream < 2 ^ 32)
      (h : RepairOk (C stream).assignment r) : FrameOk cid C (wireRepair cid stream r)
  | fin {stream finalSid finalLen : Nat} (hstream : stream < 2 ^ 32) (hsid : finalSid < 2 ^ 32)
      (h : (C stream).finInfo = some (finalSid, finalLen)) :
      FrameOk cid C (wireFin cid stream finalSid finalLen)

theorem FrameOk.mono {pkt : Packet} (h : FrameOk cid C pkt)
    (hC : ∀ stream, (C stream).Extends (C' stream)) : FrameOk cid C' pkt := by
  cases h with
  | stream hstream hsid h => exact .stream hstream hsid ((hC _).symbols h)
  | repair hstream h => exact .repair hstream (h.mono (hC _).assignment)
  | fin hstream hsid h => exact .fin hstream hsid ((hC _).finInfo h)

end SubEtha.Mux
