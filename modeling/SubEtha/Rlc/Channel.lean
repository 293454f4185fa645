import SubEtha.Rlc.Soundness
import SubEtha.Lib.Runs

namespace SubEtha.Rlc
open Option List Lib

inductive Sent
  | source (id : Nat) (payload : List Byte)
  | repair (r : RepairSymbol)

inductive ChannelEvent
  | pushSource (payload : List Byte)
  | setParams (windowMax step dt : Nat)
  | setCoding (on : Bool)
  | forgetBelow (floor : Nat)
  | rebaseTo (base : Nat)
  | deliver (n : Nat)
  | recover
  | decoderForgetBelow (floor : Nat)
  | decoderRebaseTo (base : Nat)

/-- One encoder and one decoder with everything the encoder produced between
them, and the symbol it assigned to each id. -/
structure Channel where
  enc : RlcEncoder
  dec : RlcDecoder
  wire : List Sent
  assigned : Table Nat (List Byte)

namespace Channel

def init (windowMax step dt symbolLen horizon : Nat) : Channel where
  enc := RlcEncoder.new windowMax step dt symbolLen
  dec := (RlcDecoder.new symbolLen).withHorizon horizon
  wire := []
  assigned := Table.empty

def receive (d : RlcDecoder) : Sent → RlcDecoder
  | .source id payload => d.onSource id payload
  | .repair r => d.addRepair r

def step (s : Channel) : ChannelEvent → Option Channel
  | .pushSource payload =>
    let pushed := s.enc.pushSource payload
    some { s with
      enc := pushed.1
      wire := s.wire ++ .source pushed.2.1 payload :: (pushed.2.2.map Sent.repair).toList
      assigned := s.assigned.insert pushed.2.1 payload }
  | .setParams windowMax step dt => some { s with enc := s.enc.setParams windowMax step dt }
  | .setCoding on => some { s with enc := s.enc.setCoding on }
  | .forgetBelow floor => some { s with enc := s.enc.forgetBelow floor }
  | .rebaseTo base => some { s with enc := s.enc.rebaseTo base }
  | .deliver n => some { s with dec := (s.wire[n]?).elim s.dec (receive s.dec) }
  | .recover => some { s with dec := s.dec.recover.1 }
  | .decoderForgetBelow floor => some { s with dec := s.dec.forgetBelow floor }
  | .decoderRebaseTo base => some { s with dec := s.dec.rebaseTo base }

/-- Symbols have the encoder's length, windows fit the repair header, and the
ids run upwards below `2^32`. -/
def Allowed (s : Channel) : ChannelEvent → Prop
  | .pushSource payload =>
    payload.length = s.enc.symbolLen ∧ s.enc.nextSourceId + 1 < 2 ^ 32
  | .setParams windowMax _ _ => windowMax < 2 ^ 16
  | .rebaseTo base => s.enc.nextSourceId ≤ base ∧ base < 2 ^ 32
  | _ => True

instance (s : Channel) (ev : ChannelEvent) : Decidable (Allowed s ev) := by
  cases ev <;> unfold Allowed <;> infer_instance

end Channel

/-- What was sent is an assigned symbol or a repair over assigned symbols. -/
def SentOk {len : Nat} (a : Assignment len) : Sent → Prop
  | .source id payload => a.symbols.get? id = some payload
  | .repair r => RepairOk a r

variable {len : Nat}

theorem SentOk.mono (h : SentOk a m) (ha : a.Extends a') : SentOk a' m := by
  cases m with
  | source id payload => exact ha id payload h
  | repair r => exact RepairOk.mono h ha

/-- Both ends and the wire agree with the assigned symbols. -/
structure Sound {len : Nat} (a : Assignment len) (s : Channel) : Prop where
  assigned_eq : s.assigned = a.symbols
  enc : EncodesOk a s.enc
  dec : DecodesOk a s.dec
  wire : ∀ m ∈ s.wire, SentOk a m

theorem sound_push {a : Assignment len} {s s' : Channel} (h : Sound a s)
    (hok : s.Allowed (.pushSource payload)) (hstep : s.step (.pushSource payload) = some s') :
    ∃ a' : Assignment len, Sound a' s' := by
  obtain ⟨hlen, hnext⟩ := hok
  rw [h.enc.symbolLen_eq] at hlen
  obtain ⟨henc, hsid, hrepair⟩ := pushSource_ok h.enc hlen hnext
  have ha := h.enc.extends_assign hlen
  cases hstep
  refine ⟨a.assign s.enc.nextSourceId payload hlen, ?_, henc, h.dec.mono ha, fun m hm => ?_⟩
  · rw [hsid, h.assigned_eq]
    rfl
  rcases mem_append.mp hm with hm | hm
  · exact (h.wire m hm).mono ha
  rcases mem_cons.mp hm with rfl | hm
  · rw [hsid]
    simp [SentOk, Assignment.assign]
  rw [mem_toList, map_eq_some_iff] at hm
  obtain ⟨r, hr, rfl⟩ := hm
  exact hrepair r hr

theorem receive_ok (hd : DecodesOk a d) (hm : SentOk a m) : DecodesOk a (Channel.receive d m) := by
  cases m with
  | source id payload => exact onSource_ok hd hm
  | repair r => exact addRepair_ok hd hm

theorem sound_step (h : ∃ a : Assignment len, Sound a s) (hok : s.Allowed ev)
    (hstep : s.step ev = some s') : ∃ a : Assignment len, Sound a s' := by
  obtain ⟨a, h⟩ := h
  cases ev with
  | pushSource payload => exact sound_push h hok hstep
  | setParams windowMax step dt =>
    cases hstep
    exact ⟨a, h.assigned_eq, setParams_ok h.enc hok, h.dec, h.wire⟩
  | setCoding on =>
    cases hstep
    exact ⟨a, h.assigned_eq, setCoding_ok h.enc on, h.dec, h.wire⟩
  | forgetBelow floor =>
    cases hstep
    exact ⟨a, h.assigned_eq, enc_forgetBelow_ok h.enc floor, h.dec, h.wire⟩
  | rebaseTo base =>
    cases hstep
    exact ⟨a, h.assigned_eq, enc_rebaseTo_ok h.enc hok.1 hok.2, h.dec, h.wire⟩
  | deliver n =>
    cases hstep
    refine ⟨a, h.assigned_eq, h.enc, ?_, h.wire⟩
    cases hn : s.wire[n]? with
    | none => simpa [hn] using h.dec
    | some m => simpa [hn] using receive_ok h.dec (h.wire m (mem_of_getElem? hn))
  | recover =>
    cases hstep
    exact ⟨a, h.assigned_eq, h.enc, tryRecover_ok h.dec, h.wire⟩
  | decoderForgetBelow floor =>
    cases hstep
    exact ⟨a, h.assigned_eq, h.enc, forgetBelow_ok h.dec floor, h.wire⟩
  | decoderRebaseTo base =>
    cases hstep
    exact ⟨a, h.assigned_eq, h.enc, rebaseTo_ok s.dec base, h.wire⟩

theorem sound_init (hmax : windowMax < 2 ^ 16) :
    ∃ a : Assignment symbolLen, Sound a (Channel.init windowMax step dt symbolLen horizon) :=
  ⟨⟨Table.empty, nofun⟩, rfl, encodesOk_new hmax fun _ => rfl, decodesOk_new _ horizon, nofun⟩

/-- Whatever the channel loses, repeats and reorders, and however the decoder
recovers, forgets and rebases in between, a symbol it returns is the one the
encoder assigned to that id. -/
theorem get_eq_assigned {windowMax step dt symbolLen horizon : Nat} {events : List ChannelEvent}
    {s : Channel} (hmax : windowMax < 2 ^ 16) (hok : EveryStep Channel.step Channel.Allowed
      (Channel.init windowMax step dt symbolLen horizon) events)
    (hrun : run Channel.step (Channel.init windowMax step dt symbolLen horizon) events = some s)
    {id : Nat} {sym : List Byte} (hget : s.dec.get id = some sym) :
    s.assigned.get? id = some sym := by
  obtain ⟨a, h⟩ := run_invariant (fun _ _ _ => sound_step) (sound_init hmax) hok hrun
  rw [h.assigned_eq]
  exact h.dec.source id sym hget

/-- The second of three symbols is lost and comes back from the repair. -/
def lostSymbol : List ChannelEvent :=
  [.pushSource [byte 5], .pushSource [byte 6], .pushSource [byte 7], .deliver 0, .deliver 2,
    .deliver 3, .recover]

theorem get_eq_assigned_lostSymbol :
    ∃ s, run Channel.step (Channel.init 8 3 15 1 1024) lostSymbol = some s ∧
      s.dec.get 1 = some [byte 6] ∧ s.assigned.get? 1 = some [byte 6] := by
  have hlast : EveryStep Channel.step Channel.Allowed (Channel.init 8 3 15 1 1024) lostSymbol ∧
      (run Channel.step (Channel.init 8 3 15 1 1024) lostSymbol).map (fun s => s.dec.get 1) =
        some (some [byte 6]) := by
    decide +kernel
  obtain ⟨s, hrun, hget⟩ := map_eq_some_iff.mp hlast.2
  exact ⟨s, hrun, hget, get_eq_assigned (by decide) hlast.1 hrun hget⟩

end SubEtha.Rlc
