import SubEtha.Compress.Link

namespace SubEtha.Compress
open List Option Lib SchemaTemplate CompressedLink CompressedSender CompressedReceiver

def frame (cslot : List Byte) : List Byte := leBytes 2 cslot.length ++ cslot

/-- The record decodes to the slot and its length fits the frame. -/
def Record (t : SchemaTemplate) (cslot : List Byte) (slot : Slot) : Prop :=
  cslot.length < 2 ^ 16 ∧ t.decode cslot = some slot

theorem frame_length (cslot : List Byte) : (frame cslot).length = 2 + cslot.length := by
  simp [frame]

theorem unbatch_frames (h : List.Forall₂ (Record t) records slots) (hfuel : records.length ≤ fuel) :
    unbatch t fuel (records.flatMap frame) = some slots := by
  induction h generalizing fuel with
  | nil =>
    cases fuel with
    | zero => rfl
    | succ fuel => simp [unbatch]
  | @cons cslot slot records slots hrec _ ih =>
    cases fuel with
    | zero => exact absurd hfuel (Nat.not_succ_le_zero _)
    | succ fuel =>
      have hlen : leAt (frame cslot ++ records.flatMap frame) 0 2 = cslot.length := by
        rw [frame, append_assoc, leAt_here]
        exact Nat.mod_eq_of_lt hrec.1
      have hdrop : (frame cslot ++ records.flatMap frame).drop 2 =
          cslot ++ records.flatMap frame := by
        simp [frame, drop_left' (leBytes_length ..)]
      rw [flatMap_cons, unbatch, if_pos (by
        rw [length_append, frame_length]
        omega)]
      rw [hlen, hdrop, if_neg (by rw [length_append]; omega), take_left, drop_left,
        hrec.2, bind_some, ih (Nat.le_of_succ_le_succ hfuel)]
      rfl

theorem frames_length (records : List (List Byte)) :
    records.length ≤ (records.flatMap frame).length := by
  induction records with
  | nil => exact le_rfl
  | cons cslot records ih =>
    rw [flatMap_cons, length_append, frame_length, length_cons]
    omega

theorem poll_append (rx : CompressedReceiver) (items items' : List Item) :
    rx.poll (items ++ items') = (rx.poll items).bind fun (rx1, slots) =>
      (rx1.poll items').map fun (rx2, slots') => (rx2, slots ++ slots') := by
  induction items generalizing rx with
  | nil =>
    rw [nil_append, poll, bind_some]
    dsimp only
    cases rx.poll items' <;> rfl
  | cons item items ih =>
    rw [cons_append, poll, poll]
    cases rx.takeItem item with
    | none => rfl
    | some r =>
      simp only [bind_some, ih, map_bind]
      cases r.1.poll items with
      | none => rfl
      | some r' =>
        simp only [bind_some, map_some, Function.comp]
        cases r'.1.poll items' with
        | none => rfl
        | some r'' => simp

/-- The receiver, once it has everything sent so far, holds the sender's template,
and the batch under construction carries `pending`. -/
structure Synced (width : Nat) (tx : CompressedSender) (rx : CompressedReceiver)
    (pending : List Slot) : Prop where
  wf : tx.tpl.Wf
  width_eq : tx.tpl.width = width
  held : tx.started = true → rx.tpl = some tx.tpl
  begun : pending ≠ [] → tx.started = true
  batched : tx.coalesce = true → ∃ records, tx.batch = tagBatch :: records.flatMap frame ∧
    List.Forall₂ (Record tx.tpl) records pending
  single : tx.coalesce = false → tx.batch = [] ∧ pending = []
  recent : ∀ slot ∈ tx.recent, slot.length = width

/-- What a call puts on the wire brings the receiver back into step, with `sent` the
slots the call was given. -/
def Carries (width : Nat) (rx : CompressedReceiver) (pending sent : List Slot)
    (tx' : CompressedSender) (out : List Item) : Prop :=
  ∃ rx' slots pending', rx.poll out = some (rx', slots) ∧
    slots ++ pending' = pending ++ sent ∧ Synced width tx' rx' pending'

variable {slot : Slot}

section
variable {width : Nat} {tx tx' : CompressedSender} {rx : CompressedReceiver}
  {pending sent sent' : List Slot}

theorem Carries.nothing (h : Synced width tx rx pending) : Carries width rx pending [] tx [] :=
  ⟨rx, [], pending, rfl, by rw [append_nil, nil_append], h⟩

theorem Carries.trans (h : Carries width rx pending sent tx out)
    (h' : ∀ rx' pending', Synced width tx rx' pending' →
      Carries width rx' pending' sent' tx' out') :
    Carries width rx pending (sent ++ sent') tx' (out ++ out') := by
  obtain ⟨rx1, slots, pending1, hpoll, heq, hs⟩ := h
  obtain ⟨rx2, slots', pending2, hpoll', heq', hs'⟩ := h' rx1 pending1 hs
  refine ⟨rx2, slots ++ slots', pending2, ?_, ?_, hs'⟩
  · rw [poll_append, hpoll, bind_some]
    dsimp only
    rw [hpoll']
    rfl
  · rw [append_assoc, heq', ← append_assoc, heq, append_assoc]

theorem takeItem_template (tx : CompressedSender) (h : tx.tpl.Wf) (rx : CompressedReceiver) :
    rx.poll [tx.templateItem] = some ({ tpl := some tx.tpl }, []) := by
  have htake : rx.takeItem tx.templateItem = some ({ tpl := some tx.tpl }, []) := by
    rw [templateItem, takeItem, if_pos rfl, deserialize_serialize h]
  rw [poll, htake]
  rfl

section
variable (h : Synced width tx rx pending)
include h

theorem start_carries : Carries width rx pending [] tx.start.1 tx.start.2 := by
  unfold start
  split
  · exact .nothing h
  rename_i hfresh
  have hnone : pending = [] := by
    by_contra hne
    exact hfresh (h.begun hne)
  subst hnone
  exact ⟨_, [], [], takeItem_template tx h.wf rx, rfl, h.wf, h.width_eq, fun _ => rfl,
    fun _ => rfl, h.batched, h.single, h.recent⟩

theorem remember_synced (hslot : slot.length = width) :
    Synced width (tx.remember slot) rx pending := by
  unfold remember
  split
  · refine { h with recent := fun s hs => ?_ }
    rcases mem_append.mp hs with hs | hs
    · split at hs
      · exact h.recent s (mem_of_mem_tail hs)
      · exact h.recent s hs
    · rw [mem_singleton.mp hs]
      exact hslot
  · exact h

theorem flushBatch_synced :
    rx.poll tx.flushBatch.2 = some (rx, pending) ∧ Synced width tx.flushBatch.1 rx [] := by
  unfold flushBatch
  cases hco : tx.coalesce with
  | false =>
    obtain ⟨hbatch, rfl⟩ := h.single hco
    rw [if_neg (by simp [hbatch])]
    exact ⟨rfl, h⟩
  | true =>
    obtain ⟨records, hbatch, hall⟩ := h.batched hco
    cases hrec : records with
    | nil =>
      rw [hrec] at hbatch hall
      cases hall
      rw [if_neg (by simp [hbatch])]
      exact ⟨rfl, h⟩
    | cons cslot rest =>
      have hlong : 1 < tx.batch.length := by
        have := frames_length records
        rw [hbatch, length_cons]
        rw [hrec] at this ⊢
        rw [length_cons] at this
        omega
      have hne : pending ≠ [] := by
        rintro rfl
        rw [hrec] at hall
        cases hall
      have htag : tagBatch ≠ tagTemplate := by decide
      have htake : rx.takeItem tx.batch = some (rx, pending) := by
        rw [hbatch, takeItem, if_neg htag, h.held (h.begun hne)]
        dsimp only
        rw [if_pos rfl, unbatch_frames hall (frames_length records)]
        rfl
      rw [if_pos hlong]
      refine ⟨?_, h.wf, h.width_eq, h.held, fun hz => absurd rfl hz,
        fun _ => ⟨[], rfl, .nil⟩, fun hz => ?_, h.recent⟩
      · rw [poll, htake]
        simp [poll]
      · cases hz

theorem flushBatch_carries : Carries width rx pending [] tx.flushBatch.1 tx.flushBatch.2 :=
  ⟨rx, pending, [], (flushBatch_synced h).1, rfl, (flushBatch_synced h).2⟩

theorem append_synced (hco : tx.coalesce = true) (hstarted : tx.started = true)
    (hrec : Record tx.tpl cslot slot) :
    Synced width { tx with batch := tx.batch ++ (leBytes 2 cslot.length ++ cslot) } rx
      (pending ++ [slot]) := by
  refine ⟨h.wf, h.width_eq, h.held, fun _ => hstarted, fun _ => ?_, fun hz => ?_, h.recent⟩
  · obtain ⟨records, hbatch, hall⟩ := h.batched hco
    refine ⟨records ++ [cslot], ?_, rel_append hall (.cons hrec .nil)⟩
    rw [hbatch, flatMap_append, flatMap_singleton]
    rfl
  · rw [hco] at hz
    cases hz

theorem place_carries (hstarted : tx.started = true) (hdec : tx.tpl.decode cslot = some slot)
    (hlen : cslot.length < 2 ^ 16) :
    Carries width rx pending [slot] (tx.place cslot).1 (tx.place cslot).2 := by
  unfold place
  split
  · rename_i hco
    split
    · have hflush := flushBatch_synced h
      have hkeep : tx.flushBatch.1.coalesce = true ∧ tx.flushBatch.1.started = true ∧
          tx.flushBatch.1.tpl = tx.tpl := by
        unfold flushBatch
        split <;> exact ⟨hco, hstarted, rfl⟩
      exact ⟨rx, pending, [slot], hflush.1, rfl, append_synced hflush.2 hkeep.1 hkeep.2.1
        ⟨hlen, by rw [hkeep.2.2]; exact hdec⟩⟩
    · exact ⟨rx, [], pending ++ [slot], rfl, rfl, append_synced h hco hstarted ⟨hlen, hdec⟩⟩
  · rename_i hco
    obtain ⟨-, rfl⟩ := h.single (by simpa using hco)
    have htag : tagData ≠ tagTemplate := by decide
    have htag' : tagData ≠ tagBatch := by decide
    refine ⟨rx, [slot], [], ?_, rfl, h⟩
    rw [poll, takeItem, if_neg htag, h.held hstarted]
    dsimp only
    rw [if_neg htag', hdec]
    rfl

end

theorem relearnNow_carries (h : Synced width tx rx []) :
    ∃ s out, tx.relearnNow = some (s, out) ∧ Carries width rx [] [] s out := by
  have hlens : tx.recent.all (fun s => decide (tx.tpl.width ≤ s.length)) = true := by
    rw [List.all_eq_true]
    intro s hs
    rw [decide_eq_true_eq, h.width_eq, h.recent s hs]
  obtain ⟨tpl, hlearn⟩ : ∃ tpl, SchemaTemplate.learn tx.recent tx.tpl.width = some tpl := by
    unfold SchemaTemplate.learn
    rw [if_pos hlens]
    exact ⟨_, rfl⟩
  obtain ⟨hwf, hwidth⟩ := learn_wf h.wf.width_lt hlearn
  have hnew : Synced width { tx with tpl := tpl } { tpl := some tpl } [] := by
    refine ⟨hwf, hwidth.trans h.width_eq, fun _ => rfl, fun hz => absurd rfl hz, fun hco => ?_,
      h.single, h.recent⟩
    obtain ⟨records, hbatch, hall⟩ := h.batched hco
    cases hall
    exact ⟨[], hbatch, .nil⟩
  refine ⟨{ tx with tpl := tpl }, _, by rw [relearnNow, hlearn]; rfl,
    { tpl := some tpl }, [], [], ?_, rfl, hnew⟩
  exact takeItem_template { tx with tpl := tpl } hwf rx

theorem checkDrift_carries (h : Synced width tx rx pending) (escaped : Bool) :
    ∃ s out, tx.checkDrift escaped = some (s, out) ∧ Carries width rx pending [] s out := by
  have hcount : ∀ e n, Synced width { tx with escapes := e, sinceCheck := n } rx pending :=
    fun _ _ => { h with }
  unfold checkDrift
  split
  · dsimp only
    generalize (if escaped = true then tx.escapes + 1 else tx.escapes) = e
    split
    · split
      · obtain ⟨hpoll, hflushed⟩ := flushBatch_synced (hcount e (tx.sinceCheck + 1))
        obtain ⟨s, out, hrelearn, rx', slots, pending', hpoll', heq, hs⟩ :=
          relearnNow_carries hflushed
        rw [hrelearn]
        refine ⟨_, _, rfl, rx', pending ++ slots, pending', ?_, ?_, ?_⟩
        · rw [poll_append, hpoll, bind_some]
          dsimp only
          rw [hpoll']
          rfl
        · rw [append_assoc, heq]
          rfl
        · exact { hs with }
      · exact ⟨_, _, rfl, .nothing (hcount _ _)⟩
    · exact ⟨_, _, rfl, .nothing (hcount _ _)⟩
  · exact ⟨_, _, rfl, .nothing h⟩

theorem start_frame (tx : CompressedSender) :
    tx.start.1.started = true ∧ tx.start.1.tpl = tx.tpl := by
  unfold start
  split
  · exact ⟨by assumption, rfl⟩
  · exact ⟨rfl, rfl⟩

theorem remember_frame (tx : CompressedSender) (slot : Slot) :
    (tx.remember slot).started = tx.started ∧ (tx.remember slot).tpl = tx.tpl := by
  unfold remember
  split <;> exact ⟨rfl, rfl⟩

/-- A slot of the stream's width reaches the receiver behind everything sent before. -/
theorem sendItem_carries (hwidth : width + 1 < 2 ^ 16) (h : Synced width tx rx pending)
    (hslot : slot.length = width) :
    ∃ s out, tx.sendItem slot = some (s, out) ∧ Carries width rx pending [slot] s out := by
  obtain ⟨hstarted, htpl⟩ := start_frame tx
  obtain ⟨hstarted', htpl'⟩ := remember_frame tx.start.1 slot
  rw [htpl] at htpl'
  rw [hstarted] at hstarted'
  have hplaced : Carries width rx pending [slot]
      ((tx.start.1.remember slot).place (tx.tpl.encode slot)).1
      (tx.start.2 ++ ((tx.start.1.remember slot).place (tx.tpl.encode slot)).2) := by
    refine (start_carries h).trans fun rx' pending' hs => ?_
    refine place_carries (remember_synced hs hslot) hstarted' ?_ ?_
    · rw [htpl']
      exact decode_encode h.wf.template_length h.wf.var_lt h.wf.const_eq (hslot.trans h.width_eq.symm)
    · have hlen := encode_length_le h.wf slot
      rw [h.width_eq] at hlen
      omega
  obtain ⟨rx1, slots, pending1, hpoll, heq, hs⟩ := hplaced
  obtain ⟨s, out, hdrift, rx2, slots', pending2, hpoll', heq', hs'⟩ :=
    checkDrift_carries hs (isEscape (tx.tpl.encode slot))
  refine ⟨s, _, by
    rw [sendItem]
    rw [htpl', hdrift]
    rfl, rx2, slots ++ slots', pending2, ?_, ?_, hs'⟩
  · rw [← append_assoc, poll_append, hpoll, bind_some]
    dsimp only
    rw [hpoll']
    rfl
  · simp [heq', heq]

end

/-- What the receiver has not yielded yet is on its way or in the batch. -/
def Mirrors (width : Nat) (s : CompressedLink) : Prop :=
  ∃ rest, s.got ++ rest = s.sent ∧ Carries width s.rx [] rest s.tx s.queue

def SlotsOf (width : Nat) (_ : CompressedLink) : CompressedEvent → Prop
  | .send slot => slot.length = width
  | _ => True

instance (width : Nat) (s : CompressedLink) (ev : CompressedEvent) :
    Decidable (SlotsOf width s ev) := by
  cases ev <;> unfold SlotsOf <;> infer_instance

section
variable {width : Nat}

theorem mirrors_step (hwidth : width + 1 < 2 ^ 16) (h : Mirrors width s) (hslot : SlotsOf width s ev) :
    ∃ s', s.step ev = some s' ∧ Mirrors width s' := by
  obtain ⟨rest, hgot, hcarries⟩ := h
  cases ev with
  | send slot =>
    obtain ⟨rx', slots, pending, hpoll, heq, hs⟩ := hcarries
    obtain ⟨tx, out, hsend, rx2, slots2, pending2, hpoll2, heq2, hs2⟩ :=
      sendItem_carries hwidth hs hslot
    refine ⟨_, by rw [step, hsend]; rfl, rest ++ [slot], ?_, rx2, slots ++ slots2,
      pending2, ?_, ?_, hs2⟩
    · rw [← append_assoc, hgot]
    · rw [poll_append, hpoll, bind_some]
      dsimp only
      rw [hpoll2]
      rfl
    · rw [append_assoc, heq2, ← append_assoc, heq, append_assoc]
  | flush =>
    refine ⟨_, rfl, rest, hgot, ?_⟩
    have hflush := hcarries.trans fun rx' pending' hs => flushBatch_carries hs
    rwa [append_nil] at hflush
  | poll n =>
    obtain ⟨rx', slots, pending, hpoll, heq, hs⟩ := hcarries
    rw [← take_append_drop n s.queue, poll_append] at hpoll
    obtain ⟨⟨rx1, slots1⟩, hfirst, hpoll⟩ := bind_eq_some_iff.mp hpoll
    obtain ⟨⟨rx2, slots2⟩, hsecond, heq'⟩ := map_eq_some_iff.mp hpoll
    cases heq'
    refine ⟨{ s with rx := rx1, queue := s.queue.drop n, got := s.got ++ slots1 }, by
      rw [step, hfirst]; rfl, slots2 ++ pending, ?_, rx', slots2, pending, hsecond, rfl, hs⟩
    rw [append_assoc, ← append_assoc slots1, heq, nil_append, hgot]

def CompressedSender.configured (tpl : SchemaTemplate) (relearn : Option (Nat × Nat))
    (coalesce : Option Nat) : CompressedSender :=
  let s := CompressedSender.new tpl
  let s := match relearn with
    | some (window, thresholdPct) => s.withRelearn window thresholdPct
    | none => s
  match coalesce with
  | some target => s.withCoalesce target
  | none => s

theorem synced_new {tpl : SchemaTemplate} (h : tpl.Wf) (rx : CompressedReceiver) :
    Synced tpl.width (.new tpl) rx [] where
  wf := h
  width_eq := rfl
  held := nofun
  begun := by intro hz; exact absurd rfl hz
  batched := nofun
  single := fun _ => ⟨rfl, rfl⟩
  recent := nofun

section
variable {tx : CompressedSender} {rx : CompressedReceiver}

theorem Synced.withRelearn (h : Synced width tx rx pending) (window thresholdPct : Nat) :
    Synced width (tx.withRelearn window thresholdPct) rx pending :=
  { h with recent := nofun }

theorem Synced.withCoalesce (h : Synced width tx rx []) (target : Nat) :
    Synced width (tx.withCoalesce target) rx [] where
  __ := h
  batched := fun _ => ⟨[], rfl, .nil⟩
  single := nofun

end

theorem mirrors_init {tpl : SchemaTemplate} (h : tpl.Wf) (relearn : Option (Nat × Nat))
    (coalesce : Option Nat) : Mirrors tpl.width (init (.configured tpl relearn coalesce)) := by
  refine ⟨[], rfl, { tpl := none }, [], [], rfl, rfl, ?_⟩
  have hnew := synced_new h { tpl := none }
  cases relearn with
  | none =>
    cases coalesce with
    | none => exact hnew
    | some target => exact hnew.withCoalesce target
  | some config =>
    cases coalesce with
    | none => exact hnew.withRelearn ..
    | some target => exact (hnew.withRelearn ..).withCoalesce target

theorem Mirrors.flushed (h : Mirrors width s) :
    ∃ s' s'', s.step .flush = some s' ∧ s'.step (.poll s'.queue.length) = some s'' ∧
      s''.got = s.sent := by
  obtain ⟨rest, hgot, rx', slots, pending, hpoll, heq, hs⟩ := h
  obtain ⟨hflush, -⟩ := flushBatch_synced hs
  refine ⟨_, { s with
    tx := s.tx.flushBatch.1, rx := rx', queue := [], got := s.got ++ (slots ++ pending) },
    rfl, ?_, ?_⟩
  · rw [step]
    rw [take_length, drop_length, poll_append, hpoll, bind_some]
    dsimp only
    rw [hflush]
    rfl
  · simp [heq, hgot]

/-- The longest UDP payload: the inner transport's socket refuses more. -/
def maxPayload : Nat := 65507

/-- Over every template whose item the transport takes and every configuration of relearning
and batching, however sends, flushes and polls interleave, the receiver yields the sent slots
in order, each once: a prefix of them at every moment, all of them once the sender has flushed
and the receiver has polled. -/
theorem compressed_link_exact {sample : List Slot} {tpl : SchemaTemplate}
    {relearn : Option (Nat × Nat)} {coalesce : Option Nat} {events : List CompressedEvent}
    (hlearn : SchemaTemplate.learn sample width = some tpl)
    (hfits : (CompressedSender.new tpl).templateItem.length ≤ maxPayload)
    (hslots : EveryStep step (SlotsOf width) (init (.configured tpl relearn coalesce)) events) :
    ∃ s, run step (init (.configured tpl relearn coalesce)) events = some s ∧ s.got <+: s.sent ∧
      ∃ s' s'', s.step .flush = some s' ∧ s'.step (.poll s'.queue.length) = some s'' ∧
        s''.got = s.sent := by
  have hwidth : width + 1 < 2 ^ 16 := by
    rw [templateItem, length_cons, serialize_length, maxPayload] at hfits
    have hlength : (CompressedSender.new tpl).tpl.template.length = width := learn_length hlearn
    omega
  obtain ⟨hwf, rfl⟩ := learn_wf (by omega) hlearn
  obtain ⟨s, hrun, hs⟩ := run_total (fun _ _ => mirrors_step hwidth)
    (mirrors_init hwf relearn coalesce) hslots
  have hflushed := hs.flushed
  obtain ⟨rest, hgot, -⟩ := hs
  exact ⟨s, hrun, ⟨rest, hgot⟩, hflushed⟩

/-- The stream drifts off its template: 64 slots escape into batches, the sender
relearns from them, and the last slot is compact again. -/
def drifting : List CompressedEvent :=
  replicate 63 (.send [byte 7, byte 1]) ++
    [.send [byte 7, byte 2], .poll 3, .send [byte 7, byte 3]]

theorem compressed_link_exact_drifting :
    ∃ tpl s, learn [[byte 0, byte 0], [byte 0, byte 1]] 2 = some tpl ∧
      run step (init (.configured tpl (some (64, 10)) (some 16)))
        drifting = some s ∧ s.tx.tpl.template = [byte 7, byte 0] ∧ s.got <+: s.sent ∧
      ∃ s' s'', s.step .flush = some s' ∧ s'.step (.poll s'.queue.length) = some s'' ∧
        s''.got = s.sent := by
  let tpl : SchemaTemplate :=
    { width := 2, template := [byte 0, byte 0], varPos := [1], constPos := [0] }
  have hlearn : learn [[byte 0, byte 0], [byte 0, byte 1]] 2 = some tpl := by decide
  have htemplate : (run step (init (.configured tpl (some (64, 10)) (some 16))) drifting).map
      (fun s => s.tx.tpl.template) = some [byte 7, byte 0] := by
    decide +kernel
  obtain ⟨s, hrun, hgot, hflushed⟩ := compressed_link_exact hlearn (by decide)
    (by decide +kernel : EveryStep step (SlotsOf 2)
      (init (.configured tpl (some (64, 10)) (some 16))) drifting)
  rw [hrun] at htemplate
  exact ⟨tpl, s, hlearn, hrun, some.inj htemplate, hgot, hflushed⟩

end

end SubEtha.Compress
