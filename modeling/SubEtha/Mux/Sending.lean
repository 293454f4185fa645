import SubEtha.Mux.Content

namespace SubEtha.Mux
open Function List Option Content Lib Rlc SendStream

/-- The sender holds every symbol it may still be asked for. -/
structure Emits {len : Nat} (c : Content len) (st : SendStream) : Prop where
  next_eq : st.nextSourceId = c.payloads.length
  next_lt : c.payloads.length < 2 ^ 32
  sent : ∀ sid sym, st.sent.get? sid = some sym → c.symbols[sid]? = some sym
  held : ∀ sid sym, st.ackedThrough ≤ sid → c.symbols[sid]? = some sym →
    st.sent.get? sid = some sym
  enc : ∀ e, st.enc = some e →
    EncodesOk c.assignment e ∧ e.nextSourceId = c.payloads.length

variable {len cid stream : Nat} {C : Nat → Content len} {st : SendStream} {c c' : Content len}

theorem Emits.sendSymbol (h : Emits c st) (cid stream : Nat) (hsnoc : c.Snoc c' payload)
    (hlt : c'.payloads.length < 2 ^ 32) : Emits c' (st.sendSymbol cid stream len payload).1 where
  next_eq := by rw [hsnoc.length, ← h.next_eq]; rfl
  next_lt := hlt
  sent := by
    intro sid sym hsym
    rw [hsnoc.get?]
    rcases Table.get?_insert_some hsym with ⟨rfl, rfl⟩ | ⟨hne, hsym⟩
    · rw [if_pos h.next_eq]
      rfl
    · rw [if_neg (h.next_eq ▸ hne)]
      exact h.sent sid sym hsym
  held := by
    intro sid sym hack hsym
    rw [hsnoc.get?] at hsym
    change (st.sent.insert st.nextSourceId (pad len payload)).get? sid = some sym
    rw [Table.get?_insert, h.next_eq]
    by_cases hsid : sid = c.payloads.length
    · rwa [if_pos hsid] at hsym ⊢
    · rw [if_neg hsid] at hsym ⊢
      exact h.held sid sym hack hsym
  enc := by
    intro e he
    obtain ⟨_, hp, rfl⟩ := map_eq_some_iff.mp he
    obtain ⟨e0, he0, rfl⟩ := map_eq_some_iff.mp hp
    obtain ⟨hok, hnext⟩ := h.enc e0 he0
    have hlt' : e0.nextSourceId + 1 < 2 ^ 32 := by rw [hnext, ← hsnoc.length]; exact hlt
    refine ⟨?_, ?_⟩
    · have hpush := (pushSource_ok hok hsnoc.pad_length hlt').1
      rw [hnext, ← hsnoc.assignment] at hpush
      exact hpush
    · rw [pushSource_next, hsnoc.length, ← hnext]
      exact Nat.mod_eq_of_lt hlt'

/-- Frames that are right whenever the stream has content `c`. -/
def Frames (cid stream : Nat) (c : Content len) (pkts : List Packet) : Prop :=
  ∀ C : Nat → Content len, C stream = c → ∀ pkt ∈ pkts, FrameOk cid C pkt

theorem Frames.mono (h : Frames cid stream c pkts) (hext : c.Extends c') :
    Frames cid stream c' pkts := by
  intro C hC pkt hpkt
  refine (h (update C stream c) (update_self ..) pkt hpkt).mono fun id => ?_
  by_cases hid : id = stream
  · subst id
    rw [update_self, hC]
    exact hext
  · rw [update_of_ne hid]
    exact .refl _

theorem Frames.append (h : Frames cid stream c pkts) (h' : Frames cid stream c pkts') :
    Frames cid stream c (pkts ++ pkts') :=
  fun C hC pkt hpkt => (mem_append.mp hpkt).elim (h C hC pkt) (h' C hC pkt)

theorem Emits.sendSymbol_frames (h : Emits c st) (hsnoc : c.Snoc c' payload)
    (hlt : c'.payloads.length < 2 ^ 32) (hstream : stream < 2 ^ 32) :
    Frames cid stream c' (st.sendSymbol cid stream len payload).2 := by
  intro C hC pkt hpkt
  rcases mem_cons.mp hpkt with rfl | hpkt
  · refine .stream hstream ?_ ?_
    · rw [h.next_eq]
      have := hsnoc.length
      omega
    · rw [hC, hsnoc.get?, if_pos h.next_eq]
      rfl
  obtain ⟨r, hr, rfl⟩ := map_eq_some_iff.mp (mem_toList.mp hpkt)
  obtain ⟨_, hp, hrepair⟩ := bind_eq_some_iff.mp hr
  obtain ⟨e, he, rfl⟩ := map_eq_some_iff.mp hp
  obtain ⟨hok, hnext⟩ := h.enc e he
  have hlt' : e.nextSourceId + 1 < 2 ^ 32 := by rw [hnext, ← hsnoc.length]; exact hlt
  have hrepair := (pushSource_ok hok hsnoc.pad_length hlt').2.2 r hrepair
  rw [hnext, ← hsnoc.assignment, ← hC] at hrepair
  exact .repair hstream hrepair

/-- The sender's side of one stream: what was written is what has become
symbols and what is pending. -/
structure SendOk {len : Nat} (c : Content len) (written : List Byte) (finished : Bool)
    (st : SendStream) : Prop extends Emits c st where
  written_eq : written = c.bytes ++ st.pending
  finished_eq : finished = c.tail.isSome
  pending_nil : c.tail ≠ none → st.pending = []
  fin_eq : st.finInfo = c.finInfo

theorem SendOk.tail_none (h : SendOk c written false st) : c.tail = none :=
  not_isSome_iff_eq_none.mp (by rw [← h.finished_eq]; decide)

theorem sendOk_new (isProtected : Bool) (hc : c.payloads = []) :
    SendOk c [] false (new isProtected len) where
  next_eq := by rw [hc]; rfl
  next_lt := by rw [hc]; exact Nat.two_pow_pos 32
  sent := nofun
  held := fun _ _ _ h => by simp [symbols, hc] at h
  enc := by
    intro e he
    rw [new] at he
    split at he <;> cases he
    refine ⟨encodesOk_new (by decide) fun id => ?_, ?_⟩
    · simp [get?_assignment, symbols, hc]
    · rw [hc]
      rfl
  written_eq := by simp [bytes, hc, new]
  finished_eq := by
    have := (append_eq_nil_iff.mp hc).2
    cases h : c.tail <;> simp_all
  pending_nil := fun _ => rfl
  fin_eq := by
    have := (append_eq_nil_iff.mp hc).2
    cases h : c.tail <;> simp_all [Content.finInfo, new]

/-- A stream with nothing sent may still choose its protection. -/
theorem SendOk.reopen (h : SendOk c written finished (new b len)) (isProtected : Bool) :
    SendOk c written finished (new isProtected len) := by
  have hc : c.payloads = [] := eq_nil_of_length_eq_zero h.next_eq.symm
  have hnew : SendOk c [] false (new b len) := sendOk_new b hc
  rw [h.written_eq.trans hnew.written_eq.symm, h.finished_eq.trans hnew.finished_eq.symm]
  exact sendOk_new isProtected hc

structure Sent {len : Nat} (cid stream : Nat) (c : Content len) (written : List Byte)
    (finished : Bool) (st : SendStream) (out : SendStream × List Packet) (c' : Content len) :
    Prop where
  ext : c.Extends c'
  ok : SendOk c' written finished out.1
  acked : out.1.ackedThrough = st.ackedThrough
  frames : Frames cid stream c' out.2

theorem SendOk.drainFull (cid : Nat) (hlen : 0 < len) (hstream : stream < 2 ^ 32)
    (h : SendOk c written false st) (hlt : c.payloads.length + st.pending.length / len < 2 ^ 32)
    (hfuel : st.pending.length < fuel) :
    ∃ c', Sent cid stream c written false st (drainFull cid stream len fuel st) c' ∧
      (drainFull cid stream len fuel st).1.pending.length < len ∧
      c'.payloads.length = c.payloads.length + st.pending.length / len := by
  induction fuel generalizing st c with
  | zero => cases hfuel
  | succ fuel ih =>
    rw [drainFull]
    split
    · rename_i hshort
      refine ⟨c, ⟨.refl c, h, rfl, ?_⟩, hshort, by rw [Nat.div_eq_of_lt hshort]; rfl⟩
      intro _ _ _ hpkt
      cases hpkt
    rename_i hlong
    have hle : len ≤ st.pending.length := by omega
    have htail := h.tail_none
    have htake : (st.pending.take len).length = len := by rw [length_take]; omega
    have hdiv : st.pending.length / len = (st.pending.length - len) / len + 1 :=
      Nat.div_eq_sub_div hlen hle
    have hsnoc := snoc_push (h := htake) htail
    have hone : (c.push _ htake).payloads.length < 2 ^ 32 := by
      rw [hdiv] at hlt
      rw [hsnoc.length]
      exact lt_of_le_of_lt (Nat.add_le_add_left (Nat.le_add_left ..) _) hlt
    have hemits : Emits c { st with pending := st.pending.drop len } := { h with }
    have hok : SendOk (c.push _ htake) written false
        ({ st with pending := st.pending.drop len }.sendSymbol cid stream len
          (st.pending.take len)).1 := {
      toEmits := hemits.sendSymbol cid stream hsnoc hone
      written_eq := by
        rw [hsnoc.bytes, append_assoc, h.written_eq]
        congr 1
        exact (take_append_drop len st.pending).symm
      finished_eq := by rw [h.finished_eq]; rfl
      pending_nil := fun hne => absurd htail hne
      fin_eq := by
        rw [Content.finInfo, show (c.push _ htake).tail = none from htail]
        exact h.fin_eq.trans (by rw [Content.finInfo, htail]; rfl) }
    obtain ⟨c', hsent, hpending, hcount⟩ := ih hok
      (by rw [hsnoc.length]; simp only [sendSymbol, length_drop]; omega)
      (by simp only [sendSymbol, length_drop]; omega)
    refine ⟨c', ⟨?_, hsent.ok, hsent.acked, ?_⟩, hpending, ?_⟩
    · exact hsnoc.extends.trans hsent.ext
    · exact ((hemits.sendSymbol_frames hsnoc hone hstream).mono hsent.ext).append hsent.frames
    · rw [hcount, hsnoc.length, hdiv]
      simp only [sendSymbol, length_drop]
      omega

theorem SendOk.finish (cid : Nat) (hstream : stream < 2 ^ 32)
    (h : SendOk c written false st) (hpending : st.pending.length < len) (hlen : len ≤ 65535)
    (hlt : c.payloads.length + 1 < 2 ^ 32) :
    Sent cid stream c written true st (st.finish cid stream len) (c.close st.pending hpending) := by
  have hsnoc := snoc_close (h := hpending) h.tail_none
  have hone : (c.close _ hpending).payloads.length < 2 ^ 32 := by rw [hsnoc.length]; exact hlt
  have hemits : Emits c { st with pending := [] } := { h with }
  have hfull : st.nextSourceId = c.full.length := by
    rw [h.next_eq, payloads_length, h.tail_none]
    rfl
  have hinfo : (c.close _ hpending).finInfo =
      some (st.nextSourceId, st.pending.length % 2 ^ 16) := by
    rw [Nat.mod_eq_of_lt (by omega), hfull]
    rfl
  have hsent := hemits.sendSymbol cid stream hsnoc hone
  refine ⟨hsnoc.extends, ⟨{ hsent with next_lt := hone }, ?_, rfl,
    fun _ => rfl, hinfo.symm⟩, rfl, ?_⟩
  · rw [h.written_eq, hsnoc.bytes]
    exact (append_nil _).symm
  · refine (hemits.sendSymbol_frames hsnoc hone hstream).append fun C hC pkt hpkt => ?_
    rw [mem_singleton.mp hpkt]
    exact .fin hstream (h.next_eq ▸ h.next_lt) (hC ▸ hinfo)

theorem SendOk.write (cid : Nat) (hlen : 0 < len ∧ len ≤ 65535) (hstream : stream < 2 ^ 32)
    (h : SendOk c written false st)
    (hlt : c.payloads.length + (st.pending.length + data.length) / len + fin.toNat < 2 ^ 32) :
    ∃ c', Sent cid stream c (written ++ data) fin st (st.write cid stream len data fin) c' ∧
      (st.write cid stream len data fin).1.pending.length < len := by
  have hgrown : SendOk c (written ++ data) false { st with pending := st.pending ++ data } :=
    { h with
      written_eq := by rw [h.written_eq, append_assoc]
      pending_nil := fun hne => absurd h.tail_none hne }
  obtain ⟨c', hsent, hpending, hcount⟩ := hgrown.drainFull cid hlen.1 hstream
    (by simp only [length_append]; omega) (Nat.lt_succ_self _)
  cases fin with
  | false => exact ⟨c', { hsent with }, hpending⟩
  | true =>
    have hfin := hsent.ok.finish cid hstream hpending hlen.2 (by
      rw [hcount, length_append]
      exact hlt)
    refine ⟨_, ⟨hsent.ext.trans hfin.ext, hfin.ok, hfin.acked.trans hsent.acked, ?_⟩, hlen.1⟩
    exact (hsent.frames.mono hfin.ext).append hfin.frames

variable {written : List Byte} {finished : Bool} (h : SendOk c written finished st)
include h

theorem SendOk.onAck (hlt : st.ackedThrough < through) :
    SendOk c written finished { st with
      ackedThrough := through
      sent := st.sent.retain fun sid => through ≤ sid
      enc := st.enc.map fun e => e.forgetBelow through } where
  __ := h
  sent := fun sid sym hsym => h.sent sid sym (Table.get?_retain_some hsym).2
  held := by
    intro sid sym hle hsym
    rw [Table.get?_retain, if_pos (decide_eq_true hle)]
    exact h.held sid sym (le_trans (le_of_lt hlt) hle) hsym
  enc := by
    intro e he
    obtain ⟨e0, he0, rfl⟩ := map_eq_some_iff.mp he
    obtain ⟨hok, hnext⟩ := h.enc e0 he0
    exact ⟨enc_forgetBelow_ok hok through, hnext⟩

theorem SendOk.fin_frame (hstream : stream < 2 ^ 32)
    (hinfo : st.finInfo = some (finalSid, finalLen)) :
    Frames cid stream c [wireFin cid stream finalSid finalLen] := by
  intro C hC pkt hpkt
  rw [mem_singleton.mp hpkt]
  have hinfo : c.finInfo = some (finalSid, finalLen) := h.fin_eq.symm.trans hinfo
  refine .fin hstream ?_ (hC ▸ hinfo)
  obtain ⟨t, ht, hpair⟩ := map_eq_some_iff.mp hinfo
  cases hpair
  have := h.next_lt
  rw [payloads_length] at this
  omega

theorem SendOk.resend_frame (hstream : stream < 2 ^ 32)
    (sid : Nat) :
    Frames cid stream c ((st.sent.get? sid).map (wireStream cid stream sid)).toList := by
  intro C hC pkt hpkt
  obtain ⟨sym, hsym, rfl⟩ := map_eq_some_iff.mp (mem_toList.mp hpkt)
  have hget := h.sent sid sym hsym
  have hlt := lt_of_some hget
  rw [symbols_length] at hlt
  exact .stream hstream (lt_trans hlt h.next_lt) (hC ▸ hget)

theorem SendOk.written_length :
    written.length = ((c.tail.getD []).length + st.pending.length) + c.full.length * len := by
  rw [h.written_eq, bytes_eq, length_append, length_append, c.full_flatten_length]
  omega

theorem SendOk.full_length (hpending : st.pending.length < len) :
    written.length / len = c.full.length := by
  have hshort : (c.tail.getD []).length + st.pending.length < len := by
    cases ht : c.tail with
    | none => simpa using hpending
    | some t =>
      rw [h.pending_nil (by simp [ht])]
      exact c.tail_lt t ht
  rw [h.written_length, Nat.add_mul_div_right _ _ (Nat.zero_lt_of_lt hpending),
    Nat.div_eq_of_lt hshort, zero_add]

end SubEtha.Mux
