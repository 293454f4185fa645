import SubEtha.Mux.Receiving
import SubEtha.Rlc.Receiving

namespace SubEtha.Mux
open Option List Lib Rlc RlcDecoder

namespace RecvStream

/-- The scan of `maybe_nak` from `sid` on. The counter has `fuel` ids left: past
the last one it overflows. -/
def nakScan (st : RecvStream) (due : Nat → Bool) : Nat → Nat → List Nat → Option (List Nat)
  | 0, _, _ => none
  | fuel + 1, sid, missing =>
    if sid ≤ st.highestSeen ∧ missing.length < 16 then
      st.nakScan due fuel (sid + 1)
        (if !st.chunks.contains sid && due sid then missing ++ [sid] else missing)
    else some missing

def maybeNak (st : RecvStream) (due : Nat → Bool) : Option (List Nat) :=
  st.nakScan due (2 ^ 32 - st.deliveredThrough) st.deliveredThrough []

def wanted (st : RecvStream) (due : Nat → Bool) (lo hi : Nat) : List Nat :=
  (range hi).filter fun sid => lo ≤ sid && !st.chunks.contains sid && due sid

section
variable {st : RecvStream}

theorem wanted_of_le (h : hi ≤ lo) : st.wanted due lo hi = [] := by
  simp only [wanted, filter_eq_nil_iff, mem_range]
  intro sid hsid
  simp [show ¬lo ≤ sid by omega]

theorem wanted_step (h : lo < hi) : st.wanted due lo hi =
    (if !st.chunks.contains lo && due lo then [lo] else []) ++ st.wanted due (lo + 1) hi := by
  induction hi with
  | zero => omega
  | succ hi ih =>
    have hlast (k : Nat) : st.wanted due k (hi + 1) = st.wanted due k hi ++
        [hi].filter fun sid => k ≤ sid && !st.chunks.contains sid && due sid := by
      simp [wanted, range_succ]
    rcases lt_or_eq_of_le (Nat.le_of_lt_succ h) with hlt | rfl
    · rw [hlast, hlast, ih hlt, append_assoc]
      simp [filter_cons, hlt, le_of_lt hlt]
    · rw [hlast, hlast, wanted_of_le le_rfl, wanted_of_le (Nat.le_succ _)]
      simp [filter_cons]

theorem nakScan_stop (due : Nat → Bool) (hle : lo ≤ 2 ^ 32 - 1) (hlen : found.length ≤ 16)
    (hstop : ¬(lo ≤ st.highestSeen ∧ found.length < 16)) :
    (st.highestSeen < 2 ^ 32 - 1 ∨ 16 ≤ (found ++ st.wanted due lo (2 ^ 32 - 1)).length) ∧
      (found ++ st.wanted due lo (st.highestSeen + 1)).take 16 = found := by
  rcases lt_or_ge st.highestSeen lo with hlt | hge
  · exact ⟨.inl (lt_of_lt_of_le hlt hle), by
      rw [wanted_of_le hlt, append_nil, take_of_length_le hlen]⟩
  · have hfull : found.length = 16 := by omega
    exact ⟨.inr (by simp [hfull]), by rw [← hfull, take_left]⟩

/-- The scan ends before the counter does where the highest id is not the last
one, or sixteen ids below the last one are asked for. -/
theorem nakScan_eq (hhigh : st.highestSeen < 2 ^ 32) (hfuel : lo + fuel = 2 ^ 32 - 1)
    (hlen : found.length ≤ 16) : st.nakScan due (fuel + 1) lo found =
      if st.highestSeen < 2 ^ 32 - 1 ∨ 16 ≤ (found ++ st.wanted due lo (2 ^ 32 - 1)).length then
        some ((found ++ st.wanted due lo (st.highestSeen + 1)).take 16) else none := by
  induction fuel generalizing lo found with
  | zero =>
    rw [nakScan]
    split
    · rename_i hgo
      rw [nakScan, if_neg]
      rw [wanted_of_le (by omega), append_nil]
      omega
    · rename_i hstop
      obtain ⟨hends, hfound⟩ := nakScan_stop due (by omega) hlen hstop
      rw [if_pos hends, hfound]
  | succ fuel ih =>
    rw [nakScan]
    split
    · rename_i hgo
      rw [wanted_step (by omega), wanted_step (show lo < st.highestSeen + 1 by omega)]
      split
      · rw [ih (by omega) (by simpa using hgo.2), append_assoc, append_assoc]
      · rw [ih (by omega) hlen, nil_append, nil_append]
    · rename_i hstop
      obtain ⟨hends, hfound⟩ := nakScan_stop due (by omega) hlen hstop
      rw [if_pos hends, hfound]

end

/-- Ids stay below `2^32`, and what the decoder holds past the frontier is
buffered, apart from the ids `late`. -/
structure Tame (late : List Nat) (st : RecvStream) : Prop where
  high : st.highestSeen < 2 ^ 32
  held : ∀ d, st.dec = some d → ∀ sid, st.deliveredThrough ≤ sid → d.has sid = true →
    st.chunks.contains sid = true ∨ sid ∈ late

theorem tame_new (isProtected : Bool) (symbolLen : Nat) : Tame [] (new isProtected symbolLen) := by
  refine ⟨Nat.two_pow_pos 32, fun d hd sid _ hhas => ?_⟩
  cases isProtected with
  | false => cases hd
  | true =>
    cases hd
    cases hhas

variable {d : RlcDecoder}

theorem Tame.keep (h : Tame (sid :: late) st) (sym : List Byte) : Tame late (st.keep sid sym) := by
  unfold RecvStream.keep
  split
  · refine ⟨h.high, fun d hd x hle hhas => ?_⟩
    by_cases hx : x = sid
    · simp [Table.contains, hx]
    · simpa [Table.contains, hx] using h.held d hd x hle hhas
  · rename_i hold
    refine ⟨h.high, fun d hd x hle hhas => ?_⟩
    by_cases hx : x = sid
    · simp_all
    · simpa [hx] using h.held d hd x hle hhas

theorem Tame.onStream (h : Tame [] st) (hsid : sid < 2 ^ 32) : Tame [] (st.onStream sid sym) := by
  have hlate : Tame [sid] { st with
      highestSeen := max st.highestSeen sid, dec := st.dec.map fun d => d.onSource sid sym } := by
    refine ⟨Nat.max_lt.mpr ⟨h.high, hsid⟩, fun d hd x hle hhas => ?_⟩
    obtain ⟨d', hd', rfl⟩ := map_eq_some_iff.mp hd
    have hold := h.held d' hd' x hle
    simp only [has, onSource] at hhas hold
    split at hhas
    · simp_all
    by_cases hx : x = sid
    · simp [hx]
    · simp_all [Table.contains]
  refine cast (congrArg _ ?_) (hlate.keep sym)
  unfold RecvStream.onStream RecvStream.keep
  split <;> rfl

theorem Tame.onRepair (h : Tame [] st) : Tame [] (st.onRepair r) := by
  refine ⟨h.high, fun d hd sid hle hhas => ?_⟩
  obtain ⟨d', hd', rfl⟩ := map_eq_some_iff.mp hd
  rw [has, addRepair_source] at hhas
  exact h.held d' hd' sid hle hhas

theorem Tame.onFin (h : Tame [] st) (hsid : sid < 2 ^ 32) : Tame [] (st.onFin sid len) :=
  ⟨Nat.max_lt.mpr ⟨h.high, hsid⟩, h.held⟩

theorem has_takeRow (h : ∀ sid, p.1.has sid = true → d.has sid = true ∨ sid ∈ p.2) :
    ∀ sid, (takeRow unknowns p row).1.has sid = true →
      d.has sid = true ∨ sid ∈ (takeRow unknowns p row).2 := by
  intro sid
  unfold takeRow
  dsimp only
  split
  · split
    · simp only [has, Table.contains, Table.get?_insert, mem_append, mem_singleton]
      split
      · exact fun _ => .inr (.inr ‹_›)
      · exact fun hsid => (h sid hsid).imp_right .inl
    · exact h sid
  · exact h sid

theorem has_foldl_takeRow (h : ∀ sid, p.1.has sid = true → d.has sid = true ∨ sid ∈ p.2) :
    ∀ sid, (foldl (takeRow unknowns) p rows).1.has sid = true →
      d.has sid = true ∨ sid ∈ (foldl (takeRow unknowns) p rows).2 := by
  induction rows generalizing p with
  | nil => exact h
  | cons row rows ih => exact ih (has_takeRow h)

theorem has_recover (h : d.recover.1.has sid = true) : d.has sid = true ∨ sid ∈ d.recover.2 := by
  unfold RlcDecoder.recover RlcDecoder.tryRecover at *
  dsimp only at *
  split at h
  · exact .inl h
  rename_i hsome
  rw [if_neg hsome]
  exact has_foldl_takeRow (fun _ => .inl) sid h

theorem Tame.keepRecovered (h : Tame (sid :: late) st) (hdec : st.dec = some d) :
    Tame late (st.keepRecovered d sid) := by
  unfold RecvStream.keepRecovered
  split
  · exact h.keep _
  rename_i hnone
  refine ⟨h.high, fun d' hd x hle hhas => ?_⟩
  cases hdec.symm.trans hd
  refine (h.held d hd x hle hhas).imp_right fun hx => (mem_cons.mp hx).resolve_left ?_
  rintro rfl
  rw [has, Table.contains, show d.source.get? x = none from hnone] at hhas
  cases hhas

theorem Tame.foldl_keepRecovered (h : Tame late st) (hdec : st.dec = some d) :
    Tame [] (late.foldl (fun st sid => st.keepRecovered d sid) st) := by
  induction late generalizing st with
  | nil => exact h
  | cons sid late ih =>
    refine ih (h.keepRecovered hdec) ?_
    show (st.keepRecovered d sid).dec = some d
    unfold RecvStream.keepRecovered
    split
    · exact (keep_eq ..).1.trans hdec
    · exact hdec

theorem Tame.recover (h : Tame [] st) : Tame [] st.recover := by
  unfold RecvStream.recover
  split
  · exact h
  rename_i d hdec
  refine Tame.foldl_keepRecovered ⟨h.high, fun d' hd sid hle hhas => ?_⟩ rfl
  cases hd
  exact (has_recover hhas).imp_left fun hd => (h.held d hdec sid hle hd).resolve_right (not_mem_nil)

theorem Tame.take (h : Tame [] st) (fin : Bool) : Tame [] { st with
    chunks := st.chunks.erase st.deliveredThrough
    deliveredThrough := st.deliveredThrough + 1
    finDelivered := fin } := by
  refine ⟨h.high, fun d hd sid hlt hhas => ?_⟩
  have hne : sid ≠ st.deliveredThrough := Nat.ne_of_gt hlt
  simpa [Table.contains, hne] using h.held d hd sid (Nat.le_of_lt hlt) hhas

theorem Tame.deliverLoop (h : Tame [] st) : Tame [] (deliverLoop fuel st).1 := by
  induction fuel generalizing st with
  | zero => exact h
  | succ fuel ih =>
    simp only [RecvStream.deliverLoop]
    repeat' split
    all_goals first
      | exact h
      | exact h.take true
      | exact ih (h.take st.finDelivered)

theorem Tame.deliver (h : Tame [] st) : Tame [] st.deliver.1 := by
  have hloop : Tame [] (RecvStream.deliverLoop (st.highestSeen + 2 - st.deliveredThrough) st).1 :=
    h.deliverLoop
  refine ⟨hloop.high, fun d hd sid hle hhas => ?_⟩
  obtain ⟨d', hd', rfl⟩ := map_eq_some_iff.mp hd
  obtain ⟨sym, hsym⟩ := isSome_iff_exists.mp hhas
  refine hloop.held d' hd' sid hle ?_
  exact isSome_iff_exists.mpr ⟨sym, (Table.get?_retain_some hsym).2⟩

theorem Tame.maybeNak (h : Tame [] st) (due : Nat → Bool) :
    st.maybeNak due = if st.deliveredThrough < 2 ^ 32 ∧ (st.highestSeen < 2 ^ 32 - 1 ∨
        16 ≤ (st.wanted due st.deliveredThrough (2 ^ 32 - 1)).length) then
      some ((st.wanted due st.deliveredThrough (st.highestSeen + 1)).take 16) else none := by
  unfold RecvStream.maybeNak
  by_cases hlt : st.deliveredThrough < 2 ^ 32
  · rw [show 2 ^ 32 - st.deliveredThrough = 2 ^ 32 - 1 - st.deliveredThrough + 1 by omega,
      nakScan_eq h.high (by omega) (Nat.zero_le _), nil_append, nil_append]
    simp only [hlt, true_and]
  · rw [Nat.sub_eq_zero_of_le (not_lt.mp hlt), nakScan, if_neg fun hends => hlt hends.1]

end RecvStream

inductive ReceiverCall
  | expectStream (stream : Nat) (isProtected : Bool)
  | ingest (pkt : Packet)
  | deliver (stream : Nat)

namespace Receiver

def call (rx : Receiver) : ReceiverCall → Receiver
  | .expectStream stream isProtected => rx.expectStream stream isProtected
  | .ingest pkt => rx.ingest pkt
  | .deliver stream =>
    match rx.streams.get? stream with
    | none => rx
    | some st => { rx with streams := rx.streams.insert stream st.recover.deliver.1 }

def Tame (rx : Receiver) : Prop := ∀ stream st, rx.streams.get? stream = some st → st.Tame []

theorem Tame.insert (h : Tame rx) (hst : st.Tame []) :
    Tame { rx with streams := rx.streams.insert stream st } := Table.forall_insert h hst

theorem Tame.entry (h : Tame rx) : (rx.entry stream).Tame [] := by
  unfold Receiver.entry
  cases hget : rx.streams.get? stream with
  | none => exact RecvStream.tame_new ..
  | some st => exact h stream st hget

theorem Tame.ingest (h : Tame rx) : Tame (rx.ingest pkt) := by
  unfold Receiver.ingest
  dsimp only
  split
  · exact h
  split
  · exact h
  have hrx : Tame { rx with cid := some (leAt pkt 1 8) } := h
  split
  · exact hrx.insert (hrx.entry.onStream (leAt_lt pkt 13 4))
  split
  · exact hrx.insert hrx.entry.onRepair
  split
  · exact hrx.insert (hrx.entry.onFin (leAt_lt pkt 13 4))
  · exact h

theorem Tame.call (h : Tame rx) : Tame (rx.call e) := by
  cases e with
  | expectStream stream isProtected =>
    simp only [Receiver.call, expectStream]
    split
    · exact h
    · exact h.insert (RecvStream.tame_new ..)
  | ingest pkt => exact h.ingest
  | deliver stream =>
    simp only [Receiver.call]
    split
    · exact h
    · rename_i hget
      exact h.insert (h stream _ hget).recover.deliver

theorem Tame.calls (h : Tame rx) (calls : List ReceiverCall) : Tame (calls.foldl Receiver.call rx) := by
  induction calls generalizing rx with
  | nil => exact h
  | cons e calls ih => exact ih h.call

/-- Whatever datagrams came in: the scan ends, and reports only ids from the
frontier to the highest one seen that are held nowhere, just where the frontier
is an id, and the highest id is not the last one or sixteen ids short of that
are asked for. -/
theorem maybeNak_sound_iff (symbolLen : Nat) (calls : List ReceiverCall) (due : Nat → Bool)
    (stream : Nat) (h : (calls.foldl call ⟨none, symbolLen, Table.empty⟩).streams.get? stream = some st) :
    (∃ ids, st.maybeNak due = some ids ∧ ∀ sid ∈ ids,
      st.deliveredThrough ≤ sid ∧ sid ≤ st.highestSeen ∧ st.chunks.contains sid = false ∧
        ∀ d, st.dec = some d → d.has sid = false) ↔ st.deliveredThrough < 2 ^ 32 ∧
      (st.highestSeen < 2 ^ 32 - 1 ∨
        16 ≤ (st.wanted due st.deliveredThrough (2 ^ 32 - 1)).length) := by
  have hinit : Tame ⟨none, symbolLen, Table.empty⟩ := nofun
  have htame := hinit.calls calls stream st h
  rw [htame.maybeNak]
  constructor
  · rintro ⟨ids, hids, -⟩
    split at hids
    · assumption
    · cases hids
  intro hends
  refine ⟨_, if_pos hends, fun sid hsid => ?_⟩
  have hmem := mem_of_mem_take hsid
  simp only [RecvStream.wanted, mem_filter, mem_range, Bool.and_eq_true, decide_eq_true_eq,
    Bool.not_eq_true'] at hmem
  obtain ⟨hlt, ⟨hle, hfree⟩, -⟩ := hmem
  refine ⟨hle, Nat.le_of_lt_succ hlt, hfree, fun d hd => ?_⟩
  by_contra hhas
  have hheld := htame.held d hd sid hle (by simpa using hhas)
  simp [hfree] at hheld

/-- One symbol has come, behind a gap that is old enough. -/
theorem maybeNak_sound_iff_gap : ∃ ids, (((⟨none, 1, Table.empty⟩ : Receiver).ingest
    (wireStream 7 0 1 [byte 5])).entry 0).maybeNak (fun _ => true) = some ids ∧ 1 ∉ ids := by
  obtain ⟨ids, hids, hall⟩ := (maybeNak_sound_iff 1
    [.ingest (wireStream 7 0 1 [byte 5])] (fun _ => true) 0 rfl).mpr
    ⟨by decide +kernel, .inl (by decide +kernel)⟩
  refine ⟨ids, hids, fun hmem => ?_⟩
  have := (hall 1 hmem).2.2.1
  revert this
  decide +kernel

/-- A stream of which a FIN has come that names the last id. -/
def finLast : RecvStream :=
  ((⟨none, 1, Table.empty⟩ : Receiver).ingest (wireFin 7 0 (2 ^ 32 - 1) 1)).entry 0

/-- While none of its gaps is old enough, the scan runs past the end of the id space. -/
theorem last_id_overflows_scan : finLast.maybeNak (fun _ => false) = none := by
  have hinit : Tame ⟨none, 1, Table.empty⟩ := nofun
  have htame : finLast.Tame [] := hinit.ingest.entry
  have hhigh : finLast.highestSeen = 2 ^ 32 - 1 := by decide +kernel
  rw [htame.maybeNak, hhigh, if_neg]
  simp [RecvStream.wanted]

end Receiver
end SubEtha.Mux
