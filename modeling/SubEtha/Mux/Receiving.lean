import SubEtha.Mux.Content

namespace SubEtha.Mux
open List Option Lib Rlc RecvStream

structure RecvOk {len : Nat} (c : Content len) (delivered : List Byte) (finOut : Bool)
    (st : RecvStream) : Prop where
  chunks : ∀ sid sym, st.chunks.get? sid = some sym → c.symbols[sid]? = some sym
  dec : ∀ d, st.dec = some d → DecodesOk c.assignment d
  through_le : st.deliveredThrough ≤ c.payloads.length
  delivered_eq : delivered = (c.payloads.take st.deliveredThrough).flatten
  highest_le : st.highestSeen ≤ c.payloads.length - 1
  final : ∀ info, st.finalInfo = some info → c.finInfo = some info
  fin_iff : finOut = true ↔ c.full.length < st.deliveredThrough

variable {len : Nat} {c : Content len} {delivered : List Byte} {finOut : Bool} {st : RecvStream}

theorem recvOk_new (c : Content len) (isProtected : Bool) :
    RecvOk c [] false (new isProtected len) where
  chunks := nofun
  dec := by
    intro d hd
    rw [new] at hd
    split at hd <;> cases hd
    exact decodesOk_new _ _
  through_le := Nat.zero_le _
  delivered_eq := rfl
  highest_le := Nat.zero_le _
  final := nofun
  fin_iff := by simp [new]

theorem RecvOk.mono (h : RecvOk c delivered finOut st) (hext : c.Extends c') :
    RecvOk c' delivered finOut st := by
  obtain ⟨rest, hrest⟩ := hext.payloads
  have hle := h.through_le
  refine ⟨fun sid sym hsym => hext.symbols (h.chunks sid sym hsym),
    fun d hd => (h.dec d hd).mono hext.assignment, ?_, ?_, ?_,
    fun info hinfo => hext.finInfo (h.final info hinfo), ?_⟩
  · rw [← hrest, length_append]
    omega
  · rw [← hrest, take_append_of_le_length hle]
    exact h.delivered_eq
  · have := h.highest_le
    rw [← hrest, length_append]
    omega
  cases ht : c.tail with
  | none =>
    have hfull := hext.full.length_le
    rw [Content.payloads_length, ht] at hle
    rw [h.fin_iff]
    simp only [toList_none, length_nil] at hle
    omega
  | some t =>
    rw [(hext.tail t ht).1]
    exact h.fin_iff

theorem RecvOk.keep (h : RecvOk c delivered finOut st) (hsym : c.symbols[sid]? = some sym) :
    RecvOk c delivered finOut (st.keep sid sym) := by
  unfold RecvStream.keep
  split
  · exact { h with chunks := Table.forall_insert h.chunks hsym }
  · exact h

theorem keep_eq (st : RecvStream) (sid : Nat) (sym : List Byte) :
    (st.keep sid sym).dec = st.dec ∧ (st.keep sid sym).deliveredThrough = st.deliveredThrough := by
  unfold keep
  split <;> exact ⟨rfl, rfl⟩

section
variable (h : RecvOk c delivered finOut st)
include h

theorem RecvOk.onStream (hsym : c.symbols[sid]? = some sym) :
    RecvOk c delivered finOut (st.onStream sid sym) := by
  have hsid := lt_of_some hsym
  rw [Content.symbols_length] at hsid
  have hhigh : RecvOk c delivered finOut { st with highestSeen := max st.highestSeen sid } :=
    { h with
      highest_le := by
        have := h.highest_le
        change max st.highestSeen sid ≤ _
        omega }
  have hkeep := hhigh.keep hsym
  refine { hkeep with dec := fun d hd => ?_ }
  obtain ⟨d0, hd0, rfl⟩ := map_eq_some_iff.mp hd
  exact onSource_ok (hkeep.dec d0 hd0) hsym

theorem RecvOk.onRepair (hr : RepairOk c.assignment r) :
    RecvOk c delivered finOut (st.onRepair r) := by
  refine { h with dec := fun d hd => ?_ }
  obtain ⟨d0, hd0, rfl⟩ := map_eq_some_iff.mp hd
  exact addRepair_ok (h.dec d0 hd0) hr

theorem RecvOk.onFin (hinfo : c.finInfo = some (finalSid, finalLen)) :
    RecvOk c delivered finOut (st.onFin finalSid finalLen) := by
  obtain ⟨t, ht, hpair⟩ := map_eq_some_iff.mp hinfo
  cases hpair
  refine { h with highest_le := ?_, final := fun info hi => ?_ }
  · have := h.highest_le
    have hlen := c.payloads_length
    rw [ht, toList_some, length_singleton] at hlen
    change max st.highestSeen c.full.length ≤ _
    omega
  · cases hi
    exact hinfo

end

section
variable (h : RecvOk c delivered finOut st)
include h

theorem RecvOk.keepRecovered (hd : DecodesOk c.assignment d)
    (sid : Nat) : RecvOk c delivered finOut (st.keepRecovered d sid) := by
  unfold RecvStream.keepRecovered
  split
  · rename_i sym hget
    exact h.keep (hd.source sid sym hget)
  · exact h

theorem RecvOk.foldl_keepRecovered (hd : DecodesOk c.assignment d) (sids : List Nat) :
    RecvOk c delivered finOut (sids.foldl (fun st sid => st.keepRecovered d sid) st) := by
  induction sids generalizing st with
  | nil => exact h
  | cons sid sids ih => exact ih (h.keepRecovered hd sid)

theorem RecvOk.recover : RecvOk c delivered finOut st.recover := by
  unfold RecvStream.recover
  cases hdec : st.dec with
  | none => exact h
  | some d =>
    have hd : DecodesOk c.assignment d.recover.1 := tryRecover_ok (h.dec d hdec)
    have hst : RecvOk c delivered finOut { st with dec := some d.recover.1 } := { h with
        dec := by
          intro d' hd'
          cases hd'
          exact hd }
    exact hst.foldl_keepRecovered hd _

end

theorem foldl_keepRecovered_through (d : RlcDecoder) (sids : List Nat) (st : RecvStream) :
    (sids.foldl (fun st sid => st.keepRecovered d sid) st).deliveredThrough =
      st.deliveredThrough := by
  induction sids generalizing st with
  | nil => rfl
  | cons sid sids ih =>
    rw [foldl_cons, ih, keepRecovered]
    split
    · exact (keep_eq ..).2
    · rfl

theorem recover_through (st : RecvStream) : st.recover.deliveredThrough = st.deliveredThrough := by
  unfold recover
  split
  · rfl
  · exact foldl_keepRecovered_through ..

variable (h : RecvOk c delivered finOut st)
include h

theorem RecvOk.take (hp : c.payloads[st.deliveredThrough]? = some p)
    (hfin : finOut' = true ↔ c.full.length < st.deliveredThrough + 1) (finDelivered : Bool) :
    RecvOk c (delivered ++ p) finOut' { st with
        chunks := st.chunks.erase st.deliveredThrough
        deliveredThrough := st.deliveredThrough + 1
        finDelivered := finDelivered } where
  __ := h
  chunks := fun sid sym hsym => h.chunks sid sym (Table.get?_erase_some hsym).2
  through_le := lt_of_some hp
  delivered_eq := by
    rw [h.delivered_eq, take_add_one, hp, flatten_append]
    simp
  fin_iff := hfin

theorem RecvOk.take_full (hsym : st.chunks.get? st.deliveredThrough = some sym)
    (hfull : st.deliveredThrough < c.full.length) : RecvOk c (delivered ++ sym) finOut { st with
        chunks := st.chunks.erase st.deliveredThrough
        deliveredThrough := st.deliveredThrough + 1 } := by
  obtain ⟨p, hp, rfl⟩ := Content.payload_of_symbol (h.chunks _ _ hsym)
  rw [pad_full (Content.payload_full hp hfull)]
  refine h.take hp ?_ st.finDelivered
  rw [h.fin_iff]
  omega

theorem RecvOk.take_last (hsym : st.chunks.get? st.deliveredThrough = some sym)
    (hinfo : c.finInfo = some (st.deliveredThrough, finalLen)) :
    RecvOk c (delivered ++ sym.take (min finalLen sym.length)) true { st with
        chunks := st.chunks.erase st.deliveredThrough
        deliveredThrough := st.deliveredThrough + 1
        finDelivered := true } := by
  obtain ⟨t, ht, hpair⟩ := map_eq_some_iff.mp hinfo
  obtain ⟨hthrough, rfl⟩ := Prod.mk.inj hpair
  obtain ⟨p, hp, rfl⟩ := Content.payload_of_symbol (h.chunks _ _ hsym)
  have hpt : p = t := by
    rw [← hthrough, Content.payload_tail ht] at hp
    exact (Option.some.inj hp).symm
  subst hpt
  have hle : p.length ≤ (pad len p).length := by simp [pad]
  rw [min_eq_left hle, pad, take_left]
  exact h.take hp (by simp [hthrough]) true

theorem RecvOk.deliverLoop : RecvOk c (delivered ++ (deliverLoop fuel st).2.1)
      (finOut || (deliverLoop fuel st).2.2) (deliverLoop fuel st).1 ∧
      st.deliveredThrough ≤ (deliverLoop fuel st).1.deliveredThrough := by
  induction fuel generalizing st delivered with
  | zero => exact ⟨by simpa [deliverLoop] using h, le_rfl⟩
  | succ fuel ih =>
    have hstuck : RecvOk c (delivered ++ []) (finOut || false) st := by simpa using h
    have hfull : ∀ {sym}, st.chunks.get? st.deliveredThrough = some sym →
        st.deliveredThrough < c.full.length → _ := fun hsym hlt => ih (h.take_full hsym hlt)
    simp only [append_assoc] at hfull
    have hle := c.payloads_length_le
    rw [deliverLoop]
    split
    · rename_i finalSid finalLen hinfo
      have hfinal := h.final _ hinfo
      obtain ⟨t, ht, hpair⟩ := map_eq_some_iff.mp hfinal
      split
      · rename_i heq
        split
        · exact ⟨hstuck, le_rfl⟩
        rename_i sym hsym
        rw [Bool.or_true]
        exact ⟨h.take_last hsym (heq ▸ hfinal), Nat.le_succ _⟩
      · split
        · split
          · exact ⟨hstuck, le_rfl⟩
          rename_i hlt _ sym hsym
          cases hpair
          exact ⟨(hfull hsym hlt).1, Nat.le_of_succ_le (hfull hsym hlt).2⟩
        · exact ⟨hstuck, le_rfl⟩
    · split
      · split
        · exact ⟨hstuck, le_rfl⟩
        rename_i hlt _ sym hsym
        have hlt : st.deliveredThrough < c.full.length := by
          have := h.highest_le
          omega
        exact ⟨(hfull hsym hlt).1, Nat.le_of_succ_le (hfull hsym hlt).2⟩
      · exact ⟨hstuck, le_rfl⟩

theorem RecvOk.deliver :
    RecvOk c (delivered ++ st.deliver.2.1) (finOut || st.deliver.2.2) st.deliver.1 ∧
      st.deliveredThrough ≤ st.deliver.1.deliveredThrough := by
  obtain ⟨hloop, hle⟩ := h.deliverLoop
  refine ⟨{ hloop with dec := fun d hd => ?_ }, hle⟩
  obtain ⟨d0, hd0, rfl⟩ := map_eq_some_iff.mp hd
  exact forgetBelow_ok (hloop.dec d0 hd0) _

end SubEtha.Mux
