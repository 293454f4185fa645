import SubEtha.Rlc.Receiver
import SubEtha.Lib.Runs

namespace SubEtha.Rlc
open Option List Lib RlcSession Rlc.Path

section
variable {Addr : Type} [DecidableEq Addr]

/-- The bytes of the datagrams that name `addr`. -/
def bytesOf (addr : Addr) (l : List (Addr × Packet)) : Nat :=
  ((l.filter fun m => m.1 = addr).map fun m => m.2.length).sum

theorem bytesOf_append (addr : Addr) (l l' : List (Addr × Packet)) :
    bytesOf addr (l ++ l') = bytesOf addr l + bytesOf addr l' := by
  simp [bytesOf]

theorem bytesOf_self (addr : Addr) (pkt : Packet) : bytesOf addr [(addr, pkt)] = pkt.length := by
  simp [bytesOf]

theorem bytesOf_other {addr src : Addr} (h : src ≠ addr) (pkt : Packet) :
    bytesOf addr [(src, pkt)] = 0 := by
  simp [bytesOf, h]

end

/-- The books of a path: with `trusted` the addresses it need not count for. -/
structure PathOk {Addr : Type} [DecidableEq Addr] (trusted : Addr → Prop)
    (heard sent : List (Addr × Packet)) (p : Path Addr) : Prop where
  plain : p.crypto = none
  target : ∀ a nonce t, p.pendingChallenge = some (a, nonce, t) → p.peer = some a
  validated : p.peerValidated = true → ∀ a, p.peer = some a → trusted a
  small : p.unvalRecvBytes * amplificationFactor < 2 ^ 64 - 1
  candidate : p.peerValidated = false → ∀ a, p.peer = some a → ¬trusted a →
    bytesOf a sent + p.unvalRecvBytes * amplificationFactor ≤
      bytesOf a heard * amplificationFactor + p.unvalSentBytes
  bounded : ∀ a, ¬trusted a → bytesOf a sent ≤ bytesOf a heard * amplificationFactor

variable {inner : Packet}

section
variable {Addr : Type} [DecidableEq Addr] {trusted : Addr → Prop}
  {heard sent : List (Addr × Packet)} {p : Path Addr}

theorem pathOk_new {peer : Option Addr} (h : ∀ a, peer = some a → trusted a) :
    PathOk trusted [] [] (new peer) where
  plain := rfl
  validated := fun _ => h
  target := nofun
  small := (by decide : 0 * amplificationFactor < 2 ^ 64 - 1)
  candidate := nofun
  bounded := fun _ _ => Nat.zero_le _

section
variable (h : PathOk trusted heard sent p)
include h

theorem PathOk.mono (hmono : ∀ a, trusted a → trusted' a) : PathOk trusted' heard sent p := { h with
    validated := fun hval a ha => hmono a (h.validated hval a ha)
    candidate := fun hval a ha hnot => h.candidate hval a ha fun ht => hnot (hmono a ht)
    bounded := fun a hnot => h.bounded a fun ht => hnot (hmono a ht) }

theorem PathOk.hear (src : Addr) (inner : Packet) :
    PathOk trusted (heard ++ [(src, inner)]) sent p := by
  have hle : ∀ a, bytesOf a heard * amplificationFactor ≤
      bytesOf a (heard ++ [(src, inner)]) * amplificationFactor := fun a =>
    Nat.mul_le_mul_right _ (by rw [bytesOf_append]; exact Nat.le_add_right ..)
  refine { h with
    candidate := fun hval a ha hnot => ?_
    bounded := fun a hnot => le_trans (h.bounded a hnot) (hle a) }
  have := h.candidate hval a ha hnot
  have := hle a
  omega

theorem PathOk.credit
    (hsmall : (p.unvalRecvBytes + inner.length) * amplificationFactor < 2 ^ 64 - 1) :
    PathOk trusted (heard ++ [(src, inner)]) sent (p.credit src inner.length) := by
  unfold Path.credit
  split
  · rename_i hcand
    obtain ⟨hval, hpeer⟩ := hcand
    have hsum : saturatingAdd p.unvalRecvBytes inner.length = p.unvalRecvBytes + inner.length := by
      unfold saturatingAdd
      simp only [amplificationFactor] at hsmall
      omega
    rw [hsum]
    have hheard := h.hear src inner
    refine { hheard with
      small := hsmall
      candidate := fun _ a ha hnot => ?_ }
    obtain rfl : a = src := some.inj (ha.symm.trans hpeer)
    have hold := h.candidate hval a hpeer hnot
    rw [bytesOf_append, bytesOf_self]
    simp only [amplificationFactor] at hold ⊢
    omega
  · exact h.hear src inner

/-- The books balance whether or not the frame is sent. -/
theorem PathOk.wireSendToPeer (inner : Packet) :
    PathOk trusted heard (sent ++ (p.wireSendToPeer inner).2) (p.wireSendToPeer inner).1 := by
  have hwire : p.wire inner = inner := by rw [Path.wire, h.plain]
  unfold Path.wireSendToPeer
  rw [hwire]
  split
  · simpa using h
  rename_i peer hpeer
  split
  · rename_i hval
    have htrusted := h.validated hval peer hpeer
    refine { h with candidate := fun hval' => ?_, bounded := fun a hnot => ?_ }
    · rw [hval] at hval'
      cases hval'
    · rw [bytesOf_append, bytesOf_other (fun hpa : peer = a => hnot (hpa ▸ htrusted))]
      exact h.bounded a hnot
  rename_i hval
  split
  · simpa using h
  rename_i hbudget
  have hsmall := h.small
  have hspent : saturatingAdd p.unvalSentBytes inner.length = p.unvalSentBytes + inner.length ∧
      p.unvalSentBytes + inner.length ≤ p.unvalRecvBytes * amplificationFactor := by
    unfold saturatingAdd saturatingMul at *
    omega
  have hcand : ¬trusted peer → bytesOf peer (sent ++ [(peer, inner)]) +
      p.unvalRecvBytes * amplificationFactor ≤
        bytesOf peer heard * amplificationFactor + (p.unvalSentBytes + inner.length) := by
    intro hnot
    have hold := h.candidate (Bool.not_eq_true _ ▸ hval) peer hpeer hnot
    rw [bytesOf_append, bytesOf_self]
    omega
  rw [hspent.1]
  refine { h with
    candidate := fun _ a ha hnot => ?_
    bounded := fun a hnot => ?_ }
  · obtain rfl : a = peer := some.inj (ha.symm.trans hpeer)
    exact hcand hnot
  by_cases hpa : peer = a
  · subst hpa
    have hle := le_trans (hcand hnot) (Nat.add_le_add_left hspent.2 _)
    exact Nat.le_of_add_le_add_right hle
  · rw [bytesOf_append, bytesOf_other hpa]
    exact h.bounded a hnot

theorem PathOk.sendAll (pkts : List Packet) :
    PathOk trusted heard (sent ++ (p.sendAll pkts).2) (p.sendAll pkts).1 := by
  induction pkts generalizing p sent with
  | nil => simpa [sendAll] using h
  | cons inner rest ih =>
    have hrest := ih (h.wireSendToPeer inner)
    rw [append_assoc] at hrest
    exact hrest

theorem PathOk.maybeSendChallenge (cid : Nat) :
    PathOk trusted heard (sent ++ (p.maybeSendChallenge cid).2) (p.maybeSendChallenge cid).1 := by
  unfold Path.maybeSendChallenge
  split
  · simpa using h
  split
  · simpa using h
  · exact h.wireSendToPeer _

theorem PathOk.follow (cid : Nat) (hfirst : p.peer = none → trusted src) (now entropy : Nat) :
    PathOk trusted heard sent (p.follow cid src now entropy) := by
  unfold Path.follow
  split
  · rename_i hnone
    refine { h with
      target := fun a nonce t hpending => ?_
      validated := fun _ a ha => ?_
      candidate := fun _ a ha hnot => ?_ }
    · have := h.target a nonce t hpending
      rw [hnone] at this
      cases this
    · exact some.inj ha ▸ hfirst hnone
    · exact absurd (some.inj ha ▸ hfirst hnone) hnot
  · split
    · exact {
        plain := h.plain
        target := fun a nonce t hpending => by
          obtain ⟨rfl, -⟩ := Prod.mk.inj (some.inj hpending)
          rfl
        validated := nofun
        small := (by decide : 0 * amplificationFactor < 2 ^ 64 - 1)
        candidate := fun _ a _ hnot => h.bounded a hnot
        bounded := h.bounded }
    · exact h

theorem PathOk.handlePathResponse {cid : Nat}
    (htrusted : p.answers cid inner src = true → trusted src) :
    PathOk trusted heard sent (p.handlePathResponse cid inner src) := by
  unfold Path.handlePathResponse
  split
  · rename_i hans
    refine { h with
      target := nofun
      validated := fun _ a ha => ?_
      candidate := by simp }
    have htrust := htrusted hans
    unfold answers at hans
    split at hans
    · cases hans
    rename_i addr nonce t hpending
    simp only [Bool.and_eq_true, decide_eq_true_eq] at hans
    have := some.inj ((h.target addr nonce t hpending).symm.trans ha)
    rw [← this, hans.1.2]
    exact htrust
  · exact h

theorem PathOk.expireStaleChallenge
    (hprev : p.expired now = true → ∀ a ∈ p.prevPeer.or p.peer, trusted a) :
    PathOk trusted heard sent (p.expireStaleChallenge now) := by
  unfold Path.expireStaleChallenge
  split
  · rename_i hexp
    exact { h with
      target := nofun
      validated := fun _ a ha => hprev hexp a ha
      candidate := by simp }
  · exact h

end
end

inductive PathEvent (Addr : Type)
  | frame (inner : Packet) (src : Addr) (arrivalUs now entropy : Nat)
  | service (now grace : Nat) (a : Assessment)

/-- A session with the address it was first bound at, those that answered a
challenge, and every datagram that came in and went out. -/
structure PathRun (Addr : Type) where
  session : RlcSession Addr
  first : Option Addr
  answered : List Addr
  heard : List (Addr × Packet)
  sent : List (Addr × Packet)

namespace PathRun

variable {Addr : Type} [DecidableEq Addr] (s : PathRun Addr)

def init (session : RlcSession Addr) : PathRun Addr := ⟨session, session.path.peer, [], [], []⟩

def step : PathEvent Addr → Option (PathRun Addr)
  | .frame inner src arrivalUs now entropy =>
    let out := s.session.routeAndProcess inner src arrivalUs now entropy
    let answered := frameType inner = pktPathResponse ∧
      s.session.path.answers s.session.cid inner src = true
    some { s with
      session := out.1
      first := s.first.or out.1.path.peer
      answered := if answered then src :: s.answered else s.answered
      heard := s.heard ++ [(src, s.session.path.wire inner)] }
  | .service now grace a =>
    let out := s.session.service now grace a
    some { s with session := out.1, sent := s.sent ++ out.2.2 }

def Trusted (a : Addr) : Prop := s.first = some a ∨ a ∈ s.answered

instance (a : Addr) : Decidable (s.Trusted a) := inferInstanceAs (Decidable (_ ∨ _))

/-- A challenge expires back to an address that is trusted, and the budget of
one validation stays below the ceiling of its counter. -/
def Allowed : PathEvent Addr → Prop
  | .frame inner .. =>
    (s.session.path.unvalRecvBytes + inner.length) * amplificationFactor < 2 ^ 64 - 1
  | .service now _ _ =>
    s.session.path.expired now = true →
      ∀ a ∈ s.session.path.prevPeer.or s.session.path.peer, s.Trusted a

instance Allowed.decidable : DecidablePred s.Allowed := fun e => by
  cases e <;> unfold Allowed <;> infer_instance

end PathRun

structure PathRunOk {Addr : Type} [DecidableEq Addr] (s : PathRun Addr) : Prop where
  path : PathOk s.Trusted s.heard s.sent s.session.path
  unbound : s.session.path.peer = none → s.first = none

section
variable {Addr : Type} [DecidableEq Addr] (p : Path Addr)

section
variable (cid : Nat) (src : Addr) (now entropy : Nat)

theorem follow_peer : (p.follow cid src now entropy).peer = some src := by
  unfold follow
  split
  · rfl
  rename_i peer hpeer
  split
  · rfl
  · rename_i heq
    rw [hpeer, not_not.mp heq]

theorem follow_unvalRecvBytes :
    (p.follow cid src now entropy).unvalRecvBytes ≤ p.unvalRecvBytes := by
  unfold follow
  split
  · exact le_rfl
  split
  · exact Nat.zero_le _
  · exact le_rfl

end

theorem credit_peer (src : Addr) (len : Nat) : (p.credit src len).peer = p.peer := by
  unfold credit
  split <;> rfl

theorem handlePathResponse_peer (cid : Nat) (inner : Packet) (src : Addr) :
    (p.handlePathResponse cid inner src).peer = p.peer := by
  unfold handlePathResponse
  split <;> rfl

section
variable {session : RlcSession Addr}

/-- A frame keeps the books, for any addresses trusted that include an answer's
and a first frame's. -/
theorem PathOk.routeAndProcess (h : PathOk trusted heard sent session.path)
    (hsmall : (session.path.unvalRecvBytes + inner.length) * amplificationFactor < 2 ^ 64 - 1)
    (hanswer : frameType inner = pktPathResponse →
      session.path.answers session.cid inner src = true → trusted src)
    (hfirst : session.path.peer = none →
      (session.routeAndProcess inner src arrivalUs now entropy).1.path.peer = some src →
      trusted src) :
    PathOk trusted (heard ++ [(src, inner)]) sent
      (session.routeAndProcess inner src arrivalUs now entropy).1.path := by
  unfold RlcSession.routeAndProcess at hfirst ⊢
  split
  · rename_i hresp
    exact (h.handlePathResponse (hanswer hresp.2)).hear src inner
  rename_i hresp
  rw [if_neg hresp] at hfirst
  split
  · rename_i hcid
    rw [if_pos hcid, credit_peer, follow_peer] at hfirst
    refine (h.follow _ (fun hnone => hfirst hnone rfl) now entropy).credit
      (lt_of_le_of_lt (Nat.mul_le_mul_right _ (Nat.add_le_add_right ?_ _)) hsmall)
    exact follow_unvalRecvBytes ..
  · exact h.hear src inner

theorem routeAndProcess_peer_none
    (h : (session.routeAndProcess inner src arrivalUs now entropy).1.path.peer = none) :
    session.path.peer = none := by
  unfold routeAndProcess at h
  split at h
  · exact (handlePathResponse_peer ..).symm.trans h
  split at h
  · rw [credit_peer, follow_peer] at h
    cases h
  · exact h

theorem PathOk.service (h : PathOk trusted heard sent session.path)
    (hprev : session.path.expired now = true →
      ∀ a ∈ session.path.prevPeer.or session.path.peer, trusted a)
    (a : Assessment) :
    PathOk trusted heard (sent ++ (session.service now grace a).2.2)
      (session.service now grace a).1.path := by
  have hsent := ((h.expireStaleChallenge hprev).maybeSendChallenge session.cid).sendAll
    ((session.window.advance now grace).1.respond (session.window.advance now grace).2.2
      ((session.path.expireStaleChallenge now).maybeSendChallenge session.cid).1.peer.isSome now
      grace).2
  unfold RlcSession.service RlcSession.maybeFeedback
  dsimp only
  split
  · simpa [append_assoc] using hsent
  · simpa [append_assoc] using hsent.wireSendToPeer (feedbackFrame a)

end

theorem PathRunOk.step {s' : PathRun Addr} (h : PathRunOk s) (hok : s.Allowed e)
    (hstep : s.step e = some s') : PathRunOk s' := by
  cases e with
  | frame inner src arrivalUs now entropy =>
    cases hstep
    have hwire : s.session.path.wire inner = inner := by rw [Path.wire, h.path.plain]
    rw [hwire]
    constructor
    · refine PathOk.routeAndProcess (h.path.mono fun a ha => ?_) hok (fun htype hans => ?_)
        fun hnone hbound => ?_
      · rcases ha with hfirst | hmem
        · left
          simp [hfirst]
        right
        split
        · exact mem_cons_of_mem _ hmem
        · exact hmem
      · right
        simp [htype, hans]
      · left
        simp [h.unbound hnone, hbound]
    · intro hnone
      simp only at hnone ⊢
      rw [h.unbound (routeAndProcess_peer_none hnone), hnone]
      rfl
  | service now grace a =>
    cases hstep
    refine ⟨h.path.service hok a, fun hnone => h.unbound ?_⟩
    unfold service at hnone
    simp only [maybeFeedback_peer, sendAll_peer, maybeSendChallenge_peer] at hnone
    unfold expireStaleChallenge at hnone
    split at hnone
    · exact (or_eq_none_iff.mp hnone).2
    · exact hnone

end

theorem PathRunOk.run {Addr : Type} [DecidableEq Addr] {session : RlcSession Addr}
    {peer : Option Addr} (hnew : session.path = Path.new peer) {events : List (PathEvent Addr)}
    {s : PathRun Addr} (hok : EveryStep PathRun.step PathRun.Allowed (PathRun.init session) events)
    (hrun : run PathRun.step (PathRun.init session) events = some s) : PathRunOk s := by
  have hinit : PathRunOk (PathRun.init session) := by
    refine ⟨?_, fun hnone => hnone⟩
    change PathOk _ [] [] session.path
    rw [hnew]
    refine pathOk_new fun a ha => .inl ?_
    change session.path.peer = some a
    rw [hnew]
    exact ha
  exact run_invariant (fun _ _ _ h hok hstep => h.step hok hstep) hinit hok hrun

/-- An address that is not the session's first and has answered no challenge is
sent at most three times what came from it, and is never the validated peer: if the
session has no TLS keys and every challenge that expires reverts to an address that is
trusted. -/
theorem amplification_bounded {Addr : Type} [DecidableEq Addr] {cid symbolLen now : Nat}
    {peer : Option Addr} {crypto : Option (Packet → Packet)} (hplain : crypto = none)
    {events : List (PathEvent Addr)} {s : PathRun Addr}
    (hok : EveryStep PathRun.step PathRun.Allowed
      (PathRun.init ((new cid symbolLen peer now).withCrypto crypto)) events)
    (hrun : run PathRun.step (PathRun.init ((new cid symbolLen peer now).withCrypto crypto))
      events = some s) :
    (∀ a, ¬s.Trusted a → bytesOf a s.sent ≤ 3 * bytesOf a s.heard) ∧
      (s.session.path.peerValidated = true → ∀ a, s.session.path.peer = some a → s.Trusted a) := by
  subst hplain
  have h := PathRunOk.run rfl hok hrun
  refine ⟨fun a hnot => ?_, h.path.validated⟩
  rw [mul_comm]
  exact h.path.bounded a hnot

/-- Address 1 opens the session, a frame that claims its id comes from address
2, and the challenge to 2 goes unanswered. -/
def spoofedMove : List (PathEvent Nat) :=
  [.frame (dataFrame 9 0 0 (packSymbol [byte 5] 3)) 1 0 0 7,
    .frame (dataFrame 9 1 0 (packSymbol [byte 6] 3)) 2 100 100 8,
    .service 2000 1000 ⟨0, 0, 0, 0, 0⟩, .service 20000 1000 ⟨0, 0, 0, 0, 0⟩,
    .service 600000 1000 ⟨0, 0, 0, 0, 0⟩]

theorem amplification_bounded_spoofedMove :
    ∃ s, run PathRun.step (PathRun.init (new 9 3 none 0)) spoofedMove = some s ∧
      s.session.path.peer = some 1 ∧ ¬s.Trusted 2 ∧ 0 < bytesOf 2 s.sent ∧
      bytesOf 2 s.sent ≤ 3 * bytesOf 2 s.heard ∧ s.Trusted 1 := by
  have hlast : (run PathRun.step (PathRun.init (new 9 3 none 0)) spoofedMove).map
      (fun s => (s.session.path.peer, s.session.path.peerValidated, decide (s.Trusted 2),
        decide (0 < bytesOf 2 s.sent))) = some (some 1, true, false, true) := by
    decide +kernel
  obtain ⟨s, hrun, heq⟩ := map_eq_some_iff.mp hlast
  simp only [Prod.mk.injEq, decide_eq_false_iff_not, decide_eq_true_eq] at heq
  obtain ⟨hpeer, hval, hnot, hpos⟩ := heq
  have h := amplification_bounded rfl (by decide +kernel) hrun
  exact ⟨s, hrun, hpeer, hnot, hpos, h.1 2 hnot, h.2 hval 1 hpeer⟩

/-- A frame from address 3 while 2 is still unanswered: the challenge to 3
expires back to 2. -/
def secondMove : List (PathEvent Nat) :=
  [.frame (dataFrame 9 0 0 (packSymbol [byte 5] 3)) 1 0 0 7,
    .frame (dataFrame 9 1 0 (packSymbol [byte 6] 3)) 2 100 100 8,
    .frame (dataFrame 9 2 0 (packSymbol [byte 7] 3)) 3 200 200 9,
    .service 600000 1000 ⟨0, 0, 0, 0, 0⟩, .service 620000 1000 ⟨0, 0, 0, 0, 0⟩,
    .service 640000 1000 ⟨0, 0, 0, 0, 0⟩]

theorem reverts_to_unanswered_peer :
    ∃ s, run PathRun.step (PathRun.init (new 9 3 none 0)) secondMove = some s ∧
      s.first = some 1 ∧ s.answered = [] ∧ s.session.path.peer = some 2 ∧
      s.session.path.peerValidated = true ∧ 3 * bytesOf 2 s.heard < bytesOf 2 s.sent := by
  have hlast : (run PathRun.step (PathRun.init (new 9 3 none 0)) secondMove).map
      (fun s => (s.first, s.answered, s.session.path.peer, s.session.path.peerValidated,
        bytesOf 2 s.heard, bytesOf 2 s.sent)) = some (some 1, [], some 2, true, 20, 63) := by
    decide +kernel
  obtain ⟨s, hrun, heq⟩ := map_eq_some_iff.mp hlast
  simp only [Prod.mk.injEq] at heq
  obtain ⟨hfirst, hanswered, hpeer, hval, hheard, hsent⟩ := heq
  exact ⟨s, hrun, hfirst, hanswered, hpeer, hval, by rw [hheard, hsent]; decide⟩

end SubEtha.Rlc
