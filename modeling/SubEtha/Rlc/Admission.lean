import SubEtha.Rlc.Receiver
import SubEtha.Lib.Runs

namespace SubEtha.Rlc
open Option List Lib RlcReceiver

def namedConnId (inner : Packet) : Option Nat := (frameConnId inner).or (pathResponseConnId inner)

section
variable {Addr : Type} {r : RlcReceiver Addr} {inner : Packet}

/-- Two receivers with the same sessions but for those under `cid`. -/
def SameBut (cid : Nat) (r r' : RlcReceiver Addr) : Prop :=
  ∀ other, other ≠ cid → r'.sessions.get? other = r.sessions.get? other

theorem SameBut.refl (cid : Nat) (r : RlcReceiver Addr) : SameBut cid r r := fun _ _ => rfl

theorem SameBut.trans (h : SameBut cid r r') (h' : SameBut cid r' r'') : SameBut cid r r'' :=
  fun other hne => (h' other hne).trans (h other hne)

theorem openSession_same (r : RlcReceiver Addr) (cid now : Nat) :
    SameBut cid r (r.openSession cid now) := by
  unfold openSession
  split
  · exact .refl cid r
  · intro other hne
    rw [Table.get?_insert, if_neg hne]

theorem update_same (r : RlcReceiver Addr) (cid : Nat) (f : RlcSession Addr → RlcSession Addr) :
    SameBut cid r (r.update cid f) := by
  unfold update
  split
  · intro other hne
    rw [Table.get?_insert, if_neg hne]
  · exact .refl cid r

theorem named_of_response (h : pathResponseConnId inner = some cid) :
    namedConnId inner = some cid := by
  have htype : frameConnId inner = none := by
    unfold pathResponseConnId at h
    split at h
    · cases h
    rename_i hresp
    rw [not_or, not_not] at hresp
    unfold frameConnId
    rw [if_neg]
    rintro ⟨-, hdata | hrepair⟩
    · rw [hdata] at hresp
      exact absurd hresp.2 (by decide)
    · rw [hrepair] at hresp
      exact absurd hresp.2 (by decide)
  rw [namedConnId, htype, h]
  rfl

theorem named_of_owner (h : r.owner? inner = some cid) : namedConnId inner = some cid := by
  unfold owner? at h
  split at h
  · rename_i hframe
    rw [namedConnId, hframe]
    exact h
  · exact named_of_response (filter_eq_some_iff.mp h).1

variable [DecidableEq Addr]

theorem beginAdmission_sessions (r : RlcReceiver Addr) (cid : Nat) (addr : Addr)
    (now entropy : Nat) : (r.beginAdmission cid addr now entropy).sessions = r.sessions := by
  unfold beginAdmission
  split
  · rfl
  · split <;> rfl

theorem tryAdmit_same (hother : pathResponseConnId inner ≠ some other) :
    (r.tryAdmit inner src now).1.sessions.get? other = r.sessions.get? other := by
  unfold tryAdmit
  split
  · rfl
  rename_i cid hcid
  have hne : other ≠ cid := fun heq => hother (heq ▸ hcid)
  split
  · rfl
  split
  · rfl
  · exact ((openSession_same _ cid now).trans (update_same _ cid _)) other hne

theorem routeDatagram_same (hother : namedConnId inner ≠ some other) :
    (r.routeDatagram inner src arrivalUs now entropy).1.sessions.get? other =
      r.sessions.get? other := by
  have hadmit : (r.tryAdmit inner src now).1.sessions.get? other = r.sessions.get? other :=
    tryAdmit_same fun h => hother (named_of_response h)
  unfold routeDatagram
  dsimp only
  split
  · exact hadmit
  split
  · exact hadmit
  rename_i cid howner
  have hne : other ≠ cid := fun heq => hother (heq ▸ named_of_owner howner)
  split
  · rw [beginAdmission_sessions]
    exact hadmit
  have hopen := (openSession_same (r.tryAdmit inner src now).1 cid now) other hne
  split
  · exact hopen.trans hadmit
  · rw [Table.get?_insert, if_neg hne]
    exact hopen.trans hadmit

end

inductive ReceiverEvent (Addr : Type)
  | datagram (inner : Packet) (src : Addr) (arrivalUs now entropy : Nat)
  | service (now : Nat) (grace : Nat → Nat) (assess : Nat → Assessment)
  | skipTo (base : Nat)

/-- A receiver with every challenge it ever held outstanding, and the answers
that echoed one from the address it was for. -/
structure AdmissionRun (Addr : Type) where
  rx : RlcReceiver Addr
  challenged : List (Nat × Addr × Nat)
  answered : List (Nat × Addr)

namespace AdmissionRun

variable {Addr : Type} [DecidableEq Addr]

def init (rx : RlcReceiver Addr) : AdmissionRun Addr := ⟨rx, [], []⟩

/-- The id a datagram answers for, if its nonce was challenged at its source. -/
def answer? (s : AdmissionRun Addr) (inner : Packet) (src : Addr) : Option Nat :=
  (pathResponseConnId inner).filter fun cid => (cid, src, leAt inner 9 8) ∈ s.challenged

def step (s : AdmissionRun Addr) (e : ReceiverEvent Addr) : Option (AdmissionRun Addr) :=
  let rx := match e with
    | .datagram inner src arrivalUs now entropy =>
      (s.rx.routeDatagram inner src arrivalUs now entropy).1
    | .service now grace assess => s.rx.serviceAll now grace assess
    | .skipTo base => s.rx.skipTo base
  let answered := match e with
    | .datagram inner src .. => (s.answer? inner src).toList.map fun cid => (cid, src)
    | .service .. | .skipTo _ => []
  some {
    rx := rx
    challenged := s.challenged ++ rx.pendingAdmissions.map fun p => (p.cid, p.addr, p.nonce)
    answered := s.answered ++ answered }

end AdmissionRun

section
variable {Addr : Type}

section
variable (r : RlcReceiver Addr)

theorem update_order (cid : Nat) (f : RlcSession Addr → RlcSession Addr) :
    (r.update cid f).order = r.order := by
  unfold update
  split <;> rfl

theorem foldl_update_order (f : Nat → RlcSession Addr → RlcSession Addr) (cids : List Nat)
    (r : RlcReceiver Addr) :
    (cids.foldl (fun r cid => r.update cid (f cid)) r).order = r.order := by
  induction cids generalizing r with
  | nil => rfl
  | cons cid cids ih => exact (ih _).trans (update_order r cid _)

theorem skipTo_order (base : Nat) : (r.skipTo base).order = r.order :=
  foldl_update_order (fun _ s => { s with window := s.window.skipTo base }) _ _

theorem openSession_order (cid now : Nat) : (r.openSession cid now).order = r.order ∨
      r.sessions.contains cid = false ∧ (r.openSession cid now).order = r.order ++ [cid] ∧
        (r.openSession cid now).sessions.contains cid = true := by
  unfold openSession
  split
  · exact .inl rfl
  rename_i hroom
  rw [Bool.or_eq_true, not_or] at hroom
  refine .inr ⟨Bool.eq_false_iff.mpr hroom.1, rfl, ?_⟩
  rw [Table.contains, Table.get?_insert, if_pos rfl]
  rfl

/-- Every open session is in the list of those opened. -/
def Listed : Prop := ∀ cid, r.sessions.contains cid = true → cid ∈ r.order

end

theorem Listed.openSession (h : Listed r) (cid now : Nat) : Listed (r.openSession cid now) := by
  unfold RlcReceiver.openSession
  split
  · exact h
  intro other hother
  rw [Table.contains, Table.get?_insert] at hother
  split at hother
  · rename_i heq
    exact mem_append_right _ (mem_singleton.mpr heq)
  · exact mem_append_left _ (h other hother)

theorem Listed.insert (h : Listed r) (hget : r.sessions.get? cid = some session)
    (session' : RlcSession Addr) :
    Listed { r with sessions := r.sessions.insert cid session' } := by
  intro other hother
  rw [Table.contains, Table.get?_insert] at hother
  split at hother
  · rename_i heq
    subst heq
    exact h other (by rw [Table.contains, hget]; rfl)
  · exact h other hother

theorem Listed.update (h : Listed r) (cid : Nat) (f : RlcSession Addr → RlcSession Addr) :
    Listed (r.update cid f) := by
  unfold RlcReceiver.update
  split
  · rename_i session hget
    exact h.insert hget (f session)
  · exact h

theorem Listed.foldl_update (f : Nat → RlcSession Addr → RlcSession Addr) (cids : List Nat)
    (h : Listed r) : Listed (cids.foldl (fun r cid => r.update cid (f cid)) r) := by
  induction cids generalizing r with
  | nil => exact h
  | cons cid cids ih => exact ih (h.update cid _)

variable [DecidableEq Addr] {s : AdmissionRun Addr}

theorem Listed.tryAdmit (h : Listed r) (inner : Packet) (src : Addr) (now : Nat) :
    Listed (r.tryAdmit inner src now).1 := by
  unfold RlcReceiver.tryAdmit
  split
  · exact h
  rename_i cid hcid
  split
  · exact h
  split
  · exact h
  have hspent : Listed { r with
      pendingAdmissions := r.pendingAdmissions.filter fun p => p.cid ≠ cid } := h
  exact (hspent.openSession cid now).update cid _

theorem Listed.routeDatagram (h : Listed r) (inner : Packet) (src : Addr)
    (arrivalUs now entropy : Nat) : Listed (r.routeDatagram inner src arrivalUs now entropy).1 := by
  have hadmit := h.tryAdmit inner src now
  unfold RlcReceiver.routeDatagram
  dsimp only
  split
  · exact hadmit
  split
  · exact hadmit
  rename_i cid howner
  split
  · unfold beginAdmission
    split
    · exact hadmit
    · split <;> exact hadmit
  · have hopen := hadmit.openSession cid now
    split
    · exact hopen
    · rename_i session hget
      exact hopen.insert hget _

variable (r : RlcReceiver Addr)

theorem beginAdmission_order (cid : Nat) (addr : Addr)
    (now entropy : Nat) : (r.beginAdmission cid addr now entropy).order = r.order := by
  unfold beginAdmission
  split
  · rfl
  · split <;> rfl

theorem tryAdmit_order (inner : Packet) (src : Addr) (now : Nat) :
    (r.tryAdmit inner src now).1.order = r.order ∨
      (r.tryAdmit inner src now).2 = true ∧ ∃ p ∈ r.pendingAdmissions,
        pathResponseConnId inner = some p.cid ∧ p.addr = src ∧ p.nonce = leAt inner 9 8 ∧
          (r.tryAdmit inner src now).1.order = r.order ++ [p.cid] := by
  unfold tryAdmit
  split
  · exact .inl rfl
  rename_i cid hcid
  split
  · exact .inl rfl
  rename_i p hp
  obtain rfl : p.cid = cid := by simpa using find?_some hp
  split
  · exact .inl rfl
  rename_i hmatch
  rw [not_or, not_not, not_not] at hmatch
  rw [update_order]
  rcases openSession_order { r with
    pendingAdmissions := r.pendingAdmissions.filter fun q => q.cid ≠ p.cid } p.cid now with
    hsame | ⟨-, hnew, hopen⟩
  · exact .inl hsame
  · exact .inr ⟨hopen, p, mem_of_find?_eq_some hp, hcid, hmatch.1, hmatch.2, hnew⟩

/-- Routing opens no session, or the first one, or one that is answered for. -/
theorem routeDatagram_order (inner : Packet) (src : Addr) (arrivalUs now entropy : Nat) :
    let r' := (r.routeDatagram inner src arrivalUs now entropy).1
    r'.order = r.order ∨ (∃ cid, r.order = [] ∧ r'.order = [cid]) ∨
      ∃ p ∈ r.pendingAdmissions, pathResponseConnId inner = some p.cid ∧ p.addr = src ∧
        p.nonce = leAt inner 9 8 ∧ r'.order = r.order ++ [p.cid] := by
  unfold routeDatagram
  dsimp only
  rcases tryAdmit_order r inner src now with hsame | ⟨hadmitted, hanswered⟩
  · split
    · exact .inl hsame
    split
    · exact .inl hsame
    rename_i cid howner
    split
    · rw [beginAdmission_order]
      exact .inl hsame
    rename_i hfirst
    have horder : ∀ r' : RlcReceiver Addr,
        r'.order = ((r.tryAdmit inner src now).1.openSession cid now).order →
        r'.order = r.order ∨ ∃ cid, r.order = [] ∧ r'.order = [cid] := by
      intro r' hr'
      rw [hr']
      rcases openSession_order (r.tryAdmit inner src now).1 cid now with hopen | hopen
      · exact .inl (hopen.trans hsame)
      have hnone : r.order = [] := by
        by_contra hne
        exact hfirst ⟨hopen.1, hsame ▸ hne⟩
      refine .inr ⟨cid, hnone, ?_⟩
      rw [hopen.2.1, hsame, hnone]
      rfl
    split
    · exact (horder _ rfl).imp_right .inl
    · exact (horder _ rfl).imp_right .inl
  · rw [if_pos hadmitted]
    exact .inr (.inr hanswered)

theorem serviceAll_order (now : Nat) (grace : Nat → Nat)
    (assess : Nat → Assessment) : (r.serviceAll now grace assess).order = r.order :=
  foldl_update_order (fun cid s => (s.service now (grace cid) (assess cid)).1) _ _

/-- Outstanding challenges are on record, and so is an answer for every session
after the first. -/
structure AdmissionOk {Addr : Type} (s : AdmissionRun Addr) : Prop where
  listed : Listed s.rx
  recorded : ∀ p ∈ s.rx.pendingAdmissions, (p.cid, p.addr, p.nonce) ∈ s.challenged
  admitted : ∀ cid ∈ s.rx.order.tail, ∃ addr, (cid, addr) ∈ s.answered

theorem AdmissionOk.step (h : AdmissionOk s) (hstep : s.step e = some s') : AdmissionOk s' := by
  cases hstep
  refine ⟨?_, fun p hp => mem_append_right _ (mem_map.mpr ⟨p, hp, rfl⟩), fun cid hcid => ?_⟩
  · cases e with
    | datagram inner src arrivalUs now entropy =>
      exact h.listed.routeDatagram inner src arrivalUs now entropy
    | service now grace assess =>
      exact Listed.foldl_update (fun cid s => (s.service now (grace cid) (assess cid)).1) _ h.listed
    | skipTo base =>
      exact h.listed.foldl_update (fun _ s => { s with window := s.window.skipTo base }) _
  have hkeep : cid ∈ s.rx.order.tail → ∀ l, ∃ addr, (cid, addr) ∈ s.answered ++ l := by
    intro hmem l
    obtain ⟨addr, haddr⟩ := h.admitted cid hmem
    exact ⟨addr, mem_append_left _ haddr⟩
  cases e with
  | datagram inner src arrivalUs now entropy =>
    dsimp only at hcid ⊢
    rcases routeDatagram_order s.rx inner src arrivalUs now entropy with
      hsame | ⟨first, -, hfirst⟩ | ⟨p, hp, hresp, haddr, hnonce, hnew⟩
    · rw [hsame] at hcid
      exact hkeep hcid _
    · rw [hfirst] at hcid
      cases hcid
    rw [hnew] at hcid
    have hrecorded := h.recorded p hp
    rw [haddr, hnonce] at hrecorded
    have hanswer : s.answer? inner src = some p.cid :=
      filter_eq_some_iff.mpr ⟨hresp, decide_eq_true hrecorded⟩
    have hlast : cid ∈ s.rx.order.tail ++ [p.cid] := by
      cases horder : s.rx.order with
      | nil =>
        rw [horder] at hcid
        cases hcid
      | cons first rest =>
        rw [horder] at hcid
        exact hcid
    rcases mem_append.mp hlast with hcid | hcid
    · exact hkeep hcid _
    · rw [mem_singleton.mp hcid, hanswer]
      exact ⟨src, mem_append_right _ (mem_singleton.mpr rfl)⟩
  | service now grace assess =>
    rw [serviceAll_order] at hcid
    exact hkeep hcid _
  | skipTo base =>
    rw [skipTo_order] at hcid
    exact hkeep hcid _

end

/-- Every session but the first was answered for from the challenged address
with the challenged nonce, and a datagram leaves every session it does not name
as it was. -/
theorem sessions_admitted {Addr : Type} [DecidableEq Addr] {symbolLen : Nat}
    {ceiling : Option Nat} {events : List (ReceiverEvent Addr)} {s : AdmissionRun Addr}
    (hrun : run AdmissionRun.step (AdmissionRun.init (new symbolLen ceiling)) events = some s) :
    (∀ cid, s.rx.sessions.contains cid = true →
      s.rx.order.head? = some cid ∨ ∃ addr, (cid, addr) ∈ s.answered) ∧
      ∀ inner src arrivalUs now entropy cid, namedConnId inner ≠ some cid →
        (s.rx.routeDatagram inner src arrivalUs now entropy).1.sessions.get? cid =
          s.rx.sessions.get? cid := by
  have hinit : AdmissionOk (AdmissionRun.init (new symbolLen ceiling : RlcReceiver Addr)) :=
    ⟨nofun, nofun, nofun⟩
  have h := run_preserves (fun _ _ _ h hstep => h.step hstep) hinit hrun
  refine ⟨fun cid hopen => ?_, fun _ _ _ _ _ _ hother => routeDatagram_same hother⟩
  have hmem := h.listed cid hopen
  cases horder : s.rx.order with
  | nil =>
    rw [horder] at hmem
    cases hmem
  | cons first rest =>
    rw [horder] at hmem
    rcases mem_cons.mp hmem with rfl | hrest
    · exact .inl rfl
    · exact .inr (h.admitted cid (by rw [horder]; exact hrest))

/-- A second connection id is challenged, answers and is admitted. -/
def secondAdmitted : List (ReceiverEvent Nat) :=
  [.datagram (dataFrame 9 0 0 (packSymbol [byte 5] 3)) 1 0 0 7,
    .datagram (dataFrame 7 0 0 (packSymbol [byte 6] 3)) 2 10 10 8,
    .datagram (pathFrame pktPathResponse 7 (challengeNonce 8 1 7)) 2 20 20 9]

theorem sessions_admitted_secondAdmitted :
    ∃ s, run AdmissionRun.step (AdmissionRun.init (new 3 none)) secondAdmitted =
        some s ∧ s.rx.order = [9, 7] ∧ (∃ addr, (7, addr) ∈ s.answered) ∧
      (s.rx.routeDatagram (dataFrame 5 0 0 []) 4 30 30 1).1.sessions.get? 9 =
        s.rx.sessions.get? 9 := by
  have hlast : (run AdmissionRun.step (AdmissionRun.init (new 3 none))
      secondAdmitted).map (fun s => (s.rx.order, s.rx.sessions.contains 7)) =
        some ([9, 7], true) := by
    decide +kernel
  obtain ⟨s, hrun, heq⟩ := map_eq_some_iff.mp hlast
  simp only [Prod.mk.injEq] at heq
  obtain ⟨horder, hopen⟩ := heq
  have h := sessions_admitted hrun
  refine ⟨s, hrun, horder, (h.1 7 hopen).resolve_left ?_, h.2 _ _ _ _ _ _ (by decide +kernel)⟩
  rw [horder]
  decide

end SubEtha.Rlc
