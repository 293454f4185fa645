import SubEtha.Rlc.Stream

namespace SubEtha.Rlc
open List Lib RlcDecoder Window

variable {sid now grace : Nat}

section
variable {d : RlcDecoder}

theorem onSource_has (id : Nat) (sym : List Byte) (h : d.has sid = true) :
    (d.onSource id sym).has sid = true := by
  unfold onSource has
  by_cases hid : d.source.contains id = true
  · rw [if_pos hid]
    exact h
  rw [if_neg hid, Table.contains, Table.get?_insert]
  split
  · rfl
  · exact h

theorem addRepair_source (r : RepairSymbol) : (d.addRepair r).source = d.source := by
  unfold addRepair
  split <;> rfl

theorem forgetBelow_has (h : d.has sid = true) (hle : floor ≤ sid) :
    (d.forgetBelow floor).has sid = true := by
  simp only [has, forgetBelow, Table.contains, Table.get?_retain] at *
  rw [if_pos (decide_eq_true ?_)]
  · exact h
  · split
    · exact le_trans (min_le_left ..) hle
    · exact hle

theorem takeRow_has (row : Row Byte) (h : p.1.has sid = true) :
    (takeRow unknowns p row).1.has sid = true := by
  unfold takeRow
  dsimp only
  split
  · split
    · simp only [has, Table.contains, Table.get?_insert] at *
      split
      · rfl
      · exact h
    · exact h
  · exact h

theorem foldl_takeRow_has (rows : List (Row Byte)) (h : p.1.has sid = true) :
    (rows.foldl (takeRow unknowns) p).1.has sid = true := by
  induction rows generalizing p with
  | nil => exact h
  | cons row rows ih => exact ih (takeRow_has row h)

theorem recover_has (h : d.has sid = true) : d.recover.1.has sid = true := by
  unfold recover tryRecover
  dsimp only
  split
  · exact h
  · exact foldl_takeRow_has _ h

end

/-- What a window once held it holds or has delivered. -/
structure Keeps (w w' : Window) : Prop where
  through_le : w.deliveredThrough ≤ w'.deliveredThrough
  has : ∀ sid, w.dec.has sid = true → sid < w'.deliveredThrough ∨ w'.dec.has sid = true

theorem Keeps.refl (w : Window) : Keeps w w := ⟨le_rfl, fun _ => .inr⟩

theorem Keeps.trans (h : Keeps w w') (h' : Keeps w' w'') : Keeps w w'' := by
  refine ⟨le_trans h.through_le h'.through_le, fun sid hsid => ?_⟩
  rcases h.has sid hsid with hlt | hhas
  · exact .inl (lt_of_lt_of_le hlt h'.through_le)
  · exact h'.has sid hhas

theorem Keeps.of_eq (hdec : w'.dec = w.dec) (hthrough : w'.deliveredThrough = w.deliveredThrough) :
    Keeps w w' :=
  ⟨le_of_eq hthrough.symm, fun _ h => .inr (hdec ▸ h)⟩

section
variable (w : Window)

theorem keeps_onData (sid sendUs : Nat) (sym : List Byte) (arrivalUs : Nat) :
    Keeps w (w.onData sid sendUs sym arrivalUs) :=
  ⟨le_rfl, fun _ h => .inr (onSource_has sid sym h)⟩

theorem keeps_onRepair (r : RepairSymbol) : Keeps w (w.onRepair r) := by
  unfold Window.onRepair
  split
  · exact .refl w
  refine ⟨le_rfl, fun sid h => .inr ?_⟩
  rw [has, addRepair_source]
  exact h

theorem keeps_process (pkt : Packet) (arrivalUs : Nat) : Keeps w (w.process pkt arrivalUs) := by
  unfold process
  split
  · exact keeps_onData ..
  split
  · exact keeps_onRepair ..
  · exact .refl w

/-- Forgetting below the frontier loses nothing that is still to come. -/
theorem keeps_forget : Keeps w { w with dec := w.dec.forgetBelow w.deliveredThrough } := by
  refine ⟨le_rfl, fun sid h => ?_⟩
  by_cases hle : w.deliveredThrough ≤ sid
  · exact .inr (forgetBelow_has h hle)
  · exact .inl (lt_of_not_ge hle)

theorem keeps_recover : Keeps w { w with dec := w.dec.recover.1 } :=
  ⟨le_rfl, fun _ h => .inr (recover_has h)⟩

end

structure Holds {symbolLen : Nat} (s : Stream symbolLen) (delivered : List (List Byte))
    (w : Window) : Prop where
  len_eq : w.symbolLen = symbolLen
  dec : DecodesOk s.heard w.dec
  first_le : s.first ≤ w.deliveredThrough
  through_le : w.deliveredThrough ≤ s.next
  delivered_eq : delivered = s.items.take (w.deliveredThrough - s.first)
  probing : w.start ≠ none → w.deliveredThrough = s.first

section
variable {symbolLen : Nat} {s : Stream symbolLen} {delivered : List (List Byte)} {w : Window}

section
variable (h : Holds s delivered w)
include h

theorem Holds.mono (hgrows : s.Grows s') : Holds s' delivered w := by
  obtain ⟨hfirst, ⟨rest, hrest⟩, hheard⟩ := hgrows
  have hle := h.through_le
  unfold Stream.next at hle
  refine ⟨h.len_eq, h.dec.mono hheard, hfirst ▸ h.first_le, ?_, ?_, hfirst ▸ h.probing⟩
  · rw [Stream.next, hfirst, ← hrest, length_append]
    omega
  · rw [hfirst, ← hrest, take_append_of_le_length (by omega)]
    exact h.delivered_eq

theorem Holds.onData (hsym : s.heard.symbols.get? sid = some sym) (sendUs arrivalUs : Nat) :
    Holds s delivered (w.onData sid sendUs sym arrivalUs) :=
  { h with
    dec := onSource_ok h.dec hsym
    probing := fun hne => h.probing fun hnone => hne (by rw [Window.onData, hnone]; rfl) }

theorem Holds.onRepair (hr : RepairOk s.heard r) : Holds s delivered (w.onRepair r) := by
  unfold Window.onRepair
  split
  · exact h
  refine { h with dec := addRepair_ok h.dec hr, probing := fun hne => h.probing ?_ }
  split at hne
  · exact absurd rfl hne
  · exact hne

theorem Holds.recover :
    Holds s delivered { w with dec := w.dec.recover.1 } := { h with dec := tryRecover_ok h.dec }

theorem Holds.settleStart
    (hstill : (w.settleStart now grace).1.deliveredThrough = w.deliveredThrough) :
    Holds s delivered (w.settleStart now grace).1 ∧ Keeps w (w.settleStart now grace).1 := by
  unfold Window.settleStart at hstill ⊢
  split
  · exact ⟨h, .refl w⟩
  rename_i probe hstart
  have hprobing := h.probing (by rw [hstart]; exact Option.some_ne_none _)
  split
  · exact ⟨{ h with probing := fun hne => absurd rfl hne }, .of_eq rfl rfl⟩
  rename_i hzero
  split
  · rename_i lowest stamp back hlowest hback
    split
    · exact ⟨h, .refl w⟩
    rename_i hgrace
    split
    · exact ⟨{ h with probing := fun _ => hprobing }, .of_eq rfl rfl⟩
    rename_i hrounds
    simp only [hstart, if_neg hzero, hlowest, hback, if_neg hgrace, if_neg hrounds] at hstill
    subst hstill
    exact ⟨{ h with
      dec := forgetBelow_ok h.dec _
      probing := fun hne => absurd rfl hne }, (keeps_forget w).trans (.of_eq rfl rfl)⟩
  · exact ⟨h, .refl w⟩

theorem Holds.deliverLoop (hstart : w.start = none) (hnext : s.next < 2 ^ 32) :
    Holds s (delivered ++ (deliverLoop fuel w).2) (deliverLoop fuel w).1 ∧
      Keeps w (deliverLoop fuel w).1 := by
  induction fuel generalizing w delivered with
  | zero => exact ⟨by simpa [deliverLoop] using h, .refl w⟩
  | succ fuel ih =>
    rw [deliverLoop]
    split
    · exact ⟨by simpa using h, .refl w⟩
    rename_i sym hsym
    have hheard := h.dec.source _ sym hsym
    have hlt := Stream.lt_next (Stream.symbol?_of_heard hheard).2
    have hfirst := h.first_le
    have hmod : (w.deliveredThrough + 1) % 2 ^ 32 = w.deliveredThrough + 1 :=
      Nat.mod_eq_of_lt (by omega)
    have hstep : Holds s (delivered ++ [unpackSymbol sym])
        { w with deliveredThrough := (w.deliveredThrough + 1) % 2 ^ 32 } := by
      rw [hmod]
      refine { h with
        first_le := Nat.le_succ_of_le hfirst
        through_le := hlt
        delivered_eq := ?_
        probing := fun hne => absurd hstart hne }
      rw [Nat.sub_add_comm hfirst, take_add_one, Stream.unpack_of_heard hheard, h.delivered_eq]
      rfl
    obtain ⟨hrest, hkeeps⟩ := ih hstep hstart
    rw [append_assoc] at hrest
    have hone : Keeps w { w with deliveredThrough := (w.deliveredThrough + 1) % 2 ^ 32 } :=
      ⟨by rw [hmod]; exact Nat.le_succ _, fun _ hsid => .inr hsid⟩
    exact ⟨hrest, hone.trans hkeeps⟩

theorem Holds.deliver (hstart : w.start = none) (hnext : s.next < 2 ^ 32) :
    Holds s (delivered ++ w.deliver.2) w.deliver.1 ∧ Keeps w w.deliver.1 := by
  obtain ⟨hloop, hkeeps⟩ := h.deliverLoop hstart hnext
  exact ⟨{ hloop with dec := forgetBelow_ok hloop.dec _ }, hkeeps.trans (keeps_forget _)⟩

end

theorem settleStart_settled (h : (w.settleStart now grace).2 = true) :
    (w.settleStart now grace).1.start = none := by
  unfold settleStart at h ⊢
  split
  · assumption
  split
  · rfl
  split
  · split
    · simp_all
    split
    · simp_all
    · rfl
  · simp_all

/-- The window after a recovery pass and the decision where it starts. -/
def Window.settled (w : Window) (now grace : Nat) : Window × Bool :=
  Window.settleStart { w with dec := w.dec.recover.1 } now grace

theorem Holds.advance (h : Holds s delivered w) (hnext : s.next < 2 ^ 32)
    (hstill : (w.settled now grace).1.deliveredThrough = w.deliveredThrough) :
    Holds s (delivered ++ (w.advance now grace).2.1) (w.advance now grace).1 ∧
      Keeps w (w.advance now grace).1 := by
  obtain ⟨hsettled, hkeeps⟩ := h.recover.settleStart hstill
  have hkeeps := (keeps_recover w).trans hkeeps
  unfold Window.advance
  dsimp only
  split
  · rename_i hflag
    obtain ⟨hout, hkeeps'⟩ := hsettled.deliver (settleStart_settled hflag) hnext
    exact ⟨hout, hkeeps.trans hkeeps'⟩
  · exact ⟨by simpa using hsettled, hkeeps⟩

end

variable {w : Window}

theorem maybeNak_eq (w : Window) (hasPeer : Bool) (now grace : Nat) :
    (w.maybeNak hasPeer now grace).1.dec = w.dec ∧
      (w.maybeNak hasPeer now grace).1.deliveredThrough = w.deliveredThrough ∧
      (w.maybeNak hasPeer now grace).1.start = w.start ∧
      (w.maybeNak hasPeer now grace).1.symbolLen = w.symbolLen := by
  unfold maybeNak
  dsimp only
  split
  · exact ⟨rfl, rfl, rfl, rfl⟩
  split
  · exact ⟨rfl, rfl, rfl, rfl⟩
  · split <;> exact ⟨rfl, rfl, rfl, rfl⟩

theorem sendAck_eq (w : Window) (hasPeer : Bool) (now : Nat) :
    (w.sendAck hasPeer now).1.dec = w.dec ∧
      (w.sendAck hasPeer now).1.deliveredThrough = w.deliveredThrough ∧
      (w.sendAck hasPeer now).1.start = w.start ∧
      (w.sendAck hasPeer now).1.symbolLen = w.symbolLen := by
  unfold sendAck
  split
  · exact ⟨rfl, rfl, rfl, rfl⟩
  · split <;> exact ⟨rfl, rfl, rfl, rfl⟩

theorem sendStartProbe_eq (w : Window) (hasPeer : Bool) (now : Nat) :
    (w.sendStartProbe hasPeer now).1.dec = w.dec ∧
      (w.sendStartProbe hasPeer now).1.deliveredThrough = w.deliveredThrough ∧
      ((w.sendStartProbe hasPeer now).1.start = none ↔ w.start = none) ∧
      (w.sendStartProbe hasPeer now).1.symbolLen = w.symbolLen := by
  unfold sendStartProbe
  repeat' split
  all_goals simp_all

theorem respond_eq (w : Window) (settled hasPeer : Bool) (now grace : Nat) :
    (w.respond settled hasPeer now grace).1.dec = w.dec ∧
      (w.respond settled hasPeer now grace).1.deliveredThrough = w.deliveredThrough ∧
      ((w.respond settled hasPeer now grace).1.start = none ↔ w.start = none) ∧
      (w.respond settled hasPeer now grace).1.symbolLen = w.symbolLen := by
  cases settled with
  | false => exact sendStartProbe_eq w hasPeer now
  | true =>
    obtain ⟨hdec, hthrough, hstart, hlen⟩ := maybeNak_eq w hasPeer now grace
    obtain ⟨hdec', hthrough', hstart', hlen'⟩ :=
      sendAck_eq (w.maybeNak hasPeer now grace).1 hasPeer now
    exact ⟨hdec'.trans hdec, hthrough'.trans hthrough, by rw [← hstart, ← hstart']; rfl,
      hlen'.trans hlen⟩

theorem testBit_foldl_or (p : Nat → Bool) (n i : Nat) :
    ((List.range n).foldl (fun mask j => if p j then mask ||| 1 <<< j else mask) 0).testBit i =
      (decide (i < n) && p i) := by
  simp only [Nat.one_shiftLeft]
  induction n with
  | zero => simp
  | succ n ih =>
    rw [range_succ, foldl_append]
    simp only [foldl_cons, foldl_nil]
    by_cases hin : i = n
    · subst i
      split <;> simp_all [Nat.testBit_or, Nat.testBit_two_pow_self]
    · have hlt : i < n + 1 ↔ i < n := by omega
      split <;> simp [ih, hlt, Nat.testBit_or, Nat.testBit_two_pow_of_ne (Ne.symm hin)]

theorem has_of_sacked (h : RlcSender.sacked w.deliveredThrough w.sackMask sid = true) :
    w.dec.has sid = true := by
  obtain ⟨i, -, hi⟩ := List.any_eq_true.mp h
  obtain ⟨hbit, hsid⟩ := Bool.and_eq_true_iff.mp hi
  rw [of_decide_eq_true hsid]
  rw [sackMask, testBit_foldl_or] at hbit
  exact (Bool.and_eq_true_iff.mp hbit).2

end SubEtha.Rlc
