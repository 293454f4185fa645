namespace SubEtha.Lib
open Option

variable {S E : Type _}

/-- Feed a list of events to a machine; `none` is a step that aborts. -/
def run (step : S → E → Option S) : S → List E → Option S
  | s, [] => some s
  | s, e :: es => (step s e).bind fun s' => run step s' es

/-- Every step the machine takes starts in a state where its event is allowed. -/
def EveryStep (step : S → E → Option S) (ok : S → E → Prop) : S → List E → Prop
  | _, [] => True
  | s, e :: es => ok s e ∧ ∀ s', step s e = some s' → EveryStep step ok s' es

instance EveryStep.decidable {step : S → E → Option S} {ok : S → E → Prop}
    [∀ s e, Decidable (ok s e)] : ∀ s es, Decidable (EveryStep step ok s es)
  | _, [] => isTrue trivial
  | s, e :: es =>
    have (t : S) : Decidable (EveryStep step ok t es) := EveryStep.decidable t es
    inferInstanceAs (Decidable (ok s e ∧ ∀ t ∈ step s e, EveryStep step ok t es))

theorem EveryStep.and (h : EveryStep step ok s es) (h' : EveryStep step ok' s es) :
    EveryStep step (fun s e => ok s e ∧ ok' s e) s es := by
  induction es generalizing s with
  | nil => trivial
  | cons e es ih => exact ⟨⟨h.1, h'.1⟩, fun t ht => ih (h.2 t ht) (h'.2 t ht)⟩

variable {step : S → E → Option S} {ok : S → E → Prop} {es : List E} {inv : S → Prop}

/-- What one allowed step preserves, a run of allowed steps preserves. -/
theorem run_invariant (hstep : ∀ s e s', inv s → ok s e → step s e = some s' → inv s')
    {s s' : S} (hinit : inv s) (hok : EveryStep step ok s es) (hrun : run step s es = some s') :
    inv s' := by
  induction es generalizing s with
  | nil =>
    cases hrun
    exact hinit
  | cons e es ih =>
    obtain ⟨t, ht, hrest⟩ := bind_eq_some_iff.mp hrun
    exact ih (hstep s e t hinit hok.1 ht) (hok.2 t ht) hrest

/-- An invariant about a witness, which a step may replace by a related one. -/
theorem run_carries {I : Type _} {inv : I → S → Prop} {R : I → I → Prop} (hrefl : ∀ i, R i i)
    (htrans : ∀ i j k, R i j → R j k → R i k)
    (hstep : ∀ i s e s', inv i s → ok s e → step s e = some s' → ∃ j, R i j ∧ inv j s') {i : I}
    {s s' : S} (hinit : inv i s) (hok : EveryStep step ok s es) (hrun : run step s es = some s') :
    ∃ j, R i j ∧ inv j s' := by
  induction es generalizing i s with
  | nil =>
    cases hrun
    exact ⟨i, hrefl i, hinit⟩
  | cons e es ih =>
    obtain ⟨t, ht, hrest⟩ := bind_eq_some_iff.mp hrun
    obtain ⟨j, hij, hj⟩ := hstep i s e t hinit hok.1 ht
    obtain ⟨k, hjk, hk⟩ := ih hj (hok.2 t ht) hrest
    exact ⟨k, htrans i j k hij hjk, hk⟩

/-- What every step preserves, every run preserves. -/
theorem run_preserves (hstep : ∀ s e s', inv s → step s e = some s' → inv s') {s s' : S}
    (hinit : inv s) (hrun : run step s es = some s') : inv s' := by
  induction es generalizing s with
  | nil =>
    cases hrun
    exact hinit
  | cons e es ih =>
    obtain ⟨t, ht, hrest⟩ := bind_eq_some_iff.mp hrun
    exact ih (hstep s e t hinit ht) hrest

/-- Where every allowed step succeeds and keeps the invariant, so does every allowed run. -/
theorem run_total (hstep : ∀ s e, inv s → ok s e → ∃ s', step s e = some s' ∧ inv s')
    {s : S} (hinit : inv s) (hok : EveryStep step ok s es) :
    ∃ s', run step s es = some s' ∧ inv s' := by
  induction es generalizing s with
  | nil => exact ⟨s, rfl, hinit⟩
  | cons e es ih =>
    obtain ⟨t, ht, hinv⟩ := hstep s e hinit hok.1
    obtain ⟨s', hrest, hs'⟩ := ih hinv (hok.2 t ht)
    exact ⟨s', by rw [run, ht]; exact hrest, hs'⟩

/-- The run is allowed throughout and ends in a state with property `Q`. -/
def Reaches (step : S → E → Option S) (ok : S → E → Prop) (s : S) (es : List E) (Q : S → Prop) :
    Prop :=
  EveryStep step ok s es ∧ ∃ t, run step s es = some t ∧ Q t

theorem Reaches.nil (h : Q s) : Reaches step ok s [] Q := ⟨trivial, s, rfl, h⟩

theorem Reaches.cons (hok : ok s e) (hstep : step s e = some s') (h : Reaches step ok s' es Q) :
    Reaches step ok s (e :: es) Q := by
  obtain ⟨hevery, t, hrun, hQ⟩ := h
  refine ⟨⟨hok, fun u hu => ?_⟩, t, ?_, hQ⟩
  · rw [hstep] at hu
    cases hu
    exact hevery
  · rw [run, hstep]
    exact hrun

/-- The same event `n` times over, from one stage to the next. -/
theorem Reaches.replicate {P : Nat → S → Prop} {e : E} {rest : List E} (n : Nat)
    (hstep : ∀ i s, i < n → P i s → ok s e ∧ ∃ s', step s e = some s' ∧ P (i + 1) s')
    (hrest : ∀ s, P n s → Reaches step ok s rest Q) {s : S} (h : P 0 s) :
    Reaches step ok s (List.replicate n e ++ rest) Q := by
  induction n generalizing P s with
  | zero => exact hrest s h
  | succ n ih =>
    obtain ⟨hok, s', hs', h'⟩ := hstep 0 s (Nat.succ_pos n) h
    refine .cons hok hs' (ih (P := fun i => P (i + 1)) (fun i t hi ht => ?_) hrest h')
    exact hstep (i + 1) t (Nat.succ_lt_succ hi) ht

end SubEtha.Lib
