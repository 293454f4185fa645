import SubEtha.Arena.Layout

namespace SubEtha.Arena
open List SubEtha.Lib World

@[simp] theorem header_setHeader (w : World) (y o : Nat) (f : BlockHeader → BlockHeader) :
    (w.setHeader y f).header o = if o = y then f (w.header o) else w.header o := rfl

/-- The carved bytes are laid out in blocks, and only the processes `ps` write. -/
structure Sound (sh : Shape) (ps : Nat → Prop) (w : World) : Prop where
  laid : ∃ l, Laid sh w l
  writers : ∀ o p, (w.header o).state = .writing p → ps p

/-- A step of process `pid` that keeps the layout and respects the others. -/
structure Fair (sh : Shape) (ps : Nat → Prop) (pid : Nat) (w w' : World) : Prop where
  sound : Sound sh ps w'
  guar : Guar sh pid w w'

structure Own (sh : Shape) (pid : Nat) (h : BlockHandle) (w : World) : Prop where
  start : Start sh w h.offset
  state : (w.header h.offset).state = .writing pid
  cls : (w.header h.offset).cls = h.cls

variable {sh : Shape} {ps : Nat → Prop} {pid : Nat} {w w' : World}
variable {l : List BlockHandle} {o y c : Nat}

theorem Own.mem (hl : Laid sh w l) (hown : Own sh pid b w) : b ∈ l := by
  obtain ⟨a, ha, hoff, hca, -⟩ := hl.start hown.start
  have hcls := hca.trans hown.cls
  obtain rfl : a = b := by
    cases a
    cases b
    simp_all
  exact ha

theorem header_setLen (o n x : Nat) (w : World) :
    ((setLen o n w).header x).state = (w.header x).state ∧
      ((setLen o n w).header x).cls = (w.header x).cls := by
  unfold setLen
  rw [header_setHeader]
  split <;> exact ⟨rfl, rfl⟩

section
variable (hbump : w'.arena.bump = w.arena.bump)
variable (hstate : ∀ o, (w'.header o).state = (w.header o).state)
variable (hcls : ∀ o, (w'.header o).cls = (w.header o).cls)
variable (hfree : ∀ c i, w'.arena.freeBits c i = true →
  w.arena.freeBits c i = true ∨ Start sh w (i * 2 ^ c))
variable (hretired : ∀ c i, w'.arena.retiredBits c i = true →
  w.arena.retiredBits c i = true ∨ Start sh w (i * 2 ^ c))
include hbump hstate hcls hfree hretired

theorem Laid.quiet (h : Laid sh w l) : Laid sh w' l := by
  have hnamed : ∀ o, Start sh w o → ∃ a ∈ l, a.offset = o ∧ (w'.header a.offset).state ≠ .unbuilt := by
    intro o ho
    obtain ⟨a, ha, rfl, -, hne⟩ := h.start ho
    exact ⟨a, ha, rfl, (hstate _).symm ▸ hne⟩
  refine ⟨hbump.symm ▸ h.tiles, h.classes, h.aligned, fun a ha hne => ?_, fun a ha hu => ?_,
    hbump.symm ▸ h.bump_dvd, hbump.symm ▸ h.bump_le, fun o ho => ?_, fun o hne hnf => ?_,
    fun c i hbit => ?_, fun c i hbit => ?_⟩
  · rw [hcls]
    exact h.built a ha (hstate _ ▸ hne)
  · exact h.chunk a ha (hstate _ ▸ hu)
  · rw [hstate]
    exact h.fresh o (hbump ▸ ho)
  · exact h.named o (hstate _ ▸ hne) (hstate _ ▸ hnf)
  · rcases hfree c i hbit with hold | hstart
    · obtain ⟨a, ha, hoff, hne⟩ := h.freeBits c i hold
      exact ⟨a, ha, hoff, (hstate _).symm ▸ hne⟩
    · exact hnamed _ hstart
  · rcases hretired c i hbit with hold | hstart
    · obtain ⟨a, ha, hoff, hne⟩ := h.retiredBits c i hold
      exact ⟨a, ha, hoff, (hstate _).symm ▸ hne⟩
    · exact hnamed _ hstart

theorem Start.quiet (h : Start sh w o) : Start sh w' o := by
  obtain ⟨l, hl, a, ha, hoff, hne⟩ := h
  exact ⟨l, hl.quiet hbump hstate hcls hfree hretired, a, ha, hoff, (hstate o).symm ▸ hne⟩

theorem Fair.quiet (h : Sound sh ps w) (hcarver : w'.carver = w.carver) : Fair sh ps pid w w' := by
  obtain ⟨l, hl⟩ := h.laid
  refine ⟨⟨⟨l, hl.quiet hbump hstate hcls hfree hretired⟩,
    fun o p hp => h.writers o p ((hstate o).symm.trans hp)⟩, le_of_eq hbump.symm,
    fun o _ => by rw [hcarver], fun o ho => ho.quiet hbump hstate hcls hfree hretired,
    fun o p _ _ _ x _ _ => ⟨hstate x, hcls x⟩, fun o _ ho => ⟨?_, hcls o⟩⟩
  obtain ⟨l', hl', a, ha, hoff, hu⟩ := ho
  exact ⟨l', hl'.quiet hbump hstate hcls hfree hretired, a, ha, hoff, (hstate o).trans hu⟩

end

theorem bit_or_start {bits : Nat → Nat → Bool} (hbit : bit = true → Start sh w (i * 2 ^ c))
    (hset : (if c' = c ∧ i' = i then bit else bits c' i') = true) :
    bits c' i' = true ∨ Start sh w (i' * 2 ^ c') := by
  split at hset
  · rename_i heq
    rw [heq.1, heq.2]
    exact .inr (hbit hset)
  · exact .inl hset

section
variable (h : Sound sh ps w)
include h

theorem fair_setLen (y n : Nat) : Fair sh ps pid w (setLen y n w) :=
  Fair.quiet rfl (fun o => (header_setLen y n o w).1) (fun o => (header_setLen y n o w).2)
    (fun _ _ => .inl) (fun _ _ => .inl) h rfl

theorem fair_putFree (hbit : bit = true → Start sh w (i * 2 ^ c)) :
    Fair sh ps pid w (putFree c i bit w) :=
  Fair.quiet rfl (fun _ => rfl) (fun _ => rfl) (fun _ _ => bit_or_start hbit) (fun _ _ => .inl) h rfl

theorem fair_putRetired (hbit : bit = true → Start sh w (i * 2 ^ c)) :
    Fair sh ps pid w (putRetired c i bit w) :=
  Fair.quiet rfl (fun _ => rfl) (fun _ => rfl) (fun _ _ => .inl) (fun _ _ => bit_or_start hbit) h rfl

theorem fair_setHint (c n : Nat) : Fair sh ps pid w (setHint c n w) :=
  Fair.quiet rfl (fun _ => rfl) (fun _ => rfl) (fun _ _ => .inl) (fun _ _ => .inl) h rfl

theorem fair_epochs (e : Epochs.SharedEpochs) : Fair sh ps pid w { w with epochs := e } :=
  Fair.quiet rfl (fun _ => rfl) (fun _ => rfl) (fun _ _ => .inl) (fun _ _ => .inl) h rfl

theorem fair_setByte (x : Nat) (b : Byte) : Fair sh ps pid w (setByte x b w) :=
  Fair.quiet rfl (fun _ => rfl) (fun _ => rfl) (fun _ _ => .inl) (fun _ _ => .inl) h rfl

end

/-- One header of the laid out bytes changes: what it now says fits its place, and it is in no
block another process is writing and no chunk another one carved. -/
structure Rewrites (sh : Shape) (ps : Nat → Prop) (pid : Nat) (w : World) (l : List BlockHandle)
    (y : Nat) (new : BlockHeader) : Prop where
  carved : y < w.arena.bump
  built : (w.header y).state ≠ .unbuilt → new.state ≠ .unbuilt
  block : ∀ a ∈ l, a.offset = y → new.state ≠ .unbuilt → new.cls = a.cls
  named : new.state ≠ .unbuilt → new.state ≠ .free → ∃ a ∈ l, a.offset = y
  mine : ∀ a ∈ l, ∀ q, (w.header a.offset).state = .writing q → a.offset ≤ y →
    y < a.offset + 2 ^ a.cls → q = pid
  chunk : ∀ a ∈ l, a.offset = y → (w.header y).state = .unbuilt → w.carver y = pid
  crew : ∀ p, new.state = .writing p → ps p

theorem Rewrites.laid (hl : Laid sh w l) (hr : Rewrites sh ps pid w l y (f (w.header y))) :
    Laid sh (w.setHeader y f) l := by
  have hbuilt : ∀ o, (w.header o).state ≠ .unbuilt → ((w.setHeader y f).header o).state ≠ .unbuilt := by
    intro o ho
    rw [header_setHeader]
    split
    · rename_i heq
      rw [heq]
      exact hr.built (heq ▸ ho)
    · exact ho
  refine ⟨hl.tiles, hl.classes, hl.aligned, fun b hb hne => ?_, fun b hb hu => ?_, hl.bump_dvd,
    hl.bump_le, fun o ho => ?_, fun o hne hnf => ?_, fun c i hbit => ?_, fun c i hbit => ?_⟩
  · rw [header_setHeader] at hne ⊢
    split
    · rename_i heq
      rw [if_pos heq] at hne
      rw [heq] at hne ⊢
      exact hr.block b hb heq hne
    · rename_i hneq
      rw [if_neg hneq] at hne
      exact hl.built b hb hne
  · refine hl.chunk b hb ?_
    by_contra hne
    exact hbuilt _ hne hu
  · have hne : o ≠ y := fun heq => by
      have hcarved := hr.carved
      have ho : w.arena.bump ≤ o := ho
      omega
    rw [header_setHeader, if_neg hne]
    exact hl.fresh o ho
  · rw [header_setHeader] at hne hnf
    split at hne
    · rename_i heq
      rw [if_pos heq] at hnf
      rw [heq] at hne hnf ⊢
      exact hr.named hne hnf
    · rename_i hneq
      rw [if_neg hneq] at hnf
      exact hl.named o hne hnf
  · obtain ⟨b, hb, hoff, hne⟩ := hl.freeBits c i hbit
    exact ⟨b, hb, hoff, hbuilt _ hne⟩
  · obtain ⟨b, hb, hoff, hne⟩ := hl.retiredBits c i hbit
    exact ⟨b, hb, hoff, hbuilt _ hne⟩

/-- The header at `y` changes and the blocks are laid out anew, with every old start kept. -/
theorem Fair.relaid (h : Sound sh ps w) (hl : Laid sh w l) (hlaid : Laid sh (w.setHeader y f) l')
    (hkept : ∀ a ∈ l, ∃ b ∈ l', b.offset = a.offset)
    (hbuilt : (w.header y).state ≠ .unbuilt → (f (w.header y)).state ≠ .unbuilt)
    (hmine : ∀ a ∈ l, ∀ q, (w.header a.offset).state = .writing q → a.offset ≤ y →
      y < a.offset + 2 ^ a.cls → q = pid)
    (hchunk : ∀ a ∈ l, a.offset = y → (w.header y).state = .unbuilt → w.carver y = pid)
    (hcrew : ∀ p, (f (w.header y)).state = .writing p → ps p) :
    Fair sh ps pid w (w.setHeader y f) := by
  have hother : ∀ o, o ≠ y → (w.setHeader y f).header o = w.header o := fun o ho => if_neg ho
  have hstarts : ∀ o, Start sh w o → Start sh (w.setHeader y f) o := by
    intro o ho
    obtain ⟨a, ha, rfl, -, hne⟩ := hl.start ho
    obtain ⟨b, hb, heq⟩ := hkept a ha
    refine ⟨l', hlaid, b, hb, heq, ?_⟩
    rw [header_setHeader]
    split
    · rename_i heq
      rw [heq]
      exact hbuilt (heq ▸ hne)
    · exact hne
  refine ⟨⟨⟨l', hlaid⟩, fun o p hp => ?_⟩, le_rfl, fun _ _ => rfl, hstarts,
    fun o q hq ho hwriting x hle hlt => ?_, fun o hc ho => ?_⟩
  · rw [header_setHeader] at hp
    split at hp
    · rename_i heq
      exact hcrew p (heq ▸ hp)
    · exact h.writers o p hp
  · obtain ⟨a, ha, rfl, hca, -⟩ := hl.start ho
    have hne : x ≠ y := fun heq => hq (hmine a ha q hwriting (heq ▸ hle) (hca ▸ heq ▸ hlt))
    rw [hother x hne]
    exact ⟨rfl, rfl⟩
  · have hmem := hl.chunk_mem ho
    obtain ⟨-, -, -, -, -, hu⟩ := ho
    obtain ⟨b, hb, heq⟩ := hkept _ hmem
    have hne : o ≠ y := fun heq => hc (heq ▸ hchunk _ hmem heq (heq ▸ hu))
    rw [hother o hne]
    exact ⟨⟨l', hlaid, b, hb, heq, (congrArg _ (hother o hne)).trans hu⟩, rfl⟩

theorem Rewrites.fair (h : Sound sh ps w) (hl : Laid sh w l)
    (hr : Rewrites sh ps pid w l y (f (w.header y))) : Fair sh ps pid w (w.setHeader y f) :=
  Fair.relaid h hl (hr.laid hl) (fun a ha => ⟨a, ha, rfl⟩) hr.built hr.mine hr.chunk hr.crew

section
variable (h : Sound sh ps w)
include h

/-- A built block that no other process is writing moves to another state. -/
theorem fair_setState (hy : Start sh w y)
    (hmine : ∀ q, (w.header y).state = .writing q → q = pid) (hstate : state ≠ .unbuilt)
    (hcrew : ∀ p, state = .writing p → ps p) : Fair sh ps pid w (setState y state w) := by
  obtain ⟨l, hl⟩ := h.laid
  obtain ⟨a, ha, rfl, hca, hne⟩ := hl.start hy
  have hpos := Nat.two_pow_pos a.cls
  have hend := hl.end_le ha
  have heq : ∀ b ∈ l, b.offset ≤ a.offset → a.offset < b.offset + 2 ^ b.cls → b = a :=
    fun b hb hle hlt => hl.eq_of_within hb ha ⟨hle, hlt⟩ ⟨le_rfl, by omega⟩
  refine Rewrites.fair h hl ⟨by omega, fun _ => hstate, fun b hb hoff _ => ?_, fun _ _ => ⟨a, ha, rfl⟩,
    fun b hb q hq hle hlt => ?_, fun b hb hoff hu => absurd hu hne, hcrew⟩
  · rw [hl.eq_of_offset hb ha hoff]
    exact hca.symm
  · exact hmine q (heq b hb hle hlt ▸ hq)

theorem fair_spare (hown : Own sh pid ⟨o, c⟩ w) (hy : o < y ∧ y < o + 2 ^ c)
    (hf : (f (w.header y)).state = .free ∨ (f (w.header y)).state = (w.header y).state) :
    Fair sh ps pid w (w.setHeader y f) := by
  obtain ⟨l, hl⟩ := h.laid
  have ha := hown.mem hl
  have hend : o + 2 ^ c ≤ w.arena.bump := hl.end_le ha
  have hwithin : ∀ b ∈ l, b.offset ≤ y → y < b.offset + 2 ^ b.cls → b = ⟨o, c⟩ :=
    fun b hb hle hlt => hl.eq_of_within hb ha ⟨hle, hlt⟩ ⟨hy.1.le, hy.2⟩
  have hnot : ∀ b ∈ l, b.offset ≠ y := by
    intro b hb heq
    have hsame := hwithin b hb (le_of_eq heq) (heq ▸ Nat.lt_add_of_pos_right (Nat.two_pow_pos _))
    have : b.offset = o := congrArg BlockHandle.offset hsame
    omega
  refine Rewrites.fair h hl ⟨by omega, fun hne => ?_, fun b hb heq => absurd heq (hnot b hb),
    fun hne hnf => ?_, fun b hb q hq hle hlt => ?_,
    fun b hb heq => absurd heq (hnot b hb), fun p hp => ?_⟩
  · rcases hf with hf | hf
    · rw [hf]
      exact nofun
    · rw [hf]
      exact hne
  · rcases hf with hf | hf
    · exact absurd hf hnf
    · rw [hf] at hne hnf
      exact hl.named y hne hnf
  · rw [hwithin b hb hle hlt, hown.state] at hq
    exact (BlockState.writing.inj hq).symm
  · rcases hf with hf | hf
    · rw [hf] at hp
      cases hp
    · exact h.writers y p (hf.symm.trans hp)

theorem fair_chunk (hy : Chunk sh w y) (hcarver : w.carver y = pid)
    (hf : (f (w.header y)).state ≠ .unbuilt → (f (w.header y)).cls = sh.maxClass)
    (hcrew : ∀ p, (f (w.header y)).state = .writing p → ps p) :
    Fair sh ps pid w (w.setHeader y f) ∧
      ∃ l, Laid sh (w.setHeader y f) l ∧ ⟨y, sh.maxClass⟩ ∈ l := by
  obtain ⟨l, hl⟩ := h.laid
  have hmem := hl.chunk_mem hy
  obtain ⟨-, -, -, -, -, hu⟩ := hy
  have hend : y + 2 ^ sh.maxClass ≤ w.arena.bump := hl.end_le hmem
  have hpos := Nat.two_pow_pos sh.maxClass
  have hr : Rewrites sh ps pid w l y (f (w.header y)) := by
    refine ⟨by omega, fun hne => absurd hu hne, fun b hb heq hne => ?_, fun _ _ => ⟨_, hmem, rfl⟩,
      fun b hb q hq hle hlt => ?_, fun _ _ _ _ => hcarver, hcrew⟩
    · rw [hf hne, hl.eq_of_offset hb hmem heq]
    have hsame := hl.eq_of_within hb hmem ⟨hle, hlt⟩ ⟨le_rfl, Nat.lt_add_of_pos_right hpos⟩
    rw [hsame] at hq
    rw [hu] at hq
    cases hq
  exact ⟨hr.fair h hl, l, hr.laid hl, hmem⟩

theorem fair_halve (hown : Own sh pid ⟨o, c + 1⟩ w) (hc : sh.minClass ≤ c)
    (hstate : (w.header (o + 2 ^ c)).state = .free) (hcls : (w.header (o + 2 ^ c)).cls = c) :
    Fair sh ps pid w (setClass o c w) ∧ Start sh (setClass o c w) (o + 2 ^ c) ∧
      Own sh pid ⟨o, c⟩ (setClass o c w) := by
  obtain ⟨l, hl⟩ := h.laid
  have hmem := hown.mem hl
  obtain ⟨front, back, rfl⟩ := append_of_mem hmem
  have hpos := Nat.two_pow_pos c
  have htiles := hl.tiles
  rw [map_append, map_cons] at htiles
  have hsides := htiles.sides
  have hold : ∀ a ∈ front ++ back, a ∈ front ++ ⟨o, c + 1⟩ :: back ∧ a.offset ≠ o := by
    intro a ha
    rcases mem_append.mp ha with ha | ha
    · have hlt := hsides.1 a.span (mem_map_of_mem ha)
      have := Nat.two_pow_pos a.cls
      refine ⟨mem_append_left _ ha, ?_⟩
      unfold BlockHandle.span at hlt
      dsimp only at hlt
      omega
    · have hlt := hsides.2 a.span (mem_map_of_mem ha)
      refine ⟨mem_append_right _ (mem_cons_of_mem _ ha), ?_⟩
      unfold BlockHandle.span at hlt
      dsimp only at hlt
      omega
  have hnew : ∀ a ∈ front ++ ([⟨o, c⟩, ⟨o + 2 ^ c, c⟩] ++ back),
      a = ⟨o, c⟩ ∨ a = ⟨o + 2 ^ c, c⟩ ∨ a ∈ front ++ back := by
    intro a ha
    simp only [mem_append, mem_cons, not_mem_nil, or_false] at ha ⊢
    tauto
  have hkept : ∀ a ∈ front ++ ⟨o, c + 1⟩ :: back,
      ∃ b ∈ front ++ ([⟨o, c⟩, ⟨o + 2 ^ c, c⟩] ++ back), b.offset = a.offset := by
    intro a ha
    rcases mem_append.mp ha with ha | ha
    · exact ⟨a, mem_append_left _ ha, rfl⟩
    rcases mem_cons.mp ha with rfl | ha
    · exact ⟨⟨o, c⟩, mem_append_right _ mem_cons_self, rfl⟩
    · exact ⟨a, mem_append_right _ (mem_append_right _ ha), rfl⟩
  have hother : ∀ x, x ≠ o → (setClass o c w).header x = w.header x := fun x hx => if_neg hx
  have hstates : ∀ x, ((setClass o c w).header x).state = (w.header x).state := fun x => by
    unfold setClass
    rw [header_setHeader]
    split <;> rfl
  have hself : ((setClass o c w).header o).cls = c := by
    unfold setClass
    rw [header_setHeader, if_pos rfl]
  obtain ⟨hmin, hmax⟩ := hl.classes _ hmem
  have hdvd : 2 ^ c ∣ o := (Nat.pow_dvd_pow 2 (Nat.le_succ c)).trans (hl.aligned _ hmem)
  have hlaid : Laid sh (setClass o c w) (front ++ ([⟨o, c⟩, ⟨o + 2 ^ c, c⟩] ++ back)) := by
    refine ⟨?_, fun a ha => ?_, fun a ha => ?_, fun a ha hne => ?_, fun a ha hu => ?_, hl.bump_dvd,
      hl.bump_le, fun x hx => (hstates x).trans (hl.fresh x hx), fun x hne hnf => ?_,
      fun d i hbit => ?_, fun d i hbit => ?_⟩
    · rw [map_append, map_append]
      refine htiles.replace ⟨rfl, hpos, rfl, hpos, ?_⟩
      change o + 2 ^ c + 2 ^ c = o + 2 ^ (c + 1)
      omega
    · rcases hnew a ha with rfl | rfl | ha
      · exact ⟨hc, Nat.le_of_succ_le hmax⟩
      · exact ⟨hc, Nat.le_of_succ_le hmax⟩
      · exact hl.classes a (hold a ha).1
    · rcases hnew a ha with rfl | rfl | ha
      · exact hdvd
      · exact Nat.dvd_add hdvd (Nat.dvd_refl _)
      · exact hl.aligned a (hold a ha).1
    · rcases hnew a ha with rfl | rfl | ha
      · exact hself
      · rw [hother _ (by dsimp only; omega)]
        exact hcls
      rw [hstates] at hne
      rw [hother _ (hold a ha).2]
      exact hl.built a (hold a ha).1 hne
    · rw [hstates] at hu
      rcases hnew a ha with rfl | rfl | ha
      · rw [hown.state] at hu
        cases hu
      · rw [hstate] at hu
        cases hu
      · exact hl.chunk a (hold a ha).1 hu
    · rw [hstates] at hne hnf
      obtain ⟨a, ha, rfl⟩ := hl.named x hne hnf
      exact hkept a ha
    · obtain ⟨a, ha, hoff, hne⟩ := hl.freeBits d i hbit
      obtain ⟨b, hb, heq⟩ := hkept a ha
      exact ⟨b, hb, heq.trans hoff, by rw [hstates, heq]; exact hne⟩
    · obtain ⟨a, ha, hoff, hne⟩ := hl.retiredBits d i hbit
      obtain ⟨b, hb, heq⟩ := hkept a ha
      exact ⟨b, hb, heq.trans hoff, by rw [hstates, heq]; exact hne⟩
  have hfair : Fair sh ps pid w (setClass o c w) := by
    refine Fair.relaid h hl hlaid hkept id (fun a ha q hq hle hlt => ?_)
      (fun _ _ _ hu => ?_) (h.writers o)
    · have hsame := hl.eq_of_within ha hmem ⟨hle, hlt⟩
        ⟨le_rfl, Nat.lt_add_of_pos_right (Nat.two_pow_pos _)⟩
      rw [hsame, hown.state] at hq
      exact (BlockState.writing.inj hq).symm
    · rw [hown.state] at hu
      cases hu
  refine ⟨hfair, ⟨_, hlaid, ⟨o + 2 ^ c, c⟩, ?_, rfl, ?_⟩,
    hfair.guar.starts o hown.start, (hstates o).trans hown.state, hself⟩
  · exact mem_append_right _ (mem_cons_of_mem _ mem_cons_self)
  · rw [hstates, hstate]
    exact nofun

end

def World.carved (sh : Shape) (pid : Nat) (w : World) : World :=
  { w with
    arena.bump := w.arena.bump + 2 ^ sh.maxClass
    carver := fun o => if o = w.arena.bump then pid else w.carver o }

theorem Laid.carved (hl : Laid sh w l) (hroom : w.arena.bump + 2 ^ sh.maxClass ≤ sh.capacity) :
    Laid sh (w.carved sh pid) (l ++ [⟨w.arena.bump, sh.maxClass⟩]) := by
  have hfresh : (w.header w.arena.bump).state = .unbuilt := hl.fresh _ le_rfl
  have hcases : ∀ a ∈ l ++ [⟨w.arena.bump, sh.maxClass⟩], a ∈ l ∨ a = ⟨w.arena.bump, sh.maxClass⟩ := by
    intro a ha
    rcases mem_append.mp ha with ha | ha
    · exact .inl ha
    · exact .inr (mem_singleton.mp ha)
  refine ⟨?_, fun a ha => ?_, fun a ha => ?_, fun a ha hne => ?_, fun a ha hu => ?_,
    Nat.dvd_add hl.bump_dvd (Nat.dvd_refl _), hroom, fun o ho => ?_, fun o hne hnf => ?_,
    fun c i hbit => ?_, fun c i hbit => ?_⟩
  · rw [map_append]
    exact hl.tiles.append ⟨rfl, Nat.two_pow_pos _, rfl⟩
  · rcases hcases a ha with ha | rfl
    · exact hl.classes a ha
    · exact ⟨sh.ordered, le_rfl⟩
  · rcases hcases a ha with ha | rfl
    · exact hl.aligned a ha
    · exact hl.bump_dvd
  · rcases hcases a ha with ha | rfl
    · exact hl.built a ha hne
    · exact absurd hfresh hne
  · rcases hcases a ha with ha | rfl
    · exact hl.chunk a ha hu
    · rfl
  · exact hl.fresh o (le_trans (Nat.le_add_right _ _) ho)
  · obtain ⟨a, ha, hoff⟩ := hl.named o hne hnf
    exact ⟨a, mem_append_left _ ha, hoff⟩
  · obtain ⟨a, ha, hoff, hne⟩ := hl.freeBits c i hbit
    exact ⟨a, mem_append_left _ ha, hoff, hne⟩
  · obtain ⟨a, ha, hoff, hne⟩ := hl.retiredBits c i hbit
    exact ⟨a, mem_append_left _ ha, hoff, hne⟩

theorem fair_carved (h : Sound sh ps w) (hroom : w.arena.bump + 2 ^ sh.maxClass ≤ sh.capacity) :
    Fair sh ps pid w (w.carved sh pid) ∧ Chunk sh (w.carved sh pid) w.arena.bump := by
  obtain ⟨l, hl⟩ := h.laid
  have hlaid : Laid sh (w.carved sh pid) (l ++ [⟨w.arena.bump, sh.maxClass⟩]) := hl.carved hroom
  have hstarts : ∀ o, Start sh w o → Start sh (w.carved sh pid) o := by
    intro o ho
    obtain ⟨a, ha, hoff, -, hne⟩ := hl.start ho
    exact ⟨_, hlaid, a, mem_append_left _ ha, hoff, hne⟩
  refine ⟨⟨⟨⟨_, hlaid⟩, h.writers⟩, Nat.le_add_right _ _,
    fun o ho => if_neg (ne_of_lt ho), hstarts, fun _ _ _ _ _ _ _ _ => ⟨rfl, rfl⟩,
    fun o _ ho => ⟨?_, rfl⟩⟩, ?_⟩
  · have hmem := hl.chunk_mem ho
    obtain ⟨-, -, -, -, -, hu⟩ := ho
    exact ⟨_, hlaid, _, mem_append_left _ hmem, rfl, hu⟩
  · exact ⟨_, hlaid, _, mem_append_right _ mem_cons_self, rfl, hl.fresh _ le_rfl⟩

theorem Sound.held (h : Sound sh ps w) (hstate : (w.header o).state = state) (hne : state ≠ .unbuilt)
    (hnf : state ≠ .free) : Start sh w o := by
  subst hstate
  obtain ⟨l, hl⟩ := h.laid
  obtain ⟨a, ha, hoff⟩ := hl.named o hne hnf
  exact ⟨l, hl, a, ha, hoff, hne⟩

theorem Guar.rely (hne : pid ≠ q) (h : Guar sh pid s t) : Rely sh q s t := { h with
    writing := fun o p hp => h.writing o p fun heq => hne (heq.symm.trans hp)
    chunks := fun o hc => h.chunks o fun heq => hne (heq.symm.trans hc) }

theorem Own.rely (hown : Own sh pid b s) (h : Rely sh pid s t) : Own sh pid b t := by
  obtain ⟨hstate, hcls⟩ := h.writing b.offset pid rfl hown.start hown.state b.offset le_rfl
    (Nat.lt_add_of_pos_right (Nat.two_pow_pos _))
  exact ⟨h.starts _ hown.start, hstate.trans hown.state, hcls.trans hown.cls⟩

/-- The others leave the headers inside a block this process is writing. -/
theorem Own.inside (hown : Own sh pid b s) (h : Rely sh pid s t)
    (hx : b.offset ≤ x ∧ x < b.offset + 2 ^ b.cls) :
    (t.header x).state = (s.header x).state ∧ (t.header x).cls = (s.header x).cls :=
  h.writing b.offset pid rfl hown.start hown.state x hx.1 (by rw [hown.cls]; exact hx.2)

end SubEtha.Arena
