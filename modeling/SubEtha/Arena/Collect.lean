import SubEtha.Arena.Programs

namespace SubEtha.Arena
open List SubEtha.Lib World

/-- The block's header now says it is in the state and of its class; nothing else changed. -/
structure Marks (b : BlockHandle) (state : BlockState) (w w' : World) : Prop where
  bump : w'.arena.bump = w.arena.bump
  other : ∀ o, o ≠ b.offset → w'.header o = w.header o
  self : (w'.header b.offset).state = state ∧ (w'.header b.offset).cls = b.cls
  freeBits : w'.arena.freeBits = w.arena.freeBits
  retiredBits : w'.arena.retiredBits = w.arena.retiredBits

/-- The block is in the state, and in the bitmap the state asks for. -/
structure Tidied (b : BlockHandle) (state : BlockState) (w w' : World) : Prop where
  bump : w'.arena.bump = w.arena.bump
  other : ∀ o, o ≠ b.offset → w'.header o = w.header o
  self : (w'.header b.offset).state = state ∧ (w'.header b.offset).cls = b.cls
  freeBits : ∀ c i, w'.arena.freeBits c i = true ↔
    w.arena.freeBits c i = true ∨ state = .free ∧ c = b.cls ∧ i = b.index
  retiredBits : ∀ c i, w'.arena.retiredBits c i = true ↔
    w.arena.retiredBits c i = true ∨ (∃ e, state = .retired e) ∧ c = b.cls ∧ i = b.index

variable {b : BlockHandle} {state : BlockState} {w w' : World}

theorem Marks.refl (hstate : (w.header b.offset).state = state)
    (hcls : (w.header b.offset).cls = b.cls) : Marks b state w w :=
  ⟨rfl, fun _ _ => rfl, ⟨hstate, hcls⟩, rfl, rfl⟩

theorem Marks.setState (hcls : (w.header b.offset).cls = b.cls) :
    Marks b state w (setState b.offset state w) := by
  refine ⟨rfl, fun o ho => if_neg ho, ?_, rfl, rfl⟩
  unfold World.setState
  rw [header_setHeader, if_pos rfl]
  exact ⟨rfl, hcls⟩

theorem Marks.tidied (h : Marks b state w w') (hfree : state ≠ .free)
    (hretired : ∀ e, state ≠ .retired e) : Tidied b state w w' := by
  refine ⟨h.bump, h.other, h.self, fun c i => ?_, fun c i => ?_⟩
  · rw [h.freeBits]
    simp [hfree]
  · rw [h.retiredBits]
    simp [hretired]

theorem Marks.free (h : Marks b .free w w') : Tidied b .free w (putFree b.cls b.index true w') := by
  refine ⟨h.bump, h.other, h.self, fun c i => ?_, fun c i => ?_⟩
  · unfold putFree
    dsimp only
    rw [h.freeBits]
    split_ifs with hbit <;> simp [hbit]
  · change w'.arena.retiredBits c i = true ↔ _
    rw [h.retiredBits]
    simp

theorem Marks.retired (h : Marks b (.retired e) w w') :
    Tidied b (.retired e) w (putRetired b.cls b.index true w') := by
  refine ⟨h.bump, h.other, h.self, fun c i => ?_, fun c i => ?_⟩
  · change w'.arena.freeBits c i = true ↔ _
    rw [h.freeBits]
    simp
  · unfold putRetired
    dsimp only
    rw [h.retiredBits]
    split_ifs with hbit <;> simp [hbit]

/-- The state the walk leaves a block in. -/
def settled (alive : Nat → Bool) (reached : BlockHandle → Bool) (now : Nat) (b : BlockHandle) :
    BlockState → BlockState
  | .unbuilt => .free
  | .free => .free
  | .writing p =>
    if p ≠ 0 ∧ alive p then .writing p
    else if reached b then .published else .retired (wordEpoch now)
  | .published => if reached b then .published else .retired (wordEpoch now)
  | .retired e => .retired e

variable {sh : Shape} {alive : Nat → Bool} {reached : BlockHandle → Bool} {now : Nat}
  {r : CollectReport}

theorem settle_exec (hstate : (w.header b.offset).state = state)
    (hcls : (w.header b.offset).cls = b.cls) (hbuilt : state ≠ .unbuilt) :
    Tidied b (settled alive reached now b state) w
      ((settle alive reached now b state r).exec w).1 := by
  cases state with
  | unbuilt => exact absurd rfl hbuilt
  | free => exact (Marks.refl hstate hcls).free
  | retired e => exact (Marks.refl hstate hcls).retired
  | published =>
    unfold settle settled
    cases hreached : reached b with
    | true => exact (Marks.refl hstate hcls).tidied nofun nofun
    | false => simpa [swapState, hstate, setRetired] using (Marks.setState hcls).retired
  | writing p =>
    unfold settle settled
    dsimp only
    split
    · exact (Marks.refl hstate hcls).tidied nofun nofun
    cases hreached : reached b with
    | true =>
      have hmarks : Marks b .published w (setState b.offset .published w) := .setState hcls
      simpa [swapState, hstate] using hmarks.tidied nofun nofun
    | false => simpa [swapState, hstate, setRetired] using (Marks.setState hcls).retired

theorem freeUnbuilt_exec (hstate : (w.header b.offset).state = .unbuilt) (hcls : b.cls = sh.maxClass) :
    Tidied b .free w ((freeUnbuilt sh b.offset r).exec w).1 := by
  have hindex : b.offset / 2 ^ sh.maxClass = b.index := by rw [← hcls]; rfl
  have hmarks : Marks b .free w
      (setState b.offset .free (setLen b.offset 0 (setClass b.offset sh.maxClass w))) := by
    refine ⟨rfl, fun o ho => ?_, ?_, rfl, rfl⟩
    · unfold World.setState setLen setClass
      simp [header_setHeader, if_neg ho]
    · unfold World.setState setLen setClass
      simp [header_setHeader, hcls]
  have hstill : ((setLen b.offset 0 (setClass b.offset sh.maxClass w)).header b.offset).state =
      .unbuilt := by
    unfold setLen setClass
    simp [header_setHeader, hstate]
  have hfree := hmarks.free
  rw [hcls, ← hindex] at hfree
  simpa [freeUnbuilt, storeClass, storeLen, swapState, setFree, hstill] using hfree

variable {l : List BlockHandle}

theorem Tidied.laid (h : Tidied b state w w') (hl : Laid sh w l) (hb : b ∈ l)
    (hbuilt : state ≠ .unbuilt) : Laid sh w' l := by
  have hkept : ∀ o, (w.header o).state ≠ .unbuilt → (w'.header o).state ≠ .unbuilt := by
    intro o ho
    by_cases heq : o = b.offset
    · rw [heq, h.self.1]
      exact hbuilt
    · rw [h.other o heq]
      exact ho
  have hend := hl.end_le hb
  have hpos := Nat.two_pow_pos b.cls
  refine ⟨h.bump.symm ▸ hl.tiles, hl.classes, hl.aligned, fun a ha hne => ?_, fun a ha hu => ?_,
    h.bump.symm ▸ hl.bump_dvd, h.bump.symm ▸ hl.bump_le, fun o ho => ?_, fun o hne hnf => ?_,
    fun c i hbit => ?_, fun c i hbit => ?_⟩
  · by_cases heq : a.offset = b.offset
    · rw [heq, h.self.2, hl.eq_of_offset ha hb heq]
    · rw [h.other _ heq] at hne ⊢
      exact hl.built a ha hne
  · refine hl.chunk a ha ?_
    by_contra hne
    exact hkept _ hne hu
  · rw [h.bump] at ho
    rw [h.other o (by omega)]
    exact hl.fresh o ho
  · by_cases heq : o = b.offset
    · exact ⟨b, hb, heq.symm⟩
    · rw [h.other o heq] at hne hnf
      exact hl.named o hne hnf
  · rcases (h.freeBits c i).mp hbit with hold | ⟨-, rfl, rfl⟩
    · obtain ⟨a, ha, hoff, hne⟩ := hl.freeBits c i hold
      exact ⟨a, ha, hoff, hkept _ hne⟩
    · exact ⟨b, hb, (hl.index_eq hb).symm, by rw [h.self.1]; exact hbuilt⟩
  · rcases (h.retiredBits c i).mp hbit with hold | ⟨-, rfl, rfl⟩
    · obtain ⟨a, ha, hoff, hne⟩ := hl.retiredBits c i hold
      exact ⟨a, ha, hoff, hkept _ hne⟩
    · exact ⟨b, hb, (hl.index_eq hb).symm, by rw [h.self.1]; exact hbuilt⟩

structure Walked (alive : Nat → Bool) (reached : BlockHandle → Bool) (now : Nat)
    (bs : List BlockHandle) (w w' : World) : Prop where
  bump : w'.arena.bump = w.arena.bump
  other : ∀ o, (∀ b ∈ bs, b.offset ≠ o) → w'.header o = w.header o
  state : ∀ b ∈ bs,
    (w'.header b.offset).state = settled alive reached now b (w.header b.offset).state
  free : ∀ b ∈ bs, settled alive reached now b (w.header b.offset).state = .free →
    w'.arena.freeBits b.cls b.index = true
  retired : ∀ b ∈ bs, ∀ e, settled alive reached now b (w.header b.offset).state = .retired e →
    w'.arena.retiredBits b.cls b.index = true
  freeBits : ∀ c i, w.arena.freeBits c i = true → w'.arena.freeBits c i = true
  retiredBits : ∀ c i, w.arena.retiredBits c i = true → w'.arena.retiredBits c i = true

theorem Walked.nil : Walked alive reached now [] w w :=
  ⟨rfl, fun _ _ => rfl, nofun, nofun, nofun, fun _ _ h => h, fun _ _ h => h⟩

theorem Walked.cons (hb : Tidied b (settled alive reached now b (w.header b.offset).state) w v)
    (hbs : Walked alive reached now bs v w') (hapart : ∀ a ∈ bs, a.offset ≠ b.offset) :
    Walked alive reached now (b :: bs) w w' := by
  have hself : w'.header b.offset = v.header b.offset := hbs.other _ hapart
  have hrest : ∀ a ∈ bs, v.header a.offset = w.header a.offset :=
    fun a ha => hb.other _ (hapart a ha)
  refine ⟨hbs.bump.trans hb.bump, fun o ho => ?_, fun a ha => ?_, fun a ha hs => ?_,
    fun a ha e hs => ?_, fun c i h => hbs.freeBits c i ((hb.freeBits c i).mpr (.inl h)),
    fun c i h => hbs.retiredBits c i ((hb.retiredBits c i).mpr (.inl h))⟩
  · rw [hbs.other o fun a ha => ho a (mem_cons_of_mem _ ha), hb.other o (ho b mem_cons_self).symm]
  · rcases mem_cons.mp ha with rfl | ha
    · rw [hself, hb.self.1]
    · rw [hbs.state a ha, hrest a ha]
  · rcases mem_cons.mp ha with rfl | ha
    · exact hbs.freeBits _ _ ((hb.freeBits _ _).mpr (.inr ⟨hs, rfl, rfl⟩))
    · exact hbs.free a ha (hrest a ha ▸ hs)
  · rcases mem_cons.mp ha with rfl | ha
    · exact hbs.retiredBits _ _ ((hb.retiredBits _ _).mpr (.inr ⟨⟨e, hs⟩, rfl, rfl⟩))
    · exact hbs.retired a ha e (hrest a ha ▸ hs)

/-- The walk frees, keeps what a live process writes, publishes what is reached and retires the
rest. -/
theorem settled_spec (s : BlockState) :
    settled alive reached now b s = .free ∧ (s = .unbuilt ∨ s = .free) ∨
    (∃ p, settled alive reached now b s = .writing p ∧ s = .writing p ∧ alive p = true) ∨
    settled alive reached now b s = .published ∧ reached b = true ∨
    ∃ e, settled alive reached now b s = .retired e ∧ (s = .retired e ∨ reached b = false) := by
  fun_cases settled <;> simp_all

theorem settled_built (s : BlockState) : settled alive reached now b s ≠ .unbuilt := by
  rcases settled_spec s with ⟨h, -⟩ | ⟨p, h, -⟩ | ⟨h, -⟩ | ⟨e, h, -⟩ <;> rw [h] <;> nofun

/-- The walk over the blocks `bs` comes to its end, with the blocks `l` laid out. -/
def Ends (sh : Shape) (alive : Nat → Bool) (reached : BlockHandle → Bool) (now : Nat)
    (l bs : List BlockHandle) (w : World) (res : World × Except ArenaError CollectReport) : Prop :=
  ∃ r, res.2 = .ok r ∧ Laid sh res.1 l ∧ Walked alive reached now bs w res.1

theorem walkFrom_exec (hl : Laid sh w (front ++ back))
    (htiles : Tiles offset w.arena.bump (back.map BlockHandle.span)) (hfuel : back.length ≤ fuel) :
    Ends sh alive reached now (front ++ back) back w
      ((walkFrom sh alive reached now w.arena.bump fuel offset r).exec w) := by
  induction back generalizing front w fuel offset r with
  | nil =>
    obtain rfl : offset = w.arena.bump := htiles
    have hdone : walkFrom sh alive reached now w.arena.bump fuel w.arena.bump r = pure (.ok r) := by
      cases fuel with
      | zero => rfl
      | succ fuel => exact if_pos le_rfl
    rw [hdone]
    exact ⟨r, rfl, hl, .nil⟩
  | cons b back ih =>
    obtain ⟨rfl, hpos, hrest⟩ : b.offset = offset ∧ 0 < 2 ^ b.cls ∧
      Tiles (offset + 2 ^ b.cls) w.arena.bump (back.map BlockHandle.span) := htiles
    have hb : b ∈ front ++ b :: back := mem_append_right _ mem_cons_self
    have hapart : ∀ a ∈ back, a.offset ≠ b.offset := fun a ha => by
      have hle : b.offset + 2 ^ b.cls ≤ a.offset := (hrest.bounds (mem_map_of_mem ha)).1
      omega
    -- one block put in its place, and the walk goes on behind it
    have hstep : ∀ v fuel r, back.length ≤ fuel →
        Tidied b (settled alive reached now b (w.header b.offset).state) w v →
        Ends sh alive reached now (front ++ b :: back) (b :: back) w
          ((walkFrom sh alive reached now w.arena.bump fuel (b.offset + 2 ^ b.cls) r).exec v) := by
      intro v fuel r hfuel hv
      have hlaid : Laid sh v ((front ++ [b]) ++ back) := by
        rw [append_assoc]
        exact hv.laid hl hb (settled_built _)
      obtain ⟨r', hr, hlaid', hwalked⟩ := ih (r := r) hlaid (hv.bump.symm ▸ hrest) hfuel
      rw [hv.bump] at hr hlaid' hwalked
      rw [append_assoc] at hlaid'
      exact ⟨r', hr, hlaid', hwalked.cons hv hapart⟩
    cases fuel with
    | zero => cases hfuel
    | succ fuel =>
      have hfuel : back.length ≤ fuel := Nat.le_of_succ_le_succ hfuel
      have hcarved : ¬w.arena.bump ≤ b.offset := by
        have := hl.end_le hb
        omega
      by_cases hu : (w.header b.offset).state = .unbuilt
      · have hcls := hl.chunk b hb hu
        have hexec : (walkFrom sh alive reached now w.arena.bump (fuel + 1) b.offset r).exec w =
            (walkFrom sh alive reached now w.arena.bump fuel (b.offset + 2 ^ b.cls)
              ((freeUnbuilt sh b.offset r).exec w).2).exec ((freeUnbuilt sh b.offset r).exec w).1 := by
          conv_lhs => unfold walkFrom
          rw [if_neg hcarved, hcls]
          simp [loadState, hu]
        rw [hexec]
        refine hstep _ fuel _ hfuel ?_
        rw [hu]
        exact freeUnbuilt_exec hu hcls
      · have hcls := hl.built b hb hu
        obtain ⟨hmin, hmax⟩ := hl.classes b hb
        have hrange : ¬(b.cls < sh.minClass ∨ sh.maxClass < b.cls) := by omega
        have hexec : (walkFrom sh alive reached now w.arena.bump (fuel + 1) b.offset r).exec w =
            (walkFrom sh alive reached now w.arena.bump fuel (b.offset + 2 ^ b.cls)
              ((settle alive reached now b (w.header b.offset).state r).exec w).2).exec
              ((settle alive reached now b (w.header b.offset).state r).exec w).1 := by
          conv_lhs => unfold walkFrom
          rw [if_neg hcarved]
          simp [loadState, loadClass, hu, hcls, hrange]
        rw [hexec]
        exact hstep _ fuel _ hfuel (settle_exec rfl hcls hu)

/-- Blocks of the smallest class at least, so no more than the bitmap of that class has bits. -/
theorem Laid.length_le (hl : Laid sh w l) : l.length ≤ sh.bits sh.minClass := by
  have hsizes : ∀ (l : List BlockHandle) (lo hi : Nat), Tiles lo hi (l.map BlockHandle.span) →
      (∀ b ∈ l, sh.minClass ≤ b.cls) → lo + l.length * 2 ^ sh.minClass ≤ hi := by
    intro l
    induction l with
    | nil => exact fun lo hi h _ => by simpa using h.le
    | cons b l ih =>
      intro lo hi h hmin
      obtain ⟨-, -, hrest⟩ := h
      have hle := ih _ hi hrest fun a ha => hmin a (mem_cons_of_mem _ ha)
      have hpow : 2 ^ sh.minClass ≤ 2 ^ b.cls :=
        Nat.pow_le_pow_right (by decide) (hmin b mem_cons_self)
      rw [length_cons, Nat.succ_mul]
      have hspan : b.span.2 = 2 ^ b.cls := rfl
      omega
  have htotal := hsizes l 0 _ hl.tiles fun b hb => (hl.classes b hb).1
  rw [Shape.bits, Nat.le_div_iff_mul_le (Nat.two_pow_pos _)]
  exact le_trans (by omega) hl.bump_le

theorem collect_exec (alive : Nat → Bool) (reached : BlockHandle → Bool) (hl : Laid sh w l) :
    Ends sh alive reached w.epochs.advance.1 l l w ((collect sh alive reached).exec w) := by
  have hquiet : Laid sh { w with epochs := w.epochs.advance.2 } l :=
    Laid.quiet (w := w) rfl (fun _ => rfl) (fun _ => rfl) (fun _ _ => .inl) (fun _ _ => .inl) hl
  have hwalk : Ends sh alive reached w.epochs.advance.1 ([] ++ l) l
      { w with epochs := w.epochs.advance.2 } ((collect sh alive reached).exec w) :=
    walkFrom_exec hquiet hquiet.tiles hquiet.length_le
  obtain ⟨r, hr, hlaid, hwalked⟩ := hwalk
  exact ⟨r, hr, hlaid, hwalked.bump, hwalked.other, hwalked.state, hwalked.free, hwalked.retired,
    hwalked.freeBits, hwalked.retiredBits⟩

/-- What an arena has lived through: it was created, and any number of times processes used it
side by side and stopped wherever they were, or one process collected. -/
inductive Lived (sh : Shape) (crew : Nat → Prop) : World → Prop
  | created (pins : Nat) : Lived sh crew (World.create pins)
  | crashed {w : World} (h : Lived sh crew w) {procs : List (Nat × Client)}
    (hpids : (procs.map Prod.fst).Nodup) (hcrew : ∀ p ∈ procs, crew p.1) (schedule : List Nat) :
    Lived sh crew ((pool sh w procs).run schedule).state
  | collected {w : World} (h : Lived sh crew w) (alive : Nat → Bool) (reached : BlockHandle → Bool) :
    Lived sh crew ((collect sh alive reached).exec w).1

variable {crew : Nat → Prop}

theorem create_sound (pins : Nat) : Sound sh crew (World.create pins) :=
  ⟨⟨[], create_laid sh pins⟩, nofun⟩

theorem settled_writing (h : settled alive reached now b s = .writing p) :
    s = .writing p ∧ alive p = true := by
  rcases settled_spec s with ⟨hs, -⟩ | ⟨q, hs, hold⟩ | ⟨hs, -⟩ | ⟨e, hs, -⟩ <;> rw [hs] at h <;> cases h
  exact hold

theorem Lived.sound (h : Lived sh crew w) : Sound sh crew w := by
  induction h with
  | created pins => exact create_sound pins
  | crashed h hpids hcrew schedule ih => exact pool_sound ih hpids hcrew schedule
  | @collected w h alive reached ih =>
    obtain ⟨l, hl⟩ := ih.laid
    obtain ⟨r, -, hlaid, hwalked⟩ := collect_exec alive reached hl
    refine ⟨⟨l, hlaid⟩, fun o p hp => ?_⟩
    by_cases hmem : ∃ b ∈ l, b.offset = o
    · obtain ⟨b, hb, rfl⟩ := hmem
      exact ih.writers _ p (settled_writing ((hwalked.state b hb).symm.trans hp)).1
    · rw [hwalked.other o fun b hb heq => hmem ⟨b, hb, heq⟩] at hp
      exact ih.writers o p hp

/-- The block is free or retired and in the bitmap that says so, or published and reached. -/
def Placed (reached : BlockHandle → Bool) (b : BlockHandle) (w : World) : Prop :=
  (w.header b.offset).state = .free ∧ w.arena.freeBits b.cls b.index = true ∨
  (∃ e, (w.header b.offset).state = .retired e) ∧ w.arena.retiredBits b.cls b.index = true ∨
  (w.header b.offset).state = .published ∧ reached b = true

theorem settled_reached (hreached : reached b = true) (hs : s ≠ .unbuilt) :
    settled alive reached now b s = s ∨ settled alive reached now b s = .published := by
  rcases settled_spec s with ⟨h, hold⟩ | ⟨p, h, hold, -⟩ | ⟨h, -⟩ | ⟨e, h, hold⟩
  · exact .inl (h.trans (hold.resolve_left hs).symm)
  · exact .inl (h.trans hold.symm)
  · exact .inr h
  · exact .inl (h.trans (hold.resolve_right (by simp [hreached])).symm)

theorem Walked.placed (h : Walked alive reached now l w w')
    (hdead : ∀ o p, (w.header o).state = .writing p → alive p = false) (hb : b ∈ l) :
    Placed reached b w' := by
  have hstate := h.state b hb
  rcases settled_spec (w.header b.offset).state with
    ⟨hs, -⟩ | ⟨p, -, hwriting, hlive⟩ | ⟨hs, hreached⟩ | ⟨e, hs, -⟩
  · exact .inl ⟨hstate.trans hs, h.free b hb hs⟩
  · rw [hdead _ p hwriting] at hlive
    cases hlive
  · exact .inr (.inr ⟨hstate.trans hs, hreached⟩)
  · exact .inr (.inl ⟨⟨e, hstate.trans hs⟩, h.retired b hb e hs⟩)

/-- After whatever the arena lived through, a collector that finds every writer dead leaves each
byte below the bump in one block, each block in its place, and no built block it reaches freed or
retired. -/
theorem collect_recovers (h : Lived sh crew w) (hdead : ∀ p, crew p → alive p = false)
    (reached : BlockHandle → Bool) :
    ∃ (r : CollectReport) (l : List BlockHandle), ((collect sh alive reached).exec w).2 = .ok r ∧
      ((collect sh alive reached).exec w).1.arena.bump = w.arena.bump ∧
      (∀ x < w.arena.bump, ∃ b ∈ l, (b.offset ≤ x ∧ x < b.offset + 2 ^ b.cls) ∧
        ∀ a ∈ l, a.offset ≤ x ∧ x < a.offset + 2 ^ a.cls → a = b) ∧
      (∀ b ∈ l, b.offset + 2 ^ b.cls ≤ w.arena.bump ∧
        (((collect sh alive reached).exec w).1.header b.offset).cls = b.cls ∧
        Placed reached b ((collect sh alive reached).exec w).1) ∧
      ∀ b ∈ l, reached b = true → (w.header b.offset).state ≠ .unbuilt →
        (((collect sh alive reached).exec w).1.header b.offset).state = (w.header b.offset).state ∨
        (((collect sh alive reached).exec w).1.header b.offset).state = .published := by
  have hsound := h.sound
  obtain ⟨l, hl⟩ := hsound.laid
  obtain ⟨r, hr, hlaid, hwalked⟩ := collect_exec alive reached hl
  refine ⟨r, l, hr, hwalked.bump, fun x hx => ?_, fun b hb => ⟨hl.end_le hb, ?_, ?_⟩,
    fun b hb hreached hbuilt => ?_⟩
  · obtain ⟨t, ht, hin, honly⟩ := hl.tiles.covers (Nat.zero_le x) hx
    obtain ⟨b, hb, rfl⟩ := mem_map.mp ht
    refine ⟨b, hb, hin, fun a ha hxa => hl.eq_of_within ha hb hxa hin⟩
  · refine hlaid.built b hb ?_
    rw [hwalked.state b hb]
    exact settled_built _
  · exact hwalked.placed (fun o p hp => hdead p (hsound.writers o p hp)) hb
  · rw [hwalked.state b hb]
    exact settled_reached hreached hbuilt

/-- Two blocks of 64 bytes to a chunk, and room for one chunk. -/
def oneChunk : Shape :=
  ⟨128, 6, 7, by decide, by decide, by decide, by decide, by decide⟩

/-- Process 7 starts to allocate ten bytes and stops after `n` steps. -/
def allocating (n : Nat) : World :=
  ((pool oneChunk (World.create 1) [(7, .allocate 10 fun _ => .stop)]).run (List.replicate n 0)).state

theorem allocating_lived (n : Nat) : Lived oneChunk (· = 7) (allocating n) :=
  .crashed (.created 1) (by decide) (by simp) _

/-- The process stopped when it had written the upper half's header and not yet halved the chunk;
the collector finds one block of 128 bytes. -/
theorem collect_recovers_halving :
    ((allocating 13).header 64).state = .free ∧ ((allocating 13).header 0).cls = 7 ∧
      ∃ l : List BlockHandle, (∀ b ∈ l, Placed (fun _ => false) b
        ((collect oneChunk (fun _ => false) fun _ => false).exec (allocating 13)).1) ∧
        ∃ b ∈ l, b.offset = 0 := by
  refine ⟨by decide, by decide, ?_⟩
  obtain ⟨r, l, -, -, hcover, hplaced, -⟩ := collect_recovers (allocating_lived 13)
    (fun _ _ => rfl : ∀ p, p = 7 → (fun _ => false) p = false) fun _ => false
  refine ⟨l, fun b hb => (hplaced b hb).2.2, ?_⟩
  obtain ⟨b, hb, hin, -⟩ := hcover 0 (by decide)
  exact ⟨b, hb, Nat.le_zero.mp hin.1⟩

/-- The process stopped when it had moved the bump: the collector frees the chunk, reached or
not. -/
theorem collect_frees_unbuilt :
    (allocating 7).arena.bump = 128 ∧ ((allocating 7).header 0).state = .unbuilt ∧
      (((collect oneChunk (fun _ => false) fun _ => true).exec (allocating 7)).1.header 0).state =
        .free := by
  decide

end SubEtha.Arena
