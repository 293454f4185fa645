import Mathlib.Data.List.GetD
import SubEtha.Arena.Steps

namespace SubEtha.Arena
open SubEtha.Lib World Prog.Spec List

/-- A triple for process `pid` under whatever the other processes do. -/
abbrev Triple {α : Type} (sh : Shape) (ps : Nat → Prop) (pid : Nat) (pre : World → Prop) (p : ArenaProg α)
    (post : α → World → Prop) : Prop :=
  p.Spec (Sound sh ps) (Rely sh pid) (Guar sh pid) pre post

/-- An assertion the other processes cannot break. -/
abbrev Stays (sh : Shape) (ps : Nat → Prop) (pid : Nat) (pre : World → Prop) : Prop :=
  Prog.Stable (Sound sh ps) (Rely sh pid) pre

variable {sh : Shape} {ps : Nat → Prop} {pid : Nat} {α : Type}

theorem stays_true : Stays sh ps pid fun _ => True := fun _ _ _ _ _ _ => trivial

theorem stays_start (o : Nat) : Stays sh ps pid fun w => Start sh w o :=
  fun _ _ h _ _ hs => h.starts o hs

theorem stays_own (b : BlockHandle) : Stays sh ps pid (Own sh pid b) :=
  fun _ _ h _ _ hown => hown.rely h

theorem stays_and (hp : Stays sh ps pid p) (hq : Stays sh ps pid q) :
    Stays sh ps pid fun w => p w ∧ q w :=
  fun s t h hs ht hpre => ⟨hp s t h hs ht hpre.1, hq s t h hs ht hpre.2⟩

variable {b : BlockHandle}

theorem Own.fair (hown : Own sh pid b w) (hf : Fair sh ps pid w w')
    (hstate : (w'.header b.offset).state = (w.header b.offset).state)
    (hcls : (w'.header b.offset).cls = (w.header b.offset).cls) : Own sh pid b w' :=
  ⟨hf.guar.starts _ hown.start, hstate.trans hown.state, hcls.trans hown.cls⟩

namespace Triple

theorem load {read : World → α} (hpre : Stays sh ps pid pre)
    (h : ∀ w, Sound sh ps w → pre w → post (read w) w) : Triple sh ps pid pre (.load read) post :=
  Prog.Spec.load (Respects.refl sh _) hpre h

theorem store (hpre : Stays sh ps pid pre)
    (h : ∀ w, Sound sh ps w → pre w → Fair sh ps pid w (write w) ∧ post () (write w)) :
    Triple sh ps pid pre (.store write) post :=
  Prog.Spec.store hpre fun w hw hp =>
    have hw' := h w hw hp
    ⟨hw'.1.sound, hw'.1.guar, hw'.2⟩

theorem swap (hpre : Stays sh ps pid pre) (hno : ∀ w, Sound sh ps w → pre w → post false w)
    (hyes : ∀ w, Sound sh ps w → pre w → (w.header offset).state = old →
      Fair sh ps pid w (setState offset new w) ∧ post true (setState offset new w)) :
    Triple sh ps pid pre (swapState offset old new) post :=
  Prog.Spec.swap (Respects.refl sh _) hpre (fun w hw hp _ => hno w hw hp) fun w hw hp htest =>
    have hw' := hyes w hw hp (of_decide_eq_true htest)
    ⟨hw'.1.sound, hw'.1.guar, hw'.2⟩

/-- Blocks stay blocks, whoever steps. -/
theorem frame (h : Triple sh ps pid pre p post) (known : Nat → Prop) :
    Triple sh ps pid (fun w => pre w ∧ ∀ o, known o → Start sh w o) p
      fun a w => post a w ∧ ∀ o, known o → Start sh w o :=
  Prog.Spec.frame (fun _ _ hst hk o ho => hst.starts o (hk o ho))
    (fun _ _ hst hk o ho => hst.starts o (hk o ho)) h

end Triple

theorem clearFree_triple (c i : Nat) :
    Triple sh ps pid (fun _ => True) (clearFree c i) fun _ _ => True :=
  Triple.store stays_true fun _ hw _ => ⟨fair_putFree hw nofun, trivial⟩

theorem clearRetired_triple (c i : Nat) :
    Triple sh ps pid (fun _ => True) (clearRetired c i) fun _ _ => True :=
  Triple.store stays_true fun _ hw _ => ⟨fair_putRetired hw nofun, trivial⟩

theorem setFree_triple (c i : Nat) :
    Triple sh ps pid (fun w => Start sh w (i * 2 ^ c)) (setFree c i) fun _ _ => True :=
  Triple.store (stays_start _) fun _ hw hs => ⟨fair_putFree hw fun _ => hs, trivial⟩

theorem setRetired_triple (c i : Nat) :
    Triple sh ps pid (fun w => Start sh w (i * 2 ^ c)) (setRetired c i) fun _ _ => True :=
  Triple.store (stays_start _) fun _ hw hs => ⟨fair_putRetired hw fun _ => hs, trivial⟩

theorem load_triple (read : World → α) :
    Triple sh ps pid (fun _ => True) (.load read) fun _ _ => True :=
  Triple.load stays_true fun _ _ _ => trivial

theorem storeLen_own (n : Nat) :
    Triple sh ps pid (Own sh pid b) (storeLen b.offset n) fun _ => Own sh pid b := by
  refine Triple.store (stays_own b) fun w hw hown => ?_
  have hfair : Fair sh ps pid w (setLen b.offset n w) := fair_setLen hw _ n
  exact ⟨hfair, hown.fair hfair (header_setLen ..).1 (header_setLen ..).2⟩

theorem storeFree_triple :
    Triple sh ps pid (Own sh pid b) (storeState b.offset .free) fun _ w => Start sh w b.offset := by
  refine Triple.store (stays_own b) fun w hw hown => ?_
  have hfair : Fair sh ps pid w (setState b.offset .free w) :=
    fair_setState hw hown.start (fun q hq => (BlockState.writing.inj (hown.state.symm.trans hq)).symm)
      nofun fun p h => (by cases h)
  exact ⟨hfair, hfair.guar.starts _ hown.start⟩

theorem giveBack_triple : Triple sh ps pid (Own sh pid b) (giveBack b) fun _ _ => True := by
  intro s hs hown
  obtain ⟨l, hl⟩ := hs.laid
  have hindex := hl.index_eq (hown.mem hl)
  refine bind (storeLen_own 0) (fun _ => ?_) s hs hown
  refine bind storeFree_triple fun _ => ?_
  exact hindex ▸ setFree_triple b.cls b.index

/-- The block a search came back with is this process's to write, and of the class or a larger
one. -/
def Taken (sh : Shape) (pid cls : Nat) (r : Option BlockHandle) (w : World) : Prop :=
  ∀ b, r = some b → Own sh pid b w ∧ cls ≤ b.cls

theorem taken_none (w : World) : Taken sh pid cls none w := fun b h => by cases h 
theorem takeFreed_triple (hcrew : ps pid) (o : Nat) :
    Triple sh ps pid (fun w => Start sh w o) (swapState o .free (.writing pid)) fun taken w =>
      taken = true → ∃ c, Own sh pid ⟨o, c⟩ w := by
  refine Triple.swap (stays_start o) (by simp) fun w hw hs hfree => ?_
  have hfair : Fair sh ps pid w (setState o (.writing pid) w) := by
    refine fair_setState hw hs (fun q hq => ?_) nofun fun p h => ?_
    · rw [hfree] at hq
      cases hq
    · exact BlockState.writing.inj h ▸ hcrew
  refine ⟨hfair, fun _ => ⟨((setState o (.writing pid) w).header o).cls,
    hfair.guar.starts o hs, ?_, rfl⟩⟩
  unfold setState
  rw [header_setHeader, if_pos rfl]

theorem loadClass_own (o : Nat) :
    Triple sh ps pid (fun w => ∃ c, Own sh pid ⟨o, c⟩ w) (loadClass o) fun c => Own sh pid ⟨o, c⟩ := by
  refine Triple.load (fun s t h _ _ hs => ?_) fun w _ hs => ?_
  · obtain ⟨c, hown⟩ := hs
    exact ⟨c, hown.rely h⟩
  · obtain ⟨c, hown⟩ := hs
    exact { hown with cls := rfl }

theorem setHint_own (b : BlockHandle) (c n : Nat) :
    Triple sh ps pid (Own sh pid b) (.store (setHint c n)) fun _ => Own sh pid b := by
  refine Triple.store (stays_own b) fun w hw hown => ?_
  have hfair : Fair sh ps pid w (setHint c n w) := fair_setHint hw c n
  exact ⟨hfair, hown.fair hfair rfl rfl⟩

theorem takeBits_triple (hcrew : ps pid) (cls word : Nat) (bits : List Nat) :
    Triple sh ps pid (fun w => ∀ o, (∃ bit ∈ bits, (word * 64 + bit) * 2 ^ cls = o) → Start sh w o)
      (takeBits sh pid cls word bits) (Taken sh pid cls) := by
  induction bits with
  | nil => exact done fun w _ _ => taken_none w
  | cons bit rest ih =>
    unfold takeBits
    split
    · exact done fun w _ _ => taken_none w
    have htail : ∀ w, (∀ o, (∃ b ∈ bit :: rest, (word * 64 + b) * 2 ^ cls = o) → Start sh w o) →
        ∀ o, (∃ b ∈ rest, (word * 64 + b) * 2 ^ cls = o) → Start sh w o :=
      fun w hk o ⟨b, hb, heq⟩ => hk o ⟨b, mem_cons_of_mem _ hb, heq⟩
    refine bind ((Triple.frame (clearFree_triple _ _) _).weaken
      (fun _ _ hk => ⟨trivial, hk⟩) fun _ _ _ h => h.2) fun _ => ?_
    refine bind ((Triple.frame (load_triple _) _).weaken
      (fun _ _ hk => ⟨trivial, hk⟩) fun _ _ _ h => h.2) fun found => ?_
    split
    · exact ih.require fun w _ hk => htail w hk
    refine bind ((Triple.frame (takeFreed_triple hcrew _) _).require
      fun w _ hk => ⟨hk _ ⟨bit, mem_cons_self, rfl⟩, htail w hk⟩) fun taken => ?_
    split
    · exact ih.require fun w _ hk => hk.2
    rename_i htaken
    intro s hs hk
    have hown := hk.1 (by simpa using htaken)
    refine bind (Triple.frame (loadClass_own _) _) (fun got => ?_) s hs ⟨hown, hk.2⟩
    split
    · exact bind (Triple.frame giveBack_triple _) fun _ =>
        ih.require fun w _ hk => hk.2
    rename_i hcls
    refine bind ((setHint_own _ _ _).require fun w _ hk => hk.1)
      fun _ => done fun w _ hown b hb => ?_
    cases hb
    exact ⟨hown, le_of_not_gt hcls⟩

theorem mem_wordBits (h : bit ∈ wordBits bits word) :
    bits (word * 64 + bit) = true := (mem_filter.mp h).2

theorem takeWords_triple (hcrew : ps pid) (cls : Nat) (words : List Nat) :
    Triple sh ps pid (fun _ => True) (takeWords sh pid cls words) (Taken sh pid cls) := by
  induction words with
  | nil => exact done fun w _ _ => taken_none w
  | cons word rest ih =>
    have hload : Triple sh ps pid (fun _ => True) (.load fun w => wordBits (w.arena.freeBits cls) word)
        fun bits w => ∀ o, (∃ bit ∈ bits, (word * 64 + bit) * 2 ^ cls = o) → Start sh w o := by
      refine Triple.load stays_true fun w hw _ o ⟨bit, hbit, heq⟩ => ?_
      obtain ⟨l, hl⟩ := hw.laid
      obtain ⟨b, hb, hoff, hne⟩ := hl.freeBits cls _ (mem_wordBits hbit)
      exact ⟨l, hl, b, hb, hoff.trans heq, heq ▸ hoff ▸ hne⟩
    refine bind hload fun bits => ?_
    refine bind (takeBits_triple hcrew cls word bits) fun r => ?_
    cases r with
    | some b => exact done fun w _ h => h
    | none => exact ih.require fun _ _ _ => trivial

theorem takeFree_triple (hcrew : ps pid) (cls : Nat) :
    Triple sh ps pid (fun _ => True) (takeFree sh pid cls) (Taken sh pid cls) := by
  unfold takeFree
  split
  · exact done fun w _ _ => taken_none w
  · exact bind (load_triple _) fun hint => takeWords_triple hcrew cls _

theorem swapState_triple (o : Nat) (hbuilt : old ≠ .unbuilt) (hheld : old ≠ .free)
    (hmine : ∀ q, old = .writing q → q = pid) (hnew : new ≠ .unbuilt)
    (hcrew : ∀ p, new = .writing p → ps p) : Triple sh ps pid (fun _ => True)
      (swapState o old new) fun done w => done = true → Start sh w o := by
  refine Triple.swap stays_true (by simp) fun w hw _ hstate => ?_
  have hs := hw.held hstate hbuilt hheld
  have hfair := fair_setState hw hs (fun q hq => hmine q (hstate.symm.trans hq)) hnew hcrew
  exact ⟨hfair, fun _ => hfair.guar.starts o hs⟩

theorem reclaimBits_triple (cls horizon word : Nat) (bits : List Nat) :
    Triple sh ps pid (fun _ => True) (reclaimBits sh cls horizon word bits) fun _ _ => True := by
  induction bits with
  | nil => exact skip
  | cons bit rest ih =>
    unfold reclaimBits
    split
    · exact skip
    refine bind (load_triple _) fun state => ?_
    have hdrop : Triple sh ps pid (fun _ => True)
        (clearRetired cls (word * 64 + bit) >>= fun _ => reclaimBits sh cls horizon word rest)
        fun _ _ => True := bind (clearRetired_triple _ _) fun _ => ih
    cases state with
    | unbuilt | free | writing | published => exact hdrop
    | retired epoch =>
      refine bind (load_triple _) fun found => ?_
      split
      · exact hdrop
      split
      · exact ih
      refine bind (swapState_triple _ nofun nofun nofun nofun nofun) fun freed => ?_
      split
      · exact ih.require fun _ _ _ => trivial
      rename_i hfreed
      have hlen : Triple sh ps pid (fun w => Start sh w ((word * 64 + bit) * 2 ^ cls))
          (storeLen ((word * 64 + bit) * 2 ^ cls) 0)
          fun _ w => Start sh w ((word * 64 + bit) * 2 ^ cls) :=
        Triple.store (stays_start _) fun w hw hs => by
          have hfair : Fair sh ps pid w (setLen ((word * 64 + bit) * 2 ^ cls) 0 w) :=
            fair_setLen hw _ 0
          exact ⟨hfair, hfair.guar.starts _ hs⟩
      refine bind (hlen.require fun w _ h => h (by simpa using hfreed)) fun _ => ?_
      refine bind (setFree_triple _ _) fun _ => ?_
      refine bind (clearRetired_triple _ _) fun _ => ?_
      exact bind ih fun moved => skip

theorem reclaimWords_triple (cls horizon : Nat) (words : List Nat) :
    Triple sh ps pid (fun _ => True) (reclaimWords sh cls horizon words) fun _ _ => True := by
  induction words with
  | nil => exact skip
  | cons word rest ih =>
    refine bind (load_triple _) fun bits => ?_
    refine bind (reclaimBits_triple cls horizon word bits) fun moved => ?_
    exact bind ih fun more => skip

theorem reclaim_triple (cls : Nat) :
    Triple sh ps pid (fun _ => True) (reclaim sh cls) fun _ _ => True :=
  bind (load_triple _) fun horizon => reclaimWords_triple cls horizon _

theorem stays_spare (p : BlockState → Nat → Prop) : Stays sh ps pid fun w =>
    Own sh pid ⟨o, c + 1⟩ w ∧ p (w.header (o + 2 ^ c)).state (w.header (o + 2 ^ c)).cls := by
  rintro s t h - - ⟨hown, hp⟩
  have hlt : o + 2 ^ c < o + 2 ^ (c + 1) :=
    Nat.add_lt_add_left (Nat.pow_lt_pow_succ Nat.one_lt_two) o
  obtain ⟨hstate, hcls⟩ := hown.inside h ⟨Nat.le_add_right o (2 ^ c), hlt⟩
  rw [hstate, hcls]
  exact ⟨hown.rely h, hp⟩

theorem storeSpare_triple {p q : BlockState → Nat → Prop}
    (hf : ∀ h, (f h).state = .free ∨ (f h).state = h.state)
    (hpq : ∀ h, p h.state h.cls → q (f h).state (f h).cls) : Triple sh ps pid
      (fun w => Own sh pid ⟨o, c + 1⟩ w ∧ p (w.header (o + 2 ^ c)).state (w.header (o + 2 ^ c)).cls)
      (.store fun w => w.setHeader (o + 2 ^ c) f) fun _ w => Own sh pid ⟨o, c + 1⟩ w ∧
        q (w.header (o + 2 ^ c)).state (w.header (o + 2 ^ c)).cls := by
  have hpos := Nat.two_pow_pos c
  have hin : o < o + 2 ^ c ∧ o + 2 ^ c < o + 2 ^ (c + 1) := by
    rw [pow_succ]
    omega
  refine Triple.store (stays_spare p) fun w hw ⟨hown, hp⟩ => ?_
  have hfair : Fair sh ps pid w (w.setHeader (o + 2 ^ c) f) := fair_spare hw hown hin (hf _)
  have hsame : (w.setHeader (o + 2 ^ c) f).header o = w.header o := if_neg hin.1.ne
  refine ⟨hfair, hown.fair hfair ?_ ?_, ?_⟩
  · rw [hsame]
  · rw [hsame]
  · rw [header_setHeader, if_pos rfl]
    exact hpq _ hp

/-- The block shrinks to its lower half, and the upper half starts a block of its own. -/
theorem halve_triple (hc : sh.minClass ≤ c) : Triple sh ps pid
      (fun w => Own sh pid ⟨o, c + 1⟩ w ∧ (w.header (o + 2 ^ c)).state = .free ∧
        (w.header (o + 2 ^ c)).cls = c)
      (storeClass o c) fun _ w => Own sh pid ⟨o, c⟩ w ∧ Start sh w (o + 2 ^ c) := by
  refine Triple.store (stays_spare fun state k => state = .free ∧ k = c) fun w hw hs => ?_
  obtain ⟨hown, hstate, hcls⟩ := hs
  obtain ⟨hfair, hstart, hlow⟩ := fair_halve hw hown hc hstate hcls
  exact ⟨hfair, hlow, hstart⟩

theorem setFree_own (i : Nat) (k : Nat) :
    Triple sh ps pid (fun w => Own sh pid b w ∧ Start sh w (i * 2 ^ k)) (setFree k i)
      fun _ => Own sh pid b := by
  refine Triple.store (stays_and (stays_own b) (stays_start _)) fun w hw hs => ?_
  have hfair : Fair sh ps pid w (putFree k i true w) := fair_putFree hw fun _ => hs.2
  exact ⟨hfair, hs.1.fair hfair rfl rfl⟩

theorem splitFrom_triple (hc : sh.minClass ≤ c) (levels : Nat) :
    Triple sh ps pid (Own sh pid ⟨o, c + levels⟩) (splitFrom o c levels)
      fun _ => Own sh pid ⟨o, c⟩ := by
  induction levels with
  | zero => exact done fun _ _ h => h
  | succ levels ih =>
    intro s hs hown
    obtain ⟨l, hl⟩ := hs.laid
    have hdvd : 2 ^ (c + levels) ∣ o :=
      (Nat.pow_dvd_pow 2 (Nat.le_succ (c + levels))).trans (hl.aligned _ (hown.mem hl))
    have hindex : (o + 2 ^ (c + levels)) / 2 ^ (c + levels) * 2 ^ (c + levels) = o + 2 ^ (c + levels) :=
      Nat.div_mul_cancel (Nat.dvd_add hdvd (Nat.dvd_refl _))
    refine bind (storeSpare_triple (p := fun _ _ => True) (q := fun _ k => k = c + levels)
      (f := fun h => { h with cls := c + levels }) (fun _ => .inr rfl) fun _ _ => rfl)
      (fun _ => ?_) s hs ⟨hown, trivial⟩
    refine bind (storeSpare_triple (p := fun _ k => k = c + levels)
      (q := fun _ k => k = c + levels) (f := fun h => { h with len := 0 })
      (fun _ => .inr rfl) fun _ h => h) fun _ => ?_
    refine bind (storeSpare_triple (p := fun _ k => k = c + levels)
      (q := fun state k => state = .free ∧ k = c + levels) (f := fun h => { h with state := .free })
      (fun _ => .inl rfl) fun _ h => ⟨rfl, h⟩) fun _ => ?_
    refine bind (halve_triple (Nat.le_add_right_of_le hc)) fun _ => ?_
    refine bind ?_ fun _ => ih
    exact (setFree_own _ _).require fun w _ h => ⟨h.1, hindex.symm ▸ h.2⟩

theorem splitDown_triple (hc : sh.minClass ≤ c) (hle : c ≤ b.cls) :
    Triple sh ps pid (Own sh pid b) (splitDown b c) fun r w =>
      r = ⟨b.offset, c⟩ ∧ Own sh pid r w := by
  refine bind ((splitFrom_triple hc (b.cls - c)).require fun w _ h => ?_)
    fun _ => done fun w _ h => ⟨rfl, h⟩
  rw [Nat.add_sub_cancel' hle]
  exact h

structure Carved (sh : Shape) (pid o : Nat) (w : World) : Prop where
  chunk : Chunk sh w o
  carver : w.carver o = pid

theorem Carved.rely (hc : Carved sh pid o s) (h : Rely sh pid s t) :
    Carved sh pid o t ∧ (t.header o).cls = (s.header o).cls := by
  obtain ⟨hchunk, hcls⟩ := h.chunks o hc.carver hc.chunk
  exact ⟨⟨hchunk, (h.carver o hc.chunk.lt_bump).trans hc.carver⟩, hcls⟩

theorem nextChunk_triple : Triple sh ps pid (fun _ => True) (nextChunk sh pid) fun r w =>
    ∀ o, r = some o → Carved sh pid o w := by
  intro s hs _ t hrely ht
  dsimp only
  split
  · rename_i hroom
    obtain ⟨hfair, hchunk⟩ : Fair sh ps pid t (t.carved sh pid) ∧ _ := fair_carved ht hroom
    refine ⟨hfair.sound, hfair.guar, fun o ho => ?_⟩
    cases ho
    exact ⟨hchunk, if_pos rfl⟩
  · exact ⟨ht, Respects.refl sh _ t, fun o ho => by cases ho⟩

theorem storeChunk_triple {p q : Nat → Prop} (hf : ∀ h, (f h).state = h.state)
    (hpq : ∀ h, p h.cls → q (f h).cls) :
    Triple sh ps pid (fun w => Carved sh pid o w ∧ p (w.header o).cls)
      (.store fun w => w.setHeader o f) fun _ w => Carved sh pid o w ∧ q (w.header o).cls := by
  refine Triple.store (fun s t h _ _ hs => ?_) fun w hw hs => ?_
  · obtain ⟨hc, hcls⟩ := hs.1.rely h
    exact ⟨hc, hcls ▸ hs.2⟩
  obtain ⟨hc, hp⟩ := hs
  obtain ⟨-, -, -, -, -, hu⟩ := hc.chunk
  have hstill : (f (w.header o)).state = .unbuilt := (hf _).trans hu
  obtain ⟨hfair, l, hl, hmem⟩ : Fair sh ps pid w (w.setHeader o f) ∧ _ :=
    fair_chunk hw hc.chunk hc.carver (fun hne => absurd hstill hne)
      fun p hp => (by rw [hstill] at hp; cases hp)
  have hself : (w.setHeader o f).header o = f (w.header o) := if_pos rfl
  refine ⟨hfair, ⟨⟨l, hl, _, hmem, rfl, ?_⟩, hc.carver⟩, ?_⟩
  · rw [hself]
    exact hstill
  · rw [hself]
    exact hpq _ hp

theorem claimChunk_triple (hcrew : ps pid) :
    Triple sh ps pid (fun w => Carved sh pid o w ∧ (w.header o).cls = sh.maxClass)
      (claimChunk pid o) fun taken w =>
        taken = true → Own sh pid ⟨o, sh.maxClass⟩ w := by
  refine swap (Respects.refl sh _) (fun s t h _ _ hs => ?_) (by simp)
    fun w hw hs _ => ?_
  · obtain ⟨hc, hcls⟩ := hs.1.rely h
    exact ⟨hc, hcls.trans hs.2⟩
  obtain ⟨hc, hcls⟩ := hs
  obtain ⟨hfair, l, hl, hmem⟩ : Fair sh ps pid w (setState o (.writing pid) w) ∧ _ :=
    fair_chunk hw hc.chunk hc.carver (fun _ => hcls) fun p hp => (BlockState.writing.inj hp) ▸ hcrew
  have hself : (setState o (.writing pid) w).header o =
      { w.header o with state := .writing pid } := if_pos rfl
  refine ⟨hfair.sound, hfair.guar, fun _ => ⟨⟨l, hl, _, hmem, rfl, ?_⟩, ?_, ?_⟩⟩
  · rw [hself]
    exact by simp
  · rw [hself]
  · rw [hself]
    exact hcls

theorem carveFrom_triple (hcrew : ps pid) (chunks : Nat) :
    Triple sh ps pid (fun _ => True) (carveFrom sh pid chunks) (Taken sh pid sh.maxClass) := by
  induction chunks with
  | zero => exact done fun w _ _ => taken_none w
  | succ chunks ih =>
    refine bind nextChunk_triple fun r => ?_
    cases r with
    | none => exact done fun w _ _ => taken_none w
    | some o =>
      refine bind ((storeChunk_triple (p := fun _ => True) (q := (· = sh.maxClass))
        (f := fun h => { h with cls := sh.maxClass }) (fun _ => rfl) fun _ _ => rfl).require
        fun w _ h => ⟨h o rfl, trivial⟩) fun _ => ?_
      refine bind (storeChunk_triple (p := (· = sh.maxClass)) (q := (· = sh.maxClass))
        (f := fun h => { h with len := 0 }) (fun _ => rfl) fun _ h => h) fun _ => ?_
      refine bind (claimChunk_triple hcrew) fun taken => ?_
      cases taken with
      | false => exact ih.require fun _ _ _ => trivial
      | true =>
        refine done fun w _ h b hb => ?_
        cases hb
        exact ⟨h rfl, le_rfl⟩

theorem carve_triple (hcrew : ps pid) :
    Triple sh ps pid (fun _ => True) (carve sh pid) (Taken sh pid sh.maxClass) :=
  carveFrom_triple hcrew _

variable {cls : Nat}

theorem splitTaken_triple (hc : sh.minClass ≤ cls) (hle : cls ≤ found) :
    Triple sh ps pid (Taken sh pid found (some b)) (splitDown b cls) fun _ _ => True := by
  intro s hs h
  obtain ⟨hown, hfound⟩ := h b rfl
  exact weaken (splitDown_triple hc (le_trans hle hfound)) (fun _ _ h => h)
    (fun _ _ _ _ => trivial) s hs hown

theorem takeLargerFrom_triple (hcrew : ps pid) (hc : sh.minClass ≤ cls) (classes : List Nat)
    (hle : ∀ larger ∈ classes, cls ≤ larger) :
    Triple sh ps pid (fun _ => True) (takeLargerFrom sh pid cls classes) fun _ _ => True := by
  induction classes with
  | nil => exact skip
  | cons larger rest ih =>
    refine bind (takeFree_triple hcrew larger) fun r => ?_
    cases r with
    | none =>
      exact (ih fun k hk => hle k (mem_cons_of_mem _ hk)).require fun _ _ _ => trivial
    | some b =>
      exact bind (splitTaken_triple hc (hle larger mem_cons_self)) fun _ => done fun _ _ h => h

theorem takeLarger_triple (hcrew : ps pid) (hc : sh.minClass ≤ cls) :
    Triple sh ps pid (fun _ => True) (takeLarger sh pid cls) fun _ _ => True := by
  refine takeLargerFrom_triple hcrew hc _ fun larger hl => ?_
  obtain ⟨i, -, rfl⟩ := mem_range'.mp hl
  omega

theorem classFor_bounds (h : sh.classFor len = some cls) :
    sh.minClass ≤ cls ∧ cls ≤ sh.maxClass := by
  obtain ⟨i, hi, hcls⟩ := mem_range'.mp (mem_of_find?_eq_some h)
  omega

theorem allocate_triple (hcrew : ps pid) (len : Nat) :
    Triple sh ps pid (fun _ => True) (allocate sh pid len) fun _ _ => True := by
  unfold allocate
  split
  · exact skip
  rename_i cls hcls
  obtain ⟨hmin, hmax⟩ := classFor_bounds hcls
  have hsplit : ∀ b found, cls ≤ found → Triple sh ps pid (Taken sh pid found (some b))
      (splitDown b cls >>= fun b => (pure (.ok b) : ArenaProg (Except ArenaError _)))
      fun _ _ => True :=
    fun b found hle => bind (splitTaken_triple hmin hle) fun _ => done fun _ _ h => h
  refine bind (takeFree_triple hcrew cls) fun r => ?_
  cases r with
  | some b => exact hsplit b cls le_rfl
  | none =>
    refine bind ((reclaim_triple cls).require fun _ _ _ => trivial) fun _ => ?_
    refine bind (takeFree_triple hcrew cls) fun r => ?_
    cases r with
    | some b => exact hsplit b cls le_rfl
    | none =>
      refine bind ((carve_triple hcrew).require fun _ _ _ => trivial) fun r => ?_
      cases r with
      | some b => exact hsplit b sh.maxClass hmax
      | none =>
        refine bind ((takeLarger_triple hcrew hmin).require fun _ _ _ => trivial) fun r => ?_
        cases r with
        | some | none => exact done fun _ _ h => h

theorem copyBytes_triple (pos : Nat) (bytes : Packet) :
    Triple sh ps pid (Own sh pid b) (copyBytes pos bytes) fun _ => Own sh pid b := by
  induction bytes generalizing pos with
  | nil => exact done fun _ _ h => h
  | cons x bytes ih =>
    refine bind (Triple.store (stays_own b) fun w hw hown => ?_) fun _ => ih (pos + 1)
    have hfair : Fair sh ps pid w (setByte pos x w) := fair_setByte hw pos x
    exact ⟨hfair, hown.fair hfair rfl rfl⟩

section
variable (b : BlockHandle)

theorem writingHere_triple : Triple sh ps pid (fun _ => True) (writingHere pid b) fun here w =>
      here = true → Own sh pid b w := by
  have hload : Triple sh ps pid (fun _ => True) (loadState b.offset) fun state w =>
      state = .writing pid → ∃ c, Own sh pid ⟨b.offset, c⟩ w :=
    Triple.load stays_true fun w hw _ hstate =>
      ⟨(w.header b.offset).cls, hw.held hstate nofun nofun, hstate, rfl⟩
  refine bind hload fun state => ?_
  split
  · exact done nofun
  rename_i hstate
  rw [Decidable.not_not] at hstate
  refine bind ((loadClass_own b.offset).require fun w _ h => h hstate)
    fun cls => done fun w _ hown hcls => ?_
  obtain rfl : cls = b.cls := of_decide_eq_true hcls
  exact hown

theorem writePayload_triple (bytes : Packet) :
    Triple sh ps pid (fun _ => True) (writePayload sh pid b bytes) fun _ _ => True := by
  unfold writePayload
  split
  · exact skip
  split
  · exact skip
  refine bind (writingHere_triple b) fun here => ?_
  split
  · exact skip
  rename_i hhere
  refine bind ((copyBytes_triple _ bytes).require fun w _ h => h (by simpa using hhere)) fun _ => ?_
  refine bind (storeLen_own _) fun _ => skip

theorem publish_triple : Triple sh ps pid (fun _ => True) (publish sh pid b) fun _ _ => True := by
  unfold publish
  split
  · exact skip
  refine bind (load_triple _) fun cls => ?_
  split
  · exact skip
  have hmine : ∀ q, BlockState.writing pid = .writing q → q = pid := fun q hq => by
    cases hq
    rfl
  exact bind (swapState_triple _ nofun nofun hmine nofun nofun) fun _ => skip

theorem abandon_triple : Triple sh ps pid (fun _ => True) (abandon sh pid b) fun _ _ => True := by
  unfold abandon
  split
  · exact skip
  refine bind (writingHere_triple b) fun here => ?_
  split
  · exact skip
  rename_i hhere
  refine bind (giveBack_triple.require fun w _ h => h (by simpa using hhere)) fun _ => skip

end

theorem advance_triple : Triple sh ps pid (fun _ => True) advance fun _ _ => True := by
  intro s _ _ t _ ht
  have hfair : Fair sh ps pid t { t with epochs := t.epochs.advance.2 } := fair_epochs ht _
  exact ⟨hfair.sound, hfair.guar, trivial⟩

theorem retire_triple (b : BlockHandle) :
    Triple sh ps pid (fun _ => True) (retire sh b) fun _ _ => True := by
  unfold retire
  split
  · exact skip
  rename_i hcheck
  rw [Decidable.not_not] at hcheck
  have hindex : b.index * 2 ^ b.cls = b.offset :=
    Nat.div_mul_cancel (Nat.dvd_of_mod_eq_zero hcheck.2.2.2)
  refine bind (load_triple _) fun cls => ?_
  split
  · exact skip
  refine bind advance_triple fun epoch => ?_
  refine bind (swapState_triple _ nofun nofun nofun nofun nofun) fun done => ?_
  split
  · exact skip
  rename_i hdone
  refine Prog.Spec.bind ((setRetired_triple _ _).require fun w _ h => hindex ▸ h (by simpa using hdone))
    fun _ => skip

/-- What a process does with an arena, each call chosen by what the ones before it returned. -/
inductive Client
  | stop
  | allocate (len : Nat) (next : Except ArenaError BlockHandle → Client)
  | writePayload (b : BlockHandle) (bytes : Packet) (next : Except ArenaError Unit → Client)
  | publish (b : BlockHandle) (next : Except ArenaError Unit → Client)
  | abandon (b : BlockHandle) (next : Except ArenaError Unit → Client)
  | retire (b : BlockHandle) (next : Except ArenaError Bool → Client)
  | reclaim (cls : Nat) (next : Nat → Client)

/-- The stores of a client that is process `pid`. -/
def Client.prog (sh : Shape) (pid : Nat) : Client → ArenaProg Unit
  | .stop => pure ()
  | .allocate len next => Arena.allocate sh pid len >>= fun r => (next r).prog sh pid
  | .writePayload b bytes next =>
    Arena.writePayload sh pid b bytes >>= fun r => (next r).prog sh pid
  | .publish b next => Arena.publish sh pid b >>= fun r => (next r).prog sh pid
  | .abandon b next => Arena.abandon sh pid b >>= fun r => (next r).prog sh pid
  | .retire b next => Arena.retire sh b >>= fun r => (next r).prog sh pid
  | .reclaim cls next => Arena.reclaim sh cls >>= fun r => (next r).prog sh pid

variable {sh : Shape}

theorem Client.triple (hcrew : crew pid) (c : Client) :
    Triple sh crew pid (fun _ => True) (c.prog sh pid) fun _ _ => True := by
  induction c with
  | stop => exact skip
  | allocate len next ih => exact bind (allocate_triple hcrew len) ih
  | writePayload b bytes next ih => exact bind (writePayload_triple b bytes) ih
  | publish b next ih => exact bind (publish_triple b) ih
  | abandon b next ih => exact bind (abandon_triple b) ih
  | retire b next ih => exact bind (retire_triple b) ih
  | reclaim cls next ih => exact bind (reclaim_triple cls) ih

def pool (sh : Shape) (w : World) (procs : List (Nat × Client)) : Pool World :=
  ⟨w, procs.map fun p => p.2.prog sh p.1⟩

/-- Whatever the processes do to each other, and wherever each stops, the blocks stay laid out. -/
theorem pool_sound (hw : Sound sh crew w) (hpids : (procs.map Prod.fst).Nodup)
    (hcrew : ∀ p ∈ procs, crew p.1) (schedule : List Nat) :
    Sound sh crew ((pool sh w procs).run schedule).state := by
  let pids : Nat → Nat := fun i => (procs.map Prod.fst).getD i 0
  have hsafe : Pool.Safe (Sound sh crew) (fun i => Rely sh (pids i))
      (fun i => Guar sh (pids i)) (pool sh w procs) := by
    refine ⟨hw, fun i prog hi => ?_⟩
    obtain ⟨p, hp, rfl⟩ : ∃ p, procs[i]? = some p ∧ p.2.prog sh p.1 = prog := by
      simpa [pool] using hi
    have hpid : pids i = p.1 := by simp [pids, hp]
    dsimp only
    rw [hpid]
    exact Client.triple (hcrew p (mem_of_getElem? hp)) p.2 w hw trivial
  refine (hsafe.run (fun i => Respects.refl sh _) (fun i s t u => Respects.trans)
    (fun i hi j hj hne s t h => h.rely fun heq => hne ?_) schedule).1
  have hlen : (pool sh w procs).procs.length = (procs.map Prod.fst).length := by simp [pool]
  rw [hlen] at hi hj
  dsimp only [pids] at heq
  rw [getD_eq_getElem _ _ hi, getD_eq_getElem _ _ hj] at heq
  exact (List.Nodup.getElem_inj_iff hpids).mp heq

end SubEtha.Arena
