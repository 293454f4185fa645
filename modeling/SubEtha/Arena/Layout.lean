import SubEtha.Arena.Raw
import SubEtha.Lib.Memory

namespace SubEtha.Arena
open List SubEtha.Lib

def BlockHandle.span (h : BlockHandle) : Nat × Nat := (h.offset, 2 ^ h.cls)

/-- The blocks `l` tile the carved bytes, and the headers and bitmaps speak of no others. -/
structure Laid (sh : Shape) (w : World) (l : List BlockHandle) : Prop where
  tiles : Tiles 0 w.arena.bump (l.map BlockHandle.span)
  classes : ∀ h ∈ l, sh.minClass ≤ h.cls ∧ h.cls ≤ sh.maxClass
  aligned : ∀ h ∈ l, 2 ^ h.cls ∣ h.offset
  built : ∀ h ∈ l, (w.header h.offset).state ≠ .unbuilt → (w.header h.offset).cls = h.cls
  chunk : ∀ h ∈ l, (w.header h.offset).state = .unbuilt → h.cls = sh.maxClass
  bump_dvd : 2 ^ sh.maxClass ∣ w.arena.bump
  bump_le : w.arena.bump ≤ sh.capacity
  fresh : ∀ o, w.arena.bump ≤ o → (w.header o).state = .unbuilt
  named : ∀ o, (w.header o).state ≠ .unbuilt → (w.header o).state ≠ .free → ∃ h ∈ l, h.offset = o
  freeBits : ∀ c i, w.arena.freeBits c i = true →
    ∃ h ∈ l, h.offset = i * 2 ^ c ∧ (w.header h.offset).state ≠ .unbuilt
  retiredBits : ∀ c i, w.arena.retiredBits c i = true →
    ∃ h ∈ l, h.offset = i * 2 ^ c ∧ (w.header h.offset).state ≠ .unbuilt

theorem handles_unique {l l' : List BlockHandle} (h : Tiles lo hi (l.map BlockHandle.span))
    (h' : Tiles lo hi (l'.map BlockHandle.span))
    (hsame : ∀ a ∈ l, ∀ b ∈ l', a.offset = b.offset → a.cls = b.cls) : l = l' := by
  induction l generalizing lo l' with
  | nil =>
    cases l' with
    | nil => rfl
    | cons b l' =>
      obtain ⟨-, hpos, hrest⟩ := h'
      obtain rfl : lo = hi := h
      have := hrest.le
      omega
  | cons a l ih =>
    obtain ⟨hstart, hpos, hrest⟩ := h
    cases l' with
    | nil =>
      obtain rfl : lo = hi := h'
      have := hrest.le
      omega
    | cons b l' =>
      obtain ⟨hstart', -, hrest'⟩ := h'
      have hoffset : a.offset = b.offset := hstart.trans hstart'.symm
      obtain rfl : a = b := by
        cases a
        cases b
        simp_all
      rw [ih hrest hrest' fun c hc d hd => hsame c (mem_cons_of_mem _ hc) d (mem_cons_of_mem _ hd)]

variable {sh : Shape} {w : World} {l l' : List BlockHandle}

/-- The headers alone say what the blocks are. -/
theorem Laid.unique (h : Laid sh w l) (h' : Laid sh w l') : l = l' := by
  refine handles_unique h.tiles h'.tiles fun a ha b hb hoffset => ?_
  by_cases hstate : (w.header a.offset).state = .unbuilt
  · rw [h.chunk a ha hstate, h'.chunk b hb (hoffset ▸ hstate)]
  · rw [← h.built a ha hstate, ← h'.built b hb (hoffset ▸ hstate), hoffset]

variable {o : Nat}

section
variable (h : Laid sh w l)
include h

variable (ha : a ∈ l)
include ha

theorem Laid.apart (hb : b ∈ l) : a = b ∨ Apart a.span b.span := by
  rcases h.tiles.apart (mem_map_of_mem ha) (mem_map_of_mem hb) with heq | hapart
  · refine .inl ?_
    have hoffset : a.offset = b.offset := congrArg Prod.fst heq
    have hpow : 2 ^ a.cls = 2 ^ b.cls := congrArg Prod.snd heq
    have hcls : a.cls = b.cls := Nat.pow_right_injective le_rfl hpow
    cases a
    cases b
    simp_all
  · exact .inr hapart

/-- Two blocks that share a byte are one. -/
theorem Laid.eq_of_within (hb : b ∈ l) (hxa : a.offset ≤ x ∧ x < a.offset + 2 ^ a.cls)
    (hxb : b.offset ≤ x ∧ x < b.offset + 2 ^ b.cls) : a = b := by
  rcases h.apart ha hb with heq | hapart
  · exact heq
  · unfold Apart BlockHandle.span at hapart
    omega

theorem Laid.eq_of_offset (hb : b ∈ l) (hoffset : a.offset = b.offset) : a = b :=
  h.eq_of_within ha hb ⟨le_rfl, Nat.lt_add_of_pos_right (Nat.two_pow_pos _)⟩
    ⟨le_of_eq hoffset.symm, hoffset ▸ Nat.lt_add_of_pos_right (Nat.two_pow_pos _)⟩

theorem Laid.end_le : a.offset + 2 ^ a.cls ≤ w.arena.bump := (h.tiles.bounds (mem_map_of_mem ha)).2

theorem Laid.index_eq : a.index * 2 ^ a.cls = a.offset := Nat.div_mul_cancel (h.aligned a ha)

end

/-- A built block starts at the offset. -/
def Start (sh : Shape) (w : World) (o : Nat) : Prop :=
  ∃ l, Laid sh w l ∧ ∃ h ∈ l, h.offset = o ∧ (w.header o).state ≠ .unbuilt

/-- An unbuilt chunk starts at the offset. -/
def Chunk (sh : Shape) (w : World) (o : Nat) : Prop :=
  ∃ l, Laid sh w l ∧ ∃ h ∈ l, h.offset = o ∧ (w.header o).state = .unbuilt

theorem Laid.start (h : Laid sh w l) (hs : Start sh w o) :
    ∃ a ∈ l, a.offset = o ∧ a.cls = (w.header o).cls ∧ (w.header o).state ≠ .unbuilt := by
  obtain ⟨l', h', a, ha, rfl, hstate⟩ := hs
  obtain rfl := h.unique h'
  exact ⟨a, ha, rfl, (h.built a ha hstate).symm, hstate⟩

theorem Laid.chunk_mem (h : Laid sh w l) (hs : Chunk sh w o) : ⟨o, sh.maxClass⟩ ∈ l := by
  obtain ⟨l', h', a, ha, rfl, hstate⟩ := hs
  obtain rfl := h.unique h'
  rw [← h.chunk a ha hstate]
  exact ha

theorem Chunk.lt_bump (hc : Chunk sh w o) : o < w.arena.bump := by
  obtain ⟨l, hl, a, ha, rfl, -⟩ := hc
  have := hl.end_le ha
  have := Nat.two_pow_pos a.cls
  omega

theorem create_laid (sh : Shape) (pins : Nat) : Laid sh (World.create pins) [] :=
  ⟨rfl, (by simp), (by simp), (by simp),
    (by simp), Nat.dvd_zero _, Nat.zero_le _, fun _ _ => rfl,
    fun _ h => absurd rfl h, (fun c i h => by cases h), (fun c i h => by cases h)⟩

/-- What another process leaves alone: blocks this one is writing, with all their bytes'
headers, and chunks it carved. -/
structure Respects (sh : Shape) (mine : Nat → Prop) (s t : World) : Prop where
  bump : s.arena.bump ≤ t.arena.bump
  carver : ∀ o < s.arena.bump, t.carver o = s.carver o
  starts : ∀ o, Start sh s o → Start sh t o
  writing : ∀ o p, mine p → Start sh s o → (s.header o).state = .writing p →
    ∀ x, o ≤ x → x < o + 2 ^ (s.header o).cls →
      (t.header x).state = (s.header x).state ∧ (t.header x).cls = (s.header x).cls
  chunks : ∀ o, mine (s.carver o) → Chunk sh s o →
    Chunk sh t o ∧ (t.header o).cls = (s.header o).cls

/-- What the other processes may do to process `pid`. -/
def Rely (sh : Shape) (pid : Nat) : World → World → Prop := Respects sh fun p => p = pid

/-- What process `pid` may do to the others. -/
def Guar (sh : Shape) (pid : Nat) : World → World → Prop := Respects sh fun p => p ≠ pid

theorem Respects.refl (sh : Shape) (mine : Nat → Prop) (s : World) : Respects sh mine s s :=
  ⟨le_rfl, fun _ _ => rfl, fun _ h => h, fun _ _ _ _ _ _ _ _ => ⟨rfl, rfl⟩, fun _ _ h => ⟨h, rfl⟩⟩

theorem Respects.trans (hst : Respects sh mine s t) (htu : Respects sh mine t u) :
    Respects sh mine s u := by
  refine ⟨le_trans hst.bump htu.bump, fun o ho => ?_, fun o ho => htu.starts o (hst.starts o ho),
    fun o p hp ho hstate x hle hlt => ?_, fun o hc ho => ?_⟩
  · rw [htu.carver o (lt_of_lt_of_le ho hst.bump), hst.carver o ho]
  · have hself := hst.writing o p hp ho hstate o le_rfl
      (Nat.lt_add_of_pos_right (Nat.two_pow_pos _))
    obtain ⟨hx, hxc⟩ := hst.writing o p hp ho hstate x hle hlt
    obtain ⟨hy, hyc⟩ := htu.writing o p hp (hst.starts o ho) (hself.1.trans hstate) x hle
      (by rw [hself.2]; exact hlt)
    exact ⟨hy.trans hx, hyc.trans hxc⟩
  · obtain ⟨hchunk, hcls⟩ := hst.chunks o hc ho
    have hlt := ho.lt_bump
    obtain ⟨hchunk', hcls'⟩ := htu.chunks o (by rw [hst.carver o hlt]; exact hc) hchunk
    exact ⟨hchunk', hcls'.trans hcls⟩

end SubEtha.Arena
