import SubEtha.Maps.Refinement
import SubEtha.Maps.Universal

namespace SubEtha.Maps
open SubEtha.Lib UniversalFiles Backing SharedHashMap Option SharedUniversal

variable {T : Type} [DecidableEq T] {hash : T → Nat} {zero : T} {b : Backing T} {p : BackingPath}
  {capacity i : Nat} {u : SharedUniversal} {files : UniversalFiles T}

namespace Backing

/-- A map backing is a sound table. -/
def Sound (hash : T → Nat) : Backing T → Prop
  | .vec _ => True
  | .map m => ∃ f, SharedHashMap.Refines hash m f

theorem mem_values_map (h : SharedHashMap.Refines hash m f) (x : T) :
    x ∈ (map m).values ↔ f.lookup x = some () := by
  rw [h.lookup]
  constructor
  · intro hx
    obtain ⟨⟨k, v⟩, hkv, rfl⟩ := List.mem_map.mp hx
    obtain ⟨s, hs, heq⟩ := List.mem_map.mp hkv
    obtain ⟨hmem, htest⟩ := List.mem_filter.mp hs
    obtain ⟨i, hi⟩ := List.mem_iff_getElem?.mp hmem
    exact ⟨i, s, ⟨hi, beq_iff_eq.mp (Bool.and_eq_true_iff.mp htest).1⟩, heq⟩
  rintro ⟨i, s, he, heq⟩
  refine List.mem_map.mpr ⟨(x, ()), List.mem_map.mpr ⟨s, List.mem_filter.mpr
    ⟨List.mem_of_getElem? he.at_slot, ?_⟩, heq⟩, rfl⟩
  have hhash : s.hash ≠ 0 := by
    rw [h.sound.published i s he]
    exact hashKey_ne_zero hash _
  rw [he.occupied]
  simpa using hhash

theorem clear_spec (hb : b.Sound hash) :
    b.clear.Sound hash ∧ b.clear.capacity = b.capacity ∧ b.clear.values = [] := by
  cases b with
  | vec v => exact ⟨trivial, rfl, rfl⟩
  | map m =>
    obtain ⟨f, href⟩ := hb
    obtain ⟨hclear, hcap⟩ := clear_refines href.sound
    refine ⟨⟨∅, hclear⟩, hcap, List.eq_nil_iff_forall_not_mem.mpr fun x hx => ?_⟩
    have hlookup := (mem_values_map hclear x).mp hx
    rw [Finmap.lookup_empty] at hlookup
    cases hlookup

theorem valuesSince_values (b : Backing T) : b.valuesSince b.values = [] := by
  cases b with
  | vec v => exact List.drop_length
  | map m =>
    refine List.filter_eq_nil_iff.mpr fun x hx => ?_
    have hmem : x ∈ (map m).values := hx
    simp [hmem]

end Backing

namespace SharedUniversal

theorem insertInto_spec (hb : b.Sound hash) (x : T) :
    ∃ b' ok, insertInto hash b x = some (b', ok) ∧ b'.Sound hash ∧ b'.capacity = b.capacity ∧
      ∀ y, y ∈ b'.values ↔ y ∈ b.values ∨ (ok = true ∧ y = x) := by
  cases b with
  | vec v =>
    by_cases hfull : v.capacity ≤ v.items.length
    · simp only [insertInto, SharedVec.pushBack, if_pos hfull]
      exact ⟨.vec v, false, rfl, trivial, rfl, fun y => by simp⟩
    simp only [insertInto, SharedVec.pushBack, if_neg hfull]
    refine ⟨.vec _, true, rfl, trivial, rfl, fun y => ?_⟩
    simp [values]
  | map m =>
    obtain ⟨f, href⟩ := hb
    obtain ⟨m', hinsert, href', hcap⟩ := insert_refines href one_pos x ()
    unfold insertInto
    simp only [hinsert]
    unfold Bounded.place at href' ⊢
    cases hx : f.lookup x with
    | some old =>
      rw [hx] at href'
      refine ⟨.map m', true, rfl, ⟨_, href'⟩, hcap, fun y => ?_⟩
      rw [mem_values_map href', mem_values_map href]
      simp only [if_true, lookup_insert_iff]
      by_cases hy : y = x
      · simp [hy]
      · simp [hy]
    | none =>
      rw [hx] at href'
      by_cases hfull : f.keys.card = m.capacity
      · rw [if_pos hfull] at href' ⊢
        refine ⟨.map m', false, rfl, ⟨_, href'⟩, hcap, fun y => ?_⟩
        rw [mem_values_map href', mem_values_map href]
        simp
      rw [if_neg hfull] at href' ⊢
      refine ⟨.map m', true, rfl, ⟨_, href'⟩, hcap, fun y => ?_⟩
      rw [mem_values_map href', mem_values_map href]
      simp only [lookup_insert_iff]
      by_cases hy : y = x
      · simp [hy]
      · simp [hy]

theorem insertEach_spec (hb : b.Sound hash) (xs : List T) :
    ∃ b' ok, insertEach hash b xs = some (b', ok) ∧ b'.Sound hash ∧ b'.capacity = b.capacity ∧
      (ok = true → ∀ y, y ∈ b'.values ↔ y ∈ b.values ∨ y ∈ xs) := by
  induction xs generalizing b with
  | nil => exact ⟨b, true, rfl, hb, rfl, fun _ y => by simp⟩
  | cons x xs ih =>
    obtain ⟨b1, ok, hinsert, hsound, hcap, hvalues⟩ := insertInto_spec hb x
    rw [insertEach, hinsert, bind_some]
    cases ok with
    | false => exact ⟨b1, false, rfl, hsound, hcap, nofun⟩
    | true =>
      obtain ⟨b2, ok, heach, hsound2, hcap2, hvalues2⟩ := ih hsound
      refine ⟨b2, ok, heach, hsound2, hcap2.trans hcap, fun hok y => ?_⟩
      rw [hvalues2 hok, hvalues, List.mem_cons]
      simp only [true_and]
      exact or_assoc

theorem obtainBacking_ok (h : obtainBacking zero d p capacity = some (.ok b)) :
    b.capacity = capacity ∧
      (d.backings p = some b ∨ (d.backings p = none ∧ b.Sound hash ∧ b.values = [])) := by
  unfold obtainBacking at h
  split at h
  · split at h
    · rename_i hnone
      cases h
      exact ⟨rfl, .inr ⟨hnone, trivial, rfl⟩⟩
    · rename_i b' hsome
      split at h <;> cases h
      exact ⟨‹_›, .inl hsome⟩
  split at h
  · cases h
  split at h
  · rename_i hnone
    obtain ⟨m, hcreate, heq⟩ := map_eq_some_iff.mp h
    cases heq
    obtain ⟨href, hcap⟩ : SharedHashMap.Refines hash m ∅ ∧ m.capacity = capacity :=
      create_refines hcreate
    refine ⟨hcap, .inr ⟨hnone, ⟨∅, href⟩, List.eq_nil_iff_forall_not_mem.mpr fun x hx => ?_⟩⟩
    have hlookup := (mem_values_map href x).mp hx
    rw [Finmap.lookup_empty] at hlookup
    cases hlookup
  · rename_i b' hsome
    split at h <;> cases h
    exact ⟨‹_›, .inl hsome⟩

theorem older_next {h : UniversalHeader}
    (hnext : nextVersion h.version h.generation = some (version, generation)) :
    Older h.path ⟨generation, version, target⟩ := by
  unfold nextVersion at hnext
  split at hnext
  · cases hnext
    exact .inr ⟨rfl, Nat.lt_succ_self _⟩
  split at hnext <;> cases hnext
  exact .inl (Nat.lt_succ_self _)

theorem Older.trans (hpq : Older p q) (hqr : Older q r) : Older p r := by
  unfold Older at *
  omega

end SharedUniversal

namespace UniversalFiles

variable {d : UniversalFiles T} {b : Option (Backing T)}

omit [DecidableEq T] in
theorem put_self (d : UniversalFiles T) (p : BackingPath) (b : Option (Backing T)) :
    (d.put p b).backings p = b := if_pos rfl

omit [DecidableEq T] in
theorem put_same (h : d.backings p = b) : d.put p b = d := by
  have hsame : (fun q => if q = p then b else d.backings q) = d.backings := by
    funext q
    split
    · rename_i heq
      rw [heq, h]
    · rfl
  unfold put
  rw [hsame]

theorem put_sound (hd : ∀ q c, d.backings q = some c → c.Sound hash)
    (hb : ∀ c, b = some c → c.Sound hash) (q : BackingPath) (c : Backing T)
    (hq : (d.put p b).backings q = some c) : c.Sound hash := by
  unfold put at hq
  dsimp only at hq
  split at hq
  · exact hb c hq
  · exact hd q c hq

end UniversalFiles

namespace UniversalSession
open SharedUniversal

/-- The live backing holds the accepted values, and every handle holds it or an older one. -/
structure Live (s : UniversalSession T) (h : UniversalHeader) (b : Backing T) : Prop where
  at_path : s.files.backings h.path = some b
  values : ∀ x, x ∈ b.values ↔ x ∈ s.inserted
  handles : ∀ u ∈ s.handles, u.capacity = b.capacity ∧ (u.held = h.path ∨ Older u.held h.path)

structure Kept (hash : T → Nat) (s : UniversalSession T) : Prop where
  sound : ∀ p b, s.files.backings p = some b → b.Sound hash
  live : ∀ h, s.files.header = some h → ∃ b, Live s h b
  blank : s.files.header = none →
    s.handles = [] ∧ s.inserted = [] ∧ ∀ p, s.files.backings p = none

theorem kept_start : Kept hash (start : UniversalSession T) :=
  ⟨(fun p b h => by cases h), (fun h hh => by cases hh), fun _ => ⟨rfl, rfl, fun _ => rfl⟩⟩

variable {s : UniversalSession T} {h : UniversalHeader} {b : Backing T}

theorem Kept.of_live (hsound : ∀ p b, s.files.backings p = some b → b.Sound hash)
    (hheader : s.files.header = some h) (hl : Live s h b) : Kept hash s :=
  ⟨hsound, fun _ hh => ⟨b, some.inj (hheader.symm.trans hh) ▸ hl⟩,
    fun hnone => by cases hheader.symm.trans hnone⟩

omit [DecidableEq T] in
theorem Live.set_handles (hl : Live s h b) (hu : u ∈ s.handles) :
    ∀ v ∈ s.handles.set i ⟨u.capacity, h.path⟩,
      v.capacity = b.capacity ∧ (v.held = h.path ∨ Older v.held h.path) := by
  intro v hv
  rcases List.mem_or_eq_of_mem_set hv with hmem | rfl
  · exact hl.handles v hmem
  · exact ⟨(hl.handles u hu).1, .inl rfl⟩

theorem Kept.header (hk : Kept hash s) (hu : s.handles[i]? = some u) :
    ∃ h b, s.files.header = some h ∧ Live s h b := by
  cases hheader : s.files.header with
  | none =>
    rw [(hk.blank hheader).1] at hu
    cases hu
  | some h =>
    obtain ⟨b, hlive⟩ := hk.live h hheader
    exact ⟨h, b, rfl, hlive⟩

omit [DecidableEq T] in
theorem Live.withHeld_eq {α : Type} (hl : Live s h b) (hheader : s.files.header = some h)
    (hu : u ∈ s.handles)
    (call : SharedUniversal → Backing T →
    Option (UniversalFiles T × SharedUniversal × Except UniversalError α)) :
    withHeld s.files u call = call ⟨u.capacity, h.path⟩ b := by
  obtain ⟨hcap, hheld⟩ := hl.handles u hu
  have hhold : hold s.files h u = .ok ⟨u.capacity, h.path⟩ := by
    unfold hold
    rcases hheld with heq | hold
    · rw [if_pos ⟨congrArg BackingPath.version heq, congrArg BackingPath.generation heq⟩, ← heq]
    have hne : ¬(u.held.version = h.version ∧ u.held.generation = h.generation) := by
      unfold Older UniversalHeader.path at hold
      dsimp only at hold
      omega
    rw [if_neg hne, openBacking, hl.at_path]
    dsimp only
    rw [if_pos hcap.symm, Except.map, if_pos hold]
  unfold withHeld
  rw [hheader, bind_some]
  simp [hhold, hl.at_path]

variable {inserted : List T}

section
variable (hk : Kept hash s)
include hk

section
variable (hheader : s.files.header = some h) (hl : Live s h b) (hu : u ∈ s.handles)
include hheader hl hu

/-- A call that replaces the live backing by one of the same capacity. -/
theorem Kept.relive (hsound : b'.Sound hash) (hcap : b'.capacity = b.capacity)
    (hvalues : ∀ x, x ∈ b'.values ↔ x ∈ inserted) :
    Kept hash ⟨s.files.put h.path (some b'), s.handles.set i ⟨u.capacity, h.path⟩, inserted⟩ :=
  .of_live (put_sound hk.sound fun _ hc => some.inj hc ▸ hsound) hheader
    ⟨if_pos rfl, hvalues, hcap ▸ hl.set_handles hu⟩

/-- A call that leaves the files alone, or changes a file that is not the live one. -/
theorem Kept.aside (hp : p ≠ h.path) :
    Kept hash ⟨s.files.put p none, s.handles.set i ⟨u.capacity, h.path⟩, s.inserted⟩ :=
  .of_live (put_sound hk.sound nofun) hheader
    ⟨(if_neg hp.symm).trans hl.at_path, hl.values, hl.set_handles hu⟩

end

/-- A migration that moves the state on to a further backing. -/
theorem Kept.moved (hl : Live s h b) (hu : u ∈ s.handles) (hnewer : Older h.path h'.path)
    (hsound : b'.Sound hash) (hcap : b'.capacity = b.capacity)
    (hvalues : ∀ x, x ∈ b'.values ↔ x ∈ b.values) :
    Kept hash ⟨{ s.files with header := some h' }.put h'.path (some b'),
      s.handles.set i ⟨u.capacity, h'.path⟩, s.inserted⟩ := by
  refine .of_live (put_sound hk.sound fun c hc => some.inj hc ▸ hsound) rfl
    ⟨if_pos rfl, fun x => (hvalues x).trans (hl.values x), fun v hv => ?_⟩
  rw [hcap]
  rcases List.mem_or_eq_of_mem_set hv with hmem | rfl
  · obtain ⟨hvcap, hheld⟩ := hl.handles v hmem
    refine ⟨hvcap, .inr ?_⟩
    rcases hheld with heq | hold
    · rw [heq]
      exact hnewer
    · exact hold.trans hnewer
  · exact ⟨(hl.handles u hu).1, .inl rfl⟩

theorem Live.contains_eq (hl : Live s h b) (hheader : s.files.header = some h)
    (hu : u ∈ s.handles) (x : T) : contains hash s.files u x =
      some (s.files, ⟨u.capacity, h.path⟩, .ok (decide (x ∈ s.inserted))) := by
  rw [contains, hl.withHeld_eq hheader hu]
  cases b with
  | vec v =>
    have hvalues : x ∈ v.items ↔ x ∈ s.inserted := hl.values x
    dsimp only
    rw [decide_eq_decide.mpr hvalues]
  | map m =>
    obtain ⟨f, href⟩ := hk.sound _ _ hl.at_path
    have hsome : (f.lookup x).isSome = decide (x ∈ s.inserted) := by
      rw [Bool.eq_iff_iff, decide_eq_true_iff, ← hl.values, mem_values_map href, isSome_iff_exists]
      exact ⟨fun ⟨_, h⟩ => h, fun h => ⟨(), h⟩⟩
    dsimp only
    rw [get_refines href, map_some, hsome]

theorem Kept.fresh (capacity : Nat) :
    Kept hash ⟨{ s.files with header := some h }.put h.path (some (.vec ⟨capacity, []⟩)),
      [⟨capacity, h.path⟩], []⟩ := by
  refine .of_live (put_sound hk.sound fun c hc => by cases hc; trivial) rfl
    ⟨put_self _ _ _, fun x => Iff.rfl, fun v hv => ?_⟩
  rw [List.mem_singleton.mp hv]
  exact ⟨rfl, .inl rfl⟩

theorem Kept.attach (hheader : s.files.header = some h) (hl : Live s h b) :
    Kept hash { s with handles := s.handles ++ [⟨b.capacity, h.path⟩] } := by
  refine .of_live hk.sound hheader { hl with handles := fun v hv => ?_ }
  rcases List.mem_append.mp hv with hmem | hmem
  · exact hl.handles v hmem
  · rw [List.mem_singleton.mp hmem]
    exact ⟨rfl, .inl rfl⟩

theorem Kept.create (hcreate : create zero s.files capacity = some (files, r)) :
    match r with
    | .ok u => Kept hash ⟨files, s.handles ++ [u], s.inserted⟩
    | .error _ => Kept hash { s with files := files } := by
  unfold SharedUniversal.create at hcreate
  split at hcreate
  · cases hcreate
  cases hheader : s.files.header with
  | none =>
    obtain ⟨hhandles, hinserted, hblank⟩ := hk.blank hheader
    simp only [hheader, getD_none, ne_eq, not_true_eq_false, if_false, obtainBacking,
      UniversalHeader.path, hblank, map_some, some.injEq, Prod.mk.injEq] at hcreate
    obtain ⟨rfl, rfl⟩ := hcreate
    rw [hhandles, hinserted]
    exact hk.fresh capacity
  | some h =>
    obtain ⟨b, hl⟩ := hk.live h hheader
    have hfiles : { s.files with header := some h } = s.files := by rw [← hheader]
    simp only [hheader, getD_some, hfiles] at hcreate
    split at hcreate
    · cases hcreate
      exact hk
    obtain ⟨r0, hobtain, heq⟩ := map_eq_some_iff.mp hcreate
    cases r0 with
    | error e =>
      cases heq
      exact hk
    | ok b0 =>
      cases heq
      obtain ⟨rfl, hfound⟩ : b0.capacity = capacity ∧ (s.files.backings h.path = some b0 ∨
          (s.files.backings h.path = none ∧ b0.Sound hash ∧ b0.values = [])) :=
        obtainBacking_ok hobtain
      rw [hl.at_path] at hfound
      rcases hfound with heq | ⟨hnone, -⟩
      · cases heq
        dsimp only
        rw [put_same hl.at_path]
        exact hk.attach hheader hl
      · cases hnone

theorem Kept.open' (hopen : open' s.files capacity = .ok u) :
    Kept hash { s with handles := s.handles ++ [u] } := by
  unfold SharedUniversal.open' at hopen
  split at hopen
  · cases hopen
  rename_i h hheader
  split at hopen
  · cases hopen
  obtain ⟨b, hl⟩ := hk.live h hheader
  rw [openBacking, hl.at_path] at hopen
  dsimp only at hopen
  by_cases hcap : b.capacity = capacity
  · rw [if_pos hcap] at hopen
    cases hopen
    cases hcap
    exact hk.attach hheader hl
  · rw [if_neg hcap] at hopen
    cases hopen

theorem Kept.reset (hreset : reset s.files capacity = some (files, u)) :
    Kept hash ⟨files, [u], []⟩ := by
  unfold SharedUniversal.reset at hreset
  split at hreset
  · cases hreset
  · cases hreset
    exact hk.fresh capacity

theorem Kept.migrateTo (hheader : s.files.header = some h) (hl : Live s h b)
    (hu : s.handles[i]? = some u) (hfresh : s.FreshPath (.migrateTo i target))
    (hmigrate : migrateTo hash zero s.files u target = some (files, u', r)) :
    Kept hash ⟨files, s.handles.set i u', s.inserted⟩ := by
  have hmem := List.mem_of_getElem? hu
  have hsame : s.handles.set i u = s.handles := by
    obtain ⟨hi, rfl⟩ := List.getElem_of_getElem? hu
    exact List.set_getElem_self hi
  unfold SharedUniversal.migrateTo at hmigrate
  rw [hheader, bind_some] at hmigrate
  split at hmigrate
  · cases hmigrate
    rw [hsame]
    exact hk
  rename_i hne
  split at hmigrate
  · cases hmigrate
    rw [hsame]
    exact hk
  rename_i version generation hnext
  rw [hl.withHeld_eq hheader hmem] at hmigrate
  have hpath : (⟨generation, version, target⟩ : BackingPath) ≠ h.path := fun heq =>
    hne (congrArg BackingPath.strategy heq).symm
  obtain ⟨r0, hobtain, hrest⟩ := bind_eq_some_iff.mp hmigrate
  cases r0 with
  | error e =>
    cases hrest
    exact hk.aside hheader hl hmem hpath
  | ok b0 =>
    obtain ⟨hcap, hfound⟩ : b0.capacity = u.capacity ∧
        (s.files.backings ⟨generation, version, target⟩ = some b0 ∨
          (s.files.backings ⟨generation, version, target⟩ = none ∧ b0.Sound hash ∧
            b0.values = [])) := obtainBacking_ok hobtain
    have hbuilt : b0.Sound hash ∧ ∀ x ∈ b0.values, x ∈ b.values := by
      rcases hfound with hstale | ⟨-, hsound, hempty⟩
      · exact ⟨hk.sound _ _ hstale, hfresh u hu h hheader hne _ hnext b0 hstale hcap b hl.at_path⟩
      · rw [hempty]
        exact ⟨hsound, by simp⟩
    obtain ⟨b1, ok, heach, hsound1, hcap1, hvalues1⟩ := insertEach_spec hbuilt.1 b.values
    simp only [heach, bind_some] at hrest
    cases ok with
    | false =>
      cases hrest
      exact hk.aside hheader hl hmem hpath
    | true =>
      simp only [valuesSince_values, insertEach, map_some, if_true] at hrest
      cases hrest
      have hnewer : Older h.path
          (UniversalHeader.path { h with version, generation, strategy := target }) :=
        older_next hnext
      refine hk.moved hl hmem hnewer hsound1
        (hcap1.trans (hcap.trans (hl.handles u hmem).1)) fun x => ?_
      rw [hvalues1 rfl]
      exact or_iff_right_of_imp (hbuilt.2 x)

end

variable {s' : UniversalSession T}

theorem Kept.onHandle {α : Type} {call : UniversalFiles T → SharedUniversal →
      Option (UniversalFiles T × SharedUniversal × Except UniversalError α)} (hk : Kept hash s)
    (h : s.onHandle i call inserted = some s')
    (hcall : ∀ h b u files u' r, s.files.header = some h → Live s h b → s.handles[i]? = some u →
      call s.files u = some (files, u', r) → Kept hash ⟨files, s.handles.set i u',
        match r with | .ok _ => inserted | .error _ => s.inserted⟩) : Kept hash s' := by
  unfold UniversalSession.onHandle at h
  split at h
  · cases h
    exact hk
  rename_i u hu
  obtain ⟨⟨files, u', r⟩, hr, heq⟩ := map_eq_some_iff.mp h
  obtain ⟨h, b, hheader, hl⟩ := hk.header hu
  have hkept := hcall h b u files u' r hheader hl hu hr
  cases r with
  | ok | error => exact heq ▸ hkept

theorem Kept.insert (hk : Kept hash s) (hheader : s.files.header = some h) (hl : Live s h b)
    (hu : s.handles[i]? = some u)
    (hinsert : insert hash s.files u x = some (files, u', r)) :
    Kept hash ⟨files, s.handles.set i u',
      match r with | .ok _ => x :: s.inserted | .error _ => s.inserted⟩ := by
  have hmem := List.mem_of_getElem? hu
  rw [SharedUniversal.insert, hl.withHeld_eq hheader hmem] at hinsert
  obtain ⟨b', ok, hinto, hsound, hcap, hvalues⟩ := insertInto_spec (hk.sound _ _ hl.at_path) x
  rw [hinto] at hinsert
  cases ok with
  | true =>
    cases hinsert
    refine hk.relive hheader hl hmem hsound hcap fun y => ?_
    rw [hvalues, hl.values]
    simp [or_comm]
  | false =>
    cases hinsert
    refine hk.relive hheader hl hmem hsound hcap fun y => ?_
    rw [hvalues, hl.values]
    simp

theorem Kept.step (hk : Kept hash s) (hfresh : s.FreshPath c)
    (hstep : s.step hash zero c = some s') : Kept hash s' := by
  cases c with
  | create capacity =>
    obtain ⟨⟨files, r⟩, hcreate, heq⟩ := map_eq_some_iff.mp hstep
    have hkept := hk.create hcreate
    cases r with
    | ok | error =>
      cases heq
      exact hkept
  | open' capacity =>
    simp only [UniversalSession.step] at hstep
    split at hstep
    · rename_i u hopen
      cases hstep
      exact hk.open' hopen
    · cases hstep
      exact hk
  | reset capacity =>
    obtain ⟨⟨files, u⟩, hreset, rfl⟩ := map_eq_some_iff.mp hstep
    exact hk.reset hreset
  | insert i x =>
    simp only [UniversalSession.step] at hstep
    refine hk.onHandle hstep fun h b u files u' r hheader hl hu hcall => ?_
    have hkept := hk.insert hheader hl hu hcall
    cases r with
    | ok | error => exact hkept
  | contains i x =>
    simp only [UniversalSession.step] at hstep
    refine hk.onHandle hstep fun h b u files u' r hheader hl hu hcall => ?_
    have hmem := List.mem_of_getElem? hu
    rw [hl.contains_eq hk hheader hmem] at hcall
    cases hcall
    have hkept : Kept hash ⟨s.files.put h.path (some b), s.handles.set i ⟨u.capacity, h.path⟩,
        s.inserted⟩ := hk.relive hheader hl hmem (hk.sound _ _ hl.at_path) rfl hl.values
    rwa [put_same hl.at_path] at hkept
  | clear i =>
    simp only [UniversalSession.step] at hstep
    refine hk.onHandle hstep fun h b u files u' r hheader hl hu hcall => ?_
    have hmem := List.mem_of_getElem? hu
    rw [SharedUniversal.clear, hl.withHeld_eq hheader hmem] at hcall
    cases hcall
    obtain ⟨hsound, hcap, hvalues⟩ := clear_spec (hk.sound _ _ hl.at_path)
    exact hk.relive hheader hl hmem hsound hcap fun x => by rw [hvalues]
  | migrateTo i target =>
    simp only [UniversalSession.step] at hstep
    refine hk.onHandle hstep fun h b u files u' r hheader hl hu hcall => ?_
    have hkept := hk.migrateTo hheader hl hu hfresh hcall
    cases r with
    | ok | error => exact hkept

/-- Where no migration finds a file with values of an earlier life at its path, `contains` on
any handle answers whether the value was accepted since the last clear or reset. -/
theorem membership_survives (hash : T → Nat) (zero : T) (calls : List (UniversalCall T))
    {s : UniversalSession T} (hfresh : EveryStep (step hash zero) FreshPath start calls)
    (hrun : run (step hash zero) start calls = some s) {i : Nat} {u : SharedUniversal}
    (hu : s.handles[i]? = some u) (x : T) : ∃ u', SharedUniversal.contains hash s.files u x =
      some (s.files, u', .ok (decide (x ∈ s.inserted))) := by
  have hk : Kept hash s :=
    run_invariant (fun s c s' hk hok hstep => hk.step hok hstep) kept_start hfresh hrun
  obtain ⟨h, b, hheader, hl⟩ := hk.header hu
  exact ⟨_, hl.contains_eq hk hheader (List.mem_of_getElem? hu) x⟩

instance (s : UniversalSession T) : DecidablePred s.FreshPath := fun c => by
  cases c <;> unfold FreshPath <;> infer_instance

/-- To the map and back, with a clear between and a second handle. -/
def thereAndBack : List (UniversalCall Nat) :=
  [.create 4, .insert 0 7, .migrateTo 0 .map, .clear 0, .insert 0 8, .migrateTo 0 .vec, .open' 4]

theorem membership_survives_thereAndBack :
    ∃ s u u', run (step id 0) start thereAndBack = some s ∧ s.handles[1]? = some u ∧
      SharedUniversal.contains id s.files u 8 = some (s.files, u', .ok true) := by
  obtain ⟨u', h⟩ := membership_survives id 0 thereAndBack (by decide +kernel) rfl (i := 1) rfl 8
  exact ⟨_, _, u', rfl, rfl, h⟩

/-- A migration, a reset, and the same migration again. -/
def secondLife : List (UniversalCall Nat) :=
  [.create 4, .insert 0 7, .migrateTo 0 .map, .reset 4, .migrateTo 0 .map]

theorem value_of_earlier_life :
    ∃ s u u', run (step id 0) start secondLife = some s ∧ s.handles[0]? = some u ∧ s.inserted = [] ∧
      SharedUniversal.contains id s.files u 7 = some (s.files, u', .ok true) :=
  ⟨_, _, _, rfl, rfl, rfl, rfl⟩

end UniversalSession
end SubEtha.Maps
