import SubEtha.Block.Encoder

namespace SubEtha.Block
open Function List

section
variable {α β : Type}

def maxLen (blocks : List (List α)) : Nat := (blocks.map List.length).foldr max 0

/-- Column by column, that column's datagram of every block that has one. -/
def columnMajor (blocks : List (List α)) : List α :=
  (range (maxLen blocks)).flatMap fun col => blocks.filterMap (·[col]?)

/-- Every datagram with the place of its block in the group. -/
def tagged (blocks : List (List α)) : List (List (Nat × α)) :=
  (range blocks.length).map fun i => (blocks.getD i []).map (i, ·)

theorem maxLen_map (f : List α → List β) (h : ∀ b, (f b).length = b.length)
    (blocks : List (List α)) : maxLen (blocks.map f) = maxLen blocks := by
  simp [maxLen, comp_def, h]

theorem lt_maxLen : col < maxLen blocks ↔ ∃ b ∈ blocks, col < b.length := by
  induction blocks with
  | nil => simp [maxLen]
  | cons b blocks ih =>
    simp only [maxLen, map_cons, foldr_cons, mem_cons, exists_eq_or_imp, lt_max_iff] at ih ⊢
    rw [ih]

theorem flatMap_getElem? (h : b.length ≤ n) :
    ((range n).flatMap fun col => b[col]?.toList) = b := by
  induction b generalizing n with
  | nil => simp
  | cons a b ih =>
    obtain ⟨n, rfl⟩ := Nat.exists_eq_add_of_lt (lt_of_lt_of_le (Nat.zero_lt_succ _) h)
    rw [zero_add, range_succ_eq_map, flatMap_cons, flatMap_map]
    simp only [length_cons, zero_add, Nat.add_le_add_iff_right] at h
    simpa using ih h

theorem columnMajor_perm (blocks : List (List α)) : columnMajor blocks ~ blocks.flatten := by
  suffices h : ∀ n, maxLen blocks ≤ n →
      ((range n).flatMap fun col => blocks.filterMap (·[col]?)) ~ blocks.flatten from h _ le_rfl
  intro n hn
  induction blocks with
  | nil => simp
  | cons b blocks ih =>
    obtain ⟨hb, hrest⟩ := max_le_iff.mp hn
    have hcol (col : Nat) : (b :: blocks).filterMap (·[col]?) =
        b[col]?.toList ++ blocks.filterMap (·[col]?) := by
      rw [filterMap_cons]
      cases b[col]? <;> rfl
    simp only [hcol, flatten_cons]
    refine (flatMap_append_perm _ _ _).symm.trans ?_
    rw [flatMap_getElem? hb]
    exact (ih hrest).append_left b

theorem map_columnMajor (f : α → β) (blocks : List (List α)) :
    (columnMajor blocks).map f = columnMajor (blocks.map (map f)) := by
  simp only [columnMajor, maxLen_map (map f) fun b => length_map f, map_flatMap, map_filterMap,
    filterMap_map, comp_def, getElem?_map]

theorem map_snd_tagged (blocks : List (List α)) : (tagged blocks).map (map Prod.snd) = blocks := by
  refine ext_getElem (by simp [tagged]) fun i hi hi' => ?_
  simp [tagged, comp_def, hi']

/-- The places, among `m` blocks, of those with more than `col` datagrams. -/
def row (m : Nat) (size : Nat → Nat) (col : Nat) : List Nat := (range m).filter (col < size ·)

theorem map_fst_columnMajor (blocks : List (List α)) : (columnMajor (tagged blocks)).map Prod.fst =
      (range (maxLen blocks)).flatMap (row blocks.length fun i => (blocks.getD i []).length) := by
  have hmax : maxLen (tagged blocks) = maxLen blocks := by
    conv_rhs => rw [← map_snd_tagged blocks, maxLen_map (map Prod.snd) fun b => length_map _]
  rw [columnMajor, hmax, map_flatMap]
  congr 1
  funext col
  rw [tagged, filterMap_map, map_filterMap, row, ← filterMap_eq_filter]
  congr 1
  funext i
  by_cases hc : col < (blocks.getD i []).length <;> simp_all [Option.guard]

end

/-- No entry comes twice in any `m` consecutive ones. -/
def Spaced (m : Nat) (owners : List Nat) : Prop := ∀ w, w <:+: owners → w.length ≤ m → w.Nodup

section
variable {m n i j k col : Nat} {size : Nat → Nat}

theorem spaced_cycle (m n : Nat) : Spaced m ((range n).map (· % m)) := by
  intro w hw hlen
  obtain ⟨v, ⟨pre, post, h⟩, rfl⟩ := infix_map_iff.mp hw
  rw [append_assoc, eq_comm, range_eq_range'] at h
  obtain ⟨a, -, -, h⟩ := range'_eq_append_iff.mp h
  obtain ⟨b, -, rfl, -⟩ := range'_eq_append_iff.mp h.symm
  rw [length_map, length_range'] at hlen
  refine Nodup.map_on (fun x hx y hy hxy => ?_) (nodup_range' _ (by decide))
  rw [mem_range'_1] at hx hy
  have h1 := Nat.sub_mod_eq_zero_of_mod_eq hxy
  have h2 := Nat.sub_mod_eq_zero_of_mod_eq hxy.symm
  rw [Nat.mod_eq_of_lt (by omega)] at h1 h2
  omega

theorem cycle_eq (q : Nat) (hk : k ≤ m) :
    ((range q).flatMap fun _ => range m) ++ range k = (range (q * m + k)).map (· % m) := by
  have hmod {n : Nat} (hn : n ≤ m) : (range n).map (· % m) = range n := by
    refine (map_congr_left fun x hx => ?_).trans (map_id _)
    exact Nat.mod_eq_of_lt (lt_of_lt_of_le (mem_range.mp hx) hn)
  induction q with
  | zero => simpa using (hmod hk).symm
  | succ q ih =>
    rw [range_succ_eq_map, flatMap_cons, flatMap_map, append_assoc, ih, Nat.succ_mul,
      Nat.add_right_comm, add_comm _ m, range_add (n := m), map_append, map_map, hmod le_rfl]
    simp [comp_def]

theorem filter_range_prefix (h : ∀ i j, i < j → j < m → p j → p i) :
    ∃ k ≤ m, (range m).filter p = range k := by
  induction m with
  | zero => exact ⟨0, le_rfl, rfl⟩
  | succ m ih =>
    cases hm : p m with
    | true =>
      refine ⟨m + 1, le_rfl, filter_eq_self.mpr fun i hi => ?_⟩
      rcases Nat.lt_succ_iff_lt_or_eq.mp (mem_range.mp hi) with hi | rfl
      · exact h i m hi (Nat.lt_succ_self m) hm
      · exact hm
    | false =>
      obtain ⟨k, hk, heq⟩ := ih fun i j hij hj => h i j hij (by omega)
      exact ⟨k, by omega, by simp [range_succ, hm, heq]⟩

theorem spaced_of_stairs (h : ∀ i j, i < j → j < m → size j ≤ size i ∧ size i ≤ size j + 1)
    (hmax : ∀ col < n, ∃ i < m, col < size i) : Spaced m ((range n).flatMap (row m size)) := by
  cases n with
  | zero =>
    intro w hw _
    simp [infix_nil.mp hw]
  | succ q =>
    -- every row but the last is full
    have hfull : ∀ col ∈ range q, row m size col = range m := by
      intro col hcol
      obtain ⟨i, hi, hlt⟩ := hmax (col + 1) (Nat.succ_lt_succ (mem_range.mp hcol))
      refine filter_eq_self.mpr fun j hj => decide_eq_true ?_
      rcases lt_trichotomy i j with hij | rfl | hij
      · have := h i j hij (mem_range.mp hj)
        omega
      · omega
      · have := h j i hij hi
        omega
    obtain ⟨k, hk, hlast⟩ : ∃ k ≤ m, row m size q = range k := by
      refine filter_range_prefix fun i j hij hj hlt => decide_eq_true ?_
      exact lt_of_lt_of_le (of_decide_eq_true hlt) (h i j hij hj).1
    rw [range_succ, flatMap_append, flatMap_singleton, flatMap_congr hfull, hlast, cycle_eq q hk]
    exact spaced_cycle _ _

/-- The places after `i` of blocks with a datagram in the column. -/
def after (m : Nat) (size : Nat → Nat) (i col : Nat) : List Nat :=
  (range' (i + 1) (m - i - 1)).filter (col < size ·)

theorem row_split (hi : i < m) (hlt : col < size i) :
    row m size col = row i size col ++ i :: after m size i col := by
  have hsplit := range'_append_1 (s := 0) (m := i) (n := m - i - 1 + 1)
  rw [zero_add, range'_succ, show i + (m - i - 1 + 1) = m by omega] at hsplit
  rw [row, row, after, range_eq_range', range_eq_range', ← hsplit, filter_append, filter_cons,
    if_pos (decide_eq_true hlt)]

variable (h : Spaced m ((range n).flatMap (row m size)))
include h

/-- Between two datagrams of a block stand the rest of its row and the start of the
next one. -/
theorem spaced_gap (hi : i < m) (hlt : col + 1 < size i) (hn : col + 1 < n) :
    m < (after m size i col).length + (row i size (col + 1)).length + 2 := by
  obtain ⟨r, rfl⟩ := Nat.exists_eq_add_of_le hn
  rw [range_add, range_succ, range_succ, flatMap_append, flatMap_append, flatMap_append,
    flatMap_singleton, flatMap_singleton, row_split hi (Nat.lt_of_succ_lt hlt), row_split hi hlt] at h
  by_contra hle
  have hnodup : (i :: (after m size i col ++ row i size (col + 1)) ++ [i]).Nodup := by
    refine h _ ⟨(range col).flatMap (row m size) ++ row i size col, after m size i (col + 1) ++
      ((range r).map (col + 2 + ·)).flatMap (row m size), by simp⟩ ?_
    simp only [length_append, length_cons, length_nil]
    omega
  simp at hnodup

theorem stairs_of_spaced (hpos : ∀ i < m, 0 < size i) (hmax : ∀ i < m, size i ≤ n)
    (hij : i < j) (hj : j < m) :
    size j ≤ size i ∧ size i ≤ size j + 1 := by
  -- a block missing between two datagrams of another brings these too close
  have hrow (i col : Nat) : (row i size col).length ≤ i := by
    simpa [row] using length_filter_le (col < size ·) (range i)
  have hafter (i col : Nat) : (after m size i col).length ≤ m - i - 1 := by
    simpa [after] using length_filter_le (col < size ·) (range' (i + 1) (m - i - 1))
  have hpi := hpos i (hij.trans hj)
  constructor
  · by_contra hlt
    have hgap := spaced_gap h hj (show size j - 2 + 1 < size j by omega)
      (lt_of_lt_of_le (by omega) (hmax j hj))
    have hmiss : (row j size (size j - 2 + 1)).length < j := by
      simpa [row] using length_filter_lt_length_iff_exists (p := (size j - 2 + 1 < size ·)).mpr
        ⟨i, mem_range.mpr hij, by simp; omega⟩
    have := hafter j (size j - 2)
    omega
  · by_contra hlt
    have hgap := spaced_gap h (hij.trans hj) (show size i - 2 + 1 < size i by omega)
      (lt_of_lt_of_le (by omega) (hmax i (hij.trans hj)))
    have hmiss : (after m size i (size i - 2)).length < m - i - 1 := by
      simpa [after] using length_filter_lt_length_iff_exists (p := (size i - 2 < size ·)).mpr
        ⟨j, (mem_range'_1 (s := i + 1) (n := m - i - 1)).mpr (by omega), by simp; omega⟩
    have := hrow i (size i - 2 + 1)
    omega

end

/-- Up to `depth` blocks of datagrams, waiting to go out together. -/
structure Interleaver where
  depth : Nat
  pending : List (List Datagram)

inductive InterleaverCall
  | addBlock (datagrams : List Datagram)
  | setDepth (depth : Nat)
  | flush

namespace Interleaver

def new (depth : Nat) : Interleaver := ⟨max depth 1, []⟩

variable (il : Interleaver)

def emit : List Datagram × Interleaver :=
  (columnMajor il.pending, { il with pending := [] })

def flush : List Datagram × Interleaver :=
  if il.pending.isEmpty then ([], il) else il.emit

def setDepth (depth : Nat) : List Datagram × Interleaver :=
  let (flushed, il) := il.flush
  (flushed, { il with depth := max depth 1 })

def addBlock (datagrams : List Datagram) : List Datagram × Interleaver :=
  if datagrams.isEmpty then ([], il)
  else
    let il := { il with pending := il.pending ++ [datagrams] }
    if il.depth ≤ il.pending.length then il.emit else ([], il)

def call : InterleaverCall → List Datagram × Interleaver
  | .addBlock datagrams => il.addBlock datagrams
  | .setDepth depth => il.setDepth depth
  | .flush => il.flush

end Interleaver

def InterleaverCall.datagrams : InterleaverCall → List Datagram
  | .addBlock datagrams => datagrams
  | _ => []

def InterleaverCall.blocks (c : InterleaverCall) : List (List Datagram) :=
  [c.datagrams].filter (!·.isEmpty)

namespace Interleaver

variable (il : Interleaver)

def group (c : InterleaverCall) : List (List Datagram) :=
  if (il.call c).2.pending.isEmpty then il.pending ++ c.blocks else []

/-- What each call emits, with the blocks it took for it. -/
def rounds (il : Interleaver) : List InterleaverCall → List (List (List Datagram) × List Datagram)
  | [] => []
  | c :: calls => (il.group c, (il.call c).1) :: (il.call c).2.rounds calls

theorem flush_eq : il.flush = il.emit := by
  obtain ⟨depth, pending⟩ := il
  cases pending <;> rfl

theorem call_spec (c : InterleaverCall) : (il.call c).1 = columnMajor (il.group c) ∧
      il.group c ++ (il.call c).2.pending = il.pending ++ c.blocks := by
  obtain ⟨depth, pending⟩ := il
  have hnil : columnMajor ([] : List (List Datagram)) = [] := rfl
  cases c with
  | addBlock datagrams =>
    cases datagrams with
    | nil => cases pending <;> simp [group, call, addBlock, InterleaverCall.blocks,
        InterleaverCall.datagrams, hnil]
    | cons d ds => by_cases h : depth ≤ pending.length + 1 <;> simp [group, call, addBlock, emit,
        InterleaverCall.blocks, InterleaverCall.datagrams, h, hnil]
  | setDepth => simp [group, call, setDepth, flush_eq, emit, InterleaverCall.blocks,
      InterleaverCall.datagrams]
  | flush => simp [group, call, flush_eq, emit, InterleaverCall.blocks, InterleaverCall.datagrams]

theorem flatten_blocks (c : InterleaverCall) : c.blocks.flatten = c.datagrams := by
  cases h : c.datagrams <;> simp [InterleaverCall.blocks, h]

/-- Every round emits its group by columns, and no block of it is empty. -/
theorem rounds_spec (calls : List InterleaverCall)
    (h : ∀ b ∈ il.pending, b ≠ []) (g : List (List Datagram) × List Datagram)
    (hg : g ∈ il.rounds calls) : g.2 = columnMajor g.1 ∧ ∀ b ∈ g.1, b ≠ [] := by
  induction calls generalizing il with
  | nil => cases hg
  | cons c calls ih =>
    obtain ⟨hout, hkept⟩ := il.call_spec c
    have hall : ∀ b ∈ il.group c ++ (il.call c).2.pending, b ≠ [] := by
      intro b hb
      rw [hkept, mem_append] at hb
      rcases hb with hb | hb
      · exact h b hb
      · simpa using (mem_filter.mp hb).2
    rcases mem_cons.mp hg with rfl | hg
    · exact ⟨hout, fun b hb => hall b (mem_append_left _ hb)⟩
    · exact ih _ (fun b hb => hall b (mem_append_right _ hb)) hg

/-- Nothing staged is lost or sent twice, once the buffer is flushed. -/
theorem rounds_perm (calls : List InterleaverCall) :
    ((il.rounds (calls ++ [.flush])).flatMap Prod.snd) ~
      il.pending.flatten ++ calls.flatMap (·.datagrams) := by
  induction calls generalizing il with
  | nil =>
    simp only [nil_append, rounds, call, flush_eq, emit, flatMap_cons, flatMap_nil, append_nil]
    exact columnMajor_perm il.pending
  | cons c calls ih =>
    obtain ⟨hout, hkept⟩ := il.call_spec c
    have hstaged := congrArg flatten hkept
    rw [flatten_append, flatten_append, flatten_blocks] at hstaged
    rw [cons_append, rounds, flatMap_cons, flatMap_cons, hout, ← append_assoc, ← hstaged,
      append_assoc]
    exact (columnMajor_perm _).append (ih _)

end Interleaver

/-- Any `D` consecutive datagrams of the `D` blocks have at most one of each block. -/
def Spread (blocks : List (List Datagram)) : Prop :=
  Spaced blocks.length ((columnMajor (tagged blocks)).map Prod.fst)

/-- Each block has as many datagrams as any after it, or one more. -/
def Stairs (blocks : List (List Datagram)) : Prop :=
  blocks.Pairwise fun a b => b.length ≤ a.length ∧ a.length ≤ b.length + 1

theorem spread_iff_stairs (hne : ∀ b ∈ blocks, b ≠ []) : Spread blocks ↔ Stairs blocks := by
  have hget (i : Nat) (hi : i < blocks.length) : blocks.getD i [] = blocks[i] := by simp [hi]
  rw [Spread, map_fst_columnMajor, Stairs, pairwise_iff_getElem]
  constructor
  · intro h i j hi hj hij
    rw [← hget i hi, ← hget j hj]
    refine stairs_of_spaced h (fun i hi => ?_) (fun i hi => ?_) hij hj
    · rw [hget i hi]
      exact length_pos_iff.mpr (hne _ (getElem_mem hi))
    · by_contra hlt
      rw [hget i hi, not_le] at hlt
      exact lt_irrefl _ (lt_maxLen.mpr ⟨_, getElem_mem hi, hlt⟩)
  · intro h
    refine spaced_of_stairs (fun i j hij hj => ?_) fun col hcol => ?_
    · rw [hget i (hij.trans hj), hget j hj]
      exact h i j (hij.trans hj) hj hij
    · obtain ⟨b, hb, hlt⟩ := lt_maxLen.mp hcol
      obtain ⟨i, hi, rfl⟩ := getElem_of_mem hb
      exact ⟨i, hi, by rwa [hget i hi]⟩

/-- Whatever is staged, however the depth changes: the datagrams emitted up to the last
flush are those staged, each once; and a group is spread exactly when each of its
blocks has as many datagrams as any after it, or one more. -/
theorem interleaver_spreads_iff (depth : Nat) (calls : List InterleaverCall) :
    (((Interleaver.new depth).rounds (calls ++ [.flush])).flatMap Prod.snd) ~
        calls.flatMap (·.datagrams) ∧ ∀ g ∈ (Interleaver.new depth).rounds (calls ++ [.flush]),
        g.2 = (columnMajor (tagged g.1)).map Prod.snd ∧ (Spread g.1 ↔ Stairs g.1) := by
  refine ⟨Interleaver.rounds_perm _ calls, fun g hg => ?_⟩
  obtain ⟨hout, hne⟩ := Interleaver.rounds_spec _ _ (by nofun) g hg
  exact ⟨by rw [map_columnMajor, map_snd_tagged, hout], spread_iff_stairs hne⟩

/-- A block of three datagrams and one of a single datagram, at depth two. -/
theorem uneven_blocks_bunch :
    ∃ g ∈ (Interleaver.new 2).rounds [.addBlock [[byte 0], [byte 1], [byte 2]], .addBlock [[byte 3]],
        .flush], g.2 = [[byte 0], [byte 3], [byte 1], [byte 2]] ∧ ¬Spread g.1 := by
  refine ⟨([[[byte 0], [byte 1], [byte 2]], [[byte 3]]],
    [[byte 0], [byte 3], [byte 1], [byte 2]]), by decide, rfl, fun h => ?_⟩
  exact absurd (h [0, 0] ⟨[0, 1], [], rfl⟩ le_rfl) (by decide)

end SubEtha.Block
