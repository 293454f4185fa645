import SubEtha.Rlc.Code
import SubEtha.Fec.Recovery

namespace SubEtha.Rlc
open List Lib RsCode RlcEncoder

/-- The symbols the sender has assigned, all of one length. -/
@[ext] structure Assignment (len : Nat) where
  symbols : Table Nat (List Byte)
  len_eq : ∀ id sym, symbols.get? id = some sym → sym.length = len

variable {sym : List Byte} {id : Nat}

namespace Assignment

variable {len : Nat} (a : Assignment len)

def symbol (id : Nat) : List Byte := (a.symbols.get? id).getD []

theorem symbol_length_le (id : Nat) : (a.symbol id).length ≤ len := by
  unfold symbol
  cases h : a.symbols.get? id with
  | none => exact Nat.zero_le _
  | some sym => exact le_of_eq (a.len_eq id sym h)

variable {a : Assignment len}

theorem symbol_of_get? (h : a.symbols.get? id = some sym) :
    a.symbol id = sym := by rw [symbol, h]; rfl

def assign (id : Nat) (sym : List Byte) (h : sym.length = len) : Assignment len where
  symbols := a.symbols.insert id sym
  len_eq := Table.forall_insert a.len_eq h

def Extends (a a' : Assignment len) : Prop :=
  ∀ id sym, a.symbols.get? id = some sym → a'.symbols.get? id = some sym

theorem extends_assign (hfresh : ∀ sym, a.symbols.get? id ≠ some sym) :
    a.Extends (a.assign id sym h) := by
  intro id' sym' hsym
  rw [assign, Table.get?_insert, if_neg]
  · exact hsym
  · rintro rfl
    exact hfresh sym' hsym

end Assignment

variable {len : Nat} {a : Assignment len}

/-- The repair is the combination of its window that its coefficients say. -/
structure RepairOk (a : Assignment len) (r : RepairSymbol) : Prop where
  size_le : r.windowSize < 2 ^ 16
  covered : ∀ off < r.windowSize, ∃ sym, a.symbols.get? (r.sourceId off) = some sym
  payload_eq : r.payload =
    combine r.windowSize r.coefficient (fun off => a.symbol (r.sourceId off))
      (replicate len 0)

variable {r : RepairSymbol} {a' : Assignment len}

theorem RepairOk.mono (h : RepairOk a r) (ha : a.Extends a') : RepairOk a' r where
  size_le := h.size_le
  covered := by
    intro off hoff
    obtain ⟨sym, hsym⟩ := h.covered off hoff
    exact ⟨sym, ha _ _ hsym⟩
  payload_eq := by
    have hsrc : ∀ off ∈ range r.windowSize,
        a'.symbol (r.sourceId off) = a.symbol (r.sourceId off) := by
      intro off hoff
      obtain ⟨sym, hsym⟩ := h.covered off (mem_range.mp hoff)
      rw [Assignment.symbol_of_get? hsym, Assignment.symbol_of_get? (ha _ _ hsym)]
    rw [h.payload_eq, combine, combine]
    exact (foldl_ext _ _ _ fun out off hoff => by rw [hsrc off hoff]).symm

/-- What one term of a repair contributes to byte `b`. -/
def term (a : Assignment len) (r : RepairSymbol) (b off : Nat) : Byte :=
  r.coefficient off * (a.symbol (r.sourceId off)).getD b 0

theorem sum_range_eq (f : Nat → Byte) (n : Nat) :
    ((range n).map f).sum = ∑ i ∈ Finset.range n, f i := by
  induction n with
  | zero => rfl
  | succ n ih => simp [range_succ, Finset.sum_range_succ, ih]

theorem RepairOk.payload_length (h : RepairOk a r) : r.payload.length = len := by
  simp [h.payload_eq, combine_length]

theorem RepairOk.payload_getD (h : RepairOk a r) (b : Nat) :
    r.payload.getD b 0 = ((range r.windowSize).map (term a r b)).sum := by
  rw [h.payload_eq, combine_getD (by
    intro off _
    rw [length_replicate]
    exact a.symbol_length_le _), sum_range_eq, getD_replicate_zero, zero_add]
  rfl

/-- The decoder holds nothing the sender did not send. -/
structure DecodesOk (a : Assignment len) (d : RlcDecoder) : Prop where
  source : ∀ id sym, d.source.get? id = some sym → a.symbols.get? id = some sym
  repairs : ∀ r ∈ d.repairs, RepairOk a r

theorem DecodesOk.mono (h : DecodesOk a d) (ha : a.Extends a') : DecodesOk a' d :=
  ⟨fun id sym hsym => ha id sym (h.source id sym hsym), fun r hr => (h.repairs r hr).mono ha⟩

section
variable {d : RlcDecoder} {unknowns : List Nat} {r : RepairSymbol}

/-- Byte `b` of every unknown symbol, by column. -/
def solution (a : Assignment len) (unknowns : List Nat) (b : Nat) : Nat → Byte :=
  fun i => (a.symbol (unknowns.getD i 0)).getD b 0

/-- The row is true of the assigned symbols once `offs` are accounted for. -/
def Balanced (a : Assignment len) (unknowns : List Nat) (r : RepairSymbol) (offs : List Nat)
    (row : Row Byte) : Prop :=
  row.Shape unknowns.length len ∧
    ∀ b, dot row.coefs (solution a unknowns b) + (offs.map (term a r b)).sum = row.rhs.getD b 0

theorem balanced_skip (hz : r.coefficient off = byte 0)
    (h : Balanced a unknowns r (off :: offs) row) : Balanced a unknowns r offs row := by
  refine ⟨h.1, fun b => ?_⟩
  have := h.2 b
  rwa [map_cons, sum_cons, term, hz, byte_zero, zero_mul, zero_add] at this

variable {row : Row Byte}

/-- A known symbol moves across: adding is subtracting. -/
theorem balanced_known (hsym : a.symbols.get? (r.sourceId off) = some sym)
    (h : Balanced a unknowns r (off :: offs) row) :
    Balanced a unknowns r offs { row with rhs := gfMulAdd row.rhs sym (r.coefficient off) } := by
  have hlen : sym.length ≤ row.rhs.length := by rw [h.1.2, a.len_eq _ _ hsym]
  rw [gfMulAdd_eq_addMul]
  refine ⟨⟨h.1.1, by rw [addMul_length]; exact h.1.2⟩, fun b => ?_⟩
  have hb := h.2 b
  rw [map_cons, sum_cons, term, Assignment.symbol_of_get? hsym] at hb
  rw [addMul_getD hlen, ← hb]
  calc dot row.coefs (solution a unknowns b) + (offs.map (term a r b)).sum
      = dot row.coefs (solution a unknowns b) +
          (r.coefficient off * sym.getD b 0 + (offs.map (term a r b)).sum) -
            r.coefficient off * sym.getD b 0 := by ring
    _ = _ := Byte.sub_eq_add ..

theorem balanced_unknown (hmem : r.sourceId off ∈ unknowns)
    (hz : row.coefs.getD (unknowns.idxOf (r.sourceId off)) 0 = 0)
    (h : Balanced a unknowns r (off :: offs) row) : Balanced a unknowns r offs
      { row with coefs := row.coefs.set (unknowns.idxOf (r.sourceId off)) (r.coefficient off) } := by
  have hlt := idxOf_lt_length_of_mem hmem
  refine ⟨⟨by rw [length_set]; exact h.1.1, h.1.2⟩, fun b => ?_⟩
  have hb := h.2 b
  rw [map_cons, sum_cons, ← add_assoc] at hb
  have hcol : unknowns.getD (unknowns.idxOf (r.sourceId off)) 0 = r.sourceId off := by
    rw [getD_eq_getElem?_getD, getElem?_idxOf hmem]
    rfl
  rw [dot_set (by rw [h.1.1]; exact hlt) hz, ← hb, term, solution, hcol]

/-- No offset still to come has its column filled. -/
def Unfilled (d : RlcDecoder) (unknowns : List Nat) (r : RepairSymbol) (offs : List Nat)
    (row : Row Byte) : Prop :=
  ∀ off ∈ offs, d.source.get? (r.sourceId off) = none →
    row.coefs.getD (unknowns.idxOf (r.sourceId off)) 0 = 0

theorem unfilled_set (c : Byte)
    (hids : (off :: offs).Pairwise fun i j => r.sourceId i ≠ r.sourceId j)
    (hmem : r.sourceId off ∈ unknowns) (h : Unfilled d unknowns r (off :: offs) row) :
    Unfilled d unknowns r offs
      { row with coefs := row.coefs.set (unknowns.idxOf (r.sourceId off)) c } := by
  intro off' hoff' hnone
  have hne : unknowns.idxOf (r.sourceId off) ≠ unknowns.idxOf (r.sourceId off') := by
    intro heq
    exact (pairwise_cons.mp hids).1 off' hoff' ((idxOf_inj hmem).mp heq)
  have := h off' (mem_cons_of_mem _ hoff') hnone
  rw [getD_eq_getElem?_getD] at this ⊢
  rwa [getElem?_set_ne hne]

theorem rowLoop_balanced (hd : DecodesOk a d)
    (hids : offs.Pairwise fun i j => r.sourceId i ≠ r.sourceId j)
    (hmem : ∀ off ∈ offs, d.source.get? (r.sourceId off) = none → lo ≤ r.sourceId off →
      r.sourceId off ∈ unknowns) (hunfilled : Unfilled d unknowns r offs row)
    (h : Balanced a unknowns r offs row)
    (hrun : d.rowLoop lo unknowns r offs row covers = some (row', covers')) :
    Balanced a unknowns r [] row' := by
  induction offs generalizing row covers with
  | nil =>
    cases hrun
    exact h
  | cons off offs ih =>
    have hids' := (pairwise_cons.mp hids).2
    have hmem' : ∀ off ∈ offs, d.source.get? (r.sourceId off) = none → lo ≤ r.sourceId off →
        r.sourceId off ∈ unknowns := fun o ho => hmem o (mem_cons_of_mem _ ho)
    rw [RlcDecoder.rowLoop] at hrun
    split at hrun
    · rename_i hz
      exact ih hids' hmem' (fun o ho => hunfilled o (mem_cons_of_mem _ ho)) (balanced_skip hz h)
        hrun
    split at hrun
    · rename_i sym hsym
      have hrest : Unfilled d unknowns r offs
          { row with rhs := gfMulAdd row.rhs sym (r.coefficient off) } :=
        fun o ho => hunfilled o (mem_cons_of_mem _ ho)
      exact ih hids' hmem' hrest (balanced_known (hd.source _ _ hsym) h) hrun
    · rename_i hnone
      split at hrun
      · rename_i hlo
        have hin := hmem off (mem_cons_self ..) hnone hlo
        exact ih hids' hmem' (unfilled_set _ hids hin hunfilled)
          (balanced_unknown hin (hunfilled off (mem_cons_self ..) hnone) h) hrun
      · cases hrun

theorem mem_unknownIds : sid ∈ d.unknownIds lo ↔
    (∃ r ∈ d.repairs, ∃ off < r.windowSize, r.sourceId off = sid) ∧ lo ≤ sid ∧
      d.source.get? sid = none := by
  simp [RlcDecoder.unknownIds, Table.contains]

/-- A window is shorter than the id space, so its ids are distinct. -/
theorem sourceId_pairwise (hsize : r.windowSize < 2 ^ 16) :
    (range r.windowSize).Pairwise fun i j => r.sourceId i ≠ r.sourceId j := by
  refine List.Pairwise.imp_of_mem ?_ pairwise_lt_range
  intro i j hi hj hlt
  rw [mem_range] at hi hj
  simp only [RepairSymbol.sourceId]
  omega

theorem repairRow_holds (hd : DecodesOk a d) (hr : r ∈ d.repairs)
    (hrow : d.repairRow lo (d.unknownIds lo) r = some row) :
    row.Shape (d.unknownIds lo).length len ∧
      ∀ b, row.Holds (solution a (d.unknownIds lo) b) (pick b) := by
  have hok := hd.repairs r hr
  unfold RlcDecoder.repairRow at hrow
  split at hrow <;> cases hrow
  rename_i row' hloop
  have hbal := rowLoop_balanced hd (sourceId_pairwise hok.size_le) (fun off hoff hnone hlo =>
      mem_unknownIds.mpr ⟨⟨r, hr, off, mem_range.mp hoff, rfl⟩, hlo, hnone⟩)
    (fun _ _ _ => getD_replicate_zero _ _)
    ⟨⟨length_replicate, hok.payload_length⟩, fun b => by
      rw [hok.payload_getD, byte_zero, dot_replicate_zero, zero_add]⟩ hloop
  refine ⟨hbal.1, fun b => ?_⟩
  have := hbal.2 b
  rwa [map_nil, sum_nil, add_zero, ← dot_pick] at this

/-- A unit row that is true of every byte has the symbol as its right-hand side. -/
theorem rhs_of_unit (hshape : row.Shape unknowns.length len)
    (hholds : ∀ b, row.Holds (solution a unknowns b) (pick b)) (hc : c < unknowns.length)
    (hunit : ∀ c' < unknowns.length, row.coef c' = if c = c' then 1 else 0)
    (hsym : a.symbols.get? (unknowns.getD c 0) = some sym) : row.rhs = sym := by
  have hlen : row.rhs.length = sym.length := by rw [hshape.2, a.len_eq _ _ hsym]
  refine ext_getD hlen fun b => ?_
  have hx := Row.holds_unit hshape hc hunit (hholds b)
  rw [dot_pick, solution, Assignment.symbol_of_get? hsym] at hx
  exact hx.symm

/-- The single nonzero entry of a row, when it is one, makes the row a unit row. -/
theorem unit_of_filter (hfilter : (range n).filter (fun c => row.coef c ≠ byte 0) = [c])
    (hone : row.coef c = byte 1) : c < n ∧ ∀ c' < n, row.coef c' = if c = c' then 1 else 0 := by
  have hmem : ∀ c', c' < n ∧ row.coef c' ≠ byte 0 ↔ c' = c := by
    intro c'
    have : c' ∈ (range n).filter (fun c => row.coef c ≠ byte 0) ↔ c' ∈ [c] := by rw [hfilter]
    simpa using this
  refine ⟨((hmem c).mpr rfl).1, fun c' hc' => ?_⟩
  split
  · rename_i heq
    rw [← heq, hone, byte_one]
  rename_i hne
  by_contra hnz
  exact hne ((hmem c').mp ⟨hc', by rwa [byte_zero]⟩).symm

theorem takeRow_ok (hd0 : DecodesOk a d0) (hp : DecodesOk a p.1)
    (hshape : row.Shape (d0.unknownIds lo).length len)
    (hholds : ∀ b, row.Holds (solution a (d0.unknownIds lo) b) (pick b)) :
    DecodesOk a (RlcDecoder.takeRow (d0.unknownIds lo) p row).1 := by
  unfold RlcDecoder.takeRow
  dsimp only
  split
  · rename_i c hfilter
    split
    · rename_i hcond
      obtain ⟨hc, hunit⟩ := unit_of_filter hfilter hcond.1
      have hin : (d0.unknownIds lo).getD c 0 ∈ d0.unknownIds lo := by
        rw [getD_eq_getElem?_getD, getElem?_eq_getElem hc]
        exact getElem_mem hc
      obtain ⟨⟨r, hr, off, hoff, hsid⟩, -, -⟩ := mem_unknownIds.mp hin
      obtain ⟨sym, hsym⟩ := (hd0.repairs r hr).covered off hoff
      rw [hsid] at hsym
      refine ⟨Table.forall_insert hp.source ?_, hp.repairs⟩
      rw [rhs_of_unit hshape hholds hc hunit hsym]
      exact hsym
    · exact hp
  · exact hp

theorem foldl_takeRow_ok (hd0 : DecodesOk a d0) {rows : List (Row Byte)}
    (hrows : ∀ row ∈ rows, row.Shape (d0.unknownIds lo).length len ∧
      ∀ b, row.Holds (solution a (d0.unknownIds lo) b) (pick b)) (hp : DecodesOk a p.1) :
    DecodesOk a (rows.foldl (RlcDecoder.takeRow (d0.unknownIds lo)) p).1 := by
  induction rows generalizing p with
  | nil => exact hp
  | cons row rows ih =>
    obtain ⟨hshape, hholds⟩ := hrows row (mem_cons_self ..)
    exact ih (fun row' h => hrows row' (mem_cons_of_mem _ h)) (takeRow_ok hd0 hp hshape hholds)

theorem prune_ok (hd : DecodesOk a d) : DecodesOk a d.prune :=
  ⟨hd.source, fun r hr => hd.repairs r (mem_of_mem_filter hr)⟩

/-- Elimination keeps the repairs' equations true. -/
theorem rref_repairRows (hd : DecodesOk a d) (fuel : Nat) :
    ∀ row ∈ rref fuel 0 0 (d.repairs.filterMap (d.repairRow lo (d.unknownIds lo))),
      row.Shape (d.unknownIds lo).length len ∧
        ∀ b, row.Holds (solution a (d.unknownIds lo) b) (pick b) := by
  have hall : ∀ row ∈ d.repairs.filterMap (d.repairRow lo (d.unknownIds lo)),
      row.Shape (d.unknownIds lo).length len ∧
        ∀ b, row.Holds (solution a (d.unknownIds lo) b) (pick b) := by
    intro row hrow
    obtain ⟨r, hr, hrow⟩ := mem_filterMap.mp hrow
    exact repairRow_holds hd hr hrow
  have hsound := fun b => rref_sound fuel 0 0 (fun row h => (hall row h).1)
    (fun row h => (hall row h).2 b)
  exact fun row hrow => ⟨(hsound 0 row hrow).1, fun b => (hsound b row hrow).2⟩

/-- Recovery only ever adds symbols the sender assigned. -/
theorem tryRecover_ok (hd : DecodesOk a d) : DecodesOk a d.tryRecover.1 := by
  have hlive : DecodesOk a { d with repairs := d.liveRepairs (d.highest - d.horizon) } :=
    ⟨hd.source, fun r hr => hd.repairs r (mem_of_mem_filter hr)⟩
  unfold RlcDecoder.tryRecover
  dsimp only
  split
  · exact prune_ok hlive
  · exact prune_ok (foldl_takeRow_ok hlive (rref_repairRows hlive _) hlive)

end

theorem decodesOk_new (a : Assignment len) (horizon : Nat) :
    DecodesOk a ((RlcDecoder.new len).withHorizon horizon) where
  source := nofun
  repairs := nofun

theorem onSource_ok (hd : DecodesOk a d) (hsym : a.symbols.get? id = some sym) :
    DecodesOk a (d.onSource id sym) := by
  refine ⟨?_, hd.repairs⟩
  dsimp only [RlcDecoder.onSource]
  split
  · exact hd.source
  · exact Table.forall_insert hd.source hsym

theorem addRepair_ok (hd : DecodesOk a d) (hr : RepairOk a r) : DecodesOk a (d.addRepair r) := by
  unfold RlcDecoder.addRepair
  split
  · refine ⟨hd.source, fun r' hr' => ?_⟩
    rcases mem_append.mp hr' with hr' | hr'
    · exact hd.repairs r' hr'
    · rw [mem_singleton.mp hr']
      exact hr
  · exact ⟨hd.source, hd.repairs⟩

theorem forgetBelow_ok (hd : DecodesOk a d) (floor : Nat) : DecodesOk a (d.forgetBelow floor) :=
  ⟨fun id sym h => hd.source id sym (Table.get?_retain_some h).2,
    fun r hr => hd.repairs r (mem_of_mem_filter hr)⟩

theorem rebaseTo_ok (d : RlcDecoder) (base : Nat) : DecodesOk a (d.rebaseTo base) where
  source := nofun
  repairs := nofun

/-- Consecutive assigned symbols up to `next`. -/
def Contiguous (a : Assignment len) (next : Nat) (w : List (Nat × List Byte)) : Prop :=
  ∀ (i : Nat) p, w[i]? = some p → p.1 + (w.length - i) = next ∧ a.symbols.get? p.1 = some p.2

variable {w : List (Nat × List Byte)} {next : Nat}

theorem Contiguous.drop (h : Contiguous a next w) (n : Nat) : Contiguous a next (w.drop n) := by
  intro i p hp
  rw [getElem?_drop] at hp
  obtain ⟨hid, hsym⟩ := h _ p hp
  refine ⟨?_, hsym⟩
  rw [length_drop]
  omega

theorem Contiguous.push (h : Contiguous a next w) (ha : a.Extends a')
    (hsym : a'.symbols.get? next = some sym) : Contiguous a' (next + 1) (w ++ [(next, sym)]) := by
  intro i p hp
  rw [length_append, length_singleton]
  rcases lt_trichotomy i w.length with hi | rfl | hi
  · rw [getElem?_append_left hi] at hp
    obtain ⟨hid, hp⟩ := h i p hp
    exact ⟨by omega, ha _ _ hp⟩
  · rw [getElem?_append_right le_rfl, Nat.sub_self] at hp
    cases hp
    exact ⟨by omega, hsym⟩
  · rw [getElem?_eq_none (by simpa using hi)] at hp
    cases hp

/-- The window holds the newest assigned symbols, one id after the other, and no
id at or past the next one is taken. -/
structure EncodesOk (a : Assignment len) (e : RlcEncoder) : Prop where
  symbolLen_eq : e.symbolLen = len
  max_lt : e.windowMax < 2 ^ 16
  window_le : e.window.length ≤ e.windowMax
  dt_le : e.dt ≤ 15
  next_lt : e.nextSourceId < 2 ^ 32
  window : Contiguous a e.nextSourceId e.window
  fresh : ∀ id sym, a.symbols.get? id = some sym → id < e.nextSourceId

variable {e : RlcEncoder}

theorem encodesOk_new {windowMax step dt : Nat} (hmax : windowMax < 2 ^ 16)
    (hnone : ∀ id, a.symbols.get? id = none) : EncodesOk a (new windowMax step dt len) where
  symbolLen_eq := rfl
  max_lt := by
    simp only [RlcEncoder.new]
    omega
  window_le := Nat.zero_le _
  dt_le := min_le_right ..
  next_lt := Nat.two_pow_pos 32
  window := nofun
  fresh := by
    intro id sym h
    rw [hnone id] at h
    cases h

theorem setParams_ok (h : EncodesOk a e) {windowMax step dt : Nat} (hmax : windowMax < 2 ^ 16) :
    EncodesOk a (e.setParams windowMax step dt) where
  __ := h
  max_lt := by
    simp only [setParams, trimWindow]
    omega
  window_le := by
    simp only [setParams, trimWindow, length_drop]
    omega
  dt_le := min_le_right ..
  window := h.window.drop _

theorem setCoding_ok (h : EncodesOk a e) (on : Bool) : EncodesOk a (e.setCoding on) := { h with }

theorem dropWhile_eq_drop {α : Type*} (p : α → Bool) (l : List α) :
    ∃ n, l.dropWhile p = l.drop n := by
  induction l with
  | nil => exact ⟨0, rfl⟩
  | cons x l ih =>
    rw [dropWhile_cons]
    split
    · obtain ⟨n, hn⟩ := ih
      exact ⟨n + 1, hn⟩
    · exact ⟨0, rfl⟩

section
variable (h : EncodesOk a e)
include h

theorem enc_forgetBelow_ok (floor : Nat) : EncodesOk a (e.forgetBelow floor) := by
  obtain ⟨n, hn⟩ := dropWhile_eq_drop (fun p : Nat × List Byte => decide (p.1 < floor)) e.window
  have hle : (e.forgetBelow floor).window.length ≤ e.windowMax := by
    simp only [forgetBelow, hn, length_drop]
    exact (Nat.sub_le _ _).trans h.window_le
  have hwindow : Contiguous a e.nextSourceId (e.forgetBelow floor).window := by
    simp only [forgetBelow, hn]
    exact h.window.drop n
  exact { h with window_le := hle, window := hwindow }

theorem enc_rebaseTo_ok (hbase : e.nextSourceId ≤ base) (hlt : base < 2 ^ 32) :
    EncodesOk a (e.rebaseTo base) where
  __ := h
  window_le := Nat.zero_le _
  next_lt := hlt
  window := nofun
  fresh := fun id sym hsym => lt_of_lt_of_le (h.fresh id sym hsym) hbase

theorem emitRepair_ok : RepairOk a e.emitRepair.2 := by
  have hmax := h.max_lt
  have hle := h.window_le
  have hsize : e.emitRepair.2.windowSize = e.window.length :=
    Nat.mod_eq_of_lt (lt_of_le_of_lt hle hmax)
  have hid : ∀ off p, e.window[off]? = some p → e.emitRepair.2.sourceId off = p.1 := by
    intro off p hp
    have hlt := (List.getElem_of_getElem? hp).1
    have hoff := (h.window off p hp).1
    have hhead := (h.window 0 _ (getElem?_eq_getElem (by omega))).1
    have hfirst : e.emitRepair.2.firstSourceId = (e.window.get ⟨0, by omega⟩).1 := by
      simp only [emitRepair, head?_eq_getElem?,
        getElem?_eq_getElem (show 0 < e.window.length by omega)]
      rfl
    have hnext := h.next_lt
    rw [RepairSymbol.sourceId, hfirst]
    simp only [get_eq_getElem] at *
    omega
  have hcoef : ∀ off, e.emitRepair.2.coefficient off =
      fixedCoef (e.window.length - 1 - off) e.dt := by
    intro off
    have hdt := h.dt_le
    rw [RepairSymbol.coefficient, hsize]
    congr 1
    simp only [RepairSymbol.density, emitRepair, generatorPublishedTaps]
    omega
  refine ⟨by rw [hsize]; omega, fun off hoff => ?_, ?_⟩
  · rw [hsize] at hoff
    have hp := getElem?_eq_getElem hoff
    rw [hid off _ hp]
    exact ⟨_, (h.window off _ hp).2⟩
  rw [hsize]
  change accumulate _ _ _ _ = _
  rw [accumulate_eq_combine, combine, combine, h.symbolLen_eq]
  refine foldl_ext _ _ _ fun out off hoff => ?_
  have hp := getElem?_eq_getElem (mem_range.mp hoff)
  rw [hcoef, hid off _ hp, Assignment.symbol_of_get? (h.window off _ hp).2,
    getD_eq_getElem?_getD, hp]
  rfl

variable {payload : List Byte}

theorem EncodesOk.extends_assign (hlen : payload.length = len) :
    a.Extends (a.assign e.nextSourceId payload hlen) :=
  Assignment.extends_assign fun sym hsym => lt_irrefl _ (h.fresh _ sym hsym)

theorem append_ok (hlen : payload.length = len) (hnext : e.nextSourceId + 1 < 2 ^ 32) :
    EncodesOk (a.assign e.nextSourceId payload hlen) (trimWindow { e with
      nextSourceId := (e.nextSourceId + 1) % 2 ^ 32
      window := e.window ++ [(e.nextSourceId, payload)] }) := by
  rw [Nat.mod_eq_of_lt hnext]
  refine ⟨h.symbolLen_eq, h.max_lt, ?_, h.dt_le, hnext, ?_, ?_⟩
  · simp only [trimWindow, length_drop]
    omega
  · exact (h.window.push (h.extends_assign hlen) (by simp [Assignment.assign])).drop _
  · exact Table.forall_insert (fun id sym hsym => Nat.lt_succ_of_lt (h.fresh id sym hsym))
      (Nat.lt_succ_self _)

theorem EncodesOk.counters (since key : Nat) :
    EncodesOk a { e with sinceLastRepair := since, nextRepairKey := key } :=
  { h with }

end

theorem pushSource_next (e : RlcEncoder) (payload : List Byte) :
    (e.pushSource payload).1.nextSourceId = (e.nextSourceId + 1) % 2 ^ 32 := by
  unfold pushSource
  dsimp only
  split <;> rfl

theorem pushSource_ok (h : EncodesOk a e) (hlen : payload.length = len)
    (hnext : e.nextSourceId + 1 < 2 ^ 32) :
    EncodesOk (a.assign e.nextSourceId payload hlen) (e.pushSource payload).1 ∧
      (e.pushSource payload).2.1 = e.nextSourceId ∧ ∀ r, (e.pushSource payload).2.2 = some r →
        RepairOk (a.assign e.nextSourceId payload hlen) r := by
  have happend := append_ok h hlen hnext
  unfold pushSource
  dsimp only
  split
  · refine ⟨happend.counters 0 _, rfl, fun r hr => ?_⟩
    cases hr
    exact emitRepair_ok (happend.counters 0 _)
  · refine ⟨happend.counters _ _, rfl, fun r hr => ?_⟩
    cases hr

end SubEtha.Rlc
