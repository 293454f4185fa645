import SubEtha.Block.Arq
import SubEtha.Block.Delivery

namespace SubEtha.Block
open Option List Lib Link

namespace Link

def hand (s : Link) (buf : Datagram) : Option Link :=
  (s.dec.onPacket buf).map fun (dec, items) =>
    { s with dec := dec, delivered := s.delivered ++ items }

/-- A call over a lossless channel: what it sends arrives, in order. -/
def carry (s : Link) (ev : Event) : Option Link :=
  (s.step ev).bind fun s' => run hand s' (s'.wire.drop s.wire.length)

end Link

/-- What the receiver delivers of `items` pushed and flushed over a lossless channel. -/
def rsDelivers (k r maxItem epoch windowCap : Nat) (items : List Item) : Option (List Item) :=
  (run Link.carry (Link.init k r maxItem epoch windowCap) (items.map .push ++ [.flush])).map
    Link.delivered

variable {epoch : Nat}

section
variable {s : Link}

theorem hand_eq_deliver (h : s.wire[n]? = some buf) : s.hand buf = s.step (.deliver n) := by
  rw [step, h, hand]
  dsimp only
  cases s.dec.onPacket buf <;> rfl

theorem hand_all (h : Linked w items s) (hbufs : ∀ buf ∈ bufs, buf ∈ s.wire)
    (htake : s.dec.takeAll bufs = some dec') :
    ∃ delivered, run hand s bufs = some { s with dec := dec', delivered := delivered } ∧
      Linked w items { s with dec := dec', delivered := delivered } ∧
      dec'.windowCap = s.dec.windowCap := by
  induction bufs generalizing s with
  | nil =>
    cases htake
    exact ⟨s.delivered, rfl, h, rfl⟩
  | cons buf bufs ih =>
    obtain ⟨dec1, hfirst, hrest⟩ := bind_eq_some_iff.mp htake
    obtain ⟨⟨dec1', out⟩, hingest, rfl⟩ := map_eq_some_iff.mp hfirst
    have hhand : s.hand buf = some { s with dec := dec1', delivered := s.delivered ++ out } := by
      rw [hand, hingest]
      rfl
    obtain ⟨n, hn⟩ := mem_iff_getElem?.mp (hbufs buf (mem_cons_self ..))
    have hlinked := (h.quiet (quiet_step ((hand_eq_deliver hn).symm.trans hhand) trivial)).1
    obtain ⟨delivered, hrun, hlinked', hcap⟩ :=
      ih hlinked (fun b hb => hbufs b (mem_cons_of_mem _ hb)) hrest
    exact ⟨delivered, by rw [run, hhand]; exact hrun, hlinked', hcap.trans (ingest_next hingest).2⟩

/-- A receiver at the last sealed block that takes all its shards passes it. -/
theorem takeAll_block (h : Linked w items s) (hwait : Waiting w (epoch % 2 ^ 32) s.dec)
    (hcap : s.dec.cap32 ≠ 0) (hlast : s.dec.nextDeliver + 1 = w.blocks.length)
    (hpb : s.enc.pending.get? s.dec.nextDeliver = some pb) :
    ∃ dec', s.dec.takeAll ((range (pb.k + pb.r)).map fun i =>
        pb.datagram s.dec.nextDeliver i epoch) = some dec' ∧
      Waiting w (epoch % 2 ^ 32) dec' ∧ s.dec.nextDeliver < dec'.nextDeliver := by
  obtain ⟨b, hb, hholds⟩ := h.sends.pending _ pb hpb
  have hfits := h.fits
  have hshard : ∀ i < b.k + b.r, ShardAt b s.dec.nextDeliver (epoch % 2 ^ 32) i
      (pb.datagram s.dec.nextDeliver i epoch) := fun i hi =>
    shardAt_datagram hholds (by omega) hi 0 epoch
  have hbufs : ∀ buf ∈ (range (b.k + b.r)).map fun i =>
      pb.datagram s.dec.nextDeliver i epoch,
      ∃ idx, ShardAt b s.dec.nextDeliver (epoch % 2 ^ 32) idx buf := by
    intro buf hbuf
    obtain ⟨i, hi, rfl⟩ := mem_map.mp hbuf
    exact ⟨i, hshard i (mem_range.mp hi)⟩
  rw [hholds.k_eq, hholds.r_eq]
  obtain ⟨dec', htake, hwait', hle, hcover⟩ :=
    takeAll_head h.tower h.fits hb h.tracks hwait hcap le_rfl hbufs
  refine ⟨dec', htake, hwait', lt_of_le_of_ne hle fun heq => ?_⟩
  have hgot := (hcover heq.symm).2
  refine hwait'.lacks (by rw [← heq]; exact hb) fun i hi => ?_
  rw [← heq]
  exact hgot i _ (mem_map.mpr ⟨i, mem_range.mpr hi, rfl⟩) (hshard i hi)

end

section
variable {cap : Nat} {w : World} {items : List Item} {s : Link}

/-- Everything sealed has been delivered; `items` are staged. -/
structure CaughtUp (cap : Nat) (w : World) (items : List Item) (s : Link) : Prop where
  linked : Linked w items s
  waiting : Waiting w (s.enc.epoch % 2 ^ 32) s.dec
  next_eq : s.dec.nextDeliver = w.blocks.length
  off : s.enc.towerD = 0
  cap_eq : s.dec.windowCap = cap

theorem caughtUp_init (hk : 0 < k) (hmax : k ≤ maxShards) :
    CaughtUp (max cap 1) (World.start 0) [] (init k r maxItem epoch cap) where
  linked := linked_init hk hmax 0
  waiting := waiting_init _ _ cap
  next_eq := rfl
  off := rfl
  cap_eq := rfl

/-- A block sealed from the staged items and handed over is delivered. -/
theorem CaughtUp.seal (h : CaughtUp cap w items s) (hcap : cap % 2 ^ 32 ≠ 0)
    (hsends : Sends w e items') (hoff : e.towerD = 0) (hk : e.k = s.enc.k)
    (hepoch : e.epoch = s.enc.epoch) (pushed : List Item) (hlt : w.blocks.length < 2 ^ 31) :
    ∃ e' out w' s', e.sealShards = some (e', out) ∧
      run hand { s.sent e' out with pushed := pushed } out = some s' ∧
      CaughtUp cap w' [] s' ∧ Advances w items' w' [] ∧
      w'.blocks.length = w.blocks.length + 1 ∧ s'.pushed = pushed ∧ s'.enc.k = s.enc.k := by
  obtain ⟨b, pb, -, -, -, -, hholds, hseal⟩ := sealShards_spec hsends.k_pos hsends.fits
    hsends.len_two (by rw [hsends.staged_eq, length_map]; exact hsends.staged_le)
  obtain ⟨b', hlinked, hadv⟩ := h.linked.seal hsends hoff hk pushed hseal (by
    rw [hsends.next_eq]; exact hlt)
  have hnext : e.nextBlock = s.dec.nextDeliver := hsends.next_eq.trans h.next_eq.symm
  have hlen : (w.blocks ++ [b']).length = w.blocks.length + 1 := length_append ..
  have hpending : (e.pending.insert e.nextBlock pb).get? s.dec.nextDeliver = some pb := by
    rw [Table.get?_insert, if_pos hnext.symm]
  obtain ⟨dec', htake, hwait, hpast⟩ := takeAll_block hlinked
    (h.waiting.mono (w.extends_block b')) (by rw [Decoder.cap32]; exact h.cap_eq ▸ hcap)
    (by rw [hlen, ← h.next_eq]; rfl) hpending
  rw [hholds.k_eq, hholds.r_eq] at htake
  rw [hnext, hepoch] at hseal hlinked
  obtain ⟨delivered, hrun, hlinked', hcap'⟩ := hand_all hlinked
    (fun buf hbuf => mem_append_right _ hbuf) htake
  refine ⟨_, _, _, _, hseal, hrun, ⟨hlinked', ?_, ?_, hoff, hcap'.trans h.cap_eq⟩, hadv, hlen, rfl,
    hk⟩
  · exact hwait
  have hle := hlinked'.tracks.next_le
  dsimp only [sent] at hle hpast ⊢
  rw [hlen, ← h.next_eq] at hle ⊢
  omega

theorem carry_eq (hstep : s.step ev = some s1) (hwire : s1.wire = s.wire ++ out)
    (hrun : run hand s1 out = some s') : s.carry ev = some s' := by
  simp [carry, hstep, hwire, hrun]

theorem carry_idle (hstep : s.step ev = some s') (hwire : s'.wire = s.wire ++ []) :
    s.carry ev = some s' :=
  carry_eq hstep hwire rfl

theorem CaughtUp.push (h : CaughtUp cap w items s) (hcap : cap % 2 ^ 32 ≠ 0)
    (hlt : w.blocks.length < 2 ^ 31) (item : Item) :
    ∃ w' items' s', s.carry (.push item) = some s' ∧ CaughtUp cap w' items' s' ∧
      Advances w (items ++ [item]) w' items' ∧ s'.enc.k = s.enc.k ∧
      w'.blocks.length * s.enc.k + items'.length =
        w.blocks.length * s.enc.k + items.length + 1 := by
  have hlast : (items ++ [item]).length ≤ s.enc.k := by simpa using h.linked.staged_lt
  have hsends : Sends w { s.enc with staged := s.enc.staged ++ [stage item] } (items ++ [item]) :=
    h.linked.sends.stageItems hlast
  have hstaged : s.enc.staged.length = items.length := by
    simp [h.linked.sends.staged_eq]
  by_cases hfull : items.length + 1 = s.enc.k
  · obtain ⟨e', out, w', s', hseal, hrun, hc, hadv, hlen, -, hk⟩ :=
      h.seal hcap hsends h.off rfl rfl (s.pushed ++ [item]) hlt
    refine ⟨w', [], s', carry_eq ?_ rfl hrun, hc, hadv, hk, ?_⟩
    · rw [step, push_off h.off, if_pos (by rw [hstaged]; exact hfull), hseal]
      rfl
    · rw [hlen, Nat.succ_mul, ← hfull]
      rfl
  · have hroom := lt_of_le_of_ne hlast (by simpa using hfull)
    have hlinked := h.linked.stageItems hroom (s.pushed ++ [item])
    refine ⟨w, items ++ [item], _, carry_idle ?_ rfl, { h with linked := hlinked }, .stay, rfl, ?_⟩
    · rw [step, push_off h.off, if_neg (by rw [hstaged]; exact hfull)]
      rfl
    · simp [add_assoc]

theorem CaughtUp.flush (h : CaughtUp cap w items s) (hcap : cap % 2 ^ 32 ≠ 0)
    (hlt : items ≠ [] → w.blocks.length < 2 ^ 31) :
    ∃ w' s', s.carry .flush = some s' ∧ CaughtUp cap w' [] s' ∧ Advances w items w' [] := by
  by_cases hnone : items = []
  · subst hnone
    refine ⟨w, s.sent s.enc [], carry_idle ?_ rfl, { h with linked := ?_ }, .stay⟩
    · rw [step, flush_off h.off, if_pos (by rw [h.linked.sends.staged_eq]; rfl)]
      rfl
    · exact h.linked.sent (.refl w) h.linked.tower h.linked.sends h.linked.staged_lt (by simp)
        h.linked.fits (by simp [h.linked.sends.pending_next])
  · obtain ⟨e', out, w', s', hseal, hrun, hc, hadv, -⟩ :=
      h.seal hcap h.linked.sends h.off rfl rfl s.pushed (hlt hnone)
    refine ⟨w', s', carry_eq ?_ rfl hrun, hc, hadv⟩
    rw [step, flush_off h.off, if_neg (by
      rw [h.linked.sends.staged_eq, map_eq_nil_iff]; exact hnone), hseal]
    rfl

theorem CaughtUp.delivered_eq (h : CaughtUp cap w [] s) :
    s.delivered = w.itemsBelow w.blocks.length ++ ([] : List Item).filterMap carried := by
  simp [h.linked.delivered_eq, h.next_eq, filterMap_nil]

/-- All items pushed and flushed arrive, each as its length prefix says. -/
theorem CaughtUp.all (h : CaughtUp cap w items s) (hcap : cap % 2 ^ 32 ≠ 0) (more : List Item)
    (hcount : w.blocks.length * s.enc.k + items.length + more.length ≤ 2 ^ 31 * s.enc.k) :
    ∃ s', run carry s (more.map .push ++ [.flush]) = some s' ∧ s'.delivered =
        w.itemsBelow w.blocks.length ++ (items.filterMap carried ++ more.filterMap carried) := by
  induction more generalizing w items s with
  | nil =>
    have hlt : items ≠ [] → w.blocks.length < 2 ^ 31 := by
      intro hne
      have hpos := length_pos_iff.mpr hne
      refine Nat.lt_of_mul_lt_mul_right (a := s.enc.k) ?_
      rw [length_nil] at hcount
      omega
    obtain ⟨w', s', hcarry, hc, hadv⟩ := h.flush hcap hlt
    refine ⟨s', ?_, ?_⟩
    · rw [map_nil, nil_append, run, hcarry]
      rfl
    · rw [hc.delivered_eq, hadv.itemsBelow, filterMap_nil, append_nil]
  | cons item more ih =>
    rw [length_cons] at hcount
    have hlt : w.blocks.length < 2 ^ 31 := Nat.lt_of_mul_lt_mul_right (a := s.enc.k) (by omega)
    obtain ⟨w', items', s1, hcarry, hc, hadv, hk, hsize⟩ := h.push hcap hlt item
    obtain ⟨s', hrun, hdelivered⟩ := ih hc (by rw [hk, hsize]; omega)
    refine ⟨s', ?_, ?_⟩
    · rw [map_cons, cons_append, run, hcarry]
      exact hrun
    · rw [hdelivered, ← append_assoc, hadv.itemsBelow, filterMap_append,
        ← append_assoc, append_assoc, append_assoc, ← filterMap_append]
      rfl

end

/-- Over a lossless channel the block code delivers each pushed item up to its
wrapped length, and none whose length wraps to 0. -/
theorem rsDelivers_eq (hk : 0 < k) (hmax : k ≤ maxShards) (hcap : max cap 1 % 2 ^ 32 ≠ 0)
    (hcount : items.length ≤ 2 ^ 31 * k) :
    rsDelivers k r maxItem epoch cap items = some (items.filterMap carried) := by
  obtain ⟨s, hrun, hdelivered⟩ := (caughtUp_init hk hmax).all hcap items
    (s := init k r maxItem epoch cap) (by simpa [World.start, init, Encoder.new] using hcount)
  rw [rsDelivers, hrun, map_some, hdelivered]
  rfl

end SubEtha.Block
