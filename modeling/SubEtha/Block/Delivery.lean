import SubEtha.Block.Session

namespace SubEtha.Block
open List Option Lib RsCode Decoder Link Encoder

/-- An item the two-byte length prefix can describe. -/
def Prefixed (item : Item) : Prop := item ≠ [] ∧ item.length < 2 ^ 16

theorem stage_length (item : Item) : (stage item).length = item.length + itemLenPrefix := by
  rw [stage, length_append, add_comm]
  rfl

variable {len k epoch id : Nat} {s : Link} {item : Item} {e : Encoder} {items : List Item}
  {dec : Decoder}

theorem resize_of_le {s : List Byte} (h : s.length ≤ len) :
    resize len s = s ++ replicate (len - s.length) (byte 0) := by
  rw [resize, take_of_length_le h]

/-- What the receiver makes of a staged item: the length prefix wraps, and a
length of 0 is padding. -/
def carried (item : Item) : Option Item :=
  if item.length % 2 ^ 16 = 0 then none else some (item.take (item.length % 2 ^ 16))

theorem carried_of_prefixed (h : Prefixed item) : carried item = some item := by
  obtain ⟨hne, hlt⟩ := h
  have hpos : 0 < item.length := length_pos_iff.mpr hne
  rw [carried, Nat.mod_eq_of_lt hlt, if_neg (Nat.ne_of_gt hpos), take_length]

theorem shardItem_stage (item : Item) (hlen : (stage item).length ≤ len) :
    shardItem (resize len (stage item)) = some (carried item) := by
  have hsl := stage_length item
  have hmod := Nat.mod_le item.length (2 ^ 16)
  rw [shardItem, if_neg (by rw [resize_length]; simp only [itemLenPrefix] at hsl ⊢; omega),
    resize_of_le hlen]
  have hval : byteAt (stage item ++ replicate (len - (stage item).length) (byte 0)) 0 +
      byteAt (stage item ++ replicate (len - (stage item).length) (byte 0)) 1 * 2 ^ 8 =
      item.length % 2 ^ 16 := by
    simp only [stage, leBytes16, byteAt, cons_append, nil_append, getD_cons_zero,
      getD_cons_succ, toNat_byte]
    omega
  have hmin : min (itemLenPrefix + item.length % 2 ^ 16)
      (stage item ++ replicate (len - (stage item).length) (byte 0)).length -
        itemLenPrefix = item.length % 2 ^ 16 := by
    rw [length_append, hsl]
    simp only [itemLenPrefix]
    omega
  dsimp only
  rw [hval, hmin, carried]
  split
  · rename_i hpos
    rw [if_neg (Nat.ne_of_gt hpos), stage, append_assoc,
      drop_left' (by rfl : (leBytes16 (item.length % 2 ^ 16)).length = itemLenPrefix),
      take_append_of_le_length hmod]
  · rw [if_pos (by omega)]

theorem shardItem_pad (h : itemLenPrefix ≤ len) :
    shardItem (replicate len (byte 0)) = some none := by
  obtain ⟨n, rfl⟩ := Nat.exists_eq_add_of_le' h
  rw [shardItem, if_neg (by rw [length_replicate]; omega)]
  simp [byteAt, itemLenPrefix, replicate_succ]

theorem blockShardLen_staged (hoff : e.towerD = 0) :
    ∀ s ∈ e.staged, s.length ≤ e.blockShardLen := by
  intro s hs
  rw [blockShardLen, if_neg (by omega)]
  exact (foldl_max_le _ _).2 _ (mem_map_of_mem hs)

/-- With the tower off a sealed block carries what its prefixes say of the staged items. -/
theorem items_of_dataShards {b : Coded} (hoff : e.towerD = 0) (hlen : itemLenPrefix ≤ e.shardLen)
    (hstaged : e.staged = items.map stage) (hdata : b.data = e.dataShards) :
    b.items = items.filterMap carried := by
  have hbound := blockShardLen_staged hoff
  rw [Coded.items, hdata, dataShards, flatMap_append, hstaged, List.map_map]
  have hpad : (List.replicate (e.k - (items.map stage).length)
      (List.replicate e.blockShardLen (byte 0))).flatMap
        (fun s => ((shardItem s).getD none).toList) = [] := by
    rw [flatMap_eq_nil_iff]
    intro s hs
    rw [eq_of_mem_replicate hs, shardItem_pad (blockShardLen_two hlen)]
    rfl
  rw [hpad, append_nil, flatMap_map]
  rw [hstaged] at hbound
  generalize e.blockShardLen = len at hbound
  clear hpad hstaged hdata
  induction items with
  | nil => rfl
  | cons item items ih =>
    have hitem := shardItem_stage item (hbound _ (mem_cons_self ..))
    rw [flatMap_cons, ih fun s hs => hbound s (mem_cons_of_mem _ hs)]
    dsimp only [Function.comp]
    rw [hitem, getD_some, filterMap_cons]
    cases carried item <;> rfl

/-- The calls the transport is used with when the tower is off. -/
def Allowed (s : Link) : Event → Prop
  | .push item => item ≠ [] ∧ item.length ≤ s.enc.maxItem
  | .enableTower _ _ => False
  | _ => True

/-- No item is too long for its two-byte length prefix. -/
def LengthFits (_ : Link) : Event → Prop
  | .push item => item.length < 2 ^ 16
  | _ => True

/-- The header's one-byte `k` is `k` itself, or one the receiver refuses. -/
def HeaderExact (k : Nat) : Prop := k ≤ maxShards ∨ k % 256 = 0 ∨ maxShards < k % 256
deriving Decidable

instance (s : Link) (ev : Event) : Decidable (Allowed s ev) := by
  cases ev <;> unfold Allowed <;> infer_instance

instance (s : Link) (ev : Event) : Decidable (LengthFits s ev) := by
  cases ev <;> unfold LengthFits <;> infer_instance

/-- Pushed items are those of the sealed blocks followed by the staged ones. -/
structure Delivers (s : Link) : Prop where
  off : s.enc.towerD = 0
  faithful : s.enc.nextBlock ≤ 2 ^ 31 → ∃ w items, Linked w items s ∧
    (∀ item ∈ items, Prefixed item) ∧ s.pushed = w.itemsBelow w.blocks.length ++ items

theorem delivers_init {r maxItem cap : Nat} (hk : 0 < k) (hmax : k ≤ maxShards) :
    Delivers (init k r maxItem epoch cap) where
  off := rfl
  faithful := by
    intro _
    exact ⟨World.start 0, [], linked_init hk hmax 0, by simp, rfl⟩

theorem filterMap_carried (h : ∀ item ∈ items, Prefixed item) :
    items.filterMap carried = items := by
  rw [filterMap_congr fun item hitem => carried_of_prefixed (h item hitem)]
  exact filterMap_some

/-- The sealed block carries the staged items, so nothing is lost on the way. -/
theorem Advances.itemsBelow (h : Advances w items w' items') :
    w'.itemsBelow w'.blocks.length ++ items'.filterMap carried =
      w.itemsBelow w.blocks.length ++ items.filterMap carried := by
  cases h with
  | stay => rfl
  | @sealed e b hoff hlen hstaged hdata =>
    have hlast : (w.blocks ++ [b])[w.blocks.length]? = some b := by simp
    rw [filterMap_nil, append_nil, length_append, length_singleton,
      World.itemsBelow_succ _ hlast, items_of_dataShards hoff hlen hstaged hdata,
      World.itemsBelow_of_isPrefix (w.extends_block b).blocks le_rfl]

theorem Advances.all {items' : List Item} {p : Item → Prop} (h : Advances w items w' items')
    (hitems : ∀ item ∈ items, p item) :
    ∀ item ∈ items', p item := by
  cases h with
  | stay => exact hitems
  | sealed => simp

variable {s' : Link} {ev : Event}

theorem Allowed.turn (h : Allowed s ev) (hoff : s.enc.towerD = 0) (hstep : s.step ev = some s') :
    Turn s ev.pushes s' :=
  step_turn hoff (by cases ev <;> first | exact h | trivial) hstep

theorem delivers_step (h : Delivers s) (hok : Allowed s ev ∧ LengthFits s ev)
    (hstep : s.step ev = some s') : Delivers s' := by
  have hpushes : ∀ item ∈ ev.pushes, Prefixed item := by
    intro item hitem
    cases ev with
    | push i =>
      rw [mem_singleton.mp hitem]
      exact ⟨hok.1.1, hok.2⟩
    | _ => cases hitem
  have hturn := hok.1.turn h.off hstep
  have hcont := hturn.continues h.off
  refine ⟨hcont.off, fun hle => ?_⟩
  obtain ⟨w, items, hlinked, hitems, hpushed⟩ := h.faithful (hcont.next_le.trans hle)
  obtain ⟨w', items', hlinked', hadv, hp⟩ := hlinked.advance h.off hturn hle
  have hall : ∀ item ∈ items ++ ev.pushes, Prefixed item := by
    intro item hitem
    exact (mem_append.mp hitem).elim (hitems item) (hpushes item)
  have hitems' := hadv.all hall
  have heq := hadv.itemsBelow
  rw [filterMap_carried hall, filterMap_carried hitems'] at heq
  refine ⟨w', items', hlinked', hitems', ?_⟩
  simp [hp, heq, hpushed]

theorem Delivers.delivered_isPrefix (h : Delivers s) (hle : s.enc.nextBlock ≤ 2 ^ 31) :
    s.delivered <+: s.pushed := by
  obtain ⟨w, items, hlinked, -, hpushed⟩ := h.faithful hle
  rw [hlinked.delivered_eq, hpushed]
  refine List.IsPrefix.trans ?_ (prefix_append _ _)
  obtain ⟨t, ht⟩ := take_prefix_take_left (l := w.blocks) hlinked.tracks.next_le
  rw [World.itemsBelow, World.itemsBelow, ← ht, flatMap_append]
  exact prefix_append _ _

/-- Every header names a `k` the receiver refuses, so nothing is delivered. -/
structure Refuses (s : Link) : Prop where
  off : s.enc.towerD = 0
  header : s.enc.k % 256 = 0 ∨ maxShards < s.enc.k % 256
  pending : ∀ id pb, s.enc.pending.get? id = some pb → pb.k = s.enc.k % 256
  wire : ∀ buf ∈ s.wire, ∃ h, parseHeader buf = some h ∧ h.k = s.enc.k % 256
  nothing : s.delivered = []

theorem parse_k {pb : PendingBlock} (h : pb.k = k % 256) (blockId idx flags epoch : Nat) :
    ∃ hd, parseHeader (pb.datagramFlagged blockId idx flags epoch) = some hd ∧ hd.k = k % 256 :=
  ⟨_, parseHeader_datagram .., by dsimp only; rw [h, Nat.mod_mod]⟩

theorem Refuses.sent (h : Refuses s) {enc : Encoder} (hoff : e.towerD = 0) (hk : e.k = s.enc.k)
    (hpending : e.pending = s.enc.pending) (hseal : e.sealShards = some (enc, out))
    (pushed : List Item) : Refuses { s.sent enc out with pushed := pushed } := by
  obtain ⟨pb, hpb, he, ho⟩ := sealShards_some hseal
  have hheld : ∀ id pb', enc.pending.get? id = some pb' → pb'.k = s.enc.k % 256 := by
    rw [he]
    exact Table.forall_insert (hpending ▸ h.pending) (by rw [hpb, hk])
  have hout : ∀ buf ∈ out, ∃ hd, parseHeader buf = some hd ∧ hd.k = s.enc.k % 256 := by
    intro buf hbuf
    rw [ho] at hbuf
    obtain ⟨i, -, rfl⟩ := mem_map.mp hbuf
    exact parse_k (hpb.trans (by rw [hk])) ..
  obtain ⟨hoff', hk'⟩ : enc.towerD = 0 ∧ s.enc.k = enc.k := by
    rw [he]
    exact ⟨hoff, hk.symm⟩
  have hheader := h.header
  have hwire := fun buf hbuf => (mem_append.mp hbuf).elim (h.wire buf) (hout buf)
  rw [hk'] at hheader hheld hwire
  exact ⟨hoff', hheader, hheld, hwire, h.nothing⟩

theorem ingest_refused (dec : Decoder) (hparse : parseHeader buf = some h)
    (hk : h.k = 0 ∨ maxShards < h.k) : ∃ dec', dec.ingest buf = some (dec', []) := by
  unfold ingest
  rw [hparse]
  dsimp only
  split
  · exact ⟨_, rfl⟩
  · rw [if_pos (by omega)]
    exact ⟨_, rfl⟩

theorem Refuses.turn (h : Refuses s) (ht : Turn s pushes s') : Refuses s' := by
  cases ht with
  | sealed _ hseal =>
    refine h.sent ?_ ?_ ?_ hseal _
    exacts [h.off, rfl, rfl]
  | staged => exact { h with wire := by simpa [Link.sent] using h.wire }
  | parity r => exact { h with }
  | quiet hq =>
    cases hq with
    | resent hheld hwire =>
      refine { h with
        pending := fun id pb hpb => h.pending id pb (hheld id pb hpb)
        wire := fun buf hbuf => (mem_append.mp hbuf).elim (h.wire buf) fun hbuf => ?_ }
      obtain ⟨id, pb, idx, flags, hpb, -, rfl⟩ := hwire buf hbuf
      exact parse_k (h.pending id pb hpb) ..
    | took hbuf hrun =>
      obtain ⟨hd, hparse, hk⟩ := h.wire _ hbuf
      obtain ⟨dec', hrun'⟩ := ingest_refused s.dec hparse (by rw [hk]; exact h.header)
      cases hrun.symm.trans hrun'
      exact { h with nothing := by simp [h.nothing] }
    | idle => exact h

theorem refuses_init {r maxItem cap : Nat} (hk : k % 256 = 0 ∨ maxShards < k % 256) :
    Refuses (init k r maxItem epoch cap) where
  off := rfl
  header := hk
  pending := nofun
  wire := nofun
  nothing := rfl

/-- In every run of pushes, flushes, parity changes and resends with the tower
off, over a network that loses, repeats and reorders, what the receiver has
delivered is a prefix of what was pushed: as long as every item's length fits
its prefix and `k` survives the header's byte. -/
theorem delivered_isPrefix_pushed {k r maxItem epoch cap : Nat} {events : List Event} {s : Link}
    (hk : HeaderExact k) (hallowed : EveryStep step Allowed (init k r maxItem epoch cap) events)
    (hfits : EveryStep step LengthFits (init k r maxItem epoch cap) events)
    (hrun : run step (init k r maxItem epoch cap) events = some s)
    (hblocks : s.enc.nextBlock ≤ 2 ^ 31) : s.delivered <+: s.pushed := by
  have hrefused (hbad : k % 256 = 0 ∨ maxShards < k % 256) : s.delivered <+: s.pushed := by
    have h := run_invariant (fun _ _ _ h hok hstep => h.turn (hok.turn h.off hstep)) (refuses_init hbad)
      hallowed hrun
    rw [h.nothing]
    exact nil_prefix
  rcases hk with hk | hk
  · rcases Nat.eq_zero_or_pos k with rfl | hpos
    · exact hrefused (.inl rfl)
    have h := run_invariant  (fun _ _ _ => delivers_step)
      (delivers_init hpos hk) (hallowed.and hfits) hrun
    exact h.delivered_isPrefix hblocks
  · exact hrefused hk

/-- Two blocks whose shards arrive out of order, one of them twice. -/
def reordered : List Event :=
  [.push [byte 1], .push [byte 2], .push [byte 3], .flush,
    .deliver 3, .deliver 1, .deliver 1, .deliver 0, .deliver 2]

theorem delivered_isPrefix_pushed_reordered : ∃ s, run step (init 2 0 4 7 16) reordered = some s ∧
      s.delivered = [[byte 1], [byte 2], [byte 3]] ∧ s.delivered <+: s.pushed := by
  have hallowed : EveryStep step Allowed (init 2 0 4 7 16) reordered := by
    decide +kernel
  have hfits : EveryStep step LengthFits (init 2 0 4 7 16) reordered := by
    decide +kernel
  have hlast : (run step (init 2 0 4 7 16) reordered).map
      (fun s => (s.enc.nextBlock, s.delivered)) = some (2, [[byte 1], [byte 2], [byte 3]]) := by
    decide +kernel
  obtain ⟨s, hrun, heq⟩ := map_eq_some_iff.mp hlast
  obtain ⟨hblocks, hdelivered⟩ := Prod.mk.inj heq
  exact ⟨s, hrun, hdelivered, delivered_isPrefix_pushed (by decide) hallowed hfits hrun (by omega)⟩

theorem push_single (hoff : e.towerD = 0) (hk : e.k = 1) (hr : e.r = 0) (hstaged : e.staged = [])
    (item : Item) : e.push item = some ({ e with
        nextBlock := e.nextBlock + 1
        pending := e.pending.insert e.nextBlock ⟨1, 0, [stage item]⟩ },
      [PendingBlock.datagram ⟨1, 0, [stage item]⟩ e.nextBlock 0 e.epoch]) := by
  have hlen : ({ e with staged := [stage item] } : Encoder).blockShardLen =
      (stage item).length := by
    simp [blockShardLen, hoff, stage_length]
  have hdata : ({ e with staged := [stage item] } : Encoder).dataShards = [stage item] := by
    rw [dataShards, hlen]
    simp [hk, resize_of_le]
  rw [push_off hoff, hstaged, nil_append, if_pos (by rw [hk]; rfl), sealShards,
    blockParity, if_pos hr, hdata]
  simp [hk, hr]

theorem drainLoop_stop (dec : Decoder) (fuel : Nat) (hd : dec.towerD = 0)
    (h : dec.window.get? dec.nextDeliver = none) : drainLoop fuel dec = some (dec, []) := by
  cases fuel with
  | zero => rfl
  | succ fuel => simp [drainLoop, h, tryTowerRecover, recoverInfo, hd]

structure Awaits (dec : Decoder) (id epoch : Nat) : Prop where
  next : dec.nextDeliver = id
  session : dec.sessionEpoch = none ∨ dec.sessionEpoch = some (epoch % 2 ^ 32)
  off : dec.towerD = 0
  cap : 0 < dec.cap32
  empty : ∀ id, dec.window.get? id = none

theorem complete_single (shard : List Byte) :
    ((RxBlock.new 1 0 shard.length).addShard 0 shard).complete true =
      some ⟨1, 0, shard.length, BitVec.twoPow 32 0, [some shard], true⟩ := by
  have hcount : ¬Nat.count (fun i => 0 = i) 32 = 0 := by decide +kernel
  simp [RxBlock.complete, RxBlock.new, RxBlock.addShard, RxBlock.count, hcount]

theorem drainInOrder_single {item : Option Item} (hnext : dec.nextDeliver = id) (hid : id < 2 ^ 31)
    (hoff : dec.towerD = 0)
    (hhead : dec.window.get? id = some ⟨1, 0, len, mask, [some shard], true⟩)
    (hrest : ∀ id', id' ≠ id → dec.window.get? id' = none) (hitem : shardItem shard = some item) :
    dec.drainInOrder = some (trim { dec with
      window := dec.window.erase id, nextDeliver := id + 1 }, item.toList) := by
  have hlow : ¬2 ^ 32 ≤ id + 1 := by omega
  have hstop := drainLoop_stop { dec with window := dec.window.erase id, nextDeliver := id + 1 }
    (2 ^ 33 - 1) hoff (by simpa using hrest (id + 1) (by simp))
  have hitems : blockItems 1 [some shard] = some item.toList := by
    simp [blockItems, hitem]
  rw [drainInOrder, show drainFuel = 2 ^ 33 - 1 + 1 from rfl, drainLoop]
  simp only [hnext, hhead, hitems, if_neg hlow, hstop, if_true, map_some, append_nil]

section
variable {item : Option Item} (h : Awaits dec id epoch) (hid : id < 2 ^ 31)
  (hitem : shardItem shard = some item)
include h hid hitem

theorem acceptShard_single :
    ∃ dec', dec.acceptShard ⟨id, 0, 1, 0, epoch % 2 ^ 32, shard⟩ = some (dec', item.toList) ∧
      dec'.sessionEpoch = dec.sessionEpoch ∧ dec'.nextDeliver = id + 1 ∧ dec'.towerD = 0 ∧
      dec'.windowCap = dec.windowCap ∧ ∀ id, dec'.window.get? id = none := by
  have hsame : ¬(shard.length ≠ shard.length ∨ (1 : Nat) ≠ 1 ∨ (0 : Nat) ≠ 0) := by simp
  have hfresh : ((RxBlock.new 1 0 shard.length).addShard 0 shard).decoded = false := by
    simp [RxBlock.new, RxBlock.addShard]
  have hnew : (RxBlock.new 1 0 shard.length).shardLen = shard.length ∧
      (RxBlock.new 1 0 shard.length).k = 1 ∧ (RxBlock.new 1 0 shard.length).r = 0 := ⟨rfl, rfl, rfl⟩
  simp only [acceptShard, h.empty id, getD_none, hnew, if_neg hsame,
    complete_single, hfresh, Bool.not_false, Bool.and_true, if_true]
  refine ⟨_, drainInOrder_single h.next hid h.off
    (by rw [Table.get?_insert, if_pos rfl]) ?_ hitem, ?_⟩
  · intro id' hne
    simp [hne, h.empty id']
  simp only [trim, h.off, lt_irrefl, if_false, Table.get?_erase, Table.get?_insert,
    h.empty, true_and]
  intro id'
  split <;> simp_all

theorem ingest_single : ∃ dec', dec.ingest (PendingBlock.datagram ⟨1, 0, [shard]⟩ id 0 epoch) =
        some (dec', item.toList) ∧ Awaits dec' (id + 1) epoch := by
  have hmod : id % 2 ^ 32 = id := by omega
  have hopen : ¬(dec.sessionEpoch ≠ none ∧ dec.sessionEpoch ≠ some (epoch % 2 ^ 32)) := by
    rcases h.session with hs | hs <;> simp [hs]
  have hbit : ¬outerIdBit ≤ id := by simp only [outerIdBit]; omega
  have hgates : ¬((1 : Nat) = 0 ∨ 1 + 0 > maxShards ∨ 0 ≥ 1 + 0) := by decide
  let hd : Header := ⟨id, 0, 1, 0, epoch % 2 ^ 32, shard⟩
  let dec1 := learnInner { dec with sessionEpoch := some (epoch % 2 ^ 32) } hd
  have hdec1 : Awaits dec1 id epoch ∧ dec1.sessionEpoch = some (epoch % 2 ^ 32) := by
    simp only [dec1, learnInner]
    split <;> exact ⟨{ h with session := .inr rfl }, rfl⟩
  obtain ⟨dec', haccept, hsession, hnext, hoff, hcap', hempty⟩ :=
    acceptShard_single hdec1.1 hid hitem
  refine ⟨dec', ?_, hnext, .inr (hsession.trans hdec1.2), hoff, ?_, hempty⟩
  · rw [ingest, PendingBlock.datagram, parseHeader_datagram]
    simp only [hmod, if_neg hopen, Nat.reduceMod, if_neg hgates, if_neg hbit, getD_cons_zero]
    rw [ingestData]
    have h1 := hdec1.1.next
    have h2 : ¬ id < dec1.nextDeliver := by omega
    have h3 : ¬ min (dec1.nextDeliver + dec1.cap32) (2 ^ 32 - 1) ≤ id := by
      have := hdec1.1.cap
      omega
    exact (if_neg h2).trans ((if_neg h3).trans haccept)
  · have := hdec1.1.cap
    simpa [cap32, hcap'] using this

end

theorem shardItem_long (h : item.length = 2 ^ 16) : shardItem (stage item) = some none := by
  simp [shardItem, stage, h, leBytes16, itemLenPrefix, byteAt, toNat_byte]

theorem long_item_run (hitem : item.length = 2 ^ 16) : ∃ s, run step (init 1 0 (2 ^ 16) 7 16)
        [.push item, .push [byte 1], .deliver 0, .deliver 1] = some s ∧
      s.enc.nextBlock = 2 ∧ s.delivered = [[byte 1]] ∧ s.pushed = [item, [byte 1]] := by
  have hsecond : shardItem (stage [byte 1]) = some (some [byte 1]) := by decide
  have hwait : Awaits (withWindow 16) 0 7 := ⟨rfl, .inl rfl, rfl, by decide, fun _ => rfl⟩
  obtain ⟨dec, hskip, hwait⟩ := ingest_single hwait (by decide) (shardItem_long hitem)
  obtain ⟨dec', htake, -⟩ := ingest_single hwait (by decide) hsecond
  simp only [run, step, init, bind_eq_bind, sent]
  rw [push_single rfl rfl rfl rfl]
  dsimp only [bind_some]
  rw [push_single rfl rfl rfl rfl]
  simp only [bind_some, nil_append, cons_append, getElem?_cons_zero,
    getElem?_cons_succ, onPacket, Encoder.new, hskip, htake, toList_none, toList_some, zero_add]
  exact ⟨_, rfl, rfl, rfl, rfl⟩

/-- An item of `2^16` bytes, within the item limit, is taken for padding and skipped. -/
theorem long_item_skipped : ∃ events s, EveryStep step Allowed (init 1 0 (2 ^ 16) 7 16) events ∧
      run step (init 1 0 (2 ^ 16) 7 16) events = some s ∧
      s.enc.nextBlock ≤ 2 ^ 31 ∧ ¬s.delivered <+: s.pushed := by
  obtain ⟨item, hitem⟩ : ∃ item : Item, item.length = 2 ^ 16 :=
    ⟨replicate (2 ^ 16) (byte 0), length_replicate⟩
  obtain ⟨s, hrun, hblocks, hdelivered, hpushed⟩ := long_item_run hitem
  refine ⟨_, s, ?_, hrun, by omega, ?_⟩
  · have hne : item ≠ [] := by
      rintro rfl
      simp at hitem
    refine ⟨⟨hne, by rw [hitem]; decide⟩, fun s1 hs1 => ⟨⟨by decide, ?_⟩, ?_⟩⟩
    · have hpush := push_single (e := new 1 0 (2 ^ 16) 7) rfl rfl rfl rfl item
      simp only [step, init, hpush, bind_eq_bind, bind_some] at hs1
      cases hs1
      exact (by decide : 1 ≤ 2 ^ 16 + itemLenPrefix - itemLenPrefix)
    · exact fun _ _ => ⟨trivial, fun _ _ => ⟨trivial, fun _ _ => trivial⟩⟩
  · rw [hdelivered, hpushed]
    intro h
    obtain ⟨rfl, -⟩ := cons_prefix_cons.mp h
    simp at hitem

end SubEtha.Block
