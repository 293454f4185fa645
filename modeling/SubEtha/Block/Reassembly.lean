import SubEtha.Block.Decoder
import SubEtha.Fec.Recovery
import SubEtha.Lib.Lists

namespace SubEtha.Block
open Decoder List RxBlock Lib RsCode

/-- A sealed block as the wire carries it: `k` equal data shards and, unless it
is a passthrough block, the parity its code computes. -/
structure Coded where
  k : Nat
  r : Nat
  len : Nat
  data : List (List Byte)
  parity : List (List Byte)
  k_pos : 0 < k
  fits : k + r ≤ maxShards
  len_two : itemLenPrefix ≤ len
  data_length : data.length = k
  data_len : ∀ s ∈ data, s.length = len
  parity_eq : r = 0 ∧ parity = [] ∨
    ∃ code, RsCode.new k r = .ok code ∧ parity = code.parityOf data len

namespace Coded

def shards (b : Coded) : List (List Byte) := b.data ++ b.parity

/-- The tower's view of a block: its data shards joined. -/
def info (b : Coded) : List Byte := b.data.flatten

/-- The same data with the parity left out, as tower recovery rebuilds it. -/
def dataOnly (b : Coded) : Coded :=
  { b with r := 0, parity := [], fits := by have := b.fits; omega, parity_eq := .inl ⟨rfl, rfl⟩ }

end Coded

theorem new_dims {k r : Nat} (h : RsCode.new k r = .ok code) :
    code.k = k ∧ code.r = r := by
  unfold RsCode.new at h
  split at h
  · cases h
  · cases h
    exact ⟨rfl, rfl⟩

section
variable (b : Coded)

theorem Coded.len_pos : 0 < b.len := lt_of_lt_of_le two_pos b.len_two

theorem Coded.parity_length : b.parity.length = b.r := by
  rcases b.parity_eq with ⟨hr, hp⟩ | ⟨code, hcode, hp⟩
  · rw [hr, hp]
    rfl
  · rw [hp, parityOf_length, (new_dims hcode).2]

theorem Coded.shards_length : b.shards.length = b.k + b.r := by
  simp [shards, b.data_length, b.parity_length]

theorem Coded.shard_len : ∀ s ∈ b.shards, s.length = b.len := by
  intro s hs
  rcases mem_append.mp hs with hs | hs
  · exact b.data_len s hs
  rcases b.parity_eq with ⟨-, hp⟩ | ⟨code, -, hp⟩
  · rw [hp] at hs
    cases hs
  · rw [hp] at hs
    exact code.mem_codeword_length b.data_len s (mem_append_right _ hs)

theorem Coded.shards_take : b.shards.take b.k = b.data := by
  rw [shards, ← b.data_length, take_left']
  rfl

end

variable {b : Coded} {rx : RxBlock}

theorem Coded.dataOnly_eq (h : b.r = 0) : b.dataOnly = b := by
  have hp : b.parity = [] := length_eq_zero_iff.mp (b.parity_length.trans h)
  obtain ⟨k, r, len, data, parity, _, _, _, _, _, _⟩ := b
  subst h hp
  rfl

/-- A block under reassembly holds only true shards of `b`, the bitmap claims
only shards it holds, and once decoded its data is that of `b`. -/
structure RxExact (b : Coded) (rx : RxBlock) : Prop where
  k_eq : rx.k = b.k
  r_eq : rx.r = b.r
  len_eq : rx.shardLen = b.len
  erasure : Erasure b.shards rx.shards
  held : ∀ i, rx.mask.getLsbD i = true → ∃ v, rx.shards[i]? = some (some v)
  data_of_decoded : rx.decoded = true → rx.shards.take b.k = b.data.map some

theorem rxExact_new (b : Coded) : RxExact b (new b.k b.r b.len) where
  k_eq := rfl
  r_eq := rfl
  len_eq := rfl
  erasure := by
    refine ⟨by simp [RxBlock.new, b.shards_length], ?_⟩
    intro pos v h
    simp only [RxBlock.new, getElem?_replicate] at h
    split at h <;> cases h
  held := by
    intro i h
    simp [RxBlock.new] at h
  data_of_decoded := by
    intro h
    cases h

theorem addShard_frame (rx : RxBlock) (idx : Nat) (payload : List Byte) :
    (rx.addShard idx payload).k = rx.k ∧ (rx.addShard idx payload).r = rx.r ∧
      (rx.addShard idx payload).shardLen = rx.shardLen ∧
      (rx.addShard idx payload).decoded = rx.decoded := by
  unfold addShard
  split <;> exact ⟨rfl, rfl, rfl, rfl⟩

theorem rxExact_addShard (h : RxExact b rx) (hp : b.shards[idx]? = some payload) :
    RxExact b (rx.addShard idx payload) := by
  unfold addShard
  split
  · exact h
  have hidx : idx < rx.shards.length := by
    rw [h.erasure.length_eq]
    exact lt_of_some hp
  refine ⟨h.k_eq, h.r_eq, h.len_eq, ⟨?_, ?_⟩, ?_, ?_⟩
  · simp [h.erasure.length_eq]
  · intro pos v hv
    rcases set_some hv with ⟨rfl, heq⟩ | ⟨-, hv⟩
    · cases heq
      exact hp
    · exact h.erasure.intact pos v hv
  · intro i hi
    by_cases hii : idx = i
    · subst hii
      exact ⟨payload, getElem?_set_self hidx⟩
    rw [getElem?_set_ne hii]
    refine h.held i ?_
    simpa [hii] using hi
  intro hd
  have hdata := h.data_of_decoded hd
  by_cases hk : idx < b.k
  · rw [take_set, hdata]
    have hpd : b.data[idx]? = some payload := by
      rw [← b.shards_take, getElem?_take, if_pos hk]
      exact hp
    apply ext_getElem?
    intro j
    by_cases hij : idx = j
    · subst hij
      rw [getElem?_set_self (by rwa [length_map, b.data_length]), getElem?_map, hpd]
      rfl
    · rw [getElem?_set_ne hij]
  · rw [take_set_of_le (by omega)]
    exact hdata

theorem countP_eq_count (l : Shards) :
    l.countP Option.isSome = Nat.count (fun i => (l.getD i none).isSome = true) l.length := by
  induction l with
  | nil => simp
  | cons s l ih =>
    rw [countP_cons, length_cons, Nat.count_succ', ih]
    simp [getD_eq_getElem?_getD]

theorem RxExact.count_le (h : RxExact b rx) : rx.count ≤ rx.shards.countP Option.isSome := by
  rw [RxBlock.count, countP_eq_count, Nat.count_eq_card_filter_range,
    Nat.count_eq_card_filter_range]
  refine Finset.card_le_card fun i hi => ?_
  obtain ⟨-, hbit⟩ := Finset.mem_filter.mp hi
  obtain ⟨v, hv⟩ := h.held i hbit
  refine Finset.mem_filter.mpr ⟨Finset.mem_range.mpr (lt_of_some hv), ?_⟩
  rw [getD_of_getElem? hv]
  rfl

theorem erasure_filled {shards : Shards} (h : Erasure b.shards shards) :
    Erasure b.shards (b.data.map some ++ shards.drop b.k) := by
  refine ⟨?_, ?_⟩
  · have := h.length_eq
    rw [b.shards_length] at this ⊢
    rw [length_append, length_map, length_drop, b.data_length]
    omega
  intro pos v hv
  rw [getElem?_append, length_map, b.data_length] at hv
  split at hv
  · rename_i hk
    rw [getElem?_map, Option.map_eq_some_iff] at hv
    obtain ⟨w, hw, heq⟩ := hv
    cases heq
    rw [Coded.shards, getElem?_append_left (by rwa [b.data_length]), hw]
  · rename_i hk
    rw [getElem?_drop, Nat.add_sub_cancel' (by omega)] at hv
    exact h.intact pos v hv

theorem held_filled {shards : Shards} {i : Nat} (h : shards[i]? = some (some v)) :
    ∃ v, (b.data.map some ++ shards.drop b.k)[i]? = some (some v) := by
  rw [getElem?_append, length_map, b.data_length]
  split
  · rename_i hk
    exact ⟨b.data.get ⟨i, by rwa [b.data_length]⟩, by simp [b.data_length, hk]⟩
  · exact ⟨v, by rw [getElem?_drop, Nat.add_sub_cancel' (by omega), h]⟩

theorem take_filled (b : Coded) (rest : Shards) :
    (b.data.map some ++ rest).take b.k = b.data.map some := by
  rw [← b.data_length, ← length_map (f := some), take_left]

theorem RxExact.complete_data (h : RxExact b rx) (hr : b.r = 0) (hcount : rx.k ≤ rx.count) :
    (range rx.k).all (fun i => (rx.shards.getD i none).isSome) = true := by
  have hlen : rx.shards.length = b.k := by
    rw [h.erasure.length_eq, b.shards_length, hr, add_zero]
  have hall : rx.shards.countP Option.isSome = rx.shards.length := by
    refine le_antisymm countP_le_length ?_
    rw [hlen, ← h.k_eq]
    exact hcount.trans h.count_le
  rw [all_eq_true]
  intro i hi
  have hi : i < rx.shards.length := by
    rw [hlen, ← h.k_eq]
    exact mem_range.mp hi
  rw [getD_of_getElem? (getElem?_eq_getElem hi)]
  exact countP_eq_length.mp hall _ (getElem_mem hi)

/-- Completing keeps the block exact and decodes it once `k` shards are there. It
never aborts when passthrough blocks are recognised or the block has parity. -/
theorem rxExact_complete (h : RxExact b rx) (passthrough : Bool)
    (hpass : passthrough = true ∨ b.r ≠ 0) :
    ∃ done, rx.complete passthrough = some done ∧ RxExact b done ∧ done.mask = rx.mask ∧
      (done.decoded = false → done.count < done.k) := by
  unfold complete
  split
  · rename_i hcount
    rw [Bool.and_eq_true, decide_eq_true_eq] at hcount
    split
    · rename_i hr
      rw [Bool.and_eq_true, decide_eq_true_eq, h.r_eq] at hr
      split
      · rename_i hall
        refine ⟨_, rfl, { h with data_of_decoded := fun _ => ?_ }, rfl, nofun⟩
        apply ext_getElem?
        intro i
        rw [getElem?_take, getElem?_map]
        split
        · rename_i hi
          have hsome := all_eq_true.mp hall i (mem_range.mpr (by rwa [h.k_eq]))
          have hlt : i < rx.shards.length := by
            rw [h.erasure.length_eq, b.shards_length]
            omega
          obtain ⟨v, hv⟩ := Option.isSome_iff_exists.mp hsome
          have hsv : rx.shards[i]? = some (some v) := by
            rw [getElem?_eq_getElem hlt]
            simpa [hlt] using hv
          have hbv := h.erasure.intact i v hsv
          rw [Coded.shards, getElem?_append_left (by rwa [b.data_length])] at hbv
          rw [hsv, hbv]
          rfl
        · rw [getElem?_eq_none (by rw [b.data_length]; omega)]
          rfl
      · rename_i hall
        exact absurd (h.complete_data hr.2 hcount.2) hall
    · rename_i hr
      rcases b.parity_eq with ⟨hz, -⟩ | ⟨code, hcode, hparity⟩
      · rw [h.r_eq, hz] at hr
        rcases hpass with hpass | hpass
        · simp [hpass] at hr
        · exact absurd hz hpass
      obtain ⟨hk, hcr⟩ := new_dims hcode
      have herase : Erasure (b.data ++ code.parityOf b.data b.len) rx.shards := by
        rw [← hparity]
        exact h.erasure
      have henough : code.k ≤ rx.shards.countP Option.isSome := by
        rw [hk, ← h.k_eq]
        exact hcount.2.trans h.count_le
      have hdec := code.decode_recovers (by rw [b.data_length, hk]) b.len_pos b.data_len herase
        henough
      rw [h.k_eq, h.r_eq, hcode]
      dsimp only
      rw [hdec, hk]
      refine ⟨_, rfl, ⟨rfl, rfl, h.len_eq, erasure_filled h.erasure, ?_, fun _ => take_filled ..⟩,
        rfl, nofun⟩
      intro i hi
      obtain ⟨v, hv⟩ := h.held i hi
      exact held_filled hv
  · rename_i hcount
    refine ⟨rx, rfl, h, rfl, fun hd => ?_⟩
    simpa [hd] using hcount

theorem RxExact.info_eq (h : RxExact b rx) (hd : rx.decoded = true) : rx.info = b.info := by
  rw [info, h.k_eq, h.data_of_decoded hd, Coded.info, flatMap_map]
  exact flatMap_id' ..

def Coded.items (b : Coded) : List Item :=
  b.data.flatMap fun s => ((shardItem s).getD none).toList

theorem blockItems_map_some {data : List (List Byte)} (rest : Shards)
    (h : ∀ s ∈ data, itemLenPrefix ≤ s.length) :
    blockItems data.length (data.map some ++ rest) =
      some (data.flatMap fun s => ((shardItem s).getD none).toList) := by
  induction data with
  | nil => rfl
  | cons s data ih =>
    have hs := h s (mem_cons_self ..)
    obtain ⟨item, hitem⟩ : ∃ item, shardItem s = some item := by
      unfold shardItem
      rw [if_neg (by omega)]
      dsimp only
      split <;> exact ⟨_, rfl⟩
    simp only [length_cons, map_cons, cons_append, blockItems, hitem,
      ih fun t ht => h t (mem_cons_of_mem _ ht), flatMap_cons]
    rfl

end SubEtha.Block
