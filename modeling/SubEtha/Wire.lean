import SubEtha.Fec.RsCode

namespace SubEtha
open List

abbrev Packet := List Byte

def leBytes : Nat → Nat → List Byte
  | 0, _ => []
  | width + 1, n => byte n :: leBytes width (n / 256)

def leValue : List Byte → Nat
  | [] => 0
  | b :: bs => b.toNat + 256 * leValue bs

def leAt (buf : Packet) (pos width : Nat) : Nat := leValue ((buf.drop pos).take width)

/-- The four-byte ids from position `pos` on, a short rest ignored. -/
def idsFrom (buf : Packet) : Nat → Nat → List Nat
  | 0, _ => []
  | fuel + 1, pos =>
    if pos + 4 ≤ buf.length then leAt buf pos 4 :: idsFrom buf fuel (pos + 4) else []

@[simp] theorem leBytes_length (width n : Nat) : (leBytes width n).length = width := by
  induction width generalizing n with
  | zero => rfl
  | succ width ih => simp [leBytes, ih]

theorem leValue_leBytes (width n : Nat) : leValue (leBytes width n) = n % 256 ^ width := by
  induction width generalizing n with
  | zero => simp [leBytes, leValue, Nat.mod_one]
  | succ width ih =>
    rw [leBytes, leValue, ih, toNat_byte, Nat.pow_succ', Nat.mod_mul]

theorem leValue_lt (bs : List Byte) : leValue bs < 256 ^ bs.length := by
  induction bs with
  | nil => decide
  | cons b bs ih =>
    have hb := b.toNat_lt
    rw [leValue, length_cons, pow_succ]
    omega

theorem leAt_lt (buf : Packet) (pos width : Nat) : leAt buf pos width < 256 ^ width :=
  lt_of_lt_of_le (leValue_lt _) (Nat.pow_le_pow_right (by decide) (length_take_le ..))

theorem leAt_here (width n : Nat) (rest : Packet) :
    leAt (leBytes width n ++ rest) 0 width = n % 256 ^ width := by
  rw [leAt, drop_zero, take_left' (leBytes_length ..), leValue_leBytes]

theorem leAt_skip {width pos : Nat} (h : width ≤ pos) (n v : Nat) (rest : Packet) :
    leAt (leBytes width n ++ rest) pos v = leAt rest (pos - width) v := by
  rw [leAt, drop_append, leBytes_length, drop_of_length_le (by simpa using h), nil_append, leAt]

theorem leAt_cons {pos : Nat} (h : 0 < pos) (b : Byte) (v : Nat) (rest : Packet) :
    leAt (b :: rest) pos v = leAt rest (pos - 1) v := by
  obtain ⟨pos, rfl⟩ := Nat.exists_eq_add_of_lt h
  simp [leAt]

theorem leAt_end (width n : Nat) : leAt (leBytes width n) 0 width = n % 256 ^ width := by
  have := leAt_here width n []
  rwa [append_nil] at this

end SubEtha
