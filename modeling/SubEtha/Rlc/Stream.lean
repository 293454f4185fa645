import SubEtha.Rlc.Ends

namespace SubEtha.Rlc
open List Lib

section
variable {item : List Byte} {symbolLen : Nat}

section
variable (h : item.length + lenPrefix ≤ symbolLen)
include h

theorem packSymbol_length : (packSymbol item symbolLen).length = symbolLen := by
  simp only [packSymbol, length_append, leBytes_length, length_replicate, lenPrefix] at *
  omega

theorem unpackSymbol_wraps :
    unpackSymbol (packSymbol item symbolLen) = item.take (item.length % 2 ^ 16) := by
  have hsize := packSymbol_length h
  have hmod := Nat.mod_le item.length (2 ^ 16)
  have hread : leAt (packSymbol item symbolLen) 0 lenPrefix = item.length % 2 ^ 16 := by
    rw [packSymbol, leAt_here]
    rfl
  unfold unpackSymbol
  rw [if_neg (by rw [hsize]; omega), hread, hsize, min_eq_left (by omega), drop_take,
    packSymbol, drop_left' (leBytes_length ..), Nat.add_sub_cancel_left,
    take_append_of_le_length hmod]

theorem unpackSymbol_packSymbol (hlen : item.length < 2 ^ 16) :
    unpackSymbol (packSymbol item symbolLen) = item := by
  rw [unpackSymbol_wraps h, Nat.mod_eq_of_lt hlen, take_length]

end
end

/-- The items a sender has given ids, from its first id on. -/
structure Stream (symbolLen : Nat) where
  first : Nat
  items : List (List Byte)
  fits : ∀ item ∈ items, item.length + lenPrefix ≤ symbolLen

namespace Stream

variable {symbolLen : Nat}

section
variable (s : Stream symbolLen)

def next : Nat := s.first + s.items.length

def symbol? (id : Nat) : Option (List Byte) :=
  if s.first ≤ id then (s.items[id - s.first]?).map fun item => packSymbol item symbolLen else none

section
variable {s : Stream symbolLen} {id : Nat} {sym : List Byte} (h : s.symbol? id = some sym)
include h

theorem symbol?_some :
    s.first ≤ id ∧ ∃ item, s.items[id - s.first]? = some item ∧ sym = packSymbol item symbolLen := by
  unfold symbol? at h
  split at h
  · obtain ⟨item, hitem, rfl⟩ := Option.map_eq_some_iff.mp h
    exact ⟨by assumption, item, hitem, rfl⟩
  · cases h

theorem lt_next : id < s.next := by
  obtain ⟨hle, item, hitem, -⟩ := symbol?_some h
  have := (List.getElem_of_getElem? hitem).1
  unfold next
  omega

end

def assignment : Assignment symbolLen where
  symbols := s.symbol?
  len_eq := by
    intro id sym h
    obtain ⟨-, item, hitem, rfl⟩ := symbol?_some h
    exact packSymbol_length (s.fits item (mem_of_getElem? hitem))

theorem get?_assignment (id : Nat) : s.assignment.symbols.get? id = s.symbol? id := rfl

def Sendable (symbolLen : Nat) : Prop := dataHdr + symbolLen ≤ maxDatagram
deriving Decidable

/-- What the network can carry of the stream: nothing, if no frame fits. -/
def heard : Assignment symbolLen :=
  if Sendable symbolLen then s.assignment else ⟨Table.empty, fun _ _ h => by cases h⟩

theorem heard_eq {s : Stream symbolLen} (h : Sendable symbolLen) : s.heard = s.assignment :=
  if_pos h

section
variable {s : Stream symbolLen} {id : Nat} {sym : List Byte}
  (h : s.heard.symbols.get? id = some sym)
include h

theorem symbol?_of_heard : Sendable symbolLen ∧ s.symbol? id = some sym := by
  unfold heard at h
  split at h
  · exact ⟨by assumption, h⟩
  · cases h

theorem unpack_of_heard : s.items[id - s.first]? = some (unpackSymbol sym) := by
  obtain ⟨hsend, hsym⟩ := symbol?_of_heard h
  obtain ⟨-, item, hitem, rfl⟩ := symbol?_some hsym
  have hfits := s.fits item (mem_of_getElem? hitem)
  rw [unpackSymbol_packSymbol hfits, hitem]
  simp only [Sendable, dataHdr, maxDatagram, lenPrefix] at hsend hfits
  omega

end

def push (item : List Byte) (h : item.length + lenPrefix ≤ symbolLen) : Stream symbolLen where
  first := s.first
  items := s.items ++ [item]
  fits := by
    intro x hx
    rcases mem_append.mp hx with hx | hx
    · exact s.fits x hx
    · rw [mem_singleton.mp hx]
      exact h

end

section
variable {s : Stream symbolLen} {item : List Byte}

theorem next_push : (s.push item h).next = s.next + 1 := by
  simp only [next, push, length_append, length_singleton]
  omega

theorem symbol?_push (id : Nat) : (s.push item h).symbol? id =
      if id = s.next then some (packSymbol item symbolLen) else s.symbol? id := by
  unfold symbol? next push
  by_cases hle : s.first ≤ id
  · simp only [if_pos hle, getElem?_append]
    by_cases hlt : id - s.first < s.items.length
    · rw [if_pos hlt, if_neg (by omega)]
    rw [if_neg hlt]
    by_cases hid : id = s.first + s.items.length
    · rw [if_pos hid, hid]
      simp
    · rw [if_neg hid, getElem?_eq_none (by simp; omega), getElem?_eq_none (by omega)]
  · rw [if_neg hle, if_neg (by omega), if_neg hle]

theorem assignment_push : (s.push item h).assignment =
    s.assignment.assign s.next (packSymbol item symbolLen) (packSymbol_length h) :=
  Assignment.ext (funext symbol?_push)

theorem assignment_extends_push : s.assignment.Extends (s.push item h).assignment := by
  rw [assignment_push]
  exact Assignment.extends_assign fun sym hsym => lt_irrefl _ (lt_next hsym)

theorem heard_extends_push : s.heard.Extends (s.push item h).heard := by
  intro id sym hsym
  have hsend := (symbol?_of_heard hsym).1
  rw [heard_eq hsend] at hsym ⊢
  exact assignment_extends_push id sym hsym

end

structure Grows (s s' : Stream symbolLen) : Prop where
  first_eq : s'.first = s.first
  items : s.items <+: s'.items
  heard : s.heard.Extends s'.heard

theorem Grows.refl (s : Stream symbolLen) : Grows s s := ⟨rfl, prefix_rfl, fun _ _ hsym => hsym⟩

theorem Grows.trans (r s t : Stream symbolLen) (h : Grows r s) (h' : Grows s t) : Grows r t :=
  ⟨h'.first_eq.trans h.first_eq, h.items.trans h'.items,
    fun _ _ hsym => h'.heard _ _ (h.heard _ _ hsym)⟩

theorem Grows.push (s : Stream symbolLen) {item : List Byte}
    (h : item.length + lenPrefix ≤ symbolLen) : Grows s (s.push item h) :=
  ⟨rfl, prefix_append .., heard_extends_push⟩

end Stream
end SubEtha.Rlc
