import Mathlib

/-! A ring of cells with a position to write at and a position to read from. The cells from the
second up to the first are in use; they are never all in use. -/
namespace Zhenxiang.Lib

variable {α : Type}

def ringNext (size pos : Nat) : Nat := (pos + 1) % size

def ringLength (size head tail : Nat) : Nat := (head + size - tail) % size

/-- The cells in use, the oldest first. -/
def ringContents (size : Nat) (buf : Nat → α) (head tail : Nat) : List α :=
  (List.range (ringLength size head tail)).map fun k => buf ((tail + k) % size)

variable {size head tail : Nat}

theorem ringLength_of_le (ht : tail ≤ head) (hh : head < size) : ringLength size head tail = head - tail := by
  have wrap : head + size - tail = head - tail + size := by omega
  rw [ringLength, wrap, Nat.add_mod_right, Nat.mod_eq_of_lt (by omega)]

theorem ringLength_of_lt (hh : head < tail) (ht : tail < size) :
    ringLength size head tail = head + size - tail := Nat.mod_eq_of_lt (by omega)

theorem ringNext_cases {p : Nat} (hp : p < size) :
    (p + 1 < size ∧ ringNext size p = p + 1) ∨ (p + 1 = size ∧ ringNext size p = 0) := by
  have upto : p + 1 ≤ size := hp
  rcases Nat.eq_or_lt_of_le upto with last | inside
  · exact Or.inr ⟨last, by rw [ringNext, last, Nat.mod_self]⟩
  · exact Or.inl ⟨inside, Nat.mod_eq_of_lt inside⟩

theorem ringLength_lt (pos : 0 < size) : ringLength size head tail < size := Nat.mod_lt _ pos

theorem ringLength_zero (hh : head < size) (ht : tail < size) :
    ringLength size head tail = 0 ↔ head = tail := by
  rcases Nat.lt_or_ge head tail with below | above
  · rw [ringLength_of_lt below ht]
    omega
  · rw [ringLength_of_le above hh]
    omega

/-- Writing a cell makes the contents one longer. -/
theorem ringLength_put (hh : head < size) (ht : tail < size) (room : ringNext size head ≠ tail) :
    ringLength size (ringNext size head) tail = ringLength size head tail + 1 := by
  rcases ringNext_cases hh with ⟨inside, next⟩ | ⟨last, next⟩
  · rw [next] at room ⊢
    rcases Nat.lt_or_ge head tail with below | above
    · rw [ringLength_of_lt below ht, ringLength_of_lt (by omega) ht]
      omega
    · rw [ringLength_of_le above hh, ringLength_of_le (by omega) inside]
      omega
  · rw [next] at room ⊢
    rw [ringLength_of_lt (by omega) ht, ringLength_of_le (by omega) hh]
    omega

theorem ringLength_take (hh : head < size) (ht : tail < size) (some_used : head ≠ tail) :
    ringLength size head tail = ringLength size head (ringNext size tail) + 1 := by
  rcases ringNext_cases ht with ⟨inside, next⟩ | ⟨last, next⟩
  · rw [next]
    rcases Nat.lt_or_ge head tail with below | above
    · rw [ringLength_of_lt below ht, ringLength_of_lt (by omega) inside]
      omega
    · rw [ringLength_of_le above hh, ringLength_of_le (by omega) hh]
      omega
  · rw [next, ringLength_of_lt (by omega) ht, ringLength_of_le (Nat.zero_le _) hh]
    omega

/-- The cell behind the last one in use. -/
theorem ring_last (hh : head < size) (ht : tail < size) : (tail + ringLength size head tail) % size = head := by
  rcases Nat.lt_or_ge head tail with below | above
  · have wrap : tail + (head + size - tail) = head + size := by omega
    rw [ringLength_of_lt below ht, wrap, Nat.add_mod_right, Nat.mod_eq_of_lt hh]
  · have back : tail + (head - tail) = head := by omega
    rw [ringLength_of_le above hh, back, Nat.mod_eq_of_lt hh]

theorem ring_index_ne {k : Nat} (hh : head < size) (ht : tail < size) (hk : k < ringLength size head tail) :
    (tail + k) % size ≠ head := by
  have short : ringLength size head tail < size := ringLength_lt (Nat.zero_lt_of_lt hh)
  rcases Nat.lt_or_ge head tail with below | above
  · rw [ringLength_of_lt below ht] at hk
    rcases Nat.lt_or_ge (tail + k) size with inside | wraps
    · rw [Nat.mod_eq_of_lt inside]
      omega
    · rw [Nat.mod_eq_sub_mod wraps, Nat.mod_eq_of_lt (by omega)]
      omega
  · rw [ringLength_of_le above hh] at hk
    rw [Nat.mod_eq_of_lt (by omega)]
    omega

theorem ringContents_put {buf : Nat → α} (hh : head < size) (ht : tail < size) (room : ringNext size head ≠ tail)
    (a : α) : ringContents size (Function.update buf head a) (ringNext size head) tail =
      ringContents size buf head tail ++ [a] := by
  rw [ringContents, ringLength_put hh ht room, List.range_succ, List.map_append, List.map_singleton,
    ring_last hh ht, Function.update_self]
  congr 1
  apply List.map_congr_left
  intro k hk
  exact Function.update_of_ne (ring_index_ne hh ht (List.mem_range.1 hk)) ..

theorem ringContents_take (buf : Nat → α) (hh : head < size) (ht : tail < size) (some_used : head ≠ tail) :
    ringContents size buf head tail = buf tail :: ringContents size buf head (ringNext size tail) := by
  rw [ringContents, ringLength_take hh ht some_used, List.range_succ_eq_map, List.map_cons, List.map_map,
    Nat.add_zero, Nat.mod_eq_of_lt ht]
  congr 1
  apply List.map_congr_left
  intro k _
  simp only [Function.comp, ringNext, Nat.mod_add_mod]
  congr 2
  omega

theorem ringContents_length (buf : Nat → α) : (ringContents size buf head tail).length = ringLength size head tail := by
  rw [ringContents, List.length_map, List.length_range]

end Zhenxiang.Lib
