import Mathlib

/-! A text terminal of height rows of width cells. Its cursor is always on a cell; where it
would leave the last row, the rows move up by one. -/
namespace Zhenxiang.Lib

structure Terminal (C : Type) (width height : Nat) where
  cursor : Nat
  inside : cursor < width * height
  cell : Fin (width * height) → C

inductive Input (C : Type) where
  | newline
  | backspace
  | glyph (c : C)

namespace Terminal
variable {C : Type} {width height : Nat}

/-- The rows moved up by one, the last one blank. -/
def scrolled (blank : C) (cell : Fin (width * height) → C) : Fin (width * height) → C := fun i =>
  if h : i + width < width * height then cell ⟨i + width, h⟩ else blank

/-- The cursor goes on to a cell or to the first position behind the screen. -/
def moveTo (blank : C) (cell : Fin (width * height) → C) (n : Nat) (some_cell : 0 < width * height)
    (upto : n ≤ width * height) : Terminal C width height :=
  if h : n < width * height then ⟨n, h, cell⟩
  else ⟨n - width, by
    have pos : 0 < width := Nat.pos_of_mul_pos_right some_cell
    omega, scrolled blank cell⟩

theorem next_row_upto (t : Terminal C width height) : (t.cursor / width + 1) * width ≤ width * height := by
  have row : t.cursor / width < height := Nat.div_lt_of_lt_mul t.inside
  rw [Nat.mul_comm]
  exact Nat.mul_le_mul_left width row

def step (blank : C) (t : Terminal C width height) : Input C → Terminal C width height
  | .newline =>
    moveTo blank t.cell ((t.cursor / width + 1) * width) (Nat.zero_lt_of_lt t.inside) t.next_row_upto
  | .backspace =>
    if t.cursor = 0 then t
    else
      have back : t.cursor - 1 < width * height := Nat.lt_of_le_of_lt (Nat.sub_le ..) t.inside
      ⟨t.cursor - 1, back, Function.update t.cell ⟨t.cursor - 1, back⟩ blank⟩
  | .glyph c =>
    moveTo blank (Function.update t.cell ⟨t.cursor, t.inside⟩ c) (t.cursor + 1) (Nat.zero_lt_of_lt t.inside) t.inside

end Terminal

end Zhenxiang.Lib
