import Zhenxiang.Lib.Bytes

/-! Bytes laid down in memory, NUL-terminated strings there, and numbers in upper-case digits. -/
namespace Zhenxiang.Lib

/-- The memory m with the bytes l at p. -/
def overlay (m : Buf) (p : Nat) (l : List UInt8) : Buf := fun k =>
  if h : p ≤ k ∧ k < p + l.length then l.get ⟨k - p, by omega⟩ else m k

/-- The string l, of no NUL, is at p with a NUL behind it. -/
structure CString (m : Buf) (p : Nat) (l : List UInt8) : Prop where
  chars : ∀ k (h : k < l.length), m (p + k) = l.get ⟨k, h⟩
  nul : m (p + l.length) = 0
  solid : 0 ∉ l

/-- An upper-case digit in ASCII. -/
def digitChar (d : Nat) : UInt8 := UInt8.ofNat (if d < 10 then 0x30 + d else 0x41 + (d - 10))

/-- The digits of n, the highest first and not 0 unless n is. -/
def numeral (base n : Nat) : List UInt8 :=
  if n = 0 then [digitChar 0] else (base.digits n).reverse.map digitChar

variable {m : Buf} {p k : Nat} {a b c l : List UInt8}

/-! Overlays. -/

@[simp] theorem overlay_nil : overlay m p [] = m := by
  funext k
  exact dif_neg (by simp only [List.length_nil]; omega)

theorem overlay_of_not_mem (h : k < p ∨ p + l.length ≤ k) : overlay m p l k = m k := dif_neg (by omega)

theorem overlay_get (h : k < l.length) : overlay m p l (p + k) = l.get ⟨k, h⟩ := by
  rw [overlay, dif_pos ⟨Nat.le_add_right .., Nat.add_lt_add_left h p⟩]
  congr 2
  exact Nat.add_sub_cancel_left ..

theorem overlay_singleton {v : UInt8} : overlay m p [v] = Function.update m p v := by
  funext k
  rw [Function.update_apply, overlay]
  by_cases here : k = p
  · rw [if_pos here, dif_pos (by simp only [List.length_singleton]; omega), List.get_eq_getElem]
    exact List.getElem_singleton _
  · rw [if_neg here, dif_neg (by simp only [List.length_singleton]; omega)]

/-- The bytes b, laid down behind a, are covered by bytes that follow. -/
theorem overlay_overlay (short : b.length ≤ c.length) :
    overlay (overlay m p (a ++ b)) (p + a.length) c = overlay m p (a ++ c) := by
  funext k
  have whole : (a ++ c).length = a.length + c.length := List.length_append
  have first : (a ++ b).length = a.length + b.length := List.length_append
  rcases Nat.lt_or_ge k p with before | after
  · rw [overlay_of_not_mem (by omega), overlay_of_not_mem (by omega), overlay_of_not_mem (by omega)]
  obtain ⟨i, rfl⟩ := Nat.exists_eq_add_of_le after
  rcases Nat.lt_or_ge i a.length with left | right
  · rw [overlay_of_not_mem (by omega), overlay_get (by omega), overlay_get (by omega)]
    simp only [List.get_eq_getElem, List.getElem_append_left left]
  obtain ⟨j, rfl⟩ := Nat.exists_eq_add_of_le right
  rcases Nat.lt_or_ge j c.length with inside | behind
  · rw [← Nat.add_assoc, overlay_get inside, Nat.add_assoc, overlay_get (by omega)]
    simp only [List.get_eq_getElem, List.getElem_append_right (Nat.le_add_right _ j), Nat.add_sub_cancel_left]
  · rw [overlay_of_not_mem (by omega), overlay_of_not_mem (by omega), overlay_of_not_mem (by omega)]

theorem overlay_append : overlay (overlay m p a) (p + a.length) c = overlay m p (a ++ c) := by
  have all := overlay_overlay (m := m) (p := p) (a := a) (b := []) (c := c) (Nat.zero_le _)
  rwa [List.append_nil] at all

theorem CString.overlay {q : Nat} {t : List UInt8} (h : CString m q t)
    (away : q + t.length < p ∨ p + l.length ≤ q) : CString (overlay m p l) q t where
  chars k hk := by
    rw [overlay_of_not_mem (by omega), h.chars k hk]
  nul := by rw [overlay_of_not_mem (by omega), h.nul]
  solid := h.solid

theorem CString.tail {v : UInt8} (h : CString m p (v :: l)) : CString m (p + 1) l where
  chars k hk := by
    have next := h.chars (k + 1) (Nat.succ_lt_succ hk)
    rwa [show p + 1 + k = p + (k + 1) by omega]
  nul := by
    have last := h.nul
    rwa [show p + 1 + l.length = p + (v :: l).length by simp only [List.length_cons]; omega]
  solid := fun mem => h.solid (List.mem_cons_of_mem _ mem)

/-- The rest of a string is a string. -/
theorem CString.drop (h : CString m p (a ++ l)) : CString m (p + a.length) l := by
  induction a generalizing p with
  | nil => exact h
  | cons v a ih =>
    have rest := ih (CString.tail h)
    rwa [show p + 1 + a.length = p + (v :: a).length by simp only [List.length_cons]; omega] at rest

theorem CString.head {v : UInt8} (h : CString m p (v :: l)) : m p = v ∧ v ≠ 0 :=
  ⟨h.chars 0 (Nat.zero_lt_succ _), fun zero => h.solid (zero ▸ List.mem_cons_self)⟩

theorem CString.first_nil (h : CString m p []) : m p = 0 := h.nul

/-! Numerals. -/

theorem numeral_small {base n : Nat} (h : n < base) : numeral base n = [digitChar n] := by
  rw [numeral]
  by_cases zero : n = 0
  · rw [if_pos zero, zero]
  · rw [if_neg zero, Nat.digits_of_lt base n zero h]
    rfl

/-- The digits above the lowest, then the lowest. -/
theorem numeral_step {base n : Nat} (hb : 1 < base) (h : n / base ≠ 0) :
    numeral base n = numeral base (n / base) ++ [digitChar (n % base)] := by
  have pos : n ≠ 0 := by
    rintro rfl
    exact h (Nat.zero_div base)
  rw [numeral, if_neg pos, numeral, if_neg h, Nat.digits_eq_cons_digits_div hb pos, List.reverse_cons, List.map_append]
  rfl

theorem digitChar_ne_zero {d : Nat} (h : d < 36) : digitChar d ≠ 0 := by
  decide +revert

theorem numeral_solid {base n : Nat} (hb : 1 < base) (small : base ≤ 36) : (0 : UInt8) ∉ numeral base n := by
  rw [numeral]
  split
  · decide
  · intro mem
    obtain ⟨d, digit, zero⟩ := List.mem_map.1 mem
    have bound := Nat.digits_lt_base hb (List.mem_reverse.1 digit)
    exact digitChar_ne_zero (by omega) zero

end Zhenxiang.Lib
