import Mathlib

/-! Words on a stack that grows downwards in memory, four bytes each. -/
namespace Zhenxiang.Lib

/-- The words lie at the address a and after it. -/
def Lies (m : Nat → Nat) (a : Nat) : List Nat → Prop
  | [] => True
  | w :: ws => m a = w ∧ Lies m (a + 4) ws

variable {m n : Nat → Nat} {a b w : Nat} {ws : List Nat}

theorem Lies.congr (h : Lies m a ws) (same : ∀ x, a ≤ x → x < a + 4 * ws.length → n x = m x) :
    Lies n a ws := by
  induction ws generalizing a with
  | nil => trivial
  | cons w ws ih =>
    simp only [List.length_cons] at same
    refine ⟨(same a (Nat.le_refl a) (by omega)).trans h.1, ih h.2 fun x hx hx' => ?_⟩
    exact same x (by omega) (by omega)

/-- Copying the words copies what lies there. -/
theorem Lies.copy (h : Lies m a ws) (same : ∀ k < 4 * ws.length, n (b + k) = m (a + k)) : Lies n b ws := by
  induction ws generalizing a b with
  | nil => trivial
  | cons w ws ih =>
    simp only [List.length_cons] at same
    refine ⟨(same 0 (by omega)).trans h.1, ih h.2 fun k hk => ?_⟩
    rw [Nat.add_assoc, Nat.add_assoc]
    exact same (4 + k) (by omega)

/-- Writing one of the words. -/
theorem Lies.set {i : Nat} (h : Lies m a ws) (hi : i < ws.length) (w : Nat) :
    Lies (Function.update m (a + 4 * i) w) a (ws.set i w) := by
  induction ws generalizing a i with
  | nil => cases hi
  | cons v ws ih =>
    cases i with
    | zero =>
      refine ⟨Function.update_self .., h.2.congr fun x hx _ => ?_⟩
      exact Function.update_of_ne (by omega) ..
    | succ i =>
      have here : a + 4 * (i + 1) = a + 4 + 4 * i := by omega
      rw [here]
      refine ⟨?_, ih h.2 (Nat.lt_of_succ_lt_succ hi)⟩
      exact (Function.update_of_ne (by omega) ..).trans h.1

/-- The stack pointer is a, the words lie there, and b is where the first of them was pushed. -/
structure Pushed (m : Nat → Nat) (a b : Nat) (ws : List Nat) : Prop where
  lies : Lies m a ws
  base : a + 4 * ws.length = b

theorem Pushed.start (m : Nat → Nat) (b : Nat) : Pushed m b b [] := ⟨trivial, rfl⟩

theorem Pushed.push (h : Pushed m a b ws) (w : Nat) (room : 4 * (ws.length + 1) ≤ b) :
    Pushed (Function.update m (a - 4) w) (a - 4) b (w :: ws) := by
  have base := h.base
  have back : a - 4 + 4 = a := by omega
  refine ⟨⟨Function.update_self .., ?_⟩, ?_⟩
  · rw [back]
    apply h.lies.congr
    intro x hx _
    exact Function.update_of_ne (by omega) ..
  · rw [List.length_cons]
    omega

end Zhenxiang.Lib
