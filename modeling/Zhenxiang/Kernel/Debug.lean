import Zhenxiang.Lib.Prog

/-! How a function of the kernel can fail to return. panic_spin disables
interrupts and loops, so nothing runs after a failed ASSERT or a PANIC. What sys_free
asserts of the address is told apart from the other assertions. -/
namespace Zhenxiang.Kernel
open Lib

inductive Fault where
  | assertion
  | heapAssertion
  | undefined
  | diverges
  deriving DecidableEq, Repr

abbrev Kern (σ α : Type) := Prog Fault σ α

variable {σ : Type}

/-- The macro ASSERT of debug.h. -/
def assert (p : Prop) [Decidable p] : Kern σ Unit := check p .assertion

@[simp] theorem wp_assert {p : Prop} [Decidable p] {Q : Unit → σ → Prop} {E : Fault → Prop}
    {s : σ} : wp (assert p) Q E s ↔ (p → Q () s) ∧ (¬ p → E .assertion) := wp_check

theorem assert_of {p : Prop} [Decidable p] (h : p) : (assert p : Kern σ Unit) = pure () := if_pos h

/-- The two values of intr_status in interrupt.h. -/
inductive IntrStatus where
  | off
  | on
  deriving DecidableEq, Repr

/-- PG_SIZE of global.h and K_HEAP_START of memory.c. -/
def pgSize : Nat := 4096
def kHeapStart : Nat := 0xc0100000

end Zhenxiang.Kernel
