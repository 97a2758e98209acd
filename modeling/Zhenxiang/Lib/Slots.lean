import Mathlib

/-! Collections read off a row of places, each of which holds some items. -/
namespace Zhenxiang.Lib

variable {ι α : Type}

/-- One more item at one place is one more item. -/
theorem flatMap_insert {l : List ι} {f g : ι → List α} {k : ι} {a : α} (nodup : l.Nodup) (mem : k ∈ l)
    (here : (g k).Perm (a :: f k)) (others : ∀ j ∈ l, j ≠ k → g j = f j) :
    (l.flatMap g).Perm (a :: l.flatMap f) := by
  induction l with
  | nil => cases mem
  | cons i l ih =>
    obtain ⟨new, rest⟩ := List.nodup_cons.1 nodup
    rw [List.flatMap_cons, List.flatMap_cons]
    rcases List.mem_cons.1 mem with at_head | behind
    · subst at_head
      have same : l.flatMap g = l.flatMap f := by
        apply List.flatMap_congr
        intro j hj
        exact others j (List.mem_cons_of_mem k hj) fun he => new (he ▸ hj)
      rw [same]
      exact here.append_right _
    · have head : g i = f i := others i List.mem_cons_self fun he => new (he ▸ behind)
      have tail := ih rest behind fun j hj => others j (List.mem_cons_of_mem i hj)
      rw [head]
      exact (tail.append_left _).trans List.perm_middle

/-- Items at the places of the first part only. -/
theorem flatMap_range_first {f g : Nat → List α} {m n : Nat} (first : ∀ k < m, g k = f k)
    (behind : ∀ k, m ≤ k → g k = []) :
    (List.range (m + n)).flatMap f = (List.range (m + n)).flatMap g ++
      (List.range n).flatMap fun k => f (m + k) := by
  have none : (List.range n).flatMap (fun k => g (m + k)) = [] := by
    rw [List.flatMap_eq_nil_iff]
    intro k _
    exact behind (m + k) (Nat.le_add_right m k)
  have same : (List.range m).flatMap g = (List.range m).flatMap f := by
    apply List.flatMap_congr
    intro k hk
    exact first k (List.mem_range.1 hk)
  rw [List.range_add, List.flatMap_append, List.flatMap_append, List.flatMap_map, List.flatMap_map, same, none,
    List.append_nil]

end Zhenxiang.Lib
