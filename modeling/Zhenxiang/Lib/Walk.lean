import Mathlib.Data.List.Basic

/-! Walks along names, from node to node of a graph. A node leads on or does not, by its kind. -/
namespace Zhenxiang.Lib

variable {ν α κ : Type}

/-- Where a walk ends: at a node, with its kind and the node that names it; at a node that lacks a
name, with the names up to that one; or at a node that does not lead on. -/
inductive Walked (ν α κ : Type) where
  | found (node : ν) (kind : κ) (parent : ν)
  | missing (names : List α) (parent : ν)
  | blocked

/-- The walk from a node reached from its parent by the names done. -/
def walk (look : ν → α → Option (ν × κ)) (leads : κ → Bool) : ν → ν → κ → List α → List α → Walked ν α κ
  | parent, node, kind, _, [] => .found node kind parent
  | _, node, kind, done, name :: rest =>
    if leads kind then
      match look node name with
      | none => .missing (done ++ [name]) node
      | some (next, kind') => walk look leads node next kind' (done ++ [name]) rest
    else
      .blocked

section
variable {look : ν → α → Option (ν × κ)} {leads : κ → Bool} {parent node next : ν} {kind kind' : κ} {done rest : List α}
  {name : α}

theorem walk_lacks (on : leads kind = true) (lacks : look node name = none) :
    walk look leads parent node kind done (name :: rest) = .missing (done ++ [name]) node := by
  rw [walk, if_pos on, lacks]

theorem walk_next (on : leads kind = true) (has : look node name = some (next, kind')) :
    walk look leads parent node kind done (name :: rest) = walk look leads node next kind' (done ++ [name]) rest := by
  rw [walk, if_pos on, has]

theorem walk_stops (off : leads kind = false) :
    walk look leads parent node kind done (name :: rest) = .blocked := by
  rw [walk, off, if_neg Bool.false_ne_true]

/-- Whether a walk is stopped does not depend on how it began. -/
theorem walk_blocked (parent' : ν) (done' : List α) : walk look leads parent node kind done rest = .blocked ↔
    walk look leads parent' node kind done' rest = .blocked := by
  induction rest generalizing parent parent' node kind done done' with
  | nil => exact ⟨nofun, nofun⟩
  | cons name rest ih =>
    cases on : leads kind with
    | false => rw [walk_stops on, walk_stops on]
    | true =>
      cases has : look node name with
      | none =>
        rw [walk_lacks on has, walk_lacks on has]
        exact ⟨nofun, nofun⟩
      | some found =>
        rw [walk_next on has, walk_next on has]
        exact ih node (done' ++ [name])

/-- The missing name comes behind those that have been found. -/
theorem walk_missing {names : List α} (h : walk look leads parent node kind done rest = .missing names next) :
    ∃ more, more ≠ [] ∧ names = done ++ more := by
  induction rest generalizing parent node kind done with
  | nil => cases h
  | cons name rest ih =>
    cases on : leads kind with
    | false =>
      rw [walk_stops on] at h
      cases h
    | true =>
      cases has : look node name with
      | none =>
        rw [walk_lacks on has] at h
        cases h
        exact ⟨[name], List.cons_ne_nil _ _, rfl⟩
      | some found =>
        rw [walk_next on has] at h
        obtain ⟨more, -, rfl⟩ := ih h
        exact ⟨name :: more, List.cons_ne_nil _ _, by rw [List.append_assoc, List.singleton_append]⟩

end

end Zhenxiang.Lib
