import Zhenxiang.Kernel.List

/-! The lists in memory as the sequences they hold: every function of list.c does to one of them what
its name says and leaves the others as they are. -/
namespace Zhenxiang.Kernel
open Lib

/-- The sequence of each list, by the address of the list. -/
abbrev Lists := Nat → Option (List Nat)

inductive ListOp where
  | push (elem : Nat)
  | append (elem : Nat)
  | insertBefore (before elem : Nat)
  | remove (elem : Nat)
  | pop
  | find (elem : Nat)
  | len
  deriving DecidableEq, Repr

inductive Answer where
  | done
  | elem (x : Nat)
  | found (b : Bool)
  | length (n : UInt32)
  deriving DecidableEq, Repr

namespace ListOp

/-- The node that is put into the list. -/
def node : ListOp → Option Nat
  | .push e | .append e | .insertBefore _ e => some e
  | .remove _ | .pop | .find _ | .len => none

/-- What the caller sees to. -/
def Proper (plist : Nat) (xs : List Nat) : ListOp → Prop
  | .insertBefore b _ => b ∈ xs ∨ b = tailOf plist
  | .remove e => e ∈ xs
  | .pop => xs ≠ []
  | .push _ | .append _ | .find _ | .len => True

def act (xs : List Nat) : ListOp → List Nat
  | .push e => e :: xs
  | .append e => xs ++ [e]
  | .insertBefore b e => xs.takeWhile (· ≠ b) ++ e :: xs.dropWhile (· ≠ b)
  | .remove e => xs.erase e
  | .pop => xs.tail
  | .find _ | .len => xs

def Answers (xs : List Nat) : ListOp → Answer → Prop
  | .pop, r => ∃ x, xs.head? = some x ∧ r = .elem x
  | .find e, r => r = .found (e ∈ xs)
  | .len, r => ∃ n, n.toNat = xs.length ∧ r = .length n
  | .push _, r | .append _, r | .insertBefore _ _, r | .remove _, r => r = .done

/-- The call of list.c. -/
def perform (plist : Nat) : ListOp → Kern Mem Answer
  | .push e => (fun _ => .done) <$> listPush plist e
  | .append e => (fun _ => .done) <$> listAppend plist e
  | .insertBefore b e => (fun _ => .done) <$> listInsertBefore b e
  | .remove e => (fun _ => .done) <$> listRemove e
  | .pop => .elem <$> listPop plist
  | .find e => .found <$> elemFind plist e
  | .len => .length <$> listLen plist

end ListOp

/-- Every list is linked up, its nodes lie in the 32-bit address space, and no two lists share memory. -/
structure Holds (m : Mem) (lists : Lists) : Prop where
  list : ∀ {p xs}, lists p = some xs → IsList m p xs
  bound : ∀ {p xs}, lists p = some xs → ∀ x ∈ nodes p xs, x + 8 ≤ 2 ^ 32
  apart : ∀ {p q xs ys}, p ≠ q → lists p = some xs → lists q = some ys → ∀ x ∈ nodes p xs, ∀ y ∈ nodes q ys, Apart x y

/-- The node e is in no list. -/
structure Unlinked (lists : Lists) (e : Nat) : Prop where
  bound : e + 8 ≤ 2 ^ 32
  apart : ∀ {p xs}, lists p = some xs → ∀ x ∈ nodes p xs, Apart x e

variable {m t : Mem} {lists : Lists} {plist : Nat} {xs ys : List Nat} {op : ListOp}

/-- The words a call may change: those of the list and of the node it is given. -/
def touched (plist : Nat) (xs : List Nat) (op : ListOp) : List Nat := op.node.toList ++ nodes plist xs

/-- Nodes of one list, and nodes that are in none. -/
structure Free (lists : Lists) (plist : Nat) (ns : List Nat) : Prop where
  bound : ∀ x ∈ ns, x + 8 ≤ 2 ^ 32
  apart : ∀ {q zs}, q ≠ plist → lists q = some zs → ∀ x ∈ nodes q zs, ∀ y ∈ ns, Apart x y

theorem touched_free (h : Holds m lists) (at_list : lists plist = some xs) (fresh : ∀ e ∈ op.node, Unlinked lists e) :
    Free lists plist (touched plist xs op) := by
  refine ⟨fun x hx => ?_, fun {q zs} other at_other x hx y hy => ?_⟩
  · rcases List.mem_append.1 hx with new | old
    · exact (fresh x (Option.mem_toList.1 new)).bound
    · exact h.bound at_list x old
  · rcases List.mem_append.1 hy with new | old
    · exact (fresh y (Option.mem_toList.1 new)).apart at_other x hx
    · exact h.apart other at_other at_list x hx y old

/-- A call that links up one list out of such nodes keeps the rest. -/
theorem holds_update {ns : List Nat} (h : Holds m lists) (free : Free lists plist ns) (list : IsList t plist ys)
    (sub : ∀ x ∈ nodes plist ys, x ∈ ns) (frame : ∀ x, Outside ns x → t x = m x) :
    Holds t (Function.update lists plist (some ys)) := by
  refine ⟨fun {p zs} at_p => ?_, fun {p zs} at_p x hx => ?_, fun {p q zs ws} apart at_p at_q x hx y hy => ?_⟩
  · rcases eq_or_ne p plist with rfl | other
    · rw [Function.update_self] at at_p
      exact Option.some.inj at_p ▸ list
    · rw [Function.update_of_ne other] at at_p
      refine (h.list at_p).congr fun x hx y low high => frame y fun z hz => ?_
      have away := free.apart other at_p x hx z hz
      unfold Apart at away
      omega
  · rcases eq_or_ne p plist with rfl | other
    · rw [Function.update_self] at at_p
      exact free.bound x (sub x (Option.some.inj at_p ▸ hx))
    · rw [Function.update_of_ne other] at at_p
      exact h.bound at_p x hx
  · rcases eq_or_ne p plist with rfl | left
    · rw [Function.update_self] at at_p
      rw [Function.update_of_ne apart.symm] at at_q
      exact apart_symm (free.apart apart.symm at_q y hy x (sub x (Option.some.inj at_p ▸ hx)))
    · rw [Function.update_of_ne left] at at_p
      rcases eq_or_ne q plist with rfl | right
      · rw [Function.update_self] at at_q
        exact free.apart left at_p x hx y (sub y (Option.some.inj at_q ▸ hy))
      · rw [Function.update_of_ne right] at at_q
        exact h.apart apart at_p at_q x hx y hy

/-- A list of nodes apart from each other is shorter than the address space. -/
theorem Holds.short (h : Holds m lists) (at_list : lists plist = some xs) : xs.length < 2 ^ 32 := by
  have nodup := nodup_of_apart (h.list at_list).apart
  have inside : (nodes plist xs).toFinset ⊆ Finset.range (2 ^ 32) := fun x hx =>
    Finset.mem_range.2 (by have := h.bound at_list x (List.mem_toFinset.1 hx); omega)
  have card := Finset.card_le_card inside
  rw [List.toFinset_card_of_nodup nodup, Finset.card_range, nodes, List.length_append, List.length_cons] at card
  omega

theorem insert_point (h : IsList m plist xs) {b : Nat} (proper : b ∈ xs ∨ b = tailOf plist) :
    (xs.dropWhile (· ≠ b) ++ [tailOf plist]).head? = some b := by
  by_cases mem : b ∈ xs
  · cases rest : xs.dropWhile (· ≠ b) with
    | nil =>
      have all := List.dropWhile_eq_nil_iff.1 rest b mem
      simp at all
    | cons c cs =>
      have stops := List.head?_dropWhile_not (· ≠ b) xs
      rw [rest] at stops
      simpa using stops
  · rcases proper with here | rfl
    · exact absurd here mem
    · have none_left : xs.dropWhile (· ≠ tailOf plist) = [] := by
        rw [List.dropWhile_eq_nil_iff]
        intro x hx
        have other : x ≠ tailOf plist := fun eq => h.tail_not_mem (eq ▸ hx)
        simpa using other
      rw [none_left]
      rfl

/-- Each call does to the sequence what its name says, answers what the sequence tells, and changes no word
outside of its list and its node; the other lists stay as they are. -/
theorem list_refines (h : Holds m lists) (at_list : lists plist = some xs) (proper : op.Proper plist xs)
    (fresh : ∀ e ∈ op.node, Unlinked lists e) :
    Succeeds (op.perform plist) (fun r t => op.Answers xs r ∧ Holds t (Function.update lists plist (some (op.act xs))) ∧
      ∀ x, Outside (touched plist xs op) x → t x = m x) m := by
  have list := h.list at_list
  have free := touched_free h at_list fresh
  have apart {e : Nat} (new : op.node = some e) : ∀ x ∈ nodes plist xs, Apart x e := (fresh e new).apart at_list
  cases op with
  | push e =>
    rw [ListOp.perform, Succeeds, wp_map]
    apply wp_post (listPush_spec list (apart rfl))
    rintro - t ⟨list', frame⟩
    refine ⟨rfl, holds_update h free list' ?_ frame, frame⟩
    intro x hx
    simp only [nodes, touched, ListOp.node, ListOp.act, Option.toList_some] at hx ⊢
    grind
  | append e =>
    rw [ListOp.perform, Succeeds, wp_map]
    apply wp_post (listAppend_spec list (apart rfl))
    rintro - t ⟨list', frame⟩
    refine ⟨rfl, holds_update h free list' ?_ frame, frame⟩
    intro x hx
    simp only [nodes, touched, ListOp.node, ListOp.act, Option.toList_some] at hx ⊢
    grind
  | insertBefore b e =>
    have split : xs.takeWhile (· ≠ b) ++ xs.dropWhile (· ≠ b) = xs := List.takeWhile_append_dropWhile
    have spec := @insert_spec m plist b e (xs.takeWhile (· ≠ b)) (xs.dropWhile (· ≠ b))
    rw [split] at spec
    rw [ListOp.perform, Succeeds, wp_map]
    apply wp_post (spec list (insert_point list proper) (apart rfl))
    rintro - t ⟨list', frame⟩
    refine ⟨rfl, holds_update h free list' ?_ frame, frame⟩
    intro x hx
    rw [touched, ListOp.node, Option.toList_some, nodes, ← split]
    simp only [nodes, ListOp.act] at hx
    grind
  | remove e =>
    obtain ⟨l, r, -, whole, erased⟩ := List.exists_erase_eq (show e ∈ xs from proper)
    have fewer : ∀ x ∈ nodes plist (l ++ r), x ∈ nodes plist xs := by
      intro x hx
      rw [whole]
      simp only [nodes] at hx ⊢
      grind
    rw [ListOp.perform, Succeeds, wp_map]
    apply wp_post (listRemove_spec (whole ▸ list))
    rintro - t ⟨list', frame⟩
    have kept : ∀ x, Outside (touched plist xs (.remove e)) x → t x = m x :=
      fun x out => frame x fun y hy => out y (fewer y hy)
    refine ⟨rfl, ?_, kept⟩
    rw [ListOp.act, erased]
    exact holds_update h free list' fewer kept
  | pop =>
    cases xs with
    | nil => exact (proper rfl).elim
    | cons x xs =>
      have fewer : ∀ y ∈ nodes plist xs, y ∈ nodes plist (x :: xs) := by
        intro y hy
        simp only [nodes] at hy ⊢
        grind
      rw [ListOp.perform, Succeeds, wp_map]
      apply wp_post (listPop_spec list)
      rintro first t ⟨answer, list', frame⟩
      have kept : ∀ y, Outside (touched plist (x :: xs) .pop) y → t y = m y :=
        fun y out => frame y fun z hz => out z (fewer z hz)
      exact ⟨⟨x, rfl, congrArg _ answer⟩, holds_update h free list' fewer kept, kept⟩
  | find e =>
    rw [ListOp.perform, Succeeds, wp_map]
    apply wp_post (elemFind_spec list (h.short at_list))
    rintro found t ⟨tells, rfl⟩
    refine ⟨congrArg _ (by rw [Bool.eq_iff_iff, tells, decide_eq_true_iff]), ?_, fun _ _ => rfl⟩
    rw [ListOp.act, ← at_list, Function.update_eq_self]
    exact h
  | len =>
    rw [ListOp.perform, Succeeds, wp_map]
    apply wp_post (listLen_spec list (h.short at_list))
    rintro n t ⟨tells, rfl⟩
    refine ⟨⟨n, tells, rfl⟩, ?_, fun _ _ => rfl⟩
    rw [ListOp.act, ← at_list, Function.update_eq_self]
    exact h

/-- The list at 16 holds the node 40, and the list at 56 the nodes 80 and 96. -/
def twoListsMem : Mem := fun x =>
  match x with
  | 20 | 24 => 40
  | 40 => 16
  | 44 => 24
  | 60 | 96 => 80
  | 80 => 56
  | 84 | 64 => 96
  | 100 => 64
  | _ => 0

def twoLists : Lists := fun p => if p = 16 then some [40] else if p = 56 then some [80, 96] else none

theorem twoLists_cases {p : Nat} {xs : List Nat} (at_p : twoLists p = some xs) :
    (p = 16 ∧ xs = [40]) ∨ (p = 56 ∧ xs = [80, 96]) := by
  unfold twoLists at at_p
  split at at_p
  · next here => exact .inl ⟨here, (Option.some.inj at_p).symm⟩
  · split at at_p
    · next here => exact .inr ⟨here, (Option.some.inj at_p).symm⟩
    · cases at_p

theorem twoLists_holds : Holds twoListsMem twoLists := by
  refine ⟨fun {p xs} at_p => ?_, fun {p xs} at_p => ?_, fun {p q xs ys} other at_p at_q => ?_⟩
  · rcases twoLists_cases at_p with ⟨rfl, rfl⟩ | ⟨rfl, rfl⟩
    · constructor <;> simp [nodes, links, Links.Chain, Links.Joined, tailOf, Apart, twoListsMem, nextOf]
    · constructor <;> simp [nodes, links, Links.Chain, Links.Joined, tailOf, Apart, twoListsMem, nextOf]
  · rcases twoLists_cases at_p with ⟨rfl, rfl⟩ | ⟨rfl, rfl⟩ <;> decide
  · rcases twoLists_cases at_p with ⟨rfl, rfl⟩ | ⟨rfl, rfl⟩ <;> rcases twoLists_cases at_q with ⟨rfl, rfl⟩ | ⟨rfl, rfl⟩
    · exact absurd rfl other
    · decide
    · decide
    · exact absurd rfl other

/-- 120 goes to the front of the first list, and the second one stays. -/
theorem list_refines_push : Succeeds ((ListOp.push 120).perform 16) (fun r t => (ListOp.push 120).Answers [40] r ∧
    Holds t (Function.update twoLists 16 (some [120, 40])) ∧
    ∀ x, Outside (touched 16 [40] (.push 120)) x → t x = twoListsMem x) twoListsMem := by
  refine list_refines twoLists_holds rfl trivial fun e mem => ?_
  obtain rfl : 120 = e := Option.some.inj mem
  refine ⟨by decide, fun {p xs} at_p => ?_⟩
  rcases twoLists_cases at_p with ⟨rfl, rfl⟩ | ⟨rfl, rfl⟩ <;> decide

/-- list_init makes an empty list of two nodes that are in no list. -/
theorem init_refines {list : Nat} (h : Holds m lists) (head : Unlinked lists list) (tail : Unlinked lists (tailOf list)) :
    Succeeds (listInit list) (fun _ t => Holds t (Function.update lists list (some [])) ∧
      ∀ x, Outside (nodes list []) x → t x = m x) m := by
  apply wp_post listInit_spec
  rintro - t ⟨empty, frame⟩
  have kept : ∀ x, Outside (nodes list []) x → t x = m x := by
    intro x out
    have front := out list List.mem_cons_self
    have back := out (tailOf list) (List.mem_cons_of_mem _ List.mem_cons_self)
    unfold tailOf at back
    exact frame x (by omega)
  have both {P : Nat → Prop} (first : P list) (second : P (tailOf list)) : ∀ x ∈ nodes list [], P x := by
    intro x hx
    rcases List.mem_cons.1 hx with rfl | hx
    · exact first
    · exact List.mem_singleton.1 hx ▸ second
  have free : Free lists list (nodes list []) :=
    ⟨both head.bound tail.bound, fun _ at_q x hx => both (head.apart at_q x hx) (tail.apart at_q x hx)⟩
  exact ⟨holds_update h free empty (fun _ hx => hx) kept, kept⟩

/-! Whole runs. -/

/-- A run of calls on lists, each with the sequences it finds. -/
inductive Runs : Lists → List (Nat × ListOp) → Lists → Prop where
  | nil (lists : Lists) : Runs lists [] lists
  | cons {lists after : Lists} {plist : Nat} {op : ListOp} {xs : List Nat} {calls : List (Nat × ListOp)}
      (at_list : lists plist = some xs) (proper : op.Proper plist xs) (fresh : ∀ e ∈ op.node, Unlinked lists e)
      (rest : Runs (Function.update lists plist (some (op.act xs))) calls after) : Runs lists ((plist, op) :: calls) after

/-- The calls one after the other. -/
def performAll : List (Nat × ListOp) → Kern Mem Unit
  | [] => pure ()
  | (plist, op) :: calls => do
    let _ ← op.perform plist
    performAll calls

theorem lists_refine {after : Lists} {calls : List (Nat × ListOp)} (h : Holds m lists) (run : Runs lists calls after) :
    Succeeds (performAll calls) (fun _ t => Holds t after) m := by
  induction run generalizing m with
  | nil lists => exact (wp_pure _).2 h
  | cons at_list proper fresh rest ih =>
    rw [performAll, Succeeds, wp_bind]
    apply wp_post (list_refines h at_list proper fresh)
    rintro r t ⟨-, holds, -⟩
    exact ih holds

end Zhenxiang.Kernel
