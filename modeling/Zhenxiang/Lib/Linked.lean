import Mathlib

/-! Doubly linked lists, given by the two link functions of their nodes. A list is
its nodes in order, sentinels included; splicing a node in or out changes the
links of its neighbours only. -/
namespace Zhenxiang.Lib

structure Links (A : Type) where
  next : A → A
  prev : A → A

namespace Links
variable {A : Type}

/-- Each node points to the other. -/
def Joined (L : Links A) (a b : A) : Prop := L.next a = b ∧ L.prev b = a

def Chain (L : Links A) (l : List A) : Prop := l.IsChain L.Joined

theorem Chain.congr {L M : Links A} {l : List A} (h : L.Chain l)
    (same : ∀ x ∈ l, M.next x = L.next x ∧ M.prev x = L.prev x) : M.Chain l := by
  apply List.IsChain.imp_of_mem_imp _ h
  intro a b ha hb hab
  exact ⟨(same a ha).1.trans hab.1, (same b hb).2.trans hab.2⟩

theorem Chain.joined {L : Links A} {l r : List A} {a b : A} (h : L.Chain (l ++ a :: b :: r)) :
    L.Joined a b :=
  (List.isChain_append_cons_cons.1 h).2.1

section Splice
variable [DecidableEq A]

def join (L : Links A) (a b : A) : Links A where
  next := Function.update L.next a b
  prev := Function.update L.prev b a

theorem join_joined (L : Links A) (a b : A) : (L.join a b).Joined a b := by
  simp [join, Joined]

/-- Taking out the node between a and b. -/
theorem Chain.remove {L : Links A} {l r : List A} {a e b : A}
    (h : L.Chain (l ++ a :: e :: b :: r)) (nodup : (l ++ a :: e :: b :: r).Nodup) :
    (L.join a b).Chain (l ++ a :: b :: r) := by
  obtain ⟨left, hae, rest⟩ := List.isChain_append_cons_cons.1 h
  obtain ⟨heb, right⟩ := List.isChain_cons_cons.1 rest
  apply List.isChain_append_cons_cons.2
  refine ⟨?_, L.join_joined a b, ?_⟩
  · apply List.IsChain.imp_of_mem_imp _ left
    intro x y hx hy hxy
    have hxa : x ≠ a := by
      rintro rfl
      have hey : e = y := hae.1.symm.trans hxy.1
      grind
    have hyb : y ≠ b := by grind
    simpa [join, Joined, hxa, hyb] using hxy
  · apply List.IsChain.imp_of_mem_imp _ right
    intro x y hx hy hxy
    have hyb : y ≠ b := by
      rintro rfl
      have hex : e = x := heb.2.symm.trans hxy.2
      grind
    have hxa : x ≠ a := by grind
    simpa [join, Joined, hxa, hyb] using hxy

/-- Putting a new node between a and b. -/
theorem Chain.insert {L : Links A} {l r : List A} {a e b : A}
    (h : L.Chain (l ++ a :: b :: r)) (nodup : (l ++ a :: e :: b :: r).Nodup) :
    ((L.join a e).join e b).Chain (l ++ a :: e :: b :: r) := by
  obtain ⟨left, hab, right⟩ := List.isChain_append_cons_cons.1 h
  have hae : a ≠ e := by grind
  have hbe : b ≠ e := by grind
  apply List.isChain_append_cons_cons.2
  refine ⟨?_, ?_, List.isChain_cons_cons.2 ⟨join_joined _ e b, ?_⟩⟩
  · apply List.IsChain.imp_of_mem_imp _ left
    intro x y hx hy hxy
    have hxa : x ≠ a := by
      rintro rfl
      have hby : b = y := hab.1.symm.trans hxy.1
      grind
    have hxe : x ≠ e := by grind
    have hye : y ≠ e := by grind
    have hyb : y ≠ b := by grind
    simpa [join, Joined, hxa, hxe, hye, hyb] using hxy
  · simp [join, Joined, hae, hbe.symm]
  · apply List.IsChain.imp_of_mem_imp _ right
    intro x y hx hy hxy
    have hyb : y ≠ b := by
      rintro rfl
      have hax : a = x := hab.2.symm.trans hxy.2
      grind
    have hxa : x ≠ a := by grind
    have hxe : x ≠ e := by grind
    have hye : y ≠ e := by grind
    simpa [join, Joined, hxa, hxe, hye, hyb] using hxy

end Splice

end Links

end Zhenxiang.Lib
