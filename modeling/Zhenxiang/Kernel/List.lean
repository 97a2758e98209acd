import Zhenxiang.Kernel.Debug
import Zhenxiang.Lib.Linked

/-! The intrusive list of list.c. Memory gives the 4-byte word at an address; a
list_elem is the word prev and the word next behind it, and a struct list is its
head followed by its tail. -/
namespace Zhenxiang.Kernel
open Lib

abbrev Mem := Nat → Nat

def load (x : Nat) : Kern Mem Nat := do
  pure ((← get) x)

def store (x v : Nat) : Kern Mem Unit :=
  modify fun m => Function.update m x v

/-- memset with the value 0. -/
def clear (x n : Nat) : Kern Mem Unit :=
  modify fun m y => if x ≤ y ∧ y < x + n then 0 else m y

@[simp] theorem wp_load {x : Nat} {Q : Nat → Mem → Prop} {E : Fault → Prop} {m : Mem} :
    wp (load x) Q E m ↔ Q (m x) m := by
  simp only [load, wp_bind, wp_get, wp_pure]

@[simp] theorem wp_store {x v : Nat} {Q : Unit → Mem → Prop} {E : Fault → Prop} {m : Mem} :
    wp (store x v) Q E m ↔ Q () (Function.update m x v) := wp_modify _

@[simp] theorem wp_clear {x n : Nat} {Q : Unit → Mem → Prop} {E : Fault → Prop} {m : Mem} :
    wp (clear x n) Q E m ↔ Q () (fun y => if x ≤ y ∧ y < x + n then 0 else m y) := wp_modify _

/-- &elem->next. -/
def nextOf (elem : Nat) : Nat := elem + 4

/-- &list->tail. -/
def tailOf (list : Nat) : Nat := list + 8

def listInit (list : Nat) : Kern Mem Unit := do
  store list 0
  store (nextOf list) (tailOf list)
  store (tailOf list) list
  store (nextOf (tailOf list)) 0

def listInsertBefore (before elem : Nat) : Kern Mem Unit := do
  store (nextOf (← load before)) elem
  store elem (← load before)
  store (nextOf elem) before
  store before elem

def listPush (plist elem : Nat) : Kern Mem Unit := do
  listInsertBefore (← load (nextOf plist)) elem

def listAppend (plist elem : Nat) : Kern Mem Unit :=
  listInsertBefore (tailOf plist) elem

def listRemove (pelem : Nat) : Kern Mem Unit := do
  store (nextOf (← load pelem)) (← load (nextOf pelem))
  store (← load (nextOf pelem)) (← load pelem)

def listPop (plist : Nat) : Kern Mem Nat := do
  let elem ← load (nextOf plist)
  listRemove elem
  pure elem

/-- The loop of elem_find. There are 2^32 addresses, so a walk of that many steps
has come round to a node it has seen and does not end. -/
def elemFindFrom (tail objElem : Nat) : Nat → Nat → Kern Mem Bool
  | 0, _ => throw .diverges
  | fuel + 1, elem => do
    if elem = tail then
      pure false
    else if elem = objElem then
      pure true
    else
      elemFindFrom tail objElem fuel (← load (nextOf elem))

def elemFind (plist objElem : Nat) : Kern Mem Bool := do
  elemFindFrom (tailOf plist) objElem (2 ^ 32) (← load (nextOf plist))

/-- The loop of list_len, likewise. -/
def listLenFrom (tail : Nat) : Nat → Nat → UInt32 → Kern Mem UInt32
  | 0, _, _ => throw .diverges
  | fuel + 1, elem, length => do
    if elem = tail then
      pure length
    else
      listLenFrom tail fuel (← load (nextOf elem)) (length + 1)

def listLen (plist : Nat) : Kern Mem UInt32 := do
  listLenFrom (tailOf plist) (2 ^ 32) (← load (nextOf plist)) 0

def listEmpty (plist : Nat) : Kern Mem Bool := do
  pure ((← load (nextOf plist)) == tailOf plist)

/-! What the functions do to a list that is linked up. -/

def links (m : Mem) : Links Nat where
  next x := m (nextOf x)
  prev x := m x

/-- Two list elements have no word in common. -/
def Apart (x y : Nat) : Prop := x + 8 ≤ y ∨ y + 8 ≤ x

instance (x y : Nat) : Decidable (Apart x y) := inferInstanceAs (Decidable (x + 8 ≤ y ∨ y + 8 ≤ x))

/-- The address is in none of the list elements. -/
def Outside (l : List Nat) (x : Nat) : Prop := ∀ y ∈ l, x < y ∨ y + 8 ≤ x

def nodes (plist : Nat) (xs : List Nat) : List Nat := plist :: xs ++ [tailOf plist]

/-- The list at plist holds the elements xs in this order. -/
structure IsList (m : Mem) (plist : Nat) (xs : List Nat) : Prop where
  chain : (links m).Chain (nodes plist xs)
  apart : (nodes plist xs).Pairwise Apart

theorem apart_ne {x y : Nat} (h : Apart x y) : x ≠ y := by
  unfold Apart at h
  omega

theorem apart_symm {x y : Nat} (h : Apart x y) : Apart y x := Or.symm h

instance : Std.Symm Apart := ⟨fun _ _ => apart_symm⟩

theorem nodup_of_apart {l : List Nat} (h : l.Pairwise Apart) : l.Nodup :=
  h.imp apart_ne

/-- A list is read only through the words of its elements. -/
theorem IsList.congr {m m' : Mem} {plist : Nat} {xs : List Nat} (h : IsList m plist xs)
    (same : ∀ x ∈ nodes plist xs, ∀ y, x ≤ y → y < x + 8 → m' y = m y) : IsList m' plist xs where
  chain := h.chain.congr fun x hx =>
    ⟨same x hx (nextOf x) (by unfold nextOf; omega) (by unfold nextOf; omega),
      same x hx x (Nat.le_refl x) (by omega)⟩
  apart := h.apart

/-- Storing the two words that join a and b, as seen by the elements of a list. -/
theorem links_join {m : Mem} {l : List Nat} (apart : l.Pairwise Apart) {a b : Nat} (ha : a ∈ l)
    (hb : b ∈ l) : ∀ x ∈ l,
      (links (Function.update (Function.update m (nextOf a) b) b a)).next x =
        ((links m).join a b).next x ∧
      (links (Function.update (Function.update m (nextOf a) b) b a)).prev x =
        ((links m).join a b).prev x := by
  intro x hx
  have sep : ∀ y ∈ l, x ≠ y → x + 8 ≤ y ∨ y + 8 ≤ x := fun y hy hne => apart.forall hx hy hne
  have hxa := sep a ha
  have hxb := sep b hb
  simp only [links, Links.join, Function.update_apply, nextOf]
  grind

theorem listInit_spec {m : Mem} {list : Nat} :
    Succeeds (listInit list) (fun _ m' => IsList m' list [] ∧
      ∀ x, x < list ∨ list + 16 ≤ x → m' x = m x) m := by
  simp only [listInit, Succeeds, wp_bind, wp_store]
  refine ⟨⟨?_, ?_⟩, ?_⟩
  · apply List.isChain_pair.2
    simp [Links.Joined, links, nextOf, tailOf]
  · simp [nodes, Apart, tailOf]
  · intro x hx
    simp only [Function.update_apply, nextOf, tailOf]
    grind

/-- Inserting before the element b, whose predecessor is a. -/
theorem listInsertBefore_spec {m : Mem} {l r : List Nat} {a b e : Nat}
    (chain : (links m).Chain (l ++ a :: b :: r)) (apart : (l ++ a :: e :: b :: r).Pairwise Apart) :
    Succeeds (listInsertBefore b e) (fun _ m' => (links m').Chain (l ++ a :: e :: b :: r) ∧
      ∀ x, Outside (a :: e :: [b]) x → m' x = m x) m := by
  have hprev : m b = a := chain.joined.2
  have hab : Apart a b := by grind
  have hae : Apart a e := by grind
  have heb : Apart e b := by grind
  unfold Apart at hab hae heb
  simp only [listInsertBefore, Succeeds, wp_bind, wp_load, wp_store, hprev]
  constructor
  · apply (chain.insert (nodup_of_apart apart)).congr
    intro x hx
    have first := links_join (m := m) apart (a := a) (b := e) (by simp) (by simp) x hx
    have second := links_join
      (m := Function.update (Function.update m (nextOf a) e) e a) apart (a := e) (b := b)
      (by simp) (by simp) x hx
    have hbefore : Function.update m (nextOf a) e b = a := by
      rw [Function.update_of_ne (by unfold nextOf; omega)]
      exact hprev
    rw [hbefore]
    simp only [links, Links.join] at first second ⊢
    grind
  · intro x hx
    have ha := hx a (by simp)
    have he := hx e (by simp)
    have hb := hx b (by simp)
    simp only [Function.update_apply, nextOf]
    grind

theorem nodes_append (plist : Nat) (xs ys : List Nat) :
    nodes plist (xs ++ ys) = (plist :: xs) ++ (ys ++ [tailOf plist]) := by
  simp [nodes]

/-- The last element of the list, or its head when there is none. -/
theorem nodes_last (plist : Nat) (xs : List Nat) :
    ∃ l a, nodes plist xs = l ++ [a, tailOf plist] ∧ ∀ ys, nodes plist (xs ++ ys) =
      l ++ a :: (ys ++ [tailOf plist]) := by
  refine ⟨(plist :: xs).dropLast, (plist :: xs).getLast (by simp), ?_, fun ys => ?_⟩
  · rw [show nodes plist xs = (plist :: xs) ++ [tailOf plist] from rfl]
    nth_rewrite 1 [← List.dropLast_append_getLast (l := plist :: xs) (by simp)]
    simp
  · rw [nodes_append]
    nth_rewrite 1 [← List.dropLast_append_getLast (l := plist :: xs) (by simp)]
    simp

/-- What a walk along the list finds behind one of its elements. -/
theorem chain_next {m : Mem} {x tail : Nat} {xs : List Nat} (chain : (links m).Chain (x :: xs ++ [tail])) :
    (xs ++ [tail]).head? = some (m (nextOf x)) ∧ (links m).Chain (xs ++ [tail]) := by
  obtain ⟨y, r, hr⟩ : ∃ y r, xs ++ [tail] = y :: r := List.exists_cons_of_ne_nil (by simp)
  rw [List.cons_append, hr] at chain
  obtain ⟨joined, rest⟩ := List.isChain_cons_cons.1 chain
  rw [hr]
  exact ⟨congrArg some joined.1.symm, rest⟩

theorem IsList.first {m : Mem} {plist : Nat} {xs : List Nat} (h : IsList m plist xs) :
    (xs ++ [tailOf plist]).head? = some (m (nextOf plist)) :=
  (chain_next h.chain).1

/-- Inserting before any element of the list, or before its tail. -/
theorem insert_spec {m : Mem} {plist b e : Nat} {xs ys : List Nat} (h : IsList m plist (xs ++ ys))
    (first : (ys ++ [tailOf plist]).head? = some b) (apart : ∀ x ∈ nodes plist (xs ++ ys), Apart x e) :
    Succeeds (listInsertBefore b e) (fun _ m' => IsList m' plist (xs ++ e :: ys) ∧
      ∀ x, Outside (e :: nodes plist (xs ++ ys)) x → m' x = m x) m := by
  obtain ⟨l, a, -, happ⟩ := nodes_last plist xs
  obtain ⟨r, hr⟩ : ∃ r, ys ++ [tailOf plist] = b :: r := List.head?_eq_some_iff.1 first
  have before : nodes plist (xs ++ ys) = l ++ a :: b :: r := by rw [happ, hr]
  have after : nodes plist (xs ++ e :: ys) = l ++ a :: e :: b :: r := by rw [happ, List.cons_append, hr]
  have all : (nodes plist (xs ++ e :: ys)).Pairwise Apart := by
    have old := h.apart
    rw [before] at old apart
    rw [after]
    have split : l ++ a :: e :: b :: r = (l ++ [a]) ++ e :: b :: r := by simp
    rw [split, List.pairwise_middle apart_symm, List.pairwise_cons]
    have same : (l ++ [a]) ++ b :: r = l ++ a :: b :: r := by simp
    rw [same]
    exact ⟨fun x hx => Or.symm (apart x hx), old⟩
  refine wp_post (listInsertBefore_spec (before ▸ h.chain) (after ▸ all)) ?_
  rintro - m' ⟨chain, frame⟩
  refine ⟨⟨after ▸ chain, all⟩, fun x hx => frame x ?_⟩
  intro y hy
  apply hx
  rw [before]
  grind

theorem listAppend_spec {m : Mem} {plist e : Nat} {xs : List Nat} (h : IsList m plist xs)
    (apart : ∀ x ∈ nodes plist xs, Apart x e) :
    Succeeds (listAppend plist e) (fun _ m' => IsList m' plist (xs ++ [e]) ∧
      ∀ x, Outside (e :: nodes plist xs) x → m' x = m x) m := by
  have spec := @insert_spec m plist (tailOf plist) e xs []
  rw [List.append_nil] at spec
  exact spec h rfl apart

theorem listPush_spec {m : Mem} {plist e : Nat} {xs : List Nat} (h : IsList m plist xs)
    (apart : ∀ x ∈ nodes plist xs, Apart x e) :
    Succeeds (listPush plist e) (fun _ m' => IsList m' plist (e :: xs) ∧
      ∀ x, Outside (e :: nodes plist xs) x → m' x = m x) m := by
  simp only [listPush, Succeeds, wp_bind, wp_load]
  exact @insert_spec m plist (m (nextOf plist)) e [] xs h h.first apart

theorem listRemove_spec {m : Mem} {plist e : Nat} {xs ys : List Nat}
    (h : IsList m plist (xs ++ e :: ys)) :
    Succeeds (listRemove e) (fun _ m' => IsList m' plist (xs ++ ys) ∧
      ∀ x, Outside (nodes plist (xs ++ ys)) x → m' x = m x) m := by
  obtain ⟨l, a, hl, happ⟩ := nodes_last plist xs
  obtain ⟨b, r, hr⟩ : ∃ b r, ys ++ [tailOf plist] = b :: r :=
    List.exists_cons_of_ne_nil (by simp)
  have before : nodes plist (xs ++ e :: ys) = l ++ a :: e :: b :: r := by
    rw [happ, List.cons_append, hr]
  have after : nodes plist (xs ++ ys) = l ++ a :: b :: r := by rw [happ, hr]
  have chain := h.chain
  have apart := h.apart
  rw [before] at chain apart
  have hprev : m e = a := chain.joined.2
  have hnext : m (nextOf e) = b := by
    have joined : (links m).Joined e b := by
      have split : l ++ a :: e :: b :: r = (l ++ [a]) ++ e :: b :: r := by simp
      exact (split ▸ chain).joined
    exact joined.1
  have hae : Apart a e := by grind
  unfold Apart at hae
  have hnext' : Function.update m (nextOf a) b (nextOf e) = b := by
    rw [Function.update_of_ne (by unfold nextOf; omega)]
    exact hnext
  have hprev' : Function.update m (nextOf a) b e = a := by
    rw [Function.update_of_ne (by unfold nextOf; omega)]
    exact hprev
  simp only [listRemove, Succeeds, wp_bind, wp_load, wp_store, hprev, hnext, hnext', hprev']
  have small : (l ++ a :: b :: r).Pairwise Apart := by
    apply List.Pairwise.sublist _ apart
    simp
  refine ⟨⟨?_, ?_⟩, ?_⟩
  · rw [after]
    apply (chain.remove (nodup_of_apart apart)).congr
    exact links_join small (by simp) (by simp)
  · rw [after]
    exact small
  · intro x hx
    rw [after] at hx
    have ha := hx a (by simp)
    have hb := hx b (by simp)
    simp only [Function.update_apply, nextOf]
    grind

/-- The walk of elem_find from some node of the list to the tail. -/
theorem elemFindFrom_spec {m : Mem} {tail e : Nat} {xs : List Nat} {fuel first : Nat}
    (chain : (links m).Chain (xs ++ [tail])) (out : tail ∉ xs)
    (start : (xs ++ [tail]).head? = some first) (short : xs.length < fuel) :
    Succeeds (elemFindFrom tail e fuel first) (fun found m' => (found = true ↔ e ∈ xs) ∧ m' = m)
      m := by
  induction xs generalizing fuel first with
  | nil =>
    obtain ⟨n, rfl⟩ := Nat.exists_eq_succ_of_ne_zero (Nat.ne_of_gt short)
    obtain rfl : tail = first := by simpa using start
    simp [elemFindFrom]
  | cons x xs ih =>
    obtain ⟨n, rfl⟩ := Nat.exists_eq_succ_of_ne_zero (Nat.ne_of_gt (Nat.zero_lt_of_lt short))
    obtain rfl : x = first := by simpa using start
    have hxt : x ≠ tail := fun he => out (he ▸ List.mem_cons_self)
    by_cases hxe : x = e
    · subst hxe
      simp [elemFindFrom, hxt]
    · obtain ⟨next, rest⟩ := chain_next chain
      have step := ih rest (fun hm => out (List.mem_cons_of_mem x hm)) next (Nat.lt_of_succ_lt_succ short)
      simp only [elemFindFrom, if_neg hxt, if_neg hxe, Succeeds, wp_bind, wp_load]
      refine wp_post step ?_
      rintro found - ⟨hf, rfl⟩
      simp [hf, Ne.symm hxe]

theorem IsList.tail_not_mem {m : Mem} {plist : Nat} {xs : List Nat} (h : IsList m plist xs) :
    tailOf plist ∉ xs := by
  have nodup := nodup_of_apart h.apart
  unfold nodes at nodup
  grind

theorem elemFind_spec {m : Mem} {plist e : Nat} {xs : List Nat} (h : IsList m plist xs)
    (short : xs.length < 2 ^ 32) :
    Succeeds (elemFind plist e) (fun found m' => (found = true ↔ e ∈ xs) ∧ m' = m) m := by
  simp only [elemFind, Succeeds, wp_bind, wp_load]
  exact elemFindFrom_spec h.chain.tail h.tail_not_mem h.first short

/-- The walk of list_len from some node of the list to the tail. -/
theorem listLenFrom_spec {m : Mem} {tail : Nat} {xs : List Nat} {fuel first : Nat} {length : UInt32}
    (chain : (links m).Chain (xs ++ [tail])) (out : tail ∉ xs)
    (start : (xs ++ [tail]).head? = some first) (short : xs.length < fuel) :
    Succeeds (listLenFrom tail fuel first length) (fun n m' => n = length + UInt32.ofNat xs.length ∧ m' = m) m := by
  induction xs generalizing fuel first length with
  | nil =>
    obtain ⟨n, rfl⟩ := Nat.exists_eq_succ_of_ne_zero (Nat.ne_of_gt short)
    obtain rfl : tail = first := by simpa using start
    simp [listLenFrom]
  | cons x xs ih =>
    obtain ⟨n, rfl⟩ := Nat.exists_eq_succ_of_ne_zero (Nat.ne_of_gt (Nat.zero_lt_of_lt short))
    obtain rfl : x = first := by simpa using start
    have hxt : x ≠ tail := fun he => out (he ▸ List.mem_cons_self)
    obtain ⟨next, rest⟩ := chain_next chain
    simp only [listLenFrom, if_neg hxt, Succeeds, wp_bind, wp_load]
    refine wp_post (ih rest (fun hm => out (List.mem_cons_of_mem x hm)) next (Nat.lt_of_succ_lt_succ short)) ?_
    rintro n - ⟨rfl, rfl⟩
    refine ⟨?_, rfl⟩
    rw [List.length_cons, Nat.add_comm, UInt32.ofNat_add, UInt32.add_assoc]
    rfl

theorem listLen_spec {m : Mem} {plist : Nat} {xs : List Nat} (h : IsList m plist xs) (short : xs.length < 2 ^ 32) :
    Succeeds (listLen plist) (fun n m' => n.toNat = xs.length ∧ m' = m) m := by
  simp only [listLen, Succeeds, wp_bind, wp_load]
  refine wp_post (listLenFrom_spec h.chain.tail h.tail_not_mem h.first short) ?_
  rintro n - ⟨rfl, rfl⟩
  rw [UInt32.zero_add]
  exact ⟨UInt32.toNat_ofNat_of_lt' short, rfl⟩

theorem listEmpty_spec {m : Mem} {plist : Nat} {xs : List Nat} (h : IsList m plist xs) :
    Succeeds (listEmpty plist) (fun empty m' => (empty = true ↔ xs = []) ∧ m' = m) m := by
  simp only [listEmpty, Succeeds, wp_bind, wp_load, wp_pure, beq_iff_eq, and_true]
  have first := h.first
  have out := h.tail_not_mem
  cases xs with
  | nil => simpa using first.symm
  | cons x xs =>
    obtain rfl : x = m (nextOf plist) := by simpa using first
    constructor
    · intro he
      exact (out (he ▸ List.mem_cons_self)).elim
    · intro he
      cases he

theorem listPop_spec {m : Mem} {plist x : Nat} {xs : List Nat} (h : IsList m plist (x :: xs)) :
    Succeeds (listPop plist) (fun elem m' => elem = x ∧ IsList m' plist xs ∧
      ∀ y, Outside (nodes plist xs) y → m' y = m y) m := by
  have hx : m (nextOf plist) = x := by simpa using h.first.symm
  simp only [listPop, Succeeds, wp_bind, wp_load, wp_pure, hx, true_and]
  have front : IsList m plist ([] ++ x :: xs) := h
  exact listRemove_spec front

end Zhenxiang.Kernel
