import Zhenxiang.Paging.TaskHeaps

/-! sys_malloc and sys_free on one heap and the pages of its address space. -/
namespace Zhenxiang.Paging
open Lib Kernel

section Heap
variable {contents : Mem} {h : Heap} {a n desc size : Nat}

/-- malloc_page answers a request for cnt pages, and no other. -/
def runSource (a cnt : Nat) (contents : Mem) : PageSource := fun k => if k = cnt then some (a, contents) else none

theorem mallocPage_answer (pages : PageSource) (answer : pages n = some (a, contents)) :
    Kernel.mallocPage (pageSource contents (some a)) n = Kernel.mallocPage pages n := by
  unfold Kernel.mallocPage
  rw [answer]
  rfl

/-! Which calls change the runs of pages. -/

theorem keeps_runs {α : Type} (c : Kern Mem α) : Returns (onMem c) (fun _ h' => h'.runs = h.runs) h := by
  rw [Returns, Kernel.wp_onMem]
  exact wp_post (wp_trivial c) fun _ _ _ => rfl

theorem mallocPage_runs (a n : Nat) : Returns (Kernel.mallocPage (pageSource contents (some a)) n)
    (fun b h' => b = a ∧ h'.runs = Function.update h.runs a n) h := by
  dsimp only [Kernel.mallocPage, pageSource, Option.map_some]
  rw [Returns, wp_bind, wp_assert]
  refine ⟨fun _ => ?_, fun _ => trivial⟩
  rw [wp_bind, wp_modify, wp_pure]
  exact ⟨rfl, rfl⟩

theorem mallocLarge_runs (there : a ≠ 0) : Returns (mallocLarge (pageSource contents (some a)) size)
    (fun _ h' => h'.runs = Function.update h.runs a (divRoundUp ((size + sizeofArena) % 2 ^ 32) pgSize)) h := by
  unfold mallocLarge
  dsimp only
  rw [Returns, wp_bind]
  refine wp_post (mallocPage_runs _ _) ?_
  rintro b h₁ ⟨rfl, runs⟩
  rw [if_pos there, ← runs, wp_bind]
  refine wp_post (keeps_runs _) fun _ h₂ same => ?_
  rw [← same, wp_bind]
  refine wp_post (keeps_runs _) fun _ h₃ same => ?_
  rw [← same, wp_bind]
  refine wp_post (keeps_runs _) fun _ h₄ same => ?_
  rw [← same, wp_bind]
  exact wp_post (keeps_runs _) fun _ h₅ same => (wp_pure _).2 same

theorem arena2block_runs (a idx : Nat) : Returns (arena2block a idx) (fun _ h' => h'.runs = h.runs) h := by
  rw [arena2block, Returns, wp_bind]
  refine wp_post (keeps_runs _) fun _ h₁ same => ?_
  rw [← same, wp_bind]
  exact wp_post (keeps_runs _) fun _ h₂ same => (wp_pure _).2 same

/-- carveBlock and reclaimBlock. -/
theorem block_runs (a idx : Nat) (test : Nat → Nat → Kern Mem Bool) (want : Bool) (link : Nat → Nat → Kern Mem Unit) :
    Returns (do
      let b ← arena2block a idx
      let desc ← onMem (load a)
      let found ← onMem (test desc b)
      assert (found = want)
      onMem (link desc b)) (fun _ h' => h'.runs = h.runs) h := by
  rw [Returns, wp_bind]
  refine wp_post (arena2block_runs a idx) fun b h₁ same => ?_
  rw [← same, wp_bind]
  refine wp_post (keeps_runs _) fun desc h₂ same => ?_
  rw [← same, wp_bind]
  refine wp_post (keeps_runs _) fun found h₃ same => ?_
  rw [← same, wp_bind, wp_assert]
  exact ⟨fun _ => keeps_runs _, fun _ => trivial⟩

theorem loop_runs {blocks : Nat} {body : Nat → Kern Heap Unit}
    (turn : ∀ k (h : Heap), Returns (body k) (fun _ h' => h'.runs = h.runs) h) :
    Returns (forRange blocks body) (fun _ h' => h'.runs = h.runs) h :=
  wp_forRange (fun _ (h' : Heap) => h'.runs = h.runs) rfl fun k h' _ same => by
    rw [← same]
    exact turn k h'

theorem makeArena_runs (there : a ≠ 0) : Returns (makeArena (pageSource contents (some a)) desc)
    (fun _ h' => h'.runs = Function.update h.runs a 1) h := by
  rw [makeArena, Returns, wp_bind]
  refine wp_post (mallocPage_runs _ _) ?_
  rintro b h₁ ⟨rfl, runs⟩
  rw [if_neg there, ← runs, wp_bind]
  refine wp_post (keeps_runs _) fun _ h₂ same => ?_
  rw [← same, wp_bind]
  refine wp_post (keeps_runs _) fun _ h₃ same => ?_
  rw [← same, wp_bind]
  refine wp_post (keeps_runs _) fun _ h₄ same => ?_
  rw [← same, wp_bind]
  refine wp_post (keeps_runs _) fun blocks h₅ same => ?_
  rw [← same, wp_bind]
  refine wp_post (keeps_runs _) fun _ h₆ same => ?_
  rw [← same, wp_bind]
  refine wp_post (loop_runs fun k h' => ?_) fun _ h₇ same => (wp_pure _).2 same
  exact block_runs b k (fun desc b => elemFind (freeListOf desc) b) false fun desc b => listAppend (freeListOf desc) b

theorem takeBlock_runs (desc : Nat) : Returns (takeBlock desc) (fun _ h' => h'.runs = h.runs) h := by
  rw [takeBlock, Returns, wp_bind]
  refine wp_post (keeps_runs _) fun b h₁ same => ?_
  rw [← same, wp_bind]
  refine wp_post (keeps_runs _) fun size h₂ same => ?_
  rw [← same, wp_bind]
  refine wp_post (keeps_runs _) fun _ h₃ same => ?_
  dsimp only
  rw [← same, wp_bind]
  refine wp_post (keeps_runs _) fun cnt h₄ same => ?_
  rw [← same, wp_bind]
  exact wp_post (keeps_runs _) fun _ h₅ same => (wp_pure _).2 same

theorem takeBack_runs (ptr : Nat) : Returns (takeBack ptr) (fun _ h' => h'.runs = h.runs) h := by
  unfold takeBack
  dsimp only
  rw [Returns, wp_bind]
  refine wp_post (keeps_runs _) fun large h₁ same => ?_
  rw [← same, wp_bind, wp_assert]
  refine ⟨fun _ => ?_, fun _ => trivial⟩
  rw [wp_bind]
  refine wp_post (keeps_runs _) fun desc h₂ same => ?_
  rw [← same, wp_ite]
  refine ⟨fun _ => ?_, fun _ => ?_⟩
  · rw [wp_bind]
    exact wp_post (keeps_runs _) fun _ h₃ same => (wp_pure _).2 same
  · rw [wp_bind]
    refine wp_post (keeps_runs _) fun _ h₃ same => ?_
    rw [← same, wp_bind]
    refine wp_post (keeps_runs _) fun cnt h₄ same => ?_
    rw [← same, wp_bind]
    refine wp_post (keeps_runs _) fun _ h₅ same => ?_
    rw [← same, wp_bind]
    refine wp_post (keeps_runs _) fun blocks h₆ same => ?_
    rw [← same, wp_ite]
    refine ⟨fun _ => ?_, fun _ => (wp_pure _).2 rfl⟩
    rw [wp_bind]
    refine wp_post (loop_runs fun k h' => ?_) fun _ h₇ same => (wp_pure _).2 same
    exact block_runs _ k (fun desc b => elemFind (freeListOf desc) b) true fun _ b => listRemove b

/-- What is left to do when takeBack has found run. -/
def Rest (Q : Unit → Heap → Prop) (run : Option (Nat × Nat)) (h : Heap) : Prop :=
  (run = none → Q () h) ∧ ∀ a n, run = some (a, n) → 0 < n ∧ h.runs a = n ∧
    Q () { h with runs := Function.update h.runs a 0 }

theorem rest_none {Q : Unit → Heap → Prop} (done : Q () h) : Rest Q none h :=
  ⟨fun _ => done, fun _ _ no => by cases no⟩

theorem rest_some {Q : Unit → Heap → Prop} (free : Succeeds (Kernel.mfreePage a n) Q h) : Rest Q (some (a, n)) h := by
  refine ⟨fun no => absurd no (Option.some_ne_none _), fun b m same => ?_⟩
  cases same
  rw [Kernel.mfreePage, Succeeds, wp_bind, wp_get, wp_ite] at free
  by_cases held : 0 < n ∧ h.runs a = n
  · exact ⟨held.1, held.2, (wp_modify _).1 (free.1 held)⟩
  · exact ((wp_throw _).1 (free.2 held)).elim

/-- sys_free is what takeBack finds, and mfree_page of it. -/
theorem sysFree_takeBack {T : HeapTask} {ptr : Nat} {Q : Unit → Heap → Prop} (free : Succeeds (sysFree T ptr) Q h) :
    ptr ≠ 0 ∧ (T.kernel = true → kHeapStart ≤ ptr) ∧ Succeeds (takeBack ptr) (Rest Q) h := by
  rw [sysFree, Succeeds, wp_bind, wp_assert] at free
  by_cases null : ptr = 0
  · exact (free.2 (not_not.2 null)).elim
  have free := free.1 null
  rw [wp_bind, wp_assert] at free
  by_cases placed : T.kernel = true → kHeapStart ≤ ptr
  · refine ⟨null, placed, ?_⟩
    have free := free.1 placed
    unfold takeBack
    simp only [Succeeds, wp_bind, wp_assert, Kernel.wp_onMem, wp_load, wp_ite, wp_pure] at free ⊢
    refine ⟨fun flag => ⟨fun large => rest_some ((free.1 flag).1 large), fun small => ?_⟩, fun no => free.2 no⟩
    have rest := (free.1 flag).2 small
    simp only [freeBlock, wp_bind, Kernel.wp_onMem, wp_load, wp_store, wp_ite] at rest
    refine wp_post rest fun _ h' done => ?_
    rw [wp_store]
    refine ⟨fun full => ?_, fun room => ?_⟩
    · exact wp_post (done.1 full) fun _ h' => rest_some
    · exact rest_none ((wp_pure _).1 (done.2 room))
  · exact (free.2 placed).elim

end Heap

section On
variable {M : Machine} {D : Descs} {p n cnt size : Nat} {vm vm' : VM} {h h' : HeapSys} {contents : Mem}

/-! The pages that a heap holds. -/

theorem halfOf_inj {q : Nat} (same : halfOf p = halfOf q) : p = q := by
  by_cases kernel : p = 0 <;> by_cases kernel' : q = 0
  · rw [kernel, kernel']
  · simp only [halfOf, poolFlags, if_pos kernel, if_neg kernel', half, reduceCtorEq] at same
  · simp only [halfOf, poolFlags, if_neg kernel, if_pos kernel', half, reduceCtorEq] at same
  · simpa only [halfOf, poolFlags, if_neg kernel, if_neg kernel', half, Option.some.injEq] using same

theorem holds_same {g h : Heap} (runs : g.runs = h.runs) {m : Nat} : Holds g m ↔ Holds h m := by
  rw [Holds, Holds, runs]

theorem holds_grow {g h : Heap} (runs : g.runs = Function.update h.runs (n * pgSize) cnt)
    (new : h.runs (n * pgSize) = 0) {m : Nat} : Holds g m ↔ Holds h m ∨ (n ≤ m ∧ m < n + cnt) := by
  have page : n * pgSize / pgSize = n := Nat.mul_div_cancel n (by decide)
  rw [Holds, Holds, runs]
  constructor
  · rintro ⟨a, k, hk, rfl⟩
    rw [Function.update_apply] at hk
    split at hk
    · next same =>
      rw [same, page]
      exact .inr ⟨by omega, by omega⟩
    · exact .inl ⟨a, k, hk, rfl⟩
  · rintro (⟨a, k, hk, rfl⟩ | ⟨low, high⟩)
    · have other : a ≠ n * pgSize := by
        rintro rfl
        omega
      exact ⟨a, k, by rw [Function.update_of_ne other]; exact hk, rfl⟩
    · exact ⟨n * pgSize, m - n, by rw [Function.update_self]; omega, by rw [page]; omega⟩

/-- The pages of the heap are reserved and mapped. -/
structure HeapOn (M : Machine) (D : Descs) (p : Nat) (vm : VM) (h : HeapSys) : Prop where
  core : PageCore M vm
  heap : HeapInv (D.task p) h
  inside : ∀ n, Holds h.heap n → InVaddr M (halfOf p) n
  set : ∀ n, Holds h.heap n → vm.vaddrBit (halfOf p) n = true
  mapped : ∀ n, Holds h.heap n → ∃ f, Uses vm (.page (halfOf p) n) f

theorem aligned_of_run {T : HeapTask} (inv : HeapInv T h) {a : Nat} (held : 0 < h.heap.runs a) : a / pgSize * pgSize = a := by
  obtain ⟨cls, cnts, view⟩ := inv
  exact Nat.div_mul_cancel (view.layout.placed a held).aligned

/-- Two runs of one heap have no page in common. -/
theorem runs_apart {T : HeapTask} (inv : HeapInv T h) {a b k l : Nat} (ha : k < h.heap.runs a)
    (hb : l < h.heap.runs b) (same : a / pgSize + k = b / pgSize + l) : a = b := by
  by_contra other
  have first := aligned_of_run inv (a := a) (by omega)
  have second := aligned_of_run inv (a := b) (by omega)
  obtain ⟨cls, cnts, view⟩ := inv
  have gap := view.layout.disjoint a b other (by omega) (by omega)
  simp only [NoOverlap, pgSize] at *
  omega

theorem holds_shrink {T : HeapTask} (inv : HeapInv T h) {a : Nat} (held : h.heap.runs a = cnt) {g : Heap}
    (runs : g.runs = Function.update h.heap.runs a 0) {m : Nat} :
    Holds g m ↔ Holds h.heap m ∧ ¬ (a / pgSize ≤ m ∧ m < a / pgSize + cnt) := by
  rw [Holds, Holds, runs]
  constructor
  · rintro ⟨b, k, hk, rfl⟩
    rw [Function.update_apply] at hk
    split at hk
    · omega
    · next other =>
      refine ⟨⟨b, k, hk, rfl⟩, ?_⟩
      rintro ⟨low, high⟩
      exact other (runs_apart inv hk (l := b / pgSize + k - a / pgSize) (by omega) (by omega))
  · rintro ⟨⟨b, k, hk, rfl⟩, out⟩
    have other : b ≠ a := by
      rintro rfl
      exact out ⟨by omega, by omega⟩
    exact ⟨b, k, by rw [Function.update_of_ne other]; exact hk, rfl⟩

/-- A run that vaddr_get has reserved is fresh for the heap. -/
theorem HeapOn.fresh (on : HeapOn M D p vm h) (grown : Grown M vm vm' (halfOf p) n cnt) (pos : 0 < cnt) :
    Fresh (D.task p) h.heap (n * pgSize) cnt := by
  have first := grown.inside 0 pos
  have last := grown.inside (cnt - 1) (by omega)
  rw [Nat.add_zero] at first
  have low := first.ge
  have high := last.lt
  have base : 0 < vaddrBase (poolFlags p) := by cases poolFlags p <;> decide
  have below := D.kernel_below
  constructor
  · exact Nat.dvd_mul_left pgSize n
  · exact Nat.mul_pos (by omega) (by decide)
  · simp only [pgSize]
    omega
  · intro kernel
    obtain rfl : p = 0 := of_decide_eq_true kernel
    exact Nat.le_trans (by decide : kHeapStart ≤ vaddrBase .kernel * pgSize) (Nat.mul_le_mul_right _ low)
  · rcases Nat.eq_zero_or_pos p with rfl | process
    · refine .inr (Nat.le_trans below ?_)
      exact Nat.le_trans (by decide : kHeapStart ≤ vaddrBase .kernel * pgSize) (Nat.mul_le_mul_right _ low)
    · have above := D.user_above p process
      have user : halfOf p = some p := by rw [halfOf, poolFlags, if_neg (by omega)]; rfl
      rw [user] at last
      have range := last.2
      simp only [userVaddrStart, userVaddrLen, pgSize] at range
      split at range
      · omega
      · refine .inl (Nat.le_trans ?_ above)
        simp only [pgSize]
        omega
  · intro b held
    by_contra overlap
    have page := aligned_of_run on.heap held
    -- a page of both runs
    have common : ∃ k < cnt, ∃ l < h.heap.runs b, n + k = b / pgSize + l := by
      simp only [NoOverlap, pgSize] at *
      rcases Nat.le_total n (b / 4096) with before | behind
      · exact ⟨b / 4096 - n, by omega, 0, held, by omega⟩
      · exact ⟨0, pos, n - b / 4096, by omega, by omega⟩
    obtain ⟨k, hk, l, hl, same⟩ := common
    have set := on.set _ ⟨b, l, hl, same⟩
    rw [grown.fresh k hk] at set
    cases set

theorem HeapOn.same (on : HeapOn M D p vm h) (kept : HeapInv (D.task p) h') (runs : h'.heap.runs = h.heap.runs) :
    HeapOn M D p vm h' where
  core := on.core
  heap := kept
  inside n held := on.inside n ((holds_same runs).1 held)
  set n held := on.set n ((holds_same runs).1 held)
  mapped n held := on.mapped n ((holds_same runs).1 held)

theorem HeapOn.grow (on : HeapOn M D p vm h) (kept : HeapInv (D.task p) h') (pos : 0 < cnt)
    (grown : Grown M vm vm' (halfOf p) n cnt) (runs : h'.heap.runs = Function.update h.heap.runs (n * pgSize) cnt) :
    HeapOn M D p vm' h' := by
  have pages {m : Nat} : Holds h'.heap m ↔ Holds h.heap m ∨ (n ≤ m ∧ m < n + cnt) :=
    holds_grow runs ((on.fresh grown pos).not_run pos)
  have inside (m : Nat) (held : Holds h'.heap m) : InVaddr M (halfOf p) m := by
    rcases pages.1 held with old | ⟨low, high⟩
    · exact on.inside m old
    · obtain ⟨k, rfl⟩ := Nat.exists_eq_add_of_le low
      exact grown.inside k (by omega)
  refine ⟨grown.core, kept, inside, fun m held => ?_, fun m held => ?_⟩
  · refine (grown.vaddr _ m (inside m held)).2 ?_
    rcases pages.1 held with old | ⟨low, high⟩
    · exact .inl (on.set m old)
    · exact .inr (inRange_page.2 ⟨rfl, low, high⟩)
  · rcases pages.1 held with old | ⟨low, high⟩
    · obtain ⟨f, use⟩ := on.mapped m old
      exact ⟨f, grown.kept _ f use⟩
    · obtain ⟨k, rfl⟩ := Nat.exists_eq_add_of_le low
      exact grown.mapped k (by omega)

theorem HeapOn.shrink (on : HeapOn M D p vm h) (kept : HeapInv (D.task p) h') {a : Nat} (held : h.heap.runs a = cnt)
    (core : PageCore M vm') (freed : Freed M vm vm' (halfOf p) (a / pgSize) cnt)
    (runs : h'.heap.runs = Function.update h.heap.runs a 0) : HeapOn M D p vm' h' := by
  have pages {m : Nat} (use : Holds h'.heap m) : Holds h.heap m ∧ ¬ InRange (halfOf p) (a / pgSize) cnt (.page (halfOf p) m) := by
    obtain ⟨old, out⟩ := (holds_shrink on.heap held runs).1 use
    exact ⟨old, fun range => out (inRange_page.1 range).2⟩
  refine ⟨core, kept, fun m use => on.inside m (pages use).1, fun m use => ?_, fun m use => ?_⟩
  · exact (freed.vaddr _ m (on.inside m (pages use).1)).2 ⟨on.set m (pages use).1, (pages use).2⟩
  · obtain ⟨f, mapped⟩ := on.mapped m (pages use).1
    exact ⟨f, (freed.uses _ f).2 ⟨mapped, (pages use).2⟩⟩

/-! sys_malloc. -/

variable {pages : Nat → Kern VM (Option Nat)} {N : Nat → VM → Prop} {R : Nat → Nat → VM → Prop} {E : Fault → Prop}

/-- What is known of malloc_page for cnt pages: the states with NULL, those with a run of pages, which is then new, and
what it means that it fails. -/
structure Supplies (M : Machine) (h : Option Nat) (pages : Nat → Kern VM (Option Nat)) (vm : VM) (N : Nat → VM → Prop)
    (R : Nat → Nat → VM → Prop) (E : Fault → Prop) (cnt : Nat) : Prop where
  answers : wp (pages cnt) (fun r vm' => cnt < 3840 ∧ (r = none → N cnt vm') ∧
    ∀ v, r = some v → ∃ n, v = n * pgSize ∧ R n cnt vm') E vm
  grown : ∀ n vm', R n cnt vm' → Grown M vm vm' h n cnt

/-- How sys_malloc ends: with NULL the heap is as it was; else the block b is new in the heap, and its pages, if it
took any, are new in the address space. -/
inductive Served (D : Descs) (N : Nat → VM → Prop) (R : Nat → Nat → VM → Prop) (p : Nat) (vm : VM) (h : HeapSys) (size : Nat) :
    Option Nat → VM → Heap → Prop where
  | refused (wanted : pagesWanted (D.caller 0 p) h.heap size = none) : Served D N R p vm h size none vm h.heap
  | short {cnt : Nat} {vm' : VM} (wanted : pagesWanted (D.caller 0 p) h.heap size = some cnt) (left : N cnt vm') :
      Served D N R p vm h size none vm' h.heap
  | stock {b : Nat} {h' : Heap} (wanted : pagesWanted (D.caller 0 p) h.heap size = none)
      (heap : HeapInv (D.task p) ⟨h', Function.update h.live b size⟩) (runs : h'.runs = h.heap.runs) :
      Served D N R p vm h size (some b) vm h'
  | pages {b n cnt : Nat} {vm' : VM} {h' : Heap} (wanted : pagesWanted (D.caller 0 p) h.heap size = some cnt) (pos : 0 < cnt)
      (got : R n cnt vm') (heap : HeapInv (D.task p) ⟨h', Function.update h.live b size⟩)
      (runs : h'.runs = Function.update h.heap.runs (n * pgSize) cnt) : Served D N R p vm h size (some b) vm' h'

/-- The answer of malloc_page is one the heap can use. -/
theorem HeapOn.honest (on : HeapOn M D p vm h) (grown : Grown M vm vm' (halfOf p) n cnt) (pos : 0 < cnt) (size : Nat) :
    HeapAllowed (D.task p) h (.malloc (runSource (n * pgSize) cnt contents) size) := by
  intro k a m _ answer
  unfold runSource at answer
  split at answer
  · next same =>
    cases answer
    rw [same]
    exact on.fresh grown pos
  · cases answer

theorem largeBlock_serves (on : HeapOn M D p vm h) {L : Memory} (big : 1024 < size)
    (fits : size < (D.task p).poolSize)
    (supply : Supplies M (halfOf p) pages vm N R E (divRoundUp ((size + sizeofArena) % 2 ^ 32) pgSize)) :
    wp (largeBlock contents pages size) (fun r m => ∃ vm' h', m = L.put vm' h' ∧ Served D N R p vm h size r vm' h') E
      (L.put vm h.heap) := by
  have wanted : pagesWanted (D.caller 0 p) h.heap size = some (divRoundUp ((size + sizeofArena) % 2 ^ 32) pgSize) := by
    rw [pagesWanted, if_neg (not_not.2 ⟨by omega, fits⟩), if_pos big]
  have pos := (divRoundUp_spec (Nat.lt_of_lt_of_le fits (D.task p).pool_small)).1
  rw [largeBlock]
  generalize pageCnt : divRoundUp ((size + sizeofArena) % 2 ^ 32) pgSize = cnt at wanted pos supply ⊢
  rw [wp_bind, wp_onVM]
  refine wp_post supply.answers ?_
  rintro r vm' ⟨few, left, answer⟩
  rw [wp_bind, wp_onTaskHeap]
  cases r with
  | none =>
    have nothing : mallocLarge (pageSource contents none) size = pure 0 := by
      rw [mallocLarge, pageCnt, heapPage_failed ⟨pos, few⟩]
      rfl
    rw [nothing, wp_pure, if_pos rfl, wp_pure]
    exact ⟨vm', _, rfl, .short wanted (left rfl)⟩
  | some a =>
    obtain ⟨n, rfl, got⟩ := answer a rfl
    have new := supply.grown n vm' got
    have there : n * pgSize ≠ 0 := Nat.ne_of_gt (on.fresh new pos).pos
    let pages' := runSource (n * pgSize) cnt contents
    have answer : pages' cnt = some (n * pgSize, contents) := if_pos rfl
    have few' : FewPages (D.task p) (.malloc pages' size) := fun _ => pageCnt ▸ few
    have outcome := sysMalloc_spec on.heap (on.honest new pos size) few'
    rw [sysMalloc, if_neg (not_not.2 ⟨by omega, fits⟩), if_pos big] at outcome
    have same : mallocLarge (pageSource contents (some (n * pgSize))) size = mallocLarge pages' size := by
      unfold mallocLarge
      dsimp only
      rw [pageCnt, mallocPage_answer pages' answer]
    rw [← same] at outcome
    refine wp_mono ((outcome.and_returns (mallocLarge_runs there)).and_returns (mallocLarge_answered there _)) ?_
      fun _ no => no.elim
    rintro b heap ⟨⟨⟨zero, -⟩ | ⟨-, -, -, kept, -⟩, runs⟩, some_block⟩
    · exact absurd zero some_block
    · rw [if_neg some_block, wp_pure]
      rw [pageCnt] at runs
      exact ⟨vm', heap, rfl, .pages wanted pos got kept runs⟩

/-- A small request wants a page where the free list of its class is empty. -/
theorem pagesWanted_small {i : Nat} (small : ¬ 1024 < size) (fits : 0 < size ∧ size < (D.task p).poolSize)
    (desc : i = descFor h.heap.mem (D.descs p) size descCnt 0) :
    pagesWanted (D.caller 0 p) h.heap size =
      if h.heap.mem (nextOf (freeListOf (descAt (D.task p) i))) = tailOf (freeListOf (descAt (D.task p) i)) then some 1 else none := by
  have fits' : 0 < size ∧ size < (D.caller 0 p).poolSize := fits
  rw [pagesWanted, if_neg (not_not.2 fits'), if_neg small]
  dsimp only
  rw [show (D.caller 0 p).descs = D.descs p from rfl, ← desc]
  rfl

/-- A block is taken out of a free list that has one. -/
theorem takeBlock_serves {L : Memory} {i : Nat} {g : Heap} {cls : Nat → Option Nat} {cnts : Nat → Nat} (hi : i < descCnt)
    (pos : 0 < size) (room : size ≤ blockSize i) (stocked : Stocked (D.task p) g h.live cls cnts i)
    (served : ∀ b h', HeapInv (D.task p) ⟨h', Function.update h.live b size⟩ → h'.runs = g.runs →
      Served D N R p vm h size (some b) vm' h') :
    wp (do
      let b ← onTaskHeap (takeBlock (descAt (D.task p) i))
      pure (some b)) (fun r m => ∃ vm' h', m = L.put vm' h' ∧ Served D N R p vm h size r vm' h') E (L.put vm' g) := by
  rw [wp_bind, wp_onTaskHeap]
  refine wp_mono ((stocked.take hi pos room).and_returns (takeBlock_runs _)) ?_ fun _ no => no.elim
  rintro b h' ⟨⟨-, -, kept, -⟩, runs⟩
  exact (wp_pure _).2 ⟨vm', h', rfl, served b h' kept runs⟩

/-- The page that malloc_page has mapped becomes an arena of the class i. -/
theorem HeapOn.makeArena_stocks (on : HeapOn M D p vm h) {i : Nat} {cls : Nat → Option Nat} {cnts : Nat → Nat}
    (v : HeapView (D.task p) h cls cnts) (hi : i < descCnt) (none_free : ∀ b, Block cls i b → h.live b ≠ 0)
    (grown : Grown M vm vm' (halfOf p) n 1) :
    Succeeds (makeArena (pageSource contents (some (n * pgSize))) (descAt (D.task p) i))
      (fun ready g => ready = true ∧ g.runs = Function.update h.heap.runs (n * pgSize) 1 ∧
        ∃ cls cnts, Stocked (D.task p) g h.live cls cnts i) h.heap := by
  have fresh := on.fresh grown Nat.one_pos
  let pages := runSource (n * pgSize) 1 contents
  have answer : pages 1 = some (n * pgSize, contents) := if_pos rfl
  have same : makeArena (pageSource contents (some (n * pgSize))) (descAt (D.task p) i) = makeArena pages (descAt (D.task p) i) := by
    unfold makeArena
    rw [mallocPage_answer pages answer]
  have new_free : ∀ a, Fresh (D.task p) h.heap a 1 → ∀ idx < blocksPerArena i, h.live (blockAt a i idx) = 0 := by
    intro a fresh idx inside
    have page := block_in_page inside a
    have size := blockSize_ge i
    simp only [pgSize, sizeofArena] at page
    exact v.fresh_free fresh (by omega) (by simp only [pgSize]; omega)
  have honest : ∀ a m, pages 1 = some (a, m) → Fresh (D.task p) h.heap a 1 := by
    intro a m answered
    rw [answer] at answered
    cases answered
    exact fresh
  have there := Nat.ne_of_gt fresh.pos
  have arena := makeArena_spec v.rep v.layout hi honest new_free
  rw [← same] at arena
  refine wp_mono ((arena.and_returns (makeArena_runs there)).and_returns (makeArena_answered there _)) ?_ fun _ no => no
  rintro ready g ⟨⟨⟨no, -⟩ | ⟨-, b, fresh', runs, rep⟩, runs'⟩, rfl⟩
  · cases no
  · exact ⟨rfl, runs', _, _, v.stock hi fresh' none_free runs rep⟩

theorem smallBlock_serves (on : HeapOn M D p vm h) {task : Nat} {L : Memory} (small : ¬ 1024 < size)
    (fits : 0 < size ∧ size < (D.task p).poolSize)
    (supply : pagesWanted (D.caller 0 p) h.heap size = some 1 → Supplies M (halfOf p) pages vm N R E 1) :
    wp (smallBlock contents (D.caller task p) pages size)
      (fun r m => ∃ vm' h', m = L.put vm' h' ∧ Served D N R p vm h size r vm' h') E (L.put vm h.heap) := by
  obtain ⟨cls, cnts, v⟩ := on.heap
  rw [smallBlock, wp_bind, wp_onTaskHeap]
  refine wp_mono (wp_and (matchDesc_spec v.rep (by omega) (by decide) (by decide))
    (matchDesc_reads (D.descs p) size h.heap descCnt 0)) ?_ fun _ no => no.elim
  rintro i _ ⟨⟨hi, room, rfl⟩, desc, -⟩
  dsimp only
  rw [show (D.caller task p).descs + i * sizeofDesc = descAt (D.task p) i from rfl, wp_bind, wp_onTaskHeap, Kernel.wp_onMem,
    listEmpty, wp_bind, wp_load, wp_pure]
  have empty : (∀ b, Block cls i b → h.live b ≠ 0) ↔
      h.heap.mem (nextOf (freeListOf (descAt (D.task p) i))) = tailOf (freeListOf (descAt (D.task p) i)) := by
    have read := v.rep.empty hi
    rw [Succeeds, listEmpty, wp_bind, wp_load, wp_pure, beq_iff_eq] at read
    exact read.1.symm
  have wanted := pagesWanted_small small fits desc
  by_cases none_left : h.heap.mem (nextOf (freeListOf (descAt (D.task p) i))) = tailOf (freeListOf (descAt (D.task p) i))
  · rw [if_pos none_left] at wanted
    have supply := supply wanted
    rw [if_pos (beq_iff_eq.2 none_left), wp_bind, wp_onVM]
    refine wp_post supply.answers ?_
    rintro r vm' ⟨few, left, answer⟩
    rw [wp_bind, wp_onTaskHeap]
    cases r with
    | none =>
      have nothing : makeArena (pageSource contents none) (descAt (D.task p) i) = pure false := by
        rw [makeArena, heapPage_failed ⟨by decide, few⟩]
        rfl
      rw [nothing, wp_pure, if_neg Bool.false_ne_true, wp_pure]
      exact ⟨vm', _, rfl, .short wanted (left rfl)⟩
    | some a =>
      obtain ⟨n, rfl, got⟩ := answer a rfl
      refine wp_mono (on.makeArena_stocks v hi (empty.2 none_left) (supply.grown n vm' got)) ?_ fun _ no => no.elim
      rintro _ g ⟨rfl, runs, _, _, stocked⟩
      rw [if_pos rfl]
      refine takeBlock_serves hi fits.1 room stocked fun b h' kept same => ?_
      exact .pages wanted Nat.one_pos got kept (same.trans runs)
  · have some_free : ∃ b, Block cls i b ∧ h.live b = 0 := by
      by_contra none
      push Not at none
      exact none_left (empty.1 none)
    rw [if_neg none_left] at wanted
    rw [if_neg (by rw [beq_iff_eq]; exact none_left)]
    exact takeBlock_serves hi fits.1 room (v.stocked some_free) fun b h' kept runs => .stock wanted kept runs

/-- sys_malloc under the lock of the pool. -/
theorem sysMallocLocked_serves (on : HeapOn M D p vm h) {task : Nat} {L : Memory} (lock : LockFits L (poolFlags p) task)
    (supply : ∀ cnt, pagesWanted (D.caller 0 p) h.heap size = some cnt → Supplies M (halfOf p) pages vm N R E cnt) :
    wp (sysMallocLocked contents (D.caller task p) pages size)
      (fun r m => ∃ vm' h', m = L.put vm' h' ∧ Served D N R p vm h size r vm' h') E (L.put vm h.heap) := by
  have fit : LockFits (L.put vm h.heap) (D.caller task p).pf (D.caller task p).task := lock
  rw [sysMallocLocked, wp_ite]
  refine ⟨fun odd => (wp_pure _).2 ⟨vm, _, rfl, .refused (if_pos odd)⟩, fun ok => ?_⟩
  obtain ⟨pos, fits⟩ := not_not.1 ok
  rw [wp_bind, wp_lockAcquire fit]
  have go (c : Kern Memory (Option Nat)) (serves : wp c (fun r m => ∃ vm' h',
        m = ((L.put vm h.heap).locked (D.caller task p).pf (D.caller task p).task).put vm' h' ∧
          Served D N R p vm h size r vm' h') E
        (((L.put vm h.heap).locked (D.caller task p).pf (D.caller task p).task).put vm h.heap)) :
      wp c (fun r m => wp (do
        lockRelease (D.caller task p).pf (D.caller task p).task
        pure r) (fun r m => ∃ vm' h', m = L.put vm' h' ∧ Served D N R p vm h size r vm' h') E m)
        E (((L.put vm h.heap).locked (D.caller task p).pf (D.caller task p).task).put vm h.heap) := by
    refine wp_post serves ?_
    rintro r m ⟨vm', h', rfl, served⟩
    rw [wp_bind, wp_lockRelease fit, wp_pure]
    exact ⟨vm', h', rfl, served⟩
  by_cases big : 1024 < size
  · rw [if_pos big, wp_bind]
    have wanted : pagesWanted (D.caller task p) h.heap size = some (divRoundUp ((size + sizeofArena) % 2 ^ 32) pgSize) := by
      rw [pagesWanted, if_neg ok, if_pos big]
    exact go _ (largeBlock_serves on big fits (supply _ wanted))
  · rw [if_neg big, wp_bind]
    exact go _ (smallBlock_serves on big ⟨pos, fits⟩ (supply 1))

/-! The TLB. -/

theorem PageCore.frameAt_iff (core : PageCore M vm) (inside : InVaddr M (halfOf p) n) {f : Nat} :
    vm.frameAt p n = some f ↔ Uses vm (.page (halfOf p) n) f := by
  have entry (d e : Entry) : (if d.present = true ∧ e.present = true then some e.addr else none) = some f ↔
      d.present = true ∧ e = ⟨f, true⟩ := by
    obtain ⟨a, present⟩ := e
    cases present <;> simp
  rw [VM.frameAt, entry]
  rcases inside.entry with ⟨kernel, low, high⟩ | ⟨user, process, high⟩
  · have zero : halfOf p = none := by rw [halfOf, kernel]; rfl
    have dir := core.kernel_pde p (n / 1024) (by omega) high
    rw [zero, dir]
    exact ⟨fun h => ⟨by omega, by omega, h.2⟩, fun h => ⟨rfl, h.2.2⟩⟩
  · have some_p : halfOf p = some p := by rw [halfOf, user]; rfl
    rw [some_p]
    exact ⟨fun h => ⟨process, by omega, h⟩, fun h => h.2.2⟩

/-- The TLB holds only pages of the half h, and none whose frame is another one now. -/
def TlbFits (M : Machine) (h : Option Nat) (vm : VM) (stale : List (Nat × Nat)) : Prop :=
  ∀ e ∈ stale, InVaddr M h e.1 ∧ ∀ f, Uses vm (.page h e.1) f → f = e.2

theorem PageCore.settled_iff {s : Memory} (core : PageCore M s.vm) (inside : ∀ e ∈ s.stale, InVaddr M (halfOf p) e.1) :
    s.Settled p ↔ TlbFits M (halfOf p) s.vm s.stale := by
  refine forall₂_congr fun e mem => ?_
  rw [and_iff_right (inside e mem)]
  constructor
  · rintro (none | some) f use
    · rw [(core.frameAt_iff (inside e mem)).2 use] at none
      cases none
    · rw [(core.frameAt_iff (inside e mem)).2 use] at some
      exact Option.some.inj some
  · intro same
    cases found : s.vm.frameAt p e.1 with
    | none => exact .inl rfl
    | some f => exact .inr (congrArg some (same f ((core.frameAt_iff (inside e mem)).1 found)))

/-- The pages of a run that is given back stay in the TLB, and are not mapped any more. -/
theorem TlbFits.freed {stale : List (Nat × Nat)} (fits : TlbFits M (halfOf p) vm stale) {a : Nat}
    (inside : ∀ k < cnt, InVaddr M (halfOf p) (a / pgSize + k)) (freed : Freed M vm vm' (halfOf p) (a / pgSize) cnt) :
    TlbFits M (halfOf p) vm' (lingering vm p (a, cnt) ++ stale) := by
  intro e mem
  rcases List.mem_append.1 mem with new | old
  · obtain ⟨k, hk, here⟩ := List.mem_filterMap.1 new
    obtain ⟨f, -, rfl⟩ := Option.map_eq_some_iff.1 here
    have low := List.mem_range.1 hk
    refine ⟨inside k low, fun g use => ?_⟩
    exact absurd ⟨k, low, rfl⟩ ((freed.uses _ g).1 use).2
  · exact ⟨(fits e old).1, fun f use => (fits e old).2 f ((freed.uses _ f).1 use).1⟩

/-! sys_free. -/

/-- What sys_free of a live block leaves: a run of pages is given back with its last block. -/
structure GivenBack (M : Machine) (D : Descs) (p : Nat) (s : Memory) (live : Nat → Nat) (ptr : Nat) (m : Memory) : Prop where
  locks : m.holder = s.holder ∧ m.holderRepeatNr = s.holderRepeatNr
  heap : HeapInv (D.task p) ⟨m.heap, Function.update live ptr 0⟩
  pages : (m.vm = s.vm ∧ m.heap.runs = s.heap.runs ∧ m.stale = s.stale) ∨ ∃ a cnt, 0 < cnt ∧ s.heap.runs a = cnt ∧
    PageCore M m.vm ∧ Freed M s.vm m.vm (halfOf p) (a / pgSize) cnt ∧ m.vm.runs = s.vm.runs ∧
    m.heap.runs = Function.update s.heap.runs a 0 ∧ m.stale = lingering s.vm p (a, cnt) ++ s.stale

/-- sys_free of a live block: no ASSERT fails, in the heap or in mfree_page. -/
theorem sysFreeLocked_frees {s : Memory} {live : Nat → Nat} (on : HeapOn M D p s.vm ⟨s.heap, live⟩) {task ptr : Nat}
    (lock : LockFits s (poolFlags p) task) (some_live : 0 < live ptr) :
    Succeeds (sysFreeLocked M (D.caller task p) ptr) (fun _ m => GivenBack M D p s live ptr m) s := by
  have fit : LockFits s (D.caller task p).pf (D.caller task p).task := lock
  obtain ⟨null, placed, taken⟩ := sysFree_takeBack (sysFree_spec on.heap some_live)
  rw [sysFreeLocked, Succeeds, wp_bind, wp_assert]
  refine ⟨fun _ => ?_, fun no => no null⟩
  rw [wp_bind, wp_assert]
  refine ⟨fun _ => ?_, fun no => no fun kernel => placed (decide_eq_true kernel)⟩
  rw [wp_bind, wp_lockAcquire fit, wp_bind, wp_onTaskHeap]
  refine wp_post (taken.and_returns (takeBack_runs ptr)) ?_
  rintro run g ⟨⟨nothing, something⟩, same⟩
  rw [wp_bind]
  cases run with
  | none =>
    rw [giveBack, wp_pure, wp_lockRelease fit]
    exact ⟨⟨rfl, rfl⟩, nothing rfl, .inl ⟨rfl, same, rfl⟩⟩
  | some run =>
    obtain ⟨pos, held, kept⟩ := something run.1 run.2 rfl
    have held' : s.heap.runs run.1 = run.2 := by
      rw [← same]
      exact held
    have use : ∀ k < run.2, Holds s.heap (run.1 / pgSize + k) := fun k hk => ⟨run.1, k, by rw [held']; exact hk, rfl⟩
    have free : Succeeds (mfreePage M (poolFlags p) p (run.1 / pgSize * pgSize) run.2) _ s.vm := mfreePage_spec on.core pos
      (fun k hk => ⟨on.inside _ (use k hk), on.set _ (use k hk)⟩) fun k hk => on.mapped _ (use k hk)
    have page : run.1 / pgSize * pgSize = run.1 := aligned_of_run on.heap (a := run.1) (by dsimp only; omega)
    rw [page] at free
    -- the state behind the first line of giveBack
    let s' : Memory := { s with stale := lingering s.vm p run ++ s.stale }
    have fit' : LockFits s' (D.caller task p).pf (D.caller task p).task := lock
    rw [giveBack, wp_bind, wp_modify]
    change wp _ _ _ ((s'.locked (D.caller task p).pf (D.caller task p).task).put s.vm g)
    rw [wp_bind, wp_onVM]
    refine wp_post free ?_
    rintro - vm ⟨core, freed, vm_runs⟩
    rw [wp_onTaskHeap, Kernel.mfreePage, wp_bind, wp_get, wp_ite]
    refine ⟨fun _ => ?_, fun no => absurd ⟨pos, held⟩ no⟩
    rw [wp_modify, wp_lockRelease fit']
    refine ⟨⟨rfl, rfl⟩, kept, .inr ⟨run.1, run.2, pos, held', core, freed, vm_runs, ?_, rfl⟩⟩
    exact congrArg (fun runs => Function.update runs run.1 0) same

end On

end Zhenxiang.Paging
