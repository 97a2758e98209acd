import Zhenxiang.Paging.HeapPages

/-! The heaps give back what they got: without live blocks, the bitmaps and the mappings are those of the start. -/
namespace Zhenxiang.Paging
open Lib Kernel

section Runs
variable {M : Machine} {D : Descs} {s₀ s t : TaskHeaps} {p n cnt : Nat} {contents : Mem}

/-- What the state adds to the one it started from: pages of heaps, and page tables. -/
structure Over (M : Machine) (D : Descs) (s₀ s : TaskHeaps) : Prop where
  core : PageCore M s.vm
  runs : s.vm.runs = s₀.vm.runs
  heap : ∀ p, HeapInv (D.task p) (s.heaps p)
  locks : ∀ pf, s.holder pf = none ∧ s.holderRepeatNr pf = 0
  inside : ∀ p n, InHeap s p n → InVaddr M (halfOf p) n
  apart : ∀ p n, InHeap s p n → s₀.vm.vaddrBit (halfOf p) n = false
  vaddr : ∀ h n, InVaddr M h n →
    (s.vm.vaddrBit h n = true ↔ s₀.vm.vaddrBit h n = true ∨ ∃ p, h = halfOf p ∧ InHeap s p n)
  mapped : ∀ p n, InHeap s p n → ∃ f, Uses s.vm (.page (halfOf p) n) f
  kept : ∀ sl f, Uses s₀.vm sl f → Uses s.vm sl f
  only : ∀ sl f, Uses s.vm sl f → Uses s₀.vm sl f ∨ (∃ p n, sl = .page (halfOf p) n ∧ InHeap s p n) ∨
    ∃ p i, sl = .table p i
  takes : Takes M s₀.vm s.vm
  tlb : TlbFits M (halfOf s.active) s.vm s.stale

/-- Each heap on its pages. -/
theorem Over.on (inv : Over M D s₀ s) (p : Nat) : HeapOn M D p s.vm (s.heaps p) where
  core := inv.core
  heap := inv.heap p
  inside := inv.inside p
  set n use := (inv.vaddr _ n (inv.inside p n use)).2 (.inr ⟨p, rfl, use⟩)
  mapped := inv.mapped p

/-! What a call makes of the whole state. -/

/-- The address space p goes on with other pages and another heap. -/
def TaskHeaps.turn (s : TaskHeaps) (p : Nat) (vm : VM) (heap : HeapSys) (stale : List (Nat × Nat)) : TaskHeaps :=
  { s with vm := vm, heaps := Function.update s.heaps p heap, stale := stale }

variable {vm : VM} {heap : HeapSys} {stale : List (Nat × Nat)}

theorem turn_self : (s.turn p vm heap stale).heaps p = heap := Function.update_self ..

theorem turn_other {q : Nat} (other : q ≠ p) : (s.turn p vm heap stale).heaps q = s.heaps q := Function.update_of_ne other ..

theorem Over.turn_heap (inv : Over M D s₀ s) (kept : HeapInv (D.task p) heap) (q : Nat) :
    HeapInv (D.task q) ((s.turn p vm heap stale).heaps q) := by
  by_cases here : q = p
  · rw [here, turn_self]
    exact kept
  · rw [turn_other here]
    exact inv.heap q

theorem inHeap_same (runs : heap.heap.runs = (s.heaps p).heap.runs) {q m : Nat} :
    InHeap (s.turn p vm heap stale) q m ↔ InHeap s q m := by
  rw [InHeap, InHeap]
  by_cases here : q = p
  · rw [here, turn_self, holds_same runs]
  · rw [turn_other here]

/-- A call that gets no pages and gives none back. -/
theorem Over.same (inv : Over M D s₀ s) (kept : HeapInv (D.task p) heap)
    (runs : heap.heap.runs = (s.heaps p).heap.runs) : Over M D s₀ (s.turn p s.vm heap s.stale) where
  core := inv.core
  runs := inv.runs
  heap := inv.turn_heap kept
  locks := inv.locks
  inside q m use := inv.inside q m ((inHeap_same runs).1 use)
  apart q m use := inv.apart q m ((inHeap_same runs).1 use)
  vaddr h m inside := by
    simp only [inHeap_same runs]
    exact inv.vaddr h m inside
  mapped q m use := inv.mapped q m ((inHeap_same runs).1 use)
  kept := inv.kept
  only sl f use := by
    simp only [inHeap_same runs]
    exact inv.only sl f use
  takes := inv.takes
  tlb := inv.tlb

theorem inHeap_grow (runs : heap.heap.runs = Function.update (s.heaps p).heap.runs (n * pgSize) cnt)
    (new : (s.heaps p).heap.runs (n * pgSize) = 0) {q m : Nat} :
    InHeap (s.turn p vm heap stale) q m ↔ InHeap s q m ∨ (q = p ∧ n ≤ m ∧ m < n + cnt) := by
  rw [InHeap, InHeap]
  by_cases here : q = p
  · rw [here, turn_self, holds_grow runs new]
    simp only [true_and]
  · rw [turn_other here]
    simp only [here, false_and, or_false]

/-- A call that got cnt pages from malloc_page. -/
theorem Over.grow (inv : Over M D s₀ s) (kept : HeapInv (D.task p) heap) (pos : 0 < cnt)
    (grown : Grown M s.vm vm (halfOf p) n cnt)
    (runs : heap.heap.runs = Function.update (s.heaps p).heap.runs (n * pgSize) cnt)
    (tlb : TlbFits M (halfOf s.active) vm s.stale) : Over M D s₀ (s.turn p vm heap s.stale) := by
  have pages {q m : Nat} : InHeap (s.turn p vm heap s.stale) q m ↔ InHeap s q m ∨ (q = p ∧ n ≤ m ∧ m < n + cnt) :=
    inHeap_grow runs (((inv.on p).fresh grown pos).not_run pos)
  have range {h : Option Nat} {m : Nat} : InRange (halfOf p) n cnt (.page h m) ↔
      ∃ q, h = halfOf q ∧ q = p ∧ n ≤ m ∧ m < n + cnt := by
    rw [inRange_page]
    constructor
    · rintro ⟨rfl, here⟩
      exact ⟨p, rfl, rfl, here⟩
    · rintro ⟨q, rfl, rfl, here⟩
      exact ⟨rfl, here⟩
  have offset {m : Nat} (low : n ≤ m) (high : m < n + cnt) : ∃ k < cnt, n + k = m := ⟨m - n, by omega, by omega⟩
  refine {
    core := grown.core
    runs := grown.runs.trans inv.runs
    heap := inv.turn_heap kept
    locks := inv.locks
    inside := fun q m use => ?_
    apart := fun q m use => ?_
    vaddr := fun h m inside => ?_
    mapped := fun q m use => ?_
    kept := fun sl f use => grown.kept sl f (inv.kept sl f use)
    only := fun sl f use => ?_
    takes := inv.takes.trans grown.takes grown.kept
    tlb := tlb }
  · rcases pages.1 use with old | ⟨rfl, low, high⟩
    · exact inv.inside q m old
    · obtain ⟨k, hk, rfl⟩ := offset low high
      exact grown.inside k hk
  · rcases pages.1 use with old | ⟨rfl, low, high⟩
    · exact inv.apart q m old
    · obtain ⟨k, hk, rfl⟩ := offset low high
      refine Bool.eq_false_of_not_eq_true fun set => ?_
      have still := (inv.vaddr _ _ (grown.inside k hk)).2 (.inl set)
      rw [grown.fresh k hk] at still
      cases still
  · rw [show (s.turn p vm heap s.stale).vm = vm from rfl, grown.vaddr h m inside, inv.vaddr h m inside, range, or_assoc,
      ← exists_or]
    simp only [pages, and_or_left]
  · rcases pages.1 use with old | ⟨rfl, low, high⟩
    · obtain ⟨f, hf⟩ := inv.mapped q m old
      exact ⟨f, grown.kept _ f hf⟩
    · obtain ⟨k, hk, rfl⟩ := offset low high
      exact grown.mapped k hk
  · rcases grown.only sl f use with old | ⟨k, hk, rfl⟩ | table
    · rcases inv.only sl f old with old | ⟨q, m, rfl, held⟩ | table
      · exact .inl old
      · exact .inr (.inl ⟨q, m, rfl, pages.2 (.inl held)⟩)
      · exact .inr (.inr table)
    · exact .inr (.inl ⟨p, n + k, rfl, pages.2 (.inr ⟨rfl, by omega, by omega⟩)⟩)
    · exact .inr (.inr table)

theorem Over.inHeap_shrink (inv : Over M D s₀ s) {a : Nat} (held : (s.heaps p).heap.runs a = cnt)
    (runs : heap.heap.runs = Function.update (s.heaps p).heap.runs a 0) {q m : Nat} :
    InHeap (s.turn p vm heap stale) q m ↔ InHeap s q m ∧ ¬ (q = p ∧ a / pgSize ≤ m ∧ m < a / pgSize + cnt) := by
  rw [InHeap, InHeap]
  by_cases here : q = p
  · rw [here, turn_self, holds_shrink (inv.heap p) held runs]
    simp only [true_and]
  · rw [turn_other here]
    simp only [here, false_and, not_false_eq_true, and_true]

/-- A page of a heap is none that was mapped at the start. -/
theorem Over.new_page (inv : Over M D s₀ s) (start : PageCore M s₀.vm) {m f : Nat} (use : InHeap s p m) :
    ¬ Uses s₀.vm (.page (halfOf p) m) f := by
  intro old
  have inside := inv.inside p m use
  rcases start.reserved _ m f old with reserved | ⟨kernel, low⟩
  · have clear := inv.apart p m use
    rw [reserved.2] at clear
    cases clear
  · rw [kernel] at inside
    have above := inside.1
    simp only [kHeapStart, pgSize] at above
    omega

/-- A call that gave the run of pages at a back to mfree_page. -/
theorem Over.shrink (inv : Over M D s₀ s) (start : PageCore M s₀.vm) (kept : HeapInv (D.task p) heap) {a : Nat}
    (held : (s.heaps p).heap.runs a = cnt) (core : PageCore M vm) (freed : Freed M s.vm vm (halfOf p) (a / pgSize) cnt)
    (vm_runs : vm.runs = s.vm.runs) (runs : heap.heap.runs = Function.update (s.heaps p).heap.runs a 0)
    (tlb : TlbFits M (halfOf s.active) vm stale) : Over M D s₀ (s.turn p vm heap stale) := by
  have pages {q m : Nat} : InHeap (s.turn p vm heap stale) q m ↔
      InHeap s q m ∧ ¬ (q = p ∧ a / pgSize ≤ m ∧ m < a / pgSize + cnt) := inv.inHeap_shrink held runs
  -- the pages that go are pages of the heap
  have gone {k : Nat} (hk : k < cnt) : InHeap s p (a / pgSize + k) := ⟨a, k, by rw [held]; exact hk, rfl⟩
  have stays {q m : Nat} (use : InHeap (s.turn p vm heap stale) q m) :
      InHeap s q m ∧ ¬ InRange (halfOf p) (a / pgSize) cnt (.page (halfOf q) m) := by
    obtain ⟨old, out⟩ := pages.1 use
    refine ⟨old, fun range => out ?_⟩
    obtain ⟨same, low, high⟩ := inRange_page.1 range
    exact ⟨halfOf_inj same, low, high⟩
  refine {
    core := core
    runs := vm_runs.trans inv.runs
    heap := inv.turn_heap kept
    locks := inv.locks
    inside := fun q m use => inv.inside q m (stays use).1
    apart := fun q m use => inv.apart q m (stays use).1
    vaddr := fun h m inside => ?_
    mapped := fun q m use => ?_
    kept := fun sl f use => ?_
    only := fun sl f use => ?_
    takes := ⟨fun pf i low set => ?_, fun pf i low set => ?_, fun sl pf i low use => ?_⟩
    tlb := tlb }
  · rw [show (s.turn p vm heap stale).vm = vm from rfl, freed.vaddr h m inside, inv.vaddr h m inside]
    constructor
    · rintro ⟨set | ⟨q, rfl, use⟩, out⟩
      · exact .inl set
      · refine .inr ⟨q, rfl, pages.2 ⟨use, ?_⟩⟩
        rintro ⟨rfl, low, high⟩
        exact out (inRange_page.2 ⟨rfl, low, high⟩)
    · rintro (set | ⟨q, rfl, use⟩)
      · refine ⟨.inl set, ?_⟩
        intro range
        obtain ⟨k, hk, same⟩ := range
        obtain ⟨rfl, rfl⟩ := Slot.page.inj same
        rw [inv.apart p _ (gone hk)] at set
        cases set
      · exact ⟨.inr ⟨q, rfl, (stays use).1⟩, (stays use).2⟩
  · obtain ⟨f, hf⟩ := inv.mapped q m (stays use).1
    exact ⟨f, (freed.uses _ f).2 ⟨hf, (stays use).2⟩⟩
  · refine (freed.uses sl f).2 ⟨inv.kept sl f use, ?_⟩
    rintro ⟨k, hk, rfl⟩
    exact inv.new_page start (gone hk) use
  · obtain ⟨old, out⟩ := (freed.uses sl f).1 use
    rcases inv.only sl f old with old | ⟨q, m, rfl, held⟩ | table
    · exact .inl old
    · refine .inr (.inl ⟨q, m, rfl, pages.2 ⟨held, ?_⟩⟩)
      rintro ⟨rfl, low, high⟩
      exact out (inRange_page.2 ⟨rfl, low, high⟩)
    · exact .inr (.inr table)
  · refine (freed.bits pf i low).2 ⟨inv.takes.more pf i low set, ?_⟩
    rintro sl ⟨k, hk, rfl⟩ use
    rcases inv.takes.new _ pf i low use with old | clear
    · exact inv.new_page start (gone hk) old
    · rw [set] at clear
      cases clear
  · obtain ⟨old, out⟩ := (freed.bits pf i low).1 set
    rcases inv.takes.only pf i low old with before | ⟨sl, use⟩
    · exact .inl before
    · exact .inr ⟨sl, (freed.uses sl _).2 ⟨use, fun range => out sl range use⟩⟩
  · exact inv.takes.new sl pf i low ((freed.uses sl _).1 use).1

/-! The calls. -/

theorem setLive_put {b size : Nat} {m : Memory} (locks : m.holder = s.holder ∧ m.holderRepeatNr = s.holderRepeatNr) :
    (s.putMemory p m).setLive p b size = s.turn p m.vm ⟨m.heap, Function.update (s.heaps p).live b size⟩ m.stale := by
  simp only [TaskHeaps.setLive, TaskHeaps.putMemory, TaskHeaps.turn, Function.update_idem, Function.update_self, locks.1, locks.2]

/-- sys_free of a live block: no ASSERT fails. -/
theorem Over.free (inv : Over M D s₀ s) {task ptr : Nat} (live : 0 < (s.heaps p).live ptr) :
    Succeeds (callPerform M D (.free task p ptr)) (fun ok t => ok = true ∧ ∃ m,
      t = (s.putMemory p m).setLive p ptr 0 ∧ GivenBack M D p (s.memory p) (s.heaps p).live ptr m) s := by
  rw [callPerform, Succeeds, wp_bind, onTask, wp_zoom]
  have on : HeapOn M D p (s.memory p).vm ⟨(s.memory p).heap, (s.heaps p).live⟩ := inv.on p
  refine wp_post (sysFreeLocked_frees on (.inl (inv.locks _)) live) ?_
  rintro - m back
  rw [wp_bind, wp_modify, wp_pure]
  exact ⟨rfl, m, rfl, back⟩

/-- It leaves the state in order when the address space is the active one. -/
theorem Over.givenBack (inv : Over M D s₀ s) (start : PageCore M s₀.vm) {ptr : Nat} {m : Memory} (here : p = s.active)
    (back : GivenBack M D p (s.memory p) (s.heaps p).live ptr m) : Over M D s₀ ((s.putMemory p m).setLive p ptr 0) := by
  rw [setLive_put back.locks]
  rcases back.pages with ⟨vm, runs, stale⟩ | ⟨a, cnt, pos, held, core, freed, vm_runs, runs, stale⟩
  · rw [vm, stale]
    exact inv.same back.heap runs
  · refine inv.shrink start back.heap held core freed vm_runs runs ?_
    rw [stale, ← here]
    refine TlbFits.freed (here ▸ inv.tlb) (fun k hk => inv.inside p _ ⟨a, k, ?_, rfl⟩) freed
    exact held ▸ hk

/-- malloc_page with everything that may come of it. -/
theorem mallocPage_supplies (core : PageCore M s.vm) {cnt : Nat}
    (tables : HasTables M s.vm (.mallocPage (poolFlags p) p cnt)) :
    Supplies M (halfOf p) (mallocPage M (poolFlags p) p) s.vm (fun _ _ => True)
      (fun n cnt vm => Grown M s.vm vm (halfOf p) n cnt) (fun _ => True) cnt where
  answers := by
    refine wp_post (wp_and (mallocPage_grown core tables) mallocPage_bounds) ?_
    rintro r vm ⟨grown, bounds⟩
    exact ⟨bounds.2, fun _ => trivial, grown⟩
  grown _ _ new := new

theorem Over.malloc (inv : Over M D s₀ s) {task size : Nat} (here : p = s.active)
    (tables : CallTables M D s (.malloc task p contents size)) :
    Returns (callPerform M D (.malloc task p contents size)) (fun ok t => (ok = false → t.vm = s.vm) → Over M D s₀ t) s := by
  rw [callPerform, Returns, wp_bind, onTask, wp_zoom, sysMallocTlb, wp_bind]
  have lock : LockFits (s.memory p) (poolFlags p) task := .inl (inv.locks _)
  have serves : Returns (sysMallocLocked contents (D.caller task p) (mallocPage M (poolFlags p) p) size) _ (s.memory p) :=
    sysMallocLocked_serves (inv.on p) lock fun cnt wanted => mallocPage_supplies inv.core (tables cnt wanted)
  refine wp_post serves ?_
  rintro r m ⟨vm, heap, rfl, served⟩
  rw [wp_bind, wp_get, wp_bind, wp_check]
  refine ⟨fun settled => ?_, fun _ => trivial⟩
  rw [wp_pure]
  have untouched : s.putMemory p ((s.memory p).put s.vm (s.heaps p).heap) = s := by
    simp only [TaskHeaps.putMemory, TaskHeaps.memory, Memory.put, Function.update_eq_self]
  cases served with
  | refused =>
    rw [untouched]
    exact (wp_pure _).2 fun _ => inv
  | short =>
    refine (wp_pure _).2 fun kept => ?_
    obtain rfl : vm = s.vm := kept rfl
    rw [untouched]
    exact inv
  | stock _ kept runs =>
    rw [wp_bind, wp_modify, wp_pure, setLive_put ⟨rfl, rfl⟩]
    exact fun _ => inv.same kept runs
  | pages _ pos got kept runs =>
    rw [wp_bind, wp_modify, wp_pure, setLive_put ⟨rfl, rfl⟩]
    refine fun _ => inv.grow kept pos got runs ?_
    subst here
    exact (PageCore.settled_iff (s := (s.memory s.active).put vm heap) got.core fun e mem => (inv.tlb e mem).1).1 settled

theorem Over.step (inv : Over M D s₀ s) (start : PageCore M s₀.vm) (next : CallStep M D s t) : Over M D s₀ t := by
  obtain ⟨e, ok, allowed, tables, run, kept⟩ := next
  cases e with
  | schedule p =>
    have whole : Returns (callPerform M D (.schedule p)) (fun _ t => Over M D s₀ t) s := by
      rw [callPerform, Returns, wp_bind, wp_modify, wp_pure]
      exact { inv with tlb := fun e no => absurd no List.not_mem_nil }
    exact returns_iff.1 whole _ _ run
  | malloc task p contents size => exact returns_iff.1 (inv.malloc allowed tables) _ _ run kept
  | free task p ptr =>
    obtain ⟨-, m, rfl, back⟩ := (wp_of_ok run).1 (inv.free allowed.2)
    exact inv.givenBack start allowed.1 back
  | write p x v =>
    have whole : Returns (callPerform M D (.write p x v)) (fun _ t => Over M D s₀ t) s := by
      rw [callPerform, Returns, wp_bind, onTask, wp_zoom, onTaskHeap, wp_zoom, Kernel.wp_onMem, wp_store, wp_pure]
      obtain ⟨-, b, low, high⟩ := allowed
      obtain ⟨cls, cnts, view⟩ := inv.heap p
      exact inv.same (p := p) ⟨cls, cnts, view.write low high⟩ rfl
    exact returns_iff.1 whole _ _ run

/-- A frame of a pool in use is one of the pool of its slot, and its bit is set. -/
theorem PageCore.bit_of_use {v : VM} (core : PageCore M v) {sl : Slot} {pf : PoolFlags} {i : Nat} (low : i < M.poolLen pf)
    (use : Uses v sl (M.frame pf i)) : poolOf sl = pf ∧ v.poolBit pf i = true := by
  rcases core.marked sl _ use with ⟨j, hj, frame, set⟩ | ⟨_, _, _, below⟩
  · obtain ⟨rfl, rfl⟩ := frame_inj low hj frame
    exact ⟨rfl, set⟩
  · have above := frame_ge (M := M) pf i
    simp only [kStart] at above
    omega

/-- The bits of a pool that are new belong to pages of heaps, or to page tables. -/
theorem Over.pool (inv : Over M D s₀ s) (start : PageCore M s₀.vm) {pf : PoolFlags} {i : Nat} (low : i < M.poolLen pf) :
    s.vm.poolBit pf i = true ↔ s₀.vm.poolBit pf i = true ∨
      (∃ p n, pf = poolFlags p ∧ InHeap s p n ∧ Uses s.vm (.page (halfOf p) n) (M.frame pf i)) ∨
      (pf = .kernel ∧ ∃ p j, Uses s.vm (.table p j) (M.frame pf i)) := by
  constructor
  · intro set
    rcases inv.takes.only pf i low set with old | ⟨sl, use⟩
    · exact .inl old
    · have pool := (inv.core.bit_of_use low use).1
      rcases inv.only sl _ use with old | ⟨p, n, rfl, held⟩ | ⟨p, j, rfl⟩
      · exact .inl (start.bit_of_use low old).2
      · refine .inr (.inl ⟨p, n, ?_, held, use⟩)
        rw [← pool]
        unfold halfOf
        cases poolFlags p <;> rfl
      · exact .inr (.inr ⟨pool.symm, p, j, use⟩)
  · rintro (old | ⟨p, n, -, -, use⟩ | ⟨-, p, j, use⟩)
    · exact inv.takes.more pf i low old
    · exact (inv.core.bit_of_use low use).2
    · exact (inv.core.bit_of_use low use).2

end Runs

/-! Which blocks are live after a call. -/

theorem live_setLive {s : TaskHeaps} {p b size : Nat} {m : Memory} (q c : Nat) :
    (((s.putMemory p m).setLive p b size).heaps q).live c = if q = p ∧ c = b then size else (s.heaps q).live c := by
  by_cases here : q = p
  · subst here
    simp only [TaskHeaps.setLive, TaskHeaps.putMemory, Function.update_self, Function.update_apply, true_and]
  · simp only [TaskHeaps.setLive, TaskHeaps.putMemory, Function.update_of_ne here, here, false_and, if_false]

theorem malloc_live {M : Machine} {D : Descs} {s : TaskHeaps} (task p : Nat) (contents : Mem) (size : Nat) :
    Returns (callPerform M D (.malloc task p contents size)) (fun ok t => ok = true →
      ∃ b, ∀ q c, (t.heaps q).live c = if q = p ∧ c = b then size else (s.heaps q).live c) s := by
  rw [callPerform, Returns, wp_bind, onTask, wp_zoom]
  refine wp_post (wp_trivial _) fun r m _ => ?_
  cases r with
  | none => exact (wp_pure _).2 fun no => absurd no Bool.false_ne_true
  | some b =>
    rw [wp_bind, wp_modify, wp_pure]
    exact fun _ => ⟨b, live_setLive⟩

theorem free_live {M : Machine} {D : Descs} {s : TaskHeaps} (task p ptr : Nat) :
    Returns (callPerform M D (.free task p ptr)) (fun _ t =>
      ∀ q c, (t.heaps q).live c = if q = p ∧ c = ptr then 0 else (s.heaps q).live c) s := by
  rw [callPerform, Returns, wp_bind, onTask, wp_zoom]
  refine wp_post (wp_trivial _) fun _ m _ => ?_
  rw [wp_bind, wp_modify, wp_pure]
  exact live_setLive

/-- The live blocks are among those in the list, each with its address space. -/
def LiveOnly (s : TaskHeaps) (l : List (Nat × Nat)) : Prop := ∀ q c, 0 < (s.heaps q).live c → (q, c) ∈ l

theorem LiveOnly.malloc {M : Machine} {D : Descs} {s t : TaskHeaps} {l : List (Nat × Nat)} {task p size b : Nat} {contents : Mem}
    (only : LiveOnly s l) (run : callPerform M D (.malloc task p contents size) s = .ok (true, t))
    (new : (s.heaps p).live b = 0) (live : 0 < (t.heaps p).live b) : LiveOnly t ((p, b) :: l) := by
  obtain ⟨block, after⟩ := returns_iff.1 (malloc_live task p contents size) _ _ run rfl
  obtain rfl : b = block := by
    by_contra other
    rw [after, if_neg fun same => other same.2, new] at live
    exact Nat.lt_irrefl 0 live
  intro q c held
  by_cases here : q = p ∧ c = b
  · rw [here.1, here.2]
    exact List.mem_cons_self
  · rw [after, if_neg here] at held
    exact List.mem_cons_of_mem _ (only q c held)

theorem LiveOnly.free {M : Machine} {D : Descs} {s t : TaskHeaps} {l : List (Nat × Nat)} {task p ptr : Nat} {ok : Bool}
    (only : LiveOnly s ((p, ptr) :: l)) (run : callPerform M D (.free task p ptr) s = .ok (ok, t)) : LiveOnly t l := by
  have after := returns_iff.1 (free_live task p ptr) _ _ run
  intro q c held
  rw [after] at held
  split at held
  · exact absurd held (Nat.lt_irrefl 0)
  · next other =>
    rcases List.mem_cons.1 (only q c held) with same | rest
    · exact absurd (Prod.mk.inj same) other
    · exact rest

theorem LiveOnly.schedule {M : Machine} {D : Descs} {s t : TaskHeaps} {l : List (Nat × Nat)} {p : Nat} {ok : Bool}
    (only : LiveOnly s l) (run : callPerform M D (.schedule p) s = .ok (ok, t)) : LiveOnly t l := by
  cases run
  exact only

/-! Two processes that take turns. -/

/-- Descriptors in the kernel's image and in a PCB. -/
def tinyDescs : Descs where
  descs p := if p = 0 then 0xc0010000 else 0xc0200000
  poolSize _ := 8 * pgSize
  kernel_pos := by decide
  kernel_below := by decide
  user_above p process := by rw [if_neg (by omega)]; decide
  pool_small _ := by decide

/-- The memory that block_desc_init leaves. -/
def freshHeap (p : Nat) : HeapSys where
  heap :=
    match blockDescInit (tinyDescs.descs p) ⟨fun _ => 0, fun _ => 0⟩ with
    | .ok (_, h) => h
    | .error _ => ⟨fun _ => 0, fun _ => 0⟩
  live _ := 0

theorem freshHeap_start (p : Nat) : HeapStart (tinyDescs.task p) (freshHeap p) := by
  have first : Described (tinyDescs.task p) 0 fun _ => 0 := fun i no => absurd no (Nat.not_lt_zero i)
  have spec := blockDescInitFrom_spec (h := ⟨fun _ => 0, fun _ => 0⟩) (k := 0) (n := descCnt) rfl first
  rw [show descAt (tinyDescs.task p) 0 = tinyDescs.descs p from Nat.add_zero _] at spec
  obtain ⟨_, h, run, -, runs⟩ := succeeds_iff.1 spec
  have here : (freshHeap p).heap = h := by
    unfold freshHeap
    dsimp only
    rw [show blockDescInit (tinyDescs.descs p) ⟨fun _ => 0, fun _ => 0⟩ = .ok ((), h) from run]
  refine ⟨fun a => ?_, fun _ => rfl, ⟨fun _ => 0, fun _ => 0⟩, ?_⟩
  · rw [here, runs]
  · rw [here]
    exact run

def tinyHeaps : TaskHeaps := ⟨tinyStart, freshHeap, fun _ => none, fun _ => 0, 1, []⟩

/-- Whether a call was successful, and the state it leaves. -/
def callDone (e : HeapCall) (s : TaskHeaps) : Bool × TaskHeaps :=
  match callPerform tiny tinyDescs e s with
  | .ok (b, t) => (b, t)
  | .error _ => (false, s)

theorem run_of_callDone {e : HeapCall} {s : TaskHeaps} (h : (callDone e s).1 = true) :
    callPerform tiny tinyDescs e s = .ok (true, (callDone e s).2) := by
  unfold callDone at *
  cases run : callPerform tiny tinyDescs e s with
  | error f => simp [run] at h
  | ok r =>
    simp only [run] at h
    simp [← h]

theorem callStep_of_done {e : HeapCall} {s : TaskHeaps} (allowed : CallAllowed s e) (tables : CallTables tiny tinyDescs s e)
    (done : (callDone e s).1 = true) : CallStep tiny tinyDescs s (callDone e s).2 :=
  ⟨e, true, allowed, tables, run_of_callDone done, fun no => absurd no.symm Bool.false_ne_true⟩

theorem tables_of_finds {s : TaskHeaps} {task p size cnt : Nat} {contents : Mem}
    (wanted : pagesWanted (tinyDescs.caller task p) (s.heaps p).heap size = some cnt)
    (finds : mallocFinds tiny (poolFlags p) p cnt s.vm = true) : CallTables tiny tinyDescs s (.malloc task p contents size) := by
  intro n same
  cases wanted.symm.trans same
  exact hasTables_of_finds finds

/-- A state with the calls that lead to it and the blocks that are live in it. -/
structure HeapRun where
  state : TaskHeaps
  blocks : List (Nat × Nat)
  run : Relation.ReflTransGen (CallStep tiny tinyDescs) tinyHeaps state
  only : LiveOnly state blocks

namespace HeapRun

def start : HeapRun := ⟨tinyHeaps, [], .refl, fun _ _ no => absurd no (Nat.lt_irrefl 0)⟩

def malloc (r : HeapRun) (p size cnt b : Nat) (here : p = r.state.active)
    (wanted : pagesWanted (tinyDescs.caller p p) (r.state.heaps p).heap size = some cnt)
    (finds : mallocFinds tiny (poolFlags p) p cnt r.state.vm = true) (new : (r.state.heaps p).live b = 0)
    (done : (callDone (.malloc p p (fun _ => 0xcc) size) r.state).1 = true)
    (live : 0 < ((callDone (.malloc p p (fun _ => 0xcc) size) r.state).2.heaps p).live b) : HeapRun where
  state := (callDone (.malloc p p (fun _ => 0xcc) size) r.state).2
  blocks := (p, b) :: r.blocks
  run := r.run.tail (callStep_of_done (e := .malloc p p _ size) here (tables_of_finds wanted finds) done)
  only := r.only.malloc (run_of_callDone done) new live

def free (r : HeapRun) (p b : Nat) (rest : List (Nat × Nat)) (blocks : r.blocks = (p, b) :: rest) (here : p = r.state.active)
    (live : 0 < (r.state.heaps p).live b) (done : (callDone (.free p p b) r.state).1 = true) : HeapRun where
  state := (callDone (.free p p b) r.state).2
  blocks := rest
  run := r.run.tail (callStep_of_done (e := .free p p b) ⟨here, live⟩ trivial done)
  only := LiveOnly.free (blocks ▸ r.only) (run_of_callDone done)

def schedule (r : HeapRun) (p : Nat) : HeapRun where
  state := (callDone (.schedule p) r.state).2
  blocks := r.blocks
  run := r.run.tail (callStep_of_done (e := .schedule p) trivial trivial rfl)
  only := r.only.schedule (run_of_callDone (e := .schedule p) rfl)

end HeapRun

/-- Process 1 takes a block of 2000 bytes, and process 2 one of 3000. -/
def firstBlock : HeapRun := HeapRun.start.malloc 1 2000 1 (userVaddrStart + sizeofArena) (by decide +kernel) (by decide +kernel)
  (by decide +kernel) (by decide +kernel) (by decide +kernel) (by decide +kernel)

def twoBlocks : HeapRun := (firstBlock.schedule 2).malloc 2 3000 1 (userVaddrStart + sizeofArena) (by decide +kernel)
  (by decide +kernel) (by decide +kernel) (by decide +kernel) (by decide +kernel) (by decide +kernel)

/-- Process 2 gives back its own, and then process 1. -/
def secondFreed : HeapRun := twoBlocks.free 2 (userVaddrStart + sizeofArena) [(1, userVaddrStart + sizeofArena)] rfl
  (by decide +kernel) (by decide +kernel) (by decide +kernel)

def noBlock : HeapRun := (secondFreed.schedule 1).free 1 (userVaddrStart + sizeofArena) [] rfl
  (by decide +kernel) (by decide +kernel) (by decide +kernel)

end Zhenxiang.Paging
