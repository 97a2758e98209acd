import Zhenxiang.Paging.PagesCorrect
import Zhenxiang.Kernel.HeapSafety

/-! The requests for memory under the locks of the pools, and what is left behind when the memory is
exhausted. -/
namespace Zhenxiang.Paging
open Lib Kernel

/-- The pages, the memory of the running task with the heap in it, the locks of the pools, and the pages, each with
its frame, that the TLB may still hold although they have been given back; no request reads those. -/
structure Memory where
  vm : VM
  heap : Heap
  holder : PoolFlags → Option Nat
  holderRepeatNr : PoolFlags → Nat
  stale : List (Nat × Nat)

/-- The running thread: its address space, its block descriptors, and the size of its pool. -/
structure Caller where
  task : Nat
  p : Nat
  descs : Nat
  poolSize : Nat

/-- The pool that sys_malloc takes memory from. -/
def Caller.pf (c : Caller) : PoolFlags := if c.p = 0 then .kernel else .user

def onVM {α : Type} (c : Kern VM α) : Kern Memory α := zoom Memory.vm (fun s vm => { s with vm := vm }) c

def onTaskHeap {α : Type} (c : Kern Heap α) : Kern Memory α := zoom Memory.heap (fun s h => { s with heap := h }) c

namespace Memory

def lock (s : Memory) (pf : PoolFlags) (holder : Option Nat) (nr : Nat) : Memory :=
  { s with
    holder := Function.update s.holder pf holder
    holderRepeatNr := Function.update s.holderRepeatNr pf nr }

end Memory

/-- A thread that finds the lock taken waits; its call goes on from a state in which the lock is free. -/
def lockAcquire (pf : PoolFlags) (task : Nat) : Kern Memory Unit := do
  let s ← get
  if s.holder pf = some task then
    modify fun s => s.lock pf (some task) ((s.holderRepeatNr pf + 1) % 2 ^ 32)
  else
    check (s.holder pf = none) .diverges
    assert (s.holderRepeatNr pf = 0)
    modify fun s => s.lock pf (some task) 1

def lockRelease (pf : PoolFlags) (task : Nat) : Kern Memory Unit := do
  let s ← get
  assert (s.holder pf = some task)
  if 1 < s.holderRepeatNr pf then
    modify fun s => s.lock pf (some task) (s.holderRepeatNr pf - 1)
  else
    assert (s.holderRepeatNr pf = 1)
    modify fun s => s.lock pf none 0

variable (M : Machine) (contents : Mem) (c : Caller)

/-- malloc_page as the answer to it is given to the heap: the address, and what the new frames hold. -/
def pageSource (vaddr : Option Nat) : PageSource := fun _ => vaddr.map fun a => (a, contents)

/-- get_kernel_pages and get_user_pages. -/
def getPages (pf : PoolFlags) (pgCnt : Nat) : Kern Memory (Option Nat) := do
  lockAcquire pf c.task
  let vaddr ← onVM (mallocPage M pf c.p pgCnt)
  match vaddr with
  | none => pure ()
  | some a =>
    let _ ← onTaskHeap (Kernel.mallocPage (pageSource contents vaddr) pgCnt)
    onTaskHeap (onMem (clear a (pgCnt * pgSize % 2 ^ 32)))
  lockRelease pf c.task
  pure vaddr

def getKernelPages (pgCnt : Nat) : Kern Memory (Option Nat) := getPages M contents c .kernel pgCnt

def getUserPages (pgCnt : Nat) : Kern Memory (Option Nat) := getPages M contents c .user pgCnt

/-- When palloc returns NULL there is no lock_release. -/
def getAPageLocked (pf : PoolFlags) (vaddr : Nat) : Kern Memory (Option Nat) := do
  lockAcquire pf c.task
  match ← onVM (getAPage M pf c.p vaddr) with
  | none => pure none
  | some a =>
    lockRelease pf c.task
    pure (some a)

def getAPageWithoutLocked (pf : PoolFlags) (vaddr : Nat) : Kern Memory (Option Nat) := do
  lockAcquire pf c.task
  let a ← onVM (getAPageWithoutOpvaddrbitmap M pf c.p vaddr)
  lockRelease pf c.task
  pure a

/-- The branch of sys_malloc for more than 1024 bytes; pages is malloc_page for the calling task. -/
def largeBlock (pages : Nat → Kern VM (Option Nat)) (size : Nat) : Kern Memory (Option Nat) := do
  let vaddr ← onVM (pages (divRoundUp ((size + sizeofArena) % 2 ^ 32) pgSize))
  let b ← onTaskHeap (mallocLarge (pageSource contents vaddr) size)
  pure (if b = 0 then none else some b)

def smallBlock (pages : Nat → Kern VM (Option Nat)) (size : Nat) : Kern Memory (Option Nat) := do
  let descIdx ← onTaskHeap (matchDesc c.descs size descCnt 0)
  let desc := c.descs + descIdx * sizeofDesc
  let empty ← onTaskHeap (onMem (listEmpty (freeListOf desc)))
  let ready ← if empty = true then do
      let vaddr ← onVM (pages 1)
      onTaskHeap (makeArena (pageSource contents vaddr) desc)
    else pure true
  if ready = true then do
    let b ← onTaskHeap (takeBlock desc)
    pure (some b)
  else
    pure none

/-- Kernel.sysMalloc with malloc_page and the lock of the pool. -/
def sysMallocLocked (pages : Nat → Kern VM (Option Nat)) (size : Nat) : Kern Memory (Option Nat) := do
  if ¬ (0 < size ∧ size < c.poolSize) then
    pure none
  else
    lockAcquire c.pf c.task
    let b ← if 1024 < size then largeBlock contents pages size else smallBlock contents c pages size
    lockRelease c.pf c.task
    pure b

/-- The requests for memory. -/
inductive MemoryRequest where
  | getKernelPages (pgCnt : Nat)
  | getUserPages (pgCnt : Nat)
  | getAPage (pf : PoolFlags) (vaddr : Nat)
  | getAPageWithoutOpvaddrbitmap (pf : PoolFlags) (vaddr : Nat)
  | sysMalloc (size : Nat)

def MemoryRequest.pool : MemoryRequest → PoolFlags
  | .getKernelPages _ => .kernel
  | .getUserPages _ => .user
  | .getAPage pf _ | .getAPageWithoutOpvaddrbitmap pf _ => pf
  | .sysMalloc _ => c.pf

def requestPerform : MemoryRequest → Kern Memory (Option Nat)
  | .getKernelPages pgCnt => getKernelPages M contents c pgCnt
  | .getUserPages pgCnt => getUserPages M contents c pgCnt
  | .getAPage pf vaddr => getAPageLocked M c pf vaddr
  | .getAPageWithoutOpvaddrbitmap pf vaddr => getAPageWithoutLocked M c pf vaddr
  | .sysMalloc size => sysMallocLocked contents c (mallocPage M c.pf c.p) size

/-- The bitmaps of the pools and of the virtual addresses and the page tables are the same. -/
structure SamePages (s t : VM) : Prop where
  kernelVaddr : t.kernelVaddr = s.kernelVaddr
  userVaddr : t.userVaddr = s.userVaddr
  kernelPool : t.kernelPool = s.kernelPool
  userPool : t.userPool = s.userPool
  pde : t.pde = s.pde
  pte : t.pte = s.pte

/-- A request that returns NULL has changed nothing, and every request that returns leaves the locks as
they were. -/
def ReportsCleanly (s : Memory) (r : MemoryRequest) : Prop :=
  Returns (requestPerform M contents c r) (fun a t => (a = none → SamePages s.vm t.vm ∧ t.heap = s.heap) ∧
    t.holder = s.holder ∧ t.holderRepeatNr = s.holderRepeatNr) s

/-! When that is so. -/

/-- bitmap_scan for one bit returns -1 only if there is none. -/
def Machine.Complete : Prop := ∀ bits len, M.scan bits len 1 = none → ∀ i < len, bits i = true

/-- The free frames of a pool. -/
def VM.free (s : VM) (pf : PoolFlags) : Finset Nat := (Finset.range (M.poolLen pf)).filter fun i => s.poolBit pf i = false

/-- bitmap_scan for the virtual pages of a request. -/
def Machine.scanVaddr (s : VM) (pf : PoolFlags) (p pgCnt : Nat) : Option Nat :=
  match pf with
  | .kernel => M.scan s.kernelVaddr M.kLen pgCnt
  | .user => M.scan (s.userVaddr p) (userVaddrLen p) pgCnt

/-- malloc_page is asked for a number of pages that it takes, and vaddr_get finds them. -/
def Reserves (s : VM) (pf : PoolFlags) (p pgCnt : Nat) : Prop :=
  0 < pgCnt ∧ pgCnt < 3840 ∧ ∃ i, M.scanVaddr s pf p pgCnt = some i ∧
    (pf = .user → userVaddrStart + i * pgSize < 0xc0000000 - pgSize)

/-- If the virtual pages are there, so are the frames. -/
def FramesEnough (s : VM) (pf : PoolFlags) (p pgCnt : Nat) : Prop :=
  Reserves M s pf p pgCnt → pgCnt ≤ (s.free M pf).card

/-- What get_a_page asserts of its arguments. -/
def Placed (pf : PoolFlags) (p vaddr : Nat) : Prop :=
  match pf with
  | .user => p ≠ 0 ∧ 0 < bitIdx vaddr userVaddrStart
  | .kernel => p = 0 ∧ 0 < bitIdx vaddr kHeapStart

/-- The descriptor that sys_malloc chooses. -/
def descFor (m : Mem) (descs size : Nat) : Nat → Nat → Nat
  | 0, descIdx => descIdx
  | n + 1, descIdx => if size ≤ m (descs + descIdx * sizeofDesc) then descIdx else descFor m descs size n (descIdx + 1)

/-- The free list of the descriptor for size bytes is empty. -/
def NoBlock (h : Heap) (size : Nat) : Prop :=
  let desc := c.descs + descFor h.mem c.descs size descCnt 0 * sizeofDesc
  h.mem (nextOf (freeListOf desc)) = tailOf (freeListOf desc)

/-- The request finds as many frames as virtual pages. -/
def FramesLeft (s : Memory) : MemoryRequest → Prop
  | .getKernelPages pgCnt => FramesEnough M s.vm .kernel c.p pgCnt
  | .getUserPages pgCnt => FramesEnough M s.vm .user c.p pgCnt
  | .getAPage pf vaddr => Placed pf c.p vaddr → 1 ≤ (s.vm.free M pf).card
  | .getAPageWithoutOpvaddrbitmap _ _ => True
  | .sysMalloc size => 0 < size → size < c.poolSize →
      if 1024 < size then FramesEnough M s.vm c.pf c.p (divRoundUp ((size + sizeofArena) % 2 ^ 32) pgSize)
      else NoBlock c s.heap size → FramesEnough M s.vm c.pf c.p 1

/-- The page tables of an address space: a page whose bit is clear is not mapped, the kernel's tables are
there, and no two tables share a frame, nor is one in a frame that is free. -/
structure TablesFit (s : VM) (pf : PoolFlags) (p : Nat) : Prop where
  unmapped : ∀ n, InVaddr M (half p pf) n → s.vaddrBit (half p pf) n = false → (s.pde p (n / 1024)).present = true →
    (s.pte (s.pde p (n / 1024)).addr (n % 1024)).present = false
  kernel : pf = .kernel → ∀ n, InVaddr M (half p pf) n → (s.pde p (n / 1024)).present = true
  apart : ∀ n m, InVaddr M (half p pf) n → InVaddr M (half p pf) m → n / 1024 ≠ m / 1024 →
    (s.pde p (n / 1024)).present = true → (s.pde p (m / 1024)).present = true →
    (s.pde p (n / 1024)).addr ≠ (s.pde p (m / 1024)).addr
  used : ∀ n, InVaddr M (half p pf) n → (s.pde p (n / 1024)).present = true → (s.pde p (n / 1024)).addr ≠ 0 ∧
    ∀ i ∈ s.free M .kernel, (s.pde p (n / 1024)).addr ≠ M.frame .kernel i

/-- The caller can take the lock. -/
def LockFits (s : Memory) (pf : PoolFlags) (task : Nat) : Prop :=
  (s.holder pf = none ∧ s.holderRepeatNr pf = 0) ∨
    (s.holder pf = some task ∧ 0 < s.holderRepeatNr pf ∧ s.holderRepeatNr pf + 1 < 2 ^ 32)

section Pages
variable {M} {s t : VM} {pf : PoolFlags} {p n cnt : Nat}

theorem mem_free {i : Nat} : i ∈ s.free M pf ↔ i < M.poolLen pf ∧ s.poolBit pf i = false := by
  rw [VM.free, Finset.mem_filter, Finset.mem_range]

theorem free_congr (same : t.poolBit pf = s.poolBit pf) : t.free M pf = s.free M pf := by
  rw [VM.free, VM.free, same]

theorem free_reserve {i : Nat} {b : Bool} {pf' : PoolFlags} : (s.reserve pf p i cnt b).free M pf' = s.free M pf' := by
  refine free_congr ?_
  cases pf <;> cases pf' <;> simp only [VM.reserve, VM.poolBit]

theorem poolBit_setPool {i : Nat} {pf' : PoolFlags} : (s.setPool pf i true).poolBit pf' =
    if pf' = pf then Function.update (s.poolBit pf) i true else s.poolBit pf' := by
  have bits (b : Nat → Bool) : setBits b i 1 true = Function.update b i true := by
    funext k
    rw [setBits, Function.update_apply]
    split <;> split <;> first | rfl | omega
  cases pf <;> cases pf' <;> simp [VM.setPool, VM.poolBit, bits]

theorem free_setPool {i : Nat} : (s.setPool pf i true).free M pf = (s.free M pf).erase i := by
  ext j
  rw [mem_free, Finset.mem_erase, mem_free, poolBit_setPool, if_pos rfl, Function.update_apply]
  split
  · next here => simp [here]
  · next there => simp [there]

/-- palloc takes a free frame as long as there is one. -/
theorem palloc_exact (complete : M.Complete) (pf : PoolFlags) :
    Succeeds (palloc M pf) (fun r t => (r = none ∧ t = s ∧ s.free M pf = ∅) ∨
      ∃ i ∈ s.free M pf, r = some (M.frame pf i) ∧ t = s.setPool pf i true) s := by
  have scan : M.scanPool s pf = M.scan (s.poolBit pf) (M.poolLen pf) 1 := by cases pf <;> rfl
  rw [palloc, Succeeds, wp_bind, wp_get, scan]
  cases found : M.scan (s.poolBit pf) (M.poolLen pf) 1 with
  | none =>
    refine (wp_pure _).2 (.inl ⟨rfl, rfl, Finset.eq_empty_of_forall_notMem fun i mem => ?_⟩)
    obtain ⟨low, clear⟩ := mem_free.1 mem
    rw [complete _ _ found i low] at clear
    cases clear
  | some i =>
    obtain ⟨low, clear⟩ := M.scan_ok _ _ _ _ found
    rw [wp_bind, wp_modify, wp_pure]
    exact .inr ⟨i, mem_free.2 ⟨low, clear 0 Nat.one_pos⟩, rfl, rfl⟩

/-- The pages from n on are not mapped, and page_table_add can map them one by one: the tables of the
directory entries to come are apart from the current one and in no free frame. -/
structure Mappable (M : Machine) (s : VM) (pf : PoolFlags) (p n cnt : Nat) : Prop where
  unmapped : ∀ m, n ≤ m → m < n + cnt → (s.pde p (m / 1024)).present = true →
    (s.pte (s.pde p (m / 1024)).addr (m % 1024)).present = false
  kernel : pf = .kernel → ∀ m, n ≤ m → m < n + cnt → (s.pde p (m / 1024)).present = true
  apart : ∀ m m', n ≤ m → m < n + cnt → n ≤ m' → m' < n + cnt → m / 1024 ≠ m' / 1024 →
    (s.pde p (m / 1024)).present = true → (s.pde p (m' / 1024)).present = true →
    (s.pde p (m / 1024)).addr ≠ (s.pde p (m' / 1024)).addr
  used : ∀ m, n ≤ m → m < n + cnt → n / 1024 ≠ m / 1024 → (s.pde p (m / 1024)).present = true →
    (s.pde p (m / 1024)).addr ≠ 0 ∧ ∀ i ∈ s.free M .kernel, (s.pde p (m / 1024)).addr ≠ M.frame .kernel i

/-- Taking a frame does not matter to it. -/
theorem Mappable.setPool (h : Mappable M s pf p n cnt) (pf' : PoolFlags) (i : Nat) :
    Mappable M (s.setPool pf' i true) pf p n cnt := by
  have pde : (s.setPool pf' i true).pde = s.pde := by cases pf' <;> rfl
  have pte : (s.setPool pf' i true).pte = s.pte := by cases pf' <;> rfl
  have fewer : (s.setPool pf' i true).free M .kernel ⊆ s.free M .kernel := by
    cases pf' with
    | kernel => exact free_setPool ▸ Finset.erase_subset _ _
    | user => exact (free_congr rfl).subset
  constructor
  · rw [pde, pte]
    exact h.unmapped
  · rw [pde]
    exact h.kernel
  · rw [pde]
    exact h.apart
  · rw [pde]
    exact fun m low high other there => ⟨(h.used m low high other there).1,
      fun j mem => (h.used m low high other there).2 j (fewer mem)⟩

/-- The page n is mapped through the table T, which was there or is new; the tables of other directory
entries are as they were. -/
theorem Mappable.next (h : Mappable M s pf p n (cnt + 1)) {T : Nat} (here : t.pde p (n / 1024) = ⟨T, true⟩)
    (pde : ∀ c, c ≠ n / 1024 → t.pde p c = s.pde p c) (pte : ∀ a, a ≠ T → t.pte a = s.pte a)
    (table : ((s.pde p (n / 1024)) = ⟨T, true⟩ ∧ ∀ j, j ≠ n % 1024 → t.pte T j = s.pte T j) ∨
      (T = 0 ∨ ∃ i ∈ s.free M .kernel, T = M.frame .kernel i) ∧ ∀ j, j ≠ n % 1024 → (t.pte T j).present = false)
    (fewer : t.free M .kernel ⊆ s.free M .kernel) : Mappable M t pf p (n + 1) cnt := by
  have other {m : Nat} (low : n + 1 ≤ m) (high : m < n + 1 + cnt) (diff : m / 1024 ≠ n / 1024)
      (there : (s.pde p (m / 1024)).present = true) : (s.pde p (m / 1024)).addr ≠ T := by
    have used := h.used m (by omega) (by omega) (Ne.symm diff) there
    rcases table with ⟨old, -⟩ | ⟨rfl | ⟨i, mem, rfl⟩, -⟩
    · have apart := h.apart m n (by omega) (by omega) (Nat.le_refl n) (by omega) diff there (by rw [old])
      rwa [old] at apart
    · exact used.1
    · exact used.2 i mem
  constructor
  · intro m low high there
    by_cases diff : m / 1024 = n / 1024
    · have idx : m % 1024 ≠ n % 1024 := by omega
      rw [diff, here]
      rcases table with ⟨old, same⟩ | ⟨-, zero⟩
      · have free := h.unmapped m (by omega) (by omega) (by rw [diff, old])
        rw [diff, old] at free
        rw [same _ idx]
        exact free
      · exact zero _ idx
    · rw [pde _ diff] at there ⊢
      rw [pte _ (other low high diff there)]
      exact h.unmapped m (by omega) (by omega) there
  · intro kernel m low high
    by_cases diff : m / 1024 = n / 1024
    · rw [diff, here]
    · rw [pde _ diff]
      exact h.kernel kernel m (by omega) (by omega)
  · intro m m' low high low' high' diff there there'
    by_cases at_n : m / 1024 = n / 1024 <;> by_cases at_n' : m' / 1024 = n / 1024
    · omega
    · rw [pde _ at_n'] at there' ⊢
      rw [at_n, here]
      exact (other low' high' at_n' there').symm
    · rw [pde _ at_n] at there ⊢
      rw [at_n', here]
      exact other low high at_n there
    · rw [pde _ at_n] at there ⊢
      rw [pde _ at_n'] at there' ⊢
      exact h.apart m m' (by omega) (by omega) (by omega) (by omega) diff there there'
  · intro m low high diff there
    have at_n : m / 1024 ≠ n / 1024 := by omega
    rw [pde _ at_n] at there ⊢
    have used := h.used m (by omega) (by omega) (Ne.symm at_n) there
    exact ⟨used.1, fun i mem => used.2 i (fewer mem)⟩

/-- The bitmaps of virtual pages and one pool are as before. -/
structure SameBits (s t : VM) (pf : PoolFlags) : Prop where
  virt : SameVirt s t
  pool : t.poolBit pf = s.poolBit pf

theorem pageTableAdd_mappable (complete : M.Complete) (h : Mappable M s pf p n (cnt + 1)) (phyaddr : Nat) :
    Succeeds (pageTableAdd M p (n * pgSize) phyaddr) (fun _ t => Mappable M t pf p (n + 1) cnt ∧ SameBits s t pf) s := by
  have dir : pdeIdx (n * pgSize) = n / 1024 := by
    rw [← Nat.add_zero (n * pgSize), pdeIdx_page (by decide)]
  have idx : pteIdx (n * pgSize) = n % 1024 := by
    rw [← Nat.add_zero (n * pgSize), pteIdx_page (by decide)]
  have unmapped := h.unmapped n (Nat.le_refl n) (by omega)
  rw [pageTableAdd, Succeeds, wp_bind, wp_get, dir, idx]
  dsimp only
  rw [wp_ite]
  constructor
  · intro there
    rw [wp_bind, wp_get, wp_bind, wp_assert]
    refine ⟨fun _ => ?_, fun mapped => mapped (unmapped there)⟩
    rw [wp_modify]
    refine ⟨h.next (T := (s.pde p (n / 1024)).addr) ?_ (fun _ _ => rfl) (fun a ha => Function.update_of_ne ha _ _)
      (.inl ⟨?_, fun j hj => ?_⟩) (free_congr rfl).subset, ⟨rfl, rfl, rfl⟩, by cases pf <;> rfl⟩
    · exact congrArg (Entry.mk _) there
    · exact congrArg (Entry.mk _) there
    · dsimp only [VM.setPte]
      rw [Function.update_self, Function.update_of_ne hj]
  · intro missing
    have user : pf = .user := by
      cases pf with
      | kernel => exact (missing (h.kernel rfl n (Nat.le_refl n) (by omega))).elim
      | user => rfl
    subst user
    -- the table's row is zero but for the new entry
    have fresh (u : VM) (T : Nat) (hu : Mappable M u .user p n (cnt + 1))
        (free : T = 0 ∨ ∃ i ∈ s.free M .kernel, T = M.frame .kernel i) (pde : u.pde = s.pde) (pte : u.pte = s.pte)
        (fewer : u.free M .kernel ⊆ s.free M .kernel) (bits : SameBits s u .user) :
        Succeeds (do
            modify fun s => s.setPde p (n / 1024) ⟨T, true⟩
            modify fun s => s.clearTable T
            assert (((← get).pte T (n % 1024)).present = false)
            modify fun s => s.setPte T (n % 1024) ⟨phyaddr, true⟩)
          (fun _ t => Mappable M t .user p (n + 1) cnt ∧ SameBits s t .user) u := by
      rw [Succeeds, wp_bind, wp_modify, wp_bind, wp_modify, wp_bind, wp_get, wp_bind, wp_assert]
      refine ⟨fun _ => ?_, fun mapped => mapped ?_⟩
      · rw [wp_modify]
        refine ⟨h.next (T := T) ?_ (fun c hc => ?_) (fun a ha => ?_) (.inr ⟨free, fun j hj => ?_⟩) fewer,
          bits.virt, bits.pool⟩
        · dsimp only [VM.setPte, VM.clearTable, VM.setPde]
          rw [Function.update_self, Function.update_self]
        · dsimp only [VM.setPte, VM.clearTable, VM.setPde]
          rw [Function.update_self, Function.update_of_ne hc, pde]
        · dsimp only [VM.setPte, VM.clearTable, VM.setPde]
          rw [Function.update_of_ne ha, Function.update_of_ne ha, pte]
        · dsimp only [VM.setPte, VM.clearTable, VM.setPde]
          rw [Function.update_self, Function.update_self, Function.update_of_ne hj]
      · dsimp only [VM.clearTable, VM.setPde]
        rw [Function.update_self]
    rw [wp_bind]
    refine wp_post (palloc_exact complete .kernel) ?_
    rintro r u (⟨rfl, rfl, -⟩ | ⟨i, mem, rfl, rfl⟩)
    · exact fresh u 0 h (.inl rfl) rfl rfl (Finset.Subset.refl _) ⟨⟨rfl, rfl, rfl⟩, rfl⟩
    · exact fresh _ (M.frame .kernel i) (h.setPool .kernel i) (.inr ⟨i, mem, rfl⟩) rfl rfl
        (free_setPool ▸ Finset.erase_subset _ _) ⟨⟨rfl, rfl, rfl⟩, rfl⟩

/-- The loop of malloc_page maps all pages exactly when the pool has a free frame for each. -/
theorem mapPages_exact (complete : M.Complete) (cnt : Nat) : ∀ n s, Mappable M s pf p n cnt →
    Succeeds (mapPages M pf p cnt (n * pgSize))
      (fun r t => (r = true ↔ cnt ≤ (s.free M pf).card) ∧ SameVirt s t) s := by
  induction cnt with
  | zero =>
    intro n s _
    exact (wp_pure _).2 ⟨iff_of_true rfl (Nat.zero_le _), rfl, rfl, rfl⟩
  | succ cnt ih =>
    intro n s h
    rw [mapPages, Succeeds, wp_bind]
    refine wp_post (palloc_exact complete pf) ?_
    rintro r t (⟨rfl, rfl, empty⟩ | ⟨i, mem, rfl, rfl⟩)
    · refine (wp_pure _).2 ⟨iff_of_false Bool.false_ne_true ?_, rfl, rfl, rfl⟩
      rw [empty, Finset.card_empty]
      exact Nat.not_succ_le_zero cnt
    · have virt : SameVirt s (s.setPool pf i true) := by cases pf <;> exact ⟨rfl, rfl, rfl⟩
      have step : n * pgSize + pgSize = (n + 1) * pgSize := (Nat.succ_mul n pgSize).symm
      dsimp only
      rw [wp_bind, step]
      refine wp_post (pageTableAdd_mappable complete (h.setPool pf i) _) ?_
      rintro - u ⟨next, bits⟩
      refine wp_post (ih (n + 1) u next) ?_
      rintro r v ⟨all, virt'⟩
      refine ⟨?_, virt.trans (bits.virt.trans virt')⟩
      have one := Finset.card_erase_add_one mem
      rw [all, free_congr bits.pool, free_setPool, ← one, Nat.add_le_add_iff_right]

/-- What vaddr_get finds is inside the bitmap and clear. -/
theorem scanVaddr_spec {i : Nat} (found : M.scanVaddr s pf p cnt = some i) {k : Nat} (hk : k < cnt) :
    InVaddr M (half p pf) (vaddrBase pf + i + k) ∧ s.vaddrBit (half p pf) (vaddrBase pf + i + k) = false := by
  cases pf with
  | kernel =>
    obtain ⟨fits, clear⟩ := M.scan_ok _ _ _ _ found
    have place : kHeapStart / pgSize + i + k - kHeapStart / pgSize = i + k := by omega
    have base : vaddrBase .kernel = kHeapStart / pgSize := rfl
    rw [base]
    refine ⟨⟨by omega, by omega⟩, ?_⟩
    simp only [VM.vaddrBit, half, place]
    exact clear k hk
  | user =>
    obtain ⟨fits, clear⟩ := M.scan_ok _ _ _ _ found
    have place : userVaddrStart / pgSize + i + k - userVaddrStart / pgSize = i + k := by omega
    have base : vaddrBase .user = userVaddrStart / pgSize := rfl
    rw [base]
    refine ⟨⟨by omega, by omega⟩, ?_⟩
    simp only [VM.vaddrBit, half, place]
    exact clear k hk

theorem TablesFit.mappable (fit : TablesFit M s pf p) {i : Nat} (found : M.scanVaddr s pf p cnt = some i) :
    Mappable M (s.reserve pf p i cnt true) pf p (vaddrBase pf + i) cnt := by
  have pde : (s.reserve pf p i cnt true).pde = s.pde := by cases pf <;> rfl
  have pte : (s.reserve pf p i cnt true).pte = s.pte := by cases pf <;> rfl
  have there (m : Nat) (low : vaddrBase pf + i ≤ m) (high : m < vaddrBase pf + i + cnt) :
      InVaddr M (half p pf) m ∧ s.vaddrBit (half p pf) m = false := by
    obtain ⟨k, rfl⟩ := Nat.exists_eq_add_of_le low
    exact scanVaddr_spec found (by omega)
  constructor
  · rw [pde, pte]
    exact fun m low high => fit.unmapped m (there m low high).1 (there m low high).2
  · rw [pde]
    exact fun kernel m low high => fit.kernel kernel m (there m low high).1
  · rw [pde]
    exact fun m m' low high low' high' => fit.apart m m' (there m low high).1 (there m' low' high').1
  · rw [pde, free_reserve]
    exact fun m low high _ => fit.used m (there m low high).1

/-- The bit of the first page has been set. -/
theorem reserve_changes {i : Nat} (pos : 0 < cnt) (found : M.scanVaddr s pf p cnt = some i)
    (virt : SameVirt (s.reserve pf p i cnt true) t) : ¬ SamePages s t := by
  intro same
  cases pf with
  | kernel =>
    obtain ⟨-, clear⟩ := M.scan_ok _ _ _ _ found
    have bit := congrFun (virt.1.symm.trans same.kernelVaddr) i
    have free := clear 0 pos
    rw [Nat.add_zero] at free
    rw [free] at bit
    simp [VM.reserve, setBits, pos] at bit
  | user =>
    obtain ⟨-, clear⟩ := M.scan_ok _ _ _ _ found
    have bit := congrFun (congrFun (virt.2.1.symm.trans same.userVaddr) p) i
    have free := clear 0 pos
    rw [Nat.add_zero] at free
    rw [free] at bit
    simp [VM.reserve, setBits, pos] at bit

/-- vaddr_get reserves the pages that bitmap_scan finds. -/
theorem vaddrGet_exact : wp (vaddrGet M pf p cnt)
    (fun r t => (M.scanVaddr s pf p cnt = none ∧ r = none ∧ t = s) ∨ ∃ i, M.scanVaddr s pf p cnt = some i ∧
      (pf = .user → userVaddrStart + i * pgSize < 0xc0000000 - pgSize) ∧
      r = some ((vaddrBase pf + i) * pgSize) ∧ t = s.reserve pf p i cnt true)
    (fun _ => ∃ i, M.scanVaddr s pf p cnt = some i ∧
      ¬ (pf = .user → userVaddrStart + i * pgSize < 0xc0000000 - pgSize)) s := by
  have base (start i : Nat) (aligned : start % pgSize = 0) : start + i * pgSize = (start / pgSize + i) * pgSize := by
    rw [Nat.add_mul, Nat.div_mul_cancel (Nat.dvd_of_mod_eq_zero aligned)]
  cases pf with
  | kernel =>
    rw [vaddrGet, wp_bind, wp_get]
    dsimp only [Machine.scanVaddr]
    cases found : M.scan s.kernelVaddr M.kLen cnt with
    | none => exact (wp_pure _).2 (.inl ⟨rfl, rfl, rfl⟩)
    | some i =>
      rw [wp_bind, wp_modify, wp_pure, base kHeapStart i (by decide)]
      exact .inr ⟨i, rfl, (fun user => by cases user), rfl, rfl⟩
  | user =>
    rw [vaddrGet, wp_bind, wp_get]
    dsimp only [Machine.scanVaddr]
    cases found : M.scan (s.userVaddr p) (userVaddrLen p) cnt with
    | none => exact (wp_pure _).2 (.inl ⟨rfl, rfl, rfl⟩)
    | some i =>
      rw [wp_bind, wp_modify, wp_bind, wp_assert]
      refine ⟨fun low => ?_, ?_⟩
      · rw [wp_pure, base userVaddrStart i (by decide)]
        exact .inr ⟨i, rfl, fun _ => low, rfl, rfl⟩
      · exact fun high => ⟨i, rfl, fun low => high (low rfl)⟩

/-- malloc_page changes nothing if there are no pages, and else succeeds exactly when there are frames. -/
theorem mallocPage_exact (complete : M.Complete) (fit : TablesFit M s pf p) :
    wp (mallocPage M pf p cnt) (fun r t => r ≠ some 0 ∧ ((¬ Reserves M s pf p cnt ∧ r = none ∧ t = s) ∨
        (Reserves M s pf p cnt ∧ (r ≠ none ↔ cnt ≤ (s.free M pf).card) ∧ ¬ SamePages s t)))
      (fun _ => ¬ Reserves M s pf p cnt) s := by
  rw [mallocPage, wp_bind, wp_assert]
  refine ⟨fun bounds => ?_, fun out reserves => out ⟨reserves.1, reserves.2.1⟩⟩
  rw [wp_bind]
  have stopped : (∃ i, M.scanVaddr s pf p cnt = some i ∧
      ¬ (pf = .user → userVaddrStart + i * pgSize < 0xc0000000 - pgSize)) → ¬ Reserves M s pf p cnt := by
    rintro ⟨i, found, high⟩ ⟨-, -, j, found', low⟩
    cases found.symm.trans found'
    exact high low
  refine wp_mono vaddrGet_exact ?_ fun _ => stopped
  rintro r t (⟨none, rfl, rfl⟩ | ⟨i, found, low, rfl, rfl⟩)
  · refine (wp_pure _).2 ⟨(Option.some_ne_none 0).symm, .inl ⟨?_, rfl, rfl⟩⟩
    rintro ⟨-, -, j, found, -⟩
    rw [none] at found
    cases found
  · have reserves : Reserves M s pf p cnt := ⟨bounds.1, bounds.2, i, found, low⟩
    have somewhere : (vaddrBase pf + i) * pgSize ≠ 0 := by
      have base : 0 < vaddrBase pf := by cases pf <;> decide
      exact Nat.ne_of_gt (Nat.mul_pos (Nat.add_pos_left base i) (by decide))
    dsimp only
    rw [wp_bind]
    refine wp_mono (mapPages_exact complete cnt _ _ (fit.mappable found)) ?_ fun _ no => no.elim
    rintro r t ⟨all, virt⟩
    rw [free_reserve] at all
    have changed := reserve_changes bounds.1 found virt
    rw [wp_ite]
    refine ⟨fun done => (wp_pure _).2 ?_, fun stopped => (wp_pure _).2 ?_⟩
    · refine ⟨fun zero => somewhere (Option.some.inj zero), .inr ⟨reserves, ?_, changed⟩⟩
      exact iff_of_true (Option.some_ne_none _) (all.1 done)
    · exact ⟨(Option.some_ne_none 0).symm, .inr ⟨reserves, iff_of_false (fun some => some rfl) (mt all.2 stopped), changed⟩⟩

/-- It returns only when the number of pages is within its bounds. -/
theorem mallocPage_bounds : Returns (mallocPage M pf p cnt) (fun _ _ => 0 < cnt ∧ cnt < 3840) s := by
  rw [mallocPage, Returns, wp_bind, wp_assert]
  exact ⟨fun bounds => wp_post (wp_trivial _) fun _ _ _ => bounds, fun _ => trivial⟩

end Pages

namespace Memory

/-- Other pages and another heap under the same locks. -/
def put (s : Memory) (vm : VM) (heap : Heap) : Memory := { s with vm := vm, heap := heap }

/-- Behind lock_acquire. -/
def locked (s : Memory) (pf : PoolFlags) (task : Nat) : Memory := s.lock pf (some task) (s.holderRepeatNr pf + 1)

end Memory

section Requests
variable {M contents c} {s : Memory} {vm : VM} {heap : Heap} {pf : PoolFlags} {task : Nat} {α : Type}

theorem wp_onVM {x : Kern VM α} {Q : α → Memory → Prop} {E : Fault → Prop} :
    wp (onVM x) Q E (s.put vm heap) ↔ wp x (fun a vm => Q a (s.put vm heap)) E vm := wp_zoom

theorem wp_onTaskHeap {x : Kern Heap α} {Q : α → Memory → Prop} {E : Fault → Prop} :
    wp (onTaskHeap x) Q E (s.put vm heap) ↔ wp x (fun a heap => Q a (s.put vm heap)) E heap := wp_zoom

theorem wp_lockAcquire (fits : LockFits s pf task) {Q : Unit → Memory → Prop} {E : Fault → Prop} :
    wp (lockAcquire pf task) Q E s ↔ Q () ((s.locked pf task).put s.vm s.heap) := by
  have whole : (s.locked pf task).put s.vm s.heap = s.locked pf task := rfl
  rw [lockAcquire, wp_bind, wp_get, whole]
  rcases fits with ⟨nobody, zero⟩ | ⟨mine, pos, small⟩
  · rw [if_neg (by rw [nobody]; exact nofun), wp_bind, wp_check, wp_bind, wp_assert, wp_modify, Memory.locked, zero]
    exact ⟨fun h => (h.1 nobody).1 rfl,
      fun h => ⟨fun _ => ⟨fun _ => h, fun no => (no rfl).elim⟩, fun no => (no nobody).elim⟩⟩
  · rw [if_pos mine, wp_modify, Nat.mod_eq_of_lt small, Memory.locked]

theorem wp_lockRelease (fits : LockFits s pf task) {Q : Unit → Memory → Prop} {E : Fault → Prop} :
    wp (lockRelease pf task) Q E ((s.locked pf task).put vm heap) ↔ Q () (s.put vm heap) := by
  have holder : ((s.locked pf task).put vm heap).holder pf = some task := Function.update_self ..
  have nr : ((s.locked pf task).put vm heap).holderRepeatNr pf = s.holderRepeatNr pf + 1 := Function.update_self ..
  have back (h : Option Nat) (m : Nat) (same : s.holder pf = h) (same' : s.holderRepeatNr pf = m) :
      ((s.locked pf task).put vm heap).lock pf h m = s.put vm heap := by
    simp only [Memory.lock, Memory.put, Memory.locked, Function.update_idem, ← same, ← same', Function.update_eq_self]
  rw [lockRelease, wp_bind, wp_get, wp_bind, wp_assert, nr]
  rcases fits with ⟨nobody, zero⟩ | ⟨mine, pos, small⟩
  · rw [if_neg (by omega), wp_bind, wp_assert, wp_modify, back none 0 nobody zero]
    exact ⟨fun h => (h.1 holder).1 (by omega),
      fun h => ⟨fun _ => ⟨fun _ => h, fun no => (no (by omega)).elim⟩, fun no => (no holder).elim⟩⟩
  · rw [if_pos (by omega), wp_modify, nr, Nat.add_sub_cancel, back (some task) _ mine rfl]
    exact ⟨fun h => h.1 holder, fun h => ⟨fun _ => h, fun no => (no holder).elim⟩⟩

/-- What the exit of a request must show. -/
def Clean (s : Memory) (a : Option Nat) (t : Memory) : Prop :=
  (a = none → SamePages s.vm t.vm ∧ t.heap = s.heap) ∧ t.holder = s.holder ∧ t.holderRepeatNr = s.holderRepeatNr

theorem SamePages.refl (s : VM) : SamePages s s := ⟨rfl, rfl, rfl, rfl, rfl, rfl⟩

theorem clean_some (a : Nat) : Clean s (some a) (s.put vm heap) := ⟨nofun, rfl, rfl⟩

theorem clean_none : Clean s none (s.put s.vm s.heap) := ⟨fun _ => ⟨.refl s.vm, rfl⟩, rfl, rfl⟩

theorem not_clean (changed : ¬ SamePages s.vm vm) : ¬ Clean s none (s.put vm heap) :=
  fun clean => changed (clean.1 rfl).1

/-- What a request makes of the answer of malloc_page: it fails with it, or returns something. -/
theorem wp_mallocPage (complete : M.Complete) (fit : TablesFit M s.vm pf c.p) {n : Nat}
    {Q : Option Nat → Memory → Prop}
    (failed : ∀ vm, 0 < n ∧ n < 3840 → (Q none ((s.locked pf c.task).put vm s.heap) ↔
      (Clean s none (s.put vm s.heap) ↔ FramesEnough M s.vm pf c.p n)))
    (answered : ∀ vm a, a ≠ 0 → FramesEnough M s.vm pf c.p n → Q (some a) ((s.locked pf c.task).put vm s.heap)) :
    wp (onVM (mallocPage M pf c.p n)) Q (fun _ => FramesEnough M s.vm pf c.p n) ((s.locked pf c.task).put s.vm s.heap) := by
  rw [wp_onVM]
  refine wp_mono (wp_run (mallocPage_exact complete fit)) ?_ fun _ out reserves => (out reserves).elim
  rintro r vm ⟨⟨somewhere, exact⟩, run⟩
  have bounds := returns_iff.1 mallocPage_bounds r vm run
  rcases exact with ⟨out, rfl, rfl⟩ | ⟨reserves, all, changed⟩
  · exact (failed _ bounds).2 (iff_of_true clean_none fun reserves => (out reserves).elim)
  · cases r with
    | none =>
      refine (failed _ bounds).2 (iff_of_false (not_clean changed) fun enough => ?_)
      exact (all.2 (enough reserves)) rfl
    | some a => exact answered vm a (fun zero => somewhere (congrArg some zero)) fun _ => all.1 (Option.some_ne_none a)

theorem getPages_clean (complete : M.Complete) (fit : TablesFit M s.vm pf c.p) (lock : LockFits s pf c.task) (n : Nat) :
    Returns (getPages M contents c pf n) (Clean s) s ↔ FramesEnough M s.vm pf c.p n := by
  apply returns_exact
  rw [getPages, wp_bind, wp_lockAcquire lock, wp_bind]
  refine wp_mallocPage complete fit (fun vm _ => ?_) fun vm a _ enough => ?_
  · rw [wp_bind, wp_lockRelease lock, wp_pure]
  · rw [wp_bind, wp_onTaskHeap]
    refine wp_mono (wp_trivial _) (fun _ heap _ => ?_) fun _ _ => enough
    rw [wp_bind, wp_onTaskHeap]
    refine wp_mono (wp_trivial _) (fun _ heap _ => ?_) fun _ _ => enough
    rw [wp_bind, wp_lockRelease lock, wp_pure]
    exact iff_of_true (clean_some a) enough

/-- The variant for fork gives the lock back on both ways out. -/
theorem getAPageWithoutLocked_clean (complete : M.Complete) (lock : LockFits s pf c.task) (vaddr : Nat) :
    Returns (getAPageWithoutLocked M c pf vaddr) (Clean s) s := by
  rw [getAPageWithoutLocked, Returns, wp_bind, wp_lockAcquire lock, wp_bind, wp_onVM, getAPageWithoutOpvaddrbitmap, wp_bind]
  refine wp_mono (palloc_exact complete pf) ?_ fun _ no => no.elim
  rintro r vm (⟨rfl, rfl, -⟩ | ⟨i, -, rfl, rfl⟩)
  · refine (wp_pure _).2 ?_
    rw [wp_bind, wp_lockRelease lock, wp_pure]
    exact clean_none
  · dsimp only
    rw [wp_bind]
    refine wp_mono (wp_trivial _) (fun _ vm _ => (wp_pure _).2 ?_) fun _ _ => trivial
    rw [wp_bind, wp_lockRelease lock, wp_pure]
    exact clean_some vaddr

theorem getAPage_exact (complete : M.Complete) {vm : VM} {p vaddr : Nat} : wp (getAPage M pf p vaddr)
    (fun r _ => Placed pf p vaddr ∧ (r ≠ none ↔ 1 ≤ (vm.free M pf).card))
    (fun _ => Placed pf p vaddr → 1 ≤ (vm.free M pf).card) vm := by
  have go (x : VM) (same : x.free M pf = vm.free M pf) (placed : Placed pf p vaddr) :
      wp (getAPageWithoutOpvaddrbitmap M pf p vaddr)
        (fun r _ => Placed pf p vaddr ∧ (r ≠ none ↔ 1 ≤ (vm.free M pf).card))
        (fun _ => Placed pf p vaddr → 1 ≤ (vm.free M pf).card) x := by
    rw [getAPageWithoutOpvaddrbitmap, wp_bind]
    refine wp_mono (palloc_exact complete pf) ?_ fun _ no => no.elim
    rintro r y (⟨rfl, rfl, empty⟩ | ⟨i, mem, rfl, rfl⟩)
    · refine (wp_pure _).2 ⟨placed, iff_of_false (fun some => some rfl) ?_⟩
      rw [← same, empty, Finset.card_empty]
      exact Nat.not_succ_le_zero 0
    · have some_left : 1 ≤ (vm.free M pf).card := Finset.card_pos.2 ⟨i, same ▸ mem⟩
      dsimp only
      rw [wp_bind]
      refine wp_mono (wp_trivial _) (fun _ z _ => (wp_pure _).2 ?_) fun _ _ _ => some_left
      exact ⟨placed, iff_of_true (Option.some_ne_none _) some_left⟩
  cases pf with
  | kernel =>
    rw [getAPage_kernel, wp_bind, wp_assert]
    refine ⟨fun thread => ?_, fun no placed => (no placed.1).elim⟩
    rw [wp_bind, wp_assert]
    refine ⟨fun inside => ?_, fun no placed => (no placed.2).elim⟩
    have placed : Placed .kernel p vaddr := ⟨thread, inside⟩
    rw [wp_bind, wp_modify]
    exact go _ free_reserve placed
  | user =>
    rw [getAPage_user, wp_bind, wp_assert]
    refine ⟨fun process => ?_, fun no placed => (no placed.1).elim⟩
    rw [wp_bind, wp_assert]
    refine ⟨fun inside => ?_, fun no placed => (no placed.2).elim⟩
    have placed : Placed .user p vaddr := ⟨process, inside⟩
    rw [wp_bind, wp_modify]
    exact go _ free_reserve placed

/-- get_a_page keeps the lock when it fails. -/
theorem getAPageLocked_clean (complete : M.Complete) (lock : LockFits s pf c.task) (vaddr : Nat) :
    Returns (getAPageLocked M c pf vaddr) (Clean s) s ↔ (Placed pf c.p vaddr → 1 ≤ (s.vm.free M pf).card) := by
  apply returns_exact
  rw [getAPageLocked, wp_bind, wp_lockAcquire lock, wp_bind, wp_onVM]
  refine wp_mono (getAPage_exact complete) ?_ fun _ left => left
  rintro r vm ⟨placed, all⟩
  cases r with
  | none =>
    refine (wp_pure _).2 (iff_of_false (fun clean => ?_) fun left => (all.2 (left placed)) rfl)
    have nr := congrFun clean.2.2 pf
    have held : ((s.locked pf c.task).put vm s.heap).holderRepeatNr pf = s.holderRepeatNr pf + 1 := Function.update_self ..
    omega
  | some a =>
    dsimp only
    rw [wp_bind, wp_lockRelease lock, wp_pure]
    exact iff_of_true (clean_some a) fun _ => all.1 (Option.some_ne_none a)

theorem matchDesc_reads (descs size : Nat) (h : Heap) (n idx : Nat) :
    Succeeds (matchDesc descs size n idx) (fun i h' => i = descFor h.mem descs size n idx ∧ h' = h) h := by
  induction n generalizing idx with
  | zero => exact (wp_pure _).2 ⟨rfl, rfl⟩
  | succ n ih =>
    simp only [matchDesc, Succeeds, wp_bind, Kernel.wp_onMem, wp_load, wp_ite, descFor]
    refine ⟨fun fits => (wp_pure _).2 ⟨(if_pos fits).symm, rfl⟩, fun small => ?_⟩
    rw [if_neg small]
    exact ih (idx + 1)

theorem heapPage_answered {a n : Nat} (h : Heap) :
    Returns (Kernel.mallocPage (pageSource contents (some a)) n) (fun b _ => b = a) h := by
  dsimp only [Kernel.mallocPage, pageSource, Option.map_some]
  rw [Returns, wp_bind, wp_assert]
  refine ⟨fun _ => ?_, fun _ => trivial⟩
  rw [wp_bind, wp_modify, wp_pure]

theorem heapPage_failed {n : Nat} (bounds : 0 < n ∧ n < 3840) : Kernel.mallocPage (pageSource contents none) n = pure 0 := by
  rw [Kernel.mallocPage, assert_of bounds]
  rfl

/-- A block of more than 1024 bytes behind the header of the new pages. -/
theorem mallocLarge_answered {a size : Nat} (there : a ≠ 0) (h : Heap) :
    Returns (mallocLarge (pageSource contents (some a)) size) (fun b _ => b ≠ 0) h := by
  unfold mallocLarge
  dsimp only
  rw [Returns, wp_bind]
  refine wp_post (heapPage_answered h) ?_
  rintro b h rfl
  rw [if_pos there]
  repeat
    rw [wp_bind]
    refine wp_post (wp_trivial _) fun _ h _ => ?_
  rw [wp_pure]
  exact Nat.ne_of_gt (Nat.add_pos_left (Nat.pos_of_ne_zero there) sizeofArena)

theorem makeArena_answered {a desc : Nat} (there : a ≠ 0) (h : Heap) :
    Returns (makeArena (pageSource contents (some a)) desc) (fun ready _ => ready = true) h := by
  rw [makeArena, Returns, wp_bind]
  refine wp_post (heapPage_answered h) ?_
  rintro b h rfl
  rw [if_neg there]
  repeat
    rw [wp_bind]
    refine wp_post (wp_trivial _) fun _ h _ => ?_
  rw [wp_pure]

/-- The lock_release at the end of sys_malloc: the exit behind it is clean exactly if C holds. -/
def AfterRelease (s : Memory) (pf : PoolFlags) (task : Nat) (C : Prop) (r : Option Nat) (t : Memory) : Prop :=
  wp (do lockRelease pf task; pure r) (fun a t => Clean s a t ↔ C) (fun _ => C) t

theorem afterRelease (lock : LockFits s pf task) {C : Prop} {r : Option Nat} :
    AfterRelease s pf task C r ((s.locked pf task).put vm heap) ↔ (Clean s r (s.put vm heap) ↔ C) := by
  rw [AfterRelease, wp_bind, wp_lockRelease lock, wp_pure]

theorem largeBlock_clean (complete : M.Complete) (fit : TablesFit M s.vm c.pf c.p) (lock : LockFits s c.pf c.task)
    {size n : Nat} (pages : divRoundUp ((size + sizeofArena) % 2 ^ 32) pgSize = n) :
    wp (largeBlock contents (mallocPage M c.pf c.p) size) (AfterRelease s c.pf c.task (FramesEnough M s.vm c.pf c.p n))
      (fun _ => FramesEnough M s.vm c.pf c.p n) ((s.locked c.pf c.task).put s.vm s.heap) := by
  rw [largeBlock, pages, wp_bind]
  refine wp_mallocPage complete fit (fun vm bounds => ?_) fun vm a there enough => ?_
  · have none_there : mallocLarge (pageSource contents none) size = pure 0 := by
      rw [mallocLarge, pages, heapPage_failed bounds]
      rfl
    rw [wp_bind, none_there, wp_onTaskHeap, wp_pure, if_pos rfl, wp_pure, afterRelease lock]
  · rw [wp_bind, wp_onTaskHeap]
    refine wp_mono (mallocLarge_answered there s.heap) (fun b heap hb => ?_) fun _ _ => enough
    rw [if_neg hb, wp_pure, afterRelease lock]
    exact iff_of_true (clean_some b) enough

/-- The branch for small blocks needs a page only if the free list is empty. -/
theorem smallBlock_clean (complete : M.Complete) (fit : TablesFit M s.vm c.pf c.p) (lock : LockFits s c.pf c.task)
    {size : Nat} : wp (smallBlock contents c (mallocPage M c.pf c.p) size)
      (AfterRelease s c.pf c.task (NoBlock c s.heap size → FramesEnough M s.vm c.pf c.p 1))
      (fun _ => NoBlock c s.heap size → FramesEnough M s.vm c.pf c.p 1) ((s.locked c.pf c.task).put s.vm s.heap) := by
  have taken {C : Prop} (vm : VM) (heap : Heap) (desc : Nat) (left : C) :
      wp (do let b ← onTaskHeap (takeBlock desc); pure (some b)) (AfterRelease s c.pf c.task C) (fun _ => C)
        ((s.locked c.pf c.task).put vm heap) := by
    rw [wp_bind, wp_onTaskHeap]
    refine wp_mono (wp_trivial _) (fun b heap _ => (wp_pure _).2 ?_) fun _ _ => left
    exact (afterRelease lock).2 (iff_of_true (clean_some b) left)
  rw [smallBlock, wp_bind, wp_onTaskHeap]
  refine wp_mono (matchDesc_reads c.descs size s.heap descCnt 0) ?_ fun _ no => no.elim
  rintro i _ ⟨desc, rfl⟩
  dsimp only
  rw [wp_bind, wp_onTaskHeap, Kernel.wp_onMem, listEmpty, wp_bind, wp_load, wp_pure]
  have noBlock : NoBlock c s.heap size ↔ (s.heap.mem (nextOf (freeListOf (c.descs + i * sizeofDesc))) ==
      tailOf (freeListOf (c.descs + i * sizeofDesc))) = true := by
    rw [NoBlock, ← desc, beq_iff_eq]
  have same : ({ s.heap with mem := s.heap.mem } : Heap) = s.heap := rfl
  rw [same, wp_ite]
  refine ⟨fun empty => ?_, fun there => ?_⟩
  · rw [propext (imp_iff_right (noBlock.2 empty)), wp_bind]
    refine wp_mallocPage complete fit (fun vm bounds => ?_) fun vm a here enough => ?_
    · have none_there : makeArena (pageSource contents none) (c.descs + i * sizeofDesc) = pure false := by
        rw [makeArena, heapPage_failed bounds]
        rfl
      rw [wp_bind, none_there, wp_onTaskHeap, wp_pure, if_neg Bool.false_ne_true, wp_pure, afterRelease lock]
    · rw [wp_bind, wp_onTaskHeap]
      refine wp_mono (makeArena_answered here s.heap) ?_ fun _ _ => enough
      rintro ready heap rfl
      rw [if_pos rfl]
      exact taken vm heap _ enough
  · rw [wp_bind, wp_pure, if_pos rfl]
    exact taken s.vm s.heap _ fun empty => (there (noBlock.1 empty)).elim

theorem sysMallocLocked_clean (complete : M.Complete) (fit : TablesFit M s.vm c.pf c.p) (lock : LockFits s c.pf c.task)
    (size : Nat) :
    Returns (sysMallocLocked contents c (mallocPage M c.pf c.p) size) (Clean s) s ↔ FramesLeft M c s (.sysMalloc size) := by
  rw [FramesLeft]
  apply returns_exact
  rw [sysMallocLocked, wp_ite]
  refine ⟨fun odd => (wp_pure _).2 ?_, fun fits => ?_⟩
  · exact iff_of_true clean_none fun pos small => (odd ⟨pos, small⟩).elim
  · obtain ⟨pos, small⟩ := not_not.1 fits
    rw [propext (imp_iff_right pos), propext (imp_iff_right small), wp_bind, wp_lockAcquire lock, wp_ite]
    refine ⟨fun large => ?_, fun small => ?_⟩
    · rw [if_pos large, wp_bind]
      exact largeBlock_clean complete fit lock rfl
    · rw [if_neg small, wp_bind]
      exact smallBlock_clean complete fit lock

/-- A request reports the exhaustion of the memory cleanly exactly if it finds the frames for the virtual
pages that it takes. -/
theorem requests_clean (complete : M.Complete) (fit : ∀ pf, TablesFit M s.vm pf c.p)
    (r : MemoryRequest) (lock : LockFits s (r.pool c) c.task) :
    ReportsCleanly M contents c s r ↔ FramesLeft M c s r := by
  cases r with
  | getKernelPages pgCnt => exact getPages_clean complete (fit .kernel) lock pgCnt
  | getUserPages pgCnt => exact getPages_clean complete (fit .user) lock pgCnt
  | getAPage pf vaddr => exact getAPageLocked_clean complete lock vaddr
  | getAPageWithoutOpvaddrbitmap pf vaddr => exact iff_of_true (getAPageWithoutLocked_clean complete lock vaddr) trivial
  | sysMalloc size => exact sysMallocLocked_clean complete (fit c.pf) lock size

end Requests

/-! The page tables of the states that the allocator reaches. -/

section Tables
variable {M : Machine} {s : VM} {pf : PoolFlags} {p n : Nat}

theorem InVaddr.entry (inside : InVaddr M (half p pf) n) :
    (pf = .kernel ∧ 0xc0100 ≤ n ∧ n / 1024 < 1023) ∨ (pf = .user ∧ 0 < p ∧ n / 1024 < 768) := by
  have low := inside.ge
  have high := inside.lt
  cases pf with
  | kernel => exact .inl ⟨rfl, low, by omega⟩
  | user =>
    simp only [half, InVaddr, userVaddrStart, userVaddrLen, pgSize] at inside
    split at inside <;> exact .inr ⟨rfl, by omega, by omega⟩

/-- The table of a page: one of the kernel's, or one that is in use. -/
theorem PageCore.table_at (core : PageCore M s) (inside : InVaddr M (half p pf) n)
    (there : (s.pde p (n / 1024)).present = true) :
    (pf = .kernel ∧ 768 ≤ n / 1024 ∧ n / 1024 < 1023 ∧ (s.pde p (n / 1024)).addr = kernelTable (n / 1024)) ∨
      (pf = .user ∧ Uses s (.table p (n / 1024)) (s.pde p (n / 1024)).addr) := by
  rcases inside.entry with ⟨kernel, low, high⟩ | ⟨user, process, high⟩
  · have low' : 768 ≤ n / 1024 := by omega
    exact .inl ⟨kernel, low', high, by rw [core.kernel_pde p _ low' high]⟩
  · exact .inr ⟨user, process, high, by rw [← there]⟩

theorem PageCore.unmapped (core : PageCore M s) (inside : InVaddr M (half p pf) n)
    (clear : s.vaddrBit (half p pf) n = false) (there : (s.pde p (n / 1024)).present = true) :
    (s.pte (s.pde p (n / 1024)).addr (n % 1024)).present = false := by
  by_contra mapped
  rw [Bool.not_eq_false] at mapped
  have uses : Uses s (.page (half p pf) n) (s.pte (s.pde p (n / 1024)).addr (n % 1024)).addr := by
    rcases inside.entry with ⟨rfl, low, high⟩ | ⟨rfl, process, high⟩
    · have entry := core.kernel_pde p (n / 1024) (by omega) high
      refine ⟨by omega, by omega, ?_⟩
      rw [entry] at mapped ⊢
      rw [← mapped]
    · exact ⟨process, by omega, there, by rw [← mapped]⟩
  rcases core.reserved _ _ _ uses with reserved | ⟨kernel, low⟩
  · rw [reserved.2] at clear
    cases clear
  · cases pf with
    | kernel =>
      have above := inside.ge
      rw [vaddrBase, kHeapStart, pgSize] at above
      omega
    | user => cases kernel

theorem PageCore.tablesFit (core : PageCore M s) : TablesFit M s pf p where
  unmapped _ inside clear there := core.unmapped inside clear there
  kernel := by
    rintro rfl n inside
    rcases inside.entry with ⟨-, low, high⟩ | ⟨user, -⟩
    · rw [core.kernel_pde p _ (by omega) high]
    · cases user
  apart n m here here' diff there there' same := by
    rcases core.table_at here there with ⟨rfl, low, -, table⟩ | ⟨rfl, uses⟩
    · rcases core.table_at here' there' with ⟨-, low', -, table'⟩ | ⟨user, -⟩
      · rw [table, table'] at same
        exact diff (kernelTable_inj low low' same)
      · cases user
    · rcases core.table_at here' there' with ⟨kernel, -⟩ | ⟨-, uses'⟩
      · cases kernel
      · rw [← same] at uses'
        have above := core.table_ge uses
        exact diff (Slot.table.inj (core.uniq _ _ _ uses uses' (Nat.le_trans (by decide) above))).2
  used n inside there := by
    rcases core.table_at inside there with ⟨-, low, high, table⟩ | ⟨rfl, uses⟩
    · have below := kernelTable_lt high
      rw [table]
      refine ⟨by rw [kernelTable]; omega, fun i _ same => ?_⟩
      have above := frame_ge (M := M) .kernel i
      omega
    · have above := core.table_ge uses
      refine ⟨Nat.ne_of_gt (Nat.lt_of_lt_of_le (by decide) above), fun i mem same => ?_⟩
      obtain ⟨inPool, clear⟩ := mem_free.1 mem
      rcases core.marked _ _ uses with ⟨j, hj, frame, taken⟩ | ⟨m, -, low, -⟩
      · obtain ⟨-, rfl⟩ := frame_inj hj inPool (frame.symm.trans same)
        rw [show poolOf (.table p (n / 1024)) = .kernel from rfl, clear] at taken
        cases taken
      · cases low

theorem tablesFit_reachable (reachable : Reachable PageStart (PageStepFound M) s) : TablesFit M s pf p :=
  (pageInv_reachable reachable).core.tablesFit

end Tables

/-! Requests to the machine with two small pools. -/

theorem firstFit_none {bits : Nat → Bool} {len : Nat} (n : Nat) :
    ∀ j, firstFit bits len 1 n j = none → ∀ i, j ≤ i → i < j + n → i < len → bits i = true := by
  induction n with
  | zero => intro j _ i low high; omega
  | succ n ih =>
    intro j none i low high inside
    unfold firstFit at none
    split at none
    · cases none
    · next taken =>
      by_cases here : j = i
      · by_contra clear
        refine taken ⟨by omega, fun k hk => ?_⟩
        rw [Nat.lt_one_iff.1 hk, Nat.add_zero, here]
        exact Bool.eq_false_of_not_eq_true clear
      · exact ih (j + 1) none i (by omega) (by omega) inside

theorem tiny_complete : tiny.Complete :=
  fun _ len none i low => firstFit_none len 0 none i (Nat.zero_le i) (by omega) low

/-- Process 1, with pools of eight frames. -/
def tinyCaller : Caller := ⟨1, 1, 0xc0000000, 8 * pgSize⟩

/-- The memory with its locks free. -/
def idle (vm : VM) : Memory := ⟨vm, ⟨fun _ => 0, fun _ => 0⟩, fun _ => none, fun _ => 0, []⟩

/-- Process 1 has taken the frames of the user pool. -/
def allTaken : VM := after tiny (.mallocPage .user 1 8) tinyStart

/-- Eight pages of eight frames. -/
theorem requests_clean_eight : ReportsCleanly tiny (fun _ => 0) tinyCaller (idle tinyStart) (.getUserPages 8) :=
  (requests_clean tiny_complete (fun _ => tablesFit_reachable (.start tinyStart_start)) (.getUserPages 8)
    (.inl ⟨rfl, rfl⟩)).2 fun _ => by decide +kernel

/-- Nine pages of eight frames: the bits stay set. No frame for get_a_page: the lock stays taken. -/
theorem requests_unclean :
    ¬ ReportsCleanly tiny (fun _ => 0) tinyCaller (idle tinyStart) (.getUserPages 9) ∧
      ¬ ReportsCleanly tiny (fun _ => 0) tinyCaller (idle allTaken) (.getAPage .user 0x8060000) := by
  constructor <;> intro clean
  · have fit : TablesFit tiny tinyStart .user 1 := (pageInv_start tinyStart_start).core.tablesFit
    have reserves : Reserves tiny tinyStart .user 1 9 := ⟨by decide, by decide, 0, by decide +kernel, fun _ => by decide⟩
    have enough := (getPages_clean (c := tinyCaller) tiny_complete fit (.inl ⟨rfl, rfl⟩) 9).1 clean reserves
    exact absurd enough (by decide +kernel)
  · have left := (getAPageLocked_clean (c := tinyCaller) tiny_complete (.inl ⟨rfl, rfl⟩) 0x8060000).1 clean
      ⟨by decide, by decide⟩
    exact absurd left (by decide +kernel)

end Zhenxiang.Paging
