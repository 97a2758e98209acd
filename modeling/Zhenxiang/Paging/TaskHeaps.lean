import Zhenxiang.Paging.Exhaustion
import Zhenxiang.Paging.Grown

/-! The heap of the kernel and the heaps of the processes on one page allocator: whole calls of sys_malloc and
sys_free by the threads that run one after the other. -/
namespace Zhenxiang.Paging
open Lib Kernel

/-- Kernel threads share the heap 0. -/
def poolFlags (p : Nat) : PoolFlags := if p = 0 then .kernel else .user

/-- The half of an address space its heap lies in. -/
def halfOf (p : Nat) : Option Nat := half p (poolFlags p)

/-- The block descriptors: k_block_descs in the kernel's image, u_block_desc in the PCB of a process; and the
byte sizes of the pools. -/
structure Descs where
  descs : Nat → Nat
  poolSize : PoolFlags → Nat
  kernel_pos : 0 < descs 0
  kernel_below : descs 0 + descCnt * sizeofDesc ≤ kHeapStart
  user_above : ∀ p, 0 < p → 0xc0000000 ≤ descs p
  pool_small : ∀ pf, poolSize pf ≤ 65535 * pgSize

theorem Descs.descs_pos (D : Descs) (p : Nat) : 0 < D.descs p := by
  rcases Nat.eq_zero_or_pos p with rfl | process
  · exact D.kernel_pos
  · exact Nat.lt_of_lt_of_le (by decide) (D.user_above p process)

/-- What the heap of address space p sees of its task. -/
def Descs.task (D : Descs) (p : Nat) : HeapTask where
  kernel := p = 0
  descs := D.descs p
  poolSize := D.poolSize (poolFlags p)
  descs_pos := D.descs_pos p
  pool_small := D.pool_small (poolFlags p)

def Descs.caller (D : Descs) (task p : Nat) : Caller := ⟨task, p, D.descs p, D.poolSize (poolFlags p)⟩

/-- sys_free up to its calls of mfree_page: the run of pages to give back, if there is one. -/
def takeBack (ptr : Nat) : Kern Heap (Option (Nat × Nat)) := do
  let a := block2arena ptr
  let large ← onMem (load (largeOf a))
  assert (large = 0 ∨ large = 1)
  let desc ← onMem (load a)
  if desc = 0 ∧ large = 1 then
    pure (some (a, ← onMem (load (cntOf a))))
  else
    onMem (listAppend (freeListOf desc) ptr)
    let cnt := ((← onMem (load (cntOf a))) + 1) % 2 ^ 32
    onMem (store (cntOf a) cnt)
    let blocks ← onMem (load (blocksPerArenaOf desc))
    if cnt = blocks then
      forRange blocks (reclaimBlock a)
      pure (some (a, 1))
    else
      pure none

variable (M : Machine) (D : Descs)

/-- The frame that the tables of address space p give the virtual page n. -/
def VM.frameAt (s : VM) (p n : Nat) : Option Nat :=
  let d := s.pde p (n / 1024)
  let e := s.pte d.addr (n % 1024)
  if d.present = true ∧ e.present = true then some e.addr else none

/-- What the TLB may go on holding of a run of pages that is given back: the operand of invlpg in
page_table_pte_remove is the variable vaddr, so what is dropped is the page of the stack that vaddr is on. -/
def lingering (s : VM) (p : Nat) (run : Nat × Nat) : List (Nat × Nat) :=
  (List.range run.2).filterMap fun k => (s.frameAt p (run.1 / pgSize + k)).map fun f => (run.1 / pgSize + k, f)

/-- mfree_page, for the tables and pools and for the memory of the task. -/
def giveBack (c : Caller) : Option (Nat × Nat) → Kern Memory Unit
  | none => pure ()
  | some run => do
    modify fun s => { s with stale := lingering s.vm c.p run ++ s.stale }
    onVM (mfreePage M c.pf c.p run.1 run.2)
    onTaskHeap (Kernel.mfreePage run.1 run.2)

/-- Kernel.sysFree with mfree_page and the lock of the pool. -/
def sysFreeLocked (c : Caller) (ptr : Nat) : Kern Memory Unit := do
  assert (ptr ≠ 0)
  assert (c.p = 0 → kHeapStart ≤ ptr)
  lockAcquire c.pf c.task
  let run ← onTaskHeap (takeBack ptr)
  giveBack M c run
  lockRelease c.pf c.task

/-- No page is mapped to another frame than the one the TLB may still hold for it. -/
def Memory.Settled (s : Memory) (p : Nat) : Prop :=
  ∀ e ∈ s.stale, s.vm.frameAt p e.1 = none ∨ s.vm.frameAt p e.1 = some e.2

instance (s : Memory) (p : Nat) : Decidable (s.Settled p) :=
  inferInstanceAs (Decidable (∀ e ∈ s.stale, s.vm.frameAt p e.1 = none ∨ s.vm.frameAt p e.1 = some e.2))

/-- sys_malloc writes to the pages it has mapped. Where the TLB holds another frame, what comes of that is undefined. -/
def sysMallocTlb (contents : Mem) (c : Caller) (pages : Nat → Kern VM (Option Nat)) (size : Nat) : Kern Memory (Option Nat) := do
  let b ← sysMallocLocked contents c pages size
  check ((← get).Settled c.p) .undefined
  pure b

/-- How many pages sys_malloc asks malloc_page for, if any. -/
def pagesWanted (c : Caller) (h : Heap) (size : Nat) : Option Nat :=
  if ¬ (0 < size ∧ size < c.poolSize) then
    none
  else if 1024 < size then
    some (divRoundUp ((size + sizeofArena) % 2 ^ 32) pgSize)
  else
    let desc := c.descs + descFor h.mem c.descs size descCnt 0 * sizeofDesc
    if h.mem (nextOf (freeListOf desc)) = tailOf (freeListOf desc) then some 1 else none

/-- The pages, the heap in each address space with the blocks its task holds, the locks of the pools, and the address
space that cr3 has, with what the TLB may still hold. -/
structure TaskHeaps where
  vm : VM
  heaps : Nat → HeapSys
  holder : PoolFlags → Option Nat
  holderRepeatNr : PoolFlags → Nat
  active : Nat
  stale : List (Nat × Nat)

namespace TaskHeaps

def memory (p : Nat) (s : TaskHeaps) : Memory := ⟨s.vm, (s.heaps p).heap, s.holder, s.holderRepeatNr, s.stale⟩

def putMemory (p : Nat) (s : TaskHeaps) (m : Memory) : TaskHeaps :=
  ⟨m.vm, Function.update s.heaps p { s.heaps p with heap := m.heap }, m.holder, m.holderRepeatNr, s.active, m.stale⟩

def setLive (p b size : Nat) (s : TaskHeaps) : TaskHeaps :=
  { s with heaps := Function.update s.heaps p { s.heaps p with live := Function.update (s.heaps p).live b size } }

end TaskHeaps

/-- In address space p, with the memory it addresses. -/
def onTask {α : Type} (p : Nat) (c : Kern Memory α) : Kern TaskHeaps α := zoom (TaskHeaps.memory p) (TaskHeaps.putMemory p) c

/-- A thread of address space p is scheduled, a call by the thread task, or a write of the code that runs in address
space p. The frames that malloc_page finds hold contents. -/
inductive HeapCall where
  | schedule (p : Nat)
  | malloc (task p : Nat) (contents : Mem) (size : Nat)
  | free (task p ptr : Nat)
  | write (p x v : Nat)

/-- A call; true when it was successful. Each thread that is scheduled loads cr3, which empties the TLB. -/
def callPerform : HeapCall → Kern TaskHeaps Bool
  | .schedule p => do
    modify fun s => { s with active := p, stale := [] }
    pure true
  | .malloc task p contents size => do
    match ← onTask p (sysMallocTlb contents (D.caller task p) (mallocPage M (poolFlags p) p) size) with
    | none => pure false
    | some b =>
      modify fun s => s.setLive p b size
      pure true
  | .free task p ptr => do
    onTask p (sysFreeLocked M (D.caller task p) ptr)
    modify fun s => s.setLive p ptr 0
    pure true
  | .write p x v => do
    onTask p (onTaskHeap (onMem (store x v)))
    pure true

/-- A task frees what it holds, and writes only inside that, and its address space is the active one. -/
def CallAllowed (s : TaskHeaps) : HeapCall → Prop
  | .schedule _ => True
  | .malloc _ p _ _ => p = s.active
  | .free _ p ptr => p = s.active ∧ 0 < (s.heaps p).live ptr
  | .write p x _ => p = s.active ∧ ∃ b, b ≤ x ∧ x < b + (s.heaps p).live b

/-- page_table_add is not short of a page table. -/
def CallTables (s : TaskHeaps) : HeapCall → Prop
  | .malloc task p _ size => ∀ cnt, pagesWanted (D.caller task p) (s.heaps p).heap size = some cnt →
    HasTables M s.vm (.mallocPage (poolFlags p) p cnt)
  | .schedule _ | .free _ _ _ | .write _ _ _ => True

/-- A call that returns; with NULL it has not touched the pages. -/
def CallStep (s t : TaskHeaps) : Prop :=
  ∃ e ok, CallAllowed s e ∧ CallTables M D s e ∧ callPerform M D e s = .ok (ok, t) ∧ (ok = false → t.vm = s.vm)

/-- The page n is one of a run of pages that the heap has got from malloc_page. -/
def Holds (h : Heap) (n : Nat) : Prop := ∃ a k, k < h.runs a ∧ n = a / pgSize + k

def InHeap (s : TaskHeaps) (p n : Nat) : Prop := Holds (s.heaps p).heap n

end Zhenxiang.Paging
