import Zhenxiang.Kernel.List

/-! The heap of memory.c: sys_malloc and sys_free of one task, over the memory that
task addresses. Arena headers, block descriptors and the free lists threaded
through the blocks all lie in that memory. -/
namespace Zhenxiang.Kernel
open Lib

def descCnt : Nat := 7

/-- sizeof(struct arena) and sizeof(struct mem_block_desc). -/
def sizeofArena : Nat := 12
def sizeofDesc : Nat := 24

/-! The fields of struct arena and struct mem_block_desc; the first is at the
address itself. -/
def cntOf (a : Nat) : Nat := a + 4
def largeOf (a : Nat) : Nat := a + 8
def blocksPerArenaOf (desc : Nat) : Nat := desc + 4
def freeListOf (desc : Nat) : Nat := desc + 8

/-- What the running task determines: whether its pgdir is NULL, its descriptors and
the size of its pool, which mem_pool_init computes from a 16-bit number of pages. -/
structure HeapTask where
  kernel : Bool
  descs : Nat
  poolSize : Nat
  descs_pos : 0 < descs
  pool_small : poolSize ≤ 65535 * pgSize

/-- Besides memory, the runs of pages that malloc_page handed out and mfree_page has
not taken back: the number of pages of the run at each address. No function of the
heap reads them, but giving back anything else is not defined. -/
structure Heap where
  mem : Mem
  runs : Nat → Nat

def onMem {α : Type} (c : Kern Mem α) : Kern Heap α :=
  zoom Heap.mem (fun h m => { h with mem := m }) c

/-- How malloc_page answers one call for a number of pages that its ASSERT admits: NULL,
or an address and the contents found there. -/
abbrev PageSource := Nat → Option (Nat × Mem)

def mallocPage (pages : PageSource) (pgCnt : Nat) : Kern Heap Nat := do
  assert (0 < pgCnt ∧ pgCnt < 3840)
  match pages pgCnt with
  | none => pure 0
  | some (a, contents) => do
    modify fun h =>
      { mem := fun x => if a ≤ x ∧ x < a + pgCnt * pgSize then contents x else h.mem x
        runs := Function.update h.runs a pgCnt }
    pure a

def mfreePage (vaddr pgCnt : Nat) : Kern Heap Unit := do
  if 0 < pgCnt ∧ (← get).runs vaddr = pgCnt then
    modify fun h => { h with runs := Function.update h.runs vaddr 0 }
  else
    throw .undefined

/-- The loop of block_desc_init; block_size is a uint16_t. -/
def blockDescInitFrom : Nat → Nat → Nat → Kern Heap Unit
  | 0, _, _ => pure ()
  | n + 1, desc, blockSize => do
    onMem (store desc blockSize)
    onMem (store (blocksPerArenaOf desc) ((pgSize - sizeofArena) / blockSize))
    onMem (listInit (freeListOf desc))
    blockDescInitFrom n (desc + sizeofDesc) (blockSize * 2 % 2 ^ 16)

def blockDescInit (descArray : Nat) : Kern Heap Unit :=
  blockDescInitFrom descCnt descArray 16

def arena2block (a idx : Nat) : Kern Heap Nat := do
  let desc ← onMem (load a)
  let blockSize ← onMem (load desc)
  pure (a + sizeofArena + idx * blockSize)

/-- The mask 0xfffff000. -/
def block2arena (b : Nat) : Nat := b / pgSize * pgSize

/-- DIV_ROUND_UP in 32-bit arithmetic. -/
def divRoundUp (x step : Nat) : Nat := (x + step - 1) % 2 ^ 32 / step

/-- A request of more than 1024 bytes gets an arena of its own. -/
def mallocLarge (pages : PageSource) (size : Nat) : Kern Heap Nat := do
  let pageCnt := divRoundUp ((size + sizeofArena) % 2 ^ 32) pgSize
  let a ← mallocPage pages pageCnt
  if a ≠ 0 then
    onMem (clear a (pageCnt * pgSize % 2 ^ 32))
    onMem (store a 0)
    onMem (store (cntOf a) pageCnt)
    onMem (store (largeOf a) 1)
    pure (a + sizeofArena)
  else
    pure 0

/-- The loop that looks for a descriptor of blocks big enough. -/
def matchDesc (descs size : Nat) : Nat → Nat → Kern Heap Nat
  | 0, descIdx => pure descIdx
  | n + 1, descIdx => do
    if size ≤ (← onMem (load (descs + descIdx * sizeofDesc))) then
      pure descIdx
    else
      matchDesc descs size n (descIdx + 1)

def carveBlock (a blockIdx : Nat) : Kern Heap Unit := do
  let b ← arena2block a blockIdx
  let desc ← onMem (load a)
  let found ← onMem (elemFind (freeListOf desc) b)
  assert (found = false)
  onMem (listAppend (freeListOf desc) b)

/-- A new arena for an empty free list; false when there is no page for it. -/
def makeArena (pages : PageSource) (desc : Nat) : Kern Heap Bool := do
  let a ← mallocPage pages 1
  if a = 0 then
    pure false
  else
    onMem (clear a pgSize)
    onMem (store a desc)
    onMem (store (largeOf a) 0)
    let blocks ← onMem (load (blocksPerArenaOf desc))
    onMem (store (cntOf a) blocks)
    forRange blocks (carveBlock a)
    pure true

def takeBlock (desc : Nat) : Kern Heap Nat := do
  let b ← onMem (listPop (freeListOf desc))
  onMem (clear b (← onMem (load desc)))
  let a := block2arena b
  let cnt ← onMem (load (cntOf a))
  onMem (store (cntOf a) ((cnt + 2 ^ 32 - 1) % 2 ^ 32))
  pure b

def sysMalloc (T : HeapTask) (pages : PageSource) (size : Nat) : Kern Heap Nat := do
  if ¬ (0 < size ∧ size < T.poolSize) then
    pure 0
  else if 1024 < size then
    mallocLarge pages size
  else
    let descIdx ← matchDesc T.descs size descCnt 0
    let desc := T.descs + descIdx * sizeofDesc
    let empty ← onMem (listEmpty (freeListOf desc))
    let ready ← if empty = true then makeArena pages desc else pure true
    if ready = true then
      takeBlock desc
    else
      pure 0

def reclaimBlock (a blockIdx : Nat) : Kern Heap Unit := do
  let b ← arena2block a blockIdx
  let desc ← onMem (load a)
  let found ← onMem (elemFind (freeListOf desc) b)
  assert (found = true)
  onMem (listRemove b)

def freeBlock (a b : Nat) : Kern Heap Unit := do
  let desc ← onMem (load a)
  onMem (listAppend (freeListOf desc) b)
  let cnt := ((← onMem (load (cntOf a))) + 1) % 2 ^ 32
  onMem (store (cntOf a) cnt)
  let blocks ← onMem (load (blocksPerArenaOf desc))
  if cnt = blocks then
    forRange blocks (reclaimBlock a)
    mfreePage a 1

def sysFree (T : HeapTask) (ptr : Nat) : Kern Heap Unit := do
  assert (ptr ≠ 0)
  assert (T.kernel = true → kHeapStart ≤ ptr)
  let a := block2arena ptr
  let large ← onMem (load (largeOf a))
  assert (large = 0 ∨ large = 1)
  let desc ← onMem (load a)
  if desc = 0 ∧ large = 1 then
    mfreePage a (← onMem (load (cntOf a)))
  else
    freeBlock a ptr

/-- The blocks sys_malloc has returned and sys_free has not been given, each with the
size asked for; zero elsewhere. -/
structure HeapSys where
  heap : Heap
  live : Nat → Nat

inductive HeapEvent where
  | malloc (pages : PageSource) (size : Nat)
  | free (ptr : Nat)
  | write (x v : Nat)

/-- Two ranges of addresses have nothing in common. -/
def NoOverlap (a m b n : Nat) : Prop := a + m ≤ b ∨ b + n ≤ a

/-- Where malloc_page may place a run of n pages: aligned, inside the address space, in
the kernel's part of it for a kernel thread, and off everything in use. -/
structure Fresh (T : HeapTask) (h : Heap) (a n : Nat) : Prop where
  aligned : pgSize ∣ a
  pos : 0 < a
  below : a + n * pgSize ≤ 2 ^ 32
  kernel : T.kernel = true → kHeapStart ≤ a
  descs : NoOverlap a (n * pgSize) T.descs (descCnt * sizeofDesc)
  runs : ∀ b, 0 < h.runs b → NoOverlap a (n * pgSize) b (h.runs b * pgSize)

/-- A task frees only live blocks and writes only inside them. -/
def HeapAllowed (T : HeapTask) (s : HeapSys) : HeapEvent → Prop
  | .malloc pages _ => ∀ n a m, 0 < n → pages n = some (a, m) → Fresh T s.heap a n
  | .free ptr => 0 < s.live ptr
  | .write x _ => ∃ p, p ≤ x ∧ x < p + s.live p

/-- A request takes fewer than 3840 pages, or none as it is not below the size of the pool. -/
def FewPages (T : HeapTask) : HeapEvent → Prop
  | .malloc _ size => size < T.poolSize → divRoundUp ((size + sizeofArena) % 2 ^ 32) pgSize < 3840
  | .free _ => True
  | .write .. => True

def onHeap {α : Type} (c : Kern Heap α) : Kern HeapSys α :=
  zoom HeapSys.heap (fun s h => { s with heap := h }) c

/-- An event, with the pointer sys_malloc returns and NULL for the others. -/
def heapPerform (T : HeapTask) : HeapEvent → Kern HeapSys Nat
  | .malloc pages size => do
    let p ← onHeap (sysMalloc T pages size)
    if p ≠ 0 then
      modify fun s => { s with live := Function.update s.live p size }
    pure p
  | .free ptr => do
    onHeap (sysFree T ptr)
    modify fun s => { s with live := Function.update s.live ptr 0 }
    pure 0
  | .write x v => do
    onHeap (onMem (store x v))
    pure 0

def HeapStep (T : HeapTask) (s t : HeapSys) : Prop :=
  ∃ e p, HeapAllowed T s e ∧ heapPerform T e s = .ok (p, t)

/-- No page and no block handed out, and the descriptors as block_desc_init leaves
them. -/
def HeapStart (T : HeapTask) (s : HeapSys) : Prop :=
  (∀ a, s.heap.runs a = 0) ∧ (∀ p, s.live p = 0) ∧
    ∃ h, blockDescInit T.descs h = .ok ((), s.heap)

end Zhenxiang.Kernel
