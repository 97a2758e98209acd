import Zhenxiang.Kernel.Debug

/-! The page allocator of memory.c: physical pools, virtual address bitmaps and the
two-level page tables of any number of address spaces. Every call is atomic, under
the lock of its pool. -/
namespace Zhenxiang.Paging
open Lib Kernel

def userVaddrStart : Nat := 0x8048000

/-- PF_KERNEL and PF_USER. -/
inductive PoolFlags where
  | kernel
  | user
  deriving DecidableEq, Repr

/-- What mem_pool_init finds: the pools of kLen and uLen page frames, one behind the
other, and bitmap_scan, which returns an in-range run of clear bits or -1. -/
structure Machine where
  scan : (Nat → Bool) → Nat → Nat → Option Nat
  kLen : Nat
  uLen : Nat
  uStart : Nat
  scan_ok : ∀ bits len cnt i, scan bits len cnt = some i →
    i + cnt ≤ len ∧ ∀ k < cnt, bits (i + k) = false
  kLen_small : kLen ≤ 65535
  uStart_aligned : pgSize ∣ uStart
  pools : 0x200000 + kLen * pgSize ≤ uStart

/-- phy_addr_start of the kernel pool: behind the low megabyte and 256 pages for the
page directory and the page tables made at boot. -/
def kStart : Nat := 0x200000

/-- A page directory or page table entry; its other attributes are constant. -/
structure Entry where
  addr : Nat
  present : Bool
  deriving DecidableEq, Repr

/-- Address space 0 is that of the kernel threads, whose pgdir is NULL; the others are
processes. A page table is found by its physical address. Between malloc_page and
mfree_page, runs holds the number of pages of a range under the address space (none
for the kernel's half) and address of its first page; no function reads it. -/
structure VM where
  kernelPool : Nat → Bool
  userPool : Nat → Bool
  kernelVaddr : Nat → Bool
  userVaddr : Nat → Nat → Bool
  pde : Nat → Nat → Entry
  pte : Nat → Nat → Entry
  runs : Option Nat → Nat → Nat

/-- Bits in a process's bitmap of virtual pages; a kernel thread has none. -/
def userVaddrLen (p : Nat) : Nat :=
  if p = 0 then 0 else (0xc0000000 - userVaddrStart) / pgSize / 8 * 8

def pdeIdx (vaddr : Nat) : Nat := vaddr / 2 ^ 22
def pteIdx (vaddr : Nat) : Nat := vaddr / 2 ^ 12 % 2 ^ 10

/-- cnt calls of bitmap_set. -/
def setBits (bits : Nat → Bool) (i cnt : Nat) (value : Bool) : Nat → Bool :=
  fun k => if i ≤ k ∧ k < i + cnt then value else bits k

namespace VM

def setPte (s : VM) (table idx : Nat) (e : Entry) : VM :=
  { s with pte := Function.update s.pte table (Function.update (s.pte table) idx e) }

def setPde (s : VM) (p idx : Nat) (e : Entry) : VM :=
  { s with pde := Function.update s.pde p (Function.update (s.pde p) idx e) }

def clearTable (s : VM) (table : Nat) : VM :=
  { s with pte := Function.update s.pte table fun _ => ⟨0, false⟩ }

def reserve (s : VM) (pf : PoolFlags) (p i cnt : Nat) (value : Bool) : VM :=
  match pf with
  | .kernel => { s with kernelVaddr := setBits s.kernelVaddr i cnt value }
  | .user => { s with
      userVaddr := Function.update s.userVaddr p (setBits (s.userVaddr p) i cnt value) }

def setPool (s : VM) (pf : PoolFlags) (i : Nat) (value : Bool) : VM :=
  match pf with
  | .kernel => { s with kernelPool := setBits s.kernelPool i 1 value }
  | .user => { s with userPool := setBits s.userPool i 1 value }

def setRun (s : VM) (h : Option Nat) (vaddr pgCnt : Nat) : VM :=
  { s with runs := Function.update s.runs h (Function.update (s.runs h) vaddr pgCnt) }

end VM

variable (M : Machine)

def Machine.poolStart : PoolFlags → Nat
  | .kernel => kStart
  | .user => M.uStart

def Machine.scanPool (s : VM) : PoolFlags → Option Nat
  | .kernel => M.scan s.kernelPool M.kLen 1
  | .user => M.scan s.userPool M.uLen 1

def vaddrGet (pf : PoolFlags) (p pgCnt : Nat) : Kern VM (Option Nat) := do
  match pf with
  | .kernel =>
    match M.scan (← get).kernelVaddr M.kLen pgCnt with
    | none => pure none
    | some i =>
      modify fun s => s.reserve .kernel p i pgCnt true
      pure (some (kHeapStart + i * pgSize))
  | .user =>
    match M.scan ((← get).userVaddr p) (userVaddrLen p) pgCnt with
    | none => pure none
    | some i =>
      modify fun s => s.reserve .user p i pgCnt true
      assert (userVaddrStart + i * pgSize < 0xc0000000 - pgSize)
      pure (some (userVaddrStart + i * pgSize))

def palloc (pf : PoolFlags) : Kern VM (Option Nat) := do
  match M.scanPool (← get) pf with
  | none => pure none
  | some i =>
    modify fun s => s.setPool pf i true
    pure (some (i * pgSize + M.poolStart pf))

/-- A missing page table is made without a look at whether palloc returned NULL. -/
def pageTableAdd (p vaddr phyaddr : Nat) : Kern VM Unit := do
  let d := (← get).pde p (pdeIdx vaddr)
  if d.present = true then
    assert (((← get).pte d.addr (pteIdx vaddr)).present = false)
    modify fun s => s.setPte d.addr (pteIdx vaddr) ⟨phyaddr, true⟩
  else
    let pde ← palloc M .kernel
    let table := pde.getD 0
    modify fun s => s.setPde p (pdeIdx vaddr) ⟨table, true⟩
    modify fun s => s.clearTable table
    assert (((← get).pte table (pteIdx vaddr)).present = false)
    modify fun s => s.setPte table (pteIdx vaddr) ⟨phyaddr, true⟩

/-- The loop of malloc_page; false when palloc returns NULL, with nothing rolled back. -/
def mapPages (pf : PoolFlags) (p : Nat) : Nat → Nat → Kern VM Bool
  | 0, _ => pure true
  | n + 1, vaddr => do
    match ← palloc M pf with
    | none => pure false
    | some phyaddr =>
      pageTableAdd M p vaddr phyaddr
      mapPages pf p n (vaddr + pgSize)

def mallocPage (pf : PoolFlags) (p pgCnt : Nat) : Kern VM (Option Nat) := do
  assert (0 < pgCnt ∧ pgCnt < 3840)
  match ← vaddrGet M pf p pgCnt with
  | none => pure none
  | some vaddr =>
    if (← mapPages M pf p pgCnt vaddr) = true then
      pure (some vaddr)
    else
      pure none

/-- The index of vaddr in a bitmap that starts at start, in 32-bit arithmetic. -/
def bitIdx (vaddr start : Nat) : Nat := (vaddr + 2 ^ 32 - start) % 2 ^ 32 / pgSize

def getAPage (pf : PoolFlags) (p vaddr : Nat) : Kern VM (Option Nat) := do
  match pf with
  | .user =>
    assert (p ≠ 0)
    assert (0 < bitIdx vaddr userVaddrStart)
    modify fun s => s.reserve .user p (bitIdx vaddr userVaddrStart) 1 true
  | .kernel =>
    assert (p = 0)
    assert (0 < bitIdx vaddr kHeapStart)
    modify fun s => s.reserve .kernel p (bitIdx vaddr kHeapStart) 1 true
  match ← palloc M pf with
  | none => pure none
  | some phyaddr =>
    pageTableAdd M p vaddr phyaddr
    pure (some vaddr)

def getAPageWithoutOpvaddrbitmap (pf : PoolFlags) (p vaddr : Nat) : Kern VM (Option Nat) := do
  match ← palloc M pf with
  | none => pure none
  | some phyaddr =>
    pageTableAdd M p vaddr phyaddr
    pure (some vaddr)

/-- The entry that maps vaddr; reaching it through an absent directory entry faults. -/
def pteOf (p vaddr : Nat) : Kern VM Entry := do
  let d := (← get).pde p (pdeIdx vaddr)
  if d.present = true then
    pure ((← get).pte d.addr (pteIdx vaddr))
  else
    throw .undefined

def addrV2p (p vaddr : Nat) : Kern VM Nat := do
  pure ((← pteOf p vaddr).addr + vaddr % pgSize)

def pfree (phyaddr : Nat) : Kern VM Unit :=
  if M.uStart ≤ phyaddr then
    modify fun s => s.setPool .user ((phyaddr - M.uStart) / pgSize) false
  else
    modify fun s => s.setPool .kernel ((phyaddr - kStart) / pgSize) false

def pageTablePteRemove (p vaddr : Nat) : Kern VM Unit := do
  let e ← pteOf p vaddr
  modify fun s => s.setPte (s.pde p (pdeIdx vaddr)).addr (pteIdx vaddr) { e with present := false }

def vaddrRemove (pf : PoolFlags) (p vaddr pgCnt : Nat) : Kern VM Unit :=
  match pf with
  | .kernel => modify fun s => s.reserve .kernel p (bitIdx vaddr kHeapStart) pgCnt false
  | .user => modify fun s => s.reserve .user p (bitIdx vaddr userVaddrStart) pgCnt false

/-- One turn of either loop of mfree_page; inPool is what its ASSERT asks of a frame. -/
def releasePage (p vaddr : Nat) (inPool : Nat → Bool) : Kern VM Unit := do
  let phyaddr ← addrV2p p vaddr
  assert (phyaddr % pgSize = 0 ∧ inPool phyaddr = true)
  pfree M phyaddr
  pageTablePteRemove p vaddr

def mfreePage (pf : PoolFlags) (p vaddr pgCnt : Nat) : Kern VM Unit := do
  assert (1 ≤ pgCnt ∧ vaddr % pgSize = 0)
  let phyaddr ← addrV2p p vaddr
  assert (phyaddr % pgSize = 0 ∧ 0x102000 ≤ phyaddr)
  if M.uStart ≤ phyaddr then
    forRange pgCnt fun k => releasePage M p (vaddr + k * pgSize) fun f => M.uStart ≤ f
  else
    forRange pgCnt fun k => releasePage M p (vaddr + k * pgSize) fun f => kStart ≤ f ∧ f < M.uStart
  vaddrRemove pf p vaddr pgCnt

inductive PageEvent where
  | mallocPage (pf : PoolFlags) (p pgCnt : Nat)
  | getAPage (pf : PoolFlags) (p vaddr : Nat)
  | getAPageWithoutOpvaddrbitmap (pf : PoolFlags) (p vaddr : Nat)
  | mfreePage (pf : PoolFlags) (p vaddr pgCnt : Nat)

/-- The half of an address space a call is about: none is the kernel's. -/
def half (p : Nat) : PoolFlags → Option Nat
  | .kernel => none
  | .user => some p

/-- The virtual page n is in the bitmap of its half. -/
def InVaddr (h : Option Nat) (n : Nat) : Prop :=
  match h with
  | none => kHeapStart / pgSize ≤ n ∧ n < kHeapStart / pgSize + M.kLen
  | some p => userVaddrStart / pgSize ≤ n ∧ n < userVaddrStart / pgSize + userVaddrLen p

def VM.vaddrBit (s : VM) : Option Nat → Nat → Bool
  | none, n => s.kernelVaddr (n - kHeapStart / pgSize)
  | some p, n => s.userVaddr p (n - userVaddrStart / pgSize)

/-- The virtual page n has its bit set. -/
def Reserved (s : VM) (h : Option Nat) (n : Nat) : Prop := InVaddr M h n ∧ s.vaddrBit h n = true

/-- What callers keep to: get_a_page is given an address of its half, the variant for
fork one whose bit is already set, and mfree_page a whole range that malloc_page
returned and that has not been freed. -/
def PageAllowed (s : VM) : PageEvent → Prop
  | .mallocPage _ _ _ => True
  | .getAPage pf p vaddr => InVaddr M (half p pf) (vaddr / pgSize)
  | .getAPageWithoutOpvaddrbitmap pf p vaddr => Reserved M s (half p pf) (vaddr / pgSize)
  | .mfreePage pf p vaddr pgCnt => 0 < pgCnt ∧ s.runs (half p pf) vaddr = pgCnt

/-- One call; true when it was successful. -/
def pagePerform : PageEvent → Kern VM Bool
  | .mallocPage pf p pgCnt => do
    match ← mallocPage M pf p pgCnt with
    | none => pure false
    | some vaddr =>
      modify fun s => s.setRun (half p pf) vaddr pgCnt
      pure true
  | .getAPage pf p vaddr => do
    pure (← getAPage M pf p vaddr).isSome
  | .getAPageWithoutOpvaddrbitmap pf p vaddr => do
    pure (← getAPageWithoutOpvaddrbitmap M pf p vaddr).isSome
  | .mfreePage pf p vaddr pgCnt => do
    mfreePage M pf p vaddr pgCnt
    modify fun s => s.setRun (half p pf) vaddr 0
    pure true

def PageStep (s t : VM) : Prop := ∃ e, PageAllowed M s e ∧ pagePerform M e s = .ok (true, t)

/-- The page tables setup_page makes for the directory entries 768 to 1022. -/
def kernelTable (i : Nat) : Nat := 0x101000 + (i - 768) * pgSize

/-- The state after boot, with address spaces made by create_page_dir: empty bitmaps, the
kernel's half shared, its first megabyte mapped and nothing else. -/
structure PageStart (s : VM) : Prop where
  kernelPool : ∀ i, s.kernelPool i = false
  userPool : ∀ i, s.userPool i = false
  kernelVaddr : ∀ i, s.kernelVaddr i = false
  userVaddr : ∀ p i, s.userVaddr p i = false
  kernel_pde : ∀ p i, 768 ≤ i → i < 1023 → s.pde p i = ⟨kernelTable i, true⟩
  user_pde : ∀ p i, 0 < p → i < 768 → s.pde p i = ⟨0, false⟩
  low : ∀ j < 256, s.pte (kernelTable 768) j = ⟨j * pgSize, true⟩
  empty : ∀ i j, 768 ≤ i → i < 1023 → (i = 768 → 256 ≤ j) → s.pte (kernelTable i) j = ⟨0, false⟩
  runs : ∀ h v, s.runs h v = 0

end Zhenxiang.Paging
