import Zhenxiang.Lib.Mmu
import Zhenxiang.Paging.PagesCorrect

/-! The page tables of memory.c, process.c and loader.S as bytes of physical memory, which the kernel
reaches through the window of the active page directory, with what the TLB may still hold of pages that have been
given back. -/
namespace Zhenxiang.Paging
open Lib Kernel

def pageDirTablePos : Nat := 0x100000

/-- cur is the address space of running_thread(), 0 for every kernel thread; pgdir is the field of the PCB,
NULL for kernel threads and where no process has been made. stale has the pages whose entries have been cleared
since cr3 was last written, each with the frame it had. The bitmaps are apart from the bytes, and runs is as in
VM. -/
structure Ram where
  bytes : Buf
  cr3 : Nat
  cur : Nat
  pgdir : Nat → Nat
  stale : List (Nat × Nat)
  kernelPool : Nat → Bool
  userPool : Nat → Bool
  kernelVaddr : Nat → Bool
  userVaddr : Nat → Nat → Bool
  runs : Option Nat → Nat → Nat

namespace Ram

/-- The bitmaps, over no page tables at all. -/
def books (s : Ram) : VM where
  kernelPool := s.kernelPool
  userPool := s.userPool
  kernelVaddr := s.kernelVaddr
  userVaddr := s.userVaddr
  pde _ _ := ⟨0, false⟩
  pte _ _ := ⟨0, false⟩
  runs := s.runs

def setBooks (s : Ram) (vm : VM) : Ram :=
  { s with
    kernelPool := vm.kernelPool, userPool := vm.userPool, kernelVaddr := vm.kernelVaddr
    userVaddr := vm.userVaddr, runs := vm.runs }

end Ram

def onBooks {α : Type} (c : Kern VM α) : Kern Ram α := zoom Ram.books Ram.setBooks c

namespace Ram

/-- The TLB holds no other frame for the page of vaddr than that of a. -/
def Agrees (s : Ram) (vaddr a : Nat) : Prop := ∀ e ∈ s.stale, e.1 = vaddr / pgSize → e.2 = frameOf a

instance (s : Ram) (vaddr a : Nat) : Decidable (s.Agrees vaddr a) :=
  inferInstanceAs (Decidable (∀ e ∈ s.stale, e.1 = vaddr / pgSize → e.2 = frameOf a))

/-- The address translation of the processor, with a page fault for what it does not admit. Where the TLB may hold
another frame, what comes of the access is undefined. -/
def translate (x : Access) (vaddr : Nat) : Kern Ram Nat := do
  match pageWalk x (← get).bytes (← get).cr3 vaddr with
  | none => throw .undefined
  | some a =>
    check ((← get).Agrees vaddr a) .undefined
    pure a

def loadByte (vaddr : Nat) : Kern Ram UInt8 := do
  let a ← translate .supervisor vaddr
  pure ((← get).bytes a)

def storeByte (x : Access) (vaddr : Nat) (value : UInt8) : Kern Ram Unit := do
  let a ← translate x vaddr
  modify fun s => { s with bytes := Function.update s.bytes a value }

/-- An aligned word lies in one page. -/
def load (vaddr : Nat) : Kern Ram Nat := do
  let a ← translate .supervisor vaddr
  pure (word (← get).bytes a)

def store (vaddr value : Nat) : Kern Ram Unit := do
  let a ← translate .supervisor vaddr
  modify fun s => { s with bytes := blit s.bytes a 4 (ofWords fun _ => value) }

def memset (dst : Nat) (value : UInt8) (size : Nat) : Kern Ram Unit := do
  assert (dst ≠ 0)
  forRange size fun k => storeByte .supervisor (dst + k) value

def memcpy (dst src size : Nat) : Kern Ram Unit := do
  assert (dst ≠ 0 ∧ src ≠ 0)
  forRange size fun k => do
    let b ← loadByte (src + k)
    storeByte .supervisor (dst + k) b

def ptePtr (vaddr : Nat) : Nat := 0xffc00000 + vaddr / 2 ^ 22 * 2 ^ 12 + pteIdx vaddr * 4

def pdePtr (vaddr : Nat) : Nat := 0xfffff000 + pdeIdx vaddr * 4

variable (M : Machine)

/-- 7 is PG_US_U | PG_RW_W | PG_P_1. -/
def pageTableAdd (vaddr pagePhyaddr : Nat) : Kern Ram Unit := do
  let pde := pdePtr vaddr
  let pte := ptePtr vaddr
  let d ← load pde
  if d % 2 = 1 then
    let e ← load pte
    assert (e % 2 = 0)
    store pte (pagePhyaddr ||| 7)
  else
    let pdePhyaddr ← onBooks (palloc M .kernel)
    store pde (pdePhyaddr.getD 0 ||| 7)
    memset (pte / pgSize * pgSize) 0 pgSize
    let e ← load pte
    assert (e % 2 = 0)
    store pte (pagePhyaddr ||| 7)

def mapPages (pf : PoolFlags) : Nat → Nat → Kern Ram Bool
  | 0, _ => pure true
  | n + 1, vaddr => do
    match ← onBooks (palloc M pf) with
    | none => pure false
    | some pagePhyaddr =>
      pageTableAdd M vaddr pagePhyaddr
      mapPages pf n (vaddr + pgSize)

def mallocPage (pf : PoolFlags) (pgCnt : Nat) : Kern Ram (Option Nat) := do
  assert (0 < pgCnt ∧ pgCnt < 3840)
  let cur := (← get).cur
  match ← onBooks (vaddrGet M pf cur pgCnt) with
  | none => pure none
  | some vaddrStart =>
    if (← mapPages M pf pgCnt vaddrStart) = true then
      pure (some vaddrStart)
    else
      pure none

def getKernelPages (pgCnt : Nat) : Kern Ram (Option Nat) := do
  let vaddr ← mallocPage M .kernel pgCnt
  match vaddr with
  | none => pure ()
  | some a => memset a 0 (pgCnt * pgSize)
  pure vaddr

def getAPageWithoutOpvaddrbitmap (pf : PoolFlags) (vaddr : Nat) : Kern Ram (Option Nat) := do
  match ← onBooks (palloc M pf) with
  | none => pure none
  | some pagePhyaddr =>
    pageTableAdd M vaddr pagePhyaddr
    pure (some vaddr)

def getAPage (pf : PoolFlags) (vaddr : Nat) : Kern Ram (Option Nat) := do
  let cur := (← get).cur
  let pgdir := (← get).pgdir cur
  match pf with
  | .user =>
    assert (pgdir ≠ 0)
    assert (0 < bitIdx vaddr userVaddrStart)
    onBooks (modify fun s => s.reserve .user cur (bitIdx vaddr userVaddrStart) 1 true)
  | .kernel =>
    assert (pgdir = 0)
    assert (0 < bitIdx vaddr kHeapStart)
    onBooks (modify fun s => s.reserve .kernel cur (bitIdx vaddr kHeapStart) 1 true)
  match ← onBooks (palloc M pf) with
  | none => pure none
  | some pagePhyaddr =>
    pageTableAdd M vaddr pagePhyaddr
    pure (some vaddr)

def addrV2p (vaddr : Nat) : Kern Ram Nat := do
  let e ← load (ptePtr vaddr)
  pure (frameOf e + vaddr % pgSize)

/-- The operand of invlpg is the variable vaddr, so what is dropped is the page of the stack that vaddr is on. -/
def pageTablePteRemove (vaddr : Nat) : Kern Ram Unit := do
  let e ← load (ptePtr vaddr)
  store (ptePtr vaddr) (e / 2 * 2)
  modify fun s => { s with stale := if e % 2 = 1 then (vaddr / pgSize, frameOf e) :: s.stale else s.stale }

def releasePage (vaddr : Nat) (inPool : Nat → Bool) : Kern Ram Unit := do
  let pgPhyAddr ← addrV2p vaddr
  assert (pgPhyAddr % pgSize = 0 ∧ inPool pgPhyAddr = true)
  onBooks (pfree M pgPhyAddr)
  pageTablePteRemove vaddr

def mfreePage (pf : PoolFlags) (vaddr pgCnt : Nat) : Kern Ram Unit := do
  assert (1 ≤ pgCnt ∧ vaddr % pgSize = 0)
  let pgPhyAddr ← addrV2p vaddr
  assert (pgPhyAddr % pgSize = 0 ∧ 0x102000 ≤ pgPhyAddr)
  if M.uStart ≤ pgPhyAddr then
    forRange pgCnt fun k => releasePage M (vaddr + k * pgSize) fun f => M.uStart ≤ f
  else
    forRange pgCnt fun k => releasePage M (vaddr + k * pgSize) fun f => kStart ≤ f ∧ f < M.uStart
  let cur := (← get).cur
  onBooks (vaddrRemove pf cur vaddr pgCnt)

def createPageDir : Kern Ram (Option Nat) := do
  match ← getKernelPages M 1 with
  | none => pure none
  | some pageDirVaddr =>
    memcpy (pageDirVaddr + 0x300 * 4) (0xfffff000 + 0x300 * 4) 1024
    let newPageDirPhyAddr ← addrV2p pageDirVaddr
    store (pageDirVaddr + 1023 * 4) (newPageDirPhyAddr ||| 7)
    pure (some pageDirVaddr)

/-- page_dir_activate for the task schedule has chosen. Writing cr3 empties the TLB. -/
def pageDirActivate (p : Nat) : Kern Ram Unit := do
  let pgdir := (← get).pgdir p
  if pgdir = 0 then
    modify fun s => { s with cr3 := pageDirTablePos, cur := p, stale := [] }
  else
    let pagedirPhyAddr ← addrV2p pgdir
    modify fun s => { s with cr3 := pagedirPhyAddr, cur := p, stale := [] }

end Ram

/-! What the loader does before it turns paging on. -/

def setWord (a w : Nat) : Kern Buf Unit := modify fun m => blit m a 4 (ofWords fun _ => w)

def setupPage : Kern Buf Unit := do
  forRange 4096 fun esi => modify fun m => Function.update m (pageDirTablePos + esi) 0
  let eax := (pageDirTablePos + 0x1000) ||| 7
  setWord (pageDirTablePos + 0x0) eax
  setWord (pageDirTablePos + 0xc00) eax
  setWord (pageDirTablePos + 4092) (eax - 0x1000)
  forRange 256 fun esi => setWord (pageDirTablePos + 0x1000 + esi * 4) (7 + esi * 4096)
  forRange 254 fun k =>
    setWord (pageDirTablePos + (769 + k) * 4) (((pageDirTablePos + 0x2000) ||| 7) + k * 0x1000)

/-- setup_page clears the page directory but none of the page tables. -/
structure RamStart (s : Ram) : Prop where
  loader : ∃ m r, (∀ a, 0x101000 ≤ a → a < kStart → m a = 0) ∧ setupPage m = .ok ((), r) ∧
    ∀ a, pageDirTablePos ≤ a → a < kStart → s.bytes a = r a
  cr3 : s.cr3 = pageDirTablePos
  cur : s.cur = 0
  pgdir : ∀ p, s.pgdir p = 0
  stale : s.stale = []
  kernelPool : ∀ i, s.kernelPool i = false
  userPool : ∀ i, s.userPool i = false
  kernelVaddr : ∀ i, s.kernelVaddr i = false
  userVaddr : ∀ p i, s.userVaddr p i = false
  runs : ∀ h v, s.runs h v = 0

/-! Runs of the kernel with its processes. -/

inductive RamEvent where
  | activate (p : Nat)
  | createPageDir (p : Nat)
  | mallocPage (pf : PoolFlags) (pgCnt : Nat)
  | getAPage (pf : PoolFlags) (vaddr : Nat)
  | getAPageWithoutOpvaddrbitmap (pf : PoolFlags) (vaddr : Nat)
  | mfreePage (pf : PoolFlags) (vaddr pgCnt : Nat)
  | poke (x : Access) (vaddr : Nat) (value : UInt8)

/-- The address space p has its page directory. -/
def Ram.Alive (s : Ram) (p : Nat) : Prop := p = 0 ∨ s.pgdir p ≠ 0

/-- Programs write below 3 GB, the kernel in its half, but not into page directories nor through the window. -/
def Ram.Pokes (s : Ram) (vaddr : Nat) : Prop :=
  (0 < s.cur ∧ vaddr < 0xc0000000) ∨
    (0xc0000000 ≤ vaddr ∧ vaddr < 0xffc00000 ∧ ∀ p, 0 < p → s.pgdir p ≠ vaddr / pgSize * pgSize)

variable (M : Machine)

/-- What callers keep to, as for VM; a page directory is never given back. -/
def RamAllowed (s : Ram) : RamEvent → Prop
  | .activate p => s.Alive p
  | .createPageDir p => 0 < p ∧ s.pgdir p = 0
  | .mallocPage _ _ => True
  | .getAPage pf vaddr => InVaddr M (half s.cur pf) (vaddr / pgSize)
  | .getAPageWithoutOpvaddrbitmap pf vaddr => Reserved M s.books (half s.cur pf) (vaddr / pgSize)
  | .mfreePage pf vaddr pgCnt => 0 < pgCnt ∧ s.runs (half s.cur pf) vaddr = pgCnt ∧
    (pf = .kernel → ∀ p, 0 < p → s.pgdir p ≠ vaddr)
  | .poke _ vaddr _ => s.Pokes vaddr

/-- One call, and whether it was successful. -/
def ramPerform : RamEvent → Kern Ram Bool
  | .activate p => do
    Ram.pageDirActivate p
    pure true
  | .createPageDir p => do
    match ← Ram.createPageDir M with
    | none => pure false
    | some vaddr =>
      modify fun s => { s with pgdir := Function.update s.pgdir p vaddr }
      onBooks (modify fun s => s.setRun none vaddr 1)
      pure true
  | .mallocPage pf pgCnt => do
    let cur := (← get).cur
    match ← Ram.mallocPage M pf pgCnt with
    | none => pure false
    | some vaddr =>
      onBooks (modify fun s => s.setRun (half cur pf) vaddr pgCnt)
      pure true
  | .getAPage pf vaddr => do
    pure (← Ram.getAPage M pf vaddr).isSome
  | .getAPageWithoutOpvaddrbitmap pf vaddr => do
    pure (← Ram.getAPageWithoutOpvaddrbitmap M pf vaddr).isSome
  | .mfreePage pf vaddr pgCnt => do
    let cur := (← get).cur
    Ram.mfreePage M pf vaddr pgCnt
    onBooks (modify fun s => s.setRun (half cur pf) vaddr 0)
    pure true
  | .poke x vaddr value => do
    Ram.storeByte x vaddr value
    pure true

/-- The page table of vaddr is there, or the kernel pool has a frame for it. -/
def Ram.TableLeft (s : Ram) (vaddr : Nat) : Prop :=
  dirEntry s.bytes s.cr3 vaddr % 2 = 1 ∨ M.scanPool s.books .kernel ≠ none

def Ram.TablesLeft (pf : PoolFlags) : Nat → Nat → Ram → Prop
  | 0, _, _ => True
  | n + 1, vaddr, s => ∀ f t, onBooks (palloc M pf) s = .ok (some f, t) →
    t.TableLeft M vaddr ∧ ∀ u, Ram.pageTableAdd M vaddr f t = .ok ((), u) → Ram.TablesLeft pf n (vaddr + pgSize) u

/-- No page table of the call has to be made without a frame for it, and a page directory gets no page for which the
TLB may still hold another frame. -/
def RamTables (s : Ram) : RamEvent → Prop
  | .createPageDir _ => ∀ v t, Ram.mallocPage M .kernel 1 s = .ok (some v, t) →
    ∀ a, pageWalk .supervisor t.bytes t.cr3 v = some a → s.Agrees v a
  | .mallocPage pf pgCnt => ∀ v t, onBooks (vaddrGet M pf s.cur pgCnt) s = .ok (some v, t) →
    Ram.TablesLeft M pf pgCnt v t
  | .getAPage _ vaddr => s.TableLeft M vaddr
  | .getAPageWithoutOpvaddrbitmap _ vaddr => s.TableLeft M vaddr
  | _ => True

def RamStep (s t : Ram) : Prop :=
  ∃ e ok, RamAllowed M s e ∧ RamTables M s e ∧ ramPerform M e s = .ok (ok, t)

end Zhenxiang.Paging
