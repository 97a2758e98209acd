import Zhenxiang.Paging.Exhaustion

/-! Memory seen through the page tables: the contents of the frames, the address space that is active, and
the functions of memory.c, process.c and string.c that the kernel copies pages with. -/
namespace Zhenxiang.Paging
open Lib Kernel

/-- The register cr3 names an address space by the virtual address of its page directory, as a PCB does; 0
is the kernel's own. ram holds bytes by physical address; what is in page tables and page directories is
kept in vm. -/
structure Spaces where
  vm : VM
  cr3 : Nat
  ram : Nat → UInt8

namespace Spaces

/-- The address translation of the processor. -/
def phys (s : Spaces) (vaddr : Nat) : Option Nat :=
  let d := s.vm.pde s.cr3 (pdeIdx vaddr)
  let e := s.vm.pte d.addr (pteIdx vaddr)
  if d.present = true ∧ e.present = true then some (e.addr + vaddr % pgSize) else none

/-- The zeroed page at dir with the kernel's half of the active page directory copied into it. -/
def newDir (s : Spaces) (dir : Nat) : Spaces :=
  { s with vm := { s.vm with
      pde := Function.update s.vm.pde dir fun i => if 768 ≤ i then s.vm.pde s.cr3 i else ⟨0, false⟩ } }

/-- The bits in the bytes from an address on. -/
def bitmapAt (s : Spaces) (bits : Nat) : Nat → Bool := fun i =>
  match s.phys (bits + i / 8) with
  | none => false
  | some a => (s.ram a).toNat.testBit (i % 8)

/-- The bitmap of the address space p is from now on the one at bits. -/
def adopt (s : Spaces) (p bits : Nat) : Spaces :=
  { s with vm := { s.vm with userVaddr := Function.update s.vm.userVaddr p (s.bitmapAt bits) } }

end Spaces

def onPages {α : Type} (c : Kern VM α) : Kern Spaces α := zoom Spaces.vm (fun s vm => { s with vm := vm }) c

/-- A page that is not mapped faults. -/
def loadByte (vaddr : Nat) : Kern Spaces UInt8 := do
  match (← get).phys vaddr with
  | none => throw .undefined
  | some a => pure ((← get).ram a)

def storeByte (vaddr : Nat) (value : UInt8) : Kern Spaces Unit := do
  match (← get).phys vaddr with
  | none => throw .undefined
  | some a => modify fun s => { s with ram := Function.update s.ram a value }

def memset (dst : Nat) (value : UInt8) (size : Nat) : Kern Spaces Unit := do
  assert (dst ≠ 0)
  forRange size fun k => storeByte (dst + k) value

def memcpy (dst src size : Nat) : Kern Spaces Unit := do
  assert (dst ≠ 0 ∧ src ≠ 0)
  forRange size fun k => do
    let b ← loadByte (src + k)
    storeByte (dst + k) b

/-- page_dir_activate of a task with this pgdir. -/
def pageDirActivate (pgdir : Nat) : Kern Spaces Unit := do
  if pgdir ≠ 0 then
    let _ ← onPages (addrV2p (← get).cr3 pgdir)
  modify fun s => { s with cr3 := pgdir }

variable (M : Machine)

/-- get_kernel_pages with interrupts off, where no one holds the lock of the pool. -/
def kernelPages (pgCnt : Nat) : Kern Spaces (Option Nat) := do
  let vaddr ← onPages (mallocPage M .kernel (← get).cr3 pgCnt)
  match vaddr with
  | none => pure ()
  | some a => memset a 0 (pgCnt * pgSize)
  pure vaddr

def createPageDir : Kern Spaces (Option Nat) := do
  match ← kernelPages M 1 with
  | none => pure none
  | some pageDirVaddr =>
    modify fun s => s.newDir pageDirVaddr
    let newPageDirPhyAddr ← onPages (addrV2p (← get).cr3 pageDirVaddr)
    modify fun s => { s with vm := s.vm.setPde pageDirVaddr 1023 ⟨newPageDirPhyAddr, true⟩ }
    pure (some pageDirVaddr)

end Zhenxiang.Paging
