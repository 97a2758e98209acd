import Zhenxiang.Paging.Spaces
import Zhenxiang.Thread.Pid
import Zhenxiang.Thread.Sched
import Zhenxiang.Thread.Switch
import Zhenxiang.Fs.File

/-! The memory of a forked process: copy_process of fork.c with the pages, the bitmaps and the PCBs that it
works on. -/
namespace Zhenxiang.Userprog
open Lib Kernel Paging
open Fs (maxFileOpen maxFilesOpenPerProc)

/-- A descriptor for blocks of user memory. -/
structure BlockDesc where
  blockSize : Nat
  blocksPerArena : Nat
  freeList : List Nat

/-- struct task_struct as far as fork.c goes into it; a list element is its two links. -/
structure Pcb where
  pid : Int
  status : Thread.TaskStatus
  name : List UInt8
  priority : Nat
  ticks : Nat
  elapsedTicks : Nat
  fdTable : Nat → Int
  generalTag : Nat × Nat
  allListTag : Nat × Nat
  pgdir : Nat
  vaddrStart : Nat
  bits : Nat
  btmpBytesLen : Nat
  uBlockDesc : Nat → BlockDesc
  parentPid : Int

/-- The kernel around a fork: PCBs by address, and the words of the pages that they lie in, next_pid, the
inodes of the open slots and how often each inode is open. -/
structure Forking where
  spaces : Spaces
  pcb : Nat → Pcb
  words : Mem
  nextPid : Int
  fdInode : Nat → Nat
  iOpenCnts : Nat → Nat

def onSpaces {α : Type} (c : Kern Spaces α) : Kern Forking α :=
  zoom Forking.spaces (fun s t => { s with spaces := t }) c

def Forking.setPcb (s : Forking) (task : Nat) (p : Pcb) : Forking := { s with pcb := Function.update s.pcb task p }

/-- Pages of a bitmap that create_user_vaddr_bitmap makes. -/
def bitmapPgCnt : Nat := divRoundUp ((0xc0000000 - userVaddrStart) / pgSize / 8) pgSize

def blockDescInit : Nat → BlockDesc := fun i => ⟨blockSize i, blocksPerArena i, []⟩

def forkPid : Kern Forking Int := do
  modify fun s => { s with nextPid := Thread.toPid (s.nextPid + 1) }
  pure (← get).nextPid

variable (M : Machine)

def copyPcbVaddrbitmapStack0 (child parent : Nat) : Kern Forking Int := do
  modify fun s => { s.setPcb child (s.pcb parent) with
    words := Switch.copyPcb s.words child parent fun o => s.words (parent + o) }
  let pid ← forkPid
  modify fun s => s.setPcb child { s.pcb child with
    pid := pid
    elapsedTicks := 0
    status := .ready
    ticks := (s.pcb child).priority
    parentPid := (s.pcb parent).pid
    generalTag := (0, 0)
    allListTag := (0, 0)
    uBlockDesc := blockDescInit }
  let vaddrBtmp ← onSpaces (kernelPages M bitmapPgCnt)
  onSpaces (Paging.memcpy (vaddrBtmp.getD 0) ((← get).pcb child).bits (bitmapPgCnt * pgSize))
  modify fun s => s.setPcb child { s.pcb child with bits := vaddrBtmp.getD 0 }
  assert (((← get).pcb child).name.length < 11)
  modify fun s => s.setPcb child { s.pcb child with name := (s.pcb child).name ++ "_fork".toUTF8.toList }
  pure 0

/-- What copy_body_stack3 does for a bit that is set. -/
def copyPage (childPgdir parentPgdir progVaddr bufPage : Nat) : Kern Spaces Unit := do
  Paging.memcpy bufPage progVaddr pgSize
  pageDirActivate childPgdir
  let _ ← onPages (getAPageWithoutOpvaddrbitmap M .user (← get).cr3 progVaddr)
  Paging.memcpy progVaddr bufPage pgSize
  pageDirActivate parentPgdir

def copyBodyStack3 (child parent : Pcb) (bufPage : Nat) : Kern Spaces Unit :=
  forRange parent.btmpBytesLen fun idxByte => do
    if (← loadByte (parent.bits + idxByte)) ≠ 0 then
      forRange 8 fun idxBit => do
        if (← loadByte (parent.bits + idxByte)).toNat.testBit idxBit = true then
          copyPage M child.pgdir parent.pgdir ((idxByte * 8 + idxBit) * pgSize + parent.vaddrStart) bufPage

/-- child_thread->pgdir = create_page_dir(). The bitmap of the new address space is the one that the PCB refers
to. -/
def setPgdir (child dir : Nat) : Kern Forking Unit := do
  modify fun s => s.setPcb child { s.pcb child with pgdir := dir }
  modify fun s => { s with spaces := s.spaces.adopt dir (s.pcb child).bits }

/-- copy_process calls update_inode_open_cnts, which does not exist; it is read as update_inode_open_cnt. -/
def updateInodeOpenCnts (thread : Nat) : Kern Forking Unit :=
  forRange (maxFilesOpenPerProc - 3) fun k => do
    let globalFd := ((← get).pcb thread).fdTable (3 + k)
    assert (globalFd < maxFileOpen)
    if globalFd ≠ -1 then
      let inode := (← get).fdInode globalFd.toNat
      modify fun s => { s with iOpenCnts := Function.update s.iOpenCnts inode (Fs.incr (s.iOpenCnts inode)) }

/-- The address of intr_exit is a parameter. -/
def copyProcess (exitAddr child parent : Nat) : Kern Forking Int := do
  match ← onSpaces (kernelPages M 1) with
  | none => pure (-1)
  | some bufPage =>
    if (← copyPcbVaddrbitmapStack0 M child parent) = -1 then
      pure (-1)
    else
      match ← onSpaces (createPageDir M) with
      | none =>
        modify fun s => s.setPcb child { s.pcb child with pgdir := 0 }
        pure (-1)
      | some dir =>
        setPgdir child dir
        let s ← get
        onSpaces (copyBodyStack3 M (s.pcb child) (s.pcb parent) bufPage)
        modify fun s => { s with words := Switch.buildChildStack s.words child exitAddr }
        updateInodeOpenCnts child
        onSpaces (onPages (mfreePage M .kernel (← get).spaces.cr3 bufPage 1))
        pure 0

end Zhenxiang.Userprog
