import Zhenxiang.Fs.Disk

/-! The inodes of inode.c: their slots in the table on disk, and the open ones in memory. -/
namespace Zhenxiang.Fs
open Lib Kernel

namespace FileSys

def setInode (s : FileSys) (o : Nat) (i : Inode) : FileSys :=
  { s with inode := Function.update s.inode o i }

/-- list_push to open_inodes. -/
def pushInode (s : FileSys) (o : Nat) : FileSys := { s with openInodes := o :: s.openInodes }

/-- list_remove from open_inodes. -/
def removeInode (s : FileSys) (o : Nat) : FileSys := { s with openInodes := s.openInodes.erase o }

@[simp] theorem setInode_self (s : FileSys) (o : Nat) (i : Inode) : (s.setInode o i).inode o = i :=
  Function.update_self ..

theorem setInode_of_ne (s : FileSys) {o p : Nat} (i : Inode) (h : p ≠ o) :
    (s.setInode o i).inode p = s.inode p := Function.update_of_ne h ..

end FileSys

/-- Changing the inode at a pointer. -/
def modifyInode (o : Nat) (f : Inode → Inode) : Sys Unit :=
  modify fun s => s.setInode o (f (s.inode o))

def Inode.setSector (i : Inode) (idx lba : Nat) : Inode :=
  { i with iSectors := Function.update i.iSectors idx lba }

/-- The bytes of a struct inode: i_no, i_size, i_open_cnts, write_deny, i_sectors, and the
two pointers of inode_tag. -/
def encodeInode (i : Inode) : Buf := ofWords fun k =>
  if k = 0 then i.iNo
  else if k = 1 then i.iSize
  else if k = 2 then i.iOpenCnts
  else if k = 3 then i.writeDeny.toNat
  else if k < 17 then i.iSectors (k - 4)
  else 0

def decodeInode (b : Buf) (o : Nat) : Inode where
  iNo := word b o
  iSize := word b (o + 4)
  iOpenCnts := word b (o + 8)
  writeDeny := word b (o + 12) != 0
  iSectors k := if k < 13 then word b (o + 16 + 4 * k) else 0

theorem decodeInode_congr {b c : Buf} {o p : Nat}
    (h : ∀ k < Partition.inodeSize, b (o + k) = c (p + k)) : decodeInode b o = decodeInode c p := by
  have words : ∀ w, w + 4 ≤ Partition.inodeSize → word b (o + w) = word c (p + w) := by
    intro w hw
    apply word_congr
    intro k hk
    have hwk := h (w + k) (by omega)
    rwa [← Nat.add_assoc, ← Nat.add_assoc] at hwk
  unfold Partition.inodeSize at words
  have sectors : ∀ k < 13, word b (o + 16 + 4 * k) = word c (p + 16 + 4 * k) := by
    intro k hk
    have hw := words (16 + 4 * k) (by omega)
    rwa [← Nat.add_assoc, ← Nat.add_assoc] at hw
  have first : word b o = word c p := words 0 (by omega)
  simp only [decodeInode, Inode.mk.injEq, first, words 4 (by omega), words 8 (by omega),
    words 12 (by omega), true_and]
  funext k
  split
  · exact sectors k ‹_›
  · rfl

/-- i_open_cnts is 32 bits wide. -/
def incr (cnts : Nat) : Nat := (cnts + 1) % 2 ^ 32
def decr (cnts : Nat) : Nat := (cnts + 2 ^ 32 - 1) % 2 ^ 32

variable (P : Partition)

structure InodePosition where
  twoSec : Bool
  secLba : Nat
  offSize : Nat

def inodeLocate (inodeNo : Nat) : Sys InodePosition := do
  assert (inodeNo < 4096)
  let offSize := inodeNo * Partition.inodeSize
  let offSizeInSec := offSize % 512
  pure {
    twoSec := 512 - offSizeInSec < Partition.inodeSize
    secLba := P.inodeTableLba + offSize / 512
    offSize := offSizeInSec }

/-- The inode in a slot of the table on disk. -/
def slotAt (disk : Buf) (inodeNo : Nat) : Inode :=
  decodeInode disk (512 * P.inodeTableLba + Partition.inodeSize * inodeNo)

/-- Replacing one slot of the inode table: the sector or the two sectors that hold it are
read into the caller's buffer, patched and written back. A buffer of bufSize bytes that is too
short for them is overrun. -/
def writeSlot (pos : InodePosition) (slot : Buf) (bufSize : Nat) : Sys Unit := do
  assert (pos.secLba ≤ P.startLba + P.secCnt)
  let secCnt := if pos.twoSec then 2 else 1
  check (512 * secCnt ≤ bufSize) .undefined
  let inodeBuf ← ideRead pos.secLba secCnt
  ideWrite pos.secLba (blit inodeBuf pos.offSize Partition.inodeSize slot) secCnt

/-- inode_no is a uint8_t here, and bufSize is the size of io_buf. -/
def inodeSync (inode : Inode) (bufSize : Nat) : Sys Unit := do
  let inodeNo := inode.iNo % 256
  let pos ← inodeLocate P inodeNo
  writeSlot P pos (encodeInode { inode with iOpenCnts := 0, writeDeny := false }) bufSize

/-- sys_malloc with cur->pgdir set to NULL meanwhile, so that the block is the kernel's. -/
def kernelMalloc : Sys (Option Nat) := do
  let s ← get
  setPgdir none
  let ptr ← sysMalloc
  setPgdir (s.pgdir s.current)
  pure ptr

def kernelFree (ptr : Option Nat) : Sys Unit := do
  let s ← get
  setPgdir none
  sysFree ptr
  setPgdir (s.pgdir s.current)

def inodeOpen (inodeNo : Nat) : Sys Nat := do
  let s ← get
  match s.openInodes.find? fun o => (s.inode o).iNo = inodeNo with
  | some inodeFound =>
    modifyInode inodeFound fun i => { i with iOpenCnts := incr i.iOpenCnts }
    pure inodeFound
  | none =>
    let pos ← inodeLocate P inodeNo
    let inodeFound ← kernelMalloc
    let inodeBuf ← sysMalloc
    check (inodeBuf.isSome = true) .undefined
    let buf ← ideRead pos.secLba (if pos.twoSec then 2 else 1)
    match inodeFound with
    | none => throw .assertion
    | some inodeFound =>
      modifyInode inodeFound fun _ => { decodeInode buf pos.offSize with iOpenCnts := 1 }
      modify fun s => s.pushInode inodeFound
      sysFree inodeBuf
      pure inodeFound

/-- Closing an inode that is not open any more is not defined. -/
def inodeClose (inode : Nat) : Sys Unit := do
  check (inode ∈ (← get).openInodes) .undefined
  modifyInode inode fun i => { i with iOpenCnts := decr i.iOpenCnts }
  if ((← get).inode inode).iOpenCnts = 0 then
    modify fun s => s.removeInode inode
    kernelFree (some inode)

def inodeDelete (inodeNo bufSize : Nat) : Sys Unit := do
  let pos ← inodeLocate P inodeNo
  writeSlot P pos (fun _ => 0) bufSize

/-- The words of an indirect block table. -/
def readTable (lba : Nat) : Sys (Nat → Nat) := do
  let buf ← ideRead lba 1
  pure fun k => word buf (4 * k)

/-- The block addresses of an inode: 12 of its own, 128 from its table when it has one. -/
def collectBlocks (inode : Inode) : Sys (Nat → Nat) := do
  if inode.iSectors 12 ≠ 0 then
    let table ← readTable (inode.iSectors 12)
    pure fun k => if k < 12 then inode.iSectors k else table (k - 12)
  else
    pure fun k => if k < 12 then inode.iSectors k else 0

/-- First part of inode_release: the bits of the inode's blocks. -/
def releaseBlocks (inode : Inode) : Sys Unit := do
  let allBlocks ← collectBlocks inode
  if inode.iSectors 12 ≠ 0 then
    assert (0 < blockBitmapIdx P (inode.iSectors 12))
    blockBitmapFree P (inode.iSectors 12)
  let blockCnt := if inode.iSectors 12 ≠ 0 then 140 else 12
  forRange blockCnt fun blockIdx => do
    if allBlocks blockIdx ≠ 0 then
      assert (0 < blockBitmapIdx P (allBlocks blockIdx))
      blockBitmapFree P (allBlocks blockIdx)

/-- Second part: the bit of its number and its slot in the table. -/
def releaseNumber (inodeNo : Nat) : Sys Unit := do
  let bits ← bitmapSet (← get).inodeBitmap (512 * Partition.inodeBitmapSects) inodeNo false
  modify fun s => { s with inodeBitmap := bits }
  bitmapSync P inodeNo .inodeBitmap
  let ioBuf ← sysMalloc
  check (ioBuf.isSome = true) .undefined
  inodeDelete P inodeNo 1024
  sysFree ioBuf

def inodeRelease (inodeNo : Nat) : Sys Unit := do
  let inodeToDel ← inodeOpen P inodeNo
  let inode := (← get).inode inodeToDel
  assert (inode.iNo = inodeNo)
  releaseBlocks P inode
  releaseNumber P inodeNo
  inodeClose inodeToDel

def inodeInit (inodeNo : Nat) : Inode where
  iNo := inodeNo
  iSize := 0
  iOpenCnts := 0
  writeDeny := false
  iSectors _ := 0

end Zhenxiang.Fs
