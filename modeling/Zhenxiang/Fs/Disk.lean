import Zhenxiang.Kernel.Debug
import Zhenxiang.Lib.Bytes

/-! The partition of a file system, what the kernel keeps of it in memory, and the
sector reads, sector writes and bitmaps everything else is made of. A disk is one row
of bytes, 512 to a sector. -/
namespace Zhenxiang.Fs
open Lib Kernel

/-- The macro max_lba of ide.c. -/
def maxLba : Nat := 80 * 1024 * 1024 / 512 - 1

/-- DIV_ROUND_UP in 32-bit arithmetic. -/
def divRoundUp (x step : Nat) : Nat := (x + step - 1) % 2 ^ 32 / step

/-- A partition as ide_init finds it. When the ASSERT in bitmap_scan is not compiled in,
a full bitmap is reported as -1. -/
structure Partition where
  startLba : Nat
  secCnt : Nat
  scanAsserts : Bool

/-! The super block partition_format computes. -/
namespace Partition
variable (P : Partition)

/-- sizeof(struct inode): nineteen 32-bit members. -/
def inodeSize : Nat := 76
def inodeBitmapSects : Nat := 1
def inodeTableSects : Nat := 608
def usedSects : Nat := 1 + 1 + inodeBitmapSects + inodeTableSects
def freeSects : Nat := (P.secCnt + 2 ^ 32 - usedSects) % 2 ^ 32
def blockBitmapBitLen : Nat := P.freeSects - divRoundUp P.freeSects 4096
def blockBitmapSects : Nat := divRoundUp P.blockBitmapBitLen 4096
def blockBitmapLba : Nat := P.startLba + 2
def inodeBitmapLba : Nat := P.blockBitmapLba + P.blockBitmapSects
def inodeTableLba : Nat := P.inodeBitmapLba + inodeBitmapSects
def dataStartLba : Nat := P.inodeTableLba + inodeTableSects

/-- MAX_FILES_PER_PART inodes, by the sector. -/
example : inodeBitmapSects = divRoundUp 4096 4096 ∧
    inodeTableSects = divRoundUp (inodeSize * 4096) 512 := by decide

/-- The partition lies on the disk, behind the boot sector, with room for the metadata and
a root directory. -/
structure Fits : Prop where
  boot : 1 ≤ P.startLba
  room : 613 ≤ P.secCnt
  inside : P.startLba + P.secCnt ≤ maxLba + 1

end Partition

/-- struct inode; i_sectors has 13 entries, and the open_inodes list stands in for inode_tag. -/
structure Inode where
  iNo : Nat
  iSize : Nat
  iOpenCnts : Nat
  writeDeny : Bool
  iSectors : Nat → Nat

structure File where
  fdPos : Nat
  fdFlag : Nat
  fdInode : Option Nat

/-- The mounted partition, the tables of fs.c, and what the tasks and the heap add to them.
A heap block is named by a number that is never used again; a struct inode and a struct dir
are named by their blocks. The block's owner is the pgdir under which it was allocated, and
none stands for NULL, the kernel's heap. handles lists the struct dirs sys_opendir has given
out, and the oracle says which calls of sys_malloc succeed and what an uninitialised
variable holds. -/
structure FileSys where
  disk : Buf
  blockBitmap : Nat → Bool
  inodeBitmap : Nat → Bool
  inode : Nat → Inode
  openInodes : List Nat
  rootInode : Nat
  dirInode : Nat → Nat
  fileTable : Nat → File
  fdTable : Nat → Nat → Int
  cwdInodeNr : Nat → Nat
  pgdir : Nat → Option Nat
  current : Nat
  nextBlock : Nat
  live : List Nat
  owner : Nat → Option Nat
  handles : List Nat
  oracle : Nat → Nat

abbrev Sys (α : Type) := Kern FileSys α

def ask : Sys Nat := do
  let s ← get
  set { s with oracle := fun k => s.oracle (k + 1) }
  pure (s.oracle 0)

/-- A block of zeros from the heap of the running task, or NULL. No more than 2^28 of the
smallest blocks fit into a 32-bit address space. -/
def sysMalloc : Sys (Option Nat) := do
  let answer ← ask
  let s ← get
  if answer = 0 ∨ 2 ^ 28 ≤ s.live.length then
    pure none
  else
    set { s with
      nextBlock := s.nextBlock + 1
      live := s.nextBlock :: s.live
      owner := Function.update s.owner s.nextBlock (s.pgdir s.current) }
    pure (some s.nextBlock)

/-- The block is nobody's any more. -/
def FileSys.free (s : FileSys) (p : Nat) : FileSys := { s with live := s.live.erase p }

/-- A kernel thread asserts that the block is not below the kernel's heap; a process that
frees a block of another heap corrupts it. -/
def sysFree (ptr : Option Nat) : Sys Unit := do
  match ptr with
  | none => throw .assertion
  | some p =>
    let s ← get
    check (p ∈ s.live) .undefined
    if s.pgdir s.current = none then
      check (s.owner p = none) .heapAssertion
    else
      check (s.owner p = s.pgdir s.current) .undefined
    set (s.free p)

/-- cur->pgdir = pgdir. -/
def setPgdir (pgdir : Option Nat) : Sys Unit :=
  modify fun s => { s with pgdir := Function.update s.pgdir s.current pgdir }

def ideRead (lba secCnt : Nat) : Sys Buf := do
  assert (lba ≤ maxLba)
  assert (0 < secCnt)
  let s ← get
  pure fun k => if k < 512 * secCnt then s.disk (512 * lba + k) else 0

def ideWrite (lba : Nat) (buf : Buf) (secCnt : Nat) : Sys Unit := do
  assert (lba ≤ maxLba)
  assert (0 < secCnt)
  modify fun s => { s with disk := blit s.disk (512 * lba) (512 * secCnt) buf }

/-! Bitmaps. -/

/-- bitmap_scan for one bit among n bytes: the first byte that is not 0xff, and the first
clear bit in it. -/
def bitmapScan (asserts : Bool) (bits : Nat → Bool) (n : Nat) : Sys (Option Nat) := do
  match (List.range n).find? fun i => (List.range 8).any fun j => !bits (8 * i + j) with
  | none =>
    assert (asserts = false)
    pure none
  | some idxByte =>
    pure (((List.range 8).find? fun j => !bits (8 * idxByte + j)).map (8 * idxByte + ·))

/-- bitmap_set in a bitmap of n bytes. -/
def bitmapSet (bits : Nat → Bool) (n bitIdx : Nat) (value : Bool) : Sys (Nat → Bool) := do
  check (bitIdx < 8 * n) .undefined
  pure (Function.update bits bitIdx value)

/-- The byte k of a bitmap. -/
def bitmapByte (bits : Nat → Bool) (k : Nat) : UInt8 :=
  UInt8.ofNat ((List.range 8).foldl (fun acc j => acc + if bits (8 * k + j) then 2 ^ j else 0) 0)

inductive BitmapType where
  | inodeBitmap
  | blockBitmap
  deriving DecidableEq

variable (P : Partition)

def bitmapSync (bitIdx : Nat) (btmp : BitmapType) : Sys Unit := do
  let offSec := bitIdx / 4096
  let s ← get
  match btmp with
  | .inodeBitmap =>
    ideWrite (P.inodeBitmapLba + offSec) (fun k => bitmapByte s.inodeBitmap (512 * offSec + k)) 1
  | .blockBitmap =>
    ideWrite (P.blockBitmapLba + offSec) (fun k => bitmapByte s.blockBitmap (512 * offSec + k)) 1

def inodeBitmapAlloc : Sys (Option Nat) := do
  let n := 512 * Partition.inodeBitmapSects
  match ← bitmapScan P.scanAsserts (← get).inodeBitmap n with
  | none => pure none
  | some bitIdx =>
    let bits ← bitmapSet (← get).inodeBitmap n bitIdx true
    modify fun s => { s with inodeBitmap := bits }
    pure (some bitIdx)

def blockBitmapAlloc : Sys (Option Nat) := do
  let n := 512 * P.blockBitmapSects
  match ← bitmapScan P.scanAsserts (← get).blockBitmap n with
  | none => pure none
  | some bitIdx =>
    let bits ← bitmapSet (← get).blockBitmap n bitIdx true
    modify fun s => { s with blockBitmap := bits }
    pure (some (P.dataStartLba + bitIdx))

/-- The bit of a block, in 32-bit arithmetic. -/
def blockBitmapIdx (lba : Nat) : Nat := (lba + 2 ^ 32 - P.dataStartLba) % 2 ^ 32

/-- bitmap_set and bitmap_sync of the bit of a block that is given back. -/
def blockBitmapFree (lba : Nat) : Sys Unit := do
  let bits ← bitmapSet (← get).blockBitmap (512 * P.blockBitmapSects) (blockBitmapIdx P lba) false
  modify fun s => { s with blockBitmap := bits }
  bitmapSync P (blockBitmapIdx P lba) .blockBitmap

end Zhenxiang.Fs
