import Zhenxiang.Fs.Dir

/-! The open files of file.c. -/
namespace Zhenxiang.Fs
open Lib Kernel

/-- oflags. -/
def oWronly : Nat := 1
def oRdwr : Nat := 2
def oCreat : Nat := 4

def maxFileOpen : Nat := 32
def maxFilesOpenPerProc : Nat := 8

/-- flag & bit. -/
def hasFlag (flags bit : Nat) : Bool := flags / bit % 2 == 1

/-- flag & O_WRONLY || flag & O_RDWR. -/
def canWrite (flags : Nat) : Bool := hasFlag flags oWronly || hasFlag flags oRdwr

def FileSys.setSlot (s : FileSys) (fd : Nat) (f : File) : FileSys :=
  { s with fileTable := Function.update s.fileTable fd f }

@[simp] theorem FileSys.setSlot_self (s : FileSys) (fd : Nat) (f : File) :
    (s.setSlot fd f).fileTable fd = f := Function.update_self ..

theorem FileSys.setSlot_of_ne (s : FileSys) {fd k : Nat} (f : File) (h : k ≠ fd) :
    (s.setSlot fd f).fileTable k = s.fileTable k := Function.update_of_ne h ..

theorem FileSys.setSlot_same (s : FileSys) (fd : Nat) : s.setSlot fd (s.fileTable fd) = s := by
  rw [setSlot, Function.update_eq_self]

theorem FileSys.setSlot_setSlot (s : FileSys) (fd : Nat) (f g : File) :
    (s.setSlot fd f).setSlot fd g = s.setSlot fd g := by
  simp only [setSlot, Function.update_idem]

@[simp] theorem FileSys.setSlot_fdTable (s : FileSys) (fd : Nat) (f : File) :
    (s.setSlot fd f).fdTable = s.fdTable := rfl

def setFile (fd : Nat) (f : File) : Sys Unit := modify fun s => s.setSlot fd f

/-- The inode of a slot; a slot that is not in use, or whose inode is gone, faults. -/
def fdInode (f : File) : Sys Nat := do
  match f.fdInode with
  | none => throw .undefined
  | some inode =>
    check (inode ∈ (← get).openInodes) .undefined
    pure inode

def getFreeSlotInGlobal : Sys (Option Nat) := do
  let s ← get
  pure ((List.range' 3 (maxFileOpen - 3)).find? fun fdIdx => (s.fileTable fdIdx).fdInode.isNone)

/-- An entry of the running task's fd_table. -/
def FileSys.setFd (s : FileSys) (localFd : Nat) (globalFd : Int) : FileSys :=
  let table := Function.update (s.fdTable s.current) localFd globalFd
  { s with fdTable := Function.update s.fdTable s.current table }

/-- The slot goes into the fd_table of the running task; -1 when that is full. -/
def pcbFdInstall (globalFdIdx : Nat) : Sys Int := do
  let s ← get
  let cur := s.fdTable s.current
  match (List.range' 3 (maxFilesOpenPerProc - 3)).find? fun i => cur i = -1 with
  | none => pure (-1)
  | some localFdIdx =>
    set (s.setFd localFdIdx globalFdIdx)
    pure localFdIdx

variable (P : Partition)

/-- bitmap_set of an inode number that is given back. -/
def inodeBitmapClear (inodeNo : Nat) : Sys Unit := do
  let bits ← bitmapSet (← get).inodeBitmap (512 * Partition.inodeBitmapSects) inodeNo false
  modify fun s => { s with inodeBitmap := bits }

/-- The entry and the inodes of a new file; false when the entry finds no place. -/
def createOnDisk (parentDir : Dir) (filename : CStr) (inodeNo newFileInode : Nat) : Sys Bool := do
  let newDirEntry ← createDirEntry filename inodeNo ftRegular
  if (← syncDirEntry P parentDir newDirEntry) = true then
    let s ← get
    inodeSync P (s.inode (s.inodeOf parentDir)) 1024
    inodeSync P (s.inode newFileInode) 1024
    bitmapSync P inodeNo .inodeBitmap
    pure true
  else
    pure false

/-- The second half of file_create, with io_buf and the new inode in hand. -/
def installNew (parentDir : Dir) (filename : CStr) (flag inodeNo newFileInode ioBuf : Nat) : Sys Int := do
  match ← getFreeSlotInGlobal with
  | none =>
    sysFree (some newFileInode)
    inodeBitmapClear inodeNo
    sysFree (some ioBuf)
    pure (-1)
  | some fdIdx =>
    setFile fdIdx ⟨0, flag, some newFileInode⟩
    if (← createOnDisk P parentDir filename inodeNo newFileInode) = true then
      modify fun s => s.pushInode newFileInode
      modifyInode newFileInode fun i => { i with iOpenCnts := 1 }
      sysFree (some ioBuf)
      pcbFdInstall fdIdx
    else
      setFile fdIdx ⟨0, 0, none⟩
      sysFree (some newFileInode)
      inodeBitmapClear inodeNo
      sysFree (some ioBuf)
      pure (-1)

/-- The new inode is allocated from the heap of the running task. -/
def fileCreate (parentDir : Dir) (filename : CStr) (flag : Nat) : Sys Int := do
  match ← sysMalloc with
  | none => pure (-1)
  | some ioBuf =>
    match ← inodeBitmapAlloc P with
    | none => pure (-1)
    | some inodeNo =>
      match ← sysMalloc with
      | none =>
        inodeBitmapClear inodeNo
        sysFree (some ioBuf)
        pure (-1)
      | some newFileInode =>
        modify fun s => s.setInode newFileInode (inodeInit inodeNo)
        installNew P parentDir filename flag inodeNo newFileInode ioBuf

/-- When the file may not be written now, the slot stays as it is. -/
def fileOpen (inodeNo flag : Nat) : Sys Int := do
  match ← getFreeSlotInGlobal with
  | none => pure (-1)
  | some fdIdx =>
    let inode ← inodeOpen P inodeNo
    setFile fdIdx ⟨0, flag, some inode⟩
    if canWrite flag = true then
      if ((← get).inode inode).writeDeny = false then
        modifyInode inode fun i => { i with writeDeny := true }
        pcbFdInstall fdIdx
      else
        pure (-1)
    else
      pcbFdInstall fdIdx

def fileClose (fd : Nat) : Sys Int := do
  let file := (← get).fileTable fd
  let inode ← fdInode file
  modifyInode inode fun i => { i with writeDeny := false }
  inodeClose inode
  setFile fd { file with fdInode := none }
  pure 0

/-! file_write. The local array all_blocks is passed along as it is filled. -/

/-- First case: n more direct blocks from blockIdx on. -/
def addDirect (inode : Nat) : Nat → Nat → (Nat → Nat) → Sys (Option (Nat → Nat))
  | 0, _, allBlocks => pure (some allBlocks)
  | n + 1, blockIdx, allBlocks => do
    match ← blockBitmapAlloc P with
    | none => pure none
    | some blockLba =>
      assert (((← get).inode inode).iSectors blockIdx = 0)
      modifyInode inode fun i => i.setSector blockIdx blockLba
      bitmapSync P (blockBitmapIdx P blockLba) .blockBitmap
      addDirect inode n (blockIdx + 1) (Function.update allBlocks blockIdx blockLba)

/-- Second case: the address of a block behind the direct ones is not recorded. -/
def addCrossing (inode : Nat) : Nat → Nat → (Nat → Nat) → Sys (Option (Nat → Nat))
  | 0, _, allBlocks => pure (some allBlocks)
  | n + 1, blockIdx, allBlocks => do
    match ← blockBitmapAlloc P with
    | none => pure none
    | some blockLba =>
      if blockIdx < 12 then
        assert (((← get).inode inode).iSectors blockIdx = 0)
        modifyInode inode fun i => i.setSector blockIdx blockLba
        bitmapSync P (blockBitmapIdx P blockLba) .blockBitmap
        addCrossing inode n (blockIdx + 1) (Function.update allBlocks blockIdx blockLba)
      else
        bitmapSync P (blockBitmapIdx P blockLba) .blockBitmap
        addCrossing inode n (blockIdx + 1) allBlocks

/-- Third case: n more indirect blocks. -/
def addIndirect : Nat → Nat → (Nat → Nat) → Sys (Option (Nat → Nat))
  | 0, _, allBlocks => pure (some allBlocks)
  | n + 1, blockIdx, allBlocks => do
    match ← blockBitmapAlloc P with
    | none => pure none
    | some blockLba =>
      bitmapSync P (blockBitmapIdx P blockLba) .blockBitmap
      addIndirect n (blockIdx + 1) (Function.update allBlocks blockIdx blockLba)

/-- all_blocks with nothing but the address of one block. -/
def oneBlock (blockIdx lba : Nat) : Nat → Nat := fun k => if k = blockIdx then lba else 0

/-- all_blocks with the table behind what it holds of the direct blocks. -/
def withTable (allBlocks table : Nat → Nat) : Nat → Nat :=
  fun k => if k < 12 then allBlocks k else table (k - 12)

/-- The block addresses for writing count bytes at the end of the file, with blocks
allocated as needed; none when the disk is full. -/
def blocksForWrite (inode count : Nat) : Sys (Option (Nat → Nat)) := do
  let i := (← get).inode inode
  let hasUsed := i.iSize / 512 + 1
  let willUse := (i.iSize + count) % 2 ^ 32 / 512 + 1
  assert (willUse ≤ 140)
  if willUse = hasUsed then
    if willUse ≤ 12 then
      pure (some (oneBlock (hasUsed - 1) (i.iSectors (hasUsed - 1))))
    else
      assert (i.iSectors 12 ≠ 0)
      let table ← readTable (i.iSectors 12)
      pure (some (withTable (fun _ => 0) table))
  else if willUse ≤ 12 then
    check (hasUsed ≤ 13) .undefined
    assert (i.iSectors (hasUsed - 1) ≠ 0)
    addDirect P inode (willUse - hasUsed) hasUsed (oneBlock (hasUsed - 1) (i.iSectors (hasUsed - 1)))
  else if hasUsed ≤ 12 then
    match ← blockBitmapAlloc P with
    | none => pure none
    | some indirectBlockTable =>
      assert (i.iSectors 12 = 0)
      modifyInode inode fun i => i.setSector 12 indirectBlockTable
      match ← addCrossing P inode (willUse - hasUsed) hasUsed
          (oneBlock (hasUsed - 1) (i.iSectors (hasUsed - 1))) with
      | none => pure none
      | some allBlocks =>
        ideWrite indirectBlockTable (tableBytes allBlocks) 1
        pure (some allBlocks)
  else
    assert (i.iSectors 12 ≠ 0)
    let table ← readTable (i.iSectors 12)
    match ← addIndirect P (willUse - hasUsed) hasUsed (withTable (fun _ => 0) table) with
    | none => pure none
    | some allBlocks =>
      ideWrite (i.iSectors 12) (tableBytes allBlocks) 1
      pure (some allBlocks)

/-- The data loop of file_write. Every round writes at least one of the sizeLeft bytes, so
that many rounds are enough. -/
def writeLoop (inode : Nat) (allBlocks : Nat → Nat) : Nat → Bool → Buf → Nat → Sys Unit
  | _, _, _, 0 => pure ()
  | 0, _, _, _ => throw .diverges
  | rounds + 1, firstWriteBlock, src, sizeLeft => do
    let iSize := ((← get).inode inode).iSize
    let secIdx := iSize / 512
    check (secIdx < 140) .undefined
    let secLba := allBlocks secIdx
    let secOffBytes := iSize % 512
    let chunkSize := min sizeLeft (512 - secOffBytes)
    let ioBuf ← if firstWriteBlock then ideRead secLba 1 else pure fun _ => 0
    ideWrite secLba (blit ioBuf secOffBytes chunkSize src) 1
    modifyInode inode fun i => { i with iSize := i.iSize + chunkSize }
    writeLoop inode allBlocks rounds false (slice src chunkSize) (sizeLeft - chunkSize)

/-- The block of a first write; false when the disk is full. -/
def firstBlock (inode : Nat) : Sys Bool := do
  if ((← get).inode inode).iSectors 0 = 0 then
    match ← blockBitmapAlloc P with
    | none => pure false
    | some blockLba =>
      modifyInode inode fun i => i.setSector 0 blockLba
      assert (blockBitmapIdx P blockLba ≠ 0)
      bitmapSync P (blockBitmapIdx P blockLba) .blockBitmap
      pure true
  else
    pure true

/-- The buffers are given back on the way out at the end only. -/
def fileWrite (fd : Nat) (buf : Buf) (count : Nat) : Sys Int := do
  let file := (← get).fileTable fd
  let inode ← fdInode file
  if 512 * 140 < (((← get).inode inode).iSize + count) % 2 ^ 32 then
    pure (-1)
  else
    match ← sysMalloc with
    | none => pure (-1)
    | some ioBuf =>
      match ← sysMalloc with
      | none => pure (-1)
      | some blocks =>
        if (← firstBlock P inode) = false then
          pure (-1)
        else
          match ← blocksForWrite P inode count with
          | none => pure (-1)
          | some allBlocks =>
            setFile fd { file with fdPos := (((← get).inode inode).iSize + 2 ^ 32 - 1) % 2 ^ 32 }
            writeLoop inode allBlocks count true buf count
            inodeSync P ((← get).inode inode) 512
            sysFree (some blocks)
            sysFree (some ioBuf)
            pure count

/-! file_read. -/

/-- all_blocks for reading the blocks from first to last. -/
def blocksForRead (inode : Inode) (first last : Nat) : Sys (Nat → Nat) := do
  let direct : Nat → Nat := fun k => if first ≤ k ∧ k ≤ last ∧ k < 12 then inode.iSectors k else 0
  if last < 12 then
    pure direct
  else if first = last then
    pure (withTable direct (← readTable (inode.iSectors 12)))
  else
    assert (inode.iSectors 12 ≠ 0)
    pure (withTable direct (← readTable (inode.iSectors 12)))

/-- The bytes of the buffer that the data loop of file_read fills. -/
def readLoop (fd : Nat) (allBlocks : Nat → Nat) : Nat → Nat → Sys (List UInt8)
  | _, 0 => pure []
  | 0, _ => throw .diverges
  | rounds + 1, sizeLeft => do
    let file := (← get).fileTable fd
    let secIdx := file.fdPos / 512
    check (secIdx < 140) .undefined
    let secOffBytes := file.fdPos % 512
    let chunkSize := min sizeLeft (512 - secOffBytes)
    let ioBuf ← ideRead (allBlocks secIdx) 1
    setFile fd { file with fdPos := file.fdPos + chunkSize }
    let rest ← readLoop fd allBlocks rounds (sizeLeft - chunkSize)
    pure ((List.range chunkSize).map (fun k => ioBuf (secOffBytes + k)) ++ rest)

/-- How many bytes there are to read, in 32-bit arithmetic. -/
def sizeToRead (fdPos iSize count : Nat) : Nat :=
  if iSize < (fdPos + count) % 2 ^ 32 then (iSize + 2 ^ 32 - fdPos) % 2 ^ 32 else count

/-- The result and the bytes read. Without memory for the sector buffer the function goes
on, up to the ASSERT of memset or sys_free. -/
def fileRead (fd count : Nat) : Sys (Int × List UInt8) := do
  let file := (← get).fileTable fd
  let inode ← fdInode file
  let i := (← get).inode inode
  let size := sizeToRead file.fdPos i.iSize count
  if i.iSize < (file.fdPos + count) % 2 ^ 32 ∧ size = 0 then
    pure (-1, [])
  else
    let ioBuf ← sysMalloc
    match ← sysMalloc with
    | none => pure (-1, [])
    | some blocks =>
      let first := file.fdPos / 512
      let last := (file.fdPos + size) % 2 ^ 32 / 512
      assert (first < 139 ∧ last < 139)
      let allBlocks ← blocksForRead i first last
      assert (ioBuf.isSome = true)
      let data ← readLoop fd allBlocks size size
      sysFree (some blocks)
      sysFree ioBuf
      pure (size, data)

end Zhenxiang.Fs
