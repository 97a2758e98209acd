import Zhenxiang.Fs.Path

/-! Formatting and mounting a partition, and the system calls of fs.c. -/
namespace Zhenxiang.Fs
open Lib Kernel

variable (P : Partition)

/-! filesys_init. -/

/-- The block bitmap as partition_format writes it: the bit of the root directory, then
from its last byte to the end of that sector all ones, but for the low bits of that byte. -/
def formatBlockBitmap : Buf :=
  let lastByte := P.blockBitmapBitLen / 8
  let lastBit := P.blockBitmapBitLen % 8
  let lastSize := 512 - lastByte % 512
  let buf := Function.update (fun _ => 0) 0 1
  let buf := blit buf lastByte lastSize fun _ => 0xff
  Function.update buf lastByte (UInt8.ofNat (256 - 2 ^ (lastBit + 1)))

def formatRootInode : Inode where
  iNo := 0
  iSize := 2 * dirEntrySize
  iOpenCnts := 0
  writeDeny := false
  iSectors k := if k = 0 then P.dataStartLba else 0

/-- The entries "." and ".." of a new directory. -/
def dotEntries (self parent : Nat) : Buf :=
  blit (blit (fun _ => 0) 0 dirEntrySize (encodeEntry ⟨dot, self, ftDirectory⟩))
    dirEntrySize dirEntrySize (encodeEntry ⟨dotDot, parent, ftDirectory⟩)

def superBlock : Buf := ofWords fun k =>
  [0x19590318, P.secCnt, 4096, P.startLba, P.blockBitmapLba, P.blockBitmapSects, P.inodeBitmapLba,
    Partition.inodeBitmapSects, P.inodeTableLba, Partition.inodeTableSects, P.dataStartLba, 0,
    dirEntrySize].getD k 0

/-- The buffer of the largest piece is never checked for NULL, and no pool is as large as
2^28 bytes. -/
def partitionFormat : Sys Unit := do
  check (512 * P.blockBitmapSects < 2 ^ 28) .undefined
  let buf ← sysMalloc
  check (buf.isSome = true) .undefined
  ideWrite (P.startLba + 1) (superBlock P) 1
  ideWrite P.blockBitmapLba (formatBlockBitmap P) P.blockBitmapSects
  ideWrite P.inodeBitmapLba (Function.update (fun _ => 0) 0 1) Partition.inodeBitmapSects
  ideWrite P.inodeTableLba (blit (fun _ => 0) 0 Partition.inodeSize (encodeInode (formatRootInode P)))
    Partition.inodeTableSects
  ideWrite P.dataStartLba (dotEntries 0 0) 1
  sysFree buf

/-- A bit of a bitmap. -/
def bitOf (b : Buf) (i : Nat) : Bool := (b (i / 8)).toNat / 2 ^ (i % 8) % 2 == 1

/-- The super block and the two bitmaps stay on the heap; there is no boot without them. -/
def mountPartition : Sys Unit := do
  let sbBuf ← sysMalloc
  check (sbBuf.isSome = true) .undefined
  forRange 3 fun _ => do
    let block ← sysMalloc
    assert (block.isSome = true)
  let blockBits ← ideRead P.blockBitmapLba P.blockBitmapSects
  let inodeBits ← ideRead P.inodeBitmapLba Partition.inodeBitmapSects
  modify fun s => { s with
    blockBitmap := bitOf blockBits
    inodeBitmap := bitOf inodeBits
    openInodes := [] }

def openRootDir : Sys Unit := do
  let inode ← inodeOpen P 0
  modify fun s => { s with rootInode := inode }

/-- filesys_init for the one partition that is mounted. -/
def filesysInit : Sys Unit := do
  partitionFormat P
  mountPartition P
  openRootDir P
  modify fun s => { s with fileTable := fun fdIdx => { s.fileTable fdIdx with fdInode := none } }

/-- The kernel before filesys_init: the main thread is running, and pgdir gives the page
directories of the tasks to come. -/
def booting (disk : Buf) (pgdir : Nat → Option Nat) (oracle : Nat → Nat) : FileSys where
  disk := disk
  blockBitmap _ := false
  inodeBitmap _ := false
  inode := inodeInit
  openInodes := []
  rootInode := 0
  dirInode _ := 0
  fileTable _ := ⟨0, 0, none⟩
  fdTable _ i := if i < 3 then i else -1
  cwdInodeNr _ := 0
  pgdir := Function.update pgdir 0 none
  current := 0
  nextBlock := 0
  live := []
  owner _ := none
  handles := []
  oracle := oracle

/-! The calls. The answer -1 of a function that returns an int is -1 here too. -/

/-- strrchr(path, '/') + 1. -/
def lastName (path : CStr) : CStr := (path.reverse.takeWhile (· != slash)).reverse

def sysOpen (pathname : CStr) (flags : Nat) : Sys Int := do
  check (pathname ≠ []) .undefined
  if pathname.getLast? = some slash then
    pure (-1)
  else
    assert (flags ≤ 7)
    let pathnameDepth ← pathDepthCnt pathname
    let (inodeNo, record) ← searchFile P pathname
    if record.fileType = ftDirectory then
      dirClose record.parentDir
      pure (-1)
    else
      let pathSearchedDepth ← pathDepthCnt record.searchedPath
      if pathnameDepth ≠ pathSearchedDepth then
        dirClose record.parentDir
        pure (-1)
      else
        match inodeNo with
        | none =>
          if hasFlag flags oCreat = false then
            dirClose record.parentDir
            pure (-1)
          else
            let fd ← fileCreate P record.parentDir (lastName pathname) flags
            dirClose record.parentDir
            pure fd
        | some inodeNo =>
          if hasFlag flags oCreat = true then
            dirClose record.parentDir
            pure (-1)
          else
            -- the parent directory stays open
            fileOpen P inodeNo flags

def fdLocal2global (localFd : Nat) : Sys Nat := do
  check (localFd < maxFilesOpenPerProc) .undefined
  let s ← get
  let globalFd := s.fdTable s.current localFd
  assert (0 ≤ globalFd ∧ globalFd < maxFileOpen)
  pure globalFd.toNat

def sysClose (fd : Int) : Sys Int := do
  if 2 < fd then
    let globalFd ← fdLocal2global fd.toNat
    let ret ← fileClose globalFd
    modify fun s => s.setFd fd.toNat (-1)
    pure ret
  else
    pure (-1)

/-- Standard output goes to the console, through a buffer of 1024 bytes. -/
def sysWrite (fd : Int) (buf : Buf) (count : Nat) : Sys Int := do
  if fd < 0 then
    pure (-1)
  else if fd = 1 then
    check (count ≤ 1024) .undefined
    pure count
  else
    let globalFd ← fdLocal2global fd.toNat
    if canWrite ((← get).fileTable globalFd).fdFlag = true then
      fileWrite P globalFd buf count
    else
      pure (-1)

def sysRead (fd : Int) (count : Nat) : Sys (Int × List UInt8) := do
  if fd < 0 then
    pure (-1, [])
  else
    let globalFd ← fdLocal2global fd.toNat
    fileRead globalFd count

/-- whence. -/
inductive Whence where
  | seekSet
  | seekCur
  | seekEnd

/-- The value as an int32_t. -/
def toInt32 (n : Int) : Int := n.bmod (2 ^ 32)

def sysLseek (fd offset : Int) (whence : Whence) : Sys Int := do
  if fd < 0 then
    pure (-1)
  else
    let globalFd ← fdLocal2global fd.toNat
    let pf := (← get).fileTable globalFd
    let inode ← fdInode pf
    let fileSize := toInt32 ((← get).inode inode).iSize
    let newPos := match whence with
      | .seekSet => offset
      | .seekCur => toInt32 (toInt32 pf.fdPos + offset)
      | .seekEnd => toInt32 (fileSize + offset)
    if newPos < 0 ∨ toInt32 (fileSize - 1) < newPos then
      pure (-1)
    else
      setFile globalFd { pf with fdPos := newPos.toNat }
      pure newPos

/-- Some slot of the file table is for that inode number. -/
def inFileTable (s : FileSys) (inodeNo : Nat) : Bool :=
  (List.range maxFileOpen).any fun fdIdx =>
    match (s.fileTable fdIdx).fdInode with
    | none => false
    | some inode => (s.inode inode).iNo == inodeNo

def sysUnlink (pathname : CStr) : Sys Int := do
  assert (pathname.length < maxPathLen)
  let (inodeNo, record) ← searchFile P pathname
  match inodeNo with
  | none =>
    dirClose record.parentDir
    pure (-1)
  | some inodeNo =>
    assert (inodeNo ≠ 0)
    if record.fileType = ftDirectory then
      dirClose record.parentDir
      pure (-1)
    else if inFileTable (← get) inodeNo = true then
      dirClose record.parentDir
      pure (-1)
    else
      match ← sysMalloc with
      | none =>
        dirClose record.parentDir
        pure (-1)
      | some ioBuf =>
        let _ ← deleteDirEntry P record.parentDir inodeNo
        inodeRelease P inodeNo
        sysFree (some ioBuf)
        dirClose record.parentDir
        pure 0

/-- The second half of sys_mkdir, without the clean-up at its end: the new directory named
dirname in its parent, and -1 when there is no place for it. The inode number is then given
back, but not the block. -/
def makeDir (parentDir : Dir) (dirname : CStr) : Sys Int := do
  match ← inodeBitmapAlloc P with
  | none => pure (-1)
  | some inodeNo =>
    match ← blockBitmapAlloc P with
    | none =>
      inodeBitmapClear inodeNo
      pure (-1)
    | some blockLba =>
      assert (blockBitmapIdx P blockLba ≠ 0)
      bitmapSync P (blockBitmapIdx P blockLba) .blockBitmap
      let s ← get
      let parentNo := (s.inode (s.inodeOf parentDir)).iNo
      ideWrite blockLba (dotEntries inodeNo parentNo) 1
      let newDirInode := { inodeInit inodeNo with
        iSize := 2 * dirEntrySize
        iSectors := fun k => if k = 0 then blockLba else 0 }
      let newDirEntry ← createDirEntry dirname inodeNo ftDirectory
      if (← syncDirEntry P parentDir newDirEntry) = true then
        let s ← get
        inodeSync P (s.inode (s.inodeOf parentDir)) 1024
        inodeSync P newDirInode 1024
        bitmapSync P inodeNo .inodeBitmap
        pure 0
      else
        inodeBitmapClear inodeNo
        pure (-1)

def sysMkdir (pathname : CStr) : Sys Int := do
  match ← sysMalloc with
  | none => pure (-1)
  | some ioBuf =>
    let (inodeNo, record) ← searchFile P pathname
    let ret ← do
      match inodeNo with
      | some _ => pure (-1)
      | none =>
        let pathnameDepth ← pathDepthCnt pathname
        let pathSearchedDepth ← pathDepthCnt record.searchedPath
        if pathnameDepth ≠ pathSearchedDepth then
          pure (-1)
        else
          -- strrchr finds no slash when nothing was searched
          check (slash ∈ record.searchedPath) .undefined
          makeDir P record.parentDir (lastName record.searchedPath)
    dirClose record.parentDir
    sysFree (some ioBuf)
    pure ret

/-- The test for "/." compares the first character again and never holds. -/
def sysOpendir (name : CStr) : Sys (Option Dir) := do
  assert (name.length < maxPathLen)
  if name = [slash] then
    pure (some .root)
  else
    let (inodeNo, record) ← searchFile P name
    match inodeNo with
    | none =>
      dirClose record.parentDir
      pure none
    | some inodeNo =>
      if record.fileType = ftDirectory then
        let dir ← dirOpen P inodeNo
        dirClose record.parentDir
        pure (some dir)
      else
        dirClose record.parentDir
        pure none

def sysClosedir : Option Dir → Sys Int
  | none => pure (-1)
  | some dir => do
    dirClose dir
    pure 0

/-- Neither the type of what was found nor the answer of search_file for a path without a
name is looked at. -/
def sysRmdir (pathname : CStr) : Sys Int := do
  let (inodeNo, record) ← searchFile P pathname
  match inodeNo with
  | none =>
    dirClose record.parentDir
    pure (-1)
  | some inodeNo =>
    assert (inodeNo ≠ 0)
    let dir ← dirOpen P inodeNo
    let retval ← do
      if (← dirIsEmpty dir) = false then
        pure (-1)
      else
        dirRemove P record.parentDir dir
    dirClose dir
    dirClose record.parentDir
    pure retval

def sysChdir (path : CStr) : Sys Int := do
  let (inodeNo, record) ← searchFile P path
  let ret ← do
    match inodeNo with
    | none => pure (-1)
    | some inodeNo =>
      if record.fileType = ftDirectory then
        modify fun s => { s with cwdInodeNr := Function.update s.cwdInodeNr s.current inodeNo }
        pure 0
      else
        pure (-1)
  dirClose record.parentDir
  pure ret

structure Stat where
  stIno : Nat
  stSize : Nat
  stFiletype : Nat

/-- The inode opened to read its size is never closed. -/
def sysStat (path : CStr) : Sys (Int × Option Stat) := do
  if isRootName path = true then
    let s ← get
    pure (0, some ⟨0, (s.inode s.rootInode).iSize, ftDirectory⟩)
  else
    let (inodeNo, record) ← searchFile P path
    match inodeNo with
    | none =>
      dirClose record.parentDir
      pure (-1, none)
    | some inodeNo =>
      let objInode ← inodeOpen P inodeNo
      let size := ((← get).inode objInode).iSize
      dirClose record.parentDir
      pure (0, some ⟨inodeNo, size, record.fileType⟩)

/-- Whether some slot of a block is for the inode number, used or not, and its name, which
runs on to the next zero byte. -/
def childName (buf : Buf) (inodeNo : Nat) : Option CStr :=
  ((List.range dirEntrysPerSec).find? fun idx => entryINo buf idx = inodeNo).map fun idx =>
    ((List.range' (dirEntrySize * idx) (512 - dirEntrySize * idx)).map buf).takeWhile (· != 0)

def childNameFrom (allBlocks : Nat → Nat) (inodeNo : Nat) : Nat → Nat → Sys (Option CStr)
  | 0, _ => pure none
  | n + 1, blockIdx => do
    if allBlocks blockIdx = 0 then
      childNameFrom allBlocks inodeNo n (blockIdx + 1)
    else
      match childName (← ideRead (allBlocks blockIdx) 1) inodeNo with
      | some name => pure (some name)
      | none => childNameFrom allBlocks inodeNo n (blockIdx + 1)

def getParentDirInodeNr (childInodeNr : Nat) : Sys Nat := do
  let childDirInode ← inodeOpen P childInodeNr
  let blockLba := ((← get).inode childDirInode).iSectors 0
  assert (P.dataStartLba ≤ blockLba)
  inodeClose childDirInode
  let buf ← ideRead blockLba 1
  assert (entryINo buf 1 < 4096 ∧ entryFType buf 1 = ftDirectory)
  pure (entryINo buf 1)

def getChildDirName (pInodeNr cInodeNr : Nat) : Sys (Option CStr) := do
  let parentDirInode ← inodeOpen P pInodeNr
  let inode := (← get).inode parentDirInode
  let allBlocks ← collectBlocks inode
  inodeClose parentDirInode
  childNameFrom allBlocks cInodeNr (if inode.iSectors 12 ≠ 0 then 140 else 12) 0

/-- The names on the way up to the root, innermost first. Each takes at least a slash of
full_path_reverse, so that the array is overrun before the rounds are used up. -/
def pathUp : Nat → Nat → Sys (Option (List CStr))
  | 0, _ => throw .undefined
  | rounds + 1, childInodeNr => do
    if childInodeNr = 0 then
      pure (some [])
    else
      let parentInodeNr ← getParentDirInodeNr P childInodeNr
      match ← getChildDirName P parentInodeNr childInodeNr with
      | none => pure none
      | some name =>
        match ← pathUp rounds parentInodeNr with
        | none => pure none
        | some names => pure (some (name :: names))

/-- What is written to buf. For the root the block for io_buf is not given back. -/
def sysGetcwd (size : Nat) : Sys (Option CStr) := do
  match ← sysMalloc with
  | none => pure none
  | some ioBuf =>
    let s ← get
    let childInodeNr := s.cwdInodeNr s.current
    assert (childInodeNr < 4096)
    if childInodeNr = 0 then
      pure (some [slash])
    else
      match ← pathUp P maxPathLen childInodeNr with
      | none =>
        sysFree (some ioBuf)
        pure none
      | some names =>
        let path := (names.reverse.map fun name => slash :: name).flatten
        check (path.length < maxPathLen) .undefined
        assert (path.length ≤ size)
        sysFree (some ioBuf)
        pure (some path)

/-! Runs of calls. -/

inductive Call where
  | opened (pathname : CStr) (flags : Nat)
  | close (fd : Int)
  | write (fd : Int) (buf : Buf) (count : Nat)
  | read (fd : Int) (count : Nat)
  | lseek (fd offset : Int) (whence : Whence)
  | unlink (pathname : CStr)
  | mkdir (pathname : CStr)
  | opendir (name : CStr)
  | closedir (dir : Option Dir)
  | rmdir (pathname : CStr)
  | chdir (path : CStr)
  | stat (path : CStr)
  | getcwd (size : Nat)

/-- A struct dir that is closed is one that sys_opendir returned and that is still open. -/
def Closable (s : FileSys) : Call → Prop
  | .closedir (some (.heap block)) => block ∈ s.handles
  | _ => True

def perform : Call → Sys Unit
  | .opened pathname flags => do let _ ← sysOpen P pathname flags
  | .close fd => do let _ ← sysClose fd
  | .write fd buf count => do let _ ← sysWrite P fd buf count
  | .read fd count => do let _ ← sysRead fd count
  | .lseek fd offset whence => do let _ ← sysLseek fd offset whence
  | .unlink pathname => do let _ ← sysUnlink P pathname
  | .mkdir pathname => do let _ ← sysMkdir P pathname
  | .opendir name => do
    match ← sysOpendir P name with
    | some (.heap block) => modify fun s => { s with handles := block :: s.handles }
    | _ => pure ()
  | .closedir dir => do
    let _ ← sysClosedir dir
    match dir with
    | some (.heap block) => modify fun s => { s with handles := s.handles.erase block }
    | _ => pure ()
  | .rmdir pathname => do let _ ← sysRmdir P pathname
  | .chdir path => do let _ ← sysChdir P path
  | .stat path => do let _ ← sysStat P path
  | .getcwd size => do let _ ← sysGetcwd P size

/-- A freshly formatted and mounted partition. -/
def Mounted (s : FileSys) : Prop :=
  ∃ disk pgdir oracle, filesysInit P (booting disk pgdir oracle) = .ok ((), s)

/-- The state in which a task makes its next call. -/
def FileSys.run (s : FileSys) (task : Nat) : FileSys := { s with current := task }

def CallStep (s t : FileSys) : Prop :=
  ∃ task c, Closable s c ∧ perform P c (s.run task) = .ok ((), t)

end Zhenxiang.Fs
