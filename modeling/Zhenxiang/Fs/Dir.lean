import Zhenxiang.Fs.Inode

/-! The directories of dir.c. A directory holds entries of 24 bytes, 21 to a block. -/
namespace Zhenxiang.Fs
open Lib Kernel

/-- file_types. -/
def ftUnknown : Nat := 0
def ftRegular : Nat := 1
def ftDirectory : Nat := 2

def maxFileNameLen : Nat := 16

/-- dir_entry_size in the super block. -/
def dirEntrySize : Nat := 24
def dirEntrysPerSec : Nat := 512 / dirEntrySize

/-- A C string, without the zero byte at its end. -/
abbrev CStr := List UInt8

def dot : CStr := [46]
def dotDot : CStr := [46, 46]

structure DirEntry where
  filename : CStr
  iNo : Nat
  fType : Nat

def encodeEntry (e : DirEntry) : Buf := fun k =>
  if k < 16 then e.filename.getD k 0
  else ofWords (fun i => if i = 0 then e.iNo else if i = 1 then e.fType else 0) (k - 16)

/-- strcmp of the string at an offset and one given. -/
def streq (b : Buf) (o : Nat) : CStr → Bool
  | [] => b o == 0
  | c :: cs => b o == c && streq b (o + 1) cs

def entryINo (b : Buf) (idx : Nat) : Nat := word b (dirEntrySize * idx + 16)
def entryFType (b : Buf) (idx : Nat) : Nat := word b (dirEntrySize * idx + 20)
def entryNamed (b : Buf) (idx : Nat) (name : CStr) : Bool := streq b (dirEntrySize * idx) name

/-- A pointer to a struct dir: &root_dir, or a heap block. -/
inductive Dir where
  | root
  | heap (block : Nat)
  deriving DecidableEq

/-- dir->inode. -/
def FileSys.inodeOf (s : FileSys) : Dir → Nat
  | .root => s.rootInode
  | .heap block => s.dirInode block

/-- pdir->inode = inode. -/
def FileSys.setDirInode (s : FileSys) (pdir inode : Nat) : FileSys :=
  { s with dirInode := Function.update s.dirInode pdir inode }

@[simp] theorem FileSys.setDirInode_self (s : FileSys) (pdir inode : Nat) :
    (s.setDirInode pdir inode).dirInode pdir = inode := Function.update_self ..

variable (P : Partition)

def dirOpen (inodeNo : Nat) : Sys Dir := do
  match ← sysMalloc with
  | none => throw .undefined
  | some pdir =>
    let inode ← inodeOpen P inodeNo
    modify fun s => s.setDirInode pdir inode
    pure (.heap pdir)

def dirClose : Dir → Sys Unit
  | .root => pure ()
  | .heap block => do
    let s ← get
    check (block ∈ s.live) .undefined
    inodeClose (s.dirInode block)
    sysFree (some block)

/-- The entry of the given name in one block. -/
def findEntry (buf : Buf) (name : CStr) : Option Nat :=
  (List.range dirEntrysPerSec).find? fun idx => entryNamed buf idx name

def searchBlocks (allBlocks : Nat → Nat) (name : CStr) : Nat → Nat → Sys (Option (Nat × Nat))
  | 0, _ => pure none
  | n + 1, blockIdx => do
    if allBlocks blockIdx = 0 then
      searchBlocks allBlocks name n (blockIdx + 1)
    else
      let buf ← ideRead (allBlocks blockIdx) 1
      match findEntry buf name with
      | some idx => pure (some (entryINo buf idx, entryFType buf idx))
      | none => searchBlocks allBlocks name n (blockIdx + 1)

/-- The inode number and type in the entry of that name; none also when the buffer for the
block addresses cannot be had. -/
def searchDirEntry (pdir : Dir) (name : CStr) : Sys (Option (Nat × Nat)) := do
  match ← sysMalloc with
  | none => pure none
  | some blocks =>
    let s ← get
    let allBlocks ← collectBlocks (s.inode (s.inodeOf pdir))
    let buf ← sysMalloc
    check (buf.isSome = true) .undefined
    let found ← searchBlocks allBlocks name 140 0
    sysFree buf
    sysFree (some blocks)
    pure found

def createDirEntry (filename : CStr) (inodeNo fileType : Nat) : Sys DirEntry := do
  assert (filename.length ≤ maxFileNameLen)
  pure ⟨filename, inodeNo, fileType⟩

/-- all_blocks + 12 as the bytes of an indirect block table. -/
def tableBytes (allBlocks : Nat → Nat) : Buf := ofWords fun k => allBlocks (k + 12)

/-- A block for the position blockIdx of a directory that had none; false when the disk is
full. The table on disk is overwritten with the addresses that all_blocks holds. -/
def growDir (dirInode blockIdx : Nat) (allBlocks : Nat → Nat) : Sys (Option Nat) := do
  match ← blockBitmapAlloc P with
  | none => pure none
  | some blockLba =>
    bitmapSync P (blockBitmapIdx P blockLba) .blockBitmap
    if blockIdx < 12 then
      modifyInode dirInode fun i => i.setSector blockIdx blockLba
      pure (some blockLba)
    else if blockIdx = 12 then
      modifyInode dirInode fun i => i.setSector 12 blockLba
      match ← blockBitmapAlloc P with
      | none =>
        let bits ← bitmapSet (← get).blockBitmap (512 * P.blockBitmapSects)
          (blockBitmapIdx P blockLba) false
        modify fun s => { s with blockBitmap := bits }
        modifyInode dirInode fun i => i.setSector 12 0
        pure none
      | some first =>
        bitmapSync P (blockBitmapIdx P first) .blockBitmap
        ideWrite blockLba (tableBytes (Function.update allBlocks 12 first)) 1
        pure (some first)
    else
      ideWrite (((← get).inode dirInode).iSectors 12)
        (tableBytes (Function.update allBlocks blockIdx blockLba)) 1
      pure (some blockLba)

/-- The first entry of a block that is not in use. -/
def freeEntry (buf : Buf) : Option Nat :=
  (List.range dirEntrysPerSec).find? fun idx => entryFType buf idx = ftUnknown

/-- The main loop of sync_dir_entry. -/
def insertEntry (dirInode : Nat) (de : DirEntry) (allBlocks : Nat → Nat) : Nat → Nat → Sys Bool
  | 0, _ => pure false
  | n + 1, blockIdx => do
    if allBlocks blockIdx = 0 then
      match ← growDir P dirInode blockIdx allBlocks with
      | none => pure false
      | some blockLba =>
        ideWrite blockLba (blit (fun _ => 0) 0 dirEntrySize (encodeEntry de)) 1
        modifyInode dirInode fun i => { i with iSize := i.iSize + dirEntrySize }
        pure true
    else
      let buf ← ideRead (allBlocks blockIdx) 1
      match freeEntry buf with
      | some idx =>
        ideWrite (allBlocks blockIdx)
          (blit buf (dirEntrySize * idx) dirEntrySize (encodeEntry de)) 1
        modifyInode dirInode fun i => { i with iSize := i.iSize + dirEntrySize }
        pure true
      | none => insertEntry dirInode de allBlocks n (blockIdx + 1)

/-- all_blocks is not filled from the indirect block table here. -/
def syncDirEntry (parentDir : Dir) (de : DirEntry) : Sys Bool := do
  let s ← get
  let dirInode := s.inodeOf parentDir
  let inode := s.inode dirInode
  assert (inode.iSize % dirEntrySize = 0)
  insertEntry P dirInode de (fun k => if k < 12 then inode.iSectors k else 0) 140 0

/-- What delete_dir_entry makes of one block: whether it holds the entry ".", how many
other entries but "..", and those with the inode number. -/
structure BlockScan where
  isDirFirstBlock : Bool
  dirEntryCnt : Nat
  found : List Nat

def scanBlock (buf : Buf) (inodeNo : Nat) : BlockScan :=
  let used := (List.range dirEntrysPerSec).filter fun idx => entryFType buf idx ≠ ftUnknown
  let plain := used.filter fun idx => !entryNamed buf idx dot && !entryNamed buf idx dotDot
  { isDirFirstBlock := used.any fun idx => entryNamed buf idx dot
    dirEntryCnt := plain.length
    found := plain.filter fun idx => entryINo buf idx = inodeNo }

/-- Taking the block at blockIdx out of a directory. The counting loop over the indirect
blocks never advances its index: it ends only when all_blocks[12] is in use, and the count
is then 140. -/
def dropBlock (dirInode blockIdx : Nat) (allBlocks : Nat → Nat) : Sys Unit := do
  blockBitmapFree P (allBlocks blockIdx)
  if blockIdx < 12 then
    modifyInode dirInode fun i => i.setSector blockIdx 0
  else if allBlocks 12 = 0 then
    throw .diverges
  else
    ideWrite (((← get).inode dirInode).iSectors 12) (tableBytes (Function.update allBlocks blockIdx 0)) 1

def deleteFrom (dirInode inodeNo : Nat) (allBlocks : Nat → Nat) : Nat → Nat → Sys Bool
  | 0, _ => pure false
  | n + 1, blockIdx => do
    if allBlocks blockIdx = 0 then
      deleteFrom dirInode inodeNo allBlocks n (blockIdx + 1)
    else
      let buf ← ideRead (allBlocks blockIdx) 1
      let scan := scanBlock buf inodeNo
      assert (scan.found.length ≤ 1)
      match scan.found with
      | [] => deleteFrom dirInode inodeNo allBlocks n (blockIdx + 1)
      | idx :: _ =>
        if scan.dirEntryCnt = 1 ∧ scan.isDirFirstBlock = false then
          dropBlock P dirInode blockIdx allBlocks
        else
          ideWrite (allBlocks blockIdx) (blit buf (dirEntrySize * idx) dirEntrySize fun _ => 0) 1
        assert (dirEntrySize ≤ ((← get).inode dirInode).iSize)
        modifyInode dirInode fun i => { i with iSize := i.iSize - dirEntrySize }
        inodeSync P ((← get).inode dirInode) 1024
        pure true

/-- The buffers of both callers have two sectors. -/
def deleteDirEntry (pdir : Dir) (inodeNo : Nat) : Sys Bool := do
  let s ← get
  let dirInode := s.inodeOf pdir
  let allBlocks ← collectBlocks (s.inode dirInode)
  deleteFrom P dirInode inodeNo allBlocks 140 0

def dirIsEmpty (dir : Dir) : Sys Bool := do
  let s ← get
  pure ((s.inode (s.inodeOf dir)).iSize == 2 * dirEntrySize)

/-- No block but that of i_sectors[0], and no table. -/
def onlyFirstBlock (inode : Inode) : Bool :=
  (List.range' 1 12).all fun blockIdx => inode.iSectors blockIdx == 0

/-- Whatever delete_dir_entry answers is ignored. -/
def dirRemove (parentDir childDir : Dir) : Sys Int := do
  let s ← get
  let child := s.inode (s.inodeOf childDir)
  assert (onlyFirstBlock child = true)
  match ← sysMalloc with
  | none => pure (-1)
  | some ioBuf =>
    let _ ← deleteDirEntry P parentDir child.iNo
    inodeRelease P child.iNo
    sysFree (some ioBuf)
    pure 0

end Zhenxiang.Fs
