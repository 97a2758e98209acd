import Zhenxiang.Lib.Bytes
import Zhenxiang.Device.Ide

/-! partition_scan and ide_init of ide.c. A boot sector is the bytes that the disk holds; of an
entry of its table the type, the start and the length are read. sys_malloc has memory for the
boot sectors, and the channels work: ide_read gives what the disk holds. -/
namespace Zhenxiang.Device
open Lib Kernel

structure PartitionTableEntry where
  fsType : UInt8
  startLba : UInt32
  secCnt : UInt32
  deriving DecidableEq, Repr

/-- The entry i of the table at byte 446 of a boot sector. -/
def tableEntry (bs : Buf) (i : Nat) : PartitionTableEntry :=
  let o := 446 + 16 * i
  ⟨bs (o + 4), UInt32.ofNat (word bs (o + 8)), UInt32.ofNat (word bs (o + 12))⟩

def partitionTable (bs : Buf) : List PartitionTableEntry := (List.range 4).map (tableEntry bs)

/-- What partition_scan sets of a partition. -/
structure Partition where
  startLba : UInt32
  secCnt : UInt32
  myDisk : Nat
  name : String
  deriving DecidableEq, Repr

/-- The part_tag of a partition of disk hd in partition_list. -/
inductive PartTag where
  | prim (hd i : Nat)
  | logic (hd i : Nat)
  deriving DecidableEq, Repr

/-- The globals of ide.c, the arrays of the disks and the boot sectors that are allocated;
ext_lba_base is kept as the 32 bits of the int32_t. -/
structure Scan where
  extLbaBase : UInt32
  pNo : UInt8
  lNo : UInt8
  primParts : Nat → Nat → Partition
  logicParts : Nat → Nat → Partition
  partitionList : List PartTag
  buffers : List Nat
  fresh : Nat

def mallocSector : Kern Scan Nat := do
  let s ← get
  set { s with buffers := s.fresh :: s.buffers, fresh := s.fresh + 1 }
  pure s.fresh

def freeSector (bs : Nat) : Kern Scan Unit :=
  modify fun s => { s with buffers := s.buffers.erase bs }

namespace Scan

def addPrim (s : Scan) (hd : Nat) (p : Partition) : Scan :=
  { s with
    primParts := Function.update s.primParts hd (Function.update (s.primParts hd) s.pNo.toNat p)
    partitionList := s.partitionList ++ [.prim hd s.pNo.toNat]
    pNo := s.pNo + 1 }

def addLogic (s : Scan) (hd : Nat) (p : Partition) : Scan :=
  { s with
    logicParts := Function.update s.logicParts hd (Function.update (s.logicParts hd) s.lNo.toNat p)
    partitionList := s.partitionList ++ [.logic hd s.lNo.toNat]
    lNo := s.lNo + 1 }

end Scan

/-- The sectors of each disk, and its name. -/
structure Drives where
  sector : Nat → UInt32 → Buf
  name : Nat → String

variable (D : Drives)

/-- ide_read of one sector, with its ASSERT of the address. -/
def readSector (hd : Nat) (lba : UInt32) : Kern Scan Buf := do
  assert (lba ≤ maxLba)
  pure (D.sector hd lba)

/-- A partition of the sector 0; the ASSERT stands behind the increment. -/
def recordPrim (hd : Nat) (extLba : UInt32) (p : PartitionTableEntry) : Kern Scan Unit := do
  let s ← get
  if s.pNo.toNat < 4 then
    set (s.addPrim hd ⟨extLba + p.startLba, p.secCnt, hd, D.name hd ++ toString (s.pNo.toNat + 1)⟩)
    assert ((← get).pNo < 4)
  else
    throw .undefined

/-- A partition of another sector; false when the array is full and partition_scan returns. -/
def recordLogic (hd : Nat) (extLba : UInt32) (p : PartitionTableEntry) : Kern Scan Bool := do
  let s ← get
  if s.lNo.toNat < 8 then
    set (s.addLogic hd ⟨extLba + p.startLba, p.secCnt, hd, D.name hd ++ toString (s.lNo.toNat + 5)⟩)
    pure ((← get).lNo < 8)
  else
    throw .undefined

/-- An extended partition; scan is the recursive call. -/
def scanExtended (scan : UInt32 → Kern Scan Unit) (p : PartitionTableEntry) : Kern Scan Unit := do
  let base := (← get).extLbaBase
  if base ≠ 0 then
    scan (p.startLba + base)
  else
    modify fun s => { s with extLbaBase := p.startLba }
    scan p.startLba

/-- The loop over the rest of the table in the sector extLba. -/
def scanTable (scan : UInt32 → Kern Scan Unit) (hd : Nat) (extLba : UInt32) (bs : Nat) :
    List PartitionTableEntry → Kern Scan Unit
  | [] => freeSector bs
  | p :: rest => do
    if p.fsType = 5 then
      scanExtended scan p
      scanTable scan hd extLba bs rest
    else if p.fsType ≠ 0 then
      if extLba = 0 then
        recordPrim D hd extLba p
        scanTable scan hd extLba bs rest
      else
        -- the return at the eighth logical partition leaves the boot sector allocated
        if (← recordLogic D hd extLba p) = true then
          scanTable scan hd extLba bs rest
        else
          pure ()
    else
      scanTable scan hd extLba bs rest

/-- partition_scan, for calls nested at most so deep. -/
def partitionScan (hd : Nat) : Nat → UInt32 → Kern Scan Unit
  | 0, _ => throw .diverges
  | depth + 1, extLba => do
    let bs ← mallocSector
    let sector ← readSector D hd extLba
    scanTable D (partitionScan hd depth) hd extLba bs (partitionTable sector)

/-- DIV_ROUND_UP(hd_cnt, 2). -/
def channelCnt (hdCnt : UInt8) : Nat := (hdCnt.toNat + 1) / 2

/-- The two disks of a channel: the one with the kernel, number 0, is not scanned. -/
def scanChannel (depth channelNo : Nat) : Kern Scan Unit :=
  forRange 2 fun devNo => do
    if devNo ≠ 0 then
      partitionScan D (2 * channelNo + devNo) depth 0
    modify fun s => { s with pNo := 0, lNo := 0 }

/-- ide_init, where the disk devNo of channel channelNo has the number 2 * channelNo + devNo. -/
def ideInit (depth : Nat) (hdCnt : UInt8) : Kern Scan Unit := do
  assert (0 < hdCnt)
  modify fun s => { s with partitionList := [] }
  forRange (channelCnt hdCnt) fun channelNo => do
    if channelNo < 2 then
      scanChannel D depth channelNo
    else
      throw .undefined

end Zhenxiang.Device
