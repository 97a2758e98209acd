import Zhenxiang.Device.Ide
import Zhenxiang.Lib.Bytes

/-! The data path of ide_read and ide_write: the registers they write, the words that go
through the data port and the two disks of each channel. The thread holds the lock of its
channel from end to end; what other threads do meanwhile is in Device.Ide. -/
namespace Zhenxiang.Device
open Lib Kernel

def bitStatDrdy : UInt8 := 0x40
def bitDevMbs : UInt8 := 0xa0
def bitDevLba : UInt8 := 0x40
def bitDevDev : UInt8 := 0x10
def cmdReadSector : UInt8 := 0x20
def cmdWriteSector : UInt8 := 0x30

/-- An ATA controller with its disks, the master and the slave. After its n-th command it is
busy for delay n reads of the status; left words are still to go through the data port, the
next one to or from the bytes at pos. -/
structure Controller where
  sectCnt : UInt8
  lbaL : UInt8
  lbaM : UInt8
  lbaH : UInt8
  dev : UInt8
  delay : Nat → Nat
  issued : Nat
  busy : Nat
  writing : Bool
  slave : Bool
  pos : Nat
  left : Nat
  disk : Bool → Buf

namespace Controller

def lba (c : Controller) : Nat :=
  c.lbaL.toNat + 2 ^ 8 * c.lbaM.toNat + 2 ^ 16 * c.lbaH.toNat + 2 ^ 24 * (c.dev &&& 0xf).toNat

/-- A count of 0 stands for 256 sectors. -/
def sectors (c : Controller) : Nat := if c.sectCnt = 0 then 256 else c.sectCnt.toNat

/-- Only sector addresses in LBA mode are modelled. -/
def command (c : Controller) (cmd : UInt8) : Controller :=
  if c.dev &&& bitDevLba ≠ 0 ∧ (cmd = cmdReadSector ∨ cmd = cmdWriteSector) then
    { c with issued := c.issued + 1, busy := c.delay c.issued, writing := cmd = cmdWriteSector,
             slave := c.dev &&& bitDevDev ≠ 0, pos := 512 * c.lba, left := 256 * c.sectors }
  else
    { c with left := 0 }

def status (c : Controller) : UInt8 × Controller :=
  if 0 < c.busy then (bitStatBsy, { c with busy := c.busy - 1 })
  else if 0 < c.left then (bitStatDrdy ||| bitStatDrq, c)
  else (bitStatDrdy, c)

/-- The word read from the data port, its low byte first. -/
def take (c : Controller) : (UInt8 × UInt8) × Controller :=
  if 0 < c.left ∧ c.writing = false then
    ((c.disk c.slave c.pos, c.disk c.slave (c.pos + 1)), { c with pos := c.pos + 2, left := c.left - 1 })
  else ((0xff, 0xff), c)

def give (c : Controller) (low high : UInt8) : Controller :=
  if 0 < c.left ∧ c.writing = true then
    { c with
      disk := Function.update c.disk c.slave
        (Function.update (Function.update (c.disk c.slave) c.pos low) (c.pos + 1) high)
      pos := c.pos + 2
      left := c.left - 1 }
  else c

end Controller

/-- The registers of a channel that are written one byte at a time. -/
inductive Reg where
  | sectCnt
  | lbaL
  | lbaM
  | lbaH
  | dev
  | cmd

def Controller.put (c : Controller) (data : UInt8) : Reg → Controller
  | .sectCnt => { c with sectCnt := data }
  | .lbaL => { c with lbaL := data }
  | .lbaM => { c with lbaM := data }
  | .lbaH => { c with lbaH := data }
  | .dev => { c with dev := data }
  | .cmd => c.command data

structure IdeIo where
  channel : Bool → Controller
  expectingIntr : Bool → Bool
  ram : Buf

def IdeIo.setChannel (s : IdeIo) (channel : Bool) (c : Controller) : IdeIo :=
  { s with channel := Function.update s.channel channel c }

def IdeIo.expect (s : IdeIo) (channel value : Bool) : IdeIo :=
  { s with expectingIntr := Function.update s.expectingIntr channel value }

/-- my_channel, as the number of the channel, and dev_no of struct disk. -/
structure Hd where
  myChannel : Bool
  devNo : UInt8

def outb (channel : Bool) (reg : Reg) (data : UInt8) : Kern IdeIo Unit :=
  modify fun s => s.setChannel channel ((s.channel channel).put data reg)

/-- inb of reg_status. -/
def inStatus (channel : Bool) : Kern IdeIo UInt8 := do
  let (status, c) := ((← get).channel channel).status
  modify fun s => s.setChannel channel c
  pure status

/-- One word from reg_data to memory. -/
def inWord (channel : Bool) (addr : Nat) : Kern IdeIo Unit := do
  let ((low, high), c) := ((← get).channel channel).take
  modify fun s =>
    { s.setChannel channel c with ram := Function.update (Function.update s.ram addr low) (addr + 1) high }

/-- One word from memory to reg_data. -/
def outWord (channel : Bool) (addr : Nat) : Kern IdeIo Unit :=
  modify fun s => s.setChannel channel ((s.channel channel).give (s.ram addr) (s.ram (addr + 1)))

def insw (channel : Bool) (addr wordCnt : Nat) : Kern IdeIo Unit :=
  forRange wordCnt fun k => inWord channel (addr + 2 * k)

def outsw (channel : Bool) (addr wordCnt : Nat) : Kern IdeIo Unit :=
  forRange wordCnt fun k => outWord channel (addr + 2 * k)

def selectDisk (hd : Hd) : Kern IdeIo Unit :=
  outb hd.myChannel .dev (bitDevMbs ||| bitDevLba ||| if hd.devNo = 1 then bitDevDev else 0)

def selectSector (hd : Hd) (lba : UInt32) (secCnt : UInt8) : Kern IdeIo Unit := do
  assert (lba ≤ maxLba)
  outb hd.myChannel .sectCnt secCnt
  outb hd.myChannel .lbaL lba.toUInt8
  outb hd.myChannel .lbaM (lba >>> 8).toUInt8
  outb hd.myChannel .lbaH (lba >>> 16).toUInt8
  outb hd.myChannel .dev
    (bitDevMbs ||| bitDevLba ||| (if hd.devNo = 1 then bitDevDev else 0) ||| (lba >>> 24).toUInt8)

def cmdOut (channel : Bool) (cmd : UInt8) : Kern IdeIo Unit := do
  modify fun s => s.expect channel true
  outb channel .cmd cmd

/-- sema_down of disk_done: the controller answers the command, and intr_hd_handler ups the
semaphore if the interrupt is expected. -/
def awaitDiskDone (channel : Bool) : Kern IdeIo Unit := do
  if (← get).expectingIntr channel then
    modify fun s => s.expect channel false
  else
    throw .diverges

/-- The words that hold sec_cnt sectors. -/
def sizeInWords (secCnt : UInt8) : Nat :=
  let sizeInByte : UInt32 := if secCnt = 0 then 256 * 512 else secCnt.toUInt32 * 512
  (sizeInByte / 2).toNat

def readFromSector (hd : Hd) (buf : UInt32) (secCnt : UInt8) : Kern IdeIo Unit :=
  insw hd.myChannel buf.toNat (sizeInWords secCnt)

def write2Sector (hd : Hd) (buf : UInt32) (secCnt : UInt8) : Kern IdeIo Unit :=
  outsw hd.myChannel buf.toNat (sizeInWords secCnt)

def busyWaitFrom (channel : Bool) : Nat → UInt16 → Kern IdeIo Bool
  | 0, _ => throw .diverges
  | fuel + 1, before => do
    -- time_limit -= 10 >= 0 takes away 1
    let timeLimit := before - 1
    if timeLimit = 0 then
      pure false
    else if (← inStatus channel) &&& bitStatBsy = 0 then
      pure ((← inStatus channel) &&& bitStatDrq ≠ 0)
    else
      busyWaitFrom channel fuel timeLimit

def busyWait (hd : Hd) : Kern IdeIo Bool := busyWaitFrom hd.myChannel (2 ^ 16) (30 * 1000)

/-- The number of sectors of the next turn. -/
def secsOp (secCnt secsDone : UInt32) : UInt32 :=
  if secsDone + 256 ≤ secCnt then 256 else secCnt - secsDone

/-- The loop while (secs_done < sec_cnt); its body gives the new value of secs_done. -/
def forSectors (secCnt : UInt32) (body : UInt32 → Kern IdeIo UInt32) : Nat → UInt32 → Kern IdeIo Unit
  | 0, _ => throw .diverges
  | fuel + 1, secsDone => do
    if secsDone < secCnt then
      forSectors secCnt body fuel (← body secsDone)

/-- The body of the loop in ide_read. -/
def readTurn (hd : Hd) (lba buf secCnt secsDone : UInt32) : Kern IdeIo UInt32 := do
  let op := secsOp secCnt secsDone
  selectSector hd (lba + secsDone) op.toUInt8
  cmdOut hd.myChannel cmdReadSector
  awaitDiskDone hd.myChannel
  assert ((← busyWait hd) = true)
  readFromSector hd (buf + secsDone * 512) op.toUInt8
  pure (secsDone + op)

def ideRead (hd : Hd) (lba buf secCnt : UInt32) : Kern IdeIo Unit := do
  assert (lba ≤ maxLba)
  assert (secCnt > 0)
  selectDisk hd
  forSectors secCnt (readTurn hd lba buf secCnt) (2 ^ 32) 0

/-- The body of the loop in ide_write. -/
def writeTurn (hd : Hd) (lba buf secCnt secsDone : UInt32) : Kern IdeIo UInt32 := do
  let op := secsOp secCnt secsDone
  selectSector hd (lba + secsDone) op.toUInt8
  cmdOut hd.myChannel cmdWriteSector
  assert ((← busyWait hd) = true)
  write2Sector hd (buf + secsDone * 512) op.toUInt8
  awaitDiskDone hd.myChannel
  pure (secsDone + op)

def ideWrite (hd : Hd) (lba buf secCnt : UInt32) : Kern IdeIo Unit := do
  assert (lba ≤ maxLba)
  assert (secCnt > 0)
  selectDisk hd
  forSectors secCnt (writeTurn hd lba buf secCnt) (2 ^ 32) 0

end Zhenxiang.Device
