import Zhenxiang.Fs.Syscall
import Zhenxiang.Kernel.Screen
import Zhenxiang.Paging.Asserting
import Zhenxiang.Paging.TaskHeaps

/-! The system calls of a user process: syscall_handler in kernel.S, the table that
syscall_init fills, and what the four entries do with the registers they are handed. -/
namespace Zhenxiang.Userprog
open Lib Kernel Paging
open Fs (toInt32 canWrite maxFileOpen maxFilesOpenPerProc)

/-- The functions syscall_init puts into the table. -/
inductive SysFunction where
  | sysGetpid
  | sysWrite
  | sysMalloc
  | sysFree
  deriving DecidableEq

/-- The entry of syscall_table after syscall_init, in the order of enum SYSCALL_NR; the
others of its 32 entries are NULL, and other memory lies behind them. -/
def syscallTable : Nat → Option SysFunction
  | 0 => some .sysGetpid
  | 1 => some .sysWrite
  | 2 => some .sysMalloc
  | 3 => some .sysFree
  | _ => none

/-- The index that the operand syscall_table + eax*4 comes to in 32-bit arithmetic. -/
def tableIndex (eax : UInt32) : Nat := 4 * eax.toNat % 2 ^ 32 / 4

/-- The registers an int 0x80 finds. -/
structure Regs where
  eax : UInt32
  ebx : UInt32
  ecx : UInt32
  edx : UInt32

/-- What a call meets that the process or the other tasks may have made in any way: the
bytes of the mapped memory (every page table entry has PG_US_U, so a process can read all
that is mapped), and what the frames hold that malloc_page finds. -/
structure World where
  ram : Nat → Option UInt8
  contents : Mem

/-- A user process: its pid, its fd_table and the blocks it holds, and of the rest of the kernel
the fd_flag of each slot in file_table, the screen, and the pages with the memory of the process. -/
structure Process where
  pid : Nat
  fdTable : Nat → Int
  fdFlag : Nat → Nat
  console : Console
  memory : Memory
  live : Nat → Nat

namespace Process

def heap (s : Process) : HeapSys := ⟨s.memory.heap, s.live⟩

def setLive (s : Process) (b size : Nat) : Process := { s with live := Function.update s.live b size }

end Process

def onConsole {α : Type} (c : Kern Console α) : Kern Process α :=
  zoom Process.console (fun s console => { s with console := console }) c

def onMemory {α : Type} (c : Kern Memory α) : Kern Process α :=
  zoom Process.memory (fun s memory => { s with memory := memory }) c

/-- file_write, which no process gets to: none has a file open for writing. -/
abbrev FileWrite := Nat → Nat → Nat → Kern Process Int

/-- put_str of a string in an array; behind the array is what C leaves undefined. -/
def putStr : List UInt8 → Kern Console Unit
  | [] => throw .undefined
  | c :: cs =>
    if c = 0 then
      pure ()
    else do
      putChar c
      putStr cs

def consolePutStr (str : List UInt8) : Kern Process Unit := onConsole (putStr str)

def cString (text : String) : List UInt8 := text.toUTF8.toList ++ [0]

/-- The count bytes from src on, unless one of them is not mapped. -/
def userBytes (ram : Nat → Option UInt8) (src count : Nat) : Option (List UInt8) :=
  if ∀ k < count, (ram ((src + k) % 2 ^ 32)).isSome = true then
    some ((List.range count).map fun k => (ram ((src + k) % 2 ^ 32)).getD 0)
  else
    none

def memcpy (ram : Nat → Option UInt8) (src count : Nat) : Kern Process (List UInt8) := do
  assert (src ≠ 0)
  match userBytes ram src count with
  | none => throw .undefined
  | some bytes => pure bytes

def fdLocal2global (localFd : Nat) : Kern Process Nat := do
  check (localFd < maxFilesOpenPerProc) .undefined
  let globalFd := (← get).fdTable localFd
  assert (0 ≤ globalFd ∧ globalFd < maxFileOpen)
  pure globalFd.toNat

def tmpBufSize : Nat := 1024

/-- The buffer for standard output is on the stack, and the count is not looked at. -/
def sysWrite (fileWrite : FileWrite) (ram : Nat → Option UInt8) (fd : Int) (buf count : Nat) : Kern Process Int := do
  if fd < 0 then
    consolePutStr (cString "sys_write: fd error\n")
    pure (-1)
  else if fd = 1 then
    let bytes ← memcpy ram buf count
    check (count ≤ tmpBufSize) .undefined
    consolePutStr (bytes ++ List.replicate (tmpBufSize - count) 0)
    pure count
  else
    let globalFd ← fdLocal2global fd.toNat
    if canWrite ((← get).fdFlag globalFd) = true then
      fileWrite globalFd buf count
    else
      consolePutStr (cString "sys_write: not allowed to write file without flag O_RDWR or O_WRONLY\n")
      pure (-1)

section Calls
variable (M : Machine) (D : Descs) (p : Nat)

def sysMalloc (contents : Mem) (size : Nat) : Kern Process Nat := do
  match ← onMemory (sysMallocTlb contents (D.caller p p) (mallocPageAsserting M .user p) size) with
  | none => pure 0
  | some b =>
    modify fun s => s.setLive b size
    pure b

def sysFree (ptr : Nat) : Kern Process Unit := do
  onMemory (sysFreeLocked M (D.caller p p) ptr)
  modify fun s => s.setLive ptr 0

/-- The call through the table, and the word it leaves for eax; for sys_free, which is
void, that word means nothing. -/
def syscallHandler (fileWrite : FileWrite) (W : World) (r : Regs) : Kern Process Nat := do
  match syscallTable (tableIndex r.eax) with
  | none => throw .undefined
  | some .sysGetpid => pure (← get).pid
  | some .sysWrite =>
    let ret ← sysWrite fileWrite W.ram (toInt32 r.ebx.toNat) r.ecx.toNat r.edx.toNat
    pure (ret % 2 ^ 32).toNat
  | some .sysMalloc => sysMalloc M D p W.contents r.ebx.toNat
  | some .sysFree =>
    sysFree M D p r.ebx.toNat
    pure 0

/-! What is expected of a call, and when that is what happens. -/

/-- From s to t the screen has gone on by the bytes out, and nothing else was stored to. -/
def Printed (s t : Console) (out : List UInt8) : Prop :=
  InPage s t ∧ ∀ h : s.cursor < 80 * 25, Shows t (Console.play (s.screen h) out)

/-- What goes to standard output comes from the buffer of the process, and what sys_free
takes is a live block. -/
structure CallResult (s : Process) (r : Regs) (W : World) (t : Process) : Prop where
  printed : syscallTable (tableIndex r.eax) = some .sysWrite → toInt32 r.ebx.toNat = 1 →
    ∃ bytes out, userBytes W.ram r.ecx.toNat r.edx.toNat = some bytes ∧ out <+: bytes ∧ Printed s.console t.console out
  freed : syscallTable (tableIndex r.eax) = some .sysFree → 0 < s.live r.ebx.toNat

/-- A mapped buffer that leaves room for a zero byte, or has one. -/
def BufferFits (ram : Nat → Option UInt8) (buf count : Nat) : Prop :=
  buf ≠ 0 ∧ count ≤ tmpBufSize ∧
    ∃ bytes, userBytes ram buf count = some bytes ∧ (count < tmpBufSize ∨ 0 ∈ bytes)

/-- No backspace comes with the cursor on the first cell. -/
def NoUnderrun (t : Screen) (out : List UInt8) : Prop :=
  ∀ before rest, out = before ++ 0x8 :: rest → (Console.play t before).cursor ≠ 0

/-- The descriptors and buffers that sys_write of a process copes with. -/
def WriteFits (ram : Nat → Option UInt8) (s : Process) (fd : Int) (buf count : Nat) : Prop :=
  fd < 0 ∨ fd = 0 ∨ fd = 2 ∨ fd = 1 ∧ BufferFits ram buf count ∧ ∀ bytes, userBytes ram buf count = some bytes →
    ∀ h : s.console.cursor < 80 * 25, NoUnderrun (s.console.screen h) (bytes.takeWhile (· ≠ 0))

/-- Where the pages that malloc_page is about to map were once given back, they get the frames they had. -/
def TlbAgrees (s : Memory) (cnt : Nat) : Prop :=
  ∀ i, M.scanVaddr s.vm .user p cnt = some i → ∀ e ∈ s.stale, ∀ k < cnt, e.1 = vaddrBase .user + i + k →
    M.nextFrame s.vm.userPool k = some e.2

def MallocFits (s : Memory) (size : Nat) : Prop :=
  ∀ cnt, pagesWanted (D.caller p p) s.heap size = some cnt → PagesFit M s.vm p cnt ∧ TlbAgrees M p s cnt

def CallFits (s : Process) (r : Regs) (W : World) : Prop :=
  match syscallTable (tableIndex r.eax) with
  | none => False
  | some .sysGetpid => True
  | some .sysWrite => WriteFits W.ram s (toInt32 r.ebx.toNat) r.ecx.toNat r.edx.toNat
  | some .sysMalloc => MallocFits M D p s.memory r.ebx.toNat
  | some .sysFree => 0 < s.live r.ebx.toNat

/-- The words the allocator keeps in the memory of a process: the headers of the arenas and the
links of the free blocks. -/
def AllocatorWord (T : HeapTask) (s : HeapSys) (x : Nat) : Prop :=
  (∃ a, 0 < s.heap.runs a ∧ a ≤ x ∧ x < a + sizeofArena) ∨
    ∃ a i idx, SmallArena T s a i ∧ idx < blocksPerArena i ∧ s.live (blockAt a i idx) = 0 ∧
      blockAt a i idx ≤ x ∧ x < blockAt a i idx + 8

/-- What happens to a process: it stores a word, it makes a call, or other tasks run, which load
cr3 and so empty the TLB; they open and close files, print, and get and give back pages. -/
inductive ProcessEvent where
  | store (x v : Nat)
  | int80 (r : Regs) (W : World)
  | others (fdFlag : Nat → Nat) (console : Console) (vm : VM)

/-- The other tasks keep the pages of the process. -/
structure Kept (vm vm' : VM) : Prop where
  core : PageCore M vm'
  bits : ∀ n, InVaddr M (some p) n → vm'.vaddrBit (some p) n = vm.vaddrBit (some p) n
  pages : ∀ n f, Uses vm' (.page (some p) n) f ↔ Uses vm (.page (some p) n) f

/-- The process stores to its own half of the address space, where a page is mapped. The first three
slots of file_table are never opened. -/
def ProcessFits (s : Process) : ProcessEvent → Prop
  | .store x _ =>
    x < 0xc0000000 ∧ (∃ f, s.memory.vm.frameAt p (x / pgSize) = some f) ∧ ¬ AllocatorWord (D.task p) s.heap x
  | .int80 r W => CallFits M D p s r W
  | .others fdFlag console vm =>
    (∀ fd < 3, fdFlag fd = s.fdFlag fd) ∧ console.cursor < 80 * 25 ∧ Kept M p s.memory.vm vm

def processPerform (fileWrite : FileWrite) : ProcessEvent → Kern Process Unit
  | .store x v => onMemory (onTaskHeap (onMem (store x v)))
  | .int80 r W => do
    let _ ← syscallHandler M D p fileWrite W r
    pure ()
  | .others fdFlag console vm => modify fun s =>
    { s with fdFlag := fdFlag, console := console, memory := { s.memory with vm := vm, stale := [] } }

def ProcessStep (fileWrite : FileWrite) (s t : Process) : Prop :=
  ∃ e, ProcessFits M D p s e ∧ processPerform M D p fileWrite e s = .ok ((), t)

/-- A process as process_execute leaves it, in any state of the page allocator, with the lock of the user
pool free. -/
structure ProcessStart (s : Process) : Prop where
  pages : Reachable PageStart (PageStepFound M) s.memory.vm
  heap : HeapStart (D.task p) s.heap
  lock : s.memory.holder .user = none ∧ s.memory.holderRepeatNr .user = 0
  tlb : s.memory.stale = []
  cursor : s.console.cursor < 80 * 25
  standard : ∀ fd < 3, s.fdTable fd = fd
  rest : ∀ fd, 3 ≤ fd → fd < maxFilesOpenPerProc → s.fdTable fd = -1
  flags : ∀ fd < 3, s.fdFlag fd = 0

end Calls

end Zhenxiang.Userprog
