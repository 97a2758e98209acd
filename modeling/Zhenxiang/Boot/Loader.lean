import Zhenxiang.Kernel.Debug
import Zhenxiang.Lib.Bytes

/-! The detection of memory in loader.S, with int 0x15 of the BIOS as the descriptors it returns one
after the other. -/
namespace Zhenxiang.Boot
open Lib Kernel

/-- The 20 bytes of an address range descriptor. -/
structure Ards where
  baseAddLow : UInt32
  baseAddHigh : UInt32
  lengthLow : UInt32
  lengthHigh : UInt32
  type : UInt32
  deriving DecidableEq, Repr

namespace Ards

def bytes (d : Ards) : Buf :=
  ofWords fun k => ([d.baseAddLow, d.baseAddHigh, d.lengthLow, d.lengthHigh, d.type].getD k 0).toNat

def base (d : Ards) : Nat := d.baseAddLow.toNat + 2 ^ 32 * d.baseAddHigh.toNat

def length (d : Ards) : Nat := d.lengthLow.toNat + 2 ^ 32 * d.lengthHigh.toNat

end Ards

def loaderBaseAddr : Nat := 0x900

/-- Behind the 64 descriptors of the GDT, total_mem_bytes and gdt_ptr. -/
def ardsBuf : Nat := loaderBaseAddr + 0x200 + 4 + 6

def ardsBufSize : Nat := 244

/-- The memory with its variables ards_nr and total_mem_bytes. -/
structure Loader where
  mem : Buf
  ardsNr : UInt16
  totalMemBytes : UInt32

/-- int 0x15 with 0xe820 in eax, which stores a descriptor at es:di. Behind ards_buf lie ards_nr and the code
of the loader. -/
def int15 (di : UInt16) (d : Ards) : Kern Loader Unit := do
  check (ardsBuf ≤ di.toNat ∧ di.toNat + 20 ≤ ardsBuf + ardsBufSize) .undefined
  modify fun s => { s with mem := blit s.mem di.toNat 20 d.bytes }

/-- The loop .e820_mem_get_loop, until ebx is 0 with the last descriptor. -/
def e820MemGetLoop : List Ards → UInt16 → Kern Loader Unit
  | [], _ => throw .undefined  -- the carry flag is set, and the loader goes on to 0xe801
  | d :: rest, di => do
    int15 di d
    modify fun s => { s with ardsNr := s.ardsNr + 1 }
    if rest ≠ [] then
      e820MemGetLoop rest (di + 20)
    else
      pure ()

def dword (s : Loader) (a : UInt32) : UInt32 := UInt32.ofNat (word s.mem a.toNat)

/-- The register edx after cmp edx, eax and the jump. -/
def maxEdx (edx eax : UInt32) : UInt32 :=
  if eax.toInt32 ≤ edx.toInt32 then edx else eax

/-- The loop .find_max_mem_area. The instruction loop decrements cx before it tests it, so that there are
2^16 rounds at most. -/
def findMaxMemArea : Nat → UInt16 → UInt32 → UInt32 → Kern Loader UInt32
  | 0, _, _, _ => throw .diverges
  | rounds + 1, cx, ebx, edx => do
    let s ← get
    let edx := maxEdx edx (dword s ebx + dword s (ebx + 8))
    if cx - 1 = 0 then
      pure edx
    else
      findMaxMemArea rounds (cx - 1) (ebx + 20) edx

/-- From loader_start to .mem_get_ok, when the BIOS reports no error. -/
def memDetect (ards : List Ards) : Kern Loader Unit := do
  e820MemGetLoop ards (UInt16.ofNat ardsBuf)
  let cx := (← get).ardsNr
  let edx ← findMaxMemArea (2 ^ 16) cx (UInt32.ofNat ardsBuf) 0
  modify fun s => { s with totalMemBytes := edx }

end Zhenxiang.Boot
