import Zhenxiang.Kernel.Debug
import Zhenxiang.Lib.Bytes

/-! put_char and put_int of print.S, label by label, with the registers that carry a value
from one label to another as arguments. A jump is a call in last place. -/
namespace Zhenxiang.Kernel
open Lib

/-- The registers of the display controller, the video memory by its offset in the segment of
gs, and the offsets stored to, the latest first; no function reads those. -/
structure Console where
  crt : UInt8 → UInt8
  video : Buf
  stored : List Nat

/-- The limit in VIDEO_DESC of loader.S. -/
def videoLimit : Nat := 0x7fff

def storeVideo (offset : Nat) (value : UInt8) : Kern Console Unit :=
  modify fun s => { s with video := Function.update s.video offset value, stored := offset :: s.stored }

/-- mov byte [gs:offset], value. Behind the limit of the segment it is a protection fault. -/
def gsStore (offset : Nat) (value : UInt8) : Kern Console Unit := do
  check (offset ≤ videoLimit) .undefined
  storeVideo offset value

/-- The jump jl after cmp a, b. -/
def jumpLess (a b : UInt16) : Bool := a.toBitVec.slt b.toBitVec

/-- out 0x3d4, index and out 0x3d5, value. -/
def outCrt (index value : UInt8) : Kern Console Unit :=
  modify fun s => { s with crt := Function.update s.crt index value }

def setCursor (bx : UInt16) : Kern Console Unit := do
  outCrt 0x0e (bx >>> 8).toUInt8
  outCrt 0x0f bx.toUInt8

/-- One movsd from esi = 0xc00b80a0 + 4 k to edi = 0xc00b8000 + 4 k. -/
def movsd (k : Nat) : Kern Console Unit := do
  let video := (← get).video
  forRange 4 fun j => storeVideo (4 * k + j) (video (160 + 4 * k + j))

def rollScreen : Kern Console Unit := do
  forRange 960 movsd
  forRange 80 fun k => do
    -- the word 0x0720
    gsStore (3840 + 2 * k) 0x20
    gsStore (3840 + 2 * k + 1) 0x07
  setCursor 1920

/-- The labels is_line_feed and is_carriage_return. -/
def isLineFeed (bx : UInt16) : Kern Console Unit := do
  let dx := bx % 80
  let bx := bx - dx + 80
  if jumpLess bx 2000 then setCursor bx else rollScreen

def putOther (bx : UInt16) (cl : UInt8) : Kern Console Unit := do
  let bx := bx <<< 1
  gsStore bx.toNat cl
  let bx := bx + 1
  gsStore bx.toNat 0x07
  let bx := bx >>> 1 + 1
  if jumpLess bx 2000 then setCursor bx else isLineFeed bx

def isBackspace (bx : UInt16) : Kern Console Unit := do
  let bx := (bx - 1) <<< 1
  gsStore bx.toNat 0x20
  let bx := bx + 1
  gsStore bx.toNat 0x07
  setCursor (bx >>> 1)

def putChar (cl : UInt8) : Kern Console Unit := do
  let ah := (← get).crt 0x0e
  let al := (← get).crt 0x0f
  let bx := ah.toUInt16 <<< 8 ||| al.toUInt16
  if cl = 0xd then isLineFeed bx
  else if cl = 0xa then isLineFeed bx
  else if cl = 0x8 then isBackspace bx
  else putOther bx cl

/-! put_int. -/

/-- put_int_buffer with what lies behind it, and the characters given to put_char. -/
structure IntPrinter where
  buffer : Buf
  sent : List UInt8

def send (cl : UInt8) : Kern IntPrinter Unit :=
  modify fun s => { s with sent := s.sent ++ [cl] }

/-- The label 16based_4bits, with ecx, eax and edi. It leaves edi. -/
def based4bits : Nat → UInt32 → UInt32 → Kern IntPrinter UInt32
  | 0, _, edi => pure edi
  | ecx + 1, eax, edi => do
    let edx := eax &&& 0xf
    -- jg after cmp edx, 9
    let edx := if (9 : UInt32).toBitVec.slt edx.toBitVec then edx - 10 + 0x41 else edx + 0x30
    modify fun s => { s with buffer := Function.update s.buffer edi.toNat edx.toUInt8 }
    based4bits ecx (eax >>> 4) (edi - 1)

/-- The label put_each_num, with cl and edi. -/
def putEachNum : Nat → UInt8 → UInt32 → Kern IntPrinter Unit
  | 0, _, _ => throw .diverges
  | fuel + 1, cl, edi => do
    send cl
    let edi := edi + 1
    let cl := (← get).buffer edi.toNat
    if edi.toBitVec.slt 8 then
      putEachNum fuel cl edi

/-- The label skip_prefix_0, with edi. -/
def skipPrefix0 : Nat → UInt32 → Kern IntPrinter Unit
  | 0, _ => throw .diverges
  | fuel + 1, edi => do
    if edi = 8 then
      putEachNum 8 0x30 edi
    else
      let cl := (← get).buffer edi.toNat
      let edi := edi + 1
      if cl = 0x30 then
        skipPrefix0 fuel edi
      else
        putEachNum 8 cl (edi - 1)

def putInt (value : UInt32) : Kern IntPrinter Unit := do
  let edi ← based4bits 8 value 7
  skipPrefix0 9 (edi + 1)

end Zhenxiang.Kernel
