import Zhenxiang.Kernel.Debug
import Zhenxiang.Lib.Bytes

/-! itoa and vsprintf of stdio.c, and what they use of string.c. An address is a number; the
words behind ap are a list. -/
namespace Zhenxiang.Kernel
open Lib

def loadChar (p : Nat) : Kern Buf UInt8 := do
  pure ((← get) p)

def storeChar (p : Nat) (c : UInt8) : Kern Buf Unit :=
  modify fun m => Function.update m p c

/-- The division by a base of 0 is a fault; a base of 1 is not used. -/
def itoa : Nat → UInt32 → Nat → UInt8 → Kern Buf Nat
  | 0, _, _, _ => throw .diverges
  | depth + 1, value, bufPtr, base => do
    check (base ≠ 0) .undefined
    let m := value % base.toUInt32
    let i := value / base.toUInt32
    let bufPtr ← if i ≠ 0 then itoa depth i bufPtr base else pure bufPtr
    -- m + '0' or m - 10 + 'A'
    storeChar bufPtr (if m < 10 then (m + 0x30).toUInt8 else (m - 10 + 0x41).toUInt8)
    pure (bufPtr + 1)

/-- The loop of strcpy. A string that does not end within the address space is not one. -/
def strcpyFrom : Nat → Nat → Nat → Kern Buf Unit
  | 0, _, _ => throw .diverges
  | fuel + 1, dst, src => do
    let c ← loadChar src
    storeChar dst c
    if c ≠ 0 then
      strcpyFrom fuel (dst + 1) (src + 1)

def strcpy (dst src : Nat) : Kern Buf Unit := do
  assert (dst ≠ 0 ∧ src ≠ 0)
  strcpyFrom (2 ^ 32) dst src

/-- The loop of strlen, up to the p behind the NUL. -/
def strlenFrom : Nat → Nat → Kern Buf Nat
  | 0, _ => throw .diverges
  | fuel + 1, p => do
    if (← loadChar p) ≠ 0 then
      strlenFrom fuel (p + 1)
    else
      pure (p + 1)

def strlen (str : Nat) : Kern Buf UInt32 := do
  assert (str ≠ 0)
  let p ← strlenFrom (2 ^ 32) str
  pure (UInt32.ofNat (p - str - 1))

/-- va_arg. Behind the arguments there is no telling what it gives. -/
def vaArg : List UInt32 → Kern Buf (UInt32 × List UInt32)
  | [] => throw .undefined
  | arg :: rest => pure (arg, rest)

/-- The loop of vsprintf with index_ptr, index_char, buf_ptr and ap. -/
def vsprintfFrom : Nat → Nat → UInt8 → Nat → List UInt32 → Kern Buf Unit
  | 0, _, _, _, _ => throw .diverges
  | fuel + 1, indexPtr, indexChar, bufPtr, ap => do
    if indexChar = 0 then
      pure ()
    -- '%'
    else if indexChar ≠ 0x25 then
      storeChar bufPtr indexChar
      vsprintfFrom fuel (indexPtr + 1) (← loadChar (indexPtr + 1)) (bufPtr + 1) ap
    else
      let indexPtr := indexPtr + 1
      let indexChar ← loadChar indexPtr
      -- 's'
      if indexChar = 0x73 then
        let (argStr, ap) ← vaArg ap
        strcpy bufPtr argStr.toNat
        let bufPtr := bufPtr + (← strlen argStr.toNat).toNat
        vsprintfFrom fuel (indexPtr + 1) (← loadChar (indexPtr + 1)) bufPtr ap
      -- 'c'
      else if indexChar = 0x63 then
        let (arg, ap) ← vaArg ap
        storeChar bufPtr arg.toUInt8
        vsprintfFrom fuel (indexPtr + 1) (← loadChar (indexPtr + 1)) (bufPtr + 1) ap
      -- 'd'
      else if indexChar = 0x64 then
        let (argInt, ap) ← vaArg ap
        let bufPtr ← if argInt.toInt32 < 0 then do
            storeChar bufPtr 0x2d
            itoa 32 (0 - argInt) (bufPtr + 1) 10
          else
            itoa 32 argInt bufPtr 10
        vsprintfFrom fuel (indexPtr + 1) (← loadChar (indexPtr + 1)) bufPtr ap
      -- 'x'
      else if indexChar = 0x78 then
        let (argInt, ap) ← vaArg ap
        let bufPtr ← itoa 32 argInt bufPtr 16
        vsprintfFrom fuel (indexPtr + 1) (← loadChar (indexPtr + 1)) bufPtr ap
      else
        vsprintfFrom fuel indexPtr indexChar bufPtr ap

def vsprintf (str format : Nat) (ap : List UInt32) : Kern Buf UInt32 := do
  vsprintfFrom (2 ^ 32) format (← loadChar format) str ap
  strlen str

end Zhenxiang.Kernel
