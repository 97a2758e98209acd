import Zhenxiang.Device.IoQueue

/-! The interrupt handler of keyboard.c, and the keys of a keyboard whose scan codes it is
given one byte at a time. -/
namespace Zhenxiang.Device
open Lib

def altRMake : UInt16 := 0xe038
def ctrlLMake : UInt16 := 0x1d
def ctrlRMake : UInt16 := 0xe01d
def shiftLMake : UInt16 := 0x2a
def shiftRMake : UInt16 := 0x36
def altLMake : UInt16 := 0x38
def capsLockMake : UInt16 := 0x3a

structure Keyboard where
  ctrlStatus : Bool
  shiftStatus : Bool
  altStatus : Bool
  capsLockStatus : Bool
  extScancode : Bool
  kbdBuf : IoQueue
  printed : List String

/-- For a make code, the character without and with shift. -/
def keymap : List (UInt8 × UInt8) := [
  (0, 0), (0x1b, 0x1b), (0x31, 0x21), (0x32, 0x40), (0x33, 0x23), (0x34, 0x24), (0x35, 0x25), (0x36, 0x5e),
  (0x37, 0x26), (0x38, 0x2a), (0x39, 0x28), (0x30, 0x29), (0x2d, 0x5f), (0x3d, 0x2b), (0x08, 0x08), (0x09, 0x09),
  (0x71, 0x51), (0x77, 0x57), (0x65, 0x45), (0x72, 0x52), (0x74, 0x54), (0x79, 0x59), (0x75, 0x55), (0x69, 0x49),
  (0x6f, 0x4f), (0x70, 0x50), (0x5b, 0x7b), (0x5d, 0x7d), (0x0d, 0x0d), (0, 0), (0x61, 0x41), (0x73, 0x53),
  (0x64, 0x44), (0x66, 0x46), (0x67, 0x47), (0x68, 0x48), (0x6a, 0x4a), (0x6b, 0x4b), (0x6c, 0x4c), (0x3b, 0x3a),
  (0x27, 0x22), (0x60, 0x7e), (0, 0), (0x5c, 0x7c), (0x7a, 0x5a), (0x78, 0x58), (0x63, 0x43), (0x76, 0x56),
  (0x62, 0x42), (0x6e, 0x4e), (0x6d, 0x4d), (0x2c, 0x3c), (0x2e, 0x3e), (0x2f, 0x3f), (0, 0), (0x2a, 0x2a),
  (0, 0), (0x20, 0x20), (0, 0)]

/-- ioq_putchar on a queue that is not full: the consumer is woken up. -/
def IoQueue.put (q : IoQueue) (byte : UInt8) : IoQueue :=
  { q with buf := Function.update q.buf q.head byte, head := nextPos q.head, consumer := none }

/-- A break code, merged with its prefix. -/
def Keyboard.onBreak (s : Keyboard) (scancode : UInt16) : Keyboard :=
  let makeCode := scancode &&& 0xff7f
  if makeCode = ctrlLMake ∨ makeCode = ctrlRMake then { s with ctrlStatus := false }
  else if makeCode = shiftLMake ∨ makeCode = shiftRMake then { s with shiftStatus := false }
  else if makeCode = altLMake ∨ makeCode = altRMake then { s with altStatus := false }
  else s

/-- The keys with two characters. -/
def twoChars (scancode : UInt16) : Bool :=
  scancode < 0x0e ∨ scancode = 0x29 ∨ scancode = 0x1a ∨ scancode = 0x1b ∨ scancode = 0x2b ∨ scancode = 0x27 ∨
    scancode = 0x28 ∨ scancode = 0x33 ∨ scancode = 0x34 ∨ scancode = 0x35

/-- Whether the character with shift is taken. -/
def shiftFor (scancode : UInt16) (shiftDownLast capsLockLast : Bool) : Bool :=
  if twoChars scancode then shiftDownLast
  else if shiftDownLast && capsLockLast then false
  else if shiftDownLast || capsLockLast then true
  else false

/-- The make code of a key that is handled. -/
def Keyboard.onMake (s : Keyboard) (scancode : UInt16) : Keyboard :=
  let shift := shiftFor scancode s.shiftStatus s.capsLockStatus
  let scancode := scancode &&& 0x00ff
  let chars := keymap.getD scancode.toNat (0, 0)
  let curChar := if shift then chars.2 else chars.1
  if curChar ≠ 0 then
    if nextPos s.kbdBuf.head = s.kbdBuf.tail then s
    else { s with kbdBuf := s.kbdBuf.put curChar }
  else if scancode = ctrlLMake ∨ scancode = ctrlLMake then { s with ctrlStatus := true }
  else if scancode = shiftLMake ∨ scancode = shiftRMake then { s with shiftStatus := true }
  else if scancode = altLMake ∨ scancode = altRMake then { s with altStatus := true }
  else if scancode = capsLockMake then { s with capsLockStatus := !s.capsLockStatus }
  else s

/-- intr_keyboard_handler with the byte at KBD_BUF_PORT. -/
def Keyboard.intrKeyboardHandler (s : Keyboard) (data : UInt8) : Keyboard :=
  let scancode := data.toUInt16
  if scancode = 0xe0 then { s with extScancode := true }
  else
    let merged := if s.extScancode then 0xe000 ||| scancode else scancode
    let s := { s with extScancode := false }
    if merged &&& 0x0080 ≠ 0 then s.onBreak merged
    else if 0x00 < merged ∧ merged < 0x3b ∨ merged = altRMake ∨ merged = ctrlRMake then s.onMake merged
    else { s with printed := s.printed ++ ["unknown key\n"] }

def keyboardInit (q : IoQueue) (printed : List String) : Keyboard :=
  ⟨false, false, false, false, false, ioqueueInit q, printed⟩

/-- A key with its make code, sent behind 0xe0 or alone. No key has the code 0x60, whose break
code would be the prefix. -/
structure Key where
  ext : Bool
  code : UInt8
  known : 0 < code ∧ code < 0x80 ∧ code ≠ 0x60
  deriving DecidableEq

namespace Key

def shiftL : Key := ⟨false, 0x2a, by decide⟩
def shiftR : Key := ⟨false, 0x36, by decide⟩
def ctrlL : Key := ⟨false, 0x1d, by decide⟩
def ctrlR : Key := ⟨true, 0x1d, by decide⟩
def altL : Key := ⟨false, 0x38, by decide⟩
def altR : Key := ⟨true, 0x38, by decide⟩
def capsLock : Key := ⟨false, 0x3a, by decide⟩

end Key

/-- The characters of a key, by itself and with shift, if the map has any. -/
def charsOf (ext : Bool) (code : UInt8) : Option (UInt8 × UInt8) :=
  if ext then none
  else match keymap[code.toNat]? with
    | none => none
    | some (plain, shifted) => if plain = 0 then none else some (plain, shifted)

/-- A letter is in upper case when shift differs from caps lock; other keys look at shift only. -/
def charWith (shift caps : Bool) : UInt8 × UInt8 → UInt8
  | (plain, shifted) =>
    if 0x61 ≤ plain ∧ plain ≤ 0x7a then
      if shift ≠ caps then plain - 0x20 else plain
    else if shift then shifted else plain

/-- What happens between two states of the buffer: a key goes down or up, or a thread takes a
character out. -/
inductive KeyEvent where
  | press (k : Key)
  | release (k : Key)
  | getchar

/-- The bytes that arrive for a key. -/
def KeyEvent.bytes : KeyEvent → List UInt8
  | .press k => (if k.ext then [0xe0] else []) ++ [k.code]
  | .release k => (if k.ext then [0xe0] else []) ++ [k.code ||| 0x80]
  | .getchar => []

/-- ioq_getchar of a queue that is not empty. -/
def IoQueue.take (q : IoQueue) : IoQueue :=
  if q.head = q.tail then q else { q with tail := nextPos q.tail, producer := none }

def Keyboard.play (s : Keyboard) (e : KeyEvent) : Keyboard :=
  match e with
  | .getchar => { s with kbdBuf := s.kbdBuf.take }
  | e => e.bytes.foldl Keyboard.intrKeyboardHandler s

/-- The keys held down, and caps lock as its key has toggled it. -/
structure Board where
  held : Key → Bool
  caps : Bool

namespace Board

def idle : Board := ⟨fun _ => false, false⟩

def step (b : Board) : KeyEvent → Board
  | .press k => ⟨Function.update b.held k true, if k = .capsLock then !b.caps else b.caps⟩
  | .release k => ⟨Function.update b.held k false, b.caps⟩
  | .getchar => b

def shiftHeld (b : Board) : Bool := b.held .shiftL || b.held .shiftR

def ctrlHeld (b : Board) : Bool := b.held .ctrlL || b.held .ctrlR

def altHeld (b : Board) : Bool := b.held .altL || b.held .altR

/-- The character of a key pressed now. -/
def typed (b : Board) (k : Key) : Option UInt8 := (charsOf k.ext k.code).map (charWith b.shiftHeld b.caps)

end Board

end Zhenxiang.Device
