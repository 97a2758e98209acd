import Zhenxiang.Kernel.Screen
import Zhenxiang.Kernel.PutInt
import Zhenxiang.Thread.SyncInvariant

/-! console.c: output to the screen under console_lock, by any number of threads. The timer may
come between any two steps; a character is one step. -/
namespace Zhenxiang.Device
open Lib Kernel Thread

/-- A call of console_put_str, console_put_char or console_put_int. -/
inductive ConsoleCall where
  | putStr (str : List UInt8)
  | putChar (charAsci : UInt8)
  | putInt (num : UInt32)
  deriving DecidableEq

/-- What put_int gives to put_char. -/
def putIntChars (num : UInt32) : List UInt8 :=
  match Kernel.putInt num ⟨fun _ => 0, []⟩ with
  | .ok (_, t) => t.sent
  | .error _ => []

/-- The characters that put_str, put_char or put_int prints. -/
def ConsoleCall.chars : ConsoleCall → List UInt8
  | .putStr str => str
  | .putChar charAsci => [charAsci]
  | .putInt num => putIntChars num

/-- Where a thread is in console.c: in console_acquire, printing with so many characters left, or
in console_release. -/
inductive ConsoleAt where
  | out
  | acquiring (call : ConsoleCall)
  | printing (left : List UInt8)
  | releasing
  deriving DecidableEq

/-- The calls that got the lock, with their threads, and the characters printed; no function
reads these. -/
structure ConsoleSys where
  locks : LockSys
  display : Console
  at_ : Nat → ConsoleAt
  said : List (Nat × ConsoleCall)
  written : List UInt8

def onLocks {α : Type} (c : Kern LockSys α) : Kern ConsoleSys α :=
  zoom ConsoleSys.locks (fun s t => { s with locks := t }) c

def onDisplay {α : Type} (c : Kern Console α) : Kern ConsoleSys α :=
  zoom ConsoleSys.display (fun s t => { s with display := t }) c

namespace ConsoleSys

def me (s : ConsoleSys) : Nat := s.locks.sched.current

def goto (s : ConsoleSys) (t : Nat) (p : ConsoleAt) : ConsoleSys := { s with at_ := Function.update s.at_ t p }

end ConsoleSys

/-- The call of console_acquire. -/
def consoleEnter (call : ConsoleCall) : Kern ConsoleSys Unit := do
  modify fun s => s.goto s.me (.acquiring call)
  onLocks lockAcquire

/-- console_acquire has returned. -/
def consoleBegin (call : ConsoleCall) : Kern ConsoleSys Unit :=
  modify fun s => { s.goto s.me (.printing call.chars) with said := s.said ++ [(s.me, call)] }

/-- One turn of the loop of put_str. -/
def consolePut (c : UInt8) (left : List UInt8) : Kern ConsoleSys Unit := do
  onDisplay (Kernel.putChar c)
  modify fun s => { s.goto s.me (.printing left) with written := s.written ++ [c] }

/-- The call of console_release. -/
def consoleLeave : Kern ConsoleSys Unit := do
  modify fun s => s.goto s.me .releasing
  onLocks lockRelease

/-- The next step of the running thread inside console.c. -/
def consoleAdvance : Kern ConsoleSys Unit := do
  let s ← get
  match s.at_ s.me with
  | .out => pure ()
  | .acquiring call => if s.locks.pc s.me = .out then consoleBegin call else onLocks advance
  | .printing [] => consoleLeave
  | .printing (c :: left) => consolePut c left
  | .releasing => if s.locks.pc s.me = .out then modify fun s => s.goto s.me .out else onLocks advance

inductive ConsoleEvent where
  | preempt
  | idle
  | call (c : ConsoleCall)
  | advance

/-- The idle thread runs its own loop and prints nothing. -/
def ConsoleAllowed (s : ConsoleSys) : ConsoleEvent → Prop
  | .preempt => s.locks.sched.intr = .on
  | .idle => s.me = s.locks.sched.idleThread
  | .call _ => s.me ≠ s.locks.sched.idleThread ∧ s.at_ s.me = .out
  | .advance => s.at_ s.me ≠ .out

def consolePerform : ConsoleEvent → Kern ConsoleSys Unit
  | .preempt => onLocks (lockPerform .preempt)
  | .idle => onLocks (lockPerform .idle)
  | .call c => consoleEnter c
  | .advance => consoleAdvance

def ConsoleStep (s t : ConsoleSys) : Prop := ∃ e, ConsoleAllowed s e ∧ consolePerform e s = .ok ((), t)

/-- The lock behind console_init, nobody printing, and a screen that shows the terminal. -/
structure ConsoleStart (screen : Screen) (s : ConsoleSys) : Prop where
  locks : LockStart s.locks
  at_ : ∀ t, s.at_ t = .out
  shows : Shows s.display screen
  said : s.said = []
  written : s.written = []

end Zhenxiang.Device
