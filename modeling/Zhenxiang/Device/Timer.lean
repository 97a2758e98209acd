import Zhenxiang.Thread.SchedInvariant

/-! The 8253 as timer_init sets it up, and a thread in mtime_sleep among the interrupts that follow.
Time is counted in cycles of the channel's input. -/
namespace Zhenxiang.Device
open Lib Kernel Thread

def irq0Frequency : UInt32 := 100
def inputFrequency : UInt32 := 1193180
def counter0Value : UInt32 := inputFrequency / irq0Frequency
def contrer0Port : UInt8 := 0x40
def counter0No : UInt8 := 0
def counterMode : UInt8 := 2
def readWriteLatch : UInt8 := 3
def pitControlPort : UInt16 := 0x43
def milSecondsPerIntr : UInt32 := 1000 / irq0Frequency

/-- The bytes written, each with its port. -/
def frequencySet (counterPort counterNo rwl mode : UInt8) (counterValue : UInt16) : List (UInt16 × UInt8) :=
  [(pitControlPort, counterNo <<< 6 ||| rwl <<< 4 ||| mode <<< 1),
   (counterPort.toUInt16, counterValue.toUInt8),
   -- the cast binds to the value and not to the shift
   (counterPort.toUInt16, (counterValue.toUInt8.toUInt32 >>> 8).toUInt8)]

def timerInit : List (UInt16 × UInt8) :=
  frequencySet contrer0Port counter0No readWriteLatch counterMode counter0Value.toUInt16

/-- The cycles from one interrupt to the next, from the low and the high byte of the reload value. -/
def period (writes : List (UInt16 × UInt8)) : Option Nat :=
  match (writes.filter fun w => w.1 = contrer0Port.toUInt16).map Prod.snd with
  | [low, high] =>
    let n := low.toNat + 256 * high.toNat
    some (if n = 0 then 65536 else n)
  | _ => none

def divRoundUp (x step : UInt32) : UInt32 := (x + step - 1) / step

/-- Where the thread is: at the entry of mtime_sleep, at the test of the loop in ticks_to_sleep, or back
in its caller. -/
inductive SleepPc where
  | called (mSeconds : UInt32)
  | waiting (startTick sleepTicks : UInt32)
  | returned

/-- An interrupt that has been raised stays pending while interrupts are off. -/
structure Clocked where
  sched : Sched
  now : Nat
  pending : Bool
  sleeper : Nat
  pc : SleepPc

namespace Clocked

def Due (s : Clocked) : Prop := s.pending = true ∧ s.sched.intr = .on

def onSched (c : Kern Sched Unit) : Kern Clocked Unit :=
  zoom Clocked.sched (fun s t => { s with sched := t }) c

def goto (s : Clocked) (pc : SleepPc) : Clocked := { s with pc := pc }

/-- One cycle of the channel's input; every n of them it raises an interrupt. -/
def cycle (n : Nat) (s : Clocked) : Clocked :=
  { s with now := s.now + 1, pending := s.pending || (s.now + 1) % n = 0 }

end Clocked

/-- The thread goes on, to the entry or the next turn of the loop. -/
def mtimeSleep : Kern Clocked Unit := do
  match (← get).pc with
  | .called mSeconds =>
    let sleepTicks := divRoundUp mSeconds milSecondsPerIntr
    assert (sleepTicks > 0)
    modify fun s => s.goto (.waiting s.sched.ticks sleepTicks)
  | .waiting startTick sleepTicks =>
    if (← get).sched.ticks - startTick < sleepTicks then
      Clocked.onSched threadYield
    else
      modify fun s => s.goto .returned
  | .returned => pure ()

inductive ClockEvent where
  | cycle
  | interrupt
  | sleeper
  | other (e : Event)

/-- An interrupt is taken as soon as interrupts are on. A device may unblock a thread at any time. -/
def ClockAllowed (s : Clocked) : ClockEvent → Prop
  | .cycle => ¬s.Due
  | .interrupt => s.Due
  | .sleeper => ¬s.Due ∧ s.sched.current = s.sleeper
  | .other e => ¬s.Due ∧ (s.sched.current ≠ s.sleeper ∨ ∃ x, e = .unblock x) ∧ e ≠ .timer ∧ Allowed s.sched e

/-- The argument n is the period. -/
def clockPerform (n : Nat) : ClockEvent → Kern Clocked Unit
  | .cycle => modify (Clocked.cycle n)
  | .interrupt => do
    modify fun s => { s with pending := false }
    Clocked.onSched intrTimerHandler
  | .sleeper => mtimeSleep
  | .other e => Clocked.onSched (perform e)

def ClockStep (n : Nat) (s t : Clocked) : Prop := ∃ e, ClockAllowed s e ∧ clockPerform n e s = .ok ((), t)

/-- The running thread is about to call mtime_sleep. -/
structure Calls (s : Clocked) (mSeconds ticks : UInt32) : Prop where
  sched : Inv s.sched
  ticks : s.sched.ticks = ticks
  intr : s.sched.intr = .on
  pending : s.pending = false
  current : s.sched.current = s.sleeper
  pc : s.pc = .called mSeconds

/-- Whatever the other threads do, 99 percent of the time asked for, less ten milliseconds, has passed
when the call has returned. -/
def NeverEarly (n : Nat) (mSeconds ticks : UInt32) : Prop :=
  ∀ s t, Calls s mSeconds ticks → Relation.ReflTransGen (ClockStep n) s t → t.pc = .returned →
    99 * (mSeconds.toNat - 10) * inputFrequency.toNat ≤ 100 * 1000 * (t.now - s.now)

end Zhenxiang.Device
