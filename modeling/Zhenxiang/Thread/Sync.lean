import Zhenxiang.Thread.SchedInvariant

/-! The semaphore and the lock of sync.c, run by any number of threads. Code under
intr_disable is one step; the rest of lock_acquire and lock_release is cut at
every access to the lock, and the timer may come between any two steps. -/
namespace Zhenxiang.Thread
open Lib Kernel

/-- struct lock with its struct semaphore. -/
structure Lock where
  holder : Option Nat
  holderRepeatNr : UInt32
  value : UInt8
  waiters : List Nat

def semaInit (l : Lock) (value : UInt8) : Lock := { l with value := value, waiters := [] }

def lockInit (l : Lock) : Lock :=
  semaInit { l with holder := none, holderRepeatNr := 0 } 1

/-- Where a thread goes on in lock_acquire or lock_release. -/
inductive Pc where
  | out
  -- lock_acquire by a thread that is not the holder
  | down
  | retest (old : IntrStatus)
  | setHolder
  | checkNr
  | setNr
  -- lock_acquire by the holder
  | incr
  | incrStore (n : UInt32)
  -- lock_release
  | testNr
  | decr
  | decrStore (n : UInt32)
  | checkOne
  | clearHolder
  | clearNr
  | up
  deriving DecidableEq, Repr

/-- The counter depth is the number of lock_acquire calls a thread has completed
less the number of lock_release calls; no function reads it. -/
structure LockSys where
  sched : Sched
  lock : Lock
  pc : Nat → Pc
  depth : Nat → Nat

def onSched {α : Type} (c : Kern Sched α) : Kern LockSys α :=
  zoom LockSys.sched (fun s t => { s with sched := t }) c

namespace LockSys

def goto (s : LockSys) (t : Nat) (p : Pc) : LockSys := { s with pc := Function.update s.pc t p }

/-- The call returns, after which the thread is nested d deep. -/
def finish (s : LockSys) (t : Nat) (d : Nat) : LockSys :=
  { s.goto t .out with depth := Function.update s.depth t d }

def onLock (s : LockSys) (f : Lock → Lock) : LockSys := { s with lock := f s.lock }

end LockSys

def runningThread : Kern LockSys Nat := do
  pure (← get).sched.current

/-- One turn of the loop of sema_down, with interrupts off. -/
def semaDownTurn (old : IntrStatus) : Kern LockSys Unit := do
  let me ← runningThread
  if (← get).lock.value = 0 then
    assert (me ∉ (← get).lock.waiters)
    modify fun s => s.onLock fun l => { l with waiters := l.waiters ++ [me] }
    modify fun s => s.goto me (.retest old)
    onSched (threadBlock .blocked)
  else
    modify fun s => s.onLock fun l => { l with value := l.value - 1 }
    assert ((← get).lock.value = 0)
    onSched (intrSetStatus old)
    modify fun s => s.goto me .setHolder

def semaDown : Kern LockSys Unit := do
  let old ← onSched intrDisable
  semaDownTurn old

def wakeWaiter : Kern LockSys Unit := do
  match (← get).lock.waiters with
  | [] => pure ()
  | w :: rest =>
    modify fun s => s.onLock fun l => { l with waiters := rest }
    onSched (threadUnblock w)

def semaUp : Kern LockSys Unit := do
  let old ← onSched intrDisable
  assert ((← get).lock.value = 0)
  wakeWaiter
  modify fun s => s.onLock fun l => { l with value := l.value + 1 }
  assert ((← get).lock.value = 1)
  onSched (intrSetStatus old)

/-- Calling lock_acquire: the running thread compares itself with the holder. -/
def lockAcquire : Kern LockSys Unit := do
  let me ← runningThread
  if (← get).lock.holder ≠ some me then
    modify fun s => s.goto me .down
  else
    modify fun s => s.goto me .incr

/-- Calling lock_release: the first ASSERT. -/
def lockRelease : Kern LockSys Unit := do
  let me ← runningThread
  assert ((← get).lock.holder = some me)
  modify fun s => s.goto me .testNr

/-- The next step of the running thread inside lock_acquire or lock_release. -/
def advance : Kern LockSys Unit := do
  let me ← runningThread
  match (← get).pc me with
  | .out => pure ()
  | .down => semaDown
  | .retest old => semaDownTurn old
  | .setHolder =>
    modify fun s => s.onLock fun l => { l with holder := some me }
    modify fun s => s.goto me .checkNr
  | .checkNr =>
    assert ((← get).lock.holderRepeatNr = 0)
    modify fun s => s.goto me .setNr
  | .setNr =>
    modify fun s => s.onLock fun l => { l with holderRepeatNr := 1 }
    modify fun s => s.finish me (s.depth me + 1)
  | .incr => modify fun s => s.goto me (.incrStore (s.lock.holderRepeatNr + 1))
  | .incrStore n =>
    modify fun s => s.onLock fun l => { l with holderRepeatNr := n }
    modify fun s => s.finish me (s.depth me + 1)
  | .testNr =>
    if (← get).lock.holderRepeatNr > 1 then
      modify fun s => s.goto me .decr
    else
      modify fun s => s.goto me .checkOne
  | .decr => modify fun s => s.goto me (.decrStore (s.lock.holderRepeatNr - 1))
  | .decrStore n =>
    modify fun s => s.onLock fun l => { l with holderRepeatNr := n }
    modify fun s => s.finish me (s.depth me - 1)
  | .checkOne =>
    assert ((← get).lock.holderRepeatNr = 1)
    modify fun s => s.goto me .clearHolder
  | .clearHolder =>
    modify fun s => s.onLock fun l => { l with holder := none }
    modify fun s => s.goto me .clearNr
  | .clearNr =>
    modify fun s => s.onLock fun l => { l with holderRepeatNr := 0 }
    modify fun s => s.goto me .up
  | .up =>
    semaUp
    modify fun s => s.finish me (s.depth me - 1)

/-- A timer interrupt that finds the time of the running thread used up. -/
def preempt : Kern Sched Unit := do
  modify fun s => s.onTask s.current fun p => { p with ticks := 0 }
  intrTimerHandler

inductive LockEvent where
  | preempt
  | idle
  | acquire
  | release
  | advance
  deriving DecidableEq, Repr

/-- The idle thread runs its own loop. Any other thread calls lock_release only to
match a lock_acquire. The timer comes whenever interrupts are on. -/
def LockAllowed (s : LockSys) : LockEvent → Prop
  | .preempt => s.sched.intr = .on
  | .idle => s.sched.current = s.sched.idleThread
  | .acquire => s.sched.current ≠ s.sched.idleThread ∧ s.pc s.sched.current = .out
  | .release => s.sched.current ≠ s.sched.idleThread ∧ s.pc s.sched.current = .out ∧
      0 < s.depth s.sched.current
  | .advance => s.pc s.sched.current ≠ .out

def lockPerform : LockEvent → Kern LockSys Unit
  | .preempt => onSched preempt
  | .idle => onSched (threadBlock .blocked)
  | .acquire => lockAcquire
  | .release => lockRelease
  | .advance => advance

def LockStep (s t : LockSys) : Prop := ∃ e, LockAllowed s e ∧ lockPerform e s = .ok ((), t)

/-- A scheduler in good order with interrupts on, any number of threads of which
none but idle sleeps, and the lock as lock_init leaves it. -/
structure LockStart (s : LockSys) : Prop where
  sched : Inv s.sched
  intr : s.sched.intr = .on
  awake : ∀ t ∈ s.sched.threads, t ≠ s.sched.idleThread → ¬ Asleep (s.sched.task t).status
  oldStatus : ∀ t ∈ s.sched.threads, (s.sched.task t).oldStatus = .on
  lock : ∃ l, s.lock = lockInit l
  pc : ∀ t, s.pc t = .out
  depth : ∀ t, s.depth t = 0

end Zhenxiang.Thread
