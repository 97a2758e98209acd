import Zhenxiang.Thread.Sync
import Zhenxiang.Lib.Ring

/-! The queue of ioqueue.c between any number of threads. Its functions run with
interrupts off, so one step reaches to the next place where a thread can leave the
processor, or to the next turn of the loop in ioq_getchar or ioq_putchar. -/
namespace Zhenxiang.Device
open Lib Kernel Thread

def bufsize : Nat := 64

structure IoQueue where
  lock : Lock
  producer : Option Nat
  consumer : Option Nat
  buf : Nat → UInt8
  head : Nat
  tail : Nat

/-- The pointers stored the queue before ioqueue_init do not matter; the buffer is not cleared. -/
def ioqueueInit (q : IoQueue) : IoQueue :=
  { q with lock := lockInit q.lock, producer := none, consumer := none, head := 0, tail := 0 }

def nextPos (pos : Nat) : Nat := (pos + 1) % bufsize

inductive IoOp where
  | getchar
  | putchar (byte : UInt8)
  deriving DecidableEq, Repr

namespace IoQueue

/-- Which of the two fields ioq_wait is given. -/
def waiter (q : IoQueue) : IoOp → Option Nat
  | .getchar => q.consumer
  | .putchar _ => q.producer

def setWaiter (q : IoQueue) (t : Option Nat) : IoOp → IoQueue
  | .getchar => { q with consumer := t }
  | .putchar _ => { q with producer := t }

/-- The test of the loop: the queue is empty, or it is full. -/
def MustWait (q : IoQueue) : IoOp → Prop
  | .getchar => q.head = q.tail
  | .putchar _ => nextPos q.head = q.tail

instance (q : IoQueue) (op : IoOp) : Decidable (q.MustWait op) := by
  cases op <;> exact inferInstanceAs (Decidable (_ = _))

end IoQueue

/-- Where a thread goes on: outside, at the test of the loop, in the sema_down of
lock_acquire, or in the thread_block of ioq_wait. -/
inductive IoPc where
  | out
  | retry (op : IoOp)
  | locking (op : IoOp) (old : IntrStatus)
  | asleep (op : IoOp)
  deriving DecidableEq, Repr

/-- The lists stored and returned record the bytes of the completed calls; no function
reads them. -/
structure IoSys where
  sched : Sched
  queue : IoQueue
  pc : Nat → IoPc
  stored : List UInt8
  returned : List UInt8

namespace IoSys

def goto (s : IoSys) (t : Nat) (p : IoPc) : IoSys := { s with pc := Function.update s.pc t p }

def onQueue (s : IoSys) (f : IoQueue → IoQueue) : IoSys := { s with queue := f s.queue }

def onLock (s : IoSys) (f : Lock → Lock) : IoSys :=
  s.onQueue fun q => { q with lock := f q.lock }

end IoSys

section Parts
variable {α : Type}

def ioSched (c : Kern Sched α) : Kern IoSys α :=
  zoom IoSys.sched (fun s t => { s with sched := t }) c

/-- Running a part of sync.c on the queue's lock. -/
def ioLock (c : Kern LockSys α) : Kern IoSys α :=
  zoom (fun s => ⟨s.sched, s.queue.lock, fun _ => Pc.out, fun _ => 0⟩)
    (fun s t => { s with sched := t.sched, queue := { s.queue with lock := t.lock } }) c

end Parts

def ioThread : Kern IoSys Nat := do
  pure (← get).sched.current

def intrOff : Kern IoSys Unit := do
  assert ((← get).sched.intr = .off)

/-- ioq_empty and ioq_full. -/
def ioqBlocked (op : IoOp) : Kern IoSys Bool := do
  intrOff
  pure (decide ((← get).queue.MustWait op))

def ioqFull : Kern IoSys Bool := ioqBlocked (.putchar 0)

def ioqWait (op : IoOp) : Kern IoSys Unit := do
  let me ← ioThread
  assert ((← get).queue.waiter op = none)
  modify fun s => s.onQueue fun q => q.setWaiter (some me) op
  modify fun s => s.goto me (.asleep op)
  ioSched (threadBlock .blocked)

def wakeup (op : IoOp) : Kern IoSys Unit := do
  assert ((← get).queue.waiter op ≠ none)
  match (← get).queue.waiter op with
  | none => throw .undefined
  | some t => ioSched (threadUnblock t)
  modify fun s => s.onQueue fun q => q.setWaiter none op

/-- One turn of the loop in sema_down. When it ends, the rest of lock_acquire and
ioq_wait follow. -/
def acquireTurn (op : IoOp) (old : IntrStatus) : Kern IoSys Unit := do
  let me ← ioThread
  if (← get).queue.lock.value = 0 then
    assert (me ∉ (← get).queue.lock.waiters)
    modify fun s => s.onLock fun l => { l with waiters := l.waiters ++ [me] }
    modify fun s => s.goto me (.locking op old)
    ioSched (threadBlock .blocked)
  else
    modify fun s => s.onLock fun l => { l with value := l.value - 1 }
    assert ((← get).queue.lock.value = 0)
    ioSched (intrSetStatus old)
    modify fun s => s.onLock fun l => { l with holder := some me }
    assert ((← get).queue.lock.holderRepeatNr = 0)
    modify fun s => s.onLock fun l => { l with holderRepeatNr := 1 }
    ioqWait op

def ioqAcquire (op : IoOp) : Kern IoSys Unit := do
  let me ← ioThread
  if (← get).queue.lock.holder ≠ some me then
    let old ← ioSched intrDisable
    acquireTurn op old
  else
    modify fun s => s.onLock fun l => { l with holderRepeatNr := l.holderRepeatNr + 1 }
    ioqWait op

/-- lock_release at the end of the loop's body. -/
def ioqRelease : Kern IoSys Unit := do
  let me ← ioThread
  assert ((← get).queue.lock.holder = some me)
  if (← get).queue.lock.holderRepeatNr > 1 then
    modify fun s => s.onLock fun l => { l with holderRepeatNr := l.holderRepeatNr - 1 }
  else
    assert ((← get).queue.lock.holderRepeatNr = 1)
    modify fun s => s.onLock fun l => { l with holder := none }
    modify fun s => s.onLock fun l => { l with holderRepeatNr := 0 }
    ioLock semaUp

/-- Taking the byte at the tail, or putting one at the head. -/
def ioqMove : IoOp → Kern IoSys Unit
  | .getchar => do
    let q := (← get).queue
    let byte := q.buf q.tail
    modify fun s => s.onQueue fun q => { q with tail := nextPos q.tail }
    modify fun s => { s with returned := s.returned ++ [byte] }
  | .putchar byte => do
    modify fun s => s.onQueue fun q => { q with buf := Function.update q.buf q.head byte }
    modify fun s => s.onQueue fun q => { q with head := nextPos q.head }
    modify fun s => { s with stored := s.stored ++ [byte] }

/-- The side a finished call wakes. -/
def IoOp.other : IoOp → IoOp
  | .getchar => .putchar 0
  | .putchar _ => .getchar

/-- The test of the loop and what follows it: the loop's body up to where the thread
leaves the processor, or the rest of the call. -/
def ioqTurn (op : IoOp) : Kern IoSys Unit := do
  if ← ioqBlocked op then
    ioqAcquire op
  else
    ioqMove op
    if (← get).queue.waiter op.other ≠ none then
      wakeup op.other
    let me ← ioThread
    modify fun s => s.goto me .out

/-- ioq_getchar and ioq_putchar. -/
def ioqCall (op : IoOp) : Kern IoSys Unit := do
  intrOff
  ioqTurn op

/-- The running thread goes on inside its call. -/
def ioqResume : Kern IoSys Unit := do
  let me ← ioThread
  match (← get).pc me with
  | .out => pure ()
  | .retry op => ioqTurn op
  | .locking op old => acquireTurn op old
  | .asleep op =>
    ioqRelease
    modify fun s => s.goto me (.retry op)

/-- The keyboard interrupt handler with a character for the queue, in whatever thread
it interrupts. -/
def intrKeyboard (byte : UInt8) : Kern IoSys Unit := do
  let old ← ioSched intrDisable
  if !(← ioqFull) then
    ioqCall (.putchar byte)
  ioSched (intrSetStatus old)

inductive IoEvent where
  | preempt
  | idle
  | enable
  | disable
  | keyboard (byte : UInt8)
  | call (op : IoOp)
  | resume
  deriving DecidableEq, Repr

/-- A thread calls with interrupts off and is inside from then on; the idle thread makes
no calls, and interrupts come whenever they are on. -/
def IoAllowed (s : IoSys) : IoEvent → Prop
  | .preempt | .keyboard _ => s.sched.intr = .on
  | .idle => s.sched.current = s.sched.idleThread
  | .enable | .disable => s.pc s.sched.current = .out
  | .call _ => s.sched.current ≠ s.sched.idleThread ∧ s.pc s.sched.current = .out ∧
      s.sched.intr = .off
  | .resume => s.pc s.sched.current ≠ .out

def ioPerform : IoEvent → Kern IoSys Unit
  | .preempt => ioSched preempt
  | .idle => ioSched (threadBlock .blocked)
  | .enable => ioSched (intrSetStatus .on)
  | .disable => ioSched (intrSetStatus .off)
  | .keyboard byte => intrKeyboard byte
  | .call op => ioqCall op
  | .resume => ioqResume

def IoStep (s t : IoSys) : Prop := ∃ e, IoAllowed s e ∧ ioPerform e s = .ok ((), t)

/-- A scheduler in good order, the queue as ioqueue_init leaves it, and every thread
outside. -/
structure IoStart (s : IoSys) : Prop where
  sched : Inv s.sched
  queue : ∃ q, s.queue = ioqueueInit q
  pc : ∀ t, s.pc t = .out
  stored : s.stored = []
  returned : s.returned = []

end Zhenxiang.Device
