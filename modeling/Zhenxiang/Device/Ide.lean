import Zhenxiang.Thread.Sync

/-! ide_read and ide_write of ide.c on the two disks of one channel, run by any number of
threads, with the interrupt handler of the channel. The code of sync.c under intr_disable is
one step; the rest is cut at every access to the channel, and the timer and the disk may
interrupt between any two steps. The registers other than the status are not kept. -/
namespace Zhenxiang.Device
open Lib Kernel Thread

structure Semaphore where
  value : UInt8
  waiters : List Nat

/-- The semaphore in the lock of the channel, and its disk_done. -/
inductive Sema where
  | lock
  | diskDone
  deriving DecidableEq, Repr

/-- The arguments and local variables of a call. -/
structure Job where
  write : Bool
  lba : UInt32
  secCnt : UInt32
  secsOp : UInt32
  secsDone : UInt32
  timeLimit : UInt16
  startTick : UInt32

/-- Where a thread goes on in ide_read or ide_write. -/
inductive Place where
  | out
  -- lock_acquire
  | down
  | retest (old : IntrStatus)
  | setHolder
  | checkNr
  | setNr
  | incr
  -- the loop, with the two statements of cmd_out
  | loop
  | flag
  | command
  | busy
  | nap
  | await
  | reawait (old : IntrStatus)
  | next
  -- lock_release
  | release
  | testNr
  | decr
  | checkOne
  | clearHolder
  | clearNr
  | up
  deriving DecidableEq, Repr

/-- What has happened on the channel: the thread sets expecting_intr, it writes the command
register, an interrupt is accepted, the thread's sema_down of disk_done returns. -/
inductive IdeLog where
  | flag (t : Nat)
  | command (t : Nat)
  | interrupt
  | done (t : Nat)
  deriving DecidableEq, Repr

/-- The log has its latest entry first; no function reads it. -/
structure IdeSys where
  sched : Sched
  holder : Option Nat
  holderRepeatNr : UInt32
  sema : Sema → Semaphore
  expectingIntr : Bool
  place : Nat → Place
  job : Nat → Job
  log : List IdeLog

namespace IdeSys

def goto (s : IdeSys) (t : Nat) (p : Place) : IdeSys := { s with place := Function.update s.place t p }

def onJob (s : IdeSys) (t : Nat) (f : Job → Job) : IdeSys :=
  { s with job := Function.update s.job t (f (s.job t)) }

def onSema (s : IdeSys) (k : Sema) (f : Semaphore → Semaphore) : IdeSys :=
  { s with sema := Function.update s.sema k (f (s.sema k)) }

def record (s : IdeSys) (e : IdeLog) : IdeSys := { s with log := e :: s.log }

end IdeSys

def maxLba : UInt32 := 80 * 1024 * 1024 / 512 - 1
def bitStatBsy : UInt8 := 0x80
def bitStatDrq : UInt8 := 0x8

def ideSched {α : Type} (c : Kern Sched α) : Kern IdeSys α :=
  zoom IdeSys.sched (fun s t => { s with sched := t }) c

def ideThread : Kern IdeSys Nat := do
  pure (← get).sched.current

/-- One turn of the loop in sema_down: whether it has ended. -/
def semaTurn (k : Sema) (old : IntrStatus) (parked : Place) : Kern IdeSys Bool := do
  let me ← ideThread
  if ((← get).sema k).value = 0 then
    assert (me ∉ ((← get).sema k).waiters)
    modify fun s => s.onSema k fun q => { q with waiters := q.waiters ++ [me] }
    modify fun s => s.goto me parked
    ideSched (threadBlock .blocked)
    pure false
  else
    modify fun s => s.onSema k fun q => { q with value := q.value - 1 }
    assert (((← get).sema k).value = 0)
    ideSched (intrSetStatus old)
    pure true

def wakeFirst (k : Sema) : Kern IdeSys Unit := do
  match ((← get).sema k).waiters with
  | [] => pure ()
  | w :: rest =>
    modify fun s => s.onSema k fun q => { q with waiters := rest }
    ideSched (threadUnblock w)

def ideSemaUp (k : Sema) : Kern IdeSys Unit := do
  let old ← ideSched intrDisable
  assert (((← get).sema k).value = 0)
  wakeFirst k
  modify fun s => s.onSema k fun q => { q with value := q.value + 1 }
  assert (((← get).sema k).value = 1)
  ideSched (intrSetStatus old)

/-- intr_hd_handler, entered through an interrupt gate. -/
def intrHdHandler : Kern IdeSys Unit := do
  let old ← ideSched intrDisable
  if (← get).expectingIntr then
    modify fun s => { s with expectingIntr := false }
    modify fun s => s.record .interrupt
    ideSemaUp .diskDone
  ideSched (intrSetStatus old)

/-- The start of a call: its ASSERTs, and the comparison in lock_acquire. -/
def ideCall (write : Bool) (lba secCnt : UInt32) : Kern IdeSys Unit := do
  let me ← ideThread
  assert (lba ≤ maxLba)
  assert (secCnt > 0)
  modify fun s => s.onJob me fun _ => ⟨write, lba, secCnt, 0, 0, 0, 0⟩
  if (← get).holder ≠ some me then
    modify fun s => s.goto me .down
  else
    modify fun s => s.goto me .incr

/-- busy_wait starts with 30000 turns: 10 >= 0 is what is taken off. -/
def enterBusy (me : Nat) : Kern IdeSys Unit := do
  modify fun s => s.onJob me fun j => { j with timeLimit := 30 * 1000 }
  modify fun s => s.goto me .busy

/-- A turn of the loop in busy_wait, with what the status register holds at each of the two
reads. When it fails the caller panics. -/
def busyTurn (me : Nat) (bsy drq : UInt8) : Kern IdeSys Unit := do
  modify fun s => s.onJob me fun j => { j with timeLimit := j.timeLimit - 1 }
  if ((← get).job me).timeLimit ≠ 0 then
    if bsy &&& bitStatBsy = 0 then
      if drq &&& bitStatDrq ≠ 0 then
        if ((← get).job me).write then
          modify fun s => s.goto me .await
        else
          modify fun s => s.goto me .next
      else
        throw .diverges
    else
      modify fun s => s.onJob me fun j => { j with startTick := s.sched.ticks }
      modify fun s => s.goto me .nap
  else
    throw .diverges

/-- What follows sema_down of disk_done. -/
def awaited (me : Nat) : Kern IdeSys Unit := do
  modify fun s => s.record (.done me)
  if ((← get).job me).write then
    modify fun s => s.goto me .next
  else
    enterBusy me

/-- The next step of the running thread inside its call. -/
def ideAdvance (bsy drq : UInt8) : Kern IdeSys Unit := do
  let me ← ideThread
  match (← get).place me with
  | .out => pure ()
  | .down =>
    let old ← ideSched intrDisable
    if ← semaTurn .lock old (.retest old) then
      modify fun s => s.goto me .setHolder
  | .retest old =>
    if ← semaTurn .lock old (.retest old) then
      modify fun s => s.goto me .setHolder
  | .setHolder =>
    modify fun s => { s with holder := some me }
    modify fun s => s.goto me .checkNr
  | .checkNr =>
    assert ((← get).holderRepeatNr = 0)
    modify fun s => s.goto me .setNr
  | .setNr =>
    modify fun s => { s with holderRepeatNr := 1 }
    modify fun s => s.goto me .loop
  | .incr =>
    modify fun s => { s with holderRepeatNr := s.holderRepeatNr + 1 }
    modify fun s => s.goto me .loop
  | .loop =>
    let j := (← get).job me
    if j.secsDone < j.secCnt then
      modify fun s => s.onJob me fun j =>
        { j with secsOp := if j.secsDone + 256 ≤ j.secCnt then 256 else j.secCnt - j.secsDone }
      assert (j.lba + j.secsDone ≤ maxLba)
      modify fun s => s.goto me .flag
    else
      modify fun s => s.goto me .release
  | .flag =>
    modify fun s => { s with expectingIntr := true }
    modify fun s => s.record (.flag me)
    modify fun s => s.goto me .command
  | .command =>
    modify fun s => s.record (.command me)
    if ((← get).job me).write then
      enterBusy me
    else
      modify fun s => s.goto me .await
  | .busy => busyTurn me bsy drq
  | .nap =>
    if (← get).sched.ticks - ((← get).job me).startTick < 1 then
      ideSched threadYield
    else
      modify fun s => s.goto me .busy
  | .await =>
    let old ← ideSched intrDisable
    if ← semaTurn .diskDone old (.reawait old) then
      awaited me
  | .reawait old =>
    if ← semaTurn .diskDone old (.reawait old) then
      awaited me
  | .next =>
    modify fun s => s.onJob me fun j => { j with secsDone := j.secsDone + j.secsOp }
    modify fun s => s.goto me .loop
  | .release =>
    assert ((← get).holder = some me)
    modify fun s => s.goto me .testNr
  | .testNr =>
    if (← get).holderRepeatNr > 1 then
      modify fun s => s.goto me .decr
    else
      modify fun s => s.goto me .checkOne
  | .decr =>
    modify fun s => { s with holderRepeatNr := s.holderRepeatNr - 1 }
    modify fun s => s.goto me .out
  | .checkOne =>
    assert ((← get).holderRepeatNr = 1)
    modify fun s => s.goto me .clearHolder
  | .clearHolder =>
    modify fun s => { s with holder := none }
    modify fun s => s.goto me .clearNr
  | .clearNr =>
    modify fun s => { s with holderRepeatNr := 0 }
    modify fun s => s.goto me .up
  | .up =>
    ideSemaUp .lock
    modify fun s => s.goto me .out

inductive IdeEvent where
  | preempt
  | idle
  | enable
  | disable
  | interrupt
  | call (write : Bool) (lba secCnt : UInt32)
  | advance (bsy drq : UInt8)
  deriving DecidableEq, Repr

/-- The timer and the disk interrupt whenever interrupts are on; the idle thread calls
nothing. -/
def IdeAllowed (s : IdeSys) : IdeEvent → Prop
  | .preempt | .interrupt => s.sched.intr = .on
  | .idle => s.sched.current = s.sched.idleThread
  | .enable | .disable => s.place s.sched.current = .out
  | .call .. => s.sched.current ≠ s.sched.idleThread ∧ s.place s.sched.current = .out
  | .advance .. => s.place s.sched.current ≠ .out

instance (s : IdeSys) (e : IdeEvent) : Decidable (IdeAllowed s e) := by
  cases e <;> unfold IdeAllowed <;> infer_instance

def idePerform : IdeEvent → Kern IdeSys Unit
  | .preempt => ideSched preempt
  | .idle => ideSched (threadBlock .blocked)
  | .enable => ideSched (intrSetStatus .on)
  | .disable => ideSched (intrSetStatus .off)
  | .interrupt => intrHdHandler
  | .call write lba secCnt => ideCall write lba secCnt
  | .advance bsy drq => ideAdvance bsy drq

def IdeStep (s t : IdeSys) : Prop := ∃ e, IdeAllowed s e ∧ idePerform e s = .ok ((), t)

/-- A scheduler in good order, and the channel as ide_init leaves it. -/
structure IdeStart (s : IdeSys) : Prop where
  sched : Inv s.sched
  holder : s.holder = none
  holderRepeatNr : s.holderRepeatNr = 0
  lock : s.sema .lock = ⟨1, []⟩
  diskDone : s.sema .diskDone = ⟨0, []⟩
  expectingIntr : s.expectingIntr = false
  place : ∀ t, s.place t = .out
  log : s.log = []

end Zhenxiang.Device
