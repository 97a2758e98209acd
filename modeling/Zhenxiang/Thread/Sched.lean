import Zhenxiang.Kernel.Debug

/-! The scheduler of thread.c and the timer interrupt of timer.c. A thread is
named by the address of its PCB; the two lists hold general_tag and all_list_tag
as those addresses. -/
namespace Zhenxiang.Thread
open Lib Kernel

inductive TaskStatus where
  | running
  | ready
  | blocked
  | waiting
  | hanging
  | died
  deriving DecidableEq, Repr

/-- The fields of task_struct the scheduler uses. The interrupt status the thread
puts back when switch_to returns to it lies on its kernel stack. -/
structure Task where
  status : TaskStatus
  priority : UInt8
  ticks : UInt8
  elapsedTicks : UInt32
  stackMagic : UInt32
  oldStatus : IntrStatus
  deriving Repr

/-- The variable threads lists the PCBs made so far; no function reads it. -/
structure Sched where
  task : Nat → Task
  threads : List Nat
  current : Nat
  intr : IntrStatus
  mainThread : Nat
  idleThread : Nat
  threadReadyList : List Nat
  threadAllList : List Nat
  ticks : UInt32

namespace Sched

def onTask (s : Sched) (t : Nat) (f : Task → Task) : Sched :=
  { s with task := Function.update s.task t (f (s.task t)) }

def setStatus (s : Sched) (t : Nat) (stat : TaskStatus) : Sched :=
  s.onTask t fun p => { p with status := stat }

def setOldStatus (s : Sched) (t : Nat) (old : IntrStatus) : Sched :=
  s.onTask t fun p => { p with oldStatus := old }

end Sched

/-- The three statuses in which a thread waits off the ready list. -/
def Asleep (stat : TaskStatus) : Prop := stat = .blocked ∨ stat = .waiting ∨ stat = .hanging

instance (stat : TaskStatus) : Decidable (Asleep stat) :=
  inferInstanceAs (Decidable (_ ∨ _))

def intrDisable : Kern Sched IntrStatus := do
  let s ← get
  set { s with intr := .off }
  pure s.intr

def intrSetStatus (status : IntrStatus) : Kern Sched Unit :=
  modify fun s => { s with intr := status }

def stackMagicNumber : UInt32 := 0x19870916

/-- The PCB page is cleared first, so every field not named here is zero. -/
def initThread (pthread : Nat) (prio : UInt8) : Kern Sched Unit :=
  modify fun s => s.onTask pthread fun p =>
    { p with
      status := if pthread = s.mainThread then .running else .ready
      priority := prio
      ticks := prio
      elapsedTicks := 0
      stackMagic := stackMagicNumber }

/-- The stack built here returns into kernel_thread, which enables interrupts. -/
def threadCreate (pthread : Nat) : Kern Sched Unit :=
  modify fun s => s.setOldStatus pthread .on

/-- The two list_append calls with their ASSERTs, shared by thread_start and
process_execute. -/
def enlist (thread : Nat) : Kern Sched Unit := do
  assert (thread ∉ (← get).threadReadyList)
  modify fun s => { s with threadReadyList := s.threadReadyList ++ [thread] }
  assert (thread ∉ (← get).threadAllList)
  modify fun s => { s with threadAllList := s.threadAllList ++ [thread],
                           threads := s.threads ++ [thread] }

/-- The argument thread is the page get_kernel_pages returns. -/
def threadStart (thread : Nat) (prio : UInt8) : Kern Sched Unit := do
  initThread thread prio
  threadCreate thread
  enlist thread

def defaultPrio : UInt8 := 31

def processExecute (thread : Nat) : Kern Sched Unit := do
  initThread thread defaultPrio
  threadCreate thread
  let old ← intrDisable
  enlist thread
  intrSetStatus old

def makeMainThread : Kern Sched Unit := do
  modify fun s => { s with mainThread := s.current }
  let main := (← get).mainThread
  initThread main 31
  assert (main ∉ (← get).threadAllList)
  modify fun s => { s with threadAllList := s.threadAllList ++ [main],
                           threads := s.threads ++ [main] }

/-- The argument idle is the page thread_start gets for the idle thread. -/
def threadInit (idle : Nat) : Kern Sched Unit := do
  modify fun s => { s with threadReadyList := [], threadAllList := [], threads := [] }
  makeMainThread
  threadStart idle 10
  modify fun s => { s with idleThread := idle }

def threadUnblock (pthread : Nat) : Kern Sched Unit := do
  let old ← intrDisable
  assert (Asleep ((← get).task pthread).status)
  if ((← get).task pthread).status ≠ .ready then
    assert (pthread ∉ (← get).threadReadyList)
    modify fun s => { s with threadReadyList := pthread :: s.threadReadyList }
    modify fun s => s.setStatus pthread .ready
  intrSetStatus old

/-- A thread whose time is up goes to the tail of the ready list; one that blocks
or yields has been dealt with by its caller. -/
def requeueCurrent : Kern Sched Unit := do
  let cur := (← get).current
  if ((← get).task cur).status = .running then
    assert (cur ∉ (← get).threadReadyList)
    modify fun s => { s with threadReadyList := s.threadReadyList ++ [cur] }
    modify fun s => s.onTask cur fun p => { p with ticks := p.priority, status := .ready }

/-- Popping the empty list would hand out the list's own tail as a thread. -/
def listPop : Kern Sched Nat := do
  match (← get).threadReadyList with
  | [] => throw .undefined
  | t :: rest =>
    modify fun s => { s with threadReadyList := rest }
    pure t

/-- The thread next goes on where it left the processor, and there puts back the
interrupt status it saved. -/
def switchTo (next : Nat) : Kern Sched Unit :=
  modify fun s => { s with current := next, intr := (s.task next).oldStatus }

/-- If no thread is ready the idle thread is woken. -/
def wakeIdle : Kern Sched Unit := do
  if (← get).threadReadyList = [] then
    threadUnblock (← get).idleThread

def dispatchNext : Kern Sched Unit := do
  assert ((← get).threadReadyList ≠ [])
  let next ← listPop
  modify fun s => s.setStatus next .running
  switchTo next

def schedule : Kern Sched Unit := do
  assert ((← get).intr = .off)
  requeueCurrent
  wakeIdle
  dispatchNext

def threadBlock (stat : TaskStatus) : Kern Sched Unit := do
  assert (Asleep stat)
  let old ← intrDisable
  let cur := (← get).current
  modify fun s => (s.setStatus cur stat).setOldStatus cur old
  schedule

def threadYield : Kern Sched Unit := do
  let cur := (← get).current
  let old ← intrDisable
  assert (cur ∉ (← get).threadReadyList)
  modify fun s => { s with threadReadyList := s.threadReadyList ++ [cur] }
  modify fun s => (s.setStatus cur .ready).setOldStatus cur old
  schedule

/-- The handler runs with interrupts off, behind an interrupt gate; leaving it
restores the flags of the interrupted thread. -/
def intrTimerHandler : Kern Sched Unit := do
  let old ← intrDisable
  let cur := (← get).current
  modify fun s => s.setOldStatus cur old
  assert (((← get).task cur).stackMagic = stackMagicNumber)
  modify fun s => s.onTask cur fun p => { p with elapsedTicks := p.elapsedTicks + 1 }
  modify fun s => { s with ticks := s.ticks + 1 }
  if ((← get).task cur).ticks = 0 then
    schedule
  else
    modify fun s => s.onTask cur fun p => { p with ticks := p.ticks - 1 }
    intrSetStatus old

end Zhenxiang.Thread
