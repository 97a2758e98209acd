import Zhenxiang.Lib.Stack
import Zhenxiang.Kernel.List

/-! The registers of a task on their way into the kernel and back: syscall_handler and intr_exit
of kernel.S, switch_to of switch.S, and the stacks that fork.c, thread_create and
start_process build by hand. Memory holds words, and a PCB is the page its kernel stack is
in. -/
namespace Zhenxiang.Switch
open Lib Kernel

structure Context where
  eax : Nat
  ecx : Nat
  edx : Nat
  ebx : Nat
  ebp : Nat
  esi : Nat
  edi : Nat
  gs : UInt16
  fs : UInt16
  es : UInt16
  ds : UInt16
  eip : Nat
  cs : UInt16
  eflags : Nat
  esp : Nat
  ss : UInt16
  deriving DecidableEq

structure Cpu where
  regs : Context
  mem : Mem

namespace Cpu

def push (c : Cpu) (w : Nat) : Cpu where
  regs := { c.regs with esp := c.regs.esp - 4 }
  mem := Function.update c.mem (c.regs.esp - 4) w

/-- The word on top of the stack goes where put says. -/
def pop (c : Cpu) (put : Context → Nat → Context) : Cpu :=
  { c with regs := { put c.regs (c.mem c.regs.esp) with esp := c.regs.esp + 4 } }

/-- add esp, n. -/
def addEsp (c : Cpu) (n : Nat) : Cpu := { c with regs := { c.regs with esp := c.regs.esp + n } }

/-- Pushing the words one after the other. -/
def pushes (c : Cpu) (ws : List Nat) : Cpu := ws.foldl push c

def pushad (c : Cpu) : Cpu :=
  let r := c.regs
  c.pushes [r.eax, r.ecx, r.edx, r.ebx, r.esp, r.ebp, r.esi, r.edi]

/-- The word pushed for esp is skipped. -/
def popad (c : Cpu) : Cpu :=
  let c := c.pop fun r w => { r with edi := w }
  let c := c.pop fun r w => { r with esi := w }
  let c := c.pop fun r w => { r with ebp := w }
  let c := c.pop fun r _ => r
  let c := c.pop fun r w => { r with ebx := w }
  let c := c.pop fun r w => { r with edx := w }
  let c := c.pop fun r w => { r with ecx := w }
  c.pop fun r w => { r with eax := w }

/-- iretd to the outer privilege level. -/
def iretd (c : Cpu) : Cpu :=
  let c := c.pop fun r w => { r with eip := w }
  let c := c.pop fun r w => { r with cs := UInt16.ofNat w }
  let c := c.pop fun r w => { r with eflags := w }
  let esp := c.mem c.regs.esp
  let ss := c.mem (c.regs.esp + 4)
  { c with regs := { c.regs with esp := esp, ss := UInt16.ofNat ss } }

end Cpu

def selectorKCode : UInt16 := 8
def selectorKStack : UInt16 := 16
def selectorUCode : UInt16 := 43
def selectorUData : UInt16 := 51

/-- int 0x80 in user mode: the processor goes to the stack esp0 of the tss, through an
interrupt gate. -/
def int80 (c : Cpu) (esp0 handler : Nat) : Cpu :=
  let u := c.regs
  let c := { c with regs := { u with
    esp := esp0, ss := selectorKStack, cs := selectorKCode, eip := handler, eflags := u.eflags &&& 0xfffcbcff } }
  c.pushes [u.ss.toNat, u.esp, u.eflags, u.cs.toNat, u.eip]

/-- syscall_handler up to the call of the function, which pushes a return address. -/
def syscallHandler (c : Cpu) (retAddr : Nat) : Cpu :=
  let r := c.regs
  let c := (c.pushes [0, r.ds.toNat, r.es.toNat, r.fs.toNat, r.gs.toNat]).pushad
  let c := c.push 0x80
  c.pushes [r.edx, r.ecx, r.ebx, retAddr]

def intrExit (c : Cpu) : Cpu :=
  let c := (c.addEsp 4).popad
  let c := c.pop fun r w => { r with gs := UInt16.ofNat w }
  let c := c.pop fun r w => { r with fs := UInt16.ofNat w }
  let c := c.pop fun r w => { r with es := UInt16.ofNat w }
  let c := c.pop fun r w => { r with ds := UInt16.ofNat w }
  (c.addEsp 4).iretd

/-- syscall_handler after the call. -/
def syscallReturn (c : Cpu) : Cpu :=
  let c := c.addEsp 12
  intrExit { c with mem := Function.update c.mem (c.regs.esp + 8 * 4) c.regs.eax }

/-- struct intr_stack. -/
structure IntrStack where
  vecNo : Nat
  edi : Nat
  esi : Nat
  ebp : Nat
  espDummy : Nat
  ebx : Nat
  edx : Nat
  ecx : Nat
  eax : Nat
  gs : Nat
  fs : Nat
  es : Nat
  ds : Nat
  errCode : Nat
  eip : Nat
  cs : Nat
  eflags : Nat
  esp : Nat
  ss : Nat

def sizeofIntrStack : Nat := 76
def sizeofThreadStack : Nat := 32

def IntrStack.words (f : IntrStack) : List Nat :=
  [f.vecNo, f.edi, f.esi, f.ebp, f.espDummy, f.ebx, f.edx, f.ecx, f.eax, f.gs, f.fs, f.es, f.ds, f.errCode,
    f.eip, f.cs, f.eflags, f.esp, f.ss]

/-- The registers a frame stands for. -/
def IntrStack.context (f : IntrStack) : Context where
  eax := f.eax
  ecx := f.ecx
  edx := f.edx
  ebx := f.ebx
  ebp := f.ebp
  esi := f.esi
  edi := f.edi
  gs := UInt16.ofNat f.gs
  fs := UInt16.ofNat f.fs
  es := UInt16.ofNat f.es
  ds := UInt16.ofNat f.ds
  eip := f.eip
  cs := UInt16.ofNat f.cs
  eflags := f.eflags
  esp := f.esp
  ss := UInt16.ofNat f.ss

/-- The frame of a system call made with these registers. -/
def callFrame (u : Context) (esp0 : Nat) : IntrStack where
  vecNo := 0x80
  edi := u.edi
  esi := u.esi
  ebp := u.ebp
  espDummy := esp0 - 40
  ebx := u.ebx
  edx := u.edx
  ecx := u.ecx
  eax := u.eax
  gs := u.gs.toNat
  fs := u.fs.toNat
  es := u.es.toNat
  ds := u.ds.toNat
  errCode := 0
  eip := u.eip
  cs := u.cs.toNat
  eflags := u.eflags
  esp := u.esp
  ss := u.ss.toNat

variable {c : Cpu} {f : IntrStack}

/-- intr_exit takes a frame apart in the order of its fields. -/
theorem intrExit_regs (h : Lies c.mem c.regs.esp f.words) : (intrExit c).regs = f.context := by
  simp only [IntrStack.words, Lies] at h
  obtain ⟨-, edi, esi, ebp, -, ebx, edx, ecx, eax, gs, fs, es, ds, -, eip, cs, eflags, esp, ss, -⟩ := h
  simp only [intrExit, Cpu.addEsp, Cpu.popad, Cpu.pop, Cpu.iretd, edi, esi, ebp, ebx, edx, ecx, eax, gs, fs,
    es, ds, eip, cs, eflags, esp, ss, IntrStack.context]

theorem Cpu.pushes_mem (c : Cpu) (ws : List Nat) (room : 4 * ws.length ≤ c.regs.esp) {x : Nat}
    (hx : x < c.regs.esp - 4 * ws.length ∨ c.regs.esp ≤ x) : (c.pushes ws).mem x = c.mem x := by
  induction ws generalizing c with
  | nil => rfl
  | cons w ws ih =>
    simp only [List.length_cons] at room hx
    have esp : (c.push w).regs.esp = c.regs.esp - 4 := rfl
    apply (ih (c.push w) (by omega) (by omega)).trans
    exact Function.update_of_ne (by omega) ..

/-- What lies on the stack up to its base esp0. -/
abbrev Stacked (c : Cpu) (esp0 : Nat) (ws : List Nat) : Prop := Pushed c.mem c.regs.esp esp0 ws

theorem Cpu.pushes_regs (c : Cpu) (ws : List Nat) :
    (c.pushes ws).regs = { c.regs with esp := c.regs.esp - 4 * ws.length } := by
  induction ws generalizing c with
  | nil => rfl
  | cons w ws ih =>
    have rest := ih (c.push w)
    have esp : c.regs.esp - 4 - 4 * ws.length = c.regs.esp - 4 * (ws.length + 1) := by omega
    rw [List.length_cons, ← esp]
    exact rest

theorem Cpu.pushes_stacked {esp0 : Nat} {ws : List Nat} (vs : List Nat) (h : Stacked c esp0 ws)
    (room : 4 * (vs.length + ws.length) ≤ esp0) : Stacked (c.pushes vs) esp0 (vs.reverse ++ ws) := by
  induction vs generalizing c ws with
  | nil => exact h
  | cons v vs ih =>
    simp only [List.length_cons] at room
    have first : Stacked (c.push v) esp0 (v :: ws) := Pushed.push h v (by omega)
    have rest := ih first (by rw [List.length_cons]; omega)
    rwa [List.reverse_cons, List.append_assoc]

/-- When the function is called there lie a return address, its three arguments and the frame. -/
theorem syscallHandler_stacked (c : Cpu) (esp0 handler retAddr : Nat) (room : 4096 ≤ esp0) :
    Stacked (syscallHandler (int80 c esp0 handler) retAddr) esp0
      (retAddr :: c.regs.ebx :: c.regs.ecx :: c.regs.edx :: (callFrame c.regs esp0).words) := by
  have entered := Cpu.pushes_stacked
    [c.regs.ss.toNat, c.regs.esp, c.regs.eflags, c.regs.cs.toNat, c.regs.eip]
    (c := { c with regs := { c.regs with
      esp := esp0, ss := selectorKStack, cs := selectorKCode, eip := handler,
      eflags := c.regs.eflags &&& 0xfffcbcff } }) (Pushed.start _ _) (by simp; omega)
  have regs := Cpu.pushes_regs { c with regs := { c.regs with
      esp := esp0, ss := selectorKStack, cs := selectorKCode, eip := handler,
      eflags := c.regs.eflags &&& 0xfffcbcff } }
    [c.regs.ss.toNat, c.regs.esp, c.regs.eflags, c.regs.cs.toNat, c.regs.eip]
  unfold int80
  generalize Cpu.pushes _ _ = d at entered regs ⊢
  have segments := Cpu.pushes_stacked
    [0, d.regs.ds.toNat, d.regs.es.toNat, d.regs.fs.toNat, d.regs.gs.toNat] entered (by simp; omega)
  have regs' := Cpu.pushes_regs d [0, d.regs.ds.toNat, d.regs.es.toNat, d.regs.fs.toNat, d.regs.gs.toNat]
  unfold syscallHandler
  dsimp only
  generalize Cpu.pushes d _ = e at segments regs' ⊢
  have general := Cpu.pushes_stacked [e.regs.eax, e.regs.ecx, e.regs.edx, e.regs.ebx, e.regs.esp, e.regs.ebp,
    e.regs.esi, e.regs.edi] segments (by simp; omega)
  unfold Cpu.pushad
  dsimp only
  generalize Cpu.pushes e _ = g at general ⊢
  have vector : Stacked (g.push 0x80) esp0 _ := Pushed.push general 0x80 (by simp; omega)
  have called := Cpu.pushes_stacked [d.regs.edx, d.regs.ecx, d.regs.ebx, retAddr] vector (by simp; omega)
  have dummy : esp0 - 4 * 5 - 4 * 5 = esp0 - 40 := by omega
  simp only [regs', regs, List.length_cons, List.length_nil, Nat.zero_add, Nat.reduceAdd, dummy] at called ⊢
  exact called

/-- A C function called with a return address and n words of arguments on the stack returns r:
it removes the return address, and what lies above the arguments is as it was. -/
structure Returned (before after : Cpu) (n esp0 r : Nat) : Prop where
  esp : after.regs.esp = before.regs.esp + 4
  eax : after.regs.eax = r
  frame : ∀ x, before.regs.esp + 4 + 4 * n ≤ x → x < esp0 → after.mem x = before.mem x

/-- The frame is still there when the function has returned. -/
theorem Returned.lies {c after : Cpu} {esp0 handler retAddr r : Nat} (room : 4096 ≤ esp0)
    (h : Returned (syscallHandler (int80 c esp0 handler) retAddr) after 3 esp0 r) :
    after.regs.esp + 12 + sizeofIntrStack = esp0 ∧
      Lies after.mem (after.regs.esp + 12) (callFrame c.regs esp0).words := by
  have stacked := syscallHandler_stacked c esp0 handler retAddr room
  have base := stacked.base
  simp only [List.length_cons, IntrStack.words, List.length_nil] at base
  have esp := h.esp
  refine ⟨by simp only [sizeofIntrStack]; omega, ?_⟩
  have words := stacked.lies.2.2.2.2
  have here : after.regs.esp + 12 = (syscallHandler (int80 c esp0 handler) retAddr).regs.esp + 4 + 4 + 4 + 4 := by
    omega
  rw [here]
  apply words.congr
  intro x hx hx'
  simp only [IntrStack.words, List.length_cons, List.length_nil] at hx'
  exact h.frame x (by omega) (by omega)

theorem syscallReturn_regs {esp0 r : Nat} {u : Context}
    (h : Lies c.mem (c.regs.esp + 12) (callFrame u esp0).words) (eax : c.regs.eax = r) :
    (syscallReturn c).regs = { u with eax := r } := by
  have stored : Lies (Function.update c.mem (c.regs.esp + 12 + 8 * 4) c.regs.eax) (c.regs.esp + 12)
      { callFrame u esp0 with eax := r }.words := by
    have lies := h.set (i := 8) (by simp [IntrStack.words]) c.regs.eax
    rw [eax] at lies ⊢
    exact lies
  have regs := intrExit_regs (c := { c.addEsp 12 with mem := Function.update c.mem (c.regs.esp + 12 + 8 * 4) c.regs.eax })
    stored
  have exact' : { callFrame u esp0 with eax := r }.context = { u with eax := r } := by
    simp [callFrame, IntrStack.context]
  exact regs.trans exact'

/-- A system call returns to where it was made. -/
theorem syscall_resumes {c after : Cpu} {esp0 handler retAddr r : Nat} (room : 4096 ≤ esp0)
    (h : Returned (syscallHandler (int80 c esp0 handler) retAddr) after 3 esp0 r) :
    (syscallReturn after).regs = { c.regs with eax := r } :=
  syscallReturn_regs (h.lies room).2 h.eax

/-! fork.c and switch.S. -/

/-- sizeof(struct task_struct). -/
def sizeofTaskStruct : Nat := 280

/-- copy_pcb_vaddrbitmap_stack0: the page of the parent with the fields of struct task_struct the
child has of its own. -/
def copyPcb (m : Mem) (child parent : Nat) (fields : Mem) : Mem := fun x =>
  if child ≤ x ∧ x < child + pgSize then
    if x - child < sizeofTaskStruct then fields (x - child) else m (parent + (x - child))
  else m x

/-- The address of intr_exit is a parameter; self_kstack is the first field of the PCB. -/
def buildChildStack (m : Mem) (child exitAddr : Nat) : Mem :=
  let intr0Stack := child + pgSize - sizeofIntrStack
  let m := Function.update m (intr0Stack + 32) 0
  let m := Function.update m (intr0Stack - 4) exitAddr
  let m := Function.update m (intr0Stack - 8) 0
  let m := Function.update m (intr0Stack - 12) 0
  let m := Function.update m (intr0Stack - 16) 0
  let m := Function.update m (intr0Stack - 20) 0
  Function.update m child (intr0Stack - 20)

/-- switch_to(cur, next), called with the return address on top of the stack. -/
def switchTo (c : Cpu) : Cpu :=
  let c := c.pushes [c.regs.esi, c.regs.edi, c.regs.ebx, c.regs.ebp]
  let cur := c.mem (c.regs.esp + 20)
  let m := Function.update c.mem cur c.regs.esp
  let next := m (c.regs.esp + 24)
  let c : Cpu := ⟨{ c.regs with eax := next, esp := m next }, m⟩
  let c := c.pop fun r w => { r with ebp := w }
  let c := c.pop fun r w => { r with ebx := w }
  let c := c.pop fun r w => { r with edi := w }
  let c := c.pop fun r w => { r with esi := w }
  c.pop fun r w => { r with eip := w }

/-- A frame lies on top of the page of a PCB, and below it what switch_to pops. -/
structure ChildStack (m : Mem) (child exitAddr : Nat) (f : IntrStack) : Prop where
  selfKstack : m child = child + pgSize - sizeofIntrStack - 20
  saved : Lies m (child + pgSize - sizeofIntrStack - 20) [0, 0, 0, 0, exitAddr]
  frame : Lies m (child + pgSize - sizeofIntrStack) f.words

/-- The frame of the parent is copied, with 0 for eax. -/
theorem buildChildStack_spec {m : Mem} {parent : Nat} (child exitAddr : Nat) (fields : Mem) (f : IntrStack)
    (lies : Lies m (parent + pgSize - sizeofIntrStack) f.words) :
    ChildStack (buildChildStack (copyPcb m child parent fields) child exitAddr) child exitAddr
      { f with eax := 0 } := by
  have page : pgSize = 4096 := rfl
  have size : sizeofIntrStack = 76 := rfl
  have task : sizeofTaskStruct = 280 := rfl
  have copied : Lies (copyPcb m child parent fields) (child + pgSize - sizeofIntrStack) f.words := by
    apply lies.copy
    intro k hk
    simp only [IntrStack.words, List.length_cons, List.length_nil] at hk
    unfold copyPcb
    rw [if_pos (by omega), if_neg (by omega)]
    congr 1
    omega
  have zeroed := copied.set (i := 8) (by simp [IntrStack.words]) 0
  generalize htop : child + pgSize - sizeofIntrStack = top at zeroed ⊢
  refine ⟨?_, ?_, ?_⟩
  · simp only [buildChildStack, htop]
    exact Function.update_self ..
  · simp only [buildChildStack, htop, Lies, Function.update_apply, and_true]
    refine ⟨?_, ?_, ?_, ?_, ?_⟩
    all_goals
      split_ifs <;> first | rfl | omega
  · rw [htop]
    apply zeroed.congr
    intro x hx _
    simp only [buildChildStack, htop]
    rw [Function.update_of_ne (by omega), Function.update_of_ne (by omega), Function.update_of_ne (by omega),
      Function.update_of_ne (by omega), Function.update_of_ne (by omega), Function.update_of_ne (by omega)]

/-- The task cur calls switch_to(cur, next) on its own kernel stack; the PCBs are two pages. -/
structure Dispatch (c : Cpu) (cur next : Nat) : Prop where
  args : Lies c.mem (c.regs.esp + 4) [cur, next]
  inside : cur + 20 ≤ c.regs.esp
  top : c.regs.esp ≤ cur + pgSize
  apart : cur + pgSize ≤ next ∨ next + pgSize ≤ cur

/-- A task that is dispatched pops what was saved and goes on at the return address. -/
theorem switchTo_spec {c : Cpu} {cur next ebp ebx edi esi eip : Nat} (h : Dispatch c cur next)
    (low : next ≤ c.mem next) (high : c.mem next + 20 ≤ next + pgSize)
    (saved : Lies c.mem (c.mem next) [ebp, ebx, edi, esi, eip]) :
    (switchTo c).regs.eip = eip ∧ (switchTo c).regs.esp = c.mem next + 20 ∧
      ∀ x, next ≤ x → x < next + pgSize → (switchTo c).mem x = c.mem x := by
  obtain ⟨lies, inside, top, apart⟩ := h
  have page : pgSize = 4096 := rfl
  obtain ⟨hcur, hnext, -⟩ := lies
  have regs := Cpu.pushes_regs c [c.regs.esi, c.regs.edi, c.regs.ebx, c.regs.ebp]
  have same : ∀ x, x < c.regs.esp - 16 ∨ c.regs.esp ≤ x →
      (c.pushes [c.regs.esi, c.regs.edi, c.regs.ebx, c.regs.ebp]).mem x = c.mem x := by
    intro x hx
    exact Cpu.pushes_mem c _ (by simp only [List.length_cons, List.length_nil]; omega) hx
  unfold switchTo
  generalize c.pushes [c.regs.esi, c.regs.edi, c.regs.ebx, c.regs.ebp] = d at regs same ⊢
  have esp : d.regs.esp = c.regs.esp - 16 := congrArg Context.esp regs
  have arg1 : d.regs.esp + 20 = c.regs.esp + 4 := by omega
  have arg2 : d.regs.esp + 24 = c.regs.esp + 4 + 4 := by omega
  have first : d.mem (c.regs.esp + 4) = cur := (same _ (by omega)).trans hcur
  have second : Function.update d.mem cur d.regs.esp (c.regs.esp + 4 + 4) = next :=
    (Function.update_of_ne (by omega) ..).trans ((same _ (by omega)).trans hnext)
  have page_same : ∀ x, next ≤ x → x < next + pgSize →
      Function.update d.mem cur d.regs.esp x = c.mem x := by
    intro x hx hx'
    exact (Function.update_of_ne (by omega) ..).trans (same x (by omega))
  have kstack := page_same next (Nat.le_refl _) (by omega)
  obtain ⟨-, -, -, -, ret, -⟩ := saved
  simp only [Cpu.pop, arg1, arg2, first, second, kstack]
  refine ⟨?_, trivial, page_same⟩
  rw [page_same _ (by omega) (by omega)]
  exact ret

/-! thread.c and process.c. -/

/-- self_kstack is a pointer to words, so that it moves by four times the sizes of the two
structures. -/
def kthreadStack (pthread : Nat) : Nat :=
  pthread + pgSize - 4 * sizeofIntrStack - 4 * sizeofThreadStack

/-- init_thread and thread_create, as far as they concern the stack. -/
def threadCreate (m : Mem) (pthread kernelThread function funcArg : Nat) : Mem :=
  let selfKstack := kthreadStack pthread
  let m := Function.update m pthread selfKstack
  let m := Function.update m (selfKstack + 16) kernelThread
  let m := Function.update m (selfKstack + 24) function
  let m := Function.update m (selfKstack + 28) funcArg
  let m := Function.update m selfKstack 0
  let m := Function.update m (selfKstack + 4) 0
  let m := Function.update m (selfKstack + 12) 0
  Function.update m (selfKstack + 8) 0

/-- EFLAGS_IOPL_0 | EFLAGS_MBS | EFLAGS_IF_1. -/
def userEflags : Nat := 0x202

/-- Where start_process puts the frame. -/
def procStack (m : Mem) (cur : Nat) : Nat := m cur + 4 * sizeofThreadStack

/-- The fields start_process stores before it calls get_a_page, by their offsets. -/
def startFields (function : Nat) : List (Nat × Nat) :=
  [(16, 0), (12, 0), (8, 0), (4, 0), (32, 0), (28, 0), (24, 0), (20, 0), (36, 0), (40, selectorUData.toNat),
    (44, selectorUData.toNat), (48, selectorUData.toNat), (56, function), (60, selectorUCode.toNat), (64, userEflags)]

/-- The memory when get_a_page is called. -/
def startMem (m : Mem) (cur function : Nat) : Mem :=
  (startFields function).foldl (fun n w => Function.update n (procStack m cur + w.1) w.2)
    (Function.update m cur (procStack m cur))

/-- start_process(function) of the task cur up to the jump to intr_exit, where get_a_page gives an
address and leaves a memory behind. -/
def startProcess (c : Cpu) (cur function : Nat) (getAPage : Mem → Nat × Mem) : Cpu :=
  let esp := procStack c.mem cur
  let (page, m) := getAPage (startMem c.mem cur function)
  let m := Function.update m (esp + 68) (page + pgSize)
  let m := Function.update m (esp + 72) selectorUData.toNat
  ⟨{ c.regs with esp := esp }, m⟩

/-- The registers start_process stores. -/
def startContext (function page : Nat) : Context where
  eax := 0
  ecx := 0
  edx := 0
  ebx := 0
  ebp := 0
  esi := 0
  edi := 0
  gs := 0
  fs := selectorUData
  es := selectorUData
  ds := selectorUData
  eip := function
  cs := selectorUCode
  eflags := userEflags
  esp := page + pgSize
  ss := selectorUData

/-- The frame start_process builds is what intr_exit loads; get_a_page works on its own part of
the stack, outside the frame. -/
theorem startProcess_regs {c : Cpu} {cur function : Nat} {getAPage : Mem → Nat × Mem}
    (frame : ∀ m x, procStack c.mem cur ≤ x → x < procStack c.mem cur + sizeofIntrStack → (getAPage m).2 x = m x) :
    (intrExit (startProcess c cur function getAPage)).regs =
      startContext function (getAPage (startMem c.mem cur function)).1 := by
  have size : sizeofIntrStack = 76 := rfl
  have stored := frame (startMem c.mem cur function)
  unfold startProcess
  generalize getAPage (startMem c.mem cur function) = page at stored ⊢
  obtain ⟨page, m⟩ := page
  have field : ∀ k < 76, m (procStack c.mem cur + k) = startMem c.mem cur function (procStack c.mem cur + k) :=
    fun k hk => stored _ (Nat.le_add_right _ _) (by omega)
  have lies : Lies (startProcess c cur function fun _ => (page, m)).mem (procStack c.mem cur)
      (IntrStack.words ⟨m (procStack c.mem cur), 0, 0, 0, 0, 0, 0, 0, 0, 0, selectorUData.toNat, selectorUData.toNat,
        selectorUData.toNat, m (procStack c.mem cur + 52), function, selectorUCode.toNat, userEflags, page + pgSize,
        selectorUData.toNat⟩) := by
    simp only [startProcess, IntrStack.words, Lies, Function.update_apply, Nat.add_assoc, Nat.reduceAdd]
    simp [field, startMem, startFields, Function.update_apply]
  have regs := intrExit_regs lies
  exact regs

/-- The first dispatch of a child. -/
theorem child_resumes {c : Cpu} {cur child exitAddr : Nat} {f : IntrStack} (dispatch : Dispatch c cur child)
    (stack : ChildStack c.mem child exitAddr f) : (switchTo c).regs.eip = exitAddr ∧
      (switchTo c).regs.esp = child + pgSize - sizeofIntrStack ∧ (intrExit (switchTo c)).regs = f.context := by
  have page : pgSize = 4096 := rfl
  have size : sizeofIntrStack = 76 := rfl
  have kstack := stack.selfKstack
  have saved := stack.saved
  rw [← kstack] at saved
  obtain ⟨eip, esp, same⟩ := switchTo_spec dispatch (by omega) (by omega) saved
  have top : (switchTo c).regs.esp = child + pgSize - sizeofIntrStack := by omega
  refine ⟨eip, top, intrExit_regs ?_⟩
  rw [top]
  apply stack.frame.congr
  intro x hx hx'
  simp only [IntrStack.words, List.length_cons, List.length_nil] at hx'
  exact same x (by omega) (by omega)

theorem ChildStack.congr {m n : Mem} {child exitAddr : Nat} {f : IntrStack} (h : ChildStack m child exitAddr f)
    (pcb : n child = m child) (same : ∀ x, child + sizeofTaskStruct ≤ x → x < child + pgSize → n x = m x) :
    ChildStack n child exitAddr f := by
  have page : pgSize = 4096 := rfl
  have size : sizeofIntrStack = 76 := rfl
  have task : sizeofTaskStruct = 280 := rfl
  refine ⟨pcb.trans h.selfKstack, h.saved.congr fun x hx hx' => ?_, h.frame.congr fun x hx hx' => ?_⟩
  · simp only [List.length_cons, List.length_nil] at hx'
    exact same x (by omega) (by omega)
  · simp only [IntrStack.words, List.length_cons, List.length_nil] at hx'
    exact same x (by omega) (by omega)

theorem kthreadStack_eq (pthread : Nat) : kthreadStack pthread = pthread + 3664 := by
  simp only [kthreadStack, pgSize, sizeofIntrStack, sizeofThreadStack]
  omega

/-- What lies on the stack of a task that thread_create has made. -/
theorem threadCreate_spec (m : Mem) (pthread kernelThread function funcArg : Nat) :
    threadCreate m pthread kernelThread function funcArg pthread = kthreadStack pthread ∧
      Lies (threadCreate m pthread kernelThread function funcArg) (kthreadStack pthread) [0, 0, 0, 0, kernelThread] ∧
      Lies (threadCreate m pthread kernelThread function funcArg) (kthreadStack pthread + 24) [function, funcArg] := by
  have above := kthreadStack_eq pthread
  generalize hk : kthreadStack pthread = k at above ⊢
  simp only [threadCreate, hk, Lies, Function.update_apply, and_true]
  refine ⟨?_, ⟨?_, ?_, ?_, ?_, ?_⟩, ?_, ?_⟩
  all_goals
    split_ifs <;> first | rfl | omega

theorem callFrame_zero (u : Context) (esp0 : Nat) :
    { callFrame u esp0 with eax := 0 }.context = { u with eax := 0 } := by
  simp [callFrame, IntrStack.context]

/-- A child resumes with the registers of the system call in which it was made. -/
theorem forked_resumes {c d : Cpu} {m fields : Mem} {parent child handler retAddr exitAddr cur : Nat}
    (frame : ∀ x, parent + pgSize - sizeofIntrStack ≤ x → x < parent + pgSize →
      m x = (syscallHandler (int80 c (parent + pgSize) handler) retAddr).mem x)
    (pcb : d.mem child = buildChildStack (copyPcb m child parent fields) child exitAddr child)
    (same : ∀ x, child + sizeofTaskStruct ≤ x → x < child + pgSize →
      d.mem x = buildChildStack (copyPcb m child parent fields) child exitAddr x)
    (dispatch : Dispatch d cur child) :
    (switchTo d).regs.eip = exitAddr ∧ (switchTo d).regs.esp = child + pgSize - sizeofIntrStack ∧
      (intrExit (switchTo d)).regs = { c.regs with eax := 0 } := by
  have page : pgSize = 4096 := rfl
  have size : sizeofIntrStack = 76 := rfl
  have stacked := syscallHandler_stacked c (parent + pgSize) handler retAddr (by omega)
  have base := stacked.base
  have words := stacked.lies.2.2.2.2
  simp only [List.length_cons, IntrStack.words, List.length_nil] at base
  have here : (syscallHandler (int80 c (parent + pgSize) handler) retAddr).regs.esp + 4 + 4 + 4 + 4 =
      parent + pgSize - sizeofIntrStack := by omega
  rw [here] at words
  have lies : Lies m (parent + pgSize - sizeofIntrStack) (callFrame c.regs (parent + pgSize)).words := by
    apply words.congr
    intro x hx hx'
    simp only [IntrStack.words, List.length_cons, List.length_nil] at hx'
    exact frame x hx (by omega)
  have stack := (buildChildStack_spec child exitAddr fields _ lies).congr pcb same
  have resumed := child_resumes dispatch stack
  rwa [callFrame_zero] at resumed

/-- A process starts in kernel_thread with start_process to call, and enters user mode with the
frame start_process builds. -/
theorem process_starts {d e : Cpu} {m : Mem} {pthread kernelThread function filename cur : Nat}
    {getAPage : Mem → Nat × Mem}
    (pcb : d.mem pthread = threadCreate m pthread kernelThread function filename pthread)
    (same : ∀ x, pthread + sizeofTaskStruct ≤ x → x < pthread + pgSize →
      d.mem x = threadCreate m pthread kernelThread function filename x)
    (dispatch : Dispatch d cur pthread) (kstack : e.mem pthread = d.mem pthread)
    (stack : ∀ n x, (switchTo d).regs.esp ≤ x → x < pthread + pgSize → (getAPage n).2 x = n x) :
    (switchTo d).regs.eip = kernelThread ∧
      Lies (switchTo d).mem ((switchTo d).regs.esp + 4) [function, filename] ∧
      (intrExit (startProcess e pthread filename getAPage)).regs =
        startContext filename (getAPage (startMem e.mem pthread filename)).1 := by
  have page : pgSize = 4096 := rfl
  have task : sizeofTaskStruct = 280 := rfl
  have size : sizeofIntrStack = 76 := rfl
  have thread : sizeofThreadStack = 32 := rfl
  have place := kthreadStack_eq pthread
  obtain ⟨top, saved, args⟩ := threadCreate_spec m pthread kernelThread function filename
  have self : d.mem pthread = kthreadStack pthread := pcb.trans top
  have saved' : Lies d.mem (d.mem pthread) [0, 0, 0, 0, kernelThread] := by
    rw [self]
    apply saved.congr
    intro x hx hx'
    simp only [List.length_cons, List.length_nil] at hx'
    exact same x (by omega) (by omega)
  obtain ⟨eip, esp, unchanged⟩ := switchTo_spec dispatch (by omega) (by omega) saved'
  refine ⟨eip, ?_, ?_⟩
  · have here : (switchTo d).regs.esp + 4 = kthreadStack pthread + 24 := by omega
    rw [here]
    apply args.congr
    intro x hx hx'
    simp only [List.length_cons, List.length_nil] at hx'
    exact (unchanged x (by omega) (by omega)).trans (same x (by omega) (by omega))
  · apply startProcess_regs
    intro n x hx hx'
    have frame : procStack e.mem pthread = kthreadStack pthread + 128 := by
      rw [procStack, kstack, self, thread]
    exact stack n x (by omega) (by omega)

/-- The registers of a user task survive the kernel. A system call that returns r resumes the
caller with r in eax. A child made in a system call resumes at intr_exit, on its own frame, with
the registers of the caller and 0 in eax. A process made by thread_create starts in kernel_thread,
and enters user mode with what start_process stores; it is not switched out before start_process has read
its self_kstack, which a switch would change. -/
theorem context_preserved :
    (∀ (c after : Cpu) (esp0 handler retAddr r : Nat), 4096 ≤ esp0 →
      Returned (syscallHandler (int80 c esp0 handler) retAddr) after 3 esp0 r →
      (syscallReturn after).regs = { c.regs with eax := r }) ∧
    (∀ (c d : Cpu) (m fields : Mem) (parent child handler retAddr exitAddr cur : Nat),
      (∀ x, parent + pgSize - sizeofIntrStack ≤ x → x < parent + pgSize →
        m x = (syscallHandler (int80 c (parent + pgSize) handler) retAddr).mem x) →
      d.mem child = buildChildStack (copyPcb m child parent fields) child exitAddr child →
      (∀ x, child + sizeofTaskStruct ≤ x → x < child + pgSize →
        d.mem x = buildChildStack (copyPcb m child parent fields) child exitAddr x) →
      Dispatch d cur child →
      (switchTo d).regs.eip = exitAddr ∧ (switchTo d).regs.esp = child + pgSize - sizeofIntrStack ∧
        (intrExit (switchTo d)).regs = { c.regs with eax := 0 }) ∧
    ∀ (d e : Cpu) (m : Mem) (pthread kernelThread function filename cur : Nat) (getAPage : Mem → Nat × Mem),
      d.mem pthread = threadCreate m pthread kernelThread function filename pthread →
      (∀ x, pthread + sizeofTaskStruct ≤ x → x < pthread + pgSize →
        d.mem x = threadCreate m pthread kernelThread function filename x) →
      Dispatch d cur pthread →
      e.mem pthread = d.mem pthread →
      (∀ n x, (switchTo d).regs.esp ≤ x → x < pthread + pgSize → (getAPage n).2 x = n x) →
      (switchTo d).regs.eip = kernelThread ∧
        Lies (switchTo d).mem ((switchTo d).regs.esp + 4) [function, filename] ∧
        (intrExit (startProcess e pthread filename getAPage)).regs =
          startContext filename (getAPage (startMem e.mem pthread filename)).1 := by
  refine ⟨fun c after esp0 handler retAddr r room h => syscall_resumes room h, ?_, ?_⟩
  · intro c d m fields parent child handler retAddr exitAddr cur frame pcb same dispatch
    exact forked_resumes frame pcb same dispatch
  · intro d e m pthread kernelThread function filename cur getAPage pcb same dispatch kstack stack
    exact process_starts pcb same dispatch kstack stack

/-- A process that calls the function 0 with the arguments 2, 3 and 4. -/
def caller : Cpu where
  regs := { startContext 0x8048000 0xbffff000 with ebx := 2, ecx := 3, edx := 4 }
  mem _ := 0

/-- The task cur in the middle of its kernel stack, calling switch_to(cur, next). -/
def switching (m : Mem) (cur next : Nat) : Cpu where
  regs := { startContext 0 0 with esp := cur + 2000 }
  mem := Function.update (Function.update m (cur + 2004) cur) (cur + 2008) next

theorem switching_dispatch (m : Mem) {cur next : Nat} (apart : cur + pgSize ≤ next) :
    Dispatch (switching m cur next) cur next where
  args := by simp [switching, Lies]
  inside := Nat.add_le_add_left (by decide) cur
  top := Nat.add_le_add_left (by decide) cur
  apart := Or.inl apart

theorem switching_mem {m : Mem} {cur next x : Nat} (apart : cur + pgSize ≤ x) : (switching m cur next).mem x = m x := by
  have page : pgSize = 4096 := rfl
  exact (Function.update_of_ne (by omega) ..).trans (Function.update_of_ne (by omega) ..)

/-- The tasks at 0x10000 and 0x20000, and a third one from which they are dispatched. -/
theorem context_preserved_caller :
    (syscallReturn ⟨{ (syscallHandler (int80 caller 0x11000 100) 200).regs with
        esp := (syscallHandler (int80 caller 0x11000 100) 200).regs.esp + 4, eax := 7 },
      (syscallHandler (int80 caller 0x11000 100) 200).mem⟩).regs = { caller.regs with eax := 7 } ∧
    (intrExit (switchTo (switching (buildChildStack (copyPcb (syscallHandler (int80 caller 0x11000 100) 200).mem
        0x20000 0x10000 fun _ => 0) 0x20000 300) 0x8000 0x20000))).regs = { caller.regs with eax := 0 } ∧
    (intrExit (startProcess (switching (threadCreate (fun _ => 0) 0x20000 400 500 600) 0x8000 0x20000) 0x20000 600
        fun n => (0xbffff000, n))).regs = startContext 600 0xbffff000 := by
  obtain ⟨call, fork, start⟩ := context_preserved
  refine ⟨call caller _ 0x11000 100 200 7 (by decide) ⟨rfl, rfl, fun _ _ _ => rfl⟩, ?_, ?_⟩
  · exact (fork caller _ _ (fun _ => 0) 0x10000 0x20000 100 200 300 0x8000 (fun _ _ _ => rfl)
      (switching_mem (by decide)) (fun x hx _ => switching_mem (Nat.le_trans (by decide) hx))
      (switching_dispatch _ (by decide))).2.2
  · have started := start (switching (threadCreate (fun _ => 0) 0x20000 400 500 600) 0x8000 0x20000)
      (switching (threadCreate (fun _ => 0) 0x20000 400 500 600) 0x8000 0x20000) (fun _ => 0) 0x20000 400 500 600
      0x8000 (fun n => (0xbffff000, n)) (switching_mem (by decide))
      (fun x hx _ => switching_mem (Nat.le_trans (by decide) hx)) (switching_dispatch _ (by decide)) rfl
      fun _ _ _ _ => rfl
    exact started.2.2

end Zhenxiang.Switch
