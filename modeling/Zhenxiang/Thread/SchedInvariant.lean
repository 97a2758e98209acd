import Zhenxiang.Thread.Sched

/-! The ready list, the list of all threads and the status fields agree in every
state the scheduler reaches. The invariant without its last field is what holds
inside schedule, where no thread need be running. -/
namespace Zhenxiang.Thread
open Lib Kernel

namespace Sched
variable (s : Sched) (t u : Nat)

@[simp] theorem onTask_task (f : Task → Task) :
    (s.onTask t f).task u = if u = t then f (s.task u) else s.task u := by
  by_cases h : u = t
  · subst h; simp [onTask]
  · simp [onTask, h]

@[simp] theorem onTask_threads (f : Task → Task) : (s.onTask t f).threads = s.threads := rfl
@[simp] theorem onTask_current (f : Task → Task) : (s.onTask t f).current = s.current := rfl
@[simp] theorem onTask_intr (f : Task → Task) : (s.onTask t f).intr = s.intr := rfl
@[simp] theorem onTask_main (f : Task → Task) : (s.onTask t f).mainThread = s.mainThread := rfl
@[simp] theorem onTask_idle (f : Task → Task) : (s.onTask t f).idleThread = s.idleThread := rfl
@[simp] theorem onTask_ready (f : Task → Task) :
    (s.onTask t f).threadReadyList = s.threadReadyList := rfl
@[simp] theorem onTask_all (f : Task → Task) :
    (s.onTask t f).threadAllList = s.threadAllList := rfl
@[simp] theorem onTask_ticks (f : Task → Task) : (s.onTask t f).ticks = s.ticks := rfl

end Sched

/-- What holds between the two halves of schedule. -/
structure Core (s : Sched) : Prop where
  current_mem : s.current ∈ s.threads
  idle_mem : s.idleThread ∈ s.threads
  main_mem : s.mainThread ∈ s.threads
  running_only : ∀ t ∈ s.threads, (s.task t).status = .running → t = s.current
  ready_iff : ∀ t, t ∈ s.threadReadyList ↔ t ∈ s.threads ∧ (s.task t).status = .ready
  ready_nodup : s.threadReadyList.Nodup
  all_iff : ∀ t, t ∈ s.threadAllList ↔ t ∈ s.threads
  all_nodup : s.threadAllList.Nodup
  alive : ∀ t ∈ s.threads, (s.task t).status ≠ .died
  magic : ∀ t ∈ s.threads, (s.task t).stackMagic = stackMagicNumber

structure Inv (s : Sched) : Prop extends Core s where
  current_running : (s.task s.current).status = .running

/-- What the scheduler leaves alone: the set of threads, the idle thread, and of
the threads other than idle which ones sleep and what they will restore. -/
structure Frame (s t : Sched) : Prop where
  threads : t.threads = s.threads
  idle : t.idleThread = s.idleThread
  asleep : ∀ x ∈ s.threads, x ≠ s.idleThread →
    (Asleep (t.task x).status ↔ Asleep (s.task x).status)
  oldStatus : ∀ x, (t.task x).oldStatus = (s.task x).oldStatus

theorem Frame.refl (s : Sched) : Frame s s :=
  ⟨Eq.refl _, Eq.refl _, fun _ _ _ => Iff.rfl, fun _ => Eq.refl _⟩

theorem Frame.trans {s t u : Sched} (h : Frame s t) (k : Frame t u) : Frame s u where
  threads := k.threads.trans h.threads
  idle := k.idle.trans h.idle
  asleep x hx hi :=
    (k.asleep x (h.threads ▸ hx) (h.idle ▸ hi)).trans (h.asleep x hx hi)
  oldStatus x := (k.oldStatus x).trans (h.oldStatus x)

@[simp] theorem not_asleep_ready : ¬ Asleep .ready := by decide
@[simp] theorem not_asleep_running : ¬ Asleep .running := by decide

/-- A thread that is neither ready nor running sleeps. -/
theorem asleep_of {stat : TaskStatus} (alive : stat ≠ .died) (hr : stat ≠ .ready)
    (hn : stat ≠ .running) : Asleep stat := by
  cases stat <;> simp_all [Asleep]

/-- Putting a thread that is not ready at either end of the ready list. -/
theorem Core.enqueue {s t : Sched} {x : Nat} {l : List Nat} (h : Core s)
    (hx : x ∈ s.threads) (hnr : (s.task x).status ≠ .ready)
    (perm : l.Perm (x :: s.threadReadyList))
    (ready : t.threadReadyList = l) (threads : t.threads = s.threads)
    (all : t.threadAllList = s.threadAllList) (current : t.current = s.current)
    (idle : t.idleThread = s.idleThread) (main : t.mainThread = s.mainThread)
    (at_x : (t.task x).status = .ready)
    (others : ∀ y, y ≠ x → (t.task y).status = (s.task y).status)
    (magic : ∀ y, (t.task y).stackMagic = (s.task y).stackMagic) : Core t where
  current_mem := by rw [current, threads]; exact h.current_mem
  idle_mem := by rw [idle, threads]; exact h.idle_mem
  main_mem := by rw [main, threads]; exact h.main_mem
  running_only y hy hr := by
    rw [threads] at hy
    by_cases hyx : y = x
    · subst hyx; rw [at_x] at hr; cases hr
    · rw [current]; exact h.running_only y hy (by rwa [others y hyx] at hr)
  ready_iff y := by
    rw [ready, perm.mem_iff, List.mem_cons, h.ready_iff, threads]
    by_cases hyx : y = x
    · subst hyx; simp [hx, at_x]
    · simp [hyx, others y hyx]
  ready_nodup := by
    rw [ready, perm.nodup_iff, List.nodup_cons]
    exact ⟨fun hm => hnr ((h.ready_iff x).1 hm).2, h.ready_nodup⟩
  all_iff y := by rw [all, threads]; exact h.all_iff y
  all_nodup := by rw [all]; exact h.all_nodup
  alive y hy := by
    rw [threads] at hy
    by_cases hyx : y = x
    · subst hyx; simp [at_x]
    · rw [others y hyx]; exact h.alive y hy
  magic y hy := by rw [magic y]; exact h.magic y (threads ▸ hy)

/-! The states the parts of schedule leave. -/
namespace Sched

def enqueueFront (s : Sched) (x : Nat) : Sched :=
  { s.setStatus x .ready with threadReadyList := x :: s.threadReadyList }

def enqueueBack (s : Sched) (x : Nat) (f : Task → Task) : Sched :=
  { s.onTask x f with threadReadyList := s.threadReadyList ++ [x] }

def dispatch (s : Sched) (x : Nat) (rest : List Nat) : Sched :=
  { s.setStatus x .running with
    threadReadyList := rest
    current := x
    intr := (s.task x).oldStatus }

end Sched

theorem wp_threadUnblock {s : Sched} {x : Nat} {Q : Unit → Sched → Prop} {E : Fault → Prop}
    (hs : Asleep (s.task x).status) (hout : x ∉ s.threadReadyList) :
    wp (threadUnblock x) Q E s ↔ Q () (s.enqueueFront x) := by
  have hnr : (s.task x).status ≠ .ready := by intro he; rw [he] at hs; simp at hs
  simp only [threadUnblock, intrDisable, intrSetStatus, wp_bind, wp_get, wp_set, wp_pure,
    wp_assert, wp_ite, wp_modify, hs, hnr, hout, not_false_eq_true, true_imp_iff, not_true,
    false_imp_iff, and_true, ne_eq]
  rfl

theorem Core.enqueueFront {s : Sched} (h : Core s) {x : Nat} (hx : x ∈ s.threads)
    (hs : Asleep (s.task x).status) : Core (s.enqueueFront x) := by
  have hnr : (s.task x).status ≠ .ready := by intro he; rw [he] at hs; simp at hs
  refine h.enqueue hx hnr (List.Perm.refl _) rfl rfl rfl rfl rfl rfl ?_ ?_ ?_
  · simp [Sched.enqueueFront, Sched.setStatus]
  · intro y hy
    simp [Sched.enqueueFront, Sched.setStatus, hy]
  · intro y
    by_cases hy : y = x <;> simp [Sched.enqueueFront, Sched.setStatus, hy]

theorem Core.enqueueBack {s : Sched} (h : Core s) {x : Nat} {f : Task → Task}
    (hx : x ∈ s.threads) (hnr : (s.task x).status ≠ .ready)
    (hf : ∀ p, (f p).status = .ready ∧ (f p).stackMagic = p.stackMagic) :
    Core (s.enqueueBack x f) := by
  refine h.enqueue hx hnr (List.perm_append_singleton _ _) rfl rfl rfl rfl rfl rfl ?_ ?_ ?_
  · simp [Sched.enqueueBack, hf]
  · intro y hy
    simp [Sched.enqueueBack, hy]
  · intro y
    by_cases hy : y = x <;> simp [Sched.enqueueBack, hy, hf]

/-- Taking the head of the ready list on the processor when no thread is on it. -/
theorem Core.dispatch {s : Sched} (h : Core s) {x : Nat} {rest : List Nat}
    (off : ∀ t ∈ s.threads, (s.task t).status ≠ .running)
    (hr : s.threadReadyList = x :: rest) : Inv (s.dispatch x rest) := by
  have hx := (h.ready_iff x).1 (hr ▸ List.mem_cons_self)
  have nodup : x ∉ rest ∧ rest.Nodup := List.nodup_cons.1 (hr ▸ h.ready_nodup)
  have status : ∀ y, ((s.dispatch x rest).task y).status =
      if y = x then .running else (s.task y).status := by
    intro y
    by_cases hy : y = x <;> simp [Sched.dispatch, Sched.setStatus, hy]
  refine ⟨⟨hx.1, h.idle_mem, h.main_mem, ?_, ?_, nodup.2, h.all_iff, h.all_nodup, ?_, ?_⟩, ?_⟩
  · intro y hy hrun
    by_contra hne
    rw [status, if_neg (show ¬ y = x from hne)] at hrun
    exact off y hy hrun
  · intro y
    have hm : y ∈ x :: rest ↔ y ∈ s.threads ∧ (s.task y).status = .ready := hr ▸ h.ready_iff y
    show y ∈ rest ↔ y ∈ s.threads ∧ _
    rw [status]
    by_cases hy : y = x
    · subst hy; simp [nodup.1]
    · simpa [hy] using hm
  · intro y hy
    rw [status]
    split
    · simp
    · exact h.alive y hy
  · intro y hy
    have := h.magic y hy
    by_cases hyx : y = x
    · subst hyx; simpa [Sched.dispatch, Sched.setStatus] using this
    · simpa [Sched.dispatch, Sched.setStatus, hyx] using this
  · show ((s.dispatch x rest).task x).status = .running
    rw [status, if_pos rfl]

theorem Frame.enqueueFront {s : Sched} {x : Nat} (hx : x = s.idleThread ∨ ¬ Asleep (s.task x).status) :
    Frame s (s.enqueueFront x) := by
  refine ⟨rfl, rfl, ?_, ?_⟩
  · intro y _ hi
    by_cases hy : y = x
    · subst hy
      simp [Sched.enqueueFront, Sched.setStatus, hx.resolve_left hi]
    · simp [Sched.enqueueFront, Sched.setStatus, hy]
  · intro y
    by_cases hy : y = x <;> simp [Sched.enqueueFront, Sched.setStatus, hy]

theorem Frame.enqueueBack {s : Sched} {x : Nat} {f : Task → Task}
    (hx : ¬ Asleep (s.task x).status)
    (hf : ∀ p, (f p).status = .ready ∧ (f p).oldStatus = p.oldStatus) :
    Frame s (s.enqueueBack x f) := by
  refine ⟨rfl, rfl, ?_, ?_⟩
  · intro y _ _
    by_cases hy : y = x
    · subst hy; simp [Sched.enqueueBack, hf, hx]
    · simp [Sched.enqueueBack, hy]
  · intro y
    by_cases hy : y = x <;> simp [Sched.enqueueBack, hy, hf]

theorem Frame.dispatch {s : Sched} {x : Nat} {rest : List Nat}
    (hx : (s.task x).status = .ready) : Frame s (s.dispatch x rest) := by
  refine ⟨rfl, rfl, ?_, ?_⟩
  · intro y _ _
    by_cases hy : y = x
    · subst hy; simp [Sched.dispatch, Sched.setStatus, hx]
    · simp [Sched.dispatch, Sched.setStatus, hy]
  · intro y
    by_cases hy : y = x <;> simp [Sched.dispatch, Sched.setStatus, hy]

/-- After the first half of schedule no thread is marked as running. -/
theorem requeueCurrent_spec {s : Sched} (h : Core s) :
    Succeeds requeueCurrent (fun _ t => Core t ∧ Frame s t ∧ t.intr = s.intr ∧
      ∀ x ∈ t.threads, (t.task x).status ≠ .running) s := by
  simp only [requeueCurrent, Succeeds, wp_bind, wp_get, wp_ite, wp_assert, wp_modify, wp_pure,
    true_and]
  refine ⟨fun hrun => ?_, fun hn => ⟨h, Frame.refl s, ?_⟩⟩
  · have hnr : (s.task s.current).status ≠ .ready := by rw [hrun]; decide
    have hna : ¬ Asleep (s.task s.current).status := by rw [hrun]; decide
    have hout : s.current ∉ s.threadReadyList := fun hm => hnr ((h.ready_iff _).1 hm).2
    refine ⟨fun _ => ⟨?_, ?_, ?_, ?_⟩, fun hn => hn hout⟩
    · exact h.enqueueBack (f := fun p => { p with ticks := p.priority, status := .ready })
        h.current_mem hnr fun _ => ⟨rfl, rfl⟩
    · exact Frame.enqueueBack (f := fun p => { p with ticks := p.priority, status := .ready })
        hna fun _ => ⟨rfl, rfl⟩
    · rfl
    · intro x hx hr
      by_cases hc : x = s.current
      · subst hc; simp at hr
      · exact hc (h.running_only x hx (by simpa [hc] using hr))
  · intro x hx hr
    have hc := h.running_only x hx hr
    subst hc
    exact hn hr

/-- With no thread ready or running, the idle thread sleeps: schedule can wake it. -/
theorem Core.idle_asleep {s : Sched} (h : Core s)
    (off : ∀ x ∈ s.threads, (s.task x).status ≠ .running) (hr : s.threadReadyList = []) :
    Asleep (s.task s.idleThread).status := by
  refine asleep_of (h.alive _ h.idle_mem) ?_ (off _ h.idle_mem)
  intro he
  have hm := (h.ready_iff s.idleThread).2 ⟨h.idle_mem, he⟩
  rw [hr] at hm
  cases hm

theorem wakeIdle_spec {s : Sched} (h : Core s)
    (off : ∀ x ∈ s.threads, (s.task x).status ≠ .running) :
    Succeeds wakeIdle (fun _ t => Core t ∧ Frame s t ∧ t.threadReadyList ≠ [] ∧
      ∀ x ∈ t.threads, (t.task x).status ≠ .running) s := by
  simp only [wakeIdle, Succeeds, wp_bind, wp_get, wp_ite, wp_pure]
  constructor
  · intro he
    have hs := h.idle_asleep off he
    have hout : s.idleThread ∉ s.threadReadyList := by rw [he]; simp
    rw [wp_threadUnblock hs hout]
    refine ⟨h.enqueueFront h.idle_mem hs, Frame.enqueueFront (Or.inl rfl), ?_, ?_⟩
    · simp [Sched.enqueueFront]
    · intro x hx
      by_cases hxi : x = s.idleThread
      · subst hxi; simp [Sched.enqueueFront, Sched.setStatus]
      · simpa [Sched.enqueueFront, Sched.setStatus, hxi] using off x hx
  · intro hne
    exact ⟨h, Frame.refl s, hne, off⟩

theorem dispatchNext_spec {s : Sched} (h : Core s)
    (off : ∀ x ∈ s.threads, (s.task x).status ≠ .running) (hne : s.threadReadyList ≠ []) :
    Succeeds dispatchNext (fun _ t => Inv t ∧ Frame s t ∧
      t.intr = (t.task t.current).oldStatus) s := by
  cases hl : s.threadReadyList with
  | nil => exact (hne hl).elim
  | cons x rest =>
    have hx := (h.ready_iff x).1 (hl ▸ List.mem_cons_self)
    have result : dispatchNext s = .ok ((), s.dispatch x rest) := by
      rw [runs_iff]
      simp [dispatchNext, listPop, switchTo, hl, Sched.dispatch, Sched.setStatus, Sched.onTask]
    exact (wp_of_ok result).2 ⟨h.dispatch off hl, Frame.dispatch hx.2, by
      simp [Sched.dispatch, Sched.setStatus]⟩

theorem schedule_spec {s : Sched} (h : Core s) (hoff : s.intr = .off) :
    Succeeds schedule (fun _ t => Inv t ∧ Frame s t ∧
      t.intr = (t.task t.current).oldStatus) s := by
  simp only [schedule, Succeeds, wp_bind, wp_get, wp_assert]
  refine ⟨fun _ => wp_post (requeueCurrent_spec h) ?_, fun hn => hn hoff⟩
  rintro - t ⟨ht, hft, -, off⟩
  refine wp_post (wakeIdle_spec ht off) ?_
  rintro - u ⟨hu, hfu, hne, off'⟩
  refine wp_post (dispatchNext_spec hu off' hne) ?_
  rintro - v ⟨hv, hfv, hi⟩
  exact ⟨hv, (hft.trans hfu).trans hfv, hi⟩

/-- Marking the running thread as asleep, as thread_block does before schedule. -/
theorem Inv.sleep {s t : Sched} (h : Inv s) {stat : TaskStatus} (hs : Asleep stat)
    (ready : t.threadReadyList = s.threadReadyList) (threads : t.threads = s.threads)
    (all : t.threadAllList = s.threadAllList) (current : t.current = s.current)
    (idle : t.idleThread = s.idleThread) (main : t.mainThread = s.mainThread)
    (at_cur : (t.task s.current).status = stat)
    (others : ∀ y, y ≠ s.current → (t.task y).status = (s.task y).status)
    (magic : ∀ y, (t.task y).stackMagic = (s.task y).stackMagic) : Core t where
  current_mem := by rw [current, threads]; exact h.current_mem
  idle_mem := by rw [idle, threads]; exact h.idle_mem
  main_mem := by rw [main, threads]; exact h.main_mem
  running_only y hy hr := by
    by_contra hne
    rw [current] at hne
    rw [others y hne] at hr
    exact hne (h.running_only y (threads ▸ hy) hr)
  ready_iff y := by
    rw [ready, h.ready_iff, threads]
    by_cases hy : y = s.current
    · subst hy
      have hn : stat ≠ .ready := by intro he; rw [he] at hs; simp at hs
      simp [h.current_running, at_cur, hn]
    · rw [others y hy]
  ready_nodup := by rw [ready]; exact h.ready_nodup
  all_iff y := by rw [all, threads]; exact h.all_iff y
  all_nodup := by rw [all]; exact h.all_nodup
  alive y hy := by
    by_cases hyc : y = s.current
    · subst hyc
      rw [at_cur]
      intro he
      rw [he] at hs
      revert hs
      decide
    · rw [others y hyc]; exact h.alive y (threads ▸ hy)
  magic y hy := by rw [magic y]; exact h.magic y (threads ▸ hy)

/-- A change of the fields the invariant does not read. -/
theorem Inv.congr {s t : Sched} (h : Inv s) (ready : t.threadReadyList = s.threadReadyList)
    (threads : t.threads = s.threads) (all : t.threadAllList = s.threadAllList)
    (current : t.current = s.current) (idle : t.idleThread = s.idleThread)
    (main : t.mainThread = s.mainThread)
    (status : ∀ x, (t.task x).status = (s.task x).status)
    (magic : ∀ x, (t.task x).stackMagic = (s.task x).stackMagic) : Inv t where
  current_mem := by rw [current, threads]; exact h.current_mem
  idle_mem := by rw [idle, threads]; exact h.idle_mem
  main_mem := by rw [main, threads]; exact h.main_mem
  running_only x hx hr := by
    rw [current]
    exact h.running_only x (threads ▸ hx) (status x ▸ hr)
  ready_iff x := by rw [ready, threads, status]; exact h.ready_iff x
  ready_nodup := by rw [ready]; exact h.ready_nodup
  all_iff x := by rw [all, threads]; exact h.all_iff x
  all_nodup := by rw [all]; exact h.all_nodup
  alive x hx := by rw [status]; exact h.alive x (threads ▸ hx)
  magic x hx := by rw [magic]; exact h.magic x (threads ▸ hx)
  current_running := by rw [current, status]; exact h.current_running

/-- The state in which thread_block calls schedule. -/
def Sched.asleep (s : Sched) (stat : TaskStatus) : Sched :=
  { (s.setStatus s.current stat).setOldStatus s.current s.intr with intr := .off }

/-- The state in which thread_yield calls schedule. -/
def Sched.yielded (s : Sched) : Sched :=
  { (s.setStatus s.current .ready).setOldStatus s.current s.intr with
    intr := .off
    threadReadyList := s.threadReadyList ++ [s.current] }

theorem Inv.asleep {s : Sched} (h : Inv s) {stat : TaskStatus} (hs : Asleep stat) :
    Core (s.asleep stat) := by
  refine h.sleep hs rfl rfl rfl rfl rfl rfl ?_ ?_ ?_
  · simp [Sched.asleep, Sched.setStatus, Sched.setOldStatus]
  · intro y hy
    simp [Sched.asleep, Sched.setStatus, Sched.setOldStatus, hy]
  · intro y
    by_cases hy : y = s.current <;>
      simp [Sched.asleep, Sched.setStatus, Sched.setOldStatus, hy]

theorem Inv.current_not_ready {s : Sched} (h : Inv s) : s.current ∉ s.threadReadyList := by
  intro hm
  have hr := ((h.ready_iff _).1 hm).2
  rw [h.current_running] at hr
  cases hr

theorem Inv.yielded {s : Sched} (h : Inv s) : Core s.yielded := by
  have hnr : (s.task s.current).status ≠ .ready := by rw [h.current_running]; decide
  refine h.enqueue h.current_mem hnr (List.perm_append_singleton _ _) rfl rfl rfl rfl rfl rfl ?_ ?_ ?_
  · simp [Sched.yielded, Sched.setStatus, Sched.setOldStatus]
  · intro y hy
    simp [Sched.yielded, Sched.setStatus, Sched.setOldStatus, hy]
  · intro y
    by_cases hy : y = s.current <;>
      simp [Sched.yielded, Sched.setStatus, Sched.setOldStatus, hy]

theorem threadBlock_spec {s : Sched} (h : Inv s) {stat : TaskStatus} (hs : Asleep stat) :
    Succeeds (threadBlock stat) (fun _ t => Inv t ∧ Frame (s.asleep stat) t ∧
      t.intr = (t.task t.current).oldStatus) s := by
  simp only [threadBlock, intrDisable, Succeeds, wp_bind, wp_get, wp_set, wp_pure, wp_assert,
    wp_modify]
  exact ⟨fun _ => schedule_spec (h.asleep hs) rfl, fun hn => hn hs⟩

theorem threadYield_spec {s : Sched} (h : Inv s) :
    Succeeds threadYield (fun _ t => Inv t ∧ Frame s.yielded t ∧
      t.intr = (t.task t.current).oldStatus) s := by
  simp only [threadYield, intrDisable, Succeeds, wp_bind, wp_get, wp_set, wp_pure, wp_assert,
    wp_modify]
  exact ⟨fun _ => schedule_spec h.yielded rfl, fun hn => hn h.current_not_ready⟩

theorem intrTimerHandler_spec {s : Sched} (h : Inv s) :
    Succeeds intrTimerHandler (fun _ t => Inv t) s := by
  simp only [intrTimerHandler, intrDisable, intrSetStatus, Succeeds, wp_bind, wp_get, wp_set,
    wp_pure, wp_assert, wp_modify, wp_ite]
  have hm := h.magic _ h.current_mem
  refine ⟨fun _ => ⟨fun _ => ?_, fun _ => ?_⟩, fun hn => hn (by simpa [Sched.setOldStatus] using hm)⟩
  · refine wp_post (schedule_spec (Inv.toCore (h.congr rfl rfl rfl rfl rfl rfl ?_ ?_)) rfl)
      fun _ _ ht => ht.1
    all_goals
      intro x
      by_cases hx : x = s.current <;> simp [Sched.setOldStatus, hx]
  · refine h.congr rfl rfl rfl rfl rfl rfl ?_ ?_
    all_goals
      intro x
      by_cases hx : x = s.current <;> simp [Sched.setOldStatus, hx]

/-- A new thread enters both lists in status TASK_READY. -/
theorem Inv.enlisted {s t : Sched} {page : Nat} (h : Inv s) (fresh : page ∉ s.threads)
    (ready : t.threadReadyList = s.threadReadyList ++ [page])
    (threads : t.threads = s.threads ++ [page])
    (all : t.threadAllList = s.threadAllList ++ [page]) (current : t.current = s.current)
    (idle : t.idleThread = s.idleThread) (main : t.mainThread = s.mainThread)
    (at_page : (t.task page).status = .ready)
    (magic : (t.task page).stackMagic = stackMagicNumber)
    (others : ∀ x, x ≠ page → t.task x = s.task x) : Inv t := by
  have old : ∀ x ∈ s.threads, t.task x = s.task x :=
    fun x hx => others x (by rintro rfl; exact fresh hx)
  have split : ∀ x, x ∈ t.threads ↔ x ∈ s.threads ∨ x = page := by
    intro x; rw [threads]; simp
  refine ⟨⟨?_, ?_, ?_, ?_, ?_, ?_, ?_, ?_, ?_, ?_⟩, ?_⟩
  · rw [split, current]; exact Or.inl h.current_mem
  · rw [split, idle]; exact Or.inl h.idle_mem
  · rw [split, main]; exact Or.inl h.main_mem
  · intro x hx hr
    rcases (split x).1 hx with hx | rfl
    · rw [current]; exact h.running_only x hx (old x hx ▸ hr)
    · rw [at_page] at hr; cases hr
  · intro x
    rw [ready, split, List.mem_append, List.mem_singleton, h.ready_iff]
    by_cases hx : x = page
    · subst hx; simp [at_page]
    · simp [hx, others x hx]
  · rw [ready, List.nodup_append_comm]
    exact List.nodup_cons.2 ⟨fun hm => fresh ((h.ready_iff page).1 hm).1, h.ready_nodup⟩
  · intro x
    rw [all, split, List.mem_append, List.mem_singleton, h.all_iff]
  · rw [all, List.nodup_append_comm]
    exact List.nodup_cons.2 ⟨fun hm => fresh ((h.all_iff page).1 hm), h.all_nodup⟩
  · intro x hx
    rcases (split x).1 hx with hx | rfl
    · rw [old x hx]; exact h.alive x hx
    · rw [at_page]; decide
  · intro x hx
    rcases (split x).1 hx with hx | rfl
    · rw [old x hx]; exact h.magic x hx
    · exact magic
  · rw [current, old _ h.current_mem]; exact h.current_running

/-- Where thread_start and process_execute leave the scheduler. -/
def Sched.enlisted (s : Sched) (page : Nat) (prio : UInt8) : Sched :=
  { s with
    task := Function.update s.task page ⟨.ready, prio, prio, 0, stackMagicNumber, .on⟩
    threadReadyList := s.threadReadyList ++ [page]
    threadAllList := s.threadAllList ++ [page]
    threads := s.threads ++ [page] }

theorem threadStart_run {s : Sched} {page : Nat} {prio : UInt8} (hm : page ≠ s.mainThread)
    (hr : page ∉ s.threadReadyList) (ha : page ∉ s.threadAllList) :
    threadStart page prio s = .ok ((), s.enlisted page prio) := by
  rw [runs_iff]
  simp [threadStart, initThread, threadCreate, enlist, Sched.onTask, Sched.setOldStatus,
    Sched.enlisted, hm, hr, ha]

theorem processExecute_run {s : Sched} {page : Nat} (hm : page ≠ s.mainThread)
    (hr : page ∉ s.threadReadyList) (ha : page ∉ s.threadAllList) :
    processExecute page s = .ok ((), s.enlisted page defaultPrio) := by
  rw [runs_iff]
  simp [processExecute, intrDisable, intrSetStatus, initThread, threadCreate, enlist,
    Sched.onTask, Sched.setOldStatus, Sched.enlisted, hm, hr, ha]

theorem Inv.fresh {s : Sched} (h : Inv s) {page : Nat} (fresh : page ∉ s.threads) :
    page ≠ s.mainThread ∧ page ∉ s.threadReadyList ∧ page ∉ s.threadAllList :=
  ⟨by rintro rfl; exact fresh h.main_mem, fun hm => fresh ((h.ready_iff page).1 hm).1,
    fun hm => fresh ((h.all_iff page).1 hm)⟩

theorem Inv.enlisted_start {s : Sched} (h : Inv s) {page : Nat} (prio : UInt8)
    (fresh : page ∉ s.threads) : Inv (s.enlisted page prio) :=
  h.enlisted fresh rfl rfl rfl rfl rfl rfl (by simp [Sched.enlisted])
    (by simp [Sched.enlisted]) (fun x hx => by simp [Sched.enlisted, hx])

/-! Each event of the scheduler. -/
inductive Event where
  | timer
  | block (stat : TaskStatus)
  | yield
  | unblock (pthread : Nat)
  | start (page : Nat) (prio : UInt8)
  | execute (page : Nat)
  | enable
  | disable

/-- The timer only interrupts with interrupts on; callers of thread_block name one
of the sleeping statuses; only sleeping threads are unblocked; get_kernel_pages
returns a page that is no PCB. -/
def Allowed (s : Sched) : Event → Prop
  | .timer => s.intr = .on
  | .block stat => Asleep stat
  | .yield | .enable | .disable => True
  | .unblock x => x ∈ s.threads ∧ Asleep (s.task x).status
  | .start page _ | .execute page => page ∉ s.threads

def perform : Event → Kern Sched Unit
  | .timer => intrTimerHandler
  | .block stat => threadBlock stat
  | .yield => threadYield
  | .unblock x => threadUnblock x
  | .start page prio => threadStart page prio
  | .execute page => processExecute page
  | .enable => intrSetStatus .on
  | .disable => intrSetStatus .off

theorem perform_spec {s : Sched} (h : Inv s) {e : Event} (allowed : Allowed s e) :
    Succeeds (perform e) (fun _ t => Inv t) s := by
  cases e with
  | timer => exact intrTimerHandler_spec h
  | block stat => exact wp_post (threadBlock_spec h allowed) fun _ _ ht => ht.1
  | yield => exact wp_post (threadYield_spec h) fun _ _ ht => ht.1
  | unblock x =>
    have hx : x ≠ s.current := by
      rintro rfl
      have hs := allowed.2
      rw [h.current_running] at hs
      simp at hs
    have hout : x ∉ s.threadReadyList := by
      intro hm
      have hs := allowed.2
      rw [((h.ready_iff x).1 hm).2] at hs
      simp at hs
    refine (wp_threadUnblock allowed.2 hout).2 ⟨h.toCore.enqueueFront allowed.1 allowed.2, ?_⟩
    simpa [Sched.enqueueFront, Sched.setStatus, hx.symm] using h.current_running
  | start page prio =>
    obtain ⟨hm, hr, ha⟩ := h.fresh allowed
    exact (wp_of_ok (threadStart_run hm hr ha)).2 (h.enlisted_start prio allowed)
  | execute page =>
    obtain ⟨hm, hr, ha⟩ := h.fresh allowed
    exact (wp_of_ok (processExecute_run hm hr ha)).2 (h.enlisted_start defaultPrio allowed)
  | enable => exact (wp_modify _).2 (h.congr rfl rfl rfl rfl rfl rfl (fun _ => rfl) fun _ => rfl)
  | disable => exact (wp_modify _).2 (h.congr rfl rfl rfl rfl rfl rfl (fun _ => rfl) fun _ => rfl)

/-- The states thread_init sets up, whatever memory held before, given a page for
the idle thread other than the page the kernel booted on. -/
def Booted (s : Sched) : Prop :=
  ∃ boot idle, idle ≠ boot.current ∧ threadInit idle boot = .ok ((), s)

/-- One event of the scheduler that returned. -/
def Step (s t : Sched) : Prop := ∃ e, Allowed s e ∧ perform e s = .ok ((), t)

theorem threadInit_spec {boot : Sched} {idle : Nat} (hi : idle ≠ boot.current) :
    Succeeds (threadInit idle) (fun _ t => Inv t) boot := by
  have run : threadInit idle boot = .ok ((), { boot with
      task := Function.update (Function.update boot.task boot.current
        ⟨.running, 31, 31, 0, stackMagicNumber, (boot.task boot.current).oldStatus⟩) idle
        ⟨.ready, 10, 10, 0, stackMagicNumber, .on⟩
      threads := [boot.current, idle]
      mainThread := boot.current
      idleThread := idle
      threadReadyList := [idle]
      threadAllList := [boot.current, idle] }) := by
    rw [runs_iff]
    simp [threadInit, makeMainThread, threadStart, initThread, threadCreate, enlist, Sched.onTask,
      Sched.setOldStatus, hi]
  refine (wp_of_ok run).2 ⟨⟨?_, ?_, ?_, ?_, ?_, ?_, ?_, ?_, ?_, ?_⟩, ?_⟩
  · simp
  · simp
  · simp
  · intro t ht hr
    by_cases ht' : t = idle
    · subst ht'; simp at hr
    · simpa [ht'] using ht
  · intro t
    by_cases ht : t = idle
    · subst ht; simp
    · by_cases htc : t = boot.current
      · subst htc; simp [ht]
      · simp [ht, htc]
  · simp
  · simp
  · simpa using hi.symm
  · intro t ht
    by_cases ht' : t = idle
    · subst ht'; simp
    · have hb : t = boot.current := by simpa [ht'] using ht
      subst hb; simp [ht']
  · intro t ht
    by_cases ht' : t = idle
    · subst ht'; simp
    · have hb : t = boot.current := by simpa [ht'] using ht
      subst hb; simp [ht']
  · simp [hi.symm]

theorem reachable_inv {s : Sched} (h : Reachable Booted Step s) : Inv s := by
  refine h.invariant ?_ ?_
  · rintro s ⟨boot, idle, hi, hs⟩
    exact (wp_of_ok hs).1 (threadInit_spec hi)
  · rintro s t hs ⟨e, allowed, ht⟩
    exact (wp_of_ok ht).1 (perform_spec hs allowed)

/-- In every state the scheduler reaches, the thread on the processor is the one
thread in status TASK_RUNNING, the ready list holds each ready thread once and
nothing else, the list of all threads holds each thread once, and the next event
fails no ASSERT and pops no empty list. -/
theorem scheduler_invariant {s : Sched} (h : Reachable Booted Step s) :
    (s.current ∈ s.threads ∧
      ∀ t ∈ s.threads, (s.task t).status = .running ↔ t = s.current) ∧
    (s.threadReadyList.Nodup ∧
      ∀ t, t ∈ s.threadReadyList ↔ t ∈ s.threads ∧ (s.task t).status = .ready) ∧
    (s.threadAllList.Nodup ∧ ∀ t, t ∈ s.threadAllList ↔ t ∈ s.threads) ∧
    ∀ e, Allowed s e → ∃ t, perform e s = .ok ((), t) := by
  have inv := reachable_inv h
  refine ⟨⟨inv.current_mem, fun t ht => ⟨inv.running_only t ht, ?_⟩⟩,
    ⟨inv.ready_nodup, inv.ready_iff⟩, ⟨inv.all_nodup, inv.all_iff⟩, ?_⟩
  · rintro rfl
    exact inv.current_running
  · intro e allowed
    obtain ⟨_, t, ht, _⟩ := succeeds_iff.1 (perform_spec inv allowed)
    exact ⟨t, ht⟩

/-- Memory at boot: the kernel runs on page 0, and nothing has been set up. -/
def bootMemory : Sched where
  task _ := ⟨.running, 0, 0, 0, 0, .off⟩
  threads := []
  current := 0
  intr := .off
  mainThread := 0
  idleThread := 0
  threadReadyList := []
  threadAllList := []
  ticks := 0

theorem scheduler_invariant_boot :
    ∃ s t, threadInit 1 bootMemory = .ok ((), s) ∧ perform (.block .blocked) s = .ok ((), t) ∧
      t.current ∈ t.threads ∧ ∀ u ∈ t.threads, (t.task u).status = .running ↔ u = t.current := by
  have pages : 1 ≠ bootMemory.current := by decide
  obtain ⟨_, s, hs, _⟩ := succeeds_iff.1 (threadInit_spec pages)
  have boot : Reachable Booted Step s := .start ⟨bootMemory, 1, pages, hs⟩
  have allowed : Allowed s (.block .blocked) := Or.inl rfl
  obtain ⟨t, ht⟩ := (scheduler_invariant boot).2.2.2 _ allowed
  exact ⟨s, t, hs, ht, (scheduler_invariant (boot.step ⟨_, allowed, ht⟩)).1⟩

end Zhenxiang.Thread
