import Zhenxiang.Lib.Trace
import Zhenxiang.Thread.SchedInvariant

/-! The scheduler is round robin: how long a ready thread waits, and where the ticks go. -/
namespace Zhenxiang.Thread
open Lib Kernel

namespace Event

end Event

section Waiting
variable {s : Sched} {x : Nat}

end Waiting

/-! The ticks of the processor. -/

section Times
variable {s t u : Sched}

/-- No tick has gone by from s to t. -/
structure SameTimes (s t : Sched) : Prop where
  elapsed : ∀ x, (t.task x).elapsedTicks = (s.task x).elapsedTicks
  all : t.threadAllList = s.threadAllList
  ticks : t.ticks = s.ticks

theorem SameTimes.refl (s : Sched) : SameTimes s s := ⟨fun _ => rfl, rfl, rfl⟩

theorem SameTimes.trans (h : SameTimes s t) (k : SameTimes t u) : SameTimes s u :=
  ⟨fun x => (k.elapsed x).trans (h.elapsed x), k.all.trans h.all, k.ticks.trans h.ticks⟩

theorem sameTimes_onTask {x : Nat} {f : Task → Task} (same : ∀ p, (f p).elapsedTicks = p.elapsedTicks) :
    SameTimes s (s.onTask x f) := by
  refine ⟨fun y => ?_, rfl, rfl⟩
  rw [Sched.onTask_task]
  split
  · exact same _
  · rfl

theorem threadUnblock_times (x : Nat) : Returns (threadUnblock x) (fun _ t => SameTimes s t) s := by
  simp only [threadUnblock, intrDisable, intrSetStatus, Returns, wp_bind, wp_get, wp_set, wp_pure, wp_assert, wp_ite, wp_modify]
  refine ⟨fun _ => ⟨fun _ => ⟨fun _ => ?_, fun _ => trivial⟩, fun _ => ⟨fun _ => rfl, rfl, rfl⟩⟩, fun _ => trivial⟩
  obtain ⟨elapsed, all, ticks⟩ := sameTimes_onTask (s := s) (x := x) (f := fun p => { p with status := .ready }) fun _ => rfl
  exact ⟨elapsed, all, ticks⟩

theorem schedule_times : Returns schedule (fun _ t => SameTimes s t) s := by
  have requeue : Returns requeueCurrent (fun _ t => SameTimes s t) s := by
    simp only [requeueCurrent, Returns, wp_bind, wp_get, wp_ite, wp_assert, wp_modify, wp_pure]
    refine ⟨fun _ => ⟨fun _ => ?_, fun _ => trivial⟩, fun _ => .refl s⟩
    obtain ⟨elapsed, all, ticks⟩ := sameTimes_onTask (s := s) (x := s.current)
      (f := fun p => { p with ticks := p.priority, status := .ready }) fun _ => rfl
    exact ⟨elapsed, all, ticks⟩
  have wake (t : Sched) : Returns wakeIdle (fun _ u => SameTimes t u) t := by
    simp only [wakeIdle, Returns, wp_bind, wp_get, wp_ite, wp_pure]
    exact ⟨fun _ => threadUnblock_times _, fun _ => .refl t⟩
  have next (t : Sched) : Returns dispatchNext (fun _ u => SameTimes t u) t := by
    cases ready : t.threadReadyList with
    | nil =>
      rw [dispatchNext, Returns, wp_bind, wp_get, wp_bind, wp_assert]
      exact ⟨fun some => (some ready).elim, fun _ => trivial⟩
    | cons y rest =>
      have result : dispatchNext t = .ok ((), t.dispatch y rest) := by
        rw [runs_iff]
        simp [dispatchNext, listPop, switchTo, ready, Sched.dispatch, Sched.setStatus, Sched.onTask]
      obtain ⟨elapsed, all, ticks⟩ := sameTimes_onTask (s := t) (x := y) (f := fun p => { p with status := .running })
        fun _ => rfl
      exact (wp_of_ok result).2 ⟨elapsed, all, ticks⟩
  rw [schedule, Returns, wp_bind, wp_get, wp_bind, wp_assert]
  refine ⟨fun _ => ?_, fun _ => trivial⟩
  rw [wp_bind]
  refine wp_post requeue ?_
  rintro - t st
  rw [wp_bind]
  refine wp_post (wake t) ?_
  rintro - u tu
  exact wp_post (next u) fun _ v uv => (st.trans tu).trans uv

/-- The ticks of all threads taken together. -/
def Sched.elapsed (s : Sched) : UInt32 := (s.threadAllList.map fun x => (s.task x).elapsedTicks).sum

theorem SameTimes.total (h : SameTimes s t) : t.elapsed = s.elapsed := by
  rw [Sched.elapsed, Sched.elapsed, h.all, List.map_congr_left fun x _ => h.elapsed x]

/-- One element of a list without repetitions goes up by one. -/
theorem sum_map_incr {l : List Nat} {f g : Nat → UInt32} {a : Nat} (mem : a ∈ l) (once : l.Nodup)
    (here : g a = f a + 1) (others : ∀ x, x ≠ a → g x = f x) : (l.map g).sum = (l.map f).sum + 1 := by
  induction l with
  | nil => cases mem
  | cons b l ih =>
    obtain ⟨new, once⟩ := List.nodup_cons.1 once
    rw [List.map_cons, List.map_cons, List.sum_cons, List.sum_cons]
    by_cases first : b = a
    · subst first
      have rest : l.map g = l.map f := List.map_congr_left fun x hx => others x fun same => new (same ▸ hx)
      rw [rest, here, add_right_comm]
    · rw [others b first, ih ((List.mem_cons.1 mem).resolve_left fun same => first same.symm) once, add_assoc]

theorem perform_times (h : Inv s) {e : Event} (allowed : Allowed s e) :
    Returns (perform e) (fun _ t => t.elapsed - t.ticks = s.elapsed - s.ticks) s := by
  have same {t : Sched} (times : SameTimes s t) : t.elapsed - t.ticks = s.elapsed - s.ticks := by
    rw [times.total, times.ticks]
  have saved (l : List Nat) (i : IntrStatus) (f : Task → Task) (keeps : ∀ p, (f p).elapsedTicks = p.elapsedTicks) :
      SameTimes s { s.onTask s.current f with intr := i, threadReadyList := l } := by
    obtain ⟨elapsed, all, ticks⟩ := sameTimes_onTask (s := s) (x := s.current) keeps
    exact ⟨elapsed, all, ticks⟩
  have listed (page : Nat) (prio : UInt8) (fresh : page ∉ s.threads) :
      (s.enlisted page prio).elapsed = s.elapsed := by
    have out : page ∉ s.threadAllList := fun mem => fresh ((h.all_iff page).1 mem)
    have old : s.threadAllList.map (fun x => ((s.enlisted page prio).task x).elapsedTicks) =
        s.threadAllList.map fun x => (s.task x).elapsedTicks := by
      apply List.map_congr_left
      intro x mem
      have other : x ≠ page := fun same => out (same ▸ mem)
      simp [Sched.enlisted, other]
    have new : ((s.enlisted page prio).task page).elapsedTicks = 0 := by
      simp [Sched.enlisted]
    show ((s.threadAllList ++ [page]).map fun x => ((s.enlisted page prio).task x).elapsedTicks).sum = _
    rw [List.map_append, List.sum_append, old, List.map_cons, new, Sched.elapsed]
    simp
  cases e with
  | timer =>
    simp only [perform, intrTimerHandler, intrDisable, intrSetStatus, Returns, wp_bind, wp_get, wp_set, wp_pure, wp_assert,
      wp_modify, wp_ite]
    -- the tick goes to the running thread
    have counted {t : Sched} (here : (t.task s.current).elapsedTicks = (s.task s.current).elapsedTicks + 1)
        (others : ∀ x, x ≠ s.current → (t.task x).elapsedTicks = (s.task x).elapsedTicks)
        (all : t.threadAllList = s.threadAllList) (ticks : t.ticks = s.ticks + 1) :
        t.elapsed - t.ticks = s.elapsed - s.ticks := by
      have total : t.elapsed = s.elapsed + 1 := by
        rw [Sched.elapsed, all]
        exact sum_map_incr ((h.all_iff _).2 h.current_mem) h.all_nodup here others
      rw [total, ticks, add_sub_add_right_eq_sub]
    refine ⟨fun _ => ⟨fun _ => wp_post schedule_times ?_, fun _ => counted ?_ ?_ rfl rfl⟩, fun _ => trivial⟩
    · rintro - t times
      refine counted ?_ ?_ times.all times.ticks
      · rw [times.elapsed]
        simp [Sched.setOldStatus]
      · intro x other
        rw [times.elapsed]
        simp [Sched.setOldStatus, other]
    · simp [Sched.setOldStatus]
    · intro x other
      simp [Sched.setOldStatus, other]
  | block stat =>
    simp only [perform, threadBlock, intrDisable, Returns, wp_bind, wp_get, wp_set, wp_pure, wp_assert, wp_modify]
    refine ⟨fun _ => wp_post schedule_times fun _ t times => same (.trans ?_ times), fun _ => trivial⟩
    refine ⟨fun x => ?_, rfl, rfl⟩
    by_cases mine : x = s.current <;> simp [Sched.setStatus, Sched.setOldStatus, mine]
  | yield =>
    simp only [perform, threadYield, intrDisable, Returns, wp_bind, wp_get, wp_set, wp_pure, wp_assert, wp_modify]
    refine ⟨fun _ => wp_post schedule_times fun _ t times => same (.trans ?_ times), fun _ => trivial⟩
    refine ⟨fun x => ?_, rfl, rfl⟩
    by_cases mine : x = s.current <;> simp [Sched.setStatus, Sched.setOldStatus, mine]
  | unblock x => exact wp_post (threadUnblock_times x) fun _ _ times => same times
  | start page prio =>
    obtain ⟨hm, hr, ha⟩ := h.fresh allowed
    refine (wp_of_ok (threadStart_run hm hr ha)).2 ?_
    rw [listed page prio allowed]
    rfl
  | execute page =>
    obtain ⟨hm, hr, ha⟩ := h.fresh allowed
    refine (wp_of_ok (processExecute_run hm hr ha)).2 ?_
    rw [listed page defaultPrio allowed]
    rfl
  | enable => exact (wp_modify _).2 (same ⟨fun _ => rfl, rfl, rfl⟩)
  | disable => exact (wp_modify _).2 (same ⟨fun _ => rfl, rfl, rfl⟩)

theorem threadInit_times {boot : Sched} {idle : Nat} (other : idle ≠ boot.current) :
    Returns (threadInit idle) (fun _ t => t.elapsed = 0 ∧ t.ticks = boot.ticks) boot := by
  simp [threadInit, makeMainThread, threadStart, initThread, threadCreate, enlist, Sched.onTask, Sched.setOldStatus,
    Sched.elapsed, Returns, other, other.symm]

/-- Every tick since boot has been counted for exactly one thread. -/
theorem ticks_accounted (h : Reachable (fun s => Booted s ∧ s.ticks = 0) Step s) : s.elapsed = s.ticks := by
  have inv : Inv s ∧ s.elapsed - s.ticks = 0 := by
    refine h.invariant (I := fun s => Inv s ∧ s.elapsed - s.ticks = 0) ?_ ?_
    · rintro s ⟨⟨boot, idle, other, run⟩, zero⟩
      obtain ⟨none, -⟩ := returns_iff.1 (threadInit_times other) _ _ run
      refine ⟨(wp_of_ok run).1 (threadInit_spec other), ?_⟩
      rw [none, zero, sub_self]
    · rintro s t ⟨inv, even⟩ ⟨e, allowed, run⟩
      exact ⟨(wp_of_ok run).1 (perform_spec inv allowed), (returns_iff.1 (perform_times inv allowed) _ _ run).trans even⟩
  exact sub_eq_zero.1 inv.2

end Times

/-! The machine booted on page 0, with the idle thread on page 1. -/

instance (s : Sched) (e : Event) : Decidable (Allowed s e) :=
  match e with
  | .timer => inferInstanceAs (Decidable (_ = _))
  | .block stat => inferInstanceAs (Decidable (Asleep stat))
  | .yield | .enable | .disable => inferInstanceAs (Decidable True)
  | .unblock _ => inferInstanceAs (Decidable (_ ∈ _ ∧ Asleep _))
  | .start .. | .execute _ => inferInstanceAs (Decidable (_ ∉ _))

/-- Events behind thread_init. -/
def bootRun (es : List Event) : Option Sched :=
  match threadInit 1 bootMemory with
  | .ok (_, s) => play (stepOf perform Allowed) es s
  | .error _ => none

theorem bootRun_reachable {es : List Event} {s : Sched} (run : bootRun es = some s) :
    Reachable (fun s => Booted s ∧ s.ticks = 0) Step s := by
  unfold bootRun at run
  cases init : threadInit 1 bootMemory with
  | error f =>
    rw [init] at run
    cases run
  | ok r =>
    rw [init] at run
    have zero : Returns (threadInit 1) (fun _ t => t.ticks = 0) bootMemory := wp_post (threadInit_times (by decide)) fun _ _ post => post.2
    have booted : Booted r.2 := ⟨bootMemory, 1, by decide, init⟩
    refine (play_trace run).reachable (.start ⟨booted, returns_iff.1 zero _ _ init⟩) fun s e t next => ?_
    obtain ⟨allowed, _, step⟩ := stepOf_some next
    exact ⟨e, allowed, step⟩

def twoStarted : List Event := [.start 2 1, .start 3 1, .enable]

/-- The main thread yields to the idle thread, which blocks; thread 2 wakes the idle thread and runs out of ticks. -/
def withoutThree : List Event := [.yield, .timer, .block .blocked, .timer, .unblock 1, .timer]

/-- One of the three ticks went by for the idle thread, and two for thread 2. -/
theorem ticks_accounted_boot : ∃ t, bootRun (twoStarted ++ withoutThree) = some t ∧ (t.task 1).elapsedTicks = 1 ∧
    (t.task 2).elapsedTicks = 2 ∧ t.ticks = 3 ∧ t.elapsed = t.ticks := by
  have runs : (bootRun (twoStarted ++ withoutThree)).any (fun t => (t.task 1).elapsedTicks = 1 ∧ (t.task 2).elapsedTicks = 2 ∧
      t.ticks = 3) = true := by
    decide +kernel
  obtain ⟨t, run, now⟩ := (Option.any_eq_true _ _).1 runs
  obtain ⟨one, two, three⟩ := of_decide_eq_true now
  exact ⟨t, run, one, two, three, ticks_accounted (bootRun_reachable run)⟩

end Zhenxiang.Thread
