import Zhenxiang.Thread.SyncInvariant

/-! What the scheduler does for a program whose threads block and wake each other: which
threads a step leaves asleep, and which of them keep interrupts off. -/
namespace Zhenxiang.Thread
open Lib Kernel

/-- The thread has interrupts off, or will have them off when it is back on the processor. -/
def Sched.Off (s : Sched) (t : Nat) : Prop :=
  if t = s.current then s.intr = .off else (s.task t).oldStatus = .off

def Sched.Sleeps (s : Sched) (t : Nat) : Prop := Asleep (s.task t).status

/-- The scheduler after a step that leaves the given threads asleep; the threads inside
keep interrupts off. -/
structure Moved (s t : Sched) (inside asleep : Nat → Prop) : Prop where
  inv : Inv t
  threads : t.threads = s.threads
  idle : t.idleThread = s.idleThread
  asleep : ∀ x ∈ s.threads, x ≠ s.idleThread → (t.Sleeps x ↔ asleep x)
  off : ∀ x ∈ s.threads, inside x → s.Off x → t.Off x

section Moves
variable {s t : Sched} {inside asleep : Nat → Prop}

theorem Moved.before {i : IntrStatus} (h : Moved { s with intr := i } t inside asleep)
    (off : inside s.current → s.intr = .off → i = .off) : Moved s t inside asleep := by
  constructor
  · exact h.inv
  · exact h.threads
  · exact h.idle
  · exact h.asleep
  · intro x hx inside_x was
    apply h.off x hx inside_x
    by_cases hc : x = s.current
    · subst hc
      simp only [Sched.Off, if_true] at was ⊢
      exact off inside_x was
    · simpa only [Sched.Off, hc, if_false] using was

theorem Moved.after (h : Moved s t inside asleep) (i : IntrStatus) (out : ¬ inside t.current) :
    Moved s { t with intr := i } inside asleep := by
  constructor
  · exact h.inv.congr rfl rfl rfl rfl rfl rfl (fun _ => rfl) fun _ => rfl
  · exact h.threads
  · exact h.idle
  · exact h.asleep
  · intro x hx inside_x was
    have now := h.off x hx inside_x was
    have hc : x ≠ t.current := by
      intro he
      exact out (he ▸ inside_x)
    simpa only [Sched.Off, hc, if_false] using now

theorem Moved.still (h : Inv s) (inside : Nat → Prop) : Moved s s inside s.Sleeps :=
  ⟨h, Eq.refl _, Eq.refl _, fun _ _ _ => Iff.rfl, fun _ _ _ off => off⟩

theorem Moved.weaken {inside' : Nat → Prop} (h : Moved s t inside asleep) (sub : ∀ x, inside' x → inside x) :
    Moved s t inside' asleep :=
  ⟨h.inv, h.threads, h.idle, h.asleep, fun x hx here was => h.off x hx (sub x here) was⟩

theorem moved_block (inside : Nat → Prop) (inv : Inv t) (frame : Frame (s.asleep .blocked) t)
    (intr : t.intr = (t.task t.current).oldStatus) :
    Moved s t inside fun x => x = s.current ∨ s.Sleeps x := by
  constructor
  · exact inv
  · exact frame.threads
  · exact frame.idle
  · intro x hx hi
    refine (frame.asleep x hx hi).trans ?_
    by_cases hc : x = s.current
    · simp [Sched.asleep, Sched.setStatus, Sched.setOldStatus, hc, Asleep]
    · simp [Sched.asleep, Sched.setStatus, Sched.setOldStatus, Sched.Sleeps, hc]
  · intro x hx _ was
    have saved : (t.task x).oldStatus = .off := by
      rw [frame.oldStatus]
      by_cases hc : x = s.current
      · simpa [Sched.Off, Sched.asleep, Sched.setStatus, Sched.setOldStatus, hc] using was
      · simpa [Sched.Off, Sched.asleep, Sched.setStatus, Sched.setOldStatus, hc] using was
    by_cases hc : x = t.current
    · subst hc
      simpa only [Sched.Off, if_true, intr] using saved
    · simpa only [Sched.Off, hc, if_false] using saved

theorem block_moved {t : Sched} (h : Inv t) :
    Succeeds (threadBlock .blocked)
      (fun _ u => Moved t u (fun _ => True) fun x => x = t.current ∨ t.Sleeps x) t := by
  apply wp_post (threadBlock_spec h (Or.inl rfl))
  intro _ u ⟨inv, frame, intr⟩
  exact moved_block _ inv frame intr

theorem yield_moved (inside : Nat → Prop) (h : Inv s) :
    Succeeds threadYield (fun _ t => Moved s t inside s.Sleeps) s := by
  apply wp_post (threadYield_spec h)
  intro _ t ⟨inv, frame, intr⟩
  constructor
  · exact inv
  · exact frame.threads
  · exact frame.idle
  · intro x hx hi
    refine (frame.asleep x hx hi).trans ?_
    by_cases hc : x = s.current
    · subst hc
      have awake : ¬ s.Sleeps s.current := by
        rw [Sched.Sleeps, h.current_running]
        exact not_asleep_running
      simp [Sched.yielded, Sched.setStatus, Sched.setOldStatus, awake]
    · simp [Sched.yielded, Sched.setStatus, Sched.setOldStatus, Sched.Sleeps, hc]
  · intro x hx _ was
    have saved : (t.task x).oldStatus = .off := by
      rw [frame.oldStatus]
      by_cases hc : x = s.current
      · simpa [Sched.Off, Sched.yielded, Sched.setStatus, Sched.setOldStatus, hc] using was
      · simpa [Sched.Off, Sched.yielded, Sched.setStatus, Sched.setOldStatus, hc] using was
    by_cases hc : x = t.current
    · subst hc
      simpa only [Sched.Off, if_true, intr] using saved
    · simpa only [Sched.Off, hc, if_false] using saved

/-- Waking a thread. -/
theorem moved_unblock (inside : Nat → Prop) (h : Inv s) {w : Nat} (hw : w ∈ s.threads) (sleeps : s.Sleeps w) :
    Moved s (s.enqueueFront w) inside fun x => x ≠ w ∧ s.Sleeps x := by
  have awake : s.current ≠ w := by
    intro he
    subst he
    rw [Sched.Sleeps, h.current_running] at sleeps
    exact not_asleep_running sleeps
  constructor
  · constructor
    · exact h.toCore.enqueueFront hw sleeps
    · simpa [Sched.enqueueFront, Sched.setStatus, awake] using h.current_running
  · rfl
  · rfl
  · intro x _ _
    by_cases hx : x = w
    · simp [Sched.Sleeps, Sched.enqueueFront, Sched.setStatus, hx]
    · simp [Sched.Sleeps, Sched.enqueueFront, Sched.setStatus, hx]
  · intro x _ _ was
    by_cases hx : x = w
    · subst hx
      simpa [Sched.Off, Sched.enqueueFront, Sched.setStatus, awake, Ne.symm awake] using was
    · simpa [Sched.Off, Sched.enqueueFront, Sched.setStatus, hx] using was

theorem Inv.sleeping_out (h : Inv s) {w : Nat} (sleeps : s.Sleeps w) : w ∉ s.threadReadyList := by
  intro ready
  rw [Sched.Sleeps, ((h.ready_iff w).1 ready).2] at sleeps
  exact not_asleep_ready sleeps

theorem Inv.current_awake (h : Inv s) : ¬ s.Sleeps s.current := by
  rw [Sched.Sleeps, h.current_running]
  exact not_asleep_running

theorem preempt_moved (inside : Nat → Prop) (h : Inv s) :
    Succeeds preempt (fun _ t => Moved s t inside s.Sleeps) s := by
  apply wp_post (preempt_spec h)
  intro _ t ⟨inv, threads, idle, asleep, others, me, intr⟩
  constructor
  · exact inv
  · exact threads
  · exact idle
  · exact asleep
  · intro x hx _ was
    have saved : (t.task x).oldStatus = .off := by
      by_cases hc : x = s.current
      · subst hc
        rw [me]
        simpa [Sched.Off] using was
      · rw [others x hc]
        simpa [Sched.Off, hc] using was
    by_cases hc : x = t.current
    · subst hc
      simpa only [Sched.Off, if_true, intr] using saved
    · simpa only [Sched.Off, hc, if_false] using saved

end Moves

/-! The main thread, idle and two more, of which one runs. -/
def trioSched : Sched where
  task t := ⟨if t = 2 then .running else .ready, 31, 31, 0, stackMagicNumber, .off⟩
  threads := [0, 1, 2, 3]
  current := 2
  intr := .off
  mainThread := 0
  idleThread := 1
  threadReadyList := [3, 0, 1]
  threadAllList := [0, 1, 2, 3]
  ticks := 0

theorem trioSched_inv : Inv trioSched := by
  refine ⟨⟨by decide, by decide, by decide, ?_, ?_, by decide, fun _ => Iff.rfl, by decide, ?_, ?_⟩, rfl⟩
  · intro t _ run
    by_contra h
    have other : t ≠ 2 := h
    simp [trioSched, other] at run
  · intro t
    by_cases h : t = 2
    · simp [trioSched, h]
    · simp [trioSched, h]
      omega
  · intro t _
    by_cases h : t = 2
    · simp [trioSched, h]
    · simp [trioSched, h]
  · intro t _
    rfl

end Zhenxiang.Thread
