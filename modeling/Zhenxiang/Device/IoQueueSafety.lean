import Zhenxiang.Device.IoQueueInvariant

/-! Every step of the I/O queue returns, and does one of the things an effect allows; so the
bytes come out as they went in. -/
namespace Zhenxiang.Device
open Lib Kernel Thread

section Specs
variable {s : IoSys}

theorem wp_ioSched {α : Type} {c : Kern Sched α} {Q : α → IoSys → Prop} {E : Fault → Prop} :
    wp (ioSched c) Q E s ↔ wp c (fun a t => Q a { s with sched := t }) E s.sched :=
  wp_zoom

theorem wp_ioLock {α : Type} {c : Kern LockSys α} {Q : α → IoSys → Prop} {E : Fault → Prop} :
    wp (ioLock c) Q E s ↔
      wp c (fun a t => Q a { s with sched := t.sched, queue := { s.queue with lock := t.lock } }) E
        ⟨s.sched, s.queue.lock, fun _ => Pc.out, fun _ => 0⟩ :=
  wp_zoom

theorem acquireTurn_spec (h : IoInv s) {e : IoEvent} {op : IoOp} (blocking : Blocking s e op) :
    Succeeds (acquireTurn op .off) (fun _ t => IoEffect s e t) s := by
  simp only [acquireTurn, ioThread, ioqWait, intrSetStatus, Succeeds, wp_bind, wp_get, wp_pure, wp_ite,
    wp_assert, wp_modify, wp_ioSched]
  constructor
  · intro value
    refine ⟨fun _ => ?_, fun queued => queued h.current_not_queued⟩
    apply wp_post (block_moved h.sched)
    intro _ u moved
    exact IoEffect.queued op blocking value moved
  · intro taken
    have free := h.free_of_value taken
    have value : s.queue.lock.value - 1 = 0 := by
      rw [free.lock.1]
      rfl
    have same : { s.sched with intr := .off } = s.sched := by
      rw [← blocking.off]
    refine ⟨fun _ => ⟨fun _ => ⟨fun _ => ?_, fun full => (full ?_).elim⟩, fun nr => (nr free.lock.2.2).elim⟩,
      fun up => (up value).elim⟩
    · simp only [IoSys.onLock, IoSys.onQueue, IoSys.goto, same, value]
      apply wp_post (block_moved h.sched)
      intro _ u moved
      exact IoEffect.slept op blocking free.lock.1 moved
    · have empty := free.waiter op
      cases op
      · exact empty
      · exact empty

theorem ioqAcquire_spec (h : IoInv s) {e : IoEvent} {op : IoOp} (blocking : Blocking s e op) :
    Succeeds (ioqAcquire op) (fun _ t => IoEffect s e t) s := by
  have holder := h.not_holder blocking.awake
  have same : { s.sched with intr := .off } = s.sched := by
    rw [← blocking.off]
  simp only [ioqAcquire, ioThread, intrDisable, Succeeds, wp_bind, wp_get, wp_set, wp_pure, wp_ite,
    wp_ioSched, same, blocking.off]
  exact ⟨fun _ => acquireTurn_spec h blocking, fun held => (held holder).elim⟩

theorem wp_ioqMove {op : IoOp} {Q : Unit → IoSys → Prop} {E : Fault → Prop} :
    wp (ioqMove op) Q E s ↔ Q () (s.move op) := by
  cases op with
  | getchar => simp only [ioqMove, wp_bind, wp_get, wp_modify, IoSys.move, IoSys.onQueue, IoQueue.move]
  | putchar byte => simp only [ioqMove, wp_bind, wp_modify, IoSys.move, IoSys.onQueue, IoQueue.move]

@[simp] theorem IoSys.sched_move (op : IoOp) : (s.move op).sched = s.sched := by
  cases op <;> rfl

@[simp] theorem IoSys.queue_move (op : IoOp) : (s.move op).queue = s.queue.move op := by
  cases op <;> rfl

@[simp] theorem IoSys.pc_move (op : IoOp) : (s.move op).pc = s.pc := by
  cases op <;> rfl

/-- A turn of the loop whose test fails completes the call. -/
theorem ioqTurn_finishes (h : IoInv s) {op : IoOp} (off : s.sched.intr = .off) (ready : ¬ s.queue.MustWait op) :
    Succeeds (ioqTurn op) (fun _ t => ∃ u, u.current = s.sched.current ∧
      Moved s.sched u (fun _ => True) (fun x => s.queue.waiter op.other ≠ some x ∧ s.sched.Sleeps x) ∧
      t = { s.move op with
        sched := u
        queue := (s.queue.move op).setWaiter none op.other
        pc := Function.update s.pc s.sched.current .out }) s := by
  simp only [ioqTurn, ioqBlocked, intrOff, ioThread, Succeeds, wp_bind, wp_get, wp_assert, wp_pure, wp_ite,
    wp_ioqMove, decide_eq_true_eq, IoSys.queue_move, IoQueue.waiter_move]
  refine ⟨fun _ => ⟨fun must => (ready must).elim, fun _ => ⟨fun waits => ?_, fun none_waits => ?_⟩⟩,
    fun on => on off⟩
  · obtain ⟨w, hw⟩ := Option.ne_none_iff_exists'.1 waits
    obtain ⟨_, held, sleeps, _⟩ := h.waiter_sleeps hw
    have moved := moved_unblock (fun _ => True) h.sched held.mem sleeps
    have there : (s.move op).queue.waiter op.other = some w := by simpa using hw
    simp only [wakeup, wp_bind, wp_get, wp_assert, there]
    refine ⟨fun _ => ?_, fun absent => (absent (by simp)).elim⟩
    rw [wp_ioSched, IoSys.sched_move, wp_threadUnblock sleeps (h.sched.sleeping_out sleeps)]
    simp only [wp_modify]
    refine ⟨s.sched.enqueueFront w, rfl, ?_, ?_⟩
    · rw [hw]
      constructor
      · exact moved.inv
      · exact moved.threads
      · exact moved.idle
      · intro x hx hi
        rw [moved.asleep x hx hi]
        simp [eq_comm]
      · exact moved.off
    · simp [IoSys.goto, IoSys.onQueue, Sched.enqueueFront, Sched.setStatus]
  · have absent : s.queue.waiter op.other = none := not_not.1 none_waits
    simp only [wp_modify]
    refine ⟨s.sched, rfl, ?_, ?_⟩
    · rw [absent]
      have moved := Moved.still h.sched fun _ => True
      constructor
      · exact moved.inv
      · exact moved.threads
      · exact moved.idle
      · intro x hx hi
        simp
      · exact moved.off
    · have same : (s.queue.move op).setWaiter none op.other = s.queue.move op := by
        cases op
        · have empty : s.queue.producer = none := absent
          simp only [IoQueue.move, IoQueue.setWaiter, IoOp.other, ← empty]
        · have empty : s.queue.consumer = none := absent
          simp only [IoQueue.move, IoQueue.setWaiter, IoOp.other, ← empty]
      rw [same]
      cases op <;> rfl

/-- A thread at the test of the loop, on its way into a call or back in it. -/
theorem ioqTurn_spec (h : IoInv s) {e : IoEvent} {op : IoOp}
    (about : s.queue.MustWait op → aboutToBlock s e = some op)
    (idle : s.sched.current ≠ s.sched.idleThread) (off : s.sched.intr = .off)
    (awake : ∀ op', s.pc s.sched.current ≠ .asleep op')
    (moving : ∀ op' old, s.pc s.sched.current ≠ .locking op' old) :
    Succeeds (ioqTurn op) (fun _ t => IoEffect s e t) s := by
  by_cases must : s.queue.MustWait op
  · simp only [ioqTurn, ioqBlocked, intrOff, Succeeds, wp_bind, wp_get, wp_assert, wp_pure, wp_ite,
      must, decide_true, true_imp_iff, not_true, false_imp_iff, and_true]
    exact ⟨fun _ => ioqAcquire_spec h ⟨about must, idle, off, awake⟩, fun on => on off⟩
  · apply wp_post (ioqTurn_finishes h off must)
    rintro _ t ⟨u, _, moved, rfl⟩
    exact IoEffect.finished op must awake moving (moved.weaken fun _ _ => trivial)

theorem ioqRelease_spec (h : IoInv s) {op : IoOp} (at_pc : s.pc s.sched.current = .asleep op) :
    Succeeds ioqRelease (fun _ t => ∃ u, u.current = s.sched.current ∧
      Moved s.sched u (fun _ => True) (fun x => s.queue.lock.waiters.head? ≠ some x ∧ s.sched.Sleeps x) ∧
      t = { s with
        sched := u
        queue := { s.queue with lock := ⟨none, 0, 1, s.queue.lock.waiters.tail⟩ } }) s := by
  obtain ⟨held, -⟩ := h.holds at_pc
  have off : s.sched.intr = .off := by
    have now := h.off _ h.sched.current_mem (inside_of_asleep at_pc)
    simpa only [Sched.Off, if_true] using now
  have same : { s.sched with intr := .off } = s.sched := by
    rw [← off]
  have once : ¬ s.queue.lock.holderRepeatNr > 1 := by
    rw [held.lock.2.2]
    decide
  have zero : s.queue.lock.value = 0 := held.lock.1
  have one : s.queue.lock.value + 1 = 1 := by
    rw [zero]
    rfl
  simp only [ioqRelease, ioThread, Succeeds, wp_bind, wp_get, wp_pure, wp_assert, wp_ite, wp_modify, once,
    false_imp_iff, not_false_eq_true, true_imp_iff, true_and]
  refine ⟨fun _ => ⟨fun _ => ?_, fun nr => nr held.lock.2.2⟩, fun holder => holder held.lock.2.1⟩
  rw [wp_ioLock]
  simp only [semaUp, intrDisable, intrSetStatus, wp_bind, wp_get, wp_set, wp_pure, wp_assert, wp_modify,
    wp_onSched, IoSys.onLock, IoSys.onQueue]
  refine ⟨fun _ => ?_, fun up => up zero⟩
  cases waiters : s.queue.lock.waiters with
  | nil =>
    rw [wakeWaiter_nil rfl]
    refine ⟨fun _ => ⟨s.sched, rfl, ?_, ?_⟩, fun full => full one⟩
    · have moved := Moved.still h.sched fun _ => True
      constructor
      · exact moved.inv
      · exact moved.threads
      · exact moved.idle
      · intro x hx hi
        simp
      · exact moved.off
    · simp only [LockSys.onLock, one, List.tail_nil]
  | cons w rest =>
    have hm : w ∈ s.queue.lock.waiters := by
      rw [waiters]
      exact List.mem_cons_self
    obtain ⟨hw, sleeps, _⟩ := (h.queue w).1 hm
    rw [same, wakeWaiter_cons rfl (by exact sleeps) (by exact h.sched.sleeping_out sleeps)]
    have moved := moved_unblock (fun _ => True) h.sched hw sleeps
    refine ⟨fun _ => ⟨s.sched.enqueueFront w, rfl, ?_, ?_⟩, fun full => full one⟩
    · constructor
      · exact moved.inv
      · exact moved.threads
      · exact moved.idle
      · intro x hx hi
        rw [moved.asleep x hx hi]
        simp [eq_comm]
      · exact moved.off
    · simp only [LockSys.onLock, one, List.tail_cons]
      rfl

theorem ioqResume_spec (h : IoInv s) : Succeeds ioqResume (fun _ t => IoEffect s .resume t) s := by
  have off : s.pc s.sched.current ≠ .out → s.sched.intr = .off := by
    intro inside
    have now := h.off _ h.sched.current_mem inside
    simpa only [Sched.Off, if_true] using now
  simp only [ioqResume, ioThread, Succeeds, wp_bind, wp_get, wp_pure]
  cases at_pc : s.pc s.sched.current with
  | out => exact (wp_pure _).2 (IoEffect.aside (Moved.still h.sched _))
  | retry op =>
    have inside : s.pc s.sched.current ≠ .out := by
      rw [at_pc]
      exact IoPc.noConfusion
    apply ioqTurn_spec h ?_ (h.inside_ne_idle inside) (off inside)
    · intro op' there
      cases at_pc.symm.trans there
    · intro op' old there
      cases at_pc.symm.trans there
    · intro must
      simp only [aboutToBlock, at_pc, if_pos must]
  | locking op old =>
    have inside := inside_of_locking at_pc
    have saved := h.old _ op old at_pc
    subst saved
    apply acquireTurn_spec h
    refine ⟨?_, h.inside_ne_idle inside, off inside, ?_⟩
    · simp only [aboutToBlock, at_pc]
    · intro op' there
      cases at_pc.symm.trans there
  | asleep op =>
    rw [wp_bind]
    apply wp_post (ioqRelease_spec h at_pc)
    rintro _ t ⟨u, current, moved, rfl⟩
    exact (wp_modify _).2 (IoEffect.released op at_pc current moved)

/-- A character finds room or is dropped; either way the interrupted thread goes on. -/
theorem intrKeyboard_spec (h : IoInv s) (byte : UInt8) (out : s.pc s.sched.current = .out) :
    Succeeds (intrKeyboard byte) (fun _ t => IoEffect s (.keyboard byte) t) s := by
  have outside : ¬ Inside s s.sched.current := not_not.2 out
  have masked : IoInv { s with sched := { s.sched with intr := .off } } := by
    apply h.aside
    exact (Moved.still h.sched _).after .off outside
  simp only [intrKeyboard, ioqFull, ioqBlocked, intrOff, ioqCall, intrDisable, intrSetStatus, Succeeds, wp_bind,
    wp_get, wp_set, wp_pure, wp_assert, wp_ite, wp_modify, wp_ioSched, Bool.not_eq_true', decide_eq_false_iff_not]
  refine ⟨fun _ => ⟨fun full => ⟨fun _ => ?_, fun on => (on trivial).elim⟩, fun _ => ?_⟩,
    fun on => (on trivial).elim⟩
  · have room : ¬ s.queue.MustWait (.putchar byte) := (IoQueue.mustWait_putchar _ _ _).not.1 full
    apply wp_post (ioqTurn_finishes masked rfl room)
    rintro _ t ⟨u, current, moved, rfl⟩
    have put : Moved { s.sched with intr := .off } u (fun x => x ≠ s.sched.current) _ :=
      moved.weaken fun _ _ => trivial
    have back := put.before (fun me _ => (me rfl).elim)
    have on := back.after s.sched.intr (not_not.2 current)
    exact IoEffect.finished (.putchar byte) room (by simp [out]) (by simp [out]) on
  · exact IoEffect.aside (Moved.still h.sched _)

theorem ioPerform_spec (h : IoInv s) {e : IoEvent} (allowed : IoAllowed s e) :
    Succeeds (ioPerform e) (fun _ t => IoEffect s e t) s := by
  have on_out : s.sched.intr = .on → s.pc s.sched.current = .out := by
    intro on
    by_contra inside
    have off := h.off _ h.sched.current_mem inside
    simp only [Sched.Off, if_true, on] at off
    cases off
  cases e with
  | preempt =>
    exact wp_ioSched.2 (wp_post (preempt_moved _ h.sched) fun _ _ moved => IoEffect.aside moved)
  | idle =>
    apply wp_ioSched.2
    apply wp_post (block_moved h.sched)
    intro _ u moved
    have at_idle : s.sched.current = s.sched.idleThread := allowed
    apply IoEffect.aside
    constructor
    · exact moved.inv
    · exact moved.threads
    · exact moved.idle
    · intro x hx hi
      rw [moved.asleep x hx hi, at_idle]
      simp [hi]
    · exact fun x hx _ was => moved.off x hx trivial was
  | enable => exact wp_ioSched.2 ((wp_modify _).2 (IoEffect.aside ((Moved.still h.sched _).after .on (not_not.2 allowed))))
  | disable =>
    exact wp_ioSched.2 ((wp_modify _).2 (IoEffect.aside ((Moved.still h.sched _).after .off (not_not.2 allowed))))
  | keyboard byte => exact intrKeyboard_spec h byte (on_out allowed)
  | call op =>
    obtain ⟨idle, out, off⟩ := allowed
    simp only [ioPerform, ioqCall, intrOff, Succeeds, wp_bind, wp_get, wp_assert]
    refine ⟨fun _ => ioqTurn_spec h ?_ idle off ?_ ?_, fun on => on off⟩
    · intro must
      simp only [aboutToBlock, if_pos must]
    · intro op' there
      cases out.symm.trans there
    · intro op' old there
      cases out.symm.trans there
  | resume => exact ioqResume_spec h

end Specs

theorem IoStart.inv {s : IoSys} (h : IoStart s) : IoInv s := by
  obtain ⟨q, queue⟩ := h.queue
  have some_cells : 0 < bufsize := by decide
  constructor
  · exact h.sched
  · rw [queue]
    exact some_cells
  · rw [queue]
    exact some_cells
  · rw [queue, h.stored, h.returned]
    simp [ioqueueInit, ringContents, ringLength]
  · exact h.pc _
  · intro t _ inside
    exact (inside (h.pc t)).elim
  · intro t op old at_pc
    cases (h.pc t).symm.trans at_pc
  · rw [queue]
    exact List.nodup_nil
  · intro t
    rw [queue]
    constructor
    · intro waits
      cases waits
    · rintro ⟨_, _, op, at_pc⟩
      cases (h.pc t).symm.trans at_pc
  · left
    constructor
    · rw [queue]
      exact ⟨rfl, rfl, rfl⟩
    · rw [queue]
      exact ⟨rfl, rfl⟩
    · intro t _ op at_pc
      cases (h.pc t).symm.trans at_pc

theorem reachable_ioInv {s : IoSys} (h : Reachable IoStart IoStep s) : IoInv s := by
  induction h with
  | start first => exact first.inv
  | step _ step ih =>
    obtain ⟨e, allowed, run⟩ := step
    exact ((wp_of_ok run).1 (ioPerform_spec ih allowed)).inv ih

/-- The bytes returned are the first of the bytes stored, in their order; the rest are in
the queue. The indices stay inside the buffer, and no ASSERT fails in the next step. -/
theorem io_queue_fifo {s : IoSys} (h : Reachable IoStart IoStep s) :
    (∃ queued, s.stored = s.returned ++ queued ∧ queued.length ≤ 63 ∧
      ringLength bufsize s.queue.head s.queue.tail = queued.length) ∧
    (s.queue.head ≤ 63 ∧ s.queue.tail ≤ 63) ∧
    ∀ e, IoAllowed s e → ∃ t, ioPerform e s = .ok ((), t) := by
  have inv := reachable_ioInv h
  have some_cells : 0 < bufsize := by decide
  refine ⟨⟨_, inv.fifo, ?_, ?_⟩, ⟨Nat.le_of_lt_succ inv.head_lt, Nat.le_of_lt_succ inv.tail_lt⟩, ?_⟩
  · rw [ringContents_length]
    exact Nat.le_of_lt_succ (ringLength_lt some_cells)
  · rw [ringContents_length]
  · intro e allowed
    obtain ⟨_, t, run, _⟩ := succeeds_iff.1 (ioPerform_spec inv allowed)
    exact ⟨t, run⟩

/-! Two consumers and the main thread, with nothing in the queue. -/
def trioStart : IoSys where
  sched := trioSched
  queue := ioqueueInit ⟨⟨none, 0, 0, []⟩, none, none, fun _ => 0, 0, 0⟩
  pc _ := .out
  stored := []
  returned := []

theorem trioStart_start : IoStart trioStart :=
  ⟨trioSched_inv, ⟨_, rfl⟩, fun _ => rfl, rfl, rfl⟩

instance (s : IoSys) (e : IoEvent) : Decidable (IoAllowed s e) := by
  cases e <;> unfold IoAllowed <;> infer_instance

/-- A consumer sleeps, a byte comes and wakes it, and it returns with the byte. -/
theorem io_queue_fifo_trio : ∃ s, Reachable IoStart IoStep s ∧ s.returned = [7] ∧
    ∃ queued, s.stored = s.returned ++ queued ∧ queued.length ≤ 63 := by
  have run : (runEvents IoAllowed ioPerform [.call .getchar, .enable, .preempt, .call (.putchar 7), .call (.putchar 8),
      .enable, .preempt, .resume, .resume] trioStart).map IoSys.returned = some [7] := by
    decide +kernel
  obtain ⟨s, steps, returned⟩ := Option.map_eq_some_iff.1 run
  have reach : Reachable IoStart IoStep s := (Reachable.start trioStart_start).trans (runEvents_steps steps)
  obtain ⟨queued, stored, few, _⟩ := (io_queue_fifo reach).1
  exact ⟨s, reach, returned, queued, stored, few⟩

end Zhenxiang.Device
