import Zhenxiang.Device.IoQueueSafety

/-! Wake-ups of the I/O queue. The loop tests the queue before lock_acquire and not again
before ioq_wait, so a thread can fall asleep on a queue that has changed meanwhile. -/
namespace Zhenxiang.Device
open Lib Kernel Thread

/-- Every thread queued for the lock would still find that it has to wait. -/
def QueueSettled (s : IoSys) : Prop :=
  ∀ t ∈ s.queue.lock.waiters, ∀ op old, s.pc t = .locking op old → s.queue.MustWait op

/-- A thread that goes on in lock_acquire would still have to wait, and a thread about to
take the lock and sleep leaves no thread queued behind it that need not wait. -/
def CarefulIo (s : IoSys) (e : IoEvent) : Prop :=
  ∀ op, aboutToBlock s e = some op →
    s.queue.MustWait op ∧ (s.queue.lock.value ≠ 0 → QueueSettled s)

def CarefulIoStep (s t : IoSys) : Prop :=
  ∃ e, IoAllowed s e ∧ CarefulIo s e ∧ ioPerform e s = .ok ((), t)

/-- No thread inside a call is ready to run. -/
def IoQuiet (s : IoSys) : Prop :=
  ∀ t ∈ s.sched.threads, Inside s t → (s.sched.task t).status ≠ .ready ∧ (s.sched.task t).status ≠ .running

instance (s : IoSys) : Decidable (IoQuiet s) :=
  inferInstanceAs (Decidable (∀ t ∈ s.sched.threads, s.pc t ≠ .out → _ ∧ _))

/-- The thread sleeps in the queue's field for the call, or waits for the lock to make it. -/
def WaitsFor (s : IoSys) (op : IoOp) (t : Nat) : Prop :=
  s.queue.waiter op = some t ∨ t ∈ s.queue.lock.waiters ∧ ∃ old, s.pc t = .locking op old

/-- With no thread ready inside, consumers wait only on an empty queue, producers on a full one. -/
def NoneForgotten (s : IoSys) : Prop :=
  IoQuiet s → ∀ op t, WaitsFor s op t → s.queue.MustWait op

structure Attended (s : IoSys) : Prop where
  asleep : ∀ op, s.queue.waiter op ≠ none → s.queue.MustWait op ∧ QueueSettled s
  woken : s.queue.lock.value = 1 → s.queue.lock.waiters ≠ [] →
    ∃ w ∈ s.sched.threads, w ∉ s.queue.lock.waiters ∧ ∃ op, s.pc w = .locking op .off

theorem IoQueue.mustWait_set (q : IoQueue) (l : Lock) (t : Option Nat) (op op' : IoOp) :
    ({ q with lock := l }.setWaiter t op).MustWait op' ↔ q.MustWait op' := by
  cases op <;> cases op' <;> rfl

theorem IoQueue.mustWait_side (op op' : IoOp) :
    (∀ q : IoQueue, q.waiter op' = q.waiter op ∧ (q.MustWait op' ↔ q.MustWait op)) ∨
      ∀ q : IoQueue, q.waiter op' = q.waiter op.other := by
  cases op <;> cases op'
  · exact Or.inl fun _ => ⟨Eq.refl _, Iff.rfl⟩
  · exact Or.inr fun _ => Eq.refl _
  · exact Or.inr fun _ => Eq.refl _
  · exact Or.inl fun _ => ⟨Eq.refl _, Iff.rfl⟩

section Kept
variable {s t : IoSys} {e : IoEvent}

theorem Attended.step (h : Attended s) (inv : IoInv s) (careful : CarefulIo s e) (eff : IoEffect s e t) :
    Attended t := by
  cases eff with
  | aside moved =>
    constructor
    · exact h.asleep
    · intro value waiting
      obtain ⟨w, hw, rest⟩ := h.woken value waiting
      refine ⟨w, ?_, rest⟩
      rw [moved.threads]
      exact hw
  | queued op blocking value moved =>
    constructor
    · intro op' waits
      obtain ⟨must, settled⟩ := h.asleep op' waits
      refine ⟨must, ?_⟩
      intro x hx op'' old at_pc
      by_cases hc : x = s.sched.current
      · subst hc
        have both : IoPc.locking op .off = .locking op'' old := by simpa using at_pc
        cases both
        exact (careful op blocking.about).1
      · have was : x ∈ s.queue.lock.waiters := by simpa [hc] using hx
        exact settled x was op'' old (by simpa [hc] using at_pc)
    · intro one
      have zero : (0 : UInt8) = 1 := value ▸ one
      cases zero
  | slept op blocking value moved =>
    have free := inv.free_of_value (by rw [value]; decide)
    obtain ⟨must, settled⟩ := careful op blocking.about
    have queue : QueueSettled s := settled (by rw [value]; decide)
    constructor
    · intro op' waits
      constructor
      · rcases IoQueue.mustWait_side op op' with same | across
        · exact (IoQueue.mustWait_set ..).2 ((same s.queue).2.2 must)
        · rw [across, IoQueue.waiter_set_other] at waits
          exact (waits (free.waiter op.other)).elim
      · intro x hx op'' old at_pc
        have was : x ∈ s.queue.lock.waiters := by simpa using hx
        have hc : x ≠ s.sched.current := by
          intro he
          exact inv.current_not_queued (he ▸ was)
        exact (IoQueue.mustWait_set ..).2 (queue x was op'' old (by simpa [hc] using at_pc))
    · intro one
      simp at one
  | released op at_pc current moved =>
    obtain ⟨_, empty⟩ := inv.holds at_pc
    constructor
    · intro op' waits
      have gone := empty op'
      cases op' <;> exact (waits gone).elim
    · intro _ waiting
      cases waiters : s.queue.lock.waiters with
      | nil => simp [waiters] at waiting
      | cons w rest =>
        have distinct : w ∉ rest ∧ rest.Nodup := List.nodup_cons.1 (waiters ▸ inv.queue_nodup)
        have hm : w ∈ s.queue.lock.waiters := by
          rw [waiters]
          exact List.mem_cons_self
        obtain ⟨hw, _, op', at_lock⟩ := (inv.queue w).1 hm
        have hc : w ≠ s.sched.current := by
          intro he
          exact inv.current_not_queued (he ▸ hm)
        refine ⟨w, ?_, ?_, op', ?_⟩
        · rw [moved.threads]
          exact hw
        · simpa [waiters] using distinct.1
        · simpa [hc] using at_lock
  | finished op ready awake moving moved =>
    constructor
    · intro op' waits
      exfalso
      rcases IoQueue.mustWait_side op op' with same | across
      · have still : ((s.queue.move op).setWaiter none op.other).waiter op = s.queue.waiter op := by
          have keeps := (s.queue.move op).waiter_set_other none op.other
          simpa using keeps
        rw [(same _).1, still] at waits
        exact ready (h.asleep op waits).1
      · rw [across, IoQueue.waiter_set] at waits
        exact waits rfl
    · intro value waiting
      simp only [IoQueue.lock_set, IoQueue.lock_move] at value waiting ⊢
      obtain ⟨w, hw, hout, op', at_lock⟩ := h.woken value waiting
      have hc : w ≠ s.sched.current := by
        intro he
        exact moving op' .off (he ▸ at_lock)
      refine ⟨w, ?_, hout, op', ?_⟩
      · rw [moved.threads]
        exact hw
      · simpa [hc] using at_lock

/-- A thread inside that does not sleep is ready to run. -/
theorem IoInv.quiet_sleeps (h : IoInv s) (quiet : IoQuiet s) {x : Nat} (hx : x ∈ s.sched.threads)
    (inside : Inside s x) : s.sched.Sleeps x := by
  obtain ⟨not_ready, not_running⟩ := quiet x hx inside
  exact asleep_of (h.sched.alive x hx) not_ready not_running

theorem Attended.none_forgotten (h : Attended s) (inv : IoInv s) : NoneForgotten s := by
  intro quiet op x waits
  rcases waits with field | ⟨queued, old, at_lock⟩
  · exact (h.asleep op (by rw [field]; simp)).1
  · rcases inv.owner with free | ⟨o, op', held⟩
    · obtain ⟨w, hw, hout, op', woken⟩ := h.woken free.lock.1 (List.ne_nil_of_mem queued)
      have sleeps := inv.quiet_sleeps quiet hw (inside_of_locking woken)
      exact (hout ((inv.queue w).2 ⟨hw, sleeps, op', woken⟩)).elim
    · have sleeps := inv.quiet_sleeps quiet held.mem (inside_of_asleep held.pc)
      have field : s.queue.waiter op' ≠ none := by
        rcases held.waiter with ⟨waits, _⟩ | ⟨_, awake⟩
        · rw [waits]
          simp
        · exact (awake sleeps).elim
      exact (h.asleep op' field).2 x queued op old at_lock

end Kept

theorem IoStart.attended {s : IoSys} (h : IoStart s) : Attended s := by
  obtain ⟨q, queue⟩ := h.queue
  constructor
  · intro op waits
    rw [queue] at waits
    cases op <;> exact (waits rfl).elim
  · intro _ waiting
    rw [queue] at waiting
    exact (waiting rfl).elim

/-- In every run of careful steps: when no thread inside a call is ready to run, a thread
waits to consume only while the queue is empty, and to produce only while it is full. -/
theorem wakeups_not_lost {s : IoSys} (h : Reachable IoStart CarefulIoStep s) :
    IoQuiet s →
      (∀ t, WaitsFor s .getchar t → s.queue.head = s.queue.tail) ∧
      ∀ t byte, WaitsFor s (.putchar byte) t → nextPos s.queue.head = s.queue.tail := by
  have both : IoInv s ∧ Attended s := by
    induction h with
    | start first => exact ⟨first.inv, first.attended⟩
    | step _ step ih =>
      obtain ⟨e, allowed, careful, run⟩ := step
      have eff := (wp_of_ok run).1 (ioPerform_spec ih.1 allowed)
      exact ⟨eff.inv ih.1, ih.2.step ih.1 careful eff⟩
  have kept := both.2.none_forgotten both.1
  intro quiet
  constructor
  · intro t waits
    exact kept quiet .getchar t waits
  · intro t byte waits
    exact kept quiet (.putchar byte) t waits

/-- The consumer that slept is woken by a byte and returns with it. -/
theorem wakeups_not_lost_trio : ∃ s, Reachable IoStart CarefulIoStep s ∧ IoQuiet s ∧
    s.queue.consumer = some 2 ∧ s.queue.head = s.queue.tail := by
  have careful : CarefulIo trioStart (.call .getchar) := by
    intro op about
    have getchar : op = .getchar := by
      have both : some IoOp.getchar = some op := about
      cases both
      rfl
    subst getchar
    refine ⟨rfl, fun _ t queued => ?_⟩
    cases queued
  have slept : Succeeds (ioPerform (.call .getchar))
      (fun _ s => IoQuiet s ∧ s.queue.consumer = some 2) trioStart := by
    decide +kernel
  obtain ⟨_, s, run, quiet, field⟩ := succeeds_iff.1 slept
  have reach : Reachable IoStart CarefulIoStep s :=
    .step (.start trioStart_start) ⟨.call .getchar, ⟨by decide, rfl, rfl⟩, careful, run⟩
  exact ⟨s, reach, quiet, field, (wakeups_not_lost reach quiet).1 2 (Or.inl field)⟩

/-- Two consumers sleep and two bytes come. The first byte wakes the first consumer, which
returns with it; then the second gets the lock, and sleeps though a byte is left. -/
theorem wakeup_lost : ∃ s, Reachable IoStart IoStep s ∧ IoQuiet s ∧ s.queue.consumer = some 3 ∧
    s.stored = [7, 8] ∧ s.returned = [7] ∧ s.queue.head ≠ s.queue.tail := by
  have run : (runEvents IoAllowed ioPerform [.call .getchar, .call .getchar, .call (.putchar 7),
      .call (.putchar 8), .enable, .preempt, .resume, .resume, .enable, .preempt, .resume] trioStart).any
        (fun s => IoQuiet s ∧ s.queue.consumer = some 3 ∧ s.stored = [7, 8] ∧ s.returned = [7] ∧
          s.queue.head ≠ s.queue.tail) = true := by
    decide +kernel
  obtain ⟨s, steps, facts⟩ := (Option.any_eq_true ..).1 run
  exact ⟨s, (Reachable.start trioStart_start).trans (runEvents_steps steps), of_decide_eq_true facts⟩

end Zhenxiang.Device
