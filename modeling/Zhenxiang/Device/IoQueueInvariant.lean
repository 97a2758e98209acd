import Zhenxiang.Device.IoQueue
import Zhenxiang.Thread.Moved

/-! Every interleaving of the calls on an I/O queue. What a step can do is said once; the
invariants follow from that. -/
namespace Zhenxiang.Device
open Lib Kernel Thread

/-! What a step does to the queue. -/

def IoQueue.move (q : IoQueue) : IoOp → IoQueue
  | .getchar => { q with tail := nextPos q.tail }
  | .putchar byte => { q with buf := Function.update q.buf q.head byte, head := nextPos q.head }

def IoSys.move (s : IoSys) (op : IoOp) : IoSys :=
  match op with
  | .getchar => { s with queue := s.queue.move op, returned := s.returned ++ [s.queue.buf s.queue.tail] }
  | .putchar byte => { s with queue := s.queue.move op, stored := s.stored ++ [byte] }

/-- The call for which the running thread is about to lock_acquire, or goes on in it. -/
def aboutToBlock (s : IoSys) : IoEvent → Option IoOp
  | .call op => if s.queue.MustWait op then some op else none
  | .resume =>
    match s.pc s.sched.current with
    | .retry op => if s.queue.MustWait op then some op else none
    | .locking op _ => some op
    | _ => none
  | _ => none

def Inside (s : IoSys) (t : Nat) : Prop := s.pc t ≠ .out

/-- The running thread may block here. -/
structure Blocking (s : IoSys) (e : IoEvent) (op : IoOp) : Prop where
  about : aboutToBlock s e = some op
  idle : s.sched.current ≠ s.sched.idleThread
  off : s.sched.intr = .off
  awake : ∀ op', s.pc s.sched.current ≠ .asleep op'

inductive IoEffect (s : IoSys) (e : IoEvent) : IoSys → Prop where
  | aside {u : Sched} (moved : Moved s.sched u (Inside s) s.sched.Sleeps) :
      IoEffect s e { s with sched := u }
  | queued {u : Sched} (op : IoOp) (blocking : Blocking s e op) (value : s.queue.lock.value = 0)
      (moved : Moved s.sched u (fun _ => True) fun x => x = s.sched.current ∨ s.sched.Sleeps x) :
      IoEffect s e { s with
        sched := u
        queue := { s.queue with
          lock := { s.queue.lock with waiters := s.queue.lock.waiters ++ [s.sched.current] } }
        pc := Function.update s.pc s.sched.current (.locking op .off) }
  | slept {u : Sched} (op : IoOp) (blocking : Blocking s e op) (value : s.queue.lock.value = 1)
      (moved : Moved s.sched u (fun _ => True) fun x => x = s.sched.current ∨ s.sched.Sleeps x) :
      IoEffect s e { s with
        sched := u
        queue := { s.queue with lock := ⟨some s.sched.current, 1, 0, s.queue.lock.waiters⟩ }.setWaiter
          (some s.sched.current) op
        pc := Function.update s.pc s.sched.current (.asleep op) }
  | released {u : Sched} (op : IoOp) (at_pc : s.pc s.sched.current = .asleep op)
      (current : u.current = s.sched.current)
      (moved : Moved s.sched u (fun _ => True)
        fun x => s.queue.lock.waiters.head? ≠ some x ∧ s.sched.Sleeps x) :
      IoEffect s e { s with
        sched := u
        queue := { s.queue with lock := ⟨none, 0, 1, s.queue.lock.waiters.tail⟩ }
        pc := Function.update s.pc s.sched.current (.retry op) }
  | finished {u : Sched} (op : IoOp) (ready : ¬ s.queue.MustWait op)
      (awake : ∀ op', s.pc s.sched.current ≠ .asleep op')
      (moving : ∀ op' old, s.pc s.sched.current ≠ .locking op' old)
      (moved : Moved s.sched u (fun x => x ≠ s.sched.current)
        fun x => s.queue.waiter op.other ≠ some x ∧ s.sched.Sleeps x) :
      IoEffect s e { s.move op with
        sched := u
        queue := (s.queue.move op).setWaiter none op.other
        pc := Function.update s.pc s.sched.current .out }

/-- No thread holds the lock. -/
structure LockFree (s : IoSys) : Prop where
  lock : s.queue.lock.value = 1 ∧ s.queue.lock.holder = none ∧ s.queue.lock.holderRepeatNr = 0
  waiters : s.queue.consumer = none ∧ s.queue.producer = none
  none_asleep : ∀ t ∈ s.sched.threads, ∀ op, s.pc t ≠ .asleep op

/-- The thread o holds the lock: it sleeps in ioq_wait, or has been woken and not yet run. -/
structure LockHeld (s : IoSys) (o : Nat) (op : IoOp) : Prop where
  mem : o ∈ s.sched.threads
  lock : s.queue.lock.value = 0 ∧ s.queue.lock.holder = some o ∧ s.queue.lock.holderRepeatNr = 1
  pc : s.pc o = .asleep op
  others : ∀ t ∈ s.sched.threads, t ≠ o → ∀ op', s.pc t ≠ .asleep op'
  other : s.queue.waiter op.other = none
  waiter : (s.queue.waiter op = some o ∧ s.sched.Sleeps o) ∨ (s.queue.waiter op = none ∧ ¬ s.sched.Sleeps o)

structure IoInv (s : IoSys) : Prop where
  sched : Inv s.sched
  head_lt : s.queue.head < bufsize
  tail_lt : s.queue.tail < bufsize
  fifo : s.stored = s.returned ++ ringContents bufsize s.queue.buf s.queue.head s.queue.tail
  idle : s.pc s.sched.idleThread = .out
  off : ∀ t ∈ s.sched.threads, Inside s t → s.sched.Off t
  old : ∀ t op old, s.pc t = .locking op old → old = .off
  queue_nodup : s.queue.lock.waiters.Nodup
  queue : ∀ t, t ∈ s.queue.lock.waiters ↔
    t ∈ s.sched.threads ∧ s.sched.Sleeps t ∧ ∃ op, s.pc t = .locking op .off
  owner : LockFree s ∨ ∃ o op, LockHeld s o op

section Queue
variable (q : IoQueue)

@[simp] theorem IoQueue.waiter_set (t : Option Nat) (op : IoOp) : (q.setWaiter t op).waiter op = t := by
  cases op <;> rfl

@[simp] theorem IoQueue.waiter_set_other (t : Option Nat) (op : IoOp) :
    (q.setWaiter t op).waiter op.other = q.waiter op.other := by
  cases op <;> rfl

@[simp] theorem IoQueue.waiter_other_other (op : IoOp) : q.waiter op.other.other = q.waiter op := by
  cases op <;> rfl

@[simp] theorem IoQueue.waiter_move (op op' : IoOp) : (q.move op).waiter op' = q.waiter op' := by
  cases op <;> cases op' <;> rfl

@[simp] theorem IoQueue.lock_move (op : IoOp) : (q.move op).lock = q.lock := by
  cases op <;> rfl

@[simp] theorem IoQueue.lock_set (t : Option Nat) (op : IoOp) : (q.setWaiter t op).lock = q.lock := by
  cases op <;> rfl

@[simp] theorem IoQueue.head_set (t : Option Nat) (op : IoOp) : (q.setWaiter t op).head = q.head := by
  cases op <;> rfl

@[simp] theorem IoQueue.tail_set (t : Option Nat) (op : IoOp) : (q.setWaiter t op).tail = q.tail := by
  cases op <;> rfl

@[simp] theorem IoQueue.buf_set (t : Option Nat) (op : IoOp) : (q.setWaiter t op).buf = q.buf := by
  cases op <;> rfl

theorem IoQueue.mustWait_putchar (a b : UInt8) : q.MustWait (.putchar a) ↔ q.MustWait (.putchar b) := Iff.rfl

/-- Two calls are on one side or on the two sides. -/
theorem IoQueue.waiter_sides (op op' : IoOp) :
    (∀ q : IoQueue, q.waiter op' = q.waiter op ∧ q.waiter op'.other = q.waiter op.other) ∨
      ∀ q : IoQueue, q.waiter op' = q.waiter op.other ∧ q.waiter op'.other = q.waiter op := by
  cases op <;> cases op'
  · exact Or.inl fun _ => ⟨Eq.refl _, Eq.refl _⟩
  · exact Or.inr fun _ => ⟨Eq.refl _, Eq.refl _⟩
  · exact Or.inr fun _ => ⟨Eq.refl _, Eq.refl _⟩
  · exact Or.inl fun _ => ⟨Eq.refl _, Eq.refl _⟩

end Queue

section Facts
variable {s : IoSys}

theorem LockFree.waiter (h : LockFree s) (op : IoOp) : s.queue.waiter op = none := by
  cases op
  · exact h.waiters.1
  · exact h.waiters.2

/-- A waiter is the sleeping holder of the lock. -/
theorem IoInv.waiter_sleeps (h : IoInv s) {op : IoOp} {w : Nat} (hw : s.queue.waiter op = some w) :
    ∃ op', LockHeld s w op' ∧ s.sched.Sleeps w ∧ s.queue.waiter op' = some w ∧ s.queue.waiter op.other = none := by
  rcases h.owner with free | ⟨o, op', held⟩
  · rw [free.waiter] at hw
    cases hw
  · rcases IoQueue.waiter_sides op' op with same | across
    · rw [(same _).1] at hw
      rcases held.waiter with ⟨waits, sleeps⟩ | ⟨woken, _⟩
      · have he : o = w := Option.some.inj (waits.symm.trans hw)
        subst he
        exact ⟨op', held, sleeps, waits, (same _).2.trans held.other⟩
      · rw [woken] at hw
        cases hw
    · rw [(across _).1, held.other] at hw
      cases hw

theorem IoInv.current_not_queued (h : IoInv s) : s.sched.current ∉ s.queue.lock.waiters := by
  intro hm
  exact h.sched.current_awake ((h.queue _).1 hm).2.1

/-- The running thread, if it was in ioq_wait, holds the lock and has been woken. -/
theorem IoInv.holds (h : IoInv s) {op : IoOp} (at_pc : s.pc s.sched.current = .asleep op) :
    LockHeld s s.sched.current op ∧ ∀ op', s.queue.waiter op' = none := by
  rcases h.owner with free | ⟨o, op', held⟩
  · exact (free.none_asleep _ h.sched.current_mem _ at_pc).elim
  · have he : s.sched.current = o := by
      by_contra hne
      exact held.others _ h.sched.current_mem hne _ at_pc
    subst he
    have same : op' = op := by
      have both := held.pc.symm.trans at_pc
      exact IoPc.asleep.inj both
    subst same
    have woken : s.queue.waiter op' = none := by
      rcases held.waiter with ⟨_, sleeps⟩ | ⟨woken, _⟩
      · exact (h.sched.current_awake sleeps).elim
      · exact woken
    refine ⟨held, fun op => ?_⟩
    rcases IoQueue.waiter_sides op' op with same | across
    · exact (same _).1.trans woken
    · exact (across _).1.trans held.other

/-- A running thread that is not in ioq_wait does not hold the lock. -/
theorem IoInv.not_holder (h : IoInv s) (awake : ∀ op, s.pc s.sched.current ≠ .asleep op) :
    s.queue.lock.holder ≠ some s.sched.current := by
  intro holder
  rcases h.owner with free | ⟨o, op, held⟩
  · rw [free.lock.2.1] at holder
    cases holder
  · rw [held.lock.2.1] at holder
    have he : o = s.sched.current := Option.some.inj holder
    exact awake op (he ▸ held.pc)

theorem IoInv.free_of_value (h : IoInv s) (value : s.queue.lock.value ≠ 0) : LockFree s := by
  rcases h.owner with free | ⟨_, _, held⟩
  · exact free
  · exact (value held.lock.1).elim

theorem IoInv.held_of_value (h : IoInv s) (value : s.queue.lock.value = 0) : ∃ o op, LockHeld s o op := by
  rcases h.owner with free | held
  · rw [free.lock.1] at value
    cases value
  · exact held

theorem IoInv.inside_ne_idle (h : IoInv s) {t : Nat} (inside : Inside s t) : t ≠ s.sched.idleThread := by
  intro he
  subst he
  exact inside h.idle

theorem inside_of_asleep {t : Nat} {op : IoOp} (at_pc : s.pc t = .asleep op) : Inside s t := by
  rw [Inside, at_pc]
  exact IoPc.noConfusion

theorem inside_of_locking {t : Nat} {op : IoOp} {old : IntrStatus} (at_pc : s.pc t = .locking op old) :
    Inside s t := by
  rw [Inside, at_pc]
  exact IoPc.noConfusion

end Facts

/-! The invariant is kept by each kind of step. -/
section Kept
variable {s : IoSys} {u : Sched}

theorem IoInv.aside (h : IoInv s) (moved : Moved s.sched u (Inside s) s.sched.Sleeps) :
    IoInv { s with sched := u } := by
  have same : ∀ t ∈ s.sched.threads, Inside s t → (u.Sleeps t ↔ s.sched.Sleeps t) :=
    fun t ht inside => moved.asleep t ht (h.inside_ne_idle inside)
  constructor
  · exact moved.inv
  · exact h.head_lt
  · exact h.tail_lt
  · exact h.fifo
  · show s.pc u.idleThread = .out
    rw [moved.idle]
    exact h.idle
  · intro t ht inside
    have old_mem : t ∈ s.sched.threads := moved.threads ▸ ht
    exact moved.off t old_mem inside (h.off t old_mem inside)
  · exact h.old
  · exact h.queue_nodup
  · intro t
    rw [h.queue t]
    show _ ↔ t ∈ u.threads ∧ u.Sleeps t ∧ _
    rw [moved.threads]
    constructor
    · intro ⟨ht, sleeps, op, at_pc⟩
      exact ⟨ht, (same t ht (inside_of_locking at_pc)).2 sleeps, op, at_pc⟩
    · intro ⟨ht, sleeps, op, at_pc⟩
      exact ⟨ht, (same t ht (inside_of_locking at_pc)).1 sleeps, op, at_pc⟩
  · rcases h.owner with free | ⟨o, op, held⟩
    · exact Or.inl ⟨free.lock, free.waiters, fun t ht => free.none_asleep t (moved.threads ▸ ht)⟩
    · right
      have sleeps := same o held.mem (inside_of_asleep held.pc)
      refine ⟨o, op, ?_, held.lock, held.pc, ?_, held.other, ?_⟩
      · show o ∈ u.threads
        rw [moved.threads]
        exact held.mem
      · intro t ht
        exact held.others t (moved.threads ▸ ht)
      · show _ ∧ u.Sleeps o ∨ _ ∧ ¬ u.Sleeps o
        rw [sleeps]
        exact held.waiter

/-- The threads inside keep interrupts off when the running thread, which has them off, moves. -/
theorem IoInv.off_moved (h : IoInv s) {asleep inside : Nat → Prop} (moved : Moved s.sched u inside asleep)
    (off : s.sched.intr = .off) {p : IoPc} {t : Nat} (ht : t ∈ u.threads) (here : inside t)
    (hp : Function.update s.pc s.sched.current p t ≠ .out) : u.Off t := by
  have old_mem : t ∈ s.sched.threads := moved.threads ▸ ht
  apply moved.off t old_mem here
  by_cases hc : t = s.sched.current
  · simpa only [Sched.Off, hc, if_true] using off
  · rw [Function.update_of_ne hc] at hp
    exact h.off t old_mem hp

theorem IoInv.queued (h : IoInv s) {e : IoEvent} {op : IoOp} (blocking : Blocking s e op)
    (value : s.queue.lock.value = 0)
    (moved : Moved s.sched u (fun _ => True) fun x => x = s.sched.current ∨ s.sched.Sleeps x) :
    IoInv { s with
      sched := u
      queue := { s.queue with
        lock := { s.queue.lock with waiters := s.queue.lock.waiters ++ [s.sched.current] } }
      pc := Function.update s.pc s.sched.current (.locking op .off) } := by
  have other : ∀ t ∈ s.sched.threads, t ≠ s.sched.current → Inside s t → (u.Sleeps t ↔ s.sched.Sleeps t) := by
    intro t ht hc inside
    rw [moved.asleep t ht (h.inside_ne_idle inside)]
    simp [hc]
  have me : u.Sleeps s.sched.current :=
    (moved.asleep _ h.sched.current_mem blocking.idle).2 (Or.inl rfl)
  constructor
  · exact moved.inv
  · exact h.head_lt
  · exact h.tail_lt
  · exact h.fifo
  · show Function.update s.pc _ _ u.idleThread = .out
    rw [moved.idle, Function.update_of_ne blocking.idle.symm]
    exact h.idle
  · intro t ht inside
    exact h.off_moved moved blocking.off ht trivial inside
  · intro t op' old at_pc
    by_cases hc : t = s.sched.current
    · subst hc
      have both : IoPc.locking op .off = .locking op' old := by simpa using at_pc
      cases both
      rfl
    · exact h.old t op' old (by simpa [hc] using at_pc)
  · exact List.Nodup.append h.queue_nodup (List.nodup_singleton _)
      (List.disjoint_singleton.2 h.current_not_queued)
  · intro t
    show t ∈ s.queue.lock.waiters ++ [s.sched.current] ↔ t ∈ u.threads ∧ u.Sleeps t ∧ _
    rw [List.mem_append, List.mem_singleton, h.queue t, moved.threads]
    by_cases hc : t = s.sched.current
    · subst hc
      simp [h.sched.current_mem, me]
    · simp only [hc, or_false, Function.update_of_ne hc]
      constructor
      · intro ⟨ht, sleeps, op', at_pc⟩
        exact ⟨ht, (other t ht hc (inside_of_locking at_pc)).2 sleeps, op', at_pc⟩
      · intro ⟨ht, sleeps, op', at_pc⟩
        exact ⟨ht, (other t ht hc (inside_of_locking at_pc)).1 sleeps, op', at_pc⟩
  · obtain ⟨o, op', held⟩ := h.held_of_value value
    have hc : o ≠ s.sched.current := by
      intro he
      subst he
      exact blocking.awake op' held.pc
    right
    refine ⟨o, op', ?_, held.lock, ?_, ?_, held.other, ?_⟩
    · show o ∈ u.threads
      rw [moved.threads]
      exact held.mem
    · show Function.update s.pc _ _ o = _
      rw [Function.update_of_ne hc]
      exact held.pc
    · intro t ht hne op'' at_pc
      by_cases hct : t = s.sched.current
      · subst hct
        simp at at_pc
      · exact held.others t (moved.threads ▸ ht) hne op'' (by simpa [hct] using at_pc)
    · show _ ∧ u.Sleeps o ∨ _ ∧ ¬ u.Sleeps o
      rw [other o held.mem hc (inside_of_asleep held.pc)]
      exact held.waiter

theorem IoInv.slept (h : IoInv s) {e : IoEvent} {op : IoOp} (blocking : Blocking s e op)
    (value : s.queue.lock.value = 1)
    (moved : Moved s.sched u (fun _ => True) fun x => x = s.sched.current ∨ s.sched.Sleeps x) :
    IoInv { s with
      sched := u
      queue := { s.queue with lock := ⟨some s.sched.current, 1, 0, s.queue.lock.waiters⟩ }.setWaiter
        (some s.sched.current) op
      pc := Function.update s.pc s.sched.current (.asleep op) } := by
  have free := h.free_of_value (by rw [value]; decide)
  have other : ∀ t ∈ s.sched.threads, t ≠ s.sched.current → Inside s t → (u.Sleeps t ↔ s.sched.Sleeps t) := by
    intro t ht hc inside
    rw [moved.asleep t ht (h.inside_ne_idle inside)]
    simp [hc]
  have me : u.Sleeps s.sched.current :=
    (moved.asleep _ h.sched.current_mem blocking.idle).2 (Or.inl rfl)
  constructor
  · exact moved.inv
  · simpa using h.head_lt
  · simpa using h.tail_lt
  · simpa using h.fifo
  · show Function.update s.pc _ _ u.idleThread = .out
    rw [moved.idle, Function.update_of_ne blocking.idle.symm]
    exact h.idle
  · intro t ht inside
    exact h.off_moved moved blocking.off ht trivial inside
  · intro t op' old at_pc
    by_cases hc : t = s.sched.current
    · subst hc
      simp at at_pc
    · exact h.old t op' old (by simpa [hc] using at_pc)
  · simpa using h.queue_nodup
  · intro t
    simp only [IoQueue.lock_set]
    rw [h.queue t, moved.threads]
    by_cases hc : t = s.sched.current
    · subst hc
      simp only [Function.update_self, reduceCtorEq, exists_false, and_false, iff_false]
      intro ⟨_, sleeps, _⟩
      exact h.sched.current_awake sleeps
    · simp only [Function.update_of_ne hc]
      constructor
      · intro ⟨ht, sleeps, op', at_pc⟩
        exact ⟨ht, (other t ht hc (inside_of_locking at_pc)).2 sleeps, op', at_pc⟩
      · intro ⟨ht, sleeps, op', at_pc⟩
        exact ⟨ht, (other t ht hc (inside_of_locking at_pc)).1 sleeps, op', at_pc⟩
  · right
    refine ⟨s.sched.current, op, ?_, ?_, ?_, ?_, ?_, ?_⟩
    · show _ ∈ u.threads
      rw [moved.threads]
      exact h.sched.current_mem
    · simp
    · simp
    · intro t ht hne op' at_pc
      exact free.none_asleep t (moved.threads ▸ ht) op' (by simpa [hne] using at_pc)
    · simp only [IoQueue.waiter_set_other]
      exact free.waiter op.other
    · exact Or.inl ⟨by simp, me⟩

theorem IoInv.released (h : IoInv s) {op : IoOp} (at_pc : s.pc s.sched.current = .asleep op)
    (moved : Moved s.sched u (fun _ => True)
      fun x => s.queue.lock.waiters.head? ≠ some x ∧ s.sched.Sleeps x) :
    IoInv { s with
      sched := u
      queue := { s.queue with lock := ⟨none, 0, 1, s.queue.lock.waiters.tail⟩ }
      pc := Function.update s.pc s.sched.current (.retry op) } := by
  obtain ⟨held, empty⟩ := h.holds at_pc
  have off : s.sched.intr = .off := by
    have now := h.off _ h.sched.current_mem (inside_of_asleep at_pc)
    simpa only [Sched.Off, if_true] using now
  have tail_iff : ∀ t, t ∈ s.queue.lock.waiters.tail ↔
      s.queue.lock.waiters.head? ≠ some t ∧ t ∈ s.queue.lock.waiters := by
    intro t
    cases waiters : s.queue.lock.waiters with
    | nil => simp
    | cons w rest =>
      have distinct : w ∉ rest ∧ rest.Nodup := List.nodup_cons.1 (waiters ▸ h.queue_nodup)
      by_cases hw : t = w
      · subst hw
        simp [distinct.1]
      · simp [hw, Ne.symm hw]
  constructor
  · exact moved.inv
  · exact h.head_lt
  · exact h.tail_lt
  · exact h.fifo
  · show Function.update s.pc _ _ u.idleThread = .out
    rw [moved.idle, Function.update_of_ne (h.inside_ne_idle (inside_of_asleep at_pc)).symm]
    exact h.idle
  · intro t ht inside
    exact h.off_moved moved off ht trivial inside
  · intro t op' old now
    by_cases hc : t = s.sched.current
    · subst hc
      simp at now
    · exact h.old t op' old (by simpa [hc] using now)
  · exact h.queue_nodup.tail
  · intro t
    show t ∈ s.queue.lock.waiters.tail ↔ t ∈ u.threads ∧ u.Sleeps t ∧ _
    rw [tail_iff, h.queue t, moved.threads]
    by_cases hc : t = s.sched.current
    · subst hc
      simp [at_pc]
    · simp only [Function.update_of_ne hc]
      constructor
      · rintro ⟨behind, ht, sleeps, op', now⟩
        have still := (moved.asleep t ht (h.inside_ne_idle (inside_of_locking now))).2 ⟨behind, sleeps⟩
        exact ⟨ht, still, op', now⟩
      · rintro ⟨ht, sleeps, op', now⟩
        have was := (moved.asleep t ht (h.inside_ne_idle (inside_of_locking now))).1 sleeps
        exact ⟨was.1, ht, was.2, op', now⟩
  · left
    refine ⟨⟨rfl, rfl, rfl⟩, ⟨empty .getchar, empty (.putchar 0)⟩, ?_⟩
    intro t ht op' now
    by_cases hc : t = s.sched.current
    · subst hc
      simp at now
    · exact held.others t (moved.threads ▸ ht) hc op' (by simpa [hc] using now)

/-- Moving a byte keeps the indices in range and the bytes in order. -/
theorem IoInv.move (h : IoInv s) {op : IoOp} (ready : ¬ s.queue.MustWait op) :
    (s.queue.move op).head < bufsize ∧ (s.queue.move op).tail < bufsize ∧
      (s.move op).stored = (s.move op).returned ++
        ringContents bufsize (s.queue.move op).buf (s.queue.move op).head (s.queue.move op).tail := by
  have some_cells : 0 < bufsize := by decide
  cases op with
  | getchar =>
    refine ⟨h.head_lt, Nat.mod_lt _ some_cells, ?_⟩
    simp only [IoSys.move, IoQueue.move]
    rw [h.fifo, ringContents_take _ h.head_lt h.tail_lt ready, List.append_assoc]
    rfl
  | putchar byte =>
    refine ⟨Nat.mod_lt _ some_cells, h.tail_lt, ?_⟩
    have after := @ringContents_put _ _ _ _ s.queue.buf h.head_lt h.tail_lt ready byte
    simp only [IoSys.move, IoQueue.move]
    show _ = s.returned ++ ringContents bufsize _ (ringNext bufsize s.queue.head) _
    rw [after, h.fifo, List.append_assoc]

theorem IoInv.finished (h : IoInv s) {op : IoOp} (ready : ¬ s.queue.MustWait op)
    (awake : ∀ op', s.pc s.sched.current ≠ .asleep op')
    (moved : Moved s.sched u (fun x => x ≠ s.sched.current)
      fun x => s.queue.waiter op.other ≠ some x ∧ s.sched.Sleeps x) :
    IoInv { s.move op with
      sched := u
      queue := (s.queue.move op).setWaiter none op.other
      pc := Function.update s.pc s.sched.current .out } := by
  obtain ⟨head, tail, fifo⟩ := h.move ready
  constructor
  · exact moved.inv
  · simpa using head
  · simpa using tail
  · simpa using fifo
  · show Function.update s.pc _ _ u.idleThread = .out
    rw [moved.idle]
    by_cases hi : s.sched.idleThread = s.sched.current
    · rw [hi, Function.update_self]
    · rw [Function.update_of_ne hi]
      exact h.idle
  · intro t ht inside
    have hc : t ≠ s.sched.current := by
      intro he
      subst he
      simp [Inside] at inside
    have old_mem : t ∈ s.sched.threads := moved.threads ▸ ht
    exact moved.off t old_mem hc (h.off t old_mem (by simpa [Inside, hc] using inside))
  · intro t op' old now
    by_cases hc : t = s.sched.current
    · subst hc
      simp at now
    · exact h.old t op' old (by simpa [hc] using now)
  · simpa using h.queue_nodup
  · intro t
    simp only [IoQueue.lock_set, IoQueue.lock_move]
    rw [h.queue t, moved.threads]
    by_cases hc : t = s.sched.current
    · subst hc
      simp only [Function.update_self, reduceCtorEq, exists_false, and_false, iff_false]
      intro ⟨_, sleeps, _⟩
      exact h.sched.current_awake sleeps
    · simp only [Function.update_of_ne hc]
      constructor
      · intro ⟨ht, sleeps, op', now⟩
        have elsewhere : s.queue.waiter op.other ≠ some t := by
          intro hw
          obtain ⟨op'', held, _⟩ := h.waiter_sleeps hw
          cases now.symm.trans held.pc
        exact ⟨ht, (moved.asleep t ht (h.inside_ne_idle (inside_of_locking now))).2 ⟨elsewhere, sleeps⟩,
          op', now⟩
      · intro ⟨ht, sleeps, op', now⟩
        exact ⟨ht, ((moved.asleep t ht (h.inside_ne_idle (inside_of_locking now))).1 sleeps).2, op', now⟩
  · have pc_out : ∀ t, ∀ op', Function.update s.pc s.sched.current .out t = .asleep op' → s.pc t = .asleep op' := by
      intro t op' now
      by_cases hc : t = s.sched.current
      · subst hc
        simp at now
      · simpa [hc] using now
    have still : ∀ q : IoQueue, (q.setWaiter none op.other).waiter op = q.waiter op := by
      intro q
      have := q.waiter_set_other none op.other
      simpa using this
    rcases h.owner with free | ⟨o, op', held⟩
    · left
      refine ⟨by simpa using free.lock, ?_, ?_⟩
      · cases op
        · exact ⟨free.waiters.1, rfl⟩
        · exact ⟨rfl, free.waiters.2⟩
      · intro t ht op'' now
        exact free.none_asleep t (moved.threads ▸ ht) op'' (pc_out t op'' now)
    · right
      have hc : o ≠ s.sched.current := by
        intro he
        subst he
        exact awake op' held.pc
      have sleeps := moved.asleep o held.mem (h.inside_ne_idle (inside_of_asleep held.pc))
      refine ⟨o, op', ?_, by simpa using held.lock, ?_, ?_, ?_, ?_⟩
      · show o ∈ u.threads
        rw [moved.threads]
        exact held.mem
      · show Function.update s.pc _ _ o = _
        rw [Function.update_of_ne hc]
        exact held.pc
      · intro t ht hne op'' now
        exact held.others t (moved.threads ▸ ht) hne op'' (pc_out t op'' now)
      · rcases IoQueue.waiter_sides op op' with same | across
        · rw [(same _).2, IoQueue.waiter_set]
        · rw [(across _).2, still, IoQueue.waiter_move, ← (across _).2]
          exact held.other
      · show _ ∧ u.Sleeps o ∨ _ ∧ ¬ u.Sleeps o
        rw [sleeps]
        rcases IoQueue.waiter_sides op op' with same | across
        · have unwoken : s.queue.waiter op.other ≠ some o := by
            rw [← (same _).2, held.other]
            simp
          rw [(same _).1, still, IoQueue.waiter_move, ← (same _).1]
          simpa only [unwoken, ne_eq, not_false_eq_true, true_and] using held.waiter
        · right
          rw [(across _).1, IoQueue.waiter_set]
          refine ⟨rfl, ?_⟩
          intro ⟨unwoken, asleep⟩
          rcases held.waiter with ⟨waits, _⟩ | ⟨_, up⟩
          · exact unwoken ((across _).1 ▸ waits)
          · exact up asleep

theorem IoEffect.inv {e : IoEvent} {t : IoSys} (h : IoInv s) (eff : IoEffect s e t) : IoInv t := by
  cases eff with
  | aside moved => exact h.aside moved
  | queued op blocking value moved => exact h.queued blocking value moved
  | slept op blocking value moved => exact h.slept blocking value moved
  | released op at_pc current moved => exact h.released at_pc moved
  | finished op ready awake moving moved => exact h.finished ready awake moved

end Kept

end Zhenxiang.Device
