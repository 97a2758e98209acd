import Zhenxiang.Lib.Trace
import Zhenxiang.Thread.Sync

/-! The lock under every interleaving. One thread at most owns the semaphore, and
what it sees of the lock depends only on where it is; every other thread is
outside, about to call sema_down, or parked inside it. -/
namespace Zhenxiang.Thread
open Lib Kernel

/-- What the lock looks like to the thread t that owns the semaphore, d deep. -/
def OwnerView (l : Lock) (t d : Nat) : Pc → Prop
  | .down | .retest _ => False
  | .setHolder => d = 0 ∧ l.holder = none ∧ l.holderRepeatNr = 0
  | .checkNr | .setNr => d = 0 ∧ l.holder = some t ∧ l.holderRepeatNr = 0
  | .out | .testNr => 0 < d ∧ l.holder = some t ∧ l.holderRepeatNr.toNat = d
  | .incr => 0 < d ∧ d + 1 < 2 ^ 32 ∧ l.holder = some t ∧ l.holderRepeatNr.toNat = d
  | .incrStore n => 0 < d ∧ n.toNat = d + 1 ∧ l.holder = some t ∧ l.holderRepeatNr.toNat = d
  | .decr => 1 < d ∧ l.holder = some t ∧ l.holderRepeatNr.toNat = d
  | .decrStore n => 1 < d ∧ n.toNat = d - 1 ∧ l.holder = some t ∧ l.holderRepeatNr.toNat = d
  | .checkOne | .clearHolder => d = 1 ∧ l.holder = some t ∧ l.holderRepeatNr = 1
  | .clearNr => d = 1 ∧ l.holder = none ∧ l.holderRepeatNr = 1
  | .up => d = 1 ∧ l.holder = none ∧ l.holderRepeatNr = 0

/-- Where a thread can be that does not own the semaphore. -/
def OutsiderView (d : Nat) : Pc → Prop
  | .out | .down => d = 0
  | .retest old => d = 0 ∧ old = .on
  | _ => False

/-- The thread waits inside sema_down, or has been woken and not yet run. -/
def Parked (p : Pc) : Prop := ∃ old, p = .retest old

structure LockInv (s : LockSys) : Prop where
  sched : Inv s.sched
  owner : (∃ o ∈ s.sched.threads, s.lock.value = 0 ∧ OwnerView s.lock o (s.depth o) (s.pc o) ∧
      ∀ t ∈ s.sched.threads, t ≠ o → OutsiderView (s.depth t) (s.pc t)) ∨
    (s.lock.value = 1 ∧ s.lock.holder = none ∧ s.lock.holderRepeatNr = 0 ∧
      ∀ t ∈ s.sched.threads, OutsiderView (s.depth t) (s.pc t))
  idle : s.pc s.sched.idleThread = .out ∧ s.depth s.sched.idleThread = 0
  queue_nodup : s.lock.waiters.Nodup
  queue : ∀ t, t ∈ s.lock.waiters ↔
    t ∈ s.sched.threads ∧ t ≠ s.sched.idleThread ∧ Asleep (s.sched.task t).status
  queue_pc : ∀ t ∈ s.lock.waiters, Parked (s.pc t)
  saved : ∀ t ∈ s.sched.threads, t ≠ s.sched.current →
    ((s.sched.task t).oldStatus = .off ↔ Parked (s.pc t))
  intr : s.sched.intr = .off ↔ Parked (s.pc s.sched.current)
  woken : s.lock.value = 1 → s.lock.waiters ≠ [] →
    ∃ w ∈ s.sched.threads, w ∉ s.lock.waiters ∧ Parked (s.pc w)

theorem OwnerView.congr {l m : Lock} {t d : Nat} {p : Pc} (h : OwnerView l t d p)
    (holder : m.holder = l.holder) (nr : m.holderRepeatNr = l.holderRepeatNr) :
    OwnerView m t d p := by
  cases p <;> simp only [OwnerView, holder, nr] at h ⊢ <;> exact h

theorem not_parked_of_owner {l : Lock} {t d : Nat} {p : Pc} (h : OwnerView l t d p) :
    ¬ Parked p := by
  rintro ⟨old, rfl⟩
  exact h

theorem LockInv.current_not_waiting {s : LockSys} (h : LockInv s) :
    s.sched.current ∉ s.lock.waiters := by
  intro hm
  have hs := ((h.queue _).1 hm).2.2
  rw [h.sched.current_running] at hs
  simp at hs

/-- A thread that cannot be an outsider is the owner. -/
theorem LockInv.owns {s : LockSys} (h : LockInv s) {me : Nat} (hme : me ∈ s.sched.threads)
    (hn : ¬ OutsiderView (s.depth me) (s.pc me)) :
    s.lock.value = 0 ∧ OwnerView s.lock me (s.depth me) (s.pc me) ∧
      ∀ t ∈ s.sched.threads, t ≠ me → OutsiderView (s.depth t) (s.pc t) := by
  rcases h.owner with ⟨o, _, hv, ho, others⟩ | ⟨_, _, _, all⟩
  · have he : me = o := by
      by_contra hne
      exact hn (others me hme hne)
    subst he
    exact ⟨hv, ho, others⟩
  · exact (hn (all me hme)).elim

/-- The running owner moves on, changing only what the lock says of the holder. -/
theorem LockInv.owner_moves {s t : LockSys} (h : LockInv s)
    (hn : ¬ OutsiderView (s.depth s.sched.current) (s.pc s.sched.current))
    (sched : t.sched = s.sched) (value : t.lock.value = s.lock.value)
    (waiters : t.lock.waiters = s.lock.waiters)
    (view : OwnerView t.lock s.sched.current (t.depth s.sched.current) (t.pc s.sched.current))
    (pc : ∀ x, x ≠ s.sched.current → t.pc x = s.pc x)
    (depth : ∀ x, x ≠ s.sched.current → t.depth x = s.depth x) : LockInv t := by
  obtain ⟨hv, ho, others⟩ := h.owns h.sched.current_mem hn
  have hi : s.sched.idleThread ≠ s.sched.current := by
    intro he
    rw [← he, h.idle.1, h.idle.2] at hn
    exact hn rfl
  have parked : ∀ x, Parked (t.pc x) ↔ Parked (s.pc x) := by
    intro x
    by_cases hx : x = s.sched.current
    · subst hx
      exact iff_of_false (not_parked_of_owner view) (not_parked_of_owner ho)
    · rw [pc x hx]
  refine ⟨sched ▸ h.sched, Or.inl ⟨s.sched.current, ?_, ?_, view, ?_⟩, ?_, ?_, ?_, ?_, ?_, ?_, ?_⟩
  · rw [sched]; exact h.sched.current_mem
  · rw [value]; exact hv
  · intro x hx hne
    rw [depth x hne, pc x hne]
    exact others x (sched ▸ hx) hne
  · rw [sched, pc _ hi, depth _ hi]; exact h.idle
  · rw [waiters]; exact h.queue_nodup
  · intro x; rw [waiters, sched]; exact h.queue x
  · intro x hx; rw [parked]; exact h.queue_pc x (waiters ▸ hx)
  · intro x hx hc
    rw [sched] at hx hc ⊢
    rw [parked]
    exact h.saved x hx hc
  · rw [sched, parked]; exact h.intr
  · intro h1
    rw [value, hv] at h1
    cases h1

/-- The processor passes from one thread to another, with the lock as it was. -/
theorem LockInv.switch {s : LockSys} {t : Sched} (h : LockInv s) (inv : Inv t)
    (threads : t.threads = s.sched.threads) (idle : t.idleThread = s.sched.idleThread)
    (asleep : ∀ x ∈ s.sched.threads, x ≠ s.sched.idleThread →
      (Asleep (t.task x).status ↔ Asleep (s.sched.task x).status))
    (others : ∀ x, x ≠ s.sched.current → (t.task x).oldStatus = (s.sched.task x).oldStatus)
    (me : (t.task s.sched.current).oldStatus = s.sched.intr)
    (intr : t.intr = (t.task t.current).oldStatus) : LockInv { s with sched := t } := by
  have saved : ∀ x ∈ s.sched.threads, ((t.task x).oldStatus = .off ↔ Parked (s.pc x)) := by
    intro x hx
    by_cases hc : x = s.sched.current
    · subst hc; rw [me]; exact h.intr
    · rw [others x hc]; exact h.saved x hx hc
  refine ⟨inv, ?_, ?_, h.queue_nodup, ?_, h.queue_pc, ?_, ?_, ?_⟩
  · show _ ∨ _
    simp only [threads]
    exact h.owner
  · show s.pc t.idleThread = .out ∧ s.depth t.idleThread = 0
    rw [idle]; exact h.idle
  · intro x
    show _ ↔ x ∈ t.threads ∧ x ≠ t.idleThread ∧ _
    rw [h.queue, threads, idle]
    constructor
    · rintro ⟨hx, hi, hs⟩
      exact ⟨hx, hi, (asleep x hx hi).2 hs⟩
    · rintro ⟨hx, hi, hs⟩
      exact ⟨hx, hi, (asleep x hx hi).1 hs⟩
  · intro x hx _
    exact saved x (threads ▸ hx)
  · show t.intr = .off ↔ Parked (s.pc t.current)
    rw [intr]
    exact saved _ (threads ▸ inv.current_mem)
  · intro h1 hw
    show ∃ w ∈ t.threads, _
    rw [threads]
    exact h.woken h1 hw

theorem preempt_spec {s : Sched} (h : Inv s) :
    Succeeds preempt (fun _ t => Inv t ∧ t.threads = s.threads ∧ t.idleThread = s.idleThread ∧
      (∀ x ∈ s.threads, x ≠ s.idleThread →
        (Asleep (t.task x).status ↔ Asleep (s.task x).status)) ∧
      (∀ x, x ≠ s.current → (t.task x).oldStatus = (s.task x).oldStatus) ∧
      (t.task s.current).oldStatus = s.intr ∧ t.intr = (t.task t.current).oldStatus) s := by
  simp only [preempt, intrTimerHandler, intrDisable, intrSetStatus, Succeeds, wp_bind, wp_get,
    wp_set, wp_pure, wp_assert, wp_modify, wp_ite]
  have hm := h.magic _ h.current_mem
  refine ⟨fun _ => ⟨fun _ => ?_, fun hn => (hn ?_).elim⟩, fun hn => hn ?_⟩
  · refine wp_post (schedule_spec (Inv.toCore (h.congr rfl rfl rfl rfl rfl rfl ?_ ?_)) rfl) ?_
    · intro x
      by_cases hx : x = s.current <;> simp [Sched.setOldStatus, hx]
    · intro x
      by_cases hx : x = s.current <;> simp [Sched.setOldStatus, hx]
    · rintro - t ⟨ht, hf, hi⟩
      refine ⟨ht, hf.threads, hf.idle, ?_, ?_, ?_, hi⟩
      · intro x hx hxi
        rw [hf.asleep x hx hxi]
        by_cases hc : x = s.current <;> simp [Sched.setOldStatus, hc]
      · intro x hx
        rw [hf.oldStatus]
        simp [Sched.setOldStatus, hx]
      · rw [hf.oldStatus]
        simp [Sched.setOldStatus]
  · simp [Sched.setOldStatus]
  · simpa [Sched.setOldStatus] using hm

theorem LockInv.idle_ne {s : LockSys} (h : LockInv s) (hp : s.pc s.sched.current ≠ .out) :
    s.sched.current ≠ s.sched.idleThread := by
  intro he
  rw [he] at hp
  exact hp h.idle.1

/-- The running thread queues on the semaphore and gives up the processor. -/
theorem LockInv.park {s : LockSys} {t : Sched} (h : LockInv s)
    (hi : s.sched.current ≠ s.sched.idleThread)
    (hd : s.depth s.sched.current = 0)
    (hp : s.pc s.sched.current = .down ∨ s.pc s.sched.current = .retest .on)
    (value : s.lock.value = 0) (inv : Inv t)
    (frame : Frame (Sched.asleep { s.sched with intr := .off } .blocked) t)
    (intr : t.intr = (t.task t.current).oldStatus) :
    LockInv { s with
      sched := t
      lock := { s.lock with waiters := s.lock.waiters ++ [s.sched.current] }
      pc := Function.update s.pc s.sched.current (.retest .on) } := by
  have threads : t.threads = s.sched.threads := frame.threads
  have idle : t.idleThread = s.sched.idleThread := frame.idle
  have asleep : ∀ x ∈ s.sched.threads, x ≠ s.sched.idleThread →
      (Asleep (t.task x).status ↔ x = s.sched.current ∨ Asleep (s.sched.task x).status) := by
    intro x hx hxi
    rw [frame.asleep x hx hxi]
    by_cases hc : x = s.sched.current
    · simp [Sched.asleep, Sched.setStatus, Sched.setOldStatus, hc, Asleep]
    · simp [Sched.asleep, Sched.setStatus, Sched.setOldStatus, hc]
  have saved : ∀ x ∈ s.sched.threads, ((t.task x).oldStatus = .off ↔
      Parked (Function.update s.pc s.sched.current (.retest .on) x)) := by
    intro x hx
    rw [frame.oldStatus]
    by_cases hc : x = s.sched.current
    · simp [Sched.asleep, Sched.setStatus, Sched.setOldStatus, hc, Parked]
    · simpa [Sched.asleep, Sched.setStatus, Sched.setOldStatus, hc] using h.saved x hx hc
  refine ⟨inv, ?_, ?_, ?_, ?_, ?_, ?_, ?_, ?_⟩
  · rcases h.owner with ⟨o, ho, hv, view, others⟩ | ⟨hv, _⟩
    · have hne : o ≠ s.sched.current := by
        rintro rfl
        rcases hp with hp | hp <;> rw [hp] at view <;> exact view
      refine Or.inl ⟨o, threads ▸ ho, hv, ?_, ?_⟩
      · show OwnerView _ o (s.depth o) (Function.update s.pc _ _ o)
        rw [Function.update_of_ne hne]
        exact view.congr rfl rfl
      · intro x hx hxo
        by_cases hc : x = s.sched.current
        · subst hc; simp [OutsiderView, hd]
        · simpa [hc] using others x (threads ▸ hx) hxo
    · rw [value] at hv; cases hv
  · show Function.update s.pc _ _ t.idleThread = .out ∧ s.depth t.idleThread = 0
    rw [idle, Function.update_of_ne hi.symm]
    exact h.idle
  · show (s.lock.waiters ++ [s.sched.current]).Nodup
    rw [List.nodup_append_comm]
    exact List.nodup_cons.2 ⟨h.current_not_waiting, h.queue_nodup⟩
  · intro x
    show x ∈ s.lock.waiters ++ [s.sched.current] ↔ x ∈ t.threads ∧ x ≠ t.idleThread ∧ _
    rw [List.mem_append, List.mem_singleton, h.queue, threads, idle]
    constructor
    · rintro (⟨hx, hxi, hs⟩ | rfl)
      · exact ⟨hx, hxi, (asleep x hx hxi).2 (Or.inr hs)⟩
      · exact ⟨h.sched.current_mem, hi, (asleep _ h.sched.current_mem hi).2 (Or.inl rfl)⟩
    · rintro ⟨hx, hxi, hs⟩
      rcases (asleep x hx hxi).1 hs with hc | hs
      · exact Or.inr hc
      · exact Or.inl ⟨hx, hxi, hs⟩
  · intro x hx
    show Parked (Function.update s.pc _ _ x)
    by_cases hc : x = s.sched.current
    · subst hc; exact ⟨.on, by simp⟩
    · rw [Function.update_of_ne hc]
      refine h.queue_pc x ?_
      simpa [hc] using hx
  · intro x hx _
    exact saved x (threads ▸ hx)
  · show t.intr = .off ↔ _
    rw [intr]
    exact saved _ (threads ▸ inv.current_mem)
  · intro h1
    rw [show s.lock.value = 1 from h1] at value
    cases value

/-- The running thread takes the semaphore. -/
theorem LockInv.take {s : LockSys} (h : LockInv s)
    (hi : s.sched.current ≠ s.sched.idleThread) (hd : s.depth s.sched.current = 0)
    (value : s.lock.value = 1) :
    LockInv { s with
      sched := { s.sched with intr := .on }
      lock := { s.lock with value := 0 }
      pc := Function.update s.pc s.sched.current .setHolder } := by
  have free : s.lock.holder = none ∧ s.lock.holderRepeatNr = 0 ∧
      ∀ t ∈ s.sched.threads, OutsiderView (s.depth t) (s.pc t) := by
    rcases h.owner with ⟨_, _, hv, _⟩ | ⟨_, hh, hr, all⟩
    · rw [value] at hv; cases hv
    · exact ⟨hh, hr, all⟩
  refine ⟨h.sched.congr rfl rfl rfl rfl rfl rfl (fun _ => rfl) fun _ => rfl,
    Or.inl ⟨s.sched.current, h.sched.current_mem, rfl, ?_, ?_⟩, ?_, h.queue_nodup, h.queue,
    ?_, ?_, ?_, ?_⟩
  · simpa [OwnerView] using ⟨hd, free.1, free.2.1⟩
  · intro x hx hne
    simpa [hne] using free.2.2 x hx
  · show Function.update s.pc _ _ s.sched.idleThread = .out ∧ _
    rw [Function.update_of_ne hi.symm]
    exact h.idle
  · intro x hx
    have hc : x ≠ s.sched.current := by
      rintro rfl
      exact h.current_not_waiting hx
    show Parked (Function.update s.pc _ _ x)
    rw [Function.update_of_ne hc]
    exact h.queue_pc x hx
  · intro x hx hc
    show _ ↔ Parked (Function.update s.pc _ _ x)
    rw [Function.update_of_ne hc]
    exact h.saved x hx hc
  · simp [Parked]
  · intro h1; cases h1

/-- The running owner gives the semaphore up, and has woken the first waiter. -/
theorem LockInv.giveUp {s : LockSys} {t : Sched} {q : List Nat} (h : LockInv s)
    (hp : s.pc s.sched.current = .up) (inv : Inv t) (threads : t.threads = s.sched.threads)
    (idle : t.idleThread = s.sched.idleThread) (current : t.current = s.sched.current)
    (intr : t.intr = .on)
    (queue : ∀ x, x ∈ q ↔ x ∈ t.threads ∧ x ≠ t.idleThread ∧ Asleep (t.task x).status)
    (nodup : q.Nodup) (sub : ∀ x ∈ q, x ∈ s.lock.waiters)
    (saved : ∀ x, (t.task x).oldStatus = (s.sched.task x).oldStatus)
    (woken : q ≠ [] → ∃ w ∈ s.lock.waiters, w ∉ q) :
    LockInv { s with
      sched := t
      lock := { s.lock with value := 1, waiters := q }
      pc := Function.update s.pc s.sched.current .out
      depth := Function.update s.depth s.sched.current 0 } := by
  obtain ⟨-, view, others⟩ := h.owns h.sched.current_mem (by rw [hp]; exact id)
  rw [hp] at view
  have hi := h.idle_ne (by rw [hp]; decide)
  have waiting : ∀ x ∈ s.lock.waiters, x ≠ s.sched.current := by
    rintro x hx rfl
    exact h.current_not_waiting hx
  refine ⟨inv, Or.inr ⟨rfl, view.2.1, view.2.2, ?_⟩, ?_, nodup, queue, ?_, ?_, ?_, ?_⟩
  · intro x hx
    by_cases hc : x = s.sched.current
    · subst hc; simp [OutsiderView]
    · simpa [hc] using others x (threads ▸ hx) hc
  · show Function.update s.pc _ _ t.idleThread = .out ∧
      Function.update s.depth _ _ t.idleThread = 0
    rw [idle, Function.update_of_ne hi.symm, Function.update_of_ne hi.symm]
    exact h.idle
  · intro x hx
    show Parked (Function.update s.pc _ _ x)
    rw [Function.update_of_ne (waiting x (sub x hx))]
    exact h.queue_pc x (sub x hx)
  · intro x hx hc
    have hc' : x ≠ s.sched.current := fun he => hc (he.trans current.symm)
    show _ ↔ Parked (Function.update s.pc _ _ x)
    rw [Function.update_of_ne hc', saved]
    exact h.saved x (threads ▸ hx) hc'
  · show t.intr = .off ↔ Parked (Function.update s.pc _ _ t.current)
    rw [intr, current]
    simp [Parked]
  · intro _ hne
    obtain ⟨w, hw, hout⟩ := woken hne
    refine ⟨w, threads ▸ ((h.queue w).1 hw).1, hout, ?_⟩
    show Parked (Function.update s.pc _ _ w)
    rw [Function.update_of_ne (waiting w hw)]
    exact h.queue_pc w hw

theorem wp_onSched {α : Type} {c : Kern Sched α} {Q : α → LockSys → Prop} {E : Fault → Prop}
    {s : LockSys} :
    wp (onSched c) Q E s ↔ wp c (fun a t => Q a { s with sched := t }) E s.sched :=
  wp_zoom

/-- A turn of the loop in sema_down keeps the invariant, whether the thread has just
come in or has been woken. -/
theorem semaDownTurn_spec {s : LockSys} (h : LockInv s)
    (hp : s.pc s.sched.current = .down ∨ s.pc s.sched.current = .retest .on) :
    Succeeds (semaDownTurn .on) (fun _ t => LockInv t)
      { s with sched := { s.sched with intr := .off } } := by
  have hi := h.idle_ne (by rcases hp with hp | hp <;> rw [hp] <;> decide)
  have view : OutsiderView (s.depth s.sched.current) (s.pc s.sched.current) := by
    by_contra hn
    have hv := (h.owns h.sched.current_mem hn).2.1
    rcases hp with hp | hp <;> rw [hp] at hv <;> exact hv
  have hd : s.depth s.sched.current = 0 := by
    rcases hp with hp | hp <;> rw [hp] at view
    · exact view
    · exact view.1
  have off : Inv { s.sched with intr := .off } :=
    h.sched.congr rfl rfl rfl rfl rfl rfl (fun _ => rfl) fun _ => rfl
  simp only [semaDownTurn, runningThread, intrSetStatus, Succeeds, wp_bind, wp_get, wp_pure,
    wp_ite, wp_assert, wp_modify, wp_onSched]
  refine ⟨fun value => ⟨fun _ => ?_, fun hn => hn h.current_not_waiting⟩, fun hv => ?_⟩
  · refine wp_post (threadBlock_spec off (by decide)) ?_
    rintro - t ⟨inv, frame, intr⟩
    exact h.park hi hd hp value inv frame intr
  · have value : s.lock.value = 1 := by
      rcases h.owner with ⟨_, _, h0, _⟩ | ⟨h1, _⟩
      · exact (hv h0).elim
      · exact h1
    have hz : s.lock.value - 1 = 0 := by rw [value]; rfl
    refine ⟨fun _ => ?_, fun hn => hn hz⟩
    have ht := h.take hi hd value
    rw [← hz] at ht
    exact ht

theorem wakeWaiter_nil {s : LockSys} {Q : Unit → LockSys → Prop} {E : Fault → Prop}
    (hw : s.lock.waiters = []) : wp wakeWaiter Q E s ↔ Q () s := by
  simp only [wakeWaiter, wp_bind, wp_get, hw, wp_pure]

theorem wakeWaiter_cons {s : LockSys} {w : Nat} {rest : List Nat} {Q : Unit → LockSys → Prop}
    {E : Fault → Prop} (hw : s.lock.waiters = w :: rest)
    (hs : Asleep (s.sched.task w).status) (hout : w ∉ s.sched.threadReadyList) :
    wp wakeWaiter Q E s ↔
      Q () { s with sched := s.sched.enqueueFront w, lock := { s.lock with waiters := rest } } := by
  simp only [wakeWaiter, wp_bind, wp_get, hw, wp_modify, wp_onSched]
  exact wp_threadUnblock hs hout

/-- sema_up as the last step of lock_release. -/
theorem semaUp_spec {s : LockSys} (h : LockInv s) (hp : s.pc s.sched.current = .up) :
    Succeeds semaUp (fun _ t => t.depth = s.depth ∧
      LockInv (t.finish s.sched.current 0)) s := by
  obtain ⟨value, view, -⟩ := h.owns h.sched.current_mem (by rw [hp]; exact id)
  have on : s.sched.intr = .on := by
    cases hi : s.sched.intr with
    | on => rfl
    | off =>
      obtain ⟨old, ho⟩ := h.intr.1 hi
      rw [hp] at ho
      cases ho
  have hone : s.lock.value + 1 = 1 := by rw [value]; rfl
  simp only [semaUp, intrDisable, intrSetStatus, Succeeds, wp_bind, wp_get, wp_set, wp_pure,
    wp_assert, wp_modify, wp_onSched]
  refine ⟨fun _ => ?_, fun hn => hn value⟩
  cases hw : s.lock.waiters with
  | nil =>
    rw [wakeWaiter_nil (by exact hw)]
    refine ⟨fun _ => ⟨rfl, ?_⟩, fun hn => hn hone⟩
    have := h.giveUp (t := s.sched) (q := s.lock.waiters) hp h.sched rfl rfl rfl on h.queue
      h.queue_nodup (fun _ hx => hx) (fun _ => rfl) (fun hne => (hne hw).elim)
    rw [← hone] at this
    simpa only [LockSys.finish, LockSys.goto, LockSys.onLock] using this
  | cons w rest =>
    have hm : w ∈ s.lock.waiters := hw ▸ List.mem_cons_self
    obtain ⟨hwt, hwi, hws⟩ := (h.queue w).1 hm
    have hnd : w ∉ rest ∧ rest.Nodup := List.nodup_cons.1 (hw ▸ h.queue_nodup)
    have hwc : s.sched.current ≠ w := by
      rintro rfl
      exact h.current_not_waiting hm
    have hout : w ∉ s.sched.threadReadyList := by
      intro hr
      rw [((h.sched.ready_iff w).1 hr).2] at hws
      simp at hws
    rw [wakeWaiter_cons (by exact hw) (by exact hws) (by exact hout)]
    refine ⟨fun _ => ⟨rfl, ?_⟩, fun hn => hn hone⟩
    have inv : Inv (s.sched.enqueueFront w) :=
      ⟨h.sched.toCore.enqueueFront hwt hws, by
        simpa [Sched.enqueueFront, Sched.setStatus, hwc] using h.sched.current_running⟩
    have := h.giveUp (t := { s.sched.enqueueFront w with intr := .on }) (q := rest) hp
      (inv.congr rfl rfl rfl rfl rfl rfl (fun _ => rfl) fun _ => rfl) rfl rfl rfl rfl ?_ hnd.2
      (fun x hx => hw ▸ List.mem_cons_of_mem w hx) ?_ (fun _ => ⟨w, hm, hnd.1⟩)
    · rw [← hone] at this
      rw [on]
      exact this
    · intro x
      have hq := h.queue x
      rw [hw, List.mem_cons] at hq
      by_cases hx : x = w
      · subst hx; simp [hnd.1, Sched.enqueueFront, Sched.setStatus]
      · simpa [hx, Sched.enqueueFront, Sched.setStatus] using hq
    · intro x
      by_cases hx : x = w <;> simp [Sched.enqueueFront, Sched.setStatus, hx]

/-- A thread starts a call, or goes on inside sema_down, without touching the lock. -/
theorem LockInv.enter {s : LockSys} (h : LockInv s)
    (hi : s.sched.current ≠ s.sched.idleThread) (hp : s.pc s.sched.current = .out)
    (hn : s.lock.holder ≠ some s.sched.current) : LockInv (s.goto s.sched.current .down) := by
  have hd : s.depth s.sched.current = 0 := by
    by_contra hd
    obtain ⟨-, view, -⟩ := h.owns h.sched.current_mem (by rw [hp]; exact hd)
    rw [hp] at view
    exact hn view.2.1
  have parked : ∀ x, Parked ((s.goto s.sched.current .down).pc x) ↔ Parked (s.pc x) := by
    intro x
    by_cases hx : x = s.sched.current
    · subst hx; simp [LockSys.goto, Parked, hp]
    · simp [LockSys.goto, hx]
  have outsider : ∀ x, OutsiderView (s.depth x) (s.pc x) →
      OutsiderView (s.depth x) ((s.goto s.sched.current .down).pc x) := by
    intro x hx
    by_cases hc : x = s.sched.current
    · subst hc; simpa [LockSys.goto, OutsiderView] using hd
    · simpa [LockSys.goto, hc] using hx
  refine ⟨h.sched, ?_, ?_, h.queue_nodup, h.queue, ?_, ?_, ?_, ?_⟩
  · rcases h.owner with ⟨o, ho, hv, view, others⟩ | ⟨hv, hh, hr, all⟩
    · have hne : o ≠ s.sched.current := by
        rintro rfl
        rw [hp] at view
        exact hn view.2.1
      refine Or.inl ⟨o, ho, hv, ?_, fun x hx hxo => outsider x (others x hx hxo)⟩
      simpa [LockSys.goto, hne] using view
    · exact Or.inr ⟨hv, hh, hr, fun x hx => outsider x (all x hx)⟩
  · simpa [LockSys.goto, hi.symm] using h.idle
  · intro x hx
    exact (parked x).2 (h.queue_pc x hx)
  · intro x hx hc
    exact (h.saved x hx hc).trans (parked x).symm
  · exact h.intr.trans (parked _).symm
  · intro h1 hw
    obtain ⟨w, hm, hout, hwp⟩ := h.woken h1 hw
    exact ⟨w, hm, hout, (parked w).2 hwp⟩

/-- Nested calls of lock_acquire stay below the range of holder_repeat_nr. -/
def Shallow (s : LockSys) (e : LockEvent) : Prop :=
  e = .acquire → s.depth s.sched.current + 1 < 2 ^ 32

theorem lockAcquire_spec {s : LockSys} (h : LockInv s)
    (hi : s.sched.current ≠ s.sched.idleThread) (hp : s.pc s.sched.current = .out)
    (hd : s.depth s.sched.current + 1 < 2 ^ 32) :
    Succeeds lockAcquire (fun _ t => LockInv t) s := by
  simp only [lockAcquire, runningThread, Succeeds, wp_bind, wp_get, wp_pure, wp_ite, wp_modify]
  refine ⟨fun hn => h.enter hi hp hn, fun hn => ?_⟩
  have hh : s.lock.holder = some s.sched.current := not_not.1 hn
  have hout : ¬ OutsiderView (s.depth s.sched.current) (s.pc s.sched.current) := by
    intro hv
    rcases h.owner with ⟨o, ho, _, view, others⟩ | ⟨_, hnone, _⟩
    · by_cases ho' : o = s.sched.current
      · subst ho'
        rw [hp] at view hv
        exact absurd hv view.1.ne'
      · have := others _ h.sched.current_mem (Ne.symm ho')
        cases hpo : s.pc o <;> rw [hpo] at view <;> simp_all [OwnerView]
    · rw [hh] at hnone; cases hnone
  obtain ⟨-, view, -⟩ := h.owns h.sched.current_mem hout
  rw [hp] at view
  refine h.owner_moves hout rfl rfl rfl ?_ (fun x hx => by simp [LockSys.goto, hx]) fun _ _ => rfl
  simpa [LockSys.goto, OwnerView] using ⟨view.1, hd, view.2⟩

theorem lockRelease_spec {s : LockSys} (h : LockInv s) (hp : s.pc s.sched.current = .out)
    (hd : 0 < s.depth s.sched.current) : Succeeds lockRelease (fun _ t => LockInv t) s := by
  have hout : ¬ OutsiderView (s.depth s.sched.current) (s.pc s.sched.current) := by
    rw [hp]
    exact hd.ne'
  obtain ⟨-, view, -⟩ := h.owns h.sched.current_mem hout
  rw [hp] at view
  simp only [lockRelease, runningThread, Succeeds, wp_bind, wp_get, wp_pure, wp_assert, wp_modify]
  refine ⟨fun _ => ?_, fun hn => hn view.2.1⟩
  refine h.owner_moves hout rfl rfl rfl ?_ (fun x hx => by simp [LockSys.goto, hx]) fun _ _ => rfl
  simpa [LockSys.goto, OwnerView] using view

section Owner
variable {s : LockSys} (h : LockInv s)
include h

/-- What the running thread knows of the lock at a point only the owner reaches. -/
theorem LockInv.view_at {p : Pc} (hp : s.pc s.sched.current = p)
    (hn : ¬ OutsiderView (s.depth s.sched.current) p) :
    OwnerView s.lock s.sched.current (s.depth s.sched.current) p := by
  subst hp
  exact (h.owns h.sched.current_mem hn).2.1

/-- The owner only moves its program counter. -/
theorem LockInv.owner_goto {p q : Pc} (hp : s.pc s.sched.current = p)
    (hn : ¬ OutsiderView (s.depth s.sched.current) p)
    (view : OwnerView s.lock s.sched.current (s.depth s.sched.current) q) :
    LockInv (s.goto s.sched.current q) := by
  refine h.owner_moves (hp ▸ hn) rfl rfl rfl ?_ (fun x hx => by simp [LockSys.goto, hx])
    fun _ _ => rfl
  simpa [LockSys.goto] using view

/-- The owner writes the lock and moves its program counter. -/
theorem LockInv.owner_write {p q : Pc} {f : Lock → Lock} (hp : s.pc s.sched.current = p)
    (hn : ¬ OutsiderView (s.depth s.sched.current) p) (value : (f s.lock).value = s.lock.value)
    (waiters : (f s.lock).waiters = s.lock.waiters)
    (view : OwnerView (f s.lock) s.sched.current (s.depth s.sched.current) q) :
    LockInv ((s.onLock f).goto s.sched.current q) := by
  refine h.owner_moves (hp ▸ hn) rfl value waiters ?_ (fun x hx => by
    simp [LockSys.goto, LockSys.onLock, hx]) fun _ _ => rfl
  simpa [LockSys.goto, LockSys.onLock] using view

/-- The owner writes the counter of the lock and returns. -/
theorem LockInv.owner_finish {p : Pc} {n : UInt32} {d : Nat} (hp : s.pc s.sched.current = p)
    (hn : ¬ OutsiderView (s.depth s.sched.current) p)
    (view : OwnerView { s.lock with holderRepeatNr := n } s.sched.current d .out) :
    LockInv ((s.onLock fun l => { l with holderRepeatNr := n }).finish s.sched.current d) := by
  refine h.owner_moves (hp ▸ hn) rfl rfl rfl ?_ (fun x hx => by
    simp [LockSys.finish, LockSys.goto, LockSys.onLock, hx]) fun x hx => by
      simp [LockSys.finish, LockSys.goto, LockSys.onLock, hx]
  simpa [LockSys.finish, LockSys.goto, LockSys.onLock] using view

end Owner

/-- One case for each place in lock_acquire and lock_release. -/
theorem advance_spec {s : LockSys} (h : LockInv s) (hout : s.pc s.sched.current ≠ .out) :
    Succeeds advance (fun _ t => LockInv t) s := by
  simp only [advance, runningThread, Succeeds, wp_bind, wp_get, wp_pure]
  cases hp : s.pc s.sched.current with
  | out => exact (hout hp).elim
  | down =>
    have on : s.sched.intr = .on := by
      cases hi : s.sched.intr with
      | on => rfl
      | off =>
        obtain ⟨old, ho⟩ := h.intr.1 hi
        rw [hp] at ho
        cases ho
    simp only [semaDown, intrDisable, wp_bind, wp_onSched, wp_get, wp_set, wp_pure, on]
    exact semaDownTurn_spec h (Or.inl hp)
  | retest old =>
    have hold : old = .on := by
      by_contra hne
      have hn : ¬ OutsiderView (s.depth s.sched.current) (.retest old) := fun hv => hne hv.2
      exact h.view_at hp hn
    have off : s.sched.intr = .off := h.intr.2 ⟨old, hp⟩
    have same : ({ s with sched := { s.sched with intr := .off } } : LockSys) = s := by
      rw [← off]
    subst hold
    have spec := semaDownTurn_spec h (Or.inr hp)
    rw [same] at spec
    exact spec
  | setHolder =>
    obtain ⟨hd, _, hr⟩ := h.view_at hp id
    simp only [wp_bind, wp_modify]
    exact h.owner_write hp id rfl rfl ⟨hd, rfl, hr⟩
  | checkNr =>
    have view := h.view_at hp id
    simp only [wp_bind, wp_get, wp_assert, wp_modify]
    exact ⟨fun _ => h.owner_goto hp id view, fun hn => hn view.2.2⟩
  | setNr =>
    obtain ⟨hd, hh, _⟩ := h.view_at hp id
    simp only [wp_bind, wp_modify]
    exact h.owner_finish hp id ⟨Nat.succ_pos _, hh, by
      show (1 : UInt32).toNat = s.depth s.sched.current + 1
      rw [hd]; rfl⟩
  | incr =>
    obtain ⟨hd, hlt, hh, hr⟩ := h.view_at hp id
    simp only [wp_modify]
    refine h.owner_goto hp id ⟨hd, ?_, hh, hr⟩
    rw [UInt32.toNat_add, hr]
    exact Nat.mod_eq_of_lt hlt
  | incrStore n =>
    obtain ⟨_, hn, hh, _⟩ := h.view_at hp id
    simp only [wp_bind, wp_modify]
    exact h.owner_finish hp id ⟨Nat.succ_pos _, hh, hn⟩
  | testNr =>
    obtain ⟨hd, hh, hr⟩ := h.view_at hp id
    simp only [wp_bind, wp_get, wp_ite, wp_modify]
    constructor
    · intro hgt
      refine h.owner_goto hp id ⟨?_, hh, hr⟩
      rw [← hr]
      exact UInt32.lt_iff_toNat_lt.1 hgt
    · intro hle
      have hone : s.depth s.sched.current = 1 := by
        have : ¬ 1 < s.lock.holderRepeatNr.toNat := fun hlt => hle (UInt32.lt_iff_toNat_lt.2 hlt)
        omega
      refine h.owner_goto hp id ⟨hone, hh, ?_⟩
      exact UInt32.toNat_inj.1 (hr.trans hone)
  | decr =>
    obtain ⟨hd, hh, hr⟩ := h.view_at hp id
    simp only [wp_modify]
    refine h.owner_goto hp id ⟨hd, ?_, hh, hr⟩
    rw [UInt32.toNat_sub_of_le _ _ (UInt32.le_iff_toNat_le.2 (by rw [hr]; exact hd.le)), hr]
    rfl
  | decrStore n =>
    obtain ⟨hd, hn, hh, _⟩ := h.view_at hp id
    simp only [wp_bind, wp_modify]
    exact h.owner_finish hp id ⟨Nat.sub_pos_of_lt hd, hh, hn⟩
  | checkOne =>
    have view := h.view_at hp id
    simp only [wp_bind, wp_get, wp_assert, wp_modify]
    exact ⟨fun _ => h.owner_goto hp id view, fun hn => hn view.2.2⟩
  | clearHolder =>
    obtain ⟨hd, _, hr⟩ := h.view_at hp id
    simp only [wp_bind, wp_modify]
    exact h.owner_write hp id rfl rfl ⟨hd, rfl, hr⟩
  | clearNr =>
    obtain ⟨hd, hh, _⟩ := h.view_at hp id
    simp only [wp_bind, wp_modify]
    exact h.owner_write hp id rfl rfl ⟨hd, hh, rfl⟩
  | up =>
    have hd : s.depth s.sched.current = 1 := (h.view_at hp id).1
    simp only [wp_bind, wp_modify]
    refine wp_post (semaUp_spec h hp) ?_
    rintro - t ⟨depth, inv⟩
    rw [depth, hd]
    exact inv

theorem lockPerform_spec {s : LockSys} (h : LockInv s) {e : LockEvent}
    (allowed : LockAllowed s e) (shallow : Shallow s e) :
    Succeeds (lockPerform e) (fun _ t => LockInv t) s := by
  cases e with
  | preempt =>
    refine wp_onSched.2 (wp_post (preempt_spec h.sched) ?_)
    rintro - t ⟨inv, threads, idle, asleep, others, me, intr⟩
    exact h.switch inv threads idle asleep others me intr
  | idle =>
    refine wp_onSched.2 (wp_post (threadBlock_spec h.sched (by decide)) ?_)
    rintro - t ⟨inv, frame, intr⟩
    refine h.switch inv frame.threads frame.idle ?_ ?_ ?_ intr
    · intro x hx hxi
      have hxc : x ≠ s.sched.current := fun he => hxi (he.trans allowed)
      rw [frame.asleep x hx hxi]
      simp [Sched.asleep, Sched.setStatus, Sched.setOldStatus, hxc]
    · intro x hx
      rw [frame.oldStatus]
      simp [Sched.asleep, Sched.setStatus, Sched.setOldStatus, hx]
    · rw [frame.oldStatus]
      simp [Sched.asleep, Sched.setStatus, Sched.setOldStatus]
  | acquire => exact lockAcquire_spec h allowed.1 allowed.2 (shallow rfl)
  | release => exact lockRelease_spec h allowed.2.1 allowed.2.2
  | advance => exact advance_spec h allowed

theorem LockStart.inv {s : LockSys} (h : LockStart s) : LockInv s := by
  obtain ⟨l, hl⟩ := h.lock
  have queue : s.lock.waiters = [] := by rw [hl]; rfl
  have not_parked : ∀ t, ¬ Parked (s.pc t) := by
    rintro t ⟨old, ho⟩
    rw [h.pc] at ho
    cases ho
  refine ⟨h.sched, Or.inr ⟨by rw [hl]; rfl, by rw [hl]; rfl, by rw [hl]; rfl, ?_⟩,
    ⟨h.pc _, h.depth _⟩, by rw [queue]; exact List.nodup_nil, ?_, ?_, ?_, ?_, ?_⟩
  · intro t _
    rw [h.pc]
    exact h.depth t
  · intro t
    rw [queue]
    constructor
    · intro ht; cases ht
    · rintro ⟨ht, hi, hs⟩
      exact (h.awake t ht hi hs).elim
  · rw [queue]
    intro t ht
    cases ht
  · intro t ht _
    rw [h.oldStatus t ht]
    exact iff_of_false (by decide) (not_parked t)
  · rw [h.intr]
    exact iff_of_false (by decide) (not_parked _)
  · intro _ hne
    exact (hne queue).elim

/-- A step in which no thread nests lock_acquire 2^32 deep. -/
def ShallowStep (s t : LockSys) : Prop :=
  ∃ e, LockAllowed s e ∧ Shallow s e ∧ lockPerform e s = .ok ((), t)

theorem reachable_lockInv {s : LockSys} (h : Reachable LockStart ShallowStep s) : LockInv s := by
  refine h.invariant (fun s hs => hs.inv) ?_
  rintro s t hs ⟨e, allowed, shallow, ht⟩
  exact (wp_of_ok ht).1 (lockPerform_spec hs allowed shallow)

/-- A thread that is not outside lock_acquire owns the semaphore. -/
theorem LockInv.holds {s : LockSys} (h : LockInv s) {t : Nat} (ht : t ∈ s.sched.threads)
    (hd : 0 < s.depth t) : s.lock.value = 0 ∧
      (s.pc t ≠ .up → s.lock.holderRepeatNr.toNat = s.depth t) ∧
      ∀ u ∈ s.sched.threads, 0 < s.depth u → u = t := by
  have outsider : ∀ u, OutsiderView (s.depth u) (s.pc u) → s.depth u = 0 := by
    intro u hu
    cases hp : s.pc u <;> rw [hp] at hu <;> first | exact hu | exact hu.1 | exact hu.elim
  obtain ⟨hv, view, others⟩ := h.owns ht fun hu => hd.ne' (outsider t hu)
  refine ⟨hv, fun hup => ?_, fun u hu hdu => ?_⟩
  · cases hp : s.pc t with
    | up => exact (hup hp).elim
    | down | retest old => rw [hp] at view; exact view.elim
    | setHolder | checkNr | setNr => rw [hp] at view; exact absurd view.1 hd.ne'
    | out | testNr | decr => rw [hp] at view; exact view.2.2
    | incr | incrStore n | decrStore n => rw [hp] at view; exact view.2.2.2
    | checkOne | clearHolder | clearNr =>
      rw [hp] at view
      rw [view.1, view.2.2]
      rfl
  · by_contra hne
    exact hdu.ne' (outsider u (others u hu hne))

/-- A thread that has been woken and not yet run is ready, or is just being run. -/
theorem LockInv.woken_ready {s : LockSys} (h : LockInv s) {w : Nat} (hw : w ∈ s.sched.threads)
    (hout : w ∉ s.lock.waiters) (hp : Parked (s.pc w)) :
    s.pc w = .retest .on ∧
      ((s.sched.task w).status = .ready ∨ w = s.sched.current ∧ s.sched.intr = .off) := by
  obtain ⟨old, ho⟩ := hp
  have hi : w ≠ s.sched.idleThread := by
    rintro rfl
    rw [h.idle.1] at ho
    cases ho
  have hold : old = .on := by
    by_contra hne
    have view := (h.owns hw (by rw [ho]; exact fun hv => hne hv.2)).2.1
    rw [ho] at view
    exact view
  subst hold
  refine ⟨ho, ?_⟩
  by_cases hr : (s.sched.task w).status = .ready
  · exact Or.inl hr
  · right
    have hn : ¬ Asleep (s.sched.task w).status := fun hs => hout ((h.queue w).2 ⟨hw, hi, hs⟩)
    have hrun : (s.sched.task w).status = .running := by
      by_contra hnr
      exact hn (asleep_of (h.sched.alive w hw) hr hnr)
    have hc := h.sched.running_only w hw hrun
    subst hc
    exact ⟨rfl, h.intr.2 ⟨.on, ho⟩⟩

/-- As long as no thread nests lock_acquire 2^32 deep: at most one thread holds the
lock, holder_repeat_nr is its depth, the value of the semaphore is 0 or 1 and is 0
while the lock is held, a thread removed from waiters is about to test the value
again whenever there are waiters and the value is 1, and no ASSERT fails next. -/
theorem lock_correct {s : LockSys} (h : Reachable LockStart ShallowStep s) :
    (∀ t ∈ s.sched.threads, 0 < s.depth t →
      s.lock.value = 0 ∧ (s.pc t ≠ .up → s.lock.holderRepeatNr.toNat = s.depth t) ∧
      ∀ u ∈ s.sched.threads, 0 < s.depth u → u = t) ∧
    (s.lock.value = 0 ∨ s.lock.value = 1) ∧
    (s.lock.value = 1 → s.lock.waiters ≠ [] →
      ∃ w ∈ s.sched.threads, w ∉ s.lock.waiters ∧ s.pc w = .retest .on ∧
        ((s.sched.task w).status = .ready ∨ w = s.sched.current ∧ s.sched.intr = .off)) ∧
    ∀ e, LockAllowed s e → Shallow s e → ∃ t, lockPerform e s = .ok ((), t) := by
  have inv := reachable_lockInv h
  refine ⟨fun t ht hd => inv.holds ht hd, ?_, ?_, ?_⟩
  · rcases inv.owner with ⟨_, _, hv, _⟩ | ⟨hv, _⟩
    · exact Or.inl hv
    · exact Or.inr hv
  · intro h1 hne
    obtain ⟨w, hw, hout, hp⟩ := inv.woken h1 hne
    exact ⟨w, hw, hout, inv.woken_ready hw hout hp⟩
  · intro e allowed shallow
    obtain ⟨_, t, ht, _⟩ := succeeds_iff.1 (lockPerform_spec inv allowed shallow)
    exact ⟨t, ht⟩

/-- The main thread 0 runs and the others are ready, the idle thread 1 among them. -/
def crewSched (ready : List Nat) : Sched where
  task t := ⟨if t = 0 then .running else .ready, 31, 31, 0, stackMagicNumber, .on⟩
  threads := 0 :: ready
  current := 0
  intr := .on
  mainThread := 0
  idleThread := 1
  threadReadyList := ready
  threadAllList := 0 :: ready
  ticks := 0

def crewStart (ready : List Nat) : LockSys where
  sched := crewSched ready
  lock := lockInit ⟨none, 0, 0, []⟩
  pc _ := .out
  depth _ := 0

theorem crewStart_start {ready : List Nat} (idle : 1 ∈ ready) (out : 0 ∉ ready) (once : ready.Nodup) :
    LockStart (crewStart ready) := by
  have status (t : Nat) : (((crewStart ready).sched.task t).status = .running ↔ t = 0) ∧
      (((crewStart ready).sched.task t).status = .ready ↔ t ≠ 0) := by
    by_cases h0 : t = 0 <;> simp [crewStart, crewSched, h0]
  have awake (t : Nat) : ((crewStart ready).sched.task t).status = .running ∨
      ((crewStart ready).sched.task t).status = .ready := by
    rw [(status t).1, (status t).2]
    exact em _
  refine ⟨⟨⟨?_, ?_, ?_, ?_, ?_, ?_, ?_, ?_, ?_, ?_⟩, ?_⟩, rfl, ?_, ?_, ⟨_, rfl⟩, fun _ => rfl,
    fun _ => rfl⟩
  · exact List.mem_cons_self
  · exact List.mem_cons_of_mem _ idle
  · exact List.mem_cons_self
  · exact fun t _ running => (status t).1.1 running
  · intro t
    rw [(status t).2]
    constructor
    · exact fun mem => ⟨List.mem_cons_of_mem _ mem, fun zero => out (zero ▸ mem)⟩
    · rintro ⟨mem, other⟩
      exact (List.mem_cons.1 mem).resolve_left other
  · exact once
  · exact fun t => Iff.rfl
  · exact List.nodup_cons.2 ⟨out, once⟩
  · intro t _ died
    rcases awake t with running | ready
    · rw [running] at died
      cases died
    · rw [ready] at died
      cases died
  · exact fun t _ => rfl
  · exact (status 0).1.2 rfl
  · intro t _ _ asleep
    rcases awake t with running | ready
    · rw [running] at asleep
      exact not_asleep_running asleep
    · rw [ready] at asleep
      exact not_asleep_ready asleep
  · exact fun t _ => rfl

instance (s : LockSys) (e : LockEvent) : Decidable (LockAllowed s e) :=
  match e with
  | .preempt => inferInstanceAs (Decidable (_ = _))
  | .idle => inferInstanceAs (Decidable (_ = _))
  | .acquire => inferInstanceAs (Decidable (_ ∧ _))
  | .release => inferInstanceAs (Decidable (_ ∧ _))
  | .advance => inferInstanceAs (Decidable (_ ≠ _))

instance (s : LockSys) (e : LockEvent) : Decidable (Shallow s e) := inferInstanceAs (Decidable (_ → _))

/-- The state behind a run of lock_acquire and lock_release. -/
def lockRun : List LockEvent → LockSys → Option LockSys :=
  play (stepOf lockPerform fun s e => LockAllowed s e ∧ Shallow s e)

theorem lockRun_reachable {s t : LockSys} {es : List LockEvent} (h : Reachable LockStart ShallowStep s)
    (run : lockRun es s = some t) : Reachable LockStart ShallowStep t := by
  refine (play_trace run).reachable h fun s e t next => ?_
  obtain ⟨⟨allowed, shallow⟩, _, step⟩ := stepOf_some next
  exact ⟨e, allowed, shallow, step⟩

/-- The main thread takes the lock twice; two others find it taken and wait, and the idle thread lets the main
thread go on. -/
def twoWait : List LockEvent :=
  [.acquire, .advance, .advance, .advance, .advance, .acquire, .advance, .advance, .preempt,
    .acquire, .advance, .acquire, .advance, .idle]

def bothReleased : List LockEvent :=
  [.release, .advance, .advance, .advance, .release, .advance, .advance, .advance, .advance, .advance]

/-- The holder is nested two deep while two threads wait; behind its last lock_release one of them is ready to
test the value again. -/
theorem lock_correct_contended : ∃ s t, lockRun twoWait (crewStart [2, 3, 1]) = some s ∧ lockRun bothReleased s = some t ∧
    (s.lock.waiters = [2, 3] ∧ s.lock.value = 0 ∧ s.lock.holderRepeatNr.toNat = 2 ∧
      ∀ u ∈ s.sched.threads, 0 < s.depth u → u = 0) ∧
    t.lock.value = 1 ∧ t.lock.waiters = [3] ∧
      (∃ w ∈ t.sched.threads, w ∉ t.lock.waiters ∧ t.pc w = .retest .on ∧
        ((t.sched.task w).status = .ready ∨ w = t.sched.current ∧ t.sched.intr = .off)) ∧
      ∃ u, lockPerform .preempt t = .ok ((), u) := by
  have held : (lockRun twoWait (crewStart [2, 3, 1])).any (fun s => s.lock.waiters = [2, 3] ∧ s.depth 0 = 2 ∧ s.pc 0 = .out ∧
      0 ∈ s.sched.threads ∧ (lockRun bothReleased s).any (fun t => t.lock.value = 1 ∧ t.lock.waiters = [3] ∧ t.sched.intr = .on)) = true := by
    decide +kernel
  obtain ⟨s, first, now⟩ := (Option.any_eq_true _ _).1 held
  obtain ⟨waiting, twice, out, member, freed⟩ := of_decide_eq_true now
  obtain ⟨t, second, now⟩ := (Option.any_eq_true _ _).1 freed
  obtain ⟨value, left, on⟩ := of_decide_eq_true now
  have reach := lockRun_reachable (.start (crewStart_start (by decide) (by decide) (by decide))) first
  obtain ⟨zero, nr, alone⟩ := (lock_correct reach).1 0 member (by omega)
  obtain ⟨-, -, woken, returns⟩ := lock_correct (lockRun_reachable reach second)
  refine ⟨s, t, first, second, ⟨waiting, zero, ?_, alone⟩, value, left, woken value ?_, returns .preempt on (by rintro ⟨⟩)⟩
  · rw [nr (by rw [out]; rintro ⟨⟩), twice]
  · rw [left]
    exact List.cons_ne_nil 3 []

/-! The main thread and idle alone, in a run in which holder_repeat_nr wraps round. -/

def soloSched : Sched where
  task t := ⟨if t = 0 then .running else .ready, 31, 31, 0, stackMagicNumber, .on⟩
  threads := [0, 1]
  current := 0
  intr := .on
  mainThread := 0
  idleThread := 1
  threadReadyList := [1]
  threadAllList := [0, 1]
  ticks := 0

def soloStart : LockSys where
  sched := soloSched
  lock := lockInit ⟨none, 0, 0, []⟩
  pc _ := .out
  depth _ := 0

theorem soloStart_start : LockStart soloStart := by
  have start : LockStart (crewStart [1]) := crewStart_start (by decide) (by decide) (by decide)
  exact start

/-- The main thread holds the lock, has called lock_acquire n times, and the counter
has kept count modulo 2^32. -/
structure Nested (n : Nat) (s : LockSys) : Prop where
  reach : Reachable LockStart LockStep s
  sched : s.sched = soloSched
  holder : s.lock.holder = some 0
  nr : s.lock.holderRepeatNr = UInt32.ofNat n
  pc : s.pc 0 = .out
  depth : s.depth 0 = n

theorem LockStep.of_run {s t : LockSys} (h : Reachable LockStart LockStep s) (e : LockEvent)
    (allowed : LockAllowed s e) (run : lockPerform e s = .ok ((), t)) :
    Reachable LockStart LockStep t :=
  h.step ⟨e, allowed, run⟩

theorem nested_one : ∃ s, Nested 1 s := by
  have h1 := LockStep.of_run (.start soloStart_start) .acquire ⟨by decide, rfl⟩ rfl
  have h2 := LockStep.of_run h1 .advance (by exact Pc.noConfusion) rfl
  have h3 := LockStep.of_run h2 .advance (by exact Pc.noConfusion) rfl
  have h4 := LockStep.of_run h3 .advance (by exact Pc.noConfusion) rfl
  have h5 := LockStep.of_run h4 .advance (by exact Pc.noConfusion) rfl
  exact ⟨_, h5, rfl, rfl, rfl, rfl, rfl⟩

theorem Nested.again {n : Nat} {s : LockSys} (h : Nested n s) : ∃ t, Nested (n + 1) t := by
  have hc : s.sched.current = 0 := by rw [h.sched]; rfl
  have run1 : lockPerform .acquire s = .ok ((), s.goto 0 .incr) := by
    rw [runs_iff]
    simp [lockPerform, lockAcquire, runningThread, wp_ite, hc, h.holder]
  have h1 := LockStep.of_run h.reach .acquire ⟨by rw [h.sched]; decide, by rw [hc]; exact h.pc⟩ run1
  have run2 : lockPerform .advance (s.goto 0 .incr) =
      .ok ((), (s.goto 0 .incr).goto 0 (.incrStore (s.lock.holderRepeatNr + 1))) := by
    rw [runs_iff]
    simp [lockPerform, advance, runningThread, LockSys.goto, hc]
  have h2 := LockStep.of_run h1 .advance (by simp [LockAllowed, LockSys.goto, hc]) run2
  have run3 : lockPerform .advance
        ((s.goto 0 .incr).goto 0 (.incrStore (s.lock.holderRepeatNr + 1))) =
      .ok ((), ((s.onLock fun l => { l with holderRepeatNr := l.holderRepeatNr + 1 }).goto 0
        (.incrStore (s.lock.holderRepeatNr + 1))).finish 0 (n + 1)) := by
    rw [runs_iff]
    simp [lockPerform, advance, runningThread, LockSys.goto, LockSys.onLock, LockSys.finish, hc,
      h.depth]
  have h3 := LockStep.of_run h2 .advance (by simp [LockAllowed, LockSys.goto, hc]) run3
  refine ⟨_, h3, h.sched, h.holder, ?_, ?_, ?_⟩
  · show s.lock.holderRepeatNr + 1 = UInt32.ofNat (n + 1)
    rw [h.nr, UInt32.ofNat_add]
    rfl
  · simp [LockSys.finish, LockSys.goto]
  · simp [LockSys.finish]

theorem nested (n : Nat) : ∃ s, Nested (n + 1) s := by
  induction n with
  | zero => exact nested_one
  | succ n ih =>
    obtain ⟨s, hs⟩ := ih
    exact hs.again

/-- Nested 2^32 deep, the main thread holds the lock with a counter of zero. -/
theorem lock_counter_wraps :
    ∃ s, Reachable LockStart LockStep s ∧ ∃ t ∈ s.sched.threads,
      s.pc t = .out ∧ 0 < s.depth t ∧ s.lock.holderRepeatNr.toNat ≠ s.depth t := by
  obtain ⟨s, hs⟩ := nested (2 ^ 32 - 1)
  refine ⟨s, hs.reach, 0, by rw [hs.sched]; decide, hs.pc, by rw [hs.depth]; omega, ?_⟩
  rw [hs.nr, hs.depth, UInt32.toNat_ofNat']
  decide

end Zhenxiang.Thread
