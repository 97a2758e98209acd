import Zhenxiang.Device.IdeInvariant

/-! Every step on the channel keeps its invariant; the only steps that do not return are a
failed busy_wait and the checks of the sectors asked for. -/
namespace Zhenxiang.Device
open Lib Kernel Thread

section Specs
variable {s : IdeSys} {E : Fault → Prop}

theorem wp_ideSched {α : Type} {c : Kern Sched α} {Q : α → IdeSys → Prop} :
    wp (ideSched c) Q E s ↔ wp c (fun a t => Q a { s with sched := t }) E s.sched :=
  wp_zoom

theorem still (h : IdeInv s) : Moved s.sched s.sched (fun _ => False) s.sched.Sleeps :=
  Moved.still h.sched _

/-- Interrupts going on or off change nothing else. -/
theorem IdeInv.intr (h : IdeInv s) (i : IntrStatus) : IdeInv { s with sched := { s.sched with intr := i } } :=
  h.kept ((still h).after i not_false) (fun _ _ => rfl) (fun hi => hi ▸ h.idle) (fun _ => rfl)
    (h.owner.aside rfl)

theorem sleeps_any (h : IdeInv s) : Succeeds (threadBlock .blocked)
    (fun _ u => Moved s.sched u (fun _ => False) fun x => x = s.sched.current ∨ s.sched.Sleeps x) s.sched := by
  apply wp_post (block_moved h.sched)
  intro _ u moved
  exact moved.weaken fun _ none => none.elim

/-- A turn in the sema_down of the lock. -/
theorem lockTurn_spec (h : IdeInv s) (idle : s.sched.current ≠ s.sched.idleThread)
    (outside : Outsider (s.place s.sched.current)) (old : IntrStatus) :
    wp (semaTurn .lock old (.retest old)) (fun b t => (b = true → IdeInv (t.goto s.sched.current .setHolder)) ∧
      (¬ b = true → IdeInv t)) E s := by
  simp only [semaTurn, ideThread, intrSetStatus, wp_bind, wp_get, wp_pure, wp_ite, wp_assert, wp_modify, wp_ideSched]
  constructor
  · intro zero
    refine ⟨fun _ => ?_, fun queued => (queued (h.current_not_queued .lock)).elim⟩
    apply wp_mono (sleeps_any h) ?_ fun _ none => none.elim
    intro _ u moved
    refine ⟨fun none => (Bool.false_ne_true none).elim, fun _ => ?_⟩
    refine h.parks (k := .lock) (p := .retest old) trivial idle moved rfl rfl ?_ ?_ ?_
    · simp [IdeSys.goto, IdeSys.onSema]
    · intro j hj
      simp [IdeSys.goto, IdeSys.onSema, hj]
    · refine h.owner.outsider_moves outside ?_ ?_ ?_ rfl rfl (fun _ _ => rfl) ?_ rfl rfl
      · simp [IdeSys.goto, IdeSys.onSema, Outsider]
      · intro x hx
        simp [IdeSys.goto, IdeSys.onSema, hx]
      · exact moved.threads
      · intro j
        cases j <;> simp [IdeSys.goto, IdeSys.onSema]
  · intro taken
    obtain ⟨free, none_holds, zero, rest, all⟩ : (s.sema .lock).value = 1 ∧ s.holder = none ∧
        s.holderRepeatNr = 0 ∧ AtRest s ∧ ∀ t ∈ s.sched.threads, Outsider (s.place t) := by
      rcases h.owner with ⟨_, _, value, _⟩ | free
      · exact (taken value).elim
      · exact free
    have down : (s.sema .lock).value - 1 = 0 := by
      rw [free]
      rfl
    refine ⟨fun _ => ⟨fun _ => ?_, fun none => (none trivial).elim⟩, fun up => (up ?_).elim⟩
    · refine h.kept ((still h).after old not_false) ?_ ?_ ?_ (Or.inl ⟨s.sched.current, h.sched.current_mem, ?_, ?_, ?_⟩)
      · intro x hx
        simp [IdeSys.goto, IdeSys.onSema, hx]
      · intro hi
        exact (idle hi).elim
      · intro k
        cases k <;> simp [IdeSys.goto, IdeSys.onSema]
      · simp [IdeSys.goto, IdeSys.onSema, down]
      · simp only [IdeSys.goto, IdeSys.onSema, Function.update_self]
        exact ⟨none_holds, zero, ⟨rest.value, rest.expecting, rest.log⟩⟩
      · intro x hx hne
        simpa [IdeSys.goto, IdeSys.onSema, hne] using all x hx
    · simpa [IdeSys.onSema] using down

/-- A turn in the sema_down of disk_done, and what follows when it ends. -/
theorem doneTurn_spec (h : IdeInv s) (idle : s.sched.current ≠ s.sched.idleThread)
    (waits : s.place s.sched.current = .await ∨ ∃ old, s.place s.sched.current = .reawait old) (old : IntrStatus) :
    wp (semaTurn .diskDone old (.reawait old)) (fun b t => (b = true → wp (awaited s.sched.current) (fun _ t => IdeInv t) E t) ∧
      (¬ b = true → IdeInv t)) E s := by
  have inside : ¬ Outsider (s.place s.sched.current) := by
    rcases waits with at_place | ⟨old, at_place⟩ <;> simp [at_place, Outsider]
  obtain ⟨taken, view, others⟩ := h.owns inside
  have commanded : s.holder = some s.sched.current ∧ s.holderRepeatNr = 1 ∧ Commanded s s.sched.current := by
    rcases waits with at_place | ⟨old, at_place⟩
    · rw [at_place] at view
      exact view
    · rw [at_place] at view
      exact view
  obtain ⟨holder, nr, l, rounds, state⟩ := commanded
  simp only [semaTurn, awaited, enterBusy, ideThread, intrSetStatus, wp_bind, wp_get, wp_pure, wp_ite, wp_assert, wp_modify,
    wp_ideSched]
  constructor
  · intro zero
    refine ⟨fun _ => ?_, fun queued => (queued (h.current_not_queued .diskDone)).elim⟩
    apply wp_mono (sleeps_any h) ?_ fun _ none => none.elim
    intro _ u moved
    refine ⟨fun none => (Bool.false_ne_true none).elim, fun _ => ?_⟩
    refine h.parks (k := .diskDone) (p := .reawait old) trivial idle moved rfl rfl ?_ ?_
      (Or.inl ⟨s.sched.current, ?_, ?_, ?_, ?_⟩)
    · simp [IdeSys.goto, IdeSys.onSema]
    · intro j hj
      simp [IdeSys.goto, IdeSys.onSema, hj]
    · show s.sched.current ∈ u.threads
      rw [moved.threads]
      exact h.sched.current_mem
    · simpa [IdeSys.goto, IdeSys.onSema] using taken
    · simp only [IdeSys.goto, IdeSys.onSema, Function.update_self]
      refine ⟨holder, nr, l, rounds, ?_⟩
      simpa using state
    · intro x hx hne
      have there := others x (moved.threads ▸ hx) hne
      simpa [IdeSys.goto, IdeSys.onSema, hne] using there
  · intro answered
    rcases state with ⟨_, zero, _⟩ | ⟨expecting, one, log⟩
    · exact (answered zero).elim
    · have down : (s.sema .diskDone).value - 1 = 0 := by
        rw [one]
        rfl
      have round : Rounds (.done s.sched.current :: s.log) := by
        rcases log with log | log
        · rw [log]
          exact rounds.late _
        · rw [log]
          exact rounds.early _
      have rest : ∀ t : IdeSys, (t.sema .diskDone).value = 0 → t.expectingIntr = s.expectingIntr →
          t.log = .done s.sched.current :: s.log → AtRest t :=
        fun t value same more => ⟨value, same.trans expecting, more ▸ round⟩
      refine ⟨fun _ => ⟨fun _ => ⟨fun write => ?_, fun write => ?_⟩, fun none => (none trivial).elim⟩, fun up => (up ?_).elim⟩
      · refine h.owner_moves inside ((still h).after old not_false) ?_ ?_ ?_ ?_
        · intro x hx
          simp [IdeSys.goto, IdeSys.onSema, IdeSys.record, hx]
        · simp [IdeSys.goto, IdeSys.onSema, IdeSys.record]
        · intro k
          cases k <;> simp [IdeSys.goto, IdeSys.onSema, IdeSys.record]
        · simp only [IdeSys.goto, IdeSys.record, Function.update_self]
          refine ⟨holder, nr, rest _ ?_ rfl rfl⟩
          simp [IdeSys.onSema, down]
      · refine h.owner_moves inside ((still h).after old not_false) ?_ ?_ ?_ ?_
        · intro x hx
          simp [IdeSys.goto, IdeSys.onSema, IdeSys.onJob, IdeSys.record, hx]
        · simp [IdeSys.goto, IdeSys.onSema, IdeSys.onJob, IdeSys.record]
        · intro k
          cases k <;> simp [IdeSys.goto, IdeSys.onSema, IdeSys.onJob, IdeSys.record]
        · simp only [IdeSys.goto, IdeSys.onJob, IdeSys.record, Function.update_self]
          refine ⟨holder, nr, Or.inr ⟨?_, rest _ ?_ rfl rfl⟩⟩
          · simpa [IdeSys.onSema, IdeSys.record] using write
          · simp [IdeSys.onSema, down]
      · simpa [IdeSys.onSema] using down

/-- sema_up on a semaphore at zero whose queue sleeps. -/
theorem ideSemaUp_spec {k : Sema} (sched : Inv s.sched)
    (asleep : ∀ w ∈ (s.sema k).waiters, w ∈ s.sched.threads ∧ s.sched.Sleeps w) (zero : (s.sema k).value = 0) :
    Succeeds (ideSemaUp k) (fun _ t => ∃ u, u.current = s.sched.current ∧
      Moved s.sched u (fun _ => False) (fun x => (s.sema k).waiters.head? ≠ some x ∧ s.sched.Sleeps x) ∧
      t = { s with sched := u, sema := Function.update s.sema k ⟨1, (s.sema k).waiters.tail⟩ }) s := by
  have one : (s.sema k).value + 1 = 1 := by
    rw [zero]
    rfl
  simp only [ideSemaUp, wakeFirst, intrDisable, intrSetStatus, Succeeds, wp_bind, wp_get, wp_set, wp_pure, wp_assert,
    wp_modify, wp_ideSched]
  refine ⟨fun _ => ?_, fun up => up zero⟩
  cases waiters : (s.sema k).waiters with
  | nil =>
    simp only [wp_pure, IdeSys.onSema, Function.update_self, one, waiters, not_true, false_imp_iff, and_true, true_imp_iff]
    have moved := (Moved.still sched fun _ => False).after s.sched.intr not_false
    refine ⟨s.sched, rfl, ?_, rfl⟩
    constructor
    · exact moved.inv
    · exact moved.threads
    · exact moved.idle
    · intro x _ _
      simp
    · exact moved.off
  | cons w rest =>
    obtain ⟨hw, sleeps⟩ := asleep w (by rw [waiters]; exact List.mem_cons_self)
    have masked : Inv { s.sched with intr := .off } :=
      sched.congr rfl rfl rfl rfl rfl rfl (fun _ => rfl) fun _ => rfl
    have woken := moved_unblock (fun _ => False) masked hw sleeps
    have moved := (woken.before fun none => none.elim).after s.sched.intr not_false
    simp only [wp_bind, wp_modify, wp_ideSched, IdeSys.onSema]
    rw [wp_threadUnblock (by exact sleeps) (by exact sched.sleeping_out sleeps)]
    simp only [Function.update_self, Function.update_idem, one, not_true, false_imp_iff, and_true, true_imp_iff]
    refine ⟨{ Sched.enqueueFront { s.sched with intr := .off } w with intr := s.sched.intr }, rfl, ?_, rfl⟩
    constructor
    · exact moved.inv
    · exact moved.threads
    · exact moved.idle
    · intro x hx hi
      rw [moved.asleep x hx hi]
      simp [eq_comm, Sched.Sleeps]
    · exact moved.off

/-- An interrupt that is expected is answered once; any other changes nothing. -/
theorem intrHdHandler_spec (h : IdeInv s) : Succeeds intrHdHandler (fun _ t => IdeInv t) s := by
  simp only [intrHdHandler, intrDisable, intrSetStatus, Succeeds, wp_bind, wp_get, wp_set, wp_pure, wp_ite, wp_modify,
    wp_ideSched]
  constructor
  · intro expecting
    obtain ⟨o, ho, taken, view, others⟩ : ∃ o ∈ s.sched.threads, (s.sema .lock).value = 0 ∧
        ChannelView s o (s.place o) ∧ ∀ t ∈ s.sched.threads, t ≠ o → Outsider (s.place t) := by
      rcases h.owner with owner | ⟨_, _, _, rest, _⟩
      · exact owner
      · rw [rest.expecting] at expecting
        cases expecting
    obtain ⟨value, after⟩ := view.interrupted expecting
    have masked : Inv { s.sched with intr := .off } :=
      h.sched.congr rfl rfl rfl rfl rfl rfl (fun _ => rfl) fun _ => rfl
    have asleep : ∀ w ∈ (s.sema .diskDone).waiters, w ∈ s.sched.threads ∧ s.sched.Sleeps w := by
      intro w hw
      obtain ⟨mem, sleeps, _⟩ := (h.queue .diskDone w).1 hw
      exact ⟨mem, sleeps⟩
    refine wp_post (ideSemaUp_spec (by exact masked) (by exact asleep) (by exact value)) ?_
    rintro _ t ⟨u, current, moved, rfl⟩
    have back := (moved.before fun none => none.elim).after s.sched.intr not_false
    refine h.wakes (k := .diskDone) ?_ ?_ back (fun _ _ => rfl) (fun hi => hi ▸ h.idle)
      (Or.inl ⟨o, ?_, ?_, ?_, ?_⟩)
    · simp [IdeSys.record]
    · intro j hj
      simp [IdeSys.record, hj]
    · show o ∈ u.threads
      rw [moved.threads]
      exact ho
    · simpa [IdeSys.record] using taken
    · exact after _ rfl rfl rfl (by simp) rfl rfl
    · intro x hx hne
      exact others x (moved.threads ▸ hx) hne
  · intro _
    exact h.intr s.sched.intr

/-- The checks on the sectors of a call, at its start and in select_sector. -/
def RangeFails (s : IdeSys) : IdeEvent → Prop
  | .call _ lba secCnt => ¬ (lba ≤ maxLba ∧ secCnt > 0)
  | .advance .. =>
    s.place s.sched.current = .loop ∧ (s.job s.sched.current).secsDone < (s.job s.sched.current).secCnt ∧
      ¬ (s.job s.sched.current).lba + (s.job s.sched.current).secsDone ≤ maxLba
  | _ => False

/-- What may end a step: one of these checks, or the PANIC after busy_wait. -/
def IdeStops (s : IdeSys) (e : IdeEvent) (f : Fault) : Prop :=
  f = .assertion ∧ RangeFails s e ∨ f = .diverges ∧ s.place s.sched.current = .busy

theorem AtRest.same {t : IdeSys} (h : AtRest s) (value : (t.sema .diskDone).value = (s.sema .diskDone).value)
    (expecting : t.expectingIntr = s.expectingIntr) (log : t.log = s.log) : AtRest t :=
  ⟨value.trans h.value, expecting.trans h.expecting, log ▸ h.log⟩

/-- One step of the running thread inside its call. -/
theorem ideAdvance_spec (h : IdeInv s) (started : s.place s.sched.current ≠ .out) (bsy drq : UInt8) :
    wp (ideAdvance bsy drq) (fun _ t => IdeInv t) (IdeStops s (.advance bsy drq)) s := by
  have idle : s.sched.current ≠ s.sched.idleThread := by
    intro hi
    rw [hi] at started
    exact started h.idle
  have seen : ∀ p, s.place s.sched.current = p → ¬ Outsider p →
      ChannelView s s.sched.current p ∧ ¬ Outsider (s.place s.sched.current) := by
    intro p at_place inside
    rw [← at_place] at inside ⊢
    exact ⟨(h.owns inside).2.1, inside⟩
  simp only [ideAdvance, ideThread, wp_bind, wp_get, wp_pure]
  cases at_place : s.place s.sched.current with
  | out => exact (started at_place).elim
  | incr => exact (seen _ at_place not_false).1.elim
  | decr => exact (seen _ at_place not_false).1.elim
  | down =>
    simp only [intrDisable, wp_bind, wp_get, wp_set, wp_pure, wp_ite, wp_modify, wp_ideSched]
    exact lockTurn_spec (h.intr .off) idle (by simp [at_place, Outsider]) s.sched.intr
  | retest old =>
    simp only [wp_bind, wp_pure, wp_ite, wp_modify]
    exact lockTurn_spec h idle (by simp [at_place, Outsider]) old
  | setHolder =>
    obtain ⟨⟨_, nr, rest⟩, inside⟩ := seen _ at_place not_false
    simp only [wp_bind, wp_modify]
    exact h.owner_goes inside rfl rfl rfl ⟨rfl, nr, rest.same rfl rfl rfl⟩
  | checkNr =>
    obtain ⟨⟨holder, nr, rest⟩, inside⟩ := seen _ at_place not_false
    simp only [wp_bind, wp_get, wp_assert, wp_modify]
    exact ⟨fun _ => h.owner_goes inside rfl rfl rfl ⟨holder, nr, rest.same rfl rfl rfl⟩, fun bad => (bad nr).elim⟩
  | setNr =>
    obtain ⟨⟨holder, _, rest⟩, inside⟩ := seen _ at_place not_false
    simp only [wp_bind, wp_modify]
    exact h.owner_goes inside rfl rfl rfl ⟨holder, rfl, rest.same rfl rfl rfl⟩
  | loop =>
    obtain ⟨⟨holder, nr, rest⟩, inside⟩ := seen _ at_place not_false
    simp only [wp_bind, wp_get, wp_ite, wp_assert, wp_modify]
    refine ⟨fun more => ⟨fun _ => ?_, fun bad => Or.inl ⟨rfl, at_place, more, ?_⟩⟩, fun _ => ?_⟩
    · exact h.owner_goes inside rfl rfl rfl ⟨holder, nr, rest.same rfl rfl rfl⟩
    · simpa only [IdeSys.onJob, Function.update_self] using bad
    · exact h.owner_goes inside rfl rfl rfl ⟨holder, nr, rest.same rfl rfl rfl⟩
  | flag =>
    obtain ⟨⟨holder, nr, rest⟩, inside⟩ := seen _ at_place not_false
    simp only [wp_bind, wp_modify]
    exact h.owner_goes inside rfl rfl rfl ⟨holder, nr, s.log, rest.log, Or.inl ⟨rfl, rest.value, rfl⟩⟩
  | command =>
    obtain ⟨⟨holder, nr, l, rounds, state⟩, inside⟩ := seen _ at_place not_false
    have sent : ∀ t : IdeSys, (t.sema .diskDone).value = (s.sema .diskDone).value → t.expectingIntr = s.expectingIntr →
        t.log = .command s.sched.current :: s.log → Commanded t s.sched.current := by
      intro t value expecting log
      refine ⟨l, rounds, ?_⟩
      rw [value, expecting, log]
      rcases state with ⟨on, zero, before⟩ | ⟨off, one, before⟩
      · exact Or.inl ⟨on, zero, congrArg _ before⟩
      · exact Or.inr ⟨off, one, Or.inr (congrArg _ before)⟩
    simp only [enterBusy, wp_bind, wp_get, wp_ite, wp_modify]
    constructor
    · intro write
      refine h.owner_goes inside rfl rfl rfl ⟨holder, nr, Or.inl ⟨?_, sent _ rfl rfl rfl⟩⟩
      simpa [IdeSys.goto, IdeSys.onJob, IdeSys.record] using write
    · intro _
      exact h.owner_goes inside rfl rfl rfl ⟨holder, nr, sent _ rfl rfl rfl⟩
  | busy =>
    obtain ⟨⟨holder, nr, waits⟩, inside⟩ := seen _ at_place not_false
    have panic : IdeStops s (.advance bsy drq) .diverges := Or.inr ⟨rfl, at_place⟩
    simp only [busyTurn, wp_bind, wp_get, wp_ite, wp_modify, wp_throw]
    refine ⟨fun _ => ⟨fun _ => ⟨fun _ => ⟨fun write => ?_, fun read => ?_⟩, fun _ => panic⟩, fun _ => ?_⟩, fun _ => panic⟩
    · have written : (s.job s.sched.current).write = true := by
        simpa [IdeSys.onJob] using write
      rcases waits with ⟨_, l, commanded⟩ | ⟨no, _⟩
      · exact h.owner_goes inside rfl rfl rfl ⟨holder, nr, l, commanded⟩
      · rw [no] at written
        cases written
    · have unwritten : ¬ (s.job s.sched.current).write = true := by
        simpa [IdeSys.onJob] using read
      rcases waits with ⟨yes, _⟩ | ⟨_, rest⟩
      · exact (unwritten yes).elim
      · exact h.owner_goes inside rfl rfl rfl ⟨holder, nr, rest.same rfl rfl rfl⟩
    · refine h.owner_goes inside rfl rfl rfl ⟨holder, nr, ?_⟩
      rcases waits with ⟨yes, l, commanded⟩ | ⟨no, rest⟩
      · exact Or.inl ⟨by simpa [IdeSys.goto, IdeSys.onJob] using yes, l, commanded⟩
      · exact Or.inr ⟨by simpa [IdeSys.goto, IdeSys.onJob] using no, rest.same rfl rfl rfl⟩
  | nap =>
    obtain ⟨⟨holder, nr, waits⟩, inside⟩ := seen _ at_place not_false
    simp only [wp_bind, wp_get, wp_ite, wp_modify, wp_ideSched]
    constructor
    · intro _
      apply wp_mono (yield_moved (fun _ => False) h.sched) ?_ fun _ none => none.elim
      intro _ u moved
      exact h.kept moved (fun _ _ => rfl) (fun hi => (idle hi).elim) (fun _ => rfl) (h.owner.aside moved.threads)
    · intro _
      refine h.owner_goes inside rfl rfl rfl ⟨holder, nr, ?_⟩
      exact waits.imp (fun ⟨yes, l, commanded⟩ => ⟨yes, l, commanded⟩) fun ⟨no, rest⟩ => ⟨no, rest.same rfl rfl rfl⟩
  | await =>
    simp only [intrDisable, wp_bind, wp_get, wp_set, wp_pure, wp_ite, wp_ideSched]
    exact doneTurn_spec (h.intr .off) idle (Or.inl at_place) s.sched.intr
  | reawait old =>
    simp only [wp_bind, wp_pure, wp_ite]
    exact doneTurn_spec h idle (Or.inr ⟨old, at_place⟩) old
  | next =>
    obtain ⟨⟨holder, nr, rest⟩, inside⟩ := seen _ at_place not_false
    simp only [wp_bind, wp_modify]
    exact h.owner_goes inside rfl rfl rfl ⟨holder, nr, rest.same rfl rfl rfl⟩
  | release =>
    obtain ⟨⟨holder, nr, rest⟩, inside⟩ := seen _ at_place not_false
    simp only [wp_bind, wp_get, wp_assert, wp_modify]
    exact ⟨fun _ => h.owner_goes inside rfl rfl rfl ⟨holder, nr, rest.same rfl rfl rfl⟩, fun bad => (bad holder).elim⟩
  | testNr =>
    obtain ⟨⟨holder, nr, rest⟩, inside⟩ := seen _ at_place not_false
    simp only [wp_bind, wp_get, wp_ite, wp_modify, nr]
    exact ⟨fun more => (absurd more (by decide)),
      fun _ => h.owner_goes inside rfl rfl rfl ⟨holder, nr, rest.same rfl rfl rfl⟩⟩
  | checkOne =>
    obtain ⟨⟨holder, nr, rest⟩, inside⟩ := seen _ at_place not_false
    simp only [wp_bind, wp_get, wp_assert, wp_modify]
    exact ⟨fun _ => h.owner_goes inside rfl rfl rfl ⟨holder, nr, rest.same rfl rfl rfl⟩, fun bad => (bad nr).elim⟩
  | clearHolder =>
    obtain ⟨⟨_, nr, rest⟩, inside⟩ := seen _ at_place not_false
    simp only [wp_bind, wp_modify]
    exact h.owner_goes inside rfl rfl rfl ⟨rfl, nr, rest.same rfl rfl rfl⟩
  | clearNr =>
    obtain ⟨⟨holder, _, rest⟩, inside⟩ := seen _ at_place not_false
    simp only [wp_bind, wp_modify]
    exact h.owner_goes inside rfl rfl rfl ⟨holder, rfl, rest.same rfl rfl rfl⟩
  | up =>
    obtain ⟨⟨holder, nr, rest⟩, inside⟩ := seen _ at_place not_false
    obtain ⟨taken, -, others⟩ := h.owns inside
    have asleep : ∀ w ∈ (s.sema .lock).waiters, w ∈ s.sched.threads ∧ s.sched.Sleeps w := by
      intro w hw
      obtain ⟨mem, sleeps, _⟩ := (h.queue .lock w).1 hw
      exact ⟨mem, sleeps⟩
    simp only [wp_bind, wp_modify]
    apply wp_mono (ideSemaUp_spec h.sched asleep taken) ?_ fun _ none => none.elim
    rintro _ t ⟨u, _, moved, rfl⟩
    refine h.wakes (k := .lock) ?_ ?_ moved ?_ (fun hi => (idle hi).elim) (Or.inr ⟨?_, holder, nr, ?_, ?_⟩)
    · simp [IdeSys.goto]
    · intro j hj
      simp [IdeSys.goto, hj]
    · intro x hx
      simp [IdeSys.goto, hx]
    · simp [IdeSys.goto]
    · exact rest.same (by simp [IdeSys.goto]) rfl rfl
    · intro x hx
      by_cases hc : x = s.sched.current
      · subst hc
        simp [IdeSys.goto, Outsider]
      · simpa [IdeSys.goto, hc] using others x (moved.threads ▸ hx) hc

theorem IdeInv.not_holder (h : IdeInv s) (out : s.place s.sched.current = .out) :
    s.holder ≠ some s.sched.current := by
  intro holder
  rcases h.owner with ⟨o, _, _, view, _⟩ | ⟨_, none_holds, _⟩
  · have hne : o ≠ s.sched.current := by
      intro he
      subst he
      rw [out] at view
      exact view
    have held : s.holder = none ∨ s.holder = some o := by
      cases at_place : s.place o <;> rw [at_place] at view
      case out | down | retest | incr | decr => exact view.elim
      case setHolder | up | clearNr => exact Or.inl view.1
      all_goals exact Or.inr view.1
    rcases held with free | other
    · rw [holder] at free
      cases free
    · rw [holder] at other
      exact hne (Option.some.inj other).symm
  · rw [holder] at none_holds
    cases none_holds

theorem ideCall_spec (h : IdeInv s) (idle : s.sched.current ≠ s.sched.idleThread)
    (out : s.place s.sched.current = .out) (write : Bool) (lba secCnt : UInt32) :
    wp (ideCall write lba secCnt) (fun _ t => IdeInv t) (IdeStops s (.call write lba secCnt)) s := by
  have holder := h.not_holder out
  simp only [ideCall, ideThread, wp_bind, wp_get, wp_pure, wp_assert, wp_ite, wp_modify]
  refine ⟨fun _ => ⟨fun _ => ⟨fun _ => ?_, fun held => (held holder).elim⟩, fun bad => Or.inl ⟨rfl, fun ok => bad ok.2⟩⟩,
    fun bad => Or.inl ⟨rfl, fun ok => bad ok.1⟩⟩
  refine h.kept (still h) ?_ (fun hi => (idle hi).elim) (fun _ => rfl) ?_
  · intro x hx
    simp [IdeSys.goto, IdeSys.onJob, hx]
  · have at_start : Outsider (s.place s.sched.current) := by simp [out, Outsider]
    refine h.owner.outsider_moves at_start ?_ ?_ rfl rfl rfl ?_ (fun _ => rfl)
      rfl rfl
    · simp [IdeSys.goto, IdeSys.onJob, Outsider]
    · intro x hx
      simp [IdeSys.goto, IdeSys.onJob, hx]
    · intro x hx
      simp [IdeSys.goto, IdeSys.onJob, hx]

theorem idePerform_spec (h : IdeInv s) {e : IdeEvent} (allowed : IdeAllowed s e) :
    wp (idePerform e) (fun _ t => IdeInv t) (IdeStops s e) s := by
  cases e with
  | preempt =>
    apply wp_ideSched.2
    apply wp_mono (preempt_moved (fun _ => False) h.sched) ?_ fun _ none => none.elim
    intro _ u moved
    exact h.kept moved (fun _ _ => rfl) (fun hi => hi ▸ h.idle) (fun _ => rfl) (h.owner.aside moved.threads)
  | idle =>
    have at_idle : s.sched.current = s.sched.idleThread := allowed
    apply wp_ideSched.2
    apply wp_mono (sleeps_any h) ?_ fun _ none => none.elim
    intro _ u moved
    refine h.kept (s := s) ?_ (fun _ _ => rfl) (fun hi => hi ▸ h.idle) (fun _ => rfl) (h.owner.aside moved.threads)
    constructor
    · exact moved.inv
    · exact moved.threads
    · exact moved.idle
    · intro x hx hi
      rw [moved.asleep x hx hi, at_idle]
      simp [hi]
    · exact moved.off
  | enable => exact wp_ideSched.2 ((wp_modify _).2 (h.intr .on))
  | disable => exact wp_ideSched.2 ((wp_modify _).2 (h.intr .off))
  | interrupt => exact wp_mono (intrHdHandler_spec h) (fun _ _ inv => inv) fun _ none => none.elim
  | call write lba secCnt => exact ideCall_spec h allowed.1 allowed.2 write lba secCnt
  | advance bsy drq => exact ideAdvance_spec h allowed bsy drq

end Specs

theorem IdeStart.inv {s : IdeSys} (h : IdeStart s) : IdeInv s := by
  have none_queued : ∀ k, (s.sema k).waiters = [] := by
    intro k
    cases k
    · rw [h.lock]
    · rw [h.diskDone]
  constructor
  · exact h.sched
  · exact h.place _
  · intro k
    rw [none_queued]
    exact List.nodup_nil
  · intro k t
    rw [none_queued, h.place]
    cases k <;> simp [Parked]
  · right
    refine ⟨by rw [h.lock], h.holder, h.holderRepeatNr, ⟨by rw [h.diskDone], h.expectingIntr, ?_⟩, ?_⟩
    · rw [h.log]
      exact .nil
    · intro t _
      rw [h.place]
      trivial

theorem reachable_ideInv {s : IdeSys} (h : Reachable IdeStart IdeStep s) : IdeInv s := by
  induction h with
  | start first => exact first.inv
  | step _ step ih =>
    obtain ⟨e, allowed, run⟩ := step
    exact (wp_of_ok run).1 (idePerform_spec ih allowed)

end Zhenxiang.Device
