import Zhenxiang.Device.Timer

/-! How early mtime_sleep returns. Only the low byte of the reload value reaches the channel, so that
there are 77 times as many interrupts as the sleep counts on. -/
namespace Zhenxiang.Device
open Lib Kernel Thread

variable {s t : Clocked} {n : Nat}

theorem period_timerInit : period timerInit = some 155 := by decide

/-! A thread that is ready alone. -/

/-- The thread runs with interrupts on, and gets the processor back when it yields. -/
structure Lone (s : Sched) (me : Nat) : Prop where
  current : s.current = me
  intr : s.intr = .on
  ready : s.threadReadyList = []
  running : (s.task me).status = .running
  magic : (s.task me).stackMagic = stackMagicNumber

theorem threadYield_lone {s : Sched} {me : Nat} (h : Lone s me) :
    Succeeds threadYield (fun _ t => Lone t me ∧ t.ticks = s.ticks) s := by
  obtain ⟨rfl, intr, ready, running, magic⟩ := h
  simp only [threadYield, intrDisable, schedule, requeueCurrent, wakeIdle, dispatchNext, Thread.listPop, switchTo, Succeeds,
    wp_bind, wp_get, wp_set, wp_pure, wp_assert, wp_modify, wp_ite]
  simp [Sched.setStatus, Sched.setOldStatus, Sched.onTask, ready, intr]
  exact ⟨rfl, rfl, rfl, by simp, by simp [magic]⟩

theorem intrTimerHandler_lone {s : Sched} {me : Nat} (h : Lone s me) :
    Succeeds intrTimerHandler (fun _ t => Lone t me ∧ t.ticks = s.ticks + 1) s := by
  obtain ⟨rfl, intr, ready, running, magic⟩ := h
  simp only [intrTimerHandler, intrDisable, intrSetStatus, schedule, requeueCurrent, wakeIdle, dispatchNext, Thread.listPop,
    switchTo, Succeeds, wp_bind, wp_get, wp_set, wp_pure, wp_assert, wp_modify, wp_ite]
  simp [Sched.setStatus, Sched.setOldStatus, Sched.onTask, ready, intr, running, magic]
  exact ⟨fun _ => ⟨rfl, rfl, rfl, by simp, by simp⟩, fun _ => ⟨rfl, rfl, rfl, by simp, by simp⟩⟩

theorem onSched_lone {c : Kern Sched Unit} {ticks : UInt32}
    (h : Succeeds c (fun _ t => Lone t s.sleeper ∧ t.ticks = ticks) s.sched) :
    ∃ u, Clocked.onSched c s = .ok ((), { s with sched := u }) ∧ Lone u s.sleeper ∧ u.ticks = ticks := by
  obtain ⟨a, u, run, lone, same⟩ := succeeds_iff.1 h
  refine ⟨u, ?_, lone, same⟩
  rw [Clocked.onSched, zoom, run]

/-! The run in which the thread looks at the counter after every cycle. -/

/-- The sleeper is alone and no interrupt is due. -/
structure Spins (s : Clocked) (now : Nat) (ticks : UInt32) (pc : SleepPc) : Prop where
  lone : Lone s.sched s.sleeper
  pending : s.pending = false
  now : s.now = now
  ticks : s.sched.ticks = ticks
  pc : s.pc = pc

theorem Spins.not_due {now : Nat} {ticks : UInt32} {pc : SleepPc} (h : Spins s now ticks pc) : ¬s.Due := by
  rintro ⟨due, -⟩
  rw [h.pending] at due
  exact Bool.false_ne_true due

variable {now : Nat} {ticks : UInt32} {pc : SleepPc}

theorem cycle_spins (h : Spins s now ticks pc) : ∃ t, Relation.ReflTransGen (ClockStep n) s t ∧
    Spins t (now + 1) (ticks + if n ∣ now + 1 then 1 else 0) pc := by
  have step : ClockStep n s (s.cycle n) := ⟨.cycle, h.not_due, rfl⟩
  obtain ⟨lone, pending, rfl, rfl, rfl⟩ := h
  have raised : (s.cycle n).pending = decide (n ∣ s.now + 1) := by
    rw [Clocked.cycle, pending, Bool.false_or, decide_eq_decide, Nat.dvd_iff_mod_eq_zero]
  by_cases due : n ∣ s.now + 1
  · have handled : Succeeds intrTimerHandler (fun _ t => Lone t s.sleeper ∧ t.ticks = s.sched.ticks + 1) s.sched :=
      intrTimerHandler_lone lone
    obtain ⟨u, run, after, counted⟩ := onSched_lone (s := { s.cycle n with pending := false }) handled
    refine ⟨{ s.cycle n with pending := false, sched := u },
      (Relation.ReflTransGen.single step).tail ⟨.interrupt, ?_, run⟩, ⟨after, rfl, rfl, ?_, rfl⟩⟩
    · exact ⟨raised.trans (decide_eq_true due), lone.intr⟩
    · rw [if_pos due]
      exact counted
  · refine ⟨s.cycle n, Relation.ReflTransGen.single step, ⟨lone, raised.trans (decide_eq_false due), rfl, ?_, rfl⟩⟩
    rw [if_neg due]
    exact (UInt32.add_zero _).symm

theorem check_spins {start sleepTicks : UInt32} (h : Spins s now ticks (.waiting start sleepTicks))
    (short : ticks - start < sleepTicks) :
    ∃ t, ClockStep n s t ∧ Spins t now ticks (.waiting start sleepTicks) := by
  obtain ⟨u, run, after, same⟩ := onSched_lone (threadYield_lone h.lone)
  refine ⟨{ s with sched := u }, ⟨.sleeper, ⟨h.not_due, h.lone.current⟩, ?_⟩,
    ⟨after, h.pending, h.now, same.trans h.ticks, h.pc⟩⟩
  have loop : mtimeSleep s = Clocked.onSched threadYield s := by
    rw [mtimeSleep, run_bind rfl, h.pc]
    exact (run_bind rfl).trans (by rw [if_pos (h.ticks ▸ short)])
  exact loop.trans run

theorem check_returns {start sleepTicks : UInt32} (h : Spins s now ticks (.waiting start sleepTicks))
    (enough : ¬ticks - start < sleepTicks) :
    ∃ t, ClockStep n s t ∧ t.now = now ∧ t.pc = .returned := by
  refine ⟨s.goto .returned, ⟨.sleeper, ⟨h.not_due, h.lone.current⟩, ?_⟩, h.now, rfl⟩
  rw [clockPerform, mtimeSleep, run_bind rfl, h.pc]
  refine (run_bind rfl).trans ?_
  rw [if_neg (h.ticks ▸ enough)]
  rfl

/-- The interrupts in the j cycles that follow. -/
def raisedIn (n now j : Nat) : Nat := (now + j) / n - now / n

theorem raisedIn_zero (n now : Nat) : raisedIn n now 0 = 0 := Nat.sub_self _

theorem raisedIn_succ (n now j : Nat) :
    raisedIn n now (j + 1) = raisedIn n now j + if n ∣ now + j + 1 then 1 else 0 := by
  have grown : now / n ≤ (now + j) / n := Nat.div_le_div_right (Nat.le_add_right _ _)
  rw [raisedIn, raisedIn, ← Nat.add_assoc, Nat.succ_div]
  omega

theorem raisedIn_periods (pos : 0 < n) (now k : Nat) : raisedIn n now (n * k) = k := by
  rw [raisedIn, Nat.add_mul_div_left _ _ pos]
  omega

theorem ticks_since {start : UInt32} {k : Nat} (fits : k < 2 ^ 32) : (start + UInt32.ofNat k - start).toNat = k := by
  rw [UInt32.add_comm, UInt32.add_sub_cancel]
  exact UInt32.toNat_ofNat_of_lt' fits

variable {start sleepTicks : UInt32}

/-- As long as there have been too few interrupts, the thread goes on. -/
theorem spins_on (h : Spins s now start (.waiting start sleepTicks)) (j : Nat)
    (few : ∀ i < j, raisedIn n now i < sleepTicks.toNat) : ∃ t, Relation.ReflTransGen (ClockStep n) s t ∧
      Spins t (now + j) (start + UInt32.ofNat (raisedIn n now j)) (.waiting start sleepTicks) := by
  induction j with
  | zero =>
    refine ⟨s, .refl, ?_⟩
    rw [raisedIn_zero, show UInt32.ofNat 0 = 0 from rfl, UInt32.add_zero]
    exact h
  | succ j ih =>
    obtain ⟨t, run, waits⟩ := ih fun i below => few i (Nat.lt_succ_of_lt below)
    have now_few := few j (Nat.lt_succ_self j)
    have short : start + UInt32.ofNat (raisedIn n now j) - start < sleepTicks := by
      rw [UInt32.lt_iff_toNat_lt, ticks_since (now_few.trans sleepTicks.toNat_lt)]
      exact now_few
    obtain ⟨u, checked, still⟩ := check_spins (n := n) waits short
    obtain ⟨v, turned, later⟩ := cycle_spins (n := n) still
    refine ⟨v, (run.tail checked).trans turned, ?_⟩
    have counted : UInt32.ofNat (if n ∣ now + j + 1 then 1 else 0) = if n ∣ now + j + 1 then 1 else 0 := by
      split <;> rfl
    rw [raisedIn_succ, UInt32.ofNat_add, ← UInt32.add_assoc, counted]
    exact later

/-- In this run no more cycles pass than the ticks slept take. -/
theorem spins_return (pos : 0 < n) (h : Spins s now start (.waiting start sleepTicks)) :
    ∃ t, Relation.ReflTransGen (ClockStep n) s t ∧ t.pc = .returned ∧ t.now ≤ now + n * sleepTicks.toNat := by
  have ends : ∃ j, ¬raisedIn n now j < sleepTicks.toNat :=
    ⟨n * sleepTicks.toNat, by rw [raisedIn_periods pos]; exact Nat.lt_irrefl _⟩
  let last := Nat.find ends
  have few : ∀ i < last, raisedIn n now i < sleepTicks.toNat := fun i below => not_not.1 (Nat.find_min ends below)
  have bound : last ≤ n * sleepTicks.toNat :=
    Nat.find_min' ends (by rw [raisedIn_periods pos]; exact Nat.lt_irrefl _)
  have fits : raisedIn n now last < 2 ^ 32 := by
    cases eq : last with
    | zero =>
      rw [raisedIn_zero]
      decide
    | succ j =>
      have before := few j (by omega)
      have small := sleepTicks.toNat_lt
      rw [raisedIn_succ]
      split <;> omega
  obtain ⟨t, run, waits⟩ := spins_on (n := n) h last few
  have enough : ¬start + UInt32.ofNat (raisedIn n now last) - start < sleepTicks := by
    rw [UInt32.lt_iff_toNat_lt, ticks_since fits]
    exact Nat.find_spec ends
  obtain ⟨u, out, same, returned⟩ := check_returns (n := n) waits enough
  exact ⟨u, run.tail out, returned, by omega⟩

/-! The whole call. -/

theorem divRoundUp_toNat {m : UInt32} (high : m.toNat ≤ 2 ^ 32 - 10) :
    (divRoundUp m milSecondsPerIntr).toNat = (m.toNat + 9) / 10 := by
  have steps : (m + milSecondsPerIntr - 1).toNat = m.toNat + 9 := by
    have less_one : m + milSecondsPerIntr - 1 = m + 9 := by
      rw [show milSecondsPerIntr = 9 + 1 from rfl, ← UInt32.add_assoc, UInt32.add_sub_cancel]
    rw [less_one, UInt32.toNat_add]
    exact Nat.mod_eq_of_lt (by have := show (9 : UInt32).toNat = 9 from rfl; omega)
  rw [divRoundUp, UInt32.toNat_div, steps]
  rfl

/-- The sleeper and the idle thread, which is blocked. -/
def napping (mSeconds ticks : UInt32) : Clocked where
  sched := {
    task := fun t => ⟨if t = 1 then .running else .blocked, 31, 31, 0, stackMagicNumber, .on⟩
    threads := [1, 2]
    current := 1
    intr := .on
    mainThread := 1
    idleThread := 2
    threadReadyList := []
    threadAllList := [1, 2]
    ticks := ticks }
  now := 0
  pending := false
  sleeper := 1
  pc := .called mSeconds

theorem napping_calls (mSeconds ticks : UInt32) : Calls (napping mSeconds ticks) mSeconds ticks := by
  refine ⟨⟨⟨?_, ?_, ?_, ?_, ?_, ?_, ?_, ?_, ?_, ?_⟩, rfl⟩, rfl, rfl, rfl, rfl, rfl⟩
  all_goals simp [napping]

/-- With 155 cycles from one interrupt to the next. -/
theorem returns_early {m : UInt32} (ticks : UInt32) (low : 11 ≤ m.toNat) (high : m.toNat ≤ 2 ^ 32 - 10) :
    ¬NeverEarly 155 m ticks := by
  intro never
  have length := divRoundUp_toNat high
  have some_ticks : divRoundUp m milSecondsPerIntr > 0 := by
    rw [gt_iff_lt, UInt32.lt_iff_toNat_lt, length]
    exact Nat.div_pos (by omega) (by decide)
  have calls := napping_calls m ticks
  let waiting := (napping m ticks).goto (.waiting ticks (divRoundUp m milSecondsPerIntr))
  have entered : ClockStep 155 (napping m ticks) waiting := by
    refine ⟨.sleeper, ⟨fun due => Bool.false_ne_true due.1, rfl⟩, ?_⟩
    rw [clockPerform, mtimeSleep, run_bind rfl]
    show (assert (divRoundUp m milSecondsPerIntr > 0) >>= _) _ = _
    rw [assert, check, if_pos some_ticks]
    rfl
  have waits : Spins waiting 0 ticks (.waiting ticks (divRoundUp m milSecondsPerIntr)) :=
    ⟨⟨rfl, rfl, rfl, rfl, rfl⟩, rfl, rfl, rfl, rfl⟩
  obtain ⟨t, run, returned, soon⟩ := spins_return (n := 155) (by decide) waits
  have late := never _ t calls (run.head entered) returned
  rw [length, Nat.zero_add] at soon
  rw [show inputFrequency.toNat = 1193180 from rfl, show (napping m ticks).now = 0 from rfl, Nat.sub_zero] at late
  omega

/-- For every length and every value of the counter there is a run in which the call returns early. -/
theorem mtimeSleep_early (m ticks : UInt32) (low : 11 ≤ m.toNat) (high : m.toNat ≤ 2 ^ 32 - 10) :
    ∃ n, period timerInit = some n ∧ ¬NeverEarly n m ticks :=
  ⟨155, period_timerInit, returns_early ticks low high⟩

theorem mtimeSleep_early_eleven : (11 ≤ (11 : UInt32).toNat ∧ (11 : UInt32).toNat ≤ 2 ^ 32 - 10) ∧
    ∃ n, period timerInit = some n ∧ ¬NeverEarly n 11 0 :=
  ⟨by decide, mtimeSleep_early 11 0 (by decide) (by decide)⟩

/-- A second asked for, with the counter at zero. -/
theorem second_not_slept : ¬∀ m ticks : UInt32, 11 ≤ m.toNat → m.toNat ≤ 2 ^ 32 - 10 →
    ∀ n, period timerInit = some n → NeverEarly n m ticks := fun never =>
  returns_early 0 (by decide) (by decide) (never 1000 0 (by decide) (by decide) 155 period_timerInit)

end Zhenxiang.Device
