import Zhenxiang.Device.IdeSafety

/-! The pairing of commands, interrupts and wake-ups, read off the log of the channel. -/
namespace Zhenxiang.Device
open Lib Kernel Thread

def IdeLog.isCommand : IdeLog → Bool
  | .command _ => true
  | _ => false

def IdeLog.isDone : IdeLog → Bool
  | .done _ => true
  | _ => false

/-- Whenever disk_done let a thread through, one interrupt had been accepted since that thread
last set expecting_intr; it had given its one command since then, and no thread another. -/
def Answered (log : List IdeLog) : Prop :=
  ∀ after t before, log = after ++ .done t :: before →
    ∃ l, before = .interrupt :: .command t :: .flag t :: l ∨ before = .command t :: .interrupt :: .flag t :: l

section Logs
variable {l : List IdeLog}

theorem Answered.cons {e : IdeLog} (h : Answered l) (other : e.isDone = false) : Answered (e :: l) := by
  intro after t before split
  cases after with
  | nil =>
    have both : e = .done t := (List.cons.inj split).1
    rw [both] at other
    cases other
  | cons a rest => exact h rest t before (List.cons.inj split).2

theorem Answered.done {t : Nat} (h : Answered l)
    (round : ∃ r, l = .interrupt :: .command t :: .flag t :: r ∨ l = .command t :: .interrupt :: .flag t :: r) :
    Answered (.done t :: l) := by
  intro after u before split
  cases after with
  | nil =>
    obtain ⟨same, tail⟩ := List.cons.inj split
    cases same
    subst tail
    exact round
  | cons a rest => exact h rest u before (List.cons.inj split).2

theorem Rounds.answered (h : Rounds l) : Answered l := by
  induction h with
  | nil =>
    intro after t before split
    cases after <;> cases split
  | late t _ ih => exact Answered.done (((ih.cons rfl).cons rfl).cons rfl) ⟨_, Or.inl rfl⟩
  | early t _ ih => exact Answered.done (((ih.cons rfl).cons rfl).cons rfl) ⟨_, Or.inr rfl⟩

theorem Rounds.balanced (h : Rounds l) : l.countP IdeLog.isCommand = l.countP IdeLog.isDone := by
  induction h with
  | nil => rfl
  | late t _ ih => simp [List.countP_cons, IdeLog.isCommand, IdeLog.isDone, ih]
  | early t _ ih => simp [List.countP_cons, IdeLog.isCommand, IdeLog.isDone, ih]

end Logs

section States
variable {s : IdeSys}

/-- What the invariant says of the channel alone. -/
theorem IdeInv.channel (h : IdeInv s) : AtRest s ∨ ∃ t, Flagged s t ∨ Commanded s t := by
  rcases h.owner with ⟨o, _, _, view, _⟩ | ⟨_, _, _, rest, _⟩
  · cases at_place : s.place o <;> rw [at_place] at view
    case out | down | retest | incr | decr => exact view.elim
    case command => exact Or.inr ⟨o, Or.inl view.2.2⟩
    case await | reawait => exact Or.inr ⟨o, Or.inr view.2.2⟩
    case busy | nap =>
      rcases view.2.2 with ⟨_, commanded⟩ | ⟨_, rest⟩
      · exact Or.inr ⟨o, Or.inr commanded⟩
      · exact Or.inl rest
    all_goals exact Or.inl view.2.2
  · exact Or.inl rest

theorem IdeInv.binary (h : IdeInv s) : (s.sema .diskDone).value = 0 ∨ (s.sema .diskDone).value = 1 := by
  rcases h.channel with rest | ⟨t, ⟨l, _, ⟨_, value, _⟩ | ⟨_, value, _⟩⟩ | ⟨l, _, ⟨_, value, _⟩ | ⟨_, value, _⟩⟩⟩
  · exact Or.inl rest.value
  · exact Or.inl value
  · exact Or.inr value
  · exact Or.inl value
  · exact Or.inr value

theorem IdeInv.log (h : IdeInv s) : Answered s.log ∧
    s.log.countP IdeLog.isCommand ≤ s.log.countP IdeLog.isDone + 1 := by
  rcases h.channel with rest | ⟨t, ⟨l, rounds, ⟨_, _, log⟩ | ⟨_, _, log⟩⟩ | ⟨l, rounds, ⟨_, _, log⟩ | ⟨_, _, log | log⟩⟩⟩
  · exact ⟨rest.log.answered, Nat.le_succ_of_le (Nat.le_of_eq rest.log.balanced)⟩
  · rw [log]
    refine ⟨rounds.answered.cons rfl, ?_⟩
    simp [IdeLog.isCommand, IdeLog.isDone, rounds.balanced]
  · rw [log]
    refine ⟨(rounds.answered.cons rfl).cons rfl, ?_⟩
    simp [IdeLog.isCommand, IdeLog.isDone, rounds.balanced]
  · rw [log]
    refine ⟨(rounds.answered.cons rfl).cons rfl, ?_⟩
    simp [List.countP_cons, IdeLog.isCommand, IdeLog.isDone, rounds.balanced]
  · rw [log]
    refine ⟨((rounds.answered.cons rfl).cons rfl).cons rfl, ?_⟩
    simp [List.countP_cons, IdeLog.isCommand, IdeLog.isDone, rounds.balanced]
  · rw [log]
    refine ⟨((rounds.answered.cons rfl).cons rfl).cons rfl, ?_⟩
    simp [List.countP_cons, IdeLog.isCommand, IdeLog.isDone, rounds.balanced]

end States

/-- For any interleaving of the threads and any interrupts: disk_done is 0 or 1; a step ends
without returning only in a check of the sectors or in the PANIC after busy_wait; at most one
command given has not been waited for; each sema_down of disk_done is let through by an
interrupt accepted since its thread last set expecting_intr, and only one; and while no thread
is past lock_acquire, disk_done is 0 and no interrupt is expected. -/
theorem ide_protocol {s : IdeSys} (h : Reachable IdeStart IdeStep s) :
    ((s.sema .diskDone).value = 0 ∨ (s.sema .diskDone).value = 1) ∧
    (∀ e, IdeAllowed s e → (∃ t, idePerform e s = .ok ((), t)) ∨
      ∃ f, idePerform e s = .error f ∧ IdeStops s e f) ∧
    s.log.countP IdeLog.isCommand ≤ s.log.countP IdeLog.isDone + 1 ∧
    Answered s.log ∧
    ((∀ t ∈ s.sched.threads, Outsider (s.place t)) →
      (s.sema .diskDone).value = 0 ∧ s.expectingIntr = false) := by
  have inv := reachable_ideInv h
  refine ⟨inv.binary, ?_, inv.log.2, inv.log.1, ?_⟩
  · intro e allowed
    have spec := idePerform_spec inv allowed
    cases run : idePerform e s with
    | ok r => exact Or.inl ⟨r.2, rfl⟩
    | error f => exact Or.inr ⟨f, rfl, (wp_of_error run).1 spec⟩
  · intro outside
    rcases inv.owner with ⟨o, ho, _, view, _⟩ | ⟨_, _, _, rest, _⟩
    · exact (not_outsider_of_view view (outside o ho)).elim
    · exact ⟨rest.value, rest.expecting⟩

def ideStart : IdeSys where
  sched := trioSched
  holder := none
  holderRepeatNr := 0
  sema k := ⟨if k = .lock then 1 else 0, []⟩
  expectingIntr := false
  place _ := .out
  job _ := ⟨false, 0, 0, 0, 0, 0, 0⟩
  log := []

theorem ideStart_start : IdeStart ideStart :=
  ⟨trioSched_inv, rfl, rfl, rfl, rfl, rfl, fun _ => rfl, rfl⟩

/-- A thread reads sector 0 and is interrupted after it has given its command. -/
theorem ide_protocol_read : ∃ s, Reachable IdeStart IdeStep s ∧
    s.log = [.done 2, .interrupt, .command 2, .flag 2] ∧ Answered s.log := by
  have run : (runEvents IdeAllowed idePerform [.enable, .call false 0 1, .advance 0 8, .advance 0 8, .advance 0 8,
      .advance 0 8, .advance 0 8, .advance 0 8, .advance 0 8, .interrupt, .advance 0 8] ideStart).map IdeSys.log =
        some [.done 2, .interrupt, .command 2, .flag 2] := by
    decide +kernel
  obtain ⟨s, steps, log⟩ := Option.map_eq_some_iff.1 run
  have reach : Reachable IdeStart IdeStep s := (Reachable.start ideStart_start).trans (runEvents_steps steps)
  exact ⟨s, reach, log, (ide_protocol reach).2.2.2.1⟩

/-- The disk interrupts between the two statements of cmd_out: the thread is let through by an
interrupt that came before its command, and none comes after it. -/
theorem interrupt_before_command : ∃ s, Reachable IdeStart IdeStep s ∧
    s.log = [.done 2, .command 2, .interrupt, .flag 2] := by
  have run : (runEvents IdeAllowed idePerform [.enable, .call false 0 1, .advance 0 8, .advance 0 8, .advance 0 8,
      .advance 0 8, .advance 0 8, .advance 0 8, .interrupt, .advance 0 8, .advance 0 8] ideStart).map IdeSys.log =
        some [.done 2, .command 2, .interrupt, .flag 2] := by
    decide +kernel
  obtain ⟨s, steps, log⟩ := Option.map_eq_some_iff.1 run
  exact ⟨s, (Reachable.start ideStart_start).trans (runEvents_steps steps), log⟩

end Zhenxiang.Device
