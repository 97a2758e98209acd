import Zhenxiang.Device.Ide
import Zhenxiang.Thread.Moved

/-! The channel under every interleaving. One thread at most is past the semaphore of the
lock; what it sees of the channel, and of what has happened there, depends only on where it
is. -/
namespace Zhenxiang.Device
open Lib Kernel Thread

/-- A log of completed commands: each was announced by expecting_intr, answered by one
interrupt accepted after that, and taken by the sema_down of the thread that gave it. -/
inductive Rounds : List IdeLog → Prop where
  | nil : Rounds []
  | late {l : List IdeLog} (t : Nat) : Rounds l → Rounds (.done t :: .interrupt :: .command t :: .flag t :: l)
  | early {l : List IdeLog} (t : Nat) : Rounds l → Rounds (.done t :: .command t :: .interrupt :: .flag t :: l)

/-- No command is outstanding. -/
structure AtRest (s : IdeSys) : Prop where
  value : (s.sema .diskDone).value = 0
  expecting : s.expectingIntr = false
  log : Rounds s.log

/-- The thread has set expecting_intr and not yet written the command register. -/
def Flagged (s : IdeSys) (t : Nat) : Prop :=
  ∃ l, Rounds l ∧ ((s.expectingIntr = true ∧ (s.sema .diskDone).value = 0 ∧ s.log = .flag t :: l) ∨
    (s.expectingIntr = false ∧ (s.sema .diskDone).value = 1 ∧ s.log = .interrupt :: .flag t :: l))

/-- The thread has given its command and not yet been let through by disk_done. -/
def Commanded (s : IdeSys) (t : Nat) : Prop :=
  ∃ l, Rounds l ∧ ((s.expectingIntr = true ∧ (s.sema .diskDone).value = 0 ∧ s.log = .command t :: .flag t :: l) ∨
    (s.expectingIntr = false ∧ (s.sema .diskDone).value = 1 ∧
      (s.log = .interrupt :: .command t :: .flag t :: l ∨ s.log = .command t :: .interrupt :: .flag t :: l)))

/-- The channel as the thread past the semaphore of the lock finds it. -/
def ChannelView (s : IdeSys) (t : Nat) : Place → Prop
  | .out | .down | .retest _ | .incr | .decr => False
  | .setHolder | .up => s.holder = none ∧ s.holderRepeatNr = 0 ∧ AtRest s
  | .checkNr | .setNr => s.holder = some t ∧ s.holderRepeatNr = 0 ∧ AtRest s
  | .loop | .flag | .next | .release | .testNr | .checkOne | .clearHolder =>
    s.holder = some t ∧ s.holderRepeatNr = 1 ∧ AtRest s
  | .command => s.holder = some t ∧ s.holderRepeatNr = 1 ∧ Flagged s t
  | .await | .reawait _ => s.holder = some t ∧ s.holderRepeatNr = 1 ∧ Commanded s t
  | .busy | .nap =>
    s.holder = some t ∧ s.holderRepeatNr = 1 ∧ ((s.job t).write = true ∧ Commanded s t ∨
      (s.job t).write = false ∧ AtRest s)
  | .clearNr => s.holder = none ∧ s.holderRepeatNr = 1 ∧ AtRest s

/-- Outside, or waiting for the lock. -/
def Outsider : Place → Prop
  | .out | .down | .retest _ => True
  | _ => False

def Parked : Sema → Place → Prop
  | .lock, .retest _ => True
  | .diskDone, .reawait _ => True
  | _, _ => False

/-- Either one thread is past the semaphore of the lock, or the channel is at rest. -/
def ChannelOwner (s : IdeSys) : Prop :=
  (∃ o ∈ s.sched.threads, (s.sema .lock).value = 0 ∧ ChannelView s o (s.place o) ∧
    ∀ t ∈ s.sched.threads, t ≠ o → Outsider (s.place t)) ∨
  ((s.sema .lock).value = 1 ∧ s.holder = none ∧ s.holderRepeatNr = 0 ∧ AtRest s ∧
    ∀ t ∈ s.sched.threads, Outsider (s.place t))

structure IdeInv (s : IdeSys) : Prop where
  sched : Inv s.sched
  idle : s.place s.sched.idleThread = .out
  queue_nodup : ∀ k, (s.sema k).waiters.Nodup
  queue : ∀ k t, t ∈ (s.sema k).waiters ↔ t ∈ s.sched.threads ∧ s.sched.Sleeps t ∧ Parked k (s.place t)
  owner : ChannelOwner s

section Facts
variable {s t : IdeSys}

theorem ChannelView.congr {x : Nat} {p : Place} (h : ChannelView s x p) (holder : t.holder = s.holder)
    (nr : t.holderRepeatNr = s.holderRepeatNr) (job : (t.job x).write = (s.job x).write)
    (value : (t.sema .diskDone).value = (s.sema .diskDone).value) (expecting : t.expectingIntr = s.expectingIntr)
    (log : t.log = s.log) : ChannelView t x p := by
  have rest : AtRest s → AtRest t :=
    fun r => ⟨value.trans r.value, expecting.trans r.expecting, log ▸ r.log⟩
  have flagged : Flagged s x → Flagged t x := by
    intro f
    simpa only [Flagged, value, expecting, log] using f
  have commanded : Commanded s x → Commanded t x := by
    intro c
    simpa only [Commanded, value, expecting, log] using c
  cases p <;> simp only [ChannelView, holder, nr, job] at h ⊢
  case setHolder | up | checkNr | setNr | loop | flag | next | release | testNr | checkOne | clearHolder | clearNr =>
    exact ⟨h.1, h.2.1, rest h.2.2⟩
  case command => exact ⟨h.1, h.2.1, flagged h.2.2⟩
  case await | reawait => exact ⟨h.1, h.2.1, commanded h.2.2⟩
  case busy | nap => exact ⟨h.1, h.2.1, h.2.2.imp (And.imp_right commanded) (And.imp_right rest)⟩

/-- An expected interrupt finds disk_done at zero; the owner's view of the channel survives it. -/
theorem ChannelView.interrupted {x : Nat} {p : Place} (h : ChannelView s x p) (expecting : s.expectingIntr = true) :
    (s.sema .diskDone).value = 0 ∧ ∀ t : IdeSys, t.holder = s.holder → t.holderRepeatNr = s.holderRepeatNr →
      t.job = s.job → (t.sema .diskDone).value = 1 → t.expectingIntr = false → t.log = .interrupt :: s.log →
      ChannelView t x p := by
  have not_rest : ¬ AtRest s := by
    intro rest
    rw [rest.expecting] at expecting
    cases expecting
  have flagged : Flagged s x → (s.sema .diskDone).value = 0 ∧ ∀ t : IdeSys, (t.sema .diskDone).value = 1 →
      t.expectingIntr = false → t.log = .interrupt :: s.log → Flagged t x := by
    intro ⟨l, rounds, state⟩
    rcases state with ⟨_, value, log⟩ | ⟨unexpected, _⟩
    · refine ⟨value, fun t one off more => ⟨l, rounds, Or.inr ⟨off, one, ?_⟩⟩⟩
      rw [more, log]
    · rw [unexpected] at expecting
      cases expecting
  have commanded : Commanded s x → (s.sema .diskDone).value = 0 ∧ ∀ t : IdeSys, (t.sema .diskDone).value = 1 →
      t.expectingIntr = false → t.log = .interrupt :: s.log → Commanded t x := by
    intro ⟨l, rounds, state⟩
    rcases state with ⟨_, value, log⟩ | ⟨unexpected, _⟩
    · refine ⟨value, fun t one off more => ⟨l, rounds, Or.inr ⟨off, one, Or.inl ?_⟩⟩⟩
      rw [more, log]
    · rw [unexpected] at expecting
      cases expecting
  cases p <;> simp only [ChannelView] at h ⊢
  case setHolder | up | checkNr | setNr | loop | flag | next | release | testNr | checkOne | clearHolder | clearNr =>
    exact (not_rest h.2.2).elim
  case command =>
    obtain ⟨value, after⟩ := flagged h.2.2
    exact ⟨value, fun t holder nr _ one off more => ⟨holder.trans h.1, nr.trans h.2.1, after t one off more⟩⟩
  case await | reawait =>
    obtain ⟨value, after⟩ := commanded h.2.2
    exact ⟨value, fun t holder nr _ one off more => ⟨holder.trans h.1, nr.trans h.2.1, after t one off more⟩⟩
  case busy | nap =>
    rcases h.2.2 with ⟨write, there⟩ | ⟨_, rest⟩
    · obtain ⟨value, after⟩ := commanded there
      refine ⟨value, fun t holder nr job one off more => ⟨holder.trans h.1, nr.trans h.2.1, Or.inl ⟨?_, after t one off more⟩⟩⟩
      rw [job]
      exact write
    · exact (not_rest rest).elim

theorem not_outsider_of_view {x : Nat} {p : Place} (h : ChannelView s x p) : ¬ Outsider p := by
  cases p <;> simp_all [ChannelView, Outsider]

theorem parked_unique {j k : Sema} {p : Place} (hj : Parked j p) (hk : Parked k p) : j = k := by
  cases j <;> cases k <;> cases p <;> simp_all [Parked]

theorem IdeInv.current_not_queued (h : IdeInv s) (k : Sema) : s.sched.current ∉ (s.sema k).waiters := by
  intro hm
  exact h.sched.current_awake ((h.queue k _).1 hm).2.1

/-- A running thread that is no outsider is past the semaphore of the lock. -/
theorem IdeInv.owns (h : IdeInv s) (inside : ¬ Outsider (s.place s.sched.current)) :
    (s.sema .lock).value = 0 ∧ ChannelView s s.sched.current (s.place s.sched.current) ∧
      ∀ t ∈ s.sched.threads, t ≠ s.sched.current → Outsider (s.place t) := by
  rcases h.owner with ⟨o, _, value, view, others⟩ | ⟨_, _, _, _, all⟩
  · have he : s.sched.current = o := by
      by_contra hne
      exact inside (others _ h.sched.current_mem hne)
    subst he
    exact ⟨value, view, others⟩
  · exact (inside (all _ h.sched.current_mem)).elim

/-- A step after which the same threads are queued. -/
theorem IdeInv.kept (h : IdeInv s) (moved : Moved s.sched t.sched (fun _ => False) s.sched.Sleeps)
    (place : ∀ x, x ≠ s.sched.current → t.place x = s.place x)
    (idle : s.sched.current = s.sched.idleThread → t.place s.sched.current = .out)
    (waiters : ∀ k, (t.sema k).waiters = (s.sema k).waiters) (owner : ChannelOwner t) : IdeInv t := by
  have idle_out : t.place s.sched.idleThread = .out := by
    by_cases hc : s.sched.idleThread = s.sched.current
    · rw [hc]
      exact idle hc.symm
    · rw [place _ hc]
      exact h.idle
  constructor
  · exact moved.inv
  · rw [moved.idle]
    exact idle_out
  · intro k
    rw [waiters]
    exact h.queue_nodup k
  · intro k x
    rw [waiters, h.queue, moved.threads]
    by_cases hi : x = s.sched.idleThread
    · subst hi
      rw [idle_out, h.idle]
      cases k <;> simp [Parked]
    · constructor
      · intro ⟨hx, sleeps, parked⟩
        have hc : x ≠ s.sched.current := by
          intro he
          exact h.sched.current_awake (he ▸ sleeps)
        rw [place x hc]
        exact ⟨hx, (moved.asleep x hx hi).2 sleeps, parked⟩
      · intro ⟨hx, sleeps, parked⟩
        have was := (moved.asleep x hx hi).1 sleeps
        have hc : x ≠ s.sched.current := by
          intro he
          exact h.sched.current_awake (he ▸ was)
        rw [place x hc] at parked
        exact ⟨hx, was, parked⟩
  · exact owner

/-- The thread past the semaphore of the lock moves on. -/
theorem IdeInv.owner_moves (h : IdeInv s) (inside : ¬ Outsider (s.place s.sched.current))
    (moved : Moved s.sched t.sched (fun _ => False) s.sched.Sleeps)
    (place : ∀ x, x ≠ s.sched.current → t.place x = s.place x)
    (value : (t.sema .lock).value = (s.sema .lock).value)
    (waiters : ∀ k, (t.sema k).waiters = (s.sema k).waiters)
    (view : ChannelView t s.sched.current (t.place s.sched.current)) : IdeInv t := by
  obtain ⟨taken, _, others⟩ := h.owns inside
  refine h.kept moved place ?_ waiters (Or.inl ⟨s.sched.current, ?_, value.trans taken, view, ?_⟩)
  · intro hi
    rw [hi, h.idle] at inside
    exact (inside trivial).elim
  · rw [moved.threads]
    exact h.sched.current_mem
  · intro x hx hne
    rw [place x hne]
    exact others x (moved.threads ▸ hx) hne

/-- The same, when it changes neither the scheduler nor a semaphore. -/
theorem IdeInv.owner_goes (h : IdeInv s) (inside : ¬ Outsider (s.place s.sched.current)) {p : Place}
    (sched : t.sched = s.sched) (sema : t.sema = s.sema)
    (place : t.place = Function.update s.place s.sched.current p) (view : ChannelView t s.sched.current p) :
    IdeInv t := by
  refine h.owner_moves inside ?_ ?_ ?_ ?_ ?_
  · rw [sched]
    exact Moved.still h.sched _
  · intro x hx
    rw [place, Function.update_of_ne hx]
  · rw [sema]
  · intro k
    rw [sema]
  · rw [place, Function.update_self]
    exact view

theorem ChannelOwner.aside (h : ChannelOwner s) {u : Sched} (threads : u.threads = s.sched.threads) :
    ChannelOwner { s with sched := u } := by
  rcases h with ⟨o, ho, taken, view, others⟩ | ⟨free, none_holds, zero, rest, all⟩
  · exact Or.inl ⟨o, threads ▸ ho, taken, view.congr rfl rfl rfl rfl rfl rfl, fun t ht => others t (threads ▸ ht)⟩
  · exact Or.inr ⟨free, none_holds, zero, ⟨rest.value, rest.expecting, rest.log⟩, fun t ht => all t (threads ▸ ht)⟩

/-- The owner stays the same when the scheduler moves and an outsider moves among the places
outside. -/
theorem ChannelOwner.outsider_moves (h : ChannelOwner s) {me : Nat} (outside : Outsider (s.place me))
    (still : Outsider (t.place me)) (place : ∀ x, x ≠ me → t.place x = s.place x)
    (threads : t.sched.threads = s.sched.threads) (holder : t.holder = s.holder)
    (nr : t.holderRepeatNr = s.holderRepeatNr) (job : ∀ x, x ≠ me → t.job x = s.job x)
    (value : ∀ k, (t.sema k).value = (s.sema k).value) (expecting : t.expectingIntr = s.expectingIntr)
    (log : t.log = s.log) : ChannelOwner t := by
  have outsiders : ∀ x, Outsider (s.place x) → Outsider (t.place x) := by
    intro x out
    by_cases hx : x = me
    · subst hx
      exact still
    · rw [place x hx]
      exact out
  rcases h with ⟨o, ho, taken, view, others⟩ | ⟨free, none_holds, zero, rest, all⟩
  · have hne : o ≠ me := by
      intro he
      subst he
      exact not_outsider_of_view view outside
    refine Or.inl ⟨o, threads ▸ ho, (value .lock).trans taken, ?_, ?_⟩
    · rw [place o hne]
      exact view.congr holder nr (by rw [job o hne]) (value .diskDone) expecting log
    · intro x hx hxo
      exact outsiders x (others x (threads ▸ hx) hxo)
  · refine Or.inr ⟨(value .lock).trans free, holder.trans none_holds, nr.trans zero, ?_, ?_⟩
    · exact ⟨(value .diskDone).trans rest.value, expecting.trans rest.expecting, log ▸ rest.log⟩
    · intro x hx
      exact outsiders x (all x (threads ▸ hx))

/-- The running thread queues on a semaphore and gives up the processor. -/
theorem IdeInv.parks (h : IdeInv s) {u : Sched} {k : Sema} {p : Place} (parked : Parked k p)
    (idle : s.sched.current ≠ s.sched.idleThread)
    (moved : Moved s.sched u (fun _ => False) fun x => x = s.sched.current ∨ s.sched.Sleeps x)
    (sched : t.sched = u) (place : t.place = Function.update s.place s.sched.current p)
    (waiters : (t.sema k).waiters = (s.sema k).waiters ++ [s.sched.current])
    (others : ∀ j, j ≠ k → (t.sema j).waiters = (s.sema j).waiters) (owner : ChannelOwner t) : IdeInv t := by
  subst sched
  have me : t.sched.Sleeps s.sched.current := (moved.asleep _ h.sched.current_mem idle).2 (Or.inl rfl)
  have before : ∀ j x, x ≠ s.sched.current → (x ∈ (s.sema j).waiters ↔
      x ∈ t.sched.threads ∧ t.sched.Sleeps x ∧ Parked j (t.place x)) := by
    intro j x hc
    rw [h.queue, moved.threads, place, Function.update_of_ne hc]
    by_cases hi : x = s.sched.idleThread
    · subst hi
      rw [h.idle]
      cases j <;> simp [Parked]
    · constructor
      · intro ⟨hx, sleeps, there⟩
        exact ⟨hx, (moved.asleep x hx hi).2 (Or.inr sleeps), there⟩
      · intro ⟨hx, sleeps, there⟩
        exact ⟨hx, ((moved.asleep x hx hi).1 sleeps).resolve_left hc, there⟩
  constructor
  · exact moved.inv
  · rw [moved.idle, place, Function.update_of_ne idle.symm]
    exact h.idle
  · intro j
    by_cases hj : j = k
    · subst hj
      rw [waiters]
      exact List.Nodup.append (h.queue_nodup j) (List.nodup_singleton _)
        (List.disjoint_singleton.2 (h.current_not_queued j))
    · rw [others j hj]
      exact h.queue_nodup j
  · intro j x
    by_cases hc : x = s.sched.current
    · subst hc
      rw [place, Function.update_self, moved.threads]
      by_cases hj : j = k
      · subst hj
        rw [waiters]
        simp [h.sched.current_mem, me, parked]
      · rw [others j hj]
        refine iff_of_false (h.current_not_queued j) ?_
        intro ⟨_, _, there⟩
        exact hj (parked_unique there parked)
    · rw [← before j x hc]
      by_cases hj : j = k
      · subst hj
        rw [waiters]
        simp [hc]
      · rw [others j hj]
  · exact owner

/-- The first thread queued on a semaphore is woken. -/
theorem IdeInv.wakes (h : IdeInv s) {k : Sema} (waiters : (t.sema k).waiters = (s.sema k).waiters.tail)
    (others : ∀ j, j ≠ k → (t.sema j).waiters = (s.sema j).waiters)
    (moved : Moved s.sched t.sched (fun _ => False)
      fun x => (s.sema k).waiters.head? ≠ some x ∧ s.sched.Sleeps x)
    (place : ∀ x, x ≠ s.sched.current → t.place x = s.place x)
    (idle : s.sched.current = s.sched.idleThread → t.place s.sched.current = .out)
    (owner : ChannelOwner t) : IdeInv t := by
  have idle_out : t.place s.sched.idleThread = .out := by
    by_cases hc : s.sched.idleThread = s.sched.current
    · rw [hc]
      exact idle hc.symm
    · rw [place _ hc]
      exact h.idle
  have tail_iff : ∀ x, x ∈ (s.sema k).waiters.tail ↔
      (s.sema k).waiters.head? ≠ some x ∧ x ∈ (s.sema k).waiters := by
    intro x
    have nodup := h.queue_nodup k
    cases list : (s.sema k).waiters with
    | nil => simp
    | cons w rest =>
      have distinct : w ∉ rest ∧ rest.Nodup := List.nodup_cons.1 (list ▸ nodup)
      by_cases hw : x = w
      · subst hw
        simp [distinct.1]
      · simp [hw, Ne.symm hw]
  have split : ∀ j x, x ∈ (t.sema j).waiters ↔
      (s.sema k).waiters.head? ≠ some x ∧ x ∈ (s.sema j).waiters := by
    intro j x
    by_cases hj : j = k
    · subst hj
      rw [waiters, tail_iff]
    · rw [others j hj]
      refine ⟨fun hx => ⟨fun first => ?_, hx⟩, fun hx => hx.2⟩
      have there := ((h.queue k x).1 (List.mem_of_mem_head? first)).2.2
      exact hj (parked_unique ((h.queue j x).1 hx).2.2 there)
  constructor
  · exact moved.inv
  · rw [moved.idle]
    exact idle_out
  · intro j
    by_cases hj : j = k
    · subst hj
      rw [waiters]
      exact (h.queue_nodup j).tail
    · rw [others j hj]
      exact h.queue_nodup j
  · intro j x
    rw [split, h.queue, moved.threads]
    by_cases hi : x = s.sched.idleThread
    · subst hi
      rw [idle_out, h.idle]
      cases j <;> simp [Parked]
    · constructor
      · intro ⟨behind, hx, sleeps, there⟩
        have hc : x ≠ s.sched.current := by
          intro he
          exact h.sched.current_awake (he ▸ sleeps)
        rw [place x hc]
        exact ⟨hx, (moved.asleep x hx hi).2 ⟨behind, sleeps⟩, there⟩
      · intro ⟨hx, sleeps, there⟩
        obtain ⟨behind, was⟩ := (moved.asleep x hx hi).1 sleeps
        have hc : x ≠ s.sched.current := by
          intro he
          exact h.sched.current_awake (he ▸ was)
        rw [place x hc] at there
        exact ⟨behind, hx, was, there⟩
  · exact owner

end Facts

end Zhenxiang.Device
