import Zhenxiang.Lib.Trace

/-! The process ids of allocate_pid in thread.c, given out to any number of threads at once. A
thread that finds pid_lock taken does not go on; the timer may come between any two steps. No
task of this kernel ever ends. -/
namespace Zhenxiang.Thread
open Lib

/-- The value as an int16_t, which is what pid_t is. -/
def toPid (n : Int) : Int := n.bmod (2 ^ 16)

/-- Where a thread goes on in allocate_pid. -/
inductive PidPc where
  | out
  | acquire
  | load
  | store (nextPid : Int)
  | release
  | read
  deriving DecidableEq

/-- The static next_pid, the holder of pid_lock, and the pids returned so far. -/
structure PidSys where
  nextPid : Int
  holder : Option Nat
  pc : Nat → PidPc
  pids : List Int

namespace PidSys

def goto (s : PidSys) (t : Nat) (p : PidPc) : PidSys := { s with pc := Function.update s.pc t p }

/-- The next step of a thread. -/
def advance (s : PidSys) (t : Nat) : Option PidSys :=
  match s.pc t with
  | .out => some (s.goto t .acquire)
  | .acquire => if s.holder = none then some { s.goto t .load with holder := some t } else none
  | .load => some (s.goto t (.store s.nextPid))
  | .store n => some { s.goto t .release with nextPid := toPid (n + 1) }
  | .release => some { s.goto t .read with holder := none }
  | .read => some { s.goto t .out with pids := s.nextPid :: s.pids }

@[simp] theorem goto_self (s : PidSys) (t : Nat) (p : PidPc) : (s.goto t p).pc t = p :=
  Function.update_self ..

theorem goto_of_ne (s : PidSys) {t u : Nat} (p : PidPc) (h : u ≠ t) : (s.goto t p).pc u = s.pc u :=
  Function.update_of_ne h ..

end PidSys

def pidStart : PidSys := ⟨0, none, fun _ => .out, []⟩

def PidStep (s t : PidSys) : Prop := ∃ task, s.advance task = some t

/-- The thread is not about to increment next_pid, or no other one has given up pid_lock with
its answer still unread and the next pid is not -1. -/
def PidCareful (s : PidSys) (task : Nat) : Prop :=
  ∀ n, s.pc task = .store n → n ≠ -2 ∧ ∀ u, s.pc u ≠ .read

def CarefulPidStep (s t : PidSys) : Prop := ∃ task, PidCareful s task ∧ s.advance task = some t

/-- The pids differ, and none is the answer of fork to the child or the mark of a failure. -/
def PidsUnique (s : PidSys) : Prop := s.pids.Nodup ∧ 0 ∉ s.pids ∧ -1 ∉ s.pids

/-- The thread has incremented next_pid and not yet returned. -/
def PidPc.Pending : PidPc → Prop
  | .release | .read => True
  | _ => False

/-- What a thread at some place knows, after c increments of next_pid and when the pids
returned are those of the increments in ks. -/
def PidPc.View (s : PidSys) (c : Nat) (ks : List Nat) (t : Nat) : PidPc → Prop
  | .load => s.holder = some t
  | .store n => s.holder = some t ∧ n = s.nextPid
  | .release => s.holder = some t ∧ 0 < c ∧ c ∉ ks
  | .read => 0 < c ∧ c ∉ ks
  | _ => True

/-- After c increments the pids returned are some of the first c, and at most one thread has
not returned the last of them. -/
structure PidInv (s : PidSys) (c : Nat) (ks : List Nat) : Prop where
  few : c ≤ 65534
  count : s.nextPid = toPid c
  pids : s.pids = ks.map fun k : Nat => toPid k
  nodup : ks.Nodup
  range : ∀ k ∈ ks, 0 < k ∧ k ≤ c
  view : ∀ t, (s.pc t).View s c ks t
  alone : ∀ t u, (s.pc t).Pending → (s.pc u).Pending → t = u

theorem toPid_nat {k : Nat} (hk : k ≤ 65535) :
    toPid k = if k < 32768 then (k : Int) else (k : Int) - 65536 := by
  have m : 2 ^ 16 = 65536 := by norm_num
  rw [toPid, m, Int.bmod_def]
  split <;> split <;> omega

theorem toPid_succ (n : Int) : toPid (toPid n + 1) = toPid (n + 1) := Int.bmod_add_bmod

theorem toPid_inj {k l : Nat} (hk : k ≤ 65534) (hl : l ≤ 65534) (h : toPid k = toPid l) : k = l := by
  rw [toPid_nat (by omega), toPid_nat (by omega)] at h
  split at h <;> split at h <;> omega

theorem toPid_ne {k : Nat} (pos : 0 < k) (hk : k ≤ 65534) : toPid k ≠ 0 ∧ toPid k ≠ -1 := by
  rw [toPid_nat (by omega)]
  split <;> constructor <;> omega

theorem PidInv.unique {s : PidSys} {c : Nat} {ks : List Nat} (h : PidInv s c ks) : PidsUnique s := by
  have le : ∀ k ∈ ks, k ≤ 65534 := fun k hk => (h.range k hk).2.trans h.few
  refine ⟨?_, ?_, ?_⟩
  · rw [h.pids]
    exact h.nodup.map_on fun k hk l hl heq => toPid_inj (le k hk) (le l hl) heq
  · rw [h.pids]
    intro zero
    obtain ⟨k, hk, heq⟩ := List.mem_map.1 zero
    exact (toPid_ne (h.range k hk).1 (le k hk)).1 heq
  · rw [h.pids]
    intro minus
    obtain ⟨k, hk, heq⟩ := List.mem_map.1 minus
    exact (toPid_ne (h.range k hk).1 (le k hk)).2 heq

theorem pidStart_inv : PidInv pidStart 0 [] where
  few := Nat.zero_le _
  count := rfl
  pids := rfl
  nodup := List.nodup_nil
  range k hk := by cases hk
  view _ := trivial
  alone _ _ h := h.elim

variable {s t : PidSys} {c task : Nat} {ks : List Nat}

/-- A step of one thread that leaves next_pid and the pids as they are. -/
theorem PidInv.move (h : PidInv s c ks) {p : PidPc} {holder : Option Nat}
    (here : p.View { s with holder := holder } c ks task)
    (others : ∀ u, u ≠ task → s.holder = some u → holder = some u)
    (alone : p.Pending → ∀ u, u ≠ task → ¬ (s.pc u).Pending) :
    PidInv { s.goto task p with holder := holder } c ks where
  few := h.few
  count := h.count
  pids := h.pids
  nodup := h.nodup
  range := h.range
  view u := by
    by_cases same : u = task
    · subst same
      simp only [PidSys.goto_self]
      cases p <;> exact here
    · simp only [PidSys.goto_of_ne s p same]
      have view := h.view u
      cases hp : s.pc u <;> simp only [hp, PidPc.View] at view ⊢
      · exact others u same view
      · exact ⟨others u same view.1, view.2⟩
      · exact ⟨others u same view.1, view.2⟩
      · exact view
  alone u v hu hv := by
    by_cases su : u = task <;> by_cases sv : v = task
    · rw [su, sv]
    · subst su
      simp only [PidSys.goto_self, PidSys.goto_of_ne s p sv] at hu hv
      exact (alone hu v sv hv).elim
    · subst sv
      simp only [PidSys.goto_self, PidSys.goto_of_ne s p su] at hu hv
      exact (alone hv u su hu).elim
    · simp only [PidSys.goto_of_ne s p su, PidSys.goto_of_ne s p sv] at hu hv
      exact h.alone u v hu hv

/-- The increment: the thread holds the lock, and nobody else is between the lock and its
return. -/
theorem PidInv.increment (h : PidInv s c ks) (held : s.holder = some task) (low : s.nextPid ≠ -2)
    (quiet : ∀ u, u ≠ task → ¬ (s.pc u).Pending) :
    PidInv { s.goto task .release with nextPid := toPid (s.nextPid + 1) } (c + 1) ks := by
  have few := h.few
  have fresh : c + 1 ∉ ks := by
    intro hc
    have := (h.range _ hc).2
    omega
  have next : c ≠ 65534 := by
    intro last
    have value := h.count
    rw [toPid_nat (by omega), if_neg (by omega)] at value
    omega
  refine ⟨by omega, ?_, h.pids, h.nodup, fun k hk => ?_, fun u => ?_, fun u v hu hv => ?_⟩
  · rw [h.count, toPid_succ, Nat.cast_succ]
  · have := h.range k hk
    omega
  · by_cases same : u = task
    · subst same
      simp only [PidSys.goto_self]
      exact ⟨held, Nat.succ_pos c, fresh⟩
    · simp only [PidSys.goto_of_ne s _ same]
      have view := h.view u
      have idle := quiet u same
      cases hp : s.pc u <;> simp only [hp, PidPc.View, PidPc.Pending] at view idle ⊢
      · exact view
      · rw [held] at view
        exact (same (Option.some.inj view.1).symm).elim
      · exact (idle trivial).elim
      · exact (idle trivial).elim
  · have only : ∀ w, ((s.goto task .release).pc w).Pending → w = task := by
      intro w hw
      by_contra same
      rw [PidSys.goto_of_ne s _ same] at hw
      exact quiet w same hw
    rw [only u hu, only v hv]

/-- The return. -/
theorem PidInv.answer (h : PidInv s c ks) (hp : s.pc task = .read) :
    PidInv { s.goto task .out with pids := s.nextPid :: s.pids } c (c :: ks) := by
  have view := h.view task
  rw [hp] at view
  obtain ⟨pos, fresh⟩ := view
  have quiet : ∀ u, u ≠ task → ¬ (s.pc u).Pending := by
    intro u same hu
    exact same (h.alone u task hu (by rw [hp]; trivial))
  refine ⟨h.few, h.count, ?_, List.nodup_cons.2 ⟨fresh, h.nodup⟩, fun k hk => ?_, fun u => ?_, fun u v hu hv => ?_⟩
  · rw [List.map_cons, h.count, h.pids]
  · rcases List.mem_cons.1 hk with rfl | hk
    · exact ⟨pos, Nat.le_refl _⟩
    · exact h.range k hk
  · by_cases same : u = task
    · subst same
      simp only [PidSys.goto_self]
      trivial
    · simp only [PidSys.goto_of_ne s _ same]
      have view := h.view u
      have idle := quiet u same
      cases hp : s.pc u <;> simp only [hp, PidPc.View, PidPc.Pending] at view idle ⊢
      · exact view
      · exact view
      · exact (idle trivial).elim
      · exact (idle trivial).elim
  · by_cases same : u = task
    · subst same
      simp only [PidSys.goto_self] at hu
      exact hu.elim
    · simp only [PidSys.goto_of_ne s _ same] at hu
      exact (quiet u same hu).elim

/-- One step that meets the condition. -/
theorem PidInv.step (h : PidInv s c ks) (careful : PidCareful s task) (run : s.advance task = some t) :
    ∃ c ks, PidInv t c ks := by
  have view := h.view task
  unfold PidSys.advance at run
  cases hp : s.pc task with
  | out =>
    simp only [hp] at run
    obtain rfl := Option.some.inj run
    exact ⟨c, ks, h.move (p := .acquire) trivial (fun _ _ hu => hu) fun hf => hf.elim⟩
  | acquire =>
    simp only [hp] at run
    split at run
    · rename_i free
      obtain rfl := Option.some.inj run
      refine ⟨c, ks, h.move (p := .load) rfl (fun u _ hu => ?_) fun hf => hf.elim⟩
      rw [free] at hu
      cases hu
    · cases run
  | load =>
    simp only [hp] at run view
    obtain rfl := Option.some.inj run
    exact ⟨c, ks, h.move (p := .store s.nextPid) ⟨view, rfl⟩ (fun _ _ hu => hu) fun hf => hf.elim⟩
  | store n =>
    simp only [hp] at run view
    obtain rfl := Option.some.inj run
    obtain ⟨held, rfl⟩ := view
    obtain ⟨low, unread⟩ := careful _ hp
    refine ⟨c + 1, ks, h.increment held low fun u same hu => ?_⟩
    have other := h.view u
    cases hq : s.pc u <;> simp only [hq, PidPc.View, PidPc.Pending] at other hu
    · rw [held] at other
      exact same (Option.some.inj other.1).symm
    · exact unread u hq
  | release =>
    simp only [hp] at run view
    obtain rfl := Option.some.inj run
    obtain ⟨held, view⟩ := view
    refine ⟨c, ks, h.move (p := .read) view (fun u same hu => ?_) fun _ u same hu => ?_⟩
    · rw [held] at hu
      exact (same (Option.some.inj hu).symm).elim
    · exact same (h.alone u task hu (by rw [hp]; trivial))
  | read =>
    simp only [hp] at run
    obtain rfl := Option.some.inj run
    exact ⟨c, c :: ks, h.answer hp⟩

/-- In runs in which no thread increments next_pid while the answer of another is unread, nor
past -2, the pids returned are unique. -/
theorem pids_unique (s : PidSys) (h : Reachable (· = pidStart) CarefulPidStep s) : PidsUnique s := by
  have inv : ∃ c ks, PidInv s c ks := by
    apply h.invariant (I := fun s => ∃ c ks, PidInv s c ks)
    · rintro s rfl
      exact ⟨0, [], pidStart_inv⟩
    · rintro s t ⟨c, ks, hs⟩ ⟨task, careful, run⟩
      exact hs.step careful run
  obtain ⟨c, ks, hs⟩ := inv
  exact hs.unique

/-- A step of a thread of ts that meets the condition, when no other threads are in allocate_pid. -/
def carefulAmong (ts : List Nat) (s : PidSys) (task : Nat) : Option PidSys :=
  match s.pc task with
  | .store n => if task ∈ ts ∧ n ≠ -2 ∧ ∀ u ∈ ts, s.pc u ≠ .read then s.advance task else none
  | _ => if task ∈ ts then s.advance task else none

theorem advance_pc (run : s.advance task = some t) {u : Nat} (other : u ≠ task) : t.pc u = s.pc u := by
  unfold PidSys.advance at run
  split at run
  case h_2 =>
    split at run
    · obtain rfl := Option.some.inj run
      exact s.goto_of_ne _ other
    · cases run
  all_goals
    obtain rfl := Option.some.inj run
    exact s.goto_of_ne _ other

theorem carefulAmong_step {ts : List Nat} (others : ∀ u, u ∉ ts → s.pc u = .out) (next : carefulAmong ts s task = some t) :
    CarefulPidStep s t ∧ ∀ u, u ∉ ts → t.pc u = .out := by
  have stays (mem : task ∈ ts) (run : s.advance task = some t) (u : Nat) (out : u ∉ ts) : t.pc u = .out :=
    (advance_pc run fun (same : u = task) => out (same ▸ mem)).trans (others u out)
  unfold carefulAmong at next
  split at next
  · next n here =>
    split at next
    · next ok =>
      refine ⟨⟨task, fun m hm => ⟨?_, fun u => ?_⟩, next⟩, stays ok.1 next⟩
      · obtain rfl := PidPc.store.inj (here.symm.trans hm)
        exact ok.2.1
      · by_cases mem : u ∈ ts
        · exact ok.2.2 u mem
        · rw [others u mem]
          rintro ⟨⟩
    · cases next
  · next no_store =>
    split at next
    · next mem => exact ⟨⟨task, fun n hn => (no_store n hn).elim, next⟩, stays mem next⟩
    · cases next

theorem carefulAmong_run {ts tasks : List Nat} (run : play (carefulAmong ts) tasks pidStart = some t) :
    Reachable (· = pidStart) CarefulPidStep t := by
  refine ((play_trace run).invariant (I := fun s => Reachable (· = pidStart) CarefulPidStep s ∧ ∀ u, u ∉ ts → s.pc u = .out)
    ⟨.start rfl, fun _ _ => rfl⟩ ?_).1
  rintro s task t ⟨reach, others⟩ next
  obtain ⟨step, others⟩ := carefulAmong_step others next
  exact ⟨reach.step step, others⟩

/-- Of two threads the second waits for pid_lock while the first increments next_pid, and takes the lock before the
first has read its answer. -/
theorem pids_unique_two : ∃ s, play (carefulAmong [0, 1]) [0, 0, 1, 0, 0, 0, 1, 1, 0, 1, 1, 1] pidStart = some s ∧
    s.pids = [2, 1] ∧ PidsUnique s := by
  have run : (play (carefulAmong [0, 1]) [0, 0, 1, 0, 0, 0, 1, 1, 0, 1, 1, 1] pidStart).any (fun s => s.pids = [2, 1]) = true := by
    decide
  obtain ⟨s, here, pids⟩ := (Option.any_eq_true _ _).1 run
  exact ⟨s, here, of_decide_eq_true pids, pids_unique s (carefulAmong_run here)⟩

/-- One thread after the other, each with a step. -/
def PidSys.run : PidSys → List Nat → Option PidSys
  | s, [] => some s
  | s, task :: tasks => (s.advance task).bind fun t => t.run tasks

theorem PidSys.run_steps {tasks : List Nat} (h : s.run tasks = some t) :
    Relation.ReflTransGen PidStep s t := by
  induction tasks generalizing s with
  | nil =>
    cases h
    exact .refl
  | cons task tasks ih =>
    obtain ⟨u, first, rest⟩ := Option.bind_eq_some_iff.1 h
    exact .head ⟨task, first⟩ (ih rest)

/-- The six steps of a thread that is alone. -/
theorem PidSys.run_alone (s : PidSys) (task : Nat) (out : s.pc task = .out) (free : s.holder = none) :
    ∃ t, s.run (List.replicate 6 task) = some t ∧ t.nextPid = toPid (s.nextPid + 1) ∧
      t.holder = none ∧ t.pc = s.pc ∧ t.pids = t.nextPid :: s.pids := by
  have restored : Function.update s.pc task .out = s.pc := by
    rw [← out, Function.update_eq_self]
  refine ⟨⟨toPid (s.nextPid + 1), none, s.pc, toPid (s.nextPid + 1) :: s.pids⟩, ?_, rfl, rfl, rfl, rfl⟩
  simp [List.replicate, PidSys.run, PidSys.advance, PidSys.goto, out, free, restored]

theorem PidSys.run_append (s : PidSys) (xs ys : List Nat) :
    s.run (xs ++ ys) = (s.run xs).bind fun t => t.run ys := by
  induction xs generalizing s with
  | nil => rfl
  | cons x xs ih =>
    simp only [List.cons_append, PidSys.run, Option.bind_assoc]
    congr 1
    funext t
    exact ih t

/-- Any number of allocations one after the other. -/
theorem alone_reachable (n : Nat) : ∃ s, Reachable (· = pidStart) PidStep s ∧ s.nextPid = toPid n ∧
    s.holder = none ∧ s.pc = (fun _ => .out) ∧ (0 < n → toPid n ∈ s.pids) := by
  induction n with
  | zero => exact ⟨pidStart, .start rfl, rfl, rfl, rfl, fun h => absurd h (Nat.lt_irrefl 0)⟩
  | succ n ih =>
    obtain ⟨s, reach, next, free, out, -⟩ := ih
    obtain ⟨t, run, next', free', out', pids⟩ := s.run_alone 0 (congrFun out 0) free
    have value : t.nextPid = toPid (n + 1 : Nat) := by
      rw [next', next, toPid_succ, Nat.cast_succ]
    refine ⟨t, reach.trans (PidSys.run_steps run), value, free', out'.trans out, fun _ => ?_⟩
    rw [pids, value]
    exact List.mem_cons_self

/-- Two threads get the pid 2 when the second increments next_pid before the first has read
its answer; and after 65535 allocations one after the other the pid -1 is given out. -/
theorem pids_not_unique :
    (∃ s, Reachable (· = pidStart) PidStep s ∧ s.pids = [2, 2]) ∧
      ∃ s, Reachable (· = pidStart) PidStep s ∧ -1 ∈ s.pids := by
  constructor
  · have run : (pidStart.run [0, 0, 0, 0, 0, 1, 1, 1, 1, 1, 0, 1]).map PidSys.pids = some [2, 2] := by decide
    obtain ⟨s, hs, pids⟩ := Option.map_eq_some_iff.1 run
    have start : Reachable (· = pidStart) PidStep pidStart := .start rfl
    exact ⟨s, start.trans (PidSys.run_steps hs), pids⟩
  · obtain ⟨s, reach, -, -, -, pids⟩ := alone_reachable 65535
    refine ⟨s, reach, ?_⟩
    have value : toPid (65535 : Nat) = -1 := by
      rw [toPid_nat (Nat.le_refl _), if_neg (by decide)]
      norm_num
    rw [← value]
    exact pids (by decide)

end Zhenxiang.Thread
