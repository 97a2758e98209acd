import Zhenxiang.Device.Console

/-! What the threads print comes out call by call, whatever the interleaving. -/
namespace Zhenxiang.Device
open Lib Kernel Thread

/-- Where a thread is in a lock_acquire that takes the lock. -/
def Entering : Pc → Prop
  | .down | .retest _ | .setHolder | .checkNr | .setNr => True
  | _ => False

/-- Where a thread is in a lock_release that gives the lock up. -/
def Leaving : Pc → Prop
  | .testNr | .checkOne | .clearHolder | .clearNr | .up => True
  | _ => False

/-- The call concerns no thread but me. -/
structure OnlyMoves (s t : LockSys) (me : Nat) : Prop where
  threads : t.sched.threads = s.sched.threads
  idle : t.sched.idleThread = s.sched.idleThread
  pc : ∀ x, x ≠ me → t.pc x = s.pc x
  depth : ∀ x, x ≠ me → t.depth x = s.depth x

section Locks
variable {s : LockSys}

theorem onlyMoves_goto (me : Nat) (p : Pc) : OnlyMoves s (s.goto me p) me :=
  ⟨rfl, rfl, fun _ other => Function.update_of_ne other _ _, fun _ _ => rfl⟩

theorem goto_pc (me : Nat) (p : Pc) : (s.goto me p).pc me = p := Function.update_self ..

/-- What a step of lock_acquire leaves of a thread inside it. -/
def Entered (s t : LockSys) (me : Nat) : Prop :=
  OnlyMoves s t me ∧ (Entering (t.pc me) ∧ t.depth me = s.depth me ∨ t.pc me = .out ∧ t.depth me = s.depth me + 1)

theorem semaDownTurn_moves (h : LockInv s) (old : IntrStatus) :
    Returns (semaDownTurn old) (fun _ t => Entered s t s.sched.current)
      { s with sched := { s.sched with intr := .off } } := by
  have off : Inv { s.sched with intr := .off } :=
    h.sched.congr rfl rfl rfl rfl rfl rfl (fun _ => rfl) fun _ => rfl
  simp only [semaDownTurn, runningThread, intrSetStatus, Returns, wp_bind, wp_get, wp_pure, wp_ite, wp_assert, wp_modify,
    wp_onSched]
  refine ⟨fun _ => ⟨fun _ => ?_, fun _ => trivial⟩, fun _ => ⟨fun _ => ?_, fun _ => trivial⟩⟩
  · refine wp_mono (threadBlock_spec off (by decide)) ?_ fun _ no => no.elim
    rintro - t ⟨-, frame, -⟩
    refine ⟨⟨frame.threads, frame.idle, fun x other => Function.update_of_ne other _ _, fun _ _ => rfl⟩, .inl ⟨?_, rfl⟩⟩
    rw [goto_pc]
    trivial
  · refine ⟨⟨rfl, rfl, fun x other => Function.update_of_ne other _ _, fun _ _ => rfl⟩, .inl ⟨?_, rfl⟩⟩
    rw [goto_pc]
    trivial

/-- A step inside lock_acquire. -/
theorem advance_entering (h : LockInv s) (at_pc : Entering (s.pc s.sched.current)) :
    Succeeds advance (fun _ t => LockInv t ∧ Entered s t s.sched.current) s := by
  have inside : s.pc s.sched.current ≠ .out := by
    intro out
    rw [out] at at_pc
    exact at_pc
  refine (advance_spec h inside).and_returns ?_
  simp only [advance, runningThread, Returns, wp_bind, wp_get, wp_pure]
  cases hp : s.pc s.sched.current with
  | down =>
    simp only [semaDown, intrDisable, wp_bind, wp_onSched, wp_get, wp_set, wp_pure]
    exact semaDownTurn_moves h _
  | retest old =>
    have off : s.sched.intr = .off := h.intr.2 ⟨old, hp⟩
    have moves := semaDownTurn_moves h old
    rw [← off] at moves
    exact moves
  | setHolder =>
    simp only [wp_bind, wp_modify]
    refine ⟨⟨rfl, rfl, fun x other => Function.update_of_ne other _ _, fun _ _ => rfl⟩, .inl ⟨?_, rfl⟩⟩
    rw [goto_pc]
    trivial
  | checkNr =>
    simp only [wp_bind, wp_get, wp_assert, wp_modify]
    refine ⟨fun _ => ⟨onlyMoves_goto _ _, .inl ⟨?_, rfl⟩⟩, fun _ => trivial⟩
    rw [goto_pc]
    trivial
  | setNr =>
    simp only [wp_bind, wp_modify]
    exact ⟨⟨rfl, rfl, fun x other => Function.update_of_ne other _ _, fun x other => Function.update_of_ne other _ _⟩,
      .inr ⟨Function.update_self .., Function.update_self ..⟩⟩
  | out | incr | incrStore n | testNr | decr | decrStore n | checkOne | clearHolder | clearNr | up =>
    rw [hp] at at_pc
    exact at_pc.elim

/-- What a step of lock_release leaves of a thread inside it. -/
def Left (s t : LockSys) (me : Nat) : Prop :=
  OnlyMoves s t me ∧ (Leaving (t.pc me) ∧ t.depth me = s.depth me ∨ t.pc me = .out ∧ t.depth me = s.depth me - 1)

theorem semaUp_moves (h : LockInv s) :
    Returns semaUp (fun _ t => t.pc = s.pc ∧ t.depth = s.depth ∧ t.sched.threads = s.sched.threads ∧
      t.sched.idleThread = s.sched.idleThread) s := by
  simp only [semaUp, intrDisable, intrSetStatus, Returns, wp_bind, wp_get, wp_set, wp_pure, wp_assert, wp_modify, wp_onSched]
  refine ⟨fun _ => ?_, fun _ => trivial⟩
  cases hw : s.lock.waiters with
  | nil =>
    rw [wakeWaiter_nil (by exact hw)]
    exact ⟨fun _ => ⟨rfl, rfl, rfl, rfl⟩, fun _ => trivial⟩
  | cons w rest =>
    obtain ⟨-, -, asleep⟩ := (h.queue w).1 (hw ▸ List.mem_cons_self)
    have hout : w ∉ s.sched.threadReadyList := by
      intro ready
      rw [((h.sched.ready_iff w).1 ready).2] at asleep
      rcases asleep with no | no | no <;> cases no
    rw [wakeWaiter_cons (by exact hw) (by exact asleep) (by exact hout)]
    exact ⟨fun _ => ⟨rfl, rfl, rfl, rfl⟩, fun _ => trivial⟩

/-- A step inside lock_release. -/
theorem advance_leaving (h : LockInv s) (at_pc : Leaving (s.pc s.sched.current)) (once : s.depth s.sched.current = 1) :
    Succeeds advance (fun _ t => LockInv t ∧ Left s t s.sched.current) s := by
  have inside : s.pc s.sched.current ≠ .out := by
    intro out
    rw [out] at at_pc
    exact at_pc
  refine (advance_spec h inside).and_returns ?_
  simp only [advance, runningThread, Returns, wp_bind, wp_get, wp_pure]
  have goes (p : Pc) (there : Leaving p) : Left s (s.goto s.sched.current p) s.sched.current := by
    refine ⟨onlyMoves_goto _ _, .inl ⟨?_, rfl⟩⟩
    rwa [goto_pc]
  have stores (f : Lock → Lock) (p : Pc) (there : Leaving p) :
      Left s ((s.onLock f).goto s.sched.current p) s.sched.current := by
    refine ⟨⟨rfl, rfl, fun x other => Function.update_of_ne other _ _, fun _ _ => rfl⟩, .inl ⟨?_, rfl⟩⟩
    rwa [goto_pc]
  cases hp : s.pc s.sched.current with
  | testNr =>
    have one : ¬ s.lock.holderRepeatNr > 1 := by
      obtain ⟨-, -, nr⟩ := h.view_at hp id
      rw [once] at nr
      intro more
      have := UInt32.lt_iff_toNat_lt.1 more
      rw [nr] at this
      exact Nat.lt_irrefl 1 this
    simp only [wp_bind, wp_get, wp_ite, wp_modify]
    exact ⟨fun more => (one more).elim, fun _ => goes .checkOne trivial⟩
  | checkOne =>
    simp only [wp_bind, wp_get, wp_assert, wp_modify]
    exact ⟨fun _ => goes .clearHolder trivial, fun _ => trivial⟩
  | clearHolder =>
    simp only [wp_bind, wp_modify]
    exact stores _ .clearNr trivial
  | clearNr =>
    simp only [wp_bind, wp_modify]
    exact stores _ .up trivial
  | up =>
    simp only [wp_bind, wp_modify]
    refine wp_post (semaUp_moves h) ?_
    rintro - t ⟨pc, depth, threads, idle⟩
    refine ⟨⟨threads, idle, fun x other => ?_, fun x other => ?_⟩, .inr ⟨Function.update_self .., ?_⟩⟩
    · exact (Function.update_of_ne other _ _).trans (congrFun pc x)
    · exact (Function.update_of_ne other _ _).trans (congrFun depth x)
    · exact (Function.update_self ..).trans (by rw [depth])
  | out | down | retest old | setHolder | checkNr | setNr | incr | incrStore n | decr | decrStore n =>
    rw [hp] at at_pc
    exact at_pc.elim

end Locks

/-! The invariant of the console. -/

/-- Where a thread is in console.c against where it is in the lock, and how deep. -/
def AgreesAt : ConsoleAt → Pc → Nat → Prop
  | .out, p, d => p = .out ∧ d = 0
  | .acquiring _, p, d => Entering p ∧ d = 0 ∨ p = .out ∧ d = 1
  | .printing _, p, d => p = .out ∧ d = 1
  | .releasing, p, d => Leaving p ∧ d = 1 ∨ p = .out ∧ d = 0

def Printing : ConsoleAt → Prop
  | .printing _ => True
  | _ => False

/-- The characters of the calls that got the lock, one call behind the other. -/
def ConsoleSys.text (s : ConsoleSys) : List UInt8 := s.said.flatMap fun call => call.2.chars

/-- What has been printed is the text up to what the printing thread has left. -/
structure Whole (s : ConsoleSys) : Prop where
  during : ∀ t left, s.at_ t = .printing left → s.written ++ left = s.text
  between : (∀ t, ¬ Printing (s.at_ t)) → s.written = s.text
  last : ∀ t left, s.at_ t = .printing left → ∃ before call, s.said = before ++ [(t, call)] ∧ left <:+ call.chars

structure ConsoleInv (screen : Screen) (s : ConsoleSys) : Prop where
  locks : LockInv s.locks
  agrees : ∀ t, AgreesAt (s.at_ t) (s.locks.pc t) (s.locks.depth t)
  member : ∀ t, s.at_ t ≠ .out → t ∈ s.locks.sched.threads
  shows : Shows s.display (Console.play screen s.written)
  whole : Whole s

section Output
variable {screen : Screen} {s : ConsoleSys}

theorem ConsoleStart.inv (start : ConsoleStart screen s) : ConsoleInv screen s where
  locks := start.locks.inv
  agrees t := by
    rw [start.at_, start.locks.pc, start.locks.depth]
    exact ⟨rfl, rfl⟩
  member t inside := (inside (start.at_ t)).elim
  shows := by
    rw [start.written]
    exact start.shows
  whole := by
    constructor
    · intro t left printing
      cases (start.at_ t).symm.trans printing
    · intro _
      rw [start.written, ConsoleSys.text, start.said]
      rfl
    · intro t left printing
      cases (start.at_ t).symm.trans printing

/-- A thread that is one deep is the only one. -/
theorem ConsoleInv.alone (h : ConsoleInv screen s) {t u : Nat} (mem : t ∈ s.locks.sched.threads)
    (deep : s.locks.depth t = 1) (printing : Printing (s.at_ u)) : u = t := by
  have agrees := h.agrees u
  have inside : s.at_ u ≠ .out := by
    intro out
    rw [out] at printing
    exact printing
  refine (h.locks.holds mem (by omega)).2.2 u (h.member u inside) ?_
  cases at_u : s.at_ u with
  | printing left =>
    rw [at_u] at agrees
    have deep := agrees.2
    omega
  | out | acquiring call | releasing =>
    rw [at_u] at printing
    exact printing.elim

/-- The running thread moves in the lock, and not to or from printing. -/
theorem ConsoleInv.moves (h : ConsoleInv screen s) {l : LockSys} {p : ConsoleAt} (inv : LockInv l)
    (moves : OnlyMoves s.locks l s.me) (agrees : AgreesAt p (l.pc s.me) (l.depth s.me)) (was : ¬ Printing (s.at_ s.me))
    (is : ¬ Printing p) : ConsoleInv screen { s.goto s.me p with locks := l } := by
  have here : Function.update s.at_ s.me p s.me = p := Function.update_self ..
  have there (t : Nat) (other : t ≠ s.me) : Function.update s.at_ s.me p t = s.at_ t := Function.update_of_ne other _ _
  have same (t : Nat) : Printing (Function.update s.at_ s.me p t) ↔ Printing (s.at_ t) := by
    by_cases mine : t = s.me
    · rw [mine, here]
      exact iff_of_false is was
    · rw [there t mine]
  have printing (t : Nat) (left : List UInt8) (at_t : Function.update s.at_ s.me p t = .printing left) :
      s.at_ t = .printing left := by
    by_cases mine : t = s.me
    · rw [mine, here] at at_t
      rw [at_t] at is
      exact (is trivial).elim
    · rwa [there t mine] at at_t
  constructor
  · exact inv
  · intro t
    show AgreesAt (Function.update s.at_ s.me p t) _ _
    by_cases mine : t = s.me
    · rw [mine, here]
      exact agrees
    · rw [there t mine, moves.pc t mine, moves.depth t mine]
      exact h.agrees t
  · intro t inside
    show t ∈ l.sched.threads
    rw [moves.threads]
    by_cases mine : t = s.me
    · rw [mine]
      exact h.locks.sched.current_mem
    · refine h.member t ?_
      rw [← there t mine]
      exact inside
  · exact h.shows
  · constructor
    · intro t left at_t
      exact h.whole.during t left (printing t left at_t)
    · intro nobody
      exact h.whole.between fun t => fun now => nobody t ((same t).2 now)
    · intro t left at_t
      exact h.whole.last t left (printing t left at_t)

/-- The scheduler moves, and no thread in the lock. -/
theorem ConsoleInv.scheduled (h : ConsoleInv screen s) {u : Sched} (inv : LockInv { s.locks with sched := u })
    (threads : u.threads = s.locks.sched.threads) : ConsoleInv screen { s with locks := { s.locks with sched := u } } where
  locks := inv
  agrees := h.agrees
  member t inside := by
    show t ∈ u.threads
    rw [threads]
    exact h.member t inside
  shows := h.shows
  whole := ⟨h.whole.during, h.whole.between, h.whole.last⟩

theorem wp_onLocks {α : Type} {c : Kern LockSys α} {Q : α → ConsoleSys → Prop} {E : Fault → Prop} :
    wp (onLocks c) Q E s ↔ wp c (fun a t => Q a { s with locks := t }) E s.locks := wp_zoom

theorem wp_onDisplay {α : Type} {c : Kern Console α} {Q : α → ConsoleSys → Prop} {E : Fault → Prop} :
    wp (onDisplay c) Q E s ↔ wp c (fun a t => Q a { s with display := t }) E s.display := wp_zoom

theorem consoleEnter_spec (h : ConsoleInv screen s) (call : ConsoleCall) (busy : s.me ≠ s.locks.sched.idleThread)
    (out : s.at_ s.me = .out) : Succeeds (consoleEnter call) (fun _ t => ConsoleInv screen t) s := by
  have agrees := h.agrees s.me
  rw [out] at agrees
  obtain ⟨pc, depth⟩ := agrees
  have first : s.locks.depth s.locks.sched.current = 0 := depth
  have calls : Returns lockAcquire (fun _ t => t = s.locks.goto s.me .down ∨ t = s.locks.goto s.me .incr) s.locks := by
    simp only [lockAcquire, runningThread, Returns, wp_bind, wp_get, wp_pure, wp_ite, wp_modify]
    exact ⟨fun _ => .inl rfl, fun _ => .inr rfl⟩
  rw [consoleEnter, Succeeds, wp_bind, wp_modify, wp_onLocks]
  refine wp_post ((lockAcquire_spec h.locks busy pc (by rw [first]; decide)).and_returns calls) ?_
  rintro - t ⟨inv, rfl | rfl⟩
  · refine h.moves inv (onlyMoves_goto _ _) (.inl ⟨?_, depth⟩) (by rw [out]; exact id) id
    rw [goto_pc]
    trivial
  · -- only a holder goes on to count
    have view := inv.view_at (goto_pc _ _) id
    exact absurd view.1 (by
      show ¬ 0 < s.locks.depth s.me
      omega)

theorem ConsoleInv.begins (h : ConsoleInv screen s) {call : ConsoleCall} (at_me : s.at_ s.me = .acquiring call)
    (pc : s.locks.pc s.me = .out) : ConsoleInv screen { s.goto s.me (.printing call.chars) with said := s.said ++ [(s.me, call)] } := by
  have agrees := h.agrees s.me
  have mem : s.me ∈ s.locks.sched.threads := h.locks.sched.current_mem
  rw [at_me] at agrees
  have deep : s.locks.depth s.me = 1 := by
    rcases agrees with ⟨inside, -⟩ | ⟨-, deep⟩
    · rw [pc] at inside
      exact inside.elim
    · exact deep
  have nobody (t : Nat) : ¬ Printing (s.at_ t) := by
    intro printing
    obtain rfl := h.alone mem deep printing
    rw [at_me] at printing
    exact printing
  have here : Function.update s.at_ s.me (.printing call.chars) s.me = .printing call.chars := Function.update_self ..
  have there (t : Nat) (other : t ≠ s.me) : Function.update s.at_ s.me (.printing call.chars) t = s.at_ t :=
    Function.update_of_ne other _ _
  have sole (t : Nat) (left : List UInt8) (at_t : Function.update s.at_ s.me (.printing call.chars) t = .printing left) :
      t = s.me ∧ left = call.chars := by
    by_cases mine : t = s.me
    · rw [mine, here] at at_t
      cases at_t
      exact ⟨mine, rfl⟩
    · rw [there t mine] at at_t
      refine (nobody t ?_).elim
      rw [at_t]
      trivial
  constructor
  · exact h.locks
  · intro t
    show AgreesAt (Function.update s.at_ s.me _ t) _ _
    by_cases mine : t = s.me
    · rw [mine, here]
      exact ⟨pc, deep⟩
    · rw [there t mine]
      exact h.agrees t
  · intro t inside
    by_cases mine : t = s.me
    · rw [mine]
      exact mem
    · refine h.member t ?_
      rw [← there t mine]
      exact inside
  · exact h.shows
  · constructor
    · intro t left at_t
      obtain ⟨-, rfl⟩ := sole t left at_t
      show s.written ++ _ = (s.said ++ [(s.me, call)]).flatMap _
      rw [List.flatMap_append, h.whole.between nobody]
      exact congrArg _ (List.append_nil _).symm
    · intro none
      refine (none s.me ?_).elim
      show Printing (Function.update s.at_ s.me _ s.me)
      rw [here]
      trivial
    · intro t left at_t
      obtain ⟨rfl, rfl⟩ := sole t left at_t
      exact ⟨s.said, call, rfl, List.suffix_refl _⟩

/-- put_char shows the character, or it is a backspace on the first cell. -/
theorem wp_putChar {d : Console} {t : Screen} (shows : Shows d t) (c : UInt8) :
    wp (Kernel.putChar c) (fun _ u => Shows u (t.step blankCell (inputOf c))) (fun _ => c = 0x8 ∧ d.cursor = 0) d := by
  by_cases under : c = 0x8 ∧ d.cursor = 0
  · obtain ⟨rfl, first⟩ := under
    cases run : Kernel.putChar 0x8 d with
    | error e => exact (wp_of_error run).2 ⟨rfl, first⟩
    | ok r => exact (putChar_underrun first ((wp_of_ok (Q := fun _ _ => True) run).2 trivial)).elim
  · refine wp_mono (putChar_shows shows fun back first => under ⟨back, shows.cursor.trans first⟩) ?_ fun _ no => no.elim
    rintro _ u ⟨-, shows'⟩
    exact shows'

theorem ConsoleInv.prints (h : ConsoleInv screen s) {c : UInt8} {left : List UInt8} {d : Console}
    (at_me : s.at_ s.me = .printing (c :: left)) (shows : Shows d ((Console.play screen s.written).step blankCell (inputOf c))) :
    ConsoleInv screen { s.goto s.me (.printing left) with display := d, written := s.written ++ [c] } := by
  have agrees := h.agrees s.me
  have mem : s.me ∈ s.locks.sched.threads := h.locks.sched.current_mem
  rw [at_me] at agrees
  have here : Function.update s.at_ s.me (.printing left) s.me = .printing left := Function.update_self ..
  have there (t : Nat) (other : t ≠ s.me) : Function.update s.at_ s.me (.printing left) t = s.at_ t :=
    Function.update_of_ne other _ _
  have sole (t : Nat) (more : List UInt8) (at_t : Function.update s.at_ s.me (.printing left) t = .printing more) :
      t = s.me ∧ more = left := by
    by_cases mine : t = s.me
    · rw [mine, here] at at_t
      cases at_t
      exact ⟨mine, rfl⟩
    · rw [there t mine] at at_t
      refine (mine (h.alone mem agrees.2 ?_)).elim
      rw [at_t]
      trivial
  constructor
  · exact h.locks
  · intro t
    show AgreesAt (Function.update s.at_ s.me _ t) _ _
    by_cases mine : t = s.me
    · rw [mine, here]
      exact agrees
    · rw [there t mine]
      exact h.agrees t
  · intro t inside
    by_cases mine : t = s.me
    · rw [mine]
      exact h.locks.sched.current_mem
    · refine h.member t ?_
      rw [← there t mine]
      exact inside
  · show Shows d (Console.play screen (s.written ++ [c]))
    rw [Console.play, List.foldl_append]
    exact shows
  · constructor
    · intro t more at_t
      obtain ⟨-, rfl⟩ := sole t more at_t
      show (s.written ++ [c]) ++ _ = s.text
      rw [List.append_assoc]
      exact h.whole.during _ _ at_me
    · intro none
      refine (none s.me ?_).elim
      show Printing (Function.update s.at_ s.me _ s.me)
      rw [here]
      trivial
    · intro t more at_t
      obtain ⟨rfl, rfl⟩ := sole t more at_t
      obtain ⟨before, call, said, suffix⟩ := h.whole.last _ _ at_me
      exact ⟨before, call, said, (List.suffix_cons c _).trans suffix⟩

theorem consoleLeave_spec (h : ConsoleInv screen s) (at_me : s.at_ s.me = .printing []) :
    Succeeds consoleLeave (fun _ t => ConsoleInv screen t) s := by
  have agrees := h.agrees s.me
  rw [at_me] at agrees
  obtain ⟨pc, deep⟩ := agrees
  have mem : s.me ∈ s.locks.sched.threads := h.locks.sched.current_mem
  have calls : Returns lockRelease (fun _ t => t = s.locks.goto s.me .testNr) s.locks := by
    simp only [lockRelease, runningThread, Returns, wp_bind, wp_get, wp_pure, wp_assert, wp_modify]
    exact ⟨fun _ => rfl, fun _ => trivial⟩
  have pos : 0 < s.locks.depth s.locks.sched.current := Nat.lt_of_lt_of_eq Nat.one_pos deep.symm
  rw [consoleLeave, Succeeds, wp_bind, wp_modify, wp_onLocks]
  refine wp_post ((lockRelease_spec h.locks pc pos).and_returns calls) ?_
  rintro - t ⟨inv, rfl⟩
  have here : Function.update s.at_ s.me .releasing s.me = .releasing := Function.update_self ..
  have there (t : Nat) (other : t ≠ s.me) : Function.update s.at_ s.me .releasing t = s.at_ t :=
    Function.update_of_ne other _ _
  have nobody (t : Nat) : ¬ Printing (Function.update s.at_ s.me .releasing t) := by
    intro printing
    by_cases mine : t = s.me
    · rw [mine, here] at printing
      exact printing
    · rw [there t mine] at printing
      exact mine (h.alone mem deep printing)
  have none (t : Nat) (left : List UInt8) : Function.update s.at_ s.me .releasing t ≠ .printing left := by
    intro printing
    refine nobody t ?_
    rw [printing]
    trivial
  constructor
  · exact inv
  · intro t
    show AgreesAt (Function.update s.at_ s.me .releasing t) _ _
    by_cases mine : t = s.me
    · rw [mine, here]
      refine .inl ⟨?_, deep⟩
      rw [goto_pc]
      trivial
    · rw [there t mine, (onlyMoves_goto s.me .testNr).pc t mine]
      exact h.agrees t
  · intro t inside
    by_cases mine : t = s.me
    · rw [mine]
      exact mem
    · refine h.member t ?_
      rw [← there t mine]
      exact inside
  · exact h.shows
  · constructor
    · intro t left printing
      exact (none t left printing).elim
    · intro _
      exact (List.append_nil _).symm.trans (h.whole.during _ _ at_me)
    · intro t left printing
      exact (none t left printing).elim

/-- The one step that can fail: put_char of a backspace with the cursor on the first cell. -/
def Underrun (s : ConsoleSys) (e : ConsoleEvent) : Prop :=
  e = .advance ∧ (∃ left, s.at_ s.me = .printing (0x8 :: left)) ∧ s.display.cursor = 0

theorem consoleAdvance_spec (h : ConsoleInv screen s) (inside : s.at_ s.me ≠ .out) :
    wp consoleAdvance (fun _ t => ConsoleInv screen t) (fun _ => Underrun s .advance) s := by
  have agrees := h.agrees s.me
  have stays (p : ConsoleAt) (at_me : s.at_ s.me = p) : s.goto s.me p = s := by
    subst at_me
    rw [ConsoleSys.goto, Function.update_eq_self]
  rw [consoleAdvance, wp_bind, wp_get]
  cases at_me : s.at_ s.me with
  | out => exact (inside at_me).elim
  | acquiring call =>
    rw [at_me] at agrees
    dsimp only
    rw [wp_ite]
    refine ⟨fun out => ?_, fun within => ?_⟩
    · rw [consoleBegin, wp_modify]
      exact h.begins at_me out
    · obtain ⟨entering, zero⟩ := agrees.resolve_right fun out => within out.1
      rw [wp_onLocks]
      refine wp_mono (advance_entering h.locks entering) ?_ fun _ no => no.elim
      rintro - t ⟨inv, moves, goes⟩
      have next := h.moves (p := .acquiring call) inv moves ?_ (by rw [at_me]; exact id) id
      · rwa [stays _ at_me] at next
      · rcases goes with ⟨entering', depth⟩ | ⟨out, depth⟩
        · exact .inl ⟨entering', depth.trans zero⟩
        · exact .inr ⟨out, depth.trans (congrArg (· + 1) zero)⟩
  | printing left =>
    cases left with
    | nil => exact wp_mono (consoleLeave_spec h at_me) (fun _ _ inv => inv) fun _ no => no.elim
    | cons c left =>
      show wp (consolePut c left) _ _ s
      rw [consolePut, wp_bind, wp_onDisplay]
      refine wp_mono (wp_putChar h.shows c) ?_ ?_
      · rintro - d shows
        rw [wp_modify]
        exact h.prints at_me shows
      · rintro f ⟨rfl, first⟩
        exact ⟨rfl, ⟨left, at_me⟩, first⟩
  | releasing =>
    rw [at_me] at agrees
    dsimp only
    rw [wp_ite]
    refine ⟨fun out => ?_, fun within => ?_⟩
    · rw [wp_modify]
      have zero : s.locks.depth s.me = 0 := by
        rcases agrees with ⟨leaving, -⟩ | ⟨-, zero⟩
        · rw [out] at leaving
          exact leaving.elim
        · exact zero
      exact h.moves (p := .out) h.locks ⟨rfl, rfl, fun _ _ => rfl, fun _ _ => rfl⟩ ⟨out, zero⟩ (by rw [at_me]; exact id) id
    · obtain ⟨leaving, once⟩ := agrees.resolve_right fun out => within out.1
      rw [wp_onLocks]
      refine wp_mono (advance_leaving h.locks leaving once) ?_ fun _ no => no.elim
      rintro - t ⟨inv, moves, goes⟩
      have next := h.moves (p := .releasing) inv moves ?_ (by rw [at_me]; exact id) id
      · rwa [stays _ at_me] at next
      · rcases goes with ⟨leaving', depth⟩ | ⟨out, depth⟩
        · exact .inl ⟨leaving', depth.trans once⟩
        · exact .inr ⟨out, depth.trans (congrArg (· - 1) once)⟩

theorem consolePerform_spec (h : ConsoleInv screen s) {e : ConsoleEvent} (allowed : ConsoleAllowed s e) :
    wp (consolePerform e) (fun _ t => ConsoleInv screen t) (fun _ => Underrun s e) s := by
  have scheduled {l : LockEvent} {c : Kern Sched Unit} (is : lockPerform l = onSched c) (allowed : LockAllowed s.locks l)
      (shallow : Shallow s.locks l) (threads : Returns c (fun _ u => u.threads = s.locks.sched.threads) s.locks.sched) :
      Succeeds (onLocks (lockPerform l)) (fun _ t => ConsoleInv screen t) s := by
    have spec := lockPerform_spec h.locks allowed shallow
    rw [is, Succeeds, wp_onSched] at spec
    rw [Succeeds, wp_onLocks, is, wp_onSched]
    refine wp_post (Succeeds.and_returns spec threads) ?_
    rintro - u ⟨inv, same⟩
    exact h.scheduled inv same
  cases e with
  | preempt =>
    refine wp_mono (scheduled rfl allowed (by rintro ⟨⟩) ?_) (fun _ _ inv => inv) fun _ no => no.elim
    exact wp_mono (preempt_spec h.locks.sched) (fun _ _ post => post.2.1) fun _ no => no.elim
  | idle =>
    refine wp_mono (scheduled rfl allowed (by rintro ⟨⟩) ?_) (fun _ _ inv => inv) fun _ no => no.elim
    exact wp_mono (threadBlock_spec h.locks.sched (by decide)) (fun _ _ post => post.2.1.threads) fun _ no => no.elim
  | call c => exact wp_mono (consoleEnter_spec h c allowed.1 allowed.2) (fun _ _ inv => inv) fun _ no => no.elim
  | advance => exact consoleAdvance_spec h allowed

theorem reachable_consoleInv (run : Reachable (ConsoleStart screen) ConsoleStep s) : ConsoleInv screen s := by
  refine run.invariant (fun _ start => start.inv) ?_
  rintro s t inv ⟨e, allowed, step⟩
  exact (wp_of_ok step).1 (consolePerform_spec inv allowed)

/-- In every state reached the screen shows, from the start, the calls that got the lock one behind the
other; only the last of them can be unfinished, and its thread is the only one that prints. No
step fails but a backspace with the cursor on the first cell. -/
theorem console_calls_whole (run : Reachable (ConsoleStart screen) ConsoleStep s) :
    (∃ left, s.written ++ left = s.text ∧ Shows s.display (Console.play screen s.written) ∧
      (left ≠ [] → ∃ t before call, s.said = before ++ [(t, call)] ∧ s.at_ t = .printing left ∧ left <:+ call.chars)) ∧
    (∀ t u, Printing (s.at_ t) → Printing (s.at_ u) → t = u) ∧
    ∀ e, ConsoleAllowed s e → (∃ t, consolePerform e s = .ok ((), t)) ∨ Underrun s e := by
  have inv := reachable_consoleInv run
  refine ⟨?_, ?_, ?_⟩
  · by_cases nobody : ∀ t, ¬ Printing (s.at_ t)
    · exact ⟨[], (List.append_nil _).trans (inv.whole.between nobody), inv.shows, fun some => (some rfl).elim⟩
    · push Not at nobody
      obtain ⟨t, printing⟩ := nobody
      cases at_t : s.at_ t with
      | printing left =>
        obtain ⟨before, call, said, suffix⟩ := inv.whole.last t left at_t
        exact ⟨left, inv.whole.during t left at_t, inv.shows, fun _ => ⟨t, before, call, said, at_t, suffix⟩⟩
      | out | acquiring call | releasing =>
        rw [at_t] at printing
        exact printing.elim
  · intro t u printing printing'
    have agrees := inv.agrees u
    have mem := inv.member u
    cases at_u : s.at_ u with
    | printing left =>
      rw [at_u] at agrees mem
      exact inv.alone (mem (by rintro ⟨⟩)) agrees.2 printing
    | out | acquiring call | releasing =>
      rw [at_u] at printing'
      exact printing'.elim
  · intro e allowed
    have spec := consolePerform_spec inv allowed
    cases run : consolePerform e s with
    | ok r => exact .inl ⟨r.2, rfl⟩
    | error f => exact .inr ((wp_of_error run).1 spec)

end Output

/-! Two threads on a clear screen, beside the idle thread. -/

def crewConsole : ConsoleSys := ⟨crewStart [2, 1], clearConsole, fun _ => .out, [], []⟩

theorem crewConsole_start : ConsoleStart (clearConsole.screen (by decide)) crewConsole :=
  ⟨crewStart_start (by decide) (by decide) (by decide), fun _ => rfl, ⟨rfl, fun _ => rfl⟩, rfl, rfl⟩

instance (s : ConsoleSys) (e : ConsoleEvent) : Decidable (ConsoleAllowed s e) :=
  match e with
  | .preempt => inferInstanceAs (Decidable (_ = _))
  | .idle => inferInstanceAs (Decidable (_ = _))
  | .call _ => inferInstanceAs (Decidable (_ ≠ _ ∧ _ = _))
  | .advance => inferInstanceAs (Decidable (_ ≠ _))

def consoleRun : List ConsoleEvent → ConsoleSys → Option ConsoleSys := play (stepOf consolePerform ConsoleAllowed)

theorem consoleRun_reachable {screen : Screen} {s t : ConsoleSys} {es : List ConsoleEvent}
    (h : Reachable (ConsoleStart screen) ConsoleStep s) (run : consoleRun es s = some t) :
    Reachable (ConsoleStart screen) ConsoleStep t := by
  refine (play_trace run).reachable h fun s e t next => ?_
  obtain ⟨allowed, _, step⟩ := stepOf_some next
  exact ⟨e, allowed, step⟩

/-- The main thread has printed one of two letters when the other thread, which prints as well, finds the lock taken. -/
def firstPrints : List ConsoleEvent :=
  .call (.putStr [0x68, 0x69]) :: List.replicate 6 .advance ++
    [.preempt, .call (.putStr [0x79, 0x6f]), .advance, .idle]

/-- It goes on to the end of its call, and the other one prints its first letter. -/
def secondPrints : List ConsoleEvent := List.replicate 8 .advance ++ .preempt :: List.replicate 6 .advance

theorem console_calls_whole_two : ∃ s t, consoleRun firstPrints crewConsole = some s ∧ consoleRun secondPrints s = some t ∧
    (s.written = [0x68] ∧ s.at_ 0 = .printing [0x69] ∧ s.at_ 2 = .acquiring (.putStr [0x79, 0x6f]) ∧ s.locks.lock.waiters = [2] ∧
      Shows s.display (Console.play (clearConsole.screen (by decide)) s.written) ∧
      (∃ u, consolePerform .advance s = .ok ((), u))) ∧
    t.written = [0x68, 0x69, 0x79] ∧ t.said = [(0, .putStr [0x68, 0x69]), (2, .putStr [0x79, 0x6f])] ∧
      Shows t.display (Console.play (clearConsole.screen (by decide)) t.written) ∧
      (∃ x before call, t.said = before ++ [(x, call)] ∧ t.at_ x = .printing [0x6f] ∧ [0x6f] <:+ call.chars) ∧
      ∀ x, Printing (t.at_ x) → x = 2 := by
  have runs : (consoleRun firstPrints crewConsole).any (fun s => s.written = [0x68] ∧ s.at_ 0 = .printing [0x69] ∧
      s.at_ 2 = .acquiring (.putStr [0x79, 0x6f]) ∧ s.locks.lock.waiters = [2] ∧ s.me = 0 ∧
      (consoleRun secondPrints s).any (fun t => t.written = [0x68, 0x69, 0x79] ∧ t.at_ 2 = .printing [0x6f] ∧
        t.said = [(0, .putStr [0x68, 0x69]), (2, .putStr [0x79, 0x6f])])) = true := by
    decide +kernel
  obtain ⟨s, first, now⟩ := (Option.any_eq_true _ _).1 runs
  obtain ⟨one, zero, two, waits, me, runs⟩ := of_decide_eq_true now
  obtain ⟨t, second, now⟩ := (Option.any_eq_true _ _).1 runs
  obtain ⟨three, prints, said⟩ := of_decide_eq_true now
  have reach := consoleRun_reachable (.start crewConsole_start) first
  obtain ⟨⟨-, -, shows, -⟩, -, goes⟩ := console_calls_whole reach
  obtain ⟨⟨left, all, shows', last⟩, alone, -⟩ := console_calls_whole (consoleRun_reachable reach second)
  have text : left = [0x6f] := by
    rw [three, ConsoleSys.text, said] at all
    exact List.append_cancel_left all
  have printing : Printing (t.at_ 2) := by
    rw [prints]
    trivial
  refine ⟨s, t, first, second, ⟨one, zero, two, waits, shows, ?_⟩, three, said, shows', text ▸ last (text ▸ List.cons_ne_nil _ _),
    fun x hx => alone x 2 hx printing⟩
  have inside : ConsoleAllowed s .advance := by
    show s.at_ s.me ≠ .out
    rw [me, zero]
    exact ConsoleAt.noConfusion
  rcases goes .advance inside with runs | ⟨-, ⟨left, at_me⟩, -⟩
  · exact runs
  · rw [me, zero] at at_me
    cases at_me

end Zhenxiang.Device
