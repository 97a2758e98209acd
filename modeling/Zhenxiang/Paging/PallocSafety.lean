import Zhenxiang.Lib.Trace
import Zhenxiang.Paging.Palloc

/-! No frame twice. The lock of a pool protects every scan of it except those of page_table_add
for a user page, which are made under the lock of the user pool. -/
namespace Zhenxiang.Paging
open Lib

section Safety
variable {len : PoolFlags → Nat} {s : Pools} {task : Nat}

/-- The call a thread is in behind its lock_acquire. -/
def PallocPc.request : PallocPc → Option Request
  | .out | .acquire _ => none
  | .scan r _ | .set r _ _ | .map r _ | .scanTable r _ | .setTable r _ _ | .pfree r _ | .release r => some r

/-- The thread has found this bit of the pool and not yet set it. -/
def PallocPc.Found (pf : PoolFlags) (bitIdx : Nat) : PallocPc → Prop
  | .set r _ i => r.pool = pf ∧ i = bitIdx
  | .setTable _ _ i => pf = .kernel ∧ i = bitIdx
  | _ => False

/-- The frames given out are marked and differ, a thread inside a call holds the lock of its
pool, and in each pool at most one found bit waits to be set and is still clear. -/
structure PoolsInv (s : Pools) : Prop where
  nodup : FramesUnique s
  marked : ∀ pf, ∀ i ∈ s.given pf, s.bits pf i = true
  holds : ∀ t r, (s.pc t).request = some r → s.holder r.pool = some t
  clear : ∀ t pf i, (s.pc t).Found pf i → s.bits pf i = false
  alone : ∀ t u pf, (s.pc t).Between pf → (s.pc u).Between pf → t = u

theorem PallocPc.Found.between {p : PallocPc} {pf : PoolFlags} {i : Nat} (h : p.Found pf i) : p.Between pf := by
  cases p with
  | set r left j => exact h.1
  | setTable r left j => exact h.1
  | _ => exact h

theorem poolsStart_inv : PoolsInv poolsStart where
  nodup _ := List.nodup_nil
  marked _ _ h := by cases h
  holds _ _ h := by cases h
  clear _ _ _ h := h.elim
  alone _ _ _ h := h.elim

@[simp] theorem Pools.goto_self (s : Pools) (t : Nat) (p : PallocPc) : (s.goto t p).pc t = p :=
  Function.update_self ..

theorem Pools.goto_of_ne (s : Pools) {t u : Nat} (p : PallocPc) (h : u ≠ t) : (s.goto t p).pc u = s.pc u :=
  Function.update_of_ne h ..

@[simp] theorem Pools.lock_self (s : Pools) (pf : PoolFlags) (holder : Option Nat) (nr : Nat) :
    (s.lock pf holder nr).holder pf = holder :=
  Function.update_self ..

theorem Pools.lock_of_ne (s : Pools) {pf q : PoolFlags} (holder : Option Nat) (nr : Nat) (h : q ≠ pf) :
    (s.lock pf holder nr).holder q = s.holder q :=
  Function.update_of_ne h ..

theorem scanOne_spec {bits : Nat → Bool} {n i : Nat} (h : scanOne bits n = some i) : bits i = false := by
  simpa using List.find?_some h

/-- A step of one thread that leaves the bitmaps as they are. -/
theorem PoolsInv.move (h : PoolsInv s) {p : PallocPc} {holder : PoolFlags → Option Nat} {nr : PoolFlags → Nat}
    (here : ∀ r, p.request = some r → holder r.pool = some task)
    (others : ∀ pf u, u ≠ task → s.holder pf = some u → holder pf = some u)
    (clear : ∀ pf i, p.Found pf i → s.bits pf i = false)
    (alone : ∀ pf, p.Between pf → ∀ u, u ≠ task → ¬ (s.pc u).Between pf) :
    PoolsInv { s.goto task p with holder := holder, holderRepeatNr := nr } where
  nodup := h.nodup
  marked := h.marked
  holds t r hr := by
    by_cases same : t = task
    · subst same
      simp only [Pools.goto_self] at hr
      exact here r hr
    · simp only [Pools.goto_of_ne s p same] at hr
      exact others r.pool t same (h.holds t r hr)
  clear t pf i hf := by
    by_cases same : t = task
    · subst same
      simp only [Pools.goto_self] at hf
      exact clear pf i hf
    · simp only [Pools.goto_of_ne s p same] at hf
      exact h.clear t pf i hf
  alone t u pf ht hu := by
    by_cases st : t = task <;> by_cases su : u = task
    · rw [st, su]
    · subst st
      simp only [Pools.goto_self, Pools.goto_of_ne s p su] at ht hu
      exact (alone pf ht u su hu).elim
    · subst su
      simp only [Pools.goto_self, Pools.goto_of_ne s p st] at ht hu
      exact (alone pf hu t st ht).elim
    · simp only [Pools.goto_of_ne s p st, Pools.goto_of_ne s p su] at ht hu
      exact h.alone t u pf ht hu

/-- The same, inside one call. -/
theorem PoolsInv.stay (h : PoolsInv s) {p : PallocPc} {r : Request} (inside : (s.pc task).request = some r)
    (same : ∀ q, p.request = some q → q = r) (quiet : ∀ pf, ¬ p.Between pf) : PoolsInv (s.goto task p) := by
  apply h.move
  · intro q hq
    rw [same q hq]
    exact h.holds task r inside
  · intro pf u _ hu
    exact hu
  · intro pf i hf
    exact (quiet pf hf.between).elim
  · intro pf hb
    exact (quiet pf hb).elim

/-- bitmap_set on the bit found. -/
theorem PoolsInv.give (h : PoolsInv s) {p : PallocPc} {r : Request} {pf : PoolFlags} {i : Nat}
    (found : (s.pc task).Found pf i) (inside : (s.pc task).request = some r) (next : p.request = some r)
    (quiet : ∀ pf, ¬ p.Between pf) : PoolsInv ((s.give pf i).goto task p) where
  nodup q := by
    by_cases same : q = pf
    · subst same
      have fresh : i ∉ s.given q := by
        intro hi
        have := h.marked q i hi
        rw [h.clear task q i found] at this
        cases this
      simpa only [Pools.give, Pools.goto, Function.update_self] using List.nodup_cons.2 ⟨fresh, h.nodup q⟩
    · simpa only [Pools.give, Pools.goto, Function.update_of_ne same] using h.nodup q
  marked q j hj := by
    by_cases same : q = pf
    · subst same
      simp only [Pools.give, Pools.goto, Function.update_self, List.mem_cons] at hj ⊢
      by_cases eq : j = i
      · rw [eq, Function.update_self]
      · rw [Function.update_of_ne eq]
        exact h.marked q j (hj.resolve_left eq)
    · simp only [Pools.give, Pools.goto, Function.update_of_ne same] at hj ⊢
      exact h.marked q j hj
  holds t q hq := by
    by_cases same : t = task
    · subst same
      simp only [Pools.goto_self, next] at hq
      exact h.holds t q (inside.trans hq)
    · simp only [Pools.goto_of_ne _ p same] at hq
      exact h.holds t q hq
  clear t q j hf := by
    have other : t ≠ task := by
      intro same
      subst same
      simp only [Pools.goto_self] at hf
      exact quiet q hf.between
    simp only [Pools.goto_of_ne _ p other] at hf
    have pools : q ≠ pf := by
      intro same
      subst same
      exact other (h.alone t task q hf.between found.between)
    simpa only [Pools.give, Pools.goto, Function.update_of_ne pools] using h.clear t q j hf
  alone t u q ht hu := by
    have only : ∀ v, (((s.give pf i).goto task p).pc v).Between q → v ≠ task ∧ (s.pc v).Between q := by
      intro v hv
      by_cases same : v = task
      · subst same
        simp only [Pools.goto_self] at hv
        exact (quiet q hv).elim
      · simp only [Pools.goto_of_ne _ p same] at hv
        exact ⟨same, hv⟩
    exact h.alone t u q (only t ht).2 (only u hu).2

/-- pfree of a frame given out. -/
theorem PoolsInv.take (h : PoolsInv s) {pf : PoolFlags} {i : Nat} (given : i ∈ s.given pf) :
    PoolsInv (s.take pf i) where
  nodup q := by
    by_cases same : q = pf
    · subst same
      simpa only [Pools.take, Function.update_self] using (h.nodup q).erase i
    · simpa only [Pools.take, Function.update_of_ne same] using h.nodup q
  marked q j hj := by
    by_cases same : q = pf
    · subst same
      simp only [Pools.take, Function.update_self] at hj ⊢
      have ne : j ≠ i := by
        intro eq
        subst eq
        exact (h.nodup q).not_mem_erase hj
      rw [Function.update_of_ne ne]
      exact h.marked q j (List.mem_of_mem_erase hj)
    · simp only [Pools.take, Function.update_of_ne same] at hj ⊢
      exact h.marked q j hj
  holds := h.holds
  clear t q j hf := by
    have clear := h.clear t q j hf
    by_cases same : q = pf
    · subst same
      simp only [Pools.take, Function.update_self]
      by_cases eq : j = i
      · rw [eq, Function.update_self]
      · rw [Function.update_of_ne eq, clear]
    · simpa only [Pools.take, Function.update_of_ne same] using clear
  alone := h.alone

/-- In a pool whose lock a thread holds nobody else is between scan and set, unless it is for a
page table. -/
theorem PoolsInv.others (h : PoolsInv s) {pf : PoolFlags} (held : s.holder pf = some task) {u : Nat}
    (hu : u ≠ task) (between : (s.pc u).Between pf) : (s.pc u).BetweenTable := by
  cases hp : s.pc u with
  | set r left i =>
    have holds := h.holds u r (by rw [hp]; rfl)
    rw [hp] at between
    rw [show r.pool = pf from between, held] at holds
    exact hu (Option.some.inj holds).symm
  | setTable r left i => trivial
  | _ => rw [hp] at between; exact between

theorem Pools.enter_request (vaddr : Bool) (r : Request) : (Pools.enter vaddr r).request = some r := by
  cases r with
  | mallocPage pf pgCnt => cases vaddr <;> rfl
  | _ => rfl

theorem Pools.enter_quiet (vaddr : Bool) (r : Request) (pf : PoolFlags) : ¬ (Pools.enter vaddr r).Between pf := by
  cases r with
  | mallocPage pf pgCnt => cases vaddr <;> exact id
  | _ => exact id

theorem Pools.failed_request (r q : Request) (h : (Pools.failed r).request = some q) : q = r := by
  cases r with
  | getAPage pf => cases h
  | _ => exact (Option.some.inj h).symm

theorem Pools.failed_quiet (r : Request) (pf : PoolFlags) : ¬ (Pools.failed r).Between pf := by
  cases r <;> exact id

/-- lock_acquire by a thread that gets the lock. -/
theorem PoolsInv.acquire (h : PoolsInv s) (vaddr : Bool) (r : Request) (nr : Nat)
    (got : s.holder r.pool = none ∨ s.holder r.pool = some task) :
    PoolsInv ((s.lock r.pool (some task) nr).goto task (Pools.enter vaddr r)) := by
  apply h.move
  · intro q hq
    rw [Pools.enter_request] at hq
    rw [← Option.some.inj hq, Pools.lock_self]
  · intro pf u hu held
    have ne : pf ≠ r.pool := by
      intro eq
      subst eq
      rcases got with free | own
      · rw [free] at held
        cases held
      · rw [own] at held
        exact hu (Option.some.inj held).symm
    rw [Pools.lock_of_ne _ _ _ ne]
    exact held
  · intro pf i hf
    exact (Pools.enter_quiet vaddr r pf hf.between).elim
  · intro pf hb
    exact (Pools.enter_quiet vaddr r pf hb).elim

/-- lock_release. -/
theorem PoolsInv.release (h : PoolsInv s) {r : Request} (held : s.holder r.pool = some task)
    (holder : Option Nat) (nr : Nat) : PoolsInv ((s.lock r.pool holder nr).goto task .out) := by
  apply h.move
  · intro q hq
    cases hq
  · intro pf u hu other
    have ne : pf ≠ r.pool := by
      intro eq
      subst eq
      rw [held] at other
      exact hu (Option.some.inj other).symm
    rw [Pools.lock_of_ne _ _ _ ne]
    exact other
  · intro pf i hf
    exact hf.elim
  · intro pf hb
    exact hb.elim

/-- bitmap_scan finds a bit while no other thread is between scan and set on that pool. -/
theorem PoolsInv.found (h : PoolsInv s) {p : PallocPc} {r : Request} {pf : PoolFlags} {i n : Nat}
    (inside : (s.pc task).request = some r) (next : p.request = some r)
    (scan : scanOne (s.bits pf) n = some i) (here : ∀ q j, p.Found q j → q = pf ∧ j = i)
    (only : ∀ q, p.Between q → q = pf) (alone : ∀ u, u ≠ task → ¬ (s.pc u).Between pf) :
    PoolsInv (s.goto task p) := by
  apply h.move
  · intro q hq
    rw [← Option.some.inj (next.symm.trans hq)]
    exact h.holds task r inside
  · intro q u _ held
    exact held
  · intro q j hf
    obtain ⟨rfl, rfl⟩ := here q j hf
    exact scanOne_spec scan
  · intro q hb u hu
    rw [only q hb]
    exact alone u hu

/-- One step that meets the condition. -/
theorem PoolsInv.step {t : Pools} {c : Choice} (h : PoolsInv s) (careful : PallocCareful s task)
    (run : s.advance len task c = some t) : PoolsInv t := by
  unfold Pools.advance at run
  have inside : ∀ r, (s.pc task).request = some r → s.holder r.pool = some task := h.holds task
  cases hp : s.pc task with
  | out =>
    simp only [hp] at run
    obtain rfl := Option.some.inj run
    exact h.move (fun _ hq => by cases hq) (fun _ _ _ held => held) (fun _ _ hf => hf.elim) fun _ hb => hb.elim
  | acquire r =>
    simp only [hp] at run
    split at run
    · rename_i free
      obtain rfl := Option.some.inj run
      exact h.acquire _ r _ (.inl free)
    · split at run
      · rename_i own
        obtain rfl := Option.some.inj run
        exact h.acquire _ r _ (.inr own)
      · cases run
  | scan r left =>
    have call : (s.pc task).request = some r := by rw [hp]; rfl
    cases left with
    | zero =>
      simp only [hp] at run
      obtain rfl := Option.some.inj run
      exact h.stay call (fun q hq => (Option.some.inj hq).symm) fun _ => id
    | succ left =>
      simp only [hp] at run
      unfold PallocCareful at careful
      simp only [hp] at careful
      split at run
      · obtain rfl := Option.some.inj run
        exact h.stay call (Pools.failed_request r) (Pools.failed_quiet r)
      · rename_i i scan
        obtain rfl := Option.some.inj run
        apply h.found call rfl scan
        · intro q j hf
          exact ⟨hf.1.symm, hf.2.symm⟩
        · intro q hb
          exact hb.symm
        · intro u hu hb
          have table := h.others (inside r call) hu hb
          have kernel : r.pool = .kernel := by
            cases hq : s.pc u <;> rw [hq] at table hb
            case setTable => exact hb
            all_goals exact table.elim
          exact careful kernel u table
  | set r left i =>
    have call : (s.pc task).request = some r := by rw [hp]; rfl
    simp only [hp] at run
    obtain rfl := Option.some.inj run
    have found : (s.pc task).Found r.pool i := by
      rw [hp]
      exact ⟨rfl, rfl⟩
    exact h.give found call rfl fun _ => id
  | map r left =>
    have call : (s.pc task).request = some r := by rw [hp]; rfl
    simp only [hp] at run
    split at run
    · obtain rfl := Option.some.inj run
      exact h.stay call (fun q hq => (Option.some.inj hq).symm) fun _ => id
    · obtain rfl := Option.some.inj run
      exact h.stay call (fun q hq => (Option.some.inj hq).symm) fun _ => id
  | scanTable r left =>
    have call : (s.pc task).request = some r := by rw [hp]; rfl
    simp only [hp] at run
    unfold PallocCareful at careful
    simp only [hp] at careful
    split at run
    · obtain rfl := Option.some.inj run
      exact h.stay call (fun q hq => (Option.some.inj hq).symm) fun _ => id
    · rename_i i scan
      obtain rfl := Option.some.inj run
      apply h.found call rfl scan
      · intro q j hf
        exact ⟨hf.1, hf.2.symm⟩
      · intro q hb
        exact hb
      · intro u _
        exact careful u
  | setTable r left i =>
    have call : (s.pc task).request = some r := by rw [hp]; rfl
    simp only [hp] at run
    obtain rfl := Option.some.inj run
    have found : (s.pc task).Found .kernel i := by
      rw [hp]
      exact ⟨rfl, rfl⟩
    exact h.give found call rfl fun _ => id
  | pfree r left =>
    have call : (s.pc task).request = some r := by rw [hp]; rfl
    cases left with
    | zero =>
      simp only [hp] at run
      obtain rfl := Option.some.inj run
      exact h.stay call (fun q hq => (Option.some.inj hq).symm) fun _ => id
    | succ left =>
      simp only [hp] at run
      split at run
      · rename_i given
        obtain rfl := Option.some.inj run
        exact (h.take given).stay call (fun q hq => (Option.some.inj hq).symm) fun _ => id
      · cases run
  | release r =>
    have held := inside r (by rw [hp]; rfl)
    simp only [hp] at run
    split at run
    · obtain rfl := Option.some.inj run
      exact h.release held _ _
    · obtain rfl := Option.some.inj run
      exact h.release held _ _

/-- In runs in which no bitmap_scan of the kernel pool begins while another one has found a bit
not yet set, one of the two being for a page table, no frame is given out twice; and whoever is
between bitmap_scan and bitmap_set for anything else holds the lock of that pool. -/
theorem frames_unique (s : Pools) (h : Reachable (· = poolsStart) (CarefulPoolsStep len) s) :
    FramesUnique s ∧ ∀ t pf, (s.pc t).Between pf → ¬ (s.pc t).BetweenTable → s.holder pf = some t := by
  have inv : PoolsInv s := by
    apply h.invariant (I := PoolsInv)
    · intro s hs
      rw [hs]
      exact poolsStart_inv
    · intro s t hs step
      obtain ⟨task, c, careful, run⟩ := step
      exact hs.step careful run
  refine ⟨inv.nodup, fun t pf hb table => ?_⟩
  cases hp : s.pc t with
  | set r left i =>
    rw [hp] at hb
    rw [← show r.pool = pf from hb]
    exact inv.holds t r (by rw [hp]; rfl)
  | setTable r left i => exact (table (by rw [hp]; trivial)).elim
  | _ => rw [hp] at hb; exact hb.elim

/-- One thread after the other, each with a step. -/
def Pools.run (len : PoolFlags → Nat) : Pools → List (Nat × Choice) → Option Pools
  | s, [] => some s
  | s, (task, c) :: rest => (s.advance len task c).bind fun t => t.run len rest

theorem Pools.run_steps {s t : Pools} {es : List (Nat × Choice)} (h : s.run len es = some t) :
    Relation.ReflTransGen (PoolsStep len) s t := by
  induction es generalizing s with
  | nil =>
    cases h
    exact .refl
  | cons e es ih =>
    obtain ⟨u, first, rest⟩ := Option.bind_eq_some_iff.1 h
    exact .head ⟨e.1, e.2, first⟩ (ih rest)

end Safety

/-- A page for a kernel thread. -/
def kernelPage : Choice := ⟨.mallocPage .kernel 1, true, true, 0⟩

/-- The user stack of start_process, whose page table is not there yet. -/
def stackPage : Choice := ⟨.getAPage .user, true, false, 0⟩

/-- PallocCareful, when no threads but those of ts are in memory.c. -/
def CarefulAmong (ts : List Nat) (s : Pools) (task : Nat) : Prop :=
  match s.pc task with
  | .scan r (_ + 1) => r.pool = .kernel → ∀ u ∈ ts, ¬ (s.pc u).BetweenTable
  | .scanTable _ _ => ∀ u ∈ ts, ¬ (s.pc u).Between .kernel
  | _ => True

instance (pf : PoolFlags) : DecidablePred (PallocPc.Between pf)
  | .set r _ _ => inferInstanceAs (Decidable (r.pool = pf))
  | .setTable .. => inferInstanceAs (Decidable (pf = .kernel))
  | .out | .acquire _ | .scan .. | .map .. | .scanTable .. | .pfree .. | .release _ => inferInstanceAs (Decidable False)

instance : DecidablePred PallocPc.BetweenTable
  | .setTable .. => inferInstanceAs (Decidable True)
  | .out | .acquire _ | .scan .. | .set .. | .map .. | .scanTable .. | .pfree .. | .release _ => inferInstanceAs (Decidable False)

instance (ts : List Nat) (s : Pools) (task : Nat) : Decidable (CarefulAmong ts s task) := by
  unfold CarefulAmong
  split <;> infer_instance

/-- A step of a thread of ts that meets the condition. -/
def carefulAmong (ts : List Nat) (s : Pools) (e : Nat × Choice) : Option Pools :=
  if e.1 ∈ ts ∧ CarefulAmong ts s e.1 then s.advance (fun _ => 8) e.1 e.2 else none

theorem Pools.advance_pc {len : PoolFlags → Nat} {s t : Pools} {task : Nat} {c : Choice} (run : s.advance len task c = some t)
    {u : Nat} (other : u ≠ task) : t.pc u = s.pc u := by
  unfold Pools.advance at run
  repeat' split at run
  all_goals
    cases run
    all_goals exact Pools.goto_of_ne _ _ other

theorem CarefulAmong.careful {ts : List Nat} {s : Pools} {task : Nat} (others : ∀ u, u ∉ ts → s.pc u = .out)
    (careful : CarefulAmong ts s task) : PallocCareful s task := by
  have all {p : PallocPc → Prop} (out : ¬ p .out) (among : ∀ u ∈ ts, ¬ p (s.pc u)) (u : Nat) : ¬ p (s.pc u) := by
    by_cases mem : u ∈ ts
    · exact among u mem
    · rw [others u mem]
      exact out
  unfold CarefulAmong at careful
  unfold PallocCareful
  cases hp : s.pc task with
  | scan r left =>
    rw [hp] at careful
    cases left with
    | zero => trivial
    | succ left => exact fun kernel => all id (careful kernel)
  | scanTable r left =>
    rw [hp] at careful
    exact all id careful
  | out | acquire r | set r left bitIdx | map r left | setTable r left bitIdx | pfree r left | release r => trivial

theorem carefulAmong_run {ts : List Nat} {es : List (Nat × Choice)} {s : Pools} (run : play (carefulAmong ts) es poolsStart = some s) :
    Reachable (· = poolsStart) (CarefulPoolsStep fun _ => 8) s := by
  refine ((play_trace run).invariant
    (I := fun s => Reachable (· = poolsStart) (CarefulPoolsStep fun _ => 8) s ∧ ∀ u, u ∉ ts → s.pc u = .out)
    ⟨.start rfl, fun _ _ => rfl⟩ ?_).1
  rintro s e t ⟨reach, others⟩ next
  unfold carefulAmong at next
  split at next
  · next ok =>
    refine ⟨reach.step ⟨e.1, e.2, ok.2.careful others, next⟩, fun u out => ?_⟩
    exact (Pools.advance_pc next fun (same : u = e.1) => out (same ▸ ok.1)).trans (others u out)
  · cases next

/-- A kernel thread takes two pages while another thread is in start_process: the page table of the stack is taken
between the two. -/
def takenInTurn : List (Nat × Choice) :=
  let kernelPages : Choice := ⟨.mallocPage .kernel 2, true, true, 0⟩
  [(0, kernelPages), (1, stackPage), (0, kernelPages), (1, stackPage), (0, kernelPages), (1, stackPage), (0, kernelPages),
    (1, stackPage), (1, stackPage), (1, stackPage), (0, kernelPages), (1, stackPage), (0, kernelPages)]

theorem frames_unique_two : ∃ s, play (carefulAmong [0, 1]) takenInTurn poolsStart = some s ∧
    s.given .kernel = [1, 0] ∧ s.given .user = [0] ∧ FramesUnique s ∧ s.pc 0 = .set (.mallocPage .kernel 2) 0 2 ∧
    s.holder .kernel = some 0 := by
  have run : (play (carefulAmong [0, 1]) takenInTurn poolsStart).any (fun s => s.given .kernel = [1, 0] ∧ s.given .user = [0] ∧
      s.pc 0 = .set (.mallocPage .kernel 2) 0 2) = true := by
    decide
  obtain ⟨s, here, found⟩ := (Option.any_eq_true _ _).1 run
  obtain ⟨kernel, user, between⟩ := of_decide_eq_true found
  obtain ⟨unique, locked⟩ := frames_unique s (carefulAmong_run here)
  refine ⟨s, here, kernel, user, unique, between, locked 0 .kernel ?_ ?_⟩
  · rw [between]
    rfl
  · rw [between]
    exact id

/-- A kernel thread is between the scan and the set of its page when start_process takes a page
table out of the kernel pool: both get the first frame. -/
theorem frames_not_unique :
    ∃ s, Reachable (· = poolsStart) (PoolsStep fun _ => 8) s ∧ s.given .kernel = [0, 0] := by
  have run : (poolsStart.run (fun _ => 8) ([kernelPage, kernelPage, kernelPage].map (0, ·) ++
      (List.replicate 6 stackPage).map (1, ·) ++ [(0, kernelPage), (1, stackPage)])).map
        (fun s => s.given .kernel) = some [0, 0] := by decide
  obtain ⟨s, hs, given⟩ := Option.map_eq_some_iff.1 run
  have start : Reachable (· = poolsStart) (PoolsStep fun _ => 8) poolsStart := .start rfl
  exact ⟨s, start.trans (Pools.run_steps hs), given⟩

end Zhenxiang.Paging
