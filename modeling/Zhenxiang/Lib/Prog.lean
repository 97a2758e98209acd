import Mathlib

/-! Stateful computations that may stop with an error, and the rules of their
weakest preconditions. The error predicate says which ways of stopping are
tolerated: none for total correctness, all of them for what holds on return. -/
namespace Zhenxiang.Lib

abbrev Prog (ε σ α : Type) := StateT σ (Except ε) α

variable {ε σ α β : Type}

def wp (c : Prog ε σ α) (Q : α → σ → Prop) (E : ε → Prop) (s : σ) : Prop :=
  match c s with
  | .ok (a, t) => Q a t
  | .error e => E e

variable {Q R : α → σ → Prop} {E F : ε → Prop} {s : σ}

theorem wp_of_ok {c : Prog ε σ α} {a : α} {t : σ} (h : c s = .ok (a, t)) :
    wp c Q E s ↔ Q a t := by
  simp only [wp, h]

theorem wp_of_error {c : Prog ε σ α} {e : ε} (h : c s = .error e) : wp c Q E s ↔ E e := by
  simp only [wp, h]

@[simp] theorem wp_pure (a : α) : wp (pure a : Prog ε σ α) Q E s ↔ Q a s := Iff.rfl

@[simp] theorem wp_bind (c : Prog ε σ α) (f : α → Prog ε σ β) {Q : β → σ → Prop} :
    wp (c >>= f) Q E s ↔ wp c (fun a t => wp (f a) Q E t) E s := by
  cases h : c s with
  | error e => simp only [wp, bind, StateT.bind, Except.bind, h]
  | ok r => simp only [wp, bind, StateT.bind, Except.bind, h]

@[simp] theorem wp_map (c : Prog ε σ α) (f : α → β) {Q : β → σ → Prop} :
    wp (f <$> c) Q E s ↔ wp c (fun a t => Q (f a) t) E s := by
  cases h : c s with
  | error e => simp [wp, Functor.map, StateT.map, bind, Except.bind, h]
  | ok r => simp [wp, Functor.map, StateT.map, bind, Except.bind, pure, Except.pure, h]

@[simp] theorem wp_get {Q : σ → σ → Prop} : wp (get : Prog ε σ σ) Q E s ↔ Q s s := Iff.rfl

@[simp] theorem wp_set {Q : PUnit → σ → Prop} (t : σ) :
    wp (set t : Prog ε σ PUnit) Q E s ↔ Q ⟨⟩ t := Iff.rfl

@[simp] theorem wp_modify {Q : PUnit → σ → Prop} (f : σ → σ) :
    wp (modify f : Prog ε σ PUnit) Q E s ↔ Q ⟨⟩ (f s) := Iff.rfl

@[simp] theorem wp_throw (e : ε) : wp (throw e : Prog ε σ α) Q E s ↔ E e := Iff.rfl

theorem wp_ite {p : Prop} [Decidable p] (c d : Prog ε σ α) :
    wp (if p then c else d) Q E s ↔ (p → wp c Q E s) ∧ (¬ p → wp d Q E s) := by
  split <;> simp [*]

theorem wp_mono {c : Prog ε σ α} (h : wp c Q E s) (hQ : ∀ a t, Q a t → R a t)
    (hE : ∀ e, E e → F e) : wp c R F s := by
  cases hc : c s with
  | error e => simpa only [wp, hc] using hE e (by simpa only [wp, hc] using h)
  | ok r => simpa only [wp, hc] using hQ r.1 r.2 (by simpa only [wp, hc] using h)

theorem wp_post {c : Prog ε σ α} (h : wp c Q E s) (hQ : ∀ a t, Q a t → R a t) : wp c R E s :=
  wp_mono h hQ fun _ he => he

theorem wp_and {c : Prog ε σ α} (hQ : wp c Q E s) (hR : wp c R E s) :
    wp c (fun a t => Q a t ∧ R a t) E s := by
  cases hc : c s with
  | error e => simpa only [wp, hc] using hQ
  | ok r => exact (wp_of_ok hc).2 ⟨(wp_of_ok hc).1 hQ, (wp_of_ok hc).1 hR⟩

/-- What holds afterwards holds together with the fact that this run ended there. -/
theorem wp_run {c : Prog ε σ α} (h : wp c Q E s) :
    wp c (fun a t => Q a t ∧ c s = .ok (a, t)) E s := by
  cases hc : c s with
  | error e => exact (wp_of_error hc).2 ((wp_of_error hc).1 h)
  | ok r => exact (wp_of_ok hc).2 ⟨(wp_of_ok hc).1 h, rfl⟩

theorem run_bind {c : Prog ε σ α} {f : α → Prog ε σ β} {a : α} {t : σ} (h : c s = .ok (a, t)) :
    (c >>= f) s = f a t := by
  simp only [bind, StateT.bind, Except.bind, h]

/-- Total correctness: the computation returns, in a state of the postcondition. -/
abbrev Succeeds (c : Prog ε σ α) (Q : α → σ → Prop) (s : σ) : Prop := wp c Q (fun _ => False) s

/-- What holds whenever the computation returns. -/
abbrev Returns (c : Prog ε σ α) (Q : α → σ → Prop) (s : σ) : Prop := wp c Q (fun _ => True) s

theorem succeeds_iff {c : Prog ε σ α} : Succeeds c Q s ↔ ∃ a t, c s = .ok (a, t) ∧ Q a t := by
  cases hc : c s with
  | error e => simp [Succeeds, wp, hc]
  | ok r =>
    constructor
    · intro h
      exact ⟨r.1, r.2, rfl, (wp_of_ok hc).1 h⟩
    · rintro ⟨a, t, heq, h⟩
      cases heq
      exact (wp_of_ok hc).2 h

theorem returns_iff {c : Prog ε σ α} : Returns c Q s ↔ ∀ a t, c s = .ok (a, t) → Q a t := by
  cases hc : c s with
  | error e => simp [Returns, wp, hc]
  | ok r =>
    constructor
    · rintro h a t heq
      cases heq
      exact (wp_of_ok hc).1 h
    · intro h
      exact (wp_of_ok hc).2 (h r.1 r.2 rfl)

/-- When every way of ending tells whether C holds, so does the whole run. -/
theorem succeeds_exact {c : Prog ε σ α} {C : Prop} (h : wp c (fun a t => Q a t ↔ C) (fun _ => ¬ C) s) :
    Succeeds c Q s ↔ C := by
  cases hc : c s with
  | error e =>
    have fails := (wp_of_error hc).1 h
    rw [Succeeds, wp_of_error hc]
    exact ⟨False.elim, fails⟩
  | ok r => exact (wp_of_ok hc).trans ((wp_of_ok hc).1 h)

theorem returns_exact {c : Prog ε σ α} {C : Prop} (h : wp c (fun a t => Q a t ↔ C) (fun _ => C) s) :
    Returns c Q s ↔ C := by
  cases hc : c s with
  | error e => exact iff_of_true ((wp_of_error hc).2 trivial) ((wp_of_error hc).1 h)
  | ok r => exact (wp_of_ok hc).trans ((wp_of_ok hc).1 h)

theorem runs_iff {c : Prog ε σ α} {a : α} {t : σ} :
    c s = .ok (a, t) ↔ Succeeds c (fun b u => b = a ∧ u = t) s := by
  rw [succeeds_iff]
  constructor
  · intro h
    exact ⟨a, t, h, rfl, rfl⟩
  · rintro ⟨_, _, h, rfl, rfl⟩
    exact h

/-- What holds on return holds of a run that succeeds. -/
theorem Succeeds.and_returns {c : Prog ε σ α} (h : Succeeds c Q s) (k : Returns c R s) :
    Succeeds c (fun a t => Q a t ∧ R a t) s := by
  obtain ⟨a, t, run, hq⟩ := succeeds_iff.1 h
  exact (wp_of_ok run).2 ⟨hq, returns_iff.1 k a t run⟩

theorem wp_trivial (c : Prog ε σ α) : Returns c (fun _ _ => True) s := by
  cases hc : c s with
  | error e => exact (wp_of_error hc).2 trivial
  | ok r => exact (wp_of_ok hc).2 trivial

theorem Succeeds.returns {c : Prog ε σ α} (h : Succeeds c Q s) : Returns c Q s :=
  wp_mono h (fun _ _ hq => hq) fun _ _ => trivial

/-- A computation that succeeds exactly when a test does, as an assertion. -/
def check (p : Prop) [Decidable p] (e : ε) : Prog ε σ Unit :=
  if p then pure () else throw e

@[simp] theorem wp_check {p : Prop} [Decidable p] {e : ε} {Q : Unit → σ → Prop} :
    wp (check p e) Q E s ↔ (p → Q () s) ∧ (¬ p → E e) := by
  unfold check
  exact wp_ite _ _

/-- The loop for (k = 0; k < n; k++). -/
def forRange : Nat → (Nat → Prog ε σ Unit) → Prog ε σ Unit
  | 0, _ => pure ()
  | n + 1, body => do
    forRange n body
    body n

/-- A loop keeps its invariant. -/
theorem wp_forRange {n : Nat} {body : Nat → Prog ε σ Unit} (I : Nat → σ → Prop) (start : I 0 s)
    (turn : ∀ k t, k < n → I k t → wp (body k) (fun _ u => I (k + 1) u) E t) :
    wp (forRange n body) (fun _ t => I n t) E s := by
  induction n with
  | zero => exact start
  | succ n ih =>
    simp only [forRange, wp_bind]
    apply wp_post (ih fun k t hk => turn k t (Nat.lt_succ_of_lt hk))
    intro _ t ht
    exact turn n t (Nat.lt_succ_self n) ht

/-- A run on a given state can be carried out to see what holds after it. -/
instance {c : Prog ε σ α} [∀ a t, Decidable (Q a t)] [∀ e, Decidable (E e)] : Decidable (wp c Q E s) :=
  match h : c s with
  | .ok (a, t) => decidable_of_iff (Q a t) (wp_of_ok h).symm
  | .error e => decidable_of_iff (E e) (wp_of_error h).symm

/-- Running a computation on one part of a larger state. -/
def zoom {τ : Type} (part : τ → σ) (put : τ → σ → τ) (c : Prog ε σ α) : Prog ε τ α := fun s =>
  match c (part s) with
  | .ok (a, t) => .ok (a, put s t)
  | .error e => .error e

theorem wp_zoom {τ : Type} {part : τ → σ} {put : τ → σ → τ} {c : Prog ε σ α}
    {Q : α → τ → Prop} {s : τ} :
    wp (zoom part put c) Q E s ↔ wp c (fun a t => Q a (put s t)) E (part s) := by
  cases h : c (part s) with
  | error e => simp only [wp, zoom, h]
  | ok r => simp only [wp, zoom, h]

-- A weakest precondition is not to be unfolded into a run of the computation.
attribute [irreducible] wp

/-! Runs of a transition relation. -/
section Runs
variable {init : σ → Prop} {step : σ → σ → Prop}

inductive Reachable (init : σ → Prop) (step : σ → σ → Prop) : σ → Prop where
  | start {s : σ} : init s → Reachable init step s
  | step {s t : σ} : Reachable init step s → step s t → Reachable init step t

/-- What holds initially and is kept by every step holds in every reachable state. -/
theorem Reachable.invariant {I : σ → Prop} (base : ∀ s, init s → I s)
    (kept : ∀ s t, I s → step s t → I t) {s : σ} (h : Reachable init step s) : I s := by
  induction h with
  | start hs => exact base _ hs
  | step _ hst ih => exact kept _ _ ih hst

/-- Running from a reachable state stays inside the reachable states. -/
theorem Reachable.trans {s t : σ} (h : Reachable init step s)
    (run : Relation.ReflTransGen step s t) : Reachable init step t := by
  induction run with
  | refl => exact h
  | tail _ hst ih => exact ih.step hst

variable {ι : Type} {allowed : σ → ι → Prop} [∀ s e, Decidable (allowed s e)] {perform : ι → Prog ε σ Unit}

/-- The run of a given list of events, each allowed where it comes. -/
def runEvents (allowed : σ → ι → Prop) [∀ s e, Decidable (allowed s e)] (perform : ι → Prog ε σ Unit) :
    List ι → σ → Option σ
  | [], s => some s
  | e :: es, s =>
    if allowed s e then
      match perform e s with
      | .ok (_, t) => runEvents allowed perform es t
      | .error _ => none
    else none

theorem runEvents_steps {es : List ι} {s t : σ} (run : runEvents allowed perform es s = some t) :
    Relation.ReflTransGen (fun s t => ∃ e, allowed s e ∧ perform e s = .ok ((), t)) s t := by
  induction es generalizing s with
  | nil =>
    cases run
    exact .refl
  | cons e es ih =>
    simp only [runEvents] at run
    split at run
    · next here =>
      split at run
      · next u first => exact .head ⟨e, here, first⟩ (ih run)
      · cases run
    · cases run

end Runs

end Zhenxiang.Lib
