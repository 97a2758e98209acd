import Zhenxiang.Lib.Prog

/-! Runs of a labelled transition relation, with their events, and what a potential says of them. -/
namespace Zhenxiang.Lib

variable {σ ι : Type} {step : σ → ι → σ → Prop}

inductive Trace (step : σ → ι → σ → Prop) : σ → List ι → σ → Prop where
  | nil (s : σ) : Trace step s [] s
  | cons {s t u : σ} {e : ι} {es : List ι} : step s e t → Trace step t es u → Trace step s (e :: es) u

/-- What every step keeps holds at the end. -/
theorem Trace.invariant {I : σ → Prop} {s t : σ} {es : List ι} (run : Trace step s es t) (h : I s)
    (kept : ∀ s e t, I s → step s e t → I t) : I t := by
  induction run with
  | nil => exact h
  | cons first _ ih => exact ih (kept _ _ _ h first)

/-- The states of a run by allowed events are reachable. -/
theorem Trace.reachable {init : σ → Prop} {next : σ → σ → Prop} {s t : σ} {es : List ι} (run : Trace step s es t)
    (h : Reachable init next s) (steps : ∀ s e t, step s e t → next s t) : Reachable init next t := by
  induction run with
  | nil => exact h
  | cons first _ ih => exact ih (h.step (steps _ _ _ first))

theorem Trace.mono {step' : σ → ι → σ → Prop} {s t : σ} {es : List ι} (run : Trace step s es t)
    (weaker : ∀ s e t, step s e t → step' s e t) : Trace step' s es t := by
  induction run with
  | nil s => exact .nil s
  | cons first _ ih => exact .cons (weaker _ _ _ first) ih

/-! Runs that are computed. -/

/-- The state behind the events. -/
def play (next : σ → ι → Option σ) : List ι → σ → Option σ
  | [], s => some s
  | e :: es, s => (next s e).bind (play next es)

theorem play_trace {next : σ → ι → Option σ} {s t : σ} {es : List ι} (run : play next es s = some t) :
    Trace (fun s e t => next s e = some t) s es t := by
  induction es generalizing s with
  | nil =>
    obtain rfl := Option.some.inj run
    exact .nil _
  | cons e es ih =>
    obtain ⟨m, first, rest⟩ := Option.bind_eq_some_iff.1 run
    exact .cons first (ih rest)

variable {ε α : Type} {perform : ι → Prog ε σ α} {allowed : σ → ι → Prop} [∀ s e, Decidable (allowed s e)]

/-- A step by an event that is allowed and returns. -/
def stepOf (perform : ι → Prog ε σ α) (allowed : σ → ι → Prop) [∀ s e, Decidable (allowed s e)] (s : σ) (e : ι) : Option σ :=
  if allowed s e then
    match perform e s with
    | .ok (_, t) => some t
    | .error _ => none
  else
    none

theorem stepOf_some {s t : σ} {e : ι} (next : stepOf perform allowed s e = some t) :
    allowed s e ∧ ∃ a, perform e s = .ok (a, t) := by
  unfold stepOf at next
  split at next
  · next ok =>
    cases run : perform e s with
    | error f =>
      rw [run] at next
      cases next
    | ok r =>
      rw [run] at next
      cases next
      exact ⟨ok, r.1, rfl⟩
  · cases next

end Zhenxiang.Lib
