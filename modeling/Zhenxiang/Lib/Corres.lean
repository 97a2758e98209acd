import Zhenxiang.Lib.Prog

/-! Two computations that go the same way: both return, in states and with results that are related, or both
stop with the same error. -/
namespace Zhenxiang.Lib

variable {ε σ τ α β γ δ : Type}

def Corres (c : Prog ε σ α) (d : Prog ε τ β) (R : α → β → σ → τ → Prop) (s : σ) (t : τ) : Prop :=
  wp d (fun b t' => Succeeds c (fun a s' => R a b s' t') s) (fun e => c s = .error e) t

variable {c : Prog ε σ α} {d : Prog ε τ β} {R R' : α → β → σ → τ → Prop} {s : σ} {t : τ}

theorem corres_iff : Corres c d R s t ↔
    (∃ a s' b t', c s = .ok (a, s') ∧ d t = .ok (b, t') ∧ R a b s' t') ∨ ∃ e, c s = .error e ∧ d t = .error e := by
  unfold Corres
  cases hd : d t with
  | error e =>
    rw [wp_of_error hd]
    constructor
    · exact fun stops => .inr ⟨e, stops, rfl⟩
    · rintro (⟨_, _, _, _, _, no, _⟩ | ⟨_, stops, same⟩)
      · cases no
      · cases same
        exact stops
  | ok r =>
    obtain ⟨b, t'⟩ := r
    rw [wp_of_ok hd, succeeds_iff]
    constructor
    · rintro ⟨a, s', run, rel⟩
      exact .inl ⟨a, s', b, t', run, rfl, rel⟩
    · rintro (⟨a, s', _, _, run, same, rel⟩ | ⟨_, _, no⟩)
      · cases same
        exact ⟨a, s', run, rel⟩
      · cases no

theorem Corres.follows (h : Corres c d R s t) {b : β} {t' : τ} (run : d t = .ok (b, t')) :
    ∃ a s', c s = .ok (a, s') ∧ R a b s' t' := by
  rcases corres_iff.1 h with ⟨a, s', _, _, run₁, run', rel⟩ | ⟨_, _, stops⟩
  · cases run.symm.trans run'
    exact ⟨a, s', run₁, rel⟩
  · cases run.symm.trans stops

theorem corres_mono (h : Corres c d R s t) (imp : ∀ a b s' t', R a b s' t' → R' a b s' t') : Corres c d R' s t :=
  wp_post h fun _ _ run => wp_post run fun _ _ => imp _ _ _ _

/-- What the second computation is known to ensure can be used of the states both return in. -/
theorem Corres.ensures {Q : β → τ → Prop} (h : Corres c d R s t) (post : Returns d Q t) :
    Corres c d (fun a b s' t' => R a b s' t' ∧ Q b t' ∧ d t = .ok (b, t')) s t := by
  rcases corres_iff.1 h with ⟨a, s', b, t', run₁, run₂, rel⟩ | stops
  · exact corres_iff.2 (.inl ⟨a, s', b, t', run₁, run₂, rel, returns_iff.1 post _ _ run₂, run₂⟩)
  · exact corres_iff.2 (.inr stops)

/-- The run of the first computation that is spoken of. -/
theorem Corres.ran (h : Corres c d R s t) : Corres c d (fun a b s' t' => R a b s' t' ∧ c s = .ok (a, s')) s t := by
  rcases corres_iff.1 h with ⟨a, s', b, t', run₁, run₂, rel⟩ | stops
  · exact corres_iff.2 (.inl ⟨a, s', b, t', run₁, run₂, rel, run₁⟩)
  · exact corres_iff.2 (.inr stops)

theorem corres_pure {a : α} {b : β} (h : R a b s t) :
    Corres (pure a : Prog ε σ α) (pure b : Prog ε τ β) R s t :=
  (wp_pure _).2 ((wp_pure _).2 h)

theorem corres_throw (e : ε) : Corres (throw e : Prog ε σ α) (throw e : Prog ε τ β) R s t :=
  (wp_throw _).2 rfl

theorem corres_bind {S : α → β → σ → τ → Prop} {R : γ → δ → σ → τ → Prop} {f : α → Prog ε σ γ} {g : β → Prog ε τ δ}
    (first : Corres c d S s t) (rest : ∀ a b s' t', S a b s' t' → Corres (f a) (g b) R s' t') :
    Corres (c >>= f) (d >>= g) R s t := by
  rcases corres_iff.1 first with ⟨a, s', b, t', run₁, run₂, rel⟩ | ⟨e, stops₁, stops₂⟩
  · have then_ := rest a b s' t' rel
    rw [corres_iff] at then_ ⊢
    rwa [run_bind run₁, run_bind run₂]
  · refine corres_iff.2 (.inr ⟨e, ?_, ?_⟩)
    · simp only [bind, StateT.bind, Except.bind, stops₁]
    · simp only [bind, StateT.bind, Except.bind, stops₂]

/-- A first step of one computation alone. -/
theorem corres_left {Q : α → σ → Prop} {R : γ → β → σ → τ → Prop} {f : α → Prog ε σ γ} (first : Succeeds c Q s)
    (rest : ∀ a s', Q a s' → Corres (f a) d R s' t) : Corres (c >>= f) d R s t := by
  obtain ⟨a, s', run, here⟩ := succeeds_iff.1 first
  have then_ := rest a s' here
  rw [corres_iff] at then_ ⊢
  rwa [run_bind run]

theorem corres_right {Q : β → τ → Prop} {R : α → δ → σ → τ → Prop} {g : β → Prog ε τ δ} (first : Succeeds d Q t)
    (rest : ∀ b t', Q b t' → Corres c (g b) R s t') : Corres c (d >>= g) R s t := by
  obtain ⟨b, t', run, here⟩ := succeeds_iff.1 first
  have then_ := rest b t' here
  rw [corres_iff] at then_ ⊢
  rwa [run_bind run]

/-- More steps of one computation behind the other. -/
theorem corres_then {S : α → β → σ → τ → Prop} {R : γ → β → σ → τ → Prop} {f : α → Prog ε σ γ} (first : Corres c d S s t)
    (rest : ∀ a b s' t', S a b s' t' → Succeeds (f a) (fun x u => R x b u t') s') : Corres (c >>= f) d R s t := by
  rcases corres_iff.1 first with ⟨a, s', b, t', run₁, run₂, rel⟩ | ⟨e, stops₁, stops₂⟩
  · obtain ⟨x, u, run, post⟩ := succeeds_iff.1 (rest a b s' t' rel)
    exact corres_iff.2 (.inl ⟨x, u, b, t', by rw [run_bind run₁, run], run₂, post⟩)
  · refine corres_iff.2 (.inr ⟨e, ?_, stops₂⟩)
    simp only [bind, StateT.bind, Except.bind, stops₁]

theorem corres_get_left {R : γ → β → σ → τ → Prop} {f : σ → Prog ε σ γ} (rest : Corres (f s) d R s t) :
    Corres (get >>= f) d R s t := by
  refine corres_left (Q := fun a s' => a = s ∧ s' = s) (wp_get.2 ⟨rfl, rfl⟩) ?_
  rintro _ _ ⟨rfl, rfl⟩
  exact rest

theorem corres_get_right {R : α → δ → σ → τ → Prop} {g : τ → Prog ε τ δ} (rest : Corres c (g t) R s t) :
    Corres c (get >>= g) R s t := by
  refine corres_right (Q := fun b t' => b = t ∧ t' = t) (wp_get.2 ⟨rfl, rfl⟩) ?_
  rintro _ _ ⟨rfl, rfl⟩
  exact rest

theorem corres_modify {R : PUnit → PUnit → σ → τ → Prop} {f : σ → σ} {g : τ → τ} (h : R ⟨⟩ ⟨⟩ (f s) (g t)) :
    Corres (modify f : Prog ε σ PUnit) (modify g : Prog ε τ PUnit) R s t :=
  (wp_modify _).2 ((wp_modify _).2 h)

theorem corres_check {p q : Prop} [Decidable p] [Decidable q] {e : ε} {R : Unit → Unit → σ → τ → Prop} (same : p ↔ q)
    (holds : q → R () () s t) : Corres (check p e : Prog ε σ Unit) (check q e : Prog ε τ Unit) R s t := by
  by_cases hq : q
  · rw [check, if_pos (same.2 hq), check, if_pos hq]
    exact corres_pure (holds hq)
  · rw [check, if_neg fun hp => hq (same.1 hp), check, if_neg hq]
    exact corres_throw e

/-- The same assertion on both sides. -/
theorem corres_check_bind {p q : Prop} [Decidable p] [Decidable q] {e : ε} {f : Unit → Prog ε σ α} {g : Unit → Prog ε τ β}
    (same : p ↔ q) (rest : q → Corres (f ()) (g ()) R s t) : Corres (check p e >>= f) (check q e >>= g) R s t := by
  refine corres_bind (corres_check (R := fun _ _ u v => s = u ∧ t = v ∧ q) same fun hq => ⟨rfl, rfl, hq⟩) ?_
  rintro _ _ _ _ ⟨rfl, rfl, hq⟩
  exact rest hq

theorem corres_ite {p q : Prop} [Decidable p] [Decidable q] {c' : Prog ε σ α} {d' : Prog ε τ β} (same : p ↔ q)
    (holds : q → Corres c d R s t) (fails : ¬ q → Corres c' d' R s t) :
    Corres (if p then c else c') (if q then d else d') R s t := by
  by_cases hq : q
  · rw [if_pos (same.2 hq), if_pos hq]
    exact holds hq
  · rw [if_neg fun hp => hq (same.1 hp), if_neg hq]
    exact fails hq

/-- Two loops of as many turns; each turn can use how far the second loop has come. -/
theorem corres_forRange {n : Nat} {body : Nat → Prog ε σ Unit} {body' : Nat → Prog ε τ Unit} (I : Nat → σ → τ → Prop)
    (start : I 0 s t)
    (turn : ∀ k u v, k < n → I k u v → forRange k body' t = .ok ((), v) →
      Corres (body k) (body' k) (fun _ _ u' v' => I (k + 1) u' v') u v) :
    Corres (forRange n body) (forRange n body') (fun _ _ u v => I n u v) s t := by
  induction n with
  | zero => exact corres_pure start
  | succ n ih =>
    have turns := ih fun k u v hk => turn k u v (Nat.lt_succ_of_lt hk)
    refine corres_bind (turns.ensures (wp_trivial _)) ?_
    rintro _ _ u v ⟨inv, -, run⟩
    exact turn n u v (Nat.lt_succ_self n) inv run

end Zhenxiang.Lib
