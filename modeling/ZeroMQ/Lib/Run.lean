/-!
# Finite runs of a labelled step function

A system of several threads is given by one partial step function: a label
names the thread, the operation and every choice the environment makes, and
`none` means that the label is not enabled.  An interleaving is then a list of
labels, and a property of all interleavings is a property of all `Run`s.

A system that is part of another one sees the runs of the whole through a view
of their labels: each step of the whole is at most one step of the part.

`Run` carries a side condition `ok` on the steps taken.  It states what the
callers of a component promise (or the exact condition under which the
component behaves); the unrestricted runs are those with `ok` always true.

Nothing here mentions a particular system.
-/

namespace ZeroMQ.Lib

variable {σ α : Type}

/-- `Run step ok s as t`: from `s`, the labels `as` are enabled one after the
other and lead to `t`, and `ok` holds of every state and label on the way. -/
inductive Run (step : σ → α → Option σ) (ok : σ → α → Prop) :
    σ → List α → σ → Prop where
  | nil (s : σ) : Run step ok s [] s
  | cons {s s' t : σ} {a : α} {as : List α} (hok : ok s a)
      (hstep : step s a = some s') (rest : Run step ok s' as t) :
      Run step ok s (a :: as) t

/-- The side condition of an unrestricted run. -/
def Any (_ : σ) (_ : α) : Prop := True

instance (s : σ) (a : α) : Decidable (Any s a) := .isTrue trivial

variable {step : σ → α → Option σ} {ok ok' : σ → α → Prop} {as : List α}

/-- An invariant of every step is an invariant of every run. -/
theorem Run.invariant {I : σ → Prop}
    (hstep : ∀ s a s', I s → ok s a → step s a = some s' → I s') {s t : σ}
    (h : Run step ok s as t) (h0 : I s) : I t := by
  induction h with
  | nil s => exact h0
  | cons hok hs _ ih => exact ih (hstep _ _ _ h0 hok hs)

theorem Run.append {s t u : σ} {as bs : List α} (h : Run step ok s as t)
    (h' : Run step ok t bs u) : Run step ok s (as ++ bs) u := by
  induction h with
  | nil s => exact h'
  | cons hok hs _ ih => exact .cons hok hs (ih h')

theorem Run.snoc {s t u : σ} {a : α} (h : Run step ok s as t) (hok : ok t a)
    (hs : step t a = some u) : Run step ok s (as ++ [a]) u :=
  h.append (.cons hok hs (.nil u))

/-- A run of a concatenation passes through an intermediate state. -/
theorem Run.split {s u : σ} {as bs : List α} (h : Run step ok s (as ++ bs) u) :
    ∃ t, Run step ok s as t ∧ Run step ok t bs u := by
  induction as generalizing s with
  | nil => exact ⟨s, .nil s, h⟩
  | cons a as ih =>
      cases h with
      | cons hok hs rest =>
          obtain ⟨t, h1, h2⟩ := ih rest
          exact ⟨t, .cons hok hs h1, h2⟩

theorem Run.unique {s t u : σ} (h : Run step ok s as t)
    (h' : Run step ok' s as u) : t = u := by
  induction h with
  | nil s =>
      cases h'
      rfl
  | cons hok hs _ ih =>
      cases h' with
      | cons hok' hs' rest' =>
          rw [hs, Option.some.injEq] at hs'
          subst hs'
          exact ih rest'

/-- A run all of whose steps meet a further condition. -/
theorem Run.and {s t : σ} (h : Run step ok s as t)
    (hall : ∀ pre a u, pre ++ [a] <+: as → Run step ok s pre u → ok' u a) :
    Run step (fun s a => ok s a ∧ ok' s a) s as t := by
  induction h with
  | nil s => exact .nil s
  | @cons s s' t a as hok hs rest ih =>
      have hfirst : ok' s a :=
        hall [] a s (by simp) (.nil s)
      refine .cons ⟨hok, hfirst⟩ hs (ih ?_)
      intro pre b u hpre hrun
      exact hall (a :: pre) b u (by simpa using hpre) (.cons hok hs hrun)

theorem Run.mono (himp : ∀ s a, ok s a → ok' s a) {s t : σ}
    (h : Run step ok s as t) : Run step ok' s as t := by
  induction h with
  | nil s => exact .nil s
  | cons hok hs _ ih => exact .cons (himp _ _ hok) hs ih

/-- A property that a step keeps exactly if it meets a further condition, and
that never comes back, holds at the end of the runs of such steps. -/
theorem Run.iff_of_step {I P : σ → Prop}
    (hinv : ∀ s a s', I s → step s a = some s' → I s')
    (hstep : ∀ s a s', I s → step s a = some s' → (P s' ↔ P s ∧ ok' s a))
    {s t : σ} (h : Run step ok s as t) (hI : I s) :
    P t ↔ P s ∧ Run step ok' s as t := by
  induction h with
  | nil s => exact ⟨fun hP => ⟨hP, .nil s⟩, And.left⟩
  | cons hok hs _ ih =>
      rw [ih (hinv _ _ _ hI hs), hstep _ _ _ hI hs]
      constructor
      · rintro ⟨⟨hP, hok'⟩, hrun⟩
        exact ⟨hP, .cons hok' hs hrun⟩
      · rintro ⟨hP, hrun⟩
        cases hrun with
        | cons hok' hs' hrun =>
            rw [hs] at hs'
            cases hs'
            exact ⟨⟨hP, hok'⟩, hrun⟩

/-- Executable runs: the labels are taken in turn, and the run is abandoned at
the first one that is not enabled or not allowed. -/
def exec (step : σ → α → Option σ) (ok : σ → α → Prop)
    [∀ s a, Decidable (ok s a)] : σ → List α → Option σ
  | s, [] => some s
  | s, a :: as =>
      if ok s a then (step s a).bind fun s' => exec step ok s' as else none

theorem Run.of_exec [∀ s a, Decidable (ok s a)] {s t : σ}
    (h : exec step ok s as = some t) : Run step ok s as t := by
  induction as generalizing s with
  | nil =>
      simp only [exec, Option.some.injEq] at h
      exact h ▸ .nil s
  | cons a as ih =>
      rw [exec] at h
      split at h
      · next hok =>
          obtain ⟨s', hs, hrest⟩ := Option.bind_eq_some_iff.mp h
          exact .cons hok hs (ih hrest)
      · cases h

/-- A run to a state with a decidable property, found by execution, and what
follows there. -/
theorem Run.exists_of_exec {P Q : σ → Prop} [∀ s a, Decidable (ok s a)]
    [DecidablePred P] {s : σ}
    (h : (exec step ok s as).any (fun t => decide (P t)) = true)
    (hQ : ∀ t, Run step ok s as t → P t → Q t) :
    ∃ t, Run step ok s as t ∧ Q t := by
  obtain ⟨t, ht, hP⟩ := (Option.any_eq_true _ _).mp h
  exact ⟨t, .of_exec ht, hQ t (.of_exec ht) (of_decide_eq_true hP)⟩

theorem Run.of_exec_any {P : σ → Prop} [∀ s a, Decidable (ok s a)]
    [DecidablePred P] {s : σ}
    (h : (exec step ok s as).any (fun t => decide (P t)) = true) :
    ∃ t, Run step ok s as t ∧ P t :=
  Run.exists_of_exec h fun _ _ hP => hP

/-! ## Runs seen from a part of the system -/

section View

variable {τ β : Type} {step' : τ → β → Option τ} {view : σ → α → Option β}

/-- The labels that the part sees of a run. -/
def trace (step : σ → α → Option σ) (view : σ → α → Option β) :
    σ → List α → List β
  | _, [] => []
  | s, a :: as =>
      (view s a).toList ++
        (step s a).elim [] fun s' => trace step view s' as

/-- Forward simulation: if the part follows every step of the whole by what it
sees of it, it follows every run. -/
theorem Run.follows {R : σ → τ → Prop}
    (hstep : ∀ s a s' t, R s t → ok s a → step s a = some s' →
      ∃ t', Run step' Any t (view s a).toList t' ∧ R s' t')
    {s s' : σ} {t : τ} (h : Run step ok s as s') (hR : R s t) :
    ∃ t', Run step' Any t (trace step view s as) t' ∧ R s' t' := by
  induction h generalizing t with
  | nil s => exact ⟨t, .nil t, hR⟩
  | cons hok hs _ ih =>
      obtain ⟨t₁, hfirst, hR₁⟩ := hstep _ _ _ _ hR hok hs
      obtain ⟨t₂, hrest, hR₂⟩ := ih hR₁
      rw [trace, hs]
      exact ⟨t₂, hfirst.append hrest, hR₂⟩

end View

end ZeroMQ.Lib
