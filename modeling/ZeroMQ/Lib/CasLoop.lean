import Mathlib.Logic.Function.Basic
import ZeroMQ.Lib.Run

/-!
# Operations on a shared word as loops of compare-and-swap

A thread reads the word, computes what to store, and stores it if the word is
still the same; otherwise it starts again.  `CasLoop.step` is a system in which
some of the steps are such loops, whose reads and attempts are steps of their
own.

## Main results

* `CasLoop.run_base` — the system does nothing it would not do with atomic
  operations.
* `CasLoop.failures_le` — a thread fails at most as often as the word changes.
-/

namespace ZeroMQ.Lib

/-- A system with a word.  `loop` is the thread whose step is an operation done
in a loop; `attempt` is that step when it is computed from a given value. -/
structure CasSystem (σ α ι V : Type) where
  step : σ → α → Option σ
  word : σ → V
  loop : σ → α → Option ι
  attempt : σ → V → α → Option σ
  attempt_word : ∀ s a, attempt s (word s) a = step s a

/-- The values that threads have read, each with the number of `changes` of the
word until then, and their failed attempts. -/
structure CasLoop (σ ι V : Type) where
  base : σ
  oldval : ι → Option (V × Nat)
  changes : Nat
  failures : ι → Nat

namespace CasLoop

variable {σ α ι V : Type} [DecidableEq ι] [DecidableEq V]
  {sys : CasSystem σ α ι V} {s s' : CasLoop σ ι V} {a : α} {as : List α}

def start (s : σ) : CasLoop σ ι V := ⟨s, fun _ => none, 0, fun _ => 0⟩

def setBase (sys : CasSystem σ α ι V) (s : CasLoop σ ι V) (b : σ) :
    CasLoop σ ι V :=
  { s with
    base := b
    changes := s.changes + if sys.word b = sys.word s.base then 0 else 1 }

/-- Where a failed compare-and-swap gives the value it has found, the next read
follows it at once. -/
def step (sys : CasSystem σ α ι V) (s : CasLoop σ ι V) (a : α) :
    Option (CasLoop σ ι V) :=
  match sys.loop s.base a with
  | none => (sys.step s.base a).map (s.setBase sys)
  | some i =>
      let set v := { s with oldval := Function.update s.oldval i v }
      match s.oldval i with
      | none => some (set (some (sys.word s.base, s.changes)))
      | some (old, _) =>
          if sys.word s.base = old then
            (sys.attempt s.base old a).map ((set none).setBase sys)
          else
            some
              { set none with
                failures := Function.update s.failures i (s.failures i + 1) }

/-- An attempt that succeeds is the operation itself; the other steps of a loop
leave the system as it is. -/
theorem base_step (hs : step sys s a = some s') :
    s'.base = s.base ∨ sys.step s.base a = some s'.base := by
  grind [step, setBase, sys.attempt_word, Option.map_eq_some_iff]

/-- The steps that are left are a run of the system. -/
theorem run_base (h : Run (step sys) Any s as s') :
    ∃ bs, bs.Sublist as ∧ Run sys.step Any s.base bs s'.base := by
  induction h with
  | nil s => exact ⟨[], .slnil, .nil _⟩
  | cons _ hs _ ih =>
      obtain ⟨bs, hsub, hrun⟩ := ih
      rcases base_step hs with hsame | hstep
      · exact ⟨bs, hsub.cons _, hsame ▸ hrun⟩
      · exact ⟨_ :: bs, hsub.cons_cons _, .cons trivial hstep hrun⟩

/-- A value that is out of date was read before the last change, and after the
thread's last failure. -/
def Fair (sys : CasSystem σ α ι V) (i : ι) (s : CasLoop σ ι V) : Prop :=
  s.failures i ≤ s.changes ∧ ∀ old t, s.oldval i = some (old, t) →
    s.failures i ≤ t ∧ t ≤ s.changes ∧ (t = s.changes → old = sys.word s.base)

theorem Fair.step {i : ι} (h : Fair sys i s)
    (hs : CasLoop.step sys s a = some s') : Fair sys i s' := by
  unfold CasLoop.step at hs
  split at hs
  · obtain ⟨b, _, rfl⟩ := Option.map_eq_some_iff.mp hs
    simp only [Fair, setBase] at h ⊢
    grind
  · dsimp only at hs
    split at hs
    · cases hs
      simp only [Fair, Function.update_apply] at h ⊢
      grind
    · split at hs
      · obtain ⟨b, _, rfl⟩ := Option.map_eq_some_iff.mp hs
        simp only [Fair, setBase, Function.update_apply] at h ⊢
        grind
      · cases hs
        simp only [Fair, Function.update_apply] at h ⊢
        grind

theorem failures_le {b : σ} (h : Run (CasLoop.step sys) Any (start b) as s)
    (i : ι) : s.failures i ≤ s.changes := by
  have hstart : Fair sys i (start b) := ⟨Nat.le_refl _, by simp [start]⟩
  exact (h.invariant (fun _ _ _ hI _ hs => Fair.step hI hs) hstart).1

end CasLoop

end ZeroMQ.Lib
