import Mathlib.Algebra.Ring.Nat
import Mathlib.Data.List.Flatten
import Mathlib.Data.List.Perm.Basic

/-!
# One entry of a list is replaced

Systems keep their parts in lists, and a step of a part replaces one entry.
What holds of every entry, what is collected from all of them and what is added
up over them follows from the entry that goes and the one that comes.

Nothing here mentions a particular system.
-/

namespace ZeroMQ.Lib

variable {β γ : Type} {f : β → List γ} {l : List β} {i j : Nat} {x y d : β}

theorem forall_mem_set {I : β → Prop} (h : ∀ z ∈ l, I z) (hx : I x) :
    ∀ z ∈ l.set i x, I z := by
  intro z hz
  rcases List.mem_or_eq_of_mem_set hz with hz | rfl
  · exact h z hz
  · exact hx

theorem sum_map_set (g : β → Nat) (x : β) (hi : l[i]? = some y) :
    ((l.set i x).map g).sum + g y = (l.map g).sum + g x := by
  induction l generalizing i with
  | nil => simp at hi
  | cons z l ih =>
      cases i with
      | zero =>
          simp only [List.getElem?_cons_zero, Option.some.injEq] at hi
          simp only [hi, List.set_cons_zero, List.map_cons, List.sum_cons]
          omega
      | succ i =>
          have := ih (by simpa using hi)
          simp only [List.set_cons_succ, List.map_cons, List.sum_cons]
          omega

/-- The entry at `i` apart from the others. -/
theorem flatMap_perm_eraseIdx (hi : l[i]? = some x) :
    (l.flatMap f).Perm (f x ++ (l.eraseIdx i).flatMap f) := by
  obtain ⟨hlt, rfl⟩ := List.getElem?_eq_some_iff.mp hi
  have hp := (List.getElem_cons_eraseIdx_perm hlt).symm.flatMap_right f
  simpa using hp

theorem flatMap_set_perm (hi : i < l.length) (x : β) :
    ((l.set i x).flatMap f).Perm (f x ++ (l.eraseIdx i).flatMap f) := by
  have hp := (List.set_perm_cons_eraseIdx hi x).flatMap_right f
  simpa using hp

/-- The entry at `i` apart from the others, its place taken by one from which
nothing is collected. -/
theorem flatMap_perm_blank (hi : l[i]? = some x) (hd : f d = []) :
    (l.flatMap f).Perm (f x ++ (l.set i d).flatMap f) := by
  have hlt := (List.getElem?_eq_some_iff.mp hi).1
  refine (flatMap_perm_eraseIdx hi).trans (.append_left _ ?_)
  have hp := flatMap_set_perm (f := f) hlt d
  rw [hd, List.nil_append] at hp
  exact hp.symm

theorem flatMap_perm_blank_two (hi : l[i]? = some x) (hj : l[j]? = some y)
    (hne : i ≠ j) (hd : f d = []) :
    (l.flatMap f).Perm
      (f x ++ (f y ++ ((l.set i d).set j d).flatMap f)) := by
  have hj' : (l.set i d)[j]? = some y := by
    rw [List.getElem?_set_ne hne, hj]
  exact (flatMap_perm_blank hi hd).trans
    (.append_left _ (flatMap_perm_blank hj' hd))

end ZeroMQ.Lib
