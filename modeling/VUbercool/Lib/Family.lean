import Mathlib.Algebra.BigOperators.Fin
import Mathlib.Algebra.BigOperators.Group.Finset.Piecewise

/-!
# Families of machines

The states of machines that run side by side are a function `s : ι → σ`, and a step changes one of them.

* `forall_update`, `forall_update₂`: what holds of each machine holds after the step of one.
* `sum_update_add`: what the step of one machine does to a total.
-/

namespace Family

variable {ι σ : Type} [DecidableEq ι] {s : ι → σ} {p : ι} {x : σ}

theorem forall_update {P : ι → σ → Prop} (h : ∀ q, P q (s q)) (hx : P p x) (q : ι) :
    P q (Function.update s p x q) := by
  by_cases hq : q = p
  · subst hq
    rwa [Function.update_self]
  · rw [Function.update_of_ne hq]
    exact h q

/-- Two families that step together. -/
theorem forall_update₂ {τ : Type} {t : ι → τ} {y : τ} {P : σ → τ → Prop} (h : ∀ q, P (s q) (t q))
    (hxy : P x y) (q : ι) : P (Function.update s p x q) (Function.update t p y q) := by
  by_cases hq : q = p
  · subst hq
    rwa [Function.update_self, Function.update_self]
  · rw [Function.update_of_ne hq, Function.update_of_ne hq]
    exact h q

/-- **A step changes a total by as much as it changes its own machine.** -/
theorem sum_update_add [Fintype ι] (f : σ → ℕ) (s : ι → σ) (p : ι) (x : σ) :
    ∑ q, f (Function.update s p x q) + f (s p) = ∑ q, f (s q) + f x := by
  have hrest : ∑ q ∈ {p}ᶜ, f (Function.update s p x q) = ∑ q ∈ {p}ᶜ, f (s q) := by
    refine Finset.sum_congr rfl fun q hq => ?_
    rw [Function.update_of_ne (by simpa using hq)]
  rw [Fintype.sum_eq_add_sum_compl p, Fintype.sum_eq_add_sum_compl p fun q => f (s q), hrest,
    Function.update_self]
  omega

theorem sum_update_of_eq [Fintype ι] {f : σ → ℕ} (h : f x = f (s p)) :
    ∑ q, f (Function.update s p x q) = ∑ q, f (s q) := by
  have := sum_update_add f s p x
  omega

end Family
