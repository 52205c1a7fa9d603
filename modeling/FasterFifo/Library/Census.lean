import Mathlib.Algebra.BigOperators.Pi
import Mathlib.Algebra.Order.BigOperators.Group.Finset

/-! The number of members of a finite population whose state satisfies a predicate. -/
namespace Census
variable {T φ : Type*} [Fintype T]

def census (p : φ → Bool) (f : T → φ) : ℕ := ∑ t, (p (f t)).toNat

theorem census_update [DecidableEq T] (p : φ → Bool) (f : T → φ) (t : T) (x : φ) :
    census p (Function.update f t x) + (p (f t)).toNat = census p f + (p x).toNat := by
  have hf : (fun u => (p (Function.update f t x u)).toNat) =
      Function.update (fun u => (p (f u)).toNat) t (p x).toNat := by
    funext u
    by_cases h : u = t
    · subst h; simp
    · simp [h]
  rw [census, hf, Finset.sum_update_of_mem (Finset.mem_univ t), census,
    Finset.sum_eq_add_sum_sdiff_singleton_of_mem (Finset.mem_univ t)]
  omega

theorem census_pos_iff (p : φ → Bool) (f : T → φ) : 0 < census p f ↔ ∃ t, p (f t) = true := by
  rw [census, Finset.sum_pos_iff]
  simp only [Finset.mem_univ, true_and, Nat.pos_iff_ne_zero, ne_eq, Bool.toNat_eq_zero,
    Bool.not_eq_false]

theorem census_eq_card (p : φ → Bool) (f : T → φ) :
    census p f = (Finset.univ.filter fun t => p (f t) = true).card := by
  rw [census, Finset.card_filter]
  refine Finset.sum_congr rfl fun t _ => ?_
  cases p (f t) <;> rfl

end Census
