import Mathlib.Algebra.BigOperators.Group.Finset.Basic
import Mathlib.Algebra.BigOperators.Group.Finset.Piecewise
import Mathlib.Algebra.Order.BigOperators.Group.Finset
import Mathlib.Data.Fintype.Basic

namespace GraduateOS.Library.Totals

variable {P X : Type} [Fintype P]

def total (measure : X → Nat) (parties : P → X) : Nat := Finset.univ.sum fun p => measure (parties p)

variable {measure : X → Nat} {parties : P → X}

theorem total_pos (h : 0 < total measure parties) : ∃ p, 0 < measure (parties p) := by
  obtain ⟨p, _, hp⟩ := Finset.exists_ne_zero_of_sum_ne_zero (Nat.pos_iff_ne_zero.mp h)
  exact ⟨p, Nat.pos_of_ne_zero hp⟩

variable [DecidableEq P]

/-- One party trades its contribution for another one. -/
theorem total_update (measure : X → Nat) (parties : P → X) (p : P) (x : X) :
    total measure (Function.update parties p x) + measure (parties p) = total measure parties + measure x := by
  have hold := Finset.add_sum_erase Finset.univ (fun p => measure (parties p)) (Finset.mem_univ p)
  have hnew := Finset.add_sum_erase Finset.univ (fun q => measure (Function.update parties p x q))
    (Finset.mem_univ p)
  have hrest : ((Finset.univ.erase p).sum fun q => measure (Function.update parties p x q)) =
      (Finset.univ.erase p).sum fun q => measure (parties q) :=
    Finset.sum_congr rfl (fun q hq => by rw [Function.update_of_ne (Finset.ne_of_mem_erase hq)])
  simp only [Function.update_self, hrest] at hnew
  rw [total, total]
  omega

end GraduateOS.Library.Totals
