import GraduateOS.Library.Sorting

namespace GraduateOS.Library.Bisections

open Sorting

variable {α κ : Type}

def Graded (cmp : α → Int) (xs : List α) : Prop :=
  xs.Pairwise fun x y => (cmp x < 0 → cmp y < 0) ∧ (0 < cmp y → 0 < cmp x)

structure Window (cmp : α → Int) (xs : List α) (lo hi : Int) : Prop where
  first : 0 ≤ lo
  last : hi < xs.length
  ordered : lo ≤ hi + 1
  below : ∀ i : Nat, (i : Int) < lo → ∀ x, xs[i]? = some x → 0 < cmp x
  above : ∀ i : Nat, hi < i → ∀ x, xs[i]? = some x → cmp x < 0

variable {cmp : α → Int} {xs : List α} {lo hi : Int} {m : Nat} {x : α}

theorem graded_of_sorted {cmp : κ → κ → Int} (h : ThreeWay cmp) (f : α → κ) (key : κ)
    (hsorted : Sorted (fun a b => cmp (f a) (f b)) xs) : Graded (fun x => cmp key (f x)) xs := by
  refine hsorted.imp (fun {x y} hxy => ⟨fun hx => h.lt_of_lt_of_le hx hxy, fun hy => ?_⟩)
  rw [← h.swap] at hy ⊢
  exact h.lt_of_le_of_lt hxy hy

theorem Graded.get (h : Graded cmp xs) {i j : Nat} (hij : i < j) {x y : α} (hi : xs[i]? = some x)
    (hj : xs[j]? = some y) : (cmp x < 0 → cmp y < 0) ∧ (0 < cmp y → 0 < cmp x) := by
  obtain ⟨hilt, rfl⟩ := List.getElem?_eq_some_iff.mp hi
  obtain ⟨hjlt, rfl⟩ := List.getElem?_eq_some_iff.mp hj
  exact List.pairwise_iff_getElem.mp h i j hilt hjlt hij

theorem window_all (cmp : α → Int) (xs : List α) : Window cmp xs 0 (xs.length - 1) := by
  constructor
  · exact Int.le_refl 0
  · omega
  · omega
  · intro i hi
    omega
  · intro i hi x hx
    obtain ⟨hlt, -⟩ := List.getElem?_eq_some_iff.mp hx
    omega

theorem Window.lower (w : Window cmp xs lo hi) (h : Graded cmp xs) (hx : xs[m]? = some x) (hcmp : cmp x < 0)
    (hlo : lo ≤ m) : Window cmp xs lo (m - 1) := by
  obtain ⟨hlt, -⟩ := List.getElem?_eq_some_iff.mp hx
  refine ⟨w.first, by omega, by omega, w.below, fun i hi' y hy => ?_⟩
  rcases Nat.lt_or_eq_of_le (show m ≤ i by omega) with hlt | rfl
  · exact (h.get hlt hx hy).1 hcmp
  · rw [hx] at hy
    cases hy
    exact hcmp

theorem Window.upper (w : Window cmp xs lo hi) (h : Graded cmp xs) (hx : xs[m]? = some x) (hcmp : 0 < cmp x)
    (hhi : (m : Int) ≤ hi) : Window cmp xs (m + 1) hi := by
  refine ⟨by omega, w.last, by omega, fun i hi' y hy => ?_, w.above⟩
  rcases Nat.lt_or_eq_of_le (show i ≤ m by omega) with hlt | rfl
  · exact (h.get hlt hy hx).2 hcmp
  · rw [hx] at hy
    cases hy
    exact hcmp

theorem Window.empty (w : Window cmp xs lo hi) (h : hi < lo) : ∀ x ∈ xs, cmp x ≠ 0 := by
  intro x hx
  obtain ⟨i, hi'⟩ := List.mem_iff_getElem?.mp hx
  by_cases hlo : (i : Int) < lo
  · have hpos := w.below i hlo x hi'
    omega
  · have hneg := w.above i (by omega) x hi'
    omega

end GraduateOS.Library.Bisections
