import Mathlib.Data.List.Basic

namespace GraduateOS.Library.Sorting

variable {α κ : Type}

/-- A comparison function in the sense of `qsort`: its sign is that of an order. -/
structure ThreeWay (cmp : α → α → Int) : Prop where
  swap : ∀ a b, cmp a b < 0 ↔ 0 < cmp b a
  trans : ∀ a b c, cmp a b ≤ 0 → cmp b c ≤ 0 → cmp a c ≤ 0

def Sorted (cmp : α → α → Int) (xs : List α) : Prop := xs.Pairwise fun a b => cmp a b ≤ 0

/-- What `qsort` promises. Elements that compare as equal come in any order. -/
structure Qsort (α : Type) where
  sort : (α → α → Int) → List α → List α
  perm : ∀ cmp xs, (sort cmp xs).Perm xs
  sorted : ∀ cmp xs, ThreeWay cmp → Sorted cmp (sort cmp xs)

variable {cmp : α → α → Int} {a b c : α}

theorem ThreeWay.total (h : ThreeWay cmp) (a b : α) : cmp a b ≤ 0 ∨ cmp b a ≤ 0 := by
  have hswap := h.swap a b
  omega

theorem ThreeWay.lt_of_lt_of_le (h : ThreeWay cmp) (hab : cmp a b < 0) (hbc : cmp b c ≤ 0) : cmp a c < 0 := by
  by_contra hac
  have hca : cmp c a ≤ 0 := by
    have hswap := h.swap a c
    omega
  have hba := h.trans b c a hbc hca
  have hswap := h.swap a b
  omega

theorem ThreeWay.lt_of_le_of_lt (h : ThreeWay cmp) (hab : cmp a b ≤ 0) (hbc : cmp b c < 0) : cmp a c < 0 := by
  by_contra hac
  have hca : cmp c a ≤ 0 := by
    have hswap := h.swap a c
    omega
  have hcb := h.trans c a b hca hab
  have hswap := h.swap b c
  omega

theorem ThreeWay.on {cmp : κ → κ → Int} (h : ThreeWay cmp) (f : α → κ) : ThreeWay fun a b => cmp (f a) (f b) :=
  ⟨fun a b => h.swap (f a) (f b), fun a b c => h.trans (f a) (f b) (f c)⟩

def Qsort.merge (α : Type) : Qsort α where
  sort cmp xs := xs.mergeSort fun a b => cmp a b ≤ 0
  perm _ xs := List.mergeSort_perm xs _
  sorted cmp xs h := by
    have hsorted : (xs.mergeSort fun a b => cmp a b ≤ 0).Pairwise fun a b => decide (cmp a b ≤ 0) = true :=
      List.pairwise_mergeSort
        (fun a b c hab hbc => by simp only [decide_eq_true_eq] at *; exact h.trans a b c hab hbc)
        (fun a b => by simpa using h.total a b) xs
    simpa [Sorted] using hsorted

end GraduateOS.Library.Sorting
