import GraduateOS.Library.CStrings
import GraduateOS.Library.Sorting

namespace GraduateOS.Library.Strcmp

open CStrings Sorting

/-- The difference of the first two bytes that differ; behind a text stands its NUL. -/
def compareBytes : List UInt8 → List UInt8 → Int
  | [], [] => 0
  | [], c :: _ => -c.toNat
  | c :: _, [] => c.toNat
  | a :: s, b :: t => if a = b then compareBytes s t else (a.toNat : Int) - b.toNat

def strcmp (s t : CString) : Int := compareBytes s.text t.text

variable {s t u : List UInt8} {c : UInt8}

theorem byte_pos (h : 0 ∉ c :: s) : 0 < c.toNat := by
  refine Nat.pos_of_ne_zero (fun hc => h ?_)
  rw [show c = 0 from UInt8.toNat_inj.mp hc]
  exact List.mem_cons_self

theorem nul_tail (h : 0 ∉ c :: s) : 0 ∉ s := fun hs => h (List.mem_cons_of_mem c hs)

theorem compareBytes_swap (s t : List UInt8) : compareBytes t s = -compareBytes s t := by
  induction s generalizing t with
  | nil => cases t <;> simp [compareBytes]
  | cons a s ih =>
      cases t with
      | nil => rfl
      | cons b t =>
          simp only [compareBytes, ih t]
          by_cases hab : a = b
          · rw [if_pos hab, if_pos hab.symm]
          · rw [if_neg hab, if_neg (Ne.symm hab)]
            omega

theorem compareBytes_trans (hs : 0 ∉ s) (ht : 0 ∉ t) (hst : compareBytes s t ≤ 0) (htu : compareBytes t u ≤ 0) :
    compareBytes s u ≤ 0 := by
  induction s generalizing t u with
  | nil =>
      cases u with
      | nil => exact Int.le_refl 0
      | cons c u => simp only [compareBytes]; omega
  | cons a s ih =>
      have ha := byte_pos hs
      cases t with
      | nil => simp only [compareBytes] at hst; omega
      | cons b t =>
          have hb := byte_pos ht
          cases u with
          | nil => simp only [compareBytes] at htu; omega
          | cons c u =>
              simp only [compareBytes] at hst htu ⊢
              by_cases hab : a = b
              · by_cases hbc : b = c
                · rw [if_pos hab] at hst
                  rw [if_pos hbc] at htu
                  rw [if_pos (hab.trans hbc)]
                  exact ih (nul_tail hs) (nul_tail ht) hst htu
                · rw [hab, if_neg hbc]
                  rwa [if_neg hbc] at htu
              · rw [if_neg hab] at hst
                have hne : a.toNat ≠ b.toNat := fun h => hab (UInt8.toNat_inj.mp h)
                have hle : b.toNat ≤ c.toNat := by
                  by_cases hbc : b = c
                  · exact Nat.le_of_eq (congrArg UInt8.toNat hbc)
                  · rw [if_neg hbc] at htu
                    omega
                rw [if_neg (fun hac => by rw [hac] at hne hst; omega)]
                omega

theorem compareBytes_eq_zero (hs : 0 ∉ s) (ht : 0 ∉ t) : compareBytes s t = 0 ↔ s = t := by
  induction s generalizing t with
  | nil =>
      cases t with
      | nil => simp [compareBytes]
      | cons b t =>
          have hb := byte_pos ht
          simp only [compareBytes, reduceCtorEq, iff_false]
          omega
  | cons a s ih =>
      cases t with
      | nil =>
          have ha := byte_pos hs
          simp only [compareBytes, reduceCtorEq, iff_false]
          omega
      | cons b t =>
          rw [compareBytes, List.cons.injEq]
          by_cases hab : a = b
          · rw [if_pos hab, ih (nul_tail hs) (nul_tail ht)]
            simp [hab]
          · have hne : a.toNat ≠ b.toNat := fun h => hab (UInt8.toNat_inj.mp h)
            rw [if_neg hab]
            simp only [hab, false_and, iff_false]
            omega

theorem strcmp_threeWay : ThreeWay strcmp := by
  constructor
  · intro s t
    rw [strcmp, strcmp, compareBytes_swap t.text s.text]
    omega
  · exact fun s t u => compareBytes_trans s.nul t.nul

theorem strcmp_eq_zero (s t : CString) : strcmp s t = 0 ↔ s = t := by
  rw [strcmp, compareBytes_eq_zero s.nul t.nul]
  cases s
  cases t
  simp

end GraduateOS.Library.Strcmp
