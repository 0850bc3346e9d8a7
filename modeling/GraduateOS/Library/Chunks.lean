import Mathlib.Data.List.Induction

namespace GraduateOS.Library.Chunks

variable {α : Type}

/-- The usual copying loop: read at most `size` elements at offset `done` until
everything is read. Each chunk comes with the length that was asked for. -/
def readChunks (data : List α) : Nat → Nat → Nat → List (Nat × List α)
  | 0, _, _ => []
  | fuel + 1, size, done =>
      if done < data.length then
        let size := if data.length - done < size then data.length - done else size
        (size, (data.drop done).take size) :: readChunks data fuel size (done + size)
      else []

/-- With one unit of fuel for each element left, the loop ends by itself and
its chunks are exactly what was left to read. -/
theorem readChunks_flatten (data : List α) (fuel size done : Nat) (hs : 0 < size)
    (hf : data.length ≤ done + fuel) :
    ((readChunks data fuel size done).map Prod.snd).flatten = data.drop done := by
  induction fuel generalizing size done with
  | zero => rw [readChunks, List.drop_eq_nil_of_le (by omega)]; rfl
  | succ fuel ih =>
      rw [readChunks]
      split
      next hd =>
        have hr : 0 < if data.length - done < size then data.length - done else size := by
          split <;> omega
        generalize (if data.length - done < size then data.length - done else size) = r at hr
        simp only [List.map_cons, List.flatten_cons]
        rw [ih r _ hr (by omega), ← List.drop_drop, List.take_append_drop]
      next hd => simp [List.drop_eq_nil_of_le (Nat.not_lt.mp hd)]

theorem readChunks_sizes (data : List α) (fuel size done : Nat) (hs : 0 < size)
    (p : Nat × List α) (hp : p ∈ readChunks data fuel size done) :
    p.1 = p.2.length ∧ 0 < p.1 ∧ p.1 ≤ size := by
  induction fuel generalizing size done with
  | zero => cases hp
  | succ fuel ih =>
      rw [readChunks] at hp
      split at hp
      next hd =>
        by_cases hl : data.length - done < size
        · simp only [if_pos hl, List.mem_cons] at hp
          rcases hp with rfl | hp
          · simp; omega
          · have h := ih (data.length - done) _ (by omega) hp
            omega
        · simp only [if_neg hl, List.mem_cons] at hp
          rcases hp with rfl | hp
          · simp; omega
          · exact ih size _ hs hp
      next hd => cases hp

/-- A size that the first step cuts down may be cut down before. -/
theorem readChunks_cut (data : List α) (fuel size done : Nat) :
    readChunks data fuel (if data.length - done < size then data.length - done else size) done =
      readChunks data fuel size done := by
  cases fuel with
  | zero => rfl
  | succ fuel =>
      by_cases hl : data.length - done < size
      · rw [if_pos hl, readChunks, readChunks, if_pos hl, if_neg (Nat.lt_irrefl _)]
      · rw [if_neg hl]

theorem readChunks_length (data : List α) (fuel size done : Nat) (hs : 0 < size)
    (hf : data.length ≤ done + fuel) :
    (readChunks data fuel size done).length = (data.length - done + (size - 1)) / size := by
  induction fuel generalizing done with
  | zero =>
      have hnone : data.length - done = 0 := by omega
      rw [hnone, Nat.zero_add, Nat.div_eq_of_lt (by omega)]
      rfl
  | succ fuel ih =>
      rw [readChunks]
      by_cases hd : done < data.length
      · rw [if_pos hd]
        by_cases hl : data.length - done < size
        · have hlast : data.length - done + (size - 1) = data.length - done - 1 + size := by omega
          have hend : readChunks data fuel (data.length - done) (done + (data.length - done)) = [] := by
            cases fuel with
            | zero => rfl
            | succ fuel => rw [readChunks, if_neg (by omega)]
          rw [if_pos hl, List.length_cons, hend, hlast, Nat.add_div_right _ hs, Nat.div_eq_of_lt (by omega)]
          rfl
        · have hrest : data.length - done + (size - 1) = data.length - (done + size) + (size - 1) + size := by omega
          rw [if_neg hl, List.length_cons, ih _ (by omega), hrest, Nat.add_div_right _ hs]
      · have hnone : data.length - done = 0 := by omega
        rw [if_neg hd, hnone, Nat.zero_add, Nat.div_eq_of_lt (by omega)]
        rfl

/-- The first `n` chunks are the first `n * size` elements. -/
theorem readChunks_take (data : List α) (fuel size done n : Nat) (hs : 0 < size) (hf : data.length ≤ done + fuel) :
    (((readChunks data fuel size done).take n).map Prod.snd).flatten = (data.drop done).take (n * size) := by
  induction fuel generalizing done n with
  | zero =>
      rw [List.drop_eq_nil_of_le (by omega)]
      simp [readChunks]
  | succ fuel ih =>
      rw [readChunks]
      by_cases hd : done < data.length
      · rw [if_pos hd]
        cases n with
        | zero => simp
        | succ n =>
            rw [List.take_succ_cons, List.map_cons, List.flatten_cons]
            by_cases hl : data.length - done < size
            · have hend : readChunks data fuel (data.length - done) (done + (data.length - done)) = [] := by
                cases fuel with
                | zero => rfl
                | succ fuel => rw [readChunks, if_neg (by omega)]
              have hall : (data.drop done).length ≤ (n + 1) * size := by
                rw [List.length_drop, Nat.succ_mul]
                omega
              rw [if_pos hl, hend, List.take_of_length_le hall, List.take_nil, List.map_nil, List.flatten_nil,
                List.append_nil]
              exact List.take_of_length_le (Nat.le_of_eq List.length_drop)
            · rw [if_neg hl, ih _ _ (by omega), ← List.drop_drop, Nat.succ_mul, Nat.add_comm, List.take_add]
      · rw [if_neg hd, List.drop_eq_nil_of_le (by omega)]
        simp

theorem readChunks_ne_nil (data : List α) (fuel size done : Nat) (hf : 0 < fuel)
    (hd : done < data.length) : readChunks data fuel size done ≠ [] := by
  cases fuel with
  | zero => omega
  | succ fuel => simp [readChunks, hd]

structure Splits (size : Nat) (stream : List α) (pieces : List (List α)) : Prop where
  flatten : pieces.flatten = stream
  sizes : ∀ piece ∈ pieces, 0 < piece.length ∧ piece.length ≤ size

theorem splits_cons {size : Nat} {stream piece : List α} {pieces : List (List α)}
    (h0 : 0 < piece.length) (h1 : piece.length ≤ size) (h : Splits size stream pieces) :
    Splits size (piece ++ stream) (piece :: pieces) := by
  constructor
  · rw [List.flatten_cons, h.flatten]
  · intro p hp
    rcases List.mem_cons.mp hp with rfl | hp
    · exact ⟨h0, h1⟩
    · exact h.sizes p hp

theorem Splits.tail {size : Nat} {stream piece : List α} {pieces : List (List α)}
    (h : Splits size stream (piece :: pieces)) : Splits size pieces.flatten pieces :=
  ⟨rfl, fun p hp => h.sizes p (List.mem_cons_of_mem piece hp)⟩

end GraduateOS.Library.Chunks
