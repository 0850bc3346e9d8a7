import GraduateOS.Gflib.RequestLoops

namespace GraduateOS.Gflib.RequestBounds

open Library.CStrings Messages Requests RequestLoops

/-- The indexes of `recvBuffer` that one round writes: `recv`, and the terminator. -/
def recvIndexes (r : Received) : List Int := (List.range r.data.length).map Int.ofNat ++ [r.count]

/-- The indexes of `header` that `strcat` writes: the text before the first NUL, and the NUL. -/
def headerIndexes (header : Memory) (r : Received) : List Int :=
  match cstr header, cstr (r.data ++ [0]) with
  | some d, some s => (List.range (s.length + 1)).map fun i : Nat => (d.length + i : Int)
  | _, _ => []

def writes : List Received → Memory → Int → List Int
  | [], _, _ => []
  | r :: rs, header, sum =>
      recvIndexes r ++ headerIndexes header r ++
        match appendReceived r header with
        | none => []
        | some header =>
            if (cstr header).bind (strstr · headerEnd) = none ∧ sum + r.count < maxRequestLen then
              writes rs header (sum + r.count)
            else []

def Inside (i : Int) : Prop := 0 ≤ i ∧ i < maxRequestLen

def InBounds (pieces : List (List UInt8)) : Prop :=
  ∀ i ∈ writes (pieces.map .bytes) (List.replicate maxRequestLen 0) 0, Inside i

variable {pieces before rest : List (List UInt8)} {piece : List UInt8} {header : Memory} {sum : Int}

theorem range_inside (base n : Nat) :
    (∀ i ∈ (List.range (n + 1)).map (fun i : Nat => (base + i : Int)), Inside i) ↔ base + n < maxRequestLen := by
  simp only [List.mem_map, List.mem_range, forall_exists_index, and_imp, forall_apply_eq_imp_iff₂, Inside]
  constructor
  · intro h
    have hn := h n (Nat.lt_succ_self n)
    omega
  · intro h i hi
    omega

theorem recvIndexes_inside (piece : List UInt8) :
    (∀ i ∈ recvIndexes (.bytes piece), Inside i) ↔ piece.length < maxRequestLen := by
  have hrange : recvIndexes (.bytes piece) =
      (List.range (piece.length + 1)).map fun i : Nat => ((0 : Nat) + i : Int) := by
    rw [recvIndexes, Received.data, Received.count, List.range_succ, List.map_append]
    simp
  rw [hrange, range_inside, Nat.zero_add]

theorem headerIndexes_inside (hh : Holds header before) (piece : List UInt8) :
    (∀ i ∈ headerIndexes header (.bytes piece), Inside i) ↔ (text (before ++ [piece])).length < maxRequestLen := by
  obtain ⟨mem, hcut⟩ := cut_terminated piece []
  have hstr : cstr (piece ++ [0]) = some (cut piece) := by
    rw [hcut]
    exact cstr_terminated (cut_nul piece) mem
  simp only [headerIndexes, hh.2, Received.data, hstr, range_inside]
  rw [text_append, text_singleton, List.length_append]

theorem round_inside (hh : Holds header before) (piece : List UInt8) :
    (∀ i ∈ recvIndexes (.bytes piece) ++ headerIndexes header (.bytes piece), Inside i) ↔ Fits before piece := by
  rw [List.forall_mem_append, recvIndexes_inside, headerIndexes_inside hh, Fits]

theorem writes_inside (rest : List (List UInt8)) (hh : Holds header before) (hg : Going before) :
    (∀ i ∈ writes (rest.map .bytes) header (total before), Inside i) ↔ CleanAfter before rest := by
  induction rest generalizing before header with
  | nil =>
      refine iff_of_true (fun i hi => ?_) (cleanAfter_nil before)
      cases hi
  | cons piece rest ih =>
      rw [cleanAfter_cons hg, List.map_cons, writes, List.forall_mem_append, round_inside hh]
      refine and_congr_right (fun hfits => ?_)
      obtain ⟨header', hstep, hh'⟩ := appendReceived_fits hh hfits
      simp only [hstep, total_next]
      by_cases hgoing : Going (before ++ [piece])
      · rw [if_pos ((loop_test hh').mpr hgoing)]
        exact ih hh' hgoing
      · rw [if_neg (mt (loop_test hh').mp hgoing)]
        refine iff_of_true (fun i hi => ?_) (cleanAfter_stopped rest hgoing)
        cases hi

theorem request_inBounds_iff (pieces : List (List UInt8)) : InBounds pieces ↔ Clean pieces :=
  writes_inside pieces holds_nil going_nil

/-- A full buffer pushes the terminator over its end. -/
theorem fullBuffer_not_inBounds : ¬ ∀ pieces : List (List UInt8),
    (∀ piece ∈ pieces, 1 ≤ piece.length ∧ piece.length ≤ maxRequestLen) → InBounds pieces := by
  intro hall
  have hin := hall [List.replicate maxRequestLen 65] (by simp [maxRequestLen])
  have hfits := (writes_inside _ holds_nil going_nil).mp hin [] (List.replicate maxRequestLen 65) [] rfl going_nil
  have hlen := hfits.1
  rw [List.length_replicate] at hlen
  omega

end GraduateOS.Gflib.RequestBounds
