import GraduateOS.Gflib.RequestLoops

namespace GraduateOS.Gflib.RequestEnds

open Library.CStrings Messages Requests RequestLoops

/-- How a client stops: it closes the connection, or every further `recv` fails. -/
inductive Ending
  | closed | failed

def Ending.received : Ending → Received
  | .closed => .closed
  | .failed => .failed

def Answers (pieces : List (List UInt8)) (ending : Ending) : Prop :=
  ∃ n answer, serve (pieces.map .bytes ++ List.replicate n ending.received) = some answer

variable {pieces before rest : List (List UInt8)} {header : Memory} {ending : Ending} {h : List UInt8}

/-- A closed connection looks like a piece without bytes. -/
theorem readHeader_closed (rs : List Received) (header : Memory) (sum : Int) :
    readHeader (.closed :: rs) header sum = readHeader (.bytes [] :: rs) header sum := by
  have hdata : Received.closed.data = (Received.bytes []).data := rfl
  have hcount : Received.closed.count = (Received.bytes []).count := rfl
  rw [readHeader, readHeader, appendReceived, appendReceived, hdata, hcount]

/-- A closed connection leaves the header and the sum as they are, so the loop
goes round for ever; an error stores the terminator in front of the array. -/
theorem ending_stuck (ending : Ending) (n : Nat) (hh : Holds header before) (hg : Going before) (header' : Memory) :
    readHeader (List.replicate n ending.received) header (total before) ≠ .finished header' := by
  induction n generalizing header before with
  | zero => exact Reading.noConfusion
  | succ n ih =>
      rw [List.replicate_succ]
      cases ending with
      | failed => exact Reading.noConfusion
      | closed =>
          have htext : text (before ++ [[]]) = text before := by simp [cut]
          have hfits : Fits before [] := by
            obtain ⟨hlen, hstr⟩ := hh
            obtain ⟨-, mem, rfl⟩ := cstr_eq_some hstr
            refine ⟨by decide, ?_⟩
            rw [htext]
            rw [List.length_append, List.length_cons] at hlen
            omega
          have hgoing : Going (before ++ [[]]) := by
            refine ⟨by rw [htext]; exact hg.1, ?_⟩
            rw [total_append, total_singleton]
            exact hg.2
          obtain ⟨header₁, hh₁, hnext, -⟩ := readHeader_fits hh hfits
          rw [Ending.received, readHeader_closed, hnext hgoing]
          exact ih hh₁ hgoing

/-- The loop ends on the pieces themselves or not at all. -/
theorem readHeader_ends_iff (ending : Ending) (rest : List (List UInt8)) (hh : Holds header before)
    (hg : Going before) :
    (∃ n header', readHeader (rest.map .bytes ++ List.replicate n ending.received) header (total before) =
        .finished header' ∧ cstr header' ≠ none) ↔ CleanAfter before rest ∧ ¬ Going (before ++ rest) := by
  induction rest generalizing before header with
  | nil =>
      rw [List.append_nil]
      refine iff_of_false ?_ (fun hend => hend.2 hg)
      rintro ⟨n, header', hend, -⟩
      exact ending_stuck ending n hh hg header' hend
  | cons piece rest ih =>
      have happ : before ++ piece :: rest = before ++ [piece] ++ rest := List.append_cons ..
      rw [cleanAfter_cons hg, happ]
      by_cases hfits : Fits before piece
      · obtain ⟨header₁, hh₁, hnext, hstop⟩ := readHeader_fits hh hfits
        by_cases hgoing : Going (before ++ [piece])
        · simp only [List.map_cons, List.cons_append, hnext hgoing, ih hh₁ hgoing, hfits, true_and]
        · refine iff_of_true ⟨0, header₁, hstop hgoing _, by simp [hh₁.2]⟩ ⟨⟨hfits, ?_⟩, fun h => hgoing h.start⟩
          exact cleanAfter_stopped rest hgoing
      · refine iff_of_false ?_ (fun hend => hfits hend.1.1)
        rintro ⟨n, header', hend, -⟩
        rw [List.map_cons, List.cons_append, readHeader_full hh hfits] at hend
        cases hend

theorem serve_isSome_iff {rs : List Received} : (∃ answer, serve rs = some answer) ↔
    ∃ header, readHeader rs (List.replicate maxRequestLen 0) 0 = .finished header ∧ cstr header ≠ none := by
  rw [serve]
  constructor
  · rintro ⟨answer, hserve⟩
    split at hserve
    next header hread =>
      refine ⟨header, hread, fun hnone => ?_⟩
      rw [hnone] at hserve
      cases hserve
    next => cases hserve
  · rintro ⟨header, hread, hstr⟩
    obtain ⟨h, hh⟩ := Option.ne_none_iff_exists'.mp hstr
    exact ⟨parseHeader h, by simp [hread, hh]⟩

/-- The server is done with a client exactly if the bytes that arrive bring
the end of the header or fill the count, and all of them fit the arrays. -/
theorem client_answered_iff (pieces : List (List UInt8)) (ending : Ending) :
    Answers pieces ending ↔ Clean pieces ∧ ¬ Going pieces := by
  simp only [Answers, serve_isSome_iff]
  exact readHeader_ends_iff ending pieces holds_nil going_nil

/-- A client that connects and goes away keeps the server for itself. -/
theorem nothing_not_answered : ¬ ∀ (pieces : List (List UInt8)) (ending : Ending),
    (∀ piece ∈ pieces, piece ≠ []) → Answers pieces ending := by
  intro hall
  have hanswers := hall [] .closed (by simp)
  simp only [Answers, serve_isSome_iff] at hanswers
  exact ((readHeader_ends_iff .closed [] holds_nil going_nil).mp hanswers).2 going_nil

end GraduateOS.Gflib.RequestEnds
