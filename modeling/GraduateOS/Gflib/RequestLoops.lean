import GraduateOS.Gflib.Requests

namespace GraduateOS.Gflib.RequestLoops

open Library.CStrings Messages Requests

/-- What `strcat` takes of a result of `recv`: the bytes before the first NUL. -/
def cut (piece : List UInt8) : List UInt8 := piece.takeWhile (· ≠ 0)

def text (pieces : List (List UInt8)) : List UInt8 := pieces.flatMap cut

def total (pieces : List (List UInt8)) : Nat := pieces.flatten.length

def Going (pieces : List (List UInt8)) : Prop :=
  ¬ headerEnd <:+: text pieces ∧ total pieces < maxRequestLen

def Fits (pieces : List (List UInt8)) (piece : List UInt8) : Prop :=
  piece.length < maxRequestLen ∧ (text (pieces ++ [piece])).length < maxRequestLen

def Clean (pieces : List (List UInt8)) : Prop :=
  ∀ before piece after, pieces = before ++ piece :: after → Going before → Fits before piece

def CleanAfter (before rest : List (List UInt8)) : Prop :=
  ∀ mid piece after, rest = mid ++ piece :: after → Going (before ++ mid) → Fits (before ++ mid) piece

def Holds (header : Memory) (pieces : List (List UInt8)) : Prop :=
  header.length = maxRequestLen ∧ cstr header = some (text pieces)

variable {pieces before rest : List (List UInt8)} {piece : List UInt8} {header : Memory}

@[simp] theorem text_append (pieces rest : List (List UInt8)) : text (pieces ++ rest) = text pieces ++ text rest :=
  List.flatMap_append

@[simp] theorem text_singleton (piece : List UInt8) : text [piece] = cut piece := by simp [text]

@[simp] theorem total_append (pieces rest : List (List UInt8)) :
    total (pieces ++ rest) = total pieces + total rest := by
  simp [total]

@[simp] theorem total_singleton (piece : List UInt8) : total [piece] = piece.length := by simp [total]

theorem going_nil : Going [] := ⟨by simp [text, headerEnd], by decide⟩

theorem Going.start (h : Going (before ++ rest)) : Going before := by
  obtain ⟨hend, hsum⟩ := h
  rw [text_append] at hend
  rw [total_append] at hsum
  exact ⟨fun hin => hend (hin.trans (List.infix_append' [] _ _)), by omega⟩

theorem cut_nul (piece : List UInt8) : 0 ∉ cut piece := fun h => by simpa using List.mem_takeWhile_imp h

theorem cut_terminated (piece : List UInt8) (mem : Memory) : ∃ mem', piece ++ 0 :: mem = cut piece ++ 0 :: mem' := by
  induction piece with
  | nil => exact ⟨mem, rfl⟩
  | cons c piece ih =>
      by_cases hc : c = 0
      · exact ⟨piece ++ 0 :: mem, by simp [cut, hc]⟩
      · obtain ⟨mem', hmem⟩ := ih
        exact ⟨mem', by simp [cut, hc] at hmem ⊢; exact hmem⟩

theorem cut_whole (h0 : 0 ∉ piece) : cut piece = piece := by
  rw [cut, List.takeWhile_eq_self_iff]
  intro c hc
  simpa using fun h : c = 0 => h0 (h ▸ hc)

theorem holds_nil : Holds (List.replicate maxRequestLen 0) [] := ⟨List.length_replicate, rfl⟩

theorem store_received (piece : List UInt8) :
    (piece.length < maxRequestLen ∧ ∃ mem, store (overlay piece (List.replicate maxRequestLen 0)) piece.length 0 =
        some (piece ++ 0 :: mem)) ∨
      maxRequestLen ≤ piece.length ∧ store (overlay piece (List.replicate maxRequestLen 0)) piece.length 0 = none := by
  rcases Nat.lt_or_ge piece.length maxRequestLen with hlen | hlen
  · left
    obtain ⟨k, hk⟩ : ∃ k, maxRequestLen = piece.length + (k + 1) :=
      ⟨maxRequestLen - piece.length - 1, by omega⟩
    refine ⟨hlen, List.replicate k 0, ?_⟩
    have hrecv : overlay piece (List.replicate maxRequestLen 0) = piece ++ 0 :: List.replicate k 0 := by
      rw [overlay, List.drop_replicate, hk, Nat.add_sub_cancel_left]
      rfl
    have hin : piece.length < (piece ++ 0 :: List.replicate k 0).length := by
      rw [List.length_append, List.length_cons]
      omega
    rw [hrecv, store, if_pos ⟨Int.natCast_nonneg _, Int.ofNat_lt.mpr hin⟩]
    simp
  · right
    refine ⟨hlen, ?_⟩
    rw [store, if_neg]
    simp [overlay]
    omega

theorem appendReceived_fits (hh : Holds header before) (hf : Fits before piece) :
    ∃ header', appendReceived (.bytes piece) header = some header' ∧ Holds header' (before ++ [piece]) := by
  obtain ⟨hlen, hstr⟩ := hh
  obtain ⟨hpiece, htext⟩ := hf
  obtain ⟨h0, mem, rfl⟩ := cstr_eq_some hstr
  obtain ⟨-, recvd, hstore⟩ := (store_received piece).resolve_right (fun h => by omega)
  obtain ⟨mem', hmem'⟩ := cut_terminated piece recvd
  have hroom : (cut piece).length ≤ mem.length := by
    simp only [text_append, text_singleton, List.length_append, List.length_cons] at htext hlen
    omega
  refine ⟨text before ++ cut piece ++ 0 :: mem.drop (cut piece).length, ?_, ?_, ?_⟩
  · rw [appendReceived, Received.data, Received.count, hstore, Option.bind_some, hmem',
      strcat_terminated h0 (cut_nul piece) _ _ hroom]
  · simp only [List.length_append, List.length_cons, List.length_drop] at hlen ⊢
    omega
  · rw [text_append, text_singleton]
    exact cstr_terminated (by simp [h0, cut_nul]) _

theorem appendReceived_full (hh : Holds header before) (hf : ¬ Fits before piece) :
    appendReceived (.bytes piece) header = none := by
  obtain ⟨hlen, hstr⟩ := hh
  obtain ⟨h0, mem, rfl⟩ := cstr_eq_some hstr
  rw [appendReceived, Received.data, Received.count]
  rcases store_received piece with ⟨hpiece, recvd, hstore⟩ | ⟨-, hstore⟩
  · obtain ⟨mem', hmem'⟩ := cut_terminated piece recvd
    rw [hstore, Option.bind_some, hmem', strcat_full h0 (cut_nul piece)]
    by_contra hroom
    apply hf
    refine ⟨hpiece, ?_⟩
    simp only [text_append, text_singleton, List.length_append, List.length_cons] at hlen ⊢
    omega
  · rw [hstore, Option.bind_none]

theorem loop_test (hh : Holds header pieces) :
    ((cstr header).bind (strstr · headerEnd) = none ∧ (total pieces : Int) < maxRequestLen) ↔ Going pieces := by
  rw [hh.2, Option.bind_some, strstr_eq_none_iff, Going]
  exact and_congr_right' Int.ofNat_lt

theorem total_next (before : List (List UInt8)) (piece : List UInt8) :
    (total before : Int) + (Received.bytes piece).count = total (before ++ [piece]) := by
  rw [total_append, total_singleton, Received.count, Int.natCast_add]

/-- The loop after one more piece that fits: it goes on or ends. -/
theorem readHeader_fits (hh : Holds header before) (hf : Fits before piece) :
    ∃ header', Holds header' (before ++ [piece]) ∧
      (Going (before ++ [piece]) → ∀ rs, readHeader (.bytes piece :: rs) header (total before) =
        readHeader rs header' (total (before ++ [piece]))) ∧
      (¬ Going (before ++ [piece]) → ∀ rs, readHeader (.bytes piece :: rs) header (total before) =
        .finished header') := by
  obtain ⟨header', hstep, hh'⟩ := appendReceived_fits hh hf
  refine ⟨header', hh', fun hg rs => ?_, fun hg rs => ?_⟩
  · rw [readHeader, hstep]
    simp only [total_next, if_pos ((loop_test hh').mpr hg)]
  · rw [readHeader, hstep]
    simp only [total_next, if_neg (mt (loop_test hh').mp hg)]

theorem readHeader_full (hh : Holds header before) (hf : ¬ Fits before piece) (rs : List Received) (sum : Int) :
    readHeader (.bytes piece :: rs) header sum = .undefined := by
  rw [readHeader, appendReceived_full hh hf]

theorem cleanAfter_nil (before : List (List UInt8)) : CleanAfter before [] := by
  intro mid p after he
  simp at he

theorem cleanAfter_stopped (rest : List (List UInt8)) (hg : ¬ Going before) : CleanAfter before rest :=
  fun _ _ _ _ h => absurd h.start hg

theorem cleanAfter_cons (hg : Going before) :
    CleanAfter before (piece :: rest) ↔ Fits before piece ∧ CleanAfter (before ++ [piece]) rest := by
  constructor
  · intro h
    have hfirst := h [] piece rest rfl
    rw [List.append_nil] at hfirst
    refine ⟨hfirst hg, fun mid p after hrest => ?_⟩
    have hnext := h (piece :: mid) p after (by rw [hrest]; rfl)
    rw [List.append_assoc]
    exact hnext
  · rintro ⟨hfirst, hnext⟩ mid p after he
    cases mid with
    | nil =>
        cases he
        rw [List.append_nil]
        exact fun _ => hfirst
    | cons c mid =>
        cases he
        have hrest := hnext mid p after rfl
        rw [List.append_assoc] at hrest
        exact hrest

/-- A text that fits the arrays and holds the end of a header may arrive in one piece. -/
theorem accumulates_whole {h : List UInt8} (h0 : 0 ∉ h) (hlen : h.length < maxRequestLen)
    (hend : headerEnd <:+: h) : Accumulates [.bytes h] h := by
  have htext : text ([] ++ [h]) = h := by rw [List.nil_append, text_singleton, cut_whole h0]
  have hfits : Fits [] h := ⟨hlen, by rw [htext]; exact hlen⟩
  obtain ⟨header, hh, -, hstop⟩ := readHeader_fits holds_nil hfits
  refine ⟨header, hstop (fun hg => hg.1 ?_) [], ?_⟩
  · rw [htext]
    exact hend
  · rw [hh.2, htext]

end GraduateOS.Gflib.RequestLoops
