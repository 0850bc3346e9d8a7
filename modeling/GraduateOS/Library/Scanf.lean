import Mathlib.Data.List.TakeWhile

namespace GraduateOS.Library.Scanf

inductive Directive
  | blank
  | literal (c : UInt8)
  | string

/-- White space in the C locale: the blank, and the bytes from tab to carriage return. -/
def isspace (c : UInt8) : Bool := c == 32 || (9 ≤ c && c ≤ 13)

/-- The directives of a format whose only conversion is `%s`. -/
def directives : List UInt8 → List Directive
  | 37 :: 115 :: format => .string :: directives format
  | c :: format => (if isspace c then .blank else .literal c) :: directives format
  | [] => []

/-- The strings that `sscanf` stores. A blank matches any white space and none,
`%s` skips white space and needs at least one byte behind it. -/
def sscanf : List Directive → List UInt8 → List (List UInt8)
  | [], _ => []
  | .blank :: ds, text => sscanf ds (text.dropWhile isspace)
  | .literal _ :: _, [] => []
  | .literal c :: ds, b :: text => if b = c then sscanf ds text else []
  | .string :: ds, text =>
      if text.dropWhile isspace = [] then []
      else ((text.dropWhile isspace).takeWhile (!isspace ·)) ::
        sscanf ds ((text.dropWhile isspace).dropWhile (!isspace ·))

def isdigit (c : UInt8) : Bool := 48 ≤ c && c ≤ 57

def decimal (text : List UInt8) : Int :=
  (text.takeWhile isdigit).foldl (fun n c => 10 * n + (c.toNat - 48)) 0

def inInt (n : Int) : Option Int := if -2147483648 ≤ n ∧ n ≤ 2147483647 then some n else none

/-- A number that does not fit an `int` is undefined. -/
def atoi (text : List UInt8) : Option Int :=
  match text.dropWhile isspace with
  | 45 :: text => inInt (-decimal text)
  | 43 :: text => inInt (decimal text)
  | text => inInt (decimal text)

def AllSpace (s : List UInt8) : Prop := ∀ c ∈ s, isspace c = true

def NoSpace (s : List UInt8) : Prop := ∀ c ∈ s, isspace c = false

instance (s : List UInt8) : Decidable (AllSpace s) := List.decidableBAll _ s

instance (s : List UInt8) : Decidable (NoSpace s) := List.decidableBAll _ s

variable {ds : List Directive} {s text : List UInt8} {c : UInt8}

def literals (s : List UInt8) : List Directive := s.map .literal

theorem dropWhile_space (hs : AllSpace s) (hc : isspace c = false) (text : List UInt8) :
    (s ++ c :: text).dropWhile isspace = c :: text := by
  rw [List.dropWhile_append_of_pos hs, List.dropWhile_cons_of_neg (by simp [hc])]

theorem takeWhile_word (hs : NoSpace s) (hc : isspace c = true) (text : List UInt8) :
    (s ++ c :: text).takeWhile (!isspace ·) = s := by
  rw [List.takeWhile_append_of_pos (by simpa [NoSpace] using hs), List.takeWhile_cons_of_neg (by simp [hc]),
    List.append_nil]

theorem sscanf_literals (s text : List UInt8) : sscanf (literals s ++ ds) (s ++ text) = sscanf ds text := by
  induction s with
  | nil => rfl
  | cons c s ih => simpa [literals, sscanf] using ih

theorem sscanf_blank (hs : AllSpace s) (hc : isspace c = false) (text : List UInt8) :
    sscanf (.blank :: ds) (s ++ c :: text) = sscanf ds (c :: text) := by
  rw [sscanf, dropWhile_space hs hc]

theorem sscanf_string (hs : AllSpace s) (hc : isspace c = false) (text : List UInt8) :
    sscanf (.string :: ds) (s ++ c :: text) =
      (c :: text).takeWhile (!isspace ·) :: sscanf ds ((c :: text).dropWhile (!isspace ·)) := by
  rw [sscanf, dropWhile_space hs hc, if_neg (List.cons_ne_nil c text)]

theorem literals_of_sscanf (h : sscanf (literals s ++ ds) text ≠ []) :
    ∃ rest, text = s ++ rest ∧ sscanf ds rest ≠ [] := by
  induction s generalizing text with
  | nil => exact ⟨text, rfl, h⟩
  | cons c s ih =>
      cases text with
      | nil => exact absurd rfl h
      | cons b text =>
          simp only [literals, List.map_cons, List.cons_append, sscanf] at h
          split at h
          next hb =>
            obtain ⟨rest, rfl, hrest⟩ := ih h
            exact ⟨rest, by rw [hb]; rfl, hrest⟩
          next => exact absurd rfl h

theorem blank_of_sscanf (h : sscanf (.blank :: ds) text ≠ []) :
    ∃ s rest, AllSpace s ∧ text = s ++ rest ∧ sscanf ds rest ≠ [] :=
  ⟨text.takeWhile isspace, text.dropWhile isspace, fun _ => List.mem_takeWhile_imp,
    List.takeWhile_append_dropWhile.symm, h⟩

theorem string_of_sscanf (h : sscanf (.string :: ds) text ≠ []) :
    ∃ s c rest, AllSpace s ∧ isspace c = false ∧ text = s ++ c :: rest := by
  rw [sscanf] at h
  split at h
  next => exact absurd rfl h
  next hne =>
    obtain ⟨c, rest, hc⟩ := List.exists_cons_of_ne_nil hne
    have hspace : isspace c = false := by
      have hd := List.head_dropWhile_not isspace hne
      simpa [hc] using hd
    refine ⟨text.takeWhile isspace, c, rest, fun _ => List.mem_takeWhile_imp, hspace, ?_⟩
    rw [← hc, List.takeWhile_append_dropWhile]

end GraduateOS.Library.Scanf
