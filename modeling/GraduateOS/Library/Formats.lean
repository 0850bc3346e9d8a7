import GraduateOS.Library.Scanf
import Mathlib.Data.Nat.Digits.Lemmas

namespace GraduateOS.Library.Formats

open Scanf (isspace isdigit decimal inInt NoSpace)

inductive Directive
  | plain (d : Scanf.Directive)
  | int

inductive Arg
  | string (s : List UInt8)
  | int (n : Int)

def digits (n : Nat) : List UInt8 :=
  if n = 0 then [48] else ((Nat.digits 10 n).map fun d => (48 + d).toUInt8).reverse

def showInt (n : Int) : List UInt8 := if n < 0 then 45 :: digits n.natAbs else digits n.natAbs

/-- The text of a format whose conversions are `%s` and `%d`. -/
def sprintf : List UInt8 → List Arg → List UInt8
  | 37 :: 115 :: format, .string s :: args => s ++ sprintf format args
  | 37 :: 100 :: format, .int n :: args => showInt n ++ sprintf format args
  | c :: format, args => c :: sprintf format args
  | [], _ => []

def directives : List UInt8 → List Directive
  | 37 :: 115 :: format => .plain .string :: directives format
  | 37 :: 100 :: format => .int :: directives format
  | c :: format => .plain (if isspace c then .blank else .literal c) :: directives format
  | [] => []

/-- The digits that `%d` reads behind a sign. -/
def scanDigits (negative : Bool) (text : List UInt8) : Option (Option Int × List UInt8) :=
  if text.takeWhile isdigit = [] then none
  else some (inInt (if negative then -decimal text else decimal text), text.dropWhile isdigit)

/-- What `%d` reads, and what it leaves. The number is missing if an `int` cannot hold it. -/
def scanInt (text : List UInt8) : Option (Option Int × List UInt8) :=
  match text.dropWhile isspace with
  | 45 :: text => scanDigits true text
  | 43 :: text => scanDigits false text
  | text => scanDigits false text

/-- The values that `sscanf` stores; a number that does not fit is undefined. -/
def sscanf : List Directive → List UInt8 → Option (List Arg)
  | [], _ => some []
  | .plain .blank :: ds, text => sscanf ds (text.dropWhile isspace)
  | .plain (.literal _) :: _, [] => some []
  | .plain (.literal c) :: ds, b :: text => if b = c then sscanf ds text else some []
  | .plain .string :: ds, text =>
      if text.dropWhile isspace = [] then some []
      else (sscanf ds ((text.dropWhile isspace).dropWhile (!isspace ·))).map
        (.string ((text.dropWhile isspace).takeWhile (!isspace ·)) :: ·)
  | .int :: ds, text =>
      match scanInt text with
      | none => some []
      | some (n, rest) => n.bind fun n => (sscanf ds rest).map (.int n :: ·)

variable {ds : List Directive} {s rest text : List UInt8} {n : Nat} {c : UInt8}

theorem digit_isdigit {d : Nat} (h : d < 10) : isdigit (48 + d).toUInt8 = true ∧ (48 + d).toUInt8.toNat = 48 + d := by
  have hnat : (48 + d).toUInt8.toNat = 48 + d := by
    rw [Nat.toUInt8, UInt8.toNat_ofNat']
    omega
  refine ⟨?_, hnat⟩
  rw [isdigit, Bool.and_eq_true, decide_eq_true_eq, decide_eq_true_eq, UInt8.le_iff_toNat_le, UInt8.le_iff_toNat_le,
    hnat]
  exact ⟨Nat.le_add_right 48 d, by show 48 + d ≤ 57; omega⟩

theorem digits_ne_nil (n : Nat) : digits n ≠ [] := by
  unfold digits
  split
  · exact List.cons_ne_nil _ _
  · simpa [Nat.digits_eq_nil_iff_eq_zero] using ‹n ≠ 0›

theorem digits_isdigit (n : Nat) : ∀ c ∈ digits n, isdigit c = true := by
  intro c hc
  unfold digits at hc
  split at hc
  · cases List.mem_singleton.mp hc
    decide
  · obtain ⟨d, hd, rfl⟩ := List.mem_map.mp (List.mem_reverse.mp hc)
    exact (digit_isdigit (Nat.digits_lt_base (by decide) hd)).1

theorem isdigit_not_space (h : isdigit c = true) : isspace c = false := by
  rw [isdigit, Bool.and_eq_true, decide_eq_true_eq, decide_eq_true_eq, UInt8.le_iff_toNat_le,
    UInt8.le_iff_toNat_le] at h
  have hlow : 48 ≤ c.toNat := h.1
  rw [isspace, Bool.or_eq_false_iff, Bool.and_eq_false_iff]
  refine ⟨beq_false_of_ne ?_, .inr (decide_eq_false ?_)⟩
  · rintro rfl
    exact absurd hlow (by decide)
  · intro hc
    have hhigh : c.toNat ≤ 13 := UInt8.le_iff_toNat_le.mp hc
    omega

theorem foldl_digits (ds : List Nat) (h : ∀ d ∈ ds, d < 10) :
    ((ds.map fun d => (48 + d).toUInt8).reverse.foldl (fun (n : Int) (c : UInt8) => 10 * n + (c.toNat - 48)) 0) =
      (Nat.ofDigits 10 ds : Nat) := by
  rw [List.foldl_reverse]
  induction ds with
  | nil => rfl
  | cons d ds ih =>
      have hd := (digit_isdigit (h d List.mem_cons_self)).2
      rw [List.map_cons, List.foldr_cons, ih fun d hd => h d (List.mem_cons_of_mem _ hd), Nat.ofDigits_cons, hd]
      push_cast
      omega

/-- The digits of a number are read back as that number. -/
theorem decimal_digits (n : Nat) (hrest : ∀ c ∈ rest.head?, isdigit c = false) :
    (digits n ++ rest).takeWhile isdigit = digits n ∧ (digits n ++ rest).dropWhile isdigit = rest ∧
      decimal (digits n ++ rest) = n := by
  have hstop : rest.takeWhile isdigit = [] ∧ rest.dropWhile isdigit = rest := by
    cases rest with
    | nil => exact ⟨rfl, rfl⟩
    | cons c rest =>
        have hc := hrest c rfl
        exact ⟨List.takeWhile_cons_of_neg (by simp [hc]), List.dropWhile_cons_of_neg (by simp [hc])⟩
  have htake : (digits n ++ rest).takeWhile isdigit = digits n := by
    rw [List.takeWhile_append_of_pos (digits_isdigit n), hstop.1, List.append_nil]
  refine ⟨htake, ?_, ?_⟩
  · rw [List.dropWhile_append_of_pos (digits_isdigit n), hstop.2]
  · rw [decimal, htake, digits]
    split
    next h => rw [h]; rfl
    next => rw [foldl_digits _ fun d hd => Nat.digits_lt_base (by decide) hd, Nat.ofDigits_digits]

theorem digits_head (n : Nat) (rest : List UInt8) :
    ∃ c text, digits n ++ rest = c :: text ∧ isdigit c = true := by
  obtain ⟨c, text, h⟩ := List.exists_cons_of_ne_nil (digits_ne_nil n)
  exact ⟨c, text ++ rest, by rw [h]; rfl, digits_isdigit n c (h ▸ List.mem_cons_self)⟩

theorem scanInt_digits (hn : n < 2 ^ 31) (hrest : ∀ c ∈ rest.head?, isdigit c = false) :
    scanInt (digits n ++ rest) = some (some (n : Int), rest) := by
  obtain ⟨htake, hdrop, hvalue⟩ := decimal_digits n hrest
  obtain ⟨c, text, htext, hc⟩ := digits_head n rest
  have hscan : scanDigits false (digits n ++ rest) = some (some (n : Int), rest) := by
    rw [scanDigits, htake, if_neg (digits_ne_nil n), hdrop, hvalue]
    simp only [Bool.false_eq_true, if_false, inInt]
    rw [if_pos ⟨by omega, by omega⟩]
  have hskip : (digits n ++ rest).dropWhile isspace = digits n ++ rest := by
    rw [htext, List.dropWhile_cons_of_neg (by simp [isdigit_not_space hc])]
  rw [scanInt, hskip]
  split
  next h => rw [htext] at h; cases h; cases hc
  next h => rw [htext] at h; cases h; cases hc
  next => exact hscan

theorem sscanf_word (hs : NoSpace s) (hne : s ≠ []) (hc : isspace c = true) (text : List UInt8) :
    sscanf (.plain .string :: ds) (s ++ c :: text) = (sscanf ds (c :: text)).map (.string s :: ·) := by
  obtain ⟨b, t, rfl⟩ := List.exists_cons_of_ne_nil hne
  have hb : isspace b = false := hs b List.mem_cons_self
  have hskip : (b :: t ++ c :: text).dropWhile isspace = b :: t ++ c :: text :=
    List.dropWhile_cons_of_neg (by simp [hb])
  have hword : ∀ x ∈ b :: t, (!isspace x) = true := fun x hx => by rw [hs x hx]; rfl
  rw [sscanf, hskip, if_neg (by simp), Scanf.takeWhile_word hs hc, List.dropWhile_append_of_pos hword,
    List.dropWhile_cons_of_neg (by simp [hc])]

theorem sscanf_sprintf (hs : NoSpace s) (hne : s ≠ []) (hn : n < 2 ^ 31) :
    sscanf [.plain .string, .plain .blank, .int] (s ++ 32 :: digits n) = some [.string s, .int n] := by
  have hnum : scanInt (digits n ++ []) = some (some (n : Int), []) := scanInt_digits hn (fun c hc => by cases hc)
  obtain ⟨c, text, htext, hc⟩ := digits_head n []
  rw [List.append_nil] at hnum htext
  have hskip : (32 :: digits n).dropWhile isspace = digits n := by
    rw [htext, List.dropWhile_cons_of_pos rfl, List.dropWhile_cons_of_neg (by simp [isdigit_not_space hc])]
  rw [sscanf_word hs hne rfl, sscanf, hskip, sscanf, hnum]
  rfl

/-- What an unsigned conversion reads for a type with the values below `limit`,
and what it leaves. The number is missing if the type cannot hold it. -/
def scanUnsigned (limit : Nat) (text : List UInt8) : Option (Option Nat × List UInt8) :=
  match text.dropWhile isspace with
  | 45 :: text => digitsBelow limit (fun n => (limit - n) % limit) text
  | 43 :: text => digitsBelow limit id text
  | text => digitsBelow limit id text
where
  digitsBelow (limit : Nat) (value : Nat → Nat) (text : List UInt8) : Option (Option Nat × List UInt8) :=
    if text.takeWhile isdigit = [] then none
    else some (if (decimal text).toNat < limit then some (value (decimal text).toNat) else none,
      text.dropWhile isdigit)

def sprintfUnsigned : List Nat → List UInt8
  | [] => []
  | [n] => digits n
  | n :: ns => digits n ++ 32 :: sprintfUnsigned ns

def sscanfUnsigned : List Nat → List UInt8 → Option (List Nat)
  | [], _ => some []
  | limit :: limits, text =>
      match scanUnsigned limit text with
      | none => some []
      | some (n, rest) => n.bind fun n => (sscanfUnsigned limits (rest.dropWhile isspace)).map (n :: ·)

theorem scanUnsigned_digits {limit : Nat} (hn : n < limit) (hrest : ∀ c ∈ rest.head?, isdigit c = false) :
    scanUnsigned limit (digits n ++ rest) = some (some n, rest) := by
  obtain ⟨htake, hdrop, hvalue⟩ := decimal_digits n hrest
  obtain ⟨c, text, htext, hc⟩ := digits_head n rest
  have hscan : scanUnsigned.digitsBelow limit id (digits n ++ rest) = some (some n, rest) := by
    rw [scanUnsigned.digitsBelow, htake, if_neg (digits_ne_nil n), hdrop, hvalue, Int.toNat_natCast, if_pos hn]
    rfl
  have hskip : (digits n ++ rest).dropWhile isspace = digits n ++ rest := by
    rw [htext, List.dropWhile_cons_of_neg (by simp [isdigit_not_space hc])]
  rw [scanUnsigned, hskip]
  split
  next h => rw [htext] at h; cases h; cases hc
  next h => rw [htext] at h; cases h; cases hc
  next => exact hscan

theorem sprintfUnsigned_head (n : Nat) (ns : List Nat) :
    ∃ c text, sprintfUnsigned (n :: ns) = c :: text ∧ isdigit c = true := by
  cases ns with
  | nil =>
      obtain ⟨c, text, htext, hc⟩ := digits_head n []
      rw [List.append_nil] at htext
      exact ⟨c, text, htext, hc⟩
  | cons m ns => exact digits_head n _

theorem sscanf_sprintfUnsigned {ns limits : List Nat} (h : List.Forall₂ (· < ·) ns limits) :
    sscanfUnsigned limits (sprintfUnsigned ns) = some ns := by
  induction h with
  | nil => rfl
  | @cons n limit ns limits hn hrest ih =>
      cases ns with
      | nil =>
          have hscan : scanUnsigned limit (digits n ++ []) = some (some n, []) :=
            scanUnsigned_digits hn (fun c hc => by cases hc)
          rw [List.append_nil] at hscan
          cases hrest
          rw [sprintfUnsigned, sscanfUnsigned, hscan]
          rfl
      | cons m ns =>
          have hscan : scanUnsigned limit (digits n ++ 32 :: sprintfUnsigned (m :: ns)) =
              some (some n, 32 :: sprintfUnsigned (m :: ns)) := by
            refine scanUnsigned_digits hn (fun c hc => ?_)
            cases hc
            rfl
          obtain ⟨c, text, htext, hc⟩ := sprintfUnsigned_head m ns
          have hskip : (32 :: sprintfUnsigned (m :: ns)).dropWhile isspace = sprintfUnsigned (m :: ns) := by
            rw [htext, List.dropWhile_cons_of_pos rfl, List.dropWhile_cons_of_neg (by simp [isdigit_not_space hc])]
          rw [sprintfUnsigned, sscanfUnsigned, hscan]
          simp only [Option.bind_some, hskip, ih, Option.map_some]
          exact List.cons_ne_nil m ns

theorem sprintfUnsigned_nul (ns : List Nat) : 0 ∉ sprintfUnsigned ns := by
  have hdigits (n : Nat) : (0 : UInt8) ∉ digits n := fun h => absurd (digits_isdigit n 0 h) (by decide)
  induction ns with
  | nil => exact List.not_mem_nil
  | cons n ns ih =>
      cases ns with
      | nil => exact hdigits n
      | cons m ns =>
          rw [sprintfUnsigned, List.mem_append, List.mem_cons, not_or, not_or]
          · exact ⟨hdigits n, by decide, ih⟩
          · exact List.cons_ne_nil m ns

theorem digits_length {k : Nat} (hk : 0 < k) (hn : n < 10 ^ k) : (digits n).length ≤ k := by
  unfold digits
  split
  · exact hk
  · rw [List.length_reverse, List.length_map]
    exact (Nat.digits_length_le_iff (by decide) n).mpr hn

end GraduateOS.Library.Formats
