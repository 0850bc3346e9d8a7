import Mathlib.Data.List.Basic

namespace GraduateOS.Library.CStrings

abbrev Memory := List UInt8

variable {s new mem : Memory} {c : UInt8}

/-- The text before the first NUL. Reading on to the end of the array is undefined. -/
def cstr : Memory → Option (List UInt8)
  | [] => none
  | c :: mem => if c = 0 then some [] else (cstr mem).map (c :: ·)

def overlay (new mem : Memory) : Memory := new ++ mem.drop new.length

def ascii (s : String) : List UInt8 := s.toList.map fun c => c.toNat.toUInt8

/-- Append a text to a text; there must be room for both and the NUL. -/
def strcat (dst src : Memory) : Option Memory :=
  (cstr dst).bind fun d => (cstr src).bind fun s =>
    if d.length + s.length < dst.length then some (overlay (d ++ s ++ [0]) dst) else none

structure CString where
  text : List UInt8
  nul : 0 ∉ text

/-- The array of `n` bytes after the copy: a longer text is not terminated. -/
def strncpy (src : CString) (n : Nat) : Memory := src.text.take n ++ List.replicate (n - src.text.length) 0

def strncat (dst : Memory) (src : CString) (n : Nat) : Option Memory := strcat dst (src.text.take n ++ [0])

/-- The rest of the text from the first place where the needle stands. -/
def strstr : List UInt8 → List UInt8 → Option (List UInt8)
  | [], needle => if needle = [] then some [] else none
  | c :: text, needle => if needle.isPrefixOf (c :: text) then some (c :: text) else strstr text needle

theorem cstr_zero (mem : Memory) : cstr (0 :: mem) = some [] := by simp [cstr]

theorem cstr_cons (hc : c ≠ 0) (mem : Memory) : cstr (c :: mem) = (cstr mem).map (c :: ·) := by
  simp [cstr, hc]

theorem cstr_append (hs : 0 ∉ s) (mem : Memory) : cstr (s ++ mem) = (cstr mem).map (s ++ ·) := by
  induction s with
  | nil => simp
  | cons c s ih =>
      have hc : c ≠ 0 := fun h => hs (h ▸ List.mem_cons_self)
      rw [List.cons_append, cstr_cons hc, ih (fun h => hs (List.mem_cons_of_mem c h)), Option.map_map]
      rfl

theorem cstr_terminated (hs : 0 ∉ s) (mem : Memory) : cstr (s ++ 0 :: mem) = some s := by
  simp [cstr_append hs, cstr_zero]

theorem cstr_eq_some (h : cstr mem = some s) : 0 ∉ s ∧ ∃ rest, mem = s ++ 0 :: rest := by
  induction mem generalizing s with
  | nil => cases h
  | cons c mem ih =>
      by_cases hc : c = 0
      · subst c
        rw [cstr_zero] at h
        cases h
        exact ⟨List.not_mem_nil, mem, rfl⟩
      · rw [cstr_cons hc] at h
        obtain ⟨t, ht, rfl⟩ := Option.map_eq_some_iff.mp h
        obtain ⟨hs, rest, rfl⟩ := ih ht
        exact ⟨by simp [Ne.symm hc, hs], rest, rfl⟩

theorem cstr_append_length {t : List UInt8} (hs : 0 ∉ s) (h : cstr (s ++ mem) = some t) :
    s.length ≤ t.length := by
  rw [cstr_append hs] at h
  obtain ⟨u, -, rfl⟩ := Option.map_eq_some_iff.mp h
  simp

theorem drop_overlay {n : Nat} (h : new.length ≤ n) : (overlay new mem).drop n = mem.drop n := by
  obtain ⟨k, rfl⟩ := Nat.exists_eq_add_of_le h
  rw [overlay, List.drop_length_add_append, List.drop_drop]

theorem overlay_overlay {new' : List UInt8} (h : new.length ≤ new'.length) :
    overlay new' (overlay new mem) = overlay new' mem := by
  rw [overlay, drop_overlay h, ← overlay]

theorem get_overlay {n : Nat} (h : n < new.length) : (overlay new mem)[n]? = new[n]? :=
  List.getElem?_append_left h

theorem cstr_overlay (hs : 0 ∉ new) : cstr (overlay new mem) = some new ↔ mem[new.length]? = some 0 := by
  rw [overlay, cstr_append hs, Option.map_eq_some_iff]
  simp only [List.append_right_eq_self]
  cases hmem : mem.drop new.length with
  | nil =>
      have hnone : mem[new.length]? = none := List.getElem?_eq_none (List.drop_eq_nil_iff.mp hmem)
      simp [cstr, hnone]
  | cons c rest =>
      have hc : mem[new.length]? = some c := by rw [← List.head?_drop, hmem]; rfl
      rw [hc, Option.some.injEq]
      by_cases h : c = 0
      · simp [h, cstr_zero]
      · simp [h, cstr_cons h]

theorem strcat_terminated {t : List UInt8} (hs : 0 ∉ s) (ht : 0 ∉ t) (mem mem' : Memory)
    (h : t.length ≤ mem.length) :
    strcat (s ++ 0 :: mem) (t ++ 0 :: mem') = some (s ++ t ++ 0 :: mem.drop t.length) := by
  rw [strcat, cstr_terminated hs, cstr_terminated ht, Option.bind_some, Option.bind_some, if_pos]
  · have hlen : (s ++ t ++ [0]).length = s.length + (t.length + 1) := by simp
    rw [overlay, hlen, ← List.drop_drop, List.drop_left, List.drop_succ_cons, List.append_assoc]
    rfl
  · simp; omega

theorem strcat_full {t : List UInt8} (hs : 0 ∉ s) (ht : 0 ∉ t) (mem mem' : Memory)
    (h : mem.length < t.length) : strcat (s ++ 0 :: mem) (t ++ 0 :: mem') = none := by
  rw [strcat, cstr_terminated hs, cstr_terminated ht, Option.bind_some, Option.bind_some, if_neg]
  simp
  omega

/-- A copy and a text behind it, where both are held to the size of the whole
array: they overrun it exactly when they and the NUL do not fit. -/
theorem strncat_strncpy (dst src : CString) (n : Nat) : (strncat (strncpy dst n) src n).bind cstr =
    if (dst.text ++ src.text).length < n then some (dst.text ++ src.text) else none := by
  have hnul : 0 ∉ src.text.take n := fun hz => src.nul (List.mem_of_mem_take hz)
  rw [strncat, List.length_append]
  by_cases hdst : dst.text.length < n
  · have hcopy : strncpy dst n = dst.text ++ 0 :: List.replicate (n - 1 - dst.text.length) 0 := by
      have hzeros : n - dst.text.length = n - 1 - dst.text.length + 1 := by omega
      rw [strncpy, List.take_of_length_le (Nat.le_of_lt hdst), hzeros, List.replicate_succ]
    rw [hcopy]
    by_cases hroom : dst.text.length + src.text.length < n
    · rw [if_pos hroom, List.take_of_length_le (by omega),
        strcat_terminated dst.nul src.nul _ _ (by rw [List.length_replicate]; omega), Option.bind_some]
      exact cstr_terminated (by rw [List.mem_append, not_or]; exact ⟨dst.nul, src.nul⟩) _
    · rw [if_neg hroom, strcat_full dst.nul hnul _ _ (by rw [List.length_replicate, List.length_take]; omega),
        Option.bind_none]
  · have hcopy : cstr (strncpy dst n) = none := by
      rw [strncpy, Nat.sub_eq_zero_of_le (Nat.not_lt.mp hdst),
        cstr_append fun hz => dst.nul (List.mem_of_mem_take hz)]
      rfl
    rw [if_neg (by omega), strcat, hcopy]
    rfl

theorem strstr_eq_none_iff {text needle : List UInt8} : strstr text needle = none ↔ ¬ needle <:+: text := by
  induction text with
  | nil => simp [strstr]
  | cons c text ih =>
      rw [strstr, List.infix_cons_iff, not_or, ← ih, ← List.isPrefixOf_iff_prefix]
      split
      next h => simp [h]
      next h => simp [h]

/-- A byte that the needle lacks keeps its places apart. -/
theorem infix_around {needle t : List UInt8} (hc : c ∉ needle) (h : needle <:+: s ++ c :: t) :
    needle <:+: s ∨ needle <:+: t := by
  obtain ⟨a, b, h⟩ := h
  rw [List.append_assoc] at h
  rcases List.append_eq_append_iff.mp h with ⟨x, rfl, hx⟩ | ⟨x, rfl, hx⟩
  · rcases List.append_eq_append_iff.mp hx with ⟨y, rfl, hy⟩ | ⟨y, hy, hb⟩
    · exact .inl ⟨a, y, by simp⟩
    · cases y with
      | nil => exact .inl ⟨a, [], by simp [hy]⟩
      | cons d y =>
          cases (List.cons.inj hb).1
          exact absurd (hy ▸ List.mem_append_right x List.mem_cons_self) hc
  · cases x with
    | nil =>
        cases needle with
        | nil => exact .inl List.nil_infix
        | cons d needle =>
            rw [List.nil_append] at hx
            cases (List.cons.inj hx).1
            exact absurd List.mem_cons_self hc
    | cons d x =>
        obtain ⟨rfl, rfl⟩ := List.cons.inj hx
        exact .inr ⟨x, b, by simp⟩

end GraduateOS.Library.CStrings
